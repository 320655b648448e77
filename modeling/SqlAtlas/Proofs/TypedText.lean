import SqlAtlas.Proofs.Spelling
import SqlAtlas.Proofs.TokenSpans
import SqlAtlas.Proofs.Cutoff

namespace SqlAtlas

namespace Lexeme

theorem prefix_iff_of_take_two {pattern cs ds : List Char} (hlength : pattern.length ≤ 2)
    (h : cs.take 2 = ds.take 2) : pattern <+: cs ↔ pattern <+: ds := by
  have htake (es : List Char) : pattern <+: es ↔ pattern <+: es.take 2 :=
    (List.prefix_take_iff.trans (and_iff_left hlength)).symm
  rw [htake cs, htake ds, h]

theorem take_two_append {cs ds : List Char} (h : cs.take 2 = ds.take 2) (text : List Char) :
    (text ++ cs).take 2 = (text ++ ds).take 2 := by
  rw [List.take_append, List.take_append]
  congr 1
  rw [← Nat.min_eq_left (Nat.sub_le 2 text.length), ← List.take_take, ← List.take_take, h]

theorem Stops.of_take_two {accepts : Char → Bool} {cs ds : List Char} (h : Stops accepts cs)
    (htake : cs.take 2 = ds.take 2) : Stops accepts ds := by
  have hhead (es : List Char) : (es.take 2).head? = es.head? := by simp [List.head?_take]
  intro c hc
  refine h c ?_
  rwa [← hhead, htake, hhead]

theorem Spelled.of_take_two {form : Form} {text rest rest' : List Char} (h : Spelled form text rest)
    (htake : rest.take 2 = rest'.take 2) : Spelled form text rest' := by
  have hnil (hrest : rest = []) : rest' = [] := by
    subst hrest
    simpa using htake.symm
  cases h with
  | layout hc => exact .layout hc
  | lineComment hbody hstops => exact .lineComment hbody (hstops.of_take_two htake)
  | blockComment hbody => exact .blockComment hbody
  | openComment hbody => exact hnil rfl ▸ .openComment hbody
  | string hmark hbody hstops => exact .string hmark hbody (hstops.of_take_two htake)
  | openString hmark hbody => exact hnil rfl ▸ .openString hmark hbody
  | name hmark hbody => exact .name hmark hbody
  | openName hmark hbody => exact hnil rfl ▸ .openName hmark hbody
  | number hne hwhole hfraction =>
      refine .number hne hwhole ?_
      cases hfraction with
      | none hstops hdot =>
          exact .none (hstops.of_take_two htake) fun d hd =>
            hdot d ((prefix_iff_of_take_two (by simp) htake).2 hd)
      | some hdigits hall hstops => exact .some hdigits hall (hstops.of_take_two htake)
  | word hc hbody hstops hmarks =>
      refine .word hc hbody (hstops.of_take_two htake) fun mark hmark hbegins =>
        hmarks mark hmark ?_
      have hall : ∀ mark ∈ stringMarks, mark.length ≤ 2 := by decide
      rw [← List.cons_append] at hbegins ⊢
      exact (prefix_iff_of_take_two (hall mark hmark) (take_two_append htake _)).2 hbegins
  | symbol hmem hlongest hline hblock =>
      have hiff {pattern : List Char} (hlength : pattern.length ≤ 2) :=
        prefix_iff_of_take_two hlength (take_two_append htake text)
      refine .symbol hmem (fun other hother hbegins => hlongest other hother ?_)
        (fun hbegins => hline ((hiff (by simp)).2 hbegins))
        (fun hbegins => hblock ((hiff (by simp)).2 hbegins))
      have hlength := length_of_mem_symbols hother
      exact (hiff (by omega)).2 hbegins
  | @unknown c _ hlayout hmarks hdigit hword hsymbols =>
      refine .unknown hlayout hmarks hdigit hword fun symbol hsymbol hbegins =>
        hsymbols symbol hsymbol ?_
      have hlength := length_of_mem_symbols hsymbol
      exact (prefix_iff_of_take_two (by omega) (take_two_append htake [c])).2 hbegins

theorem Spelled.of_layout {text rest : List Char} (h : Spelled .layout text rest)
    (rest' : List Char) :
    Spelled .layout text rest' := by
  cases h with
  | layout hc => exact .layout hc

theorem spelled_of_cut {lexeme : Lexeme} {more : List Char} {lexemes : List Lexeme}
    (h : cut (lexeme.text ++ more) = lexeme :: lexemes) :
    Spelled lexeme.form lexeme.text more ∧ cut more = lexemes := by
  have hne : lexeme.text ≠ [] := text_ne_nil_of_mem_cut (h ▸ List.mem_cons_self)
  obtain ⟨c, body, htext⟩ := List.exists_cons_of_ne_nil hne
  rw [htext, List.cons_append, cut_cons] at h
  obtain ⟨hfirst, hlexemes⟩ := List.cons.inj h
  have hrest : rest c (body ++ more) = more := by
    have hall := first_append_rest c (body ++ more)
    rw [hfirst, htext, List.cons_append] at hall
    exact List.append_cancel_left (List.cons.inj hall).2
  have hspelled := spelled_first c (body ++ more)
  rw [hfirst, hrest] at hspelled
  rw [hrest] at hlexemes
  exact ⟨hspelled, hlexemes⟩

theorem cut_append {before : List Lexeme} {c : Char} {cs ds : List Char}
    (hcut : cut ((before.map text).flatten ++ c :: cs) = before ++ cut (c :: cs))
    (hlast : ∀ last ∈ before.getLast?, last.form = .layout) :
    cut ((before.map text).flatten ++ c :: ds) = before ++ cut (c :: ds) := by
  induction before with
  | nil => rfl
  | cons lexeme before ih =>
      rw [List.map_cons, List.flatten_cons, List.append_assoc, List.cons_append] at hcut ⊢
      obtain ⟨hspelled, hmore⟩ := spelled_of_cut hcut
      suffices hsame : Spelled lexeme.form lexeme.text ((before.map text).flatten ++ c :: ds) by
        rw [cut_of_spelled hsame, ih hmore fun last hmem => hlast last ?_]
        rw [List.getLast?_cons, Option.mem_def.1 hmem]
        rfl
      cases before with
      | nil =>
          have hform : lexeme.form = .layout := hlast lexeme rfl
          rw [hform] at hspelled ⊢
          exact hspelled.of_layout _
      | cons next before =>
          have hmem : next ∈ cut (((next :: before).map text).flatten ++ c :: cs) := by
            rw [hmore]
            exact List.mem_cons_self
          obtain ⟨d, body, htext⟩ := List.exists_cons_of_ne_nil (text_ne_nil_of_mem_cut hmem)
          refine hspelled.of_take_two ?_
          rw [List.map_cons, List.flatten_cons, htext, List.cons_append, List.cons_append,
            List.cons_append]
          cases body ++ (before.map text).flatten <;> rfl

theorem eq_append_of_cut {cs : List Char} {before after : List Lexeme}
    (h : cut cs = before ++ after) :
    cs = (before.map text).flatten ++ (after.map text).flatten := by
  rw [← List.flatten_append, ← List.map_append, ← h, flatten_cut]

theorem cut_of_append {cs : List Char} {before after : List Lexeme} (h : cut cs = before ++ after) :
    cut ((after.map text).flatten) = after := by
  induction before generalizing cs with
  | nil => rw [← List.nil_append after, ← h, flatten_cut]
  | cons lexeme before ih =>
      rw [eq_append_of_cut h, List.map_cons, List.flatten_cons, List.append_assoc] at h
      exact ih (spelled_of_cut h).2

theorem locate_append (line offset : Nat) (before after : List Lexeme) :
    locate line offset (before ++ after) = locate line offset before ++
      locate (line + Text.lineFeeds (before.map text).flatten)
        (offset + Text.bytes (before.map text).flatten) after := by
  induction before generalizing line offset with
  | nil => rfl
  | cons lexeme before ih =>
      rw [List.cons_append, locate_cons, ih, locate_cons, List.map_cons, List.flatten_cons,
        Text.lineFeeds_append, Text.bytes_append, Nat.add_assoc, Nat.add_assoc]
      rfl

theorem exists_lexeme {script : List Char} {pre post : List (Token Kind)} {token : Token Kind}
    (h : (locate 1 0 (cut script)).filterMap token? = pre ++ token :: post) :
    ∃ before lexeme after, cut script = before ++ lexeme :: after ∧
      (locate 1 0 before).filterMap token? = pre ∧ lexeme.kind? = some token.kind ∧
      token.span = lexeme.spanAt (1 + Text.lineFeeds (before.map text).flatten)
        (Text.bytes (before.map text).flatten) := by
  obtain ⟨first, second, hlocate, hpre, hsecond⟩ := List.filterMap_eq_append_iff.1 h
  obtain ⟨skipped, located, later, rfl, hskipped, htoken, -⟩ := List.filterMap_eq_cons_iff.1 hsecond
  obtain ⟨kind, hkind, rfl⟩ := Option.map_eq_some_iff.1 htoken
  have hcut : cut script = (first ++ skipped).map Prod.fst ++ located.1 :: later.map Prod.fst := by
    have hfst := map_fst_locate 1 0 (cut script)
    rw [hlocate] at hfst
    rw [← hfst]
    simp
  have hsplit := hlocate
  rw [hcut, locate_append, ← List.append_assoc] at hsplit
  obtain ⟨hbefore, hlater⟩ := List.append_inj hsplit (by
    have hlength := congrArg List.length (map_fst_locate 1 0 ((first ++ skipped).map Prod.fst))
    simpa using hlength)
  refine ⟨_, _, _, hcut, ?_, hkind, ?_⟩
  · rw [hbefore, List.filterMap_append, hpre, List.filterMap_eq_nil_iff.2 hskipped, List.append_nil]
  · rw [locate_cons] at hlater
    rw [← (List.cons.inj hlater).1, Nat.zero_add]

theorem word_of_keyword {form : Form} {text rest : List Char} {keyword : Keyword}
    (h : Spelled form text rest) (hkind : kind? ⟨form, text⟩ = some (.keyword keyword)) :
    form = .word ∧ wordKind text = .keyword keyword := by
  cases h with
  | word _ _ _ _ => exact ⟨rfl, Option.some.inj hkind⟩
  | @symbol _ _ kind hmem _ _ _ =>
      have hall : ∀ symbol ∈ symbols, ∀ keyword, symbol.2 ≠ .keyword keyword := by
        simp [symbols]
      exact absurd (Option.some.inj hkind) (hall _ hmem keyword)
  | _ => cases hkind

theorem isBlank_of_isWordPart {c : Char} (h : isWordPart c = true) : Text.isBlank c = false := by
  rw [← Bool.not_eq_true]
  intro hblank
  have hnot := isAlphanum_of_blank hblank
  simp only [isWordPart, hnot, Bool.false_or, Bool.or_eq_true, beq_iff_eq] at h
  rcases h with ((rfl | rfl) | rfl) | rfl <;> exact absurd hblank (by decide)

theorem isWordPart_of_isWordStart {c : Char} (h : isWordStart c = true) : isWordPart c = true := by
  simp only [isWordStart, Bool.or_eq_true] at h
  simp only [isWordPart, Char.isAlphanum, Bool.or_eq_true]
  tauto

theorem isBlank_of_isDigit {c : Char} (h : c.isDigit = true) : Text.isBlank c = false :=
  isBlank_of_isWordPart (by simp [isWordPart, Char.isAlphanum, h])

theorem layout_of_endsBlank {form : Form} {text rest : List Char} (h : Spelled form text rest)
    (hflaw : flaw? ⟨form, text⟩ = none) (hblank : Text.endsBlank text = true)
    (hrest : ∃ c ∈ rest.head?, c ≠ '\n') : form = .layout := by
  obtain ⟨c, hc, hcblank⟩ := (Option.any_eq_true _ _).1 hblank
  have hlast (text' : List Char) (last : Char) (htext : text = text' ++ [last]) : c = last := by
    rw [htext, List.getLast?_concat] at hc
    exact (Option.some.inj hc).symm
  have hmem : c ∈ text := List.mem_of_getLast? hc
  cases h with
  | layout _ => rfl
  | lineComment _ hstops =>
      obtain ⟨d, hd, hne⟩ := hrest
      simpa [hne] using hstops d hd
  | @blockComment body _ _ =>
      rw [hlast ('/' :: '*' :: (body ++ ['*'])) '/' (by simp)] at hcblank
      cases hcblank
  | @string mark body _ _ _ _ =>
      rw [hlast (mark ++ body) '\'' rfl] at hcblank
      cases hcblank
  | @name first last body _ hmark _ =>
      rw [hlast (first :: body) last rfl] at hcblank
      have hall : ∀ mark ∈ nameMarks, Text.isBlank mark.2 = false := by decide
      simp [hall _ hmark] at hcblank
  | @number whole fraction _ _ hwhole hfraction =>
      have hsolid : Text.isBlank c = false := by
        rcases List.mem_append.1 hmem with hmem | hmem
        · exact isBlank_of_isDigit (hwhole c hmem)
        · cases hfraction with
          | none _ _ => cases hmem
          | some _ hdigits _ =>
              rcases List.mem_cons.1 hmem with rfl | hmem
              · decide
              · exact isBlank_of_isDigit (hdigits c hmem)
      rw [hsolid] at hcblank
      cases hcblank
  | word hstart hbody _ _ =>
      have hpart : isWordPart c = true := by
        rcases List.mem_cons.1 hmem with rfl | hmem
        · exact isWordPart_of_isWordStart hstart
        · exact hbody c hmem
      rw [isBlank_of_isWordPart hpart] at hcblank
      cases hcblank
  | symbol hsymbol _ _ _ =>
      have hall : symbols.all (fun symbol => symbol.1.all (!Text.isBlank ·)) = true := by decide
      have hc := List.all_eq_true.1 (List.all_eq_true.1 hall _ hsymbol) c hmem
      rw [hcblank] at hc
      cases hc
  | openComment _ | openString _ _ | openName _ _ | unknown _ _ _ _ _ => cases hflaw

theorem flaw?_eq_none {script : String} {lexeme : Lexeme} (h : (lex script).faults = [])
    (hmem : lexeme ∈ cut script.toList) : lexeme.flaw? = none := by
  rw [← map_fst_locate 1 0 (cut script.toList)] at hmem
  obtain ⟨located, hlocated, rfl⟩ := List.mem_map.1 hmem
  have hfault : fault? located = none := List.filterMap_eq_nil_iff.1 h located hlocated
  exact Option.map_eq_none_iff.1 hfault

theorem layout_of_getLast? {script : String} {before after : List Lexeme} {c : Char}
    {body : List Char} (hfaults : (lex script).faults = [])
    (hcut : cut script.toList = before ++ ⟨.word, c :: body⟩ :: after)
    (hc : c ≠ '\n') (hblank : (before.map text).flatten = [] ∨
      Text.endsBlank (before.map text).flatten = true) :
    ∀ last ∈ before.getLast?, last.form = .layout := by
  intro last hlast
  obtain ⟨init, rfl⟩ := List.getLast?_eq_some_iff.1 hlast
  have hmem : last ∈ cut script.toList := by simp [hcut]
  have hne := text_ne_nil_of_mem_cut hmem
  rw [List.append_assoc] at hcut
  have hspelled := cut_of_append hcut
  rw [List.singleton_append, List.map_cons, List.flatten_cons] at hspelled
  refine layout_of_endsBlank (spelled_of_cut hspelled).1 (flaw?_eq_none hfaults hmem)
    ?_ ⟨c, rfl, hc⟩
  rw [List.map_append, List.flatten_append] at hblank
  rcases hblank with hnil | hblank
  · simp [hne] at hnil
  · simpa [Text.endsBlank, List.getLast?_append_of_ne_nil _ hne] using hblank

theorem Spelled.of_begun {c : Char} {body rest typed : List Char}
    (h : Spelled .word (c :: body) rest) (htyped : typed <+: body) :
    Spelled .word (c :: typed) [] := by
  cases h with
  | word hstart hbody _ hmarks =>
      refine .word hstart (fun d hd => hbody d (htyped.subset hd)) (by simp [Stops]) ?_
      intro mark hmark hbegins
      refine hmarks mark hmark (hbegins.trans ?_)
      rw [List.append_nil]
      exact List.prefix_cons_inj c |>.2 (htyped.trans (List.prefix_append _ _))

theorem tokens_of_typed {script : String} {before after : List Lexeme} {c : Char}
    {body typed : List Char} (hcut : cut script.toList = before ++ ⟨.word, c :: body⟩ :: after)
    (hlast : ∀ last ∈ before.getLast?, last.form = .layout) (htyped : typed <+: body) :
    ∃ token eof : Token Kind, token.start = Text.bytes (before.map text).flatten ∧
      (lex (String.ofList ((before.map text).flatten ++ c :: typed))).tokens =
        (locate 1 0 before).filterMap token? ++ [token, eof] := by
  have hword := cut_of_append hcut
  rw [List.map_cons, List.flatten_cons] at hword
  have htext := (spelled_of_cut hword).1.of_begun htyped
  have hall := hcut
  rw [eq_append_of_cut hcut, List.map_cons, List.flatten_cons, ← hword, List.cons_append] at hall
  have hsame : cut ((before.map text).flatten ++ c :: typed) = before ++ cut (c :: typed) :=
    cut_append hall hlast
  rw [← List.append_nil (c :: typed), cut_of_spelled htext, cut_nil, List.append_nil] at hsame
  let front := (before.map text).flatten
  refine ⟨⟨wordKind (c :: typed),
    spanAt (1 + Text.lineFeeds front) (Text.bytes front) ⟨.word, c :: typed⟩⟩,
    endToken (front ++ c :: typed), rfl, ?_⟩
  rw [lex, String.toList_ofList, hsame, locate_append, Nat.zero_add, List.filterMap_append,
    List.append_assoc]
  rfl

end Lexeme

namespace Word

namespace Scan

theorem open?_of_blank {front : List Char} (hblank : front = [] ∨ Text.endsBlank front = true)
    (hquotes : quotes none front % 2 = 0) : (front.foldl step begin).open? = none := by
  rcases hblank with rfl | hblank
  · rfl
  · obtain ⟨c, hc, hcblank⟩ := (Option.any_eq_true _ _).1 hblank
    obtain ⟨init, rfl⟩ := List.getLast?_eq_some_iff.1 hc
    have hquoted : ((init ++ [c]).foldl step begin).quoted = false := by
      rw [quoted_foldl]
      simp [begin, hquotes]
    rw [List.foldl_append, List.foldl_cons, List.foldl_nil] at hquoted ⊢
    rw [quoted_step] at hquoted
    simp [step, hquoted, inWord, hcblank]

theorem step_of_solid {c : Char} (hblank : Text.isBlank c = false) (hsemicolon : c ≠ ';')
    (scan : Scan) :
    (scan.step c).found = scan.found ∧
      (scan.step c).open? = scan.open?.or (some (scan.offset, scan.line)) := by
  rcases step_cases scan c with hkept | ⟨hout, -⟩
  · exact hkept
  · simp [hblank, hsemicolon] at hout

theorem closed_foldl_of_solid {c : Char} {cs : List Char}
    (hword : ∀ d ∈ c :: cs, Text.isBlank d = false ∧ d ≠ ';') {scan : Scan}
    (hopen : scan.open? = none) :
    ((c :: cs).foldl step scan).closed =
      ⟨.run, scan.offset, scan.offset + Text.bytes (c :: cs) - 1, scan.line⟩ :: scan.found := by
  have hgoes (cs : List Char) (scan : Scan) (start line : Nat)
      (hopen : scan.open? = some (start, line))
      (hword : ∀ d ∈ cs, Text.isBlank d = false ∧ d ≠ ';') :
      (cs.foldl step scan).open? = some (start, line) ∧
          (cs.foldl step scan).found = scan.found := by
    induction cs generalizing scan with
    | nil => exact ⟨hopen, rfl⟩
    | cons d cs ih =>
        obtain ⟨hd, hcs⟩ := List.forall_mem_cons.1 hword
        obtain ⟨hfound, hunder⟩ := step_of_solid hd.1 hd.2 scan
        rw [hopen, Option.some_or] at hunder
        rw [List.foldl_cons, ← hfound]
        exact ih _ hunder hcs
  obtain ⟨hc, hcs⟩ := List.forall_mem_cons.1 hword
  obtain ⟨hfound, hunder⟩ := step_of_solid hc.1 hc.2 scan
  rw [hopen, Option.none_or] at hunder
  obtain ⟨hlast, hkept⟩ := hgoes cs _ _ _ hunder hcs
  rw [← List.foldl_cons] at hlast hkept
  rw [closed_of_some hlast, hkept, hfound, offset_foldl]

end Scan

end Word

namespace Caret

variable {script : String} {front word : List Char} {c : Char}

theorem word?_of_typed (hscript : script.toList = front ++ c :: word)
    (hword : ∀ d ∈ c :: word, Text.isBlank d = false ∧ d ≠ ';')
    (hblank : front = [] ∨ Text.endsBlank front = true) (hquotes : Word.quotes none front % 2 = 0) :
    ∃ line, word? script script.utf8ByteSize =
      some ⟨.run, Text.bytes front, script.utf8ByteSize - 1, line⟩ := by
  have hoffset : (front.foldl Word.Scan.step .begin).offset = Text.bytes front := by
    rw [Word.Scan.offset_foldl]
    exact Nat.zero_add _
  have hclosed := Word.Scan.closed_foldl_of_solid hword (Word.Scan.open?_of_blank hblank hquotes)
  rw [← List.foldl_append, ← hscript, hoffset, ← Text.bytes_append, ← hscript, Text.bytes_toList]
    at hclosed
  have hsolid : Text.endsBlank script.toList = false := by
    have hlast := List.getLast_mem (List.cons_ne_nil c word)
    rw [Text.endsBlank, hscript, List.getLast?_append_of_ne_nil _ (List.cons_ne_nil c word),
      List.getLast?_eq_some_getLast (List.cons_ne_nil c word), Option.any_some, (hword _ hlast).1]
  obtain ⟨last, hlast, hsplit⟩ := Word.split_eq script
  have hwords : ∀ word ∈ (script.toList.foldl Word.Scan.step .begin).closed.reverse,
      word.isFinish = false ∧ word.start ≤ script.utf8ByteSize := by
    intro word hmem
    have hrun := Word.Scan.closed_run script.toList .begin
      (by simp [Word.Scan.closed, Word.Scan.begin])
      word (List.mem_reverse.1 hmem)
    rw [Word.Scan.offset_foldl, Text.bytes_toList] at hrun
    exact ⟨hrun.1, Nat.le_trans hrun.2 (Nat.le_of_eq (Nat.zero_add _))⟩
  have hsome := word?_of_last hsplit hlast hwords
  rw [hsolid, if_neg Bool.false_ne_true, List.getLast?_reverse, hclosed, List.head?_cons] at hsome
  exact ⟨_, hsome⟩

theorem place?_of_typed (hscript : script.toList = front ++ c :: word)
    (hword : ∀ d ∈ c :: word, Text.isBlank d = false ∧ d ≠ ';')
    (hblank : front = [] ∨ Text.endsBlank front = true) (hquotes : Word.quotes none front % 2 = 0)
    (tokens : List (Token Kind)) :
    place? tokens script script.utf8ByteSize =
      some ⟨String.ofList (c :: word), tokenFrom tokens (Text.bytes front)⟩ := by
  have hsize : script.utf8ByteSize = Text.bytes front + Text.bytes (c :: word) := by
    rw [← Text.bytes_toList, hscript, Text.bytes_append]
  have hpos : 0 < Text.bytes (c :: word) := Lexeme.bytes_pos (List.cons_ne_nil c word)
  have htyped : Text.slice? (Text.bytes front) script.utf8ByteSize script =
      some (String.ofList (c :: word)) := by
    refine Text.slice?_eq_some_iff.2 ⟨String.ofList front, "", ?_, Text.bytes_ofList front, ?_⟩
    · rw [← String.toList_inj, hscript]
      simp
    · rw [Text.bytes_ofList, Text.bytes_ofList, hsize]
  have hlast : script.utf8ByteSize - 1 + 1 = script.utf8ByteSize := by omega
  have hnonzero : script.utf8ByteSize ≠ 0 := by omega
  obtain ⟨line, hsome⟩ := word?_of_typed hscript hword hblank hquotes
  rw [place?_eq, hsome, Option.map_some]
  simp [ofWord, isPast, typedOf, tokenOf, Word.isFinish, Span.text, hlast, hnonzero, htyped]

end Caret

end SqlAtlas
