import SqlAtlas.Proofs.CandidateCompleteness
import SqlAtlas.Proofs.Passes
import SqlAtlas.Proofs.TypedText

namespace SqlAtlas

theorem Input.mem_tokens_of_offered {kinds : Array Kind} {caret : Nat} {ignored : List Kind}
    {kind : Kind} (h : kind ∈
      (Input.read ⟨kinds, some ⟨caret, [], []⟩⟩).candidates.tokens.map Prod.fst)
    (hshown : kind ∉ ignored) :
    (kind, kind.follow) ∈ (Input.read ⟨kinds, some ⟨caret, [], ignored⟩⟩).candidates.tokens := by
  obtain ⟨log, hfair, hread⟩ := Input.read_recorded kinds caret
  obtain ⟨candidate, hmem, rfl⟩ := List.mem_map.1 h
  rw [hread, Offered.mem_tokens_foldl hfair (by simp [Candidates.empty])] at hmem ⊢
  rcases hmem with hempty | ⟨offered, hlog, -, rfl⟩
  · simp [Candidates.empty] at hempty
  · exact .inr ⟨offered, hlog, ⟨by simp, hshown⟩, rfl⟩

theorem Caret.visible_size (script : String) : visible script.utf8ByteSize script = script := by
  rcases visible_cases script.utf8ByteSize script with heq | ⟨front, c, rest, hscript, -, -, hlt⟩
  · exact heq
  · rw [← Text.bytes_toList, hscript, Text.bytes_append, Text.bytes_cons] at hlt
    omega

namespace Dialect

theorem keyword_mem_complete {script typed : String} {caret : Nat} {kind : Kind}
    (hplace : Caret.place? (lex script).tokens script script.utf8ByteSize = some ⟨typed, caret⟩)
    (hoffered : kind ∈ (generic.collect
      ⟨.tables, script, (lex script).tokens, caret, [], []⟩).tokens.map Prod.fst)
    (hshown : kind ∉ generic.ignored)
    (hgoes : Text.upper typed.toList <+: Text.upper (generic.textOf (kind, kind.follow)).toList) :
    ∃ options, generic.complete script none = some options ∧
      .keyword (generic.textOf (kind, kind.follow)) ∈ options := by
  let tables := generic.collect (generic.request script (lex script).tokens caret .tables)
  let columns := generic.collect (generic.request script (lex script).tokens caret .columns)
  have htables : tables.rules ⊆ Rule.ofTables := Input.rules_read_subset _ _ _ _
  have hcolumns : columns.rules ⊆ Rule.ofColumns := Input.rules_read_subset _ _ _ _
  have hpass : (kind, kind.follow) ∈ tables.tokens ∨ (kind, kind.follow) ∈ columns.tokens :=
    (Input.mem_tokens_passes _ _ _ _).1 (Input.mem_tokens_of_offered hoffered hshown)
  obtain ⟨first, second, hlist, -, -, hmem⟩ := Gathering.addPass_twice typed
    (!tables.rules.isEmpty) (!columns.rules.isEmpty) (tables.tokens.map generic.textOf)
    (columns.tokens.map generic.textOf)
  have hcomplete : generic.complete script none =
      some (generic.addCandidates (generic.addCandidates (.begin typed) tables)
          columns).suggestions := by
    simp only [complete, plan?, Option.getD_none, Caret.visible_size]
    change Option.map _ (Option.map _ (Caret.place? (lex script).tokens _ _)) = _
    rw [hplace]
    rfl
  refine ⟨_, hcomplete, ?_⟩
  rw [addCandidates_tables htables, addCandidates_columns hcolumns, hlist]
  have hkeyword := (hmem (generic.textOf (kind, kind.follow))).2
    ⟨hpass.imp List.mem_map_of_mem List.mem_map_of_mem, hgoes⟩
  rcases hkeyword with hkeyword | hkeyword <;> simp [hkeyword]

end Dialect

namespace Suggestion

theorem prefix_foldl_joined (text : List Char) (nexts : List (List Char)) :
    text <+: nexts.foldl joined text := by
  induction nexts generalizing text with
  | nil => exact List.prefix_rfl
  | cons next nexts ih => exact (List.prefix_append _ _).trans (ih _)

end Suggestion

namespace Keyword

variable {keyword : Keyword}

theorem spelling_prefix_textOf (keyword : Keyword) (follow : List Kind) :
    keyword.spelling.toList <+: (Dialect.generic.textOf (.keyword keyword, follow)).toList := by
  have hbare : Suggestion.bare keyword.spelling.toList = keyword.spelling.toList := by
    cases keyword <;> decide
  rw [Dialect.textOf, Suggestion.stitch, String.toList_ofList]
  change _ <+: List.foldl _ (Suggestion.bare keyword.spelling.toList) _
  rw [hbare]
  exact Suggestion.prefix_foldl_joined _ _

theorem upper_spelling (keyword : Keyword) :
    Text.upper keyword.spelling.toList = keyword.spelling.toList := by
  cases keyword <;> decide

theorem map_toUpper_of_wordKind {text : List Char} (h : Lexeme.wordKind text = .keyword keyword) :
    text.map Char.toUpper = keyword.spelling.toList := by
  unfold Lexeme.wordKind at h
  split at h
  · next word hword =>
      cases h
      have hspelling := List.find?_some hword
      rw [beq_iff_eq, ← String.toList_inj, String.toList_ofList] at hspelling
      exact hspelling.symm
  · cases h

end Keyword

theorem Text.upper_of_ascii {cs : List Char} (h : ∀ c ∈ cs, c.toNat < 128) :
    upper cs = cs.map Char.toUpper := by
  induction cs with
  | nil => rfl
  | cons c cs ih =>
      obtain ⟨hc, hcs⟩ := List.forall_mem_cons.1 h
      have hupper : upper (c :: cs) = upperChar c ++ upper cs := rfl
      rw [hupper, ih hcs, upperChar, if_pos hc]
      rfl

namespace Lexeme

theorem ascii_of_isWordPart {c : Char} (h : isWordPart c = true) : c.toNat < 128 := by
  simp only [isWordPart, Bool.or_eq_true, beq_iff_eq] at h
  rcases h with (((halphanum | rfl) | rfl) | rfl) | rfl
  · have hascii := ascii_of_isAlphanum halphanum
    omega
  all_goals decide

theorem utf8Size_of_isWordPart {c : Char} (h : isWordPart c = true) : c.utf8Size = 1 := by
  have hascii := ascii_of_isWordPart h
  rw [Char.utf8Size_eq_one_iff, UInt32.le_iff_toNat_le]
  exact Nat.le_of_lt_succ hascii

theorem bytes_of_isWordPart {cs : List Char} (h : ∀ c ∈ cs, isWordPart c = true) :
    Text.bytes cs = cs.length := by
  induction cs with
  | nil => rfl
  | cons c cs ih =>
      obtain ⟨hc, hcs⟩ := List.forall_mem_cons.1 h
      rw [Text.bytes_cons, utf8Size_of_isWordPart hc, ih hcs, List.length_cons, Nat.add_comm]

theorem Spelled.isWordPart {text rest : List Char} (h : Spelled .word text rest) :
    ∀ c ∈ text, isWordPart c = true := by
  cases h with
  | word hstart hbody _ _ => exact List.forall_mem_cons.2 ⟨isWordPart_of_isWordStart hstart, hbody⟩

end Lexeme

theorem keyword_offered {script : String} {pre post rest : List (Token Kind)}
    {token eof : Token Kind} {keyword : Keyword} (hkind : token.kind = .keyword keyword)
    (heof : eof.kind = .eof) (hplain : ∀ t ∈ pre ++ token :: post, t.kind ≠ .eof)
    (hparsed : (Dialect.generic.parse script (pre ++ token :: post ++ [eof])).faults = [])
    (htarget : ¬ BehindTarget (pre.map Token.kind) token.kind) (hrest : rest ≠ []) (focus : Focus)
    (shown : String) :
    token.kind ∈ (Dialect.generic.collect
      ⟨focus, shown, pre ++ rest, pre.length, [], []⟩).tokens.map Prod.fst := by
  have hkinds : (pre ++ token :: post ++ [eof]).map Token.kind =
      (pre ++ token :: post).map Token.kind ++ [.eof] := by simp [heof]
  obtain ⟨_, _, hrun⟩ := (parse_faults_eq_nil_iff script hkinds (eof_notMem_kinds hplain)).1 hparsed
  rw [List.map_append] at hrun
  obtain ⟨o, b, s, hcut, -, hk⟩ := script_awaits hrun
  have hpre : ∀ t ∈ pre, t.kind ≠ .eof := fun t ht => hplain t (List.mem_append_left _ ht)
  rw [(hcut.collects hpre hrest focus shown).1]
  refine Candidates.mem_map_addTokens.2 (.inr (hk.resolve_right ?_))
  -- What else may be seen past or lie too deep is no keyword.
  rintro ((⟨hk, -⟩ | ⟨hk, -⟩ | ⟨hbehind, -⟩) | ⟨-, ⟨hk, -⟩ | ⟨hk, -⟩⟩)
  · cases hkind.symm.trans hk
  · cases hkind.symm.trans hk
  · exact htarget hbehind
  · cases hkind.symm.trans hk
  · cases hkind.symm.trans hk

theorem Text.toList_of_slice? {script front : String} {before after : List Char}
    (hscript : script.toList = before ++ after)
    (h : slice? 0 (bytes before) script = some front) : front.toList = before := by
  obtain ⟨nothing, rest, heq, hnothing, hstop⟩ := slice?_eq_some_iff.1 h
  have hempty : nothing.toList = [] := bytes_eq_zero_iff.1 (by rw [bytes_toList, hnothing])
  have hsplit : script.toList = front.toList ++ rest.toList := by
    rw [heq, String.toList_append, String.toList_append, hempty, List.nil_append]
  have hbytes : bytes front.toList = bytes before := by
    rw [bytes_toList]
    omega
  have hfront : front.toList <+: script.toList := ⟨_, hsplit.symm⟩
  have hbefore : before <+: script.toList := ⟨_, hscript.symm⟩
  exact (prefix_of_bytes_le hfront hbefore (Nat.le_of_eq hbytes)).eq_of_length_le
    (prefix_of_bytes_le hbefore hfront (Nat.le_of_eq hbytes.symm)).length_le

theorem Lexeme.start_lt_of_mem {before : List Lexeme} (hne : ∀ lexeme ∈ before, lexeme.text ≠ [])
    {token : Token Kind} (h : token ∈ (locate 1 0 before).filterMap token?) :
    token.start < Text.bytes (before.map Lexeme.text).flatten := by
  obtain ⟨located, hmem, hsome⟩ := List.mem_filterMap.1 h
  obtain ⟨kind, -, rfl⟩ := Option.map_eq_some_iff.1 hsome
  have hlocated := locate_located 1 [] before hne hmem
  exact Nat.lt_of_le_of_lt hlocated.start_le_stop hlocated.stop_lt

theorem Caret.tokenFrom_append {pre : List (Token Kind)} {token : Token Kind} {start : Nat}
    (hpre : ∀ t ∈ pre, t.start < start) (htoken : token.start = start) (rest : List (Token Kind)) :
    tokenFrom (pre ++ token :: rest) start = pre.length := by
  have hnone : pre.findIdx? (start ≤ ·.start) = none := by
    rw [List.findIdx?_eq_none_iff]
    intro t ht
    simpa using hpre t ht
  rw [tokenFrom, List.findIdx?_append, hnone]
  simp [List.findIdx?_cons, htoken]

theorem exists_typed {script front : String} {pre post : List (Token Kind)} {token : Token Kind}
    {keyword : Keyword} (hlexed : (lex script).faults = [])
    (htokens : (Lexeme.locate 1 0 (Lexeme.cut script.toList)).filterMap Lexeme.token? =
      pre ++ token :: post)
    (hkind : token.kind = .keyword keyword)
    (hfront : Text.slice? 0 token.span.start script = some front)
    (hblank : front = "" ∨ Text.endsBlank front.toList = true) :
    ∃ c body rest, script.toList = front.toList ++ c :: (body ++ rest) ∧
      (∀ d ∈ c :: body, Lexeme.isWordPart d = true) ∧
      Lexeme.wordKind (c :: body) = .keyword keyword ∧
      token.span.start = Text.bytes front.toList ∧
      token.span.stop + 1 = Text.bytes front.toList + (body.length + 1) ∧
      (∀ t ∈ pre, t.start < Text.bytes front.toList) ∧
      ∀ typed, typed <+: body → ∃ typing eof : Token Kind, typing.start = Text.bytes front.toList ∧
        (lex (String.ofList (front.toList ++ c :: typed))).tokens = pre ++ [typing, eof] := by
  obtain ⟨before, ⟨form, text⟩, after, hcut, hpre, hsome, hspan⟩ := Lexeme.exists_lexeme htokens
  have hword := Lexeme.cut_of_append hcut
  rw [List.map_cons, List.flatten_cons] at hword
  have hspelled := (Lexeme.spelled_of_cut hword).1
  obtain ⟨rfl, hkeyword⟩ := Lexeme.word_of_keyword hspelled (hsome.trans (congrArg some hkind))
  obtain ⟨c, body, rfl⟩ := List.exists_cons_of_ne_nil hspelled.ne_nil
  have hparts := hspelled.isWordPart
  have hscript := Lexeme.eq_append_of_cut hcut
  have hstart : token.span.start = Text.bytes (before.map Lexeme.text).flatten := by
    rw [hspan]
    rfl
  rw [hstart] at hfront ⊢
  have heq := Text.toList_of_slice? hscript hfront
  have hempty : (before.map Lexeme.text).flatten = [] ∨
      Text.endsBlank (before.map Lexeme.text).flatten = true := by
    rw [← heq]
    exact hblank.imp_left fun h => by rw [h]; rfl
  have hlast := Lexeme.layout_of_getLast? hlexed hcut (by
    rintro rfl
    cases hparts '\n' List.mem_cons_self) hempty
  rw [heq]
  refine ⟨c, body, (after.map Lexeme.text).flatten, by simpa using hscript, hparts, hkeyword,
    rfl, ?_, ?_, ?_⟩
  · rw [hspan]
    simp only [Lexeme.spanAt, Lexeme.bytes_of_isWordPart hparts, List.length_cons]
    omega
  · intro t ht
    rw [← hpre] at ht
    refine Lexeme.start_lt_of_mem (fun lexeme hmem => ?_) ht
    have hlexeme : lexeme ∈ Lexeme.cut script.toList := hcut ▸ List.mem_append_left _ hmem
    exact Lexeme.text_ne_nil_of_mem_cut hlexeme
  · intro typed htyped
    rw [← hpre]
    exact Lexeme.tokens_of_typed hcut hlast htyped

theorem exists_plain {script : String} {pre post : List (Token Kind)} {token : Token Kind}
    (htokens : (lex script).tokens = pre ++ token :: post) (hkind : token.kind ≠ .eof) :
    ∃ later eof, eof.kind = .eof ∧ post = later ++ [eof] ∧
      (Lexeme.locate 1 0 (Lexeme.cut script.toList)).filterMap Lexeme.token? = pre ++
        token :: later ∧
      ∀ t ∈ pre ++ token :: later, t.kind ≠ .eof := by
  obtain ⟨plain, hplain, hspread⟩ := lex_spread script
  have hlexemes := List.append_cancel_right hplain
  rw [htokens] at hplain
  rcases List.eq_nil_or_concat post with rfl | ⟨later, last, rfl⟩
  · have hlast := (List.append_inj' hplain rfl).2
    rw [(List.cons.inj hlast).1] at hkind
    exact absurd rfl hkind
  · rw [List.concat_eq_append, ← List.cons_append, ← List.append_assoc] at hplain
    obtain ⟨heq, hlast⟩ := List.append_inj' hplain rfl
    refine ⟨later, last, ?_, List.concat_eq_append, hlexemes.trans heq.symm, fun t ht => ?_⟩
    · rw [(List.cons.inj hlast).1]
      rfl
    · exact (hspread.placed t (heq ▸ ht)).plain

theorem Keyword.goes_on {keyword : Keyword} {text typed : List Char}
    (hkeyword : Lexeme.wordKind text = .keyword keyword)
    (hparts : ∀ c ∈ text, Lexeme.isWordPart c = true) (htyped : typed <+: text)
    (follow : List Kind) :
    Text.upper typed <+: Text.upper (Dialect.generic.textOf (.keyword keyword, follow)).toList := by
  have hupper : Text.upper typed <+: keyword.spelling.toList := by
    rw [Text.upper_of_ascii fun c hc => Lexeme.ascii_of_isWordPart (hparts c (htyped.subset hc)),
      ← map_toUpper_of_wordKind hkeyword]
    exact htyped.map Char.toUpper
  obtain ⟨more, hmore⟩ := spelling_prefix_textOf keyword follow
  rw [← hmore, Text.upper_append, upper_spelling]
  exact hupper.trans (List.prefix_append _ _)

theorem complete_of_offered {front : String} {c : Char} {body typed : List Char} {keyword : Keyword}
    {pre rest : List (Token Kind)} {typing : Token Kind}
    (hparts : ∀ d ∈ c :: body, Lexeme.isWordPart d = true)
    (hkeyword : Lexeme.wordKind (c :: body) = .keyword keyword) (htyped : typed <+: body)
    (hblank : front = "" ∨ Text.endsBlank front.toList = true)
    (hquotes : Word.quotes none front.toList % 2 = 0)
    (hpre : ∀ t ∈ pre, t.start < Text.bytes front.toList)
    (htyping : typing.start = Text.bytes front.toList)
    (hshown : (lex (String.ofList (front.toList ++ c :: typed))).tokens = pre ++ typing :: rest)
    (hoffered : .keyword keyword ∈ (Dialect.generic.collect ⟨.tables,
      String.ofList (front.toList ++ c :: typed), pre ++ typing :: rest, pre.length, [],
      []⟩).tokens.map
        Prod.fst) :
    ∃ options, Dialect.generic.complete (String.ofList (front.toList ++ c :: typed)) none =
        some options ∧
      ∃ text, .keyword text ∈ options ∧ keyword.spelling.toList <+: text.toList := by
  have htaken : c :: typed <+: c :: body := (List.prefix_cons_inj c).2 htyped
  have hsolid : ∀ d ∈ c :: typed, Text.isBlank d = false ∧ d ≠ ';' := by
    intro d hd
    have hpart := hparts d (htaken.subset hd)
    refine ⟨Lexeme.isBlank_of_isWordPart hpart, ?_⟩
    rintro rfl
    cases hpart
  have hplace := Caret.place?_of_typed
    (String.toList_ofList (l := front.toList ++ c :: typed)) hsolid
    (hblank.imp_left fun h => by rw [h]; rfl) hquotes
    (lex (String.ofList (front.toList ++ c :: typed))).tokens
  have hcaret : Caret.tokenFrom (lex (String.ofList (front.toList ++ c :: typed))).tokens
      (Text.bytes front.toList) = pre.length := by
    rw [hshown, Caret.tokenFrom_append hpre htyping]
  rw [hcaret] at hplace
  rw [← hshown] at hoffered
  have hnot : Kind.keyword keyword ∉ Dialect.generic.ignored := by
    change Kind.keyword keyword ∉
      [Kind.dot, .identifier, .openParen, .closeParen, .string, .number]
    simp
  obtain ⟨options, hcomplete, hmem⟩ := Dialect.keyword_mem_complete hplace hoffered hnot (by
    rw [String.toList_ofList]
    exact Keyword.goes_on hkeyword hparts htaken _)
  exact ⟨options, hcomplete, _, hmem, Keyword.spelling_prefix_textOf keyword _⟩

structure Typing (script front : String) (pre post : List (Token Kind)) (token : Token Kind)
    (keyword : Keyword) (offset : Nat) : Prop where
  lexed : (Dialect.generic.lex script).faults = []
  parsed : (Dialect.generic.parse script (Dialect.generic.lex script).tokens).faults = []
  tokens : (Dialect.generic.lex script).tokens = pre ++ token :: post
  kind : token.kind = .keyword keyword
  before : Text.slice? 0 token.span.start script = some front
  blank : front = "" ∨ Text.endsBlank front.toList = true
  start_lt : token.span.start < offset
  le_stop : offset ≤ token.span.stop + 1

def Completed (script : String) (keyword : Keyword) (offset : Nat) : Prop :=
  ∃ typed, Text.slice? 0 offset script = some typed ∧
    ∃ options, Dialect.generic.complete typed none = some options ∧
      ∃ text, .keyword text ∈ options ∧ keyword.spelling.toList <+: text.toList

theorem complete_typed_keyword (script front : String) (pre post : List (Token Kind))
    (token : Token Kind) (keyword : Keyword) (offset : Nat)
    (h : Typing script front pre post token keyword offset)
    (hquotes : Word.quotes none front.toList % 2 = 0)
    (htarget : ¬ BehindTarget (pre.map Token.kind) (.keyword keyword)) :
    Completed script keyword offset := by
  obtain ⟨hlexed, hparsed, htokens, hkind, hfront, hblank, hstart, hstop⟩ := h
  obtain ⟨later, eof, heof, rfl, hlexemes, hplain⟩ := exists_plain htokens (by simp [hkind])
  obtain ⟨c, body, rest, hscript, hparts, hkeyword, hbegin, hend, hpre, htyping⟩ :=
    exists_typed hlexed hlexemes hkind hfront hblank
  obtain ⟨typed, more, rfl, hlength⟩ : ∃ typed more, body = typed ++ more ∧
      typed.length + 1 = offset - token.span.start := by
    refine ⟨body.take (offset - token.span.start - 1), body.drop (offset - token.span.start - 1),
      (List.take_append_drop _ _).symm, ?_⟩
    rw [List.length_take]
    omega
  have htyped : typed <+: typed ++ more := List.prefix_append _ _
  obtain ⟨typing, last, hat, hshown⟩ := htyping typed htyped
  have hoffered := keyword_offered hkind heof hplain
    (by rw [htokens, ← List.cons_append, ← List.append_assoc] at hparsed; exact hparsed)
      (hkind ▸ htarget)
    (List.cons_ne_nil typing [last]) .tables (String.ofList (front.toList ++ c :: typed))
  rw [hkind] at hoffered
  have hword : ∀ d ∈ c :: typed, Lexeme.isWordPart d = true := fun d hd =>
    hparts d (((List.prefix_cons_inj c).2 htyped).subset hd)
  have hbytes : (String.ofList (front.toList ++ c :: typed)).utf8ByteSize = offset := by
    rw [Text.bytes_ofList, Text.bytes_append, Lexeme.bytes_of_isWordPart hword, List.length_cons]
    omega
  refine ⟨String.ofList (front.toList ++ c :: typed), ?_,
    complete_of_offered hparts hkeyword htyped hblank hquotes hpre hat hshown hoffered⟩
  refine Text.slice?_eq_some_iff.2 ⟨"", String.ofList (more ++ rest), ?_, rfl, ?_⟩
  · rw [← String.toList_inj, hscript]
    simp
  · rw [hbytes]
    exact Nat.zero_add _

theorem complete_typed_keyword_from :
    Typing "SELECT a FROM t" "SELECT a " [⟨.keyword .SELECT, 1, 1, 0, 5⟩, ⟨.identifier, 1, 1, 7, 7⟩]
        [⟨.identifier, 1, 1, 14, 14⟩, ⟨.eof, 1, 1, 15, 15⟩] ⟨.keyword .FROM, 1, 1, 9, 12⟩ .FROM 11 ∧
      Completed "SELECT a FROM t" .FROM 11 := by
  have htyping : Typing "SELECT a FROM t" "SELECT a "
      [⟨.keyword .SELECT, 1, 1, 0, 5⟩, ⟨.identifier, 1, 1, 7, 7⟩]
      [⟨.identifier, 1, 1, 14, 14⟩, ⟨.eof, 1, 1, 15, 15⟩] ⟨.keyword .FROM, 1, 1, 9, 12⟩
          .FROM 11 := by
    constructor <;> decide +kernel
  have htarget : ¬ BehindTarget [.keyword .SELECT, .identifier] (.keyword .FROM) := by
    rintro ⟨hk, -⟩
    exact absurd hk (by decide)
  exact ⟨htyping, complete_typed_keyword _ _ _ _ _ _ _ htyping (by decide) htarget⟩

theorem not_completed {script typed : String} {keyword : Keyword} {offset : Nat}
    (htyped : Text.slice? 0 offset script = some typed)
    (hcomplete : Dialect.generic.complete typed none = some [.column]) :
    ¬ Completed script keyword offset := by
  rintro ⟨_, hslice, options, hoptions, text, hmem, -⟩
  obtain rfl := Option.some.inj (htyped.symm.trans hslice)
  obtain rfl := Option.some.inj (hcomplete.symm.trans hoptions)
  simp at hmem

theorem not_complete_typed_keyword :
    (¬ ∀ script front pre post token keyword offset,
      Typing script front pre post token keyword offset →
      ¬ BehindTarget (pre.map Token.kind) (.keyword keyword) → Completed script keyword offset) ∧
    ¬ ∀ script front pre post token keyword offset,
      Typing script front pre post token keyword offset →
      Word.quotes none front.toList % 2 = 0 → Completed script keyword offset := by
  constructor
  · intro h
    have htyped : Text.slice? 0 18 "SELECT a -- it's\nFROM t" = some "SELECT a -- it's\nF" := by
      decide +kernel
    refine not_completed htyped (by decide +kernel) (h _ "SELECT a -- it's\n"
        [⟨.keyword .SELECT, 1, 1, 0, 5⟩, ⟨.identifier, 1, 1, 7, 7⟩]
        [⟨.identifier, 2, 2, 22, 22⟩, ⟨.eof, 2, 2, 23, 23⟩] ⟨.keyword .FROM, 2, 2, 17, 20⟩ .FROM _
        (by constructor <;> decide +kernel) ?_)
    rintro ⟨hk, -⟩
    exact absurd hk (by decide)
  · intro h
    have htyped : Text.slice? 0 19 "INSERT INTO t ( SELECT a )" = some "INSERT INTO t ( SEL" := by
      decide +kernel
    exact not_completed htyped (by decide +kernel) (h _ "INSERT INTO t ( "
        [⟨.keyword .INSERT, 1, 1, 0, 5⟩, ⟨.keyword .INTO, 1, 1, 7, 10⟩, ⟨.identifier, 1, 1, 12, 12⟩,
          ⟨.openParen, 1, 1, 14, 14⟩]
        [⟨.identifier, 1, 1, 23, 23⟩, ⟨.closeParen, 1, 1, 25, 25⟩, ⟨.eof, 1, 1, 26, 26⟩]
        ⟨.keyword .SELECT, 1, 1, 16, 21⟩ .SELECT _ (by constructor <;> decide +kernel) (by decide))

end SqlAtlas
