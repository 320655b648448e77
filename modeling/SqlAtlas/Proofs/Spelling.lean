import Mathlib.Data.List.Infix
import Mathlib.Data.List.TakeWhile
import SqlAtlas.Lexeme

namespace SqlAtlas

namespace Lexeme

inductive Doubled : List Char → Prop
  | nil : Doubled []
  | plain {c : Char} {cs : List Char} : c ≠ '\'' → Doubled cs → Doubled (c :: cs)
  | pair {cs : List Char} : Doubled cs → Doubled ('\'' :: '\'' :: cs)

def Stops (accepts : Char → Bool) (rest : List Char) : Prop := ∀ c ∈ rest.head?, accepts c = false

inductive Fraction : List Char → List Char → Prop
  | none {rest : List Char} : Stops Char.isDigit rest →
      (∀ d, ['.', d] <+: rest → d.isDigit = false) → Fraction [] rest
  | some {digits rest : List Char} : digits ≠ [] → (∀ d ∈ digits, d.isDigit = true) →
      Stops Char.isDigit rest → Fraction ('.' :: digits) rest

def stringMarks : List (List Char) := [['\''], ['N', '\''], ['n', '\'']]

def nameMarks : List (Char × Char) := [('[', ']'), ('"', '"')]

def symbols : List (List Char × Kind) :=
  [(['<', '>'], .notEquals), (['!', '='], .notEquals), (['<', '='], .lessEquals),
    (['>', '='], .greaterEquals), (['<'], .less), (['>'], .greater), (['='], .equals),
    ([','], .comma), (['.'], .dot), (['('], .openParen), ([')'], .closeParen), ([';'], .semicolon),
    (['*'], .star), (['+'], .plus), (['-'], .minus), (['/'], .slash), (['%'], .percent)]

-- A text is a lexeme of this form where it is followed by this rest of the script.
inductive Spelled : Form → List Char → List Char → Prop
  | layout {c : Char} {rest : List Char} : c ∈ [' ', '\t', '\n', '\x0c', '\r'] →
      Spelled .layout [c] rest
  | lineComment {body rest : List Char} : '\n' ∉ body → Stops (· ≠ '\n') rest →
      Spelled .lineComment ('-' :: '-' :: body) rest
  | blockComment {body rest : List Char} : ¬ ['*', '/'] <:+: body ++ ['*'] →
      Spelled (.blockComment true) ('/' :: '*' :: (body ++ ['*', '/'])) rest
  | openComment {body : List Char} : ¬ ['*', '/'] <:+: body →
      Spelled (.blockComment false) ('/' :: '*' :: body) []
  | string {mark body rest : List Char} : mark ∈ stringMarks → Doubled body →
      Stops (· = '\'') rest → Spelled (.string true) (mark ++ body ++ ['\'']) rest
  | openString {mark body : List Char} : mark ∈ stringMarks → Doubled body →
      Spelled (.string false) (mark ++ body) []
  | name {first last : Char} {body rest : List Char} : (first, last) ∈ nameMarks → last ∉ body →
      Spelled (.quotedName true) (first :: (body ++ [last])) rest
  | openName {first last : Char} {body : List Char} : (first, last) ∈ nameMarks → last ∉ body →
      Spelled (.quotedName false) (first :: body) []
  | number {whole fraction rest : List Char} : whole ≠ [] → (∀ d ∈ whole, d.isDigit = true) →
      Fraction fraction rest → Spelled .number (whole ++ fraction) rest
  | word {c : Char} {body rest : List Char} : isWordStart c = true →
      (∀ d ∈ body, isWordPart d = true) → Stops isWordPart rest →
      (∀ mark ∈ stringMarks, ¬ mark <+: c :: (body ++ rest)) → Spelled .word (c :: body) rest
  | symbol {text rest : List Char} {kind : Kind} : (text, kind) ∈ symbols →
      (∀ other ∈ symbols, other.1 <+: text ++ rest → other.1.length ≤ text.length) →
      ¬ ['-', '-'] <+: text ++ rest → ¬ ['/', '*'] <+: text ++ rest →
      Spelled (.symbol kind) text rest
  | unknown {c : Char} {rest : List Char} : c ∉ [' ', '\t', '\n', '\x0c', '\r'] →
      c ∉ ['\'', '[', '"'] → c.isDigit = false → isWordStart c = false →
      (∀ symbol ∈ symbols, ¬ symbol.1 <+: c :: rest) → Spelled .unknown [c] rest

theorem takeWhile_append_of_stops {accepts : Char → Bool} {body rest : List Char}
    (hbody : ∀ c ∈ body, accepts c = true) (hrest : Stops accepts rest) :
    (body ++ rest).takeWhile accepts = body ∧ (body ++ rest).dropWhile accepts = rest := by
  rw [List.takeWhile_append_of_pos hbody, List.dropWhile_append_of_pos hbody]
  cases rest with
  | nil => simp
  | cons c rest =>
      have hc : accepts c = false := hrest c rfl
      simp [hc]

theorem split_stops (accepts : Char → Bool) (cs : List Char) :
    ∃ body rest, cs = body ++ rest ∧ (∀ c ∈ body, accepts c = true) ∧ Stops accepts rest := by
  refine ⟨cs.takeWhile accepts, cs.dropWhile accepts, List.takeWhile_append_dropWhile.symm,
    fun c hc => List.mem_takeWhile_imp hc, fun c hc => ?_⟩
  obtain ⟨rest, hrest⟩ := List.head?_eq_some_iff.1 hc
  have hhead := List.head_dropWhile_not accepts (l := cs) (by simp [hrest])
  simpa [hrest] using hhead

theorem throughMark?_of_notMem {last : Char} {body : List Char} (h : last ∉ body) :
    throughMark? last body = none := by
  rw [throughMark?, Option.map_eq_none_iff, List.findIdx?_eq_none_iff]
  intro c hc
  simpa using fun heq : c = last => h (heq ▸ hc)

theorem throughMark?_append {last : Char} {body : List Char} (h : last ∉ body) (rest : List Char) :
    throughMark? last (body ++ last :: rest) = some (body.length + 1) := by
  have hnone := throughMark?_of_notMem h
  rw [throughMark?, Option.map_eq_none_iff] at hnone
  simp [throughMark?, List.findIdx?_append, hnone, List.findIdx?_cons]

theorem throughString?_cons {c : Char} (hc : c ≠ '\'') (count : Nat) (cs : List Char) :
    throughString? count (c :: cs) = throughString? (count + 1) cs := by
  rw [throughString?] <;> simp [hc]

theorem throughString?_of_doubled {body : List Char} (h : Doubled body) (count : Nat) :
    throughString? count body = none := by
  induction h generalizing count with
  | nil => rfl
  | plain hc _ ih => rw [throughString?_cons hc, ih]
  | pair _ ih => exact ih _

theorem throughString?_append {body rest : List Char} (h : Doubled body)
    (hrest : Stops (· = '\'') rest) (count : Nat) :
    throughString? count (body ++ '\'' :: rest) = some (count + body.length + 1) := by
  induction h generalizing count with
  | nil =>
      cases rest with
      | nil => rfl
      | cons c rest =>
          have hc : c ≠ '\'' := by simpa using hrest c rfl
          rw [List.nil_append, throughString?]
          · simp
          · simpa using hc
  | plain hc _ ih =>
      rw [List.cons_append, throughString?_cons hc, ih, List.length_cons]
      congr 1
      omega
  | @pair cs _ ih =>
      have hcs : throughString? count ('\'' :: '\'' :: cs ++ '\'' :: rest) =
          throughString? (count + 2) (cs ++ '\'' :: rest) := rfl
      rw [hcs, ih, List.length_cons, List.length_cons]
      congr 1
      omega

theorem split_doubled (cs : List Char) :
    Doubled cs ∨ ∃ body rest, cs = body ++ '\'' :: rest ∧ Doubled body ∧ Stops (· = '\'') rest := by
  induction h : cs.length using Nat.strongRecOn generalizing cs with
  | ind n ih =>
      cases cs with
      | nil => exact .inl .nil
      | cons c cs =>
          subst h
          by_cases hc : c = '\''
          · subst hc
            by_cases hpair : cs.head? = some '\''
            · obtain ⟨cs, rfl⟩ := List.head?_eq_some_iff.1 hpair
              have hlt : cs.length < ('\'' :: '\'' :: cs).length := by
                simp only [List.length_cons]
                omega
              rcases ih _ hlt cs rfl with hall | ⟨body, rest, rfl, hbody, hrest⟩
              · exact .inl hall.pair
              · exact .inr ⟨'\'' :: '\'' :: body, rest, rfl, hbody.pair, hrest⟩
            · refine .inr ⟨[], cs, rfl, .nil, fun d hd => ?_⟩
              rw [Option.mem_def] at hd
              simpa [hd] using hpair
          · rcases ih _ (by simp) cs rfl with hall | ⟨body, rest, rfl, hbody, hrest⟩
            · exact .inl (hall.plain hc)
            · exact .inr ⟨c :: body, rest, rfl, hbody.plain hc, hrest⟩

theorem closes_append_iff {c : Char} {body rest : List Char} :
    ['*', '/'] <+: c :: (body ++ '*' :: rest) ↔ ['*', '/'] <+: c :: (body ++ ['*']) := by
  cases body <;> simp

theorem throughComment?_cons {c : Char} {cs : List Char} (h : ¬ ['*', '/'] <+: c :: cs)
    (count : Nat) : throughComment? count (c :: cs) = throughComment? (count + 1) cs := by
  rw [throughComment?]
  rintro cs rfl rfl
  exact h ⟨cs, rfl⟩

theorem throughComment?_of_not_infix {body : List Char} (h : ¬ ['*', '/'] <:+: body)
    (count : Nat) : throughComment? count body = none := by
  induction body generalizing count with
  | nil => rfl
  | cons c body ih =>
      rw [List.infix_cons_iff, not_or] at h
      rw [throughComment?_cons h.1, ih h.2]

theorem throughComment?_append {body : List Char} (h : ¬ ['*', '/'] <:+: body ++ ['*'])
    (count : Nat) (rest : List Char) :
    throughComment? count (body ++ '*' :: '/' :: rest) = some (count + body.length + 2) := by
  induction body generalizing count with
  | nil => rfl
  | cons c body ih =>
      rw [List.cons_append, List.infix_cons_iff, not_or] at h
      rw [List.cons_append, throughComment?_cons (mt closes_append_iff.1 h.1), ih h.2,
        List.length_cons]
      congr 1
      omega

theorem split_comment (cs : List Char) :
    ¬ ['*', '/'] <:+: cs ∨
      ∃ body rest, cs = body ++ '*' :: '/' :: rest ∧ ¬ ['*', '/'] <:+: body ++ ['*'] := by
  induction cs with
  | nil => exact .inl (by simp)
  | cons c cs ih =>
      by_cases hfirst : ['*', '/'] <+: c :: cs
      · obtain ⟨rest, hrest⟩ := hfirst
        exact .inr ⟨[], rest, hrest.symm, by decide⟩
      · rcases ih with hnone | ⟨body, rest, rfl, hbody⟩
        · exact .inl (by rw [List.infix_cons_iff, not_or]; exact ⟨hfirst, hnone⟩)
        · refine .inr ⟨c :: body, rest, rfl, ?_⟩
          rw [List.cons_append, List.infix_cons_iff, not_or]
          exact ⟨mt closes_append_iff.2 hfirst, hbody⟩

theorem fractionLength_append {fraction rest : List Char} (h : Fraction fraction rest) :
    fractionLength (fraction ++ rest) = fraction.length := by
  cases h with
  | none _ hdot =>
      unfold fractionLength
      split
      · next d cs heq =>
          rw [List.nil_append] at heq
          simp [hdot d (by simp [heq])]
      · rfl
  | @some digits _ hne hdigits hstops =>
      obtain ⟨d, digits, rfl⟩ := List.exists_cons_of_ne_nil hne
      have htake := (takeWhile_append_of_stops
        (fun c hc => hdigits c (List.mem_cons_of_mem d hc)) hstops).1
      simp only [List.cons_append, fractionLength, hdigits d List.mem_cons_self, htake, if_true,
        List.length_cons]
      omega

theorem Fraction.stops {fraction rest : List Char} (h : Fraction fraction rest) :
    Stops Char.isDigit (fraction ++ rest) := by
  cases h with
  | none hstops _ => exact hstops
  | some _ _ _ =>
      rintro d ⟨⟩
      decide

theorem numberLength_append {whole fraction rest : List Char}
    (hwhole : ∀ d ∈ whole, d.isDigit = true) (hfraction : Fraction fraction rest) :
    numberLength (whole ++ (fraction ++ rest)) = whole.length + fraction.length := by
  obtain ⟨htake, hdrop⟩ := takeWhile_append_of_stops hwhole hfraction.stops
  rw [numberLength, htake, hdrop, fractionLength_append hfraction]

theorem split_fraction {cs : List Char} (h : Stops Char.isDigit cs) :
    ∃ fraction rest, cs = fraction ++ rest ∧ Fraction fraction rest := by
  by_cases hdot : ∃ d, ['.', d] <+: cs ∧ d.isDigit = true
  · obtain ⟨d, ⟨cs, rfl⟩, hd⟩ := hdot
    obtain ⟨digits, rest, rfl, hdigits, hstops⟩ := split_stops Char.isDigit cs
    refine ⟨'.' :: d :: digits, rest, rfl, .some (List.cons_ne_nil _ _) ?_ hstops⟩
    exact List.forall_mem_cons.2 ⟨hd, hdigits⟩
  · refine ⟨[], cs, rfl, .none h fun d hd => ?_⟩
    simpa using fun hdigit => hdot ⟨d, hd, hdigit⟩

theorem length_of_mem_symbols {symbol : List Char × Kind} (h : symbol ∈ symbols) :
    symbol.1.length = 1 ∨ symbol.1.length = 2 := by
  revert h
  revert symbol
  decide

theorem symbol?_of_longest {c : Char} {body rest : List Char} {kind : Kind}
    (h : (c :: body, kind) ∈ symbols)
    (hlongest : ∀ other ∈ symbols, other.1 <+: c :: (body ++ rest) →
      other.1.length ≤ body.length + 1) :
    symbol? c (body ++ rest) = some (kind, body.length) := by
  simp only [symbols, List.mem_cons, Prod.mk.injEq, List.cons.injEq, List.not_mem_nil, or_false]
    at h
  have hnext (d : Char) (kind : Kind) (hmem : ([c, d], kind) ∈ symbols) (hbody : body = []) :
      rest.head? ≠ some d := by
    intro hd
    obtain ⟨rest, rfl⟩ := List.head?_eq_some_iff.1 hd
    have hlength := hlongest _ hmem (by simp [hbody])
    simp [hbody] at hlength
  rcases h with h | h | h | h | h | h | h | h | h | h | h | h | h | h | h | h | h
  all_goals obtain ⟨⟨rfl, rfl⟩, rfl⟩ := h
  all_goals try rfl
  · have hne := hnext '>' .notEquals (by decide) rfl
    have hle := hnext '=' .lessEquals (by decide) rfl
    cases rest with
    | nil => rfl
    | cons d rest => rw [List.nil_append, symbol?] <;> simp_all
  · have hge := hnext '=' .greaterEquals (by decide) rfl
    cases rest with
    | nil => rfl
    | cons d rest => rw [List.nil_append, symbol?] <;> simp_all

theorem symbol?_eq_none {c : Char} {rest : List Char}
    (h : ∀ symbol ∈ symbols, ¬ symbol.1 <+: c :: rest) : symbol? c rest = none := by
  unfold symbol?
  split
  all_goals first
    | rfl
    | simp [symbols] at h

theorem isLayout_iff {c : Char} : isLayout c = true ↔ c ∈ [' ', '\t', '\n', '\x0c', '\r'] := by
  simp [isLayout, or_assoc]

theorem isLayout_eq_false_iff {c : Char} :
    isLayout c = false ↔ c ∉ [' ', '\t', '\n', '\x0c', '\r'] :=
  Bool.eq_false_iff.trans (not_congr isLayout_iff)

theorem measure_of_unmarked {c : Char} {cs : List Char} (hlayout : isLayout c = false)
    (hline : ¬ ['-', '-'] <+: c :: cs) (hblock : ¬ ['/', '*'] <+: c :: cs)
    (hstring : ∀ mark ∈ stringMarks, ¬ mark <+: c :: cs) (hname : ∀ mark ∈ nameMarks, c ≠ mark.1) :
    measure c cs =
      if c.isDigit then (.number, numberLength cs)
      else if isWordStart c then (.word, (cs.takeWhile isWordPart).length)
      else
        match symbol? c cs with
        | some (kind, more) => (.symbol kind, more)
        | none => (.unknown, 0) := by
  have hpair (d e : Char) (h : ¬ [d, e] <+: c :: cs) : ¬ (c = d ∧ cs.head? = some e) := by
    rintro ⟨rfl, he⟩
    obtain ⟨rest, rfl⟩ := List.head?_eq_some_iff.1 he
    exact h ⟨rest, rfl⟩
  have hquote : c ≠ '\'' := by
    rintro rfl
    exact hstring ['\''] (by decide) ⟨cs, rfl⟩
  have hN := hpair _ _ (hstring ['N', '\''] (by decide))
  have hn := hpair _ _ (hstring ['n', '\''] (by decide))
  have hbracket : c ≠ '[' := hname ('[', ']') (by decide)
  have hmark : c ≠ '"' := hname ('"', '"') (by decide)
  have hnational : ¬ ((c = 'N' ∨ c = 'n') ∧ cs.head? = some '\'') := by
    rw [or_and_right, not_or]
    exact ⟨hN, hn⟩
  exact (if_neg (by simp [hlayout])).trans <| (if_neg (hpair _ _ hline)).trans <|
    (if_neg (hpair _ _ hblock)).trans <| (if_neg hquote).trans <| (if_neg hnational).trans <|
    (if_neg hbracket).trans (if_neg hmark)

theorem unmarked_of_alphanum {c : Char} (h : c.isDigit = true ∨ isWordStart c = true) :
    isLayout c = false ∧ c ≠ '-' ∧ c ≠ '/' ∧ c ≠ '\'' ∧ ∀ mark ∈ nameMarks, c ≠ mark.1 := by
  have hne (d : Char) (hdigit : d.isDigit = false) (hword : isWordStart d = false) : c ≠ d := by
    rintro rfl
    simp [hdigit, hword] at h
  refine ⟨?_, hne '-' (by decide) (by decide), hne '/' (by decide) (by decide),
    hne '\'' (by decide) (by decide), fun mark hmark => ?_⟩
  · rw [← Bool.not_eq_true, isLayout_iff]
    intro hmem
    have hall : [' ', '\t', '\n', '\x0c', '\r'].all (fun d => !d.isDigit && !isWordStart d) =
        true := by
      decide
    have hc := List.all_eq_true.1 hall c hmem
    rw [Bool.and_eq_true, Bool.not_eq_true', Bool.not_eq_true'] at hc
    exact hne c hc.1 hc.2 rfl
  · have hall : ∀ mark ∈ nameMarks, mark.1.isDigit = false ∧ isWordStart mark.1 = false := by decide
    exact hne mark.1 (hall mark hmark).1 (hall mark hmark).2

theorem isDigit_of_isWordStart {c : Char} (h : isWordStart c = true) : c.isDigit = false := by
  rw [← Bool.not_eq_true]
  intro hdigit
  change (decide ('0'.val ≤ c.val) && decide (c.val ≤ '9'.val)) = true at hdigit
  simp only [Bool.and_eq_true, decide_eq_true_eq, UInt32.le_iff_toNat_le] at hdigit
  change 48 ≤ c.toNat ∧ c.toNat ≤ 57 at hdigit
  simp only [isWordStart, Bool.or_eq_true, beq_iff_eq] at h
  rcases h with ((halpha | rfl) | rfl) | rfl
  · change (decide ('A'.val ≤ c.val ∧ c.val ≤ 'Z'.val) ||
      decide ('a'.val ≤ c.val) && decide (c.val ≤ 'z'.val)) = true at halpha
    simp only [Bool.or_eq_true, Bool.and_eq_true, decide_eq_true_eq, UInt32.le_iff_toNat_le]
      at halpha
    change (65 ≤ c.toNat ∧ c.toNat ≤ 90) ∨ (97 ≤ c.toNat ∧ c.toNat ≤ 122) at halpha
    omega
  all_goals exact absurd hdigit (by decide)

theorem unmarked_of_symbol {c : Char} {body : List Char} {kind : Kind}
    (h : (c :: body, kind) ∈ symbols) :
    isLayout c = false ∧ c ∉ ['\'', '[', '"'] ∧ c.isDigit = false ∧ isWordStart c = false := by
  have hall : symbols.all (fun symbol => symbol.1.head?.all fun c => decide (isLayout c = false ∧
      c ∉ ['\'', '[', '"'] ∧ c.isDigit = false ∧ isWordStart c = false)) = true := by decide
  exact of_decide_eq_true (List.all_eq_true.1 hall _ h)

theorem not_stringMark {c : Char} (hquote : c ≠ '\'') (hword : isWordStart c = false)
    (rest : List Char) : ∀ mark ∈ stringMarks, ¬ mark <+: c :: rest := by
  have hN : c ≠ 'N' := by rintro rfl; simp [isWordStart] at hword
  have hn : c ≠ 'n' := by rintro rfl; simp [isWordStart] at hword
  simp [stringMarks, hquote.symm, hN.symm, hn.symm]

theorem measure_of_other {c : Char} {cs : List Char} (hlayout : isLayout c = false)
    (hmarks : c ∉ ['\'', '[', '"']) (hdigit : c.isDigit = false) (hword : isWordStart c = false)
    (hline : ¬ ['-', '-'] <+: c :: cs) (hblock : ¬ ['/', '*'] <+: c :: cs) :
    measure c cs =
      match symbol? c cs with
      | some (kind, more) => (.symbol kind, more)
      | none => (.unknown, 0) := by
  have hquote : c ≠ '\'' := fun heq => hmarks (by simp [heq])
  have hname : ∀ mark ∈ nameMarks, c ≠ mark.1 := by
    rintro mark hmark rfl
    have hall : ∀ mark ∈ nameMarks, mark.1 ∈ ['\'', '[', '"'] := by decide
    exact hmarks (hall mark hmark)
  rw [measure_of_unmarked hlayout hline hblock (not_stringMark hquote hword cs) hname,
    if_neg (by simp [hdigit]), if_neg (by simp [hword])]

theorem measure_of_spelled {form : Form} {c : Char} {body rest : List Char}
    (h : Spelled form (c :: body) rest) : measure c (body ++ rest) = (form, body.length) := by
  generalize htext : c :: body = text at h
  cases h with
  | layout hc =>
      obtain ⟨rfl, rfl⟩ := List.cons.inj htext
      simp [measure, isLayout_iff.2 hc]
  | @lineComment inner rest hinner hstops =>
      obtain ⟨rfl, rfl⟩ := List.cons.inj htext
      have hbody : ∀ c ∈ '-' :: inner, decide (c ≠ '\n') = true := by
        simp only [List.forall_mem_cons, decide_eq_true_eq]
        exact ⟨by decide, fun c hc heq => hinner (heq ▸ hc)⟩
      have htake := (takeWhile_append_of_stops hbody hstops).1
      have hhead : ('-' :: inner ++ rest).head? = some '-' := rfl
      rw [measure, if_neg (by decide), if_pos ⟨rfl, hhead⟩, htake]
  | @blockComment inner rest hinner =>
      obtain ⟨rfl, rfl⟩ := List.cons.inj htext
      have hthrough := throughComment?_append hinner 1 rest
      simp [measure, isLayout, hthrough, delimited]
      omega
  | @openComment inner hinner =>
      obtain ⟨rfl, rfl⟩ := List.cons.inj htext
      have hthrough := throughComment?_of_not_infix hinner 1
      simp [measure, isLayout, hthrough, delimited]
  | @string mark inner rest hmark hinner hstops =>
      have hthrough := throughString?_append hinner hstops
      simp only [stringMarks, List.mem_cons, List.not_mem_nil, or_false] at hmark
      rcases hmark with rfl | rfl | rfl
      all_goals
        obtain ⟨rfl, rfl⟩ := List.cons.inj htext
        simp [measure, isLayout, hthrough, delimited]
      all_goals omega
  | @openString mark inner hmark hinner =>
      have hthrough := throughString?_of_doubled hinner
      simp only [stringMarks, List.mem_cons, List.not_mem_nil, or_false] at hmark
      rcases hmark with rfl | rfl | rfl
      all_goals
        obtain ⟨rfl, rfl⟩ := List.cons.inj htext
        simp [measure, isLayout, hthrough, delimited]
  | @name first last inner rest hmark hinner =>
      obtain ⟨rfl, rfl⟩ := List.cons.inj htext
      have hthrough := throughMark?_append hinner rest
      simp only [nameMarks, List.mem_cons, List.not_mem_nil, or_false, Prod.mk.injEq] at hmark
      rcases hmark with ⟨rfl, rfl⟩ | ⟨rfl, rfl⟩
      all_goals simp [measure, isLayout, hthrough, delimited]
  | @openName first last inner hmark hinner =>
      obtain ⟨rfl, rfl⟩ := List.cons.inj htext
      have hthrough := throughMark?_of_notMem hinner
      simp only [nameMarks, List.mem_cons, List.not_mem_nil, or_false, Prod.mk.injEq] at hmark
      rcases hmark with ⟨rfl, rfl⟩ | ⟨rfl, rfl⟩
      all_goals simp [measure, isLayout, hthrough, delimited]
  | @number whole fraction rest hne hwhole hfraction =>
      obtain ⟨d, whole, rfl⟩ := List.exists_cons_of_ne_nil hne
      obtain ⟨rfl, rfl⟩ := List.cons.inj htext
      have hdigit : c.isDigit = true := hwhole c List.mem_cons_self
      have hlength := numberLength_append
        (fun d hd => hwhole d (List.mem_cons_of_mem c hd)) hfraction
      obtain ⟨hlayout, hminus, hslash, hquote, hname⟩ := unmarked_of_alphanum (.inl hdigit)
      have hword : isWordStart c = false := by
        rw [← Bool.not_eq_true]
        intro hword
        simp [isDigit_of_isWordStart hword] at hdigit
      have hstring := not_stringMark hquote hword (whole ++ fraction ++ rest)
      change measure c (whole ++ fraction ++ rest) = (_, (whole ++ fraction).length)
      rw [measure_of_unmarked hlayout (by simp [hminus.symm]) (by simp [hslash.symm]) hstring hname,
        if_pos hdigit, List.append_assoc, hlength, List.length_append]
  | @word c inner rest hc hinner hstops hmarks =>
      obtain ⟨rfl, rfl⟩ := List.cons.inj htext
      obtain ⟨hlayout, hminus, hslash, hquote, hname⟩ := unmarked_of_alphanum (.inr hc)
      rw [measure_of_unmarked hlayout (by simp [hminus.symm]) (by simp [hslash.symm]) hmarks hname,
        if_neg (by simp [isDigit_of_isWordStart hc]), if_pos hc,
        (takeWhile_append_of_stops hinner hstops).1]
  | @symbol _ rest kind hmem hlongest hline hblock =>
      subst htext
      obtain ⟨hlayout, hmarks, hdigit, hword⟩ := unmarked_of_symbol hmem
      have hsymbol := symbol?_of_longest hmem hlongest
      have hmeasure := measure_of_other hlayout hmarks hdigit hword hline hblock
      rw [List.append_eq, hsymbol] at hmeasure
      exact hmeasure
  | unknown hlayout hmarks hdigit hword hsymbols =>
      obtain ⟨rfl, rfl⟩ := List.cons.inj htext
      rw [← isLayout_eq_false_iff] at hlayout
      have hline : ¬ ['-', '-'] <+: c :: rest := fun h =>
        hsymbols (['-'], .minus) (by decide) ((List.prefix_append ['-'] ['-']).trans h)
      have hblock : ¬ ['/', '*'] <+: c :: rest := fun h =>
        hsymbols (['/'], .slash) (by decide) ((List.prefix_append ['/'] ['*']).trans h)
      have hmeasure := measure_of_other hlayout hmarks hdigit hword hline hblock
      rw [symbol?_eq_none hsymbols] at hmeasure
      exact hmeasure

theorem Spelled.ne_nil {form : Form} {text rest : List Char} (h : Spelled form text rest) :
    text ≠ [] := by
  cases h with
  | string _ _ _ => simp
  | openString hmark _ =>
      have hall : ∀ mark ∈ stringMarks, mark ≠ [] := by decide
      exact List.append_ne_nil_of_left_ne_nil (hall _ hmark) _
  | number hne _ _ => exact List.append_ne_nil_of_left_ne_nil hne _
  | symbol hmem _ _ _ =>
      rintro rfl
      simpa using length_of_mem_symbols hmem
  | _ => exact List.cons_ne_nil _ _

theorem exists_spelled_symbol {c : Char} {cs : List Char} (hlayout : isLayout c = false)
    (hmarks : c ∉ ['\'', '[', '"']) (hdigit : c.isDigit = false) (hword : isWordStart c = false)
    (hline : ¬ ['-', '-'] <+: c :: cs) (hblock : ¬ ['/', '*'] <+: c :: cs) :
    ∃ form text rest, c :: cs = text ++ rest ∧ Spelled form text rest := by
  by_cases hpair : ∃ symbol ∈ symbols, symbol.1.length = 2 ∧ symbol.1 <+: c :: cs
  · obtain ⟨⟨text, kind⟩, hmem, hlength, rest, hrest⟩ := hpair
    rw [← hrest] at hline hblock ⊢
    refine ⟨.symbol kind, text, rest, rfl, .symbol hmem (fun other hother _ => ?_) hline hblock⟩
    have hother := length_of_mem_symbols hother
    have hlength : text.length = 2 := hlength
    omega
  · by_cases hsingle : ∃ symbol ∈ symbols, symbol.1 <+: c :: cs
    · obtain ⟨⟨text, kind⟩, hmem, rest, hrest⟩ := hsingle
      have hnot {symbol : List Char × Kind} (hsymbol : symbol ∈ symbols)
          (hbegins : symbol.1 <+: c :: cs) :
          symbol.1.length = 1 :=
        (length_of_mem_symbols hsymbol).resolve_right fun h => hpair ⟨symbol, hsymbol, h, hbegins⟩
      have hlength := hnot hmem ⟨rest, hrest⟩
      rw [← hrest] at hline hblock hnot ⊢
      refine ⟨.symbol kind, text, rest, rfl,
        .symbol hmem (fun other hother hbegins => ?_) hline hblock⟩
      exact Nat.le_of_eq ((hnot hother hbegins).trans hlength.symm)
    · rw [isLayout_eq_false_iff] at hlayout
      exact ⟨.unknown, [c], cs, rfl, .unknown hlayout hmarks hdigit hword
        fun symbol hsymbol hbegins => hsingle ⟨symbol, hsymbol, hbegins⟩⟩

theorem exists_spelled (c : Char) (cs : List Char) :
    ∃ form text rest, c :: cs = text ++ rest ∧ Spelled form text rest := by
  by_cases hlayout : isLayout c = true
  · exact ⟨.layout, [c], cs, rfl, .layout (isLayout_iff.1 hlayout)⟩
  by_cases hline : ['-', '-'] <+: c :: cs
  · obtain ⟨tail, htail⟩ := hline
    obtain ⟨body, rest, rfl, hbody, hrest⟩ := split_stops (· ≠ '\n') tail
    exact ⟨.lineComment, '-' :: '-' :: body, rest, htail.symm,
      .lineComment (fun hmem => by simpa using hbody _ hmem) hrest⟩
  by_cases hblock : ['/', '*'] <+: c :: cs
  · obtain ⟨tail, htail⟩ := hblock
    rcases split_comment tail with hopen | ⟨body, rest, rfl, hbody⟩
    · exact ⟨.blockComment false, '/' :: '*' :: tail, [], by simp [← htail], .openComment hopen⟩
    · exact ⟨.blockComment true, '/' :: '*' :: (body ++ ['*', '/']), rest, by simp [← htail],
        .blockComment hbody⟩
  by_cases hstring : ∃ mark ∈ stringMarks, mark <+: c :: cs
  · obtain ⟨mark, hmark, tail, htail⟩ := hstring
    rcases split_doubled tail with hopen | ⟨body, rest, rfl, hbody, hrest⟩
    · exact ⟨.string false, mark ++ tail, [], by simp [htail], .openString hmark hopen⟩
    · exact ⟨.string true, mark ++ body ++ ['\''], rest, by simp [← htail],
        .string hmark hbody hrest⟩
  by_cases hname : ∃ mark ∈ nameMarks, c = mark.1
  · obtain ⟨⟨first, last⟩, hmark, rfl⟩ := hname
    by_cases hlast : last ∈ cs
    · obtain ⟨body, rest, rfl, hbody⟩ := List.eq_append_cons_of_mem hlast
      exact ⟨.quotedName true, c :: (body ++ [last]), rest, by simp, .name hmark hbody⟩
    · exact ⟨.quotedName false, c :: cs, [], by simp, .openName hmark hlast⟩
  by_cases hdigit : c.isDigit = true
  · obtain ⟨whole, tail, rfl, hwhole, htail⟩ := split_stops Char.isDigit cs
    obtain ⟨fraction, rest, rfl, hfraction⟩ := split_fraction htail
    exact ⟨.number, c :: whole ++ fraction, rest, by simp,
      .number (List.cons_ne_nil _ _) (List.forall_mem_cons.2 ⟨hdigit, hwhole⟩) hfraction⟩
  by_cases hword : isWordStart c = true
  · obtain ⟨body, rest, rfl, hbody, hrest⟩ := split_stops isWordPart cs
    exact ⟨.word, c :: body, rest, rfl,
      .word hword hbody hrest fun mark hmark hbegins => hstring ⟨mark, hmark, hbegins⟩⟩
  · refine exists_spelled_symbol (Bool.not_eq_true _ ▸ hlayout) (fun hmark => ?_)
      (Bool.not_eq_true _ ▸ hdigit) (Bool.not_eq_true _ ▸ hword) hline hblock
    simp only [List.mem_cons, List.not_mem_nil, or_false] at hmark
    rcases hmark with rfl | rfl | rfl
    · exact hstring ⟨['\''], by decide, cs, rfl⟩
    · exact hname ⟨('[', ']'), by decide, rfl⟩
    · exact hname ⟨('"', '"'), by decide, rfl⟩

theorem first_of_spelled {form : Form} {c : Char} {body rest : List Char}
    (h : Spelled form (c :: body) rest) :
    first c (body ++ rest) = ⟨form, c :: body⟩ ∧ Lexeme.rest c (body ++ rest) = rest := by
  simp [first, Lexeme.rest, measure_of_spelled h]

theorem spelled_first (c : Char) (cs : List Char) :
    Spelled (first c cs).form (first c cs).text (rest c cs) := by
  obtain ⟨form, text, rest, hsplit, h⟩ := exists_spelled c cs
  obtain ⟨d, body, rfl⟩ := List.exists_cons_of_ne_nil h.ne_nil
  obtain ⟨rfl, rfl⟩ := List.cons.inj hsplit
  obtain ⟨hfirst, hrest⟩ := first_of_spelled h
  rw [List.append_eq, hfirst, hrest]
  exact h

theorem cut_of_spelled {form : Form} {text rest : List Char} (h : Spelled form text rest) :
    cut (text ++ rest) = ⟨form, text⟩ :: cut rest := by
  obtain ⟨c, body, rfl⟩ := List.exists_cons_of_ne_nil h.ne_nil
  obtain ⟨hfirst, hrest⟩ := first_of_spelled h
  rw [List.cons_append, cut_cons, hfirst, hrest]

end Lexeme

end SqlAtlas
