import SqlAtlas.Proofs.Spelling
import SqlAtlas.Proofs.TokenSpans

namespace SqlAtlas

structure Span.Covers (span : Span) (front part : List Char) : Prop where
  part_ne_nil : part ≠ []
  startLine : span.startLine = 1 + front.count '\n'
  stopLine : span.stopLine = 1 + (front ++ part).count '\n'
  start : span.start = (String.ofList front).utf8ByteSize
  stop : span.stop + 1 = (String.ofList (front ++ part)).utf8ByteSize

namespace Lexeme

inductive Yields : Form → List Char → Option Kind → Option String → Prop
  | skipped {form : Form} {text : List Char} :
      form ∈ [.layout, .lineComment, .blockComment true] → Yields form text none none
  | openComment {text : List Char} :
      Yields (.blockComment false) text none (some "unterminated block comment")
  | unknown {c : Char} : Yields .unknown [c] none (some s!"token recognition error at: '{c}'")
  | string {text : List Char} : Yields (.string true) text (some .string) none
  | openString {text : List Char} :
      Yields (.string false) text (some .string) (some "unterminated string literal")
  | name {text : List Char} : Yields (.quotedName true) text (some .identifier) none
  | openName {text : List Char} :
      Yields (.quotedName false) text (some .identifier) (some "unterminated quoted identifier")
  | number {text : List Char} : Yields .number text (some .number) none
  | keyword {text : List Char} {keyword : Keyword} :
      String.ofList (text.map Char.toUpper) = keyword.spelling →
      Yields .word text (some (.keyword keyword)) none
  | identifier {text : List Char} :
      (∀ keyword : Keyword, String.ofList (text.map Char.toUpper) ≠ keyword.spelling) →
      Yields .word text (some .identifier) none
  | symbol {text : List Char} {kind : Kind} : Yields (.symbol kind) text (some kind) none

-- What is left of a script after `front`, cut into lexemes that follow each other with no gap, with
-- the tokens and the faults that they yield.
inductive Tiling : List Char → List Char → List (Token Kind) → List Fault → Prop
  | done {front : List Char} : Tiling front [] [] []
  | next {front text rest : List Char} {form : Form} {kind : Option Kind} {message : Option String}
      {span : Span} {tokens : List (Token Kind)} {faults : List Fault} :
      Spelled form text rest → Yields form text kind message → span.Covers front text →
      Tiling (front ++ text) rest tokens faults →
      Tiling front (text ++ rest) ((kind.map (⟨·, span⟩)).toList ++ tokens)
        ((message.map (⟨.lexical, span, ·⟩)).toList ++ faults)

theorem covers_spanAt {front part : List Char} (hpart : part ≠ []) (form : Form) :
    (spanAt (1 + Text.lineFeeds front) (Text.bytes front) ⟨form, part⟩).Covers front part := by
  have hpos := bytes_pos hpart
  refine ⟨hpart, rfl, ?_, (Text.bytes_ofList front).symm, ?_⟩
  · rw [List.count_append, ← Nat.add_assoc]
    rfl
  · simp only [spanAt, Text.bytes_ofList, Text.bytes_append]
    omega

theorem yields_word (text : List Char) : Yields .word text (some (wordKind text)) none := by
  unfold wordKind
  split
  next keyword hsome =>
    refine .keyword ?_
    have hfound := List.find?_some hsome
    exact (beq_iff_eq.1 hfound).symm
  next hnone =>
    refine .identifier fun keyword heq => ?_
    rw [heq, Keyword.ofSpelling?_spelling] at hnone
    cases hnone

theorem yields_of_spelled {form : Form} {text rest : List Char} (h : Spelled form text rest) :
    Yields form text (kind? ⟨form, text⟩) ((flaw? ⟨form, text⟩).map Flaw.message) := by
  cases form with
  | layout | lineComment => exact .skipped (by simp)
  | blockComment closed =>
      cases closed with
      | true => exact .skipped (by simp)
      | false => exact .openComment
  | string closed => cases closed <;> constructor
  | quotedName closed => cases closed <;> constructor
  | number => exact .number
  | word => exact yields_word text
  | symbol kind => exact .symbol
  | unknown =>
      cases h
      exact .unknown

theorem tiling_locate (front cs : List Char) :
    Tiling front cs
      ((locate (1 + Text.lineFeeds front) (Text.bytes front) (cut cs)).filterMap token?)
      ((locate (1 + Text.lineFeeds front) (Text.bytes front) (cut cs)).filterMap fault?) := by
  induction cs using cut_induction generalizing front with
  | nil =>
      rw [cut_nil, locate_nil]
      exact .done
  | cons c cs ih =>
      have hspelled := spelled_first c cs
      have htail := ih (front ++ (first c cs).text)
      rw [Text.lineFeeds_append, ← Nat.add_assoc, Text.bytes_append] at htail
      have hnext := Tiling.next hspelled (yields_of_spelled hspelled)
        (covers_spanAt hspelled.ne_nil (first c cs).form) htail
      rw [first_append_rest, Option.map_map] at hnext
      rw [cut_cons, locate_cons, List.filterMap_eq_flatMap_toList, List.filterMap_eq_flatMap_toList,
        List.flatMap_cons, List.flatMap_cons, ← List.filterMap_eq_flatMap_toList,
        ← List.filterMap_eq_flatMap_toList]
      exact hnext

end Lexeme

theorem lex_accounts_for_script (script : String) :
    let lines := 1 + script.toList.count '\n'
    let size := script.utf8ByteSize
    ∃ tokens, (lex script).tokens = tokens ++ [⟨.eof, ⟨lines, lines, size, size⟩⟩] ∧
      Lexeme.Tiling [] script.toList tokens (lex script).faults ∧
      (∀ token ∈ tokens, token.kind ≠ .eof) ∧
      (tokens.Pairwise fun token next => token.span.stop < next.span.start) ∧
      (lex script).faults.Pairwise fun fault next => fault.span.stop < next.span.start := by
  intro lines size
  obtain ⟨tokens, htokens, hspread⟩ := lex_spread script
  have hsize : endToken script.toList = ⟨.eof, ⟨lines, lines, size, size⟩⟩ := by
    rw [endToken, Text.bytes_toList]
    rfl
  have hlexed : tokens = (Lexeme.locate 1 0 (Lexeme.cut script.toList)).filterMap Lexeme.token? :=
    (List.append_cancel_right htokens).symm
  have hapart := Lexeme.locate_pairwise 1 0 (Lexeme.cut script.toList)
    (fun lexeme h => Lexeme.text_ne_nil_of_mem_cut h)
  refine ⟨tokens, hsize ▸ htokens, hlexed ▸ Lexeme.tiling_locate [] script.toList,
    fun token htoken => (hspread.placed token htoken).plain, hspread.apart, ?_⟩
  refine List.Pairwise.filterMap _ (fun located next hlt fault hfault other hother => ?_) hapart
  obtain ⟨_, _, rfl⟩ := Option.map_eq_some_iff.1 hfault
  obtain ⟨_, _, rfl⟩ := Option.map_eq_some_iff.1 hother
  exact hlt

end SqlAtlas
