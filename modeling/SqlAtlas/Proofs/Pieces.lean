import SqlAtlas.Proofs.Erasure
import SqlAtlas.Proofs.Words

namespace SqlAtlas

open Computability

namespace Phrase

def pieces (nests : Nest → Language Piece) : Phrase → Bool → Language Piece
  | .nothing, false | .stray, false | .accept _, false => 1
  | .note role, false => {[.note role]}
  | .accept guard, true => {(guard.kinds.take guard.width).map .token}
  | .need kind, true => {[.token kind]}
  | .seq first second, taken =>
      {d | ∃ u ∈ first.pieces nests true + first.pieces nests false,
        ∃ v ∈ second.pieces nests taken, first.Fits (kindsOf u) (kindsOf v) ∧ u ++ v = d}
  | .ifElse test yes no, taken =>
      (if taken then test.pieces nests true * (yes.pieces nests true + yes.pieces nests false)
        else 0) +
        (if test.excludes no then 0 else test.pieces nests false * no.pieces nests taken)
  | .many body, false => (body.pieces nests true)∗ * body.pieces nests false
  | .rule _ body, taken => body.pieces nests taken
  | .node shape body, taken => enclose shape (body.pieces nests taken)
  | .nest again, false => nests again
  | .nothing, true | .note _, true | .stray, true | .fail, _ | .need _, false | .many _, true
  | .nest _, true => 0

def forms (nests : Nest → Language Piece) (phrase : Phrase) : Language Piece :=
  phrase.pieces nests true + phrase.pieces nests false

variable {nests : Nest → Language Piece} {phrase : Phrase}

theorem mem_forms {d : List Piece} :
    d ∈ phrase.forms nests ↔ ∃ b, d ∈ phrase.pieces nests b := by
  simp only [forms, Language.mem_add, Bool.exists_bool]
  exact or_comm

theorem mem_pieces_seq {first second : Phrase} {b : Bool} {d : List Piece} :
    d ∈ (seq first second).pieces nests b ↔
      ∃ u ∈ first.forms nests, ∃ v ∈ second.pieces nests b,
        first.Fits (kindsOf u) (kindsOf v) ∧ u ++ v = d :=
  Iff.rfl

theorem mem_pieces_ifElse {test yes no : Phrase} {b : Bool} {d : List Piece} :
    d ∈ (ifElse test yes no).pieces nests b ↔
      (b = true ∧ d ∈ test.pieces nests true * yes.forms nests) ∨
        (test.excludes no = false ∧ d ∈ test.pieces nests false * no.pieces nests b) := by
  cases b <;> cases h : test.excludes no <;>
    simp [pieces, forms, h, Language.mem_add, -add_eq_sup]

theorem mem_pieces_many {body : Phrase} {d : List Piece} :
    d ∈ (many body).pieces nests false ↔
      ∃ turns : List (List Piece), (∀ u ∈ turns, u ∈ body.pieces nests true) ∧
        ∃ v ∈ body.pieces nests false, turns.flatten ++ v = d := by
  simp only [pieces, Language.mem_mul, Language.mem_kstar]
  constructor
  · rintro ⟨_, ⟨turns, rfl, hturns⟩, v, hv, rfl⟩
    exact ⟨turns, hturns, v, hv, rfl⟩
  · rintro ⟨turns, hturns, v, hv, rfl⟩
    exact ⟨_, ⟨turns, rfl, hturns⟩, v, hv, rfl⟩

theorem erase_pieces (phrase : Phrase) (b : Bool) :
    erase (phrase.pieces nests b) = phrase.words (fun again => erase (nests again)) b := by
  induction phrase generalizing b with
  | nothing | stray =>
      cases b with
      | true => exact erase_zero
      | false => exact erase_one
  | note role =>
      cases b with
      | true => exact erase_zero
      | false => exact erase_singleton _
  | accept guard =>
      cases b with
      | true => exact (erase_singleton _).trans (congrArg _ (kindsOf_tokens _))
      | false => exact erase_one
  | need kind =>
      cases b with
      | true => exact erase_singleton _
      | false => exact erase_zero
  | fail => exact erase_zero
  | seq first second ih₁ ih₂ =>
      have htext : first.text (fun again => erase (nests again)) = erase (first.forms nests) := by
        rw [text, forms, erase_add, ih₁, ih₁]
      ext w
      rw [mem_words_seq, htext, ← ih₂]
      constructor
      · rintro ⟨_, ⟨u, hu, v, hv, hfits, rfl⟩, rfl⟩
        exact ⟨_, kindsOf_mem_erase hu, _, kindsOf_mem_erase hv, hfits, (kindsOf_append u v).symm⟩
      · rintro ⟨_, ⟨u, hu, rfl⟩, _, ⟨v, hv, rfl⟩, hfits, rfl⟩
        exact ⟨_, ⟨u, hu, v, hv, hfits, rfl⟩, kindsOf_append u v⟩
  | ifElse test yes no iht ihy ihn =>
      cases b <;> cases hex : test.excludes no <;>
        simp only [pieces, words, hex, if_true, Bool.false_eq_true, if_false, erase_add, erase_mul,
          erase_zero, iht, ihy, ihn]
  | many body ih =>
      cases b with
      | true => exact erase_zero
      | false => simp only [pieces, words, erase_mul, erase_kstar, ih]
  | rule name body ih => exact ih b
  | node shape body ih => exact (erase_enclose _ _).trans (ih b)
  | nest again =>
      cases b with
      | true => exact erase_zero
      | false => rfl

theorem erase_forms (phrase : Phrase) :
    erase (phrase.forms nests) = phrase.text fun again => erase (nests again) := by
  rw [forms, text, erase_add, erase_pieces, erase_pieces]

theorem kindsOf_mem_words {b : Bool} {d : List Piece} (h : d ∈ phrase.pieces nests b) :
    kindsOf d ∈ phrase.words (fun again => erase (nests again)) b :=
  erase_pieces phrase b ▸ kindsOf_mem_erase h

theorem exists_pieces {words : Nest → Language Kind} {b : Bool} {w : List Kind}
    (h : w ∈ phrase.words words b) :
    ∃ d ∈ phrase.pieces (fun again => spell (words again)) b, kindsOf d = w := by
  have herase := @erase_pieces (fun again => spell (words again)) phrase b
  simp only [erase_spell] at herase
  rwa [← herase] at h

end Phrase

end SqlAtlas
