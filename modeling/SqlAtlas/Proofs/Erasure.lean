import SqlAtlas.Proofs.Derivation

namespace SqlAtlas

open Computability

@[simp] theorem kindsOf_nil : kindsOf [] = [] := rfl

@[simp] theorem kindsOf_append (d d' : List Piece) :
    kindsOf (d ++ d') = kindsOf d ++ kindsOf d' := by
  induction d with
  | nil => rfl
  | cons piece d ih => simp [kindsOf, ih]

@[simp] theorem kindsOf_group (shape : Shape) (d : List Piece) :
    kindsOf [.group shape d] = kindsOf d :=
  List.append_nil _

@[simp] theorem kindsOf_tokens (ks : List Kind) : kindsOf (ks.map .token) = ks := by
  induction ks with
  | nil => rfl
  | cons kind ks ih => simp [kindsOf, Piece.kinds, ih]

theorem kindsOf_flatten (ds : List (List Piece)) :
    kindsOf ds.flatten = (ds.map kindsOf).flatten := by
  induction ds with
  | nil => rfl
  | cons d ds ih => simp [ih]

def erase (forms : Language Piece) : Language Kind :=
  {w | ∃ d ∈ forms, kindsOf d = w}

section Erase

variable {l m : Language Piece} {w : List Kind}

theorem mem_erase : w ∈ erase l ↔ ∃ d ∈ l, kindsOf d = w := Iff.rfl

theorem kindsOf_mem_erase {d : List Piece} (h : d ∈ l) : kindsOf d ∈ erase l := ⟨d, h, rfl⟩

theorem erase_zero : erase 0 = 0 :=
  Set.image_empty kindsOf

theorem erase_one : erase 1 = 1 :=
  Set.image_singleton

theorem erase_singleton (d : List Piece) : erase {d} = {kindsOf d} :=
  Set.image_singleton

theorem erase_add (l m : Language Piece) : erase (l + m) = erase l + erase m :=
  Set.image_union kindsOf l m

theorem erase_mul (l m : Language Piece) : erase (l * m) = erase l * erase m :=
  Set.image_image2_distrib kindsOf_append

theorem erase_kstar (l : Language Piece) : erase l∗ = (erase l)∗ := by
  ext w
  simp only [mem_erase, Language.mem_kstar]
  constructor
  · rintro ⟨_, ⟨ds, rfl, hds⟩, rfl⟩
    refine ⟨ds.map kindsOf, kindsOf_flatten ds, fun w hw => ?_⟩
    obtain ⟨d, hd, rfl⟩ := List.mem_map.1 hw
    exact kindsOf_mem_erase (hds d hd)
  · rintro ⟨ws, rfl, hws⟩
    induction ws with
    | nil => exact ⟨[], ⟨[], rfl, by simp⟩, rfl⟩
    | cons w ws ih =>
        obtain ⟨d, hd, rfl⟩ := hws w (by simp)
        obtain ⟨_, ⟨ds, rfl, hds⟩, hflat⟩ := ih fun w hw => hws w (by simp [hw])
        exact ⟨_, ⟨d :: ds, rfl, by simpa using ⟨hd, hds⟩⟩, by simp [hflat]⟩

theorem erase_enclose (shape : Shape) (l : Language Piece) : erase (enclose shape l) = erase l := by
  ext w
  constructor
  · rintro ⟨_, ⟨d, hd, rfl⟩, rfl⟩
    exact ⟨d, hd, (kindsOf_group shape d).symm⟩
  · rintro ⟨d, hd, rfl⟩
    exact ⟨_, ⟨d, hd, rfl⟩, kindsOf_group shape d⟩

def spell (words : Language Kind) : Language Piece :=
  {d | ∃ w ∈ words, w.map .token = d}

@[simp] theorem erase_spell (words : Language Kind) : erase (spell words) = words := by
  ext w
  constructor
  · rintro ⟨_, ⟨w, hw, rfl⟩, rfl⟩
    exact (kindsOf_tokens w).symm ▸ hw
  · intro hw
    exact ⟨_, ⟨w, hw, rfl⟩, kindsOf_tokens w⟩

end Erase

def Setting.words (setting : Setting) (again : Nest) : Language Kind := erase (setting.forms again)

theorem Setting.callsOnly_upTo (levels : Nat) : (Setting.upTo True levels).callsOnly := by
  cases levels <;> trivial

theorem Setting.notMem_words_zero {callsOnly : Prop} {again : Nest} {w : List Kind} :
    w ∉ (Setting.upTo callsOnly 0).words again := by
  rintro ⟨d, hd, -⟩
  exact Language.notMem_zero d hd

end SqlAtlas
