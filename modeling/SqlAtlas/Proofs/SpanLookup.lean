import Mathlib.Data.List.Induction
import Mathlib.Logic.Basic
import SqlAtlas.Span

namespace SqlAtlas

namespace Span

def Apart (span other : Span) : Prop :=
  ∀ offset, span.contains offset = true → other.contains offset = false

theorem Apart.symm {span other : Span} (h : span.Apart other) : other.Apart span := by
  intro offset hother
  cases hspan : span.contains offset with
  | false => rfl
  | true => exact (h offset hspan).symm.trans hother |>.symm

theorem apart_of_lt {span other : Span} (h : span.stop < other.start) : span.Apart other := by
  intro offset hspan
  have hbounds := contains_iff.1 hspan
  have hout : ¬ other.start ≤ offset := by omega
  simp [contains, hout]

theorem contains_of_encloses {span other : Span} {offset : Nat} (h : span.encloses other = true)
    (hother : other.contains offset = true) : span.contains offset = true := by
  simp only [encloses, Bool.and_eq_true, decide_eq_true_eq] at h
  have hbounds := contains_iff.1 hother
  exact contains_iff.2 ⟨by omega, by omega⟩

def later {α : Type} (spanOf : α → Span) (offset : Nat) (best : Option α) (item : α) : Option α :=
  if (spanOf item).start ≤ offset ∧ ∀ other ∈ best, (spanOf other).start ≤ (spanOf item).start
  then some item else best

def earlier {α : Type} (spanOf : α → Span) (best : Option α) (item : α) : Option α :=
  if ∀ other ∈ best, (spanOf item).start < (spanOf other).start then some item else best

def lastFrom {α : Type} (spanOf : α → Span) (offset : Nat) (items : List α) : Option α :=
  items.foldl (later spanOf offset) none

def earliest {α : Type} (spanOf : α → Span) (items : List α) : Option α :=
  items.foldl (earlier spanOf) none

def holder? {α : Type} (spanOf : α → Span) (offset : Nat) (items : List α) : Option α :=
  (lastFrom spanOf offset items).filter (fun item => (spanOf item).contains offset)

def nearest? {α : Type} (spanOf : α → Span) (offset : Nat) (items : List α) : Option α :=
  (lastFrom spanOf offset items).or (earliest spanOf items)

theorem contains_of_holder? {α : Type} {spanOf : α → Span} {offset : Nat}
    {items : List α} {item : α} (h : holder? spanOf offset items = some item) :
    (spanOf item).contains offset = true :=
  (Option.filter_eq_some_iff.1 h).2

section Holder

variable {α : Type} {spanOf : α → Span} {offset : Nat} {items : List α} {item : α}

theorem mem_of_foldl {step : Option α → α → Option α}
    (hstep : ∀ best item, step best item = best ∨ step best item = some item) {best : Option α}
    (h : items.foldl step best = some item) : best = some item ∨ item ∈ items := by
  induction items generalizing best with
  | nil => exact .inl h
  | cons first rest ih =>
      rw [List.foldl_cons] at h
      rcases ih h with hbest | hmem
      · rcases hstep best first with hkept | htaken
        · exact .inl (hkept.symm.trans hbest)
        · obtain rfl := Option.some.inj (htaken.symm.trans hbest)
          exact .inr List.mem_cons_self
      · exact .inr (List.mem_cons_of_mem _ hmem)

theorem mem_of_lastFrom (h : lastFrom spanOf offset items = some item) : item ∈ items :=
  (mem_of_foldl (fun _ _ => (ite_eq_or_eq ..).symm) h).resolve_left (by simp)

theorem mem_of_holder? (h : holder? spanOf offset items = some item) : item ∈ items :=
  mem_of_lastFrom (Option.filter_eq_some_iff.1 h).1

theorem find?_of_apart
    (hapart : items.Pairwise fun item other => (spanOf item).Apart (spanOf other))
    (hmem : item ∈ items) (hcontains : (spanOf item).contains offset = true) :
    (items.find? fun item => (spanOf item).contains offset) = some item := by
  obtain ⟨front, back, rfl⟩ := List.append_of_mem hmem
  have hfront : (front.find? fun item => (spanOf item).contains offset) = none := by
    refine List.find?_eq_none.2 fun other hother => ?_
    have hcross := (List.pairwise_append.1 hapart).2.2 other hother item List.mem_cons_self
    simp [hcross.symm offset hcontains]
  rw [List.find?_append, hfront, Option.none_or]
  exact List.find?_cons_of_pos hcontains

section Nearest

theorem isSome_foldl_earlier {best : Option α} (h : best.isSome) :
    (items.foldl (earlier spanOf) best).isSome := by
  induction items generalizing best with
  | nil => exact h
  | cons first rest ih =>
      refine ih ?_
      unfold earlier
      split
      · rfl
      · exact h

theorem mem_of_nearest? (h : nearest? spanOf offset items = some item) : item ∈ items := by
  rcases Option.or_eq_some_iff.1 h with hlast | ⟨-, hfirst⟩
  · exact mem_of_lastFrom hlast
  · exact (mem_of_foldl (fun _ _ => (ite_eq_or_eq ..).symm) hfirst).resolve_left (by simp)

theorem isSome_earliest (h : items ≠ []) : (earliest spanOf items).isSome := by
  obtain ⟨first, rest, rfl⟩ := List.exists_cons_of_ne_nil h
  have hfirst : (rest.foldl (earlier spanOf) (some first)).isSome := isSome_foldl_earlier rfl
  exact hfirst

theorem exists_nearest? (h : items ≠ []) : ∃ item, nearest? spanOf offset items = some item := by
  have hearliest : (earliest spanOf items).isSome := isSome_earliest h
  exact Option.isSome_iff_exists.1 (by simp [nearest?, hearliest])

end Nearest

section Apart

def Latest (spanOf : α → Span) (offset : Nat) (items : List α) : Option α → Prop
  | none => ∀ other ∈ items, offset < (spanOf other).start
  | some item => (spanOf item).start ≤ offset ∧
      ∀ other ∈ items, (spanOf other).start ≤ offset → (spanOf other).start ≤ (spanOf item).start

theorem Latest.later {best : Option α} (h : Latest spanOf offset items best) (item : α) :
    Latest spanOf offset (items ++ [item]) (later spanOf offset best item) := by
  unfold Span.later
  cases best with
  | none =>
      by_cases hstart : (spanOf item).start ≤ offset
      · rw [if_pos (by simpa using hstart)]
        refine ⟨hstart, fun other hother hle => ?_⟩
        rcases List.mem_append.1 hother with hmem | hmem
        · exact absurd hle (Nat.not_le.2 (h other hmem))
        · exact List.mem_singleton.1 hmem ▸ Nat.le_refl _
      · rw [if_neg fun hboth => hstart hboth.1]
        intro other hother
        rcases List.mem_append.1 hother with hmem | hmem
        · exact h other hmem
        · exact List.mem_singleton.1 hmem ▸ Nat.lt_of_not_le hstart
  | some first =>
      by_cases hboth : (spanOf item).start ≤ offset ∧ (spanOf first).start ≤ (spanOf item).start
      · rw [if_pos (by simpa using hboth)]
        refine ⟨hboth.1, fun other hother hle => ?_⟩
        rcases List.mem_append.1 hother with hmem | hmem
        · exact Nat.le_trans (h.2 other hmem hle) hboth.2
        · exact List.mem_singleton.1 hmem ▸ Nat.le_refl _
      · rw [if_neg (by simpa using hboth)]
        refine ⟨h.1, fun other hother hle => ?_⟩
        rcases List.mem_append.1 hother with hmem | hmem
        · exact h.2 other hmem hle
        · obtain rfl := List.mem_singleton.1 hmem
          omega

theorem latest_lastFrom : Latest spanOf offset items (lastFrom spanOf offset items) := by
  induction items using List.reverseRecOn with
  | nil => exact fun other hother => absurd hother List.not_mem_nil
  | append_singleton items item ih =>
      rw [lastFrom, List.foldl_append, ← lastFrom]
      exact ih.later item

theorem start_le_of_earliest (h : earliest spanOf items = some item) {other : α}
    (hother : other ∈ items) :
    (spanOf item).start ≤ (spanOf other).start := by
  induction items using List.reverseRecOn generalizing item with
  | nil => exact absurd hother List.not_mem_nil
  | append_singleton items last ih =>
      rw [earliest, List.foldl_append, ← earliest, List.foldl_cons, List.foldl_nil, earlier] at h
      split at h
      · next hlt =>
          obtain rfl := Option.some.inj h
          rcases List.mem_append.1 hother with hmem | hmem
          · obtain ⟨best, hbest⟩ :=
              Option.isSome_iff_exists.1 (isSome_earliest (List.ne_nil_of_mem hmem))
            exact Nat.le_of_lt (Nat.lt_of_lt_of_le (hlt best hbest) (ih hbest hmem))
          · exact List.mem_singleton.1 hmem ▸ Nat.le_refl _
      · next hge =>
          rcases List.mem_append.1 hother with hmem | hmem
          · exact ih h hmem
          · simpa [h, List.mem_singleton.1 hmem] using hge

def Nearest (spanOf : α → Span) (offset : Nat) (items : List α) (item : α) : Prop :=
  (spanOf item).contains offset = true ∨
    (∀ other ∈ items, (spanOf other).contains offset = false) ∧
      ((spanOf item).start < offset ∧
          (∀ other ∈ items, (spanOf other).start < offset →
            (spanOf other).start ≤ (spanOf item).start) ∨
        ∀ other ∈ items, offset ≤ (spanOf other).start ∧ (spanOf item).start ≤ (spanOf other).start)

variable (hcovers : ∀ item ∈ items, (spanOf item).start ≤ (spanOf item).stop)
  (hapart : items.Pairwise fun item other => (spanOf item).Apart (spanOf other))
include hapart

theorem eq_of_contains {other : α} (hitem : item ∈ items) (hother : other ∈ items)
    (hcontains : (spanOf item).contains offset = true)
    (hcontains' : (spanOf other).contains offset = true) :
    item = other :=
  Option.some.inj ((find?_of_apart hapart hitem hcontains).symm.trans
    (find?_of_apart hapart hother hcontains'))

include hcovers

theorem eq_of_start_eq {other : α} (hitem : item ∈ items) (hother : other ∈ items)
    (hstart : (spanOf item).start = (spanOf other).start) : item = other := by
  have hcontains : ∀ item ∈ items, (spanOf item).contains (spanOf item).start = true :=
    fun item hitem => contains_iff.2 ⟨Nat.le_refl _, hcovers item hitem⟩
  exact eq_of_contains hapart hitem hother (hcontains item hitem) (hstart ▸ hcontains other hother)

theorem lastFrom_of_contains (hitem : item ∈ items)
    (hcontains : (spanOf item).contains offset = true) :
    lastFrom spanOf offset items = some item := by
  have hbounds := contains_iff.1 hcontains
  have hlatest : Latest spanOf offset items _ := latest_lastFrom
  cases hlast : lastFrom spanOf offset items with
  | none =>
      rw [hlast] at hlatest
      exact absurd hbounds.1 (Nat.not_le.2 (hlatest item hitem))
  | some last =>
      rw [hlast] at hlatest
      have hmem := mem_of_lastFrom hlast
      have hle := hlatest.2 item hitem hbounds.1
      have hown : (spanOf last).contains (spanOf last).start = true :=
        contains_iff.2 ⟨Nat.le_refl _, hcovers last hmem⟩
      have hshared : (spanOf item).contains (spanOf last).start = true :=
        contains_iff.2 ⟨hle, Nat.le_trans hlatest.1 hbounds.2⟩
      rw [eq_of_contains hapart hmem hitem hown hshared]

theorem holder?_eq_some_iff :
    holder? spanOf offset items = some item ↔ item ∈ items ∧
    (spanOf item).contains offset = true := by
  refine ⟨fun h => ⟨mem_of_holder? h, contains_of_holder? h⟩, fun ⟨hitem, hcontains⟩ => ?_⟩
  exact Option.filter_eq_some_iff.2 ⟨lastFrom_of_contains hcovers hapart hitem hcontains, hcontains⟩

omit hapart in
theorem holder?_eq_find?
    (hordered : items.Pairwise fun item next => (spanOf item).stop < (spanOf next).start) :
    holder? spanOf offset items = items.find? fun item => (spanOf item).contains offset := by
  refine Option.ext fun item => ?_
  have hapart := hordered.imp apart_of_lt
  rw [holder?_eq_some_iff hcovers hapart]
  constructor
  · exact fun ⟨hitem, hcontains⟩ => find?_of_apart hapart hitem hcontains
  · exact fun hfind => ⟨List.mem_of_find?_eq_some hfind, by simpa using List.find?_some hfind⟩

theorem nearest_of_nearest? (h : nearest? spanOf offset items = some item) :
    Nearest spanOf offset items item := by
  have hlatest : Latest spanOf offset items _ := latest_lastFrom
  have hmem := mem_of_nearest? h
  rcases Option.or_eq_some_iff.1 h with hlast | ⟨hnone, hfirst⟩
  · rw [hlast] at hlatest
    cases hcontains : (spanOf item).contains offset with
    | true => exact .inl hcontains
    | false =>
        have hout : ¬ ((spanOf item).start ≤ offset ∧ offset ≤ (spanOf item).stop) := by
          rw [← contains_iff, hcontains]
          exact Bool.false_ne_true
        have hle := hcovers item hmem
        have hstart := hlatest.1
        refine .inr ⟨fun other hother => ?_, .inl ⟨by omega, fun other hother hlt => ?_⟩⟩
        · refine Bool.eq_false_iff.2 fun hholds => ?_
          have hsame := hlast.symm.trans (lastFrom_of_contains hcovers hapart hother hholds)
          rw [← Option.some.inj hsame] at hholds
          exact Bool.eq_false_iff.1 hcontains hholds
        · exact hlatest.2 other hother (Nat.le_of_lt hlt)
  · rw [hnone] at hlatest
    refine .inr ⟨fun other hother => ?_, .inr fun other hother => ?_⟩
    · exact Bool.eq_false_iff.2 fun hholds =>
        Nat.not_le.2 (hlatest other hother) (contains_iff.1 hholds).1
    · exact ⟨Nat.le_of_lt (hlatest other hother), start_le_of_earliest hfirst hother⟩

theorem Nearest.unique {other : α} (hitem : item ∈ items) (hother : other ∈ items)
    (h : Nearest spanOf offset items item) (h' : Nearest spanOf offset items other) :
    item = other := by
  rcases h with hholds | ⟨hnone, h⟩ <;> rcases h' with hholds' | ⟨hnone', h'⟩
  · exact eq_of_contains hapart hitem hother hholds hholds'
  · exact absurd hholds (Bool.eq_false_iff.1 (hnone' item hitem))
  · exact absurd hholds' (Bool.eq_false_iff.1 (hnone other hother))
  · refine eq_of_start_eq hcovers hapart hitem hother ?_
    rcases h with ⟨hlt, hgreatest⟩ | hsmallest <;> rcases h' with ⟨hlt', hgreatest'⟩ | hsmallest'
    · exact Nat.le_antisymm (hgreatest' item hitem hlt) (hgreatest other hother hlt')
    · exact absurd (hsmallest' item hitem).1 (Nat.not_le.2 hlt)
    · exact absurd (hsmallest other hother).1 (Nat.not_le.2 hlt')
    · exact Nat.le_antisymm (hsmallest other hother).2 (hsmallest' item hitem).2

theorem nearest?_eq_some_iff :
    nearest? spanOf offset items = some item ↔ item ∈ items ∧ Nearest spanOf offset items item := by
  refine ⟨fun h => ⟨mem_of_nearest? h, nearest_of_nearest? hcovers hapart h⟩,
    fun ⟨hitem, hnearest⟩ => ?_⟩
  obtain ⟨found, hfound⟩ : ∃ found, nearest? spanOf offset items = some found :=
    exists_nearest? (List.ne_nil_of_mem hitem)
  have hsame := Nearest.unique hcovers hapart (mem_of_nearest? hfound) hitem
    (nearest_of_nearest? hcovers hapart hfound) hnearest
  rw [hfound, hsame]

end Apart

end Holder

section Map

variable {α β : Type} (f : α → β) (spanOf : β → Span)

theorem later_map (offset : Nat) (best : Option α) (item : α) :
    later spanOf offset (best.map f) (f item) =
      (later (fun item => spanOf (f item)) offset best item).map f := by
  unfold later
  rw [apply_ite (Option.map f)]
  cases best <;> simp

theorem earlier_map (best : Option α) (item : α) :
    earlier spanOf (best.map f) (f item) =
      (earlier (fun item => spanOf (f item)) best item).map f := by
  unfold earlier
  rw [apply_ite (Option.map f)]
  cases best <;> simp

theorem lastFrom_map (offset : Nat) (items : List α) :
    lastFrom spanOf offset (items.map f) =
      (lastFrom (fun item => spanOf (f item)) offset items).map f := by
  rw [lastFrom, lastFrom, List.foldl_map]
  change List.foldl _ (Option.map f none) items = _
  exact List.foldl_hom (Option.map f) fun best item => later_map f spanOf offset best item

theorem earliest_map (items : List α) :
    earliest spanOf (items.map f) = (earliest (fun item => spanOf (f item)) items).map f := by
  rw [earliest, earliest, List.foldl_map]
  change List.foldl _ (Option.map f none) items = _
  exact List.foldl_hom (Option.map f) fun best item => earlier_map f spanOf best item

theorem holder?_map (offset : Nat) (items : List α) :
    holder? spanOf offset (items.map f) =
      (holder? (fun item => spanOf (f item)) offset items).map f := by
  rw [holder?, holder?, lastFrom_map, Option.filter_map]
  rfl

theorem nearest?_map (offset : Nat) (items : List α) :
    nearest? spanOf offset (items.map f) =
      (nearest? (fun item => spanOf (f item)) offset items).map f := by
  rw [nearest?, nearest?, lastFrom_map, earliest_map, Option.map_or]

end Map

end Span

end SqlAtlas
