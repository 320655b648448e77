import Mathlib.Data.List.Induction
import Mathlib.Data.List.Lattice
import Mathlib.Data.List.Nodup
import Mathlib.Data.List.Pairwise

namespace SqlAtlas.Keyed

variable {α κ : Type} [DecidableEq κ] (key : α → κ) (join : α → α → α)

def put (item : α) : List α → List α
  | [] => [item]
  | first :: rest => if key first = key item then join first item :: rest
      else first :: put item rest

def joined? : List α → Option α
  | [] => none
  | first :: rest => some (rest.foldl join first)

def gathered? (items : List α) (k : κ) : Option α := joined? join (items.filter (key · = k))

def merged (items : List α) : List α :=
  ((items.map key).eraseDups).filterMap (gathered? key join items)

variable {key join} {items : List α} {item : α} {keys : List κ} {k : κ}

theorem eraseDups_concat (keys : List κ) (k : κ) :
    (keys ++ [k]).eraseDups = keys.eraseDups ++ if k ∈ keys then [] else [k] := by
  rw [List.eraseDups_append]
  by_cases h : k ∈ keys <;> simp [List.removeAll, List.eraseDups_cons, h]

theorem nodup_eraseDups (keys : List κ) : keys.eraseDups.Nodup := by
  induction keys using List.reverseRecOn with
  | nil => simp
  | append_singleton keys k ih =>
      rw [eraseDups_concat]
      split
      · rwa [List.append_nil]
      · next hk => exact ih.append (by simp) (by simpa using hk)

omit [DecidableEq κ] in
theorem eq_of_mem_flatMap {β : Type} {keysOf : β → List κ} {owners : List β} {owner other : β}
    (h : (owners.flatMap keysOf).Nodup) (howner : owner ∈ owners) (hother : other ∈ owners)
    (hk : k ∈ keysOf owner) (hk' : k ∈ keysOf other) : owner = other := by
  by_contra hne
  have : Std.Symm fun owner other : β => List.Disjoint (keysOf owner) (keysOf other) :=
    ⟨fun _ _ => List.Disjoint.symm⟩
  exact (List.nodup_flatMap.1 h).2.forall howner hother hne hk hk'

omit [DecidableEq κ] in
theorem nodup_map_of_flatMap {β : Type} {keysOf : β → List κ} {keyOf : β → κ} {owners : List β}
    (hown : ∀ owner, keyOf owner ∈ keysOf owner) (h : (owners.flatMap keysOf).Nodup) :
    (owners.map keyOf).Nodup := by
  refine List.pairwise_map.2 ((List.nodup_flatMap.1 h).2.imp fun {owner other} hdisjoint heq => ?_)
  exact hdisjoint (hown owner) (heq ▸ hown other)

theorem eraseDups_map {β : Type} [DecidableEq β] {f : κ → β}
    (h : ∀ left ∈ keys, ∀ right ∈ keys, f left = f right → left = right) :
    (keys.map f).eraseDups = keys.eraseDups.map f := by
  induction keys using List.reverseRecOn with
  | nil => simp
  | append_singleton keys k ih =>
      have hrest := ih fun left hleft right hright =>
        h left (List.mem_append_left _ hleft) right (List.mem_append_left _ hright)
      have hmem : f k ∈ keys.map f ↔ k ∈ keys := by
        refine ⟨fun hk => ?_, List.mem_map_of_mem⟩
        obtain ⟨other, hother, heq⟩ := List.mem_map.1 hk
        exact h other (List.mem_append_left _ hother) k
          (List.mem_append_right _ List.mem_cons_self) heq ▸ hother
      rw [List.map_append, List.map_singleton, eraseDups_concat, eraseDups_concat, hrest,
        List.map_append]
      by_cases hk : k ∈ keys
      · rw [if_pos hk, if_pos (hmem.2 hk), List.map_nil]
      · rw [if_neg hk, if_neg (hk ∘ hmem.1), List.map_singleton]

theorem joined?_concat (items : List α) (item : α) :
    joined? join (items ++ [item]) = some ((joined? join items).elim item (join · item)) := by
  cases items with
  | nil => rfl
  | cons first rest => simp [joined?]

theorem joined?_later (items : List α) : joined? (fun _ later => later) items = items.getLast? := by
  induction items using List.reverseRecOn with
  | nil => rfl
  | append_singleton items item _ =>
      rw [joined?_concat, List.getLast?_concat]
      cases joined? (fun _ later => later) items <;> rfl

theorem gathered?_concat (items : List α) (item : α) (k : κ) :
    gathered? key join (items ++ [item]) k =
      if key item = k then some ((gathered? key join items k).elim item (join · item))
      else gathered? key join items k := by
  unfold gathered?
  by_cases h : key item = k
  · rw [if_pos h, List.filter_append, List.filter_cons_of_pos (by simp [h]), List.filter_nil,
      joined?_concat]
  · rw [if_neg h, List.filter_append, List.filter_cons_of_neg (by simp [h]), List.filter_nil,
      List.append_nil]

theorem put_of_notMem (h : ∀ other ∈ items, key other ≠ key item) :
    put key join item items = items ++ [item] := by
  induction items with
  | nil => rfl
  | cons first rest ih =>
      rw [put, if_neg (h first List.mem_cons_self),
        ih fun other hother => h other (List.mem_cons_of_mem _ hother), List.cons_append]

theorem foldl_put_of_nodup (h : (items.map key).Nodup) :
    items.foldl (fun kept item => put key join item kept) [] = items := by
  induction items using List.reverseRecOn with
  | nil => rfl
  | append_singleton items item ih =>
      rw [List.map_append, List.map_singleton] at h
      rw [List.foldl_append, ih h.of_append_left]
      refine put_of_notMem fun other hother heq => ?_
      exact (List.nodup_append.1 h).2.2 _ (List.mem_map_of_mem hother) _ List.mem_cons_self heq

theorem put_of_mem {front back : List α} {first : α} (hfirst : key first = key item)
    (hfront : ∀ other ∈ front, key other ≠ key item) :
    put key join item (front ++ first :: back) = front ++ join first item :: back := by
  induction front with
  | nil => rw [List.nil_append, put, if_pos hfirst, List.nil_append]
  | cons other front ih =>
      rw [List.cons_append, put, if_neg (hfront other List.mem_cons_self),
        ih fun other hother => hfront other (List.mem_cons_of_mem _ hother), List.cons_append]

theorem exists_gathered? (h : k ∈ items.map key) :
    ∃ all, gathered? key join items k = some all := by
  obtain ⟨other, hother, hkey⟩ := List.mem_map.1 h
  have hmem : other ∈ items.filter (key · = k) := List.mem_filter.2 ⟨hother, by simp [hkey]⟩
  obtain ⟨first, rest, hall⟩ := List.exists_cons_of_ne_nil (List.ne_nil_of_mem hmem)
  exact ⟨_, congrArg (joined? join) hall⟩

theorem gathered?_eq_none (h : k ∉ items.map key) : gathered? key join items k = none := by
  have hnil : items.filter (key · = k) = [] := by
    refine List.filter_eq_nil_iff.2 fun other hother => ?_
    simpa using fun heq : key other = k => h (heq ▸ List.mem_map_of_mem hother)
  exact congrArg (joined? join) hnil

theorem filterMap_gathered?_concat (h : key item ∉ keys) :
    keys.filterMap (gathered? key join (items ++ [item])) =
      keys.filterMap (gathered? key join items) := by
  refine List.filterMap_congr fun k hk => ?_
  rw [gathered?_concat, if_neg fun heq : key item = k => h (heq ▸ hk)]

section Join

variable (hjoin : ∀ first item, key first = key item → key (join first item) = key item)
include hjoin

theorem key_of_gathered? {all : α} (h : gathered? key join items k = some all) : key all = k := by
  induction items using List.reverseRecOn generalizing all with
  | nil => cases h
  | append_singleton items item ih =>
      rw [gathered?_concat] at h
      split at h
      · next hitem =>
          obtain rfl := Option.some.inj h
          cases hall : gathered? key join items k with
          | none => exact hitem
          | some first => exact (hjoin first item ((ih hall).trans hitem.symm)).trans hitem
      · exact ih h

theorem key_ne_of_mem_filterMap {other : α} (h : other ∈ keys.filterMap (gathered? key join items))
    (hk : k ∉ keys) : key other ≠ k := by
  obtain ⟨k', hk', hgathered⟩ := List.mem_filterMap.1 h
  rintro rfl
  exact hk (key_of_gathered? hjoin hgathered ▸ hk')

theorem put_merged (items : List α) (item : α) :
    put key join item (merged key join items) = merged key join (items ++ [item]) := by
  rw [merged, merged, List.map_append, List.map_singleton, eraseDups_concat, List.filterMap_append]
  by_cases hmem : key item ∈ items.map key
  · obtain ⟨front, back, hkeys, hfront⟩ := List.eq_append_cons_of_mem (List.mem_eraseDups.2 hmem)
    have hback : key item ∉ back := by
      have hnodup := nodup_eraseDups (items.map key)
      rw [hkeys] at hnodup
      exact (List.nodup_cons.1 hnodup.of_append_right).1
    obtain ⟨first, hfirst⟩ : ∃ first, gathered? key join items (key item) = some first :=
      exists_gathered? hmem
    have hjoined : gathered? key join (items ++ [item]) (key item) = some (join first item) := by
      rw [gathered?_concat, if_pos rfl, hfirst, Option.elim_some]
    rw [if_pos hmem, hkeys, List.filterMap_append, List.filterMap_append,
      List.filterMap_cons_some hfirst, List.filterMap_cons_some hjoined,
      filterMap_gathered?_concat hfront, filterMap_gathered?_concat hback,
      List.filterMap_nil, List.append_nil]
    exact put_of_mem (key_of_gathered? hjoin hfirst) fun other hother =>
      key_ne_of_mem_filterMap hjoin hother hfront
  · have hnew : gathered? key join (items ++ [item]) (key item) = some item := by
      rw [gathered?_concat, if_pos rfl, gathered?_eq_none hmem, Option.elim_none]
    have hkeys : key item ∉ (items.map key).eraseDups := fun h => hmem (List.mem_eraseDups.1 h)
    rw [if_neg hmem, filterMap_gathered?_concat hkeys, List.filterMap_cons_some hnew,
      List.filterMap_nil]
    exact put_of_notMem fun other hother => key_ne_of_mem_filterMap hjoin hother hkeys

theorem foldl_put (items : List α) :
    items.foldl (fun kept item => put key join item kept) [] = merged key join items := by
  induction items using List.reverseRecOn with
  | nil => simp [merged]
  | append_singleton items item ih =>
      rw [List.foldl_append, ih]
      exact put_merged hjoin items item

end Join

end SqlAtlas.Keyed
