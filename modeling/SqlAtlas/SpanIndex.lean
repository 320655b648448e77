import SqlAtlas.Span

namespace SqlAtlas

def bisect (holds : Nat → Bool) (lo hi : Nat) : Nat :=
  if lo < hi then
    let mid := (lo + hi) / 2
    if holds mid then bisect holds (mid + 1) hi else bisect holds lo mid
  else lo
termination_by hi - lo

theorem bisect_eq {holds : Nat → Bool} {lo hi place : Nat} (hlo : lo ≤ place) (hhi : place ≤ hi)
    (h : ∀ i, lo ≤ i → i < hi → (holds i = true ↔ i < place)) : bisect holds lo hi = place := by
  induction lo, hi using bisect.induct holds with
  | case1 lo hi hlt mid hmid ih =>
      have hplace := (h mid (by omega) (by omega)).1 hmid
      rw [bisect, if_pos hlt, if_pos hmid]
      exact ih hplace hhi fun i hi => h i (by omega)
  | case2 lo hi hlt mid hmid ih =>
      have hplace : place ≤ mid := Nat.le_of_not_lt fun hmore =>
        hmid ((h mid (by omega) (by omega)).2 hmore)
      rw [bisect, if_pos hlt, if_neg hmid]
      exact ih hlo hplace fun i hi hmore => h i hi (by omega)
  | case3 lo hi hge =>
      rw [bisect, if_neg hge]
      omega

theorem filter_append_filter_not {α : Type} {p : α → Bool} {items : List α}
    (h : items.Pairwise fun item next => p next = true → p item = true) :
    items.filter p ++ items.filter (fun item => !p item) = items := by
  induction items with
  | nil => rfl
  | cons item items ih =>
      obtain ⟨hfirst, hrest⟩ := List.pairwise_cons.1 h
      cases hp : p item with
      | true => rw [List.filter_cons_of_pos hp, List.filter_cons_of_neg (by simp [hp]),
          List.cons_append, ih hrest]
      | false =>
          have hall : ∀ next ∈ item :: items, p next = false := by
            refine List.forall_mem_cons.2 ⟨hp, fun next hnext => ?_⟩
            exact Bool.eq_false_iff.2 fun hnext' => by simp [hfirst next hnext hnext'] at hp
          rw [List.filter_eq_nil_iff.2 fun next hnext => by simp [hall next hnext],
            List.filter_eq_self.2 fun next hnext => by simp [hall next hnext], List.nil_append]

structure SpanIndex where
  entries : List (Span × Nat)
  sorted : entries.Pairwise fun entry next => entry.1.start ≤ next.1.start
  deriving Repr

namespace SpanIndex

def empty : SpanIndex := ⟨[], .nil⟩

def countFrom (offset : Nat) (index : SpanIndex) : Nat :=
  bisect (fun i => (index.entries[i]?).any fun entry => entry.1.start ≤ offset) 0
    index.entries.length

section Sides

def upTo (offset : Nat) (index : SpanIndex) : List (Span × Nat) :=
  index.entries.filter (·.1.start ≤ offset)

def beyond (offset : Nat) (index : SpanIndex) : List (Span × Nat) :=
  index.entries.filter (offset < ·.1.start)

variable {offset : Nat} {index : SpanIndex} {entry : Span × Nat}

theorem start_le_of_mem_upTo (h : entry ∈ index.upTo offset) : entry.1.start ≤ offset :=
  of_decide_eq_true (List.mem_filter.1 h).2

theorem lt_start_of_mem_beyond (h : entry ∈ index.beyond offset) : offset < entry.1.start :=
  of_decide_eq_true (List.mem_filter.1 h).2

theorem upTo_append_beyond (offset : Nat) (index : SpanIndex) :
    index.upTo offset ++ index.beyond offset = index.entries := by
  have hbeyond : index.beyond offset = index.entries.filter fun entry =>
      !decide (entry.1.start ≤ offset) := by
    refine List.filter_congr fun entry _ => ?_
    rw [← decide_not]
    exact decide_eq_decide.2 Nat.not_le.symm
  rw [upTo, hbeyond]
  refine filter_append_filter_not (index.sorted.imp fun hle hnext => ?_)
  exact decide_eq_true (Nat.le_trans hle (of_decide_eq_true hnext))

theorem countFrom_eq (offset : Nat) (index : SpanIndex) :
    index.countFrom offset = (index.upTo offset).length := by
  refine bisect_eq (Nat.zero_le _) (List.length_filter_le _ _) fun i _ hi => ?_
  rw [← upTo_append_beyond offset index] at hi ⊢
  rw [List.getElem?_append]
  split
  · next hlt =>
      rw [List.getElem?_eq_getElem hlt, Option.any_some, decide_eq_true_iff]
      exact iff_of_true (start_le_of_mem_upTo (List.getElem_mem hlt)) hlt
  · next hge =>
      rw [List.length_append] at hi
      have hlt : i - (index.upTo offset).length < (index.beyond offset).length := by omega
      rw [List.getElem?_eq_getElem hlt, Option.any_some, decide_eq_true_iff]
      exact iff_of_false (Nat.not_le.2 (lt_start_of_mem_beyond (List.getElem_mem hlt))) hge

theorem take_countFrom (offset : Nat) (index : SpanIndex) :
    index.entries.take (index.countFrom offset) = index.upTo offset := by
  calc index.entries.take (index.countFrom offset)
    _ = (index.upTo offset ++ index.beyond offset).take (index.upTo offset).length := by
        rw [upTo_append_beyond, countFrom_eq]
    _ = index.upTo offset := List.take_left

theorem drop_countFrom (offset : Nat) (index : SpanIndex) :
    index.entries.drop (index.countFrom offset) = index.beyond offset := by
  calc index.entries.drop (index.countFrom offset)
    _ = (index.upTo offset ++ index.beyond offset).drop (index.upTo offset).length := by
        rw [upTo_append_beyond, countFrom_eq]
    _ = index.beyond offset := List.drop_left

theorem sorted_insert (entry : Span × Nat) (index : SpanIndex) :
    (index.upTo entry.1.start ++ entry :: index.beyond entry.1.start).Pairwise
      fun entry next => entry.1.start ≤ next.1.start := by
  refine List.pairwise_append.2
    ⟨index.sorted.filter _, List.pairwise_cons.2 ⟨?_, index.sorted.filter _⟩, ?_⟩
  · exact fun next hnext => Nat.le_of_lt (lt_start_of_mem_beyond hnext)
  · intro first hfirst next hnext
    have hle := start_le_of_mem_upTo hfirst
    rcases List.mem_cons.1 hnext with rfl | hnext
    · exact hle
    · exact Nat.le_trans hle (Nat.le_of_lt (lt_start_of_mem_beyond hnext))

end Sides

def insert (entry : Span × Nat) (index : SpanIndex) : SpanIndex where
  entries := index.entries.take (index.countFrom entry.1.start) ++
    entry :: index.entries.drop (index.countFrom entry.1.start)
  sorted := by
    rw [take_countFrom, drop_countFrom]
    exact sorted_insert entry index

def lastFrom? (offset : Nat) (index : SpanIndex) : Option (Span × Nat) :=
  match index.countFrom offset with
  | 0 => none
  | count + 1 => index.entries[count]?

def holder? (offset : Nat) (index : SpanIndex) : Option (Span × Nat) :=
  (index.lastFrom? offset).filter (·.1.contains offset)

def nearest? (offset : Nat) (index : SpanIndex) : Option (Span × Nat) :=
  match index.countFrom offset with
  | 0 => index.entries.head?
  | count + 1 => index.entries[count]?

end SpanIndex

end SqlAtlas
