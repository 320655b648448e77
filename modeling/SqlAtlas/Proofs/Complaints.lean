import SqlAtlas.Proofs.Coupling
import SqlAtlas.Source

namespace SqlAtlas

theorem Cause.eq_tooDeep_of_message {cause : Cause} {found : String}
    (h : cause.message found = "maximum nesting depth exceeded") : cause = .tooDeep := by
  have htext := congrArg String.toList h
  have hbegins {front : String} {back : List Char}
      (happend : front.toList ++ back = "maximum nesting depth exceeded".toList) :
      front.toList <+: "maximum nesting depth exceeded".toList := ⟨back, happend⟩
  cases cause with
  | tooDeep => rfl
  | missing kind | extraneous kind | noAlternative | stray =>
      unfold Cause.message at htext
      simp only [String.toList_append, List.append_assoc] at htext
      exact absurd (hbegins htext) (by decide +kernel)

namespace Reading

variable {input : Input} {r r' : Reading}

theorem accept_complaints (guard : Guard) (r : Reading) :
    (r.accept input guard).2.complaints = r.complaints := by
  unfold accept
  repeat' split
  · rfl
  · exact (offer_frame input _ r).2.2
  · exact bumps_complaints _ r
  · rfl

theorem mark_complaints (note : Note) (r : Reading) : (r.mark note).complaints = r.complaints := by
  unfold mark
  repeat' split
  all_goals rfl

structure Ordered (r : Reading) : Prop where
  sorted : r.complaints.Pairwise (·.index ≤ ·.index)
  reached : ∀ complaint ∈ r.complaints, complaint.index ≤ r.pos

theorem Ordered.of_same (h : r.Ordered) (hcomplaints : r'.complaints = r.complaints)
    (hpos : r.pos ≤ r'.pos) : r'.Ordered := by
  constructor
  · rw [hcomplaints]
    exact h.sorted
  · rw [hcomplaints]
    exact fun complaint hmem => Nat.le_trans (h.reached complaint hmem) hpos

theorem steps_ordered (input : Input) : Steps input fun r r' => r.Ordered → r'.Ordered where
  refl _ := id
  trans h₁ h₂ := h₂ ∘ h₁
  bump r h := h.of_same (bumps_complaints 1 r) ((moves_same input).bump r).pos
  offer offer? r h := by
    obtain ⟨hpos, -, hcomplaints⟩ := offer_frame input offer? r
    exact h.of_same hcomplaints (Nat.le_of_eq hpos.symm)
  complain cause r h := by
    refine ⟨List.pairwise_append.2 ⟨h.sorted, List.pairwise_singleton _ _, ?_⟩, ?_⟩
    · exact fun complaint hmem => List.forall_mem_singleton.2 (h.reached complaint hmem)
    · exact List.forall_mem_append.2 ⟨h.reached, List.forall_mem_singleton.2 (Nat.le_refl _)⟩
  halt _ h := h.of_same rfl (Nat.le_refl _)
  mark note r h := h.of_same (mark_complaints note r) (Nat.le_of_eq (mark_frame note r).1.symm)
  rule h hr := (h (hr.of_same rfl (Nat.le_refl _))).of_same rfl (Nat.le_refl _)
  node {shape _ r'} h hr :=
    (h (hr.of_same rfl (Nat.le_refl _))).of_same (closeFrame_complaints shape r')
      (Nat.le_of_eq (closeFrame_frame shape r').1.symm)
  nest h hr := (h (hr.of_same rfl (Nat.le_refl _))).of_same rfl (Nat.le_refl _)

structure Clear (r : Reading) : Prop where
  running : r.halted = false
  plain : ∀ complaint ∈ r.complaints, complaint.cause ≠ .tooDeep

structure Sunk (r : Reading) : Prop where
  halted : r.halted = true
  report : ∃ before, r.complaints = before ++ [⟨.tooDeep, r.pos⟩] ∧
    ∀ complaint ∈ before, complaint.cause ≠ .tooDeep

namespace Clear

theorem of_same (h : r.Clear) (hhalted : r'.halted = r.halted)
    (hcomplaints : r'.complaints = r.complaints) :
    r'.Clear :=
  ⟨hhalted.trans h.running, hcomplaints ▸ h.plain⟩

theorem complain (h : r.Clear) {cause : Cause} (hcause : cause ≠ .tooDeep) :
    (r.complain cause).Clear :=
  ⟨h.running, List.forall_mem_append.2 ⟨h.plain, List.forall_mem_singleton.2 hcause⟩⟩

theorem bumps (h : r.Clear) (count : Nat) : (r.bumps input count).Clear :=
  h.of_same (bumps_halted count r) (bumps_complaints count r)

theorem accept (h : r.Clear) (guard : Guard) : (r.accept input guard).2.Clear :=
  h.of_same (accept_halted guard r) (accept_complaints guard r)

theorem skipToBoundary (h : r.Clear) (rounds : Nat) : (r.skipToBoundary input rounds).Clear := by
  induction rounds generalizing r with
  | zero => exact h
  | succ rounds ih =>
      unfold Reading.skipToBoundary
      split
      · exact h
      · exact ih (h.bumps 1)

theorem stray (h : r.Clear) : (r.stray input).2.Clear := by
  unfold Reading.stray
  split
  · exact h
  · exact ((h.complain (by simp)).bumps 1).skipToBoundary _

section Survey

variable (hsurvey : input.watch? = none)
include hsurvey

theorem stuck (h : r.Clear) {cause : Cause} (hcause : cause ≠ .tooDeep) :
    (r.stuck input cause).Clear := by
  have hcaret : r.atCaret input = false := by simp [atCaret, hsurvey]
  simp only [Reading.stuck, h.running, hcaret, Bool.false_eq_true, if_false]
  exact h.complain hcause

theorem need (h : r.Clear) (kind : Kind) : (r.need input kind).2.Clear := by
  have haccept : (r.accept input (.token kind [])).2.Clear := h.accept _
  unfold Reading.need
  split
  · next r₁ hr₁ =>
      rw [hr₁] at haccept
      exact haccept
  · next r₁ hr₁ =>
      rw [hr₁] at haccept
      split
      · exact (haccept.complain (by simp)).bumps 2
      · exact haccept.stuck hsurvey (by simp)

end Survey

end Clear

def Told (r : Reading) : Prop := r.Clear ∨ r.Sunk

theorem Told.of_same (h : r.Told) (hpos : r'.pos = r.pos) (hhalted : r'.halted = r.halted)
    (hcomplaints : r'.complaints = r.complaints) : r'.Told := by
  rcases h with hclear | ⟨hr, hreport⟩
  · exact .inl (hclear.of_same hhalted hcomplaints)
  · exact .inr ⟨hhalted.trans hr, by rwa [hcomplaints, hpos]⟩

theorem Told.not_before_last (h : r.Told) :
    ∀ complaint ∈ r.complaints.dropLast, complaint.cause ≠ .tooDeep := by
  rcases h with hclear | ⟨-, before, hcomplaints, hplain⟩
  · exact fun complaint hmem => hclear.plain complaint (List.dropLast_subset _ hmem)
  · rwa [hcomplaints, List.dropLast_concat]

theorem Told.index_eq_pos (h : r.Told) :
    ∀ complaint ∈ r.complaints, complaint.cause = .tooDeep → complaint.index = r.pos := by
  rcases h with hclear | ⟨-, before, hcomplaints, hplain⟩
  · exact fun complaint hmem hcause => absurd hcause (hclear.plain complaint hmem)
  · rw [hcomplaints]
    refine List.forall_mem_append.2
      ⟨fun complaint hmem hcause => ?_, List.forall_mem_singleton.2 fun _ => rfl⟩
    exact absurd hcause (hplain complaint hmem)

theorem Told.tooDeep (h : r.Told) : r.tooDeep.Told := by
  unfold Reading.tooDeep
  split
  · exact h
  · next hr =>
      rcases h with hclear | hsunk
      · exact .inr ⟨rfl, r.complaints, rfl, hclear.plain⟩
      · exact absurd hsunk.halted hr

section Survey

variable (hsurvey : input.watch? = none)
include hsurvey

theorem read_told {deeper : Nest → Reading → Reading}
    (hdeeper : ∀ again r, r.Told → (deeper again r).Told) (phrase : Phrase) (hr : r.Told) :
    (phrase.read input deeper r).2.Told := by
  induction phrase generalizing r with
  | nothing => exact hr
  | accept guard =>
      rcases hr with hclear | hsunk
      · exact .inl (hclear.accept guard)
      · exact .inr (by simpa only [Phrase.read, accept_of_halted hsunk.halted] using hsunk)
  | need kind =>
      rcases hr with hclear | hsunk
      · exact .inl (hclear.need hsurvey kind)
      · exact .inr (by simpa only [Phrase.read, need_of_halted hsunk.halted] using hsunk)
  | fail =>
      rcases hr with hclear | hsunk
      · exact .inl (hclear.stuck hsurvey (by simp))
      · exact .inr (by simpa only [Phrase.read, stuck_of_halted hsunk.halted] using hsunk)
  | stray =>
      rcases hr with hclear | hsunk
      · exact .inl hclear.stray
      · exact .inr (by simpa only [Phrase.read, stray_of_halted hsunk.halted] using hsunk)
  | note role =>
      exact hr.of_same (mark_frame role r).1 (mark_frame role r).2 (mark_complaints role r)
  | seq first second ih₁ ih₂ => exact ih₂ (ih₁ hr)
  | ifElse test yes no iht ihy ihn =>
      have htest := iht hr
      simp only [Phrase.read]
      split
      · next r₁ hr₁ =>
          rw [hr₁] at htest
          exact ihy htest
      · next r₁ hr₁ =>
          rw [hr₁] at htest
          exact ihn htest
  | many body ih => exact turns_keeps Told (fun r hr => ih hr) _ hr
  | rule name body ih =>
      have hbody := ih (r := r.enter name) (hr.of_same rfl rfl rfl)
      exact hbody.of_same rfl rfl rfl
  | node shape body ih =>
      have hbody := ih (r := r.openFrame) (hr.of_same rfl rfl rfl)
      obtain ⟨hpos, hhalted⟩ := closeFrame_frame shape (body.read input deeper r.openFrame).2
      exact hbody.of_same hpos hhalted (closeFrame_complaints shape _)
  | nest again => exact hdeeper again r hr

theorem nestRead_told (levels : Nat) (again : Nest) (hr : r.Told) :
    (Nest.read input levels again r).Told := by
  induction levels generalizing again r with
  | zero => exact hr.tooDeep.of_same rfl rfl rfl
  | succ levels ih =>
      have hbody := read_told hsurvey (fun again r hr => ih again hr) (Grammar.body again)
        (r := r.descend again) (hr.of_same rfl rfl rfl)
      exact hbody.of_same rfl rfl rfl

theorem inputRead_told : input.read.Told := by
  have hbegin : begin.Told := .inl ⟨rfl, by simp [begin]⟩
  unfold Input.read
  split
  · exact hbegin
  · exact read_told hsurvey (fun again r hr => nestRead_told hsurvey nestingLimit again hr)
      Grammar.script hbegin

end Survey

end Reading

end SqlAtlas
