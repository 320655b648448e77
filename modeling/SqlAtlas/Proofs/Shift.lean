import SqlAtlas.Proofs.Coupling

namespace SqlAtlas

def Extent.shift (d : Nat) (extent : Extent) : Extent := ⟨extent.first + d, extent.last + d⟩

def Outline.shift (d : Nat) : Outline → Outline := Node.map (· + d) (Extent.shift d)

def Complaint.shift (d : Nat) (complaint : Complaint) : Complaint :=
  ⟨complaint.cause, complaint.index + d⟩

def Frame.shift (d : Nat) (frame : Frame) : Frame :=
  ⟨frame.start + d, frame.children.map (Outline.shift d), frame.parts.map (· + d),
    frame.alias?.map (· + d)⟩

theorem Frame.construct_shift (d : Nat) (frame : Frame) (shape : Shape) :
    (frame.shift d).construct shape = (frame.construct shape).map (· + d) := by
  cases shape <;> rfl

theorem Outline.shift_node (d : Nat) (construct : Construct Nat) (extent : Extent)
    (children : List Outline) :
    Outline.shift d (.node construct extent children) =
      .node (construct.map (· + d)) (extent.shift d) (children.map (Outline.shift d)) := by
  rw [Outline.shift, Node.map, Node.mapAll_eq_map]

structure Input.Delayed (input other : Input) (d : Nat) : Prop where
  unwatched : input.watch? = none
  unwatched' : other.watch? = none
  kinds : ∀ i, other.kinds[i + d]? = input.kinds[i]?
  size : other.kinds.size = input.kinds.size + d

namespace Reading

structure Shifted (d : Nat) (base : List Outline) (r s : Reading) : Prop where
  pos : s.pos = r.pos + d
  halted : s.halted = r.halted
  frames : s.frames = r.frames.map (Frame.shift d)
  roots : s.roots = base ++ r.roots.map (Outline.shift d)
  complaints : s.complaints = r.complaints.map (Complaint.shift d)
  paced : r.Paced
  paced' : s.Paced

namespace Shifted

variable {input other : Input} {d : Nat} {base : List Outline} {r s : Reading}

theorem complain (h : Shifted d base r s) (cause : Cause) :
    Shifted d base (r.complain cause) (s.complain cause) where
  pos := h.pos
  halted := h.halted
  frames := h.frames
  roots := h.roots
  complaints := by simp [Reading.complain, h.complaints, h.pos, Complaint.shift]
  paced := h.paced
  paced' := h.paced'

theorem halt (h : Shifted d base r s) : Shifted d base r.halt s.halt :=
  ⟨h.pos, rfl, h.frames, h.roots, h.complaints, h.paced, h.paced'⟩

theorem tooDeep (h : Shifted d base r s) : Shifted d base r.tooDeep s.tooDeep := by
  unfold Reading.tooDeep
  rw [h.halted]
  split
  · exact h
  · exact (h.complain .tooDeep).halt

theorem openFrame (h : Shifted d base r s) : Shifted d base r.openFrame s.openFrame where
  pos := h.pos
  halted := h.halted
  frames := by simp [Reading.openFrame, h.frames, h.pos, Frame.shift]
  roots := h.roots
  complaints := h.complaints
  paced := h.paced
  paced' := h.paced'

theorem attach (h : Shifted d base r s) (nodes : List Outline) :
    Shifted d base (r.attach nodes) (s.attach (nodes.map (Outline.shift d))) := by
  have hframes := h.frames
  unfold Reading.attach
  cases hr : r.frames with
  | nil =>
      rw [hr, List.map_nil] at hframes
      simp only [hframes]
      refine ⟨h.pos, h.halted, rfl, ?_, h.complaints, h.paced, h.paced'⟩
      simp [h.roots]
  | cons frame frames =>
      rw [hr, List.map_cons] at hframes
      simp only [hframes]
      refine ⟨h.pos, h.halted, ?_, h.roots, h.complaints, h.paced, h.paced'⟩
      simp [Frame.shift]

theorem finished (h : Shifted d base r s) (shape : Shape) (frame : Frame) :
    Reading.finished shape (frame.shift d) s.last? =
      (Reading.finished shape frame r.last?).map (Outline.shift d) := by
  have hstart : (frame.shift d).start = frame.start + d := rfl
  rw [Reading.finished, Reading.finished, last_of_paced h.paced, last_of_paced h.paced',
    h.pos, hstart]
  by_cases hlt : frame.start < r.pos
  · have hlast : r.pos + d - 1 = r.pos - 1 + d := by omega
    rw [if_pos hlt, if_pos (Nat.add_lt_add_right hlt d), hlast]
    simp only [List.map_cons, List.map_nil, Outline.shift_node, Frame.construct_shift]
    rfl
  · rw [if_neg hlt, if_neg (by omega)]
    rfl

theorem closeFrame (h : Shifted d base r s) (shape : Shape) :
    Shifted d base (r.closeFrame shape) (s.closeFrame shape) := by
  have hframes := h.frames
  unfold Reading.closeFrame
  cases hr : r.frames with
  | nil =>
      rw [hr, List.map_nil] at hframes
      simp only [hframes]
      exact h
  | cons frame frames =>
      rw [hr, List.map_cons] at hframes
      simp only [hframes]
      have hrest : Shifted d base { r with frames := frames }
          { s with frames := frames.map (Frame.shift d) } :=
        ⟨h.pos, h.halted, rfl, h.roots, h.complaints, h.paced, h.paced'⟩
      rw [h.finished]
      exact hrest.attach _

theorem mark (h : Shifted d base r s) (hpos : 0 < r.pos) (role : Note) :
    Shifted d base (r.mark role) (s.mark role) := by
  have hlast : r.last? = some (r.pos - 1) := by
    rw [h.paced, if_neg (Nat.ne_of_gt hpos)]
  have hlast' : s.last? = some (r.pos - 1 + d) := by
    rw [h.paced', if_neg (by rw [h.pos]; omega), h.pos]
    congr 1
    omega
  have hframes := h.frames
  unfold Reading.mark
  cases hr : r.frames with
  | nil =>
      rw [hr, List.map_nil] at hframes
      simp only [hframes]
      exact h
  | cons frame frames =>
      rw [hr, List.map_cons] at hframes
      simp only [hframes, hlast, hlast']
      cases role
      all_goals
        refine ⟨h.pos, h.halted, ?_, h.roots, h.complaints, ?_, ?_⟩
        · simp [Frame.shift]
        · exact hlast ▸ h.paced
        · exact hlast' ▸ h.paced'

section Tokens

variable (hin : input.Delayed other d)
include hin

theorem peek (h : Shifted d base r s) (i : Nat) : s.peek other i = r.peek input i := by
  have hindex : s.pos + i = r.pos + i + d := by
    rw [h.pos]
    omega
  simp [Reading.peek, hin.unwatched, hin.unwatched', h.halted, hindex, hin.kinds]

theorem sees (h : Shifted d base r s) (i : Nat) (kinds : List Kind) :
    s.sees other i kinds = r.sees input i kinds := by
  induction kinds generalizing i with
  | nil => rfl
  | cons kind kinds ih => rw [Reading.sees, Reading.sees, h.peek hin, ih]

theorem bump (h : Shifted d base r s) : Shifted d base (r.bump input) (s.bump other) := by
  have hpaced := (steps_paced input).bump r h.paced
  have hpaced' := (steps_paced other).bump s h.paced'
  unfold Reading.bump at hpaced hpaced' ⊢
  have hsize := hin.size
  have hpos := h.pos
  by_cases hlt : r.pos + 1 < input.kinds.size
  · have hlt' : s.pos + 1 < other.kinds.size := by omega
    rw [if_pos hlt] at hpaced ⊢
    rw [if_pos hlt'] at hpaced' ⊢
    exact ⟨by simp only; omega, h.halted, h.frames, h.roots, h.complaints, hpaced, hpaced'⟩
  · have hlt' : ¬s.pos + 1 < other.kinds.size := by omega
    rw [if_neg hlt, if_neg hlt']
    exact h

theorem bumps (h : Shifted d base r s) (count : Nat) :
    Shifted d base (r.bumps input count) (s.bumps other count) := by
  induction count generalizing r s with
  | zero => exact h
  | succ count ih => exact ih (h.bump hin)

theorem stuck (h : Shifted d base r s) (cause : Cause) :
    Shifted d base (r.stuck input cause) (s.stuck other cause) := by
  simp only [Reading.stuck, Reading.atCaret, hin.unwatched, hin.unwatched', h.halted,
    Option.any_none, Bool.false_eq_true, if_false]
  split
  · exact h
  · exact h.complain cause

theorem accept (h : Shifted d base r s) (guard : Guard) :
    (r.accept input guard).1 = (s.accept other guard).1 ∧
      Shifted d base (r.accept input guard).2 (s.accept other guard).2 := by
  simp only [Reading.accept, Reading.atCaret, hin.unwatched, hin.unwatched', h.halted, h.sees hin,
    Option.any_none, Bool.false_eq_true, if_false]
  split
  · exact ⟨rfl, h⟩
  · split
    · exact ⟨rfl, h.bumps hin _⟩
    · exact ⟨rfl, h⟩

theorem need (h : Shifted d base r s) (kind : Kind) :
    (r.need input kind).1 = (s.need other kind).1 ∧
      Shifted d base (r.need input kind).2 (s.need other kind).2 := by
  obtain ⟨htaken, haccept⟩ := h.accept hin (.token kind [])
  unfold Reading.need
  cases hr : r.accept input (.token kind []) with
  | mk taken r₁ =>
      cases hs : s.accept other (.token kind []) with
      | mk taken' s₁ =>
          rw [hr, hs] at htaken haccept
          obtain rfl : taken = taken' := htaken
          cases taken with
          | true => exact ⟨rfl, haccept⟩
          | false =>
              simp only [haccept.peek hin]
              split
              · exact ⟨rfl, (haccept.complain _).bumps hin 2⟩
              · exact ⟨rfl, haccept.stuck hin _⟩

theorem skip (h : Shifted d base r s) :
    Tied False (Shifted d base) (r.skip input) (s.skip other) := by
  have hboundary : s.atBoundary other = r.atBoundary input := by
    simp only [Reading.atBoundary, h.peek hin]
  right
  rw [Reading.skip, Reading.skip, hboundary]
  cases r.atBoundary input with
  | true => exact ⟨rfl, h⟩
  | false => exact ⟨rfl, h.bump hin⟩

theorem stray (hends : input.Ends) (hends' : other.Ends) (hsome : 0 < input.kinds.size)
    (h : Shifted d base r s) : (r.stray input).1 = (s.stray other).1 ∧
      Shifted d base (r.stray input).2 (s.stray other).2 := by
  have hsome' : 0 < other.kinds.size := by
    have hsize := hin.size
    omega
  unfold Reading.stray
  rw [h.peek hin]
  split
  · exact ⟨rfl, h⟩
  · have hprog (r : Reading) : Progress r (r.skip input).2 := by
      unfold Reading.skip
      split
      · exact .refl r
      · exact (steps_progress input).bump r
    have hrounds := Couples.rounds hprog (fun r s hrs => hrs.skip hin) (skip_rounds hends hsome _)
      (skip_rounds hends' hsome' _) ((h.complain .stray).bump hin)
    exact ⟨rfl, hrounds.resolve_left fun hlost => hlost.1⟩

end Tokens

end Shifted

theorem accept_token_pos {input : Input} {kind : Kind} {follow : List Kind} {r r₁ : Reading}
    (hends : input.Ends) (hkind : kind ≠ .eof)
    (h : r.accept input (.token kind follow) = (true, r₁)) : 0 < r₁.pos := by
  unfold accept at h
  repeat' split at h
  all_goals try cases h
  next hsees =>
    have hpeek : r.peek input 0 ≠ .eof := by
      rw [(sees_cons hsees).1]
      exact hkind
    exact Nat.lt_of_le_of_lt (Nat.zero_le _) (bumps_pos_lt hends hpeek 0)

theorem couples_shifted {input other : Input} {d : Nat} (hin : input.Delayed other d)
    (hends : input.Ends) (hends' : other.Ends) (hsome : 0 < input.kinds.size)
    (base : List Outline) :
    Couples input other (fun _ => true) False (Shifted d base) where
  ends := hends
  ends' := hends'
  some := hsome
  some' := by
    have hsize := hin.size
    omega
  accept {guard _ _} _ _ hrs := .inr (hrs.accept hin guard)
  need {kind _ _} _ _ hrs := .inr (hrs.need hin kind)
  fail hrs := .inr (hrs.stuck hin _)
  stray _ hrs := .inr (hrs.stray hin hends hends' hsome)
  named {_ role _ _ _ _} hr _ hrs := hrs.mark (accept_token_pos hends (by decide) hr) role
  tooDeep hrs := .inr hrs.tooDeep
  enter _ _ _ hrs := ⟨hrs.pos, hrs.halted, hrs.frames, hrs.roots, hrs.complaints,
    hrs.paced, hrs.paced'⟩
  leave hrs := ⟨hrs.pos, hrs.halted, hrs.frames, hrs.roots, hrs.complaints, hrs.paced, hrs.paced'⟩
  openFrame hrs := hrs.openFrame
  closeFrame {shape _ _} hrs := hrs.closeFrame shape
  descend _ _ _ hrs := ⟨hrs.pos, hrs.halted, hrs.frames, hrs.roots, hrs.complaints,
    hrs.paced, hrs.paced'⟩
  ascend hrs := ⟨hrs.pos, hrs.halted, hrs.frames, hrs.roots, hrs.complaints, hrs.paced, hrs.paced'⟩

end Reading

end SqlAtlas
