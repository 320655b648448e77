import SqlAtlas.Proofs.Composition
import SqlAtlas.Proofs.NestingLimit

namespace SqlAtlas

def Kind.boundaries : List Kind := .eof :: .semicolon :: Kind.statementStarts

def Extent.covers (extent : Extent) (index : Nat) : Bool :=
  extent.first ≤ index && index ≤ extent.last

theorem Extent.covers_iff {extent : Extent} {index : Nat} :
    extent.covers index = true ↔ extent.first ≤ index ∧ index ≤ extent.last := by
  simp [covers]

inductive Segment where
  | statement (root : Outline)
  | separator (index : Nat)
  | stray (extent : Extent)

namespace Segment

def extent : Segment → Extent
  | .statement root => root.extent
  | .separator index => ⟨index, index⟩
  | .stray extent => extent

theorem covers_separator {place index : Nat} :
    (separator place).extent.covers index = true ↔ place = index := by
  rw [extent, Extent.covers_iff]
  exact Nat.le_antisymm_iff.symm

def root? : Segment → Option Outline
  | .statement root => some root
  | .separator _ | .stray _ => none

def complaint? : Segment → Option Complaint
  | .stray extent => some ⟨.stray, extent.first⟩
  | .statement _ | .separator _ => none

def Fits (input : Input) : Segment → Prop
  | .statement root => ∃ type, root.construct = .statement type
  | .separator index => input.shown index = .semicolon
  | .stray extent => (∀ index, extent.first ≤ index → index ≤ extent.last →
      input.shown index ∉ Kind.boundaries) ∧ input.shown (extent.last + 1) ∈ Kind.boundaries

def Tiles (lo hi : Nat) : List Segment → Prop
  | [] => lo = hi
  | segment :: segments => segment.extent.first = lo ∧ lo ≤ segment.extent.last ∧
      Tiles (segment.extent.last + 1) hi segments

namespace Tiles

variable {lo mid hi index : Nat} {segment : Segment} {segments more : List Segment}

theorem le (h : Tiles lo hi segments) : lo ≤ hi := by
  induction segments generalizing lo with
  | nil => exact Nat.le_of_eq h
  | cons segment segments ih =>
      have hrest := ih h.2.2
      have hcovers := h.2.1
      omega

theorem append (h₁ : Tiles lo mid segments) (h₂ : Tiles mid hi more) :
    Tiles lo hi (segments ++ more) := by
  induction segments generalizing lo with
  | nil => exact h₁ ▸ h₂
  | cons segment segments ih => exact ⟨h₁.1, h₁.2.1, ih h₁.2.2⟩

theorem within (h : Tiles lo hi segments) (hmem : segment ∈ segments) :
    lo ≤ segment.extent.first ∧ segment.extent.first ≤ segment.extent.last ∧
      segment.extent.last < hi := by
  induction segments generalizing lo with
  | nil => cases hmem
  | cons first rest ih =>
      rcases List.mem_cons.1 hmem with rfl | hmem
      · exact ⟨Nat.le_of_eq h.1.symm, h.1 ▸ h.2.1, h.2.2.le⟩
      · have hrest := ih h.2.2 hmem
        have hcovers := h.2.1
        exact ⟨by omega, hrest.2⟩

theorem split (h : Tiles lo hi segments) (hlo : lo ≤ index) (hhi : index < hi) :
    ∃ before segment after, segments = before ++ segment :: after ∧
      segment.extent.covers index = true ∧
      ∀ other ∈ before ++ after, other.extent.covers index = false := by
  induction segments generalizing lo with
  | nil => exact absurd (Nat.lt_of_le_of_lt hlo hhi) (h ▸ Nat.lt_irrefl _)
  | cons first rest ih =>
      obtain ⟨hfirst, -, hrest⟩ := h
      rcases Nat.lt_or_ge first.extent.last index with hlt | hle
      · obtain ⟨before, segment, after, rfl, hcovers, hothers⟩ := ih hrest hlt
        refine ⟨first :: before, segment, after, rfl, hcovers, List.forall_mem_cons.2 ⟨?_, hothers⟩⟩
        simp [Extent.covers, Nat.not_le.2 hlt]
      · refine ⟨[], first, rest, rfl, Extent.covers_iff.2 ⟨hfirst ▸ hlo, hle⟩,
          fun other hother => ?_⟩
        have hstart := (hrest.within hother).1
        simp [Extent.covers]
        omega

end Tiles

end Segment

namespace Reading

variable {input : Input} {r r₁ r' : Reading}

def strays (r : Reading) : List Complaint := r.complaints.filter (·.cause = .stray)

theorem strays_of_same (h : r'.complaints = r.complaints) : r'.strays = r.strays := by
  rw [strays, strays, h]

theorem strays_complain {cause : Cause} (hcause : cause ≠ .stray) :
    (r.complain cause).strays = r.strays := by
  simp [strays, complain, hcause]

theorem strays_complain_stray (r : Reading) :
    (r.complain .stray).strays = r.strays ++ [⟨.stray, r.pos⟩] := by
  simp [strays, complain]

theorem strays_stuck {cause : Cause} (hcause : cause ≠ .stray) :
    (r.stuck input cause).strays = r.strays := by
  unfold stuck
  split
  · rfl
  · split
    · rfl
    · exact strays_complain hcause

theorem strays_need (kind : Kind) : (r.need input kind).2.strays = r.strays := by
  have haccept : (r.accept input (.token kind [])).2.strays = r.strays :=
    strays_of_same (accept_complaints _ r)
  unfold need
  split
  · next r₁ hr₁ =>
      rw [hr₁] at haccept
      exact haccept
  · next r₁ hr₁ =>
      rw [hr₁] at haccept
      split
      · rw [strays_of_same (bumps_complaints 2 _), strays_complain (by simp), haccept]
      · rw [strays_stuck (by simp), haccept]

theorem strays_tooDeep (r : Reading) : r.tooDeep.strays = r.strays := by
  unfold tooDeep
  split
  · rfl
  · exact strays_complain (r := r) (by simp)

-- The one phrase that complains of a stray token is left out, so that a reading keeps step with
-- itself.
theorem couples_strays (hends : input.Ends) (hsome : 0 < input.kinds.size) (kept : List Complaint) :
    Couples input input Phrase.unseparated False fun r s => s = r ∧ r.strays = kept where
  ends := hends
  ends' := hends
  some := hsome
  some' := hsome
  accept {guard r _} _ _ hrs := by
    obtain ⟨rfl, hkept⟩ := hrs
    exact .inr ⟨rfl, rfl, (strays_of_same (accept_complaints guard _)).trans hkept⟩
  need {kind _ _} _ _ hrs := by
    obtain ⟨rfl, hkept⟩ := hrs
    exact .inr ⟨rfl, rfl, (strays_need kind).trans hkept⟩
  fail hrs := by
    obtain ⟨rfl, hkept⟩ := hrs
    exact .inr ⟨rfl, (strays_stuck (by simp)).trans hkept⟩
  stray hallowed := by cases hallowed
  named {_ role _ _ _ _} _ _ hrs := by
    obtain ⟨rfl, hkept⟩ := hrs
    exact ⟨rfl, (strays_of_same (mark_complaints role _)).trans hkept⟩
  tooDeep hrs := by
    obtain ⟨rfl, hkept⟩ := hrs
    exact .inr ⟨rfl, (strays_tooDeep _).trans hkept⟩
  enter _ _ _ hrs := ⟨by rw [hrs.1], hrs.2⟩
  leave hrs := ⟨by rw [hrs.1], hrs.2⟩
  openFrame hrs := ⟨by rw [hrs.1], hrs.2⟩
  closeFrame {shape _ _} hrs := by
    obtain ⟨rfl, hkept⟩ := hrs
    exact ⟨rfl, (strays_of_same (closeFrame_complaints shape _)).trans hkept⟩
  descend _ _ _ hrs := ⟨by rw [hrs.1], hrs.2⟩
  ascend hrs := ⟨by rw [hrs.1], hrs.2⟩

theorem strays_statement (hends : input.Ends) (hsome : 0 < input.kinds.size) (r : Reading) :
    (Grammar.statement.read input (Nest.read input nestingLimit) r).2.strays = r.strays := by
  rcases (couples_strays hends hsome r.strays).statement nestingLimit r r ⟨rfl, rfl⟩
    with hlost | ⟨-, -, hkept⟩
  · exact hlost.1.elim
  · exact hkept

def Housed (r r' : Reading) : Prop :=
  ∀ frame frames, r.frames = frame :: frames →
    r'.roots = r.roots ∧ ∃ inner, r'.frames = inner :: frames ∧ inner.start = frame.start

theorem Housed.of_same (hframes : r'.frames = r.frames) (hroots : r'.roots = r.roots) :
    Housed r r' :=
  fun frame _ h => ⟨hroots, frame, hframes.trans h, rfl⟩

theorem Housed.trans (h₁ : Housed r r₁) (h₂ : Housed r₁ r') : Housed r r' := by
  intro frame frames hframes
  obtain ⟨hroots, inner, hinner, hstart⟩ := h₁ frame frames hframes
  obtain ⟨hroots', inner', hinner', hstart'⟩ := h₂ inner frames hinner
  exact ⟨hroots'.trans hroots, inner', hinner', hstart'.trans hstart⟩

theorem steps_housed (input : Input) : Steps input Housed where
  refl _ := .of_same rfl rfl
  trans := Housed.trans
  bump r := .of_same ((moves_same input).bump r).frames ((moves_same input).bump r).roots
  offer offer? r :=
    .of_same ((moves_same input).offer offer? r).frames ((moves_same input).offer offer? r).roots
  complain _ _ := .of_same rfl rfl
  halt _ := .of_same rfl rfl
  mark note r := by
    intro frame frames hframes
    unfold mark
    split
    · next hsome _ =>
        obtain ⟨rfl, rfl⟩ := List.cons.inj (hsome.symm.trans hframes)
        cases note <;> exact ⟨rfl, _, rfl, rfl⟩
    · exact ⟨rfl, frame, hframes, rfl⟩
  rule h := h
  node {shape r r'} h := by
    intro frame frames hframes
    obtain ⟨hroots, inner, hinner, -⟩ := h _ _ rfl
    simp only [closeFrame, hinner, hframes, attach]
    exact ⟨hroots, _, rfl, rfl⟩
  nest h := h

theorem closeFrame_of_paced {frame : Frame} (shape : Shape) (hframes : r.frames = [frame])
    (hpaced : r.Paced) (hlt : frame.start < r.pos) :
    (r.closeFrame shape).frames = [] ∧ (r.closeFrame shape).roots =
      r.roots ++ [.node (frame.construct shape) ⟨frame.start, r.pos - 1⟩ frame.children] := by
  simp only [closeFrame, hframes, finished, last_of_paced hpaced, if_pos hlt, attach]
  exact ⟨trivial, trivial⟩

section Survey

variable (hw : input.watch? = none)
include hw

theorem read_starts (hr : r.halted = false) (deeper : Nest → Reading → Reading) (word : Keyword) :
    (Grammar.starts? word).read input deeper r = (decide (r.peek input 0 = .keyword word), r) := by
  rw [Grammar.starts?, Phrase.read, accept_of_unwatched hw hr]
  by_cases hkind : r.peek input 0 = .keyword word
  · simp [Guard.kinds, Guard.width, sees, hkind, bumps]
  · simp [Guard.kinds, sees, hkind]

theorem read_statement (hr : r.halted = false) (deeper : Nest → Reading → Reading) :
    ∃ (type : StatementType) (body : Phrase), (Grammar.statement.read input deeper r).2 =
      ((body.read input deeper (r.enter .statement).openFrame).2.closeFrame
        (.statement type)).leave := by
  have hstarts := read_starts hw (r := r.enter .statement) hr deeper
  rw [Grammar.statement]
  simp only [Phrase.read]
  by_cases hinsert : (r.enter .statement).peek input 0 = .keyword .INSERT
  · exact ⟨.insert, Grammar.insertStatement, by simp [hstarts, hinsert]⟩
  by_cases hupdate : (r.enter .statement).peek input 0 = .keyword .UPDATE
  · exact ⟨.update, Grammar.updateStatement, by simp [hstarts, hupdate]⟩
  by_cases hdelete : (r.enter .statement).peek input 0 = .keyword .DELETE
  · exact ⟨.delete, Grammar.deleteStatement, by simp [hstarts, hdelete]⟩
  exact ⟨.select, Grammar.selectStatement, by simp [hstarts, hinsert, hupdate, hdelete]⟩

theorem roots_statement {levels : Nat} (hr : r.halted = false) (hframes : r.frames = [])
    (hpaced : r.Paced) (h : (Grammar.statement.read input (Nest.read input levels) r).2 = r₁)
    (hlt : r.pos < r₁.pos) :
    ∃ type children, r₁.frames = [] ∧
      r₁.roots = r.roots ++ [.node (.statement type) ⟨r.pos, r₁.pos - 1⟩ children] := by
  obtain ⟨type, body, hread⟩ := read_statement hw hr (Nest.read input levels)
  obtain ⟨hroots, frame, hinner, hstart⟩ := (steps_housed input).read
    ((steps_housed input).nestRead levels) body (r.enter .statement).openFrame _ _ rfl
  have hpaced' : (body.read input (Nest.read input levels)
      (r.enter .statement).openFrame).2.Paced :=
    paced_read (fun again _ hr => paced_nestRead levels again hr) body hpaced
  have hpos := (closeFrame_frame (.statement type)
    (body.read input (Nest.read input levels) (r.enter .statement).openFrame).2).1
  obtain rfl := hread.symm.trans h
  have hbegin : frame.start = r.pos := hstart
  have hlone := hinner.trans (congrArg (frame :: ·) hframes)
  obtain ⟨hframes', hroots'⟩ := closeFrame_of_paced (.statement type) hlone hpaced'
    (by rw [hbegin, ← hpos]; exact hlt)
  refine ⟨type, frame.children, hframes', hroots'.trans ?_⟩
  rw [hroots, hbegin, leave, hpos]
  rfl

omit hw in
theorem atBoundary_iff (hr : r.halted = false) :
    r.atBoundary input = true ↔ input.shown r.pos ∈ Kind.boundaries := by
  have hpeek : r.peek input 0 = input.shown r.pos := peek_eq_shown hr 0
  simp [atBoundary, hpeek, Kind.boundaries, or_assoc]

omit hw in
theorem Rounds.skipped (h : Rounds (skip input) r r') (hends : input.Ends) (hr : r.halted = false) :
    r'.complaints = r.complaints ∧ input.shown r'.pos ∈ Kind.boundaries ∧
      ∀ index, r.pos ≤ index → index < r'.pos → input.shown index ∉ Kind.boundaries := by
  induction h with
  | @last r r' hskip =>
      cases hend : r.atBoundary input with
      | false => simp [skip, hend] at hskip
      | true =>
          obtain rfl : r = r' := by simpa [skip, hend] using hskip
          exact ⟨rfl, (atBoundary_iff hr).1 hend,
            fun index hle hlt => absurd hlt (Nat.not_lt.2 hle)⟩
  | @more r r₁ r' hskip _ _ ih =>
      cases hend : r.atBoundary input with
      | true => simp [skip, hend] at hskip
      | false =>
          obtain rfl : r.bump input = r₁ := by simpa [skip, hend] using hskip
          obtain ⟨hcomplaints, hlast, hbetween⟩ := ih ((bumps_halted 1 r).trans hr)
          refine ⟨hcomplaints.trans (bumps_complaints 1 r), hlast, fun index hle hlt => ?_⟩
          rcases Nat.lt_or_eq_of_le hle with hlater | rfl
          · refine hbetween index ?_ hlt
            rw [bump_pos hends (peek_of_not_atBoundary hend)]
            exact hlater
          · exact fun hmem => by simp [(atBoundary_iff hr).2 hmem] at hend

end Survey

structure Segmented (input : Input) (r : Reading) (segments : List Segment) : Prop where
  tiles : Segment.Tiles 0 r.pos segments
  fits : ∀ segment ∈ segments, segment.Fits input
  roots : r.roots = segments.filterMap Segment.root?
  strays : r.strays = segments.filterMap Segment.complaint?
  frames : r.frames = []
  paced : r.Paced

theorem Segmented.snoc {segments : List Segment} (h : r.Segmented input segments)
    (segment : Segment) (hextent : segment.extent = ⟨r.pos, r₁.pos - 1⟩) (hlt : r.pos < r₁.pos)
    (hfits : segment.Fits input) (hroots : r₁.roots = r.roots ++ segment.root?.toList)
    (hstrays : r₁.strays = r.strays ++ segment.complaint?.toList) (hframes : r₁.frames = [])
    (hpaced : r₁.Paced) : r₁.Segmented input (segments ++ [segment]) where
  tiles := by
    have hlast : r₁.pos - 1 + 1 = r₁.pos := Nat.sub_add_cancel (Nat.zero_lt_of_lt hlt)
    refine h.tiles.append ⟨by rw [hextent], ?_, ?_⟩
    · rw [hextent]
      exact Nat.le_sub_one_of_lt hlt
    · rw [hextent]
      exact hlast
  fits := List.forall_mem_append.2 ⟨h.fits, List.forall_mem_singleton.2 hfits⟩
  roots := by
    rw [hroots, h.roots, List.filterMap_append]
    cases segment <;> rfl
  strays := by
    rw [hstrays, h.strays, List.filterMap_append]
    cases segment <;> rfl
  frames := hframes
  paced := hpaced

theorem item_of_halted (hr : r.halted = true) (hpaced : r.Paced) : input.item r = (false, r) := by
  refine read_of_idle Grammar.scriptItem (by decide) hr fun last hlast => ?_
  rw [hpaced] at hlast
  split at hlast
  · cases hlast
  · next hpos =>
      cases hlast
      exact Nat.sub_one_lt hpos

section Script

variable {segments : List Segment} (hw : input.watch? = none) (hends : input.Ends)
  (hsome : 0 < input.kinds.size)
include hends hsome

theorem Segmented.stray (h : r.Segmented input segments) (hr : r.halted = false)
    (hpeek : r.peek input 0 ∉ Kind.boundaries) (hstray : r.stray input = (true, r₁))
    (hlt : r.pos < r₁.pos) : ∃ extent, r₁.Segmented input (segments ++ [.stray extent]) := by
  have hne : r.peek input 0 ≠ .eof := fun heof => hpeek (heof ▸ List.mem_cons_self)
  have hmove := (moves_same input).stray r
  have hpaced := (steps_paced input).stray r h.paced
  rw [hstray] at hmove hpaced
  have hpos : ((r.complain .stray).bump input).pos = r.pos + 1 := bump_pos hends hne
  have hrun : ((r.complain .stray).bump input).halted = false :=
    (bumps_halted 1 (r.complain .stray)).trans hr
  obtain rfl : ((r.complain .stray).bump input).skipToBoundary input input.kinds.size = r₁ := by
    simpa [Reading.stray, hne] using hstray
  obtain ⟨hcomplaints, hlast, hbetween⟩ := (skip_rounds hends hsome _).skipped hends hrun
  refine ⟨_, h.snoc (.stray ⟨r.pos, _⟩) rfl hlt ⟨fun index hle hlt => ?_, ?_⟩ ?_ ?_ ?_ hpaced⟩
  · rcases Nat.lt_or_eq_of_le hle with hlater | rfl
    · exact hbetween index (hpos ▸ hlater) (by simp only at hlt; omega)
    · rwa [peek_eq_shown hr] at hpeek
  · rwa [Nat.sub_add_cancel (Nat.zero_lt_of_lt hlt)]
  · exact hmove.roots.trans (List.append_nil _).symm
  · rw [strays_of_same (hcomplaints.trans (bumps_complaints 1 (r.complain .stray)))]
    exact strays_complain_stray r
  · exact hmove.frames.trans h.frames

include hw

theorem Segmented.item (h : r.Segmented input segments) (hitem : input.item r = (true, r₁))
    (hlt : r.pos < r₁.pos) : ∃ segment, r₁.Segmented input (segments ++ [segment]) := by
  cases hr : r.halted with
  | true =>
      rw [item_of_halted hr h.paced] at hitem
      cases hitem
  | false =>
      have hpaced : (input.item r).2.Paced :=
        paced_read (fun again _ hr => paced_nestRead nestingLimit again hr)
          Grammar.scriptItem h.paced
      rw [hitem] at hpaced
      rw [Input.item, read_scriptItem hw hr] at hitem
      split at hitem
      · next hsemi =>
          have hpos : (r.bump input).pos = r.pos + 1 := bump_pos hends (by rw [hsemi]; decide)
          have hsame := (moves_same input).bump r
          obtain rfl : r.bump input = r₁ := congrArg Prod.snd hitem
          refine ⟨.separator r.pos, h.snoc _ ?_ hlt ?_ ?_ ?_ (hsame.frames.trans h.frames) hpaced⟩
          · rw [hpos]
            rfl
          · exact (peek_eq_shown hr 0).symm.trans hsemi
          · exact hsame.roots.trans (List.append_nil _).symm
          · exact (strays_of_same (bumps_complaints 1 r)).trans (List.append_nil _).symm
      · next hsemi =>
          split at hitem
          · have hread : (Grammar.statement.read input (Nest.read input nestingLimit) r).2 = r₁ :=
              congrArg Prod.snd hitem
            obtain ⟨type, children, hframes, hroots⟩ :=
              roots_statement hw hr h.frames h.paced hread hlt
            refine ⟨.statement _, h.snoc _ rfl hlt ⟨type, rfl⟩ hroots ?_ hframes hpaced⟩
            rw [← hread, strays_statement hends hsome]
            exact (List.append_nil _).symm
          · next hstart =>
              have hne : r.peek input 0 ≠ .eof := fun heof => by simp [Reading.stray, heof] at hitem
              obtain ⟨extent, hstray⟩ := h.stray hends hsome hr
                (by simp [Kind.boundaries, hne, hsemi, hstart]) hitem hlt
              exact ⟨_, hstray⟩

theorem Segmented.rounds (hrounds : Rounds input.item r r') (h : r.Segmented input segments) :
    (∃ segments', r'.Segmented input segments') ∧
      (r'.halted = true ∨ input.shown r'.pos = .eof) := by
  induction hrounds generalizing segments with
  | @last r r' hitem =>
      cases hr : r.halted with
      | true =>
          obtain rfl : r = r' := congrArg Prod.snd ((item_of_halted hr h.paced).symm.trans hitem)
          exact ⟨⟨segments, h⟩, .inl hr⟩
      | false =>
          obtain ⟨rfl, heof⟩ := item_of_stop hw hr hitem
          exact ⟨⟨segments, h⟩, .inr heof⟩
  | more hitem hlt _ ih =>
      obtain ⟨segment, h₁⟩ := h.item hw hends hsome hitem hlt
      exact ih h₁

theorem inputRead_segmented : (∃ segments, input.read.Segmented input segments) ∧
    (input.read.halted = true ∨ input.shown input.read.pos = .eof) := by
  obtain ⟨last, hrounds, hread⟩ := Input.read_rounds hends hsome
  have hbegin : (begin.enter .file).Segmented input [] := ⟨rfl, by simp, rfl, rfl, rfl, rfl⟩
  obtain ⟨⟨segments, h⟩, hend⟩ := hbegin.rounds hw hends hsome hrounds
  rw [hread]
  exact ⟨⟨segments, h.tiles, h.fits, h.roots, h.strays, h.frames, h.paced⟩, hend⟩

end Script

end Reading

namespace Cause

theorem message_stray (found : String) : Cause.message found .stray =
    "extraneous input '" ++ found ++
      "' expecting \x7b<EOF>, ';', WITH, SELECT, INSERT, UPDATE, DELETE\x7d" := by
  have hmessage : Cause.message found .stray = "extraneous input '" ++ found ++
      "' expecting \x7b<EOF>, ';', " ++
      ", ".intercalate (Keyword.statementStarts.map Keyword.spelling) ++ "\x7d" := rfl
  have hstarts : ", ".intercalate (Keyword.statementStarts.map Keyword.spelling) =
      "WITH, SELECT, INSERT, UPDATE, DELETE" := by
    decide +kernel
  rw [hmessage, hstarts]
  simp only [String.append_assoc]
  rfl

theorem eq_stray_of_message {cause : Cause} {found : String}
    (h : cause.message found = Cause.message found .stray) : cause = .stray := by
  rw [message_stray] at h
  cases cause with
  | stray => rfl
  | tooDeep | missing kind | noAlternative =>
      have hfirst := congrArg (·.toList.head?) h
      unfold Cause.message at hfirst
      simp [toString] at hfirst
  | extraneous kind =>
      have hall : ∀ kind ∈ Kind.all, "' expecting " ++ kind.display ≠
          "' expecting \x7b<EOF>, ';', WITH, SELECT, INSERT, UPDATE, DELETE\x7d" := by
        decide +kernel
      have hmessage : Cause.message found (.extraneous kind) =
          "extraneous input '" ++ found ++ "' expecting " ++ kind.display := rfl
      rw [hmessage, String.append_assoc, ← String.toList_inj] at h
      simp only [String.toList_append (s := "extraneous input '" ++ found)] at h
      exact absurd (String.toList_inj.1 (List.append_cancel_left h)) (hall kind (Kind.mem_all kind))

end Cause

namespace Source

variable (source : Source)

def FaultsStray (complaint : Complaint) : Prop :=
  (source.fault complaint).message = "extraneous input '" ++ source.quoteAt complaint.index ++
    "' expecting \x7b<EOF>, ';', WITH, SELECT, INSERT, UPDATE, DELETE\x7d"

def FaultsDepth (complaint : Complaint) : Prop :=
  (source.fault complaint).message = "maximum nesting depth exceeded"

theorem faultsStray_iff {complaint : Complaint} :
    source.FaultsStray complaint ↔ complaint.cause = .stray := by
  rw [FaultsStray, ← Cause.message_stray]
  exact ⟨Cause.eq_stray_of_message, fun h => by rw [fault, h]⟩

theorem faultsDepth_iff {complaint : Complaint} :
    source.FaultsDepth complaint ↔ complaint.cause = .tooDeep :=
  ⟨Cause.eq_tooDeep_of_message, fun h => by rw [FaultsDepth, fault, h]; rfl⟩

end Source

inductive Fate where
  | stated
  | parting
  | skipped
  | unread
  deriving DecidableEq, Repr

def Fate.Holds (source : Source) (reading : Reading) (index : Nat) : Fate → Prop
  | .stated => reading.roots.countP (·.extent.covers index) = 1
  | .parting => source.kindAt index = .semicolon ∧
      (∀ root ∈ reading.roots, root.extent.covers index = false) ∧
      ∀ complaint ∈ reading.complaints, source.FaultsDepth complaint → index < complaint.index
  | .skipped => ∃ complaint ∈ reading.complaints, source.FaultsStray complaint ∧
      complaint.index ≤ index ∧
      ∀ later, complaint.index < later → later ≤ index → source.kindAt later ∉ Kind.boundaries
  | .unread => ∃ complaint ∈ reading.complaints, source.FaultsDepth complaint ∧
      complaint.index ≤ index

def Segment.fate : Segment → Fate
  | .statement _ => .stated
  | .separator _ => .parting
  | .stray _ => .skipped

namespace Reading.Segmented

variable {input : Input} {r : Reading} {segments : List Segment} {segment : Segment} {index : Nat}
  (h : r.Segmented input segments)
include h

theorem mem_roots {root : Outline} : root ∈ r.roots ↔ .statement root ∈ segments := by
  rw [h.roots, List.mem_filterMap]
  constructor
  · rintro ⟨segment, hmem, hroot⟩
    cases segment with
    | statement other =>
        cases hroot
        exact hmem
    | _ => cases hroot
  · exact fun hmem => ⟨_, hmem, rfl⟩

theorem exists_stray {complaint : Complaint} (hmem : complaint ∈ r.complaints)
    (hcause : complaint.cause = .stray) :
    ∃ extent, .stray extent ∈ segments ∧ extent.first = complaint.index := by
  have hstray : complaint ∈ r.strays := List.mem_filter.2 ⟨hmem, decide_eq_true hcause⟩
  rw [h.strays, List.mem_filterMap] at hstray
  obtain ⟨segment, hsegment, hcomplaint⟩ := hstray
  cases segment with
  | stray extent =>
      cases hcomplaint
      exact ⟨extent, hsegment, rfl⟩
  | _ => cases hcomplaint

theorem complaint_of_stray {extent : Extent} (hmem : .stray extent ∈ segments) :
    ⟨.stray, extent.first⟩ ∈ r.complaints := by
  have hstray : ⟨.stray, extent.first⟩ ∈ r.strays := by
    rw [h.strays, List.mem_filterMap]
    exact ⟨_, hmem, rfl⟩
  exact List.mem_of_mem_filter hstray

theorem lt_pos (hmem : segment ∈ segments) (hcovers : segment.extent.covers index = true) :
    index < r.pos :=
  Nat.lt_of_le_of_lt (Extent.covers_iff.1 hcovers).2 (h.tiles.within hmem).2.2

theorem exists_segment (hlt : index < r.pos) :
    ∃ segment ∈ segments, segment.extent.covers index = true := by
  obtain ⟨before, segment, after, rfl, hcovers, -⟩ := h.tiles.split (Nat.zero_le index) hlt
  exact ⟨segment, List.mem_append_right _ List.mem_cons_self, hcovers⟩

theorem eq_of_covers {other : Segment} (hmem : segment ∈ segments) (hother : other ∈ segments)
    (hcovers : segment.extent.covers index = true) (hcovers' : other.extent.covers index = true) :
    segment = other := by
  obtain ⟨before, only, after, hsplit, -, hothers⟩ :=
    h.tiles.split (Nat.zero_le index) (h.lt_pos hmem hcovers)
  have honly (segment : Segment) (hmem : segment ∈ segments)
      (hcovers : segment.extent.covers index = true) : segment = only := by
    rw [hsplit, List.mem_append, List.mem_cons] at hmem
    rcases hmem with hmem | rfl | hmem
    · rw [hothers segment (List.mem_append_left _ hmem)] at hcovers
      cases hcovers
    · rfl
    · rw [hothers segment (List.mem_append_right _ hmem)] at hcovers
      cases hcovers
  exact (honly segment hmem hcovers).trans (honly other hother hcovers').symm

theorem countP_roots {root : Outline} (hmem : .statement root ∈ segments)
    (hcovers : root.extent.covers index = true) : r.roots.countP (·.extent.covers index) = 1 := by
  obtain ⟨before, only, after, hsplit, honly, hothers⟩ :=
    h.tiles.split (Nat.zero_le index) (h.lt_pos hmem hcovers)
  obtain rfl := h.eq_of_covers hmem (hsplit ▸ List.mem_append_right _ List.mem_cons_self)
    hcovers honly
  have hnone (others : List Segment)
      (hothers : ∀ other ∈ others, other.extent.covers index = false) :
      (others.filterMap Segment.root?).countP (·.extent.covers index) = 0 := by
    refine List.countP_eq_zero.2 fun other hother => ?_
    obtain ⟨segment, hsegment, hroot⟩ := List.mem_filterMap.1 hother
    cases segment with
    | statement root =>
        cases hroot
        exact Bool.eq_false_iff.1 (hothers _ hsegment)
    | _ => cases hroot
  rw [List.forall_mem_append] at hothers
  rw [h.roots, hsplit, List.filterMap_append, List.countP_append, hnone before hothers.1,
    List.filterMap_cons]
  simp only [Segment.root?, List.countP_cons, hnone after hothers.2, hcovers, if_true, Nat.zero_add]

end Reading.Segmented

structure Reading.Accounts (source : Source) (input : Input) (count : Nat) (r : Reading)
    (segments : List Segment) : Prop extends r.Segmented input segments where
  shown : ∀ index, input.shown index = source.kindAt index
  told : r.Told
  halted : ∀ index, r.pos ≤ index → index < count → r.halted = true

theorem Segment.fate_ne_unread (segment : Segment) : segment.fate ≠ .unread := by
  cases segment <;> simp [fate]

namespace Reading.Accounts

variable {source : Source} {input : Input} {count index : Nat} {r : Reading}
  {segments : List Segment} {fate : Fate} (h : r.Accounts source input count segments)
include h

theorem holds_stated : Fate.stated.Holds source r index ↔
    ∃ root, .statement root ∈ segments ∧ root.extent.covers index = true := by
  constructor
  · intro hone
    obtain ⟨root, hroot, hcovers⟩ :=
      List.countP_pos_iff.1 (Nat.lt_of_lt_of_eq Nat.zero_lt_one hone.symm)
    exact ⟨root, h.mem_roots.1 hroot, hcovers⟩
  · rintro ⟨root, hmem, hcovers⟩
    exact h.countP_roots hmem hcovers

theorem holds_skipped : Fate.skipped.Holds source r index ↔
    ∃ extent, .stray extent ∈ segments ∧ extent.covers index = true := by
  constructor
  · rintro ⟨complaint, hcomplaint, hstray, hle, hbetween⟩
    obtain ⟨extent, hmem, hfirst⟩ := h.exists_stray hcomplaint (source.faultsStray_iff.1 hstray)
    obtain ⟨-, hnonempty, -⟩ := h.tiles.within hmem
    refine ⟨extent, hmem, Extent.covers_iff.2 ⟨hfirst ▸ hle, Nat.le_of_not_lt fun hlt => ?_⟩⟩
    refine hbetween (extent.last + 1) (hfirst ▸ Nat.lt_succ_of_le hnonempty) hlt ?_
    rw [← h.shown]
    exact (h.fits _ hmem).2
  · rintro ⟨extent, hmem, hcovers⟩
    obtain ⟨hfirst, hlast⟩ := Extent.covers_iff.1 hcovers
    refine ⟨_, h.complaint_of_stray hmem, source.faultsStray_iff.2 rfl, hfirst,
      fun later hlt hle => ?_⟩
    rw [← h.shown]
    exact (h.fits _ hmem).1 later (Nat.le_of_lt hlt) (Nat.le_trans hle hlast)

theorem holds_unread (hindex : index < count) : Fate.unread.Holds source r index ↔
    r.pos ≤ index := by
  constructor
  · rintro ⟨complaint, hmem, hdepth, hle⟩
    exact h.told.index_eq_pos complaint hmem (source.faultsDepth_iff.1 hdepth) ▸ hle
  · intro hle
    have hhalted := h.halted index hle hindex
    rcases h.told with hclear | ⟨-, before, hcomplaints, -⟩
    · rw [hclear.running] at hhalted
      cases hhalted
    · refine ⟨⟨.tooDeep, r.pos⟩, ?_, source.faultsDepth_iff.2 rfl, hle⟩
      simp [hcomplaints]

theorem holds_parting (hindex : index < count) :
    Fate.parting.Holds source r index ↔ .separator index ∈ segments := by
  constructor
  · rintro ⟨hsemi, hroots, hdepth⟩
    have hlt : index < r.pos := by
      refine Nat.lt_of_not_le fun hle => ?_
      obtain ⟨complaint, hmem, hfault, hle⟩ := (h.holds_unread hindex).2 hle
      exact absurd (hdepth complaint hmem hfault) (Nat.not_lt.2 hle)
    obtain ⟨segment, hmem, hcovers⟩ := h.exists_segment hlt
    cases segment with
    | statement root =>
        have hnone := hroots root (h.mem_roots.2 hmem)
        rw [Segment.extent, hnone] at hcovers
        cases hcovers
    | separator place =>
        obtain rfl := Segment.covers_separator.1 hcovers
        exact hmem
    | stray extent =>
        obtain ⟨hfirst, hlast⟩ := Extent.covers_iff.1 hcovers
        refine absurd ?_ ((h.fits _ hmem).1 index hfirst hlast)
        rw [h.shown, hsemi]
        decide
  · intro hmem
    have hcovers := Segment.covers_separator.2 (Eq.refl index)
    refine ⟨(h.shown index).symm.trans (h.fits _ hmem), fun root hroot => ?_,
      fun complaint hcomplaint hdepth => ?_⟩
    · refine Bool.eq_false_iff.2 fun hroot' => ?_
      cases h.eq_of_covers hmem (h.mem_roots.1 hroot) hcovers hroot'
    · rw [h.told.index_eq_pos complaint hcomplaint (source.faultsDepth_iff.1 hdepth)]
      exact h.lt_pos hmem hcovers

theorem holds_iff (hindex : index < count) (hfate : fate ≠ .unread) : fate.Holds source r index ↔
    ∃ segment ∈ segments, segment.extent.covers index = true ∧ segment.fate = fate := by
  cases fate with
  | stated =>
      rw [h.holds_stated]
      constructor
      · rintro ⟨root, hmem, hcovers⟩
        exact ⟨.statement root, hmem, hcovers, rfl⟩
      · rintro ⟨⟨root⟩ | _ | _, hmem, hcovers, ⟨⟩⟩
        exact ⟨root, hmem, hcovers⟩
  | parting =>
      rw [h.holds_parting hindex]
      constructor
      · exact fun hmem => ⟨.separator index, hmem, Segment.covers_separator.2 rfl, rfl⟩
      · rintro ⟨_ | ⟨place⟩ | _, hmem, hcovers, ⟨⟩⟩
        obtain rfl := Segment.covers_separator.1 hcovers
        exact hmem
  | skipped =>
      rw [h.holds_skipped]
      constructor
      · rintro ⟨extent, hmem, hcovers⟩
        exact ⟨.stray extent, hmem, hcovers, rfl⟩
      · rintro ⟨_ | _ | ⟨extent⟩, hmem, hcovers, ⟨⟩⟩
        exact ⟨extent, hmem, hcovers⟩
  | unread => exact absurd rfl hfate

theorem existsUnique_fate (hindex : index < count) :
    ∃ fate : Fate, fate.Holds source r index ∧
      ∀ other : Fate, other.Holds source r index → other = fate := by
  rcases Nat.lt_or_ge index r.pos with hlt | hge
  · obtain ⟨segment, hmem, hcovers⟩ := h.exists_segment hlt
    refine ⟨segment.fate,
      (h.holds_iff hindex segment.fate_ne_unread).2 ⟨segment, hmem, hcovers, rfl⟩,
      fun other hother => ?_⟩
    by_cases hunread : other = .unread
    · subst hunread
      exact absurd ((h.holds_unread hindex).1 hother) (Nat.not_le.2 hlt)
    · obtain ⟨segment', hmem', hcovers', rfl⟩ := (h.holds_iff hindex hunread).1 hother
      rw [h.eq_of_covers hmem hmem' hcovers hcovers']
  · refine ⟨.unread, (h.holds_unread hindex).2 hge, fun other hother => ?_⟩
    by_contra hunread
    obtain ⟨segment, hmem, hcovers, -⟩ := (h.holds_iff hindex hunread).1 hother
    exact absurd (h.lt_pos hmem hcovers) (Nat.not_lt.2 hge)

end Reading.Accounts

theorem Input.shown_eq_kindAt (script : String) (tokens : List (Token Kind)) (index : Nat) :
    Input.shown ⟨(tokens.map Token.kind).toArray, none⟩ index =
      (Source.mk script tokens.toArray).kindAt index := by
  simp [Input.shown, Source.kindAt]

theorem Input.read_accounts (script : String) {tokens : List (Token Kind)} {last : Token Kind}
    (hlast : last.kind = .eof) (hplain : ∀ token ∈ tokens, token.kind ≠ .eof) :
    ∃ segments, (Input.read ⟨((tokens ++ [last]).map Token.kind).toArray, none⟩).Accounts
      ⟨script, (tokens ++ [last]).toArray⟩ ⟨((tokens ++ [last]).map Token.kind).toArray, none⟩
      tokens.length segments := by
  obtain ⟨⟨segments, h⟩, hend⟩ :=
    Reading.inputRead_segmented rfl (Input.ends_of_last hlast) (by simp)
  refine ⟨segments, h, Input.shown_eq_kindAt script _, Reading.inputRead_told rfl,
    fun index hle hlt => ?_⟩
  refine hend.resolve_right fun heof => ?_
  have hread := Nat.lt_of_le_of_lt hle hlt
  rw [Input.shown_append _ hread] at heof
  exact hplain _ (List.getElem_mem hread) heof

end SqlAtlas
