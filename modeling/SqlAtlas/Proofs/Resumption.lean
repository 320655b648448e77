import SqlAtlas.Proofs.Confinement
import SqlAtlas.Proofs.Shift

namespace SqlAtlas

def Phrase.unseparated : Phrase → Bool
  | .accept guard => !guard.kinds.contains .semicolon
  | .need kind => kind ≠ .semicolon
  | .stray => false
  | _ => true

namespace Grammar

theorem tidy_scriptItem : scriptItem.tidy Kind.all = true := by
  have h := tidy_script
  rw [script, Phrase.tidy, Phrase.tidy, Bool.and_eq_true] at h
  exact h.1

theorem tidy_statement : ∃ ks, statement.tidy ks = true := by
  obtain ⟨-, hrest, -⟩ := Phrase.tidy_ifElse tidy_scriptItem
  obtain ⟨-, -, hstatement | ⟨role, hnote, -⟩⟩ := Phrase.tidy_ifElse hrest
  · exact ⟨_, hstatement⟩
  · cases hnote

theorem unseparated_body (again : Nest) : (body again).allowed Phrase.unseparated = true := by
  cases again <;> decide +kernel

theorem unseparated_statement : statement.allowed Phrase.unseparated = true := by
  decide +kernel

end Grammar

theorem Couples.statement {input other : Input} {fragile : Prop} {R : Reading → Reading → Prop}
    (h : Couples input other Phrase.unseparated fragile R) (n : Nat) :
    Couples.Keeps input other fragile R n Grammar.statement := by
  have hitem := Grammar.fit_script.of_rule.of_many.1
  obtain ⟨ks, htidy⟩ := Grammar.tidy_statement
  exact h.of_nests (h.nest Grammar.unseparated_body n) _ hitem.of_ifElse.2.2.of_ifElse.2.1 htidy
    Grammar.unseparated_statement

/-- Where the first input ends, at `size`, the second one goes on with a semicolon. -/
structure Input.Resumed (input other : Input) (size : Nat) : Prop where
  unwatched : input.watch? = none
  unwatched' : other.watch? = none
  ends : input.Ends
  ends' : other.Ends
  same : ∀ i < size, other.shown i = input.shown i
  busy : ∀ i < size, input.shown i ≠ .eof
  stop : input.shown size = .eof
  resume : other.shown size = .semicolon
  some : 0 < input.kinds.size

namespace Reading

variable {input other : Input} {size : Nat} {r : Reading}

section Unwatched

variable (hw : input.watch? = none) (hr : r.halted = false)
include hw hr

theorem accept_of_unwatched (guard : Guard) : r.accept input guard =
    if r.sees input 0 guard.kinds then (true, r.bumps input guard.width) else (false, r) := by
  simp [accept, atCaret, hw, hr]

theorem stuck_lost (cause : Cause) : (r.stuck input cause).Lost True := by
  simp [stuck, atCaret, hw, hr, complain, Lost]

theorem need_lost {kind : Kind} (h : (r.accept input (.token kind [])).1 = false) :
    (r.need input kind).2.Lost True := by
  have hrun : (r.accept input (.token kind [])).2.halted = r.halted := accept_halted _ r
  rw [hr] at hrun
  unfold need
  split
  · next heq =>
      rw [heq] at h
      cases h
  · next heq =>
      rw [heq] at hrun
      split
      · simp [Lost, bumps_complaints, complain]
      · exact stuck_lost hw hrun _

theorem read_anyBefore (deeper : Nest → Reading → Reading) (kinds : List Kind) :
    (Phrase.anyBefore kinds).read input deeper r = (decide (r.peek input 0 ∈ kinds), r) := by
  induction kinds with
  | nil => rfl
  | cons kind kinds ih =>
      have hfirst : (Phrase.accept (.before kind)).read input deeper r =
          (decide (r.peek input 0 = kind), r) := by
        rw [Phrase.read, accept_of_unwatched hw hr]
        by_cases hkind : r.peek input 0 = kind
        · simp [Guard.kinds, Guard.width, sees, hkind, bumps]
        · simp [Guard.kinds, sees, hkind]
      rw [Phrase.anyBefore] at ih
      rw [Phrase.anyBefore, List.map_cons, Phrase.firstOf, Phrase.read, hfirst]
      by_cases hkind : r.peek input 0 = kind
      · simp [hkind, Phrase.read]
      · simp [hkind, ih]

theorem read_scriptItem (deeper : Nest → Reading → Reading) :
    Grammar.scriptItem.read input deeper r =
      if r.peek input 0 = .semicolon then (true, r.bump input)
      else if r.peek input 0 ∈ Kind.statementStarts then
        (true, (Grammar.statement.read input deeper r).2)
      else r.stray input := by
  rw [Grammar.scriptItem, Phrase.eat, Phrase.read, Phrase.read, accept_of_unwatched hw hr]
  by_cases hsemi : r.peek input 0 = .semicolon
  · simp [Guard.kinds, Guard.width, sees, hsemi, bumps, Phrase.read]
  · have hunseen : r.sees input 0 [.semicolon] = false := by simp [sees, hsemi]
    rw [Guard.kinds, hunseen, if_neg hsemi]
    simp only [Bool.false_eq_true, if_false, Phrase.read, read_anyBefore hw hr deeper]
    by_cases hstart : r.peek input 0 ∈ Kind.statementStarts
    · simp [hstart]
    · simp [hstart]

end Unwatched

structure Within (size : Nat) (r s : Reading) : Prop where
  same : s = r
  running : r.halted = false
  pos : r.pos ≤ size

section Resumed

variable (hin : input.Resumed other size) (hr : r.halted = false)
include hin hr

theorem peek_of_lt {i : Nat} (hi : r.pos + i < size) : r.peek other i = r.peek input i := by
  rw [peek_eq_shown hr, peek_eq_shown hr, hin.same _ hi]

theorem sees_of_le {kinds : List Kind} (heof : Kind.eof ∉ kinds) (hsemi : Kind.semicolon ∉ kinds)
    {i : Nat} (hi : r.pos + i ≤ size) : r.sees other i kinds = r.sees input i kinds := by
  induction kinds generalizing i with
  | nil => rfl
  | cons kind kinds ih =>
      rw [List.mem_cons, not_or] at heof hsemi
      rw [sees, sees]
      rcases Nat.lt_or_eq_of_le hi with hlt | heq
      · rw [peek_of_lt hin hr hlt, ih heof.2 hsemi.2 hlt]
      · -- Here one input shows its end and the other a semicolon; neither is asked for.
        rw [peek_eq_shown hr, peek_eq_shown hr, heq, hin.stop, hin.resume,
          beq_false_of_ne heof.1, beq_false_of_ne hsemi.1]
        rfl

omit hr in
theorem bump_of_lt (hpos : r.pos < size) : r.bump other = r.bump input := by
  have hroom := hin.ends r.pos (hin.busy _ hpos)
  have hroom' := hin.ends' r.pos (by rw [hin.same _ hpos]; exact hin.busy _ hpos)
  rw [bump, bump, if_pos hroom, if_pos hroom']

omit hr in
theorem bumps_of_le (count : Nat) (hpos : r.pos + count ≤ size) :
    r.bumps other count = r.bumps input count := by
  induction count generalizing r with
  | zero => rfl
  | succ count ih =>
      have hmoved : (r.bump input).pos ≤ r.pos + 1 := bumps_pos_le 1 r
      rw [bumps, bumps, bump_of_lt hin (by omega), ih (by omega)]

theorem accept_of_le {guard : Guard} (heof : Kind.eof ∉ guard.kinds)
    (hsemi : Kind.semicolon ∉ guard.kinds) (hpos : r.pos ≤ size) :
    r.accept other guard = r.accept input guard := by
  rw [accept_of_unwatched hin.unwatched hr, accept_of_unwatched hin.unwatched' hr,
    sees_of_le hin hr heof hsemi (i := 0) hpos]
  split
  · next hsees =>
      have hroom := sees_le_limit hin.stop heof (i := 0) hpos hsees
      have hwidth := guard.width_le_length
      rw [bumps_of_le hin _ (by omega)]
  · rfl

end Resumed

section Within

variable (hin : input.Resumed other size)
include hin

theorem Within.accept {s : Reading} (h : Within size r s) {guard : Guard}
    (heof : Kind.eof ∉ guard.kinds) (hsemi : Kind.semicolon ∉ guard.kinds) :
    (r.accept input guard).1 = (s.accept other guard).1 ∧
      Within size (r.accept input guard).2 (s.accept other guard).2 := by
  obtain ⟨rfl, hrun, hpos⟩ := h
  rw [accept_of_le hin hrun heof hsemi hpos]
  exact ⟨rfl, rfl, (accept_halted guard s).trans hrun, accept_le hin.stop heof hpos⟩

theorem Within.need {s : Reading} (h : Within size r s) {kind : Kind} (heof : kind ≠ .eof)
    (hsemi : kind ≠ .semicolon) :
    Tied True (Within size) (r.need input kind) (s.need other kind) := by
  have hguard : Kind.eof ∉ (Guard.token kind []).kinds := by simpa [Guard.kinds] using heof.symm
  have hguard' : Kind.semicolon ∉ (Guard.token kind []).kinds := by
    simpa [Guard.kinds] using hsemi.symm
  obtain ⟨htaken, haccept⟩ := h.accept hin hguard hguard'
  cases hr : r.accept input (.token kind []) with
  | mk taken r₁ =>
      cases taken with
      | false => exact .inl (need_lost hin.unwatched h.running (by rw [hr]))
      | true =>
          cases hs : s.accept other (.token kind []) with
          | mk taken' s₁ =>
              rw [hr, hs] at htaken haccept
              obtain rfl : true = taken' := htaken
              right
              simp only [Reading.need, hr, hs]
              exact ⟨trivial, haccept⟩

theorem couples_within : Couples input other Phrase.unseparated True (Within size) where
  ends := hin.ends
  ends' := hin.ends'
  some := hin.some
  some' := Nat.lt_of_le_of_lt (Nat.zero_le _) (hin.ends' size (by rw [hin.resume]; decide))
  accept {guard _ _} hsane hallowed hrs := by
    simp only [Phrase.sane, Phrase.unseparated, Bool.and_eq_true, Bool.not_eq_true',
      List.contains_eq_mem, decide_eq_false_iff_not] at hsane hallowed
    exact .inr (hrs.accept hin hsane.2 hallowed)
  need hkind hallowed hrs := hrs.need hin hkind (by simpa [Phrase.unseparated] using hallowed)
  fail hrs := .inl (stuck_lost hin.unwatched hrs.running _)
  stray hallowed := by cases hallowed
  named {_ role _ _ _ _} _ _ hrs := by
    obtain ⟨rfl, hrun, hpos⟩ := hrs
    obtain ⟨hpos', hrun'⟩ := mark_frame role _
    exact ⟨rfl, hrun'.trans hrun, hpos' ▸ hpos⟩
  tooDeep {r s} hrs := by
    left
    simp [Reading.tooDeep, hrs.running, halt, complain, Lost]
  enter _ _ _ hrs := ⟨by rw [hrs.same], hrs.running, hrs.pos⟩
  leave hrs := ⟨by rw [hrs.same], hrs.running, hrs.pos⟩
  openFrame hrs := ⟨by rw [hrs.same], hrs.running, hrs.pos⟩
  closeFrame {shape _ _} hrs := by
    obtain ⟨rfl, hrun, hpos⟩ := hrs
    obtain ⟨hpos', hrun'⟩ := closeFrame_frame shape _
    exact ⟨rfl, hrun'.trans hrun, hpos' ▸ hpos⟩
  descend _ _ _ hrs := ⟨by rw [hrs.same], hrs.running, hrs.pos⟩
  ascend hrs := ⟨by rw [hrs.same], hrs.running, hrs.pos⟩

end Within

end Reading

def Input.item (input : Input) : Reading → Bool × Reading :=
  Grammar.scriptItem.read input (Nest.read input nestingLimit)

theorem Input.rounds_item {input : Input} (hends : input.Ends) (hsome : 0 < input.kinds.size)
    (r : Reading) : Reading.Rounds input.item r
      ((Phrase.many Grammar.scriptItem).read input (Nest.read input nestingLimit) r).2 :=
  Reading.many_rounds hends hsome (Reading.onward_nestRead input nestingLimit)
    (fun again _ hr => Reading.nestRead_of_blind nestingLimit again hr) Grammar.fit_script.of_rule r

theorem Input.read_rounds {input : Input} (hends : input.Ends) (hsome : 0 < input.kinds.size) :
    ∃ last, Reading.Rounds input.item (Reading.begin.enter .file) last ∧
      input.read = last.leave := by
  refine ⟨_, Input.rounds_item hends hsome _, ?_⟩
  rw [Input.read, if_neg (by simpa [Array.isEmpty] using Nat.ne_of_gt hsome)]
  rfl

namespace Reading

variable {input other : Input} {size : Nat} {r r₁ r' : Reading}

theorem item_of_stop (hw : input.watch? = none) (hr : r.halted = false)
    (h : input.item r = (false, r')) : r = r' ∧ input.shown r.pos = .eof := by
  rw [Input.item, read_scriptItem hw hr] at h
  split at h
  · cases h
  · split at h
    · cases h
    · unfold Reading.stray at h
      split at h
      · next heof => exact ⟨congrArg Prod.snd h, (peek_eq_shown hr 0).symm.trans heof⟩
      · cases h

section Script

variable (hin : input.Resumed other size)
include hin

theorem item_of_taken (hr : Within size r r) (h : input.item r = (true, r₁))
    (hclean : r₁.complaints = []) : other.item r = (true, r₁) ∧ Within size r₁ r₁ := by
  have hpeek (hne : r.peek input 0 ≠ .eof) : r.pos < size ∧ r.peek other 0 = r.peek input 0 := by
    have hlt := lt_limit hin.stop (i := 0) hr.pos hne
    exact ⟨hlt, peek_of_lt hin hr.running hlt⟩
  rw [Input.item, read_scriptItem hin.unwatched hr.running] at h
  rw [Input.item, read_scriptItem hin.unwatched' hr.running]
  split at h
  · next hsemi =>
      obtain ⟨hlt, hsame⟩ := hpeek (by rw [hsemi]; decide)
      obtain rfl : r.bump input = r₁ := congrArg Prod.snd h
      rw [hsame, if_pos hsemi, bump_of_lt hin hlt]
      have hmoved : (r.bump input).pos ≤ r.pos + 1 := bumps_pos_le 1 r
      exact ⟨rfl, rfl, (bumps_halted 1 r).trans hr.running, Nat.le_trans hmoved hlt⟩
  · next hsemi =>
      split at h
      · next hstart =>
          obtain ⟨hlt, hsame⟩ := hpeek fun heof => absurd (heof ▸ hstart) (by decide)
          obtain rfl : (Grammar.statement.read input (Nest.read input nestingLimit) r).2 = r₁ :=
            congrArg Prod.snd h
          rcases (couples_within hin).statement nestingLimit r r hr
            with hlost | ⟨-, hsame₁, hrun, hpos⟩
          · exact absurd hclean hlost.2
          · rw [hsame, if_neg hsemi, if_pos hstart, hsame₁]
            exact ⟨rfl, rfl, hrun, hpos⟩
      · unfold stray at h
        split at h
        · cases h
        · obtain rfl := congrArg Prod.snd h
          have hmore := (steps_progress input).skipToBoundary input.kinds.size
            ((r.complain .stray).bump input)
          have hlost : (((r.complain .stray).bump input).Lost True) := by
            have hsame : ((r.complain .stray).bump input).complaints =
                (r.complain .stray).complaints :=
              bumps_complaints 1 _
            rw [Lost, hsame]
            simp [complain]
          exact absurd hclean (hlost.mono hmore.complaints).2

theorem item_of_refused (hr : Within size r r) (h : input.item r = (false, r')) :
    r' = r ∧ r.pos = size ∧ other.item r = (true, r.bump other) := by
  obtain ⟨rfl, heof⟩ := item_of_stop hin.unwatched hr.running h
  have hpos : r.pos = size :=
    (Nat.lt_or_eq_of_le hr.pos).resolve_left fun hlt => hin.busy _ hlt heof
  have hresume : r.peek other 0 = .semicolon := by
    rw [peek_eq_shown hr.running, ← hin.resume, ← hpos]
    rfl
  rw [Input.item, read_scriptItem hin.unwatched' hr.running, if_pos hresume]
  exact ⟨rfl, hpos, rfl⟩

theorem Rounds.resumed (h : Rounds input.item r r') (hr : Within size r r)
    (hclean : r'.complaints = []) :
    Within size r' r' ∧ r'.pos = size ∧
      ∀ t, Rounds other.item (r'.bump other) t → Rounds other.item r t := by
  have hprog (r : Reading) : Progress r (input.item r).2 :=
    progress_read input (progress_nestRead input nestingLimit) Grammar.scriptItem r
  induction h with
  | @last r r' hitem =>
      obtain ⟨rfl, hpos, hother⟩ := item_of_refused hin hr hitem
      have hseen : r'.peek other 0 ≠ .eof := by
        rw [peek_eq_shown hr.running, hpos, Nat.add_zero, hin.resume]
        decide
      have hmoved := bump_pos hin.ends' hseen
      exact ⟨hr, hpos, fun t ht => .more hother (by omega) ht⟩
  | @more r r₁ r' hitem hlt hrest ih =>
      have hclean₁ : r₁.complaints = [] :=
        List.prefix_nil.1 (hclean ▸ (hrest.progress hprog).complaints)
      obtain ⟨hother, hr₁⟩ := item_of_taken hin hr hitem hclean₁
      obtain ⟨hr', hpos, hgoes⟩ := ih hr₁ hclean
      exact ⟨hr', hpos, fun t ht => .more hother hlt (hgoes t ht)⟩

end Script

end Reading

theorem Input.read_resumed {input other later : Input} {size : Nat}
    (hin : input.Resumed other size) (hlater : later.Delayed other (size + 1)) (hends : later.Ends)
    (hsome : 0 < later.kinds.size) (hclean : input.read.complaints = []) :
    (∀ root ∈ input.read.roots, Outline.Before size root) ∧
      other.read.roots = input.read.roots ++ later.read.roots.map (Outline.shift (size + 1)) ∧
      other.read.complaints = later.read.complaints.map (Complaint.shift (size + 1)) := by
  have hsome' : 0 < other.kinds.size := (Reading.couples_within hin).some'
  obtain ⟨last, hrounds, hread⟩ := Input.read_rounds hin.ends hin.some
  obtain ⟨lastOther, hroundsOther, hreadOther⟩ := Input.read_rounds hin.ends' hsome'
  obtain ⟨lastLater, hroundsLater, hreadLater⟩ := Input.read_rounds hends hsome
  have hseated := (Reading.steps_seated input).inputRead Reading.seated_begin
  have hbalanced := (Reading.steps_balanced input).inputRead
  have hpaced := (Reading.steps_paced input).inputRead rfl
  rw [hread] at hclean hseated hbalanced hpaced
  obtain ⟨hlast, hpos, hgoes⟩ := hrounds.resumed hin ⟨rfl, rfl, Nat.zero_le _⟩ hclean
  have hroom : last.pos + 1 < other.kinds.size := by
    rw [hpos]
    exact hin.ends' size (by rw [hin.resume]; decide)
  have hstart : Reading.Shifted (size + 1) last.roots (Reading.begin.enter .file)
      (last.bump other) := by
    have hframes : last.frames = [] := List.length_eq_zero_iff.1 hbalanced.frames
    have hpaced' := (Reading.steps_paced other).bump last hpaced
    rw [Reading.bump, if_pos hroom] at hpaced' ⊢
    refine ⟨?_, hlast.running, hframes, (List.append_nil _).symm, hclean, rfl, hpaced'⟩
    simp [hpos, Reading.enter, Reading.begin]
  have hcouples := Reading.couples_shifted hlater hends hin.ends' hsome last.roots
  have hallowed := Phrase.allowed_of_forall fun _ => rfl
  have hitem := hcouples.of_nests (hcouples.nest (fun _ => hallowed _) nestingLimit)
    Grammar.scriptItem
    Grammar.fit_script.of_rule.of_many.1 Grammar.tidy_scriptItem (hallowed _)
  have hrest := Input.rounds_item hin.ends' hsome' (last.bump other)
  have hprog := Reading.progress_read later (Reading.progress_nestRead later nestingLimit)
    Grammar.scriptItem
  have hend := (Couples.rounds hprog hitem hroundsLater hrest hstart).resolve_left fun hlost =>
    hlost.1
  rw [← hroundsOther.unique (hgoes _ hrest)] at hend
  rw [hread, hreadOther, hreadLater]
  refine ⟨?_, hend.roots, hend.complaints⟩
  rw [← hpos]
  exact hseated.roots

end SqlAtlas
