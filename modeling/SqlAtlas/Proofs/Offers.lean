import SqlAtlas.Proofs.Agreement
import SqlAtlas.Proofs.Prospect

namespace SqlAtlas

structure Offered where
  rules : List Rule
  kind : Kind
  follow : List Kind

namespace Offered

def addTo (preferred : List Rule) (ignored : List Kind) (candidates : Candidates Kind Rule)
    (offered : Offered) : Candidates Kind Rule :=
  match offered.rules.reverse.find? (· ∈ preferred) with
  | some rule => candidates.addRule rule
  | none =>
      if offered.kind ∈ ignored then candidates else candidates.addToken offered.kind offered.follow

structure Fair (offered : Offered) : Prop where
  follow : offered.follow = offered.kind.follow
  unmixed : (∀ rule ∈ offered.rules, rule ∉ Rule.ofTables) ∨
    ∀ rule ∈ offered.rules, rule ∉ Rule.ofColumns

end Offered

-- No offer is made below both a table rule and a column rule, and nothing is nested below either.
def Phrase.unmixed (table column : Bool) : Phrase → Bool
  | .accept _ | .need _ => !(table && column)
  | .seq first second => first.unmixed table column && second.unmixed table column
  | .ifElse test yes no =>
      test.unmixed table column && yes.unmixed table column && no.unmixed table column
  | .many body | .node _ body => body.unmixed table column
  | .rule name body =>
      body.unmixed (name ∈ Rule.ofTables || table) (name ∈ Rule.ofColumns || column)
  | .nest _ => !table && !column
  | _ => true

theorem unmixed_grammar : Grammar.script.unmixed false false = true ∧
    ∀ again, (Grammar.body again).unmixed false false = true := by
  refine ⟨by decide +kernel, fun again => ?_⟩
  cases again <;> decide +kernel

namespace Reading

def collected (candidates : Candidates Kind Rule) (r : Reading) : Reading :=
  { r with candidates := candidates }

@[simp] theorem collected_pos (candidates : Candidates Kind Rule) (r : Reading) :
    (r.collected candidates).pos = r.pos := rfl

@[simp] theorem collected_halted (candidates : Candidates Kind Rule) (r : Reading) :
    (r.collected candidates).halted = r.halted := rfl

theorem steps_rules (input : Input) : Steps input fun r r' => r'.rules = r.rules where
  refl _ := rfl
  trans h h' := h'.trans h
  bump r := by
    unfold bump
    split <;> rfl
  offer offer? r := by
    unfold offer offerTo
    repeat' split
    all_goals rfl
  complain _ _ := rfl
  halt _ := rfl
  mark note r := by
    unfold mark
    repeat' split
    all_goals rfl
  rule h := congrArg List.tail h
  node {shape r r'} h := by
    refine Eq.trans ?_ h
    unfold closeFrame attach
    repeat' split
    all_goals rfl
  nest h := congrArg List.tail h

theorem moves_rules (input : Input) : Moves input fun r r' => r'.rules = r.rules :=
  (steps_rules input).toMoves

variable {kinds : Array Kind} {caret : Nat} {r : Reading}

-- What the caret is asked for does not steer the reading: the step makes the same offers, and only
-- what is kept of them differs.
def Recorded (kinds : Array Kind) (caret : Nat) (step : Input → Reading → Bool × Reading)
    (r : Reading) : Prop :=
  ∃ (taken : Bool) (r' : Reading) (log : List Offered),
    r'.rules = r.rules ∧ (∀ offered ∈ log, offered.Fair) ∧
    ∀ preferred ignored candidates,
      step ⟨kinds, some ⟨caret, preferred, ignored⟩⟩ (r.collected candidates) =
        (taken, r'.collected (log.foldl (Offered.addTo preferred ignored) candidates))

namespace Recorded

variable {step step' : Input → Reading → Bool × Reading}

theorem silent (taken : Bool) {r' : Reading} (hrules : r'.rules = r.rules)
    (hstep : ∀ preferred ignored candidates,
      step ⟨kinds, some ⟨caret, preferred, ignored⟩⟩ (r.collected candidates) =
        (taken, r'.collected candidates)) : Recorded kinds caret step r :=
  ⟨taken, r', [], hrules, by simp, hstep⟩

theorem bind (h : Recorded kinds caret step r) (next : Bool → Input → Reading → Bool × Reading)
    (hnext : ∀ taken r', r'.rules = r.rules → Recorded kinds caret (next taken) r')
    (heq : ∀ input r, step' input r = next (step input r).1 input (step input r).2) :
    Recorded kinds caret step' r := by
  obtain ⟨taken, r₁, log₁, hrules₁, hfair₁, hstep₁⟩ := h
  obtain ⟨taken', r₂, log₂, hrules₂, hfair₂, hstep₂⟩ := hnext taken r₁ hrules₁
  refine ⟨taken', r₂, log₁ ++ log₂, hrules₂.trans hrules₁, ?_, ?_⟩
  · intro offered hmem
    exact (List.mem_append.1 hmem).elim (hfair₁ offered) (hfair₂ offered)
  · intro preferred ignored candidates
    rw [heq, hstep₁, hstep₂, List.foldl_append]

theorem branch {yes no : Input → Reading → Bool × Reading} (h : Recorded kinds caret step r)
    (hyes : ∀ r', r'.rules = r.rules → Recorded kinds caret yes r')
    (hno : ∀ r', r'.rules = r.rules → Recorded kinds caret no r')
    (heq : ∀ input r, step' input r = bif (step input r).1 then yes input (step input r).2
      else no input (step input r).2) : Recorded kinds caret step' r := by
  refine h.bind (fun taken input r => bif taken then yes input r else no input r)
    (fun taken r' hrules => ?_) heq
  cases taken with
  | true => exact hyes r' hrules
  | false => exact hno r' hrules

theorem pure (taken : Bool) (r : Reading) : Recorded kinds caret (fun _ r => (taken, r)) r :=
  .silent taken rfl fun _ _ _ => rfl

end Recorded

section Tests

variable (preferred : List Rule) (ignored : List Kind) (candidates : Candidates Kind Rule)

theorem bump_collected (r : Reading) :
    (r.collected candidates).bump ⟨kinds, some ⟨caret, preferred, ignored⟩⟩ =
      (r.bump ⟨kinds, some ⟨caret, [], []⟩⟩).collected candidates := by
  by_cases hlt : r.pos + 1 < kinds.size <;> simp [bump, collected, hlt]

theorem bumps_collected (count : Nat) (r : Reading) :
    (r.collected candidates).bumps ⟨kinds, some ⟨caret, preferred, ignored⟩⟩ count =
      (r.bumps ⟨kinds, some ⟨caret, [], []⟩⟩ count).collected candidates := by
  induction count generalizing r with
  | zero => rfl
  | succ count ih => rw [bumps, bump_collected, ih, bumps]

theorem peek_collected (ahead : Nat) :
    (r.collected candidates).peek ⟨kinds, some ⟨caret, preferred, ignored⟩⟩ ahead =
      r.peek ⟨kinds, some ⟨caret, [], []⟩⟩ ahead := rfl

theorem complain_collected (cause : Cause) :
    (r.collected candidates).complain cause = (r.complain cause).collected candidates := rfl

theorem sees_collected (ahead : Nat) (ks : List Kind) :
    (r.collected candidates).sees ⟨kinds, some ⟨caret, preferred, ignored⟩⟩ ahead ks =
      r.sees ⟨kinds, some ⟨caret, [], []⟩⟩ ahead ks := by
  induction ks generalizing ahead with
  | nil => rfl
  | cons kind ks ih =>
      rw [sees, sees, ih]
      rfl

theorem offerTo_collected (kind : Kind) (follow : List Kind) :
    (r.collected candidates).offerTo ⟨caret, preferred, ignored⟩ kind follow =
      r.collected (Offered.addTo preferred ignored candidates ⟨r.rules, kind, follow⟩) := by
  unfold offerTo preferredRule? Offered.addTo
  change (match r.rules.reverse.find? (· ∈ preferred) with
    | some rule => _
    | none => _) = _
  cases r.rules.reverse.find? (· ∈ preferred) with
  | some rule => rfl
  | none => by_cases hkind : kind ∈ ignored <;> simp [hkind, collected]

theorem stuck_collected (cause : Cause) :
    (r.collected candidates).stuck ⟨kinds, some ⟨caret, preferred, ignored⟩⟩ cause =
      (r.stuck ⟨kinds, some ⟨caret, [], []⟩⟩ cause).collected candidates := by
  cases hr : r.halted <;> by_cases hcaret : caret ≤ r.pos <;>
    simp [stuck, collected, atCaret, complain, halt, hr, hcaret]

theorem skipToBoundary_collected (rounds : Nat) (r : Reading) :
    (r.collected candidates).skipToBoundary ⟨kinds, some ⟨caret, preferred, ignored⟩⟩ rounds =
      (r.skipToBoundary ⟨kinds, some ⟨caret, [], []⟩⟩ rounds).collected candidates := by
  induction rounds generalizing r with
  | zero => rfl
  | succ rounds ih =>
      rw [skipToBoundary, skipToBoundary, bump_collected, ih]
      exact (apply_ite _ _ _ _).symm

theorem mark_collected (note : Note) :
    (r.collected candidates).mark note = (r.mark note).collected candidates := by
  simp only [mark, collected]
  split
  · cases note <;> rfl
  · rfl

theorem closeFrame_collected (shape : Shape) :
    (r.collected candidates).closeFrame shape = (r.closeFrame shape).collected candidates := by
  cases hframes : r.frames with
  | nil => simp [closeFrame, collected, hframes]
  | cons frame frames => cases frames <;> simp [closeFrame, attach, collected, hframes]

theorem tooDeep_collected :
    (r.collected candidates).tooDeep = r.tooDeep.collected candidates := by
  cases hr : r.halted <;> simp [tooDeep, collected, complain, halt, hr]

end Tests

theorem accept_recorded (guard : Guard)
    (hoffer : ∀ kind follow, guard.offer? = some (kind, follow) →
      Offered.Fair ⟨r.rules, kind, follow⟩) :
    Recorded kinds caret (fun input r => r.accept input guard) r := by
  cases hr : r.halted with
  | true => exact .silent false rfl fun preferred ignored candidates => by simp [accept, hr]
  | false =>
      by_cases hcaret : caret ≤ r.pos
      · cases hguard : guard.offer? with
        | none =>
            refine .silent false rfl fun preferred ignored candidates => ?_
            simp [accept, hr, atCaret, hcaret, offer, hguard]
        | some made =>
            refine ⟨false, r, [⟨r.rules, made.1, made.2⟩], rfl, ?_, ?_⟩
            · intro offered hmem
              rw [List.mem_singleton.1 hmem]
              exact hoffer made.1 made.2 hguard
            · intro preferred ignored candidates
              simp [accept, hr, atCaret, hcaret, offer, hguard, offerTo_collected]
      · cases hsees : r.sees ⟨kinds, some ⟨caret, [], []⟩⟩ 0 guard.kinds with
        | true =>
            refine .silent true ((moves_rules ⟨kinds, some ⟨caret, [], []⟩⟩).bumps guard.width r)
              fun preferred ignored candidates => ?_
            simp [accept, hr, atCaret, hcaret, sees_collected, hsees, bumps_collected]
        | false =>
            refine .silent false rfl fun preferred ignored candidates => ?_
            simp [accept, hr, atCaret, hcaret, sees_collected, hsees]

theorem stuck_recorded (cause : Cause) :
    Recorded kinds caret (fun input r => (false, r.stuck input cause)) r :=
  .silent false ((moves_rules _).stuck cause r) fun preferred ignored candidates => by
    rw [stuck_collected]

theorem recover_recorded (kind : Kind) :
    Recorded kinds caret (fun input r =>
      if r.peek input 0 ≠ .eof ∧ r.peek input 1 = kind then
        (true, (r.complain (.extraneous kind)).bumps input 2)
      else (false, r.stuck input (.missing kind))) r := by
  by_cases hnext : r.peek ⟨kinds, some ⟨caret, [], []⟩⟩ 0 ≠ .eof ∧
      r.peek ⟨kinds, some ⟨caret, [], []⟩⟩ 1 = kind
  · refine .silent true ((moves_rules ⟨kinds, some ⟨caret, [], []⟩⟩).bumps 2
      (r.complain (.extraneous kind))) fun preferred ignored candidates => ?_
    simp only [peek_collected, if_pos hnext, complain_collected, bumps_collected]
  · refine .silent false ((moves_rules ⟨kinds, some ⟨caret, [], []⟩⟩).stuck (.missing kind) r)
      fun preferred ignored candidates => ?_
    simp only [peek_collected, if_neg hnext, stuck_collected]

theorem need_recorded (kind : Kind) (hoffer : Offered.Fair ⟨r.rules, kind, []⟩) :
    Recorded kinds caret (fun input r => r.need input kind) r := by
  have haccept : Recorded kinds caret (fun input r => r.accept input (.token kind [])) r := by
    refine accept_recorded _ fun kind' follow h => ?_
    obtain ⟨rfl, rfl⟩ := Prod.mk.inj (Option.some.inj h)
    exact hoffer
  refine haccept.branch (fun r' _ => .pure true r') (fun r' _ => recover_recorded kind)
    fun input r => ?_
  simp only [need]
  split <;> simp [*]

theorem stray_recorded : Recorded kinds caret (fun input r => r.stray input) r := by
  by_cases hpeek : r.peek ⟨kinds, some ⟨caret, [], []⟩⟩ 0 = .eof
  · refine .silent false rfl fun preferred ignored candidates => ?_
    simp only [stray, peek_collected, hpeek, if_true]
  · refine .silent true ((moves_rules ⟨kinds, some ⟨caret, [], []⟩⟩).stray r)
      fun preferred ignored candidates => ?_
    simp only [stray, peek_collected, hpeek, if_false, complain_collected, bump_collected,
      skipToBoundary_collected]

theorem turns_recorded {step : Input → Reading → Bool × Reading} {rules : List Rule}
    (hstep : ∀ r : Reading, r.rules = rules → Recorded kinds caret step r) (rounds : Nat)
    (hr : r.rules = rules) :
    Recorded kinds caret (fun input r => (false, turns (step input) rounds r)) r := by
  induction rounds generalizing r with
  | zero => exact .pure false r
  | succ rounds ih =>
      refine (hstep r hr).branch (fun r' hrules => ih (hrules.trans hr))
        (fun r' _ => .pure false r')
        fun input r => ?_
      simp only [turns]
      split <;> simp [*]

theorem read_recorded {deeper : Input → Nest → Reading → Reading}
    (hdeeper : ∀ again (r : Reading), r.rules.any (· ∈ Rule.ofTables) = false →
      r.rules.any (· ∈ Rule.ofColumns) = false →
      Recorded kinds caret (fun input r => (false, deeper input again r)) r)
    (phrase : Phrase) (htells : phrase.tells = true)
    (hunmixed : phrase.unmixed (r.rules.any (· ∈ Rule.ofTables))
      (r.rules.any (· ∈ Rule.ofColumns)) = true) :
    Recorded kinds caret (fun input r => phrase.read input (deeper input) r) r := by
  induction phrase generalizing r with
  | nothing => exact .pure false r
  | accept guard =>
      refine accept_recorded guard fun kind follow hguard =>
        ⟨?_, by simpa [Phrase.unmixed] using hunmixed⟩
      simpa [Phrase.tells, hguard] using htells
  | need kind =>
      refine need_recorded kind ⟨?_, by simpa [Phrase.unmixed] using hunmixed⟩
      exact (List.isEmpty_iff.1 htells).symm
  | fail => exact stuck_recorded .noAlternative
  | stray => exact stray_recorded
  | note role =>
      refine .silent false ((steps_rules ⟨kinds, none⟩).mark role r)
        fun preferred ignored candidates => ?_
      simp only [Phrase.read, mark_collected]
  | seq first second ih₁ ih₂ =>
      simp only [Phrase.tells, Phrase.unmixed, Bool.and_eq_true] at htells hunmixed
      refine (ih₁ htells.1 hunmixed.1).bind (fun _ input r => second.read input (deeper input) r)
        (fun taken r' hrules => ih₂ htells.2 ?_) fun input r => rfl
      rw [hrules]
      exact hunmixed.2
  | ifElse test yes no iht ihy ihn =>
      simp only [Phrase.tells, Phrase.unmixed, Bool.and_eq_true] at htells hunmixed
      have hyes (r' : Reading) (hrules : r'.rules = r.rules) :
          Recorded kinds caret (fun input r => (true, (yes.read input (deeper input) r).2)) r' :=
        (ihy htells.1.2 (by rw [hrules]; exact hunmixed.1.2)).bind (fun _ _ r => (true, r))
          (fun _ r' _ => .pure true r') fun input r => rfl
      refine (iht htells.1.1 hunmixed.1.1).branch hyes
        (fun r' hrules => ihn htells.2 (by rw [hrules]; exact hunmixed.2)) fun input r => ?_
      simp only [Phrase.read]
      split <;> simp [*]
  | many body ih =>
      refine turns_recorded (fun r' hrules => ih htells ?_) kinds.size rfl
      rw [hrules]
      exact hunmixed
  | rule name body ih =>
      obtain ⟨taken, r', log, hrules, hfair, hread⟩ := ih (r := r.enter name) htells (by
        simpa [Phrase.unmixed, enter] using hunmixed)
      refine ⟨taken, r'.leave, log, congrArg List.tail hrules, hfair, ?_⟩
      intro preferred ignored candidates
      simp only [Phrase.read]
      exact congrArg (fun result => (result.1, result.2.leave)) (hread preferred ignored candidates)
  | node shape body ih =>
      obtain ⟨taken, r', log, hrules, hfair, hread⟩ := ih (r := r.openFrame) htells hunmixed
      refine ⟨taken, r'.closeFrame shape, log, (steps_rules ⟨kinds, none⟩).node hrules, hfair, ?_⟩
      intro preferred ignored candidates
      rw [← closeFrame_collected]
      exact congrArg (fun result => (result.1, result.2.closeFrame shape))
        (hread preferred ignored candidates)
  | nest again =>
      simp only [Phrase.unmixed, Bool.and_eq_true, Bool.not_eq_true'] at hunmixed
      exact hdeeper again r hunmixed.1 hunmixed.2

theorem nestRead_recorded (levels : Nat) (again : Nest) (r : Reading)
    (htable : r.rules.any (· ∈ Rule.ofTables) = false)
    (hcolumn : r.rules.any (· ∈ Rule.ofColumns) = false) :
    Recorded kinds caret (fun input r => (false, Nest.read input levels again r)) r := by
  induction levels generalizing again r with
  | zero =>
      refine .silent false ((steps_rules ⟨kinds, none⟩).nestRead 0 again r)
        fun preferred ignored candidates => ?_
      simp only [Nest.read, tooDeep_collected]
      rfl
  | succ levels ih =>
      have hin : (Grammar.body again).unmixed ((r.descend again).rules.any (· ∈ Rule.ofTables))
          ((r.descend again).rules.any (· ∈ Rule.ofColumns)) = true := by
        have hrule : again.rule ∉ Rule.ofTables ∧ again.rule ∉ Rule.ofColumns := by
          cases again <;> decide
        simp only [descend, List.any_cons, htable, hcolumn, hrule, decide_false, Bool.or_false]
        exact unmixed_grammar.2 again
      obtain ⟨taken, r', log, hrules, hfair, hread⟩ := read_recorded ih (Grammar.body again)
        (tells_grammar.2 again) hin
      refine ⟨false, r'.ascend, log, congrArg List.tail hrules, hfair, ?_⟩
      intro preferred ignored candidates
      exact congrArg (fun result => (false, result.2.ascend)) (hread preferred ignored candidates)

end Reading

namespace Offered

variable {preferred : List Rule} {ignored : List Kind} {candidates : Candidates Kind Rule}

def Shown (preferred : List Rule) (ignored : List Kind) (offered : Offered) : Prop :=
  (∀ rule ∈ offered.rules, rule ∉ preferred) ∧ offered.kind ∉ ignored

theorem addTo_of_preferred {offered : Offered}
    (h : ¬ ∀ rule ∈ offered.rules, rule ∉ preferred) :
    ∃ rule ∈ preferred, ∀ ignored candidates,
      addTo preferred ignored candidates offered = candidates.addRule rule := by
  cases hfind : offered.rules.reverse.find? (· ∈ preferred) with
  | none => exact absurd (by simpa [List.find?_eq_none] using hfind) h
  | some rule =>
      refine ⟨rule, by simpa using List.find?_some hfind, fun ignored candidates => ?_⟩
      simp only [addTo, hfind]

theorem addTo_of_free {offered : Offered} (hfree : ∀ rule ∈ offered.rules, rule ∉ preferred) :
    addTo preferred ignored candidates offered =
      if offered.kind ∈ ignored then candidates
      else candidates.addToken offered.kind offered.follow := by
  have hfind : offered.rules.reverse.find? (· ∈ preferred) = none := by
    simpa [List.find?_eq_none] using hfree
  simp only [addTo, hfind]

theorem mem_tokens_addTo (preferred : List Rule) (ignored : List Kind) {offered : Offered}
    (hoffered : offered.Fair)
    (hcandidates : ∀ candidate ∈ candidates.tokens, candidate.2 = candidate.1.follow)
    (candidate : Kind × List Kind) :
    candidate ∈ (addTo preferred ignored candidates offered).tokens ↔
      candidate ∈ candidates.tokens ∨
        offered.Shown preferred ignored ∧ candidate = (offered.kind, offered.kind.follow) := by
  by_cases hfree : ∀ rule ∈ offered.rules, rule ∉ preferred
  · rw [addTo_of_free hfree, hoffered.follow]
    by_cases hignored : offered.kind ∈ ignored
    · simp [hignored, Shown]
    · have hshown : offered.Shown preferred ignored := ⟨hfree, hignored⟩
      rw [if_neg hignored, Candidates.addToken]
      split
      · next hkind =>
          obtain ⟨old, hold, hfst⟩ := List.mem_map.1 hkind
          have heq : old = (offered.kind, offered.kind.follow) :=
            Prod.ext hfst (by rw [hcandidates old hold, hfst])
          exact ⟨.inl, fun h => h.elim (fun h => h) fun h => h.2 ▸ heq ▸ hold⟩
      · simp [hshown]
  · have hshown : ¬ offered.Shown preferred ignored := fun h => hfree h.1
    obtain ⟨rule, -, heq⟩ := addTo_of_preferred hfree
    simp only [heq, Candidates.addRule, hshown, false_and, or_false]
    split <;> rfl

theorem mem_tokens_foldl {log : List Offered} (hlog : ∀ offered ∈ log, offered.Fair)
    (hcandidates : ∀ candidate ∈ candidates.tokens, candidate.2 = candidate.1.follow)
    (candidate : Kind × List Kind) :
    candidate ∈ (log.foldl (addTo preferred ignored) candidates).tokens ↔
      candidate ∈ candidates.tokens ∨ ∃ offered ∈ log,
        offered.Shown preferred ignored ∧ candidate = (offered.kind, offered.kind.follow) := by
  induction log generalizing candidates with
  | nil => simp
  | cons offered log ih =>
      have hfirst := mem_tokens_addTo preferred ignored
        (hlog offered List.mem_cons_self) hcandidates
      have hkept : ∀ candidate ∈ (addTo preferred ignored candidates offered).tokens,
          candidate.2 = candidate.1.follow := by
        intro candidate hmem
        rcases (hfirst candidate).1 hmem with hold | ⟨-, rfl⟩
        · exact hcandidates candidate hold
        · rfl
      rw [List.foldl_cons, ih (fun o ho => hlog o (List.mem_cons_of_mem _ ho)) hkept,
        hfirst, or_assoc, List.exists_mem_cons_iff]

theorem mem_rules_foldl {log : List Offered} {rule : Rule}
    (h : rule ∈ (log.foldl (addTo preferred ignored) candidates).rules) :
    rule ∈ candidates.rules ∨ rule ∈ preferred := by
  induction log generalizing candidates with
  | nil => exact .inl h
  | cons offered log ih =>
      rcases ih h with hold | hnew
      · by_cases hfree : ∀ rule ∈ offered.rules, rule ∉ preferred
        · rw [addTo_of_free hfree] at hold
          unfold Candidates.addToken at hold
          repeat' split at hold
          all_goals exact .inl hold
        · obtain ⟨added, hadded, heq⟩ := addTo_of_preferred hfree
          rw [heq, Candidates.addRule] at hold
          split at hold
          · exact .inl hold
          · rcases List.mem_append.1 hold with hold | hlast
            · exact .inl hold
            · exact .inr (List.mem_singleton.1 hlast ▸ hadded)
      · exact .inr hnew

end Offered

section Passes

variable (kinds : Array Kind) (caret : Nat) (ignored : List Kind)

theorem Input.read_recorded : ∃ log : List Offered, (∀ offered ∈ log, offered.Fair) ∧
    ∀ preferred ignored, (Input.read ⟨kinds, some ⟨caret, preferred, ignored⟩⟩).candidates =
      log.foldl (Offered.addTo preferred ignored) .empty := by
  by_cases hkinds : kinds.isEmpty
  · exact ⟨[], by simp, fun preferred ignored => by simp [Input.read, hkinds, Reading.begin]⟩
  · have hscript : Reading.Recorded kinds caret
        (fun input r => Grammar.script.read input (Nest.read input nestingLimit) r) .begin :=
      Reading.read_recorded (Reading.nestRead_recorded nestingLimit) _ tells_grammar.1
        unmixed_grammar.1
    obtain ⟨taken, r', log, -, hfair, hread⟩ := hscript
    refine ⟨log, hfair, fun preferred ignored => ?_⟩
    simp only [Input.read, hkinds]
    exact congrArg (fun result => result.2.candidates) (hread preferred ignored .empty)

theorem Input.rules_read_subset (preferred : List Rule) :
    (Input.read ⟨kinds, some ⟨caret, preferred, ignored⟩⟩).candidates.rules ⊆ preferred := by
  obtain ⟨log, -, hread⟩ := Input.read_recorded kinds caret
  intro rule hrule
  rw [hread] at hrule
  exact (Offered.mem_rules_foldl hrule).resolve_left (by simp [Candidates.empty])

theorem Input.mem_tokens_passes (candidate : Kind × List Kind) :
    candidate ∈ (Input.read ⟨kinds, some ⟨caret, [], ignored⟩⟩).candidates.tokens ↔
      candidate ∈ (Input.read ⟨kinds, some ⟨caret, Rule.ofTables, ignored⟩⟩).candidates.tokens ∨
        candidate ∈ (Input.read
          ⟨kinds, some ⟨caret, Rule.ofColumns, ignored⟩⟩).candidates.tokens := by
  obtain ⟨log, hfair, hread⟩ := Input.read_recorded kinds caret
  have hmem (preferred : List Rule) :
      candidate ∈ (Input.read ⟨kinds, some ⟨caret, preferred, ignored⟩⟩).candidates.tokens ↔
        ∃ offered ∈ log, offered.Shown preferred ignored ∧
          candidate = (offered.kind, offered.kind.follow) := by
    rw [hread, Offered.mem_tokens_foldl hfair (by simp [Candidates.empty])]
    simp [Candidates.empty]
  rw [hmem, hmem, hmem]
  constructor
  · rintro ⟨offered, hlog, hshown, heq⟩
    rcases (hfair offered hlog).unmixed with htables | hcolumns
    · exact .inl ⟨offered, hlog, ⟨htables, hshown.2⟩, heq⟩
    · exact .inr ⟨offered, hlog, ⟨hcolumns, hshown.2⟩, heq⟩
  · rintro (⟨offered, hlog, hshown, heq⟩ | ⟨offered, hlog, hshown, heq⟩) <;>
      exact ⟨offered, hlog, ⟨by simp, hshown.2⟩, heq⟩

end Passes

end SqlAtlas
