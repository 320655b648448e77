import SqlAtlas.Dialect.Generic
import SqlAtlas.Proofs.Advance

namespace SqlAtlas

structure Input.Alike (input other : Input) (watch : Watch) : Prop where
  watched : input.watch? = some watch
  watched' : other.watch? = some watch
  size : watch.caret < input.kinds.size
  size' : watch.caret < other.kinds.size
  kinds : ∀ i < watch.caret, input.kinds[i]? = other.kinds[i]?

namespace Input.Alike

variable {input other : Input} {watch : Watch} (h : input.Alike other watch)
include h

theorem lt_caret {i : Nat} (hi : input.shown i ≠ .eof) : i < watch.caret := by
  refine Nat.lt_of_not_le fun hle => hi ?_
  simp [Input.shown, h.watched, hle]

theorem ends : input.Ends := by
  intro i hi
  have hlt := h.lt_caret hi
  have hsize := h.size
  omega

theorem shown (i : Nat) : input.shown i = other.shown i := by
  simp only [Input.shown, h.watched, h.watched', Option.any_some, decide_eq_true_eq]
  split
  · rfl
  · next hlt => rw [h.kinds i (Nat.lt_of_not_le hlt)]

variable {r : Reading}

theorem peek (i : Nat) : r.peek input i = r.peek other i := by
  cases hr : r.halted with
  | true => rw [Reading.peek_of_halted hr, Reading.peek_of_halted hr]
  | false => rw [Reading.peek_eq_shown hr, Reading.peek_eq_shown hr, h.shown]

theorem peek_lt {i : Nat} (hi : r.peek input i ≠ .eof) : r.pos + i < watch.caret :=
  h.lt_caret (Reading.peek_eq_shown (Reading.halted_of_peek hi) i ▸ hi)

theorem atCaret : r.atCaret input = r.atCaret other := by
  rw [Reading.atCaret, Reading.atCaret, h.watched, h.watched']

theorem sees (kinds : List Kind) (i : Nat) : r.sees input i kinds = r.sees other i kinds := by
  induction kinds generalizing i with
  | nil => rfl
  | cons kind kinds ih => rw [Reading.sees, Reading.sees, h.peek, ih]

theorem sees_le {kinds : List Kind} (heof : Kind.eof ∉ kinds) {i : Nat}
    (hi : r.pos + i ≤ watch.caret) (hsees : r.sees input i kinds = true) :
    r.pos + i + kinds.length ≤ watch.caret := by
  induction kinds generalizing i with
  | nil => exact hi
  | cons kind kinds ih =>
      obtain ⟨hkind, hrest⟩ := Reading.sees_cons hsees
      have hne : r.peek input i ≠ .eof := fun hk => heof (by simp [← hkind, hk])
      have hlt := h.peek_lt hne
      have hmore := ih (fun hk => heof (by simp [hk])) (i := i + 1) (by omega) hrest
      rw [List.length_cons]
      omega

theorem bump (hr : r.pos < watch.caret) :
    r.bump input = r.bump other ∧ (r.bump input).pos = r.pos + 1 := by
  have hsize := h.size
  have hsize' := h.size'
  rw [Reading.bump, Reading.bump, if_pos (by omega), if_pos (by omega)]
  exact ⟨rfl, rfl⟩

theorem bumps (count : Nat) (hr : r.pos + count ≤ watch.caret) :
    r.bumps input count = r.bumps other count ∧ (r.bumps input count).pos ≤ watch.caret := by
  induction count generalizing r with
  | zero => exact ⟨rfl, hr⟩
  | succ count ih =>
      obtain ⟨heq, hpos⟩ := h.bump (r := r) (by omega)
      rw [Reading.bumps, Reading.bumps, ← heq]
      exact ih (by omega)

theorem offer (offer? : Option Offer) : r.offer input offer? = r.offer other offer? := by
  simp only [Reading.offer, h.watched, h.watched']

theorem accept {guard : Guard} (heof : Kind.eof ∉ guard.kinds) (hr : r.pos ≤ watch.caret) :
    r.accept input guard = r.accept other guard ∧ (r.accept input guard).2.pos ≤ watch.caret := by
  simp only [Reading.accept, h.atCaret (r := r), h.offer, h.sees]
  split
  · exact ⟨rfl, hr⟩
  · split
    · refine ⟨rfl, ?_⟩
      rw [(Reading.offer_frame other _ r).1]
      exact hr
    · split
      · next hsees =>
          have hroom := h.sees_le heof (i := 0) hr (h.sees guard.kinds 0 ▸ hsees)
          have hwidth := guard.width_le_length
          obtain ⟨heq, hpos⟩ := h.bumps (r := r) guard.width (by omega)
          exact ⟨by rw [heq], hpos⟩
      · exact ⟨rfl, hr⟩

theorem stuck (cause : Cause) : r.stuck input cause = r.stuck other cause := by
  rw [Reading.stuck, Reading.stuck, h.atCaret]

theorem need {kind : Kind} (hkind : kind ≠ .eof) (hr : r.pos ≤ watch.caret) :
    r.need input kind = r.need other kind ∧ (r.need input kind).2.pos ≤ watch.caret := by
  have heof : Kind.eof ∉ (Guard.token kind []).kinds := by simpa [Guard.kinds] using hkind.symm
  obtain ⟨haccept, hpos⟩ := h.accept heof hr
  unfold Reading.need
  rw [← haccept]
  split
  · next r₁ hr₁ =>
      rw [hr₁] at hpos
      exact ⟨rfl, hpos⟩
  · next r₁ hr₁ =>
      rw [hr₁] at hpos
      rw [← h.peek 0, ← h.peek 1]
      split
      · next hskip =>
          have hlt := h.peek_lt (r := r₁) (i := 1) (by rw [hskip.2]; exact hkind)
          obtain ⟨hbumps, hpos₂⟩ := h.bumps (r := r₁.complain (.extraneous kind)) 2 hlt
          exact ⟨by rw [hbumps], hpos₂⟩
      · refine ⟨by rw [h.stuck], ?_⟩
        rw [Reading.stuck_pos]
        exact hpos

theorem atBoundary : r.atBoundary input = r.atBoundary other := by
  simp only [Reading.atBoundary, h.peek 0]

theorem atBoundary_of_caret (hr : watch.caret ≤ r.pos) : r.atBoundary input = true := by
  have hpeek : r.peek input 0 = .eof := by simp [Reading.peek, h.watched, hr]
  simp [Reading.atBoundary, hpeek]

-- The rounds differ with the number of tokens behind the caret, but the caret stops both.
theorem skipToBoundary (rounds rounds' : Nat) (hr : r.pos ≤ watch.caret)
    (hrounds : watch.caret ≤ r.pos + rounds) (hrounds' : watch.caret ≤ r.pos + rounds') :
    r.skipToBoundary input rounds = r.skipToBoundary other rounds' ∧
      (r.skipToBoundary input rounds).pos ≤ watch.caret := by
  induction rounds generalizing r rounds' with
  | zero =>
      have hend := h.atBoundary_of_caret (r := r) hrounds
      rw [h.atBoundary] at hend
      cases rounds' with
      | zero => exact ⟨rfl, hr⟩
      | succ rounds' =>
          refine ⟨?_, hr⟩
          simp [Reading.skipToBoundary, hend]
  | succ rounds ih =>
      cases hend : r.atBoundary input with
      | true =>
          have hend' := h.atBoundary (r := r) ▸ hend
          cases rounds' <;> simp [Reading.skipToBoundary, hend, hend', hr]
      | false =>
          have hend' := h.atBoundary (r := r) ▸ hend
          have hlt : r.pos < watch.caret := by
            refine Nat.lt_of_not_le fun hle => ?_
            rw [h.atBoundary_of_caret hle] at hend
            cases hend
          obtain ⟨heq, hpos⟩ := h.bump hlt
          cases rounds' with
          | zero => omega
          | succ rounds' =>
              simp only [Reading.skipToBoundary, hend, hend', ← heq]
              exact ih rounds' (by omega) (by omega) (by omega)

theorem stray (hr : r.pos ≤ watch.caret) :
    r.stray input = r.stray other ∧ (r.stray input).2.pos ≤ watch.caret := by
  unfold Reading.stray
  rw [← h.peek 0]
  split
  · exact ⟨rfl, hr⟩
  · next heof =>
      have hsize := h.size
      have hsize' := h.size'
      obtain ⟨heq, hpos⟩ := h.bump (r := r.complain .stray) (h.peek_lt heof)
      have hlt := h.peek_lt heof
      obtain ⟨hskip, hpos₂⟩ := h.skipToBoundary (r := (r.complain .stray).bump input)
        input.kinds.size other.kinds.size (hpos ▸ hlt) (by omega) (by omega)
      rw [← heq, ← hskip]
      exact ⟨rfl, hpos₂⟩

omit h in
theorem turns {step step' : Reading → Bool × Reading} {caret : Nat}
    (hstep : ∀ r : Reading, r.pos ≤ caret → step r = step' r ∧ (step r).2.pos ≤ caret)
    (hmove : ∀ r : Reading, (step r).1 = true →
      r.pos < caret ∧ r.halted = false ∧ ((step r).2.halted = true ∨ r.pos < (step r).2.pos))
    (rounds rounds' : Nat) (hr : r.pos ≤ caret)
    (hrounds : r.halted = false → caret < r.pos + rounds)
    (hrounds' : r.halted = false → caret < r.pos + rounds') (hsome : 0 < rounds)
    (hsome' : 0 < rounds') :
    Reading.turns step rounds r = Reading.turns step' rounds' r ∧
      (Reading.turns step rounds r).pos ≤ caret := by
  induction rounds generalizing r rounds' with
  | zero => omega
  | succ rounds ih =>
      obtain ⟨rounds', rfl⟩ := Nat.exists_eq_succ_of_ne_zero (Nat.ne_of_gt hsome')
      obtain ⟨heq, hpos⟩ := hstep r hr
      cases hs : step r with
      | mk taken r₁ =>
          have hs' : step' r = (taken, r₁) := heq ▸ hs
          rw [hs] at hpos
          cases taken with
          | false =>
              simp only [Reading.turns, hs, hs']
              exact ⟨trivial, hpos⟩
          | true =>
              simp only [Reading.turns, hs, hs']
              obtain ⟨hlt, hhalted, hmoved⟩ := hmove r (by rw [hs])
              have hfuel := hrounds hhalted
              have hfuel' := hrounds' hhalted
              rw [hs] at hmoved
              refine ih _ hpos ?_ ?_ (by omega) (by omega)
              all_goals
                intro hrun
                rcases hmoved with hstop | hmore
                · rw [hrun] at hstop
                  cases hstop
                · simp only at hmore
                  omega

theorem read {deeper deeper' : Nest → Reading → Reading}
    (honward : ∀ again r, Reading.Onward r (deeper again r))
    (hblind : ∀ again (r : Reading), r.peek input 0 = .eof → (deeper again r).pos = r.pos)
    (hdeeper : ∀ again (r : Reading), r.pos ≤ watch.caret →
      deeper again r = deeper' again r ∧ (deeper again r).pos ≤ watch.caret)
    (phrase : Phrase) (hsane : phrase.sane = true) (hadv : phrase.advancing = true)
    (hr : r.pos ≤ watch.caret) :
    phrase.read input deeper r = phrase.read other deeper' r ∧
      (phrase.read input deeper r).2.pos ≤ watch.caret := by
  induction phrase generalizing r with
  | nothing => exact ⟨rfl, hr⟩
  | accept guard =>
      simp only [Phrase.sane, Bool.and_eq_true, Bool.not_eq_true', List.contains_eq_mem,
        decide_eq_false_iff_not] at hsane
      exact h.accept hsane.2 hr
  | need kind => exact h.need (by simpa [Phrase.sane] using hsane) hr
  | fail =>
      refine ⟨congrArg (Prod.mk false) (h.stuck .noAlternative), ?_⟩
      simp only [Phrase.read, Reading.stuck_pos]
      exact hr
  | stray => exact h.stray hr
  | note role => exact ⟨rfl, (Reading.mark_frame role r).1 ▸ hr⟩
  | seq first second ih₁ ih₂ =>
      simp only [Phrase.sane, Phrase.advancing, Bool.and_eq_true] at hsane hadv
      obtain ⟨hfirst, hpos⟩ := ih₁ hsane.1 hadv.1 hr
      simp only [Phrase.read, ← hfirst]
      exact ih₂ hsane.2 hadv.2 hpos
  | ifElse test yes no iht ihy ihn =>
      simp only [Phrase.sane, Phrase.advancing, Bool.and_eq_true] at hsane hadv
      obtain ⟨htest, hpos⟩ := iht hsane.1.1 hadv.1.1 hr
      simp only [Phrase.read, ← htest]
      split
      · next r₁ hr₁ =>
          rw [hr₁] at hpos
          obtain ⟨hyes, hpos₂⟩ := ihy hsane.1.2 hadv.1.2 hpos
          exact ⟨by rw [hyes], hpos₂⟩
      · next r₁ hr₁ =>
          rw [hr₁] at hpos
          exact ihn hsane.2 hadv.2 hpos
  | many body ih =>
      simp only [Phrase.sane, Phrase.advancing, Bool.and_eq_true, List.isEmpty_iff] at hsane hadv
      have hsize := h.size
      have hsize' := h.size'
      have hmove (r : Reading) (htaken : (body.read input deeper r).1 = true) :
          r.pos < watch.caret ∧ r.halted = false ∧ ((body.read input deeper r).2.halted = true ∨
            r.pos < (body.read input deeper r).2.pos) := by
        obtain ⟨hpeek, hmoved⟩ := Reading.taken_moves h.ends honward hblind hsane hadv.1 htaken
        exact ⟨h.peek_lt hpeek, Reading.halted_of_peek hpeek, hmoved⟩
      obtain ⟨hturns, hpos⟩ := turns (fun r hr => ih hsane hadv.2 hr) hmove
        input.kinds.size other.kinds.size hr
        (by omega) (by omega) (by omega) (by omega)
      exact ⟨congrArg (Prod.mk false) hturns, hpos⟩
  | rule name body ih =>
      obtain ⟨hbody, hpos⟩ := ih (r := r.enter name) hsane hadv hr
      simp only [Phrase.read, ← hbody]
      exact ⟨trivial, hpos⟩
  | node shape body ih =>
      obtain ⟨hbody, hpos⟩ := ih (r := r.openFrame) hsane hadv hr
      simp only [Phrase.read, ← hbody]
      exact ⟨trivial, Nat.le_trans (Nat.le_of_eq (Reading.closeFrame_frame shape _).1) hpos⟩
  | nest again =>
      obtain ⟨heq, hpos⟩ := hdeeper again r hr
      exact ⟨congrArg (Prod.mk false) heq, hpos⟩

theorem nestRead (levels : Nat) (again : Nest) (hr : r.pos ≤ watch.caret) :
    Nest.read input levels again r = Nest.read other levels again r ∧
      (Nest.read input levels again r).pos ≤ watch.caret := by
  induction levels generalizing again r with
  | zero => exact ⟨rfl, Reading.tooDeep_pos r ▸ hr⟩
  | succ levels ih =>
      obtain ⟨hbody, hpos⟩ := h.read (Reading.onward_nestRead input levels)
        (fun again r hr => Reading.nestRead_of_blind levels again hr)
        (fun again r hr => ih again hr) (Grammar.body again) (Grammar.sane_body again)
        (Grammar.advancing_body again) (r := r.descend again) hr
      simp only [Nest.read, ← hbody]
      exact ⟨trivial, hpos⟩

theorem inputRead : input.read = other.read := by
  have hsize := h.size
  have hsize' := h.size'
  have hsome (input : Input) (hlt : watch.caret < input.kinds.size) :
      input.kinds.isEmpty = false := by
    simpa [Array.isEmpty] using Nat.ne_of_gt (Nat.zero_lt_of_lt hlt)
  obtain ⟨hscript, -⟩ := h.read (Reading.onward_nestRead input nestingLimit)
    (fun again r hr => Reading.nestRead_of_blind nestingLimit again hr)
    (fun again r hr => h.nestRead nestingLimit again hr) Grammar.script Grammar.sane_script
    Grammar.advancing_script (r := Reading.begin) (Nat.zero_le _)
  simp [Input.read, hsome input hsize, hsome other hsize', hscript]

end Input.Alike

theorem collect_eq_of_kinds_before_caret (focus focus' : Focus) (script script' : String)
    (tokens tokens' : List (Token Kind)) (caret : Nat) (preferred : List Rule) (ignored : List Kind)
    (hcaret : caret < tokens.length) (hcaret' : caret < tokens'.length)
    (hkinds : (tokens.take caret).map Token.kind = (tokens'.take caret).map Token.kind) :
    Dialect.generic.collect ⟨focus, script, tokens, caret, preferred, ignored⟩ =
      Dialect.generic.collect ⟨focus', script', tokens', caret, preferred, ignored⟩ := by
  have halike : Input.Alike ⟨(tokens.map Token.kind).toArray, some ⟨caret, preferred, ignored⟩⟩
      ⟨(tokens'.map Token.kind).toArray, some ⟨caret, preferred, ignored⟩⟩
      ⟨caret, preferred, ignored⟩ := by
    refine ⟨rfl, rfl, by simpa using hcaret, by simpa using hcaret', fun i hi => ?_⟩
    have hget := congrArg (·[i]?) hkinds
    simpa [List.getElem?_take_of_lt hi] using hget
  exact congrArg Reading.candidates halike.inputRead

theorem collect_eq_of_kinds_before_caret_select :
    Dialect.generic.collect
      ⟨.tables, "SELECT", [⟨.keyword .SELECT, ⟨1, 1, 0, 5⟩⟩, ⟨.eof, ⟨1, 1, 6, 5⟩⟩],
        1, Rule.ofTables, [.comma]⟩ =
      Dialect.generic.collect ⟨.columns, "select , FROM", [⟨.keyword .SELECT, ⟨1, 1, 0, 5⟩⟩,
        ⟨.comma, ⟨1, 1, 7, 7⟩⟩, ⟨.keyword .FROM, ⟨1, 1, 9, 12⟩⟩], 1, Rule.ofTables, [.comma]⟩ :=
  collect_eq_of_kinds_before_caret _ _ _ _ _ _ _ _ _ (by decide) (by decide) rfl

end SqlAtlas
