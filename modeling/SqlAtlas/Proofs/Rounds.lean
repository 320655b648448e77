import SqlAtlas.Proofs.Advance

namespace SqlAtlas

namespace Phrase

def unlessNone (ks kinds : List Kind) : List Kind := if ks.isEmpty then [] else kinds

theorem mem_unlessNone {ks kinds : List Kind} {came kind : Kind} (hcame : came ∈ ks)
    (h : kind ∈ kinds) : kind ∈ unlessNone ks kinds := by
  rw [unlessNone, if_neg (by simpa using List.ne_nil_of_mem hcame)]
  exact h

-- The kinds among `ks` before which a phrase can halt with nothing read and come to this outcome.
def halts : Phrase → List Kind → Bool → List Kind
  | .nothing, _, _ | .note _, _, _ | .accept _, _, _ | .stray, _, _ => []
  | .need _, ks, taken | .fail, ks, taken => if taken then [] else ks.filter (· = .eof)
  | .nest _, ks, taken => if taken then [] else ks
  | .many body, ks, taken => if taken then [] else body.halts ks true ++ body.halts ks false
  | .seq first second, ks, taken =>
      (if taken then [] else first.halts ks true ++ first.halts ks false) ++
        unlessNone (first.stays ks true ++ first.stays ks false)
          (second.halts (first.stays ks true ++ first.stays ks false) taken)
  | .ifElse test yes no, ks, true =>
      test.halts ks true ++ unlessNone (test.stays ks true) (yes.halts (test.stays ks true) true ++
        yes.halts (test.stays ks true) false) ++ no.halts (test.stays ks false) true
  | .ifElse test _ no, ks, false => test.halts ks false ++ no.halts (test.stays ks false) false
  | .rule _ body, ks, taken | .node _ body, ks, taken => body.halts ks taken

def moving : Phrase → Bool
  | .seq first second => first.moving && second.moving
  | .ifElse test yes no => test.moving && yes.moving && no.moving
  | .many body => (body.halts Kind.all true).isEmpty && body.moving
  | .rule _ body | .node _ body => body.moving
  | _ => true

structure Fit (phrase : Phrase) : Prop where
  sane : phrase.sane = true
  advancing : phrase.advancing = true
  moving : phrase.moving = true

theorem Fit.of_seq {first second : Phrase} (h : (Phrase.seq first second).Fit) :
    first.Fit ∧ second.Fit := by
  obtain ⟨hsane, hadv, hmoving⟩ := h
  simp only [Phrase.sane, Phrase.advancing, Phrase.moving, Bool.and_eq_true] at hsane hadv hmoving
  exact ⟨⟨hsane.1, hadv.1, hmoving.1⟩, hsane.2, hadv.2, hmoving.2⟩

theorem Fit.of_ifElse {test yes no : Phrase} (h : (Phrase.ifElse test yes no).Fit) :
    test.Fit ∧ yes.Fit ∧ no.Fit := by
  obtain ⟨hsane, hadv, hmoving⟩ := h
  simp only [Phrase.sane, Phrase.advancing, Phrase.moving, Bool.and_eq_true] at hsane hadv hmoving
  exact ⟨⟨hsane.1.1, hadv.1.1, hmoving.1.1⟩, ⟨hsane.1.2, hadv.1.2, hmoving.1.2⟩, hsane.2, hadv.2,
    hmoving.2⟩

theorem Fit.of_many {body : Phrase} (h : (Phrase.many body).Fit) :
    body.Fit ∧ body.stays Kind.all true = [] ∧ body.halts Kind.all true = [] := by
  obtain ⟨hsane, hadv, hmoving⟩ := h
  simp only [Phrase.sane, Phrase.advancing, Phrase.moving, Bool.and_eq_true, List.isEmpty_iff]
    at hsane hadv hmoving
  exact ⟨⟨hsane, hadv.2, hmoving.2⟩, hadv.1, hmoving.1⟩

theorem Fit.of_rule {name : Rule} {body : Phrase} (h : (Phrase.rule name body).Fit) : body.Fit :=
  ⟨h.sane, h.advancing, h.moving⟩

theorem Fit.of_node {shape : Shape} {body : Phrase} (h : (Phrase.node shape body).Fit) : body.Fit :=
  ⟨h.sane, h.advancing, h.moving⟩

end Phrase

namespace Reading

variable {input : Input} {r r₁ r' : Reading}

theorem bumps_halted (count : Nat) (r : Reading) :
    (r.bumps input count).halted = r.halted := by
  induction count generalizing r with
  | zero => rfl
  | succ count ih =>
      rw [bumps, ih, bump]
      split <;> rfl

theorem accept_halted (guard : Guard) (r : Reading) :
    (r.accept input guard).2.halted = r.halted := by
  unfold accept
  split
  · rfl
  · split
    · exact (offer_frame input _ r).2.1
    · split
      · exact bumps_halted _ r
      · rfl

theorem skipToBoundary_halted (rounds : Nat) (r : Reading) :
    (r.skipToBoundary input rounds).halted = r.halted := by
  induction rounds generalizing r with
  | zero => rfl
  | succ rounds ih =>
      unfold skipToBoundary
      split
      · rfl
      · rw [ih]
        exact bumps_halted 1 r

theorem stray_halted (r : Reading) : (r.stray input).2.halted = r.halted := by
  unfold stray
  split
  · rfl
  · rw [skipToBoundary_halted]
    exact bumps_halted 1 (r.complain .stray)

theorem shown_of_atCaret (h : r.atCaret input = true) : input.shown r.pos = .eof := by
  unfold atCaret at h
  simp [Input.shown, h]

theorem shown_of_stuck {cause : Cause} (hr : r.halted = false)
    (h : (r.stuck input cause).halted = true) : input.shown r.pos = .eof := by
  unfold stuck at h
  split at h
  · next hhalted => exact absurd hhalted (by simp [hr])
  · split at h
    · next hcaret => exact shown_of_atCaret hcaret
    · exact absurd h (by simp [complain, hr])

def Halts (input : Input) (r r' : Reading) (ks : List Kind) : Prop :=
  r'.halted = true → r'.pos = r.pos → input.shown r.pos ∈ ks

theorem Halts.of_running {ks : List Kind} (h : r'.halted = false) : Halts input r r' ks := by
  intro hhalted
  rw [h] at hhalted
  cases hhalted

theorem Halts.via {first second kinds : List Kind} (hhalts : Halts input r r₁ first)
    (hstays : Stays input r r₁ kinds) (hon : Onward r r₁) (hon' : Onward r₁ r')
    (hnext : r₁.halted = false → input.shown r₁.pos ∈ kinds → Halts input r₁ r' second)
    (hhalted : r'.halted = true) (hpos : r'.pos = r.pos) :
    (r₁.halted = true ∧ input.shown r.pos ∈ first) ∨
      (input.shown r.pos ∈ kinds ∧ input.shown r.pos ∈ second) := by
  have hpos₁ : r₁.pos = r.pos := Nat.le_antisymm (hpos ▸ hon'.pos) hon.pos
  cases hr₁ : r₁.halted with
  | true => exact .inl ⟨rfl, hhalts hr₁ hpos₁⟩
  | false =>
      have hkinds := hstays hr₁ hpos₁
      have hsecond := hnext hr₁ (hpos₁ ▸ hkinds) hhalted (hpos.trans hpos₁.symm)
      rw [hpos₁] at hsecond
      exact .inr ⟨hkinds, hsecond⟩

theorem need_halts (kind : Kind) (hr : r.halted = false) {ks : List Kind}
    (hks : input.shown r.pos ∈ ks) :
    Halts input r (r.need input kind).2 ((Phrase.need kind).halts ks (r.need input kind).1) := by
  have hrun : (r.accept input (.token kind [])).2.halted = r.halted := accept_halted _ r
  have hon := (steps_onward input).accept (.token kind []) r
  rw [hr] at hrun
  unfold need
  split
  · next r₁ hr₁ =>
      rw [hr₁] at hrun
      exact .of_running hrun
  · next r₁ hr₁ =>
      rw [hr₁] at hrun hon
      split
      · exact .of_running ((bumps_halted 2 _).trans hrun)
      · intro hhalted hpos
        have heof := shown_of_stuck hrun hhalted
        have hpos₁ : r₁.pos = r.pos := (stuck_pos _ r₁).symm.trans hpos
        rw [hpos₁] at heof
        exact List.mem_filter.2 ⟨hks, decide_eq_true heof⟩

theorem turns_halts {step : Reading → Bool × Reading} (ks : Bool → List Kind)
    (honward : ∀ r, Onward r (step r).2)
    (hstep : Halts input r (step r).2 (ks (step r).1))
    (hmove : (step r).1 = true → (step r).2.halted = true ∨ r.pos < (step r).2.pos)
    (hr : r.halted = false) (rounds : Nat) :
    Halts input r (turns step rounds r) (ks true ++ ks false) := by
  cases rounds with
  | zero => exact .of_running hr
  | succ rounds =>
      have hfirst := honward r
      intro hhalted hpos
      unfold turns at hhalted hpos
      cases hs : step r with
      | mk taken r₁ =>
          rw [hs] at hfirst hstep hmove hhalted hpos
          cases taken with
          | false => exact List.mem_append_right _ (hstep hhalted hpos)
          | true =>
              have hrest := (Moves.turns (steps_onward input).toMoves honward rounds r₁).pos
              have hle : r.pos ≤ r₁.pos := hfirst.pos
              rcases hmove rfl with hhalted₁ | hlt
              · exact List.mem_append_left _ (hstep hhalted₁ (by simp only at hpos ⊢; omega))
              · simp only at hpos hlt
                omega

theorem read_halts (hends : input.Ends) {deeper : Nest → Reading → Reading}
    (honward : ∀ again r, Onward r (deeper again r))
    (hblind : ∀ again r, r.peek input 0 = .eof → (deeper again r).pos = r.pos)
    (phrase : Phrase) (hsane : phrase.sane = true) (hadv : phrase.advancing = true)
    (hr : r.halted = false) {ks : List Kind} (hks : input.shown r.pos ∈ ks) :
    Halts input r (phrase.read input deeper r).2
      (phrase.halts ks (phrase.read input deeper r).1) := by
  have hon (phrase : Phrase) (r : Reading) : Onward r (phrase.read input deeper r).2 :=
    onward_read honward phrase r
  have hidle {phrase : Phrase} (hsane : phrase.sane = true) {r : Reading} (hr : r.halted = true) :
      (phrase.read input deeper r).1 = false :=
    (read_of_blind honward hblind phrase hsane (peek_of_halted hr 0)).1
  induction phrase generalizing r ks with
  | nothing => exact .of_running hr
  | note role => exact .of_running ((mark_frame role r).2.trans hr)
  | accept guard => exact .of_running ((accept_halted guard r).trans hr)
  | stray => exact .of_running ((stray_halted r).trans hr)
  | need kind => exact need_halts kind hr hks
  | fail =>
      intro hhalted _
      exact List.mem_filter.2 ⟨hks, decide_eq_true (shown_of_stuck hr hhalted)⟩
  | nest again => exact fun _ _ => hks
  | seq first second ih₁ ih₂ =>
      simp only [Phrase.sane, Phrase.advancing, Bool.and_eq_true] at hsane hadv
      have hfirst := ih₁ hsane.1 hadv.1 hr hks
      have hstays := read_stays hends honward first hsane.1 hr hks
      intro hhalted hpos
      rcases hfirst.via hstays (hon first r) (hon second _)
        (fun hr₁ hmem => ih₂ hsane.2 hadv.2 hr₁ (mem_outcomes hmem)) hhalted hpos with
        ⟨hr₁, hmem⟩ | ⟨hmem, hsecond⟩
      · have hfalse : (Phrase.read input deeper (.seq first second) r).1 = false :=
          hidle hsane.2 hr₁
        rw [hfalse]
        exact List.mem_append_left _ (mem_outcomes hmem)
      · exact List.mem_append_right _ (Phrase.mem_unlessNone (mem_outcomes hmem) hsecond)
  | ifElse test yes no iht ihy ihn =>
      simp only [Phrase.sane, Phrase.advancing, Bool.and_eq_true] at hsane hadv
      have htest := iht hsane.1.1 hadv.1.1 hr hks
      have hstays := read_stays hends honward test hsane.1.1 hr hks
      have hon₁ := hon test r
      simp only [Phrase.read]
      split
      · next r₁ hread =>
          rw [hread] at htest hstays hon₁
          intro hhalted hpos
          rcases htest.via hstays hon₁ (hon yes r₁)
            (fun hr₁ hmem => ihy hsane.1.2 hadv.1.2 hr₁ hmem) hhalted hpos with
            ⟨-, hmem⟩ | ⟨hmem, hyes⟩
          · exact List.mem_append_left _ (List.mem_append_left _ hmem)
          · exact List.mem_append_left _
              (List.mem_append_right _ (Phrase.mem_unlessNone hmem (mem_outcomes hyes)))
      · next r₁ hread =>
          rw [hread] at htest hstays hon₁
          intro hhalted hpos
          rcases htest.via hstays hon₁ (hon no r₁)
            (fun hr₁ hmem => ihn hsane.2 hadv.2 hr₁ hmem) hhalted hpos with
            ⟨hr₁, hmem⟩ | ⟨-, hno⟩
          · rw [hidle hsane.2 hr₁]
            exact List.mem_append_left _ hmem
          · generalize (no.read input deeper r₁).1 = taken at hno ⊢
            cases taken with
            | true => exact List.mem_append_right _ hno
            | false => exact List.mem_append_right _ hno
  | many body ih =>
      simp only [Phrase.sane, Phrase.advancing, Bool.and_eq_true, List.isEmpty_iff] at hsane hadv
      refine turns_halts (body.halts ks) (hon body) (ih hsane hadv.2 hr hks) (fun htaken => ?_)
        hr _
      exact (taken_moves hends honward hblind hsane hadv.1 htaken).2
  | rule name body ih => exact ih (r := r.enter name) hsane hadv hr hks
  | node shape body ih =>
      obtain ⟨hpos, hhalted⟩ := closeFrame_frame shape (body.read input deeper r.openFrame).2
      have hbody := ih (r := r.openFrame) hsane hadv hr hks
      exact fun hh hp => hbody (hhalted.symm.trans hh) (hpos.symm.trans hp)

theorem taken_advances (hends : input.Ends) {deeper : Nest → Reading → Reading}
    (honward : ∀ again r, Onward r (deeper again r))
    (hblind : ∀ again r, r.peek input 0 = .eof → (deeper again r).pos = r.pos)
    {phrase : Phrase} (hfit : phrase.Fit) (hstays : phrase.stays Kind.all true = [])
    (hhalts : phrase.halts Kind.all true = [])
    (htaken : (phrase.read input deeper r).1 = true) :
    r.pos + 1 < input.kinds.size ∧ r.pos < (phrase.read input deeper r).2.pos := by
  obtain ⟨hpeek, hmoved⟩ := taken_moves hends honward hblind hfit.sane hstays htaken
  have hr := halted_of_peek hpeek
  refine ⟨hends r.pos (peek_eq_shown hr 0 ▸ hpeek), ?_⟩
  rcases hmoved with hhalted | hlt
  · refine Nat.lt_of_le_of_ne (onward_read honward phrase r).pos fun hpos => ?_
    have hread := read_halts hends honward hblind phrase hfit.sane hfit.advancing hr
      (Kind.mem_all (input.shown r.pos)) hhalted hpos.symm
    rw [htaken, hhalts] at hread
    cases hread
  · exact hlt

inductive Rounds (step : Reading → Bool × Reading) : Reading → Reading → Prop
  | last {r r' : Reading} : step r = (false, r') → Rounds step r r'
  | more {r r₁ r' : Reading} : step r = (true, r₁) → r.pos < r₁.pos → Rounds step r₁ r' →
      Rounds step r r'

theorem Rounds.unique {step : Reading → Bool × Reading} {s s' : Reading} (h : Rounds step r s)
    (h' : Rounds step r s') : s = s' := by
  induction h with
  | last hs =>
      cases h' with
      | last hs' => exact congrArg Prod.snd (hs.symm.trans hs')
      | more hs' => rw [hs] at hs'; cases hs'
  | more hs _ _ ih =>
      cases h' with
      | last hs' => rw [hs] at hs'; cases hs'
      | more hs' _ hrest =>
          rw [hs] at hs'
          cases hs'
          exact ih hrest

theorem rounds_turns {step : Reading → Bool × Reading} {size : Nat}
    (hmove : ∀ r, (step r).1 = true → r.pos + 1 < size ∧ r.pos < (step r).2.pos) (rounds : Nat)
    (hsome : 0 < rounds) (hrounds : r.pos + 1 < size → size ≤ r.pos + rounds) :
    Rounds step r (turns step rounds r) := by
  induction rounds generalizing r with
  | zero => omega
  | succ rounds ih =>
      have hfirst := hmove r
      unfold turns
      cases hs : step r with
      | mk taken r₁ =>
          rw [hs] at hfirst
          cases taken with
          | false => exact .last hs
          | true =>
              obtain ⟨hroom, hlt⟩ := hfirst rfl
              have henough := hrounds hroom
              simp only at hlt
              exact .more hs hlt (ih (by omega) (by omega))

theorem many_rounds (hends : input.Ends) (hsize : 0 < input.kinds.size)
    {deeper : Nest → Reading → Reading} (honward : ∀ again r, Onward r (deeper again r))
    (hblind : ∀ again r, r.peek input 0 = .eof → (deeper again r).pos = r.pos)
    {body : Phrase} (hfit : (Phrase.many body).Fit) (r : Reading) :
    Rounds (body.read input deeper) r ((Phrase.many body).read input deeper r).2 := by
  obtain ⟨hbody, hstays, hhalts⟩ := hfit.of_many
  exact rounds_turns (fun r => taken_advances hends honward hblind hbody hstays hhalts) _ hsize
    (fun _ => Nat.le_add_left _ _)

def skip (input : Input) (r : Reading) : Bool × Reading :=
  if r.atBoundary input then (false, r) else (true, r.bump input)

theorem skipToBoundary_eq_turns (rounds : Nat) (r : Reading) :
    r.skipToBoundary input rounds = turns (skip input) rounds r := by
  induction rounds generalizing r with
  | zero => rfl
  | succ rounds ih =>
      rw [skipToBoundary, turns, skip]
      split
      · rfl
      · exact ih _

theorem peek_of_not_atBoundary (h : r.atBoundary input = false) : r.peek input 0 ≠ .eof := by
  intro heof
  simp [atBoundary, heof] at h

theorem skip_rounds (hends : input.Ends) (hsize : 0 < input.kinds.size) (r : Reading) :
    Rounds (skip input) r (r.skipToBoundary input input.kinds.size) := by
  rw [skipToBoundary_eq_turns]
  refine rounds_turns (fun r htaken => ?_) _ hsize (fun _ => Nat.le_add_left _ _)
  cases hend : r.atBoundary input with
  | true => simp [skip, hend] at htaken
  | false =>
      have hpeek := peek_of_not_atBoundary hend
      have hbump := bump_pos hends hpeek
      simp only [skip, hend, Bool.false_eq_true, if_false]
      exact ⟨hends r.pos (peek_eq_shown (halted_of_peek hpeek) 0 ▸ hpeek), by omega⟩

end Reading

namespace Grammar

theorem fit_body (again : Nest) : (body again).Fit where
  sane := sane_body again
  advancing := advancing_body again
  moving := by
    cases again <;> decide +kernel

theorem fit_script : script.Fit where
  sane := sane_script
  advancing := advancing_script
  moving := by
    decide +kernel

end Grammar

end SqlAtlas
