import SqlAtlas.Reading

namespace SqlAtlas

structure Moves (input : Input) (R : Reading → Reading → Prop) : Prop where
  refl : ∀ r, R r r
  trans : ∀ {a b c}, R a b → R b c → R a c
  bump : ∀ r, R r (r.bump input)
  offer : ∀ offer? r, R r (r.offer input offer?)
  complain : ∀ cause r, R r (r.complain cause)
  halt : ∀ r, R r r.halt

/-- A relation between readings that the single steps keep, and so every phrase. -/
structure Steps (input : Input) (R : Reading → Reading → Prop) : Prop extends Moves input R where
  mark : ∀ note r, R r (r.mark note)
  rule : ∀ {name r r'}, R (r.enter name) r' → R r r'.leave
  node : ∀ {shape r r'}, R r.openFrame r' → R r (r'.closeFrame shape)
  nest : ∀ {again r r'}, R (r.descend again) r' → R r r'.ascend

theorem Reading.turns_keeps (P : Reading → Prop) {step : Reading → Bool × Reading}
    (hstep : ∀ r, P r → P (step r).2) (rounds : Nat) {r : Reading} (hr : P r) :
    P (Reading.turns step rounds r) := by
  induction rounds generalizing r with
  | zero => exact hr
  | succ rounds ih =>
      have hfirst := hstep r hr
      unfold Reading.turns
      split
      · next r' hr' =>
          rw [hr'] at hfirst
          exact ih hfirst
      · next r' hr' =>
          rw [hr'] at hfirst
          exact hfirst

namespace Moves

variable {input : Input} {R : Reading → Reading → Prop} (h : Moves input R)
include h

theorem bumps (count : Nat) (r : Reading) : R r (r.bumps input count) := by
  induction count generalizing r with
  | zero => exact h.refl r
  | succ count ih => exact h.trans (h.bump r) (ih _)

theorem accept (guard : Guard) (r : Reading) : R r (r.accept input guard).2 := by
  unfold Reading.accept
  split
  · exact h.refl r
  · split
    · exact h.offer _ r
    · split
      · exact h.bumps _ r
      · exact h.refl r

theorem stuck (cause : Cause) (r : Reading) : R r (r.stuck input cause) := by
  unfold Reading.stuck
  split
  · exact h.refl r
  · split
    · exact h.halt r
    · exact h.complain cause r

theorem need (kind : Kind) (r : Reading) : R r (r.need input kind).2 := by
  have haccept := h.accept (.token kind []) r
  unfold Reading.need
  split
  · next r' hr =>
      rw [hr] at haccept
      exact haccept
  · next r' hr =>
      rw [hr] at haccept
      split
      · exact h.trans haccept (h.trans (h.complain _ r') (h.bumps 2 _))
      · exact h.trans haccept (h.stuck _ r')

theorem skipToBoundary (rounds : Nat) (r : Reading) : R r (r.skipToBoundary input rounds) := by
  induction rounds generalizing r with
  | zero => exact h.refl r
  | succ rounds ih =>
      unfold Reading.skipToBoundary
      split
      · exact h.refl r
      · exact h.trans (h.bump r) (ih _)

theorem stray (r : Reading) : R r (r.stray input).2 := by
  unfold Reading.stray
  split
  · exact h.refl r
  · exact h.trans (h.complain _ r) (h.trans (h.bump _) (h.skipToBoundary _ _))

theorem turns {step : Reading → Bool × Reading} (hstep : ∀ r, R r (step r).2) (rounds : Nat)
    (r : Reading) : R r (Reading.turns step rounds r) :=
  Reading.turns_keeps (R r) (fun r' hr' => h.trans hr' (hstep r')) rounds (h.refl r)

theorem tooDeep (r : Reading) : R r r.tooDeep := by
  unfold Reading.tooDeep
  split
  · exact h.refl r
  · exact h.trans (h.complain _ r) (h.halt _)

end Moves

namespace Steps

variable {input : Input} {R : Reading → Reading → Prop} (h : Steps input R)
include h

theorem read {deeper : Nest → Reading → Reading} (hdeeper : ∀ again r, R r (deeper again r))
    (phrase : Phrase) (r : Reading) : R r (phrase.read input deeper r).2 := by
  induction phrase generalizing r with
  | nothing => exact h.refl r
  | accept guard => exact h.accept guard r
  | need kind => exact h.need kind r
  | fail => exact h.stuck _ r
  | stray => exact h.stray r
  | note role => exact h.mark role r
  | seq first second ih₁ ih₂ => exact h.trans (ih₁ r) (ih₂ _)
  | ifElse test yes no iht ihy ihn =>
      have htest := iht r
      simp only [Phrase.read]
      split
      · next r' hr =>
          rw [hr] at htest
          exact h.trans htest (ihy r')
      · next r' hr =>
          rw [hr] at htest
          exact h.trans htest (ihn r')
  | many body ih => exact h.turns ih _ r
  | rule name body ih => exact h.rule (ih _)
  | node shape body ih => exact h.node (ih _)
  | nest again => exact hdeeper again r

theorem nestRead (levels : Nat) (again : Nest) (r : Reading) :
    R r (Nest.read input levels again r) := by
  induction levels generalizing again r with
  | zero => exact h.trans (h.tooDeep r) (h.nest (h.refl _))
  | succ levels ih => exact h.nest (h.read ih _ _)

theorem inputRead : R Reading.begin input.read := by
  unfold Input.read
  split
  · exact h.refl _
  · exact h.read (h.nestRead _) _ _

end Steps

namespace Reading

variable {input : Input}

structure Progress (r r' : Reading) : Prop where
  complaints : r.complaints <+: r'.complaints
  nesting : r'.nesting = r.nesting
  deepest : r.deepest ≤ r'.deepest

theorem Progress.refl (r : Reading) : Progress r r := ⟨List.prefix_rfl, rfl, Nat.le_refl _⟩

theorem Progress.trans {a b c : Reading} (h₁ : Progress a b) (h₂ : Progress b c) : Progress a c :=
  ⟨h₁.complaints.trans h₂.complaints, h₂.nesting.trans h₁.nesting,
    Nat.le_trans h₁.deepest h₂.deepest⟩

theorem Progress.of_eq {r r' : Reading} (hc : r'.complaints = r.complaints)
    (hn : r'.nesting = r.nesting) (hd : r'.deepest = r.deepest) : Progress r r' :=
  ⟨hc ▸ List.prefix_rfl, hn, Nat.le_of_eq hd.symm⟩

theorem steps_progress (input : Input) : Steps input Progress where
  refl := Progress.refl
  trans := Progress.trans
  bump r := by
    unfold bump
    split
    · exact .of_eq rfl rfl rfl
    · exact .refl r
  offer offer? r := by
    unfold offer offerTo
    repeat' split
    all_goals exact .of_eq rfl rfl rfl
  complain cause r := ⟨List.prefix_append _ _, rfl, Nat.le_refl _⟩
  halt r := .of_eq rfl rfl rfl
  mark note r := by
    unfold mark
    repeat' split
    all_goals exact .of_eq rfl rfl rfl
  rule h := ⟨h.complaints, h.nesting, h.deepest⟩
  node {shape r r'} h := by
    refine h.trans (b := r') ?_ |> fun h => ⟨h.complaints, h.nesting, h.deepest⟩
    unfold closeFrame attach
    repeat' split
    all_goals exact .of_eq rfl rfl rfl
  nest {again r r'} h := by
    refine ⟨h.complaints, ?_, ?_⟩
    · have := h.nesting
      simp only [descend] at this
      simp [ascend, this]
    · have := h.deepest
      simp only [descend] at this
      simp only [ascend]
      omega

variable (input)

theorem progress_nestRead (levels : Nat) (again : Nest) (r : Reading) :
    Progress r (Nest.read input levels again r) :=
  (steps_progress input).nestRead levels again r

theorem progress_read {deeper : Nest → Reading → Reading}
    (hdeeper : ∀ again r, Progress r (deeper again r)) (phrase : Phrase) (r : Reading) :
    Progress r (phrase.read input deeper r).2 :=
  (steps_progress input).read hdeeper phrase r

variable {input}

section Levels

variable {deeper deeper' : Nest → Reading → Reading} {level bound : Nat}

theorem turns_congr {step step' : Reading → Bool × Reading} (hprog : ∀ r, Progress r (step r).2)
    (hstep : ∀ r, r.nesting = level → (step r).2.deepest ≤ bound → step r = step' r)
    (rounds : Nat) {r : Reading} (hlevel : r.nesting = level)
    (hdeep : (turns step rounds r).deepest ≤ bound) :
    turns step rounds r = turns step' rounds r := by
  induction rounds generalizing r with
  | zero => rfl
  | succ rounds ih =>
      have hfirst := hprog r
      unfold turns at hdeep ⊢
      cases hr : step r with
      | mk taken r' =>
          rw [hr] at hfirst
          have hlevel' : r'.nesting = level := hfirst.nesting.trans hlevel
          have hr' : r'.deepest ≤ bound := by
            cases taken with
            | true =>
                simp only [hr] at hdeep
                exact Nat.le_trans ((steps_turns rounds r').deepest) hdeep
            | false => simpa only [hr] using hdeep
          have heq : step' r = (taken, r') := by
            rw [← hstep r hlevel (by rw [hr]; exact hr'), hr]
          cases taken with
          | true =>
              simp only [hr, heq] at hdeep ⊢
              exact ih hlevel' hdeep
          | false => simp only [heq]
where
  steps_turns (rounds : Nat) (r : Reading) : Progress r (turns step rounds r) :=
    (steps_progress ⟨#[], none⟩).turns hprog rounds r

theorem read_congr (hprog : ∀ again r, Progress r (deeper again r))
    (hdeeper : ∀ again r, r.nesting = level → (deeper again r).deepest ≤ bound →
      deeper again r = deeper' again r)
    (phrase : Phrase) {r : Reading} (hlevel : r.nesting = level)
    (hdeep : (phrase.read input deeper r).2.deepest ≤ bound) :
    phrase.read input deeper r = phrase.read input deeper' r := by
  have hread := progress_read input hprog
  induction phrase generalizing r with
  | seq first second ih₁ ih₂ =>
      simp only [Phrase.read] at hdeep ⊢
      have hmid := Nat.le_trans (hread second _).deepest hdeep
      rw [← ih₁ hlevel hmid]
      exact ih₂ ((hread first r).nesting.trans hlevel) hdeep
  | ifElse test yes no iht ihy ihn =>
      simp only [Phrase.read] at hdeep ⊢
      have htest := hread test r
      cases hr : test.read input deeper r with
      | mk taken r' =>
          rw [hr] at htest hdeep
          have hlevel' : r'.nesting = level := htest.nesting.trans hlevel
          cases taken with
          | true =>
              have hmid := Nat.le_trans (hread yes r').deepest hdeep
              rw [← iht hlevel (by rw [hr]; exact hmid), hr]
              exact congrArg (fun result => (true, result.2)) (ihy hlevel' hdeep)
          | false =>
              have hmid := Nat.le_trans (hread no r').deepest hdeep
              rw [← iht hlevel (by rw [hr]; exact hmid), hr]
              exact ihn hlevel' hdeep
  | many body ih =>
      exact congrArg (Prod.mk false) (turns_congr (hread body) (fun _ => ih) _ hlevel hdeep)
  | rule name body ih =>
      simp only [Phrase.read] at hdeep ⊢
      rw [← ih (r := r.enter name) hlevel hdeep]
  | node shape body ih =>
      simp only [Phrase.read] at hdeep ⊢
      have hclose (r' : Reading) : (r'.closeFrame shape).deepest = r'.deepest := by
        unfold closeFrame attach
        repeat' split
        all_goals rfl
      rw [hclose] at hdeep
      rw [← ih (r := r.openFrame) hlevel hdeep]
  | nest again => exact congrArg (Prod.mk false) (hdeeper again r hlevel hdeep)
  | _ => rfl

theorem nestRead_eq_of_deepest (levels spare : Nat) (again : Nest) (r : Reading)
    (hdeep : (Nest.read input (levels + spare) again r).deepest ≤ r.nesting + levels) :
    Nest.read input (levels + spare) again r = Nest.read input levels again r := by
  induction levels generalizing again r with
  | zero =>
      have hdescend : r.nesting + 1 ≤ (Nest.read input (0 + spare) again r).deepest := by
        cases spare with
        | zero =>
            have hnest : r.tooDeep.nesting = r.nesting := by
              unfold tooDeep
              split <;> rfl
            simp only [Nest.read, ascend, descend, hnest]
            omega
        | succ spare =>
            have hbody := (progress_read input (progress_nestRead input (0 + spare))
              (Grammar.body again) (r.descend again)).deepest
            have hin : r.nesting + 1 ≤ (r.descend again).deepest := by
              simp only [descend]
              omega
            exact Nat.le_trans hin hbody
      omega
  | succ levels ih =>
      rw [Nat.succ_add] at hdeep ⊢
      simp only [Nest.read] at hdeep ⊢
      have hlevel : (r.descend again).nesting = r.nesting + 1 := rfl
      have hbody : ((Grammar.body again).read input (Nest.read input (levels + spare))
          (r.descend again)).2.deepest ≤ r.nesting + 1 + levels := by
        simp only [ascend] at hdeep
        omega
      rw [read_congr (progress_nestRead input _) (fun again' r' hr' hd => ih again' r' (hr' ▸ hd))
        (Grammar.body again) hlevel hbody]

end Levels

end Reading

end SqlAtlas
