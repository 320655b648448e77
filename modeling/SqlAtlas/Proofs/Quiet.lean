import SqlAtlas.Proofs.Agreement

namespace SqlAtlas

def Quiet (input : Input) (text : List Kind) (n : Nat) (phrase : Phrase) : Prop :=
  ∀ s r, s.Of text r →
    (phrase.read input (Nest.read input n) r).2.complaints = r.complaints →
    ∃ o s', Runs n phrase s o (phrase.read input (Nest.read input n) r).1 s' ∧
      s'.Of text (phrase.read input (Nest.read input n) r).2 ∧
      (input.watch? = none → s'.Halted → s.Halted)

namespace Quiet

variable {input : Input} {text : List Kind} {n : Nat}

theorem of_text {phrase : Phrase}
    (h : ∀ ks r, (Place.text ks).Of text r →
      (phrase.read input (Nest.read input n) r).2.complaints = r.complaints →
      ∃ o s', Runs n phrase (.text ks) o (phrase.read input (Nest.read input n) r).1 s' ∧
        s'.Of text (phrase.read input (Nest.read input n) r).2 ∧
        (input.watch? = none → ¬ s'.Halted)) : Quiet input text n phrase := by
  intro s r hr hquiet
  rcases s.text_or_halted with ⟨ks, rfl⟩ | hs
  · obtain ⟨o, s', hrun, hr', hs'⟩ := h ks r hr hquiet
    exact ⟨o, s', hrun, hr', fun hw hh => (hs' hw hh).elim⟩
  · obtain ⟨hfalse, hrests⟩ := Reading.read_of_halted
      (fun again r hr => Reading.nestRead_of_halted n again hr) phrase (hr.halted hs)
    rw [hfalse]
    exact ⟨_, s, .idle hs, Place.of_halted hs hrests.halted, fun _ hh => hh⟩

theorem complaints_eq {r r₁ r' : Reading} (h₁ : Reading.Progress r r₁)
    (h₂ : Reading.Progress r₁ r') (h : r'.complaints = r.complaints) :
    r₁.complaints = r.complaints ∧ r'.complaints = r₁.complaints := by
  have hlen := h₂.complaints.length_le
  rw [h] at hlen
  have heq := h₁.complaints.eq_of_length_le hlen
  exact ⟨heq.symm, h.trans heq⟩

theorem complain_ne (cause : Cause) (r : Reading) :
    (r.complain cause).complaints ≠ r.complaints := by
  intro h
  have hlen := congrArg List.length h
  simp [Reading.complain] at hlen

theorem of_run {phrase : Phrase} (hagrees : Agrees input text n phrase) {ks : List Kind}
    {r : Reading} (hr : (Place.text ks).Of text r) {o : List Offer} {b : Bool} {s' : Place}
    (hrun : Runs n phrase (.text ks) o b s') (hs' : input.watch? = none → ∃ ks, s' = .text ks) :
    ∃ o s', Runs n phrase (.text ks) o (phrase.read input (Nest.read input n) r).1 s' ∧
      s'.Of text (phrase.read input (Nest.read input n) r).2 ∧
      (input.watch? = none → ¬ s'.Halted) := by
  obtain ⟨r', hread, hr', -⟩ := hagrees _ _ _ _ r hrun hs' hr
  rw [hread]
  refine ⟨o, s', hrun, hr', fun hw hh => ?_⟩
  obtain ⟨ks', rfl⟩ := hs' hw
  exact hh

variable (input n) in
theorem progress (phrase : Phrase) (r : Reading) :
    Reading.Progress r (phrase.read input (Nest.read input n) r).2 :=
  Reading.progress_read input (Reading.progress_nestRead input n) phrase r

theorem seq {first second : Phrase} (h₁ : Quiet input text n first)
    (h₂ : Quiet input text n second) : Quiet input text n (.seq first second) := by
  intro s r hr hquiet
  obtain ⟨hq₁, hq₂⟩ := complaints_eq (progress input n first r) (progress input n second _) hquiet
  obtain ⟨o₁, s₁, hrun₁, hr₁, hh₁⟩ := h₁ s r hr hq₁
  obtain ⟨o₂, s₂, hrun₂, hr₂, hh₂⟩ := h₂ s₁ _ hr₁ hq₂
  exact ⟨_, s₂, .seq hrun₁ hrun₂, hr₂, fun hw hh => hh₁ hw (hh₂ hw hh)⟩

theorem ifElse {test yes no : Phrase} (ht : Quiet input text n test)
    (hy : Quiet input text n yes) (hn : Quiet input text n no) :
    Quiet input text n (.ifElse test yes no) := by
  intro s r hr hquiet
  have hprog := progress input n test r
  have htest := ht s r hr
  simp only [Phrase.read] at hquiet ⊢
  cases hread : test.read input (Nest.read input n) r with
  | mk taken r₁ =>
      rw [hread] at hprog htest
      cases taken with
      | true =>
          simp only [hread] at hquiet ⊢
          obtain ⟨hq₁, hq₂⟩ := complaints_eq hprog (progress input n yes r₁) hquiet
          obtain ⟨o₁, s₁, hrun₁, hr₁, hh₁⟩ := htest hq₁
          obtain ⟨o₂, s₂, hrun₂, hr₂, hh₂⟩ := hy s₁ r₁ hr₁ hq₂
          exact ⟨_, s₂, .ifTrue hrun₁ hrun₂, hr₂, fun hw hh => hh₁ hw (hh₂ hw hh)⟩
      | false =>
          simp only [hread] at hquiet ⊢
          obtain ⟨hq₁, hq₂⟩ := complaints_eq hprog (progress input n no r₁) hquiet
          obtain ⟨o₁, s₁, hrun₁, hr₁, hh₁⟩ := htest hq₁
          obtain ⟨o₂, s₂, hrun₂, hr₂, hh₂⟩ := hn s₁ r₁ hr₁ hq₂
          exact ⟨_, s₂, .ifFalse hrun₁ hrun₂, hr₂, fun hw hh => hh₁ hw (hh₂ hw hh)⟩

theorem turns {body : Phrase} (hbody : Quiet input text n body) (hreads : body.reads true = true)
    (rounds : Nat) (s : Place) (r : Reading) (hrounds : ∀ ks, s = .text ks → ks.length < rounds)
    (hr : s.Of text r)
    (hquiet : (Reading.turns (body.read input (Nest.read input n)) rounds r).complaints =
      r.complaints) :
    ∃ o s', Runs n (.many body) s o false s' ∧
      s'.Of text (Reading.turns (body.read input (Nest.read input n)) rounds r) ∧
      (input.watch? = none → s'.Halted → s.Halted) := by
  induction rounds generalizing s r with
  | zero =>
      rcases s.text_or_halted with ⟨ks, rfl⟩ | hs
      · exact absurd (hrounds ks rfl) (Nat.not_lt_zero _)
      · exact ⟨_, s, .idle hs, hr, fun _ hh => hh⟩
  | succ rounds ih =>
      have hprog := progress input n body r
      have hturn := hbody s r hr
      simp only [Reading.turns] at hquiet ⊢
      cases hread : body.read input (Nest.read input n) r with
      | mk taken r₁ =>
          rw [hread] at hprog hturn
          cases taken with
          | true =>
              simp only [hread] at hquiet ⊢
              obtain ⟨hq₁, hq₂⟩ := complaints_eq hprog
                ((Reading.steps_progress input).turns (progress input n body) rounds r₁) hquiet
              obtain ⟨o₁, s₁, hrun₁, hr₁, hh₁⟩ := hturn hq₁
              have hfewer (ks₁ : List Kind) (hs₁ : s₁ = .text ks₁) : ks₁.length < rounds := by
                subst hs₁
                obtain ⟨ks, rfl⟩ := hrun₁.exists_text
                have hlt := hrun₁.length_lt hreads
                have hle := hrounds ks rfl
                omega
              obtain ⟨o₂, s₂, hrun₂, hr₂, hh₂⟩ := ih s₁ r₁ hfewer hr₁ hq₂
              exact ⟨_, s₂, .manyMore hrun₁ hrun₂, hr₂, fun hw hh => hh₁ hw (hh₂ hw hh)⟩
          | false =>
              simp only [hread] at hquiet ⊢
              obtain ⟨o₁, s₁, hrun₁, hr₁, hh₁⟩ := hturn hquiet
              exact ⟨_, s₁, .manyStop hrun₁, hr₁, hh₁⟩

variable (hshow : input.Shows text)
include hshow

theorem accept {guard : Guard} (hsane : (Phrase.accept guard).sane = true) :
    Quiet input text n (.accept guard) := by
  refine of_text fun ks r hr _ => ?_
  have hagrees := Agrees.accept (n := n) hshow hsane
  by_cases hks : ks = []
  · subst hks
    exact of_run hagrees hr .offer (fun _ => ⟨_, rfl⟩)
  · by_cases hpre : guard.kinds <+: ks
    · exact of_run hagrees hr (.accept hks hpre) (fun _ => ⟨_, rfl⟩)
    · exact of_run hagrees hr (.refuse hks hpre) (fun _ => ⟨_, rfl⟩)

theorem stuck {cause : Cause} {ks : List Kind} {r : Reading} (hr : (Place.text ks).Of text r)
    (hquiet : (r.stuck input cause).complaints = r.complaints) : ks = [] ∧ input.watch?.isSome := by
  have hcaret : r.atCaret input = true := by
    cases hcaret : r.atCaret input with
    | true => rfl
    | false =>
        simp only [Reading.stuck, hr.1, hcaret, Bool.false_eq_true, if_false] at hquiet
        exact absurd hquiet (complain_ne cause r)
  have hw : input.watch?.isSome := by
    cases hw : input.watch? with
    | none => simp [Reading.atCaret, hw] at hcaret
    | some watch => rfl
  rw [hshow.atCaret hw, decide_eq_true_eq] at hcaret
  exact ⟨by rw [← hr.2.2, List.drop_eq_nil_of_le hcaret], hw⟩

theorem need {kind : Kind} (hsane : (Phrase.need kind).sane = true) :
    Quiet input text n (.need kind) := by
  refine of_text fun ks r hr hquiet => ?_
  have hagrees := Agrees.need (n := n) hshow hsane
  have hkind : Kind.eof ∉ (Guard.token kind []).kinds := by
    simp only [Phrase.sane, bne_iff_ne] at hsane
    simpa [Guard.kinds] using hsane.symm
  cases ks with
  | nil =>
      obtain ⟨hpos, hhalt, hcomplaints⟩ := Reading.offer_frame input (some (kind, [])) r
      have hr' : (Place.text []).Of text (r.offer input (some (kind, []))) := by
        simpa only [Place.Of, hpos, hhalt] using hr
      have hpeek : (r.offer input (some (kind, []))).peek input 0 = .eof := by
        rw [hshow.peek hr'.1 0 hr'.2.1, Nat.add_zero, ← List.head?_drop, hr'.2.2]
        rfl
      have hread : r.need input kind =
          (false, (r.offer input (some (kind, []))).stuck input (.missing kind)) := by
        simp [Reading.need, hshow.accept_nil hr hkind (by simp [Guard.kinds]), Guard.offer?, hpeek]
      simp only [Phrase.read, hread] at hquiet
      obtain ⟨-, hw⟩ := stuck hshow hr' (hquiet.trans hcomplaints.symm)
      exact of_run hagrees hr .needAtCaret fun hnone => by simp [hnone] at hw
  | cons found ks =>
      by_cases hfound : kind = found
      · subst hfound
        exact of_run hagrees hr .need (fun _ => ⟨_, rfl⟩)
      · have haccept : r.accept input (.token kind []) = (false, r) := by
          rw [hshow.accept_of_ne_nil hr (by simp) hkind, if_neg]
          simpa [Guard.kinds] using hfound
        simp only [Phrase.read, Reading.need, haccept] at hquiet
        split at hquiet
        · rw [Reading.bumps_complaints] at hquiet
          exact absurd hquiet (complain_ne _ r)
        · exact absurd (stuck hshow hr hquiet).1 (by simp)

theorem fail : Quiet input text n .fail := by
  refine of_text fun ks r hr hquiet => ?_
  obtain ⟨rfl, hw⟩ := stuck hshow hr hquiet
  exact of_run (Agrees.fail hshow) hr .failAtCaret fun hnone => by simp [hnone] at hw

theorem stray : Quiet input text n .stray := by
  refine of_text fun ks r hr hquiet => ?_
  cases ks with
  | nil => exact of_run (Agrees.stray hshow) hr .strayAtEnd (fun _ => ⟨_, rfl⟩)
  | cons found ks =>
      have hget : text[r.pos]? = some found := by
        rw [← List.head?_drop, hr.2.2]
        rfl
      have hfound : found ≠ .eof := fun h => hshow.plain (h ▸ List.mem_of_getElem? hget)
      have hpeek : r.peek input 0 = found := by
        rw [hshow.peek hr.1 0 hr.2.1, Nat.add_zero, hget]
        rfl
      have hprog := ((Reading.steps_progress input).bump (r.complain .stray)).trans
        ((Reading.steps_progress input).skipToBoundary input.kinds.size _)
      simp only [Phrase.read, Reading.stray, hpeek, hfound, if_false] at hquiet
      obtain ⟨hq, -⟩ := complaints_eq
        ((Reading.steps_progress input).complain .stray r) hprog hquiet
      exact absurd hq (complain_ne _ r)

theorem of_nests (hnest : ∀ again, Quiet input text n (.nest again)) (phrase : Phrase)
    (hsane : phrase.sane = true) (hsteady : phrase.steady = true) : Quiet input text n phrase := by
  induction phrase with
  | nothing => exact of_text fun ks r hr _ => ⟨_, _, .nothing, hr, fun _ hh => hh⟩
  | accept guard => exact accept hshow hsane
  | need kind => exact need hshow hsane
  | fail => exact fail hshow
  | stray => exact stray hshow
  | note role =>
      exact of_text fun ks r hr _ => ⟨_, _, .note, Agrees.of_mark role hr, fun _ hh => hh⟩
  | seq first second ih₁ ih₂ =>
      simp only [Phrase.sane, Phrase.steady, Bool.and_eq_true] at hsane hsteady
      exact seq (ih₁ hsane.1 hsteady.1) (ih₂ hsane.2 hsteady.2)
  | ifElse test yes no iht ihy ihn =>
      simp only [Phrase.sane, Phrase.steady, Bool.and_eq_true] at hsane hsteady
      exact ifElse (iht hsane.1.1 hsteady.1.1) (ihy hsane.1.2 hsteady.1.2) (ihn hsane.2 hsteady.2)
  | many body ih =>
      simp only [Phrase.sane, Phrase.steady, Bool.and_eq_true] at hsane hsteady
      intro s r hr hquiet
      refine turns (ih hsane hsteady.2) hsteady.1 _ s r (fun ks hs => ?_) hr hquiet
      exact Agrees.length_lt_size hshow (hs ▸ hr)
  | rule name body ih =>
      intro s r hr hquiet
      have hr₀ : s.Of text (r.enter name) := by cases s <;> exact hr
      obtain ⟨o, s', hrun, hr', hh⟩ := ih hsane hsteady s (r.enter name) hr₀ hquiet
      refine ⟨o, s', .rule hrun, ?_, hh⟩
      cases s' <;> exact hr'
  | node shape body ih =>
      intro s r hr hquiet
      have hr₀ : s.Of text r.openFrame := by cases s <;> exact hr
      have hclose (r' : Reading) : (r'.closeFrame shape).complaints = r'.complaints := by
        unfold Reading.closeFrame Reading.attach
        repeat' split
        all_goals rfl
      simp only [Phrase.read, hclose] at hquiet
      obtain ⟨o, s', hrun, hr', hh⟩ := ih hsane hsteady s r.openFrame hr₀ hquiet
      exact ⟨o, s', .node hrun, Agrees.of_closeFrame shape hr', hh⟩
  | nest again => exact hnest again

theorem nest (levels : Nat) (again : Nest)
    (hsane : ∀ again, (Grammar.body again).sane = true)
    (hsteady : ∀ again, (Grammar.body again).steady = true) :
    Quiet input text levels (.nest again) := by
  induction levels generalizing again with
  | zero =>
      refine of_text fun ks r hr hquiet => ?_
      simp only [Phrase.read, Nest.read, Reading.tooDeep, hr.1, Bool.false_eq_true, if_false]
        at hquiet
      exact absurd hquiet (complain_ne _ r)
  | succ levels ih =>
      intro s r hr hquiet
      have hr₀ : s.Of text (r.descend again) := by cases s <;> exact hr
      obtain ⟨o, s', hrun, hr', hh⟩ := of_nests hshow ih (Grammar.body again) (hsane again)
        (hsteady again) s (r.descend again) hr₀ hquiet
      refine ⟨o, s', .nest hrun, ?_, hh⟩
      cases s' <;> exact hr'

end Quiet

end SqlAtlas
