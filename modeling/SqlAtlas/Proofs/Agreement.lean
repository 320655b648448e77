import SqlAtlas.Proofs.Sight

namespace SqlAtlas

def Candidates.addTokens (candidates : Candidates Kind Rule) (offers : List Offer) :
    Candidates Kind Rule :=
  offers.foldl (fun candidates offer => candidates.addToken offer.1 offer.2) candidates

theorem Candidates.addTokens_append (candidates : Candidates Kind Rule) (o o' : List Offer) :
    candidates.addTokens (o ++ o') = (candidates.addTokens o).addTokens o' :=
  List.foldl_append ..

structure Reading.Does (input : Input) (n : Nat) (s : Place) (o : List Offer) (s' : Place)
    (r r' : Reading) : Prop where
  complaints : s' ≠ .depth → r'.complaints = r.complaints
  candidates : ∀ watch, input.watch? = some watch → watch.preferred = [] → watch.ignored = [] →
    r'.candidates = r.candidates.addTokens o
  deepest : s' = .depth → s = .depth ∨ r.nesting + n < r'.deepest

namespace Reading.Does

variable {input : Input} {n : Nat} {s s₁ s' : Place} {o o' : List Offer} {r r₁ r' : Reading}

theorem still {ks : List Kind} (hc : r'.complaints = r.complaints)
    (ho : r'.candidates = r.candidates) : Does input n s [] (.text ks) r r' :=
  ⟨fun _ => hc, fun _ _ _ _ => ho, fun h => Place.noConfusion h⟩

theorem of_rests (h : Rests r r') : Does input n s [] s r r' :=
  ⟨fun _ => h.complaints, fun _ _ _ _ => h.candidates, .inl⟩

theorem trans (h₁ : Does input n s o s₁ r r₁) (h₂ : Does input n s₁ o' s' r₁ r')
    (hp₁ : Progress r r₁) (hp₂ : Progress r₁ r') (hdepth : s₁ = .depth → s' = .depth) :
    Does input n s (o ++ o') s' r r' where
  complaints hs' := (h₂.complaints hs').trans (h₁.complaints fun hs₁ => hs' (hdepth hs₁))
  candidates watch hw hpref hign := by
    rw [h₂.candidates watch hw hpref hign, h₁.candidates watch hw hpref hign,
      Candidates.addTokens_append]
  deepest hs' := by
    have hdeep := hp₂.deepest
    rcases h₂.deepest hs' with hs₁ | hlt
    · rcases h₁.deepest hs₁ with hs | hlt
      · exact .inl hs
      · exact .inr (by omega)
    · rw [hp₁.nesting] at hlt
      exact .inr hlt

end Reading.Does

def Agrees (input : Input) (text : List Kind) (n : Nat) (phrase : Phrase) : Prop :=
  ∀ s o b s' r, Runs n phrase s o b s' → (input.watch? = none → ∃ ks, s' = .text ks) →
    s.Of text r → ∃ r', phrase.read input (Nest.read input n) r = (b, r') ∧ s'.Of text r' ∧
      Reading.Does input n s o s' r r'

namespace Agrees

variable {input : Input} {text : List Kind} {n : Nat}

theorem of_text {phrase : Phrase}
    (h : ∀ ks o b s' r, Runs n phrase (.text ks) o b s' →
      (input.watch? = none → ∃ ks, s' = .text ks) → (Place.text ks).Of text r →
      ∃ r', phrase.read input (Nest.read input n) r = (b, r') ∧ s'.Of text r' ∧
        Reading.Does input n (.text ks) o s' r r') : Agrees input text n phrase := by
  intro s o b s' r hrun hs' hr
  rcases s.text_or_halted with ⟨ks, rfl⟩ | hs
  · exact h ks o b s' r hrun hs' hr
  · obtain ⟨rfl, rfl, rfl⟩ := hrun.of_halted hs
    obtain ⟨hfalse, hrests⟩ := Reading.read_of_halted
      (fun again r hr => Reading.nestRead_of_halted n again hr) phrase (hr.halted hs)
    refine ⟨_, Prod.ext hfalse rfl, Place.of_halted hs hrests.halted, .of_rests hrests⟩

theorem mid_text {phrase : Phrase} {s o b s'} (h : Runs n phrase s o b s')
    (hs' : input.watch? = none → ∃ ks, s' = .text ks) (hw : input.watch? = none) :
    ∃ ks, s = .text ks := by
  obtain ⟨ks, rfl⟩ := hs' hw
  exact h.exists_text

theorem depth_of_depth {phrase : Phrase} {s o b s'} (h : Runs n phrase s o b s')
    (hs : s = .depth) : s' = .depth := by
  subst hs
  exact (h.of_halted trivial).2.2

variable (hshow : input.Shows text)
include hshow

theorem accept {guard : Guard} (hsane : (Phrase.accept guard).sane = true) :
    Agrees input text n (.accept guard) := by
  simp only [Phrase.sane, Bool.and_eq_true, Bool.not_eq_true', List.isEmpty_eq_false_iff,
    List.contains_eq_mem, decide_eq_false_iff_not] at hsane
  obtain ⟨hne, hguard⟩ := hsane
  refine of_text fun ks o b s' r hrun _ hr => ?_
  cases hrun with
  | idle hh => exact hh.elim
  | accept hks hpre =>
      refine ⟨r.bumps input guard.width, ?_,
        hshow.of_bumps _ hr (Nat.le_trans guard.width_le_length hpre.length_le),
        .still (Reading.bumps_complaints _ r) (Reading.bumps_candidates _ r)⟩
      simp [Phrase.read, hshow.accept_of_ne_nil hr hks hguard, hpre]
  | refuse hks hpre =>
      refine ⟨r, ?_, hr, .still rfl rfl⟩
      simp [Phrase.read, hshow.accept_of_ne_nil hr hks hguard, hpre]
  | offer =>
      obtain ⟨hpos, hhalt, hcomplaints⟩ := Reading.offer_frame input guard.offer? r
      refine ⟨_, hshow.accept_nil hr hguard hne, ?_, fun _ => hcomplaints, ?_,
        fun h => Place.noConfusion h⟩
      · simpa only [Place.Of, hpos, hhalt] using hr
      · intro watch hw hpref hign
        exact Reading.offer_candidates hw hpref hign guard.offer? r

theorem need {kind : Kind} (hsane : (Phrase.need kind).sane = true) :
    Agrees input text n (.need kind) := by
  have hkind : Kind.eof ∉ (Guard.token kind []).kinds := by
    simp only [Phrase.sane, bne_iff_ne] at hsane
    simpa [Guard.kinds] using hsane.symm
  refine of_text fun ks o b s' r hrun hs' hr => ?_
  cases hrun with
  | idle hh => exact hh.elim
  | need =>
      refine ⟨r.bump input, ?_, hshow.of_bump hr,
        .still (Reading.bumps_complaints 1 r) (Reading.bumps_candidates 1 r)⟩
      simp [Phrase.read, Reading.need, hshow.accept_of_ne_nil hr (by simp) hkind, Guard.kinds,
        Guard.width, Reading.bumps]
  | needAtCaret =>
      have hw : input.watch?.isSome := by
        rw [Option.isSome_iff_ne_none]
        intro hw
        obtain ⟨ks, hks⟩ := hs' hw
        cases hks
      obtain ⟨hpos, hhalt, hcomplaints⟩ :=
        Reading.offer_frame input (some (kind, [])) r
      have hr' : (Place.text []).Of text (r.offer input (some (kind, []))) := by
        simpa only [Place.Of, hpos, hhalt] using hr
      have hpeek : (r.offer input (some (kind, []))).peek input 0 = .eof := by
        rw [hshow.peek hr'.1 0 hr'.2.1, Nat.add_zero, ← List.head?_drop, hr'.2.2]
        rfl
      refine ⟨(r.offer input (some (kind, []))).halt, ?_, rfl, fun _ => hcomplaints, ?_,
        fun h => Place.noConfusion h⟩
      · simp [Phrase.read, Reading.need, hshow.accept_nil hr hkind (by simp [Guard.kinds]),
          Guard.offer?, hpeek, hshow.stuck_nil hr' hw]
      · intro watch hw hpref hign
        exact Reading.offer_candidates hw hpref hign (some (kind, [])) r

theorem fail : Agrees input text n .fail := by
  refine of_text fun ks o b s' r hrun hs' hr => ?_
  cases hrun with
  | idle hh => exact hh.elim
  | failAtCaret =>
      have hw : input.watch?.isSome := by
        rw [Option.isSome_iff_ne_none]
        intro hw
        obtain ⟨ks, hks⟩ := hs' hw
        cases hks
      refine ⟨r.halt, ?_, rfl, fun _ => rfl, fun _ _ _ _ => rfl, fun h => Place.noConfusion h⟩
      simp [Phrase.read, hshow.stuck_nil hr hw]

theorem stray : Agrees input text n .stray := by
  refine of_text fun ks o b s' r hrun _ hr => ?_
  cases hrun with
  | idle hh => exact hh.elim
  | strayAtEnd =>
      have hpeek : r.peek input 0 = .eof := by
        rw [hshow.peek hr.1 0 hr.2.1, Nat.add_zero, ← List.head?_drop, hr.2.2]
        rfl
      exact ⟨r, by simp [Phrase.read, Reading.stray, hpeek], hr, .still rfl rfl⟩

omit hshow in
theorem progress {phrase : Phrase} {r r' : Reading} {b : Bool}
    (h : phrase.read input (Nest.read input n) r = (b, r')) : Reading.Progress r r' := by
  have hprog := Reading.progress_read input (Reading.progress_nestRead input n) phrase r
  rwa [h] at hprog

omit hshow in
theorem seq {first second : Phrase} (h₁ : Agrees input text n first)
    (h₂ : Agrees input text n second) : Agrees input text n (.seq first second) := by
  refine of_text fun ks o b s' r hrun hs' hr => ?_
  cases hrun with
  | idle hh => exact hh.elim
  | seq hfirst hsecond =>
      obtain ⟨r₁, hread₁, hr₁, hdoes₁⟩ := h₁ _ _ _ _ r hfirst (mid_text hsecond hs') hr
      obtain ⟨r₂, hread₂, hr₂, hdoes₂⟩ := h₂ _ _ _ _ r₁ hsecond hs' hr₁
      refine ⟨r₂, by simp only [Phrase.read, hread₁, hread₂], hr₂, ?_⟩
      exact hdoes₁.trans hdoes₂ (progress hread₁) (progress hread₂) (depth_of_depth hsecond)

omit hshow in
theorem ifElse {test yes no : Phrase} (ht : Agrees input text n test)
    (hy : Agrees input text n yes) (hn : Agrees input text n no) :
    Agrees input text n (.ifElse test yes no) := by
  refine of_text fun ks o b s' r hrun hs' hr => ?_
  cases hrun with
  | idle hh => exact hh.elim
  | ifTrue htest hyes =>
      obtain ⟨r₁, hread₁, hr₁, hdoes₁⟩ := ht _ _ _ _ r htest (mid_text hyes hs') hr
      obtain ⟨r₂, hread₂, hr₂, hdoes₂⟩ := hy _ _ _ _ r₁ hyes hs' hr₁
      refine ⟨r₂, by simp only [Phrase.read, hread₁, hread₂], hr₂, ?_⟩
      exact hdoes₁.trans hdoes₂ (progress hread₁) (progress hread₂) (depth_of_depth hyes)
  | ifFalse htest hno =>
      obtain ⟨r₁, hread₁, hr₁, hdoes₁⟩ := ht _ _ _ _ r htest (mid_text hno hs') hr
      obtain ⟨r₂, hread₂, hr₂, hdoes₂⟩ := hn _ _ _ _ r₁ hno hs' hr₁
      refine ⟨r₂, by simp only [Phrase.read, hread₁, hread₂], hr₂, ?_⟩
      exact hdoes₁.trans hdoes₂ (progress hread₁) (progress hread₂) (depth_of_depth hno)

omit hshow in
theorem turns {body : Phrase} (hbody : Agrees input text n body) (hreads : body.reads true = true)
    {s o b s'} (hrun : Runs n (.many body) s o b s') (rounds : Nat) (r : Reading)
    (hrounds : ∀ ks, s = .text ks → ks.length < rounds)
    (hs' : input.watch? = none → ∃ ks, s' = .text ks) (hr : s.Of text r) :
    s'.Of text (Reading.turns (body.read input (Nest.read input n)) rounds r) ∧
      Reading.Does input n s o s' r
        (Reading.turns (body.read input (Nest.read input n)) rounds r) := by
  revert rounds r
  revert hs'
  refine Runs.many_induction (motive := fun s o s' => (input.watch? = none → ∃ ks, s' = .text ks) →
    ∀ rounds r, (∀ ks, s = .text ks → ks.length < rounds) → s.Of text r →
      s'.Of text (Reading.turns (body.read input (Nest.read input n)) rounds r) ∧
        Reading.Does input n s o s' r
          (Reading.turns (body.read input (Nest.read input n)) rounds r)) ?_ ?_ hrun
  · intro s o s' hstop hs' rounds r hrounds hr
    cases rounds with
    | zero =>
        rcases s.text_or_halted with ⟨ks, rfl⟩ | hs
        · exact absurd (hrounds ks rfl) (Nat.not_lt_zero _)
        · obtain ⟨rfl, -, rfl⟩ := hstop.of_halted hs
          exact ⟨hr, .of_rests (.refl (hr.halted hs))⟩
    | succ rounds =>
        obtain ⟨r₁, hread, hr₁, hdoes⟩ := hbody _ _ _ _ r hstop hs' hr
        simp only [Reading.turns, hread]
        exact ⟨hr₁, hdoes⟩
  · intro s o s₁ o' s' hturn hmore ih hs' rounds r hrounds hr
    rcases s.text_or_halted with ⟨ks, rfl⟩ | hs
    · obtain ⟨r₁, hread, hr₁, hdoes⟩ := hbody _ _ _ _ r hturn (mid_text hmore hs') hr
      cases rounds with
      | zero => exact absurd (hrounds ks rfl) (Nat.not_lt_zero _)
      | succ rounds =>
          have hfewer (ks₁ : List Kind) (hs₁ : s₁ = .text ks₁) : ks₁.length < rounds := by
            subst hs₁
            have hlt := hturn.length_lt hreads
            have hle := hrounds ks rfl
            omega
          obtain ⟨hr₂, hdoes₂⟩ := ih hs' rounds r₁ hfewer hr₁
          simp only [Reading.turns, hread]
          refine ⟨hr₂, hdoes.trans hdoes₂ (progress hread) ?_ (depth_of_depth hmore)⟩
          exact (Reading.steps_progress input).turns
            (Reading.progress_read input (Reading.progress_nestRead input n) body) rounds r₁
    · exact absurd (hturn.of_halted hs).2.1 (by simp)

theorem length_lt_size {ks : List Kind} {r : Reading} (hr : (Place.text ks).Of text r) :
    ks.length < input.kinds.size := by
  have hlen := congrArg List.length hr.2.2
  have hshort := hshow.short
  simp only [List.length_drop] at hlen
  omega

theorem many {body : Phrase} (hbody : Agrees input text n body) (hreads : body.reads true = true) :
    Agrees input text n (.many body) := by
  intro s o b s' r hrun hs' hr
  obtain rfl := hrun.taken_many
  have hrounds (ks : List Kind) (hs : s = .text ks) : ks.length < input.kinds.size :=
    length_lt_size hshow (hs ▸ hr)
  exact ⟨_, rfl, turns hbody hreads hrun _ r hrounds hs' hr⟩

omit hshow in
theorem of_closeFrame {s : Place} {r : Reading} (shape : Shape) (h : s.Of text r) :
    s.Of text (r.closeFrame shape) := by
  have hsame : (r.closeFrame shape).pos = r.pos ∧ (r.closeFrame shape).halted = r.halted := by
    unfold Reading.closeFrame Reading.attach
    repeat' split
    all_goals exact ⟨rfl, rfl⟩
  cases s <;> simpa only [Place.Of, hsame.1, hsame.2] using h

omit hshow in
theorem of_mark {s : Place} {r : Reading} (role : Note) (h : s.Of text r) :
    s.Of text (r.mark role) := by
  have hsame : (r.mark role).pos = r.pos ∧ (r.mark role).halted = r.halted := by
    unfold Reading.mark
    repeat' split
    all_goals exact ⟨rfl, rfl⟩
  cases s <;> simpa only [Place.Of, hsame.1, hsame.2] using h

theorem of_nests (hnest : ∀ again, Agrees input text n (.nest again)) (phrase : Phrase)
    (hsane : phrase.sane = true) (hsteady : phrase.steady = true) :
    Agrees input text n phrase := by
  induction phrase with
  | nothing =>
      refine of_text fun ks o b s' r hrun _ hr => ?_
      cases hrun with
      | idle hh => exact hh.elim
      | nothing => exact ⟨r, rfl, hr, .still rfl rfl⟩
  | accept guard => exact accept hshow hsane
  | need kind => exact need hshow hsane
  | fail => exact fail hshow
  | stray => exact stray hshow
  | note role =>
      refine of_text fun ks o b s' r hrun _ hr => ?_
      cases hrun with
      | idle hh => exact hh.elim
      | note =>
          have hmark : (r.mark role).complaints = r.complaints ∧
              (r.mark role).candidates = r.candidates := by
            unfold Reading.mark
            repeat' split
            all_goals exact ⟨rfl, rfl⟩
          exact ⟨_, rfl, of_mark role hr, .still hmark.1 hmark.2⟩
  | seq first second ih₁ ih₂ =>
      simp only [Phrase.sane, Phrase.steady, Bool.and_eq_true] at hsane hsteady
      exact seq (ih₁ hsane.1 hsteady.1) (ih₂ hsane.2 hsteady.2)
  | ifElse test yes no iht ihy ihn =>
      simp only [Phrase.sane, Phrase.steady, Bool.and_eq_true] at hsane hsteady
      exact ifElse (iht hsane.1.1 hsteady.1.1) (ihy hsane.1.2 hsteady.1.2) (ihn hsane.2 hsteady.2)
  | many body ih =>
      simp only [Phrase.sane, Phrase.steady, Bool.and_eq_true] at hsane hsteady
      exact many hshow (ih hsane hsteady.2) hsteady.1
  | rule name body ih =>
      refine of_text fun ks o b s' r hrun hs' hr => ?_
      cases hrun with
      | idle hh => exact hh.elim
      | rule hbody =>
          obtain ⟨r', hread, hr', hdoes⟩ := ih hsane hsteady _ _ _ _ (r.enter name) hbody hs' hr
          refine ⟨r'.leave, by simp only [Phrase.read, hread], ?_, hdoes.complaints,
            hdoes.candidates, hdoes.deepest⟩
          cases s' <;> exact hr'
  | node shape body ih =>
      refine of_text fun ks o b s' r hrun hs' hr => ?_
      cases hrun with
      | idle hh => exact hh.elim
      | node hbody =>
          obtain ⟨r', hread, hr', hdoes⟩ := ih hsane hsteady _ _ _ _ r.openFrame hbody hs' hr
          have hclose : (r'.closeFrame shape).complaints = r'.complaints ∧
              (r'.closeFrame shape).candidates = r'.candidates ∧
              (r'.closeFrame shape).deepest = r'.deepest := by
            unfold Reading.closeFrame Reading.attach
            repeat' split
            all_goals exact ⟨rfl, rfl, rfl⟩
          refine ⟨r'.closeFrame shape, by simp only [Phrase.read, hread], of_closeFrame shape hr',
            ?_, ?_, ?_⟩
          · rw [hclose.1]
            exact hdoes.complaints
          · rw [hclose.2.1]
            exact hdoes.candidates
          · rw [hclose.2.2]
            exact hdoes.deepest
  | nest again => exact hnest again

theorem nest (levels : Nat) (again : Nest)
    (hsane : ∀ again, (Grammar.body again).sane = true)
    (hsteady : ∀ again, (Grammar.body again).steady = true) :
    Agrees input text levels (.nest again) := by
  induction levels generalizing again with
  | zero =>
      refine of_text fun ks o b s' r hrun _ hr => ?_
      cases hrun with
      | idle hh => exact hh.elim
      | tooDeep =>
          have hhalt : r.tooDeep = (r.complain .tooDeep).halt := by
            simp [Reading.tooDeep, hr.1]
          refine ⟨_, rfl, ?_, fun h => absurd rfl h, fun _ _ _ _ => ?_, fun _ => .inr ?_⟩
          · simp [Place.Of, Nest.read, hhalt, Reading.ascend, Reading.descend, Reading.halt]
          · simp [Nest.read, hhalt, Reading.ascend, Reading.descend, Reading.halt,
              Reading.complain, Candidates.addTokens]
          · simp only [Nest.read, hhalt, Reading.ascend, Reading.descend, Reading.halt,
              Reading.complain]
            omega
  | succ levels ih =>
      refine of_text fun ks o b s' r hrun hs' hr => ?_
      cases hrun with
      | idle hh => exact hh.elim
      | nest hbody =>
          obtain ⟨r', hread, hr', hdoes⟩ := of_nests hshow ih (Grammar.body again) (hsane again)
            (hsteady again) _ _ _ _ (r.descend again) hbody hs' hr
          refine ⟨r'.ascend, by simp only [Phrase.read, Nest.read, hread], ?_, hdoes.complaints,
            hdoes.candidates, ?_⟩
          · cases s' <;> exact hr'
          · intro hs'
            rcases hdoes.deepest hs' with hs | hlt
            · exact .inl hs
            · refine .inr ?_
              simp only [Reading.descend] at hlt
              simp only [Reading.ascend]
              omega

end Agrees

end SqlAtlas
