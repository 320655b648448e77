import SqlAtlas.Proofs.Sight

namespace SqlAtlas

namespace Input

def shown (input : Input) (index : Nat) : Kind :=
  if input.watch?.any (fun watch => watch.caret ≤ index) then .eof
  else (input.kinds[index]?).getD .eof

def Ends (input : Input) : Prop := ∀ index, input.shown index ≠ .eof → index + 1 < input.kinds.size

end Input

theorem mem_outcomes {α : Type} {outcomes : Bool → List α} {taken : Bool} {a : α}
    (h : a ∈ outcomes taken) : a ∈ outcomes true ++ outcomes false := by
  cases taken with
  | true => exact List.mem_append_left _ h
  | false => exact List.mem_append_right _ h

namespace Reading

variable {input : Input} {r r₁ r' : Reading}

theorem peek_eq_shown (hr : r.halted = false) (i : Nat) :
    r.peek input i = input.shown (r.pos + i) := by
  simp [peek, Input.shown, hr]

theorem halted_of_peek {i : Nat} (h : r.peek input i ≠ .eof) : r.halted = false := by
  cases hr : r.halted with
  | false => rfl
  | true => exact absurd (peek_of_halted hr i) h

theorem sees_cons {kind : Kind} {kinds : List Kind} {i : Nat}
    (h : r.sees input i (kind :: kinds) = true) :
    r.peek input i = kind ∧ r.sees input (i + 1) kinds = true := by
  simpa [sees] using h

theorem bump_pos (hends : input.Ends) (h : r.peek input 0 ≠ .eof) :
    (r.bump input).pos = r.pos + 1 := by
  have hlt := hends r.pos (by simpa [peek_eq_shown (halted_of_peek h)] using h)
  simp [bump, hlt]

structure Onward (r r' : Reading) : Prop where
  pos : r.pos ≤ r'.pos
  halted : r.halted = true → r'.halted = true

theorem Onward.of_eq (hp : r'.pos = r.pos) (hh : r'.halted = r.halted) : Onward r r' :=
  ⟨Nat.le_of_eq hp.symm, fun h => hh.trans h⟩

theorem Onward.trans (h₁ : Onward r r₁) (h₂ : Onward r₁ r') : Onward r r' :=
  ⟨Nat.le_trans h₁.pos h₂.pos, fun h => h₂.halted (h₁.halted h)⟩

theorem mark_frame (note : Note) (r : Reading) :
    (r.mark note).pos = r.pos ∧ (r.mark note).halted = r.halted := by
  unfold mark
  repeat' split
  all_goals exact ⟨rfl, rfl⟩

theorem closeFrame_frame (shape : Shape) (r : Reading) :
    (r.closeFrame shape).pos = r.pos ∧ (r.closeFrame shape).halted = r.halted := by
  unfold closeFrame attach
  repeat' split
  all_goals exact ⟨rfl, rfl⟩

theorem steps_onward (input : Input) : Steps input Onward where
  refl r := .of_eq rfl rfl
  trans := .trans
  bump r := by
    unfold bump
    split
    · exact ⟨Nat.le_succ _, id⟩
    · exact .of_eq rfl rfl
  offer offer? r := .of_eq (offer_frame input offer? r).1 (offer_frame input offer? r).2.1
  complain cause r := .of_eq rfl rfl
  halt r := ⟨Nat.le_refl _, fun _ => rfl⟩
  mark note r := .of_eq (mark_frame note r).1 (mark_frame note r).2
  rule h := ⟨h.pos, h.halted⟩
  node {shape r r'} h := by
    obtain ⟨hpos, hhalted⟩ := closeFrame_frame shape r'
    exact ⟨hpos ▸ h.pos, fun hr => hhalted.trans (h.halted hr)⟩
  nest h := ⟨h.pos, h.halted⟩

theorem onward_nestRead (input : Input) (levels : Nat) (again : Nest) (r : Reading) :
    Onward r (Nest.read input levels again r) :=
  (steps_onward input).nestRead levels again r

theorem onward_read {deeper : Nest → Reading → Reading}
    (hdeeper : ∀ again r, Onward r (deeper again r)) (phrase : Phrase) (r : Reading) :
    Onward r (phrase.read input deeper r).2 :=
  (steps_onward input).read hdeeper phrase r

section Blind

theorem peek_of_onward (h : Onward r r') (hpos : r'.pos = r.pos) (hr : r.peek input 0 = .eof) :
    r'.peek input 0 = .eof := by
  cases hr' : r'.halted with
  | true => exact peek_of_halted hr' 0
  | false =>
      have hhalted : r.halted = false := by
        cases hh : r.halted with
        | false => rfl
        | true => rw [h.halted hh] at hr'; cases hr'
      rw [peek_eq_shown hr', hpos, ← peek_eq_shown hhalted]
      exact hr

theorem accept_of_blind {guard : Guard} (hne : guard.kinds ≠ []) (heof : Kind.eof ∉ guard.kinds)
    (hr : r.peek input 0 = .eof) :
    (r.accept input guard).1 = false ∧ (r.accept input guard).2.pos = r.pos := by
  unfold accept
  split
  · exact ⟨rfl, rfl⟩
  · split
    · exact ⟨rfl, (offer_frame input _ r).1⟩
    · split
      · next hsees =>
          obtain ⟨kind, kinds, hkinds⟩ := List.exists_cons_of_ne_nil hne
          rw [hkinds] at hsees heof
          have hkind := (sees_cons hsees).1
          rw [hr] at hkind
          exact absurd (hkind ▸ List.mem_cons_self) heof
      · exact ⟨rfl, rfl⟩

theorem stuck_pos (cause : Cause) (r : Reading) : (r.stuck input cause).pos = r.pos := by
  unfold stuck
  split
  · rfl
  · split <;> rfl

theorem tooDeep_pos (r : Reading) : r.tooDeep.pos = r.pos := by
  unfold tooDeep
  split <;> rfl

theorem need_of_blind {kind : Kind} (hkind : kind ≠ .eof) (hr : r.peek input 0 = .eof) :
    (r.need input kind).1 = false ∧ (r.need input kind).2.pos = r.pos := by
  have hguard : Kind.eof ∉ (Guard.token kind []).kinds := by simpa [Guard.kinds] using hkind.symm
  obtain ⟨hfalse, hpos⟩ := accept_of_blind (by simp [Guard.kinds]) hguard hr
  have hblind := peek_of_onward ((steps_onward input).accept (.token kind []) r) hpos hr
  unfold need
  split
  · next r₁ hr₁ => rw [hr₁] at hfalse; cases hfalse
  · next r₁ hr₁ =>
      rw [hr₁] at hblind hpos
      rw [if_neg (by simp [hblind])]
      exact ⟨rfl, (stuck_pos _ r₁).trans hpos⟩

theorem turns_of_blind {step : Reading → Bool × Reading}
    (hstep : ∀ r, r.peek input 0 = .eof → (step r).1 = false ∧ (step r).2.pos = r.pos)
    (rounds : Nat) (hr : r.peek input 0 = .eof) : (turns step rounds r).pos = r.pos := by
  cases rounds with
  | zero => rfl
  | succ rounds =>
      obtain ⟨hfalse, hpos⟩ := hstep r hr
      unfold turns
      split
      · next r₁ hr₁ => rw [hr₁] at hfalse; cases hfalse
      · next r₁ hr₁ => rw [hr₁] at hpos; exact hpos

theorem read_of_blind {deeper : Nest → Reading → Reading}
    (honward : ∀ again r, Onward r (deeper again r))
    (hdeeper : ∀ again r, r.peek input 0 = .eof → (deeper again r).pos = r.pos)
    (phrase : Phrase) (hsane : phrase.sane = true) (hr : r.peek input 0 = .eof) :
    (phrase.read input deeper r).1 = false ∧ (phrase.read input deeper r).2.pos = r.pos := by
  induction phrase generalizing r with
  | nothing => exact ⟨rfl, rfl⟩
  | accept guard =>
      simp only [Phrase.sane, Bool.and_eq_true, Bool.not_eq_true', List.isEmpty_eq_false_iff,
        List.contains_eq_mem, decide_eq_false_iff_not] at hsane
      exact accept_of_blind hsane.1 hsane.2 hr
  | need kind => exact need_of_blind (by simpa [Phrase.sane] using hsane) hr
  | fail => exact ⟨rfl, stuck_pos _ r⟩
  | stray => simp [Phrase.read, stray, hr]
  | note role => exact ⟨rfl, (mark_frame role r).1⟩
  | seq first second ih₁ ih₂ =>
      simp only [Phrase.sane, Bool.and_eq_true] at hsane
      obtain ⟨-, hpos₁⟩ := ih₁ hsane.1 hr
      have hblind := peek_of_onward (onward_read honward first r) hpos₁ hr
      obtain ⟨hfalse, hpos₂⟩ := ih₂ hsane.2 hblind
      exact ⟨hfalse, hpos₂.trans hpos₁⟩
  | ifElse test yes no iht _ ihn =>
      simp only [Phrase.sane, Bool.and_eq_true] at hsane
      obtain ⟨hfalse, hpos₁⟩ := iht hsane.1.1 hr
      have hblind := peek_of_onward (onward_read honward test r) hpos₁ hr
      simp only [Phrase.read]
      split
      · next r₁ hr₁ => rw [hr₁] at hfalse; cases hfalse
      · next r₁ hr₁ =>
          rw [hr₁] at hblind hpos₁
          obtain ⟨hfalse', hpos₂⟩ := ihn hsane.2 hblind
          exact ⟨hfalse', hpos₂.trans hpos₁⟩
  | many body ih =>
      exact ⟨rfl, turns_of_blind (fun r hr => ih hsane hr) _ hr⟩
  | rule name body ih => exact ih (r := r.enter name) hsane hr
  | node shape body ih =>
      obtain ⟨hfalse, hpos⟩ := ih (r := r.openFrame) hsane hr
      exact ⟨hfalse, (closeFrame_frame shape _).1.trans hpos⟩
  | nest again => exact ⟨rfl, hdeeper again r hr⟩

theorem nestRead_of_blind (levels : Nat) (again : Nest) (hr : r.peek input 0 = .eof) :
    (Nest.read input levels again r).pos = r.pos := by
  induction levels generalizing again r with
  | zero => exact tooDeep_pos r
  | succ levels ih =>
      exact (read_of_blind (onward_nestRead input levels) (fun again r hr => ih again hr)
        (Grammar.body again) (Grammar.sane_body again) (r := r.descend again) hr).2

end Blind

end Reading

namespace Phrase

-- The kinds among `ks` before which a phrase can come to this outcome with nothing read.
def stays : Phrase → List Kind → Bool → List Kind
  | .nothing, ks, taken | .note _, ks, taken | .fail, ks, taken | .many _, ks, taken
  | .nest _, ks, taken => if taken then [] else ks
  | .accept guard, ks, true =>
      if guard.width = 0 then ks.filter (guard.kinds.head? = some ·) else []
  | .accept guard, ks, false => ks.filter (guard.kinds ≠ [·])
  | .need kind, ks, taken => if taken then [] else ks.filter (· ≠ kind)
  | .stray, ks, taken => if taken then [] else ks.filter (· = .eof)
  | .seq first second, ks, taken => second.stays (first.stays ks true ++ first.stays ks false) taken
  | .ifElse test yes no, ks, taken =>
      (if taken then yes.stays (test.stays ks true) true ++ yes.stays (test.stays ks true) false
        else []) ++ no.stays (test.stays ks false) taken
  | .rule _ body, ks, taken | .node _ body, ks, taken => body.stays ks taken

def advancing : Phrase → Bool
  | .seq first second => first.advancing && second.advancing
  | .ifElse test yes no => test.advancing && yes.advancing && no.advancing
  | .many body => (body.stays Kind.all true).isEmpty && body.advancing
  | .rule _ body | .node _ body => body.advancing
  | _ => true

end Phrase

namespace Reading

variable {input : Input} {r r₁ r' : Reading}

def Stays (input : Input) (r r' : Reading) (ks : List Kind) : Prop :=
  r'.halted = false → r'.pos = r.pos → input.shown r.pos ∈ ks

theorem Stays.of_mem {ks : List Kind} (h : input.shown r.pos ∈ ks) : Stays input r r' ks :=
  fun _ _ => h

theorem Stays.of_lt {ks : List Kind} (h : r.pos < r'.pos) : Stays input r r' ks :=
  fun _ hpos => absurd hpos (Nat.ne_of_gt h)

theorem Stays.before {ks : List Kind} (h : Stays input r r₁ ks) (hon₁ : Onward r r₁)
    (hon₂ : Onward r₁ r') (hr' : r'.halted = false) (hpos : r'.pos = r.pos) :
    r₁.halted = false ∧ r₁.pos = r.pos ∧ input.shown r₁.pos ∈ ks := by
  have hr₁ : r₁.halted = false := by
    cases hh : r₁.halted with
    | false => rfl
    | true => rw [hon₂.halted hh] at hr'; cases hr'
  have hpos₁ : r₁.pos = r.pos := Nat.le_antisymm (hpos ▸ hon₂.pos) hon₁.pos
  exact ⟨hr₁, hpos₁, hpos₁ ▸ h hr₁ hpos₁⟩

theorem bumps_pos_lt (hends : input.Ends) (h : r.peek input 0 ≠ .eof) (count : Nat) :
    r.pos < (r.bumps input (count + 1)).pos := by
  have hfirst := bump_pos hends h
  have hmore := ((steps_onward input).bumps count (r.bump input)).pos
  rw [bumps]
  omega

theorem accept_stays (hends : input.Ends) (guard : Guard) (hne : guard.kinds ≠ [])
    (heof : Kind.eof ∉ guard.kinds) (hr : r.halted = false) {ks : List Kind}
    (hks : input.shown r.pos ∈ ks) :
    Stays input r (r.accept input guard).2
      ((Phrase.accept guard).stays ks (r.accept input guard).1) := by
  obtain ⟨kind, kinds, hkinds⟩ := List.exists_cons_of_ne_nil hne
  have hkind : kind ≠ .eof := fun h => heof (by simp [hkinds, h])
  have hpeek : r.peek input 0 = input.shown r.pos := peek_eq_shown hr 0
  have hrefused (hfirst : kinds = [] → r.peek input 0 ≠ kind) :
      input.shown r.pos ∈ (Phrase.accept guard).stays ks false := by
    refine List.mem_filter.2 ⟨hks, ?_⟩
    rw [← hpeek, hkinds, decide_eq_true_iff]
    intro h
    obtain ⟨hk, hnil⟩ := List.cons.inj h
    exact hfirst hnil hk.symm
  rw [accept, if_neg (by simp [hr])]
  split
  · next hcaret =>
      refine .of_mem (hrefused fun _ => ?_)
      have hhidden : r.peek input 0 = .eof := by
        simp only [atCaret] at hcaret
        simp [peek, hcaret]
      rw [hhidden]
      exact hkind.symm
  · split
    · next hsees =>
        rw [hkinds] at hsees
        have hfirst := (sees_cons hsees).1
        cases hwidth : guard.width with
        | zero =>
            refine .of_mem ?_
            simp only [Phrase.stays, hwidth, if_true, hkinds, List.head?_cons]
            refine List.mem_filter.2 ⟨hks, ?_⟩
            rw [← hpeek, hfirst, decide_eq_true_iff]
        | succ count => exact .of_lt (bumps_pos_lt hends (by rw [hfirst]; exact hkind) count)
    · next hsees =>
        refine .of_mem (hrefused fun hnil hfirst => hsees ?_)
        simp [hkinds, hnil, sees, hfirst]

theorem need_stays (hends : input.Ends) {kind : Kind} (hkind : kind ≠ .eof) (hr : r.halted = false)
    {ks : List Kind} (hks : input.shown r.pos ∈ ks) :
    Stays input r (r.need input kind).2 ((Phrase.need kind).stays ks (r.need input kind).1) := by
  have hguard : Kind.eof ∉ (Guard.token kind []).kinds := by simpa [Guard.kinds] using hkind.symm
  have haccept := accept_stays hends (.token kind []) (by simp [Guard.kinds]) hguard hr hks
  have hon := (steps_onward input).accept (.token kind []) r
  unfold need
  split
  · next r₁ hr₁ =>
      rw [hr₁] at haccept
      exact haccept
  · next r₁ hr₁ =>
      rw [hr₁] at haccept hon
      split
      · next hskip =>
          have hmore := bumps_pos_lt hends (r := r₁.complain (.extraneous kind)) hskip.1 1
          exact .of_lt (Nat.lt_of_le_of_lt hon.pos hmore)
      · intro hhalted hpos
        have hstuck := (steps_onward input).stuck (.missing kind) r₁
        obtain ⟨hr₁, hpos₁, hmem⟩ := haccept.before hon hstuck hhalted hpos
        rw [hpos₁] at hmem
        have hne : [kind] ≠ [input.shown r.pos] := of_decide_eq_true (List.mem_filter.1 hmem).2
        exact List.mem_filter.2 ⟨hks, decide_eq_true fun h => hne (by rw [h])⟩

theorem stray_stays (hends : input.Ends) (hr : r.halted = false) {ks : List Kind}
    (hks : input.shown r.pos ∈ ks) :
    Stays input r (r.stray input).2 (Phrase.stray.stays ks (r.stray input).1) := by
  unfold stray
  split
  · next heof =>
      rw [peek_eq_shown hr] at heof
      exact .of_mem (List.mem_filter.2 ⟨hks, by simpa using heof⟩)
  · next heof =>
      refine .of_lt ?_
      have hbump := bump_pos hends (r := r.complain .stray) heof
      have hskip := ((steps_onward input).skipToBoundary input.kinds.size
        ((r.complain .stray).bump input)).pos
      exact Nat.lt_of_lt_of_le (hbump ▸ Nat.lt_succ_self r.pos) hskip

theorem read_stays (hends : input.Ends) {deeper : Nest → Reading → Reading}
    (honward : ∀ again r, Onward r (deeper again r)) (phrase : Phrase) (hsane : phrase.sane = true)
    (hr : r.halted = false) {ks : List Kind} (hks : input.shown r.pos ∈ ks) :
    Stays input r (phrase.read input deeper r).2
      (phrase.stays ks (phrase.read input deeper r).1) := by
  have hon (phrase : Phrase) (r : Reading) : Onward r (phrase.read input deeper r).2 :=
    onward_read honward phrase r
  induction phrase generalizing r ks with
  | accept guard =>
      simp only [Phrase.sane, Bool.and_eq_true, Bool.not_eq_true', List.isEmpty_eq_false_iff,
        List.contains_eq_mem, decide_eq_false_iff_not] at hsane
      exact accept_stays hends guard hsane.1 hsane.2 hr hks
  | need kind => exact need_stays hends (by simpa [Phrase.sane] using hsane) hr hks
  | stray => exact stray_stays hends hr hks
  | seq first second ih₁ ih₂ =>
      simp only [Phrase.sane, Bool.and_eq_true] at hsane
      have hfirst := ih₁ hsane.1 hr hks
      intro hhalted hpos
      obtain ⟨hr₁, hpos₁, hmem⟩ := hfirst.before (hon first r) (hon second _) hhalted hpos
      have hsecond := ih₂ hsane.2 hr₁ (mem_outcomes hmem) hhalted (hpos.trans hpos₁.symm)
      rw [hpos₁] at hsecond
      exact hsecond
  | ifElse test yes no iht ihy ihn =>
      simp only [Phrase.sane, Bool.and_eq_true] at hsane
      have htest := iht hsane.1.1 hr hks
      have hon₁ := hon test r
      simp only [Phrase.read]
      split
      · next r₁ hr₁ =>
          rw [hr₁] at htest hon₁
          intro hhalted hpos
          obtain ⟨hr₁, hpos₁, hmem⟩ := htest.before hon₁ (hon yes r₁) hhalted hpos
          have hyes := ihy hsane.1.2 hr₁ hmem hhalted (hpos.trans hpos₁.symm)
          rw [hpos₁] at hyes
          exact List.mem_append_left _ (mem_outcomes hyes)
      · next r₁ hr₁ =>
          rw [hr₁] at htest hon₁
          intro hhalted hpos
          obtain ⟨hr₁, hpos₁, hmem⟩ := htest.before hon₁ (hon no r₁) hhalted hpos
          have hno := ihn hsane.2 hr₁ hmem hhalted (hpos.trans hpos₁.symm)
          rw [hpos₁] at hno
          exact List.mem_append_right _ hno
  | rule name body ih => exact ih (r := r.enter name) hsane hr hks
  | node shape body ih =>
      obtain ⟨hpos, hhalted⟩ := closeFrame_frame shape (body.read input deeper r.openFrame).2
      have hbody := ih (r := r.openFrame) hsane hr hks
      exact fun hh hp => hbody (hhalted.symm.trans hh) (hpos.symm.trans hp)
  | nothing | note | fail | many | nest => exact .of_mem hks

theorem taken_moves (hends : input.Ends) {deeper : Nest → Reading → Reading}
    (honward : ∀ again r, Onward r (deeper again r))
    (hdeeper : ∀ again r, r.peek input 0 = .eof → (deeper again r).pos = r.pos)
    {phrase : Phrase} (hsane : phrase.sane = true) (hstays : phrase.stays Kind.all true = [])
    (htaken : (phrase.read input deeper r).1 = true) :
    r.peek input 0 ≠ .eof ∧
      ((phrase.read input deeper r).2.halted = true ∨
        r.pos < (phrase.read input deeper r).2.pos) := by
  have hpeek : r.peek input 0 ≠ .eof := by
    intro hblind
    rw [(read_of_blind honward hdeeper phrase hsane hblind).1] at htaken
    cases htaken
  refine ⟨hpeek, ?_⟩
  have hread := read_stays hends honward phrase hsane (halted_of_peek hpeek)
    (Kind.mem_all (input.shown r.pos))
  rw [htaken, hstays] at hread
  cases hhalted : (phrase.read input deeper r).2.halted with
  | true => exact .inl rfl
  | false =>
      refine .inr (Nat.lt_of_le_of_ne (onward_read honward phrase r).pos fun hpos => ?_)
      cases hread hhalted hpos.symm

end Reading

namespace Grammar

theorem advancing_body (again : Nest) : (body again).advancing = true := by
  cases again <;> decide +kernel

theorem advancing_script : script.advancing = true := by
  decide +kernel

end Grammar

end SqlAtlas
