import SqlAtlas.Proofs.Run
import SqlAtlas.Proofs.Steps

namespace SqlAtlas

structure Input.Shows (input : Input) (text : List Kind) : Prop where
  plain : Kind.eof ∉ text
  shown : text <+: input.kinds.toList
  short : text.length < input.kinds.size
  ended : input.watch? = none → ∃ after, input.kinds.toList = text ++ .eof :: after
  caret : ∀ watch, input.watch? = some watch → watch.caret = text.length

def Place.Of (text : List Kind) (r : Reading) : Place → Prop
  | .text ks => r.halted = false ∧ r.pos ≤ text.length ∧ text.drop r.pos = ks
  | .caret | .depth => r.halted = true

theorem Place.Of.halted {text : List Kind} {r : Reading} {s : Place} (h : s.Of text r)
    (hs : s.Halted) : r.halted = true := by
  cases s with
  | text ks => exact hs.elim
  | caret => exact h
  | depth => exact h

theorem Place.of_halted {text : List Kind} {r : Reading} {s : Place} (hs : s.Halted)
    (h : r.halted = true) : s.Of text r := by
  cases s with
  | text ks => exact hs.elim
  | caret => exact h
  | depth => exact h

theorem Place.Of.pos_lt {text ks : List Kind} {k : Kind} {r : Reading}
    (h : (Place.text (k :: ks)).Of text r) : r.pos < text.length := by
  have hlen := congrArg List.length h.2.2
  simp only [List.length_drop, List.length_cons] at hlen
  omega

namespace Input.Shows

variable {input : Input} {text : List Kind} (h : input.Shows text) {r : Reading}
include h

theorem atCaret (hw : input.watch?.isSome) : r.atCaret input = decide (text.length ≤ r.pos) := by
  obtain ⟨watch, hwatch⟩ := Option.isSome_iff_exists.1 hw
  simp [Reading.atCaret, hwatch, h.caret watch hwatch]

theorem peek (hr : r.halted = false) (i : Nat) (hi : r.pos + i ≤ text.length) :
    r.peek input i = (text[r.pos + i]?).getD .eof := by
  have hget (hlt : r.pos + i < text.length) :
      input.kinds[r.pos + i]? = text[r.pos + i]? := by
    obtain ⟨after, hafter⟩ := h.shown
    rw [← Array.getElem?_toList, ← hafter, List.getElem?_append_left hlt]
  unfold Reading.peek
  cases hw : input.watch? with
  | none =>
      obtain ⟨after, hended⟩ := h.ended hw
      simp only [hr, Option.any_none, Bool.or_false, Bool.false_eq_true, if_false]
      rcases Nat.lt_or_eq_of_le hi with hlt | heq
      · rw [hget hlt]
      · rw [← Array.getElem?_toList, hended, heq]
        simp
  | some watch =>
      simp only [hr, Option.any_some, h.caret watch hw, Bool.false_or, decide_eq_true_eq]
      split
      · next hle => rw [List.getElem?_eq_none hle]; rfl
      · next hlt => rw [hget (by omega)]

theorem sees (hr : r.halted = false) (kinds : List Kind) (hkinds : Kind.eof ∉ kinds) (i : Nat)
    (hi : r.pos + i ≤ text.length) :
    r.sees input i kinds = true ↔ kinds <+: text.drop (r.pos + i) := by
  induction kinds generalizing i with
  | nil => simp [Reading.sees]
  | cons kind kinds ih =>
      have hkind : kind ≠ .eof := fun hk => hkinds (by simp [hk])
      have hrest : Kind.eof ∉ kinds := fun hk => hkinds (by simp [hk])
      simp only [Reading.sees, Bool.and_eq_true, beq_iff_eq, h.peek hr i hi]
      cases hget : text[r.pos + i]? with
      | none =>
          rw [List.drop_eq_nil_of_le (List.getElem?_eq_none_iff.1 hget)]
          simp [hkind.symm]
      | some found =>
          obtain ⟨hlt, rfl⟩ := List.getElem?_eq_some_iff.1 hget
          rw [List.drop_eq_getElem_cons hlt, List.cons_prefix_cons, ih hrest (i + 1) hlt,
            Nat.add_assoc]
          simp [eq_comm]

theorem bump {k : Kind} {ks : List Kind} (hr : (Place.text (k :: ks)).Of text r) :
    r.bump input = { r with pos := r.pos + 1, last? := some r.pos } := by
  have hlt := hr.pos_lt
  have hshort := h.short
  rw [Reading.bump, if_pos (by omega)]

theorem of_bump {k : Kind} {ks : List Kind} (hr : (Place.text (k :: ks)).Of text r) :
    (Place.text ks).Of text (r.bump input) := by
  have hlt := hr.pos_lt
  rw [h.bump hr]
  obtain ⟨hhalt, -, hdrop⟩ := hr
  rw [List.drop_eq_getElem_cons hlt] at hdrop
  exact ⟨hhalt, hlt, (List.cons.inj hdrop).2⟩

theorem of_bumps (count : Nat) {ks : List Kind} (hr : (Place.text ks).Of text r)
    (hcount : count ≤ ks.length) : (Place.text (ks.drop count)).Of text (r.bumps input count) := by
  induction count generalizing r ks with
  | zero => exact hr
  | succ count ih =>
      cases ks with
      | nil => simp at hcount
      | cons k ks => exact ih (h.of_bump hr) (Nat.le_of_succ_le_succ hcount)

theorem accept_of_ne_nil {guard : Guard} {ks : List Kind} (hr : (Place.text ks).Of text r)
    (hne : ks ≠ []) (hguard : Kind.eof ∉ guard.kinds) :
    r.accept input guard =
      if guard.kinds <+: ks then (true, r.bumps input guard.width) else (false, r) := by
  obtain ⟨k, ks, rfl⟩ := List.exists_cons_of_ne_nil hne
  have hlt := hr.pos_lt
  have hcaret : r.atCaret input = false := by
    cases hw : input.watch? with
    | none => simp [Reading.atCaret, hw]
    | some watch =>
        rw [h.atCaret (by simp [hw])]
        simpa using hlt
  have hsees := h.sees hr.1 guard.kinds hguard 0 hr.2.1
  rw [Nat.add_zero, hr.2.2] at hsees
  simp only [Reading.accept, hr.1, hcaret, Bool.false_eq_true, if_false, hsees]

theorem accept_nil {guard : Guard} (hr : (Place.text []).Of text r)
    (hguard : Kind.eof ∉ guard.kinds) (hne : guard.kinds ≠ []) :
    r.accept input guard = (false, r.offer input guard.offer?) := by
  cases hw : input.watch? with
  | none =>
      have hsees := h.sees hr.1 guard.kinds hguard 0 hr.2.1
      rw [Nat.add_zero, hr.2.2, List.prefix_nil] at hsees
      have hoffer : r.offer input guard.offer? = r := by
        simp [Reading.offer, hw]
      have hcaret : r.atCaret input = false := by simp [Reading.atCaret, hw]
      simp only [Reading.accept, hr.1, hcaret, Bool.false_eq_true, if_false, hsees, hne, hoffer]
  | some watch =>
      have hcaret : r.atCaret input = true := by
        rw [h.atCaret (by simp [hw])]
        simpa using List.drop_eq_nil_iff.1 hr.2.2
      simp [Reading.accept, hr.1, hcaret]

theorem stuck_nil {cause : Cause} (hr : (Place.text []).Of text r) (hw : input.watch?.isSome) :
    r.stuck input cause = r.halt := by
  have hcaret : r.atCaret input = true := by
    rw [h.atCaret hw]
    simpa using List.drop_eq_nil_iff.1 hr.2.2
  simp [Reading.stuck, hr.1, hcaret]

end Input.Shows

namespace Reading

variable {input : Input} {r : Reading}

theorem accept_of_halted (hr : r.halted = true) (guard : Guard) :
    r.accept input guard = (false, r) := by
  simp [accept, hr]

theorem peek_of_halted (hr : r.halted = true) (i : Nat) : r.peek input i = .eof := by
  simp [peek, hr]

theorem stuck_of_halted (hr : r.halted = true) (cause : Cause) : r.stuck input cause = r := by
  simp [stuck, hr]

theorem need_of_halted (hr : r.halted = true) (kind : Kind) : r.need input kind = (false, r) := by
  simp [need, accept_of_halted hr, peek_of_halted hr, stuck_of_halted hr]

theorem stray_of_halted (hr : r.halted = true) : r.stray input = (false, r) := by
  simp [stray, peek_of_halted hr]

theorem bumps_complaints (count : Nat) (r : Reading) :
    (r.bumps input count).complaints = r.complaints := by
  induction count generalizing r with
  | zero => rfl
  | succ count ih =>
      refine (ih _).trans ?_
      unfold bump
      split <;> rfl

theorem bumps_candidates (count : Nat) (r : Reading) :
    (r.bumps input count).candidates = r.candidates := by
  induction count generalizing r with
  | zero => rfl
  | succ count ih =>
      refine (ih _).trans ?_
      unfold bump
      split <;> rfl

variable (input) in
theorem offer_frame (offer? : Option Offer) (r : Reading) :
    (r.offer input offer?).pos = r.pos ∧ (r.offer input offer?).halted = r.halted ∧
      (r.offer input offer?).complaints = r.complaints := by
  unfold offer offerTo
  repeat' split
  all_goals exact ⟨rfl, rfl, rfl⟩

theorem offer_candidates {watch : Watch} (hw : input.watch? = some watch)
    (hpref : watch.preferred = []) (hign : watch.ignored = []) (offer? : Option Offer)
    (r : Reading) :
    (r.offer input offer?).candidates =
      offer?.toList.foldl (fun candidates offer => candidates.addToken offer.1 offer.2)
        r.candidates := by
  have hrule : r.preferredRule? watch = none := by
    simp [preferredRule?, hpref]
  cases offer? with
  | none => simp [offer, hw]
  | some offer => simp [Reading.offer, offerTo, hw, hrule, hign]

structure Rests (r r' : Reading) : Prop where
  halted : r'.halted = true
  complaints : r'.complaints = r.complaints
  candidates : r'.candidates = r.candidates

theorem Rests.refl (hr : r.halted = true) : Rests r r := ⟨hr, rfl, rfl⟩

theorem Rests.trans {a b c : Reading} (h₁ : Rests a b) (h₂ : Rests b c) : Rests a c :=
  ⟨h₂.halted, h₂.complaints.trans h₁.complaints, h₂.candidates.trans h₁.candidates⟩

theorem rests_mark (hr : r.halted = true) (role : Note) : Rests r (r.mark role) := by
  unfold mark
  repeat' split
  all_goals exact ⟨hr, rfl, rfl⟩

theorem rests_closeFrame (hr : r.halted = true) (shape : Shape) : Rests r (r.closeFrame shape) := by
  unfold closeFrame attach
  repeat' split
  all_goals exact ⟨hr, rfl, rfl⟩

theorem rests_turns {step : Reading → Bool × Reading}
    (hstep : ∀ r, r.halted = true → (step r).1 = false ∧ Rests r (step r).2) (rounds : Nat)
    (hr : r.halted = true) : Rests r (turns step rounds r) := by
  cases rounds with
  | zero => exact .refl hr
  | succ rounds =>
      obtain ⟨hfalse, hrests⟩ := hstep r hr
      unfold turns
      split
      · next r' hr' => simp [hr'] at hfalse
      · next r' hr' => simpa [hr'] using hrests

theorem read_of_halted {deeper : Nest → Reading → Reading}
    (hdeeper : ∀ again r, r.halted = true → Rests r (deeper again r)) (phrase : Phrase)
    (hr : r.halted = true) :
    (phrase.read input deeper r).1 = false ∧ Rests r (phrase.read input deeper r).2 := by
  induction phrase generalizing r with
  | nothing => exact ⟨rfl, .refl hr⟩
  | accept guard => simpa [Phrase.read, accept_of_halted hr] using Rests.refl hr
  | need kind => simpa [Phrase.read, need_of_halted hr] using Rests.refl hr
  | fail => simpa [Phrase.read, stuck_of_halted hr] using Rests.refl hr
  | stray => simpa [Phrase.read, stray_of_halted hr] using Rests.refl hr
  | note role => exact ⟨rfl, rests_mark hr role⟩
  | seq first second ih₁ ih₂ =>
      obtain ⟨-, hfirst⟩ := ih₁ hr
      obtain ⟨hfalse, hsecond⟩ := ih₂ hfirst.halted
      exact ⟨hfalse, hfirst.trans hsecond⟩
  | ifElse test yes no iht _ ihn =>
      obtain ⟨hfalse, htest⟩ := iht hr
      simp only [Phrase.read]
      split
      · next r' hr' => simp [hr'] at hfalse
      · next r' hr' =>
          rw [hr'] at htest
          obtain ⟨hfalse', hno⟩ := ihn htest.halted
          exact ⟨hfalse', htest.trans hno⟩
  | many body ih => exact ⟨rfl, rests_turns (fun r hr => ih hr) _ hr⟩
  | rule name body ih =>
      obtain ⟨hfalse, hbody⟩ := ih (r := r.enter name) hr
      exact ⟨hfalse, hbody.halted, hbody.complaints, hbody.candidates⟩
  | node shape body ih =>
      obtain ⟨hfalse, hbody⟩ := ih (r := r.openFrame) hr
      have hopen : Rests r r.openFrame := ⟨hr, rfl, rfl⟩
      exact ⟨hfalse, (hopen.trans hbody).trans (rests_closeFrame hbody.halted shape)⟩
  | nest again => exact ⟨rfl, hdeeper again r hr⟩

theorem nestRead_of_halted (levels : Nat) (again : Nest) (hr : r.halted = true) :
    Rests r (Nest.read input levels again r) := by
  induction levels generalizing again r with
  | zero => simpa [Nest.read, tooDeep, hr] using (⟨hr, rfl, rfl⟩ : Rests r (r.descend again).ascend)
  | succ levels ih =>
      obtain ⟨-, hbody⟩ := read_of_halted (fun again r hr => ih again hr) (Grammar.body again)
        (r := r.descend again) hr
      exact ⟨hbody.halted, hbody.complaints, hbody.candidates⟩

end Reading

end SqlAtlas
