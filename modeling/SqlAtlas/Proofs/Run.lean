import SqlAtlas.Reading

namespace SqlAtlas

/-- Where a reading without complaints stands: before the kinds it still sees, or halted, at the
caret or at the nesting limit. -/
inductive Place where
  | text (kinds : List Kind)
  | caret
  | depth
  deriving DecidableEq, Repr

abbrev Offer := Kind × List Kind

theorem Guard.width_le_length (guard : Guard) : guard.width ≤ guard.kinds.length := by
  cases guard <;> simp [Guard.width, Guard.kinds]

namespace Place

def Halted : Place → Prop
  | .text _ => False
  | .caret | .depth => True

def Spent : Place → Prop
  | .text kinds => kinds = []
  | .caret | .depth => True

theorem Halted.spent {place : Place} (h : place.Halted) : place.Spent := by
  cases place with
  | text kinds => exact h.elim
  | caret => trivial
  | depth => trivial

theorem text_or_halted (place : Place) : (∃ kinds, place = .text kinds) ∨ place.Halted := by
  cases place with
  | text kinds => exact .inl ⟨kinds, rfl⟩
  | caret => exact .inr trivial
  | depth => exact .inr trivial

end Place

/-- A reading of a phrase that makes no complaint, with this many levels below it: where it starts,
what it offers where the kinds end, whether it takes a turn, and where it stops. -/
inductive Runs : Nat → Phrase → Place → List Offer → Bool → Place → Prop
  | idle {n phrase place} : place.Halted → Runs n phrase place [] false place
  | nothing {n ks} : Runs n .nothing (.text ks) [] false (.text ks)
  | note {n role ks} : Runs n (.note role) (.text ks) [] false (.text ks)
  | accept {n guard ks} : ks ≠ [] → guard.kinds <+: ks →
      Runs n (.accept guard) (.text ks) [] true (.text (ks.drop guard.width))
  | refuse {n guard ks} : ks ≠ [] → ¬ guard.kinds <+: ks →
      Runs n (.accept guard) (.text ks) [] false (.text ks)
  | offer {n guard} :
      Runs n (.accept guard) (.text []) guard.offer?.toList false (.text [])
  | need {n kind ks} : Runs n (.need kind) (.text (kind :: ks)) [] true (.text ks)
  | needAtCaret {n kind} : Runs n (.need kind) (.text []) [(kind, [])] false .caret
  | failAtCaret {n} : Runs n .fail (.text []) [] false .caret
  | strayAtEnd {n} : Runs n .stray (.text []) [] false (.text [])
  | seq {n first second s o b s₁ o' b' s'} :
      Runs n first s o b s₁ → Runs n second s₁ o' b' s' →
      Runs n (.seq first second) s (o ++ o') b' s'
  | ifTrue {n test yes no s o s₁ o' b s'} :
      Runs n test s o true s₁ → Runs n yes s₁ o' b s' →
      Runs n (.ifElse test yes no) s (o ++ o') true s'
  | ifFalse {n test yes no s o s₁ o' b s'} :
      Runs n test s o false s₁ → Runs n no s₁ o' b s' →
      Runs n (.ifElse test yes no) s (o ++ o') b s'
  | manyStop {n body s o s'} : Runs n body s o false s' → Runs n (.many body) s o false s'
  | manyMore {n body s o s₁ o' b s'} :
      Runs n body s o true s₁ → Runs n (.many body) s₁ o' b s' →
      Runs n (.many body) s (o ++ o') false s'
  | rule {n name body s o b s'} : Runs n body s o b s' → Runs n (.rule name body) s o b s'
  | node {n shape body s o b s'} : Runs n body s o b s' → Runs n (.node shape body) s o b s'
  | nest {n again s o b s'} :
      Runs n (Grammar.body again) s o b s' → Runs (n + 1) (.nest again) s o false s'
  | tooDeep {again ks} : Runs 0 (.nest again) (.text ks) [] false .depth

namespace Runs

variable {n : Nat} {phrase : Phrase} {s s' : Place} {o : List Offer} {b : Bool}

theorem of_halted (h : Runs n phrase s o b s') (hs : s.Halted) : o = [] ∧ b = false ∧ s' = s := by
  induction h with
  | idle _ => exact ⟨rfl, rfl, rfl⟩
  | nothing | note | accept | refuse | offer | need | needAtCaret | failAtCaret | strayAtEnd
  | tooDeep => exact hs.elim
  | seq _ _ ih₁ ih₂ =>
      obtain ⟨rfl, rfl, rfl⟩ := ih₁ hs
      obtain ⟨rfl, rfl, rfl⟩ := ih₂ hs
      exact ⟨rfl, rfl, rfl⟩
  | ifTrue _ _ ih₁ _ => exact absurd (ih₁ hs).2.1 (by simp)
  | ifFalse _ _ ih₁ ih₂ =>
      obtain ⟨rfl, -, rfl⟩ := ih₁ hs
      obtain ⟨rfl, rfl, rfl⟩ := ih₂ hs
      exact ⟨rfl, rfl, rfl⟩
  | manyStop _ ih =>
      obtain ⟨rfl, -, rfl⟩ := ih hs
      exact ⟨rfl, rfl, rfl⟩
  | manyMore _ _ ih₁ _ => exact absurd (ih₁ hs).2.1 (by simp)
  | rule _ ih => exact ih hs
  | node _ ih => exact ih hs
  | nest _ ih =>
      obtain ⟨rfl, -, rfl⟩ := ih hs
      exact ⟨rfl, rfl, rfl⟩

theorem taken_many {body : Phrase} (h : Runs n (.many body) s o b s') : b = false := by
  cases h <;> rfl

theorem many_induction {body : Phrase} {motive : Place → List Offer → Place → Prop}
    (stop : ∀ {s o s'}, Runs n body s o false s' → motive s o s')
    (more : ∀ {s o s₁ o' s'}, Runs n body s o true s₁ → Runs n (.many body) s₁ o' false s' →
      motive s₁ o' s' → motive s (o ++ o') s')
    (h : Runs n (.many body) s o b s') : motive s o s' := by
  generalize hp : Phrase.many body = phrase at h
  induction h with
  | idle hh => exact stop (.idle hh)
  | manyStop h => cases hp; exact stop h
  | manyMore h₁ h₂ _ ih₂ =>
      cases hp
      obtain rfl := h₂.taken_many
      exact more h₁ h₂ (ih₂ stop more rfl)
  | _ => cases hp

theorem exists_text {rest : List Kind} (h : Runs n phrase s o b (.text rest)) :
    ∃ ks, s = .text ks := by
  rcases s.text_or_halted with hs | hs
  · exact hs
  · obtain ⟨-, -, hs'⟩ := h.of_halted hs
    exact ⟨rest, hs'.symm⟩

theorem text_of_offer {k : Kind} (h : Runs n phrase s o b s') (hk : k ∈ o.map Prod.fst) :
    ∃ ks, s = .text ks := by
  rcases s.text_or_halted with hs | hs
  · exact hs
  · rw [(h.of_halted hs).1] at hk
    cases hk

theorem seq_inv {first second : Phrase} {ks : List Kind}
    (h : Runs n (.seq first second) (.text ks) o b s') :
    ∃ o₁ b₁ s₁ o₂, Runs n first (.text ks) o₁ b₁ s₁ ∧ Runs n second s₁ o₂ b s' ∧ o = o₁ ++ o₂ := by
  cases h with
  | idle hh => exact hh.elim
  | seq h₁ h₂ => exact ⟨_, _, _, _, h₁, h₂, rfl⟩

theorem ifElse_inv {test yes no : Phrase} {ks : List Kind}
    (h : Runs n (.ifElse test yes no) (.text ks) o b s') :
    (∃ o₁ s₁ o₂ b₂, Runs n test (.text ks) o₁ true s₁ ∧ Runs n yes s₁ o₂ b₂ s' ∧
      o = o₁ ++ o₂ ∧ b = true) ∨
    ∃ o₁ s₁ o₂, Runs n test (.text ks) o₁ false s₁ ∧ Runs n no s₁ o₂ b s' ∧ o = o₁ ++ o₂ := by
  cases h with
  | idle hh => exact hh.elim
  | ifTrue h₁ h₂ => exact .inl ⟨_, _, _, _, h₁, h₂, rfl, rfl⟩
  | ifFalse h₁ h₂ => exact .inr ⟨_, _, _, h₁, h₂, rfl⟩

theorem suffix {ks rest : List Kind} (h : Runs n phrase (.text ks) o b (.text rest)) :
    rest <:+ ks := by
  generalize hs : Place.text ks = s at h
  generalize hs' : Place.text rest = s' at h
  induction h generalizing ks rest with
  | idle hh => subst hs; exact hh.elim
  | nothing | note | refuse | offer | strayAtEnd =>
      cases hs; cases hs'; exact List.suffix_rfl
  | accept => cases hs; cases hs'; exact List.drop_suffix _ _
  | need => cases hs; cases hs'; exact List.suffix_cons _ _
  | needAtCaret | failAtCaret | tooDeep => cases hs'
  | seq _ h₂ ih₁ ih₂ =>
      subst hs'
      obtain ⟨mid, rfl⟩ := h₂.exists_text
      exact (ih₂ rfl rfl).trans (ih₁ hs rfl)
  | ifTrue _ h₂ ih₁ ih₂ =>
      subst hs'
      obtain ⟨mid, rfl⟩ := h₂.exists_text
      exact (ih₂ rfl rfl).trans (ih₁ hs rfl)
  | ifFalse _ h₂ ih₁ ih₂ =>
      subst hs'
      obtain ⟨mid, rfl⟩ := h₂.exists_text
      exact (ih₂ rfl rfl).trans (ih₁ hs rfl)
  | manyStop _ ih => exact ih hs hs'
  | manyMore _ h₂ ih₁ ih₂ =>
      subst hs'
      obtain ⟨mid, rfl⟩ := h₂.exists_text
      exact (ih₂ rfl rfl).trans (ih₁ hs rfl)
  | rule _ ih => exact ih hs hs'
  | node _ ih => exact ih hs hs'
  | nest _ ih => exact ih hs hs'

theorem length_le {ks rest : List Kind} (h : Runs n phrase (.text ks) o b (.text rest)) :
    rest.length ≤ ks.length :=
  h.suffix.length_le

theorem of_spent (h : Runs n phrase s o b s') (hs : s.Spent) : b = false ∧ s'.Spent := by
  induction h with
  | idle hh => exact ⟨rfl, hh.spent⟩
  | nothing | note | offer | strayAtEnd => exact ⟨rfl, hs⟩
  | accept hne | refuse hne => exact absurd hs hne
  | need => cases hs
  | needAtCaret | failAtCaret | tooDeep => exact ⟨rfl, trivial⟩
  | seq _ _ ih₁ ih₂ => exact ih₂ (ih₁ hs).2
  | ifTrue _ _ ih₁ _ | manyMore _ _ ih₁ _ => exact absurd (ih₁ hs).1 (by simp)
  | ifFalse _ _ ih₁ ih₂ => exact ih₂ (ih₁ hs).2
  | manyStop _ ih | rule _ ih | node _ ih => exact ih hs
  | nest _ ih => exact ⟨rfl, (ih hs).2⟩

theorem exists_of_nests (phrase : Phrase)
    (hnest : ∀ again {s : Place}, s.Spent → ∃ o s', Runs n (.nest again) s o false s' ∧ s'.Spent)
    {s : Place} (hs : s.Spent) : ∃ o s', Runs n phrase s o false s' ∧ s'.Spent := by
  induction phrase generalizing s with
  | seq first second ih₁ ih₂ =>
      obtain ⟨o₁, s₁, h₁, hs₁⟩ := ih₁ hs
      obtain ⟨o₂, s₂, h₂, hs₂⟩ := ih₂ hs₁
      exact ⟨_, _, .seq h₁ h₂, hs₂⟩
  | ifElse test yes no iht _ ihn =>
      obtain ⟨o₁, s₁, h₁, hs₁⟩ := iht hs
      obtain ⟨o₂, s₂, h₂, hs₂⟩ := ihn hs₁
      exact ⟨_, _, .ifFalse h₁ h₂, hs₂⟩
  | many body ih =>
      obtain ⟨o₁, s₁, h₁, hs₁⟩ := ih hs
      exact ⟨_, _, .manyStop h₁, hs₁⟩
  | rule name body ih =>
      obtain ⟨o₁, s₁, h₁, hs₁⟩ := ih hs
      exact ⟨_, _, .rule h₁, hs₁⟩
  | node shape body ih =>
      obtain ⟨o₁, s₁, h₁, hs₁⟩ := ih hs
      exact ⟨_, _, .node h₁, hs₁⟩
  | nest again => exact hnest again hs
  | _ =>
      cases s with
      | text ks =>
          cases hs
          first
            | exact ⟨_, _, .nothing, rfl⟩
            | exact ⟨_, _, .offer, rfl⟩
            | exact ⟨_, _, .needAtCaret, trivial⟩
            | exact ⟨_, _, .failAtCaret, trivial⟩
            | exact ⟨_, _, .strayAtEnd, rfl⟩
            | exact ⟨_, _, .note, rfl⟩
      | caret => exact ⟨_, _, .idle trivial, trivial⟩
      | depth => exact ⟨_, _, .idle trivial, trivial⟩

theorem exists_of_spent (n : Nat) (phrase : Phrase) {s : Place} (hs : s.Spent) :
    ∃ o s', Runs n phrase s o false s' ∧ s'.Spent := by
  induction n generalizing phrase s with
  | zero =>
      refine exists_of_nests phrase (fun again s hs => ?_) hs
      cases s with
      | text ks => exact ⟨_, _, .tooDeep, trivial⟩
      | caret => exact ⟨_, _, .idle trivial, trivial⟩
      | depth => exact ⟨_, _, .idle trivial, trivial⟩
  | succ n ih =>
      refine exists_of_nests phrase (fun again s hs => ?_) hs
      obtain ⟨o, s', h, hs'⟩ := ih (Grammar.body again) hs
      exact ⟨_, _, .nest h, hs'⟩

end Runs

namespace Phrase

/-- Whether a run that ends with this outcome has read a token for sure. -/
def reads : Phrase → Bool → Bool
  | .nothing, taken | .note _, taken | .stray, taken | .many _, taken | .nest _, taken => taken
  | .fail, _ | .need _, _ => true
  | .accept guard, taken => taken && 0 < guard.width
  | .seq first second, taken => (first.reads true && first.reads false) || second.reads taken
  | .ifElse test yes no, taken =>
      (!taken || test.reads true || (yes.reads true && yes.reads false)) &&
        (test.reads false || no.reads taken)
  | .rule _ body, taken | .node _ body, taken => body.reads taken

def steady : Phrase → Bool
  | .seq first second => first.steady && second.steady
  | .ifElse test yes no => test.steady && yes.steady && no.steady
  | .many body => body.reads true && body.steady
  | .rule _ body | .node _ body => body.steady
  | _ => true

def sane : Phrase → Bool
  | .accept guard => !guard.kinds.isEmpty && !guard.kinds.contains .eof
  | .need kind => kind != .eof
  | .seq first second => first.sane && second.sane
  | .ifElse test yes no => test.sane && yes.sane && no.sane
  | .many body | .rule _ body | .node _ body => body.sane
  | _ => true

end Phrase

theorem Runs.length_lt {n : Nat} {phrase : Phrase} {o : List Offer} {b : Bool}
    {ks rest : List Kind} (h : Runs n phrase (.text ks) o b (.text rest))
    (hb : phrase.reads b = true) : rest.length < ks.length := by
  generalize hs : Place.text ks = s at h
  generalize hs' : Place.text rest = s' at h
  induction h generalizing ks rest with
  | idle hh => subst hs; exact hh.elim
  | nothing | note | refuse | offer | strayAtEnd => simp [Phrase.reads] at hb
  | accept hne hpre =>
      cases hs; cases hs'
      have hpos := List.length_pos_iff.2 hne
      simp [Phrase.reads] at hb ⊢
      omega
  | need => cases hs; cases hs'; simp
  | needAtCaret | failAtCaret | tooDeep => cases hs'
  | @seq n first second s o b s₁ o' b' s' h₁ h₂ ih₁ ih₂ =>
      subst hs hs'
      obtain ⟨mid, rfl⟩ := h₂.exists_text
      simp only [Phrase.reads, Bool.or_eq_true, Bool.and_eq_true] at hb
      rcases hb with ⟨ht, hf⟩ | hb
      · have hfirst : first.reads b = true := by cases b <;> assumption
        exact Nat.lt_of_le_of_lt h₂.length_le (ih₁ hfirst rfl rfl)
      · exact Nat.lt_of_lt_of_le (ih₂ hb rfl rfl) h₁.length_le
  | @ifTrue n test yes no s o s₁ o' b s' h₁ h₂ ih₁ ih₂ =>
      subst hs hs'
      obtain ⟨mid, rfl⟩ := h₂.exists_text
      simp only [Phrase.reads, Bool.not_true, Bool.false_or, Bool.or_eq_true, Bool.and_eq_true]
        at hb
      rcases hb.1 with ht | ⟨ht, hf⟩
      · exact Nat.lt_of_le_of_lt h₂.length_le (ih₁ ht rfl rfl)
      · have hyes : yes.reads b = true := by cases b <;> assumption
        exact Nat.lt_of_lt_of_le (ih₂ hyes rfl rfl) h₁.length_le
  | @ifFalse n test yes no s o s₁ o' b s' h₁ h₂ ih₁ ih₂ =>
      subst hs hs'
      obtain ⟨mid, rfl⟩ := h₂.exists_text
      simp only [Phrase.reads, Bool.and_eq_true, Bool.or_eq_true] at hb
      rcases hb.2 with hf | hb
      · exact Nat.lt_of_le_of_lt h₂.length_le (ih₁ hf rfl rfl)
      · exact Nat.lt_of_lt_of_le (ih₂ hb rfl rfl) h₁.length_le
  | manyStop | manyMore | nest => simp [Phrase.reads] at hb
  | rule _ ih => exact ih hb hs hs'
  | node _ ih => exact ih hb hs hs'

namespace Grammar

theorem sane_body (again : Nest) : (body again).sane = true := by
  cases again <;> decide +kernel

theorem steady_body (again : Nest) : (body again).steady = true := by
  cases again <;> decide +kernel

theorem sane_script : script.sane = true := by
  decide +kernel

theorem steady_script : script.steady = true := by
  decide +kernel

end Grammar

end SqlAtlas
