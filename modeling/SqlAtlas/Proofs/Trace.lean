import SqlAtlas.Proofs.Pieces

namespace SqlAtlas

/-- A reading of a phrase without complaints and short of the caret, with this many levels below it:
what it derives, whether it takes a turn, and the kinds that come after. -/
inductive Traces : Nat → Phrase → List Piece → Bool → List Kind → Prop
  | nothing {n rest} : Traces n .nothing [] false rest
  | note {n role rest} : Traces n (.note role) [.note role] false rest
  | accept {n guard rest} : guard.kinds ≠ [] →
      guard.kinds <+: guard.kinds.take guard.width ++ rest →
      Traces n (.accept guard) ((guard.kinds.take guard.width).map .token) true rest
  | refuse {n guard rest} : ¬ guard.kinds <+: rest → Traces n (.accept guard) [] false rest
  | need {n kind rest} : Traces n (.need kind) [.token kind] true rest
  | strayAtEnd {n} : Traces n .stray [] false []
  | seq {n first second d b d' b' rest} :
      Traces n first d b (kindsOf d' ++ rest) → Traces n second d' b' rest →
      Traces n (.seq first second) (d ++ d') b' rest
  | ifTrue {n test yes no d d' b rest} :
      Traces n test d true (kindsOf d' ++ rest) → Traces n yes d' b rest →
      Traces n (.ifElse test yes no) (d ++ d') true rest
  | ifFalse {n test yes no d d' b rest} :
      Traces n test d false (kindsOf d' ++ rest) → Traces n no d' b rest →
      Traces n (.ifElse test yes no) (d ++ d') b rest
  | manyStop {n body d rest} : Traces n body d false rest → Traces n (.many body) d false rest
  | manyMore {n body d d' b rest} :
      Traces n body d true (kindsOf d' ++ rest) → Traces n (.many body) d' b rest →
      Traces n (.many body) (d ++ d') false rest
  | rule {n name body d b rest} : Traces n body d b rest → Traces n (.rule name body) d b rest
  | node {n shape body d b rest} :
      Traces n body d b rest → Traces n (.node shape body) [.group shape d] b rest
  | nest {n again d b rest} :
      Traces n (Grammar.body again) d b rest → Traces (n + 1) (.nest again) d false rest

theorem Runs.exists_refused (n : Nat) (guard : Guard) {ks : List Kind} (h : ¬ guard.kinds <+: ks) :
    ∃ o, Runs n (.accept guard) (.text ks) o false (.text ks) := by
  by_cases hks : ks = []
  · subst hks
    exact ⟨_, .offer⟩
  · exact ⟨_, .refuse hks h⟩

namespace Traces

variable {n : Nat} {phrase : Phrase} {d : List Piece} {b : Bool} {rest : List Kind}

theorem ifSeen {test yes no : Phrase} (h₁ : Traces n test [] true (kindsOf d ++ rest))
    (h₂ : Traces n yes d b rest) : Traces n (.ifElse test yes no) d true rest :=
  .ifTrue h₁ h₂

theorem ifUnseen {test yes no : Phrase} (h₁ : Traces n test [] false (kindsOf d ++ rest))
    (h₂ : Traces n no d b rest) : Traces n (.ifElse test yes no) d b rest :=
  .ifFalse h₁ h₂

theorem runs (h : Traces n phrase d b rest) :
    ∃ o, Runs n phrase (.text (kindsOf d ++ rest)) o b (.text rest) := by
  induction h with
  | nothing => exact ⟨_, .nothing⟩
  | note => exact ⟨_, .note⟩
  | @accept n guard rest hne hpre =>
      have hdrop : (guard.kinds.take guard.width ++ rest).drop guard.width = rest := by
        cases guard <;> simp [Guard.kinds, Guard.width]
      have hread : guard.kinds.take guard.width ++ rest ≠ [] :=
        fun hnil => hne (List.prefix_nil.1 (hnil ▸ hpre))
      have hrun := Runs.accept (n := n) hread hpre
      rw [hdrop] at hrun
      rw [kindsOf_tokens]
      exact ⟨_, hrun⟩
  | refuse hpre => exact Runs.exists_refused _ _ hpre
  | need => exact ⟨_, .need⟩
  | strayAtEnd => exact ⟨_, .strayAtEnd⟩
  | seq _ _ ih₁ ih₂ =>
      obtain ⟨o₁, h₁⟩ := ih₁
      obtain ⟨o₂, h₂⟩ := ih₂
      rw [kindsOf_append, List.append_assoc]
      exact ⟨_, .seq h₁ h₂⟩
  | ifTrue _ _ ih₁ ih₂ =>
      obtain ⟨o₁, h₁⟩ := ih₁
      obtain ⟨o₂, h₂⟩ := ih₂
      rw [kindsOf_append, List.append_assoc]
      exact ⟨_, .ifTrue h₁ h₂⟩
  | ifFalse _ _ ih₁ ih₂ =>
      obtain ⟨o₁, h₁⟩ := ih₁
      obtain ⟨o₂, h₂⟩ := ih₂
      rw [kindsOf_append, List.append_assoc]
      exact ⟨_, .ifFalse h₁ h₂⟩
  | manyStop _ ih =>
      obtain ⟨o, h⟩ := ih
      exact ⟨_, .manyStop h⟩
  | manyMore _ _ ih₁ ih₂ =>
      obtain ⟨o₁, h₁⟩ := ih₁
      obtain ⟨o₂, h₂⟩ := ih₂
      rw [kindsOf_append, List.append_assoc]
      exact ⟨_, .manyMore h₁ h₂⟩
  | rule _ ih =>
      obtain ⟨o, h⟩ := ih
      exact ⟨_, .rule h⟩
  | node _ ih =>
      obtain ⟨o, h⟩ := ih
      rw [kindsOf_group]
      exact ⟨_, .node h⟩
  | nest _ ih =>
      obtain ⟨o, h⟩ := ih
      exact ⟨_, .nest h⟩

theorem taken_many {body : Phrase} (h : Traces n (.many body) d b rest) : b = false := by
  cases h <;> rfl

theorem many_induction {body : Phrase} {motive : List Piece → Prop}
    (stop : ∀ {d}, Traces n body d false rest → motive d)
    (more : ∀ {d d'}, Traces n body d true (kindsOf d' ++ rest) →
      Traces n (.many body) d' false rest → motive d' → motive (d ++ d'))
    (h : Traces n (.many body) d b rest) : motive d := by
  generalize hp : Phrase.many body = phrase at h
  induction h with
  | manyStop h => cases hp; exact stop h
  | manyMore h₁ h₂ _ ih₂ =>
      cases hp
      obtain rfl := h₂.taken_many
      exact more h₁ h₂ (ih₂ stop more rfl)
  | _ => cases hp

end Traces

end SqlAtlas
