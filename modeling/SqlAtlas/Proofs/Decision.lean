import SqlAtlas.Proofs.Agreement
import SqlAtlas.Proofs.Statements

namespace SqlAtlas

/-- While the phrase is read from one reading on, the guard is tried in another. -/
inductive Phrase.Tries (input : Input) : Nat → Phrase → Reading → Guard → Reading → Prop
  | accept {n guard r} : Tries input n (.accept guard) r guard r
  | first {n first second r guard r'} :
      Tries input n first r guard r' → Tries input n (.seq first second) r guard r'
  | second {n first second r guard r'} :
      Tries input n second (first.read input (Nest.read input n) r).2 guard r' →
      Tries input n (.seq first second) r guard r'
  | test {n test yes no r guard r'} :
      Tries input n test r guard r' → Tries input n (.ifElse test yes no) r guard r'
  | yes {n test yes no r guard r'} : (test.read input (Nest.read input n) r).1 = true →
      Tries input n yes (test.read input (Nest.read input n) r).2 guard r' →
      Tries input n (.ifElse test yes no) r guard r'
  | no {n test yes no r guard r'} : (test.read input (Nest.read input n) r).1 = false →
      Tries input n no (test.read input (Nest.read input n) r).2 guard r' →
      Tries input n (.ifElse test yes no) r guard r'
  | turn {n body r guard r'} : Tries input n body r guard r' → Tries input n (.many body) r guard r'
  | more {n body r guard r'} : (body.read input (Nest.read input n) r).1 = true →
      Tries input n (.many body) (body.read input (Nest.read input n) r).2 guard r' →
      Tries input n (.many body) r guard r'
  | rule {n name body r guard r'} :
      Tries input n body (r.enter name) guard r' → Tries input n (.rule name body) r guard r'
  | node {n shape body r guard r'} :
      Tries input n body r.openFrame guard r' → Tries input n (.node shape body) r guard r'
  | nest {n again r guard r'} :
      Tries input n (Grammar.body again) (r.descend again) guard r' →
      Tries input (n + 1) (.nest again) r guard r'

/-- The reading of the whole input takes the guard this many tokens before the caret. -/
def Input.TakenBefore (input : Input) (caret back : Nat) (guard : Guard) : Prop :=
  ∃ r, Grammar.script.Tries input nestingLimit Reading.begin guard r ∧ r.pos + back = caret ∧
    (r.accept input guard).1 = true

inductive Decides : Nat → Phrase → List Kind → Guard → List Kind → Prop
  | accept {n guard ks} : ks ≠ [] → guard.kinds <+: ks → Decides n (.accept guard) ks guard ks
  | first {n first second ks guard left} :
      Decides n first ks guard left → Decides n (.seq first second) ks guard left
  | second {n first second ks o b mid guard left} : Runs n first (.text ks) o b (.text mid) →
      Decides n second mid guard left → Decides n (.seq first second) ks guard left
  | test {n test yes no ks guard left} :
      Decides n test ks guard left → Decides n (.ifElse test yes no) ks guard left
  | yes {n test yes no ks o mid guard left} : Runs n test (.text ks) o true (.text mid) →
      Decides n yes mid guard left → Decides n (.ifElse test yes no) ks guard left
  | no {n test yes no ks o mid guard left} : Runs n test (.text ks) o false (.text mid) →
      Decides n no mid guard left → Decides n (.ifElse test yes no) ks guard left
  | turn {n body ks guard left} :
      Decides n body ks guard left → Decides n (.many body) ks guard left
  | more {n body ks o mid guard left} : Runs n body (.text ks) o true (.text mid) →
      Decides n (.many body) mid guard left → Decides n (.many body) ks guard left
  | rule {n name body ks guard left} :
      Decides n body ks guard left → Decides n (.rule name body) ks guard left
  | node {n shape body ks guard left} :
      Decides n body ks guard left → Decides n (.node shape body) ks guard left
  | nest {n again ks guard left} :
      Decides n (Grammar.body again) ks guard left → Decides (n + 1) (.nest again) ks guard left

theorem Runs.reads {input : Input} {text : List Kind} (hshow : input.Shows text) {n : Nat}
    {phrase : Phrase} (hsane : phrase.sane = true) (hsteady : phrase.steady = true)
    {ks mid : List Kind} {o : List Offer} {b : Bool} {r : Reading}
    (h : Runs n phrase (.text ks) o b (.text mid)) (hr : (Place.text ks).Of text r) :
    (phrase.read input (Nest.read input n) r).1 = b ∧
      (Place.text mid).Of text (phrase.read input (Nest.read input n) r).2 := by
  have hagrees := Agrees.of_nests hshow
    (fun again => Agrees.nest hshow n again Grammar.sane_body Grammar.steady_body) phrase
      hsane hsteady
  obtain ⟨r', hread, hr', -⟩ := hagrees _ _ _ _ r h (fun _ => ⟨mid, rfl⟩) hr
  rw [hread]
  exact ⟨rfl, hr'⟩

namespace Decides

variable {n : Nat} {phrase : Phrase} {ks left : List Kind} {guard : Guard}

theorem holds (h : Decides n phrase ks guard left) : left ≠ [] ∧ guard.kinds <+: left := by
  induction h with
  | accept hne hkinds => exact ⟨hne, hkinds⟩
  | first _ ih | second _ _ ih | test _ ih | yes _ _ ih | no _ _ ih | turn _ ih | more _ _ ih
  | rule _ ih | node _ ih | nest _ ih => exact ih

variable {input : Input} {text : List Kind} {r : Reading}

theorem tries (hshow : input.Shows text) (h : Decides n phrase ks guard left)
    (hsane : phrase.sane = true) (hsteady : phrase.steady = true) (hr : (Place.text ks).Of text r) :
    ∃ r', phrase.Tries input n r guard r' ∧ (Place.text left).Of text r' := by
  induction h generalizing r with
  | accept => exact ⟨r, .accept, hr⟩
  | first _ ih =>
      simp only [Phrase.sane, Phrase.steady, Bool.and_eq_true] at hsane hsteady
      obtain ⟨r', htries, hr'⟩ := ih hsane.1 hsteady.1 hr
      exact ⟨r', .first htries, hr'⟩
  | second hrun _ ih =>
      simp only [Phrase.sane, Phrase.steady, Bool.and_eq_true] at hsane hsteady
      obtain ⟨r', htries, hr'⟩ := ih hsane.2 hsteady.2 (hrun.reads hshow hsane.1 hsteady.1 hr).2
      exact ⟨r', .second htries, hr'⟩
  | test _ ih =>
      simp only [Phrase.sane, Phrase.steady, Bool.and_eq_true] at hsane hsteady
      obtain ⟨r', htries, hr'⟩ := ih hsane.1.1 hsteady.1.1 hr
      exact ⟨r', .test htries, hr'⟩
  | yes hrun _ ih =>
      simp only [Phrase.sane, Phrase.steady, Bool.and_eq_true] at hsane hsteady
      obtain ⟨htaken, hmid⟩ := hrun.reads hshow hsane.1.1 hsteady.1.1 hr
      obtain ⟨r', htries, hr'⟩ := ih hsane.1.2 hsteady.1.2 hmid
      exact ⟨r', .yes htaken htries, hr'⟩
  | no hrun _ ih =>
      simp only [Phrase.sane, Phrase.steady, Bool.and_eq_true] at hsane hsteady
      obtain ⟨htaken, hmid⟩ := hrun.reads hshow hsane.1.1 hsteady.1.1 hr
      obtain ⟨r', htries, hr'⟩ := ih hsane.2 hsteady.2 hmid
      exact ⟨r', .no htaken htries, hr'⟩
  | turn _ ih =>
      simp only [Phrase.sane, Phrase.steady, Bool.and_eq_true] at hsane hsteady
      obtain ⟨r', htries, hr'⟩ := ih hsane hsteady.2 hr
      exact ⟨r', .turn htries, hr'⟩
  | @more _ body _ _ _ _ _ hrun _ ih =>
      have hbody : body.sane = true := hsane
      obtain ⟨htaken, hmid⟩ := hrun.reads hshow hbody (Bool.and_eq_true_iff.1 hsteady).2 hr
      obtain ⟨r', htries, hr'⟩ := ih hsane hsteady hmid
      exact ⟨r', .more htaken htries, hr'⟩
  | rule _ ih =>
      obtain ⟨r', htries, hr'⟩ := ih hsane hsteady (r := r.enter _) hr
      exact ⟨r', .rule htries, hr'⟩
  | node _ ih =>
      obtain ⟨r', htries, hr'⟩ := ih hsane hsteady (r := r.openFrame) hr
      exact ⟨r', .node htries, hr'⟩
  | @nest _ again _ _ _ _ ih =>
      obtain ⟨r', htries, hr'⟩ :=
        ih (Grammar.sane_body again) (Grammar.steady_body again) (r := r.descend again) hr
      exact ⟨r', .nest htries, hr'⟩

end Decides

end SqlAtlas
