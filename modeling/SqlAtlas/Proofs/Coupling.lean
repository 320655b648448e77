import SqlAtlas.Proofs.Growth
import SqlAtlas.Proofs.Rounds

namespace SqlAtlas

def Phrase.allowed (allows : Phrase → Bool) : Phrase → Bool
  | .seq first second => first.allowed allows && second.allowed allows
  | .ifElse test yes no => test.allowed allows && yes.allowed allows && no.allowed allows
  | .many body | .rule _ body | .node _ body => body.allowed allows
  | .nest _ => true
  | phrase => allows phrase

theorem Phrase.allowed_of_forall {allows : Phrase → Bool} (h : ∀ phrase, allows phrase = true)
    (phrase : Phrase) : phrase.allowed allows = true := by
  induction phrase with
  | seq first second ih₁ ih₂ => rw [Phrase.allowed, ih₁, ih₂, Bool.and_self]
  | ifElse test yes no iht ihy ihn =>
      rw [Phrase.allowed, iht, ihy, ihn, Bool.and_self, Bool.and_self]
  | many body ih | rule name body ih | node shape body ih => exact ih
  | nest again => rfl
  | _ => exact h _

namespace Reading

variable {input : Input} {fragile : Prop} {r r' : Reading}

def Lost (fragile : Prop) (r : Reading) : Prop := fragile ∧ r.complaints ≠ []

theorem Lost.mono (h : r.Lost fragile) (hle : r.complaints <+: r'.complaints) :
    r'.Lost fragile := by
  refine ⟨h.1, fun hnil => h.2 ?_⟩
  rw [hnil] at hle
  exact List.prefix_nil.1 hle

theorem Lost.read (h : r.Lost fragile) (n : Nat) (phrase : Phrase) :
    (phrase.read input (Nest.read input n) r).2.Lost fragile :=
  h.mono (progress_read input (progress_nestRead input n) phrase r).complaints

theorem closeFrame_complaints (shape : Shape) (r : Reading) :
    (r.closeFrame shape).complaints = r.complaints := by
  unfold closeFrame attach
  repeat' split
  all_goals rfl

theorem Rounds.progress {step : Reading → Bool × Reading} (hstep : ∀ r, Progress r (step r).2)
    (h : Rounds step r r') : Progress r r' := by
  induction h with
  | @last r _ hr =>
      have hlast := hstep r
      rwa [hr] at hlast
  | @more r _ _ hr _ _ ih =>
      have hturn := hstep r
      rw [hr] at hturn
      exact hturn.trans ih

end Reading

def Tied (fragile : Prop) (R : Reading → Reading → Prop) (a b : Bool × Reading) : Prop :=
  a.2.Lost fragile ∨ a.1 = b.1 ∧ R a.2 b.2

/-- Two inputs whose readings, once related, stay related with every step until one is lost. -/
structure Couples (input other : Input) (allows : Phrase → Bool) (fragile : Prop)
    (R : Reading → Reading → Prop) : Prop where
  ends : input.Ends
  ends' : other.Ends
  some : 0 < input.kinds.size
  some' : 0 < other.kinds.size
  accept : ∀ {guard r s}, (Phrase.accept guard).sane = true →
    allows (.accept guard) = true → R r s →
    Tied fragile R (r.accept input guard) (s.accept other guard)
  need : ∀ {kind r s}, kind ≠ .eof → allows (.need kind) = true → R r s →
    Tied fragile R (r.need input kind) (s.need other kind)
  fail : ∀ {r s}, R r s → (r.stuck input .noAlternative).Lost fragile ∨
    R (r.stuck input .noAlternative) (s.stuck other .noAlternative)
  stray : ∀ {r s}, allows .stray = true → R r s → Tied fragile R (r.stray input) (s.stray other)
  named : ∀ {follow role} {r s r₁ s₁ : Reading},
    r.accept input (.token .identifier follow) = (true, r₁) →
    s.accept other (.token .identifier follow) = (true, s₁) → R r₁ s₁ →
      R (r₁.mark role) (s₁.mark role)
  tooDeep : ∀ {r s}, R r s → r.tooDeep.Lost fragile ∨ R r.tooDeep s.tooDeep
  enter : ∀ name {r s}, R r s → R (r.enter name) (s.enter name)
  leave : ∀ {r s}, R r s → R r.leave s.leave
  openFrame : ∀ {r s}, R r s → R r.openFrame s.openFrame
  closeFrame : ∀ {shape r s}, R r s → R (r.closeFrame shape) (s.closeFrame shape)
  descend : ∀ again {r s}, R r s → R (r.descend again) (s.descend again)
  ascend : ∀ {r s}, R r s → R r.ascend s.ascend

namespace Couples

variable {input other : Input} {allows : Phrase → Bool} {fragile : Prop}
  {R : Reading → Reading → Prop} {n : Nat}

def Keeps (input other : Input) (fragile : Prop) (R : Reading → Reading → Prop) (n : Nat)
    (phrase : Phrase) : Prop :=
  ∀ r s, R r s → Tied fragile R (phrase.read input (Nest.read input n) r)
    (phrase.read other (Nest.read other n) s)

theorem rounds {step step' : Reading → Bool × Reading} {r r' s s' : Reading}
    (hprog : ∀ r, Reading.Progress r (step r).2)
    (hstep : ∀ r s, R r s → Tied fragile R (step r) (step' s)) (h : Reading.Rounds step r r')
    (h' : Reading.Rounds step' s s') (hrs : R r s) : r'.Lost fragile ∨ R r' s' := by
  induction h generalizing s with
  | @last r r' hr =>
      have htied := hstep r s hrs
      rw [hr] at htied
      cases h' with
      | last hs =>
          rw [hs] at htied
          exact htied.imp_right And.right
      | more hs =>
          rw [hs] at htied
          exact htied.imp_right fun hboth => absurd hboth.1 (by simp)
  | @more r r₁ r' hr _ hrest ih =>
      have htied := hstep r s hrs
      rw [hr] at htied
      rcases htied with hlost | ⟨htaken, hrs₁⟩
      · exact .inl (hlost.mono (hrest.progress hprog).complaints)
      · cases h' with
        | last hs =>
            rw [hs] at htaken
            cases htaken
        | more hs _ hrest' =>
            rw [hs] at hrs₁
            exact ih hrest' hrs₁

theorem seq {first second : Phrase} (h₁ : Keeps input other fragile R n first)
    (h₂ : Keeps input other fragile R n second) :
    Keeps input other fragile R n (.seq first second) := by
  intro r s hrs
  rcases h₁ r s hrs with hlost | ⟨-, hrs₁⟩
  · exact .inl (hlost.read n second)
  · exact h₂ _ _ hrs₁

theorem ifElse {test yes no : Phrase} (ht : Keeps input other fragile R n test)
    (hy : ∀ r s r₁ s₁, test.read input (Nest.read input n) r = (true, r₁) →
      test.read other (Nest.read other n) s = (true, s₁) → R r₁ s₁ →
      Tied fragile R (yes.read input (Nest.read input n) r₁)
        (yes.read other (Nest.read other n) s₁))
    (hn : Keeps input other fragile R n no) :
    Keeps input other fragile R n (.ifElse test yes no) := by
  intro r s hrs
  have htied := ht r s hrs
  simp only [Phrase.read]
  cases hr : test.read input (Nest.read input n) r with
  | mk taken r₁ =>
      cases hs : test.read other (Nest.read other n) s with
      | mk taken' s₁ =>
          rw [hr, hs] at htied
          rcases htied with hlost | ⟨htaken, hrs₁⟩
          · left
            cases taken with
            | true => exact hlost.read n yes
            | false => exact hlost.read n no
          · obtain rfl : taken = taken' := htaken
            cases taken with
            | true => exact (hy r s r₁ s₁ hr hs hrs₁).imp_right fun hboth => ⟨rfl, hboth.2⟩
            | false => exact hn r₁ s₁ hrs₁

variable (h : Couples input other allows fragile R)
include h

theorem many {body : Phrase} (hbody : Keeps input other fragile R n body)
    (hfit : (Phrase.many body).Fit) : Keeps input other fragile R n (.many body) := by
  intro r s hrs
  have hrounds := Reading.many_rounds h.ends h.some (Reading.onward_nestRead input n)
    (fun again _ hr => Reading.nestRead_of_blind n again hr) hfit r
  have hrounds' := Reading.many_rounds h.ends' h.some' (Reading.onward_nestRead other n)
    (fun again _ hr => Reading.nestRead_of_blind n again hr) hfit s
  have hprog := Reading.progress_read input (Reading.progress_nestRead input n) body
  exact (rounds hprog hbody hrounds hrounds' hrs).imp_right fun hrs' => ⟨rfl, hrs'⟩

theorem of_nests (hnest : ∀ again, Keeps input other fragile R n (.nest again)) (phrase : Phrase)
    (hfit : phrase.Fit) {ks : List Kind} (htidy : phrase.tidy ks = true)
    (hallowed : phrase.allowed allows = true) : Keeps input other fragile R n phrase := by
  induction phrase generalizing ks with
  | nothing => exact fun r s hrs => .inr ⟨rfl, hrs⟩
  | accept guard => exact fun r s hrs => h.accept hfit.sane hallowed hrs
  | need kind => exact fun r s hrs => h.need (by simpa [Phrase.sane] using hfit.sane) hallowed hrs
  | fail => exact fun r s hrs => (h.fail hrs).imp_right fun hrs' => ⟨rfl, hrs'⟩
  | stray => exact fun r s hrs => h.stray hallowed hrs
  | note role => cases htidy
  | seq first second ih₁ ih₂ =>
      simp only [Phrase.tidy, Phrase.allowed, Bool.and_eq_true] at htidy hallowed
      exact seq (ih₁ hfit.of_seq.1 htidy.1 hallowed.1) (ih₂ hfit.of_seq.2 htidy.2 hallowed.2)
  | ifElse test yes no iht ihy ihn =>
      obtain ⟨htest, hno, hyes⟩ := Phrase.tidy_ifElse htidy
      simp only [Phrase.allowed, Bool.and_eq_true] at hallowed
      refine ifElse (iht hfit.of_ifElse.1 htest hallowed.1.1) ?_
        (ihn hfit.of_ifElse.2.2 hno hallowed.2)
      intro r s r₁ s₁ hr hs hrs₁
      rcases hyes with hyes | ⟨role, rfl, hname⟩
      · exact ihy hfit.of_ifElse.2.1 hyes hallowed.1.2 r₁ s₁ hrs₁
      · unfold Phrase.isName at hname
        split at hname
        · exact .inr ⟨rfl, h.named hr hs hrs₁⟩
        · cases hname
  | many body ih =>
      simp only [Phrase.tidy, Bool.and_eq_true] at htidy
      exact h.many (ih hfit.of_many.1 htidy.1 hallowed) hfit
  | rule name body ih =>
      intro r s hrs
      rcases ih hfit.of_rule htidy hallowed _ _ (h.enter name hrs) with hlost | ⟨htaken, hrs'⟩
      · exact .inl hlost
      · exact .inr ⟨htaken, h.leave hrs'⟩
  | node shape body ih =>
      simp only [Phrase.tidy, Bool.and_eq_true] at htidy
      intro r s hrs
      rcases ih hfit.of_node htidy.1.2 hallowed _ _ (h.openFrame hrs) with hlost | ⟨htaken, hrs'⟩
      · left
        rw [Phrase.read, Reading.Lost, Reading.closeFrame_complaints]
        exact hlost
      · exact .inr ⟨htaken, h.closeFrame hrs'⟩
  | nest again => exact hnest again

theorem nest (hallowed : ∀ again, (Grammar.body again).allowed allows = true) (levels : Nat)
    (again : Nest) : Keeps input other fragile R levels (.nest again) := by
  induction levels generalizing again with
  | zero =>
      intro r s hrs
      rcases h.tooDeep hrs with hlost | hrs'
      · exact .inl hlost
      · exact .inr ⟨rfl, h.ascend (h.descend again hrs')⟩
  | succ levels ih =>
      intro r s hrs
      have hbody := h.of_nests ih (Grammar.body again) (Grammar.fit_body again)
        (Grammar.tidy_body again) (hallowed again) _ _ (h.descend again hrs)
      rcases hbody with hlost | ⟨-, hrs'⟩
      · exact .inl hlost
      · exact .inr ⟨rfl, h.ascend hrs'⟩

end Couples

end SqlAtlas
