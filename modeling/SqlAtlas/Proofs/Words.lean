import Mathlib.Computability.Language
import SqlAtlas.Proofs.Run

namespace SqlAtlas

open Computability

namespace Phrase

def choices? : Phrase → Option (List Kind)
  | .nothing => some []
  | .accept (.token kind _) => some [kind]
  | .ifElse (.accept (.token kind _)) _ no => no.choices?.map (kind :: ·)
  | _ => none

def demand? : Phrase → Option Kind
  | .need kind => some kind
  | .seq first _ => first.demand?
  | _ => none

def excludes (test no : Phrase) : Bool :=
  test.choices?.any fun kinds => no.demand?.any kinds.contains

/-- The texts that the phrase reads only if another kind than this comes next. -/
def bars : Phrase → List (List Kind × Kind)
  | .ifElse (.accept (.run kinds)) _ _ =>
      kinds.getLast?.toList.map fun last => (kinds.dropLast, last)
  | .ifElse (.accept (.token kind _)) yes _ =>
      yes.bars.map fun barred => (kind :: barred.1, barred.2)
  | _ => []

def Fits (phrase : Phrase) (u v : List Kind) : Prop :=
  ∀ kind, v.head? = some kind → (u, kind) ∉ phrase.bars

def words (nests : Nest → Language Kind) : Phrase → Bool → Language Kind
  | .nothing, false | .note _, false | .stray, false | .accept _, false => 1
  | .accept guard, true => {guard.kinds.take guard.width}
  | .need kind, true => {[kind]}
  | .seq first second, taken =>
      {w | ∃ u ∈ first.words nests true + first.words nests false, ∃ v ∈ second.words nests taken,
        first.Fits u v ∧ u ++ v = w}
  | .ifElse test yes no, taken =>
      (if taken then test.words nests true *
        (yes.words nests true + yes.words nests false) else 0) +
        (if test.excludes no then 0 else test.words nests false * no.words nests taken)
  | .many body, false => (body.words nests true)∗ * body.words nests false
  | .rule _ body, taken | .node _ body, taken => body.words nests taken
  | .nest again, false => nests again
  | .nothing, true | .note _, true | .stray, true | .fail, _ | .need _, false | .many _, true
  | .nest _, true => 0

theorem outcome_eq {α : Type} {languages : Bool → Language α} (c : Bool) {b : Bool} {w : List α}
    (hw : w ∈ languages b) (hzero : languages (!c) = 0) : b = c := by
  by_contra hne
  rw [Bool.eq_not_of_ne hne, hzero] at hw
  exact Language.notMem_zero w hw

def text (nests : Nest → Language Kind) (phrase : Phrase) : Language Kind :=
  phrase.words nests true + phrase.words nests false

variable {nests : Nest → Language Kind} {phrase : Phrase}

theorem mem_text {w : List Kind} : w ∈ phrase.text nests ↔ ∃ b, w ∈ phrase.words nests b := by
  simp only [text, Language.mem_add, Bool.exists_bool]
  exact or_comm

theorem mem_words_seq {first second : Phrase} {b : Bool} {w : List Kind} :
    w ∈ (seq first second).words nests b ↔
      ∃ u ∈ first.text nests, ∃ v ∈ second.words nests b, first.Fits u v ∧ u ++ v = w :=
  Iff.rfl

theorem mem_words_ifElse {test yes no : Phrase} {b : Bool} {w : List Kind} :
    w ∈ (ifElse test yes no).words nests b ↔
      (b = true ∧ w ∈ test.words nests true * yes.text nests) ∨
        (test.excludes no = false ∧ w ∈ test.words nests false * no.words nests b) := by
  cases b <;> cases h : test.excludes no <;>
    simp [words, text, h, Language.mem_add, -add_eq_sup]

theorem mem_words_many {body : Phrase} {w : List Kind} :
    w ∈ (many body).words nests false ↔
      ∃ turns : List (List Kind), (∀ u ∈ turns, u ∈ body.words nests true) ∧
        ∃ v ∈ body.words nests false, turns.flatten ++ v = w := by
  simp only [words, Language.mem_mul, Language.mem_kstar]
  constructor
  · rintro ⟨_, ⟨turns, rfl, hturns⟩, v, hv, rfl⟩
    exact ⟨turns, hturns, v, hv, rfl⟩
  · rintro ⟨turns, hturns, v, hv, rfl⟩
    exact ⟨_, ⟨turns, rfl, hturns⟩, v, hv, rfl⟩

end Phrase

namespace Runs

variable {n : Nat} {phrase : Phrase} {o : List Offer} {b : Bool} {ks rest : List Kind}

theorem accept_inv {guard : Guard} (h : Runs n (.accept guard) (.text ks) o b (.text rest)) :
    (b = true ∧ guard.kinds <+: ks ∧ rest = ks.drop guard.width) ∨
      (b = false ∧ (ks = [] ∨ ¬ guard.kinds <+: ks) ∧ rest = ks) := by
  cases h with
  | idle hh => exact hh.elim
  | accept hne hpre => exact .inl ⟨rfl, hpre, rfl⟩
  | refuse hne hpre => exact .inr ⟨rfl, .inr hpre, rfl⟩
  | offer => exact .inr ⟨rfl, .inl rfl, rfl⟩

theorem of_refused {kind : Kind} {follow : List Kind}
    (h : Runs n (.accept (.token kind follow)) (.text ks) o false (.text rest)) :
    rest = ks ∧ ks.head? ≠ some kind := by
  rcases h.accept_inv with ⟨hb, -⟩ | ⟨-, hks, rfl⟩
  · cases hb
  · refine ⟨rfl, fun hhead => ?_⟩
    obtain ⟨tail, rfl⟩ := List.head?_eq_some_iff.1 hhead
    rcases hks with hks | hpre
    · cases hks
    · exact hpre ⟨tail, rfl⟩

theorem of_choices {kinds : List Kind} (h : Runs n phrase (.text ks) o false (.text rest))
    (hc : phrase.choices? = some kinds) : rest = ks ∧ ∀ k ∈ kinds, ks.head? ≠ some k := by
  fun_induction Phrase.choices? generalizing kinds o ks with
  | case1 =>
      cases hc
      cases h with
      | idle hh => exact hh.elim
      | nothing => exact ⟨rfl, by simp⟩
  | case2 kind follow =>
      cases hc
      simpa using of_refused h
  | case3 kind follow yes no ih =>
      obtain ⟨kinds, hkinds, rfl⟩ := Option.map_eq_some_iff.1 hc
      rcases h.ifElse_inv with ⟨_, _, _, _, _, _, _, hb⟩ | ⟨_, _, _, htest, hno, _⟩
      · cases hb
      · obtain ⟨mid, rfl⟩ := hno.exists_text
        obtain ⟨rfl, hhead⟩ := of_refused htest
        obtain ⟨rfl, hrest⟩ := ih hno hkinds
        exact ⟨rfl, by simpa using ⟨hhead, hrest⟩⟩
  | case4 => cases hc

theorem of_demand {kind : Kind} (h : Runs n phrase (.text ks) o b (.text rest))
    (hd : phrase.demand? = some kind) : ks.head? = some kind := by
  fun_induction Phrase.demand? generalizing o b rest with
  | case1 kind =>
      cases hd
      cases h with
      | idle hh => exact hh.elim
      | need => rfl
  | case2 first second ih =>
      obtain ⟨_, _, _, _, hfirst, hsecond, _⟩ := h.seq_inv
      obtain ⟨mid, rfl⟩ := hsecond.exists_text
      exact ih hfirst hd
  | case3 => cases hd

theorem not_excludes {test no : Phrase} {o' : List Offer} {b : Bool} {ks mid rest : List Kind}
    (htest : Runs n test (.text ks) o false (.text mid))
    (hno : Runs n no (.text mid) o' b (.text rest)) : test.excludes no = false := by
  refine Bool.eq_false_iff.2 fun hex => ?_
  simp only [Phrase.excludes, Option.any_eq_true, List.contains_eq_mem, decide_eq_true_eq] at hex
  obtain ⟨kinds, hkinds, kind, hkind, hmem⟩ := hex
  obtain ⟨rfl, hhead⟩ := htest.of_choices hkinds
  exact hhead kind hmem (hno.of_demand hkind)

theorem fits {u v : List Kind} (h : Runs n phrase (.text (u ++ v)) o b (.text v)) :
    phrase.Fits u v := by
  intro kind hhead hbar
  obtain ⟨v, rfl⟩ := List.head?_eq_some_iff.1 hhead
  fun_induction Phrase.bars generalizing o b u with
  | case1 kinds yes no =>
      simp only [List.mem_map, Option.mem_toList, List.getLast?_eq_some_iff, Prod.mk.injEq] at hbar
      obtain ⟨last, ⟨front, rfl⟩, rfl, rfl⟩ := hbar
      rw [List.dropLast_concat] at h
      rcases h.ifElse_inv with ⟨_, _, _, _, htest, hyes, _⟩ | ⟨_, _, _, htest, hno, _⟩
      · obtain ⟨mid, rfl⟩ := hyes.exists_text
        have hlen := hyes.length_le
        rcases htest.accept_inv with ⟨-, -, rfl⟩ | ⟨hb, -⟩
        · simp only [Guard.width, List.length_drop, List.length_append, List.length_cons,
            List.length_nil] at hlen
          omega
        · cases hb
      · obtain ⟨mid, rfl⟩ := hno.exists_text
        rcases htest.accept_inv with ⟨hb, -⟩ | ⟨-, hks | hpre, -⟩
        · cases hb
        · simp at hks
        · exact hpre ⟨v, by simp [Guard.kinds]⟩
  | case2 first follow yes no ih =>
      obtain ⟨⟨front, last⟩, hyes_bar, heq⟩ := List.mem_map.1 hbar
      simp only [Prod.mk.injEq] at heq
      obtain ⟨rfl, rfl⟩ := heq
      rcases h.ifElse_inv with ⟨_, _, _, _, htest, hyes, _⟩ | ⟨_, _, _, htest, hno, _⟩
      · obtain ⟨mid, rfl⟩ := hyes.exists_text
        rcases htest.accept_inv with ⟨-, -, rfl⟩ | ⟨hb, -⟩
        · exact ih hyes_bar hyes
        · cases hb
      · obtain ⟨mid, rfl⟩ := hno.exists_text
        exact absurd rfl (of_refused htest).2
  | case3 => cases hbar

variable {nests : Nest → Language Kind}

theorem words
    (hnest : ∀ again {o ks rest}, Runs n (.nest again) (.text ks) o false (.text rest) →
      ∃ w ∈ nests again, w ++ rest = ks)
    (h : Runs n phrase (.text ks) o b (.text rest)) : ∃ w ∈ phrase.words nests b,
      w ++ rest = ks := by
  induction phrase generalizing ks o b rest with
  | nothing | note | stray =>
      cases h with
      | idle hh => exact hh.elim
      | _ => exact ⟨[], rfl, rfl⟩
  | accept guard =>
      rcases h.accept_inv with ⟨rfl, ⟨after, rfl⟩, rfl⟩ | ⟨rfl, -, rfl⟩
      · refine ⟨_, rfl, ?_⟩
        cases guard <;> simp [Guard.kinds, Guard.width]
      · exact ⟨[], rfl, rfl⟩
  | need kind =>
      cases h with
      | idle hh => exact hh.elim
      | need => exact ⟨_, rfl, rfl⟩
  | fail =>
      cases h with
      | idle hh => exact hh.elim
  | seq first second ih₁ ih₂ =>
      obtain ⟨_, _, _, _, hfirst, hsecond, _⟩ := h.seq_inv
      obtain ⟨mid, rfl⟩ := hsecond.exists_text
      obtain ⟨u, hu, rfl⟩ := ih₁ hfirst
      obtain ⟨v, hv, rfl⟩ := ih₂ hsecond
      refine ⟨u ++ v, Phrase.mem_words_seq.2 ⟨u, Phrase.mem_text.2 ⟨_, hu⟩, v, hv, ?_, rfl⟩,
        List.append_assoc ..⟩
      intro kind hhead
      exact hfirst.fits kind (by simp [List.head?_append, hhead])
  | ifElse test yes no iht ihy ihn =>
      rcases h.ifElse_inv with ⟨_, _, _, _, htest, hyes, _, rfl⟩ | ⟨_, _, _, htest, hno, _⟩
      · obtain ⟨mid, rfl⟩ := hyes.exists_text
        obtain ⟨u, hu, rfl⟩ := iht htest
        obtain ⟨v, hv, rfl⟩ := ihy hyes
        exact ⟨u ++ v, Phrase.mem_words_ifElse.2 (.inl ⟨rfl, Language.append_mem_mul hu
          (Phrase.mem_text.2 ⟨_, hv⟩)⟩), List.append_assoc ..⟩
      · obtain ⟨mid, rfl⟩ := hno.exists_text
        have hex := htest.not_excludes hno
        obtain ⟨u, hu, rfl⟩ := iht htest
        obtain ⟨v, hv, rfl⟩ := ihn hno
        exact ⟨u ++ v, Phrase.mem_words_ifElse.2 (.inr ⟨hex, Language.append_mem_mul hu hv⟩),
          List.append_assoc ..⟩
  | many body ih =>
      obtain rfl := h.taken_many
      have hmany := h.many_induction
        (motive := fun s _ s' => ∀ ks rest, s = .text ks → s' = .text rest →
          ∃ w ∈ (Phrase.many body).words nests false, w ++ rest = ks) ?_ ?_
      · exact hmany ks rest rfl rfl
      · rintro _ _ _ hstop ks rest rfl rfl
        obtain ⟨v, hv, rfl⟩ := ih hstop
        exact ⟨v, Phrase.mem_words_many.2 ⟨[], by simp, v, hv, rfl⟩, rfl⟩
      · rintro _ _ _ _ _ hturn hrest hmore ks rest rfl rfl
        obtain ⟨mid, rfl⟩ := hrest.exists_text
        obtain ⟨u, hu, rfl⟩ := ih hturn
        obtain ⟨w, hw, rfl⟩ := hmore mid rest rfl rfl
        obtain ⟨turns, hturns, v, hv, rfl⟩ := Phrase.mem_words_many.1 hw
        exact ⟨u ++ (turns.flatten ++ v), Phrase.mem_words_many.2
          ⟨u :: turns, by simpa using ⟨hu, hturns⟩, v, hv, by simp⟩, by simp⟩
  | rule name body ih =>
      cases h with
      | idle hh => exact hh.elim
      | rule hbody => exact ih hbody
  | node shape body ih =>
      cases h with
      | idle hh => exact hh.elim
      | node hbody => exact ih hbody
  | nest again =>
      have hb : b = false := by cases h <;> rfl
      subst hb
      exact hnest again h

end Runs

end SqlAtlas
