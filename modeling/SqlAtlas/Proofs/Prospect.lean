import Mathlib.Data.List.Pairwise
import SqlAtlas.Proofs.Foresight

namespace SqlAtlas

namespace Phrase

section Samples

def thin (samples : List (Bool × List Kind)) : List (Bool × List Kind) :=
  samples.pwFilter fun s t => (s.1, s.2.head?) ≠ (t.1, t.2.head?)

def join (u : List Kind) (more : List (Bool × List Kind)) : List (Bool × List Kind) :=
  if u.isEmpty then more
  else ((more.find? Prod.fst).toList ++ (more.find? (!·.1)).toList).map fun s => (s.1, u ++ s.2)

theorem mem_of_mem_thin {samples : List (Bool × List Kind)} {s : Bool × List Kind}
    (h : s ∈ thin samples) : s ∈ samples :=
  (List.pwFilter_sublist samples).subset h

theorem exists_of_mem_join {u w : List Kind} {more : List (Bool × List Kind)} {b : Bool}
    (h : (b, w) ∈ join u more) : ∃ v, (b, v) ∈ more ∧ u ++ v = w := by
  unfold join at h
  split at h
  · next hu =>
      obtain rfl := List.isEmpty_iff.1 hu
      exact ⟨w, h, rfl⟩
  · obtain ⟨⟨b, v⟩, hs, heq⟩ := List.mem_map.1 h
    obtain ⟨rfl, rfl⟩ := Prod.mk.inj heq
    refine ⟨v, ?_, rfl⟩
    rcases List.mem_append.1 hs with hs | hs
    · exact List.mem_of_find?_eq_some (Option.mem_toList.1 hs)
    · exact List.mem_of_find?_eq_some (Option.mem_toList.1 hs)

def fits (phrase : Phrase) (u v : List Kind) : Bool :=
  v.head?.all fun kind => !phrase.bars.contains (u, kind)

theorem Fits.of_fits {phrase : Phrase} {u v : List Kind} (h : phrase.fits u v = true) :
    phrase.Fits u v := by
  intro kind hhead hbar
  simp [fits, hhead, hbar] at h

variable (opens : Nest → List (List Kind))

def samples : Phrase → List (Bool × List Kind)
  | .nothing | .note _ | .stray => [(false, [])]
  | .accept guard => [(true, guard.kinds.take guard.width), (false, [])]
  | .need kind => [(true, [kind])]
  | .fail => []
  | .seq first second =>
      let more := second.samples
      thin (first.samples.flatMap fun s => join s.2 (more.filter fun t => first.fits s.2 t.2))
  | .ifElse test yes no =>
      let taken := yes.samples.map fun s => (true, s.2)
      let refused := if test.excludes no then [] else no.samples
      thin (test.samples.flatMap fun s => join s.2 (if s.1 then taken else refused))
  | .many body =>
      let turns := body.samples
      let stops := turns.filter fun s => !s.1
      thin (stops ++ (turns.filter fun s => s.1).flatMap fun s => join s.2 stops)
  | .rule _ body | .node _ body => body.samples
  | .nest again => (opens again).map (false, ·)

variable {opens} {nests : Nest → Language Kind}

theorem mem_words_of_samples (hopens : ∀ again, ∀ w ∈ opens again, w ∈ nests again)
    {phrase : Phrase} {b : Bool} {w : List Kind} (h : (b, w) ∈ phrase.samples opens) :
    w ∈ phrase.words nests b := by
  induction phrase generalizing b w with
  | nothing | note role | stray =>
      obtain ⟨rfl, rfl⟩ := Prod.mk.inj (List.mem_singleton.1 h)
      rfl
  | fail => cases h
  | accept guard =>
      rcases List.mem_cons.1 h with heq | h
      · obtain ⟨rfl, rfl⟩ := Prod.mk.inj heq
        rfl
      · obtain ⟨rfl, rfl⟩ := Prod.mk.inj (List.mem_singleton.1 h)
        rfl
  | need kind =>
      obtain ⟨rfl, rfl⟩ := Prod.mk.inj (List.mem_singleton.1 h)
      rfl
  | seq first second ih₁ ih₂ =>
      obtain ⟨⟨c, u⟩, hu, hjoin⟩ := List.mem_flatMap.1 (mem_of_mem_thin h)
      obtain ⟨v, hv, rfl⟩ := exists_of_mem_join hjoin
      obtain ⟨hv, hfits⟩ := List.mem_filter.1 hv
      exact mem_words_seq.2 ⟨u, mem_text.2 ⟨c, ih₁ hu⟩, v, ih₂ hv, .of_fits hfits, rfl⟩
  | ifElse test yes no iht ihy ihn =>
      obtain ⟨⟨c, u⟩, hu, hjoin⟩ := List.mem_flatMap.1 (mem_of_mem_thin h)
      obtain ⟨v, hv, rfl⟩ := exists_of_mem_join hjoin
      cases c with
      | true =>
          obtain ⟨⟨d, v⟩, hyes, heq⟩ := List.mem_map.1 hv
          obtain ⟨rfl, rfl⟩ := Prod.mk.inj heq
          exact mem_words_ifElse.2 (.inl ⟨rfl, Language.append_mem_mul (iht hu)
            (mem_text.2 ⟨d, ihy hyes⟩)⟩)
      | false =>
          cases hex : test.excludes no with
          | true => simp [hex] at hv
          | false =>
              rw [hex] at hv
              exact mem_words_ifElse.2 (.inr ⟨hex, Language.append_mem_mul (iht hu) (ihn hv)⟩)
  | many body ih =>
      rcases List.mem_append.1 (mem_of_mem_thin h) with hstop | hturn
      · obtain ⟨hstop, hb⟩ := List.mem_filter.1 hstop
        obtain rfl : b = false := by simpa using hb
        exact mem_words_many.2 ⟨[], by simp, w, ih hstop, rfl⟩
      · obtain ⟨⟨c, u⟩, hu, hjoin⟩ := List.mem_flatMap.1 hturn
        obtain ⟨hu, hc⟩ := List.mem_filter.1 hu
        obtain rfl : c = true := hc
        obtain ⟨v, hv, rfl⟩ := exists_of_mem_join hjoin
        obtain ⟨hv, hb⟩ := List.mem_filter.1 hv
        obtain rfl : b = false := by simpa using hb
        exact mem_words_many.2 ⟨[u], by simpa using ih hu, v, ih hv, by simp⟩
  | rule name body ih => exact ih h
  | node shape body ih => exact ih h
  | nest again =>
      obtain ⟨w, hw, heq⟩ := List.mem_map.1 h
      obtain ⟨rfl, rfl⟩ := Prod.mk.inj heq
      exact hopens again w hw

end Samples

/-- Whatever the phrase offers, it takes a turn with. -/
def asks : Phrase → Bool
  | .ifElse test _ no => test.asks && no.asks
  | .rule _ body | .node _ body => body.asks
  | .seq _ _ | .many _ | .nest _ => false
  | _ => true

section Candid

variable (opens : Nest → List (List Kind))

def begins (phrase : Phrase) (kind : Kind) : Bool :=
  (phrase.samples opens).any fun s => s.2.head? == some kind

/-- The kinds that the phrase can offer and leave to what comes after it. -/
def pending : Phrase → List Kind
  | .accept (.before kind) => [kind]
  | .seq _ second => second.pending
  | .ifElse test yes no =>
      test.pending.filter (fun kind => !yes.begins opens kind) ++ yes.pending ++ no.pending
  | .rule _ body | .node _ body => body.pending
  | _ => []

/-- Whatever is offered can be gone on with. -/
def candid : Phrase → Bool
  | .seq first second =>
      first.candid && second.candid &&
        (second.samples opens).any
          (fun s => s.2.head?.all fun kind => first.bars.all (·.2 != kind)) &&
        (first.pending opens).all (second.begins opens) &&
        ((first.pending opens).isEmpty || first.bars.isEmpty)
  | .ifElse test yes no =>
      test.candid && yes.candid && no.candid && !(yes.samples opens).isEmpty &&
        (test.pending opens).all (fun kind =>
          yes.begins opens kind || (yes.samples opens).any (·.2.isEmpty)) &&
        (if test.excludes no then
          test.asks && no.demand?.all fun kind =>
            (test.samples opens).any fun s => s.1 && s.2.head? == some kind
        else test.asks || !(no.samples opens).isEmpty)
  | .many body =>
      body.candid && (body.pending opens).isEmpty && (body.samples opens).any (!·.1)
  | .rule _ body | .node _ body => body.candid
  | _ => true

end Candid

end Phrase

/-- The kind can come after these kinds in a word of the phrase, or is left to what follows them. -/
def Viable (opens : Nest → List (List Kind)) (nests : Nest → Language Kind) (phrase : Phrase)
    (ks : List Kind) (k : Kind) : Prop :=
  (∃ b post, (phrase.asks = true → b = true) ∧ ks ++ k :: post ∈ phrase.words nests b) ∨
    (k ∈ phrase.pending opens ∧ ks ∈ phrase.words nests true)

namespace Viable

open Phrase

variable {opens : Nest → List (List Kind)} {nests : Nest → Language Kind}
  (hopens : ∀ again, ∀ w ∈ opens again, w ∈ nests again) {u v ks : List Kind} {k : Kind}
include hopens

theorem exists_of_begins {phrase : Phrase} (h : phrase.begins opens k = true) :
    ∃ post, k :: post ∈ phrase.text nests := by
  obtain ⟨⟨b, w⟩, hw, hhead⟩ := List.any_eq_true.1 h
  obtain ⟨post, rfl⟩ := List.head?_eq_some_iff.1 (beq_iff_eq.1 hhead)
  exact ⟨post, mem_text.2 ⟨b, mem_words_of_samples hopens hw⟩⟩

theorem exists_of_not_isEmpty {phrase : Phrase} (h : (phrase.samples opens).isEmpty = false) :
    ∃ b w, w ∈ phrase.words nests b := by
  obtain ⟨⟨b, w⟩, hw⟩ := List.exists_mem_of_ne_nil _ (List.isEmpty_eq_false_iff.1 h)
  exact ⟨b, w, mem_words_of_samples hopens hw⟩

theorem exists_of_bars {phrase : Phrase} (hcandid : phrase.candid opens = true)
    (h : (u, k) ∈ phrase.bars) : ∃ post, u ++ k :: post ∈ phrase.words nests true := by
  fun_induction Phrase.bars generalizing u with
  | case1 kinds yes no =>
      simp only [List.mem_map, Option.mem_toList, List.getLast?_eq_some_iff, Prod.mk.injEq] at h
      obtain ⟨last, ⟨front, rfl⟩, rfl, rfl⟩ := h
      simp only [candid, Bool.and_eq_true, Bool.not_eq_true'] at hcandid
      obtain ⟨b, w, hw⟩ := exists_of_not_isEmpty hopens hcandid.1.1.2
      refine ⟨w, mem_words_ifElse.2 (.inl ⟨rfl, ?_⟩)⟩
      have hrun : front ++ [last] ∈ (Phrase.accept (.run (front ++ [last]))).words nests true :=
        List.take_length.symm
      have hword := Language.append_mem_mul hrun (mem_text.2 ⟨b, hw⟩)
      simpa using hword
  | case2 kind follow yes no ih =>
      obtain ⟨⟨front, last⟩, hbar, heq⟩ := List.mem_map.1 h
      obtain ⟨rfl, rfl⟩ := Prod.mk.inj heq
      simp only [candid, Bool.and_eq_true] at hcandid
      obtain ⟨post, hpost⟩ := ih hcandid.1.1.1.1.2 hbar
      exact ⟨post, mem_words_ifElse.2 (.inl ⟨rfl, [kind], rfl, _, mem_text.2 ⟨true, hpost⟩, rfl⟩)⟩
  | case3 => cases h

section Seq

variable {first second : Phrase} (hcandid : (Phrase.seq first second).candid opens = true)
include hcandid

theorem exists_of_first {b : Bool} (h : u ∈ first.words nests b) :
    ∃ c v, u ++ v ∈ (Phrase.seq first second).words nests c := by
  simp only [candid, Bool.and_eq_true] at hcandid
  obtain ⟨⟨c, v⟩, hv, hfits⟩ := List.any_eq_true.1 hcandid.1.1.2
  refine ⟨c, v, mem_words_seq.2 ⟨u, mem_text.2 ⟨b, h⟩, v, mem_words_of_samples hopens hv, ?_, rfl⟩⟩
  intro kind hhead hbar
  simp only [hhead, Option.all_some, List.all_eq_true] at hfits
  simpa using hfits _ hbar

theorem seq_of_first (h : Viable opens nests first ks k) :
    Viable opens nests (.seq first second) ks k := by
  rcases h with ⟨b, post, -, hpost⟩ | ⟨hpending, hks⟩
  · obtain ⟨c, v, hv⟩ := exists_of_first hopens hcandid hpost
    exact .inl ⟨c, post ++ v, by simp [asks], by simpa using hv⟩
  · simp only [candid, Bool.and_eq_true, Bool.or_eq_true, List.all_eq_true] at hcandid
    obtain ⟨⟨-, hbegins⟩, hbars⟩ := hcandid
    have hnobars : first.bars = [] := by
      rcases hbars with hnone | hnone
      · rw [List.isEmpty_iff.1 hnone] at hpending
        cases hpending
      · exact List.isEmpty_iff.1 hnone
    obtain ⟨post, hpost⟩ := exists_of_begins hopens (hbegins k hpending)
    obtain ⟨c, hpost⟩ := mem_text.1 hpost
    refine .inl ⟨c, post, by simp [asks], mem_words_seq.2
      ⟨ks, mem_text.2 ⟨true, hks⟩, _, hpost, ?_, rfl⟩⟩
    simp [Fits, hnobars]

theorem seq_of_second {b : Bool} (hu : u ∈ first.words nests b) (hfits : first.Fits u ks)
    (h : Viable opens nests second ks k) : Viable opens nests (.seq first second) (u ++ ks) k := by
  rcases h with ⟨c, post, -, hpost⟩ | ⟨hpending, hks⟩
  · by_cases hbar : ks = [] ∧ (u, k) ∈ first.bars
    · obtain ⟨rfl, hbar⟩ := hbar
      have hfirst := hcandid
      simp only [candid, Bool.and_eq_true] at hfirst
      obtain ⟨post, hpost⟩ := exists_of_bars hopens hfirst.1.1.1.1 hbar
      obtain ⟨c, v, hv⟩ := exists_of_first hopens hcandid hpost
      exact .inl ⟨c, post ++ v, by simp [asks], by simpa using hv⟩
    · refine .inl ⟨c, post, by simp [asks], mem_words_seq.2
        ⟨u, mem_text.2 ⟨b, hu⟩, _, hpost, ?_, by simp⟩⟩
      intro kind hhead hmem
      cases ks with
      | nil => exact hbar ⟨rfl, by simpa [← Option.some.inj hhead] using hmem⟩
      | cons j ks => exact hfits kind (by simpa using hhead) hmem
  · exact .inr ⟨hpending, mem_words_seq.2 ⟨u, mem_text.2 ⟨b, hu⟩, ks, hks, hfits, rfl⟩⟩

end Seq

section IfElse

variable {test yes no : Phrase} (hcandid : (Phrase.ifElse test yes no).candid opens = true)
include hcandid

theorem exists_of_test {w : List Kind} (h : w ∈ test.words nests true) :
    ∃ v, w ++ v ∈ (Phrase.ifElse test yes no).words nests true := by
  simp only [candid, Bool.and_eq_true, Bool.not_eq_true'] at hcandid
  obtain ⟨b, v, hv⟩ := exists_of_not_isEmpty hopens hcandid.1.1.2
  exact ⟨v, mem_words_ifElse.2 (.inl ⟨rfl, Language.append_mem_mul h (mem_text.2 ⟨b, hv⟩)⟩)⟩

theorem ifElse_of_test (h : Viable opens nests test ks k) :
    Viable opens nests (.ifElse test yes no) ks k := by
  rcases h with ⟨b, post, hasks, hpost⟩ | ⟨hpending, hks⟩
  · cases b with
    | true =>
        obtain ⟨v, hv⟩ := exists_of_test hopens hcandid hpost
        exact .inl ⟨true, post ++ v, fun _ => rfl, by simpa using hv⟩
    | false =>
        have htest : test.asks = false := Bool.eq_false_iff.2 fun h => by simpa using hasks h
        simp only [candid, htest, Bool.false_and, Bool.false_or, Bool.and_eq_true] at hcandid
        have hrest := hcandid.2
        split at hrest
        · cases hrest
        · next hex =>
            obtain ⟨b, v, hv⟩ := exists_of_not_isEmpty hopens (by simpa using hrest)
            refine .inl ⟨b, post ++ v, by simp [asks, htest], mem_words_ifElse.2 (.inr
              ⟨by simpa using hex, ?_⟩)⟩
            simpa using Language.append_mem_mul hpost hv
  · simp only [candid, Bool.and_eq_true, List.all_eq_true, Bool.or_eq_true] at hcandid
    by_cases hbegins : yes.begins opens k = true
    · obtain ⟨post, hpost⟩ := exists_of_begins hopens hbegins
      exact .inl ⟨true, post, fun _ => rfl, mem_words_ifElse.2 (.inl
        ⟨rfl, Language.append_mem_mul hks hpost⟩)⟩
    · obtain ⟨⟨b, v⟩, hv, hblank⟩ :=
        List.any_eq_true.1 ((hcandid.1.2 k hpending).resolve_left hbegins)
      obtain rfl : v = [] := List.isEmpty_iff.1 hblank
      refine .inr ⟨?_, mem_words_ifElse.2 (.inl ⟨rfl, ks, hks, [], mem_text.2
        ⟨b, mem_words_of_samples hopens hv⟩, List.append_nil ks⟩)⟩
      simp only [pending, List.mem_append, List.mem_filter]
      exact .inl (.inl ⟨hpending, by simpa using hbegins⟩)

omit hopens hcandid in
theorem ifElse_of_yes (hu : u ∈ test.words nests true) (h : Viable opens nests yes ks k) :
    Viable opens nests (.ifElse test yes no) (u ++ ks) k := by
  rcases h with ⟨b, post, -, hpost⟩ | ⟨hpending, hks⟩
  · refine .inl ⟨true, post, fun _ => rfl, mem_words_ifElse.2 (.inl ⟨rfl, ?_⟩)⟩
    simpa using Language.append_mem_mul hu (mem_text.2 ⟨b, hpost⟩)
  · refine .inr ⟨by simp [pending, hpending], mem_words_ifElse.2 (.inl ⟨rfl, ?_⟩)⟩
    exact Language.append_mem_mul hu (mem_text.2 ⟨true, hks⟩)

omit hopens hcandid in
theorem ifElse_of_no (hu : u ∈ test.words nests false) (hex : test.excludes no = false)
    (h : Viable opens nests no ks k) : Viable opens nests (.ifElse test yes no) (u ++ ks) k := by
  rcases h with ⟨b, post, hasks, hpost⟩ | ⟨hpending, hks⟩
  · refine .inl ⟨b, post, fun h => hasks ?_, mem_words_ifElse.2 (.inr ⟨hex, ?_⟩)⟩
    · simp only [asks, Bool.and_eq_true] at h
      exact h.2
    · simpa using Language.append_mem_mul hu hpost
  · refine .inr ⟨by simp [pending, hpending], mem_words_ifElse.2 (.inr ⟨hex, ?_⟩)⟩
    exact Language.append_mem_mul hu hks

theorem ifElse_of_demand (hex : test.excludes no = true) (hdemand : no.demand? = some k) :
    Viable opens nests (.ifElse test yes no) [] k := by
  have htest := hcandid
  simp only [candid, hex, if_true, Bool.and_eq_true, hdemand, Option.all_some] at htest
  obtain ⟨⟨b, w⟩, hw, hbegins⟩ := List.any_eq_true.1 htest.2.2
  obtain ⟨rfl, hhead⟩ : b = true ∧ w.head? = some k := by simpa using hbegins
  obtain ⟨post, rfl⟩ := List.head?_eq_some_iff.1 hhead
  obtain ⟨v, hv⟩ := exists_of_test hopens hcandid (mem_words_of_samples hopens hw)
  exact .inl ⟨true, post ++ v, fun _ => rfl, by simpa using hv⟩

end IfElse

section Many

variable {body : Phrase} (hcandid : (Phrase.many body).candid opens = true)
include hcandid

theorem many_of_turn (h : Viable opens nests body ks k) :
    ∃ post, ks ++ k :: post ∈ (Phrase.many body).words nests false := by
  simp only [candid, Bool.and_eq_true] at hcandid
  rcases h with ⟨b, post, -, hpost⟩ | ⟨hpending, -⟩
  · cases b with
    | true =>
        obtain ⟨⟨b, v⟩, hv, hb⟩ := List.any_eq_true.1 hcandid.2
        obtain rfl : b = false := by simpa using hb
        exact ⟨post ++ v, mem_words_many.2 ⟨[ks ++ k :: post], by simpa using hpost, v,
          mem_words_of_samples hopens hv, by simp⟩⟩
    | false => exact ⟨post, mem_words_many.2 ⟨[], by simp, _, hpost, rfl⟩⟩
  · rw [List.isEmpty_iff.1 hcandid.1.2] at hpending
    cases hpending

omit hopens hcandid in
theorem many_of_more (hu : u ∈ body.words nests true)
    (h : ∃ post, ks ++ k :: post ∈ (Phrase.many body).words nests false) :
    ∃ post, u ++ ks ++ k :: post ∈ (Phrase.many body).words nests false := by
  obtain ⟨post, hpost⟩ := h
  obtain ⟨turns, hturns, v, hv, heq⟩ := mem_words_many.1 hpost
  refine ⟨post, mem_words_many.2 ⟨u :: turns, by simpa using ⟨hu, hturns⟩, v, hv, ?_⟩⟩
  rw [List.flatten_cons, List.append_assoc, heq, List.append_assoc]

end Many

end Viable

namespace Runs

open Phrase

variable {n : Nat} {phrase : Phrase} {o : List Offer} {b : Bool} {s' : Place}
  {ks : List Kind} {k : Kind}

theorem of_missing (h : Runs n phrase (.text ks) o b s') (hd : phrase.demand? = some k)
    (hhead : ks.head? ≠ some k) : ks = [] ∧ o = [(k, [])] ∧ s' = .caret := by
  fun_induction Phrase.demand? generalizing o b s' with
  | case1 kind =>
      cases hd
      cases h with
      | idle hh => exact hh.elim
      | need => exact absurd rfl hhead
      | needAtCaret => exact ⟨rfl, rfl, rfl⟩
  | case2 first second ih =>
      obtain ⟨_, _, _, _, hfirst, hsecond, rfl⟩ := h.seq_inv
      obtain ⟨rfl, rfl, rfl⟩ := ih hfirst hd
      obtain ⟨rfl, -, rfl⟩ := hsecond.of_halted trivial
      exact ⟨rfl, rfl, rfl⟩
  | case3 => cases hd

variable {opens : Nest → List (List Kind)} {nests : Nest → Language Kind}

theorem viable (hopens : ∀ again, ∀ w ∈ opens again, w ∈ nests again)
    (hreads : ∀ again {o ks rest}, Runs n (.nest again) (.text ks) o false (.text rest) →
      ∃ w ∈ nests again, w ++ rest = ks)
    (hnest : ∀ again {o ks s'}, Runs n (.nest again) (.text ks) o false s' →
      k ∈ o.map Prod.fst → ∃ post, ks ++ k :: post ∈ nests again)
    (hcandid : phrase.candid opens = true) (h : Runs n phrase (.text ks) o b s')
    (hk : k ∈ o.map Prod.fst) : Viable opens nests phrase ks k := by
  induction phrase generalizing ks o b s' with
  | nothing | note role | fail | stray =>
      cases h with
      | idle hh => exact hh.elim
      | _ => cases hk
  | accept guard =>
      cases h with
      | idle hh => exact hh.elim
      | accept => cases hk
      | refuse => cases hk
      | offer =>
          cases guard with
          | token kind follow =>
              obtain rfl : k = kind := by simpa [Guard.offer?] using hk
              exact .inl ⟨true, [], fun _ => rfl, rfl⟩
          | before kind =>
              obtain rfl : k = kind := by simpa [Guard.offer?] using hk
              exact .inr ⟨by simp [pending], rfl⟩
          | run kinds => cases hk
          | sight kinds => cases hk
  | need kind =>
      cases h with
      | idle hh => exact hh.elim
      | need => cases hk
      | needAtCaret =>
          obtain rfl : k = kind := by simpa using hk
          exact .inl ⟨true, [], fun _ => rfl, rfl⟩
  | seq first second ih₁ ih₂ =>
      have hparts := hcandid
      simp only [candid, Bool.and_eq_true] at hparts
      obtain ⟨⟨⟨⟨hfirst, hsecond⟩, -⟩, -⟩, -⟩ := hparts
      obtain ⟨o₁, b₁, s₁, o₂, h₁, h₂, rfl⟩ := h.seq_inv
      rcases List.mem_append.1 (List.map_append ▸ hk) with hk | hk
      · exact .seq_of_first hopens hcandid (ih₁ hfirst h₁ hk)
      · obtain ⟨mid, rfl⟩ := h₂.text_of_offer hk
        obtain ⟨u, hu, rfl⟩ := h₁.words hreads
        exact .seq_of_second hopens hcandid hu h₁.fits (ih₂ hsecond h₂ hk)
  | ifElse test yes no iht ihy ihn =>
      have hparts := hcandid
      simp only [candid, Bool.and_eq_true] at hparts
      obtain ⟨⟨⟨⟨⟨htest, hyes⟩, hno⟩, -⟩, -⟩, -⟩ := hparts
      rcases h.ifElse_inv with ⟨o₁, s₁, o₂, b₂, h₁, h₂, rfl, -⟩ | ⟨o₁, s₁, o₂, h₁, h₂, rfl⟩
      · rcases List.mem_append.1 (List.map_append ▸ hk) with hk | hk
        · exact .ifElse_of_test hopens hcandid (iht htest h₁ hk)
        · obtain ⟨mid, rfl⟩ := h₂.text_of_offer hk
          obtain ⟨u, hu, rfl⟩ := h₁.words hreads
          exact .ifElse_of_yes hu (ihy hyes h₂ hk)
      · rcases List.mem_append.1 (List.map_append ▸ hk) with hk | hk
        · exact .ifElse_of_test hopens hcandid (iht htest h₁ hk)
        · obtain ⟨mid, rfl⟩ := h₂.text_of_offer hk
          cases hex : test.excludes no with
          | false =>
              obtain ⟨u, hu, rfl⟩ := h₁.words hreads
              exact .ifElse_of_no hu hex (ihn hno h₂ hk)
          | true =>
              have hchoice := hex
              simp only [excludes, Option.any_eq_true, List.contains_eq_mem,
                decide_eq_true_eq] at hchoice
              obtain ⟨kinds, hkinds, kind, hdemand, hmem⟩ := hchoice
              obtain ⟨rfl, hheads⟩ := h₁.of_choices hkinds
              obtain ⟨rfl, rfl, -⟩ := h₂.of_missing hdemand (hheads kind hmem)
              obtain rfl : k = kind := by simpa using hk
              exact .ifElse_of_demand hopens hcandid hex hdemand
  | many body ih =>
      have hbody := hcandid
      simp only [candid, Bool.and_eq_true] at hbody
      have hmany := h.many_induction
        (motive := fun s o _ => ∀ ks, s = .text ks → k ∈ o.map Prod.fst →
          ∃ post, ks ++ k :: post ∈ (Phrase.many body).words nests false) ?_ ?_
      · obtain ⟨post, hpost⟩ := hmany ks rfl hk
        exact .inl ⟨false, post, by simp [asks], hpost⟩
      · rintro _ _ _ hstop ks rfl hk
        exact Viable.many_of_turn hopens hcandid (ih hbody.1.1 hstop hk)
      · rintro _ _ _ _ _ hturn hrest hmore ks rfl hk
        rcases List.mem_append.1 (List.map_append ▸ hk) with hk | hk
        · exact Viable.many_of_turn hopens hcandid (ih hbody.1.1 hturn hk)
        · obtain ⟨mid, rfl⟩ := hrest.text_of_offer hk
          obtain ⟨u, hu, rfl⟩ := hturn.words hreads
          exact Viable.many_of_more hu (hmore mid rfl hk)
  | rule name body ih =>
      cases h with
      | idle hh => exact hh.elim
      | rule h => exact ih hcandid h hk
  | node shape body ih =>
      cases h with
      | idle hh => exact hh.elim
      | node h => exact ih hcandid h hk
  | nest again =>
      have hb : b = false := by cases h <;> rfl
      subst hb
      obtain ⟨post, hpost⟩ := hnest again h hk
      exact .inl ⟨false, post, by simp [asks], hpost⟩

end Runs

def Nest.samples : Nat → Nest → List (List Kind)
  | 0, _ => []
  | levels + 1, again => ((Grammar.body again).samples (Nest.samples levels)).map Prod.snd

theorem Nest.mem_words_of_samples {levels m : Nat} (hm : levels ≤ m) {again : Nest} {w : List Kind}
    (h : w ∈ Nest.samples levels again) : w ∈ (Setting.upTo True m).words again := by
  induction levels generalizing m again w with
  | zero => cases h
  | succ levels ih =>
      obtain ⟨m, rfl⟩ := Nat.exists_eq_succ_of_ne_zero (Nat.ne_zero_of_lt hm)
      obtain ⟨⟨b, w⟩, hw, rfl⟩ := List.mem_map.1 h
      have hword := Phrase.mem_words_of_samples (fun _ _ => ih (Nat.le_of_succ_le_succ hm)) hw
      exact Grammar.text_body m again ▸ Phrase.mem_text.2 ⟨b, hword⟩

theorem candid_body (again : Nest) :
    (Grammar.body again).candid (Nest.samples 2) = true ∧
      (Grammar.body again).pending (Nest.samples 2) = [] := by
  cases again <;> decide +kernel

theorem candid_script : Grammar.script.candid (Nest.samples 2) = true := by
  decide +kernel

namespace Runs

variable {n : Nat} {o : List Offer} {b : Bool} {s' : Place} {ks : List Kind} {k : Kind}

theorem nest_viable (again : Nest) (h : Runs n (.nest again) (.text ks) o false s')
    (hk : k ∈ o.map Prod.fst) :
    ∃ post, ks ++ k :: post ∈ (Setting.upTo True (n + 2)).words again := by
  induction n generalizing again o ks s' with
  | zero =>
      cases h with
      | idle hh => exact hh.elim
      | tooDeep => cases hk
  | succ n ih =>
      cases h with
      | idle hh => exact hh.elim
      | nest h =>
          have hopens : ∀ again, ∀ w ∈ Nest.samples 2 again,
              w ∈ (Setting.upTo True (n + 2)).words again :=
            fun again w => Nest.mem_words_of_samples (Nat.le_add_left 2 n)
          obtain ⟨hcandid, hpending⟩ := candid_body again
          rcases h.viable hopens (fun again _ _ _ => nest_words (Nat.le_add_right n 2) again)
            (fun again _ _ _ => ih again) hcandid hk with ⟨b, post, -, hpost⟩ | ⟨hmem, -⟩
          · refine ⟨post, ?_⟩
            exact Grammar.text_body (n + 2) again ▸ Phrase.mem_text.2 ⟨b, hpost⟩
          · rw [hpending] at hmem
            cases hmem

theorem script_viable (h : Runs n Grammar.script (.text ks) o b s') (hk : k ∈ o.map Prod.fst) :
    ∃ post, ks ++ k :: post ∈ erase (Production.file (Setting.upTo True (n + 2))) := by
  have hopens : ∀ again, ∀ w ∈ Nest.samples 2 again, w ∈ (Setting.upTo True (n + 2)).words again :=
    fun again w => Nest.mem_words_of_samples (Nat.le_add_left 2 n)
  rcases h.viable hopens (fun again _ _ _ => nest_words (Nat.le_add_right n 2) again)
    (fun again _ _ _ => nest_viable again) candid_script hk with ⟨b, post, -, hpost⟩ | ⟨hmem, -⟩
  · refine ⟨post, ?_⟩
    exact Grammar.text_script (n + 2) ▸ Phrase.mem_text.2 ⟨b, hpost⟩
  · cases hmem

end Runs

def Kind.follow : Kind → List Kind
  | .eof => [.eof]
  | .keyword .EXISTS => [.openParen]
  | .keyword .CROSS => [.keyword .JOIN]
  | .keyword .GROUP | .keyword .ORDER => [.keyword .BY]
  | _ => []

def Heeds (w : List Kind) : Prop := ∀ u k v, u ++ k :: v = w → k.follow <+: v

namespace Phrase

def tells : Phrase → Bool
  | .accept guard => guard.offer?.all fun offer => offer.2 == offer.1.follow
  | .need kind => kind.follow.isEmpty
  | .seq first second => first.tells && second.tells
  | .ifElse test yes no => test.tells && yes.tells && no.tells
  | .many body | .rule _ body | .node _ body => body.tells
  | _ => true

def opening? : Phrase → Option Kind
  | .need kind => some kind
  | .seq first _ => first.opening?
  | .ifElse test _ _ => test.opening?
  | .rule _ body | .node _ body => body.opening?
  | _ => none

def heeds : Phrase → Bool
  | .accept guard => (guard.kinds.take guard.width).all fun kind => kind.follow.isEmpty
  | .need kind => kind.follow.isEmpty
  | .seq first second => first.heeds && second.heeds
  | .ifElse test yes no =>
      (test.heeds || test.token?.any fun kind => yes.opening?.toList == kind.follow) &&
        yes.heeds && no.heeds
  | .many body | .rule _ body | .node _ body => body.heeds
  | _ => true

end Phrase

theorem tells_grammar :
    Grammar.script.tells = true ∧ ∀ again, (Grammar.body again).tells = true := by
  refine ⟨by decide +kernel, fun again => ?_⟩
  cases again <;> decide +kernel

theorem heeds_grammar :
    Grammar.script.heeds = true ∧ ∀ again, (Grammar.body again).heeds = true := by
  refine ⟨by decide +kernel, fun again => ?_⟩
  cases again <;> decide +kernel

theorem Runs.follow_eq {n : Nat} {phrase : Phrase} {s s' : Place} {o : List Offer} {b : Bool}
    (h : Runs n phrase s o b s') (hphrase : phrase.tells = true) {offer : Offer} (ho : offer ∈ o) :
    offer.2 = offer.1.follow := by
  induction h with
  | idle | nothing | note | accept | refuse | need | failAtCaret | strayAtEnd | tooDeep => cases ho
  | @offer n guard =>
      simp only [Phrase.tells, Option.all_eq_true, beq_iff_eq] at hphrase
      exact hphrase offer (Option.mem_toList.1 ho)
  | needAtCaret =>
      obtain rfl := List.mem_singleton.1 ho
      exact (List.isEmpty_iff.1 hphrase).symm
  | seq _ _ ih₁ ih₂ =>
      simp only [Phrase.tells, Bool.and_eq_true] at hphrase
      exact (List.mem_append.1 ho).elim (ih₁ hphrase.1) (ih₂ hphrase.2)
  | ifTrue _ _ ih₁ ih₂ =>
      simp only [Phrase.tells, Bool.and_eq_true] at hphrase
      exact (List.mem_append.1 ho).elim (ih₁ hphrase.1.1) (ih₂ hphrase.1.2)
  | ifFalse _ _ ih₁ ih₂ =>
      simp only [Phrase.tells, Bool.and_eq_true] at hphrase
      exact (List.mem_append.1 ho).elim (ih₁ hphrase.1.1) (ih₂ hphrase.2)
  | manyStop _ ih | rule _ ih | node _ ih => exact ih hphrase ho
  | manyMore _ _ ih₁ ih₂ => exact (List.mem_append.1 ho).elim (ih₁ hphrase) (ih₂ hphrase)
  | @nest n again _ _ _ _ _ ih => exact ih (tells_grammar.2 again) ho

theorem Heeds.nil : Heeds [] := by
  intro u k v h
  simp at h

theorem Heeds.append {u v : List Kind} (hu : Heeds u) (hv : Heeds v) : Heeds (u ++ v) := by
  intro front k tail h
  rcases List.append_eq_append_iff.1 h with ⟨rest, rfl, htail⟩ | ⟨rest, rfl, htail⟩
  · cases rest with
    | nil => exact hv [] k tail htail
    | cons j rest =>
        obtain ⟨rfl, rfl⟩ := List.cons.inj htail
        exact (hu front _ rest rfl).trans (List.prefix_append _ _)
  · exact hv rest k tail htail.symm

theorem Heeds.cons {k : Kind} {w : List Kind} (hk : k.follow <+: w) (hw : Heeds w) :
    Heeds (k :: w) := by
  intro u j v h
  cases u with
  | nil =>
      obtain ⟨rfl, rfl⟩ := List.cons.inj h
      exact hk
  | cons i u => exact hw u j v (List.cons.inj h).2

theorem Heeds.eof_notMem {w : List Kind} (h : Heeds w) : Kind.eof ∉ w := by
  induction w with
  | nil => simp
  | cons k w ih =>
      have hw : Kind.eof ∉ w := ih fun u j v huv => h (k :: u) j v (by rw [← huv]; rfl)
      intro hmem
      rcases List.mem_cons.1 hmem with rfl | hmem
      · obtain ⟨v, rfl⟩ := h [] .eof w rfl
        exact hw (by simp [Kind.follow])
      · exact hw hmem

theorem Heeds.of_plain {w : List Kind} (h : ∀ k ∈ w, k.follow = []) : Heeds w := by
  rintro u k v rfl
  rw [h k (by simp)]
  exact List.nil_prefix

namespace Phrase

variable {nests : Nest → Language Kind} {phrase : Phrase} {b : Bool} {w : List Kind}

theorem head_of_opening? {kind : Kind} (h : phrase.opening? = some kind)
    (hw : w ∈ phrase.words nests b) : w.head? = some kind := by
  induction phrase generalizing b w with
  | need need =>
      cases h
      obtain rfl := outcome_eq true hw rfl
      obtain rfl : w = [kind] := hw
      rfl
  | seq first second ih₁ _ =>
      obtain ⟨u, hu, v, -, -, rfl⟩ := mem_words_seq.1 hw
      obtain ⟨c, hu⟩ := mem_text.1 hu
      rw [List.head?_append, ih₁ h hu]
      rfl
  | ifElse test yes no iht _ _ =>
      rcases mem_words_ifElse.1 hw with ⟨-, u, hu, v, -, rfl⟩ | ⟨-, u, hu, v, -, rfl⟩
      · simp [List.head?_append, iht h hu]
      · simp [List.head?_append, iht h hu]
  | rule name body ih => exact ih h hw
  | node shape body ih => exact ih h hw
  | _ => cases h

theorem heeds_words (hnests : ∀ again, ∀ w ∈ nests again, Heeds w) (hphrase : phrase.heeds = true)
    (hw : w ∈ phrase.words nests b) : Heeds w := by
  induction phrase generalizing b w with
  | nothing | note role | stray =>
      obtain rfl := outcome_eq false hw rfl
      obtain rfl : w = [] := hw
      exact .nil
  | fail => exact absurd hw (Language.notMem_zero _)
  | accept guard =>
      cases b with
      | true =>
          obtain rfl : w = guard.kinds.take guard.width := hw
          refine .of_plain fun k hk => ?_
          exact List.isEmpty_iff.1 (List.all_eq_true.1 hphrase k hk)
      | false => obtain rfl : w = [] := hw; exact .nil
  | need kind =>
      obtain rfl := outcome_eq true hw rfl
      obtain rfl : w = [kind] := hw
      exact .of_plain (by simpa using List.isEmpty_iff.1 hphrase)
  | seq first second ih₁ ih₂ =>
      simp only [heeds, Bool.and_eq_true] at hphrase
      obtain ⟨u, hu, v, hv, -, rfl⟩ := mem_words_seq.1 hw
      obtain ⟨c, hu⟩ := mem_text.1 hu
      exact (ih₁ hphrase.1 hu).append (ih₂ hphrase.2 hv)
  | ifElse test yes no iht ihy ihn =>
      simp only [heeds, Bool.and_eq_true, Bool.or_eq_true, Option.any_eq_true, beq_iff_eq]
        at hphrase
      obtain ⟨⟨htest, hyes⟩, hno⟩ := hphrase
      rcases mem_words_ifElse.1 hw with ⟨-, u, hu, v, hv, rfl⟩ | ⟨-, u, hu, v, hv, rfl⟩
      · obtain ⟨c, hv⟩ := mem_text.1 hv
        rcases htest with htest | ⟨kind, htoken, hfollow⟩
        · exact (iht htest hu).append (ihy hyes hv)
        · obtain ⟨follow, rfl⟩ := eq_of_token? htoken
          obtain rfl : u = [kind] := hu
          refine .cons ?_ (ihy hyes hv)
          rw [← hfollow]
          cases hopening : yes.opening? with
          | none => exact List.nil_prefix
          | some first =>
              obtain ⟨rest, rfl⟩ := List.head?_eq_some_iff.1 (head_of_opening? hopening hv)
              exact ⟨rest, rfl⟩
      · rcases htest with htest | ⟨kind, htoken, -⟩
        · exact (iht htest hu).append (ihn hno hv)
        · obtain ⟨follow, rfl⟩ := eq_of_token? htoken
          obtain rfl : u = [] := hu
          exact ihn hno hv
  | many body ih =>
      obtain rfl := outcome_eq false hw rfl
      obtain ⟨turns, hturns, v, hv, rfl⟩ := mem_words_many.1 hw
      refine .append ?_ (ih hphrase hv)
      clear hw
      induction turns with
      | nil => exact .nil
      | cons u turns ihturns =>
          exact (ih hphrase (hturns u (by simp))).append
            (ihturns fun u hu => hturns u (by simp [hu]))
  | rule name body ih => exact ih hphrase hw
  | node shape body ih => exact ih hphrase hw
  | nest again =>
      obtain rfl := outcome_eq false hw rfl
      exact hnests again w hw

end Phrase

theorem Nest.heeds_words (levels : Nat) (again : Nest) :
    ∀ w ∈ (Setting.upTo True levels).words again, Heeds w := by
  induction levels generalizing again with
  | zero =>
      intro w hw
      exact absurd hw Setting.notMem_words_zero
  | succ levels ih =>
      intro w hw
      rw [← Grammar.text_body] at hw
      obtain ⟨b, hw⟩ := Phrase.mem_text.1 hw
      exact Phrase.heeds_words ih (heeds_grammar.2 again) hw

theorem Heeds.of_mem_file {levels : Nat} {w : List Kind}
    (hw : w ∈ erase (Production.file (Setting.upTo True levels))) : Heeds w := by
  rw [← Grammar.text_script] at hw
  obtain ⟨b, hw⟩ := Phrase.mem_text.1 hw
  exact Phrase.heeds_words (Nest.heeds_words levels) heeds_grammar.1 hw

end SqlAtlas
