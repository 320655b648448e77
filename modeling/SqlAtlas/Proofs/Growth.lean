import SqlAtlas.Proofs.Advance
import SqlAtlas.Proofs.Outline

namespace SqlAtlas

namespace Phrase

def shapes : Phrase → List Shape
  | .seq first second => first.shapes ++ second.shapes
  | .ifElse test yes no => test.shapes ++ yes.shapes ++ no.shapes
  | .many body | .rule _ body => body.shapes
  | .node shape _ => [shape]
  | .nest .commonTable => [.commonTable]
  | .nest _ => [.subquery]
  | _ => []

def single : Phrase → Bool
  | .seq first second =>
      first.shapes.isEmpty && second.single || first.single && second.shapes.isEmpty
  | .ifElse test yes no => test.shapes.isEmpty && yes.single && no.single
  | .many body => body.shapes.isEmpty
  | .rule _ body => body.single
  | .nest again => again ≠ .expression
  | _ => true

def yields (shapes later : List Shape) : Bool :=
  shapes.all (· = .commonTable) || later.all (· ≠ .commonTable)

def led : Phrase → Bool
  | .seq first second => first.led && second.led && yields first.shapes second.shapes
  | .ifElse test yes no =>
      test.led && yes.led && no.led && yields test.shapes (yes.shapes ++ no.shapes)
  | .many body => body.led && yields body.shapes body.shapes
  | .rule _ body => body.led
  | _ => true

def tally : Phrase → Nat
  | .note .part => 1
  | .seq first second => first.tally + second.tally
  | .ifElse test yes no => test.tally + max yes.tally no.tally
  | .rule _ body => body.tally
  | _ => 0

-- Can a construct begin where the phrase does, before one of these kinds?
def early : Phrase → List Kind → Bool
  | .node _ _, ks => !ks.isEmpty
  | .nest again, ks => again ≠ .expression && !ks.isEmpty
  | .seq first second, ks =>
      first.early ks || second.early (first.stays ks true ++ first.stays ks false)
  | .ifElse test yes no, ks =>
      test.early ks || yes.early (test.stays ks true) || no.early (test.stays ks false)
  | .many body, _ => body.early Kind.all
  | .rule _ body, ks => body.early ks
  | _, _ => false

def still : Phrase → Bool
  | .nothing | .note _ | .fail => true
  | .accept guard => guard.width = 0
  | .seq first second => first.still && second.still
  | .ifElse test yes no => test.still && yes.still && no.still
  | .rule _ body | .node _ body => body.still
  | _ => false

def after (phrase : Phrase) (ks : List Kind) (taken : Bool) : List Kind :=
  if phrase.still then phrase.stays ks taken else Kind.all

def isName : Phrase → Bool
  | .accept (.token .identifier _) => true
  | _ => false

def suits (body : Phrase) : Shape → Bool
  | .table => body.shapes.isEmpty && body.tally ≤ 4
  | .derived => body.single && body.shapes.all (· = .subquery)
  | _ => body.led && body.shapes.all fun
      | .statement _ => false
      | _ => true

-- A construct begins before the ones inside it, and a note follows the name that it is about.
def tidy : Phrase → List Kind → Bool
  | .note _, _ => false
  | .seq first second, ks =>
      first.tidy ks && second.tidy (first.after ks true ++ first.after ks false)
  | .ifElse test (.note _) no, ks => test.isName && no.tidy (test.after ks false)
  | .ifElse test yes no, ks =>
      test.tidy ks && yes.tidy (test.after ks true) && no.tidy (test.after ks false)
  | .many body, _ => body.tidy Kind.all && body.tally == 0
  | .rule _ body, ks => body.tidy ks
  | .node shape body, ks => !body.early ks && body.tidy ks && body.suits shape
  | _, _ => true

end Phrase

namespace Grammar

theorem tidy_script : script.tidy Kind.all = true := by
  decide +kernel

theorem tidy_body (again : Nest) : (body again).tidy Kind.all = true := by
  cases again <;> decide +kernel

theorem shapes_body (again : Nest) :
    ((body again).shapes.all (· ∈ (Phrase.nest again).shapes)) = true := by
  cases again <;> decide +kernel

theorem led_body (again : Nest) : (body again).led = true := by
  cases again <;> decide +kernel

theorem tally_body (again : Nest) : (body again).tally = 0 := by
  cases again <;> decide +kernel

theorem single_body {again : Nest} (h : again ≠ .expression) : (body again).single = true := by
  cases again with
  | expression => exact absurd rfl h
  | subquery => decide +kernel
  | commonTable => decide +kernel

theorem early_expression : (body .expression).early Kind.all = false := by
  decide +kernel

theorem shapes_script : (script.shapes.all fun
    | .statement _ => true
    | _ => false) = true := by
  decide +kernel

end Grammar

namespace Reading

variable {input : Input} {r r₁ r' : Reading}

def Paced (r : Reading) : Prop := r.last? = if r.pos = 0 then none else some (r.pos - 1)

theorem closeFrame_last (shape : Shape) (r : Reading) : (r.closeFrame shape).last? = r.last? := by
  unfold closeFrame attach
  repeat' split
  all_goals rfl

theorem steps_paced (input : Input) : Steps input fun r r' => r.Paced → r'.Paced where
  refl _ := id
  trans h₁ h₂ := h₂ ∘ h₁
  bump r hr := by
    unfold bump
    split
    · simp [Paced]
    · exact hr
  offer offer? r hr := by
    unfold offer offerTo
    repeat' split
    all_goals exact hr
  complain _ _ := id
  halt _ := id
  mark note r hr := by
    unfold mark
    repeat' split
    all_goals exact hr
  rule h := h
  node {shape r r'} h hr := by
    unfold Paced
    rw [closeFrame_last, (closeFrame_frame shape r').1]
    exact h hr
  nest h := h

theorem paced_nestRead (levels : Nat) (again : Nest) (hr : r.Paced) :
    (Nest.read input levels again r).Paced :=
  (steps_paced input).nestRead levels again r hr

theorem paced_read {deeper : Nest → Reading → Reading}
    (hdeeper : ∀ again (r : Reading), r.Paced → (deeper again r).Paced) (phrase : Phrase)
    (hr : r.Paced) : (phrase.read input deeper r).2.Paced :=
  (steps_paced input).read hdeeper phrase r hr

-- What is added to the innermost construct under way, or to the script if there is none.
structure Grows (input : Input) (r r' : Reading) (nodes : List Outline) (parts : List Nat) :
    Prop where
  roots : r.frames = [] → r'.frames = [] ∧ r'.roots = r.roots ++ nodes
  frames : ∀ frame frames, r.frames = frame :: frames → r'.roots = r.roots ∧
    ∃ alias?, r'.frames = ⟨frame.start, frame.children ++ nodes, frame.parts ++ parts, alias?⟩ ::
      frames
  laid : Outline.Laid r.pos r'.pos nodes
  proper : ∀ node ∈ nodes, node.All (Outline.Proper input)
  names : input.Names r.pos r'.pos parts

namespace Grows

theorem of_same (hframes : r'.frames = r.frames) (hroots : r'.roots = r.roots)
    (hpos : r.pos ≤ r'.pos) : Grows input r r' [] [] where
  roots h := ⟨hframes.trans h, by simp [hroots]⟩
  frames frame frames h := ⟨hroots, frame.alias?, by simp [hframes, h]⟩
  laid := hpos
  proper := by simp
  names := .nil _ _

theorem trans {nodes₁ nodes₂ : List Outline} {parts₁ parts₂ : List Nat}
    (h₁ : Grows input r r₁ nodes₁ parts₁) (h₂ : Grows input r₁ r' nodes₂ parts₂) :
    Grows input r r' (nodes₁ ++ nodes₂) (parts₁ ++ parts₂) where
  roots h := by
    obtain ⟨hframes, hroots⟩ := h₁.roots h
    obtain ⟨hframes', hroots'⟩ := h₂.roots hframes
    exact ⟨hframes', by rw [hroots', hroots, List.append_assoc]⟩
  frames frame frames h := by
    obtain ⟨hroots, alias?, hframes⟩ := h₁.frames frame frames h
    obtain ⟨hroots', alias'?, hframes'⟩ := h₂.frames _ frames hframes
    refine ⟨hroots'.trans hroots, alias'?, ?_⟩
    rw [hframes', List.append_assoc, List.append_assoc]
  laid := h₁.laid.append h₂.laid
  proper node hnode := (List.mem_append.1 hnode).elim (h₁.proper node) (h₂.proper node)
  names := h₁.names.append h₂.names h₁.laid.le h₂.laid.le

end Grows

end Reading

structure Phrase.Bounds (phrase : Phrase) (input : Input) (r : Reading) (nodes : List Outline)
    (parts : List Nat) : Prop where
  shapes : ∀ node ∈ nodes, node.construct.shape ∈ phrase.shapes
  single : phrase.single = true → nodes.length ≤ 1
  led : phrase.led = true → nodes.Pairwise Node.Leads
  tally : parts.length ≤ phrase.tally
  late : ∀ ks, (r.halted = false → input.shown r.pos ∈ ks) → phrase.early ks = false →
    ∀ node ∈ nodes, r.pos < node.extent.first

def Phrase.Grown (phrase : Phrase) (input : Input) (r r' : Reading) : Prop :=
  ∃ nodes parts, Reading.Grows input r r' nodes parts ∧ phrase.Bounds input r nodes parts

namespace Phrase

variable {input : Input} {r r₁ r' : Reading} {nodes nodes₁ nodes₂ : List Outline}
  {parts parts₁ parts₂ : List Nat}

theorem Bounds.nil (phrase : Phrase) : phrase.Bounds input r [] [] :=
  ⟨by simp, by simp, by simp, by simp, by simp⟩

theorem Bounds.eq_nil {phrase : Phrase} (h : phrase.Bounds input r nodes parts)
    (hshapes : phrase.shapes = []) : nodes = [] := by
  refine List.eq_nil_iff_forall_not_mem.2 fun node hnode => ?_
  have hshape := h.shapes node hnode
  rw [hshapes] at hshape
  cases hshape

theorem Bounds.leads {first second : Phrase} {later : List Shape}
    (h₁ : first.Bounds input r nodes₁ parts₁) (h₂ : second.Bounds input r₁ nodes₂ parts₂)
    (hlater : second.shapes ⊆ later) (hyields : yields first.shapes later = true) : ∀ node ∈ nodes₁,
      ∀ next ∈ nodes₂, node.Leads next := by
  intro node hnode next hnext htable
  rcases Bool.or_eq_true_iff.1 hyields with hall | hnone
  · exact of_decide_eq_true (List.all_eq_true.1 hall _ (h₁.shapes node hnode))
  · have hother := List.all_eq_true.1 hnone _ (hlater (h₂.shapes next hnext))
    exact absurd htable (of_decide_eq_true hother)

theorem Bounds.late_after {phrase : Phrase} {hi : Nat} {ks : List Kind}
    (h : phrase.Bounds input r₁ nodes parts) (hlaid : Outline.Laid r₁.pos hi nodes)
    (hpos : r.pos ≤ r₁.pos)
    (hks : r₁.pos = r.pos → r₁.halted = false → input.shown r₁.pos ∈ ks)
    (hearly : phrase.early ks = false) : ∀ node ∈ nodes, r.pos < node.extent.first := by
  intro node hnode
  rcases Nat.lt_or_eq_of_le hpos with hlt | heq
  · exact Nat.lt_of_lt_of_le hlt (hlaid.within hnode).1
  · rw [heq]
    exact h.late ks (hks heq.symm) hearly node hnode

section Suits

variable {body : Phrase} (h : body.Bounds input r nodes parts)
include h

theorem Bounds.of_table (hsuits : body.suits .table = true) : nodes = [] ∧ parts.length ≤ 4 := by
  simp only [suits, Bool.and_eq_true, List.isEmpty_iff, decide_eq_true_eq] at hsuits
  exact ⟨h.eq_nil hsuits.1, Nat.le_trans h.tally hsuits.2⟩

theorem Bounds.of_derived (hsuits : body.suits .derived = true) :
    nodes.length ≤ 1 ∧ ∀ child ∈ nodes, child.construct.shape = .subquery := by
  simp only [suits, Bool.and_eq_true] at hsuits
  refine ⟨h.single hsuits.1, fun child hchild => ?_⟩
  exact of_decide_eq_true (List.all_eq_true.1 hsuits.2 _ (h.shapes child hchild))

theorem Bounds.nested {shape : Shape} (hsuits : body.suits shape = true) :
    ∀ child ∈ nodes, ∀ type, child.construct.shape ≠ .statement type := by
  intro child hchild type htype
  cases shape with
  | table =>
      rw [(h.of_table hsuits).1] at hchild
      cases hchild
  | derived =>
      rw [(h.of_derived hsuits).2 child hchild] at htype
      cases htype
  | _ =>
      simp only [suits, Bool.and_eq_true] at hsuits
      have hshape := List.all_eq_true.1 hsuits.2 _ (h.shapes child hchild)
      rw [htype] at hshape
      cases hshape

theorem Bounds.pairwise_leads {shape : Shape} (hsuits : body.suits shape = true) :
    nodes.Pairwise Node.Leads := by
  cases shape with
  | table =>
      rw [(h.of_table hsuits).1]
      exact .nil
  | derived =>
      refine List.pairwise_of_forall_mem_list fun child _ next hnext htable => ?_
      rw [(h.of_derived hsuits).2 next hnext] at htable
      cases htable
  | _ =>
      simp only [suits, Bool.and_eq_true] at hsuits
      exact h.led hsuits.1

end Suits

theorem Bounds.seq {first second : Phrase} (h₁ : first.Bounds input r nodes₁ parts₁)
    (h₂ : second.Bounds input r₁ nodes₂ parts₂) (hgrows : Reading.Grows input r₁ r' nodes₂ parts₂)
    (hpos : r.pos ≤ r₁.pos)
    (hstays : ∀ ks, (r.halted = false → input.shown r.pos ∈ ks) → r₁.pos = r.pos →
      r₁.halted = false → input.shown r₁.pos ∈ first.stays ks true ++ first.stays ks false) :
    (Phrase.seq first second).Bounds input r (nodes₁ ++ nodes₂) (parts₁ ++ parts₂) where
  shapes node hnode := by
    rcases List.mem_append.1 hnode with hnode | hnode
    · exact List.mem_append_left _ (h₁.shapes node hnode)
    · exact List.mem_append_right _ (h₂.shapes node hnode)
  single hsingle := by
    simp only [Phrase.single, Bool.or_eq_true, Bool.and_eq_true, List.isEmpty_iff] at hsingle
    rcases hsingle with ⟨hnone, hone⟩ | ⟨hone, hnone⟩
    · rw [h₁.eq_nil hnone]
      exact h₂.single hone
    · rw [h₂.eq_nil hnone, List.append_nil]
      exact h₁.single hone
  led hled := by
    simp only [Phrase.led, Bool.and_eq_true] at hled
    exact List.pairwise_append.2
      ⟨h₁.led hled.1.1, h₂.led hled.1.2, h₁.leads h₂ (fun _ h => h) hled.2⟩
  tally := by
    rw [List.length_append]
    exact Nat.add_le_add h₁.tally h₂.tally
  late ks hks hearly node hnode := by
    simp only [Phrase.early, Bool.or_eq_false_iff] at hearly
    rcases List.mem_append.1 hnode with hnode | hnode
    · exact h₁.late ks hks hearly.1 node hnode
    · exact h₂.late_after hgrows.laid hpos (hstays ks hks) hearly.2 node hnode

theorem Bounds.ifElse {test yes no : Phrase} (taken : Bool)
    (h₁ : test.Bounds input r nodes₁ parts₁)
    (h₂ : (bif taken then yes else no).Bounds input r₁ nodes₂ parts₂)
    (hgrows : Reading.Grows input r₁ r' nodes₂ parts₂) (hpos : r.pos ≤ r₁.pos)
    (hstays : ∀ ks, (r.halted = false → input.shown r.pos ∈ ks) → r₁.pos = r.pos →
      r₁.halted = false → input.shown r₁.pos ∈ test.stays ks taken) :
    (Phrase.ifElse test yes no).Bounds input r (nodes₁ ++ nodes₂) (parts₁ ++ parts₂) where
  shapes node hnode := by
    simp only [Phrase.shapes, List.mem_append]
    rcases List.mem_append.1 hnode with hnode | hnode
    · exact .inl (.inl (h₁.shapes node hnode))
    · cases taken with
      | true => exact .inl (.inr (h₂.shapes node hnode))
      | false => exact .inr (h₂.shapes node hnode)
  single hsingle := by
    simp only [Phrase.single, Bool.and_eq_true, List.isEmpty_iff] at hsingle
    rw [h₁.eq_nil hsingle.1.1]
    cases taken with
    | true => exact h₂.single hsingle.1.2
    | false => exact h₂.single hsingle.2
  led hled := by
    simp only [Phrase.led, Bool.and_eq_true] at hled
    refine List.pairwise_append.2 ⟨h₁.led hled.1.1.1, ?_, h₁.leads h₂ ?_ hled.2⟩
    · cases taken with
      | true => exact h₂.led hled.1.1.2
      | false => exact h₂.led hled.1.2
    · cases taken with
      | true => exact List.subset_append_left _ _
      | false => exact List.subset_append_right _ _
  tally := by
    rw [List.length_append]
    refine Nat.add_le_add h₁.tally (Nat.le_trans h₂.tally ?_)
    cases taken with
    | true => exact Nat.le_max_left _ _
    | false => exact Nat.le_max_right _ _
  late ks hks hearly node hnode := by
    simp only [Phrase.early, Bool.or_eq_false_iff] at hearly
    rcases List.mem_append.1 hnode with hnode | hnode
    · exact h₁.late ks hks hearly.1.1 node hnode
    · refine h₂.late_after hgrows.laid hpos (hstays ks hks) ?_ node hnode
      cases taken with
      | true => exact hearly.1.2
      | false => exact hearly.2

theorem Bounds.many {body : Phrase} (htally : body.tally = 0)
    (h₁ : body.Bounds input r nodes₁ parts₁)
    (h₂ : (Phrase.many body).Bounds input r₁ nodes₂ parts₂) (hpos : r.pos ≤ r₁.pos) :
    (Phrase.many body).Bounds input r (nodes₁ ++ nodes₂) (parts₁ ++ parts₂) where
  shapes node hnode := (List.mem_append.1 hnode).elim (h₁.shapes node) (h₂.shapes node)
  single hsingle := by
    rw [h₁.eq_nil (List.isEmpty_iff.1 hsingle)]
    exact h₂.single hsingle
  led hled := by
    simp only [Phrase.led, Bool.and_eq_true] at hled
    refine List.pairwise_append.2 ⟨h₁.led hled.1, h₂.led ?_, h₁.leads h₂ (fun _ h => h) hled.2⟩
    simp only [Phrase.led, hled, Bool.and_self]
  tally := by
    have hfirst := h₁.tally
    have hmore := h₂.tally
    simp only [Phrase.tally, htally] at hfirst hmore
    simp only [Phrase.tally, List.length_append]
    omega
  late ks _ hearly node hnode := by
    rcases List.mem_append.1 hnode with hnode | hnode
    · exact h₁.late Kind.all (fun _ => Kind.mem_all _) hearly node hnode
    · have hlate := h₂.late Kind.all (fun _ => Kind.mem_all _) hearly node hnode
      exact Nat.lt_of_le_of_lt hpos hlate

theorem tidy_ifElse {test yes no : Phrase} {ks : List Kind}
    (h : (Phrase.ifElse test yes no).tidy ks = true) :
    test.tidy ks = true ∧ no.tidy (test.after ks false) = true ∧
      (yes.tidy (test.after ks true) = true ∨ ∃ role, yes = .note role ∧ test.isName = true) := by
  have hname (htest : test.isName = true) : test.tidy ks = true := by
    unfold isName at htest
    split at htest
    · rfl
    · cases htest
  cases yes with
  | note role =>
      simp only [Phrase.tidy, Bool.and_eq_true] at h
      exact ⟨hname h.1, h.2, .inr ⟨role, rfl, h.1⟩⟩
  | _ =>
      rw [Phrase.tidy, Bool.and_eq_true, Bool.and_eq_true] at h
      · exact ⟨h.1.1, h.2, .inl h.1.2⟩
      · rintro _ ⟨⟩

end Phrase

namespace Reading

variable {input : Input} {r r₁ r' : Reading}

theorem Onward.running (h : Onward r r') (hr' : r'.halted = false) : r.halted = false := by
  cases hr : r.halted with
  | false => rfl
  | true => exact (h.halted hr).symm.trans hr'

theorem kinds_of_shown {index : Nat} {kind : Kind} (h : input.shown index = kind)
    (hkind : kind ≠ .eof) : input.kinds[index]? = some kind := by
  unfold Input.shown at h
  split at h
  · exact absurd h.symm hkind
  · cases hget : input.kinds[index]? with
    | none => rw [hget] at h; exact absurd h.symm hkind
    | some found => rw [hget] at h; exact congrArg some h

theorem bumps_pos_of_width_zero {guard : Guard} (h : guard.width = 0) :
    (r.bumps input guard.width).pos = r.pos := by
  rw [h]
  rfl

theorem read_still {deeper : Nest → Reading → Reading} (phrase : Phrase)
    (hstill : phrase.still = true) (r : Reading) : (phrase.read input deeper r).2.pos = r.pos := by
  induction phrase generalizing r with
  | nothing => rfl
  | accept guard =>
      have hwidth : guard.width = 0 := by simpa [Phrase.still] using hstill
      simp only [Phrase.read, accept]
      split
      · rfl
      · split
        · exact (offer_frame input _ r).1
        · split
          · exact bumps_pos_of_width_zero hwidth
          · rfl
  | fail => exact stuck_pos _ r
  | note role => exact (mark_frame role r).1
  | seq first second ih₁ ih₂ =>
      simp only [Phrase.still, Bool.and_eq_true] at hstill
      exact (ih₂ hstill.2 _).trans (ih₁ hstill.1 r)
  | ifElse test yes no iht ihy ihn =>
      simp only [Phrase.still, Bool.and_eq_true] at hstill
      have htest := iht hstill.1.1 r
      simp only [Phrase.read]
      split
      · next r₁ hr₁ =>
          rw [hr₁] at htest
          exact (ihy hstill.1.2 r₁).trans htest
      · next r₁ hr₁ =>
          rw [hr₁] at htest
          exact (ihn hstill.2 r₁).trans htest
  | rule name body ih => exact ih hstill _
  | node shape body ih => exact (closeFrame_frame shape _).1.trans (ih hstill _)
  | need | stray | many | nest => cases hstill

theorem shown_after (hends : input.Ends) {deeper : Nest → Reading → Reading}
    (honward : ∀ again r, Onward r (deeper again r)) {phrase : Phrase} (hsane : phrase.sane = true)
    {ks : List Kind} (hks : r.halted = false → input.shown r.pos ∈ ks)
    (hhalted : (phrase.read input deeper r).2.halted = false) :
    input.shown (phrase.read input deeper r).2.pos ∈
      phrase.after ks (phrase.read input deeper r).1 := by
  unfold Phrase.after
  split
  · next hstill =>
      have hr := Onward.running (onward_read honward phrase r) hhalted
      have hpos : (phrase.read input deeper r).2.pos = r.pos := read_still phrase hstill r
      rw [hpos]
      exact read_stays hends honward phrase hsane hr (hks hr) hhalted hpos
  · exact Kind.mem_all _

structure Same (r r' : Reading) : Prop where
  frames : r'.frames = r.frames
  roots : r'.roots = r.roots
  pos : r.pos ≤ r'.pos

theorem moves_same (input : Input) : Moves input Same where
  refl _ := ⟨rfl, rfl, Nat.le_refl _⟩
  trans h₁ h₂ := ⟨h₂.frames.trans h₁.frames, h₂.roots.trans h₁.roots, Nat.le_trans h₁.pos h₂.pos⟩
  bump r := by
    unfold bump
    split
    · exact ⟨rfl, rfl, Nat.le_succ _⟩
    · exact ⟨rfl, rfl, Nat.le_refl _⟩
  offer offer? r := by
    unfold offer offerTo
    repeat' split
    all_goals exact ⟨rfl, rfl, Nat.le_refl _⟩
  complain _ _ := ⟨rfl, rfl, Nat.le_refl _⟩
  halt _ := ⟨rfl, rfl, Nat.le_refl _⟩

theorem Same.grown (h : Same r r') (phrase : Phrase) : phrase.Grown input r r' :=
  ⟨[], [], .of_same h.frames h.roots h.pos, .nil phrase⟩

theorem Grows.of_rule {name : Rule} {nodes : List Outline} {parts : List Nat}
    (h : Grows input (r.enter name) r' nodes parts) : Grows input r r'.leave nodes parts :=
  ⟨h.roots, h.frames, h.laid, h.proper, h.names⟩

theorem Grows.of_nest {again : Nest} {nodes : List Outline} {parts : List Nat}
    (h : Grows input (r.descend again) r' nodes parts) : Grows input r r'.ascend nodes parts :=
  ⟨h.roots, h.frames, h.laid, h.proper, h.names⟩

theorem name_grown (hends : input.Ends) {follow : List Kind} {role : Note} (no : Phrase)
    (hr : r.accept input (.token .identifier follow) = (true, r₁)) :
    (Phrase.ifElse (.accept (.token .identifier follow)) (.note role) no).Grown input r
      (r₁.mark role) := by
  have hsees : r.sees input 0 [.identifier] = true ∧ r₁ = r.bump input := by
    simp only [accept] at hr
    split at hr
    · cases hr
    · split at hr
      · cases hr
      · split at hr
        · next hsees =>
            cases hr
            exact ⟨hsees, rfl⟩
        · cases hr
  obtain ⟨hsees, rfl⟩ := hsees
  have hpeek := (sees_cons hsees).1
  have hne : r.peek input 0 ≠ .eof := by simp [hpeek]
  have hshown : input.shown r.pos = .identifier := peek_eq_shown (halted_of_peek hne) 0 ▸ hpeek
  have hname := kinds_of_shown hshown (by simp)
  have hlt := hends r.pos (by rw [hshown]; simp)
  have hbump : r.bump input = { r with pos := r.pos + 1, last? := some r.pos } := if_pos hlt
  rw [hbump]
  have hpart : role = .part ∨ role = .alias := by cases role <;> simp
  rcases hpart with rfl | rfl
  · refine ⟨[], [r.pos], ⟨?_, ?_, ?_, by simp, ?_⟩, by simp, by simp, by simp, ?_, by simp⟩
    · intro hframes
      simp [mark, hframes]
    · intro frame frames hframes
      refine ⟨?_, frame.alias?, ?_⟩ <;> simp [mark, hframes]
    · rw [(mark_frame _ _).1]
      exact Nat.le_succ _
    · rw [(mark_frame _ _).1]
      exact .singleton hname
    · simp only [Phrase.tally, List.length_singleton, Nat.zero_add]
      exact Nat.le_max_left 1 _
  · refine ⟨[], [], ⟨?_, ?_, ?_, by simp, .nil _ _⟩, .nil _⟩
    · intro hframes
      simp [mark, hframes]
    · intro frame frames hframes
      refine ⟨?_, some r.pos, ?_⟩ <;> simp [mark, hframes]
    · rw [(mark_frame _ _).1]
      exact Nat.le_succ _

theorem turns_grown {step : Reading → Bool × Reading} {body : Phrase} (htally : body.tally = 0)
    (hstep : ∀ r : Reading, r.Paced → body.Grown input r (step r).2)
    (hpaced : ∀ r : Reading, r.Paced → (step r).2.Paced) (rounds : Nat) (hr : r.Paced) :
    (Phrase.many body).Grown input r (turns step rounds r) := by
  induction rounds generalizing r with
  | zero => exact ((moves_same input).refl r).grown _
  | succ rounds ih =>
      obtain ⟨nodes₁, parts₁, hgrows₁, hbounds₁⟩ := hstep r hr
      have hpaced₁ := hpaced r hr
      unfold turns
      split
      · next r₁ hr₁ =>
          rw [hr₁] at hgrows₁ hpaced₁
          obtain ⟨nodes₂, parts₂, hgrows₂, hbounds₂⟩ := ih hpaced₁
          exact ⟨_, _, hgrows₁.trans hgrows₂, hbounds₁.many htally hbounds₂ hgrows₁.laid.le⟩
      · next r₁ hr₁ =>
          rw [hr₁] at hgrows₁
          have hstop := hbounds₁.many htally (.nil (r := r) _) (Nat.le_refl _)
          rw [List.append_nil, List.append_nil] at hstop
          exact ⟨_, _, hgrows₁, hstop⟩

theorem last_of_paced (hr : r.Paced) (first : Nat) :
    r.last?.filter (first ≤ ·) = if first < r.pos then some (r.pos - 1) else none := by
  rw [hr]
  by_cases hpos : r.pos = 0
  · simp [hpos]
  · by_cases hlt : first < r.pos
    · simp [hpos, hlt, Nat.le_sub_one_of_lt hlt]
    · have hlast : r.pos - 1 < first := by omega
      simp [hpos, hlt, hlast]

theorem node_proper {shape : Shape} {body : Phrase} (hsuits : body.suits shape = true)
    {nodes : List Outline} {parts : List Nat} {alias? : Option Nat} {frame : Frame}
    (hframe : frame = ⟨r.pos, nodes, parts, alias?⟩) (hgrows : Grows input r r' nodes parts)
    (hbounds : body.Bounds input r nodes parts) (hlt : r.pos < r'.pos)
    (hlate : ∀ node ∈ nodes, r.pos < node.extent.first) :
    Outline.Proper input (frame.construct shape) ⟨r.pos, r'.pos - 1⟩ nodes := by
  have hlast : r'.pos - 1 + 1 = r'.pos := by omega
  refine ⟨Nat.le_sub_one_of_lt hlt, ?_, hbounds.nested hsuits,
    hbounds.pairwise_leads hsuits, ?_, ?_⟩
  · rw [hlast]
    exact hgrows.laid.after hlt hlate
  · intro name _ hname
    subst hframe
    cases shape with
    | table =>
        cases hname
        obtain ⟨hnil, htally⟩ := hbounds.of_table hsuits
        refine ⟨hnil, htally, ?_⟩
        rw [hlast]
        exact hgrows.names
    | _ => cases hname
  · intro _ hderived
    cases shape with
    | derived => exact hbounds.of_derived hsuits
    | _ => cases hderived

theorem attach_pos (outlines : List Outline) (r : Reading) : (r.attach outlines).pos = r.pos := by
  unfold attach
  split <;> rfl

theorem attach_grows {outlines : List Outline} (hframes : r'.frames = r.frames)
    (hroots : r'.roots = r.roots) (hlaid : Outline.Laid r.pos r'.pos outlines)
    (hproper : ∀ node ∈ outlines, node.All (Outline.Proper input)) :
    Grows input r (r'.attach outlines) outlines [] where
  roots hnone := by
    simp only [attach, hframes, hnone, hroots]
    exact ⟨trivial, trivial⟩
  frames frame frames hsome := by
    simp only [attach, hframes, hsome, List.append_nil]
    exact ⟨hroots, frame.alias?, rfl⟩
  laid := by
    rw [attach_pos]
    exact hlaid
  proper := hproper
  names := .nil _ _

theorem node_grown {shape : Shape} {body : Phrase} {ks : List Kind}
    (hsuits : body.suits shape = true) (hearly : body.early ks = false)
    (hks : r.halted = false → input.shown r.pos ∈ ks) (hpaced : r'.Paced)
    (hhalted : r.halted = true → r'.pos = r.pos) (hbody : body.Grown input r.openFrame r') :
    (Phrase.node shape body).Grown input r (r'.closeFrame shape) := by
  obtain ⟨nodes, parts, hgrows, hbounds⟩ := hbody
  obtain ⟨hroots, alias?, hframes⟩ := hgrows.frames _ _ rfl
  rw [List.nil_append, List.nil_append] at hframes
  have hlaid : Outline.Laid r.pos r'.pos nodes := hgrows.laid
  simp only [closeFrame, hframes, finished, last_of_paced hpaced]
  by_cases hlt : r.pos < r'.pos
  · have hlate := hbounds.late ks hks hearly
    have hframe : Frame.mk r.pos nodes parts alias? = ⟨r.openFrame.pos, nodes, parts, alias?⟩ := rfl
    have hproper := node_proper hsuits hframe hgrows hbounds hlt hlate
    rw [if_pos hlt]
    refine ⟨_, [], attach_grows rfl hroots ⟨Nat.le_refl _, hproper.covers, ?_⟩ ?_, ?_,
      ?_, ?_, ?_, ?_⟩
    · simp only [Node.extent, Outline.Laid]
      omega
    · intro node hnode
      rw [List.mem_singleton.1 hnode]
      exact .node hproper hgrows.proper
    · intro node hnode
      rw [List.mem_singleton.1 hnode]
      simp [Node.construct, Phrase.shapes]
    · simp
    · simp
    · simp
    · intro ks hks hnone
      have hnil : ks = [] := by simpa [Phrase.early] using hnone
      cases hr : r.halted with
      | true => exact absurd (hhalted hr) (Nat.ne_of_gt hlt)
      | false => simpa [hnil] using hks hr
  · rw [if_neg hlt, hlaid.eq_nil (Nat.le_of_not_lt hlt)]
    exact ⟨[], [], attach_grows rfl hroots hlaid.le (by simp), .nil _⟩

theorem read_grown (hends : input.Ends) {deeper : Nest → Reading → Reading}
    (honward : ∀ again r, Onward r (deeper again r))
    (hblind : ∀ again (r : Reading), r.peek input 0 = .eof → (deeper again r).pos = r.pos)
    (hpaced : ∀ again (r : Reading), r.Paced → (deeper again r).Paced)
    (hdeeper : ∀ again (r : Reading), r.Paced → (Phrase.nest again).Grown input r (deeper again r))
    (phrase : Phrase) (hsane : phrase.sane = true) {ks : List Kind} (htidy : phrase.tidy ks = true)
    (hr : r.Paced) (hks : r.halted = false → input.shown r.pos ∈ ks) :
    phrase.Grown input r (phrase.read input deeper r).2 := by
  have hmoves := moves_same input
  have hstays {phrase : Phrase} (hsane : phrase.sane = true) (r : Reading) (ks : List Kind)
      (hks : r.halted = false → input.shown r.pos ∈ ks)
      (hpos : (phrase.read input deeper r).2.pos = r.pos)
      (hhalted : (phrase.read input deeper r).2.halted = false) :
      input.shown (phrase.read input deeper r).2.pos ∈
        phrase.stays ks (phrase.read input deeper r).1 := by
    have hr := Onward.running (onward_read honward phrase r) hhalted
    rw [hpos]
    exact read_stays hends honward phrase hsane hr (hks hr) hhalted hpos
  induction phrase generalizing r ks with
  | nothing => exact (hmoves.refl r).grown _
  | accept guard => exact (hmoves.accept guard r).grown _
  | need kind => exact (hmoves.need kind r).grown _
  | fail => exact (hmoves.stuck _ r).grown _
  | stray => exact (hmoves.stray r).grown _
  | note role => cases htidy
  | seq first second ih₁ ih₂ =>
      simp only [Phrase.sane, Phrase.tidy, Bool.and_eq_true] at hsane htidy
      obtain ⟨nodes₁, parts₁, hgrows₁, hbounds₁⟩ := ih₁ hsane.1 htidy.1 hr hks
      have hks₁ := shown_after hends honward hsane.1 hks
      obtain ⟨nodes₂, parts₂, hgrows₂, hbounds₂⟩ := ih₂ hsane.2 htidy.2
        (paced_read hpaced first hr) (fun hhalted => mem_outcomes (hks₁ hhalted))
      refine ⟨_, _, hgrows₁.trans hgrows₂, hbounds₁.seq hbounds₂ hgrows₂ hgrows₁.laid.le ?_⟩
      exact fun ks hks hpos hhalted => mem_outcomes (hstays hsane.1 r ks hks hpos hhalted)
  | ifElse test yes no iht ihy ihn =>
      simp only [Phrase.sane, Bool.and_eq_true] at hsane
      obtain ⟨htest, hno, hyes⟩ := Phrase.tidy_ifElse htidy
      obtain ⟨nodes₁, parts₁, hgrows₁, hbounds₁⟩ := iht hsane.1.1 htest hr hks
      have hks₁ := shown_after hends honward hsane.1.1 hks
      have hpaced₁ : (test.read input deeper r).2.Paced := paced_read hpaced test hr
      have hstays₁ := hstays hsane.1.1 r
      simp only [Phrase.read]
      split
      · next r₁ hr₁ =>
          rw [hr₁] at hgrows₁ hks₁ hpaced₁ hstays₁
          rcases hyes with hyes | ⟨role, rfl, hname⟩
          · obtain ⟨nodes₂, parts₂, hgrows₂, hbounds₂⟩ := ihy hsane.1.2 hyes hpaced₁ hks₁
            exact ⟨_, _, hgrows₁.trans hgrows₂,
              hbounds₁.ifElse true hbounds₂ hgrows₂ hgrows₁.laid.le hstays₁⟩
          · unfold Phrase.isName at hname
            split at hname
            · exact name_grown hends no hr₁
            · cases hname
      · next r₁ hr₁ =>
          rw [hr₁] at hgrows₁ hks₁ hpaced₁ hstays₁
          obtain ⟨nodes₂, parts₂, hgrows₂, hbounds₂⟩ := ihn hsane.2 hno hpaced₁ hks₁
          exact ⟨_, _, hgrows₁.trans hgrows₂,
            hbounds₁.ifElse false hbounds₂ hgrows₂ hgrows₁.laid.le hstays₁⟩
  | many body ih =>
      simp only [Phrase.tidy, Bool.and_eq_true, beq_iff_eq] at htidy
      exact turns_grown htidy.2 (fun r hr => ih hsane htidy.1 hr fun _ => Kind.mem_all _)
        (fun r hr => paced_read hpaced body hr) _ hr
  | rule name body ih =>
      obtain ⟨nodes, parts, hgrows, hbounds⟩ := ih (r := r.enter name) hsane htidy hr hks
      exact ⟨nodes, parts, hgrows.of_rule, hbounds.shapes, hbounds.single, hbounds.led,
        hbounds.tally, hbounds.late⟩
  | node shape body ih =>
      simp only [Phrase.tidy, Bool.and_eq_true, Bool.not_eq_true'] at htidy
      have hbody := ih (r := r.openFrame) hsane htidy.1.2 hr hks
      refine node_grown htidy.2 htidy.1.1 hks (paced_read hpaced body hr) (fun hhalted => ?_) hbody
      exact (read_of_blind honward hblind body hsane (r := r.openFrame)
        (peek_of_halted hhalted 0)).2
  | nest again => exact hdeeper again r hr

theorem nestRead_grown (hends : input.Ends) (levels : Nat) (again : Nest) (hr : r.Paced) :
    (Phrase.nest again).Grown input r (Nest.read input levels again r) := by
  induction levels generalizing again r with
  | zero =>
      have hdeep := (moves_same input).tooDeep r
      have hsame : Same r (Nest.read input 0 again r) := ⟨hdeep.frames, hdeep.roots, hdeep.pos⟩
      exact hsame.grown _
  | succ levels ih =>
      have hblind (r : Reading) (hr : r.peek input 0 = .eof) :=
        nestRead_of_blind (levels + 1) again hr
      obtain ⟨nodes, parts, hgrows, hbounds⟩ := read_grown hends (onward_nestRead input levels)
        (fun again r hr => nestRead_of_blind levels again hr)
        (fun again r hr => paced_nestRead levels again hr) (fun again r hr => ih again hr)
        (Grammar.body again) (Grammar.sane_body again) (Grammar.tidy_body again)
        (r := r.descend again) hr (fun _ => Kind.mem_all _)
      refine ⟨nodes, parts, hgrows.of_nest, ?_, ?_, ?_, ?_, ?_⟩
      · intro node hnode
        have hshape := List.all_eq_true.1 (Grammar.shapes_body again) _ (hbounds.shapes node hnode)
        exact of_decide_eq_true hshape
      · intro hsingle
        exact hbounds.single (Grammar.single_body (of_decide_eq_true hsingle))
      · exact fun _ => hbounds.led (Grammar.led_body again)
      · exact Nat.le_trans hbounds.tally (Nat.le_of_eq (Grammar.tally_body again))
      · intro ks hks hearly node hnode
        by_cases hagain : again = .expression
        · subst hagain
          exact hbounds.late Kind.all (fun _ => Kind.mem_all _) Grammar.early_expression node hnode
        · have hnil : ks = [] := by simpa [Phrase.early, hagain] using hearly
          have hhalted : r.halted = true := by
            cases hh : r.halted with
            | true => rfl
            | false => simpa [hnil] using hks hh
          have hpos := hblind r (peek_of_halted hhalted 0)
          rw [Outline.Laid.eq_nil hgrows.of_nest.laid (Nat.le_of_eq hpos)] at hnode
          cases hnode

theorem inputRead_grown (hends : input.Ends) :
    Grammar.script.Grown input begin input.read := by
  have hbegin : begin.Paced := rfl
  unfold Input.read
  split
  · exact ((moves_same input).refl begin).grown _
  · exact read_grown hends (onward_nestRead input nestingLimit)
      (fun again r hr => nestRead_of_blind nestingLimit again hr)
      (fun again r hr => paced_nestRead nestingLimit again hr)
      (fun again r hr => nestRead_grown hends nestingLimit again hr) Grammar.script
      Grammar.sane_script Grammar.tidy_script hbegin (fun _ => Kind.mem_all _)

end Reading

end SqlAtlas
