import Mathlib.Logic.Relation
import SqlAtlas.Proofs.Outline
import SqlAtlas.Proofs.Rounds

namespace SqlAtlas

def Construct.names {ν : Type} : Construct ν → List ν
  | .table name alias? => name ++ alias?.toList
  | .derived alias? => alias?.toList
  | .statement _ | .subquery | .commonTable => []

def Construct.Before (bound : Nat) (construct : Construct Nat) (extent : Extent)
    (_ : List Outline) : Prop :=
  extent.first ≤ extent.last ∧ extent.last < bound ∧ ∀ index ∈ construct.names, index < bound

def Outline.Before (bound : Nat) (outline : Outline) : Prop := outline.All (Construct.Before bound)

theorem Outline.Before.mono {bound bound' : Nat} (hle : bound ≤ bound') {outline : Outline}
    (h : outline.Before bound) : outline.Before bound' := by
  induction h with
  | node hnode _ ih =>
      obtain ⟨hcovers, hlast, hnames⟩ := hnode
      exact .node ⟨hcovers, Nat.lt_of_lt_of_le hlast hle, fun index hindex =>
        Nat.lt_of_lt_of_le (hnames index hindex) hle⟩ ih

theorem Input.shown_of_eof {input : Input} {index : Nat} (h : input.kinds[index]? = some .eof) :
    input.shown index = .eof := by
  unfold Input.shown
  split
  · rfl
  · rw [h]
    rfl

theorem Input.ends_of_back {input : Input} (h : input.kinds.back? = some .eof) : input.Ends := by
  intro index hindex
  have hshown : input.kinds[index]? ≠ some .eof ∧ input.kinds[index]? ≠ none := by
    unfold Input.shown at hindex
    split at hindex
    · exact absurd rfl hindex
    · constructor <;> intro hget <;> simp [hget] at hindex
  have hlt : index < input.kinds.size :=
    Nat.lt_of_not_le fun hge => hshown.2 (Array.getElem?_eq_none hge)
  refine Nat.lt_of_le_of_ne hlt fun heq => hshown.1 ?_
  rw [← h, Array.back?_eq_getElem?, ← heq, Nat.succ_sub_one]

namespace Reading

variable {input : Input} {r r₁ r' : Reading}

structure Balanced (r r' : Reading) : Prop where
  rules : r'.rules = r.rules
  nesting : r'.nesting = r.nesting
  frames : r'.frames.length = r.frames.length

theorem closeFrame_frames {frame : Frame} {frames : List Frame} (shape : Shape)
    (h : r.frames = frame :: frames) : (r.closeFrame shape).frames.length = frames.length := by
  unfold closeFrame attach
  rw [h]
  simp only
  cases frames <;> rfl

theorem closeFrame_stacks (shape : Shape) (r : Reading) :
    (r.closeFrame shape).rules = r.rules ∧ (r.closeFrame shape).nesting = r.nesting := by
  unfold closeFrame attach
  repeat' split
  all_goals exact ⟨rfl, rfl⟩

theorem steps_balanced (input : Input) : Steps input Balanced where
  refl _ := ⟨rfl, rfl, rfl⟩
  trans h₁ h₂ := ⟨h₂.rules.trans h₁.rules, h₂.nesting.trans h₁.nesting, h₂.frames.trans h₁.frames⟩
  bump r := by
    unfold bump
    split <;> exact ⟨rfl, rfl, rfl⟩
  offer offer? r := by
    unfold offer offerTo
    repeat' split
    all_goals exact ⟨rfl, rfl, rfl⟩
  complain _ _ := ⟨rfl, rfl, rfl⟩
  halt _ := ⟨rfl, rfl, rfl⟩
  mark note r := by
    unfold mark
    split
    · next hframes _ =>
        cases note <;> exact ⟨rfl, rfl, by simp [hframes]⟩
    · exact ⟨rfl, rfl, rfl⟩
  rule {name r r'} h := by
    refine ⟨?_, h.nesting, h.frames⟩
    rw [leave, h.rules]
    rfl
  node {shape r r'} h := by
    obtain ⟨hrules, hnesting⟩ := closeFrame_stacks shape r'
    refine ⟨hrules.trans h.rules, hnesting.trans h.nesting, ?_⟩
    obtain ⟨frame, frames, hframes⟩ := List.exists_cons_of_length_eq_add_one h.frames
    rw [closeFrame_frames shape hframes]
    have hlength := h.frames
    rw [hframes] at hlength
    exact Nat.succ.inj hlength
  nest {again r r'} h := by
    refine ⟨?_, ?_, h.frames⟩
    · rw [ascend, h.rules]
      rfl
    · rw [ascend, h.nesting]
      rfl

structure Seated (r : Reading) : Prop where
  last : ∀ last ∈ r.last?, last < r.pos
  starts : ∀ frame ∈ r.frames, frame.start ≤ r.pos
  children : ∀ frame ∈ r.frames, ∀ child ∈ frame.children, child.Before r.pos
  named : ∀ frame ∈ r.frames, ∀ index ∈ frame.parts ++ frame.alias?.toList, index < r.pos
  roots : ∀ root ∈ r.roots, root.Before r.pos
  complaints : ∀ complaint ∈ r.complaints, complaint.index ≤ r.pos

theorem Seated.of_same (h : r.Seated) (hpos : r'.pos = r.pos) (hlast : r'.last? = r.last?)
    (hframes : r'.frames = r.frames) (hroots : r'.roots = r.roots)
    (hcomplaints : r'.complaints = r.complaints) : r'.Seated := by
  constructor
  · rw [hpos, hlast]
    exact h.last
  · rw [hpos, hframes]
    exact h.starts
  · rw [hpos, hframes]
    exact h.children
  · rw [hpos, hframes]
    exact h.named
  · rw [hpos, hroots]
    exact h.roots
  · rw [hpos, hcomplaints]
    exact h.complaints

theorem Seated.bump (h : r.Seated) : (r.bump input).Seated := by
  unfold Reading.bump
  split
  · refine ⟨?_, ?_, ?_, ?_, ?_, ?_⟩
    · intro last hlast
      cases hlast
      exact Nat.lt_succ_self _
    · exact fun frame hframe => Nat.le_succ_of_le (h.starts frame hframe)
    · exact fun frame hframe child hchild =>
        (h.children frame hframe child hchild).mono (Nat.le_succ _)
    · exact fun frame hframe index hindex => Nat.lt_succ_of_lt (h.named frame hframe index hindex)
    · exact fun root hroot => (h.roots root hroot).mono (Nat.le_succ _)
    · exact fun complaint hmem => Nat.le_succ_of_le (h.complaints complaint hmem)
  · exact h

theorem Seated.outer (h : r.Seated) {frame : Frame} {frames : List Frame}
    (hframes : r.frames = frame :: frames) : Seated { r with frames := frames } := by
  have houter (other : Frame) (hother : other ∈ frames) : other ∈ r.frames := by
    simp [hframes, hother]
  exact ⟨h.last, fun other hother => h.starts other (houter other hother),
    fun other hother => h.children other (houter other hother),
    fun other hother => h.named other (houter other hother), h.roots, h.complaints⟩

theorem Seated.cons (h : r.Seated) {frame : Frame} (hstart : frame.start ≤ r.pos)
    (hchildren : ∀ child ∈ frame.children, child.Before r.pos)
    (hnamed : ∀ index ∈ frame.parts ++ frame.alias?.toList, index < r.pos) :
    Seated { r with frames := frame :: r.frames } :=
  ⟨h.last, List.forall_mem_cons.2 ⟨hstart, h.starts⟩,
    List.forall_mem_cons.2 ⟨hchildren, h.children⟩, List.forall_mem_cons.2 ⟨hnamed, h.named⟩,
    h.roots, h.complaints⟩

theorem Seated.mark (h : r.Seated) (note : Note) : (r.mark note).Seated := by
  unfold Reading.mark
  split
  · next frame frames last hframes hlast =>
      have hread : last < r.pos := h.last last hlast
      have hinner : frame ∈ r.frames := by simp [hframes]
      have hstart := h.starts frame hinner
      have hchildren := h.children frame hinner
      have hnamed := h.named frame hinner
      simp only [List.mem_append] at hnamed
      split
      · refine (h.outer hframes).cons hstart hchildren fun index hindex => ?_
        simp only [List.mem_append, List.mem_singleton] at hindex
        rcases hindex with (hindex | rfl) | hindex
        · exact hnamed index (.inl hindex)
        · exact hread
        · exact hnamed index (.inr hindex)
      · refine (h.outer hframes).cons hstart hchildren fun index hindex => ?_
        simp only [List.mem_append, Option.toList_some, List.mem_singleton] at hindex
        rcases hindex with hindex | rfl
        · exact hnamed index (.inl hindex)
        · exact hread
  · exact h

theorem Seated.openFrame (h : r.Seated) : r.openFrame.Seated :=
  h.cons (Nat.le_refl _) (by simp) (by simp)

theorem finished_before {shape : Shape} {frame : Frame} {last? : Option Nat} {bound : Nat}
    (hlast : ∀ last ∈ last?, last < bound)
    (hchildren : ∀ child ∈ frame.children, child.Before bound)
    (hnamed : ∀ index ∈ frame.parts ++ frame.alias?.toList, index < bound) :
    ∀ node ∈ finished shape frame last?, Outline.Before bound node := by
  unfold finished
  split
  · next last hfilter =>
      obtain ⟨hsome, hstart⟩ := Option.filter_eq_some_iff.1 hfilter
      intro node hnode
      rw [List.mem_singleton.1 hnode]
      refine .node ⟨by simpa using hstart, hlast last hsome, fun index hindex => hnamed index ?_⟩
        hchildren
      cases shape with
      | table => exact hindex
      | derived => exact List.mem_append_right _ hindex
      | _ => cases hindex
  · exact hchildren

theorem Seated.attach (h : r.Seated) {nodes : List Outline}
    (hnodes : ∀ node ∈ nodes, node.Before r.pos) : (r.attach nodes).Seated := by
  unfold Reading.attach
  split
  · refine ⟨h.last, h.starts, h.children, h.named, ?_, h.complaints⟩
    intro root hroot
    exact (List.mem_append.1 hroot).elim (h.roots root) (hnodes root)
  · next frame frames hframes =>
      have hinner : frame ∈ r.frames := by simp [hframes]
      refine (h.outer hframes).cons (h.starts frame hinner) (fun child hchild => ?_)
        (h.named frame hinner)
      exact (List.mem_append.1 hchild).elim (h.children frame hinner child) (hnodes child)

theorem Seated.closeFrame (h : r.Seated) (shape : Shape) : (r.closeFrame shape).Seated := by
  unfold Reading.closeFrame
  split
  · exact h
  · next frame frames hframes =>
      have hinner : frame ∈ r.frames := by simp [hframes]
      exact (h.outer hframes).attach
        (finished_before h.last (h.children frame hinner) (h.named frame hinner))

theorem steps_seated (input : Input) : Steps input fun r r' => r.Seated → r'.Seated where
  refl _ := id
  trans h₁ h₂ := h₂ ∘ h₁
  bump _ h := h.bump
  offer offer? r h := by
    unfold offer offerTo
    repeat' split
    all_goals exact h.of_same rfl rfl rfl rfl rfl
  complain cause r h := by
    refine ⟨h.last, h.starts, h.children, h.named, h.roots, fun complaint hmem => ?_⟩
    rcases List.mem_append.1 hmem with hmem | hmem
    · exact h.complaints complaint hmem
    · rw [List.mem_singleton.1 hmem]
      exact Nat.le_refl _
  halt _ h := h.of_same rfl rfl rfl rfl rfl
  mark note _ h := h.mark note
  rule h hr := (h (hr.of_same rfl rfl rfl rfl rfl)).of_same rfl rfl rfl rfl rfl
  node {shape _ _} h hr := (h hr.openFrame).closeFrame shape
  nest h hr := (h (hr.of_same rfl rfl rfl rfl rfl)).of_same rfl rfl rfl rfl rfl

theorem seated_begin : begin.Seated := by
  constructor <;> simp [begin]

section Limit

variable {limit : Nat} (hlimit : input.shown limit = .eof)
include hlimit

theorem lt_limit {i : Nat} (hi : r.pos + i ≤ limit) (hpeek : r.peek input i ≠ .eof) :
    r.pos + i < limit := by
  refine Nat.lt_of_le_of_ne hi fun heq => hpeek ?_
  rw [peek_eq_shown (halted_of_peek hpeek), heq]
  exact hlimit

theorem sees_le_limit {kinds : List Kind} (heof : Kind.eof ∉ kinds) {i : Nat}
    (hi : r.pos + i ≤ limit) (hsees : r.sees input i kinds = true) :
    r.pos + i + kinds.length ≤ limit := by
  induction kinds generalizing i with
  | nil => exact hi
  | cons kind kinds ih =>
      obtain ⟨hkind, hrest⟩ := sees_cons hsees
      have hlt := lt_limit hlimit hi fun hk => heof (by simp [← hkind, hk])
      have hmore := ih (fun hk => heof (by simp [hk])) (i := i + 1) hlt hrest
      rw [List.length_cons]
      omega

omit hlimit in
theorem bumps_pos_le (count : Nat) (r : Reading) : (r.bumps input count).pos ≤ r.pos + count := by
  induction count generalizing r with
  | zero => exact Nat.le_refl _
  | succ count ih =>
      have hbump : (r.bump input).pos ≤ r.pos + 1 := by
        unfold bump
        split
        · exact Nat.le_refl _
        · exact Nat.le_succ _
      have hmore := ih (r.bump input)
      rw [bumps]
      omega

theorem accept_le {guard : Guard} (heof : Kind.eof ∉ guard.kinds) (hr : r.pos ≤ limit) :
    (r.accept input guard).2.pos ≤ limit := by
  unfold accept
  split
  · exact hr
  · split
    · rw [(offer_frame input _ r).1]
      exact hr
    · split
      · next hsees =>
          have hroom := sees_le_limit hlimit heof (i := 0) hr hsees
          have hwidth := guard.width_le_length
          have hmoved : (r.bumps input guard.width).pos ≤ r.pos + guard.width := bumps_pos_le _ r
          simp only
          omega
      · exact hr

theorem need_le {kind : Kind} (hkind : kind ≠ .eof) (hr : r.pos ≤ limit) :
    (r.need input kind).2.pos ≤ limit := by
  have heof : Kind.eof ∉ (Guard.token kind []).kinds := by simpa [Guard.kinds] using hkind.symm
  have haccept := accept_le hlimit heof hr
  unfold need
  split
  · next r₁ hr₁ =>
      rw [hr₁] at haccept
      exact haccept
  · next r₁ hr₁ =>
      rw [hr₁] at haccept
      split
      · next hskip =>
          have hfirst := lt_limit hlimit (i := 0) haccept hskip.1
          have hsecond := lt_limit hlimit (i := 1) hfirst (by rw [hskip.2]; exact hkind)
          exact Nat.le_trans (bumps_pos_le 2 _) hsecond
      · rw [stuck_pos]
        exact haccept

theorem skipToBoundary_le (rounds : Nat) (hr : r.pos ≤ limit) :
    (r.skipToBoundary input rounds).pos ≤ limit := by
  induction rounds generalizing r with
  | zero => exact hr
  | succ rounds ih =>
      unfold skipToBoundary
      split
      · exact hr
      · next hend =>
          have hpeek := peek_of_not_atBoundary (by simpa using hend)
          exact ih (Nat.le_trans (bumps_pos_le 1 r) (lt_limit hlimit (i := 0) hr hpeek))

theorem stray_le (hr : r.pos ≤ limit) : (r.stray input).2.pos ≤ limit := by
  unfold stray
  split
  · exact hr
  · next hpeek =>
      have hlt := lt_limit hlimit (i := 0) hr hpeek
      exact skipToBoundary_le hlimit _ (Nat.le_trans (bumps_pos_le 1 (r.complain .stray)) hlt)

theorem read_le {deeper : Nest → Reading → Reading}
    (hdeeper : ∀ again r, r.pos ≤ limit → (deeper again r).pos ≤ limit) (phrase : Phrase)
    (hsane : phrase.sane = true) (hr : r.pos ≤ limit) :
    (phrase.read input deeper r).2.pos ≤ limit := by
  induction phrase generalizing r with
  | nothing => exact hr
  | accept guard =>
      simp only [Phrase.sane, Bool.and_eq_true, Bool.not_eq_true', List.contains_eq_mem,
        decide_eq_false_iff_not] at hsane
      exact accept_le hlimit hsane.2 hr
  | need kind => exact need_le hlimit (by simpa [Phrase.sane] using hsane) hr
  | fail =>
      simp only [Phrase.read, stuck_pos]
      exact hr
  | stray => exact stray_le hlimit hr
  | note role => exact (mark_frame role r).1 ▸ hr
  | seq first second ih₁ ih₂ =>
      simp only [Phrase.sane, Bool.and_eq_true] at hsane
      exact ih₂ hsane.2 (ih₁ hsane.1 hr)
  | ifElse test yes no iht ihy ihn =>
      simp only [Phrase.sane, Bool.and_eq_true] at hsane
      have htest := iht hsane.1.1 hr
      simp only [Phrase.read]
      split
      · next r₁ hr₁ =>
          rw [hr₁] at htest
          exact ihy hsane.1.2 htest
      · next r₁ hr₁ =>
          rw [hr₁] at htest
          exact ihn hsane.2 htest
  | many body ih => exact turns_keeps (·.pos ≤ limit) (fun r hr => ih hsane hr) _ hr
  | rule name body ih => exact ih (r := r.enter name) hsane hr
  | node shape body ih =>
      exact Nat.le_trans (Nat.le_of_eq (closeFrame_frame shape _).1)
        (ih (r := r.openFrame) hsane hr)
  | nest again => exact hdeeper again r hr

theorem nestRead_le (levels : Nat) (again : Nest) (hr : r.pos ≤ limit) :
    (Nest.read input levels again r).pos ≤ limit := by
  induction levels generalizing again r with
  | zero => exact tooDeep_pos r ▸ hr
  | succ levels ih =>
      exact read_le hlimit (fun again r hr => ih again hr) (Grammar.body again)
        (Grammar.sane_body again) (r := r.descend again) hr

end Limit

end Reading

structure Call where
  levels : Nat
  phrase : Phrase
  reading : Reading

namespace Call

def result (input : Input) (call : Call) : Bool × Reading :=
  call.phrase.read input (Nest.read input call.levels) call.reading

def script : Call := ⟨nestingLimit, Grammar.script, Reading.begin⟩

inductive Makes (input : Input) : Call → Call → Prop
  | first {n : Nat} {first second : Phrase} {r : Reading} :
      Makes input ⟨n, .seq first second, r⟩ ⟨n, first, r⟩
  | second {n : Nat} {first second : Phrase} {r : Reading} :
      Makes input ⟨n, .seq first second, r⟩ ⟨n, second, (result input ⟨n, first, r⟩).2⟩
  | test {n : Nat} {test yes no : Phrase} {r : Reading} :
      Makes input ⟨n, .ifElse test yes no, r⟩ ⟨n, test, r⟩
  | yes {n : Nat} {test yes no : Phrase} {r r₁ : Reading} :
      result input ⟨n, test, r⟩ = (true, r₁) → Makes input ⟨n, .ifElse test yes no, r⟩ ⟨n, yes, r₁⟩
  | no {n : Nat} {test yes no : Phrase} {r r₁ : Reading} :
      result input ⟨n, test, r⟩ = (false, r₁) → Makes input ⟨n, .ifElse test yes no, r⟩ ⟨n, no, r₁⟩
  | turn {n : Nat} {body : Phrase} {r : Reading} : Makes input ⟨n, .many body, r⟩ ⟨n, body, r⟩
  | more {n : Nat} {body : Phrase} {r r₁ : Reading} :
      result input ⟨n, body, r⟩ = (true, r₁) → Makes input ⟨n, .many body, r⟩ ⟨n, .many body, r₁⟩
  | rule {n : Nat} {name : Rule} {body : Phrase} {r : Reading} :
      Makes input ⟨n, .rule name body, r⟩ ⟨n, body, r.enter name⟩
  | node {n : Nat} {shape : Shape} {body : Phrase} {r : Reading} :
      Makes input ⟨n, .node shape body, r⟩ ⟨n, body, r.openFrame⟩
  | nest {n : Nat} {again : Nest} {r : Reading} :
      Makes input ⟨n + 1, .nest again, r⟩ ⟨n, Grammar.body again, r.descend again⟩

structure Sound (input : Input) (call : Call) : Prop where
  fit : call.phrase.Fit
  seated : call.reading.Seated
  limited : ∀ limit, input.shown limit = .eof → call.reading.pos ≤ limit

variable {input : Input} {call inner : Call}

theorem sound_script : script.Sound input where
  fit := Grammar.fit_script
  seated := Reading.seated_begin
  limited _ _ := Nat.zero_le _

theorem Sound.result_seated (h : call.Sound input) : (call.result input).2.Seated :=
  (Reading.steps_seated input).read ((Reading.steps_seated input).nestRead _) _ _ h.seated

theorem Sound.result_limited (h : call.Sound input) (limit : Nat)
    (hlimit : input.shown limit = .eof) : (call.result input).2.pos ≤ limit :=
  Reading.read_le hlimit
    (fun again _ hr => Reading.nestRead_le hlimit call.levels again hr) _ h.fit.sane
    (h.limited limit hlimit)

theorem Sound.after {n : Nat} {phrase next : Phrase} {r r₁ : Reading}
    (h : Sound input ⟨n, phrase, r⟩) (hr₁ : (result input ⟨n, phrase, r⟩).2 = r₁)
    (hfit : next.Fit) : Sound input ⟨n, next, r₁⟩ := by
  subst hr₁
  exact ⟨hfit, h.result_seated, h.result_limited⟩

theorem Sound.made (h : call.Sound input) (hmakes : Makes input call inner) :
    inner.Sound input := by
  obtain ⟨hfit, hseated, hlimited⟩ := h
  cases hmakes with
  | first => exact ⟨hfit.of_seq.1, hseated, hlimited⟩
  | @second n first _ r =>
      have hfirst : Sound input ⟨n, first, r⟩ := ⟨hfit.of_seq.1, hseated, hlimited⟩
      exact hfirst.after rfl hfit.of_seq.2
  | test => exact ⟨hfit.of_ifElse.1, hseated, hlimited⟩
  | @yes n test _ _ r _ hr₁ =>
      have htest : Sound input ⟨n, test, r⟩ := ⟨hfit.of_ifElse.1, hseated, hlimited⟩
      exact htest.after (congrArg Prod.snd hr₁) hfit.of_ifElse.2.1
  | @no n test _ _ r _ hr₁ =>
      have htest : Sound input ⟨n, test, r⟩ := ⟨hfit.of_ifElse.1, hseated, hlimited⟩
      exact htest.after (congrArg Prod.snd hr₁) hfit.of_ifElse.2.2
  | turn => exact ⟨hfit.of_many.1, hseated, hlimited⟩
  | @more n body r _ hr₁ =>
      have hturn : Sound input ⟨n, body, r⟩ := ⟨hfit.of_many.1, hseated, hlimited⟩
      exact hturn.after (congrArg Prod.snd hr₁) hfit
  | rule => exact ⟨hfit.of_rule, hseated.of_same rfl rfl rfl rfl rfl, hlimited⟩
  | node => exact ⟨hfit.of_node, hseated.openFrame, hlimited⟩
  | nest => exact ⟨Grammar.fit_body _, hseated.of_same rfl rfl rfl rfl rfl, hlimited⟩

theorem Sound.of_reached (h : call.Sound input)
    (hreached : Relation.ReflTransGen (Makes input) call inner) : inner.Sound input := by
  induction hreached with
  | refl => exact h
  | tail _ hmakes ih => exact ih.made hmakes

structure Confined (input : Input) (call : Call) : Prop where
  onward : call.reading.pos ≤ (call.result input).2.pos
  beforeEnd : ∀ index, input.kinds[index]? = some .eof → (call.result input).2.pos ≤ index
  beforeCaret : ∀ watch, input.watch? = some watch → (call.result input).2.pos ≤ watch.caret
  inRange : (call.result input).2.pos < input.kinds.size
  seated : (call.result input).2.Seated
  balanced : Reading.Balanced call.reading (call.result input).2
  loop : ∀ body, call.phrase = .many body →
    Reading.Rounds (body.read input (Nest.read input call.levels)) call.reading
      (call.result input).2
  skipping : call.phrase = .stray → call.reading.peek input 0 ≠ .eof →
    Reading.Rounds (Reading.skip input) ((call.reading.complain .stray).bump input)
      (call.result input).2

theorem Sound.confined (h : call.Sound input) (hends : input.Ends) (hsome : 0 < input.kinds.size)
    (hlast : input.shown (input.kinds.size - 1) = .eof) : call.Confined input where
  onward := (Reading.onward_read (Reading.onward_nestRead input _) _ _).pos
  beforeEnd index hindex := h.result_limited index (Input.shown_of_eof hindex)
  beforeCaret watch hwatch := by
    refine h.result_limited watch.caret ?_
    simp [Input.shown, hwatch]
  inRange := by
    have hle := h.result_limited _ hlast
    omega
  seated := h.result_seated
  balanced := (Reading.steps_balanced input).read ((Reading.steps_balanced input).nestRead _) _ _
  loop body hbody := by
    have hfit := h.fit
    unfold result
    rw [hbody] at hfit ⊢
    exact Reading.many_rounds hends hsome (Reading.onward_nestRead input _)
      (fun again _ hr => Reading.nestRead_of_blind call.levels again hr) hfit _
  skipping hstray hpeek := by
    have hrounds := Reading.skip_rounds hends hsome ((call.reading.complain .stray).bump input)
    simpa [result, hstray, Phrase.read, Reading.stray, hpeek] using hrounds

end Call

theorem read_script_confined (input : Input) (hlast : input.kinds.back? = some .eof) :
    input.read = (Call.script.result input).2 ∧
      ∀ call, Relation.ReflTransGen (Call.Makes input) Call.script call → call.Confined input := by
  have hsome : 0 < input.kinds.size := by
    refine Nat.pos_of_ne_zero fun hsize => ?_
    simp [Array.back?_eq_getElem?, hsize] at hlast
  refine ⟨?_, fun call hreached => ?_⟩
  · have hne : input.kinds.isEmpty = false := by
      simpa [Array.isEmpty] using Nat.ne_of_gt hsome
    simp [Input.read, hne, Call.result, Call.script]
  · have hsound := Call.sound_script.of_reached hreached
    exact hsound.confined (Input.ends_of_back hlast) hsome
      (Input.shown_of_eof (Array.back?_eq_getElem? ▸ hlast))

theorem read_script_confined_early_end :
    let input : Input := ⟨#[.keyword .SELECT, .eof, .comma, .eof], some ⟨7, [], []⟩⟩
    input.kinds.back? = some .eof ∧ input.read = (Call.script.result input).2 ∧
      Call.Confined input ⟨nestingLimit, .many Grammar.scriptItem, Reading.begin.enter .file⟩ := by
  obtain ⟨hread, hcalls⟩ := read_script_confined
    ⟨#[.keyword .SELECT, .eof, .comma, .eof], some ⟨7, [], []⟩⟩ rfl
  exact ⟨rfl, hread, hcalls _ (.single .rule)⟩

end SqlAtlas
