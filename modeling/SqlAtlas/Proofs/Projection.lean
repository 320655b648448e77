import SqlAtlas.Proofs.Agreement
import SqlAtlas.Proofs.Growth
import SqlAtlas.Proofs.Trace

namespace SqlAtlas

section Pieces

variable (start : Nat)

theorem outlines_append (d d' : List Piece) :
    outlines start (d ++ d') = outlines start d ++ outlines (start + (kindsOf d).length) d' := by
  induction d generalizing start with
  | nil => rfl
  | cons piece d ih =>
      simp only [List.cons_append, outlines, kindsOf, List.length_append, ih, List.append_assoc,
        Nat.add_assoc]

theorem outlines_tokens (ks : List Kind) : outlines start (ks.map .token) = [] := by
  induction ks generalizing start with
  | nil => rfl
  | cons kind ks ih => simp only [List.map_cons, outlines, Piece.outlines, List.nil_append, ih]

theorem noted_append (role : Note) (d d' : List Piece) :
    noted role start (d ++ d') = noted role start d ++
      noted role (start + (kindsOf d).length) d' := by
  induction d generalizing start with
  | nil => rfl
  | cons piece d ih =>
      have hlen : start + (kindsOf (piece :: d)).length =
          start + piece.kinds.length + (kindsOf d).length := by
        rw [kindsOf, List.length_append, Nat.add_assoc]
      rw [hlen]
      cases piece with
      | note note => simp only [List.cons_append, noted, ih, List.append_assoc, Piece.kinds,
          List.length_nil, Nat.add_zero]
      | token kind => exact ih _
      | group shape pieces => exact ih _

theorem noted_tokens (role : Note) (ks : List Kind) : noted role start (ks.map .token) = [] := by
  induction ks generalizing start with
  | nil => rfl
  | cons kind ks ih => simp only [List.map_cons, noted, ih]

theorem noted_group (role : Note) (shape : Shape) (d : List Piece) :
    noted role start [.group shape d] = [] := rfl

end Pieces

namespace Frame

theorem construct_eq (frame : Frame) (shape : Shape) :
    frame.construct shape = shape.construct frame.parts frame.alias? := by
  cases shape <;> rfl

def after (frame : Frame) (start : Nat) (d : List Piece) : Frame :=
  ⟨frame.start, frame.children ++ outlines start d, frame.parts ++ noted .part start d,
    (noted .alias start d).getLast?.or frame.alias?⟩

theorem after_append (frame : Frame) (start : Nat) (d d' : List Piece) :
    (frame.after start d).after (start + (kindsOf d).length) d' = frame.after start (d ++ d') := by
  simp only [after, outlines_append, noted_append, List.append_assoc, List.getLast?_append,
    Option.or_assoc]

theorem after_tokens (frame : Frame) (start : Nat) (ks : List Kind) :
    frame.after start (ks.map .token) = frame := by
  simp [after, outlines_tokens, noted_tokens]

theorem after_group (frame : Frame) (start : Nat) (shape : Shape) (d : List Piece) :
    frame.after start [.group shape d] =
      { frame with children := frame.children ++ outlines start [.group shape d] } := by
  simp [after, noted_group]

end Frame

namespace Reading

variable {r r₁ r' : Reading} {d d' : List Piece}

structure Gains (r r' : Reading) (d : List Piece) : Prop where
  pos : r'.pos = r.pos + (kindsOf d).length
  roots : r.frames = [] → r'.frames = [] ∧ r'.roots = r.roots ++ outlines r.pos d
  frames : ∀ frame frames, r.frames = frame :: frames →
    r'.roots = r.roots ∧ r'.frames = frame.after r.pos d :: frames

namespace Gains

theorem trans (h₁ : Gains r r₁ d) (h₂ : Gains r₁ r' d') : Gains r r' (d ++ d') where
  pos := by rw [h₂.pos, h₁.pos, kindsOf_append, List.length_append, Nat.add_assoc]
  roots hnone := by
    obtain ⟨hframes₁, hroots₁⟩ := h₁.roots hnone
    obtain ⟨hframes₂, hroots₂⟩ := h₂.roots hframes₁
    exact ⟨hframes₂, by rw [hroots₂, hroots₁, h₁.pos, outlines_append, List.append_assoc]⟩
  frames frame frames hsome := by
    obtain ⟨hroots₁, hframes₁⟩ := h₁.frames frame frames hsome
    obtain ⟨hroots₂, hframes₂⟩ := h₂.frames _ _ hframes₁
    exact ⟨hroots₂.trans hroots₁, by rw [hframes₂, h₁.pos, Frame.after_append]⟩

theorem of_same {ks : List Kind} (h : Same r r') (hpos : r'.pos = r.pos + ks.length) :
    Gains r r' (ks.map .token) where
  pos := by rw [kindsOf_tokens, hpos]
  roots hnone := ⟨h.frames.trans hnone, by rw [h.roots, outlines_tokens, List.append_nil]⟩
  frames frame frames hsome := ⟨h.roots, by rw [h.frames, hsome, Frame.after_tokens]⟩

theorem mark (hr : r.Paced) (role : Note) : Gains r (r.mark role) [.note role] where
  pos := (mark_frame role r).1
  roots hnone := by simp [Reading.mark, hnone, outlines, Piece.outlines]
  frames frame frames hsome := by
    cases hpos : r.pos with
    | zero =>
        have hlast : r.last? = none := by simpa [Paced, hpos] using hr
        cases role <;> simp [Reading.mark, hsome, hlast, Frame.after, noted, outlines,
          Piece.outlines]
    | succ last =>
        have hlast : r.last? = some last := by simpa [Paced, hpos] using hr
        cases role <;> simp [Reading.mark, hsome, hlast, Frame.after, noted, outlines,
          Piece.outlines]

theorem of_rule {name : Rule} (h : Gains (r.enter name) r' d) : Gains r r'.leave d :=
  ⟨h.pos, h.roots, h.frames⟩

theorem of_nest {again : Nest} (h : Gains (r.descend again) r' d) : Gains r r'.ascend d :=
  ⟨h.pos, h.roots, h.frames⟩

theorem of_node {shape : Shape} (h : Gains r.openFrame r' d) (hpaced : r'.Paced)
    (hne : kindsOf d ≠ []) : Gains r (r'.closeFrame shape) [.group shape d] := by
  obtain ⟨hroots, hframes⟩ := h.frames _ _ rfl
  have hpos : r'.pos = r.pos + (kindsOf d).length := h.pos
  have hlt : r.pos < r'.pos := by
    have hlen := List.length_pos_iff.2 hne
    omega
  have hfinished : finished shape (Frame.after ⟨r.pos, [], [], none⟩ r.pos d) r'.last? =
      outlines r.pos [.group shape d] := by
    have hlast : r'.last?.filter (r.pos ≤ ·) = some (r.pos + (kindsOf d).length - 1) := by
      rw [last_of_paced hpaced, if_pos hlt, hpos]
    simp only [finished, Frame.after, hlast, outlines, Piece.outlines, Frame.construct_eq,
      List.nil_append, Option.or_none, List.append_nil]
  have hclose : r'.closeFrame shape =
      { r' with frames := r.frames }.attach (outlines r.pos [.group shape d]) := by
    rw [closeFrame, hframes, ← hfinished]
    rfl
  rw [hclose]
  refine ⟨?_, fun hnone => ?_, fun frame frames hsome => ?_⟩
  · rw [attach_pos, kindsOf_group, hpos]
  · simp only [attach, hnone, hroots]
    exact ⟨trivial, rfl⟩
  · simp only [attach, hsome, Frame.after_group]
    exact ⟨hroots, trivial⟩

end Gains

end Reading

namespace Phrase

def filled : Phrase → Bool
  | .seq first second => first.filled && second.filled
  | .ifElse test yes no => test.filled && yes.filled && no.filled
  | .many body | .rule _ body => body.filled
  | .node _ body => body.reads true && body.reads false && body.filled
  | _ => true

end Phrase

theorem Traces.kindsOf_ne_nil {n : Nat} {phrase : Phrase} {d : List Piece} {b : Bool}
    {rest : List Kind} (h : Traces n phrase d b rest)
    (hreads : phrase.reads true = true ∧ phrase.reads false = true) : kindsOf d ≠ [] := by
  obtain ⟨o, hrun⟩ := h.runs
  have hb : phrase.reads b = true := by
    cases b with
    | true => exact hreads.1
    | false => exact hreads.2
  have hlt := hrun.length_lt hb
  rintro hnil
  simp [hnil] at hlt

def Draws (input : Input) (text : List Kind) (n : Nat) (phrase : Phrase) : Prop :=
  ∀ d b rest r, Traces n phrase d b rest → (Place.text (kindsOf d ++ rest)).Of text r → r.Paced →
    ∃ r', phrase.read input (Nest.read input n) r = (b, r') ∧ (Place.text rest).Of text r' ∧
      r'.Paced ∧ r.Gains r' d

namespace Draws

variable {input : Input} {text : List Kind} {n : Nat}

theorem of_tokens {phrase : Phrase} (hagrees : Agrees input text n phrase)
    (hsame : ∀ r, Reading.Same r (phrase.read input (Nest.read input n) r).2)
    (htokens : ∀ {d b rest}, Traces n phrase d b rest → ∃ ks : List Kind, d = ks.map .token) :
    Draws input text n phrase := by
  intro d b rest r htrace hr hpaced
  obtain ⟨ks, rfl⟩ := htokens htrace
  obtain ⟨o, hrun⟩ := htrace.runs
  obtain ⟨r', hread, hr', -⟩ := hagrees _ _ _ _ r hrun (fun _ => ⟨rest, rfl⟩) hr
  have hpaced' : (phrase.read input (Nest.read input n) r).2.Paced :=
    Reading.paced_read (fun again _ => Reading.paced_nestRead n again) phrase hpaced
  have hmoved := hsame r
  rw [hread] at hpaced' hmoved
  refine ⟨r', hread, hr', hpaced', .of_same hmoved ?_⟩
  have hlen := congrArg List.length hr.2.2
  have hlen' := congrArg List.length hr'.2.2
  have hle := hr.2.1
  have hle' := hr'.2.1
  simp only [kindsOf_tokens, List.length_drop, List.length_append] at hlen hlen'
  omega

theorem seq {first second : Phrase} (h₁ : Draws input text n first)
    (h₂ : Draws input text n second) : Draws input text n (.seq first second) := by
  intro d b rest r htrace hr hpaced
  cases htrace with
  | seq hfirst hsecond =>
      rw [kindsOf_append, List.append_assoc] at hr
      obtain ⟨r₁, hread₁, hr₁, hpaced₁, hgains₁⟩ := h₁ _ _ _ r hfirst hr hpaced
      obtain ⟨r₂, hread₂, hr₂, hpaced₂, hgains₂⟩ := h₂ _ _ _ r₁ hsecond hr₁ hpaced₁
      exact ⟨r₂, by simp only [Phrase.read, hread₁, hread₂], hr₂, hpaced₂, hgains₁.trans hgains₂⟩

theorem ifElse {test yes no : Phrase} (ht : Draws input text n test) (hy : Draws input text n yes)
    (hn : Draws input text n no) : Draws input text n (.ifElse test yes no) := by
  intro d b rest r htrace hr hpaced
  cases htrace with
  | ifTrue htest hyes =>
      rw [kindsOf_append, List.append_assoc] at hr
      obtain ⟨r₁, hread₁, hr₁, hpaced₁, hgains₁⟩ := ht _ _ _ r htest hr hpaced
      obtain ⟨r₂, hread₂, hr₂, hpaced₂, hgains₂⟩ := hy _ _ _ r₁ hyes hr₁ hpaced₁
      exact ⟨r₂, by simp only [Phrase.read, hread₁, hread₂], hr₂, hpaced₂, hgains₁.trans hgains₂⟩
  | ifFalse htest hno =>
      rw [kindsOf_append, List.append_assoc] at hr
      obtain ⟨r₁, hread₁, hr₁, hpaced₁, hgains₁⟩ := ht _ _ _ r htest hr hpaced
      obtain ⟨r₂, hread₂, hr₂, hpaced₂, hgains₂⟩ := hn _ _ _ r₁ hno hr₁ hpaced₁
      exact ⟨r₂, by simp only [Phrase.read, hread₁, hread₂], hr₂, hpaced₂, hgains₁.trans hgains₂⟩

theorem turns {body : Phrase} (hbody : Draws input text n body) (hreads : body.reads true = true)
    {d : List Piece} {b : Bool} {rest : List Kind} (htrace : Traces n (.many body) d b rest)
    (rounds : Nat) (r : Reading) (hrounds : (kindsOf d ++ rest).length < rounds)
    (hr : (Place.text (kindsOf d ++ rest)).Of text r) (hpaced : r.Paced) :
    ∃ r', Reading.turns (body.read input (Nest.read input n)) rounds r = r' ∧
      (Place.text rest).Of text r' ∧ r'.Paced ∧ r.Gains r' d := by
  revert rounds r
  refine Traces.many_induction (motive := fun d => ∀ rounds r,
    (kindsOf d ++ rest).length < rounds → (Place.text (kindsOf d ++ rest)).Of text r → r.Paced →
    ∃ r', Reading.turns (body.read input (Nest.read input n)) rounds r = r' ∧
      (Place.text rest).Of text r' ∧ r'.Paced ∧ r.Gains r' d) ?_ ?_ htrace
  · intro d hstop rounds r hrounds hr hpaced
    obtain ⟨rounds, rfl⟩ := Nat.exists_eq_add_of_lt (Nat.zero_lt_of_lt hrounds)
    obtain ⟨r₁, hread, hr₁, hpaced₁, hgains⟩ := hbody _ _ _ r hstop hr hpaced
    exact ⟨r₁, by simp only [Reading.turns, hread], hr₁, hpaced₁, hgains⟩
  · intro d d' hturn _ ih rounds r hrounds hr hpaced
    obtain ⟨rounds, rfl⟩ := Nat.exists_eq_add_of_lt (Nat.zero_lt_of_lt hrounds)
    rw [kindsOf_append, List.append_assoc] at hr hrounds
    obtain ⟨r₁, hread₁, hr₁, hpaced₁, hgains₁⟩ := hbody _ _ _ r hturn hr hpaced
    obtain ⟨o, hrun⟩ := hturn.runs
    have hlt := hrun.length_lt hreads
    obtain ⟨r₂, hturns, hr₂, hpaced₂, hgains₂⟩ := ih rounds r₁ (by omega) hr₁ hpaced₁
    exact ⟨r₂, by simpa only [Nat.zero_add, Reading.turns, hread₁] using hturns, hr₂, hpaced₂,
      hgains₁.trans hgains₂⟩

variable (hshow : input.Shows text)
include hshow

theorem many {body : Phrase} (hbody : Draws input text n body) (hreads : body.reads true = true) :
    Draws input text n (.many body) := by
  intro d b rest r htrace hr hpaced
  obtain rfl := htrace.taken_many
  obtain ⟨r', hturns, hr', hpaced', hgains⟩ := turns hbody hreads htrace _ r
    (Agrees.length_lt_size hshow hr) hr hpaced
  exact ⟨r', by simp only [Phrase.read, hturns], hr', hpaced', hgains⟩

theorem of_nests (hnest : ∀ again, Draws input text n (.nest again)) (phrase : Phrase)
    (hsane : phrase.sane = true) (hsteady : phrase.steady = true) (hfilled : phrase.filled = true) :
    Draws input text n phrase := by
  have hmoves := Reading.moves_same input
  induction phrase with
  | nothing =>
      intro d b rest r htrace hr hpaced
      cases htrace
      have hgains : r.Gains r (([] : List Kind).map .token) := .of_same (hmoves.refl r) rfl
      exact ⟨r, rfl, hr, hpaced, hgains⟩
  | accept guard =>
      refine of_tokens (Agrees.accept hshow hsane) (hmoves.accept guard) fun htrace => ?_
      cases htrace with
      | accept => exact ⟨_, rfl⟩
      | refuse => exact ⟨[], rfl⟩
  | need kind =>
      refine of_tokens (Agrees.need hshow hsane) (hmoves.need kind) fun htrace => ?_
      cases htrace
      exact ⟨[kind], rfl⟩
  | fail =>
      intro d b rest r htrace
      cases htrace
  | stray =>
      refine of_tokens (Agrees.stray hshow) hmoves.stray fun htrace => ?_
      cases htrace
      exact ⟨[], rfl⟩
  | note role =>
      intro d b rest r htrace hr hpaced
      cases htrace
      exact ⟨_, rfl, Agrees.of_mark role hr, (Reading.steps_paced input).mark role r hpaced,
        .mark hpaced role⟩
  | seq first second ih₁ ih₂ =>
      simp only [Phrase.sane, Phrase.steady, Phrase.filled, Bool.and_eq_true]
        at hsane hsteady hfilled
      exact seq (ih₁ hsane.1 hsteady.1 hfilled.1) (ih₂ hsane.2 hsteady.2 hfilled.2)
  | ifElse test yes no iht ihy ihn =>
      simp only [Phrase.sane, Phrase.steady, Phrase.filled, Bool.and_eq_true]
        at hsane hsteady hfilled
      exact ifElse (iht hsane.1.1 hsteady.1.1 hfilled.1.1) (ihy hsane.1.2 hsteady.1.2 hfilled.1.2)
        (ihn hsane.2 hsteady.2 hfilled.2)
  | many body ih =>
      simp only [Phrase.steady, Bool.and_eq_true] at hsteady
      exact many hshow (ih hsane hsteady.2 hfilled) hsteady.1
  | rule name body ih =>
      intro d b rest r htrace hr hpaced
      cases htrace with
      | rule hbody =>
          obtain ⟨r', hread, hr', hpaced', hgains⟩ :=
            ih hsane hsteady hfilled _ _ _ (r.enter name) hbody hr hpaced
          exact ⟨r'.leave, by simp only [Phrase.read, hread], hr', hpaced', hgains.of_rule⟩
  | node shape body ih =>
      intro d b rest r htrace hr hpaced
      simp only [Phrase.filled, Bool.and_eq_true] at hfilled
      cases htrace with
      | node hbody =>
          rw [kindsOf_group] at hr
          obtain ⟨r', hread, hr', hpaced', hgains⟩ :=
            ih hsane hsteady hfilled.2 _ _ _ r.openFrame hbody hr hpaced
          exact ⟨r'.closeFrame shape, by simp only [Phrase.read, hread],
            Agrees.of_closeFrame shape hr',
            (Reading.steps_paced input).node (fun _ => hpaced') hpaced,
            hgains.of_node hpaced' (hbody.kindsOf_ne_nil hfilled.1)⟩
  | nest again => exact hnest again

end Draws

namespace Grammar

theorem filled_body (again : Nest) : (body again).filled = true := by
  cases again <;> decide +kernel

theorem filled_script : script.filled = true := by
  decide +kernel

end Grammar

theorem Draws.nest {input : Input} {text : List Kind} (hshow : input.Shows text) (levels : Nat)
    (again : Nest) : Draws input text levels (.nest again) := by
  induction levels generalizing again with
  | zero =>
      intro d b rest r htrace
      cases htrace
  | succ levels ih =>
      intro d b rest r htrace hr hpaced
      cases htrace with
      | nest hbody =>
          obtain ⟨r', hread, hr', hpaced', hgains⟩ := of_nests hshow ih (Grammar.body again)
            (Grammar.sane_body again) (Grammar.steady_body again) (Grammar.filled_body again) _ _ _
            (r.descend again) hbody hr hpaced
          exact ⟨r'.ascend, by simp only [Phrase.read, Nest.read, hread], hr', hpaced',
            hgains.of_nest⟩

end SqlAtlas
