import SqlAtlas.Proofs.Decision

namespace SqlAtlas

/-- The first kind of a query in parentheses that an INSERT takes its rows from. -/
def BehindTarget (pre : List Kind) (k : Kind) : Prop :=
  k ∈ Kind.queryStarts ∧ ∃ into ∈ [[], [Kind.keyword .INTO]],
    ∃ name ∈ erase (Production.tableName (Setting.upTo True 0)),
      .keyword .INSERT :: into ++ name ++ [.openParen] <:+ pre

/-- A call, all columns of a table, or the query of an INSERT was decided on by looking past a kind.
`taken` says which guards hold how many kinds before it. -/
def SeenPast (taken : Nat → Guard → Prop) (pre : List Kind) (k : Kind) : Prop :=
  (k = .openParen ∧ taken 1 (.run [.identifier, .openParen])) ∨
  (k = .star ∧ taken 2 (.run [.identifier, .dot, .star])) ∨
  (BehindTarget pre k ∧ taken 1 (.sight [.openParen, k]))

/-- The name or the dot of all columns of a table. -/
def NamesAll (taken : Nat → Guard → Prop) (k : Kind) : Prop :=
  (k = .identifier ∧ taken 0 (.run [.identifier, .dot, .star])) ∨
  (k = .dot ∧ taken 1 (.run [.identifier, .dot, .star]))

section Taken

variable {taken taken' : Nat → Guard → Prop} {pre pre' : List Kind} {k : Kind}
  (htaken : ∀ back guard, taken back guard → taken' back guard)
include htaken

theorem SeenPast.mono (h : SeenPast taken pre k) (hpre : pre <:+ pre') :
    SeenPast taken' pre' k := by
  rcases h with ⟨rfl, hcall⟩ | ⟨rfl, hall⟩ | ⟨⟨hk, into, hinto, name, hname, hinsert⟩, hquery⟩
  · exact .inl ⟨rfl, htaken _ _ hcall⟩
  · exact .inr (.inl ⟨rfl, htaken _ _ hall⟩)
  · exact .inr (.inr ⟨⟨hk, into, hinto, name, hname, hinsert.trans hpre⟩, htaken _ _ hquery⟩)

theorem NamesAll.mono (h : NamesAll taken k) : NamesAll taken' k :=
  h.imp (And.imp_right (htaken _ _)) (And.imp_right (htaken _ _))

end Taken

/-- A reading of what stands before a kind offers it, unless the kind was seen past or the reading
ends at the nesting limit for want of it. -/
def Meets (n : Nat) (phrase : Phrase) (pre : List Kind) (k : Kind) (seen deep : Prop) : Prop :=
  ∃ o b s, Runs n phrase (.text pre) o b s ∧ s.Spent ∧
    (k ∈ o.map Prod.fst ∨ seen ∨ s = .depth ∧ deep)

namespace Meets

variable {n : Nat} {pre mid : List Kind} {k : Kind} {o : List Offer} {b : Bool}
  {seen deep seen' deep' : Prop}

theorem mono {phrase : Phrase} (h : Meets n phrase pre k seen deep) (hseen : seen → seen')
    (hdeep : deep → deep') : Meets n phrase pre k seen' deep' := by
  obtain ⟨o, b, s, hrun, hs, hk⟩ := h
  exact ⟨o, b, s, hrun, hs, hk.imp_right (Or.imp hseen (And.imp_right hdeep))⟩

theorem later {s s' : Place} {o o' : List Offer} {phrase : Phrase} {b : Bool}
    (h : k ∈ o.map Prod.fst ∨ seen ∨ s = .depth ∧ deep) (hrun : Runs n phrase s o' b s') :
    k ∈ (o ++ o').map Prod.fst ∨ seen ∨ s' = .depth ∧ deep := by
  rcases h with hk | hseen | ⟨rfl, hdeep⟩
  · exact .inl (by simp only [List.map_append, List.mem_append]; exact .inl hk)
  · exact .inr (.inl hseen)
  · exact .inr (.inr ⟨(hrun.of_halted trivial).2.2, hdeep⟩)

theorem earlier {s : Place} {o' : List Offer} (o : List Offer)
    (h : k ∈ o'.map Prod.fst ∨ seen ∨ s = .depth ∧ deep) :
    k ∈ (o ++ o').map Prod.fst ∨ seen ∨ s = .depth ∧ deep := by
  refine h.imp_left fun hk => ?_
  simp only [List.map_append, List.mem_append]
  exact .inr hk

theorem first {first second : Phrase} (h : Meets n first pre k seen deep) :
    Meets n (.seq first second) pre k seen deep := by
  obtain ⟨o₁, b₁, s₁, hfirst, hs₁, hk⟩ := h
  obtain ⟨o₂, s₂, hsecond, hs₂⟩ := Runs.exists_of_spent n second hs₁
  exact ⟨_, _, _, .seq hfirst hsecond, hs₂, later hk hsecond⟩

theorem second {first second : Phrase} (hfirst : Runs n first (.text pre) o b (.text mid))
    (h : Meets n second mid k seen deep) : Meets n (.seq first second) pre k seen deep := by
  obtain ⟨o₂, b₂, s₂, hsecond, hs₂, hk⟩ := h
  exact ⟨_, _, _, .seq hfirst hsecond, hs₂, earlier _ hk⟩

theorem test {test yes no : Phrase} (h : Meets n test pre k seen deep) :
    Meets n (.ifElse test yes no) pre k seen deep := by
  obtain ⟨o₁, b₁, s₁, htest, hs₁, hk⟩ := h
  cases b₁ with
  | true =>
      obtain ⟨o₂, s₂, hyes, hs₂⟩ := Runs.exists_of_spent n yes hs₁
      exact ⟨_, _, _, .ifTrue htest hyes, hs₂, later hk hyes⟩
  | false =>
      obtain ⟨o₂, s₂, hno, hs₂⟩ := Runs.exists_of_spent n no hs₁
      exact ⟨_, _, _, .ifFalse htest hno, hs₂, later hk hno⟩

theorem yes {test yes no : Phrase} (htest : Runs n test (.text pre) o true (.text mid))
    (h : Meets n yes mid k seen deep) : Meets n (.ifElse test yes no) pre k seen deep := by
  obtain ⟨o₂, b₂, s₂, hyes, hs₂, hk⟩ := h
  exact ⟨_, _, _, .ifTrue htest hyes, hs₂, earlier _ hk⟩

theorem no {test yes no : Phrase} (htest : Runs n test (.text pre) o false (.text mid))
    (h : Meets n no mid k seen deep) : Meets n (.ifElse test yes no) pre k seen deep := by
  obtain ⟨o₂, b₂, s₂, hno, hs₂, hk⟩ := h
  exact ⟨_, _, _, .ifFalse htest hno, hs₂, earlier _ hk⟩

theorem turn {body : Phrase} (h : Meets n body pre k seen deep) :
    Meets n (.many body) pre k seen deep := by
  obtain ⟨o₁, b₁, s₁, hturn, hs₁, hk⟩ := h
  cases b₁ with
  | true =>
      obtain ⟨o₂, s₂, hmore, hs₂⟩ := Runs.exists_of_spent n (.many body) hs₁
      exact ⟨_, _, _, .manyMore hturn hmore, hs₂, later hk hmore⟩
  | false => exact ⟨_, _, _, .manyStop hturn, hs₁, hk⟩

theorem more {body : Phrase} (hturn : Runs n body (.text pre) o true (.text mid))
    (h : Meets n (.many body) mid k seen deep) : Meets n (.many body) pre k seen deep := by
  obtain ⟨o₂, b₂, s₂, hmore, hs₂, hk⟩ := h
  exact ⟨_, _, _, .manyMore hturn hmore, hs₂, earlier _ hk⟩

theorem rule {name : Rule} {body : Phrase} (h : Meets n body pre k seen deep) :
    Meets n (.rule name body) pre k seen deep := by
  obtain ⟨o, b, s, hbody, hs, hk⟩ := h
  exact ⟨o, b, s, .rule hbody, hs, hk⟩

theorem node {shape : Shape} {body : Phrase} (h : Meets n body pre k seen deep) :
    Meets n (.node shape body) pre k seen deep := by
  obtain ⟨o, b, s, hbody, hs, hk⟩ := h
  exact ⟨o, b, s, .node hbody, hs, hk⟩

theorem nest {again : Nest} (h : Meets n (Grammar.body again) pre k seen deep) :
    Meets (n + 1) (.nest again) pre k seen deep := by
  obtain ⟨o, b, s, hbody, hs, hk⟩ := h
  exact ⟨o, false, s, .nest hbody, hs, hk⟩

theorem offered {phrase : Phrase} {s : Place} (h : Runs n phrase (.text pre) o b s) (hs : s.Spent)
    (hk : k ∈ o.map Prod.fst) : Meets n phrase pre k seen deep :=
  ⟨o, b, s, h, hs, .inl hk⟩

end Meets

def Spans (n : Nat) (phrase : Phrase) (pre : List Kind) (k : Kind) (post : List Kind) (back : Nat)
    (guard : Guard) : Prop :=
  ∃ left, Decides n phrase (pre ++ k :: post) guard left ∧ left.length = back + (post.length + 1)

def Awaits (n : Nat) (phrase : Phrase) (pre : List Kind) (k : Kind) (post : List Kind) : Prop :=
  Meets n phrase pre k (SeenPast (Spans n phrase pre k post) pre k)
    (NamesAll (Spans n phrase pre k post) k)

namespace Awaits

variable {n : Nat} {pre mid post : List Kind} {k : Kind} {o o' : List Offer} {b b' : Bool}

theorem of_meets {m : Nat} {phrase inner : Phrase}
    (h : Meets n phrase pre k (SeenPast (Spans m inner mid k post) mid k)
      (NamesAll (Spans m inner mid k post) k)) (hmid : mid <:+ pre)
    (hdecides : ∀ guard left, Decides m inner (mid ++ k :: post) guard left →
      Decides n phrase (pre ++ k :: post) guard left) : Awaits n phrase pre k post := by
  have hspans (back : Nat) (guard : Guard) :
      Spans m inner mid k post back guard → Spans n phrase pre k post back guard := by
    rintro ⟨left, hleft, hback⟩
    exact ⟨left, hdecides _ _ hleft, hback⟩
  exact h.mono (fun hseen => hseen.mono hspans hmid) fun hall => hall.mono hspans

theorem first {first second : Phrase} (h : Awaits n first pre k post) :
    Awaits n (.seq first second) pre k post :=
  .of_meets (Meets.first h) List.suffix_rfl fun _ _ => .first

theorem second {first second : Phrase}
    (hfull : Runs n first (.text (pre ++ k :: post)) o' b' (.text (mid ++ k :: post)))
    (hfirst : Runs n first (.text pre) o b (.text mid)) (h : Awaits n second mid k post) :
    Awaits n (.seq first second) pre k post :=
  .of_meets (Meets.second hfirst h) hfirst.suffix fun _ _ => .second hfull

theorem test {test yes no : Phrase} (h : Awaits n test pre k post) :
    Awaits n (.ifElse test yes no) pre k post :=
  .of_meets (Meets.test h) List.suffix_rfl fun _ _ => .test

theorem yes {test yes no : Phrase}
    (hfull : Runs n test (.text (pre ++ k :: post)) o' true (.text (mid ++ k :: post)))
    (htest : Runs n test (.text pre) o true (.text mid)) (h : Awaits n yes mid k post) :
    Awaits n (.ifElse test yes no) pre k post :=
  .of_meets (Meets.yes htest h) htest.suffix fun _ _ => .yes hfull

theorem no {test yes no : Phrase}
    (hfull : Runs n test (.text (pre ++ k :: post)) o' false (.text (mid ++ k :: post)))
    (htest : Runs n test (.text pre) o false (.text mid)) (h : Awaits n no mid k post) :
    Awaits n (.ifElse test yes no) pre k post :=
  .of_meets (Meets.no htest h) htest.suffix fun _ _ => .no hfull

theorem turn {body : Phrase} (h : Awaits n body pre k post) : Awaits n (.many body) pre k post :=
  .of_meets (Meets.turn h) List.suffix_rfl fun _ _ => .turn

theorem more {body : Phrase}
    (hfull : Runs n body (.text (pre ++ k :: post)) o' true (.text (mid ++ k :: post)))
    (hturn : Runs n body (.text pre) o true (.text mid)) (h : Awaits n (.many body) mid k post) :
    Awaits n (.many body) pre k post :=
  .of_meets (Meets.more hturn h) hturn.suffix fun _ _ => .more hfull

theorem rule {name : Rule} {body : Phrase} (h : Awaits n body pre k post) :
    Awaits n (.rule name body) pre k post :=
  .of_meets (Meets.rule h) List.suffix_rfl fun _ _ => .rule

theorem node {shape : Shape} {body : Phrase} (h : Awaits n body pre k post) :
    Awaits n (.node shape body) pre k post :=
  .of_meets (Meets.node h) List.suffix_rfl fun _ _ => .node

theorem nest {again : Nest} (h : Awaits n (Grammar.body again) pre k post) :
    Awaits (n + 1) (.nest again) pre k post :=
  .of_meets (Meets.nest h) List.suffix_rfl fun _ _ => .nest

end Awaits

/-- Where a kind is read, the reading of what stands before it either comes as far with the same
outcome or awaits the kind. -/
def Foresees (n : Nat) (phrase : Phrase) (pre : List Kind) : Prop :=
  ∀ k post o b rest, Runs n phrase (.text (pre ++ k :: post)) o b (.text rest) →
    (∃ mid o', rest = mid ++ k :: post ∧ Runs n phrase (.text pre) o' b (.text mid)) ∨
      Awaits n phrase pre k post

namespace Foresees

variable {n : Nat} {pre : List Kind}

theorem need {kind : Kind} : Foresees n (.need kind) pre := by
  intro k post o b rest h
  cases pre with
  | nil =>
      cases h with
      | idle hh => exact hh.elim
      | need => exact .inr (Meets.offered .needAtCaret trivial (by simp))
  | cons j pre =>
      cases h with
      | idle hh => exact hh.elim
      | need => exact .inl ⟨pre, _, rfl, .need⟩

theorem accept_of_ne {guard : Guard} (hguard : guard.kinds.length ≤ 1) (hpre : pre ≠ []) :
    Foresees n (.accept guard) pre := by
  intro k post o b rest h
  obtain ⟨j, pre, rfl⟩ := List.exists_cons_of_ne_nil hpre
  have hsame : guard.kinds <+: j :: pre ++ k :: post ↔ guard.kinds <+: j :: pre := by
    match hkinds : guard.kinds, hguard with
    | [], _ => simp
    | [i], _ => simp [List.cons_prefix_cons]
  have hwidth : guard.width ≤ 1 := (guard.width_le_length).trans hguard
  cases h with
  | idle hh => exact hh.elim
  | accept _ hkinds =>
      refine .inl ⟨_, _, List.drop_append_of_le_length ?_, .accept hpre (hsame.1 hkinds)⟩
      simp only [List.length_cons]
      omega
  | refuse _ hkinds => exact .inl ⟨_, _, rfl, .refuse hpre fun hacc => hkinds (hsame.2 hacc)⟩

theorem accept {guard : Guard} (hguard : guard.offer?.isSome) : Foresees n (.accept guard) pre := by
  obtain ⟨kind, follow, hoffer, hkinds⟩ : ∃ kind follow, guard.offer? = some (kind, follow) ∧
      guard.kinds = [kind] := by
    cases guard with
    | token kind follow => exact ⟨kind, follow, rfl, rfl⟩
    | before kind => exact ⟨kind, [], rfl, rfl⟩
    | run kinds => cases hguard
    | sight kinds => cases hguard
  cases pre with
  | cons j pre => exact accept_of_ne (by simp [hkinds]) (by simp)
  | nil =>
      intro k post o b rest h
      cases h with
      | idle hh => exact hh.elim
      | accept _ hpre =>
          rw [hkinds] at hpre
          obtain rfl := (List.cons_prefix_cons.1 hpre).1
          exact .inr (Meets.offered .offer rfl (by simp [hoffer]))
      | refuse => exact .inl ⟨[], _, rfl, .offer⟩

theorem seq {first second : Phrase} (hfirst : Foresees n first pre)
    (hsecond : ∀ mid, Foresees n second mid) : Foresees n (.seq first second) pre := by
  intro k post o b rest h
  obtain ⟨o₁, b₁, s₁, o₂, h₁, h₂, -⟩ := h.seq_inv
  obtain ⟨mid, rfl⟩ := h₂.exists_text
  rcases hfirst _ _ _ _ _ h₁ with ⟨mid', o₁', rfl, hrun₁⟩ | hawaits
  · rcases hsecond _ _ _ _ _ _ h₂ with ⟨mid₂, o₂', rfl, hrun₂⟩ | hawaits
    · exact .inl ⟨mid₂, _, rfl, .seq hrun₁ hrun₂⟩
    · exact .inr (.second h₁ hrun₁ hawaits)
  · exact .inr hawaits.first

theorem ifElse {test yes no : Phrase} (htest : Foresees n test pre)
    (hyes : ∀ {o mid}, Runs n test (.text pre) o true (.text mid) → Foresees n yes mid)
    (hno : ∀ {o mid}, Runs n test (.text pre) o false (.text mid) → Foresees n no mid) :
    Foresees n (.ifElse test yes no) pre := by
  intro k post o b rest h
  rcases h.ifElse_inv with ⟨o₁, s₁, o₂, b₂, h₁, h₂, -, rfl⟩ | ⟨o₁, s₁, o₂, h₁, h₂, -⟩
  · obtain ⟨mid, rfl⟩ := h₂.exists_text
    rcases htest _ _ _ _ _ h₁ with ⟨mid', o₁', rfl, hrun₁⟩ | hawaits
    · rcases hyes hrun₁ _ _ _ _ _ h₂ with ⟨mid₂, o₂', rfl, hrun₂⟩ | hawaits
      · exact .inl ⟨mid₂, _, rfl, .ifTrue hrun₁ hrun₂⟩
      · exact .inr (.yes h₁ hrun₁ hawaits)
    · exact .inr hawaits.test
  · obtain ⟨mid, rfl⟩ := h₂.exists_text
    rcases htest _ _ _ _ _ h₁ with ⟨mid', o₁', rfl, hrun₁⟩ | hawaits
    · rcases hno hrun₁ _ _ _ _ _ h₂ with ⟨mid₂, o₂', rfl, hrun₂⟩ | hawaits
      · exact .inl ⟨mid₂, _, rfl, .ifFalse hrun₁ hrun₂⟩
      · exact .inr (.no h₁ hrun₁ hawaits)
    · exact .inr hawaits.test

theorem many {body : Phrase} (hbody : ∀ pre, Foresees n body pre) :
    Foresees n (.many body) pre := by
  intro k post o b rest h
  obtain rfl := h.taken_many
  have hmany := h.many_induction
    (motive := fun s _ s' => ∀ pre rest, s = .text (pre ++ k :: post) → s' = .text rest →
      (∃ mid o', rest = mid ++ k :: post ∧ Runs n (.many body) (.text pre) o' false (.text mid)) ∨
        Awaits n (.many body) pre k post) ?_ ?_
  · exact hmany pre rest rfl rfl
  · rintro _ _ _ hstop pre rest rfl rfl
    rcases hbody _ _ _ _ _ _ hstop with ⟨mid, o', rfl, hrun⟩ | hawaits
    · exact .inl ⟨mid, _, rfl, .manyStop hrun⟩
    · exact .inr hawaits.turn
  · rintro _ _ _ _ _ hturn hrest hmore pre rest rfl rfl
    obtain ⟨mid, rfl⟩ := hrest.exists_text
    rcases hbody _ _ _ _ _ _ hturn with ⟨mid, o', rfl, hrun⟩ | hawaits
    · rcases hmore mid rest rfl rfl with ⟨mid₂, o₂, rfl, hrun₂⟩ | hawaits
      · exact .inl ⟨mid₂, _, rfl, .manyMore hrun hrun₂⟩
      · exact .inr (.more hturn hrun hawaits)
    · exact .inr hawaits.turn

theorem rule {name : Rule} {body : Phrase} (hbody : Foresees n body pre) :
    Foresees n (.rule name body) pre := by
  intro k post o b rest h
  cases h with
  | idle hh => exact hh.elim
  | rule h =>
      rcases hbody _ _ _ _ _ h with ⟨mid, o', rfl, hrun⟩ | hawaits
      · exact .inl ⟨mid, _, rfl, .rule hrun⟩
      · exact .inr hawaits.rule

theorem node {shape : Shape} {body : Phrase} (hbody : Foresees n body pre) :
    Foresees n (.node shape body) pre := by
  intro k post o b rest h
  cases h with
  | idle hh => exact hh.elim
  | node h =>
      rcases hbody _ _ _ _ _ h with ⟨mid, o', rfl, hrun⟩ | hawaits
      · exact .inl ⟨mid, _, rfl, .node hrun⟩
      · exact .inr hawaits.node

theorem nest {again : Nest} (hbody : Foresees n (Grammar.body again) pre) :
    Foresees (n + 1) (.nest again) pre := by
  intro k post o b rest h
  cases h with
  | idle hh => exact hh.elim
  | nest h =>
      rcases hbody _ _ _ _ _ h with ⟨mid, o', rfl, hrun⟩ | hawaits
      · exact .inl ⟨mid, _, rfl, .nest hrun⟩
      · exact .inr hawaits.nest

theorem nest_zero {again : Nest} : Foresees 0 (.nest again) pre := by
  intro k post o b rest h
  cases h with
  | idle hh => exact hh.elim

end Foresees

theorem prefix_append_cons {kinds pre post : List Kind} {k : Kind}
    (h : kinds <+: pre ++ k :: post) :
    (∃ tail, pre = kinds ++ tail) ∨ ∃ js, pre ++ k :: js = kinds ∧ js <+: post := by
  obtain ⟨rest, h⟩ := h
  rcases List.append_eq_append_iff.1 h with ⟨tail, hpre, -⟩ | ⟨tail, hkinds, hpost⟩
  · exact .inl ⟨tail, hpre⟩
  · cases tail with
    | nil => exact .inl ⟨[], by simpa using hkinds.symm⟩
    | cons j js =>
        obtain ⟨rfl, rfl⟩ := List.cons.inj hpost
        exact .inr ⟨js, hkinds.symm, List.prefix_append _ _⟩

/-- Inside a run of kinds that is read as a whole, the other choice meets what comes next. -/
def Forks (n : Nat) (kinds : List Kind) (no : Phrase) : Prop :=
  kinds ≠ [] ∧ ∀ pre k js post, pre ++ k :: js = kinds → js <+: post →
    Meets n no pre k (SeenPast (Spans n (.accept (.run kinds)) pre k post) pre k)
      (NamesAll (Spans n (.accept (.run kinds)) pre k post) k)

theorem spans_run (n : Nat) {pre js post kinds : List Kind} {k : Kind}
    (hkinds : pre ++ k :: js = kinds) (hpost : js <+: post) :
    Spans n (.accept (.run kinds)) pre k post pre.length (.run kinds) := by
  have hprefix : kinds <+: pre ++ k :: post :=
    hkinds ▸ (List.prefix_append_right_inj pre).2 (List.cons_prefix_cons.2 ⟨rfl, hpost⟩)
  exact ⟨pre ++ k :: post, .accept (by simp) hprefix, by simp⟩

theorem Runs.run_read {n : Nat} {kinds tail : List Kind} (hne : kinds ≠ []) :
    Runs n (.accept (.run kinds)) (.text (kinds ++ tail)) [] true (.text tail) := by
  have hdrop : (kinds ++ tail).drop (Guard.run kinds).width = tail := List.drop_left
  have hpre : (Guard.run kinds).kinds <+: kinds ++ tail := List.prefix_append _ _
  have hrun : Runs n _ _ [] true _ := .accept (by simp [hne]) hpre
  rwa [hdrop] at hrun

theorem Foresees.run {n : Nat} {pre kinds : List Kind} {yes no : Phrase} (hfork : Forks n kinds no)
    (hyes : ∀ pre, Foresees n yes pre) (hno : Foresees n no pre) :
    Foresees n (.ifElse (.accept (.run kinds)) yes no) pre := by
  intro k post o b rest h
  obtain ⟨hne, hmeets⟩ := hfork
  rcases h.ifElse_inv with ⟨o₁, s₁, o₂, b₂, h₁, h₂, -, rfl⟩ | ⟨o₁, s₁, o₂, h₁, h₂, -⟩
  · obtain ⟨mid, rfl⟩ := h₂.exists_text
    rcases h₁.accept_inv with ⟨-, hkinds, rfl⟩ | ⟨hb, -⟩
    · change kinds <+: _ at hkinds
      rcases prefix_append_cons hkinds with ⟨tail, rfl⟩ | ⟨js, hjs, hpost⟩
      · have hdrop : (kinds ++ (tail ++ k :: post)).drop (Guard.run kinds).width =
            tail ++ k :: post :=
          List.drop_left
        rw [List.append_assoc, hdrop] at h₂
        rcases hyes _ _ _ _ _ _ h₂ with ⟨mid₂, o₂', rfl, hrun₂⟩ | hawaits
        · exact .inl ⟨mid₂, _, rfl, .ifTrue (.run_read hne) hrun₂⟩
        · have hfull : Runs n (.accept (.run kinds)) (.text (kinds ++ tail ++ k :: post)) [] true
              (.text (tail ++ k :: post)) := by
            rw [List.append_assoc]
            exact .run_read hne
          exact .inr (.yes hfull (.run_read hne) hawaits)
      · have hnot : ¬ (Guard.run kinds).kinds <+: pre := by
          intro hpre
          have hle : kinds.length ≤ pre.length := hpre.length_le
          simp only [← hjs, List.length_append, List.length_cons] at hle
          omega
        obtain ⟨o, hrefused⟩ := Runs.exists_refused n (.run kinds) hnot
        have hmet : Meets n (.ifElse (.accept (.run kinds)) yes no) pre k _ _ :=
          .no hrefused (hmeets pre k js post hjs hpost)
        exact .inr (.of_meets hmet List.suffix_rfl fun _ _ => .test)
    · cases hb
  · obtain ⟨mid, rfl⟩ := h₂.exists_text
    rcases h₁.accept_inv with ⟨hb, -⟩ | ⟨-, hkinds, rfl⟩
    · cases hb
    · have hnot : ¬ (Guard.run kinds).kinds <+: pre := fun hpre =>
        hkinds.elim (by simp) fun hkinds => hkinds (hpre.trans (List.prefix_append _ _))
      obtain ⟨o, hrefused⟩ := Runs.exists_refused n (.run kinds) hnot
      rcases hno _ _ _ _ _ h₂ with ⟨mid₂, o₂', rfl, hrun₂⟩ | hawaits
      · exact .inl ⟨mid₂, _, rfl, .ifFalse hrefused hrun₂⟩
      · exact .inr (.no h₁ hrefused hawaits)

namespace Phrase

def plain : Phrase → Bool
  | .accept guard => guard.offer?.isSome
  | .seq first second => first.plain && second.plain
  | .ifElse test yes no => test.plain && yes.plain && no.plain
  | .many body | .rule _ body | .node _ body => body.plain
  | _ => true

end Phrase

theorem Foresees.of_plain {n : Nat} (hnest : ∀ again pre, Foresees n (.nest again) pre)
    {phrase : Phrase} (h : phrase.plain = true) (pre : List Kind) : Foresees n phrase pre := by
  induction phrase generalizing pre with
  | nothing =>
      intro k post o b rest hclean
      cases hclean with
      | idle hh => exact hh.elim
      | nothing => exact .inl ⟨pre, _, rfl, .nothing⟩
  | note role =>
      intro k post o b rest hclean
      cases hclean with
      | idle hh => exact hh.elim
      | note => exact .inl ⟨pre, _, rfl, .note⟩
  | fail =>
      intro k post o b rest hclean
      generalize hks : pre ++ k :: post = ks at hclean
      cases hclean with
      | idle hh => exact hh.elim
  | stray =>
      intro k post o b rest hclean
      generalize hks : pre ++ k :: post = ks at hclean
      cases hclean with
      | idle hh => exact hh.elim
      | strayAtEnd => simp at hks
  | accept guard => exact accept h
  | need kind => exact need
  | seq first second ih₁ ih₂ =>
      simp only [Phrase.plain, Bool.and_eq_true] at h
      exact seq (ih₁ h.1 pre) (ih₂ h.2)
  | ifElse test yes no iht ihy ihn =>
      simp only [Phrase.plain, Bool.and_eq_true] at h
      exact ifElse (iht h.1.1 pre) (fun _ => ihy h.1.2 _) fun _ => ihn h.2 _
  | many body ih => exact many (ih h)
  | rule name body ih => exact rule (ih h pre)
  | node shape body ih => exact node (ih h pre)
  | nest again => exact hnest again pre

section Expressions

variable {n : Nat} {pre : List Kind} {k : Kind} {seen deep : Prop}

theorem Runs.eat_refused (n : Nat) {kind : Kind} {ks : List Kind} (h : ks.head? ≠ some kind) :
    ∃ o, Runs n (Phrase.eat kind) (.text ks) o false (.text ks) := by
  refine exists_refused n (.token kind []) ?_
  rintro ⟨tail, rfl⟩
  exact h rfl

theorem Meets.expression (h : Meets n Grammar.primary pre k seen deep)
    (hpre : ∀ k ∈ [Kind.plus, .minus, .keyword .NOT], pre.head? ≠ some k) :
    Meets (n + 1) Grammar.expression pre k seen deep := by
  obtain ⟨o₁, hplus⟩ := Runs.eat_refused n (hpre .plus (by simp))
  obtain ⟨o₂, hminus⟩ := Runs.eat_refused n (hpre .minus (by simp))
  obtain ⟨o₃, hnot⟩ := Runs.eat_refused n (hpre (.keyword .NOT) (by simp))
  have hsigns : Runs n (Phrase.anyOf [.plus, .minus]) (.text pre) _ false (.text pre) :=
    .ifFalse hplus (.ifFalse hminus .nothing)
  have hunary : Meets n Grammar.unary pre k seen deep := .second (.manyStop hsigns) h
  have hpredicate : Meets n Grammar.predicate pre k seen deep := hunary.first.first.first
  have hnegation : Meets n Grammar.negation pre k seen deep := .second (.manyStop hnot) hpredicate
  exact .nest hnegation.first.first

theorem Meets.primary (h : Meets n Grammar.fullColumnName pre k seen deep)
    (hpre : ¬ [.identifier, .openParen] <+: pre) : Meets n Grammar.primary pre k seen deep := by
  obtain ⟨o, hrefused⟩ := Runs.exists_refused n (.run [.identifier, .openParen]) hpre
  exact .no hrefused h.test

theorem Meets.name : Meets n Grammar.fullColumnName [] .identifier seen deep :=
  .rule (.test (.offered .offer rfl (by simp [Guard.offer?])))

theorem Runs.fullColumnName_of_name :
    Runs n Grammar.fullColumnName (.text [.identifier]) [(.dot, [])] true (.text []) :=
  .rule (.ifTrue .eaten (.manyStop (.ifFalse .offer .nothing)))

theorem Runs.fullColumnName_of_dot :
    Runs n Grammar.fullColumnName (.text [.identifier, .dot]) [(.identifier, [])] true .caret :=
  .rule (.ifTrue .eaten (.manyMore (.ifTrue .eaten .needAtCaret) (.idle trivial)))

theorem forks_call {no : Phrase} :
    Forks n [.identifier, .openParen] (.ifElse Grammar.fullColumnName .nothing no) := by
  refine ⟨by simp, fun pre k js post hsplit hpost => ?_⟩
  obtain ⟨rfl, rfl, rfl⟩ | ⟨rfl, rfl, rfl⟩ :
      (pre = [] ∧ k = .identifier ∧ js = [.openParen]) ∨
        (pre = [.identifier] ∧ k = .openParen ∧ js = []) := by
    simpa [List.append_eq_cons_iff, List.cons_eq_append_iff, and_or_left, exists_or] using hsplit
  · exact .test .name
  · exact ⟨_, _, _, .ifTrue .fullColumnName_of_name .nothing, rfl,
      .inr (.inl (.inl ⟨rfl, spans_run n rfl hpost⟩))⟩

theorem forks_all :
    Forks n [.identifier, .dot, .star] (.seq Grammar.expression Grammar.columnAlias) := by
  refine ⟨by simp, fun pre k js post hsplit hpost => ?_⟩
  have hsplits : (pre = [] ∧ k = .identifier ∧ js = [.dot, .star]) ∨
      (pre = [.identifier] ∧ k = .dot ∧ js = [.star]) ∨
        (pre = [.identifier, .dot] ∧ k = .star ∧ js = []) := by
    simpa [List.append_eq_cons_iff, List.cons_eq_append_iff, and_or_left, exists_or] using hsplit
  have hspans := spans_run n hsplit hpost
  cases n with
  | zero =>
      have hrun : Runs 0 (.seq Grammar.expression Grammar.columnAlias) (.text pre) _ _ .depth :=
        .seq .tooDeep (.idle trivial)
      refine ⟨_, _, _, hrun, trivial, .inr ?_⟩
      rcases hsplits with ⟨rfl, rfl, rfl⟩ | ⟨rfl, rfl, rfl⟩ | ⟨rfl, rfl, rfl⟩
      · exact .inr ⟨rfl, .inl ⟨rfl, hspans⟩⟩
      · exact .inr ⟨rfl, .inr ⟨rfl, hspans⟩⟩
      · exact .inl (.inr (.inl ⟨rfl, hspans⟩))
  | succ n =>
      refine .first ?_
      rcases hsplits with ⟨rfl, rfl, rfl⟩ | ⟨rfl, rfl, rfl⟩ | ⟨rfl, rfl, rfl⟩
      · exact .expression (.primary .name (by decide)) (by decide)
      · exact .expression (.primary (.offered .fullColumnName_of_name rfl (by simp)) (by decide))
          (by decide)
      · exact .expression (.primary ⟨_, _, _, .fullColumnName_of_dot, trivial,
          .inr (.inl (.inr (.inl ⟨rfl, hspans⟩)))⟩ (by decide)) (by decide)

end Expressions

section Productions

variable {n : Nat} (hnest : ∀ again pre, Foresees n (.nest again) pre)
include hnest

theorem Foresees.separated {kinds : List Kind} {item : Phrase}
    (hkinds : (Phrase.anyOf kinds).plain = true) (hitem : ∀ pre, Foresees n item pre)
    (pre : List Kind) : Foresees n (.separated kinds item) pre :=
  .seq (hitem pre) fun _ => .many fun _ =>
    .ifElse (.of_plain hnest hkinds _) (fun _ => hitem _) fun _ => .of_plain hnest rfl _

theorem foresees_primary (pre : List Kind) : Foresees n Grammar.primary pre :=
  .run forks_call (.of_plain hnest rfl) (.of_plain hnest rfl pre)

theorem foresees_additive (pre : List Kind) : Foresees n Grammar.additive pre :=
  .separated hnest rfl (.separated hnest rfl fun pre =>
    .seq (.of_plain hnest rfl pre) (foresees_primary hnest)) pre

theorem foresees_setTest {otherwise : Phrase} (h : otherwise.plain = true) (pre : List Kind) :
    Foresees n (Grammar.setTest otherwise) pre :=
  .ifElse (.of_plain hnest rfl pre) (fun _ => .of_plain hnest rfl _) fun _ =>
    .ifElse (.of_plain hnest rfl _) (fun _ => foresees_additive hnest _) fun _ =>
      .ifElse (.of_plain hnest rfl _)
        (fun _ => .seq (foresees_additive hnest _) fun _ =>
          .seq (.of_plain hnest rfl _) (foresees_additive hnest))
        fun _ => .of_plain hnest h _

theorem foresees_predicate (pre : List Kind) : Foresees n Grammar.predicate pre :=
  .seq (foresees_additive hnest pre) fun _ =>
    .ifElse (.of_plain hnest rfl _) (fun _ => foresees_additive hnest _) fun _ =>
      .ifElse (.of_plain hnest rfl _) (fun _ => .of_plain hnest rfl _) fun _ =>
        .ifElse (.of_plain hnest rfl _) (fun _ => foresees_setTest hnest rfl _)
          fun _ => foresees_setTest hnest rfl _

theorem foresees_disjunction (pre : List Kind) : Foresees n Grammar.disjunction pre :=
  .separated hnest rfl (.separated hnest rfl fun _ =>
    .seq (.of_plain hnest rfl _) (foresees_predicate hnest)) pre

theorem foresees_selectList (pre : List Kind) : Foresees n Grammar.selectList pre :=
  .rule (.separated hnest rfl (fun _ => .rule
    (.ifElse (.of_plain hnest rfl _) (fun _ => .of_plain hnest rfl _) fun _ =>
      .run forks_all (.of_plain hnest rfl) (.of_plain hnest rfl _))) pre)

theorem foresees_querySpecification (pre : List Kind) :
    Foresees n Grammar.querySpecification pre :=
  .rule (.ifElse (.of_plain hnest rfl _)
    (fun _ => .seq (.of_plain hnest rfl _) fun _ =>
      .seq (.ifElse (.of_plain hnest rfl _) (fun _ => foresees_primary hnest _)
          fun _ => .of_plain hnest rfl _) fun _ =>
        .seq (foresees_selectList hnest _) (.of_plain hnest rfl))
    fun _ => .of_plain hnest rfl _)

theorem foresees_selectStatement (pre : List Kind) : Foresees n Grammar.selectStatement pre :=
  .rule (.seq (.of_plain hnest rfl _) fun _ =>
    .seq (.rule (.seq (foresees_querySpecification hnest _) fun _ => .many fun _ =>
      .ifElse (.of_plain hnest rfl _) (fun _ => foresees_querySpecification hnest _)
        fun _ => .of_plain hnest rfl _)) (.of_plain hnest rfl))

theorem foresees_body (again : Nest) (pre : List Kind) : Foresees n (Grammar.body again) pre := by
  cases again with
  | expression => exact foresees_disjunction hnest pre
  | subquery => exact .node (foresees_selectStatement hnest pre)
  | commonTable =>
      exact .node (.seq (.of_plain hnest rfl _) fun _ => .seq (.of_plain hnest rfl _) fun _ =>
        .seq (.of_plain hnest rfl _) fun _ => .ifElse (.of_plain hnest rfl _)
          (fun _ => .seq (foresees_selectStatement hnest _) (.of_plain hnest rfl))
          fun _ => .of_plain hnest rfl _)

end Productions

theorem foresees_nest (n : Nat) (again : Nest) (pre : List Kind) :
    Foresees n (.nest again) pre := by
  induction n generalizing again pre with
  | zero => exact .nest_zero
  | succ n ih => exact .nest (foresees_body ih again pre)

section Scripts

variable {n : Nat} {pre post : List Kind} {k : Kind}

theorem Runs.of_sights {kinds ks rest : List Kind} {o : List Offer} {b : Bool}
    (h : Runs n (Phrase.sights kinds) (.text ks) o b (.text rest)) :
    rest = ks ∧ (b = true ↔ ∃ k ∈ kinds, [.openParen, k] <+: ks) := by
  induction kinds generalizing o with
  | nil =>
      cases h with
      | idle hh => exact hh.elim
      | nothing => simp
  | cons kind kinds ih =>
      rcases h.ifElse_inv with ⟨_, _, _, _, htest, hyes, -, rfl⟩ | ⟨_, _, _, htest, hno, -⟩
      · obtain ⟨mid, rfl⟩ := hyes.exists_text
        rcases htest.accept_inv with ⟨-, hpre, rfl⟩ | ⟨hb, -⟩
        · cases hyes with
          | idle hh => exact hh.elim
          | nothing => exact ⟨rfl, by simpa using .inl hpre⟩
        · cases hb
      · obtain ⟨mid, rfl⟩ := hno.exists_text
        rcases htest.accept_inv with ⟨hb, -⟩ | ⟨-, hpre, rfl⟩
        · cases hb
        · have hkind : ¬ [.openParen, kind] <+: mid := by
            rcases hpre with rfl | hpre
            · simp
            · exact hpre
          simpa [hkind] using ih hno

theorem decides_sights {kinds ks : List Kind} (hk : k ∈ kinds) (h : [.openParen, k] <+: ks) :
    Decides n (Phrase.sights kinds) ks (.sight [.openParen, k]) ks := by
  have hne : ks ≠ [] := by
    rintro rfl
    simp at h
  induction kinds with
  | nil => cases hk
  | cons kind kinds ih =>
      by_cases hkind : kind = k
      · subst hkind
        exact .test (.accept hne h)
      · have hnot : ¬ [.openParen, kind] <+: ks := fun hpre =>
          hkind (by simpa using (List.prefix_of_prefix_length_le hpre h (by simp)).eq_of_length rfl)
        exact .no (.refuse hne hnot) (ih ((List.mem_cons.1 hk).resolve_left (Ne.symm hkind)))

theorem insertColumns_foreseen {o : List Offer} {b : Bool} {rest : List Kind}
    (h : Runs n Grammar.insertColumns (.text (pre ++ k :: post)) o b (.text rest)) :
    (∃ mid o', rest = mid ++ k :: post ∧
      Runs n Grammar.insertColumns (.text pre) o' b (.text mid)) ∨
      Awaits n Grammar.insertColumns pre k post ∨ (pre = [.openParen] ∧ k ∈ Kind.queryStarts) := by
  rcases h.ifElse_inv with ⟨_, _, _, _, htest, hyes, -, rfl⟩ | ⟨_, _, _, htest, hno, -⟩
  · obtain ⟨mid, rfl⟩ := hyes.exists_text
    obtain ⟨rfl, hseen⟩ := htest.of_sights
    obtain ⟨j, hj, hpre⟩ := hseen.1 rfl
    rcases prefix_append_cons hpre with ⟨tail, rfl⟩ | ⟨js, hsplit, -⟩
    · obtain ⟨o, hsights⟩ := (Traces.sights_seen n hj ⟨tail, rfl⟩).runs
      cases hyes with
      | idle hh => exact hh.elim
      | nothing => exact .inl ⟨_, _, rfl, .ifTrue hsights .nothing⟩
    · obtain ⟨rfl, rfl, rfl⟩ | ⟨rfl, rfl, rfl⟩ :
          (pre = [] ∧ k = .openParen ∧ js = [j]) ∨ (pre = [.openParen] ∧ k = j ∧ js = []) := by
        simpa [List.append_eq_cons_iff, List.cons_eq_append_iff, and_or_left, exists_or]
          using hsplit
      · have hnot : ∀ j ∈ Kind.queryStarts, ¬ [.openParen, j] <+: [] := by simp
        obtain ⟨o, hsights⟩ := (Traces.sights_refused n hnot).runs
        exact .inr (.inl (Meets.no hsights (.test (.offered .offer rfl (by simp [Guard.offer?])))))
      · exact .inr (.inr ⟨rfl, hj⟩)
  · obtain ⟨mid, rfl⟩ := hno.exists_text
    obtain ⟨rfl, hseen⟩ := htest.of_sights
    have hnot : ∀ j ∈ Kind.queryStarts, ¬ [.openParen, j] <+: pre := fun j hj hpre => by
      simpa using hseen.2 ⟨j, hj, hpre.trans (List.prefix_append _ _)⟩
    obtain ⟨o, hsights⟩ := (Traces.sights_refused n hnot).runs
    rcases Foresees.of_plain (foresees_nest n) rfl pre _ _ _ _ _ hno
      with ⟨mid, o', rfl, hrun⟩ | hawaits
    · exact .inl ⟨mid, _, rfl, .ifFalse hsights hrun⟩
    · exact .inr (.inl (.no htest hsights hawaits))

theorem behindTarget {o₁ o₂ o₃ : List Offer} {b₁ b₂ b₃ : Bool} {pre₁ pre₂ : List Kind}
    (h₁ : Runs n (Phrase.needWord .INSERT) (.text pre) o₁ b₁ (.text pre₁))
    (h₂ : Runs n (Phrase.word .INTO) (.text pre₁) o₂ b₂ (.text pre₂))
    (h₃ : Runs n Grammar.tableReference (.text pre₂) o₃ b₃ (.text [.openParen]))
    (hk : k ∈ Kind.queryStarts) : BehindTarget pre k := by
  obtain rfl : pre = .keyword .INSERT :: pre₁ := by
    cases h₁ with
    | idle hh => exact hh.elim
    | need => rfl
  obtain ⟨into, hinto, rfl⟩ : ∃ into ∈ [[], [Kind.keyword .INTO]], into ++ pre₂ = pre₁ := by
    rcases h₂.accept_inv with ⟨-, ⟨tail, rfl⟩, rfl⟩ | ⟨-, -, rfl⟩
    · exact ⟨[.keyword .INTO], by simp, rfl⟩
    · exact ⟨[], by simp, rfl⟩
  obtain ⟨name, hname, rfl⟩ := h₃.text (Nat.le_refl n)
  rw [Grammar.text_tableReference] at hname
  exact ⟨hk, into, hinto, name, hname, by simp⟩

theorem foresees_insertStatement (pre : List Kind) : Foresees n Grammar.insertStatement pre := by
  refine .rule fun k post o b rest h => ?_
  have hplain {phrase : Phrase} (hphrase : phrase.plain = true) (pre : List Kind) :
      Foresees n phrase pre := .of_plain (foresees_nest n) hphrase pre
  obtain ⟨_, _, _, _, h₁, h, -⟩ := h.seq_inv
  obtain ⟨_, rfl⟩ := h.exists_text
  rcases hplain rfl _ _ _ _ _ _ h₁ with ⟨pre₁, _, rfl, hrun₁⟩ | hawaits
  swap
  · exact .inr hawaits.first
  obtain ⟨_, _, _, _, h₂, h, -⟩ := h.seq_inv
  obtain ⟨_, rfl⟩ := h.exists_text
  rcases hplain rfl _ _ _ _ _ _ h₂ with ⟨pre₂, _, rfl, hrun₂⟩ | hawaits
  swap
  · exact .inr (.second h₁ hrun₁ hawaits.first)
  obtain ⟨_, _, _, _, h₃, h, -⟩ := h.seq_inv
  obtain ⟨_, rfl⟩ := h.exists_text
  rcases hplain rfl _ _ _ _ _ _ h₃ with ⟨pre₃, _, rfl, hrun₃⟩ | hawaits
  swap
  · exact .inr (.second h₁ hrun₁ (.second h₂ hrun₂ hawaits.first))
  obtain ⟨_, _, _, _, h₄, h₅, -⟩ := h.seq_inv
  obtain ⟨_, rfl⟩ := h₅.exists_text
  rcases insertColumns_foreseen h₄ with ⟨pre₄, _, rfl, hrun₄⟩ | hawaits | ⟨rfl, hk⟩
  · rcases hplain rfl _ _ _ _ _ _ h₅ with ⟨mid, _, rfl, hrun₅⟩ | hawaits
    · exact .inl ⟨mid, _, rfl, .seq hrun₁ (.seq hrun₂ (.seq hrun₃ (.seq hrun₄ hrun₅)))⟩
    · exact .inr (.second h₁ hrun₁ (.second h₂ hrun₂ (.second h₃ hrun₃ (.second h₄ hrun₄ hawaits))))
  · exact .inr (.second h₁ hrun₁ (.second h₂ hrun₂ (.second h₃ hrun₃ hawaits.first)))
  · have hnot : ∀ j ∈ Kind.queryStarts, ¬ [.openParen, j] <+: [Kind.openParen] := by decide
    obtain ⟨_, hsights⟩ := (Traces.sights_refused n hnot).runs
    obtain ⟨_, s₄, hcolumns, hs₄⟩ := Runs.exists_of_spent n
      (.seq Grammar.columnNameList (.need .closeParen)) (s := .text []) rfl
    obtain ⟨_, s₅, hsource, hs₅⟩ := Runs.exists_of_spent n Grammar.insertSource hs₄
    have hdecides : Decides n Grammar.insertColumns (.openParen :: k :: post)
        (.sight [.openParen, k]) (.openParen :: k :: post) :=
      .test (decides_sights hk (List.prefix_append [.openParen, k] post))
    exact .inr ⟨_, _, _, .seq hrun₁ (.seq hrun₂ (.seq hrun₃
      (.seq (.ifFalse hsights (.ifTrue .eaten hcolumns)) hsource))), hs₅,
      .inr (.inl (.inr (.inr ⟨behindTarget hrun₁ hrun₂ hrun₃ hk,
        _, .second h₁ (.second h₂ (.second h₃ (.first hdecides))), by simp [Nat.add_comm]⟩)))⟩

theorem Foresees.starts {word : Keyword} {yes no : Phrase} (hpre : pre ≠ [])
    (hyes : Foresees n yes pre) (hno : Foresees n no pre) :
    Foresees n (.ifElse (Grammar.starts? word) yes no) pre := by
  refine .ifElse (.accept_of_ne (by simp [Guard.kinds]) hpre) (fun hrun => ?_) fun hrun => ?_
  · rcases hrun.accept_inv with ⟨-, -, rfl⟩ | ⟨hb, -⟩
    · exact hyes
    · cases hb
  · rcases hrun.accept_inv with ⟨hb, -⟩ | ⟨-, -, rfl⟩
    · cases hb
    · exact hno

theorem foresees_statement (hpre : pre ≠ []) : Foresees n Grammar.statement pre :=
  .rule (.starts hpre (.node (foresees_insertStatement pre))
    (.starts hpre (.node (.of_plain (foresees_nest n) rfl pre))
      (.starts hpre (.node (.of_plain (foresees_nest n) rfl pre))
        (.node (foresees_selectStatement (foresees_nest n) pre)))))

theorem foresees_scriptItem (pre : List Kind) : Foresees n Grammar.scriptItem pre := by
  have hplain {phrase : Phrase} (hphrase : phrase.plain = true) (pre : List Kind) :
      Foresees n phrase pre := .of_plain (foresees_nest n) hphrase pre
  refine .ifElse (hplain rfl pre) (fun _ => hplain rfl _) fun _ => ?_
  refine .ifElse (hplain rfl _) (fun hrun => foresees_statement ?_) fun _ => hplain rfl _
  obtain ⟨w, hw, rfl⟩ := hrun.words fun again _ _ _ => Runs.nest_words (Nat.le_refl n) again
  obtain rfl := Phrase.words_of_peeks Traces.peeks_statementStarts hw
  rintro rfl
  exact absurd (hrun.of_spent rfl).1 (by simp)

theorem script_awaits {o : List Offer} {b : Bool}
    (h : Runs n Grammar.script (.text (pre ++ k :: post)) o b (.text [])) :
    Awaits n Grammar.script pre k post := by
  rcases Foresees.rule (.many foresees_scriptItem) _ _ _ _ _ h with ⟨mid, _, hmid, _⟩ | hawaits
  · simp at hmid
  · exact hawaits

end Scripts

end SqlAtlas
