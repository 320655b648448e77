import SqlAtlas.Proofs.Trace

namespace SqlAtlas

def leaves : List Kind → List Kind → Option (List Kind)
  | _, [] => some []
  | [], kind :: kinds => some (kind :: kinds)
  | read :: word, kind :: kinds => if read = kind then leaves word kinds else none

@[simp] theorem leaves_nil (ks : List Kind) : leaves [] ks = some ks := by
  cases ks <;> rfl

@[simp] theorem leaves_nil_right (w : List Kind) : leaves w [] = some [] := by
  cases w <;> rfl

theorem leaves_append (u v ks : List Kind) :
    leaves (u ++ v) ks = (leaves u ks).bind (leaves v) := by
  induction u generalizing ks with
  | nil => simp
  | cons k u ih =>
      cases ks with
      | nil => simp
      | cons j ks =>
          simp only [List.cons_append, leaves]
          split
          · exact ih ks
          · rfl

theorem leaves_of_prefix {w v ks : List Kind} (h : ks <+: w ++ v) :
    ∃ left, leaves w ks = some left ∧ left <+: v := by
  induction w generalizing ks with
  | nil => exact ⟨ks, by simp, h⟩
  | cons k w ih =>
      cases ks with
      | nil => exact ⟨[], rfl, List.nil_prefix⟩
      | cons j ks =>
          obtain ⟨rfl, htail⟩ := List.cons_prefix_cons.1 h
          obtain ⟨left, hleft, hv⟩ := ih htail
          exact ⟨left, by simpa [leaves] using hleft, hv⟩

theorem eq_append_of_leaves {w ks left : List Kind} (h : leaves w ks = some left)
    (hne : left ≠ []) :
    w ++ left = ks := by
  induction w generalizing ks with
  | nil => simpa using h.symm
  | cons k w ih =>
      cases ks with
      | nil => simp only [leaves_nil_right, Option.some.injEq] at h; exact absurd h.symm hne
      | cons j ks =>
          simp only [leaves] at h
          split at h
          · next hkj => rw [List.cons_append, ih h, hkj]
          · cases h

theorem suffix_of_leaves {w ks left : List Kind} (h : leaves w ks = some left) : left <:+ ks := by
  by_cases hne : left = []
  · subst hne
    exact List.nil_suffix
  · exact ⟨w, eq_append_of_leaves h hne⟩

/-- Every look at the text goes on in a way that `next` allows; the end is seen as `eof`. -/
def Follows (next : List Kind → Bool) (rest : List Kind) : Prop :=
  ∀ ks, ks ≠ [] → ks <+: rest ++ [.eof] → next ks = true

theorem Follows.head {next : List Kind → Bool} {rest : List Kind} (h : Follows next rest) :
    next [rest.headD .eof] = true :=
  h _ (by simp) (by cases rest <;> simp)

namespace Phrase

def peeks? : Phrase → Option (List Kind)
  | .nothing => some []
  | .ifElse (.accept (.before kind)) .nothing no => no.peeks?.map (kind :: ·)
  | _ => none

def token? : Phrase → Option Kind
  | .accept (.token kind _) => some kind
  | _ => none

def run? : Phrase → Option (List Kind)
  | .accept (.run kinds) => some kinds
  | _ => none

theorem eq_of_token? {phrase : Phrase} {kind : Kind} (h : phrase.token? = some kind) :
    ∃ follow, phrase = .accept (.token kind follow) := by
  unfold token? at h
  split at h
  · next follow => cases h; exact ⟨follow, rfl⟩
  · cases h

theorem eq_of_run? {phrase : Phrase} {kinds : List Kind} (h : phrase.run? = some kinds) :
    phrase = .accept (.run kinds) := by
  unfold run? at h
  split at h
  · cases h; rfl
  · cases h

section Residues

variable (opens : Nest → List Kind → List (List Kind))

/-- The outcomes of the phrase, each with what can then be left of the kinds to look for. -/
def residues : Phrase → List Kind → List (Bool × List Kind)
  | _, [] => [(true, []), (false, [])]
  | .nothing, ks | .note _, ks | .stray, ks => [(false, ks)]
  | .accept guard, ks =>
      (false, ks) :: (leaves (guard.kinds.take guard.width) ks).toList.map (true, ·)
  | .need kind, ks => (leaves [kind] ks).toList.map (true, ·)
  | .fail, _ => []
  | .seq first second, ks =>
      ((first.residues ks).map Prod.snd).dedup.flatMap (fun left => second.residues left) |>.dedup
  | .ifElse test yes no, ks =>
      ((test.residues ks).flatMap fun (taken, left) =>
        if taken then (yes.residues left).map fun (_, left) => (true, left)
        else if test.excludes no then [] else no.residues left).dedup
  | .many body, ks =>
      let turn := body.residues ks
      if turn.any Prod.fst then ks.tails.map (false, ·) else turn
  | .rule _ body, ks | .node _ body, ks => body.residues ks
  | .nest again, ks => (opens again ks).map (false, ·)

def leads (phrase : Phrase) (next : Bool → List Kind → Bool) (ks : List Kind) : Bool :=
  (phrase.residues opens ks).any fun (taken, left) => left.isEmpty || next taken left

variable (stops : Nest → List Kind)

/-- With these looks ahead, every word of the phrase is read to its end and with its outcome. What
the phrase itself bars is left out where `barred` says so. -/
def settles : Phrase → Bool → (Bool → List Kind → Bool) → Bool
  | .nothing, _, _ | .note _, _, _ | .need _, _, _ | .fail, _, _ => true
  | .stray, _, _ => false
  | .accept guard, _, next =>
      !guard.kinds.isEmpty && !next false guard.kinds &&
        (0 < guard.width ||
          Kind.all.all fun kind => !next true [kind] || (kind != .eof && guard.kinds == [kind]))
  | .seq first second, _, next =>
      let barred := !(second.residues opens [.eof]).any (·.2 == [.eof])
      first.settles barred (fun _ ks => second.leads opens next ks) && second.settles false next
  | .ifElse test yes no, barred, next =>
      match peeks? (.ifElse test yes no) with
      | some kinds =>
          (kinds.all fun kind => !next false [kind]) &&
            Kind.all.all fun kind => !next true [kind] || (kind != .eof && kinds.contains kind)
      | none =>
          yes.settles (barred && test.token?.isSome) (fun _ => next true) &&
            (match test.run? with
              | some kinds =>
                  !kinds.isEmpty && (no.residues opens kinds).all fun (taken, left) =>
                    !(left.isEmpty || next taken left) || (barred && left.length == 1)
              | none =>
                  test.settles false fun taken ks =>
                    if taken then yes.leads opens (fun _ => next true) ks
                    else !test.excludes no && no.leads opens next ks) &&
            (test.excludes no || no.settles false next)
  | .many body, _, next =>
      body.settles false fun taken ks =>
        if taken then (Phrase.many body).leads opens next ks else next false ks
  | .rule _ body, _, next | .node _ body, _, next => body.settles false next
  | .nest again, _, next => (stops again).all fun kind => !next false [kind]

end Residues

section Words

variable {nests : Nest → Language Kind} {opens : Nest → List Kind → List (List Kind)}

theorem mem_residues_nil (phrase : Phrase) {b : Bool} {w left : List Kind}
    (hleft : leaves w [] = some left) : (b, left) ∈ phrase.residues opens [] := by
  simp only [leaves_nil_right, Option.some.injEq] at hleft
  subst hleft
  cases phrase <;> cases b <;> simp [residues]

theorem mem_residues
    (hopens : ∀ again {w ks left}, w ∈ nests again → leaves w ks = some left →
      left ∈ opens again ks)
    (phrase : Phrase) {b : Bool} {w ks left : List Kind} (hw : w ∈ phrase.words nests b)
    (hleft : leaves w ks = some left) : (b, left) ∈ phrase.residues opens ks := by
  induction phrase generalizing b w ks left with
  | nothing | note | stray =>
      cases ks with
      | nil => exact mem_residues_nil _ hleft
      | cons k ks =>
          obtain rfl := outcome_eq false hw rfl
          obtain rfl : w = [] := hw
          simpa [residues] using hleft.symm
  | accept guard =>
      cases ks with
      | nil => exact mem_residues_nil _ hleft
      | cons k ks =>
          cases b with
          | true =>
              obtain rfl : w = guard.kinds.take guard.width := hw
              simp [residues, hleft]
          | false =>
              obtain rfl : w = [] := hw
              simp only [leaves_nil, Option.some.injEq] at hleft
              simp [residues, hleft]
  | need kind =>
      cases ks with
      | nil => exact mem_residues_nil _ hleft
      | cons k ks =>
          obtain rfl := outcome_eq true hw rfl
          obtain rfl : w = [kind] := hw
          simp [residues, hleft]
  | fail => exact absurd hw (Language.notMem_zero _)
  | seq first second ih₁ ih₂ =>
      cases ks with
      | nil => exact mem_residues_nil _ hleft
      | cons k ks =>
          obtain ⟨u, hu, v, hv, -, rfl⟩ := mem_words_seq.1 hw
          obtain ⟨b₁, hu⟩ := mem_text.1 hu
          rw [leaves_append, Option.bind_eq_some_iff] at hleft
          obtain ⟨mid, hmid, hleft⟩ := hleft
          simp only [residues, List.mem_dedup, List.mem_flatMap, List.mem_map]
          exact ⟨mid, ⟨_, ih₁ hu hmid, rfl⟩, ih₂ hv hleft⟩
  | ifElse test yes no iht ihy ihn =>
      cases ks with
      | nil => exact mem_residues_nil _ hleft
      | cons k ks =>
          simp only [residues, List.mem_dedup, List.mem_flatMap]
          rcases mem_words_ifElse.1 hw with ⟨rfl, u, hu, v, hv, rfl⟩ | ⟨hex, u, hu, v, hv, rfl⟩
          all_goals
            rw [leaves_append, Option.bind_eq_some_iff] at hleft
            obtain ⟨mid, hmid, hleft⟩ := hleft
          · obtain ⟨b₂, hv⟩ := mem_text.1 hv
            refine ⟨_, iht hu hmid, ?_⟩
            exact List.mem_map.2 ⟨_, ihy hv hleft, rfl⟩
          · refine ⟨_, iht hu hmid, ?_⟩
            simpa [hex] using ihn hv hleft
  | many body ih =>
      cases ks with
      | nil => exact mem_residues_nil _ hleft
      | cons k ks =>
          obtain rfl := outcome_eq false hw rfl
          obtain ⟨turns, hturns, v, hv, rfl⟩ := mem_words_many.1 hw
          simp only [residues]
          split
          · exact List.mem_map.2 ⟨left, (List.mem_tails _ _).2 (suffix_of_leaves hleft), rfl⟩
          · next hturn =>
              cases turns with
              | nil => exact ih hv (by simpa using hleft)
              | cons u turns =>
                  rw [List.flatten_cons, List.append_assoc, leaves_append,
                    Option.bind_eq_some_iff] at hleft
                  obtain ⟨mid, hmid, -⟩ := hleft
                  have hmem := ih (hturns u (by simp)) hmid
                  exact absurd (List.any_eq_true.2 ⟨_, hmem, rfl⟩) hturn
  | rule _ body ih | node _ body ih =>
      cases ks with
      | nil => exact mem_residues_nil _ hleft
      | cons k ks => exact ih hw hleft
  | nest again =>
      cases ks with
      | nil => exact mem_residues_nil _ hleft
      | cons k ks =>
          obtain rfl := outcome_eq false hw rfl
          exact List.mem_map.2 ⟨left, hopens again hw hleft, rfl⟩

theorem follows_leads
    (hopens : ∀ again {w ks left}, w ∈ nests again → leaves w ks = some left →
      left ∈ opens again ks)
    {phrase : Phrase} {b : Bool} {w rest : List Kind} {next : Bool → List Kind → Bool}
    (hw : w ∈ phrase.words nests b) (hnext : Follows (next b) rest) :
    Follows (phrase.leads opens next) (w ++ rest) := by
  intro ks hne hpre
  rw [List.append_assoc] at hpre
  obtain ⟨left, hleft, hrest⟩ := leaves_of_prefix hpre
  refine List.any_eq_true.2 ⟨_, mem_residues hopens phrase hw hleft, ?_⟩
  simp only [Bool.or_eq_true, List.isEmpty_iff]
  exact or_iff_not_imp_left.2 fun hleft => hnext left hleft hrest

end Words

end Phrase

namespace Phrase

variable {nests : Nest → Language Piece}

theorem pieces_of_peeks {phrase : Phrase} {kinds : List Kind} (hp : phrase.peeks? = some kinds)
    {b : Bool} {d : List Piece} (hd : d ∈ phrase.pieces nests b) : d = [] := by
  fun_induction peeks? generalizing kinds d b with
  | case1 =>
      obtain rfl := outcome_eq false hd rfl
      exact hd
  | case2 kind no ih =>
      obtain ⟨kinds, hkinds, rfl⟩ := Option.map_eq_some_iff.1 hp
      rcases mem_pieces_ifElse.1 hd with ⟨rfl, u, hu, v, hv, rfl⟩ | ⟨-, u, hu, v, hv, rfl⟩
      · obtain ⟨b₂, hv⟩ := mem_forms.1 hv
        obtain rfl : u = [] := hu
        cases b₂ with
        | true => exact absurd hv (Language.notMem_zero _)
        | false => exact hv
      · obtain rfl : u = [] := hu
        exact ih hkinds hv
  | case3 => cases hp

theorem words_of_peeks {words : Nest → Language Kind} {phrase : Phrase} {kinds : List Kind}
    (hp : phrase.peeks? = some kinds) {b : Bool} {w : List Kind} (hw : w ∈ phrase.words words b) :
    w = [] := by
  obtain ⟨d, hd, rfl⟩ := exists_pieces hw
  rw [pieces_of_peeks hp hd, kindsOf_nil]

end Phrase

namespace Traces

variable {n : Nat} {rest : List Kind}

theorem of_peeks {phrase : Phrase} {kinds : List Kind} (hp : phrase.peeks? = some kinds) (b : Bool)
    (hb : b = true ↔ ∃ k ∈ kinds, rest.head? = some k) : Traces n phrase [] b rest := by
  fun_induction Phrase.peeks? generalizing kinds with
  | case1 =>
      cases hp
      cases b with
      | true => simp at hb
      | false => exact .nothing
  | case2 kind no ih =>
      obtain ⟨kinds, hkinds, rfl⟩ := Option.map_eq_some_iff.1 hp
      by_cases hhead : rest.head? = some kind
      · obtain rfl : b = true := hb.2 ⟨kind, by simp, hhead⟩
        obtain ⟨tail, rfl⟩ := List.head?_eq_some_iff.1 hhead
        exact ifSeen (.accept (by simp [Guard.kinds]) ⟨tail, rfl⟩) .nothing
      · have hpre : ¬ [kind] <+: rest := by
          rintro ⟨tail, rfl⟩
          exact hhead rfl
        exact ifUnseen (.refuse hpre) (ih hkinds (by simpa [hhead] using hb))
  | case3 => cases hp

variable {nests : Nest → Language Piece} {opens : Nest → List Kind → List (List Kind)}
  {stops : Nest → List Kind}

theorem accept_of_pieces {guard : Guard} {barred b : Bool} {next : Bool → List Kind → Bool}
    {d : List Piece} (hs : (Phrase.accept guard).settles opens stops barred next = true)
    (hd : d ∈ (Phrase.accept guard).pieces nests b) (hnext : Follows (next b) rest) :
    Traces n (.accept guard) d b rest := by
  simp only [Phrase.settles, Bool.and_eq_true, Bool.not_eq_true', List.isEmpty_eq_false_iff,
    Bool.or_eq_true, decide_eq_true_eq, List.all_eq_true] at hs
  obtain ⟨⟨hne, hrefuse⟩, hpeek⟩ := hs
  cases b with
  | false =>
      obtain rfl : d = [] := hd
      refine .refuse fun hpre => ?_
      rw [hnext _ hne (hpre.trans (List.prefix_append _ _))] at hrefuse
      cases hrefuse
  | true =>
      obtain rfl : d = (guard.kinds.take guard.width).map .token := hd
      refine .accept hne ?_
      by_cases hwidth : 0 < guard.width
      · cases guard <;> simp [Guard.width, Guard.kinds] at hwidth ⊢
      · have hhead := (hpeek.resolve_left hwidth) _ (Kind.mem_all (rest.headD .eof))
        simp only [hnext.head, Bool.true_eq_false, false_or, bne_iff_ne, beq_iff_eq] at hhead
        cases rest with
        | nil => exact absurd rfl hhead.1
        | cons k rest => simp [Nat.eq_zero_of_not_pos hwidth, hhead.2]

theorem peeks_iff {kinds : List Kind} {b : Bool} {next : Bool → List Kind → Bool}
    (hfalse : ∀ kind ∈ kinds, next false [kind] = false)
    (htrue : ∀ kind ∈ Kind.all, next true [kind] = false ∨ kind ≠ .eof ∧ kind ∈ kinds)
    (hnext : Follows (next b) rest) : b = true ↔ ∃ k ∈ kinds, rest.head? = some k := by
  have hhead := hnext.head
  cases b with
  | true =>
      obtain ⟨heof, hmem⟩ :=
        (htrue _ (Kind.mem_all (rest.headD .eof))).resolve_left (by rw [hhead]; simp)
      cases rest with
      | nil => exact absurd rfl heof
      | cons k rest => exact ⟨fun _ => ⟨k, hmem, rfl⟩, fun _ => rfl⟩
  | false =>
      refine iff_of_false (by simp) ?_
      rintro ⟨k, hk, hrest⟩
      obtain ⟨rest, rfl⟩ := List.head?_eq_some_iff.1 hrest
      exact absurd (hfalse k hk) (by simpa using hhead)

theorem not_run_of_words {nests : Nest → Language Kind} {kinds : List Kind} {yes no : Phrase}
    {barred b : Bool} {next : Bool → List Kind → Bool} {v : List Kind}
    (hopens : ∀ again {w ks left}, w ∈ nests again → leaves w ks = some left →
      left ∈ opens again ks)
    (hs : ((no.residues opens kinds).all fun (taken, left) =>
      !(left.isEmpty || next taken left) || (barred && left.length == 1)) = true)
    (hv : v ∈ no.words nests b) (hnext : Follows (next b) rest)
    (hbar : barred = true → (Phrase.ifElse (.accept (.run kinds)) yes no).Fits v rest) :
    ¬ kinds <+: v ++ rest := by
  intro hpre
  obtain ⟨left, hleft, hrest⟩ := leaves_of_prefix hpre
  have hall := List.all_eq_true.1 hs _ (Phrase.mem_residues hopens no hv hleft)
  simp only [Bool.or_eq_true, Bool.not_eq_true', Bool.or_eq_false_iff, List.isEmpty_eq_false_iff,
    Bool.and_eq_true, beq_iff_eq, List.length_eq_one_iff] at hall
  rcases hall with ⟨hne, hstop⟩ | ⟨hbarred, last, rfl⟩
  · rw [hnext left hne (hrest.trans (List.prefix_append _ _))] at hstop
    cases hstop
  · -- one kind is left, so the word is all of the run but its last kind
    obtain ⟨tail, rfl⟩ := hrest
    have hkinds := eq_append_of_leaves hleft (by simp)
    refine hbar hbarred last rfl ?_
    simp [Phrase.bars, ← hkinds]

variable (n nests opens stops) in
def Readable (phrase : Phrase) : Prop :=
  ∀ ⦃barred b : Bool⦄ ⦃next : Bool → List Kind → Bool⦄ ⦃d : List Piece⦄ ⦃rest : List Kind⦄,
    phrase.settles opens stops barred next = true → d ∈ phrase.pieces nests b →
    Follows (next b) rest → (barred = true → phrase.Fits (kindsOf d) rest) →
    Traces n phrase d b rest

theorem fits_of_token {test yes no : Phrase} {u v : List Piece} (htoken : test.token?.isSome = true)
    (hu : u ∈ test.pieces nests true)
    (hfits : (Phrase.ifElse test yes no).Fits (kindsOf (u ++ v)) rest) :
    yes.Fits (kindsOf v) rest := by
  obtain ⟨kind, hkind⟩ := Option.isSome_iff_exists.1 htoken
  obtain ⟨follow, rfl⟩ := Phrase.eq_of_token? hkind
  obtain rfl : u = [.token kind] := hu
  intro last hlast hmem
  exact hfits last hlast (List.mem_map.2 ⟨_, hmem, rfl⟩)

section Readable

variable {test yes no first second body : Phrase}
  (hopens : ∀ again {w ks left}, w ∈ erase (nests again) → leaves w ks = some left →
    left ∈ opens again ks)
include hopens

theorem follows_pieces {phrase : Phrase} {b : Bool} {next : Bool → List Kind → Bool}
    {d : List Piece} (hd : d ∈ phrase.pieces nests b) (hnext : Follows (next b) rest) :
    Follows (phrase.leads opens next) (kindsOf d ++ rest) :=
  Phrase.follows_leads hopens (Phrase.kindsOf_mem_words hd) hnext

theorem fits_append {b : Bool} {u : List Kind} {v : List Piece} (hv : v ∈ second.pieces nests b)
    (hfits : first.Fits u (kindsOf v))
    (hreads : (!(second.residues opens [.eof]).any (·.2 == [.eof])) = true) :
    first.Fits u (kindsOf v ++ rest) := by
  cases hkinds : kindsOf v with
  | nil =>
      have hmem := Phrase.mem_residues hopens second (Phrase.kindsOf_mem_words hv)
        (show leaves (kindsOf v) [.eof] = some [.eof] by rw [hkinds]; rfl)
      rw [Bool.not_eq_true', List.any_eq_false] at hreads
      exact absurd rfl (hreads _ hmem)
  | cons k ks =>
      rw [hkinds] at hfits
      exact hfits

theorem Readable.seq (hfirst : Readable n nests opens stops first)
    (hsecond : Readable n nests opens stops second) :
    Readable n nests opens stops (.seq first second) := by
  intro barred b next d rest hs hd hnext _
  simp only [Phrase.settles, Bool.and_eq_true] at hs
  obtain ⟨u, hu, v, hv, hfits, rfl⟩ := Phrase.mem_pieces_seq.1 hd
  obtain ⟨b₁, hu⟩ := Phrase.mem_forms.1 hu
  exact .seq (hfirst hs.1 hu (follows_pieces hopens hv hnext) (fits_append hopens hv hfits))
    (hsecond hs.2 hv hnext (by simp))

theorem Readable.ifRun {kinds : List Kind} (hyes : Readable n nests opens stops yes)
    (hno : Readable n nests opens stops no) :
    Readable n nests opens stops (.ifElse (.accept (.run kinds)) yes no) := by
  intro barred b next d rest hs hd hnext hbar
  simp only [Phrase.settles, Phrase.peeks?, Phrase.run?, Bool.and_eq_true, Bool.not_eq_true',
    List.isEmpty_eq_false_iff] at hs
  obtain ⟨⟨hsyes, hne, hrun⟩, hsno⟩ := hs
  rcases Phrase.mem_pieces_ifElse.1 hd with ⟨rfl, u, hu, v, hv, rfl⟩ | ⟨hex, u, hu, v, hv, rfl⟩
  · obtain ⟨b₂, hv⟩ := Phrase.mem_forms.1 hv
    obtain rfl : u = ((Guard.run kinds).kinds.take (Guard.run kinds).width).map .token := hu
    exact .ifTrue (.accept hne (by simp [Guard.kinds, Guard.width]))
      (hyes hsyes hv hnext (by simp [Phrase.token?]))
  · obtain rfl : u = [] := hu
    refine .ifFalse (.refuse ?_) (hno (by simpa [hex] using hsno) hv hnext (by simp))
    exact not_run_of_words hopens hrun (Phrase.kindsOf_mem_words hv) hnext hbar

theorem Readable.ifElse (hpeeks : (Phrase.ifElse test yes no).peeks? = none)
    (hrun : test.run? = none) (htest : Readable n nests opens stops test)
    (hyes : Readable n nests opens stops yes) (hno : Readable n nests opens stops no) :
    Readable n nests opens stops (.ifElse test yes no) := by
  intro barred b next d rest hs hd hnext hbar
  simp only [Phrase.settles, hpeeks, hrun, Bool.and_eq_true] at hs
  obtain ⟨⟨hsyes, hstest⟩, hsno⟩ := hs
  rcases Phrase.mem_pieces_ifElse.1 hd with ⟨rfl, u, hu, v, hv, rfl⟩ | ⟨hex, u, hu, v, hv, rfl⟩
  · obtain ⟨b₂, hv⟩ := Phrase.mem_forms.1 hv
    have hahead : Follows (yes.leads opens fun _ => next true) (kindsOf v ++ rest) :=
      follows_pieces hopens hv hnext
    refine .ifTrue (htest hstest hu (by simpa using hahead) (by simp))
      (hyes hsyes hv hnext fun hbarred => ?_)
    obtain ⟨hbarred, htoken⟩ := Bool.and_eq_true_iff.1 hbarred
    exact fits_of_token htoken hu (hbar hbarred)
  · have hahead := follows_pieces hopens hv hnext
    exact .ifFalse (htest hstest hu (by simpa [hex] using hahead) (by simp))
      (hno (by simpa [hex] using hsno) hv hnext (by simp))

theorem Readable.many (hbody : Readable n nests opens stops body) :
    Readable n nests opens stops (.many body) := by
  intro barred b next d rest hs hd hnext hbar
  obtain rfl := Phrase.outcome_eq false hd rfl
  obtain ⟨turns, hturns, v, hv, rfl⟩ := Phrase.mem_pieces_many.1 hd
  clear hd hbar
  induction turns with
  | nil => exact .manyStop (hbody hs hv (by simpa using hnext) (by simp))
  | cons u turns ih =>
      have hrest : ∀ u ∈ turns, u ∈ body.pieces nests true := fun u hu => hturns u (by simp [hu])
      have hmany : turns.flatten ++ v ∈ (Phrase.many body).pieces nests false :=
        Phrase.mem_pieces_many.2 ⟨turns, hrest, v, hv, rfl⟩
      rw [List.flatten_cons, List.append_assoc]
      refine .manyMore ?_ (ih hrest)
      exact hbody hs (hturns u (by simp))
        (by simpa using follows_pieces hopens hmany hnext) (by simp)

end Readable

theorem of_pieces
    (hopens : ∀ again {w ks left}, w ∈ erase (nests again) → leaves w ks = some left →
      left ∈ opens again ks)
    (hnest : ∀ again {d rest}, d ∈ nests again → rest.headD .eof ∉ stops again →
      Traces n (.nest again) d false rest)
    (phrase : Phrase) : Readable n nests opens stops phrase := by
  induction phrase with
  | nothing =>
      intro _ b _ d _ _ hd _ _
      obtain rfl := Phrase.outcome_eq false hd rfl
      obtain rfl : d = [] := hd
      exact .nothing
  | note role =>
      intro _ b _ d _ _ hd _ _
      obtain rfl := Phrase.outcome_eq false hd rfl
      obtain rfl : d = [.note role] := hd
      exact .note
  | accept guard => exact fun _ _ _ _ _ hs hd hnext _ => accept_of_pieces hs hd hnext
  | need kind =>
      intro _ b _ d _ _ hd _ _
      obtain rfl := Phrase.outcome_eq true hd rfl
      obtain rfl : d = [.token kind] := hd
      exact .need
  | fail => exact fun _ _ _ _ _ _ hd _ _ => absurd hd (Language.notMem_zero _)
  | stray =>
      intro _ _ _ _ _ hs
      cases hs
  | seq first second ih₁ ih₂ => exact ih₁.seq hopens ih₂
  | ifElse test yes no iht ihy ihn =>
      cases hpeeks : (Phrase.ifElse test yes no).peeks? with
      | some kinds =>
          intro _ b _ d _ hs hd hnext _
          obtain rfl := Phrase.pieces_of_peeks hpeeks hd
          simp only [Phrase.settles, hpeeks, Bool.and_eq_true, List.all_eq_true, Bool.not_eq_true',
            Bool.or_eq_true, bne_iff_ne, List.contains_eq_mem, decide_eq_true_eq] at hs
          exact of_peeks hpeeks b (peeks_iff hs.1 hs.2 hnext)
      | none =>
          cases hrun : test.run? with
          | some kinds =>
              obtain rfl := Phrase.eq_of_run? hrun
              exact ihy.ifRun hopens ihn
          | none => exact .ifElse hopens hpeeks hrun iht ihy ihn
  | many body ih => exact ih.many hopens
  | rule name body ih => exact fun _ _ _ _ _ hs hd hnext _ => .rule (ih hs hd hnext (by simp))
  | node shape body ih =>
      rintro _ _ _ _ _ hs ⟨inner, hinner, rfl⟩ hnext _
      exact .node (ih hs hinner hnext (by simp))
  | nest again =>
      intro _ b _ d _ hs hd hnext _
      obtain rfl := Phrase.outcome_eq false hd rfl
      refine hnest again hd fun hstop => ?_
      have hall := List.all_eq_true.1 hs _ hstop
      rw [hnext.head] at hall
      cases hall

end Traces

end SqlAtlas
