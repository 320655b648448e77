import SqlAtlas.Proofs.LayoutIndependence
import SqlAtlas.Proofs.Resumption

namespace SqlAtlas

section Lookup

variable {ν μ κ σ τ υ : Type}

theorem Construct.map_map (f : ν → μ) (f' : μ → κ) (construct : Construct ν) :
    (construct.map f).map f' = construct.map (f' ∘ f) := by
  cases construct <;> simp [Construct.map]

mutual

theorem Node.map_map (f : ν → μ) (g : σ → τ) (f' : μ → κ) (g' : τ → υ) (node : Node ν σ) :
    (node.map f g).map f' g' = node.map (f' ∘ f) (g' ∘ g) := by
  cases node with
  | node construct extent children =>
      rw [Node.map, Node.map, Node.map, Construct.map_map, Node.mapAll_mapAll f g f' g' children]
      rfl

theorem Node.mapAll_mapAll (f : ν → μ) (g : σ → τ) (f' : μ → κ) (g' : τ → υ)
    (nodes : List (Node ν σ)) :
    Node.mapAll f' g' (Node.mapAll f g nodes) = Node.mapAll (f' ∘ f) (g' ∘ g) nodes := by
  cases nodes with
  | nil => rfl
  | cons first rest =>
      rw [Node.mapAll, Node.mapAll, Node.mapAll, Node.map_map f g f' g' first,
        Node.mapAll_mapAll f g f' g' rest]

end

theorem Outline.Before.map_congr {bound : Nat} {outline : Outline} {f f' : Nat → μ}
    {g g' : Extent → τ} (h : outline.Before bound) (hf : ∀ index < bound, f index = f' index)
    (hg : ∀ extent : Extent, extent.first < bound → extent.last < bound → g extent = g' extent) :
    outline.map f g = outline.map f' g' := by
  induction h with
  | @node construct extent children hbefore _ ih =>
      obtain ⟨hcovers, hlast, hnames⟩ := hbefore
      rw [Node.map, Node.map, Node.mapAll_eq_map, Node.mapAll_eq_map, List.map_congr_left ih,
        hg extent (Nat.lt_of_le_of_lt hcovers hlast) hlast,
        Construct.map_congr fun index hindex => hf index (hnames index hindex)]

end Lookup

namespace Source

variable (script : String) (before tokens tokens' : List (Token Kind))

theorem tree_append_right {outline : Outline} (h : outline.Before before.length) :
    (Source.mk script (before ++ tokens).toArray).tree outline =
      (Source.mk script (before ++ tokens').toArray).tree outline := by
  have hspan (index : Nat) (hindex : index < before.length) :
      (Source.mk script (before ++ tokens).toArray).spanAt index =
        (Source.mk script (before ++ tokens').toArray).spanAt index := by
    rw [spanAt_of_lt hindex, spanAt_of_lt hindex]
  refine h.map_congr (fun index hindex => ?_) fun extent hfirst hlast => ?_
  · rw [Source.nameAt, Source.nameAt, Source.textAt, Source.textAt, hspan index hindex]
  · rw [Source.spanOf, Source.spanOf, hspan _ hfirst, hspan _ hlast]

theorem getElem?_append_shift (index : Nat) :
    (before ++ tokens).toArray[index + before.length]? = tokens.toArray[index]? := by
  rw [List.getElem?_toArray, List.getElem?_toArray, Nat.add_comm,
    List.getElem?_append_right (by omega), Nat.add_sub_cancel_left]

theorem spanAt_append_left (index : Nat) :
    (Source.mk script (before ++ tokens).toArray).spanAt (index + before.length) =
      (Source.mk script tokens.toArray).spanAt index := by
  rw [Source.spanAt, Source.spanAt, getElem?_append_shift]

theorem tree_append_left (outline : Outline) :
    (Source.mk script (before ++ tokens).toArray).tree (outline.shift before.length) =
      (Source.mk script tokens.toArray).tree outline := by
  rw [Source.tree, Source.tree, Outline.shift, Node.map_map]
  congr 1
  · funext index
    rw [Function.comp_apply, Source.nameAt, Source.nameAt, Source.textAt, Source.textAt,
      spanAt_append_left]
  · funext extent
    rw [Function.comp_apply, Source.spanOf, Source.spanOf, Extent.shift, spanAt_append_left,
      spanAt_append_left]

theorem fault_append_left (complaint : Complaint) :
    (Source.mk script (before ++ tokens).toArray).fault (complaint.shift before.length) =
      (Source.mk script tokens.toArray).fault complaint := by
  have hquote : (Source.mk script (before ++ tokens).toArray).quoteAt
      (complaint.index + before.length) =
      (Source.mk script tokens.toArray).quoteAt complaint.index := by
    rw [Source.quoteAt, Source.quoteAt, Source.kindAt, Source.kindAt, Source.textAt, Source.textAt,
      spanAt_append_left, getElem?_append_shift]
  rw [Source.fault, Source.fault, Complaint.shift, spanAt_append_left, hquote]

end Source

section Statements

variable {first : List (Token Kind)} {semicolon stop stop' : Token Kind}

theorem Input.shown_append (tokens : List (Token Kind)) {i : Nat} (hi : i < first.length) :
    Input.shown ⟨((first ++ tokens).map Token.kind).toArray, none⟩ i = first[i].kind := by
  simp only [Input.shown, Option.any_none, Bool.false_eq_true, if_false, List.getElem?_toArray,
    List.getElem?_map, List.getElem?_append_left hi, List.getElem?_eq_getElem hi]
  rfl

theorem Input.resumed_of_tokens (second : List (Token Kind)) (hsemi : semicolon.kind = .semicolon)
    (hstop : stop.kind = .eof) (hstop' : stop'.kind = .eof)
    (hfirst : ∀ token ∈ first, token.kind ≠ .eof) :
    Input.Resumed ⟨((first ++ [stop]).map Token.kind).toArray, none⟩
      ⟨((first ++ semicolon :: (second ++ [stop'])).map Token.kind).toArray, none⟩
        first.length where
  unwatched := rfl
  unwatched' := rfl
  ends := Input.ends_of_last hstop
  ends' := by
    have hends : Input.Ends
        ⟨(((first ++ semicolon :: second) ++ [stop']).map Token.kind).toArray, none⟩ :=
      Input.ends_of_last hstop'
    rwa [List.append_assoc, List.cons_append] at hends
  same i hi := by rw [Input.shown_append _ hi, Input.shown_append _ hi]
  busy i hi := by
    rw [Input.shown_append _ hi]
    exact hfirst first[i] (List.getElem_mem hi)
  stop := by simp [Input.shown, hstop]
  resume := by simp [Input.shown, hsemi]
  some := by simp

theorem Input.delayed_of_tokens (before tokens : List (Token Kind)) :
    Input.Delayed ⟨(tokens.map Token.kind).toArray, none⟩
      ⟨((before ++ tokens).map Token.kind).toArray, none⟩ before.length where
  unwatched := rfl
  unwatched' := rfl
  kinds i := by
    rw [List.getElem?_toArray, List.getElem?_toArray, List.getElem?_map, List.getElem?_map,
      Nat.add_comm, List.getElem?_append_right (by omega), Nat.add_sub_cancel_left]
  size := by simp [Nat.add_comm]

end Statements

theorem parse_append_statements (script : String) (first second : List (Token Kind))
    (semicolon stop stop' : Token Kind) (hsemi : semicolon.kind = .semicolon)
    (hstop : stop.kind = .eof) (hstop' : stop'.kind = .eof)
    (hfirst : ∀ token ∈ first, token.kind ≠ .eof)
    (hclean : (Dialect.generic.parse script (first ++ [stop])).faults = []) :
    let left := first ++ [stop]
    let right := second ++ [stop']
    let whole := first ++ semicolon :: right
    let reading := fun tokens : List (Token Kind) =>
      Input.read ⟨(tokens.map Token.kind).toArray, none⟩
    Dialect.generic.parse script whole =
        ⟨(Dialect.generic.parse script left).trees ++ (Dialect.generic.parse script right).trees,
          (Dialect.generic.parse script right).faults⟩ ∧
      (reading whole).roots = (reading left).roots ++
        (reading right).roots.map (Outline.shift (first.length + 1)) ∧
      (reading whole).complaints =
        (reading right).complaints.map (Complaint.shift (first.length + 1)) := by
  intro left right whole reading
  have hin := Input.resumed_of_tokens second hsemi hstop hstop' hfirst
  have hlater := Input.delayed_of_tokens (first ++ [semicolon]) right
  rw [List.append_assoc, List.singleton_append, List.length_append, List.length_singleton] at hlater
  have hreported : (reading left).complaints = [] := List.map_eq_nil_iff.1 hclean
  obtain ⟨hbefore, hroots, hcomplaints⟩ := Input.read_resumed hin hlater (Input.ends_of_last hstop')
    (by simp [right]) hreported
  have hwhole : whole = (first ++ [semicolon]) ++ right := by simp [whole]
  have hlength : first.length + 1 = (first ++ [semicolon]).length := by simp
  have htrees : (reading whole).roots.map (Source.mk script whole.toArray).tree =
      (reading left).roots.map (Source.mk script left.toArray).tree ++
        (reading right).roots.map (Source.mk script right.toArray).tree := by
    rw [hroots, List.map_append, List.map_map]
    congr 1
    · exact List.map_congr_left fun root hroot =>
        Source.tree_append_right script first _ _ (hbefore root hroot)
    · refine List.map_congr_left fun root _ => ?_
      rw [Function.comp_apply, hwhole, hlength]
      exact Source.tree_append_left script _ right root
  have hfaults : (reading whole).complaints.map (Source.mk script whole.toArray).fault =
      (reading right).complaints.map (Source.mk script right.toArray).fault := by
    rw [hcomplaints, List.map_map]
    refine List.map_congr_left fun complaint _ => ?_
    rw [Function.comp_apply, hwhole, hlength]
    exact Source.fault_append_left script _ right complaint
  exact ⟨congrArg₂ Parsing.mk htrees hfaults, hroots, hcomplaints⟩

theorem parse_append_statements_malformed :
    let script := "SELECT a FROM t; ) UPDATE u"
    let tokens := (Dialect.generic.lex script).tokens
    let left := tokens.take 4 ++ [⟨.eof, default⟩]
    let right := tokens.drop 5
    (∀ token ∈ tokens.take 4, token.kind ≠ .eof) ∧ (Dialect.generic.parse script left).faults = [] ∧
      (Dialect.generic.parse script right).faults ≠ [] ∧
      Dialect.generic.parse script tokens =
        ⟨(Dialect.generic.parse script left).trees ++ (Dialect.generic.parse script right).trees,
          (Dialect.generic.parse script right).faults⟩ := by
  intro script tokens left right
  have hfirst : ∀ token ∈ tokens.take 4, token.kind ≠ .eof := by decide +kernel
  have hclean : (Dialect.generic.parse script left).faults = [] := by decide +kernel
  have htokens : tokens = tokens.take 4 ++
      ⟨.semicolon, ⟨1, 1, 15, 15⟩⟩ :: (right.take 3 ++ [⟨.eof, ⟨1, 1, 27, 27⟩⟩]) := by
        decide +kernel
  have hright : right = right.take 3 ++ [⟨.eof, ⟨1, 1, 27, 27⟩⟩] := by decide +kernel
  have hwhole := (parse_append_statements script (tokens.take 4) (right.take 3)
    ⟨.semicolon, ⟨1, 1, 15, 15⟩⟩ ⟨.eof, default⟩ ⟨.eof, ⟨1, 1, 27, 27⟩⟩ rfl rfl rfl hfirst hclean).1
  refine ⟨hfirst, hclean, by decide +kernel, ?_⟩
  rw [← htokens, ← hright] at hwhole
  exact hwhole

end SqlAtlas
