import SqlAtlas.Dialect.Generic
import SqlAtlas.Proofs.Growth
import SqlAtlas.Proofs.TokenSpans

namespace SqlAtlas

namespace Source

variable (source : Source)

structure Ordered (count : Nat) : Prop where
  start_le_stop : ∀ i < count, (source.spanAt i).start ≤ (source.spanAt i).stop
  stop_lt_start : ∀ i j, i < j → j < count → (source.spanAt i).stop < (source.spanAt j).start

namespace Ordered

variable {source : Source} {count i j : Nat} (h : source.Ordered count)
include h

theorem start_lt (hij : i < j) (hj : j < count) :
    (source.spanAt i).start < (source.spanAt j).start :=
  Nat.lt_of_le_of_lt (h.start_le_stop i (Nat.lt_trans hij hj)) (h.stop_lt_start i j hij hj)

theorem start_le (hij : i ≤ j) (hj : j < count) :
    (source.spanAt i).start ≤ (source.spanAt j).start := by
  rcases Nat.lt_or_eq_of_le hij with hlt | rfl
  · exact Nat.le_of_lt (h.start_lt hlt hj)
  · exact Nat.le_refl _

theorem stop_le (hij : i ≤ j) (hj : j < count) :
    (source.spanAt i).stop ≤ (source.spanAt j).stop := by
  rcases Nat.lt_or_eq_of_le hij with hlt | rfl
  · exact Nat.le_trans (Nat.le_of_lt (h.stop_lt_start i j hlt hj)) (h.start_le_stop j hj)
  · exact Nat.le_refl _

end Ordered

end Source

theorem Source.ordered {script : String} {tokens : List (Token Kind)} (last : Token Kind)
    (h : Token.Spread script tokens) :
    (Source.mk script (tokens ++ [last]).toArray).Ordered tokens.length := by
  constructor
  · intro i hi
    rw [spanAt_of_lt hi]
    exact (h.placed _ (List.getElem_mem hi)).start_le_stop
  · intro i j hij hj
    rw [spanAt_of_lt (Nat.lt_trans hij hj), spanAt_of_lt hj]
    exact List.pairwise_iff_getElem.1 h.apart i j _ _ hij

theorem map_getD_sublist {α : Type} [Inhabited α] (items : List α) {indices : List Nat}
    (hsorted : indices.Pairwise (· < ·)) (hlt : ∀ i ∈ indices, i < items.length) (lo : Nat)
    (hlo : ∀ i ∈ indices, lo ≤ i) :
    (indices.map fun i => (items[i]?).getD default).Sublist (items.drop lo) := by
  induction indices generalizing lo with
  | nil => exact List.nil_sublist _
  | cons i indices ih =>
      obtain ⟨hfirst, hrest⟩ := List.pairwise_cons.1 hsorted
      have hi := hlt i List.mem_cons_self
      have htail := ih hrest (fun j hj => hlt j (List.mem_cons_of_mem _ hj)) (i + 1) hfirst
      have hsuffix : (items.drop i).Sublist (items.drop lo) :=
        List.drop_sublist_drop_left _ (hlo i List.mem_cons_self)
      rw [List.drop_eq_getElem_cons hi] at hsuffix
      rw [List.map_cons, List.getElem?_eq_getElem hi, Option.getD_some]
      exact (htail.cons_cons _).trans hsuffix

structure Tree.Shaped (script : String) (tokens : List (Token Kind)) (construct : Construct String)
    (span : Span) (children : List Tree) : Prop where
  reach : ∃ (i j : Nat) (first last : Token Kind), i ≤ j ∧ tokens[i]? = some first ∧
    tokens[j]? = some last ∧ first.kind ≠ .eof ∧ last.kind ≠ .eof ∧
    span = first.span.through last.span
  start_le_stop : span.start ≤ span.stop
  inside : ∀ child ∈ children, span.start < child.extent.start ∧ child.extent.stop ≤ span.stop
  apart : children.Pairwise fun child next => child.extent.stop < next.extent.start
  nested : ∀ child ∈ children, ∀ type, child.construct ≠ .statement type
  table : ∀ name alias?, construct = .table name alias? → children = [] ∧ name.length ≤ 4 ∧
    ∃ named : List (Token Kind), named.Sublist tokens ∧
      (named.Pairwise fun part next => part.span.stop < next.span.start) ∧
      (∀ part ∈ named, part.kind = .identifier ∧ span.start ≤ part.span.start ∧
        part.span.stop ≤ span.stop) ∧
      name = named.map fun part => Identifier.unquote (part.text script)
  derived : ∀ alias?, construct = .derived alias? → children.length ≤ 1 ∧
    ∀ child ∈ children, child.construct = .subquery

theorem Construct.eq_statement_of_map {construct : Construct Nat} {f : Nat → String}
    {type : StatementType} (h : construct.map f = .statement type) :
    construct.shape = .statement type := by
  cases construct <;> cases h
  rfl

theorem Construct.map_eq_statement {construct : Construct Nat} {f : Nat → String}
    {type : StatementType} (h : construct.shape = .statement type) :
    construct.map f = .statement type := by
  cases construct <;> cases h
  rfl

theorem Construct.map_eq_subquery {construct : Construct Nat} {f : Nat → String}
    (h : construct.shape = .subquery) : construct.map f = .subquery := by
  cases construct <;> cases h
  rfl

section Trees

variable {script : String} {tokens : List (Token Kind)} {last : Token Kind}

theorem names_shaped (hspread : Token.Spread script tokens) {lo hi : Nat} {parts : List Nat}
    (h : Input.Names ⟨((tokens ++ [last]).map Token.kind).toArray, none⟩ lo (hi + 1) parts)
    (hhi : hi < tokens.length) :
    ∃ named : List (Token Kind), named.Sublist (tokens ++ [last]) ∧
      (named.Pairwise fun part next => part.span.stop < next.span.start) ∧
      (∀ part ∈ named, part.kind = .identifier ∧
        ((Source.mk script (tokens ++ [last]).toArray).spanAt lo).start ≤ part.span.start ∧
        part.span.stop ≤ ((Source.mk script (tokens ++ [last]).toArray).spanAt hi).stop) ∧
      parts.map (Source.mk script (tokens ++ [last]).toArray).nameAt =
        named.map fun part => Identifier.unquote (part.text script) := by
  have hordered := Source.ordered last hspread
  have hlt (i : Nat) (hi : i ∈ parts) : i < tokens.length := by
    have hbounds := (h.within i hi).2
    omega
  have hsublist : (parts.map fun i => (tokens[i]?).getD default).Sublist tokens := by
    simpa using map_getD_sublist tokens h.sorted hlt 0 (fun _ _ => Nat.zero_le _)
  refine ⟨_, hsublist.trans (List.sublist_append_left _ _), hspread.apart.sublist hsublist, ?_, ?_⟩
  · intro part hpart
    obtain ⟨i, hi, rfl⟩ := List.mem_map.1 hpart
    have hi' := hlt i hi
    have hnamed := h.named i hi
    have hbounds := h.within i hi
    rw [List.getElem?_eq_getElem hi', Option.getD_some, ← Source.spanAt_of_lt hi' [last]]
    refine ⟨?_, hordered.start_le hbounds.1 hi', hordered.stop_le (Nat.le_of_lt_succ hbounds.2) hhi⟩
    simpa [List.getElem?_append_left, hi'] using hnamed
  · rw [List.map_map]
    refine List.map_congr_left fun i hi => ?_
    have hi' := hlt i hi
    rw [Source.nameAt, Source.textAt, Source.spanAt_of_lt hi', Function.comp_apply,
      List.getElem?_eq_getElem hi', Option.getD_some, Token.text]

theorem Outline.Proper.shaped (hspread : Token.Spread script tokens) {construct : Construct Nat}
    {extent : Extent} {children : List Outline}
    (h : Outline.Proper ⟨((tokens ++ [last]).map Token.kind).toArray, none⟩ construct
      extent children)
    (hlast : extent.last < tokens.length) :
    Tree.Shaped script (tokens ++ [last])
      (construct.map (Source.mk script (tokens ++ [last]).toArray).nameAt)
      ((Source.mk script (tokens ++ [last]).toArray).spanOf extent)
      (children.map (Source.mk script (tokens ++ [last]).toArray).tree) := by
  have hordered := Source.ordered last hspread
  have hfirst : extent.first < tokens.length := Nat.lt_of_le_of_lt h.covers hlast
  refine ⟨?_, ?_, ?_, ?_, ?_, ?_, ?_⟩
  · refine ⟨extent.first, extent.last, tokens[extent.first], tokens[extent.last], h.covers, ?_, ?_,
      ?_, ?_, ?_⟩
    · rw [List.getElem?_append_left hfirst, List.getElem?_eq_getElem hfirst]
    · rw [List.getElem?_append_left hlast, List.getElem?_eq_getElem hlast]
    · exact (hspread.placed _ (List.getElem_mem hfirst)).plain
    · exact (hspread.placed _ (List.getElem_mem hlast)).plain
    · rw [Source.spanOf, Source.spanAt_of_lt hfirst, Source.spanAt_of_lt hlast]
  · exact Nat.le_trans (hordered.start_le h.covers hlast) (hordered.start_le_stop _ hlast)
  · intro child hchild
    obtain ⟨outline, houtline, rfl⟩ := List.mem_map.1 hchild
    obtain ⟨hlo, hcovers, hhi⟩ := h.laid.within houtline
    rw [Source.tree, Node.extent_map]
    exact ⟨hordered.start_lt hlo (by omega), hordered.stop_le (Nat.le_of_lt_succ hhi) hlast⟩
  · refine List.pairwise_map.2 (h.laid.pairwise.imp_of_mem ?_)
    intro outline next _ hnext hlt
    have hbounds := h.laid.within hnext
    rw [Source.tree, Source.tree, Node.extent_map, Node.extent_map]
    exact hordered.stop_lt_start _ _ hlt (by omega)
  · intro child hchild type htype
    obtain ⟨outline, houtline, rfl⟩ := List.mem_map.1 hchild
    rw [Source.tree, Node.construct_map] at htype
    exact h.nested outline houtline type (Construct.eq_statement_of_map htype)
  · intro name alias? hname
    cases construct with
    | table parts alias? =>
        obtain ⟨hnone, hlength, hnames⟩ := h.table parts alias? rfl
        obtain ⟨named, hsublist, hapart, hinside, hparts⟩ := names_shaped hspread hnames hlast
        cases hname
        exact ⟨by rw [hnone]; rfl, by simpa using hlength, named, hsublist, hapart, hinside, hparts⟩
    | _ => cases hname
  · intro alias? hderived
    cases construct with
    | derived alias? =>
        obtain ⟨hone, hsubquery⟩ := h.derived alias? rfl
        refine ⟨by simpa using hone, fun child hchild => ?_⟩
        obtain ⟨outline, houtline, rfl⟩ := List.mem_map.1 hchild
        rw [Source.tree, Node.construct_map]
        exact Construct.map_eq_subquery (hsubquery outline houtline)
    | _ => cases hderived

theorem Input.ends_of_last (hlast : last.kind = .eof) :
    Input.Ends ⟨((tokens ++ [last]).map Token.kind).toArray, none⟩ := by
  intro i hi
  simp only [Input.shown, Option.any_none] at hi
  rcases Nat.lt_trichotomy i tokens.length with hlt | heq | hgt
  · simpa using hlt
  · simp [heq, hlast] at hi
  · have hnone : ((tokens ++ [last]).map Token.kind)[i]? = none :=
      List.getElem?_eq_none (by simpa using Nat.succ_le_of_lt hgt)
    rw [List.getElem?_toArray, hnone] at hi
    exact absurd rfl hi

theorem Reading.steps_pos_lt (input : Input) :
    Steps input fun r r' => r.pos < input.kinds.size → r'.pos < input.kinds.size where
  refl _ := id
  trans h₁ h₂ := h₂ ∘ h₁
  bump r hr := by
    unfold Reading.bump
    split
    · next hlt => exact hlt
    · exact hr
  offer offer? r hr := by
    rw [(Reading.offer_frame input offer? r).1]
    exact hr
  complain _ _ := id
  halt _ := id
  mark note r hr := by
    rw [(Reading.mark_frame note r).1]
    exact hr
  rule h := h
  node {shape r r'} h hr := by
    rw [(Reading.closeFrame_frame shape r').1]
    exact h hr
  nest h := h

theorem parse_outlines (hlast : last.kind = .eof) :
    ∃ nodes, (Input.read ⟨((tokens ++ [last]).map Token.kind).toArray, none⟩).roots = nodes ∧
      Outline.Laid 0 tokens.length nodes ∧
      (∀ node ∈ nodes, node.All
        (Outline.Proper ⟨((tokens ++ [last]).map Token.kind).toArray, none⟩)) ∧
      ∀ node ∈ nodes, ∃ type, node.construct.shape = .statement type := by
  obtain ⟨nodes, parts, hgrows, hbounds⟩ := Reading.inputRead_grown (Input.ends_of_last hlast)
  refine ⟨nodes, ?_, ?_, hgrows.proper, fun node hnode => ?_⟩
  · simpa [Reading.begin] using (hgrows.roots rfl).2
  · have hpos := (Reading.steps_pos_lt
      ⟨((tokens ++ [last]).map Token.kind).toArray, none⟩).inputRead
      (by simp [Reading.begin])
    rw [List.size_toArray, List.length_map, List.length_append, List.length_singleton] at hpos
    have hend : Outline.Laid _ tokens.length [] := Nat.le_of_lt_succ hpos
    simpa [Reading.begin] using hgrows.laid.append hend
  · have hshape := List.all_eq_true.1 Grammar.shapes_script _ (hbounds.shapes node hnode)
    cases hs : node.construct.shape with
    | statement type => exact ⟨type, rfl⟩
    | _ => rw [hs] at hshape; cases hshape

theorem parse_trees (script : String) (tokens : List (Token Kind)) :
    (Dialect.generic.parse script tokens).trees =
      (Input.read ⟨(tokens.map Token.kind).toArray, none⟩).roots.map
        (Source.mk script tokens.toArray).tree :=
  rfl

theorem roots_all (hlast : last.kind = .eof) {Q : Construct String → Span → List Tree → Prop}
    (hQ : ∀ construct extent children,
      Outline.Proper ⟨((tokens ++ [last]).map Token.kind).toArray, none⟩ construct extent children →
      extent.last < tokens.length →
      Q (construct.map (Source.mk script (tokens ++ [last]).toArray).nameAt)
        ((Source.mk script (tokens ++ [last]).toArray).spanOf extent)
        (children.map (Source.mk script (tokens ++ [last]).toArray).tree)) {tree : Tree}
    (htree : tree ∈ (Dialect.generic.parse script (tokens ++ [last])).trees) : tree.All Q := by
  obtain ⟨nodes, hroots, hlaid, hproper, -⟩ := parse_outlines hlast
  rw [parse_trees, hroots] at htree
  obtain ⟨outline, houtline, rfl⟩ := List.mem_map.1 htree
  refine (hproper outline houtline).map (S := fun extent => extent.last < tokens.length) ?_ hQ
    (hlaid.within houtline).2.2
  intro _ extent children h hlast child hchild
  have hbounds := h.laid.within hchild
  omega

theorem roots_shaped (hspread : Token.Spread script tokens) (hlast : last.kind = .eof) {tree : Tree}
    (htree : tree ∈ (Dialect.generic.parse script (tokens ++ [last])).trees) :
    (∃ type, tree.construct = .statement type) ∧
      tree.All (Tree.Shaped script (tokens ++ [last])) := by
  refine ⟨?_, roots_all hlast (fun _ _ _ h hlast => h.shaped hspread hlast) htree⟩
  obtain ⟨nodes, hroots, -, -, hshapes⟩ := parse_outlines hlast
  rw [parse_trees, hroots] at htree
  obtain ⟨outline, houtline, rfl⟩ := List.mem_map.1 htree
  obtain ⟨type, htype⟩ := hshapes outline houtline
  refine ⟨type, ?_⟩
  rw [Source.tree, Node.construct_map]
  exact Construct.map_eq_statement htype

theorem roots_apart (hspread : Token.Spread script tokens) (hlast : last.kind = .eof) :
    (Dialect.generic.parse script (tokens ++ [last])).trees.Pairwise
      fun tree next => tree.extent.stop < next.extent.start := by
  obtain ⟨nodes, hroots, hlaid, -⟩ := parse_outlines hlast
  have hordered := Source.ordered last hspread
  rw [parse_trees, hroots]
  refine List.pairwise_map.2 (hlaid.pairwise.imp_of_mem ?_)
  intro outline next _ hnext hlt
  rw [Source.tree, Source.tree, Node.extent_map, Node.extent_map]
  exact hordered.stop_lt_start _ _ hlt
    (Nat.lt_of_le_of_lt (hlaid.within hnext).2.1 (hlaid.within hnext).2.2)

end Trees

theorem parse_lex_shaped (script : String) :
    let tokens := (Dialect.generic.lex script).tokens
    let trees := (Dialect.generic.parse script tokens).trees
    (∀ tree ∈ trees, (∃ type, tree.construct = .statement type) ∧
      tree.All (Tree.Shaped script tokens)) ∧
    trees.Pairwise fun tree next => tree.extent.stop < next.extent.start := by
  obtain ⟨tokens, htokens, hspread⟩ := lex_spread script
  have hlex : (Dialect.generic.lex script).tokens = tokens ++ [endToken script.toList] := htokens
  simp only [hlex]
  exact ⟨fun tree htree => roots_shaped hspread rfl htree, roots_apart hspread rfl⟩

end SqlAtlas
