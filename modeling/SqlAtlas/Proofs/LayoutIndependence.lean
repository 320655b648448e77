import Mathlib.Data.List.Forall2
import SqlAtlas.Dialect.Generic
import SqlAtlas.Proofs.Confinement
import SqlAtlas.Proofs.TreeShape

namespace SqlAtlas

section Matches

variable (tokens tokens' : List (Token Kind))

inductive Tree.Matches : Tree → Tree → Prop
  | node {construct : Construct String} {first last : Nat} {a b a' b' : Token Kind}
      {children children' : List Tree} :
      first ≤ last → tokens[first]? = some a → tokens[last]? = some b →
      tokens'[first]? = some a' → tokens'[last]? = some b' →
      List.Forall₂ Tree.Matches children children' →
      Tree.Matches (.node construct (a.span.through b.span) children)
        (.node construct (a'.span.through b'.span) children')

structure Fault.Matches (fault fault' : Fault) : Prop where
  stage : fault.stage = fault'.stage
  message : fault.message = fault'.message
  located : ∃ (index : Nat) (token token' : Token Kind), tokens[index]? = some token ∧
    tokens'[index]? = some token' ∧ fault.span = token.span ∧ fault'.span = token'.span

end Matches

theorem Construct.map_congr {ν μ : Type} {f g : ν → μ} {construct : Construct ν}
    (h : ∀ name ∈ construct.names, f name = g name) : construct.map f = construct.map g := by
  cases construct with
  | table parts alias? =>
      simp only [Construct.names, List.mem_append, Option.mem_toList] at h
      have hparts : parts.map f = parts.map g := List.map_congr_left fun part hpart =>
        h part (.inl hpart)
      have halias : alias?.map f = alias?.map g :=
        Option.map_congr fun name hname => h name (.inr hname)
      rw [Construct.map, Construct.map, hparts, halias]
  | derived alias? =>
      simp only [Construct.names, Option.mem_toList] at h
      rw [Construct.map, Construct.map, Option.map_congr h]
  | _ => rfl

namespace Source

variable {script script' : String} {tokens tokens' : List (Token Kind)}
  (hkinds : tokens.map Token.kind = tokens'.map Token.kind)
  (htexts : tokens.map (·.text script) = tokens'.map (·.text script'))
include hkinds htexts

theorem tokens_of_lt {index : Nat} (h : index < tokens.length) :
    ∃ token token', tokens[index]? = some token ∧ tokens'[index]? = some token' ∧
      token.kind = token'.kind ∧ token.text script = token'.text script' := by
  have h' : index < tokens'.length := by
    have hlength := congrArg List.length hkinds
    simp only [List.length_map] at hlength
    omega
  have hkind := congrArg (·[index]?) hkinds
  have htext := congrArg (·[index]?) htexts
  refine ⟨tokens[index], tokens'[index], List.getElem?_eq_getElem h,
    List.getElem?_eq_getElem h', ?_, ?_⟩
  · simpa [h, h'] using hkind
  · simpa [h, h'] using htext

theorem textAt_of_lt {index : Nat} (h : index < tokens.length) :
    (Source.mk script tokens.toArray).textAt index =
      (Source.mk script' tokens'.toArray).textAt index := by
  obtain ⟨token, token', htoken, htoken', -, htext⟩ := tokens_of_lt hkinds htexts h
  rw [textAt_eq htoken, textAt_eq htoken', htext]

theorem tree_matches {outline : Outline} (h : outline.Before tokens.length) :
    Tree.Matches tokens tokens' ((Source.mk script tokens.toArray).tree outline)
      ((Source.mk script' tokens'.toArray).tree outline) := by
  induction h with
  | @node construct extent children hbefore _ ih =>
      obtain ⟨hcovers, hlast, hnames⟩ := hbefore
      obtain ⟨a, a', ha, ha', -, -⟩ := tokens_of_lt hkinds htexts (Nat.lt_of_le_of_lt hcovers hlast)
      obtain ⟨b, b', hb, hb', -, -⟩ := tokens_of_lt hkinds htexts hlast
      have hconstruct : construct.map (Source.mk script tokens.toArray).nameAt =
          construct.map (Source.mk script' tokens'.toArray).nameAt :=
        Construct.map_congr fun index hindex =>
          congrArg Identifier.unquote (textAt_of_lt hkinds htexts (hnames index hindex))
      have hspan : (Source.mk script tokens.toArray).spanOf extent = a.span.through b.span := by
        rw [Source.spanOf, spanAt_eq ha, spanAt_eq hb]
      have hspan' : (Source.mk script' tokens'.toArray).spanOf extent =
          a'.span.through b'.span := by
        rw [Source.spanOf, spanAt_eq ha', spanAt_eq hb']
      rw [Source.tree, Source.tree, Node.map, Node.map, hconstruct, hspan, hspan',
        Node.mapAll_eq_map, Node.mapAll_eq_map]
      refine .node hcovers ha hb ha' hb' ?_
      rw [List.forall₂_map_left_iff, List.forall₂_map_right_iff, List.forall₂_same]
      exact ih

theorem fault_matches {complaint : Complaint} (h : complaint.index < tokens.length) :
    Fault.Matches tokens tokens' ((Source.mk script tokens.toArray).fault complaint)
      ((Source.mk script' tokens'.toArray).fault complaint) := by
  obtain ⟨token, token', htoken, htoken', hkind, -⟩ := tokens_of_lt hkinds htexts h
  have htext := textAt_of_lt hkinds htexts h
  have hquote : (Source.mk script tokens.toArray).quoteAt complaint.index =
      (Source.mk script' tokens'.toArray).quoteAt complaint.index := by
    simp [Source.quoteAt, Source.kindAt, htoken, htoken', hkind, htext]
  refine ⟨rfl, ?_, complaint.index, token, token', htoken, htoken', ?_, ?_⟩
  · simp only [Source.fault, hquote]
  · exact spanAt_eq htoken
  · exact spanAt_eq htoken'

end Source

theorem Input.read_before (kinds : Array Kind) (watch? : Option Watch) :
    (∀ root ∈ (Input.read ⟨kinds, watch?⟩).roots, Outline.Before kinds.size root) ∧
      ∀ complaint ∈ (Input.read ⟨kinds, watch?⟩).complaints, complaint.index < kinds.size := by
  have hseated := (Reading.steps_seated ⟨kinds, watch?⟩).inputRead Reading.seated_begin
  rcases Nat.eq_zero_or_pos kinds.size with hnone | hsome
  · simp [Input.read, Array.isEmpty, hnone, Reading.begin]
  · have hpos : (Input.read ⟨kinds, watch?⟩).pos < kinds.size :=
      (Reading.steps_pos_lt ⟨kinds, watch?⟩).inputRead hsome
    exact ⟨fun root hroot => (hseated.roots root hroot).mono (Nat.le_of_lt hpos),
      fun complaint hmem => Nat.lt_of_le_of_lt (hseated.complaints complaint hmem) hpos⟩

theorem parse_matches_of_layout (script script' : String) (tokens tokens' : List (Token Kind))
    (hkinds : tokens.map Token.kind = tokens'.map Token.kind)
    (htexts : tokens.map (·.text script) = tokens'.map (·.text script')) :
    List.Forall₂ (Tree.Matches tokens tokens') (Dialect.generic.parse script tokens).trees
        (Dialect.generic.parse script' tokens').trees ∧
      List.Forall₂ (Fault.Matches tokens tokens') (Dialect.generic.parse script tokens).faults
        (Dialect.generic.parse script' tokens').faults := by
  obtain ⟨hroots, hcomplaints⟩ := Input.read_before (tokens.map Token.kind).toArray none
  rw [List.size_toArray, List.length_map] at hroots hcomplaints
  simp only [Dialect.generic, parse, ← hkinds, List.forall₂_map_left_iff,
    List.forall₂_map_right_iff, List.forall₂_same]
  exact ⟨fun root hroot => Source.tree_matches hkinds htexts (hroots root hroot),
    fun complaint hmem => Source.fault_matches hkinds htexts (hcomplaints complaint hmem)⟩

theorem parse_matches_of_layout_select :
    let script := "SELECT a, FROM [t] x"
    let script' := "SELECT /*1*/ a ,\nFROM [t]\tx -- 2"
    let tokens := (Dialect.generic.lex script).tokens
    let tokens' := (Dialect.generic.lex script').tokens
    tokens.map Token.kind = tokens'.map Token.kind ∧
      tokens.map (·.text script) = tokens'.map (·.text script') ∧
      List.Forall₂ (Tree.Matches tokens tokens') (Dialect.generic.parse script tokens).trees
        (Dialect.generic.parse script' tokens').trees ∧
      List.Forall₂ (Fault.Matches tokens tokens') (Dialect.generic.parse script tokens).faults
        (Dialect.generic.parse script' tokens').faults := by
  have hkinds : (Dialect.generic.lex "SELECT a, FROM [t] x").tokens.map Token.kind =
      (Dialect.generic.lex "SELECT /*1*/ a ,\nFROM [t]\tx -- 2").tokens.map Token.kind := by
    decide +kernel
  have htexts : (Dialect.generic.lex "SELECT a, FROM [t] x").tokens.map
        (·.text "SELECT a, FROM [t] x") =
      (Dialect.generic.lex "SELECT /*1*/ a ,\nFROM [t]\tx -- 2").tokens.map
        (·.text "SELECT /*1*/ a ,\nFROM [t]\tx -- 2") := by
    decide +kernel
  exact ⟨hkinds, htexts, parse_matches_of_layout _ _ _ _ hkinds htexts⟩

end SqlAtlas
