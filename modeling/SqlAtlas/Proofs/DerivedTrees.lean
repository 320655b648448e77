import SqlAtlas.Proofs.Acceptance
import SqlAtlas.Proofs.LayoutIndependence
import SqlAtlas.Proofs.Projection

namespace SqlAtlas

open Computability

theorem Reading.gains_script {input : Input} {n : Nat} {d : List Piece}
    (hshow : input.Shows (kindsOf d)) (htrace : Traces n Grammar.script d false []) :
    Reading.begin.Gains (Grammar.script.read input (Nest.read input n) Reading.begin).2 d := by
  have hdraws := Draws.of_nests hshow (Draws.nest hshow n) Grammar.script Grammar.sane_script
    Grammar.steady_script Grammar.filled_script
  have hbegin : (Place.text (kindsOf d ++ [])).Of (kindsOf d) Reading.begin := by
    rw [List.append_nil]
    exact Reading.of_begin (kindsOf d)
  obtain ⟨r', hread, -, -, hgains⟩ := hdraws _ _ _ _ htrace hbegin rfl
  rw [hread]
  exact hgains

section Projects

inductive Construct.Rel {ν μ : Type} (R : ν → μ → Prop) : Construct ν → Construct μ → Prop
  | statement (type : StatementType) : Rel R (.statement type) (.statement type)
  | subquery : Rel R .subquery .subquery
  | commonTable : Rel R .commonTable .commonTable
  | table {parts : List ν} {names : List μ} {alias? : Option ν} {name? : Option μ} :
      List.Forall₂ R parts names → Option.Rel R alias? name? →
      Rel R (.table parts alias?) (.table names name?)
  | derived {alias? : Option ν} {name? : Option μ} : Option.Rel R alias? name? →
      Rel R (.derived alias?) (.derived name?)

variable (script : String) (tokens : List (Token Kind))

inductive Tree.Projects : Outline → Tree → Prop
  | node {construct : Construct Nat} {named : Construct String} {extent : Extent}
      {first last : Token Kind} {children : List Outline} {trees : List Tree} :
      construct.Rel (fun index name => ∃ token : Token Kind, tokens[index]? = some token ∧
        name = Identifier.unquote (token.text script)) named →
      tokens[extent.first]? = some first → tokens[extent.last]? = some last →
      List.Forall₂ Tree.Projects children trees →
      Tree.Projects (.node construct extent children) (.node named
        ⟨first.span.startLine, last.span.stopLine, first.span.start, last.span.stop⟩ trees)

theorem Construct.rel_map {ν μ : Type} {R : ν → μ → Prop} {f : ν → μ} {construct : Construct ν}
    (h : ∀ name ∈ construct.names, R name (f name)) : construct.Rel R (construct.map f) := by
  have hoption {name? : Option ν} (hname : ∀ name ∈ name?, R name (f name)) :
      Option.Rel R name? (name?.map f) := by
    cases name? with
    | none => exact .none
    | some name => exact .some (hname name rfl)
  cases construct with
  | statement type => exact .statement type
  | subquery => exact .subquery
  | commonTable => exact .commonTable
  | table parts alias? =>
      simp only [Construct.names, List.mem_append, Option.mem_toList] at h
      refine .table ?_ (hoption fun name hname => h name (.inr hname))
      rw [List.forall₂_map_right_iff, List.forall₂_same]
      exact fun part hpart => h part (.inl hpart)
  | derived alias? =>
      simp only [Construct.names, Option.mem_toList] at h
      exact .derived (hoption h)

theorem Source.tree_projects {outline : Outline} (h : outline.Before tokens.length) :
    Tree.Projects script tokens outline ((Source.mk script tokens.toArray).tree outline) := by
  induction h with
  | @node construct extent children hbefore _ ih =>
      obtain ⟨hcovers, hlast, hnames⟩ := hbefore
      have htoken {index : Nat} (hindex : index < tokens.length) :
          tokens[index]? = some tokens[index] := List.getElem?_eq_getElem hindex
      have hfirst := Nat.lt_of_le_of_lt hcovers hlast
      rw [Source.tree, Node.map, Node.mapAll_eq_map, Source.spanOf, spanAt_eq (htoken hfirst),
        spanAt_eq (htoken hlast)]
      refine .node (Construct.rel_map fun index hindex => ?_) (htoken hfirst) (htoken hlast) ?_
      · have hname := htoken (hnames index hindex)
        exact ⟨_, hname, congrArg Identifier.unquote (textAt_eq hname)⟩
      · rw [List.forall₂_map_right_iff, List.forall₂_same]
        exact ih

end Projects

theorem Input.roots_of_form {ks : List Kind} {d : List Piece} (hkinds : ks = kindsOf d ++ [.eof])
    (heof : Kind.eof ∉ kindsOf d) (hd : d ∈ Production.file (Setting.upTo True nestingLimit)) :
    (Input.read ⟨ks.toArray, none⟩).roots = outlines 0 d := by
  have hshow := Input.shows_text heof []
  have hgains := Reading.gains_script hshow (Traces.script_of_forms hd)
  rw [hkinds, Input.read_eq hshow]
  exact (hgains.roots rfl).2

theorem parse_projects_derivation (script : String) (tokens : List (Token Kind)) (d : List Piece)
    (hkinds : tokens.map Token.kind = kindsOf d ++ [.eof]) (heof : Kind.eof ∉ kindsOf d)
    (hd : d ∈ Production.file (Setting.upTo True nestingLimit)) :
    (Dialect.generic.parse script tokens).faults = [] ∧
      List.Forall₂ (Tree.Projects script tokens) (outlines 0 d)
        (Dialect.generic.parse script tokens).trees := by
  constructor
  · rw [parse_faults_eq_nil_iff script hkinds heof]
    exact Runs.script_iff.2 (kindsOf_mem_erase hd)
  · have hbefore := (Input.read_before (tokens.map Token.kind).toArray none).1
    rw [List.size_toArray, List.length_map] at hbefore
    rw [← Input.roots_of_form hkinds heof hd]
    change List.Forall₂ _ _ (List.map _ _)
    rw [List.forall₂_map_right_iff, List.forall₂_same]
    exact fun root hroot => Source.tree_projects script tokens (hbefore root hroot)

section Samples

def starFrom (source : List Piece) : List Piece :=
  [.token (.keyword .SELECT), .token .star, .token (.keyword .FROM)] ++ source

def plainTable : List Piece := [.group .table [.token .identifier, .note .part]]

def plainSubquery : List Piece := [.group .subquery (starFrom plainTable)]

-- `(SELECT * FROM t) AS v`
def plainDerived : List Piece :=
  [.group .derived ([.token .openParen] ++ plainSubquery ++
    [.token .closeParen, .token (.keyword .AS), .token .identifier, .note .alias])]

variable {setting : Setting} {d : List Piece}

theorem mem_select_of_tableItem (h : d ∈ Production.tableItem setting) :
    starFrom d ∈ Production.select setting := by
  have hfrom : [.token (.keyword .FROM)] ++ d ∈
      Production.clause [.FROM] Production.tableSources setting :=
    .inl ⟨_, rfl, d, mem_mul_kstar (mem_mul_kstar h), rfl⟩
  have hselection : [.token .star] ++ ([.token (.keyword .FROM)] ++ d) ∈
      Production.selection setting :=
    ⟨[.token .star], mem_mul_kstar (.inl (.inl rfl)), _,
      mem_mul_of_left hfrom (mem_opt_mul (mem_opt_mul (.inr rfl))), rfl⟩
  exact mem_select_of_selection hselection

theorem plainTable_mem : plainTable ∈ Production.tableItem setting :=
  .inr ⟨_, mem_mul_opt (mem_mul_opt rfl), rfl⟩

theorem plainSubquery_mem (callsOnly : Prop) (n : Nat) :
    plainSubquery ∈ Production.subquery (Setting.upTo callsOnly (n + 1)) :=
  ⟨_, mem_select_of_tableItem plainTable_mem, rfl⟩

theorem plainDerived_mem (callsOnly : Prop) (n : Nat) :
    plainDerived ∈ Production.tableItem (Setting.upTo callsOnly (n + 1)) := by
  have hparens : [.token .openParen] ++ plainSubquery ++ [.token .closeParen] ∈
      Production.parens Production.subquery (Setting.upTo callsOnly (n + 1)) :=
    ⟨_, rfl, _, ⟨_, plainSubquery_mem callsOnly n, _, rfl, rfl⟩, rfl⟩
  have halias : [.token (.keyword .AS), .token .identifier, .note .alias] ∈
      Production.tableAlias (Setting.upTo callsOnly (n + 1)) :=
    .inl ⟨[.token (.keyword .AS)], .inl rfl, _, rfl, rfl⟩
  exact .inl ⟨_, ⟨_, hparens, _, halias, rfl⟩, rfl⟩

-- `SELECT * FROM (SELECT * FROM t) AS v`
def derivedQuery : List Piece := [.group (.statement .select) (starFrom plainDerived)]

theorem derivedQuery_mem_file (n : Nat) :
    derivedQuery ∈ Production.file (Setting.upTo True (n + 1)) :=
  mem_file_of_select (mem_select_of_tableItem (plainDerived_mem True n))

theorem parse_projects_derivation_derivedQuery :
    let script := "SELECT * FROM (SELECT * FROM [t]) AS v"
    let tokens := (Dialect.generic.lex script).tokens
    tokens.map Token.kind = kindsOf derivedQuery ++ [.eof] ∧ Kind.eof ∉ kindsOf derivedQuery ∧
      (Dialect.generic.parse script tokens).faults = [] ∧
      List.Forall₂ (Tree.Projects script tokens)
        [.node (.statement .select) ⟨0, 10⟩ [.node (.derived (some 10)) ⟨3, 10⟩
          [.node .subquery ⟨4, 7⟩ [.node (.table [7] none) ⟨7, 7⟩ []]]]]
        (Dialect.generic.parse script tokens).trees := by
  have hkinds : (Dialect.generic.lex "SELECT * FROM (SELECT * FROM [t]) AS v").tokens.map
      Token.kind = kindsOf derivedQuery ++ [.eof] := by
    decide +kernel
  have heof : Kind.eof ∉ kindsOf derivedQuery := by
    decide
  exact ⟨hkinds, heof, parse_projects_derivation _ _ derivedQuery hkinds heof
    (derivedQuery_mem_file 199)⟩

-- `SELECT TOP a (SELECT * FROM t)`
def topOfQuery : List Piece :=
  [.group (.statement .select) ([.token (.keyword .SELECT), .token (.keyword .TOP),
    .token .identifier] ++ ([.token .openParen] ++ plainSubquery ++ [.token .closeParen]))]

theorem topOfQuery_mem_file (n : Nat) :
    topOfQuery ∈ Production.file (Setting.upTo False (n + 2)) := by
  have hselection := mem_selection_of_primary
    (mem_primary_of_parens (.inl (plainSubquery_mem False n)))
  exact mem_file_of_select (mem_select_of_top mem_primary_of_name hselection id)

theorem not_parse_projects_plain_derivation : ¬ ∀ (script : String) (tokens : List (Token Kind))
    (d : List Piece), tokens.map Token.kind = kindsOf d ++ [.eof] → Kind.eof ∉ kindsOf d →
    d ∈ Production.file (Setting.upTo False nestingLimit) →
    (Dialect.generic.parse script tokens).faults = [] ∧
      List.Forall₂ (Tree.Projects script tokens) (outlines 0 d)
        (Dialect.generic.parse script tokens).trees := by
  intro h
  have hprojects := (h "" (tokensOf (kindsOf topOfQuery)) topOfQuery rfl (by decide)
    (topOfQuery_mem_file 198)).2
  have htwo : (Dialect.generic.parse "" (tokensOf (kindsOf topOfQuery))).trees.length = 2 := by
    decide +kernel
  rw [← hprojects.length_eq] at htwo
  cases htwo

end Samples

end SqlAtlas
