import Mathlib.Data.List.Nodup
import SqlAtlas.Proofs.Drafting
import SqlAtlas.Proofs.Places

namespace SqlAtlas

abbrev Entry := Path × Tree

namespace Draft

structure Row where
  id : Nat
  isCommonTable : Bool
  type? : Option StatementType
  span : Span
  parent? : Option Nat
  mentions : List Mention
  commonTables : List Nat
  subqueries : List Nat
  deriving DecidableEq, Repr

def row (draft : Draft) : Row :=
  ⟨draft.id, draft.isCommonTable, some draft.type, draft.span, draft.parent?, draft.mentions,
    draft.commonTables.map Draft.id, draft.subqueries.map Draft.id⟩

mutual

def all : Draft → List Draft
  | draft@{ commonTables, subqueries, .. } => draft :: (allIn commonTables ++ allIn subqueries)

def allIn : List Draft → List Draft
  | [] => []
  | draft :: drafts => all draft ++ allIn drafts

end

theorem allIn_eq_flatMap (drafts : List Draft) : allIn drafts = drafts.flatMap all := by
  induction drafts with
  | nil => rfl
  | cons draft drafts ih => rw [allIn, ih, List.flatMap_cons]

theorem all_eq (draft : Draft) :
    draft.all = draft :: (draft.commonTables ++ draft.subqueries).flatMap all := by
  cases draft
  rw [all, allIn_eq_flatMap, allIn_eq_flatMap, ← List.flatMap_append]

theorem mem_all_of_child {draft node child : Draft} (hnode : node ∈ draft.all)
    (hchild : child ∈ node.commonTables ++ node.subqueries) : child ∈ draft.all := by
  induction draft using Draft.induct with
  | step draft ih =>
      rw [all_eq] at hnode ⊢
      refine List.mem_cons_of_mem _ (List.mem_flatMap.2 ?_)
      rcases List.mem_cons.1 hnode with rfl | hnode
      · refine ⟨child, hchild, ?_⟩
        rw [all_eq]
        exact List.mem_cons_self
      · obtain ⟨inner, hinner, hnode⟩ := List.mem_flatMap.1 hnode
        exact ⟨inner, hinner, ih inner hinner hnode⟩

theorem all_perm (draft : Draft) {inner : List Draft}
    (hcommon : draft.commonTables = inner.filter (·.isCommonTable))
    (hothers : draft.subqueries = inner.filter (!·.isCommonTable)) :
    draft.all.Perm (draft :: allIn inner) := by
  rw [all_eq, hcommon, hothers, allIn_eq_flatMap]
  exact ((List.filter_append_perm _ inner).flatMap_right all).cons _

mutual

theorem ids_ofTree (parent? : Option Nat) (next : Nat) (tree : Tree) :
    ((allIn (ofTree parent? next tree)).map Draft.id).Perm (List.range' next (count tree)) := by
  cases tree with
  | node construct span children =>
      have hquery := isQuery_eq_isSome_typeOf? construct
      rw [ofTree, count]
      cases htype : typeOf? construct with
      | none =>
          rw [htype, Option.isSome_none] at hquery
          rw [hquery, if_neg Bool.false_ne_true, Nat.zero_add]
          exact ids_ofTrees parent? next children
      | some type =>
          rw [htype, Option.isSome_some] at hquery
          rw [hquery, if_pos rfl, Nat.add_comm 1, List.range'_succ]
          have hinner := ids_ofTrees (some next) (next + 1) children
          have hall := (all_perm ⟨next, isCommonTableOf construct, type, span, parent?,
            mentionsInAll children,
            (ofTrees (some next) (next + 1) children).filter (·.isCommonTable),
            (ofTrees (some next) (next + 1) children).filter (!·.isCommonTable)⟩ rfl rfl).map
              Draft.id
          simp only [allIn, List.append_nil]
          exact hall.trans (hinner.cons next)

theorem ids_ofTrees (parent? : Option Nat) (next : Nat) (trees : List Tree) :
    ((allIn (ofTrees parent? next trees)).map Draft.id).Perm
      (List.range' next (countAll trees)) := by
  cases trees with
  | nil => exact .refl _
  | cons tree trees =>
      have hfirst := ids_ofTree parent? next tree
      have hrest := ids_ofTrees parent? (next + count tree) trees
      rw [ofTrees, countAll, allIn_eq_flatMap, List.flatMap_append, ← allIn_eq_flatMap,
        ← allIn_eq_flatMap, List.map_append, ← List.range'_append_1]
      exact hfirst.append hrest

end

theorem nodup_ids_ofScript (trees : List Tree) : ((allIn (ofScript trees)).map Draft.id).Nodup := by
  rw [ofScript_eq_ofTrees]
  exact (ids_ofTrees none 0 trees).nodup_iff.2 List.nodup_range'

section Rows

variable (trees : List Tree) (ident : Path → Nat)

def ownedBy (owner? : Option Path) (entries : List Entry) : List Entry :=
  entries.filter fun entry => Node.owner? trees entry.1 = owner?

def queriesOf (entries : List Entry) : List Entry := entries.filter (·.2.holdsQuery)

theorem queriesOf_cons (entry : Entry) (entries : List Entry) : queriesOf (entry :: entries) =
    if entry.2.construct.isQuery then entry :: queriesOf entries else queriesOf entries := by
  rw [queriesOf, List.filter_cons, Node.holdsQuery_eq]
  rfl

theorem queriesOf_append (entries entries' : List Entry) :
    queriesOf (entries ++ entries') = queriesOf entries ++ queriesOf entries' :=
  List.filter_append ..

def rowOf (entry : Entry) (owned : List Entry) : Row where
  id := ident entry.1
  isCommonTable := entry.2.construct = .commonTable
  type? := match entry.2.construct with
    | .statement type => some type
    | .subquery | .commonTable => some .select
    | .table _ _ | .derived _ => none
  span := entry.2.extent
  parent? := (Node.owner? trees entry.1).map ident
  mentions := owned.filterMap fun entry => match entry.2.construct with
    | .table (part :: parts) alias? => some ⟨part :: parts, alias?⟩
    | .derived (some name) => some ⟨[name], none⟩
    | .table [] _ | .derived none | .statement _ | .subquery | .commonTable => none
  commonTables := (owned.filter (·.2.construct = .commonTable)).map (ident ·.1)
  subqueries := (owned.filter fun entry => match entry.2.construct with
    | .statement _ | .subquery => true
    | .commonTable | .table _ _ | .derived _ => false).map (ident ·.1)

theorem rowOf_eq (entry : Entry) (owned : List Entry) : rowOf trees ident entry owned =
    ⟨ident entry.1, isCommonTableOf entry.2.construct, typeOf? entry.2.construct, entry.2.extent,
      (Node.owner? trees entry.1).map ident, owned.flatMap (mentionOf ·.2.construct),
      ((queriesOf owned).filter (isCommonTableOf ·.2.construct)).map (ident ·.1),
      ((queriesOf owned).filter (!isCommonTableOf ·.2.construct)).map (ident ·.1)⟩ := by
  rw [rowOf, queriesOf, List.filter_filter, List.filter_filter, List.filterMap_eq_flatMap_toList,
    Row.mk.injEq]
  refine ⟨rfl, ?_, ?_, rfl, rfl, ?_, ?_, ?_⟩
  · cases entry.2.construct <;> rfl
  · cases entry.2.construct <;> rfl
  · refine List.flatMap_congr fun entry _ => ?_
    rcases entry.2.construct with _ | _ | _ | ⟨_ | _, _⟩ | ⟨_ | _⟩ <;> rfl
  · refine congrArg _ (List.filter_congr fun entry _ => ?_)
    rw [Node.holdsQuery_eq]
    cases entry.2.construct <;> rfl
  · refine congrArg _ (List.filter_congr fun entry _ => ?_)
    rw [Node.holdsQuery_eq]
    cases entry.2.construct <;> rfl

def rowIn (entries : List Entry) (entry : Entry) : Row :=
  rowOf trees ident entry (ownedBy trees (some entry.1) entries)

structure Mirrors (owner? : Option Path) (entries : List Entry) (mentions : List Mention)
    (drafts : List Draft) : Prop where
  mentions : (ownedBy trees owner? entries).flatMap (mentionOf ·.2.construct) = mentions
  outermost : (queriesOf (ownedBy trees owner? entries)).map
    (fun entry => (ident entry.1, isCommonTableOf entry.2.construct)) =
      drafts.map fun draft => (draft.id, draft.isCommonTable)
  rows : ((allIn drafts).map row).Perm ((queriesOf entries).map (rowIn trees ident entries))

variable {trees ident} {owner? : Option Path} {entries entries' : List Entry}
  {mentions mentions' : List Mention} {drafts drafts' : List Draft}

theorem ownedBy_eq_nil (h : ∀ entry ∈ entries, Node.owner? trees entry.1 ≠ owner?) :
    ownedBy trees owner? entries = [] :=
  List.filter_eq_nil_iff.2 fun entry hentry => by simpa using h entry hentry

theorem Mirrors.nil : Mirrors trees ident owner? [] [] [] := ⟨rfl, rfl, .nil⟩

theorem Mirrors.append (h : Mirrors trees ident owner? entries mentions drafts)
    (h' : Mirrors trees ident owner? entries' mentions' drafts')
    (hapart : ∀ entry ∈ entries, ∀ other ∈ entries',
      Node.owner? trees other.1 ≠ some entry.1 ∧ Node.owner? trees entry.1 ≠ some other.1) :
    Mirrors trees ident owner? (entries ++ entries') (mentions ++ mentions')
      (drafts ++ drafts') := by
  have howned (owner? : Option Path) : ownedBy trees owner? (entries ++ entries') =
      ownedBy trees owner? entries ++ ownedBy trees owner? entries' := List.filter_append ..
  refine ⟨?_, ?_, ?_⟩
  · rw [howned, List.flatMap_append, h.mentions, h'.mentions]
  · rw [howned, queriesOf_append, List.map_append, h.outermost, h'.outermost, List.map_append]
  · have hleft : (queriesOf entries).map (rowIn trees ident (entries ++ entries')) =
        (queriesOf entries).map (rowIn trees ident entries) := by
      refine List.map_congr_left fun entry hentry => ?_
      have hnone := ownedBy_eq_nil fun other hother =>
        (hapart entry (List.mem_of_mem_filter hentry) other hother).1
      rw [rowIn, rowIn, howned, hnone, List.append_nil]
    have hright : (queriesOf entries').map (rowIn trees ident (entries ++ entries')) =
        (queriesOf entries').map (rowIn trees ident entries') := by
      refine List.map_congr_left fun other hother => ?_
      have hnone := ownedBy_eq_nil fun entry hentry =>
        (hapart entry hentry other (List.mem_of_mem_filter hother)).2
      rw [rowIn, rowIn, howned, hnone, List.nil_append]
    rw [queriesOf_append, List.map_append, hleft, hright, allIn_eq_flatMap, List.flatMap_append,
      List.map_append, ← allIn_eq_flatMap, ← allIn_eq_flatMap]
    exact h.rows.append h'.rows

variable {path : Path} {construct : Construct String} {span : Span} {children : List Tree}

theorem Mirrors.single (hquery : construct.isQuery = false)
    (howner : Node.owner? trees path = owner?) :
    Mirrors trees ident owner? [(path, .node construct span children)]
      (mentionOf construct) [] := by
  have howned : ownedBy trees owner? [(path, .node construct span children)] =
      [(path, .node construct span children)] := by simp [ownedBy, howner]
  have hnone : queriesOf [(path, .node construct span children)] = [] := by
    simp [queriesOf, Node.holdsQuery_eq, Node.construct, hquery]
  refine ⟨?_, ?_, ?_⟩
  · rw [howned, List.flatMap_singleton, Node.construct]
  · rw [howned, hnone]
    rfl
  · rw [hnone]
    exact .nil

theorem Mirrors.ids (h : Mirrors trees ident owner? entries mentions drafts) (keep : Bool → Bool) :
    ((queriesOf (ownedBy trees owner? entries)).filter
        (fun entry => keep (isCommonTableOf entry.2.construct))).map (ident ·.1) =
      (drafts.filter fun draft => keep draft.isCommonTable).map Draft.id := by
  have hpairs := congrArg (fun pairs => (pairs.filter (keep ·.2)).map Prod.fst) h.outermost
  simpa [List.filter_map, Function.comp_def] using hpairs

theorem Mirrors.query {type : StatementType}
    (h : Mirrors trees ident (some path) entries mentions drafts)
    (htype : typeOf? construct = some type)
    (hbelow : ∀ inner ∈ entries, Node.owner? trees inner.1 ≠ Node.owner? trees path)
    (habove : ∀ inner ∈ entries, Node.owner? trees path ≠ some inner.1)
    (hself : Node.owner? trees path ≠ some path) :
    Mirrors trees ident (Node.owner? trees path)
      ((path, .node construct span children) :: entries) []
      [⟨ident path, isCommonTableOf construct, type, span,
        (Node.owner? trees path).map ident, mentions, drafts.filter (·.isCommonTable),
        drafts.filter (!·.isCommonTable)⟩] := by
  have hquery : construct.isQuery = true := by
    rw [isQuery_eq_isSome_typeOf?, htype]
    rfl
  have hmention : mentionOf construct = [] := by
    cases construct <;> first | rfl | cases htype
  have howned : ownedBy trees (Node.owner? trees path)
      ((path, .node construct span children) :: entries) =
      [(path, .node construct span children)] := by
    rw [ownedBy, List.filter_cons_of_pos (by simp)]
    exact congrArg (_ :: ·) (ownedBy_eq_nil hbelow)
  have hqueries (entries : List Entry) :
      queriesOf ((path, .node construct span children) :: entries) =
      (path, .node construct span children) :: queriesOf entries := by
    rw [queriesOf_cons, Node.construct, if_pos hquery]
  refine ⟨?_, ?_, ?_⟩
  · rw [howned, List.flatMap_singleton, Node.construct, hmention]
  · rw [howned, hqueries]
    rfl
  · have hdraft : row ⟨ident path, isCommonTableOf construct, type, span,
        (Node.owner? trees path).map ident, mentions, drafts.filter (·.isCommonTable),
        drafts.filter (!·.isCommonTable)⟩ = rowIn trees ident
          ((path, .node construct span children) :: entries)
              (path, .node construct span children) := by
      have howns : ownedBy trees (some path) ((path, .node construct span children) :: entries) =
          ownedBy trees (some path) entries := List.filter_cons_of_neg (by simpa using hself)
      rw [rowIn, howns, rowOf_eq, row, h.mentions, Node.construct, htype]
      simp only [Node.extent, Row.mk.injEq, true_and]
      exact ⟨(h.ids fun isCommonTable => isCommonTable).symm, (h.ids not).symm⟩
    have hrest : (queriesOf entries).map
          (rowIn trees ident ((path, .node construct span children) :: entries)) =
        (queriesOf entries).map (rowIn trees ident entries) := by
      refine List.map_congr_left fun inner hinner => ?_
      have hother := habove inner (List.mem_of_mem_filter hinner)
      rw [rowIn, rowIn, ownedBy, List.filter_cons_of_neg (by simpa using hother)]
      rfl
    rw [hqueries, List.map_cons, hrest, ← hdraft, allIn, allIn, List.append_nil]
    exact ((all_perm _ rfl rfl).map row).trans (h.rows.cons _)

end Rows

mutual

theorem length_queries (path : Path) (tree : Tree) :
    (queriesOf (tree.places path)).length = count tree := by
  cases tree with
  | node construct span children =>
      rw [Node.places, queriesOf_cons, Node.construct, count, ← length_queriesAll path 0 children]
      split
      · rw [List.length_cons, Nat.add_comm]
      · rw [Nat.zero_add]

theorem length_queriesAll (path : Path) (i : Nat) (trees : List Tree) :
    (queriesOf (Node.placesAll path i trees)).length = countAll trees := by
  cases trees with
  | nil => rfl
  | cons tree trees =>
      rw [Node.placesAll, queriesOf_append, List.length_append, length_queries (i :: path) tree,
        length_queriesAll path (i + 1) trees, countAll]

end

section Walk

variable {trees : List Tree} {ident : Path → Nat}

mutual

theorem mirrors_ofTree {path : Path} {i next : Nat} {tree : Tree}
    (hat : Node.at? trees (i :: path) = some tree)
    (hids : (queriesOf (tree.places (i :: path))).map (ident ·.1) = List.range' next (count tree)) :
    Mirrors trees ident (Node.owner? trees (i :: path)) (tree.places (i :: path)) (mentionsIn tree)
      (ofTree ((Node.owner? trees (i :: path)).map ident) next tree) := by
  cases tree with
  | node construct span children =>
      have hquery := isQuery_eq_isSome_typeOf? construct
      have hplace : Node.isQueryAt trees (i :: path) = construct.isQuery := by
        rw [Node.isQueryAt, hat, Option.any_some, Node.holdsQuery_eq, Node.construct]
      rw [Node.places, queriesOf_cons, Node.construct, count] at hids
      rw [Node.places, mentionsIn, ofTree]
      cases htype : typeOf? construct with
      | none =>
          rw [htype, Option.isSome_none] at hquery
          rw [hquery] at hplace hids
          rw [if_neg Bool.false_ne_true, if_neg Bool.false_ne_true, Nat.zero_add] at hids
          have howner : Node.owner? trees (0 :: i :: path) = Node.owner? trees (i :: path) := by
            rw [Node.owner?, hplace, if_neg Bool.false_ne_true]
          have hinner := mirrors_ofTrees (Node.childrenAt_of_at? hat) hids
          rw [howner] at hinner
          rw [hquery, if_neg Bool.false_ne_true]
          refine (Mirrors.single hquery rfl).append hinner ?_
          intro entry hentry other hother
          rw [List.mem_singleton.1 hentry]
          refine ⟨fun howned => ?_, Node.owner?_ne_inner hother⟩
          have htrue := Node.isQueryAt_of_owner? howned
          rw [hplace] at htrue
          cases htrue
      | some type =>
          rw [htype, Option.isSome_some] at hquery
          rw [hquery] at hplace hids
          rw [if_pos rfl, if_pos rfl, Nat.add_comm 1, List.range'_succ, List.map_cons] at hids
          obtain ⟨rfl, hrest⟩ := List.cons.inj hids
          have howner : Node.owner? trees (0 :: i :: path) = some (i :: path) := by
            rw [Node.owner?, hplace, if_pos rfl]
          have hinner := mirrors_ofTrees (Node.childrenAt_of_at? hat) hrest
          rw [howner, Option.map_some] at hinner
          rw [hquery, if_pos rfl]
          exact hinner.query htype (fun _ hentry => Node.owner?_inner_ne hentry hplace)
            (fun _ hentry => Node.owner?_ne_inner hentry)
              (Node.owner?_ne_below trees List.suffix_rfl)

theorem mirrors_ofTrees {path : Path} {i next : Nat} {nodes : List Tree}
    (hat : (Node.childrenAt trees path).drop i = nodes)
    (hids : (queriesOf (Node.placesAll path i nodes)).map (ident ·.1) =
      List.range' next (countAll nodes)) :
    Mirrors trees ident (Node.owner? trees (i :: path)) (Node.placesAll path i nodes)
      (mentionsInAll nodes) (ofTrees ((Node.owner? trees (i :: path)).map ident) next nodes) := by
  cases nodes with
  | nil => exact .nil
  | cons node nodes =>
      obtain ⟨hnode, hnodes⟩ := Node.siblings_of_drop hat
      rw [Node.placesAll, queriesOf_append, List.map_append, countAll,
        ← List.range'_append_1] at hids
      obtain ⟨hfirst, hrest⟩ := List.append_inj hids (by
        rw [List.length_map, List.length_range']
        exact length_queries _ node)
      refine (mirrors_ofTree hnode hfirst).append (mirrors_ofTrees hnodes hrest) ?_
      intro entry hentry other hother
      obtain ⟨j, hle, hbelow⟩ := Node.suffix_of_mem_placesAll hother
      have hsuffix := Node.suffix_of_mem_places hentry
      exact ⟨Node.owner?_ne_apart trees (by omega) hsuffix hbelow,
        Node.owner?_ne_apart trees (by omega) hbelow hsuffix⟩

end

end Walk

def idAt (trees : List Tree) (path : Path) : Nat :=
  ((queriesOf (Node.placesAll [] 0 trees)).map Prod.fst).idxOf path

theorem map_idAt (trees : List Tree) :
    (queriesOf (Node.placesAll [] 0 trees)).map (idAt trees ·.1) =
      List.range (queriesOf (Node.placesAll [] 0 trees)).length := by
  have hsorted : (queriesOf (Node.placesAll [] 0 trees)).Pairwise
      fun entry next => entry.1.reverse < next.1.reverse :=
    (Node.placesAll_sorted [] 0 trees).sublist List.filter_sublist
  have hnodup : ((queriesOf (Node.placesAll [] 0 trees)).map Prod.fst).Nodup := by
    refine List.pairwise_map.2 (hsorted.imp fun {entry next} hlt heq => ?_)
    rw [heq] at hlt
    exact List.lt_irrefl _ hlt
  refine List.ext_getElem (by simp) fun n hn _ => ?_
  rw [List.length_map] at hn
  rw [List.getElem_range, List.getElem_map, idAt]
  have hn' : n < ((queriesOf (Node.placesAll [] 0 trees)).map Prod.fst).length := by
    rwa [List.length_map]
  have hget : ((queriesOf (Node.placesAll [] 0 trees)).map Prod.fst)[n] =
      (queriesOf (Node.placesAll [] 0 trees))[n].1 := List.getElem_map _
  rw [← hget]
  exact hnodup.idxOf_getElem n _

end Draft

end SqlAtlas
