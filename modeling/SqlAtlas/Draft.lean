import SqlAtlas.Table
import SqlAtlas.Tree

namespace SqlAtlas

structure Draft where
  id : Nat
  isCommonTable : Bool
  type : StatementType
  span : Span
  parent? : Option Nat
  mentions : List Mention
  commonTables : List Draft
  subqueries : List Draft
  deriving Repr

namespace Draft

def typeOf? : Construct String → Option StatementType
  | .statement type => some type
  | .subquery | .commonTable => some .select
  | .table _ _ | .derived _ => none

def isCommonTableOf : Construct String → Bool
  | .commonTable => true
  | _ => false

def mentionOf : Construct String → List Mention
  | .table name alias? => if name = [] then [] else [⟨name, alias?⟩]
  | .derived (some name) => [⟨[name], none⟩]
  | _ => []

def adopt (draft child : Draft) : Draft :=
  if child.isCommonTable then { draft with commonTables := draft.commonTables ++ [child] }
  else { draft with subqueries := draft.subqueries ++ [child] }

end Draft

/-- The drafts of a script under way: the queries that are entered and not yet left, from the
innermost out, and those that are left and in no other query. -/
structure Drafting where
  next : Nat
  entered : List Draft
  finished : List Draft
  deriving Repr

namespace Drafting

def start : Drafting := ⟨0, [], []⟩

def innermost? (drafting : Drafting) : Option Nat := drafting.entered.head?.map Draft.id

def enter (construct : Construct String) (span : Span) (drafting : Drafting) : Drafting :=
  match Draft.typeOf? construct, drafting.entered with
  | some type, entered =>
      let draft : Draft :=
        ⟨drafting.next, Draft.isCommonTableOf construct, type, span,
          drafting.innermost?, [], [], []⟩
      { drafting with next := drafting.next + 1, entered := draft :: entered }
  | none, [] => drafting
  | none, draft :: outer =>
      let mentions := draft.mentions ++ Draft.mentionOf construct
      { drafting with entered := { draft with mentions := mentions } :: outer }

def exit (construct : Construct String) (_ : Span) (drafting : Drafting) : Drafting :=
  if construct.isQuery then
    match drafting.entered with
    | [] => drafting
    | [draft] => { drafting with entered := [], finished := drafting.finished ++ [draft] }
    | draft :: parent :: outer => { drafting with entered := parent.adopt draft :: outer }
  else drafting

def visitor : Node.Visitor String Span Drafting := ⟨enter, exit⟩

end Drafting

def Draft.ofScript (trees : List Tree) : List Draft :=
  (Node.walkAll Drafting.visitor trees Drafting.start).finished

end SqlAtlas
