import SqlAtlas.Query

namespace SqlAtlas

namespace Query

theorem sizeOf_lt_of_mem {query child : Query}
    (h : child ∈ query.commonTables ++ query.subqueries) :
    sizeOf child < sizeOf query := by
  match query, h with
  | { commonTables, subqueries, .. }, h =>
      have hin : child ∈ commonTables ∨ child ∈ subqueries := List.mem_append.1 h
      rw [Query.mk.sizeOf_spec]
      rcases hin with hin | hin <;>
      · have hlt := List.sizeOf_lt_of_mem hin
        omega

theorem induct {motive : Query → Prop}
    (step : ∀ query : Query, (∀ child ∈ query.commonTables ++ query.subqueries, motive child) →
      motive query)
    (query : Query) : motive query :=
  step query fun child _ => induct step child
termination_by sizeOf query
decreasing_by
  apply sizeOf_lt_of_mem
  assumption

mutual

def preorder : Query → List Query
  | query@{ commonTables, subqueries, .. } =>
      query :: (preorderAll commonTables ++ preorderAll subqueries)

def preorderAll : List Query → List Query
  | [] => []
  | query :: queries => preorder query ++ preorderAll queries

end

theorem preorder_eq (query : Query) :
    query.preorder = query :: (preorderAll query.commonTables ++ preorderAll query.subqueries) := by
  cases query
  rfl

theorem preorderAll_append (left right : List Query) :
    preorderAll (left ++ right) = preorderAll left ++ preorderAll right := by
  induction left with
  | nil => rfl
  | cons query queries ih => rw [List.cons_append, preorderAll, preorderAll, ih, List.append_assoc]

theorem preorderAll_eq_flatMap (queries : List Query) :
    preorderAll queries = queries.flatMap preorder := by
  induction queries with
  | nil => rfl
  | cons query queries ih => rw [preorderAll, ih, List.flatMap_cons]

-- What waits stands, from the last to the first, for all that is still to come. A step takes the
-- first of that and leaves the rest: reversed twice, the queries inside come in their own order.
theorem preorderAll_of_next? {pending rest : Array Query} {query : Query}
    (h : next? pending = some (query, rest)) :
    preorderAll pending.toList.reverse = query :: preorderAll rest.toList.reverse := by
  obtain ⟨below, rfl, rfl⟩ := exists_push_of_next? h
  have hpending : (below.push query).toList.reverse = query :: below.toList.reverse := by simp
  have hrest : (below ++ query.subqueries.reverse ++ query.commonTables.reverse).toList.reverse =
      query.commonTables ++ query.subqueries ++ below.toList.reverse := by simp
  rw [hpending, hrest, preorderAll, preorder_eq, preorderAll_append, preorderAll_append,
    List.cons_append]

theorem preorderAll_of_next?_eq_none {pending : Array Query} (h : next? pending = none) :
    preorderAll pending.toList.reverse = [] := by
  obtain rfl : pending = #[] := Array.back?_eq_none_iff.1 (Option.map_eq_none_iff.1 h)
  rfl

theorem visit_eq_preorderAll (pending : Array Query) :
    visit pending = preorderAll pending.toList.reverse := by
  fun_induction visit pending with
  | case1 pending h => exact (preorderAll_of_next?_eq_none h).symm
  | case2 pending query rest h ih => rw [ih, preorderAll_of_next? h]

theorem all_eq_preorder (query : Query) : query.all = query.preorder := by
  rw [all, visit_eq_preorderAll]
  simp [preorderAll]

theorem all_eq (query : Query) :
    query.all = query :: (query.commonTables ++ query.subqueries).flatMap Query.all := by
  have hall : all = preorder := funext all_eq_preorder
  rw [hall, preorder_eq, preorderAll_eq_flatMap, preorderAll_eq_flatMap, List.flatMap_append]

end Query

end SqlAtlas
