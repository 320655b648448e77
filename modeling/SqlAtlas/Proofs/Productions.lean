import SqlAtlas.Proofs.Pieces

namespace SqlAtlas

open Computability Phrase

namespace Phrase

variable {nests : Nest → Language Piece}

theorem forms_seq {first second : Phrase} (h : first.bars = []) :
    (seq first second).forms nests = first.forms nests * second.forms nests := by
  have hwords (b : Bool) :
      (seq first second).pieces nests b = first.forms nests * second.pieces nests b := by
    ext w
    simp [mem_pieces_seq, Language.mem_mul, Fits, h]
  rw [forms, hwords, hwords, ← mul_add, ← forms]

theorem mem_forms_seq {first second : Phrase} {d : List Piece} :
    d ∈ (seq first second).forms nests ↔
      ∃ u ∈ first.forms nests, ∃ v ∈ second.forms nests,
        first.Fits (kindsOf u) (kindsOf v) ∧ u ++ v = d := by
  rw [mem_forms]
  constructor
  · rintro ⟨b, u, hu, v, hv, hfits, rfl⟩
    exact ⟨u, hu, v, mem_forms.2 ⟨b, hv⟩, hfits, rfl⟩
  · rintro ⟨u, hu, v, hv, hfits, rfl⟩
    obtain ⟨b, hv⟩ := mem_forms.1 hv
    exact ⟨b, u, hu, v, hv, hfits, rfl⟩

theorem pieces_ifElse_true {test yes no : Phrase} (h : test.excludes no = false) :
    (ifElse test yes no).pieces nests true =
      test.pieces nests true * yes.forms nests + test.pieces nests false *
        no.pieces nests true := by
  simp only [pieces, h, forms, if_true, Bool.false_eq_true, if_false]

theorem pieces_ifElse_false {test yes no : Phrase} (h : test.excludes no = false) :
    (ifElse test yes no).pieces nests false = test.pieces nests false * no.pieces nests false := by
  simp only [pieces, h, Bool.false_eq_true, if_false, zero_add]

theorem forms_ifElse {test yes no : Phrase} (h : test.excludes no = false) :
    (ifElse test yes no).forms nests =
      test.pieces nests true * yes.forms nests + test.pieces nests false * no.forms nests := by
  rw [forms, pieces_ifElse_true h, pieces_ifElse_false h, add_assoc, ← mul_add, ← forms]

theorem forms_ifElse_of_excludes {test yes no : Phrase} (h : test.excludes no = true) :
    (ifElse test yes no).forms nests = test.pieces nests true * yes.forms nests := by
  simp only [forms, pieces, h, if_true, Bool.false_eq_true, if_false, add_zero]

theorem forms_many {body : Phrase} :
    (many body).forms nests = (body.pieces nests true)∗ * body.pieces nests false :=
  zero_add _

theorem forms_need {kind : Kind} : (need kind).forms nests = {[.token kind]} := add_zero _

theorem forms_nothing : nothing.forms nests = 1 := zero_add _

theorem forms_nest {again : Nest} : (nest again).forms nests = nests again := zero_add _

theorem forms_rule {name : Rule} {body : Phrase} :
    (rule name body).forms nests = body.forms nests := rfl

theorem forms_note {role : Note} : (note role).forms nests = {[.note role]} := zero_add _

theorem forms_node {shape : Shape} {body : Phrase} :
    (node shape body).forms nests = enclose shape (body.forms nests) := by
  ext d
  rw [mem_forms]
  constructor
  · rintro ⟨b, inner, hinner, rfl⟩
    exact ⟨inner, mem_forms.2 ⟨b, hinner⟩, rfl⟩
  · rintro ⟨inner, hinner, rfl⟩
    obtain ⟨b, hinner⟩ := mem_forms.1 hinner
    exact ⟨b, inner, hinner, rfl⟩

variable (nests) in
theorem pieces_anyOf (kinds : List Kind) (setting : Setting) :
    (anyOf kinds).pieces nests true = Production.oneOf kinds setting ∧
      (anyOf kinds).pieces nests false = 1 := by
  induction kinds with
  | nil => exact ⟨rfl, rfl⟩
  | cons kind kinds ih =>
      have hex : (eat kind).excludes (anyOf kinds) = false := by
        cases kinds <;> rfl
      have hcons : anyOf (kind :: kinds) = ifElse (eat kind) nothing (anyOf kinds) := rfl
      have heat : (eat kind).pieces nests true = Production.kind kind setting ∧
        (eat kind).pieces nests false = 1 := ⟨rfl, rfl⟩
      rw [hcons, pieces_ifElse_true hex, pieces_ifElse_false hex, ih.1, ih.2, heat.1, heat.2,
        forms_nothing, mul_one, one_mul, one_mul]
      exact ⟨by simp only [Production.oneOf, List.map_cons, List.sum_cons, Pi.add_apply], rfl⟩

theorem forms_separated {kinds : List Kind} {item : Phrase} (h : item.bars = [])
    (setting : Setting) :
    (separated kinds item).forms nests =
      item.forms nests * (Production.oneOf kinds setting * item.forms nests)∗ := by
  have hany := pieces_anyOf nests kinds setting
  have hex : (anyOf kinds).excludes nothing = false := by
    simp [excludes, demand?]
  rw [separated, forms_seq h, forms_many, optional, pieces_ifElse_true hex, pieces_ifElse_false hex,
    hany.1, hany.2]
  have hnothing : nothing.pieces nests true = 0 ∧ nothing.pieces nests false = 1 := ⟨rfl, rfl⟩
  rw [hnothing.1, hnothing.2, mul_zero, add_zero, mul_one, mul_one]

theorem forms_list {item : Phrase} {production : Production} {setting : Setting}
    (h : item.bars = []) (hitem : item.forms nests = production setting) :
    (list item).forms nests = Production.list production setting := by
  have hcomma : Production.oneOf [.comma] = Production.kind .comma := add_zero _
  rw [list, forms_separated h setting, hitem, hcomma]
  rfl

theorem forms_optional_need {kind : Kind} {body : Phrase} :
    (optional (need kind) body).forms nests = {[.token kind]} * body.forms nests := by
  have hfalse : (need kind).pieces nests false = 0 := rfl
  rw [optional, forms_ifElse rfl, hfalse, zero_mul, add_zero]
  rfl

theorem forms_needParens {body : Phrase} (h : body.bars = []) :
    (needParens body).forms nests =
      {[.token .openParen]} * (body.forms nests * {[.token .closeParen]}) := by
  rw [needParens, forms_optional_need, forms_seq h, forms_need]

theorem pieces_anyBefore {kind : Kind} {kinds : List Kind} :
    (anyBefore (kind :: kinds)).pieces nests true = 1 ∧
      (anyBefore (kind :: kinds)).pieces nests false = 1 := by
  have hpeek (kind : Kind) : (accept (.before kind)).pieces nests true = 1 ∧
    (accept (.before kind)).pieces nests false = 1 := ⟨rfl, rfl⟩
  have hcons (kind : Kind) (kinds : List Kind) : anyBefore (kind :: kinds) =
    ifElse (accept (.before kind)) nothing (anyBefore kinds) := rfl
  induction kinds generalizing kind with
  | nil =>
      rw [hcons, pieces_ifElse_true rfl, pieces_ifElse_false rfl, (hpeek kind).1, (hpeek kind).2]
      exact ⟨by rw [forms_nothing, one_mul, one_mul]; exact add_zero _, one_mul _⟩
  | cons next kinds ih =>
      rw [hcons, pieces_ifElse_true rfl, pieces_ifElse_false rfl, (hpeek kind).1, (hpeek kind).2,
        ih.1, ih.2]
      exact ⟨by rw [forms_nothing, one_mul, add_idem], one_mul _⟩

theorem pieces_choice {kind : Kind} {follow : List Kind} {yes no : Phrase} (setting : Setting)
    (h : (accept (.token kind follow)).excludes no = false) :
    (ifElse (accept (.token kind follow)) yes no).pieces nests true =
        Production.kind kind setting * yes.forms nests + no.pieces nests true ∧
      (ifElse (accept (.token kind follow)) yes no).pieces nests false = no.pieces nests false := by
  have htoken : (accept (.token kind follow)).pieces nests true = Production.kind kind setting ∧
    (accept (.token kind follow)).pieces nests false = 1 := ⟨rfl, rfl⟩
  rw [pieces_ifElse_true h, pieces_ifElse_false h, htoken.1, htoken.2, one_mul, one_mul]
  exact ⟨rfl, rfl⟩

theorem forms_choice {kind : Kind} {follow : List Kind} {yes no : Phrase} (setting : Setting)
    (h : (accept (.token kind follow)).excludes no = false) :
    (ifElse (accept (.token kind follow)) yes no).forms nests =
      Production.kind kind setting * yes.forms nests + no.forms nests := by
  rw [forms, (pieces_choice setting h).1, (pieces_choice setting h).2, add_assoc, ← forms]

theorem pieces_optional {kind : Kind} {follow : List Kind} {body : Phrase} (setting : Setting) :
    (optional (accept (.token kind follow)) body).pieces nests true =
        Production.kind kind setting * body.forms nests ∧
      (optional (accept (.token kind follow)) body).pieces nests false = 1 := by
  rw [optional, (pieces_choice setting rfl).1, (pieces_choice setting rfl).2]
  exact ⟨add_zero _, rfl⟩

theorem forms_optional {kind : Kind} {follow : List Kind} {body : Phrase} (setting : Setting) :
    (optional (accept (.token kind follow)) body).forms nests =
      Production.kind kind setting * body.forms nests + 1 := by
  rw [forms, (pieces_optional setting).1, (pieces_optional setting).2]

theorem pieces_choices {kinds : List Kind} {yes no : Phrase} (setting : Setting)
    (h : (anyOf kinds).excludes no = false) :
    (ifElse (anyOf kinds) yes no).pieces nests true =
        Production.oneOf kinds setting * yes.forms nests + no.pieces nests true ∧
      (ifElse (anyOf kinds) yes no).pieces nests false = no.pieces nests false := by
  rw [pieces_ifElse_true h, pieces_ifElse_false h, (pieces_anyOf nests kinds setting).1,
    (pieces_anyOf nests kinds setting).2, one_mul, one_mul]
  exact ⟨rfl, rfl⟩

theorem forms_choices {kinds : List Kind} {yes no : Phrase} (setting : Setting)
    (h : (anyOf kinds).excludes no = false) :
    (ifElse (anyOf kinds) yes no).forms nests =
      Production.oneOf kinds setting * yes.forms nests + no.forms nests := by
  rw [forms, (pieces_choices setting h).1, (pieces_choices setting h).2, add_assoc, ← forms]

theorem forms_anyOf (kinds : List Kind) (setting : Setting) :
    (anyOf kinds).forms nests = Production.opt (Production.oneOf kinds) setting := by
  rw [forms, (pieces_anyOf nests kinds setting).1, (pieces_anyOf nests kinds setting).2]
  rfl

theorem forms_peek {kind : Kind} {yes no : Phrase} :
    (ifElse (accept (.before kind)) yes no).forms nests = yes.forms nests + no.forms nests := by
  have hpeek : (accept (.before kind)).pieces nests true = 1 ∧
    (accept (.before kind)).pieces nests false = 1 := ⟨rfl, rfl⟩
  rw [forms_ifElse rfl, hpeek.1, hpeek.2, one_mul, one_mul]

theorem forms_run {kinds : List Kind} {yes no : Phrase} :
    (ifElse (accept (.run kinds)) yes no).forms nests =
      {kinds.map .token} * yes.forms nests + no.forms nests := by
  have hrun : (accept (.run kinds)).pieces nests true = {kinds.map .token} ∧
      (accept (.run kinds)).pieces nests false = 1 := by
    refine ⟨?_, rfl⟩
    simp only [pieces, Guard.kinds, Guard.width, List.take_length]
  rw [forms_ifElse rfl, hrun.1, hrun.2, one_mul]

end Phrase

theorem singleton_mul (d d' : List Piece) : ({d} * {d'} : Language Piece) = {d ++ d'} :=
  Set.image2_singleton

theorem Production.singleton_cons (kind : Kind) (kinds : List Kind) (setting : Setting) :
    ({(kind :: kinds).map .token} : Language Piece) =
      Production.kind kind setting * {kinds.map .token} :=
  (singleton_mul [.token kind] (kinds.map .token)).symm

namespace Grammar

variable (setting : Setting)

section Expressions

theorem forms_expression :
    expression.forms setting.forms = Production.expression setting :=
  forms_nest

theorem forms_subquery : subquery.forms setting.forms = Production.subquery setting := forms_nest

theorem forms_expressionList :
    expressionList.forms setting.forms = Production.expressions setting :=
  forms_list rfl forms_nest

theorem forms_queryOrList :
    queryOrList.forms setting.forms = (Production.subquery + Production.expressions) setting := by
  rw [queryOrList, forms_ifElse rfl, Kind.queryStarts, pieces_anyBefore.1, pieces_anyBefore.2,
    one_mul, one_mul, forms_expressionList, forms_subquery]
  rfl

theorem pieces_fullColumnName :
    fullColumnName.pieces setting.forms true = Production.column setting ∧
      fullColumnName.pieces setting.forms false = 1 := by
  have hparts : (many (optional (eat .dot) (need .identifier))).forms setting.forms =
      (Production.kind .dot * Production.name)∗ setting := by
    rw [forms_many, eat, (pieces_optional setting).1, (pieces_optional setting).2, forms_need,
      mul_one]
    rfl
  change (Phrase.optional _ _).pieces setting.forms true = _ ∧
    (Phrase.optional _ _).pieces setting.forms false = 1
  rw [eat, (pieces_optional setting).1, (pieces_optional setting).2, hparts]
  exact ⟨rfl, rfl⟩

theorem forms_functionCall :
    functionCall.forms setting.forms =
      ((Production.kind .star +
          Production.opt (Production.opt (Production.word .DISTINCT) * Production.expressions)) *
        Production.kind .closeParen) setting := by
  have harguments : callArguments.forms setting.forms =
      (Production.kind .star +
        Production.opt (Production.opt (Production.word .DISTINCT) * Production.expressions))
          setting := by
    rw [callArguments, eat, forms_choice setting rfl, forms_peek, forms_nothing, forms_seq rfl,
      forms_expressionList, mul_one, add_comm 1]
    rfl
  exact (forms_seq rfl).trans (congr (congrArg _ harguments) forms_need)

theorem forms_caseBranch :
    caseBranch.forms setting.forms =
      (Production.expression * (Production.word .THEN * Production.expression)) setting := by
  simp only [caseBranch, all]
  rw [forms_seq rfl, forms_seq rfl, forms_expression, needWord, forms_need]
  rfl

theorem forms_caseExpression :
    caseExpression.forms setting.forms =
      ((Production.expression * Production.branch∗ + Production.branch * Production.branch∗) *
        (Production.opt (Production.word .ELSE * Production.expression) *
          Production.word .END)) setting := by
  have hbranches : (many (optional (word .WHEN) caseBranch)).forms setting.forms =
      Production.branch∗ setting := by
    rw [forms_many, word, eat, (pieces_optional setting).1, (pieces_optional setting).2,
      forms_caseBranch, mul_one]
    rfl
  have hstart : (ifElse (accept (.before (.keyword .WHEN))) (seq (needWord .WHEN) caseBranch)
      expression).forms setting.forms = Production.branch setting +
          Production.expression setting := by
    rw [forms_peek, forms_seq rfl, forms_caseBranch, forms_expression, needWord, forms_need]
    rfl
  change (seq _ (seq _ (seq _ (need _)))).forms setting.forms = _
  rw [forms_seq rfl, forms_seq rfl, forms_seq rfl, hbranches, hstart, forms_need, word, eat,
    forms_optional setting, forms_expression, ← mul_assoc, add_mul, add_comm]
  rfl

theorem forms_primary : primary.forms setting.forms = Production.primary setting := by
  have hcolumn := pieces_fullColumnName setting
  have hexists : exists? = accept (.token (.keyword .EXISTS) [.openParen]) := rfl
  have hfail : fail.forms setting.forms = 0 := add_zero _
  rw [primary, forms_run, forms_functionCall, forms_ifElse rfl, hcolumn.1, hcolumn.2,
    forms_choices setting rfl, word, eat, forms_choice setting rfl, forms_caseExpression, hexists,
    forms_choice setting rfl, forms_needParens rfl, forms_subquery, eat, forms_choice setting rfl,
    forms_seq rfl, forms_queryOrList, forms_need, hfail, forms_nothing, mul_one, mul_one, one_mul,
    add_zero, Production.singleton_cons .identifier _ setting, mul_assoc]
  simp only [← add_assoc]
  rfl

theorem forms_unary : unary.forms setting.forms = Production.unary setting := by
  rw [unary, forms_seq rfl, forms_many, (pieces_anyOf _ _ setting).1, (pieces_anyOf _ _ setting).2,
    mul_one, forms_primary]
  rfl

theorem forms_multiplicative :
    multiplicative.forms setting.forms = Production.multiplicative setting := by
  rw [multiplicative, forms_separated rfl setting, forms_unary]
  rfl

theorem forms_additive : additive.forms setting.forms = Production.additive setting := by
  rw [additive, forms_separated rfl setting, forms_multiplicative]
  rfl

theorem forms_setTest {otherwise : Phrase} (h : otherwise.demand? = none) :
    (setTest otherwise).forms setting.forms =
      Production.setTest setting + otherwise.forms setting.forms := by
  have hbetween : (all [additive, needWord .AND, additive]).forms setting.forms =
      (Production.additive * (Production.word .AND * Production.additive)) setting := by
    simp only [all]
    rw [forms_seq rfl, forms_seq rfl, needWord, forms_need, forms_additive]
    rfl
  have hex : (accept (.token (.keyword .BETWEEN) [])).excludes otherwise = false := by
    simp [excludes, h]
  rw [setTest, word, eat, forms_choice setting rfl, forms_needParens rfl, forms_queryOrList, word,
    eat, forms_choice setting rfl, forms_additive, word, eat, forms_choice setting hex, hbetween]
  simp only [← add_assoc]
  rfl

theorem forms_predicate : predicate.forms setting.forms = Production.predicate setting := by
  have hfail : fail.forms setting.forms = 0 := add_zero _
  have hnull : nullTest.forms setting.forms =
      (Production.opt (Production.word .NOT) * Production.word .NULL) setting := by
    rw [nullTest, forms_seq rfl, needWord, forms_need]
    rfl
  have hnot : Production.opt (Production.word .NOT) * Production.setTest =
      Production.word .NOT * Production.setTest + Production.setTest := by
    rw [Production.opt, add_mul, one_mul]
  rw [predicate, forms_seq rfl, forms_choices setting rfl, word, eat, forms_choice setting rfl,
    word, eat, forms_choice setting rfl, forms_setTest setting rfl, forms_setTest setting rfl,
    forms_additive, hnull, hfail, forms_nothing, add_zero, Production.predicate, hnot,
    Production.opt]
  simp only [← add_assoc]
  rfl

theorem forms_negation : negation.forms setting.forms = Production.negation setting := by
  have hnot : (word .NOT).pieces setting.forms false = 1 := rfl
  rw [negation, forms_seq rfl, forms_many, hnot, mul_one, forms_predicate]
  rfl

theorem forms_conjunction : conjunction.forms setting.forms = Production.conjunction setting := by
  have hand : Production.oneOf [.keyword .AND] = Production.word .AND := add_zero _
  rw [conjunction, forms_separated rfl setting, forms_negation, hand]
  rfl

theorem forms_disjunction : disjunction.forms setting.forms = Production.disjunction setting := by
  have hor : Production.oneOf [.keyword .OR] = Production.word .OR := add_zero _
  rw [disjunction, forms_separated rfl setting, forms_conjunction, hor]
  rfl

end Expressions

section Queries

theorem forms_columnNameList : columnNameList.forms setting.forms = Production.names setting :=
  forms_list rfl forms_need

theorem forms_columnAlias : columnAlias.forms setting.forms = Production.columnAlias setting := by
  have hafter :
      (ifElse (anyOf [.identifier, .string]) nothing (need .identifier)).forms setting.forms =
      Production.oneOf [.identifier, .string] setting := by
    rw [forms_ifElse_of_excludes rfl, (pieces_anyOf _ _ setting).1, forms_nothing, mul_one]
  rw [columnAlias, word, eat, forms_choice setting rfl, forms_rule, forms_rule, hafter,
    forms_anyOf _ setting, Production.columnAlias, Production.opt, Production.opt, Production.opt,
    add_mul, one_mul, add_assoc]
  rfl

theorem forms_tableAlias : tableAlias.forms setting.forms = Production.tableAlias setting := by
  have hname : Production.kind .identifier setting * {[.note .alias]} =
      Production.nameAs .alias setting :=
    singleton_mul _ _
  have hafter : (ifElse (eat .identifier) (note .alias) (need .identifier)).forms setting.forms =
      Production.nameAs .alias setting := by
    rw [forms_ifElse_of_excludes rfl, forms_note]
    exact hname
  rw [tableAlias, word, eat, forms_choice setting rfl, forms_rule, forms_rule, hafter, eat,
    forms_optional setting, forms_note, hname, Production.tableAlias, Production.opt,
    Production.opt, add_mul, one_mul, add_assoc]
  rfl

theorem pieces_namePart :
    namePart.pieces setting.forms true = Production.nameAs .part setting ∧
      namePart.pieces setting.forms false = 0 := by
  have hforms : namePart.forms setting.forms = Production.nameAs .part setting := by
    rw [namePart, forms_ifElse_of_excludes rfl, forms_note]
    exact singleton_mul _ _
  have hfalse : namePart.pieces setting.forms false = 0 := add_zero _
  rw [forms, hfalse, add_zero] at hforms
  exact ⟨hforms, hfalse⟩

theorem forms_dottedName (more : Nat) :
    (dottedName more).forms setting.forms = Production.dotted more setting := by
  have hpart := pieces_namePart setting
  induction more with
  | zero => rw [dottedName, forms, hpart.1, hpart.2, add_zero, Production.dotted]
  | succ more ih =>
      rw [dottedName, Phrase.optional, forms_ifElse rfl, hpart.1, hpart.2, zero_mul, add_zero, eat,
        forms_optional setting, ih, Production.dotted]
      rfl

theorem forms_tableName : tableName.forms setting.forms = Production.tableName setting :=
  forms_dottedName setting 3

theorem forms_derivedTable :
    derivedTable.forms setting.forms =
      Production.construct .derived (Production.parens Production.subquery * Production.tableAlias)
        setting := by
  simp only [derivedTable, forms_node, all]
  rw [forms_seq rfl, forms_seq rfl, forms_seq rfl, forms_need, forms_need, forms_subquery,
    forms_tableAlias, Production.construct, Production.parens, mul_assoc, mul_assoc]
  rfl

theorem forms_tableSourceItem :
    tableSourceItem.forms setting.forms = Production.tableItem setting := by
  rw [tableSourceItem, forms_rule, forms_peek, forms_node, forms_seq rfl, forms_derivedTable,
    forms_tableName, forms_tableAlias]
  rfl

theorem pieces_joinType :
    joinType.pieces setting.forms true = Production.joinType setting ∧
      joinType.pieces setting.forms false = 1 := by
  have hside : (Phrase.optional (anyOf [.keyword .LEFT, .keyword .RIGHT, .keyword .FULL])
      (word .OUTER)).pieces setting.forms true =
        (Production.oneOf [.keyword .LEFT, .keyword .RIGHT, .keyword .FULL] *
          Production.opt (Production.word .OUTER)) setting ∧
      (Phrase.optional (anyOf [.keyword .LEFT, .keyword .RIGHT, .keyword .FULL])
        (word .OUTER)).pieces setting.forms false = 1 := by
    rw [Phrase.optional, (pieces_choices setting rfl).1, (pieces_choices setting rfl).2]
    exact ⟨add_zero _, rfl⟩
  rw [joinType, word, eat, (pieces_choice setting rfl).1, (pieces_choice setting rfl).2, hside.1,
    hside.2, forms_nothing, mul_one]
  exact ⟨rfl, rfl⟩

theorem forms_joined :
    (seq tableSourceItem joinCondition).forms setting.forms =
      (Production.tableItem * (Production.word .ON * Production.expression)) setting := by
  rw [forms_seq rfl, forms_tableSourceItem, joinCondition, needWord, forms_optional_need,
    forms_expression]
  rfl

theorem pieces_joinPart :
    joinPart.pieces setting.forms true = Production.join setting ∧
      joinPart.pieces setting.forms false = 1 := by
  have htype := pieces_joinType setting
  have hjoin : (all [needWord .JOIN, tableSourceItem, joinCondition]).forms setting.forms =
      (Production.word .JOIN *
        (Production.tableItem * (Production.word .ON * Production.expression))) setting := by
    change (seq (need _) (seq tableSourceItem joinCondition)).forms setting.forms = _
    rw [forms_seq rfl, forms_need, forms_joined]
    rfl
  have hcross : (seq (needWord .JOIN) tableSourceItem).forms setting.forms =
      (Production.word .JOIN * Production.tableItem) setting := by
    rw [forms_seq rfl, needWord, forms_need, forms_tableSourceItem]
    rfl
  have hcrossJoin : crossJoin? = accept (.token (.keyword .CROSS) [.keyword .JOIN]) := rfl
  change (ifElse _ _ _).pieces setting.forms true = _ ∧
    (ifElse _ _ _).pieces setting.forms false = _
  rw [hcrossJoin, (pieces_choice setting rfl).1, (pieces_choice setting rfl).2, hcross,
    pieces_ifElse_true rfl, pieces_ifElse_false rfl, htype.1, htype.2, hjoin, word, eat,
    (pieces_optional setting).1, (pieces_optional setting).2, one_mul, one_mul, forms_joined,
    Production.join, Production.opt, add_mul, one_mul]
  exact ⟨rfl, rfl⟩

theorem forms_tableSource : tableSource.forms setting.forms = Production.tableSource setting := by
  have hjoin := pieces_joinPart setting
  change (seq tableSourceItem (many joinPart)).forms setting.forms = _
  rw [forms_seq rfl, forms_many, hjoin.1, hjoin.2, mul_one, forms_tableSourceItem]
  rfl

theorem forms_tableSources : tableSources.forms setting.forms = Production.tableSources setting :=
  forms_list rfl (forms_tableSource setting)

theorem forms_columnElem : columnElem.forms setting.forms = Production.columnElem setting := by
  rw [columnElem, forms_rule, eat, forms_choice setting rfl, forms_run, forms_seq rfl,
    forms_expression, forms_columnAlias, forms_nothing, mul_one, mul_one,
    Production.singleton_cons _ _ setting, Production.singleton_cons _ _ setting, ← add_assoc]
  rfl

theorem forms_selectList : selectList.forms setting.forms = Production.selectList setting :=
  forms_list rfl (forms_columnElem setting)

theorem forms_selection :
    (all [selectList, Phrase.optional (word .FROM) tableSources,
      Phrase.optional (word .WHERE) expression, Phrase.optional groupBy? groupByClause,
      Phrase.optional (word .HAVING) expression]).forms setting.forms =
        Production.selection setting := by
  have hgroup : groupByClause.forms setting.forms =
      (Production.word .BY * Production.expressions) setting := by
    rw [groupByClause, forms_rule, forms_seq rfl, needWord, forms_need, forms_expressionList]
    rfl
  have hgroupBy : groupBy? = accept (.token (.keyword .GROUP) [.keyword .BY]) := rfl
  simp only [all, word, eat, hgroupBy]
  rw [forms_seq rfl, forms_seq rfl, forms_seq rfl, forms_seq rfl, forms_optional setting,
    forms_optional setting, forms_optional setting, forms_optional setting, forms_selectList,
    forms_tableSources, forms_expression, hgroup]
  rfl

variable {setting} in
theorem forms_topped (hcalls : setting.callsOnly) {second : Phrase} {production : Production}
    (h : second.forms setting.forms = production setting) :
    (seq (Phrase.optional (word .TOP) primary) second).forms setting.forms =
      (Production.word .TOP * Production.beside Production.primary production + production)
        setting := by
  have hbars : (Phrase.optional (word .TOP) primary).bars =
    [([.keyword .TOP, .identifier], .openParen)] := rfl
  have htop : (Phrase.optional (word .TOP) primary).forms setting.forms =
      Production.word .TOP setting * Production.primary setting + 1 := by
    rw [word, eat, forms_optional setting, forms_primary]
    rfl
  ext w
  rw [mem_forms_seq, htop, h]
  constructor
  · rintro ⟨_, ⟨_, rfl, u, hu, rfl⟩ | rfl, v, hv, hfits, rfl⟩
    · refine .inl ⟨_, rfl, u ++ v, ⟨u, hu, v, hv, fun _ => ?_, rfl⟩, rfl⟩
      rintro ⟨hname, hhead⟩
      exact hfits _ hhead (by simp [hbars, kindsOf, Piece.kinds, hname])
    · exact .inr hv
  · rintro (⟨_, rfl, _, ⟨u, hu, v, hv, hfits, rfl⟩, rfl⟩ | hw)
    · refine ⟨_, .inl ⟨_, rfl, u, hu, rfl⟩, v, hv, fun kind hhead hmem => ?_, rfl⟩
      simp only [hbars, List.mem_singleton, Prod.mk.injEq, List.cons_append, List.nil_append,
        kindsOf, Piece.kinds, List.cons.injEq, true_and] at hmem
      obtain ⟨hname, rfl⟩ := hmem
      exact hfits hcalls ⟨hname, hhead⟩
    · exact ⟨[], .inr rfl, w, hw, by simp [Fits, hbars], rfl⟩

variable {setting} (hcalls : setting.callsOnly)
include hcalls

theorem forms_querySpecification :
    querySpecification.forms setting.forms = Production.specification setting := by
  change (Phrase.optional (need _) (seq (anyOf _) (seq _ (all [selectList,
      Phrase.optional (word .FROM) tableSources, Phrase.optional (word .WHERE) expression,
      Phrase.optional groupBy? groupByClause,
      Phrase.optional (word .HAVING) expression])))).forms setting.forms = _
  rw [forms_optional_need, forms_seq rfl, forms_anyOf _ setting,
    forms_topped hcalls (forms_selection setting)]
  rfl

omit hcalls in
variable (setting) in
theorem pieces_setOperator :
    setOperator.pieces setting.forms true = Production.setOperator setting ∧
      setOperator.pieces setting.forms false = 1 := by
  rw [setOperator, word, eat, (pieces_choice setting rfl).1, (pieces_choice setting rfl).2,
    (pieces_anyOf _ _ setting).1, (pieces_anyOf _ _ setting).2]
  exact ⟨rfl, rfl⟩

theorem forms_queryExpression :
    queryExpression.forms setting.forms =
      (Production.specification * (Production.setOperator * Production.specification)∗)
        setting := by
  have hset := pieces_setOperator setting
  have hspec := forms_querySpecification hcalls
  have hmore : (Phrase.optional setOperator querySpecification).pieces setting.forms true =
      (Production.setOperator * Production.specification) setting ∧
      (Phrase.optional setOperator querySpecification).pieces setting.forms false = 1 := by
    rw [Phrase.optional, pieces_ifElse_true rfl, pieces_ifElse_false rfl, hset.1, hset.2, hspec,
      one_mul, one_mul]
    exact ⟨add_zero _, rfl⟩
  rw [queryExpression, forms_rule, forms_seq rfl, hspec, forms_many, hmore.1, hmore.2, mul_one]
  rfl

omit hcalls in
theorem forms_orderByClause :
    orderByClause.forms setting.forms =
      (Production.word .BY * Production.list Production.orderElem) setting := by
  have helem : orderByElem.forms setting.forms = Production.orderElem setting := by
    rw [orderByElem, forms_rule, forms_seq rfl, forms_expression, forms_anyOf _ setting]
    rfl
  rw [orderByClause, forms_rule, forms_seq rfl, needWord, forms_need, forms_list rfl helem]
  rfl

theorem forms_selectStatement :
    selectStatement.forms setting.forms = Production.select setting := by
  have hwith : withClause.forms setting.forms = Production.list Production.commonTable setting :=
    forms_list rfl forms_nest
  have horderBy : orderBy? = accept (.token (.keyword .ORDER) [.keyword .BY]) := rfl
  simp only [selectStatement, forms_rule, all, word, eat, horderBy]
  rw [forms_seq rfl, forms_seq rfl, forms_optional setting, forms_optional setting, hwith,
    forms_queryExpression hcalls, forms_orderByClause]
  rfl

theorem forms_commonTable :
    commonTable.forms setting.forms = Production.commonTableBody setting := by
  simp only [commonTable, forms_node, all, needWord, eat]
  rw [forms_seq rfl, forms_seq rfl, forms_seq rfl, forms_optional setting, forms_seq rfl,
    forms_columnNameList, forms_need, forms_need, forms_need, forms_needParens rfl,
    forms_selectStatement hcalls]
  rfl

theorem forms_body (again : Nest) :
    (body again).forms setting.forms = Production.body again setting := by
  cases again with
  | expression => exact forms_disjunction setting
  | subquery => exact forms_node.trans (congrArg _ (forms_selectStatement hcalls))
  | commonTable => exact forms_commonTable hcalls

end Queries

section Scripts

theorem pieces_sights {kind kind' : Kind} :
    (firstOf ([kind, kind'].map fun kind => accept (.sight [.openParen, kind]))).pieces
        setting.forms true = 1 ∧
      (firstOf ([kind, kind'].map fun kind => accept (.sight [.openParen, kind]))).pieces
        setting.forms false = 1 := by
  have hsight (kind : Kind) : (accept (.sight [.openParen, kind])).pieces setting.forms true = 1 ∧
    (accept (.sight [.openParen, kind])).pieces setting.forms false = 1 := ⟨rfl, rfl⟩
  simp only [List.map_cons, List.map_nil, firstOf]
  rw [pieces_ifElse_true rfl, pieces_ifElse_false rfl, pieces_ifElse_true rfl,
    pieces_ifElse_false rfl, (hsight kind).1, (hsight kind).2, (hsight kind').1, (hsight kind').2,
    forms_nothing]
  simp only [one_mul]
  exact ⟨by rw [show nothing.pieces setting.forms true = 0 from rfl, add_zero, add_idem], rfl⟩

theorem forms_insertColumns :
    insertColumns.forms setting.forms =
      Production.opt (Production.parens Production.names) setting := by
  have hcolumns : (Phrase.optional (eat .openParen)
      (seq columnNameList (need .closeParen))).forms setting.forms =
        Production.parens Production.names setting + 1 := by
    rw [eat, forms_optional setting, forms_seq rfl, forms_columnNameList, forms_need]
    rfl
  rw [insertColumns, forms_ifElse rfl, Kind.queryStarts, (pieces_sights setting).1,
    (pieces_sights setting).2, hcolumns, forms_nothing, one_mul, one_mul, add_left_comm, add_idem]
  rfl

theorem forms_insertSource :
    insertSource.forms setting.forms =
      (Production.word .VALUES * Production.list (Production.parens Production.expressions) +
        Production.parens Production.subquery + Production.subquery) setting := by
  have hrow : (needParens expressionList).forms setting.forms =
      Production.parens Production.expressions setting := by
    rw [forms_needParens rfl, forms_expressionList]
    rfl
  have hfail : fail.forms setting.forms = 0 := add_zero _
  rw [insertSource, word, eat, forms_choice setting rfl, forms_list rfl hrow, eat,
    forms_choice setting rfl, forms_seq rfl, forms_subquery, forms_need, forms_ifElse rfl,
    Kind.queryStarts, pieces_anyBefore.1, pieces_anyBefore.2, hfail, mul_zero, add_zero, one_mul,
    forms_subquery, ← add_assoc]
  rfl

theorem forms_tableReference : tableReference.forms setting.forms = Production.target setting :=
  forms_node.trans (congrArg _ (forms_tableName setting))

theorem forms_insertStatement :
    insertStatement.forms setting.forms = Production.insert setting := by
  simp only [insertStatement, forms_rule, all, needWord]
  rw [forms_seq rfl, forms_seq rfl, forms_seq rfl, forms_seq rfl, forms_need, forms_tableReference,
    forms_insertColumns, forms_insertSource]
  rfl

theorem forms_updateStatement :
    updateStatement.forms setting.forms = Production.update setting := by
  have hcolumn := pieces_fullColumnName setting
  have hfail : fail.forms setting.forms = 0 := add_zero _
  have helem : updateElem.forms setting.forms = Production.assignment setting := by
    rw [updateElem, forms_rule, forms_ifElse rfl, hcolumn.1, hcolumn.2, forms_seq rfl, forms_need,
      forms_expression, hfail, mul_zero, add_zero]
    rfl
  simp only [updateStatement, forms_rule, all, needWord, word, eat]
  rw [forms_seq rfl, forms_seq rfl, forms_seq rfl, forms_seq rfl, forms_seq rfl, forms_need,
    forms_tableReference, forms_need, forms_list rfl helem, forms_optional setting,
    forms_optional setting, forms_tableSources, forms_expression]
  rfl

theorem forms_deleteStatement :
    deleteStatement.forms setting.forms = Production.delete setting := by
  simp only [deleteStatement, forms_rule, all, needWord, word, eat]
  rw [forms_seq rfl, forms_seq rfl, forms_seq rfl, forms_need, forms_tableReference,
    forms_optional setting, forms_expression]
  rfl

variable {setting} (hcalls : setting.callsOnly)
include hcalls

theorem forms_statement : statement.forms setting.forms = Production.statement setting := by
  have hstarts (word : Keyword) : (starts? word).pieces setting.forms true = 1 ∧
    (starts? word).pieces setting.forms false = 1 := ⟨rfl, rfl⟩
  rw [statement, forms_rule, forms_ifElse rfl, forms_ifElse rfl, forms_ifElse rfl, (hstarts _).1,
    (hstarts _).2, (hstarts _).1, (hstarts _).2, (hstarts _).1, (hstarts _).2, forms_node,
    forms_node, forms_node, forms_node, forms_insertStatement, forms_updateStatement,
    forms_deleteStatement, forms_selectStatement hcalls]
  simp only [one_mul, ← add_assoc]
  rfl

theorem forms_script : script.forms setting.forms = Production.file setting := by
  have hstarts : (anyBefore Kind.statementStarts).pieces setting.forms true = 1 ∧
    (anyBefore Kind.statementStarts).pieces setting.forms false = 1 := pieces_anyBefore
  have hitem : scriptItem.pieces setting.forms true =
      Production.kind .semicolon setting + Production.statement setting ∧
      scriptItem.pieces setting.forms false = 1 := by
    rw [scriptItem, eat, (pieces_choice setting rfl).1, (pieces_choice setting rfl).2,
      pieces_ifElse_true rfl, pieces_ifElse_false rfl, hstarts.1, hstarts.2, forms_statement hcalls,
      forms_nothing, mul_one, one_mul, one_mul, one_mul]
    exact ⟨congrArg _ (add_zero _), rfl⟩
  rw [script, forms_rule, forms_many, hitem.1, hitem.2, mul_one]
  rfl

end Scripts

section Words

theorem text_eq {phrase : Phrase} {production : Production} {setting : Setting}
    (h : phrase.forms setting.forms = production setting) :
    phrase.text setting.words = erase (production setting) :=
  (erase_forms phrase).symm.trans (congrArg erase h)

theorem text_tableReference (setting : Setting) :
    tableReference.text setting.words = erase (Production.tableName setting) :=
  (text_eq (forms_tableReference setting)).trans (erase_enclose _ _)

theorem text_body (levels : Nat) (again : Nest) :
    (body again).text (Setting.upTo True levels).words =
      (Setting.upTo True (levels + 1)).words again :=
  text_eq (forms_body (Setting.callsOnly_upTo levels) again)

theorem text_script (levels : Nat) :
    script.text (Setting.upTo True levels).words =
      erase (Production.file (Setting.upTo True levels)) :=
  text_eq (forms_script (Setting.callsOnly_upTo levels))

end Words

end Grammar

end SqlAtlas
