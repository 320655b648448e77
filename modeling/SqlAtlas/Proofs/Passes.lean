import SqlAtlas.Proofs.Gathering
import SqlAtlas.Proofs.Offers

namespace SqlAtlas

namespace Gathering

theorem addPass_twice (typed : String) (table column : Bool) (texts texts' : List String) :
    ∃ first second : List String,
      (((begin typed).addPass table false texts).addPass false column texts').suggestions =
        (if table then [.table] else []) ++ first.map .keyword ++
          (if column then [.column] else []) ++ second.map .keyword ∧
      first ⊆ texts ∧ second ⊆ texts' ∧ ∀ text, text ∈ first ∨ text ∈ second ↔
        (text ∈ texts ∨ text ∈ texts') ∧ Text.upper typed.toList <+: Text.upper text.toList := by
  obtain ⟨hknows, hfirst⟩ := (knows_begin typed).addPass table false texts
  obtain ⟨-, hsecond⟩ := hknows.addPass false column texts'
  refine ⟨firsts (Text.upper typed.toList) [] texts,
    firsts (Text.upper typed.toList) ([] ++ texts) texts', ?_,
    fun text h => (mem_firsts.1 h).1, fun text h => (mem_firsts.1 h).1, fun text => ?_⟩
  · rw [hsecond, hfirst]
    simp [marked, begin, addPass]
  · rw [← List.mem_append, ← firsts_append, mem_firsts, List.mem_append]
    simp

end Gathering

namespace Rule

theorem any_mem_of_subset {rules group : List Rule} (h : rules ⊆ group) :
    rules.any (· ∈ group) = !rules.isEmpty := by
  cases rules with
  | nil => rfl
  | cons rule rules => simp [h List.mem_cons_self]

theorem any_ofColumns {rules : List Rule} (h : rules ⊆ ofTables) :
    rules.any (· ∈ ofColumns) = false := by
  have hapart : ∀ rule ∈ ofTables, rule ∉ ofColumns := by decide
  simpa using fun rule hrule => hapart rule (h hrule)

theorem any_ofTables {rules : List Rule} (h : rules ⊆ ofColumns) :
    rules.any (· ∈ ofTables) = false := by
  have hapart : ∀ rule ∈ ofColumns, rule ∉ ofTables := by decide
  simpa using fun rule hrule => hapart rule (h hrule)

end Rule

namespace Dialect

theorem complete_eq_some {script : String} {offset? : Option Nat} {options : List Suggestion}
    (h : generic.complete script offset? = some options) :
    let offset := offset?.getD script.utf8ByteSize
    let visible := Caret.visible offset script
    let tokens := (generic.lex visible).tokens
    ∃ caret, Caret.place? tokens script offset = some caret ∧
      let tables := generic.collect (generic.request visible tokens caret.token .tables)
      let columns := generic.collect (generic.request visible tokens caret.token .columns)
      options = ((generic.addCandidates (generic.addCandidates (Gathering.begin caret.typed) tables)
        columns)).suggestions := by
  intro offset visible tokens
  obtain ⟨plan, hplan, rfl⟩ := Option.map_eq_some_iff.1 h
  obtain ⟨caret, hcaret, rfl⟩ := Option.map_eq_some_iff.1 hplan
  exact ⟨caret, hcaret, rfl⟩

theorem addCandidates_tables {candidates : Candidates Kind Rule}
    (h : candidates.rules ⊆ Rule.ofTables) (gathering : Gathering) :
    generic.addCandidates gathering candidates =
      gathering.addPass (!candidates.rules.isEmpty) false
        (candidates.tokens.map generic.textOf) := by
  rw [← Rule.any_mem_of_subset h, ← Rule.any_ofColumns h]
  rfl

theorem addCandidates_columns {candidates : Candidates Kind Rule}
    (h : candidates.rules ⊆ Rule.ofColumns) (gathering : Gathering) :
    generic.addCandidates gathering candidates =
      gathering.addPass false (!candidates.rules.isEmpty)
        (candidates.tokens.map generic.textOf) := by
  rw [← Rule.any_mem_of_subset h, ← Rule.any_ofTables h]
  rfl

end Dialect

theorem complete_passes (script : String) (offset? : Option Nat) (options : List Suggestion)
    (h : Dialect.generic.complete script offset? = some options) :
    let offset := offset?.getD script.utf8ByteSize
    let visible := Caret.visible offset script
    let tokens := (Dialect.generic.lex visible).tokens
    ∃ caret, Caret.place? tokens script offset = some caret ∧
      let free := Dialect.generic.collect
        ⟨.tables, visible, tokens, caret.token, [], Dialect.generic.ignored⟩
      let tables := Dialect.generic.collect
        ⟨.tables, visible, tokens, caret.token, Rule.ofTables, Dialect.generic.ignored⟩
      let columns := Dialect.generic.collect
        ⟨.columns, visible, tokens, caret.token, Rule.ofColumns, Dialect.generic.ignored⟩
      (∀ text, .keyword text ∈ options ↔ text ∈ free.tokens.map Dialect.generic.textOf ∧
        Text.upper caret.typed.toList <+: Text.upper text.toList) ∧
      ∃ first second : List String,
        options = (if tables.rules.isEmpty then [] else [.table]) ++ first.map .keyword ++
          (if columns.rules.isEmpty then [] else [.column]) ++ second.map .keyword ∧
        first ⊆ tables.tokens.map Dialect.generic.textOf ∧
        second ⊆ columns.tokens.map Dialect.generic.textOf := by
  intro offset visible tokens
  obtain ⟨caret, hcaret, hsuggestions⟩ := Dialect.complete_eq_some h
  refine ⟨caret, hcaret, ?_⟩
  intro free tables columns
  have htables : tables.rules ⊆ Rule.ofTables := Input.rules_read_subset _ _ _ _
  have hcolumns : columns.rules ⊆ Rule.ofColumns := Input.rules_read_subset _ _ _ _
  have hfree (candidate : Kind × List Kind) :
      candidate ∈ free.tokens ↔ candidate ∈ tables.tokens ∨ candidate ∈ columns.tokens :=
    Input.mem_tokens_passes _ _ _ candidate
  obtain ⟨first, second, hlist, hfirst, hsecond, hmem⟩ := Gathering.addPass_twice caret.typed
    (!tables.rules.isEmpty) (!columns.rules.isEmpty) (tables.tokens.map Dialect.generic.textOf)
    (columns.tokens.map Dialect.generic.textOf)
  have hoptions : options = (if tables.rules.isEmpty then [] else [.table]) ++ first.map .keyword ++
      (if columns.rules.isEmpty then [] else [.column]) ++ second.map .keyword := by
    refine hsuggestions.trans ?_
    change (Dialect.generic.addCandidates (Dialect.generic.addCandidates _ tables)
      columns).suggestions = _
    rw [Dialect.addCandidates_tables htables, Dialect.addCandidates_columns hcolumns, hlist]
    cases tables.rules.isEmpty <;> cases columns.rules.isEmpty <;> rfl
  refine ⟨fun text => ?_, first, second, hoptions, hfirst, hsecond⟩
  have hkeyword : .keyword text ∈ options ↔ text ∈ first ∨ text ∈ second := by
    rw [hoptions]
    cases tables.rules.isEmpty <;> cases columns.rules.isEmpty <;> simp
  have htexts : text ∈ free.tokens.map Dialect.generic.textOf ↔
      text ∈ tables.tokens.map Dialect.generic.textOf ∨
        text ∈ columns.tokens.map Dialect.generic.textOf := by
    simp only [List.mem_map, hfree, or_and_right, exists_or]
  rw [hkeyword, htexts]
  exact hmem text

theorem complete_passes_order :
    Dialect.generic.complete "SELECT a FROM t WHERE a o" (some 25) =
        some [.keyword "OR", .keyword "ORDER BY", .column] ∧
      ∃ caret, Caret.place? (lex "SELECT a FROM t WHERE a o").tokens
        "SELECT a FROM t WHERE a o" 25 =
          some caret ∧
        ∀ text, Suggestion.keyword text ∈ [.keyword "OR", .keyword "ORDER BY", .column] ↔
          text ∈ (Dialect.generic.collect ⟨.tables, "SELECT a FROM t WHERE a o",
            (lex "SELECT a FROM t WHERE a o").tokens, caret.token, [],
            Dialect.generic.ignored⟩).tokens.map Dialect.generic.textOf ∧
          Text.upper caret.typed.toList <+: Text.upper text.toList := by
  have hcomplete : Dialect.generic.complete "SELECT a FROM t WHERE a o" (some 25) =
      some [.keyword "OR", .keyword "ORDER BY", .column] := by decide +kernel
  have hvisible : Caret.visible 25 "SELECT a FROM t WHERE a o" = "SELECT a FROM t WHERE a o" := by
    decide +kernel
  obtain ⟨caret, hcaret, hkeywords, -⟩ := complete_passes _ _ _ hcomplete
  rw [Option.getD_some, hvisible] at hcaret hkeywords
  exact ⟨hcomplete, caret, hcaret, hkeywords⟩

end SqlAtlas
