import Mathlib.Data.List.Induction
import Mathlib.Data.List.Nodup
import SqlAtlas.Completion

namespace SqlAtlas

namespace Gathering

variable {typed : List Char} {earlier earlier' texts texts' : List String} {text : String}

def firsts (typed : List Char) (earlier texts : List String) : List String :=
  (texts.zipIdx.filter fun place =>
    typed <+: Text.upper place.1.toList ∧ place.1 ∉ earlier ++ texts.take place.2).map Prod.fst

theorem suggest_eq (typed : List Char) (done : List String × List Suggestion) (text : String) :
    suggest typed done text = if typed <+: Text.upper text.toList ∧ text ∉ done.1 then
      (text :: done.1, done.2 ++ [.keyword text]) else done := by
  rw [suggest, accepts]
  refine if_congr ?_ rfl rfl
  rw [Bool.and_eq_true, List.isPrefixOf_iff_prefix, List.contains_eq_mem, Bool.not_eq_true',
    decide_eq_false_iff_not]

theorem firsts_nil (typed : List Char) (earlier : List String) : firsts typed earlier [] = [] := rfl

theorem firsts_append (typed : List Char) (earlier texts texts' : List String) :
    firsts typed earlier (texts ++ texts') =
      firsts typed earlier texts ++ firsts typed (earlier ++ texts) texts' := by
  unfold firsts
  rw [List.zipIdx_append, List.filter_append, List.map_append]
  congr 1
  · refine congrArg _ (List.filter_congr fun place hplace => ?_)
    have hlt : place.2 < texts.length := by simpa using (List.mem_zipIdx hplace).2.1
    rw [List.take_append_of_le_length (Nat.le_of_lt hlt)]
  · rw [Nat.zero_add, List.zipIdx_eq_map_add, List.filter_map, List.map_map]
    refine congrArg _ (List.filter_congr fun place _ => ?_)
    obtain ⟨text, i⟩ := place
    rw [Function.comp_apply, List.take_length_add_append, List.append_assoc]

theorem firsts_singleton (typed : List Char) (earlier : List String) (text : String) :
    firsts typed earlier [text] =
      if typed <+: Text.upper text.toList ∧ text ∉ earlier then [text] else [] := by
  rw [firsts, List.zipIdx_singleton, List.filter_singleton, List.take_zero, List.append_nil,
    Bool.cond_decide, apply_ite (List.map Prod.fst)]
  rfl

theorem mem_firsts : text ∈ firsts typed earlier texts ↔
    text ∈ texts ∧ typed <+: Text.upper text.toList ∧ text ∉ earlier := by
  induction texts using List.reverseRecOn with
  | nil => simp [firsts_nil]
  | append_singleton texts last ih =>
      rw [firsts_append, List.mem_append, ih, firsts_singleton]
      by_cases hlast : text = last
      · subst hlast
        by_cases hmem : text ∈ texts <;> simp [hmem]
      · simp [hlast]

theorem nodup_firsts (typed : List Char) (earlier texts : List String) :
    (firsts typed earlier texts).Nodup := by
  induction texts using List.reverseRecOn with
  | nil => exact .nil
  | append_singleton texts last ih =>
      rw [firsts_append, firsts_singleton]
      split
      · next hnew =>
          refine ih.append (List.nodup_singleton last) (List.disjoint_singleton.2 fun hold => ?_)
          have hmem := (mem_firsts.1 hold).1
          simp [hmem] at hnew
      · rwa [List.append_nil]

theorem firsts_congr
    (h : ∀ text : String, typed <+: Text.upper text.toList → (text ∈ earlier ↔ text ∈ earlier'))
    (texts : List String) : firsts typed earlier texts = firsts typed earlier' texts := by
  refine congrArg _ (List.filter_congr fun place _ => decide_eq_decide.2 ?_)
  refine and_congr_right fun hgoes => ?_
  rw [List.mem_append, List.mem_append, h place.1 hgoes]

theorem foldl_suggest (typed : List Char) (seen : List String) (pass : List Suggestion)
    (texts : List String) :
    let done := texts.foldl (suggest typed) (seen, pass)
    (∀ text, text ∈ done.1 ↔ text ∈ seen ∨ text ∈ firsts typed seen texts) ∧
      done.2 = pass ++ (firsts typed seen texts).map .keyword := by
  induction texts using List.reverseRecOn with
  | nil => simp [firsts_nil]
  | append_singleton texts last ih =>
      intro done
      obtain ⟨hseen, hpass⟩ := ih
      have hold (hgoes : typed <+: Text.upper last.toList) :
          last ∈ (texts.foldl (suggest typed) (seen, pass)).1 ↔ last ∈ seen ++ texts := by
        rw [hseen, mem_firsts, List.mem_append]
        by_cases hlast : last ∈ seen <;> simp [hlast, hgoes]
      have hdone : done = suggest typed (texts.foldl (suggest typed) (seen, pass)) last :=
        List.foldl_concat ..
      rw [hdone, suggest_eq, firsts_append, firsts_singleton,
        if_congr (and_congr_right fun hgoes => not_congr (hold hgoes)) rfl rfl]
      split
      · refine ⟨fun text => ?_, ?_⟩
        · rw [List.mem_cons, hseen, List.mem_append, List.mem_singleton]
          tauto
        · rw [hpass, List.map_append, List.append_assoc]
          rfl
      · rw [List.append_nil]
        exact ⟨hseen, hpass⟩

def marked (table column : Bool) (texts : List String) : List Suggestion :=
  (if column then [.column] else []) ++ (if table then [.table] else []) ++ texts.map .keyword

theorem keywords_marked (table column : Bool) (texts : List String) :
    (marked table column texts).filterMap Suggestion.keyword? = texts := by
  cases table <;> cases column <;>
    simp [marked, List.filterMap_cons, List.filterMap_map, Function.comp_def, Suggestion.keyword?]

def Knows (earlier : List String) (gathering : Gathering) : Prop :=
  ∀ text : String, gathering.typed <+: Text.upper text.toList →
    (text ∈ gathering.seen ↔ text ∈ earlier)

theorem knows_begin (typed : String) : (begin typed).Knows [] := fun _ _ => .rfl

theorem Knows.addPass {gathering : Gathering} (h : gathering.Knows earlier) (table column : Bool)
    (texts : List String) :
    (gathering.addPass table column texts).Knows (earlier ++ texts) ∧
      (gathering.addPass table column texts).suggestions =
        gathering.suggestions ++ marked table column (firsts gathering.typed earlier texts) := by
  obtain ⟨hseen, hpass⟩ := foldl_suggest gathering.typed gathering.seen [] texts
  rw [firsts_congr h] at hseen hpass
  constructor
  · intro text hgoes
    refine (hseen text).trans ?_
    change gathering.typed <+: Text.upper text.toList at hgoes
    rw [h text hgoes, mem_firsts, List.mem_append]
    by_cases hmem : text ∈ earlier <;> simp [hmem, hgoes]
  · simp only [Gathering.addPass, hpass, List.nil_append, marked]
    cases table <;> cases column <;> rfl

end Gathering

namespace Dialect

variable {κ ρ : Type} [DecidableEq ρ] (dialect : Dialect κ ρ)

def textsOf (candidates : Candidates κ ρ) : List String := candidates.tokens.map dialect.textOf

def listed (typed : List Char) (earlier : List String) (candidates : Candidates κ ρ) :
    List Suggestion :=
  Gathering.marked (candidates.rules.any (· ∈ dialect.tableRules))
    (candidates.rules.any (· ∈ dialect.columnRules))
    (Gathering.firsts typed earlier (dialect.textsOf candidates))

def listedAll (typed : List Char) : List String → List (Candidates κ ρ) → List Suggestion
  | _, [] => []
  | earlier, candidates :: passes => dialect.listed typed earlier candidates ++
      listedAll typed (earlier ++ dialect.textsOf candidates) passes

theorem suggestions_foldl {earlier : List String} {gathering : Gathering}
    (h : gathering.Knows earlier) (passes : List (Candidates κ ρ)) :
    (passes.foldl dialect.addCandidates gathering).suggestions =
      gathering.suggestions ++ dialect.listedAll gathering.typed earlier passes := by
  induction passes generalizing earlier gathering with
  | nil => rw [List.foldl_nil, listedAll, List.append_nil]
  | cons candidates passes ih =>
      obtain ⟨hknows, hsuggestions⟩ := h.addPass (candidates.rules.any (· ∈ dialect.tableRules))
        (candidates.rules.any (· ∈ dialect.columnRules)) (dialect.textsOf candidates)
      rw [List.foldl_cons, listedAll, ← List.append_assoc]
      exact (ih hknows).trans (congrArg (· ++ _) hsuggestions)

theorem keywords_listedAll (typed : List Char) (earlier : List String)
    (passes : List (Candidates κ ρ)) :
    (dialect.listedAll typed earlier passes).filterMap Suggestion.keyword? =
      Gathering.firsts typed earlier (passes.flatMap dialect.textsOf) := by
  induction passes generalizing earlier with
  | nil => rfl
  | cons candidates passes ih =>
      rw [listedAll, List.filterMap_append, ih, listed, Gathering.keywords_marked,
        List.flatMap_cons, Gathering.firsts_append]

theorem complete_eq_map (script : String) (offset? : Option Nat) :
    let offset := offset?.getD script.utf8ByteSize
    let visible := Caret.visible offset script
    let tokens := (dialect.lex visible).tokens
    dialect.complete script offset? = (Caret.place? tokens script offset).map fun caret =>
      dialect.listedAll (Text.upper caret.typed.toList) []
        ([.tables, .columns].map fun focus =>
          dialect.collect (dialect.request visible tokens caret.token focus)) := by
  intro offset visible tokens
  rw [complete, plan?, Option.map_map]
  refine congrArg (Option.map · _) (funext fun caret => ?_)
  rw [Function.comp_apply, carryOut, List.map_map]
  exact dialect.suggestions_foldl (Gathering.knows_begin caret.typed) _

end Dialect

theorem complete_lists_passes {κ ρ : Type} [DecidableEq ρ] (dialect : Dialect κ ρ) (script : String)
    (offset? : Option Nat) :
    let offset := offset?.getD script.utf8ByteSize
    let visible := Caret.visible offset script
    let tokens := (dialect.lex visible).tokens
    let found := fun (caret : Caret) focus =>
      dialect.collect ⟨focus, visible, tokens, caret.token, dialect.rules focus, dialect.ignored⟩
    dialect.complete script offset? = (Caret.place? tokens script offset).map (fun caret =>
      dialect.listed (Text.upper caret.typed.toList) [] (found caret .tables) ++
        dialect.listed (Text.upper caret.typed.toList) (dialect.textsOf (found caret .tables))
          (found caret .columns)) ∧
    ∀ options ∈ dialect.complete script offset?,
      (options.filterMap Suggestion.keyword?).Nodup ∧
      ∀ caret ∈ Caret.place? tokens script offset, ∀ text, .keyword text ∈ options →
        Text.upper caret.typed.toList <+: Text.upper text.toList := by
  intro offset visible tokens found
  have hcomplete := dialect.complete_eq_map script offset?
  constructor
  · rw [hcomplete]
    refine congrArg (Option.map · _) (funext fun caret => ?_)
    simp only [List.map_cons, List.map_nil, Dialect.listedAll, List.append_nil, List.nil_append]
    rfl
  · intro options hoptions
    rw [hcomplete] at hoptions
    obtain ⟨caret, hcaret, rfl⟩ := Option.map_eq_some_iff.1 hoptions
    rw [dialect.keywords_listedAll]
    refine ⟨Gathering.nodup_firsts _ _ _, ?_⟩
    intro placed hplaced text htext
    obtain rfl : caret = placed := Option.some.inj (hcaret.symm.trans hplaced)
    have hmem := List.mem_filterMap.2
      ⟨_, htext, (rfl : Suggestion.keyword? (.keyword text) = some text)⟩
    rw [dialect.keywords_listedAll] at hmem
    exact (Gathering.mem_firsts.1 hmem).2.1

theorem complete_lists_passes_once :
    let dialect : Dialect Kind Rule := { Dialect.generic with
      collect := fun _ => ⟨[(.keyword .AS, []), (.keyword .GROUP, [.keyword .BY])],
        [.tableName, .fullColumnName]⟩ }
    let options : List Suggestion := [.column, .table, .keyword "GROUP BY", .column, .table]
    dialect.complete "g" none = some options ∧ (options.filterMap Suggestion.keyword?).Nodup ∧
      ∀ caret ∈ Caret.place? (lex "g").tokens "g" 1,
        Text.upper caret.typed.toList <+: Text.upper "GROUP BY".toList := by
  intro dialect options
  have hcomplete : dialect.complete "g" none = some options := by decide +kernel
  obtain ⟨hnodup, hprefix⟩ := (complete_lists_passes dialect "g" none).2 options hcomplete
  exact ⟨hcomplete, hnodup, fun caret hcaret => hprefix caret hcaret "GROUP BY" (by simp [options])⟩

end SqlAtlas
