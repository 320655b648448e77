import SqlAtlas.Identifier
import SqlAtlas.Proofs.Rejoining

namespace SqlAtlas

namespace Identifier

def double (cs : List Char) : List Char := cs.flatMap fun c => if c = '"' then ['"', '"'] else [c]

def wrap (cs : List Char) : List Char := '"' :: (cs ++ ['"'])

def quote (name : String) : String := String.ofList (wrap (double name.toList))

theorem double_cons (c : Char) (cs : List Char) :
    double (c :: cs) = if c = '"' then '"' :: '"' :: double cs else c :: double cs := by
  rw [double, List.flatMap_cons, ← double]
  split <;> rfl

theorem collapse_cons {c : Char} (hc : c ≠ '"') (cs : List Char) :
    collapse (c :: cs) = c :: collapse cs := by
  rw [collapse]
  rintro _ rfl
  exact absurd rfl hc

theorem collapse_double (cs : List Char) : collapse (double cs) = cs := by
  induction cs with
  | nil => rfl
  | cons c cs ih =>
      rw [double_cons]
      split
      · next hc => rw [hc, collapse, ih]
      · next hc => rw [collapse_cons hc, ih]

theorem nameOf_wrap (cs : List Char) : nameOf (wrap cs) = collapse cs := by
  have hclose : dropClose '"' (cs ++ ['"']) = cs := by simp [dropClose]
  exact congrArg collapse hclose

theorem unquote_quote (name : String) : unquote (quote name) = name := by
  rw [unquote, quote, String.toList_ofList, nameOf_wrap, collapse_double, String.ofList_toList]

theorem notMem_of_mem_splitOn {cs part : List Char} {mark : Char} (h : part ∈ cs.splitOn mark) :
    mark ∉ part := by
  induction cs generalizing part with
  | nil => simp_all
  | cons c cs ih =>
      rw [List.splitOn_cons_eq_if_modifyHead] at h
      split at h
      · rcases List.mem_cons.1 h with rfl | h
        · exact List.not_mem_nil
        · exact ih h
      · next hc =>
          obtain ⟨first, others, hcs⟩ := List.exists_cons_of_ne_nil (List.splitOn_ne_nil mark cs)
          rw [hcs, List.modifyHead_cons] at h
          rw [hcs] at ih
          rcases List.mem_cons.1 h with rfl | h
          · have hmark : mark ≠ c := fun heq => hc (by simp [heq])
            simp [hmark, ih List.mem_cons_self]
          · exact ih (List.mem_cons_of_mem first h)

theorem wrap_double (cs : List Char) :
    wrap (double cs) = ((cs.splitOn '"').map wrap).flatten := by
  induction cs with
  | nil => rfl
  | cons c cs ih =>
      rw [double_cons, List.splitOn_cons_eq_if_modifyHead]
      by_cases hc : c = '"'
      · rw [if_pos hc, if_pos (by simp [hc]), List.map_cons, List.flatten_cons, ← ih]
        rfl
      · obtain ⟨first, others, hcs⟩ := List.exists_cons_of_ne_nil (List.splitOn_ne_nil '"' cs)
        rw [hcs, List.map_cons, List.flatten_cons] at ih
        rw [if_neg hc, if_neg (by simp [hc]), hcs, List.modifyHead_cons, List.map_cons,
          List.flatten_cons]
        exact congrArg (fun cs => '"' :: c :: cs) (List.cons.inj ih).2

end Identifier

namespace Lexeme

open Identifier

theorem cut_wrapped {parts : List (List Char)} (h : ∀ part ∈ parts, '"' ∉ part) :
    cut (parts.map wrap).flatten = parts.map fun part => ⟨.quotedName true, wrap part⟩ := by
  induction parts with
  | nil => simp
  | cons part parts ih =>
      have hspelled : Spelled (.quotedName true) (wrap part) (parts.map wrap).flatten :=
        .name (by decide) (h part List.mem_cons_self)
      rw [List.map_cons, List.flatten_cons, cut_of_spelled hspelled,
        ih fun part hpart => h part (List.mem_cons_of_mem _ hpart), List.map_cons]

theorem cut_quote (name : String) :
    cut (quote name).toList =
      (name.toList.splitOn '"').map fun part => ⟨.quotedName true, wrap part⟩ := by
  rw [quote, String.toList_ofList, wrap_double, cut_wrapped fun part => notMem_of_mem_splitOn]

end Lexeme

namespace Identifier

theorem faults_lex_quote (name : String) : (lex (quote name)).faults = [] := by
  refine List.filterMap_eq_nil_iff.2 fun located hlocated => ?_
  have hmem := (Lexeme.located_cut hlocated).1
  rw [Lexeme.cut_quote] at hmem
  obtain ⟨part, -, hpart⟩ := List.mem_map.1 hmem
  rw [Lexeme.fault?, ← hpart]
  rfl

theorem gists_lex_quote (name : String) :
    (lex (quote name)).tokens.map (fun token => (token.kind, token.text (quote name))) =
      ((name.toList.splitOn '"').map fun part => (.identifier, String.ofList (wrap part))) ++
        [(.eof, "")] := by
  rw [Lexeme.gists_lex, Lexeme.cut_quote, List.filterMap_map]
  congr 1
  exact List.filterMap_eq_map_iff_forall_eq_some.2 fun _ _ => rfl

def RoundTrips (name : String) : Prop :=
  (lex (quote name)).faults = [] ∧ ∃ token,
    (lex (quote name)).tokens = [token, endToken (quote name).toList] ∧ token.kind = .identifier ∧
    token.span = ⟨1, 1 + Text.lineFeeds (quote name).toList, 0, (quote name).utf8ByteSize - 1⟩ ∧
    unquote (token.text (quote name)) = name

theorem roundTrips_of_notMem {name : String} (h : '"' ∉ name.toList) : RoundTrips name := by
  have hcut := Lexeme.cut_quote name
  have hparts := List.splitOn_eq_singleton h
  have htext : (quote name).toList = wrap name.toList := by
    rw [quote, String.toList_ofList, wrap_double, hparts]
    simp
  have hgists := gists_lex_quote name
  have htokens : (lex (quote name)).tokens =
      [⟨.identifier, 1, 1 + Text.lineFeeds (wrap name.toList), 0,
        0 + Text.bytes (wrap name.toList) - 1⟩, endToken (quote name).toList] := by
    rw [lex, hcut, hparts]
    rfl
  rw [htokens, hparts] at hgists
  refine ⟨faults_lex_quote name, _, htokens, rfl, ?_, ?_⟩
  · rw [htext, ← Text.bytes_toList, htext, Nat.zero_add]
  · have hread := congrArg Prod.snd (List.cons.inj hgists).1
    have hname : String.ofList (wrap name.toList) = quote name := by
      rw [← htext, String.ofList_toList]
    exact (congrArg unquote (hread.trans hname)).trans (unquote_quote name)

theorem notMem_of_roundTrips {name : String} (h : RoundTrips name) : '"' ∉ name.toList := by
  obtain ⟨-, token, htokens, -⟩ := h
  have hlength := congrArg List.length (gists_lex_quote name)
  rw [htokens, List.length_append, List.length_map, List.length_map] at hlength
  obtain ⟨part, hpart⟩ := List.length_eq_one_iff.1 (Nat.succ.inj hlength.symm)
  have hname : ['"'].intercalate (name.toList.splitOn '"') = name.toList :=
    List.intercalate_splitOn '"'
  rw [hpart] at hname
  have hmem : part ∈ name.toList.splitOn '"' := hpart ▸ List.mem_singleton_self part
  rw [← hname]
  simpa using notMem_of_mem_splitOn hmem

end Identifier

theorem lex_quote (name : String) :
    (lex (Identifier.quote name)).faults = [] ∧
    (lex (Identifier.quote name)).tokens.map
        (fun token => (token.kind, token.text (Identifier.quote name))) =
      ((name.toList.splitOn '"').map fun part =>
        (.identifier, String.ofList ('"' :: (part ++ ['"'])))) ++ [(.eof, "")] ∧
    Identifier.unquote (Identifier.quote name) = name ∧
    (Identifier.RoundTrips name ↔ '"' ∉ name.toList) :=
  ⟨Identifier.faults_lex_quote name, Identifier.gists_lex_quote name, Identifier.unquote_quote name,
    Identifier.notMem_of_roundTrips, Identifier.roundTrips_of_notMem⟩

theorem not_roundTrips_of_quote : ¬ Identifier.RoundTrips "a\"b" := by
  rintro ⟨-, token, htokens, -⟩
  have hlength : (lex (Identifier.quote "a\"b")).tokens.length = 3 := by decide +kernel
  rw [htokens] at hlength
  cases hlength

end SqlAtlas
