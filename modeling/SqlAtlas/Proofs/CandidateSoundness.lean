import SqlAtlas.Proofs.CandidateCompleteness
import SqlAtlas.Proofs.Prospect

namespace SqlAtlas

theorem Candidates.mem_of_mem_addTokens {candidates : Candidates Kind Rule} {offers : List Offer}
    {offer : Offer} (h : offer ∈ (candidates.addTokens offers).tokens) :
    offer ∈ candidates.tokens ∨ offer ∈ offers := by
  induction offers generalizing candidates with
  | nil => exact .inl h
  | cons first offers ih =>
      rcases ih h with hfirst | hmem
      · change offer ∈ (candidates.addToken first.1 first.2).tokens at hfirst
        unfold addToken at hfirst
        split at hfirst
        · exact .inl hfirst
        · rcases List.mem_append.1 hfirst with hold | hnew
          · exact .inl hold
          · exact .inr (by simp [List.mem_singleton.1 hnew])
      · exact .inr (by simp [hmem])

theorem exists_text_of_tokens {eof : Token Kind} (heof : eof.kind = .eof)
    (rest : List (Token Kind)) :
    ∃ ks after, (rest ++ [eof]).map Token.kind = ks ++ .eof :: after ∧ Kind.eof ∉ ks ∧
      ks <+: rest.map Token.kind := by
  induction rest with
  | nil => exact ⟨[], [], by simp [heof], by simp, List.nil_prefix⟩
  | cons token rest ih =>
      by_cases htoken : token.kind = .eof
      · exact ⟨[], (rest ++ [eof]).map Token.kind, by simp [htoken], by simp, List.nil_prefix⟩
      · obtain ⟨ks, after, hkinds, hks, hpre⟩ := ih
        refine ⟨token.kind :: ks, after, by simp [← hkinds], ?_, ?_⟩
        · simpa [hks] using fun h => htoken h.symm
        · exact List.cons_prefix_cons.2 ⟨rfl, hpre⟩

theorem Production.file_mono {n m : Nat} (hnm : n ≤ m) {w : List Kind}
    (hw : w ∈ erase (Production.file (Setting.upTo True n))) :
    w ∈ erase (Production.file (Setting.upTo True m)) := by
  obtain ⟨o, b, hrun⟩ := Runs.script_iff.2 hw
  obtain ⟨v, hv, rfl⟩ := hrun.text hnm
  rwa [Grammar.text_script, ← List.append_nil v] at hv

theorem Input.read_eq_of_deepest {input : Input} {text : List Kind} (hshow : input.Shows text)
    {levels : Nat} (hlevels : levels ≤ nestingLimit) (hdeep : input.read.deepest ≤ levels) :
    input.read = (Grammar.script.read input (Nest.read input levels) Reading.begin).2 := by
  obtain ⟨spare, hspare⟩ := Nat.exists_eq_add_of_le hlevels
  rw [Input.read_eq hshow, hspare] at hdeep ⊢
  have hbegin : Reading.begin.nesting = 0 := rfl
  rw [Reading.read_congr (Reading.progress_nestRead input _)
    (fun again r hr hd => Reading.nestRead_eq_of_deepest levels spare again r (by omega))
    Grammar.script hbegin hdeep]

section Faultless

variable {script : String} {pre rest : List (Token Kind)} {eof : Token Kind}
  (heof : eof.kind = .eof) (hpre : ∀ t ∈ pre, t.kind ≠ .eof)
include heof hpre

theorem exists_text_of_faultless
    (hclean : (Dialect.generic.parse script (pre ++ rest ++ [eof])).faults = []) :
    ∃ ks, ks <+: rest.map Token.kind ∧
      pre.map Token.kind ++ ks ∈ erase (Production.file (Setting.upTo True nestingLimit)) := by
  obtain ⟨ks, after, hkinds, hks, hprefix⟩ := exists_text_of_tokens heof rest
  have hall : (pre ++ rest ++ [eof]).map Token.kind = (pre.map Token.kind ++ ks) ++
      .eof :: after := by
    rw [List.append_assoc, List.map_append, hkinds, List.append_assoc]
  have hnot : Kind.eof ∉ pre.map Token.kind ++ ks := by
    simpa [hks] using eof_notMem_kinds hpre
  rw [parse_faults_eq_nil_iff script hall hnot, Runs.script_iff] at hclean
  exact ⟨ks, hprefix, hclean⟩

theorem exists_run_of_faultless
    (hclean : (Dialect.generic.parse script (pre ++ rest ++ [eof])).faults = []) :
    ∃ o b s, Runs nestingLimit Grammar.script (.text (pre.map Token.kind)) o b s := by
  obtain ⟨ks, -, hks⟩ := exists_text_of_faultless heof hpre hclean
  obtain ⟨o, b, hrun⟩ := Runs.script_iff.2 hks
  cases ks with
  | nil =>
      rw [List.append_nil] at hrun
      exact ⟨o, b, _, hrun⟩
  | cons k ks =>
      obtain ⟨o, b, s, hcut, -⟩ := script_awaits hrun
      exact ⟨o, b, s, hcut⟩

theorem exists_run_of_deepest {levels : Nat} (hlevels : levels ≤ nestingLimit)
    (hclean : (Dialect.generic.parse script (pre ++ rest ++ [eof])).faults = [])
    (hdeep : (Input.read ⟨((pre ++ [eof]).map Token.kind).toArray,
      some ⟨pre.length, [], []⟩⟩).deepest ≤ levels) (focus : Focus) :
    ∃ o b s, Runs levels Grammar.script (.text (pre.map Token.kind)) o b s ∧
      Dialect.generic.collect ⟨focus, script, pre ++ [eof], pre.length, [], []⟩ =
        Candidates.empty.addTokens o := by
  obtain ⟨o, b, s, hrun⟩ := exists_run_of_faultless heof hpre hclean
  have hshow := Input.shows_before hpre (List.cons_ne_nil eof [])
  have hdoes := hrun.script_read hshow (by simp)
  rw [← Input.read_eq hshow] at hdoes
  have hs : s ≠ .depth := by
    intro hs
    have hlt := (hrun.collects hpre (List.cons_ne_nil eof []) focus script).2 hs
    omega
  have hquiet := hdoes.complaints hs
  rw [Input.read_eq_of_deepest hshow hlevels hdeep] at hquiet
  obtain ⟨o, b, s, hrun, -⟩ := Runs.of_script_read hshow hquiet
  refine ⟨o, b, s, hrun, ?_⟩
  have hdoes := hrun.script_read hshow (by simp)
  rw [← Input.read_eq_of_deepest hshow hlevels hdeep] at hdoes
  exact hdoes.candidates _ rfl rfl rfl

end Faultless

theorem candidates_lead_on (focus : Focus) (script : String) (pre rest : List (Token Kind))
    (token eof : Token Kind) (follow : List Kind) (heof : eof.kind = .eof)
    (hpre : ∀ t ∈ pre, t.kind ≠ .eof)
    (hclean : (Dialect.generic.parse script (pre ++ rest ++ [eof])).faults = [])
    (hdeep : (Input.read ⟨((pre ++ [eof]).map Token.kind).toArray,
      some ⟨pre.length, [], []⟩⟩).deepest ≤ 190)
    (hoffer : (token.kind, follow) ∈ (Dialect.generic.collect
      ⟨focus, script, pre ++ [eof], pre.length, [], []⟩).tokens) :
    (∃ post, (∀ t ∈ post, t.kind ≠ .eof) ∧
      (Dialect.generic.parse script (pre ++ token :: post ++ [eof])).faults = []) ∧
    ∀ post, (Dialect.generic.parse script (pre ++ token :: post ++ [eof])).faults = [] →
      follow <+: post.map Token.kind := by
  obtain ⟨o, b, s, hrun, hcollect⟩ :=
    exists_run_of_deepest heof hpre (by decide : 190 ≤ nestingLimit) hclean hdeep focus
  rw [hcollect] at hoffer
  have hmem := (Candidates.mem_of_mem_addTokens hoffer).resolve_left (by simp [Candidates.empty])
  have hfollow : follow = token.kind.follow := hrun.follow_eq tells_grammar.1 hmem
  obtain ⟨post, hpost⟩ := hrun.script_viable (List.mem_map_of_mem hmem)
  have hnot := (Heeds.of_mem_file hpost).eof_notMem
  constructor
  · refine ⟨post.map tokenOf, ?_, ?_⟩
    · intro t ht heq
      obtain ⟨k, hk, rfl⟩ := List.mem_map.1 ht
      exact hnot (heq ▸ by simp [hk, tokenOf])
    · have hkinds : (pre ++ token :: post.map tokenOf ++ [eof]).map Token.kind =
          (pre.map Token.kind ++ token.kind :: post) ++ [.eof] := by
        rw [List.map_append, List.map_append, List.map_cons, map_kind_tokenOf,
          List.map_singleton, heof]
      rw [parse_faults_eq_nil_iff script hkinds hnot, Runs.script_iff]
      exact Production.file_mono (by decide) hpost
  · intro post hclean
    have hpre' : ∀ t ∈ pre ++ [token], t.kind ≠ .eof := by
      intro t ht heq
      rcases List.mem_append.1 ht with ht | ht
      · exact hpre t ht heq
      · rw [List.mem_singleton.1 ht] at heq
        exact hnot (by simp [heq])
    rw [List.append_cons pre token post] at hclean
    obtain ⟨ks, hks, hfile⟩ := exists_text_of_faultless heof hpre' hclean
    have hheeds := Heeds.of_mem_file hfile
    have hsplit : pre.map Token.kind ++ token.kind :: ks =
        (pre ++ [token]).map Token.kind ++ ks := by
      simp
    rw [hfollow]
    exact (hheeds _ _ _ hsplit).trans hks

theorem candidates_lead_on_exists :
    (Dialect.generic.parse "" (tokensOf [.keyword .SELECT, .star])).faults = [] ∧
      (Input.read ⟨#[.keyword .SELECT, .eof], some ⟨1, [], []⟩⟩).deepest ≤ 190 ∧
      (Kind.keyword .EXISTS, [Kind.openParen]) ∈ (Dialect.generic.collect
        ⟨.columns, "", tokensOf [.keyword .SELECT], 1, [], []⟩).tokens ∧
      (∃ post, (∀ t ∈ post, t.kind ≠ .eof) ∧ (Dialect.generic.parse ""
        (tokenOf (.keyword .SELECT) :: tokenOf (.keyword .EXISTS) :: post ++
          [tokenOf .eof])).faults = []) ∧
      ∀ post, (Dialect.generic.parse ""
        (tokenOf (.keyword .SELECT) :: tokenOf (.keyword .EXISTS) :: post ++
          [tokenOf .eof])).faults = [] →
        [Kind.openParen] <+: post.map Token.kind := by
  have hclean : (Dialect.generic.parse "" (tokensOf [.keyword .SELECT, .star])).faults = [] := by
    decide +kernel
  have hdeep : (Input.read ⟨#[.keyword .SELECT, .eof], some ⟨1, [], []⟩⟩).deepest ≤ 190 := by
    decide +kernel
  have hoffer : (Kind.keyword .EXISTS, [Kind.openParen]) ∈ (Dialect.generic.collect
      ⟨.columns, "", tokensOf [.keyword .SELECT], 1, [], []⟩).tokens := by
    decide +kernel
  exact ⟨hclean, hdeep, hoffer, candidates_lead_on .columns "" [tokenOf (.keyword .SELECT)]
    [tokenOf .star] (tokenOf (.keyword .EXISTS)) (tokenOf .eof) [.openParen] rfl (by decide) hclean
    hdeep hoffer⟩

end SqlAtlas
