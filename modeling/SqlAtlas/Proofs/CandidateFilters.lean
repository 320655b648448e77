import SqlAtlas.Proofs.Offers
import SqlAtlas.Source

namespace SqlAtlas

namespace Candidates

theorem tokens_addRule {κ ρ : Type} [DecidableEq ρ] (candidates : Candidates κ ρ) (rule : ρ) :
    (candidates.addRule rule).tokens = candidates.tokens := by
  unfold addRule
  split <;> rfl

variable {κ ρ : Type} [DecidableEq κ] {ignored : List κ} {kind : κ}

def without (ignored : List κ) (candidates : Candidates κ ρ) : Candidates κ ρ :=
  ⟨candidates.tokens.filter (·.1 ∉ ignored), candidates.rules⟩

theorem without_addRule [DecidableEq ρ] (ignored : List κ)
    (candidates : Candidates κ ρ) (rule : ρ) :
    (candidates.addRule rule).without ignored = (candidates.without ignored).addRule rule := by
  by_cases hrule : rule ∈ candidates.rules <;> simp [addRule, without, hrule]

theorem without_addToken_of_mem (h : kind ∈ ignored) (candidates : Candidates κ ρ)
    (follow : List κ) :
    (candidates.addToken kind follow).without ignored = candidates.without ignored := by
  simp only [addToken]
  split
  · rfl
  · simp [without, List.filter_append, h]

theorem without_addToken_of_notMem (h : kind ∉ ignored) (candidates : Candidates κ ρ)
    (follow : List κ) :
    (candidates.addToken kind follow).without ignored =
      (candidates.without ignored).addToken kind follow := by
  have hthere : kind ∈ (candidates.without ignored).tokens.map Prod.fst ↔
      kind ∈ candidates.tokens.map Prod.fst := by
    simp [without, h]
  simp only [addToken, hthere]
  split
  · rfl
  · simp [without, List.filter_append, h]

theorem nodup_addToken {candidates : Candidates κ ρ}
    (h : (candidates.tokens.map Prod.fst).Nodup) (kind : κ) (follow : List κ) :
    ((candidates.addToken kind follow).tokens.map Prod.fst).Nodup := by
  unfold addToken
  split
  · exact h
  · next hnew =>
      rw [List.map_append, List.map_singleton, ← List.concat_eq_append]
      exact h.concat hnew

end Candidates

namespace Offered

variable (preferred : List Rule) (ignored : List Kind) (candidates : Candidates Kind Rule)

theorem addTo_without (offered : Offered) :
    addTo preferred ignored (candidates.without ignored) offered =
      (addTo preferred [] candidates offered).without ignored := by
  by_cases hfree : ∀ rule ∈ offered.rules, rule ∉ preferred
  · rw [addTo_of_free hfree, addTo_of_free hfree, if_neg List.not_mem_nil]
    split
    · next hignored => rw [Candidates.without_addToken_of_mem hignored]
    · next hignored => rw [Candidates.without_addToken_of_notMem hignored]
  · obtain ⟨rule, -, heq⟩ := addTo_of_preferred hfree
    rw [heq, heq, Candidates.without_addRule]

theorem foldl_without (log : List Offered) :
    log.foldl (addTo preferred ignored) (candidates.without ignored) =
      (log.foldl (addTo preferred []) candidates).without ignored :=
  List.foldl_hom (Candidates.without ignored) (addTo_without preferred ignored)

theorem nodup_foldl {candidates : Candidates Kind Rule} (h : (candidates.tokens.map Prod.fst).Nodup)
    (log : List Offered) :
    ((log.foldl (addTo preferred ignored) candidates).tokens.map Prod.fst).Nodup := by
  induction log generalizing candidates with
  | nil => exact h
  | cons offered log ih =>
      refine ih ?_
      by_cases hfree : ∀ rule ∈ offered.rules, rule ∉ preferred
      · rw [addTo_of_free hfree]
        split
        · exact h
        · exact Candidates.nodup_addToken h _ _
      · obtain ⟨rule, -, heq⟩ := addTo_of_preferred hfree
        rw [heq, Candidates.tokens_addRule]
        exact h

theorem Shown.mono {ignored : List Kind} {fewer more : List Rule} (hsubset : fewer ⊆ more)
    {offered : Offered} (h : offered.Shown more ignored) : offered.Shown fewer ignored :=
  ⟨fun rule hrule hfewer => h.1 rule hrule (hsubset hfewer), h.2⟩

end Offered

theorem collect_filters (tokens : List (Token Kind)) (caret : Nat) (preferred : List Rule)
    (ignored : List Kind) :
    let found := fun preferred ignored => collect tokens ⟨caret, preferred, ignored⟩
    (found preferred ignored).rules = (found preferred []).rules ∧
    (found preferred ignored).rules ⊆ preferred ∧
    (found preferred ignored).tokens = (found preferred []).tokens.filter (·.1 ∉ ignored) ∧
    ((found preferred ignored).tokens.map Prod.fst).Nodup ∧
    ∀ more, preferred ⊆ more → (found more ignored).tokens ⊆ (found preferred ignored).tokens := by
  obtain ⟨log, hfair, hread⟩ := Input.read_recorded (tokens.map Token.kind).toArray caret
  have hfound (preferred : List Rule) (ignored : List Kind) :
      collect tokens ⟨caret, preferred, ignored⟩ =
      log.foldl (Offered.addTo preferred ignored) .empty := hread preferred ignored
  have hfilter : collect tokens ⟨caret, preferred, ignored⟩ =
      (collect tokens ⟨caret, preferred, []⟩).without ignored := by
    rw [hfound, hfound, ← Offered.foldl_without]
    rfl
  have hrules := congrArg Candidates.rules hfilter
  have htokens := congrArg Candidates.tokens hfilter
  have hnodup : ((collect tokens ⟨caret, preferred, ignored⟩).tokens.map Prod.fst).Nodup := by
    rw [hfound]
    exact Offered.nodup_foldl preferred ignored (by simp [Candidates.empty]) log
  refine ⟨hrules, Input.rules_read_subset _ caret ignored preferred, htokens, hnodup, ?_⟩
  intro more hsubset candidate hmem
  simp only [hfound, Offered.mem_tokens_foldl hfair, Candidates.empty, List.not_mem_nil,
    false_implies, implies_true, false_or] at hmem ⊢
  obtain ⟨offered, hlog, hshown, heq⟩ := hmem
  exact ⟨offered, hlog, hshown.mono hsubset, heq⟩

theorem collect_filters_columns :
    let found := fun preferred => collect (lex "SELECT ").tokens ⟨1, preferred, [.keyword .CASE]⟩
    (.keyword .EXISTS, [.openParen]) ∈ (found Rule.ofColumns).tokens ∧
    (.keyword .EXISTS, [.openParen]) ∈ (found []).tokens ∧
    (.identifier, []) ∉ (found Rule.ofColumns).tokens ∧ (.identifier, []) ∈ (found []).tokens := by
  intro found
  have hexists : (.keyword .EXISTS, [.openParen]) ∈ (found Rule.ofColumns).tokens := by
    decide +kernel
  obtain ⟨-, -, -, -, hmore⟩ := collect_filters (lex "SELECT ").tokens 1 [] [.keyword .CASE]
  exact ⟨hexists, hmore Rule.ofColumns (by simp) hexists, by decide +kernel, by decide +kernel⟩

end SqlAtlas
