import SqlAtlas.Proofs.Lookahead
import SqlAtlas.Proofs.Productions

namespace SqlAtlas

open Phrase

theorem Runs.nest_words {n m : Nat} (hnm : n ≤ m) (again : Nest) {o : List Offer}
    {ks rest : List Kind} (h : Runs n (.nest again) (.text ks) o false (.text rest)) :
    ∃ w ∈ (Setting.upTo True m).words again, w ++ rest = ks := by
  induction n generalizing m again o ks rest with
  | zero =>
      cases h with
      | idle hh => exact hh.elim
  | succ n ih =>
      obtain ⟨m, rfl⟩ := Nat.exists_eq_add_of_lt hnm
      cases h with
      | idle hh => exact hh.elim
      | nest hbody =>
          obtain ⟨w, hw, rfl⟩ := hbody.words fun again _ _ _ => ih (Nat.le_add_right n m) again
          refine ⟨w, ?_, rfl⟩
          exact Grammar.text_body (n + m) again ▸ mem_text.2 ⟨_, hw⟩

theorem Runs.text {n m : Nat} (hnm : n ≤ m) {phrase : Phrase} {o : List Offer} {b : Bool}
    {ks rest : List Kind} (h : Runs n phrase (.text ks) o b (.text rest)) :
    ∃ w ∈ phrase.text (Setting.upTo True m).words, w ++ rest = ks := by
  obtain ⟨w, hw, rfl⟩ := h.words fun again _ _ _ => nest_words hnm again
  exact ⟨w, mem_text.2 ⟨b, hw⟩, rfl⟩

section Openings

/-- Nothing is known of what comes after one of these kinds. -/
def begun (starts : List Kind) : List Kind → List (List Kind)
  | [] => [[]]
  | kind :: kinds => if kind ∈ starts then (kind :: kinds).tails else []

def Phrase.starts (phrase : Phrase) (starts : List Kind) : Bool :=
  Kind.all.all fun kind =>
    starts.contains kind || (phrase.residues (fun _ => List.tails) [kind]).isEmpty

variable {nests : Nest → Language Kind}

theorem Phrase.mem_residues_tails (phrase : Phrase) {b : Bool} {w ks left : List Kind}
    (hw : w ∈ phrase.words nests b) (hleft : leaves w ks = some left) :
    (b, left) ∈ phrase.residues (fun _ => List.tails) ks :=
  mem_residues (fun _ _ _ _ _ h => (List.mem_tails _ _).2 (suffix_of_leaves h)) phrase hw hleft

theorem Phrase.mem_starts {phrase : Phrase} {starts : List Kind} (h : phrase.starts starts = true)
    {w : List Kind} (hw : w ∈ phrase.text nests) : w.headD .eof ∈ starts := by
  obtain ⟨b, hw⟩ := mem_text.1 hw
  have hall := List.all_eq_true.1 h _ (Kind.mem_all (w.headD .eof))
  simp only [Bool.or_eq_true, List.contains_eq_mem, decide_eq_true_eq, List.isEmpty_iff] at hall
  refine hall.resolve_right fun hnil => ?_
  have hleaves : ∃ left, leaves w [w.headD .eof] = some left := by
    cases w with
    | nil => exact ⟨_, rfl⟩
    | cons k w => exact ⟨[], by simp [leaves]⟩
  obtain ⟨left, hleft⟩ := hleaves
  have hmem := phrase.mem_residues_tails hw hleft
  rw [hnil] at hmem
  cases hmem

theorem Phrase.exists_cons_of_starts {phrase : Phrase} {starts : List Kind}
    (h : phrase.starts starts = true) (heof : Kind.eof ∉ starts) {w : List Kind}
    (hw : w ∈ phrase.text nests) : ∃ k ∈ starts, ∃ v, w = k :: v := by
  have hmem := mem_starts h hw
  cases w with
  | nil => exact absurd hmem heof
  | cons k v => exact ⟨k, hmem, v, rfl⟩

theorem Phrase.mem_begun {phrase : Phrase} {starts : List Kind} (h : phrase.starts starts = true)
    (heof : Kind.eof ∉ starts) {w ks left : List Kind} (hw : w ∈ phrase.text nests)
    (hleft : leaves w ks = some left) : left ∈ begun starts ks := by
  obtain ⟨k, hk, v, rfl⟩ := exists_cons_of_starts h heof hw
  cases ks with
  | nil => simpa [begun] using hleft.symm
  | cons j ks =>
      have hjk : k = j := by
        simp only [leaves] at hleft
        split at hleft
        · assumption
        · cases hleft
      subst hjk
      rw [begun, if_pos hk]
      exact (List.mem_tails _ _).2 (suffix_of_leaves hleft)

end Openings

namespace Nest

def opens : Nest → List Kind → List (List Kind)
  | .expression, ks => (Grammar.disjunction.residues (fun _ => List.tails) ks).map Prod.snd
  | .subquery, ks => begun Kind.queryStarts ks
  | .commonTable, ks => begun [.identifier] ks

def operators : List Kind :=
  [.dot, .openParen, .star, .slash, .percent, .plus, .minus] ++ Kind.comparisons ++
    [.keyword .IS, .keyword .NOT, .keyword .IN, .keyword .LIKE, .keyword .BETWEEN, .keyword .AND,
      .keyword .OR]

def stops : Nest → List Kind
  | .expression => operators
  | .subquery =>
      operators ++ [.comma, .identifier, .string, .keyword .AS, .keyword .FROM, .keyword .CROSS,
        .keyword .INNER, .keyword .LEFT, .keyword .RIGHT, .keyword .FULL, .keyword .JOIN,
        .keyword .WHERE, .keyword .GROUP, .keyword .HAVING, .keyword .UNION, .keyword .EXCEPT,
        .keyword .INTERSECT, .keyword .ORDER, .keyword .ASC, .keyword .DESC]
  | .commonTable => []

theorem starts_subquery : (Grammar.body .subquery).starts Kind.queryStarts = true := by
  decide +kernel

theorem starts_commonTable : (Grammar.body .commonTable).starts [.identifier] = true := by
  decide +kernel

theorem mem_opens {n : Nat} (again : Nest) {w ks left : List Kind}
    (hw : w ∈ (Setting.upTo True n).words again) (hleft : leaves w ks = some left) :
    left ∈ again.opens ks := by
  cases n with
  | zero => exact absurd hw Setting.notMem_words_zero
  | succ n =>
      rw [← Grammar.text_body] at hw
      cases again with
      | expression =>
          obtain ⟨b, hw⟩ := mem_text.1 hw
          exact List.mem_map.2 ⟨_, mem_residues_tails _ hw hleft, rfl⟩
      | subquery => exact mem_begun starts_subquery (by decide) hw hleft
      | commonTable => exact mem_begun starts_commonTable (by decide) hw hleft

def Settled (phrase : Phrase) (stop : List Kind) : Prop :=
  phrase.settles opens stops false (fun _ ks => ks.head?.all fun kind => !stop.contains kind) = true

theorem settled_body (again : Nest) : Settled (Grammar.body again) again.stops := by
  cases again <;> unfold Settled <;> decide +kernel

end Nest

theorem follows_of_head {stop rest : List Kind} (h : rest.headD .eof ∉ stop) :
    Follows (fun ks => ks.head?.all fun kind => !stop.contains kind) rest := by
  intro ks hne hpre
  have hhead : ks.head? = some (rest.headD .eof) := by
    cases ks with
    | nil => exact absurd rfl hne
    | cons k ks =>
        cases rest with
        | nil => simpa using (List.cons_prefix_cons.1 hpre).1
        | cons j rest => simpa using (List.cons_prefix_cons.1 hpre).1
  simpa [hhead] using h

namespace Traces

variable {n : Nat} {d : List Piece} {stop : List Kind}

theorem nest_of_forms (n : Nat) (again : Nest) {d : List Piece} {rest : List Kind}
    (hd : d ∈ (Setting.upTo True n).forms again) (hrest : rest.headD .eof ∉ again.stops) :
    Traces n (.nest again) d false rest := by
  induction n generalizing again d rest with
  | zero => exact absurd hd (Language.notMem_zero _)
  | succ n ih =>
      change d ∈ Production.body again (Setting.upTo True n) at hd
      rw [← Grammar.forms_body (Setting.callsOnly_upTo n)] at hd
      obtain ⟨b, hd⟩ := mem_forms.1 hd
      exact .nest (of_pieces (fun again _ _ _ => Nest.mem_opens again) (fun again _ _ => ih again) _
        (Nest.settled_body again) hd (follows_of_head hrest) (by simp))

theorem of_forms (rest : List Kind) {phrase : Phrase} (h : Nest.Settled phrase stop)
    (hd : d ∈ phrase.forms (Setting.upTo True n).forms) (hrest : rest.headD .eof ∉ stop) :
    ∃ b, Traces n phrase d b rest := by
  obtain ⟨b, hd⟩ := mem_forms.1 hd
  exact ⟨b, of_pieces (fun again _ _ _ => Nest.mem_opens again)
    (fun again _ _ => nest_of_forms n again) _ h hd (follows_of_head hrest) (by simp)⟩

end Traces

end SqlAtlas
