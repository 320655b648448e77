import SqlAtlas.Dialect.Generic
import SqlAtlas.Proofs.Quiet
import SqlAtlas.Proofs.Statements

namespace SqlAtlas

open Computability

theorem Input.shows_text {ks : List Kind} (heof : Kind.eof ∉ ks) (after : List Kind) :
    Input.Shows ⟨(ks ++ Kind.eof :: after).toArray, none⟩ ks where
  plain := heof
  shown := List.prefix_append _ _
  short := by simp
  ended _ := ⟨after, rfl⟩
  caret _ h := by cases h

theorem Input.shows_caret {ks rest : List Kind} (heof : Kind.eof ∉ ks) (hrest : rest ≠ []) :
    Input.Shows ⟨(ks ++ rest).toArray, some ⟨ks.length, [], []⟩⟩ ks where
  plain := heof
  shown := List.prefix_append _ _
  short := by simpa using List.length_pos_iff.2 hrest
  ended h := by cases h
  caret watch h := by cases h; rfl

theorem Reading.of_begin (ks : List Kind) : (Place.text ks).Of ks Reading.begin :=
  ⟨rfl, Nat.zero_le _, rfl⟩

theorem Input.read_eq {input : Input} {text : List Kind} (h : input.Shows text) :
    input.read = (Grammar.script.read input (Nest.read input nestingLimit) Reading.begin).2 := by
  have hsize : input.kinds.isEmpty = false := by
    have hpos := Nat.zero_lt_of_lt h.short
    simpa [Array.isEmpty] using Nat.ne_of_gt hpos
  simp [Input.read, hsize]

variable {input : Input} {text : List Kind} {n : Nat}

theorem Runs.script_read (hshow : input.Shows text) {o : List Offer} {b : Bool} {s' : Place}
    (h : Runs n Grammar.script (.text text) o b s')
    (hs' : input.watch? = none → ∃ ks, s' = .text ks) :
    Reading.Does input n (.text text) o s' Reading.begin
      (Grammar.script.read input (Nest.read input n) Reading.begin).2 := by
  have hagrees := Agrees.of_nests hshow
    (fun again => Agrees.nest hshow n again Grammar.sane_body Grammar.steady_body)
    Grammar.script Grammar.sane_script Grammar.steady_script
  obtain ⟨r', hread, -, hdoes⟩ := hagrees _ _ _ _ _ h hs' (Reading.of_begin text)
  rw [hread]
  exact hdoes

theorem Runs.of_script_read (hshow : input.Shows text)
    (h : (Grammar.script.read input (Nest.read input n) Reading.begin).2.complaints = []) :
    ∃ o b s', Runs n Grammar.script (.text text) o b s' ∧
      (input.watch? = none → ∃ ks, s' = .text ks) := by
  have hquiet := Quiet.of_nests hshow
    (fun again => Quiet.nest hshow n again Grammar.sane_body Grammar.steady_body)
    Grammar.script Grammar.sane_script Grammar.steady_script
  obtain ⟨o, s', hrun, -, hs'⟩ := hquiet _ _ (Reading.of_begin text) h
  exact ⟨o, _, s', hrun, fun hw => s'.text_or_halted.resolve_right (hs' hw)⟩

theorem Runs.script_rest {ks rest : List Kind} {o : List Offer} {b : Bool}
    (h : Runs n Grammar.script (.text ks) o b (.text rest)) : rest = [] := by
  have hstray {ks rest : List Kind} {o : List Offer}
      (h : Runs n Grammar.scriptItem (.text ks) o false (.text rest)) : rest = [] := by
    rcases h.ifElse_inv with ⟨_, _, _, _, _, _, _, hb⟩ | ⟨_, _, _, _, hno, _⟩
    · cases hb
    · obtain ⟨mid, rfl⟩ := hno.exists_text
      rcases hno.ifElse_inv with ⟨_, _, _, _, _, _, _, hb⟩ | ⟨_, _, _, _, hstray, _⟩
      · cases hb
      · obtain ⟨mid, rfl⟩ := hstray.exists_text
        cases hstray with
        | idle hh => exact hh.elim
        | strayAtEnd => rfl
  cases h with
  | idle hh => exact hh.elim
  | rule hmany =>
      have hrest := hmany.many_induction
        (motive := fun _ _ s' => ∀ rest, s' = .text rest → rest = []) ?_ ?_
      · exact hrest rest rfl
      · rintro _ _ _ hstop rest rfl
        obtain ⟨ks, rfl⟩ := hstop.exists_text
        exact hstray hstop
      · intro _ _ _ _ _ _ _ hmore
        exact hmore

theorem Input.complaints_eq_nil_iff {ks after : List Kind} (heof : Kind.eof ∉ ks) :
    (Input.read ⟨(ks ++ Kind.eof :: after).toArray, none⟩).complaints = [] ↔
      ∃ o b, Runs nestingLimit Grammar.script (.text ks) o b (.text []) := by
  have hshow := Input.shows_text heof after
  rw [Input.read_eq hshow]
  constructor
  · intro h
    obtain ⟨o, b, s', hrun, hs'⟩ := Runs.of_script_read hshow h
    obtain ⟨rest, rfl⟩ := hs' rfl
    obtain rfl := hrun.script_rest
    exact ⟨o, b, hrun⟩
  · rintro ⟨o, b, hrun⟩
    exact (hrun.script_read hshow fun _ => ⟨[], rfl⟩).complaints (by simp)

theorem parse_faults_eq_nil_iff (script : String) {tokens : List (Token Kind)}
    {ks after : List Kind} (hkinds : tokens.map Token.kind = ks ++ .eof :: after)
    (heof : Kind.eof ∉ ks) :
    (Dialect.generic.parse script tokens).faults = [] ↔
      ∃ o b, Runs nestingLimit Grammar.script (.text ks) o b (.text []) := by
  rw [← Input.complaints_eq_nil_iff heof, ← hkinds]
  exact List.map_eq_nil_iff

theorem faultless_iff_mem_file (script : String) (tokens : List (Token Kind)) (ks : List Kind)
    (hkinds : tokens.map Token.kind = ks ++ [.eof]) (heof : Kind.eof ∉ ks) :
    (Dialect.generic.parse script tokens).faults = [] ↔
      ks ∈ erase (Production.file (Setting.upTo True nestingLimit)) := by
  rw [parse_faults_eq_nil_iff script hkinds heof, Runs.script_iff]

section TopOfName

/-- The kinds of `SELECT TOP a (b)`. -/
def topOfName : List Kind :=
  [.keyword .SELECT, .keyword .TOP, .identifier, .openParen, .identifier, .closeParen]

def tokenOf (kind : Kind) : Token Kind := ⟨kind, default⟩

def tokensOf (ks : List Kind) : List (Token Kind) := (ks ++ [Kind.eof]).map tokenOf

theorem faultless_iff_mem_file_topOfName :
    (tokensOf topOfName).map Token.kind = topOfName ++ [.eof] ∧ Kind.eof ∉ topOfName ∧
      ((Dialect.generic.parse "" (tokensOf topOfName)).faults = [] ↔
        topOfName ∈ erase (Production.file (Setting.upTo True nestingLimit))) :=
  ⟨rfl, by decide, faultless_iff_mem_file "" (tokensOf topOfName) topOfName rfl (by decide)⟩

section Members

variable {α : Type} {l m : Language α} {w : List α}

theorem mem_mul_of_left (h : w ∈ l) (hnil : [] ∈ m) : w ∈ l * m :=
  ⟨w, h, [], hnil, List.append_nil w⟩

theorem mem_mul_of_right (hnil : [] ∈ l) (h : w ∈ m) : w ∈ l * m :=
  ⟨[], hnil, w, h, rfl⟩

theorem mem_mul_kstar (h : w ∈ l) : w ∈ l * m∗ := mem_mul_of_left h (Language.nil_mem_kstar _)

theorem mem_kstar_mul (h : w ∈ l) : w ∈ m∗ * l := mem_mul_of_right (Language.nil_mem_kstar _) h

theorem mem_mul_opt (h : w ∈ l) : w ∈ l * (m + 1) := mem_mul_of_left h (.inr rfl)

theorem mem_opt_mul (h : w ∈ l) : w ∈ (m + 1) * l := mem_mul_of_right (.inr rfl) h

end Members

section Forms

variable {callsOnly : Prop} {n : Nat} {setting : Setting} {d : List Piece}

theorem mem_expression_of_primary (h : d ∈ Production.primary (Setting.upTo callsOnly n)) :
    d ∈ Production.expression (Setting.upTo callsOnly (n + 1)) :=
  mem_mul_kstar (mem_mul_kstar (mem_kstar_mul (mem_mul_opt (mem_mul_kstar (mem_mul_kstar
    (mem_kstar_mul h))))))

theorem mem_primary_of_name : [.token .identifier] ∈ Production.primary setting :=
  .inl (.inl (.inl (.inl (.inr (mem_mul_kstar rfl)))))

theorem mem_primary_of_parens (h : d ∈ (Production.subquery + Production.expressions) setting) :
    .token .openParen :: (d ++ [.token .closeParen]) ∈ Production.primary setting :=
  .inr ⟨_, rfl, _, ⟨d, h, _, rfl, rfl⟩, rfl⟩

theorem mem_selection_of_columnElem (h : d ∈ Production.columnElem setting) :
    d ∈ Production.selection setting :=
  mem_mul_of_left (mem_mul_kstar h) (mem_opt_mul (mem_opt_mul (mem_opt_mul (.inr rfl))))

theorem mem_selection_of_primary (h : d ∈ Production.primary (Setting.upTo callsOnly n)) :
    d ∈ Production.selection (Setting.upTo callsOnly (n + 1)) :=
  mem_selection_of_columnElem (.inr (mem_mul_opt (mem_expression_of_primary h)))

theorem mem_select_of_selection (h : d ∈ Production.selection setting) :
    .token (.keyword .SELECT) :: d ∈ Production.select setting :=
  mem_opt_mul (mem_mul_opt (mem_mul_kstar ⟨_, rfl, d, mem_opt_mul (.inr h), rfl⟩))

theorem mem_select_of_top {top : List Piece} (htop : top ∈ Production.primary setting)
    (h : d ∈ Production.selection setting) (hcalls : ¬ setting.callsOnly) :
    .token (.keyword .SELECT) :: .token (.keyword .TOP) :: (top ++ d) ∈ Production.select setting :=
  mem_opt_mul (mem_mul_opt (mem_mul_kstar ⟨_, rfl, _, mem_opt_mul (.inl ⟨_, rfl, _,
    ⟨top, htop, d, h, fun hcall => absurd hcall hcalls, rfl⟩, rfl⟩), rfl⟩))

theorem mem_file_of_select (h : d ∈ Production.select setting) :
    [.group (.statement .select) d] ∈ Production.file setting :=
  Language.mem_kstar.2 ⟨[[.group (.statement .select) d]], by simp,
    by simpa using .inr (.inr ⟨d, h, rfl⟩)⟩

end Forms

theorem topOfName_mem_file (n : Nat) :
    topOfName ∈ erase (Production.file (Setting.upTo False (n + 2))) := by
  have hname : [.token .identifier] ∈ Production.expression (Setting.upTo False (n + 1)) :=
    mem_expression_of_primary mem_primary_of_name
  have hselection := mem_selection_of_primary (mem_primary_of_parens (.inr (mem_mul_kstar hname)))
  exact ⟨_, mem_file_of_select (mem_select_of_top mem_primary_of_name hselection id), rfl⟩

theorem not_faultless_iff_mem_plain_file : ¬ ∀ (script : String) (tokens : List (Token Kind))
    (ks : List Kind), tokens.map Token.kind = ks ++ [.eof] → Kind.eof ∉ ks →
    ((Dialect.generic.parse script tokens).faults = [] ↔
      ks ∈ erase (Production.file (Setting.upTo False nestingLimit))) := by
  intro h
  have hfaultless := (h "" (tokensOf topOfName) topOfName rfl (by decide)).2
    (topOfName_mem_file 198)
  have hfault : (Dialect.generic.parse "" (tokensOf topOfName)).faults ≠ [] := by
    decide +kernel
  exact hfault hfaultless

end TopOfName

end SqlAtlas
