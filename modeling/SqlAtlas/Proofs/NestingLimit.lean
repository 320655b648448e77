import SqlAtlas.Proofs.Complaints
import SqlAtlas.Proofs.Confinement
import SqlAtlas.Proofs.QueryDepth

namespace SqlAtlas

def Rule.nests : Rule → Bool
  | .expression | .subquery | .commonTableExpression => true
  | _ => false

theorem Nest.nests_rule (again : Nest) : again.rule.nests = true := by
  cases again <;> rfl

namespace Phrase

-- The rules that nest are entered by `nest` only.
def shallow : Phrase → Bool
  | .seq first second => first.shallow && second.shallow
  | .ifElse test yes no => test.shallow && yes.shallow && no.shallow
  | .many body | .node _ body => body.shallow
  | .rule name body => !name.nests && body.shallow
  | _ => true

-- What is left of a phrase when no test holds comes to no note and to no rule that nests.
def idle : Phrase → Bool
  | .note _ | .nest _ => false
  | .seq first second => first.idle && second.idle
  | .ifElse test _ no => test.idle && no.idle
  | .many body | .rule _ body | .node _ body => body.idle
  | _ => true

end Phrase

namespace Grammar

theorem shallow_body (again : Nest) : (body again).shallow = true := by
  cases again <;> decide

theorem shallow_script : script.shallow = true := by
  decide

theorem idle_body (again : Nest) : (body again).idle = true := by
  cases again <;> decide

end Grammar

namespace Reading

variable {input : Input} {r r' : Reading}

theorem attach_nil (r : Reading) : r.attach [] = r := by
  unfold attach
  split
  · simp
  · next hframes => simp [← hframes]

theorem closeFrame_openFrame (shape : Shape) (hlast : ∀ last ∈ r.last?, last < r.pos) :
    r.openFrame.closeFrame shape = r := by
  have hnone : r.last?.filter (r.pos ≤ ·) = none := by
    refine Option.filter_eq_none_iff.2 fun last hmem hle => ?_
    exact absurd (hlast last hmem) (Nat.not_lt.2 (of_decide_eq_true hle))
  have hfinished : finished shape ⟨r.pos, [], [], none⟩ r.last? = [] := by
    simp only [finished, hnone]
  simp only [openFrame, closeFrame, hfinished, attach_nil]

-- Past the limit the body of a rule is still gone through, to no effect.
theorem read_of_idle {deeper : Nest → Reading → Reading} (phrase : Phrase)
    (hidle : phrase.idle = true) (hr : r.halted = true) (hlast : ∀ last ∈ r.last?, last < r.pos) :
    phrase.read input deeper r = (false, r) := by
  induction phrase generalizing r with
  | nothing => rfl
  | accept guard => exact accept_of_halted hr guard
  | need kind => exact need_of_halted hr kind
  | fail => rw [Phrase.read, stuck_of_halted hr]
  | stray => exact stray_of_halted hr
  | note role => cases hidle
  | seq first second ih₁ ih₂ =>
      simp only [Phrase.idle, Bool.and_eq_true] at hidle
      rw [Phrase.read, ih₁ hidle.1 hr hlast]
      exact ih₂ hidle.2 hr hlast
  | ifElse test yes no iht _ ihn =>
      simp only [Phrase.idle, Bool.and_eq_true] at hidle
      simp only [Phrase.read, iht hidle.1 hr hlast]
      exact ihn hidle.2 hr hlast
  | many body ih =>
      rw [Phrase.read]
      cases input.kinds.size with
      | zero => rfl
      | succ rounds => simp only [turns, ih hidle hr hlast]
  | rule name body ih =>
      simp only [Phrase.read, ih (r := r.enter name) hidle hr hlast]
      rfl
  | node shape body ih =>
      simp only [Phrase.read, ih (r := r.openFrame) hidle hr hlast,
        closeFrame_openFrame shape hlast]
  | nest again => cases hidle

theorem tooDeep_halted (r : Reading) : r.tooDeep.halted = true := by
  unfold tooDeep
  split
  · next hr => exact hr
  · rfl

end Reading

namespace Call

variable {input : Input} {call inner : Call}

inductive Enters (input : Input) : Call → Call → Prop
  | made {call inner : Call} : Makes input call inner → Enters input call inner
  | past {again : Nest} {r : Reading} :
      Enters input ⟨0, .nest again, r⟩ ⟨0, Grammar.body again, r.tooDeep.descend again⟩

structure Leveled (input : Input) (call : Call) : Prop extends Sound input call where
  shallow : call.phrase.shallow = true
  counted : call.reading.rules.countP Rule.nests = call.reading.nesting
  level : call.reading.nesting + call.levels = nestingLimit ∨
    call.reading.nesting = nestingLimit + 1 ∧ call.reading.halted = true ∧ call.phrase.idle = true

theorem leveled_script : script.Leveled input where
  toSound := sound_script
  shallow := Grammar.shallow_script
  counted := rfl
  level := .inl rfl

theorem result_of_halted (input : Input) (call : Call) (hr : call.reading.halted = true) :
    (call.result input).1 = false ∧ Reading.Rests call.reading (call.result input).2 :=
  Reading.read_of_halted (fun again _ hr => Reading.nestRead_of_halted call.levels again hr)
    call.phrase hr

theorem balanced_result (input : Input) (call : Call) :
    Reading.Balanced call.reading (call.result input).2 :=
  (Reading.steps_balanced input).read ((Reading.steps_balanced input).nestRead call.levels) _ _

theorem Leveled.after {n : Nat} {outer next : Phrase} {r r₁ : Reading}
    (h : Leveled input ⟨n, outer, r⟩) (part : Phrase) (hr₁ : (result input ⟨n, part, r⟩).2 = r₁)
    (hsound : Sound input ⟨n, next, r₁⟩) (hshallow : next.shallow = true)
    (hidle : r.halted = true → outer.idle = true → next.idle = true) :
    Leveled input ⟨n, next, r₁⟩ := by
  have hbalanced := balanced_result input ⟨n, part, r⟩
  rw [hr₁] at hbalanced
  refine ⟨hsound, hshallow, ?_, ?_⟩
  · rw [hbalanced.rules, hbalanced.nesting]
    exact h.counted
  · rw [hbalanced.nesting]
    refine h.level.imp_right fun ⟨hnesting, hr, houter⟩ => ⟨hnesting, ?_, hidle hr houter⟩
    have hrests := (result_of_halted input ⟨n, part, r⟩ hr).2
    rw [hr₁] at hrests
    exact hrests.halted

theorem Leveled.made (h : call.Leveled input) (hmakes : Makes input call inner) :
    inner.Leveled input := by
  have hsound := h.toSound.made hmakes
  have hshallow := h.shallow
  cases hmakes with
  | first =>
      simp only [Phrase.shallow, Bool.and_eq_true] at hshallow
      refine h.after .nothing rfl hsound hshallow.1 fun _ hidle => ?_
      simp only [Phrase.idle, Bool.and_eq_true] at hidle
      exact hidle.1
  | second =>
      simp only [Phrase.shallow, Bool.and_eq_true] at hshallow
      refine h.after _ rfl hsound hshallow.2 fun _ hidle => ?_
      simp only [Phrase.idle, Bool.and_eq_true] at hidle
      exact hidle.2
  | test =>
      simp only [Phrase.shallow, Bool.and_eq_true] at hshallow
      refine h.after .nothing rfl hsound hshallow.1.1 fun _ hidle => ?_
      simp only [Phrase.idle, Bool.and_eq_true] at hidle
      exact hidle.1
  | @yes n test _ _ r _ htaken =>
      simp only [Phrase.shallow, Bool.and_eq_true] at hshallow
      refine h.after test (congrArg Prod.snd htaken) hsound hshallow.1.2 fun hr _ => ?_
      have hfalse := (result_of_halted input ⟨n, test, r⟩ hr).1
      rw [htaken] at hfalse
      cases hfalse
  | @no n test _ _ r _ htaken =>
      simp only [Phrase.shallow, Bool.and_eq_true] at hshallow
      refine h.after test (congrArg Prod.snd htaken) hsound hshallow.2 fun _ hidle => ?_
      simp only [Phrase.idle, Bool.and_eq_true] at hidle
      exact hidle.2
  | turn => exact h.after .nothing rfl hsound hshallow fun _ hidle => hidle
  | @more n body r _ htaken =>
      exact h.after body (congrArg Prod.snd htaken) hsound hshallow fun _ hidle => hidle
  | @rule n name body r =>
      simp only [Phrase.shallow, Bool.and_eq_true, Bool.not_eq_true'] at hshallow
      refine ⟨hsound, hshallow.2, ?_, h.level⟩
      rw [Reading.enter, List.countP_cons, hshallow.1]
      exact h.counted
  | node => exact ⟨hsound, hshallow, h.counted, h.level⟩
  | @nest n again r =>
      refine ⟨hsound, Grammar.shallow_body again, ?_, ?_⟩
      · rw [Reading.descend, List.countP_cons, again.nests_rule, h.counted]
        rfl
      · rcases h.level with hlevel | ⟨-, -, hidle⟩
        · left
          simp only [Reading.descend] at hlevel ⊢
          omega
        · cases hidle

theorem Leveled.past {again : Nest} {r : Reading} (h : Leveled input ⟨0, .nest again, r⟩) :
    Leveled input ⟨0, Grammar.body again, r.tooDeep.descend again⟩ := by
  have hbalanced := (Reading.steps_balanced input).tooDeep r
  refine ⟨⟨Grammar.fit_body again, ?_, ?_⟩, Grammar.shallow_body again, ?_, ?_⟩
  · exact ((Reading.steps_seated input).tooDeep r h.seated).of_same rfl rfl rfl rfl rfl
  · exact fun limit hlimit => Reading.tooDeep_pos r ▸ h.limited limit hlimit
  · rw [Reading.descend, List.countP_cons, again.nests_rule, hbalanced.rules,
      hbalanced.nesting, h.counted]
    rfl
  · rcases h.level with hlevel | ⟨-, -, hidle⟩
    · refine .inr ⟨?_, r.tooDeep_halted, Grammar.idle_body again⟩
      rw [Reading.descend, hbalanced.nesting]
      exact congrArg Nat.succ hlevel
    · cases hidle

theorem Leveled.of_reached (h : call.Leveled input)
    (hreached : Relation.ReflTransGen (Enters input) call inner) : inner.Leveled input := by
  induction hreached with
  | refl => exact h
  | tail _ henters ih =>
      cases henters with
      | made hmakes => exact ih.made hmakes
      | past => exact ih.past

structure Capped (input : Input) (call : Call) : Prop where
  active : call.reading.rules.countP Rule.nests ≤ 201
  rules : (call.result input).2.rules = call.reading.rules
  rests : call.reading.halted = true → (call.result input).1 = false ∧
    (call.result input).2.pos = call.reading.pos ∧
    (call.result input).2.complaints = call.reading.complaints
  past : ∀ again, call.levels = 0 → call.phrase = .nest again →
    (call.result input).2 =
      (result input ⟨0, Grammar.body again, call.reading.tooDeep.descend again⟩).2.ascend

theorem Leveled.capped (h : call.Leveled input) : call.Capped input where
  active := by
    rw [h.counted]
    have hlevel := h.level
    unfold nestingLimit at hlevel
    omega
  rules := (balanced_result input call).rules
  rests hr := by
    obtain ⟨hfalse, hrests⟩ := result_of_halted input call hr
    refine ⟨hfalse, ?_, hrests.complaints⟩
    exact (Reading.read_of_blind (Reading.onward_nestRead input _)
      (fun again _ hr => Reading.nestRead_of_blind call.levels again hr) call.phrase h.fit.sane
      (Reading.peek_of_halted hr 0)).2
  past again hlevels hphrase := by
    obtain ⟨levels, phrase, r⟩ := call
    obtain rfl : levels = 0 := hlevels
    obtain rfl : phrase = .nest again := hphrase
    have hseated : (r.tooDeep.descend again).Seated := h.past.seated
    rw [result, result, Reading.read_of_idle (Grammar.body again) (Grammar.idle_body again)
      (r := r.tooDeep.descend again) r.tooDeep_halted hseated.last]
    rfl

end Call

theorem Input.read_eq_result {input : Input} (hsome : 0 < input.kinds.size) :
    input.read = (Call.script.result input).2 := by
  have hne : input.kinds.isEmpty = false := by
    simpa [Array.isEmpty] using Nat.ne_of_gt hsome
  simp [Input.read, hne, Call.result, Call.script]

theorem parse_nesting_limited (script : String) (tokens : List (Token Kind))
    (hlast : (tokens.map Token.kind).getLast? = some .eof) :
    let input : Input := ⟨(tokens.map Token.kind).toArray, none⟩
    let source : Source := ⟨script, tokens.toArray⟩
    (input.read = (Call.script.result input).2 ∧
      ∀ call, Relation.ReflTransGen (Call.Enters input) Call.script call → call.Capped input) ∧
    (∀ fault ∈ (parse script tokens).faults.dropLast,
      fault.message ≠ "maximum nesting depth exceeded") ∧
    (∀ complaint ∈ input.read.complaints,
      (source.fault complaint).message = "maximum nesting depth exceeded" →
        complaint.index = input.read.pos) ∧
    (∀ path : Path, path.tails.countP (Node.isQueryAt (parse script tokens).trees) ≤ 201) ∧
    ((parse script tokens).faults = input.read.complaints.map source.fault ∧
      input.read.complaints.Pairwise (·.index ≤ ·.index) ∧
      ∀ complaint ∈ input.read.complaints, complaint.index < tokens.length) := by
  intro input source
  have hsome : 0 < tokens.length := by
    refine List.length_pos_iff.2 fun hnil => ?_
    simp [hnil] at hlast
  have hsize : input.kinds.size = tokens.length := by simp [input]
  have hread : input.read = (Call.script.result input).2 := Input.read_eq_result (hsize ▸ hsome)
  have htold : input.read.Told := Reading.inputRead_told rfl
  have hordered : input.read.Ordered :=
    (Reading.steps_ordered input).inputRead ⟨.nil, by simp [Reading.begin]⟩
  refine ⟨⟨hread, ?_⟩, ?_, ?_, parse_countP_isQueryAt_le script tokens, rfl, hordered.sorted, ?_⟩
  · exact fun call hreached => (Call.leveled_script.of_reached hreached).capped
  · intro fault hfault hmessage
    change fault ∈ (input.read.complaints.map source.fault).dropLast at hfault
    rw [← List.map_dropLast] at hfault
    obtain ⟨complaint, hmem, rfl⟩ := List.mem_map.1 hfault
    exact htold.not_before_last complaint hmem (Cause.eq_tooDeep_of_message hmessage)
  · intro complaint hmem hmessage
    exact htold.index_eq_pos complaint hmem (Cause.eq_tooDeep_of_message hmessage)
  · intro complaint hmem
    have hend : input.kinds[tokens.length - 1]? = some .eof := by
      rw [← hlast, List.getLast?_eq_getElem?, List.length_map, List.getElem?_toArray]
    have hpos := Call.sound_script.result_limited _ (Input.shown_of_eof hend)
    have hreached := hordered.reached complaint hmem
    rw [hread] at hreached
    omega

def sinking : List (Token Kind) :=
  (.keyword .SELECT :: (List.replicate (nestingLimit + 1) .openParen ++ [.eof])).map fun kind =>
    ⟨kind, default⟩

theorem parse_nesting_limited_sinking :
    (sinking.map Token.kind).getLast? = some .eof ∧
      (∀ fault ∈ (parse "" sinking).faults.dropLast,
        fault.message ≠ "maximum nesting depth exceeded") ∧
      ∀ path : Path, path.tails.countP (Node.isQueryAt (parse "" sinking).trees) ≤ 201 := by
  have hlast : (sinking.map Token.kind).getLast? = some .eof := by
    simp [sinking, List.getLast?_cons, List.getLast?_append]
  obtain ⟨-, hreport, -, hpaths, -⟩ := parse_nesting_limited "" sinking hlast
  exact ⟨hlast, hreport, hpaths⟩

end SqlAtlas
