import SqlAtlas.Proofs.WordScan

namespace SqlAtlas.Word

def InWordAt (cs : List Char) (i : Nat) : Prop :=
  ∃ c, cs[i]? = some c ∧
    (quotes none (cs.take (i + 1)) % 2 = 1 ∨ Text.isBlank c = false ∧ c ≠ ';')

structure Stretch (cs : List Char) (i j : Nat) : Prop where
  lt : i < j
  inside : ∀ k, i ≤ k → k < j → InWordAt cs k
  begins : ∀ k, i = k + 1 → ¬ InWordAt cs k
  ends : ¬ InWordAt cs j

def lineAt (cs : List Char) (i : Nat) : Nat := 1 + Text.lineFeeds (cs.take i)

def runAt (cs : List Char) (i j : Nat) : Word :=
  ⟨.run, Text.bytes (cs.take i), Text.bytes (cs.take j) - 1, lineAt cs i⟩

def terminatorAt (cs : List Char) (i : Nat) : Word :=
  ⟨.terminator, Text.bytes (cs.take i), Text.bytes (cs.take i), lineAt cs i⟩

def finishOf (cs : List Char) : Word :=
  ⟨.finish, Text.bytes cs, Text.bytes cs, 1 + Text.lineFeeds cs⟩

inductive Listed (cs : List Char) : Word → Prop
  | run {i j : Nat} : Stretch cs i j → Listed cs (runAt cs i j)
  | terminator {i : Nat} : cs[i]? = some ';' → ¬ InWordAt cs i → Listed cs (terminatorAt cs i)
  | finish : Listed cs (finishOf cs)

variable {cs : List Char} {c : Char} {i j k : Nat}

theorem InWordAt.lt (h : InWordAt cs i) : i < cs.length := by
  obtain ⟨c, hc, -⟩ := h
  exact (List.getElem?_eq_some_iff.1 hc).1

theorem inWordAt_snoc (hk : k < cs.length) : InWordAt (cs ++ [c]) k ↔ InWordAt cs k := by
  rw [InWordAt, InWordAt, List.getElem?_append_left hk, List.take_append_of_le_length hk]

theorem runAt_snoc (hi : i ≤ cs.length) (hj : j ≤ cs.length) :
    runAt (cs ++ [c]) i j = runAt cs i j := by
  rw [runAt, runAt, lineAt, lineAt, List.take_append_of_le_length hi,
    List.take_append_of_le_length hj]

theorem terminatorAt_snoc (hi : i ≤ cs.length) :
    terminatorAt (cs ++ [c]) i = terminatorAt cs i := by
  rw [terminatorAt, terminatorAt, lineAt, lineAt, List.take_append_of_le_length hi]

theorem inWordAt_last (cs : List Char) (c : Char) : InWordAt (cs ++ [c]) cs.length ↔
    inWord (((cs.foldl Scan.step .begin).step c).quoted) c = true := by
  have hquoted : ((cs.foldl Scan.step .begin).step c).quoted =
      decide (quotes none (cs ++ [c]) % 2 = 1) := by
    have hfold := Scan.quoted_foldl (cs ++ [c]) .begin
    rw [List.foldl_append, List.foldl_cons, List.foldl_nil] at hfold
    rw [hfold]
    exact Bool.false_xor _
  have htake : (cs ++ [c]).take (cs.length + 1) = cs ++ [c] :=
    List.take_of_length_le (by simp)
  rw [InWordAt, htake, hquoted]
  simp [inWord]

namespace Stretch

theorem unique (h : Stretch cs i j) (h' : Stretch cs k j) : i = k := by
  rcases Nat.lt_trichotomy i k with hlt | heq | hgt
  · exact absurd (h.inside (k - 1) (by omega) (by have := h'.lt; omega))
      (h'.begins (k - 1) (by omega))
  · exact heq
  · exact absurd (h'.inside (i - 1) (by omega) (by have := h.lt; omega))
      (h.begins (i - 1) (by omega))

theorem le_length (h : Stretch cs i j) : j ≤ cs.length := by
  have hlast := (h.inside (j - 1) (by have := h.lt; omega) (by have := h.lt; omega)).lt
  omega

theorem snoc_iff (hj : j ≤ cs.length) :
    Stretch (cs ++ [c]) i j ↔ Stretch cs i j ∧ ¬ InWordAt (cs ++ [c]) j := by
  constructor
  · intro h
    have hlt := h.lt
    exact ⟨⟨hlt, fun k hi hk => (inWordAt_snoc (by omega)).1 (h.inside k hi hk),
      fun k hk hin => h.begins k hk ((inWordAt_snoc hin.lt).2 hin),
      fun hin => h.ends ((inWordAt_snoc hin.lt).2 hin)⟩, h.ends⟩
  · rintro ⟨h, hends⟩
    have hlt := h.lt
    exact ⟨hlt, fun k hi hk => (inWordAt_snoc (by omega)).2 (h.inside k hi hk),
      fun k hk hin => h.begins k hk ((inWordAt_snoc (by omega)).1 hin), hends⟩

theorem extend (h : Stretch cs i cs.length) (hlast : InWordAt (cs ++ [c]) cs.length) :
    Stretch (cs ++ [c]) i (cs.length + 1) := by
  have hlt := h.lt
  refine ⟨Nat.lt_succ_of_lt hlt, fun k hi hk => ?_, fun k hk hin => ?_, fun hin => ?_⟩
  · rcases Nat.lt_or_eq_of_le (Nat.le_of_lt_succ hk) with hk | rfl
    · exact (inWordAt_snoc hk).2 (h.inside k hi hk)
    · exact hlast
  · exact h.begins k hk ((inWordAt_snoc (by omega)).1 hin)
  · simpa using hin.lt

theorem start (hbegins : ∀ k, cs.length = k + 1 → ¬ InWordAt cs k)
    (hlast : InWordAt (cs ++ [c]) cs.length) : Stretch (cs ++ [c]) cs.length (cs.length + 1) := by
  refine ⟨Nat.lt_succ_self _, fun k hi hk => ?_, fun k hk hin => ?_, fun hin => ?_⟩
  · rwa [Nat.le_antisymm (Nat.le_of_lt_succ hk) hi]
  · exact hbegins k hk ((inWordAt_snoc (by omega)).1 hin)
  · simpa using hin.lt

end Stretch

inductive Ended (cs : List Char) : Word → Prop
  | run {i j : Nat} : j < cs.length → Stretch cs i j → Ended cs (runAt cs i j)
  | terminator {i : Nat} : cs[i]? = some ';' → ¬ InWordAt cs i → Ended cs (terminatorAt cs i)

def Unended (cs : List Char) (word : Word) : Prop :=
  ∃ i, Stretch cs i cs.length ∧ word = runAt cs i cs.length

theorem listed_iff {word : Word} :
    Listed cs word ↔ word = finishOf cs ∨ Unended cs word ∨ Ended cs word := by
  constructor
  · rintro (@⟨i, j, h⟩ | ⟨h, hin⟩ | -)
    · rcases Nat.lt_or_eq_of_le h.le_length with hj | rfl
      · exact .inr (.inr (.run hj h))
      · exact .inr (.inl ⟨i, h, rfl⟩)
    · exact .inr (.inr (.terminator h hin))
    · exact .inl rfl
  · rintro (rfl | ⟨i, h, rfl⟩ | ⟨-, h⟩ | ⟨h, hin⟩)
    · exact .finish
    · exact .run h
    · exact .run h
    · exact .terminator h hin

theorem Ended.snoc {word : Word} (h : Ended cs word) : Ended (cs ++ [c]) word := by
  cases h with
  | @run i j hj h =>
      have hlt := h.lt
      have hends : ¬ InWordAt (cs ++ [c]) j := fun hin => h.ends ((inWordAt_snoc hj).1 hin)
      rw [← runAt_snoc (c := c) (by omega) (Nat.le_of_lt hj)]
      exact .run (by simp; omega) ((Stretch.snoc_iff (Nat.le_of_lt hj)).2 ⟨h, hends⟩)
  | @terminator i h hin =>
      have hi := (List.getElem?_eq_some_iff.1 h).1
      rw [← terminatorAt_snoc (c := c) (Nat.le_of_lt hi)]
      exact .terminator (by rwa [List.getElem?_append_left hi]) fun hin' =>
        hin ((inWordAt_snoc hi).1 hin')

theorem ended_snoc_of_in {word : Word} (hlast : InWordAt (cs ++ [c]) cs.length) :
    Ended (cs ++ [c]) word ↔ Ended cs word := by
  refine ⟨fun h => ?_, Ended.snoc⟩
  cases h with
  | @run i j hj h =>
      have hle : j ≤ cs.length := by simpa using Nat.le_of_lt_succ (by simpa using hj)
      have hne : j ≠ cs.length := by
        rintro rfl
        exact h.ends hlast
      have hlt := h.lt
      rw [runAt_snoc (by omega) hle]
      exact .run (by omega) ((Stretch.snoc_iff hle).1 h).1
  | @terminator i h hin =>
      have hle : i < cs.length + 1 := by simpa using (List.getElem?_eq_some_iff.1 h).1
      have hne : i ≠ cs.length := by
        rintro rfl
        exact hin hlast
      have hi : i < cs.length := by omega
      rw [terminatorAt_snoc (Nat.le_of_lt hi)]
      rw [List.getElem?_append_left hi] at h
      exact .terminator h fun hin' => hin ((inWordAt_snoc hi).2 hin')

theorem ended_snoc_of_out {word : Word} (hlast : ¬ InWordAt (cs ++ [c]) cs.length) :
    Ended (cs ++ [c]) word ↔
      (c = ';' ∧ word = terminatorAt cs cs.length) ∨ Unended cs word ∨ Ended cs word := by
  constructor
  · intro h
    cases h with
    | @run i j hj h =>
        have hle : j ≤ cs.length := by simpa using Nat.le_of_lt_succ (by simpa using hj)
        have hlt := h.lt
        have hstretch := ((Stretch.snoc_iff hle).1 h).1
        rw [runAt_snoc (by omega) hle]
        rcases Nat.lt_or_eq_of_le hle with hj | rfl
        · exact .inr (.inr (.run hj hstretch))
        · exact .inr (.inl ⟨i, hstretch, rfl⟩)
    | @terminator i h hin =>
        have hle : i < cs.length + 1 := by simpa using (List.getElem?_eq_some_iff.1 h).1
        rw [terminatorAt_snoc (Nat.le_of_lt_succ hle)]
        rcases Nat.lt_or_eq_of_le (Nat.le_of_lt_succ hle) with hi | rfl
        · rw [List.getElem?_append_left hi] at h
          exact .inr (.inr (.terminator h fun hin' => hin ((inWordAt_snoc hi).2 hin')))
        · exact .inl ⟨by simpa using h, rfl⟩
  · rintro (⟨rfl, rfl⟩ | ⟨i, h, rfl⟩ | h)
    · rw [← terminatorAt_snoc (c := ';') (Nat.le_refl _)]
      exact .terminator (by simp) hlast
    · rw [← runAt_snoc (c := c) (Nat.le_of_lt h.lt) (Nat.le_refl _)]
      exact .run (by simp) ((Stretch.snoc_iff (Nat.le_refl _)).2 ⟨h, hlast⟩)
    · exact h.snoc

namespace Scan

structure Tells (cs : List Char) (scan : Scan) : Prop where
  offset : scan.offset = Text.bytes cs
  line : scan.line = 1 + Text.lineFeeds cs
  found : ∀ word, word ∈ scan.found ↔ Ended cs word
  outside : scan.open? = none → ∀ k, cs.length = k + 1 → ¬ InWordAt cs k
  inside : ∀ start line, scan.open? = some (start, line) → ∃ i, Stretch cs i cs.length ∧
    start = Text.bytes (cs.take i) ∧ line = lineAt cs i

theorem Tells.mem_closed {scan : Scan} (h : Tells cs scan) (word : Word) :
    word ∈ scan.closed ↔ Unended cs word ∨ Ended cs word := by
  rcases hopen : scan.open? with - | ⟨start, line⟩
  · have hnone : ¬ Unended cs word := by
      rintro ⟨i, hstretch, -⟩
      have hlt := hstretch.lt
      exact h.outside hopen (cs.length - 1) (by omega) (hstretch.inside _ (by omega) (by omega))
    rw [closed_of_none hopen, h.found, or_iff_right hnone]
  · obtain ⟨i, hstretch, rfl, rfl⟩ := h.inside _ _ hopen
    have hrun : Unended cs word ↔ word = runAt cs i cs.length := by
      constructor
      · rintro ⟨k, hk, rfl⟩
        rw [hk.unique hstretch]
      · exact fun hword => ⟨i, hstretch, hword⟩
    rw [closed_of_some hopen, List.mem_cons, h.found, hrun, runAt, List.take_length, h.offset]

theorem line_step (scan : Scan) (c : Char) :
    (scan.step c).line = scan.line + Text.lineFeeds [c] := by
  simp only [step]
  split <;> rfl

theorem tells_nil : Tells [] begin := by
  refine ⟨rfl, rfl, fun word => ⟨fun h => (by cases h), fun h => ?_⟩, by simp, by simp [begin]⟩
  rcases h with ⟨hj, -⟩ | ⟨h, -⟩
  · cases hj
  · cases h

theorem step_of_in {scan : Scan} (h : inWord (scan.step c).quoted c = true) :
    (scan.step c).found = scan.found ∧
      (scan.step c).open? = scan.open?.or (some (scan.offset, scan.line)) := by
  rw [quoted_step] at h
  simp [step, h]

theorem step_of_out {scan : Scan} (h : inWord (scan.step c).quoted c = false) :
    (scan.step c).found = scan.parted c ∧ (scan.step c).open? = none := by
  rw [quoted_step] at h
  simp [step, h]

theorem Tells.step {scan : Scan} (h : Tells cs scan)
    (hlast : InWordAt (cs ++ [c]) cs.length ↔ inWord (scan.step c).quoted c = true) :
    Tells (cs ++ [c]) (scan.step c) := by
  have hoffset : (scan.step c).offset = Text.bytes (cs ++ [c]) := by
    rw [offset_step, h.offset, Text.bytes_append]
    rfl
  have hline : (scan.step c).line = 1 + Text.lineFeeds (cs ++ [c]) := by
    rw [line_step, h.line, Text.lineFeeds_append, Nat.add_assoc]
  cases hin : inWord (scan.step c).quoted c with
  | true =>
      obtain ⟨hfound, hopen⟩ := step_of_in hin
      have hlast := hlast.2 hin
      refine ⟨hoffset, hline, fun word => ?_, fun hnone => ?_, fun start line hsome => ?_⟩
      · rw [hfound, h.found, ended_snoc_of_in hlast]
      · rw [hopen] at hnone
        cases hscan : scan.open? <;> simp [hscan] at hnone
      · rw [List.length_append, List.length_singleton]
        rw [hopen] at hsome
        cases hscan : scan.open? with
        | none =>
            rw [hscan, Option.none_or, Option.some.injEq, Prod.mk.injEq] at hsome
            refine ⟨cs.length, .start (h.outside hscan) hlast, ?_, ?_⟩
            · rw [List.take_left, ← hsome.1, h.offset]
            · rw [lineAt, List.take_left, ← hsome.2, h.line]
        | some under =>
            rw [hscan, Option.some_or] at hsome
            obtain ⟨i, hstretch, hstart, hline⟩ := h.inside start line (hscan.trans hsome)
            have hi := Nat.le_of_lt hstretch.lt
            refine ⟨i, hstretch.extend hlast, ?_, ?_⟩
            · rwa [List.take_append_of_le_length hi]
            · rwa [lineAt, List.take_append_of_le_length hi]
  | false =>
      obtain ⟨hfound, hopen⟩ := step_of_out hin
      have hlast : ¬ InWordAt (cs ++ [c]) cs.length := fun hin' => by simp [hlast.1 hin'] at hin
      refine ⟨hoffset, hline, fun word => ?_, fun _ k hk => ?_, fun start line hsome => ?_⟩
      · have hterminator : terminatorAt cs cs.length =
            ⟨.terminator, scan.offset, scan.offset, scan.line⟩ := by
          rw [terminatorAt, lineAt, List.take_length, h.offset, h.line]
        rw [hfound, ended_snoc_of_out hlast, ← h.mem_closed, hterminator, parted]
        split <;> simp [*]
      · rw [List.length_append, List.length_singleton] at hk
        rwa [← Nat.succ.inj hk]
      · rw [hopen] at hsome
        cases hsome

theorem tells (cs : List Char) : Tells cs (cs.foldl step begin) :=
  foldl_keeps Tells tells_nil (fun cs c h => h.step (inWordAt_last cs c)) cs

structure Ordered (scan : Scan) : Prop where
  apart : scan.closed.Pairwise fun word before => before.start < word.start
  begun : ∀ word ∈ scan.closed, word.start < scan.offset

theorem Ordered.step {scan : Scan} (h : scan.Ordered) (c : Char) : (scan.step c).Ordered := by
  have hlt : scan.offset < (scan.step c).offset := by
    rw [offset_step]
    exact Nat.lt_add_of_pos_right c.utf8Size_pos
  have hlater : ∀ word ∈ scan.closed, word.start < (scan.step c).offset :=
    fun word hword => Nat.lt_trans (h.begun word hword) hlt
  rcases step_cases scan c with ⟨hfound, hopen⟩ | ⟨-, hfound, hopen⟩
  · cases hscan : scan.open? with
    | none =>
        rw [hscan, Option.none_or] at hopen
        constructor <;> rw [closed_of_some hopen, hfound, ← closed_of_none hscan]
        · exact .cons h.begun h.apart
        · exact List.forall_mem_cons.2 ⟨hlt, hlater⟩
    | some under =>
        obtain ⟨hapart, hbegun⟩ := h
        rw [hscan, Option.some_or] at hopen
        rw [closed_of_some hscan] at hapart hlater
        obtain ⟨hbefore, hapart⟩ := List.pairwise_cons.1 hapart
        obtain ⟨hstart, hlater⟩ := List.forall_mem_cons.1 hlater
        constructor <;> rw [closed_of_some hopen, hfound]
        · exact .cons hbefore hapart
        · exact List.forall_mem_cons.2 ⟨hstart, hlater⟩
  · constructor <;> rw [closed_of_none hopen, hfound, parted]
    · split
      · exact .cons h.begun h.apart
      · exact h.apart
    · split
      · exact List.forall_mem_cons.2 ⟨hlt, hlater⟩
      · exact hlater

theorem Ordered.foldl {scan : Scan} (h : scan.Ordered) (cs : List Char) :
    (cs.foldl Scan.step scan).Ordered := by
  induction cs generalizing scan with
  | nil => exact h
  | cons c cs ih => exact ih (h.step c)

theorem ordered_begin : begin.Ordered := ⟨.nil, by simp [closed, begin]⟩

end Scan

theorem mem_split (script : String) (word : Word) : word ∈ split script ↔
    Listed script.toList word := by
  have htells := Scan.tells script.toList
  rw [split_eq_finish, Scan.finish, List.mem_reverse, List.mem_cons, htells.mem_closed,
    htells.offset, htells.line, listed_iff]
  rfl

theorem split_pairwise (script : String) : (split script).Pairwise (·.start < ·.start) := by
  have hordered := Scan.ordered_begin.foldl script.toList
  rw [split_eq_finish, Scan.finish, List.pairwise_reverse]
  exact .cons hordered.begun hordered.apart

theorem split_getLast? (script : String) :
    (split script).getLast? = some (finishOf script.toList) := by
  have htells := Scan.tells script.toList
  rw [split_eq_finish, Scan.finish, List.getLast?_reverse, List.head?_cons,
    htells.offset, htells.line]
  rfl

namespace Supply

inductive Ask where
  | next
  | rewind
  deriving DecidableEq, Repr

structure Session where
  supply : Supply
  answers : List (Option Word)
  deriving DecidableEq, Repr

namespace Session

def begin (script : String) : Session := ⟨ofScript script, []⟩

def ask (session : Session) : Ask → Session
  | .next => ⟨session.supply.next.2, session.answers ++ [session.supply.next.1]⟩
  | .rewind => ⟨session.supply.rewind, []⟩

structure Follows (script : String) (session : Session) : Prop where
  script_eq : session.supply.script = script
  left : session.supply.left = (split script).drop session.answers.length
  answers : session.answers = ((split script).take session.answers.length).map some ++
    List.replicate (session.answers.length - (split script).length) none

theorem answers_snoc (words : List Word) (count : Nat) :
    (words.take count).map some ++ List.replicate (count - words.length) none ++ [words[count]?] =
      (words.take (count + 1)).map some ++ List.replicate (count + 1 - words.length) none := by
  rcases Nat.lt_or_ge count words.length with hlt | hge
  · rw [List.take_add_one, List.getElem?_eq_getElem hlt, Nat.sub_eq_zero_of_le (Nat.le_of_lt hlt),
      Nat.sub_eq_zero_of_le hlt, List.replicate_zero, List.append_nil, List.append_nil,
      List.map_append]
    rfl
  · rw [List.take_of_length_le hge, List.take_of_length_le (Nat.le_succ_of_le hge),
      List.getElem?_eq_none hge, Nat.succ_sub hge, List.replicate_succ', List.append_assoc]

theorem follows_ofScript (script : String) : Follows script ⟨ofScript script, []⟩ :=
  ⟨rfl, (rest_spec (ofScript script)).symm, by simp⟩

theorem next_script (supply : Supply) : supply.next.2.script = supply.script := by
  unfold next
  split <;> rfl

theorem Follows.ask {script : String} {session : Session} (h : session.Follows script) (ask : Ask) :
    (session.ask ask).Follows script := by
  cases ask with
  | rewind =>
      have hrewind : session.ask .rewind = ⟨ofScript script, []⟩ := by
        rw [Session.ask, rewind, h.script_eq]
      exact hrewind ▸ follows_ofScript script
  | next =>
      obtain ⟨hhead, htail⟩ := next_spec session.supply
      rw [h.left, List.head?_drop] at hhead
      rw [h.left, List.tail_drop] at htail
      refine ⟨(next_script _).trans h.script_eq, ?_, ?_⟩
      · rw [Session.ask, htail, List.length_append, List.length_singleton]
      · have hanswers := congrArg (· ++ [(split script)[session.answers.length]?]) h.answers
        simp only [answers_snoc] at hanswers
        simpa only [Session.ask, hhead, List.length_append, List.length_singleton] using hanswers

theorem Follows.foldl {script : String} {session : Session} (h : session.Follows script)
    (asks : List Ask) :
    (asks.foldl Session.ask session).Follows script := by
  induction asks generalizing session with
  | nil => exact h
  | cons ask asks ih => exact ih (h.ask ask)

end Session

theorem answers_since_rewind (script : String) :
    (split script).Pairwise (·.start < ·.start) ∧
      (∀ word, word ∈ split script ↔ Listed script.toList word) ∧
      (split script).getLast? = some (finishOf script.toList) ∧
      ∀ asks : List Ask,
        let answers := (asks.foldl Session.ask (.begin script)).answers
        answers = ((split script).take answers.length).map some ++
          List.replicate (answers.length - (split script).length) none :=
  ⟨split_pairwise script, mem_split script, split_getLast? script,
    fun asks => ((Session.follows_ofScript script).foldl asks).answers⟩

end Supply

end SqlAtlas.Word
