namespace SqlAtlas.Text

def bytes (cs : List Char) : Nat := cs.foldr (fun c count => c.utf8Size + count) 0

@[simp] theorem bytes_nil : bytes [] = 0 := rfl

@[simp] theorem bytes_cons (c : Char) (cs : List Char) :
    bytes (c :: cs) = c.utf8Size + bytes cs := rfl

@[simp] theorem bytes_append (cs ds : List Char) : bytes (cs ++ ds) = bytes cs + bytes ds := by
  induction cs with
  | nil => simp
  | cons c cs ih => simp [ih, Nat.add_assoc]

theorem bytes_ofList (cs : List Char) : (String.ofList cs).utf8ByteSize = bytes cs := by
  induction cs with
  | nil => simp
  | cons c cs ih => simp [String.ofList_cons, String.utf8ByteSize_append, ih]

theorem bytes_toList (text : String) : bytes text.toList = text.utf8ByteSize := by
  rw [← bytes_ofList, String.ofList_toList]

theorem bytes_eq_zero_iff {cs : List Char} : bytes cs = 0 ↔ cs = [] := by
  cases cs with
  | nil => simp
  | cons c cs =>
      have hc := c.utf8Size_pos
      simp only [bytes_cons, reduceCtorEq, iff_false]
      omega

def lineFeeds (cs : List Char) : Nat := cs.count '\n'

@[simp] theorem lineFeeds_append (cs ds : List Char) :
    lineFeeds (cs ++ ds) = lineFeeds cs + lineFeeds ds := by
  simp [lineFeeds]

def slice? (first stop : Nat) (text : String) : Option String :=
  if h : String.Pos.Raw.IsValid text ⟨first⟩ ∧ String.Pos.Raw.IsValid text ⟨stop⟩ ∧
    first ≤ stop then
    some (String.extract (text.pos ⟨first⟩ h.1) (text.pos ⟨stop⟩ h.2.1))
  else none

theorem slice?_append (front part rest : String) :
    slice? front.utf8ByteSize (front.utf8ByteSize + part.utf8ByteSize) (front ++ part ++ rest) =
      some part := by
  have hfirst : String.Pos.Raw.IsValid (front ++ part ++ rest) ⟨front.utf8ByteSize⟩ :=
    String.Pos.Raw.isValid_iff_exists_append.mpr ⟨front, part ++ rest, String.append_assoc, rfl⟩
  have hstop : String.Pos.Raw.IsValid (front ++ part ++ rest)
      ⟨front.utf8ByteSize + part.utf8ByteSize⟩ :=
    String.Pos.Raw.isValid_iff_exists_append.mpr
      ⟨front ++ part, rest, rfl, by simp [String.Pos.Raw.ext_iff]⟩
  rw [slice?, dif_pos ⟨hfirst, hstop, by omega⟩, String.extract_eq_copy_slice _ _
    (by simp [String.Pos.le_iff, String.pos, String.Pos.Raw.le_iff])]
  congr 1
  refine (String.copy_slice_eq_iff_splits.mpr
    ⟨front, rest, ⟨String.append_assoc, rfl⟩, ⟨rfl, ?_⟩⟩).2
  simp [String.pos, String.Pos.Raw.ext_iff]

theorem slice?_eq_some_iff {first stop : Nat} {text part : String} :
    slice? first stop text = some part ↔
      ∃ front rest, text = front ++ part ++ rest ∧ front.utf8ByteSize = first ∧
        front.utf8ByteSize + part.utf8ByteSize = stop := by
  constructor
  · intro h
    unfold slice? at h
    split at h
    next valid =>
      rw [Option.some.injEq, String.extract_eq_copy_slice _ _
        (by simpa [String.Pos.le_iff] using valid.2.2)] at h
      obtain ⟨front, rest, hfirst, hstop⟩ := String.copy_slice_eq_iff_splits.mp ⟨_, h⟩
      have hfront := hfirst.offset_eq_rawEndPos
      have hpart := hstop.offset_eq_rawEndPos
      simp [String.pos, String.Pos.Raw.ext_iff] at hfront hpart
      exact ⟨front, rest, hstop.eq_append, hfront.symm, hpart.symm⟩
    next => simp at h
  · rintro ⟨front, rest, rfl, rfl, rfl⟩
    exact slice?_append front part rest

def reach (count : Nat) : Nat → List Char → Nat
  | 0, _ => count
  | _ + 1, [] => count
  | n + 1, c :: cs => reach (count + 1) (n + 1 - c.utf8Size) cs

theorem reach_eq_add (count n : Nat) (cs : List Char) :
    reach count n cs = count + reach 0 n cs := by
  induction cs generalizing count n with
  | nil => cases n <;> rfl
  | cons c cs ih =>
      cases n with
      | zero => rfl
      | succ n =>
          rw [reach, reach, ih (count + 1), ih 1]
          omega

def covering (n : Nat) (cs : List Char) : List Char := cs.take (reach 0 n cs)

@[simp] theorem covering_zero (cs : List Char) : covering 0 cs = [] := by
  cases cs <;> rfl

@[simp] theorem covering_nil (n : Nat) : covering n [] = [] := by
  simp [covering]

@[simp] theorem covering_succ_cons (n : Nat) (c : Char) (cs : List Char) :
    covering (n + 1) (c :: cs) = c :: covering (n + 1 - c.utf8Size) cs := by
  rw [covering, reach, reach_eq_add, Nat.add_comm]
  rfl

end SqlAtlas.Text
