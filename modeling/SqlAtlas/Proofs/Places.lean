import SqlAtlas.Tree

namespace SqlAtlas

/-- A place in a forest, from the inside out: the index of a node among its siblings stands before
the place of the node around it. -/
abbrev Path := List Nat

namespace Node

variable {ν σ : Type}

def childrenAt (roots : List (Node ν σ)) : Path → List (Node ν σ)
  | [] => roots
  | i :: path => ((childrenAt roots path)[i]?).elim [] children

def at? (roots : List (Node ν σ)) : Path → Option (Node ν σ)
  | [] => none
  | i :: path => (childrenAt roots path)[i]?

def holdsQuery : Node ν σ → Bool
  | .node (.statement _) _ _ | .node .subquery _ _ | .node .commonTable _ _ => true
  | .node (.table _ _) _ _ | .node (.derived _) _ _ => false

theorem holdsQuery_eq (node : Node ν σ) : node.holdsQuery = node.construct.isQuery := by
  cases node with
  | node construct extent children => cases construct <;> rfl

def isQueryAt (roots : List (Node ν σ)) (path : Path) : Bool := (at? roots path).any holdsQuery

def owner? (roots : List (Node ν σ)) : Path → Option Path
  | [] => none
  | _ :: path => if isQueryAt roots path then some path else owner? roots path

mutual

def places (path : Path) : Node ν σ → List (Path × Node ν σ)
  | .node construct extent children =>
      (path, .node construct extent children) :: placesAll path 0 children

def placesAll (path : Path) (i : Nat) : List (Node ν σ) → List (Path × Node ν σ)
  | [] => []
  | first :: rest => places (i :: path) first ++ placesAll path (i + 1) rest

end

theorem places_eq (path : Path) (node : Node ν σ) :
    places path node = (path, node) :: placesAll path 0 node.children := by
  cases node
  rfl

theorem childrenAt_of_at? {roots : List (Node ν σ)} {i : Nat} {path : Path} {node : Node ν σ}
    (h : at? roots (i :: path) = some node) :
    (childrenAt roots (i :: path)).drop 0 = node.children := by
  rw [at?] at h
  rw [childrenAt, h]
  rfl

theorem siblings_of_drop {roots nodes : List (Node ν σ)} {node : Node ν σ} {path : Path} {i : Nat}
    (h : (childrenAt roots path).drop i = node :: nodes) :
    at? roots (i :: path) = some node ∧ (childrenAt roots path).drop (i + 1) = nodes := by
  constructor
  · rw [at?, ← List.head?_drop, h]
    rfl
  · rw [← List.tail_drop, h]
    rfl

mutual

theorem suffix_of_mem_places {path : Path} {node : Node ν σ} {entry : Path × Node ν σ}
    (h : entry ∈ places path node) : path <:+ entry.1 := by
  cases node with
  | node construct extent children =>
      rcases List.mem_cons.1 h with rfl | hinner
      · exact List.suffix_rfl
      · obtain ⟨j, -, hsuffix⟩ := suffix_of_mem_placesAll hinner
        exact (List.suffix_cons j path).trans hsuffix

theorem suffix_of_mem_placesAll {path : Path} {i : Nat} {nodes : List (Node ν σ)}
    {entry : Path × Node ν σ} (h : entry ∈ placesAll path i nodes) :
    ∃ j, i ≤ j ∧ (j :: path) <:+ entry.1 := by
  cases nodes with
  | nil => cases h
  | cons node nodes =>
      rcases List.mem_append.1 h with hfirst | hrest
      · exact ⟨i, Nat.le_refl i, suffix_of_mem_places hfirst⟩
      · obtain ⟨j, hle, hsuffix⟩ := suffix_of_mem_placesAll hrest
        exact ⟨j, Nat.le_of_succ_le hle, hsuffix⟩

end

theorem index_unique {i j : Nat} {path place : Path} (hi : (i :: path) <:+ place)
    (hj : (j :: path) <:+ place) : i = j := by
  have h := (List.suffix_of_suffix_length_le hi hj (Nat.le_refl _)).eq_of_length rfl
  exact (List.cons.inj h).1

mutual

theorem at?_of_mem_places {roots : List (Node ν σ)} {i : Nat} {path : Path} {node : Node ν σ}
    {entry : Path × Node ν σ} (hat : at? roots (i :: path) = some node)
    (h : entry ∈ places (i :: path) node) : at? roots entry.1 = some entry.2 := by
  cases node with
  | node construct extent children =>
      rcases List.mem_cons.1 h with rfl | hinner
      · exact hat
      · exact at?_of_mem_placesAll (childrenAt_of_at? hat) hinner

theorem at?_of_mem_placesAll {roots : List (Node ν σ)} {i : Nat} {path : Path}
    {nodes : List (Node ν σ)} {entry : Path × Node ν σ}
    (hat : (childrenAt roots path).drop i = nodes) (h : entry ∈ placesAll path i nodes) :
    at? roots entry.1 = some entry.2 := by
  cases nodes with
  | nil => cases h
  | cons node nodes =>
      obtain ⟨hnode, hnodes⟩ := siblings_of_drop hat
      rcases List.mem_append.1 h with hfirst | hrest
      · exact at?_of_mem_places hnode hfirst
      · exact at?_of_mem_placesAll hnodes hrest

end

theorem mem_placesAll_of_getElem? {path : Path} {i j : Nat} {nodes : List (Node ν σ)}
    {node : Node ν σ} (h : nodes[j]? = some node) :
    ∀ entry ∈ places ((i + j) :: path) node, entry ∈ placesAll path i nodes := by
  induction nodes generalizing i j with
  | nil => simp at h
  | cons first nodes ih =>
      intro entry hentry
      cases j with
      | zero =>
          obtain rfl : first = node := by simpa using h
          exact List.mem_append_left _ hentry
      | succ j =>
          refine List.mem_append_right _ (ih (i := i + 1) (by simpa using h) entry ?_)
          rwa [Nat.add_assoc, Nat.add_comm 1 j]

mutual

theorem places_subset {path : Path} {node : Node ν σ} {entry : Path × Node ν σ}
    (h : entry ∈ places path node) :
    ∀ inner ∈ places entry.1 entry.2, inner ∈ places path node := by
  cases node with
  | node construct extent children =>
      rcases List.mem_cons.1 h with rfl | hinner
      · exact fun inner h => h
      · exact fun inner h => List.mem_cons_of_mem _ (placesAll_subset hinner inner h)

theorem placesAll_subset {path : Path} {i : Nat} {nodes : List (Node ν σ)} {entry : Path × Node ν σ}
    (h : entry ∈ placesAll path i nodes) :
    ∀ inner ∈ places entry.1 entry.2, inner ∈ placesAll path i nodes := by
  cases nodes with
  | nil => cases h
  | cons node nodes =>
      intro inner hinner
      rcases List.mem_append.1 h with hfirst | hrest
      · exact List.mem_append_left _ (places_subset hfirst inner hinner)
      · exact List.mem_append_right _ (placesAll_subset hrest inner hinner)

end

theorem mem_placesAll_iff (roots : List (Node ν σ)) (path : Path) (node : Node ν σ) :
    (path, node) ∈ placesAll [] 0 roots ↔ at? roots path = some node := by
  constructor
  · have hroots : (childrenAt roots []).drop 0 = roots := rfl
    exact fun h => at?_of_mem_placesAll hroots h
  · intro h
    induction path generalizing node with
    | nil => cases h
    | cons i path ih =>
        have hself : (i :: path, node) ∈ places (i :: path) node := by
          rw [places_eq]
          exact List.mem_cons_self
        cases path with
        | nil =>
            refine mem_placesAll_of_getElem? (j := i) h _ ?_
            rwa [Nat.zero_add]
        | cons j path =>
            rw [at?, childrenAt] at h
            cases hparent : at? roots (j :: path) with
            | none =>
                rw [at?] at hparent
                simp [hparent] at h
            | some parent =>
                have hmem := ih parent hparent
                rw [at?] at hparent
                rw [hparent, Option.elim_some] at h
                refine placesAll_subset hmem _ ?_
                rw [places_eq]
                refine List.mem_cons_of_mem _ (mem_placesAll_of_getElem? (j := i) h _ ?_)
                rwa [Nat.zero_add]

theorem reverse_lt_of_suffix {i : Nat} {path place : Path} (h : (i :: path) <:+ place) :
    path.reverse < place.reverse := by
  obtain ⟨more, rfl⟩ := h
  rw [List.reverse_append, List.reverse_cons, List.append_assoc]
  have hlt : path.reverse ++ [] < path.reverse ++ i :: more.reverse :=
    List.append_left_lt (List.nil_lt_cons i more.reverse)
  simpa using hlt

theorem reverse_lt_of_lt {i j : Nat} (hij : i < j) {path place place' : Path}
    (h : (i :: path) <:+ place) (h' : (j :: path) <:+ place') : place.reverse < place'.reverse := by
  obtain ⟨more, rfl⟩ := h
  obtain ⟨more', rfl⟩ := h'
  simp only [List.reverse_append, List.reverse_cons, List.append_assoc]
  exact List.append_left_lt (List.cons_lt_cons_iff.2 (.inl hij))

mutual

theorem places_sorted (path : Path) (node : Node ν σ) :
    (places path node).Pairwise fun entry next => entry.1.reverse < next.1.reverse := by
  cases node with
  | node construct extent children =>
      refine List.pairwise_cons.2 ⟨fun entry hentry => ?_, placesAll_sorted path 0 children⟩
      obtain ⟨j, -, hsuffix⟩ := suffix_of_mem_placesAll hentry
      exact reverse_lt_of_suffix hsuffix

theorem placesAll_sorted (path : Path) (i : Nat) (nodes : List (Node ν σ)) :
    (placesAll path i nodes).Pairwise fun entry next => entry.1.reverse < next.1.reverse := by
  cases nodes with
  | nil => exact .nil
  | cons node nodes =>
      refine List.pairwise_append.2
        ⟨places_sorted (i :: path) node, placesAll_sorted path (i + 1) nodes,
        fun entry hentry next hnext => ?_⟩
      obtain ⟨j, hle, hsuffix⟩ := suffix_of_mem_placesAll hnext
      exact reverse_lt_of_lt hle (suffix_of_mem_places hentry) hsuffix

end

section Owner

variable (roots : List (Node ν σ))

variable {roots} in
theorem suffix_of_owner? {i : Nat} {path owner : Path} (h : owner? roots (i :: path) = some owner) :
    owner <:+ path := by
  induction path generalizing i with
  | nil => simp [owner?, isQueryAt, at?] at h
  | cons j path ih =>
      rw [owner?] at h
      split at h
      · obtain rfl := Option.some.inj h
        exact List.suffix_rfl
      · exact (ih h).trans (List.suffix_cons j path)

variable {roots} in
theorem isQueryAt_of_owner? {path owner : Path} (h : owner? roots path = some owner) :
    isQueryAt roots owner = true := by
  induction path with
  | nil => cases h
  | cons i path ih =>
      rw [owner?] at h
      split at h
      · next hquery =>
          obtain rfl := Option.some.inj h
          exact hquery
      · exact ih h

theorem owner?_below {i : Nat} {path place : Path} (h : (i :: path) <:+ place) :
    owner? roots place = owner? roots (i :: path) ∨
      ∃ owner, owner? roots place = some owner ∧ (i :: path) <:+ owner := by
  induction place with
  | nil => simp at h
  | cons j place ih =>
      rcases List.suffix_cons_iff.1 h with heq | hbelow
      · exact .inl (by rw [heq])
      · rw [owner?]
        split
        · exact .inr ⟨place, rfl, hbelow⟩
        · exact ih hbelow

theorem owner?_ne_below {i : Nat} {path place : Path} (h : (i :: path) <:+ place) :
    owner? roots (i :: path) ≠ some place := by
  intro howner
  have hle := (suffix_of_owner? howner).length_le
  have hlt := h.length_le
  rw [List.length_cons] at hlt
  omega

theorem owner?_ne_apart {i j : Nat} {path place other : Path} (hij : i ≠ j)
    (h : (i :: path) <:+ place) (h' : (j :: path) <:+ other) : owner? roots other ≠ some place := by
  intro howner
  rcases owner?_below roots h' with hsame | ⟨owner, hsome, hbelow⟩
  · exact owner?_ne_below roots h (hsame.symm.trans howner)
  · obtain rfl : owner = place := Option.some.inj (hsome.symm.trans howner)
    exact hij (index_unique h hbelow)

section Inner

variable {roots} {i : Nat} {path : Path} {nodes : List (Node ν σ)} {entry : Path × Node ν σ}
  (h : entry ∈ placesAll (i :: path) 0 nodes)
include h

theorem owner?_ne_inner : owner? roots (i :: path) ≠ some entry.1 := by
  obtain ⟨j, -, hsuffix⟩ := suffix_of_mem_placesAll h
  exact owner?_ne_below roots ((List.suffix_cons j _).trans hsuffix)

theorem owner?_inner_ne (hquery : isQueryAt roots (i :: path) = true) :
    owner? roots entry.1 ≠ owner? roots (i :: path) := by
  obtain ⟨j, -, hsuffix⟩ := suffix_of_mem_placesAll h
  rcases owner?_below roots hsuffix with hsame | ⟨owner, hsome, hbelow⟩
  · rw [hsame, owner?, if_pos hquery]
    exact (owner?_ne_below roots List.suffix_rfl).symm
  · rw [hsome]
    exact (owner?_ne_below roots ((List.suffix_cons j _).trans hbelow)).symm

end Inner

end Owner

end Node

end SqlAtlas
