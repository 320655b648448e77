import SqlAtlas.Proofs.Assignment
import SqlAtlas.Proofs.Keyed

namespace SqlAtlas

def Mention.table? (mention : Mention) : Option Table :=
  (Table.ofParts? mention.name).map fun table => { table with aliases := mention.alias?.toList }

def Mention.tables (mentions : List Mention) : List Table := mentions.filterMap Mention.table?

namespace Table

structure Address where
  database? : Option String
  schema? : Option String
  name : String
  deriving DecidableEq, Repr

def address (table : Table) : Address := ⟨table.database?, table.schema?, table.name⟩

def united? (tables : List Table) : Option Table :=
  tables.head?.map fun first => { first with aliases := (tables.flatMap Table.aliases).eraseDups }

def gathered {κ : Type} [DecidableEq κ] (key : Table → κ) (tables : List Table) : List Table :=
  ((tables.map key).eraseDups).filterMap fun k => united? (tables.filter (key · = k))

section Merge

def absorb (first other : Table) : Table :=
  other.aliases.foldl (fun table name => table.addAlias (some name)) first

variable {table first : Table} {tables : List Table}

theorem addAlias_eraseDups (table : Table) (names : List String) (name : String) :
    addAlias (some name) { table with aliases := names.eraseDups } =
      { table with aliases := (names ++ [name]).eraseDups } := by
  rw [Keyed.eraseDups_concat]
  by_cases h : name ∈ names <;> simp [addAlias, h]

theorem absorb_eraseDups (table other : Table) (names : List String) :
    absorb { table with aliases := names.eraseDups } other =
      { table with aliases := (names ++ other.aliases).eraseDups } := by
  rw [absorb]
  generalize other.aliases = more
  induction more generalizing names with
  | nil => rw [List.foldl_nil, List.append_nil]
  | cons name more ih =>
      rw [List.foldl_cons, addAlias_eraseDups, ih, List.append_assoc, List.singleton_append]

theorem joined?_absorb (h : ∀ table ∈ tables, table.aliases.eraseDups = table.aliases) :
    Keyed.joined? absorb tables = united? tables := by
  induction tables using List.reverseRecOn with
  | nil => rfl
  | append_singleton tables table ih =>
      have hrest := ih fun other hother => h other (List.mem_append_left _ hother)
      rw [Keyed.joined?_concat, hrest]
      cases tables with
      | nil =>
          have htable := h table (List.mem_append_right _ List.mem_cons_self)
          simp [united?, htable]
      | cons first tables => simp [united?, absorb_eraseDups]

theorem qualified_addAlias (alias? : Option String) (table : Table) :
    (table.addAlias alias?).qualified = table.qualified := by
  cases alias? with
  | none => rfl
  | some name => simp only [addAlias]; split <;> rfl

theorem qualified_absorb (first other : Table) :
    (first.absorb other).qualified = first.qualified := by
  rw [absorb]
  induction other.aliases generalizing first with
  | nil => rfl
  | cons name names ih => rw [List.foldl_cons, ih, qualified_addAlias]

theorem absorb_alias (first table : Table) (alias? : Option String) :
    first.absorb { table with aliases := alias?.toList } = first.addAlias alias? := by
  cases alias? <;> rfl

theorem merge_eq_put (h : table.aliases = []) (alias? : Option String) (tables : List Table) :
    table.merge alias? tables =
      Keyed.put qualified absorb { table with aliases := alias?.toList } tables := by
  have hkey : ({ table with aliases := alias?.toList } : Table).qualified = table.qualified := rfl
  induction tables with
  | nil =>
      cases table
      cases alias? <;> simp_all [merge, Keyed.put, addAlias]
  | cons first tables ih => rw [merge, Keyed.put, hkey, absorb_alias, ih]

end Merge

section Consolidate

theorem aliases_of_ofParts? {parts : List String} {table : Table}
    (h : ofParts? parts = some table) :
    table.aliases = [] := by
  unfold ofParts? at h
  split at h <;> simp_all only [reduceCtorEq, Option.some.injEq] <;> rw [← h]

theorem consolidate_eq_foldl (mentions : List Mention) :
    consolidate mentions =
      (Mention.tables mentions).foldl (fun kept table => Keyed.put qualified absorb table kept)
      [] := by
  rw [consolidate, Mention.tables, List.foldl_filterMap]
  congr
  funext tables mention
  rw [Table.mention, Mention.table?]
  cases htable : ofParts? mention.name with
  | none => rfl
  | some table => exact merge_eq_put (aliases_of_ofParts? htable) _ _

theorem aliases_of_mem_tables {mentions : List Mention} {table : Table}
    (h : table ∈ Mention.tables mentions) : table.aliases.eraseDups = table.aliases := by
  obtain ⟨mention, -, htable⟩ := List.mem_filterMap.1 h
  obtain ⟨base, -, rfl⟩ := Option.map_eq_some_iff.1 htable
  cases mention.alias? <;> rfl

theorem consolidate_eq_gathered (mentions : List Mention) :
    consolidate mentions = gathered qualified (Mention.tables mentions) := by
  rw [consolidate_eq_foldl, Keyed.foldl_put fun first other hkey =>
    (qualified_absorb first other).trans hkey]
  refine List.filterMap_congr fun k _ => joined?_absorb fun table htable => ?_
  exact aliases_of_mem_tables (List.mem_of_mem_filter htable)

end Consolidate

section Dots

def attach (front? : Option String) (name : String) : String :=
  match front? with
  | none => name
  | some front => front ++ "." ++ name

theorem eq_of_append_dot {front front' name name' : List Char} (hname : '.' ∉ name)
    (hname' : '.' ∉ name') (h : front ++ '.' :: name = front' ++ '.' :: name') : front = front' ∧
    name = name' := by
  rcases List.append_eq_append_iff.1 h with ⟨more, hfront, hrest⟩ | ⟨more, hfront, hrest⟩
  · cases more with
    | nil => simp_all
    | cons c more =>
        obtain ⟨-, hrest⟩ := List.cons.inj hrest
        simp [hrest] at hname
  · cases more with
    | nil => simp_all
    | cons c more =>
        obtain ⟨-, hrest⟩ := List.cons.inj hrest
        simp [hrest] at hname'

theorem attach_inj {front? front?' : Option String} {name name' : String}
    (hname : '.' ∉ name.toList) (hname' : '.' ∉ name'.toList)
    (h : attach front? name = attach front?' name') :
    front? = front?' ∧ name = name' := by
  have hchars := congrArg String.toList h
  cases front? with
  | none =>
      cases front?' with
      | none => exact ⟨rfl, h⟩
      | some front' =>
          rw [attach] at hchars
          simp [attach, hchars] at hname
  | some front =>
      cases front?' with
      | none =>
          rw [attach.eq_1] at hchars
          simp [attach, ← hchars] at hname'
      | some front' =>
          simp only [attach, String.toList_append, List.append_assoc] at hchars
          obtain ⟨hfront, hname⟩ := eq_of_append_dot hname hname' hchars
          exact ⟨congrArg some (String.toList_inj.1 hfront), String.toList_inj.1 hname⟩

def Undotted (table : Table) : Prop :=
  '.' ∉ table.name.toList ∧ ∀ schema ∈ table.schema?, '.' ∉ schema.toList

variable {mentions : List Mention} {table left right : Table}

theorem database?_of_mem_tables (h : table ∈ Mention.tables mentions)
    (hschema : table.schema? = none) :
    table.database? = none := by
  obtain ⟨mention, -, htable⟩ := List.mem_filterMap.1 h
  obtain ⟨base, hbase, rfl⟩ := Option.map_eq_some_iff.1 htable
  unfold ofParts? at hbase
  split at hbase <;> simp only [reduceCtorEq, Option.some.injEq] at hbase <;> subst hbase <;>
    simp_all only [reduceCtorEq]

theorem qualified_eq_attach (h : table ∈ Mention.tables mentions) :
    table.qualified = attach (table.schema?.map (attach table.database?)) table.name := by
  rw [qualified]
  cases hschema : table.schema? with
  | none => simp [database?_of_mem_tables h hschema, attach]
  | some schema => cases table.database? <;> simp [attach, String.append_assoc]

theorem address_eq_of_undotted (hleft : left ∈ Mention.tables mentions)
    (hright : right ∈ Mention.tables mentions) (hdots : left.Undotted) (hdots' : right.Undotted)
    (h : left.qualified = right.qualified) : left.address = right.address := by
  rw [qualified_eq_attach hleft, qualified_eq_attach hright] at h
  obtain ⟨hfronts, hname⟩ := attach_inj hdots.1 hdots'.1 h
  cases hschema : left.schema? with
  | none =>
      have hschema' : right.schema? = none := by
        rw [hschema, Option.map_none] at hfronts
        exact Option.map_eq_none_iff.1 hfronts.symm
      rw [address, address, hname, hschema, hschema', database?_of_mem_tables hleft hschema,
        database?_of_mem_tables hright hschema']
  | some schema =>
      obtain ⟨schema', hschema', hattached⟩ :
          ∃ schema', right.schema? = some schema' ∧
            attach right.database? schema' = attach left.database? schema := by
        rw [hschema, Option.map_some] at hfronts
        exact Option.map_eq_some_iff.1 hfronts.symm
      obtain ⟨hdatabase, hschemas⟩ :=
        attach_inj (hdots'.2 schema' hschema') (hdots.2 schema hschema) hattached
      rw [address, address, hname, hschema, hschema', hdatabase, hschemas]

end Dots

section Collisions

variable {κ : Type} [DecidableEq κ] {key : Table → κ} {tables : List Table}

theorem map_key_gathered (hkey : ∀ table aliases, key { table with aliases := aliases } = key table)
    (tables : List Table) : (gathered key tables).map key = (tables.map key).eraseDups := by
  rw [gathered, List.map_filterMap]
  refine (List.filterMap_congr fun k hk => ?_).trans List.filterMap_some
  obtain ⟨table, htable, rfl⟩ := List.mem_map.1 (List.mem_eraseDups.1 hk)
  have hmem : table ∈ tables.filter (key · = key table) := List.mem_filter.2 ⟨htable, by simp⟩
  obtain ⟨first, rest, hsame⟩ := List.exists_cons_of_ne_nil (List.ne_nil_of_mem hmem)
  have hfirst : first ∈ tables.filter (key · = key table) := hsame ▸ List.mem_cons_self
  rw [hsame, united?, List.head?_cons, Option.map_some, Option.map_some, hkey]
  exact congrArg some (of_decide_eq_true (List.mem_filter.1 hfirst).2)

def Distinguished (tables : List Table) : Prop :=
  ∀ left ∈ tables, ∀ right ∈ tables, left.qualified = right.qualified → left.address = right.address

def Address.qualified (address : Address) : String :=
  Table.qualified ⟨address.name, address.schema?, address.database?, []⟩

theorem qualified_eq_of_address {left right : Table} (h : left.address = right.address) :
    left.qualified = right.qualified := congrArg Address.qualified h

theorem gathered_qualified_of_distinguished (h : Distinguished tables) :
    gathered qualified tables = gathered address tables := by
  have hkeys : (tables.map qualified).eraseDups =
      ((tables.map address).eraseDups).map Address.qualified := by
    rw [← Keyed.eraseDups_map, List.map_map]
    · rfl
    · intro left hleft right hright heq
      obtain ⟨table, htable, rfl⟩ := List.mem_map.1 hleft
      obtain ⟨other, hother, rfl⟩ := List.mem_map.1 hright
      exact h table htable other hother heq
  rw [gathered, hkeys, List.filterMap_map, gathered]
  refine List.filterMap_congr fun k hk => ?_
  refine congrArg united? (List.filter_congr fun other hother => ?_)
  obtain ⟨table, htable, rfl⟩ := List.mem_map.1 (List.mem_eraseDups.1 hk)
  exact decide_eq_decide.2 ⟨h other hother table htable, qualified_eq_of_address⟩

theorem distinguished_of_gathered (h : gathered qualified tables = gathered address tables) :
    Distinguished tables := by
  have hkept (table : Table) (htable : table ∈ tables) :
      ∃ kept ∈ gathered qualified tables, kept.address = table.address := by
    have hmem : table.address ∈ (gathered address tables).map address := by
      rw [map_key_gathered (fun _ _ => rfl)]
      exact List.mem_eraseDups.2 (List.mem_map_of_mem htable)
    rw [← h] at hmem
    exact List.mem_map.1 hmem
  have hnodup : ((gathered qualified tables).map qualified).Nodup := by
    rw [map_key_gathered (fun _ _ => rfl)]
    exact Keyed.nodup_eraseDups _
  intro left hleft right hright hqualified
  obtain ⟨kept, hmem, hkeptLeft⟩ := hkept left hleft
  obtain ⟨other, hother, hkeptRight⟩ := hkept right hright
  have hsame : kept.qualified = other.qualified := by
    rw [qualified_eq_of_address hkeptLeft, qualified_eq_of_address hkeptRight, hqualified]
  rw [← hkeptLeft, ← hkeptRight, List.inj_on_of_nodup_map hnodup hmem hother hsame]

theorem distinguished_of_undotted {mentions : List Mention}
    (h : ∀ table ∈ Mention.tables mentions, table.Undotted) :
    Distinguished (Mention.tables mentions) :=
  fun left hleft right hright =>
    address_eq_of_undotted hleft hright (h left hleft) (h right hright)

end Collisions

end Table

theorem Query.tables_ofDraft (draft : Draft) :
    (Query.ofDraft draft).all.map (fun query => (query.id, query.tables)) =
      draft.all.map (fun inner =>
        (inner.id, Table.gathered Table.qualified (Mention.tables inner.mentions))) ∧
    ∀ inner ∈ draft.all,
      (Table.gathered Table.qualified (Mention.tables inner.mentions) =
          Table.gathered Table.address (Mention.tables inner.mentions) ↔
        Table.Distinguished (Mention.tables inner.mentions)) ∧
      ((∀ table ∈ Mention.tables inner.mentions, table.Undotted) →
        Table.Distinguished (Mention.tables inner.mentions)) := by
  refine ⟨?_, fun inner _ =>
    ⟨⟨Table.distinguished_of_gathered, Table.gathered_qualified_of_distinguished⟩,
    Table.distinguished_of_undotted⟩⟩
  rw [← Query.held_nil]
  refine Query.map_all_held (fun tokens draft => ?_) [] draft
  rw [← Table.consolidate_eq_gathered]
  cases draft
  rfl

theorem Query.not_tables_ofDraft_by_address :
    ¬ ∀ draft : Draft, (Query.ofDraft draft).tables =
      Table.gathered Table.address (Mention.tables draft.mentions) := by
  intro h
  have hdotted := h ⟨0, false, .select, ⟨1, 1, 0, 22⟩, none,
    [⟨["a.b"], none⟩, ⟨["a", "b"], none⟩], [], []⟩
  revert hdotted
  decide +kernel

end SqlAtlas
