import DuckDB.Catalog.TableDefinition
import DuckDB.Parser.Equiv.CheckExpression

/-!
# Which table definitions survive storage

A table is written to a checkpoint and to the log without the default values of its columns, and the
CHECK constraints that are read back from a checkpoint are not bound again.

## Main results

- `TableContext.exact_deserialize` — what is read back of a table
- `TableContext.survives_iff` — the tables that are the same after both ways of storing them
- `TableContext.not_survives_plainTable` — a column without a default value has one afterwards
-/

namespace DuckDB

open List Theory Serializer Deserializer CheckExpression

variable {V B : Type}

/-! ### Creating a table -/

theorem eq_append_of_addColumns {done entries columns : List (ColumnDefinition V SQLType)}
    (h : addColumns done entries = .ok columns) : columns = done ++ entries := by
  induction entries generalizing done with
  | nil =>
    rw [append_nil]
    exact (Except.ok.inj h).symm
  | cons entry entries ih =>
    rw [addColumns] at h
    split at h
    · cases h
    · rw [ih h, append_assoc, singleton_append]

/-- The definition that a table was created from. -/
def TableDefinition.info (table : TableDefinition V B) : CreateTableInformation V B where
  schema := table.schema
  table := table.name
  columns := table.columns
  constraints := table.constraints

theorem info_of_createTable {info : CreateTableInformation V B} {table : TableDefinition V B}
    (h : createTable info = .ok table) : table.info = info := by
  obtain ⟨columns, hcolumns, h⟩ := bind_eq_ok.1 h
  obtain ⟨-, -, h⟩ := bind_eq_ok.1 h
  obtain ⟨indexes, -, h⟩ := bind_eq_ok.1 h
  obtain rfl := Except.ok.inj h
  have heq := eq_append_of_addColumns hcolumns
  rw [nil_append] at heq
  rw [TableDefinition.info, heq]

namespace TableContext

variable (ctx : TableContext V B) {table : String} {columns : List (ColumnDefinition V SQLType)}
  {constraint bound : TableConstraint V B} {info : CreateTableInformation V B} {ctype : KeyType}

theorem bindConstraint_cases (h : ctx.bindConstraint table columns constraint = .ok bound) :
    bound = constraint ∧ (∀ expression, constraint ≠ .check expression) ∧
        (∀ expression unbound, constraint ≠ .boundCheck expression unbound) ∨
      ∃ expression condition, constraint = .check expression ∧
        bound = .boundCheck condition expression.copy := by
  cases constraint with
  | check expression =>
    obtain ⟨condition, -, h⟩ := bind_eq_ok.1 h
    exact .inr ⟨expression, condition, rfl, (Except.ok.inj h).symm⟩
  | boundCheck expression unbound => cases h
  | notNull index | parsedIndex ctype index | parsedColumns ctype columns =>
    exact .inl ⟨(Except.ok.inj h).symm, by simp, by simp⟩

/-! ### Reading back -/

/-- What is read back of a constraint: its numbers, texts and lists fit, the index of a key is not
the one that stands for names, and it is not a bound CHECK constraint. -/
def ConstraintFits : TableConstraint V B → Prop
  | .notNull index => index < 256 ^ 8
  | .check expression => expression.Fits ctx.format
  | .boundCheck _ _ => False
  | .parsedIndex _ index => index < 256 ^ 8 ∧ index ≠ noIndex
  | .parsedColumns _ columns => columns.length < 256 ^ 4 ∧ ∀ name ∈ columns, TextFits name

theorem at_parsedIndex (index : ℕ) :
    Exact.At (write 8 index ++ write 4 0) (do
        let index ← read 8
        let columnCount ← read 4
        deserializeParsed.rest ctype index columnCount)
      (.parsedIndex ctype index : TableConstraint V B) (index < 256 ^ 8 ∧ index ≠ noIndex) where
  read_write hfits rest := by
    rw [append_assoc, (exact_read 8).bind_write hfits.1,
      (exact_read 4).bind_write (Nat.pow_pos (by decide)), deserializeParsed.rest, if_neg hfits.2]
    rfl
  fits_of_read rest rest' hread := by
    rw [append_assoc] at hread
    obtain ⟨number, middle, hnumber, hnext⟩ := Reader.bind_eq_ok.1 hread
    obtain ⟨count, last, -, hrest⟩ := Reader.bind_eq_ok.1 hnext
    rw [deserializeParsed.rest] at hrest
    split_ifs at hrest with hnames
    · obtain ⟨columns, _, -, hpure⟩ := Reader.bind_eq_ok.1 hrest
      obtain ⟨heq, -⟩ := Reader.pure_eq_ok.1 hpure
      cases heq
    · obtain ⟨heq, -⟩ := Reader.pure_eq_ok.1 hrest
      cases heq
      exact ⟨(exact_read 8).fits_of_read _ _ _ hnumber, hnames⟩

theorem at_parsedColumns (columns : List String) :
    Exact.At (write 8 noIndex ++ writeList writeString columns) (do
        let index ← read 8
        let columnCount ← read 4
        deserializeParsed.rest ctype index columnCount)
      (.parsedColumns ctype columns : TableConstraint V B)
      (columns.length < 256 ^ 4 ∧ ∀ name ∈ columns, TextFits name) := by
  refine .tag (exact_read 8) (by decide) ?_
  have h := (exact_readList exact_readString).at_map
    (f := (TableConstraint.parsedColumns ctype : List String → TableConstraint V B))
    (fun _ _ h => by cases h; rfl) columns
  rw [readList, bind_assoc] at h
  simp only [deserializeParsed.rest, if_true]
  exact h

/-- The text of a CHECK constraint may be read back by accident, so it is left out here. -/
theorem at_deserializeConstraint (hcheck : ∀ expression, constraint ≠ .check expression) :
    Exact.At (ctx.serializeConstraint constraint) ctx.deserializeConstraint constraint
      (ctx.ConstraintFits constraint) := by
  have hkey : ∀ ctype, keyNumber ctype < 256 ^ 4 := by
    intro ctype
    cases ctype <;> decide
  cases constraint with
  | notNull index =>
    refine .tag (exact_read 4) (by decide) ?_
    exact (exact_read 8).at_map (fun _ _ h => by cases h; rfl) index
  | check expression => exact absurd rfl (hcheck expression)
  | boundCheck expression unbound =>
    -- it comes back unbound
    refine .tag (exact_read 4) (by decide) ⟨fun h => h.elim, fun rest rest' hread => ?_⟩
    obtain ⟨_, middle, -, hpure⟩ := Reader.bind_eq_ok.1 hread
    obtain ⟨heq, -⟩ := Reader.pure_eq_ok.1 hpure
    cases heq
  | parsedIndex ctype index =>
    refine .tag (exact_read 4) (by decide) (.tag (exact_read 4) (hkey ctype) ?_)
    cases ctype <;> exact at_parsedIndex index
  | parsedColumns ctype columns =>
    refine .tag (exact_read 4) (by decide) (.tag (exact_read 4) (hkey ctype) ?_)
    cases ctype <;> exact at_parsedColumns columns

/-- What is read back of a column: it must have the default value that the constructor sets. -/
def ColumnFits (column : ColumnDefinition V SQLType) : Prop :=
  TextFits column.name ∧ column.type.Fits ∧
    column.hasDefault = true ∧ column.defaultValue = ctx.integerZero

theorem exact_deserializeColumn : Exact serializeColumn ctx.deserializeColumn ctx.ColumnFits where
  read_write column hfits rest := by
    obtain ⟨hname, htype, hdefault, hvalue⟩ := hfits
    obtain ⟨name, type, hasDefault, defaultValue⟩ := column
    obtain rfl : hasDefault = true := hdefault
    obtain rfl : defaultValue = ctx.integerZero := hvalue
    rw [serializeColumn, append_assoc, deserializeColumn, exact_readString.bind_write hname,
      SQLType.exact_deserialize.bind_write htype]
    rfl
  fits_of_read column rest rest' hread := by
    rw [serializeColumn, append_assoc] at hread
    obtain ⟨name, middle, hname, hnext⟩ := Reader.bind_eq_ok.1 hread
    obtain ⟨type, last, htype, hpure⟩ := Reader.bind_eq_ok.1 hnext
    obtain ⟨rfl, -⟩ := Reader.pure_eq_ok.1 hpure
    obtain rfl := (exact_readString.toAt _).rest_eq hname
    exact ⟨exact_readString.fits_of_read _ _ _ hname,
      SQLType.exact_deserialize.fits_of_read _ _ _ htype, rfl, rfl⟩

/-- What is read back of a definition. -/
structure InfoFits (info : CreateTableInformation V B) : Prop where
  schema : TextFits info.schema
  table : TextFits info.table
  columns : info.columns.length < 256 ^ 4 ∧ ∀ column ∈ info.columns, ctx.ColumnFits column
  constraints : info.constraints.length < 256 ^ 4 ∧
    ∀ constraint ∈ info.constraints, ctx.ConstraintFits constraint

/-- **A stored definition** is read back exactly if it fits. -/
theorem at_deserialize {table : TableDefinition V B}
    (hchecks : ∀ constraint ∈ table.constraints, ∀ expression, constraint ≠ .check expression) :
    Exact.At (ctx.serialize table) ctx.deserialize table.info (ctx.InfoFits table.info) := by
  have hconstraints := at_readList fun constraint hconstraint =>
    ctx.at_deserializeConstraint (hchecks constraint hconstraint)
  have hpairs := ((exact_readString.toAt table.schema).pair
    ((exact_readString.toAt table.name).pair
      (((exact_readList ctx.exact_deserializeColumn).toAt table.columns).pair hconstraints))).map
    (f := fun p : String × String × List (ColumnDefinition V SQLType) × List (TableConstraint V B) =>
      ({ schema := p.1, table := p.2.1, columns := p.2.2.1, constraints := p.2.2.2 } :
        CreateTableInformation V B))
    (by rintro ⟨_, _, _, _⟩ ⟨_, _, _, _⟩ h; cases h; rfl)
  simp only [bind_assoc, pure_bind] at hpairs
  exact ⟨fun h => hpairs.read_write ⟨h.schema, h.table, h.columns, h.constraints⟩,
    fun rest rest' hread =>
      have h := hpairs.fits_of_read rest rest' hread
      ⟨h.1, h.2.1, h.2.2.1, h.2.2.2⟩⟩

/-! ### Surviving storage -/

/-- The constraint of a CREATE TABLE statement is bound, stored and read back: CHECK constraints are
not. -/
def ConstraintStorable : TableConstraint V B → Prop
  | .check _ => False
  | constraint => ctx.ConstraintFits constraint

/-- The table survives: every column has `INTEGER 0` as its default value, there is no CHECK
constraint, and all numbers, texts and lists fit into the bytes that they are stored in. -/
structure Storable (info : CreateTableInformation V B) : Prop where
  schema : TextFits info.schema
  table : TextFits info.table
  columns : info.columns.length < 256 ^ 4 ∧ ∀ column ∈ info.columns, ctx.ColumnFits column
  constraints : info.constraints.length < 256 ^ 4 ∧
    ∀ constraint ∈ info.constraints, ctx.ConstraintStorable constraint

variable {ctx}

theorem constraintFits_iff (h : ctx.bindConstraint table columns constraint = .ok bound) :
    ctx.ConstraintFits bound ↔ ctx.ConstraintStorable constraint := by
  rcases ctx.bindConstraint_cases h with ⟨rfl, hcheck, -⟩ | ⟨expression, condition, rfl, rfl⟩
  · cases bound with
    | check expression => exact absurd rfl (hcheck expression)
    | _ => exact Iff.rfl
  · exact Iff.rfl

theorem bindConstraint_bound (h : ctx.bindConstraint table columns constraint = .ok bound)
    (hfits : ctx.ConstraintFits bound) : ctx.bindConstraint table columns bound = .ok bound := by
  rcases ctx.bindConstraint_cases h with ⟨rfl, -, -⟩ | ⟨expression, condition, rfl, rfl⟩
  · exact h
  · exact hfits.elim

theorem mapM_bindConstraint {constraints bound : List (TableConstraint V B)}
    (h : constraints.mapM (ctx.bindConstraint table columns) = .ok bound) :
    bound.length = constraints.length ∧
      ((∀ c ∈ bound, ctx.ConstraintFits c) ↔ ∀ c ∈ constraints, ctx.ConstraintStorable c) ∧
      ((∀ c ∈ bound, ctx.ConstraintFits c) →
        bound.mapM (ctx.bindConstraint table columns) = .ok bound) := by
  induction constraints generalizing bound with
  | nil =>
    rw [mapM_nil] at h
    obtain rfl := Except.ok.inj h
    exact ⟨rfl, by simp, fun _ => rfl⟩
  | cons constraint constraints ih =>
    rw [mapM_cons] at h
    obtain ⟨head, hhead, h⟩ := bind_eq_ok.1 h
    obtain ⟨rest, hrest, h⟩ := bind_eq_ok.1 h
    obtain rfl := Except.ok.inj h
    obtain ⟨hlength, hiff, hself⟩ := ih hrest
    refine ⟨by simp [hlength], ?_, fun hfits => ?_⟩
    · rw [forall_mem_cons, forall_mem_cons, constraintFits_iff hhead, hiff]
    · obtain ⟨hfits, hfits'⟩ := forall_mem_cons.1 hfits
      rw [mapM_cons, bindConstraint_bound hhead hfits, hself hfits']
      rfl

/-- The constraints of a table are bound. -/
theorem notCheck_of_mapM {constraints bound : List (TableConstraint V B)}
    (h : constraints.mapM (ctx.bindConstraint table columns) = .ok bound) :
    ∀ constraint ∈ bound, ∀ expression, constraint ≠ .check expression := by
  have hbound := mapM_eq_ok_iff.1 h
  clear h
  induction hbound with
  | nil => simp
  | cons hhead _ ih =>
    refine forall_mem_cons.2 ⟨?_, ih⟩
    rcases ctx.bindConstraint_cases hhead with ⟨rfl, hcheck, -⟩ | ⟨expression, condition, -, rfl⟩
    · exact hcheck
    · simp

theorem create_cases {table : TableDefinition V B} (h : ctx.create info = .ok table) :
    createTable table.info = .ok table ∧ table.schema = info.schema ∧ table.name = info.table ∧
      table.columns = info.columns ∧
      info.constraints.mapM (ctx.bindConstraint info.table info.columns) =
        .ok table.constraints := by
  obtain ⟨bound, hbound, hcreate⟩ := bind_eq_ok.1 h
  obtain ⟨constraints, hconstraints, hbound⟩ := bind_eq_ok.1 hbound
  obtain rfl := Except.ok.inj hbound
  have hinfo := info_of_createTable hcreate
  refine ⟨hinfo.symm ▸ hcreate, ?_, ?_, ?_, ?_⟩
  · exact congrArg CreateTableInformation.schema hinfo
  · exact congrArg CreateTableInformation.table hinfo
  · exact congrArg CreateTableInformation.columns hinfo
  · rw [hconstraints]
    exact congrArg (fun i => Except.ok i.constraints) hinfo.symm

theorem infoFits_iff {table : TableDefinition V B} (h : ctx.create info = .ok table) :
    ctx.InfoFits table.info ↔ ctx.Storable info := by
  obtain ⟨-, hschema, hname, hcolumns, hbound⟩ := create_cases h
  obtain ⟨hlength, hiff, -⟩ := mapM_bindConstraint hbound
  have hinfo : table.info = { info with constraints := table.constraints } := by
    rw [TableDefinition.info, hschema, hname, hcolumns]
  rw [hinfo]
  constructor
  · intro hfits
    exact ⟨hfits.schema, hfits.table, hfits.columns, hlength ▸ hfits.constraints.1,
      hiff.1 hfits.constraints.2⟩
  · intro hstorable
    exact ⟨hstorable.schema, hstorable.table, hstorable.columns,
      hlength.symm ▸ hstorable.constraints.1, hiff.2 hstorable.constraints.2⟩

/-- A table that comes back from a checkpoint as it was fits. -/
theorem infoFits_of_loadFromStorage {table : TableDefinition V B}
    (hchecks : ∀ constraint ∈ table.constraints, ∀ expression, constraint ≠ .check expression)
    (h : ctx.loadFromStorage (ctx.serialize table) = .ok table) : ctx.InfoFits table.info := by
  obtain ⟨⟨info, rest⟩, hread, hcreate⟩ := bind_eq_ok.1 h
  obtain rfl := info_of_createTable hcreate
  rw [← append_nil (ctx.serialize table)] at hread
  exact (ctx.at_deserialize hchecks).fits_of_read [] rest hread

/-- **Table definitions survive storage**, from a checkpoint and from the log, exactly if every
column has the default value `INTEGER 0`, there is no CHECK constraint and everything fits. -/
theorem survives_iff {info : CreateTableInformation V B} {table : TableDefinition V B}
    (h : ctx.create info = .ok table) :
    ctx.loadFromStorage (ctx.serialize table) = .ok table ∧
        ctx.replayCreateTable (ctx.serialize table) = .ok table ↔
      ctx.Storable info := by
  rw [← infoFits_iff h]
  obtain ⟨hcreate, -, hname, hcolumns, hbound⟩ := create_cases h
  have hchecks := notCheck_of_mapM hbound
  refine ⟨fun hsurvives => infoFits_of_loadFromStorage hchecks hsurvives.1, fun hfits => ?_⟩
  have hread : ctx.deserialize (ctx.serialize table) = .ok (table.info, []) := by
    have hread := (ctx.at_deserialize hchecks).read_write hfits []
    rwa [append_nil] at hread
  have hself : ctx.bindConstraints table.info = .ok table.info := by
    have hmap := (mapM_bindConstraint hbound).2.2 hfits.constraints.2
    rw [← hname, ← hcolumns] at hmap
    exact bind_eq_ok.2 ⟨table.constraints, hmap, rfl⟩
  constructor
  · exact bind_eq_ok.2 ⟨_, hread, hcreate⟩
  · exact bind_eq_ok.2 ⟨_, hread, bind_eq_ok.2 ⟨_, hself, hcreate⟩⟩

/-! ### A column without a default value -/

/-- Values that are NULL or a number, stored as a tag and eight bytes. -/
def numberFormat : ValueFormat (Option ℕ) where
  serialize
    | none => write 1 0
    | some n => write 1 1 ++ write 8 n
  deserialize := do
    let tag ← read 1
    if tag = 0 then pure none
    else do
      let n ← read 8
      pure (some n)

/-- Every CHECK expression can be bound. -/
def numberContext : TableContext (Option ℕ) Unit where
  bindCheck _ _ _ := .ok ()
  format := numberFormat
  integerZero := some 0

/-- `CREATE TABLE t(i INTEGER NOT NULL)`, with or without `DEFAULT 0`. -/
def plainTable (hasDefault : Bool) (defaultValue : Option ℕ) :
    CreateTableInformation (Option ℕ) Unit where
  schema := "main"
  table := "t"
  columns := [{ name := "i", type := { id := .integer }, hasDefault, defaultValue }]
  constraints := [.notNull 0]

/-- The table that the statement creates. -/
def plainDefinition (hasDefault : Bool) (defaultValue : Option ℕ) :
    TableDefinition (Option ℕ) Unit where
  schema := "main"
  name := "t"
  columns := [{ name := "i", type := { id := .integer }, hasDefault, defaultValue }]
  constraints := [.notNull 0]
  uniqueIndexes := []

theorem create_plainTable (hasDefault : Bool) (defaultValue : Option ℕ) :
    numberContext.create (plainTable hasDefault defaultValue) =
      .ok (plainDefinition hasDefault defaultValue) := rfl

theorem survives_plainTable :
    numberContext.create (plainTable true (some 0)) = .ok (plainDefinition true (some 0)) ∧
      (numberContext.loadFromStorage (numberContext.serialize (plainDefinition true (some 0))) =
          .ok (plainDefinition true (some 0)) ∧
        numberContext.replayCreateTable (numberContext.serialize (plainDefinition true (some 0))) =
          .ok (plainDefinition true (some 0))) := by
  refine ⟨create_plainTable true (some 0), (survives_iff (create_plainTable true (some 0))).2 ?_⟩
  have hfits : ∀ column ∈ (plainTable true (some 0)).columns, numberContext.ColumnFits column := by
    intro column hcolumn
    rw [mem_singleton.1 hcolumn]
    exact ⟨show "i".utf8ByteSize < 256 ^ 4 by decide, ⟨by decide, by decide⟩, rfl, rfl⟩
  have hnotNull : ∀ constraint ∈ (plainTable true (some 0)).constraints,
      numberContext.ConstraintStorable constraint := by
    intro constraint hconstraint
    rw [mem_singleton.1 hconstraint]
    exact show 0 < 256 ^ 8 by decide
  exact ⟨show "main".utf8ByteSize < 256 ^ 4 by decide, show "t".utf8ByteSize < 256 ^ 4 by decide,
    ⟨by decide, hfits⟩, ⟨by decide, hnotNull⟩⟩

/-- **A column without a default value** has the default value 0 in the table that is read from a
checkpoint. -/
theorem not_survives_plainTable :
    numberContext.create (plainTable false none) = .ok (plainDefinition false none) ∧
      numberContext.loadFromStorage (numberContext.serialize (plainDefinition false none)) ≠
        .ok (plainDefinition false none) := by
  refine ⟨create_plainTable false none, fun h => ?_⟩
  obtain ⟨-, -, hdefault, -⟩ := (infoFits_of_loadFromStorage (by simp [plainDefinition]) h).columns.2 _ mem_cons_self
  exact absurd hdefault (by decide)

end TableContext

end DuckDB
