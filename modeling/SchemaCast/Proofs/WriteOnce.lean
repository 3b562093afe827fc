import SchemaCast.Proofs.Catalog

namespace SchemaCast

namespace Catalog

inductive Operation where
  | registerType (name : String) (d : Descriptor)
  | registerCast (name : String) (coerce : Value → CastResult Value)
  | registerValidator (name : String) (holds : Predicate)
  | register (name : String) (d : Descriptor)
  | load (source text : String)
  | loadFile (files : Files) (path : String)

/-- A name in one of the three tables, with what is bound to it. -/
inductive Binding where
  | type (name : String) (d : Descriptor)
  | validator (name : String) (holds : Predicate)
  | schema (name : String) (d : Descriptor)

namespace Binding

/-- What the binding makes of a name of a type. -/
def type? (name : String) : Binding → Option Descriptor
  | type bound d => if bound = name then some d else none
  | _ => none

def validator? (name : String) : Binding → Option Predicate
  | validator bound holds => if bound = name then some holds else none
  | _ => none

def schema? (name : String) : Binding → Option Descriptor
  | schema bound d => if bound = name then some d else none
  | _ => none

end Binding

namespace Operation

/-- What loading a text supplies: the descriptor of its document under its name, as the names in
the document stand in the catalog. -/
def supplied? (catalog : Catalog) (source text : String) : Option Binding :=
  match Document.ofText? text with
  | none => none
  | some document =>
    if document.name.isEmpty then none
    else match catalog.compile source document with
      | .ok d => some (.schema document.name d)
      | .error _ => none

/-- The binding that an operation supplies, whether its name is free or not. -/
def supplies? (catalog : Catalog) : Operation → Option Binding
  | registerType name d => some (.type name d)
  | registerCast name coerce => some (.type name (.base { name, coerce? := some coerce }))
  | registerValidator name holds => some (.validator name holds)
  | register name d => some (.schema name d)
  | load source text => supplied? catalog source text
  | loadFile files path => (files.text? path).bind (supplied? catalog path)

end Operation

/-- Performs an operation, which leaves a catalog also where it fails. Loading gives the name of the
document. -/
def perform (catalog : Catalog) : Operation → Except Misuse (Option String) × Catalog
  | .registerType name d =>
    let (result, registry) := catalog.registry.registerType name d
    (result.map fun _ => none, { catalog with registry })
  | .registerCast name coerce =>
    let (result, registry) := catalog.registry.registerCast name coerce
    (result.map fun _ => none, { catalog with registry })
  | .registerValidator name holds =>
    let (result, registry) := catalog.registry.registerValidator name holds
    (result.map fun _ => none, { catalog with registry })
  | .register name d =>
    let (result, catalog) := catalog.register name d
    (result.map fun _ => none, catalog)
  | .load source text =>
    let (result, catalog) := catalog.load source text
    (result.map some, catalog)
  | .loadFile files path =>
    let (result, catalog) := catalog.loadFile files path
    (result.map some, catalog)

/-- Performs operations one after another, whether they succeed or not. -/
def performEach (catalog : Catalog) : List Operation → Catalog
  | [] => catalog
  | op :: ops => performEach (catalog.perform op).2 ops

/-- What the successful ones of the operations supplied, the first one first. -/
def history (catalog : Catalog) : List Operation → List Binding
  | [] => []
  | op :: ops => match catalog.perform op with
    | (.ok _, after) => (op.supplies? catalog).toList ++ history after ops
    | (.error _, after) => history after ops

/-- The catalog with a further binding, unless its name is bound. -/
def bind? (catalog : Catalog) : Binding → Option Catalog
  | .type name d => (catalog.registry.types.bind? name d).map fun types =>
    { catalog with registry := { catalog.registry with types } }
  | .validator name holds => (catalog.registry.validators.bind? name holds).map fun validators =>
    { catalog with registry := { catalog.registry with validators } }
  | .schema name d => (catalog.schemas.bind? name d).map fun schemas => { catalog with schemas }

variable {catalog after : Catalog} {op : Operation} {binding : Binding}

/-- All that an operation can do. It binds what it supplies, where loading gives the name, or it
supplies nothing for a free name and leaves the catalog as it is. -/
inductive Step (catalog : Catalog) (op : Operation) :
    Except Misuse (Option String) → Catalog → Prop where
  | bound {binding : Binding} {after : Catalog} {name? : Option String}
      (supplied : op.supplies? catalog = some binding) (free : catalog.bind? binding = some after)
      (named : ∀ name, name? = some name → ∃ d, binding = .schema name d) :
    Step catalog op (.ok name?) after
  | failed {m : Misuse} (nothing : ∀ binding, op.supplies? catalog = some binding →
      catalog.bind? binding = none) :
    Step catalog op (.error m) catalog

/-- Only a bound name keeps what is registered from being bound. -/
theorem Step.of_registered (m : Misuse) (supplied : op.supplies? catalog = some binding)
    (performed : catalog.perform op = match catalog.bind? binding with
      | some after => (.ok none, after)
      | none => (.error m, catalog)) :
    catalog.Step op (catalog.perform op).1 (catalog.perform op).2 := by
  rw [performed]
  cases hb : catalog.bind? binding with
  | some after => exact .bound supplied hb nofun
  | none =>
    refine .failed fun other hother => ?_
    obtain rfl := Option.some.inj (supplied.symm.trans hother)
    exact hb

theorem supplied?_eq_some {source text : String} :
    Operation.supplied? catalog source text = some binding ↔
      ∃ document d, Document.ofText? text = some document ∧ document.name.isEmpty = false ∧
        catalog.compile source document = .ok d ∧ .schema document.name d = binding := by
  unfold Operation.supplied?
  cases Document.ofText? text with
  | none => simp
  | some document =>
    by_cases hname : document.name = ""
    · simp [hname]
    · cases hd : catalog.compile source document <;> simp [hname, hd]

/-- Loading a text binds what the text supplies, unless the name is bound. -/
theorem Step.of_load (source text : String)
    (supplies : op.supplies? catalog = Operation.supplied? catalog source text)
    (performed : catalog.perform op =
      ((catalog.load source text).1.map some, (catalog.load source text).2)) :
    catalog.Step op (catalog.perform op).1 (catalog.perform op).2 := by
  rw [performed]
  rcases hload : catalog.load source text with ⟨m | name, after⟩
  · obtain rfl := load_error hload
    refine .failed fun binding hsupplied => ?_
    obtain ⟨document, d, hdocument, hname, hd, rfl⟩ :=
      supplied?_eq_some.mp (supplies.symm.trans hsupplied)
    -- With a free name, the document would have been loaded.
    cases hb : after.schemas.bind? document.name d with
    | none => simp [bind?, hb]
    | some schemas => simp [load_of hdocument hname hd hb] at hload
  · obtain ⟨document, d, schemas, hdocument, rfl, hname, hd, hb, rfl⟩ := load_ok hload
    have hsupplied : op.supplies? catalog = some (.schema document.name d) :=
      supplies.trans (supplied?_eq_some.mpr ⟨document, d, hdocument, hname, hd, rfl⟩)
    exact .bound hsupplied (by simp [bind?, hb]) (by simp)

theorem perform_step (catalog : Catalog) (op : Operation) :
    catalog.Step op (catalog.perform op).1 (catalog.perform op).2 := by
  cases op with
  | registerType name d | registerCast name coerce =>
    refine .of_registered (.duplicateType name) rfl ?_
    simp only [perform, Registry.registerCast, Registry.registerType, bind?]
    split <;> simp [*, Except.map]
  | registerValidator name holds =>
    refine .of_registered (.duplicateValidator name) rfl ?_
    simp only [perform, Registry.registerValidator, bind?]
    split <;> simp [*, Except.map]
  | register name d =>
    refine .of_registered (.duplicateSchema name) rfl ?_
    simp only [perform, register, bind?]
    split <;> simp [*, Except.map]
  | load source text => exact .of_load source text rfl rfl
  | loadFile files path =>
    cases htext : files.text? path with
    | none =>
      have hperform : catalog.perform (.loadFile files path) =
          (.error (.malformed path .unreadableFile), catalog) := by
        simp [perform, loadFile, htext, Except.map]
      rw [hperform]
      exact .failed (by simp [Operation.supplies?, htext])
    | some text =>
      refine .of_load path text ?_ ?_
      · simp [Operation.supplies?, htext]
      · simp [perform, loadFile, htext]

/-- A table that lists its names in order, each bound to what came first for it. -/
structure Recorded {α : Type} (table : NameTable α) (bound? : String → Binding → Option α)
    (history : List Binding) : Prop where
  listed : table.Listed
  first : ∀ name, table.find? name = history.findSome? (bound? name)

namespace Recorded

variable {α : Type} {table next : NameTable α} {bound? : String → Binding → Option α}
  {history : List Binding}

theorem bind? (h : Recorded table bound? history) {name : String} {a : α}
    (hb : table.bind? name a = some next)
    (hbound : ∀ key, bound? key binding = if name = key then some a else none) :
    Recorded next bound? (history ++ [binding]) := by
  refine ⟨next.listed, fun key => ?_⟩
  rw [NameTable.find?_bind? hb, h.first, List.findSome?_append, ← hbound]
  simp

theorem skip (h : Recorded table bound? history) (hbound : ∀ key, bound? key binding = none) :
    Recorded table bound? (history ++ [binding]) := by
  refine ⟨h.listed, fun key => ?_⟩
  rw [h.first, List.findSome?_append]
  simp [hbound]

end Recorded

/-- All three tables hold what was first bound to their names. -/
structure Records (catalog : Catalog) (history : List Binding) : Prop where
  types : Recorded catalog.registry.types Binding.type? history
  validators : Recorded catalog.registry.validators Binding.validator? history
  schemas : Recorded catalog.schemas Binding.schema? history

theorem records_nothing (directory : String) : Records { directory } [] :=
  ⟨⟨NameTable.listed _, fun _ => rfl⟩, ⟨NameTable.listed _, fun _ => rfl⟩,
    ⟨NameTable.listed _, fun _ => rfl⟩⟩

theorem Records.bind? {past : List Binding} (h : catalog.Records past)
    (hb : catalog.bind? binding = some after) : after.Records (past ++ [binding]) := by
  cases binding with
  | type name d =>
    obtain ⟨types, htypes, rfl⟩ := Option.map_eq_some_iff.mp hb
    exact ⟨h.types.bind? htypes fun _ => rfl, h.validators.skip fun _ => rfl,
      h.schemas.skip fun _ => rfl⟩
  | validator name holds =>
    obtain ⟨validators, hvalidators, rfl⟩ := Option.map_eq_some_iff.mp hb
    exact ⟨h.types.skip fun _ => rfl, h.validators.bind? hvalidators fun _ => rfl,
      h.schemas.skip fun _ => rfl⟩
  | schema name d =>
    obtain ⟨schemas, hschemas, rfl⟩ := Option.map_eq_some_iff.mp hb
    exact ⟨h.types.skip fun _ => rfl, h.validators.skip fun _ => rfl,
      h.schemas.bind? hschemas fun _ => rfl⟩

theorem Records.performEach {past : List Binding} (h : catalog.Records past)
    (ops : List Operation) :
    (catalog.performEach ops).Records (past ++ catalog.history ops) := by
  -- The rest of the run starts from what the first operation leaves, with a longer past.
  induction ops generalizing catalog past with
  | nil => simpa [Catalog.performEach, history] using h
  | cons op ops ih =>
    have hstep := perform_step catalog op
    rw [Catalog.performEach, history]
    rcases hperform : catalog.perform op with ⟨result, after⟩
    rw [hperform] at hstep
    cases hstep with
    | bound supplied free _ => simpa [supplied] using ih (h.bind? free)
    | failed _ => exact ih h

/-- What an operation does to the tables. It succeeds exactly if it supplies a binding for a free
name, and a failed one changes nothing. One that loads a document binds its name, which was free, to
what the document supplies, and no other. -/
structure Atomic (catalog : Catalog) (op : Operation) : Prop where
  succeeds : (∃ name?, (catalog.perform op).1 = .ok name?) ↔
    ∃ binding, op.supplies? catalog = some binding ∧ (catalog.bind? binding).isSome
  failed : ∀ m, (catalog.perform op).1 = .error m → (catalog.perform op).2 = catalog
  loaded : ∀ name, (catalog.perform op).1 = .ok (some name) →
    ∃ d, op.supplies? catalog = some (.schema name d) ∧ catalog.schemas.find? name = none ∧
      (catalog.perform op).2.schemas.find? name = some d ∧
      (∀ other, other ≠ name →
        (catalog.perform op).2.schemas.find? other = catalog.schemas.find? other) ∧
      (catalog.perform op).2.registry = catalog.registry

theorem perform_atomic (catalog : Catalog) (op : Operation) : catalog.Atomic op := by
  have hstep := perform_step catalog op
  rcases hperform : catalog.perform op with ⟨result, after⟩
  rw [hperform] at hstep
  cases hstep with
  | failed nothing =>
    constructor
    case succeeds => simpa [hperform] using nothing
    case failed => simp [hperform]
    case loaded => simp [hperform]
  | @bound binding _ name? supplied free named =>
    constructor
    case succeeds => simp [hperform, supplied, free]
    case failed => simp [hperform]
    case loaded =>
      intro name h
      rw [hperform] at h ⊢
      obtain ⟨d, rfl⟩ := named name (Except.ok.inj h)
      obtain ⟨schemas, hschemas, rfl⟩ := Option.map_eq_some_iff.mp free
      refine ⟨d, supplied, (NameTable.bind?_eq_some.mp hschemas).1,
        NameTable.find?_bind?_self hschemas, fun other hne => ?_, rfl⟩
      rw [NameTable.find?_bind? hschemas, if_neg (Ne.symm hne), Option.or_none]

/-- After any operations, every name in the three tables is bound to what was first supplied for
it, the tables list their names in order, and every further operation is all or nothing. -/
theorem tables_write_once (directory : String) (ops : List Operation) :
    (performEach { directory } ops).Records (history { directory } ops) ∧
    (performEach { directory } ops).schemas.size =
      (performEach { directory } ops).names.length ∧
    ∀ op, (performEach { directory } ops).Atomic op := by
  refine ⟨?_, ?_, perform_atomic _⟩
  · exact (records_nothing directory).performEach ops
  · exact (List.length_map Prod.fst).symm

/-- The second document cannot be compiled, and the name of the last one is taken. -/
example : (performEach { directory := "." } [
    .load "flag.json" "\x7b\"name\":\"flag\",\"schema\":\x7b\"type\":\"boolean\"\x7d\x7d",
    .load "all.json" "\x7b\"name\":\"all\",\"schema\":\x7b\"type\":\"list\",\"cast\":true\x7d\x7d",
    .registerValidator "tiny" fun _ => true,
    .load "again.json" "\x7b\"name\":\"flag\",\"schema\":\x7b\"type\":\"number\",
      \"validator\":\"tiny\"\x7d\x7d"]).names =
      ["flag"] := by
  decide +kernel

end Catalog

end SchemaCast
