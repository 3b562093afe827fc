import SchemaCast.Catalog
import SchemaCast.Proofs.NameTable
import SchemaCast.Proofs.Traversal

namespace SchemaCast

namespace Registry

variable {registry after : Registry} {name : String}

theorem type_ok {d : Descriptor} (h : registry.type name = .ok d) :
    registry.types.find? name = some d := by
  unfold type at h
  split at h
  · rename_i found hf
    obtain rfl := Except.ok.inj h
    exact hf
  · simp at h

theorem registerType_ok {d : Descriptor}
    (h : registry.registerType name d = (.ok (), after)) :
    ∃ types, registry.types.bind? name d = some types ∧ after = { registry with types } := by
  unfold registerType at h
  split at h
  · rename_i types hb
    exact ⟨types, hb, (Prod.mk.inj h).2.symm⟩
  · simp at h

theorem registerValidator_ok {holds : Predicate}
    (h : registry.registerValidator name holds = (.ok (), after)) :
    ∃ validators, registry.validators.bind? name holds = some validators ∧
      after = { registry with validators } := by
  unfold registerValidator at h
  split at h
  · rename_i validators hb
    exact ⟨validators, hb, (Prod.mk.inj h).2.symm⟩
  · simp at h

end Registry

namespace Catalog

variable {catalog after : Catalog} {name : String}

theorem scope_type_ok {t : SchemaType} (h : catalog.scope.type name = .ok t) :
    (∃ b, t = .builtin b) ∨
    ∃ d, t = .custom d ∧
      (catalog.schemas.find? name = some d ∨ catalog.registry.types.find? name = some d) := by
  simp only [scope] at h
  split at h
  · rename_i b _
    exact .inl ⟨b, (Except.ok.inj h).symm⟩
  · split at h
    · rename_i d hd
      exact .inr ⟨d, (Except.ok.inj h).symm, .inl hd⟩
    · obtain ⟨d, hd, h⟩ := (except_bind_eq_ok ..).mp h
      rw [except_pure_eq_ok] at h
      exact .inr ⟨d, h.symm, .inr (Registry.type_ok hd)⟩

theorem schema_of_not_mem_names (h : name ∉ catalog.names) :
    catalog.schema name = .error (.unknownSchema name) := by
  rw [schema]
  split
  · rename_i d hd
    exact absurd (NameTable.mem_names.mpr ⟨d, hd⟩) h
  · rfl

theorem register_ok {d : Descriptor} (h : catalog.register name d = (.ok (), after)) :
    ∃ schemas, catalog.schemas.bind? name d = some schemas ∧ after = { catalog with schemas } := by
  unfold register at h
  split at h
  · rename_i schemas hb
    exact ⟨schemas, hb, (Prod.mk.inj h).2.symm⟩
  · simp at h

/-- The catalog with a descriptor under a further name. -/
def add (catalog : Catalog) (name : String) (d : Descriptor) : Catalog :=
  { catalog with schemas := catalog.schemas.insert name d }

/-- The name and the descriptor that loading a text adds, or why it adds none. -/
def verdict (catalog : Catalog) (source text : String) : Except Misuse (String × Descriptor) :=
  match Document.ofText? text with
  | none => .error (.malformed source .invalidDocument)
  | some document =>
    if document.name.isEmpty then .error (.malformed source .emptyName)
    else match catalog.compile source document with
      | .error m => .error m
      | .ok d =>
        if (catalog.schemas.find? document.name).isSome then
          .error (.duplicateSchema document.name)
        else .ok (document.name, d)

/-- All that loading can do. Whatever depends on it is derived from here. -/
theorem load_eq (catalog : Catalog) (source text : String) :
    catalog.load source text = match catalog.verdict source text with
      | .ok (name, d) => (.ok name, catalog.add name d)
      | .error m => (.error m, catalog) := by
  unfold load verdict
  cases Document.ofText? text with
  | none => rfl
  | some document =>
    dsimp only
    split
    · rfl
    · cases catalog.compile source document with
      | error m => rfl
      | ok d =>
        cases hfind : (catalog.schemas.find? document.name).isSome
        all_goals simp [register, NameTable.bind?, hfind, add, Except.map]

theorem verdict_eq_ok {source text : String} {d : Descriptor} :
    catalog.verdict source text = .ok (name, d) ↔
      ∃ document, Document.ofText? text = some document ∧ document.name = name ∧
        name.isEmpty = false ∧ catalog.compile source document = .ok d ∧
        catalog.schemas.find? name = none := by
  constructor
  · intro h
    unfold verdict at h
    split at h
    · cases h
    · rename_i document hdocument
      split at h
      · cases h
      · rename_i hname
        split at h
        · cases h
        · rename_i c hc
          split at h
          · cases h
          · rename_i hfree
            obtain ⟨rfl, rfl⟩ := Prod.mk.inj (Except.ok.inj h)
            exact ⟨document, hdocument, rfl, by simpa using hname, hc, by simpa using hfree⟩
  · rintro ⟨document, hdocument, rfl, hname, hd, hfree⟩
    simp only [verdict, hdocument, hname, hd, hfree]
    rfl

/-- Loading compiles a document in the catalog as it is, and binds what comes out to its name. -/
theorem load_ok {source text : String} (h : catalog.load source text = (.ok name, after)) :
    ∃ document d schemas, Document.ofText? text = some document ∧ document.name = name ∧
      name.isEmpty = false ∧ catalog.compile source document = .ok d ∧
      catalog.schemas.bind? name d = some schemas ∧ after = { catalog with schemas } := by
  rw [load_eq] at h
  split at h
  · rename_i bound d hverdict
    obtain ⟨⟨rfl⟩, rfl⟩ := Prod.mk.inj h
    obtain ⟨document, hdocument, hbound, hname, hd, hfree⟩ := verdict_eq_ok.mp hverdict
    exact ⟨document, d, _, hdocument, hbound, hname, hd, NameTable.bind?_eq_some.mpr ⟨hfree, rfl⟩,
      rfl⟩
  · simp at h

/-- A document that cannot be loaded leaves the catalog as it is. -/
theorem load_error {source text : String} {m : Misuse}
    (h : catalog.load source text = (.error m, after)) : after = catalog := by
  rw [load_eq] at h
  split at h
  · simp at h
  · exact (Prod.mk.inj h).2.symm

theorem loadFile_error {files : Files} {path : String} {m : Misuse}
    (h : catalog.loadFile files path = (.error m, after)) : after = catalog := by
  unfold loadFile at h
  split at h
  · exact (Prod.mk.inj h).2.symm
  · exact load_error h

theorem loadFile_ok {files : Files} {path : String}
    (h : catalog.loadFile files path = (.ok name, after)) :
    ∃ text, files.text? path = some text ∧ catalog.load path text = (.ok name, after) := by
  unfold loadFile at h
  split at h
  · simp at h
  · rename_i text htext
    exact ⟨text, htext, h⟩

/-- A document loads if it compiles and its name is free. -/
theorem load_of {source text : String} {document : Document} {d : Descriptor}
    {schemas : NameTable Descriptor} (hdocument : Document.ofText? text = some document)
    (hname : document.name.isEmpty = false) (hd : catalog.compile source document = .ok d)
    (hb : catalog.schemas.bind? document.name d = some schemas) :
    catalog.load source text = (.ok document.name, { catalog with schemas }) := by
  obtain ⟨hfree, rfl⟩ := NameTable.bind?_eq_some.mp hb
  have hverdict : catalog.verdict source text = .ok (document.name, d) :=
    verdict_eq_ok.mpr ⟨document, hdocument, rfl, hname, hd, hfree⟩
  rw [load_eq, hverdict]
  rfl

/-- What a catalog can become by loading documents and by registering schemas, types and
predicates. -/
inductive Later (catalog : Catalog) : Catalog → Prop where
  | refl : Later catalog catalog
  | load {c d : Catalog} {source text name : String} (before : Later catalog c)
      (loaded : c.load source text = (.ok name, d)) : Later catalog d
  | register {c d : Catalog} {name : String} {descriptor : Descriptor} (before : Later catalog c)
      (registered : c.register name descriptor = (.ok (), d)) : Later catalog d
  | registerType {c : Catalog} {registry : Registry} {name : String} {type : Descriptor}
      (before : Later catalog c)
      (registered : c.registry.registerType name type = (.ok (), registry)) :
    Later catalog { c with registry }
  | registerValidator {c : Catalog} {registry : Registry} {name : String} {holds : Predicate}
      (before : Later catalog c)
      (registered : c.registry.registerValidator name holds = (.ok (), registry)) :
    Later catalog { c with registry }

theorem Later.schemas_find? {later : Catalog} (h : catalog.Later later) {d : Descriptor}
    (hd : catalog.schemas.find? name = some d) : later.schemas.find? name = some d := by
  induction h with
  | refl => exact hd
  | load _ loaded ih =>
    obtain ⟨_, _, schemas, _, _, _, _, hb, rfl⟩ := load_ok loaded
    exact NameTable.find?_of_bind? hb ih
  | register _ registered ih =>
    obtain ⟨schemas, hb, rfl⟩ := register_ok registered
    exact NameTable.find?_of_bind? hb ih
  | registerType _ _ ih => exact ih
  | registerValidator _ _ ih => exact ih

theorem Later.validators_find? {later : Catalog} (h : catalog.Later later) {holds : Predicate}
    (hp : catalog.registry.validators.find? name = some holds) :
    later.registry.validators.find? name = some holds := by
  induction h with
  | refl => exact hp
  | load _ loaded ih =>
    obtain ⟨_, _, _, _, _, _, _, _, rfl⟩ := load_ok loaded
    exact ih
  | register _ registered ih =>
    obtain ⟨_, _, rfl⟩ := register_ok registered
    exact ih
  | registerType _ registered ih =>
    obtain ⟨_, _, rfl⟩ := Registry.registerType_ok registered
    exact ih
  | registerValidator _ registered ih =>
    obtain ⟨validators, hb, rfl⟩ := Registry.registerValidator_ok registered
    exact NameTable.find?_of_bind? hb ih

end Catalog

end SchemaCast
