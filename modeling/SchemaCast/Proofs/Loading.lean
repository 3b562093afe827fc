import SchemaCast.Program.Response
import SchemaCast.Proofs.Catalog
import SchemaCast.Proofs.Definition
import SchemaCast.Proofs.Misuse

namespace SchemaCast

namespace Document

/-- Whatever a name stands for as a type can be used. -/
def Scope.Usable (scope : Scope) : Prop :=
  ∀ name t, scope.type name = .ok t → t.descriptor.Usable

namespace Definition

variable {scope : Scope} {source : String}

/-- The schemas of nested definitions are declared, and their types can be used. -/
def DeclaresUsable (n : NestedSchema) : Prop :=
  ∃ s, n = .declared s ∧ s.Everywhere Schema.HasUsableType

/-- An alternative of several schemas is one of them. -/
theorem anyOfSchemas_usable {schemas : List NestedSchema} (hs : ∀ n ∈ schemas, DeclaresUsable n)
    {d : Descriptor} (h : Descriptor.anyOfSchemas schemas = .ok d) : d.Usable := by
  obtain ⟨ds, hds, rfl⟩ := (except_bind_pure_eq_ok ..).mp h
  refine Descriptor.usable_of_harmless (by simp) ?_
  rw [Descriptor.cast_anyOf]
  apply Caster.anyOf_harmless
  intro c hc
  obtain ⟨d, hd, rfl⟩ := List.mem_map.mp hc
  obtain ⟨n, hn, hcompiled⟩ := Schema.mem_of_compileAll hds hd
  obtain ⟨s, rfl, hs⟩ := hs n hn
  exact Schema.cast_harmless (hs.mono fun _ => Schema.HasUsableType.usesType) hcompiled

/-- Where all names stand for types that can be used, definitions give schemas with such types. -/
theorem schema_usable (hscope : scope.Usable) {definition : Definition} {s : Schema}
    (h : definition.schema scope source = .ok s) : s.Everywhere Schema.HasUsableType := by
  induction definition using induction_on_parts generalizing s with
  | step d ih =>
    have hparts := (schema_eq_ok ..).mp h
    have usable {p : Definition} {n : NestedSchema} (hp : p ∈ d.parts)
        (hg : Gives scope source p n) : DeclaresUsable n := by
      obtain ⟨t, ht, rfl⟩ := hg
      exact ⟨t, rfl, ih p hp ht⟩
    apply Schema.Everywhere.of_nested
    · change s.type.descriptor.Usable
      have htype := hparts.type
      generalize d.type? = type? at htype
      generalize ha : d.anyOf? = anyOf? at htype
      generalize s.type = t at htype ⊢
      cases htype with
      | named resolved => exact hscope _ _ resolved
      | anyOf alternatives compiled =>
        refine anyOfSchemas_usable (fun n hn => ?_) compiled
        obtain ⟨p, hp, hg⟩ := exists_left_of_forall₂ alternatives hn
        exact usable (alternative_mem_parts ha hp) hg
    · intro n hn
      obtain ⟨p, hp, hg⟩ := hparts.exists_part hn
      exact usable hp hg

end Definition

end Document

namespace Catalog

variable {catalog after : Catalog}

/-- The registered types can be used, and so can the loaded schemas, all of which can be cast. -/
structure Harmless (catalog : Catalog) : Prop where
  types : ∀ name d, catalog.registry.types.find? name = some d → d.Registrable
  schemas : ∀ binding ∈ catalog.schemas.bindings, binding.2.Usable ∧ binding.2.cast.Harmless

theorem Harmless.scope_usable (h : catalog.Harmless) : catalog.scope.Usable := by
  intro name t ht
  rcases scope_type_ok ht with ⟨b, rfl⟩ | ⟨d, rfl, hd | hd⟩
  · exact (Descriptor.Registrable.builtin b).usable
  · exact (h.schemas _ (NameTable.mem_of_find? hd)).1
  · exact (h.types name d hd).usable

/-- A document in a catalog of harmless schemas gives a harmless schema. -/
theorem Harmless.compile_harmless (h : catalog.Harmless) {source : String} {document : Document}
    {d : Descriptor} (hd : catalog.compile source document = .ok d) :
    d.Usable ∧ d.cast.Harmless := by
  obtain ⟨s, hs, hc⟩ := (except_bind_eq_ok ..).mp hd
  have htypes := Document.Definition.schema_usable h.scope_usable hs
  have hcast : d.cast.Harmless :=
    Schema.cast_harmless (htypes.mono fun _ => Schema.HasUsableType.usesType) hc
  obtain ⟨keys?, contents, rfl, _⟩ := Schema.compile_ok hc
  exact ⟨Descriptor.usable_of_harmless (by simp) hcast, hcast⟩

theorem Harmless.load (h : catalog.Harmless) (source text : String) :
    (catalog.load source text).2.Harmless := by
  rcases hl : catalog.load source text with ⟨_ | name, after⟩
  · exact load_error hl ▸ h
  · obtain ⟨document, d, schemas, _, _, _, hd, hbind, rfl⟩ := load_ok hl
    refine ⟨h.types, fun binding hb => ?_⟩
    rcases NameTable.mem_bind? hbind hb with rfl | hb
    · exact h.compile_harmless hd
    · exact h.schemas binding hb

theorem Harmless.loadFile (h : catalog.Harmless) (files : Files) (path : String) :
    (catalog.loadFile files path).2.Harmless := by
  unfold Catalog.loadFile
  split
  · exact h
  · exact h.load path _

theorem harmless_empty (directory : String) : Harmless { directory } := by
  constructor <;> simp [NameTable.empty, NameTable.find?]

theorem Harmless.loadFiles (h : catalog.Harmless) (files : Files) (paths : List String) :
    (catalog.loadFiles files paths).2.Harmless := by
  induction paths generalizing catalog with
  | nil => exact h
  | cons path paths ih =>
    have hfile := h.loadFile files path
    unfold Catalog.loadFiles
    rcases hl : catalog.loadFile files path with ⟨_ | name, after⟩
    all_goals rw [hl] at hfile
    · exact hfile
    · exact ih hfile

theorem Harmless.loadAll (h : catalog.Harmless) (files : Files) :
    (catalog.loadAll files).2.Harmless := by
  unfold Catalog.loadAll
  split
  · exact h
  · exact h.loadFiles files _

/-- The catalog after documents are loaded with their sources one after another, whether they can be
loaded or not. -/
def loadEach (catalog : Catalog) : List (String × String) → Catalog
  | [] => catalog
  | (source, text) :: documents => loadEach (catalog.load source text).2 documents

theorem Harmless.loadEach (h : catalog.Harmless) (documents : List (String × String)) :
    (catalog.loadEach documents).Harmless := by
  induction documents generalizing catalog with
  | nil => exact h
  | cons document documents ih => exact ih (h.load document.1 document.2)

theorem Harmless.apply_ok (h : catalog.Harmless) {name : String} (hn : name ∈ catalog.names) :
    ∃ d, catalog.schema name = .ok d ∧ d.cast.Harmless ∧
      ∀ v testOnly, ∃ outcome, Program.apply catalog name v testOnly = .ok outcome := by
  obtain ⟨d, hd⟩ := NameTable.find?_of_mem_names hn
  have hschema : catalog.schema name = .ok d := by rw [schema, hd]
  have hcast := (h.schemas _ (NameTable.mem_of_find? hd)).2
  refine ⟨d, hschema, hcast, fun v testOnly => ?_⟩
  unfold Program.apply
  rw [hschema]
  dsimp only
  cases hc : d.cast (some v) with
  | ok w => exact ⟨_, rfl⟩
  | error e =>
    cases e with
    | rejected r => exact ⟨_, rfl⟩
    | misused m => exact absurd hc (hcast _ m)

/-- A loaded schema is never misused, whatever was loaded before and after it: any input can be cast
and tested, and the program has an answer to every value. -/
theorem loaded_never_misused {registry : Registry}
    (hr : ∀ name d, registry.types.find? name = some d → d.Registrable) (directory : String)
    (documents : List (String × String)) {name : String}
    (hn : name ∈ (Catalog.loadEach { directory, registry } documents).names) :
    ∃ d, (Catalog.loadEach { directory, registry } documents).schema name = .ok d ∧
      (∀ input m, d.cast input ≠ .error (.misused m)) ∧
      (∀ input m, d.accepts input ≠ .error m) ∧
      ∀ v testOnly, ∃ outcome, Program.apply (Catalog.loadEach { directory, registry } documents)
        name v testOnly = .ok outcome := by
  have hempty : Harmless { directory, registry } := ⟨hr, by simp [NameTable.empty]⟩
  obtain ⟨d, hd, hcast, happly⟩ := (hempty.loadEach documents).apply_ok hn
  refine ⟨d, hd, hcast, fun input m => ?_, happly⟩
  exact CastResult.accepted_ne_error (hcast input m)

/-- A registered coercion. -/
def toLevel : Value → CastResult Value
  | .text s =>
    if s = "low" ∨ s = "high" then .ok (.text s) else reject (.invalidValue (.text s))
  | v => reject (.invalidValue v)

def levelTypes : Registry where
  types := .insert .empty "level" (.base { name := "level", coerce? := some toLevel })

/-- The second document asks to coerce lists and cannot be loaded. The third one uses the first one
and the registered type. -/
def levelDocuments : List (String × String) := [
  ("flag", "\x7b\"name\":\"flag\",\"schema\":\x7b\"type\":\"boolean\",\"cast\":true\x7d\x7d"),
  ("list", "\x7b\"name\":\"list\",\"schema\":\x7b\"type\":\"list\",\"cast\":true\x7d\x7d"),
  ("levels", "\x7b\"name\":\"levels\",\"schema\":\x7b\"any_of\":[
    \x7b\"type\":\"flag\",\"cast\":true\x7d,
    \x7b\"type\":\"list\",\"values\":\x7b\"type\":\"level\"\x7d\x7d]\x7d\x7d")]

theorem levels_never_misused :
    (∀ name d, levelTypes.types.find? name = some d → d.Registrable) ∧
    (Catalog.loadEach { directory := ".", registry := levelTypes } levelDocuments).names =
      ["flag", "levels"] ∧
    ∃ d, (Catalog.loadEach { directory := ".", registry := levelTypes } levelDocuments).schema
        "levels" = .ok d ∧
      (∀ input m, d.cast input ≠ .error (.misused m)) ∧
      (∀ input m, d.accepts input ≠ .error m) ∧
      ∀ v testOnly, ∃ outcome, Program.apply
        (Catalog.loadEach { directory := ".", registry := levelTypes } levelDocuments)
        "levels" v testOnly = .ok outcome := by
  have hlevel (v : Value) (m : Misuse) : toLevel v ≠ .error (.misused m) := by
    unfold toLevel
    split
    · split <;> simp [reject]
    · simp [reject]
  have htypes : ∀ name d, levelTypes.types.find? name = some d → d.Registrable := by
    intro name d hd
    have hm : (name, d) ∈ [("level", .base { name := "level", coerce? := some toLevel })] :=
      NameTable.mem_of_find? hd
    rw [List.mem_singleton, Prod.mk.injEq] at hm
    obtain ⟨_, rfl⟩ := hm
    exact .ofCast "level" hlevel
  have hnames : (Catalog.loadEach { directory := ".", registry := levelTypes }
      levelDocuments).names = ["flag", "levels"] := by
    decide +kernel
  exact ⟨htypes, hnames, loaded_never_misused htypes "." levelDocuments (by simp [hnames])⟩

end Catalog

end SchemaCast
