import SchemaCast.Proofs.Alike
import SchemaCast.Proofs.Catalog
import SchemaCast.Proofs.Definition

namespace SchemaCast

namespace Schema

/-- A schema that coerces by the descriptor of another one casts like it. -/
theorem castsLike_of_compile {s : Schema} {d : Descriptor} (hs : s.compile = .ok d) :
    CastsLike {
      type := .custom d
      rules := { casts := true, optional := s.rules.optional, default? := s.rules.default? } }
      s := by
  intro c hc
  refine ⟨d, hs, ?_⟩
  obtain ⟨_, _, rfl, _, hkeys, hcontents⟩ := compile_ok hc
  cases hkeys with
  | some given => simp at given
  | none =>
    cases hcontents with
    | each given => simp at given
    | declared _ given => simp at given
    | any =>
      have hkeep : Descriptor.castKeys none = .ok := funext Descriptor.castKeys_none
      have hstay : Descriptor.castContents .any = .ok := funext Descriptor.castContents_any
      obtain ⟨keys?, contents, rfl, _, _, _⟩ := compile_ok hs
      rw [Descriptor.CastsLike, Descriptor.cast_validator, hkeep, hstay, SchemaType.descriptor,
        Descriptor.cast_validator]
      exact Rules.apply_around _

end Schema

namespace Document.Definition

/-- A definition that refers to a schema by name: values are coerced by that schema, and absence is
treated as its own definition says. -/
def reference (name : String) (d : Definition) : Definition :=
  { blank with
    type? := some name
    casts := true
    optional := d.optional
    default? := d.default? }

/-- The same options are given, with related definitions inside. -/
structure SameOptions (r : Definition → Definition → Prop) (a b : Definition) : Prop where
  type : a.type? = b.type?
  anyOf : Option.Rel (List.Forall₂ r) a.anyOf? b.anyOf?
  casts : a.casts = b.casts
  optional : a.optional = b.optional
  default : a.default? = b.default?
  validators : a.validators = b.validators
  valueValidators : a.valueValidators = b.valueValidators
  contentValidators : a.contentValidators = b.contentValidators
  keys : Option.Rel r a.keys? b.keys?
  values : Option.Rel r a.values? b.values?
  entries : Option.Rel (OrderedMap.Related r) a.entries? b.entries?

/-- The second definition comes from the first by putting `d` in place of `r` anywhere inside. -/
inductive Replaced (r d : Definition) : Definition → Definition → Prop where
  | here : Replaced r d r d
  | same (a : Definition) : Replaced r d a a
  | inside {a b : Definition} (inner : Definition → Definition → Prop)
      (options : SameOptions inner a b) (below : ∀ p q, inner p q → Replaced r d p q) :
    Replaced r d a b

theorem Replaced.of_options {r d a b : Definition} (options : SameOptions (Replaced r d) a b) :
    Replaced r d a b :=
  .inside (Replaced r d) options fun _ _ h => h

variable {scope : Scope} {source origin : String}

/-- If the first definition gives a schema then so does the second one, and what the schemas are
compiled to casts alike. -/
def GivesLike (scope : Scope) (source origin : String) (a b : Definition) : Prop :=
  ∀ s, a.schema scope source = .ok s → ∃ t, b.schema scope origin = .ok t ∧ s.CastsLike t

section Inside

variable {other : Scope} {r : Schema → Schema → Prop} {inner : Definition → Definition → Prop}
  (hinner : ∀ p q, inner p q → ∀ s, p.schema scope source = .ok s →
    ∃ t, q.schema other origin = .ok t ∧ r s t)

include hinner

theorem gives_related (p q : Definition) (n : NestedSchema) (hpq : inner p q)
    (hn : Gives scope source p n) : ∃ m, Gives other origin q m ∧ Nested.Related r n m := by
  obtain ⟨s, hs, rfl⟩ := hn
  obtain ⟨t, ht, hst⟩ := hinner p q hpq s hs
  exact ⟨.declared t, ⟨t, ht, rfl⟩, .declared hst⟩

theorem entries_related (ps qs : List (String × Definition)) (ns : List (String × NestedSchema))
    (h : OrderedMap.Related inner ps qs) (hns : OrderedMap.Related (Gives scope source) ps ns) :
    ∃ ms, OrderedMap.Related (Gives other origin) qs ms ∧
      OrderedMap.Related (Nested.Related r) ns ms := by
  refine forall₂_complete (fun p q n hpq hn => ?_) h hns
  obtain ⟨m, hm, hrelated⟩ := gives_related hinner _ _ _ hpq.2 hn.2
  exact ⟨(q.1, m), ⟨rfl, hm⟩, hn.1.symm.trans hpq.1, hrelated⟩

/-- With a type of its own, the second definition gives a schema that is related to that of the
first one by its options. -/
theorem SameOptions.givesParts {a b : Definition} (h : SameOptions inner a b)
    (hv : ∀ name holds, scope.validator name = .ok holds → other.validator name = .ok holds)
    {s : Schema} (hs : GivesParts scope source a s) {u : SchemaType}
    (hu : GivesType other origin b.type? b.anyOf? u) :
    ∃ t, GivesParts other origin b t ∧ t.type = u ∧ t.rules = s.rules ∧
      Schema.SameOptions r s t := by
  obtain ⟨keys?, hkeys, hkeysRelated⟩ := optionRel_complete (gives_related hinner) h.keys hs.keys
  obtain ⟨values?, hvalues, hvaluesRelated⟩ :=
    optionRel_complete (gives_related hinner) h.values hs.values
  obtain ⟨entries?, hentries, hentriesRelated⟩ :=
    optionRel_complete (entries_related hinner) h.entries hs.entries
  refine ⟨{ type := u, rules := s.rules, keys?, values?, entries? }, ?_, rfl, rfl,
    ⟨hkeysRelated, hvaluesRelated, hentriesRelated⟩⟩
  exact {
    type := hu
    casts := hs.casts.trans h.casts
    optional := hs.optional.trans h.optional
    default := hs.default.trans h.default
    checks := h.validators ▸ predicates_of_agree hv hs.checks
    valueChecks := h.valueValidators ▸ predicates_of_agree hv hs.valueChecks
    contentChecks := h.contentValidators ▸ predicates_of_agree hv hs.contentChecks
    keys := hkeys
    values := hvalues
    entries := hentries }

end Inside

theorem givesType_related {inner : Definition → Definition → Prop}
    (hinner : ∀ p q, inner p q → GivesLike scope source origin p q) {name? : Option String}
    {ds? es? : Option (List Definition)} (h : Option.Rel (List.Forall₂ inner) ds? es?)
    {t : SchemaType} (ht : GivesType scope source name? ds? t) :
    ∃ u, GivesType scope origin name? es? u ∧ t.Alike u := by
  cases ht with
  | named resolved =>
    cases h
    exact ⟨t, .named resolved, .refl t⟩
  | anyOf alternatives compiled =>
    cases h with
    | some hds =>
      obtain ⟨ms, hms, hrelated⟩ :=
        forall₂_complete (gives_related hinner) hds alternatives
      obtain ⟨d, hd, halike⟩ := Descriptor.anyOfSchemas_alike hrelated compiled
      exact ⟨.custom d, .anyOf hms hd, halike⟩

theorem SameOptions.givesLike {inner : Definition → Definition → Prop}
    (hinner : ∀ p q, inner p q → GivesLike scope source origin p q) {a b : Definition}
    (h : SameOptions inner a b) : GivesLike scope source origin a b := by
  intro s hs
  rw [schema_eq_ok] at hs
  obtain ⟨type, htype, halike⟩ := givesType_related hinner h.anyOf hs.type
  rw [h.type] at htype
  obtain ⟨t, ht, rfl, hrules, hoptions⟩ :=
    h.givesParts hinner (fun _ _ hv => hv) hs htype
  exact ⟨t, (schema_eq_ok ..).mpr ht, Schema.castsLike_of halike hrules hoptions⟩

theorem Replaced.givesLike {r d a b : Definition} (h : Replaced r d a b)
    (hrd : GivesLike scope source origin r d) : GivesLike scope source origin a b := by
  induction h with
  | here => exact hrd
  | same a =>
    intro s hs
    exact ⟨s, schema_of_agree (fun _ _ hv => hv) (fun _ _ => rfl) hs, fun c hc => ⟨c, hc, rfl⟩⟩
  | inside inner options _ ih => exact options.givesLike ih

theorem schema_reference {name : String} {t : SchemaType} (h : scope.type name = .ok t)
    (d : Definition) : (reference name d).schema scope source = .ok {
      type := t
      rules := { casts := true, optional := d.optional, default? := d.default? } } := by
  simp [reference, blank, schema, schemaType, h, predicates, schemaOption?, schemaEntries?, bind,
    Except.bind, pure, Except.pure]

/-- Where a name stands for what the schema of a definition was compiled to, that definition can
take the place of a reference. -/
theorem reference_givesLike {name : String} {d : Definition} {s : Schema} {c : Descriptor}
    (hname : scope.type name = .ok (.custom c)) (hs : d.schema scope origin = .ok s)
    (hc : s.compile = .ok c) : GivesLike scope source origin (reference name d) d := by
  intro t ht
  rw [schema_reference hname] at ht
  obtain rfl := Except.ok.inj ht
  have hparts := (schema_eq_ok ..).mp hs
  refine ⟨s, hs, ?_⟩
  rw [← hparts.optional, ← hparts.default]
  exact Schema.castsLike_of_compile hc

end Document.Definition

namespace Catalog

open Document (Definition)

variable {before after later : Catalog}

theorem validator_of_later (h : before.Later later) (name : String) (holds : Predicate)
    (hp : before.scope.validator name = .ok holds) : later.scope.validator name = .ok holds := by
  simp only [scope, Registry.validator] at hp ⊢
  split at hp
  · rename_i found hfound
    rw [h.validators_find? hfound]
    exact hp
  · simp at hp

/-- Two documents that differ in that one refers to a loaded schema and the other has its definition
in place are compiled to validators that cast alike. -/
theorem cast_of_replaced {source text name : String} {document : Document}
    (hload : before.load source text = (.ok name, after))
    (hdocument : Document.ofText? text = some document) (hlater : after.Later later)
    (hbuiltin : Builtin.ofName? name = none)
    (htypes : ∀ type, document.definition.NamesType type →
      later.scope.type type = before.scope.type type)
    {a b : Document}
    (hab : Definition.Replaced (.reference name document.definition) document.definition
      a.definition b.definition)
    {sourceA sourceB : String} {c : Descriptor} (hc : later.compile sourceA a = .ok c) :
    ∃ d, later.compile sourceB b = .ok d ∧ ∀ input, c.cast input = d.cast input := by
  obtain ⟨document', loaded, schemas, hdocument', _, _, hloaded, hbind, rfl⟩ := load_ok hload
  obtain rfl : document = document' := Option.some.inj (hdocument.symm.trans hdocument')
  obtain ⟨s, hs, hcompiled⟩ := (except_bind_eq_ok ..).mp hloaded
  obtain ⟨t, ht, hc⟩ := (except_bind_eq_ok ..).mp hc
  -- The name is bound to what the definition was compiled to, and the definition still gives the
  -- schema that it gave then.
  have hfind := hlater.schemas_find? (NameTable.find?_bind?_self hbind)
  have hname : later.scope.type name = .ok (.custom loaded) := by
    simp only [scope, hbuiltin, hfind]
  have hvalidators (name : String) (holds : Predicate)
      (hp : before.scope.validator name = .ok holds) : later.scope.validator name = .ok holds :=
    validator_of_later hlater name holds hp
  have hkept : document.definition.schema later.scope sourceB = .ok s :=
    Definition.schema_of_agree hvalidators htypes hs
  obtain ⟨u, hu, hlike⟩ :=
    hab.givesLike (Definition.reference_givesLike hname hkept hcompiled) t ht
  obtain ⟨d, hd, hcast⟩ := hlike c hc
  refine ⟨d, ?_, congrFun hcast⟩
  rw [compile, hu]
  exact hd

/-- Lists of booleans that may be absent. -/
def switches : Definition :=
  { Definition.blank with
    type? := some "list"
    optional := true
    default? := some (.list [.bool true])
    values? := some { Definition.blank with type? := some "boolean", casts := true } }

/-- Records of numbers and of what a definition describes. -/
def panel (d : Definition) : Definition :=
  { Definition.blank with
    type? := some "record"
    values? := some { Definition.blank with
      anyOf? := some [{ Definition.blank with type? := some "number" }, d]
      casts := true } }

theorem panel_replaced (r d : Definition) : Definition.Replaced r d (panel r) (panel d) := by
  refine .of_options ⟨rfl, .none, rfl, rfl, rfl, rfl, rfl, rfl, .none, .some ?_, .none⟩
  refine .of_options ⟨rfl, .some ?_, rfl, rfl, rfl, rfl, rfl, rfl, .none, .none, .none⟩
  exact .cons (.same _) (.cons .here .nil)

theorem namesType_switches {name : String} (h : switches.NamesType name) :
    name = "list" ∨ name = "boolean" := by
  cases h with
  | here given => exact .inl (Option.some.inj given).symm
  | inside part names =>
    obtain rfl := List.mem_singleton.mp part
    cases names with
    | here given => exact .inr (Option.some.inj given).symm
    | inside part => cases part

def switchesText : String :=
  "\x7b\"name\":\"switches\",\"schema\":\x7b\"type\":\"list\",\"optional\":true," ++
    "\"default\":[true],\"values\":\x7b\"type\":\"boolean\",\"cast\":true\x7d\x7d\x7d"

set_option maxRecDepth 1000 in
theorem switches_written : Document.ofText? switchesText = some ⟨"switches", switches⟩ := by
  have hwritten : Json.Written.ofText? switchesText = some (.object [
      (some "name", .string (some "switches")),
      (some "schema", .object [(some "type", .string (some "list")), (some "optional", .bool true),
        (some "default", .array [.bool true]), (some "values", .object [
          (some "type", .string (some "boolean")), (some "cast", .bool true)])])]) := rfl
  rw [Document.ofText?, hwritten]
  rfl

/-- The catalog after the switches are loaded. -/
def switchesCatalog : Catalog where
  directory := "."
  schemas := .insert .empty "switches" (.validator (.base Builtin.list.type)
    { optional := true, default? := some (.list [.bool true]) } none
    (.each (.validator (.base Builtin.boolean.type) { casts := true } none .any)))

/-- The same catalog after a type is registered. -/
def laterCatalog : Catalog :=
  { switchesCatalog with
    registry := { types := .insert .empty "on" (.base Builtin.boolean.type) } }

theorem panels_cast_alike :
    load { directory := "." } "switches.json" switchesText = (.ok "switches", switchesCatalog) ∧
    Document.ofText? switchesText = some ⟨"switches", switches⟩ ∧
    switchesCatalog.Later laterCatalog ∧ Builtin.ofName? "switches" = none ∧
    (∀ type, switches.NamesType type →
      laterCatalog.scope.type type = (scope { directory := "." }).type type) ∧
    Definition.Replaced (.reference "switches" switches) switches
      (panel (.reference "switches" switches)) (panel switches) ∧
    ∃ c d, laterCatalog.compile "a.json" ⟨"a", panel (.reference "switches" switches)⟩ = .ok c ∧
      laterCatalog.compile "b.json" ⟨"b", panel switches⟩ = .ok d ∧
      c.cast (some (.record ⟨[("a", .list [.text "0", .bool true])]⟩)) =
        .ok (.record ⟨[("a", .list [.bool false, .bool true])]⟩) ∧
      d.cast (some (.record ⟨[("a", .list [.text "0", .bool true])]⟩)) =
        .ok (.record ⟨[("a", .list [.bool false, .bool true])]⟩) := by
  have hload : load { directory := "." } "switches.json" switchesText =
      (.ok "switches", switchesCatalog) :=
    load_of switches_written rfl ((except_bind_eq_ok ..).mpr ⟨_, rfl, rfl⟩) rfl
  have hregister : switchesCatalog.registry.registerType "on" (.base Builtin.boolean.type) =
      (.ok (), laterCatalog.registry) := rfl
  have hlater : switchesCatalog.Later laterCatalog := .registerType .refl hregister
  have htypes (type : String) (h : switches.NamesType type) :
      laterCatalog.scope.type type = (scope { directory := "." }).type type := by
    rcases namesType_switches h with rfl | rfl
    · rfl
    · rfl
  have hreplaced := panel_replaced (.reference "switches" switches) switches
  have hcompile : laterCatalog.compile "a.json" ⟨"a", panel (.reference "switches" switches)⟩ =
      .ok _ := (except_bind_eq_ok ..).mpr ⟨_, rfl, rfl⟩
  obtain ⟨d, hd, hcast⟩ := cast_of_replaced (b := ⟨"b", panel switches⟩) hload switches_written
    hlater rfl htypes hreplaced hcompile
  refine ⟨hload, switches_written, hlater, rfl, htypes, hreplaced, _, d, hcompile, hd, rfl, ?_⟩
  rw [← hcast]
  rfl

/-- The catalog after a schema is loaded under the name of a builtin type. -/
def shadowedCatalog : Catalog where
  directory := "."
  schemas := .insert .empty "text" (.validator (.base Builtin.number.type) {} none .any)

def shadowedText : String :=
  "\x7b\"name\": \"text\", \"schema\": \x7b\"type\": \"number\"\x7d\x7d"

def numbers : Definition := { Definition.blank with type? := some "number" }

/-- A name that is that of a builtin type means this type, also when a schema of that name is
loaded. -/
theorem builtin_shadows_schema :
    load { directory := "." } "text.json" shadowedText = (.ok "text", shadowedCatalog) ∧
    Document.ofText? shadowedText = some ⟨"text", numbers⟩ ∧
    shadowedCatalog.Later shadowedCatalog ∧
    (∀ type, numbers.NamesType type →
      shadowedCatalog.scope.type type = (scope { directory := "." }).type type) ∧
    Definition.Replaced (.reference "text" numbers) numbers (.reference "text" numbers) numbers ∧
    ∃ c d, shadowedCatalog.compile "a.json" ⟨"a", .reference "text" numbers⟩ = .ok c ∧
      shadowedCatalog.compile "b.json" ⟨"b", numbers⟩ = .ok d ∧
      c.cast (some (.bool true)) = .ok (.text "true") ∧
      d.cast (some (.bool true)) = .error (.rejected (.invalidValue (.bool true))) := by
  have hdocument : Document.ofText? shadowedText = some ⟨"text", numbers⟩ := rfl
  have hload : load { directory := "." } "text.json" shadowedText = (.ok "text", shadowedCatalog) :=
    load_of hdocument rfl ((except_bind_eq_ok ..).mpr ⟨_, rfl, rfl⟩) rfl
  refine ⟨hload, hdocument, .refl, fun type h => ?_, .here, _, _,
    (except_bind_eq_ok ..).mpr ⟨_, rfl, rfl⟩, (except_bind_eq_ok ..).mpr ⟨_, rfl, rfl⟩, rfl, rfl⟩
  cases h with
  | here given =>
    obtain rfl := Option.some.inj given
    rfl
  | inside part => cases part

end Catalog

end SchemaCast
