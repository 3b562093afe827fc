import SchemaCast.Proofs.Inlining

namespace SchemaCast

/-- The second type can be used wherever the first one can. -/
structure SchemaType.Replaces (t u : SchemaType) : Prop where
  supports : ∀ option, t.supports option = true → u.supports option = true
  castable : t.descriptor.isCastable = true → u.descriptor.isCastable = true

theorem SchemaType.Replaces.refl (t : SchemaType) : t.Replaces t :=
  ⟨fun _ h => h, id⟩

theorem SchemaType.Replaces.trans {t u v : SchemaType} (h : t.Replaces u) (hv : u.Replaces v) :
    t.Replaces v :=
  ⟨fun option ho => hv.supports option (h.supports option ho), fun ht => hv.castable (h.castable ht)⟩

/-- The members of values of a type that is not builtin cannot be reached. -/
theorem SchemaType.Replaces.custom {c d : Descriptor} (castable : d.isCastable = true) :
    (SchemaType.custom c).Replaces (.custom d) := by
  refine ⟨fun option h => ?_, fun _ => castable⟩
  cases option <;> cases h

/-- Whenever the first schema compiles then so does the second. -/
abbrev Schema.StillCompiles : Schema → Schema → Prop := CompilesTo fun _ _ => True

theorem Schema.stillCompiles_of {s t : Schema} (type : s.type.Replaces t.type)
    (rules : t.rules = s.rules) (options : SameOptions StillCompiles s t) :
    s.StillCompiles t := by
  intro c hc
  have hcastable (hcasts : t.rules.casts = true) : t.type.descriptor.isCastable = true := by
    obtain ⟨_, _, _, hcan, _, _⟩ := compile_ok hc
    exact type.castable (hcan (rules ▸ hcasts))
  obtain ⟨_, _, _, _, _, ht, _, _⟩ := options.compile (q := fun _ _ => True) type.supports
    (fun _ => trivial) (fun _ _ h => h) hcastable hc
  exact ⟨_, ht, trivial⟩

/-- Alternatives that still compile make a type. -/
theorem Descriptor.anyOfSchemas_still {ns ms : List NestedSchema}
    (h : List.Forall₂ (Nested.Related Schema.StillCompiles) ns ms) {c : Descriptor}
    (hc : anyOfSchemas ns = .ok c) :
    ∃ d, anyOfSchemas ms = .ok d ∧ (SchemaType.custom c).Replaces (.custom d) := by
  obtain ⟨cs, hcs, rfl⟩ := (except_bind_pure_eq_ok ..).mp hc
  have step (n m : NestedSchema) (c : Descriptor)
      (hnm : Nested.Related Schema.StillCompiles n m) (hn : Schema.compileNested n = .ok c) :
      ∃ d, Schema.compileNested m = .ok d ∧ True :=
    Schema.nested_compile (q := fun _ _ => True) (fun _ => trivial) (fun _ _ h => h) hnm hn
  obtain ⟨ds, hds, _⟩ := forall₂_complete step h ((Schema.compileAll_eq_ok ..).mp hcs)
  exact ⟨.anyOf ds, (except_bind_pure_eq_ok ..).mpr ⟨ds, (Schema.compileAll_eq_ok ..).mpr hds, rfl⟩,
    .custom rfl⟩

namespace Document

/-- Every name of a type still stands for one that can be used in the same way, and every name of a
predicate for the same one. -/
structure Scope.Grows (scope other : Scope) : Prop where
  types : ∀ name t, scope.type name = .ok t → ∃ u, other.type name = .ok u ∧ t.Replaces u
  validators : ∀ name holds, scope.validator name = .ok holds → other.validator name = .ok holds

theorem Scope.Grows.refl (scope : Scope) : scope.Grows scope :=
  ⟨fun _ t h => ⟨t, h, .refl t⟩, fun _ _ h => h⟩

theorem Scope.Grows.trans {scope next other : Scope} (h : scope.Grows next)
    (hnext : next.Grows other) : scope.Grows other := by
  refine ⟨fun name t ht => ?_, fun name holds hp =>
    hnext.validators name holds (h.validators name holds hp)⟩
  obtain ⟨u, hu, hreplaces⟩ := h.types name t ht
  obtain ⟨v, hv, hnextReplaces⟩ := hnext.types name u hu
  exact ⟨v, hv, hreplaces.trans hnextReplaces⟩

namespace Definition

variable {scope other : Scope} {source origin : String}

theorem sameOptions_self (d : Definition) :
    SameOptions (fun p q => p = q ∧ p ∈ d.parts) d d := by
  have option {d? : Option Definition} (h : ∀ p, d? = some p → p ∈ d.parts) :
      Option.Rel (fun p q => p = q ∧ p ∈ d.parts) d? d? := by
    cases d? with
    | none => exact .none
    | some p => exact .some ⟨rfl, h p rfl⟩
  refine ⟨rfl, ?_, rfl, rfl, rfl, rfl, rfl, rfl, option fun _ => keys_mem_parts,
    option fun _ => values_mem_parts, ?_⟩
  · cases ha : d.anyOf? with
    | none => exact .none
    | some ds =>
      exact .some (List.forall₂_same.mpr fun p hp => ⟨rfl, alternative_mem_parts ha hp⟩)
  · cases he : d.entries? with
    | none => exact .none
    | some entries =>
      exact .some (List.forall₂_same.mpr fun e hm => ⟨rfl, rfl, entry_mem_parts he hm⟩)

theorem givesType_still (h : scope.Grows other) {inner : Definition → Definition → Prop}
    (hinner : ∀ p q, inner p q → ∀ s, p.schema scope source = .ok s →
      ∃ t, q.schema other origin = .ok t ∧ s.StillCompiles t)
    {name? : Option String} {ds? es? : Option (List Definition)}
    (hds : Option.Rel (List.Forall₂ inner) ds? es?) {t : SchemaType}
    (ht : GivesType scope source name? ds? t) :
    ∃ u, GivesType other origin name? es? u ∧ t.Replaces u := by
  cases ht with
  | named resolved =>
    cases hds
    obtain ⟨u, hu, hreplaces⟩ := h.types _ _ resolved
    exact ⟨u, .named hu, hreplaces⟩
  | anyOf alternatives compiled =>
    cases hds with
    | some hds =>
      obtain ⟨ms, hms, hrelated⟩ := forall₂_complete (gives_related hinner) hds alternatives
      obtain ⟨d, hd, hreplaces⟩ := Descriptor.anyOfSchemas_still hrelated compiled
      exact ⟨.custom d, .anyOf hms hd, hreplaces⟩

/-- In a scope that has grown, a definition still gives a schema, which compiles if the one before
did. -/
theorem schema_still (h : scope.Grows other) (d : Definition) {s : Schema}
    (hs : d.schema scope source = .ok s) :
    ∃ t, d.schema other origin = .ok t ∧ s.StillCompiles t := by
  induction d using induction_on_parts generalizing s with
  | step d ih =>
    have hinner (p q : Definition) (hpq : p = q ∧ p ∈ d.parts) (s : Schema)
        (hs : p.schema scope source = .ok s) :
        ∃ t, q.schema other origin = .ok t ∧ s.StillCompiles t := hpq.1 ▸ ih p hpq.2 hs
    have hoptions := sameOptions_self d
    rw [schema_eq_ok] at hs
    obtain ⟨u, hu, hreplaces⟩ := givesType_still h hinner hoptions.anyOf hs.type
    obtain ⟨t, ht, rfl, hrules, hrelated⟩ := hoptions.givesParts hinner h.validators hs hu
    exact ⟨t, (schema_eq_ok ..).mpr ht, Schema.stillCompiles_of hreplaces hrules hrelated⟩

end Definition

end Document

namespace Catalog

open Document (Scope)

variable {catalog after later : Catalog}

/-- A document that compiles still does so in a catalog whose scope has grown. -/
theorem compile_still (origin : String) (h : catalog.scope.Grows later.scope) {source : String}
    {document : Document} {c : Descriptor} (hc : catalog.compile source document = .ok c) :
    ∃ d, later.compile origin document = .ok d := by
  obtain ⟨s, hs, hc⟩ := (except_bind_eq_ok ..).mp hc
  obtain ⟨t, ht, hstill⟩ := document.definition.schema_still h hs
  obtain ⟨d, hd, _⟩ := hstill c hc
  exact ⟨d, (except_bind_eq_ok ..).mpr ⟨t, ht, hd⟩⟩

theorem compile_castable {source : String} {document : Document} {d : Descriptor}
    (h : catalog.compile source document = .ok d) : d.isCastable = true := by
  obtain ⟨s, _, hc⟩ := (except_bind_eq_ok ..).mp h
  obtain ⟨_, _, rfl, _⟩ := Schema.compile_ok hc
  rfl

/-- With schemas that can be cast under names that were free, the scope of a catalog grows. -/
theorem scope_grows (hregistry : after.registry = catalog.registry)
    (hkept : ∀ name d, catalog.schemas.find? name = some d → after.schemas.find? name = some d)
    (hnew : ∀ name d, catalog.schemas.find? name = none → after.schemas.find? name = some d →
      d.isCastable = true) : catalog.scope.Grows after.scope := by
  constructor
  · intro name t ht
    simp only [scope] at ht ⊢
    split at ht
    · exact ⟨t, ht, .refl t⟩
    · split at ht
      · rename_i d hd
        rw [hkept name d hd]
        exact ⟨t, ht, .refl t⟩
      · rename_i hfree
        obtain ⟨c, hc, rfl⟩ := (except_bind_pure_eq_ok ..).mp ht
        cases hd : after.schemas.find? name with
        | none => exact ⟨_, by rw [hregistry, hc]; rfl, .refl _⟩
        | some d => exact ⟨_, rfl, .custom (hnew name d hfree hd)⟩
  · intro name holds hholds
    rw [scope, hregistry]
    exact hholds

end Catalog

end SchemaCast
