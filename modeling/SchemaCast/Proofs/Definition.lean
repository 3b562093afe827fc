import SchemaCast.Document.Resolve
import SchemaCast.Proofs.Compile

namespace SchemaCast.Document.Definition

/-- A definition without options. -/
def blank : Definition where
  type? := none
  anyOf? := none
  casts := false
  optional := false
  default? := none
  validators := []
  valueValidators := []
  contentValidators := []
  keys? := none
  values? := none
  entries? := none

/-- The definitions right inside a definition. -/
def parts (d : Definition) : List Definition :=
  d.anyOf?.getD [] ++ d.keys?.toList ++ d.values?.toList ++ (d.entries?.getD []).map Prod.snd

theorem alternative_mem_parts {d p : Definition} {alternatives : List Definition}
    (h : d.anyOf? = some alternatives) (hp : p ∈ alternatives) : p ∈ d.parts := by
  simp [parts, h, hp]

theorem keys_mem_parts {d p : Definition} (h : d.keys? = some p) : p ∈ d.parts := by
  simp [parts, h]

theorem values_mem_parts {d p : Definition} (h : d.values? = some p) : p ∈ d.parts := by
  simp [parts, h]

theorem entry_mem_parts {d : Definition} {entries : List (String × Definition)}
    (h : d.entries? = some entries) {e : String × Definition} (he : e ∈ entries) :
    e.2 ∈ d.parts := by
  simp only [parts, h, Option.getD_some, List.mem_append]
  exact .inr (List.mem_map_of_mem he)

theorem sizeOf_part_lt {d p : Definition} (h : p ∈ d.parts) : sizeOf p < sizeOf d := by
  obtain ⟨type?, anyOf?, casts, optional, default?, validators, valueValidators,
    contentValidators, keys?, values?, entries?⟩ := d
  simp only [parts, List.mem_append, Option.mem_toList, List.mem_map] at h
  rcases h with ((h | rfl) | rfl) | ⟨⟨key, q⟩, he, rfl⟩
  · cases anyOf? with
    | none => simp at h
    | some alternatives =>
      have hlt := List.sizeOf_lt_of_mem (show p ∈ alternatives from h)
      simp; omega
  · simp; omega
  · simp; omega
  · cases entries? with
    | none => simp at he
    | some entries =>
      have hlt := List.sizeOf_lt_of_mem (show (key, q) ∈ entries from he)
      simp at hlt ⊢
      omega

@[elab_as_elim]
theorem induction_on_parts {motive : Definition → Prop}
    (step : ∀ d, (∀ p ∈ d.parts, motive p) → motive d) (d : Definition) : motive d :=
  (measure (sizeOf : Definition → Nat)).wf.induction d fun d ih =>
    step d fun p hp => ih p (sizeOf_part_lt hp)

variable (scope : Scope) (source : String)

/-- The definition of a nested schema. -/
def Gives (d : Definition) (n : NestedSchema) : Prop :=
  ∃ s, d.schema scope source = .ok s ∧ .declared s = n

/-- A type is named, or made from alternatives that compile. -/
inductive GivesType : Option String → Option (List Definition) → SchemaType → Prop where
  | named {name : String} {t : SchemaType} (resolved : scope.type name = .ok t) :
    GivesType (some name) none t
  | anyOf {ds : List Definition} {ns : List NestedSchema} {d : Descriptor}
      (alternatives : List.Forall₂ (Gives scope source) ds ns)
      (compiled : Descriptor.anyOfSchemas ns = .ok d) : GivesType none (some ds) (.custom d)

/-- Each option of a definition gives that option of the schema. -/
structure GivesParts (d : Definition) (s : Schema) : Prop where
  type : GivesType scope source d.type? d.anyOf? s.type
  casts : s.rules.casts = d.casts
  optional : s.rules.optional = d.optional
  default : s.rules.default? = d.default?
  checks : predicates scope d.validators = .ok s.rules.checks
  valueChecks : predicates scope d.valueValidators = .ok s.rules.valueChecks
  contentChecks : predicates scope d.contentValidators = .ok s.rules.contentChecks
  keys : Option.Rel (Gives scope source) d.keys? s.keys?
  values : Option.Rel (Gives scope source) d.values? s.values?
  entries : Option.Rel (OrderedMap.Related (Gives scope source)) d.entries? s.entries?

variable {scope source}

theorem schemaList_eq_ok (ds : List Definition) (ns : List NestedSchema) :
    schemaList scope source ds = .ok ns ↔ List.Forall₂ (Gives scope source) ds ns := by
  have h : schemaList scope source ds =
      ds.mapM fun d => do return .declared (← d.schema scope source) := by
    induction ds with
    | nil => rw [schemaList]; rfl
    | cons d ds ih =>
      rw [schemaList]
      simp [ih]
  rw [h, mapM_eq_ok]
  simp only [except_bind_eq_ok, except_pure_eq_ok]
  rfl

theorem schemaFields_eq_ok (entries : List (String × Definition))
    (fields : List (String × NestedSchema)) :
    schemaFields scope source entries = .ok fields ↔
      OrderedMap.Related (Gives scope source) entries fields := by
  have h : schemaFields scope source entries =
      entries.mapM fun (key, d) => do return (key, .declared (← d.schema scope source)) := by
    induction entries with
    | nil => rw [schemaFields]; rfl
    | cons e entries ih =>
      rw [schemaFields]
      simp [ih]
  rw [h, mapM_eq_ok]
  simp only [except_bind_eq_ok, except_pure_eq_ok, Prod.ext_iff, OrderedMap.Related, Gives]
  grind

theorem schemaOption?_eq_ok (d? : Option Definition) (n? : Option NestedSchema) :
    schemaOption? scope source d? = .ok n? ↔ Option.Rel (Gives scope source) d? n? := by
  cases d? with
  | none =>
    rw [schemaOption?, Except.ok.injEq]
    constructor
    · rintro rfl
      exact .none
    · rintro ⟨⟩
      rfl
  | some d =>
    rw [schemaOption?, except_bind_eq_ok]
    constructor
    · rintro ⟨s, hs, h⟩
      rw [except_pure_eq_ok] at h
      exact h ▸ .some ⟨s, hs, rfl⟩
    · rintro (⟨s, hs, rfl⟩ | _)
      exact ⟨s, hs, rfl⟩

theorem schemaEntries?_eq_ok (entries? : Option (List (String × Definition)))
    (fields? : Option (List (String × NestedSchema))) :
    schemaEntries? scope source entries? = .ok fields? ↔
      Option.Rel (OrderedMap.Related (Gives scope source)) entries? fields? := by
  cases entries? with
  | none =>
    rw [schemaEntries?, Except.ok.injEq]
    constructor
    · rintro rfl
      exact .none
    · rintro ⟨⟩
      rfl
  | some entries =>
    rw [schemaEntries?, except_bind_eq_ok]
    constructor
    · rintro ⟨fields, hf, h⟩
      rw [except_pure_eq_ok] at h
      exact h ▸ .some ((schemaFields_eq_ok ..).mp hf)
    · rintro (hf | _)
      exact ⟨_, (schemaFields_eq_ok ..).mpr hf, rfl⟩

theorem schemaType_eq_ok (type? : Option String) (anyOf? : Option (List Definition))
    (t : SchemaType) :
    schemaType scope source type? anyOf? = .ok t ↔ GivesType scope source type? anyOf? t := by
  constructor
  · intro h
    cases anyOf? with
    | none =>
      cases type? with
      | none => simp [schemaType] at h
      | some name =>
        rw [schemaType] at h
        exact .named h
    | some alternatives =>
      cases type? with
      | none =>
        rw [schemaType] at h
        obtain ⟨ns, hns, h⟩ := (except_bind_eq_ok ..).mp h
        obtain ⟨d, hd, h⟩ := (except_bind_eq_ok ..).mp h
        rw [except_pure_eq_ok] at h
        exact h ▸ .anyOf ((schemaList_eq_ok ..).mp hns) hd
      | some name => simp [schemaType] at h
  · intro h
    cases h with
    | named resolved =>
      rw [schemaType]
      exact resolved
    | anyOf alternatives compiled =>
      rw [schemaType, (schemaList_eq_ok ..).mpr alternatives]
      simp [bind, Except.bind, compiled, pure, Except.pure]

theorem schema_eq_ok (d : Definition) (s : Schema) :
    d.schema scope source = .ok s ↔ GivesParts scope source d s := by
  obtain ⟨type?, anyOf?, casts, optional, default?, validators, valueValidators,
    contentValidators, keys?, values?, entries?⟩ := d
  rw [schema]
  constructor
  · intro h
    obtain ⟨type, htype, h⟩ := (except_bind_eq_ok ..).mp h
    obtain ⟨checks, hchecks, h⟩ := (except_bind_eq_ok ..).mp h
    obtain ⟨valueChecks, hvalueChecks, h⟩ := (except_bind_eq_ok ..).mp h
    obtain ⟨contentChecks, hcontentChecks, h⟩ := (except_bind_eq_ok ..).mp h
    obtain ⟨nkeys?, hkeys, h⟩ := (except_bind_eq_ok ..).mp h
    obtain ⟨nvalues?, hvalues, h⟩ := (except_bind_eq_ok ..).mp h
    obtain ⟨nentries?, hentries, rfl⟩ := (except_bind_pure_eq_ok ..).mp h
    exact ⟨(schemaType_eq_ok ..).mp htype, rfl, rfl, rfl, hchecks, hvalueChecks, hcontentChecks,
      (schemaOption?_eq_ok ..).mp hkeys, (schemaOption?_eq_ok ..).mp hvalues,
      (schemaEntries?_eq_ok ..).mp hentries⟩
  · rintro ⟨htype, hcasts, hoptional, hdefault, hchecks, hvalueChecks, hcontentChecks, hkeys,
      hvalues, hentries⟩
    obtain ⟨type, ⟨_, _, _, checks, valueChecks, contentChecks⟩, nkeys?, nvalues?, nentries?⟩ := s
    subst hcasts hoptional hdefault
    dsimp only at *
    rw [(schemaType_eq_ok ..).mpr htype, hchecks, hvalueChecks, hcontentChecks,
      (schemaOption?_eq_ok ..).mpr hkeys, (schemaOption?_eq_ok ..).mpr hvalues,
      (schemaEntries?_eq_ok ..).mpr hentries]
    rfl

/-- Schemas right inside come from definitions right inside. -/
theorem GivesParts.exists_part {d : Definition} {s : Schema} (h : GivesParts scope source d s)
    {n : NestedSchema} (hn : n ∈ s.nested) : ∃ p ∈ d.parts, Gives scope source p n := by
  have option {d? : Option Definition} {n? : Option NestedSchema}
      (hr : Option.Rel (Gives scope source) d? n?) (hm : n? = some n) :
      ∃ p, d? = some p ∧ Gives scope source p n := by
    subst hm
    cases hr with
    | some hg => exact ⟨_, rfl, hg⟩
  simp only [Schema.nested, List.mem_append, Option.mem_toList, List.mem_map] at hn
  rcases hn with (hn | hn) | ⟨f, hf, rfl⟩
  · obtain ⟨p, hp, hg⟩ := option h.keys hn
    exact ⟨p, keys_mem_parts hp, hg⟩
  · obtain ⟨p, hp, hg⟩ := option h.values hn
    exact ⟨p, values_mem_parts hp, hg⟩
  · have hentries := h.entries
    generalize he : d.entries? = entries? at hentries
    generalize s.entries? = fields? at hentries hf
    cases hentries with
    | none => simp at hf
    | some hr =>
      obtain ⟨e, hm, _, hg⟩ := exists_left_of_forall₂ hr hf
      exact ⟨e.2, entry_mem_parts he hm, hg⟩

/-- The name of a type stands somewhere in the definition. -/
inductive NamesType (name : String) : Definition → Prop where
  | here {d : Definition} (given : d.type? = some name) : NamesType name d
  | inside {d p : Definition} (part : p ∈ d.parts) (names : NamesType name p) : NamesType name d

section Agreement

variable {other : Scope} {origin : String}
  (hv : ∀ name holds, scope.validator name = .ok holds → other.validator name = .ok holds)

include hv

theorem predicates_of_agree {names : List String} {checks : List Predicate}
    (h : predicates scope names = .ok checks) : predicates other names = .ok checks := by
  rw [predicates, mapM_eq_ok] at h ⊢
  exact h.imp hv

omit hv in
theorem GivesType.of_agree {d : Definition} {t : SchemaType}
    (ht : ∀ name, d.type? = some name → other.type name = scope.type name)
    (hparts : ∀ p ∈ d.parts, ∀ n, Gives scope source p n → Gives other origin p n)
    (h : GivesType scope source d.type? d.anyOf? t) :
    GivesType other origin d.type? d.anyOf? t := by
  generalize hn : d.type? = type? at h ⊢
  generalize ha : d.anyOf? = anyOf? at h ⊢
  cases h with
  | named resolved => exact .named ((ht _ hn).trans resolved)
  | anyOf alternatives compiled =>
    have hin := fun p => alternative_mem_parts (p := p) ha
    refine .anyOf ?_ compiled
    exact ((List.forall₂_and_left ..).mpr ⟨hin, alternatives⟩).imp fun p n h => hparts p h.1 n h.2

/-- Where the type of a definition, its predicates and its parts mean the same, so does the
definition. -/
theorem GivesParts.of_agree {d : Definition} {s : Schema}
    (ht : ∀ name, d.type? = some name → other.type name = scope.type name)
    (hparts : ∀ p ∈ d.parts, ∀ n, Gives scope source p n → Gives other origin p n)
    (h : GivesParts scope source d s) : GivesParts other origin d s := by
  have option {d? : Option Definition} {n? : Option NestedSchema}
      (hd : ∀ p, d? = some p → p ∈ d.parts) (hr : Option.Rel (Gives scope source) d? n?) :
      Option.Rel (Gives other origin) d? n? := by
    cases hr with
    | none => exact .none
    | some hg => exact .some (hparts _ (hd _ rfl) _ hg)
  refine ⟨h.type.of_agree ht hparts, h.casts, h.optional, h.default, predicates_of_agree hv h.checks,
    predicates_of_agree hv h.valueChecks, predicates_of_agree hv h.contentChecks,
    option (fun _ => keys_mem_parts) h.keys, option (fun _ => values_mem_parts) h.values, ?_⟩
  have hentries := h.entries
  generalize he : d.entries? = entries? at hentries ⊢
  generalize s.entries? = fields? at hentries ⊢
  cases hentries with
  | none => exact .none
  | some hr =>
    have hin := fun e => entry_mem_parts (e := e) he
    refine .some ?_
    exact ((List.forall₂_and_left ..).mpr ⟨hin, hr⟩).imp fun e f h =>
      ⟨h.2.1, hparts e.2 h.1 f.2 h.2.2⟩

/-- A scope in which the types named in a definition and all predicates are the same gives the same
schema. -/
theorem schema_of_agree {d : Definition}
    (ht : ∀ name, d.NamesType name → other.type name = scope.type name) {s : Schema}
    (h : d.schema scope source = .ok s) : d.schema other origin = .ok s := by
  -- The names in a part are names in the definition, so the scopes agree on every part.
  induction d using induction_on_parts generalizing s with
  | step d ih =>
    rw [schema_eq_ok] at h ⊢
    refine h.of_agree hv (fun name hn => ht name (.here hn)) fun p hp n hg => ?_
    obtain ⟨t, hs, rfl⟩ := hg
    exact ⟨t, ih p hp (fun name hn => ht name (.inside hp hn)) hs, rfl⟩

end Agreement

section Congruence

variable {other : Scope}

theorem schemaList_congr {ds : List Definition}
    (h : ∀ p ∈ ds, p.schema other source = p.schema scope source) :
    schemaList other source ds = schemaList scope source ds := by
  induction ds with
  | nil => rw [schemaList, schemaList]
  | cons d ds ih =>
    obtain ⟨hd, hds⟩ := List.forall_mem_cons.mp h
    rw [schemaList, schemaList, hd, ih hds]

theorem schemaFields_congr {entries : List (String × Definition)}
    (h : ∀ e ∈ entries, e.2.schema other source = e.2.schema scope source) :
    schemaFields other source entries = schemaFields scope source entries := by
  induction entries with
  | nil => rw [schemaFields, schemaFields]
  | cons e entries ih =>
    obtain ⟨he, hentries⟩ := List.forall_mem_cons.mp h
    rw [schemaFields, schemaFields, he, ih hentries]

theorem schemaOption?_congr {d? : Option Definition}
    (h : ∀ p, d? = some p → p.schema other source = p.schema scope source) :
    schemaOption? other source d? = schemaOption? scope source d? := by
  cases d? with
  | none => rw [schemaOption?, schemaOption?]
  | some d => rw [schemaOption?, schemaOption?, h d rfl]

theorem schemaEntries?_congr {entries? : Option (List (String × Definition))}
    (h : ∀ entries, entries? = some entries →
      ∀ e ∈ entries, e.2.schema other source = e.2.schema scope source) :
    schemaEntries? other source entries? = schemaEntries? scope source entries? := by
  cases entries? with
  | none => rw [schemaEntries?, schemaEntries?]
  | some entries => rw [schemaEntries?, schemaEntries?, schemaFields_congr (h entries rfl)]

theorem schemaType_congr {type? : Option String} {anyOf? : Option (List Definition)}
    (ht : ∀ name, type? = some name → other.type name = scope.type name)
    (h : ∀ ds, anyOf? = some ds → ∀ p ∈ ds, p.schema other source = p.schema scope source) :
    schemaType other source type? anyOf? = schemaType scope source type? anyOf? := by
  cases anyOf? with
  | none =>
    cases type? with
    | none => rfl
    | some name => simpa only [schemaType] using ht name rfl
  | some ds =>
    cases type? with
    | none => rw [schemaType, schemaType, schemaList_congr (h ds rfl)]
    | some name => rfl

/-- What a definition gives, be it a schema or an error, depends on the types that it names and on
the predicates. -/
theorem schema_congr {d : Definition} (hv : other.validator = scope.validator)
    (ht : ∀ name, d.NamesType name → other.type name = scope.type name) :
    d.schema other source = d.schema scope source := by
  induction d using induction_on_parts with
  | step d ih =>
    have hparts (p : Definition) (hp : p ∈ d.parts) :
        p.schema other source = p.schema scope source :=
      ih p hp fun name hn => ht name (.inside hp hn)
    have htype := schemaType_congr (fun name hn => ht name (.here hn))
      fun ds hds p hp => hparts p (alternative_mem_parts hds hp)
    have hkeys := schemaOption?_congr fun p hp => hparts p (keys_mem_parts hp)
    have hvalues := schemaOption?_congr fun p hp => hparts p (values_mem_parts hp)
    have hentries := schemaEntries?_congr fun entries he e hm => hparts e.2 (entry_mem_parts he hm)
    have hchecks (names : List String) : predicates other names = predicates scope names := by
      rw [predicates, predicates, hv]
    obtain ⟨type?, anyOf?, casts, optional, default?, validators, valueValidators,
      contentValidators, keys?, values?, entries?⟩ := d
    rw [schema, schema, htype, hkeys, hvalues, hentries]
    simp only [hchecks]

end Congruence

end SchemaCast.Document.Definition
