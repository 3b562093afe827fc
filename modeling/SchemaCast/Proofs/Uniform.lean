import SchemaCast.Proofs.Compile
import SchemaCast.Proofs.Descriptor

namespace SchemaCast

namespace Caster

variable {child : Caster} {declared : List (String × Caster)}

/-- Exactly the keys of the fields are declared, all of them with the same caster. -/
structure Uniform (child : Caster) (declared : List (String × Caster))
    (fields : List (String × Value)) : Prop where
  child : ∀ name ∈ fields.map Prod.fst, declared? declared name = some child
  present : ∀ key ∈ declared.map Prod.fst, key ∈ fields.map Prod.fst

/-- No declared key is absent, so the members alone are cast. -/
theorem Uniform.castDeclared_eq {fields : List (String × Value)}
    (h : Uniform child declared fields) :
    castDeclared declared (textKeyed fields) = castEntryValues child id fields := by
  rw [castDeclared_eq_castPresent fun key hk => Value.key_mem_textKeyed.mpr (h.present key hk),
    castPresent_eq_mapM, castEntryValues_eq_mapM, textKeyed, List.mapM_map]
  refine mapM_congr fun f hf => ?_
  simp only [Function.comp_apply, castPresentMember, h.child f.1 (List.mem_map_of_mem hf), id]

/-- Text keys stand in paths as their texts. -/
theorem castEntryValues_textKeyed (fields : List (String × Value)) :
    castEntryValues child Value.display (textKeyed fields) =
      (do return textKeyed (← castEntryValues child id fields)) := by
  induction fields with
  | nil => rfl
  | cons f fields ih =>
    rw [textKeyed, List.map_cons, ← textKeyed, castEntryValues, castEntryValues, ih]
    simp [textKeyed, Value.display]

theorem exists_textKeyed {entries : List (Value × Value)}
    (h : ∀ key ∈ entries.map Prod.fst, ∃ name, key = .text name) :
    ∃ fields, entries = textKeyed fields := by
  induction entries with
  | nil => exact ⟨[], rfl⟩
  | cons e entries ih =>
    obtain ⟨key, u⟩ := e
    obtain ⟨⟨name, rfl⟩, hrest⟩ := List.forall_mem_cons.mp h
    obtain ⟨fields, rfl⟩ := ih hrest
    exact ⟨(name, u) :: fields, rfl⟩

/-- Members are cast by a caster for all of them as by entries that have it under every key. -/
theorem castMembers_eq_entries {v : Value} (hv : v.HasKeys) {fields : List (String × Value)}
    (hf : v.keyed = textKeyed fields) (h : Uniform child declared fields) :
    castMembers child v = entries declared (some v) := by
  cases hv with
  | record m =>
    obtain rfl : m.entries = fields := Value.textKeyed_injective hf
    rw [castMembers, entries, h.castDeclared_eq]
  | map m =>
    have hm : m.entries = textKeyed fields := hf
    rw [castMembers, entries, hm, h.castDeclared_eq, castEntryValues_textKeyed]
    cases castEntryValues child id fields <;> rfl

end Caster

namespace Rules

variable {rules : Rules} {cast : Caster} {test : Value → Except Misuse Bool}
  {keys members others : Value → CastResult Value} {v : Value}

/-- A value that is only tested goes unchanged into the treatment of its keys, and those of its
members may be exchanged for one that does the same with it. -/
theorem apply_congr_members (hcasts : rules.casts = false) (hkeys : keys v = .ok v)
    (h : members v = others v) :
    rules.apply cast test keys members (some v) = rules.apply cast test keys others (some v) := by
  unfold apply
  cases hg : rules.given? (some v) with
  | none => rfl
  | some u =>
    obtain rfl := eq_of_given? hg
    cases ht : rules.throughType cast test u with
    | error e => simp only [ht]; rfl
    | ok typed =>
      obtain rfl : typed = u := by
        rcases throughType_ok ht with ⟨hc, _⟩ | ⟨_, _, hu⟩
        · simp [hcasts] at hc
        · exact hu
      simp only [ht, hkeys, h, bind, Except.bind]

end Rules

namespace Schema

/-- The entries that have one schema under every name. -/
def uniformEntries (names : List String) (n : NestedSchema) : List (String × NestedSchema) :=
  names.map fun name => (name, n)

theorem compileFields_uniformEntries {n : NestedSchema} {child : Descriptor}
    (h : compileNested n = .ok child) (names : List String) :
    compileFields (uniformEntries names n) = .ok (names.map fun name => (name, child)) := by
  rw [compileFields_eq_ok, uniformEntries, List.forall₂_map_left_iff, List.forall₂_map_right_iff,
    List.forall₂_same]
  exact fun name _ => ⟨rfl, h⟩

/-- Entries with one descriptor are uniform for the fields with the same names. -/
theorem uniform_castFields {names : List String} {fields : List (String × Value)}
    (h : ∀ name, name ∈ fields.map Prod.fst ↔ name ∈ names) (child : Descriptor) :
    Caster.Uniform child.cast
      (Descriptor.castFields (OrderedMap.ofList (names.map fun name => (name, child))).entries)
      fields := by
  have hkeys (key : String) :
      key ∈ (OrderedMap.ofList (names.map fun name => (name, child))).entries.map Prod.fst ↔
        key ∈ names := by
    rw [OrderedMap.mem_keys_ofList, List.map_map]
    simp [Function.comp_def]
  constructor
  · intro name hname
    obtain ⟨e, he, rfl⟩ := List.mem_map.mp ((hkeys name).mpr ((h name).mp hname))
    obtain ⟨_, _, rfl⟩ := List.mem_map.mp (OrderedMap.mem_of_mem_ofList he)
    refine Caster.declared?_eq_some
      ((OrderedMap.unique_ofList _).of_keys (Descriptor.keys_castFields _)) ?_
    rw [Descriptor.castFields_eq_map]
    exact List.mem_map_of_mem he
  · intro key hkey
    rw [Descriptor.keys_castFields] at hkey
    exact (h key).mpr ((hkeys key).mp hkey)

/-- Where both compile, values with a schema and entries with that schema under each of the keys
cast the container to the same result. -/
theorem cast_values_eq_cast_entries {type : SchemaType}
    (htype : type = .builtin .record ∨ type = .builtin .map) {rules : Rules} {n : NestedSchema}
    {each : Descriptor} (h : compile { type, rules, values? := some n } = .ok each) {v : Value}
    (hv : v.HasKeys) {names : List String}
    (hnames : ∀ key, key ∈ v.keyed.map Prod.fst ↔ ∃ name ∈ names, key = .text name) :
    ∃ declared, compile { type, rules, entries? := some (uniformEntries names n) } = .ok declared ∧
      declared.cast (some v) = each.cast (some v) := by
  obtain ⟨keys?, contents, rfl, hcastable, hkeys, hcontents⟩ := compile_ok h
  have hsupports : type.supports .entries = true := by
    rcases htype with rfl | rfl
    · rfl
    · rfl
  have hcasts : rules.casts = false := by
    rcases htype with rfl | rfl
    · exact SchemaType.casts_of_container rfl rfl hcastable
    · exact SchemaType.casts_of_container rfl rfl hcastable
  obtain ⟨fields, hf⟩ := Caster.exists_textKeyed fun key hk => by
    obtain ⟨name, _, rfl⟩ := (hnames key).mp hk
    exact ⟨name, rfl⟩
  have hfields (name : String) : name ∈ fields.map Prod.fst ↔ name ∈ names := by
    rw [← Value.key_mem_textKeyed, ← hf, hnames]
    simp
  cases hkeys with
  | some given => cases given
  | none =>
    cases hcontents with
    | any noValues => cases noValues
    | declared noValues => cases noValues
    | @each _ child given _ _ compiled =>
      cases given
      have hc := compileFields_uniformEntries compiled names
      refine ⟨_, compile_of hcastable (.none rfl) (.declared rfl rfl hsupports hc), ?_⟩
      rw [Descriptor.cast_validator, Descriptor.cast_validator]
      refine Rules.apply_congr_members hcasts (Descriptor.castKeys_none v) ?_
      rw [Descriptor.castContents_each, Descriptor.castContents_declared]
      exact (Caster.castMembers_eq_entries hv hf (uniform_castFields hfields child)).symm

def answer : NestedSchema := .declared { type := .builtin .boolean, rules := { casts := true } }

def answers : Value := .ofEntries [(.text "spicy", .text "1"), (.text "vegan", .text "0")]

theorem answers_cast_alike :
    (∀ key, key ∈ answers.keyed.map Prod.fst ↔ ∃ name ∈ ["vegan", "spicy"], key = .text name) ∧
    ∃ each declared, compile { type := .builtin .map, values? := some answer } = .ok each ∧
      compile { type := .builtin .map, entries? := some (uniformEntries ["vegan", "spicy"] answer) }
        = .ok declared ∧
      declared.cast (some answers) = each.cast (some answers) ∧
      declared.cast (some answers) =
        .ok (.ofEntries [(.text "spicy", .bool true), (.text "vegan", .bool false)]) := by
  have hnames (key : Value) :
      key ∈ answers.keyed.map Prod.fst ↔ ∃ name ∈ ["vegan", "spicy"], key = .text name := by
    change key ∈ [.text "spicy", .text "vegan"] ↔ _
    simp [or_comm]
  obtain ⟨each, heach⟩ : ∃ each, compile { type := .builtin .map, values? := some answer } =
    .ok each := ⟨_, rfl⟩
  have hcast : each.cast (some answers) =
      .ok (.ofEntries [(.text "spicy", .bool true), (.text "vegan", .bool false)]) := by
    cases heach
    rfl
  obtain ⟨declared, hdeclared, halike⟩ :=
    cast_values_eq_cast_entries (.inr rfl) heach (.map _) hnames
  exact ⟨hnames, each, declared, heach, hdeclared, halike, halike.trans hcast⟩

end Schema

end SchemaCast
