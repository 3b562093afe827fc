import SchemaCast.Proofs.OrderedMap
import SchemaCast.Proofs.Traversal
import SchemaCast.Schema.Compile

namespace SchemaCast

namespace SchemaType

theorem supports_container {type : SchemaType} {option : MemberOption}
    (h : type.supports option = true) :
    type = .builtin .record ∨ type = .builtin .map ∨
      option = .values ∧ (type = .builtin .list ∨ type = .builtin .set) := by
  unfold supports at h
  split at h <;> simp_all

/-- Containers are tested and never coerced. -/
theorem casts_of_container {type : SchemaType} {b : Builtin} {rules : Rules}
    (htype : type = .builtin b) (hb : b.coerce? = none)
    (hcastable : rules.casts = true → type.descriptor.isCastable = true) : rules.casts = false := by
  subst htype
  rw [← Bool.not_eq_true]
  intro hcasts
  have hcan : b.coerce?.isSome = true := hcastable hcasts
  simp [hb] at hcan

end SchemaType

namespace Schema

/-- The schemas right inside a schema. -/
def nested (s : Schema) : List NestedSchema :=
  s.keys?.toList ++ s.values?.toList ++ (s.entries?.getD []).map Prod.snd

theorem keys_mem_nested {s : Schema} {n : NestedSchema} (h : s.keys? = some n) :
    n ∈ s.nested := by
  simp [nested, h]

theorem values_mem_nested {s : Schema} {n : NestedSchema} (h : s.values? = some n) :
    n ∈ s.nested := by
  simp [nested, h]

theorem entry_mem_nested {s : Schema} {fields : List (String × NestedSchema)}
    (h : s.entries? = some fields) {f : String × NestedSchema} (hf : f ∈ fields) :
    f.2 ∈ s.nested := by
  simp only [nested, h, Option.getD_some, List.mem_append]
  exact .inr (List.mem_map_of_mem hf)

/-- Every schema of the tree is declared, and satisfies the condition. -/
inductive Everywhere (condition : Schema → Prop) : Schema → Prop where
  | intro {s : Schema} (inner : List Schema) (declared : s.nested = inner.map .declared)
      (here : condition s) (below : ∀ t ∈ inner, Everywhere condition t) : Everywhere condition s

theorem Everywhere.leaf {condition : Schema → Prop} {s : Schema} (hn : s.nested = [])
    (hs : condition s) : s.Everywhere condition :=
  .intro [] hn hs (by simp)

theorem Everywhere.of_nested {condition : Schema → Prop} {s : Schema} (here : condition s)
    (h : ∀ n ∈ s.nested, ∃ t, n = .declared t ∧ t.Everywhere condition) :
    s.Everywhere condition := by
  have collect (ns : List NestedSchema)
      (hns : ∀ n ∈ ns, ∃ t, n = .declared t ∧ t.Everywhere condition) :
      ∃ inner : List Schema, ns = inner.map .declared ∧ ∀ t ∈ inner, t.Everywhere condition := by
    induction ns with
    | nil => exact ⟨[], rfl, by simp⟩
    | cons n rest ih =>
      obtain ⟨⟨t, rfl, ht⟩, hrest⟩ := List.forall_mem_cons.mp hns
      obtain ⟨inner, rfl, hinner⟩ := ih hrest
      exact ⟨t :: inner, rfl, List.forall_mem_cons.mpr ⟨ht, hinner⟩⟩
  obtain ⟨inner, hd, hinner⟩ := collect s.nested h
  exact .intro inner hd here hinner

theorem Everywhere.condition {condition : Schema → Prop} {s : Schema}
    (h : s.Everywhere condition) : condition s := by
  cases h with
  | intro _ _ here _ => exact here

theorem Everywhere.mono {p q : Schema → Prop} (hpq : ∀ s, p s → q s) {s : Schema}
    (h : s.Everywhere p) : s.Everywhere q := by
  induction h with
  | intro inner declared here _ ih => exact .intro inner declared (hpq _ here) ih

theorem mem_of_nested {s : Schema} {inner : List Schema} (h : s.nested = inner.map .declared)
    {n : NestedSchema} (hn : n ∈ s.nested) : ∃ t ∈ inner, n = .declared t := by
  rw [h] at hn
  obtain ⟨t, ht, rfl⟩ := List.mem_map.mp hn
  exact ⟨t, ht, rfl⟩

/-- The keys of a schema as they are compiled. -/
inductive KeysCompiled (s : Schema) : Option Descriptor → Prop where
  | none (absent : s.keys? = none) : KeysCompiled s none
  | some {n : NestedSchema} {keys : Descriptor} (given : s.keys? = some n)
      (supported : s.type.supports .keys = true) (compiled : compileNested n = .ok keys) :
    KeysCompiled s (some keys)

/-- The values or entries of a schema as they are compiled. -/
inductive ContentsCompiled (s : Schema) : Contents Descriptor → Prop where
  | any (noValues : s.values? = none) (noEntries : s.entries? = none) : ContentsCompiled s .any
  | each {n : NestedSchema} {child : Descriptor} (given : s.values? = some n)
      (noEntries : s.entries? = none) (supported : s.type.supports .values = true)
      (compiled : compileNested n = .ok child) :
    ContentsCompiled s (.each child)
  | declared {fields : List (String × NestedSchema)} {children : List (String × Descriptor)}
      (noValues : s.values? = none) (given : s.entries? = some fields)
      (supported : s.type.supports .entries = true)
      (compiled : compileFields fields = .ok children) :
    ContentsCompiled s (.declared (.ofList children))

theorem require_ok {type : SchemaType} {option : MemberOption} {u : Unit}
    (h : type.require option = .ok u) : type.supports option = true := by
  unfold SchemaType.require at h
  split at h
  · assumption
  · simp at h

theorem requireCast_ok {rules : Rules} {type : SchemaType} {u : Unit}
    (h : rules.requireCast type = .ok u) (hc : rules.casts = true) :
    type.descriptor.isCastable = true := by
  unfold Rules.requireCast at h
  cases hi : type.descriptor.isCastable with
  | true => rfl
  | false => simp [hc, hi] at h

theorem compileOption?_ok {type : SchemaType} {option : MemberOption} {n? : Option NestedSchema}
    {d? : Option Descriptor} (h : compileOption? type option n? = .ok d?) :
    (n? = none ∧ d? = none) ∨
    ∃ n d, n? = some n ∧ d? = some d ∧ type.supports option = true ∧ compileNested n = .ok d := by
  cases n? with
  | none =>
    rw [compileOption?] at h
    exact .inl ⟨rfl, (Except.ok.inj h).symm⟩
  | some n =>
    rw [compileOption?, except_bind_eq_ok] at h
    obtain ⟨_, hr, h⟩ := h
    obtain ⟨d, hd, h⟩ := (except_bind_eq_ok ..).mp h
    rw [except_pure_eq_ok] at h
    exact .inr ⟨n, d, rfl, h.symm, require_ok hr, hd⟩

theorem compileEntries?_ok {type : SchemaType} {fields? : Option (List (String × NestedSchema))}
    {children? : Option (OrderedMap String Descriptor)}
    (h : compileEntries? type fields? = .ok children?) :
    (fields? = none ∧ children? = none) ∨
    ∃ fields children, fields? = some fields ∧ children? = some (.ofList children) ∧
      type.supports .entries = true ∧ compileFields fields = .ok children := by
  cases fields? with
  | none =>
    rw [compileEntries?] at h
    exact .inl ⟨rfl, (Except.ok.inj h).symm⟩
  | some fields =>
    rw [compileEntries?, except_bind_eq_ok] at h
    obtain ⟨_, hr, h⟩ := h
    obtain ⟨children, hc, h⟩ := (except_bind_eq_ok ..).mp h
    rw [except_pure_eq_ok] at h
    exact .inr ⟨fields, children, rfl, h.symm, require_ok hr, hc⟩

/-- A schema that has compiled is a validator with its type and rules, whose type supports every
option that is used. -/
theorem compile_ok {s : Schema} {d : Descriptor} (h : s.compile = .ok d) :
    ∃ keys? contents, d = .validator s.type.descriptor s.rules keys? contents ∧
      (s.rules.casts = true → s.type.descriptor.isCastable = true) ∧
      KeysCompiled s keys? ∧ ContentsCompiled s contents := by
  obtain ⟨type, rules, nkeys?, nvalues?, nentries?⟩ := s
  rw [compile, except_bind_eq_ok] at h
  obtain ⟨_, hcast, h⟩ := h
  obtain ⟨_, hone, h⟩ := (except_bind_eq_ok ..).mp h
  obtain ⟨keys?, hkeys, h⟩ := (except_bind_eq_ok ..).mp h
  obtain ⟨values?, hvalues, h⟩ := (except_bind_eq_ok ..).mp h
  obtain ⟨children?, hentries, rfl⟩ := (except_bind_pure_eq_ok ..).mp h
  refine ⟨keys?, contents values? children?, rfl, requireCast_ok hcast, ?_, ?_⟩
  · rcases compileOption?_ok hkeys with ⟨rfl, rfl⟩ | ⟨n, d, rfl, rfl, hs, hd⟩
    · exact .none rfl
    · exact .some rfl hs hd
  · rcases compileOption?_ok hvalues with ⟨rfl, rfl⟩ | ⟨n, d, rfl, rfl, hs, hd⟩
    · rcases compileEntries?_ok hentries with ⟨rfl, rfl⟩ | ⟨fields, children, rfl, rfl, hs, hc⟩
      · exact .any rfl rfl
      · exact .declared rfl rfl hs hc
    · rcases compileEntries?_ok hentries with ⟨rfl, rfl⟩ | ⟨fields, children, rfl, rfl, _, _⟩
      · exact .each rfl rfl hs hd
      · simp [requireOneContents] at hone

theorem require_eq_ok {type : SchemaType} {option : MemberOption}
    (h : type.supports option = true) : type.require option = .ok () := by
  rw [SchemaType.require, if_pos h]

theorem requireCast_eq_ok {rules : Rules} {type : SchemaType}
    (h : rules.casts = true → type.descriptor.isCastable = true) :
    rules.requireCast type = .ok () := by
  unfold Rules.requireCast
  cases hc : rules.casts with
  | true => simp [h hc]
  | false => simp

/-- A schema compiles if its parts do. -/
theorem compile_of {s : Schema} {keys? : Option Descriptor} {contents : Contents Descriptor}
    (hcast : s.rules.casts = true → s.type.descriptor.isCastable = true)
    (hkeys : KeysCompiled s keys?) (hcontents : ContentsCompiled s contents) :
    s.compile = .ok (.validator s.type.descriptor s.rules keys? contents) := by
  obtain ⟨type, rules, nkeys?, nvalues?, nentries?⟩ := s
  have hk : compileOption? type .keys nkeys? = .ok keys? := by
    cases hkeys with
    | none absent =>
      obtain rfl : nkeys? = none := absent
      rw [compileOption?]
    | some given supported compiled =>
      obtain rfl : nkeys? = some _ := given
      rw [compileOption?, require_eq_ok supported, compiled]
      rfl
  rw [compile, requireCast_eq_ok hcast]
  cases hcontents with
  | any noValues noEntries =>
    obtain rfl : nvalues? = none := noValues
    obtain rfl : nentries? = none := noEntries
    rw [hk, compileOption?, compileEntries?]
    rfl
  | each given noEntries supported compiled =>
    obtain rfl : nvalues? = some _ := given
    obtain rfl : nentries? = none := noEntries
    rw [hk, compileOption?, require_eq_ok supported, compiled, compileEntries?]
    rfl
  | declared noValues given supported compiled =>
    obtain rfl : nvalues? = none := noValues
    obtain rfl : nentries? = some _ := given
    rw [hk, compileOption?, compileEntries?, require_eq_ok supported, compiled]
    rfl

/-- Either a schema says nothing of keys and members, or its type is a container. -/
theorem bare_or_container {s : Schema} {keys? : Option Descriptor}
    {contents : Contents Descriptor} (hk : KeysCompiled s keys?)
    (hc : ContentsCompiled s contents) :
    (keys? = none ∧ contents = .any) ∨
    ∃ b, s.type = .builtin b ∧ b.coerce? = none ∧
      ¬(s.keys? = none ∧ s.values? = none ∧ s.entries? = none) := by
  have container {option : MemberOption} (h : s.type.supports option = true) :
      ∃ b, s.type = .builtin b ∧ b.coerce? = none := by
    rcases SchemaType.supports_container h with h | h | ⟨_, h | h⟩
    · exact ⟨_, h, rfl⟩
    · exact ⟨_, h, rfl⟩
    · exact ⟨_, h, rfl⟩
    · exact ⟨_, h, rfl⟩
  cases hk with
  | some given supported =>
    obtain ⟨b, hb, hn⟩ := container supported
    exact .inr ⟨b, hb, hn, by simp [given]⟩
  | none _ =>
    cases hc with
    | any _ _ => exact .inl ⟨rfl, rfl⟩
    | each given _ supported =>
      obtain ⟨b, hb, hn⟩ := container supported
      exact .inr ⟨b, hb, hn, by simp [given]⟩
    | declared _ given supported =>
      obtain ⟨b, hb, hn⟩ := container supported
      exact .inr ⟨b, hb, hn, by simp [given]⟩

theorem compileFields_eq_ok (fields : List (String × NestedSchema))
    (children : List (String × Descriptor)) :
    compileFields fields = .ok children ↔
      List.Forall₂ (fun f c => c.1 = f.1 ∧ compileNested f.2 = .ok c.2) fields children := by
  have h : compileFields fields =
      fields.mapM fun (key, n) => do return (key, ← compileNested n) := by
    induction fields with
    | nil => rw [compileFields]; rfl
    | cons f fields ih =>
      rw [compileFields]
      simp [ih]
  rw [h, mapM_eq_ok]
  simp only [except_bind_eq_ok, except_pure_eq_ok, Prod.ext_iff]
  grind

theorem mem_of_compileFields {fields : List (String × NestedSchema)}
    {children : List (String × Descriptor)} (h : compileFields fields = .ok children)
    {e : String × Descriptor} (he : e ∈ (OrderedMap.ofList children).entries) :
    ∃ f ∈ fields, compileNested f.2 = .ok e.2 := by
  have hmem : e ∈ children := OrderedMap.mem_of_mem_ofList he
  obtain ⟨f, hf, _, hn⟩ := exists_left_of_forall₂ ((compileFields_eq_ok ..).mp h) hmem
  exact ⟨f, hf, hn⟩

theorem compileAll_eq_ok (schemas : List NestedSchema) (ds : List Descriptor) :
    compileAll schemas = .ok ds ↔ List.Forall₂ (fun n d => compileNested n = .ok d) schemas ds := by
  have h : compileAll schemas = schemas.mapM compileNested := by
    induction schemas with
    | nil => rfl
    | cons n rest ih => simp [compileAll, ih]
  rw [h, mapM_eq_ok]

theorem mem_of_compileAll {schemas : List NestedSchema} {ds : List Descriptor}
    (h : compileAll schemas = .ok ds) {d : Descriptor} (hd : d ∈ ds) :
    ∃ n ∈ schemas, compileNested n = .ok d :=
  exists_left_of_forall₂ ((compileAll_eq_ok ..).mp h) hd

/-- The schema that is declared last for a key. -/
def lastDeclared? (fields : List (String × NestedSchema)) (key : String) : Option NestedSchema :=
  (fields.reverse.find? (·.1 == key)).map Prod.snd

theorem lastDeclared?_mem {fields : List (String × NestedSchema)} {key : String}
    {n : NestedSchema} (h : lastDeclared? fields key = some n) : (key, n) ∈ fields := by
  obtain ⟨⟨name, m⟩, hf, rfl⟩ := Option.map_eq_some_iff.mp h
  obtain rfl : name = key := by simpa using List.find?_some hf
  exact List.mem_reverse.mp (List.mem_of_find?_eq_some hf)

theorem find?_of_forall₂ {fields : List (String × NestedSchema)}
    {children : List (String × Descriptor)} {key : String} {c : String × Descriptor}
    (h : List.Forall₂ (fun f c => c.1 = f.1 ∧ compileNested f.2 = .ok c.2) fields children)
    (hc : children.find? (·.1 == key) = some c) :
    ∃ f, fields.find? (·.1 == key) = some f ∧ compileNested f.2 = .ok c.2 := by
  induction h with
  | nil => simp at hc
  | @cons f d fields children hfd _ ih =>
    rw [List.find?_cons] at hc ⊢
    rw [hfd.1] at hc
    cases hk : f.1 == key with
    | true =>
      simp only [hk, Option.some.injEq] at hc
      exact ⟨f, rfl, hc ▸ hfd.2⟩
    | false =>
      simp only [hk] at hc
      exact ih hc

/-- Of the schemas declared for a key, the last one is used. -/
theorem get?_compileFields {fields : List (String × NestedSchema)}
    {children : List (String × Descriptor)} (h : compileFields fields = .ok children)
    {key : String} {c : Descriptor} (hc : (OrderedMap.ofList children).get? key = some c) :
    ∃ n, lastDeclared? fields key = some n ∧ compileNested n = .ok c := by
  rw [OrderedMap.get?_ofList] at hc
  obtain ⟨d, hd, rfl⟩ := Option.map_eq_some_iff.mp hc
  have hr := List.forall₂_reverse_iff.mpr ((compileFields_eq_ok ..).mp h)
  obtain ⟨f, hf, hn⟩ := find?_of_forall₂ hr hd
  exact ⟨f.2, by rw [lastDeclared?, hf]; rfl, hn⟩

theorem keys_compileFields {fields : List (String × NestedSchema)}
    {children : List (String × Descriptor)} (h : compileFields fields = .ok children)
    (key : String) :
    key ∈ (OrderedMap.ofList children).entries.map Prod.fst ↔ key ∈ fields.map Prod.fst := by
  rw [OrderedMap.mem_keys_ofList, keys_eq_of_forall₂ ((compileFields_eq_ok ..).mp h)]

end Schema

end SchemaCast
