import SchemaCast.Proofs.Builtin
import SchemaCast.Proofs.Compile
import SchemaCast.Proofs.Descriptor

namespace SchemaCast

namespace Schema

theorem sizeOf_declared_lt {s t : Schema} (h : .declared t ∈ s.nested) : sizeOf t < sizeOf s := by
  obtain ⟨type, rules, keys?, values?, entries?⟩ := s
  simp only [nested, List.mem_append, Option.mem_toList, List.mem_map] at h
  rcases h with (rfl | rfl) | ⟨⟨name, n⟩, hf, rfl⟩
  · simp; omega
  · simp; omega
  · cases entries? with
    | none => simp at hf
    | some fields =>
      have hf : (name, .declared t) ∈ fields := hf
      have hlt := List.sizeOf_lt_of_mem hf
      simp at hlt ⊢
      omega

/-- A value conforms to a schema if it is null and may be, or if the type and the predicates on
content accept it and its members conform in turn. Of declared entries, each key is there once. -/
def Conforms (s : Schema) (w : Value) : Prop :=
  (w = .null ∧ s.rules.optional = true) ∨
  (w ≠ .null ∧ s.type.descriptor.test w = .ok true ∧
    (∀ holds ∈ s.rules.contentChecks, holds w = true) ∧
    (∀ t, (hv : s.values? = some (.declared t)) → ∀ m ∈ w.members, t.Conforms m) ∧
    (∀ fields, (he : s.entries? = some fields) →
      (w.keyed.map Prod.fst).Nodup ∧
      (∀ key, key ∈ w.keyed.map Prod.fst ↔ ∃ name ∈ fields.map Prod.fst, key = .text name) ∧
      ∀ name m, (.text name, m) ∈ w.keyed →
        ∀ t, (hl : lastDeclared? fields name = some (.declared t)) → t.Conforms m))
termination_by s
decreasing_by
  · exact sizeOf_declared_lt (values_mem_nested hv)
  · exact sizeOf_declared_lt (entry_mem_nested he (lastDeclared?_mem hl))

/-- The type is builtin, and a test tells the values of the type. -/
def HasTestedType (s : Schema) : Prop := ∃ b, b ≠ .json ∧ s.type = .builtin b

/-- Where values are declared, each member of the result is a cast by their descriptor. -/
theorem ContentsCompiled.values_cast {s : Schema} {contents : Contents Descriptor}
    (hs : ContentsCompiled s contents) {n : NestedSchema} (hn : s.values? = some n) {v w : Value}
    (h : Descriptor.castContents contents v = .ok w) :
    ∃ child, compileNested n = .ok child ∧
      ∀ m ∈ w.members, ∃ u ∈ v.members, child.cast (some u) = .ok m := by
  cases hs with
  | any absent => simp [absent] at hn
  | declared absent => simp [absent] at hn
  | @each n' child given _ _ compiled =>
    obtain rfl : n' = n := Option.some.inj (given.symm.trans hn)
    rw [Descriptor.castContents_each] at h
    exact ⟨child, compiled, (Caster.castMembers_ok h).2⟩

/-- Where entries are declared, the result has exactly their keys, and the member of a key is a
cast by the descriptor of the schema that is declared last for it. -/
theorem ContentsCompiled.entries_cast {s : Schema} {contents : Contents Descriptor}
    (hs : ContentsCompiled s contents) {fields : List (String × NestedSchema)}
    (hf : s.entries? = some fields) {v w : Value}
    (h : Descriptor.castContents contents v = .ok w) :
    ∃ out : OrderedMap String Value, w.keyed = Caster.textKeyed out.entries ∧
      OrderedMap.Unique out.entries ∧ (∀ key, key ∈ out.keys ↔ key ∈ fields.map Prod.fst) ∧
      ∀ f ∈ out.entries, ∃ n c input, lastDeclared? fields f.1 = some n ∧
        compileNested n = .ok c ∧ c.cast input = .ok f.2 := by
  cases hs with
  | any _ absent => simp [absent] at hf
  | each _ absent => simp [absent] at hf
  | @declared fields' children _ given _ compiled =>
    obtain rfl : fields' = fields := Option.some.inj (given.symm.trans hf)
    obtain ⟨out, hw, hu, hkeys, hcast⟩ :=
      Descriptor.castContents_declared_ok (OrderedMap.unique_ofList children) h
    refine ⟨out, hw, hu, fun key => ?_, fun f hm => ?_⟩
    · rw [hkeys]
      exact keys_compileFields compiled key
    · obtain ⟨c, input, hg, hc⟩ := hcast f hm
      obtain ⟨n, hl, hn⟩ := get?_compileFields compiled hg
      exact ⟨n, c, input, hl, hn, hc⟩

section Stages

variable {s : Schema} {keys? : Option Descriptor} {contents : Contents Descriptor} {w : Value}

/-- What passes all stages is of the type: the kind of a value stays the same once its type has
accepted it. -/
theorem test_of_passes {b : Builtin} (hb : b ≠ .json) (htype : s.type = .builtin b)
    {v typed keyed : Value} (hp : s.rules.Passes s.type.descriptor.cast s.type.descriptor.test
      (Descriptor.castKeys keys?) (Descriptor.castContents contents) v typed keyed w) :
    b.type.test w = .ok true := by
  have htyped : b.type.test typed = .ok true := by
    have hthrough := hp.typed_ok
    rw [htype] at hthrough
    rcases Rules.throughType_ok hthrough with ⟨_, hcast⟩ | ⟨_, ht, rfl⟩
    · rw [SchemaType.descriptor, Descriptor.cast_base] at hcast
      exact Builtin.test_of_cast hb hcast
    · exact ht
  have same {x y : Value} (hxy : y = x ∨ x.SameKind y) (hx : b.type.test x = .ok true) :
      b.type.test y = .ok true := by
    rcases hxy with rfl | hxy
    · exact hx
    · exact (Builtin.test_sameKind hxy).symm.trans hx
  exact same (Descriptor.castContents_ok hp.members_ok)
    (same (Descriptor.castKeys_ok hp.keyed_ok) htyped)

variable {v : Value} (hs : s.ContentsCompiled contents)
  (ih : ∀ t, .declared t ∈ s.nested → ∀ d, t.compile = .ok d →
    ∀ input w, d.cast input = .ok w → t.Conforms w)
  (h : Descriptor.castContents contents v = .ok w)

include hs ih h

theorem values_conform {t : Schema} (hv : s.values? = some (.declared t)) {m : Value}
    (hm : m ∈ w.members) : t.Conforms m := by
  obtain ⟨child, hchild, hmembers⟩ := hs.values_cast hv h
  obtain ⟨u, _, hu⟩ := hmembers m hm
  exact ih t (values_mem_nested hv) child hchild (some u) m hu

theorem entries_conform {fields : List (String × NestedSchema)} (he : s.entries? = some fields) :
    (w.keyed.map Prod.fst).Nodup ∧
    (∀ key, key ∈ w.keyed.map Prod.fst ↔ ∃ name ∈ fields.map Prod.fst, key = .text name) ∧
    ∀ name m, (.text name, m) ∈ w.keyed →
      ∀ t, lastDeclared? fields name = some (.declared t) → t.Conforms m := by
  obtain ⟨out, hw, hu, hkeys, hcast⟩ := hs.entries_cast he h
  have hwkeys : w.keyed.map Prod.fst = out.keys.map Value.text := by
    rw [hw]
    simp [Caster.textKeyed, OrderedMap.keys]
  rw [hwkeys]
  refine ⟨?_, fun key => ?_, fun name m hm t hl => ?_⟩
  · exact List.pairwise_map.mpr (hu.nodup_keys.imp fun hne he => hne (Value.text.inj he))
  · simp only [List.mem_map, hkeys]
    grind
  · rw [hw, Value.mem_textKeyed] at hm
    obtain ⟨n, c, input, hl', hn, hc⟩ := hcast (name, m) hm
    obtain rfl : n = .declared t := Option.some.inj (hl'.symm.trans hl)
    exact ih t (entry_mem_nested he (lastDeclared?_mem hl)) c hn input m hc

end Stages

/-- What comes out of a cast conforms to the schema. -/
theorem conforms_of_cast {s : Schema} (hs : s.Everywhere HasTestedType) {d : Descriptor}
    (hc : s.compile = .ok d) {input : Option Value} {w : Value} (h : d.cast input = .ok w) :
    s.Conforms w := by
  induction hs generalizing d input w with
  | @intro s inner declared here _ ih =>
    obtain ⟨b, hb, htype⟩ := here
    have ih_nested (t : Schema) (ht : .declared t ∈ s.nested) (d : Descriptor)
        (hd : t.compile = .ok d) (input : Option Value) (w : Value) (hw : d.cast input = .ok w) :
        t.Conforms w := by
      obtain ⟨u, hu, he⟩ := mem_of_nested declared ht
      obtain rfl : t = u := Nested.declared.inj he
      exact ih t hu hd hw
    obtain ⟨keys?, contents, rfl, _, _, hcontents⟩ := compile_ok hc
    rw [Descriptor.cast_validator, Rules.apply_eq_ok] at h
    rw [Conforms]
    rcases h with ⟨_, ho, rfl⟩ | ⟨v, typed, keyed, _, hp⟩
    · exact .inl ⟨rfl, ho⟩
    · have htest := test_of_passes hb htype hp
      refine .inr ⟨Builtin.ne_null_of_test hb htest, ?_, hp.contentChecked, ?_, ?_⟩
      · rw [htype]
        exact htest
      · intro t hv m hm
        exact values_conform hcontents ih_nested hp.members_ok hv hm
      · intro fields he
        exact entries_conform hcontents ih_nested hp.members_ok he

/-- Orders have a set of flags, which may be left out, and a note. The first schema for `paid` does
not count. -/
def orders : Schema where
  type := .builtin .record
  rules := { contentChecks := [fun w => w.field? "flags" |>.isSome] }
  entries? := some [
    ("paid", .declared { type := .builtin .text }),
    ("flags", .declared {
      type := .builtin .set
      rules := { default? := some (.set [.text "1", .text "true"]) }
      values? := some (.declared { type := .builtin .boolean, rules := { casts := true } }) }),
    ("paid", .declared { type := .builtin .boolean, rules := { casts := true } }),
    ("note", .declared { type := .builtin .text, rules := { optional := true } })]

theorem orders_conform : ∃ d, orders.compile = .ok d ∧ orders.Everywhere HasTestedType ∧
    d.cast (some (.record ⟨[("paid", .text "0")]⟩)) =
      .ok (.record ⟨[("paid", .bool false), ("flags", .set [.bool true]), ("note", .null)]⟩) ∧
    orders.Conforms (.record ⟨[("paid", .bool false), ("flags", .set [.bool true]),
      ("note", .null)]⟩) := by
  have htypes : orders.Everywhere HasTestedType := by
    refine .intro [_, _, _, _] rfl ⟨.record, by decide, rfl⟩ ?_
    simp only [List.forall_mem_cons, List.not_mem_nil, false_implies, implies_true, and_true]
    refine ⟨.leaf rfl ⟨.text, by decide, rfl⟩, ?_, .leaf rfl ⟨.boolean, by decide, rfl⟩,
      .leaf rfl ⟨.text, by decide, rfl⟩⟩
    refine .intro [_] rfl ⟨.set, by decide, rfl⟩ ?_
    simp only [List.forall_mem_cons, List.not_mem_nil, false_implies, implies_true, and_true]
    exact .leaf rfl ⟨.boolean, by decide, rfl⟩
  refine ⟨_, rfl, htypes, rfl, ?_⟩
  exact @conforms_of_cast _ htypes _ rfl (some (.record ⟨[("paid", .text "0")]⟩)) _ rfl

end Schema

end SchemaCast
