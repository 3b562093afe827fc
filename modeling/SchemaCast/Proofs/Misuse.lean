import SchemaCast.Proofs.Builtin
import SchemaCast.Proofs.Compile
import SchemaCast.Proofs.Descriptor

namespace SchemaCast

theorem CastResult.accepted_ne_error {α : Type} {result : CastResult α} {m : Misuse}
    (h : result ≠ .error (.misused m)) : result.accepted ≠ .error m :=
  fun ha => h (accepted_eq_error.mp ha)

namespace Caster

/-- No input makes a misuse of the caster. -/
def Harmless (c : Caster) : Prop := ∀ input m, c input ≠ .error (.misused m)

theorem rename_harmless {keys : Caster} (hk : keys.Harmless) (v : Value) (m : Misuse) :
    rename keys v ≠ .error (.misused m) := by
  intro h
  rcases rename_error h with he | ⟨_, key, _, he⟩
  · simp at he
  · rcases castKey_error he with ⟨_, _, he⟩ | ⟨n, hc, _⟩
    · simp at he
    · exact hk _ _ hc

theorem castMembers_harmless {child : Caster} (hc : child.Harmless) (v : Value) (m : Misuse) :
    castMembers child v ≠ .error (.misused m) := by
  intro h
  rcases castMembers_error h with he | ⟨_, u, e, _, hu, he⟩
  · simp at he
  · have he := CastError.eq_misused_of_under he.symm
    subst he
    exact hc _ _ hu

theorem entries_harmless {declared : List (String × Caster)}
    (hd : ∀ entry ∈ declared, entry.2.Harmless) (v : Value) (m : Misuse) :
    entries declared (some v) ≠ .error (.misused m) := by
  intro h
  rcases entries_error h with he | ⟨_, he⟩
  · simp at he
  rcases castDeclared_error he with ⟨key, u, _, hp⟩ | ⟨name, child, hm, _, ha⟩
  · rcases castPresentMember_error hp with ⟨he, _⟩ | ⟨name, child, e, _, hchild, hu, he⟩
    · simp at he
    · have he := CastError.eq_misused_of_under he.symm
      subst he
      exact hd _ (declared?_mem hchild) _ _ hu
  · rcases castAbsentKey_error ha with ⟨_, _, he⟩ | ⟨e, hu, _, he⟩
    · simp at he
    · have he := CastError.eq_misused_of_under he.symm
      subst he
      exact hd _ hm _ _ hu

theorem anyOf_harmless {alternatives : List Caster} (h : ∀ c ∈ alternatives, c.Harmless) :
    (anyOf alternatives).Harmless := by
  induction alternatives with
  | nil =>
    intro input m he
    simp [anyOf, reject] at he
  | cons c others ih =>
    intro input m he
    rw [anyOf] at he
    split at he
    · exact ih (fun d hd => h d (List.mem_cons_of_mem _ hd)) input m he
    · exact h c List.mem_cons_self input m he

end Caster

theorem Rules.apply_harmless {rules : Rules} {cast : Caster} {test : Value → Except Misuse Bool}
    {keys members : Value → CastResult Value} (hcast : rules.casts = true → cast.Harmless)
    (htest : ∀ v m, test v ≠ .error m) (hkeys : ∀ v m, keys v ≠ .error (.misused m))
    (hmembers : ∀ v m, members v ≠ .error (.misused m)) :
    Caster.Harmless (rules.apply cast test keys members) := by
  intro input m h
  cases apply_error h with
  | type _ failed =>
    rcases throughType_error failed with ⟨hcasts, he⟩ | ⟨_, he⟩ | ⟨_, n, he, _⟩
    · exact hcast hcasts _ _ he
    · simp at he
    · exact htest _ _ he
  | keys _ _ failed => exact hkeys _ _ failed
  | members _ _ _ failed => exact hmembers _ _ failed

namespace Descriptor

/-- Every value can be tested, and if there is a cast at all then every value can be cast. -/
structure Usable (d : Descriptor) : Prop where
  test : ∀ v m, d.test v ≠ .error m
  cast : d.isCastable = true → d.cast.Harmless

/-- Types as they are registered: builtin ones, and those made from a test, from a coercion or from
both, where the coercion is not misused. -/
inductive Registrable : Descriptor → Prop where
  | builtin (b : Builtin) : Registrable (.base b.type)
  | ofTest (name : String) (holds : Predicate) : Registrable (.base { name, test? := some holds })
  | ofCast (name : String) {coerce : Value → CastResult Value}
      (harmless : ∀ v m, coerce v ≠ .error (.misused m)) :
    Registrable (.base { name, coerce? := some coerce })
  | ofBoth (name : String) (holds : Predicate) {coerce : Value → CastResult Value}
      (harmless : ∀ v m, coerce v ≠ .error (.misused m)) :
    Registrable (.base { name, test? := some holds, coerce? := some coerce })

/-- A base type answers tests by a test of its own or by a coercion. -/
theorem usable_base {type : BaseType} (ht : type.test?.isSome ∨ type.coerce?.isSome)
    (hc : ∀ coerce, type.coerce? = some coerce → ∀ v m, coerce v ≠ .error (.misused m)) :
    (base type).Usable := by
  have hcast : type.coerce?.isSome → type.cast.Harmless := by
    intro hsome input m h
    obtain ⟨coerce, he⟩ := Option.isSome_iff_exists.mp hsome
    cases input with
    | none => simp [BaseType.cast, he, reject] at h
    | some v =>
      simp only [BaseType.cast, he] at h
      exact hc coerce he v m h
  refine ⟨fun v m h => ?_, fun hcan => ?_⟩
  · -- Without a test of its own the type has a coercion, and the test cannot end in `notCastable`.
    change type.test v = .error m at h
    unfold BaseType.test at h
    cases htest : type.test? with
    | some holds => simp [htest] at h
    | none =>
      rw [htest] at h ht
      have hsome := ht.resolve_left (by simp)
      exact CastResult.accepted_ne_error (hcast hsome _ _) h
  · rw [cast_base]
    exact hcast hcan

/-- What is no base type is tested by its cast. -/
theorem usable_of_harmless {d : Descriptor} (hd : ∀ type, d ≠ .base type) (h : d.cast.Harmless) :
    d.Usable := by
  refine ⟨fun v m ht => ?_, fun _ => h⟩
  have he : d.test v = (d.cast (some v)).accepted := by
    cases d with
    | base type => exact absurd rfl (hd type)
    | _ => rfl
  exact CastResult.accepted_ne_error (h _ _) (he ▸ ht)

theorem Registrable.usable {d : Descriptor} (h : d.Registrable) : d.Usable := by
  cases h with
  | builtin b =>
    refine usable_base (by cases b <;> decide) ?_
    intro coerce hb v m he
    simpa using Builtin.coerce_error hb he
  | ofTest name holds => exact usable_base (.inl rfl) nofun
  | ofCast name harmless =>
    refine usable_base (.inr rfl) ?_
    rintro _ ⟨⟩
    exact harmless
  | ofBoth name holds harmless =>
    refine usable_base (.inl rfl) ?_
    rintro _ ⟨⟩
    exact harmless

end Descriptor

namespace Schema

/-- The type of the schema can be used. -/
def HasUsableType (s : Schema) : Prop := s.type.descriptor.Usable

/-- The type answers tests, and if it has to coerce then it can. -/
structure UsesType (s : Schema) : Prop where
  test : ∀ v m, s.type.descriptor.test v ≠ .error m
  cast : s.rules.casts = true → s.type.descriptor.isCastable = true →
    s.type.descriptor.cast.Harmless

theorem HasUsableType.usesType {s : Schema} (h : s.HasUsableType) : s.UsesType :=
  ⟨h.test, fun _ => h.cast⟩

/-- A schema that has compiled is not misused, if no type in it is. -/
theorem cast_harmless {s : Schema} (hs : s.Everywhere UsesType) {d : Descriptor}
    (hc : s.compile = .ok d) : d.cast.Harmless := by
  induction hs generalizing d with
  | @intro s inner declared here _ ih =>
    have ih_nested (n : NestedSchema) (hn : n ∈ s.nested) (c : Descriptor)
        (hcompiled : compileNested n = .ok c) : c.cast.Harmless := by
      obtain ⟨t, ht, rfl⟩ := mem_of_nested declared hn
      exact ih t ht hcompiled
    obtain ⟨keys?, contents, rfl, hcastable, hkeys, hcontents⟩ := compile_ok hc
    rw [Descriptor.cast_validator]
    apply Rules.apply_harmless
    · intro hcasts
      exact here.cast hcasts (hcastable hcasts)
    · exact here.test
    · intro v m
      cases hkeys with
      | none _ => simp [Descriptor.castKeys_none]
      | some given _ compiled =>
        rw [Descriptor.castKeys_some]
        exact Caster.rename_harmless (ih_nested _ (keys_mem_nested given) _ compiled) v m
    · intro v m
      cases hcontents with
      | any _ _ => simp [Descriptor.castContents_any]
      | each given _ _ compiled =>
        rw [Descriptor.castContents_each]
        exact Caster.castMembers_harmless (ih_nested _ (values_mem_nested given) _ compiled) v m
      | declared _ given _ compiled =>
        rw [Descriptor.castContents_declared]
        refine Caster.entries_harmless ?_ v m
        intro entry hentry
        rw [Descriptor.castFields_eq_map] at hentry
        obtain ⟨e, he, rfl⟩ := List.mem_map.mp hentry
        obtain ⟨f, hf, hn⟩ := mem_of_compileFields compiled he
        exact ih_nested _ (entry_mem_nested given hf) _ hn

end Schema

end SchemaCast
