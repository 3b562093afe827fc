import SchemaCast.Proofs.FixedPoint
import SchemaCast.Proofs.Misuse

namespace SchemaCast

namespace Schema

/-- The type can test its values, which are not coerced, and no entries are filled in. -/
structure Inspects (s : Schema) : Prop where
  tests : s.rules.casts = false
  noEntries : s.entries? = none
  type : (∃ b, s.type = .builtin b) ∨
    ∃ base : BaseType, s.type = .custom (.base base) ∧ base.test?.isSome

variable {s : Schema} {d : Descriptor}

theorem Inspects.usesType (h : s.Inspects) : s.UsesType := by
  refine ⟨fun v m => ?_, fun hcasts => ?_⟩
  · rcases h.type with ⟨b, hb⟩ | ⟨base, hb, htest⟩
    · rw [hb]
      exact (Descriptor.Registrable.builtin b).usable.test v m
    · obtain ⟨holds, htest⟩ := Option.isSome_iff_exists.mp htest
      rw [hb]
      change base.test v ≠ .error m
      simp [BaseType.test, htest]
  · simp [h.tests] at hcasts

/-- What a schema that only tests gives for a value is that value. -/
theorem eq_of_cast_inspects (hs : s.Everywhere Inspects) (hc : s.compile = .ok d) {v w : Value}
    (hv : v.Throughout Value.NoRepeats) (h : d.cast (some v) = .ok w) : w = v := by
  induction hs generalizing d v w with
  | @intro s inner declared here _ ih =>
    have ih_nested (n : NestedSchema) (hn : n ∈ s.nested) (c : Descriptor)
        (hcompiled : compileNested n = .ok c) (u x : Value) (hu : u.Throughout Value.NoRepeats)
        (hx : c.cast (some u) = .ok x) : x = u := by
      obtain ⟨t, ht, rfl⟩ := mem_of_nested declared hn
      exact ih t ht hcompiled hu hx
    -- The condition holds of the keys and members too, so none of them changes, and a container of
    -- unchanged parts without repeats is built again as it was.
    obtain ⟨hrepeats, hkeyed, hmembers⟩ := hv
    obtain ⟨keys?, contents, rfl, _, hkeys, hcontents⟩ := compile_ok hc
    rw [Descriptor.cast_validator] at h
    refine Rules.eq_of_apply here.tests (fun k hk => ?_) (fun m hm => ?_) h
    · cases hkeys with
      | none => exact Descriptor.eq_of_castKeys_none hk
      | some given _ compiled =>
        rw [Descriptor.castKeys_some] at hk
        refine Caster.eq_of_rename hrepeats.keys (fun e he x hx => ?_) hk
        exact ih_nested _ (keys_mem_nested given) _ compiled _ _ (hkeyed e he) hx
    · cases hcontents with
      | any => exact Descriptor.eq_of_castContents_any hm
      | each given _ _ compiled =>
        rw [Descriptor.castContents_each] at hm
        refine Caster.eq_of_castMembers hrepeats (fun u hu x hx => ?_) hm
        exact ih_nested _ (values_mem_nested given) _ compiled _ _ (hmembers u hu) hx
      | declared _ given => simp [here.noEntries] at given

/-- A schema that only tests gives a value back or rejects it. -/
theorem cast_inspects (hs : s.Everywhere Inspects) (hc : s.compile = .ok d) {v : Value}
    (hv : v.Throughout Value.NoRepeats) :
    d.cast (some v) = .ok v ∨ ∃ r, d.cast (some v) = .error (.rejected r) := by
  cases h : d.cast (some v) with
  | ok w => exact .inl (eq_of_cast_inspects hs hc hv h ▸ rfl)
  | error e =>
    cases e with
    | rejected r => exact .inr ⟨r, rfl⟩
    | misused m =>
      exact absurd h (cast_harmless (hs.mono fun _ => Inspects.usesType) hc _ m)

/-- Under every name there are samples of readings under JSON values. -/
def samples : Schema where
  type := .builtin .record
  keys? := some (.declared { type := .builtin .text })
  values? := some (.declared {
    type := .builtin .map
    keys? := some (.declared { type := .builtin .json })
    values? := some (.declared {
      type := .builtin .set
      values? := some (.declared {
        type := .custom (.base { name := "reading", test? := some (·.number?.isSome) }) }) }) })

/-- What is not a number is equal to nothing, so it can be a key twice and a member twice. -/
def failedReadings : Value :=
  let failed := .number ⟨0x7FF8000000000000⟩
  .ofFields [("a", .ofEntries [(failed, .ofMembers [failed, .number .zero, failed]),
    (failed, .ofMembers [])])]

theorem samples_keep_failedReadings : ∃ d, samples.compile = .ok d ∧
    samples.Everywhere Inspects ∧ failedReadings.Throughout Value.NoRepeats ∧
    (failedReadings.field? "a").map (·.members.length) = some 2 ∧
    d.cast (some failedReadings) = .ok failedReadings := by
  have leaf (type : SchemaType) (h : (∃ b, type = .builtin b) ∨
      ∃ base : BaseType, type = .custom (.base base) ∧ base.test?.isSome) :
      Everywhere Inspects { type := type } :=
    .leaf rfl ⟨rfl, rfl, h⟩
  have hs : samples.Everywhere Inspects := by
    refine .intro [_, _] rfl ⟨rfl, rfl, .inl ⟨_, rfl⟩⟩ ?_
    rw [List.forall_mem_cons, List.forall_mem_singleton]
    refine ⟨leaf _ (.inl ⟨_, rfl⟩), .intro [_, _] rfl ⟨rfl, rfl, .inl ⟨_, rfl⟩⟩ ?_⟩
    rw [List.forall_mem_cons, List.forall_mem_singleton]
    refine ⟨leaf _ (.inl ⟨_, rfl⟩), .intro [_] rfl ⟨rfl, rfl, .inl ⟨_, rfl⟩⟩ ?_⟩
    rw [List.forall_mem_singleton]
    exact leaf _ (.inr ⟨_, rfl, rfl⟩)
  have hv : failedReadings.Throughout Value.NoRepeats := by
    refine .ofFields ?_
    rw [List.forall_mem_singleton]
    refine .ofEntries ?_ ?_
    all_goals rw [List.forall_mem_cons, List.forall_mem_singleton]
    · exact ⟨.leaf rfl rfl, .leaf rfl rfl⟩
    · refine ⟨.ofMembers ?_, .ofMembers (by simp)⟩
      simp only [List.forall_mem_cons, List.not_mem_nil, false_implies, implies_true, and_true]
      exact ⟨.leaf rfl rfl, .leaf rfl rfl, .leaf rfl rfl⟩
  refine ⟨_, rfl, hs, hv, rfl, ?_⟩
  refine (cast_inspects hs rfl hv).resolve_right ?_
  rintro ⟨r, hr⟩
  cases hr

end Schema

end SchemaCast
