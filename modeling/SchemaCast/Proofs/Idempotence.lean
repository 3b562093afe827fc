import SchemaCast.Proofs.Builtin
import SchemaCast.Proofs.Compile
import SchemaCast.Proofs.FixedPoint

namespace SchemaCast

namespace Descriptor

/-- Validators of texts and of booleans, whose values are names of fields once they are text. -/
inductive NamesFields : Descriptor → Prop where
  | text (rules : Rules) (keys? : Option Descriptor) (contents : Contents Descriptor) :
    NamesFields (.validator (.base Builtin.text.type) rules keys? contents)
  | boolean (rules : Rules) (keys? : Option Descriptor) (contents : Contents Descriptor) :
    NamesFields (.validator (.base Builtin.boolean.type) rules keys? contents)

end Descriptor

/-- The rules of a schema that make a second cast change nothing: `json` is only tested, predicates
before the members see no members, and keys do not meet declared entries. -/
structure Schema.Settling (s : Schema) : Prop where
  json : s.type = .builtin .json → s.rules.casts = false
  checks : (s.keys? = none ∧ s.values? = none ∧ s.entries? = none) ∨
    (s.rules.checks = [] ∧ s.rules.valueChecks = [])
  keysOrEntries : s.keys? = none ∨ s.entries? = none
  names : s.type = .builtin .record → ∀ n, s.keys? = some n →
    ∀ keys, compileNested n = .ok keys → keys.NamesFields

/-- A descriptor that is compiled from schemas with such rules, at every depth and behind every
type. -/
inductive Descriptor.Settling : Descriptor → Prop where
  | intro {s : Schema} {d : Descriptor} (compiled : s.compile = .ok d) (settling : s.Settling)
      (custom : ∀ t, s.type = .custom t → Settling t)
      (nested : ∀ n ∈ s.nested, ∀ c, Schema.compileNested n = .ok c → Settling c) : Settling d

namespace Schema

variable {s : Schema} {keys? : Option Descriptor} {contents : Contents Descriptor}

theorem contents_again (hc : ContentsCompiled s contents)
    (hi : ∀ n ∈ s.nested, ∀ c, compileNested n = .ok c → Caster.Idempotent c.cast) {v w : Value}
    (h : Descriptor.castContents contents v = .ok w) :
    Descriptor.castContents contents w = .ok w := by
  cases hc with
  | any _ _ => exact Descriptor.castContents_any w
  | each given _ _ compiled =>
    rw [Descriptor.castContents_each] at h ⊢
    exact Caster.castMembers_again (hi _ (values_mem_nested given) _ compiled) h
  | declared _ given _ compiled =>
    refine Descriptor.castContents_declared_again (OrderedMap.unique_ofList _) ?_ h
    intro e he
    obtain ⟨f, hf, hn⟩ := mem_of_compileFields compiled he
    exact hi _ (entry_mem_nested given hf) _ hn

end Schema

namespace Descriptor

/-- If the type gives no container and takes the text of what it gives back to it, then so does the
whole validator. -/
theorem cast_display_of_bare {type : Descriptor} {rules : Rules} {keys? : Option Descriptor}
    {contents : Contents Descriptor} {name : String} {k : Value}
    (hbare : ∀ typed, rules.throughType type.cast type.test (.text name) = .ok typed →
      (∀ x, ¬typed.SameKind x) ∧
        rules.throughType type.cast type.test (.text typed.display) = .ok typed)
    (h : (validator type rules keys? contents).cast (some (.text name)) = .ok k) :
    (validator type rules keys? contents).cast (some (.text k.display)) = .ok k := by
  rw [cast_validator, Rules.apply_eq_ok] at h ⊢
  rcases h with ⟨hg, _⟩ | ⟨v, typed, keyed, hg, hp⟩
  · simp [Rules.given?_some] at hg
  · obtain rfl : v = .text name := Rules.eq_of_given? hg
    obtain ⟨hkind, hagain⟩ := hbare typed hp.typed_ok
    -- The keys and members of what is no container are left alone.
    obtain rfl : keyed = typed := (castKeys_ok hp.keyed_ok).resolve_right (hkind _)
    obtain rfl : k = keyed := (castContents_ok hp.members_ok).resolve_right (hkind _)
    exact .inr ⟨_, _, _, Rules.given?_some (by simp), { hp with typed_ok := hagain }⟩

/-- The name that a cast key gives to a field is cast to that key again. -/
theorem NamesFields.cast_display {d : Descriptor} (hd : d.NamesFields) {name : String} {k : Value}
    (h : d.cast (some (.text name)) = .ok k) : d.cast (some (.text k.display)) = .ok k := by
  cases hd with
  | text rules keys? contents =>
    refine cast_display_of_bare (fun typed ht => ?_) h
    have htyped : typed = .text name := by
      rcases Rules.throughType_ok ht with ⟨_, hc⟩ | ⟨_, _, he⟩
      · rw [cast_base] at hc
        exact (Except.ok.inj hc).symm
      · exact he
    subst htyped
    exact ⟨by nofun, ht⟩
  | boolean rules keys? contents =>
    refine cast_display_of_bare (fun typed ht => ?_) h
    rcases Rules.throughType_ok ht with ⟨hcasts, hc⟩ | ⟨_, htest, _⟩
    · rw [cast_base] at hc
      have hc : Builtin.toBoolean (.text name) = .ok typed := hc
      obtain ⟨a, rfl⟩ := Builtin.toBoolean_ok hc
      refine ⟨by nofun, ?_⟩
      rw [Rules.throughType, if_pos hcasts, cast_base]
      cases a <;> rfl
    · simp [test, testBy, BaseType.test, Builtin.type, Builtin.test?] at htest

/-- Through the type of a settling schema, no value becomes null, and what has come through it
comes through again. -/
theorem typed_again {s : Schema} (hs : s.Settling)
    (hc : ∀ t, s.type = .custom t →
      Caster.Idempotent t.cast ∧ ∀ v w, v ≠ .null → t.cast (some v) = .ok w → w ≠ .null)
    {v t : Value} (hv : v ≠ .null)
    (h : s.rules.throughType s.type.descriptor.cast s.type.descriptor.test v = .ok t) :
    t ≠ .null ∧ s.rules.throughType s.type.descriptor.cast s.type.descriptor.test t = .ok t := by
  rcases Rules.throughType_ok h with ⟨hcasts, hcast⟩ | ⟨_, _, rfl⟩
  · rw [Rules.throughType, if_pos hcasts]
    cases htype : s.type with
    | builtin b =>
      have hb : b ≠ .json := by
        rintro rfl
        simp [hs.json htype] at hcasts
      rw [htype, SchemaType.descriptor, cast_base] at hcast
      rw [SchemaType.descriptor, cast_base]
      exact ⟨Builtin.ne_null_of_test hb (Builtin.test_of_cast hb hcast),
        Builtin.cast_cast hb hcast⟩
    | custom d =>
      rw [htype] at hcast
      exact ⟨(hc d htype).2 v t hv hcast, (hc d htype).1 _ _ hcast⟩
  · exact ⟨hv, h⟩

/-- Keys and members of a container that have been cast are cast to themselves. -/
theorem container_again {s : Schema} (hs : s.Settling) {keys? : Option Descriptor}
    {contents : Contents Descriptor} (hkeys : s.KeysCompiled keys?)
    (hcontents : s.ContentsCompiled contents)
    (hn : ∀ n ∈ s.nested, ∀ c, Schema.compileNested n = .ok c → Caster.Idempotent c.cast)
    {v keyed w : Value} (hrecord : ∀ m, v = .record m → s.type = .builtin .record)
    (hk : castKeys keys? v = .ok keyed) (hm : castContents contents keyed = .ok w) :
    castKeys keys? w = .ok w ∧ castContents contents w = .ok w := by
  refine ⟨?_, Schema.contents_again hcontents hn hm⟩
  cases hkeys with
  | none _ => exact castKeys_none w
  | @some n keys given _ compiled =>
    rw [castKeys_some] at hk ⊢
    have hsettled : Caster.KeysSettled keys.cast keyed := by
      apply Caster.keysSettled_of_rename (hn n (Schema.keys_mem_nested given) keys compiled) _ hk
      intro m hv name k hc
      exact (hs.names (hrecord m hv) n given keys compiled).cast_display hc
    apply Caster.KeysSettled.rename_eq
    cases hcontents with
    | any _ _ =>
      obtain rfl : w = keyed := eq_of_castContents_any hm
      exact hsettled
    | each _ _ _ _ =>
      rw [castContents_each] at hm
      exact hsettled.castMembers_keys hm
    | declared _ entries _ _ =>
      rcases hs.keysOrEntries with h | h
      · simp [h] at given
      · simp [h] at entries

/-- A container type only tests, and tests for the kind of container. -/
theorem throughType_container {rules : Rules} {type : SchemaType} {b : Builtin}
    (htype : type = .builtin b) (hb : b.coerce? = none)
    (hcastable : rules.casts = true → type.descriptor.isCastable = true) {v typed : Value}
    (h : rules.throughType type.descriptor.cast type.descriptor.test v = .ok typed) :
    typed = v ∧ (∀ m, v = .record m → b = .record) ∧
      ∀ w, v.SameKind w →
        rules.throughType type.descriptor.cast type.descriptor.test w = .ok w := by
  have hcasts := SchemaType.casts_of_container htype hb hcastable
  subst htype
  rcases Rules.throughType_ok h with ⟨hc, _⟩ | ⟨_, htest, rfl⟩
  · simp [hcasts] at hc
  · have htest : b.type.test typed = .ok true := htest
    refine ⟨rfl, ?_, fun w hw => ?_⟩
    · rintro m rfl
      exact Builtin.eq_record_of_test hb htest
    · have hwtest : b.type.test w = .ok true := Builtin.test_sameKind hw ▸ htest
      simp only [Rules.throughType, hcasts, Bool.false_eq_true, ↓reduceIte, SchemaType.descriptor,
        test, testBy, hwtest]

/-- What has passed all stages passes them again, and no stage changes it. -/
theorem passes_again {s : Schema} (hs : s.Settling) {keys? : Option Descriptor}
    {contents : Contents Descriptor}
    (hcastable : s.rules.casts = true → s.type.descriptor.isCastable = true)
    (hkeys : s.KeysCompiled keys?) (hcontents : s.ContentsCompiled contents)
    (hc : ∀ t, s.type = .custom t →
      Caster.Idempotent t.cast ∧ ∀ v w, v ≠ .null → t.cast (some v) = .ok w → w ≠ .null)
    (hn : ∀ n ∈ s.nested, ∀ c, Schema.compileNested n = .ok c → Caster.Idempotent c.cast)
    {v typed keyed w : Value} (hv : v ≠ .null)
    (hp : s.rules.Passes s.type.descriptor.cast s.type.descriptor.test (castKeys keys?)
      (castContents contents) v typed keyed w) :
    w ≠ .null ∧ s.rules.Passes s.type.descriptor.cast s.type.descriptor.test (castKeys keys?)
      (castContents contents) w w w w := by
  rcases Schema.bare_or_container hkeys hcontents with ⟨rfl, rfl⟩ | ⟨b, htype, hb, hoptions⟩
  · obtain rfl : keyed = typed := eq_of_castKeys_none hp.keyed_ok
    obtain rfl : w = keyed := eq_of_castContents_any hp.members_ok
    obtain ⟨hnull, htyped⟩ := typed_again hs hc hv hp.typed_ok
    exact ⟨hnull, { hp with typed_ok := htyped }⟩
  · obtain ⟨rfl, hrecord, hsame⟩ := throughType_container htype hb hcastable hp.typed_ok
    have hw : w = typed ∨ typed.SameKind w := by
      rcases castKeys_ok hp.keyed_ok with rfl | hk
      · exact castContents_ok hp.members_ok
      · rcases castContents_ok hp.members_ok with rfl | hm
        · exact .inr hk
        · exact .inr (hk.trans hm)
    obtain ⟨hk, hm⟩ := container_again hs hkeys hcontents hn
      (fun m hm => htype.trans (congrArg _ (hrecord m hm))) hp.keyed_ok hp.members_ok
    have hchecks : s.rules.checks ++ s.rules.valueChecks = [] := by
      obtain ⟨hchecks, hvalueChecks⟩ := hs.checks.resolve_left hoptions
      simp [hchecks, hvalueChecks]
    rcases hw with rfl | hw
    · exact ⟨hv, hp.typed_ok, by simp [hchecks], hk, hm, hp.contentChecked⟩
    · exact ⟨hw.ne_null, hsame w hw, by simp [hchecks], hk, hm, hp.contentChecked⟩

theorem settles {d : Descriptor} (hd : d.Settling) :
    Caster.Idempotent d.cast ∧ ∀ v w, v ≠ .null → d.cast (some v) = .ok w → w ≠ .null := by
  induction hd with
  | @intro s d compiled settling _ _ ihc ihn =>
    obtain ⟨keys?, contents, rfl, hcastable, hkeys, hcontents⟩ := Schema.compile_ok compiled
    have hnested (n : NestedSchema) (hn : n ∈ s.nested) (c : Descriptor)
        (hc : Schema.compileNested n = .ok c) : Caster.Idempotent c.cast := (ihn n hn c hc).1
    rw [cast_validator]
    refine ⟨fun input w h => ?_, fun v w hv h => ?_⟩
    · rw [Rules.apply_eq_ok] at h ⊢
      rcases h with ⟨_, ho, rfl⟩ | ⟨v, typed, keyed, hg, hp⟩
      · exact .inl ⟨Rules.given?_null, ho, rfl⟩
      · obtain ⟨hw, hp⟩ := passes_again settling hcastable hkeys hcontents ihc hnested
          (Rules.given?_ne_null hg) hp
        exact .inr ⟨w, w, w, Rules.given?_some hw, hp⟩
    · rw [Rules.apply_eq_ok, Rules.given?_some hv] at h
      rcases h with ⟨hg, _⟩ | ⟨u, typed, keyed, hg, hp⟩
      · simp at hg
      · obtain rfl := Option.some.inj hg
        exact (passes_again settling hcastable hkeys hcontents ihc hnested hv hp).1

/-- A value that a cast has given is cast to itself, with its members and keys in their order. -/
theorem cast_of_cast {d : Descriptor} (hd : d.Settling) {input : Option Value} {w : Value}
    (h : d.cast input = .ok w) : d.cast (some w) = .ok w :=
  (settles hd).1 input w h

/-- Sets of names under switches. The names of the switches are booleans, and the members of the
sets have a type of their own, which was compiled before. -/
def switches : Schema where
  type := .builtin .record
  keys? := some (.declared { type := .builtin .boolean, rules := { casts := true } })
  values? := some (.declared {
    type := .builtin .set
    values? := some (.declared {
      type := .custom (.validator (.base Builtin.text.type) { casts := true } none .any)
      rules := { casts := true } }) })

theorem switches_settle {d : Descriptor} (h : switches.compile = .ok d) : d.Settling := by
  -- None of the schemas has predicates or entries.
  have node {s : Schema} (hc : s.rules.checks = []) (hv : s.rules.valueChecks = [])
      (he : s.entries? = none) (hj : s.type ≠ .builtin .json)
      (hn : ∀ n, s.keys? = some n → ∀ keys, Schema.compileNested n = .ok keys → keys.NamesFields) :
      s.Settling :=
    ⟨fun h => absurd h hj, .inr ⟨hc, hv⟩, .inr he, fun _ => hn⟩
  have texts : (validator (.base Builtin.text.type) { casts := true } none .any).Settling :=
    .intro (s := { type := .builtin .text, rules := { casts := true } }) rfl
      (node rfl rfl rfl (by simp) (by simp)) (by simp) (by simp [Schema.nested])
  refine .intro h (node rfl rfl rfl (by simp [switches]) ?_) (by simp [switches]) ?_
  · rintro n ⟨⟩ keys hk
    exact Except.ok.inj hk ▸ .boolean ..
  · simp only [Schema.nested, switches, Option.toList_some, Option.getD_none, List.map_nil,
      List.append_nil, List.cons_append, List.nil_append, List.forall_mem_cons, List.not_mem_nil,
      false_implies, implies_true, and_true]
    refine ⟨fun c hc => ?_, fun c hc => ?_⟩
    · exact .intro hc (node rfl rfl rfl (by simp) (by simp)) (by simp) (by simp [Schema.nested])
    · refine .intro hc (node rfl rfl rfl (by simp) (by simp)) (by simp) ?_
      simp only [Schema.nested, Option.toList_some, Option.toList_none, Option.getD_none,
        List.map_nil, List.append_nil, List.nil_append, List.mem_singleton, forall_eq]
      intro c hc
      refine .intro hc (node rfl rfl rfl (by simp) (by simp)) ?_ (by simp [Schema.nested])
      rintro t ⟨⟩
      exact texts

theorem switches_cast_twice : ∃ d, switches.compile = .ok d ∧ d.Settling ∧
    d.cast (some (.record ⟨[("1", .set [.text "a", .bool true]), ("true", .set [.text "b",
      .bool false, .text "false"]), ("0", .set [])]⟩)) =
      .ok (.record ⟨[("true", .set [.text "b", .text "false"]), ("false", .set [])]⟩) ∧
    d.cast (some (.record ⟨[("true", .set [.text "b", .text "false"]), ("false", .set [])]⟩)) =
      .ok (.record ⟨[("true", .set [.text "b", .text "false"]), ("false", .set [])]⟩) := by
  refine ⟨_, rfl, switches_settle rfl, rfl, ?_⟩
  exact @cast_of_cast _ (switches_settle rfl) (some (.record ⟨[("1", .set [.text "a", .bool true]),
    ("true", .set [.text "b", .bool false, .text "false"]), ("0", .set [])]⟩)) _ rfl

end Descriptor

end SchemaCast
