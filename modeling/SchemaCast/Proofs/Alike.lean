import SchemaCast.Proofs.Compile
import SchemaCast.Proofs.Descriptor

namespace SchemaCast

/-- Nested schemas that are related, or were compiled before and are the same. -/
inductive Nested.Related (r : Schema → Schema → Prop) : NestedSchema → NestedSchema → Prop where
  | declared {s t : Schema} (related : r s t) : Related r (.declared s) (.declared t)
  | compiled (d : Descriptor) : Related r (.compiled d) (.compiled d)

/-- The same options are given, with related schemas. -/
structure Schema.SameOptions (r : Schema → Schema → Prop) (s t : Schema) : Prop where
  keys : Option.Rel (Nested.Related r) s.keys? t.keys?
  values : Option.Rel (Nested.Related r) s.values? t.values?
  entries : Option.Rel (OrderedMap.Related (Nested.Related r)) s.entries? t.entries?

/-- Members are treated in the same way, by related descriptors. -/
inductive Contents.Related (q : Descriptor → Descriptor → Prop) :
    Contents Descriptor → Contents Descriptor → Prop where
  | any : Related q .any .any
  | each {c d : Descriptor} (related : q c d) : Related q (.each c) (.each d)
  | declared {m n : OrderedMap String Descriptor}
      (related : OrderedMap.Related q m.entries n.entries) : Related q (.declared m) (.declared n)

namespace Schema

/-- Whenever the first schema compiles then so does the second, and what they compile to is
related. -/
def CompilesTo (q : Descriptor → Descriptor → Prop) (s t : Schema) : Prop :=
  ∀ c, s.compile = .ok c → ∃ d, t.compile = .ok d ∧ q c d

variable {r : Schema → Schema → Prop} {q : Descriptor → Descriptor → Prop} {s t : Schema}

section Nested

variable (hq : ∀ c, q c c) (hr : ∀ a b, r a b → CompilesTo q a b)

include hq hr

theorem nested_compile {n m : NestedSchema} (h : Nested.Related r n m) {c : Descriptor}
    (hc : compileNested n = .ok c) : ∃ d, compileNested m = .ok d ∧ q c d := by
  cases h with
  | declared related => exact hr _ _ related c hc
  | compiled d => exact ⟨c, hc, hq c⟩

theorem fields_compile {fields others : List (String × NestedSchema)}
    (h : OrderedMap.Related (Nested.Related r) fields others) {cs : List (String × Descriptor)}
    (hc : compileFields fields = .ok cs) :
    ∃ ds, compileFields others = .ok ds ∧ OrderedMap.Related q cs ds := by
  simp only [compileFields_eq_ok] at hc ⊢
  refine forall₂_complete (fun f g c hfg hfc => ?_) h hc
  obtain ⟨d, hd, hcd⟩ := nested_compile hq hr hfg.2 hfc.2
  exact ⟨(g.1, d), ⟨rfl, hd⟩, hfc.1.trans hfg.1, hcd⟩

end Nested

variable (hsupports : ∀ option, s.type.supports option = true → t.type.supports option = true)
  (hq : ∀ c, q c c) (hr : ∀ a b, r a b → CompilesTo q a b) (h : SameOptions r s t)

include hsupports hq hr h

theorem SameOptions.keysCompiled {keys? : Option Descriptor} (hk : s.KeysCompiled keys?) :
    ∃ others?, t.KeysCompiled others? ∧ Option.Rel q keys? others? := by
  have hrel := h.keys
  cases hk with
  | none absent =>
    rw [absent] at hrel
    generalize ht : t.keys? = m? at hrel
    cases hrel
    exact ⟨none, .none ht, .none⟩
  | some given supported compiled =>
    rw [given] at hrel
    generalize ht : t.keys? = m? at hrel
    cases hrel with
    | some hrelated =>
      obtain ⟨d, hd, hq⟩ := nested_compile hq hr hrelated compiled
      exact ⟨some d, .some ht (hsupports _ supported) hd, .some hq⟩

theorem SameOptions.contentsCompiled {contents : Contents Descriptor}
    (hc : s.ContentsCompiled contents) :
    ∃ others, t.ContentsCompiled others ∧ Contents.Related q contents others := by
  have hvalues := h.values
  have hentries := h.entries
  generalize htv : t.values? = v? at hvalues
  generalize hte : t.entries? = e? at hentries
  cases hc with
  | any noValues noEntries =>
    rw [noValues] at hvalues
    rw [noEntries] at hentries
    cases hvalues
    cases hentries
    exact ⟨.any, .any htv hte, .any⟩
  | each given noEntries supported compiled =>
    rw [given] at hvalues
    rw [noEntries] at hentries
    cases hentries
    cases hvalues with
    | some hrelated =>
      obtain ⟨d, hd, hq⟩ := nested_compile hq hr hrelated compiled
      exact ⟨.each d, .each htv hte (hsupports _ supported) hd, .each hq⟩
  | declared noValues given supported compiled =>
    rw [noValues] at hvalues
    rw [given] at hentries
    cases hvalues
    cases hentries with
    | some hrelated =>
      obtain ⟨ds, hds, hqs⟩ := fields_compile hq hr hrelated compiled
      exact ⟨_, .declared htv hte (hsupports _ supported) hds, .declared hqs.ofList⟩

/-- A schema with the options of one that compiles does so too, if its type is castable where it
has to be. -/
theorem SameOptions.compile
    (hcastable : t.rules.casts = true → t.type.descriptor.isCastable = true) {c : Descriptor}
    (hc : s.compile = .ok c) :
    ∃ keys? contents others? others, c = .validator s.type.descriptor s.rules keys? contents ∧
      t.compile = .ok (.validator t.type.descriptor t.rules others? others) ∧
      Option.Rel q keys? others? ∧ Contents.Related q contents others := by
  obtain ⟨keys?, contents, rfl, _, hkeys, hcontents⟩ := compile_ok hc
  obtain ⟨others?, hothers?, hkeysRelated⟩ := h.keysCompiled hsupports hq hr hkeys
  obtain ⟨others, hothers, hcontentsRelated⟩ := h.contentsCompiled hsupports hq hr hcontents
  exact ⟨keys?, contents, others?, others, rfl, compile_of hcastable hothers? hothers,
    hkeysRelated, hcontentsRelated⟩

end Schema

/-- Descriptors that cast every input to the same result. -/
abbrev Descriptor.CastsLike (c d : Descriptor) : Prop := c.cast = d.cast

/-- Whenever the first schema compiles then so does the second, and both cast alike. -/
abbrev Schema.CastsLike : Schema → Schema → Prop := CompilesTo Descriptor.CastsLike

/-- Types that test and coerce values in the same way. -/
structure SchemaType.Alike (t u : SchemaType) : Prop where
  supports : ∀ option, t.supports option = u.supports option
  cast : t.descriptor.cast = u.descriptor.cast
  test : t.descriptor.test = u.descriptor.test
  castable : t.descriptor.isCastable = u.descriptor.isCastable

theorem SchemaType.Alike.refl (t : SchemaType) : t.Alike t :=
  ⟨fun _ => rfl, rfl, rfl, rfl⟩

namespace Descriptor

theorem castKeys_congr {keys? others? : Option Descriptor}
    (h : Option.Rel CastsLike keys? others?) :
    castKeys keys? = castKeys others? := by
  funext v
  cases h with
  | none => rfl
  | some hcast => rw [castKeys_some, castKeys_some, hcast]

theorem castContents_congr {contents others : Contents Descriptor}
    (h : Contents.Related CastsLike contents others) :
    castContents contents = castContents others := by
  funext v
  cases h with
  | any => rfl
  | each hcast => rw [castContents_each, castContents_each, hcast]
  | @declared m n hcasts =>
    have hmap : castFields m.entries = castFields n.entries := by
      rw [castFields_eq_map, castFields_eq_map]
      exact map_eq_of_forall₂ (hcasts.imp fun e f hef => Prod.ext hef.1 hef.2)
    rw [castContents_declared, castContents_declared, hmap]

/-- Alternatives that cast alike, in the same order, make types that do. -/
theorem anyOfSchemas_alike {ns ms : List NestedSchema}
    (h : List.Forall₂ (Nested.Related Schema.CastsLike) ns ms) {c : Descriptor}
    (hc : anyOfSchemas ns = .ok c) :
    ∃ d, anyOfSchemas ms = .ok d ∧ (SchemaType.custom c).Alike (.custom d) := by
  obtain ⟨cs, hcs, rfl⟩ := (except_bind_pure_eq_ok ..).mp hc
  rw [Schema.compileAll_eq_ok] at hcs
  have step (n m : NestedSchema) (c : Descriptor) (hnm : Nested.Related Schema.CastsLike n m)
      (hn : Schema.compileNested n = .ok c) :
      ∃ d, Schema.compileNested m = .ok d ∧ c.CastsLike d :=
    Schema.nested_compile (q := CastsLike) (fun _ => rfl) (fun _ _ h => h) hnm hn
  obtain ⟨ds, hds, hcasts⟩ := forall₂_complete step h hcs
  have hcast : (anyOf cs).cast = (anyOf ds).cast := by
    rw [cast_anyOf, cast_anyOf, map_eq_of_forall₂ hcasts]
  refine ⟨.anyOf ds, ?_, fun _ => rfl, hcast, ?_, rfl⟩
  · rw [anyOfSchemas, (Schema.compileAll_eq_ok ..).mpr hds]
    rfl
  · funext v
    change ((anyOf cs).cast (some v)).accepted = ((anyOf ds).cast (some v)).accepted
    rw [hcast]

end Descriptor

namespace Schema

/-- Schemas with types and options that cast alike do so themselves under the same rules. -/
theorem castsLike_of {s t : Schema} (type : s.type.Alike t.type) (rules : t.rules = s.rules)
    (options : SameOptions CastsLike s t) : s.CastsLike t := by
  intro c hc
  have hcastable (hcasts : t.rules.casts = true) : t.type.descriptor.isCastable = true := by
    obtain ⟨_, _, _, hcan, _, _⟩ := compile_ok hc
    rw [← type.castable]
    exact hcan (rules ▸ hcasts)
  obtain ⟨keys?, contents, others?, others, rfl, ht, hkeys, hcontents⟩ :=
    options.compile (q := Descriptor.CastsLike)
      (fun option ho => (type.supports option).symm.trans ho) (fun _ => rfl) (fun _ _ h => h)
      hcastable hc
  refine ⟨_, ht, ?_⟩
  rw [Descriptor.CastsLike, Descriptor.cast_validator, Descriptor.cast_validator, type.cast,
    type.test, rules, Descriptor.castKeys_congr hkeys, Descriptor.castContents_congr hcontents]

end Schema

end SchemaCast
