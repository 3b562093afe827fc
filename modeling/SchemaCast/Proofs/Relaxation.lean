import SchemaCast.Proofs.Alike
import SchemaCast.Proofs.Builtin

namespace SchemaCast

namespace Caster

/-- What the first caster gives, the other one gives as well. -/
def ExtendedBy (c d : Caster) : Prop := ∀ input w, c input = .ok w → d input = .ok w

variable {c d : Caster} {v w : Value}

theorem ExtendedBy.castSequence (h : c.ExtendedBy d) {vs ws : List Value}
    (hc : castSequence c vs = .ok ws) : castSequence d vs = .ok ws := by
  rw [castSequence_eq_ok] at hc ⊢
  exact hc.imp fun v w => h (some v) w

theorem ExtendedBy.castEntryValues {K : Type} (h : c.ExtendedBy d) {segment : K → String}
    {entries fields : List (K × Value)} (hc : castEntryValues c segment entries = .ok fields) :
    castEntryValues d segment entries = .ok fields := by
  rw [castEntryValues_eq_ok] at hc ⊢
  exact hc.imp fun e f hef => ⟨hef.1, h _ _ hef.2⟩

theorem ExtendedBy.castMembers (h : c.ExtendedBy d) (hc : castMembers c v = .ok w) :
    castMembers d v = .ok w := by
  cases v with
  | list vs => exact except_bind_imp (fun _ => h.castSequence) hc
  | set vs => exact except_bind_imp (fun _ => h.castSequence) hc
  | record m => exact except_bind_imp (fun _ => h.castEntryValues) hc
  | map m => exact except_bind_imp (fun _ => h.castEntryValues) hc
  | _ => simp [Caster.castMembers, reject] at hc

theorem ExtendedBy.castEntryKeys (h : c.ExtendedBy d) {entries renamed : List (Value × Value)}
    (hc : castEntryKeys c entries = .ok renamed) : castEntryKeys d entries = .ok renamed := by
  rw [castEntryKeys_eq_ok] at hc ⊢
  exact hc.imp fun e f hef => ⟨h _ _ hef.1, hef.2⟩

theorem ExtendedBy.rename (h : c.ExtendedBy d) (hc : rename c v = .ok w) :
    rename d v = .ok w := by
  cases v with
  | record m => exact except_bind_imp (fun _ => h.castEntryKeys) hc
  | map m => exact except_bind_imp (fun _ => h.castEntryKeys) hc
  | _ => simp [Caster.rename, reject] at hc

section Declared

variable {strict loose : List (String × Caster)} (h : OrderedMap.Related ExtendedBy strict loose)

include h

theorem castPresent_extended {entries : List (Value × Value)} {fields : List (String × Value)}
    (hc : castPresent strict entries = .ok fields) : castPresent loose entries = .ok fields := by
  rw [castPresent_eq_ok] at hc ⊢
  refine hc.imp ?_
  rintro e f ⟨c, hkey, hdeclared, hcast⟩
  have hlookup : Option.Rel ExtendedBy (declared? strict f.1) (declared? loose f.1) :=
    h.lookup f.1
  rw [hdeclared] at hlookup
  generalize hd : declared? loose f.1 = d? at hlookup
  cases hlookup with
  | some hext => exact ⟨_, hkey, rfl, hext _ _ hcast⟩

theorem castAbsent_extended {present : List String} {fields : List (String × Value)}
    (hc : castAbsent present strict = .ok fields) : castAbsent present loose = .ok fields := by
  rw [castAbsent_eq_ok] at hc ⊢
  have hfilter := h.filter fun key => !present.contains key
  generalize strict.filter _ = ss at hc hfilter
  generalize loose.filter _ = ls at hfilter ⊢
  induction hfilter generalizing fields with
  | nil =>
    obtain rfl := List.forall₂_nil_left_iff.mp hc
    exact .nil
  | @cons s l ss ls hsl _ ih =>
    obtain ⟨f, fs, ⟨hkey, hcast⟩, hfs, rfl⟩ := List.forall₂_cons_left_iff.mp hc
    exact .cons ⟨hkey.trans hsl.1, hsl.2 _ _ hcast⟩ (ih hfs)

theorem entries_extended (hc : entries strict (some v) = .ok w) :
    entries loose (some v) = .ok w := by
  have hdeclared {es : List (Value × Value)} (fields : List (String × Value))
      (he : castDeclared strict es = .ok fields) : castDeclared loose es = .ok fields := by
    obtain ⟨present, hp, ha⟩ := (except_bind_eq_ok ..).mp he
    refine (except_bind_eq_ok ..).mpr ⟨present, castPresent_extended h hp, ?_⟩
    exact except_bind_imp (fun _ => castAbsent_extended h) ha
  cases v with
  | record m => exact except_bind_imp hdeclared hc
  | map m => exact except_bind_imp hdeclared hc
  | _ => simp [Caster.entries, reject] at hc

end Declared

end Caster

namespace Descriptor

/-- The casts of the second descriptor give what those of the first one give. -/
def ExtendedBy (c d : Descriptor) : Prop := c.cast.ExtendedBy d.cast

theorem castKeys_extended {keys? others? : Option Descriptor}
    (h : Option.Rel ExtendedBy keys? others?) {v w : Value} (hc : castKeys keys? v = .ok w) :
    castKeys others? v = .ok w := by
  cases h with
  | none => exact hc
  | some hext =>
    rw [castKeys_some] at hc ⊢
    exact hext.rename hc

theorem castContents_extended {contents others : Contents Descriptor}
    (h : Contents.Related ExtendedBy contents others) {v w : Value}
    (hc : castContents contents v = .ok w) : castContents others v = .ok w := by
  cases h with
  | any => exact hc
  | each hext =>
    rw [castContents_each] at hc ⊢
    exact hext.castMembers hc
  | declared hext =>
    rw [castContents_declared, castFields_eq_map] at hc ⊢
    refine Caster.entries_extended ?_ hc
    refine List.forall₂_map_left_iff.mpr (List.forall₂_map_right_iff.mpr ?_)
    exact hext

end Descriptor

namespace Rules

/-- Rules that demand less of values of the type. -/
structure RelaxedTo (strict loose : Rules) (type : SchemaType) : Prop where
  casts : loose.casts = strict.casts ∨
    loose.casts = true ∧ ∃ b, type = .builtin b ∧ (b = .text ∨ b = .number ∨ b = .boolean)
  optional : loose.optional = strict.optional ∨ loose.optional = true
  default : loose.default? = strict.default?
  checks : loose.checks.Sublist strict.checks
  valueChecks : loose.valueChecks.Sublist strict.valueChecks
  contentChecks : loose.contentChecks.Sublist strict.contentChecks

variable {strict loose : Rules} {type : SchemaType}

theorem RelaxedTo.throughType (h : strict.RelaxedTo loose type) {v w : Value}
    (hs : strict.throughType type.descriptor.cast type.descriptor.test v = .ok w) :
    loose.throughType type.descriptor.cast type.descriptor.test v = .ok w := by
  rcases h.casts with hsame | ⟨hloose, b, rfl, hb⟩
  · rw [Rules.throughType, hsame]
    exact hs
  · rw [Rules.throughType, if_pos hloose]
    rcases throughType_ok hs with ⟨_, hcast⟩ | ⟨_, htest, rfl⟩
    · exact hcast
    · rw [SchemaType.descriptor, Descriptor.cast_base]
      exact Builtin.cast_of_test hb htest

theorem RelaxedTo.apply (h : strict.RelaxedTo loose type)
    {keys members otherKeys otherMembers : Value → CastResult Value}
    (hkeys : ∀ v w, keys v = .ok w → otherKeys v = .ok w)
    (hmembers : ∀ v w, members v = .ok w → otherMembers v = .ok w) :
    Caster.ExtendedBy
      (strict.apply type.descriptor.cast type.descriptor.test keys members)
      (loose.apply type.descriptor.cast type.descriptor.test otherKeys otherMembers) := by
  intro input w hs
  have hgiven : loose.given? input = strict.given? input := by simp only [given?, h.default]
  rw [apply_eq_ok] at hs ⊢
  rw [hgiven]
  rcases hs with ⟨hnone, hoptional, rfl⟩ | ⟨v, typed, keyed, hv, hp⟩
  · refine .inl ⟨hnone, ?_, rfl⟩
    rcases h.optional with ho | ho
    · exact ho.trans hoptional
    · exact ho
  · have hchecks := h.checks.append h.valueChecks
    exact .inr ⟨v, typed, keyed, hv,
      { typed_ok := h.throughType hp.typed_ok
        checked := fun holds hm => hp.checked holds (hchecks.mem hm)
        keyed_ok := hkeys _ _ hp.keyed_ok
        members_ok := hmembers _ _ hp.members_ok
        contentChecked := fun holds hm => hp.contentChecked holds (h.contentChecks.mem hm) }⟩

end Rules

namespace Schema

/-- The rules are relaxed at any nodes of the tree; `inner` relates the schemas right inside. -/
inductive RelaxedTo : Schema → Schema → Prop where
  | intro {s t : Schema} (inner : Schema → Schema → Prop) (type : t.type = s.type)
      (rules : s.rules.RelaxedTo t.rules s.type) (options : SameOptions inner s t)
      (below : ∀ a b, inner a b → RelaxedTo a b) : RelaxedTo s t

theorem RelaxedTo.node {s t : Schema} (type : t.type = s.type)
    (rules : s.rules.RelaxedTo t.rules s.type) (options : SameOptions RelaxedTo s t) :
    s.RelaxedTo t :=
  .intro RelaxedTo type rules options fun _ _ h => h

theorem RelaxedTo.leaf {type : SchemaType} {strict loose : Rules}
    (h : strict.RelaxedTo loose type) :
    RelaxedTo { type := type, rules := strict } { type := type, rules := loose } :=
  .node rfl h ⟨.none, .none, .none⟩

/-- If a schema compiles, so does a relaxed one, and it gives every result that the first gives. -/
theorem cast_of_relaxed {s t : Schema} (h : s.RelaxedTo t) {c : Descriptor}
    (hc : s.compile = .ok c) :
    ∃ d, t.compile = .ok d ∧ ∀ input w, c.cast input = .ok w → d.cast input = .ok w := by
  induction h generalizing c with
  | @intro s t inner type rules options _ ih =>
    -- A type that is coerced in the relaxed schema alone is one of the three builtin ones.
    have hcastable (hcasts : t.rules.casts = true) : t.type.descriptor.isCastable = true := by
      rw [type]
      rcases rules.casts with hsame | ⟨_, b, htype, hb⟩
      · obtain ⟨_, _, _, hcan, _, _⟩ := compile_ok hc
        exact hcan (hsame.symm.trans hcasts)
      · rw [htype]
        rcases hb with rfl | rfl | rfl
        · rfl
        · rfl
        · rfl
    obtain ⟨keys?, contents, others?, others, rfl, ht, hkeys, hcontents⟩ :=
      options.compile (q := Descriptor.ExtendedBy) (fun option ho => type ▸ ho)
        (fun _ _ _ hcast => hcast) (fun a b hab c hc => ih a b hab hc) hcastable hc
    refine ⟨_, ht, ?_⟩
    rw [Descriptor.cast_validator, Descriptor.cast_validator, type]
    exact rules.apply (fun v w => Descriptor.castKeys_extended hkeys)
      (fun v w => Descriptor.castContents_extended hcontents)

/-- Profiles have a name of at most eight characters, scores under names, and flags. -/
def profiles : Schema where
  type := .builtin .record
  rules := { checks := [fun v => (v.field? "name").isSome] }
  keys? := some (.declared { type := .builtin .text })
  entries? := some [
    ("name", .declared {
      type := .builtin .text
      rules := { valueChecks := [fun v => v.text?.any (·.length ≤ 8)] } }),
    ("scores", .declared {
      type := .builtin .map
      keys? := some (.declared { type := .builtin .text })
      values? := some (.declared { type := .builtin .number }) }),
    ("flags", .declared {
      type := .builtin .set
      values? := some (.declared { type := .builtin .boolean }) })]

/-- Profiles without scores are profiles, names are as long as they like, and other values become
keys of scores, numbers and flags. -/
def lenientProfiles : Schema where
  type := .builtin .record
  keys? := some (.declared { type := .builtin .text })
  entries? := some [
    ("name", .declared { type := .builtin .text }),
    ("scores", .declared {
      type := .builtin .map
      rules := { optional := true }
      keys? := some (.declared { type := .builtin .text, rules := { casts := true } })
      values? := some (.declared { type := .builtin .number, rules := { casts := true } }) }),
    ("flags", .declared {
      type := .builtin .set
      values? := some (.declared { type := .builtin .boolean, rules := { casts := true } }) })]

theorem profiles_relaxed : profiles.RelaxedTo lenientProfiles := by
  have same (type : SchemaType) (rules : Rules) : rules.RelaxedTo rules type :=
    ⟨.inl rfl, .inl rfl, rfl, .refl _, .refl _, .refl _⟩
  have coerced {b : Builtin} (hb : b = .text ∨ b = .number ∨ b = .boolean) :
      RelaxedTo { type := .builtin b } { type := .builtin b, rules := { casts := true } } :=
    .leaf ⟨.inr ⟨rfl, b, rfl, hb⟩, .inl rfl, rfl, .refl _, .refl _, .refl _⟩
  have name : RelaxedTo
      { type := .builtin .text
        rules := { valueChecks := [fun v => v.text?.any (·.length ≤ 8)] } }
      { type := .builtin .text } :=
    .leaf ⟨.inl rfl, .inl rfl, rfl, .refl _, List.nil_sublist _, .refl _⟩
  refine .node rfl ⟨.inl rfl, .inl rfl, rfl, List.nil_sublist _, .refl _, .refl _⟩
    ⟨.some (.declared (.leaf (same _ _))), .none, .some ?_⟩
  refine .cons ⟨rfl, .declared name⟩ (.cons ⟨rfl, .declared ?_⟩ (.cons ⟨rfl, .declared ?_⟩ .nil))
  · exact .node rfl ⟨.inl rfl, .inr rfl, rfl, .refl _, .refl _, .refl _⟩
      ⟨.some (.declared (coerced (.inl rfl))), .some (.declared (coerced (.inr (.inl rfl)))), .none⟩
  · exact .node rfl (same _ _) ⟨.none, .some (.declared (coerced (.inr (.inr rfl)))), .none⟩

def profile : Value :=
  .ofFields [("name", .text "ada"), ("flags", .ofMembers [.bool true, .bool false]),
    ("scores", .ofEntries [(.text "x", .number .zero), (.text "y", .number .infinity)])]

theorem profiles_cast_alike : ∃ c d, profiles.compile = .ok c ∧
    profiles.RelaxedTo lenientProfiles ∧ lenientProfiles.compile = .ok d ∧
    c.cast (some profile) = .ok profile ∧ d.cast (some profile) = .ok profile := by
  obtain ⟨d, hd, hcast⟩ := cast_of_relaxed profiles_relaxed rfl
  exact ⟨_, d, rfl, profiles_relaxed, hd, rfl, hcast _ _ rfl⟩

end Schema

end SchemaCast
