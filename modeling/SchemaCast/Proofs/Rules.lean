import SchemaCast.Caster.Rules
import SchemaCast.Proofs.Traversal

namespace SchemaCast

namespace Rules

variable {rules : Rules} {cast : Caster} {test : Value → Except Misuse Bool}
  {keys members : Value → CastResult Value} {input : Option Value} {v w : Value} {e : CastError}

theorem check_eq_ok (predicates : List Predicate) (v : Value) (u : Unit) :
    check predicates v = .ok u ↔ ∀ holds ∈ predicates, holds v = true := by
  unfold check
  split <;> simp_all [reject]

theorem eq_of_check_error {predicates : List Predicate} (h : check predicates v = .error e) :
    e = .rejected (.invalidValue v) := by
  unfold check at h
  split at h
  · simp at h
  · simpa [reject] using h.symm

theorem given?_ne_null (h : rules.given? input = some v) : v ≠ .null := by
  unfold given? at h
  split at h
  · simp at h
  · rename_i hn
    rintro rfl
    exact hn h

@[simp]
theorem given?_null : rules.given? (some .null) = none := rfl

theorem eq_null_of_given? (h : rules.given? (some v) = none) : v = .null := by
  unfold given? at h
  split at h
  · rename_i hn
    exact Option.some.inj hn
  · simp at h

theorem eq_of_given? {u : Value} (h : rules.given? (some v) = some u) : u = v := by
  unfold given? at h
  split at h
  · simp at h
  · exact (Option.some.inj h).symm

theorem given?_absent (hd : rules.default? = none) : rules.given? none = none := by
  simp [given?, hd]

theorem given?_some (hv : v ≠ .null) : rules.given? (some v) = some v := by
  cases v <;> first | rfl | contradiction

theorem throughType_ok (h : rules.throughType cast test v = .ok w) :
    (rules.casts = true ∧ cast (some v) = .ok w) ∨
    (rules.casts = false ∧ test v = .ok true ∧ w = v) := by
  unfold throughType at h
  cases hc : rules.casts with
  | true => exact .inl ⟨rfl, by simpa [hc] using h⟩
  | false =>
    simp only [hc, Bool.false_eq_true, ↓reduceIte] at h
    split at h
    · rename_i ht
      exact .inr ⟨rfl, ht, (Except.ok.inj h).symm⟩
    · simp [reject] at h
    · simp at h

theorem throughType_error (h : rules.throughType cast test v = .error e) :
    (rules.casts = true ∧ cast (some v) = .error e) ∨
    (rules.casts = false ∧ e = .rejected (.invalidValue v)) ∨
    (rules.casts = false ∧ ∃ m, test v = .error m ∧ e = .misused m) := by
  unfold throughType at h
  cases hc : rules.casts with
  | true => exact .inl ⟨rfl, by simpa [hc] using h⟩
  | false =>
    simp only [hc, Bool.false_eq_true, ↓reduceIte] at h
    split at h
    · simp at h
    · exact .inr (.inl ⟨rfl, (Except.error.inj h).symm⟩)
    · rename_i m ht
      exact .inr (.inr ⟨rfl, m, ht, (Except.error.inj h).symm⟩)

/-- A value passes all stages: its type makes it `typed`, its keys are cast to give `keyed`, and
its members to give `w`. -/
structure Passes (rules : Rules) (cast : Caster) (test : Value → Except Misuse Bool)
    (keys members : Value → CastResult Value) (v typed keyed w : Value) : Prop where
  typed_ok : rules.throughType cast test v = .ok typed
  checked : ∀ holds ∈ rules.checks ++ rules.valueChecks, holds typed = true
  keyed_ok : keys typed = .ok keyed
  members_ok : members keyed = .ok w
  contentChecked : ∀ holds ∈ rules.contentChecks, holds w = true

/-- The stages at which a cast can fail, with the failure. -/
inductive Fails (rules : Rules) (cast : Caster) (test : Value → Except Misuse Bool)
    (keys members : Value → CastResult Value) (input : Option Value) : CastError → Prop where
  | missing (absent : rules.given? input = none) (required : rules.optional = false) :
    Fails rules cast test keys members input (.rejected .missingValue)
  | type {v : Value} {e : CastError} (given : rules.given? input = some v)
      (failed : rules.throughType cast test v = .error e) :
    Fails rules cast test keys members input e
  | check {v typed : Value} (given : rules.given? input = some v)
      (passed : rules.throughType cast test v = .ok typed) :
    Fails rules cast test keys members input (.rejected (.invalidValue typed))
  | keys {v typed : Value} {e : CastError} (given : rules.given? input = some v)
      (passed : rules.throughType cast test v = .ok typed) (failed : keys typed = .error e) :
    Fails rules cast test keys members input e
  | members {v typed keyed : Value} {e : CastError} (given : rules.given? input = some v)
      (passed : rules.throughType cast test v = .ok typed) (renamed : keys typed = .ok keyed)
      (failed : members keyed = .error e) :
    Fails rules cast test keys members input e
  | contentCheck {v typed keyed w : Value} (given : rules.given? input = some v)
      (passed : rules.throughType cast test v = .ok typed) (renamed : keys typed = .ok keyed)
      (filled : members keyed = .ok w) :
    Fails rules cast test keys members input (.rejected (.invalidValue w))

theorem apply_eq_ok :
    rules.apply cast test keys members input = .ok w ↔
      (rules.given? input = none ∧ rules.optional = true ∧ w = .null) ∨
      ∃ v typed keyed, rules.given? input = some v ∧
        rules.Passes cast test keys members v typed keyed w := by
  unfold apply
  cases hg : rules.given? input with
  | none => cases ho : rules.optional <;> simp [reject, eq_comm]
  | some v =>
    simp only [except_bind_eq_ok, except_pure_eq_ok, reduceCtorEq, false_and, false_or,
      Option.some.injEq]
    constructor
    · rintro ⟨typed, ht, _, hc, keyed, hk, w, hm, _, hcc, rfl⟩
      exact ⟨v, typed, keyed, rfl, ht, (check_eq_ok ..).mp hc, hk, hm, (check_eq_ok ..).mp hcc⟩
    · rintro ⟨_, typed, keyed, rfl, ht, hc, hk, hm, hcc⟩
      exact ⟨typed, ht, (), (check_eq_ok ..).mpr hc, keyed, hk, w, hm, (),
        (check_eq_ok ..).mpr hcc, rfl⟩

/-- Where the type is only tested, and neither keys nor members change, a value stays as it is. -/
theorem eq_of_apply (hcasts : rules.casts = false) (hkeys : ∀ k, keys v = .ok k → k = v)
    (hmembers : ∀ m, members v = .ok m → m = v)
    (h : rules.apply cast test keys members (some v) = .ok w) : w = v := by
  rcases apply_eq_ok.mp h with ⟨hg, _, rfl⟩ | ⟨u, typed, keyed, hg, hp⟩
  · exact (eq_null_of_given? hg).symm
  · obtain rfl := eq_of_given? hg
    obtain rfl : typed = u := by
      rcases throughType_ok hp.typed_ok with ⟨hc, _⟩ | ⟨_, _, ht⟩
      · simp [hcasts] at hc
      · exact ht
    obtain rfl := hkeys _ hp.keyed_ok
    exact hmembers _ hp.members_ok

/-- A default is cast as it would be if it were supplied. -/
theorem apply_given (h : rules.given? input = some v) :
    rules.apply cast test keys members (some v) = rules.apply cast test keys members input := by
  have hv : rules.given? (some v) = some v := given?_some (given?_ne_null h)
  simp only [apply, h, hv]

/-- Rules that only coerce add nothing around a cast by rules that treat absence in the same way. -/
theorem apply_around (outer : Value → Except Misuse Bool) :
    apply { casts := true, optional := rules.optional, default? := rules.default? }
      (rules.apply cast test keys members) outer .ok .ok = rules.apply cast test keys members := by
  funext input
  have hgiven : given? { casts := true, optional := rules.optional, default? := rules.default? }
    input = rules.given? input := rfl
  cases h : rules.given? input with
  | none => rw [apply, apply, hgiven, h]
  | some v =>
    rw [← apply_given h, apply, hgiven, h]
    cases hcast : rules.apply cast test keys members (some v) with
    | error e => simp [throughType, hcast, bind, Except.bind]
    | ok w => simp [throughType, hcast, check, bind, Except.bind, pure, Except.pure]

theorem apply_error (h : rules.apply cast test keys members input = .error e) :
    rules.Fails cast test keys members input e := by
  unfold apply at h
  cases hg : rules.given? input with
  | none =>
    cases ho : rules.optional with
    | true => simp [hg, ho] at h
    | false =>
      simp only [hg, ho, Bool.false_eq_true, ↓reduceIte, reject, Except.error.injEq] at h
      exact h ▸ .missing hg ho
  | some v =>
    simp only [hg, except_bind_eq_error, except_pure_ne_error, and_false, exists_false,
      or_false] at h
    rcases h with ht | ⟨typed, ht, hc | ⟨_, hc, hk | ⟨keyed, hk, hm | ⟨w, hm, hcc⟩⟩⟩⟩
    · exact .type hg ht
    · exact eq_of_check_error hc ▸ .check hg ht
    · exact .keys hg ht hk
    · exact .members hg ht hk hm
    · exact eq_of_check_error hcc ▸ .contentCheck hg ht hk hm

end Rules

end SchemaCast
