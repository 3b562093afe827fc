import SchemaCast.Proofs.Containers
import SchemaCast.Schema.Basic

namespace SchemaCast

namespace Builtin

variable {b : Builtin} {v w : Value}

theorem toNumber_ok (h : toNumber v = .ok w) : ∃ n, w = .number n ∧ n.isNaN = false := by
  unfold toNumber at h
  dsimp only at h
  split at h
  · rename_i n _
    cases hn : n.isNaN with
    | true => simp [hn, reject] at h
    | false =>
      simp only [hn, Bool.false_eq_true, ↓reduceIte, Except.ok.injEq] at h
      exact ⟨n, h.symm, hn⟩
  · simp [reject] at h

theorem toBoolean_ok (h : toBoolean v = .ok w) : ∃ a, w = .bool a := by
  unfold toBoolean at h
  split at h
  · exact ⟨_, (Except.ok.inj h).symm⟩
  · repeat' split at h
    · exact ⟨true, (Except.ok.inj h).symm⟩
    · exact ⟨false, (Except.ok.inj h).symm⟩
    · simp [reject] at h
  · repeat' split at h
    · exact ⟨true, (Except.ok.inj h).symm⟩
    · exact ⟨false, (Except.ok.inj h).symm⟩
    · simp [reject] at h
  · simp [reject] at h

/-- What a coercion gives. The coercion of `json` gives any value. -/
theorem cast_ok (h : b.type.cast (some v) = .ok w) :
    (b = text ∧ ∃ s, w = .text s) ∨ (b = number ∧ ∃ n, w = .number n ∧ n.isNaN = false) ∨
    (b = boolean ∧ ∃ a, w = .bool a) ∨ b = json := by
  cases b with
  | text => exact .inl ⟨rfl, v.display, (Except.ok.inj h).symm⟩
  | number => exact .inr (.inl ⟨rfl, toNumber_ok h⟩)
  | boolean => exact .inr (.inr (.inl ⟨rfl, toBoolean_ok h⟩))
  | json => exact .inr (.inr (.inr rfl))
  | _ => simp [BaseType.cast, Builtin.type, coerce?] at h

theorem test_of_cast (hb : b ≠ json) (h : b.type.cast (some v) = .ok w) :
    b.type.test w = .ok true := by
  rcases cast_ok h with ⟨rfl, s, rfl⟩ | ⟨rfl, n, rfl, hn⟩ | ⟨rfl, a, rfl⟩ | rfl
  · rfl
  · simp [BaseType.test, Builtin.type, test?, Value.number?, hn]
  · rfl
  · contradiction

theorem toNumber_error {e : CastError} (h : toNumber v = .error e) :
    e = .rejected (.invalidValue v) := by
  unfold toNumber at h
  dsimp only at h
  split at h
  · split at h
    · simpa [reject] using h.symm
    · simp at h
  · simpa [reject] using h.symm

theorem toBoolean_error {e : CastError} (h : toBoolean v = .error e) :
    e = .rejected (.invalidValue v) := by
  unfold toBoolean at h
  split at h
  · simp at h
  · repeat' split at h
    · simp at h
    · simp at h
    · simpa [reject] using h.symm
  · repeat' split at h
    · simp at h
    · simp at h
    · simpa [reject] using h.symm
  · simpa [reject] using h.symm

theorem toJsonValue_error {e : CastError} (h : toJsonValue v = .error e) :
    e = .rejected (.invalidValue v) := by
  unfold toJsonValue at h
  split at h
  · split at h
    · simp at h
    · simpa [reject] using h.symm
  · simpa [reject] using h.symm
  · simp at h

/-- All that a coercion can do besides coercing a value is to reject it. -/
theorem coerce_error {coerce : Value → CastResult Value} (hb : b.coerce? = some coerce)
    {e : CastError} (h : coerce v = .error e) : e = .rejected (.invalidValue v) := by
  cases b with
  | text =>
    obtain rfl := Option.some.inj hb
    simp [toText] at h
  | number =>
    obtain rfl := Option.some.inj hb
    exact toNumber_error h
  | boolean =>
    obtain rfl := Option.some.inj hb
    exact toBoolean_error h
  | json =>
    obtain rfl := Option.some.inj hb
    exact toJsonValue_error h
  | _ => simp [coerce?] at hb

theorem cast_rejected {r : Rejection} (h : b.type.cast (some v) = .error (.rejected r)) :
    r = .invalidValue v := by
  cases hb : b.coerce? with
  | none => simp [BaseType.cast, type, hb] at h
  | some coerce =>
    simp only [BaseType.cast, type, hb] at h
    exact CastError.rejected.inj (coerce_error hb h)

/-- A coerced value is coerced to itself. -/
theorem cast_cast (hb : b ≠ json) (h : b.type.cast (some v) = .ok w) :
    b.type.cast (some w) = .ok w := by
  rcases cast_ok h with ⟨rfl, s, rfl⟩ | ⟨rfl, n, rfl, hn⟩ | ⟨rfl, a, rfl⟩ | rfl
  · rfl
  · simp [BaseType.cast, Builtin.type, coerce?, toNumber, hn]
  · rfl
  · contradiction

/-- A text, number or boolean that the test accepts is coerced to itself. -/
theorem cast_of_test (hb : b = text ∨ b = number ∨ b = boolean)
    (h : b.type.test v = .ok true) : b.type.cast (some v) = .ok v := by
  rcases hb with rfl | rfl | rfl
  · cases v with
    | text s => rfl
    | _ => simp [BaseType.test, Builtin.type, test?, Value.isText] at h
  · cases v with
    | number n =>
      have hn : n.isNaN = false := by
        simpa [BaseType.test, Builtin.type, test?, Value.number?] using h
      simp [BaseType.cast, Builtin.type, coerce?, toNumber, hn]
    | _ => simp [BaseType.test, Builtin.type, test?, Value.number?] at h
  · cases v with
    | bool a => rfl
    | _ => simp [BaseType.test, Builtin.type, test?] at h

theorem test_sameKind (h : v.SameKind w) : b.type.test v = b.type.test w := by
  cases h <;> cases b <;> rfl

theorem ne_null_of_test (hb : b ≠ json) (h : b.type.test v = .ok true) : v ≠ .null := by
  rintro rfl
  cases b <;> contradiction

theorem eq_record_of_test (hb : b.coerce? = none) {m : OrderedMap String Value}
    (h : b.type.test (.record m) = .ok true) : b = record := by
  cases b with
  | record => rfl
  | text | number | boolean | json => simp [coerce?] at hb
  | _ => simp [BaseType.test, Builtin.type, test?, Value.list?, Value.set?, Value.map?] at h

end Builtin

end SchemaCast
