import Mathlib.Data.Nat.Log
import Mathlib.Tactic.Ring
import SchemaCast.Number.Shortest

namespace SchemaCast

namespace Number

theorem binade_pos : 0 < binade := by decide

theorem unitsPerOne_eq : unitsPerOne = 2 ^ 1074 := by decide +kernel

theorem unitsPerOne_pos : 0 < unitsPerOne := by decide +kernel

/-- A significand below `2 ^ 53` and a number of doublings make up a magnitude; only without
doublings may the significand be below `2 ^ 52`. -/
structure Normal (significand doublings : Nat) : Prop where
  lt : significand < 2 * binade
  normal : binade ≤ significand ∨ doublings = 0

theorem exists_normal (m : Nat) : ∃ s d, Normal s d ∧ m = s + d * binade := by
  have hdiv := Nat.div_add_mod m binade
  have hmod := Nat.mod_lt m binade_pos
  rw [Nat.mul_comm] at hdiv
  cases hd : m / binade with
  | zero =>
    rw [hd] at hdiv
    exact ⟨m, 0, ⟨by omega, .inr rfl⟩, by omega⟩
  | succ d =>
    rw [hd, Nat.succ_mul] at hdiv
    exact ⟨m % binade + binade, d, ⟨by omega, .inl (by omega)⟩, by omega⟩

section

variable {s d : Nat}

theorem Normal.unitsOf (h : Normal s d) : unitsOf (s + d * binade) = s * 2 ^ d := by
  have hd : (s + d * binade) / binade - 1 = d := by
    rw [Nat.add_mul_div_right _ _ binade_pos]
    rcases h.normal with hs | rfl
    · have : s / binade = 1 := Nat.div_eq_of_lt_le (by omega) h.lt
      omega
    · have : s / binade < 2 := Nat.div_lt_of_lt_mul (by have := h.lt; omega)
      omega
  simp only [Number.unitsOf, hd, Nat.add_sub_cancel]
  rfl

theorem Normal.log2 (h : Normal s d) : (s * 2 ^ d).log2 - 52 = d := by
  rcases h.normal with hs | rfl
  · have hpos : s * 2 ^ d ≠ 0 := by
      have := binade_pos
      have := Nat.two_pow_pos d
      exact Nat.mul_ne_zero (by omega) (by omega)
    have hlog : (s * 2 ^ d).log2 = 52 + d := by
      refine (Nat.log2_eq_iff hpos).mpr ⟨?_, ?_⟩
      · rw [Nat.pow_add]
        exact Nat.mul_le_mul_right _ hs
      · have : 2 ^ (52 + d + 1) = 2 * binade * 2 ^ d := by
          rw [Nat.pow_succ, Nat.pow_add, Nat.mul_comm, ← Nat.mul_assoc]
          rfl
        rw [this]
        exact Nat.mul_lt_mul_of_pos_right h.lt (Nat.two_pow_pos d)
    omega
  · rw [Nat.pow_zero, Nat.mul_one]
    by_cases hs : s = 0
    · simp [hs]
    · have := (Nat.log2_lt hs).mpr (show s < 2 ^ 53 from h.lt)
      omega

end

theorem unitsOf_eq_zero {m : Nat} : unitsOf m = 0 ↔ m = 0 := by
  obtain ⟨s, d, h, rfl⟩ := exists_normal m
  rw [h.unitsOf, Nat.mul_eq_zero, or_iff_left (Nat.two_pow_pos d).ne']
  constructor
  · rintro rfl
    rcases h.normal with hs | rfl
    · exact absurd binade_pos (by omega)
    · rw [Nat.zero_mul]
  · omega

/-- Rounding to a whole number depends on the value of the quotient alone. -/
theorem divideToEven_mul_right (a b : Nat) {k : Nat} (hk : 0 < k) :
    divideToEven (a * k) (b * k) = divideToEven a b := by
  have hquotient : a * k / (b * k) = a / b := Nat.mul_div_mul_right a b hk
  have hremainder : a * k % (b * k) = a % b * k := Nat.mul_mod_mul_right k a b
  have hbelow : 2 * (a % b * k) < b * k ↔ 2 * (a % b) < b := by
    rw [← Nat.mul_assoc]
    exact Nat.mul_lt_mul_right hk
  have habove : b * k < 2 * (a % b * k) ↔ b < 2 * (a % b) := by
    rw [← Nat.mul_assoc]
    exact Nat.mul_lt_mul_right hk
  simp only [divideToEven, hquotient, hremainder, hbelow, habove]

theorem divideToEven_one (a : Nat) : divideToEven a 1 = a := by
  simp [divideToEven, Nat.mod_one]

theorem div_le_divideToEven (a b : Nat) : a / b ≤ divideToEven a b := by
  dsimp only [divideToEven]
  split
  · exact Nat.le_refl _
  · split
    · exact Nat.le_succ _
    · exact Nat.le_add_right ..

theorem nearestToQuotient_eq {a b doublings : Nat}
    (h : (a * unitsPerOne / b).log2 - 52 = doublings) :
    nearestToQuotient a b =
      min (divideToEven (a * unitsPerOne) (b * 2 ^ doublings) + doublings * binade)
        infinityMagnitude := by
  rw [← h]
  rfl

/-- Rounding to a double depends on the value of the quotient alone. -/
theorem nearestToQuotient_mul_right (a b : Nat) {k : Nat} (hk : 0 < k) :
    nearestToQuotient (a * k) (b * k) = nearestToQuotient a b := by
  have hscaled : a * k * unitsPerOne = a * unitsPerOne * k := Nat.mul_right_comm ..
  have hquotient : a * unitsPerOne * k / (b * k) = a * unitsPerOne / b :=
    Nat.mul_div_mul_right _ _ hk
  simp only [nearestToQuotient, hscaled, hquotient, Nat.mul_right_comm b k,
    divideToEven_mul_right _ _ hk]

/-- A double is rounded to itself. -/
theorem nearestToQuotient_unitsOf {m : Nat} (h : m ≤ infinityMagnitude) :
    nearestToQuotient (unitsOf m) unitsPerOne = m := by
  obtain ⟨s, d, hn, rfl⟩ := exists_normal m
  have hquotient : s * 2 ^ d * unitsPerOne / unitsPerOne = s * 2 ^ d :=
    Nat.mul_div_cancel _ unitsPerOne_pos
  have hdivide : divideToEven (s * 2 ^ d * unitsPerOne) (unitsPerOne * 2 ^ d) = s := by
    have hrw : s * 2 ^ d * unitsPerOne = s * (unitsPerOne * 2 ^ d) := by ring
    have hone := divideToEven_mul_right s 1 (k := unitsPerOne * 2 ^ d)
      (Nat.mul_pos unitsPerOne_pos (Nat.two_pow_pos d))
    rw [Nat.one_mul, divideToEven_one] at hone
    rw [hrw, hone]
  rw [hn.unitsOf, nearestToQuotient_eq (by rw [hquotient, hn.log2]), hdivide, Nat.min_eq_left h]

theorem nearestToQuotient_zero (b : Nat) : nearestToQuotient 0 b = 0 := by
  simp [nearestToQuotient, divideToEven]

/-- From `2 ^ 1024` on there are no finite doubles. -/
theorem nearestToQuotient_of_large {a b : Nat} (hb : 0 < b) (h : b * 2 ^ 1024 ≤ a) :
    nearestToQuotient a b = infinityMagnitude := by
  have hscaled : 2 ^ 2098 ≤ a * unitsPerOne / b := by
    refine (Nat.le_div_iff_mul_le hb).mpr ?_
    calc 2 ^ 2098 * b = b * 2 ^ 1024 * 2 ^ 1074 := by
          rw [Nat.mul_comm, Nat.mul_assoc, ← Nat.pow_add]
      _ ≤ a * 2 ^ 1074 := Nat.mul_le_mul_right _ h
      _ = a * unitsPerOne := by rw [unitsPerOne_eq]
  have hne : a * unitsPerOne / b ≠ 0 := by
    have := Nat.two_pow_pos 2098
    omega
  have hlog := (Nat.le_log2 hne).mpr hscaled
  generalize hd : (a * unitsPerOne / b).log2 - 52 = d at *
  have hsignificand : binade ≤ divideToEven (a * unitsPerOne) (b * 2 ^ d) := by
    refine Nat.le_trans ?_ (div_le_divideToEven ..)
    rw [← Nat.div_div_eq_div_mul]
    refine (Nat.le_div_iff_mul_le (Nat.two_pow_pos d)).mpr ?_
    have hself := Nat.log2_self_le hne
    have hexp : (a * unitsPerOne / b).log2 = 52 + d := by omega
    rw [hexp, Nat.pow_add] at hself
    exact hself
  have hdoublings : 2046 * binade ≤ d * binade := Nat.mul_le_mul_right _ (by omega)
  have hinfinity : infinityMagnitude = 2046 * binade + binade := by decide
  rw [nearestToQuotient_eq hd]
  exact Nat.min_eq_right (by omega)

/-- What is less than half a unit is rounded to zero. -/
theorem nearestToQuotient_of_small {a b : Nat} (h : 2 * (a * unitsPerOne) < b) :
    nearestToQuotient a b = 0 := by
  have hlt : a * unitsPerOne < b := by omega
  have hlog : (a * unitsPerOne / b).log2 - 52 = 0 := by
    rw [Nat.div_eq_of_lt hlt, Nat.log2_zero]
  have hdivide : divideToEven (a * unitsPerOne) (b * 2 ^ 0) = 0 := by
    rw [Nat.pow_zero, Nat.mul_one, divideToEven]
    simp only [Nat.div_eq_of_lt hlt, Nat.mod_eq_of_lt hlt, if_pos h]
  rw [nearestToQuotient_eq hlog, hdivide, Nat.zero_mul, Nat.zero_min]

end Number

namespace Decimal

/-- Both bounds on the exponent only keep the powers of ten small. -/
theorem nearestMagnitude_eq (d : Decimal) :
    d.nearestMagnitude = Number.nearestToQuotient (d.coefficient * 10 ^ d.exponent.toNat)
      (10 ^ (-d.exponent).toNat) := by
  obtain ⟨c, e⟩ := d
  by_cases hc : c = 0
  · simp [nearestMagnitude, hc, Number.nearestToQuotient_zero]
  · rw [nearestMagnitude, if_neg hc]
    cases e with
    | ofNat e =>
      have hneg : (-Int.ofNat e).toNat = 0 := by simp
      dsimp only
      rw [hneg, Nat.pow_zero]
      change _ = Number.nearestToQuotient (c * 10 ^ e) 1
      split
      · rename_i he
        refine (Number.nearestToQuotient_of_large Nat.one_pos ?_).symm
        calc 1 * 2 ^ 1024 ≤ 10 ^ 401 := by decide +kernel
          _ ≤ 10 ^ e := Nat.pow_le_pow_right (by decide) he
          _ ≤ c * 10 ^ e := Nat.le_mul_of_pos_left _ (Nat.pos_of_ne_zero hc)
      · rfl
    | negSucc e =>
      have hneg : (-Int.negSucc e).toNat = e + 1 := rfl
      have hpos : (Int.negSucc e).toNat = 0 := rfl
      dsimp only
      rw [hneg, hpos, Nat.pow_zero, Nat.mul_one]
      split
      · rename_i he
        refine (Number.nearestToQuotient_of_small ?_).symm
        have htwo : 2 * Number.unitsPerOne = 2 ^ 1075 := by decide +kernel
        calc 2 * (c * Number.unitsPerOne) = c * 2 ^ 1075 := by rw [Nat.mul_left_comm, htwo]
          _ < 2 ^ (c.log2 + 1) * 2 ^ 1075 :=
            Nat.mul_lt_mul_of_pos_right Nat.lt_log2_self (by decide +kernel)
          _ = 2 ^ (c.log2 + 1 + 1075) := by rw [← Nat.pow_add]
          _ ≤ 2 ^ (3 * (e + 1)) := Nat.pow_le_pow_right (by decide) (by omega)
          _ = 8 ^ (e + 1) := by rw [Nat.pow_mul]
          _ ≤ 10 ^ (e + 1) := Nat.pow_le_pow_left (by decide) _
      · rfl

/-- A power of ten may stand in the coefficient or in the exponent. -/
theorem nearestMagnitude_mul_pow (c k : Nat) (e : Int) :
    nearestMagnitude ⟨c * 10 ^ k, e⟩ = nearestMagnitude ⟨c, e + k⟩ := by
  simp only [nearestMagnitude_eq]
  -- The factor that the two quotients differ by.
  have hshift (a b n : Nat) : Number.nearestToQuotient (a * 10 ^ n) (b * 10 ^ n) =
      Number.nearestToQuotient a b :=
    Number.nearestToQuotient_mul_right a b (Nat.pow_pos (by decide))
  obtain ⟨n, h⟩ : ∃ n, k + e.toNat = (e + k).toNat + n ∧ (-e).toNat = (-(e + k)).toNat + n :=
    ⟨k + e.toNat - (e + k).toNat, by omega⟩
  rw [Nat.mul_assoc, ← Nat.pow_add, h.1, h.2, Nat.pow_add, Nat.pow_add, ← Nat.mul_assoc, hshift]

theorem nearestMagnitude_exact {m : Nat} (h : m ≤ Number.infinityMagnitude) :
    (exact m).nearestMagnitude = m := by
  have hpos : (-1074 : Int).toNat = 0 := rfl
  have hneg : (-(-1074) : Int).toNat = 1074 := rfl
  rw [nearestMagnitude_eq, exact, hpos, hneg, Nat.pow_zero, Nat.mul_one]
  have hten : (10 : Nat) ^ 1074 = Number.unitsPerOne * Nat.pow 5 1074 := by decide +kernel
  have hfive : 0 < Nat.pow 5 1074 := by decide +kernel
  dsimp only
  rw [hten, Number.nearestToQuotient_mul_right _ _ hfive, Number.nearestToQuotient_unitsOf h]

theorem nearestMagnitude_of_readingBack? {tie : Tie} {m offset step : Nat} {lower upper d : Decimal}
    (h : readingBack? tie m lower upper offset step = some d) : d.nearestMagnitude = m := by
  unfold readingBack? at h
  split at h
  case h_1 hlower _ => exact Option.some.inj h ▸ beq_iff_eq.mp hlower
  case h_2 _ hupper => exact Option.some.inj h ▸ beq_iff_eq.mp hupper
  case h_3 => cases h
  case h_4 hlower hupper =>
    have hd : d = lower ∨ d = upper := by grind
    rcases hd with rfl | rfl
    · exact beq_iff_eq.mp hlower
    · exact beq_iff_eq.mp hupper

/-- The shortest decimal number for a double is rounded to that double. -/
theorem nearestMagnitude_shortest {tie : Tie} {m : Nat} (h : m ≤ Number.infinityMagnitude) :
    (shortest tie m).nearestMagnitude = m := by
  dsimp only [shortest]
  generalize hd : List.findSome? _ _ = d?
  cases d? with
  | none => exact nearestMagnitude_exact h
  | some d =>
    obtain ⟨digits, _, hdigits⟩ := List.exists_of_findSome?_eq_some hd
    exact nearestMagnitude_of_readingBack? hdigits

end Decimal

namespace Number

/-- A number is its sign and its magnitude. -/
theorem ofMagnitude_eq_self (n : Number) : ofMagnitude n.isNegative n.magnitude = n := by
  obtain ⟨bits⟩ := n
  have hbits := bits.toNat_lt
  have hsign : signBit = 2 ^ 63 := rfl
  rw [ofMagnitude, magnitude, isNegative, mk.injEq, ← UInt64.toNat_inj, UInt64.toNat_ofNat']
  rw [hsign]
  by_cases h : 2 ^ 63 ≤ bits.toNat
  · rw [if_pos (by simpa using h)]
    dsimp only
    omega
  · rw [if_neg (by simpa using h)]
    dsimp only
    omega

variable {n : Number}

theorem magnitude_le_of_isFinite (h : n.isFinite = true) : n.magnitude ≤ infinityMagnitude :=
  Nat.le_of_lt (by simpa [isFinite] using h)

theorem units_eq_zero (n : Number) : n.units = 0 ↔ n.isZero = true := by
  rw [units, unitsOf_eq_zero, isZero, beq_iff_eq]

/-- A whole number of absolute value below `2 ^ 53` is worth so many units. -/
theorem wholeNumber?_eq_some {i : Int} (h : n.wholeNumber? = some i) :
    n.isFinite = true ∧ n.units = i.natAbs * unitsPerOne ∧ i.natAbs < 2 * binade ∧
      i = if n.isNegative then -(i.natAbs : Int) else i.natAbs := by
  rw [wholeNumber?] at h
  simp only [Option.ite_none_right_eq_some, Bool.and_eq_true, beq_iff_eq, decide_eq_true_eq,
    Option.some.injEq] at h
  obtain ⟨⟨⟨hfinite, hmod⟩, hlt⟩, hi⟩ := h
  obtain ⟨whole, hunits⟩ := Nat.dvd_of_mod_eq_zero hmod
  have hwhole : n.units / unitsPerOne = whole := by
    rw [hunits, Nat.mul_div_cancel_left _ unitsPerOne_pos]
  rw [hwhole] at hlt hi
  have habs : i.natAbs = whole := by
    rw [← hi]
    split <;> simp
  rw [habs, hunits, Nat.mul_comm]
  exact ⟨hfinite, rfl, hlt, hi.symm⟩

/-- Whole numbers below `2 ^ 53` are rounded to themselves. -/
theorem nearestToQuotient_wholeNumber? {i : Int} (h : n.wholeNumber? = some i) :
    nearestToQuotient i.natAbs 1 = n.magnitude := by
  obtain ⟨hfinite, hunits, _⟩ := wholeNumber?_eq_some h
  rw [← nearestToQuotient_mul_right _ _ unitsPerOne_pos, ← hunits, Nat.one_mul, units,
    nearestToQuotient_unitsOf (magnitude_le_of_isFinite hfinite)]

theorem wholeNumber?_eq_zero {i : Int} (h : n.wholeNumber? = some i) :
    i = 0 ↔ n.isZero = true := by
  obtain ⟨_, hunits, _⟩ := wholeNumber?_eq_some h
  rw [← units_eq_zero, hunits, Nat.mul_eq_zero, or_iff_left unitsPerOne_pos.ne',
    Int.natAbs_eq_zero]

theorem ofInt_eq (i : Int) :
    ofInt i = ofMagnitude (decide (i < 0)) (nearestToQuotient i.natAbs 1) := by
  rw [ofInt, Decimal.nearest, Decimal.nearestMagnitude_eq]
  simp

/-- Taken as an integer and back, a whole number below `2 ^ 53` stays what it is, but for the sign
of zero. -/
theorem ofInt_wholeNumber? {i : Int} (h : n.wholeNumber? = some i) :
    ofInt i = if n.isZero then zero else n := by
  obtain ⟨_, _, _, hi⟩ := wholeNumber?_eq_some h
  rw [ofInt_eq, nearestToQuotient_wholeNumber? h]
  by_cases hzero : n.isZero = true
  · obtain rfl := (wholeNumber?_eq_zero h).mpr hzero
    have : n.magnitude = 0 := by simpa [isZero] using hzero
    rw [if_pos hzero, this]
    rfl
  · have hne : i ≠ 0 := fun he => hzero ((wholeNumber?_eq_zero h).mp he)
    have hsign : decide (i < 0) = n.isNegative := by
      cases hn : n.isNegative with
      | false =>
        rw [hn, if_neg Bool.false_ne_true] at hi
        exact decide_eq_false (by omega)
      | true =>
        rw [hn, if_pos rfl] at hi
        exact decide_eq_true (by omega)
    rw [if_neg hzero, hsign, ofMagnitude_eq_self]

end Number

end SchemaCast
