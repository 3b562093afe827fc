import Mathlib.Algebra.Order.Field.Rat
import Mathlib.Data.Rat.Cast.Order
import Mathlib.Order.Monotone.Basic
import Mathlib.Tactic.FieldSimp
import Mathlib.Tactic.Linarith
import Mathlib.Tactic.Positivity
import SchemaCast.Proofs.Nearest

namespace SchemaCast

namespace Number

/-- What a magnitude is worth. Infinity counts as `2 ^ 1024`, the power of two that comes after the
largest double. -/
def worth (m : Nat) : ℚ := (unitsOf m : ℚ) / unitsPerOne

/-- No magnitude is nearer to the value, and if another one is equally near then this one is
even. -/
structure IsNearest (v : ℚ) (m : Nat) : Prop where
  le : m ≤ infinityMagnitude
  nearest : ∀ k ≤ infinityMagnitude, |worth m - v| ≤ |worth k - v|
  even : ∀ k ≤ infinityMagnitude, k ≠ m → |worth k - v| = |worth m - v| → m % 2 = 0

/-- Whether a magnitude is even depends on its significand. -/
theorem add_binades_mod_two (s d : Nat) : (s + d * binade) % 2 = s % 2 := by
  have hbinade : binade = 2 * 2251799813685248 := rfl
  rw [hbinade]
  omega

/-- A significand may also be the power of two at which the next binade begins. -/
theorem unitsOf_carry {s d : Nat} (hle : s ≤ 2 * binade) (hs : binade ≤ s ∨ d = 0) :
    unitsOf (s + d * binade) = s * 2 ^ d := by
  rcases Nat.lt_or_eq_of_le hle with hlt | rfl
  · exact Normal.unitsOf ⟨hlt, hs⟩
  · have h : Normal binade (d + 1) := ⟨by decide, .inl (Nat.le_refl _)⟩
    have hnext : 2 * binade + d * binade = binade + (d + 1) * binade := by ring
    rw [hnext, h.unitsOf]
    ring

theorem strictMono_unitsOf : StrictMono unitsOf := by
  refine strictMono_nat_of_lt_succ fun m => ?_
  obtain ⟨s, d, h, rfl⟩ := exists_normal m
  have hnext : unitsOf (s + 1 + d * binade) = (s + 1) * 2 ^ d :=
    unitsOf_carry h.lt (h.normal.imp_left Nat.le_succ_of_le)
  rw [Nat.add_right_comm, hnext, h.unitsOf]
  exact Nat.mul_lt_mul_of_pos_right (Nat.lt_succ_self s) (Nat.two_pow_pos d)

theorem strictMono_worth : StrictMono worth := by
  intro m k h
  have hpos : (0 : ℚ) < unitsPerOne := by exact_mod_cast unitsPerOne_pos
  exact (div_lt_div_iff_of_pos_right hpos).mpr (by exact_mod_cast strictMono_unitsOf h)

/-- Of two magnitudes that are equally near one is odd, or there is a nearer one between them. -/
theorem IsNearest.unique {v : ℚ} {m k : Nat} (hm : IsNearest v m) (hk : IsNearest v k) : m = k := by
  wlog hlt : m < k generalizing m k
  · by_contra hne
    exact hne (this hk hm (by omega)).symm
  have hequal : |worth k - v| = |worth m - v| :=
    le_antisymm (hk.nearest m hm.le) (hm.nearest k hk.le)
  have hmEven := hm.even k hk.le hlt.ne' hequal
  have hkEven := hk.even m hm.le hlt.ne hequal.symm
  have hlow := strictMono_worth (Nat.lt_succ_self m)
  have hhigh : worth (m + 1) < worth k := strictMono_worth (by omega)
  have hnearest := hm.nearest (m + 1) (by have := hk.le; omega)
  have hmiddle : worth k - v = v - worth m := by
    rcases abs_eq_abs.mp hequal with h | h <;> linarith
  have hself : |worth m - v| = v - worth m := by
    rw [abs_of_nonpos (by linarith), neg_sub]
  rw [hself] at hnearest
  have hinside : |worth (m + 1) - v| < v - worth m := abs_lt.mpr ⟨by linarith, by linarith⟩
  exact absurd hnearest (not_le.mpr hinside)

section

variable {v : ℚ} {low : Nat}

/-- What is at least as large as infinity is worth is rounded to infinity. -/
theorem isNearest_infinity (h : worth infinityMagnitude ≤ v) :
    IsNearest v infinityMagnitude := by
  refine ⟨Nat.le_refl _, fun k hk => ?_, fun _ _ _ _ => by decide⟩
  have hworth := strictMono_worth.monotone hk
  rw [abs_of_nonpos (by linarith), abs_of_nonpos (by linarith)]
  linarith

/-- The magnitude below a value is the nearest one if the next magnitude is not nearer. -/
theorem isNearest_below (hlow : worth low ≤ v) (hle : low ≤ infinityMagnitude)
    (h : v - worth low ≤ worth (low + 1) - v)
    (heven : v - worth low = worth (low + 1) - v → low % 2 = 0) : IsNearest v low := by
  have hself : |worth low - v| = v - worth low := by
    rw [abs_of_nonpos (by linarith), neg_sub]
  refine ⟨hle, fun k _ => ?_, fun k _ hne he => ?_⟩
  · rcases Nat.lt_or_ge low k with hk | hk
    · have hworth := strictMono_worth.monotone (Nat.succ_le_of_lt hk)
      rw [hself, abs_of_nonneg (by linarith)]
      linarith
    · have hworth := strictMono_worth.monotone hk
      rw [hself, abs_of_nonpos (by linarith)]
      linarith
  · rcases Nat.lt_or_gt_of_ne hne with hk | hk
    · have hworth := strictMono_worth hk
      rw [hself, abs_of_nonpos (by linarith)] at he
      linarith
    · have hworth := strictMono_worth.monotone (Nat.succ_le_of_lt hk)
      rw [hself, abs_of_nonneg (by linarith)] at he
      exact heven (by linarith)

/-- The magnitude above a value is the nearest one if the one before it is not nearer. -/
theorem isNearest_above (hhigh : v ≤ worth (low + 1)) (hle : low + 1 ≤ infinityMagnitude)
    (h : worth (low + 1) - v ≤ v - worth low)
    (heven : worth (low + 1) - v = v - worth low → (low + 1) % 2 = 0) :
    IsNearest v (low + 1) := by
  have hself : |worth (low + 1) - v| = worth (low + 1) - v := abs_of_nonneg (by linarith)
  refine ⟨hle, fun k _ => ?_, fun k _ hne he => ?_⟩
  · rcases Nat.lt_or_ge low k with hk | hk
    · have hworth := strictMono_worth.monotone (Nat.succ_le_of_lt hk)
      rw [hself, abs_of_nonneg (by linarith)]
      linarith
    · have hworth := strictMono_worth.monotone hk
      rw [hself, abs_of_nonpos (by linarith)]
      linarith
  · rcases Nat.lt_or_gt_of_ne hne with hk | hk
    · have hworth := strictMono_worth.monotone (Nat.le_of_lt_succ hk)
      rw [hself, abs_of_nonpos (by linarith)] at he
      exact heven (by linarith)
    · have hworth := strictMono_worth hk
      rw [hself, abs_of_nonneg (by linarith)] at he
      linarith

end

/-- Without its last bits beyond the fifty-third, a number of units is a significand. -/
theorem normal_div (q : Nat) : Normal (q / 2 ^ (q.log2 - 52)) (q.log2 - 52) := by
  have hlt : q < 2 ^ (q.log2 + 1) := Nat.lt_log2_self
  have hbinade : binade = 2 ^ 52 := rfl
  rcases Nat.lt_or_ge q.log2 52 with hlog | hlog
  · refine ⟨?_, .inr (by omega)⟩
    have hle : 2 ^ (q.log2 + 1) ≤ 2 ^ 53 := Nat.pow_le_pow_right (by decide) (by omega)
    have hdiv := Nat.div_le_self q (2 ^ (q.log2 - 52))
    omega
  · have hpow (k : Nat) : 2 ^ (q.log2 + k) = 2 ^ (52 + k) * 2 ^ (q.log2 - 52) := by
      rw [← Nat.pow_add]
      congr 1
      omega
    have hq : q ≠ 0 := by
      rintro rfl
      simp at hlog
    refine ⟨?_, .inl ?_⟩
    · refine Nat.div_lt_of_lt_mul ?_
      rw [Nat.mul_comm]
      exact hpow 1 ▸ hlt
    · refine (Nat.le_div_iff_mul_le (Nat.two_pow_pos _)).mpr ?_
      exact hpow 0 ▸ Nat.log2_self_le hq

/-- Where the units of a quotient are divided with a rest, the quotient lies between two
magnitudes, and the rest tells which of them is nearer. -/
theorem between_of_division {a b s d rest : Nat} (hb : 0 < b) (h : Normal s d)
    (hdivision : b * 2 ^ d * s + rest = a * unitsPerOne) (hrest : rest < b * 2 ^ d) :
    worth (s + d * binade) ≤ a / b ∧ (a : ℚ) / b ≤ worth (s + d * binade + 1) ∧
    ((a : ℚ) / b - worth (s + d * binade) < worth (s + d * binade + 1) - a / b ↔
      2 * rest < b * 2 ^ d) ∧
    (worth (s + d * binade + 1) - a / b < a / b - worth (s + d * binade) ↔
      b * 2 ^ d < 2 * rest) := by
  have hscale : (0 : ℚ) < b * unitsPerOne := by exact_mod_cast Nat.mul_pos hb unitsPerOne_pos
  have hdivision : (b * 2 ^ d * s + rest : ℚ) = a * unitsPerOne := by exact_mod_cast hdivision
  have hrest : (rest : ℚ) < b * 2 ^ d := by exact_mod_cast hrest
  have hb : (b : ℚ) ≠ 0 := by exact_mod_cast hb.ne'
  have hone : (unitsPerOne : ℚ) ≠ 0 := by exact_mod_cast unitsPerOne_pos.ne'
  have hnext : unitsOf (s + d * binade + 1) = (s + 1) * 2 ^ d := by
    rw [Nat.add_right_comm]
    exact unitsOf_carry h.lt (h.normal.imp_left Nat.le_succ_of_le)
  have hbelow : (a : ℚ) / b - worth (s + d * binade) = rest / (b * unitsPerOne) := by
    rw [worth, h.unitsOf]
    push_cast
    field_simp
    linarith
  have habove : worth (s + d * binade + 1) - a / b = (b * 2 ^ d - rest) / (b * unitsPerOne) := by
    rw [worth, hnext]
    push_cast
    field_simp
    linarith
  refine ⟨?_, ?_, ?_, ?_⟩
  · exact sub_nonneg.mp (hbelow ▸ div_nonneg (Nat.cast_nonneg rest) hscale.le)
  · exact sub_nonneg.mp (habove ▸ div_nonneg (sub_nonneg.mpr hrest.le) hscale.le)
  · rw [hbelow, habove, div_lt_div_iff_of_pos_right hscale, lt_sub_iff_add_lt, ← two_mul]
    exact_mod_cast Iff.rfl
  · rw [hbelow, habove, div_lt_div_iff_of_pos_right hscale, sub_lt_iff_lt_add, ← two_mul]
    exact_mod_cast Iff.rfl

/-- A quotient is rounded to the magnitude that is nearest to it. -/
theorem isNearest_nearestToQuotient (a : Nat) {b : Nat} (hb : 0 < b) :
    IsNearest ((a : ℚ) / b) (nearestToQuotient a b) := by
  generalize hd : (a * unitsPerOne / b).log2 - 52 = d
  rw [nearestToQuotient_eq hd]
  have hnormal := normal_div (a * unitsPerOne / b)
  rw [hd, Nat.div_div_eq_div_mul] at hnormal
  obtain ⟨hlow, hhigh, hbelow, habove⟩ := between_of_division hb hnormal
    (Nat.div_add_mod (a * unitsPerOne) (b * 2 ^ d))
    (Nat.mod_lt _ (Nat.mul_pos hb (Nat.two_pow_pos d)))
  rw [divideToEven]
  generalize a * unitsPerOne / (b * 2 ^ d) = s at *
  generalize a * unitsPerOne % (b * 2 ^ d) = rest at *
  have hparity := add_binades_mod_two s d
  generalize hl : s + d * binade = low at *
  by_cases hle : low + 1 ≤ infinityMagnitude
  · split
    · rename_i h
      have hlt := hbelow.mpr h
      rw [hl, Nat.min_eq_left (by omega)]
      exact isNearest_below hlow (by omega) hlt.le fun he => absurd he hlt.ne
    · split
      · rename_i h
        have hlt := habove.mpr h
        rw [Nat.add_right_comm, hl, Nat.min_eq_left hle]
        exact isNearest_above hhigh hle hlt.le fun he => absurd he hlt.ne
      · rename_i hnotBelow hnotAbove
        have hhalf := le_antisymm (not_lt.mp (hnotAbove ∘ habove.mp))
          (not_lt.mp (hnotBelow ∘ hbelow.mp))
        rcases Nat.mod_two_eq_zero_or_one s with heven | hodd
        · rw [heven, Nat.add_zero, hl, Nat.min_eq_left (by omega)]
          exact isNearest_below hlow (by omega) hhalf.le fun _ => by omega
        · rw [hodd, Nat.add_right_comm, hl, Nat.min_eq_left hle]
          exact isNearest_above hhigh hle hhalf.ge fun _ => by omega
  · have hworth := strictMono_worth.monotone (show infinityMagnitude ≤ low by omega)
    rw [Nat.min_eq_right]
    · exact isNearest_infinity (hworth.trans hlow)
    · split
      · omega
      · split <;> omega

end Number

namespace Decimal

/-- The value of a decimal number. -/
def value (d : Decimal) : ℚ := d.coefficient * 10 ^ d.exponent

/-- The value as a quotient of whole numbers. -/
theorem value_eq (d : Decimal) : d.value =
    (d.coefficient * 10 ^ d.exponent.toNat : Nat) / (10 ^ (-d.exponent).toNat : Nat) := by
  obtain ⟨c, e⟩ := d
  cases e with
  | ofNat e =>
    simp [value]
  | negSucc e =>
    have hneg : (-Int.negSucc e).toNat = e + 1 := rfl
    have hpos : (Int.negSucc e).toNat = 0 := rfl
    simp only [value, hneg, hpos, zpow_negSucc]
    push_cast
    ring

theorem isNearest_nearestMagnitude (d : Decimal) :
    Number.IsNearest d.value d.nearestMagnitude := by
  rw [value_eq, nearestMagnitude_eq]
  exact Number.isNearest_nearestToQuotient _ (Nat.pow_pos (by decide))

end Decimal

end SchemaCast
