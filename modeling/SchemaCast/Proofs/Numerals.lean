import Mathlib.Data.List.TakeWhile
import SchemaCast.Proofs.Canonical

namespace SchemaCast

namespace Decimal

theorem ofDigits_eq (digits : List Char) : ofDigits digits = Nat.ofDigitChars 10 digits 0 := by
  rw [ofDigits, Nat.ofDigitChars]
  congr 1
  funext value c
  rw [Nat.mul_comm, digitValue]

theorem ofDigits_toDigits (n : Nat) : ofDigits (Nat.toDigits 10 n) = n := by
  rw [ofDigits_eq, Nat.ofDigitChars_ten_toDigits]

theorem ofDigits_append_zeros (digits : List Char) (k : Nat) :
    ofDigits (digits ++ List.replicate k '0') = ofDigits digits * 10 ^ k := by
  rw [ofDigits_eq, ofDigits_eq, Nat.ofDigitChars_append, Nat.ofDigitChars_replicate_zero,
    Nat.mul_comm]

theorem ofDigits_zeros_append (k : Nat) (digits : List Char) :
    ofDigits (List.replicate k '0' ++ digits) = ofDigits digits := by
  rw [ofDigits_eq, ofDigits_eq, Nat.ofDigitChars_append, Nat.ofDigitChars_replicate_zero,
    Nat.mul_zero]

/-- Digits that begin with another one than zero. -/
structure Leading (digits : List Char) : Prop where
  all : ∀ c ∈ digits, c.isDigit = true
  head : ∃ c, digits.head? = some c ∧ c ≠ '0'

theorem leading_toDigits {n : Nat} (h : 0 < n) : Leading (Nat.toDigits 10 n) := by
  refine ⟨fun c hc => Nat.isDigit_of_mem_toDigits (by decide) (by decide) hc, ?_⟩
  induction n using Nat.strong_induction_on with
  | _ n ih =>
    by_cases hlt : n < 10
    · rw [Nat.toDigits_of_lt_base hlt]
      refine ⟨_, rfl, ?_⟩
      exact fun he => h.ne' (Nat.digitChar_eq_zero.mp he)
    · rw [Nat.toDigits_of_base_le (by decide) (by omega)]
      obtain ⟨c, hc, hne⟩ := ih (n / 10) (by omega) (by omega)
      exact ⟨c, by rw [List.head?_append, hc, Option.some_or], hne⟩

/-- The digits before the zeros at the end, and the number of these zeros. -/
theorem trimmedDigits_spec (d : Decimal) :
    ∃ k : Nat, Nat.toDigits 10 d.coefficient = d.trimmedDigits.1 ++ List.replicate k '0' ∧
      d.trimmedDigits.2 = d.exponent + k := by
  have hzeros (cs : List Char) : cs.takeWhile (· == '0') =
      List.replicate (cs.takeWhile (· == '0')).length '0' :=
    List.eq_replicate_of_mem fun c hc => by simpa using List.mem_takeWhile_imp hc
  refine ⟨_, ?_, rfl⟩
  have hsplit := List.takeWhile_append_dropWhile (p := (· == '0'))
    (l := (Nat.toDigits 10 d.coefficient).reverse)
  rw [trimmedDigits, ← List.reverse_replicate, ← hzeros, ← List.reverse_append, hsplit,
    List.reverse_reverse]

theorem leading_trimmedDigits {d : Decimal} (h : 0 < d.coefficient) :
    Leading d.trimmedDigits.1 := by
  obtain ⟨k, hdigits, _⟩ := d.trimmedDigits_spec
  obtain ⟨hall, c, hc, hne⟩ := leading_toDigits h
  rw [hdigits] at hall hc
  refine ⟨fun c hm => hall c (List.mem_append_left _ hm), ?_⟩
  cases hd : d.trimmedDigits.1 with
  | nil =>
    -- Only zeros cannot be the digits of a positive number.
    rw [hd, List.nil_append, List.head?_replicate] at hc
    split at hc
    · cases hc
    · exact absurd (Option.some.inj hc).symm hne
  | cons first rest =>
    rw [hd] at hc
    exact ⟨c, hc, hne⟩

/-- Trimming the digits changes neither the number nor the double that is nearest. -/
theorem nearestMagnitude_trimmedDigits (d : Decimal) :
    nearestMagnitude ⟨ofDigits d.trimmedDigits.1, d.trimmedDigits.2⟩ = d.nearestMagnitude := by
  obtain ⟨k, hdigits, hexponent⟩ := d.trimmedDigits_spec
  rw [hexponent, ← nearestMagnitude_mul_pow, ← ofDigits_append_zeros, ← hdigits, ofDigits_toDigits]

end Decimal

namespace Number

theorem unitsOf_one : unitsOf (1023 * binade) = unitsPerOne := by
  have h : Normal binade 1022 := ⟨by decide, .inl (Nat.le_refl _)⟩
  have hone : 1023 * binade = binade + 1022 * binade := by omega
  rw [hone, h.unitsOf, unitsPerOne_eq]
  decide +kernel

theorem powerOfTen_zero : powerOfTen 0 = 1023 * binade := by
  have hone := nearestToQuotient_mul_right 1 1 unitsPerOne_pos
  have hunits := nearestToQuotient_unitsOf (m := 1023 * binade) (by decide)
  rw [unitsOf_one] at hunits
  rw [Nat.one_mul, hunits] at hone
  exact hone.symm

/-- Multiplying by one changes nothing. -/
theorem product_powerOfTen_zero {m : Nat} (h : m ≤ infinityMagnitude) :
    product m (powerOfTen 0) = m := by
  rw [product, powerOfTen_zero, unitsOf_one,
    nearestToQuotient_mul_right _ _ unitsPerOne_pos, nearestToQuotient_unitsOf h]

end Number

namespace Scaled

theorem le_ofDigitChars (digits : List Char) (start : Nat) :
    start ≤ Nat.ofDigitChars 10 digits start := by
  induction digits generalizing start with
  | nil => exact Nat.le_refl _
  | cons c digits ih =>
    rw [Nat.ofDigitChars_cons]
    exact Nat.le_trans (by omega) (ih _)

theorem extend_of_some {significand extended : UInt64} {digit : Char} {rest : List Char}
    (h : extend? significand digit = some extended) :
    extend significand (digit :: rest) = extend extended rest := by
  rw [extend, h, Option.elim_some]

/-- Digits that sixty-four bits hold are all taken. -/
theorem extend_eq {digits : List Char} {significand : UInt64}
    (h : Nat.ofDigitChars 10 digits significand.toNat < UInt64.size) :
    extend significand digits =
      (UInt64.ofNat (Nat.ofDigitChars 10 digits significand.toNat), []) := by
  induction digits generalizing significand with
  | nil =>
    rw [Nat.ofDigitChars_nil, UInt64.ofNat_toNat]
    rfl
  | cons c digits ih =>
    rw [Nat.ofDigitChars_cons] at h ⊢
    have hlt := Nat.lt_of_le_of_lt (le_ofDigitChars ..) h
    have hvalue : significand.toNat * 10 + Decimal.digitValue c =
        10 * significand.toNat + (c.toNat - '0'.toNat) := by
      rw [Nat.mul_comm, Decimal.digitValue]
    generalize 10 * significand.toNat + (c.toNat - '0'.toNat) = next at h hlt hvalue ⊢
    have hnext : (UInt64.ofNat next).toNat = next := UInt64.toNat_ofNat_of_lt' hlt
    have hextend : extend? significand c = some (UInt64.ofNat next) := by
      rw [extend?, hvalue, if_pos hlt]
    have htail := @ih (UInt64.ofNat next) (hnext.symm ▸ h)
    rw [extend_of_some hextend, htail, hnext]

/-- A significand that is not scaled is rounded once. -/
theorem magnitude_unscaled (significand : UInt64) :
    magnitude ⟨significand, 0⟩ = Number.nearestToQuotient significand.toNat 1 := by
  have hle : Number.nearestToQuotient significand.toNat 1 ≤ Number.infinityMagnitude :=
    Nat.min_le_right ..
  by_cases hzero : significand = 0
  · subst hzero
    exact (Number.nearestToQuotient_zero 1).symm
  · generalize hm : Number.nearestToQuotient significand.toNat 1 = m at hle
    have hraise : raise m 0 = m := by
      rw [raise, if_neg (by decide), Number.product_powerOfTen_zero hle]
    rw [magnitude, hm]
    dsimp only
    rw [if_neg hzero]
    exact hraise

/-- Whole numbers that sixty-four bits hold are read to the nearest double. -/
theorem magnitude_ofParts_toDigits {k : Nat} (h : k < UInt64.size) :
    (ofParts (Nat.toDigits 10 k) [] 0).magnitude = Number.nearestToQuotient k 1 := by
  have hdigits : Nat.ofDigitChars 10 (Nat.toDigits 10 k) (0 : UInt64).toNat = k :=
    Nat.ofDigitChars_ten_toDigits
  have hextend := @extend_eq (Nat.toDigits 10 k) 0 (hdigits.symm ▸ h)
  have hscaled : ofParts (Nat.toDigits 10 k) [] 0 = ⟨UInt64.ofNat k, 0⟩ := by
    rw [ofParts, hextend, hdigits]
    rfl
  rw [hscaled, magnitude_unscaled, UInt64.toNat_ofNat_of_lt' h]

end Scaled

namespace Json

open Decimal (Leading)

/-- What is written of a number: a sign, digits before and after the point, and an exponent. -/
structure Numeral where
  negative : Bool
  whole : List Char
  fraction : List Char
  exponent : Int

namespace Numeral

/-- The number that is written. -/
def decimal (x : Numeral) : Decimal := .ofParts x.whole x.fraction x.exponent

/-- The number as it is read. -/
def scaled (x : Numeral) : Scaled := .ofParts x.whole x.fraction x.exponent

/-- The digits before the point are a zero alone, or begin with another digit. -/
inductive IsWhole : List Char → Prop where
  | zero : IsWhole ['0']
  | leading {digits : List Char} (h : Leading digits) : IsWhole digits

theorem IsWhole.head {whole : List Char} (h : IsWhole whole) :
    ∃ c digits, whole = c :: digits ∧ c.isDigit = true := by
  cases h with
  | zero => exact ⟨_, _, rfl, by decide⟩
  | leading h =>
    obtain ⟨c, hc, _⟩ := h.head
    cases whole with
    | nil => cases hc
    | cons first digits => exact ⟨first, digits, rfl, h.all first List.mem_cons_self⟩

/-- Digits after the point, which is left out with them. -/
inductive Fraction : List Char → List Char → Prop where
  | none : Fraction [] []
  | digits {digits : List Char} (ne_nil : digits ≠ []) (all : ∀ c ∈ digits, c.isDigit = true) :
    Fraction digits ('.' :: digits)

/-- An exponent with its sign, or none. -/
inductive Power : Int → List Char → Prop where
  | none : Power 0 []
  | place (place : Int) :
    Power place ('e' :: (if place < 0 then '-' else '+') :: Nat.toDigits 10 place.natAbs)

/-- The texts of a numeral. -/
inductive Writes : Numeral → List Char → Prop where
  | intro (negative : Bool) {whole fraction point power : List Char} {exponent : Int}
      (isWhole : IsWhole whole) (isFraction : Fraction fraction point)
      (isPower : Power exponent power) :
    Writes ⟨negative, whole, fraction, exponent⟩
      ((if negative then ['-'] else []) ++ (whole ++ point ++ power))

end Numeral

/-- The text that follows cannot belong to a number. -/
def EndsNumber (rest : List Char) : Prop :=
  ∀ c, rest.head? = some c → c.isDigit = false ∧ c ≠ '.' ∧ c ≠ 'e' ∧ c ≠ 'E'

open Numeral

/-- All digits are taken. -/
theorem takeDigits_append {digits rest : List Char} (h : ∀ c ∈ digits, c.isDigit = true)
    (hrest : ∀ c, rest.head? = some c → c.isDigit = false) :
    Number.takeDigits (digits ++ rest) = (digits, rest) := by
  rw [Number.takeDigits, List.takeWhile_append_of_pos h, List.dropWhile_append_of_pos h]
  cases rest with
  | nil => simp
  | cons c rest => simp [hrest c rfl]

theorem takeWhole?_append {whole rest : List Char} (h : IsWhole whole)
    (hrest : ∀ c, rest.head? = some c → c.isDigit = false) :
    takeWhole? (whole ++ rest) = some (whole, rest) := by
  cases h with
  | zero => rfl
  | leading h =>
    have htake := takeDigits_append h.all hrest
    obtain ⟨c, hc, hne⟩ := h.head
    cases whole with
    | nil => cases hc
    | cons first digits =>
      obtain rfl := Option.some.inj hc
      rw [List.cons_append] at htake ⊢
      unfold takeWhole?
      split
      · rename_i he
        exact absurd (List.cons.inj he).1 hne
      · rw [htake]

theorem takeFraction?_append {fraction point rest : List Char} (h : Fraction fraction point)
    (hrest : ∀ c, rest.head? = some c → c.isDigit = false ∧ c ≠ '.') :
    takeFraction? (point ++ rest) = some (fraction, rest) := by
  cases h with
  | none =>
    cases rest with
    | nil => rfl
    | cons c rest => simp [takeFraction?, (hrest c rfl).2]
  | digits ne_nil all =>
    rw [List.cons_append, takeFraction?, takeDigits_append all fun c hc => (hrest c hc).1]
    cases fraction with
    | nil => exact absurd rfl ne_nil
    | cons first digits => rfl

theorem takeExponent?_append {negative : Bool} {digits rest : List Char} (ne_nil : digits ≠ [])
    (all : ∀ c ∈ digits, c.isDigit = true)
    (hrest : ∀ c, rest.head? = some c → c.isDigit = false) :
    Number.takeExponent? ('e' :: (if negative then '-' else '+') :: (digits ++ rest)) =
      some (if negative then -(Decimal.ofDigits digits : Int) else Decimal.ofDigits digits, rest) := by
  have hsign : Number.takeSign ((if negative then '-' else '+') :: (digits ++ rest)) =
      (negative, digits ++ rest) := by
    cases negative <;> rfl
  rw [Number.takeExponent?, if_pos (.inl rfl), hsign]
  dsimp only
  rw [takeDigits_append all hrest]
  cases digits with
  | nil => exact absurd rfl ne_nil
  | cons first digits => rfl

theorem takePower?_append {exponent : Int} {power rest : List Char} (h : Power exponent power)
    (hrest : EndsNumber rest) : takePower? (power ++ rest) = some (exponent, rest) := by
  cases h with
  | none =>
    cases rest with
    | nil => rfl
    | cons c rest =>
      obtain ⟨_, _, he, hE⟩ := hrest c rfl
      simp [takePower?, he, hE]
  | place =>
    have htake := @takeExponent?_append (exponent < 0) (Nat.toDigits 10 exponent.natAbs) rest
      Nat.toDigits_ne_nil
      (fun c hc => Nat.isDigit_of_mem_toDigits (by decide) (by decide) hc)
      fun c hc => (hrest c hc).1
    have hexponent : (if exponent < 0 then -(exponent.natAbs : Int) else exponent.natAbs) =
        exponent := by
      split <;> omega
    simp only [decide_eq_true_eq, Decimal.ofDigits_toDigits, hexponent] at htake
    rw [List.cons_append, List.cons_append, takePower?, if_pos (.inl rfl), htake]

/-- Neither an exponent nor what ends a number continues the digits before it. -/
theorem power_append_head {exponent : Int} {power rest : List Char} (h : Power exponent power)
    (hrest : EndsNumber rest) (c : Char) (hc : (power ++ rest).head? = some c) :
    c.isDigit = false ∧ c ≠ '.' := by
  cases h with
  | none => exact ⟨(hrest c hc).1, (hrest c hc).2.1⟩
  | place =>
    obtain rfl := Option.some.inj hc
    decide

/-- The parts of a numeral are taken one after another. -/
theorem Numeral.Writes.taken {x : Numeral} {text rest : List Char} (h : x.Writes text)
    (hrest : EndsNumber rest) :
    ∃ unsigned point power, text ++ rest = (if x.negative then ['-'] else []) ++ unsigned ∧
      (∀ cs, unsigned ≠ '-' :: cs) ∧ takeWhole? unsigned = some (x.whole, point) ∧
      takeFraction? point = some (x.fraction, power) ∧
      takePower? power = some (x.exponent, rest) := by
  cases h with
  | @intro negative whole fraction point power exponent isWhole isFraction isPower =>
    have hpoint (c : Char) (hc : (point ++ (power ++ rest)).head? = some c) :
        c.isDigit = false := by
      cases isFraction with
      | none => exact (power_append_head isPower hrest c hc).1
      | digits =>
        obtain rfl := Option.some.inj hc
        decide
    refine ⟨whole ++ (point ++ (power ++ rest)), point ++ (power ++ rest), power ++ rest,
      by simp only [List.append_assoc], fun cs he => ?_, takeWhole?_append isWhole hpoint,
      takeFraction?_append isFraction (power_append_head isPower hrest),
      takePower?_append isPower hrest⟩
    obtain ⟨c, digits, rfl, hc⟩ := isWhole.head
    obtain rfl := (List.cons.inj he).1
    exact absurd hc (by decide)

/-- A text writes one numeral at most. -/
theorem Numeral.Writes.unique {x y : Numeral} {text : List Char} (hx : x.Writes text)
    (hy : y.Writes text) : x = y := by
  have hends : EndsNumber [] := by
    intro c hc
    cases hc
  obtain ⟨unsigned, point, power, hunsigned, hminus, hwhole, hfraction, hpower⟩ := hx.taken hends
  obtain ⟨unsigned', point', power', hunsigned', hminus', hwhole', hfraction', hpower'⟩ :=
    hy.taken hends
  obtain ⟨negative, whole, fraction, exponent⟩ := x
  obtain ⟨negative', whole', fraction', exponent'⟩ := y
  dsimp only at *
  rw [hunsigned] at hunsigned'
  obtain ⟨rfl, rfl⟩ : negative = negative' ∧ unsigned = unsigned' := by
    cases negative with
    | true =>
      cases negative' with
      | true => exact ⟨rfl, (List.cons.inj hunsigned').2⟩
      | false => exact absurd hunsigned'.symm (hminus' unsigned)
    | false =>
      cases negative' with
      | true => exact absurd hunsigned' (hminus unsigned')
      | false => exact ⟨rfl, hunsigned'⟩
  obtain ⟨rfl, rfl⟩ := Prod.mk.inj (Option.some.inj (hwhole.symm.trans hwhole'))
  obtain ⟨rfl, rfl⟩ := Prod.mk.inj (Option.some.inj (hfraction.symm.trans hfraction'))
  obtain ⟨rfl, _⟩ := Prod.mk.inj (Option.some.inj (hpower.symm.trans hpower'))
  rfl

/-- A text that writes a number is read by scaling its digits. -/
theorem takeNumber?_append {x : Numeral} {text rest : List Char} (h : x.Writes text)
    (hrest : EndsNumber rest) :
    takeNumber? (text ++ rest) = some (x.scaled.toNumber x.negative, rest) := by
  obtain ⟨unsigned, point, power, hunsigned, hminus, hwhole, hfraction, hpower⟩ := h.taken hrest
  rw [hunsigned]
  unfold takeNumber?
  cases x.negative with
  | true => simp [hwhole, hfraction, hpower, Numeral.scaled]
  | false => simp [hwhole, hfraction, hpower, Numeral.scaled]

/-- Behind its sign, the text writes a numeral that is nearest to the same double as a decimal
number. -/
def WritesDecimal (negative : Bool) (d : Decimal) (text : List Char) : Prop :=
  ∃ x : Numeral, x.Writes ((if negative then ['-'] else []) ++ text) ∧ x.negative = negative ∧
    x.decimal.nearestMagnitude = d.nearestMagnitude

theorem WritesDecimal.of_parts {negative : Bool} {d : Decimal}
    {whole fraction point power : List Char} {exponent : Int} (isWhole : IsWhole whole)
    (isFraction : Fraction fraction point) (isPower : Power exponent power)
    (h : (Decimal.ofParts whole fraction exponent).nearestMagnitude = d.nearestMagnitude) :
    WritesDecimal negative d (whole ++ point ++ power) :=
  ⟨_, .intro negative isWhole isFraction isPower, rfl, h⟩

theorem isDigit_of_mem_zeros {k : Nat} {c : Char} (h : c ∈ List.replicate k '0') :
    c.isDigit = true :=
  List.eq_of_mem_replicate h ▸ by decide

section

variable {digits : List Char} (h : Leading digits) (layout : NumberLayout) (exponent : Int)
  (negative : Bool)

include h

theorem leading_append_zeros (k : Nat) : Leading (digits ++ List.replicate k '0') := by
  obtain ⟨first, hfirst, hne⟩ := h.head
  refine ⟨fun c hc => ?_, first, by rw [List.head?_append, hfirst, Option.some_or], hne⟩
  exact (List.mem_append.mp hc).elim (h.all c) isDigit_of_mem_zeros

/-- Digits and zeros before the point, and `.0` for whole numbers where the layout keeps it. -/
theorem writesDecimal_whole (k : Nat) :
    WritesDecimal negative ⟨Decimal.ofDigits digits, k⟩ (layout.positional digits k) := by
  have hwhole := IsWhole.leading (leading_append_zeros h k)
  have htext : layout.positional digits k = digits ++ List.replicate k '0' ++
      (if layout.keepsPoint then ['.', '0'] else []) ++ [] := by
    simp [NumberLayout.positional]
  rw [htext]
  cases layout.keepsPoint with
  | true =>
    have hpoint : Fraction ['0'] ['.', '0'] := .digits (by simp) (by simp)
    refine .of_parts hwhole hpoint .none ?_
    have hzeros : digits ++ List.replicate k '0' ++ ['0'] =
        digits ++ List.replicate (k + 1) '0' := by
      rw [List.append_assoc, ← List.replicate_succ']
    rw [Decimal.ofParts, hzeros, Decimal.ofDigits_append_zeros, Decimal.nearestMagnitude_mul_pow]
    congr 2
    simp
  | false =>
    refine .of_parts hwhole .none .none ?_
    rw [Decimal.ofParts, List.append_nil, Decimal.ofDigits_append_zeros,
      Decimal.nearestMagnitude_mul_pow]
    congr 2
    simp

/-- The point between digits. -/
theorem writesDecimal_between (hnegative : ¬0 ≤ exponent)
    (hplaces : 0 < digits.length + exponent) :
    WritesDecimal negative ⟨Decimal.ofDigits digits, exponent⟩
      (layout.positional digits exponent) := by
  obtain ⟨k, hk⟩ := Int.eq_ofNat_of_zero_le hplaces.le
  have hplace : (digits.length + exponent).toNat = k := by omega
  have htext : layout.positional digits exponent =
      digits.take k ++ '.' :: digits.drop k ++ [] := by
    simp [NumberLayout.positional, hnegative, hplaces, hplace]
  have hwhole : Leading (digits.take k) := by
    obtain ⟨first, hfirst, hne⟩ := h.head
    refine ⟨fun c hc => h.all c (List.mem_of_mem_take hc), first, ?_, hne⟩
    rw [List.head?_take, if_neg (by omega), hfirst]
  have hpoint : Fraction (digits.drop k) ('.' :: digits.drop k) :=
    .digits (by simp only [ne_eq, List.drop_eq_nil_iff]; omega)
      fun c hc => h.all c (List.mem_of_mem_drop hc)
  rw [htext]
  refine .of_parts (.leading hwhole) hpoint .none ?_
  rw [Decimal.ofParts, List.take_append_drop, List.length_drop]
  congr 2
  omega

/-- Zeros behind the point. -/
theorem writesDecimal_behind (hnegative : ¬0 ≤ exponent)
    (hplaces : ¬0 < digits.length + exponent) :
    WritesDecimal negative ⟨Decimal.ofDigits digits, exponent⟩
      (layout.positional digits exponent) := by
  obtain ⟨k, hk⟩ := Int.eq_ofNat_of_zero_le (Int.neg_nonneg_of_nonpos (not_lt.mp hplaces))
  have hplace : (-(digits.length + exponent)).toNat = k := by omega
  have htext : layout.positional digits exponent =
      ['0'] ++ '.' :: (List.replicate k '0' ++ digits) ++ [] := by
    simp only [NumberLayout.positional, if_neg hnegative, if_neg hplaces, hplace]
    simp
  have hpoint : Fraction (List.replicate k '0' ++ digits)
      ('.' :: (List.replicate k '0' ++ digits)) := by
    refine .digits ?_ fun c hc => (List.mem_append.mp hc).elim isDigit_of_mem_zeros (h.all c)
    rintro he
    obtain ⟨first, hfirst, _⟩ := h.head
    rw [(List.append_eq_nil_iff.mp he).2] at hfirst
    cases hfirst
  rw [htext]
  refine .of_parts .zero hpoint .none ?_
  have hzeros : ['0'] ++ (List.replicate k '0' ++ digits) =
      List.replicate (k + 1) '0' ++ digits := by
    rw [← List.append_assoc]
    rfl
  rw [Decimal.ofParts, hzeros, Decimal.ofDigits_zeros_append, List.length_append,
    List.length_replicate]
  congr 2
  omega

/-- Written with all its places, a number stays the same decimal number. -/
theorem writesDecimal_positional :
    WritesDecimal negative ⟨Decimal.ofDigits digits, exponent⟩
      (layout.positional digits exponent) := by
  by_cases hnegative : 0 ≤ exponent
  · obtain ⟨k, rfl⟩ := Int.eq_ofNat_of_zero_le hnegative
    exact writesDecimal_whole h layout negative k
  · by_cases hplaces : 0 < digits.length + exponent
    · exact writesDecimal_between h layout exponent negative hnegative hplaces
    · exact writesDecimal_behind h layout exponent negative hnegative hplaces

/-- Written with one digit before the point, a number stays the same decimal number. -/
theorem writesDecimal_scientific :
    WritesDecimal negative ⟨Decimal.ofDigits digits, exponent⟩
      (NumberLayout.scientific digits (digits.length + exponent - 1)) := by
  obtain ⟨c, hc, hne⟩ := h.head
  have hall := h.all
  cases digits with
  | nil => cases hc
  | cons first others =>
    obtain rfl := Option.some.inj hc
    have hwhole : Leading [first] := by
      refine ⟨?_, first, rfl, hne⟩
      simpa using hall first List.mem_cons_self
    generalize hplace : ((first :: others).length + exponent - 1 : Int) = place
    cases others with
    | nil =>
      refine .of_parts (.leading hwhole) .none (.place place) ?_
      rw [Decimal.ofParts]
      congr 2
      simp only [List.length_cons, List.length_nil] at hplace ⊢
      omega
    | cons second rest =>
      have hpoint : Fraction (second :: rest) ('.' :: second :: rest) :=
        .digits (by simp) fun c hc => hall c (List.mem_cons_of_mem _ hc)
      have htext : NumberLayout.scientific (first :: second :: rest) place =
          [first] ++ '.' :: second :: rest ++ _ := rfl
      rw [htext]
      refine .of_parts (.leading hwhole) hpoint (.place place) ?_
      rw [Decimal.ofParts]
      congr 2
      simp only [List.length_cons] at hplace ⊢
      omega

end

/-- A finite number other than zero is written as a numeral to which it is nearest. -/
theorem exists_writes_write (layout : NumberLayout) {n : Number} (hfinite : n.isFinite = true)
    (hzero : n.isZero = false) :
    ∃ x : Numeral, x.Writes (layout.write n).toList ∧ x.negative = n.isNegative ∧
      x.decimal.nearestMagnitude = n.magnitude := by
  have hle := Number.magnitude_le_of_isFinite hfinite
  have hshortest := @Decimal.nearestMagnitude_shortest layout.tie _ hle
  have hpos : 0 < (Decimal.shortest layout.tie n.magnitude).coefficient := by
    refine Nat.pos_of_ne_zero fun h => ?_
    rw [Decimal.nearestMagnitude, if_pos h] at hshortest
    simp [Number.isZero, ← hshortest] at hzero
  have hleading := Decimal.leading_trimmedDigits hpos
  have hnearest := Decimal.nearestMagnitude_trimmedDigits
    (Decimal.shortest layout.tie n.magnitude)
  rw [hshortest] at hnearest
  rw [NumberLayout.write, String.toList_ofList, NumberLayout.magnitudeText]
  dsimp only
  generalize Decimal.trimmedDigits _ = trimmed at hleading hnearest ⊢
  obtain ⟨digits, exponent⟩ := trimmed
  rw [← hnearest]
  change WritesDecimal n.isNegative ⟨Decimal.ofDigits digits, exponent⟩ (if _ then _ else _)
  split
  · exact writesDecimal_positional hleading layout exponent n.isNegative
  · exact writesDecimal_scientific hleading exponent n.isNegative

/-- Whatever numeral the text writes, it is read to the nearest double. -/
def ReadToNearest (text : List Char) : Prop :=
  ∀ x : Numeral, x.Writes text → x.scaled.magnitude = x.decimal.nearestMagnitude

theorem ReadToNearest.of_writes {x : Numeral} {text : List Char} (hwrites : x.Writes text)
    (h : x.scaled.magnitude = x.decimal.nearestMagnitude) : ReadToNearest text := by
  intro y hy
  rw [hy.unique hwrites, h]

/-- An integer is written with its digits alone. -/
theorem writes_integer (i : Int) :
    Writes ⟨decide (i < 0), Nat.toDigits 10 i.natAbs, [], 0⟩
      ((if i < 0 then ['-'] else []) ++ Nat.toDigits 10 i.natAbs) := by
  have hwhole : IsWhole (Nat.toDigits 10 i.natAbs) := by
    rcases Nat.eq_zero_or_pos i.natAbs with h | h
    · rw [h]
      exact .zero
    · exact .leading (Decimal.leading_toDigits h)
  simpa using Writes.intro (decide (i < 0)) hwhole .none .none

/-- A number that its JSON form keeps is written as a numeral that is read as this number, if the
reader takes what is not a whole number below `2 ^ 53` to the nearest double. -/
theorem exists_writes_numberText {n : Number} (kept : Value.numberJson n = .number n)
    (hnearest : n.wholeNumber? = none → ReadToNearest (numberText n)) :
    ∃ x : Numeral, x.Writes (numberText n) ∧ x.scaled.toNumber x.negative = n := by
  cases hwhole : n.wholeNumber? with
  | none =>
    have hfinite := Value.isFinite_of_kept kept
    have hzero := Number.isZero_of_wholeNumber?_eq_none hwhole
    have htext : numberText n = (numberLayout.write n).toList := by
      rw [numberText, hwhole]
      exact if_pos hfinite
    obtain ⟨x, hwrites, hsign, hmagnitude⟩ := exists_writes_write numberLayout hfinite hzero
    rw [← htext] at hwrites
    refine ⟨x, hwrites, ?_⟩
    rw [Scaled.toNumber, hnearest hwhole x hwrites, hmagnitude, hsign, Number.ofMagnitude_eq_self]
  | some i =>
    rw [Value.numberJson, hwhole] at kept
    have htext : numberText n = (if i < 0 then ['-'] else []) ++ Nat.toDigits 10 i.natAbs := by
      rw [numberText, hwhole]
    obtain ⟨_, _, hlt, _⟩ := Number.wholeNumber?_eq_some hwhole
    have hsize : i.natAbs < UInt64.size := Nat.lt_trans hlt (by decide)
    refine ⟨_, htext ▸ writes_integer i, ?_⟩
    rw [Scaled.toNumber, Numeral.scaled, Scaled.magnitude_ofParts_toDigits hsize, ← Number.ofInt_eq,
      Json.number.inj kept]

/-- Not all doubles are read as they were written: scaling the digits of some gives a neighbour. -/
example : numberText ⟨0x4C18B139BF01652B⟩ = "3.8749e+58".toList ∧
    takeNumber? "3.8749e+58".toList = some (⟨0x4C18B139BF01652C⟩, []) := by decide +kernel

end Json

end SchemaCast
