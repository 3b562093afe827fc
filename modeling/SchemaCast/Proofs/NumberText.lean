import SchemaCast.Proofs.Equality
import SchemaCast.Proofs.LeadingPattern
import SchemaCast.Proofs.Numerals

namespace SchemaCast.Number

open Text (isBlank dropBlanks)

/-- The number without a sign in front of zero. -/
def unsignedZero (n : Number) : Number := if n.isZero then zero else n

variable {n : Number} {text : List Char}

theorem digits_of_isWhole {whole : List Char} (h : Json.Numeral.IsWhole whole) : Digits whole := by
  obtain ⟨c, digits, he, _⟩ := h.head
  refine ⟨by simp [he], ?_⟩
  cases h with
  | zero => simp
  | leading h => exact h.all

theorem exponent_of_power {exponent : Int} {power : List Char}
    (h : Json.Numeral.Power exponent power) : Exponent exponent power := by
  cases h with
  | none => exact .none
  | place =>
    have hdigits : Digits (Nat.toDigits 10 exponent.natAbs) :=
      ⟨Nat.toDigits_ne_nil,
        fun c hc => Nat.isDigit_of_mem_toDigits (by decide) (by decide) hc⟩
    by_cases hnegative : exponent < 0
    · have hpower := Exponent.power (.inl rfl) .minus hdigits
      have hexponent : (-(exponent.natAbs : Int)) = exponent := by omega
      rw [Decimal.ofDigits_toDigits, if_pos rfl, hexponent] at hpower
      rw [if_pos hnegative]
      exact hpower
    · have hpower := Exponent.power (.inl rfl) .plus hdigits
      have hexponent : (exponent.natAbs : Int) = exponent := by omega
      rw [Decimal.ofDigits_toDigits, if_neg (by decide), hexponent] at hpower
      rw [if_neg hnegative]
      exact hpower

/-- The texts of a JSON numeral are texts of the double that is nearest to it. -/
theorem writes_of_numeral {x : Json.Numeral} (h : x.Writes text) :
    (ofMagnitude x.negative x.decimal.nearestMagnitude).Writes text := by
  cases h with
  | @intro negative whole fraction point power exponent isWhole isFraction isPower =>
    have hsign : Sign negative (if negative then ['-'] else []) := by
      cases negative with
      | true => exact .minus
      | false => exact .none
    have hwhole := digits_of_isWhole isWhole
    have hmantissa : Mantissa whole fraction (whole ++ point) := by
      cases isFraction with
      | none => exact whole.append_nil.symm ▸ .whole hwhole
      | digits ne_nil all => exact .point hwhole all
    exact .intro hsign (.decimal hmantissa (exponent_of_power isPower) (Decimal.isNearest_nearestMagnitude _))

theorem WritesMagnitude.head_not_isBlank {m : Nat} (h : WritesMagnitude m text) {c : Char}
    (hc : text.head? = some c) : isBlank c = false := by
  cases h with
  | infinity =>
    obtain rfl := Option.some.inj hc
    decide
  | decimal isMantissa isExponent nearest =>
    rcases isMantissa.head hc with hdigit | rfl
    · exact isBlank_eq_false_of_isDigit hdigit
    · decide

/-- What writes a number does not begin with a blank. -/
theorem Numeric.dropBlanks_eq (h : Numeric text) : dropBlanks text = text := by
  have hhead : ∀ c, text.head? = some c → isBlank c = false := by
    obtain ⟨_, isSign, magnitude⟩ := h
    cases isSign with
    | none => exact fun c hc => magnitude.head_not_isBlank hc
    | plus => exact fun c hc => Option.some.inj hc ▸ by decide
    | minus => exact fun c hc => Option.some.inj hc ▸ by decide
  cases text with
  | nil => rfl
  | cons c cs => exact Text.dropBlanks_cons_of_not (hhead c rfl)

theorem magnitude_of_isInfinite (h : n.isInfinite = true) : n.magnitude = infinityMagnitude :=
  eq_of_beq h

theorem isFinite_of_not (hnan : n.isNaN = false) (hinfinite : n.isInfinite = false) :
    n.isFinite = true := by
  simp only [isNaN, isInfinite, isFinite, decide_eq_false_iff_not, decide_eq_true_eq,
    beq_eq_false_iff_ne] at *
  omega

theorem unsignedZero_of_not_isZero (h : n.isZero = false) : n.unsignedZero = n := by
  rw [unsignedZero, if_neg (by simp [h])]

theorem writes_zero : zero.Writes "0".toList := by
  have hnearest := Decimal.isNearest_nearestMagnitude (.ofParts ['0'] [] 0)
  have hmantissa : Mantissa ['0'] [] ['0'] := .whole ⟨by simp, by simp⟩
  exact .intro .none (.decimal hmantissa .none hnearest)

theorem text_of_isZero (h : n.isZero = true) : n.text = "0" := by
  have hmagnitude : n.magnitude = 0 := eq_of_beq h
  have hnan : n.isNaN = false := by
    rw [isNaN, hmagnitude]
    decide
  have hinfinite : n.isInfinite = false := by
    rw [isInfinite, hmagnitude]
    decide
  simp [text, hnan, hinfinite, h]

/-- The text of a number writes it, with the sign of minus zero left out. -/
theorem writes_text (h : n.isNaN = false) : n.unsignedZero.Writes n.text.toList := by
  rw [text, if_neg (by simp [h])]
  by_cases hinfinite : n.isInfinite = true
  · have hmagnitude := magnitude_of_isInfinite hinfinite
    have hzero : n.isZero = false := by
      rw [isZero, hmagnitude]
      decide
    have hwrites : (ofMagnitude n.isNegative infinityMagnitude).Writes
        (if n.isNegative then "-Infinity" else "Infinity").toList := by
      cases n.isNegative with
      | true => exact .intro .minus .infinity
      | false => exact .intro .none .infinity
    rw [← hmagnitude, ofMagnitude_eq_self] at hwrites
    rw [if_pos hinfinite, unsignedZero_of_not_isZero hzero]
    exact hwrites
  · rw [if_neg hinfinite]
    by_cases hzero : n.isZero = true
    · rw [if_pos hzero, unsignedZero, if_pos hzero]
      exact writes_zero
    · rw [Bool.not_eq_true] at hinfinite hzero
      obtain ⟨x, hwrites, hsign, hmagnitude⟩ :=
        Json.exists_writes_write textLayout (isFinite_of_not h hinfinite) hzero
      have hnumber := writes_of_numeral hwrites
      rw [hsign, hmagnitude, ofMagnitude_eq_self] at hnumber
      rw [if_neg (by simp [hzero]), unsignedZero_of_not_isZero hzero]
      exact hnumber

theorem longestNumeric_self (h : Numeric text) : LongestNumeric text text :=
  ⟨List.prefix_rfl, h, fun _ hprefix _ => hprefix.length_le⟩

theorem unsignedZero_same (h : n.isNaN = false) : (n.unsignedZero == n) = true := by
  rw [beq_iff]
  unfold unsignedZero
  split
  · exact ⟨by decide, h, .inr ⟨by decide, ‹_›⟩⟩
  · exact ⟨h, h, .inl rfl⟩

theorem text_unsignedZero (n : Number) : n.unsignedZero.text = n.text := by
  by_cases hzero : n.isZero = true
  · rw [unsignedZero, if_pos hzero, text_of_isZero hzero, text_of_isZero (by decide)]
  · rw [unsignedZero, if_neg hzero]

/-- The pattern of numbers matches the whole text of a number, which is read back as this number,
and its text is the same again. -/
theorem text_of_number_is_read_back (n : Number) (h : n.isNaN = false) :
    ∃ s, Builtin.toText (.number n) = .ok (.text s) ∧ leading? s = some s.toList ∧
      Builtin.toNumber (.text s) = .ok (.number n.unsignedZero) ∧
      (n.unsignedZero == n) = true ∧
      Builtin.toText (.number n.unsignedZero) = .ok (.text s) := by
  have hwrites := writes_text h
  have hlongest : LongestNumeric n.text.toList (dropBlanks n.text.toList) := by
    rw [Numeric.dropBlanks_eq ⟨_, hwrites⟩]
    exact longestNumeric_self ⟨_, hwrites⟩
  have hread : ofLeading? n.text = some n.unsignedZero :=
    ofLeading?_eq_some.mpr ⟨_, hlongest, hwrites⟩
  refine ⟨n.text, rfl, leading?_eq_some.mpr hlongest, ?_, unsignedZero_same h, ?_⟩
  · simp [Builtin.toNumber, hread, hwrites.isNaN_eq_false]
  · rw [Builtin.toText, Value.display, text_unsignedZero]

theorem minus_zero_is_read_back :
    (ofMagnitude true 0).isNaN = false ∧
    ∃ s, Builtin.toText (.number (ofMagnitude true 0)) = .ok (.text s) ∧
      leading? s = some s.toList ∧ Builtin.toNumber (.text s) = .ok (.number zero) ∧
      (zero == ofMagnitude true 0) = true ∧ Builtin.toText (.number zero) = .ok (.text s) :=
  ⟨by decide, text_of_number_is_read_back (ofMagnitude true 0) (by decide)⟩

end SchemaCast.Number
