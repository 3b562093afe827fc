import Mathlib.Data.List.TakeWhile
import SchemaCast.Number.Leading
import SchemaCast.Proofs.Rounding

namespace SchemaCast.Number

/-- One digit or more. -/
structure Digits (cs : List Char) : Prop where
  ne_nil : cs ≠ []
  all : ∀ c ∈ cs, c.isDigit = true

/-- An optional sign. -/
inductive Sign : Bool → List Char → Prop where
  | none : Sign false []
  | plus : Sign false ['+']
  | minus : Sign true ['-']

/-- The digits before and after a point; one of them at least is there, and the point may be left
out if none follow it. -/
inductive Mantissa : List Char → List Char → List Char → Prop where
  | whole {whole : List Char} (digits : Digits whole) : Mantissa whole [] whole
  | point {whole fraction : List Char} (digits : Digits whole)
      (all : ∀ c ∈ fraction, c.isDigit = true) :
    Mantissa whole fraction (whole ++ '.' :: fraction)
  | fraction {fraction : List Char} (digits : Digits fraction) :
    Mantissa [] fraction ('.' :: fraction)

/-- An optional exponent. -/
inductive Exponent : Int → List Char → Prop where
  | none : Exponent 0 []
  | power {letter : Char} {negative : Bool} {sign digits : List Char}
      (isLetter : letter = 'e' ∨ letter = 'E') (isSign : Sign negative sign)
      (isDigits : Digits digits) :
    Exponent (if negative then -(Decimal.ofDigits digits : Int) else Decimal.ofDigits digits)
      (letter :: (sign ++ digits))

/-- A magnitude is written as a word if it is infinite, and else in decimal. -/
inductive WritesMagnitude : Nat → List Char → Prop where
  | infinity : WritesMagnitude infinityMagnitude "Infinity".toList
  | decimal {whole fraction mantissa power : List Char} {exponent : Int} {m : Nat}
      (isMantissa : Mantissa whole fraction mantissa) (isExponent : Exponent exponent power)
      (nearest : IsNearest (Decimal.ofParts whole fraction exponent).value m) :
    WritesMagnitude m (mantissa ++ power)

/-- The texts of a number: an optional sign and its magnitude. -/
inductive Writes : Number → List Char → Prop where
  | intro {negative : Bool} {sign text : List Char} {m : Nat} (isSign : Sign negative sign)
      (magnitude : WritesMagnitude m text) : Writes (ofMagnitude negative m) (sign ++ text)

/-- A text that writes a number. -/
def Numeric (text : List Char) : Prop := ∃ n : Number, n.Writes text

/-- The longest prefix of a text that writes a number. -/
structure LongestNumeric (text cs : List Char) : Prop where
  isPrefix : text <+: cs
  numeric : Numeric text
  longest : ∀ other, other <+: cs → Numeric other → other.length ≤ text.length

section Reader

variable {cs rest : List Char}

theorem takeSign_sound (cs : List Char) :
    ∃ sign, Sign (takeSign cs).1 sign ∧ sign ++ (takeSign cs).2 = cs := by
  unfold takeSign
  split
  · exact ⟨_, .minus, rfl⟩
  · exact ⟨_, .plus, rfl⟩
  · exact ⟨_, .none, rfl⟩

/-- A sign is taken in front of what does not begin with another one. -/
theorem takeSign_append {negative : Bool} {sign : List Char} (h : Sign negative sign)
    (hrest : ∀ c, rest.head? = some c → c ≠ '-' ∧ c ≠ '+') :
    takeSign (sign ++ rest) = (negative, rest) := by
  cases h with
  | plus => rfl
  | minus => rfl
  | none =>
    rw [List.nil_append]
    unfold takeSign
    split
    · exact absurd rfl (hrest _ rfl).1
    · exact absurd rfl (hrest _ rfl).2
    · rfl

theorem takeDigits_sound (cs : List Char) :
    (∀ c ∈ (takeDigits cs).1, c.isDigit = true) ∧
      (takeDigits cs).1 ++ (takeDigits cs).2 = cs :=
  ⟨fun _ => List.mem_takeWhile_imp, List.takeWhile_append_dropWhile⟩

/-- Digits in front are taken with those that follow them. -/
theorem takeDigits_append_digits {digits : List Char} (h : ∀ c ∈ digits, c.isDigit = true) :
    takeDigits (digits ++ rest) = (digits ++ (takeDigits rest).1, (takeDigits rest).2) := by
  rw [takeDigits, List.takeWhile_append_of_pos h, List.dropWhile_append_of_pos h]
  rfl

theorem takeDigits_of_not {c : Char} (h : c.isDigit = false) :
    takeDigits (c :: cs) = ([], c :: cs) := by
  simp [takeDigits, h]

theorem length_takeDigits_le (cs : List Char) : (takeDigits cs).2.length ≤ cs.length :=
  List.length_dropWhile_le ..

/-- What is taken depends on whether there are digits in front, and on whether a point follows. -/
theorem takeMantissa?_eq (cs : List Char) : takeMantissa? cs =
    match (takeDigits cs).2 with
    | '.' :: rest =>
      if (takeDigits cs).1 ++ (takeDigits rest).1 = [] then none
      else some ((takeDigits cs).1, takeDigits rest)
    | rest => if (takeDigits cs).1 = [] then none else some ((takeDigits cs).1, [], rest) := by
  unfold takeMantissa?
  generalize takeDigits cs = taken
  obtain ⟨_ | ⟨d, digits⟩, rest⟩ := taken
  · split
    · rename_i rest he
      obtain ⟨_, rfl⟩ := Prod.mk.inj he
      rcases hmore : takeDigits rest with ⟨_ | ⟨e, fraction⟩, more⟩ <;> simp [hmore]
    all_goals simp_all
  · split <;> simp_all

theorem takeMantissa?_of_point {digits : List Char} (h : takeDigits cs = (digits, '.' :: rest)) :
    takeMantissa? cs = if digits ++ (takeDigits rest).1 = [] then none
      else some (digits, takeDigits rest) := by
  rw [takeMantissa?_eq, h]
  rfl

/-- What is taken is written as digits around a point. -/
theorem takeMantissa?_sound {whole fraction : List Char}
    (h : takeMantissa? cs = some (whole, fraction, rest)) :
    ∃ text, Mantissa whole fraction text ∧ text ++ rest = cs := by
  obtain ⟨hall, hcs⟩ := takeDigits_sound cs
  rw [takeMantissa?_eq] at h
  generalize takeDigits cs = taken at h hall hcs
  obtain ⟨digits, behind⟩ := taken
  dsimp only at h hall hcs
  split at h
  · rename_i more
    obtain ⟨hmore, hsplit⟩ := takeDigits_sound more
    generalize takeDigits more = further at h hmore hsplit
    obtain ⟨more, further⟩ := further
    simp only [Option.ite_none_left_eq_some, Option.some.injEq, Prod.mk.injEq] at h
    obtain ⟨hne, rfl, rfl, rfl⟩ := h
    cases digits with
    | nil => exact ⟨_, .fraction ⟨hne, hmore⟩, by rw [← hcs, ← hsplit]; rfl⟩
    | cons d digits =>
      exact ⟨_, .point ⟨by simp, hall⟩ hmore, by rw [← hcs, ← hsplit]; simp⟩
  · simp only [Option.ite_none_left_eq_some, Option.some.injEq, Prod.mk.injEq] at h
    obtain ⟨hne, rfl, rfl, rfl⟩ := h
    exact ⟨_, .whole ⟨hne, hall⟩, hcs⟩

/-- At least as much is taken as writes digits around a point, and just these digits if neither a
digit nor a point follows. -/
theorem Mantissa.taken {whole fraction text : List Char} (h : Mantissa whole fraction text)
    (rest : List Char) :
    ∃ digits more behind, takeMantissa? (text ++ rest) = some (digits, more, behind) ∧
      behind.length ≤ rest.length ∧
      ((∀ c, rest.head? = some c → c.isDigit = false ∧ c ≠ '.') →
        (digits, more, behind) = (whole, fraction, rest)) := by
  have hstop (hrest : ∀ c, rest.head? = some c → c.isDigit = false ∧ c ≠ '.') :
      takeDigits rest = ([], rest) := by
    cases rest with
    | nil => rfl
    | cons c rest => rw [takeDigits_of_not (hrest c rfl).1]
  cases h with
  | whole digits =>
    rw [takeMantissa?_eq, takeDigits_append_digits digits.all]
    dsimp only
    split
    · rename_i more hmore
      refine ⟨_, _, _, if_neg (by simp [digits.ne_nil]), ?_, fun hrest => ?_⟩
      · have hle := length_takeDigits_le rest
        rw [hmore, List.length_cons] at hle
        exact Nat.le_trans (length_takeDigits_le more) (Nat.le_of_succ_le hle)
      · rw [hstop hrest] at hmore
        exact absurd rfl (hrest '.' (congrArg List.head? hmore)).2
    · refine ⟨_, _, _, if_neg (by simp [digits.ne_nil]), length_takeDigits_le rest,
        fun hrest => ?_⟩
      rw [hstop hrest, List.append_nil]
  | point digits all =>
    have htake : takeDigits (whole ++ '.' :: fraction ++ rest) =
        (whole, '.' :: (fraction ++ rest)) := by
      rw [List.append_assoc, takeDigits_append_digits digits.all, List.cons_append,
        takeDigits_of_not (by decide), List.append_nil]
    rw [takeMantissa?_of_point htake, takeDigits_append_digits all]
    refine ⟨_, _, _, if_neg (by simp [digits.ne_nil]), length_takeDigits_le rest, fun hrest => ?_⟩
    rw [hstop hrest, List.append_nil]
  | fraction digits =>
    have htake : takeDigits ('.' :: fraction ++ rest) = ([], '.' :: (fraction ++ rest)) :=
      takeDigits_of_not (by decide)
    rw [takeMantissa?_of_point htake, takeDigits_append_digits digits.all]
    refine ⟨_, _, _, if_neg (by simp [digits.ne_nil]), length_takeDigits_le rest, fun hrest => ?_⟩
    rw [hstop hrest, List.append_nil]

/-- What is taken writes an exponent, though it may be nothing. -/
theorem takeExponent_sound (cs : List Char) :
    ∃ text, Exponent (takeExponent cs).1 text ∧ text ++ (takeExponent cs).2 = cs := by
  unfold takeExponent
  cases h : takeExponent? cs with
  | none => exact ⟨[], .none, rfl⟩
  | some taken =>
    cases cs with
    | nil => simp [takeExponent?] at h
    | cons letter cs =>
      rw [takeExponent?] at h
      split at h
      · rename_i hletter
        obtain ⟨sign, hsign, hcs⟩ := takeSign_sound cs
        obtain ⟨hall, hsplit⟩ := takeDigits_sound (takeSign cs).2
        dsimp only at h
        split at h
        · cases h
        · rename_i digits rest hne htake
          obtain rfl := Option.some.inj h
          rw [htake] at hall hsplit
          refine ⟨_, .power hletter hsign ⟨hne, hall⟩, ?_⟩
          rw [← hcs, ← hsplit]
          simp
      · cases h

theorem length_takeExponent_le (cs : List Char) : (takeExponent cs).2.length ≤ cs.length := by
  obtain ⟨text, _, hcs⟩ := takeExponent_sound cs
  have hlength := congrArg List.length hcs
  rw [List.length_append] at hlength
  omega

theorem Digits.head {digits : List Char} (h : Digits digits) {c : Char}
    (hc : (digits ++ rest).head? = some c) : c.isDigit = true := by
  cases digits with
  | nil => exact absurd rfl h.ne_nil
  | cons d digits =>
    obtain rfl := Option.some.inj hc
    exact h.all _ List.mem_cons_self

/-- An exponent is taken with the digits that follow it. -/
theorem takeExponent_power {letter : Char} {negative : Bool} {sign digits : List Char}
    (isLetter : letter = 'e' ∨ letter = 'E') (isSign : Sign negative sign)
    (isDigits : Digits digits) (rest : List Char) :
    takeExponent (letter :: (sign ++ digits) ++ rest) =
      (if negative then -(Decimal.ofDigits (digits ++ (takeDigits rest).1) : Int)
        else Decimal.ofDigits (digits ++ (takeDigits rest).1), (takeDigits rest).2) := by
  have htakeSign : takeSign (sign ++ (digits ++ rest)) = (negative, digits ++ rest) := by
    refine takeSign_append isSign fun c hc => ?_
    have hdigit := isDigits.head hc
    constructor <;> rintro rfl <;> exact absurd hdigit (by decide)
  rw [takeExponent, List.cons_append, List.append_assoc, takeExponent?, if_pos isLetter, htakeSign]
  dsimp only
  rw [takeDigits_append_digits isDigits.all]
  split
  · rename_i h
    simp [isDigits.ne_nil] at h
  · rename_i h
    obtain ⟨rfl, rfl⟩ := Prod.mk.inj h
    rfl

/-- At least as much is taken as writes an exponent. -/
theorem Exponent.taken {exponent : Int} {text : List Char} (h : Exponent exponent text)
    (rest : List Char) : (takeExponent (text ++ rest)).2.length ≤ rest.length := by
  cases h with
  | none => exact length_takeExponent_le rest
  | power isLetter isSign isDigits =>
    rw [takeExponent_power isLetter isSign isDigits]
    exact length_takeDigits_le rest

/-- An exponent is taken as it is written. -/
theorem Exponent.takeExponent_eq {exponent : Int} {text : List Char} (h : Exponent exponent text) :
    takeExponent text = (exponent, []) := by
  cases h with
  | none => rfl
  | power isLetter isSign isDigits =>
    have htaken := takeExponent_power isLetter isSign isDigits []
    have hnil : takeDigits [] = ([], []) := rfl
    rwa [hnil, List.append_nil, List.append_nil] at htaken

/-- What is taken writes a magnitude. -/
theorem takeMagnitude?_sound {m : Nat} (h : takeMagnitude? cs = some (m, rest)) :
    ∃ text, WritesMagnitude m text ∧ text ++ rest = cs := by
  rw [takeMagnitude?] at h
  dsimp only at h
  split at h
  · rename_i hword
    obtain ⟨rfl, rfl⟩ := Prod.mk.inj (Option.some.inj h)
    exact ⟨_, .infinity,
      List.prefix_iff_eq_append.mp (List.isPrefixOf_iff_prefix.mp hword)⟩
  · obtain ⟨⟨whole, fraction, behind⟩, hmantissa, he⟩ := Option.map_eq_some_iff.mp h
    obtain ⟨rfl, rfl⟩ := Prod.mk.inj he
    obtain ⟨text, htext, rfl⟩ := takeMantissa?_sound hmantissa
    obtain ⟨power, hpower, hbehind⟩ := takeExponent_sound behind
    refine ⟨_, .decimal htext hpower (Decimal.isNearest_nearestMagnitude _), ?_⟩
    rw [List.append_assoc, hbehind]

theorem Mantissa.head {whole fraction text : List Char} (h : Mantissa whole fraction text)
    {c : Char} (hc : (text ++ rest).head? = some c) : c.isDigit = true ∨ c = '.' := by
  cases h with
  | whole digits => exact .inl (digits.head hc)
  | point digits all =>
    rw [List.append_assoc] at hc
    exact .inl (digits.head hc)
  | fraction digits => exact .inr (Option.some.inj hc).symm

theorem Mantissa.not_word {whole fraction text : List Char} (h : Mantissa whole fraction text)
    (rest : List Char) : ¬"Infinity".toList.isPrefixOf (text ++ rest) = true := by
  rw [List.isPrefixOf_iff_prefix]
  rintro ⟨behind, he⟩
  rcases h.head (congrArg List.head? he.symm) with hc | hc <;> exact absurd hc (by decide)

theorem Exponent.head {exponent : Int} {text : List Char} (h : Exponent exponent text)
    (hne : text ≠ []) {c : Char} (hc : (text ++ rest).head? = some c) :
    c.isDigit = false ∧ c ≠ '.' := by
  cases h with
  | none => exact absurd rfl hne
  | power isLetter isSign isDigits =>
    obtain rfl := Option.some.inj hc
    rcases isLetter with rfl | rfl <;> decide

/-- At least as much is taken as writes a magnitude. -/
theorem WritesMagnitude.taken {m : Nat} {text : List Char} (h : WritesMagnitude m text)
    (rest : List Char) :
    ∃ taken, takeMagnitude? (text ++ rest) = some taken ∧ taken.2.length ≤ rest.length := by
  cases h with
  | infinity =>
    have hword : "Infinity".toList.isPrefixOf ("Infinity".toList ++ rest) = true :=
      List.isPrefixOf_iff_prefix.mpr (List.prefix_append _ _)
    refine ⟨_, by rw [takeMagnitude?, if_pos hword], ?_⟩
    dsimp only
    rw [List.drop_left]
  | @decimal whole fraction mantissa power exponent _ isMantissa isExponent nearest =>
    obtain ⟨digits, more, behind, htaken, hle, hstop⟩ := isMantissa.taken (power ++ rest)
    rw [List.append_assoc, takeMagnitude?, if_neg (isMantissa.not_word _), htaken]
    refine ⟨_, rfl, ?_⟩
    dsimp only
    by_cases hpower : power = []
    · subst hpower
      exact Nat.le_trans (length_takeExponent_le behind) hle
    · have hbehind : behind = power ++ rest :=
        (Prod.mk.inj (Prod.mk.inj (hstop fun c hc => isExponent.head hpower hc)).2).2
      rw [hbehind]
      exact isExponent.taken rest

/-- A text writes one magnitude at most. -/
theorem WritesMagnitude.unique {m k : Nat} {text : List Char} (hm : WritesMagnitude m text)
    (hk : WritesMagnitude k text) : m = k := by
  have hmantissa {whole fraction mantissa power : List Char} {exponent : Int}
      (isMantissa : Mantissa whole fraction mantissa) (isExponent : Exponent exponent power) :
      takeMantissa? (mantissa ++ power) = some (whole, fraction, power) := by
    obtain ⟨digits, more, behind, htaken, hle, hstop⟩ := isMantissa.taken power
    rw [htaken, hstop fun c hc => ?_]
    refine isExponent.head ?_ ((congrArg List.head? (List.append_nil power)).trans hc)
    rintro rfl
    cases hc
  cases hm with
  | infinity =>
    generalize hword : "Infinity".toList = word at hk
    cases hk with
    | infinity => rfl
    | @decimal _ _ _ power _ _ isMantissa isExponent nearest =>
      have hnot := isMantissa.not_word power
      rw [← hword] at hnot
      exact absurd (by decide) hnot
  | @decimal whole fraction mantissa power exponent _ isMantissa isExponent nearest =>
    have htaken := hmantissa isMantissa isExponent
    generalize hword : mantissa ++ power = word at hk htaken
    cases hk with
    | infinity =>
      have hnot := isMantissa.not_word power
      rw [hword] at hnot
      exact absurd (by decide) hnot
    | decimal isMantissa' isExponent' nearest' =>
      have htaken' := (hmantissa isMantissa' isExponent').symm.trans htaken
      obtain ⟨rfl, he⟩ := Prod.mk.inj (Option.some.inj htaken')
      obtain ⟨rfl, rfl⟩ := Prod.mk.inj he
      obtain ⟨rfl, _⟩ := Prod.mk.inj (isExponent'.takeExponent_eq.symm.trans
        isExponent.takeExponent_eq)
      exact nearest.unique nearest'

theorem WritesMagnitude.head {m : Nat} {text : List Char} (h : WritesMagnitude m text) {c : Char}
    (hc : (text ++ rest).head? = some c) : c ≠ '-' ∧ c ≠ '+' := by
  cases h with
  | infinity =>
    obtain rfl := Option.some.inj hc
    decide
  | decimal isMantissa isExponent nearest =>
    rw [List.append_assoc] at hc
    rcases isMantissa.head hc with hc | rfl
    · constructor <;> rintro rfl <;> exact absurd hc (by decide)
    · decide

theorem WritesMagnitude.takeSign_eq {m : Nat} {text sign : List Char} {negative : Bool}
    (h : WritesMagnitude m text) (isSign : Sign negative sign) :
    takeSign (sign ++ text) = (negative, text) :=
  takeSign_append isSign fun _ hc =>
    h.head ((congrArg List.head? (List.append_nil text)).trans hc)

theorem Numeric.ne_nil {text : List Char} (h : Numeric text) : text ≠ [] := by
  obtain ⟨_, isSign, magnitude⟩ := h
  cases magnitude with
  | infinity => simp
  | decimal isMantissa isExponent nearest => cases isMantissa <;> simp [Digits.ne_nil, *]

/-- What is taken behind the sign ends the prefix of a number. -/
theorem writes_of_takeMagnitude? {m : Nat} (h : takeMagnitude? (takeSign cs).2 = some (m, rest)) :
    ∃ text, (ofMagnitude (takeSign cs).1 m).Writes text ∧ text ++ rest = cs := by
  obtain ⟨sign, hsign, hcs⟩ := takeSign_sound cs
  obtain ⟨text, htext, hunsigned⟩ := takeMagnitude?_sound h
  exact ⟨sign ++ text, .intro hsign htext, by rw [List.append_assoc, hunsigned, hcs]⟩

/-- Behind the sign, at least as much is taken as writes a number. -/
theorem Numeric.taken {text : List Char} (h : Numeric text) (rest : List Char) :
    ∃ taken, takeMagnitude? (takeSign (text ++ rest)).2 = some taken ∧
      taken.2.length ≤ rest.length := by
  obtain ⟨_, isSign, magnitude⟩ := h
  rw [List.append_assoc, takeSign_append isSign fun c hc => magnitude.head hc]
  exact magnitude.taken rest

/-- What is taken is the longest prefix that writes a number. -/
theorem longestNumeric_of_takeMagnitude? {m : Nat} {text : List Char}
    (h : takeMagnitude? (takeSign cs).2 = some (m, rest)) (htext : Numeric text)
    (hcs : text ++ rest = cs) : LongestNumeric text cs := by
  refine ⟨⟨rest, hcs⟩, htext, fun other hprefix hother => ?_⟩
  obtain ⟨behind, rfl⟩ := hprefix
  obtain ⟨taken, htaken, hle⟩ := hother.taken behind
  obtain rfl := Option.some.inj (htaken.symm.trans h)
  have hlength := congrArg List.length hcs
  simp only [List.length_append] at hle hlength
  omega

theorem LongestNumeric.unique {p q : List Char} (hp : LongestNumeric p cs)
    (hq : LongestNumeric q cs) : p = q := by
  have hle : p.length ≤ q.length := hq.longest p hp.isPrefix hp.numeric
  exact (List.prefix_of_prefix_length_le hp.isPrefix hq.isPrefix hle).eq_of_length_le
    (hp.longest q hq.isPrefix hq.numeric)

theorem takeMagnitude?_eq_none :
    takeMagnitude? (takeSign cs).2 = none ↔ ∀ p, p <+: cs → ¬Numeric p := by
  constructor
  · rintro h p ⟨rest, rfl⟩ hp
    obtain ⟨taken, htaken, _⟩ := hp.taken rest
    rw [h] at htaken
    cases htaken
  · intro h
    cases htaken : takeMagnitude? (takeSign cs).2 with
    | none => rfl
    | some taken =>
      obtain ⟨text, htext, hcs⟩ := writes_of_takeMagnitude? htaken
      exact absurd ⟨_, htext⟩ (h text ⟨_, hcs⟩)

theorem ofLeading?_eq (text : String) : ofLeading? text =
    (takeMagnitude? (takeSign (Text.dropBlanks text.toList)).2).map fun taken =>
      ofMagnitude (takeSign (Text.dropBlanks text.toList)).1 taken.1 := rfl

/-- There is no number at the front of a text of which no prefix writes one. -/
theorem ofLeading?_eq_none {text : String} :
    ofLeading? text = none ↔ ∀ p, p <+: Text.dropBlanks text.toList → ¬Numeric p := by
  rw [ofLeading?_eq, Option.map_eq_none_iff, takeMagnitude?_eq_none]

/-- A text writes one number at most. -/
theorem Writes.unique {a b : Number} {text : List Char} (ha : a.Writes text)
    (hb : b.Writes text) : a = b := by
  obtain ⟨isSign, magnitude⟩ := ha
  rename_i negative sign unsigned m
  have hsplit := magnitude.takeSign_eq isSign
  generalize sign ++ unsigned = text at hb hsplit
  obtain ⟨isSign', magnitude'⟩ := hb
  rw [magnitude'.takeSign_eq isSign', Prod.mk.injEq] at hsplit
  obtain ⟨rfl, rfl⟩ := hsplit
  rw [magnitude.unique magnitude']

theorem WritesMagnitude.le {m : Nat} {text : List Char} (h : WritesMagnitude m text) :
    m ≤ infinityMagnitude := by
  cases h with
  | infinity => exact Nat.le_refl _
  | decimal isMantissa isExponent nearest => exact nearest.le

theorem magnitude_ofMagnitude {negative : Bool} {m : Nat} (h : m < signBit) :
    (ofMagnitude negative m).magnitude = m := by
  have hsign : signBit = 2 ^ 63 := rfl
  rw [hsign] at h
  rw [magnitude, ofMagnitude, UInt64.toNat_ofNat', hsign]
  split <;> omega

theorem Writes.isNaN_eq_false {n : Number} {text : List Char} (h : n.Writes text) :
    n.isNaN = false := by
  obtain ⟨_, magnitude⟩ := h
  have hsign : infinityMagnitude < signBit := by decide
  rw [isNaN, magnitude_ofMagnitude (Nat.lt_of_le_of_lt magnitude.le hsign)]
  exact decide_eq_false (Nat.not_lt_of_le magnitude.le)

/-- The number at the front of a text is the one that the longest prefix writes. -/
theorem ofLeading?_eq_some {text : String} {n : Number} : ofLeading? text = some n ↔
    ∃ p, LongestNumeric p (Text.dropBlanks text.toList) ∧ n.Writes p := by
  rw [ofLeading?_eq]
  cases htaken : takeMagnitude? (takeSign (Text.dropBlanks text.toList)).2 with
  | none =>
    refine iff_of_false (by simp) ?_
    rintro ⟨p, hp, _⟩
    exact takeMagnitude?_eq_none.mp htaken p hp.isPrefix hp.numeric
  | some taken =>
    obtain ⟨p, hp, hsplit⟩ := writes_of_takeMagnitude? htaken
    have hlongest := longestNumeric_of_takeMagnitude? htaken ⟨_, hp⟩ hsplit
    rw [Option.map_some, Option.some.injEq]
    constructor
    · rintro rfl
      exact ⟨p, hlongest, hp⟩
    · rintro ⟨q, hq, hn⟩
      exact hp.unique (hlongest.unique hq ▸ hn)

end Reader

end SchemaCast.Number
