import SchemaCast.Builtin
import SchemaCast.Proofs.Leading
import SchemaCast.Proofs.Pattern

namespace SchemaCast.Number

open Text Pattern

variable {cs : List Char} {c : Char}

def digitsPattern : Pattern := append (one Char.isDigit) (many Char.isDigit)

def signPattern : Pattern := optional (one fun c => c == '+' || c == '-')

/-- The whole digits come first, and the point and the digits after it are optional. -/
def mantissaPattern : Pattern :=
  either (append digitsPattern (append (optional (one (· == '.'))) (many Char.isDigit)))
    (append (one (· == '.')) digitsPattern)

def exponentPattern : Pattern :=
  optional (append (one fun c => c == 'e' || c == 'E') (append signPattern digitsPattern))

/-- The pattern of a number, in the order in which its alternatives are tried. -/
def pattern : Pattern :=
  append signPattern
    (either (literal "Infinity".toList) (append mantissaPattern exponentPattern))

/-- What the pattern of a number matches behind the blanks at the front of a text. -/
def leading? (text : String) : Option (List Char) :=
  captured? (many isBlank) pattern text.toList

theorem rest?_digitsPattern :
    digitsPattern.rest? cs = if (takeDigits cs).1 = [] then none else some (takeDigits cs).2 := by
  cases cs with
  | nil => rfl
  | cons c cs =>
    rw [digitsPattern, rest?_append_one, rest?_many]
    cases hc : c.isDigit <;> simp [takeDigits, hc]

/-- A sign is matched as it is taken, in front of what cannot begin with one. -/
theorem rest?_append_signPattern {p : Pattern}
    (hp : ∀ c cs, (c == '+' || c == '-') = true → p.rest? (c :: cs) = none) :
    (append signPattern p).rest? cs = p.rest? (takeSign cs).2 := by
  rw [signPattern, rest?_append_optional_one hp]
  unfold takeSign
  split
  · split
    · split <;> simp_all
    · split <;> simp_all
  · rfl

/-- Behind whole digits, an optional point and the digits after it always match. -/
theorem rest?_wholePattern :
    (append digitsPattern (append (optional (one (· == '.'))) (many Char.isDigit))).rest? cs =
      if (takeDigits cs).1 = [] then none
      else some (takeDigits
        (((one (· == '.')).rest? (takeDigits cs).2).getD (takeDigits cs).2)).2 := by
  have hbehind (cs : List Char) :
      (append (optional (one (· == '.'))) (many Char.isDigit)).rest? cs =
        some (takeDigits (((one (· == '.')).rest? cs).getD cs)).2 := by
    rw [rest?_append_of_isSome fun _ => by rw [rest?_many]; rfl, rest?_optional, Option.bind_some,
      rest?_many]
    rfl
  rw [rest?_append_of_isSome fun cs => by rw [hbehind]; rfl, rest?_digitsPattern]
  split
  · rfl
  · rw [Option.bind_some, hbehind]

/-- No digit is left in front of what follows digits. -/
theorem takeDigits_takeDigits : takeDigits (takeDigits cs).2 = ([], (takeDigits cs).2) := by
  induction cs with
  | nil => rfl
  | cons c cs ih =>
    cases hc : c.isDigit with
    | true =>
      have hbehind : (takeDigits (c :: cs)).2 = (takeDigits cs).2 := List.dropWhile_cons_of_pos hc
      rw [hbehind, ih]
    | false => rw [takeDigits_of_not hc, takeDigits_of_not hc]

theorem rest?_mantissaPattern :
    mantissaPattern.rest? cs = (takeMantissa? cs).map (·.2.2) := by
  rw [mantissaPattern, rest?_either, rest?_wholePattern, takeMantissa?_eq]
  by_cases hdigits : (takeDigits cs).1 = []
  · have hstay : (takeDigits cs).2 = cs := by
      have hsplit := (takeDigits_sound cs).2
      rwa [hdigits] at hsplit
    rw [if_pos hdigits, Option.none_or, hdigits, hstay]
    cases cs with
    | nil => rfl
    | cons c cs =>
      rw [rest?_append_one, rest?_digitsPattern]
      by_cases hc : c = '.'
      · subst hc
        simp only [beq_self_eq_true, if_true, List.nil_append]
        split <;> rfl
      · simp [hc]
  · rw [if_neg hdigits, Option.some_or]
    split
    · rename_i rest hrest
      rw [if_neg fun h => hdigits (List.append_eq_nil_iff.mp h).1, hrest]
      rfl
    · rename_i hpoint
      rw [if_neg hdigits]
      cases hrest : (takeDigits cs).2 with
      | nil => rfl
      | cons c rest =>
        have hc : ¬(c == '.') = true := fun hc => hpoint rest (by rw [hrest, eq_of_beq hc])
        have hstop : takeDigits (c :: rest) = ([], c :: rest) := by
          rw [← hrest, takeDigits_takeDigits]
        simp [rest?, rests, hc, hstop]

theorem rest?_exponentPattern : exponentPattern.rest? cs = some (takeExponent cs).2 := by
  have hsign (c : Char) (cs : List Char) (hc : (c == '+' || c == '-') = true) :
      digitsPattern.rest? (c :: cs) = none := by
    rw [digitsPattern, rest?_append_one, if_neg]
    rw [Bool.or_eq_true, beq_iff_eq, beq_iff_eq] at hc
    rcases hc with rfl | rfl <;> decide
  rw [exponentPattern, rest?_optional, takeExponent]
  cases cs with
  | nil => rfl
  | cons c cs =>
    rw [rest?_append_one, rest?_append_signPattern hsign, rest?_digitsPattern, takeExponent?]
    simp only [Bool.or_eq_true, beq_iff_eq]
    split
    · rcases takeDigits (takeSign cs).2 with ⟨_ | ⟨d, digits⟩, rest⟩ <;> rfl
    · rfl

/-- The pattern of a magnitude begins with a digit, a point or the first letter of a word. -/
theorem rest?_magnitudePattern :
    (either (literal "Infinity".toList) (append mantissaPattern exponentPattern)).rest? cs =
      (takeMagnitude? cs).map (·.2) := by
  rw [rest?_either, rest?_literal, takeMagnitude?,
    rest?_append_of_isSome fun _ => by rw [rest?_exponentPattern]; rfl, rest?_mantissaPattern]
  dsimp only
  split
  · rfl
  · cases takeMantissa? cs with
    | none => rfl
    | some taken => simp [rest?_exponentPattern]

/-- Nothing is taken in front of what is neither a digit, a point nor the first letter of the
word. -/
theorem takeMagnitude?_cons_of_not (hdigit : c.isDigit = false) (hpoint : c ≠ '.')
    (hword : c ≠ 'I') : takeMagnitude? (c :: cs) = none := by
  have hprefix : ¬"Infinity".toList.isPrefixOf (c :: cs) = true := by
    rw [List.isPrefixOf_iff_prefix]
    rintro ⟨rest, he⟩
    exact hword (List.cons.inj he).1.symm
  rw [takeMagnitude?, if_neg hprefix, takeMantissa?_eq, takeDigits_of_not hdigit]
  simp [hpoint]

theorem rest?_pattern :
    pattern.rest? cs = (takeMagnitude? (takeSign cs).2).map (·.2) := by
  rw [pattern, rest?_append_signPattern fun c cs hc => ?_, rest?_magnitudePattern]
  rw [Bool.or_eq_true, beq_iff_eq, beq_iff_eq] at hc
  rw [rest?_magnitudePattern]
  rcases hc with rfl | rfl <;>
    rw [takeMagnitude?_cons_of_not (by decide) (by decide) (by decide)] <;> rfl

theorem isBlank_eq_false_of_isDigit (h : c.isDigit = true) : isBlank c = false := by
  simp only [Char.isDigit, ge_iff_le, Bool.and_eq_true, decide_eq_true_eq,
    UInt32.le_iff_toNat_le] at h
  have hlow : 48 ≤ c.toNat := h.1
  have hhigh : c.toNat ≤ 57 := h.2
  simp only [isBlank, Bool.or_eq_false_iff, Bool.and_eq_false_iff, decide_eq_false_iff_not,
    beq_eq_false_iff_ne]
  omega

/-- A blank does not begin a number. -/
theorem rest?_pattern_of_isBlank (hc : isBlank c = true) : pattern.rest? (c :: cs) = none := by
  have hne (d : Char) (hd : isBlank d = false) : c ≠ d := by
    rintro rfl
    rw [hc] at hd
    cases hd
  have hsign : takeSign (c :: cs) = (false, c :: cs) :=
    takeSign_append .none fun d hd => by
      obtain rfl := Option.some.inj hd
      exact ⟨hne '-' (by decide), hne '+' (by decide)⟩
  rw [rest?_pattern, hsign,
    takeMagnitude?_cons_of_not ?_ (hne '.' (by decide)) (hne 'I' (by decide))]
  · rfl
  · exact Bool.eq_false_iff.mpr fun hd => hne c (isBlank_eq_false_of_isDigit hd) rfl

/-- The pattern captures what is taken. -/
theorem leading?_eq (text : String) : leading? text =
    (takeMagnitude? (takeSign (dropBlanks text.toList)).2).map fun taken =>
      (dropBlanks text.toList).take ((dropBlanks text.toList).length - taken.2.length) := by
  rw [leading?, captured?_many fun c cs hc => rest?_pattern_of_isBlank hc, dropBlanks,
    rest?_pattern, Option.map_map]
  rfl

/-- The pattern captures the longest prefix that writes a number. -/
theorem leading?_eq_some {text : String} {p : List Char} :
    leading? text = some p ↔ LongestNumeric p (dropBlanks text.toList) := by
  rw [leading?_eq]
  cases htaken : takeMagnitude? (takeSign (dropBlanks text.toList)).2 with
  | none =>
    refine iff_of_false (by simp) fun h => ?_
    exact takeMagnitude?_eq_none.mp htaken p h.isPrefix h.numeric
  | some taken =>
    obtain ⟨q, hq, hsplit⟩ := writes_of_takeMagnitude? htaken
    have hlongest := longestNumeric_of_takeMagnitude? htaken ⟨_, hq⟩ hsplit
    have hcaptured : (dropBlanks text.toList).take
        ((dropBlanks text.toList).length - taken.2.length) = q := by
      rw [← hsplit, List.length_append, Nat.add_sub_cancel, List.take_left]
    rw [Option.map_some, Option.some.injEq, hcaptured]
    exact ⟨fun h => h ▸ hlongest, fun h => hlongest.unique h⟩

/-- The number at the front of a text is that of the longest prefix that writes one, which is what
the pattern captures; without such a prefix there is none, and the text is not coerced. -/
theorem leading_number_is_longest (text : String) :
    (∀ p, leading? text = some p ↔ LongestNumeric p (dropBlanks text.toList)) ∧
    (ofLeading? text = none ↔
      ∀ p, p ≠ [] → p <+: dropBlanks text.toList → ¬Numeric p) ∧
    (∀ n, ofLeading? text = some n ↔
      ∃ p, LongestNumeric p (dropBlanks text.toList) ∧ n.Writes p) ∧
    (∀ n, ofLeading? text = some n → n.isNaN = false) ∧
    ((∃ v, Builtin.toNumber (.text text) = .ok v) ↔
      ∃ p, p ≠ [] ∧ p <+: dropBlanks text.toList ∧ Numeric p) := by
  have hnumber (n : Number) (h : ofLeading? text = some n) : n.isNaN = false := by
    obtain ⟨p, _, hwrites⟩ := ofLeading?_eq_some.mp h
    exact hwrites.isNaN_eq_false
  have hnone : ofLeading? text = none ↔
      ∀ p, p ≠ [] → p <+: dropBlanks text.toList → ¬Numeric p := by
    rw [ofLeading?_eq_none]
    exact ⟨fun h p _ => h p, fun h p hprefix hp => h p hp.ne_nil hprefix hp⟩
  refine ⟨fun p => leading?_eq_some, hnone, fun n => ofLeading?_eq_some, hnumber, ?_⟩
  have hexists : (∃ p, p ≠ [] ∧ p <+: dropBlanks text.toList ∧ Numeric p) ↔
      ofLeading? text ≠ none := by
    rw [Ne, hnone]
    simp only [not_forall, not_not, exists_prop]
  rw [hexists]
  cases hleading : ofLeading? text with
  | none => simp [Builtin.toNumber, hleading, reject]
  | some n => simp [Builtin.toNumber, hleading, hnumber n hleading]

end SchemaCast.Number
