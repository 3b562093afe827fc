namespace SchemaCast.Text

inductive Pattern where
  | empty
  | one (holds : Char → Bool)
  | many (holds : Char → Bool)
  | append (first second : Pattern)
  | either (first second : Pattern)

namespace Pattern

/-- What follows repeated characters of a class, the most of them first. -/
def restsOfMany (holds : Char → Bool) : List Char → List (List Char)
  | [] => [[]]
  | c :: cs => if holds c then restsOfMany holds cs ++ [c :: cs] else [c :: cs]

/-- What follows the matches at the front of a text, in the order in which they are tried. -/
def rests : Pattern → List Char → List (List Char)
  | empty, cs => [cs]
  | one _, [] => []
  | one holds, c :: cs => if holds c then [cs] else []
  | many holds, cs => restsOfMany holds cs
  | append first second, cs => (rests first cs).flatMap (rests second)
  | either first second, cs => rests first cs ++ rests second cs

/-- What follows the match that counts. -/
def rest? (p : Pattern) (cs : List Char) : Option (List Char) := (p.rests cs).head?

/-- What a pattern matches behind another one that it comes after. -/
def captured? (skipped p : Pattern) (cs : List Char) : Option (List Char) :=
  (skipped.rests cs).findSome? fun start =>
    (p.rest? start).map fun rest => start.take (start.length - rest.length)

/-- Matches if it can, and is passed over if it cannot. -/
def optional (p : Pattern) : Pattern := either p empty

/-- The given characters, one after another. -/
def literal : List Char → Pattern
  | [] => empty
  | c :: cs => append (one (· == c)) (literal cs)

variable {p q : Pattern} {holds : Char → Bool} {c : Char} {cs : List Char}

theorem rest?_empty : empty.rest? cs = some cs := rfl

theorem rest?_either : (either p q).rest? cs = (p.rest? cs).or (q.rest? cs) :=
  List.head?_append

theorem rest?_optional : p.optional.rest? cs = some ((p.rest? cs).getD cs) := by
  rw [optional, rest?_either, rest?_empty]
  cases p.rest? cs <;> rfl

theorem head?_restsOfMany : (restsOfMany holds cs).head? = some (cs.dropWhile holds) := by
  induction cs with
  | nil => rfl
  | cons c cs ih =>
    by_cases hc : holds c = true
    · rw [restsOfMany, if_pos hc, List.head?_append, ih, List.dropWhile_cons_of_pos hc]
      rfl
    · rw [restsOfMany, if_neg hc, List.dropWhile_cons_of_neg hc]
      rfl

theorem rest?_many : (many holds).rest? cs = some (cs.dropWhile holds) :=
  head?_restsOfMany

theorem rest?_append : (append p q).rest? cs = (p.rests cs).findSome? q.rest? :=
  List.head?_flatMap

theorem rest?_append_one : (append (one holds) q).rest? (c :: cs) =
    if holds c then q.rest? cs else none := by
  rw [rest?_append, rests]
  split <;> simp

/-- In front of a pattern that always matches, the first match of another one counts. -/
theorem rest?_append_of_isSome (hq : ∀ cs, (q.rest? cs).isSome) :
    (append p q).rest? cs = (p.rest? cs).bind q.rest? := by
  rw [rest?_append, rest?]
  cases p.rests cs with
  | nil => rfl
  | cons first others =>
    obtain ⟨rest, hrest⟩ := Option.isSome_iff_exists.mp (hq first)
    simp [hrest]

/-- An optional character in front of a pattern that cannot begin with it. -/
theorem rest?_append_optional_one (hq : ∀ c cs, holds c = true → q.rest? (c :: cs) = none) :
    (append (one holds).optional q).rest? cs =
      match cs with
      | c :: cs => if holds c then q.rest? cs else q.rest? (c :: cs)
      | [] => q.rest? [] := by
  rw [rest?_append, optional]
  cases cs with
  | nil => simp [rests]
  | cons c cs =>
    by_cases hc : holds c = true
    · have hrests : ((one holds).either empty).rests (c :: cs) = [cs, c :: cs] := by
        simp [rests, hc]
      rw [hrests, List.findSome?_cons, List.findSome?_cons, hq c cs hc]
      simp only [hc, if_true]
      cases q.rest? cs <;> rfl
    · simp [rests, hc]

theorem rest?_literal (word : List Char) : (literal word).rest? cs =
    if word.isPrefixOf cs then some (cs.drop word.length) else none := by
  induction word generalizing cs with
  | nil => rfl
  | cons c word ih =>
    cases cs with
    | nil => rfl
    | cons d cs =>
      rw [literal, rest?_append_one, ih, List.isPrefixOf_cons_cons, List.length_cons,
        List.drop_succ_cons]
      by_cases hd : d = c
      · simp [hd]
      · simp [hd, Ne.symm hd]

/-- What cannot begin with a skipped character is matched right behind all of these. -/
theorem captured?_many (hp : ∀ c cs, holds c = true → p.rest? (c :: cs) = none) :
    captured? (many holds) p cs = (p.rest? (cs.dropWhile holds)).map fun rest =>
      (cs.dropWhile holds).take ((cs.dropWhile holds).length - rest.length) := by
  rw [captured?, rests]
  induction cs with
  | nil => simp [restsOfMany]
  | cons c cs ih =>
    by_cases hc : holds c = true
    · rw [restsOfMany, if_pos hc, List.findSome?_append, ih, List.dropWhile_cons_of_pos hc]
      simp [hp c cs hc]
    · rw [restsOfMany, if_neg hc, List.dropWhile_cons_of_neg hc]
      simp

end Pattern

end SchemaCast.Text
