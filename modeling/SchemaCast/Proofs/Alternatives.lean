import SchemaCast.Proofs.Descriptor
import SchemaCast.Schema.Compile

namespace SchemaCast

/-- Alternatives, of which consecutive ones can be grouped, to any depth. -/
inductive Grouping (α : Type) where
  | single (alternative : α)
  | group (members : List (Grouping α))

namespace Grouping

variable {α : Type}

mutual

/-- The alternatives without the groups. -/
def flatten : Grouping α → List α
  | single a => [a]
  | group members => flattenAll members
termination_by structural g => g

def flattenAll : List (Grouping α) → List α
  | [] => []
  | g :: gs => flatten g ++ flattenAll gs
termination_by structural gs => gs

end

mutual

/-- An alternative in which each group is made into one. -/
def join (combine : List α → α) : Grouping α → α
  | single a => a
  | group members => combine (joinAll combine members)
termination_by structural g => g

def joinAll (combine : List α → α) : List (Grouping α) → List α
  | [] => []
  | g :: gs => join combine g :: joinAll combine gs
termination_by structural gs => gs

end

end Grouping

namespace CastResult

variable {α : Type}

/-- Whether a value was rejected; a misuse says nothing about the value. -/
def isRejection : CastResult α → Bool
  | .error (.rejected _) => true
  | _ => false

/-- A rejection gives way to another result. -/
def orElse (first second : CastResult α) : CastResult α :=
  if first.isRejection then second else first

theorem orElse_assoc (a b c : CastResult α) : (a.orElse b).orElse c = a.orElse (b.orElse c) := by
  unfold orElse
  by_cases ha : a.isRejection = true <;> simp [ha]

end CastResult

namespace Caster

open CastResult Grouping

theorem anyOf_cons (c : Caster) (others : List Caster) (input : Option Value) :
    anyOf (c :: others) input = (c input).orElse (anyOf others input) := by
  rw [anyOf]
  cases c input with
  | ok v => rfl
  | error e => cases e <;> rfl

/-- The alternatives behind others count if all of these reject the input. -/
theorem anyOf_append (before behind : List Caster) (input : Option Value) :
    anyOf (before ++ behind) input = (anyOf before input).orElse (anyOf behind input) := by
  induction before with
  | nil => rfl
  | cons c others ih => rw [List.cons_append, anyOf_cons, anyOf_cons, ih, orElse_assoc]

/-- The first result that is not a rejection counts. -/
theorem anyOf_eq_find? (alternatives : List Caster) (input : Option Value) :
    anyOf alternatives input =
      ((alternatives.map (· input)).find? fun result => !result.isRejection).getD
        (reject ⟨[], .invalidValue input⟩) := by
  induction alternatives with
  | nil => rfl
  | cons c others ih =>
    rw [anyOf_cons, ih, orElse, List.map_cons, List.find?_cons]
    cases (c input).isRejection <;> rfl

section

variable {α : Type} {cast : α → Caster} {combine : List α → α}

-- The induction follows the groups. A group in front counts like its members in front, for its own
-- failure gives way to what comes behind it just as the failures of its members do.
mutual

theorem cast_join_orElse
    (h : ∀ alternatives, cast (combine alternatives) = anyOf (alternatives.map cast))
    (g : Grouping α) (input : Option Value) (result : CastResult Value) :
    (cast (g.join combine) input).orElse result =
      (anyOf (g.flatten.map cast) input).orElse result := by
  cases g with
  | single a =>
    rw [join, flatten, List.map_cons, anyOf_cons, orElse_assoc]
    rfl
  | group members => rw [join, flatten, h, anyOf_joinAll h members]
termination_by structural g

/-- Groups count like the alternatives in them. -/
theorem anyOf_joinAll
    (h : ∀ alternatives, cast (combine alternatives) = anyOf (alternatives.map cast))
    (gs : List (Grouping α)) (input : Option Value) :
    anyOf ((joinAll combine gs).map cast) input = anyOf ((flattenAll gs).map cast) input := by
  cases gs with
  | nil => rfl
  | cons g gs =>
    rw [joinAll, flattenAll, List.map_cons, List.map_append, anyOf_cons, anyOf_append,
      cast_join_orElse h g, anyOf_joinAll h gs]
termination_by structural gs

end

end

end Caster

namespace Schema

theorem compileAll_compiled (ds : List Descriptor) :
    compileAll (ds.map .compiled) = .ok ds := by
  induction ds with
  | nil => rfl
  | cons d ds ih =>
    rw [List.map_cons, compileAll, compileNested, ih]
    rfl

end Schema

namespace Descriptor

open Grouping

theorem cast_anyOf_joinAll (ds : List (Grouping Descriptor)) :
    (anyOf (joinAll anyOf ds)).cast = (anyOf (flattenAll ds)).cast := by
  funext input
  rw [cast_anyOf, cast_anyOf, Caster.anyOf_joinAll cast_anyOf]

/-- Groups of alternatives cast and test like the alternatives in them, and the first of these that
does not reject the input decides. -/
theorem alternatives_are_associative (casters : List (Grouping Caster))
    (ds : List (Grouping Descriptor)) (input : Option Value) :
    (Caster.anyOf (joinAll Caster.anyOf casters) input =
        Caster.anyOf (flattenAll casters) input ∧
      (∀ v, (Caster.anyOf (joinAll Caster.anyOf casters) (some v)).accepted =
        (Caster.anyOf (flattenAll casters) (some v)).accepted) ∧
      Caster.anyOf (flattenAll casters) input =
        (((flattenAll casters).map (· input)).find? fun result => !result.isRejection).getD
          (reject ⟨[], .invalidValue input⟩)) ∧
    (anyOfSchemas ((joinAll anyOf ds).map .compiled) = .ok (anyOf (joinAll anyOf ds)) ∧
      anyOfSchemas ((flattenAll ds).map .compiled) = .ok (anyOf (flattenAll ds)) ∧
      (anyOf (joinAll anyOf ds)).cast input = (anyOf (flattenAll ds)).cast input ∧
      (anyOf (joinAll anyOf ds)).accepts input = (anyOf (flattenAll ds)).accepts input ∧
      ∀ v, (anyOf (joinAll anyOf ds)).test v = (anyOf (flattenAll ds)).test v) := by
  have hcasters (input : Option Value) : Caster.anyOf (joinAll Caster.anyOf casters) input =
      Caster.anyOf (flattenAll casters) input := by
    have hid (alternatives : List Caster) :
        id (Caster.anyOf alternatives) = Caster.anyOf (alternatives.map id) := by
      rw [List.map_id, id]
    simpa only [List.map_id] using Caster.anyOf_joinAll hid casters input
  have hschemas (alternatives : List Descriptor) :
      anyOfSchemas (alternatives.map .compiled) = .ok (anyOf alternatives) := by
    rw [anyOfSchemas, Schema.compileAll_compiled]
    rfl
  have hcast := cast_anyOf_joinAll ds
  refine ⟨⟨hcasters input, fun v => by rw [hcasters], Caster.anyOf_eq_find? _ input⟩,
    hschemas _, hschemas _, by rw [hcast], by rw [accepts, accepts, hcast], fun v => ?_⟩
  change ((anyOf (joinAll anyOf ds)).cast (some v)).accepted =
    ((anyOf (flattenAll ds)).cast (some v)).accepted
  rw [hcast]

end Descriptor

end SchemaCast
