import SchemaCast.Proofs.Canonical
import SchemaCast.Proofs.Equality
import SchemaCast.Proofs.Members

namespace SchemaCast

theorem Number.beq_self_iff (n : Number) : (n == n) = true ↔ n.isNaN = false := by
  simp [beq_iff]

namespace Value

/-- What is not a number is the value itself or inside it: among the members of a list or a set, the
keys or the values of a map, or the fields of a record, at any depth. -/
inductive HasNaN : Value → Prop where
  | here {n : Number} (nan : n.isNaN = true) : HasNaN (number n)
  | inside {v p : Value} (part : p ∈ v.parts) (below : HasNaN p) : HasNaN v

theorem sameMembers_self (members : List Value) :
    sameMembers members members = true ↔ ∀ v ∈ members, same v v = true := by
  induction members with
  | nil => simp [sameMembers]
  | cons v members ih => simp [sameMembers, ih]

theorem sameEntries_self (entries : List (Value × Value)) :
    sameEntries entries entries = true ↔
      ∀ p ∈ entries.map Prod.fst ++ entries.map Prod.snd, same p p = true := by
  induction entries with
  | nil => simp [sameEntries]
  | cons e entries ih =>
    simp only [sameEntries, Bool.and_eq_true, ih, List.map_cons, List.cons_append,
      List.forall_mem_cons, List.forall_mem_append]
    tauto

theorem sameFields_self (fields : List (String × Value)) :
    sameFields fields fields = true ↔ ∀ p ∈ fields.map Prod.snd, same p p = true := by
  induction fields with
  | nil => simp [sameFields]
  | cons f fields ih => simp [sameFields, ih]

/-- A value that is no number equals itself exactly if its parts do. -/
theorem same_self_iff_parts {v : Value} (h : ∀ n, v ≠ number n) :
    same v v = true ↔ ∀ p ∈ v.parts, same p p = true := by
  cases v with
  | number n => exact absurd rfl (h n)
  | list members | set members => exact sameMembers_self members
  | map m => exact sameEntries_self m.entries
  | record m => exact sameFields_self m.entries
  | _ => simp [same, parts]

/-- Exactly the values that contain what is not a number do not equal themselves. -/
theorem beq_self_iff (v : Value) : (v == v) = true ↔ ¬HasNaN v := by
  induction v using induction_on_parts with
  | step v ih =>
    by_cases hv : ∃ n, v = number n
    · obtain ⟨n, rfl⟩ := hv
      rw [show (number n == number n) = (n == n) from rfl, Number.beq_self_iff]
      constructor
      · intro hn h
        cases h with
        | here nan => simp [hn] at nan
        | inside part => cases part
      · intro h
        exact Bool.eq_false_iff.mpr fun nan => h (.here nan)
    · have hparts : same v v = true ↔ ∀ p ∈ v.parts, ¬HasNaN p := by
        rw [same_self_iff_parts fun n hn => hv ⟨n, hn⟩]
        exact forall₂_congr ih
      change same v v = true ↔ _
      rw [hparts]
      constructor
      · intro hclean h
        cases h with
        | @here n _ => exact hv ⟨n, rfl⟩
        | inside part below => exact hclean _ part below
      · intro h p hp below
        exact h (.inside hp below)

/-- Equality is symmetric and transitive, and holds of a value and itself unless it contains what is
not a number. The members of the set of given values differ from each other, every given value that
equals itself is among them up to equality, and they are the members of their own set. -/
theorem equality_is_partial_equivalence :
    (∀ a b : Value, (a == b) = (b == a)) ∧
    (∀ a b c : Value, (a == b) = true → (b == c) = true → (a == c) = true) ∧
    (∀ v : Value, (v == v) = true ↔ ¬HasNaN v) ∧
    ∀ given : List Value, ∃ members, ofMembers given = set members ∧ Distinct members ∧
      (∀ v ∈ given, (v == v) = true → ∃ m ∈ members, (m == v) = true) ∧
      ofMembers members = set members := by
  refine ⟨same_comm, fun _ _ _ => same_trans, beq_self_iff, fun given => ?_⟩
  obtain ⟨_, hdistinct, hcovers⟩ := collapse_iff.mpr (rfl : distinct given = distinct given)
  exact ⟨distinct given, rfl, hdistinct, hcovers, by rw [ofMembers, distinct_eq_self hdistinct]⟩

def level : Value := ofFields [("level", list [number .zero])]

/-- The same level with the other zero. -/
def negativeLevel : Value := ofFields [("level", list [number ⟨0x8000000000000000⟩])]

/-- A map with a key that is not a number. -/
def unread : Value := ofEntries [(number ⟨0x7FF8000000000000⟩, null)]

theorem levels_equal_unread_not :
    (level == negativeLevel) = true ∧ (negativeLevel == level) = true ∧ (level == level) = true ∧
      unread.HasNaN ∧ (unread == unread) = false ∧
      ofMembers [level, unread, negativeLevel, unread] = set [level, unread, unread] ∧
      Distinct [level, unread, unread] ∧
      ofMembers [level, unread, unread] = set [level, unread, unread] := by
  obtain ⟨hcomm, htrans, hself, hset⟩ := equality_is_partial_equivalence
  have hequal : (level == negativeLevel) = true := by decide
  have hback : (negativeLevel == level) = true := (hcomm _ _).trans hequal
  have hnan : unread.HasNaN := .inside List.mem_cons_self (.here (by decide))
  have hunread : (unread == unread) = false :=
    Bool.eq_false_iff.mpr fun h => (hself unread).mp h hnan
  obtain ⟨members, hmembers, hdistinct, _, hagain⟩ :=
    hset [level, unread, negativeLevel, unread]
  obtain rfl : [level, unread, unread] = members := set.inj hmembers
  exact ⟨hequal, hback, htrans _ _ _ hequal hback, hnan, hunread, hmembers, hdistinct, hagain⟩

end Value

end SchemaCast
