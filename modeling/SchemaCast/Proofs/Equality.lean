import SchemaCast.Value.Basic

namespace SchemaCast

theorem Number.beq_iff (a b : Number) :
    (a == b) = true ↔ a.isNaN = false ∧ b.isNaN = false ∧ (a = b ∨ a.isZero ∧ b.isZero) := by
  have hbits : (a.bits == b.bits) = true ↔ a = b := by
    cases a
    cases b
    simp
  change same a b = true ↔ _
  simp only [same, Bool.and_eq_true, Bool.or_eq_true, Bool.not_eq_true', hbits, and_assoc]

instance : PartialEquivBEq Number where
  symm {a b} h := by
    rw [Number.beq_iff] at h ⊢
    obtain ⟨ha, hb, hab⟩ := h
    exact ⟨hb, ha, hab.imp Eq.symm And.symm⟩
  trans {a b c} hab hbc := by
    rw [Number.beq_iff] at hab hbc ⊢
    obtain ⟨ha, _, hab⟩ := hab
    obtain ⟨_, hc, hbc⟩ := hbc
    refine ⟨ha, hc, ?_⟩
    rcases hab with rfl | ⟨hza, _⟩
    · exact hbc
    · rcases hbc with rfl | ⟨_, hzc⟩
      · exact .inr ⟨hza, ‹_›⟩
      · exact .inr ⟨hza, hzc⟩

namespace Value

-- One statement for each of the mutually recursive functions that make up equality.
mutual

theorem same_comm : ∀ a b : Value, same a b = same b a
  | null, b => by cases b <;> rfl
  | bool x, b => by
    cases b with
    | bool y => exact BEq.comm
    | _ => rfl
  | number x, b => by
    cases b with
    | number y => exact BEq.comm
    | _ => rfl
  | text x, b => by
    cases b with
    | text y => exact BEq.comm
    | _ => rfl
  | token x, b => by
    cases b with
    | token y => exact BEq.comm
    | _ => rfl
  | list xs, b => by
    cases b with
    | list ys => exact sameMembers_comm xs ys
    | _ => rfl
  | set xs, b => by
    cases b with
    | set ys => exact sameMembers_comm xs ys
    | _ => rfl
  | map ⟨xs⟩, b => by
    cases b with
    | map ys => exact sameEntries_comm xs ys.entries
    | _ => rfl
  | record ⟨xs⟩, b => by
    cases b with
    | record ys => exact sameFields_comm xs ys.entries
    | _ => rfl
  | object x, b => by
    cases b with
    | object y => exact BEq.comm
    | _ => rfl
termination_by structural a => a

theorem sameMembers_comm : ∀ as bs : List Value, sameMembers as bs = sameMembers bs as
  | [], [] => rfl
  | [], _ :: _ => rfl
  | _ :: _, [] => rfl
  | a :: as, b :: bs => by
    rw [sameMembers, sameMembers, same_comm a b, sameMembers_comm as bs]
termination_by structural as => as

theorem sameEntries_comm : ∀ as bs : List (Value × Value), sameEntries as bs = sameEntries bs as
  | [], [] => rfl
  | [], _ :: _ => rfl
  | _ :: _, [] => rfl
  | (j, a) :: as, (k, b) :: bs => by
    rw [sameEntries, sameEntries, same_comm j k, same_comm a b, sameEntries_comm as bs]
termination_by structural as => as

theorem sameFields_comm : ∀ as bs : List (String × Value), sameFields as bs = sameFields bs as
  | [], [] => rfl
  | [], _ :: _ => rfl
  | _ :: _, [] => rfl
  | (j, a) :: as, (k, b) :: bs => by
    rw [sameFields, sameFields, BEq.comm (a := j), same_comm a b, sameFields_comm as bs]
termination_by structural as => as

end

mutual

theorem same_trans : ∀ {a b c : Value}, same a b = true → same b c = true → same a c = true
  | null, b, c, hab, hbc => by
    cases b with
    | null => exact hbc
    | _ => cases hab
  | bool x, b, c, hab, hbc => by
    cases b with
    | bool y =>
      cases c with
      | bool z => exact BEq.trans (b := y) hab hbc
      | _ => cases hbc
    | _ => cases hab
  | number x, b, c, hab, hbc => by
    cases b with
    | number y =>
      cases c with
      | number z => exact BEq.trans (b := y) hab hbc
      | _ => cases hbc
    | _ => cases hab
  | text x, b, c, hab, hbc => by
    cases b with
    | text y =>
      cases c with
      | text z => exact BEq.trans (b := y) hab hbc
      | _ => cases hbc
    | _ => cases hab
  | token x, b, c, hab, hbc => by
    cases b with
    | token y =>
      cases c with
      | token z => exact BEq.trans (b := y.identity) hab hbc
      | _ => cases hbc
    | _ => cases hab
  | list xs, b, c, hab, hbc => by
    cases b with
    | list ys =>
      cases c with
      | list zs => exact sameMembers_trans xs ys zs hab hbc
      | _ => cases hbc
    | _ => cases hab
  | set xs, b, c, hab, hbc => by
    cases b with
    | set ys =>
      cases c with
      | set zs => exact sameMembers_trans xs ys zs hab hbc
      | _ => cases hbc
    | _ => cases hab
  | map ⟨xs⟩, b, c, hab, hbc => by
    cases b with
    | map ys =>
      cases c with
      | map zs => exact sameEntries_trans xs ys.entries zs.entries hab hbc
      | _ => cases hbc
    | _ => cases hab
  | record ⟨xs⟩, b, c, hab, hbc => by
    cases b with
    | record ys =>
      cases c with
      | record zs => exact sameFields_trans xs ys.entries zs.entries hab hbc
      | _ => cases hbc
    | _ => cases hab
  | object x, b, c, hab, hbc => by
    cases b with
    | object y =>
      cases c with
      | object z => exact BEq.trans (b := y.identity) hab hbc
      | _ => cases hbc
    | _ => cases hab
termination_by structural a => a

theorem sameMembers_trans : ∀ as bs cs : List Value,
    sameMembers as bs = true → sameMembers bs cs = true → sameMembers as cs = true
  | [], [], _, _, hbc => hbc
  | _ :: _, [], _, hab, _ => by cases hab
  | _ :: _, _ :: _, [], _, hbc => by cases hbc
  | a :: as, b :: bs, c :: cs, hab, hbc => by
    simp only [sameMembers, Bool.and_eq_true] at hab hbc ⊢
    exact ⟨same_trans hab.1 hbc.1, sameMembers_trans as bs cs hab.2 hbc.2⟩
termination_by structural as => as

theorem sameEntries_trans : ∀ as bs cs : List (Value × Value),
    sameEntries as bs = true → sameEntries bs cs = true → sameEntries as cs = true
  | [], [], _, _, hbc => hbc
  | _ :: _, [], _, hab, _ => by cases hab
  | _ :: _, _ :: _, [], _, hbc => by cases hbc
  | (j, a) :: as, (k, b) :: bs, (l, c) :: cs, hab, hbc => by
    simp only [sameEntries, Bool.and_eq_true] at hab hbc ⊢
    exact ⟨⟨same_trans hab.1.1 hbc.1.1, same_trans hab.1.2 hbc.1.2⟩,
      sameEntries_trans as bs cs hab.2 hbc.2⟩
termination_by structural as => as

theorem sameFields_trans : ∀ as bs cs : List (String × Value),
    sameFields as bs = true → sameFields bs cs = true → sameFields as cs = true
  | [], [], _, _, hbc => hbc
  | _ :: _, [], _, hab, _ => by cases hab
  | _ :: _, _ :: _, [], _, hbc => by cases hbc
  | (j, a) :: as, (k, b) :: bs, (l, c) :: cs, hab, hbc => by
    simp only [sameFields, Bool.and_eq_true] at hab hbc ⊢
    exact ⟨⟨BEq.trans hab.1.1 hbc.1.1, same_trans hab.1.2 hbc.1.2⟩,
      sameFields_trans as bs cs hab.2 hbc.2⟩
termination_by structural as => as

end

instance : PartialEquivBEq Value where
  symm {a b} h := (same_comm b a).trans h
  trans := same_trans

end Value

end SchemaCast
