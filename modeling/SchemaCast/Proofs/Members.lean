import SchemaCast.Builtin
import SchemaCast.Descriptor
import SchemaCast.Proofs.Containers

namespace SchemaCast

namespace Value

/-- The containers that have members. -/
inductive IsContainer : Value → Prop where
  | list (members : List Value) : IsContainer (list members)
  | set (members : List Value) : IsContainer (set members)
  | map (members : OrderedMap Value Value) : IsContainer (map members)
  | record (members : OrderedMap String Value) : IsContainer (record members)

/-- The members of a container in order, each with the segment at which paths find it: its index,
the text of its key, or the name of its field. -/
def placed : Value → List (String × Value)
  | list members | set members => members.zipIdx.map fun (u, i) => (Caster.indexText i, u)
  | map members => members.entries.map fun (key, u) => (key.display, u)
  | record members => members.entries
  | _ => []

/-- `kept` is what stays of `members` when every member that equals an earlier kept one is
dropped. -/
inductive Keeps : List Value → List Value → Prop where
  | nil : Keeps [] []
  | keep {members kept : List Value} {v : Value} (earlier : Keeps members kept)
      (new : ∀ k ∈ kept, (k == v) = false) : Keeps (members ++ [v]) (kept ++ [v])
  | drop {members kept : List Value} {v k : Value} (earlier : Keeps members kept) (mem : k ∈ kept)
      (equal : (k == v) = true) : Keeps (members ++ [v]) kept

theorem Keeps.eq_distinct {members kept : List Value} (h : Keeps members kept) :
    kept = distinct members := by
  induction h with
  | nil => rfl
  | @keep members _ v _ new ih =>
    have hnone : (distinct members).any (· == v) = false :=
      List.any_eq_false.mpr fun k hk => Bool.eq_false_iff.mp (new k (ih ▸ hk))
    rw [distinct_concat, hnone, if_neg Bool.false_ne_true, ih]
  | @drop members _ v k _ mem equal ih =>
    have hsome : (distinct members).any (· == v) = true :=
      List.any_eq_true.mpr ⟨k, ih ▸ mem, equal⟩
    rw [distinct_concat, if_pos hsome, ih]

theorem keeps_distinct (members : List Value) : Keeps members (distinct members) := by
  induction members using List.reverseRecOn with
  | nil => exact .nil
  | append_singleton members v ih =>
    rw [distinct_concat]
    by_cases h : (distinct members).any (· == v) = true
    · obtain ⟨k, hk, he⟩ := List.any_eq_true.mp h
      rw [if_pos h]
      exact .drop ih hk he
    · rw [if_neg h]
      refine .keep ih fun k hk => ?_
      rw [Bool.not_eq_true, List.any_eq_false] at h
      simpa using h k hk

/-- A member that is equal to itself is kept, or an equal one is. -/
theorem Keeps.exists_equal {members kept : List Value} (h : Keeps members kept) {v : Value}
    (hv : v ∈ members) (hself : (v == v) = true) : ∃ k ∈ kept, (k == v) = true := by
  induction h with
  | nil => simp at hv
  | keep _ _ ih =>
    rcases List.mem_append.mp hv with hv | hv
    · obtain ⟨k, hk, he⟩ := ih hv
      exact ⟨k, List.mem_append_left _ hk, he⟩
    · exact ⟨v, List.mem_append_right _ hv, hself⟩
  | drop _ mem equal ih =>
    rcases List.mem_append.mp hv with hv | hv
    · exact ih hv
    · obtain rfl := List.mem_singleton.mp hv
      exact ⟨_, mem, equal⟩

/-- What is left of members in a set. -/
structure Collapse (members kept : List Value) : Prop where
  keeps : Keeps members kept
  distinct : Distinct kept
  covers : ∀ v ∈ members, (v == v) = true → ∃ k ∈ kept, (k == v) = true

theorem collapse_iff {members kept : List Value} :
    Collapse members kept ↔ kept = distinct members := by
  constructor
  · intro h
    exact h.keeps.eq_distinct
  · rintro rfl
    exact ⟨keeps_distinct members, distinct_distinct members,
      fun v hv => (keeps_distinct members).exists_equal hv⟩

end Value

namespace Caster

open Value (Collapse)

variable {child : Caster}

/-- How the cast of a member fails, as it is seen from the container. -/
inductive MemberFails (child : Caster) (segment : String) (member : Value) : CastError → Prop where
  | rejected {r : Rejection} (cast : child (some member) = .error (.rejected r)) :
    MemberFails child segment member (.rejected ⟨segment :: r.path, r.fault⟩)
  | misused {m : Misuse} (cast : child (some member) = .error (.misused m)) :
    MemberFails child segment member (.misused m)

/-- The members of the second container are the casts of the members of the first, at the same
places and under the same keys; of a set, only those that differ. -/
inductive CastPointwise (child : Caster) : Value → Value → Prop where
  | list {us ws : List Value} (cast : List.Forall₂ (fun u w => child (some u) = .ok w) us ws) :
    CastPointwise child (.list us) (.list ws)
  | set {us ws kept : List Value} (cast : List.Forall₂ (fun u w => child (some u) = .ok w) us ws)
      (collapse : Collapse ws kept) : CastPointwise child (.set us) (.set kept)
  | map {m n : OrderedMap Value Value}
      (cast : List.Forall₂ (fun e f => f.1 = e.1 ∧ child (some e.2) = .ok f.2) m.entries n.entries) :
    CastPointwise child (.map m) (.map n)
  | record {m n : OrderedMap String Value}
      (cast : List.Forall₂ (fun e f => f.1 = e.1 ∧ child (some e.2) = .ok f.2) m.entries n.entries) :
    CastPointwise child (.record m) (.record n)

theorem under_eq_error_iff {segment : String} {member : Value} {e : CastError} :
    (child (some member)).under segment = .error e ↔ MemberFails child segment member e := by
  rw [CastResult.under_eq_error]
  constructor
  · rintro ⟨inner, hc, rfl⟩
    cases inner with
    | rejected r => exact .rejected hc
    | misused m => exact .misused hc
  · rintro (cast | cast)
    · exact ⟨_, cast, rfl⟩
    · exact ⟨_, cast, rfl⟩

/-- Casting members fails as casting them by their segments does. -/
theorem castMembers_eq_error {v : Value} (hv : v.IsContainer) (e : CastError) :
    castMembers child v = .error e ↔
      v.placed.mapM (fun p => (child (some p.2)).under p.1) = .error e := by
  cases hv with
  | list us | set us =>
    rw [castMembers, except_bind_pure_eq_error, castSequence, castSequenceFrom_eq_mapM,
      Value.placed, List.mapM_map]
    rfl
  | map m =>
    rw [castMembers, except_bind_pure_eq_error, castEntryValues_eq_mapM, Value.placed,
      List.mapM_map]
    exact mapM_bind_pure_eq_error ..
  | record m =>
    rw [castMembers, except_bind_pure_eq_error, castEntryValues_eq_mapM]
    exact mapM_bind_pure_eq_error ..

/-- Fields with the given keys are put into a map as they are. -/
theorem castEntryValues_ofList {K : Type} [BEq K] {segment : K → String} {m n : OrderedMap K Value}
    (unique : OrderedMap.Unique m.entries) :
    (∃ fields, castEntryValues child segment m.entries = .ok fields ∧ .ofList fields = n) ↔
      List.Forall₂ (fun e f => f.1 = e.1 ∧ child (some e.2) = .ok f.2) m.entries n.entries := by
  have kept {fields : List (K × Value)}
      (h : List.Forall₂ (fun e f => f.1 = e.1 ∧ child (some e.2) = .ok f.2) m.entries fields) :
      (OrderedMap.ofList fields).entries = fields :=
    OrderedMap.ofList_eq_self (unique.of_keys (keys_eq_of_forall₂ h))
  simp only [castEntryValues_eq_ok]
  constructor
  · rintro ⟨fields, h, rfl⟩
    rwa [kept h]
  · intro h
    exact ⟨n.entries, h, congrArg OrderedMap.mk (kept h)⟩

theorem castMembers_eq_ok {v : Value} (hv : v.IsContainer) (unique : v.HasUniqueKeys)
    (w : Value) : castMembers child v = .ok w ↔ CastPointwise child v w := by
  cases hv with
  | list us =>
    rw [castMembers, except_bind_pure_eq_ok]
    simp only [castSequence_eq_ok]
    constructor
    · rintro ⟨ws, cast, rfl⟩
      exact .list cast
    · rintro ⟨cast⟩
      exact ⟨_, cast, rfl⟩
  | set us =>
    rw [castMembers, except_bind_pure_eq_ok]
    simp only [castSequence_eq_ok]
    constructor
    · rintro ⟨ws, cast, rfl⟩
      exact .set cast (Value.collapse_iff.mpr rfl)
    · intro h
      cases h with
      | set cast collapse =>
        exact ⟨_, cast, congrArg Value.set (Value.collapse_iff.mp collapse).symm⟩
  | map m =>
    rw [castMembers, except_bind_pure_eq_ok]
    constructor
    · rintro ⟨fields, h, rfl⟩
      exact .map ((castEntryValues_ofList unique).mp ⟨fields, h, rfl⟩)
    · intro h
      cases h with
      | map cast =>
        obtain ⟨fields, hc, hn⟩ := (castEntryValues_ofList unique).mpr cast
        exact ⟨fields, hc, congrArg Value.map hn⟩
  | record m =>
    have unique := Value.unique_names unique
    rw [castMembers, except_bind_pure_eq_ok]
    constructor
    · rintro ⟨fields, h, rfl⟩
      exact .record ((castEntryValues_ofList unique).mp ⟨fields, h, rfl⟩)
    · intro h
      cases h with
      | record cast =>
        obtain ⟨fields, hc, hn⟩ := (castEntryValues_ofList unique).mpr cast
        exact ⟨fields, hc, congrArg Value.record hn⟩

theorem sequence_eq (child : Caster) {v : Value} {us : List Value} (h : v = .list us ∨ v = .set us) :
    sequence child (some v) = (do return .list (← castSequence child us)) ∧
      ∀ e, castMembers child v = .error e ↔ castSequence child us = .error e := by
  rcases h with rfl | rfl
  · exact ⟨rfl, fun e => except_bind_pure_eq_error ..⟩
  · exact ⟨rfl, fun e => except_bind_pure_eq_error ..⟩

/-- Members are cast one by one. The first that fails makes the cast fail, below its segment unless
it is misused; otherwise every member is replaced by its cast, and those of a set that are equal to
an earlier one are dropped. As a sequence, the members of lists and sets are all kept in a list.
No two keys of a map are equal, however it was built (`OrderedMap.unique_ofList`). -/
theorem castMembers_pointwise (child : Caster) {v : Value} (hv : v.IsContainer)
    (unique : v.HasUniqueKeys) :
    (∀ e, castMembers child v = .error e ↔ ∃ before segment member after,
      v.placed = before ++ (segment, member) :: after ∧
      (∀ p ∈ before, ∃ w, child (some p.2) = .ok w) ∧ MemberFails child segment member e) ∧
    (∀ w, castMembers child v = .ok w ↔ CastPointwise child v w) ∧
    ∀ us, v = .list us ∨ v = .set us →
      (∀ e, sequence child (some v) = .error e ↔ castMembers child v = .error e) ∧
      ∀ w, sequence child (some v) = .ok w ↔
        ∃ ws, List.Forall₂ (fun u w => child (some u) = .ok w) us ws ∧ w = .list ws := by
  refine ⟨fun e => ?_, castMembers_eq_ok hv unique, fun us hus => ?_⟩
  · rw [castMembers_eq_error hv, mapM_eq_error_iff]
    simp only [Prod.exists, CastResult.under_eq_ok, under_eq_error_iff]
  · obtain ⟨hs, he⟩ := sequence_eq child hus
    rw [hs]
    refine ⟨fun e => ?_, fun w => ?_⟩
    · rw [he, except_bind_pure_eq_error]
    · rw [except_bind_pure_eq_ok]
      simp only [castSequence_eq_ok, eq_comm (a := w)]

end Caster

namespace Descriptor

/-- Two spellings of one flag, and another flag. -/
def flags : Value := .set [.text "1", .bool true, .text "0"]

def controls : Value := .ofFields [("fan", .text "1"), ("lamp", .text "on"), ("heater", .null)]

theorem flags_collapse :
    let child := (base Builtin.boolean.type).cast
    flags.IsContainer ∧ flags.HasUniqueKeys ∧
    Caster.castMembers child flags = .ok (.set [.bool true, .bool false]) ∧
    Caster.sequence child (some flags) = .ok (.list [.bool true, .bool true, .bool false]) ∧
    controls.IsContainer ∧ controls.HasUniqueKeys ∧
    Caster.castMembers child controls =
      .error (.rejected ⟨["lamp"], .invalidValue (some (.text "on"))⟩) := by
  intro child
  have hflags : flags.HasUniqueKeys := .nil
  have hcontrols : controls.HasUniqueKeys :=
    List.pairwise_map.mpr (OrderedMap.unique_ofList _)
  have hcast : List.Forall₂ (fun u w => child (some u) = .ok w)
      [.text "1", .bool true, .text "0"] [.bool true, .bool true, .bool false] :=
    .cons rfl (.cons rfl (.cons rfl .nil))
  obtain ⟨_, hok, hsequence⟩ := Caster.castMembers_pointwise child (.set _) hflags
  obtain ⟨herror, _⟩ := Caster.castMembers_pointwise child (.record _) hcontrols
  refine ⟨.set _, hflags, ?_, ?_, .record _, hcontrols, ?_⟩
  · exact (hok _).mpr (.set hcast (Value.collapse_iff.mpr rfl))
  · exact ((hsequence _ (.inr rfl)).2 _).mpr ⟨_, hcast, rfl⟩
  · refine (herror _).mpr ⟨[("fan", .text "1")], "lamp", .text "on", [("heater", .null)], rfl, ?_,
      .rejected (r := .invalidValue (.text "on")) rfl⟩
    simpa using ⟨_, rfl⟩

end Descriptor

end SchemaCast
