import SchemaCast.Builtin
import SchemaCast.Descriptor
import SchemaCast.Proofs.Containers
import SchemaCast.Proofs.Equality

namespace SchemaCast

namespace OrderedMap

variable {K V : Type} [BEq K]

/-- The value that comes last under the key of an entry, among its own and those of later entries
with an equal key. -/
def lastValue (e : K × V) (later : List (K × V)) : V :=
  ((later.filter (·.1 == e.1)).getLast?.getD e).2

/-- The merged entries of `after`, which come after those of `before`: an entry shows if its key is
equal to none before it, and has the last value of the entries with its key. -/
def mergedAfter (before : List (K × V)) : List (K × V) → List (K × V)
  | [] => []
  | e :: after =>
    let rest := mergedAfter (before ++ [e]) after
    if before.any (·.1 == e.1) then rest else (e.1, lastValue e after) :: rest

/-- One entry for each class of equal keys, in the order in which they first occur. -/
def merged (entries : List (K × V)) : List (K × V) := mergedAfter [] entries

theorem lastValue_concat (e x : K × V) (later : List (K × V)) :
    lastValue e (later ++ [x]) = if x.1 == e.1 then x.2 else lastValue e later := by
  cases hx : x.1 == e.1 <;> simp [lastValue, hx]

/-- A further entry gives its value to the one with an equal key, or shows itself. -/
theorem mergedAfter_concat (before entries : List (K × V)) (x : K × V) :
    mergedAfter before (entries ++ [x]) =
      (mergedAfter before entries).map (fun m => if x.1 == m.1 then (m.1, x.2) else m) ++
        if (before ++ entries).any (·.1 == x.1) then [] else [x] := by
  induction entries generalizing before with
  | nil => simp only [List.nil_append, mergedAfter, List.map_nil, List.append_nil]; rfl
  | cons e entries ih =>
    rw [List.cons_append, mergedAfter, mergedAfter, ih, List.append_assoc, List.singleton_append]
    by_cases hb : before.any (·.1 == e.1) = true
    · simp only [hb, if_true]
    · simp only [hb, Bool.false_eq_true, if_false, lastValue_concat, List.map_cons,
        List.cons_append]
      cases x.1 == e.1 <;> rfl

section Equivalence

variable [PartialEquivBEq K]

/-- Inserting replaces the value of the entry with an equal key, of which there is at most one. -/
theorem insertEntry_eq_map (key : K) (value : V) {entries : List (K × V)} (h : Unique entries) :
    (insertEntry key value entries).2 =
      entries.map (fun e => if key == e.1 then (e.1, value) else e) ++
        if entries.any (·.1 == key) then [] else [(key, value)] := by
  induction entries with
  | nil => rfl
  | cons e rest ih =>
    obtain ⟨he, hr⟩ := List.pairwise_cons.mp h
    cases hk : e.1 == key with
    | true =>
      have hothers : rest.map (fun r => if key == r.1 then (r.1, value) else r) = rest := by
        refine (List.map_congr_left fun r hm => ?_).trans (List.map_id rest)
        have hne : (key == r.1) = false := by rw [← BEq.congr_left hk, he r hm]
        simp [hne]
      simp [insertEntry, hk, BEq.symm hk, hothers]
    | false =>
      have hne : (key == e.1) = false := by rw [BEq.comm, hk]
      simp only [insertEntry, hk, hne, ih hr, List.map_cons, List.any_cons, Bool.false_or,
        Bool.false_eq_true, if_false, List.cons_append]

/-- A key that is equal to one of the entries is equal to one of the map. -/
theorem any_ofList (key : K) (entries : List (K × V)) :
    (ofList entries).entries.any (·.1 == key) = entries.any (·.1 == key) := by
  induction entries using List.reverseRecOn with
  | nil => rfl
  | append_singleton entries e ih =>
    have hkeys (es : List (K × V)) : es.any (·.1 == key) = (es.map Prod.fst).any (· == key) := by
      rw [List.any_map]
      rfl
    rw [List.any_append, ← ih, hkeys, ofList_concat, keys_insertEntry]
    by_cases h : (ofList entries).entries.any (·.1 == e.1) = true
    · -- The key of the entry does not go in, but then one that is equal to it is there.
      rw [if_pos h, ← hkeys]
      cases hk : e.1 == key with
      | false => simp [hk]
      | true =>
        obtain ⟨d, hd, hde⟩ := List.any_eq_true.mp h
        have hany : (ofList entries).entries.any (·.1 == key) = true :=
          List.any_eq_true.mpr ⟨d, hd, BEq.trans hde hk⟩
        rw [hany, Bool.true_or]
    · rw [if_neg h, List.any_append, ← hkeys]
      rfl

/-- Inserting entries one after another merges those with equal keys. -/
theorem ofList_eq_merged (entries : List (K × V)) : (ofList entries).entries = merged entries := by
  induction entries using List.reverseRecOn with
  | nil => rfl
  | append_singleton entries e ih =>
    rw [ofList_concat, insertEntry_eq_map _ _ (unique_ofList entries), any_ofList, ih, merged,
      merged, mergedAfter_concat, List.nil_append]

end Equivalence

theorem merged_eq_self [PartialEquivBEq K] {entries : List (K × V)} (h : Unique entries) :
    merged entries = entries := by
  rw [← ofList_eq_merged, ofList_eq_self h]

end OrderedMap

namespace Value

/-- Entries as containers of the kind show them: the names of a record are texts. -/
def shown (container : Value) (entries : List (Value × Value)) : List (Value × Value) :=
  match container with
  | record _ => entries.map fun (key, member) => (text key.display, member)
  | _ => entries

end Value

namespace Caster

variable {keys : Caster}

/-- How the cast of a key fails. -/
inductive KeyFails (keys : Caster) (key : Value) : CastError → Prop where
  | rejected {cause : Rejection} (cast : keys (some key) = .error (.rejected cause)) :
    KeyFails keys key (.rejected ⟨[], .invalidKey key cause⟩)
  | misused {m : Misuse} (cast : keys (some key) = .error (.misused m)) :
    KeyFails keys key (.misused m)

theorem castKey_eq_error {key : Value} {e : CastError} :
    castKey keys key = .error e ↔ KeyFails keys key e := by
  constructor
  · intro h
    rcases castKey_error h with ⟨cause, hc, rfl⟩ | ⟨m, hc, rfl⟩
    · exact .rejected hc
    · exact .misused hc
  · rintro (cast | cast)
    · simp only [castKey, cast]
      rfl
    · simp only [castKey, cast]

theorem castEntryKeys_eq_error {entries : List (Value × Value)} {e : CastError} :
    castEntryKeys keys entries = .error e ↔ ∃ before key member after,
      entries = before ++ (key, member) :: after ∧
      (∀ entry ∈ before, ∃ c, keys (some entry.1) = .ok c) ∧ KeyFails keys key e := by
  rw [castEntryKeys_eq_mapM, mapM_eq_error_iff]
  simp only [Prod.exists, except_bind_pure_eq_error, castKey_eq_error, except_bind_pure_succeeds,
    castKey_eq_ok]

theorem rename_eq_error {v : Value} (hv : v.HasKeys) (e : CastError) :
    rename keys v = .error e ↔ castEntryKeys keys v.keyed = .error e := by
  cases hv with
  | map m => exact except_bind_pure_eq_error ..
  | record m => exact except_bind_pure_eq_error ..

theorem rename_of_renamed {v : Value} (hv : v.HasKeys) {renamed : List (Value × Value)}
    (h : castEntryKeys keys v.keyed = .ok renamed) :
    ∃ w, rename keys v = .ok w ∧ v.SameKind w ∧ w.keyed = OrderedMap.merged (v.shown renamed) := by
  cases hv with
  | map m =>
    refine ⟨.ofEntries renamed, ?_, .map .., OrderedMap.ofList_eq_merged renamed⟩
    rw [rename, show castEntryKeys keys m.entries = _ from h]
    rfl
  | record m =>
    refine ⟨.ofFields (displayKeyed renamed), ?_, .record .., ?_⟩
    · rw [rename, show castEntryKeys keys (textKeyed m.entries) = _ from h]
      rfl
    · have hshown : textKeyed (displayKeyed renamed) = (Value.record m).shown renamed := by
        rw [textKeyed, displayKeyed, List.map_map]
        rfl
      rw [Value.keyed_ofFields, OrderedMap.ofList_eq_merged, hshown]

/-- The first key that cannot be cast makes the cast of the keys fail. If there is none, then the
entries merge: each class of equal keys shows as its first key, with the member of its last. -/
theorem rename_merges (keys : Caster) {v : Value} (hv : v.HasKeys) :
    (∀ e, rename keys v = .error e ↔ ∃ before key member after,
      v.keyed = before ++ (key, member) :: after ∧
      (∀ entry ∈ before, ∃ c, keys (some entry.1) = .ok c) ∧ KeyFails keys key e) ∧
    ∀ renamed, List.Forall₂ (fun entry named => keys (some entry.1) = .ok named.1 ∧
        named.2 = entry.2) v.keyed renamed →
      ∃ w, rename keys v = .ok w ∧ v.SameKind w ∧
        w.keyed = OrderedMap.merged (v.shown renamed) ∧
        (OrderedMap.Unique (v.shown renamed) → w.keyed = v.shown renamed) := by
  constructor
  · intro e
    rw [rename_eq_error hv, castEntryKeys_eq_error]
  · intro renamed h
    obtain ⟨w, hw, hk, hm⟩ := rename_of_renamed hv ((castEntryKeys_eq_ok ..).mpr h)
    refine ⟨w, hw, hk, hm, fun hu => ?_⟩
    rw [hm, OrderedMap.merged_eq_self hu]

end Caster

namespace Descriptor

/-- A map with two keys for each of the booleans. -/
def switchboard : Value := .ofEntries [(.text "0", .text "a"), (.text "1", .text "b"),
  (.bool false, .text "c"), (.text "true", .text "d")]

theorem switchboard_merges :
    let keys := (base Builtin.boolean.type).cast
    let renamed : List (Value × Value) := [(.bool false, .text "a"), (.bool true, .text "b"),
      (.bool false, .text "c"), (.bool true, .text "d")]
    switchboard.HasKeys ∧
    List.Forall₂ (fun entry named => keys (some entry.1) = .ok named.1 ∧ named.2 = entry.2)
      switchboard.keyed renamed ∧
    Caster.rename keys switchboard =
      .ok (.ofEntries [(.bool false, .text "c"), (.bool true, .text "d")]) := by
  intro keys renamed
  have hv : switchboard.HasKeys := .map _
  have hr : List.Forall₂ (fun entry named => keys (some entry.1) = .ok named.1 ∧
      named.2 = entry.2) switchboard.keyed renamed :=
    .cons ⟨rfl, rfl⟩ (.cons ⟨rfl, rfl⟩ (.cons ⟨rfl, rfl⟩ (.cons ⟨rfl, rfl⟩ .nil)))
  refine ⟨hv, hr, ?_⟩
  obtain ⟨w, hw, hk, hm, _⟩ := (Caster.rename_merges keys hv).2 renamed hr
  rw [hw]
  cases hk with
  | map m n => exact congrArg (fun entries => Except.ok (Value.map ⟨entries⟩)) hm

end Descriptor

end SchemaCast
