import SchemaCast.Proofs.OrderedMap
import SchemaCast.Proofs.Traversal

namespace SchemaCast

namespace Value

/-- The members of a container, without their keys. -/
def members : Value → List Value
  | list members | set members => members
  | map members => members.values
  | record members => members.values
  | _ => []

/-- The entries of a map or record, where the names of a record are text keys. -/
def keyed : Value → List (Value × Value)
  | map members => members.entries
  | record members => Caster.textKeyed members.entries
  | _ => []

/-- A member stands in its container at the segment that paths have for it: the decimal index, the
name of the field, or the text of the key. -/
inductive At : String → Value → Value → Prop where
  | list {vs : List Value} {i : Nat} {u : Value} (h : vs[i]? = some u) :
    At (Caster.indexText i) (list vs) u
  | set {vs : List Value} {i : Nat} {u : Value} (h : vs[i]? = some u) :
    At (Caster.indexText i) (set vs) u
  | map {m : OrderedMap Value Value} {key u : Value} (h : (key, u) ∈ m.entries) :
    At key.display (map m) u
  | record {m : OrderedMap String Value} {name : String} {u : Value} (h : (name, u) ∈ m.entries) :
    At name (record m) u

theorem At.mem_members {segment : String} {v u : Value} (h : v.At segment u) : u ∈ v.members := by
  cases h with
  | list h => exact List.mem_of_getElem? h
  | set h => exact List.mem_of_getElem? h
  | map h => exact List.mem_map_of_mem h
  | record h => exact List.mem_map_of_mem h

theorem mem_textKeyed {fields : List (String × Value)} {name : String} {u : Value} :
    (text name, u) ∈ Caster.textKeyed fields ↔ (name, u) ∈ fields := by
  simp [Caster.textKeyed]

theorem key_mem_textKeyed {fields : List (String × Value)} {name : String} :
    text name ∈ (Caster.textKeyed fields).map Prod.fst ↔ name ∈ fields.map Prod.fst := by
  simp [Caster.textKeyed]

theorem textKeyed_injective : Function.Injective Caster.textKeyed := by
  refine List.map_injective_iff.mpr fun a b hab => ?_
  simpa [Prod.ext_iff] using hab

/-- No key of a map or record is there twice. Whatever makes an ordered map keeps it so. -/
def HasUniqueKeys (v : Value) : Prop :=
  OrderedMap.Unique v.keyed

theorem unique_names {m : OrderedMap String Value} (h : (record m).HasUniqueKeys) :
    OrderedMap.Unique m.entries :=
  List.pairwise_map.mp h

/-- No key of a map or record is there twice, and no member of a set. -/
structure NoRepeats (v : Value) : Prop where
  keys : v.HasUniqueKeys
  set : ∀ vs, v = set vs → Distinct vs

/-- A condition on the value itself and on all values inside, where a map contains its keys too. -/
inductive Throughout (p : Value → Prop) : Value → Prop where
  | intro {v : Value} (here : p v) (keys : ∀ e ∈ v.keyed, Throughout p e.1)
      (members : ∀ u ∈ v.members, Throughout p u) : Throughout p v

namespace Throughout

theorem mono {p q : Value → Prop} {v : Value} (h : v.Throughout p) (hpq : ∀ v, p v → q v) :
    v.Throughout q := by
  induction h with
  | intro here _ _ ihk ihm => exact .intro (hpq _ here) ihk ihm

theorem uniqueKeys {v : Value} (h : v.Throughout NoRepeats) : v.Throughout HasUniqueKeys :=
  h.mono fun _ => NoRepeats.keys

theorem leaf {v : Value} (hk : v.keyed = []) (hm : v.members = []) : v.Throughout NoRepeats := by
  refine .intro ⟨?_, ?_⟩ (by simp [hk]) (by simp [hm])
  · rw [HasUniqueKeys, hk]
    exact List.Pairwise.nil
  · rintro vs rfl
    rw [show vs = [] from hm]
    exact List.Pairwise.nil

theorem list {vs : List Value} (h : ∀ v ∈ vs, v.Throughout NoRepeats) :
    (Value.list vs).Throughout NoRepeats :=
  .intro ⟨List.Pairwise.nil, nofun⟩ (by simp [keyed]) h

theorem ofMembers {vs : List Value} (h : ∀ v ∈ vs, v.Throughout NoRepeats) :
    (ofMembers vs).Throughout NoRepeats := by
  refine .intro ⟨List.Pairwise.nil, ?_⟩ (by simp [Value.ofMembers, keyed]) fun v hv =>
    h v (mem_of_mem_distinct hv)
  rintro ws ⟨⟩
  exact distinct_distinct vs

theorem ofEntries {entries : List (Value × Value)} (hk : ∀ e ∈ entries, e.1.Throughout NoRepeats)
    (hm : ∀ e ∈ entries, e.2.Throughout NoRepeats) : (ofEntries entries).Throughout NoRepeats := by
  refine .intro ⟨OrderedMap.unique_ofList entries, nofun⟩ (fun e he => ?_) fun v hv => ?_
  · obtain ⟨d, hd, hde⟩ := List.mem_map.mp (OrderedMap.key_mem_of_mem_ofList he)
    exact hde ▸ hk d hd
  · obtain ⟨e, he, rfl⟩ := List.mem_map.mp hv
    obtain ⟨key, hkey, _⟩ := OrderedMap.value_mem_of_mem_ofList he
    exact hm (key, e.2) hkey

theorem ofFields {fields : List (String × Value)} (h : ∀ f ∈ fields, f.2.Throughout NoRepeats) :
    (ofFields fields).Throughout NoRepeats := by
  refine .intro ⟨List.pairwise_map.mpr (OrderedMap.unique_ofList fields), nofun⟩ (fun e he => ?_)
    fun v hv => ?_
  · obtain ⟨f, _, rfl⟩ := List.mem_map.mp he
    exact leaf rfl rfl
  · obtain ⟨f, hf, rfl⟩ := List.mem_map.mp hv
    exact h f (OrderedMap.mem_of_mem_ofList hf)

end Throughout

/-- Maps and records are the containers that have keys. -/
inductive HasKeys : Value → Prop where
  | map (m : OrderedMap Value Value) : HasKeys (map m)
  | record (m : OrderedMap String Value) : HasKeys (record m)

theorem HasKeys.at_of_mem {v u : Value} {name : String} (hv : v.HasKeys)
    (h : (text name, u) ∈ v.keyed) : v.At name u := by
  cases hv with
  | map m => exact .map h
  | record m => exact .record (mem_textKeyed.mp h)

/-- Containers of one kind. -/
inductive SameKind : Value → Value → Prop where
  | list (as bs : List Value) : SameKind (list as) (list bs)
  | set (as bs : List Value) : SameKind (set as) (set bs)
  | map (as bs : OrderedMap Value Value) : SameKind (map as) (map bs)
  | record (as bs : OrderedMap String Value) : SameKind (record as) (record bs)

theorem SameKind.trans {a b c : Value} (hab : a.SameKind b) (hbc : b.SameKind c) :
    a.SameKind c := by
  cases hab <;> cases hbc <;> constructor

theorem SameKind.symm {v w : Value} (h : v.SameKind w) : w.SameKind v := by
  cases h <;> constructor

theorem SameKind.ne_null {v w : Value} (h : v.SameKind w) : w ≠ null := by
  cases h <;> simp

/-- Text keys are equal as their texts are. -/
theorem text_beq (a b : String) : (text a == text b) = (a == b) := rfl

theorem eq_text_of_beq {v : Value} {s : String} (h : (v == text s) = true) : v = text s := by
  cases v with
  | text t =>
    rw [text_beq, beq_iff_eq] at h
    rw [h]
  | _ => cases h

theorem keyed_ofFields (fields : List (String × Value)) :
    (ofFields fields).keyed = (OrderedMap.ofList (Caster.textKeyed fields)).entries :=
  (OrderedMap.ofList_map_keys text text_beq fields).symm

theorem ofEntries_textKeyed (fields : List (String × Value)) :
    ofEntries (Caster.textKeyed fields) =
      map ⟨Caster.textKeyed (OrderedMap.ofList fields).entries⟩ := by
  have h := OrderedMap.ofList_map_keys text text_beq fields
  exact congrArg (fun entries => map ⟨entries⟩) h

end Value

namespace Caster

theorem rename_ok {keys : Caster} {v w : Value} (h : rename keys v = .ok w) :
    v.SameKind w ∧ ∃ renamed, castEntryKeys keys v.keyed = .ok renamed := by
  cases v with
  | record members =>
    obtain ⟨renamed, hr, hw⟩ := (except_bind_eq_ok ..).mp h
    rw [except_pure_eq_ok] at hw
    exact ⟨hw ▸ .record .., renamed, hr⟩
  | map members =>
    obtain ⟨renamed, hr, hw⟩ := (except_bind_eq_ok ..).mp h
    rw [except_pure_eq_ok] at hw
    exact ⟨hw ▸ .map .., renamed, hr⟩
  | _ => simp [rename, reject] at h

/-- A key that cannot be cast is one of the container. -/
theorem rename_error {keys : Caster} {v : Value} {e : CastError} (h : rename keys v = .error e) :
    e = .rejected (.invalidValue v) ∨
    v.HasKeys ∧ ∃ key ∈ v.keyed.map Prod.fst, castKey keys key = .error e := by
  cases v with
  | record m =>
    rw [rename, except_bind_pure_eq_error] at h
    obtain ⟨key, u, hm, he⟩ := castEntryKeys_error h
    exact .inr ⟨.record m, key, List.mem_map_of_mem hm, he⟩
  | map m =>
    rw [rename, except_bind_pure_eq_error] at h
    obtain ⟨key, u, hm, he⟩ := castEntryKeys_error h
    exact .inr ⟨.map m, key, List.mem_map_of_mem hm, he⟩
  | _ =>
    simp only [rename, reject, Except.error.injEq] at h
    exact .inl h.symm

theorem castMembers_ok {child : Caster} {v w : Value} (h : castMembers child v = .ok w) :
    v.SameKind w ∧ ∀ m ∈ w.members, ∃ u ∈ v.members, child (some u) = .ok m := by
  cases v with
  | list vs =>
    obtain ⟨ws, hc, rfl⟩ := (except_bind_pure_eq_ok ..).mp h
    refine ⟨.list .., fun m hm => ?_⟩
    exact exists_left_of_forall₂ ((castSequence_eq_ok ..).mp hc) hm
  | set vs =>
    obtain ⟨ws, hc, rfl⟩ := (except_bind_pure_eq_ok ..).mp h
    refine ⟨.set .., fun m hm => ?_⟩
    exact exists_left_of_forall₂ ((castSequence_eq_ok ..).mp hc) (Value.mem_of_mem_distinct hm)
  | record members =>
    obtain ⟨fields, hc, rfl⟩ := (except_bind_pure_eq_ok ..).mp h
    refine ⟨.record .., fun m hm => ?_⟩
    obtain ⟨f, hf, rfl⟩ := List.mem_map.mp hm
    obtain ⟨e, he, _, hr⟩ :=
      exists_left_of_forall₂ ((castEntryValues_eq_ok ..).mp hc) (OrderedMap.mem_of_mem_ofList hf)
    exact ⟨e.2, List.mem_map_of_mem he, hr⟩
  | map members =>
    obtain ⟨fields, hc, rfl⟩ := (except_bind_pure_eq_ok ..).mp h
    refine ⟨.map .., fun m hm => ?_⟩
    obtain ⟨f, hf, rfl⟩ := List.mem_map.mp hm
    obtain ⟨key, hk, _⟩ := OrderedMap.value_mem_of_mem_ofList hf
    obtain ⟨e, he, _, hr⟩ := exists_left_of_forall₂ ((castEntryValues_eq_ok ..).mp hc) hk
    exact ⟨e.2, List.mem_map_of_mem he, hr⟩
  | _ => simp [castMembers, reject] at h

theorem exists_castMember {child : Caster} {v w u : Value} (h : castMembers child v = .ok w)
    (hu : u ∈ v.members) : ∃ m, child (some u) = .ok m := by
  cases v with
  | list vs =>
    obtain ⟨ws, hc, _⟩ := (except_bind_eq_ok ..).mp h
    obtain ⟨m, _, hm⟩ := exists_right_of_forall₂ ((castSequence_eq_ok ..).mp hc) hu
    exact ⟨m, hm⟩
  | set vs =>
    obtain ⟨ws, hc, _⟩ := (except_bind_eq_ok ..).mp h
    obtain ⟨m, _, hm⟩ := exists_right_of_forall₂ ((castSequence_eq_ok ..).mp hc) hu
    exact ⟨m, hm⟩
  | record members =>
    obtain ⟨fields, hc, _⟩ := (except_bind_eq_ok ..).mp h
    obtain ⟨e, he, rfl⟩ := List.mem_map.mp hu
    obtain ⟨f, _, _, hm⟩ := exists_right_of_forall₂ ((castEntryValues_eq_ok ..).mp hc) he
    exact ⟨f.2, hm⟩
  | map members =>
    obtain ⟨fields, hc, _⟩ := (except_bind_eq_ok ..).mp h
    obtain ⟨e, he, rfl⟩ := List.mem_map.mp hu
    obtain ⟨f, _, _, hm⟩ := exists_right_of_forall₂ ((castEntryValues_eq_ok ..).mp hc) he
    exact ⟨f.2, hm⟩
  | _ => simp [castMembers, reject] at h

/-- A member that cannot be cast fails below the segment at which it stands. -/
theorem castMembers_error {child : Caster} {v : Value} {e : CastError}
    (h : castMembers child v = .error e) :
    e = .rejected (.invalidValue v) ∨
    ∃ segment u inner, v.At segment u ∧ child (some u) = .error inner ∧
      e = inner.under segment := by
  cases v with
  | list vs =>
    rw [castMembers, except_bind_pure_eq_error] at h
    obtain ⟨i, u, inner, hu, hc, he⟩ := castSequence_error h
    exact .inr ⟨_, u, inner, .list hu, hc, he⟩
  | set vs =>
    rw [castMembers, except_bind_pure_eq_error] at h
    obtain ⟨i, u, inner, hu, hc, he⟩ := castSequence_error h
    exact .inr ⟨_, u, inner, .set hu, hc, he⟩
  | record m =>
    rw [castMembers, except_bind_pure_eq_error] at h
    obtain ⟨name, u, inner, hu, hc, he⟩ := castEntryValues_error h
    exact .inr ⟨name, u, inner, .record hu, hc, he⟩
  | map m =>
    rw [castMembers, except_bind_pure_eq_error] at h
    obtain ⟨key, u, inner, hu, hc, he⟩ := castEntryValues_error h
    exact .inr ⟨_, u, inner, .map hu, hc, he⟩
  | _ =>
    simp only [castMembers, reject, Except.error.injEq] at h
    exact .inl h.symm

theorem entries_ok {declared : List (String × Caster)} {v w : Value}
    (h : entries declared (some v) = .ok w) :
    v.SameKind w ∧ ∃ fields, castDeclared declared v.keyed = .ok fields ∧
      w.keyed = textKeyed (OrderedMap.ofList fields).entries := by
  cases v with
  | record members =>
    obtain ⟨fields, hc, hw⟩ := (except_bind_eq_ok ..).mp h
    rw [except_pure_eq_ok] at hw
    exact ⟨hw ▸ .record .., fields, hc, hw ▸ rfl⟩
  | map members =>
    obtain ⟨fields, hc, hw⟩ := (except_bind_eq_ok ..).mp h
    rw [except_pure_eq_ok, Value.ofEntries_textKeyed] at hw
    exact ⟨hw ▸ .map .., fields, hc, hw ▸ rfl⟩
  | _ => simp [entries, reject] at h

theorem entries_error {declared : List (String × Caster)} {v : Value} {e : CastError}
    (h : entries declared (some v) = .error e) :
    e = .rejected (.invalidValue v) ∨ v.HasKeys ∧ castDeclared declared v.keyed = .error e := by
  cases v with
  | record m =>
    rw [entries, except_bind_pure_eq_error] at h
    exact .inr ⟨.record m, h⟩
  | map m =>
    rw [entries, except_bind_pure_eq_error] at h
    exact .inr ⟨.map m, h⟩
  | _ =>
    simp only [entries, reject, Except.error.injEq] at h
    exact .inl h.symm

theorem declared?_mem {declared : List (String × Caster)} {key : String} {child : Caster}
    (h : declared? declared key = some child) : (key, child) ∈ declared := by
  obtain ⟨⟨name, c⟩, hf, rfl⟩ := Option.map_eq_some_iff.mp h
  obtain rfl : name = key := by simpa using List.find?_some hf
  exact List.mem_of_find?_eq_some hf

theorem declared?_eq_some {declared : List (String × Caster)}
    (hu : OrderedMap.Unique declared) {key : String} {child : Caster}
    (hm : (key, child) ∈ declared) : declared? declared key = some child := by
  rw [declared?, hu.find?_eq_some hm]
  rfl

/-- Casting the declared entries gives exactly the declared keys, each with a cast by the caster
declared for it. -/
theorem castDeclared_ok {declared : List (String × Caster)} (hu : OrderedMap.Unique declared)
    {entries : List (Value × Value)} {fields : List (String × Value)}
    (h : castDeclared declared entries = .ok fields) :
    (∀ key, key ∈ fields.map Prod.fst ↔ key ∈ declared.map Prod.fst) ∧
    ∀ f ∈ fields, ∃ child input, declared? declared f.1 = some child ∧ child input = .ok f.2 := by
  obtain ⟨present, hp, h⟩ := (except_bind_eq_ok ..).mp h
  obtain ⟨absent, ha, rfl⟩ := (except_bind_pure_eq_ok ..).mp h
  have hpresent := (castPresent_eq_ok ..).mp hp
  have habsent := (castAbsent_eq_ok ..).mp ha
  have cast_of_mem (f : String × Value) (hf : f ∈ present ++ absent) :
      ∃ child input, declared? declared f.1 = some child ∧ child input = .ok f.2 := by
    rcases List.mem_append.mp hf with hf | hf
    · obtain ⟨e, _, child, _, hd, hc⟩ := exists_left_of_forall₂ hpresent hf
      exact ⟨child, some e.2, hd, hc⟩
    · obtain ⟨d, hd, hk, hc⟩ := exists_left_of_forall₂ habsent hf
      have hm : (f.1, d.2) ∈ declared := hk ▸ List.mem_of_mem_filter hd
      exact ⟨d.2, none, declared?_eq_some hu hm, hc⟩
  refine ⟨fun key => ⟨fun hk => ?_, fun hk => ?_⟩, cast_of_mem⟩
  · obtain ⟨f, hf, rfl⟩ := List.mem_map.mp hk
    obtain ⟨child, _, hd, _⟩ := cast_of_mem f hf
    exact List.mem_map_of_mem (declared?_mem hd)
  · rw [List.map_append, List.mem_append]
    by_cases hin : key ∈ present.map Prod.fst
    · exact .inl hin
    · -- A key that is not present is among the absent ones, all of which were cast.
      obtain ⟨d, hd, rfl⟩ := List.mem_map.mp hk
      have hd : d ∈ declared.filter fun entry => !(present.map Prod.fst).contains entry.1 :=
        List.mem_filter.mpr ⟨hd, by simpa using hin⟩
      right
      rw [keys_eq_of_forall₂ habsent]
      exact List.mem_map_of_mem hd

/-- The keys that were cast are those that are present. -/
theorem mem_keys_of_castPresent {declared : List (String × Caster)}
    {entries : List (Value × Value)} {present : List (String × Value)}
    (h : castPresent declared entries = .ok present) (name : String) :
    name ∈ present.map Prod.fst ↔ .text name ∈ entries.map Prod.fst := by
  have hkeys : entries.map Prod.fst = present.map fun f => .text f.1 :=
    map_eq_of_forall₂ (((castPresent_eq_ok ..).mp h).imp fun e f ⟨_, ht, _⟩ => ht)
  simp [hkeys]

/-- Where every declared key is present, only the members are cast. -/
theorem castDeclared_eq_castPresent {declared : List (String × Caster)}
    {entries : List (Value × Value)}
    (h : ∀ key ∈ declared.map Prod.fst, .text key ∈ entries.map Prod.fst) :
    castDeclared declared entries = castPresent declared entries := by
  rw [castDeclared]
  cases hp : castPresent declared entries with
  | error e => rfl
  | ok present =>
    have habsent : castAbsent (present.map Prod.fst) declared = .ok [] := by
      rw [castAbsent_eq_ok, List.forall₂_nil_right_iff, List.filter_eq_nil_iff]
      intro d hd
      simpa using (mem_keys_of_castPresent hp d.1).mpr (h d.1 (List.mem_map_of_mem hd))
    simp [habsent, bind, Except.bind, pure, Except.pure]

/-- Declared entries fail at a member that is present, or at a declared key that is not. -/
theorem castDeclared_error {declared : List (String × Caster)} {entries : List (Value × Value)}
    {e : CastError} (h : castDeclared declared entries = .error e) :
    (∃ key v, (key, v) ∈ entries ∧ castPresentMember declared (key, v) = .error e) ∨
    ∃ name child, (name, child) ∈ declared ∧ .text name ∉ entries.map Prod.fst ∧
      castAbsentKey child name = .error e := by
  rw [castDeclared, except_bind_eq_error] at h
  rcases h with hp | ⟨present, hp, h⟩
  · exact .inl (castPresent_error hp)
  · rw [except_bind_pure_eq_error] at h
    obtain ⟨name, child, hm, habsent, he⟩ := castAbsent_error h
    exact .inr ⟨name, child, hm, mt (mem_keys_of_castPresent hp name).mpr habsent, he⟩

end Caster

end SchemaCast
