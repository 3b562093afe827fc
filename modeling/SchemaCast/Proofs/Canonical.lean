import SchemaCast.Proofs.Rendering

namespace SchemaCast

/-- Distinct names are all kept. -/
theorem Json.ofMembers_eq {fields : List (String × Json)} (h : OrderedMap.Unique fields) :
    Json.ofMembers fields = .object ⟨fields⟩ :=
  congrArg Json.object (OrderedMap.Unique.ofList_entries (m := ⟨fields⟩) h)

/-- JSON of which a reader gets all back: no number and no name changes. -/
inductive Json.Canonical : Json → Prop where
  | null : Canonical .null
  | bool (b : Bool) : Canonical (.bool b)
  | number {n : Number} (kept : Value.numberJson n = .number n) : Canonical (.number n)
  | text (s : String) : Canonical (.text s)
  | array {members : List Json} (inside : ∀ j ∈ members, Canonical j) : Canonical (.array members)
  | object {fields : List (String × Json)} (unique : OrderedMap.Unique fields)
      (inside : ∀ f ∈ fields, Canonical f.2) : Canonical (.object ⟨fields⟩)

theorem Json.Canonical.ofMembers {fields : List (String × Json)}
    (h : ∀ f ∈ fields, f.2.Canonical) : (Json.ofMembers fields).Canonical :=
  .object (OrderedMap.unique_ofList fields) fun f hf => h f (OrderedMap.mem_of_mem_ofList hf)

namespace Value

/-- The values right inside a value: its members, and the keys of a map. -/
def parts : Value → List Value
  | list members | set members => members
  | map members => members.keys ++ members.values
  | record members => members.values
  | _ => []

theorem sizeOf_part_lt {v p : Value} (h : p ∈ v.parts) : sizeOf p < sizeOf v := by
  cases v with
  | list vs | set vs =>
    have := List.sizeOf_lt_of_mem (show p ∈ vs from h)
    simp; omega
  | map m =>
    obtain ⟨entries⟩ := m
    rcases List.mem_append.mp h with h | h
    · obtain ⟨⟨key, u⟩, he, rfl⟩ := List.mem_map.mp h
      have := List.sizeOf_lt_of_mem he
      simp at this ⊢
      omega
    · obtain ⟨⟨key, u⟩, he, rfl⟩ := List.mem_map.mp h
      have := List.sizeOf_lt_of_mem he
      simp at this ⊢
      omega
  | record m =>
    obtain ⟨fields⟩ := m
    obtain ⟨⟨name, u⟩, he, rfl⟩ := List.mem_map.mp h
    have := List.sizeOf_lt_of_mem he
    simp at this ⊢
    omega
  | _ => cases h

@[elab_as_elim]
theorem induction_on_parts {motive : Value → Prop}
    (step : ∀ v, (∀ p ∈ v.parts, motive p) → motive v) (v : Value) : motive v :=
  (measure (sizeOf : Value → Nat)).wf.induction v fun v ih =>
    step v fun p hp => ih p (sizeOf_part_lt hp)

theorem numberJson_canonical (n : Number) : (numberJson n).Canonical := by
  rw [numberJson_eq]
  split
  · exact .number (numberJson_eq _)
  · rename_i hzero
    split
    · rename_i hfinite
      exact .number (by rw [numberJson_eq, if_neg hzero, if_pos hfinite])
    · exact .null

theorem isFinite_of_kept {n : Number} (kept : numberJson n = .number n) : n.isFinite = true := by
  rw [numberJson_eq] at kept
  split at kept
  · obtain rfl := Json.number.inj kept
    decide
  · split at kept
    · assumption
    · cases kept

theorem toJson_canonical (v : Value) : v.toJson.Canonical := by
  induction v using induction_on_parts with
  | step v ih =>
    cases v with
    | null => exact .null
    | bool b => exact .bool b
    | number n => exact numberJson_canonical n
    | text | token | object => exact .text _
    | list vs | set vs =>
      rw [toJson, toJsonMembers_eq_map]
      exact .array (List.forall_mem_map.mpr ih)
    | map m =>
      obtain ⟨entries⟩ := m
      have hkey (e : Value × Value) (he : e ∈ entries) : e.1.toJson.Canonical :=
        ih e.1 (List.mem_append_left _ (List.mem_map_of_mem he))
      have hvalue (e : Value × Value) (he : e ∈ entries) : e.2.toJson.Canonical :=
        ih e.2 (List.mem_append_right _ (List.mem_map_of_mem he))
      unfold toJson
      split
      · rw [toJsonNamed_eq_map]
        exact .ofMembers (List.forall_mem_map.mpr hvalue)
      · rw [toJsonPairs_eq_map]
        refine .array (List.forall_mem_map.mpr fun e he => .array ?_)
        simp only [List.forall_mem_cons]
        exact ⟨hkey e he, hvalue e he, by simp⟩
    | record m =>
      obtain ⟨fields⟩ := m
      rw [toJson, toJsonFields_eq_map]
      exact .ofMembers (List.forall_mem_map.mpr fun f hf => ih f.2 (List.mem_map_of_mem hf))

theorem ofJsonMembers_eq_map (members : List Json) :
    ofJsonMembers members = members.map ofJson := by
  induction members with
  | nil => rfl
  | cons j js ih => rw [ofJsonMembers, ih, List.map_cons]

theorem ofJsonFields_eq_map (fields : List (String × Json)) :
    ofJsonFields fields = fields.map fun f => (f.1, ofJson f.2) := by
  induction fields with
  | nil => rfl
  | cons f fields ih =>
    obtain ⟨name, j⟩ := f
    rw [ofJsonFields, ih, List.map_cons]

theorem toJson_record {fields : List (String × Value)} (h : OrderedMap.Unique fields) :
    (record ⟨fields⟩).toJson = .object ⟨fields.map fun f => (f.1, f.2.toJson)⟩ := by
  have hnames : OrderedMap.Unique (fields.map fun f => (f.1, f.2.toJson)) :=
    List.pairwise_map.mpr h
  rw [toJson, toJsonFields_eq_map, Json.ofMembers_eq hnames]

/-- Canonical JSON is the JSON form of the value that it stands for. -/
theorem toJson_ofJson {j : Json} (h : j.Canonical) : (ofJson j).toJson = j := by
  induction h with
  | null | bool | text => rfl
  | number kept => exact kept
  | array _ ih =>
    rw [ofJson, ofJsonMembers_eq_map, toJson, toJsonMembers_eq_map, List.map_map]
    exact congrArg Json.array ((List.map_congr_left ih).trans (List.map_id _))
  | @object fields unique _ ih =>
    have hunique : OrderedMap.Unique (fields.map fun f => (f.1, ofJson f.2)) :=
      List.pairwise_map.mpr unique
    have hfields (f : String × Json) (hf : f ∈ fields) : (f.1, (ofJson f.2).toJson) = f :=
      Prod.ext rfl (ih f hf)
    rw [ofJson, ofJsonFields_eq_map, toJson_record hunique, List.map_map]
    exact congrArg (Json.object ⟨·⟩) ((List.map_congr_left hfields).trans (List.map_id _))

/-- Values that JSON can write: null, booleans, finite numbers and text, and lists and records of
such values. -/
inductive JsonShaped : Value → Prop where
  | null : JsonShaped null
  | bool (b : Bool) : JsonShaped (bool b)
  | number {n : Number} (finite : n.isFinite = true) : JsonShaped (number n)
  | text (s : String) : JsonShaped (text s)
  | list {members : List Value} (inside : ∀ v ∈ members, JsonShaped v) : JsonShaped (list members)
  | record {fields : List (String × Value)} (inside : ∀ f ∈ fields, JsonShaped f.2) :
    JsonShaped (ofFields fields)

theorem sameMembers_map {f : Value → Value} {members : List Value}
    (h : ∀ v ∈ members, same (f v) v = true) : sameMembers (members.map f) members = true := by
  induction members with
  | nil => rfl
  | cons v vs ih =>
    obtain ⟨hv, hvs⟩ := List.forall_mem_cons.mp h
    rw [List.map_cons, sameMembers, hv, ih hvs]
    rfl

theorem sameFields_map {f : Value → Value} {fields : List (String × Value)}
    (h : ∀ e ∈ fields, same (f e.2) e.2 = true) :
    sameFields (fields.map fun e => (e.1, f e.2)) fields = true := by
  induction fields with
  | nil => rfl
  | cons e fields ih =>
    obtain ⟨he, hfields⟩ := List.forall_mem_cons.mp h
    rw [List.map_cons, sameFields, he, ih hfields, beq_self_eq_true]
    rfl

theorem numberJson_same {n : Number} (h : n.isFinite = true) :
    same (ofJson (numberJson n)) (number n) = true := by
  have hnan : n.isNaN = false := by
    simp only [Number.isFinite, Number.isNaN, decide_eq_true_eq, decide_eq_false_iff_not] at h ⊢
    omega
  rw [numberJson_eq, if_pos h]
  split
  · rename_i hzero
    have hpositive : Number.zero.isNaN = false ∧ Number.zero.isZero = true := by decide
    change Number.same .zero n = true
    simp [Number.same, hnan, hzero, hpositive]
  · change Number.same n n = true
    simp [Number.same, hnan]

/-- What JSON can write comes back as it was, with all its members in their order. -/
theorem ofJson_toJson_same {v : Value} (h : v.JsonShaped) : same (ofJson v.toJson) v = true := by
  induction h with
  | null => rfl
  | bool b => exact beq_self_eq_true b
  | number finite => exact numberJson_same finite
  | text s => exact beq_self_eq_true s
  | list _ ih =>
    rw [toJson, toJsonMembers_eq_map, ofJson, ofJsonMembers_eq_map, List.map_map]
    exact sameMembers_map ih
  | @record fields _ ih =>
    rw [ofFields]
    have hunique := OrderedMap.unique_ofList fields
    have hmem (f : String × Value) (hf : f ∈ (OrderedMap.ofList fields).entries) :=
      ih f (OrderedMap.mem_of_mem_ofList hf)
    generalize OrderedMap.ofList fields = m at hunique hmem ⊢
    obtain ⟨entries⟩ := m
    rw [toJson_record hunique, ofJson, ofJsonFields_eq_map, List.map_map]
    exact @sameFields_map (fun v => ofJson v.toJson) entries hmem

/-- Taking JSON forms is a projection, and nothing is lost of what JSON can write. -/
theorem toJson_projects :
    (∀ v : Value, (ofJson v.toJson).toJson = v.toJson) ∧
    ∀ v : Value, v.JsonShaped → (ofJson v.toJson == v) = true :=
  ⟨fun v => toJson_ofJson v.toJson_canonical, fun _ h => ofJson_toJson_same h⟩

/-- Records with the largest whole number that is exact, the next one, and the negative zero. -/
def readings : Value :=
  .list [.ofFields [("next", .number ⟨0x4340000000000000⟩), ("last", .number ⟨0x433FFFFFFFFFFFFF⟩),
    ("least", .number ⟨0x8000000000000000⟩)], .ofFields [], .text "", .null]

theorem readings_come_back :
    readings.JsonShaped ∧ (ofJson readings.toJson == readings) = true ∧
      (ofJson readings.toJson).toJson = readings.toJson ∧
      readings.toJson = .array [.object ⟨[("next", .number ⟨0x4340000000000000⟩),
        ("last", .number ⟨0x433FFFFFFFFFFFFF⟩), ("least", .number .zero)]⟩, .object ⟨[]⟩,
        .text "", .null] := by
  have hshaped : readings.JsonShaped := by
    refine .list ?_
    simp only [List.forall_mem_cons]
    refine ⟨.record ?_, .record (by simp), .text _, .null, by simp⟩
    simp only [List.forall_mem_cons]
    exact ⟨.number (by decide), .number (by decide), .number (by decide), by simp⟩
  have hjson : readings.toJson = .array [.ofMembers [("next", numberJson ⟨0x4340000000000000⟩),
      ("last", numberJson ⟨0x433FFFFFFFFFFFFF⟩), ("least", numberJson ⟨0x8000000000000000⟩)],
      .ofMembers [], .text "", .null] := rfl
  refine ⟨hshaped, toJson_projects.2 readings hshaped, toJson_projects.1 readings, ?_⟩
  rw [hjson, numberJson_eq, numberJson_eq, numberJson_eq]
  rfl

end Value

end SchemaCast
