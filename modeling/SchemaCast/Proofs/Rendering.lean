import SchemaCast.Proofs.Containers
import SchemaCast.Proofs.Nearest
import SchemaCast.Value.Text

namespace SchemaCast

namespace Json

theorem writtenMembers_eq_map (spacing : Spacing) (level : Nat) (members : List Json) :
    writtenMembers spacing level members = members.map (written spacing level) := by
  induction members with
  | nil => rfl
  | cons j js ih => rw [writtenMembers, ih, List.map_cons]

theorem writtenFields_eq_map (spacing : Spacing) (level : Nat) (fields : List (String × Json)) :
    writtenFields spacing level fields =
      fields.map fun f => namedMember spacing f.1 (written spacing level f.2) := by
  induction fields with
  | nil => rfl
  | cons f fields ih =>
    obtain ⟨name, j⟩ := f
    rw [writtenFields, ih, List.map_cons]

end Json

namespace Number

theorem wholeNumber?_of_isZero {n : Number} (h : n.isZero = true) : n.wholeNumber? = some 0 := by
  have hmagnitude : n.magnitude = 0 := by simpa [isZero] using h
  have hunits : n.units = 0 := by simp [units, unitsOf, hmagnitude]
  have hfinite : n.isFinite = true := by
    simp [isFinite, hmagnitude, infinityMagnitude, binade]
  simp [wholeNumber?, hunits, hfinite, binade]

theorem isZero_of_wholeNumber?_eq_none {n : Number} (h : n.wholeNumber? = none) :
    n.isZero = false := by
  by_contra hzero
  rw [wholeNumber?_of_isZero (by simpa using hzero)] at h
  cases h

theorem wholeNumber?_of_not_isFinite {n : Number} (h : n.isFinite = false) :
    n.wholeNumber? = none := by
  simp [wholeNumber?, h]

end Number

namespace Value

open Json (Spacing)

/-- Both routes give a finite number back as it is, but for the sign of zero. -/
theorem numberJson_eq (n : Number) :
    numberJson n = if n.isZero then .number .zero else if n.isFinite then .number n else .null := by
  unfold numberJson
  split
  · rename_i whole hwhole
    obtain ⟨hfinite, _⟩ := Number.wholeNumber?_eq_some hwhole
    rw [Number.ofInt_wholeNumber? hwhole, hfinite]
    split <;> rfl
  · rename_i hnone
    rw [Number.isZero_of_wholeNumber?_eq_none hnone]
    rfl

section

variable (spacing : Spacing) (level : Nat)

/-- The JSON form of a number is written like the number itself, also where it is another one. -/
theorem written_numberJson (n : Number) :
    (numberJson n).written spacing level = Json.numberText n := by
  rw [numberJson_eq]
  split
  · rename_i hzero
    have hpositive : Number.zero.isZero = true := by decide
    simp only [Json.written, Json.numberText, Number.wholeNumber?_of_isZero hzero,
      Number.wholeNumber?_of_isZero hpositive]
  · split
    · rfl
    · rename_i hfinite
      have hfinite : n.isFinite = false := by simpa using hfinite
      simp [Json.written, Json.numberText, Number.wholeNumber?_of_not_isFinite hfinite, hfinite]

theorem toJsonMembers_eq_map (members : List Value) :
    toJsonMembers members = members.map toJson := by
  induction members with
  | nil => rfl
  | cons v vs ih => rw [toJsonMembers, ih, List.map_cons]

theorem toJsonNamed_eq_map (entries : List (Value × Value)) :
    toJsonNamed entries = entries.map fun e => (e.1.fieldName, e.2.toJson) := by
  induction entries with
  | nil => rfl
  | cons e entries ih => rw [toJsonNamed, ih, List.map_cons]

theorem toJsonPairs_eq_map (entries : List (Value × Value)) :
    toJsonPairs entries = entries.map fun e => .array [e.1.toJson, e.2.toJson] := by
  induction entries with
  | nil => rfl
  | cons e entries ih => rw [toJsonPairs, ih, List.map_cons]

theorem toJsonFields_eq_map (fields : List (String × Value)) :
    toJsonFields fields = fields.map fun f => (f.1, f.2.toJson) := by
  induction fields with
  | nil => rfl
  | cons f fields ih => rw [toJsonFields, ih, List.map_cons]

theorem writtenMembers_eq_map (members : List Value) :
    writtenMembers spacing level members = members.map (written spacing level) := by
  induction members with
  | nil => rfl
  | cons v vs ih => rw [writtenMembers, ih, List.map_cons]

theorem writtenNamed_eq_map (entries : List (Value × Value)) :
    writtenNamed spacing level entries =
      entries.map fun e => Json.namedMember spacing e.1.fieldName (written spacing level e.2) := by
  induction entries with
  | nil => rfl
  | cons e entries ih => rw [writtenNamed, ih, List.map_cons]

theorem writtenPairs_eq_map (entries : List (Value × Value)) :
    writtenPairs spacing level entries = entries.map fun e =>
      Json.bracketed spacing level '[' ']'
        [written spacing (level + 1) e.1, written spacing (level + 1) e.2] := by
  induction entries with
  | nil => rfl
  | cons e entries ih => rw [writtenPairs, ih, List.map_cons]

theorem writtenFields_eq_map (fields : List (String × Value)) :
    writtenFields spacing level fields =
      fields.map fun f => Json.namedMember spacing f.1 (written spacing level f.2) := by
  induction fields with
  | nil => rfl
  | cons f fields ih => rw [writtenFields, ih, List.map_cons]

end

/-- Text keys give the members of an object distinct names. -/
theorem unique_toJsonNamed {entries : List (Value × Value)} (h : OrderedMap.Unique entries)
    (htext : entries.all (·.1.isText) = true) : OrderedMap.Unique (toJsonNamed entries) := by
  rw [toJsonNamed_eq_map]
  refine List.pairwise_map.mpr (h.imp_of_mem ?_)
  rintro ⟨j, _⟩ ⟨k, _⟩ hj hk hne
  have hj := List.all_eq_true.mp htext _ hj
  have hk := List.all_eq_true.mp htext _ hk
  cases j <;> cases k <;> simp [isText] at hj hk
  exact hne

theorem writtenMembers_toJson {spacing : Spacing} {level : Nat} {vs : List Value}
    (h : ∀ v ∈ vs, v.toJson.written spacing level = v.written spacing level) :
    Json.writtenMembers spacing level (toJsonMembers vs) = writtenMembers spacing level vs := by
  rw [Json.writtenMembers_eq_map, toJsonMembers_eq_map, writtenMembers_eq_map, List.map_map]
  exact List.map_congr_left h

theorem writtenPairs_toJson {spacing : Spacing} {level : Nat} {entries : List (Value × Value)}
    (hk : ∀ e ∈ entries, e.1.toJson.written spacing (level + 1) = e.1.written spacing (level + 1))
    (hv : ∀ e ∈ entries, e.2.toJson.written spacing (level + 1) = e.2.written spacing (level + 1)) :
    Json.writtenMembers spacing level (toJsonPairs entries) =
      writtenPairs spacing level entries := by
  rw [Json.writtenMembers_eq_map, toJsonPairs_eq_map, writtenPairs_eq_map, List.map_map]
  refine List.map_congr_left fun e he => ?_
  simp only [Function.comp_apply, Json.written, Json.writtenMembers, hk e he, hv e he]

/-- An object made of fields with distinct names is written field by field. -/
theorem written_ofMembers {spacing : Spacing} {level : Nat} {fields : List (String × Json)}
    (h : OrderedMap.Unique fields) :
    (Json.ofMembers fields).written spacing level =
      Json.bracketed spacing level '{' '}'
        (fields.map fun f => Json.namedMember spacing f.1 (f.2.written spacing (level + 1))) := by
  have hfields : OrderedMap.ofList fields = ⟨fields⟩ :=
    OrderedMap.Unique.ofList_entries (m := ⟨fields⟩) h
  rw [Json.ofMembers, hfields, Json.written, Json.writtenFields_eq_map]

theorem written_toJsonNamed {spacing : Spacing} {level : Nat} {entries : List (Value × Value)}
    (unique : OrderedMap.Unique entries) (htext : entries.all (·.1.isText) = true)
    (h : ∀ e ∈ entries, e.2.toJson.written spacing (level + 1) = e.2.written spacing (level + 1)) :
    (Json.ofMembers (toJsonNamed entries)).written spacing level =
      Json.bracketed spacing level '{' '}' (writtenNamed spacing (level + 1) entries) := by
  rw [written_ofMembers (unique_toJsonNamed unique htext), toJsonNamed_eq_map, List.map_map,
    writtenNamed_eq_map]
  congr 1
  refine List.map_congr_left fun e he => ?_
  simp only [Function.comp_apply, h e he]

theorem written_toJsonFields {spacing : Spacing} {level : Nat} {fields : List (String × Value)}
    (unique : OrderedMap.Unique fields)
    (h : ∀ f ∈ fields, f.2.toJson.written spacing (level + 1) = f.2.written spacing (level + 1)) :
    (Json.ofMembers (toJsonFields fields)).written spacing level =
      Json.bracketed spacing level '{' '}' (writtenFields spacing (level + 1) fields) := by
  have hnames : OrderedMap.Unique (toJsonFields fields) := by
    rw [toJsonFields_eq_map]
    exact List.pairwise_map.mpr unique
  rw [written_ofMembers hnames, toJsonFields_eq_map, List.map_map, writtenFields_eq_map]
  congr 1
  refine List.map_congr_left fun f hf => ?_
  simp only [Function.comp_apply, h f hf]

/-- A value with distinct keys is written as its JSON form is. -/
theorem written_toJson {v : Value} (h : v.Throughout HasUniqueKeys) (spacing : Spacing)
    (level : Nat) : v.toJson.written spacing level = v.written spacing level := by
  -- A map whose keys are not all text writes its keys too, so these are covered by the induction.
  induction h generalizing level with
  | @intro v unique _ _ ihk ihm =>
    cases v with
    | null | bool | text | token | object => rfl
    | number n => exact written_numberJson spacing level n
    | list vs | set vs =>
      have hmembers : Json.writtenMembers spacing (level + 1) (toJsonMembers vs) =
          writtenMembers spacing (level + 1) vs :=
        writtenMembers_toJson fun v hv => ihm v hv (level + 1)
      simp only [toJson, written, Json.written, hmembers]
    | map m =>
      obtain ⟨entries⟩ := m
      have hkey (level : Nat) (e : Value × Value) (he : e ∈ entries) :
          e.1.toJson.written spacing level = e.1.written spacing level :=
        ihk e he level
      have hvalue (level : Nat) (e : Value × Value) (he : e ∈ entries) :
          e.2.toJson.written spacing level = e.2.written spacing level :=
        ihm e.2 (List.mem_map_of_mem he) level
      unfold toJson written
      split
      · rename_i htext
        exact written_toJsonNamed unique htext (hvalue _)
      · rw [Json.written, writtenPairs_toJson (hkey _) (hvalue _)]
    | record m =>
      obtain ⟨fields⟩ := m
      have hvalue (level : Nat) (f : String × Value) (hf : f ∈ fields) :
          f.2.toJson.written spacing level = f.2.written spacing level :=
        ihm f.2 (List.mem_map_of_mem hf) level
      exact written_toJsonFields (unique_names unique) (hvalue _)

/-- Both ways to write a value with distinct keys as JSON give the same text, and that text on one
line is the text form of sets, maps and records. -/
theorem printJson_eq_print_toJson {v : Value} (h : v.Throughout HasUniqueKeys) :
    (∀ spacing, v.printJson spacing = v.toJson.print spacing) ∧
    (v.HasKeys ∨ (∃ members, v = .set members) → v.display = v.printJson .compact) := by
  have hprint (spacing : Spacing) : v.printJson spacing = v.toJson.print spacing :=
    congrArg String.ofList (written_toJson h spacing 0).symm
  refine ⟨hprint, fun hv => ?_⟩
  rw [hprint]
  rcases hv with hv | ⟨members, rfl⟩
  · cases hv <;> rfl
  · rfl

/-- Negative zero, a token, a map with keys that are not even equal to themselves, and a map of
text keys. -/
def inventory : Value := .ofFields [
  ("stock", .number ⟨0x8000000000000000⟩),
  ("parts", .ofMembers [.token ⟨1, "bolt"⟩, .list [.null, .bool true]]),
  ("prices", .ofEntries [(.number ⟨0x7FF8000000000000⟩, .text "free"),
    (.number ⟨0x7FF8000000000000⟩, .object ⟨2, ⟨1, "Date"⟩⟩)]),
  ("places", .ofEntries [(.text "left", .number .infinity), (.text "", .ofEntries [])])]

theorem inventory_printed :
    inventory.Throughout HasUniqueKeys ∧ inventory.HasKeys ∧
    (∀ spacing, inventory.printJson spacing = inventory.toJson.print spacing) ∧
    inventory.display = inventory.printJson .compact ∧
    inventory.display = "\x7b\"stock\":0,\"parts\":[\"Token(bolt)\",[null,true]]," ++
      "\"prices\":[[null,\"free\"],[null,\"[object Date]\"]]," ++
      "\"places\":\x7b\"left\":null,\"\":\x7b\x7d\x7d\x7d" := by
  have hunique : inventory.Throughout HasUniqueKeys := by
    refine Throughout.uniqueKeys (.ofFields ?_)
    simp only [List.forall_mem_cons, List.not_mem_nil, false_implies, implies_true, and_true]
    refine ⟨.leaf rfl rfl, .ofMembers ?_, .ofEntries ?_ ?_, .ofEntries ?_ ?_⟩
    · rw [List.forall_mem_cons, List.forall_mem_singleton]
      refine ⟨.leaf rfl rfl, .list ?_⟩
      rw [List.forall_mem_cons, List.forall_mem_singleton]
      exact ⟨.leaf rfl rfl, .leaf rfl rfl⟩
    all_goals
      rw [List.forall_mem_cons, List.forall_mem_singleton]
      exact ⟨.leaf rfl rfl, .leaf rfl rfl⟩
  have hkeys : inventory.HasKeys := .record _
  obtain ⟨hprint, hdisplay⟩ := printJson_eq_print_toJson hunique
  exact ⟨hunique, hkeys, hprint, hdisplay (.inl hkeys), by decide +kernel⟩

end Value

end SchemaCast
