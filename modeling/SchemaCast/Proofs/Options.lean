import Mathlib.Logic.Relation
import SchemaCast.Proofs.Misshapen

namespace SchemaCast

namespace Document

open Json (Written)

variable {known : List String}

/-- The members of an object in another order, or with a further one that is not known. -/
inductive Shuffled (known : List String) : Written → Written → Prop where
  | permuted {members others : List (Option String × Written)} (order : members.Perm others) :
    Shuffled known (.object members) (.object others)
  | extended {name : String} (unknown : name ∉ known) (v : Written)
      (before behind : List (Option String × Written)) :
    Shuffled known (.object (before ++ behind)) (.object (before ++ (some name, v) :: behind))

/-- Two readings of fields fail together, or agree. -/
theorem fields?_rel {r : Fields → Fields → Prop} {members others : List (Option String × Written)}
    (readable : Readable known members ↔ Readable known others)
    (h : Readable known members → r (given known members) (given known others)) :
    Option.Rel r (fields? known (.object members)) (fields? known (.object others)) := by
  change Option.Rel r (knownMembers? known members) (knownMembers? known others)
  by_cases hm : Readable known members
  · rw [knownMembers?_eq_some.mpr ⟨hm, rfl⟩, knownMembers?_eq_some.mpr ⟨readable.mp hm, rfl⟩]
    exact .some (h hm)
  · have unread {ms : List (Option String × Written)} (hms : ¬Readable known ms) :
        knownMembers? known ms = none := by
      rw [Option.eq_none_iff_forall_ne_some]
      intro fields hfields
      exact hms (knownMembers?_eq_some.mp hfields).1
    rw [unread hm, unread fun ho => hm (readable.mpr ho)]
    exact .none

/-- What is written for each field stays the same. -/
def Fields.Alike (fields others : Fields) : Prop :=
  ∀ name, others.written? name = fields.written? name

theorem Shuffled.fields? {w v : Written} (h : Shuffled known w v) :
    Option.Rel Fields.Alike (fields? known w) (Document.fields? known v) := by
  cases h with
  | @permuted members others order =>
    have hgiven : (given known members).Perm (given known others) := order.filterMap _
    apply fields?_rel ⟨fun hm => hm.perm order, fun ho => ho.perm order.symm⟩
    intro hm name
    rw [Fields.written?, Fields.written?, hm.unique.find?_perm hgiven]
  | @extended name unknown v before behind =>
    have hgiven : given known (before ++ (some name, v) :: behind) =
        given known (before ++ behind) := by
      simp [given, List.filterMap_append, unknown]
    have hmiddle : (before ++ (some name, v) :: behind).Perm
        ((some name, v) :: (before ++ behind)) := List.perm_middle
    apply fields?_rel
    · rw [← readable_cons_of_not_mem (w := v) unknown]
      exact ⟨fun hm => hm.perm hmiddle.symm, fun ho => ho.perm hmiddle⟩
    · intro _ other
      rw [hgiven]

/-- What is written for one field differs, and for no other. -/
structure Fields.Differ (name : String) (v w : Written) (fields others : Fields) : Prop where
  here : fields.written? name = some v
  there : others.written? name = some w
  elsewhere : ∀ other, other ≠ name → others.written? other = fields.written? other

theorem fields?_of_replaced {name : String} (hname : name ∈ known) (v w : Written)
    (before behind : List (Option String × Written)) :
    Option.Rel (Fields.Differ name v w)
      (fields? known (.object (before ++ (some name, v) :: behind)))
      (fields? known (.object (before ++ (some name, w) :: behind))) := by
  have hgiven (u : Written) : given known (before ++ (some name, u) :: behind) =
      given known before ++ (name, u) :: given known behind := by
    simp [given, List.filterMap_append, hname]
  have hreadable (u u' : Written) (h : Readable known (before ++ (some name, u) :: behind)) :
      Readable known (before ++ (some name, u') :: behind) := by
    refine ⟨?_, h.unique.of_keys (by simp [hgiven])⟩
    have hnames := h.names
    simp only [List.forall_mem_append, List.forall_mem_cons] at hnames ⊢
    exact hnames
  have hwritten {u : Written} (h : Readable known (before ++ (some name, u) :: behind)) :
      (given known (before ++ (some name, u) :: behind)).written? name = some u := by
    have hmem : (name, u) ∈ given known (before ++ (some name, u) :: behind) := by
      rw [hgiven]
      simp
    rw [Fields.written?, h.unique.find?_eq_some hmem]
    rfl
  apply fields?_rel ⟨hreadable v w, hreadable w v⟩
  intro h
  refine ⟨hwritten h, hwritten (hreadable v w h), fun other hother => ?_⟩
  have hne : (name == other) = false := beq_false_of_ne hother.symm
  rw [hgiven, hgiven]
  simp only [Fields.written?, List.find?_append, List.find?_cons, hne]

section

variable {α : Type} {fields others : Fields} {name : String}

theorem optional?_congr (h : others.written? name = fields.written? name)
    (read : Written → Option α) : others.optional? name read = fields.optional? name read := by
  rw [Fields.optional?, Fields.optional?, h]

theorem withDefault?_congr (h : others.written? name = fields.written? name) (default : α)
    (read : Written → Option α) :
    others.withDefault? name default read = fields.withDefault? name default read := by
  rw [Fields.withDefault?, Fields.withDefault?, h]

theorem required?_congr (h : others.written? name = fields.written? name)
    (read : Written → Option α) : others.required? name read = fields.required? name read := by
  rw [Fields.required?, Fields.required?, h]

/-- A field that is written differently and read in the same way. -/
theorem Fields.Differ.optional? {v w : Written} (h : Fields.Differ name v w fields others)
    (hv : v ≠ .null) (hw : w ≠ .null) {read : Written → Option α} (hread : read w = read v) :
    others.optional? name read = fields.optional? name read := by
  have given {fields : Fields} {u : Written} (hu : u ≠ .null)
      (hwritten : fields.written? name = some u) :
      fields.optional? name read = (read u).map some := by
    rw [Fields.optional?, hwritten]
    cases u with
    | null => exact absurd rfl hu
    | _ => rfl
  rw [given hv h.here, given hw h.there, hread]

end

theorem bind_eq_of_rel {α β : Type} {r : α → α → Prop} {a? b? : Option α} (h : Option.Rel r a? b?)
    {read : α → Option β} (hread : ∀ a b, r a b → read b = read a) :
    b?.bind read = a?.bind read := by
  cases h with
  | none => rfl
  | some hab => exact hread _ _ hab

namespace Definition

/-- The definition whose options are the fields. -/
def ofFields? (allowed : Nat) (fields : Fields) : Option Definition := do
  return {
    type? := ← fields.optional? "type" text?
    anyOf? := ← fields.optional? "any_of" (membersOfWritten? allowed)
    casts := ← fields.withDefault? "cast" false bool?
    optional := ← fields.withDefault? "optional" false bool?
    default? := ← fields.optional? "default" fun w => (w.json? allowed).map Value.ofJson
    validators := (← fields.optional? "validator" (names? allowed)).getD []
    valueValidators := (← fields.optional? "value_validator" (names? allowed)).getD []
    contentValidators := (← fields.optional? "content_validator" (names? allowed)).getD []
    keys? := ← fields.optional? "keys" (ofWritten? allowed)
    values? := ← fields.optional? "values" (ofWritten? allowed)
    entries? := ← fields.optional? "entries" (entriesOfWritten? allowed) }

theorem ofWritten?_succ (allowed : Nat) (w : Written) :
    ofWritten? (allowed + 1) w = (fields? options w).bind (ofFields? allowed) := by
  rw [ofWritten?]
  rfl

/-- Where definitions stand in the value of an option. -/
inductive Place : String → (Written → Written) → Prop where
  | keys : Place "keys" fun p => p
  | values : Place "values" fun p => p
  | alternative (before behind : List Written) :
    Place "any_of" fun p => .array (before ++ p :: behind)
  | entry (key : Option String) (before behind : List (Option String × Written)) :
    Place "entries" fun p => .object (before ++ (key, p) :: behind)

/-- One change to a definition: its members are shuffled, or a definition inside it is changed. -/
inductive Edit : Written → Written → Prop where
  | shuffled {w v : Written} (h : Shuffled options w v) : Edit w v
  | inside {option : String} {around : Written → Written} (place : Place option around)
      {p q : Written} (inner : Edit p q) (before behind : List (Option String × Written)) :
    Edit (.object (before ++ (some option, around p) :: behind))
      (.object (before ++ (some option, around q) :: behind))

theorem ofFields?_alike (allowed : Nat) {fields others : Fields} (h : fields.Alike others) :
    ofFields? allowed others = ofFields? allowed fields := by
  simp only [ofFields?, optional?_congr (h _), withDefault?_congr (h _)]

theorem Edit.ne_null {w v : Written} (h : Edit w v) : w ≠ .null ∧ v ≠ .null := by
  cases h with
  | shuffled h => cases h <;> exact ⟨by simp, by simp⟩
  | inside => exact ⟨by simp, by simp⟩

/-- Options are read alike that differ in a definition that is read alike. -/
theorem Place.ofFields?_eq {option : String} {around : Written → Written}
    (place : Place option around) {p q : Written} (inner : Edit p q)
    (hread : ∀ allowed, ofWritten? allowed q = ofWritten? allowed p) (allowed : Nat)
    {fields others : Fields} (h : Fields.Differ option (around p) (around q) fields others) :
    ofFields? allowed others = ofFields? allowed fields := by
  have hoptional {α : Type} {name : String} (hname : name ≠ option) (read : Written → Option α) :
      others.optional? name read = fields.optional? name read :=
    optional?_congr (h.elsewhere name hname) read
  have hflag {name : String} (hname : name ≠ option) (read : Written → Option Bool) :
      others.withDefault? name false read = fields.withDefault? name false read :=
    withDefault?_congr (h.elsewhere name hname) false read
  obtain ⟨hp, hq⟩ := inner.ne_null
  cases place with
  | keys =>
    have hkeys := h.optional? hp hq (hread allowed)
    simp (disch := decide) only [ofFields?, hoptional, hflag, hkeys]
  | values =>
    have hvalues := h.optional? hp hq (hread allowed)
    simp (disch := decide) only [ofFields?, hoptional, hflag, hvalues]
  | alternative before behind =>
    have hmembers : membersOfWritten? allowed (.array (before ++ q :: behind)) =
        membersOfWritten? allowed (.array (before ++ p :: behind)) := by
      cases allowed <;> simp [membersOfWritten?, List.mapM_append, hread]
    have hanyOf := h.optional? (by simp) (by simp) hmembers
    simp (disch := decide) only [ofFields?, hoptional, hflag, hanyOf]
  | entry key before behind =>
    have hfields : entriesOfWritten? allowed (.object (before ++ (key, q) :: behind)) =
        entriesOfWritten? allowed (.object (before ++ (key, p) :: behind)) := by
      cases allowed <;> simp [entriesOfWritten?, List.mapM_append, hread]
    have hentries := h.optional? (by simp) (by simp) hfields
    simp (disch := decide) only [ofFields?, hoptional, hflag, hentries]

theorem Place.option_mem {option : String} {around : Written → Written}
    (place : Place option around) : option ∈ options := by
  cases place <;> decide

/-- A changed definition is read as before. -/
theorem Edit.ofWritten?_eq {w v : Written} (h : Edit w v) (allowed : Nat) :
    ofWritten? allowed v = ofWritten? allowed w := by
  induction h generalizing allowed with
  | shuffled h =>
    cases allowed with
    | zero => rfl
    | succ allowed =>
      rw [ofWritten?_succ, ofWritten?_succ]
      exact bind_eq_of_rel h.fields? fun _ _ => ofFields?_alike allowed
  | inside place inner before behind ih =>
    cases allowed with
    | zero => rfl
    | succ allowed =>
      rw [ofWritten?_succ, ofWritten?_succ]
      exact bind_eq_of_rel (fields?_of_replaced place.option_mem _ _ before behind) fun _ _ =>
        place.ofFields?_eq inner ih allowed

end Definition

/-- The document whose fields these are. -/
def ofFields? (fields : Fields) : Option Document := do
  return {
    name := ← fields.required? "name" text?
    definition := ← fields.required? "schema"
      (Definition.ofWritten? (Json.deepestNesting - 1)) }

theorem ofWritten?_eq (w : Written) : ofWritten? w = (fields? fieldNames w).bind ofFields? := rfl

/-- One change to a document: its members are shuffled, or its definition is changed. -/
inductive Edit : Written → Written → Prop where
  | shuffled {w v : Written} (h : Shuffled fieldNames w v) : Edit w v
  | schema {p q : Written} (inner : Definition.Edit p q)
      (before behind : List (Option String × Written)) :
    Edit (.object (before ++ (some "schema", p) :: behind))
      (.object (before ++ (some "schema", q) :: behind))

/-- A changed document is read as before. -/
theorem Edit.ofWritten?_eq {w v : Written} (h : Edit w v) : ofWritten? v = ofWritten? w := by
  rw [Document.ofWritten?_eq, Document.ofWritten?_eq]
  cases h with
  | shuffled h =>
    apply bind_eq_of_rel h.fields?
    intro fields others halike
    simp only [ofFields?, required?_congr (halike _)]
  | @schema p q inner before behind =>
    apply bind_eq_of_rel (fields?_of_replaced (by decide) p q before behind)
    intro fields others hdiffer
    have hname := required?_congr (hdiffer.elsewhere "name" (by decide)) text?
    have hschema (allowed : Nat) : others.required? "schema" (Definition.ofWritten? allowed) =
        fields.required? "schema" (Definition.ofWritten? allowed) := by
      rw [Fields.required?, Fields.required?, hdiffer.here, hdiffer.there]
      exact inner.ofWritten?_eq allowed
    simp only [ofFields?, hname, hschema]

/-- Documents that come from each other by changing the order of members and by adding and removing
unknown members, in the document and in the definitions in it. -/
def Rearranged : Written → Written → Prop := Relation.EqvGen Edit

theorem Rearranged.ofWritten?_eq {w v : Written} (h : Rearranged w v) :
    ofWritten? v = ofWritten? w := by
  induction h with
  | rel w v edit => exact edit.ofWritten?_eq
  | refl w => rfl
  | symm w v _ ih => exact ih.symm
  | trans w v u _ _ first second => exact second.trans first

end Document

namespace Catalog

open Document (Edit Rearranged)

/-- A document that is rearranged gives the same name or the same error, and leaves the same
catalog. -/
theorem load_rearranged (catalog : Catalog) (source : String) {text other : String}
    {w v : Json.Written} (hw : Json.Written.ofText? text = some w)
    (hv : Json.Written.ofText? other = some v) (h : Rearranged w v) :
    catalog.load source other = catalog.load source text := by
  have hdocument : Document.ofText? other = Document.ofText? text := by
    rw [Document.ofText?, Document.ofText?, hw, hv]
    exact h.ofWritten?_eq
  rw [load, load, hdocument]

/-- A member that names a type. -/
def typeNamed (name : String) : Option String × Json.Written :=
  (some "type", .string (some name))

def lid : Json.Written := .object [typeNamed "text", (some "cast", .bool true)]

/-- The options turned round, behind a note that would make no definition. -/
def notedLid : Json.Written :=
  .object [(some "note", .object [(some "cast", .array [])]), (some "cast", .bool true),
    typeNamed "text"]

/-- The document of maps with one entry. -/
def jugDocument (entry : Json.Written) : Json.Written :=
  .object [(some "name", .string (some "jug")), (some "schema", .object [typeNamed "map",
    (some "entries", .object [(some "lid", entry)])])]

def jugText : String :=
  "\x7b\"name\":\"jug\",\"schema\":\x7b\"type\":\"map\",\"entries\":\x7b\"lid\":" ++
    "\x7b\"type\":\"text\",\"cast\":true\x7d\x7d\x7d\x7d"

def notedJugText : String :=
  "\x7b\"schema\":\x7b\"entries\":\x7b\"lid\":\x7b\"note\":\x7b\"cast\":[]\x7d,\"cast\":true," ++
    "\"type\":\"text\"\x7d\x7d,\"type\":\"map\"\x7d,\"name\":\"jug\"\x7d"

theorem noted_jug_loads_alike :
    ∃ w v, Json.Written.ofText? jugText = some w ∧ Json.Written.ofText? notedJugText = some v ∧
      Rearranged w v ∧
      load { directory := "." } "jug.json" notedJugText =
        load { directory := "." } "jug.json" jugText ∧
      (load { directory := "." } "jug.json" jugText).1 = .ok "jug" := by
  have hw : Json.Written.ofText? jugText = some (jugDocument lid) := rfl
  have hv : Json.Written.ofText? notedJugText = some (.object [(some "schema", .object
      [(some "entries", .object [(some "lid", notedLid)]), typeNamed "map"]),
      (some "name", .string (some "jug"))]) := rfl
  have turn : Document.Definition.Edit lid
      (.object [(some "cast", .bool true), typeNamed "text"]) :=
    .shuffled (.permuted (.swap ..))
  have note : Document.Definition.Edit (.object [(some "cast", .bool true), typeNamed "text"])
      notedLid :=
    .shuffled (.extended (by decide) _ [] _)
  have inside {p q : Json.Written} (h : Document.Definition.Edit p q) :
      Rearranged (jugDocument p) (jugDocument q) :=
    .rel _ _ (.schema (.inside (.entry (some "lid") [] []) h [typeNamed "map"] [])
      [(some "name", .string (some "jug"))] [])
  have hentry := (inside turn).trans _ _ _ (inside note)
  have hdefinition := hentry.trans _ _ _ (.rel _ _ (.schema (.shuffled (.permuted (.swap _ _ [])))
    [(some "name", .string (some "jug"))] []))
  have h := hdefinition.trans _ _ _ (.rel _ _ (.shuffled (.permuted (.swap _ _ []))))
  exact ⟨_, _, hw, hv, h, load_rearranged _ _ hw hv h, by decide +kernel⟩

end Catalog

end SchemaCast
