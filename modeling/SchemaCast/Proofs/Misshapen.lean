import SchemaCast.Proofs.Definition
import SchemaCast.Proofs.Fields
import SchemaCast.Proofs.WriteOnce

namespace SchemaCast

namespace Document

open Json (Written)

/-- What is written for a field: under its name in an object, or at its place in an array. -/
inductive Writes (known : List String) : Written → String → Written → Prop where
  | named {members : List (Option String × Written)} {name : String} {v : Written}
      (isKnown : name ∈ known) (member : (some name, v) ∈ members) :
    Writes known (.object members) name v
  | placed {members : List Written} {name : String} {v : Written}
      (place : (name, v) ∈ known.zip members) : Writes known (.array members) name v

/-- Fields by name. -/
inductive IsObject : Written → Prop where
  | object (members : List (Option String × Written)) : IsObject (.object members)

/-- Fields by name or by position. -/
inductive IsGroup : Written → Prop where
  | object (members : List (Option String × Written)) : IsGroup (.object members)
  | array (members : List Written) : IsGroup (.array members)

theorem isGroup_of_fields? {known : List String} {w : Written} {fields : Fields}
    (h : fields? known w = some fields) : IsGroup w := by
  cases w with
  | object members => exact .object members
  | array members => exact .array members
  | _ => cases h

/-- Every known member is a field, and no name is there twice. -/
theorem knownMembers?_ok {known : List String} {members : List (Option String × Written)}
    {fields : Fields} (h : knownMembers? known members = some fields) :
    OrderedMap.Unique fields ∧
      ∀ name v, name ∈ known → (some name, v) ∈ members → (name, v) ∈ fields := by
  obtain ⟨hreadable, rfl⟩ := knownMembers?_eq_some.mp h
  exact ⟨hreadable.unique, fun _ _ hname member => mem_given hname member⟩

theorem unique_zip {known : List String} (nodup : known.Nodup) (members : List Written) :
    OrderedMap.Unique (known.zip members) := by
  induction known generalizing members with
  | nil => exact List.Pairwise.nil
  | cons name known ih =>
    obtain ⟨hname, hknown⟩ := List.nodup_cons.mp nodup
    cases members with
    | nil => exact List.Pairwise.nil
    | cons v members =>
      refine List.pairwise_cons.mpr ⟨fun f hf => beq_false_of_ne ?_, ih hknown members⟩
      rintro rfl
      exact hname (List.of_mem_zip hf).1

theorem fields?_ok {known : List String} (nodup : known.Nodup) {w : Written} {fields : Fields}
    (h : fields? known w = some fields) :
    OrderedMap.Unique fields ∧ ∀ name v, Writes known w name v → (name, v) ∈ fields := by
  cases w with
  | object members =>
    obtain ⟨hunique, hmembers⟩ := knownMembers?_ok h
    refine ⟨hunique, fun name v hw => ?_⟩
    cases hw with
    | named isKnown member => exact hmembers name v isKnown member
  | array members =>
    rw [fields?] at h
    split at h
    · obtain rfl := Option.some.inj h
      refine ⟨unique_zip nodup members, fun name v hw => ?_⟩
      cases hw with
      | placed place => exact place
    · cases h
  | _ => cases h

theorem written?_of_writes {known : List String} (nodup : known.Nodup) {w : Written}
    {fields : Fields} (h : fields? known w = some fields) {name : String} {v : Written}
    (hw : Writes known w name v) : fields.written? name = some v := by
  obtain ⟨hunique, hfields⟩ := fields?_ok nodup h
  rw [Fields.written?, hunique.find?_eq_some (hfields name v hw)]
  rfl

/-- A field that may be left out is null, or is read. -/
theorem null_or_read {α : Type} {fields : Fields} {name : String} {read : Written → Option α}
    {a? : Option α} (h : fields.optional? name read = some a?) {v : Written}
    (hv : fields.written? name = some v) : v = .null ∨ ∃ a, read v = some a := by
  rw [Fields.optional?, hv] at h
  cases v with
  | null => exact .inl rfl
  | _ =>
    obtain ⟨a, ha, _⟩ := Option.map_eq_some_iff.mp h
    exact .inr ⟨a, ha⟩

/-- Reading in order succeeds exactly if everything is read. -/
theorem mapM_eq_some {α β : Type} (read : α → Option β) (xs : List α) (ys : List β) :
    xs.mapM read = some ys ↔ List.Forall₂ (fun x y => read x = some y) xs ys := by
  induction xs generalizing ys with
  | nil => simp [eq_comm]
  | cons x xs ih =>
    rw [List.mapM_cons]
    simp only [bind, Option.bind_eq_some_iff, ih, pure, Option.some.injEq,
      List.forall₂_cons_left_iff]
    grind

theorem read_of_withDefault? {α : Type} {fields : Fields} {name : String} {default a : α}
    {read : Written → Option α} (h : fields.withDefault? name default read = some a) {v : Written}
    (hv : fields.written? name = some v) : read v = some a := by
  rw [Fields.withDefault?, hv] at h
  exact h

namespace Definition

/-- The types that options have. -/
inductive OptionType where
  | name
  | alternatives
  | flag
  | value
  | names
  | definition
  | entries
  deriving DecidableEq

/-- The type of an option of a definition. -/
inductive HasType : String → OptionType → Prop where
  | type : HasType "type" .name
  | anyOf : HasType "any_of" .alternatives
  | cast : HasType "cast" .flag
  | optional : HasType "optional" .flag
  | default : HasType "default" .value
  | validator : HasType "validator" .names
  | valueValidator : HasType "value_validator" .names
  | contentValidator : HasType "content_validator" .names
  | keys : HasType "keys" .definition
  | values : HasType "values" .definition
  | entries : HasType "entries" .entries

/-- What can be written for an option of a type. Null leaves out every option but a flag. What is
written for a definition is looked at as a definition. -/
inductive Fits : OptionType → Written → Prop where
  | leftOut {type : OptionType} (h : type ≠ .flag) : Fits type .null
  | name (text? : Option String) : Fits .name (.string text?)
  | alternatives (members : List Written) : Fits .alternatives (.array members)
  | flag (b : Bool) : Fits .flag (.bool b)
  | value (v : Written) : Fits .value v
  | oneName (text? : Option String) : Fits .names (.string text?)
  | names {members : List Written} (texts : ∀ m ∈ members, ∃ text?, m = .string text?) :
    Fits .names (.array members)
  | definition (v : Written) : Fits .definition v
  | entries (members : List (Option String × Written)) : Fits .entries (.object members)

/-- A definition is written right inside another. -/
inductive Part (p w : Written) : Prop where
  | alternative {members : List Written} (given : Writes options w "any_of" (.array members))
      (member : p ∈ members)
  | keys (given : Writes options w "keys" p) (present : p ≠ .null)
  | values (given : Writes options w "values" p) (present : p ≠ .null)
  | entry {members : List (Option String × Written)} {name : Option String}
      (given : Writes options w "entries" (.object members)) (member : (name, p) ∈ members)

/-- A definition is not a group of fields, or an option does not fit its type, at any depth. -/
inductive Misshapen (group : Written → Prop) : Written → Prop where
  | definition {w : Written} (notGroup : ¬group w) : Misshapen group w
  | option {w v : Written} {name : String} {type : OptionType} (given : Writes options w name v)
      (typed : HasType name type) (unfit : ¬Fits type v) : Misshapen group w
  | inside {w p : Written} (part : Part p w) (below : Misshapen group p) : Misshapen group w

/-- How the options of a definition are read. -/
structure ReadFrom (allowed : Nat) (fields : Fields) (d : Definition) : Prop where
  type : fields.optional? "type" text? = some d.type?
  anyOf : fields.optional? "any_of" (membersOfWritten? allowed) = some d.anyOf?
  casts : fields.withDefault? "cast" false bool? = some d.casts
  optional : fields.withDefault? "optional" false bool? = some d.optional
  default : fields.optional? "default" (fun w => (w.json? allowed).map Value.ofJson) =
    some d.default?
  validators : ∃ given?, fields.optional? "validator" (names? allowed) = some given? ∧
    d.validators = given?.getD []
  valueValidators : ∃ given?, fields.optional? "value_validator" (names? allowed) = some given? ∧
    d.valueValidators = given?.getD []
  contentValidators : ∃ given?,
    fields.optional? "content_validator" (names? allowed) = some given? ∧
      d.contentValidators = given?.getD []
  keys : fields.optional? "keys" (ofWritten? allowed) = some d.keys?
  values : fields.optional? "values" (ofWritten? allowed) = some d.values?
  entries : fields.optional? "entries" (entriesOfWritten? allowed) = some d.entries?

theorem ofWritten?_ok {allowed : Nat} {w : Written} {d : Definition}
    (h : ofWritten? allowed w = some d) :
    ∃ inner fields, allowed = inner + 1 ∧ fields? options w = some fields ∧
      ReadFrom inner fields d := by
  cases allowed with
  | zero => cases h
  | succ inner =>
    rw [ofWritten?] at h
    obtain ⟨fields, hfields, h⟩ := Option.bind_eq_some_iff.mp h
    obtain ⟨type?, htype, h⟩ := Option.bind_eq_some_iff.mp h
    obtain ⟨anyOf?, hanyOf, h⟩ := Option.bind_eq_some_iff.mp h
    obtain ⟨casts, hcasts, h⟩ := Option.bind_eq_some_iff.mp h
    obtain ⟨optional, hoptional, h⟩ := Option.bind_eq_some_iff.mp h
    obtain ⟨default?, hdefault, h⟩ := Option.bind_eq_some_iff.mp h
    obtain ⟨validators?, hvalidators, h⟩ := Option.bind_eq_some_iff.mp h
    obtain ⟨valueValidators?, hvalueValidators, h⟩ := Option.bind_eq_some_iff.mp h
    obtain ⟨contentValidators?, hcontentValidators, h⟩ := Option.bind_eq_some_iff.mp h
    obtain ⟨keys?, hkeys, h⟩ := Option.bind_eq_some_iff.mp h
    obtain ⟨values?, hvalues, h⟩ := Option.bind_eq_some_iff.mp h
    obtain ⟨entries?, hentries, h⟩ := Option.bind_eq_some_iff.mp h
    obtain rfl := Option.some.inj h
    exact ⟨inner, fields, rfl, hfields, htype, hanyOf, hcasts, hoptional, hdefault,
      ⟨_, hvalidators, rfl⟩, ⟨_, hvalueValidators, rfl⟩, ⟨_, hcontentValidators, rfl⟩, hkeys,
      hvalues, hentries⟩

section

variable {inner : Nat} {fields : Fields} {d : Definition}

theorem fits_names {v : Written} {names : List String} (h : names? inner v = some names) :
    Fits .names v := by
  cases v with
  | string text? => exact .oneName text?
  | array members =>
    rw [names?] at h
    split at h
    · cases h
    · refine .names fun m hm => ?_
      obtain ⟨name, _, hname⟩ := exists_right_of_forall₂ ((mapM_eq_some ..).mp h) hm
      cases m with
      | string text? => exact ⟨text?, rfl⟩
      | _ => cases hname
  | _ => cases h

theorem membersOfWritten?_ok {v : Written} {ds : List Definition}
    (h : membersOfWritten? inner v = some ds) :
    ∃ members, v = .array members ∧
      ∀ p ∈ members, ∃ allowed d, ofWritten? allowed p = some d := by
  cases inner with
  | zero => simp [membersOfWritten?] at h
  | succ allowed =>
    cases v with
    | array members =>
      rw [membersOfWritten?] at h
      refine ⟨members, rfl, fun p hp => ?_⟩
      obtain ⟨d, _, hd⟩ := exists_right_of_forall₂ ((mapM_eq_some ..).mp h) hp
      exact ⟨allowed, d, hd⟩
    | _ => simp [membersOfWritten?] at h

theorem entriesOfWritten?_ok {v : Written} {entries : List (String × Definition)}
    (h : entriesOfWritten? inner v = some entries) :
    ∃ members, v = .object members ∧
      ∀ e ∈ members, ∃ allowed d, ofWritten? allowed e.2 = some d := by
  cases inner with
  | zero => simp [entriesOfWritten?] at h
  | succ allowed =>
    cases v with
    | object members =>
      rw [entriesOfWritten?] at h
      refine ⟨members, rfl, fun e he => ?_⟩
      obtain ⟨_, _, hread⟩ := exists_right_of_forall₂ ((mapM_eq_some ..).mp h) he
      obtain ⟨_, _, hread⟩ := Option.bind_eq_some_iff.mp hread
      obtain ⟨d, hd, _⟩ := Option.bind_eq_some_iff.mp hread
      exact ⟨allowed, d, hd⟩
    | _ => simp [entriesOfWritten?] at h

/-- What was read fits the type of its option. -/
theorem ReadFrom.fits (h : ReadFrom inner fields d) {name : String} {v : Written}
    (hv : fields.written? name = some v) {type : OptionType}
    (typed : HasType name type) : Fits type v := by
  have names {given? : Option (List String)}
      (hread : fields.optional? name (names? inner) = some given?) : Fits .names v := by
    rcases null_or_read hread hv with rfl | ⟨_, hnames⟩
    · exact .leftOut (by decide)
    · exact fits_names hnames
  have flag {b : Bool} (hread : fields.withDefault? name false bool? = some b) : Fits .flag v := by
    have hb := read_of_withDefault? hread hv
    cases v with
    | bool b => exact .flag b
    | _ => cases hb
  cases typed with
  | type =>
    rcases null_or_read h.type hv with rfl | ⟨_, htext⟩
    · exact .leftOut (by decide)
    · cases v with
      | string text? => exact .name text?
      | _ => cases htext
  | anyOf =>
    rcases null_or_read h.anyOf hv with rfl | ⟨_, hmembers⟩
    · exact .leftOut (by decide)
    · obtain ⟨members, rfl, _⟩ := membersOfWritten?_ok hmembers
      exact .alternatives members
  | cast => exact flag h.casts
  | optional => exact flag h.optional
  | default => exact .value v
  | validator => exact names h.validators.choose_spec.1
  | valueValidator => exact names h.valueValidators.choose_spec.1
  | contentValidator => exact names h.contentValidators.choose_spec.1
  | keys => exact .definition v
  | values => exact .definition v
  | entries =>
    rcases null_or_read h.entries hv with rfl | ⟨_, hentries⟩
    · exact .leftOut (by decide)
    · obtain ⟨members, rfl, _⟩ := entriesOfWritten?_ok hentries
      exact .entries members

/-- A definition written inside one that was read was read. -/
theorem ReadFrom.exists_part {w p : Written} (hw : fields? options w = some fields)
    (h : ReadFrom inner fields d) (part : Part p w) :
    ∃ allowed d, ofWritten? allowed p = some d := by
  have nodup : options.Nodup := by decide
  cases part with
  | alternative given member =>
    rcases null_or_read h.anyOf (written?_of_writes nodup hw given) with hnull | ⟨_, hmembers⟩
    · cases hnull
    · obtain ⟨_, ⟨⟩, hread⟩ := membersOfWritten?_ok hmembers
      exact hread p member
  | keys given present =>
    rcases null_or_read h.keys (written?_of_writes nodup hw given) with hnull | hread
    · exact absurd hnull present
    · exact ⟨inner, hread⟩
  | values given present =>
    rcases null_or_read h.values (written?_of_writes nodup hw given) with hnull | hread
    · exact absurd hnull present
    · exact ⟨inner, hread⟩
  | entry given member =>
    rcases null_or_read h.entries (written?_of_writes nodup hw given) with hnull | ⟨_, hentries⟩
    · cases hnull
    · obtain ⟨_, ⟨⟩, hread⟩ := entriesOfWritten?_ok hentries
      exact hread _ member

end

/-- A definition that is read is not misshapen. -/
theorem not_misshapen_of_ofWritten? {allowed : Nat} {w : Written} {d : Definition}
    (h : ofWritten? allowed w = some d) : ¬Misshapen IsGroup w := by
  intro hm
  induction hm generalizing allowed d with
  | definition notGroup =>
    obtain ⟨_, _, _, hfields, _⟩ := ofWritten?_ok h
    exact notGroup (isGroup_of_fields? hfields)
  | option given typed unfit =>
    obtain ⟨_, _, _, hfields, hread⟩ := ofWritten?_ok h
    exact unfit (hread.fits (written?_of_writes (by decide) hfields given) typed)
  | inside part _ ih =>
    obtain ⟨_, _, _, hfields, hread⟩ := ofWritten?_ok h
    obtain ⟨_, _, hpart⟩ := hread.exists_part hfields part
    exact ih hpart

end Definition

/-- The names of the fields of a document. -/
def fieldNames : List String := ["name", "schema"]

/-- A document is not a group of fields, or its definition is misshapen. -/
inductive Misshapen (group : Written → Prop) (w : Written) : Prop where
  | document (notGroup : ¬group w)
  | schema {definition : Written} (given : Writes fieldNames w "schema" definition)
      (misshapen : Definition.Misshapen group definition)

theorem ofWritten?_of_misshapen {w : Written} (h : Misshapen IsGroup w) : ofWritten? w = none := by
  rw [Option.eq_none_iff_forall_ne_some]
  intro document hread
  rw [ofWritten?] at hread
  obtain ⟨fields, hfields, hread⟩ := Option.bind_eq_some_iff.mp hread
  cases h with
  | document notGroup => exact notGroup (isGroup_of_fields? hfields)
  | schema given misshapen =>
    obtain ⟨_, _, hread⟩ := Option.bind_eq_some_iff.mp hread
    obtain ⟨d, hd, _⟩ := Option.bind_eq_some_iff.mp hread
    rw [Fields.required?, written?_of_writes (by decide) hfields given] at hd
    exact Definition.not_misshapen_of_ofWritten? hd misshapen

end Document

namespace Catalog

open Document (IsGroup IsObject Misshapen)

/-- A misshapen document is not loaded, and the catalog stays as it was. -/
theorem load_misshapen {catalog : Catalog} {source text : String} {w : Json.Written}
    (hw : Json.Written.ofText? text = some w) (h : Misshapen IsGroup w) :
    catalog.load source text = (.error (.malformed source .invalidDocument), catalog) ∧
      catalog.perform (.load source text) =
        (.error (.malformed source .invalidDocument), catalog) := by
  have hdocument : Document.ofText? text = none := by
    rw [Document.ofText?, hw]
    exact Document.ofWritten?_of_misshapen h
  have hload : catalog.load source text =
      (.error (.malformed source .invalidDocument), catalog) := by
    rw [load, hdocument]
  refine ⟨hload, ?_⟩
  rw [perform, hload]
  rfl

/-- A flag that is text, in the values of an alternative that is given by position. -/
def shelfText : String :=
  "[\"shelf\", [null, [[\"text\"], \x7b\"type\": \"record\",
    \"values\": \x7b\"type\": \"text\", \"cast\": \"yes\"\x7d\x7d]]]"

theorem text_as_flag_misshapen :
    ∃ w, Json.Written.ofText? shelfText = some w ∧ Misshapen IsGroup w ∧
      load { directory := "." } "shelf.json" shelfText =
        (.error (.malformed "shelf.json" .invalidDocument), { directory := "." }) ∧
      perform { directory := "." } (.load "shelf.json" shelfText) =
        (.error (.malformed "shelf.json" .invalidDocument), { directory := "." }) := by
  have hw : Json.Written.ofText? shelfText = some (.array [.string (some "shelf"),
      .array [.null, .array [.array [.string (some "text")],
        .object [(some "type", .string (some "record")), (some "values", .object
          [(some "type", .string (some "text")), (some "cast", .string (some "yes"))])]]]]) := rfl
  have unfit : ¬Document.Definition.Fits .flag (.string (some "yes")) := by
    rintro ⟨⟩
  have hm : Misshapen IsGroup (.array [.string (some "shelf"),
      .array [.null, .array [.array [.string (some "text")],
        .object [(some "type", .string (some "record")), (some "values", .object
          [(some "type", .string (some "text")), (some "cast", .string (some "yes"))])]]]]) := by
    refine .schema (.placed (.tail _ (.head _))) ?_
    refine .inside (.alternative (.placed (.tail _ (.head _))) (.tail _ (.head _))) ?_
    refine .inside (.values (.named (by decide) (.tail _ (.head _))) (by simp)) ?_
    exact .option (.named (by decide) (.tail _ (.head _))) .cast unfit
  exact ⟨_, hw, hm, load_misshapen hw hm⟩

def flagsText : String :=
  "\x7b\"name\":\"flags\",\"schema\":\x7b\"type\":\"list\",\"values\":[\"boolean\"]\x7d\x7d"

/-- Lists of booleans. -/
def flags : Document.Definition :=
  { Document.Definition.blank with
    type? := some "list"
    values? := some { Document.Definition.blank with type? := some "boolean" } }

/-- A definition is loaded that is an array where an object is documented. -/
theorem values_load_by_position :
    ∃ w after, Json.Written.ofText? flagsText = some w ∧ Misshapen IsObject w ∧
      load { directory := "." } "flags.json" flagsText = (.ok "flags", after) := by
  have hm : Misshapen IsObject (.object [(some "name", .string (some "flags")),
      (some "schema", .object [(some "type", .string (some "list")),
        (some "values", .array [.string (some "boolean")])])]) := by
    refine .schema (.named (by decide) (.tail _ (.head _))) ?_
    refine .inside (.values (.named (by decide) (.tail _ (.head _))) (by simp)) ?_
    refine .definition ?_
    rintro ⟨⟩
  have hdocument : Document.ofText? flagsText = some ⟨"flags", flags⟩ := rfl
  exact ⟨_, _, rfl, hm,
    load_of hdocument rfl ((except_bind_eq_ok ..).mpr ⟨_, rfl, rfl⟩) rfl⟩

end Catalog

end SchemaCast
