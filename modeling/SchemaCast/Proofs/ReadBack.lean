import SchemaCast.Program.Response
import SchemaCast.Proofs.Lexemes

namespace SchemaCast

namespace Json

mutual

/-- A value as it is written. -/
def toWritten : Json → Written
  | null => .null
  | bool b => .bool b
  | number n => .number n
  | text s => .string (some s)
  | array members => .array (toWrittenMembers members)
  | object ⟨fields⟩ => .object (toWrittenFields fields)
termination_by structural j => j

def toWrittenMembers : List Json → List Written
  | [] => []
  | j :: js => toWritten j :: toWrittenMembers js
termination_by structural js => js

def toWrittenFields : List (String × Json) → List (Option String × Written)
  | [] => []
  | (name, j) :: js => (some name, toWritten j) :: toWrittenFields js
termination_by structural js => js

end

theorem toWrittenMembers_eq_map (members : List Json) :
    toWrittenMembers members = members.map toWritten := by
  induction members with
  | nil => rfl
  | cons j js ih => rw [toWrittenMembers, ih, List.map_cons]

theorem toWrittenFields_eq_map (fields : List (String × Json)) :
    toWrittenFields fields = fields.map fun f => (some f.1, f.2.toWritten) := by
  induction fields with
  | nil => rfl
  | cons f fields ih =>
    obtain ⟨name, j⟩ := f
    rw [toWrittenFields, ih, List.map_cons]

section Parsing

open Written (readValue readAfter Frame)

/-- Reading a value off the lexemes of a value goes on behind them. -/
def ReadsBack (j : Json) : Prop :=
  ∀ frames rest, rest.head? ≠ some .colon →
    readValue frames (j.lexemes ++ rest) = readAfter j.toWritten frames rest

theorem enclosed_eq_cons (opening closing : Lexeme) (parts : List (List Lexeme)) :
    ∃ more, enclosed opening closing parts = opening :: more := by
  cases parts with
  | nil => exact ⟨_, rfl⟩
  | cons first rest => exact ⟨_, rfl⟩

/-- No value begins with the end of an array, and text is a single lexeme. -/
theorem lexemes_eq_cons (j : Json) :
    ∃ first more, j.lexemes = first :: more ∧ first ≠ .closeArray ∧
      ∀ text?, first = .string text? → more = [] := by
  cases j with
  | array members =>
    obtain ⟨more, hmore⟩ := enclosed_eq_cons .openArray .closeArray (lexemesOfMembers members)
    exact ⟨_, more, hmore, by simp, by simp⟩
  | object m =>
    obtain ⟨fields⟩ := m
    obtain ⟨more, hmore⟩ := enclosed_eq_cons .openObject .closeObject (lexemesOfFields fields)
    exact ⟨_, more, hmore, by simp, by simp⟩
  | _ => exact ⟨_, [], rfl, by simp, fun _ _ => rfl⟩

/-- Behind a member stands a comma or the end of the members, but no colon. -/
theorem further_head {closing : Lexeme} (h : closing ≠ .colon) (parts : List (List Lexeme))
    (rest : List Lexeme) :
    (parts.flatMap (.comma :: ·) ++ closing :: rest).head? ≠ some .colon := by
  cases parts with
  | nil => simpa using h
  | cons => simp

/-- Behind a comma in an array stands a value, also where it is text. -/
theorem readAfter_comma {j : Json} {v : Written} {before : List Written} {frames : List Frame}
    {rest : List Lexeme} (h : rest.head? ≠ some .colon) :
    readAfter v (.array before :: frames) (.comma :: (j.lexemes ++ rest)) =
      readValue (.array (v :: before) :: frames) (j.lexemes ++ rest) := by
  obtain ⟨first, more, hj, _, htext⟩ := j.lexemes_eq_cons
  rw [hj, readAfter]
  intro next tail he
  obtain ⟨rfl, he⟩ := List.cons.inj he
  rw [htext next rfl] at he
  exact h (congrArg List.head? (List.cons.inj he).2)

theorem readAfter_members {members : List Json} (h : ∀ j ∈ members, j.ReadsBack) (v : Written)
    (before : List Written) (frames : List Frame) (rest : List Lexeme) :
    readAfter v (.array before :: frames)
        ((members.map lexemes).flatMap (.comma :: ·) ++ (.closeArray :: rest)) =
      readAfter (.array (before.reverse ++ v :: members.map toWritten)) frames rest := by
  induction members generalizing v before with
  | nil => simp [readAfter]
  | cons j js ih =>
    obtain ⟨hj, hjs⟩ := List.forall_mem_cons.mp h
    rw [List.map_cons, List.flatMap_cons, List.append_assoc, List.cons_append]
    have hrest := @further_head .closeArray (by decide) (js.map lexemes) rest
    rw [readAfter_comma hrest, hj _ _ hrest, ih hjs]
    simp

theorem readAfter_fields {fields : List (String × Json)} (h : ∀ f ∈ fields, f.2.ReadsBack)
    (v : Written) (before : List (Option String × Written)) (name : Option String)
    (frames : List Frame) (rest : List Lexeme) :
    readAfter v (.object before name :: frames)
        ((fields.map fun f => .string (some f.1) :: .colon :: f.2.lexemes).flatMap (.comma :: ·) ++
          (.closeObject :: rest)) =
      readAfter (.object (before.reverse ++ (name, v) ::
        fields.map fun f => (some f.1, f.2.toWritten))) frames rest := by
  induction fields generalizing v before name with
  | nil => simp [readAfter]
  | cons f fs ih =>
    obtain ⟨hf, hfs⟩ := List.forall_mem_cons.mp h
    have hrest := @further_head .closeObject (by decide)
      (fs.map fun f => .string (some f.1) :: .colon :: f.2.lexemes) rest
    rw [List.map_cons, List.flatMap_cons, List.append_assoc]
    simp only [List.cons_append]
    rw [readAfter, hf _ _ hrest, ih hfs]
    simp

/-- The lexemes of a value are read as this value. -/
theorem Canonical.readsBack {j : Json} (h : j.Canonical) : j.ReadsBack := by
  induction h with
  | null | bool | number | text => exact fun _ _ _ => by simp [lexemes, toWritten, readValue]
  | @array members _ ih =>
    intro frames rest _
    rw [lexemes, lexemesOfMembers_eq_map, toWritten, toWrittenMembers_eq_map]
    cases members with
    | nil => simp [enclosed, readValue]
    | cons j js =>
      obtain ⟨hj, hjs⟩ := List.forall_mem_cons.mp ih
      have hrest := @further_head .closeArray (by decide) (js.map lexemes) rest
      have hopen : readValue frames (.openArray :: (j.lexemes ++
            ((js.map lexemes).flatMap (.comma :: ·) ++ (.closeArray :: rest)))) =
          readValue (.array [] :: frames) (j.lexemes ++
            ((js.map lexemes).flatMap (.comma :: ·) ++ (.closeArray :: rest))) := by
        obtain ⟨first, more, hj, hfirst, _⟩ := j.lexemes_eq_cons
        rw [hj, List.cons_append, readValue]
        intro tail he
        exact hfirst (List.cons.inj he).1
      simp only [List.map_cons, enclosed, List.cons_append, List.append_assoc, List.nil_append]
      rw [hopen, hj _ _ hrest, readAfter_members hjs]
      rfl
  | @object fields _ _ ih =>
    intro frames rest _
    rw [lexemes, lexemesOfFields_eq_map, toWritten, toWrittenFields_eq_map]
    cases fields with
    | nil => simp [enclosed, readValue]
    | cons f fs =>
      obtain ⟨hf, hfs⟩ := List.forall_mem_cons.mp ih
      have hrest := @further_head .closeObject (by decide)
        (fs.map fun f => .string (some f.1) :: .colon :: f.2.lexemes) rest
      simp only [List.map_cons, enclosed, List.cons_append, List.append_assoc, List.nil_append]
      rw [readValue, hf _ _ hrest, readAfter_fields hfs]
      rfl

end Parsing

section Nesting

variable {allowed : Nat}

theorem depth_le_of_member {members : List Json} {j : Json} (h : j ∈ members) :
    j.depth ≤ depthOfMembers members := by
  induction members with
  | nil => cases h
  | cons first js ih =>
    rw [depthOfMembers]
    rcases List.mem_cons.mp h with rfl | h
    · exact Nat.le_max_left ..
    · exact Nat.le_trans (ih h) (Nat.le_max_right ..)

theorem depth_le_of_field {fields : List (String × Json)} {f : String × Json} (h : f ∈ fields) :
    f.2.depth ≤ depthOfFields fields := by
  induction fields with
  | nil => cases h
  | cons first fs ih =>
    rw [depthOfFields]
    rcases List.mem_cons.mp h with rfl | h
    · exact Nat.le_max_left ..
    · exact Nat.le_trans (ih h) (Nat.le_max_right ..)

theorem jsonMembers?_map {members : List Json}
    (h : ∀ j ∈ members, j.toWritten.json? allowed = some j) :
    Written.jsonMembers? allowed (members.map toWritten) = some members := by
  induction members with
  | nil => rfl
  | cons j js ih =>
    obtain ⟨hj, hjs⟩ := List.forall_mem_cons.mp h
    rw [List.map_cons, Written.jsonMembers?, hj, ih hjs]
    rfl

theorem jsonFields?_map {fields : List (String × Json)}
    (h : ∀ f ∈ fields, f.2.toWritten.json? allowed = some f.2) :
    Written.jsonFields? allowed (fields.map fun f => (some f.1, f.2.toWritten)) = some fields := by
  induction fields with
  | nil => rfl
  | cons f fs ih =>
    obtain ⟨hf, hfs⟩ := List.forall_mem_cons.mp h
    rw [List.map_cons, Written.jsonFields?, hf, ih hfs]
    rfl

/-- A canonical value is taken from what is written for it, if this nests as deeply as allowed. -/
theorem Canonical.json?_toWritten {j : Json} (h : j.Canonical) (hdepth : j.depth ≤ allowed) :
    j.toWritten.json? allowed = some j := by
  induction h generalizing allowed with
  | null | bool | text => rfl
  | number kept =>
    rw [toWritten, Written.json?, if_pos (Value.isFinite_of_kept kept)]
  | @array members _ ih =>
    rw [depth] at hdepth
    rw [toWritten, toWrittenMembers_eq_map, Written.json?, if_neg (by omega), jsonMembers?_map]
    · rfl
    · intro j hj
      have := depth_le_of_member hj
      exact ih j hj (by omega)
  | @object fields unique _ ih =>
    rw [depth] at hdepth
    rw [toWritten, toWrittenFields_eq_map, Written.json?, if_neg (by omega), jsonFields?_map]
    · exact congrArg some (ofMembers_eq unique)
    · intro f hf
      have := depth_le_of_field hf
      exact ih f hf (by omega)

end Nesting

theorem endsNumber_of_spaces {cs : List Char} (h : ∀ c ∈ cs, isSpace c = true) :
    EndsNumber cs := by
  intro c hc
  have hspace := h c (List.mem_of_mem_head? hc)
  simp only [isSpace, Bool.or_eq_true, beq_iff_eq] at hspace
  rcases hspace with ((rfl | rfl) | rfl) | rfl <;> decide

/-- A printed canonical value is read as this value, also with space behind it. -/
theorem Canonical.ofText?_print {j : Json} (h : j.Canonical) (hnumbers : j.NumbersReadToNearest)
    (hdepth : j.depth ≤ deepestNesting) (spacing : Spacing) (space : String)
    (hspace : ∀ c ∈ space.toList, isSpace c = true) :
    ofText? (j.print spacing ++ space) = some j := by
  have hblank : lexemesWithin? space.toList.length space.toList = some [] :=
    lexemesWithin?_of_blank (List.dropWhile_eq_nil_iff.mpr hspace)
  have hlexemes : lexemes? (j.written spacing 0 ++ space.toList) = some j.lexemes := by
    have hlexes := h.lexes_written hnumbers spacing 0 _ _ _ (endsNumber_of_spaces hspace) hblank
    rwa [← List.length_append, List.append_nil] at hlexes
  have hread := h.readsBack [] [] (by simp)
  rw [List.append_nil] at hread
  rw [ofText?, Written.ofText?, print, String.toList_append, String.toList_ofList, hlexemes,
    Option.bind_some, hread, Written.readAfter, Option.bind_some, h.json?_toWritten hdepth]

end Json

namespace Program

/-- The response with a value as its data. -/
theorem response_cast (v : Value) :
    (Outcome.cast v).response =
      .object ⟨[("status", .text "ok"), ("data", v.toJson)]⟩ := rfl

theorem response_canonical (v : Value) : (Outcome.cast v).response.Canonical := by
  refine .ofMembers ?_
  simp only [List.forall_mem_cons]
  exact ⟨.text _, v.toJson_canonical, by simp⟩

theorem response_numbers {v : Value} (h : v.toJson.NumbersReadToNearest) :
    (Outcome.cast v).response.NumbersReadToNearest := by
  rw [response_cast, Json.numbersReadToNearest_object]
  simpa using h

theorem responseText_not_blank (pretty : Bool) (v : Value) :
    Text.allBlank (responseText pretty (Outcome.cast v).response) = false := by
  rw [responseText, Text.allBlank, String.toList_append, response_cast, Json.print,
    String.toList_ofList, Json.written, Json.writtenFields, Json.bracketed]
  rfl

/-- The text of a response with a value as its data is read as a record with the JSON form of this
value. -/
theorem readValue_responseText {v : Value} (hnumbers : v.toJson.NumbersReadToNearest)
    (hdepth : v.toJson.depth ≤ 126) (pretty : Bool) :
    readValue (responseText pretty (Outcome.cast v).response).toUTF8 =
      .ok (.ofFields [("status", .text "ok"), ("data", .ofJson v.toJson)]) := by
  have hresponse : (Outcome.cast v).response.depth ≤ Json.deepestNesting := by
    rw [response_cast, Json.depth, Json.depthOfFields, Json.depthOfFields, Json.depthOfFields,
      Json.deepestNesting]
    simp [Json.depth]
    omega
  have htext := (response_canonical v).ofText?_print (response_numbers hnumbers) hresponse
    (if pretty then .indented else .compact) "\n"
    (List.forall_mem_singleton.mpr rfl)
  have hutf8 (text : String) : String.fromUTF8? text.toUTF8 = some text := dif_pos text.isValidUTF8
  rw [readValue, hutf8]
  dsimp only
  rw [responseText_not_blank, Value.ofJsonText?, responseText, htext]
  rfl

end Program

namespace Value

theorem display_eq_print {v : Value} (h : v.HasKeys ∨ ∃ members, v = .set members) :
    v.display = v.toJson.print .compact := by
  rcases h with h | ⟨members, rfl⟩
  · cases h <;> rfl
  · rfl

/-- What the program writes for a value is read back. The `json` coercion takes the text of a set,
map or record as its JSON form, and a response is read with this form as its data. -/
theorem written_reads_back {v : Value} (hnumbers : v.toJson.NumbersReadToNearest) :
    (v.HasKeys ∨ (∃ members, v = .set members) → v.toJson.depth ≤ 127 →
      (Builtin.toText v >>= Builtin.toJsonValue) = .ok (ofJson v.toJson)) ∧
    (v.toJson.depth ≤ 126 → ∀ pretty,
      Program.readValue (Program.responseText pretty (Program.Outcome.cast v).response).toUTF8 =
        .ok (.ofFields [("status", .text "ok"), ("data", ofJson v.toJson)])) := by
  refine ⟨fun hv hdepth => ?_, Program.readValue_responseText hnumbers⟩
  have htext := v.toJson_canonical.ofText?_print hnumbers hdepth .compact "" (by simp)
  rw [String.append_empty] at htext
  change Builtin.toJsonValue (.text v.display) = _
  rw [display_eq_print hv, Builtin.toJsonValue, ofJsonText?, htext]
  rfl

/-- A record with names and text to escape, empty containers, and numbers of each kind of text. -/
def stock : Value :=
  .ofFields [("a \"b\"\n", .set [.text "\\", .list [], .number ⟨0x3FE0000000000000⟩]),
    ("", .number ⟨0x4341C37937E08000⟩), ("n", .number ⟨0x8000000000000000⟩)]

theorem stock_reads_back :
    stock.toJson.NumbersReadToNearest ∧ stock.HasKeys ∧ stock.toJson.depth = 3 ∧
      (Builtin.toText stock >>= Builtin.toJsonValue) = .ok (ofJson stock.toJson) ∧
      ∀ pretty, Program.readValue
          (Program.responseText pretty (Program.Outcome.cast stock).response).toUTF8 =
        .ok (.ofFields [("status", .text "ok"), ("data", ofJson stock.toJson)]) := by
  have hjson : stock.toJson = .object ⟨[("a \"b\"\n", .array [.text "\\", .array [],
      .number ⟨0x3FE0000000000000⟩]), ("", .number ⟨0x4341C37937E08000⟩),
      ("n", .number .zero)]⟩ := by
    change Json.ofMembers [("a \"b\"\n", .array [.text "\\", .array [],
      numberJson ⟨0x3FE0000000000000⟩]), ("", numberJson ⟨0x4341C37937E08000⟩),
      ("n", numberJson ⟨0x8000000000000000⟩)] = _
    rw [numberJson_eq, numberJson_eq, numberJson_eq]
    rfl
  have hhalf : Json.ReadToNearest (Json.numberText ⟨0x3FE0000000000000⟩) := by
    have htext : Json.numberText ⟨0x3FE0000000000000⟩ = ['0', '.', '5'] := by decide +kernel
    have hwrites : Json.Numeral.Writes ⟨false, ['0'], ['5'], 0⟩ ['0', '.', '5'] :=
      .intro false .zero (.digits (by decide) (List.forall_mem_singleton.mpr rfl)) .none
    rw [htext]
    exact .of_writes hwrites (by decide +kernel)
  have hlarge : Json.ReadToNearest (Json.numberText ⟨0x4341C37937E08000⟩) := by
    have htext : Json.numberText ⟨0x4341C37937E08000⟩ = ['1', 'e', '+', '1', '6'] := by
      decide +kernel
    have hwrites : Json.Numeral.Writes ⟨false, ['1'], [], 16⟩ ['1', 'e', '+', '1', '6'] :=
      .intro false (.leading ⟨List.forall_mem_singleton.mpr rfl, '1', rfl, by decide⟩) .none
        (.place 16)
    rw [htext]
    exact .of_writes hwrites (by decide +kernel)
  have hnumbers : stock.toJson.NumbersReadToNearest := by
    have hzero : Number.zero.wholeNumber? = some 0 := Number.wholeNumber?_of_isZero (by decide)
    rw [hjson, Json.numbersReadToNearest_object]
    simp [hhalf, hlarge, hzero]
  have hdepth : stock.toJson.depth = 3 := by
    rw [hjson]
    rfl
  obtain ⟨htext, hresponse⟩ := written_reads_back hnumbers
  exact ⟨hnumbers, .record _, hdepth, htext (.inl (.record _)) (by rw [hdepth]; decide),
    hresponse (by rw [hdepth]; decide)⟩

end Value

end SchemaCast
