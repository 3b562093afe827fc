import SchemaCast.Proofs.Compile

namespace SchemaCast

namespace SchemaType

instance (type : SchemaType) (b : Builtin) : Decidable (type = .builtin b) :=
  match type with
  | builtin c => decidable_of_iff (c = b) (by simp)
  | custom _ => isFalse (by simp)

/-- The types that may have an option. -/
def Allows (type : SchemaType) : MemberOption → Prop
  | .keys | .entries => type = .builtin .record ∨ type = .builtin .map
  | .values => type = .builtin .list ∨ type = .builtin .record ∨ type = .builtin .set ∨
      type = .builtin .map

instance (type : SchemaType) : (option : MemberOption) → Decidable (type.Allows option)
  | .keys | .entries | .values => inferInstanceAs (Decidable (_ ∨ _))

theorem allows_iff (type : SchemaType) (option : MemberOption) :
    type.Allows option ↔ type.supports option = true := by
  cases type with
  | custom d => cases option <;> simp [Allows, supports]
  | builtin b => cases option <;> cases b <;> simp [Allows, supports]

end SchemaType

namespace Schema

/-- A schema asks its type only for what it can do. -/
structure WellFormed (s : Schema) : Prop where
  cast : s.rules.casts = true → s.type.descriptor.isCastable = true
  contents : ¬(s.values?.isSome ∧ s.entries?.isSome)
  keys : s.keys?.isSome → s.type.Allows .keys
  values : s.values?.isSome → s.type.Allows .values
  entries : s.entries?.isSome → s.type.Allows .entries

/-- The violation of a condition, unless it holds. -/
def violationUnless (condition : Prop) [Decidable condition] (m : Misuse) : List Misuse :=
  if condition then [] else [m]

mutual

/-- All violations of a schema and of those inside it: first those of its own cast and contents,
then those of its keys, of its values and of its entries, each option before what is inside. -/
def violations : Schema → List Misuse
  | ⟨type, rules, keys?, values?, entries?⟩ =>
    violationUnless (rules.casts = true → type.descriptor.isCastable = true)
        (.notCastable type.name) ++
      violationUnless (¬(values?.isSome ∧ entries?.isSome)) .conflictingOptions ++
      optionViolations type .keys keys? ++
      optionViolations type .values values? ++
      entriesViolations type entries?
termination_by structural s => s

/-- What was compiled already has no violations any more. -/
def nestedViolations : NestedSchema → List Misuse
  | .declared schema => violations schema
  | .compiled _ => []
termination_by structural s => s

def optionViolations (type : SchemaType) (option : MemberOption) :
    Option NestedSchema → List Misuse
  | none => []
  | some schema =>
    violationUnless (type.Allows option) (.unsupportedOption option type.name) ++
      nestedViolations schema
termination_by structural s => s

def entriesViolations (type : SchemaType) : Option (List (String × NestedSchema)) → List Misuse
  | none => []
  | some entries =>
    violationUnless (type.Allows .entries) (.unsupportedOption .entries type.name) ++
      fieldViolations entries
termination_by structural s => s

/-- Every schema counts, also one whose key is declared again. -/
def fieldViolations : List (String × NestedSchema) → List Misuse
  | [] => []
  | (_, schema) :: rest => nestedViolations schema ++ fieldViolations rest
termination_by structural s => s

end

/-- A result is the first of the violations, or a success if there are none. -/
inductive Reports {α : Type} : List Misuse → Except Misuse α → Prop where
  | none (a : α) : Reports [] (.ok a)
  | first (m : Misuse) (others : List Misuse) : Reports (m :: others) (.error m)

theorem Reports.bind {α β : Type} {vs ws : List Misuse} {x : Except Misuse α}
    {f : α → Except Misuse β} (h : Reports vs x) (hf : ∀ a, Reports ws (f a)) :
    Reports (vs ++ ws) (x >>= f) := by
  cases h with
  | none a => exact hf a
  | first m others => exact .first m (others ++ ws)

theorem Reports.map {α β : Type} {vs : List Misuse} {x : Except Misuse α} (h : Reports vs x)
    (f : α → β) : Reports vs (do return f (← x)) := by
  cases h with
  | none a => exact .none (f a)
  | first m others => exact .first m others

theorem Reports.succeeds_iff {α : Type} {vs : List Misuse} {x : Except Misuse α}
    (h : Reports vs x) : (∃ a, x = .ok a) ↔ vs = [] := by
  cases h <;> simp

theorem Reports.eq_error_iff {α : Type} {vs : List Misuse} {x : Except Misuse α}
    (h : Reports vs x) (m : Misuse) : x = .error m ↔ vs.head? = some m := by
  cases h <;> simp

theorem violationUnless_reports {condition : Prop} [Decidable condition] {m : Misuse}
    {x : Except Misuse Unit} (hok : condition → x = .ok ()) (herror : ¬condition → x = .error m) :
    Reports (violationUnless condition m) x := by
  unfold violationUnless
  split
  · rename_i h
    exact hok h ▸ .none ()
  · rename_i h
    exact herror h ▸ .first m []

theorem requireCast_reports (rules : Rules) (type : SchemaType) :
    Reports (violationUnless (rules.casts = true → type.descriptor.isCastable = true)
      (.notCastable type.name)) (rules.requireCast type) := by
  refine violationUnless_reports requireCast_eq_ok fun h => ?_
  rw [Rules.requireCast, if_pos (by simpa using h)]

theorem requireOneContents_reports {α β : Type} (values? : Option α) (entries? : Option β) :
    Reports (violationUnless (¬(values?.isSome ∧ entries?.isSome)) .conflictingOptions)
      (requireOneContents values? entries?) := by
  unfold requireOneContents
  refine violationUnless_reports (fun h => ?_) fun h => ?_
  · rw [if_neg (by rwa [Bool.and_eq_true])]
  · rw [if_pos (by rw [Bool.and_eq_true]; exact not_not.mp h)]

theorem require_reports (type : SchemaType) (option : MemberOption) :
    Reports (violationUnless (type.Allows option) (.unsupportedOption option type.name))
      (type.require option) := by
  simp only [type.allows_iff option]
  refine violationUnless_reports require_eq_ok fun h => ?_
  rw [SchemaType.require, if_neg h]

-- One statement for each of the mutually recursive functions that compile a schema.
mutual

theorem compile_reports : ∀ s : Schema, Reports s.violations s.compile
  | ⟨type, rules, keys?, values?, entries?⟩ => by
    rw [violations, compile]
    simp only [List.append_assoc]
    refine (requireCast_reports rules type).bind fun _ => ?_
    refine (requireOneContents_reports values? entries?).bind fun _ => ?_
    refine (compileOption?_reports type .keys keys?).bind fun _ => ?_
    refine (compileOption?_reports type .values values?).bind fun _ => ?_
    exact (compileEntries?_reports type entries?).map _
termination_by structural s => s

theorem compileNested_reports : ∀ n : NestedSchema, Reports (nestedViolations n) (compileNested n)
  | .declared s => compile_reports s
  | .compiled d => .none d
termination_by structural n => n

theorem compileOption?_reports (type : SchemaType) (option : MemberOption) :
    ∀ n? : Option NestedSchema,
      Reports (optionViolations type option n?) (compileOption? type option n?)
  | none => .none none
  | some n => by
    rw [optionViolations, compileOption?]
    exact (require_reports type option).bind fun _ => (compileNested_reports n).map some
termination_by structural n? => n?

theorem compileEntries?_reports (type : SchemaType) :
    ∀ fields? : Option (List (String × NestedSchema)),
      Reports (entriesViolations type fields?) (compileEntries? type fields?)
  | none => .none none
  | some fields => by
    rw [entriesViolations, compileEntries?]
    exact (require_reports type .entries).bind fun _ =>
      (compileFields_reports fields).map fun ds => some (OrderedMap.ofList ds)
termination_by structural fields? => fields?

theorem compileFields_reports : ∀ fields : List (String × NestedSchema),
    Reports (fieldViolations fields) (compileFields fields)
  | [] => .none []
  | (key, n) :: rest => by
    rw [fieldViolations, compileFields]
    exact (compileNested_reports n).bind fun d =>
      (compileFields_reports rest).map fun ds => (key, d) :: ds
termination_by structural fields => fields

end

theorem violationUnless_eq_nil {condition : Prop} [Decidable condition] {m : Misuse} :
    violationUnless condition m = [] ↔ condition := by
  simp [violationUnless]

theorem optionViolations_eq_nil {type : SchemaType} {option : MemberOption}
    {n? : Option NestedSchema} :
    optionViolations type option n? = [] ↔
      (n?.isSome → type.Allows option) ∧ ∀ n ∈ n?.toList, nestedViolations n = [] := by
  cases n? with
  | none => simp [optionViolations]
  | some n =>
    rw [optionViolations, List.append_eq_nil_iff, violationUnless_eq_nil]
    simp

theorem fieldViolations_eq_nil {fields : List (String × NestedSchema)} :
    fieldViolations fields = [] ↔ ∀ n ∈ fields.map Prod.snd, nestedViolations n = [] := by
  induction fields with
  | nil => simp [fieldViolations]
  | cons f fields ih =>
    rw [fieldViolations, List.append_eq_nil_iff, ih, List.map_cons, List.forall_mem_cons]

theorem entriesViolations_eq_nil {type : SchemaType}
    {fields? : Option (List (String × NestedSchema))} :
    entriesViolations type fields? = [] ↔
      (fields?.isSome → type.Allows .entries) ∧
        ∀ n ∈ (fields?.getD []).map Prod.snd, nestedViolations n = [] := by
  cases fields? with
  | none => simp [entriesViolations]
  | some fields =>
    rw [entriesViolations, List.append_eq_nil_iff, violationUnless_eq_nil, fieldViolations_eq_nil]
    simp

/-- A schema is without violations if it is well formed and so is all that it contains. -/
theorem violations_eq_nil {s : Schema} :
    s.violations = [] ↔ s.WellFormed ∧ ∀ n ∈ s.nested, nestedViolations n = [] := by
  obtain ⟨type, rules, keys?, values?, entries?⟩ := s
  simp only [violations, nested, List.append_eq_nil_iff, violationUnless_eq_nil,
    optionViolations_eq_nil, entriesViolations_eq_nil, List.forall_mem_append]
  constructor
  · rintro ⟨⟨⟨⟨hcast, hone⟩, hkeys, hk⟩, hvalues, hv⟩, hentries, he⟩
    exact ⟨⟨hcast, hone, hkeys, hvalues, hentries⟩, ⟨hk, hv⟩, he⟩
  · rintro ⟨⟨hcast, hone, hkeys, hvalues, hentries⟩, ⟨hk, hv⟩, he⟩
    exact ⟨⟨⟨⟨hcast, hone⟩, hkeys, hk⟩, hvalues, hv⟩, hentries, he⟩

theorem Everywhere.violations_eq_nil {s : Schema} (h : s.Everywhere WellFormed) :
    s.violations = [] := by
  induction h with
  | intro inner declared here _ ih =>
    refine Schema.violations_eq_nil.mpr ⟨here, fun n hn => ?_⟩
    obtain ⟨t, ht, rfl⟩ := mem_of_nested declared hn
    rw [nestedViolations]
    exact ih t ht

theorem everywhere_wellFormed {s : Schema} (hs : s.Everywhere fun _ => True)
    (h : s.violations = []) : s.Everywhere WellFormed := by
  induction hs with
  | intro inner declared _ _ ih =>
    obtain ⟨here, hnested⟩ := violations_eq_nil.mp h
    refine .intro inner declared here fun t ht => ih t ht ?_
    have ht := hnested (.declared t) (declared ▸ List.mem_map_of_mem ht)
    rwa [nestedViolations] at ht

/-- A tree of schemas compiles exactly if every schema in it is well formed, and the error of one
that does not is the first of its violations. -/
theorem compile_iff_wellFormed {s : Schema} (hs : s.Everywhere fun _ => True) :
    ((∃ d, s.compile = .ok d) ↔ s.Everywhere WellFormed) ∧
    ∀ m, s.compile = .error m ↔ s.violations.head? = some m := by
  refine ⟨?_, (compile_reports s).eq_error_iff⟩
  rw [(compile_reports s).succeeds_iff]
  exact ⟨everywhere_wellFormed hs, Everywhere.violations_eq_nil⟩

/-- The first schema for `sizes` is violated, although the second one replaces it. -/
def shelf : Schema where
  type := .builtin .record
  entries? := some [
    ("label", .ofBuiltin .text),
    ("sizes", .declared { type := .builtin .list, keys? := some (.ofBuiltin .text) }),
    ("sizes", .declared { type := .builtin .list, values? := some (.ofBuiltin .number) }),
    ("lock", .declared { type := .builtin .token, rules := { casts := true } })]

theorem shelf_violated : shelf.Everywhere (fun _ => True) ∧
    shelf.violations = [.unsupportedOption .keys "list", .notCastable "token"] ∧
    shelf.compile = .error (.unsupportedOption .keys "list") := by
  have hleaf (b : Builtin) (rules : Rules) :
      Everywhere (fun _ => True) { type := .builtin b, rules } :=
    .leaf rfl trivial
  have hdeclared : shelf.Everywhere fun _ => True := by
    refine .intro [_, _, _, _] rfl trivial ?_
    simp only [List.forall_mem_cons, List.not_mem_nil, false_implies, implies_true, and_true]
    refine ⟨hleaf .text {}, .intro [_] rfl trivial ?_, .intro [_] rfl trivial ?_, hleaf ..⟩
    · exact List.forall_mem_singleton.mpr (hleaf .text {})
    · exact List.forall_mem_singleton.mpr (hleaf .number {})
  have hviolations : shelf.violations = [.unsupportedOption .keys "list", .notCastable "token"] :=
    rfl
  refine ⟨hdeclared, hviolations, ?_⟩
  rw [(compile_iff_wellFormed hdeclared).2, hviolations]
  rfl

end Schema

end SchemaCast
