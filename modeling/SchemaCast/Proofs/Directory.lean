import SchemaCast.Proofs.ByteOrder
import SchemaCast.Proofs.Recompile

namespace SchemaCast

namespace Catalog

open Document (Definition)

/-- The names of the documents in a directory, in the order of their bytes. -/
structure NameOrder (listed documents : List String) : Prop where
  perm : documents.Perm (listed.filter Files.hasJsonExtension)
  increasing : documents.Pairwise fun f g => Text.bytes f ≤ Text.bytes g

/-- The paths of the documents of a catalog. -/
def paths (catalog : Catalog) (documents : List String) : List String :=
  documents.map (Files.join catalog.directory)

/-- The files at the paths are loaded in turn: each is text that the catalog accepts as it is by
then. The documents in them have the given names. -/
inductive Loads (files : Files) : Catalog → List String → List String → Catalog → Prop where
  | nil (catalog : Catalog) : Loads files catalog [] [] catalog
  | cons {catalog next after : Catalog} {path text name : String} {paths names : List String}
      (readable : files.text? path = some text)
      (accepted : catalog.load path text = (.ok name, next))
      (rest : Loads files next paths names after) :
    Loads files catalog (path :: paths) (name :: names) after

/-- What a catalog becomes by new schemas under the given names, which is all that changes. -/
structure Gains (catalog : Catalog) (names : List String) (after : Catalog) : Prop where
  fresh : ∀ name ∈ names, name ∉ catalog.names
  distinct : names.Nodup
  names : after.names.Perm (names ++ catalog.names)
  kept : ∀ name d, catalog.schemas.find? name = some d → after.schemas.find? name = some d
  directory : after.directory = catalog.directory
  registry : after.registry = catalog.registry

section Order

variable {listed documents : List String}

/-- Names are sorted by their characters, which is the order of their bytes. -/
theorem nameOrder_documentNames (listed : List String) :
    NameOrder listed (documentNames listed) := by
  have hsorted := @List.pairwise_mergeSort String (fun f g => decide (f ≤ g))
    (fun f g h hfg hgh => by simpa using String.le_trans (by simpa using hfg) (by simpa using hgh))
    (fun f g => by simpa using String.le_total f g) (listed.filter Files.hasJsonExtension)
  refine ⟨List.mergeSort_perm .., hsorted.imp fun h => ?_⟩
  exact Text.bytes_le_iff.mpr (of_decide_eq_true h)

/-- There is only one such order. -/
theorem NameOrder.unique {others : List String} (h : NameOrder listed documents)
    (hothers : NameOrder listed others) : documents = others := by
  refine (h.perm.trans hothers.perm.symm).eq_of_pairwise (fun f g _ _ hfg hgf => ?_) h.increasing
    hothers.increasing
  exact String.le_antisymm (Text.bytes_le_iff.mp hfg) (Text.bytes_le_iff.mp hgf)

theorem NameOrder.of_perm {others : List String} (h : NameOrder listed documents)
    (hperm : others.Perm listed) : NameOrder others documents :=
  ⟨h.perm.trans (hperm.symm.filter _), h.increasing⟩

end Order

section Steps

variable {files : Files} {catalog next after : Catalog} {path text name : String}
  {paths names : List String}

theorem Gains.refl (catalog : Catalog) : catalog.Gains [] catalog :=
  ⟨by simp, List.nodup_nil, .refl _, fun _ _ h => h, rfl, rfl⟩

/-- Loading a document adds its name and nothing else. -/
theorem load_gains (h : catalog.load path text = (.ok name, next)) : catalog.Gains [name] next := by
  obtain ⟨_, d, schemas, _, _, _, _, hb, rfl⟩ := load_ok h
  refine ⟨fun other hother => ?_, by simp, NameTable.names_bind? hb,
    fun _ _ => NameTable.find?_of_bind? hb, rfl, rfl⟩
  obtain rfl := List.mem_singleton.mp hother
  rw [Catalog.names, NameTable.mem_names, (NameTable.bind?_eq_some.mp hb).1]
  simp

theorem Gains.trans {others : List String} (h : catalog.Gains names next)
    (hnext : next.Gains others after) : catalog.Gains (names ++ others) after := by
  have hold (other : String) (hother : other ∈ others) :
      other ∉ names ∧ other ∉ catalog.names := by
    have hfresh := hnext.fresh other hother
    rw [h.names.mem_iff, List.mem_append, not_or] at hfresh
    exact hfresh
  refine ⟨fun name hname => ?_, ?_, ?_, fun name d hd => hnext.kept name d (h.kept name d hd),
    hnext.directory.trans h.directory, hnext.registry.trans h.registry⟩
  · rcases List.mem_append.mp hname with hname | hname
    · exact h.fresh name hname
    · exact (hold name hname).2
  · refine List.nodup_append.mpr ⟨h.distinct, hnext.distinct, ?_⟩
    rintro name hname other hother rfl
    exact (hold name hother).1 hname
  · have hperm := (hnext.names.trans (h.names.append_left others)).trans
      (List.perm_append_comm_assoc others names catalog.names)
    rwa [List.append_assoc]

theorem load_grows (h : catalog.load path text = (.ok name, next)) :
    catalog.scope.Grows next.scope := by
  obtain ⟨_, d, schemas, _, _, _, hd, hb, rfl⟩ := load_ok h
  refine scope_grows rfl (fun _ _ => NameTable.find?_of_bind? hb) fun other c hfree hc => ?_
  rw [NameTable.find?_bind? hb, hfree, Option.none_or] at hc
  split at hc
  · exact Option.some.inj hc ▸ compile_castable hd
  · cases hc

/-- A document that compiles is refused if its name is taken. -/
theorem load_of_taken {document : Document} {c d : Descriptor}
    (hdocument : Document.ofText? text = some document) (hname : document.name.isEmpty = false)
    (hc : catalog.compile path document = .ok c)
    (htaken : catalog.schemas.find? document.name = some d) :
    catalog.load path text = (.error (.duplicateSchema document.name), catalog) := by
  have hbind : catalog.schemas.bind? document.name c = none := by
    rw [NameTable.bind?, htaken]
    rfl
  simp [load, hdocument, hname, hc, register, hbind, Except.map]

theorem Loads.gains (h : Loads files catalog paths names after) : catalog.Gains names after := by
  induction h with
  | nil catalog => exact .refl catalog
  | cons readable accepted rest ih => exact (load_gains accepted).trans ih

theorem Loads.length_eq (h : Loads files catalog paths names after) :
    names.length = paths.length := by
  induction h with
  | nil catalog => rfl
  | cons readable accepted rest ih => rw [List.length_cons, List.length_cons, ih]

theorem Loads.grows (h : Loads files catalog paths names after) :
    catalog.scope.Grows after.scope := by
  induction h with
  | nil catalog => exact .refl _
  | cons readable accepted rest ih => exact (load_grows accepted).trans ih

/-- Loading goes on behind files that are loaded. -/
theorem Loads.loadFiles (h : Loads files catalog paths names after) (others : List String) :
    catalog.loadFiles files (paths ++ others) = after.loadFiles files others := by
  induction h with
  | nil catalog => rfl
  | cons readable accepted rest ih =>
    rw [List.cons_append, Catalog.loadFiles, loadFile, readable]
    dsimp only
    rw [accepted]
    exact ih

/-- All files are loaded, or those in front of one that fails. -/
theorem loads_or_fails (files : Files) (catalog : Catalog) (paths : List String) :
    (∃ names after, Loads files catalog paths names after) ∨
    ∃ done path others names after m, paths = done ++ path :: others ∧
      Loads files catalog done names after ∧ (after.loadFile files path).1 = .error m := by
  induction paths generalizing catalog with
  | nil => exact .inl ⟨[], catalog, .nil catalog⟩
  | cons path paths ih =>
    rcases hfile : catalog.loadFile files path with ⟨m | name, next⟩
    · exact .inr ⟨[], path, paths, [], catalog, m, rfl, .nil catalog, congrArg Prod.fst hfile⟩
    · obtain ⟨text, htext, hload⟩ := loadFile_ok hfile
      rcases ih next with
        ⟨names, after, hrest⟩ | ⟨done, failed, others, names, after, m, rfl, hrest, hm⟩
      · exact .inl ⟨name :: names, after, .cons htext hload hrest⟩
      · exact .inr ⟨path :: done, failed, others, name :: names, after, m, rfl,
          .cons htext hload hrest, hm⟩

/-- A document that was loaded is refused from then on, for its name is taken. -/
theorem Loads.loadFile_again (h : Loads files catalog (path :: paths) (name :: names) after) :
    after.loadFile files path = (.error (.duplicateSchema name), after) := by
  cases h with
  | cons readable accepted rest =>
    obtain ⟨document, d, schemas, hdocument, rfl, hname, hd, hb, rfl⟩ := load_ok accepted
    have hgrows := (load_grows accepted).trans rest.grows
    obtain ⟨c, hc⟩ := compile_still path hgrows hd
    have htaken := rest.gains.kept _ d (NameTable.find?_bind?_self hb)
    rw [loadFile, readable]
    exact load_of_taken hdocument hname hc htaken

end Steps

section Directory

variable {files : Files} {catalog after : Catalog} {listed documents names : List String}

theorem loadAll_eq (hlist : files.list? catalog.directory = some listed)
    (horder : NameOrder listed documents) :
    catalog.loadAll files =
      ((catalog.loadFiles files (catalog.paths documents)).1.map fun _ => documents.length,
        (catalog.loadFiles files (catalog.paths documents)).2) := by
  rw [loadAll, hlist]
  dsimp only
  rw [(nameOrder_documentNames listed).unique horder, List.length_map]
  rfl

/-- Loading depends on the files only through what is in them. -/
theorem loadFiles_congr {other : Files} (h : other.read? = files.read?) (paths : List String) :
    catalog.loadFiles other paths = catalog.loadFiles files paths := by
  have htext : other.text? = files.text? := by
    funext path
    rw [Files.text?, Files.text?, h]
  induction paths generalizing catalog with
  | nil => rfl
  | cons path paths ih =>
    have hfile : catalog.loadFile other path = catalog.loadFile files path := by
      rw [loadFile, loadFile, htext]
    rw [Catalog.loadFiles, Catalog.loadFiles, hfile]
    split
    · exact ih
    · rfl

/-- If all documents are loaded then their number is the result. -/
theorem Loads.loadAll (h : Loads files catalog (catalog.paths documents) names after)
    (hlist : files.list? catalog.directory = some listed) (horder : NameOrder listed documents) :
    catalog.loadAll files = (.ok documents.length, after) := by
  have hrun := h.loadFiles []
  rw [List.append_nil] at hrun
  rw [loadAll_eq hlist horder, hrun]
  rfl

/-- The error of a document that is not loaded is the result, and those in front of it stay. -/
theorem Loads.loadAll_of_error {done others : List String} {document : String} {m : Misuse}
    (h : Loads files catalog (catalog.paths done) names after)
    (hfailed : (after.loadFile files (Files.join catalog.directory document)).1 = .error m)
    (hlist : files.list? catalog.directory = some listed)
    (horder : NameOrder listed (done ++ document :: others)) :
    catalog.loadAll files = (.error m, after) := by
  have hrun := h.loadFiles (catalog.paths (document :: others))
  rcases hfile : after.loadFile files (Files.join catalog.directory document) with ⟨result, next⟩
  obtain rfl : result = .error m := by rw [← hfailed, hfile]
  obtain rfl := loadFile_error hfile
  rw [paths, paths, ← List.map_append, List.map_cons, Catalog.loadFiles, hfile] at hrun
  rw [loadAll_eq hlist horder, paths, hrun]
  rfl

/-- Loading a directory once more fails at the first document, and nothing changes. -/
theorem Loads.loadAll_again {name : String}
    (h : Loads files catalog (catalog.paths documents) (name :: names) after)
    (hlist : files.list? catalog.directory = some listed) (horder : NameOrder listed documents) :
    after.loadAll files = (.error (.duplicateSchema name), after) := by
  have hdirectory := h.gains.directory
  cases documents with
  | nil => cases h
  | cons document others =>
    have hfailed := congrArg Prod.fst h.loadFile_again
    rw [← hdirectory] at hfailed hlist
    have hnone : Loads files after (after.paths []) [] after := .nil after
    exact hnone.loadAll_of_error hfailed hlist horder

/-- Loading a directory loads its documents in the order of their names, in whatever order these are
listed: all of them, or those in front of the first that fails. Each one loaded adds its own
name and nothing else, so that loading the directory again fails. -/
theorem loadAll_in_name_order (files : Files) (catalog : Catalog) (listed documents : List String)
    (hlist : files.list? catalog.directory = some listed) (horder : NameOrder listed documents) :
    (∀ names after, Loads files catalog (catalog.paths documents) names after →
      catalog.loadAll files = (.ok documents.length, after) ∧
      names.length = documents.length ∧ catalog.Gains names after ∧
      ∀ name, names.head? = some name →
        after.loadAll files = (.error (.duplicateSchema name), after)) ∧
    (∀ done document others names after m, documents = done ++ document :: others →
      Loads files catalog (catalog.paths done) names after →
      (after.loadFile files (Files.join catalog.directory document)).1 = .error m →
      catalog.loadAll files = (.error m, after) ∧
      names.length = done.length ∧ catalog.Gains names after) ∧
    ((∃ names after, Loads files catalog (catalog.paths documents) names after) ∨
      ∃ done document others names after m, documents = done ++ document :: others ∧
        Loads files catalog (catalog.paths done) names after ∧
        (after.loadFile files (Files.join catalog.directory document)).1 = .error m) ∧
    ∀ (other : Files) (others : List String), other.read? = files.read? →
      other.list? catalog.directory = some others → others.Perm listed →
      catalog.loadAll other = catalog.loadAll files := by
  refine ⟨fun names after h => ?_, ?_, ?_, ?_⟩
  · refine ⟨h.loadAll hlist horder, ?_, h.gains, fun name hname => ?_⟩
    · rw [h.length_eq, paths, List.length_map]
    · cases names with
      | nil => cases hname
      | cons first rest =>
        obtain rfl := Option.some.inj hname
        exact h.loadAll_again hlist horder
  · rintro done document others names after m rfl h hfailed
    refine ⟨h.loadAll_of_error hfailed hlist horder, ?_, h.gains⟩
    rw [h.length_eq, paths, List.length_map]
  · rcases loads_or_fails files catalog (catalog.paths documents) with
      h | ⟨done, path, others, names, after, m, hsplit, hdone, hfailed⟩
    · exact .inl h
    · obtain ⟨first, rest, rfl, rfl, hrest⟩ := List.map_eq_append_iff.mp hsplit
      obtain ⟨document, others, rfl, rfl, rfl⟩ := List.map_eq_cons_iff.mp hrest
      exact .inr ⟨first, document, others, names, after, m, rfl, hdone, hfailed⟩
  · intro other others hread hother hperm
    rw [loadAll_eq hlist horder, loadAll_eq hother (horder.of_perm hperm),
      loadFiles_congr hread]

def lampText : String :=
  "\x7b\"name\":\"lamp\",\"schema\":\x7b\"type\":\"boolean\"\x7d\x7d"

/-- The definition of the members refers to the other document. -/
def lampsText : String :=
  "\x7b\"name\":\"lamps\",\"schema\":\x7b\"type\":\"list\"," ++
    "\"values\":\x7b\"type\":\"lamp\"\x7d\x7d\x7d"

def lampDefinition : Definition := { Definition.blank with type? := some "boolean" }

def lampsDefinition : Definition :=
  { Definition.blank with
    type? := some "list"
    values? := some { Definition.blank with type? := some "lamp" } }

def lampTexts : List (String × String) :=
  [("schemas/lamps.json", lampsText), ("schemas/lamp.json", lampText)]

def lampFiles : Files where
  read? path := (lampTexts.find? (·.1 == path)).map fun entry => entry.2.toUTF8
  list? path := if path = "schemas" then some ["lamps.json", "notes.txt", "lamp.json"] else none

theorem text?_lampFiles {path text : String}
    (h : (lampTexts.find? (·.1 == path)).map Prod.snd = some text) :
    lampFiles.text? path = some text := by
  obtain ⟨entry, hentry, rfl⟩ := Option.map_eq_some_iff.mp h
  have hread : lampFiles.read? path = some entry.2.toUTF8 := congrArg (Option.map _) hentry
  rw [Files.text?, hread]
  exact dif_pos entry.2.isValidUTF8

def lampDescriptor : Descriptor := .validator (.base Builtin.boolean.type) {} none .any

/-- The catalog after both documents are loaded. -/
def lampCatalog : Catalog where
  directory := "schemas"
  schemas := (NameTable.empty.insert "lamp" lampDescriptor).insert "lamps"
    (.validator (.base Builtin.list.type) {} none (.each (.validator lampDescriptor {} none .any)))

theorem lamps_in_name_order :
    lampFiles.list? "schemas" = some ["lamps.json", "notes.txt", "lamp.json"] ∧
    NameOrder ["lamps.json", "notes.txt", "lamp.json"] ["lamp.json", "lamps.json"] ∧
    loadAll lampFiles { directory := "schemas" } = (.ok 2, lampCatalog) ∧
    lampCatalog.loadAll lampFiles = (.error (.duplicateSchema "lamp"), lampCatalog) := by
  have horder : NameOrder ["lamps.json", "notes.txt", "lamp.json"] ["lamp.json", "lamps.json"] := by
    refine ⟨by decide +kernel, ?_⟩
    simp only [Text.bytes_le_iff]
    decide +kernel
  have hlamp : load { directory := "schemas" } "schemas/lamp.json" lampText = (.ok "lamp",
      { directory := "schemas", schemas := .insert .empty "lamp" lampDescriptor }) := by
    have hdocument : Document.ofText? lampText = some ⟨"lamp", lampDefinition⟩ := rfl
    exact load_of hdocument rfl ((except_bind_eq_ok ..).mpr ⟨_, rfl, rfl⟩) rfl
  have hlamps : load { directory := "schemas", schemas := .insert .empty "lamp" lampDescriptor }
      "schemas/lamps.json" lampsText = (.ok "lamps", lampCatalog) := by
    have hdocument : Document.ofText? lampsText = some ⟨"lamps", lampsDefinition⟩ := rfl
    exact load_of hdocument rfl ((except_bind_eq_ok ..).mpr ⟨_, rfl, rfl⟩) rfl
  have hloads : Loads lampFiles { directory := "schemas" }
      (paths { directory := "schemas" } ["lamp.json", "lamps.json"]) ["lamp", "lamps"]
      lampCatalog := by
    have hpaths : paths { directory := "schemas" } ["lamp.json", "lamps.json"] =
        ["schemas/lamp.json", "schemas/lamps.json"] := by decide +kernel
    have hread : lampFiles.text? "schemas/lamp.json" = some lampText := text?_lampFiles rfl
    have hreads : lampFiles.text? "schemas/lamps.json" = some lampsText := text?_lampFiles rfl
    rw [hpaths]
    exact .cons hread hlamp (.cons hreads hlamps (.nil _))
  obtain ⟨hall, _⟩ := loadAll_in_name_order lampFiles { directory := "schemas" } _ _ rfl horder
  obtain ⟨hresult, _, _, hagain⟩ := hall _ _ hloads
  exact ⟨rfl, horder, hresult, hagain _ rfl⟩

end Directory

end Catalog

end SchemaCast
