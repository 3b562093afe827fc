import Mathlib.Data.List.Nodup
import SchemaCast.Proofs.Loading

namespace SchemaCast

/-- A text that writes a document, and the source that it comes from. -/
structure Submission where
  source : String
  text : String
  document : Document
  written : Document.ofText? text = some document

namespace Submission

def name (x : Submission) : String := x.document.name

/-- One of the documents names the other one as a type. -/
def Linked (x y : Submission) : Prop :=
  x.document.definition.NamesType y.name ∨ y.document.definition.NamesType x.name

/-- Documents of different names that do not name each other. -/
structure Independent (x y : Submission) : Prop where
  name_ne : x.name ≠ y.name
  not_linked : ¬x.Linked y

theorem Independent.symm {x y : Submission} (h : x.Independent y) : y.Independent x :=
  ⟨h.name_ne.symm, fun hl => h.not_linked hl.symm⟩

/-- The source with the text. -/
def pair (x : Submission) : String × String := (x.source, x.text)

end Submission

namespace Catalog

open Submission

variable {catalog other : Catalog} {x y : Submission}

/-- Documents that are loaded one after another, each with what loading it gives: the name of its
schema or an error. -/
def report (catalog : Catalog) : List Submission → List (Submission × Except Misuse String)
  | [] => []
  | x :: rest =>
    let (result, catalog) := catalog.load x.source x.text
    (x, result) :: report catalog rest

theorem report_cons (catalog : Catalog) (x : Submission) (rest : List Submission) :
    catalog.report (x :: rest) =
      (x, (catalog.load x.source x.text).1) :: report (catalog.loadEach [x.pair]) rest :=
  rfl

theorem name_of_verdict {name : String} {d : Descriptor}
    (h : catalog.verdict x.source x.text = .ok (name, d)) : name = x.name := by
  obtain ⟨document, hdocument, rfl, _⟩ := verdict_eq_ok.mp h
  rw [name, Option.some.inj (x.written.symm.trans hdocument)]

theorem loadEach_single (catalog : Catalog) (x : Submission) :
    catalog.loadEach [x.pair] = match catalog.verdict x.source x.text with
      | .ok (name, d) => catalog.add name d
      | .error _ => catalog := by
  rw [pair, loadEach, load_eq]
  cases catalog.verdict x.source x.text <;> rfl

/-- What a document gets depends on the catalog by the verdict alone. -/
theorem load_fst_congr
    (h : other.verdict x.source x.text = catalog.verdict x.source x.text) :
    (other.load x.source x.text).1 = (catalog.load x.source x.text).1 := by
  rw [load_eq, load_eq, h]
  cases catalog.verdict x.source x.text <;> rfl

theorem compile_congr {source : String} {document : Document}
    (hr : other.registry = catalog.registry)
    (hf : ∀ name, document.definition.NamesType name →
      other.schemas.find? name = catalog.schemas.find? name) :
    other.compile source document = catalog.compile source document := by
  have hvalidator : other.scope.validator = catalog.scope.validator := by
    simp only [scope, hr]
  have htype (name : String) (hn : document.definition.NamesType name) :
      other.scope.type name = catalog.scope.type name := by
    simp only [scope, hr, hf name hn]
  rw [compile, compile, Document.Definition.schema_congr hvalidator htype]

theorem verdict_congr (hr : other.registry = catalog.registry)
    (hself : other.schemas.find? x.name = catalog.schemas.find? x.name)
    (hf : ∀ name, x.document.definition.NamesType name →
      other.schemas.find? name = catalog.schemas.find? name) :
    other.verdict x.source x.text = catalog.verdict x.source x.text := by
  rw [name] at hself
  rw [verdict, verdict, x.written]
  dsimp only
  rw [compile_congr hr hf, hself]

@[simp]
theorem loadEach_registry (catalog : Catalog) (x : Submission) :
    (catalog.loadEach [x.pair]).registry = catalog.registry := by
  rw [loadEach_single]
  split <;> rfl

theorem loadEach_find?_of_ne {name : String} (h : name ≠ x.name) :
    (catalog.loadEach [x.pair]).schemas.find? name = catalog.schemas.find? name := by
  rw [loadEach_single]
  split
  · rename_i bound d hverdict
    obtain rfl := name_of_verdict hverdict
    exact NameTable.find?_insert_of_ne h
  · rfl

/-- A document gives the same after an independent one has been loaded. -/
theorem verdict_loadEach (h : x.Independent y) :
    (catalog.loadEach [y.pair]).verdict x.source x.text = catalog.verdict x.source x.text := by
  refine verdict_congr (loadEach_registry ..) (loadEach_find?_of_ne h.name_ne) fun name hn => ?_
  refine loadEach_find?_of_ne ?_
  rintro rfl
  exact h.not_linked (.inl hn)

theorem loadEach_loadEach (h : x.Independent y) :
    (catalog.loadEach [y.pair]).loadEach [x.pair] = match catalog.verdict x.source x.text with
      | .ok (name, d) => (catalog.loadEach [y.pair]).add name d
      | .error _ => catalog.loadEach [y.pair] := by
  rw [loadEach_single _ x, verdict_loadEach h]

theorem loadEach_comm (h : x.Independent y) :
    (catalog.loadEach [x.pair]).loadEach [y.pair] =
      (catalog.loadEach [y.pair]).loadEach [x.pair] := by
  rw [loadEach_loadEach h, loadEach_loadEach h.symm, loadEach_single, loadEach_single]
  cases hx : catalog.verdict x.source x.text with
  | error m => rfl
  | ok added =>
    cases hy : catalog.verdict y.source y.text with
    | error m => rfl
    | ok further =>
      obtain ⟨name, d⟩ := added
      obtain ⟨other, e⟩ := further
      have hne : other ≠ name := by
        rw [name_of_verdict hx, name_of_verdict hy]
        exact h.name_ne.symm
      exact congrArg (fun schemas => { catalog with schemas }) (NameTable.insert_comm hne _ d)

/-- Every document gets the same result in both lists, and the catalogs that come out are the
same. -/
structure SameOutcome (catalog : Catalog) (documents others : List Submission) : Prop where
  report : (catalog.report documents).Perm (catalog.report others)
  catalog : catalog.loadEach (documents.map pair) = catalog.loadEach (others.map pair)

namespace SameOutcome

variable {documents others further : List Submission}

theorem refl (catalog : Catalog) (documents : List Submission) :
    SameOutcome catalog documents documents :=
  ⟨.refl _, rfl⟩

theorem symm (h : SameOutcome catalog documents others) : SameOutcome catalog others documents :=
  ⟨h.report.symm, h.catalog.symm⟩

theorem trans (h : SameOutcome catalog documents others) (g : SameOutcome catalog others further) :
    SameOutcome catalog documents further :=
  ⟨h.report.trans g.report, h.catalog.trans g.catalog⟩

theorem cons (h : SameOutcome (catalog.loadEach [x.pair]) documents others) :
    SameOutcome catalog (x :: documents) (x :: others) := by
  refine ⟨h.report.cons _, ?_⟩
  exact h.catalog

theorem swap (h : x.Independent y) (documents : List Submission) :
    SameOutcome catalog (x :: y :: documents) (y :: x :: documents) := by
  constructor
  · have hx : ((catalog.loadEach [y.pair]).load x.source x.text).1 =
        (catalog.load x.source x.text).1 := load_fst_congr (verdict_loadEach h)
    have hy : ((catalog.loadEach [x.pair]).load y.source y.text).1 =
        (catalog.load y.source y.text).1 := load_fst_congr (verdict_loadEach h.symm)
    rw [report_cons, report_cons, report_cons, report_cons, hx, hy, loadEach_comm h]
    exact .swap ..
  · exact congrArg (loadEach · (documents.map pair)) (loadEach_comm h)

/-- A document comes to the same when it is loaded before others that are independent of it. -/
theorem move {before : List Submission} (h : ∀ y ∈ before, y.Independent x)
    (behind : List Submission) :
    SameOutcome catalog (before ++ x :: behind) (x :: (before ++ behind)) := by
  induction before generalizing catalog with
  | nil => exact .refl ..
  | cons y before ih =>
    obtain ⟨hy, hbefore⟩ := List.forall_mem_cons.mp h
    exact (cons (ih hbefore)).trans (swap hy _)

end SameOutcome

/-- One of two members comes before the other. -/
theorem pair_sublist_cons {α : Type} {x y first : α} {rest : List α} :
    [x, y].Sublist (first :: rest) ↔ x = first ∧ y ∈ rest ∨ [x, y].Sublist rest := by
  constructor
  · intro h
    rcases List.sublist_cons_iff.mp h with h | ⟨back, heq, hback⟩
    · exact .inr h
    · obtain ⟨rfl, rfl⟩ := List.cons.inj heq
      exact .inl ⟨rfl, List.singleton_sublist.mp hback⟩
  · rintro (⟨rfl, hy⟩ | h)
    · exact (List.singleton_sublist.mpr hy).cons_cons x
    · exact h.cons first

theorem mem_of_pair_sublist {α : Type} {x y : α} {before behind : List α} (hx : x ∉ before)
    (h : [x, y].Sublist (before ++ x :: behind)) : y ∈ behind := by
  induction before with
  | nil =>
    rcases pair_sublist_cons.mp h with ⟨_, hy⟩ | h
    · exact hy
    · exact h.subset (by simp)
  | cons first before ih =>
    rw [List.mem_cons, not_or] at hx
    rcases pair_sublist_cons.mp h with ⟨heq, _⟩ | h
    · exact absurd heq hx.1
    · exact ih hx.2 h

theorem sublist_of_not_mem {α : Type} {x : α} {l before behind : List α} (hx : x ∉ l)
    (h : l.Sublist (before ++ x :: behind)) : l.Sublist (before ++ behind) := by
  obtain ⟨front, back, rfl, hfront, hback⟩ := List.sublist_append_iff.mp h
  rcases List.sublist_cons_iff.mp hback with hback | ⟨rest, rfl, _⟩
  · exact hfront.append hback
  · simp at hx

/-- Neighbours that do not name each other can change places. -/
theorem order_of_swap {rest : List Submission} {a b : Submission} (h : ¬x.Linked y)
    (hlinked : a.Linked b) (hsub : [a, b].Sublist (x :: y :: rest)) :
    [a, b].Sublist (y :: x :: rest) := by
  rw [pair_sublist_cons, pair_sublist_cons] at hsub ⊢
  rcases hsub with ⟨rfl, hb⟩ | ⟨rfl, hb⟩ | hsub
  · rcases List.mem_cons.mp hb with rfl | hb
    · exact absurd hlinked h
    · exact .inr (.inl ⟨rfl, hb⟩)
  · exact .inl ⟨rfl, List.mem_cons_of_mem x hb⟩
  · exact .inr (.inr hsub)

/-- Documents of distinct names can be loaded in any order in which those that name one another
keep their order. -/
theorem sameOutcome_of_perm (catalog : Catalog) {documents others : List Submission}
    (distinct : (documents.map name).Nodup) (perm : documents.Perm others)
    (order : ∀ x y, x.Linked y → [x, y].Sublist documents → [x, y].Sublist others) :
    SameOutcome catalog documents others := by
  induction documents generalizing others catalog with
  | nil =>
    obtain rfl := perm.nil_eq
    exact .refl ..
  | cons x rest ih =>
    obtain ⟨before, behind, rfl⟩ := List.append_of_mem (perm.subset List.mem_cons_self)
    have hperm : rest.Perm (before ++ behind) := (perm.trans List.perm_middle).cons_inv
    obtain ⟨hname, hnames⟩ := List.nodup_cons.mp distinct
    have hne (y : Submission) (hy : y ∈ rest) : y.name ≠ x.name := fun h =>
      hname (h ▸ List.mem_map_of_mem hy)
    have hrest (y : Submission) (hy : y ∈ rest) : y ≠ x := fun h => hne y hy (congrArg name h)
    have hnodup : (before ++ behind).Nodup :=
      hperm.nodup_iff.mp (List.Nodup.of_map name hnames)
    -- What stands before `x` in the other list comes after it in this one, so it is not linked.
    have hfree (y : Submission) (hy : y ∈ before) : y.Independent x := by
      have hmem : y ∈ rest := hperm.mem_iff.mpr (List.mem_append_left _ hy)
      refine ⟨hne y hmem, fun hlinked => ?_⟩
      have hsub : [x, y].Sublist (x :: rest) := pair_sublist_cons.mpr (.inl ⟨rfl, hmem⟩)
      have hx : x ∉ before := fun h =>
        hrest x (hperm.mem_iff.mpr (List.mem_append_left _ h)) rfl
      have hbehind := mem_of_pair_sublist hx (order x y hlinked.symm hsub)
      exact (List.nodup_append.mp hnodup).2.2 y hy y hbehind rfl
    have horder (a b : Submission) (hlinked : a.Linked b) (hsub : [a, b].Sublist rest) :
        [a, b].Sublist (before ++ behind) := by
      have ha := hrest a (hsub.subset (by simp))
      have hb := hrest b (hsub.subset (by simp))
      exact sublist_of_not_mem (by simp [ha.symm, hb.symm]) (order a b hlinked (hsub.cons x))
    have htail : SameOutcome catalog (x :: rest) (x :: (before ++ behind)) :=
      .cons (ih _ hnames hperm horder)
    exact htail.trans (.symm (.move hfree behind))

/-- Lists of values of the named type, and how they are written. -/
def listDocument (name type : String) : Document :=
  ⟨name, { Document.Definition.blank with
    type? := some "list"
    values? := some { Document.Definition.blank with type? := some type } }⟩

def listText (name type : String) : String :=
  "\x7b\"name\":\"" ++ name ++ "\",\"schema\":\x7b\"type\":\"list\",\"values\":\x7b\"type\":\"" ++
    type ++ "\"\x7d\x7d\x7d"

theorem namesType_listDocument {name type used : String}
    (h : (listDocument name type).definition.NamesType used) : used = "list" ∨ used = type := by
  cases h with
  | here given => exact .inl (Option.some.inj given).symm
  | inside part names =>
    obtain rfl := List.mem_singleton.mp part
    cases names with
    | here given => exact .inr (Option.some.inj given).symm
    | inside part => cases part

theorem levels_written :
    Document.ofText? (listText "levels" "level") = some (listDocument "levels" "level") := rfl

theorem astray_written :
    Document.ofText? (listText "astray" "nowhere") = some (listDocument "astray" "nowhere") := rfl

/-- Lists of a type that is registered and may be loaded as well. -/
def levels : Submission where
  source := "levels.json"
  text := listText "levels" "level"
  document := listDocument "levels" "level"
  written := levels_written

/-- The type of the members is unknown, so this document cannot be loaded. -/
def astray : Submission where
  source := "astray.json"
  text := listText "astray" "nowhere"
  document := listDocument "astray" "nowhere"
  written := astray_written

theorem not_linked_levels_astray : ¬levels.Linked astray := by
  rintro (h | h)
  · simpa [astray, name, listDocument] using namesType_listDocument h
  · simpa [levels, name, listDocument] using namesType_listDocument h

/-- A schema that takes the place of the registered type. -/
def level : Submission where
  source := "level.json"
  text := "\x7b\"name\":\"level\",\"schema\":\x7b\"type\":\"text\"\x7d\x7d"
  document := ⟨"level", { Document.Definition.blank with type? := some "text" }⟩
  written := rfl

theorem levels_loaded_in_either_order :
    ([levels, astray, level].map name).Nodup ∧
    [levels, astray, level].Perm [astray, levels, level] ∧
    (∀ x y, x.Linked y → [x, y].Sublist [levels, astray, level] →
      [x, y].Sublist [astray, levels, level]) ∧
    SameOutcome { directory := ".", registry := levelTypes } [levels, astray, level]
      [astray, levels, level] := by
  have hdistinct : ([levels, astray, level].map name).Nodup := by
    simp [name, levels, astray, level, listDocument]
  have hperm : [levels, astray, level].Perm [astray, levels, level] :=
    List.Perm.swap astray levels [level]
  have horder (x y : Submission) : x.Linked y → [x, y].Sublist [levels, astray, level] →
      [x, y].Sublist [astray, levels, level] :=
    order_of_swap not_linked_levels_astray
  exact ⟨hdistinct, hperm, horder, sameOutcome_of_perm _ hdistinct hperm horder⟩

end Catalog

end SchemaCast
