import SchemaCast.Document.Fields
import SchemaCast.Proofs.OrderedMap

namespace SchemaCast.Document

open Json (Written)

variable {known : List String}

/-- The known members of an object, as they stand. -/
def given (known : List String) (members : List (Option String × Written)) : Fields :=
  members.filterMap fun member =>
    (member.1.filter known.contains).map fun name => (name, member.2)

/-- All names are text, and no known one is there twice. -/
structure Readable (known : List String) (members : List (Option String × Written)) : Prop where
  names : ∀ member ∈ members, member.1.isSome
  unique : OrderedMap.Unique (given known members)

section

variable {name : String} {w : Written} {members : List (Option String × Written)}

theorem given_cons_of_mem (h : name ∈ known) :
    given known ((some name, w) :: members) = (name, w) :: given known members := by
  simp [given, h]

theorem given_cons_of_not_mem (h : name ∉ known) :
    given known ((some name, w) :: members) = given known members := by
  simp [given, h]

theorem mem_given (h : name ∈ known) (member : (some name, w) ∈ members) :
    (name, w) ∈ given known members :=
  List.mem_filterMap.mpr ⟨_, member, by simp [h]⟩

theorem readable_cons_of_mem (h : name ∈ known) :
    Readable known ((some name, w) :: members) ↔
      Readable known members ∧ (given known members).any (·.1 == name) = false := by
  have hfresh : (given known members).any (·.1 == name) = false ↔
      ∀ f ∈ given known members, (name == f.1) = false := by
    rw [List.any_eq_false]
    simp only [BEq.comm (a := name), Bool.not_eq_true]
  rw [hfresh]
  constructor
  · intro hm
    have hunique := hm.unique
    rw [given_cons_of_mem h] at hunique
    obtain ⟨hname, hunique⟩ := List.pairwise_cons.mp hunique
    exact ⟨⟨fun m hmem => hm.names m (List.mem_cons_of_mem _ hmem), hunique⟩, hname⟩
  · intro ⟨hm, hname⟩
    refine ⟨List.forall_mem_cons.mpr ⟨rfl, hm.names⟩, ?_⟩
    rw [given_cons_of_mem h]
    exact List.pairwise_cons.mpr ⟨hname, hm.unique⟩

theorem readable_cons_of_not_mem (h : name ∉ known) :
    Readable known ((some name, w) :: members) ↔ Readable known members := by
  constructor
  · intro hm
    exact ⟨fun m hmem => hm.names m (List.mem_cons_of_mem _ hmem),
      given_cons_of_not_mem h ▸ hm.unique⟩
  · intro hm
    refine ⟨List.forall_mem_cons.mpr ⟨rfl, hm.names⟩, ?_⟩
    rw [given_cons_of_not_mem h]
    exact hm.unique

end

theorem Readable.perm {members others : List (Option String × Written)}
    (h : Readable known members) (order : members.Perm others) : Readable known others :=
  ⟨fun member hm => h.names member (order.symm.subset hm), h.unique.perm (order.filterMap _)⟩

theorem knownMembers?_eq_some {members : List (Option String × Written)} {fields : Fields} :
    knownMembers? known members = some fields ↔
      Readable known members ∧ given known members = fields := by
  induction members generalizing fields with
  | nil =>
    constructor
    · intro h
      exact ⟨⟨by simp, List.Pairwise.nil⟩, Option.some.inj h⟩
    · intro ⟨_, h⟩
      exact congrArg some h
  | cons member members ih =>
    obtain ⟨_ | name, w⟩ := member
    · constructor
      · intro h
        cases h
      · intro ⟨hm, _⟩
        cases hm.names _ List.mem_cons_self
    · rw [knownMembers?]
      simp only [Option.bind_eq_bind, Option.bind_eq_some_iff, ih]
      by_cases hknown : name ∈ known
      · rw [readable_cons_of_mem hknown, given_cons_of_mem hknown]
        constructor
        · intro ⟨_, ⟨hm, hgiven⟩, h⟩
          subst hgiven
          simp only [List.contains_iff_mem.mpr hknown, ↓reduceIte] at h
          split at h
          · cases h
          · exact ⟨⟨hm, Bool.eq_false_iff.mpr ‹_›⟩, Option.some.inj h⟩
        · intro ⟨⟨hm, hfresh⟩, h⟩
          refine ⟨_, ⟨hm, rfl⟩, ?_⟩
          simp [hknown, hfresh, h]
      · rw [readable_cons_of_not_mem hknown, given_cons_of_not_mem hknown]
        simp [hknown]

end SchemaCast.Document
