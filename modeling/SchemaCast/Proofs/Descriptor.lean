import SchemaCast.Descriptor
import SchemaCast.Proofs.Containers
import SchemaCast.Proofs.Rules

namespace SchemaCast.Descriptor

theorem cast_base (type : BaseType) : (base type).cast = type.cast := by
  rw [cast]

theorem cast_validator (type : Descriptor) (rules : Rules) (keys? : Option Descriptor)
    (contents : Contents Descriptor) :
    (validator type rules keys? contents).cast =
      rules.apply type.cast type.test (castKeys keys?) (castContents contents) := by
  rw [cast]
  rfl

theorem cast_anyOf (alternatives : List Descriptor) :
    (anyOf alternatives).cast = Caster.anyOf (alternatives.map cast) := by
  have h : castAll alternatives = alternatives.map cast := by
    induction alternatives with
    | nil => rfl
    | cons d ds ih => simp [castAll, ih]
  rw [cast, h]

theorem castFields_eq_map (children : List (String × Descriptor)) :
    castFields children = children.map fun e => (e.1, e.2.cast) := by
  induction children with
  | nil => rfl
  | cons e children ih => simp [castFields, ih]

theorem castKeys_none (v : Value) : castKeys none v = .ok v := by
  rw [castKeys]

theorem eq_of_castKeys_none {v w : Value} (h : castKeys none v = .ok w) : w = v := by
  rw [castKeys_none] at h
  exact (Except.ok.inj h).symm

theorem castKeys_some (keys : Descriptor) (v : Value) :
    castKeys (some keys) v = Caster.rename keys.cast v := by
  rw [castKeys]

theorem castContents_any (v : Value) : castContents .any v = .ok v := by
  rw [castContents]

theorem eq_of_castContents_any {v w : Value} (h : castContents .any v = .ok w) : w = v := by
  rw [castContents_any] at h
  exact (Except.ok.inj h).symm

theorem castContents_each (child : Descriptor) (v : Value) :
    castContents (.each child) v = Caster.castMembers child.cast v := by
  rw [castContents]

theorem castContents_declared (children : OrderedMap String Descriptor) (v : Value) :
    castContents (.declared children) v =
      Caster.entries (castFields children.entries) (some v) := by
  cases children
  rw [castContents]

theorem declared?_castFields (children : OrderedMap String Descriptor) (key : String) :
    Caster.declared? (castFields children.entries) key = (children.get? key).map cast := by
  simp [Caster.declared?, castFields_eq_map, List.find?_map, OrderedMap.get?, Function.comp_def]

theorem keys_castFields (children : OrderedMap String Descriptor) :
    (castFields children.entries).map Prod.fst = children.keys := by
  simp [castFields_eq_map, OrderedMap.keys]

/-- Keys and members are cast within a container; without options a value stays as it is. -/
theorem castKeys_ok {keys? : Option Descriptor} {v w : Value} (h : castKeys keys? v = .ok w) :
    w = v ∨ v.SameKind w := by
  cases keys? with
  | none => exact .inl (eq_of_castKeys_none h)
  | some keys =>
    rw [castKeys_some] at h
    exact .inr (Caster.rename_ok h).1

theorem castContents_ok {contents : Contents Descriptor} {v w : Value}
    (h : castContents contents v = .ok w) : w = v ∨ v.SameKind w := by
  cases contents with
  | any => exact .inl (eq_of_castContents_any h)
  | each child =>
    rw [castContents_each] at h
    exact .inr (Caster.castMembers_ok h).1
  | declared children =>
    rw [castContents_declared] at h
    exact .inr (Caster.entries_ok h).1

/-- Declared entries come out with exactly the declared keys, each once, and every member comes out
of a cast by the descriptor of its key. -/
theorem castContents_declared_ok {children : OrderedMap String Descriptor}
    (hu : OrderedMap.Unique children.entries) {v w : Value}
    (h : castContents (.declared children) v = .ok w) :
    ∃ fields : OrderedMap String Value, w.keyed = Caster.textKeyed fields.entries ∧
      OrderedMap.Unique fields.entries ∧ (∀ key, key ∈ fields.keys ↔ key ∈ children.keys) ∧
      ∀ f ∈ fields.entries, ∃ c input, children.get? f.1 = some c ∧ c.cast input = .ok f.2 := by
  rw [castContents_declared] at h
  obtain ⟨_, fields, hf, hw⟩ := Caster.entries_ok h
  have hcu : OrderedMap.Unique (castFields children.entries) :=
    hu.of_keys (keys_castFields children)
  obtain ⟨hkeys, hcast⟩ := Caster.castDeclared_ok hcu hf
  refine ⟨.ofList fields, hw, OrderedMap.unique_ofList fields, fun key => ?_, fun f hm => ?_⟩
  · rw [OrderedMap.keys, OrderedMap.mem_keys_ofList, hkeys, keys_castFields]
  · obtain ⟨child, input, hd, hc⟩ := hcast f (OrderedMap.mem_of_mem_ofList hm)
    rw [declared?_castFields] at hd
    obtain ⟨c, hg, rfl⟩ := Option.map_eq_some_iff.mp hd
    exact ⟨c, input, hg, hc⟩

end SchemaCast.Descriptor
