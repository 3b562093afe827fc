import SchemaCast.NameTable

namespace SchemaCast

namespace NameTable

variable {α : Type} {table after : NameTable α} {name : String} {a : α}

theorem mem_of_find? (h : table.find? name = some a) : (name, a) ∈ table.bindings := by
  obtain ⟨⟨key, b⟩, hf, rfl⟩ := Option.map_eq_some_iff.mp h
  obtain rfl : key = name := by simpa using List.find?_some hf
  exact List.mem_of_find?_eq_some hf

theorem find?_of_mem_names (h : name ∈ table.names) : ∃ a, table.find? name = some a := by
  obtain ⟨binding, hb, hname⟩ := List.mem_map.mp h
  cases hf : table.bindings.find? fun binding => binding.1 == name with
  | none => exact absurd hname (by simpa using List.find?_eq_none.mp hf binding hb)
  | some found => exact ⟨found.2, by rw [find?, hf]; rfl⟩

theorem mem_names : name ∈ table.names ↔ ∃ a, table.find? name = some a :=
  ⟨find?_of_mem_names, fun ⟨_, ha⟩ => List.mem_map_of_mem (mem_of_find? ha)⟩

/-- The names of a table are listed in strictly increasing order, and they are the bound ones. -/
structure Listed (table : NameTable α) : Prop where
  increasing : table.names.Pairwise (· < ·)
  bound : ∀ name, name ∈ table.names ↔ ∃ a, table.find? name = some a

theorem listed (table : NameTable α) : table.Listed :=
  ⟨List.pairwise_map.mpr table.increasing, fun _ => mem_names⟩

theorem find?_insertBinding_self (bindings : List (String × α)) :
    (insertBinding name a bindings).find? (·.1 == name) = some (name, a) := by
  induction bindings with
  | nil => simp [insertBinding]
  | cons other rest ih =>
    unfold insertBinding
    split
    · simp
    · split
      · rename_i hlt
        have hne : (other.1 == name) = false := by simpa using String.ne_of_lt hlt
        rw [List.find?_cons, hne]
        exact ih
      · simp

theorem find?_insertBinding_of_ne {key : String} (h : key ≠ name)
    (bindings : List (String × α)) :
    (insertBinding name a bindings).find? (·.1 == key) = bindings.find? (·.1 == key) := by
  have hne : (name == key) = false := by simpa using h.symm
  induction bindings with
  | nil => simp [insertBinding, hne]
  | cons other rest ih =>
    unfold insertBinding
    split
    · rw [List.find?_cons_of_neg (by simp [hne])]
    · split
      · rw [List.find?_cons, List.find?_cons, ih]
      · obtain rfl : name = other.1 := String.le_antisymm ‹_› ‹_›
        rw [List.find?_cons, List.find?_cons, hne]

@[simp]
theorem find?_insert_self (table : NameTable α) (name : String) (a : α) :
    (table.insert name a).find? name = some a :=
  congrArg (Option.map Prod.snd) (find?_insertBinding_self table.bindings)

theorem find?_insert_of_ne {key : String} (h : key ≠ name) :
    (table.insert name a).find? key = table.find? key :=
  congrArg (Option.map Prod.snd) (find?_insertBinding_of_ne h table.bindings)

/-- Only a free name is bound. -/
theorem bind?_eq_some : table.bind? name a = some after ↔
    table.find? name = none ∧ table.insert name a = after := by
  cases h : table.find? name with
  | none => simp [bind?, h]
  | some b => simp [bind?, h]

/-- A table gains no other binding than the one that is bound. -/
theorem mem_bind? (h : table.bind? name a = some after) {binding : String × α}
    (hb : binding ∈ after.bindings) : binding = (name, a) ∨ binding ∈ table.bindings := by
  obtain ⟨_, rfl⟩ := bind?_eq_some.mp h
  exact mem_insertBinding hb

theorem perm_insertBinding {bindings : List (String × α)}
    (hfree : bindings.find? (·.1 == name) = none) :
    (insertBinding name a bindings).Perm ((name, a) :: bindings) := by
  induction bindings with
  | nil => exact .refl _
  | cons other rest ih =>
    obtain ⟨hother, hrest⟩ := List.forall_mem_cons.mp (List.find?_eq_none.mp hfree)
    unfold insertBinding
    split
    · exact .refl _
    · split
      · exact ((ih (List.find?_eq_none.mpr hrest)).cons _).trans (.swap ..)
      · have heq : name = other.1 := String.le_antisymm ‹_› ‹_›
        simp [heq] at hother

theorem names_bind? (h : table.bind? name a = some after) :
    after.names.Perm (name :: table.names) := by
  obtain ⟨hfree, rfl⟩ := bind?_eq_some.mp h
  exact (perm_insertBinding (Option.map_eq_none_iff.mp hfree)).map Prod.fst

theorem find?_bind?_self (h : table.bind? name a = some after) : after.find? name = some a := by
  obtain ⟨_, rfl⟩ := bind?_eq_some.mp h
  exact find?_insert_self table name a

/-- The name that is bound gives what it is bound to, and every other name what it gave before. -/
theorem find?_bind? (h : table.bind? name a = some after) (key : String) :
    after.find? key = (table.find? key).or (if name = key then some a else none) := by
  obtain ⟨hfree, rfl⟩ := bind?_eq_some.mp h
  by_cases hk : name = key
  · subst hk
    simp [hfree]
  · rw [if_neg hk, Option.or_none, find?_insert_of_ne (Ne.symm hk)]

/-- What is bound stays bound. -/
theorem find?_of_bind? (h : table.bind? name a = some after) {key : String} {b : α}
    (hb : table.find? key = some b) : after.find? key = some b := by
  rw [find?_bind? h, hb]
  rfl

/-- In a list with increasing names, a name is found to be bound to what it is listed with. -/
theorem find?_of_mem {bindings : List (String × α)}
    (increasing : bindings.Pairwise fun b c => b.1 < c.1) {binding : String × α}
    (h : binding ∈ bindings) : bindings.find? (·.1 == binding.1) = some binding := by
  induction bindings with
  | nil => simp at h
  | cons first rest ih =>
    obtain ⟨hfirst, hrest⟩ := List.pairwise_cons.mp increasing
    rcases List.mem_cons.mp h with rfl | hmem
    · simp
    · have hne : first.1 ≠ binding.1 := String.ne_of_lt (hfirst binding hmem)
      rw [List.find?_cons_of_neg (by simpa using hne), ih hrest hmem]

theorem mem_bindings {table : NameTable α} {name : String} {a : α} :
    (name, a) ∈ table.bindings ↔ table.find? name = some a :=
  ⟨fun h => congrArg (Option.map Prod.snd) (find?_of_mem table.increasing h), mem_of_find?⟩

/-- A table is determined by what is bound to the names. -/
theorem eq_of_find? {other : NameTable α} (h : ∀ name, table.find? name = other.find? name) :
    table = other := by
  have hnodup (t : NameTable α) : t.bindings.Nodup :=
    t.increasing.imp fun hlt heq => String.ne_of_lt hlt (congrArg Prod.fst heq)
  have hperm : table.bindings.Perm other.bindings := by
    refine (List.perm_ext_iff_of_nodup (hnodup table) (hnodup other)).mpr fun binding => ?_
    rw [mem_bindings, mem_bindings, h]
  refine NameTable.ext (hperm.eq_of_pairwise ?_ table.increasing other.increasing)
  exact fun b c _ _ hlt hgt => absurd hgt (String.lt_asymm hlt)

/-- Two names are bound to the same effect in either order. -/
theorem insert_comm {other : String} (hne : name ≠ other) (table : NameTable α) (b : α) :
    (table.insert other b).insert name a = (table.insert name a).insert other b := by
  refine eq_of_find? fun key => ?_
  by_cases hname : key = name
  · subst hname
    simp [find?_insert_of_ne hne]
  · by_cases hother : key = other
    · subst hother
      simp [find?_insert_of_ne hname]
    · rw [find?_insert_of_ne hname, find?_insert_of_ne hother, find?_insert_of_ne hother,
        find?_insert_of_ne hname]

end NameTable

end SchemaCast
