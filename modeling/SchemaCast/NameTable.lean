namespace SchemaCast

namespace NameTable

variable {α : Type} {name : String} {a : α} {bindings : List (String × α)}

/-- The binding takes the place of one of its name, or goes in front of the first greater name. -/
def insertBinding (name : String) (a : α) : List (String × α) → List (String × α)
  | [] => [(name, a)]
  | (other, b) :: rest =>
    if name < other then (name, a) :: (other, b) :: rest
    else if other < name then (other, b) :: insertBinding name a rest
    else (name, a) :: rest

theorem mem_insertBinding {binding : String × α} (h : binding ∈ insertBinding name a bindings) :
    binding = (name, a) ∨ binding ∈ bindings := by
  induction bindings with
  | nil => exact .inl (List.mem_singleton.mp h)
  | cons other rest ih =>
    unfold insertBinding at h
    split at h
    · exact List.mem_cons.mp h
    · split at h
      · rcases List.mem_cons.mp h with heq | hm
        · exact .inr (heq ▸ List.mem_cons_self)
        · exact (ih hm).imp_right (List.mem_cons_of_mem _)
      · exact (List.mem_cons.mp h).imp_right (List.mem_cons_of_mem _)

/-- Names in strictly increasing order stay so. -/
theorem increasing_insertBinding (h : bindings.Pairwise fun b c => b.1 < c.1) :
    (insertBinding name a bindings).Pairwise fun b c => b.1 < c.1 := by
  induction bindings with
  | nil => exact List.pairwise_singleton ..
  | cons binding rest ih =>
    obtain ⟨hfirst, hrest⟩ := List.pairwise_cons.mp h
    unfold insertBinding
    split
    · rename_i hlt
      refine List.pairwise_cons.mpr ⟨fun c hc => ?_, h⟩
      rcases List.mem_cons.mp hc with heq | hc
      · exact heq ▸ hlt
      · exact String.lt_trans hlt (hfirst c hc)
    · split
      · rename_i hlt
        refine List.pairwise_cons.mpr ⟨fun c hc => ?_, ih hrest⟩
        rcases mem_insertBinding hc with heq | hc
        · exact heq ▸ hlt
        · exact hfirst c hc
      · have heq : name = binding.1 := String.le_antisymm ‹_› ‹_›
        exact List.pairwise_cons.mpr ⟨heq ▸ hfirst, hrest⟩

end NameTable

/-- Bindings in strictly increasing order of their names. -/
@[ext]
structure NameTable (α : Type) where
  bindings : List (String × α)
  increasing : bindings.Pairwise fun b c => b.1 < c.1

namespace NameTable

variable {α : Type}

def empty : NameTable α := ⟨[], .nil⟩

def find? (table : NameTable α) (name : String) : Option α :=
  (table.bindings.find? fun binding => binding.1 == name).map Prod.snd

def insert (table : NameTable α) (name : String) (a : α) : NameTable α :=
  ⟨insertBinding name a table.bindings, increasing_insertBinding table.increasing⟩

/-- The table with a further binding, unless the name is bound: no name is ever bound again. -/
def bind? (table : NameTable α) (name : String) (a : α) : Option (NameTable α) :=
  if (table.find? name).isSome then none else some (table.insert name a)

/-- The bound names in increasing order. -/
def names (table : NameTable α) : List String := table.bindings.map Prod.fst

def size (table : NameTable α) : Nat := table.bindings.length

end NameTable

end SchemaCast
