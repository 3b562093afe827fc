namespace SchemaCast

/-- Keys with their values, in the order in which the keys were first inserted. No two keys are
equal in a map that was made by inserting and erasing. The structure cannot say so, because values
and descriptors contain maps of themselves. -/
structure OrderedMap (K V : Type) where
  entries : List (K × V)
  deriving DecidableEq

namespace OrderedMap

variable {K V : Type}

def empty : OrderedMap K V := ⟨[]⟩

instance : Inhabited (OrderedMap K V) := ⟨empty⟩

def size (m : OrderedMap K V) : Nat := m.entries.length

def isEmpty (m : OrderedMap K V) : Bool := m.entries.isEmpty

def keys (m : OrderedMap K V) : List K := m.entries.map Prod.fst

def values (m : OrderedMap K V) : List V := m.entries.map Prod.snd

variable [BEq K]

/-- The first entry with an equal key gets the value; without one, a new entry comes last. The
value that is replaced comes with the entries. -/
def insertEntry (key : K) (value : V) : List (K × V) → Option V × List (K × V)
  | [] => (none, [(key, value)])
  | (k, v) :: rest =>
    if k == key then (some v, (k, value) :: rest)
    else
      let (replaced?, rest) := insertEntry key value rest
      (replaced?, (k, v) :: rest)

/-- The first entry with an equal key goes, and its value comes with the entries that stay. -/
def eraseEntry (key : K) : List (K × V) → Option V × List (K × V)
  | [] => (none, [])
  | (k, v) :: rest =>
    if k == key then (some v, rest)
    else
      let (erased?, rest) := eraseEntry key rest
      (erased?, (k, v) :: rest)

/-- Inserts a value, and gives the one that it replaces. -/
def getThenInsert (m : OrderedMap K V) (key : K) (value : V) : Option V × OrderedMap K V :=
  let (replaced?, entries) := insertEntry key value m.entries
  (replaced?, ⟨entries⟩)

/-- Erases a key, and gives its value. -/
def getThenErase (m : OrderedMap K V) (key : K) : Option V × OrderedMap K V :=
  let (erased?, entries) := eraseEntry key m.entries
  (erased?, ⟨entries⟩)

def insert (m : OrderedMap K V) (key : K) (value : V) : OrderedMap K V :=
  (m.getThenInsert key value).2

def erase (m : OrderedMap K V) (key : K) : OrderedMap K V :=
  (m.getThenErase key).2

def get? (m : OrderedMap K V) (key : K) : Option V :=
  (m.entries.find? fun entry => entry.1 == key).map Prod.snd

def contains (m : OrderedMap K V) (key : K) : Bool :=
  (m.get? key).isSome

theorem insertEntry_fst (key : K) (value : V) (entries : List (K × V)) :
    (insertEntry key value entries).1 = (entries.find? fun e => e.1 == key).map Prod.snd := by
  induction entries with
  | nil => rfl
  | cons e rest ih =>
    cases h : e.1 == key with
    | true => simp [insertEntry, h]
    | false => simp [insertEntry, h, ih]

theorem eraseEntry_fst (key : K) (entries : List (K × V)) :
    (eraseEntry key entries).1 = (entries.find? fun e => e.1 == key).map Prod.snd := by
  induction entries with
  | nil => rfl
  | cons e rest ih =>
    cases h : e.1 == key with
    | true => simp [eraseEntry, h]
    | false => simp [eraseEntry, h, ih]

/-- Inserting gives what looking up gave before. -/
theorem getThenInsert_fst (m : OrderedMap K V) (key : K) (value : V) :
    (m.getThenInsert key value).1 = m.get? key :=
  insertEntry_fst key value m.entries

/-- Erasing gives what looking up gave before. -/
theorem getThenErase_fst (m : OrderedMap K V) (key : K) :
    (m.getThenErase key).1 = m.get? key :=
  eraseEntry_fst key m.entries

/-- The map that the entries make, inserted one after another. -/
def ofList (entries : List (K × V)) : OrderedMap K V :=
  entries.foldl (fun m entry => m.insert entry.1 entry.2) empty

end OrderedMap

end SchemaCast
