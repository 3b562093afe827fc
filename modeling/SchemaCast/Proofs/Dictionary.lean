import SchemaCast.Proofs.OrderedMap
import SchemaCast.Proofs.Reflexivity

namespace SchemaCast

namespace OrderedMap

variable {K V : Type}

inductive Operation (K V : Type) where
  | insert (key : K) (value : V)
  | erase (key : K)
  | get (key : K)
  | contains (key : K)

inductive Answer (V : Type) where
  | value (value? : Option V)
  | present (found : Bool)
  deriving DecidableEq

/-- The inserts that make a map of entries. -/
def inserts (entries : List (K × V)) : List (Operation K V) :=
  entries.map fun e => .insert e.1 e.2

variable [BEq K]

/-- The answer of an operation, and the map that is there afterwards. -/
def perform (m : OrderedMap K V) : Operation K V → Answer V × OrderedMap K V
  | .insert key value => (.value (m.getThenInsert key value).1, (m.getThenInsert key value).2)
  | .erase key => (.value (m.getThenErase key).1, (m.getThenErase key).2)
  | .get key => (.value (m.get? key), m)
  | .contains key => (.present (m.contains key), m)

/-- Performs operations one after another. -/
def performEach (m : OrderedMap K V) : List (Operation K V) → List (Answer V) × OrderedMap K V
  | [] => ([], m)
  | op :: ops =>
    let (answer, m) := m.perform op
    let (answers, m) := performEach m ops
    (answer :: answers, m)

namespace Operation

/-- What the operation leaves under the key, a value or nothing, unless it leaves it as it is. -/
def leaves? (key : K) : Operation K V → Option (Option V)
  | insert k value => if k == key then some (some value) else none
  | erase k => if k == key then some none else none
  | get _ | contains _ => none

def erases (key : K) : Operation K V → Bool
  | erase k => k == key
  | _ => false

end Operation

/-- The value of the last insert of an equal key, if no equal key was erased after it. -/
def stored? (history : List (Operation K V)) (key : K) : Option V :=
  (history.reverse.findSome? (Operation.leaves? key)).join

/-- The key that an operation brings in, where no equal key is there before it. -/
def broughtIn (before : List (Operation K V)) : Operation K V → List K
  | .insert key _ => if (stored? before key).isSome then [] else [key]
  | _ => []

/-- The keys that the operations bring in one after another, without those erased later. What was
performed earlier is `before`. -/
def standing (before : List (Operation K V)) : List (Operation K V) → List K
  | [] => []
  | op :: after =>
    (broughtIn before op).filter (fun key => !after.any (·.erases key)) ++
      standing (before ++ [op]) after

/-- What a dictionary with the given history answers to a further operation: inserting and erasing
give what looking up would have given. -/
def answer (history : List (Operation K V)) : Operation K V → Answer V
  | .insert key _ | .erase key | .get key => .value (stored? history key)
  | .contains key => .present (stored? history key).isSome

def answers (before : List (Operation K V)) : List (Operation K V) → List (Answer V)
  | [] => []
  | op :: after => answer before op :: answers (before ++ [op]) after

/-- What an operation does to the entries. All but the one with an equal key keep their key, their
value and their order. -/
inductive Changes (m : OrderedMap K V) : Operation K V → OrderedMap K V → Prop where
  | replaced {before behind : List (K × V)} {j key : K} {old value : V}
      (found : m.entries = before ++ (j, old) :: behind) (equal : (j == key) = true) :
    Changes m (.insert key value) ⟨before ++ (j, value) :: behind⟩
  | appended {key : K} {value : V} (absent : ∀ e ∈ m.entries, (e.1 == key) = false) :
    Changes m (.insert key value) ⟨m.entries ++ [(key, value)]⟩
  | erased {before behind : List (K × V)} {j key : K} {old : V}
      (found : m.entries = before ++ (j, old) :: behind) (equal : (j == key) = true) :
    Changes m (.erase key) ⟨before ++ behind⟩
  | missed {key : K} (absent : ∀ e ∈ m.entries, (e.1 == key) = false) : Changes m (.erase key) m
  | lookedUp (key : K) : Changes m (.get key) m
  | askedFor (key : K) : Changes m (.contains key) m

/-- What a dictionary with the given history holds. -/
structure Follows (history : List (Operation K V)) (m : OrderedMap K V) : Prop where
  unique : Unique m.entries
  lookup : ∀ key, m.get? key = stored? history key
  order : m.keys = standing [] history

/-- The first entry with an equal key stands between entries, those before it with other keys. -/
theorem absent_or_found (key : K) (entries : List (K × V)) :
    (∀ e ∈ entries, (e.1 == key) = false) ∨ ∃ before j old behind,
      entries = before ++ (j, old) :: behind ∧ (j == key) = true ∧
        ∀ e ∈ before, (e.1 == key) = false := by
  cases hfind : entries.find? (·.1 == key) with
  | none => exact .inl (by simpa using hfind)
  | some e =>
    obtain ⟨hequal, before, behind, hentries, hbefore⟩ := List.find?_eq_some_iff_append.mp hfind
    exact .inr ⟨before, e.1, e.2, behind, hentries, hequal, by simpa using hbefore⟩

theorem insertEntry_of_found {key j : K} {value old : V} {before behind : List (K × V)}
    (equal : (j == key) = true) (hbefore : ∀ e ∈ before, (e.1 == key) = false) :
    (insertEntry key value (before ++ (j, old) :: behind)).2 = before ++ (j, value) :: behind := by
  induction before with
  | nil => simp [insertEntry, equal]
  | cons e before ih =>
    obtain ⟨he, hbefore⟩ := List.forall_mem_cons.mp hbefore
    simp [insertEntry, he, ih hbefore]

theorem eraseEntry_of_found {key j : K} {old : V} {before behind : List (K × V)}
    (equal : (j == key) = true) (hbefore : ∀ e ∈ before, (e.1 == key) = false) :
    (eraseEntry key (before ++ (j, old) :: behind)).2 = before ++ behind := by
  induction before with
  | nil => simp [eraseEntry, equal]
  | cons e before ih =>
    obtain ⟨he, hbefore⟩ := List.forall_mem_cons.mp hbefore
    simp [eraseEntry, he, ih hbefore]

theorem eraseEntry_of_absent {key : K} {entries : List (K × V)}
    (h : ∀ e ∈ entries, (e.1 == key) = false) : (eraseEntry key entries).2 = entries := by
  induction entries with
  | nil => rfl
  | cons e rest ih =>
    obtain ⟨he, hrest⟩ := List.forall_mem_cons.mp h
    simp [eraseEntry, he, ih hrest]

theorem perform_changes (m : OrderedMap K V) (op : Operation K V) :
    m.Changes op (m.perform op).2 := by
  cases op with
  | insert key value =>
    change m.Changes _ ⟨(insertEntry key value m.entries).2⟩
    rcases absent_or_found key m.entries with h | ⟨before, j, old, behind, hm, equal, hbefore⟩
    · rw [insertEntry_of_absent h]
      exact .appended h
    · rw [hm, insertEntry_of_found equal hbefore]
      exact .replaced hm equal
  | erase key =>
    change m.Changes _ ⟨(eraseEntry key m.entries).2⟩
    rcases absent_or_found key m.entries with h | ⟨before, j, old, behind, hm, equal, hbefore⟩
    · rw [eraseEntry_of_absent h]
      exact .missed h
    · rw [hm, eraseEntry_of_found equal hbefore]
      exact .erased hm equal
  | get key => exact .lookedUp key
  | contains key => exact .askedFor key

theorem unique_eraseEntry (key : K) {entries : List (K × V)} (h : Unique entries) :
    Unique (eraseEntry key entries).2 := by
  rcases absent_or_found key entries with ha | ⟨before, j, old, behind, rfl, equal, hbefore⟩
  · rwa [eraseEntry_of_absent ha]
  · rw [eraseEntry_of_found equal hbefore]
    exact h.sublist ((List.sublist_cons_self ..).append_left before)

theorem stored?_concat (history : List (Operation K V)) (op : Operation K V) (key : K) :
    stored? (history ++ [op]) key = (op.leaves? key).getD (stored? history key) := by
  rw [stored?, List.reverse_append, List.reverse_singleton, List.singleton_append,
    List.findSome?_cons]
  cases op.leaves? key <;> rfl

/-- A further operation takes the keys away that it erases, and may bring one in. -/
theorem standing_concat (before ops : List (Operation K V)) (op : Operation K V) :
    standing before (ops ++ [op]) =
      (standing before ops).filter (fun key => !op.erases key) ++ broughtIn (before ++ ops) op := by
  induction ops generalizing before with
  | nil => simp [standing]
  | cons first ops ih =>
    have hfilter (keys : List K) : keys.filter (fun key => !(ops ++ [op]).any (·.erases key)) =
        (keys.filter fun key => !ops.any (·.erases key)).filter fun key => !op.erases key := by
      rw [List.filter_filter]
      simp [Bool.and_comm]
    rw [List.cons_append, standing, standing, ih, hfilter, List.filter_append]
    simp

variable {history : List (Operation K V)} {m : OrderedMap K V}

theorem performEach_inserts (entries : List (K × V)) :
    (m.performEach (inserts entries)).2 =
      entries.foldl (fun m entry => m.insert entry.1 entry.2) m := by
  induction entries generalizing m with
  | nil => rfl
  | cons e entries ih => exact ih

theorem follows_empty : Follows [] (empty : OrderedMap K V) :=
  ⟨List.Pairwise.nil, fun _ => rfl, rfl⟩

theorem Follows.any_beq (h : Follows history m) (key : K) :
    m.entries.any (·.1 == key) = (stored? history key).isSome := by
  rw [← h.lookup, get?, Option.isSome_map, Bool.eq_iff_iff, List.any_eq_true, List.find?_isSome]

section Equivalence

variable [PartialEquivBEq K]

/-- No two keys of a map are equal to one key. -/
theorem Unique.not_beq {entries : List (K × V)} {e : K × V} {key : K}
    (h : Unique (e :: entries)) (he : (e.1 == key) = true) :
    ∀ d ∈ entries, (d.1 == key) = false := by
  intro d hd
  rw [BEq.comm, ← BEq.congr_left he]
  exact (List.pairwise_cons.mp h).1 d hd

theorem find?_eraseEntry (key k : K) {entries : List (K × V)} (h : Unique entries) :
    ((eraseEntry key entries).2.find? (·.1 == k)).map Prod.snd =
      if key == k then none else (entries.find? (·.1 == k)).map Prod.snd := by
  induction entries with
  | nil => simp [eraseEntry]
  | cons e rest ih =>
    cases he : e.1 == key with
    | true =>
      have hek : (e.1 == k) = (key == k) := BEq.congr_left he
      cases hk : key == k with
      | true =>
        have hnone := h.not_beq (hek.trans hk)
        simp only [eraseEntry, he, ↓reduceIte, Option.map_eq_none_iff, List.find?_eq_none]
        intro d hd
        simp [hnone d hd]
      | false => simp [eraseEntry, he, hek, hk]
    | false =>
      have hrest := ih (List.pairwise_cons.mp h).2
      cases hek : e.1 == k with
      | true =>
        have hk : (key == k) = false := by rw [BEq.comm, ← BEq.congr_left hek, he]
        simp [eraseEntry, he, hek, hk]
      | false => simpa [eraseEntry, he, hek] using hrest

theorem keys_eraseEntry (key : K) {entries : List (K × V)} (h : Unique entries) :
    (eraseEntry key entries).2.map Prod.fst =
      (entries.map Prod.fst).filter fun k => !(key == k) := by
  induction entries with
  | nil => rfl
  | cons e rest ih =>
    cases he : e.1 == key with
    | true =>
      have hrest : ∀ k ∈ rest.map Prod.fst, (!(key == k)) = true := by
        simp only [List.forall_mem_map]
        intro d hd
        rw [BEq.comm, h.not_beq he d hd]
        rfl
      have hkey : (key == e.1) = true := BEq.symm he
      simp only [eraseEntry, he, ↓reduceIte, List.map_cons, List.filter_cons, hkey, Bool.not_true,
        Bool.false_eq_true, List.filter_eq_self.mpr hrest]
    | false =>
      have hkey : (key == e.1) = false := by rw [BEq.comm, he]
      simp [eraseEntry, he, hkey, ih (List.pairwise_cons.mp h).2]

/-- A map answers as its history says, and goes on as its history does. -/
theorem Follows.perform (h : Follows history m) (op : Operation K V) :
    (m.perform op).1 = answer history op ∧ Follows (history ++ [op]) (m.perform op).2 := by
  cases op with
  | insert key value =>
    refine ⟨?_, unique_insertEntry key value h.unique, fun k => ?_, ?_⟩
    · change Answer.value (m.getThenInsert key value).1 = _
      rw [getThenInsert_fst, h.lookup]
      rfl
    · change ((insertEntry key value m.entries).2.find? (·.1 == k)).map Prod.snd = _
      rw [find?_insertEntry, stored?_concat, ← h.lookup, Operation.leaves?]
      split <;> rfl
    · change (insertEntry key value m.entries).2.map Prod.fst = _
      rw [keys_insertEntry, h.any_beq, standing_concat, ← h.order, List.nil_append, broughtIn]
      split <;> simp [keys, Operation.erases]
  | erase key =>
    refine ⟨?_, unique_eraseEntry key h.unique, fun k => ?_, ?_⟩
    · change Answer.value (m.getThenErase key).1 = _
      rw [getThenErase_fst, h.lookup]
      rfl
    · change ((eraseEntry key m.entries).2.find? (·.1 == k)).map Prod.snd = _
      rw [find?_eraseEntry key k h.unique, stored?_concat, ← h.lookup, Operation.leaves?]
      split <;> rfl
    · change (eraseEntry key m.entries).2.map Prod.fst = _
      rw [keys_eraseEntry key h.unique, standing_concat, ← h.order]
      simp [keys, Operation.erases, broughtIn]
  | get key | contains key =>
    refine ⟨?_, h.unique, fun k => ?_, ?_⟩
    · simp [OrderedMap.perform, answer, OrderedMap.contains, h.lookup]
    · rw [stored?_concat, ← h.lookup]
      rfl
    · rw [standing_concat, ← h.order]
      simp [OrderedMap.perform, Operation.erases, broughtIn]

/-- A run answers as the history of the map says, and goes on with that history. -/
theorem Follows.performEach (h : Follows history m) (ops : List (Operation K V)) :
    (m.performEach ops).1 = answers history ops ∧
      Follows (history ++ ops) (m.performEach ops).2 := by
  induction ops generalizing history m with
  | nil => simpa [OrderedMap.performEach, answers] using h
  | cons op ops ih =>
    obtain ⟨hanswer, hstep⟩ := h.perform op
    obtain ⟨hanswers, hrest⟩ := ih hstep
    rw [List.append_assoc, List.singleton_append] at hrest
    refine ⟨?_, hrest⟩
    change (m.perform op).1 :: ((m.perform op).2.performEach ops).1 = _
    rw [hanswer, hanswers, answers]

/-- A map of entries has the history of their inserts. -/
theorem follows_ofList (entries : List (K × V)) : Follows (inserts entries) (ofList entries) := by
  have h := (follows_empty.performEach (inserts entries)).2
  rwa [performEach_inserts] at h

/-- A key that is not equal to itself is equal to none. -/
theorem absent_of_not_beq_self {key : K} (h : (key == key) = false) (entries : List (K × V)) :
    ∀ e ∈ entries, (e.1 == key) = false := by
  intro e _
  by_contra he
  rw [Bool.not_eq_false] at he
  rw [BEq.trans (BEq.symm he) he] at h
  cases h

end Equivalence

/-- A run of operations on the map of some entries is one on a dictionary: it answers what their
history says, ends with what their history says, and leaves alone all entries that it is not
about. -/
structure Refines (start : List (K × V)) (ops : List (Operation K V)) : Prop where
  answered : ((ofList start).performEach ops).1 = answers (inserts start) ops
  follows : Follows (inserts start ++ ops) ((ofList start).performEach ops).2
  changes : ∀ op, ((ofList start).performEach ops).2.Changes op
    (((ofList start).performEach ops).2.perform op).2

theorem refines [PartialEquivBEq K] (start : List (K × V)) (ops : List (Operation K V)) :
    Refines start ops := by
  obtain ⟨hanswers, hfollows⟩ := (follows_ofList start).performEach ops
  exact ⟨hanswers, hfollows, perform_changes _⟩

/-- A key that is never found: every insert of it comes last, and nothing else becomes of it. -/
structure NeverFound (key : K) (m : OrderedMap K V) : Prop where
  insert : ∀ value,
    m.perform (.insert key value) = (.value none, ⟨m.entries ++ [(key, value)]⟩)
  erase : m.perform (.erase key) = (.value none, m)
  get : m.perform (.get key) = (.value none, m)
  contains : m.perform (.contains key) = (.present false, m)

theorem neverFound_of_absent {key : K} {m : OrderedMap K V}
    (h : ∀ e ∈ m.entries, (e.1 == key) = false) : NeverFound key m := by
  have hget : m.get? key = none := by
    rw [get?, Option.map_eq_none_iff, List.find?_eq_none]
    intro e he
    simp [h e he]
  refine ⟨fun value => ?_, ?_, ?_, ?_⟩
  · have hinsert : (m.getThenInsert key value).2 = ⟨m.entries ++ [(key, value)]⟩ :=
      congrArg mk (insertEntry_of_absent h)
    rw [perform, getThenInsert_fst, hget, hinsert]
  · have herase : (m.getThenErase key).2 = m := congrArg mk (eraseEntry_of_absent h)
    rw [perform, getThenErase_fst, hget, herase]
  · rw [perform, hget]
  · rw [perform, OrderedMap.contains, hget]
    rfl

/-- Maps whose keys are texts or values are dictionaries in the order of insertion, whatever was
performed on them. A key that contains what is not a number is never found in any map. -/
theorem dictionary_in_insertion_order {V : Type} :
    (∀ (start : List (String × V)) (ops : List (Operation String V)), Refines start ops) ∧
    (∀ (start : List (Value × V)) (ops : List (Operation Value V)), Refines start ops) ∧
    ∀ (key : Value) (m : OrderedMap Value V), key.HasNaN → NeverFound key m := by
  refine ⟨refines, refines, fun key m hnan => ?_⟩
  have hself : (key == key) = false := by
    rw [← Bool.not_eq_true, Value.beq_self_iff]
    exact not_not.mpr hnan
  exact neverFound_of_absent (absent_of_not_beq_self hself m.entries)

def unknown : Value := .list [.number ⟨0x7FF8000000000000⟩]

/-- Both zeros are one key, the unknown key is never found, and a key that is erased comes back
last. -/
def tally : List (Operation Value Nat) :=
  [.insert unknown 3, .insert (.number ⟨0x8000000000000000⟩) 4, .erase (.text "a"),
    .insert unknown 5, .insert (.text "a") 6, .get unknown, .contains (.number .zero)]

theorem tally_refines :
    unknown.HasNaN ∧ Refines [(.number .zero, 1), (.text "a", 2)] tally ∧
      NeverFound unknown (ofList [(.number .zero, 1), (.text "a", 2)] : OrderedMap Value Nat) ∧
      ((ofList [(.number .zero, 1), (.text "a", 2)]).performEach tally).2.entries =
        [(.number .zero, 4), (unknown, 3), (unknown, 5), (.text "a", 6)] := by
  have hunknown : unknown.HasNaN := by
    refine .inside (List.mem_singleton_self _) (.here ?_)
    decide
  obtain ⟨_, hrefines, hnever⟩ := @dictionary_in_insertion_order Nat
  exact ⟨hunknown, hrefines _ _, hnever _ _ hunknown, rfl⟩

end OrderedMap

end SchemaCast
