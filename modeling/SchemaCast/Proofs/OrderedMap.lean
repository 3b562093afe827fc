import Mathlib.Data.List.Forall2
import Mathlib.Data.List.Induction
import SchemaCast.Value.Basic

namespace SchemaCast

namespace OrderedMap

variable {K L V : Type} [BEq K]

/-- No key is equal to a later one. -/
def Unique (entries : List (K × V)) : Prop :=
  entries.Pairwise fun a b => (a.1 == b.1) = false

theorem Unique.of_keys {W : Type} {entries : List (K × V)} {fields : List (K × W)}
    (h : Unique entries) (hk : fields.map Prod.fst = entries.map Prod.fst) : Unique fields := by
  unfold Unique at h ⊢
  rw [← List.pairwise_map (f := Prod.fst) (R := fun a b : K => (a == b) = false)] at h ⊢
  rwa [hk]

theorem insertEntry_of_absent {key : K} {value : V} {entries : List (K × V)}
    (h : ∀ e ∈ entries, (e.1 == key) = false) :
    (insertEntry key value entries).2 = entries ++ [(key, value)] := by
  induction entries with
  | nil => rfl
  | cons e rest ih =>
    have he := h e List.mem_cons_self
    have hr := ih fun d hd => h d (List.mem_cons_of_mem _ hd)
    simp [insertEntry, he, hr]

/-- An entry after an insertion was there before, or has the new value under its own key or under
an equal one that was there before. -/
theorem mem_insertEntry {key : K} {value : V} {entries : List (K × V)} {e : K × V}
    (h : e ∈ (insertEntry key value entries).2) :
    e ∈ entries ∨ e = (key, value) ∨
      (e.2 = value ∧ (e.1 == key) = true ∧ e.1 ∈ entries.map Prod.fst) := by
  induction entries with
  | nil => exact .inr (.inl (by simpa [insertEntry] using h))
  | cons d rest ih =>
    cases hd : d.1 == key with
    | true =>
      simp only [insertEntry, hd, ↓reduceIte, List.mem_cons] at h
      rcases h with rfl | h
      · exact .inr (.inr ⟨rfl, hd, by simp⟩)
      · exact .inl (List.mem_cons_of_mem _ h)
    | false =>
      simp only [insertEntry, hd, Bool.false_eq_true, ↓reduceIte, List.mem_cons] at h
      rcases h with rfl | h
      · exact .inl List.mem_cons_self
      · rcases ih h with h | h | ⟨hv, hk, hm⟩
        · exact .inl (List.mem_cons_of_mem _ h)
        · exact .inr (.inl h)
        · exact .inr (.inr ⟨hv, hk, List.mem_cons_of_mem _ hm⟩)

/-- The keys that are there stay; a key comes in at the end if it is equal to none of them. -/
theorem keys_insertEntry (key : K) (value : V) (entries : List (K × V)) :
    (insertEntry key value entries).2.map Prod.fst =
      if entries.any (·.1 == key) then entries.map Prod.fst
      else entries.map Prod.fst ++ [key] := by
  induction entries with
  | nil => rfl
  | cons e rest ih =>
    cases he : e.1 == key with
    | true => simp [insertEntry, he]
    | false =>
      simp only [insertEntry, he, Bool.false_eq_true, ↓reduceIte, List.map_cons, ih,
        List.any_cons, Bool.false_or]
      split <;> rfl

theorem unique_insertEntry (key : K) (value : V) {entries : List (K × V)}
    (h : Unique entries) : Unique (insertEntry key value entries).2 := by
  by_cases ha : entries.any (·.1 == key) = true
  · exact h.of_keys (by rw [keys_insertEntry, if_pos ha])
  · have habsent : ∀ e ∈ entries, (e.1 == key) = false := by simpa using ha
    rw [insertEntry_of_absent habsent]
    exact List.pairwise_append.mpr ⟨h, List.pairwise_singleton .., by simpa using habsent⟩

@[simp]
theorem ofList_nil : (ofList [] : OrderedMap K V) = empty := rfl

@[simp]
theorem ofList_concat (entries : List (K × V)) (e : K × V) :
    (ofList (entries ++ [e])).entries = (insertEntry e.1 e.2 (ofList entries).entries).2 := by
  simp [ofList, insert, getThenInsert]

theorem unique_ofList (entries : List (K × V)) : Unique (ofList entries).entries := by
  induction entries using List.reverseRecOn with
  | nil => exact List.Pairwise.nil
  | append_singleton entries e ih =>
    rw [ofList_concat]
    exact unique_insertEntry _ _ ih

theorem ofList_eq_self {entries : List (K × V)} (h : Unique entries) :
    (ofList entries).entries = entries := by
  induction entries using List.reverseRecOn with
  | nil => rfl
  | append_singleton entries e ih =>
    obtain ⟨hu, _, ha⟩ := List.pairwise_append.mp h
    rw [ofList_concat, ih hu, insertEntry_of_absent fun d hd => ha d hd e (by simp)]

theorem Unique.ofList_entries {m : OrderedMap K V} (h : Unique m.entries) :
    ofList m.entries = m := by
  cases m
  exact congrArg mk (ofList_eq_self h)

theorem key_mem_of_mem_ofList {entries : List (K × V)} {e : K × V}
    (h : e ∈ (ofList entries).entries) : e.1 ∈ entries.map Prod.fst := by
  induction entries using List.reverseRecOn generalizing e with
  | nil => simp [empty] at h
  | append_singleton entries d ih =>
    rw [ofList_concat] at h
    rw [List.map_append, List.mem_append]
    rcases mem_insertEntry h with h | rfl | ⟨_, _, h⟩
    · exact .inl (ih h)
    · exact .inr (by simp)
    · obtain ⟨c, hc, he⟩ := List.mem_map.mp h
      exact .inl (he ▸ ih hc)

/-- A value that comes out went in under the same key or an equal one. -/
theorem value_mem_of_mem_ofList {entries : List (K × V)} {e : K × V}
    (h : e ∈ (ofList entries).entries) :
    ∃ key, (key, e.2) ∈ entries ∧ (e.1 = key ∨ (e.1 == key) = true) := by
  induction entries using List.reverseRecOn generalizing e with
  | nil => simp [empty] at h
  | append_singleton entries d ih =>
    rw [ofList_concat] at h
    rcases mem_insertEntry h with h | rfl | ⟨hv, hk, _⟩
    · obtain ⟨key, hm, hk⟩ := ih h
      exact ⟨key, List.mem_append_left _ hm, hk⟩
    · exact ⟨d.1, by simp, .inl rfl⟩
    · exact ⟨d.1, by simp [hv], .inr hk⟩

/-- Maps whose keys correspond are made in the same way. -/
theorem ofList_map_keys [BEq L] (f : K → L) (hf : ∀ a b, (f a == f b) = (a == b))
    (entries : List (K × V)) :
    (ofList (entries.map fun e => (f e.1, e.2))).entries =
      (ofList entries).entries.map fun e => (f e.1, e.2) := by
  have step (key : K) (value : V) (es : List (K × V)) :
      (insertEntry (f key) value (es.map fun e => (f e.1, e.2))).2 =
        (insertEntry key value es).2.map fun e => (f e.1, e.2) := by
    induction es with
    | nil => rfl
    | cons e rest ih => cases he : e.1 == key <;> simp [insertEntry, hf, he, ih]
  induction entries using List.reverseRecOn with
  | nil => rfl
  | append_singleton entries e ih =>
    rw [List.map_append, List.map_singleton, ofList_concat, ih, step, ofList_concat]

/-- Entries with the same keys in the same order, and related values. -/
def Related {W : Type} (r : V → W → Prop) (entries : List (K × V)) (fields : List (K × W)) : Prop :=
  List.Forall₂ (fun e f => e.1 = f.1 ∧ r e.2 f.2) entries fields

omit [BEq K] in
theorem Related.filter {W : Type} {r : V → W → Prop} {entries : List (K × V)}
    {fields : List (K × W)} (h : Related r entries fields) (p : K → Bool) :
    Related r (entries.filter fun e => p e.1) (fields.filter fun f => p f.1) :=
  List.rel_filter (fun e f hef => by simp only [hef.1]) h

theorem Related.insertEntry {W : Type} {r : V → W → Prop} {entries : List (K × V)}
    {fields : List (K × W)} (h : Related r entries fields) (key : K) {v : V} {w : W} (hr : r v w) :
    Related r (insertEntry key v entries).2 (OrderedMap.insertEntry key w fields).2 := by
  induction h with
  | nil => exact .cons ⟨rfl, hr⟩ .nil
  | @cons e f entries fields he ht ih =>
    obtain ⟨hkey, hvalue⟩ := he
    cases hk : e.1 == key with
    | true =>
      have hf : (f.1 == key) = true := hkey ▸ hk
      simp only [OrderedMap.insertEntry, hk, hf, ↓reduceIte]
      exact .cons ⟨hkey, hr⟩ ht
    | false =>
      have hf : (f.1 == key) = false := hkey ▸ hk
      simp only [OrderedMap.insertEntry, hk, hf, Bool.false_eq_true, ↓reduceIte]
      exact .cons ⟨hkey, hvalue⟩ ih

theorem Related.ofList {W : Type} {r : V → W → Prop} {entries : List (K × V)}
    {fields : List (K × W)} (h : Related r entries fields) :
    Related r (ofList entries).entries (OrderedMap.ofList fields).entries := by
  have fold (m : OrderedMap K V) (n : OrderedMap K W) (hmn : Related r m.entries n.entries) :
      Related r (entries.foldl (fun m e => m.insert e.1 e.2) m).entries
        (fields.foldl (fun n f => n.insert f.1 f.2) n).entries := by
    induction h generalizing m n with
    | nil => exact hmn
    | @cons e f entries fields he _ ih =>
      obtain ⟨key, v⟩ := e
      obtain ⟨_, w⟩ := f
      obtain ⟨rfl, hvalue⟩ := he
      exact ih _ _ (hmn.insertEntry key hvalue)
  exact fold empty empty .nil

theorem Related.lookup {W : Type} {r : V → W → Prop} {entries : List (K × V)}
    {fields : List (K × W)} (h : Related r entries fields) (key : K) :
    Option.Rel r ((entries.find? (·.1 == key)).map Prod.snd)
      ((fields.find? (·.1 == key)).map Prod.snd) := by
  induction h with
  | nil => exact .none
  | @cons e f entries fields he _ ih =>
    obtain ⟨hkey, hvalue⟩ := he
    rw [List.find?_cons, List.find?_cons, hkey]
    cases f.1 == key with
    | true => exact .some hvalue
    | false => exact ih

section Equivalence

variable [PartialEquivBEq K]

theorem Unique.perm {entries others : List (K × V)} (h : Unique entries)
    (order : entries.Perm others) : Unique others := by
  have hsymm {a b : K × V} (hab : (a.1 == b.1) = false) : (b.1 == a.1) = false :=
    BEq.comm.trans hab
  exact (order.pairwise_iff hsymm).mp h

theorem find?_insertEntry (key k : K) (value : V) (entries : List (K × V)) :
    ((insertEntry key value entries).2.find? (·.1 == k)).map Prod.snd =
      if key == k then some value else (entries.find? (·.1 == k)).map Prod.snd := by
  induction entries with
  | nil => cases hk : key == k <;> simp [insertEntry, hk]
  | cons e rest ih =>
    cases he : e.1 == key with
    | true =>
      have hek : (e.1 == k) = (key == k) := BEq.congr_left he
      cases hk : key == k <;> simp [insertEntry, he, hek, hk]
    | false =>
      cases hek : e.1 == k with
      | true =>
        have hk : (key == k) = false := by rw [BEq.comm, ← BEq.congr_left hek, he]
        simp [insertEntry, he, hek, hk]
      | false => simpa [insertEntry, he, hek] using ih

/-- Looking up a key gives the value that was inserted last under it. -/
theorem get?_ofList (entries : List (K × V)) (key : K) :
    (ofList entries).get? key = (entries.reverse.find? (·.1 == key)).map Prod.snd := by
  induction entries using List.reverseRecOn with
  | nil => rfl
  | append_singleton entries e ih =>
    rw [get?, ofList_concat, find?_insertEntry]
    rw [get?] at ih
    rw [ih, List.reverse_append, List.reverse_singleton, List.singleton_append, List.find?_cons]
    cases e.1 == key <;> rfl

end Equivalence

section Lawful

variable [LawfulBEq K]

theorem mem_of_mem_ofList {entries : List (K × V)} {e : K × V}
    (h : e ∈ (ofList entries).entries) : e ∈ entries := by
  obtain ⟨key, hm, hk⟩ := value_mem_of_mem_ofList h
  obtain rfl : e.1 = key := by simpa using hk
  exact hm

theorem mem_keys_ofList (key : K) (entries : List (K × V)) :
    key ∈ (ofList entries).entries.map Prod.fst ↔ key ∈ entries.map Prod.fst := by
  induction entries using List.reverseRecOn with
  | nil => rfl
  | append_singleton entries e ih =>
    rw [ofList_concat, keys_insertEntry, List.map_append, List.mem_append, ← ih]
    split
    · rename_i h
      obtain ⟨d, hd, he⟩ := List.any_eq_true.mp h
      have hk : e.1 ∈ (ofList entries).entries.map Prod.fst :=
        List.mem_map.mpr ⟨d, hd, by simpa using he⟩
      constructor
      · exact .inl
      · rintro (h | h)
        · exact h
        · rw [List.map_singleton, List.mem_singleton] at h
          exact h ▸ hk
    · simp

/-- The keys stand where each of them came first. -/
theorem keys_ofList (entries : List (K × V)) :
    (ofList entries).keys = (entries.map Prod.fst).eraseDups := by
  induction entries using List.reverseRecOn with
  | nil => rfl
  | append_singleton entries e ih =>
    have hmem : (ofList entries).entries.any (·.1 == e.1) = true ↔
        e.1 ∈ entries.map Prod.fst := by
      rw [← mem_keys_ofList, List.any_eq_true, List.mem_map]
      simp only [beq_iff_eq]
    rw [keys] at ih ⊢
    rw [ofList_concat, keys_insertEntry, List.map_append, List.eraseDups_append, ← ih,
      List.map_singleton]
    by_cases h : e.1 ∈ entries.map Prod.fst
    · simp [hmem.mpr h, List.removeAll, h]
    · simp [mt hmem.mp h, List.removeAll, h, List.eraseDups_cons]

theorem Unique.nodup_keys {entries : List (K × V)} (h : Unique entries) :
    (entries.map Prod.fst).Nodup := by
  rw [List.Nodup, List.pairwise_map]
  exact h.imp fun hab he => by simp [he] at hab

theorem Unique.find?_eq_some {entries : List (K × V)} (h : Unique entries) {e : K × V}
    (hm : e ∈ entries) : entries.find? (·.1 == e.1) = some e := by
  induction entries with
  | nil => simp at hm
  | cons d rest ih =>
    obtain ⟨hd, hr⟩ := List.pairwise_cons.mp h
    rcases List.mem_cons.mp hm with rfl | hm
    · simp
    · rw [List.find?_cons, hd e hm]
      exact ih hr hm

/-- Where no two keys are equal, looking up finds the same in any order. -/
theorem Unique.find?_perm {entries others : List (K × V)} (h : Unique entries)
    (order : entries.Perm others) (key : K) :
    others.find? (·.1 == key) = entries.find? (·.1 == key) := by
  cases hfind : entries.find? (·.1 == key) with
  | some e =>
    have hkey : e.1 = key := by simpa using List.find?_some hfind
    subst hkey
    exact (h.perm order).find?_eq_some (order.subset (List.mem_of_find?_eq_some hfind))
  | none =>
    rw [List.find?_eq_none] at hfind ⊢
    intro e he
    exact hfind e (order.symm.subset he)

end Lawful

end OrderedMap

namespace Value

@[simp]
theorem distinct_concat (members : List Value) (v : Value) :
    distinct (members ++ [v]) =
      if (distinct members).any (· == v) then distinct members else distinct members ++ [v] := by
  simp [distinct]

/-- No member is equal to a later one. -/
def Distinct (members : List Value) : Prop :=
  members.Pairwise fun a b => (a == b) = false

theorem distinct_distinct (members : List Value) : Distinct (distinct members) := by
  induction members using List.reverseRecOn with
  | nil => exact List.Pairwise.nil
  | append_singleton members v ih =>
    rw [distinct_concat]
    split
    · exact ih
    · rename_i h
      exact List.pairwise_append.mpr ⟨ih, List.pairwise_singleton .., by simpa using h⟩

theorem distinct_eq_self {members : List Value} (h : Distinct members) :
    distinct members = members := by
  induction members using List.reverseRecOn with
  | nil => rfl
  | append_singleton members v ih =>
    obtain ⟨hd, _, ha⟩ := List.pairwise_append.mp h
    have hn : members.any (· == v) = false := by
      simpa using fun a hm => ha a hm v (by simp)
    rw [distinct_concat, ih hd, hn, if_neg Bool.false_ne_true]

theorem mem_of_mem_distinct {members : List Value} {v : Value} (h : v ∈ distinct members) :
    v ∈ members := by
  induction members using List.reverseRecOn with
  | nil => exact h
  | append_singleton members w ih =>
    rw [distinct_concat] at h
    split at h
    · exact List.mem_append_left _ (ih h)
    · rcases List.mem_append.mp h with h | h
      · exact List.mem_append_left _ (ih h)
      · exact List.mem_append_right _ h

end Value

end SchemaCast
