import SchemaCast.Proofs.Compile
import SchemaCast.Proofs.Descriptor

namespace SchemaCast

/-- What is visited when entries are cast: a member, or a declared key that no member has. -/
inductive Visit where
  | present (key member : Value)
  | absent (key : String)

namespace Visit

/-- The members in their order, and then the keys without a member in the order of `keys`. -/
def inTurn (keys : List String) (entries : List (Value × Value)) : List Visit :=
  entries.map (fun e => present e.1 e.2) ++
    (keys.filter fun key => !entries.any (·.1 == .text key)).map absent

/-- The key that is visited. -/
def key : Visit → Value
  | present key _ => key
  | absent key => .text key

theorem absent_mem_inTurn {keys : List String} {entries : List (Value × Value)} {key : String}
    (h : absent key ∈ inTurn keys entries) : key ∈ keys := by
  rw [inTurn, List.mem_append, List.mem_map, List.mem_map] at h
  rcases h with ⟨e, _, he⟩ | ⟨name, hm, he⟩
  · cases he
  · obtain rfl := absent.inj he
    exact List.mem_of_mem_filter hm

end Visit

namespace Caster

/-- The cast of what is visited. -/
def castVisit (declared : List (String × Caster)) : Visit → CastResult (String × Value)
  | .present key member => castPresentMember declared (key, member)
  | .absent key => match declared? declared key with
    | none => reject (.missingKey key)
    | some child => do return (key, ← castAbsentKey child key)

/-- The declared keys that were not cast as members are those that no member has. -/
theorem absentKeys_eq {declared : List (String × Caster)} {entries : List (Value × Value)}
    {present : List (String × Value)}
    (h : entries.mapM (castPresentMember declared) = .ok present) (key : String) :
    (present.map Prod.fst).contains key = entries.any (·.1 == .text key) := by
  rw [mapM_eq_ok] at h
  induction h with
  | nil => rfl
  | @cons e f entries present he _ ih =>
    obtain ⟨child, ht, _⟩ := (castPresentMember_eq_ok ..).mp he
    rw [List.map_cons, List.contains_cons, List.any_cons, ih, ht, Value.text_beq, BEq.comm]

/-- The two loops over members and declared keys are one traversal. -/
theorem castDeclared_eq_mapM {declared : List (String × Caster)}
    (unique : OrderedMap.Unique declared) (entries : List (Value × Value)) :
    castDeclared declared entries =
      (Visit.inTurn (declared.map Prod.fst) entries).mapM (castVisit declared) := by
  have hmember : castVisit declared ∘ (fun e => .present e.1 e.2) = castPresentMember declared :=
    rfl
  rw [castDeclared, Visit.inTurn, List.mapM_append, List.mapM_map, List.mapM_map, hmember,
    castPresent_eq_mapM]
  cases hp : entries.mapM (castPresentMember declared) with
  | error e => rfl
  | ok present =>
    have habsent : castAbsent (present.map Prod.fst) declared =
        ((declared.map Prod.fst).filter fun key => !entries.any (·.1 == .text key)).mapM
          (castVisit declared ∘ .absent) := by
      rw [castAbsent_eq_mapM, List.filter_map, List.mapM_map]
      simp only [absentKeys_eq hp]
      refine mapM_congr fun d hd => ?_
      have hchild : declared? declared d.1 = some d.2 :=
        declared?_eq_some unique (List.mem_of_mem_filter hd)
      simp only [Function.comp_apply, castVisit, hchild]
    rw [← habsent]
    rfl

end Caster

namespace Schema

/-- The descriptor of the schema that is declared last for a key. -/
def Declares (fields : List (String × NestedSchema)) (key : String) (child : Descriptor) : Prop :=
  ∃ n, lastDeclared? fields key = some n ∧ compileNested n = .ok child

section

variable (fields : List (String × NestedSchema))

/-- What a visit yields: a field, or the error in which the cast ends. -/
inductive Yields : Visit → CastResult (String × Value) → Prop where
  | extra {key member : Value}
      (undeclared : ∀ name, key = .text name → name ∉ fields.map Prod.fst) :
    Yields (.present key member) (reject (.extraKey key))
  | cast {key : String} {member w : Value} {child : Descriptor}
      (declared : Declares fields key child) (cast : child.cast (some member) = .ok w) :
    Yields (.present (.text key) member) (.ok (key, w))
  | rejected {key : String} {member : Value} {child : Descriptor} {r : Rejection}
      (declared : Declares fields key child)
      (cast : child.cast (some member) = .error (.rejected r)) :
    Yields (.present (.text key) member) (reject (r.under key))
  | misused {key : String} {member : Value} {child : Descriptor} {m : Misuse}
      (declared : Declares fields key child)
      (cast : child.cast (some member) = .error (.misused m)) :
    Yields (.present (.text key) member) (.error (.misused m))
  | absentCast {key : String} {w : Value} {child : Descriptor}
      (declared : Declares fields key child) (cast : child.cast none = .ok w) :
    Yields (.absent key) (.ok (key, w))
  | absentMissing {key : String} {child : Descriptor} {path : List String}
      (declared : Declares fields key child)
      (cast : child.cast none = .error (.rejected ⟨path, .missingValue⟩)) :
    Yields (.absent key) (reject (.missingKey key))
  | absentRejected {key : String} {child : Descriptor} {r : Rejection}
      (declared : Declares fields key child) (cast : child.cast none = .error (.rejected r))
      (hasValue : r.fault ≠ .missingValue) :
    Yields (.absent key) (reject (r.under key))
  | absentMisused {key : String} {child : Descriptor} {m : Misuse}
      (declared : Declares fields key child) (cast : child.cast none = .error (.misused m)) :
    Yields (.absent key) (.error (.misused m))

/-- The visits of entries, the keys being declared where each comes first. -/
def visits (entries : List (Value × Value)) : List Visit :=
  Visit.inTurn (fields.map Prod.fst).eraseDups entries

end

variable {fields : List (String × NestedSchema)} {children : List (String × Descriptor)}

theorem declares_iff (h : compileFields fields = .ok children) {key : String}
    {child : Descriptor} :
    Declares fields key child ↔ (OrderedMap.ofList children).get? key = some child := by
  constructor
  · rintro ⟨n, hn, hc⟩
    have hkey : key ∈ (OrderedMap.ofList children).entries.map Prod.fst :=
      (keys_compileFields h key).mpr (List.mem_map_of_mem (lastDeclared?_mem hn))
    obtain ⟨e, he, rfl⟩ := List.mem_map.mp hkey
    have hget : (OrderedMap.ofList children).get? e.1 = some e.2 := by
      rw [OrderedMap.get?, (OrderedMap.unique_ofList children).find?_eq_some he]
      rfl
    obtain ⟨m, hm, he⟩ := get?_compileFields h hget
    obtain rfl : n = m := Option.some.inj (hn.symm.trans hm)
    rw [hget, Except.ok.inj (hc.symm.trans he)]
  · intro hget
    exact get?_compileFields h hget

theorem declared?_eq_some_iff (h : compileFields fields = .ok children) {key : String}
    {child : Caster} :
    Caster.declared? (Descriptor.castFields (OrderedMap.ofList children).entries) key = some child ↔
      ∃ d, Declares fields key d ∧ d.cast = child := by
  rw [Descriptor.declared?_castFields, Option.map_eq_some_iff]
  simp only [declares_iff h]

theorem declared?_eq_none_iff (h : compileFields fields = .ok children) {key : String} :
    Caster.declared? (Descriptor.castFields (OrderedMap.ofList children).entries) key = none ↔
      key ∉ fields.map Prod.fst := by
  rw [Descriptor.declared?_castFields, Option.map_eq_none_iff, ← keys_compileFields h]
  simp only [OrderedMap.get?, Option.map_eq_none_iff, List.find?_eq_none, beq_iff_eq, List.mem_map,
    not_exists, not_and]

/-- What a member yields is what its cast gives. -/
theorem yields_present (h : compileFields fields = .ok children) (key member : Value) :
    Yields fields (.present key member) (Caster.castPresentMember
      (Descriptor.castFields (OrderedMap.ofList children).entries) (key, member)) := by
  cases key with
  | text name =>
    cases hd : Caster.declared? (Descriptor.castFields (OrderedMap.ofList children).entries) name with
    | none =>
      simp only [Caster.castPresentMember, hd]
      refine .extra fun other he => ?_
      exact Value.text.inj he ▸ (declared?_eq_none_iff h).mp hd
    | some caster =>
      obtain ⟨child, declared, rfl⟩ := (declared?_eq_some_iff h).mp hd
      simp only [Caster.castPresentMember, hd]
      cases hc : child.cast (some member) with
      | ok w => exact .cast declared hc
      | error e =>
        cases e with
        | rejected r => exact .rejected declared hc
        | misused m => exact .misused declared hc
  | _ => exact .extra fun name he => by cases he

/-- What an absent key yields is what the cast of no value gives, unless that misses a value. -/
theorem yields_absent {key : String} {child : Descriptor} (declared : Declares fields key child) :
    Yields fields (.absent key) (do return (key, ← Caster.castAbsentKey child.cast key)) := by
  cases hc : child.cast none with
  | ok w =>
    simp only [Caster.castAbsentKey, hc]
    exact .absentCast declared hc
  | error e =>
    cases e with
    | misused m =>
      simp only [Caster.castAbsentKey, hc]
      exact .absentMisused declared hc
    | rejected r =>
      obtain ⟨path, fault⟩ := r
      cases fault with
      | missingValue =>
        simp only [Caster.castAbsentKey, hc]
        exact .absentMissing declared hc
      | _ =>
        simp only [Caster.castAbsentKey, hc]
        exact .absentRejected declared hc (by simp)

theorem yields_castVisit (h : compileFields fields = .ok children) {visit : Visit}
    (hv : ∀ key, visit = .absent key → key ∈ fields.map Prod.fst) :
    Yields fields visit
      (Caster.castVisit (Descriptor.castFields (OrderedMap.ofList children).entries) visit) := by
  cases visit with
  | present key member => exact yields_present h key member
  | absent key =>
    cases hd : Caster.declared? (Descriptor.castFields (OrderedMap.ofList children).entries) key with
    | none => exact absurd (hv key rfl) ((declared?_eq_none_iff h).mp hd)
    | some caster =>
      obtain ⟨child, declared, rfl⟩ := (declared?_eq_some_iff h).mp hd
      simp only [Caster.castVisit, hd]
      exact yields_absent declared

theorem yields_iff (h : compileFields fields = .ok children) {visit : Visit}
    (hv : ∀ key, visit = .absent key → key ∈ fields.map Prod.fst)
    (result : CastResult (String × Value)) :
    Yields fields visit result ↔
      Caster.castVisit (Descriptor.castFields (OrderedMap.ofList children).entries) visit =
        result := by
  constructor
  · intro hy
    cases hy with
    | @extra key member undeclared =>
      cases key with
      | text name =>
        have hnone := (declared?_eq_none_iff h).mpr (undeclared name rfl)
        simp only [Caster.castVisit, Caster.castPresentMember, hnone]
      | _ => rfl
    | cast declared cast | rejected declared cast | misused declared cast =>
      have hsome := (declared?_eq_some_iff h).mpr ⟨_, declared, rfl⟩
      simp only [Caster.castVisit, Caster.castPresentMember, hsome, cast]
      rfl
    | absentCast declared cast | absentMissing declared cast | absentMisused declared cast =>
      have hsome := (declared?_eq_some_iff h).mpr ⟨_, declared, rfl⟩
      simp only [Caster.castVisit, Caster.castAbsentKey, hsome, cast]
      rfl
    | @absentRejected key child r declared cast hasValue =>
      have hsome := (declared?_eq_some_iff h).mpr ⟨_, declared, rfl⟩
      obtain ⟨path, fault⟩ := r
      simp only [Caster.castVisit, Caster.castAbsentKey, hsome, cast]
      cases fault with
      | missingValue => exact absurd rfl hasValue
      | _ => rfl
  · rintro rfl
    exact yields_castVisit h hv

end Schema

namespace Caster

/-- The casting of entries fails as that of its visits does. -/
theorem entries_eq_error {declared : List (String × Caster)} {v : Value} (hv : v.HasKeys)
    (e : CastError) :
    entries declared (some v) = .error e ↔ castDeclared declared v.keyed = .error e := by
  cases hv with
  | map m => exact except_bind_pure_eq_error ..
  | record m => exact except_bind_pure_eq_error ..

/-- Distinct fields are put into a container of the same kind as they are. -/
theorem entries_eq_ok {declared : List (String × Caster)} {v : Value} (hv : v.HasKeys)
    (unique : ∀ fields, castDeclared declared v.keyed = .ok fields → OrderedMap.Unique fields)
    (w : Value) :
    entries declared (some v) = .ok w ↔
      ∃ fields, castDeclared declared v.keyed = .ok fields ∧ v.SameKind w ∧
        w.keyed = textKeyed fields := by
  constructor
  · intro h
    obtain ⟨hk, fields, hc, hw⟩ := entries_ok h
    rw [OrderedMap.ofList_eq_self (unique fields hc)] at hw
    exact ⟨fields, hc, hk, hw⟩
  · rintro ⟨fields, hc, hk, hw⟩
    have hfields := OrderedMap.ofList_eq_self (unique fields hc)
    cases hk with
    | map m n =>
      have hc : castDeclared declared m.entries = .ok fields := hc
      have hw : n.entries = textKeyed fields := hw
      rw [entries, hc]
      change Except.ok (Value.ofEntries (textKeyed fields)) = _
      rw [Value.ofEntries_textKeyed, hfields, ← hw]
    | record m n =>
      have hc : castDeclared declared (textKeyed m.entries) = .ok fields := hc
      have hn : n.entries = fields := Value.textKeyed_injective hw
      rw [entries, hc]
      change Except.ok (Value.record (.ofList fields)) = _
      rw [← hn] at hfields ⊢
      exact congrArg (fun es => Except.ok (Value.record ⟨es⟩)) hfields
    | _ => cases hv

end Caster

namespace Descriptor

open Schema

variable {fields : List (String × NestedSchema)} {children : List (String × Descriptor)}

theorem cast_entries (children : OrderedMap String Descriptor) :
    (entries children).cast = Caster.entries (castFields children.entries) := by
  rw [cast]

theorem visits_castFields (h : compileFields fields = .ok children)
    (entries : List (Value × Value)) :
    Visit.inTurn ((castFields (OrderedMap.ofList children).entries).map Prod.fst) entries =
      Schema.visits fields entries := by
  rw [keys_castFields, OrderedMap.keys_ofList, keys_eq_of_forall₂ ((compileFields_eq_ok ..).mp h),
    Schema.visits]

theorem castVisit_eq_iff (h : compileFields fields = .ok children)
    {entries : List (Value × Value)} {visit : Visit} (hv : visit ∈ Schema.visits fields entries)
    (result : CastResult (String × Value)) :
    Caster.castVisit (castFields (OrderedMap.ofList children).entries) visit = result ↔
      Yields fields visit result := by
  refine (yields_iff h (fun key hk => ?_) result).symm
  subst hk
  exact List.mem_eraseDups.mp (Visit.absent_mem_inTurn hv)

theorem forall₂_yields (h : compileFields fields = .ok children)
    {entries : List (Value × Value)} {visits : List Visit}
    (hv : ∀ visit ∈ visits, visit ∈ Schema.visits fields entries)
    (yielded : List (String × Value)) :
    List.Forall₂ (fun visit f =>
        Caster.castVisit (castFields (OrderedMap.ofList children).entries) visit = .ok f)
      visits yielded ↔ List.Forall₂ (fun visit f => Yields fields visit (.ok f)) visits yielded := by
  constructor
  · intro hy
    exact ((List.forall₂_and_left ..).mpr ⟨hv, hy⟩).imp fun visit f hf =>
      (castVisit_eq_iff h hf.1 _).mp hf.2
  · intro hy
    exact ((List.forall₂_and_left ..).mpr ⟨hv, hy⟩).imp fun visit f hf =>
      (castVisit_eq_iff h hf.1 _).mpr hf.2

theorem castDeclared_eq (h : compileFields fields = .ok children)
    (entries : List (Value × Value)) :
    Caster.castDeclared (castFields (OrderedMap.ofList children).entries) entries =
      (Schema.visits fields entries).mapM
        (Caster.castVisit (castFields (OrderedMap.ofList children).entries)) := by
  have unique : OrderedMap.Unique (castFields (OrderedMap.ofList children).entries) :=
    (OrderedMap.unique_ofList children).of_keys (keys_castFields _)
  rw [Caster.castDeclared_eq_mapM unique, visits_castFields h]

theorem castDeclared_eq_ok (h : compileFields fields = .ok children)
    (entries : List (Value × Value)) (yielded : List (String × Value)) :
    Caster.castDeclared (castFields (OrderedMap.ofList children).entries) entries = .ok yielded ↔
      List.Forall₂ (fun visit f => Yields fields visit (.ok f)) (Schema.visits fields entries)
        yielded := by
  rw [castDeclared_eq h, mapM_eq_ok]
  exact forall₂_yields h (fun _ hv => hv) yielded

theorem castDeclared_eq_error (h : compileFields fields = .ok children)
    (entries : List (Value × Value)) (e : CastError) :
    Caster.castDeclared (castFields (OrderedMap.ofList children).entries) entries = .error e ↔
      ∃ before visit after yielded,
        Schema.visits fields entries = before ++ visit :: after ∧
        List.Forall₂ (fun visit f => Yields fields visit (.ok f)) before yielded ∧
        Yields fields visit (.error e) := by
  rw [castDeclared_eq h, mapM_eq_error]
  refine exists_congr fun before => exists_congr fun visit => exists_congr fun after =>
    exists_congr fun yielded => and_congr_right fun hv => ?_
  have hmem : ∀ t ∈ before ++ visit :: after, t ∈ Schema.visits fields entries :=
    fun t ht => hv ▸ ht
  rw [forall₂_yields h (fun t ht => hmem t (by simp [ht])) yielded,
    castVisit_eq_iff h (hmem visit (by simp))]

/-- A field has the key that was visited, which is declared. -/
theorem key_of_yields {visit : Visit} {f : String × Value} (h : Yields fields visit (.ok f)) :
    visit.key = .text f.1 ∧ f.1 ∈ fields.map Prod.fst := by
  have mem_keys {key : String} {child : Descriptor} (hd : Declares fields key child) :
      key ∈ fields.map Prod.fst := by
    obtain ⟨n, hn, _⟩ := hd
    exact List.mem_map_of_mem (lastDeclared?_mem hn)
  generalize hr : (Except.ok f : CastResult (String × Value)) = result at h
  cases h with
  | cast declared _ | absentCast declared _ =>
    obtain rfl := Except.ok.inj hr
    exact ⟨rfl, mem_keys declared⟩
  | _ => cases hr

theorem keys_of_yields {visits : List Visit} {yielded : List (String × Value)}
    (h : List.Forall₂ (fun visit f => Yields fields visit (.ok f)) visits yielded) :
    (Caster.textKeyed yielded).map Prod.fst = visits.map Visit.key := by
  rw [Caster.textKeyed, List.map_map]
  exact (map_eq_of_forall₂ (h.imp fun _ _ hf => (key_of_yields hf).1)).symm

/-- No two visits are of equal keys. -/
theorem visits_unique {entries : List (Value × Value)} (h : OrderedMap.Unique entries) :
    ((Schema.visits fields entries).map Visit.key).Pairwise fun a b => (a == b) = false := by
  have hdeclared : (fields.map Prod.fst).eraseDups.Nodup := by
    rw [← OrderedMap.keys_ofList]
    exact (OrderedMap.unique_ofList fields).nodup_keys
  rw [Schema.visits, Visit.inTurn, List.map_append, List.map_map, List.map_map,
    List.pairwise_append]
  refine ⟨List.pairwise_map.mpr h, ?_, fun a ha b hb => ?_⟩
  · refine List.pairwise_map.mpr ((hdeclared.filter _).imp fun hne => ?_)
    rw [Function.comp_apply, Function.comp_apply, Visit.key, Visit.key, Value.text_beq]
    exact beq_false_of_ne hne
  · obtain ⟨e, he, rfl⟩ := List.mem_map.mp ha
    obtain ⟨key, hk, rfl⟩ := List.mem_map.mp hb
    obtain ⟨_, habsent⟩ := List.mem_filter.mp hk
    rw [Bool.not_eq_true', List.any_eq_false] at habsent
    exact Bool.eq_false_iff.mpr (habsent e he)

theorem unique_of_yields {entries : List (Value × Value)} (hu : OrderedMap.Unique entries)
    {yielded : List (String × Value)}
    (h : List.Forall₂ (fun visit f => Yields fields visit (.ok f)) (Schema.visits fields entries)
      yielded) : OrderedMap.Unique yielded := by
  have hkeys := @visits_unique fields _ hu
  rw [← keys_of_yields h, List.pairwise_map, Caster.textKeyed, List.pairwise_map] at hkeys
  exact hkeys

/-- Every declared key is visited, with its member or without one. -/
theorem key_visited {key : String} (hk : key ∈ fields.map Prod.fst)
    (entries : List (Value × Value)) : ∃ visit ∈ Schema.visits fields entries,
      visit.key = .text key := by
  cases hany : entries.any (·.1 == .text key) with
  | true =>
    obtain ⟨e, he, hbeq⟩ := List.any_eq_true.mp hany
    exact ⟨.present e.1 e.2, List.mem_append_left _ (List.mem_map_of_mem he),
      Value.eq_text_of_beq hbeq⟩
  | false =>
    refine ⟨.absent key, List.mem_append_right _ (List.mem_map_of_mem ?_), rfl⟩
    exact List.mem_filter.mpr ⟨List.mem_eraseDups.mpr hk, by simp [hany]⟩

theorem mem_keys_of_yields {entries : List (Value × Value)} {yielded : List (String × Value)}
    (h : List.Forall₂ (fun visit f => Yields fields visit (.ok f)) (Schema.visits fields entries)
      yielded) (key : String) : key ∈ yielded.map Prod.fst ↔ key ∈ fields.map Prod.fst := by
  constructor
  · intro hk
    obtain ⟨f, hf, rfl⟩ := List.mem_map.mp hk
    obtain ⟨visit, _, hy⟩ := exists_left_of_forall₂ h hf
    exact (key_of_yields hy).2
  · intro hk
    obtain ⟨visit, hv, hkey⟩ := key_visited hk entries
    obtain ⟨f, hf, hy⟩ := exists_right_of_forall₂ h hv
    have hname : f.1 = key := Value.text.inj ((key_of_yields hy).1.symm.trans hkey)
    exact hname ▸ List.mem_map_of_mem hf

/-- Casting by declared entries visits the members and then the declared keys without one. The first
visit that does not yield a field gives the error; if there is none, the container keeps its kind
and holds what was yielded, under each declared key once. -/
theorem entriesOf_cast_iff {d : Descriptor} (h : entriesOf fields = .ok d) {v : Value}
    (hv : v.HasKeys) (unique : v.HasUniqueKeys) :
    (∀ e, d.cast (some v) = .error e ↔ ∃ before visit after yielded,
      Schema.visits fields v.keyed = before ++ visit :: after ∧
      List.Forall₂ (fun visit f => Yields fields visit (.ok f)) before yielded ∧
      Yields fields visit (.error e)) ∧
    ∀ w, d.cast (some v) = .ok w ↔ ∃ yielded,
      List.Forall₂ (fun visit f => Yields fields visit (.ok f)) (Schema.visits fields v.keyed)
        yielded ∧
      v.SameKind w ∧ w.keyed = Caster.textKeyed yielded ∧
      (yielded.map Prod.fst).Nodup ∧
      ∀ key, key ∈ yielded.map Prod.fst ↔ key ∈ fields.map Prod.fst := by
  obtain ⟨children, hc, rfl⟩ := (except_bind_pure_eq_ok ..).mp h
  rw [cast_entries]
  constructor
  · intro e
    rw [Caster.entries_eq_error hv, castDeclared_eq_error hc]
  · intro w
    have hunique (yielded : List (String × Value)) (hy : Caster.castDeclared
        (castFields (OrderedMap.ofList children).entries) v.keyed = .ok yielded) :
        OrderedMap.Unique yielded :=
      unique_of_yields unique ((castDeclared_eq_ok hc ..).mp hy)
    rw [Caster.entries_eq_ok hv hunique]
    constructor
    · rintro ⟨yielded, hy, hk, hw⟩
      have hyields := (castDeclared_eq_ok hc ..).mp hy
      exact ⟨yielded, hyields, hk, hw, (hunique yielded hy).nodup_keys, mem_keys_of_yields hyields⟩
    · rintro ⟨yielded, hyields, hk, hw, _⟩
      exact ⟨yielded, (castDeclared_eq_ok hc ..).mpr hyields, hk, hw⟩

/-- Parcels have a flag, declared twice, a default for their tags, and a sender. -/
def parcels : List (String × NestedSchema) := [
  ("fragile", .declared { type := .builtin .text }),
  ("tags", .declared {
    type := .builtin .list
    rules := { default? := some (.list [.null]) }
    values? := some (.declared { type := .builtin .text, rules := { optional := true } }) }),
  ("fragile", .declared { type := .builtin .boolean, rules := { casts := true } }),
  ("sender", .ofBuiltin .text)]

/-- A map with a sender and a flag that the first schema of the flag would keep as it is. -/
def sentParcel : Value := .ofEntries [(.text "sender", .text "a"), (.text "fragile", .text "1")]

def unsentParcel : Value := .ofFields [("fragile", .text "0")]

theorem parcels_miss_sender : ∃ d, entriesOf parcels = .ok d ∧
    sentParcel.HasKeys ∧ sentParcel.HasUniqueKeys ∧
    d.cast (some sentParcel) = .ok (.ofEntries [(.text "sender", .text "a"),
      (.text "fragile", .bool true), (.text "tags", .list [.null])]) ∧
    unsentParcel.HasKeys ∧ unsentParcel.HasUniqueKeys ∧
    d.cast (some unsentParcel) = .error (.rejected (.missingKey "sender")) := by
  have fragile : Declares parcels "fragile" _ := ⟨_, rfl, rfl⟩
  have tags : Declares parcels "tags" _ := ⟨_, rfl, rfl⟩
  have sender : Declares parcels "sender" _ := ⟨_, rfl, rfl⟩
  obtain ⟨d, hd⟩ : ∃ d, entriesOf parcels = .ok d := ⟨_, rfl⟩
  have hsent : sentParcel.HasUniqueKeys := OrderedMap.unique_ofList _
  have hunsent : unsentParcel.HasUniqueKeys := List.pairwise_singleton ..
  refine ⟨d, hd, .map _, hsent, ?_, .record _, hunsent, ?_⟩
  · refine ((entriesOf_cast_iff hd (.map _) hsent).2 _).mpr
      ⟨[("sender", .text "a"), ("fragile", .bool true), ("tags", .list [.null])], ?_, .map _ _, rfl,
        by decide, fun key => ?_⟩
    · exact .cons (.cast sender rfl) (.cons (.cast fragile rfl) (.cons (.absentCast tags rfl) .nil))
    · simp only [parcels, List.map_cons, List.map_nil, List.mem_cons, List.not_mem_nil, or_false]
      grind
  · refine ((entriesOf_cast_iff hd (.record _) hunsent).1 _).mpr
      ⟨[.present (.text "fragile") (.text "0"), .absent "tags"], .absent "sender", [],
        [("fragile", .bool false), ("tags", .list [.null])], rfl, ?_, .absentMissing sender rfl⟩
    exact .cons (.cast fragile rfl) (.cons (.absentCast tags rfl) .nil)

end Descriptor

end SchemaCast
