import SchemaCast.Proofs.Descriptor

namespace SchemaCast

namespace Caster

variable {keys child : Caster} {v w : Value}

/-- What has been cast is cast to itself. -/
def Idempotent (c : Caster) : Prop := ∀ input w, c input = .ok w → c (some w) = .ok w

/-- The keys of a map or record are unique and cast to themselves. -/
inductive KeysSettled (keys : Caster) : Value → Prop where
  | map {m : OrderedMap Value Value} (unique : OrderedMap.Unique m.entries)
      (fixed : ∀ e ∈ m.entries, keys (some e.1) = .ok e.1) : KeysSettled keys (.map m)
  | record {m : OrderedMap String Value} (unique : OrderedMap.Unique m.entries)
      (fixed : ∀ f ∈ m.entries, ∃ k, keys (some (.text f.1)) = .ok k ∧ k.display = f.1) :
    KeysSettled keys (.record m)

theorem castEntryKeys_textKeyed {fields : List (String × Value)}
    (h : ∀ f ∈ fields, ∃ k, keys (some (.text f.1)) = .ok k ∧ k.display = f.1) :
    ∃ renamed, castEntryKeys keys (textKeyed fields) = .ok renamed ∧
      displayKeyed renamed = fields := by
  induction fields with
  | nil => exact ⟨[], rfl, rfl⟩
  | cons f fields ih =>
    obtain ⟨k, hk, hd⟩ := h f List.mem_cons_self
    obtain ⟨renamed, hr, hf⟩ := ih fun g hg => h g (List.mem_cons_of_mem _ hg)
    have hk : castKey keys (.text f.1) = .ok k := (castKey_eq_ok ..).mpr hk
    refine ⟨(k, f.2) :: renamed, ?_, ?_⟩
    · change castEntryKeys keys ((.text f.1, f.2) :: textKeyed fields) = _
      simp [castEntryKeys, hk, hr, bind, Except.bind, pure, Except.pure]
    · simp [displayKeyed, hd] at hf ⊢
      exact hf

theorem KeysSettled.rename_eq (h : KeysSettled keys v) : rename keys v = .ok v := by
  cases h with
  | @map m unique fixed =>
    have hk : castEntryKeys keys m.entries = .ok m.entries := by
      rw [castEntryKeys_eq_ok, List.forall₂_same]
      exact fun e he => ⟨fixed e he, rfl⟩
    rw [rename, hk]
    exact congrArg (fun m => Except.ok (Value.map m)) unique.ofList_entries
  | @record m unique fixed =>
    obtain ⟨renamed, hk, hf⟩ := castEntryKeys_textKeyed fixed
    rw [rename, hk]
    change Except.ok (Value.record (.ofList (displayKeyed renamed))) = _
    rw [hf, unique.ofList_entries]

/-- Renamed keys are settled. A key of a record becomes text again and has to stand that. -/
theorem keysSettled_of_rename (hi : keys.Idempotent)
    (hr : ∀ m, v = .record m → ∀ name k, keys (some (.text name)) = .ok k →
      keys (some (.text k.display)) = .ok k)
    (h : rename keys v = .ok w) : KeysSettled keys w := by
  cases v with
  | map m =>
    obtain ⟨renamed, hk, rfl⟩ := (except_bind_pure_eq_ok ..).mp h
    refine .map (OrderedMap.unique_ofList renamed) fun e he => ?_
    obtain ⟨⟨k, u⟩, hu, hke⟩ := List.mem_map.mp (OrderedMap.key_mem_of_mem_ofList he)
    obtain ⟨d, _, hd, _⟩ := exists_left_of_forall₂ ((castEntryKeys_eq_ok ..).mp hk) hu
    exact hke ▸ hi _ _ hd
  | record m =>
    obtain ⟨renamed, hk, rfl⟩ := (except_bind_pure_eq_ok ..).mp h
    refine .record (OrderedMap.unique_ofList _) fun f hf => ?_
    obtain ⟨⟨k, u⟩, hu, rfl⟩ := List.mem_map.mp (OrderedMap.mem_of_mem_ofList hf)
    obtain ⟨d, hd, hc, _⟩ := exists_left_of_forall₂ ((castEntryKeys_eq_ok ..).mp hk) hu
    obtain ⟨g, _, rfl⟩ := List.mem_map.mp hd
    exact ⟨k, hr m rfl g.1 k hc, rfl⟩
  | _ => simp [rename, reject] at h

theorem castSequence_eq_self {vs : List Value} (h : ∀ v ∈ vs, child (some v) = .ok v) :
    castSequence child vs = .ok vs := by
  rw [castSequence_eq_ok, List.forall₂_same]
  exact h

theorem castEntryValues_eq_self {K : Type} {segment : K → String} {entries : List (K × Value)}
    (h : ∀ e ∈ entries, child (some e.2) = .ok e.2) :
    castEntryValues child segment entries = .ok entries := by
  rw [castEntryValues_eq_ok, List.forall₂_same]
  exact fun e he => ⟨rfl, h e he⟩

/-- Casting keys of which none changes leaves a container as it is. -/
theorem eq_of_rename (hu : v.HasUniqueKeys)
    (hk : ∀ e ∈ v.keyed, ∀ k, keys (some e.1) = .ok k → k = e.1) (h : rename keys v = .ok w) :
    w = v := by
  obtain ⟨hkind, renamed, hc⟩ := rename_ok h
  have fixed (e : Value × Value) (he : e ∈ v.keyed) : keys (some e.1) = .ok e.1 := by
    obtain ⟨f, _, hf, _⟩ := exists_right_of_forall₂ ((castEntryKeys_eq_ok ..).mp hc) he
    exact hk e he _ hf ▸ hf
  have hsettled : KeysSettled keys v := by
    cases hkind with
    | map m n => exact .map hu fixed
    | record m n =>
      refine .record (Value.unique_names hu) fun f hf => ?_
      exact ⟨.text f.1, fixed _ (List.mem_map_of_mem hf), rfl⟩
    | list vs ws => simp [rename, reject] at h
    | set vs ws => simp [rename, reject] at h
  exact Except.ok.inj (h.symm.trans hsettled.rename_eq)

/-- Casting members of which none changes gives the same container. -/
theorem castMembers_eq_self (hr : v.NoRepeats) (hk : w.SameKind v)
    (fixed : ∀ m ∈ v.members, child (some m) = .ok m) : castMembers child v = .ok v := by
  cases hk with
  | list _ vs =>
    have hc : castSequence child vs = .ok vs := castSequence_eq_self fixed
    rw [castMembers, hc]
    rfl
  | set _ vs =>
    have hc : castSequence child vs = .ok vs := castSequence_eq_self fixed
    rw [castMembers, hc]
    exact congrArg (fun ms => Except.ok (Value.set ms)) (Value.distinct_eq_self (hr.set vs rfl))
  | map _ m =>
    rw [castMembers, castEntryValues_eq_self fun e he => fixed _ (List.mem_map_of_mem he)]
    exact congrArg (fun m => Except.ok (Value.map m)) hr.keys.ofList_entries
  | record _ m =>
    rw [castMembers, castEntryValues_eq_self fun e he => fixed _ (List.mem_map_of_mem he)]
    exact congrArg (fun m => Except.ok (Value.record m)) (Value.unique_names hr.keys).ofList_entries

theorem noRepeats_of_castMembers (h : castMembers child v = .ok w) : w.NoRepeats := by
  cases v with
  | list vs =>
    obtain ⟨ws, _, rfl⟩ := (except_bind_pure_eq_ok ..).mp h
    exact ⟨.nil, nofun⟩
  | set vs =>
    obtain ⟨ws, _, rfl⟩ := (except_bind_pure_eq_ok ..).mp h
    refine ⟨.nil, ?_⟩
    rintro us ⟨⟩
    exact Value.distinct_distinct ws
  | map m =>
    obtain ⟨fields, _, rfl⟩ := (except_bind_pure_eq_ok ..).mp h
    exact ⟨OrderedMap.unique_ofList fields, nofun⟩
  | record m =>
    obtain ⟨fields, _, rfl⟩ := (except_bind_pure_eq_ok ..).mp h
    exact ⟨List.pairwise_map.mpr (OrderedMap.unique_ofList fields), nofun⟩
  | _ => simp [castMembers, reject] at h

/-- Members that have been cast are cast to themselves. -/
theorem castMembers_again (hi : child.Idempotent) (h : castMembers child v = .ok w) :
    castMembers child w = .ok w := by
  obtain ⟨hk, hm⟩ := castMembers_ok h
  refine castMembers_eq_self (noRepeats_of_castMembers h) hk fun m hw => ?_
  obtain ⟨u, _, hu⟩ := hm m hw
  exact hi _ _ hu

/-- Where members cannot change, the container stays as it is. -/
theorem eq_of_castMembers (hr : v.NoRepeats)
    (hm : ∀ u ∈ v.members, ∀ m, child (some u) = .ok m → m = u)
    (h : castMembers child v = .ok w) : w = v := by
  have fixed (u : Value) (hu : u ∈ v.members) : child (some u) = .ok u := by
    obtain ⟨m, hc⟩ := exists_castMember h hu
    exact hm u hu m hc ▸ hc
  have hk := (castMembers_ok h).1.symm
  exact Except.ok.inj (h.symm.trans (castMembers_eq_self hr hk fixed))

/-- Casting members leaves settled keys as they are. -/
theorem KeysSettled.castMembers_keys (hs : KeysSettled keys v) (h : castMembers child v = .ok w) :
    KeysSettled keys w := by
  cases hs with
  | @map m unique fixed =>
    obtain ⟨fields, hc, hw⟩ := (except_bind_eq_ok ..).mp h
    have hkeys := keys_eq_of_forall₂ ((castEntryValues_eq_ok ..).mp hc)
    have hu : OrderedMap.Unique fields := unique.of_keys hkeys
    rw [except_pure_eq_ok, Value.ofEntries] at hw
    subst hw
    refine .map (OrderedMap.unique_ofList fields) fun e he => ?_
    rw [OrderedMap.ofList_eq_self hu] at he
    obtain ⟨d, hd, hde⟩ := List.mem_map.mp (hkeys ▸ List.mem_map_of_mem he)
    exact hde ▸ fixed d hd
  | @record m unique fixed =>
    obtain ⟨fields, hc, hw⟩ := (except_bind_eq_ok ..).mp h
    have hkeys := keys_eq_of_forall₂ ((castEntryValues_eq_ok ..).mp hc)
    rw [except_pure_eq_ok, Value.ofFields] at hw
    subst hw
    refine .record (OrderedMap.unique_ofList fields) fun f hf => ?_
    have hf := OrderedMap.mem_of_mem_ofList hf
    obtain ⟨d, hd, hde⟩ := List.mem_map.mp (hkeys ▸ List.mem_map_of_mem hf)
    exact hde ▸ fixed d hd

/-- Entries that are all there, each cast to itself by the caster of its key, come out unchanged. -/
theorem castDeclared_eq_self {declared : List (String × Caster)} {fields : List (String × Value)}
    (hk : ∀ key ∈ declared.map Prod.fst, key ∈ fields.map Prod.fst)
    (hf : ∀ f ∈ fields, ∃ c, declared? declared f.1 = some c ∧ c (some f.2) = .ok f.2) :
    castDeclared declared (textKeyed fields) = .ok fields := by
  rw [castDeclared_eq_castPresent fun key hd => Value.key_mem_textKeyed.mpr (hk key hd),
    castPresent_eq_ok, textKeyed, List.forall₂_map_left_iff, List.forall₂_same]
  intro f hm
  obtain ⟨c, hd, hc⟩ := hf f hm
  exact ⟨c, rfl, hd, hc⟩

end Caster

namespace Descriptor

/-- Declared entries that have been cast are cast to themselves. -/
theorem castContents_declared_again {children : OrderedMap String Descriptor}
    (hu : OrderedMap.Unique children.entries)
    (hi : ∀ e ∈ children.entries, Caster.Idempotent e.2.cast) {v w : Value}
    (h : castContents (.declared children) v = .ok w) :
    castContents (.declared children) w = .ok w := by
  obtain ⟨fields, hw, huf, hkeys, hcast⟩ := castContents_declared_ok hu h
  have hd : Caster.castDeclared (castFields children.entries) (Caster.textKeyed fields.entries) =
      .ok fields.entries := by
    apply Caster.castDeclared_eq_self
    · intro key hk
      rw [keys_castFields] at hk
      exact (hkeys key).mpr hk
    · intro f hf
      obtain ⟨c, input, hg, hc⟩ := hcast f hf
      have hm : (f.1, c) ∈ children.entries := by
        obtain ⟨e, he, rfl⟩ := Option.map_eq_some_iff.mp hg
        obtain hef : e.1 = f.1 := by simpa using List.find?_some he
        exact hef ▸ List.mem_of_find?_eq_some he
      exact ⟨c.cast, by rw [declared?_castFields, hg]; rfl, hi _ hm _ _ hc⟩
  have hk : v.SameKind w := by
    rw [castContents_declared] at h
    exact (Caster.entries_ok h).1
  rw [castContents_declared]
  cases hk with
  | list => simp [castContents_declared, Caster.entries, reject] at h
  | set => simp [castContents_declared, Caster.entries, reject] at h
  | map m n =>
    change n.entries = _ at hw
    rw [Caster.entries, hw, hd]
    change Except.ok (Value.ofEntries (Caster.textKeyed fields.entries)) = _
    rw [Value.ofEntries_textKeyed, OrderedMap.ofList_eq_self huf, ← hw]
  | record m n =>
    have hn : n.entries = fields.entries := Value.textKeyed_injective hw
    rw [Caster.entries, hn, hd]
    change Except.ok (Value.ofFields fields.entries) = _
    rw [Value.ofFields, huf.ofList_entries]
    cases n
    cases fields
    exact congrArg (fun entries => Except.ok (Value.record ⟨entries⟩)) hn.symm

end Descriptor

end SchemaCast
