import Mathlib.Data.List.Forall2
import SchemaCast.Caster.Members
import SchemaCast.Caster.Entries

namespace SchemaCast

theorem except_bind_eq_ok {ε α β : Type} (x : Except ε α) (f : α → Except ε β) (b : β) :
    (x >>= f) = .ok b ↔ ∃ a, x = .ok a ∧ f a = .ok b := by
  cases x <;> simp [bind, Except.bind]

theorem except_bind_eq_error {ε α β : Type} (x : Except ε α) (f : α → Except ε β) (e : ε) :
    (x >>= f) = .error e ↔ x = .error e ∨ ∃ a, x = .ok a ∧ f a = .error e := by
  cases x <;> simp [bind, Except.bind]

@[simp]
theorem except_pure_eq_ok {ε α : Type} (a b : α) :
    (pure a : Except ε α) = .ok b ↔ a = b := by
  simp [pure, Except.pure]

@[simp]
theorem except_pure_ne_error {ε α : Type} (a : α) (e : ε) :
    (pure a : Except ε α) ≠ .error e := by
  simp [pure, Except.pure]

theorem except_bind_pure_eq_ok {ε α β : Type} (x : Except ε α) (f : α → β) (b : β) :
    (x >>= fun a => pure (f a)) = .ok b ↔ ∃ a, x = .ok a ∧ f a = b := by
  simp only [except_bind_eq_ok, except_pure_eq_ok]

theorem except_bind_pure_eq_error {ε α β : Type} (x : Except ε α) (f : α → β) (e : ε) :
    (x >>= fun a => pure (f a)) = .error e ↔ x = .error e := by
  cases x <;> simp [bind, Except.bind]

theorem except_bind_pure_succeeds {ε α β : Type} (x : Except ε α) (f : α → β) :
    (∃ b, (x >>= fun a => pure (f a)) = .ok b) ↔ ∃ a, x = .ok a := by
  cases x <;> simp [bind, Except.bind]

theorem except_bind_imp {ε α β : Type} {x y : Except ε α} (h : ∀ a, x = .ok a → y = .ok a)
    {f : α → Except ε β} {b : β} (hx : (x >>= f) = .ok b) : (y >>= f) = .ok b := by
  rw [except_bind_eq_ok] at hx ⊢
  obtain ⟨a, ha, hb⟩ := hx
  exact ⟨a, h a ha, hb⟩

/-- A traversal succeeds exactly if every step does, with the results in order. -/
theorem mapM_eq_ok {ε α β : Type} (f : α → Except ε β) (xs : List α) (ys : List β) :
    xs.mapM f = .ok ys ↔ List.Forall₂ (fun x y => f x = .ok y) xs ys := by
  induction xs generalizing ys with
  | nil => simp [pure, Except.pure, eq_comm]
  | cons x xs ih =>
    simp only [List.mapM_cons, except_bind_eq_ok, except_pure_eq_ok, ih,
      List.forall₂_cons_left_iff]
    constructor
    · rintro ⟨y, hy, ys, hys, rfl⟩
      exact ⟨y, ys, hy, hys, rfl⟩
    · rintro ⟨y, ys, hy, hys, rfl⟩
      exact ⟨y, hy, ys, hys, rfl⟩

/-- A traversal fails with the failure of its first step that fails. -/
theorem mapM_eq_error {ε α β : Type} (f : α → Except ε β) (xs : List α) (e : ε) :
    xs.mapM f = .error e ↔ ∃ before x after ys, xs = before ++ x :: after ∧
      List.Forall₂ (fun a b => f a = .ok b) before ys ∧ f x = .error e := by
  induction xs with
  | nil => simp [pure, Except.pure]
  | cons x xs ih =>
    rw [List.mapM_cons, except_bind_eq_error]
    simp only [except_bind_pure_eq_error, ih]
    constructor
    · rintro (hx | ⟨y, hy, before, z, after, ys, rfl, hys, hz⟩)
      · exact ⟨[], x, xs, [], rfl, .nil, hx⟩
      · exact ⟨x :: before, z, after, y :: ys, rfl, .cons hy hys, hz⟩
    · rintro ⟨before, z, after, ys, hxs, hys, hz⟩
      cases hys with
      | nil =>
        obtain ⟨rfl, rfl⟩ := List.cons.inj hxs
        exact .inl hz
      | cons hy hys =>
        obtain ⟨rfl, rfl⟩ := List.cons.inj hxs
        exact .inr ⟨_, hy, _, z, after, _, rfl, hys, hz⟩

/-- A failure of a traversal is that of one of its steps. -/
theorem exists_error_of_mapM {ε α β : Type} {f : α → Except ε β} {xs : List α} {e : ε}
    (h : xs.mapM f = .error e) : ∃ x ∈ xs, f x = .error e := by
  obtain ⟨before, x, after, _, rfl, _, hx⟩ := (mapM_eq_error ..).mp h
  exact ⟨x, by simp, hx⟩

theorem mapM_congr {ε α β : Type} {f g : α → Except ε β} {xs : List α}
    (h : ∀ x ∈ xs, f x = g x) : xs.mapM f = xs.mapM g := by
  induction xs with
  | nil => rfl
  | cons x xs ih =>
    obtain ⟨hx, hxs⟩ := List.forall_mem_cons.mp h
    rw [List.mapM_cons, List.mapM_cons, hx, ih hxs]

theorem exists_left_of_forall₂ {α β : Type} {r : α → β → Prop} {xs : List α} {ys : List β}
    (h : List.Forall₂ r xs ys) {y : β} (hy : y ∈ ys) : ∃ x ∈ xs, r x y := by
  induction h with
  | nil => simp at hy
  | cons hr _ ih =>
    rcases List.mem_cons.mp hy with rfl | hy
    · exact ⟨_, List.mem_cons_self, hr⟩
    · obtain ⟨x, hx, hr⟩ := ih hy
      exact ⟨x, List.mem_cons_of_mem _ hx, hr⟩

theorem exists_right_of_forall₂ {α β : Type} {r : α → β → Prop} {xs : List α} {ys : List β}
    (h : List.Forall₂ r xs ys) {x : α} (hx : x ∈ xs) : ∃ y ∈ ys, r x y :=
  exists_left_of_forall₂ h.flip hx

theorem exists_forall₂_iff {α β : Type} {r : α → β → Prop} {xs : List α} :
    (∃ ys, List.Forall₂ r xs ys) ↔ ∀ x ∈ xs, ∃ y, r x y := by
  constructor
  · rintro ⟨ys, h⟩ x hx
    obtain ⟨y, _, hxy⟩ := exists_right_of_forall₂ h hx
    exact ⟨y, hxy⟩
  · intro h
    induction xs with
    | nil => exact ⟨[], .nil⟩
    | cons x xs ih =>
      obtain ⟨⟨y, hy⟩, hxs⟩ := List.forall_mem_cons.mp h
      obtain ⟨ys, hys⟩ := ih hxs
      exact ⟨y :: ys, .cons hy hys⟩

/-- The first step that fails gives the failure of a traversal, whatever the steps before it
gave. -/
theorem mapM_eq_error_iff {ε α β : Type} (f : α → Except ε β) (xs : List α) (e : ε) :
    xs.mapM f = .error e ↔ ∃ before x after, xs = before ++ x :: after ∧
      (∀ a ∈ before, ∃ b, f a = .ok b) ∧ f x = .error e := by
  simp only [mapM_eq_error, ← exists_forall₂_iff, exists_and_left, exists_and_right]

/-- Steps that only put their results together fail as the steps themselves do. -/
theorem mapM_bind_pure_eq_error {ε α β γ : Type} (f : α → Except ε β) (g : α → β → γ)
    (xs : List α) (e : ε) :
    (xs.mapM fun x => f x >>= fun b => pure (g x b)) = .error e ↔ xs.mapM f = .error e := by
  simp only [mapM_eq_error_iff, except_bind_pure_eq_error, except_bind_pure_succeeds]

section Completion

variable {α β γ δ : Type} {r : α → β → Prop} {g : α → γ → Prop} {k : β → δ → Prop}
  {q : γ → δ → Prop} (step : ∀ a b c, r a b → g a c → ∃ d, k b d ∧ q c d)

include step

/-- Where each two related members can be completed to a square, so can two related lists. -/
theorem forall₂_complete {as : List α} {bs : List β} {cs : List γ} (h : List.Forall₂ r as bs)
    (hg : List.Forall₂ g as cs) : ∃ ds, List.Forall₂ k bs ds ∧ List.Forall₂ q cs ds := by
  induction h generalizing cs with
  | nil =>
    obtain rfl := List.forall₂_nil_left_iff.mp hg
    exact ⟨[], .nil, .nil⟩
  | cons hab _ ih =>
    obtain ⟨c, cs, hac, hcs, rfl⟩ := List.forall₂_cons_left_iff.mp hg
    obtain ⟨d, hbd, hcd⟩ := step _ _ c hab hac
    obtain ⟨ds, hbs, hds⟩ := ih hcs
    exact ⟨d :: ds, .cons hbd hbs, .cons hcd hds⟩

theorem optionRel_complete {a? : Option α} {b? : Option β} {c? : Option γ} (h : Option.Rel r a? b?)
    (hg : Option.Rel g a? c?) : ∃ d?, Option.Rel k b? d? ∧ Option.Rel q c? d? := by
  cases h with
  | none =>
    cases hg
    exact ⟨none, .none, .none⟩
  | some hab =>
    cases hg with
    | some hac =>
      obtain ⟨d, hbd, hcd⟩ := step _ _ _ hab hac
      exact ⟨some d, .some hbd, .some hcd⟩

end Completion

theorem map_eq_of_forall₂ {α β γ : Type} {f : α → γ} {g : β → γ} {as : List α} {bs : List β}
    (h : List.Forall₂ (fun a b => f a = g b) as bs) : as.map f = bs.map g := by
  induction h with
  | nil => rfl
  | cons hab _ ih => simp [hab, ih]

theorem keys_eq_of_forall₂ {K V W : Type} {r : K × V → K × W → Prop} {entries : List (K × V)}
    {fields : List (K × W)} (h : List.Forall₂ (fun e f => f.1 = e.1 ∧ r e f) entries fields) :
    fields.map Prod.fst = entries.map Prod.fst :=
  (map_eq_of_forall₂ (h.imp fun _ _ hef => hef.1.symm)).symm

namespace CastError

theorem rejected_eq_under {segment : String} {r : Rejection} {e : CastError}
    (h : .rejected r = e.under segment) :
    ∃ inner, e = .rejected inner ∧ r = inner.under segment := by
  cases e with
  | rejected inner => exact ⟨inner, rfl, rejected.inj h⟩
  | misused m => simp [under] at h

theorem eq_misused_of_under {segment : String} {m : Misuse} {e : CastError}
    (h : e.under segment = .misused m) : e = .misused m := by
  cases e with
  | rejected r => simp [under] at h
  | misused n => exact h

end CastError

namespace CastResult

@[simp]
theorem under_eq_ok {α : Type} (segment : String) (result : CastResult α) (a : α) :
    result.under segment = .ok a ↔ result = .ok a := by
  cases result <;> simp [under]

theorem under_eq_error {α : Type} (segment : String) (result : CastResult α) (e : CastError) :
    result.under segment = .error e ↔ ∃ inner, result = .error inner ∧ e = inner.under segment := by
  cases result <;> simp [under, eq_comm]

theorem accepted_eq_error {α : Type} {result : CastResult α} {m : Misuse} :
    result.accepted = .error m ↔ result = .error (.misused m) := by
  rcases result with (_ | _) | _ <;> simp [accepted]

end CastResult

namespace Caster

theorem castSequenceFrom_eq_mapM (child : Caster) (index : Nat) (vs : List Value) :
    castSequenceFrom child index vs =
      (vs.zipIdx index).mapM fun (v, i) => (child (some v)).under (indexText i) := by
  induction vs generalizing index with
  | nil => rfl
  | cons v vs ih => simp [castSequenceFrom, ih]

theorem castEntryValues_eq_mapM {K : Type} (child : Caster) (segment : K → String)
    (entries : List (K × Value)) :
    castEntryValues child segment entries =
      entries.mapM fun (key, v) => do
        return (key, ← (child (some v)).under (segment key)) := by
  induction entries with
  | nil => rfl
  | cons e entries ih => simp [castEntryValues, ih]

theorem castEntryKeys_eq_mapM (keys : Caster) (entries : List (Value × Value)) :
    castEntryKeys keys entries =
      entries.mapM fun (key, v) => do return (← castKey keys key, v) := by
  induction entries with
  | nil => rfl
  | cons e entries ih => simp [castEntryKeys, ih]

/-- Casts one present member. -/
def castPresentMember (declared : List (String × Caster)) :
    Value × Value → CastResult (String × Value)
  | (.text key, v) =>
    match declared? declared key with
    | none => reject (.extraKey (.text key))
    | some child => do return (key, ← (child (some v)).under key)
  | (key, _) => reject (.extraKey key)

theorem castPresent_eq_mapM (declared : List (String × Caster)) (entries : List (Value × Value)) :
    castPresent declared entries = entries.mapM (castPresentMember declared) := by
  induction entries with
  | nil => rfl
  | cons e entries ih =>
    obtain ⟨key, v⟩ := e
    cases key with
    | text key =>
      cases hd : declared? declared key with
      | none => simp [castPresent, castPresentMember, hd, reject, bind, Except.bind]
      | some child => simp [castPresent, castPresentMember, hd, ih]
    | _ => simp [castPresent, castPresentMember, reject, bind, Except.bind]

theorem castAbsent_eq_mapM (present : List String) (declared : List (String × Caster)) :
    castAbsent present declared =
      (declared.filter fun entry => !present.contains entry.1).mapM fun (key, child) => do
        return (key, ← castAbsentKey child key) := by
  induction declared with
  | nil => rfl
  | cons d declared ih =>
    obtain ⟨key, child⟩ := d
    by_cases h : key ∈ present <;> simp [castAbsent, h, ih]

theorem castSequence_eq_ok (child : Caster) (vs ws : List Value) :
    castSequence child vs = .ok ws ↔
      List.Forall₂ (fun v w => child (some v) = .ok w) vs ws := by
  rw [castSequence, castSequenceFrom_eq_mapM, mapM_eq_ok]
  simp only [CastResult.under_eq_ok]
  have h := List.forall₂_map_left_iff (f := Prod.fst) (R := fun v w => child (some v) = .ok w)
    (l := vs.zipIdx) (u := ws)
  rw [← h, List.zipIdx_map_fst]

theorem castEntryValues_eq_ok {K : Type} (child : Caster) (segment : K → String)
    (entries fields : List (K × Value)) :
    castEntryValues child segment entries = .ok fields ↔
      List.Forall₂ (fun e f => f.1 = e.1 ∧ child (some e.2) = .ok f.2) entries fields := by
  rw [castEntryValues_eq_mapM, mapM_eq_ok]
  simp only [except_bind_eq_ok, CastResult.under_eq_ok, except_pure_eq_ok, Prod.ext_iff]
  grind

@[simp]
theorem castKey_eq_ok (keys : Caster) (key k : Value) :
    castKey keys key = .ok k ↔ keys (some key) = .ok k := by
  unfold castKey
  split <;> simp_all [reject]

theorem castEntryKeys_eq_ok (keys : Caster) (entries renamed : List (Value × Value)) :
    castEntryKeys keys entries = .ok renamed ↔
      List.Forall₂ (fun e f => keys (some e.1) = .ok f.1 ∧ f.2 = e.2) entries renamed := by
  rw [castEntryKeys_eq_mapM, mapM_eq_ok]
  simp only [except_bind_eq_ok, castKey_eq_ok, except_pure_eq_ok, Prod.ext_iff]
  grind

theorem castPresentMember_eq_ok (declared : List (String × Caster)) (e : Value × Value)
    (f : String × Value) :
    castPresentMember declared e = .ok f ↔
      ∃ child, e.1 = .text f.1 ∧ declared? declared f.1 = some child ∧
        child (some e.2) = .ok f.2 := by
  obtain ⟨key, v⟩ := e
  obtain ⟨name, w⟩ := f
  cases key with
  | text key =>
    cases hd : declared? declared key with
    | none =>
      simp only [castPresentMember, hd, reject, reduceCtorEq, Value.text.injEq, false_iff]
      rintro ⟨child, rfl, hc, _⟩
      simp [hd] at hc
    | some child =>
      simp only [castPresentMember, hd, except_bind_eq_ok, CastResult.under_eq_ok,
        except_pure_eq_ok, Prod.mk.injEq, Value.text.injEq]
      constructor
      · rintro ⟨_, hw, rfl, rfl⟩
        exact ⟨child, rfl, hd, hw⟩
      · rintro ⟨c, rfl, hc, hw⟩
        rw [hd, Option.some.injEq] at hc
        subst c
        exact ⟨w, hw, rfl, rfl⟩
  | _ => simp [castPresentMember, reject]

theorem castPresent_eq_ok (declared : List (String × Caster)) (entries : List (Value × Value))
    (fields : List (String × Value)) :
    castPresent declared entries = .ok fields ↔
      List.Forall₂ (fun e f => ∃ child, e.1 = .text f.1 ∧ declared? declared f.1 = some child ∧
        child (some e.2) = .ok f.2) entries fields := by
  simp only [castPresent_eq_mapM, mapM_eq_ok, castPresentMember_eq_ok]

@[simp]
theorem castAbsentKey_eq_ok (child : Caster) (key : String) (w : Value) :
    castAbsentKey child key = .ok w ↔ child none = .ok w := by
  unfold castAbsentKey
  split <;> simp_all [reject]

theorem castAbsent_eq_ok (present : List String) (declared : List (String × Caster))
    (fields : List (String × Value)) :
    castAbsent present declared = .ok fields ↔
      List.Forall₂ (fun d f => f.1 = d.1 ∧ d.2 none = .ok f.2)
        (declared.filter fun entry => !present.contains entry.1) fields := by
  rw [castAbsent_eq_mapM, mapM_eq_ok]
  simp only [except_bind_eq_ok, castAbsentKey_eq_ok, except_pure_eq_ok, Prod.ext_iff]
  grind

/-- A failing sequence has a failing member, whose index comes in front of the path. -/
theorem castSequence_error {child : Caster} {vs : List Value} {e : CastError}
    (h : castSequence child vs = .error e) :
    ∃ i v inner, vs[i]? = some v ∧ child (some v) = .error inner ∧
      e = inner.under (indexText i) := by
  rw [castSequence, castSequenceFrom_eq_mapM] at h
  obtain ⟨⟨v, i⟩, hm, he⟩ := exists_error_of_mapM h
  obtain ⟨inner, hc, he⟩ := (CastResult.under_eq_error ..).mp he
  exact ⟨i, v, inner, List.mem_zipIdx_iff_getElem?.mp hm, hc, he⟩

theorem castEntryValues_error {K : Type} {child : Caster} {segment : K → String}
    {entries : List (K × Value)} {e : CastError}
    (h : castEntryValues child segment entries = .error e) :
    ∃ key v inner, (key, v) ∈ entries ∧ child (some v) = .error inner ∧
      e = inner.under (segment key) := by
  rw [castEntryValues_eq_mapM] at h
  obtain ⟨⟨key, v⟩, hm, he⟩ := exists_error_of_mapM h
  rw [except_bind_pure_eq_error, CastResult.under_eq_error] at he
  obtain ⟨inner, hc, he⟩ := he
  exact ⟨key, v, inner, hm, hc, he⟩

/-- A key fails as the caster of keys does, except that a rejection becomes the cause of one. -/
theorem castKey_error {keys : Caster} {key : Value} {e : CastError}
    (h : castKey keys key = .error e) :
    (∃ cause, keys (some key) = .error (.rejected cause) ∧
      e = .rejected (.invalidKey key cause)) ∨
    ∃ m, keys (some key) = .error (.misused m) ∧ e = .misused m := by
  unfold castKey at h
  cases hk : keys (some key) with
  | ok k => simp [hk] at h
  | error inner =>
    cases inner with
    | rejected cause =>
      simp only [hk, reject, Except.error.injEq] at h
      exact .inl ⟨cause, rfl, h.symm⟩
    | misused m =>
      simp only [hk, Except.error.injEq] at h
      exact .inr ⟨m, rfl, h.symm⟩

theorem castEntryKeys_error {keys : Caster} {entries : List (Value × Value)} {e : CastError}
    (h : castEntryKeys keys entries = .error e) :
    ∃ key v, (key, v) ∈ entries ∧ castKey keys key = .error e := by
  rw [castEntryKeys_eq_mapM] at h
  obtain ⟨⟨key, v⟩, hm, he⟩ := exists_error_of_mapM h
  rw [except_bind_pure_eq_error] at he
  exact ⟨key, v, hm, he⟩

/-- A present member fails because its key is not a declared text, or as its value does. -/
theorem castPresentMember_error {declared : List (String × Caster)} {key v : Value} {e : CastError}
    (h : castPresentMember declared (key, v) = .error e) :
    (e = .rejected (.extraKey key) ∧ ∀ name, key = .text name → declared? declared name = none) ∨
    ∃ name child inner, key = .text name ∧ declared? declared name = some child ∧
      child (some v) = .error inner ∧ e = inner.under name := by
  cases key with
  | text name =>
    cases hd : declared? declared name with
    | none =>
      simp only [castPresentMember, hd, reject, Except.error.injEq] at h
      refine .inl ⟨h.symm, ?_⟩
      rintro _ ⟨⟩
      exact hd
    | some child =>
      simp only [castPresentMember, hd, except_bind_pure_eq_error,
        CastResult.under_eq_error] at h
      obtain ⟨inner, hc, he⟩ := h
      exact .inr ⟨name, child, inner, rfl, hd, hc, he⟩
  | _ =>
    simp only [castPresentMember, reject, Except.error.injEq] at h
    exact .inl ⟨h.symm, by simp⟩

theorem castPresent_error {declared : List (String × Caster)} {entries : List (Value × Value)}
    {e : CastError} (h : castPresent declared entries = .error e) :
    ∃ key v, (key, v) ∈ entries ∧ castPresentMember declared (key, v) = .error e := by
  rw [castPresent_eq_mapM] at h
  obtain ⟨⟨key, v⟩, hm, he⟩ := exists_error_of_mapM h
  exact ⟨key, v, hm, he⟩

/-- The absence of a key fails as that of its value does, except that a missing value makes the
key missing. -/
theorem castAbsentKey_error {child : Caster} {key : String} {e : CastError}
    (h : castAbsentKey child key = .error e) :
    (∃ path, child none = .error (.rejected ⟨path, .missingValue⟩) ∧
      e = .rejected (.missingKey key)) ∨
    ∃ inner, child none = .error inner ∧ (∀ path, inner ≠ .rejected ⟨path, .missingValue⟩) ∧
      e = inner.under key := by
  unfold castAbsentKey at h
  split at h
  · rename_i path hc
    simp only [reject, Except.error.injEq] at h
    exact .inl ⟨path, hc, h.symm⟩
  · rename_i hn
    obtain ⟨inner, hc, he⟩ := (CastResult.under_eq_error ..).mp h
    refine .inr ⟨inner, hc, ?_, he⟩
    rintro path rfl
    exact hn path hc

theorem castAbsent_error {present : List String} {declared : List (String × Caster)}
    {e : CastError} (h : castAbsent present declared = .error e) :
    ∃ key child, (key, child) ∈ declared ∧ key ∉ present ∧ castAbsentKey child key = .error e := by
  rw [castAbsent_eq_mapM] at h
  obtain ⟨⟨key, child⟩, hm, he⟩ := exists_error_of_mapM h
  rw [except_bind_pure_eq_error] at he
  obtain ⟨hm, hp⟩ := List.mem_filter.mp hm
  exact ⟨key, child, hm, by simpa using hp, he⟩

end Caster

end SchemaCast
