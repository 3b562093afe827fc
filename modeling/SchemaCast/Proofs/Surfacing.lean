import SchemaCast.Proofs.Traced

namespace SchemaCast

/-- A call that ends in a misuse is the last one and gives the outcome, and a misuse that is the
outcome comes from a call. -/
structure Surfaces (calls : List Call) (outcome : Misuse → Prop) : Prop where
  last : ∀ before c after m, calls = before ++ c :: after → c.result = .error (.misused m) →
    after = [] ∧ outcome m
  source : ∀ m, outcome m → ∃ c ∈ calls, c.result = .error (.misused m)

namespace CastResult

theorem ofTest_eq_misused {α : Type} {result : Except Misuse α} {m : Misuse} :
    ofTest result = .error (.misused m) ↔ result = .error m := by
  cases result <;> simp [ofTest, Except.mapError]

end CastResult

namespace Surfaces

variable {calls more : List Call} {outcome final : Misuse → Prop}

theorem nil (h : ∀ m, ¬outcome m) : Surfaces [] outcome :=
  ⟨by simp, fun m hm => absurd hm (h m)⟩

theorem congr (h : Surfaces calls outcome) (he : ∀ m, outcome m ↔ final m) :
    Surfaces calls final :=
  ⟨fun before c after m hc hm => (h.last before c after m hc hm).imp_right (he m).mp,
    fun m hm => h.source m ((he m).mpr hm)⟩

/-- Calls can be followed by others if they have not ended in a misuse. -/
theorem append (h : Surfaces calls outcome) (hn : ∀ m, ¬outcome m) (hm : Surfaces more final) :
    Surfaces (calls ++ more) final := by
  constructor
  · intro before c after m hsplit hc
    rcases List.append_eq_append_iff.mp hsplit with ⟨rest, _, hmore⟩ | ⟨rest, hcalls, hrest⟩
    · exact hm.last rest c after m hmore hc
    · cases rest with
      | nil => exact hm.last [] c after m hrest.symm hc
      | cons d rest =>
        obtain ⟨rfl, _⟩ := List.cons.inj hrest
        exact absurd (h.last before c rest m hcalls hc).2 (hn m)
  · intro m hfinal
    obtain ⟨c, hc, he⟩ := hm.source m hfinal
    exact ⟨c, List.mem_append_right _ hc, he⟩

end Surfaces

namespace Traced

variable {α β γ δ : Type}

/-- A traced computation has the result of the plain one, and misuses surface in it. -/
structure Follows (x : Traced α) (r : CastResult α) : Prop where
  result : x.result = r
  surfaces : Surfaces x.calls (fun m => r = .error (.misused m))

theorem follows_of {r : CastResult α} (h : ∀ m, r ≠ .error (.misused m)) : (of r).Follows r :=
  ⟨rfl, .nil h⟩

theorem follows_pure (a : α) : (pure a : Traced α).Follows (pure a) :=
  follows_of (by simp)

theorem follows_reject (r : Rejection) : (of (reject r) : Traced α).Follows (reject r) :=
  follows_of (by simp [reject])

theorem follows_call (c : Call) : Traced.Follows ⟨[c], c.result⟩ c.result := by
  refine ⟨rfl, ?_, fun m hm => ⟨c, List.mem_singleton_self c, hm⟩⟩
  intro before d after m hsplit hd
  obtain ⟨rfl, rfl, rfl⟩ : before = [] ∧ d = c ∧ after = [] := by
    cases before <;> simp_all
  exact ⟨rfl, hd⟩

theorem Follows.convert {x : Traced α} {r : CastResult α} {f : CastResult α → CastResult β}
    (h : x.Follows r) (hf : ∀ m, r = .error (.misused m) ↔ f r = .error (.misused m)) :
    (x.convert f).Follows (f r) :=
  ⟨congrArg f h.result, h.surfaces.congr hf⟩

theorem Follows.under {x : Traced α} {r : CastResult α} (h : x.Follows r) (segment : String) :
    (x.under segment).Follows (r.under segment) := by
  refine h.convert fun m => ?_
  rcases r with (_ | _) | _ <;> simp [CastResult.under, CastError.under]

theorem Follows.accepted {x : Traced α} {r : CastResult α} (h : x.Follows r) :
    x.accepted.Follows (.ofTest r.accepted) := by
  refine h.convert fun m => ?_
  rw [CastResult.ofTest_eq_misused, CastResult.accepted_eq_error]

/-- What follows may depend on the result in any way, as long as a misuse is passed on. -/
theorem Follows.handle {x : Traced α} {r : CastResult α} {next : CastResult α → Traced β}
    {s : CastResult β} (h : x.Follows r)
    (hn : (∀ m, r ≠ .error (.misused m)) → (next r).Follows s)
    (hm : ∀ m, r = .error (.misused m) →
      next r = of (.error (.misused m)) ∧ s = .error (.misused m)) :
    (x.handle next).Follows s := by
  obtain ⟨rfl, hs⟩ := h
  by_cases hr : ∃ m, x.result = .error (.misused m)
  · obtain ⟨m, hr⟩ := hr
    obtain ⟨hnext, rfl⟩ := hm m hr
    rw [Traced.handle, hnext]
    refine ⟨rfl, ?_⟩
    simpa [of, hr] using hs
  · have hr (m : Misuse) : x.result ≠ .error (.misused m) := fun h => hr ⟨m, h⟩
    obtain ⟨hresult, hsurfaces⟩ := hn hr
    exact ⟨hresult, hs.append hr hsurfaces⟩

theorem Follows.bind {x : Traced α} {r : CastResult α} {f : α → Traced β} {g : α → CastResult β}
    (h : x.Follows r) (hf : ∀ a, (f a).Follows (g a)) : (x >>= f).Follows (r >>= g) := by
  refine h.handle (fun hr => ?_) ?_
  · rcases r with (e | m) | a
    · exact follows_reject e
    · exact absurd rfl (hr m)
    · exact hf a
  · rintro m rfl
    exact ⟨rfl, rfl⟩

theorem Follows.map {x : Traced α} {r : CastResult α} (h : x.Follows r) (f : α → β) :
    (x >>= fun a => pure (f a)).Follows (r >>= fun a => pure (f a)) :=
  h.bind fun a => follows_pure (f a)

/-- A traversal goes on as long as no misuse comes up. -/
theorem Follows.mapM {f : α → Traced β} {g : γ → CastResult β} {xs : List α} {ys : List γ}
    (h : List.Forall₂ (fun x y => (f x).Follows (g y)) xs ys) :
    (xs.mapM f).Follows (ys.mapM g) := by
  induction h with
  | nil => exact follows_pure []
  | cons hx _ ih =>
    rw [List.mapM_cons, List.mapM_cons]
    exact hx.bind fun b => ih.map fun bs => b :: bs

theorem Follows.mapM_same {f : α → Traced β} {g : α → CastResult β}
    (h : ∀ x, (f x).Follows (g x)) (xs : List α) : (xs.mapM f).Follows (xs.mapM g) :=
  .mapM (List.forall₂_same.mpr fun x _ => h x)

end Traced

namespace TracedCaster

open Traced

def Follows (t : TracedCaster) (c : Caster) : Prop := ∀ input, (t input).Follows (c input)

variable {child : TracedCaster} {c : Caster}

theorem Follows.castSequence (h : child.Follows c) (vs : List Value) :
    (child.castSequence vs).Follows (c.castSequence vs) := by
  rw [Caster.castSequence, Caster.castSequenceFrom_eq_mapM]
  refine .mapM_same ?_ _
  rintro ⟨v, i⟩
  exact (h (some v)).under _

theorem Follows.castEntryValues {K : Type} (h : child.Follows c) (segment : K → String)
    (entries : List (K × Value)) :
    (child.castEntryValues segment entries).Follows (c.castEntryValues segment entries) := by
  rw [Caster.castEntryValues_eq_mapM]
  refine .mapM_same ?_ _
  rintro ⟨key, v⟩
  exact ((h (some v)).under _).map fun w => (key, w)

theorem Follows.castMembers (h : child.Follows c) (v : Value) :
    (child.castMembers v).Follows (c.castMembers v) := by
  cases v with
  | list vs => exact (h.castSequence vs).map Value.list
  | set vs => exact (h.castSequence vs).map Value.ofMembers
  | record m => exact (h.castEntryValues id m.entries).map Value.ofFields
  | map m => exact (h.castEntryValues Value.display m.entries).map Value.ofEntries
  | _ => exact follows_reject _

theorem Follows.sequence (h : child.Follows c) : child.sequence.Follows c.sequence := by
  intro input
  cases input with
  | none => exact follows_reject _
  | some v =>
    cases v with
    | list vs => exact (h.castSequence vs).map Value.list
    | set vs => exact (h.castSequence vs).map Value.list
    | _ => exact follows_reject _

theorem Follows.castKey (h : child.Follows c) (key : Value) :
    (child.castKey key).Follows (c.castKey key) := by
  refine (h (some key)).convert fun m => ?_
  rcases c (some key) with (_ | _) | _ <;> simp [reject]

theorem Follows.castEntryKeys (h : child.Follows c) (entries : List (Value × Value)) :
    (child.castEntryKeys entries).Follows (c.castEntryKeys entries) := by
  rw [Caster.castEntryKeys_eq_mapM]
  refine .mapM_same ?_ _
  rintro ⟨key, v⟩
  exact (h.castKey key).map fun k => (k, v)

theorem Follows.rename (h : child.Follows c) (v : Value) :
    (child.rename v).Follows (c.rename v) := by
  cases v with
  | record m => exact (h.castEntryKeys _).map fun es => Value.ofFields (Caster.displayKeyed es)
  | map m => exact (h.castEntryKeys _).map Value.ofEntries
  | _ => exact follows_reject _

theorem anyOf_follows {ts : List TracedCaster} {cs : List Caster}
    (h : List.Forall₂ Follows ts cs) : (anyOf ts).Follows (Caster.anyOf cs) := by
  induction h with
  | nil => exact fun input => follows_reject _
  | @cons t c ts cs ht _ ih =>
    intro input
    unfold Caster.anyOf
    refine (ht input).handle (fun hr => ?_) fun m hm => ?_
    · rcases hc : c input with (e | m) | a
      · exact ih input
      · exact absurd hc (hr m)
      · exact follows_pure a
    · rw [hm]
      exact ⟨rfl, rfl⟩

section Declared

variable {traced : List (String × TracedCaster)} {declared : List (String × Caster)}

/-- The same keys are declared, and the casters follow each other. -/
abbrev FieldsFollow (traced : List (String × TracedCaster)) (declared : List (String × Caster)) :
    Prop :=
  OrderedMap.Related Follows traced declared

theorem FieldsFollow.castPresentMember (h : FieldsFollow traced declared) (e : Value × Value) :
    (castPresentMember traced e).Follows (Caster.castPresentMember declared e) := by
  obtain ⟨key, v⟩ := e
  cases key with
  | text key =>
    have hd : Option.Rel Follows (declared? traced key) (Caster.declared? declared key) :=
      h.lookup key
    unfold TracedCaster.castPresentMember Caster.castPresentMember
    dsimp only
    generalize TracedCaster.declared? traced key = t? at hd
    generalize Caster.declared? declared key = d? at hd
    cases hd with
    | none => exact follows_reject _
    | some hfollows =>
      exact ((hfollows (some v)).under key).map fun w => (key, w)
  | _ => exact follows_reject _

theorem Follows.castAbsentKey (h : child.Follows c) (key : String) :
    (child.castAbsentKey key).Follows (c.castAbsentKey key) := by
  refine (h none).convert fun m => ?_
  rcases c none with (⟨path, _ | _ | _ | _ | _⟩ | _) | _ <;>
    simp [reject, CastResult.under, CastError.under]

theorem FieldsFollow.castAbsent (h : FieldsFollow traced declared) (present : List String) :
    (castAbsent present traced).Follows (Caster.castAbsent present declared) := by
  rw [Caster.castAbsent_eq_mapM]
  apply Follows.mapM
  refine (h.filter fun key => !present.contains key).imp ?_
  rintro ⟨key, t⟩ ⟨_, d⟩ ⟨rfl, hfollows⟩
  exact (hfollows.castAbsentKey key).map fun w => (key, w)

theorem FieldsFollow.castDeclared (h : FieldsFollow traced declared)
    (entries : List (Value × Value)) :
    (castDeclared traced entries).Follows (Caster.castDeclared declared entries) := by
  rw [Caster.castDeclared, Caster.castPresent_eq_mapM]
  refine (Follows.mapM_same h.castPresentMember entries).bind fun present => ?_
  exact (h.castAbsent (present.map Prod.fst)).map fun absent => present ++ absent

theorem FieldsFollow.entries (h : FieldsFollow traced declared) :
    (entries traced).Follows (Caster.entries declared) := by
  intro input
  cases input with
  | none => exact follows_reject _
  | some v =>
    cases v with
    | record m => exact (h.castDeclared _).map Value.ofFields
    | map m => exact (h.castDeclared _).map fun fs => Value.ofEntries (Caster.textKeyed fs)
    | _ => exact follows_reject _

end Declared

end TracedCaster

namespace Rules

open Traced

variable {rules : Rules} {tcast : TracedCaster} {cast : Caster} {ttest : Value → Traced Bool}
  {test : Value → Except Misuse Bool} {tkeys tmembers : Value → Traced Value}
  {keys members : Value → CastResult Value}

theorem traceType_follows (hcast : tcast.Follows cast)
    (htest : ∀ v, (ttest v).Follows (.ofTest (test v))) (v : Value) :
    (rules.traceType tcast ttest v).Follows (rules.throughType cast test v) := by
  unfold traceType throughType
  cases rules.casts with
  | true => exact hcast (some v)
  | false =>
    have hbranch (b : Bool) :
        (if b then pure v else of (reject (.invalidValue v)) : Traced Value).Follows
          (if b then .ok v else reject (.invalidValue v)) := by
      cases b with
      | true => exact follows_pure v
      | false => exact follows_reject _
    have h := (htest v).bind hbranch
    cases ht : test v with
    | error m => rw [ht] at h; exact h
    | ok b => rw [ht] at h; cases b <;> exact h

theorem check_follows (predicates : List Predicate) (v : Value) :
    (of (check predicates v)).Follows (check predicates v) := by
  refine follows_of fun m hm => ?_
  have he := eq_of_check_error hm
  simp at he

theorem trace_follows (hcast : tcast.Follows cast)
    (htest : ∀ v, (ttest v).Follows (.ofTest (test v)))
    (hkeys : ∀ v, (tkeys v).Follows (keys v)) (hmembers : ∀ v, (tmembers v).Follows (members v)) :
    (rules.trace tcast ttest tkeys tmembers).Follows (rules.apply cast test keys members) := by
  intro input
  unfold trace apply
  cases rules.given? input with
  | none =>
    cases rules.optional with
    | true => exact follows_pure Value.null
    | false => exact follows_reject .missingValue
  | some v =>
    refine (traceType_follows hcast htest v).bind fun typed => ?_
    refine (check_follows _ typed).bind fun _ => ?_
    refine (hkeys typed).bind fun keyed => ?_
    refine (hmembers keyed).bind fun w => ?_
    exact (check_follows _ w).map fun _ => w

end Rules

namespace BaseType

open Traced

theorem trace_follows (type : BaseType) : type.trace.Follows type.cast := by
  intro input
  unfold trace
  cases hc : type.coerce? with
  | none => exact follows_call ⟨type, input⟩
  | some coerce =>
    cases input with
    | none =>
      have hcast : type.cast none = reject .missingValue := by simp only [cast, hc]
      rw [hcast]
      exact follows_reject .missingValue
    | some v => exact follows_call ⟨type, some v⟩

theorem traceTest_follows (type : BaseType) (v : Value) :
    (type.traceTest v).Follows (.ofTest (type.test v)) := by
  unfold traceTest test
  cases type.test? with
  | some holds => exact follows_pure (holds v)
  | none => exact (type.trace_follows (some v)).accepted

end BaseType

namespace Descriptor

open Traced TracedCaster

theorem traceTestBy_follows {t : TracedCaster} {c : Caster} (h : t.Follows c) (d : Descriptor)
    (v : Value) : (traceTestBy t d v).Follows (.ofTest (testBy c d v)) := by
  cases d with
  | base type => exact type.traceTest_follows v
  | _ => exact (h (some v)).accepted

-- One statement for each of the mutually recursive functions that make up a cast.
mutual

theorem trace_follows : ∀ d : Descriptor, d.trace.Follows d.cast
  | base type => by
    rw [trace, cast]
    exact type.trace_follows
  | validator type rules keys? contents => by
    rw [trace, cast]
    have htype := trace_follows type
    exact Rules.trace_follows htype (traceTestBy_follows htype type) (traceKeys_follows keys?)
      (traceContents_follows contents)
  | sequence child => by
    rw [trace, cast]
    exact (trace_follows child).sequence
  | entries ⟨children⟩ => by
    rw [trace, cast]
    exact (traceFields_follow children).entries
  | anyOf alternatives => by
    rw [trace, cast]
    exact anyOf_follows (traceAll_follow alternatives)

theorem traceAll_follow : ∀ ds : List Descriptor,
    List.Forall₂ TracedCaster.Follows (traceAll ds) (castAll ds)
  | [] => .nil
  | d :: ds => .cons (trace_follows d) (traceAll_follow ds)

theorem traceFields_follow : ∀ ds : List (String × Descriptor),
    FieldsFollow (traceFields ds) (castFields ds)
  | [] => .nil
  | (_, d) :: ds => .cons ⟨rfl, trace_follows d⟩ (traceFields_follow ds)

theorem traceKeys_follows : ∀ (keys? : Option Descriptor) (v : Value),
    (traceKeys keys? v).Follows (castKeys keys? v)
  | none, v => by
    rw [traceKeys, castKeys]
    exact follows_pure v
  | some keys, v => by
    rw [traceKeys, castKeys]
    exact (trace_follows keys).rename v

theorem traceContents_follows : ∀ (contents : Contents Descriptor) (v : Value),
    (traceContents contents v).Follows (castContents contents v)
  | .any, v => by
    rw [traceContents, castContents]
    exact follows_pure v
  | .each child, v => by
    rw [traceContents, castContents]
    exact (trace_follows child).castMembers v
  | .declared ⟨children⟩, v => by
    rw [traceContents, castContents]
    exact (traceFields_follow children).entries (some v)

end

/-- Whatever a descriptor is made of, a misuse by a call is the last call of a cast or test and its
whole outcome, and there are no other misuses. -/
theorem misuse_surfaces (d : Descriptor) :
    (∀ input, (d.trace input).result = d.cast input ∧
      Surfaces (d.trace input).calls fun m => d.cast input = .error (.misused m)) ∧
    (∀ v, (d.traceTest v).result = .ofTest (d.test v) ∧
      Surfaces (d.traceTest v).calls fun m => d.test v = .error m) ∧
    ∀ input, Surfaces (d.trace input).calls fun m => d.accepts input = .error m := by
  have hcast (input : Option Value) := trace_follows d input
  have htest (v : Value) : (d.traceTest v).Follows (.ofTest (d.test v)) :=
    traceTestBy_follows (trace_follows d) d v
  refine ⟨fun input => ⟨(hcast input).result, (hcast input).surfaces⟩, fun v => ?_,
    fun input => (hcast input).surfaces.congr fun m => ?_⟩
  · exact ⟨(htest v).result, (htest v).surfaces.congr fun m => CastResult.ofTest_eq_misused⟩
  · exact CastResult.accepted_eq_error.symm

/-- The second alternative is misused, so the third one is not tried. -/
example :
    let broken : BaseType := ⟨"broken", none, some fun _ => .error (.misused (.unknownType "part"))⟩
    ((anyOf [base Builtin.number.type, base broken, base Builtin.text.type]).trace
      (some (.text "x"))).calls.map (·.type.name) = ["number", "broken"] := by
  rfl

end Descriptor

end SchemaCast
