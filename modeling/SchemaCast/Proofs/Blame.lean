import SchemaCast.Proofs.Builtin
import SchemaCast.Proofs.Compile
import SchemaCast.Proofs.FixedPoint

namespace SchemaCast

namespace Value

/-- A path leads from a container to a value inside. -/
inductive Reaches : List String → Value → Value → Prop where
  | here (v : Value) : Reaches [] v v
  | into {segment : String} {path : List String} {v m u : Value} (first : v.At segment m)
      (rest : Reaches path m u) : Reaches (segment :: path) v u

end Value

namespace Descriptor

/-- The descriptor of keys. -/
def keys? : Descriptor → Option Descriptor
  | validator _ _ keys? _ => keys?
  | _ => none

/-- The descriptor of a declared entry. -/
def entryOf? : Descriptor → String → Option Descriptor
  | validator _ _ _ (.declared children), name => children.get? name
  | _, _ => none

/-- The descriptor of the member at a segment. -/
def child? : Descriptor → String → Option Descriptor
  | validator _ _ _ (.each child), _ => some child
  | d, segment => d.entryOf? segment

def follow? (d : Descriptor) : List String → Option Descriptor
  | [] => some d
  | segment :: path => (d.child? segment).bind fun c => c.follow? path

def isOptional : Descriptor → Bool
  | validator _ rules _ _ => rules.optional
  | _ => false

/-- What a fault says about the value and the descriptor that it is reported for. -/
def Explains (d : Descriptor) (v : Value) : Fault Rejection → Prop
  | .invalidValue _ => True
  | .missingValue => v = .null
  | .extraKey key =>
    v.HasKeys ∧ key ∈ v.keyed.map Prod.fst ∧ ∀ name, key = .text name → d.entryOf? name = none
  | .missingKey key =>
    v.HasKeys ∧ key ∉ v.keyed.map Prod.fst ∧
      ∃ name c, key = .text name ∧ d.entryOf? name = some c ∧ c.isOptional = false
  | .invalidKey key cause =>
    v.HasKeys ∧ key ∈ v.keyed.map Prod.fst ∧
      ∃ keys, d.keys? = some keys ∧ keys.cast (some key) = .error (.rejected cause)

/-- The path of the rejection leads to a value and a descriptor for which the fault is true. -/
def BearsOut (d : Descriptor) (v : Value) (r : Rejection) : Prop :=
  ∃ u c, v.Reaches r.path u ∧ d.follow? r.path = some c ∧
    c.cast (some u) = .error (.rejected ⟨[], r.fault⟩) ∧ c.Explains u r.fault

theorem BearsOut.here {d : Descriptor} {v : Value} {r : Rejection}
    (h : d.cast (some v) = .error (.rejected r)) (hpath : r.path = [])
    (hfault : d.Explains v r.fault) : d.BearsOut v r := by
  obtain ⟨path, fault⟩ := r
  subst hpath
  exact ⟨v, d, .here v, rfl, h, hfault⟩

theorem BearsOut.below {d c : Descriptor} {v m : Value} {r : Rejection} {segment : String}
    (hm : v.At segment m) (hc : d.child? segment = some c) (h : c.BearsOut m r) :
    d.BearsOut v (r.under segment) := by
  obtain ⟨u, e, hreach, hfollow, hcast, hfault⟩ := h
  refine ⟨u, e, .into hm hreach, ?_, hcast, hfault⟩
  change (d.child? segment).bind _ = _
  rw [hc]
  exact hfollow

theorem child?_of_entryOf? {d c : Descriptor} {name : String} (h : d.entryOf? name = some c) :
    d.child? name = some c := by
  cases d with
  | validator type rules keys? contents =>
    cases contents with
    | declared children => exact h
    | _ => simp [entryOf?] at h
  | _ => simp [entryOf?] at h

section Stages

variable {type : Descriptor} {rules : Rules} {keys? : Option Descriptor}
  {contents : Contents Descriptor} {v : Value} {r : Rejection}

theorem castKeys_rejected (h : castKeys keys? v = .error (.rejected r)) :
    r.path = [] ∧ (validator type rules keys? contents).Explains v r.fault := by
  cases keys? with
  | none => simp [castKeys_none] at h
  | some keys =>
    rw [castKeys_some] at h
    rcases Caster.rename_error h with he | ⟨hv, key, hkey, he⟩
    · obtain rfl : r = .invalidValue v := CastError.rejected.inj he
      exact ⟨rfl, trivial⟩
    · rcases Caster.castKey_error he with ⟨cause, hc, he⟩ | ⟨m, _, he⟩
      · obtain rfl : r = .invalidKey key cause := CastError.rejected.inj he
        exact ⟨rfl, hv, hkey, keys, rfl, hc⟩
      · simp at he

/-- A rejection is for the value itself, or comes from the member at a segment. -/
inductive Located (d : Descriptor) (v : Value) : Rejection → Prop where
  | here {r : Rejection} (itself : r.path = []) (explained : d.Explains v r.fault) : Located d v r
  | member {segment : String} {u : Value} {c : Descriptor} {inner : Rejection}
      (stands : v.At segment u) (child : d.child? segment = some c)
      (failed : c.cast (some u) = .error (.rejected inner)) : Located d v (inner.under segment)

/-- Nothing else can be wrong with an absent value than that it is missing. -/
def OnlyMisses (d : Descriptor) : Prop :=
  ∀ e, d.cast none = .error e → e = .rejected .missingValue ∧ d.isOptional = false

theorem members_located {child : Descriptor}
    (h : Caster.castMembers child.cast v = .error (.rejected r)) :
    (validator type rules keys? (.each child)).Located v r := by
  rcases Caster.castMembers_error h with he | ⟨segment, u, e, hu, hc, he⟩
  · obtain rfl : r = .invalidValue v := CastError.rejected.inj he
    exact .here rfl trivial
  · obtain ⟨inner, rfl, rfl⟩ := CastError.rejected_eq_under he
    exact .member hu rfl hc

theorem entries_located {children : OrderedMap String Descriptor}
    (hunique : OrderedMap.Unique children.entries)
    (habsent : ∀ name c, children.get? name = some c → c.OnlyMisses)
    (h : Caster.entries (castFields children.entries) (some v) = .error (.rejected r)) :
    (validator type rules keys? (.declared children)).Located v r := by
  have lookup {name : String} {caster : Caster}
      (hd : Caster.declared? (castFields children.entries) name = some caster) :
      ∃ c, children.get? name = some c ∧ caster = c.cast := by
    rw [declared?_castFields] at hd
    obtain ⟨c, hg, he⟩ := Option.map_eq_some_iff.mp hd
    exact ⟨c, hg, he.symm⟩
  rcases Caster.entries_error h with he | ⟨hv, hd⟩
  · obtain rfl : r = .invalidValue v := CastError.rejected.inj he
    exact .here rfl trivial
  rcases Caster.castDeclared_error hd with ⟨key, u, hm, hp⟩ | ⟨name, caster, hm, hk, ha⟩
  · rcases Caster.castPresentMember_error hp with ⟨he, hn⟩ | ⟨name, caster, e, rfl, hd, hc, he⟩
    · obtain rfl : r = .extraKey key := CastError.rejected.inj he
      refine .here rfl ⟨hv, List.mem_map_of_mem hm, fun name hname => ?_⟩
      have hnone := hn name hname
      rw [declared?_castFields] at hnone
      exact Option.map_eq_none_iff.mp hnone
    · obtain ⟨c, hg, rfl⟩ := lookup hd
      obtain ⟨inner, rfl, rfl⟩ := CastError.rejected_eq_under he
      exact .member (hv.at_of_mem hm) hg hc
  · -- The absent key has one declaration only, so that the caster that failed is the declared one.
    have hu : OrderedMap.Unique (castFields children.entries) :=
      hunique.of_keys (keys_castFields children)
    obtain ⟨c, hg, rfl⟩ := lookup (Caster.declared?_eq_some hu hm)
    rcases Caster.castAbsentKey_error ha with ⟨path, hc, he⟩ | ⟨e, hc, hne, _⟩
    · obtain rfl : r = .missingKey name := CastError.rejected.inj he
      exact .here rfl ⟨hv, hk, name, c, rfl, hg, (habsent name c hg _ hc).2⟩
    · exact absurd (habsent name c hg e hc).1 (hne [])

theorem castContents_located
    (hunique : ∀ children, contents = .declared children → OrderedMap.Unique children.entries)
    (habsent : ∀ name c, (validator type rules keys? contents).entryOf? name = some c →
      c.OnlyMisses)
    (h : castContents contents v = .error (.rejected r)) :
    (validator type rules keys? contents).Located v r := by
  cases contents with
  | any => simp [castContents_any] at h
  | each child =>
    rw [castContents_each] at h
    exact members_located h
  | declared children =>
    rw [castContents_declared] at h
    exact entries_located (hunique children rfl) habsent h

end Stages

end Descriptor

namespace Schema

/-- A schema that neither coerces its value nor looks inside. -/
structure OnlyTests (s : Schema) : Prop where
  tests : s.rules.casts = false
  noKeys : s.keys? = none
  noValues : s.values? = none
  noEntries : s.entries? = none

/-- The type is builtin, nothing stands in for an absent value, and keys are only tested. -/
structure TestsKeys (s : Schema) : Prop where
  builtin : ∃ b, s.type = .builtin b
  noDefault : s.rules.default? = none
  keys : ∀ k, s.keys? = some (.declared k) → k.OnlyTests

variable {s : Schema} {d : Descriptor}

theorem OnlyTests.eq_of_cast (ht : s.OnlyTests) (hs : s.compile = .ok d) {v w : Value}
    (h : d.cast (some v) = .ok w) : w = v := by
  obtain ⟨keys?, contents, rfl, _, hkeys, hcontents⟩ := compile_ok hs
  rw [Descriptor.cast_validator] at h
  refine Rules.eq_of_apply ht.tests (fun k hk => ?_) (fun m hm => ?_) h
  · cases hkeys with
    | none => exact Descriptor.eq_of_castKeys_none hk
    | some given => simp [ht.noKeys] at given
  · cases hcontents with
    | any => exact Descriptor.eq_of_castContents_any hm
    | each given => simp [ht.noValues] at given
    | declared _ given => simp [ht.noEntries] at given

theorem onlyMisses (hs : s.compile = .ok d) (hd : s.rules.default? = none) : d.OnlyMisses := by
  intro e h
  have hnone := Rules.given?_absent hd
  obtain ⟨keys?, contents, rfl, _, _, _⟩ := compile_ok hs
  rw [Descriptor.cast_validator] at h
  cases Rules.apply_error h with
  | missing _ required => exact ⟨rfl, required⟩
  | type given => simp [hnone] at given
  | check given => simp [hnone] at given
  | keys given => simp [hnone] at given
  | members given => simp [hnone] at given
  | contentCheck given => simp [hnone] at given

theorem ContentsCompiled.unique {contents : Contents Descriptor} (h : s.ContentsCompiled contents)
    {children : OrderedMap String Descriptor} (he : contents = .declared children) :
    OrderedMap.Unique children.entries := by
  cases h with
  | any _ _ => simp at he
  | each _ _ _ _ => simp at he
  | declared _ _ _ _ =>
    obtain rfl := Contents.declared.inj he
    exact OrderedMap.unique_ofList _

/-- The descriptors of members are compiled from the schemas inside. -/
theorem ContentsCompiled.child?_compiled {contents : Contents Descriptor}
    (h : s.ContentsCompiled contents) {inner : List Schema}
    (declared : s.nested = inner.map .declared) {type c : Descriptor} {rules : Rules}
    {keys? : Option Descriptor} {segment : String}
    (hc : (Descriptor.validator type rules keys? contents).child? segment = some c) :
    ∃ t ∈ inner, t.compile = .ok c := by
  have compiled : ∃ n ∈ s.nested, compileNested n = .ok c := by
    cases h with
    | any => simp [Descriptor.child?, Descriptor.entryOf?] at hc
    | @each n child given _ _ compiled =>
      obtain rfl : child = c := Option.some.inj hc
      exact ⟨n, values_mem_nested given, compiled⟩
    | declared _ given _ compiled =>
      obtain ⟨n, hl, hn⟩ := get?_compileFields compiled hc
      exact ⟨n, entry_mem_nested given (lastDeclared?_mem hl), hn⟩
  obtain ⟨n, hn, hcompiled⟩ := compiled
  obtain ⟨t, ht, rfl⟩ := mem_of_nested declared hn
  exact ⟨t, ht, hcompiled⟩

/-- Options for keys and members leave a value of the type as it is. -/
theorem typed_eq {keys? : Option Descriptor} {contents : Contents Descriptor}
    (hkeys : s.KeysCompiled keys?) (hcontents : s.ContentsCompiled contents)
    (hcastable : s.rules.casts = true → s.type.descriptor.isCastable = true)
    (hoption : ¬(keys? = none ∧ contents = .any)) {v typed : Value}
    (h : s.rules.throughType s.type.descriptor.cast s.type.descriptor.test v = .ok typed) :
    typed = v := by
  obtain ⟨b, htype, hb, _⟩ := (bare_or_container hkeys hcontents).resolve_left hoption
  have hcasts := SchemaType.casts_of_container htype hb hcastable
  rcases Rules.throughType_ok h with ⟨hc, _⟩ | ⟨_, _, ht⟩
  · simp [hcasts] at hc
  · exact ht

theorem keyed_eq {keys? : Option Descriptor} (hkeys : s.KeysCompiled keys?)
    (htests : ∀ n, s.keys? = some n → ∃ k, n = .declared k ∧ k.OnlyTests) {v w : Value}
    (hu : v.HasUniqueKeys) (h : Descriptor.castKeys keys? v = .ok w) : w = v := by
  cases hkeys with
  | none _ => exact Descriptor.eq_of_castKeys_none h
  | @some n keys given _ compiled =>
    obtain ⟨k, rfl, hk⟩ := htests n given
    rw [Descriptor.castKeys_some] at h
    refine Caster.eq_of_rename hu ?_ h
    intro e _ w hw
    exact hk.eq_of_cast compiled hw

/-- Where a cast rejects a value, the path of the rejection leads to a value inside that is rejected
there, for a fault that it has. -/
theorem bearsOut_of_rejected (hs : s.Everywhere TestsKeys) (hc : s.compile = .ok d) {v : Value}
    (hv : v.Throughout Value.HasUniqueKeys) {r : Rejection}
    (h : d.cast (some v) = .error (.rejected r)) : d.BearsOut v r := by
  induction hs generalizing d v r with
  | @intro s inner declared here below ih =>
    obtain ⟨b, htype⟩ := here.builtin
    obtain ⟨keys?, contents, rfl, hcastable, hkeys, hcontents⟩ := compile_ok hc
    have hcast := h
    rw [Descriptor.cast_validator] at h
    cases Rules.apply_error h with
    | missing absent _ => exact .here hcast rfl (Rules.eq_null_of_given? absent)
    | check _ _ => exact .here hcast rfl trivial
    | contentCheck _ _ _ _ => exact .here hcast rfl trivial
    | type given failed =>
      rcases Rules.throughType_error failed with ⟨_, hc⟩ | ⟨_, he⟩ | ⟨_, m, _, he⟩
      · rw [htype] at hc
        obtain rfl := Builtin.cast_rejected (Descriptor.cast_base b.type ▸ hc)
        exact .here hcast rfl trivial
      · obtain rfl := CastError.rejected.inj he
        exact .here hcast rfl trivial
      · simp at he
    -- Where there are options, the type is a container and has not changed the value.
    | keys given passed failed =>
      have hoption : ¬(keys? = none ∧ contents = .any) := by
        rintro ⟨rfl, _⟩
        simp [Descriptor.castKeys_none] at failed
      obtain rfl := typed_eq hkeys hcontents hcastable hoption passed
      obtain rfl := Rules.eq_of_given? given
      obtain ⟨hpath, hfault⟩ := Descriptor.castKeys_rejected failed
      exact .here hcast hpath hfault
    | @members _ typed keyed _ given passed renamed failed =>
      have hoption : ¬(keys? = none ∧ contents = .any) := by
        rintro ⟨_, rfl⟩
        simp [Descriptor.castContents_any] at failed
      obtain rfl := typed_eq hkeys hcontents hcastable hoption passed
      obtain rfl := Rules.eq_of_given? given
      obtain ⟨hunique, _, hmembers⟩ := hv
      have hkeyed : keyed = typed := by
        refine keyed_eq hkeys ?_ hunique renamed
        intro n hn
        obtain ⟨k, _, rfl⟩ := mem_of_nested declared (keys_mem_nested hn)
        exact ⟨k, rfl, here.keys k hn⟩
      subst hkeyed
      have habsent (name : String) (c : Descriptor)
          (hentry : (Descriptor.validator s.type.descriptor s.rules keys? contents).entryOf? name =
            some c) : c.OnlyMisses := by
        obtain ⟨t, ht, hcompiled⟩ :=
          hcontents.child?_compiled declared (Descriptor.child?_of_entryOf? hentry)
        exact onlyMisses hcompiled (below t ht).condition.noDefault
      cases Descriptor.castContents_located (fun _ => hcontents.unique) habsent failed with
      | here hpath hfault => exact .here hcast hpath hfault
      | member hu hchild hfailed =>
        obtain ⟨t, ht, hcompiled⟩ := hcontents.child?_compiled declared hchild
        exact .below hu hchild (ih t ht hcompiled (hmembers _ hu.mem_members) hfailed)

/-- Tags, and boards with a flag for every name. -/
def boards : Schema where
  type := .builtin .record
  entries? := some [
    ("tags", .declared { type := .builtin .set }),
    ("boards", .declared {
      type := .builtin .list
      values? := some (.declared {
        type := .builtin .map
        keys? := some (.declared { type := .builtin .text })
        values? := some (.declared { type := .builtin .boolean, rules := { casts := true } }) }) })]

/-- The second board has a flag under something that is no name. -/
def unnamedFlag : Value :=
  .ofFields [
    ("tags", .ofMembers [.text "t", .text "t"]),
    ("boards", .list [
      .ofEntries [(.text "a", .bool true)],
      .ofEntries [(.text "a", .text "1"), (.bool true, .null)]])]

theorem boards_blame_unnamedFlag : ∃ d, boards.compile = .ok d ∧ boards.Everywhere TestsKeys ∧
    unnamedFlag.Throughout Value.HasUniqueKeys ∧
    d.cast (some unnamedFlag) = .error (.rejected
      ⟨["boards", "1"], .invalidKey (.bool true) (.invalidValue (.bool true))⟩) ∧
    d.BearsOut unnamedFlag
      ⟨["boards", "1"], .invalidKey (.bool true) (.invalidValue (.bool true))⟩ := by
  have leaf (b : Builtin) (rules : Rules) (hd : rules.default? = none) :
      Everywhere TestsKeys { type := .builtin b, rules := rules } :=
    .leaf rfl ⟨⟨b, rfl⟩, hd, nofun⟩
  have hs : boards.Everywhere TestsKeys := by
    refine .intro [_, _] rfl ⟨⟨_, rfl⟩, rfl, nofun⟩ ?_
    simp only [List.forall_mem_cons, List.not_mem_nil, false_implies, implies_true, and_true]
    refine ⟨leaf .set _ rfl, .intro [_] rfl ⟨⟨_, rfl⟩, rfl, nofun⟩ ?_⟩
    simp only [List.forall_mem_cons, List.not_mem_nil, false_implies, implies_true, and_true]
    refine .intro [_, _] rfl ⟨⟨_, rfl⟩, rfl, ?_⟩ ?_
    · rintro k ⟨⟩
      exact ⟨rfl, rfl, rfl, rfl⟩
    · simp only [List.forall_mem_cons, List.not_mem_nil, false_implies, implies_true, and_true]
      exact ⟨leaf .text _ rfl, leaf .boolean _ rfl⟩
  have hv : unnamedFlag.Throughout Value.HasUniqueKeys := by
    refine Value.Throughout.uniqueKeys (.ofFields ?_)
    rw [List.forall_mem_cons, List.forall_mem_singleton]
    refine ⟨.ofMembers ?_, .list ?_⟩
    · rw [List.forall_mem_cons, List.forall_mem_singleton]
      exact ⟨.leaf rfl rfl, .leaf rfl rfl⟩
    · rw [List.forall_mem_cons, List.forall_mem_singleton]
      refine ⟨.ofEntries ?_ ?_, .ofEntries ?_ ?_⟩
      all_goals
        simp only [List.forall_mem_cons, List.not_mem_nil, false_implies, implies_true, and_true]
      · exact .leaf rfl rfl
      · exact .leaf rfl rfl
      · exact ⟨.leaf rfl rfl, .leaf rfl rfl⟩
      · exact ⟨.leaf rfl rfl, .leaf rfl rfl⟩
  exact ⟨_, rfl, hs, hv, rfl, bearsOut_of_rejected hs rfl hv rfl⟩

end Schema

end SchemaCast
