import SchemaCast.Proofs.Descriptor

namespace SchemaCast

/-- What a cast asks of a base type: to coerce a value, or to cast where there is no coercion. -/
structure Call where
  type : BaseType
  input : Option Value

def Call.result (call : Call) : CastResult Value := call.type.cast call.input

/-- The result of a computation, with the calls that were made for it in their order. -/
structure Traced (α : Type) where
  calls : List Call
  result : CastResult α

/-- A test as a step of a cast. -/
def CastResult.ofTest {α : Type} (result : Except Misuse α) : CastResult α :=
  result.mapError .misused

namespace Traced

variable {α β : Type}

/-- A result for which nothing is called. -/
def of (result : CastResult α) : Traced α := ⟨[], result⟩

/-- Goes on with whatever has come out, a value or an error. -/
def handle (x : Traced α) (next : CastResult α → Traced β) : Traced β :=
  ⟨x.calls ++ (next x.result).calls, (next x.result).result⟩

/-- Replaces the result and keeps the calls. -/
def convert (f : CastResult α → CastResult β) (x : Traced α) : Traced β :=
  ⟨x.calls, f x.result⟩

instance : Monad Traced where
  pure a := of (.ok a)
  bind x f := x.handle fun
    | .ok a => f a
    | .error e => of (.error e)

instance : LawfulMonad Traced := LawfulMonad.mk' Traced
  (by
    rintro α ⟨calls, _ | a⟩ <;> simp [Functor.map, handle, of])
  (by
    intro α β a f
    simp [bind, pure, handle, of])
  (by
    rintro α β γ ⟨calls, e | a⟩ f g
    · simp [bind, handle, of]
    · cases h : (f a).result <;> simp [bind, handle, of, h])

def under (segment : String) (x : Traced α) : Traced α := x.convert (·.under segment)

def accepted (x : Traced α) : Traced Bool := x.convert fun r => .ofTest r.accepted

end Traced

/-- A caster that notes its calls. -/
abbrev TracedCaster := Option Value → Traced Value

namespace TracedCaster

open Traced

def castSequence (child : TracedCaster) (vs : List Value) : Traced (List Value) :=
  vs.zipIdx.mapM fun (v, i) => (child (some v)).under (Caster.indexText i)

def castEntryValues {K : Type} (child : TracedCaster) (segment : K → String)
    (entries : List (K × Value)) : Traced (List (K × Value)) :=
  entries.mapM fun (key, v) => do return (key, ← (child (some v)).under (segment key))

def castMembers (child : TracedCaster) : Value → Traced Value
  | .list members => return .list (← castSequence child members)
  | .set members => return .ofMembers (← castSequence child members)
  | .record members => return .ofFields (← castEntryValues child id members.entries)
  | .map members => return .ofEntries (← castEntryValues child Value.display members.entries)
  | v => of (reject (.invalidValue v))

def sequence (child : TracedCaster) : TracedCaster
  | some (.list members) => return .list (← castSequence child members)
  | some (.set members) => return .list (← castSequence child members)
  | some v => of (reject (.invalidValue v))
  | none => of (reject .missingValue)

def castKey (keys : TracedCaster) (key : Value) : Traced Value :=
  (keys (some key)).convert fun
    | .error (.rejected cause) => reject (.invalidKey key cause)
    | result => result

def castEntryKeys (keys : TracedCaster) (entries : List (Value × Value)) :
    Traced (List (Value × Value)) :=
  entries.mapM fun (key, v) => do return (← castKey keys key, v)

def rename (keys : TracedCaster) : Value → Traced Value
  | .record members => do
    let entries ← castEntryKeys keys (Caster.textKeyed members.entries)
    return .ofFields (Caster.displayKeyed entries)
  | .map members => do
    let entries ← castEntryKeys keys members.entries
    return .ofEntries entries
  | v => of (reject (.invalidValue v))

def declared? (declared : List (String × TracedCaster)) (key : String) : Option TracedCaster :=
  (declared.find? fun entry => entry.1 == key).map Prod.snd

def castPresentMember (declared : List (String × TracedCaster)) :
    Value × Value → Traced (String × Value)
  | (.text key, v) =>
    match declared? declared key with
    | none => of (reject (.extraKey (.text key)))
    | some child => do return (key, ← (child (some v)).under key)
  | (key, _) => of (reject (.extraKey key))

def castAbsentKey (child : TracedCaster) (key : String) : Traced Value :=
  (child none).convert fun
    | .error (.rejected ⟨_, .missingValue⟩) => reject (.missingKey key)
    | result => result.under key

def castAbsent (present : List String) (declared : List (String × TracedCaster)) :
    Traced (List (String × Value)) :=
  (declared.filter fun entry => !present.contains entry.1).mapM fun (key, child) => do
    return (key, ← castAbsentKey child key)

def castDeclared (declared : List (String × TracedCaster)) (entries : List (Value × Value)) :
    Traced (List (String × Value)) := do
  let present ← entries.mapM (castPresentMember declared)
  let absent ← castAbsent (present.map Prod.fst) declared
  return present ++ absent

def entries (declared : List (String × TracedCaster)) : TracedCaster
  | some (.record members) => do
    let fields ← castDeclared declared (Caster.textKeyed members.entries)
    return .ofFields fields
  | some (.map members) => do
    let fields ← castDeclared declared members.entries
    return .ofEntries (Caster.textKeyed fields)
  | some v => of (reject (.invalidValue v))
  | none => of (reject .missingValue)

def anyOf : List TracedCaster → TracedCaster
  | [], input => of (reject ⟨[], .invalidValue input⟩)
  | child :: others, input => (child input).handle fun
    | .error (.rejected _) => anyOf others input
    | result => of result

end TracedCaster

namespace Rules

open Traced

def traceType (rules : Rules) (cast : TracedCaster) (test : Value → Traced Bool) (v : Value) :
    Traced Value :=
  if rules.casts then cast (some v)
  else do
    if ← test v then return v else of (reject (.invalidValue v))

def trace (rules : Rules) (cast : TracedCaster) (test : Value → Traced Bool)
    (keys members : Value → Traced Value) : TracedCaster := fun input =>
  match rules.given? input with
  | none => of (if rules.optional then .ok .null else reject .missingValue)
  | some v => do
    let v ← rules.traceType cast test v
    of (check (rules.checks ++ rules.valueChecks) v)
    let v ← keys v
    let v ← members v
    of (check rules.contentChecks v)
    return v

end Rules

namespace BaseType

/-- A base type is called for every cast, except that a coercion is not for an absent value. -/
def trace (type : BaseType) : TracedCaster := fun input =>
  match type.coerce?, input with
  | some _, none => .of (reject .missingValue)
  | _, _ => ⟨[⟨type, input⟩], type.cast input⟩

def traceTest (type : BaseType) (v : Value) : Traced Bool :=
  match type.test? with
  | some holds => .of (.ok (holds v))
  | none => (type.trace (some v)).accepted

end BaseType

namespace Descriptor

def traceTestBy (cast : TracedCaster) : Descriptor → Value → Traced Bool
  | base type, v => type.traceTest v
  | _, v => (cast (some v)).accepted

mutual

/-- The cast of a descriptor with its calls. -/
def trace : Descriptor → TracedCaster
  | base type => type.trace
  | validator type rules keys? contents =>
    rules.trace (trace type) (traceTestBy (trace type) type) (traceKeys keys?)
      (traceContents contents)
  | sequence child => TracedCaster.sequence (trace child)
  | entries ⟨children⟩ => TracedCaster.entries (traceFields children)
  | anyOf alternatives => TracedCaster.anyOf (traceAll alternatives)
termination_by structural d => d

def traceAll : List Descriptor → List TracedCaster
  | [] => []
  | d :: ds => trace d :: traceAll ds
termination_by structural ds => ds

def traceFields : List (String × Descriptor) → List (String × TracedCaster)
  | [] => []
  | (key, d) :: ds => (key, trace d) :: traceFields ds
termination_by structural ds => ds

def traceKeys : Option Descriptor → Value → Traced Value
  | none, v => .of (.ok v)
  | some keys, v => TracedCaster.rename (trace keys) v
termination_by structural d => d

def traceContents : Contents Descriptor → Value → Traced Value
  | .any, v => .of (.ok v)
  | .each child, v => TracedCaster.castMembers (trace child) v
  | .declared ⟨children⟩, v => TracedCaster.entries (traceFields children) (some v)
termination_by structural c => c

end

/-- The test of a descriptor with its calls. -/
def traceTest (d : Descriptor) (v : Value) : Traced Bool :=
  traceTestBy d.trace d v

end Descriptor

end SchemaCast
