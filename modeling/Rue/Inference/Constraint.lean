/-! The types inference works with: the compiler's own, and those with type
variables and untyped literals in them. -/

namespace Rue.Inference

/-- The primitive types, and the encoding of a struct, an enum or another
composite, which inference only compares. -/
inductive AirType where
  | i8
  | i16
  | i32
  | i64
  | u8
  | u16
  | u32
  | u64
  | bool
  | unit
  | error
  | never
  | comptimeType
  | f32
  | f64
  | comptimeFloat
  | composite (encoding : Nat)
  deriving DecidableEq

namespace AirType

def isSigned : AirType → Bool
  | .i8 | .i16 | .i32 | .i64 => true
  | _ => false

def isUnsigned : AirType → Bool
  | .u8 | .u16 | .u32 | .u64 => true
  | _ => false

def isInteger (ty : AirType) : Bool := ty.isSigned || ty.isUnsigned

def isFloat : AirType → Bool
  | .f32 | .f64 => true
  | _ => false

def isError (ty : AirType) : Bool := ty = .error

def isNever (ty : AirType) : Bool := ty = .never

def canCoerceTo (ty target : AirType) : Bool := ty.isNever || ty.isError || ty = target

end AirType

abbrev TypeVarId := Nat

inductive InferType where
  | concrete (ty : AirType)
  | var (id : TypeVarId)
  | intLiteral
  | array (element : InferType) (length : Nat)
  deriving DecidableEq

namespace InferType

def isIntLiteral : InferType → Bool
  | .intLiteral => true
  | _ => false

def isArray : InferType → Bool
  | .array .. => true
  | _ => false

end InferType

end Rue.Inference

/-! Constraints of inference, and the substitution their solution is built in. -/

namespace Rue.Inference

abbrev Span := Nat

abbrev Spur := Nat

inductive Constraint where
  | equal (lhs rhs : InferType) (span : Span)
  | contextualEqual (lhs rhs : InferType) (span : Span)
  | peerEqual (lhs rhs : InferType) (span : Span)
  | fieldGet (base : InferType) (field : Spur) (result : InferType) (span : Span)
  | fieldSet (base : InferType) (field : Spur) (value : InferType) (span : Span)
  | indexGet (base result : InferType) (span : Span)
  | indexSet (base value : InferType) (span : Span)
  | isSigned (ty : InferType) (span : Span)
  | isInteger (ty : InferType) (span : Span)
  | isNumeric (ty : InferType) (span : Span)
  | isUnsigned (ty : InferType) (span : Span)
  deriving DecidableEq

def Constraint.span : Constraint → Span
  | .equal _ _ span | .contextualEqual _ _ span | .peerEqual _ _ span | .fieldGet _ _ _ span | .fieldSet _ _ _ span
  | .indexGet _ _ span | .indexSet _ _ span | .isSigned _ span | .isInteger _ span | .isNumeric _ span
  | .isUnsigned _ span => span

structure Substitution where
  mapping : List (Option InferType)

namespace Substitution

def withCapacity (capacity : Nat) : Substitution := { mapping := List.replicate capacity none }

def insert (substitution : Substitution) (id : TypeVarId) (ty : InferType) : Substitution :=
  { mapping := (substitution.mapping ++ List.replicate (id + 1 - substitution.mapping.length) none).set id (some ty) }

def get (substitution : Substitution) (id : TypeVarId) : Option InferType := (substitution.mapping[id]?).join

def applyWith (applyVar : Substitution → TypeVarId → InferType × Substitution) (substitution : Substitution) :
    InferType → InferType × Substitution
  | .concrete ty => (.concrete ty, substitution)
  | .var id => applyVar substitution id
  | .intLiteral => (.intLiteral, substitution)
  | .array element length =>
    let (element, substitution) := applyWith applyVar substitution element
    (.array element length, substitution)

/-- Following a variable compresses its path. The bound on the number of slots
followed is never reached, as no chain visits a slot twice. -/
def applyVar : Nat → Substitution → TypeVarId → InferType × Substitution
  | 0, substitution, id => (.var id, substitution)
  | fuel + 1, substitution, id =>
    match substitution.get id with
    | none => (.var id, substitution)
    | some resolved =>
      let (final, substitution) := applyWith (applyVar fuel) substitution resolved
      if final ≠ resolved then (final, substitution.insert id final) else (final, substitution)

def apply (substitution : Substitution) (ty : InferType) : InferType × Substitution :=
  applyWith (applyVar (substitution.mapping.length + 1)) substitution ty

def occursWith (occursVar : TypeVarId → Bool) : InferType → Bool
  | .concrete _ | .intLiteral => false
  | .var id => occursVar id
  | .array element _ => occursWith occursVar element

def occursVar (substitution : Substitution) (var : TypeVarId) : Nat → TypeVarId → Bool
  | 0, id => id == var
  | fuel + 1, id =>
    id == var ||
      match substitution.get id with
      | some resolved => occursWith (occursVar substitution var fuel) resolved
      | none => false

def occursIn (substitution : Substitution) (var : TypeVarId) (ty : InferType) : Bool :=
  occursWith (occursVar substitution var (substitution.mapping.length + 1)) ty

/-! The same two recursions, ended with no result once they have followed more
variables than allowed: whether they end at all is told apart by this. -/

def applyTypeBy (applyVar : Substitution → TypeVarId → Option (InferType × Substitution)) (substitution : Substitution) :
    InferType → Option (InferType × Substitution)
  | .concrete ty => some (.concrete ty, substitution)
  | .var id => applyVar substitution id
  | .intLiteral => some (.intLiteral, substitution)
  | .array element length => do
    let (element, substitution) ← applyTypeBy applyVar substitution element
    return (.array element length, substitution)

def applyVarWithin : Nat → Substitution → TypeVarId → Option (InferType × Substitution)
  | 0, _, _ => none
  | fuel + 1, substitution, id =>
    match substitution.get id with
    | none => some (.var id, substitution)
    | some resolved => do
      let (final, substitution) ← applyTypeBy (applyVarWithin fuel) substitution resolved
      return if final ≠ resolved then (final, substitution.insert id final) else (final, substitution)

def applyWithin (fuel : Nat) (substitution : Substitution) (ty : InferType) : Option (InferType × Substitution) :=
  applyTypeBy (applyVarWithin fuel) substitution ty

def occursTypeBy (occursVar : TypeVarId → Option Bool) : InferType → Option Bool
  | .concrete _ | .intLiteral => some false
  | .var id => occursVar id
  | .array element _ => occursTypeBy occursVar element

def occursVarWithin (substitution : Substitution) (var : TypeVarId) : Nat → TypeVarId → Option Bool
  | 0, _ => none
  | fuel + 1, id =>
    if id = var then some true
    else
      match substitution.get id with
      | some resolved => occursTypeBy (occursVarWithin substitution var fuel) resolved
      | none => some false

def occursWithin (fuel : Nat) (substitution : Substitution) (var : TypeVarId) (ty : InferType) : Option Bool :=
  occursTypeBy (occursVarWithin substitution var fuel) ty

end Substitution

end Rue.Inference
