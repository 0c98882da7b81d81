import Rue.Inference.Constraint

/-! The unification engine: equalities first, then the projections they make
possible, then the predicates; at last the defaults of untyped literals. -/

namespace Rue.Inference

inductive UnifyResult where
  | ok
  | typeMismatch (expected found : InferType)
  | intLiteralNonInteger (found : InferType)
  | stringLiteralNonString (found : InferType)
  | stringLiteralMismatch (expected : InferType)
  | occursCheck (var : TypeVarId) (ty : InferType)
  | notSigned (ty : AirType)
  | notInteger (ty : InferType)
  | notUnsigned (ty : InferType)
  | arrayLengthMismatch (expected found : Nat)
  | peerArrayMismatch (expected found : InferType) (stringLiterals : List TypeVarId)
  deriving DecidableEq

/-- Which side of a (found, expected) constraint a bound variable came from. -/
inductive VarSide where
  | found
  | expected
  deriving DecidableEq

def VarSide.opposite : VarSide → VarSide
  | .found => .expected
  | .expected => .found

structure UnificationError where
  kind : UnifyResult
  span : Span
  deriving DecidableEq

structure Unifier where
  substitution : Substitution
  intLiteralVars : TypeVarId → Bool
  floatLiteralVars : TypeVarId → Bool
  stringLiteralVars : TypeVarId → Bool
  stringLiteralTypes : AirType → Bool
  pendingLiteralJoins : List (TypeVarId × VarSide)
  literalJoins : List (TypeVarId × VarSide × Span)
  recoverFailures : Bool

namespace Unifier

def withCapacity (typeVarCount : Nat) : Unifier where
  substitution := Substitution.withCapacity typeVarCount
  intLiteralVars := fun _ => false
  floatLiteralVars := fun _ => false
  stringLiteralVars := fun _ => false
  stringLiteralTypes := fun _ => false
  pendingLiteralJoins := []
  literalJoins := []
  recoverFailures := true

def withoutFailureRecovery (unifier : Unifier) : Unifier := { unifier with recoverFailures := false }

def markIntLiteralVars (unifier : Unifier) (vars : List TypeVarId) : Unifier :=
  { unifier with intLiteralVars := fun var => unifier.intLiteralVars var || decide (var ∈ vars) }

def markFloatLiteralVars (unifier : Unifier) (vars : List TypeVarId) : Unifier :=
  { unifier with floatLiteralVars := fun var => unifier.floatLiteralVars var || decide (var ∈ vars) }

def markStringLiteralVars (unifier : Unifier) (vars : List TypeVarId) (types : List AirType) : Unifier :=
  { unifier with
    stringLiteralVars := fun var => unifier.stringLiteralVars var || decide (var ∈ vars)
    stringLiteralTypes := fun ty => unifier.stringLiteralTypes ty || decide (ty ∈ types) }

def apply (unifier : Unifier) (ty : InferType) : InferType × Unifier :=
  let (ty, substitution) := unifier.substitution.apply ty
  (ty, { unifier with substitution })

def insert (unifier : Unifier) (var : TypeVarId) (ty : InferType) : Unifier :=
  { unifier with substitution := unifier.substitution.insert var ty }

/-- Untyped literals as they are spelled in a message. -/
def renderForError (unifier : Unifier) : InferType → InferType
  | .var var =>
    if unifier.intLiteralVars var then .intLiteral
    else if unifier.floatLiteralVars var then .concrete .comptimeFloat
    else .var var
  | .array element length => .array (unifier.renderForError element) length
  | ty => ty

def rebindIntLiteralToConcrete (unifier : Unifier) (original : InferType) (ty : AirType) : Unifier :=
  match original with
  | .var var =>
    let (resolved, unifier) := unifier.apply original
    match resolved with
    | .var rep =>
      if unifier.intLiteralVars var || unifier.intLiteralVars rep then unifier.insert rep (.concrete ty) else unifier
    | .intLiteral =>
      if unifier.intLiteralVars var || (unifier.substitution.get var).any InferType.isIntLiteral then
        unifier.insert var (.concrete ty)
      else unifier
    | .concrete _ | .array .. => unifier
  | _ => unifier

def intLiteralMismatch (other : InferType) : VarSide → UnifyResult
  | .found => .typeMismatch other .intLiteral
  | .expected => .intLiteralNonInteger other

def floatLiteralMismatch (other : InferType) : VarSide → UnifyResult
  | .found => .typeMismatch other (.concrete .comptimeFloat)
  | .expected => .typeMismatch (.concrete .comptimeFloat) other

def stringLiteralMismatch (other : InferType) : VarSide → UnifyResult
  | .found => .stringLiteralMismatch other
  | .expected => .stringLiteralNonString other

/-- A join of an integer-literal class with a float-literal class, with the side
the integer literal is on. -/
def literalJoin (unifier : Unifier) (var other : TypeVarId) (side : VarSide) : Option (TypeVarId × VarSide) :=
  match unifier.intLiteralVars var, unifier.floatLiteralVars var, unifier.intLiteralVars other,
    unifier.floatLiteralVars other with
  | true, false, false, true => some (other, side)
  | false, true, true, false => some (other, side.opposite)
  | _, _, _, _ => none

def noteLiteralJoin (unifier : Unifier) (var other : TypeVarId) (side : VarSide) : Unifier :=
  { unifier with pendingLiteralJoins := unifier.pendingLiteralJoins ++ (unifier.literalJoin var other side).toList }

def attributeLiteralJoins (unifier : Unifier) (span : Span) : Unifier :=
  { unifier with
    pendingLiteralJoins := []
    literalJoins := unifier.literalJoins ++ unifier.pendingLiteralJoins.map fun (rep, side) => (rep, side, span) }

def mark (vars : TypeVarId → Bool) (var : TypeVarId) : TypeVarId → Bool := fun other => vars other || other == var

/-- What an integer literal makes of the type its variable is bound to: the
binding goes on, or it ends with a result. -/
def bindIntLiteral (unifier : Unifier) (var : TypeVarId) (ty : InferType) (side : VarSide) :
    Unifier × Option UnifyResult :=
  if unifier.intLiteralVars var then
    match ty with
    | .var other => ({ unifier with intLiteralVars := mark unifier.intLiteralVars other }, none)
    | .concrete concrete =>
      if concrete.isError then (unifier, some .ok)
      else if !concrete.isInteger && !concrete.isNever then (unifier, some (intLiteralMismatch ty side))
      else (unifier, none)
    | .array .. => (unifier, some (intLiteralMismatch (unifier.renderForError ty) side))
    | .intLiteral => (unifier, none)
  else (unifier, none)

def bindFloatLiteral (unifier : Unifier) (var : TypeVarId) (ty : InferType) (side : VarSide) :
    Unifier × Option UnifyResult :=
  if unifier.floatLiteralVars var then
    match ty with
    | .var other => ({ unifier with floatLiteralVars := mark unifier.floatLiteralVars other }, none)
    | .concrete concrete =>
      if concrete.isFloat || concrete = .comptimeFloat || concrete.isError || concrete.isNever then (unifier, none)
      else (unifier, some (floatLiteralMismatch (unifier.renderForError ty) side))
    | .intLiteral | .array .. => (unifier, some (floatLiteralMismatch (unifier.renderForError ty) side))
  else
    match ty with
    | .var other =>
      if unifier.floatLiteralVars other then
        ({ unifier with floatLiteralVars := mark unifier.floatLiteralVars var }, none)
      else (unifier, none)
    | _ => (unifier, none)

def bindStringLiteral (unifier : Unifier) (var : TypeVarId) (ty : InferType) (side : VarSide) :
    Unifier × Option UnifyResult :=
  if unifier.stringLiteralVars var then
    match ty with
    | .var other =>
      if unifier.intLiteralVars other then (unifier, some (stringLiteralMismatch .intLiteral side))
      else ({ unifier with stringLiteralVars := mark unifier.stringLiteralVars other }, none)
    | .concrete concrete =>
      if concrete.isError then (unifier, some .ok)
      else if !unifier.stringLiteralTypes concrete then (unifier, some (stringLiteralMismatch (.concrete concrete) side))
      else (unifier, none)
    | .intLiteral => (unifier, some (stringLiteralMismatch .intLiteral side))
    | .array .. => (unifier, some (stringLiteralMismatch (unifier.renderForError ty) side))
  else
    match ty with
    | .var other =>
      if unifier.stringLiteralVars other then
        if unifier.intLiteralVars var then (unifier, some (stringLiteralMismatch .intLiteral side.opposite))
        else ({ unifier with stringLiteralVars := mark unifier.stringLiteralVars var }, none)
      else (unifier, none)
    | _ => (unifier, none)

/-- One stage of a binding after another, unless one has ended it. -/
def andBind (stage : Unifier × Option UnifyResult) (next : Unifier → Unifier × Option UnifyResult) :
    Unifier × Option UnifyResult :=
  match stage with
  | (unifier, some result) => (unifier, some result)
  | (unifier, none) => next unifier

def bind (unifier : Unifier) (var : TypeVarId) (ty : InferType) (side : VarSide) : Unifier × UnifyResult :=
  if ty = .var var then (unifier, .ok)
  else if unifier.substitution.occursIn var ty then (unifier, .occursCheck var ty)
  else
    let unifier :=
      match ty with
      | .var other => unifier.noteLiteralJoin var other side
      | _ => unifier
    let bound := andBind (unifier.bindIntLiteral var ty side) fun unifier =>
      andBind (unifier.bindFloatLiteral var ty side) fun unifier => unifier.bindStringLiteral var ty side
    match bound with
    | (unifier, some result) => (unifier, result)
    | (unifier, none) => (unifier.insert var ty, .ok)

section

variable (concreteTypesEqual : AirType → AirType → Bool)

/-- Unification of two types the substitution has been applied to. The parts of
an array are not applied again: they would be what they are. -/
def unifyResolved (unifier : Unifier) (lhs rhs lhsResolved rhsResolved : InferType) : Unifier × UnifyResult :=
  match lhsResolved, rhsResolved with
  | .concrete first, .concrete second =>
    if concreteTypesEqual first second || first.canCoerceTo second || second.canCoerceTo first then (unifier, .ok)
    else (unifier, .typeMismatch (.concrete second) (.concrete first))
  | .var var, other => unifier.bind var other .found
  | other, .var var => unifier.bind var other .expected
  | .intLiteral, .concrete ty =>
    if ty.isInteger then
      ((unifier.rebindIntLiteralToConcrete lhs ty).rebindIntLiteralToConcrete rhs ty, .ok)
    else if ty.isError then (unifier, .ok)
    else (unifier, intLiteralMismatch (.concrete ty) .found)
  | .concrete ty, .intLiteral =>
    if ty.isInteger then
      ((unifier.rebindIntLiteralToConcrete lhs ty).rebindIntLiteralToConcrete rhs ty, .ok)
    else if ty.isError then (unifier, .ok)
    else (unifier, intLiteralMismatch (.concrete ty) .expected)
  | .intLiteral, .intLiteral => (unifier, .ok)
  | .array first firstLength, .array second secondLength =>
    if firstLength ≠ secondLength then (unifier, .arrayLengthMismatch secondLength firstLength)
    else unifyResolved unifier first second first second
  | .concrete ty, .array element length =>
    if ty.isNever || ty.isError then (unifier, .ok)
    else (unifier, .typeMismatch (unifier.renderForError (.array element length)) (.concrete ty))
  | .array element length, .concrete ty =>
    if ty.isNever || ty.isError then (unifier, .ok)
    else (unifier, .typeMismatch (.concrete ty) (unifier.renderForError (.array element length)))
  | .array element length, .intLiteral =>
    (unifier, .typeMismatch .intLiteral (unifier.renderForError (.array element length)))
  | .intLiteral, .array element length =>
    (unifier, .typeMismatch (unifier.renderForError (.array element length)) .intLiteral)

def unifyWith (unifier : Unifier) (lhs rhs : InferType) : Unifier × UnifyResult :=
  let (lhsResolved, unifier) := unifier.apply lhs
  let (rhsResolved, unifier) := unifier.apply rhs
  unifyResolved concreteTypesEqual unifier lhs rhs lhsResolved rhsResolved

/-- Unification as it recurses in the source, which applies the substitution to
the elements again; no result once it has entered more arrays than allowed. -/
def unifyWithin : Nat → Unifier → InferType → InferType → Option (Unifier × UnifyResult)
  | 0, _, _, _ => none
  | fuel + 1, unifier, lhs, rhs =>
    let (lhsResolved, unifier) := unifier.apply lhs
    let (rhsResolved, unifier) := unifier.apply rhs
    match lhsResolved, rhsResolved with
    | .array first firstLength, .array second secondLength =>
      if firstLength ≠ secondLength then some (unifier, .arrayLengthMismatch secondLength firstLength)
      else unifyWithin fuel unifier first second
    | lhsResolved, rhsResolved => some (unifyResolved concreteTypesEqual unifier lhs rhs lhsResolved rhsResolved)

def contextualIntLiteral (unifier : Unifier) (lhs : InferType) : InferType → Bool
  | .intLiteral => true
  | .var rep =>
    unifier.intLiteralVars rep ||
      match lhs with
      | .var var => unifier.intLiteralVars var
      | _ => false
  | .concrete _ | .array .. => false

def contextualResolved (unifier : Unifier) (lhs rhs lhsApplied rhsApplied : InferType) : Unifier × UnifyResult :=
  match unifier.contextualIntLiteral lhs lhsApplied, rhsApplied with
  | true, .concrete .f32 => (unifier.rebindIntLiteralToConcrete lhs .f32, .ok)
  | true, .concrete .f64 => (unifier.rebindIntLiteralToConcrete lhs .f64, .ok)
  | _, _ =>
    match lhsApplied, rhsApplied with
    | .array foundElement foundLength, .array expectedElement expectedLength =>
      if foundLength ≠ expectedLength then (unifier, .arrayLengthMismatch expectedLength foundLength)
      else contextualResolved unifier foundElement expectedElement foundElement expectedElement
    | _, _ => unifyWith concreteTypesEqual unifier lhs rhs

def unifyContextual (unifier : Unifier) (lhs rhs : InferType) : Unifier × UnifyResult :=
  let (lhsApplied, unifier) := unifier.apply lhs
  let (rhsApplied, unifier) := unifier.apply rhs
  contextualResolved concreteTypesEqual unifier lhs rhs lhsApplied rhsApplied

def isUntypedLiteral (unifier : Unifier) : InferType → Bool
  | .intLiteral => true
  | .var var => unifier.intLiteralVars var || unifier.stringLiteralVars var
  | .concrete _ | .array .. => false

def isNeverType : InferType → Bool
  | .concrete ty => ty.isNever
  | _ => false

def arrayPairsLiteralWithNever (unifier : Unifier) : InferType → InferType → Bool
  | .array lhs lhsLength, .array rhs rhsLength =>
    if lhsLength ≠ rhsLength then false
    else
      (isNeverType lhs && unifier.isUntypedLiteral rhs) || (unifier.isUntypedLiteral lhs && isNeverType rhs) ||
        unifier.arrayPairsLiteralWithNever lhs rhs
  | _, _ => false

def collectStringLiteralVars (unifier : Unifier) : InferType → List TypeVarId
  | .var var => if unifier.stringLiteralVars var then [var] else []
  | .array element _ => unifier.collectStringLiteralVars element
  | _ => []

def unifyPeer (unifier : Unifier) (lhs rhs : InferType) : Unifier × UnifyResult :=
  let (lhsApplied, unifier) := unifier.apply lhs
  let (rhsApplied, unifier) := unifier.apply rhs
  if unifier.arrayPairsLiteralWithNever lhsApplied rhsApplied then
    let expected := unifier.renderForError rhsApplied
    let found := unifier.renderForError lhsApplied
    (unifier, .peerArrayMismatch expected found
      (unifier.collectStringLiteralVars expected ++ unifier.collectStringLiteralVars found))
  else unifyWith concreteTypesEqual unifier lhs rhs

end

def checkSigned (unifier : Unifier) (ty : InferType) : Unifier × UnifyResult :=
  let (ty, unifier) := unifier.apply ty
  match ty with
  | .concrete concrete =>
    if concrete.isSigned || concrete.isFloat || concrete.isError || concrete.isNever then (unifier, .ok)
    else if concrete.isUnsigned then (unifier, .notSigned concrete)
    else (unifier, .ok)
  | .var _ | .intLiteral | .array .. => (unifier, .ok)

def checkInteger (unifier : Unifier) (ty : InferType) : Unifier × UnifyResult :=
  let (ty, unifier) := unifier.apply ty
  match ty with
  | .concrete concrete =>
    if concrete.isInteger || concrete.isError || concrete.isNever then (unifier, .ok) else (unifier, .notInteger ty)
  | .var _ | .intLiteral => (unifier, .ok)
  | .array .. => (unifier, .notInteger (unifier.renderForError ty))

def checkNumeric (unifier : Unifier) (ty : InferType) : Unifier × UnifyResult :=
  let (ty, unifier) := unifier.apply ty
  match ty with
  | .concrete concrete =>
    if concrete.isInteger || concrete.isFloat || concrete.isError || concrete.isNever then (unifier, .ok)
    else (unifier, .notInteger ty)
  | .var _ | .intLiteral => (unifier, .ok)
  | .array .. => (unifier, .notInteger (unifier.renderForError ty))

def checkUnsigned (unifier : Unifier) (ty : InferType) : Unifier × UnifyResult :=
  let (ty, unifier) := unifier.apply ty
  match ty with
  | .concrete concrete =>
    if concrete.isUnsigned || concrete.isError || concrete.isNever then (unifier, .ok) else (unifier, .notUnsigned ty)
  | .var _ | .intLiteral => (unifier, .ok)
  | .array .. => (unifier, .notUnsigned (unifier.renderForError ty))

/-- An unsigned context types what is still untyped. -/
def defaultUnsigned (unifier : Unifier) (ty : InferType) : Unifier :=
  let (applied, unifier) := unifier.apply ty
  match applied with
  | .intLiteral =>
    match ty with
    | .var var => unifier.insert var (.concrete .u64)
    | _ => unifier
  | .var var => unifier.insert var (.concrete .u64)
  | _ => unifier

def recoverVar (unifier : Unifier) : InferType → Unifier
  | .var var => unifier.insert var (.concrete .error)
  | _ => unifier

def recoverFromError (unifier : Unifier) (lhs rhs : InferType) : Unifier :=
  if !unifier.recoverFailures then unifier
  else
    let (lhsApplied, unifier) := unifier.apply lhs
    let (rhsApplied, unifier) := unifier.apply rhs
    (unifier.recoverVar lhsApplied).recoverVar rhsApplied

def registerStringContextTypes (isStringContextType : InferType → Bool) (unifier : Unifier) : InferType → Unifier
  | .concrete ty =>
    if isStringContextType (.concrete ty) then
      { unifier with stringLiteralTypes := fun other => unifier.stringLiteralTypes other || decide (other = ty) }
    else unifier
  | .array element _ => registerStringContextTypes isStringContextType unifier element
  | _ => unifier

end Unifier

/-- What solving has come to: the unifier, and the errors so far. -/
structure Solving where
  unifier : Unifier
  errors : List UnificationError

namespace Solving

/-- Take over the outcome of one constraint. -/
def settle (solving : Solving) (outcome : Unifier × UnifyResult) (lhs rhs : InferType) (span : Span) : Solving :=
  let unifier := outcome.1.attributeLiteralJoins span
  if outcome.2 = .ok then { solving with unifier }
  else { unifier := unifier.recoverFromError lhs rhs, errors := solving.errors ++ [{ kind := outcome.2, span }] }

def report (solving : Solving) (outcome : Unifier × UnifyResult) (span : Span) : Solving :=
  if outcome.2 = .ok then { solving with unifier := outcome.1 }
  else { unifier := outcome.1, errors := solving.errors ++ [{ kind := outcome.2, span }] }

end Solving

/-- What the surrounding analysis answers: equality of concrete types, the type
of a field and of an element, and which types a string literal can take. -/
structure Lookups where
  concreteTypesEqual : AirType → AirType → Bool
  fieldType : InferType → Spur → Option InferType
  indexElementType : InferType → Option InferType
  isStringContextType : InferType → Bool

namespace Lookups

variable (lookups : Lookups)

/-- A check on a type that already is an array is made at once. -/
def earlyCheck (unifier : Unifier) (ty : InferType) (check : Unifier → InferType → Unifier × UnifyResult) :
    Unifier × Option UnifyResult :=
  let (applied, unifier) := unifier.apply ty
  if applied.isArray then
    let (unifier, result) := check unifier ty
    (unifier, some result)
  else (unifier, none)

/-- The first pass over the constraints, with the projections and the predicates
it leaves for later. -/
structure FirstPass where
  solving : Solving
  projections : List Constraint
  predicates : List Constraint

def equalityStep (pass : FirstPass) (constraint : Constraint) : FirstPass :=
  let unifier := pass.solving.unifier
  let early (ty : InferType) (check : Unifier → InferType → Unifier × UnifyResult) : FirstPass :=
    match earlyCheck unifier ty check with
    | (unifier, some result) =>
      { pass with solving :=
          { unifier, errors := pass.solving.errors ++ [{ kind := result, span := constraint.span }] } }
    | (unifier, none) =>
      { pass with solving := { pass.solving with unifier }, predicates := pass.predicates ++ [constraint] }
  match constraint with
  | .fieldGet .. | .fieldSet .. | .indexGet .. | .indexSet .. =>
    { pass with projections := pass.projections ++ [constraint] }
  | .equal lhs rhs span =>
    { pass with solving := pass.solving.settle (unifier.unifyWith lookups.concreteTypesEqual lhs rhs) lhs rhs span }
  | .peerEqual lhs rhs span =>
    { pass with solving := pass.solving.settle (unifier.unifyPeer lookups.concreteTypesEqual lhs rhs) lhs rhs span }
  | .contextualEqual lhs rhs span =>
    { pass with
      solving := pass.solving.settle (unifier.unifyContextual lookups.concreteTypesEqual lhs rhs) lhs rhs span }
  | .isInteger ty _ => early ty Unifier.checkInteger
  | .isNumeric ty _ => early ty Unifier.checkNumeric
  | .isUnsigned ty _ => early ty Unifier.checkUnsigned
  | .isSigned .. => { pass with predicates := pass.predicates ++ [constraint] }

/-- The projected type, once the base is known well enough. -/
def projectedType (unifier : Unifier) : Constraint → Option InferType × Unifier
  | .fieldGet base field _ _ | .fieldSet base field _ _ =>
    let (applied, unifier) := unifier.apply base
    (lookups.fieldType applied field, unifier)
  | .indexGet base _ _ | .indexSet base _ _ =>
    let (applied, unifier) := unifier.apply base
    (lookups.indexElementType applied, unifier)
  | _ => (none, unifier)

def project (solving : Solving) (constraint : Constraint) (projected : InferType) : Solving :=
  let unifier := solving.unifier
  match constraint with
  | .fieldGet _ _ result span | .indexGet _ result span =>
    solving.settle (unifier.unifyWith lookups.concreteTypesEqual projected result) projected result span
  | .fieldSet _ _ value span | .indexSet _ value span =>
    solving.settle (unifier.unifyContextual lookups.concreteTypesEqual value projected) value projected span
  | _ => solving

/-- One round over the projections that wait; those that still do are kept. -/
def projectionStep (state : Solving × List Constraint × Bool) (constraint : Constraint) :
    Solving × List Constraint × Bool :=
  let (solving, waiting, progress) := state
  match lookups.projectedType solving.unifier constraint with
  | (none, unifier) => ({ solving with unifier }, waiting ++ [constraint], progress)
  | (some projected, unifier) =>
    let unifier := unifier.registerStringContextTypes lookups.isStringContextType projected
    (lookups.project { solving with unifier } constraint projected, waiting, true)

/-- Rounds until one makes no progress. A round that does leaves fewer waiting. -/
def resolveProjections : Nat → Solving → List Constraint → Solving × List Constraint
  | 0, solving, pending => (solving, pending)
  | rounds + 1, solving, pending =>
    let (solving, waiting, progress) := pending.foldl lookups.projectionStep (solving, [], false)
    if !progress || waiting.isEmpty then (solving, waiting) else resolveProjections rounds solving waiting

def predicateStep (solving : Solving) (constraint : Constraint) : Solving :=
  let unifier := solving.unifier
  match constraint with
  | .isSigned ty span => solving.report (unifier.checkSigned ty) span
  | .isInteger ty span => solving.report (unifier.checkInteger ty) span
  | .isNumeric ty span => solving.report (unifier.checkNumeric ty) span
  | .isUnsigned ty span => solving.report ((unifier.defaultUnsigned ty).checkUnsigned ty) span
  | _ => solving

/-- All equalities and projections, before any predicate is checked. -/
def solveEqualities (unifier : Unifier) (constraints : List Constraint) : FirstPass :=
  let start : FirstPass := { solving := { unifier, errors := [] }, projections := [], predicates := [] }
  let pass := constraints.foldl lookups.equalityStep start
  let (solving, waiting) := lookups.resolveProjections (pass.projections.length + 1) pass.solving pass.projections
  { solving, projections := waiting, predicates := pass.predicates }

def solveConstraints (unifier : Unifier) (constraints : List Constraint) : Solving :=
  let pass := lookups.solveEqualities unifier constraints
  pass.predicates.foldl predicateStep pass.solving

end Lookups

namespace Unifier

/-- The joined literal classes that no context has typed, each with the error of
its first join. -/
def unresolvedLiteralJoins (unifier : Unifier) : List (TypeVarId × UnificationError) :=
  (unifier.literalJoins.foldl (fun (joins, unifier) (rep, intSide, span) =>
    match unifier.apply (.var rep) with
    | (.var id, unifier) =>
      if joins.any fun join => join.1 == id then (joins, unifier)
      else (joins ++ [(id, { kind := intLiteralMismatch (.concrete .comptimeFloat) intSide, span })], unifier)
    | (_, unifier) => (joins, unifier)) (([] : List (TypeVarId × UnificationError)), unifier)).1

def defaultVar (default : AirType) (unifier : Unifier) (var : TypeVarId) : Unifier :=
  match unifier.apply (.var var) with
  | (.var rep, unifier) => unifier.insert rep (.concrete default)
  | (_, unifier) => unifier

def defaultIntLiteralVars (unifier : Unifier) (vars : List TypeVarId) : Unifier := vars.foldl (defaultVar .i32) unifier

def defaultUnconstrainedVars (unifier : Unifier) (vars : List TypeVarId) (default : AirType) : Unifier :=
  vars.foldl (defaultVar default) unifier

/-- The unifier of one body: its literals are marked before its constraints are solved. -/
def prepared (typeVarCount : Nat) (intLiteralVars floatLiteralVars stringLiteralVars : List TypeVarId)
    (stringLiteralTypes : List AirType) : Unifier :=
  let unifier := (withCapacity typeVarCount).markIntLiteralVars intLiteralVars
  (unifier.markFloatLiteralVars floatLiteralVars).markStringLiteralVars stringLiteralVars stringLiteralTypes

/-- The defaults of one body, in the order its analysis applies them. -/
def defaulted (unifier : Unifier) (intLiteralVars floatLiteralVars stringLiteralVars : List TypeVarId)
    (stringLiteralDefault : AirType) : Unifier :=
  ((unifier.defaultIntLiteralVars intLiteralVars).defaultUnconstrainedVars floatLiteralVars .f64).defaultUnconstrainedVars
    stringLiteralVars stringLiteralDefault

def defaultLiterals : InferType → InferType
  | .intLiteral => .concrete .i32
  | .array element length => .array (defaultLiterals element) length
  | ty => ty

def resolveInferType (unifier : Unifier) (ty : InferType) : InferType := defaultLiterals (unifier.apply ty).1

end Unifier

end Rue.Inference
