import Mathlib
import Rue.Proofs.Inference.Classes

/-! The binding of a variable: the checks on the literal classes it ends, the
marks it shares, and what its success gives. -/

namespace Rue.Proofs.Inference
open Rue.Inference

/-- The same type, up to what an equality of types lets pass. -/
inductive Agree (equal : AirType → AirType → Bool) : InferType → InferType → Prop
  | same (ty : InferType) : Agree equal ty ty
  | equal {one other : AirType} (equals : equal one other) : Agree equal (.concrete one) (.concrete other)
  | coercesLeft {ty : AirType} (other : InferType) (coerces : ty.isNever || ty.isError) : Agree equal (.concrete ty) other
  | coercesRight {ty : AirType} (other : InferType) (coerces : ty.isNever || ty.isError) : Agree equal other (.concrete ty)
  | array {one other : InferType} (length : Nat) (inner : Agree equal one other) :
      Agree equal (.array one length) (.array other length)

/-- What success of a constraint between two types gives. -/
structure Unified (equal : AirType → AirType → Bool) (unifier : Unifier) (lhs rhs : InferType) (after : Unifier) :
    Prop where
  good : Good after
  grows : Grows unifier after
  agree : ∀ later, Extends after.substitution later → Agree equal (applied later lhs) (applied later rhs)

namespace Unified

variable {equal : AirType → AirType → Bool} {unifier middle after : Unifier} {lhs rhs lhs' rhs' : InferType}

theorem unchanged (good : Good unifier)
    (agree : ∀ later, Extends unifier.substitution later → Agree equal (applied later lhs) (applied later rhs)) :
    Unified equal unifier lhs rhs unifier :=
  ⟨good, Grows.refl good.settled, agree⟩

theorem after_grows (grows : Grows unifier middle) (unified : Unified equal middle lhs rhs after) :
    Unified equal unifier lhs rhs after :=
  ⟨unified.good, grows.trans unified.grows, unified.agree⟩

theorem of_left (known : applied unifier.substitution lhs = lhs') (unified : Unified equal unifier lhs' rhs after) :
    Unified equal unifier lhs rhs after := by
  refine ⟨unified.good, unified.grows, ?_⟩
  intro later extends'
  rw [(unified.grows.substitution.trans extends').applied lhs, known]
  exact unified.agree later extends'

theorem of_right (known : applied unifier.substitution rhs = rhs') (unified : Unified equal unifier lhs rhs' after) :
    Unified equal unifier lhs rhs after := by
  refine ⟨unified.good, unified.grows, ?_⟩
  intro later extends'
  rw [(unified.grows.substitution.trans extends').applied rhs, known]
  exact unified.agree later extends'

theorem array {length : Nat} (unified : Unified equal unifier lhs rhs after) :
    Unified equal unifier (.array lhs length) (.array rhs length) after := by
  refine ⟨unified.good, unified.grows, ?_⟩
  intro later extends'
  rw [applied_array extends'.settled, applied_array extends'.settled]
  exact .array length (unified.agree later extends')

end Unified

theorem Binds.same {unifier after : Unifier} {var : Nat} {ty : InferType} (binds : Binds unifier var ty after)
    (good : Good unifier) {later : Substitution} (extends' : Extends after.substitution later) :
    Inference.applied later (.var var) = Inference.applied later ty := by
  apply extends'.congr
  rw [binds.applied good, binds.applied good, applied_free good.settled binds.free, binds.final, replace, if_pos rfl,
    binds.replace_self]

/-- How a binding that reports success ended. -/
inductive Bound (unifier : Unifier) (var : Nat) (ty : InferType) : Unifier → Prop
  | itself (same : ty = .var var) : Bound unifier var ty unifier
  | skipped (error : ty = .concrete .error) : Bound unifier var ty unifier
  | binds {after : Unifier} (binds : Binds unifier var ty after) : Bound unifier var ty after

/-- A stage of a binding to a type that is no variable only checks. -/
structure Checked (unifier : Unifier) (ty : InferType) (fits : Prop) (stage : Unifier × Option UnifyResult) : Prop where
  unifier : stage.1 = unifier
  fits : stage.2 = none → fits
  ended : stage.2 = some .ok → ty = .concrete .error

theorem intLiteralMismatch_ne_ok (ty : InferType) (side : VarSide) : Unifier.intLiteralMismatch ty side ≠ .ok := by
  cases side <;> simp [Unifier.intLiteralMismatch]

theorem floatLiteralMismatch_ne_ok (ty : InferType) (side : VarSide) : Unifier.floatLiteralMismatch ty side ≠ .ok := by
  cases side <;> simp [Unifier.floatLiteralMismatch]

theorem stringLiteralMismatch_ne_ok (ty : InferType) (side : VarSide) : Unifier.stringLiteralMismatch ty side ≠ .ok := by
  cases side <;> simp [Unifier.stringLiteralMismatch]

section Stages

variable {unifier : Unifier} {var : Nat} {ty : InferType} {side : VarSide}

theorem checked_ended {fits : Prop} {result : UnifyResult} (fails : result ≠ .ok) :
    Checked unifier ty fits (unifier, some result) where
  unifier := rfl
  fits := by
    intro none
    cases none
  ended := fun ok => absurd (Option.some.inj ok) fails

theorem checked_on {fits : Prop} (holds : fits) : Checked unifier ty fits (unifier, none) where
  unifier := rfl
  fits := fun _ => holds
  ended := by
    intro ok
    cases ok

theorem int_checked (known : ∀ id, ty ≠ .var id) (plain : Plain ty) :
    Checked unifier ty (unifier.intLiteralVars var → Stands unifier.intLiteralVars takesInt ty)
      (unifier.bindIntLiteral var ty side) := by
  unfold Unifier.bindIntLiteral
  split
  next marked =>
    cases ty with
    | var id => exact absurd rfl (known id)
    | intLiteral => exact plain.elim
    | array => exact checked_ended (intLiteralMismatch_ne_ok _ _)
    | concrete ty =>
      dsimp only
      split
      next error =>
        refine ⟨rfl, ?_, ?_⟩
        · intro none
          cases none
        · intro _
          simpa [AirType.isError] using error
      next sound =>
        split
        · exact checked_ended (intLiteralMismatch_ne_ok _ _)
        next takes =>
          apply checked_on
          intro _
          simp only [Stands, takesInt]
          cases integer : ty.isInteger <;> simp [integer] at takes ⊢
          exact .inr takes
  next unmarked => exact checked_on fun marked => absurd marked unmarked

theorem float_checked (known : ∀ id, ty ≠ .var id) :
    Checked unifier ty (unifier.floatLiteralVars var → Stands unifier.floatLiteralVars takesFloat ty)
      (unifier.bindFloatLiteral var ty side) := by
  unfold Unifier.bindFloatLiteral
  split
  next marked =>
    cases ty with
    | var id => exact absurd rfl (known id)
    | intLiteral | array => exact checked_ended (floatLiteralMismatch_ne_ok _ _)
    | concrete ty =>
      dsimp only
      split
      next takes => exact checked_on fun _ => takes
      · exact checked_ended (floatLiteralMismatch_ne_ok _ _)
  next unmarked =>
    cases ty with
    | var id => exact absurd rfl (known id)
    | intLiteral | array | concrete => exact checked_on fun marked => absurd marked unmarked

theorem string_checked (known : ∀ id, ty ≠ .var id) :
    Checked unifier ty (unifier.stringLiteralVars var → Stands unifier.stringLiteralVars unifier.stringLiteralTypes ty)
      (unifier.bindStringLiteral var ty side) := by
  unfold Unifier.bindStringLiteral
  split
  next marked =>
    cases ty with
    | var id => exact absurd rfl (known id)
    | intLiteral | array => exact checked_ended (stringLiteralMismatch_ne_ok _ _)
    | concrete ty =>
      dsimp only
      split
      next error =>
        refine ⟨rfl, ?_, ?_⟩
        · intro none
          cases none
        · intro _
          simpa [AirType.isError] using error
      · split
        · exact checked_ended (stringLiteralMismatch_ne_ok _ _)
        next takes => exact checked_on fun _ => by simpa [Stands] using takes
  next unmarked =>
    cases ty with
    | var id => exact absurd rfl (known id)
    | intLiteral | array | concrete => exact checked_on fun marked => absurd marked unmarked

/-- The marks one variable takes over from another. -/
def share (marks : TypeVarId → Bool) (var other : TypeVarId) (id : TypeVarId) : Bool :=
  marks id || (marks var && id == other) || (marks other && id == var)

variable {other : Nat}

theorem int_joined : unifier.bindIntLiteral var (.var other) side =
    ({ unifier with
      intLiteralVars := fun id => unifier.intLiteralVars id || (unifier.intLiteralVars var && id == other) }, none) := by
  rw [Unifier.bindIntLiteral]
  cases marked : unifier.intLiteralVars var with
  | false => simp
  | true =>
    simp only [if_true, Bool.true_and]
    rfl

theorem share_left {marks : TypeVarId → Bool} (marked : marks var) : Unifier.mark marks other = share marks var other := by
  funext id
  by_cases same : id = var
  · simp [Unifier.mark, share, same, marked]
  · simp [Unifier.mark, share, same, marked]

theorem share_right {marks : TypeVarId → Bool} (unmarked : marks var = false) (marked : marks other) :
    Unifier.mark marks var = share marks var other := by
  funext id
  simp [Unifier.mark, share, unmarked, marked]

theorem share_neither {marks : TypeVarId → Bool} (unmarked : marks var = false) (other' : marks other = false) :
    marks = share marks var other := by
  funext id
  simp [share, unmarked, other']

theorem float_joined : unifier.bindFloatLiteral var (.var other) side =
    ({ unifier with floatLiteralVars := share unifier.floatLiteralVars var other }, none) := by
  rw [Unifier.bindFloatLiteral]
  cases first : unifier.floatLiteralVars var with
  | true => simp only [share_left first, if_true]
  | false =>
    cases second : unifier.floatLiteralVars other with
    | true => simp only [share_right first second, Bool.false_eq_true, if_false, if_true]
    | false => simp only [← share_neither first second, Bool.false_eq_true, if_false]

/-- Strings join unless an integer literal is on the other side. -/
theorem string_joined (go : (unifier.bindStringLiteral var (.var other) side).2 = none ∨
      (unifier.bindStringLiteral var (.var other) side).2 = some .ok) :
    unifier.bindStringLiteral var (.var other) side =
      ({ unifier with stringLiteralVars := share unifier.stringLiteralVars var other }, none) ∧
    (unifier.stringLiteralVars var → unifier.intLiteralVars other = false) ∧
    (unifier.stringLiteralVars var = false → unifier.stringLiteralVars other → unifier.intLiteralVars var = false) := by
  have fails := stringLiteralMismatch_ne_ok .intLiteral
  rw [Unifier.bindStringLiteral] at go ⊢
  cases first : unifier.stringLiteralVars var with
  | true =>
    cases int : unifier.intLiteralVars other with
    | true => simp [first, int, fails] at go
    | false => simp [share_left first]
  | false =>
    cases second : unifier.stringLiteralVars other with
    | true =>
      cases int : unifier.intLiteralVars var with
      | true => simp [first, second, int, fails] at go
      | false => simp [share_right first second]
    | false => simp [← share_neither first second]

end Stages

theorem binds_known {unifier : Unifier} {var : Nat} {ty : InferType} (free : unifier.substitution.get var = none)
    (final : applied unifier.substitution ty = ty) (plain : Plain ty) (absent : ¬ Mentions var ty)
    (known : ∀ id, ty ≠ .var id)
    (int : unifier.intLiteralVars var → Stands unifier.intLiteralVars takesInt ty)
    (float : unifier.floatLiteralVars var → Stands unifier.floatLiteralVars takesFloat ty)
    (string : unifier.stringLiteralVars var → Stands unifier.stringLiteralVars unifier.stringLiteralTypes ty) :
    Binds unifier var ty (unifier.insert var ty) where
  free := free
  final := final
  plain := plain
  absent := absent
  substitution := rfl
  types := rfl
  noted := fun _ listed => listed
  ints := fun _ marked => marked
  floats := fun _ marked => marked
  strings := fun _ marked => marked
  newInts := fun _ marked => .inl marked
  newFloats := fun _ marked => .inl marked
  newStrings := fun _ marked => .inl marked
  takenInt := int
  takenFloat := float
  takenString := string
  apart := fun rep target => absurd target (known rep)
  joined := fun rep target => absurd target (known rep)

section Bind

variable {unifier : Unifier} {var : Nat} {ty : InferType} {side : VarSide}

theorem bind_known (good : Good unifier) (free : unifier.substitution.get var = none)
    (final : applied unifier.substitution ty = ty) (plain : Plain ty) (known : ∀ id, ty ≠ .var id)
    (ok : (unifier.bind var ty side).2 = .ok) : Bound unifier var ty (unifier.bind var ty side).1 := by
  have resolves : Resolves unifier.substitution 0 ty ty := by
    obtain ⟨count, resolved⟩ := (good.settled.apply ty).1
    rw [final] at resolved
    exact resolved.final_self
  unfold Unifier.bind at ok ⊢
  simp only [known var, if_false] at ok ⊢
  split at ok
  next occurs => cases ok
  next absent =>
    rw [if_neg absent]
    replace absent := not_mentions_of_occursIn resolves (by simpa using absent)
    have int : Checked unifier ty _ (unifier.bindIntLiteral var ty side) := int_checked known plain
    have float : Checked unifier ty _ (unifier.bindFloatLiteral var ty side) := float_checked known
    have string : Checked unifier ty _ (unifier.bindStringLiteral var ty side) := string_checked known
    generalize unifier.bindIntLiteral var ty side = first at int ok ⊢
    obtain ⟨firstUnifier, firstResult⟩ := first
    obtain ⟨same, int, intEnded⟩ := int
    dsimp only at same int intEnded
    subst same
    cases firstResult with
    | some result => exact .skipped (intEnded (congrArg some ok))
    | none =>
      simp only [Unifier.andBind] at ok ⊢
      generalize firstUnifier.bindFloatLiteral var ty side = second at float ok ⊢
      obtain ⟨secondUnifier, secondResult⟩ := second
      obtain ⟨same, float, floatEnded⟩ := float
      dsimp only at same float floatEnded
      subst same
      cases secondResult with
      | some result => exact .skipped (floatEnded (congrArg some ok))
      | none =>
        dsimp only at ok ⊢
        generalize secondUnifier.bindStringLiteral var ty side = third at string ok ⊢
        obtain ⟨thirdUnifier, thirdResult⟩ := third
        obtain ⟨same, string, stringEnded⟩ := string
        dsimp only at same string stringEnded
        subst same
        cases thirdResult with
        | some result => exact .skipped (stringEnded (congrArg some ok))
        | none => exact .binds (binds_known free final plain absent known (int rfl) (float rfl) (string rfl))

end Bind

section Join

variable {unifier : Unifier} {var other : Nat} {side : VarSide}

/-- The state in which the number classes of two unbound variables have been joined. -/
def joiningNumbers (unifier : Unifier) (var other : Nat) (side : VarSide) : Unifier :=
  { unifier.noteLiteralJoin var other side with
    intLiteralVars := fun id => unifier.intLiteralVars id || (unifier.intLiteralVars var && id == other)
    floatLiteralVars := share unifier.floatLiteralVars var other }

def joining (unifier : Unifier) (var other : Nat) (side : VarSide) : Unifier :=
  { joiningNumbers unifier var other side with stringLiteralVars := share unifier.stringLiteralVars var other }

theorem share_of_marked {marks : TypeVarId → Bool} {id : Nat} (marked : marks id) : share marks var other id := by
  simp [share, marked]

theorem of_share {marks : TypeVarId → Bool} {id : Nat} (shared : share marks var other id) :
    marks id ∨ id = var ∨ InferType.var other = .var id := by
  simp only [share, Bool.or_eq_true, Bool.and_eq_true, beq_iff_eq] at shared
  rcases shared with (marked | ⟨_, same⟩) | ⟨_, same⟩
  · exact .inl marked
  · exact .inr (.inr (congrArg InferType.var same.symm))
  · exact .inr (.inl same)

theorem share_target {marks : TypeVarId → Bool} (shared : share marks var other var) : share marks var other other := by
  simp only [share, Bool.or_eq_true, Bool.and_eq_true, beq_iff_eq] at shared ⊢
  rcases shared with (marked | ⟨marked, _⟩) | ⟨marked, _⟩
  · exact .inl (.inr ⟨marked, trivial⟩)
  · exact .inl (.inr ⟨marked, trivial⟩)
  · exact .inl (.inl marked)

/-- An integer class and a float class that come together were noted, now or
when one of the two became both. -/
theorem noted_join (good : Good unifier) (free : unifier.substitution.get var = none)
    (open' : unifier.substitution.get other = none) (int : unifier.intLiteralVars other ∨ unifier.intLiteralVars var)
    (float : unifier.floatLiteralVars other ∨ unifier.floatLiteralVars var) :
    ∃ join ∈ noted (joining unifier var other side), applied unifier.substitution (.var join) = .var other ∨
      applied unifier.substitution (.var join) = .var var := by
  have old : ∀ join ∈ noted unifier, join ∈ noted (joining unifier var other side) := by
    intro join listed
    simp only [noted, joining, joiningNumbers, Unifier.noteLiteralJoin, List.map_append, List.mem_append] at listed ⊢
    exact listed.imp id .inl
  have new : ∀ join, unifier.literalJoin var other side = some (other, join) →
      ∃ join ∈ noted (joining unifier var other side), applied unifier.substitution (.var join) = .var other ∨
        applied unifier.substitution (.var join) = .var var := by
    intro join joins
    refine ⟨other, ?_, .inl (applied_free good.settled open')⟩
    simp [noted, joining, joiningNumbers, Unifier.noteLiteralJoin, joins]
  by_cases otherBoth : unifier.intLiteralVars other ∧ unifier.floatLiteralVars other
  · obtain ⟨join, listed, known⟩ := good.joined other open' otherBoth.1 otherBoth.2
    exact ⟨join, old join listed, .inl known⟩
  · by_cases varBoth : unifier.intLiteralVars var ∧ unifier.floatLiteralVars var
    · obtain ⟨join, listed, known⟩ := good.joined var free varBoth.1 varBoth.2
      exact ⟨join, old join listed, .inr known⟩
    · rcases int with int | int <;> rcases float with float | float
      · exact absurd ⟨int, float⟩ otherBoth
      · apply new side.opposite
        have plainVar : unifier.intLiteralVars var = false := by simpa [float] using varBoth
        have plainOther : unifier.floatLiteralVars other = false := by simpa [int] using otherBoth
        simp [Unifier.literalJoin, int, float, plainVar, plainOther]
      · apply new side
        have plainVar : unifier.floatLiteralVars var = false := by simpa [int] using varBoth
        have plainOther : unifier.intLiteralVars other = false := by simpa [float] using otherBoth
        simp [Unifier.literalJoin, int, float, plainVar, plainOther]
      · exact absurd ⟨int, float⟩ varBoth

theorem binds_joining (good : Good unifier) (free : unifier.substitution.get var = none)
    (open' : unifier.substitution.get other = none) (different : other ≠ var)
    (left : unifier.stringLiteralVars var → unifier.intLiteralVars other = false)
    (right : unifier.stringLiteralVars var = false → unifier.stringLiteralVars other → unifier.intLiteralVars var = false) :
    Binds unifier var (.var other) ((joining unifier var other side).insert var (.var other)) where
  free := free
  final := applied_free good.settled open'
  plain := trivial
  absent := different
  substitution := rfl
  types := rfl
  noted := by
    intro join listed
    simp only [Unifier.insert, noted, joining, joiningNumbers, Unifier.noteLiteralJoin, List.map_append,
      List.mem_append] at listed ⊢
    exact listed.imp id .inl
  ints := by
    intro id marked
    simp [Unifier.insert, joining, joiningNumbers, marked]
  floats := fun _ marked => share_of_marked marked
  strings := fun _ marked => share_of_marked marked
  newInts := by
    intro id marked
    simp only [Unifier.insert, joining, joiningNumbers, Bool.or_eq_true, Bool.and_eq_true, beq_iff_eq] at marked
    exact marked.imp_right fun joined => .inr (congrArg InferType.var joined.2.symm)
  newFloats := fun _ shared => of_share shared
  newStrings := fun _ shared => of_share shared
  takenInt := by
    intro marked
    simp only [Unifier.insert, joining, joiningNumbers, Bool.or_eq_true, Bool.and_eq_true, beq_iff_eq,
      Ne.symm different, and_false, or_false] at marked
    simp [Unifier.insert, Stands, joining, joiningNumbers, marked]
  takenFloat := fun shared => share_target shared
  takenString := fun shared => share_target shared
  apart := by
    intro rep target int string
    cases target
    simp only [Unifier.insert, joining, joiningNumbers, share, Bool.or_eq_true, Bool.and_eq_true, beq_iff_eq,
      different, and_true, and_false, or_false] at int string
    have fromVar : unifier.stringLiteralVars var → False := by
      intro marked
      rcases int with int | int
      · rw [left marked] at int
        cases int
      · exact good.apart var free int marked
    rcases string with string | string
    · rcases int with int | int
      · exact good.apart other open' int string
      · have clear : unifier.stringLiteralVars var = false := by simpa using fromVar
        rw [right clear string] at int
        cases int
    · exact fromVar string
  joined := by
    intro rep target int float
    cases target
    simp only [Unifier.insert, joining, joiningNumbers, share, Bool.or_eq_true, Bool.and_eq_true, beq_iff_eq,
      different, and_true, and_false, or_false] at int float
    exact noted_join good free open' int float

/-- The end of a binding: the result of a stage, or the variable bound. -/
def settle (stage : Unifier × Option UnifyResult) (var : TypeVarId) (ty : InferType) : Unifier × UnifyResult :=
  stage.2.elim (stage.1.insert var ty, .ok) fun result => (stage.1, result)

theorem settle_eq {ty : InferType} (stage : Unifier × Option UnifyResult) : (match stage with
    | (unifier, some result) => (unifier, result)
    | (unifier, none) => (unifier.insert var ty, .ok)) = settle stage var ty := by
  obtain ⟨_, _ | _⟩ := stage <;> rfl

theorem bind_var (good : Good unifier) (free : unifier.substitution.get var = none)
    (open' : unifier.substitution.get other = none) (ok : (unifier.bind var (.var other) side).2 = .ok) :
    Bound unifier var (.var other) (unifier.bind var (.var other) side).1 := by
  by_cases same : InferType.var other = .var var
  · simp only [Unifier.bind, if_pos same]
    exact .itself same
  · have different : other ≠ var := fun equal => same (congrArg InferType.var equal)
    by_cases occurs : unifier.substitution.occursIn var (.var other)
    · simp only [Unifier.bind, if_neg same, if_pos occurs] at ok
      cases ok
    · have shape : unifier.bind var (.var other) side =
          settle ((joiningNumbers unifier var other side).bindStringLiteral var (.var other) side) var (.var other) := by
        simp only [Unifier.bind, if_neg same, if_neg occurs, int_joined, float_joined, Unifier.andBind]
        exact settle_eq _
      have go : ((joiningNumbers unifier var other side).bindStringLiteral var (.var other) side).2 = none ∨
          ((joiningNumbers unifier var other side).bindStringLiteral var (.var other) side).2 = some .ok := by
        rw [shape, settle] at ok
        cases ended : ((joiningNumbers unifier var other side).bindStringLiteral var (.var other) side).2 with
        | none => exact .inl rfl
        | some result =>
          rw [ended] at ok
          exact .inr (congrArg some ok)
      obtain ⟨joined, left, right⟩ := string_joined go
      rw [shape, joined]
      refine .binds (binds_joining good free open' different ?_ ?_)
      · intro marked
        have clear := left marked
        simp only [joiningNumbers, Bool.or_eq_false_iff] at clear
        exact clear.1
      · intro unmarked marked
        have clear := right unmarked marked
        simp only [joiningNumbers, Bool.or_eq_false_iff] at clear
        exact clear.1

end Join

theorem bind_spec {unifier : Unifier} {var : Nat} {ty : InferType} {side : VarSide} {equal : AirType → AirType → Bool}
    (good : Good unifier) (free : unifier.substitution.get var = none) (final : applied unifier.substitution ty = ty)
    (plain : Plain ty) (ok : (unifier.bind var ty side).2 = .ok) :
    Unified equal unifier (.var var) ty (unifier.bind var ty side).1 ∧
    Unified equal unifier ty (.var var) (unifier.bind var ty side).1 := by
  have bound : Bound unifier var ty (unifier.bind var ty side).1 := by
    cases ty with
    | var other => exact bind_var good free (free_of_applied good.settled final) ok
    | concrete | intLiteral | array => exact bind_known good free final plain (by simp) ok
  generalize (unifier.bind var ty side).1 = after at bound
  cases bound with
  | itself same =>
    rw [same]
    have unified : Unified equal unifier (.var var) (.var var) unifier :=
      Unified.unchanged good fun later _ => .same (applied later (.var var))
    exact ⟨unified, unified⟩
  | skipped error =>
    rw [error]
    exact ⟨Unified.unchanged good fun later _ => .coercesRight _ rfl,
      Unified.unchanged good fun later _ => .coercesLeft _ rfl⟩
  | binds binds =>
    refine ⟨⟨binds.good good, binds.grows good, ?_⟩, ⟨binds.good good, binds.grows good, ?_⟩⟩
    · intro later extends'
      rw [binds.same good extends']
      exact .same _
    · intro later extends'
      rw [binds.same good extends']
      exact .same _

end Rue.Proofs.Inference

/-! Unification that reports success: the state it leaves is good, and the two
sides agree in it and in every later state. -/

namespace Rue.Proofs.Inference
open Rue.Inference

section Sides

variable {equal : AirType → AirType → Bool} {unifier : Unifier} {lhs rhs left right : InferType}

theorem final_element {substitution : Substitution} (settled : Settled substitution) {element : InferType} {length : Nat}
    (final : applied substitution (.array element length) = .array element length) :
    applied substitution element = element := by
  rw [applied_array settled] at final
  exact (InferType.array.inj final).1

theorem unifyResolved_spec (good : Good unifier) (leftFinal : applied unifier.substitution left = left)
    (rightFinal : applied unifier.substitution right = right) (leftPlain : Plain left) (rightPlain : Plain right)
    (ok : (unifier.unifyResolved equal lhs rhs left right).2 = .ok) :
    Unified equal unifier left right (unifier.unifyResolved equal lhs rhs left right).1 := by
  induction left generalizing lhs rhs right with
  | intLiteral => exact leftPlain.elim
  | var var =>
    have free := free_of_applied good.settled leftFinal
    have bound := @bind_spec unifier var right .found equal good free rightFinal rightPlain
    cases right with
    | intLiteral => exact rightPlain.elim
    | concrete | var | array =>
      rw [Unifier.unifyResolved] at ok ⊢
      exact (bound ok).1
  | concrete one =>
    cases right with
    | intLiteral => exact rightPlain.elim
    | concrete other =>
      rw [Unifier.unifyResolved] at ok ⊢
      split at ok
      next passes =>
        rw [if_pos passes]
        apply Unified.unchanged good
        intro later _
        rw [applied_concrete, applied_concrete]
        simp only [AirType.canCoerceTo, Bool.or_eq_true, decide_eq_true_eq] at passes
        rcases passes with (equals | (coerces | same)) | (coerces | same)
        · exact .equal equals
        · exact .coercesLeft _ (by simpa using coerces)
        · exact same ▸ .same _
        · exact .coercesRight _ (by simpa using coerces)
        · exact same ▸ .same _
      next => cases ok
    | var var =>
      rw [Unifier.unifyResolved.eq_3 _ _ _ _ _ _ (by simp)] at ok ⊢
      exact (bind_spec good (free_of_applied good.settled rightFinal) leftFinal leftPlain ok).2
    | array element length =>
      rw [Unifier.unifyResolved] at ok ⊢
      split at ok
      next coerces =>
        rw [if_pos coerces]
        exact Unified.unchanged good fun later _ => .coercesLeft _ coerces
      next => cases ok
  | array element length ih =>
    cases right with
    | intLiteral => exact rightPlain.elim
    | concrete other =>
      rw [Unifier.unifyResolved] at ok ⊢
      split at ok
      next coerces =>
        rw [if_pos coerces]
        exact Unified.unchanged good fun later _ => .coercesRight _ coerces
      next => cases ok
    | var var =>
      rw [Unifier.unifyResolved.eq_3 _ _ _ _ _ _ (by simp)] at ok ⊢
      exact (bind_spec good (free_of_applied good.settled rightFinal) leftFinal leftPlain ok).2
    | array other otherLength =>
      rw [Unifier.unifyResolved] at ok ⊢
      split at ok
      next => cases ok
      next same =>
        rw [if_neg same]
        obtain rfl : length = otherLength := by simpa using same
        exact (ih (final_element good.settled leftFinal) (final_element good.settled rightFinal) leftPlain rightPlain
          ok).array

theorem apply_both (good : Good unifier) (lhs rhs : InferType) : ∃ first substitution,
    Same unifier.substitution substitution ∧ unifier.apply lhs = (applied unifier.substitution lhs, first) ∧
      first.apply rhs = (applied unifier.substitution rhs, { unifier with substitution }) := by
  obtain ⟨first, firstSame, firstApply⟩ := apply_spec good lhs
  obtain ⟨second, secondSame, secondApply⟩ := apply_spec (good.compress firstSame) rhs
  refine ⟨_, second, firstSame.trans secondSame, firstApply, ?_⟩
  rw [secondApply, firstSame.applied good.settled]

theorem unifyWith_spec (good : Good unifier) (leftPlain : Plain lhs) (rightPlain : Plain rhs)
    (ok : (unifier.unifyWith equal lhs rhs).2 = .ok) :
    Unified equal unifier lhs rhs (unifier.unifyWith equal lhs rhs).1 := by
  obtain ⟨first, substitution, same, firstApply, secondApply⟩ := apply_both good lhs rhs
  rw [Unifier.unifyWith, firstApply] at ok ⊢
  dsimp only at ok ⊢
  rw [secondApply] at ok ⊢
  dsimp only at ok ⊢
  have known := good.compress same
  have final (ty : InferType) :
      applied substitution (applied unifier.substitution ty) = applied unifier.substitution ty := by
    rw [same.applied good.settled, applied_applied good.settled]
  apply Unified.of_left rfl
  apply Unified.of_right rfl
  apply Unified.after_grows (Grows.of_same good same)
  exact unifyResolved_spec known (final lhs) (final rhs) (plain_applied good.settled good.plain leftPlain)
    (plain_applied good.settled good.plain rightPlain) ok

theorem literal_class (good : Good unifier) (plain : Plain lhs)
    (literal : unifier.contextualIntLiteral lhs (applied unifier.substitution lhs)) :
    ∃ var rep, lhs = .var var ∧ applied unifier.substitution lhs = .var rep ∧ unifier.intLiteralVars rep := by
  cases lhs with
  | intLiteral => exact plain.elim
  | concrete => cases literal
  | array element length =>
    rw [applied_array good.settled] at literal
    cases literal
  | var var =>
    have resolved := good.plain var
    cases known : applied unifier.substitution (.var var) with
    | intLiteral =>
      rw [known] at resolved
      exact resolved.elim
    | concrete | array =>
      rw [known] at literal
      cases literal
    | var rep =>
      rw [known, Unifier.contextualIntLiteral, Bool.or_eq_true] at literal
      refine ⟨var, rep, rfl, rfl, ?_⟩
      rcases literal with marked | marked
      · exact marked
      · have stands := good.ints var marked
        rwa [known] at stands

/-- An integer literal's class is typed by a float it is passed for. -/
theorem rebind_float {float : AirType} (good : Good unifier) (plain : Plain lhs) (isFloat : float.isFloat)
    (literal : unifier.contextualIntLiteral lhs (applied unifier.substitution lhs)) :
    Unified equal unifier lhs (.concrete float) (unifier.rebindIntLiteralToConcrete lhs float) := by
  obtain ⟨var, rep, rfl, known, marked⟩ := literal_class good plain literal
  obtain ⟨substitution, same, computed⟩ := apply_spec good (.var var)
  have compressed := good.compress same
  have shape : unifier.rebindIntLiteralToConcrete (.var var) float =
      ({ unifier with substitution } : Unifier).insert rep (.concrete float) := by
    simp only [Unifier.rebindIntLiteralToConcrete, computed, known, marked, Bool.or_true, if_true]
  have free : substitution.get rep = none := (same.free rep).mpr (free_of_applied good.settled known)
  have binds : Binds { unifier with substitution } rep (.concrete float) _ := binds_known free rfl trivial id (by simp)
    (fun _ => by simp [Stands, takesInt, isFloat]) (fun _ => by simp [Stands, takesFloat, isFloat])
    (fun string => absurd string (compressed.apart rep free marked))
  rw [shape]
  refine Unified.after_grows (Grows.of_same good same) ⟨binds.good compressed, binds.grows compressed, ?_⟩
  intro later extends'
  have typed : applied (substitution.insert rep (.concrete float)) (.var var) = .concrete float := by
    have inserted := binds.applied compressed (.var var)
    rw [same.applied good.settled, known, replace, if_pos rfl] at inserted
    exact inserted
  rw [extends'.concrete typed, applied_concrete]
  exact .same _

theorem contextualResolved_leaf (good : Good unifier) (leftIs : applied unifier.substitution lhs = left)
    (rightIs : applied unifier.substitution rhs = right) (leftPlain : Plain lhs) (rightPlain : Plain rhs)
    (leaf : left.isArray = false ∨ right.isArray = false)
    (ok : (unifier.contextualResolved equal lhs rhs left right).2 = .ok) :
    Unified equal unifier lhs rhs (unifier.contextualResolved equal lhs rhs left right).1 := by
  unfold Unifier.contextualResolved at ok ⊢
  revert ok
  split
  next literal =>
    intro _
    apply Unified.of_right rightIs
    exact rebind_float good leftPlain rfl (leftIs ▸ literal)
  next literal =>
    intro _
    apply Unified.of_right rightIs
    exact rebind_float good leftPlain rfl (leftIs ▸ literal)
  next =>
    split
    next => simp [InferType.isArray] at leaf
    next =>
      intro ok
      exact unifyWith_spec good leftPlain rightPlain ok

theorem contextualResolved_spec (good : Good unifier) (leftIs : applied unifier.substitution lhs = left)
    (rightIs : applied unifier.substitution rhs = right) (leftPlain : Plain lhs) (rightPlain : Plain rhs)
    (ok : (unifier.contextualResolved equal lhs rhs left right).2 = .ok) :
    Unified equal unifier lhs rhs (unifier.contextualResolved equal lhs rhs left right).1 := by
  induction left generalizing lhs rhs right with
  | array element length ih =>
    cases right with
    | array other otherLength =>
      have shape : unifier.contextualResolved equal lhs rhs (.array element length) (.array other otherLength) =
          if length ≠ otherLength then (unifier, .arrayLengthMismatch otherLength length)
          else unifier.contextualResolved equal element other element other := by
        rw [Unifier.contextualResolved]
      rw [shape] at ok ⊢
      split at ok
      next => cases ok
      next same =>
        rw [if_neg same]
        obtain rfl : length = otherLength := by simpa using same
        apply Unified.of_left leftIs
        apply Unified.of_right rightIs
        have leftPlain := plain_applied good.settled good.plain leftPlain
        have rightPlain := plain_applied good.settled good.plain rightPlain
        rw [leftIs] at leftPlain
        rw [rightIs] at rightPlain
        have leftFinal := applied_applied good.settled lhs
        have rightFinal := applied_applied good.settled rhs
        rw [leftIs] at leftFinal
        rw [rightIs] at rightFinal
        exact (ih (final_element good.settled leftFinal) (final_element good.settled rightFinal) leftPlain rightPlain
          ok).array
    | concrete | var | intLiteral => exact contextualResolved_leaf good leftIs rightIs leftPlain rightPlain (.inr rfl) ok
  | concrete | var | intLiteral => exact contextualResolved_leaf good leftIs rightIs leftPlain rightPlain (.inl rfl) ok

theorem unifyContextual_spec (good : Good unifier) (leftPlain : Plain lhs) (rightPlain : Plain rhs)
    (ok : (unifier.unifyContextual equal lhs rhs).2 = .ok) :
    Unified equal unifier lhs rhs (unifier.unifyContextual equal lhs rhs).1 := by
  obtain ⟨first, substitution, same, firstApply, secondApply⟩ := apply_both good lhs rhs
  rw [Unifier.unifyContextual, firstApply] at ok ⊢
  dsimp only at ok ⊢
  rw [secondApply] at ok ⊢
  dsimp only at ok ⊢
  apply Unified.after_grows (Grows.of_same good same)
  exact contextualResolved_spec (good.compress same) (same.applied good.settled lhs) (same.applied good.settled rhs)
    leftPlain rightPlain ok

theorem unifyPeer_spec (good : Good unifier) (leftPlain : Plain lhs) (rightPlain : Plain rhs)
    (ok : (unifier.unifyPeer equal lhs rhs).2 = .ok) :
    Unified equal unifier lhs rhs (unifier.unifyPeer equal lhs rhs).1 := by
  obtain ⟨first, substitution, same, firstApply, secondApply⟩ := apply_both good lhs rhs
  rw [Unifier.unifyPeer, firstApply] at ok ⊢
  dsimp only at ok ⊢
  rw [secondApply] at ok ⊢
  dsimp only at ok ⊢
  split at ok
  next => cases ok
  next paired =>
    rw [if_neg paired]
    exact Unified.after_grows (Grows.of_same good same) (unifyWith_spec (good.compress same) leftPlain rightPlain ok)

end Sides

end Rue.Proofs.Inference
