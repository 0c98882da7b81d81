import Rue.Inference.Unify
import Rue.Proofs.Inference.Substitution

/-! Literal classes under the substitution: a marked variable resolves to one
that is marked too, or to a type its literal may take. Binding a variable keeps
this, provided the checks on its marks were made. -/

namespace Rue.Proofs.Inference
open Rue.Inference

/-- Free of the bare literal type, which no expression is given. -/
def Plain : InferType → Prop
  | .intLiteral => False
  | .array element _ => Plain element
  | _ => True

def takesInt (ty : AirType) : Bool := ty.isInteger || ty.isFloat || ty.isNever

def takesFloat (ty : AirType) : Bool := ty.isFloat || ty = .comptimeFloat || ty.isError || ty.isNever

/-- What a variable of a literal's class resolves to. -/
def Stands (marks : TypeVarId → Bool) (takes : AirType → Bool) : InferType → Prop
  | .var rep => marks rep
  | .concrete ty => takes ty
  | _ => False

/-- The variables whose joins were noted so far. -/
def noted (unifier : Unifier) : List TypeVarId :=
  unifier.literalJoins.map (fun join => join.1) ++ unifier.pendingLiteralJoins.map Prod.fst

structure Good (unifier : Unifier) : Prop where
  settled : Settled unifier.substitution
  plain : ∀ id, Plain (applied unifier.substitution (.var id))
  ints : ∀ id, unifier.intLiteralVars id →
    Stands unifier.intLiteralVars takesInt (applied unifier.substitution (.var id))
  floats : ∀ id, unifier.floatLiteralVars id →
    Stands unifier.floatLiteralVars takesFloat (applied unifier.substitution (.var id))
  strings : ∀ id, unifier.stringLiteralVars id →
    Stands unifier.stringLiteralVars unifier.stringLiteralTypes (applied unifier.substitution (.var id))
  apart : ∀ rep, unifier.substitution.get rep = none → unifier.intLiteralVars rep → ¬ unifier.stringLiteralVars rep
  joined : ∀ rep, unifier.substitution.get rep = none → unifier.intLiteralVars rep → unifier.floatLiteralVars rep →
    ∃ join ∈ noted unifier, applied unifier.substitution (.var join) = .var rep

structure Grows (earlier later : Unifier) : Prop where
  substitution : Extends earlier.substitution later.substitution
  ints : ∀ id, earlier.intLiteralVars id → later.intLiteralVars id
  floats : ∀ id, earlier.floatLiteralVars id → later.floatLiteralVars id
  strings : ∀ id, earlier.stringLiteralVars id → later.stringLiteralVars id
  types : ∀ ty, earlier.stringLiteralTypes ty → later.stringLiteralTypes ty

namespace Grows

variable {earlier middle later : Unifier}

theorem refl (settled : Settled earlier.substitution) : Grows earlier earlier where
  substitution := Extends.refl settled
  ints := fun _ marked => marked
  floats := fun _ marked => marked
  strings := fun _ marked => marked
  types := fun _ listed => listed

theorem trans (first : Grows earlier middle) (second : Grows middle later) : Grows earlier later where
  substitution := first.substitution.trans second.substitution
  ints := fun id marked => second.ints id (first.ints id marked)
  floats := fun id marked => second.floats id (first.floats id marked)
  strings := fun id marked => second.strings id (first.strings id marked)
  types := fun ty listed => second.types ty (first.types ty listed)

end Grows

theorem plain_applied {substitution : Substitution} (settled : Settled substitution)
    (plain : ∀ id, Plain (applied substitution (.var id))) {ty : InferType} (written : Plain ty) :
    Plain (applied substitution ty) := by
  induction ty with
  | concrete => exact trivial
  | intLiteral => exact written.elim
  | var id => exact plain id
  | array element length ih =>
    rw [applied_array settled]
    exact ih written

theorem plain_replace {var : Nat} {by' ty : InferType} (bound : Plain by') (plain : Plain ty) :
    Plain (replace var by' ty) := by
  induction ty with
  | concrete | intLiteral => exact plain
  | var id =>
    rw [replace]
    split
    · exact bound
    · exact trivial
  | array element length ih => exact ih plain

namespace Stands

variable {marks wider : TypeVarId → Bool} {takes more : AirType → Bool} {ty : InferType}

theorem mono (stands : Stands marks takes ty) (marked : ∀ id, marks id → wider id)
    (taken : ∀ ty, takes ty → more ty) : Stands wider more ty := by
  cases ty with
  | concrete ty => exact taken ty stands
  | var id => exact marked id stands
  | intLiteral | array => exact stands

theorem replace {var : Nat} {by' : InferType} (stands : Stands marks takes ty)
    (bound : marks var → Stands marks takes by') : Stands marks takes (Inference.replace var by' ty) := by
  cases ty with
  | concrete ty => exact stands
  | var id =>
    rw [Inference.replace]
    split
    next same => exact bound (same ▸ stands)
    · exact stands
  | intLiteral | array => exact stands.elim

end Stands

/-- The binding of an unbound variable, with the marks it leaves behind. -/
structure Binds (unifier : Unifier) (var : Nat) (ty : InferType) (after : Unifier) : Prop where
  free : unifier.substitution.get var = none
  final : applied unifier.substitution ty = ty
  plain : Plain ty
  absent : ¬ Mentions var ty
  substitution : after.substitution = unifier.substitution.insert var ty
  types : after.stringLiteralTypes = unifier.stringLiteralTypes
  noted : ∀ join ∈ noted unifier, join ∈ noted after
  ints : ∀ id, unifier.intLiteralVars id → after.intLiteralVars id
  floats : ∀ id, unifier.floatLiteralVars id → after.floatLiteralVars id
  strings : ∀ id, unifier.stringLiteralVars id → after.stringLiteralVars id
  newInts : ∀ id, after.intLiteralVars id → unifier.intLiteralVars id ∨ id = var ∨ ty = .var id
  newFloats : ∀ id, after.floatLiteralVars id → unifier.floatLiteralVars id ∨ id = var ∨ ty = .var id
  newStrings : ∀ id, after.stringLiteralVars id → unifier.stringLiteralVars id ∨ id = var ∨ ty = .var id
  takenInt : after.intLiteralVars var → Stands after.intLiteralVars takesInt ty
  takenFloat : after.floatLiteralVars var → Stands after.floatLiteralVars takesFloat ty
  takenString : after.stringLiteralVars var → Stands after.stringLiteralVars after.stringLiteralTypes ty
  apart : ∀ rep, ty = .var rep → after.intLiteralVars rep → ¬ after.stringLiteralVars rep
  joined : ∀ rep, ty = .var rep → after.intLiteralVars rep → after.floatLiteralVars rep →
    ∃ join ∈ Inference.noted after, applied unifier.substitution (.var join) = .var rep ∨
      applied unifier.substitution (.var join) = .var var

namespace Binds

variable {unifier after : Unifier} {var : Nat} {ty : InferType}

theorem applied (binds : Binds unifier var ty after) (good : Good unifier) (start : InferType) :
    applied after.substitution start = replace var ty (applied unifier.substitution start) := by
  rw [binds.substitution, applied_insert good.settled binds.free binds.final binds.absent]

theorem replace_self (binds : Binds unifier var ty after) : replace var ty ty = ty :=
  replace_of_not_mentions binds.absent

theorem stands {marks wider : TypeVarId → Bool} {takes : AirType → Bool} (binds : Binds unifier var ty after)
    (good : Good unifier) (old : ∀ id, marks id → Stands marks takes (Inference.applied unifier.substitution (.var id)))
    (kept : ∀ id, marks id → wider id) (new : ∀ id, wider id → marks id ∨ id = var ∨ ty = .var id)
    (taken : wider var → Stands wider takes ty) (id : Nat) (marked : wider id) :
    Stands wider takes (Inference.applied after.substitution (.var id)) := by
  rw [binds.applied good]
  rcases new id marked with before | rfl | rfl
  · exact ((old id before).mono kept fun _ given => given).replace taken
  · rw [applied_free good.settled binds.free, replace, if_pos rfl]
    exact taken marked
  · rw [binds.final, binds.replace_self]
    exact marked

theorem free_before (binds : Binds unifier var ty after) {rep : Nat} (free : after.substitution.get rep = none) :
    rep ≠ var ∧ unifier.substitution.get rep = none := by
  rw [binds.substitution, get_insert] at free
  split at free
  next same => cases free
  next different => exact ⟨different, free⟩

theorem good (binds : Binds unifier var ty after) (good : Good unifier) : Good after where
  settled := by
    rw [binds.substitution]
    exact settled_insert good.settled binds.free binds.final binds.absent
  plain := by
    intro id
    rw [binds.applied good]
    exact plain_replace binds.plain (good.plain id)
  ints := binds.stands good good.ints binds.ints binds.newInts binds.takenInt
  floats := binds.stands good good.floats binds.floats binds.newFloats binds.takenFloat
  strings := by
    apply binds.stands good _ binds.strings binds.newStrings binds.takenString
    rw [binds.types]
    exact good.strings
  apart := by
    intro rep free marked string
    obtain ⟨different, free⟩ := binds.free_before free
    by_cases target : ty = .var rep
    · exact binds.apart rep target marked string
    · have int := binds.newInts rep marked
      have string := binds.newStrings rep string
      simp only [different, target, or_false] at int string
      exact good.apart rep free int string
  joined := by
    intro rep free int float
    obtain ⟨different, free⟩ := binds.free_before free
    by_cases target : ty = .var rep
    · obtain ⟨join, listed, known⟩ := binds.joined rep target int float
      refine ⟨join, listed, ?_⟩
      rw [binds.applied good]
      rcases known with known | known
      · rw [known, replace, if_neg different]
      · rw [known, replace, if_pos rfl, target]
    · have int := binds.newInts rep int
      have float := binds.newFloats rep float
      simp only [different, target, or_false] at int float
      obtain ⟨join, listed, known⟩ := good.joined rep free int float
      refine ⟨join, binds.noted join listed, ?_⟩
      rw [binds.applied good, known, replace, if_neg different]

theorem grows (binds : Binds unifier var ty after) (good : Good unifier) : Grows unifier after where
  substitution := by
    rw [binds.substitution]
    exact Extends.of_insert good.settled binds.free binds.final binds.absent
  ints := binds.ints
  floats := binds.floats
  strings := binds.strings
  types := by
    rw [binds.types]
    exact fun _ listed => listed

end Binds

/-- A lookup changes nothing but the substitution's paths. -/
theorem apply_spec {unifier : Unifier} (good : Good unifier) (ty : InferType) :
    ∃ substitution, Same unifier.substitution substitution ∧
      unifier.apply ty = (applied unifier.substitution ty, { unifier with substitution }) :=
  ⟨_, (good.settled.apply ty).2, rfl⟩

theorem Good.compress {unifier : Unifier} {substitution : Substitution} (good : Good unifier)
    (same : Same unifier.substitution substitution) : Good { unifier with substitution } where
  settled := same.settled good.settled
  plain := by
    intro id
    rw [same.applied good.settled]
    exact good.plain id
  ints := by
    intro id
    rw [same.applied good.settled]
    exact good.ints id
  floats := by
    intro id
    rw [same.applied good.settled]
    exact good.floats id
  strings := by
    intro id
    rw [same.applied good.settled]
    exact good.strings id
  apart := fun rep free => good.apart rep ((same.free rep).mp free)
  joined := by
    intro rep free int float
    obtain ⟨join, listed, known⟩ := good.joined rep ((same.free rep).mp free) int float
    exact ⟨join, listed, (same.applied good.settled _).trans known⟩

theorem Grows.of_same {unifier : Unifier} {substitution : Substitution} (good : Good unifier)
    (same : Same unifier.substitution substitution) : Grows unifier { unifier with substitution } where
  substitution := Extends.of_same good.settled same
  ints := fun _ marked => marked
  floats := fun _ marked => marked
  strings := fun _ marked => marked
  types := fun _ listed => listed

end Rue.Proofs.Inference
