import Rue.Proofs.Inference.Predicates

/-! Soundness of inference: a run without errors and without unresolved literal
joins gives, after the defaults, a solution of its constraints. -/

namespace Rue.Proofs.Inference
open Rue.Inference

section Joins

variable {unifier : Unifier}

def joinStep (state : List (TypeVarId × UnificationError) × Unifier) (join : TypeVarId × VarSide × Span) :
    List (TypeVarId × UnificationError) × Unifier :=
  match state.2.apply (.var join.1) with
  | (.var id, unifier) =>
    if state.1.any fun join => join.1 == id then (state.1, unifier)
    else (state.1 ++ [(id, ⟨Unifier.intLiteralMismatch (.concrete .comptimeFloat) join.2.1, join.2.2⟩)], unifier)
  | (_, unifier) => (state.1, unifier)

/-- No join unresolved: every noted class has a type. -/
theorem joins_resolved (settled : Settled unifier.substitution) (none' : unifier.unresolvedLiteralJoins = []) :
    ∀ join ∈ unifier.literalJoins, ∀ rep, applied unifier.substitution (.var join.1) ≠ .var rep := by
  have stepped {state : List (TypeVarId × UnificationError) × Unifier} (join : TypeVarId × VarSide × Span)
      (same : Same unifier.substitution state.2.substitution) :
      Same unifier.substitution (joinStep state join).2.substitution ∧
      ((joinStep state join).1 = [] → state.1 = [] ∧ ∀ rep, applied unifier.substitution (.var join.1) ≠ .var rep) := by
    have computed : state.2.apply (.var join.1) = (applied unifier.substitution (.var join.1),
        { state.2 with substitution := (state.2.substitution.apply (.var join.1)).2 }) := by
      rw [← same.applied settled]
      rfl
    have looked := same.trans ((same.settled settled).apply (.var join.1)).2
    rw [joinStep, computed]
    split
    next id after known =>
      obtain ⟨-, rfl⟩ := Prod.mk.inj known
      split
      next listed =>
        refine ⟨looked, ?_⟩
        intro empty
        rw [show state.1 = [] from empty] at listed
        cases listed
      next =>
        refine ⟨looked, ?_⟩
        intro empty
        simp at empty
    next after unknown known =>
      obtain ⟨found, rfl⟩ := Prod.mk.inj known
      exact ⟨looked, fun empty => ⟨empty, fun rep open' => unknown rep (found.symm.trans open')⟩⟩
  have run (joins : List (TypeVarId × VarSide × Span)) (state : List (TypeVarId × UnificationError) × Unifier)
      (same : Same unifier.substitution state.2.substitution) (empty : (joins.foldl joinStep state).1 = []) :
      state.1 = [] ∧ ∀ join ∈ joins, ∀ rep, applied unifier.substitution (.var join.1) ≠ .var rep := by
    induction joins generalizing state with
    | nil => exact ⟨empty, fun _ listed => absurd listed List.not_mem_nil⟩
    | cons join rest ih =>
      obtain ⟨same', known⟩ := stepped join same
      obtain ⟨before, later⟩ := ih _ same' empty
      refine ⟨(known before).1, ?_⟩
      intro one listed
      rcases List.mem_cons.mp listed with rfl | listed
      · exact (known before).2
      · exact later one listed
  exact (run unifier.literalJoins ([], unifier) (Same.refl _) none').2

end Joins

section Defaults

variable {value : AirType} {unifier : Unifier}

def defaultClasses (unifier : Unifier) (vars : List TypeVarId) (rep : Nat) : Prop :=
  ∃ var ∈ vars, applied unifier.substitution (.var var) = .var rep

theorem defaults_run (settled : Settled unifier.substitution) (vars : List TypeVarId) :
    Fills value (defaultClasses unifier vars) unifier (vars.foldl (Unifier.defaultVar value) unifier) ∧
    ∀ var ∈ vars, ∀ rep, applied (vars.foldl (Unifier.defaultVar value) unifier).substitution (.var var) ≠ .var rep := by
  induction vars generalizing unifier with
  | nil => exact ⟨Fills.of_same settled (Same.refl _), fun _ listed => absurd listed List.not_mem_nil⟩
  | cons first rest ih =>
    have filled := @fill_fills unifier (.var first) value settled
    obtain ⟨fills, known⟩ := @ih (Unifier.defaultVar value unifier first) filled.extends'.settled
    rw [List.foldl_cons]
    constructor
    · refine (filled.mono ?_).trans (fills.mono ?_)
      · exact fun rep open' => ⟨first, List.mem_cons_self, open'⟩
      · intro rep qualifies
        obtain ⟨var, listed, open'⟩ := qualifies
        exact ⟨var, List.mem_cons_of_mem _ listed, filled.kept _ _ open'⟩
    · intro var listed rep open'
      rcases List.mem_cons.mp listed with rfl | listed
      · exact fill_known settled rep (fills.kept _ _ open')
      · exact known var listed rep open'

end Defaults

section Resolve

variable {equal : AirType → AirType → Bool} {lookups : Lookups} {constraint : Constraint}

theorem Agree.defaultLiterals {one other : InferType} (agree : Agree equal one other) :
    Agree equal (Unifier.defaultLiterals one) (Unifier.defaultLiterals other) := by
  induction agree with
  | same ty => exact .same _
  | equal equals => exact .equal equals
  | coercesLeft other coerces => exact .coercesLeft _ coerces
  | coercesRight other coerces => exact .coercesRight _ coerces
  | array length _ ih => exact .array length ih

theorem Number.defaultLiterals {numbers : AirType → Bool} {ty : InferType} (number : Number numbers ty) :
    Number numbers (Unifier.defaultLiterals ty) := by
  cases ty with
  | concrete | var => exact number
  | intLiteral | array => exact number.elim

/-- What holds of the types the substitution gives holds once a bare literal is
read as its default. -/
theorem Holds.resolved {unifier : Unifier} (holds : Holds lookups (applied unifier.substitution) constraint) :
    Holds lookups unifier.resolveInferType constraint := by
  have same {one other : InferType} (equal : applied unifier.substitution one = applied unifier.substitution other) :
      unifier.resolveInferType one = unifier.resolveInferType other := congrArg Unifier.defaultLiterals equal
  cases constraint with
  | equal | contextualEqual | peerEqual => exact Agree.defaultLiterals holds
  | fieldGet | fieldSet | indexGet | indexSet =>
    obtain ⟨known, projected, base, found, agree⟩ := holds
    exact ⟨known, projected, same base, found, agree.defaultLiterals⟩
  | isInteger | isNumeric => exact Number.defaultLiterals holds
  | isUnsigned ty span =>
    obtain ⟨final, known, passes⟩ := holds
    exact ⟨final, congrArg Unifier.defaultLiterals known, passes⟩
  | isSigned ty span =>
    intro final known
    rw [Unifier.resolveInferType] at known
    change Unifier.defaultLiterals (applied unifier.substitution ty) = _ at known
    cases shape : applied unifier.substitution ty with
    | concrete concrete =>
      rw [shape] at known
      exact InferType.concrete.inj known ▸ holds concrete shape
    | intLiteral =>
      rw [shape] at known
      exact InferType.concrete.inj known ▸ rfl
    | var | array =>
      rw [shape] at known
      cases known

end Resolve

def beginning (unifier : Unifier) : Lookups.FirstPass :=
  { solving := { unifier, errors := [] }, projections := [], predicates := [] }

def firstPass (lookups : Lookups) (unifier : Unifier) (constraints : List Constraint) : Lookups.FirstPass :=
  constraints.foldl lookups.equalityStep (beginning unifier)

/-- The states of the run up to its predicates. -/
def equalityTrail (lookups : Lookups) (unifier : Unifier) (constraints : List Constraint) : List Solving :=
  let pass := firstPass lookups unifier constraints
  (constraints.scanl lookups.equalityStep (beginning unifier)).map Lookups.FirstPass.solving ++
    projectionTrail lookups (pass.projections.length + 1) pass.solving pass.projections

/-- Every state of the run, from the first constraint to the last predicate. -/
def trail (lookups : Lookups) (unifier : Unifier) (constraints : List Constraint) : List Solving :=
  let solved := lookups.solveEqualities unifier constraints
  equalityTrail lookups unifier constraints ++ solved.predicates.scanl Lookups.predicateStep solved.solving

structure Solution (lookups : Lookups) (unifier : Unifier) (constraints : List Constraint)
    (intLiteralVars floatLiteralVars stringLiteralVars : List TypeVarId) (stringLiteralDefault : AirType)
    (final : Unifier) : Prop where
  holds : ∀ constraint ∈ constraints, constraint ∈ (lookups.solveEqualities unifier constraints).projections ∨
    Holds lookups final.resolveInferType constraint
  equated : ∀ visited ∈ trail lookups unifier constraints, ∀ one other,
    applied visited.unifier.substitution one = applied visited.unifier.substitution other →
      final.resolveInferType one = final.resolveInferType other
  ints : ∀ var ∈ intLiteralVars, ∃ ty, final.resolveInferType (.var var) = .concrete ty ∧
    (ty.isInteger ∨ ty.isFloat ∨ ty.isNever)
  floats : ∀ var ∈ floatLiteralVars, ∃ ty, final.resolveInferType (.var var) = .concrete ty ∧
    (ty.isFloat ∨ ty = .comptimeFloat ∨ ty.isError ∨ ty.isNever)
  strings : ∀ var ∈ stringLiteralVars, ∃ ty, final.resolveInferType (.var var) = .concrete ty ∧
    (final.stringLiteralTypes ty ∨ ty = stringLiteralDefault)

section Start

variable {typeVarCount : Nat} {intLiteralVars floatLiteralVars stringLiteralVars : List TypeVarId}
  {stringLiteralTypes : List AirType}

theorem get_withCapacity (capacity id : Nat) : (Substitution.withCapacity capacity).get id = none := by
  rw [Substitution.get, Substitution.withCapacity, List.getElem?_replicate]
  split <;> rfl

/-- A body's unifier is ready, as no literal is marked twice. -/
theorem ready_prepared (intsStrings : ∀ var ∈ intLiteralVars, var ∉ stringLiteralVars)
    (intsFloats : ∀ var ∈ intLiteralVars, var ∉ floatLiteralVars) :
    Ready (Unifier.prepared typeVarCount intLiteralVars floatLiteralVars stringLiteralVars stringLiteralTypes) := by
  have settled : Settled (Substitution.withCapacity typeVarCount) := fun id => ⟨0, _, .unbound (get_withCapacity _ id)⟩
  have itself (id : Nat) : applied (Unifier.prepared typeVarCount intLiteralVars floatLiteralVars stringLiteralVars
      stringLiteralTypes).substitution (.var id) = .var id := applied_free settled (get_withCapacity _ id)
  refine ⟨⟨settled, ?_, ?_, ?_, ?_, ?_, ?_⟩, rfl⟩
  · intro id
    rw [itself]
    trivial
  · intro id marked
    rw [itself]
    exact marked
  · intro id marked
    rw [itself]
    exact marked
  · intro id marked
    rw [itself]
    exact marked
  · intro rep _ int string
    simp only [Unifier.prepared, Unifier.withCapacity, Unifier.markIntLiteralVars, Unifier.markFloatLiteralVars,
      Unifier.markStringLiteralVars, Bool.false_or, decide_eq_true_eq] at int string
    exact intsStrings rep int string
  · intro rep _ int float
    simp only [Unifier.prepared, Unifier.withCapacity, Unifier.markIntLiteralVars, Unifier.markFloatLiteralVars,
      Unifier.markStringLiteralVars, Bool.false_or, decide_eq_true_eq] at int float
    exact absurd float (intsFloats rep int)

end Start

theorem mem_ofKind {wanted : Kind} {constraint : Constraint} {constraints : List Constraint} :
    constraint ∈ ofKind wanted constraints ↔ constraint ∈ constraints ∧ kind constraint = wanted := by
  rw [ofKind, List.mem_filter, decide_eq_true_eq]

/-- The run up to its predicates, if it reports no error. -/
structure Solved (lookups : Lookups) (unifier : Unifier) (constraints : List Constraint)
    (pass : Lookups.FirstPass) : Prop where
  ready : Ready pass.solving.unifier
  grows : Grows unifier pass.solving.unifier
  predicates : pass.predicates = ofKind .predicate constraints
  holds : ∀ constraint ∈ constraints, constraint ∈ pass.projections ∨ constraint ∈ pass.predicates ∨
    HoldsFrom lookups pass.solving.unifier.substitution constraint
  visits : ∀ visited ∈ equalityTrail lookups unifier constraints,
    Extends visited.unifier.substitution pass.solving.unifier.substitution

section Run

variable {lookups : Lookups} {unifier : Unifier} {constraints : List Constraint}

theorem solveEqualities_spec (answers : Answers lookups) (written : ∀ constraint ∈ constraints, Written constraint)
    (ready : Ready unifier) (clean : (lookups.solveEqualities unifier constraints).solving.errors = []) :
    Solved lookups unifier constraints (lookups.solveEqualities unifier constraints) := by
  obtain ⟨first, equalities, projections, predicates⟩ :=
    @equalities_run lookups (beginning unifier) constraints written
  have passVisits := Advance.scanl Lookups.FirstPass.solving lookups.equalityStep constraints
    (fun pass constraint listed => (equalityStep_stepped (written constraint listed)).advance) (beginning unifier)
  change (firstPass lookups unifier constraints).projections = ofKind .projection constraints at projections
  have listed : ∀ constraint ∈ (firstPass lookups unifier constraints).projections,
      constraint ∈ constraints ∧ kind constraint = .projection := by
    intro constraint waits
    rw [projections] at waits
    exact mem_ofKind.mp waits
  obtain ⟨second, made, trailVisits⟩ := @resolveProjections_spec lookups
    (firstPass lookups unifier constraints).solving answers
    ((firstPass lookups unifier constraints).projections.length + 1) (firstPass lookups unifier constraints).projections
    (fun constraint waits => (listed constraint waits).2)
    (fun constraint waits => written constraint (listed constraint waits).1)
  have early := second.clean clean
  have middle := first.ready early ready
  have whole := first.trans second
  refine ⟨whole.ready clean ready, whole.grows clean ready, predicates early, ?_, ?_⟩
  · intro constraint given
    cases sort : kind constraint with
    | equality =>
      exact .inr (.inr ((equalities early ready constraint given sort).mono (second.grows clean middle).substitution))
    | projection =>
      have waits : constraint ∈ (firstPass lookups unifier constraints).projections := by
        rw [projections]
        exact mem_ofKind.mpr ⟨given, sort⟩
      exact (made constraint waits).imp_right fun holds => .inr (holds clean middle)
    | predicate =>
      refine .inr (.inl ?_)
      rw [show (lookups.solveEqualities unifier constraints).predicates = _ from predicates early]
      exact mem_ofKind.mpr ⟨given, sort⟩
  · intro visited listed
    have between : Advance (beginning unifier).solving visited ∧
        Advance visited (lookups.solveEqualities unifier constraints).solving := by
      rcases List.mem_append.mp listed with listed | listed
      · obtain ⟨pass, inside, rfl⟩ := List.mem_map.mp listed
        exact ⟨(passVisits pass inside).1, (passVisits pass inside).2.trans second⟩
      · exact ⟨first.trans (trailVisits visited listed).1, (trailVisits visited listed).2⟩
    exact (between.2.grows clean (between.1.ready (between.2.clean clean) ready)).substitution

end Run

section Sound

variable {lookups : Lookups} {constraints : List Constraint} {typeVarCount : Nat}
  {intLiteralVars floatLiteralVars stringLiteralVars : List TypeVarId} {stringLiteralTypes : List AirType}
  {stringLiteralDefault : AirType}

/-- The defaults, one kind of literal after another. -/
structure Defaulted (solved final : Unifier) (intLiteralVars floatLiteralVars stringLiteralVars : List TypeVarId)
    (stringLiteralDefault : AirType) (typed floated : Unifier) : Prop where
  ints : Fills .i32 (defaultClasses solved intLiteralVars) solved typed
  intsKnown : ∀ var ∈ intLiteralVars, ∀ rep, applied typed.substitution (.var var) ≠ .var rep
  floats : Fills .f64 (defaultClasses typed floatLiteralVars) typed floated
  floatsKnown : ∀ var ∈ floatLiteralVars, ∀ rep, applied floated.substitution (.var var) ≠ .var rep
  strings : Fills stringLiteralDefault (defaultClasses floated stringLiteralVars) floated final
  stringsKnown : ∀ var ∈ stringLiteralVars, ∀ rep, applied final.substitution (.var var) ≠ .var rep

theorem defaulted_spec {solved : Unifier} (settled : Settled solved.substitution) :
    ∃ typed floated, Defaulted solved (solved.defaulted intLiteralVars floatLiteralVars stringLiteralVars
      stringLiteralDefault) intLiteralVars floatLiteralVars stringLiteralVars stringLiteralDefault typed floated := by
  obtain ⟨ints, intsKnown⟩ := @defaults_run .i32 solved settled intLiteralVars
  obtain ⟨floats, floatsKnown⟩ := @defaults_run .f64 _ ints.extends'.settled floatLiteralVars
  obtain ⟨strings, stringsKnown⟩ := @defaults_run stringLiteralDefault _ floats.extends'.settled stringLiteralVars
  exact ⟨_, _, ints, intsKnown, floats, floatsKnown, strings, stringsKnown⟩

structure Distinct (unifier : Unifier) : Prop where
  intsFloats : ∀ rep, unifier.substitution.get rep = none → unifier.intLiteralVars rep → ¬ unifier.floatLiteralVars rep
  intsStrings : ∀ rep, unifier.substitution.get rep = none → unifier.intLiteralVars rep → ¬ unifier.stringLiteralVars rep
  floatsStrings : ∀ rep, unifier.substitution.get rep = none → unifier.floatLiteralVars rep →
    ¬ unifier.stringLiteralVars rep

theorem distinct_of_resolved {unifier : Unifier} (ready : Ready unifier) (none' : unifier.unresolvedLiteralJoins = [])
    (apart : ∀ rep, unifier.substitution.get rep = none → unifier.floatLiteralVars rep → ¬ unifier.stringLiteralVars rep) :
    Distinct unifier := by
  refine ⟨?_, ready.good.apart, apart⟩
  intro rep free int float
  obtain ⟨join, listed, known⟩ := ready.good.joined rep free int float
  rw [noted, ready.attributed, List.map_nil, List.append_nil] at listed
  obtain ⟨entry, inside, rfl⟩ := List.mem_map.mp listed
  exact joins_resolved ready.good.settled none' entry inside rep known

section Literals

variable {solved final typed floated : Unifier} (ready : Ready solved)
  (ints : ∀ var ∈ intLiteralVars, solved.intLiteralVars var)
  (floats : ∀ var ∈ floatLiteralVars, solved.floatLiteralVars var)
  (strings : ∀ var ∈ stringLiteralVars, solved.stringLiteralVars var)
  (defaulted : Defaulted solved final intLiteralVars floatLiteralVars stringLiteralVars stringLiteralDefault typed floated)

include ready

include ints in
theorem int_class {rep : Nat} (qualifies : defaultClasses solved intLiteralVars rep) : solved.intLiteralVars rep := by
  obtain ⟨var, listed, known⟩ := qualifies
  have stands := ready.good.ints var (ints var listed)
  rwa [known] at stands

include floats defaulted in
theorem float_class {rep : Nat} (qualifies : defaultClasses typed floatLiteralVars rep) :
    solved.floatLiteralVars rep := by
  obtain ⟨var, listed, known⟩ := qualifies
  have stands := ready.good.floats var (floats var listed)
  rwa [defaulted.ints.kept _ _ known] at stands

include strings defaulted in
theorem string_class {rep : Nat} (qualifies : defaultClasses floated stringLiteralVars rep) :
    solved.stringLiteralVars rep := by
  obtain ⟨var, listed, known⟩ := qualifies
  have stands := ready.good.strings var (strings var listed)
  rwa [defaulted.ints.kept _ _ (defaulted.floats.kept _ _ known)] at stands

include ints defaulted in
theorem int_default {var : Nat} (listed : var ∈ intLiteralVars) :
    ∃ ty, applied final.substitution (.var var) = .concrete ty ∧ takesInt ty := by
  have later := defaulted.floats.extends'.trans defaulted.strings.extends'
  have stands := ready.good.ints var (ints var listed)
  have fate := defaulted.ints.fate ready.good.settled (.var var)
  have known := defaulted.intsKnown var listed
  generalize applied solved.substitution (.var var) = before at stands fate
  generalize after : applied typed.substitution (.var var) = last at fate known
  cases fate with
  | concrete ty => exact ⟨ty, later.concrete after, stands⟩
  | unresolved rep => exact absurd rfl (known rep)
  | filled => exact ⟨.i32, later.concrete after, rfl⟩
  | intLiteral | array => exact stands.elim

variable (distinct : Distinct solved)

include ints floats defaulted distinct in
theorem float_default {var : Nat} (listed : var ∈ floatLiteralVars) :
    ∃ ty, applied final.substitution (.var var) = .concrete ty ∧ takesFloat ty := by
  have stands := ready.good.floats var (floats var listed)
  have fate := defaulted.ints.fate ready.good.settled (.var var)
  have later := defaulted.floats.fate defaulted.ints.extends'.settled (.var var)
  have known := defaulted.floatsKnown var listed
  generalize first : applied solved.substitution (.var var) = before at stands fate
  generalize applied typed.substitution (.var var) = middle at fate later
  generalize after : applied floated.substitution (.var var) = last at later known
  cases fate with
  | concrete ty =>
    cases later
    exact ⟨ty, defaulted.strings.extends'.concrete after, stands⟩
  | @filled rep qualifies =>
    exact absurd stands (distinct.intsFloats rep (free_of_applied ready.good.settled first)
      (int_class ready ints qualifies))
  | unresolved rep =>
    cases later with
    | unresolved => exact absurd rfl (known rep)
    | filled => exact ⟨.f64, defaulted.strings.extends'.concrete after, rfl⟩
  | intLiteral | array => exact stands.elim

include ints floats strings defaulted distinct in
theorem string_default {var : Nat} (listed : var ∈ stringLiteralVars) :
    ∃ ty, applied final.substitution (.var var) = .concrete ty ∧
      (solved.stringLiteralTypes ty ∨ ty = stringLiteralDefault) := by
  have stands := ready.good.strings var (strings var listed)
  have fate := defaulted.ints.fate ready.good.settled (.var var)
  have second := defaulted.floats.fate defaulted.ints.extends'.settled (.var var)
  have third := defaulted.strings.fate defaulted.floats.extends'.settled (.var var)
  have known := defaulted.stringsKnown var listed
  generalize first : applied solved.substitution (.var var) = before at stands fate
  generalize applied typed.substitution (.var var) = middle at fate second
  generalize applied floated.substitution (.var var) = later at second third
  generalize after : applied final.substitution (.var var) = last at third known
  cases fate with
  | concrete ty =>
    cases second
    cases third
    exact ⟨ty, rfl, .inl stands⟩
  | @filled rep qualifies =>
    exact absurd stands (distinct.intsStrings rep (free_of_applied ready.good.settled first)
      (int_class ready ints qualifies))
  | unresolved rep =>
    cases second with
    | filled qualifies =>
      exact absurd stands (distinct.floatsStrings rep (free_of_applied ready.good.settled first)
        (float_class ready floats defaulted qualifies))
    | unresolved =>
      cases third with
      | unresolved => exact absurd rfl (known rep)
      | filled => exact ⟨_, rfl, .inr rfl⟩
  | intLiteral | array => exact stands.elim

include floats strings defaulted in
/-- A predicate that holds before the defaults holds after them, if what it left
unresolved is no literal of another kind. -/
theorem predicate_default {constraint : Constraint} (predicate : kind constraint = .predicate)
    (defaultSigned : stringLiteralDefault.isUnsigned = false)
    (integer : ∀ ty span rep, constraint = .isInteger ty span → applied solved.substitution ty = .var rep →
      ¬ solved.floatLiteralVars rep ∧ ¬ solved.stringLiteralVars rep)
    (numeric : ∀ ty span rep, constraint = .isNumeric ty span → applied solved.substitution ty = .var rep →
      ¬ solved.stringLiteralVars rep)
    (holds : Holds lookups (applied solved.substitution) constraint) :
    Holds lookups (applied final.substitution) constraint := by
  have first : Holds lookups (applied typed.substitution) constraint := by
    apply holds_fate predicate holds (defaulted.ints.fate ready.good.settled _)
    intro rep _ _
    cases constraint <;> first | rfl | trivial
  have second : Holds lookups (applied floated.substitution) constraint := by
    apply holds_fate predicate first (defaulted.floats.fate defaulted.ints.extends'.settled _)
    intro rep open' qualifies
    cases constraint with
    | isInteger ty span =>
      have float := float_class ready floats defaulted qualifies
      exact absurd float (integer ty span rep rfl (defaulted.ints.kept _ _ open')).1
    | isSigned | isNumeric => rfl
    | isUnsigned | equal | contextualEqual | peerEqual | fieldGet | fieldSet | indexGet | indexSet => trivial
  apply holds_fate predicate second (defaulted.strings.fate defaulted.floats.extends'.settled _)
  intro rep open' qualifies
  have string := string_class ready strings defaulted qualifies
  have before := fun ty known => defaulted.ints.kept ty rep (defaulted.floats.kept ty rep known)
  cases constraint with
  | isInteger ty span => exact absurd string (integer ty span rep rfl (before ty open')).2
  | isNumeric ty span => exact absurd string (numeric ty span rep rfl (before ty open'))
  | isSigned => exact defaultSigned
  | isUnsigned | equal | contextualEqual | peerEqual | fieldGet | fieldSet | indexGet | indexSet => trivial

end Literals

theorem resolve_concrete {unifier : Unifier} {ty : InferType} {final : AirType}
    (known : applied unifier.substitution ty = .concrete final) : unifier.resolveInferType ty = .concrete final :=
  congrArg Unifier.defaultLiterals known

theorem Defaulted.extends' {solved final typed floated : Unifier} (defaulted : Defaulted solved final intLiteralVars
    floatLiteralVars stringLiteralVars stringLiteralDefault typed floated) :
    Extends solved.substitution final.substitution :=
  (defaulted.ints.extends'.trans defaulted.floats.extends').trans defaulted.strings.extends'

theorem Defaulted.types {solved final typed floated : Unifier} (defaulted : Defaulted solved final intLiteralVars
    floatLiteralVars stringLiteralVars stringLiteralDefault typed floated) :
    final.stringLiteralTypes = solved.stringLiteralTypes := by
  rw [defaulted.strings.only, defaulted.floats.only, defaulted.ints.only]

/-- A run that reports no error and leaves no joined literals unresolved solves
its constraints, whatever order they come in and whatever the lookups answer. -/
theorem inference_sound (written : ∀ constraint ∈ constraints, Written constraint) (answers : Answers lookups)
    (intsFloats : ∀ var ∈ intLiteralVars, var ∉ floatLiteralVars)
    (intsStrings : ∀ var ∈ intLiteralVars, var ∉ stringLiteralVars)
    (defaultSigned : stringLiteralDefault.isUnsigned = false) {unifier : Unifier}
    (prepared : unifier = Unifier.prepared typeVarCount intLiteralVars floatLiteralVars stringLiteralVars
      stringLiteralTypes)
    (fit : PredicatesFit (lookups.solveEqualities unifier constraints).solving.unifier
      (lookups.solveEqualities unifier constraints).predicates)
    (noErrors : (lookups.solveConstraints unifier constraints).errors = [])
    (noJoins : (lookups.solveConstraints unifier constraints).unifier.unresolvedLiteralJoins = []) :
    Solution lookups unifier constraints intLiteralVars floatLiteralVars stringLiteralVars stringLiteralDefault
      ((lookups.solveConstraints unifier constraints).unifier.defaulted intLiteralVars floatLiteralVars stringLiteralVars
        stringLiteralDefault) := by
  have start : Ready unifier := by
    rw [prepared]
    exact ready_prepared intsStrings intsFloats
  have solved := solveEqualities_spec answers written start (predicates_clean _ noErrors)
  have listed : ∀ constraint ∈ (lookups.solveEqualities unifier constraints).predicates,
      constraint ∈ constraints ∧ kind constraint = .predicate := by
    intro constraint left
    rw [solved.predicates] at left
    exact mem_ofKind.mp left
  have predicates := @predicates_run lookups _ _ (fun constraint left => (listed constraint left).2)
    (fun constraint left => written constraint (listed constraint left).1) noErrors solved.ready fit
  change Predicates lookups _ _ (lookups.solveConstraints unifier constraints) at predicates
  generalize lookups.solveConstraints unifier constraints = out at noErrors noJoins predicates ⊢
  obtain ⟨typed, floated, defaulted⟩ := @defaulted_spec intLiteralVars floatLiteralVars
    stringLiteralVars stringLiteralDefault out.unifier predicates.ready.good.settled
  generalize out.unifier.defaulted intLiteralVars floatLiteralVars stringLiteralVars stringLiteralDefault = final
    at defaulted ⊢
  have floatsKept : out.unifier.floatLiteralVars = _ := congrArg Unifier.floatLiteralVars predicates.fills.only
  have stringsKept : out.unifier.stringLiteralVars = _ := congrArg Unifier.stringLiteralVars predicates.fills.only
  have ints : ∀ var ∈ intLiteralVars, out.unifier.intLiteralVars var := by
    intro var listed
    rw [predicates.fills.only]
    apply solved.grows.ints
    simp [prepared, Unifier.prepared, Unifier.markIntLiteralVars, Unifier.markFloatLiteralVars,
      Unifier.markStringLiteralVars, listed]
  have floats : ∀ var ∈ floatLiteralVars, out.unifier.floatLiteralVars var := by
    intro var listed
    rw [predicates.fills.only]
    apply solved.grows.floats
    simp [prepared, Unifier.prepared, Unifier.markFloatLiteralVars, Unifier.markStringLiteralVars, listed]
  have strings : ∀ var ∈ stringLiteralVars, out.unifier.stringLiteralVars var := by
    intro var listed
    rw [predicates.fills.only]
    apply solved.grows.strings
    simp [prepared, Unifier.prepared, Unifier.markStringLiteralVars, listed]
  have distinct : Distinct out.unifier := by
    apply distinct_of_resolved predicates.ready noJoins
    intro rep free
    rw [floatsKept, stringsKept]
    exact fit.apart rep (predicates.fills.extends'.free rep free)
  have ended := predicates.fills.extends'.trans defaulted.extends'
  refine ⟨?_, ?_, ?_, ?_, ?_⟩
  · intro constraint given
    rcases solved.holds constraint given with waits | left | holds
    · exact .inl waits
    · refine .inr (Holds.resolved ?_)
      apply predicate_default predicates.ready floats strings defaulted (listed constraint left).2 defaultSigned
      · intro ty span rep is open'
        rw [floatsKept, stringsKept]
        exact fit.integer ty span rep (is ▸ left) (predicates.fills.kept _ _ open')
      · intro ty span rep is open'
        rw [stringsKept]
        exact fit.numeric ty span rep (is ▸ left) (predicates.fills.kept _ _ open')
      · exact predicates.holds constraint left
    · exact .inr (Holds.resolved (holds _ ended))
  · intro visited onWay one other same
    refine congrArg Unifier.defaultLiterals ?_
    rcases List.mem_append.mp onWay with onWay | onWay
    · exact ((solved.visits visited onWay).trans ended).congr same
    · exact ((predicates.visits visited onWay).trans defaulted.extends').congr same
  · intro var listed
    obtain ⟨ty, known, takes⟩ := int_default predicates.ready ints defaulted listed
    exact ⟨ty, resolve_concrete known, by simpa only [takesInt, Bool.or_eq_true, or_assoc] using takes⟩
  · intro var listed
    obtain ⟨ty, known, takes⟩ := float_default predicates.ready ints floats defaulted distinct listed
    exact ⟨ty, resolve_concrete known, by simpa only [takesFloat, Bool.or_eq_true, decide_eq_true_eq, or_assoc] using takes⟩
  · intro var listed
    obtain ⟨ty, known, takes⟩ := string_default predicates.ready ints floats strings defaulted distinct listed
    rw [← defaulted.types] at takes
    exact ⟨ty, resolve_concrete known, takes⟩

end Sound

/-- Lookups of a program without structs. -/
def arraysOnly : Lookups where
  concreteTypesEqual := fun one other => one = other
  fieldType := fun _ _ => none
  indexElementType := fun
    | .array element _ => some element
    | _ => none
  isStringContextType := fun _ => false

theorem arraysOnly_answers : Answers arraysOnly where
  field := by
    intro base field projected _ found
    cases found
  element := by
    intro base projected plain found
    cases base with
    | array element length => exact Option.some.inj found ▸ plain
    | concrete | var | intLiteral => cases found

def sampleConstraints : List Constraint :=
  [.equal (.var 3) (.var 0) 0, .indexGet (.array (.concrete .i64) 4) (.var 3) 1,
    .contextualEqual (.var 1) (.concrete .f32) 2, .isSigned (.var 0) 3, .isUnsigned (.var 4) 4]

def sampleUnifier : Unifier := Unifier.prepared 5 [0] [1] [2] [.composite 0]

theorem sample_fits : PredicatesFit (arraysOnly.solveEqualities sampleUnifier sampleConstraints).solving.unifier
    (arraysOnly.solveEqualities sampleUnifier sampleConstraints).predicates := by
  have floats : (arraysOnly.solveEqualities sampleUnifier sampleConstraints).solving.unifier.floatLiteralVars =
    fun var => false || decide (var ∈ [1]) := rfl
  have strings : (arraysOnly.solveEqualities sampleUnifier sampleConstraints).solving.unifier.stringLiteralVars =
    fun var => false || decide (var ∈ [2]) := rfl
  have predicates : (arraysOnly.solveEqualities sampleUnifier sampleConstraints).predicates =
    [.isSigned (.var 0) 3, .isUnsigned (.var 4) 4] := by decide
  have signedKnown : applied (arraysOnly.solveEqualities sampleUnifier sampleConstraints).solving.unifier.substitution
    (.var 0) = .concrete .i64 := by decide
  have unsignedKnown : applied (arraysOnly.solveEqualities sampleUnifier sampleConstraints).solving.unifier.substitution
    (.var 4) = .var 4 := by decide
  rw [predicates]
  refine ⟨?_, ?_, ?_, ?_, ?_⟩
  · intro ty span rep listed known
    simp only [List.mem_cons, List.not_mem_nil, or_false, reduceCtorEq, false_or, Constraint.isUnsigned.injEq] at listed
    rw [listed.1, unsignedKnown] at known
    rw [floats, strings, ← InferType.var.inj known]
    decide
  · intro ty span rep listed
    simp at listed
  · intro ty span rep listed
    simp at listed
  · refine List.pairwise_pair.mpr ?_
    intro one oneSpan other otherSpan rep isSigned _ known
    rw [← (Constraint.isSigned.inj isSigned).1, signedKnown] at known
    cases known
  · intro rep _ float string
    simp only [floats, Bool.false_or, decide_eq_true_eq, List.mem_singleton] at float
    simp only [strings, Bool.false_or, decide_eq_true_eq, List.mem_singleton, float] at string
    cases string

theorem inference_sound_sample : Solution arraysOnly sampleUnifier sampleConstraints [0] [1] [2] (.composite 0)
    ((arraysOnly.solveConstraints sampleUnifier sampleConstraints).unifier.defaulted [0] [1] [2] (.composite 0)) :=
  inference_sound (by simp [sampleConstraints, Written, Plain]) arraysOnly_answers (by decide) (by decide) rfl rfl
    sample_fits (by decide) (by decide)

/-- A run over five variables without errors or unresolved joins, and the type
it gives one of them. -/
def Ends (intLiteralVars floatLiteralVars stringLiteralVars : List TypeVarId) (constraints : List Constraint)
    (var : TypeVarId) (ty : AirType) : Prop :=
  let solving := arraysOnly.solveConstraints
    (Unifier.prepared 5 intLiteralVars floatLiteralVars stringLiteralVars [.composite 0]) constraints
  solving.errors = [] ∧ solving.unifier.unresolvedLiteralJoins = [] ∧
    (solving.unifier.defaulted intLiteralVars floatLiteralVars stringLiteralVars (.composite 0)).resolveInferType
      (.var var) = .concrete ty

instance (intLiteralVars floatLiteralVars stringLiteralVars : List TypeVarId) (constraints : List Constraint)
    (var : TypeVarId) (ty : AirType) :
    Decidable (Ends intLiteralVars floatLiteralVars stringLiteralVars constraints var ty) :=
  inferInstanceAs (Decidable (_ ∧ _ ∧ _))

def bareLiteral : List Constraint :=
  [.equal (.var 0) (.var 1) 0, .equal (.var 1) .intLiteral 1, .equal (.var 0) (.concrete .i64) 2]

/-- A bare literal splits a class, a signed check lets a boolean pass, a literal
of two kinds gets the first kind's default, a predicate on a class that is still
unresolved is not asked again, and a float class joins a string class. -/
theorem inference_unsound_in_general :
    Ends [] [] [] bareLiteral 0 .i64 ∧ Ends [] [] [] bareLiteral 1 .i32 ∧
    Ends [] [] [] [.equal (.var 0) (.concrete .bool) 0, .isSigned (.var 0) 1] 0 .bool ∧
    Ends [0] [] [0] [] 0 .i32 ∧
    Ends [0] [] [] [.isSigned (.var 0) 0, .isUnsigned (.var 0) 1] 0 .u64 ∧
    Ends [] [0] [] [.isUnsigned (.var 0) 0] 0 .u64 ∧
    Ends [] [] [0] [.isUnsigned (.var 0) 0] 0 .u64 ∧
    Ends [] [0] [] [.isInteger (.var 0) 0] 0 .f64 ∧
    Ends [] [] [0] [.isInteger (.var 0) 0] 0 (.composite 0) ∧
    Ends [] [] [0] [.isNumeric (.var 0) 0] 0 (.composite 0) ∧
    Ends [] [0] [1] [.equal (.var 0) (.var 1) 0] 1 .f64 := by
  decide

end Rue.Proofs.Inference
