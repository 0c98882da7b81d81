import Rue.Proofs.Inference.Unify

/-! The equalities and the projections of a solving run that reports no error:
every one of them holds in all later states. -/

namespace Rue.Proofs.Inference
open Rue.Inference

/-- Good, with every noted join attributed to its constraint. -/
structure Ready (unifier : Unifier) : Prop where
  good : Good unifier
  attributed : unifier.pendingLiteralJoins = []

/-- What a part of the run does: if no error is reported at its end, none was
reported before, and a ready state has grown into a ready one. -/
structure Advance (before after : Solving) : Prop where
  clean : after.errors = [] → before.errors = []
  ready : after.errors = [] → Ready before.unifier → Ready after.unifier
  grows : after.errors = [] → Ready before.unifier → Grows before.unifier after.unifier

namespace Advance

variable {before middle after : Solving}

theorem refl (solving : Solving) : Advance solving solving :=
  ⟨id, fun _ ready => ready, fun _ ready => Grows.refl ready.good.settled⟩

theorem trans (first : Advance before middle) (second : Advance middle after) : Advance before after where
  clean := fun clean => first.clean (second.clean clean)
  ready := fun clean ready => second.ready clean (first.ready (second.clean clean) ready)
  grows := by
    intro clean ready
    have earlier := second.clean clean
    exact (first.grows earlier ready).trans (second.grows clean (first.ready earlier ready))

theorem foldl {State Item : Type} (solving : State → Solving) (step : State → Item → State) (items : List Item)
    (each : ∀ state, ∀ item ∈ items, Advance (solving state) (solving (step state item))) (state : State) :
    Advance (solving state) (solving (items.foldl step state)) := by
  induction items generalizing state with
  | nil => exact refl _
  | cons item rest ih =>
    apply (each state item List.mem_cons_self).trans
    exact ih (fun state item listed => each state item (List.mem_cons_of_mem _ listed)) (step state item)

/-- The first state advances to every state on the way, and that to the last. -/
theorem scanl {State Item : Type} (solving : State → Solving) (step : State → Item → State) (items : List Item)
    (each : ∀ state, ∀ item ∈ items, Advance (solving state) (solving (step state item))) (state : State) :
    ∀ visited ∈ items.scanl step state,
      Advance (solving state) (solving visited) ∧ Advance (solving visited) (solving (items.foldl step state)) := by
  induction items generalizing state with
  | nil =>
    intro visited listed
    rw [List.scanl_nil, List.mem_singleton] at listed
    exact listed ▸ ⟨refl _, refl _⟩
  | cons item rest ih =>
    intro visited listed
    have later := fun state item listed => each state item (List.mem_cons_of_mem _ listed)
    have first := each state item List.mem_cons_self
    rw [List.scanl_cons, List.mem_cons] at listed
    rcases listed with rfl | listed
    · exact ⟨refl _, first.trans (foldl solving step rest later _)⟩
    · exact ⟨first.trans (ih later _ visited listed).1, (ih later _ visited listed).2⟩

end Advance

theorem Good.attribute {unifier : Unifier} (good : Good unifier) (span : Span) :
    Ready (unifier.attributeLiteralJoins span) where
  good :=
    { settled := good.settled
      plain := good.plain
      ints := good.ints
      floats := good.floats
      strings := good.strings
      apart := good.apart
      joined := by
        intro rep free int float
        obtain ⟨join, listed, known⟩ := good.joined rep free int float
        refine ⟨join, ?_, known⟩
        simp only [noted, Unifier.attributeLiteralJoins, List.map_append, List.map_map, List.map_nil, List.append_nil]
          at listed ⊢
        exact listed }
  attributed := rfl

theorem settle_clean {solving : Solving} {outcome : Unifier × UnifyResult} {lhs rhs : InferType} {span : Span}
    (clean : (solving.settle outcome lhs rhs span).errors = []) : solving.errors = [] := by
  rw [Solving.settle] at clean
  split at clean
  next => exact clean
  next => simp at clean

/-- The outcome of a constraint between two types, taken over. -/
theorem settle_spec {equal : AirType → AirType → Bool} (solving : Solving) {outcome : Unifier × UnifyResult}
    {lhs rhs : InferType} (span : Span) (unified : Ready solving.unifier → outcome.2 = .ok → Unified equal solving.unifier lhs rhs outcome.1) :
    Advance solving (solving.settle outcome lhs rhs span) ∧
    ((solving.settle outcome lhs rhs span).errors = [] → Ready solving.unifier → ∀ later,
      Extends (solving.settle outcome lhs rhs span).unifier.substitution later →
        Agree equal (applied later lhs) (applied later rhs)) := by
  rw [Solving.settle]
  split
  next ok =>
    refine ⟨⟨id, ?_, ?_⟩, ?_⟩
    · intro _ ready
      exact (unified ready ok).good.attribute span
    · intro _ ready
      have grows := (unified ready ok).grows
      exact ⟨grows.substitution, grows.ints, grows.floats, grows.strings, grows.types⟩
    · intro _ ready
      exact (unified ready ok).agree
  next =>
    have failed : ∀ {goal : Prop}, solving.errors ++ [(⟨outcome.2, span⟩ : UnificationError)] = [] → goal := by
      intro goal clean
      simp at clean
    exact ⟨⟨failed, failed, failed⟩, failed⟩

theorem advance_of_same {solving : Solving} {substitution : Substitution} {errors : List UnificationError}
    (same : Ready solving.unifier → Same solving.unifier.substitution substitution)
    (errorsSame : errors = [] → solving.errors = []) :
    Advance solving { unifier := { solving.unifier with substitution }, errors } where
  clean := errorsSame
  ready := fun _ ready => ⟨ready.good.compress (same ready), ready.attributed⟩
  grows := fun _ ready => Grows.of_same ready.good (same ready)

/-- Types without the bare literal type. -/
def Written : Constraint → Prop
  | .equal lhs rhs _ | .contextualEqual lhs rhs _ | .peerEqual lhs rhs _ => Plain lhs ∧ Plain rhs
  | .fieldGet base _ result _ | .indexGet base result _ => Plain base ∧ Plain result
  | .fieldSet base _ value _ | .indexSet base value _ => Plain base ∧ Plain value
  | .isSigned ty _ | .isInteger ty _ | .isNumeric ty _ | .isUnsigned ty _ => Plain ty

structure Answers (lookups : Lookups) : Prop where
  field : ∀ base field projected, Plain base → lookups.fieldType base field = some projected → Plain projected
  element : ∀ base projected, Plain base → lookups.indexElementType base = some projected → Plain projected

/-- A number of the kind asked for, or a type that passes for any; an unresolved
variable has no type yet. -/
def Number (kind : AirType → Bool) : InferType → Prop
  | .concrete ty => kind ty ∨ ty.isError ∨ ty.isNever
  | .var _ => True
  | _ => False

/-- What a constraint says of the types a resolution gives. A projection's base
is looked up as some type that resolves as the base does. -/
def Holds (lookups : Lookups) (resolve : InferType → InferType) : Constraint → Prop
  | .equal lhs rhs _ | .contextualEqual lhs rhs _ | .peerEqual lhs rhs _ =>
    Agree lookups.concreteTypesEqual (resolve lhs) (resolve rhs)
  | .fieldGet base field result _ => ∃ known projected, resolve known = resolve base ∧
      lookups.fieldType known field = some projected ∧
      Agree lookups.concreteTypesEqual (resolve projected) (resolve result)
  | .fieldSet base field value _ => ∃ known projected, resolve known = resolve base ∧
      lookups.fieldType known field = some projected ∧
      Agree lookups.concreteTypesEqual (resolve value) (resolve projected)
  | .indexGet base result _ => ∃ known projected, resolve known = resolve base ∧
      lookups.indexElementType known = some projected ∧
      Agree lookups.concreteTypesEqual (resolve projected) (resolve result)
  | .indexSet base value _ => ∃ known projected, resolve known = resolve base ∧
      lookups.indexElementType known = some projected ∧
      Agree lookups.concreteTypesEqual (resolve value) (resolve projected)
  | .isSigned ty _ => ∀ final, resolve ty = .concrete final → final.isUnsigned = false
  | .isInteger ty _ => Number AirType.isInteger (resolve ty)
  | .isNumeric ty _ => Number (fun ty => ty.isInteger || ty.isFloat) (resolve ty)
  | .isUnsigned ty _ => ∃ final, resolve ty = .concrete final ∧ (final.isUnsigned ∨ final.isError ∨ final.isNever)

inductive Kind where
  | equality
  | projection
  | predicate
  deriving DecidableEq

def kind : Constraint → Kind
  | .equal .. | .contextualEqual .. | .peerEqual .. => .equality
  | .fieldGet .. | .fieldSet .. | .indexGet .. | .indexSet .. => .projection
  | .isSigned .. | .isInteger .. | .isNumeric .. | .isUnsigned .. => .predicate

def ofKind (wanted : Kind) (constraints : List Constraint) : List Constraint :=
  constraints.filter fun constraint => kind constraint = wanted

/-- A constraint holds from a state on. -/
def HoldsFrom (lookups : Lookups) (substitution : Substitution) (constraint : Constraint) : Prop :=
  ∀ later, Extends substitution later → Holds lookups (applied later) constraint

theorem HoldsFrom.mono {lookups : Lookups} {earlier later : Substitution} {constraint : Constraint}
    (holds : HoldsFrom lookups earlier constraint) (extends' : Extends earlier later) :
    HoldsFrom lookups later constraint :=
  fun _ further => holds _ (extends'.trans further)

section Equalities

variable {lookups : Lookups} {pass : Lookups.FirstPass} {constraint : Constraint}

structure Stepped (lookups : Lookups) (pass : Lookups.FirstPass) (constraint : Constraint) (after : Lookups.FirstPass) :
    Prop where
  advance : Advance pass.solving after.solving
  holds : after.solving.errors = [] → Ready pass.solving.unifier → kind constraint = .equality →
    HoldsFrom lookups after.solving.unifier.substitution constraint
  projections : after.projections = pass.projections ++ ofKind .projection [constraint]
  predicates : after.solving.errors = [] → after.predicates = pass.predicates ++ ofKind .predicate [constraint]

/-- A check made early reports, so that a run without errors made none. -/
theorem early_stepped {ty : InferType} {check : Unifier → InferType → Unifier × UnifyResult}
    (predicate : kind constraint = .predicate) (after : Lookups.FirstPass)
    (is : after = match Lookups.earlyCheck pass.solving.unifier ty check with
      | (unifier, some result) =>
        { pass with solving :=
            { unifier, errors := pass.solving.errors ++ [{ kind := result, span := constraint.span }] } }
      | (unifier, none) =>
        { pass with solving := { pass.solving with unifier }, predicates := pass.predicates ++ [constraint] }) :
    Stepped lookups pass constraint after := by
  rw [is, Lookups.earlyCheck, Unifier.apply]
  dsimp only
  split
  next result found =>
    have failed : ∀ {goal : Prop},
        pass.solving.errors ++ [(⟨result, constraint.span⟩ : UnificationError)] = [] → goal := by
      intro goal clean
      simp at clean
    exact ⟨⟨failed, failed, failed⟩, failed, by simp [ofKind, predicate], failed⟩
  next unifier found =>
    obtain rfl : { pass.solving.unifier with substitution := (pass.solving.unifier.substitution.apply ty).2 } = unifier := by
      split at found
      next => cases found
      next => exact congrArg Prod.fst found
    refine ⟨?_, ?_, by simp [ofKind, predicate], fun _ => by simp [ofKind, predicate]⟩
    · exact advance_of_same (fun ready => (ready.good.settled.apply ty).2) id
    · intro _ _ equality
      rw [predicate] at equality
      cases equality

theorem settle_stepped {outcome : Unifier × UnifyResult} {lhs rhs : InferType} {span : Span}
    (equality : kind constraint = .equality) (holds : ∀ resolve, Holds lookups resolve constraint =
      Agree lookups.concreteTypesEqual (resolve lhs) (resolve rhs))
    (unified : Ready pass.solving.unifier → outcome.2 = .ok →
      Unified lookups.concreteTypesEqual pass.solving.unifier lhs rhs outcome.1) :
    Stepped lookups pass constraint { pass with solving := pass.solving.settle outcome lhs rhs span } := by
  obtain ⟨advance, agree⟩ := settle_spec pass.solving span unified
  refine ⟨advance, ?_, by simp [ofKind, equality], fun _ => by simp [ofKind, equality]⟩
  intro clean ready _ later extends'
  rw [holds]
  exact agree clean ready later extends'

theorem equalityStep_stepped (written : Written constraint) :
    Stepped lookups pass constraint (lookups.equalityStep pass constraint) := by
  have deferred (projection : kind constraint = .projection) :
      Stepped lookups pass constraint { pass with projections := pass.projections ++ [constraint] } := by
    refine ⟨Advance.refl _, ?_, by simp [ofKind, projection], fun _ => by simp [ofKind, projection]⟩
    intro _ _ equality
    rw [projection] at equality
    cases equality
  cases constraint with
  | equal lhs rhs span =>
    exact settle_stepped rfl (fun _ => rfl) fun ready ok => unifyWith_spec ready.good written.1 written.2 ok
  | peerEqual lhs rhs span =>
    exact settle_stepped rfl (fun _ => rfl) fun ready ok => unifyPeer_spec ready.good written.1 written.2 ok
  | contextualEqual lhs rhs span =>
    exact settle_stepped rfl (fun _ => rfl) fun ready ok => unifyContextual_spec ready.good written.1 written.2 ok
  | fieldGet | fieldSet | indexGet | indexSet => exact deferred rfl
  | isInteger ty | isNumeric ty | isUnsigned ty => exact early_stepped rfl _ rfl
  | isSigned ty span =>
    refine ⟨Advance.refl _, ?_, (List.append_nil _).symm, fun _ => rfl⟩
    intro _ _ equality
    cases equality

theorem equalities_run (constraints : List Constraint) (written : ∀ constraint ∈ constraints, Written constraint) :
    Advance pass.solving (constraints.foldl lookups.equalityStep pass).solving ∧
    ((constraints.foldl lookups.equalityStep pass).solving.errors = [] → Ready pass.solving.unifier →
      ∀ constraint ∈ constraints, kind constraint = .equality →
        HoldsFrom lookups (constraints.foldl lookups.equalityStep pass).solving.unifier.substitution constraint) ∧
    (constraints.foldl lookups.equalityStep pass).projections = pass.projections ++ ofKind .projection constraints ∧
    ((constraints.foldl lookups.equalityStep pass).solving.errors = [] →
      (constraints.foldl lookups.equalityStep pass).predicates = pass.predicates ++ ofKind .predicate constraints) := by
  induction constraints generalizing pass with
  | nil =>
    refine ⟨Advance.refl _, ?_, (List.append_nil _).symm, fun _ => (List.append_nil _).symm⟩
    intro _ _ constraint listed
    cases listed
  | cons constraint rest ih =>
    have step : Stepped lookups pass constraint _ := equalityStep_stepped (written constraint List.mem_cons_self)
    obtain ⟨advance, holds, projections, predicates⟩ := @ih (lookups.equalityStep pass constraint)
      fun constraint listed => written constraint (List.mem_cons_of_mem _ listed)
    rw [List.foldl_cons]
    refine ⟨step.advance.trans advance, ?_, ?_, ?_⟩
    · intro clean ready one listed equality
      have ready' := step.advance.ready (advance.clean clean) ready
      rcases List.mem_cons.mp listed with rfl | listed
      · exact (step.holds (advance.clean clean) ready equality).mono (advance.grows clean ready').substitution
      · exact holds clean ready' one listed equality
    · rw [projections, step.projections, List.append_assoc, ofKind, ofKind, ← List.filter_append, List.singleton_append,
        ofKind]
    · intro clean
      rw [predicates clean, step.predicates (advance.clean clean), List.append_assoc, ofKind, ofKind, ← List.filter_append,
        List.singleton_append, ofKind]

end Equalities

end Rue.Proofs.Inference

/-! Projections wait until their base is known. One that is projected holds from
then on, and the rounds end only when no more of them can be. -/

namespace Rue.Proofs.Inference
open Rue.Inference

section Widen

variable {unifier : Unifier} {types : AirType → Bool}

theorem Good.widen (good : Good unifier) (more : ∀ ty, unifier.stringLiteralTypes ty → types ty) :
    Good { unifier with stringLiteralTypes := types } where
  settled := good.settled
  plain := good.plain
  ints := good.ints
  floats := good.floats
  strings := fun id marked => (good.strings id marked).mono (fun _ marked => marked) more
  apart := good.apart
  joined := good.joined

/-- Registering a type for string literals only admits more of them. -/
theorem register_spec (isStringContextType : InferType → Bool) (unifier : Unifier) (ty : InferType) :
    ∃ types, Unifier.registerStringContextTypes isStringContextType unifier ty =
      { unifier with stringLiteralTypes := types } ∧ ∀ ty, unifier.stringLiteralTypes ty → types ty := by
  induction ty with
  | concrete ty =>
    rw [Unifier.registerStringContextTypes]
    split
    · refine ⟨_, rfl, ?_⟩
      intro other listed
      simp [listed]
    · exact ⟨_, rfl, fun _ listed => listed⟩
  | var | intLiteral => exact ⟨_, rfl, fun _ listed => listed⟩
  | array element length ih => exact ih

end Widen

def baseOf : Constraint → InferType
  | .fieldGet base _ _ _ | .fieldSet base _ _ _ | .indexGet base _ _ | .indexSet base _ _ => base
  | _ => .concrete .error

/-- What a projection finds for a base. -/
def look (lookups : Lookups) (known : InferType) : Constraint → Option InferType
  | .fieldGet _ field _ _ | .fieldSet _ field _ _ => lookups.fieldType known field
  | .indexGet .. | .indexSet .. => lookups.indexElementType known
  | _ => none

section Rounds

variable {lookups : Lookups} {solving : Solving} {constraint : Constraint}

theorem projectedType_eq {unifier : Unifier} (projection : kind constraint = .projection) :
    lookups.projectedType unifier constraint =
      (look lookups (applied unifier.substitution (baseOf constraint)) constraint,
        { unifier with substitution := (unifier.substitution.apply (baseOf constraint)).2 }) := by
  cases constraint with
  | fieldGet | fieldSet | indexGet | indexSet => rfl
  | equal | contextualEqual | peerEqual | isSigned | isInteger | isNumeric | isUnsigned => cases projection

theorem project_clean {projected : InferType} (clean : (lookups.project solving constraint projected).errors = []) :
    solving.errors = [] := by
  cases constraint with
  | fieldGet | fieldSet | indexGet | indexSet => exact settle_clean clean
  | equal | contextualEqual | peerEqual | isSigned | isInteger | isNumeric | isUnsigned => exact clean

/-- A projection that was made holds, of whatever base it was looked up for. -/
theorem project_spec {known projected : InferType} (projection : kind constraint = .projection)
    (written : Written constraint) (plain : Plain projected) (found : look lookups known constraint = some projected) :
    Advance solving (lookups.project solving constraint projected) ∧
    ((lookups.project solving constraint projected).errors = [] → Ready solving.unifier → ∀ later,
      Extends (lookups.project solving constraint projected).unifier.substitution later →
        applied later known = applied later (baseOf constraint) → Holds lookups (applied later) constraint) := by
  have gets (result : InferType) (span : Span) (plainResult : Plain result) :=
    settle_spec solving span fun ready ok =>
      @unifyWith_spec lookups.concreteTypesEqual solving.unifier projected result ready.good plain plainResult ok
  have sets (value : InferType) (span : Span) (plainValue : Plain value) :=
    settle_spec solving span fun ready ok =>
      @unifyContextual_spec lookups.concreteTypesEqual solving.unifier value projected ready.good plainValue plain ok
  cases constraint with
  | fieldGet base field result span =>
    obtain ⟨advance, agree⟩ := gets result span written.2
    exact ⟨advance, fun clean ready later extends' same =>
      ⟨known, projected, same, found, agree clean ready later extends'⟩⟩
  | indexGet base result span =>
    obtain ⟨advance, agree⟩ := gets result span written.2
    exact ⟨advance, fun clean ready later extends' same =>
      ⟨known, projected, same, found, agree clean ready later extends'⟩⟩
  | fieldSet base field value span =>
    obtain ⟨advance, agree⟩ := sets value span written.2
    exact ⟨advance, fun clean ready later extends' same =>
      ⟨known, projected, same, found, agree clean ready later extends'⟩⟩
  | indexSet base value span =>
    obtain ⟨advance, agree⟩ := sets value span written.2
    exact ⟨advance, fun clean ready later extends' same =>
      ⟨known, projected, same, found, agree clean ready later extends'⟩⟩
  | equal | contextualEqual | peerEqual | isSigned | isInteger | isNumeric | isUnsigned => cases projection

theorem plain_look (answers : Answers lookups) {known projected : InferType} (plain : Plain known)
    (found : look lookups known constraint = some projected) : Plain projected := by
  cases constraint with
  | fieldGet _ field | fieldSet _ field => exact answers.field _ _ _ plain found
  | indexGet | indexSet => exact answers.element _ _ plain found
  | equal | contextualEqual | peerEqual | isSigned | isInteger | isNumeric | isUnsigned => cases found

theorem plain_base (projection : kind constraint = .projection) (written : Written constraint) :
    Plain (baseOf constraint) := by
  cases constraint with
  | fieldGet | fieldSet | indexGet | indexSet => exact written.1
  | equal | contextualEqual | peerEqual | isSigned | isInteger | isNumeric | isUnsigned => cases projection

theorem advance_widen {types : AirType → Bool} (more : ∀ ty, solving.unifier.stringLiteralTypes ty → types ty) :
    Advance solving { solving with unifier := { solving.unifier with stringLiteralTypes := types } } where
  clean := id
  ready := fun _ ready => ⟨ready.good.widen more, ready.attributed⟩
  grows := fun _ ready => ⟨Extends.refl ready.good.settled, fun _ marked => marked, fun _ marked => marked,
    fun _ marked => marked, more⟩

/-- One projection of a round: it still waits, or it was made and holds. -/
inductive Projected (lookups : Lookups) (solving : Solving) (waiting : List Constraint) (progress : Bool)
    (constraint : Constraint) : Solving × List Constraint × Bool → Prop
  | waits {after : Solving} (advance : Advance solving after) :
      Projected lookups solving waiting progress constraint (after, waiting ++ [constraint], progress)
  | made {after : Solving} (advance : Advance solving after)
      (holds : after.errors = [] → Ready solving.unifier → HoldsFrom lookups after.unifier.substitution constraint) :
      Projected lookups solving waiting progress constraint (after, waiting, true)

theorem Projected.advance {waiting : List Constraint} {progress : Bool} {after : Solving × List Constraint × Bool}
    (projected : Projected lookups solving waiting progress constraint after) : Advance solving after.1 := by
  cases projected with
  | waits advance => exact advance
  | made advance => exact advance

theorem projectionStep_projected (answers : Answers lookups) {waiting : List Constraint} {progress : Bool}
    (projection : kind constraint = .projection) (written : Written constraint) :
    Projected lookups solving waiting progress constraint
      (lookups.projectionStep (solving, waiting, progress) constraint) := by
  rw [Lookups.projectionStep]
  dsimp only
  rw [projectedType_eq projection]
  have looked : Advance solving
      { solving with unifier := { solving.unifier with
        substitution := (solving.unifier.substitution.apply (baseOf constraint)).2 } } :=
    advance_of_same (fun ready => (ready.good.settled.apply (baseOf constraint)).2) id
  cases found : look lookups (applied solving.unifier.substitution (baseOf constraint)) constraint with
  | none => exact .waits looked
  | some projected =>
    dsimp only
    obtain ⟨types, registered, more⟩ := register_spec lookups.isStringContextType
      { solving.unifier with substitution := (solving.unifier.substitution.apply (baseOf constraint)).2 } projected
    rw [registered]
    have admitted : Advance { solving with unifier := { solving.unifier with
      substitution := (solving.unifier.substitution.apply (baseOf constraint)).2 } } _ := advance_widen more
    have full (ready : Ready solving.unifier) :=
      @project_spec lookups { solving with unifier := { solving.unifier with
          substitution := (solving.unifier.substitution.apply (baseOf constraint)).2
          stringLiteralTypes := types } } constraint _ projected projection written
        (plain_look answers (plain_applied ready.good.settled ready.good.plain (plain_base projection written)) found) found
    have before := looked.trans admitted
    refine .made ⟨?_, ?_, ?_⟩ ?_
    · exact project_clean
    · intro clean ready
      exact (before.trans (full ready).1).ready clean ready
    · intro clean ready
      exact (before.trans (full ready).1).grows clean ready
    · intro clean ready later extends'
      refine (full ready).2 clean (before.ready (project_clean clean) ready) later extends' ?_
      exact (((before.trans (full ready).1).grows clean ready).substitution.trans extends').applied _ |>.symm

/-- What a round over the waiting projections leaves. -/
structure Round (lookups : Lookups) (solving : Solving) (waiting : List Constraint) (progress : Bool)
    (pending : List Constraint) (after : Solving × List Constraint × Bool) : Prop where
  advance : Advance solving after.1
  made : ∀ constraint ∈ pending, constraint ∈ after.2.1 ∨ (after.1.errors = [] → Ready solving.unifier →
    HoldsFrom lookups after.1.unifier.substitution constraint)
  waits : ∀ constraint ∈ waiting, constraint ∈ after.2.1
  from' : ∀ constraint ∈ after.2.1, constraint ∈ waiting ∨ constraint ∈ pending
  length : after.2.1.length ≤ waiting.length + pending.length
  shorter : after.2.2 = true → progress = true ∨ after.2.1.length < waiting.length + pending.length

theorem round_spec (answers : Answers lookups) {waiting : List Constraint} {progress : Bool} (pending : List Constraint)
    (projections : ∀ constraint ∈ pending, kind constraint = .projection)
    (written : ∀ constraint ∈ pending, Written constraint) :
    Round lookups solving waiting progress pending (pending.foldl lookups.projectionStep (solving, waiting, progress)) := by
  induction pending generalizing solving waiting progress with
  | nil =>
    refine ⟨Advance.refl _, ?_, fun _ listed => listed, fun _ listed => .inl listed, Nat.le_refl _, fun made => .inl made⟩
    intro constraint listed
    cases listed
  | cons constraint rest ih =>
    have later := fun {solving waiting progress} => @ih solving waiting progress
      (fun one listed => projections one (List.mem_cons_of_mem _ listed))
      (fun one listed => written one (List.mem_cons_of_mem _ listed))
    have step : Projected lookups solving waiting progress constraint _ :=
      projectionStep_projected answers (projections constraint List.mem_cons_self) (written constraint List.mem_cons_self)
    rw [List.foldl_cons]
    generalize lookups.projectionStep (solving, waiting, progress) constraint = middle at step ⊢
    cases step with
    | @waits middle advance =>
      have round := @later middle (waiting ++ [constraint]) progress
      refine ⟨advance.trans round.advance, ?_, ?_, ?_, ?_, ?_⟩
      · intro one listed
        rcases List.mem_cons.mp listed with rfl | listed
        · exact .inl (round.waits one (by simp))
        · exact (round.made one listed).imp_right fun holds clean ready =>
            holds clean (advance.ready (round.advance.clean clean) ready)
      · exact fun one listed => round.waits one (List.mem_append_left _ listed)
      · intro one listed
        rcases round.from' one listed with early | rest
        · rcases List.mem_append.mp early with early | here
          · exact .inl early
          · rw [List.mem_singleton] at here
            exact .inr (here ▸ List.mem_cons_self)
        · exact .inr (List.mem_cons_of_mem _ rest)
      · have length := round.length
        rw [List.length_append, List.length_singleton] at length
        rw [List.length_cons]
        omega
      · intro progressed
        rw [List.length_cons]
        refine (round.shorter progressed).imp_right fun less => ?_
        rw [List.length_append, List.length_singleton] at less
        omega
    | @made middle advance holds =>
      have round := @later middle waiting true
      refine ⟨advance.trans round.advance, ?_, round.waits, ?_, ?_, ?_⟩
      · intro one listed
        rcases List.mem_cons.mp listed with rfl | listed
        · right
          intro clean ready
          have earlier := round.advance.clean clean
          exact (holds earlier ready).mono (round.advance.grows clean (advance.ready earlier ready)).substitution
        · exact (round.made one listed).imp_right fun holds clean ready =>
            holds clean (advance.ready (round.advance.clean clean) ready)
      · exact fun one listed => (round.from' one listed).imp_right (List.mem_cons_of_mem _)
      · have length := round.length
        rw [List.length_cons]
        omega
      · intro _
        have length := round.length
        rw [List.length_cons]
        exact .inr (by omega)

/-- The states on the way through the rounds. -/
def projectionTrail (lookups : Lookups) : Nat → Solving → List Constraint → List Solving
  | 0, solving, _ => [solving]
  | rounds + 1, solving, pending =>
    let (next, waiting, progress) := pending.foldl lookups.projectionStep (solving, [], false)
    (pending.scanl lookups.projectionStep (solving, [], false)).map Prod.fst ++
      if !progress || waiting.isEmpty then [] else projectionTrail lookups rounds next waiting

theorem resolveProjections_spec (answers : Answers lookups) (rounds : Nat) (pending : List Constraint)
    (projections : ∀ constraint ∈ pending, kind constraint = .projection)
    (written : ∀ constraint ∈ pending, Written constraint) :
    Advance solving (lookups.resolveProjections rounds solving pending).1 ∧
    (∀ constraint ∈ pending, constraint ∈ (lookups.resolveProjections rounds solving pending).2 ∨
      ((lookups.resolveProjections rounds solving pending).1.errors = [] → Ready solving.unifier →
        HoldsFrom lookups (lookups.resolveProjections rounds solving pending).1.unifier.substitution constraint)) ∧
    ∀ visited ∈ projectionTrail lookups rounds solving pending,
      Advance solving visited ∧ Advance visited (lookups.resolveProjections rounds solving pending).1 := by
  induction rounds generalizing solving pending with
  | zero =>
    refine ⟨Advance.refl _, fun _ listed => .inl listed, ?_⟩
    intro visited listed
    rw [projectionTrail, List.mem_singleton] at listed
    exact listed ▸ ⟨Advance.refl _, Advance.refl _⟩
  | succ rounds ih =>
    have round : Round lookups solving [] false pending _ := round_spec answers pending projections written
    have visits := Advance.scanl Prod.fst lookups.projectionStep pending
      (fun state constraint listed => (@projectionStep_projected lookups state.1 constraint answers
        state.2.1 state.2.2 (projections constraint listed) (written constraint listed)).advance)
      (solving, [], false)
    rw [Lookups.resolveProjections, projectionTrail]
    generalize pending.foldl lookups.projectionStep (solving, [], false) = last at round visits ⊢
    obtain ⟨next, waiting, progress⟩ := last
    have within : ∀ constraint ∈ waiting, constraint ∈ pending :=
      fun constraint listed => (round.from' constraint listed).resolve_left (List.not_mem_nil)
    obtain ⟨advance, made, trail⟩ := @ih next waiting
      (fun one listed => projections one (within one listed)) (fun one listed => written one (within one listed))
    dsimp only
    split
    next =>
      refine ⟨round.advance, round.made, ?_⟩
      intro visited listed
      rw [List.append_nil] at listed
      obtain ⟨state, inside, rfl⟩ := List.mem_map.mp listed
      exact visits state inside
    next =>
      refine ⟨round.advance.trans advance, ?_, ?_⟩
      · intro constraint listed
        rcases round.made constraint listed with waits | holds
        · exact (made constraint waits).imp_right fun holds clean ready =>
            holds clean (round.advance.ready (advance.clean clean) ready)
        · right
          intro clean ready
          have earlier := advance.clean clean
          exact (holds earlier ready).mono (advance.grows clean (round.advance.ready earlier ready)).substitution
      · intro visited listed
        rcases List.mem_append.mp listed with listed | listed
        · obtain ⟨state, inside, rfl⟩ := List.mem_map.mp listed
          exact ⟨(visits state inside).1, (visits state inside).2.trans advance⟩
        · exact ⟨round.advance.trans (trail visited listed).1, (trail visited listed).2⟩

end Rounds

end Rue.Proofs.Inference
