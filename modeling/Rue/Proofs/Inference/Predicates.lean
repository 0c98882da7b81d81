import Rue.Proofs.Inference.Projections

/-! Predicates and defaults give unresolved variables a type and do nothing else.
A predicate that was checked stays true where the types given later fit it. -/

namespace Rue.Proofs.Inference
open Rue.Inference

/-- Unresolved classes, of those that qualify, are given one type. -/
structure Fills (value : AirType) (classes : Nat → Prop) (earlier later : Unifier) : Prop where
  only : later = { earlier with substitution := later.substitution }
  extends' : Extends earlier.substitution later.substitution
  plain : (∀ id, Plain (applied earlier.substitution (.var id))) → ∀ id, Plain (applied later.substitution (.var id))
  kept : ∀ start rep, applied later.substitution start = .var rep → applied earlier.substitution start = .var rep
  filled : ∀ rep, earlier.substitution.get rep = none → later.substitution.get rep = none ∨
    applied later.substitution (.var rep) = .concrete value ∧ classes rep

namespace Fills

variable {value : AirType} {classes wider : Nat → Prop} {earlier middle later : Unifier}

theorem trans (first : Fills value classes earlier middle) (second : Fills value classes middle later) :
    Fills value classes earlier later where
  only := by
    rw [second.only, first.only]
  extends' := first.extends'.trans second.extends'
  plain := fun plain => second.plain (first.plain plain)
  kept := fun start rep known => first.kept start rep (second.kept start rep known)
  filled := by
    intro rep free
    rcases first.filled rep free with free | ⟨known, qualifies⟩
    · exact second.filled rep free
    · exact .inr ⟨second.extends'.concrete known, qualifies⟩

theorem mono (fills : Fills value classes earlier later) (more : ∀ rep, classes rep → wider rep) :
    Fills value wider earlier later :=
  ⟨fills.only, fills.extends', fills.plain, fills.kept,
    fun rep free => (fills.filled rep free).imp_right (And.imp_right (more rep))⟩

theorem of_same {substitution : Substitution} (settled : Settled earlier.substitution)
    (same : Same earlier.substitution substitution) : Fills value classes earlier { earlier with substitution } where
  only := rfl
  extends' := Extends.of_same settled same
  plain := by
    intro plain id
    rw [same.applied settled]
    exact plain id
  kept := by
    intro start rep known
    rwa [same.applied settled] at known
  filled := fun rep free => .inl ((same.free rep).mpr free)

theorem applied_typed {rep : Nat} (settled : Settled earlier.substitution) (free : earlier.substitution.get rep = none)
    (start : InferType) : applied (earlier.insert rep (.concrete value)).substitution start =
      replace rep (.concrete value) (applied earlier.substitution start) :=
  @applied_insert _ _ (.concrete value) settled free rfl id start

theorem insert {rep : Nat} (settled : Settled earlier.substitution) (free : earlier.substitution.get rep = none) :
    Fills value (fun other => other = rep) earlier (earlier.insert rep (.concrete value)) where
  only := rfl
  extends' := Extends.of_insert settled free rfl id
  plain := by
    intro plain id
    rw [applied_typed settled free]
    exact plain_replace trivial (plain id)
  kept := by
    intro start other known
    rw [applied_typed settled free] at known
    generalize applied earlier.substitution start = final at known ⊢
    cases final with
    | concrete | intLiteral => exact known
    | array => cases known
    | var id =>
      rw [replace] at known
      split at known
      next => cases known
      next => exact known
  filled := by
    intro other open'
    by_cases same : other = rep
    · right
      refine ⟨?_, same⟩
      rw [applied_typed settled free, applied_free settled open', replace, if_pos same]
    · left
      rw [Unifier.insert, get_insert, if_neg same, open']

end Fills

/-- A type for the class of an unresolved type. -/
def fill (unifier : Unifier) (ty : InferType) (value : AirType) : Unifier :=
  match unifier.apply ty with
  | (.var rep, unifier) => unifier.insert rep (.concrete value)
  | (_, unifier) => unifier

section Fill

variable {unifier : Unifier} {ty : InferType} {value : AirType}

theorem fill_fills (settled : Settled unifier.substitution) :
    Fills value (fun rep => applied unifier.substitution ty = .var rep) unifier (fill unifier ty value) := by
  have same := (settled.apply ty).2
  have looked : Fills value (fun rep => applied unifier.substitution ty = .var rep) unifier _ :=
    Fills.of_same settled same
  have computed : unifier.apply ty = (applied unifier.substitution ty,
    { unifier with substitution := (unifier.substitution.apply ty).2 }) := rfl
  rw [fill, computed]
  split
  next rep after known =>
    obtain ⟨found, rfl⟩ := Prod.mk.inj known
    have free := (same.free rep).mpr (free_of_applied settled found)
    apply looked.trans
    apply (Fills.insert looked.extends'.settled free).mono
    intro other equal
    rw [found, equal]
  next after _ known =>
    obtain ⟨-, rfl⟩ := Prod.mk.inj known
    exact looked

theorem fill_known (settled : Settled unifier.substitution) (rep : Nat) :
    applied (fill unifier ty value).substitution ty ≠ .var rep := by
  intro unknown
  have known := (fill_fills settled).kept ty rep unknown
  have free := free_of_applied (fill_fills settled).extends'.settled unknown
  have bound : (fill unifier ty value).substitution.get rep = some (.concrete value) := by
    have computed : unifier.apply ty = (.var rep,
      { unifier with substitution := (unifier.substitution.apply ty).2 }) := congrArg (fun final => (final, _)) known
    rw [fill, computed]
    simp only [Unifier.insert, get_insert, if_true]
  rw [bound] at free
  cases free

theorem defaultUnsigned_eq (resolved : Plain (applied unifier.substitution ty)) :
    unifier.defaultUnsigned ty = fill unifier ty .u64 := by
  have computed : unifier.apply ty = (applied unifier.substitution ty,
    { unifier with substitution := (unifier.substitution.apply ty).2 }) := rfl
  rw [Unifier.defaultUnsigned, fill, computed]
  dsimp only
  cases known : applied unifier.substitution ty with
  | intLiteral =>
    rw [known] at resolved
    exact resolved.elim
  | concrete | var | array => rfl

end Fill

def subject : Constraint → InferType
  | .isSigned ty _ | .isInteger ty _ | .isNumeric ty _ | .isUnsigned ty _ => ty
  | _ => .concrete .error

/-- A type under which a predicate on an unresolved variable stays true. -/
def Suits (value : AirType) : Constraint → Prop
  | .isSigned .. => value.isUnsigned = false
  | .isInteger .. => value.isInteger
  | .isNumeric .. => value.isInteger || value.isFloat
  | _ => True

/-- What the predicates left for last may be about. A class that still has no
type can be given one by a predicate or by a default; it suits the predicates
that passed it, and fits the literals in it. -/
structure PredicatesFit (unifier : Unifier) (predicates : List Constraint) : Prop where
  unsigned : ∀ ty span rep, .isUnsigned ty span ∈ predicates → applied unifier.substitution ty = .var rep →
    ¬ unifier.floatLiteralVars rep ∧ ¬ unifier.stringLiteralVars rep
  integer : ∀ ty span rep, .isInteger ty span ∈ predicates → applied unifier.substitution ty = .var rep →
    ¬ unifier.floatLiteralVars rep ∧ ¬ unifier.stringLiteralVars rep
  numeric : ∀ ty span rep, .isNumeric ty span ∈ predicates → applied unifier.substitution ty = .var rep →
    ¬ unifier.stringLiteralVars rep
  signed : predicates.Pairwise fun earlier later => ∀ one oneSpan other otherSpan rep, earlier = .isSigned one oneSpan →
    later = .isUnsigned other otherSpan → applied unifier.substitution one = .var rep →
      applied unifier.substitution other ≠ .var rep
  apart : ∀ rep, unifier.substitution.get rep = none → unifier.floatLiteralVars rep → ¬ unifier.stringLiteralVars rep

/-- What becomes of a resolved type where classes are filled. -/
inductive Fate (value : AirType) (classes : Nat → Prop) : InferType → InferType → Prop
  | concrete (ty : AirType) : Fate value classes (.concrete ty) (.concrete ty)
  | unresolved (rep : Nat) : Fate value classes (.var rep) (.var rep)
  | filled {rep : Nat} (qualifies : classes rep) : Fate value classes (.var rep) (.concrete value)
  | intLiteral : Fate value classes .intLiteral .intLiteral
  | array (element other : InferType) (length : Nat) : Fate value classes (.array element length) (.array other length)

theorem Fills.fate {value : AirType} {classes : Nat → Prop} {earlier later : Unifier}
    (settled : Settled earlier.substitution) (fills : Fills value classes earlier later) (ty : InferType) :
    Fate value classes (applied earlier.substitution ty) (applied later.substitution ty) := by
  rw [fills.extends'.applied ty]
  cases known : applied earlier.substitution ty with
  | concrete ty => exact .concrete ty
  | intLiteral => exact .intLiteral
  | array element length =>
    rw [applied_array fills.extends'.settled]
    exact .array _ _ length
  | var rep =>
    rcases fills.filled rep (free_of_applied settled known) with free | ⟨filled, qualifies⟩
    · rw [applied_free fills.extends'.settled free]
      exact .unresolved rep
    · rw [filled]
      exact .filled qualifies

section Checks

variable {lookups : Lookups} {unifier : Unifier} {ty : InferType} {span : Span}

theorem Number.fate {value : AirType} {classes : Nat → Prop} {numbers : AirType → Bool} {before after : InferType}
    (number : Number numbers before) (fate : Fate value classes before after)
    (suits : ∀ rep, before = .var rep → classes rep → numbers value) : Number numbers after := by
  cases fate with
  | concrete | unresolved => exact number
  | filled qualifies => exact .inl (suits _ rfl qualifies)
  | intLiteral | array => exact number.elim

theorem holds_fate {value : AirType} {classes : Nat → Prop} {before after : InferType → InferType} {constraint : Constraint}
    (predicate : kind constraint = .predicate) (holds : Holds lookups before constraint)
    (fate : Fate value classes (before (subject constraint)) (after (subject constraint)))
    (suits : ∀ rep, before (subject constraint) = .var rep → classes rep → Suits value constraint) :
    Holds lookups after constraint := by
  cases constraint with
  | isInteger ty span | isNumeric ty span => exact holds.fate fate suits
  | isUnsigned ty span =>
    obtain ⟨final, known, passes⟩ := holds
    rw [subject, known] at fate
    generalize last : after ty = other at fate
    cases fate
    exact ⟨final, last, passes⟩
  | isSigned ty span =>
    intro final known
    rw [subject, known] at fate
    generalize first : before ty = other at fate
    cases fate with
    | concrete => exact holds final first
    | filled qualifies => exact suits _ first qualifies
  | equal | contextualEqual | peerEqual | fieldGet | fieldSet | indexGet | indexSet => cases predicate

/-- A check only looks, and passes what the predicate allows. -/
structure Checks (looked : Unifier) (final : InferType) (passes : InferType → Prop) (outcome : Unifier × UnifyResult) :
    Prop where
  looks : outcome.1 = looked
  passes : outcome.2 = .ok → passes final

theorem checkSigned_checks : Checks (unifier.apply ty).2 (applied unifier.substitution ty) (fun final =>
    ∀ concrete, final = .concrete concrete → concrete.isUnsigned = false) (unifier.checkSigned ty) := by
  have computed : unifier.apply ty = (applied unifier.substitution ty, (unifier.apply ty).2) := rfl
  rw [Unifier.checkSigned, computed]
  dsimp only
  generalize applied unifier.substitution ty = final
  cases final with
  | var | intLiteral | array =>
    refine ⟨rfl, ?_⟩
    intro _ _ known
    cases known
  | concrete ty =>
    dsimp only
    split
    next passes =>
      refine ⟨rfl, ?_⟩
      intro _ concrete known
      cases known
      revert passes
      cases ty <;> simp [AirType.isSigned, AirType.isFloat, AirType.isError, AirType.isNever, AirType.isUnsigned]
    next =>
      split
      next => exact ⟨rfl, fun ok => UnifyResult.noConfusion ok⟩
      next signed =>
        refine ⟨rfl, ?_⟩
        intro _ concrete known
        cases known
        simpa using signed

theorem checkInteger_checks : Checks (unifier.apply ty).2 (applied unifier.substitution ty)
    (fun final => Plain final → Number AirType.isInteger final) (unifier.checkInteger ty) := by
  have computed : unifier.apply ty = (applied unifier.substitution ty, (unifier.apply ty).2) := rfl
  rw [Unifier.checkInteger, computed]
  dsimp only
  generalize applied unifier.substitution ty = final
  cases final with
  | var => exact ⟨rfl, fun _ _ => trivial⟩
  | intLiteral => exact ⟨rfl, fun _ plain => plain⟩
  | array => exact ⟨rfl, fun ok => UnifyResult.noConfusion ok⟩
  | concrete ty =>
    dsimp only
    split
    next passes => exact ⟨rfl, fun _ _ => by simpa only [Number, Bool.or_eq_true, or_assoc] using passes⟩
    next => exact ⟨rfl, fun ok => UnifyResult.noConfusion ok⟩

theorem checkNumeric_checks : Checks (unifier.apply ty).2 (applied unifier.substitution ty) (fun final => Plain final →
    Number (fun ty => ty.isInteger || ty.isFloat) final) (unifier.checkNumeric ty) := by
  have computed : unifier.apply ty = (applied unifier.substitution ty, (unifier.apply ty).2) := rfl
  rw [Unifier.checkNumeric, computed]
  dsimp only
  generalize applied unifier.substitution ty = final
  cases final with
  | var => exact ⟨rfl, fun _ _ => trivial⟩
  | intLiteral => exact ⟨rfl, fun _ plain => plain⟩
  | array => exact ⟨rfl, fun ok => UnifyResult.noConfusion ok⟩
  | concrete ty =>
    dsimp only
    split
    next passes => exact ⟨rfl, fun _ _ => by simpa only [Number, Bool.or_eq_true, or_assoc] using passes⟩
    next => exact ⟨rfl, fun ok => UnifyResult.noConfusion ok⟩

theorem checkUnsigned_checks : Checks (unifier.apply ty).2 (applied unifier.substitution ty)
    (fun final => Plain final → (∀ rep, final ≠ .var rep) →
      ∃ concrete, final = .concrete concrete ∧ (concrete.isUnsigned ∨ concrete.isError ∨ concrete.isNever))
    (unifier.checkUnsigned ty) := by
  have computed : unifier.apply ty = (applied unifier.substitution ty, (unifier.apply ty).2) := rfl
  rw [Unifier.checkUnsigned, computed]
  dsimp only
  generalize applied unifier.substitution ty = final
  cases final with
  | var id => exact ⟨rfl, fun _ _ known => absurd rfl (known id)⟩
  | intLiteral => exact ⟨rfl, fun _ plain => plain.elim⟩
  | array => exact ⟨rfl, fun ok => UnifyResult.noConfusion ok⟩
  | concrete ty =>
    dsimp only
    split
    next passes =>
      refine ⟨rfl, fun _ _ _ => ⟨ty, rfl, ?_⟩⟩
      simpa only [Bool.or_eq_true, or_assoc] using passes
    next => exact ⟨rfl, fun ok => UnifyResult.noConfusion ok⟩

end Checks

theorem PredicatesFit.fills {earlier later : Unifier} {classes : Nat → Prop} {value : AirType} {first : Constraint}
    {rest : List Constraint} (fit : PredicatesFit earlier (first :: rest)) (fills : Fills value classes earlier later) :
    PredicatesFit later rest := by
  have floats : later.floatLiteralVars = earlier.floatLiteralVars := by rw [fills.only]
  have strings : later.stringLiteralVars = earlier.stringLiteralVars := by rw [fills.only]
  refine ⟨?_, ?_, ?_, ?_, ?_⟩
  · intro ty span rep listed known
    rw [floats, strings]
    exact fit.unsigned ty span rep (List.mem_cons_of_mem _ listed) (fills.kept ty rep known)
  · intro ty span rep listed known
    rw [floats, strings]
    exact fit.integer ty span rep (List.mem_cons_of_mem _ listed) (fills.kept ty rep known)
  · intro ty span rep listed known
    rw [strings]
    exact fit.numeric ty span rep (List.mem_cons_of_mem _ listed) (fills.kept ty rep known)
  · refine (List.pairwise_cons.mp fit.signed).2.imp ?_
    intro early late apart one oneSpan other otherSpan rep isSigned isUnsigned known again
    exact apart one oneSpan other otherSpan rep isSigned isUnsigned (fills.kept _ _ known) (fills.kept _ _ again)
  · intro rep free
    rw [floats, strings]
    exact fit.apart rep (fills.extends'.free rep free)

theorem report_unifier (solving : Solving) (outcome : Unifier × UnifyResult) (span : Span) :
    (solving.report outcome span).unifier = outcome.1 := by
  rw [Solving.report]
  split <;> rfl

theorem report_clean {solving : Solving} {outcome : Unifier × UnifyResult} {span : Span}
    (clean : (solving.report outcome span).errors = []) : outcome.2 = .ok ∧ solving.errors = [] := by
  rw [Solving.report] at clean
  split at clean
  next ok => exact ⟨ok, clean⟩
  next => simp at clean

/-- The classes a predicate may fill. -/
def unsignedClasses (unifier : Unifier) (predicates : List Constraint) (rep : Nat) : Prop :=
  ∃ ty span, .isUnsigned ty span ∈ predicates ∧ applied unifier.substitution ty = .var rep

structure Predicated (lookups : Lookups) (solving : Solving) (constraint : Constraint) (after : Solving) : Prop where
  fills : Settled solving.unifier.substitution → (∀ id, Plain (applied solving.unifier.substitution (.var id))) →
    Fills .u64 (unsignedClasses solving.unifier [constraint]) solving.unifier after.unifier
  holds : after.errors = [] → Ready solving.unifier → Holds lookups (applied after.unifier.substitution) constraint

section Step

variable {lookups : Lookups} {solving : Solving} {constraint : Constraint}

theorem report_predicated {ty : InferType} {span : Span} {passes : InferType → Prop} {outcome : Unifier × UnifyResult}
    (checks : Checks (solving.unifier.apply ty).2 (applied solving.unifier.substitution ty) passes outcome)
    (holds : ∀ resolve, passes (resolve ty) → Plain (resolve ty) → Holds lookups resolve constraint) (written : Plain ty) :
    Predicated lookups solving constraint (solving.report outcome span) := by
  have computed : solving.unifier.apply ty = (applied solving.unifier.substitution ty,
    { solving.unifier with substitution := (solving.unifier.substitution.apply ty).2 }) := rfl
  refine ⟨?_, ?_⟩
  · intro settled _
    rw [report_unifier, checks.looks, computed]
    exact Fills.of_same settled (settled.apply ty).2
  · intro clean ready
    rw [report_unifier, checks.looks, computed]
    apply holds
    all_goals
      dsimp only
      rw [(ready.good.settled.apply ty).2.applied ready.good.settled]
    · exact checks.passes (report_clean clean).1
    · exact plain_applied ready.good.settled ready.good.plain written

theorem predicateStep_predicated (predicate : kind constraint = .predicate) (written : Written constraint) :
    Predicated lookups solving constraint (Lookups.predicateStep solving constraint) := by
  cases constraint with
  | isSigned ty span => exact report_predicated checkSigned_checks (fun _ passes _ => passes) written
  | isInteger ty span => exact report_predicated checkInteger_checks (fun _ passes plain => passes plain) written
  | isNumeric ty span => exact report_predicated checkNumeric_checks (fun _ passes plain => passes plain) written
  | isUnsigned ty span =>
    have checks := @checkUnsigned_checks (solving.unifier.defaultUnsigned ty) ty
    have computed (unifier : Unifier) : unifier.apply ty = (applied unifier.substitution ty,
      { unifier with substitution := (unifier.substitution.apply ty).2 }) := rfl
    refine ⟨?_, ?_⟩
    · intro settled plain
      have filled := @fill_fills solving.unifier ty .u64 settled
      rw [Lookups.predicateStep, report_unifier, checks.looks, defaultUnsigned_eq (plain_applied settled plain written),
        computed]
      have looked : Fills .u64 (fun rep => applied solving.unifier.substitution ty = .var rep) _ _ := Fills.of_same
        filled.extends'.settled (filled.extends'.settled.apply ty).2
      refine (filled.trans looked).mono ?_
      intro rep known
      exact ⟨ty, span, List.mem_singleton_self _, known⟩
    · intro clean ready
      rw [Lookups.predicateStep] at clean ⊢
      have resolved := plain_applied ready.good.settled ready.good.plain written
      have passes := checks.passes (report_clean clean).1
      rw [report_unifier, checks.looks, defaultUnsigned_eq resolved, computed]
      rw [defaultUnsigned_eq resolved] at passes
      have filled := @fill_fills solving.unifier ty .u64 ready.good.settled
      have same := (filled.extends'.settled.apply ty).2
      simp only [Holds, same.applied filled.extends'.settled]
      exact passes (plain_applied filled.extends'.settled (filled.plain ready.good.plain) written)
        (fill_known ready.good.settled)
  | equal | contextualEqual | peerEqual | fieldGet | fieldSet | indexGet | indexSet => cases predicate

end Step

theorem Stands.fate {marks : TypeVarId → Bool} {takes : AirType → Bool} {value : AirType} {classes : Nat → Prop}
    {before after : InferType} (stands : Stands marks takes before) (fate : Fate value classes before after)
    (taken : ∀ rep, classes rep → marks rep → takes value) : Stands marks takes after := by
  cases fate with
  | concrete | unresolved => exact stands
  | filled qualifies => exact taken _ qualifies stands
  | intLiteral | array => exact stands.elim

/-- Filling classes with a type their literals may take. -/
theorem Ready.fills {value : AirType} {classes : Nat → Prop} {earlier later : Unifier} (ready : Ready earlier)
    (fills : Fills value classes earlier later) (ints : ∀ rep, classes rep → earlier.intLiteralVars rep → takesInt value)
    (floats : ∀ rep, classes rep → earlier.floatLiteralVars rep → takesFloat value)
    (strings : ∀ rep, classes rep → earlier.stringLiteralVars rep → earlier.stringLiteralTypes value) : Ready later := by
  have good := ready.good
  obtain ⟨only, extends', plain, kept, filled⟩ := fills
  have fate := Fills.fate good.settled ⟨only, extends', plain, kept, filled⟩
  have joins : noted later = noted earlier := by rw [only]; rfl
  rw [only]
  refine ⟨⟨extends'.settled, plain good.plain, ?_, ?_, ?_, ?_, ?_⟩, ready.attributed⟩
  · exact fun id marked => (good.ints id marked).fate (fate _) ints
  · exact fun id marked => (good.floats id marked).fate (fate _) floats
  · exact fun id marked => (good.strings id marked).fate (fate _) strings
  · exact fun rep free => good.apart rep (extends'.free rep free)
  · intro rep free int float
    obtain ⟨join, listed, known⟩ := good.joined rep (extends'.free rep free) int float
    refine ⟨join, listed, ?_⟩
    dsimp only
    rw [extends'.applied, known, applied_free extends'.settled free]

structure Predicates (lookups : Lookups) (solving : Solving) (predicates : List Constraint) (after : Solving) : Prop where
  ready : Ready after.unifier
  fills : Fills .u64 (unsignedClasses solving.unifier predicates) solving.unifier after.unifier
  holds : ∀ constraint ∈ predicates, Holds lookups (applied after.unifier.substitution) constraint
  visits : ∀ visited ∈ predicates.scanl Lookups.predicateStep solving,
    Extends visited.unifier.substitution after.unifier.substitution

theorem predicates_clean {solving : Solving} (predicates : List Constraint)
    (clean : (predicates.foldl Lookups.predicateStep solving).errors = []) : solving.errors = [] := by
  induction predicates generalizing solving with
  | nil => exact clean
  | cons first rest ih =>
    have step := ih clean
    cases first with
    | isSigned | isInteger | isNumeric | isUnsigned => exact (report_clean step).2
    | equal | contextualEqual | peerEqual | fieldGet | fieldSet | indexGet | indexSet => exact step

theorem predicates_run {lookups : Lookups} {solving : Solving} (predicates : List Constraint)
    (kinds : ∀ constraint ∈ predicates, kind constraint = .predicate)
    (written : ∀ constraint ∈ predicates, Written constraint)
    (clean : (predicates.foldl Lookups.predicateStep solving).errors = []) (ready : Ready solving.unifier)
    (fit : PredicatesFit solving.unifier predicates) :
    Predicates lookups solving predicates (predicates.foldl Lookups.predicateStep solving) := by
  induction predicates generalizing solving with
  | nil =>
    have settled := ready.good.settled
    refine ⟨ready, Fills.of_same settled (Same.refl _), fun _ listed => absurd listed List.not_mem_nil, ?_⟩
    intro visited listed
    rw [List.scanl_nil, List.mem_singleton] at listed
    rw [listed]
    exact Extends.refl settled
  | cons first rest ih =>
    have step : Predicated lookups solving first _ :=
      predicateStep_predicated (kinds first List.mem_cons_self) (written first List.mem_cons_self)
    have run := @ih (Lookups.predicateStep solving first)
      (fun one listed => kinds one (List.mem_cons_of_mem _ listed))
      (fun one listed => written one (List.mem_cons_of_mem _ listed)) clean
    rw [List.foldl_cons] at clean ⊢
    have fills := step.fills ready.good.settled ready.good.plain
    have holds := step.holds (predicates_clean rest clean) ready
    have fits : ∀ rep, unsignedClasses solving.unifier [first] rep →
        ¬ solving.unifier.floatLiteralVars rep ∧ ¬ solving.unifier.stringLiteralVars rep := by
      intro rep qualifies
      obtain ⟨ty, span, listed, known⟩ := qualifies
      rw [List.mem_singleton] at listed
      exact fit.unsigned ty span rep (listed ▸ List.mem_cons_self) known
    have middle : Ready (Lookups.predicateStep solving first).unifier :=
      ready.fills fills (fun _ _ _ => rfl) (fun rep qualifies marked => absurd marked (fits rep qualifies).1)
        (fun rep qualifies marked => absurd marked (fits rep qualifies).2)
    have later := run middle (fit.fills fills)
    have widen : ∀ rep, unsignedClasses (Lookups.predicateStep solving first).unifier rest rep →
        unsignedClasses solving.unifier (first :: rest) rep := by
      intro rep qualifies
      obtain ⟨ty, span, listed, known⟩ := qualifies
      exact ⟨ty, span, List.mem_cons_of_mem _ listed, fills.kept _ _ known⟩
    have whole : Fills .u64 (unsignedClasses solving.unifier (first :: rest)) solving.unifier
        (rest.foldl Lookups.predicateStep (Lookups.predicateStep solving first)).unifier := by
      refine (fills.mono ?_).trans (later.fills.mono widen)
      intro rep qualifies
      obtain ⟨ty, span, listed, known⟩ := qualifies
      rw [List.mem_singleton] at listed
      exact ⟨ty, span, listed ▸ List.mem_cons_self, known⟩
    refine ⟨later.ready, whole, ?_, ?_⟩
    · intro constraint listed
      rcases List.mem_cons.mp listed with rfl | listed
      · apply holds_fate (kinds constraint List.mem_cons_self) holds (later.fills.fate middle.good.settled _)
        intro rep open' qualifies
        cases constraint with
        | isSigned ty span =>
          obtain ⟨other, otherSpan, listed, known⟩ := qualifies
          have apart := (List.pairwise_cons.mp fit.signed).1 _ listed ty span other otherSpan rep rfl rfl
            (fills.kept _ _ open')
          exact absurd (fills.kept _ _ known) apart
        | isInteger | isNumeric => rfl
        | isUnsigned => trivial
        | equal | contextualEqual | peerEqual | fieldGet | fieldSet | indexGet | indexSet => trivial
      · exact later.holds constraint listed
    · intro visited listed
      rw [List.scanl_cons, List.mem_cons] at listed
      rcases listed with rfl | listed
      · exact whole.extends'
      · exact later.visits visited listed

end Rue.Proofs.Inference
