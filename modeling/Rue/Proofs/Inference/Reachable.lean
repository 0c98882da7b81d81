import Rue.Proofs.Inference.Projections

/-! Every state of the engine, whatever the order of its operations: no binding
leads back to its variable, so every lookup and every unification ends, and a
unification that fails leaves what types resolve to as it was. -/

namespace Rue.Proofs.Inference
open Rue.Inference

/-- The binding of one variable names another. -/
def Refers (substitution : Substitution) (id other : TypeVarId) : Prop :=
  ∃ ty, substitution.get id = some ty ∧ Mentions other ty

/-- No variable reaches itself through variables or array elements. -/
def Acyclic (substitution : Substitution) : Prop := ∀ id, ¬ Relation.TransGen (Refers substitution) id id

section Acyclic

variable {substitution : Substitution} {id other count fuel more : Nat} {ty final : InferType}

theorem Resolves.mentioned (resolved : Resolves substitution count ty final) (named : Mentions id ty) :
    ∃ target, Resolves substitution count (.var id) target := by
  induction ty generalizing final with
  | concrete | intLiteral => exact named.elim
  | var other =>
    obtain rfl : other = id := named
    exact ⟨final, resolved⟩
  | array element length ih =>
    cases resolved with
    | array inner => exact ih inner named

theorem Resolves.reached (resolved : Resolves substitution count (.var id) final)
    (reaches : Relation.TransGen (Refers substitution) id other) :
    ∃ left target, left < count ∧ Resolves substitution left (.var other) target := by
  have stepped {id other count : Nat} {final : InferType} (resolved : Resolves substitution count (.var id) final)
      (refers : Refers substitution id other) :
      ∃ left target, left < count ∧ Resolves substitution left (.var other) target := by
    obtain ⟨ty, found, named⟩ := refers
    cases resolved with
    | unbound free =>
      rw [found] at free
      cases free
    | bound again rest =>
      obtain rfl := Option.some.inj (found.symm.trans again)
      obtain ⟨target, way⟩ := rest.mentioned named
      exact ⟨_, target, Nat.lt_succ_self _, way⟩
  induction reaches with
  | single refers => exact stepped resolved refers
  | tail _ refers ih =>
    obtain ⟨left, target, fewer, way⟩ := ih
    obtain ⟨last, target, still, way⟩ := stepped way refers
    exact ⟨last, target, by omega, way⟩

theorem Settled.acyclic (settled : Settled substitution) : Acyclic substitution := by
  intro id cycle
  obtain ⟨count, final, resolved⟩ := settled id
  obtain ⟨left, target, fewer, again⟩ := resolved.reached cycle
  have equal := (resolved.unique again).1
  omega

/-- A lookup ends, and its result does not depend on how much more was allowed. -/
theorem applyTypeBy_eq (settled : Settled substitution) (resolved : Resolves substitution count ty final)
    (enough : count < fuel) (also : count < more) :
    Substitution.applyTypeBy (Substitution.applyVarWithin fuel) substitution ty =
      some (Substitution.applyWith (Substitution.applyVar more) substitution ty) := by
  induction fuel generalizing more substitution ty final count with
  | zero => omega
  | succ fuel ih =>
    cases more with
    | zero => omega
    | succ more =>
      induction resolved with
      | concrete | intLiteral => rfl
      | unbound free => simp only [Substitution.applyTypeBy, Substitution.applyVarWithin, Substitution.applyWith,
          Substitution.applyVar, free]
      | bound found rest _ =>
        have rested := ih settled rest (show _ < fuel by omega) (show _ < more by omega)
        simp only [Substitution.applyTypeBy, Substitution.applyVarWithin, Substitution.applyWith,
          Substitution.applyVar, found, rested]
        rfl
      | array _ inner =>
        simp only [Substitution.applyTypeBy, inner enough also, Substitution.applyWith]
        rfl

theorem occursTypeBy_eq {var : Nat} (resolved : Resolves substitution count ty final) (enough : count < fuel)
    (also : count < more) :
    Substitution.occursTypeBy (Substitution.occursVarWithin substitution var fuel) ty =
      some (Substitution.occursWith (Substitution.occursVar substitution var more) ty) := by
  induction fuel generalizing more ty final count with
  | zero => omega
  | succ fuel ih =>
    cases more with
    | zero => omega
    | succ more =>
      induction resolved with
      | concrete | intLiteral => rfl
      | unbound free =>
        simp only [Substitution.occursTypeBy, Substitution.occursVarWithin, Substitution.occursWith,
          Substitution.occursVar, free]
        split
        next same => simp [same]
        next different => simp [different]
      | bound found rest _ =>
        have rested := ih rest (show _ < fuel by omega) (show _ < more by omega)
        simp only [Substitution.occursTypeBy, Substitution.occursVarWithin, Substitution.occursWith,
          Substitution.occursVar, found, rested]
        split
        next same => simp [same]
        next different => simp [different]
      | array _ inner => exact inner enough also

namespace Settled

/-- As many lookups as there are slots, and one more, are enough. -/
theorem applyWithin (settled : Settled substitution) (enough : substitution.mapping.length < fuel) (ty : InferType) :
    substitution.applyWithin fuel ty = some (substitution.apply ty) := by
  obtain ⟨final, count, resolved⟩ := settled.total ty
  have short := resolved.count_le
  exact applyTypeBy_eq settled resolved (by omega) (by omega)

theorem occursWithin (settled : Settled substitution) (enough : substitution.mapping.length < fuel) (var : TypeVarId)
    (ty : InferType) : substitution.occursWithin fuel var ty = some (substitution.occursIn var ty) := by
  obtain ⟨final, count, resolved⟩ := settled.total ty
  have short := resolved.count_le
  exact occursTypeBy_eq resolved (by omega) (by omega)

/-- Recovery and defaults bind any variable to a concrete type, bound before or not. -/
theorem insert_concrete (settled : Settled substitution) (id : TypeVarId) (ty : AirType) :
    Settled (substitution.insert id (.concrete ty)) := by
  have ends : Resolves (substitution.insert id (.concrete ty)) 1 (.var id) (.concrete ty) :=
    .bound (by rw [get_insert, if_pos rfl]) (.concrete ty)
  have forward {start target : InferType} {count : Nat} (resolved : Resolves substitution count start target) :
      ∃ steps final, Resolves (substitution.insert id (.concrete ty)) steps start final := by
    induction resolved with
    | concrete ty => exact ⟨0, _, .concrete ty⟩
    | intLiteral => exact ⟨0, _, .intLiteral⟩
    | @unbound other free =>
      by_cases same : other = id
      · exact ⟨1, .concrete ty, by rw [same]; exact ends⟩
      · exact ⟨0, _, .unbound (by rw [get_insert, if_neg same, free])⟩
    | @bound other _ _ _ found _ ih =>
      by_cases same : other = id
      · exact ⟨1, .concrete ty, by rw [same]; exact ends⟩
      · obtain ⟨steps, final, later⟩ := ih
        exact ⟨steps + 1, final, .bound (by rw [get_insert, if_neg same, found]) later⟩
    | array _ ih =>
      obtain ⟨steps, final, inner⟩ := ih
      exact ⟨steps, _, .array inner⟩
  intro other
  obtain ⟨count, final, resolved⟩ := settled other
  exact forward resolved

end Settled

theorem apply_resolved (resolved : Resolves substitution 0 ty ty) : substitution.apply ty = (ty, substitution) := by
  rw [Substitution.apply]
  induction ty with
  | concrete | intLiteral => rfl
  | var id =>
    cases resolved with
    | unbound free => simp only [Substitution.applyWith, Substitution.applyVar, free]
  | array element length ih =>
    cases resolved with
    | array inner => simp only [Substitution.applyWith, ih inner]

end Acyclic

/-- The error of a string literal whose class meets an integer literal's. -/
def LiteralClash (result : UnifyResult) : Prop := ∃ side, result = Unifier.stringLiteralMismatch .intLiteral side

/-- What a failed unification leaves behind. Lookups may have compressed paths;
when a string literal's class meets an integer literal's, the two variables may
have taken over each other's number marks. -/
structure Failed (before after : Unifier) (result : UnifyResult) : Prop where
  same : Same before.substitution after.substitution
  strings : after.stringLiteralVars = before.stringLiteralVars
  types : after.stringLiteralTypes = before.stringLiteralTypes
  numbers : (after.intLiteralVars = before.intLiteralVars ∧ after.floatLiteralVars = before.floatLiteralVars) ∨
    LiteralClash result ∧ ∃ var other, before.substitution.get var = none ∧ before.substitution.get other = none ∧
      ∀ id, id ≠ var → id ≠ other → after.intLiteralVars id = before.intLiteralVars id ∧
        after.floatLiteralVars id = before.floatLiteralVars id

/-- What an operation of the engine may do to its state. -/
structure Outcome (before : Unifier) (outcome : Unifier × UnifyResult) : Prop where
  settled : Settled outcome.1.substitution
  failed : outcome.2 ≠ .ok → Failed before outcome.1 outcome.2

section Operations

variable {unifier : Unifier} {equal : AirType → AirType → Bool} {var : Nat} {ty lhs rhs left right : InferType}
  {side : VarSide} {result : UnifyResult}

theorem Failed.unchanged (unifier : Unifier) (result : UnifyResult) : Failed unifier unifier result :=
  ⟨Same.refl _, rfl, rfl, .inl ⟨rfl, rfl⟩⟩

theorem Failed.after_lookup {substitution : Substitution} {after : Unifier}
    (same : Same unifier.substitution substitution) (failed : Failed { unifier with substitution } after result) :
    Failed unifier after result where
  same := same.trans failed.same
  strings := failed.strings
  types := failed.types
  numbers := by
    rcases failed.numbers with kept | ⟨clash, var, other, first, second, elsewhere⟩
    · exact .inl kept
    · exact .inr ⟨clash, var, other, (same.free var).mp first, (same.free other).mp second, elsewhere⟩

theorem Outcome.unchanged (settled : Settled unifier.substitution) (result : UnifyResult) :
    Outcome unifier (unifier, result) := ⟨settled, fun _ => .unchanged unifier result⟩

/-- The stages of a binding to a type that is no variable only check. -/
theorem stages_known (known : ∀ id, ty ≠ .var id) : (unifier.bindIntLiteral var ty side).1 = unifier ∧
    (unifier.bindFloatLiteral var ty side).1 = unifier ∧ (unifier.bindStringLiteral var ty side).1 = unifier := by
  cases ty with
  | var id => exact absurd rfl (known id)
  | intLiteral | array =>
    refine ⟨?_, ?_, ?_⟩
    · unfold Unifier.bindIntLiteral
      split <;> rfl
    · unfold Unifier.bindFloatLiteral
      split <;> rfl
    · unfold Unifier.bindStringLiteral
      split <;> rfl
  | concrete ty =>
    refine ⟨?_, ?_, ?_⟩
    · simp only [Unifier.bindIntLiteral]
      repeat' split
      all_goals rfl
    · simp only [Unifier.bindFloatLiteral]
      repeat' split
      all_goals rfl
    · simp only [Unifier.bindStringLiteral]
      repeat' split
      all_goals rfl

theorem stages_unchanged (known : ∀ id, ty ≠ .var id) :
    (Unifier.andBind (unifier.bindIntLiteral var ty side) fun unifier =>
      Unifier.andBind (unifier.bindFloatLiteral var ty side) fun unifier =>
        unifier.bindStringLiteral var ty side).1 = unifier := by
  have fixed {unifier : Unifier} := @stages_known unifier var ty side known
  have first := (@fixed unifier).1
  generalize unifier.bindIntLiteral var ty side = int at first ⊢
  rcases int with ⟨between, _ | ended⟩
  · obtain rfl : between = unifier := first
    have second := (@fixed between).2.1
    simp only [Unifier.andBind]
    generalize between.bindFloatLiteral var ty side = float at second ⊢
    rcases float with ⟨last, _ | ended⟩
    · obtain rfl : last = between := second
      exact fixed.2.2
    · exact second
  · exact first

/-- A binding to such a type inserts it, or changes nothing. -/
theorem bind_known_eq (known : ∀ id, ty ≠ .var id) : (unifier.bind var ty side).1 = unifier ∨
    unifier.substitution.occursIn var ty = false ∧ unifier.bind var ty side = (unifier.insert var ty, .ok) := by
  have checked := @stages_unchanged unifier var ty side known
  unfold Unifier.bind
  rw [if_neg (known var)]
  split
  · exact .inl rfl
  next absent =>
    cases ty with
    | var id => exact absurd rfl (known id)
    | concrete | intLiteral | array =>
      revert checked
      dsimp only
      generalize Unifier.andBind _ _ = stages
      rcases stages with ⟨between, _ | ended⟩
      · rintro rfl
        exact .inr ⟨by simpa using absent, rfl⟩
      · rintro rfl
        exact .inl rfl

/-- A string literal's stage of a binding to a variable either shares the marks
or ends with a clash, having changed nothing. -/
theorem string_var (other : TypeVarId) : (∃ marks, unifier.bindStringLiteral var (.var other) side =
      ({ unifier with stringLiteralVars := marks }, none)) ∨
    ∃ result, LiteralClash result ∧ unifier.bindStringLiteral var (.var other) side = (unifier, some result) := by
  simp only [Unifier.bindStringLiteral]
  split
  · split
    · exact .inr ⟨_, ⟨_, rfl⟩, rfl⟩
    · exact .inl ⟨_, rfl⟩
  · split
    · split
      · exact .inr ⟨_, ⟨_, rfl⟩, rfl⟩
      · exact .inl ⟨_, rfl⟩
    · exact .inl ⟨unifier.stringLiteralVars, rfl⟩

theorem joiningNumbers_elsewhere {other id : TypeVarId} (first : id ≠ var) (second : id ≠ other) :
    (joiningNumbers unifier var other side).intLiteralVars id = unifier.intLiteralVars id ∧
      (joiningNumbers unifier var other side).floatLiteralVars id = unifier.floatLiteralVars id := by
  have one : (id == var) = false := by simpa using first
  have two : (id == other) = false := by simpa using second
  simp [joiningNumbers, share, one, two]

theorem bind_outcome (settled : Settled unifier.substitution) (free : unifier.substitution.get var = none)
    (final : applied unifier.substitution ty = ty) : Outcome unifier (unifier.bind var ty side) := by
  have way : Resolves unifier.substitution 0 ty ty := by
    obtain ⟨count, resolved⟩ := (settled.apply ty).1
    rw [final] at resolved
    exact resolved.final_self
  have inserted (absent : unifier.substitution.occursIn var ty = false) :
      Settled (unifier.substitution.insert var ty) :=
    settled_insert settled free final (not_mentions_of_occursIn way absent)
  by_cases known : ∀ id, ty ≠ .var id
  · rcases @bind_known_eq unifier var ty side known with kept | ⟨absent, bound⟩
    · refine ⟨by rw [kept]; exact settled, ?_⟩
      intro _
      rw [kept]
      exact .unchanged unifier _
    · rw [bound]
      exact ⟨inserted absent, fun fails => absurd rfl fails⟩
  · obtain ⟨other, rfl⟩ : ∃ other, ty = .var other := by simpa using known
    by_cases same : InferType.var other = .var var
    · simp only [Unifier.bind, if_pos same]
      exact .unchanged settled _
    · by_cases occurs : unifier.substitution.occursIn var (.var other)
      · simp only [Unifier.bind, if_neg same, if_pos occurs]
        exact .unchanged settled _
      · have shape : unifier.bind var (.var other) side =
            settle ((joiningNumbers unifier var other side).bindStringLiteral var (.var other) side) var (.var other) := by
          simp only [Unifier.bind, if_neg same, if_neg occurs, int_joined, float_joined, Unifier.andBind]
          exact settle_eq _
        rw [shape]
        rcases @string_var (joiningNumbers unifier var other side) var side other with
          ⟨marks, goes⟩ | ⟨result, clash, ends⟩
        · rw [goes]
          exact ⟨inserted (by simpa using occurs), fun fails => absurd rfl fails⟩
        · rw [ends]
          refine ⟨settled, fun _ => ⟨Same.refl _, rfl, rfl, .inr ⟨clash, var, other, free, ?_, ?_⟩⟩⟩
          · exact free_of_applied settled final
          · intro id first second
            exact joiningNumbers_elsewhere first second

theorem rebind_settled (settled : Settled unifier.substitution) (original : InferType) (ty : AirType) :
    Settled (unifier.rebindIntLiteralToConcrete original ty).substitution := by
  cases original with
  | concrete | intLiteral | array => exact settled
  | var var =>
    have looked := (settled.apply (.var var)).2.settled settled
    rw [Unifier.rebindIntLiteralToConcrete]
    dsimp only
    split
    · split
      · exact looked.insert_concrete _ _
      · exact looked
    · split
      · exact looked.insert_concrete _ _
      · exact looked
    · exact looked
    · exact looked

theorem literal_outcome (settled : Settled unifier.substitution) (ty : AirType) : Outcome unifier (if ty.isInteger then
      ((unifier.rebindIntLiteralToConcrete lhs ty).rebindIntLiteralToConcrete rhs ty, .ok)
    else if ty.isError then (unifier, .ok) else (unifier, result)) := by
  split
  · exact ⟨rebind_settled (rebind_settled settled _ _) _ _, fun fails => absurd rfl fails⟩
  · split
    · exact .unchanged settled _
    · exact .unchanged settled _

theorem unifyResolved_outcome (settled : Settled unifier.substitution)
    (leftFinal : applied unifier.substitution left = left) (rightFinal : applied unifier.substitution right = right) :
    Outcome unifier (unifier.unifyResolved equal lhs rhs left right) := by
  induction left generalizing lhs rhs right with
  | var var =>
    rw [Unifier.unifyResolved]
    exact bind_outcome settled (free_of_applied settled leftFinal) rightFinal
  | intLiteral =>
    cases right with
    | intLiteral | array =>
      rw [Unifier.unifyResolved]
      exact .unchanged settled _
    | concrete ty =>
      rw [Unifier.unifyResolved]
      exact literal_outcome settled ty
    | var var =>
      rw [Unifier.unifyResolved.eq_3 _ _ _ _ _ _ (by simp)]
      exact bind_outcome settled (free_of_applied settled rightFinal) leftFinal
  | concrete one =>
    cases right with
    | intLiteral =>
      rw [Unifier.unifyResolved]
      exact literal_outcome settled one
    | concrete other =>
      rw [Unifier.unifyResolved]
      split
      · exact .unchanged settled _
      · exact .unchanged settled _
    | var var =>
      rw [Unifier.unifyResolved.eq_3 _ _ _ _ _ _ (by simp)]
      exact bind_outcome settled (free_of_applied settled rightFinal) leftFinal
    | array element length =>
      rw [Unifier.unifyResolved]
      split
      · exact .unchanged settled _
      · exact .unchanged settled _
  | array element length ih =>
    cases right with
    | intLiteral =>
      rw [Unifier.unifyResolved]
      exact .unchanged settled _
    | concrete other =>
      rw [Unifier.unifyResolved]
      split
      · exact .unchanged settled _
      · exact .unchanged settled _
    | var var =>
      rw [Unifier.unifyResolved.eq_3 _ _ _ _ _ _ (by simp)]
      exact bind_outcome settled (free_of_applied settled rightFinal) leftFinal
    | array other otherLength =>
      rw [Unifier.unifyResolved]
      split
      · exact .unchanged settled _
      · exact ih (final_element settled leftFinal) (final_element settled rightFinal)

theorem lookups_settled (settled : Settled unifier.substitution) (ty : InferType) :
    Settled (unifier.apply ty).2.substitution := (settled.apply ty).2.settled settled

/-- Both sides looked up: the state is one of the same answers. -/
theorem both_applied (settled : Settled unifier.substitution) (lhs rhs : InferType) : ∃ first substitution,
    Same unifier.substitution substitution ∧ unifier.apply lhs = (applied unifier.substitution lhs, first) ∧
      first.apply rhs = (applied unifier.substitution rhs, { unifier with substitution }) := by
  have first := (settled.apply lhs).2
  have second := ((first.settled settled).apply rhs).2
  refine ⟨_, _, first.trans second, rfl, ?_⟩
  rw [← first.applied settled]
  rfl

theorem unifyWith_outcome (settled : Settled unifier.substitution) (lhs rhs : InferType) :
    Outcome unifier (unifier.unifyWith equal lhs rhs) := by
  obtain ⟨first, substitution, same, firstApply, secondApply⟩ := both_applied settled lhs rhs
  have final (ty : InferType) :
      applied substitution (applied unifier.substitution ty) = applied unifier.substitution ty := by
    rw [same.applied settled, applied_applied settled]
  rw [Unifier.unifyWith, firstApply]
  dsimp only
  rw [secondApply]
  have outcome := @unifyResolved_outcome { unifier with substitution } equal lhs rhs _ _ (same.settled settled)
    (final lhs) (final rhs)
  exact ⟨outcome.settled, fun fails => (outcome.failed fails).after_lookup same⟩

/-- How many arrays a type is nested in. -/
def depth : InferType → Nat
  | .array element _ => depth element + 1
  | _ => 0

theorem unifyWithin_resolved {fuel : Nat} (leftFinal : Resolves unifier.substitution 0 left left)
    (rightFinal : Resolves unifier.substitution 0 right right) (enough : depth left < fuel) :
    unifier.unifyWithin equal fuel left right = some (unifier.unifyResolved equal left right left right) := by
  induction left generalizing right fuel with
  | concrete | intLiteral | var =>
    cases fuel with
    | zero => omega
    | succ fuel => simp only [Unifier.unifyWithin, Unifier.apply, apply_resolved leftFinal, apply_resolved rightFinal]
  | array element length ih =>
    cases fuel with
    | zero => omega
    | succ fuel =>
      simp only [Unifier.unifyWithin, Unifier.apply, apply_resolved leftFinal, apply_resolved rightFinal]
      cases right with
      | concrete | intLiteral | var => rfl
      | array other otherLength =>
        cases leftFinal with
        | array innerLeft =>
          cases rightFinal with
          | array innerRight =>
            dsimp only
            rw [Unifier.unifyResolved]
            split
            · rfl
            · exact ih innerLeft innerRight (by simpa [depth] using enough)

/-- Unification ends: one entry for each array around the left side, and one more. -/
theorem unifyWithin_eq {fuel : Nat} (settled : Settled unifier.substitution) (lhs rhs : InferType)
    (enough : depth (applied unifier.substitution lhs) < fuel) :
    unifier.unifyWithin equal fuel lhs rhs = some (unifier.unifyWith equal lhs rhs) := by
  obtain ⟨first, substitution, same, firstApply, secondApply⟩ := both_applied settled lhs rhs
  have final (ty : InferType) : Resolves substitution 0 (applied unifier.substitution ty)
      (applied unifier.substitution ty) := by
    obtain ⟨count, resolved⟩ := (same.gives _ _).mpr (settled.apply ty).1
    exact resolved.final_self
  have leftFinal := final lhs
  have rightFinal := final rhs
  cases fuel with
  | zero => omega
  | succ fuel =>
    rw [Unifier.unifyWithin, Unifier.unifyWith, firstApply]
    dsimp only
    rw [secondApply]
    dsimp only
    generalize applied unifier.substitution lhs = left at leftFinal enough
    generalize applied unifier.substitution rhs = right at rightFinal
    cases left with
    | concrete | intLiteral | var => rfl
    | array element length =>
      cases right with
      | concrete | intLiteral | var => rfl
      | array other otherLength =>
        cases leftFinal with
        | array innerLeft =>
          cases rightFinal with
          | array innerRight =>
            dsimp only
            rw [Unifier.unifyResolved]
            split
            · rfl
            · exact unifyWithin_resolved innerLeft innerRight (by simpa [depth] using enough)

theorem contextualResolved_settled (settled : Settled unifier.substitution) :
    Settled (unifier.contextualResolved equal lhs rhs left right).1.substitution := by
  induction left generalizing lhs rhs right with
  | concrete | intLiteral | var =>
    unfold Unifier.contextualResolved
    split
    · exact rebind_settled settled _ _
    · exact rebind_settled settled _ _
    · exact (unifyWith_outcome settled lhs rhs).settled
  | array element length ih =>
    cases right with
    | concrete | intLiteral | var =>
      unfold Unifier.contextualResolved
      split
      · exact rebind_settled settled _ _
      · exact rebind_settled settled _ _
      · exact (unifyWith_outcome settled lhs rhs).settled
    | array other otherLength =>
      rw [Unifier.contextualResolved]
      split
      · exact settled
      · exact ih

theorem unifyContextual_settled (settled : Settled unifier.substitution) (lhs rhs : InferType) :
    Settled (unifier.unifyContextual equal lhs rhs).1.substitution :=
  contextualResolved_settled (lookups_settled (lookups_settled settled lhs) rhs)

theorem unifyPeer_settled (settled : Settled unifier.substitution) (lhs rhs : InferType) :
    Settled (unifier.unifyPeer equal lhs rhs).1.substitution := by
  have looked := lookups_settled (lookups_settled settled lhs) rhs
  unfold Unifier.unifyPeer
  dsimp only
  split
  · exact looked
  · exact (unifyWith_outcome looked lhs rhs).settled

end Operations

/-- What is done to the engine, by its owner or while it solves constraints. A
check of a predicate is a lookup. -/
inductive Operation where
  | withoutFailureRecovery
  | markIntLiteralVars (vars : List TypeVarId)
  | markFloatLiteralVars (vars : List TypeVarId)
  | markStringLiteralVars (vars : List TypeVarId) (types : List AirType)
  | apply (ty : InferType)
  | unify (equal : AirType → AirType → Bool) (lhs rhs : InferType)
  | unifyContextual (equal : AirType → AirType → Bool) (lhs rhs : InferType)
  | unifyPeer (equal : AirType → AirType → Bool) (lhs rhs : InferType)
  | attributeLiteralJoins (span : Span)
  | recoverFromError (lhs rhs : InferType)
  | defaultUnsigned (ty : InferType)
  | registerStringContextTypes (isStringContextType : InferType → Bool) (ty : InferType)
  | defaultVar (default : AirType) (var : TypeVarId)

def perform (unifier : Unifier) : Operation → Unifier
  | .withoutFailureRecovery => unifier.withoutFailureRecovery
  | .markIntLiteralVars vars => unifier.markIntLiteralVars vars
  | .markFloatLiteralVars vars => unifier.markFloatLiteralVars vars
  | .markStringLiteralVars vars types => unifier.markStringLiteralVars vars types
  | .apply ty => (unifier.apply ty).2
  | .unify equal lhs rhs => (unifier.unifyWith equal lhs rhs).1
  | .unifyContextual equal lhs rhs => (unifier.unifyContextual equal lhs rhs).1
  | .unifyPeer equal lhs rhs => (unifier.unifyPeer equal lhs rhs).1
  | .attributeLiteralJoins span => unifier.attributeLiteralJoins span
  | .recoverFromError lhs rhs => unifier.recoverFromError lhs rhs
  | .defaultUnsigned ty => unifier.defaultUnsigned ty
  | .registerStringContextTypes isStringContextType ty => unifier.registerStringContextTypes isStringContextType ty
  | .defaultVar default var => unifier.defaultVar default var

def Reaches (before after : Unifier) : Prop := ∃ operations : List Operation, operations.foldl perform before = after

def Reachable (unifier : Unifier) : Prop := ∃ typeVarCount, Reaches (Unifier.withCapacity typeVarCount) unifier

theorem perform_settled {unifier : Unifier} (settled : Settled unifier.substitution) (operation : Operation) :
    Settled (perform unifier operation).substitution := by
  cases operation with
  | withoutFailureRecovery | markIntLiteralVars | markFloatLiteralVars | markStringLiteralVars
  | attributeLiteralJoins => exact settled
  | apply ty => exact lookups_settled settled ty
  | unify equal lhs rhs => exact (unifyWith_outcome settled lhs rhs).settled
  | unifyContextual equal lhs rhs => exact unifyContextual_settled settled lhs rhs
  | unifyPeer equal lhs rhs => exact unifyPeer_settled settled lhs rhs
  | registerStringContextTypes isStringContextType ty =>
    obtain ⟨types, registered, _⟩ := register_spec isStringContextType unifier ty
    rw [perform, registered]
    exact settled
  | recoverFromError lhs rhs =>
    have recovered {unifier : Unifier} (settled : Settled unifier.substitution) (ty : InferType) :
        Settled (unifier.recoverVar ty).substitution := by
      cases ty with
      | var var => exact settled.insert_concrete _ _
      | concrete | intLiteral | array => exact settled
    rw [perform, Unifier.recoverFromError]
    split
    · exact settled
    · exact recovered (recovered (lookups_settled (lookups_settled settled lhs) rhs) _) _
  | defaultUnsigned ty =>
    have looked := lookups_settled settled ty
    rw [perform, Unifier.defaultUnsigned]
    dsimp only
    split
    · split
      · exact looked.insert_concrete _ _
      · exact looked
    · exact looked.insert_concrete _ _
    · exact looked
  | defaultVar default var =>
    have looked := lookups_settled settled (.var var)
    rw [perform, Unifier.defaultVar]
    split
    next found =>
      rw [found] at looked
      exact looked.insert_concrete _ _
    next found =>
      rw [found] at looked
      exact looked

theorem Reaches.settled {before after : Unifier} (reaches : Reaches before after)
    (settled : Settled before.substitution) : Settled after.substitution := by
  obtain ⟨operations, rfl⟩ := reaches
  induction operations generalizing before with
  | nil => exact settled
  | cons operation operations ih => exact ih (perform_settled settled operation)

theorem Reachable.settled {unifier : Unifier} (reachable : Reachable unifier) : Settled unifier.substitution := by
  obtain ⟨typeVarCount, reaches⟩ := reachable
  apply reaches.settled
  intro id
  refine ⟨0, _, .unbound ?_⟩
  rw [Unifier.withCapacity, Substitution.withCapacity, Substitution.get, List.getElem?_replicate]
  split <;> rfl

namespace Reaches

variable {before middle after unifier : Unifier}

theorem refl (unifier : Unifier) : Reaches unifier unifier := ⟨[], rfl⟩

theorem trans (first : Reaches before middle) (second : Reaches middle after) : Reaches before after := by
  obtain ⟨operations, rfl⟩ := first
  obtain ⟨more, rfl⟩ := second
  exact ⟨operations ++ more, List.foldl_append⟩

theorem one (operation : Operation) (unifier : Unifier) : Reaches unifier (perform unifier operation) :=
  ⟨[operation], rfl⟩

theorem foldl {State Item : Type} (state : State → Unifier) (step : State → Item → State)
    (stepped : ∀ current item, Reaches (state current) (state (step current item))) (items : List Item)
    (start : State) : Reaches (state start) (state (items.foldl step start)) := by
  induction items generalizing start with
  | nil => exact refl _
  | cons item items ih => exact (stepped start item).trans (ih _)

/-- The outcome of a constraint between two types, taken over. -/
theorem settle (solving : Solving) {outcome : Unifier × UnifyResult} (reaches : Reaches before outcome.1)
    (lhs rhs : InferType) (span : Span) : Reaches before (solving.settle outcome lhs rhs span).unifier := by
  have attributed := reaches.trans (one (.attributeLiteralJoins span) outcome.1)
  rw [Solving.settle]
  split
  · exact attributed
  · exact attributed.trans (one (.recoverFromError lhs rhs) _)

theorem report (solving : Solving) {outcome : Unifier × UnifyResult} (reaches : Reaches before outcome.1)
    (span : Span) : Reaches before (solving.report outcome span).unifier := by
  rw [Solving.report]
  split
  · exact reaches
  · exact reaches

theorem check (unifier : Unifier) (ty : InferType) : Reaches unifier (unifier.checkSigned ty).1 ∧
    Reaches unifier (unifier.checkInteger ty).1 ∧ Reaches unifier (unifier.checkNumeric ty).1 ∧
    Reaches unifier (unifier.checkUnsigned ty).1 := by
  have looked : Reaches unifier (unifier.apply ty).2 := one (.apply ty) unifier
  unfold Unifier.checkSigned Unifier.checkInteger Unifier.checkNumeric Unifier.checkUnsigned
  generalize unifier.apply ty = outcome at looked ⊢
  obtain ⟨known, after⟩ := outcome
  cases known with
  | var | intLiteral | array => exact ⟨looked, looked, looked, looked⟩
  | concrete ty =>
    dsimp only
    refine ⟨?_, ?_, ?_, ?_⟩
    · split
      · exact looked
      · split
        · exact looked
        · exact looked
    all_goals
      split
      · exact looked
      · exact looked

theorem early {ty : InferType} {check : Unifier → InferType → Unifier × UnifyResult} {result : Option UnifyResult}
    (found : Lookups.earlyCheck before ty check = (after, result)) (checked : ∀ unifier, Reaches unifier (check unifier ty).1) :
    Reaches before after := by
  have looked := one (.apply ty) before
  rw [Lookups.earlyCheck] at found
  dsimp only at found
  split at found
  · cases found
    exact looked.trans (checked _)
  · cases found
    exact looked

variable (lookups : Lookups)

theorem equalityStep (pass : Lookups.FirstPass) (constraint : Constraint) :
    Reaches pass.solving.unifier (lookups.equalityStep pass constraint).solving.unifier := by
  cases constraint with
  | equal lhs rhs span => exact settle _ (one (.unify lookups.concreteTypesEqual lhs rhs) _) lhs rhs span
  | peerEqual lhs rhs span => exact settle _ (one (.unifyPeer lookups.concreteTypesEqual lhs rhs) _) lhs rhs span
  | contextualEqual lhs rhs span =>
    exact settle _ (one (.unifyContextual lookups.concreteTypesEqual lhs rhs) _) lhs rhs span
  | fieldGet | fieldSet | indexGet | indexSet | isSigned => exact refl _
  | isInteger ty | isNumeric ty | isUnsigned ty =>
    rw [Lookups.equalityStep]
    dsimp only
    split
    all_goals
      next found =>
        first
          | exact early found fun unifier => (check unifier ty).2.1
          | exact early found fun unifier => (check unifier ty).2.2.1
          | exact early found fun unifier => (check unifier ty).2.2.2

theorem projectionStep (state : Solving × List Constraint × Bool) (constraint : Constraint) :
    Reaches state.1.unifier (lookups.projectionStep state constraint).1.unifier := by
  obtain ⟨solving, waiting, progress⟩ := state
  have looked : Reaches solving.unifier (lookups.projectedType solving.unifier constraint).2 := by
    cases constraint with
    | fieldGet base | fieldSet base | indexGet base | indexSet base => exact one (.apply base) _
    | equal | contextualEqual | peerEqual | isSigned | isInteger | isNumeric | isUnsigned => exact refl _
  rw [Lookups.projectionStep]
  split
  next found => rwa [found] at looked
  next projected unifier found =>
    rw [found] at looked
    have registered := looked.trans (one (.registerStringContextTypes lookups.isStringContextType projected) unifier)
    apply registered.trans
    cases constraint with
    | fieldGet base field result span | indexGet base result span =>
      exact settle _ (one (.unify lookups.concreteTypesEqual projected result) _) projected result span
    | fieldSet base field value span | indexSet base value span =>
      exact settle _ (one (.unifyContextual lookups.concreteTypesEqual value projected) _) value projected span
    | equal | contextualEqual | peerEqual | isSigned | isInteger | isNumeric | isUnsigned => exact refl _

theorem resolveProjections (rounds : Nat) (solving : Solving) (pending : List Constraint) :
    Reaches solving.unifier (lookups.resolveProjections rounds solving pending).1.unifier := by
  induction rounds generalizing solving pending with
  | zero => exact refl _
  | succ rounds ih =>
    have round := foldl (fun state : Solving × List Constraint × Bool => state.1.unifier) lookups.projectionStep
      (projectionStep lookups) pending (solving, [], false)
    rw [Lookups.resolveProjections]
    dsimp only at round ⊢
    split
    · exact round
    · exact round.trans (ih _ _)

theorem predicateStep (solving : Solving) (constraint : Constraint) :
    Reaches solving.unifier (Lookups.predicateStep solving constraint).unifier := by
  cases constraint with
  | isSigned ty span => exact report _ (check _ ty).1 span
  | isInteger ty span => exact report _ (check _ ty).2.1 span
  | isNumeric ty span => exact report _ (check _ ty).2.2.1 span
  | isUnsigned ty span => exact report _ ((one (.defaultUnsigned ty) _).trans (check _ ty).2.2.2) span
  | equal | contextualEqual | peerEqual | fieldGet | fieldSet | indexGet | indexSet => exact refl _

/-- Solving the constraints of a body is a run of operations. -/
theorem solveConstraints (constraints : List Constraint) :
    Reaches unifier (lookups.solveConstraints unifier constraints).unifier := by
  have equalities := foldl (fun pass : Lookups.FirstPass => pass.solving.unifier) lookups.equalityStep
    (equalityStep lookups) constraints { solving := { unifier, errors := [] }, projections := [], predicates := [] }
  rw [Lookups.solveConstraints, Lookups.solveEqualities]
  generalize constraints.foldl lookups.equalityStep _ = pass at equalities ⊢
  have projected := resolveProjections lookups (pass.projections.length + 1) pass.solving pass.projections
  exact (equalities.trans projected).trans (foldl Solving.unifier Lookups.predicateStep predicateStep _ _)

end Reaches

/-- The engine at a state: its lookups and unifications end, lookups change no
answer, and a failed unification changes none either. -/
structure Sound (equal : AirType → AirType → Bool) (unifier : Unifier) : Prop where
  acyclic : Acyclic unifier.substitution
  applyEnds : ∀ fuel, unifier.substitution.mapping.length < fuel → ∀ ty,
    unifier.substitution.applyWithin fuel ty = some (unifier.substitution.apply ty)
  occursEnds : ∀ fuel, unifier.substitution.mapping.length < fuel → ∀ var ty,
    unifier.substitution.occursWithin fuel var ty = some (unifier.substitution.occursIn var ty)
  compression : ∀ looked ty,
    ((unifier.substitution.apply looked).2.apply ty).1 = (unifier.substitution.apply ty).1
  unifyEnds : ∀ lhs rhs, ∃ enough, ∀ fuel, enough ≤ fuel →
    unifier.unifyWithin equal fuel lhs rhs = some (unifier.unifyWith equal lhs rhs)
  unified : ∀ lhs rhs, Acyclic (unifier.unifyWith equal lhs rhs).1.substitution
  answers : ∀ lhs rhs, (unifier.unifyWith equal lhs rhs).2 ≠ .ok → ∀ ty,
    ((unifier.unifyWith equal lhs rhs).1.substitution.apply ty).1 = (unifier.substitution.apply ty).1
  failed : ∀ lhs rhs, (unifier.unifyWith equal lhs rhs).2 ≠ .ok →
    Failed unifier (unifier.unifyWith equal lhs rhs).1 (unifier.unifyWith equal lhs rhs).2

theorem Settled.sound (equal : AirType → AirType → Bool) {unifier : Unifier} (settled : Settled unifier.substitution) :
    Sound equal unifier where
  acyclic := settled.acyclic
  applyEnds := fun _ enough ty => settled.applyWithin enough ty
  occursEnds := fun _ enough var ty => settled.occursWithin enough var ty
  compression := fun looked ty => (settled.apply looked).2.applied settled ty
  unifyEnds := fun lhs rhs => ⟨_, fun _ enough => unifyWithin_eq settled lhs rhs enough⟩
  unified := fun lhs rhs => (unifyWith_outcome settled lhs rhs).settled.acyclic
  answers := by
    intro lhs rhs fails ty
    have failed := (unifyWith_outcome settled lhs rhs).failed fails
    exact failed.same.applied settled ty
  failed := fun lhs rhs => (unifyWith_outcome settled lhs rhs).failed

theorem solved_sound (equal : AirType → AirType → Bool) (lookups : Lookups) {unifier : Unifier}
    (reachable : Reachable unifier) (constraints : List Constraint) :
    Sound equal (lookups.solveConstraints unifier constraints).unifier := by
  obtain ⟨typeVarCount, reaches⟩ := reachable
  have solved : Reachable (lookups.solveConstraints unifier constraints).unifier :=
    ⟨typeVarCount, reaches.trans (Reaches.solveConstraints lookups constraints)⟩
  exact solved.settled.sound equal

/-- Two variables of one class that has become a boolean; the path from the
first is not compressed yet. -/
def chained : Unifier :=
  let unifier := ((Unifier.withCapacity 2).unifyWith (· == ·) (.var 0) (.var 1)).1
  (unifier.unifyWith (· == ·) (.var 1) (.concrete .bool)).1

end Rue.Proofs.Inference
