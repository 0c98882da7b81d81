import Mathlib.Data.Finset.Card
import Mathlib.Data.Fintype.Basic
import Rue.Inference.Constraint

/-! What a substitution stands for: every type resolves to one without bound
variables, along a chain that visits no slot twice. Looking a type up compresses
the chain and changes nothing else. -/

namespace Rue.Proofs.Inference
open Rue.Inference

/-- Resolution in a number of lookups. -/
inductive Resolves (substitution : Substitution) : Nat → InferType → InferType → Prop
  | concrete (ty : AirType) : Resolves substitution 0 (.concrete ty) (.concrete ty)
  | intLiteral : Resolves substitution 0 .intLiteral .intLiteral
  | unbound {id : TypeVarId} (free : substitution.get id = none) : Resolves substitution 0 (.var id) (.var id)
  | bound {id : TypeVarId} {ty final : InferType} {count : Nat} (found : substitution.get id = some ty)
      (rest : Resolves substitution count ty final) : Resolves substitution (count + 1) (.var id) final
  | array {element final : InferType} {length count : Nat} (inner : Resolves substitution count element final) :
      Resolves substitution count (.array element length) (.array final length)

/-- Every variable resolves: no chain of bindings comes back to itself. -/
def Settled (substitution : Substitution) : Prop := ∀ id, ∃ count final, Resolves substitution count (.var id) final

section Get

variable {substitution : Substitution} {id other : Nat} {ty : InferType}

theorem get_insert : (substitution.insert id ty).get other = if other = id then some ty else substitution.get other := by
  have long : id < (substitution.mapping ++ List.replicate (id + 1 - substitution.mapping.length) none).length := by
    rw [List.length_append, List.length_replicate]
    omega
  rw [Substitution.get, Substitution.insert]
  split
  next same =>
    rw [same, List.getElem?_set_self long]
    rfl
  next different =>
    rw [List.getElem?_set_ne (Ne.symm different), Substitution.get]
    by_cases old : other < substitution.mapping.length
    · rw [List.getElem?_append_left old]
    · rw [List.getElem?_append_right (by omega), List.getElem?_replicate,
        List.getElem?_eq_none (show substitution.mapping.length ≤ other by omega)]
      split <;> rfl

theorem lt_of_get (found : substitution.get id = some ty) : id < substitution.mapping.length := by
  by_contra above
  rw [Substitution.get, List.getElem?_eq_none (by omega)] at found
  cases found

theorem length_insert (present : id < substitution.mapping.length) :
    (substitution.insert id ty).mapping.length = substitution.mapping.length := by
  rw [Substitution.insert, List.length_set, List.length_append, List.length_replicate]
  omega

end Get

namespace Resolves

variable {substitution : Substitution} {first second count : Nat} {ty one another final : InferType}

theorem unique (left : Resolves substitution first ty one) (right : Resolves substitution second ty another) :
    first = second ∧ one = another := by
  induction left generalizing second another with
  | concrete => cases right; exact ⟨rfl, rfl⟩
  | intLiteral => cases right; exact ⟨rfl, rfl⟩
  | unbound free =>
    cases right with
    | unbound => exact ⟨rfl, rfl⟩
    | bound found => rw [free] at found; cases found
  | bound found rest ih =>
    cases right with
    | unbound free => rw [free] at found; cases found
    | bound again other =>
      rw [found] at again
      cases again
      obtain ⟨rfl, rfl⟩ := ih other
      exact ⟨rfl, rfl⟩
  | array inner ih =>
    cases right with
    | array other =>
      obtain ⟨rfl, rfl⟩ := ih other
      exact ⟨rfl, rfl⟩

theorem final_self (resolved : Resolves substitution count ty final) : Resolves substitution 0 final final := by
  induction resolved with
  | concrete ty => exact .concrete ty
  | intLiteral => exact .intLiteral
  | unbound free => exact .unbound free
  | bound _ _ ih => exact ih
  | array _ ih => exact .array ih

theorem slots (resolved : Resolves substitution count ty final) : ∃ path : List Nat, path.length = count ∧ path.Nodup ∧
    ∀ id ∈ path, id < substitution.mapping.length ∧ ∃ left target, left ≤ count ∧ 0 < left ∧
      Resolves substitution left (.var id) target := by
  induction resolved with
  | concrete | intLiteral | unbound => exact ⟨[], rfl, List.nodup_nil, by simp⟩
  | array _ ih => exact ih
  | @bound id ty final count found rest ih =>
    obtain ⟨path, length, distinct, known⟩ := ih
    refine ⟨id :: path, by simp [length], List.nodup_cons.mpr ⟨?_, distinct⟩, ?_⟩
    · intro again
      obtain ⟨-, left, target, short, -, shorter⟩ := known id again
      have same := (shorter.unique (.bound found rest)).1
      omega
    · intro slot listed
      rcases List.mem_cons.mp listed with rfl | later
      · exact ⟨lt_of_get found, count + 1, final, Nat.le_refl _, Nat.succ_pos _, .bound found rest⟩
      · obtain ⟨inside, left, target, short, positive, way⟩ := known slot later
        exact ⟨inside, left, target, Nat.le_succ_of_le short, positive, way⟩

theorem count_le (resolved : Resolves substitution count ty final) : count ≤ substitution.mapping.length := by
  obtain ⟨path, rfl, distinct, known⟩ := resolved.slots
  have within : path.toFinset ⊆ Finset.range substitution.mapping.length := by
    intro id listed
    exact Finset.mem_range.mpr (known id (List.mem_toFinset.mp listed)).1
  have fewer := Finset.card_le_card within
  rwa [List.toFinset_card_of_nodup distinct, Finset.card_range] at fewer

end Resolves

def Gives (substitution : Substitution) (ty final : InferType) : Prop := ∃ count, Resolves substitution count ty final

theorem Settled.total {substitution : Substitution} (settled : Settled substitution) (ty : InferType) :
    ∃ final, Gives substitution ty final := by
  induction ty with
  | concrete ty => exact ⟨_, 0, .concrete ty⟩
  | intLiteral => exact ⟨_, 0, .intLiteral⟩
  | var id =>
    obtain ⟨count, final, resolved⟩ := settled id
    exact ⟨final, count, resolved⟩
  | array element length ih =>
    obtain ⟨final, count, resolved⟩ := ih
    exact ⟨_, count, .array resolved⟩

theorem Gives.unique {substitution : Substitution} {ty one another : InferType} (left : Gives substitution ty one)
    (right : Gives substitution ty another) : one = another := by
  obtain ⟨_, first⟩ := left
  obtain ⟨_, second⟩ := right
  exact (first.unique second).2

structure Same (substitution after : Substitution) : Prop where
  length : after.mapping.length = substitution.mapping.length
  free : ∀ id, after.get id = none ↔ substitution.get id = none
  gives : ∀ ty final, Gives after ty final ↔ Gives substitution ty final

namespace Same

variable {substitution middle after : Substitution}

theorem refl (substitution : Substitution) : Same substitution substitution :=
  ⟨rfl, fun _ => Iff.rfl, fun _ _ => Iff.rfl⟩

theorem trans (first : Same substitution middle) (second : Same middle after) : Same substitution after :=
  ⟨second.length.trans first.length, fun id => (second.free id).trans (first.free id),
    fun ty final => (second.gives ty final).trans (first.gives ty final)⟩

theorem settled (same : Same substitution after) (settled : Settled substitution) : Settled after := by
  intro id
  obtain ⟨final, known⟩ := settled.total (.var id)
  obtain ⟨count, resolved⟩ := (same.gives _ _).mpr known
  exact ⟨count, final, resolved⟩

end Same

theorem resolves_insert_of_final {substitution : Substitution} {id : Nat} {ty final bound : InferType}
    (taken : substitution.get id = some bound) (resolved : Resolves substitution 0 final final) :
    Resolves (substitution.insert id ty) 0 final final := by
  induction final with
  | concrete ty => exact .concrete ty
  | intLiteral => exact .intLiteral
  | var other =>
    cases resolved with
    | unbound free =>
      refine .unbound ?_
      rw [get_insert, if_neg, free]
      intro same
      rw [same, taken] at free
      cases free
  | array element length ih =>
    cases resolved with
    | array inner => exact .array (ih inner)

/-- Path compression: a slot may be rebound to what it resolves to. -/
theorem same_compress {substitution : Substitution} {id : Nat} {bound final : InferType} (settled : Settled substitution)
    (taken : substitution.get id = some bound) (known : Gives substitution (.var id) final) :
    Same substitution (substitution.insert id final) := by
  have forward {ty target : InferType} {count : Nat} (resolved : Resolves substitution count ty target) :
      Gives (substitution.insert id final) ty target := by
    induction resolved with
    | concrete ty => exact ⟨0, .concrete ty⟩
    | intLiteral => exact ⟨0, .intLiteral⟩
    | @unbound other free =>
      refine ⟨0, .unbound ?_⟩
      rw [get_insert, if_neg, free]
      intro same
      rw [same, taken] at free
      cases free
    | @bound other ty target count found rest ih =>
      by_cases same : other = id
      · subst same
        obtain rfl := Gives.unique ⟨_, .bound found rest⟩ known
        obtain ⟨_, way⟩ := known
        exact ⟨1, .bound (by rw [get_insert, if_pos rfl]) (resolves_insert_of_final taken way.final_self)⟩
      · obtain ⟨steps, later⟩ := ih
        exact ⟨steps + 1, .bound (by rw [get_insert, if_neg same, found]) later⟩
    | array _ ih =>
      obtain ⟨steps, inner⟩ := ih
      exact ⟨steps, .array inner⟩
  refine ⟨length_insert (lt_of_get taken), ?_, ?_⟩
  · intro other
    rw [get_insert]
    split
    next same => simp [same, taken]
    · exact Iff.rfl
  · intro ty target
    constructor
    · intro given
      obtain ⟨final, count, resolved⟩ := settled.total ty
      rw [given.unique (forward resolved)]
      exact ⟨count, resolved⟩
    · intro ⟨count, resolved⟩
      exact forward resolved

/-- Looking up with enough fuel gives what the type resolves to. -/
theorem applyWith_spec {fuel : Nat} {substitution : Substitution} {ty final : InferType} {count : Nat}
    (settled : Settled substitution) (resolved : Resolves substitution count ty final) (enough : count < fuel) :
    ∃ after, Substitution.applyWith (Substitution.applyVar fuel) substitution ty = (final, after) ∧
      Same substitution after := by
  induction fuel generalizing substitution ty final count with
  | zero => omega
  | succ fuel ih =>
    induction resolved with
    | concrete => exact ⟨substitution, rfl, Same.refl _⟩
    | intLiteral => exact ⟨substitution, rfl, Same.refl _⟩
    | unbound free =>
      refine ⟨substitution, ?_, Same.refl _⟩
      simp only [Substitution.applyWith, Substitution.applyVar, free]
    | @bound id ty final count found rest _ =>
      obtain ⟨after, applied, same⟩ := ih settled rest (by omega)
      simp only [Substitution.applyWith, Substitution.applyVar, found, applied]
      split
      · have known : Gives after (.var id) final := (same.gives _ _).mpr ⟨_, .bound found rest⟩
        cases taken : after.get id with
        | none =>
          have free := (same.free id).mp taken
          rw [found] at free
          cases free
        | some bound => exact ⟨_, rfl, same.trans (same_compress (same.settled settled) taken known)⟩
      · exact ⟨after, rfl, same⟩
    | array _ inner =>
      obtain ⟨after, applied, same⟩ := inner enough
      exact ⟨after, by simp only [Substitution.applyWith, applied], same⟩

/-- What a type resolves to, as the code computes it. -/
def applied (substitution : Substitution) (ty : InferType) : InferType := (substitution.apply ty).1

namespace Settled

variable {substitution : Substitution} {ty final : InferType}

theorem apply (settled : Settled substitution) (ty : InferType) : Gives substitution ty (applied substitution ty) ∧
    Same substitution (substitution.apply ty).2 := by
  obtain ⟨final, count, resolved⟩ := settled.total ty
  obtain ⟨after, computed, same⟩ := applyWith_spec settled resolved (Nat.lt_succ_of_le resolved.count_le)
  rw [applied, Substitution.apply, computed]
  exact ⟨⟨count, resolved⟩, same⟩

theorem applied_eq (settled : Settled substitution) (known : Gives substitution ty final) :
    applied substitution ty = final := (settled.apply ty).1.unique known

end Settled

theorem Same.applied {substitution after : Substitution} (same : Same substitution after) (settled : Settled substitution)
    (ty : InferType) : applied after ty = Inference.applied substitution ty :=
  (same.settled settled).applied_eq ((same.gives _ _).mpr (settled.apply ty).1)

section Applied

variable {substitution : Substitution} (settled : Settled substitution)

theorem applied_concrete (ty : AirType) : applied substitution (.concrete ty) = .concrete ty := rfl

include settled

theorem applied_free {id : Nat} (free : substitution.get id = none) : applied substitution (.var id) = .var id :=
  settled.applied_eq ⟨0, .unbound free⟩

theorem applied_array (element : InferType) (length : Nat) :
    applied substitution (.array element length) = .array (applied substitution element) length := by
  obtain ⟨count, resolved⟩ := (settled.apply element).1
  exact settled.applied_eq ⟨count, .array resolved⟩

theorem applied_applied (ty : InferType) : applied substitution (applied substitution ty) = applied substitution ty := by
  obtain ⟨count, resolved⟩ := (settled.apply ty).1
  exact settled.applied_eq ⟨0, resolved.final_self⟩

theorem free_of_applied {ty : InferType} {id : Nat} (rep : applied substitution ty = .var id) :
    substitution.get id = none := by
  obtain ⟨count, resolved⟩ := (settled.apply ty).1
  have last := resolved.final_self
  rw [rep] at last
  cases last with
  | unbound free => exact free

end Applied

/-- A variable written out in a type. -/
def Mentions (var : Nat) : InferType → Prop
  | .var id => id = var
  | .array element _ => Mentions var element
  | _ => False

def replace (var : Nat) (by' : InferType) : InferType → InferType
  | .var id => if id = var then by' else .var id
  | .array element length => .array (replace var by' element) length
  | ty => ty

theorem replace_of_not_mentions {var : Nat} {by' ty : InferType} (absent : ¬ Mentions var ty) :
    replace var by' ty = ty := by
  induction ty with
  | concrete | intLiteral => rfl
  | var id => exact if_neg absent
  | array element length ih => rw [replace, ih absent]

theorem not_mentions_of_occursIn {substitution : Substitution} {var : Nat} {ty : InferType}
    (final : Resolves substitution 0 ty ty) (absent : substitution.occursIn var ty = false) : ¬ Mentions var ty := by
  induction ty with
  | concrete | intLiteral => exact id
  | var id =>
    intro same
    rw [Mentions] at same
    simp [Substitution.occursIn, Substitution.occursWith, Substitution.occursVar, same] at absent
  | array element length ih =>
    cases final with
    | array inner => exact ih inner absent

theorem resolves_insert {substitution : Substitution} {var count : Nat} {ty start final : InferType}
    (settled : Settled substitution) (free : substitution.get var = none) (plain : applied substitution ty = ty)
    (absent : ¬ Mentions var ty) (resolved : Resolves substitution count start final) :
    Gives (substitution.insert var ty) start (replace var ty final) := by
  have target {other : InferType} (final : Resolves substitution 0 other other) (absent : ¬ Mentions var other) :
      Resolves (substitution.insert var ty) 0 other other := by
    induction other with
    | concrete ty => exact .concrete ty
    | intLiteral => exact .intLiteral
    | var id =>
      cases final with
      | unbound open' => exact .unbound (by rw [get_insert, if_neg (show id ≠ var from absent), open'])
    | array element length ih =>
      cases final with
      | array inner => exact .array (ih inner absent)
  induction resolved with
  | concrete ty => exact ⟨0, .concrete ty⟩
  | intLiteral => exact ⟨0, .intLiteral⟩
  | @unbound id open' =>
    rw [replace]
    split
    next same =>
      obtain ⟨count, known⟩ := (settled.apply ty).1
      rw [plain] at known
      exact ⟨1, .bound (by rw [get_insert, if_pos same]) (target known.final_self absent)⟩
    next different => exact ⟨0, .unbound (by rw [get_insert, if_neg different, open'])⟩
  | @bound id ty' final count found rest ih =>
    obtain ⟨count, later⟩ := ih
    refine ⟨count + 1, .bound ?_ later⟩
    rw [get_insert, if_neg, found]
    intro same
    rw [same, free] at found
    cases found
  | array _ ih =>
    obtain ⟨count, inner⟩ := ih
    exact ⟨count, .array inner⟩

section Insert

variable {substitution : Substitution} {var : Nat} {ty : InferType} (settled : Settled substitution)
  (free : substitution.get var = none) (plain : applied substitution ty = ty) (absent : ¬ Mentions var ty)

include settled free plain absent

theorem settled_insert : Settled (substitution.insert var ty) := by
  intro id
  obtain ⟨count, final, resolved⟩ := settled id
  obtain ⟨count, known⟩ := resolves_insert settled free plain absent resolved
  exact ⟨count, _, known⟩

/-- Binding an unbound variable replaces it in what types resolve to. -/
theorem applied_insert (start : InferType) :
    applied (substitution.insert var ty) start = replace var ty (applied substitution start) := by
  obtain ⟨_, resolved⟩ := (settled.apply start).1
  exact (settled_insert settled free plain absent).applied_eq (resolves_insert settled free plain absent resolved)

end Insert

/-- A later substitution: it answers for a type as for what the earlier one made
of it, and unbinds nothing. -/
structure Extends (earlier later : Substitution) : Prop where
  settled : Settled later
  applied : ∀ ty, applied later ty = applied later (applied earlier ty)
  free : ∀ id, later.get id = none → earlier.get id = none

namespace Extends

variable {earlier middle later : Substitution} {one other : InferType}

theorem refl (settled : Settled earlier) : Extends earlier earlier where
  settled := settled
  applied := fun ty => (applied_applied settled ty).symm
  free := fun _ open' => open'

theorem trans (first : Extends earlier middle) (second : Extends middle later) : Extends earlier later where
  settled := second.settled
  applied := by
    intro ty
    rw [second.applied ty, first.applied ty, ← second.applied]
  free := fun id open' => first.free id (second.free id open')

theorem of_same (settled : Settled earlier) (same : Same earlier later) : Extends earlier later where
  settled := same.settled settled
  applied := by
    intro ty
    rw [same.applied settled, same.applied settled, applied_applied settled]
  free := fun id => (same.free id).mp

theorem of_insert {var : Nat} {ty : InferType} (settled : Settled earlier) (free : earlier.get var = none)
    (plain : Inference.applied earlier ty = ty) (absent : ¬ Mentions var ty) : Extends earlier (earlier.insert var ty) where
  settled := settled_insert settled free plain absent
  applied := by
    intro start
    rw [applied_insert settled free plain absent, applied_insert settled free plain absent, applied_applied settled]
  free := by
    intro id open'
    rw [get_insert] at open'
    split at open'
    next same => cases open'
    · exact open'

theorem congr (extends' : Extends earlier later) (same : Inference.applied earlier one = Inference.applied earlier other) :
    Inference.applied later one = Inference.applied later other := by
  rw [extends'.applied one, same, ← extends'.applied]

theorem concrete (extends' : Extends earlier later) {ty : AirType} (known : Inference.applied earlier one = .concrete ty) :
    Inference.applied later one = .concrete ty := by
  rw [extends'.applied, known, applied_concrete]

end Extends

end Rue.Proofs.Inference
