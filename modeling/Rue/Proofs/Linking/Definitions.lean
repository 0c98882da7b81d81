import Mathlib.Data.List.Induction
import Mathlib.Data.List.Nodup
import Mathlib.Data.List.Perm.Lattice
import Mathlib.Order.MinMax
import Rue.Linking.Linker

/-! Which definition of a name survives: it depends on the kinds of the
definitions and, among equals, on the order they arrive in. -/

namespace Rue.Proofs.Linking
open Rue.Linking

def isReal (symbol : Symbol) : Bool := symbol.common.isNone

def isStrong (symbol : Symbol) : Bool := isReal symbol && symbol.binding ≠ .weakBinding

/-- Two tentative definitions as one, of the larger size and the stricter alignment. -/
def mergeTentative (first second : Nat × Symbol) : Nat × Symbol :=
  (first.1, { first.2 with
    size := max first.2.size second.2.size
    common := some (max (first.2.common.getD 0) (second.2.common.getD 0)) })

def tentative : List (Nat × Symbol) → Option (Nat × Symbol)
  | [] => none
  | first :: rest => some (rest.foldl mergeTentative first)

def defines (name : Name) (entry : Nat × Symbol) : Bool := providesDefinition entry.2 ∧ entry.2.name = name

def definitions (name : Name) (listed : List (Nat × Symbol)) : List (Nat × Symbol) := listed.filter (defines name)

def strongDefinition (symbol : Symbol) : Bool := providesDefinition symbol && isStrong symbol

variable {defined : List (Nat × Symbol)} {winner entry : Nat × Symbol}

/-- What the linker keeps of two definitions of a name, unless they collide. -/
def resolve (existing entry : Nat × Symbol) : Option (Nat × Symbol) :=
  if isReal existing.2 then
    if !isReal entry.2 then some existing
    else if isStrong existing.2 && isStrong entry.2 then none
    else if isStrong entry.2 then some entry
    else some existing
  else if isReal entry.2 then some entry
  else some (mergeTentative existing entry)

/-- The code's rule for a definition is the one above. -/
theorem addSymbol_eq {objIndex : Nat} {table : Name → Option (Nat × Symbol)} {symbol : Symbol}
    (provides : providesDefinition symbol = true) : Linker.addSymbol objIndex table symbol =
      match table symbol.name with
      | none => .ok fun name => if name = symbol.name then some (objIndex, symbol) else table name
      | some existing =>
        match resolve existing (objIndex, symbol) with
        | none => .error (.duplicateSymbol symbol.name)
        | some winner => .ok fun name => if name = symbol.name then some winner else table name := by
  simp only [Linker.addSymbol, provides, Bool.not_true, Bool.false_eq_true, if_false]
  have visible : symbol.binding ≠ .weakBinding ↔ symbol.binding = .globalBinding := by
    simp only [providesDefinition, Bool.and_eq_true, Bool.or_eq_true, decide_eq_true_eq] at provides
    rcases provides.1.2 with same | same <;> simp [same]
  cases known : table symbol.name with
  | none => rfl
  | some existing =>
    obtain ⟨owner, existing⟩ := existing
    have same : (fun name => if name = symbol.name then some (owner, existing) else table name) = table := by
      funext name
      split
      next equal => rw [equal, known]
      next => rfl
    cases old : existing.common with
    | some align =>
      cases new : symbol.common with
      | some other => simp [resolve, isReal, old, new, mergeTentative]
      | none =>
        simp [resolve, isReal, old, new]
        rfl
    | none =>
      cases new : symbol.common with
      | some other => simp [resolve, isReal, old, new, same]
      | none =>
        by_cases weak : existing.binding = .weakBinding
        · by_cases alsoWeak : symbol.binding = .weakBinding
          · simp [resolve, isReal, isStrong, old, new, weak, alsoWeak, same]
          · simp [resolve, isReal, isStrong, old, new, weak, visible.mp alsoWeak]
            rfl
        · by_cases alsoWeak : symbol.binding = .weakBinding
          · simp [resolve, isReal, isStrong, old, new, weak, alsoWeak, same]
          · simp [resolve, isReal, isStrong, old, new, weak, alsoWeak]

theorem resolve_eq_none {existing : Nat × Symbol} :
    resolve existing entry = none ↔ isStrong existing.2 = true ∧ isStrong entry.2 = true := by
  have real (symbol : Symbol) (strong : isStrong symbol = true) : isReal symbol = true := by
    simp only [isStrong, Bool.and_eq_true] at strong
    exact strong.1
  simp only [resolve]
  constructor
  · intro none
    split at none
    · split at none
      · cases none
      · split at none
        next both => simpa using both
        next => split at none <;> cases none
    · split at none <;> cases none
  · intro ⟨old, new⟩
    simp [real _ old, real _ new, old, new]

def Valid (obj : LinkObject) : Prop := ∀ symbol ∈ obj.symbols, validateDefinedSymbol obj symbol = .ok ()

/-- The symbols of the objects, each with its object's index. -/
def numbered : Nat → List LinkObject → List (Nat × Symbol)
  | _, [] => []
  | first, obj :: rest => obj.symbols.map (first, ·) ++ numbered (first + 1) rest

variable {objects : List LinkObject}

def declaring (symbols : List Symbol) : LinkObject := { sections := [], symbols }

end Rue.Proofs.Linking
