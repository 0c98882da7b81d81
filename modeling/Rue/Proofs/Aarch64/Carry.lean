import Mathlib
import Rue.Proofs.Aarch64.Machine

/-! A compare with zero and a test differ in the carry. The straight line behind
the compare does not read it, by the scan; a taken branch may lead to a reader. -/

namespace Rue.Proofs.Aarch64
open Rue.Codegen Rue.Codegen.Aarch64 Peephole Rue.Lib.Program

inductive Transform : List Aarch64Inst → List Aarch64Inst → List Aarch64Inst → Prop where
  | test (src) {rest} (safe : cmpZeroToTstSafe rest = true) : Transform [.cmpImm src 0] [.tstRR src src] rest
  | zero (dst rest) : Transform [.movImm dst 0] [.movRR dst zero] rest

theorem transformAll_rewrites (program : List Aarch64Inst) : Rewrites Transform program (transformAll program).1 := by
  induction program with
  | nil => exact .nil
  | cons inst rest ih =>
    unfold transformAll
    cases changed : transformSingle inst rest with
    | none => exact .keep inst ih
    | some replacement =>
      unfold transformSingle at changed
      split at changed
      next dst imm =>
        split at changed <;> cases changed
        next none' =>
          cases none'
          exact .replace (.zero dst rest) ih
      next src imm =>
        split at changed <;> cases changed
        next gate =>
          obtain ⟨rfl, safe⟩ := gate
          exact .replace (.test src safe) ih
      next => cases changed

section Watch
variable {World : Type} {processor : Processor Aarch64Inst Reg Flags World}

def withCarry (state : State World) (c : Bool) : State World := { state with flags := { state.flags with c } }

/-- The states differ at most in the carry: not at all where it is ordinary, and
in a window the scan accepts what is still to come. -/
structure Watches (rest : List Aarch64Inst) (watched : State World × Carry) (state : State World) : Prop where
  differ : ∃ c, state = withCarry watched.1 c
  ordinary : watched.2 = .ordinary → state = watched.1
  window : watched.2 = .window → cmpZeroToTstSafe rest = true

theorem Watches.same {rest : List Aarch64Inst} {state : State World} {carry : Carry}
    (window : carry = .window → cmpZeroToTstSafe rest = true) : Watches rest (state, carry) state :=
  ⟨⟨state.flags.c, rfl⟩, fun _ => rfl, window⟩

end Watch

end Rue.Proofs.Aarch64
