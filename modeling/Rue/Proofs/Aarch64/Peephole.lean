import Rue.Proofs.Aarch64.Carry

/-! Combining and removal do not touch NZCV, so they keep the whole state. With
the first pass, a run that never reads an escaped carry is kept. -/

namespace Rue.Proofs.Aarch64
open Rue.Codegen Rue.Codegen.Aarch64 Peephole Rue.Lib.Program

inductive Fold : List Aarch64Inst → List Aarch64Inst → List Aarch64Inst → Prop where
  | adds (dst) {imms : List Int} (rest) (several : 2 ≤ imms.length) :
      Fold (imms.map (.addImm dst dst)) [.addImm dst dst imms.sum] rest
  | subs (dst) {imms : List Int} (rest) (several : 2 ≤ imms.length) :
      Fold (imms.map (.subImm dst dst)) [.subImm dst dst imms.sum] rest
  | drop {inst} (rest) (redundant : isRedundant inst = true) : Fold [inst] [] rest

section Passes

/-- Folding extends a run of adds, or of subtracts, by one. -/
private theorem foldPair_cases {earlier later folded : Aarch64Inst} (found : foldPair earlier later = some folded) :
    ∃ op ∈ [Aarch64Inst.addImm, Aarch64Inst.subImm], ∃ dst imm1 imm2,
      earlier = op dst dst imm1 ∧ later = op dst dst imm2 ∧ folded = op dst dst (imm1 + imm2) := by
  unfold foldPair at found
  split at found
  rotate_right
  · cases found
  all_goals
    split at found
    · cases found
    next gate =>
      simp only [Bool.not_eq_true', Bool.not_eq_false, Bool.and_eq_true] at gate
      obtain ⟨sum, fits, rfl⟩ := Option.map_eq_some_iff.mp found
      have fits := (Option.filter_eq_some_iff.mp fits).1
      unfold checkedAdd32 at fits
      split at fits
      · cases fits
        cases eq_of_operandsEqual gate.1.1
        cases eq_of_operandsEqual gate.1.2
        cases eq_of_operandsEqual gate.2
        exact ⟨_, by simp, _, _, _, rfl, rfl, rfl⟩
      · cases fits

private theorem combineFrom_rewrites (rest : List Aarch64Inst) :
    (∀ inst, Rewrites Fold (inst :: rest) (combineFrom inst rest).1) ∧
      ∀ op ∈ [Aarch64Inst.addImm, Aarch64Inst.subImm], ∀ dst (imms : List Int), 2 ≤ imms.length →
        Rewrites Fold (imms.map (op dst dst) ++ rest) (combineFrom (op dst dst imms.sum) rest).1 := by
  have chain : ∀ op ∈ [Aarch64Inst.addImm, Aarch64Inst.subImm], ∀ dst (imms : List Int) rest, 2 ≤ imms.length →
      Fold (imms.map (op dst dst)) [op dst dst imms.sum] rest := by
    intro op member dst imms rest several
    simp only [List.mem_cons, List.not_mem_nil, or_false] at member
    rcases member with rfl | rfl
    · exact .adds dst rest several
    · exact .subs dst rest several
  induction rest with
  | nil => exact ⟨fun inst => .keep inst .nil, fun op member dst imms several => Rewrites.replace (chain op member dst imms [] several) .nil⟩
  | cons second rest ih =>
    obtain ⟨single, several⟩ := ih
    constructor
    · intro inst
      unfold combineFrom
      cases found : foldPair inst second with
      | none => exact .keep inst (single second)
      | some folded =>
        obtain ⟨op, member, dst, imm1, imm2, rfl, rfl, rfl⟩ := foldPair_cases found
        have pair := several op member dst [imm1, imm2] (Nat.le_refl 2)
        rwa [List.sum_cons, List.sum_singleton] at pair
    · intro op member dst imms enough
      unfold combineFrom
      cases found : foldPair (op dst dst imms.sum) second with
      | none => exact .replace (chain op member dst imms _ enough) (single second)
      | some folded =>
        obtain ⟨op', member', dst', imm1, imm2, same, rfl, rfl⟩ := foldPair_cases found
        simp only [List.mem_cons, List.not_mem_nil, or_false] at member member'
        rcases member with rfl | rfl <;> rcases member' with rfl | rfl <;> cases same
        · have longer := several .addImm (by simp) dst (imms ++ [imm2]) (by rw [List.length_append]; omega)
          rwa [List.map_append, List.append_assoc, List.sum_append, List.sum_singleton] at longer
        · have longer := several .subImm (by simp) dst (imms ++ [imm2]) (by rw [List.length_append]; omega)
          rwa [List.map_append, List.append_assoc, List.sum_append, List.sum_singleton] at longer

theorem combineAdjacent_rewrites (program : List Aarch64Inst) : Rewrites Fold program (combineAdjacent program).1 := by
  cases program with
  | nil => exact .nil
  | cons inst rest => exact (combineFrom_rewrites rest).1 inst

end Passes

section Registers
variable (regs : Operand Reg → BitVec 64) (dst : Operand Reg)

@[simp] theorem write_read : write regs dst (read regs dst) = regs := by
  unfold write read
  split
  · rfl
  · exact Function.update_eq_self dst regs

end Registers

section Simulation
variable {World : Type} {processor : Processor Aarch64Inst Reg Flags World} {program : List Aarch64Inst}

private theorem through_alu {inst : Aarch64Inst}
    {operation : (Operand Reg → BitVec 64) → Flags → (Operand Reg → BitVec 64) × Flags} (found : alu inst = some operation)
    {state : State World} (regular : Regular inst state.regs) (rest : List Aarch64Inst) :
    Through (regularExec processor) [inst] rest state
      { state with regs := (operation state.regs state.flags).1, flags := (operation state.regs state.flags).2 } := by
  intro jump
  simp only [List.singleton_append, runFrom, regularExec, if_pos regular, exec, found]

/-- A redundant instruction leaves registers and flags as they are. -/
private theorem redundant_alu {inst : Aarch64Inst} (redundant : isRedundant inst = true) :
    ∃ operation, alu inst = some operation ∧ ∀ regs flags, Regular inst regs → operation regs flags = (regs, flags) := by
  unfold isRedundant at redundant
  split at redundant
  rotate_right
  · cases redundant
  all_goals simp only [Bool.and_eq_true, decide_eq_true_eq] at redundant
  next dst src =>
    cases eq_of_operandsEqual redundant.1
    exact ⟨_, rfl, fun regs _ _ => by rw [write_read]⟩
  all_goals
    obtain ⟨rfl, same⟩ := redundant
    cases eq_of_operandsEqual same
  all_goals first
    | exact ⟨_, rfl, fun regs _ _ => by rw [write_read]⟩
    | exact ⟨_, rfl, fun regs _ _ => by simp only [ofInt_zero, BitVec.add_zero, BitVec.sub_zero, write_read]⟩
    | exact ⟨_, rfl, fun regs _ regular => by rw [← regular _ (by simp [identity32]), write_read]⟩

/-- Where every step is regular, the machine does not tell. -/
theorem regular_refines (program : List Aarch64Inst) (fuel : Nat) (rest : List Aarch64Inst) (state : State World) :
    Refines Eq (run (regularExec processor) defines program fuel rest state)
      (run (exec processor) defines program fuel rest state) := by
  refine refines_of_matches (fun inst rest rest' state state' same => ?_) fuel rest rfl
  cases same
  unfold regularExec
  split
  · exact Matches.refl (exec processor inst rest state)
  · exact .stuck _

end Simulation

section Example

def clearing : Processor Aarch64Inst Reg Flags Unit where
  data inst regs flags world := some (regs, if writesFlags inst then .logic 1 else flags, world)
  call _ regs world := some (regs, .logic 1, world)

theorem clearing_truthful : Truthful clearing := by
  refine ⟨fun inst regs flags flags' world silent => ?_, fun inst regs flags flags' world writer => ?_⟩
  · simp [clearing, silent]
  · simp [clearing, writer]

def start (value : BitVec 64) : State Unit := ⟨fun _ => value, .logic 0, (), []⟩

abbrev reg (register : Reg) : Operand Reg := .physical register

/-- A branch on a comparison with zero over folded adds. -/
def branching : List Aarch64Inst :=
  [.movImm (reg .x1) 0, .addImm (reg .x0) (reg .x0) 5, .addImm (reg .x0) (reg .x0) (-5), .cmpImm (reg .x0) 0,
    .bCond .eq 1, .movRR (reg .x1) (reg .x0), .ret, .label 1, .lsl32Imm (reg .x1) (reg .x1) 0, .ret]

end Example

end Rue.Proofs.Aarch64
