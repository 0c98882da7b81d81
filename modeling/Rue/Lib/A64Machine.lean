import Rue.Lib.A64

/-! The state of an A64 machine, its conditions, and where branches lead.
Program counters count words. -/

namespace Rue.Lib.A64

structure Flags where
  n : Bool
  z : Bool
  c : Bool
  v : Bool
  deriving DecidableEq, Repr

/-- Conditions come in pairs that the lowest bit inverts, but for `always`. -/
def Flags.holds (flags : Flags) (cond : BitVec 4) : Bool :=
  let base := match cond.extractLsb' 1 3 with
    | 0 => flags.z
    | 1 => flags.c
    | 2 => flags.n
    | 3 => flags.v
    | 4 => flags.c && !flags.z
    | 5 => flags.n == flags.v
    | 6 => flags.n == flags.v && !flags.z
    | _ => true
  if cond.getLsbD 0 && cond ≠ 15 then !base else base

structure State where
  held : Loc → BitVec 64
  flags : Flags
  memory : BitVec 64 → BitVec 8

def State.read (state : State) (loc : Option Loc) : BitVec 64 := loc.elim 0 state.held

namespace Insn

/-- The immediate of a branch to a label. -/
def displacement : Insn → Option Int
  | .b _ imm => some imm.toInt
  | .bCond _ imm | .cb _ imm _ => some imm.toInt
  | _ => none

/-- Whether a branch to a label is taken. -/
def taken (state : State) : Insn → Bool
  | .bCond cond _ => state.flags.holds cond
  | .cb nonzero _ rt => (state.read (orZero rt) ≠ 0) == nonzero
  | _ => true

end Insn

/-- The next program counter after a branch without a link. -/
def jump (code : List Word) (state : State) (pc : Nat) : Option Int := do
  let insn ← decode (← code[pc]?)
  let distance ← insn.displacement
  return if insn.taken state then pc + distance else pc + 1

/-- Branches alone lead from one program counter to another. -/
inductive Leads (code : List Word) (state : State) (last : Int) : Int → Prop
  | here : Leads code state last last
  | jump {pc : Nat} {next : Int} (jumps : jump code state pc = some next) (rest : Leads code state last next) :
    Leads code state last pc

theorem holds_inverted (flags : Flags) {cond : BitVec 4} (paired : cond < 14) :
    flags.holds (cond ^^^ 1) = !flags.holds cond := by
  obtain ⟨n, z, c, v⟩ := flags
  revert paired
  revert cond n z c v
  decide

section Paths
variable {code : List Word} {state : State} {pc target : Nat} {insn : Insn}

theorem jump_eq {distance : Int} {word : Word} (found : code[pc]? = some word) (decoded : decode word = some insn)
    (displaced : insn.displacement = some distance) :
    jump code state pc = some (if insn.taken state then pc + distance else pc + 1) := by
  simp only [jump, found, decoded, displaced, Option.bind_eq_bind, Option.bind_some]
  rfl

theorem leads_direct {word : Word} (found : code[pc]? = some word) (decoded : decode word = some insn)
    (displaced : insn.displacement = some ((target : Int) - pc)) :
    Leads code state (if insn.taken state then target else (pc + 1 : Nat)) pc := by
  have jumps := @jump_eq code state pc insn _ word found decoded displaced
  refine .jump jumps ?_
  split
  next taken =>
    have arrives : (pc : Int) + ((target : Int) - pc) = target := by omega
    rw [arrives]
    exact .here
  next => exact .here

theorem leads_relaxed {original : Bool} {word far : Word} (found : code[pc]? = some word) (decoded : decode word = some insn)
    (skips : insn.displacement = some 2) (opposite : insn.taken state = !original) (second : code[pc + 1]? = some far)
    {imm : BitVec 26} (unconditional : decode far = some (.b false imm)) (displaced : imm.toInt = (target : Int) - (pc + 1 : Nat)) :
    Leads code state (if original then target else (pc + 2 : Nat)) pc := by
  have jumps := @jump_eq code state pc insn _ word found decoded skips
  refine .jump jumps ?_
  rw [opposite]
  cases original with
  | false => exact .here
  | true =>
    have lands := @leads_direct code state (pc + 1) target _ far second unconditional (congrArg some displaced)
    simpa [Insn.taken] using lands

end Paths

end Rue.Lib.A64
