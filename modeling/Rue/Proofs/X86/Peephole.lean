import Rue.Proofs.X86.Machine
import Mathlib.Algebra.BigOperators.Group.List.Basic

/-! The optimizer replaces windows. Each does to registers what it replaces, and
to FLAGS too unless no path reads them. -/

namespace Rue.Proofs.X86
open Rue.Codegen Rue.Codegen.X86 Peephole Rue.Lib.Program

/-- What is replaced by what, in front of what. -/
inductive Window (program : List X86Inst) : List X86Inst → List X86Inst → List X86Inst → Prop where
  | test (src rest) : Window program [.cmpRI src 0] [.testRR src src] rest
  | test64 (src rest) : Window program [.cmp64RI src 0] [.test64RR src src] rest
  | zero (dst) {rest} (unread : ¬ FlagsLive program rest) : Window program [.movRI32 dst 0] [.xorRR dst dst] rest
  | chain (dst) {imms : List Int} {rest} (several : 2 ≤ imms.length) (unread : ¬ FlagsLive program rest) :
      Window program (imms.map (.addRI dst)) [.addRI dst imms.sum] rest
  | drop {inst rest} (redundant : isRedundant inst = true) (unread : passesFlags inst = true ∨ ¬ FlagsLive program rest) :
      Window program [inst] [] rest

section Passes

/-- Every pass replaces windows of the list it is given. -/
theorem transformAll_rewrites (program rest : List X86Inst) :
    Rewrites (Window program) rest (transformAll rest).1 := by
  induction rest with
  | nil => exact .nil
  | cons inst rest ih =>
    simp only [transformAll, computeFlagsDead_cons, List.zipWith_cons_cons] at ih ⊢
    cases changed : transformSingle inst (flagsDead rest) with
    | none => exact .keep inst ih
    | some replacement =>
      unfold transformSingle at changed
      split at changed
      all_goals first | (split at changed <;> cases changed) | cases changed
      next dst imm zero =>
        obtain ⟨rfl, dead⟩ := zero
        exact .replace (.zero dst (not_live_of_dead dead)) ih
      next src imm zero =>
        cases zero
        exact .replace (.test src _) ih
      next src imm zero =>
        cases zero
        exact .replace (.test64 src _) ih

/-- An accumulator stands for the adds folded into it. -/
private theorem combineFrom_rewrites (program rest : List X86Inst) :
    (∀ inst, Rewrites (Window program) (inst :: rest) (combineFrom inst rest).1) ∧
      ∀ dst (imms : List Int), 2 ≤ imms.length → ¬ FlagsLive program rest →
        Rewrites (Window program) (imms.map (.addRI dst) ++ rest) (combineFrom (.addRI dst imms.sum) rest).1 := by
  induction rest with
  | nil => exact ⟨fun inst => .keep inst .nil, fun dst imms several unread => Rewrites.replace (Window.chain dst several unread) .nil⟩
  | cons second rest ih =>
    obtain ⟨single, several⟩ := ih
    -- Folding extends the adds that the accumulator stands for by one.
    have folds : ∀ accumulator combined, foldAdd accumulator second rest = some combined →
        ∃ dst imm1 imm2, accumulator = .addRI dst imm1 ∧ second = .addRI dst imm2 ∧ combined = .addRI dst (imm1 + imm2) ∧
          ¬ FlagsLive program rest := by
      intro accumulator combined folded
      unfold foldAdd at folded
      split at folded
      next dst1 imm1 dst2 imm2 =>
        split at folded
        · cases folded
        next gate =>
          simp only [Bool.or_eq_true, Bool.not_eq_true', not_or, Bool.not_eq_false] at gate
          obtain ⟨sum, fits, rfl⟩ := Option.map_eq_some_iff.mp folded
          unfold checkedAdd32 at fits
          split at fits
          · cases fits
            cases eq_of_operandsEqual gate.1
            exact ⟨_, _, _, rfl, rfl, rfl, not_live_of_dead gate.2⟩
          · cases fits
      · cases folded
    constructor
    · intro inst
      unfold combineFrom
      cases folded : foldAdd inst second rest with
      | none => exact .keep inst (single second)
      | some combined =>
        obtain ⟨dst, imm1, imm2, rfl, rfl, rfl, unread⟩ := folds inst combined folded
        have pair := several dst [imm1, imm2] (Nat.le_refl 2) unread
        rwa [List.sum_cons, List.sum_singleton] at pair
    · intro dst imms enough unread
      unfold combineFrom
      cases folded : foldAdd (.addRI dst imms.sum) second rest with
      | none => exact .replace (.chain dst enough unread) (single second)
      | some combined =>
        obtain ⟨dst, imm1, imm2, same, rfl, rfl, dead⟩ := folds _ combined folded
        cases same
        have longer := several dst (imms ++ [imm2]) (by rw [List.length_append]; omega) dead
        rwa [List.map_append, List.append_assoc, List.sum_append, List.sum_singleton] at longer

theorem combineAdjacent_rewrites (program : List X86Inst) : Rewrites (Window program) program (combineAdjacent program).1 := by
  cases program with
  | nil => exact .nil
  | cons inst rest => exact (combineFrom_rewrites _ rest).1 inst

private theorem passes_of_redundant {inst : X86Inst} (redundant : isRedundant inst = true)
    (kept : (!writesFlags inst || isShiftByZero inst) = true) : passesFlags inst = true := by
  cases inst <;> first | exact kept | cases redundant

theorem removeRedundant_rewrites (program rest : List X86Inst) :
    Rewrites (Window program) rest (removeRedundant rest).1 := by
  induction rest with
  | nil => exact .nil
  | cons inst rest ih =>
    simp only [removeRedundant, computeFlagsDead_cons, List.zip_cons_cons, List.filter_cons] at ih ⊢
    split
    · exact .keep inst ih
    next doomed =>
      simp only [Bool.not_eq_true', Bool.not_eq_false, Bool.and_eq_true] at doomed
      refine .replace (.drop doomed.1 ?_) ih
      have preserved := doomed.2
      unfold removalPreservesFlags at preserved
      split at preserved
      next neutral => exact Or.inl (passes_of_redundant doomed.1 neutral)
      next => exact Or.inr (not_live_of_dead preserved)

end Passes

section Simulation
variable {World : Type} {processor : Processor X86Inst Reg Flags World} {program : List X86Inst}

/-- FLAGS differ only where no path reads them. -/
def Agree (program rest : List X86Inst) (state state' : State World) : Prop :=
  ∃ flags, state' = { state with flags } ∧ (flags = state.flags ∨ ¬ FlagsLive program rest)

theorem Agree.refl (program rest : List X86Inst) (state : State World) : Agree program rest state state :=
  ⟨state.flags, rfl, Or.inl rfl⟩

private theorem matches_refl {lookup : LabelId → Option (List X86Inst)} {rest : List X86Inst}
    (effect : Effect (State World) LabelId Stop) : Matches lookup (Agree program) SameButFlags rest effect effect := by
  cases effect with
  | next state => exact .next (.refl _ _ state)
  | jump label state => exact .jump label (.refl state) fun there _ => .refl _ there state
  | stop reason state => exact .stop reason (.refl state)
  | stuck => exact .stuck _

variable {inst : X86Inst}

/-- An instruction of the unit passes FLAGS on or computes them from registers. -/
private theorem alu_flags {operation : Registers → Flags → Registers × Flags}
    (found : alu inst = some operation) (regs : Registers) :
    (passesFlags inst = true ∧ ∀ flags flags', (operation regs flags).2 = flags ∧
      (operation regs flags').1 = (operation regs flags).1) ∨
    (passesFlags inst = false ∧ ∀ flags flags', operation regs flags' = operation regs flags) := by
  unfold alu at found
  split at found <;> cases found
  all_goals first
    | exact Or.inl ⟨rfl, fun _ _ => ⟨rfl, rfl⟩⟩
    | exact Or.inr ⟨rfl, fun _ _ => rfl⟩

private theorem branch_reads {target : (Flags → Bool) × LabelId} (found : branch inst = some target) :
    readsFlags inst = true := by
  unfold branch at found
  split at found <;> first | rfl | cases found

variable {state state' : State World}

private theorem finish_agree {rest : List X86Inst} {fault : Stop}
    {lookup : LabelId → Option (List X86Inst)} (same : SameButFlags state state')
    (result : Option (Registers × Flags × World)) :
    Matches lookup (Agree program) SameButFlags rest (finish state fault result) (finish state' fault result) := by
  obtain ⟨flags, rfl⟩ := same
  cases result with
  | none => exact .stop fault ⟨flags, rfl⟩
  | some result => exact .next (.refl _ _ _)

theorem exec_agree (truthful : Truthful processor) {rest rest' : List X86Inst}
    (regular : Regular inst state.regs) (agree : Agree program (inst :: rest) state state') :
    Matches (fun label => after defines label program) (Agree program) SameButFlags rest
      (exec processor inst rest state) (exec processor inst rest' state') := by
  obtain ⟨flags, rfl, rfl | dead⟩ := agree
  · exact matches_refl _
  have unread : readsFlags inst = false := by
    by_contra reader
    exact dead (.reads (by simpa using reader))
  have later : passesFlags inst = true → ¬ FlagsLive program rest := fun passing live => dead (.passes passing live)
  unfold exec
  cases operating : alu inst with
  | some operation =>
    dsimp only
    rcases alu_flags operating state.regs with ⟨passing, keeps⟩ | ⟨_, overwrites⟩
    · refine .next ⟨flags, ?_, Or.inr (later passing)⟩
      rw [(keeps state.flags flags).2, (keeps flags flags).1]
    · rw [overwrites state.flags flags]
      exact .next (.refl _ _ _)
  | none =>
    cases branching : branch inst with
    | some target =>
      rw [branch_reads branching] at unread
      cases unread
    | none =>
      dsimp only
      split
      next label => exact .jump label ⟨flags, rfl⟩ fun there found => ⟨flags, rfl, Or.inr fun live => dead (.jumps found live)⟩
      next => exact .next ⟨flags, rfl, Or.inr (later rfl)⟩
      next => exact .stop _ ⟨flags, rfl⟩
      next => exact .stop _ ⟨flags, rfl⟩
      next => exact finish_agree ⟨flags, rfl⟩ _
      next => exact finish_agree ⟨flags, rfl⟩ _
      next => exact finish_agree ⟨flags, rfl⟩ _
      next =>
        cases writer : writesFlags inst with
        | true =>
          rw [truthful.written inst state.regs state.flags flags state.world unread writer regular.2]
          exact finish_agree ⟨flags, rfl⟩ _
        | false =>
          have passing : passesFlags inst = true := by
            unfold passesFlags
            split <;> simp_all
          have neutral := truthful.unread inst state.regs state.flags state.flags state.world unread writer
          rw [truthful.unread inst state.regs state.flags flags state.world unread writer]
          cases result : processor.data inst state.regs state.flags state.world with
          | none => exact .stop _ ⟨flags, rfl⟩
          | some triple =>
            rw [result, Option.map_some, Option.some.injEq] at neutral
            refine .next ⟨flags, ?_, Or.inr (later passing)⟩
            rw [neutral]

theorem through_alu {operation : Registers → Flags → Registers × Flags} (found : alu inst = some operation)
    (regular : Regular inst state.regs) (rest : List X86Inst) :
    Through (regularExec processor) [inst] rest state
      { state with regs := (operation state.regs state.flags).1, flags := (operation state.regs state.flags).2 } := by
  intro jump
  simp only [List.singleton_append, runFrom, regularExec, if_pos regular, exec, found]

private theorem regular_of_none (wide : identity32 inst = none) (inRange : countInRange inst = true)
    (regs : Registers) : Regular inst regs := by
  refine ⟨fun dst member => ?_, inRange⟩
  rw [wide] at member
  cases member

/-- Comparing with zero and testing against itself give the same flags. -/
theorem sub_zero_eq_logic {w : Nat} (a : BitVec w) : Flags.sub a (.ofInt w 0) = .logic (a &&& a) := by
  simp [Flags.sub, Flags.logic]

theorem through_chain (dst : Operand Reg) (imms : List Int) (rest : List X86Inst) (state : State World) :
    ∃ flags, Through (regularExec processor) (imms.map (.addRI dst)) rest state
      { state with regs := Function.update state.regs dst (state.regs dst + .ofInt 64 imms.sum), flags } := by
  induction imms generalizing state with
  | nil =>
    refine ⟨state.flags, ?_⟩
    rw [List.sum_nil, ofInt_zero, BitVec.add_zero, Function.update_eq_self]
    exact .refl _ rest state
  | cons imm imms ih =>
    let next : State World := { state with
      regs := Function.update state.regs dst (state.regs dst + .ofInt 64 imm)
      flags := .add (state.regs dst) (.ofInt 64 imm) }
    have regular : Regular (.addRI dst imm) state.regs := regular_of_none rfl rfl _
    have first : Through (regularExec processor) [.addRI dst imm] (imms.map (.addRI dst) ++ rest) state next :=
      through_alu rfl regular _
    obtain ⟨flags, others⟩ := ih next
    refine ⟨flags, ?_⟩
    have whole := first.append others
    simp only [next, Function.update_self, Function.update_idem, BitVec.add_assoc, ← BitVec.ofInt_add] at whole
    rwa [← List.sum_cons] at whole

/-- A redundant instruction leaves the registers as they are. -/
private theorem redundant_alu (redundant : isRedundant inst = true) :
    ∃ operation, alu inst = some operation ∧ ∀ regs flags, Regular inst regs → (operation regs flags).1 = regs := by
  unfold isRedundant at redundant
  split at redundant
  next dst src =>
    cases eq_of_operandsEqual redundant
    exact ⟨_, rfl, fun regs _ _ => Function.update_eq_self _ _⟩
  next dst imm =>
    cases of_decide_eq_true redundant
    refine ⟨_, rfl, fun regs _ _ => ?_⟩
    simp only [ofInt_zero, BitVec.add_zero, Function.update_eq_self]
  next dst imm =>
    cases of_decide_eq_true redundant
    refine ⟨_, rfl, fun regs _ regular => ?_⟩
    have clear := regular.1 dst rfl
    simp only [ofInt_zero, BitVec.xor_zero, ← clear, Function.update_eq_self]
  all_goals first
    | (next dst imm =>
        cases of_decide_eq_true redundant
        exact ⟨_, rfl, fun _ _ _ => rfl⟩)
    | (next dst imm =>
        cases of_decide_eq_true redundant
        refine ⟨_, rfl, fun regs _ regular => ?_⟩
        have clear := regular.1 dst rfl
        simp only [← clear, Function.update_eq_self])
    | cases redundant

theorem window_agree {old new rest rest' : List X86Inst} (window : Window program old new rest)
    (agree : Agree program (old ++ rest) state state') :
    Blocked (regularExec processor) old rest state ∨
      ∃ final final', Through (regularExec processor) old rest state final ∧
        Through (regularExec processor) new rest' state' final' ∧ Agree program rest final final' := by
  obtain ⟨flags, rfl, settled⟩ := agree
  cases window with
  | test src =>
    refine Or.inr ⟨_, _, through_alu rfl (regular_of_none rfl rfl _) rest, through_alu rfl (regular_of_none rfl rfl _) rest', ?_⟩
    simp only [sub_zero_eq_logic]
    exact .refl _ _ _
  | test64 src =>
    refine Or.inr ⟨_, _, through_alu rfl (regular_of_none rfl rfl _) rest, through_alu rfl (regular_of_none rfl rfl _) rest', ?_⟩
    simp only [sub_zero_eq_logic]
    exact .refl _ _ _
  | zero dst unread =>
    refine Or.inr ⟨_, _, through_alu rfl (regular_of_none rfl rfl _) rest, through_alu rfl (regular_of_none rfl rfl _) rest', ?_⟩
    refine ⟨.logic 0#32, ?_, Or.inr unread⟩
    simp only [BitVec.xor_self, ofInt_zero]
  | chain dst several unread =>
    obtain ⟨flags', through⟩ := through_chain dst _ rest state
    refine Or.inr ⟨_, _, through, through_alu rfl (regular_of_none rfl rfl _) rest', ?_⟩
    exact ⟨_, rfl, Or.inr unread⟩
  | @drop inst _ redundant unread =>
    obtain ⟨operation, found, identity⟩ := redundant_alu redundant
    by_cases regular : Regular inst state.regs
    · refine Or.inr ⟨_, _, through_alu found regular rest, .refl _ rest' _, flags, ?_, ?_⟩
      · rw [identity state.regs state.flags regular]
      · rcases unread with passing | dead
        · rcases alu_flags found state.regs with ⟨_, keeps⟩ | ⟨writes, _⟩
          · rw [(keeps state.flags flags).1]
            exact settled.imp id fun dead live => dead (.passes passing live)
          · rw [passing] at writes
            cases writes
        · exact Or.inr dead
    · refine Or.inl fun jump => ?_
      simp only [List.singleton_append, runFrom, regularExec, if_neg regular]

private theorem window_unlabelled {old new rest : List X86Inst} (window : Window program old new rest) :
    ∀ inst ∈ old ++ new, ∀ label, defines inst label = false := by
  cases window with
  | chain dst several unread =>
    intro inst member label
    rcases List.mem_append.mp member with added | single
    · obtain ⟨imm, _, rfl⟩ := List.mem_map.mp added
      rfl
    · obtain rfl := List.mem_singleton.mp single
      rfl
  | @drop inst _ redundant _ =>
    intro other member label
    obtain rfl := List.mem_singleton.mp member
    cases other <;> first | rfl | cases redundant
  | _ =>
    intro inst member label
    simp only [List.singleton_append, List.mem_cons, List.not_mem_nil, or_false] at member
    rcases member with rfl | rfl <;> rfl

theorem window_simulation (truthful : Truthful processor) (program : List X86Inst) :
    Simulation (regularExec processor) (regularExec processor) defines program (Window program) (Agree program) SameButFlags where
  unlabelled _ _ _ window := window_unlabelled window
  observes _ _ _ agree := ⟨agree.choose, agree.choose_spec.1⟩
  keep inst rest rest' state state' _ agree := by
    have sameRegs : state'.regs = state.regs := by
      obtain ⟨flags, rfl, _⟩ := agree
      rfl
    unfold regularExec
    rw [sameRegs]
    split
    next regular => exact exec_agree truthful regular agree
    next => exact .stuck _
  replace _ _ _ _ _ _ window _ agree := window_agree window agree

/-- Where every step is regular, the machine does not tell. -/
theorem regular_refines (program : List X86Inst) (fuel : Nat) (rest : List X86Inst) (state : State World) :
    Refines Eq (run (regularExec processor) defines program fuel rest state)
      (run (exec processor) defines program fuel rest state) := by
  refine refines_of_matches (fun inst rest rest' state state' same => ?_) fuel rest rfl
  cases same
  unfold regularExec
  split
  · exact Matches.refl (exec processor inst rest state)
  · exact .stuck _

private theorem pass_refines (truthful : Truthful processor) {program' : List X86Inst}
    (rewrites : Rewrites (Window program) program program') (fuel : Nat) (state : State World) :
    Refines SameButFlags (run (regularExec processor) defines program fuel program state)
      (run (regularExec processor) defines program' fuel program' state) :=
  (window_simulation truthful program).run rewrites fuel rewrites (.refl _ _ state)

private theorem refines_trans {first second third : Ending (State World) LabelId Stop} (front : Refines SameButFlags first second)
    (back : Refines SameButFlags second third) : Refines SameButFlags first third :=
  front.trans (fun states states' => states.trans states') back

/-- Every run whose steps are regular ends as before on the optimized list, up
to FLAGS; FLAGS change only where no path reads them; and the backward pass is
the forward scan. -/
theorem optimize_preserves (truthful : Truthful processor) (program : List X86Inst) :
    (∀ fuel state, (run (regularExec processor) defines program fuel program state).isStuck = false →
      Alike SameButFlags (run (exec processor) defines program fuel program state)
        (run (exec processor) defines (optimize program).1 fuel (optimize program).1 state)) ∧
    (∃ transformed combined, Rewrites (Window program) program transformed ∧
      Rewrites (Window transformed) transformed combined ∧ Rewrites (Window combined) combined (optimize program).1) ∧
    computeFlagsDead program = (List.range program.length).map (flagsDeadAfter program) := by
  have first := transformAll_rewrites program program
  have second := combineAdjacent_rewrites (transformAll program).1
  have third := removeRedundant_rewrites (combineAdjacent (transformAll program).1).1 (combineAdjacent (transformAll program).1).1
  refine ⟨fun fuel state defined => ?_, ⟨_, _, first, second, third⟩, computeFlagsDead_eq program⟩
  have plain := (regular_refines program fuel program state).eq defined
  rw [← plain]
  refine ⟨defined, ?_⟩
  have whole := refines_trans (refines_trans (pass_refines truthful first fuel state)
    (pass_refines truthful second fuel state)) (pass_refines truthful third fuel state)
  exact whole.trans (fun {_ _ _} front back => back ▸ front) (regular_refines _ fuel _ state)

end Simulation

section Example

def clearing : Processor X86Inst Reg Flags Unit where
  data inst regs flags world :=
    some (regs, if writesFlags inst && countInRange inst then .logic 1#32 else flags, world)
  call _ regs world := some (regs, .logic 1#32, world)

theorem clearing_truthful : Truthful clearing := by
  refine ⟨fun inst regs flags flags' world _ silent => ?_, fun inst regs flags flags' world _ writer inRange => ?_⟩
  · simp [clearing, silent]
  · simp [clearing, writer, inRange]

def start (value : BitVec 64) : State Unit := ⟨fun _ => value, .logic 0#32, (), []⟩

abbrev reg (register : Reg) : Operand Reg := .physical register

/-- A branch on a comparison with zero over folded adds. -/
def branching : List X86Inst :=
  [.movRI32 (reg .rbx) 0, .addRI (reg .rax) 5, .addRI (reg .rax) (-5), .cmpRI (reg .rax) 0, .jz 1, .movRR (reg .rbx) (reg .rax),
    .label 1, .xorRI (reg .rbx) 0, .ret]

theorem branching_preserved :
    (optimize branching).2 = 5 ∧
      Alike SameButFlags (run (exec clearing) defines branching 2 branching (start 3))
        (run (exec clearing) defines (optimize branching).1 2 (optimize branching).1 (start 3)) :=
  ⟨by decide, (optimize_preserves clearing_truthful branching).1 2 (start 3) (by decide)⟩

/-- Removing a 32-bit identity keeps the sign extension of -1, and a count that
the processor reduces to zero does not overwrite FLAGS. -/
theorem image_and_count_differ :
    ¬ Refines SameButFlags (run (exec clearing) defines [.xorRI (reg .rax) 0, .ret] 0 [.xorRI (reg .rax) 0, .ret] (start (-1)))
        (run (exec clearing) defines (optimize [.xorRI (reg .rax) 0, .ret]).1 0 (optimize [.xorRI (reg .rax) 0, .ret]).1 (start (-1))) ∧
      let counted : List X86Inst := [.cmpRI (reg .rax) 0, .movRI32 (reg .rbx) 0, .shl32RI (reg .rcx) 32, .jz 1, .ud2, .label 1, .ret]
      ¬ Refines SameButFlags (run (exec clearing) defines counted 1 counted (start 3))
        (run (exec clearing) defines (optimize counted).1 1 (optimize counted).1 (start 3)) := by
  constructor
  · intro refines
    change Refines SameButFlags (.stopped Stop.returned _) (.stopped Stop.returned _) at refines
    cases refines with
    | stopped _ states =>
      obtain ⟨flags, equal⟩ := states
      have upper : (-1 : BitVec 64) = zeroExtend (low32 (-1) ^^^ .ofInt 32 0) :=
        congrArg (fun state => state.regs (reg .rax)) equal
      exact absurd upper (by decide)
  · intro counted refines
    change Refines SameButFlags (.stopped Stop.trapped _) (.stopped Stop.returned _) at refines
    cases refines

end Example

end Rue.Proofs.X86
