import Rue.Lib.Packing
import Rue.Proofs.LocalStorage.Sharing

/-! Execution with frame cells against execution with one private cell for each
slot. Instructions are arbitrary, except that they touch the slots they name. -/

namespace Rue.Proofs.LocalStorage
open Rue.Codegen

/-- What instructions and terminators do: the slots one reads, its effect on the
rest of the world and the slots it writes given what it read, and the way out of
a block. -/
structure Behaviour (World Content : Type) where
  reads : CfgValue → World → List Nat
  effect : CfgValue → World → List Content → World × List (Nat × Content)
  exit : BlockId → World → Option BlockId

/-- An execution with its cells, the slots written since their storage was last
ended, and what every instruction so far has read and written. -/
structure Execution (World Content : Type) where
  block : BlockId
  rest : List CfgValue
  world : World
  cells : Nat → Content
  initialized : Nat → Bool
  log : List (List Content × List (Nat × Content))

section Machine

variable {World Content : Type}

/-- Does the instruction end the storage a slot belongs to? -/
def endsStorage (cfg : Cfg) (pool : TypePool) (value : CfgValue) (slot : Nat) : Bool :=
  match (cfg.inst value).data with
  | .storageDead root _ => runOf cfg pool root slot
  | _ => false

/-- One instruction or one jump, every slot being kept in the cell it is placed in. -/
def step (cfg : Cfg) (pool : TypePool) (behaviour : Behaviour World Content) (place : Nat → Nat)
    (state : Execution World Content) : Execution World Content :=
  match state.rest with
  | value :: rest =>
    let contents := (behaviour.reads value state.world).map fun slot => state.cells (place slot)
    let (world, writes) := behaviour.effect value state.world contents
    { block := state.block
      rest
      world
      cells := Lib.writeAll place state.cells writes
      initialized := fun slot => !endsStorage cfg pool value slot &&
        (state.initialized slot || slot ∈ writes.map Prod.fst)
      log := state.log ++ [(contents, writes)] }
  | [] =>
    match behaviour.exit state.block state.world with
    | none => state
    | some next => { state with block := next, rest := (cfg.block next).insts }

def run (cfg : Cfg) (pool : TypePool) (behaviour : Behaviour World Content) (place : Nat → Nat) (world : World)
    (cells : Nat → Content) (steps : Nat) : Execution World Content :=
  (step cfg pool behaviour place)^[steps] {
    block := cfg.entry
    rest := (cfg.block cfg.entry).insts
    world
    cells
    initialized := fun _ => false
    log := [] }

end Machine

/-- The instructions whose places an instruction accesses: itself, or the
operands a call receives by reference. -/
def accessedPlaces (cfg : Cfg) (value : CfgValue) : List CfgValue :=
  match (cfg.inst value).data with
  | .alloc _ _ | .load _ | .store _ _ | .placeRead _ | .placeWrite _ _ => [value]
  | .call _ _ args | .accessorCall _ args | .callIndirect _ args =>
    (args.filter CfgCallArg.isByRef).map CfgCallArg.value
  | _ => []

/-- The slots an instruction may touch: those of the places it accesses, and
through pointers those whose address is taken. -/
def MayAccess (cfg : Cfg) (pool : TypePool) (value : CfgValue) (slot : Nat) : Prop :=
  (∃ place ∈ accessedPlaces cfg value, place ∈ cfg.attached ∧ ∃ reference,
    dataReference cfg pool place = some reference ∧ reference.base ≤ slot ∧
      slot < reference.base + reference.span) ∨
    ∃ root, AddressTaken cfg pool root ∧ runOf cfg pool root slot = true

structure Respects {World Content : Type} (cfg : Cfg) (pool : TypePool) (behaviour : Behaviour World Content) :
    Prop where
  reads : ∀ value ∈ cfg.attached, ∀ world, ∀ slot ∈ behaviour.reads value world, MayAccess cfg pool value slot
  writes : ∀ value ∈ cfg.attached, ∀ world contents, ∀ write ∈ (behaviour.effect value world contents).2,
    MayAccess cfg pool value write.1
  exits : ∀ block world next, behaviour.exit block world = some next → cfg.Edge block next

/-- Every path reaches an access of a marked local inside its window. -/
def AccessesInWindows (cfg : Cfg) (pool : TypePool) : Prop :=
  ∀ executed block value rest, cfg.Reaches executed block (value :: rest) → ∀ place ∈ accessedPlaces cfg value,
    ∀ reference, dataReference cfg pool place = some reference → Marked cfg reference.base →
      windowOpen cfg reference.base executed = true

/-- With private cells the run reads a slot only after writing it, since its
storage was last ended. -/
def ReadsInitialized {World Content : Type} (cfg : Cfg) (pool : TypePool) (behaviour : Behaviour World Content)
    (world : World) (own : Nat → Content) : Prop :=
  ∀ steps value rest, (run cfg pool behaviour id world own steps).rest = value :: rest →
    ∀ slot ∈ behaviour.reads value (run cfg pool behaviour id world own steps).world,
      (run cfg pool behaviour id world own steps).initialized slot = true

/-- Two executions at the same point that have seen the same. -/
def SameObservations {World Content : Type} (first second : Execution World Content) : Prop :=
  first.block = second.block ∧ first.rest = second.rest ∧ first.world = second.world ∧ first.log = second.log

section Simulation

variable {World Content : Type} {cfg : Cfg} {pool : TypePool} {behaviour : Behaviour World Content}

/-- Slots of shareable locals are initialized only inside their windows. -/
def HeldInWindows (cfg : Cfg) (pool : TypePool) (executed : List CfgValue) (initialized : Nat → Bool) : Prop :=
  ∀ slot root, initialized slot = true → runOf cfg pool root slot = true →
    (∀ other, runOf cfg pool other slot = true → other = root) → Marked cfg root →
      ¬ AddressTaken cfg pool root → windowOpen cfg root executed = true

/-- The private run and the frame run side by side. -/
structure Matches (cfg : Cfg) (pool : TypePool) (first second : Execution World Content) : Prop where
  same : SameObservations first second
  initialized : first.initialized = second.initialized
  agrees : Lib.Agrees (LocalSlotPlan.plan cfg pool).frameSlot (fun slot => first.initialized slot = true)
    first.cells second.cells
  reached : ∃ executed, cfg.Reaches executed first.block first.rest ∧
    HeldInWindows cfg pool executed first.initialized

/-- A slot an instruction may touch lies in an open window, unless its address
is taken. -/
theorem window_of_access (windows : AccessesInWindows cfg pool) {executed rest : List CfgValue} {block : BlockId}
    {value : CfgValue} (reached : cfg.Reaches executed block (value :: rest)) {slot root : Nat}
    (access : MayAccess cfg pool value slot) (only : ∀ other, runOf cfg pool other slot = true → other = root)
    (marked : Marked cfg root) (kept : ¬ AddressTaken cfg pool root) : windowOpen cfg root executed = true := by
  rcases access with ⟨place, accessed, attached, reference, named, above, below⟩ | ⟨other, taken, held⟩
  · have same := only reference.base (runOf_iff.mpr ⟨place, attached, reference, named, rfl, above, below⟩)
    rw [← same]
    exact windows executed block value rest reached place accessed reference named (same ▸ marked)
  · exact absurd (only other held ▸ taken) kept

/-- Two slots in one cell are not both initialized, nor is one when the other is touched. -/
theorem alone_of_access (bounds : cfg.InBounds) (windows : AccessesInWindows cfg pool)
    {executed rest : List CfgValue} {block : BlockId} {value : CfgValue}
    (reached : cfg.Reaches executed block (value :: rest)) {initialized : Nat → Bool}
    (held : HeldInWindows cfg pool executed initialized) {slot target : Nat}
    (access : MayAccess cfg pool value target)
    (counted : initialized slot = true ∨ MayAccess cfg pool value slot) (different : slot ≠ target) :
    (LocalSlotPlan.plan cfg pool).frameSlot slot ≠ (LocalSlotPlan.plan cfg pool).frameSlot target := by
  intro same
  obtain ⟨first, second, holds, holdsTarget, only, onlyTarget, share⟩ := plan_mayShare bounds different same
  apply share.apart executed block (value :: rest) reached
  refine ⟨?_, window_of_access windows reached access onlyTarget share.secondMarked share.secondKept⟩
  rcases counted with initialized | access
  · exact held slot first initialized holds only share.firstMarked share.firstKept
  · exact window_of_access windows reached access only share.firstMarked share.firstKept

theorem Matches.step (bounds : cfg.InBounds) (respects : Respects cfg pool behaviour)
    (windows : AccessesInWindows cfg pool) {first second : Execution World Content}
    (matched : Matches cfg pool first second)
    (defined : ∀ value rest, first.rest = value :: rest →
      ∀ slot ∈ behaviour.reads value first.world, first.initialized slot = true) :
    Matches cfg pool (step cfg pool behaviour id first)
      (step cfg pool behaviour (LocalSlotPlan.plan cfg pool).frameSlot second) := by
  obtain ⟨block, rest, world, own, initialized, log⟩ := first
  obtain ⟨_, _, _, shared, _, _⟩ := second
  obtain ⟨⟨rfl, rfl, rfl, rfl⟩, rfl, agrees, executed, reached, held⟩ := matched
  cases rest with
  | cons value rest =>
    have attached := reached.attached bounds
    have contents : (behaviour.reads value world).map (fun slot =>
        shared ((LocalSlotPlan.plan cfg pool).frameSlot slot)) = (behaviour.reads value world).map own :=
      List.map_congr_left fun slot member => agrees slot (defined value rest rfl slot member)
    have writes := respects.writes value attached world ((behaviour.reads value world).map own)
    simp only [LocalStorage.step, contents, id]
    refine ⟨⟨rfl, rfl, rfl, rfl⟩, rfl, ?_, executed ++ [value], reached.step, ?_⟩
    · refine (agrees.writeAll _ ?_).mono ?_
      · intro write member slot counted different
        refine alone_of_access bounds windows reached held (writes write member) (counted.imp id ?_) different
        intro written
        obtain ⟨other, inside, rfl⟩ := List.mem_map.mp written
        exact writes other inside
      · intro slot kept
        simp only [Bool.and_eq_true, Bool.or_eq_true, decide_eq_true_eq] at kept
        exact kept.2
    · intro slot root kept holds only marked untaken
      simp only [Bool.and_eq_true, Bool.or_eq_true, decide_eq_true_eq, Bool.not_eq_true'] at kept
      obtain ⟨open', counted⟩ := kept
      rw [windowOpen_append]
      cases marker : markerOf cfg root value with
      | some opens =>
        cases opens with
        | true => rfl
        | false =>
          simp only [markerOf] at marker
          split at marker
          · split at marker <;> cases marker
          next closed _ data =>
            split at marker
            next same =>
              subst same
              simp only [endsStorage, data] at open'
              rw [holds] at open'
              cases open'
            · cases marker
          · cases marker
      | none =>
        rcases counted with counted | written
        · exact held slot root counted holds only marked untaken
        · obtain ⟨other, inside, rfl⟩ := List.mem_map.mp written
          exact window_of_access windows reached (writes other inside) only marked untaken
  | nil =>
    simp only [LocalStorage.step]
    split
    · exact ⟨⟨rfl, rfl, rfl, rfl⟩, rfl, agrees, executed, reached, held⟩
    next next out =>
      exact ⟨⟨rfl, rfl, rfl, rfl⟩, rfl, agrees, executed, reached.jump (respects.exits block world next out), held⟩

/-- Execution with the cells of the plan sees what execution with private cells does. -/
theorem run_same (bounds : cfg.InBounds) (respects : Respects cfg pool behaviour)
    (windows : AccessesInWindows cfg pool) {world : World} {own : Nat → Content} (shared : Nat → Content)
    (defined : ReadsInitialized cfg pool behaviour world own) (steps : Nat) :
    Matches cfg pool (run cfg pool behaviour id world own steps)
      (run cfg pool behaviour (LocalSlotPlan.plan cfg pool).frameSlot world shared steps) := by
  induction steps with
  | zero =>
    refine ⟨⟨rfl, rfl, rfl, rfl⟩, rfl, ?_, [], .start, ?_⟩
    · intro slot counted
      cases counted
    · intro slot root counted
      cases counted
  | succ steps ih =>
    rw [run, run, Function.iterate_succ_apply', Function.iterate_succ_apply']
    exact ih.step bounds respects windows fun value rest here => defined steps value rest here

end Simulation

/-- The plan of a function keeps its cells in the frame and its runs in one
piece, shares cells only between locals whose windows are never open together,
and is not observed by executions that read what they have written. -/
theorem local_slot_plan_sound {cfg : Cfg} (pool : TypePool) (bounds : cfg.InBounds) :
    (∀ slot < cfg.numLocals,
      (LocalSlotPlan.plan cfg pool).frameSlot slot < (LocalSlotPlan.plan cfg pool).frameLocalSlots) ∧
    (∀ root slot, runOf cfg pool root slot = true → (LocalSlotPlan.plan cfg pool).frameSlot slot =
      (LocalSlotPlan.plan cfg pool).frameSlot root + (slot - root)) ∧
    (∀ slot other, slot ≠ other →
      (LocalSlotPlan.plan cfg pool).frameSlot slot = (LocalSlotPlan.plan cfg pool).frameSlot other →
      ∃ first second, runOf cfg pool first slot = true ∧ runOf cfg pool second other = true ∧
        (∀ root, runOf cfg pool root slot = true → root = first) ∧
        (∀ root, runOf cfg pool root other = true → root = second) ∧ MayShare cfg pool first second) ∧
    (∀ (World Content : Type) (behaviour : Behaviour World Content), Respects cfg pool behaviour →
      AccessesInWindows cfg pool → ∀ world own shared, ReadsInitialized cfg pool behaviour world own →
        ∀ steps, SameObservations (run cfg pool behaviour id world own steps)
          (run cfg pool behaviour (LocalSlotPlan.plan cfg pool).frameSlot world shared steps)) := by
  refine ⟨fun _ => plan_frameSlot_lt, fun _ _ => plan_contiguous, fun _ _ => plan_mayShare bounds, ?_⟩
  intro World Content behaviour respects windows world own shared defined steps
  exact (run_same bounds respects windows shared defined steps).same

/-! Two locals in disjoint windows, the second read before it is written. -/

def samplePool : TypePool := { slotSpan := fun _ => 1, needsDrop := fun _ => false }

def sampleInsts (second : CfgInst) : List CfgInst :=
  [{ data := .const 7, ty := .i32 }, { data := .storageLive 0 .i32, ty := .unit },
    { data := .alloc 0 0, ty := .unit }, { data := .storageDead 0 .i32, ty := .unit },
    { data := .storageLive 1 .i32, ty := .unit }, second, { data := .load 1, ty := .i32 },
    { data := .storageDead 1 .i32, ty := .unit }]

def sampleCfg (second : CfgInst) : Cfg where
  entry := 0
  blockCount := 1
  block _ := { id := 0, params := [], insts := List.range 8, terminator := .return' (some 6) }
  valueCount := 8
  inst value := (sampleInsts second).getD value { data := .const 0, ty := .unit }
  numLocals := 2
  numParams := 0
  isParamByRef _ := false
  isParamWritable _ := false
  isAddressTaken _ := false
  isParamAddressTaken _ := false
  isOwnershipBoundaryValue _ := false

/-- Keeps what was read; the first write stores 7, a second one stores 9. -/
def sampleBehaviour (second : Bool) : Behaviour (List Nat) Nat where
  reads value _ := if value = 6 then [1] else []
  effect value world contents :=
    (world ++ contents, if value = 2 then [(0, 7)] else if value = 5 ∧ second then [(1, 9)] else [])
  exit _ _ := none

/-- An instruction that does nothing, and one that writes the second local. -/
def idle : CfgInst := { data := .const 0, ty := .i32 }

def writesSecond : CfgInst := { data := .store 1 0, ty := .unit }

theorem sample_reaches {second : CfgInst} {executed rest : List CfgValue} {block : BlockId}
    (reached : (sampleCfg second).Reaches executed block rest) : executed ++ rest = List.range 8 := by
  induction reached with
  | start => rfl
  | step _ ih => simpa using ih
  | jump _ taken => cases taken

theorem sample_windows {second : CfgInst} (known : second = idle ∨ second = writesSecond) :
    AccessesInWindows (sampleCfg second) samplePool := by
  intro executed block value rest reached place accessed reference named marked
  have whole := sample_reaches reached
  have length : executed.length < 8 := by
    have total := congrArg List.length whole
    simp only [List.length_append, List.length_cons, List.length_range] at total
    omega
  have taken : executed = (List.range 8).take executed.length := by
    rw [← whole]
    simp
  have here : value = executed.length := by
    have at' := congrArg (fun insts : List CfgValue => insts[executed.length]?) whole
    simpa [List.getElem?_range length] using at'
  have checked : ∀ index < 8, ∀ place ∈ accessedPlaces (sampleCfg second) index,
      (dataReference (sampleCfg second) samplePool place).all (fun reference =>
        windowOpen (sampleCfg second) reference.base ((List.range 8).take index)) = true := by
    rcases known with rfl | rfl <;> decide
  have opened := checked executed.length length place (here ▸ accessed)
  rw [named, Option.all_some, ← taken] at opened
  exact opened

theorem sample_respects {second : CfgInst} {writes : Bool} (known : (second, writes) = (idle, false) ∨
    (second, writes) = (writesSecond, true)) :
    Respects (sampleCfg second) samplePool (sampleBehaviour writes) := by
  have own {value slot : Nat} (accessed : value ∈ accessedPlaces (sampleCfg second) value)
      (attached : value ∈ (sampleCfg second).attached) (named : dataReference (sampleCfg second) samplePool value =
        some { base := slot, span := 1, kind := .access }) : MayAccess (sampleCfg second) samplePool value slot :=
    Or.inl ⟨value, accessed, attached, _, named, Nat.le_refl _, Nat.lt_succ_self _⟩
  have access : MayAccess (sampleCfg second) samplePool 2 0 ∧ MayAccess (sampleCfg second) samplePool 6 1 ∧
      (writes = true → MayAccess (sampleCfg second) samplePool 5 1) := by
    rcases known with same | same <;> cases same
    · refine ⟨own (by decide) (by decide) (by decide), ?_, fun impossible => nomatch impossible⟩
      exact own (by decide) (by decide) (by decide)
    · refine ⟨own (by decide) (by decide) (by decide), ?_, fun _ => ?_⟩
      · exact own (by decide) (by decide) (by decide)
      · exact own (by decide) (by decide) (by decide)
  refine ⟨?_, ?_, ?_⟩
  · intro value _ world slot member
    simp only [sampleBehaviour] at member
    split at member
    next same =>
      cases List.mem_singleton.mp member
      subst same
      exact access.2.1
    · cases member
  · intro value _ world contents write member
    simp only [sampleBehaviour] at member
    split at member
    next same =>
      cases List.mem_singleton.mp member
      subst same
      exact access.1
    · split at member
      next same =>
        cases List.mem_singleton.mp member
        obtain ⟨rfl, wrote⟩ := same
        exact access.2.2 wrote
      · cases member
  · intro block world next out
    cases out

/-- Without initialization the frame run reads the other local's value. -/
theorem uninitialized_read_observes_shared_cell :
    ¬ ∀ (cfg : Cfg) (pool : TypePool), cfg.InBounds → ∀ (World Content : Type) (behaviour : Behaviour World Content),
      Respects cfg pool behaviour → AccessesInWindows cfg pool → ∀ world own shared steps,
        SameObservations (run cfg pool behaviour id world own steps)
          (run cfg pool behaviour (LocalSlotPlan.plan cfg pool).frameSlot world shared steps) := by
  intro all
  have same := all (sampleCfg idle) samplePool (by decide) _ _ (sampleBehaviour false)
    (sample_respects (Or.inl rfl)) (sample_windows (Or.inl rfl)) [] (fun _ => 0) (fun _ => 0) 8
  have differ : (run (sampleCfg idle) samplePool (sampleBehaviour false) id [] (fun _ => 0) 8).world ≠
      (run (sampleCfg idle) samplePool (sampleBehaviour false)
        (LocalSlotPlan.plan (sampleCfg idle) samplePool).frameSlot [] (fun _ => 0) 8).world := by
    decide
  exact differ same.2.2.1

theorem sample_initialized : ReadsInitialized (sampleCfg writesSecond) samplePool (sampleBehaviour true) [] (fun _ => 0) := by
  have early : ∀ steps < 9, ∀ slot ∈ ((run (sampleCfg writesSecond) samplePool (sampleBehaviour true) id []
      (fun _ => 0) steps).rest.head?.toList.flatMap fun value => (sampleBehaviour true).reads value []),
      (run (sampleCfg writesSecond) samplePool (sampleBehaviour true) id [] (fun _ => 0) steps).initialized slot = true := by
    decide
  have late : ∀ more, (run (sampleCfg writesSecond) samplePool (sampleBehaviour true) id [] (fun _ => 0)
      (8 + more)).rest = [] := by
    intro more
    induction more with
    | zero => decide
    | succ more ih =>
      rw [run] at ih
      rw [run, ← Nat.add_assoc, Function.iterate_succ_apply', step, ih]
      exact ih
  intro steps value rest here slot member
  by_cases soon : steps < 9
  · apply early steps soon slot
    rw [here]
    simp only [List.head?_cons, Option.toList_some, List.flatMap_cons, List.flatMap_nil, List.append_nil]
    exact member
  · have done := late (steps - 8)
    rw [Nat.add_sub_cancel' (by omega), here] at done
    cases done

/-- The two locals share their one cell, and writing the second first makes the
frame run read as the private run does. -/
theorem sample_plan_shares_soundly :
    (LocalSlotPlan.plan (sampleCfg writesSecond) samplePool).frameLocalSlots = 1 ∧
      ∀ steps, SameObservations
        (run (sampleCfg writesSecond) samplePool (sampleBehaviour true) id [] (fun _ => 0) steps)
        (run (sampleCfg writesSecond) samplePool (sampleBehaviour true)
          (LocalSlotPlan.plan (sampleCfg writesSecond) samplePool).frameSlot [] (fun _ => 3) steps) :=
  ⟨by decide, (local_slot_plan_sound samplePool (by decide)).2.2.2 _ _ (sampleBehaviour true)
    (sample_respects (Or.inr rfl)) (sample_windows (Or.inr rfl)) [] (fun _ => 0) (fun _ => 3) sample_initialized⟩

end Rue.Proofs.LocalStorage
