import Rue.Codegen.X86.Mir
import Rue.Lib.Simulation
import Rue.Proofs.Allocation

/-! A class is rematerialized only when every surviving definition of it writes
the recipe's value. Dropping the definitions and recomputing the uses then does
what keeping the class in a register does. -/

namespace Rue.Proofs.Rematerialization
open Rue.Codegen
open Rue.Lib

section Recipes
variable {Inst Reg : Type} {backend : RegAllocBackend Inst Reg} {result : CoalesceResult}

theorem define_eligible {state : RematerializationState} {recipe : Option RematerializeOp} {op : RematerializeOp}
    (now : state.define recipe = .eligible op) : recipe = some op ∧ (state = .unknown ∨ state = .eligible op) := by
  cases recipe with
  | none => cases state <;> cases now
  | some recipe =>
    cases state with
    | unknown =>
      cases now
      exact ⟨rfl, .inl rfl⟩
    | eligible existing =>
      simp only [RematerializationState.define] at now
      split at now
      next same =>
        cases now
        exact ⟨congrArg some same.symm, .inr rfl⟩
      next => cases now
    | ineligible => cases now

theorem define_ne_unknown (state : RematerializationState) (recipe : Option RematerializeOp) :
    state.define recipe ≠ .unknown := by
  cases state <;> cases recipe <;> simp only [RematerializationState.define]
  case eligible.some => split <;> simp
  all_goals simp

/-- The definitions that survive move elimination, each with its recipe. -/
def definitions (backend : RegAllocBackend Inst Reg) (result : CoalesceResult) (entries : List (Inst × Nat)) :
    List (VReg × Option RematerializeOp) :=
  entries.flatMap fun entry =>
    if result.isEliminated entry.2 then []
    else (backend.defs entry.1).map fun defined => (defined, recipeFor backend entry.1 defined)

def account (result : CoalesceResult) (states : IndexMap RematerializationState)
    (definition : VReg × Option RematerializeOp) : IndexMap RematerializationState :=
  states.modify (result.representative definition.1) fun state => state.define definition.2

theorem foldl_defineAll (entries : List (Inst × Nat)) (states : IndexMap RematerializationState) :
    entries.foldl (defineAll backend result) states = (definitions backend result entries).foldl (account result) states := by
  induction entries generalizing states with
  | nil => rfl
  | cons entry entries ih =>
    have split : definitions backend result (entry :: entries) =
        definitions backend result [entry] ++ definitions backend result entries := by
      simp only [definitions, List.flatMap_cons, List.flatMap_nil, List.append_nil]
    rw [List.foldl_cons, ih, split, List.foldl_append]
    congr 1
    simp only [defineAll, definitions, List.flatMap_cons, List.flatMap_nil, List.append_nil]
    split
    · rfl
    · rw [List.foldl_map]
      rfl

/-- A class that ends with a recipe had it in every definition. -/
theorem eligible_of_foldl {all : List (VReg × Option RematerializeOp)} {states : IndexMap RematerializationState}
    {representative : VReg} {op : RematerializeOp}
    (ended : (all.foldl (account result) states)[representative]? = some (.eligible op)) :
    (states[representative]? = some .unknown ∨ states[representative]? = some (.eligible op)) ∧
      ∀ definition ∈ all, result.representative definition.1 = representative → definition.2 = some op := by
  induction all generalizing states with
  | nil => exact ⟨.inr ended, by simp⟩
  | cons definition all ih =>
    obtain ⟨before, later⟩ := ih ended
    by_cases same : result.representative definition.1 = representative
    · have changed : ∃ state, states[representative]? = some state ∧ state.define definition.2 = .eligible op := by
        simp only [account, same, List.getElem?_modify, if_pos] at before
        cases found : states[representative]? with
        | none =>
          rw [found] at before
          rcases before with before | before <;> cases before
        | some state =>
          rw [found] at before
          rcases before with before | before
          · exact absurd (Option.some.inj before) (define_ne_unknown _ _)
          · exact ⟨state, rfl, Option.some.inj before⟩
      obtain ⟨state, found, now⟩ := changed
      obtain ⟨recipe, state⟩ := define_eligible now
      refine ⟨?_, ?_⟩
      · rcases state with rfl | rfl
        · exact .inl found
        · exact .inr found
      · intro other member there
        rcases List.mem_cons.mp member with rfl | member
        · exact recipe
        · exact later other member there
    · refine ⟨?_, ?_⟩
      · simpa only [account, List.getElem?_modify, if_neg same, Option.map_eq_map, Option.map_id'] using before
      · intro other member there
        rcases List.mem_cons.mp member with rfl | member
        · exact absurd there same
        · exact later other member there

theorem eq_of_recipeFor {inst : Inst} {defined : VReg} {op : RematerializeOp}
    (found : recipeFor backend inst defined = some op) : backend.rematerialization inst = some (defined, op) := by
  simp only [recipeFor, Option.map_eq_some_iff, Option.filter_eq_some_iff, decide_eq_true_eq] at found
  obtain ⟨⟨vreg, recipe⟩, ⟨candidate, same⟩, rfl⟩ := found
  rw [candidate, ← same]

/-- Every surviving definition of a class with a recipe is that recipe. -/
theorem rematerializationInfo_spec {vregCount : Nat} {instructions : List Inst} {representative : VReg} {op : RematerializeOp}
    (chosen : (rematerializationInfo backend vregCount instructions result)[representative]?.bind VRegInfo.remat = some op)
    {idx : Nat} {inst : Inst} (listed : instructions[idx]? = some inst) (survives : result.isEliminated idx = false)
    {defined : VReg} (defines : defined ∈ backend.defs inst) (same : result.representative defined = representative) :
    backend.rematerialization inst = some (defined, op) := by
  have ended : (instructions.zipIdx.foldl (defineAll backend result)
      (List.replicate vregCount .unknown))[representative]? = some (.eligible op) := by
    simp only [rematerializationInfo, List.getElem?_map, Option.bind_eq_some_iff, Option.map_eq_some_iff] at chosen
    obtain ⟨info, ⟨state, found, rfl⟩, remat⟩ := chosen
    cases state with
    | eligible recipe =>
      cases remat
      exact found
    | unknown => cases remat
    | ineligible => cases remat
  rw [foldl_defineAll] at ended
  have member : (defined, recipeFor backend inst defined) ∈ definitions backend result instructions.zipIdx := by
    refine List.mem_flatMap.mpr ⟨(inst, idx), List.mem_zipIdx_iff_getElem?.mpr listed, ?_⟩
    simp only [survives, Bool.false_eq_true, if_false]
    exact List.mem_map_of_mem defines
  exact eq_of_recipeFor ((eligible_of_foldl ended).2 _ member same)

end Recipes

section Scan
variable {Reg : Type} {ctx : ScanContext Reg} {state : ScanState Reg}

/-- A register is recomputed at its uses only by its own recipe. -/
def Planned (ctx : ScanContext Reg) (state : ScanState Reg) : Prop :=
  ∀ vreg op, state.assigned vreg = some (.rematerialize op) → ctx.canRemat vreg = some op

theorem of_assigned_set {allocation : IndexMap (Option (Allocation Reg))} {vreg other : VReg} {decided found : Allocation Reg}
    (now : (allocation.set vreg (some decided))[other]?.join = some found) :
    other = vreg ∧ decided = found ∨ allocation[other]?.join = some found := by
  rw [List.getElem?_set] at now
  split at now
  next same =>
    split at now
    · exact .inl ⟨same.symm, Option.some.inj now⟩
    · cases now
  next => exact .inr now

theorem planned_occupy (planned : Planned ctx state) (kind : RegClass) (vreg : VReg) (reg : Reg) (range : LiveRange) :
    Planned ctx (state.occupy kind vreg reg range) := by
  intro other op now
  rcases of_assigned_set now with ⟨_, impossible⟩ | before
  · cases impossible
  · exact planned other op before

theorem planned_evict (planned : Planned ctx state) (vreg : VReg) (start stop : Nat) :
    Planned ctx (ScanState.evict ctx state vreg start stop) := by
  intro other op now
  cases remat : ctx.canRemat vreg with
  | some recipe =>
    simp only [ScanState.evict, remat] at now
    rcases of_assigned_set now with ⟨rfl, same⟩ | before
    · cases same
      exact remat
    · exact planned other op before
  | none =>
    simp only [ScanState.evict, remat] at now
    rcases of_assigned_set now with ⟨_, impossible⟩ | before
    · cases impossible
    · exact planned other op before

variable [DecidableEq Reg]

theorem scanInterval_planned (planned : Planned ctx state) (interval : VReg × LiveRange) :
    Planned ctx (scanInterval ctx state interval) := by
  obtain ⟨vreg, range⟩ := interval
  have expired : Planned ctx (state.expire (ctx.liveness.classOf vreg) range.start) := planned
  rcases LinearScanStep.scanInterval_cases ctx state vreg range with
    ⟨reg, _, _, _, _, _, same⟩ | ⟨index, held, _, _, _, _, same⟩ | ⟨_, _, same⟩
  · have occupied := planned_occupy expired (ctx.liveness.classOf vreg) vreg reg range
    rw [same]
    split
    · intro other op now
      rw [LinearScanStep.saveRegister_assigned] at now
      exact occupied other op now
    · exact occupied
  · rw [same]
    apply planned_occupy
    apply planned_evict
    exact expired
  · rw [same]
    exact planned_evict expired vreg range.start range.end

theorem scan_planned (planned : Planned ctx state) (intervals : List (VReg × LiveRange)) :
    Planned ctx (intervals.foldl (scanInterval ctx) state) := by
  induction intervals generalizing state with
  | nil => exact planned
  | cons interval intervals ih => exact ih (scanInterval_planned planned interval)

/-- The scan hands out only the recipes it was given. -/
theorem linearScan_planned {vregCount : Nat} {liveness : LivenessInfo Reg} {file : RegisterFile Reg} {existingLocals : Nat}
    {collectDebug : Bool} {costModel : CostModel} {loopInfo : LoopInfo} {vregInfo : IndexMap VRegInfo} {vreg : VReg}
    {op : RematerializeOp}
    (chosen : (linearScanImplWithRemat vregCount liveness file existingLocals collectDebug costModel loopInfo
      vregInfo).allocation[vreg]?.join = some (.rematerialize op)) :
    vregInfo[vreg]?.bind VRegInfo.remat = some op := by
  rw [Allocation.result_is_pass] at chosen
  have info : ∀ vreg, (Allocation.returnedPass vregCount liveness file existingLocals collectDebug costModel loopInfo
      vregInfo).canRemat vreg = vregInfo[vreg]?.bind VRegInfo.remat := by
    intro vreg
    rw [Allocation.returnedPass]
    split <;> rfl
  rw [← info]
  refine scan_planned ?_ _ vreg op chosen
  intro other op now
  rw [LinearScanSafety.init_assigned] at now
  cases now

end Scan

/-! The machine that keeps every class in a register and the one that recomputes
the classes the allocator chose. Both skip eliminated moves. -/

structure Effect (Word World : Type) where
  results : List Word
  world : World
  next : Option Nat

/-- What instructions do to their world and their definitions. Only what the
recipes write is fixed; `other` is whatever the rest of the machine does. -/
structure Meaning (Inst Word World : Type) where
  value : RematerializeOp → Word
  other : Inst → List Word → World → Option (Effect Word World)

structure Config (Word World : Type) where
  idx : Nat
  held : VReg → Option Word
  world : World

section Machines
variable {Inst Reg Word World : Type} (backend : RegAllocBackend Inst Reg) (instructions : List Inst)
  (result : CoalesceResult) (meaning : Meaning Inst Word World)

def Meaning.execute (inst : Inst) (operands : List Word) (world : World) : Option (Effect Word World) :=
  match backend.rematerialization inst with
  | some (_, op) => some ⟨[meaning.value op], world, none⟩
  | none => meaning.other inst operands world

/-- Each result goes to the class of its definition. -/
def write (held : VReg → Option Word) (defs : List VReg) (results : List Word) : VReg → Option Word :=
  (defs.zip results).foldl (fun held entry => Function.update held (result.representative entry.1) (some entry.2)) held

/-- One instruction, of a machine that skips some and reads operands its way. -/
inductive Step (skips : Inst → Nat → Prop) (reads : (VReg → Option Word) → VReg → Word → Prop) :
    Config Word World → Config Word World → Prop where
  | skip {config : Config Word World} {inst : Inst} (listed : instructions[config.idx]? = some inst)
      (skipped : skips inst config.idx) : Step skips reads config { config with idx := config.idx + 1 }
  | execute {config : Config Word World} {inst : Inst} {operands : List Word} {effect : Effect Word World}
      (listed : instructions[config.idx]? = some inst) (kept : ¬skips inst config.idx)
      (operand : List.Forall₂ (reads config.held) (backend.uses inst) operands)
      (executed : meaning.execute backend inst operands config.world = some effect) :
      Step skips reads config
        ⟨effect.next.getD (config.idx + 1), write result config.held (backend.defs inst) effect.results, effect.world⟩

/-- The value last written to the class. -/
def Written (held : VReg → Option Word) (vreg : VReg) (word : Word) : Prop :=
  held (result.representative vreg) = some word

/-- As `Written`, but a class nothing has written yet holds any value. -/
def Possible (held : VReg → Option Word) (vreg : VReg) (word : Word) : Prop :=
  ∀ found, held (result.representative vreg) = some found → word = found

def Keeps (reads : (VReg → Option Word) → VReg → Word → Prop) : Config Word World → Config Word World → Prop :=
  Step backend instructions result meaning (fun _ idx => result.isEliminated idx = true) reads

variable (context : AllocationContext Reg) [DecidableEq Reg]

/-- A use of a recomputed class gets the recipe's value, and no other use does. -/
def Operand (reads : (VReg → Option Word) → VReg → Word → Prop) (held : VReg → Option Word) (vreg : VReg) (word : Word) : Prop :=
  match context.allocationOf vreg with
  | some (.rematerialize op) => word = meaning.value op
  | _ => reads held vreg word

def Recomputes (reads : (VReg → Option Word) → VReg → Word → Prop) : Config Word World → Config Word World → Prop :=
  Step backend instructions result meaning
    (fun inst idx => result.isEliminated idx = true ∨ recomputedAtUses backend context inst = true)
    (Operand meaning context reads)

/-- The two machines agree but for the recomputed classes, which hold nothing
but the recipe's value where they are kept. -/
structure Agrees (kept recomputing : Config Word World) : Prop where
  idx : kept.idx = recomputing.idx
  world : kept.world = recomputing.world
  held : ∀ vreg, (∀ op, context.allocation[vreg]?.join ≠ some (.rematerialize op)) → kept.held vreg = recomputing.held vreg
  constant : ∀ vreg op, context.allocation[vreg]?.join = some (.rematerialize op) →
    ∀ word, kept.held vreg = some word → word = meaning.value op

end Machines

section Agreement
variable {Inst Reg Word World : Type} {backend : RegAllocBackend Inst Reg} {instructions : List Inst}
  {meaning : Meaning Inst Word World} {context : AllocationContext Reg} {kept recomputing next : Config Word World}

/-- What the allocator and `rematerializationInfo` promise together. -/
def Sound (backend : RegAllocBackend Inst Reg) (instructions : List Inst) (context : AllocationContext Reg) : Prop :=
  ∀ idx inst, instructions[idx]? = some inst → context.coalesceResult.isEliminated idx = false →
    ∀ defined ∈ backend.defs inst, ∀ op, context.allocationOf defined = some (.rematerialize op) →
      backend.rematerialization inst = some (defined, op)

theorem write_one (held : VReg → Option Word) (defined : VReg) (word : Word) :
    write context.coalesceResult held [defined] [word] =
      Function.update held (context.coalesceResult.representative defined) (some word) := rfl

theorem write_cons (held : VReg → Option Word) (defined : VReg) (defs : List VReg) (word : Word) (results : List Word) :
    write context.coalesceResult held (defined :: defs) (word :: results) =
      write context.coalesceResult (Function.update held (context.coalesceResult.representative defined) (some word))
        defs results := rfl

theorem write_other {held : VReg → Option Word} {defs : List VReg} {results : List Word} {vreg : VReg}
    (apart : ∀ defined ∈ defs, context.coalesceResult.representative defined ≠ vreg) :
    write context.coalesceResult held defs results vreg = held vreg := by
  induction defs generalizing held results with
  | nil => rfl
  | cons defined defs ih =>
    cases results with
    | nil => rfl
    | cons word results =>
      rw [write_cons, ih fun other member => apart other (List.mem_cons_of_mem _ member)]
      exact Function.update_of_ne (apart defined List.mem_cons_self).symm _ _

theorem write_congr {first second : VReg → Option Word} {vreg : VReg} (same : first vreg = second vreg) (defs : List VReg)
    (results : List Word) :
    write context.coalesceResult first defs results vreg = write context.coalesceResult second defs results vreg := by
  induction defs generalizing first second results with
  | nil => exact same
  | cons defined defs ih =>
    cases results with
    | nil => exact same
    | cons word results =>
      rw [write_cons, write_cons]
      apply ih
      by_cases here : vreg = context.coalesceResult.representative defined
      · rw [here, Function.update_self, Function.update_self]
      · rw [Function.update_of_ne here, Function.update_of_ne here, same]

theorem Agrees.skipped (agrees : Agrees meaning context kept recomputing) :
    Agrees meaning context { kept with idx := kept.idx + 1 } { recomputing with idx := recomputing.idx + 1 } :=
  ⟨congrArg (· + 1) agrees.idx, agrees.world, agrees.held, agrees.constant⟩

/-- A dropped definition writes the recipe's value to its own class only. -/
theorem Agrees.dropped (agrees : Agrees meaning context kept recomputing) {inst : Inst} {defined : VReg} {op : RematerializeOp}
    (recipe : backend.rematerialization inst = some (defined, op))
    (decided : context.allocationOf defined = some (.rematerialize op)) :
    Agrees meaning context
      ⟨kept.idx + 1, write context.coalesceResult kept.held (backend.defs inst) [meaning.value op], kept.world⟩
      { recomputing with idx := recomputing.idx + 1 } := by
  rw [backend.recipe_defines recipe, write_one]
  refine ⟨congrArg (· + 1) agrees.idx, agrees.world, ?_, ?_⟩
  · intro vreg plain
    have apart : context.coalesceResult.representative defined ≠ vreg := by
      rintro rfl
      exact plain op decided
    exact (Function.update_of_ne apart.symm _ _).trans (agrees.held vreg plain)
  · intro vreg other chosen word found
    by_cases same : vreg = context.coalesceResult.representative defined
    · subst same
      cases decided.symm.trans chosen
      simp only [Function.update_self, Option.some.injEq] at found
      exact found.symm
    · simp only [Function.update_of_ne same] at found
      exact agrees.constant vreg other chosen word found

/-- Any other instruction writes the same results to classes that are kept. -/
theorem Agrees.executed (agrees : Agrees meaning context kept recomputing) {inst : Inst} {effect : Effect Word World}
    (plain : ∀ defined ∈ backend.defs inst, ∀ op, context.allocationOf defined ≠ some (.rematerialize op)) :
    Agrees meaning context
      ⟨effect.next.getD (kept.idx + 1), write context.coalesceResult kept.held (backend.defs inst) effect.results, effect.world⟩
      ⟨effect.next.getD (recomputing.idx + 1),
        write context.coalesceResult recomputing.held (backend.defs inst) effect.results, effect.world⟩ := by
  refine ⟨congrArg (effect.next.getD <| · + 1) agrees.idx, rfl, ?_, ?_⟩
  · intro vreg ordinary
    exact write_congr (agrees.held vreg ordinary) _ _
  · intro vreg op chosen word found
    have apart : ∀ defined ∈ backend.defs inst, context.coalesceResult.representative defined ≠ vreg := by
      rintro defined member rfl
      exact plain defined member op chosen
    exact agrees.constant vreg op chosen word ((write_other apart).symm.trans found)

theorem Agrees.operand_of_written (agrees : Agrees meaning context kept recomputing) {vreg : VReg} {word : Word}
    (written : Written context.coalesceResult kept.held vreg word) :
    Operand meaning context (Written context.coalesceResult) recomputing.held vreg word := by
  rw [Operand]
  split
  next op chosen => exact agrees.constant _ op chosen word written
  next plain => exact (agrees.held _ fun op => plain op).symm.trans written

theorem Agrees.possible_of_operand (agrees : Agrees meaning context kept recomputing) {vreg : VReg} {word : Word}
    (operand : Operand meaning context (Possible context.coalesceResult) recomputing.held vreg word) :
    Possible context.coalesceResult kept.held vreg word := by
  intro found held
  rw [Operand] at operand
  split at operand
  next op chosen => exact operand.trans (agrees.constant _ op chosen found held).symm
  next plain => exact operand found ((agrees.held _ fun op => plain op).symm.trans held)

theorem start_agrees {meaning : Meaning Inst Word World} {context : AllocationContext Reg} (idx : Nat) (world : World) :
    Agrees meaning context ⟨idx, fun _ => none, world⟩ ⟨idx, fun _ => none, world⟩ :=
  ⟨rfl, rfl, fun _ _ => rfl, fun _ _ _ _ found => by cases found⟩

variable [DecidableEq Reg]

theorem recomputedAtUses_iff {inst : Inst} : recomputedAtUses backend context inst = true ↔
    ∃ defined op, backend.rematerialization inst = some (defined, op) ∧
      context.allocationOf defined = some (.rematerialize op) := by
  rw [recomputedAtUses]
  cases found : backend.rematerialization inst with
  | none => simp
  | some recipe => simp [Prod.ext_iff]

/-- The rewrite hands the target exactly the instructions the second machine
does not skip. -/
theorem rewriteInstructions_eq (rewriteInst : AllocationContext Reg → Inst → Except CompileError (List Inst))
    (entries : List (Inst × Nat)) : rewriteInstructions backend context rewriteInst entries =
      ((entries.filter fun entry => ¬(context.coalesceResult.isEliminated entry.2 = true ∨
        recomputedAtUses backend context entry.1 = true)).mapM fun entry => rewriteInst context entry.1).map List.flatten := by
  induction entries with
  | nil => rfl
  | cons entry entries ih =>
    obtain ⟨inst, idx⟩ := entry
    rw [rewriteInstructions, ih]
    by_cases eliminated : context.coalesceResult.isEliminated idx = true
    · simp [eliminated]
    · by_cases dropped : recomputedAtUses backend context inst = true
      · simp [eliminated, dropped]
      · have kept : ¬(context.coalesceResult.isEliminated idx = true ∨ recomputedAtUses backend context inst = true) :=
          not_or.mpr ⟨eliminated, dropped⟩
        rw [if_neg eliminated, if_neg dropped, List.filter_cons_of_pos (by simpa using kept), List.mapM_cons]
        cases rewriteInst context inst with
        | error error => rfl
        | ok rewritten =>
          cases List.mapM (fun entry => rewriteInst context entry.1) (entries.filter fun entry =>
            ¬(context.coalesceResult.isEliminated entry.2 = true ∨ recomputedAtUses backend context entry.1 = true)) with
          | error error => rfl
          | ok others => rfl

/-- A surviving definition of a recomputed class is one the rewrite drops. -/
theorem not_rematerialized (sound : Sound backend instructions context) {idx : Nat} {inst : Inst}
    (listed : instructions[idx]? = some inst) (survives : context.coalesceResult.isEliminated idx = false)
    (needed : ¬recomputedAtUses backend context inst = true) :
    ∀ defined ∈ backend.defs inst, ∀ op, context.allocationOf defined ≠ some (.rematerialize op) := by
  intro defined member op decided
  exact needed (recomputedAtUses_iff.mpr ⟨defined, op, sound idx inst listed survives defined member op decided, decided⟩)

/-- A step that reads only written registers is matched. -/
theorem step_recomputed (sound : Sound backend instructions context) (agrees : Agrees meaning context kept recomputing)
    (step : Keeps backend instructions context.coalesceResult meaning (Written context.coalesceResult) kept next) :
    ∃ after, Recomputes backend instructions context.coalesceResult meaning context (Written context.coalesceResult)
      recomputing after ∧ Agrees meaning context next after := by
  have here := agrees.idx
  cases step with
  | skip listed skipped =>
    rw [here] at listed skipped
    exact ⟨_, .skip listed (.inl skipped), agrees.skipped⟩
  | @execute inst operands effect listed survives operand executed =>
    rw [here] at listed survives
    by_cases dropped : recomputedAtUses backend context inst = true
    · obtain ⟨defined, op, recipe, decided⟩ := recomputedAtUses_iff.mp dropped
      rw [Meaning.execute, recipe] at executed
      cases executed
      exact ⟨_, .skip listed (.inr dropped), agrees.dropped recipe decided⟩
    · rw [agrees.world] at executed
      refine ⟨_, .execute listed (not_or.mpr ⟨survives, dropped⟩) ?_ executed, agrees.executed ?_⟩
      · exact operand.imp fun _ _ written => agrees.operand_of_written written
      · exact not_rematerialized sound listed (Bool.eq_false_iff.mpr survives) dropped

/-- A step of the rewritten program is one the kept program can take. -/
theorem step_kept (sound : Sound backend instructions context) (agrees : Agrees meaning context kept recomputing)
    (step : Recomputes backend instructions context.coalesceResult meaning context (Possible context.coalesceResult)
      recomputing next) :
    ∃ after, Keeps backend instructions context.coalesceResult meaning (Possible context.coalesceResult) kept after ∧
      Agrees meaning context after next := by
  have here := agrees.idx.symm
  cases step with
  | @skip inst listed skipped =>
    rw [here] at listed skipped
    by_cases eliminated : context.coalesceResult.isEliminated kept.idx = true
    · exact ⟨_, .skip listed eliminated, agrees.skipped⟩
    · obtain ⟨defined, op, recipe, decided⟩ := recomputedAtUses_iff.mp (skipped.resolve_left eliminated)
      have operands : ∃ operands, List.Forall₂ (Possible context.coalesceResult kept.held) (backend.uses inst) operands := by
        refine ⟨(backend.uses inst).map fun vreg =>
          (kept.held (context.coalesceResult.representative vreg)).getD (meaning.value op), ?_⟩
        rw [List.forall₂_map_right_iff, List.forall₂_same]
        intro vreg _ found held
        rw [held, Option.getD_some]
      obtain ⟨operands, operand⟩ := operands
      have executed : meaning.execute backend inst operands kept.world = some ⟨[meaning.value op], kept.world, none⟩ := by
        rw [Meaning.execute, recipe]
      exact ⟨_, .execute listed eliminated operand executed, agrees.dropped recipe decided⟩
  | @execute inst operands effect listed needed operand executed =>
    rw [here] at listed needed
    obtain ⟨survives, dropped⟩ := not_or.mp needed
    rw [← agrees.world] at executed
    refine ⟨_, .execute listed survives ?_ executed, agrees.executed ?_⟩
    · exact operand.imp fun _ _ read => agrees.possible_of_operand read
    · exact not_rematerialized sound listed (Bool.eq_false_iff.mpr survives) dropped

end Agreement

section Driver
variable {Inst Reg Word World : Type} [DecidableEq Reg]

/-- The allocation the driver computes after coalescing. The liveness is the
merged one; nothing here depends on it. -/
def driverContext (backend : RegAllocBackend Inst Reg) (vregCount : Nat) (instructions : List Inst) (result : CoalesceResult)
    (liveness : LivenessInfo Reg) (file : RegisterFile Reg) (existingLocals : Nat) (collectDebug : Bool)
    (costModel : CostModel) (loopInfo : LoopInfo) : AllocationContext Reg :=
  { allocation := (linearScanImplWithRemat vregCount liveness file existingLocals collectDebug costModel loopInfo
      (rematerializationInfo backend vregCount instructions result)).allocation
    coalesceResult := result }

variable (backend : RegAllocBackend Inst Reg) (vregCount : Nat) (instructions : List Inst) (result : CoalesceResult)
  (liveness : LivenessInfo Reg) (file : RegisterFile Reg) (existingLocals : Nat) (collectDebug : Bool)
  (costModel : CostModel) (loopInfo : LoopInfo)

theorem driver_sound : Sound backend instructions
    (driverContext backend vregCount instructions result liveness file existingLocals collectDebug costModel loopInfo) := by
  intro idx inst listed survives defined member op decided
  exact rematerializationInfo_spec (linearScan_planned decided) listed survives member rfl

/-- A surviving definition of a recomputed class is the recipe, the rewrite
drops exactly these, every use of the class recomputes it, and the programs
before and after do the same. -/
theorem rematerialization_sound (meaning : Meaning Inst Word World) :
    let context := driverContext backend vregCount instructions result liveness file existingLocals collectDebug costModel
      loopInfo
    (∀ idx inst, instructions[idx]? = some inst → result.isEliminated idx = false → ∀ defined ∈ backend.defs inst, ∀ op,
      context.allocationOf defined = some (.rematerialize op) →
        backend.defs inst = [defined] ∧ inst = backend.recompute op (.virtual defined) ∧
          recomputedAtUses backend context inst = true ∧
          ∀ operands world, meaning.execute backend inst operands world = some ⟨[meaning.value op], world, none⟩) ∧
      (∀ inst, recomputedAtUses backend context inst = true → ∃ defined op, backend.defs inst = [defined] ∧
        ∀ vreg, result.representative vreg = result.representative defined →
          context.allocationOf vreg = some (.rematerialize op) ∧ ∀ scratch, loadOperand backend context scratch
            (.virtual vreg) = .ok ([backend.recompute op (.physical scratch)], .physical scratch)) ∧
      (∀ start world last, Relation.ReflTransGen (Keeps backend instructions result meaning (Written result))
        ⟨start, fun _ => none, world⟩ last → ∃ after, Relation.ReflTransGen
          (Recomputes backend instructions result meaning context (Written result)) ⟨start, fun _ => none, world⟩ after ∧
          Agrees meaning context last after) ∧
      (∀ start world last, Relation.ReflTransGen (Recomputes backend instructions result meaning context (Possible result))
        ⟨start, fun _ => none, world⟩ last → ∃ before, Relation.ReflTransGen
          (Keeps backend instructions result meaning (Possible result)) ⟨start, fun _ => none, world⟩ before ∧
          Agrees meaning context before last) ∧
      ∀ rewriteInst entries, rewriteInstructions backend context rewriteInst entries =
        ((entries.filter fun entry => ¬(result.isEliminated entry.2 = true ∨
          recomputedAtUses backend context entry.1 = true)).mapM fun entry => rewriteInst context entry.1).map
            List.flatten := by
  intro context
  have sound : Sound backend instructions context :=
    driver_sound backend vregCount instructions result liveness file existingLocals collectDebug costModel loopInfo
  refine ⟨?_, ?_, ?_, ?_, fun rewriteInst entries => rewriteInstructions_eq rewriteInst entries⟩
  · intro idx inst listed survives defined member op decided
    have recipe := sound idx inst listed survives defined member op decided
    refine ⟨backend.recipe_defines recipe, backend.recipe_recomputes recipe,
      recomputedAtUses_iff.mpr ⟨defined, op, recipe, decided⟩, ?_⟩
    intro operands world
    rw [Meaning.execute, recipe]
  · intro inst dropped
    obtain ⟨defined, op, recipe, decided⟩ := recomputedAtUses_iff.mp dropped
    refine ⟨defined, op, backend.recipe_defines recipe, ?_⟩
    intro vreg same
    have chosen : context.allocationOf vreg = some (.rematerialize op) := by
      rw [← decided, AllocationContext.allocationOf, AllocationContext.allocationOf]
      exact congrArg (fun representative => context.allocation[representative]?.join) same
    refine ⟨chosen, fun scratch => ?_⟩
    rw [loadOperand, chosen]
  · intro start world last run
    apply lockstep ?_ (start_agrees start world) run
    intro kept next recomputing agrees moved
    exact step_recomputed sound agrees moved
  · intro start world last run
    have back : ∀ recomputing next kept, Agrees meaning context kept recomputing →
        Recomputes backend instructions result meaning context (Possible result) recomputing next →
        ∃ after, Keeps backend instructions result meaning (Possible result) kept after ∧ Agrees meaning context after next := by
      intro recomputing next kept agrees moved
      exact step_kept sound agrees moved
    exact lockstep back (start_agrees start world) run

end Driver

/-! A constant loaded on two paths, copied, and pushed, with no register free. -/

def twiceLoaded : List X86.X86Inst :=
  [.movRI64 (.virtual 0) 42, .movRR (.virtual 1) (.virtual 0), .movRI64 (.virtual 0) 42, .push (.virtual 1)]

def copied : CoalesceResult := ⟨[none, some 0], [false, true], 1⟩

def copiedLiveness : LivenessInfo X86.Reg :=
  { ranges := [some ⟨0, 3, by decide⟩, none]
    clobbersAt := [[], [], [], []]
    nonReturningAt := [false, false, false, false]
    divergingAt := [false, false, false, false]
    divergingUses := [false, false]
    vregClasses := [.gp, .gp] }

/-- Pushes are observed, and nothing else of the machine is used. -/
def pushing : Meaning X86.X86Inst Int (List Int) :=
  { value := fun | .const32 imm | .const64 imm => imm | _ => 0
    other := fun inst operands world =>
      match inst with
      | .push _ => some ⟨[], world ++ operands, none⟩
      | _ => none }

def copiedContext : AllocationContext X86.Reg :=
  driverContext X86.x86Backend 2 twiceLoaded copied copiedLiveness ⟨fun _ => .empty⟩ 0 false .default (.noLoops 4)
theorem copied_step {config next : Config Int (List Int)} {inst : X86.X86Inst} (operands : List Int)
    (effect : Effect Int (List Int)) (listed : twiceLoaded[config.idx]? = some inst)
    (survives : copied.isEliminated config.idx = false)
    (operand : List.Forall₂ (Written copied config.held) (X86.uses inst) operands)
    (executed : pushing.execute X86.x86Backend inst operands config.world = some effect)
    (same : next = ⟨effect.next.getD (config.idx + 1), write copied config.held (X86.defs inst) effect.results, effect.world⟩) :
    Keeps X86.x86Backend twiceLoaded copied pushing (Written copied) config next :=
  same ▸ .execute listed (Bool.eq_false_iff.mp survives) operand executed

theorem copied_run : Relation.ReflTransGen (Keeps X86.x86Backend twiceLoaded copied pushing (Written copied))
    ⟨0, fun _ => none, []⟩ ⟨4, Function.update (Function.update (fun _ => none) 0 (some 42)) 0 (some 42), [42]⟩ := by
  let loaded : Config Int (List Int) := ⟨1, Function.update (fun _ => none) 0 (some 42), []⟩
  let again : Config Int (List Int) := ⟨3, Function.update loaded.held 0 (some 42), []⟩
  have first : Keeps X86.x86Backend twiceLoaded copied pushing (Written copied) ⟨0, fun _ => none, []⟩ loaded :=
    copied_step [] ⟨[42], [], none⟩ rfl rfl .nil rfl rfl
  have second : Keeps X86.x86Backend twiceLoaded copied pushing (Written copied) loaded { loaded with idx := 2 } :=
    .skip rfl rfl
  have third : Keeps X86.x86Backend twiceLoaded copied pushing (Written copied) { loaded with idx := 2 } again :=
    copied_step [] ⟨[42], [], none⟩ rfl rfl .nil rfl rfl
  have last : Keeps X86.x86Backend twiceLoaded copied pushing (Written copied) again ⟨4, again.held, [42]⟩ :=
    copied_step [42] ⟨[], [42], none⟩ rfl rfl (.cons rfl .nil) rfl rfl
  exact .head first (.head second (.head third (.single last)))

/-- Both loads are dropped, and the push pushes the constant again. -/
theorem copied_recomputed : recomputedAtUses X86.x86Backend copiedContext (.movRI64 (.virtual 0) 42) = true ∧
    ∃ after, Relation.ReflTransGen (Recomputes X86.x86Backend twiceLoaded copied pushing copiedContext (Written copied))
      ⟨0, fun _ => none, []⟩ after ∧ after.world = [42] := by
  obtain ⟨definitions, _, forward, _, _⟩ := rematerialization_sound X86.x86Backend 2 twiceLoaded copied copiedLiveness
    ⟨fun _ => .empty⟩ 0 false .default (.noLoops 4) pushing
  obtain ⟨_, _, dropped, _⟩ := definitions 0 _ rfl rfl 0 List.mem_cons_self (.const64 42) (by decide)
  obtain ⟨after, run, agrees⟩ := forward 0 [] _ copied_run
  exact ⟨dropped, after, run, agrees.world.symm⟩

end Rue.Proofs.Rematerialization
