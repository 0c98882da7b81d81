import Mathlib.Data.Finset.Basic
import Rue.Cfg.Instruction
import Rue.Lib.Search

/-! Local frame-slot planning from storage markers. Locals whose storage windows
are never open together may share frame cells; any doubt gives the identity. -/

namespace Rue.Codegen

def maxPlannedLocalSlots : Nat := 4096

def maxPlannedCost : Nat := 65536

def maxDataflowRounds : Nat := 64

inductive ReferenceKind where
  | live
  | dead
  | access
  | addressEscape
  deriving DecidableEq

/-- A reference to a run of local slots made by one instruction. -/
structure SlotReference where
  base : Nat
  span : Nat
  kind : ReferenceKind
  deriving DecidableEq

/-- The run of slots an instruction's data refers to, whatever area it is in. -/
def dataReference (cfg : Cfg) (pool : TypePool) (value : CfgValue) : Option SlotReference :=
  match (cfg.inst value).data with
  | .storageLive slot localTy => some { base := slot, span := pool.slotSpan localTy, kind := .live }
  | .storageDead slot localTy => some { base := slot, span := pool.slotSpan localTy, kind := .dead }
  | .alloc slot init => some { base := slot, span := pool.slotSpan (cfg.inst init).ty, kind := .access }
  | .load slot => some { base := slot, span := pool.slotSpan (cfg.inst value).ty, kind := .access }
  | .store slot stored => some { base := slot, span := pool.slotSpan (cfg.inst stored).ty, kind := .access }
  | .placeRead place | .placeWrite place _ =>
    match place.base with
    | .local' slot => some { base := slot, span := pool.slotSpan place.baseType, kind := .access }
    | _ => none
  | _ => none

/-- The operands of one instruction whose address it takes. -/
def escapingArgs (cfg : Cfg) (value : CfgValue) : List CfgValue :=
  match (cfg.inst value).data with
  | .intrinsic operation _ args => if operation.takesPlaceAddress then args else []
  | _ => []

def addressEscapingOperands (cfg : Cfg) : List CfgValue := cfg.attached.flatMap (escapingArgs cfg)

/-- The reference an instruction makes to the local area. -/
def localReference (cfg : Cfg) (pool : TypePool) (value : CfgValue) : Option SlotReference :=
  match dataReference cfg pool value with
  | none => none
  | some reference =>
    if cfg.numLocals ≤ reference.base then none
    else if value ∈ addressEscapingOperands cfg then some { reference with kind := .addressEscape }
    else some reference

abbrev SlotReferences := CfgValue → Option SlotReference

/-- The references of the attached instructions, unless one leaves the local area. -/
def collectSlotReferences (cfg : Cfg) (pool : TypePool) : Option SlotReferences :=
  let perValue := localReference cfg pool
  if cfg.attached.all fun value => (perValue value).all fun reference => reference.base + reference.span ≤ cfg.numLocals
  then some fun value => if value ∈ cfg.attached then perValue value else none
  else none

/-- A run of local slots that moves through the frame as a unit. -/
structure SlotEntity where
  base : Nat
  span : Nat
  shareable : Bool
  deriving DecidableEq

/-- What is known of the references rooted at one slot. -/
structure RootFacts where
  span : Nat
  hasLive : Bool
  escapes : Bool

def rootFacts (references : List SlotReference) (slot : Nat) : RootFacts :=
  let rooted := references.filter (·.base = slot)
  { span := rooted.foldl (fun span reference => max span reference.span) 0
    hasLive := rooted.any (·.kind = .live)
    escapes := rooted.any (·.kind = .addressEscape) }

/-- The runs from `slot` on; each round consumes at least one slot. -/
def entitiesFrom (numLocals : Nat) (facts : Nat → RootFacts) : Nat → Nat → Option (List SlotEntity)
  | 0, _ => some []
  | rounds + 1, slot =>
    if numLocals ≤ slot then some []
    else
      let span := (facts slot).span
      if span = 0 then do
        let rest ← entitiesFrom numLocals facts rounds (slot + 1)
        some ({ base := slot, span := 1, shareable := false } :: rest)
      else if numLocals < slot + span then none
      else if (List.range' (slot + 1) (span - 1)).any fun interior => (facts interior).span ≠ 0 then none
      else do
        let rest ← entitiesFrom numLocals facts rounds (slot + span)
        some ({ base := slot, span, shareable := (facts slot).hasLive && !(facts slot).escapes } :: rest)

def buildEntities (cfg : Cfg) (refs : SlotReferences) : Option (List SlotEntity) :=
  entitiesFrom cfg.numLocals (rootFacts (cfg.attached.filterMap refs)) cfg.numLocals 0

/-- Blocks reachable from the entry, each marked when its first edge is seen. -/
def reachableBlocks (cfg : Cfg) : List BlockId :=
  if cfg.entry < cfg.blockCount then Lib.Search.markOnPush cfg.succs cfg.blockCount cfg.entry else []

def entityAtBase (entities : List SlotEntity) (base : Nat) : Option Nat := entities.findIdx? (·.base = base)

/-- The marker effect of one instruction on the set of open entities. -/
def transferValue (entities : List SlotEntity) (refs : SlotReferences) (state : Finset Nat) (value : CfgValue) :
    Finset Nat :=
  match refs value with
  | none => state
  | some reference =>
    match entityAtBase entities reference.base with
    | none => state
    | some entity =>
      match reference.kind with
      | .live => insert entity state
      | .dead => state.erase entity
      | .access | .addressEscape => state

def transferBlock (cfg : Cfg) (entities : List SlotEntity) (refs : SlotReferences) (block : BlockId)
    (state : Finset Nat) : Finset Nat :=
  (cfg.block block).insts.foldl (transferValue entities refs) state

structure LiveSets where
  liveIn : BlockId → Finset Nat
  liveOut : BlockId → Finset Nat
  changed : Bool

def solveBlock (cfg : Cfg) (entities : List SlotEntity) (refs : SlotReferences) (reachable : List BlockId)
    (sets : LiveSets) (block : BlockId) : LiveSets :=
  if block ∈ reachable then
    let entered := (cfg.preds block).foldl
      (fun state pred => if pred ∈ reachable then state ∪ sets.liveOut pred else state) ∅
    let left := transferBlock cfg entities refs block entered
    { liveIn := Function.update sets.liveIn block entered
      liveOut := Function.update sets.liveOut block left
      changed := sets.changed || entered ≠ sets.liveIn block || left ≠ sets.liveOut block }
  else sets

/-- Rounds over all blocks until one changes nothing. -/
def solveMayBeLive (cfg : Cfg) (entities : List SlotEntity) (refs : SlotReferences) (reachable : List BlockId) :
    Nat → LiveSets → Option (BlockId → Finset Nat)
  | 0, _ => none
  | rounds + 1, sets =>
    let sets := (List.range cfg.blockCount).foldl (solveBlock cfg entities refs reachable)
      { sets with changed := false }
    if sets.changed then solveMayBeLive cfg entities refs reachable rounds sets else some sets.liveIn

/-- The entities demoted and the interference found by the audit so far. -/
structure Audit where
  demoted : Finset Nat
  interference : Nat → Finset Nat

def recordSimultaneous (state : Finset Nat) (audit : Audit) : Audit :=
  { audit with interference := fun entity =>
      if entity ∈ state then audit.interference entity ∪ state else audit.interference entity }

def auditValue (entities : List SlotEntity) (refs : SlotReferences) (walk : Finset Nat × Audit) (value : CfgValue) :
    Finset Nat × Audit :=
  let (state, audit) := walk
  match refs value with
  | none => (state, audit)
  | some reference =>
    match entityAtBase entities reference.base with
    | none => (state, audit)
    | some entity =>
      match reference.kind with
      | .live => (insert entity state, recordSimultaneous (insert entity state) audit)
      | .dead => (state.erase entity, recordSimultaneous (state.erase entity) audit)
      | .access | .addressEscape =>
        (state, if entity ∈ state then audit else { audit with demoted := insert entity audit.demoted })

def auditBlock (cfg : Cfg) (entities : List SlotEntity) (refs : SlotReferences) (reachable : List BlockId)
    (liveIn : BlockId → Finset Nat) (audit : Audit) (block : BlockId) : Audit :=
  if block ∈ reachable then
    ((cfg.block block).insts.foldl (auditValue entities refs)
      (liveIn block, recordSimultaneous (liveIn block) audit)).2
  else audit

/-- The audit of every block; no entity interferes with itself. -/
def auditAndCollectInterference (cfg : Cfg) (entities : List SlotEntity) (refs : SlotReferences)
    (reachable : List BlockId) (liveIn : BlockId → Finset Nat) : Audit :=
  let audit := (List.range cfg.blockCount).foldl (auditBlock cfg entities refs reachable liveIn)
    { demoted := ∅, interference := fun _ => ∅ }
  { audit with interference := fun entity => (audit.interference entity).erase entity }

def isShareable (entities : List SlotEntity) (audit : Audit) (entity : Nat) : Bool :=
  (entities[entity]?.any SlotEntity.shareable) && entity ∉ audit.demoted

/-- An entity that cannot be proved safe interferes with everything. -/
def interferes (entities : List SlotEntity) (audit : Audit) (first second : Nat) : Bool :=
  second ∈ audit.interference first || !isShareable entities audit first || !isShareable entities audit second

/-- An entity with the frame slot its run begins at. -/
structure PlacedEntity where
  entity : SlotEntity
  offset : Nat
  deriving DecidableEq

def regionsOverlap (first second : PlacedEntity) : Bool :=
  first.offset < second.offset + second.entity.span && second.offset < first.offset + first.entity.span

/-- The check of one placement against those made before it. -/
def verifyPlacement (conflict : Nat → Nat → Bool) (placed : List PlacedEntity) (last : PlacedEntity) : Bool :=
  placed.zipIdx.all fun (first, index) => !(regionsOverlap first last && conflict index placed.length)

/-- The cells an entity must keep clear of. -/
def busyCells (conflict : Nat → Nat → Bool) (placed : List PlacedEntity) (cell : Nat) : Bool :=
  placed.zipIdx.any fun (other, index) =>
    conflict placed.length index && other.offset ≤ cell && cell < other.offset + other.entity.span

/-- The first offset whose cells are all free; past the ceiling there are none to try. -/
def firstFit (conflict : Nat → Nat → Bool) (placed : List PlacedEntity) (span ceiling : Nat) : Option Nat :=
  (List.range (ceiling + 1)).find? fun offset =>
    (List.range' offset span).all fun cell => !busyCells conflict placed cell

def assignRegions (conflict : Nat → Nat → Bool) (ceiling : Nat) :
    List PlacedEntity → List SlotEntity → Option (List PlacedEntity)
  | placed, [] => some placed
  | placed, entity :: rest => do
    let offset ← firstFit conflict placed entity.span ceiling
    let last := { entity, offset }
    if verifyPlacement conflict placed last then assignRegions conflict ceiling (placed ++ [last]) rest else none

def frameLocalSlots (placed : List PlacedEntity) : Nat :=
  placed.foldl (fun total last => max total (last.offset + last.entity.span)) 0

def verifySharing (conflict : Nat → Nat → Bool) (placed : List PlacedEntity) : Bool :=
  (List.range placed.length).all fun index => (placed[index]?).all (verifyPlacement conflict (placed.take index))

/-- The cell of a slot in the layout: the last entity that covers it decides. -/
def placedCell (placed : List PlacedEntity) (slot : Nat) : Option Nat :=
  placed.foldl (fun found last =>
    if last.entity.base ≤ slot ∧ slot < last.entity.base + last.entity.span
    then some (last.offset + (slot - last.entity.base)) else found) none

inductive LocalSlotMap where
  | identity
  | shared (cells : List Nat)
  deriving DecidableEq

structure LocalSlotPlan where
  map : LocalSlotMap
  frameLocalSlots : Nat
  deriving DecidableEq

namespace LocalSlotPlan

def identity (numLocals : Nat) : LocalSlotPlan := { map := .identity, frameLocalSlots := numLocals }

def tryPlan (cfg : Cfg) (pool : TypePool) : Option LocalSlotPlan :=
  if cfg.numLocals = 0 ∨ maxPlannedLocalSlots < cfg.numLocals then none
  else if maxPlannedCost < cfg.numLocals * cfg.blockCount then none
  else do
    let refs ← collectSlotReferences cfg pool
    let entities ← buildEntities cfg refs
    if entities.length < 2 then none
    else do
      let reachable := reachableBlocks cfg
      let liveIn ← solveMayBeLive cfg entities refs reachable maxDataflowRounds
        { liveIn := fun _ => ∅, liveOut := fun _ => ∅, changed := false }
      let conflict := interferes entities (auditAndCollectInterference cfg entities refs reachable liveIn)
      let placed ← assignRegions conflict (entities.map SlotEntity.span).sum [] entities
      if !verifySharing conflict placed then none
      else if cfg.numLocals ≤ Codegen.frameLocalSlots placed then none
      else do
        let cells ← (List.range cfg.numLocals).mapM (placedCell placed)
        some { map := .shared cells, frameLocalSlots := Codegen.frameLocalSlots placed }

def plan (cfg : Cfg) (pool : TypePool) : LocalSlotPlan := (tryPlan cfg pool).getD (identity cfg.numLocals)

def frameSlot (plan : LocalSlotPlan) (slot : Nat) : Nat :=
  match plan.map with
  | .identity => slot
  | .shared cells => cells[slot]?.getD slot

end LocalSlotPlan

end Rue.Codegen
