import Mathlib.Data.List.Nodup
import Rue.Cfg.Operands
import Rue.Lib.Paths

/-! Paths through a control-flow graph, block by block and instruction by
instruction. -/

namespace Rue.Cfg

def Edge (cfg : Cfg) (source target : BlockId) : Prop := target ∈ cfg.succs source

/-- Every block the graph names is one of its blocks. -/
structure InBounds (cfg : Cfg) : Prop where
  entry : cfg.entry < cfg.blockCount
  targets : ∀ block < cfg.blockCount, ∀ target ∈ cfg.succs block, target < cfg.blockCount

instance (cfg : Cfg) : Decidable cfg.InBounds :=
  decidable_of_iff (cfg.entry < cfg.blockCount ∧
    ∀ block < cfg.blockCount, ∀ target ∈ cfg.succs block, target < cfg.blockCount)
    ⟨fun both => ⟨both.1, both.2⟩, fun bounds => ⟨bounds.entry, bounds.targets⟩⟩

/-- The instructions executed on some path from the entry to a point of a block
where the given ones remain. -/
inductive Reaches (cfg : Cfg) : List CfgValue → BlockId → List CfgValue → Prop where
  | start : Reaches cfg [] cfg.entry (cfg.block cfg.entry).insts
  | step {executed rest : List CfgValue} {block : BlockId} {value : CfgValue}
      (reached : Reaches cfg executed block (value :: rest)) : Reaches cfg (executed ++ [value]) block rest
  | jump {executed : List CfgValue} {block target : BlockId} (reached : Reaches cfg executed block [])
      (taken : cfg.Edge block target) : Reaches cfg executed target (cfg.block target).insts

variable {cfg : Cfg} {executed rest : List CfgValue} {block : BlockId}

theorem Reaches.suffix (reached : cfg.Reaches executed block rest) : rest <:+ (cfg.block block).insts := by
  induction reached with
  | start => exact List.suffix_refl _
  | step _ ih => exact (List.suffix_cons _ _).trans ih
  | jump => exact List.suffix_refl _

theorem Reaches.inBounds (bounds : cfg.InBounds) (reached : cfg.Reaches executed block rest) :
    block < cfg.blockCount := by
  induction reached with
  | start => exact bounds.entry
  | step _ ih => exact ih
  | jump _ taken ih => exact bounds.targets _ ih _ taken

theorem Reaches.attached (bounds : cfg.InBounds) {value : CfgValue}
    (reached : cfg.Reaches executed block (value :: rest)) : value ∈ cfg.attached :=
  mem_attached.mpr ⟨block, reached.inBounds bounds, reached.suffix.subset (by simp)⟩

end Rue.Cfg

/-! What the verifier establishes of the live graph: values attached once,
edges that fit their targets, operands defined before they are used. -/

namespace Rue.Cfg

variable (cfg : Cfg)

def Live (block : BlockId) : Prop := Lib.Reachable cfg.Edge cfg.entry block

def Dominates (first second : BlockId) : Prop := Lib.Dominates cfg.Edge cfg.entry first second

def paramValues (block : BlockId) : List CfgValue := (cfg.block block).params.map Prod.fst

/-- The values a block defines: its parameters, then its instructions. -/
def defines (block : BlockId) : List CfgValue := cfg.paramValues block ++ (cfg.block block).insts

def definitions : List CfgValue := (List.range cfg.blockCount).flatMap cfg.defines

/-- A value defined at a point of a block, the given instructions behind it. -/
def Available (block : BlockId) (done : List CfgValue) (value : CfgValue) : Prop :=
  value ∈ cfg.paramValues block ∨ value ∈ done ∨
    ∃ other < cfg.blockCount, other ≠ block ∧ value ∈ cfg.defines other ∧ cfg.Dominates other block

structure Verified : Prop where
  bounds : cfg.InBounds
  numbered : ∀ block < cfg.blockCount, (cfg.block block).id = block
  once : cfg.definitions.Nodup
  inArena : ∀ value ∈ cfg.definitions, value < cfg.valueCount
  params : ∀ block < cfg.blockCount, ∀ index value ty, (cfg.block block).params[index]? = some (value, ty) →
    cfg.inst value = ⟨.blockParam index, ty⟩
  ordinary : ∀ block < cfg.blockCount, ∀ value ∈ (cfg.block block).insts, ∀ index,
    (cfg.inst value).data ≠ .blockParam index
  edges : ∀ block, cfg.Live block → ∀ target args, (target, args) ∈ (cfg.block block).terminator.edges →
    args.map (fun arg => (cfg.inst arg).ty) = (cfg.block target).params.map Prod.snd
  uses : ∀ block, cfg.Live block → ∀ done value rest, (cfg.block block).insts = done ++ value :: rest →
    ∀ used ∈ (cfg.inst value).data.uses, cfg.Available block done used
  terminatorUses : ∀ block, cfg.Live block → ∀ used ∈ (cfg.block block).terminator.uses,
    cfg.Available block (cfg.block block).insts used
  terminated : ∀ block, cfg.Live block → (cfg.block block).terminator ≠ .none
  conditions : ∀ block, cfg.Live block → ∀ cond thenBlock thenArgs elseBlock elseArgs,
    (cfg.block block).terminator = .branch cond thenBlock thenArgs elseBlock elseArgs → (cfg.inst cond).ty = .bool

variable {cfg}

theorem Live.inBounds {block : BlockId} (bounds : cfg.InBounds) (live : cfg.Live block) : block < cfg.blockCount := by
  obtain ⟨_, path⟩ := live
  apply path.invariant bounds.entry
  intro source target inside edge
  exact bounds.targets source inside target edge

theorem mem_definitions {value : CfgValue} :
    value ∈ cfg.definitions ↔ ∃ block < cfg.blockCount, value ∈ cfg.defines block := by
  simp [definitions]

theorem mem_defines {block : BlockId} {value : CfgValue} :
    value ∈ cfg.defines block ↔ value ∈ cfg.paramValues block ∨ value ∈ (cfg.block block).insts := by
  simp [defines]

/-- Every value is defined once: in one block, and once there. -/
theorem nodup_definitions : cfg.definitions.Nodup ↔ (∀ block < cfg.blockCount, (cfg.defines block).Nodup) ∧
    ∀ first < cfg.blockCount, ∀ second < cfg.blockCount, ∀ value, value ∈ cfg.defines first →
      value ∈ cfg.defines second → first = second := by
  rw [definitions, List.nodup_flatMap]
  constructor
  · intro ⟨each, apart⟩
    refine ⟨fun block inside => each block (List.mem_range.mpr inside), ?_⟩
    intro first inside second alsoInside value here there
    by_contra different
    rw [List.pairwise_iff_getElem] at apart
    rcases Nat.lt_or_gt_of_ne different with before | after
    · exact apart first second (by simpa using inside) (by simpa using alsoInside) before
        (by simpa using here) (by simpa using there)
    · exact apart second first (by simpa using alsoInside) (by simpa using inside) after
        (by simpa using there) (by simpa using here)
  · intro ⟨each, unique⟩
    refine ⟨fun block inside => each block (List.mem_range.mp inside), ?_⟩
    apply List.nodup_range.pairwise_of_forall_ne
    intro first inside second alsoInside different value here there
    exact different (unique first (List.mem_range.mp inside) second (List.mem_range.mp alsoInside) value here there)

namespace Verified

variable (verified : cfg.Verified)

include verified

theorem nodup_defines {block : BlockId} (inside : block < cfg.blockCount) : (cfg.defines block).Nodup :=
  (nodup_definitions.mp verified.once).1 block inside

theorem defines_unique {first second : BlockId} {value : CfgValue} (inside : first < cfg.blockCount)
    (alsoInside : second < cfg.blockCount) (here : value ∈ cfg.defines first) (there : value ∈ cfg.defines second) :
    first = second :=
  (nodup_definitions.mp verified.once).2 first inside second alsoInside value here there

theorem not_param_of_inst {block : BlockId} (inside : block < cfg.blockCount) {value : CfgValue}
    (member : value ∈ (cfg.block block).insts) : value ∉ cfg.paramValues block := by
  intro param
  exact List.disjoint_of_nodup_append (verified.nodup_defines inside) param member

theorem nodup_insts {block : BlockId} (inside : block < cfg.blockCount) : (cfg.block block).insts.Nodup :=
  (verified.nodup_defines inside).of_append_right

end Verified

end Rue.Cfg

/-! The dominator tree of a control-flow graph as its queries read it. -/

namespace Rue

/-- Immediate dominators, the postorder numbers of the search, and the preorder
numbers of the tree with the largest one below each block. -/
structure DominatorTree where
  idom : BlockId → Option BlockId
  postNum : BlockId → Option Nat
  preNum : BlockId → Option Nat
  subtreeLast : BlockId → Nat

/-- A block outside the tree dominates itself only. -/
def DominatorTree.dominates (dom : DominatorTree) (a b : BlockId) : Bool :=
  match dom.preNum a, dom.preNum b with
  | some preA, some preB => preA ≤ preB && preB ≤ dom.subtreeLast a
  | _, _ => a = b

def DominatorTree.IsOf (dom : DominatorTree) (cfg : Cfg) : Prop :=
  ∀ a b, cfg.Live a → cfg.Live b → (dom.dominates a b ↔ cfg.Dominates a b)

end Rue
