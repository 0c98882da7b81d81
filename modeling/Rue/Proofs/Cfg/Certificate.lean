import Rue.Cfg.Verified

/-! A verified graph from a certificate that can be evaluated: for each block,
some blocks that dominate it. -/

namespace Rue.Cfg

/-- Every edge keeps the dominators it claims. -/
def DominatorsCertified (cfg : Cfg) (dom : BlockId → List BlockId) : Prop :=
  dom cfg.entry = [cfg.entry] ∧ ∀ block < cfg.blockCount, ∀ target ∈ cfg.succs block,
    ∀ first ∈ dom target, first = target ∨ first ∈ dom block

instance (cfg : Cfg) (dom : BlockId → List BlockId) : Decidable (DominatorsCertified cfg dom) :=
  inferInstanceAs (Decidable (_ ∧ _))

variable {cfg : Cfg} {dom : BlockId → List BlockId}

theorem DominatorsCertified.path (certified : DominatorsCertified cfg dom) (bounds : cfg.InBounds)
    {done : List BlockId} {block : BlockId} (path : Lib.Path cfg.Edge cfg.entry done block) :
    ∀ first ∈ dom block, first ∈ done ∨ first = block := by
  induction path with
  | start =>
    intro first member
    rw [certified.1] at member
    exact Or.inr (List.mem_singleton.mp member)
  | @step done block target path taken ih =>
    intro first member
    have inside := Live.inBounds bounds ⟨done, path⟩
    rcases certified.2 block inside target taken first member with rfl | earlier
    · exact Or.inr rfl
    · rcases ih first earlier with passed | rfl
      · exact Or.inl (List.mem_append_left _ passed)
      · exact Or.inl (List.mem_append_right _ (List.mem_singleton_self _))

theorem DominatorsCertified.dominates (certified : DominatorsCertified cfg dom) (bounds : cfg.InBounds)
    {first block : BlockId} (member : first ∈ dom block) : cfg.Dominates first block :=
  fun _ path => certified.path bounds path first member

/-- The value is defined here before the point, or by a certified dominator. -/
def AvailableBy (cfg : Cfg) (dom : BlockId → List BlockId) (block : BlockId) (done : List CfgValue) (value : CfgValue) :
    Prop :=
  value ∈ cfg.paramValues block ∨ value ∈ done ∨
    ∃ other ∈ dom block, other < cfg.blockCount ∧ other ≠ block ∧ value ∈ cfg.defines other

instance (block : BlockId) (done : List CfgValue) (value : CfgValue) :
    Decidable (AvailableBy cfg dom block done value) := inferInstanceAs (Decidable (_ ∨ _))

def UsesCertified (cfg : Cfg) (dom : BlockId → List BlockId) (block : BlockId) : List CfgValue → List CfgValue → Prop
  | _, [] => True
  | done, value :: rest =>
    (∀ used ∈ (cfg.inst value).data.uses, AvailableBy cfg dom block done used) ∧
      UsesCertified cfg dom block (done ++ [value]) rest

instance decidableUsesCertified (block : BlockId) : ∀ done insts, Decidable (UsesCertified cfg dom block done insts)
  | _, [] => inferInstanceAs (Decidable True)
  | done, value :: rest =>
    have := decidableUsesCertified block (done ++ [value]) rest
    inferInstanceAs (Decidable (_ ∧ _))

def ParamsCertified (cfg : Cfg) : Nat → List (CfgValue × Ty) → Prop
  | _, [] => True
  | index, (value, ty) :: rest => cfg.inst value = ⟨.blockParam index, ty⟩ ∧ ParamsCertified cfg (index + 1) rest

instance decidableParamsCertified : ∀ index params, Decidable (ParamsCertified cfg index params)
  | _, [] => inferInstanceAs (Decidable True)
  | index, (_, _) :: rest =>
    have := decidableParamsCertified (index + 1) rest
    inferInstanceAs (Decidable (_ ∧ _))

def CfgInstData.isBlockParam : CfgInstData → Bool
  | .blockParam _ => true
  | _ => false

def conditionOf : Terminator → Option CfgValue
  | .branch cond _ _ _ _ => some cond
  | _ => none

/-- Everything the verifier establishes, of all blocks, reached or not. -/
def Certified (cfg : Cfg) (dom : BlockId → List BlockId) : Prop :=
  cfg.InBounds ∧ DominatorsCertified cfg dom ∧ cfg.definitions.Nodup ∧
    (∀ value ∈ cfg.definitions, value < cfg.valueCount) ∧
    ∀ block < cfg.blockCount, (cfg.block block).id = block ∧ ParamsCertified cfg 0 (cfg.block block).params ∧
      (∀ value ∈ (cfg.block block).insts, CfgInstData.isBlockParam (cfg.inst value).data = false) ∧
      (∀ edge ∈ (cfg.block block).terminator.edges,
        edge.2.map (fun arg => (cfg.inst arg).ty) = (cfg.block edge.1).params.map Prod.snd) ∧
      UsesCertified cfg dom block [] (cfg.block block).insts ∧
      (∀ used ∈ (cfg.block block).terminator.uses, AvailableBy cfg dom block (cfg.block block).insts used) ∧
      (cfg.block block).terminator ≠ .none ∧
      ∀ cond ∈ conditionOf (cfg.block block).terminator, (cfg.inst cond).ty = .bool

instance : Decidable (Certified cfg dom) := inferInstanceAs (Decidable (_ ∧ _))

theorem ParamsCertified.at_index {params : List (CfgValue × Ty)} {first : Nat}
    (certified : ParamsCertified cfg first params) {index : Nat} {value : CfgValue} {ty : Ty}
    (found : params[index]? = some (value, ty)) : cfg.inst value = ⟨.blockParam (first + index), ty⟩ := by
  induction params generalizing first index with
  | nil => simp at found
  | cons param params ih =>
    cases index with
    | zero =>
      obtain rfl := Option.some.inj found
      exact certified.1
    | succ index =>
      rw [Nat.add_comm index 1, ← Nat.add_assoc]
      exact ih certified.2 found

theorem UsesCertified.at_split {block : BlockId} {done before insts rest : List CfgValue} {value : CfgValue}
    (certified : UsesCertified cfg dom block done insts) (split : insts = before ++ value :: rest) :
    ∀ used ∈ (cfg.inst value).data.uses, AvailableBy cfg dom block (done ++ before) used := by
  induction before generalizing done insts with
  | nil =>
    subst split
    simpa using certified.1
  | cons first before ih =>
    subst split
    simpa using ih certified.2 rfl

theorem AvailableBy.available {block : BlockId} {done : List CfgValue} {value : CfgValue} (bounds : cfg.InBounds)
    (certified : DominatorsCertified cfg dom) (available : AvailableBy cfg dom block done value) :
    cfg.Available block done value := by
  rcases available with param | earlier | ⟨other, member, inside, different, defined⟩
  · exact Or.inl param
  · exact Or.inr (Or.inl earlier)
  · exact Or.inr (Or.inr ⟨other, inside, different, defined, certified.dominates bounds member⟩)

theorem Verified.of_certified (dom : BlockId → List BlockId) (certified : Certified cfg dom) : cfg.Verified := by
  obtain ⟨bounds, dominators, once, inArena, blocks⟩ := certified
  refine ⟨bounds, fun block inside => (blocks block inside).1, once, inArena, ?_, ?_, ?_, ?_, ?_, ?_, ?_⟩
  · intro block inside index value ty found
    obtain ⟨-, params, -⟩ := blocks block inside
    simpa using params.at_index found
  · intro block inside value member index data
    obtain ⟨-, -, ordinary, -⟩ := blocks block inside
    have plain := ordinary value member
    rw [data] at plain
    cases plain
  · intro block live target args member
    obtain ⟨-, -, -, edges, -⟩ := blocks block (live.inBounds bounds)
    exact edges (target, args) member
  · intro block live done value rest split used member
    obtain ⟨-, -, -, -, uses, -⟩ := blocks block (live.inBounds bounds)
    exact (uses.at_split split used member).available bounds dominators
  · intro block live used member
    obtain ⟨-, -, -, -, -, uses, -⟩ := blocks block (live.inBounds bounds)
    exact (uses used member).available bounds dominators
  · intro block live
    obtain ⟨-, -, -, -, -, -, terminated, -⟩ := blocks block (live.inBounds bounds)
    exact terminated
  · intro block live cond thenBlock thenArgs elseBlock elseArgs shape
    obtain ⟨-, -, -, -, -, -, -, conditions⟩ := blocks block (live.inBounds bounds)
    apply conditions cond
    rw [shape]
    rfl

/-- The function of no parameters given by its instructions and blocks. -/
def ofTables (insts : List CfgInst) (blocks : List (List (CfgValue × Ty) × List CfgValue × Terminator)) : Cfg where
  entry := 0
  blockCount := blocks.length
  block := fun block =>
    let body := blocks.getD block ([], [], .none)
    ⟨block, body.1, body.2.1, body.2.2⟩
  valueCount := insts.length
  inst := fun value => insts.getD value ⟨.const 0, .unit⟩
  numLocals := 0
  numParams := 0
  isParamByRef := fun _ => false
  isParamWritable := fun _ => false
  isAddressTaken := fun _ => false
  isParamAddressTaken := fun _ => false
  isOwnershipBoundaryValue := fun _ => false

end Rue.Cfg
