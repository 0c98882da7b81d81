import Rue.Codegen.Aarch64.Emit
import Rue.Lib.A64Machine

/-! What the patched branch words decode to, and which of them are opposite. -/

namespace Rue.Proofs.Aarch64
open Rue.Lib Rue.Lib.A64 Codegen Codegen.Aarch64 Codegen.Aarch64.Emitter

section Masked
variable {inst value mask fieldMask : Word} {start size : Nat}

theorem extract_masked (within : start + size ≤ 32) (clear : mask.extractLsb' start size = BitVec.ofNat size 0)
    (full : fieldMask.extractLsb' 0 size = BitVec.allOnes size) :
    (inst &&& mask ||| (value &&& fieldMask) <<< start).extractLsb' start size = value.extractLsb' 0 size := by
  apply BitVec.eq_of_getLsbD_eq
  intro bit inside
  have cleared := congrArg (BitVec.getLsbD · bit) clear
  have filled := congrArg (BitVec.getLsbD · bit) full
  have small : start + bit < 32 := by omega
  have after : ¬start + bit < start := by omega
  simp only [BitVec.getLsbD_extractLsb', inside, decide_true, Bool.true_and, BitVec.getLsbD_zero, BitVec.getLsbD_allOnes,
    Nat.zero_add] at cleared filled
  simp only [BitVec.getLsbD_extractLsb', inside, decide_true, Bool.true_and, BitVec.getLsbD_or, BitVec.getLsbD_and,
    BitVec.getLsbD_shiftLeft, cleared, small, after, decide_false, Bool.not_false, Nat.add_sub_cancel_left, filled,
    Bool.and_true, Bool.and_false, Bool.false_or, Nat.zero_add]

theorem masked_and {known : Word} (apart : fieldMask <<< start &&& known = 0) :
    (inst &&& mask ||| (value &&& fieldMask) <<< start) &&& known = inst &&& mask &&& known := by
  rw [BitVec.and_or_distrib_right, BitVec.shiftLeft_and_distrib, BitVec.and_assoc (value <<< start), apart]
  exact (congrArg _ BitVec.and_zero).trans BitVec.or_zero

end Masked

theorem toInt_extract_ofInt {size : Nat} {offset : Int} (within : size + 1 ≤ 32) (low : -2 ^ size ≤ offset)
    (high : offset < 2 ^ size) : ((BitVec.ofInt 32 offset).extractLsb' 0 (size + 1)).toInt = offset := by
  rw [← BitVec.setWidth_eq_extractLsb' within]
  have same : (BitVec.ofInt 32 offset).setWidth (size + 1) = BitVec.ofInt (size + 1) offset := by
    apply BitVec.eq_of_toInt_eq
    rw [BitVec.toInt_setWidth, BitVec.toNat_ofInt, BitVec.toInt_ofInt]
    have divides : ((2 ^ (size + 1) : Nat) : Int) ∣ ((2 ^ 32 : Nat) : Int) :=
      Int.natCast_dvd_natCast.mpr (Nat.pow_dvd_pow 2 within)
    have lifted : (((offset % ((2 ^ 32 : Nat) : Int)).toNat : Nat) : Int) = offset % ((2 ^ 32 : Nat) : Int) :=
      Int.toNat_of_nonneg (Int.emod_nonneg _ (by decide))
    rw [lifted, ← Int.emod_bmod, Int.emod_emod_of_dvd _ divides, Int.emod_bmod]
  rw [same, BitVec.toInt_ofInt]
  apply Int.bmod_eq_of_le
  · push_cast
    rw [pow_succ]
    omega
  · push_cast
    rw [pow_succ]
    omega

theorem decode_patchBranch {offset : Int} (inRange : BranchRange offset) :
    ∃ imm, decode (patchBranch opcodeB offset) = some (.b false imm) ∧ imm.toInt = offset := by
  have shape : patchBranch opcodeB offset =
      opcodeB &&& branchOpcodeMask ||| (BitVec.ofInt 32 offset &&& branchOffsetMask) <<< 0 := by
    rw [BitVec.shiftLeft_zero, patchBranch]
  have agrees : patchBranch opcodeB offset &&& branchOpcodeMask = opcodeB &&& branchOpcodeMask := by
    have kept := @masked_and opcodeB (BitVec.ofInt 32 offset) branchOpcodeMask branchOffsetMask 0 branchOpcodeMask (by decide)
    rw [BitVec.and_assoc opcodeB, BitVec.and_self] at kept
    rw [shape, kept]
  have field : (patchBranch opcodeB offset).extractLsb' 0 26 = (BitVec.ofInt 32 offset).extractLsb' 0 26 := by
    rw [shape]
    exact extract_masked (by decide) (by decide) (by decide)
  refine ⟨_, ?_, toInt_extract_ofInt (by decide) inRange.1 inRange.2⟩
  rw [decode_of_select agrees (show _ = some Form.b by decide), Form.build, field, getLsbD_known agrees (by decide)]
  rfl

section Cond
variable {word : Word} {offset : Int}

theorem patchCondBranch_known {known : Word} (apart : condBranchOffsetMask <<< 5 &&& known = 0)
    (within : condBranchOpcodeMask &&& known = known) : patchCondBranch word offset &&& known = word &&& known := by
  rw [patchCondBranch, masked_and apart, BitVec.and_assoc, within]

theorem patchCondBranch_field (inRange : CondBranchRange offset) :
    ((patchCondBranch word offset).extractLsb' 5 19).toInt = offset := by
  rw [patchCondBranch, extract_masked (by decide) (by decide) (by decide)]
  exact toInt_extract_ofInt (by decide) inRange.1 inRange.2

/-- A branch written with its displacement is the branch patched. -/
theorem place_skip (empty : word &&& condBranchOpcodeMask = word) :
    word ||| place skipOneInst 5 = patchCondBranch word 2 := by
  rw [patchCondBranch, empty]
  rfl

theorem decode_cbz {nonzero : Bool} {rt : Reg} (inRange : CondBranchRange offset) :
    ∃ imm, decode (patchCondBranch (cbzWord nonzero rt) offset) = some (.cb nonzero imm rt.encoding) ∧ imm.toInt = offset := by
  have agrees := @patchCondBranch_known (cbzWord nonzero rt) offset 0xFF00001F (by decide) (by decide)
  refine ⟨_, ?_, @patchCondBranch_field (cbzWord nonzero rt) offset inRange⟩
  have opcode : cbzWord nonzero rt &&& 0xFF000000 = (if nonzero then 0xB5000000 else 0xB4000000) &&& 0xFF000000 := by
    cases nonzero <;> cases rt <;> decide
  have whole := @patchCondBranch_known (cbzWord nonzero rt) offset 0xFF000000 (by decide) (by decide)
  have target : (patchCondBranch (cbzWord nonzero rt) offset).extractLsb' 0 5 = rt.encoding := by
    rw [extract_known agrees (by decide)]
    cases nonzero <;> cases rt <;> decide
  have kind : (patchCondBranch (cbzWord nonzero rt) offset).getLsbD 24 = nonzero := by
    rw [getLsbD_known agrees (by decide)]
    cases nonzero <;> cases rt <;> decide
  rw [decode_of_select (whole.trans opcode) (show _ = some Form.cb by cases nonzero <;> decide), Form.build, rd, target, kind]

theorem bcond_fields {cond : BitVec 4} :
    bcondWord cond &&& 0xFF000010 = opcodeBcond &&& 0xFF000010 ∧ (bcondWord cond).extractLsb' 0 4 = cond := by
  revert cond
  decide

theorem decode_bcond {cond : BitVec 4} (inRange : CondBranchRange offset) :
    ∃ imm, decode (patchCondBranch (bcondWord cond) offset) = some (.bCond cond imm) ∧ imm.toInt = offset := by
  have agrees := @patchCondBranch_known (bcondWord cond) offset 0xFF00001F (by decide) (by decide)
  refine ⟨_, ?_, @patchCondBranch_field (bcondWord cond) offset inRange⟩
  have whole := @patchCondBranch_known (bcondWord cond) offset 0xFF000010 (by decide) (by decide)
  have target : (patchCondBranch (bcondWord cond) offset).extractLsb' 0 4 = cond := by
    rw [extract_known agrees (by decide), bcond_fields.2]
  rw [decode_of_select (whole.trans bcond_fields.1) (show _ = some Form.bCond by decide), Form.build, target]

end Cond

/-- A word that branches on a test once it is patched. -/
def Branches (word : Word) (test : State → Bool) : Prop :=
  ∀ offset, CondBranchRange offset →
    ∃ insn, decode (patchCondBranch word offset) = some insn ∧ insn.displacement = some offset ∧
      ∀ state, insn.taken state = test state

theorem cbz_branches (nonzero : Bool) (rt : Reg) :
    Branches (cbzWord nonzero rt) fun state => (state.read (orZero rt.encoding) ≠ 0) == nonzero := by
  intro offset inRange
  obtain ⟨imm, decoded, displaced⟩ := @decode_cbz offset nonzero rt inRange
  exact ⟨_, decoded, congrArg some displaced, fun _ => rfl⟩

theorem bcond_branches (cond : BitVec 4) : Branches (bcondWord cond) fun state => state.flags.holds cond := by
  intro offset inRange
  obtain ⟨imm, decoded, displaced⟩ := @decode_bcond offset cond inRange
  exact ⟨_, decoded, congrArg some displaced, fun _ => rfl⟩

theorem cbz_empty {nonzero : Bool} {rt : Reg} : cbzWord nonzero rt &&& condBranchOpcodeMask = cbzWord nonzero rt := by
  cases nonzero <;> cases rt <;> decide

theorem bcond_empty {cond : BitVec 4} : bcondWord cond &&& condBranchOpcodeMask = bcondWord cond := by
  revert cond
  decide

end Rue.Proofs.Aarch64

/-! Emission in pieces: what an instruction adds does not depend on what is
there, but for the branches that a round has decided to relax. -/

namespace Rue.Proofs.Aarch64
open Rue.Lib Rue.Lib.A64 Codegen Codegen.Aarch64 Codegen.Aarch64.Emitter

inductive Piece where
  | words (code : List Word) (names : Bool)
  | call (symbolId : Nat)
  | address (rd : Reg) (target : RelocationTarget)
  | label (id : LabelId)
  | branch (label : LabelId)
  | cond (taken inverted : Word) (label : LabelId)

namespace Piece

def append (emitter : Emitter) : Piece → Emitter
  | .words code names =>
    { emitter with
      code := emitter.code ++ code
      framelessFrameReference := emitter.framelessFrameReference || names }
  | .call symbolId => (emitter.relocate .call (.symbol symbolId)).emit [opcodeBl]
  | .address rd target => emitter.emitAddress rd target
  | .label id => { emitter with labels := Function.update emitter.labels id (some emitter.offset) }
  | .branch id => emitter.emitB id
  | .cond taken inverted id => emitter.emitCond taken inverted id

def target : Piece → Option LabelId
  | .branch id | .cond _ _ id => some id
  | _ => none

end Piece

/-- One word branches on a test, and the other on its opposite. -/
structure Opposite (near around : Word) (test : State → Bool) : Prop where
  taken : Branches near test
  inverted : Branches around fun state => !test state
  empty : around &&& condBranchOpcodeMask = around

/-- Where an instruction may branch to, and when. -/
def branchOf : Aarch64Inst → Option (LabelId × (State → Bool))
  | .cbz (.physical rt) label => some (label, fun state => state.read (orZero rt.encoding) = 0)
  | .cbnz (.physical rt) label => some (label, fun state => state.read (orZero rt.encoding) ≠ 0)
  | .b label => some (label, fun _ => true)
  | .bCond cond label => some (label, fun state => state.flags.holds cond.encoding)
  | .bvs label => some (label, fun state => state.flags.holds 6)
  | .bvc label => some (label, fun state => state.flags.holds 7)
  | _ => none

def Piece.BranchesTo (piece : Piece) (label : LabelId) (test : State → Bool) : Prop :=
  piece = .branch label ∧ (test = fun _ => true) ∨ ∃ taken inverted, piece = .cond taken inverted label ∧ Opposite taken inverted test

def bcondPiece (cond : BitVec 4) (label : LabelId) : Except EmitError Piece :=
  if cond < 0b1110 then .ok (.cond (bcondWord cond) (bcondWord (cond ^^^ 1)) label) else .error .panic

def checkedPiece (context : EmitContext) (inst : Aarch64Inst) : Except EmitError Piece :=
  match inst with
  | .cbz src label => do
    let rt ← asPhysical src
    return .cond (cbzWord false rt) (cbzWord true rt) label
  | .cbnz src label => do
    let rt ← asPhysical src
    return .cond (cbzWord true rt) (cbzWord false rt) label
  | .b label => .ok (.branch label)
  | .bCond cond label => bcondPiece cond.encoding label
  | .bvs label => bcondPiece 6 label
  | .bvc label => bcondPiece 7 label
  | .label id => .ok (.label id)
  | .bl symbolId _ => .ok (.call symbolId)
  | .symbolAddr dst symbolId => do return .address (← asPhysical dst) (.symbol symbolId)
  | .stringConstPtr dst stringId => do return .address (← asPhysical dst) (.string stringId)
  | inst => do return .words (← encodeInst context inst) (context.frameless && adjustedBase inst = some .fp)

def pieceOf (context : EmitContext) (inst : Aarch64Inst) : Except EmitError Piece := do
  assertFloatOperandClasses inst
  checkedPiece context inst

section Emission
variable (context : EmitContext) (emitter : Emitter)

theorem emitBcondRaw_eq (cond : BitVec 4) (label : LabelId) :
    emitter.emitBcondRaw cond label = (bcondPiece cond label).map (Piece.append emitter) := by
  unfold emitBcondRaw bcondPiece
  split
  · rfl
  · rfl

theorem words_eq (inst : Aarch64Inst) :
    (do
      let words ← encodeInst context inst
      let names := context.frameless && adjustedBase inst = some .fp
      return { emitter with
        code := emitter.code ++ words
        framelessFrameReference := emitter.framelessFrameReference || names }) =
    (do
      let words ← encodeInst context inst
      return Piece.words words (context.frameless && adjustedBase inst = some .fp) : Except EmitError Piece).map
        (Piece.append emitter) := by
  cases encodeInst context inst with
  | error stop => rfl
  | ok words => rfl

theorem emitInst_eq (inst : Aarch64Inst) :
    emitInst context emitter inst = (pieceOf context inst).map (Piece.append emitter) := by
  generalize same : inst = other
  unfold emitInst pieceOf checkedPiece
  cases assertFloatOperandClasses other with
  | error stop => rfl
  | ok checked =>
    cases other with
    | cbz src label | cbnz src label | symbolAddr src label | stringConstPtr src label => cases src <;> rfl
    | b label | label id | bl symbolId behavior => rfl
    | bCond cond label => exact emitBcondRaw_eq emitter _ label
    | bvs label => exact emitBcondRaw_eq emitter 6 label
    | bvc label => exact emitBcondRaw_eq emitter 7 label
    | _ =>
      have plain := words_eq context emitter inst
      rw [same] at plain
      exact plain

end Emission

theorem cbz_opposite (nonzero : Bool) (rt : Reg) :
    Opposite (cbzWord nonzero rt) (cbzWord (!nonzero) rt) fun state => (state.read (orZero rt.encoding) ≠ 0) == nonzero := by
  refine ⟨cbz_branches nonzero rt, ?_, cbz_empty⟩
  intro offset inRange
  obtain ⟨insn, decoded, displaced, taken⟩ := cbz_branches (!nonzero) rt offset inRange
  refine ⟨insn, decoded, displaced, fun state => ?_⟩
  rw [taken]
  cases nonzero with
  | false => simp
  | true => simp

theorem bcond_opposite {cond : BitVec 4} (paired : cond < 14) :
    Opposite (bcondWord cond) (bcondWord (cond ^^^ 1)) fun state => state.flags.holds cond := by
  refine ⟨bcond_branches cond, ?_, bcond_empty⟩
  intro offset inRange
  obtain ⟨insn, decoded, displaced, taken⟩ := bcond_branches (cond ^^^ 1) offset inRange
  refine ⟨insn, decoded, displaced, fun state => ?_⟩
  exact (taken state).trans (holds_inverted state.flags paired)

theorem bcondPiece_branches {cond : BitVec 4} {label : LabelId} {piece : Piece} (made : bcondPiece cond label = .ok piece) :
    piece.BranchesTo label fun state => state.flags.holds cond := by
  unfold bcondPiece at made
  split at made
  next paired =>
    cases made
    exact .inr ⟨_, _, rfl, bcond_opposite paired⟩
  next => cases made

theorem words_made {context : EmitContext} {inst : Aarch64Inst} {names : Bool} {piece : Piece}
    (made : (do return .words (← encodeInst context inst) names) = Except.ok piece) : ∃ words, piece = .words words names := by
  cases encoded : encodeInst context inst with
  | error stop =>
    rw [encoded] at made
    cases made
  | ok words =>
    rw [encoded] at made
    cases made
    exact ⟨words, rfl⟩

theorem pieceOf_cases {context : EmitContext} {inst : Aarch64Inst} {piece : Piece} (made : pieceOf context inst = .ok piece) :
    (branchOf inst = none ∧ piece.target = none ∧ ∀ id, piece = .label id ↔ inst = .label id) ∨
      ∃ label test, branchOf inst = some (label, test) ∧ (∀ id, inst ≠ .label id) ∧ piece.BranchesTo label test := by
  cases checked : assertFloatOperandClasses inst with
  | error stop =>
    rw [pieceOf, checked] at made
    cases made
  | ok _ =>
    rw [pieceOf, checked] at made
    change checkedPiece context inst = .ok piece at made
    cases inst with
    | cbz src label =>
      cases src with
      | «virtual» id => cases made
      | physical rt =>
        cases made
        refine .inr ⟨label, _, rfl, nofun, .inr ⟨_, _, rfl, ?_⟩⟩
        have opposite := cbz_opposite false rt
        simpa using opposite
    | cbnz src label =>
      cases src with
      | «virtual» id => cases made
      | physical rt =>
        cases made
        refine .inr ⟨label, _, rfl, nofun, .inr ⟨_, _, rfl, ?_⟩⟩
        have opposite := cbz_opposite true rt
        simpa using opposite
    | b label =>
      cases made
      exact .inr ⟨label, _, rfl, nofun, .inl ⟨rfl, rfl⟩⟩
    | bCond cond label => exact .inr ⟨label, _, rfl, nofun, bcondPiece_branches made⟩
    | bvs label => exact .inr ⟨label, _, rfl, nofun, @bcondPiece_branches 6 label piece made⟩
    | bvc label => exact .inr ⟨label, _, rfl, nofun, @bcondPiece_branches 7 label piece made⟩
    | label id =>
      cases made
      exact .inl ⟨rfl, rfl, fun other => ⟨fun same => by cases same; rfl, fun same => by cases same; rfl⟩⟩
    | bl symbolId behavior =>
      cases made
      exact .inl ⟨rfl, rfl, fun other => ⟨nofun, nofun⟩⟩
    | symbolAddr dst target | stringConstPtr dst target =>
      cases dst with
      | «virtual» id => cases made
      | physical rd =>
        cases made
        exact .inl ⟨rfl, rfl, fun other => ⟨nofun, nofun⟩⟩
    | _ =>
      obtain ⟨words, rfl⟩ := words_made made
      exact .inl ⟨rfl, rfl, fun other => ⟨nofun, nofun⟩⟩

end Rue.Proofs.Aarch64
