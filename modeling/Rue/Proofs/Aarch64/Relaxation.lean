import Rue.Proofs.Aarch64.EmittedLayout

/-! Branch relaxation ends within its rounds, and the branches of its last round
lead where the instructions say. -/

namespace Rue.Proofs.Aarch64
open Rue.Lib Rue.Lib.A64 Codegen Codegen.Aarch64 Codegen.Aarch64.Emitter

def prologueOf (context : EmitContext) : Except EmitError (List Word) :=
  if context.hasFrame then emitPrologue context else .ok []

/-- A round up to the end of some of the instructions. -/
def emitThrough (context : EmitContext) (start : Emitter) (insts : List Aarch64Inst) : Except EmitError Emitter := do
  let prologue ← prologueOf context
  insts.foldlM (emitInst context) (start.emit prologue)

section Round
variable {context : EmitContext} {start last : Emitter}

theorem emitBody_eq : emitBody context start =
    match context.instructions.findIdx? isIndexed with
    | some index => .error (.notLowered index)
    | none => do
      let emitted ← emitThrough context start context.instructions
      if emitted.framelessFrameReference then .error .framelessReference else return emitted := by
  unfold emitBody emitThrough prologueOf
  cases context.instructions.findIdx? isIndexed with
  | some index => rfl
  | none =>
    cases context.hasFrame with
    | false => rfl
    | true =>
      cases emitPrologue context with
      | error stop => rfl
      | ok prologue => rfl

theorem emitBody_ok (emitted : emitBody context start = .ok last) :
    context.instructions.findIdx? isIndexed = none ∧ emitThrough context start context.instructions = .ok last ∧
      last.framelessFrameReference = false := by
  rw [emitBody_eq] at emitted
  split at emitted
  next => cases emitted
  next lowered =>
    cases through : emitThrough context start context.instructions with
    | error stop =>
      rw [through] at emitted
      cases emitted
    | ok reached =>
      rw [through] at emitted
      change (if reached.framelessFrameReference then _ else _) = _ at emitted
      split at emitted
      next => cases emitted
      next unnamed =>
        cases emitted
        exact ⟨lowered, rfl, by simpa using unnamed⟩

theorem emitThrough_ok {insts : List Aarch64Inst} (emitted : emitThrough context start insts = .ok last) :
    ∃ prologue, prologueOf context = .ok prologue ∧ insts.foldlM (emitInst context) (start.emit prologue) = .ok last := by
  unfold emitThrough at emitted
  cases prologue : prologueOf context with
  | error stop =>
    rw [prologue] at emitted
    cases emitted
  | ok words =>
    rw [prologue] at emitted
    exact ⟨words, rfl, emitted⟩

/-! What has been decided to relax does not decide whether a round succeeds. -/

theorem append_names {piece : Piece} {emitter other : Emitter}
    (same : emitter.framelessFrameReference = other.framelessFrameReference) :
    (piece.append emitter).framelessFrameReference = (piece.append other).framelessFrameReference := by
  cases piece with
  | words code names => exact congrArg (· || names) same
  | call symbolId | address rd target | label id | branch label => exact same
  | cond near around label =>
    have cond : ∀ emitter : Emitter, (emitter.emitCond near around label).framelessFrameReference = emitter.framelessFrameReference := by
      intro emitter
      unfold emitCond
      dsimp only
      split
      · rfl
      · rfl
    exact (cond emitter).trans (same.trans (cond other).symm)

theorem emitAll_again {insts : List Aarch64Inst} {emitter other : Emitter}
    (same : emitter.framelessFrameReference = other.framelessFrameReference)
    (emitted : insts.foldlM (emitInst context) emitter = .ok last) :
    ∃ again, insts.foldlM (emitInst context) other = .ok again ∧
      again.framelessFrameReference = last.framelessFrameReference := by
  induction insts generalizing emitter other with
  | nil =>
    cases emitted
    exact ⟨other, rfl, same.symm⟩
  | cons inst rest ih =>
    obtain ⟨middle, step, others⟩ := foldlM_cons_ok emitted
    obtain ⟨piece, made, rfl⟩ := emitInst_ok step
    obtain ⟨again, done, names⟩ := ih (append_names same) others
    refine ⟨again, ?_, names⟩
    rw [List.foldlM_cons, emitInst_eq, made]
    exact done

theorem emitBody_again {other : Emitter} (same : start.framelessFrameReference = other.framelessFrameReference)
    (emitted : emitBody context start = .ok last) : ∃ again, emitBody context other = .ok again := by
  obtain ⟨lowered, through, unnamed⟩ := emitBody_ok emitted
  obtain ⟨prologue, framed, all⟩ := emitThrough_ok through
  obtain ⟨again, done, names⟩ := @emitAll_again context last context.instructions (start.emit prologue) (other.emit prologue) same all
  refine ⟨again, ?_⟩
  rw [emitBody_eq, lowered, emitThrough, framed]
  change (do let emitted ← context.instructions.foldlM (emitInst context) (other.emit prologue); _) = _
  rw [done]
  change (if again.framelessFrameReference then _ else _) = _
  rw [names, unnamed]
  rfl

/-- The state every round starts from, but for its decisions. -/
theorem prologue_laid {prologue : List Word} (clean : resetRound start = start) : Laid (start.emit prologue) := by
  rw [← clean]
  exact ⟨.nil, nofun, nofun, fun _ => nofun⟩

theorem emitThrough_laid {insts : List Aarch64Inst} (clean : resetRound start = start)
    (emitted : emitThrough context start insts = .ok last) : Laid last := by
  obtain ⟨prologue, _, all⟩ := emitThrough_ok emitted
  exact emitAll_laid (prologue_laid clean) all

end Round

/-- Every label an instruction branches to is defined. -/
def LabelsDefined (insts : List Aarch64Inst) : Prop :=
  ∀ inst ∈ insts, ∀ label test, branchOf inst = some (label, test) → .label label ∈ insts

section Rounds
variable {context : EmitContext} {start last first : Emitter}

theorem emitBody_measured (defined : LabelsDefined context.instructions) (clean : resetRound start = start)
    (emitted : emitBody context start = .ok last) :
    Laid last ∧ ∀ fixup ∈ last.fixups, ∃ index target, Measured last fixup index target := by
  obtain ⟨_, through, _⟩ := emitBody_ok emitted
  have laid := emitThrough_laid clean through
  refine ⟨laid, ?_⟩
  intro fixup member
  obtain ⟨prologue, _, all⟩ := emitThrough_ok through
  rcases emitAll_targets all fixup member with old | ⟨inst, inside, test, goes⟩
  · rw [← clean] at old
    cases old
  · obtain ⟨offset, known⟩ := emitAll_labelled (defined inst inside _ _ goes) all
    exact measured laid member known

/-- Rounds are left for what remains to be decided. -/
def Budget (start : Emitter) (fuel round : Nat) : Prop :=
  if start.relaxAllCond then 0 < fuel else round ≤ measuredRounds ∧ measuredRounds + 2 ≤ round + fuel

theorem rounds_end (defined : LabelsDefined context.instructions) (emitted : emitBody context .new = .ok first)
    {fuel round : Nat} (clean : resetRound start = start) (budget : Budget start fuel round) :
    ∃ begun last, resetRound begun = begun ∧ emitBody context begun = .ok last ∧
      outOfRangeCondSites last last.fixups = .ok [] ∧
      emitWithRelaxation context fuel round start = some (applyFixups last) := by
  induction fuel generalizing round start with
  | zero =>
    unfold Budget at budget
    split at budget
    · omega
    · omega
  | succ fuel ih =>
    have unnamed : Emitter.new.framelessFrameReference = start.framelessFrameReference := by
      rw [← clean]
      rfl
    obtain ⟨emitter, body⟩ := emitBody_again unnamed emitted
    obtain ⟨laid, distances⟩ := emitBody_measured defined clean body
    obtain ⟨sites, found, relaxed, _⟩ := outOfRangeCondSites_ok emitter.fixups fun fixup member =>
      have ⟨_, _, here⟩ := distances fixup member
      ⟨_, here.distance⟩
    cases sites with
    | nil =>
      refine ⟨start, emitter, clean, body, found, ?_⟩
      rw [emitWithRelaxation, body]
      dsimp only
      rw [found]
    | cons site rest =>
      have same : emitter.relaxAllCond = start.relaxAllCond := by
        obtain ⟨prologue, _, all⟩ := emitThrough_ok (emitBody_ok body).2.1
        exact (emitAll_extends all).all
      have partly : start.relaxAllCond = false := by
        cases all : start.relaxAllCond with
        | false => rfl
        | true =>
          rw [all] at same
          cases relaxed (laid.relaxed same)
      rw [Budget, partly] at budget
      obtain ⟨early, enough⟩ : round ≤ measuredRounds ∧ measuredRounds + 2 ≤ round + (fuel + 1) := budget
      rw [emitWithRelaxation, body]
      dsimp only
      rw [found]
      dsimp only
      rw [if_neg (by rw [same, partly]; exact Bool.false_ne_true)]
      by_cases late : round ≥ measuredRounds
      · rw [if_pos late]
        apply ih rfl
        rw [Budget, resetRound, if_pos rfl]
        omega
      · rw [if_neg late]
        apply ih rfl
        rw [Budget, if_neg (by rw [resetRound, same, partly]; exact Bool.false_ne_true)]
        omega

end Rounds

/-- The unconditional branches reach their labels. -/
def FitsBranches (emitter : Emitter) : Prop :=
  ∀ fixup ∈ emitter.fixups, fixup.kind = .branch →
    ∃ distance, fixupDistance emitter fixup = .ok distance ∧ BranchRange distance

/-- A pending branch encodes the distance to its label. -/
structure Encoded (emitter : Emitter) (code : List Word) (fixup : Fixup) (index target : Nat) : Prop where
  measured : Measured emitter fixup index target
  inRange : InRange fixup ((target : Int) - index)
  encodes : ∃ word insn, code[index]? = some word ∧ decode word = some insn ∧ insn.displacement = some ((target : Int) - index)

/-- The code of a round that began with some decisions. -/
structure Assembled (context : EmitContext) (begun last : Emitter) (code : List Word) : Prop where
  encoded : ∀ fixup ∈ last.fixups, ∃ index target, Encoded last code fixup index target
  branches : ∀ front inst rest label test, context.instructions = front ++ inst :: rest → branchOf inst = some (label, test) →
    ∃ here there, ∃ target : Nat, emitThrough context begun front = .ok here ∧ emitThrough context begun (front ++ [inst]) = .ok there ∧
      last.labels label = some (4 * target) ∧
      ∀ state, Leads code state (if test state then target else there.code.length) here.code.length
  labels : ∀ front label rest, context.instructions = front ++ .label label :: rest → .label label ∉ rest →
    ∃ here, emitThrough context begun front = .ok here ∧ last.labels label = some here.offset
  untouched : ∀ index, (∀ fixup ∈ last.fixups, fixup.offset / 4 ≠ index) → code[index]? = last.code[index]?

section Last
variable {context : EmitContext} {begun last : Emitter}

theorem fits_of_length (distances : ∀ fixup ∈ last.fixups, ∃ index target, Measured last fixup index target)
    (short : last.code.length < 2 ^ 25) : FitsBranches last := by
  intro fixup member _
  obtain ⟨index, target, here⟩ := distances fixup member
  have inside := here.inside
  have reached := here.reached
  refine ⟨_, here.distance, ?_⟩
  constructor
  · omega
  · omega

theorem emitThrough_split {front rest : List Aarch64Inst} (emitted : emitThrough context begun (front ++ rest) = .ok last) :
    ∃ here, emitThrough context begun front = .ok here ∧ rest.foldlM (emitInst context) here = .ok last := by
  obtain ⟨prologue, framed, all⟩ := emitThrough_ok emitted
  obtain ⟨here, first, others⟩ := foldlM_append_ok all
  refine ⟨here, ?_, others⟩
  rw [emitThrough, framed]
  exact first

/-- Where a branch stands, its words lead to its label when its test holds and
past it when not. -/
theorem adds_leads {here there : Emitter} {label : LabelId} {test : State → Bool} {code : List Word} {target : Nat}
    (laid : Laid here) (adds : Adds here there label test) (rises : Extends there last)
    (encoded : ∀ fixup ∈ last.fixups, fixup.label = label → fixup.offset = here.offset ∨ fixup.offset = here.offset + 4 →
      ∃ word, last.code[fixup.offset / 4]? = some word ∧
        code[fixup.offset / 4]? = some (patch fixup ((target : Int) - (fixup.offset / 4 : Nat)) word) ∧
        InRange fixup ((target : Int) - (fixup.offset / 4 : Nat)))
    (untouched : ∀ index, (∀ fixup ∈ last.fixups, fixup.offset / 4 ≠ index) → code[index]? = last.code[index]?) (state : State) :
    Leads code state (if test state then target else there.code.length) here.code.length := by
  obtain ⟨later, fixups, sited⟩ := rises.fixups
  have site : here.offset / 4 = here.code.length := Nat.mul_div_cancel_left _ (by decide)
  cases adds with
  | always added fixed certain =>
    obtain ⟨word, found, patched, inRange⟩ := encoded ⟨here.offset, label, .branch, none⟩ (by rw [fixups, fixed]; simp) rfl (.inl rfl)
    dsimp only [patch] at found patched inRange
    rw [site] at found patched inRange
    have first := found_of_prefix rises.code (show there.code[here.code.length]? = some opcodeB by
      rw [added, List.getElem?_concat_length])
    cases found.symm.trans first
    obtain ⟨imm, decoded, displaced⟩ := decode_patchBranch inRange
    have lands := @leads_direct code state _ target _ _ patched decoded (congrArg some displaced)
    rw [certain, added, List.length_append]
    exact lands
  | near word number added fixed branches =>
    obtain ⟨other, found, patched, inRange⟩ :=
      encoded ⟨here.offset, label, .condBranch, some number⟩ (by rw [fixups, fixed]; simp) rfl (.inl rfl)
    dsimp only [patch] at found patched inRange
    rw [site] at found patched inRange
    have first := found_of_prefix rises.code (show there.code[here.code.length]? = some word by
      rw [added, List.getElem?_concat_length])
    cases found.symm.trans first
    obtain ⟨insn, decoded, displaced, taken⟩ := branches _ inRange
    have lands := @leads_direct code state _ target _ _ patched decoded displaced
    rw [taken] at lands
    rw [added, List.length_append]
    exact lands
  | around word added fixed inverted empty =>
    have next : (here.offset + 4) / 4 = here.code.length + 1 := by
      rw [offset]
      omega
    obtain ⟨other, found, patched, inRange⟩ :=
      encoded ⟨here.offset + 4, label, .branch, none⟩ (by rw [fixups, fixed]; simp) rfl (.inr rfl)
    dsimp only [patch] at found patched inRange
    rw [next] at found patched inRange
    have second := found_of_prefix rises.code (show there.code[here.code.length + 1]? = some opcodeB by
      rw [added, List.getElem?_append_right (by omega)]
      simp)
    cases found.symm.trans second
    have first := found_of_prefix rises.code (show there.code[here.code.length]? = some (word ||| place skipOneInst 5) by
      rw [added, List.getElem?_append_right (by omega)]
      simp)
    have skip : code[here.code.length]? = some (patchCondBranch word 2) := by
      rw [untouched here.code.length ?_, first, place_skip empty]
      intro fixup member same
      rw [fixups, fixed, List.mem_append, List.mem_append, List.mem_singleton] at member
      rcases member with (old | rfl) | new
      · obtain ⟨index, stands, _, below⟩ := laid.sited.within fixup old
        omega
      · dsimp only at same
        omega
      · obtain ⟨index, stands, above, _⟩ := sited.within fixup new
        rw [added, List.length_append] at above
        simp only [List.length_cons, List.length_nil] at above
        omega
    obtain ⟨insn, decoded, displaced, taken⟩ := inverted 2 ⟨by decide, by decide⟩
    obtain ⟨imm, unconditional, reaches⟩ := decode_patchBranch inRange
    have lands := @leads_relaxed code state here.code.length target insn (test state) _ _ skip decoded displaced (taken state) patched
      imm unconditional reaches
    rw [added, List.length_append]
    exact lands

/-- Once every branch of the last round is in range, its code is assembled. -/
theorem assembles (defined : LabelsDefined context.instructions) (clean : resetRound begun = begun)
    (emitted : emitBody context begun = .ok last) (settled : outOfRangeCondSites last last.fixups = .ok [])
    (fits : FitsBranches last) : ∃ code, applyFixups last = .ok code ∧ Assembled context begun last code := by
  obtain ⟨laid, distances⟩ := emitBody_measured defined clean emitted
  obtain ⟨_, through, _⟩ := emitBody_ok emitted
  obtain ⟨sites, found, _, near⟩ := outOfRangeCondSites_ok last.fixups fun fixup member =>
    have ⟨_, _, here⟩ := distances fixup member
    ⟨_, here.distance⟩
  have none' : sites = [] := by
    rw [settled] at found
    cases found
    rfl
  have inRange : ∀ fixup ∈ last.fixups, ∃ distance, fixupDistance last fixup = .ok distance ∧ InRange fixup distance := by
    intro fixup member
    rcases laid.awaits fixup member with ⟨kind, _⟩ | ⟨kind, site, _⟩
    · obtain ⟨distance, here, within⟩ := fits fixup member kind
      exact ⟨distance, here, by rw [InRange, kind]; exact within⟩
    · obtain ⟨distance, here, within⟩ := near none' fixup member kind site
      exact ⟨distance, here, by rw [InRange, kind]; exact within⟩
  have aligned : ∀ fixup ∈ last.fixups, 4 ∣ fixup.offset := by
    intro fixup member
    obtain ⟨index, site, _⟩ := laid.sited.within fixup member
    exact ⟨index, site⟩
  obtain ⟨code, applied, patched, untouched⟩ := applyFixups_patches last.fixups laid.sited.order aligned inRange last.code
  have ranged : ∀ fixup ∈ last.fixups, ∀ {index target}, Measured last fixup index target →
      InRange fixup ((target : Int) - index) := by
    intro fixup member index target here
    obtain ⟨distance, same, within⟩ := inRange fixup member
    rw [here.distance] at same
    cases same
    exact within
  refine ⟨code, applied, ?_, ?_, ?_, untouched⟩
  · intro fixup member
    obtain ⟨index, target, here⟩ := distances fixup member
    have within := ranged fixup member here
    have site : fixup.offset / 4 = index := by
      have stands := here.site
      omega
    have word := patched fixup member _ here.distance
    refine ⟨index, target, here, within, ?_⟩
    rcases laid.awaits fixup member with ⟨kind, first⟩ | ⟨kind, _, base, test, first, branches⟩
    · rw [first, site] at word
      rw [InRange, kind] at within
      obtain ⟨imm, decoded, displaced⟩ := decode_patchBranch within
      refine ⟨_, .b false imm, word, ?_, congrArg some displaced⟩
      rw [patch, kind]
      exact decoded
    · rw [first, site] at word
      rw [InRange, kind] at within
      obtain ⟨insn, decoded, displaced, _⟩ := branches _ within
      refine ⟨_, insn, word, ?_, displaced⟩
      rw [patch, kind]
      exact decoded
  · intro front inst rest label test same goes
    rw [same] at through
    obtain ⟨here, before, others⟩ := emitThrough_split through
    obtain ⟨there, step, after⟩ := foldlM_cons_ok others
    have member : inst ∈ context.instructions := by
      rw [same]
      simp
    obtain ⟨offset, known⟩ := emitAll_labelled (defined inst member label test goes) (emitThrough_ok (emitBody_ok emitted).2.1).choose_spec.2
    obtain ⟨target, rfl, _⟩ := laid.labels label offset known
    have both : emitThrough context begun (front ++ [inst]) = .ok there := by
      obtain ⟨prologue, framed, all⟩ := emitThrough_ok before
      rw [emitThrough, framed]
      change (front ++ [inst]).foldlM (emitInst context) (begun.emit prologue) = _
      rw [List.foldlM_append, all]
      change [inst].foldlM (emitInst context) here = _
      rw [List.foldlM_cons, step]
      rfl
    refine ⟨here, there, target, before, both, known, ?_⟩
    cases emitInst_cases step with
    | plain _ _ _ nowhere =>
      rw [nowhere] at goes
      cases goes
    | label id named =>
      rw [named] at goes
      cases goes
    | branch id other goes' adds =>
      rw [goes] at goes'
      cases goes'
      refine adds_leads (emitThrough_laid clean before) adds (emitAll_extends after) ?_ untouched
      intro fixup member labelled _
      obtain ⟨index, place, measured⟩ := distances fixup member
      have site : fixup.offset / 4 = index := by
        have stands := measured.site
        omega
      have reached : place = target := by
        have label := measured.label
        rw [labelled, known] at label
        have same := Option.some.inj label
        omega
      subst reached
      have word := patched fixup member _ measured.distance
      rw [site] at word ⊢
      obtain ⟨base, first⟩ : ∃ base, last.code[index]? = some base := ⟨_, List.getElem?_eq_getElem measured.inside⟩
      refine ⟨base, first, ?_, ranged fixup member measured⟩
      rw [word, first]
      rfl
  · intro front label rest same absent
    rw [same] at through
    obtain ⟨here, before, others⟩ := emitThrough_split through
    exact ⟨here, before, emitAll_label absent others⟩

end Last

/-- Relaxation of a list that can be emitted ends within its rounds, with the
code of a round in which every branch reaches its label, when the code fits the
unconditional branch. -/
theorem relaxation_sound {context : EmitContext} {first : Emitter} (emitted : emitBody context .new = .ok first)
    (defined : LabelsDefined context.instructions) :
    ∃ begun last, resetRound begun = begun ∧ emitBody context begun = .ok last ∧
      emitWithRelaxation context (measuredRounds + 2) 0 .new = some (applyFixups last) ∧
      (last.code.length < 2 ^ 25 → FitsBranches last) ∧
      (FitsBranches last → ∃ code, applyFixups last = .ok code ∧ Assembled context begun last code) := by
  have budget : Budget .new (measuredRounds + 2) 0 := ⟨by decide, by decide⟩
  obtain ⟨begun, last, clean, body, settled, ends⟩ := rounds_end defined emitted rfl budget
  exact ⟨begun, last, clean, body, ends, fits_of_length (emitBody_measured defined clean body).2,
    assembles defined clean body settled⟩

/-- A loop that tests a register and jumps back. -/
def countdown : EmitContext :=
  { instructions := [.label 0, .cbz (.physical .x0) 1, .b 0, .label 1, .ret], strings := [], calleeSaved := [], slots := 0,
    stackSize := 0, homing := [], sretSlot := none, framePointer := false, frameOptOut := false }

theorem countdown_relaxes :
    ∃ begun last, emitBody countdown begun = .ok last ∧
      emitWithRelaxation countdown (measuredRounds + 2) 0 .new = some (applyFixups last) := by
  have defined : LabelsDefined countdown.instructions := by
    intro inst member label test goes
    simp only [countdown, List.mem_cons, List.not_mem_nil, or_false] at member ⊢
    rcases member with rfl | rfl | rfl | rfl | rfl <;> cases goes <;> simp
  obtain ⟨begun, last, _, body, ends, _⟩ := @relaxation_sound countdown _ rfl defined
  exact ⟨begun, last, body, ends⟩

end Rue.Proofs.Aarch64
