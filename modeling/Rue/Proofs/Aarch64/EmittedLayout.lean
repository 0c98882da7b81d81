import Rue.Proofs.Aarch64.Pieces
import Rue.Lib.Lists

/-! Where the words, labels and pending branches of a round stand. -/

namespace Rue.Proofs.Aarch64
open Rue.Lib Rue.Lib.A64 Codegen Codegen.Aarch64 Codegen.Aarch64.Emitter

/-- Fixups in the order of their words, all of them in a range of words. -/
structure Sited (low high : Nat) (fixups : List Fixup) : Prop where
  order : fixups.Pairwise fun first second => first.offset < second.offset
  within : ∀ fixup ∈ fixups, ∃ index, fixup.offset = 4 * index ∧ low ≤ index ∧ index < high

theorem Sited.append {low middle high : Nat} {first second : List Fixup} (before : Sited low middle first)
    (after : Sited middle high second) (ordered : low ≤ middle) (rising : middle ≤ high) : Sited low high (first ++ second) := by
  constructor
  · rw [List.pairwise_append]
    refine ⟨before.order, after.order, ?_⟩
    intro one inFirst other inSecond
    obtain ⟨index, here, _, below⟩ := before.within one inFirst
    obtain ⟨place, there, above, _⟩ := after.within other inSecond
    omega
  · intro fixup member
    rcases List.mem_append.mp member with inFirst | inSecond
    · obtain ⟨index, here, above, below⟩ := before.within fixup inFirst
      exact ⟨index, here, above, by omega⟩
    · obtain ⟨index, here, above, below⟩ := after.within fixup inSecond
      exact ⟨index, here, by omega, below⟩

theorem Sited.nil {low high : Nat} : Sited low high [] := ⟨.nil, nofun⟩

theorem Sited.single {low high index : Nat} {fixup : Fixup} (here : fixup.offset = 4 * index) (above : low ≤ index)
    (below : index < high) : Sited low high [fixup] := by
  refine ⟨List.pairwise_singleton _ _, ?_⟩
  intro other member
  cases List.mem_singleton.mp member
  exact ⟨index, here, above, below⟩

structure Extends (before after : Emitter) : Prop where
  code : before.code <+: after.code
  fixups : ∃ later, after.fixups = before.fixups ++ later ∧ Sited before.code.length after.code.length later
  sites : after.relaxedCondSites = before.relaxedCondSites
  all : after.relaxAllCond = before.relaxAllCond

namespace Extends
variable {before middle after : Emitter}

theorem refl (emitter : Emitter) : Extends emitter emitter :=
  ⟨List.prefix_rfl, ⟨[], (List.append_nil _).symm, .nil⟩, rfl, rfl⟩

theorem trans (first : Extends before middle) (second : Extends middle after) : Extends before after := by
  obtain ⟨earlier, fixed, sited⟩ := first.fixups
  obtain ⟨later, fixedLater, sitedLater⟩ := second.fixups
  refine ⟨first.code.trans second.code, ⟨earlier ++ later, ?_, ?_⟩, second.sites.trans first.sites, second.all.trans first.all⟩
  · rw [fixedLater, fixed, List.append_assoc]
  · exact sited.append sitedLater first.code.length_le second.code.length_le

end Extends

/-- How a branch is added: as it is, or with the opposite branch around an
unconditional one when its site is relaxed. -/
inductive Adds (before after : Emitter) (label : LabelId) (test : State → Bool) : Prop where
  | always (code : after.code = before.code ++ [opcodeB])
    (fixups : after.fixups = before.fixups ++ [⟨before.offset, label, .branch, none⟩]) (certain : test = fun _ => true)
  | near (word : Word) (site : Nat) (code : after.code = before.code ++ [word])
    (fixups : after.fixups = before.fixups ++ [⟨before.offset, label, .condBranch, some site⟩]) (branches : Branches word test)
    (unrelaxed : before.relaxAllCond = false)
  | around (word : Word) (code : after.code = before.code ++ [word ||| place skipOneInst 5, opcodeB])
    (fixups : after.fixups = before.fixups ++ [⟨before.offset + 4, label, .branch, none⟩])
    (inverted : Branches word fun state => !test state) (empty : word &&& condBranchOpcodeMask = word)

/-- What one instruction does to the state of a round. -/
inductive Emits (context : EmitContext) (inst : Aarch64Inst) (before after : Emitter) : Prop where
  | plain (fixups : after.fixups = before.fixups) (code : before.code <+: after.code) (labels : after.labels = before.labels)
    (nowhere : branchOf inst = none) (unnamed : ∀ id, inst ≠ .label id)
  | label (id : LabelId) (same : inst = .label id)
    (added : after = { before with labels := Function.update before.labels id (some before.offset) })
  | branch (id : LabelId) (test : State → Bool) (goes : branchOf inst = some (id, test)) (adds : Adds before after id test)
    (labels : after.labels = before.labels) (unnamed : ∀ id, inst ≠ .label id)

section Step
variable {context : EmitContext} {emitter : Emitter} {inst : Aarch64Inst} {after : Emitter}

theorem emitInst_ok (emitted : emitInst context emitter inst = .ok after) :
    ∃ piece, pieceOf context inst = .ok piece ∧ after = piece.append emitter := by
  rw [emitInst_eq] at emitted
  cases made : pieceOf context inst with
  | error stop =>
    rw [made] at emitted
    cases emitted
  | ok piece =>
    rw [made] at emitted
    cases emitted
    exact ⟨piece, rfl, rfl⟩

theorem emitCond_adds {near around : Word} {label : LabelId} {test : State → Bool} (opposite : Opposite near around test) :
    Adds emitter (emitter.emitCond near around label) label test := by
  unfold emitCond
  dsimp only
  split
  next relaxed =>
    refine .around around ?_ ?_ opposite.inverted opposite.empty
    · simp only [emitB, emit, fix, List.append_assoc, List.cons_append, List.nil_append]
    · simp only [emitB, emit, fix, offset, List.length_append, List.length_cons, List.length_nil, Nat.mul_add]
  next unrelaxed =>
    refine .near near emitter.condSiteCount rfl rfl opposite.taken ?_
    cases all : emitter.relaxAllCond with
    | false => rfl
    | true => exact absurd (by rw [relaxes, all]; rfl) unrelaxed

theorem append_labels {piece : Piece} (unnamed : ∀ id, piece ≠ .label id) : (piece.append emitter).labels = emitter.labels := by
  cases piece with
  | words code names | call symbolId | address rd target | branch label => rfl
  | label id => exact absurd rfl (unnamed id)
  | cond near around label =>
    change (emitter.emitCond near around label).labels = emitter.labels
    unfold emitCond
    dsimp only
    split
    · rfl
    · rfl

theorem append_decisions {piece : Piece} :
    (piece.append emitter).relaxedCondSites = emitter.relaxedCondSites ∧ (piece.append emitter).relaxAllCond = emitter.relaxAllCond := by
  cases piece with
  | words code names | call symbolId | address rd target | branch label | label id => exact ⟨rfl, rfl⟩
  | cond near around label =>
    change (emitter.emitCond near around label).relaxedCondSites = _ ∧ (emitter.emitCond near around label).relaxAllCond = _
    unfold emitCond
    dsimp only
    split
    · exact ⟨rfl, rfl⟩
    · exact ⟨rfl, rfl⟩

theorem emitInst_cases (emitted : emitInst context emitter inst = .ok after) : Emits context inst emitter after := by
  obtain ⟨piece, made, rfl⟩ := emitInst_ok emitted
  rcases pieceOf_cases made with ⟨nowhere, untargeted, named⟩ | ⟨label, test, goes, unnamed, ⟨rfl, certain⟩ | ⟨near, around, rfl, opposite⟩⟩
  · cases piece with
    | words code names =>
      exact .plain rfl (List.prefix_append _ _) rfl nowhere fun id same => nomatch (named id).mpr same
    | call symbolId =>
      exact .plain rfl (List.prefix_append _ _) rfl nowhere fun id same => nomatch (named id).mpr same
    | address rd target =>
      refine .plain rfl ?_ rfl nowhere fun id same => nomatch (named id).mpr same
      exact (List.prefix_append _ _).trans (List.prefix_append _ _)
    | label id => exact .label id ((named id).mp rfl) rfl
    | branch label | cond near around label => cases untargeted
  · exact .branch label test goes (.always rfl rfl certain) (append_labels nofun) unnamed
  · exact .branch label test goes (emitCond_adds opposite) (append_labels nofun) unnamed

theorem Emits.extends (emits : Emits context inst emitter after) (sites : after.relaxedCondSites = emitter.relaxedCondSites)
    (all : after.relaxAllCond = emitter.relaxAllCond) : Extends emitter after := by
  cases emits with
  | plain fixups code => exact ⟨code, ⟨[], by rw [fixups, List.append_nil], .nil⟩, sites, all⟩
  | label id same added =>
    subst added
    exact ⟨List.prefix_rfl, ⟨[], (List.append_nil _).symm, .nil⟩, rfl, rfl⟩
  | branch id test goes adds =>
    cases adds with
    | always code fixups =>
      refine ⟨code ▸ List.prefix_append _ _, ⟨_, fixups, .single rfl (Nat.le_refl _) ?_⟩, sites, all⟩
      rw [code, List.length_append]
      exact Nat.lt_succ_self _
    | near word site code fixups =>
      refine ⟨code ▸ List.prefix_append _ _, ⟨_, fixups, .single rfl (Nat.le_refl _) ?_⟩, sites, all⟩
      rw [code, List.length_append]
      exact Nat.lt_succ_self _
    | around word code fixups =>
      refine ⟨code ▸ List.prefix_append _ _, ⟨_, fixups, @Sited.single _ _ (emitter.code.length + 1) _ ?_ ?_ ?_⟩, sites, all⟩
      · exact Nat.mul_add 4 emitter.code.length 1
      · omega
      · rw [code, List.length_append]
        exact Nat.lt_succ_self _

theorem emitInst_extends (emitted : emitInst context emitter inst = .ok after) : Extends emitter after := by
  obtain ⟨piece, made, same⟩ := emitInst_ok emitted
  have kept := @append_decisions emitter piece
  rw [← same] at kept
  exact (emitInst_cases emitted).extends kept.1 kept.2

end Step

/-- A word that waits for the displacement of a fixup. -/
def Awaits (code : List Word) (fixup : Fixup) : Prop :=
  fixup.kind = .branch ∧ code[fixup.offset / 4]? = some opcodeB ∨
    fixup.kind = .condBranch ∧ fixup.site.isSome ∧ ∃ word test, code[fixup.offset / 4]? = some word ∧ Branches word test

structure Laid (emitter : Emitter) : Prop where
  sited : Sited 0 emitter.code.length emitter.fixups
  awaits : ∀ fixup ∈ emitter.fixups, Awaits emitter.code fixup
  labels : ∀ label offset, emitter.labels label = some offset → ∃ index, offset = 4 * index ∧ index ≤ emitter.code.length
  relaxed : emitter.relaxAllCond → ∀ fixup ∈ emitter.fixups, fixup.kind = .branch

section Laid
variable {context : EmitContext} {before after : Emitter} {insts : List Aarch64Inst}

theorem found_of_prefix {code longer : List Word} {index : Nat} {word : Word} (grows : code <+: longer)
    (found : code[index]? = some word) : longer[index]? = some word := by
  obtain ⟨rest, rfl⟩ := grows
  rw [List.getElem?_append_left (List.getElem?_eq_some_iff.mp found).1, found]

theorem Awaits.mono {code longer : List Word} {fixup : Fixup} (awaits : Awaits code fixup) (grows : code <+: longer) :
    Awaits longer fixup := by
  rcases awaits with ⟨kind, found⟩ | ⟨kind, site, word, test, found, branches⟩
  · exact .inl ⟨kind, found_of_prefix grows found⟩
  · exact .inr ⟨kind, site, word, test, found_of_prefix grows found, branches⟩

theorem Adds.fixup {label : LabelId} {test : State → Bool} (adds : Adds before after label test) :
    ∃ fixup, after.fixups = before.fixups ++ [fixup] ∧ fixup.label = label ∧ Awaits after.code fixup ∧
      (before.relaxAllCond → fixup.kind = .branch) := by
  have last : 4 * before.code.length / 4 = before.code.length := Nat.mul_div_cancel_left _ (by decide)
  cases adds with
  | always code fixups =>
    refine ⟨_, fixups, rfl, .inl ⟨rfl, ?_⟩, fun _ => rfl⟩
    rw [code, offset, last, List.getElem?_concat_length]
  | near word site code fixups branches unrelaxed =>
    refine ⟨_, fixups, rfl, .inr ⟨rfl, rfl, word, test, ?_, branches⟩, fun all => ?_⟩
    · rw [code, offset, last, List.getElem?_concat_length]
    · rw [unrelaxed] at all
      cases all
  | around word code fixups =>
    refine ⟨_, fixups, rfl, .inl ⟨rfl, ?_⟩, fun _ => rfl⟩
    have next : (4 * before.code.length + 4) / 4 = before.code.length + 1 := by omega
    rw [code, offset, next, List.getElem?_append_right (by omega)]
    simp

theorem emitInst_laid {inst : Aarch64Inst} (laid : Laid before) (emitted : emitInst context before inst = .ok after) :
    Laid after := by
  have extends' := emitInst_extends emitted
  obtain ⟨later, fixups, sited⟩ := extends'.fixups
  have grows := extends'.code.length_le
  have sited' : Sited 0 after.code.length after.fixups := by
    rw [fixups]
    exact laid.sited.append sited (Nat.zero_le _) grows
  have bounded : ∀ label offset, before.labels label = some offset →
      ∃ index, offset = 4 * index ∧ index ≤ after.code.length := by
    intro label offset known
    obtain ⟨index, here, within⟩ := laid.labels label offset known
    exact ⟨index, here, within.trans grows⟩
  cases emitInst_cases emitted with
  | plain same code labels =>
    refine ⟨sited', ?_, labels ▸ bounded, ?_⟩
    · rw [same]
      exact fun fixup member => (laid.awaits fixup member).mono code
    · rw [same, extends'.all]
      exact laid.relaxed
  | label id same added =>
    subst added
    refine ⟨sited', laid.awaits, ?_, laid.relaxed⟩
    intro label offset known
    dsimp only at known
    by_cases here : label = id
    · subst here
      rw [Function.update_self] at known
      cases known
      exact ⟨before.code.length, rfl, Nat.le_refl _⟩
    · rw [Function.update_of_ne here] at known
      exact bounded label offset known
  | branch id test goes adds labels =>
    obtain ⟨fixup, added, target, awaits, always⟩ := adds.fixup
    refine ⟨sited', ?_, labels ▸ bounded, ?_⟩
    · intro other member
      rw [added, List.mem_append, List.mem_singleton] at member
      rcases member with old | rfl
      · exact (laid.awaits other old).mono extends'.code
      · exact awaits
    · intro all other member
      rw [extends'.all] at all
      rw [added, List.mem_append, List.mem_singleton] at member
      rcases member with old | rfl
      · exact laid.relaxed all other old
      · exact always all

theorem emitAll_laid (laid : Laid before) (emitted : insts.foldlM (emitInst context) before = .ok after) : Laid after :=
  foldlM_keeps Laid (fun _ _ _ _ held step => emitInst_laid held step) laid emitted

theorem emitAll_extends (emitted : insts.foldlM (emitInst context) before = .ok after) : Extends before after :=
  foldlM_keeps (Extends before) (fun _ _ _ _ held step => held.trans (emitInst_extends step)) (.refl before) emitted

theorem emitAll_targets (emitted : insts.foldlM (emitInst context) before = .ok after) :
    ∀ fixup ∈ after.fixups, fixup ∈ before.fixups ∨ ∃ inst ∈ insts, ∃ test, branchOf inst = some (fixup.label, test) := by
  refine foldlM_keeps (fun emitter => ∀ fixup ∈ emitter.fixups,
    fixup ∈ before.fixups ∨ ∃ inst ∈ insts, ∃ test, branchOf inst = some (fixup.label, test)) ?_ (fun _ member => .inl member) emitted
  intro inst inside middle next held step fixup member
  cases emitInst_cases step with
  | plain same => exact held fixup (same ▸ member)
  | label id same added =>
    subst added
    exact held fixup member
  | branch id test goes adds =>
    obtain ⟨other, added, target, _, _⟩ := adds.fixup
    rw [added, List.mem_append, List.mem_singleton] at member
    rcases member with old | rfl
    · exact held fixup old
    · exact .inr ⟨inst, inside, test, target ▸ goes⟩

theorem emitAll_labels_kept {label : LabelId} (absent : .label label ∉ insts)
    (emitted : insts.foldlM (emitInst context) before = .ok after) : after.labels label = before.labels label := by
  refine foldlM_keeps (fun emitter => emitter.labels label = before.labels label) ?_ rfl emitted
  intro inst inside middle next held step
  cases emitInst_cases step with
  | plain _ _ labels => rw [labels, held]
  | label id same added =>
    subst added
    have apart : label ≠ id := by
      rintro rfl
      exact absent (same ▸ inside)
    rw [← held]
    exact Function.update_of_ne apart _ _
  | branch _ _ _ _ labels => rw [labels, held]

theorem emitAll_label {label : LabelId} {rest : List Aarch64Inst} (absent : .label label ∉ rest)
    (emitted : (.label label :: rest).foldlM (emitInst context) before = .ok after) :
    after.labels label = some before.offset := by
  obtain ⟨middle, step, others⟩ := foldlM_cons_ok emitted
  rw [emitAll_labels_kept absent others]
  cases emitInst_cases step with
  | plain _ _ _ _ unnamed => exact absurd rfl (unnamed label)
  | label id same added =>
    cases same
    subst added
    exact Function.update_self _ _ _
  | branch _ _ _ _ _ unnamed => exact absurd rfl (unnamed label)

theorem last_label {label : LabelId} (member : Aarch64Inst.label label ∈ insts) :
    ∃ front rest, insts = front ++ .label label :: rest ∧ .label label ∉ rest := by
  induction insts with
  | nil => cases member
  | cons inst rest ih =>
    by_cases later : Aarch64Inst.label label ∈ rest
    · obtain ⟨front, back, same, absent⟩ := ih later
      exact ⟨inst :: front, back, by rw [same, List.cons_append], absent⟩
    · rcases List.mem_cons.mp member with rfl | inside
      · exact ⟨[], rest, rfl, later⟩
      · exact absurd inside later

theorem emitAll_labelled {label : LabelId} (member : .label label ∈ insts)
    (emitted : insts.foldlM (emitInst context) before = .ok after) : ∃ offset, after.labels label = some offset := by
  obtain ⟨front, rest, rfl, absent⟩ := last_label member
  obtain ⟨middle, _, others⟩ := foldlM_append_ok emitted
  exact ⟨middle.offset, emitAll_label absent others⟩

end Laid

end Rue.Proofs.Aarch64

/-! Every pending branch of a round is patched with its own distance. -/

namespace Rue.Proofs.Aarch64
open Rue.Lib Rue.Lib.A64 Codegen Codegen.Aarch64 Codegen.Aarch64.Emitter

def patch (fixup : Fixup) (distance : Int) (word : Word) : Word :=
  match fixup.kind with
  | .branch => patchBranch word distance
  | .condBranch => patchCondBranch word distance

def InRange (fixup : Fixup) (distance : Int) : Prop :=
  match fixup.kind with
  | .branch => BranchRange distance
  | .condBranch => CondBranchRange distance

section Patch
variable {emitter : Emitter} {fixup : Fixup} {distance : Int} {code : List Word}

theorem applyFixup_ok (measured : fixupDistance emitter fixup = .ok distance) (inRange : InRange fixup distance) :
    applyFixup emitter code fixup = .ok (code.modify (fixup.offset / 4) (patch fixup distance)) := by
  unfold applyFixup
  rw [measured]
  unfold InRange at inRange
  unfold patch
  change (match fixup.kind with | .branch => _ | .condBranch => _) = _
  cases kind : fixup.kind with
  | branch =>
    rw [kind] at inRange
    exact if_pos inRange
  | condBranch =>
    rw [kind] at inRange
    exact if_pos inRange

theorem applyFixups_patches (fixups : List Fixup) (order : fixups.Pairwise fun first second => first.offset < second.offset)
    (aligned : ∀ fixup ∈ fixups, 4 ∣ fixup.offset)
    (inRange : ∀ fixup ∈ fixups, ∃ distance, fixupDistance emitter fixup = .ok distance ∧ InRange fixup distance)
    (code : List Word) :
    ∃ patched, fixups.foldlM (applyFixup emitter) code = .ok patched ∧
      (∀ fixup ∈ fixups, ∀ distance, fixupDistance emitter fixup = .ok distance →
        patched[fixup.offset / 4]? = code[fixup.offset / 4]?.map (patch fixup distance)) ∧
      ∀ index, (∀ fixup ∈ fixups, fixup.offset / 4 ≠ index) → patched[index]? = code[index]? := by
  induction fixups generalizing code with
  | nil => exact ⟨code, rfl, nofun, fun _ _ => rfl⟩
  | cons first rest ih =>
    obtain ⟨before, ordered⟩ := List.pairwise_cons.mp order
    obtain ⟨distance, measured, here⟩ := inRange first List.mem_cons_self
    obtain ⟨patched, done, sites, others⟩ := ih ordered (fun fixup member => aligned fixup (List.mem_cons_of_mem _ member))
      (fun fixup member => inRange fixup (List.mem_cons_of_mem _ member)) (code.modify (first.offset / 4) (patch first distance))
    have apart : ∀ fixup ∈ rest, fixup.offset / 4 ≠ first.offset / 4 := by
      intro fixup member same
      have later := before fixup member
      have divides := aligned fixup (List.mem_cons_of_mem _ member)
      have divided := aligned first List.mem_cons_self
      omega
    refine ⟨patched, ?_, ?_, ?_⟩
    · rw [List.foldlM_cons, applyFixup_ok measured here]
      exact done
    · intro fixup member other same
      rcases List.mem_cons.mp member with rfl | later
      · rw [measured] at same
        cases same
        rw [others _ apart, List.getElem?_modify_eq]
        rfl
      · rw [sites fixup later other same, List.getElem?_modify_ne _ _ (Ne.symm (apart fixup later))]
    · intro index elsewhere
      rw [others index (fun fixup member => elsewhere fixup (List.mem_cons_of_mem _ member)),
        List.getElem?_modify_ne _ _ (elsewhere first List.mem_cons_self)]

end Patch

/-- The word a fixup stands at, the word its label stands at, and its distance. -/
structure Measured (emitter : Emitter) (fixup : Fixup) (index target : Nat) : Prop where
  site : fixup.offset = 4 * index
  label : emitter.labels fixup.label = some (4 * target)
  distance : fixupDistance emitter fixup = .ok ((target : Int) - index)
  inside : index < emitter.code.length
  reached : target ≤ emitter.code.length

section Measure
variable {emitter : Emitter} {fixup : Fixup}

theorem measured (laid : Laid emitter) (member : fixup ∈ emitter.fixups) {offset : Nat}
    (known : emitter.labels fixup.label = some offset) : ∃ index target, Measured emitter fixup index target := by
  obtain ⟨index, site, _, inside⟩ := laid.sited.within fixup member
  obtain ⟨target, rfl, reached⟩ := laid.labels _ _ known
  refine ⟨index, target, site, known, ?_, inside, reached⟩
  unfold fixupDistance
  rw [known, site]
  have aligned : ((4 * target : Nat) - (4 * index : Nat) : Int) % 4 = 0 := by
    push_cast
    omega
  have divided : ((4 * target : Nat) - (4 * index : Nat) : Int) / 4 = (target : Int) - index := by
    push_cast
    omega
  dsimp only
  rw [if_pos aligned, divided]

theorem outOfRangeCondSites_ok (fixups : List Fixup)
    (distances : ∀ fixup ∈ fixups, ∃ distance, fixupDistance emitter fixup = .ok distance) :
    ∃ sites, outOfRangeCondSites emitter fixups = .ok sites ∧
      ((∀ fixup ∈ fixups, fixup.kind = .branch) → sites = []) ∧
      (sites = [] → ∀ fixup ∈ fixups, fixup.kind = .condBranch → fixup.site.isSome →
        ∃ distance, fixupDistance emitter fixup = .ok distance ∧ CondBranchRange distance) := by
  induction fixups with
  | nil => exact ⟨[], rfl, fun _ => rfl, fun _ => nofun⟩
  | cons first rest ih =>
    obtain ⟨sites, found, none', inRange⟩ := ih fun fixup member => distances fixup (List.mem_cons_of_mem _ member)
    obtain ⟨distance, here⟩ := distances first List.mem_cons_self
    rw [outOfRangeCondSites]
    split
    next conditional =>
      rw [here, found]
      refine ⟨_, rfl, ?_, ?_⟩
      · intro branches
        have kind := branches first List.mem_cons_self
        rw [conditional] at kind
        cases kind
      · intro empty fixup member kind named
        split at empty
        next near =>
          rcases List.mem_cons.mp member with rfl | later
          · exact ⟨distance, here, near⟩
          · exact inRange empty fixup later kind named
        next far =>
          obtain ⟨site, rest'⟩ := List.append_eq_nil_iff.mp empty
          rcases List.mem_cons.mp member with rfl | later
          · rw [Option.toList_eq_nil_iff.mp site] at named
            cases named
          · exact inRange rest' fixup later kind named
    next unconditional =>
      refine ⟨sites, found, fun branches => none' fun fixup member => branches fixup (List.mem_cons_of_mem _ member), ?_⟩
      intro empty fixup member kind named
      rcases List.mem_cons.mp member with rfl | later
      · exact absurd kind unconditional
      · exact inRange empty fixup later kind named

end Measure

end Rue.Proofs.Aarch64
