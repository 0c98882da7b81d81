import Rue.Proofs.Cfg.Certificate
import Rue.Proofs.Opt.Retain

/-! Dead code elimination keeps every behaviour. What is detached is used by
nothing live, and the renumbering follows every edge. -/

namespace Rue.Dce

open Cfg

variable {Datum World : Type} {cfg : Cfg} {block : BlockId} {value used : CfgValue}

theorem mem_computeReachableBlocks (bounds : cfg.InBounds) : block ∈ computeReachableBlocks cfg ↔ cfg.Live block :=
  Lib.mem_markOnPop bounds.targets bounds.entry

/-- The values live blocks define, among which the search for live values stays. -/
def DefinedLive (cfg : Cfg) (value : CfgValue) : Prop := ∃ block, cfg.Live block ∧ value ∈ cfg.defines block

theorem definedLive_of_available {done : List CfgValue} (verified : cfg.Verified) (live : cfg.Live block)
    (prefix' : done <+: (cfg.block block).insts) (available : cfg.Available block done value) :
    DefinedLive cfg value := by
  obtain ⟨other, _, defined, dominates⟩ := available.definer (live.inBounds verified.bounds) prefix'
  exact ⟨other, live_of_dominates dominates live, defined⟩

theorem definedLive_inArena (verified : cfg.Verified) (defined : DefinedLive cfg value) : value < cfg.valueCount := by
  obtain ⟨block, live, member⟩ := defined
  exact verified.inArena value (mem_definitions.mpr ⟨block, live.inBounds verified.bounds, member⟩)

theorem definedLive_uses (verified : cfg.Verified) (defined : DefinedLive cfg value)
    (member : used ∈ cfg.visitInstructionUses value) : DefinedLive cfg used := by
  obtain ⟨block, live, here⟩ := defined
  rcases mem_defines.mp here with param | inst
  · obtain ⟨⟨_, ty⟩, entry, rfl⟩ := List.mem_map.mp param
    obtain ⟨index, found⟩ := List.mem_iff_getElem?.mp entry
    have data := verified.params block (live.inBounds verified.bounds) index _ ty found
    rw [visitInstructionUses, data] at member
    cases member
  · obtain ⟨done, rest, split⟩ := List.append_of_mem inst
    exact definedLive_of_available verified live ⟨_, split.symm⟩ (verified.uses block live done value rest split used member)

theorem mem_liveRoots (verified : cfg.Verified) : value ∈ liveRoots cfg (computeReachableBlocks cfg) ↔
    ∃ block, cfg.Live block ∧ (value ∈ (cfg.block block).insts ∧ hasSideEffects cfg value = true ∨
      value ∈ (cfg.block block).terminator.uses ∨ value ∈ cfg.paramValues block) := by
  have blocks (body : BasicBlock) : body ∈ cfg.blocks.filter (·.id ∈ computeReachableBlocks cfg) ↔
      ∃ block, cfg.Live block ∧ cfg.block block = body := by
    simp only [blocks, List.mem_filter, List.mem_map, List.mem_range, decide_eq_true_eq]
    constructor
    · rintro ⟨⟨block, inside, rfl⟩, reachable⟩
      rw [verified.numbered block inside, mem_computeReachableBlocks verified.bounds] at reachable
      exact ⟨block, reachable, rfl⟩
    · rintro ⟨block, live, rfl⟩
      have inside := live.inBounds verified.bounds
      refine ⟨⟨block, inside, rfl⟩, ?_⟩
      rw [verified.numbered block inside, mem_computeReachableBlocks verified.bounds]
      exact live
  simp only [liveRoots, List.mem_append, List.mem_flatMap, blocks, List.mem_filter]
  constructor
  · rintro (⟨_, ⟨block, live, rfl⟩, member⟩ | ⟨_, ⟨block, live, rfl⟩, member⟩)
    · exact ⟨block, live, Or.inl member⟩
    · exact ⟨block, live, Or.inr member⟩
  · rintro ⟨block, live, member | member⟩
    · exact Or.inl ⟨_, ⟨block, live, rfl⟩, member⟩
    · exact Or.inr ⟨_, ⟨block, live, rfl⟩, member⟩

theorem definedLive_roots (verified : cfg.Verified) (root : value ∈ liveRoots cfg (computeReachableBlocks cfg)) :
    DefinedLive cfg value := by
  obtain ⟨block, live, ⟨member, -⟩ | member | member⟩ := (mem_liveRoots verified).mp root
  · exact ⟨block, live, mem_defines.mpr (Or.inr member)⟩
  · exact definedLive_of_available verified live (List.prefix_refl _) (verified.terminatorUses block live value member)
  · exact ⟨block, live, mem_defines.mpr (Or.inl member)⟩

theorem mem_computeLiveValues (verified : cfg.Verified) :
    value ∈ computeLiveValues cfg (computeReachableBlocks cfg) ↔
      ∃ root ∈ liveRoots cfg (computeReachableBlocks cfg),
        Lib.Reachable (fun source target => target ∈ cfg.visitInstructionUses source) root value :=
  Lib.mem_markFrom (DefinedLive cfg) (fun _ defined _ => definedLive_uses verified defined)
    (fun _ => definedLive_roots verified) (fun _ => definedLive_inArena verified)

/-- What the elimination needs to know of the values it keeps. -/
structure Keeps (cfg : Cfg) (live : List CfgValue) : Prop where
  effects : ∀ block, cfg.Live block → ∀ value ∈ (cfg.block block).insts, hasSideEffects cfg value = true → value ∈ live
  terminators : ∀ block, cfg.Live block → ∀ value ∈ (cfg.block block).terminator.uses, value ∈ live
  uses : ∀ value ∈ live, ∀ used ∈ (cfg.inst value).data.uses, used ∈ live

theorem computeLiveValues_keeps (verified : cfg.Verified) :
    Keeps cfg (computeLiveValues cfg (computeReachableBlocks cfg)) := by
  have root : ∀ value, value ∈ liveRoots cfg (computeReachableBlocks cfg) →
      value ∈ computeLiveValues cfg (computeReachableBlocks cfg) :=
    fun value member => (mem_computeLiveValues verified).mpr ⟨value, member, .start⟩
  refine ⟨?_, ?_, ?_⟩
  · exact fun block live value member effect => root value ((mem_liveRoots verified).mpr ⟨block, live, Or.inl ⟨member, effect⟩⟩)
  · exact fun block live value member => root value ((mem_liveRoots verified).mpr ⟨block, live, Or.inr (Or.inl member)⟩)
  · intro value member used use
    obtain ⟨start, started, reached⟩ := (mem_computeLiveValues verified).mp member
    exact (mem_computeLiveValues verified).mpr ⟨start, started, reached.step use⟩

section Eliminate

variable {live : List CfgValue}

/-- The same point of a run, without the dead instructions ahead. -/
structure Thinned (cfg : Cfg) (live : List CfgValue) (config image : Config Datum World) : Prop where
  located : ∃ done, cfg.Located config done
  block : image.block = config.block
  rest : image.rest = config.rest.filter (· ∈ live)
  memory : image.memory = config.memory
  env : ∀ value ∈ live, image.env value = config.env value

theorem placeOf_of_live (keeps : Keeps cfg live) {env after : CfgValue → Value Datum}
    (same : ∀ value ∈ live, after value = env value) (member : value ∈ live) :
    cfg.placeOf after value = cfg.placeOf env value := by
  have uses := keeps.uses value member
  simp only [placeOf]
  split
  · rfl
  · rfl
  · next place shape =>
    have located : place.locate after = place.locate env := locate_congr fun used inside =>
      same used (uses used (by simpa [shape, CfgInstData.uses, CfgInstData.usesKinded] using inside))
    rw [located]
  · rw [same value member]

theorem agrees_of_live (keeps : Keeps cfg live) {env after : CfgValue → Value Datum}
    (same : ∀ value ∈ live, after value = env value) (member : value ∈ live) :
    cfg.Agrees env (eliminateDeadInstructions cfg live) after id (cfg.inst value).data := by
  rintro ⟨used, kind⟩ use
  have inside := keeps.uses value member used (CfgInstData.mem_uses_of_operandUses use)
  cases kind with
  | value => exact operand_value rfl (same used inside)
  | address =>
    have place := placeOf_of_live keeps same inside
    simp only [operand, id]
    exact Prod.ext rfl place

theorem thinned_enter {config image : Config Datum World} (keeps : Keeps cfg live) (thinned : Thinned cfg live config image)
    {target : BlockId} {args : List CfgValue} (edge : (target, args) ∈ (cfg.block config.block).terminator.edges) :
    Thinned cfg live (cfg.enter target (args.map config.env) config.env config.memory)
      ((eliminateDeadInstructions cfg live).enter target (args.map image.env) image.env image.memory) := by
  obtain ⟨done, located⟩ := thinned.located
  have passed : args.map image.env = args.map config.env := by
    apply List.map_congr_left
    intro arg member
    exact thinned.env arg (keeps.terminators _ located.live arg (Terminator.edges_uses edge member))
  refine ⟨⟨[], located.edge edge _ _⟩, rfl, rfl, thinned.memory, ?_⟩
  intro value member
  simp only [enter, passed]
  exact bindParams_congr _ _ (thinned.env value member)

theorem exit_of_thinned {config image : Config Datum World} (keeps : Keeps cfg live)
    (thinned : Thinned cfg live config image) (backend : Backend Datum World) :
    (eliminateDeadInstructions cfg live).exit backend (cfg.block config.block).terminator image.env image.memory =
      cfg.exit backend (cfg.block config.block).terminator config.env config.memory := by
  obtain ⟨done, located⟩ := thinned.located
  rw [thinned.memory]
  have same : (eliminateDeadInstructions cfg live).exit backend ((cfg.block config.block).terminator.mapUses id)
      image.env config.memory = cfg.exit backend (cfg.block config.block).terminator config.env config.memory :=
    exit_congr backend config.memory
      (fun used member => thinned.env used (keeps.terminators _ located.live used member)) fun _ _ => rfl
  rwa [Terminator.mapUses_id] at same

theorem advance_of_thinned {config image : Config Datum World} (verified : cfg.Verified) (keeps : Keeps cfg live)
    (thinned : Thinned cfg live config image) {backend : Backend Datum World} {rest : List CfgValue}
    (head : config.rest = value :: rest) (member : value ∈ live) :
    (eliminateDeadInstructions cfg live).advance backend image =
      match backend.execute cfg config.env config.memory value with
      | .done result memory =>
        .step (if (cfg.inst value).data.hasObservableSideEffect then [cfg.event config.env value] else [])
          ⟨image.block, rest.filter (· ∈ live), Function.update image.env value result, memory⟩
      | .trap kind world =>
        .stop (if (cfg.inst value).data.hasObservableSideEffect then [cfg.event config.env value] else [])
          (.trapped kind world) := by
  obtain ⟨done, located⟩ := thinned.located
  have inside := located.live.inBounds verified.bounds
  have here : value ∈ (cfg.block config.block).insts := by rw [located.split, head]; simp
  have agrees := agrees_of_live keeps thinned.env member
  have data : ((eliminateDeadInstructions cfg live).inst value).data = (cfg.inst value).data.mapUses id :=
    (CfgInstData.mapUses_id _).symm
  have ahead : image.rest = value :: rest.filter (· ∈ live) := by
    rw [thinned.rest, head, List.filter_cons_of_pos (by simpa using member)]
  rw [advance_cons ahead, thinned.memory,
    execute_congr backend config.memory data rfl (verified.ordinary _ inside value here) agrees,
    event_congr data rfl agrees]
  rfl

/-- Every step is matched, that of a dead instruction by none. -/
theorem eliminate_simulates (verified : cfg.Verified) (keeps : Keeps cfg live) (backend : Backend Datum World) :
    Lib.Simulation (cfg.advance backend) ((eliminateDeadInstructions cfg live).advance backend) (Thinned cfg live)
      fun config _ => config.rest.length := by
  refine ⟨?_, ?_⟩
  · intro config image events next thinned moved
    obtain ⟨done, located⟩ := thinned.located
    rcases advance_step moved with ⟨value, rest, result, memory, head, executed, rfl, rfl⟩ |
      ⟨ended, rfl, target, args, leads, edge, rfl⟩
    · have ahead := located.execute head result memory
      have here : value ∈ (cfg.block config.block).insts := by rw [located.split, head]; simp
      by_cases member : value ∈ live
      · right
        refine ⟨image, ⟨image.block, rest.filter (· ∈ live), Function.update image.env value result, memory⟩,
          .refl, ?_, ⟨⟨_, ahead⟩, thinned.block, rfl, rfl, ?_⟩⟩
        · rw [advance_of_thinned verified keeps thinned head member, executed]
        · intro other otherLive
          by_cases same : other = value
          · simp only [same, Function.update_self]
          · simp only [Function.update_of_ne same, thinned.env other otherLive]
      · -- A dead instruction has no effect: it only defines a value nothing live reads.
        left
        have plain : hasSideEffects cfg value = false := by
          by_contra effect
          exact member (keeps.effects _ located.live value here (by simpa using effect))
        obtain ⟨steady, unseen⟩ := Bool.or_eq_false_iff.mp plain
        obtain ⟨_, quiet⟩ := execute_quiet backend config.env config.memory steady unseen
        obtain ⟨-, rfl⟩ := Execution.done.inj (executed.symm.trans quiet)
        refine ⟨by simp [unseen], ⟨⟨_, ahead⟩, thinned.block, ?_, thinned.memory, ?_⟩, by simp [head]⟩
        · rw [thinned.rest, head, List.filter_cons_of_neg (by simpa using member)]
        · intro other otherLive
          have different : other ≠ value := fun same => member (same ▸ otherLive)
          simp only [Function.update_of_ne different, thinned.env other otherLive]
    · right
      refine ⟨image, _, .refl, ?_, thinned_enter keeps thinned edge⟩
      have stuck : image.rest = [] := by rw [thinned.rest, ended]; rfl
      have passed : args.map image.env = args.map config.env := by
        apply List.map_congr_left
        intro arg member
        exact thinned.env arg (keeps.terminators _ located.live arg (Terminator.edges_uses edge member))
      have leaves := exit_of_thinned keeps thinned backend
      rw [leads] at leaves
      rw [advance_nil stuck, thinned.block, terminate]
      simp only [eliminateDeadInstructions] at leaves ⊢
      rw [leaves, passed]
  · intro config image events ending thinned stopped
    refine ⟨image, .refl, ?_⟩
    obtain ⟨done, located⟩ := thinned.located
    rcases advance_stop stopped with ⟨value, rest, kind, world, head, executed, rfl, rfl⟩ | ⟨ended, rfl, leads⟩
    · have here : value ∈ (cfg.block config.block).insts := by rw [located.split, head]; simp
      have member : value ∈ live := by
        apply keeps.effects _ located.live value here
        by_contra plain
        obtain ⟨steady, unseen⟩ := Bool.or_eq_false_iff.mp (Bool.not_eq_true _ ▸ plain)
        obtain ⟨_, quiet⟩ := execute_quiet backend config.env config.memory steady unseen
        rw [executed] at quiet
        cases quiet
      rw [advance_of_thinned verified keeps thinned head member, executed]
    · have stuck : image.rest = [] := by rw [thinned.rest, ended]; rfl
      have leaves := exit_of_thinned keeps thinned backend
      rw [leads] at leaves
      rw [advance_nil stuck, thinned.block, terminate]
      simp only [eliminateDeadInstructions] at leaves ⊢
      rw [leaves]

theorem eliminate_shows_iff (verified : cfg.Verified) (keeps : Keeps cfg live) (backend : Backend Datum World)
    (env : CfgValue → Value Datum) (cells : Root → Ty → Value Datum) (world : World) (trace : List (Event Datum))
    (ending : Option (Ending Datum World)) : cfg.Shows backend env cells world trace ending ↔
      (eliminateDeadInstructions cfg live).Shows backend env cells world trace ending := by
  apply (eliminate_simulates verified keeps backend).observes_iff
  exact ⟨⟨[], Located.start env cells world⟩, rfl, rfl, rfl, fun _ _ => rfl⟩

theorem mem_defines_eliminate : value ∈ (eliminateDeadInstructions cfg live).defines block →
    value ∈ cfg.defines block := by
  intro member
  rcases mem_defines.mp member with param | inst
  · exact mem_defines.mpr (Or.inl param)
  · exact mem_defines.mpr (Or.inr (List.mem_of_mem_filter inst))

theorem available_eliminate {done : List CfgValue} (available : cfg.Available block done value) (member : value ∈ live) :
    (eliminateDeadInstructions cfg live).Available block (done.filter (· ∈ live)) value := by
  rcases available with param | earlier | ⟨other, inside, different, defined, dominates⟩
  · exact Or.inl param
  · exact Or.inr (Or.inl (List.mem_filter.mpr ⟨earlier, by simpa using member⟩))
  · refine Or.inr (Or.inr ⟨other, inside, different, mem_defines.mpr ?_, dominates⟩)
    rcases mem_defines.mp defined with param | inst
    · exact Or.inl param
    · exact Or.inr (List.mem_filter.mpr ⟨inst, by simpa using member⟩)

theorem eliminate_verified (verified : cfg.Verified) (keeps : Keeps cfg live) :
    (eliminateDeadInstructions cfg live).Verified := by
  refine ⟨⟨verified.bounds.entry, verified.bounds.targets⟩, verified.numbered, nodup_definitions.mpr ⟨?_, ?_⟩, ?_,
    verified.params, ?_, verified.edges, ?_, ?_, verified.terminated, verified.conditions⟩
  · intro block inside
    exact (verified.nodup_defines inside).sublist (List.Sublist.append (List.Sublist.refl _) List.filter_sublist)
  · intro first firstInside second secondInside value here there
    exact verified.defines_unique firstInside secondInside (mem_defines_eliminate here) (mem_defines_eliminate there)
  · intro value member
    obtain ⟨block, inside, here⟩ := mem_definitions.mp member
    exact verified.inArena value (mem_definitions.mpr ⟨block, inside, mem_defines_eliminate here⟩)
  · intro block inside value member
    exact verified.ordinary block inside value (List.mem_of_mem_filter member)
  · intro block blockLive done value rest split used member
    obtain ⟨before, others, whole, rfl, after⟩ := List.filter_eq_append_iff.mp split
    obtain ⟨dead, behind, rfl, skipped, kept, -⟩ := List.filter_eq_cons_iff.mp after
    have valueLive : value ∈ live := by simpa using kept
    have available := verified.uses block blockLive (before ++ dead) value behind (by simpa using whole) used member
    have stays := available_eliminate available (keeps.uses value valueLive used member)
    rwa [List.filter_append, List.filter_eq_nil_iff.mpr skipped, List.append_nil] at stays
  · intro block blockLive used member
    exact available_eliminate (verified.terminatorUses block blockLive used member)
      (keeps.terminators block blockLive used member)

end Eliminate

/-- The graph the pass leaves: dead instructions detached, then renumbered. -/
theorem run_renumbered (verified : cfg.Verified) : ∃ after map,
    retainBlocks (eliminateDeadInstructions cfg (computeLiveValues cfg (computeReachableBlocks cfg)))
      (· ∈ computeReachableBlocks cfg) = some after ∧
      Renumbered (eliminateDeadInstructions cfg (computeLiveValues cfg (computeReachableBlocks cfg))) after map := by
  have thinned := eliminate_verified verified (computeLiveValues_keeps verified)
  apply retainBlocks_renumbered thinned.bounds thinned.numbered
  intro block _
  rw [decide_eq_true_eq, mem_computeReachableBlocks verified.bounds]
  exact Iff.rfl

/-- What the pass kept is live again: its roots are still attached. -/
theorem live_again {after : Cfg} {map : BlockId → BlockId} (verified : cfg.Verified)
    (renumbered : Renumbered (eliminateDeadInstructions cfg (computeLiveValues cfg (computeReachableBlocks cfg))) after map)
    (member : value ∈ computeLiveValues cfg (computeReachableBlocks cfg)) :
    value ∈ computeLiveValues after (computeReachableBlocks after) := by
  have thinned := eliminate_verified verified (computeLiveValues_keeps verified)
  have uses : after.visitInstructionUses = cfg.visitInstructionUses := by
    funext value
    rw [visitInstructionUses, renumbered.arena.1]
    rfl
  obtain ⟨root, started, reached⟩ := (mem_computeLiveValues verified).mp member
  rw [mem_computeLiveValues (renumbered.verified thinned), uses]
  refine ⟨root, ?_, reached⟩
  have rootLive := (mem_computeLiveValues verified).mpr ⟨root, started, .start⟩
  obtain ⟨block, live, why⟩ := (mem_liveRoots verified).mp started
  refine (mem_liveRoots (renumbered.verified thinned)).mpr ⟨map block, renumbered.live_map live, ?_⟩
  rw [paramValues, renumbered.block block live, Terminator.uses_retarget, hasSideEffects, renumbered.arena.1]
  rcases why with ⟨inst, effect⟩ | used | param
  · exact Or.inl ⟨List.mem_filter.mpr ⟨inst, by simpa using rootLive⟩, effect⟩
  · exact Or.inr (Or.inl used)
  · exact Or.inr (Or.inr param)

/-- Where everything is reached and live, the pass changes nothing. -/
theorem run_of_all_live (bounds : cfg.InBounds) (reached : ∀ block < cfg.blockCount, cfg.Live block)
    (all : ∀ block < cfg.blockCount, ∀ value ∈ (cfg.block block).insts,
      value ∈ computeLiveValues cfg (computeReachableBlocks cfg)) :
    ∃ after, run cfg = some (after, ⟨0, 0⟩) := by
  have every : (List.range cfg.blockCount).filter (· ∈ computeReachableBlocks cfg) = List.range cfg.blockCount := by
    apply List.filter_eq_self.mpr
    intro block member
    rw [decide_eq_true_eq, mem_computeReachableBlocks bounds]
    exact reached block (List.mem_range.mp member)
  have count : instructionCount (eliminateDeadInstructions cfg (computeLiveValues cfg (computeReachableBlocks cfg))) =
      instructionCount cfg := by
    simp only [instructionCount, blocks, List.map_map]
    congr 1
    apply List.map_congr_left
    intro block member
    have kept : (cfg.block block).insts.filter (· ∈ computeLiveValues cfg (computeReachableBlocks cfg)) =
        (cfg.block block).insts := by
      apply List.filter_eq_self.mpr
      intro value inside
      simpa using all block (List.mem_range.mp member) value inside
    simp only [Function.comp_apply, eliminateDeadInstructions, kept]
  have stays : retainBlocks (eliminateDeadInstructions cfg (computeLiveValues cfg (computeReachableBlocks cfg)))
      (· ∈ computeReachableBlocks cfg) =
        some (eliminateDeadInstructions cfg (computeLiveValues cfg (computeReachableBlocks cfg))) := by
    apply if_pos
    exact (congrArg List.length every).trans List.length_range
  refine ⟨eliminateDeadInstructions cfg (computeLiveValues cfg (computeReachableBlocks cfg)), ?_⟩
  simp only [run, stays, Option.map_some, count, Nat.sub_self]
  simp only [eliminateDeadInstructions, Nat.sub_self]

/-- Dead code elimination shows what the graph showed, and leaves only what is
needed: every block is reached, every operand is defined before it is used, and
a second run removes nothing. -/
theorem elimination_preserves (cfg : Cfg) (verified : cfg.Verified) : ∃ after stats, run cfg = some (after, stats) ∧
    (∀ (Datum World : Type) (backend : Backend Datum World) env cells world trace ending,
      cfg.Shows backend env cells world trace ending ↔ after.Shows backend env cells world trace ending) ∧
    (∀ block < after.blockCount, after.Live block ∧ (after.block block).id = block) ∧ after.Verified ∧
    ∃ again same, run after = some (again, same) ∧ same.madeProgress = false := by
  have keeps := computeLiveValues_keeps verified
  have thinned := eliminate_verified verified keeps
  obtain ⟨after, map, retained, renumbered⟩ := run_renumbered verified
  have stays := renumbered.verified thinned
  refine ⟨after, ⟨instructionCount cfg - instructionCount after, cfg.blockCount - after.blockCount⟩, ?_, ?_, ?_, stays, ?_⟩
  · rw [run, retained]
    rfl
  · intro Datum World backend env cells world trace ending
    exact (eliminate_shows_iff verified keeps backend env cells world trace ending).trans
      (renumbered.shows_iff backend env cells world trace ending)
  · exact fun block inside => ⟨renumbered.all_live inside, stays.numbered block inside⟩
  · obtain ⟨again, nothing⟩ := run_of_all_live stays.bounds (fun block inside => renumbered.all_live inside) (by
      intro index inside value member
      obtain ⟨block, live, rfl⟩ := renumbered.onto index inside
      rw [renumbered.block block live] at member
      exact live_again verified renumbered (by simpa using (List.mem_filter.mp member).2))
    exact ⟨again, ⟨0, 0⟩, nothing, rfl⟩

/-- A dead constant and a block nothing jumps to. -/
def prunable : Cfg := ofTables [⟨.const 1, .i32⟩, ⟨.const 2, .i32⟩]
  [([], [0, 1], .goto 2 []), ([], [], .return' none), ([], [], .return' (some 0))]

theorem prunable_preserved : ∃ after stats, run prunable = some (after, stats) ∧ stats = ⟨1, 1⟩ ∧ after.Verified := by
  have verified : prunable.Verified := by
    apply Verified.of_certified fun block => if block = 2 then [0, 2] else [0]
    decide
  obtain ⟨after, stats, ran, -, -, stays, -⟩ := elimination_preserves prunable verified
  have counted : (run prunable).map Prod.snd = some ⟨1, 1⟩ := by decide
  rw [ran] at counted
  exact ⟨after, stats, ran, Option.some.inj counted, stays⟩

end Rue.Dce
