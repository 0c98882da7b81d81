import Rue.Opt.Dce
import Rue.Proofs.Cfg.Machine

/-! Removing the blocks the entry does not reach. The kept blocks are numbered
densely, every edge follows the new numbers, and the graph runs as before. -/

namespace Rue.Dce

open Cfg

variable {Datum World : Type} {cfg after : Cfg} {keep : BlockId → Bool} {map : BlockId → BlockId} {block : BlockId}

theorem getElem_remap {count : Nat} (inside : block < count) (kept : keep block = true) :
    ((List.range count).filter keep)[remap keep block]? = some block := by
  obtain ⟨more, rfl⟩ := Nat.exists_eq_add_of_lt inside
  have ahead : List.range (block + more + 1) = List.range block ++ block :: (List.range more).map (block + 1 + ·) := by
    rw [Nat.add_right_comm, List.range_add, List.range_succ, List.append_assoc]
    rfl
  rw [ahead, List.filter_append, List.filter_cons_of_pos kept, remap]
  simp

/-- The kept blocks carry over, each under a new number. -/
structure Renumbered (cfg after : Cfg) (map : BlockId → BlockId) : Prop where
  entry : after.entry = map cfg.entry
  arena : after.inst = cfg.inst ∧ after.valueCount = cfg.valueCount
  block : ∀ block, cfg.Live block → after.block (map block) =
    { cfg.block block with id := map block, terminator := (cfg.block block).terminator.retarget map }
  inside : ∀ block, cfg.Live block → map block < after.blockCount
  onto : ∀ index < after.blockCount, ∃ block, cfg.Live block ∧ map block = index
  injective : ∀ first second, cfg.Live first → cfg.Live second → map first = map second → first = second
  writable : after.isParamWritable = cfg.isParamWritable

theorem renumber_renumbered (bounds : cfg.InBounds) (exact' : ∀ block < cfg.blockCount, keep block = true ↔ cfg.Live block) :
    Renumbered cfg (renumber cfg keep) (remap keep) := by
  have position : ∀ block, cfg.Live block →
      ((List.range cfg.blockCount).filter keep)[remap keep block]? = some block := by
    intro block live
    have inside := live.inBounds bounds
    exact getElem_remap inside ((exact' block inside).mpr live)
  refine ⟨rfl, ⟨rfl, rfl⟩, ?_, ?_, ?_, ?_, rfl⟩
  · intro block live
    simp only [renumber, List.getD_eq_getElem?_getD, position block live, Option.getD_some]
  · intro block live
    exact (List.getElem?_eq_some_iff.mp (position block live)).1
  · intro index inside
    have member := List.getElem_mem inside
    obtain ⟨bound, kept⟩ := List.mem_filter.mp member
    have small := List.mem_range.mp bound
    refine ⟨_, (exact' _ small).mp kept, ?_⟩
    have same := getElem_remap small kept
    obtain ⟨also, equal⟩ := List.getElem?_eq_some_iff.mp same
    exact (List.nodup_range.filter _).getElem_inj_iff.mp equal
  · intro first second firstLive secondLive same
    have firstAt := position first firstLive
    rw [same, position second secondLive] at firstAt
    exact (Option.some.inj firstAt).symm

theorem retarget_of_fixed {terminator : Terminator} (fixed : ∀ target ∈ terminator.successors, map target = target) :
    terminator.retarget map = terminator := by
  cases terminator with
  | goto target args => simp only [Terminator.retarget, fixed target (by simp [Terminator.successors])]
  | branch cond thenBlock thenArgs elseBlock elseArgs =>
    simp only [Terminator.retarget, fixed thenBlock (by simp [Terminator.successors]),
      fixed elseBlock (by simp [Terminator.successors])]
  | switch scrutinee cases default =>
    have same : cases.map (fun case => (case.1, map case.2)) = cases := by
      conv_rhs => rw [← List.map_id cases]
      apply List.map_congr_left
      intro case member
      have inside : case.2 ∈ (Terminator.switch scrutinee cases default).successors :=
        List.mem_append_left _ (List.mem_map_of_mem member)
      simp only [fixed case.2 inside, id]
    simp only [Terminator.retarget, same, fixed default (by simp [Terminator.successors])]
  | return' | unreachable | none => rfl

theorem renumbered_refl (bounds : cfg.InBounds) (numbered : ∀ block < cfg.blockCount, (cfg.block block).id = block)
    (all : ∀ block < cfg.blockCount, cfg.Live block) : Renumbered cfg cfg id := by
  refine ⟨rfl, ⟨rfl, rfl⟩, ?_, fun block live => live.inBounds bounds, fun index inside => ⟨index, all index inside, rfl⟩,
    fun _ _ _ _ same => same, rfl⟩
  intro block live
  have number := numbered block (live.inBounds bounds)
  have fixed : (cfg.block block).terminator.retarget id = (cfg.block block).terminator :=
    retarget_of_fixed fun _ _ => rfl
  rw [fixed, id]
  cases body : cfg.block block with
  | mk index params insts terminator =>
    rw [body] at number
    subst number
    rfl

/-- Keeping what the entry reaches succeeds, as every target of it is kept. -/
theorem retainBlocks_renumbered (bounds : cfg.InBounds)
    (numbered : ∀ block < cfg.blockCount, (cfg.block block).id = block)
    (exact' : ∀ block < cfg.blockCount, keep block = true ↔ cfg.Live block) :
    ∃ after map, retainBlocks cfg keep = some after ∧ Renumbered cfg after map := by
  simp only [retainBlocks]
  split
  · next whole =>
    refine ⟨cfg, id, rfl, renumbered_refl bounds numbered fun block inside => ?_⟩
    have every := List.filter_eq_self.mp (List.filter_sublist.eq_of_length (by rw [whole, List.length_range]))
    exact (exact' block inside).mp (every block (List.mem_range.mpr inside))
  · split
    · exact ⟨_, _, rfl, renumber_renumbered bounds exact'⟩
    · next stray =>
      exfalso
      apply stray
      refine ⟨(exact' _ bounds.entry).mpr .start, ?_⟩
      intro block member target edge
      obtain ⟨inside, kept⟩ := List.mem_filter.mp member
      have small := List.mem_range.mp inside
      have reached : cfg.Live target := ((exact' block small).mp kept).step edge
      exact (exact' target (bounds.targets block small target edge)).mpr reached

namespace Renumbered

variable (renumbered : Renumbered cfg after map)

include renumbered

theorem succs_map (live : cfg.Live block) : after.succs (map block) = (cfg.succs block).map map := by
  rw [succs, renumbered.block block live, Terminator.successors_retarget]
  rfl

theorem renames : Lib.Renames cfg.Edge cfg.entry after.Edge map := by
  refine ⟨?_, ?_, renumbered.injective⟩
  · intro source target live edge
    rw [Edge, renumbered.succs_map live]
    exact List.mem_map_of_mem edge
  · intro source target live edge
    rw [Edge, renumbered.succs_map live] at edge
    obtain ⟨target, member, rfl⟩ := List.mem_map.mp edge
    exact ⟨target, rfl, member⟩

theorem live_map (live : cfg.Live block) : after.Live (map block) := by
  rw [Live, renumbered.entry]
  exact renumbered.renames.reachable live

theorem live_lift (live : after.Live block) : ∃ source, cfg.Live source ∧ block = map source := by
  rw [Live, renumbered.entry] at live
  exact renumbered.renames.reachable_lift live

theorem all_live {index : BlockId} (inside : index < after.blockCount) : after.Live index := by
  obtain ⟨block, live, rfl⟩ := renumbered.onto index inside
  exact renumbered.live_map live

theorem dominates_map {first second : BlockId} (live : cfg.Live second) (dominates : cfg.Dominates first second) :
    after.Dominates (map first) (map second) := by
  rw [Dominates, renumbered.entry]
  exact renumbered.renames.dominates live dominates

theorem defines_map (live : cfg.Live block) : after.defines (map block) = cfg.defines block := by
  rw [defines, paramValues, renumbered.block block live]
  rfl

theorem available_map {done : List CfgValue} {value : CfgValue} (live : cfg.Live block)
    (available : cfg.Available block done value) : after.Available (map block) done value := by
  rcases available with param | earlier | ⟨other, inside, different, defined, dominates⟩
  · left
    rwa [paramValues, renumbered.block block live]
  · exact Or.inr (Or.inl earlier)
  · have otherLive := live_of_dominates dominates live
    refine Or.inr (Or.inr ⟨map other, renumbered.inside other otherLive, ?_, ?_, renumbered.dominates_map live dominates⟩)
    · exact fun same => different (renumbered.injective other block otherLive live same)
    · rwa [renumbered.defines_map otherLive]

theorem verified (verified : cfg.Verified) : after.Verified := by
  have bounds := verified.bounds
  refine ⟨⟨?_, ?_⟩, ?_, nodup_definitions.mpr ⟨?_, ?_⟩, ?_, ?_, ?_, ?_, ?_, ?_, ?_, ?_⟩
  · rw [renumbered.entry]
    exact renumbered.inside _ .start
  · intro index inside target edge
    obtain ⟨block, live, rfl⟩ := renumbered.onto index inside
    rw [renumbered.succs_map live] at edge
    obtain ⟨target, member, rfl⟩ := List.mem_map.mp edge
    exact renumbered.inside target (live.step member)
  · intro index inside
    obtain ⟨block, live, rfl⟩ := renumbered.onto index inside
    rw [renumbered.block block live]
  · intro index inside
    obtain ⟨block, live, rfl⟩ := renumbered.onto index inside
    rw [renumbered.defines_map live]
    exact verified.nodup_defines (live.inBounds bounds)
  · intro first firstInside second secondInside value here there
    obtain ⟨first, firstLive, rfl⟩ := renumbered.onto first firstInside
    obtain ⟨second, secondLive, rfl⟩ := renumbered.onto second secondInside
    rw [renumbered.defines_map firstLive] at here
    rw [renumbered.defines_map secondLive] at there
    rw [verified.defines_unique (firstLive.inBounds bounds) (secondLive.inBounds bounds) here there]
  · intro value member
    obtain ⟨index, inside, here⟩ := mem_definitions.mp member
    obtain ⟨block, live, rfl⟩ := renumbered.onto index inside
    rw [renumbered.defines_map live] at here
    rw [renumbered.arena.2]
    exact verified.inArena value (mem_definitions.mpr ⟨block, live.inBounds bounds, here⟩)
  · intro index inside position value ty found
    obtain ⟨block, live, rfl⟩ := renumbered.onto index inside
    rw [renumbered.block block live] at found
    rw [renumbered.arena.1]
    exact verified.params block (live.inBounds bounds) position value ty found
  · intro index inside value member
    obtain ⟨block, live, rfl⟩ := renumbered.onto index inside
    rw [renumbered.block block live] at member
    rw [renumbered.arena.1]
    exact verified.ordinary block (live.inBounds bounds) value member
  · intro index indexLive target args edge
    obtain ⟨block, live, rfl⟩ := renumbered.live_lift indexLive
    rw [renumbered.block block live, Terminator.edges_retarget] at edge
    obtain ⟨⟨target, args⟩, member, same⟩ := List.mem_map.mp edge
    obtain ⟨rfl, rfl⟩ := Prod.mk.inj same
    have reached : cfg.Live target := live.step (edge_of_edges member)
    rw [renumbered.block target reached, renumbered.arena.1]
    exact verified.edges block live target args member
  · intro index indexLive done value rest split used member
    obtain ⟨block, live, rfl⟩ := renumbered.live_lift indexLive
    rw [renumbered.block block live] at split
    rw [renumbered.arena.1] at member
    exact renumbered.available_map live (verified.uses block live done value rest split used member)
  · intro index indexLive used member
    obtain ⟨block, live, rfl⟩ := renumbered.live_lift indexLive
    rw [renumbered.block block live] at member ⊢
    rw [Terminator.uses_retarget] at member
    exact renumbered.available_map live (verified.terminatorUses block live used member)
  · intro index indexLive
    obtain ⟨block, live, rfl⟩ := renumbered.live_lift indexLive
    rw [renumbered.block block live]
    have terminated := verified.terminated block live
    cases shape : (cfg.block block).terminator with
    | none => exact absurd shape terminated
    | _ => simp [Terminator.retarget]
  · intro index indexLive cond thenBlock thenArgs elseBlock elseArgs shape
    obtain ⟨block, live, rfl⟩ := renumbered.live_lift indexLive
    rw [renumbered.block block live] at shape
    rw [renumbered.arena.1]
    cases original : (cfg.block block).terminator with
    | branch =>
      rw [original] at shape
      obtain ⟨rfl, -⟩ := Terminator.branch.inj shape
      exact verified.conditions block live _ _ _ _ _ original
    | _ => rw [original] at shape; cases shape

/-- The same point of a run, in the block's new number. -/
structure Moved (cfg : Cfg) (map : BlockId → BlockId) (config image : Config Datum World) : Prop where
  located : ∃ done, cfg.Located config done
  same : image = { config with block := map config.block }

theorem execute_same (backend : Backend Datum World) (env : CfgValue → Value Datum) (memory : Memory Datum World)
    (value : CfgValue) : backend.execute after env memory value = backend.execute cfg env memory value := by
  have arena := renumbered.arena.1
  cases cfg
  cases after
  cases arena
  rfl

theorem event_same (env : CfgValue → Value Datum) (value : CfgValue) : after.event env value = cfg.event env value := by
  have arena := renumbered.arena.1
  cases cfg
  cases after
  cases arena
  rfl

theorem exit_retarget (backend : Backend Datum World) (terminator : Terminator) (env : CfgValue → Value Datum)
    (memory : Memory Datum World) : after.exit backend (terminator.retarget map) env memory =
      match cfg.exit backend terminator env memory with
      | .jump target values => .jump (map target) values
      | .stop ending => .stop ending := by
  cases terminator with
  | branch cond thenBlock thenArgs elseBlock elseArgs =>
    simp only [Terminator.retarget, exit]
    split <;> rfl
  | switch scrutinee cases default =>
    simp only [Terminator.retarget, exit, renumbered.arena.1, selectCase_map]
  | _ => rfl

theorem simulates (backend : Backend Datum World) :
    Lib.Simulation (cfg.advance backend) (after.advance backend) (Moved cfg map) fun _ _ => 0 := by
  refine ⟨?_, ?_⟩
  · intro config image events next moved advanced
    obtain ⟨⟨done, located⟩, rfl⟩ := moved
    refine Or.inr ⟨_, { next with block := map next.block }, .refl, ?_, ?_⟩
    all_goals
      rcases advance_step advanced with ⟨value, rest, result, memory, head, executed, rfl, rfl⟩ |
        ⟨ended, rfl, target, args, leads, edge, rfl⟩
    · rw [advance_cons (by exact head), renumbered.execute_same, executed, renumbered.event_same, renumbered.arena.1]
    · have reached : cfg.Live target := located.live.step (edge_of_edges edge)
      rw [advance_nil (by exact ended), renumbered.block _ located.live, terminate, renumbered.exit_retarget, leads]
      simp only [enter, renumbered.block target reached]
    · exact ⟨⟨_, located.execute head result memory⟩, rfl⟩
    · exact ⟨⟨_, located.edge edge _ _⟩, rfl⟩
  · intro config image events ending moved stopped
    obtain ⟨⟨done, located⟩, rfl⟩ := moved
    refine ⟨_, .refl, ?_⟩
    rcases advance_stop stopped with ⟨value, rest, kind, world, head, executed, rfl, rfl⟩ | ⟨ended, rfl, leads⟩
    · rw [advance_cons (by exact head), renumbered.execute_same, executed, renumbered.event_same, renumbered.arena.1]
    · rw [advance_nil (by exact ended), renumbered.block _ located.live, terminate, renumbered.exit_retarget, leads]

theorem shows_iff (backend : Backend Datum World) (env : CfgValue → Value Datum)
    (cells : Root → Ty → Value Datum) (world : World) (trace : List (Event Datum))
    (ending : Option (Ending Datum World)) :
    cfg.Shows backend env cells world trace ending ↔ after.Shows backend env cells world trace ending := by
  apply (renumbered.simulates backend).observes_iff
  refine ⟨⟨[], Located.start env cells world⟩, ?_⟩
  simp only [start, renumbered.entry, renumbered.block _ .start, renumbered.writable]

end Renumbered

end Rue.Dce
