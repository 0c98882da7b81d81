import Rue.Proofs.Arrangement

/-! Scheduling keeps what the program computes. A machine that is true to its
adapter runs each block to the same state in either order and reaches barriers at
the indices they had. -/

namespace Rue.Proofs.Scheduling
open Rue.Codegen Schedule Rue.Lib.Reorder Rue.Proofs.DepGraph Rue.Proofs.Arrangement

section Result
variable {Inst Reg : Type} {adapter : SchedulerAdapter Inst Reg} {items scheduled : List Inst} {order : List Nat}

/-- The scheduled list is the given list in a legal order. -/
structure Arranges (adapter : SchedulerAdapter Inst Reg) (items scheduled : List Inst) (order : List Nat) : Prop where
  segment : Segment adapter items 0 items.length order
  length : scheduled.length = items.length
  places : ∀ position index : Nat, order[position]? = some index → scheduled[position]? = items[index]?

private theorem arranges_of_sends {destination : List Nat} (segment : Segment adapter items 0 items.length order)
    (sends : Sends destination 0 order) (length : destination.length = items.length) :
    Arranges adapter items (applyPermutation items destination) order := by
  have covered : List.range destination.length ⊆ destination := by
    intro slot member
    rw [List.mem_range, length] at member
    have present : slot < order.length := by rw [segment.length]; exact member
    have sent := sends slot order[slot] (List.getElem?_eq_getElem present)
    rw [Nat.zero_add] at sent
    exact List.mem_of_getElem? sent
  have perm : (List.range destination.length).Perm destination :=
    (List.subperm_of_subset List.nodup_range covered).perm_of_length_le (by rw [List.length_range])
  obtain ⟨sameLength, moved⟩ := Permutation.applyPermutation_spec items destination length.symm perm.symm
  refine ⟨segment, sameLength, fun position index found => ?_⟩
  have sent := sends position index found
  rw [Nat.zero_add] at sent
  exact moved index position sent

theorem scheduleInstructions_arranges (adapter : SchedulerAdapter Inst Reg) (items : List Inst) :
    ∃ order, Arranges adapter items (scheduleInstructions adapter items) order := by
  unfold scheduleInstructions
  split
  next =>
    refine ⟨List.range' 0 (items.length - 0), .same (Nat.zero_le _), rfl, fun position index found => ?_⟩
    obtain ⟨_, rfl⟩ := List.getElem?_eq_some_iff.mp found
    rw [List.getElem_range', Nat.one_mul, Nat.zero_add]
  next =>
    have start : Recorded adapter items 0 ⟨0, List.range items.length, .new⟩ :=
      ⟨Nat.le_refl _, fun index _ none' => absurd none' (Nat.not_lt_zero _), List.length_range,
        fun index _ below => List.getElem?_range below, [], .same (Nat.le_refl _), fun _ _ found => by simp at found⟩
    have recorded := visitBlockEnds_spec items rfl (Nat.zero_le _) start
    dsimp only
    split
    next =>
      obtain ⟨length, _, order, segment, sends⟩ := recorded.close (Nat.le_refl _)
      exact ⟨order, arranges_of_sends segment sends length⟩
    next whole =>
      have finished := Nat.le_antisymm recorded.behind (Nat.le_of_not_lt whole)
      obtain ⟨order, segment, sends⟩ := recorded.order
      exact ⟨order, arranges_of_sends (finished ▸ segment) sends recorded.length⟩

theorem Arranges.perm (arranges : Arranges adapter items scheduled order) : scheduled.Perm items := by
  have same : scheduled.map some = order.map (items[·]?) := by
    refine List.ext_getElem? fun position => ?_
    rw [List.getElem?_map, List.getElem?_map]
    cases found : order[position]? with
    | some index =>
      have inside := (arranges.segment.bounds_of_getElem? found).2.2
      rw [arranges.places position index found, Option.map_some, List.getElem?_eq_getElem inside, Option.map_some]
    | none =>
      rw [List.getElem?_eq_none_iff, arranges.segment.length] at found
      rw [List.getElem?_eq_none (by have := arranges.length; omega)]
      rfl
  have whole : (List.range' 0 (items.length - 0)).map (items[·]?) = items.map some := by
    refine List.ext_getElem (by simp) fun index inside _ => ?_
    rw [List.getElem_map, List.getElem_map, List.getElem_range', Nat.one_mul, Nat.zero_add]
    exact List.getElem?_eq_getElem _
  refine (List.map_perm_map_iff (Option.some_injective Inst)).mp ?_
  rw [same, ← whole]
  exact arranges.segment.permutes.map _

end Result

section Reuse
variable {Inst Reg : Type} (adapter : SchedulerAdapter Inst Reg) (items : List Inst)

/-- The scheduler with new tables for every block. -/
def scheduleInstructionsFresh : List Inst :=
  if items.length < 3 then items
  else
    let record := fun blockStart blockEnd destination =>
      (recordBlockPermutation adapter items blockStart blockEnd (destination, .new)).1
    let walk := items.zipIdx.foldl (fun (walk : Nat × List Nat) (inst, blockEnd) =>
      if !adapter.isBarrier inst then walk else (blockEnd + 1, record walk.1 blockEnd walk.2))
      (0, List.range items.length)
    applyPermutation items
      (if walk.1 < items.length then record walk.1 items.length walk.2 else walk.2)

theorem recordBlockPermutation_fresh (start stop : Nat) (destination : List Nat) (scratch : Scratch) :
    (recordBlockPermutation adapter items start stop (destination, scratch)).1 =
      (recordBlockPermutation adapter items start stop (destination, .new)).1 := by
  simp only [recordBlockPermutation]
  split
  · rfl
  · rw [buildDepGraphReusing_fresh _ scratch.regs]
    rfl

private theorem walk_fresh (entries : List (Inst × Nat)) (walk : BlockWalk) (fresh : Nat × List Nat)
    (sameStart : walk.blockStart = fresh.1) (sameDestination : walk.recorded.1 = fresh.2) :
    let final := entries.foldl (visitBlockEnd adapter items) walk
    let finalFresh := entries.foldl (fun (walk : Nat × List Nat) (inst, blockEnd) =>
      if !adapter.isBarrier inst then walk
      else (blockEnd + 1, (recordBlockPermutation adapter items walk.1 blockEnd (walk.2, .new)).1)) fresh
    final.blockStart = finalFresh.1 ∧ final.recorded.1 = finalFresh.2 := by
  induction entries generalizing walk fresh with
  | nil => exact ⟨sameStart, sameDestination⟩
  | cons entry entries ih =>
    obtain ⟨inst, blockEnd⟩ := entry
    obtain ⟨blockStart, destination, scratch⟩ := walk
    obtain ⟨freshStart, freshDestination⟩ := fresh
    cases sameStart
    cases sameDestination
    apply ih
    · simp only [visitBlockEnd]
      split <;> rfl
    · simp only [visitBlockEnd]
      split
      · rfl
      · exact recordBlockPermutation_fresh adapter items _ _ _ _

/-- What one block leaves in the tables does not show in the next. -/
theorem scheduleInstructions_eq_fresh : scheduleInstructions adapter items = scheduleInstructionsFresh adapter items := by
  obtain ⟨start, destination⟩ := walk_fresh adapter items items.zipIdx ⟨0, List.range items.length, .new⟩
    (0, List.range items.length) rfl rfl
  unfold scheduleInstructions scheduleInstructionsFresh
  split
  · rfl
  · simp only [← start, ← destination]
    split
    · exact congrArg (applyPermutation items) (recordBlockPermutation_fresh adapter items _ _ _ _)
    · rfl

end Reuse

inductive Control (Label : Type) where
  | next
  | goto (label : Label)
  | halt

/-- A machine over the scheduler's resources. A label is where it is defined in
the list that runs. -/
structure Machine (Inst Label : Type) (Value : Resource → Type) where
  exec : Inst → (∀ resource, Value resource) → ∀ resource, Value resource
  control : Inst → (∀ resource, Value resource) → Control Label
  defines : Inst → Label → Bool

/-- The adapter tells the truth about the machine: labels and changes of control
are barriers; anything else writes only what it lists, from what it lists. -/
structure Respects {Inst Reg Label : Type} {Value : Resource → Type} (adapter : SchedulerAdapter Inst Reg)
    (machine : Machine Inst Label Value) : Prop where
  labels : ∀ inst label, machine.defines inst label = true → adapter.isBarrier inst = true
  straight : ∀ inst state, adapter.isBarrier inst = false → machine.control inst state = .next
  frame : ∀ inst state resource, adapter.isBarrier inst = false → ¬ Writes adapter inst resource →
    machine.exec inst state resource = state resource
  footprint : ∀ inst first second, adapter.isBarrier inst = false →
    (∀ resource, Reads adapter inst resource ∨ Writes adapter inst resource → first resource = second resource) →
    ∀ resource, Writes adapter inst resource → machine.exec inst first resource = machine.exec inst second resource

section Execution
variable {Inst Reg Label : Type} {Value : Resource → Type} {adapter : SchedulerAdapter Inst Reg}
  (machine : Machine Inst Label Value)

namespace Machine

def run (program : List Inst) : (fuel pc : Nat) → (∀ resource, Value resource) → Option (∀ resource, Value resource)
  | 0, _, _ => none
  | fuel + 1, pc, state =>
    match program[pc]? with
    | none => some state
    | some inst =>
      match machine.control inst state with
      | .next => run program fuel (pc + 1) (machine.exec inst state)
      | .halt => some (machine.exec inst state)
      | .goto label =>
        match program.findIdx? (machine.defines · label) with
        | none => none
        | some target => run program fuel target (machine.exec inst state)

/-- The effect of the instruction at an index. -/
def execAt (program : List Inst) (state : ∀ resource, Value resource) (index : Nat) : ∀ resource, Value resource :=
  (program[index]?).elim state fun inst => machine.exec inst state

end Machine

def PlainAt (adapter : SchedulerAdapter Inst Reg) (program : List Inst) (index : Nat) : Prop :=
  ∃ inst, program[index]? = some inst ∧ adapter.isBarrier inst = false

variable {machine}

theorem exec_comm (respects : Respects adapter machine) {first second : Inst} (firstPlain : adapter.isBarrier first = false)
    (secondPlain : adapter.isBarrier second = false)
    (forward : ∀ resource, Writes adapter first resource → ¬ (Reads adapter second resource ∨ Writes adapter second resource))
    (backward : ∀ resource, Reads adapter first resource → ¬ Writes adapter second resource)
    (state : ∀ resource, Value resource) :
    machine.exec first (machine.exec second state) = machine.exec second (machine.exec first state) := by
  have unread : ∀ resource, Reads adapter first resource ∨ Writes adapter first resource →
      machine.exec second state resource = state resource := by
    intro resource touched
    apply respects.frame second state resource secondPlain
    exact touched.elim (backward resource) fun writes overwritten => forward resource writes (Or.inr overwritten)
  have unread' : ∀ resource, Reads adapter second resource ∨ Writes adapter second resource →
      machine.exec first state resource = state resource := by
    intro resource touched
    apply respects.frame first state resource firstPlain
    exact fun writes => forward resource writes touched
  funext resource
  by_cases writesFirst : Writes adapter first resource
  · rw [respects.footprint first _ state firstPlain unread resource writesFirst,
      respects.frame second _ resource secondPlain fun writes => forward resource writesFirst (Or.inr writes)]
  by_cases writesSecond : Writes adapter second resource
  · rw [respects.frame first _ resource firstPlain writesFirst,
      respects.footprint second _ state secondPlain unread' resource writesSecond]
  · rw [respects.frame first _ resource firstPlain writesFirst, respects.frame second _ resource secondPlain writesSecond,
      respects.frame second _ resource secondPlain writesSecond, respects.frame first _ resource firstPlain writesFirst]

theorem run_straight (respects : Respects adapter machine) {program : List Inst} (count fuel : Nat) {pc : Nat}
    (plain : ∀ index, pc ≤ index → index < pc + count → PlainAt adapter program index) (state : ∀ resource, Value resource) :
    machine.run program fuel pc state =
      machine.run program (fuel - count) (pc + count) ((List.range' pc count).foldl (machine.execAt program) state) := by
  induction count generalizing fuel pc state with
  | zero => rfl
  | succ count ih =>
    cases fuel with
    | zero => rw [Nat.zero_sub]; rfl
    | succ fuel =>
      obtain ⟨inst, found, ordinary⟩ := plain pc (Nat.le_refl _) (by omega)
      rw [Nat.add_sub_add_right, List.range'_succ, List.foldl_cons, ← Nat.add_assoc, Nat.add_right_comm]
      rw [← ih fuel fun index above below => plain index (by omega) (by omega)]
      simp only [Machine.run, Machine.execAt, found, respects.straight inst state ordinary, Option.elim_some]

end Execution

section Refinement
variable {Inst Reg Label : Type} {Value : Resource → Type} {adapter : SchedulerAdapter Inst Reg}
  {machine : Machine Inst Label Value} {items scheduled : List Inst} {order : List Nat}

/-- The instructions in front of an index are the same ones in both lists. -/
def Aligned (order : List Nat) (pc : Nat) : Prop :=
  ∀ position index : Nat, order[position]? = some index → (position < pc ↔ index < pc)

theorem Arranges.aligned_barrier (arranges : Arranges adapter items scheduled order) {index : Nat}
    (barrier : BarrierAt adapter items index) : Aligned order index := by
  obtain ⟨inst, found, isBarrier⟩ := barrier
  have inside := (List.getElem?_eq_some_iff.mp found).1
  intro position other place
  have := arranges.segment.blocks index (Nat.zero_le _) inside ⟨inst, found, isBarrier⟩ position other place
  rwa [Nat.zero_add] at this

theorem Arranges.inj (arranges : Arranges adapter items scheduled order) {first second index : Nat}
    (foundFirst : order[first]? = some index) (foundSecond : order[second]? = some index) : first = second := by
  have nodup : order.Nodup := arranges.segment.permutes.nodup_iff.mpr List.nodup_range'
  exact (List.getElem?_inj (List.getElem?_eq_some_iff.mp foundFirst).1 nodup).mp (foundFirst.trans foundSecond.symm)

theorem Arranges.aligned_after (arranges : Arranges adapter items scheduled order) {index : Nat}
    (barrier : BarrierAt adapter items index) : Aligned order (index + 1) := by
  have inside : index < items.length := by
    obtain ⟨inst, found, _⟩ := barrier
    exact (List.getElem?_eq_some_iff.mp found).1
  have fixed := arranges.segment.barriers index (Nat.zero_le _) inside barrier
  rw [Nat.sub_zero] at fixed
  intro position other place
  have before := arranges.aligned_barrier barrier position other place
  have same : position = index ↔ other = index := by
    constructor
    · rintro rfl
      exact Option.some.inj (place.symm.trans fixed)
    · rintro rfl
      exact arranges.inj place fixed
  omega

theorem Arranges.resolves (arranges : Arranges adapter items scheduled order) (respects : Respects adapter machine)
    (label : Label) : scheduled.findIdx? (machine.defines · label) = items.findIdx? (machine.defines · label) := by
  have same : scheduled.map (machine.defines · label) = items.map (machine.defines · label) := by
    refine List.ext_getElem (by rw [List.length_map, List.length_map, arranges.length]) fun position _ inside => ?_
    rw [List.length_map] at inside
    have present : position < order.length := by rw [arranges.segment.length]; exact inside
    have place := List.getElem?_eq_getElem present
    have bounds := (arranges.segment.bounds_of_getElem? place).2.2
    have moved := arranges.places position order[position] place
    rw [List.getElem_map, List.getElem_map]
    rw [List.getElem?_eq_getElem bounds, List.getElem?_eq_some_iff] at moved
    obtain ⟨_, moved⟩ := moved
    rw [moved]
    by_cases fixed : order[position] = position
    · simp only [fixed]
    · have unlabelled : ∀ index (small : index < items.length), order[index]? ≠ some index →
          machine.defines items[index] label = false := by
        intro index small elsewhere
        by_contra labelled
        have barrier := respects.labels items[index] label (by simpa using labelled)
        have kept := arranges.segment.barriers index (Nat.zero_le _) small ⟨_, List.getElem?_eq_getElem small, barrier⟩
        rw [Nat.sub_zero] at kept
        exact elsewhere kept
      rw [unlabelled order[position] bounds fun kept => fixed (arranges.inj kept place),
        unlabelled position inside fun kept => fixed (Option.some.inj (place.symm.trans kept))]
  have mapped := congrArg (List.findIdx? id) same
  rwa [List.findIdx?_map, List.findIdx?_map] at mapped

theorem Arranges.block (arranges : Arranges adapter items scheduled order) (respects : Respects adapter machine)
    {pc count : Nat} (start : Aligned order pc) (stop : Aligned order (pc + count))
    (plain : ∀ index, pc ≤ index → index < pc + count → PlainAt adapter items index) :
    (∀ index, pc ≤ index → index < pc + count → PlainAt adapter scheduled index) ∧
      ∀ state, (List.range' pc count).foldl (machine.execAt scheduled) state =
        (List.range' pc count).foldl (machine.execAt items) state := by
  have within : ∀ position, pc ≤ position → position < pc + count →
      ∃ index, order[position]? = some index ∧ pc ≤ index ∧ index < pc + count := by
    intro position above below
    obtain ⟨inst, found, _⟩ := plain position above below
    have inside : position < order.length := by
      rw [arranges.segment.length]
      exact (List.getElem?_eq_some_iff.mp found).1
    have place := List.getElem?_eq_getElem inside
    have left := start position _ place
    have right := stop position _ place
    exact ⟨_, place, by omega, by omega⟩
  constructor
  · intro position above below
    obtain ⟨index, place, indexAbove, indexBelow⟩ := within position above below
    obtain ⟨inst, found, ordinary⟩ := plain index indexAbove indexBelow
    exact ⟨inst, (arranges.places position index place).trans found, ordinary⟩
  let after := (List.range' pc count).map fun position => order[position]?.getD 0
  have at' : ∀ offset < count, after[offset]? = order[pc + offset]? := by
    intro offset small
    obtain ⟨index, place, _⟩ := within (pc + offset) (by omega) (by omega)
    simp only [after, List.getElem?_map, List.getElem?_range' small, Nat.one_mul, place, Option.map_some, Option.getD_some]
  have afterNodup : after.Nodup := by
    refine List.Nodup.map_on ?_ List.nodup_range'
    intro first firstIn second secondIn same
    rw [List.mem_range'_1] at firstIn secondIn
    obtain ⟨_, foundFirst, _⟩ := within first firstIn.1 firstIn.2
    obtain ⟨_, foundSecond, _⟩ := within second secondIn.1 secondIn.2
    rw [foundFirst, foundSecond, Option.getD_some, Option.getD_some] at same
    exact arranges.inj foundFirst (same ▸ foundSecond)
  have perm : after.Perm (List.range' pc count) := by
    refine (List.subperm_of_subset afterNodup ?_).perm_of_length_le (by simp [after])
    intro index member
    obtain ⟨position, inside, rfl⟩ := List.mem_map.mp member
    rw [List.mem_range'_1] at inside
    obtain ⟨index, place, bounds⟩ := within position inside.1 inside.2
    rw [place, Option.getD_some]
    exact List.mem_range'_1.mpr bounds
  intro state
  have renamed : (List.range' pc count).foldl (machine.execAt scheduled) state = after.foldl (machine.execAt items) state := by
    simp only [after, List.foldl_map]
    refine List.foldl_ext _ _ _ fun state position member => ?_
    rw [List.mem_range'_1] at member
    obtain ⟨index, place, _⟩ := within position member.1 member.2
    simp only [Machine.execAt, place, Option.getD_some, arranges.places position index place]
  rw [renamed]
  let depends := fun first second =>
    ∃ resource, Conflicts (ReadsAt adapter items resource) (WritesAt adapter items resource) first second
  have commutes : ∀ first ∈ List.range' pc count, ∀ second ∈ List.range' pc count, ¬ depends first second → ∀ state,
      machine.execAt items (machine.execAt items state second) first =
        machine.execAt items (machine.execAt items state first) second := by
    intro first firstIn second secondIn independent state
    rw [List.mem_range'_1] at firstIn secondIn
    obtain ⟨one, foundOne, onePlain⟩ := plain first firstIn.1 firstIn.2
    obtain ⟨two, foundTwo, twoPlain⟩ := plain second secondIn.1 secondIn.2
    simp only [Machine.execAt, foundOne, foundTwo, Option.elim_some]
    refine exec_comm respects onePlain twoPlain ?_ ?_ state
    · intro resource writes touched
      exact independent ⟨resource, Or.inl ⟨⟨one, foundOne, writes⟩,
        touched.imp (⟨two, foundTwo, ·⟩) (⟨two, foundTwo, ·⟩)⟩⟩
    · intro resource reads writes
      exact independent ⟨resource, Or.inr ⟨⟨one, foundOne, reads⟩, two, foundTwo, writes⟩⟩
  have kept : ∀ first second, Precedes (List.range' pc count) first second → depends first second →
      Precedes after first second := by
    rintro first second precedes ⟨resource, conflicts⟩
    obtain ⟨early, late, earlier, foundEarly, foundLate⟩ := precedes_iff_getElem?.mp precedes
    rw [List.getElem?_eq_some_iff] at foundEarly foundLate
    obtain ⟨earlySmall, rfl⟩ := foundEarly
    obtain ⟨lateSmall, rfl⟩ := foundLate
    rw [List.length_range'] at earlySmall lateSmall
    rw [List.getElem_range', List.getElem_range', Nat.one_mul, Nat.one_mul] at conflicts ⊢
    obtain ⟨_, foundLast, _⟩ := plain (pc + late) (by omega) (by omega)
    have inside := (List.getElem?_eq_some_iff.mp foundLast).1
    have kept := arranges.segment.ordered resource _ _ (Nat.zero_le _) (Nat.add_lt_add_left earlier pc) inside conflicts
    obtain ⟨front, back, sooner, foundFront, foundBack⟩ := precedes_iff_getElem?.mp kept
    have frontStart := start front _ foundFront
    have backStop := stop back _ foundBack
    refine precedes_iff_getElem?.mpr ⟨front - pc, back - pc, by omega, ?_, ?_⟩
    · rw [at' _ (by omega), show pc + (front - pc) = front by omega, foundFront]
    · rw [at' _ (by omega), show pc + (back - pc) = back by omega, foundBack]
  exact foldl_eq_of_reorder commutes List.nodup_range' perm kept state

/-- From an index where the lists are aligned, both run alike. -/
theorem Arranges.run_eq (arranges : Arranges adapter items scheduled order) (respects : Respects adapter machine)
    (fuel : Nat) {pc : Nat} (aligned : Aligned order pc) (state : ∀ resource, Value resource) :
    machine.run scheduled fuel pc state = machine.run items fuel pc state := by
  induction fuel using Nat.strongRecOn generalizing pc state with
  | ind fuel ih =>
    -- The rest of the block that the program counter is in.
    obtain ⟨count, plain, ends⟩ : ∃ count, (∀ index, pc ≤ index → index < pc + count → PlainAt adapter items index) ∧
        ¬ PlainAt adapter items (pc + count) := by
      classical
      have stops : ∃ count, ¬ PlainAt adapter items (pc + count) := by
        refine ⟨items.length, fun ⟨inst, found, _⟩ => ?_⟩
        have := (List.getElem?_eq_some_iff.mp found).1
        omega
      refine ⟨Nat.find stops, fun index above below => ?_, Nat.find_spec stops⟩
      have earlier := Nat.find_min stops (show index - pc < Nat.find stops by omega)
      rwa [not_not, show pc + (index - pc) = index by omega] at earlier
    have alignedStop : Aligned order (pc + count) := by
      by_cases barrier : BarrierAt adapter items (pc + count)
      · exact arranges.aligned_barrier barrier
      · have past : items.length ≤ pc + count := by
          by_contra inside
          have below := Nat.lt_of_not_le inside
          have found := List.getElem?_eq_getElem below
          cases kind : adapter.isBarrier items[pc + count] with
          | true => exact barrier ⟨_, found, kind⟩
          | false => exact ends ⟨_, found, kind⟩
        intro position index place
        have := arranges.segment.bounds_of_getElem? place
        omega
    obtain ⟨scheduledPlain, sameState⟩ := arranges.block respects aligned alignedStop plain
    rw [run_straight respects count fuel scheduledPlain, run_straight respects count fuel plain, sameState]
    generalize (List.range' pc count).foldl (machine.execAt items) state = state
    cases left : fuel - count with
    | zero => rfl
    | succ rest =>
      unfold Machine.run
      cases found : items[pc + count]? with
      | none =>
        rw [List.getElem?_eq_none_iff] at found
        rw [List.getElem?_eq_none (by rw [arranges.length]; exact found)]
      | some inst =>
        have barrier : BarrierAt adapter items (pc + count) := by
          refine ⟨inst, found, ?_⟩
          by_contra ordinary
          exact ends ⟨inst, found, by simpa using ordinary⟩
        have inside := (List.getElem?_eq_some_iff.mp found).1
        have fixed := arranges.segment.barriers _ (Nat.zero_le _) inside barrier
        rw [Nat.sub_zero] at fixed
        rw [arranges.places _ _ fixed, found]
        dsimp only
        split
        · exact ih rest (by omega) (arranges.aligned_after barrier) _
        · rfl
        next label _ =>
          rw [arranges.resolves respects label]
          split
          · rfl
          next target resolved =>
            obtain ⟨targetIn, defined, _⟩ := List.findIdx?_eq_some_iff_getElem.mp resolved
            exact ih rest (by omega) (arranges.aligned_barrier ⟨_, List.getElem?_eq_getElem targetIn,
              respects.labels _ label defined⟩) _

end Refinement

section Claim
variable {Inst Reg : Type} (adapter : SchedulerAdapter Inst Reg) (items : List Inst)

/-- Scheduling is a legal permutation with the same runs, whatever tables it uses. -/
theorem scheduleInstructions_refines :
    (scheduleInstructions adapter items).Perm items ∧
      (∃ order, Arranges adapter items (scheduleInstructions adapter items) order) ∧
      scheduleInstructions adapter items = scheduleInstructionsFresh adapter items ∧
      ∀ {Label : Type} {Value : Resource → Type} (machine : Machine Inst Label Value), Respects adapter machine →
        ∀ fuel state, machine.run (scheduleInstructions adapter items) fuel 0 state = machine.run items fuel 0 state := by
  obtain ⟨order, arranges⟩ := scheduleInstructions_arranges adapter items
  refine ⟨arranges.perm, ⟨order, arranges⟩, scheduleInstructions_eq_fresh adapter items, ?_⟩
  intro Label Value machine respects fuel state
  exact arranges.run_eq respects fuel (fun _ _ _ => by simp) state

/-- A target whose only instruction copies a register. -/
def copyAdapter : SchedulerAdapter (Nat × Nat) Nat where
  regClass _ := .gp
  regIndex reg := reg
  latency inst := inst.2
  isBarrier _ := false
  accessesMemory _ := false
  regsRead inst := [inst.2]
  regsWritten inst := [inst.1]
  clobbers _ := []
  writesFlags _ := false
  readsFlags _ := false

def copyMachine : Machine (Nat × Nat) Empty fun _ => Nat where
  exec inst state := Function.update state (.reg .gp inst.1) (state (.reg .gp inst.2))
  control _ _ := .next
  defines _ _ := false

theorem copyMachine_respects : Respects copyAdapter copyMachine := by
  have names : ∀ reg kind index, Names copyAdapter [reg] kind index ↔ Resource.reg .gp reg = .reg kind index := by
    intro reg kind index
    simp [Names, copyAdapter]
  refine ⟨fun _ label => label.elim, fun _ _ _ => rfl, ?_, ?_⟩
  · intro inst state resource _ unwritten
    apply Function.update_of_ne
    rintro rfl
    exact unwritten (Or.inl ((names _ _ _).mpr rfl))
  · intro inst first second _ agree resource writes
    have source := agree (.reg .gp inst.2) (Or.inl ((names _ _ _).mpr rfl))
    cases resource with
    | reg kind index =>
      have target : Resource.reg .gp inst.1 = .reg kind index := by
        rcases writes with written | clobbered
        · exact (names _ _ _).mp written
        · simp [Names, copyAdapter] at clobbered
      rw [← target]
      simp only [copyMachine, Function.update_self, source]
    | flags => cases writes
    | memory => cases writes

theorem copies_refine :
    scheduleInstructions copyAdapter [(0, 1), (2, 0), (3, 9), (4, 3)] = [(3, 9), (4, 3), (0, 1), (2, 0)] ∧
      ∀ fuel state, copyMachine.run (scheduleInstructions copyAdapter [(0, 1), (2, 0), (3, 9), (4, 3)]) fuel 0 state =
        copyMachine.run [(0, 1), (2, 0), (3, 9), (4, 3)] fuel 0 state :=
  ⟨by decide, (scheduleInstructions_refines copyAdapter _).2.2.2 copyMachine copyMachine_respects⟩

end Claim

end Rue.Proofs.Scheduling
