import Rue.Proofs.ListSchedule

/-! Applying a permutation in place. Items travel with their destinations, and
every swap settles one more slot, so the cycles are followed to their ends. -/

namespace Rue.Proofs.Permutation
open Rue.Codegen.Schedule

section Swap
variable {α : Type} (items : List α) {first second : Nat}

theorem swap_getElem? (firstIn : first < items.length) (secondIn : second < items.length) (index : Nat) :
    (swap items first second)[index]? = items[Equiv.swap first second index]? := by
  have found : swap items first second = (items.set first items[second]).set second items[first] := by
    rw [swap, List.getElem?_eq_getElem firstIn, List.getElem?_eq_getElem secondIn]
  rw [found]
  by_cases atSecond : index = second
  · subst atSecond
    rw [Equiv.swap_apply_right, List.getElem?_set_self (by rwa [List.length_set]), List.getElem?_eq_getElem firstIn]
  by_cases atFirst : index = first
  · subst atFirst
    rw [Equiv.swap_apply_left, List.getElem?_set_ne (Ne.symm atSecond), List.getElem?_set_self firstIn,
      List.getElem?_eq_getElem secondIn]
  rw [Equiv.swap_apply_of_ne_of_ne atFirst atSecond, List.getElem?_set_ne (Ne.symm atSecond),
    List.getElem?_set_ne (Ne.symm atFirst)]

theorem length_swap : (swap items first second).length = items.length := by
  unfold swap
  split
  · simp only [List.length_set]
  · rfl

end Swap

/-- A table sends distinct slots of its own to distinct slots. -/
structure Injects (destination : List Nat) : Prop where
  inside : ∀ slot ∈ destination, slot < destination.length
  distinct : ∀ {first second slot : Nat}, destination[first]? = some slot → destination[second]? = some slot → first = second

theorem Injects.of_perm {destination : List Nat} (perm : destination.Perm (List.range destination.length)) :
    Injects destination := by
  refine ⟨fun slot member => List.mem_range.mp (perm.mem_iff.mp member), ?_⟩
  intro first second slot foundFirst foundSecond
  have nodup : destination.Nodup := perm.nodup_iff.mpr List.nodup_range
  exact (List.getElem?_inj (List.getElem?_eq_some_iff.mp foundFirst).1 nodup).mp (foundFirst.trans foundSecond.symm)

/-- Every item is still headed where it was at the start. -/
structure Carries {α : Type} (start now : List α × List Nat) : Prop where
  items : now.1.length = start.1.length
  destination : now.2.length = start.1.length
  injects : Injects now.2
  headed : ∀ {slot target : Nat} {value : α}, now.1[slot]? = some value → now.2[slot]? = some target →
    ∃ origin : Nat, start.1[origin]? = some value ∧ start.2[origin]? = some target

/-- The slots whose item has not arrived. -/
def unsettled (destination : List Nat) : Finset Nat :=
  (Finset.range destination.length).filter fun slot => destination[slot]? ≠ some slot

theorem mem_unsettled {destination : List Nat} {slot : Nat} :
    slot ∈ unsettled destination ↔ slot < destination.length ∧ destination[slot]? ≠ some slot := by
  simp only [unsettled, Finset.mem_filter, Finset.mem_range]

section Apply
variable {α : Type} {start now : List α × List Nat} {current target : Nat}

/-- A swap keeps every item headed where it was, keeps settled slots and settles
the target. -/
theorem Carries.step (carries : Carries start now) (found : now.2[current]? = some target) (moves : target ≠ current) :
    let next := (swap now.1 current target, swap now.2 current target)
    Carries start next ∧ (unsettled next.2).card < (unsettled now.2).card ∧
      ∀ slot : Nat, now.2[slot]? = some slot → next.2[slot]? = some slot := by
  have currentIn : current < now.2.length := (List.getElem?_eq_some_iff.mp found).1
  have targetIn : target < now.2.length := carries.injects.inside target (List.mem_of_getElem? found)
  have sameLength : now.1.length = now.2.length := carries.items.trans carries.destination.symm
  have itemAt := swap_getElem? now.1 (sameLength ▸ currentIn) (sameLength ▸ targetIn)
  have destinationAt := swap_getElem? now.2 currentIn targetIn
  have keeps : ∀ slot : Nat, now.2[slot]? = some slot → (swap now.2 current target)[slot]? = some slot := by
    intro slot settled
    have notCurrent : slot ≠ current := by
      rintro rfl
      exact moves (Option.some.inj (found.symm.trans settled))
    have notTarget : slot ≠ target := by
      rintro rfl
      exact notCurrent (carries.injects.distinct settled found)
    rw [destinationAt, Equiv.swap_apply_of_ne_of_ne notCurrent notTarget, settled]
  have arrived : (swap now.2 current target)[target]? = some target := by
    rw [destinationAt, Equiv.swap_apply_right, found]
  refine ⟨⟨?_, ?_, ⟨?_, ?_⟩, ?_⟩, ?_, keeps⟩
  · rw [length_swap, carries.items]
  · rw [length_swap, carries.destination]
  · intro slot member
    obtain ⟨index, place⟩ := List.getElem?_of_mem member
    rw [destinationAt] at place
    rw [length_swap]
    exact carries.injects.inside slot (List.mem_of_getElem? place)
  · intro first second slot foundFirst foundSecond
    rw [destinationAt] at foundFirst foundSecond
    exact (Equiv.swap current target).injective (carries.injects.distinct foundFirst foundSecond)
  · intro slot value destination placed heading
    rw [itemAt] at placed
    rw [destinationAt] at heading
    exact carries.headed placed heading
  · refine Finset.card_lt_card ((Finset.ssubset_iff_of_subset ?_).mpr ⟨target, ?_, ?_⟩)
    · intro slot waiting
      rw [mem_unsettled, length_swap] at waiting
      exact mem_unsettled.mpr ⟨waiting.1, fun settled => waiting.2 (keeps slot settled)⟩
    · exact mem_unsettled.mpr ⟨targetIn, fun settled => moves (carries.injects.distinct settled found)⟩
    · exact fun waiting => (mem_unsettled.mp waiting).2 arrived

/-- With as much fuel as there are unsettled slots, a cycle is followed to its end. -/
theorem settle_spec (fuel : Nat) (carries : Carries start now) (enough : (unsettled now.2).card ≤ fuel)
    (inside : current < now.2.length) :
    let next := settle current fuel now
    Carries start next ∧ next.2[current]? = some current ∧
      ∀ slot : Nat, now.2[slot]? = some slot → next.2[slot]? = some slot := by
  induction fuel generalizing now with
  | zero =>
    refine ⟨carries, ?_, fun _ settled => settled⟩
    by_contra waiting
    have member : current ∈ unsettled now.2 := mem_unsettled.mpr ⟨inside, waiting⟩
    rw [Finset.card_eq_zero.mp (Nat.le_zero.mp enough)] at member
    exact absurd member (Finset.notMem_empty _)
  | succ fuel ih =>
    have found := List.getElem?_eq_getElem inside
    simp only [settle, found, Option.getD_some]
    split
    next fixed => exact ⟨carries, by rw [found, fixed], fun _ settled => settled⟩
    next moves =>
      obtain ⟨carries', fewer, keeps⟩ := carries.step found moves
      obtain ⟨final, settled, keeps'⟩ := ih carries' (by omega) (by rw [length_swap]; exact inside)
      exact ⟨final, settled, fun slot before => keeps' slot (keeps slot before)⟩

private theorem unsettled_card (destination : List Nat) : (unsettled destination).card ≤ destination.length :=
  (Finset.card_filter_le _ _).trans_eq (Finset.card_range _)

theorem applyPermutation_spec (items : List α) (destination : List Nat) (length : items.length = destination.length)
    (perm : destination.Perm (List.range destination.length)) :
    (applyPermutation items destination).length = items.length ∧
      ∀ origin target : Nat, destination[origin]? = some target → (applyPermutation items destination)[target]? = items[origin]? := by
  have fold : ∀ bound ≤ destination.length,
      let now := (List.range bound).foldl (fun state current => settle current destination.length state) (items, destination)
      Carries (items, destination) now ∧ ∀ slot < bound, now.2[slot]? = some slot := by
    intro bound
    induction bound with
    | zero =>
      intro _
      exact ⟨⟨rfl, length.symm, .of_perm perm, fun placed heading => ⟨_, placed, heading⟩⟩, fun _ none' => by omega⟩
    | succ bound ih =>
      intro below
      obtain ⟨carries, settled⟩ := ih (by omega)
      rw [List.range_succ, List.foldl_append]
      have same : ∀ {now : List α × List Nat}, Carries (items, destination) now → now.2.length = destination.length :=
        fun carries => carries.destination.trans length
      obtain ⟨next, arrived, keeps⟩ := settle_spec destination.length carries
        ((unsettled_card _).trans_eq (same carries)) (show bound < _ by rw [same carries]; omega)
      refine ⟨next, fun slot small => ?_⟩
      rcases Nat.lt_succ_iff_lt_or_eq.mp small with earlier | rfl
      · exact keeps slot (settled slot earlier)
      · exact arrived
  obtain ⟨carries, settled⟩ := fold destination.length le_rfl
  refine ⟨carries.items, fun origin target found => ?_⟩
  have targetIn := (Injects.of_perm perm).inside target (List.mem_of_getElem? found)
  have placed : target < (applyPermutation items destination).length := by
    rw [applyPermutation, carries.items, length]
    exact targetIn
  rw [List.getElem?_eq_getElem placed]
  obtain ⟨other, value, heading⟩ := carries.headed (List.getElem?_eq_getElem placed) (settled target targetIn)
  rw [← (Injects.of_perm perm).distinct heading found]
  exact value.symm

end Apply

end Rue.Proofs.Permutation

/-! The whole scheduler is one arrangement of its input. The order of a prefix
grows by one block or one barrier at a time, and the destinations realize it. -/

namespace Rue.Proofs.Arrangement
open Rue.Codegen Schedule Rue.Lib.Reorder Rue.Proofs.DepGraph

private theorem range'_join {start middle stop : Nat} (first : start ≤ middle) (second : middle ≤ stop) :
    List.range' start (middle - start) ++ List.range' middle (stop - middle) = List.range' start (stop - start) := by
  obtain ⟨offset, rfl⟩ := Nat.exists_eq_add_of_le first
  obtain ⟨rest, rfl⟩ := Nat.exists_eq_add_of_le second
  rw [Nat.add_sub_cancel_left, Nat.add_sub_cancel_left, Nat.add_assoc, Nat.add_sub_cancel_left, List.range'_append_1]

section Segments
variable {Inst Reg : Type} (adapter : SchedulerAdapter Inst Reg) (items : List Inst)

def BarrierAt (index : Nat) : Prop := ∃ inst, items[index]? = some inst ∧ adapter.isBarrier inst = true

/-- The order of the instructions from `start` up to `stop`. -/
structure Segment (start stop : Nat) (order : List Nat) : Prop where
  bounds : start ≤ stop
  permutes : order.Perm (List.range' start (stop - start))
  barriers : ∀ index, start ≤ index → index < stop → BarrierAt adapter items index → order[index - start]? = some index
  blocks : ∀ barrier, start ≤ barrier → barrier < stop → BarrierAt adapter items barrier →
    ∀ position index, order[position]? = some index → (start + position < barrier ↔ index < barrier)
  ordered : ∀ resource first second, start ≤ first → first < second → second < stop →
    Conflicts (ReadsAt adapter items resource) (WritesAt adapter items resource) first second → Precedes order first second

variable {adapter items} {start middle stop : Nat} {order front back : List Nat}

theorem Segment.length (segment : Segment adapter items start stop order) : order.length = stop - start := by
  rw [segment.permutes.length_eq, List.length_range']

theorem Segment.mem_iff (segment : Segment adapter items start stop order) {index : Nat} :
    index ∈ order ↔ start ≤ index ∧ index < stop := by
  rw [segment.permutes.mem_iff, List.mem_range'_1]
  have := segment.bounds
  omega

theorem Segment.bounds_of_getElem? (segment : Segment adapter items start stop order) {position index : Nat}
    (found : order[position]? = some index) : start + position < stop ∧ start ≤ index ∧ index < stop := by
  have inside := (List.getElem?_eq_some_iff.mp found).1
  rw [segment.length] at inside
  exact ⟨by omega, segment.mem_iff.mp (List.mem_of_getElem? found)⟩

theorem Segment.append (first : Segment adapter items start middle front) (second : Segment adapter items middle stop back) :
    Segment adapter items start stop (front ++ back) := by
  have firstBounds := first.bounds
  have secondBounds := second.bounds
  have length := first.length
  refine ⟨by omega, ?_, ?_, ?_, ?_⟩
  · exact (first.permutes.append second.permutes).trans (.of_eq (range'_join firstBounds secondBounds))
  · intro index above below barrier
    by_cases early : index < middle
    · rw [List.getElem?_append_left (by omega)]
      exact first.barriers index above early barrier
    · rw [List.getElem?_append_right (by omega), length, show index - start - (middle - start) = index - middle by omega]
      exact second.barriers index (by omega) below barrier
  · intro barrier above below at' position index found
    by_cases early : position < front.length
    · rw [List.getElem?_append_left early] at found
      have place := first.bounds_of_getElem? found
      by_cases left : barrier < middle
      · exact first.blocks barrier above left at' position index found
      · omega
    · rw [List.getElem?_append_right (by omega)] at found
      have place := second.bounds_of_getElem? found
      by_cases left : barrier < middle
      · omega
      · have := second.blocks barrier (by omega) below at' _ index found
        omega
  · intro resource one two above earlier below conflicts
    by_cases left : two < middle
    · exact (first.ordered resource one two above earlier left conflicts).weaken (List.sublist_append_left _ _)
    by_cases right : middle ≤ one
    · exact (second.ordered resource one two right earlier below conflicts).weaken (List.sublist_append_right _ _)
    · exact .append (first.mem_iff.mpr ⟨above, by omega⟩) (second.mem_iff.mpr ⟨by omega, below⟩)

theorem Segment.same (bounds : start ≤ stop) : Segment adapter items start stop (List.range' start (stop - start)) := by
  have found : ∀ {position index : Nat}, (List.range' start (stop - start))[position]? = some index → index = start + position := by
    intro position index found
    rw [List.getElem?_eq_some_iff] at found
    obtain ⟨_, rfl⟩ := found
    rw [List.getElem_range', Nat.one_mul]
  refine ⟨bounds, .refl _, ?_, ?_, ?_⟩
  · intro index above below _
    rw [List.getElem?_range' (by omega), Nat.one_mul, show start + (index - start) = index by omega]
  · intro barrier above below _ position index place
    rw [found place]
  · intro resource first second above earlier below _
    rw [← range'_join (show start ≤ first + 1 by omega) (show first + 1 ≤ stop by omega)]
    exact .append (List.mem_range'_1.mpr (by omega)) (List.mem_range'_1.mpr (by omega))

theorem Segment.block (bounds : start ≤ stop)
    (plain : ∀ index, start ≤ index → index < stop → ¬ BarrierAt adapter items index) (scheduled : List Nat)
    (perm : scheduled.Perm (List.range (stop - start))) {edges : List (Nat × Nat)}
    (ordered : ∀ edge ∈ edges, Precedes scheduled edge.1 edge.2)
    (covers : Covers adapter ((items.drop start).take (stop - start)) (stop - start) edges) :
    Segment adapter items start stop (scheduled.map (start + ·)) := by
  have nodup : scheduled.Nodup := perm.nodup_iff.mpr List.nodup_range
  refine ⟨bounds, ?_, fun index above below barrier => absurd barrier (plain index above below),
    fun barrier above below at' => absurd at' (plain barrier above below), ?_⟩
  · rw [List.range'_eq_map_range]
    exact perm.map _
  · intro resource first second above earlier below conflicts
    have shift : ∀ offset < stop - start, ((items.drop start).take (stop - start))[offset]? = items[start + offset]? := by
      intro offset small
      rw [List.getElem?_take_of_lt small, List.getElem?_drop]
    let block := (items.drop start).take (stop - start)
    have direct : Conflicts (ReadsAt adapter block resource) (WritesAt adapter block resource) (first - start) (second - start) →
        Precedes scheduled (first - start) (second - start) :=
      ordered_of_sparse (fun earlier later => earlier.trans nodup later)
        (fun source target forward inside conflict clear =>
          ordered (source, target) (covers resource source target forward inside conflict clear)) (by omega) (by omega)
    simp only [block, Conflicts, ReadsAt, WritesAt] at direct conflicts
    rw [shift _ (by omega), shift _ (by omega), show start + (first - start) = first by omega,
      show start + (second - start) = second by omega] at direct
    have mapped : Precedes (scheduled.map (start + ·)) (start + (first - start)) (start + (second - start)) :=
      (direct conflicts).map (start + ·)
    rwa [show start + (first - start) = first by omega, show start + (second - start) = second by omega] at mapped

end Segments

private theorem foldl_place (order : List Nat) (start offset : Nat) (destination : List Nat) (distinct : order.Nodup)
    (inside : ∀ old ∈ order, start + old < destination.length) :
    let placed := (order.zipIdx offset).foldl
      (fun destination (oldOffset, newOffset) => destination.set (start + oldOffset) (start + newOffset)) destination
    placed.length = destination.length ∧
      (∀ position old : Nat, order[position]? = some old → placed[start + old]? = some (start + (offset + position))) ∧
      ∀ index : Nat, (∀ old ∈ order, start + old ≠ index) → placed[index]? = destination[index]? := by
  induction order generalizing offset destination with
  | nil => exact ⟨rfl, fun _ _ found => by simp at found, fun _ _ => rfl⟩
  | cons head order ih =>
    obtain ⟨fresh, distinct⟩ := List.nodup_cons.mp distinct
    obtain ⟨length, places, same⟩ := ih (offset + 1) (destination.set (start + head) (start + offset)) distinct
      (fun old member => by rw [List.length_set]; exact inside old (List.mem_cons_of_mem _ member))
    refine ⟨length.trans List.length_set, ?_, ?_⟩
    · intro position old found
      cases position with
      | zero =>
        obtain rfl : head = old := by simpa using found
        have kept := same (start + head) fun old member equal => fresh (by rwa [show head = old by omega])
        rw [List.getElem?_set_self (inside head List.mem_cons_self)] at kept
        exact kept
      | succ position =>
        rw [show offset + (position + 1) = offset + 1 + position by omega]
        exact places position old found
    · intro index other
      rw [List.zipIdx_cons, List.foldl_cons, same index fun old member => other old (List.mem_cons_of_mem _ member),
        List.getElem?_set_ne (other head List.mem_cons_self)]

section Walk
variable {Inst Reg : Type} {adapter : SchedulerAdapter Inst Reg} {items : List Inst}

/-- The instructions of an order are sent to consecutive slots. -/
def Sends (destination : List Nat) (start : Nat) (order : List Nat) : Prop :=
  ∀ position index : Nat, order[position]? = some index → destination[index]? = some (start + position)

theorem recordBlockPermutation_spec {start stop : Nat} {destination : List Nat} (scratch : Scratch) (bounds : start ≤ stop)
    (inside : stop ≤ items.length) (length : destination.length = items.length)
    (plain : ∀ index, start ≤ index → index < stop → ¬ BarrierAt adapter items index)
    (untouched : ∀ index : Nat, start ≤ index → index < stop → destination[index]? = some index) :
    let recorded := (recordBlockPermutation adapter items start stop (destination, scratch)).1
    ∃ order, Segment adapter items start stop order ∧ Sends recorded start order ∧ recorded.length = items.length ∧
      ∀ index : Nat, index < start ∨ stop ≤ index → recorded[index]? = destination[index]? := by
  simp only [recordBlockPermutation]
  split
  next =>
    have segment : Segment adapter items start stop (List.range' start (stop - start)) := .same bounds
    refine ⟨_, segment, fun position index found => ?_, length, fun _ _ => rfl⟩
    have place := segment.bounds_of_getElem? found
    obtain ⟨_, rfl⟩ := List.getElem?_eq_some_iff.mp found
    rw [untouched _ place.2.1 place.2.2, List.getElem_range', Nat.one_mul]
  next =>
    let block := (items.drop start).take (stop - start)
    have size : block.length = stop - start := by
      rw [List.length_take, List.length_drop]
      omega
    obtain ⟨edges, holds, (covers : Covers adapter block block.length edges)⟩ :=
      buildDepGraphReusing_spec scratch.regs scratch.graph
    have lists := ListSchedule.calculatePriorities_lists holds.lists
    obtain ⟨perm, ordered⟩ := ListSchedule.scheduleBlockReusing_spec lists scratch.schedule
    rw [size] at perm covers
    have segment := Segment.block bounds plain _ perm ordered covers
    have small : ∀ old, old ∈ (scheduleBlockReusing (calculatePriorities
        (buildDepGraphReusing adapter block scratch.regs scratch.graph).1.nodes) scratch.schedule).scheduled ↔ old < stop - start :=
      fun old => perm.mem_iff.trans List.mem_range
    obtain ⟨placedLength, places, same⟩ := foldl_place _ start 0 destination (perm.nodup_iff.mpr List.nodup_range)
      fun old member => by have := (small old).mp member; omega
    refine ⟨_, segment, ?_, placedLength.trans length, fun index away => same index fun old member => ?_⟩
    · intro position index found
      rw [List.getElem?_map, Option.map_eq_some_iff] at found
      obtain ⟨old, place, rfl⟩ := found
      have := places position old place
      rwa [Nat.zero_add] at this
    · have := (small old).mp member
      omega

/-- The walk has recorded everything up to the start of the block at hand. -/
structure Recorded (adapter : SchedulerAdapter Inst Reg) (items : List Inst) (bound : Nat) (walk : BlockWalk) : Prop where
  behind : walk.blockStart ≤ bound
  plain : ∀ index, walk.blockStart ≤ index → index < bound → ¬ BarrierAt adapter items index
  length : walk.recorded.1.length = items.length
  ahead : ∀ index, walk.blockStart ≤ index → index < items.length → walk.recorded.1[index]? = some index
  order : ∃ order, Segment adapter items 0 walk.blockStart order ∧ Sends walk.recorded.1 0 order

theorem Recorded.close {bound : Nat} {walk : BlockWalk} (recorded : Recorded adapter items bound walk) (inside : bound ≤ items.length) :
    let next := recordBlockPermutation adapter items walk.blockStart bound walk.recorded
    next.1.length = items.length ∧ (∀ index : Nat, bound ≤ index → index < items.length → next.1[index]? = some index) ∧
      ∃ order, Segment adapter items 0 bound order ∧ Sends next.1 0 order := by
  obtain ⟨front, before, sends⟩ := recorded.order
  obtain ⟨back, block, sends', length, same⟩ := recordBlockPermutation_spec walk.recorded.2 recorded.behind inside recorded.length
    recorded.plain fun index above below => recorded.ahead index above (by omega)
  refine ⟨length, fun index above below => ?_, front ++ back, before.append block, ?_⟩
  · rw [same index (Or.inr above)]
    exact recorded.ahead index (by have := recorded.behind; omega) below
  · intro position index found
    by_cases early : position < front.length
    · rw [List.getElem?_append_left early] at found
      have place := before.bounds_of_getElem? found
      rw [same index (Or.inl place.2.2)]
      exact sends position index found
    · rw [List.getElem?_append_right (by omega), before.length] at found
      rw [sends' _ index found]
      have := before.length
      congr 1
      omega

theorem Recorded.visit {bound : Nat} {walk : BlockWalk} {inst : Inst} (recorded : Recorded adapter items bound walk)
    (found : items[bound]? = some inst) : Recorded adapter items (bound + 1) (visitBlockEnd adapter items walk (inst, bound)) := by
  have inside := (List.getElem?_eq_some_iff.mp found).1
  unfold visitBlockEnd
  dsimp only
  split
  next ordinary =>
    refine { recorded with behind := Nat.le_succ_of_le recorded.behind, plain := fun index above below => ?_ }
    rcases Nat.lt_succ_iff_lt_or_eq.mp below with earlier | rfl
    · exact recorded.plain index above earlier
    · rintro ⟨other, present, barrier⟩
      rw [found] at present
      cases present
      simp [barrier] at ordinary
  next barrier =>
    obtain ⟨length, ahead, order, segment, sends⟩ := recorded.close inside.le
    refine ⟨Nat.le_refl _, fun index above below => absurd (Nat.lt_of_le_of_lt above below) (Nat.lt_irrefl _), length,
      fun index above => ahead index (Nat.le_of_succ_le above),
      order ++ List.range' bound (bound + 1 - bound), segment.append (.same (Nat.le_succ bound)), ?_⟩
    intro position index place
    have size := segment.length
    by_cases early : position < order.length
    · rw [List.getElem?_append_left early] at place
      exact sends position index place
    · rw [List.getElem?_append_right (by omega), Nat.add_sub_cancel_left, List.getElem?_eq_some_iff] at place
      obtain ⟨last, rfl⟩ := place
      rw [List.length_range'] at last
      rw [List.getElem_range', ahead _ (by omega) (by omega)]
      congr 1
      omega

theorem visitBlockEnds_spec (rest : List Inst) {bound : Nat} {walk : BlockWalk} (split : items.drop bound = rest)
    (bounds : bound ≤ items.length) (recorded : Recorded adapter items bound walk) :
    Recorded adapter items items.length ((rest.zipIdx bound).foldl (visitBlockEnd adapter items) walk) := by
  induction rest generalizing bound walk with
  | nil =>
    have whole : bound = items.length := by
      have := List.drop_eq_nil_iff.mp split
      omega
    exact whole ▸ recorded
  | cons inst rest ih =>
    have found : items[bound]? = some inst := by
      rw [← List.head?_drop, split, List.head?_cons]
    refine ih ?_ (List.getElem?_eq_some_iff.mp found).1 (recorded.visit found)
    rw [← List.drop_drop, split, List.drop_one, List.tail_cons]

end Walk

end Rue.Proofs.Arrangement
