import Rue.Lib.Csr
import Rue.Opt.UseIndex
import Rue.Proofs.Cfg.Certificate

/-! A rebuilt use index lists the users of every value in the order given, once for
each operand, whatever was in its buffers before. -/

namespace Rue.Proofs.Opt
open Rue.Opt Rue.Opt.CfgUseIndex Rue.Lib

namespace UseIndex

/-- The states a reused index goes through. -/
inductive Reached : CfgUseIndex → Prop where
  | default : Reached .default
  | invalidate {index} (before : Reached index) : Reached index.invalidate
  | rebuild {index cfg userOrder result next} (before : Reached index)
      (done : index.rebuild cfg userOrder = some (result, next)) : Reached next

/-- No stamp is newer than the current generation. -/
structure Sound (index : CfgUseIndex) : Prop where
  aligned : index.bucketIndex.length = index.bucketGeneration.length
  stamped : ∀ stamp ∈ index.bucketGeneration, stamp ≤ index.generation
  bounded : index.generation < 2 ^ 64

/-- The buckets after some operands are counted; `seen` is what has a bucket. -/
structure Counted (cfg : OwnedCfg) (seen operands : List CfgValue) (index : CfgUseIndex) : Prop extends Sound index where
  room : cfg.valueCount ≤ index.bucketGeneration.length
  unowned : index.owner = none
  inside : ∀ value ∈ operands, value ∈ seen
  listed : ∀ value, value ∈ index.keys ↔ value ∈ seen
  small : ∀ value ∈ index.keys, value < cfg.valueCount
  distinct : index.keys.Nodup
  types : index.keyTypes = index.keys.map cfg.typeOf
  counts : index.offsets = index.keys.map fun key => operands.count key
  marked : ∀ value < cfg.valueCount, index.bucketGeneration[value]? = some index.generation ↔ value ∈ index.keys
  filed : ∀ value ∈ index.keys, index.bucketIndex[value]? = some (index.keys.idxOf value)

variable {cfg : OwnedCfg} {index : CfgUseIndex}

theorem makeRoom_sound (sound : Sound index) (valueCount : Nat) :
    Sound (index.makeRoom valueCount) ∧ valueCount ≤ (index.makeRoom valueCount).bucketGeneration.length := by
  rw [makeRoom]
  split
  next short =>
    refine ⟨⟨?_, ?_, sound.bounded⟩, by simp [grow]; omega⟩
    · simp [grow, sound.aligned]
    · intro stamp member
      rcases List.mem_append.mp member with old | new
      · exact sound.stamped stamp old
      · rw [List.eq_of_mem_replicate new]
        exact Nat.zero_le _
  next long => exact ⟨sound, by omega⟩

/-- In the next generation every stamp is stale, also after the counter wraps. -/
theorem nextGeneration_stale (sound : Sound index) :
    Sound index.nextGeneration ∧ (∀ stamp ∈ index.nextGeneration.bucketGeneration, stamp ≠ index.nextGeneration.generation) ∧
      index.nextGeneration.bucketGeneration.length = index.bucketGeneration.length := by
  have bounded := sound.bounded
  rw [nextGeneration]
  by_cases wraps : (index.generation + 1) % 2 ^ 64 = 0
  · simp only [wraps, if_true]
    have zero : ∀ stamp ∈ index.bucketGeneration.map fun _ => 0, stamp = 0 := by
      intro stamp member
      obtain ⟨_, _, rfl⟩ := List.mem_map.mp member
      rfl
    refine ⟨⟨by simp [sound.aligned], fun stamp member => ?_, Nat.one_lt_two_pow (by decide)⟩, fun stamp member => ?_,
      List.length_map ..⟩
    · rw [zero stamp member]
      exact Nat.zero_le _
    · rw [zero stamp member]
      exact Nat.zero_ne_one
  · have next : (index.generation + 1) % 2 ^ 64 = index.generation + 1 := by omega
    simp only [next, Nat.succ_ne_zero, if_false]
    refine ⟨⟨sound.aligned, fun stamp member => Nat.le_succ_of_le (sound.stamped stamp member), ?_⟩,
      fun stamp member => Nat.ne_of_lt (Nat.lt_succ_of_le (sound.stamped stamp member)), trivial⟩
    show index.generation + 1 < 2 ^ 64
    omega

theorem fresh_counted (sound : Sound index) : Counted cfg [] []
    ((index.invalidate.makeRoom cfg.valueCount).nextGeneration).clear := by
  have invalid : Sound index.invalidate := ⟨sound.aligned, sound.stamped, sound.bounded⟩
  obtain ⟨admitted, room⟩ := makeRoom_sound invalid cfg.valueCount
  obtain ⟨next, stale, length⟩ := nextGeneration_stale admitted
  have unowned : ((index.invalidate.makeRoom cfg.valueCount).nextGeneration).owner = none := by
    rw [nextGeneration, makeRoom]
    repeat' split
    all_goals rfl
  refine ⟨⟨next.aligned, next.stamped, next.bounded⟩, by rw [← length] at room; exact room, unowned, by simp,
    by simp [clear], by simp [clear], List.nodup_nil, rfl, rfl, ?_, by simp [clear]⟩
  intro value _
  simp only [clear, List.not_mem_nil, iff_false]
  intro current
  exact stale _ (List.mem_of_getElem? current) rfl

/-- Opening a bucket for an operand changes no count. -/
theorem openBucket_counted {seen operands : List CfgValue} (counted : Counted cfg seen operands index) {operand : CfgValue}
    (inside : operand < cfg.valueCount) : ∃ opened, openBucket cfg index operand = some opened ∧
      Counted cfg (seen ++ [operand]) operands opened := by
  have within : operand < index.bucketGeneration.length := Nat.lt_of_lt_of_le inside counted.room
  have within' : operand < index.bucketIndex.length := counted.aligned ▸ within
  rw [openBucket, List.getElem?_eq_getElem within, List.getElem?_eq_getElem within']
  simp only [Option.bind_eq_bind, Option.bind_some, Option.pure_def]
  split
  next current =>
    have member : operand ∈ index.keys := (counted.marked operand inside).mp (by
      rw [List.getElem?_eq_getElem within, current])
    refine ⟨index, rfl, { counted with inside := ?_, listed := ?_ }⟩
    · exact fun value member => List.mem_append_left _ (counted.inside value member)
    · intro value
      rw [List.mem_append, List.mem_singleton, ← counted.listed]
      exact ⟨.inl, Or.rec id fun same => same ▸ member⟩
  next stale =>
    have absent : operand ∉ index.keys := fun member => stale (by
      have found := (counted.marked operand inside).mpr member
      rw [List.getElem?_eq_getElem within] at found
      exact Option.some.inj found)
    have unseen : operand ∉ operands := fun member => absent ((counted.listed operand).mpr (counted.inside operand member))
    refine ⟨_, rfl, ⟨by simp [counted.aligned], ?_, counted.bounded⟩, by simpa using counted.room, counted.unowned, ?_, ?_,
      ?_, ?_, ?_, ?_, ?_, ?_⟩
    · intro stamp member
      rcases List.mem_or_eq_of_mem_set member with old | rfl
      · exact counted.stamped stamp old
      · exact Nat.le_refl _
    · exact fun value member => List.mem_append_left _ (counted.inside value member)
    · intro value
      simp only [List.mem_append, List.mem_singleton, counted.listed]
    · intro value member
      rcases List.mem_append.mp member with old | new
      · exact counted.small value old
      · rwa [List.mem_singleton.mp new]
    · refine List.nodup_append.mpr ⟨counted.distinct, by simp, ?_⟩
      intro value old other new same
      exact absent (List.mem_singleton.mp new ▸ same ▸ old)
    · simp [counted.types]
    · simp [counted.counts, List.count_eq_zero_of_not_mem unseen]
    · intro value small
      by_cases same : value = operand
      · subst same
        simp [List.getElem?_set_self within]
      · rw [List.getElem?_set_ne (Ne.symm same), counted.marked value small]
        simp [same]
    · intro value member
      by_cases same : value = operand
      · subst same
        rw [List.getElem?_set_self within', List.idxOf_append_of_notMem absent]
        simp
      · have old : value ∈ index.keys := by simpa [same] using member
        rw [List.getElem?_set_ne (Ne.symm same), counted.filed value old, List.idxOf_append_of_mem old]

theorem raise_counted {seen operands : List CfgValue} (counted : Counted cfg seen operands index) {operand : CfgValue}
    (member : operand ∈ seen) : index.offsets[index.keys.idxOf operand]? = some (operands.count operand) ∧
      Counted cfg seen (operands ++ [operand])
        { index with offsets := index.offsets.set (index.keys.idxOf operand) (operands.count operand + 1) } := by
  have present : operand ∈ index.keys := (counted.listed operand).mpr member
  have bound := List.idxOf_lt_length_of_mem present
  refine ⟨?_, { counted with inside := ?_, counts := ?_ }⟩
  · rw [counted.counts, List.getElem?_map, List.getElem?_eq_getElem bound, Option.map_some, List.getElem_idxOf]
  · intro value among
    rcases List.mem_append.mp among with old | new
    · exact counted.inside value old
    · rwa [List.mem_singleton.mp new]
  · apply List.ext_getElem (by simp [counted.counts])
    intro bucket first second
    simp only [List.getElem_set, counted.counts, List.getElem_map, List.count_append, List.count_singleton]
    have inside : bucket < index.keys.length := by simpa using second
    split
    next same =>
      subst same
      simp [List.getElem_idxOf]
    next other =>
      have different : index.keys[bucket] ≠ operand := by
        intro same
        exact other (same ▸ (counted.distinct.idxOf_getElem bucket inside))
      simp [Ne.symm different]

theorem countOperand_counted {operands : List CfgValue} (counted : Counted cfg operands operands index)
    (invalid : Option CfgValue) {operand : CfgValue} (inside : operand < cfg.valueCount) :
    ∃ next, countOperand cfg (index, invalid) operand = some (next, invalid) ∧
      Counted cfg (operands ++ [operand]) (operands ++ [operand]) next := by
  obtain ⟨opened, found, bucketed⟩ := openBucket_counted counted inside
  have member : operand ∈ operands ++ [operand] := by simp
  obtain ⟨count, raised⟩ := raise_counted bucketed member
  have filed := bucketed.filed operand ((bucketed.listed operand).mpr member)
  refine ⟨_, ?_, raised⟩
  rw [countOperand, if_neg (Nat.not_le.mpr inside), found]
  simp only [Option.bind_eq_bind, Option.bind_some, filed, count, Option.pure_def]

/-- A user's operands are counted; an operand outside the domain is reported. -/
theorem countOperands_counted (uses : List CfgValue) {operands : List CfgValue} (counted : Counted cfg operands operands index)
    (invalid : Option CfgValue) : ∃ next reported, uses.foldlM (countOperand cfg) (index, invalid) = some (next, reported) ∧
      Sound next ∧ next.owner = none ∧ (reported = none ↔ invalid = none ∧ ∀ operand ∈ uses, operand < cfg.valueCount) ∧
      (reported = none → Counted cfg (operands ++ uses) (operands ++ uses) next) := by
  induction uses generalizing index operands invalid with
  | nil => exact ⟨index, invalid, rfl, counted.toSound, counted.unowned, by simp, fun _ => by simpa using counted⟩
  | cons operand rest ih =>
    by_cases inside : operand < cfg.valueCount
    · obtain ⟨next, step, counted⟩ := countOperand_counted counted invalid inside
      obtain ⟨last, reported, run, sound, unowned, clean, counts⟩ := ih counted invalid
      refine ⟨last, reported, ?_, sound, unowned, by simp [clean, inside], by simpa using counts⟩
      rw [List.foldlM_cons, step]
      exact run
    · obtain ⟨last, reported, run, sound, unowned, clean, -⟩ := ih counted (some operand)
      refine ⟨last, reported, ?_, sound, unowned, by simp [clean, inside], fun none => ?_⟩
      · rw [List.foldlM_cons, countOperand, if_pos (Nat.not_lt.mp inside)]
        exact run
      · exact absurd (clean.mp none).1 (Option.some_ne_none _)

/-- Every user and every operand is a value of the graph. -/
def InDomain (cfg : OwnedCfg) (userOrder : List CfgValue) : Prop :=
  ∀ user ∈ userOrder, user < cfg.valueCount ∧ ∀ operand ∈ cfg.uses user, operand < cfg.valueCount

theorem countUsers_counted (userOrder : List CfgValue) {operands : List CfgValue}
    (counted : Counted cfg operands operands index) : ∃ result next, countUsers cfg index userOrder = some (result, next) ∧
      Sound next ∧ next.owner = none ∧ (result = .ok () ↔ InDomain cfg userOrder) ∧
      (result = .ok () → Counted cfg (operands ++ userOrder.flatMap cfg.uses) (operands ++ userOrder.flatMap cfg.uses) next) := by
  induction userOrder generalizing index operands with
  | nil => exact ⟨.ok (), index, rfl, counted.toSound, counted.unowned, by simp [InDomain], fun _ => by simpa using counted⟩
  | cons user rest ih =>
    rw [countUsers]
    split
    next outside =>
      refine ⟨_, index, rfl, counted.toSound, counted.unowned, ?_, fun failed => by cases failed⟩
      refine ⟨fun failed => (by cases failed), fun inside => ?_⟩
      exact absurd (inside user (List.mem_cons_self ..)).1 (Nat.not_lt.mpr outside)
    next inside =>
      obtain ⟨next, reported, run, sound, unowned, clean, counts⟩ := countOperands_counted (cfg.uses user) counted none
      simp only [run, Option.bind_eq_bind, Option.bind_some]
      cases reported with
      | some operand =>
        refine ⟨_, next, rfl, sound, unowned, ?_, fun failed => by cases failed⟩
        refine ⟨fun failed => (by cases failed), fun inside => ?_⟩
        have none := clean.mpr ⟨rfl, (inside user (List.mem_cons_self ..)).2⟩
        cases none
      | none =>
        obtain ⟨result, last, run, sound, unowned, exactly, counts⟩ := ih (counts rfl)
        refine ⟨result, last, run, sound, unowned, ?_, fun ok => ?_⟩
        · rw [exactly, InDomain, InDomain, List.forall_mem_cons]
          exact ⟨fun others => ⟨⟨Nat.not_le.mp inside, (clean.mp rfl).2⟩, others⟩, And.right⟩
        · rw [List.flatMap_cons, ← List.append_assoc]
          exact counts ok

/-- Each operand with its user, in the order they are visited. -/
def useEdges (cfg : OwnedCfg) (userOrder : List CfgValue) : List (CfgValue × CfgValue) :=
  userOrder.flatMap fun user => (cfg.uses user).map fun operand => (operand, user)

/-- The edges filed under the operands' buckets. -/
def bucketed (keys : List CfgValue) (edges : List (CfgValue × CfgValue)) : List (Nat × Nat) :=
  edges.map fun edge => (keys.idxOf edge.1, edge.2)

theorem useEdges_fst (userOrder : List CfgValue) : (useEdges cfg userOrder).map Prod.fst = userOrder.flatMap cfg.uses := by
  simp [useEdges, List.map_flatMap, Function.comp_def]

theorem row_useEdges (userOrder : List CfgValue) (value : CfgValue) : Csr.row (useEdges cfg userOrder) value =
    userOrder.flatMap fun user => List.replicate ((cfg.uses user).count value) user := by
  induction userOrder with
  | nil => rfl
  | cons user rest ih =>
    have own : Csr.row ((cfg.uses user).map fun operand => (operand, user)) value =
        List.replicate ((cfg.uses user).count value) user := by
      induction cfg.uses user with
      | nil => rfl
      | cons operand operands ih =>
        by_cases same : operand = value
        · subst same
          simpa [Csr.row, List.replicate_succ] using ih
        · simpa [Csr.row, same] using ih
    rw [useEdges, List.flatMap_cons, Csr.row_append, own, List.flatMap_cons, ← ih, useEdges]

theorem idxOf_eq_iff {keys : List CfgValue} (distinct : keys.Nodup) {value : CfgValue} (member : value ∈ keys) {bucket : Nat}
    (inside : bucket < keys.length) : keys.idxOf value = bucket ↔ value = keys[bucket] := by
  constructor
  · rintro rfl
    rw [List.getElem_idxOf]
  · rintro rfl
    exact distinct.idxOf_getElem bucket inside

theorem row_bucketed {keys : List CfgValue} (distinct : keys.Nodup) {edges : List (CfgValue × CfgValue)}
    (known : ∀ edge ∈ edges, edge.1 ∈ keys) {bucket : Nat} (inside : bucket < keys.length) :
    Csr.row (bucketed keys edges) bucket = Csr.row edges keys[bucket] := by
  rw [Csr.row, bucketed, List.filter_map, List.map_map, Csr.row]
  have same : edges.filter ((fun edge : Nat × Nat => decide (edge.1 = bucket)) ∘ fun edge => (keys.idxOf edge.1, edge.2)) =
      edges.filter fun edge => edge.1 = keys[bucket] := by
    apply List.filter_congr
    intro edge member
    simp only [Function.comp_apply, decide_eq_decide]
    exact idxOf_eq_iff distinct (known edge member) inside
  rw [same]
  rfl

theorem exclusiveSums_spec (total : Nat) (counts : List Nat) : (exclusiveSums total counts).1.length = counts.length ∧
    (∀ bucket ≤ counts.length, ((exclusiveSums total counts).1 ++ [(exclusiveSums total counts).2])[bucket]? =
      some (total + (counts.take bucket).sum)) := by
  induction counts generalizing total with
  | nil =>
    refine ⟨rfl, fun bucket inside => ?_⟩
    obtain rfl : bucket = 0 := Nat.le_zero.mp inside
    rfl
  | cons count rest ih =>
    obtain ⟨length, sums⟩ := ih (total + count)
    refine ⟨by simp [exclusiveSums, length], ?_⟩
    intro bucket inside
    cases bucket with
    | zero => rfl
    | succ bucket =>
      simp only [exclusiveSums, List.cons_append, List.getElem?_cons_succ, List.take_succ_cons, List.sum_cons]
      rw [sums bucket (Nat.le_of_succ_le_succ inside), Nat.add_assoc]

/-- The counts before a bucket are the edges filed below it. -/
theorem take_sum_bound {edges : List (Nat × Nat)} {counts : List Nat}
    (rows : ∀ bucket (inside : bucket < counts.length), counts[bucket] = (Csr.row edges bucket).length) {bucket : Nat}
    (inside : bucket ≤ counts.length) : (counts.take bucket).sum = Csr.bound edges bucket := by
  induction bucket with
  | zero => simp [Csr.bound]
  | succ bucket ih =>
    rw [List.take_succ_eq_append_getElem inside, List.sum_append, ih (Nat.le_of_succ_le inside), Csr.bound_succ,
      rows bucket inside]
    simp

/-- What filling has done to the two lists it writes. -/
structure Filling (laid : CfgUseIndex) (total : Nat) (cursors values : Csr.Table) (index : CfgUseIndex) : Prop where
  frame : index = { laid with users := index.users, cursors := index.cursors }
  cursorCount : index.cursors.length = laid.keys.length
  cursors : ∀ bucket < laid.keys.length, index.cursors[bucket]? = some (cursors bucket)
  userCount : index.users.length = total
  users : ∀ position < total, index.users[position]? = some (values position)

theorem fillOperand_filling {laid : CfgUseIndex} {total : Nat} {cursors values : Csr.Table}
    (filling : Filling laid total cursors values index) {operand bucket : Nat}
    (filed : laid.bucketIndex[operand]? = some bucket) (inside : bucket < laid.keys.length) (room : cursors bucket < total)
    (user : CfgValue) : ∃ next, fillOperand user index operand = some next ∧
      Filling laid total (Function.update cursors bucket (cursors bucket + 1))
        (Function.update values (cursors bucket) user) next := by
  have filed' : index.bucketIndex[operand]? = some bucket := by rw [filling.frame]; exact filed
  refine ⟨{ index with users := index.users.set (cursors bucket) user, cursors := index.cursors.set bucket (cursors bucket + 1) },
    ?_, ?_, ?_, ?_, ?_, ?_⟩
  · simp only [fillOperand, filed', filling.cursors bucket inside, filling.users _ room, Option.bind_eq_bind,
      Option.bind_some, Option.pure_def]
  · rw [filling.frame]
  · rw [List.length_set, filling.cursorCount]
  · intro other small
    simp only
    by_cases same : other = bucket
    · subst same
      rw [List.getElem?_set_self (by rw [filling.cursorCount]; exact inside), Function.update_self]
    · rw [List.getElem?_set_ne (Ne.symm same), Function.update_of_ne same, filling.cursors other small]
  · rw [List.length_set, filling.userCount]
  · intro position small
    simp only
    by_cases same : position = cursors bucket
    · subst same
      rw [List.getElem?_set_self (by rw [filling.userCount]; exact small), Function.update_self]
    · rw [List.getElem?_set_ne (Ne.symm same), Function.update_of_ne same, filling.users position small]

/-- The induction is on the edges to file; each bucket has room for its own. -/
theorem fillEdges_filling {laid : CfgUseIndex} {total : Nat} (edges : List (CfgValue × CfgValue))
    (filed : ∀ edge ∈ edges, laid.bucketIndex[edge.1]? = some (laid.keys.idxOf edge.1) ∧ edge.1 ∈ laid.keys)
    {cursors values : Csr.Table} (filling : Filling laid total cursors values index)
    (room : ∀ bucket < laid.keys.length, cursors bucket + (Csr.row (bucketed laid.keys edges) bucket).length ≤ total) :
    ∃ next, edges.foldlM (fun index edge => fillOperand edge.2 index edge.1) index = some next ∧
      Filling laid total (Csr.fill (bucketed laid.keys edges) cursors values).1
        (Csr.fill (bucketed laid.keys edges) cursors values).2 next := by
  induction edges generalizing index cursors values with
  | nil => exact ⟨index, rfl, filling⟩
  | cons edge rest ih =>
    obtain ⟨⟨found, member⟩, others⟩ := List.forall_mem_cons.mp filed
    have inside := List.idxOf_lt_length_of_mem member
    have split : ∀ bucket, Csr.row (bucketed laid.keys (edge :: rest)) bucket =
        (if laid.keys.idxOf edge.1 = bucket then [edge.2] else []) ++ Csr.row (bucketed laid.keys rest) bucket := by
      intro bucket
      by_cases same : laid.keys.idxOf edge.1 = bucket <;> simp [Csr.row, bucketed, same]
    have own := room _ inside
    rw [split, if_pos rfl, List.length_append, List.length_singleton] at own
    obtain ⟨next, step, filling⟩ := fillOperand_filling filling found inside (show _ < total by omega) edge.2
    obtain ⟨last, run, filled⟩ := ih others filling (by
      intro bucket small
      have held := room bucket small
      rw [split, List.length_append] at held
      by_cases same : laid.keys.idxOf edge.1 = bucket
      · subst same
        rw [Function.update_self]
        simp only [if_true, List.length_singleton] at held
        omega
      · rw [Function.update_of_ne (Ne.symm same)]
        omega)
    refine ⟨last, ?_, filled⟩
    rw [List.foldlM_cons, step]
    exact run

theorem fillUsers_edges (userOrder : List CfgValue) : userOrder.foldlM (fillUser cfg) index =
    (useEdges cfg userOrder).foldlM (fun index edge => fillOperand edge.2 index edge.1) index := by
  induction userOrder generalizing index with
  | nil => rfl
  | cons user rest ih =>
    rw [useEdges, List.flatMap_cons, List.foldlM_append, List.foldlM_cons, List.foldlM_map, fillUser]
    congr 1
    funext next
    exact ih

/-- Filling lays the users of every value out between the value's offsets. -/
theorem layOut_filled {userOrder : List CfgValue}
    (counted : Counted cfg (userOrder.flatMap cfg.uses) (userOrder.flatMap cfg.uses) index) :
    ∃ filled, userOrder.foldlM (fillUser cfg) index.layOut = some filled ∧
      filled = { index.layOut with users := filled.users, cursors := filled.cursors } ∧
      ∀ value ∈ index.keys, ∃ start stop, index.layOut.offsets[index.keys.idxOf value]? = some start ∧
        index.layOut.offsets[index.keys.idxOf value + 1]? = some stop ∧ start ≤ stop ∧ stop ≤ filled.users.length ∧
        (filled.users.take stop).drop start = Csr.row (useEdges cfg userOrder) value := by
  set edges := useEdges cfg userOrder with namedEdges
  set table := bucketed index.keys edges with namedTable
  have operands : edges.map Prod.fst = userOrder.flatMap cfg.uses := useEdges_fst userOrder
  have known : ∀ edge ∈ edges, edge.1 ∈ index.keys := by
    intro edge member
    rw [counted.listed, ← operands]
    exact List.mem_map_of_mem member
  have inTable : ∀ edge ∈ table, edge.1 < index.keys.length := by
    intro edge member
    obtain ⟨source, among, rfl⟩ := List.mem_map.mp member
    exact List.idxOf_lt_length_of_mem (known source among)
  have length : index.offsets.length = index.keys.length := by rw [counted.counts, List.length_map]
  have rows : ∀ bucket (inside : bucket < index.offsets.length), index.offsets[bucket] = (Csr.row table bucket).length := by
    intro bucket inside
    rw [row_bucketed counted.distinct known (length ▸ inside), Csr.length_row]
    simp only [counted.counts, List.getElem_map]
    have occurrences : (userOrder.flatMap cfg.uses).count index.keys[bucket] =
        edges.countP fun edge => decide (edge.1 = index.keys[bucket]) := by
      rw [← useEdges_fst, List.count, List.countP_map]
      rfl
    exact occurrences
  obtain ⟨startCount, sums⟩ := exclusiveSums_spec 0 index.offsets
  have bounds : ∀ bucket ≤ index.keys.length, index.layOut.offsets[bucket]? = some (Csr.bound table bucket) := by
    intro bucket inside
    rw [layOut, sums bucket (length ▸ inside), Nat.zero_add, take_sum_bound rows (length ▸ inside)]
  have total : (exclusiveSums 0 index.offsets).2 = Csr.bound table index.keys.length := by
    have last := sums index.offsets.length (Nat.le_refl _)
    rw [← startCount, List.getElem?_concat_length, startCount, Nat.zero_add, take_sum_bound rows (Nat.le_refl _), length]
      at last
    exact Option.some.inj last
  have start : Filling index.layOut (Csr.bound table index.keys.length) (Csr.bound table) (fun _ => 0) index.layOut := by
    refine ⟨rfl, ?_, ?_, ?_, ?_⟩
    · simp [layOut, startCount, length]
    · intro bucket inside
      have small : bucket < index.keys.length := inside
      have offset := bounds bucket (Nat.le_of_lt small)
      simp only [layOut] at offset ⊢
      rw [List.getElem?_take_of_lt small, offset]
    · rw [layOut, List.length_replicate, total]
    · intro position small
      rw [layOut, List.getElem?_replicate_of_lt (by rw [total]; exact small)]
  have located : ∀ edge ∈ edges,
      index.layOut.bucketIndex[edge.1]? = some (index.layOut.keys.idxOf edge.1) ∧ edge.1 ∈ index.layOut.keys :=
    fun edge member => ⟨counted.filed edge.1 (known edge member), known edge member⟩
  obtain ⟨filled, run, filling⟩ := fillEdges_filling edges located start (by
    intro bucket inside
    have next := Csr.bound_succ table bucket
    have below := Csr.bound_mono table (show bucket + 1 ≤ index.keys.length from inside)
    change Csr.bound table bucket + (Csr.row table bucket).length ≤ _
    omega)
  refine ⟨filled, (fillUsers_edges userOrder).trans run, filling.frame, ?_⟩
  intro value member
  have inside := List.idxOf_lt_length_of_mem member
  have rising := Csr.bound_mono table (Nat.le_succ (index.keys.idxOf value))
  have below := Csr.bound_mono table (show index.keys.idxOf value + 1 ≤ index.keys.length from inside)
  refine ⟨_, _, bounds _ (Nat.le_of_lt inside), bounds _ inside, rising, filling.userCount ▸ below, ?_⟩
  have laid := Csr.slice_fill inTable (Csr.bound table) (fun _ => 0) (fun _ _ => rfl) inside
  rw [row_bucketed counted.distinct known inside, List.getElem_idxOf] at laid
  rw [← laid, Csr.slice]
  apply List.ext_getElem
  · rw [List.length_drop, List.length_take, filling.userCount, List.length_map, List.length_range']
    omega
  · intro position first second
    have small : Csr.bound table (index.keys.idxOf value) + position < Csr.bound table index.keys.length := by
      rw [List.length_map, List.length_range'] at second
      omega
    have held := filling.users _ small
    rw [List.getElem?_eq_getElem (by rw [filling.userCount]; exact small)] at held
    simp only [List.getElem_drop, List.getElem_take, List.getElem_map, List.getElem_range', Nat.one_mul]
    exact Option.some.inj held

/-- A rebuild ends, and what it leaves answers for the users it was given or not at all. -/
theorem rebuild_spec (sound : Sound index) (cfg : OwnedCfg) (userOrder : List CfgValue) :
    ∃ result next, index.rebuild cfg userOrder = some (result, next) ∧ Sound next ∧
      (result = .ok () ↔ InDomain cfg userOrder) ∧
      (result ≠ .ok () → next.owner = none) ∧
      (result = .ok () → next.owner = some cfg.ownerIdentity ∧ next.valueCount = cfg.valueCount ∧
        ∀ value < cfg.valueCount, ∀ later : OwnedCfg, later.ownerIdentity = cfg.ownerIdentity →
          later.valueCount = cfg.valueCount → later.typeOf value = cfg.typeOf value →
          next.usersOf later value =
            some (.ok (userOrder.flatMap fun user => List.replicate ((cfg.uses user).count value) user))) := by
  obtain ⟨result, counted, run, rises, unowned, clean, counts⟩ := countUsers_counted userOrder
    (fresh_counted sound)
  cases result with
  | error error =>
    refine ⟨.error error, counted, ?_, rises, clean, fun _ => unowned, fun ok => by cases ok⟩
    simp only [rebuild, run, Option.bind_eq_bind, Option.bind_some, Option.pure_def]
  | ok =>
    have counts := counts rfl
    rw [List.nil_append] at counts
    obtain ⟨filled, fill, frame, users⟩ := layOut_filled counts
    refine ⟨.ok (), { filled with valueCount := cfg.valueCount, owner := some cfg.ownerIdentity }, ?_, ?_, clean,
      fun failed => absurd rfl failed, fun _ => ⟨rfl, rfl, ?_⟩⟩
    · simp only [rebuild, run, Option.bind_eq_bind, Option.bind_some, fill, Option.pure_def]
    · rw [frame]
      exact ⟨counts.aligned, counts.stamped, counts.bounded⟩
    · intro value small later owner domain sameType
      rw [← row_useEdges]
      have within : value < counted.bucketGeneration.length := Nat.lt_of_lt_of_le small counts.room
      have stamps : filled.bucketGeneration = counted.bucketGeneration := by rw [frame]; rfl
      have buckets : filled.bucketIndex = counted.bucketIndex := by rw [frame]; rfl
      have generation : filled.generation = counted.generation := by rw [frame]; rfl
      have keys : filled.keys = counted.keys := by rw [frame]; rfl
      have types : filled.keyTypes = counted.keyTypes := by rw [frame]; rfl
      have offsets : filled.offsets = counted.layOut.offsets := by rw [frame]
      have marked := counts.marked value small
      rw [List.getElem?_eq_getElem within, Option.some.injEq] at marked
      simp only [usersOf, owner, domain, ne_eq, not_true, if_false, if_neg (Nat.not_le.mpr small), stamps, generation,
        List.getElem?_eq_getElem within, Option.bind_eq_bind, Option.bind_some, Option.pure_def]
      by_cases current : counted.bucketGeneration[value] = counted.generation
      case neg =>
        have absent : value ∉ counted.keys := fun member => current (marked.mpr member)
        rw [counts.listed, ← useEdges_fst] at absent
        have none : Csr.row (useEdges cfg userOrder) value = [] := by
          rw [Csr.row, List.map_eq_nil_iff, List.filter_eq_nil_iff]
          intro edge member same
          exact absent (List.mem_map.mpr ⟨edge, member, of_decide_eq_true same⟩)
        rw [if_pos current, none]
      case pos =>
        have member : value ∈ counted.keys := marked.mp current
        rw [if_neg (not_not.mpr current)]
        obtain ⟨start, stop, first, second, rising, short, listed⟩ := users value member
        have bound := List.idxOf_lt_length_of_mem member
        have typed : filled.keyTypes[counted.keys.idxOf value]? = some (cfg.typeOf value) := by
          rw [types, counts.types, List.getElem?_map, List.getElem?_eq_getElem bound, Option.map_some, List.getElem_idxOf]
        have key : filled.keys[counted.keys.idxOf value]? = some value := by
          rw [keys, List.getElem?_eq_getElem bound, List.getElem_idxOf]
        have long : ¬(filled.users.length < stop ∨ stop < start) := by omega
        simp only [buckets, counts.filed value member, Option.bind_some, key, not_true, if_false, typed, sameType, offsets,
          first, second, if_neg long, listed]

theorem Reached.sound (reached : Reached index) : Sound index := by
  induction reached with
  | default => exact ⟨rfl, by simp [CfgUseIndex.default], by decide⟩
  | invalidate _ ih => exact ⟨ih.aligned, ih.stamped, ih.bounded⟩
  | rebuild _ done ih =>
    obtain ⟨_, _, run, sound, -⟩ := rebuild_spec ih _ _
    rw [run] at done
    obtain ⟨-, rfl⟩ := Prod.mk.inj (Option.some.inj done)
    exact sound

/-- From any state of a reused index a rebuild ends. When every user and operand is
a value of the graph, the index lists the users of each value in the order given,
once for each operand, as long as the graph stays as it is; otherwise, and after
an invalidation, nothing can be read. -/
theorem useIndex_exact (reached : Reached index) (cfg : OwnedCfg) (userOrder : List CfgValue) :
    (∃ result next, index.rebuild cfg userOrder = some (result, next) ∧
      (result = .ok () ↔ InDomain cfg userOrder) ∧
      (result = .ok () → ∀ later : OwnedCfg, later.ownerIdentity = cfg.ownerIdentity →
        later.valueCount = cfg.valueCount → (∀ value < cfg.valueCount, later.graph.inst value = cfg.graph.inst value) →
        ∀ value < cfg.valueCount, next.usersOf later value =
          some (.ok (userOrder.flatMap fun user => List.replicate ((later.uses user).count value) user))) ∧
      (result ≠ .ok () → ∀ later value, next.usersOf later value = some (.error .invalidated))) ∧
    ∀ later value, index.invalidate.usersOf later value = some (.error .invalidated) := by
  obtain ⟨result, next, run, -, clean, failed, users⟩ := rebuild_spec reached.sound cfg userOrder
  refine ⟨⟨result, next, run, clean, fun ok later owner domain same value small => ?_, fun error later value => ?_⟩,
    fun later value => rfl⟩
  · have unchanged : ∀ user ∈ userOrder, later.uses user = cfg.uses user := by
      intro user member
      simp only [OwnedCfg.uses, Cfg.visitInstructionUses, same user (clean.mp ok user member).1]
    rw [(users ok).2.2 value small later owner domain (by simp only [OwnedCfg.typeOf, same value small])]
    congr 2
    apply List.flatMap_congr
    intro user member
    rw [unchanged user member]
  · rw [usersOf, failed error]

/-- A value doubled, then the double negated. -/
def doubled : OwnedCfg where
  graph := Cfg.ofTables [⟨.const 1, .i32⟩, ⟨.binary .add 0 0, .i32⟩, ⟨.unary .neg 1, .i32⟩] [([], [0, 1, 2], .return' (some 2))]
  ownerIdentity := 7

theorem doubled_users : ∃ next, CfgUseIndex.default.rebuild doubled [2, 1] = some (.ok (), next) ∧
    next.usersOf doubled 0 = some (.ok [1, 1]) ∧ next.usersOf doubled 1 = some (.ok [2]) := by
  obtain ⟨⟨result, next, run, clean, users, -⟩, -⟩ := useIndex_exact .default doubled [2, 1]
  obtain rfl := clean.mpr (by rw [InDomain]; decide)
  have read := users rfl doubled rfl rfl fun _ _ => rfl
  exact ⟨next, run, read 0 (by decide), read 1 (by decide)⟩

end UseIndex

end Rue.Proofs.Opt
