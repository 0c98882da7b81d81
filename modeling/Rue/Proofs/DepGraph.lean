import Rue.Codegen.Schedule
import Rue.Lib.Reorder

/-! The dependency graph of a block has every direct conflict as an edge, and
its edges run forward. What the tracker remembers is exactly what no later write
has hidden, whatever block it was used for before. -/

namespace Rue.Proofs.DepGraph
open Rue.Codegen Schedule Rue.Lib.Reorder

inductive Resource where
  | reg (kind : RegClass) (index : Nat)
  | flags
  | memory
  deriving DecidableEq, Repr

section Effects
variable {Inst Reg : Type} (adapter : SchedulerAdapter Inst Reg)

def Names (regs : List Reg) (kind : RegClass) (index : Nat) : Prop :=
  ∃ reg ∈ regs, adapter.regClass reg = kind ∧ adapter.regIndex reg = index

/-- What an instruction reads, by its adapter. -/
def Reads (inst : Inst) : Resource → Prop
  | .reg kind index => Names adapter (adapter.regsRead inst) kind index
  | .flags => adapter.readsFlags inst = true
  | .memory => adapter.accessesMemory inst = true

/-- What an instruction writes. A clobber is a write. -/
def Writes (inst : Inst) : Resource → Prop
  | .reg kind index => Names adapter (adapter.regsWritten inst) kind index ∨ Names adapter (adapter.clobbers inst) kind index
  | .flags => adapter.writesFlags inst = true
  | .memory => adapter.accessesMemory inst = true

def ReadsAt (block : List Inst) (resource : Resource) (index : Nat) : Prop :=
  ∃ inst, block[index]? = some inst ∧ Reads adapter inst resource

def WritesAt (block : List Inst) (resource : Resource) (index : Nat) : Prop :=
  ∃ inst, block[index]? = some inst ∧ Writes adapter inst resource

end Effects

section Tracker
variable (regs : RegTracker) (kind other : RegClass) (reg index query : Nat)

private theorem getElem?_resize {α : Type} (items : List α) {length : Nat} (filler : α) (shorter : items.length ≤ length) :
    (resize items length filler)[query]? = if query < items.length then items[query]?
      else if query < length then some filler else none := by
  rw [resize, List.take_of_length_le shorter, List.getElem?_append, List.getElem?_replicate]
  split
  · rfl
  · congr 1
    simp only [eq_iff_iff]
    omega

@[simp] theorem ensure_writerOf : (regs.ensure kind reg).writerOf other query = regs.writerOf other query := by
  simp only [RegTracker.writerOf, RegTracker.ensure]
  split
  next grown =>
    rw [getElem?_resize _ _ _ (by omega)]
    split
    · rfl
    next outside =>
      rw [List.getElem?_eq_none (by omega)]
      split <;> rfl
  · rfl

@[simp] theorem ensure_readersOf : (regs.ensure kind reg).readersOf other query = regs.readersOf other query := by
  simp only [RegTracker.readersOf, RegTracker.ensure]
  split
  next grown =>
    rw [getElem?_resize _ _ _ (by omega)]
    split
    · rfl
    next outside =>
      rw [List.getElem?_eq_none (by omega)]
      split <;> rfl
  · rfl

private theorem length_ensure : reg < ((regs.ensure kind reg).lastWriter kind).length ∧
    reg < ((regs.ensure kind reg).lastReaders kind).length := by
  simp only [RegTracker.ensure]
  constructor
  · split
    · simp only [resize, List.length_append, List.length_take, List.length_replicate]
      omega
    · simp_all
  · split
    · simp only [resize, List.length_append, List.length_take, List.length_replicate]
      omega
    · simp_all

@[simp] theorem clear_writerOf : regs.clear.writerOf kind reg = none := by
  simp only [RegTracker.writerOf, RegTracker.clear, List.getElem?_map]
  cases (regs.lastWriter kind)[reg]? <;> rfl

@[simp] theorem clear_readersOf : regs.clear.readersOf kind reg = [] := by
  simp only [RegTracker.readersOf, RegTracker.clear, List.getElem?_map]
  cases (regs.lastReaders kind)[reg]? <;> rfl

theorem recordWrite_writerOf : (regs.recordWrite kind reg index).writerOf other query =
    if other = kind ∧ query = reg then some index else regs.writerOf other query := by
  rw [← ensure_writerOf regs kind other reg query]
  have inside := (length_ensure regs kind reg).1
  simp only [RegTracker.writerOf, RegTracker.recordWrite]
  by_cases same : other = kind
  · subst same
    by_cases hit : query = reg
    · subst hit
      simp [List.getElem?_set_self inside]
    · simp [hit, List.getElem?_set_ne (Ne.symm hit)]
  · simp [same]

theorem recordWrite_readersOf : (regs.recordWrite kind reg index).readersOf other query =
    if other = kind ∧ query = reg then [] else regs.readersOf other query := by
  rw [← ensure_readersOf regs kind other reg query]
  have inside := (length_ensure regs kind reg).2
  simp only [RegTracker.readersOf, RegTracker.recordWrite]
  by_cases same : other = kind
  · subst same
    by_cases hit : query = reg
    · subst hit
      simp [List.getElem?_set_self inside]
    · simp [hit, List.getElem?_set_ne (Ne.symm hit)]
  · simp [same]

theorem recordRead_writerOf : (regs.recordRead kind reg index).writerOf other query = regs.writerOf other query := by
  rw [← ensure_writerOf regs kind other reg query]
  rfl

theorem recordRead_readersOf : (regs.recordRead kind reg index).readersOf other query =
    if other = kind ∧ query = reg then regs.readersOf other query ++ [index] else regs.readersOf other query := by
  rw [← ensure_readersOf regs kind other reg query]
  have inside := (length_ensure regs kind reg).2
  simp only [RegTracker.readersOf, RegTracker.recordRead]
  by_cases same : other = kind
  · subst same
    by_cases hit : query = reg
    · subst hit
      simp [inside]
    · simp [hit, Ne.symm hit]
  · simp [same]

end Tracker

/-- The last index that matters and that no later write has hidden. -/
def Visible (holds writes : Nat → Prop) (bound index : Nat) : Prop :=
  index < bound ∧ holds index ∧ ∀ middle, index < middle → middle < bound → ¬ writes middle

theorem visible_succ {holds writes : Nat → Prop} {bound index : Nat} :
    Visible holds writes (bound + 1) index ↔
      (¬ writes bound ∧ Visible holds writes bound index) ∨ index = bound ∧ holds bound := by
  constructor
  · rintro ⟨inside, held, clear⟩
    by_cases newest : index = bound
    · exact Or.inr ⟨newest, newest ▸ held⟩
    · exact Or.inl ⟨clear bound (by omega) (Nat.lt_succ_self _), by omega, held, fun middle above below =>
        clear middle above (by omega)⟩
  · rintro (⟨clear, inside, held, before⟩ | ⟨rfl, held⟩)
    · refine ⟨by omega, held, fun middle above below => ?_⟩
      by_cases newest : middle = bound
      · exact newest ▸ clear
      · exact before middle above (by omega)
    · exact ⟨Nat.lt_succ_self _, held, fun middle above below => by omega⟩

theorem visible_writer {writes : Nat → Prop} {bound : Nat} [Decidable (writes bound)] {old : Option Nat}
    (known : ∀ source, old = some source ↔ Visible writes writes bound source) (source : Nat) :
    (if writes bound then some bound else old) = some source ↔ Visible writes writes (bound + 1) source := by
  rw [visible_succ]
  split
  next writing => simp [writing, eq_comm]
  next clear => simp [clear, known]

theorem visible_readers {reads writes : Nat → Prop} {bound : Nat} [Decidable (writes bound)] {old : List Nat}
    (known : ∀ source, source ∈ old ↔ Visible reads writes bound source) (source : Nat) :
    source ∈ (if writes bound then [] else old) ∨ source = bound ∧ reads bound ↔
      Visible reads writes (bound + 1) source := by
  rw [visible_succ]
  split
  next writing => simp [writing]
  next clear => simp [clear, known]

section Tracking
variable {Inst Reg : Type} {adapter : SchedulerAdapter Inst Reg} {block : List Inst} {facts : BlockFacts} {inst : Inst}
  {index : Nat}

structure Tracks (adapter : SchedulerAdapter Inst Reg) (block : List Inst) (bound : Nat) (facts : BlockFacts) : Prop where
  writers : ∀ kind reg source, facts.regs.writerOf kind reg = some source ↔
    Visible (WritesAt adapter block (.reg kind reg)) (WritesAt adapter block (.reg kind reg)) bound source
  readers : ∀ kind reg source, source ∈ facts.regs.readersOf kind reg ↔
    Visible (ReadsAt adapter block (.reg kind reg)) (WritesAt adapter block (.reg kind reg)) bound source
  flagsWriter : ∀ source, facts.lastFlagsWriter = some source ↔
    Visible (WritesAt adapter block .flags) (WritesAt adapter block .flags) bound source
  flagsReaders : ∀ source, source ∈ facts.lastFlagsReaders ↔
    Visible (ReadsAt adapter block .flags) (WritesAt adapter block .flags) bound source
  memory : ∀ source, facts.lastMemoryAccess = some source ↔
    Visible (WritesAt adapter block .memory) (WritesAt adapter block .memory) bound source

theorem tracks_start (regs : RegTracker) : Tracks adapter block 0 ⟨regs.clear, none, none, []⟩ := by
  constructor <;> simp [Visible]

theorem names_cons {adapter : SchedulerAdapter Inst Reg} {first : Reg} {regs : List Reg} {kind : RegClass} {reg : Nat} :
    Names adapter (first :: regs) kind reg ↔
      (kind = adapter.regClass first ∧ reg = adapter.regIndex first) ∨ Names adapter regs kind reg := by
  simp only [Names, List.mem_cons, exists_eq_or_imp]
  exact or_congr (and_congr eq_comm eq_comm) Iff.rfl

open Classical in
theorem foldl_recordWrite (adapter : SchedulerAdapter Inst Reg) (index : Nat) (regs : List Reg) (tracker : RegTracker) (kind : RegClass) (reg : Nat) :
    let written := regs.foldl (fun tracker reg =>
      tracker.recordWrite (adapter.regClass reg) (adapter.regIndex reg) index) tracker
    written.writerOf kind reg = (if Names adapter regs kind reg then some index else tracker.writerOf kind reg) ∧
      written.readersOf kind reg = if Names adapter regs kind reg then [] else tracker.readersOf kind reg := by
  induction regs generalizing tracker with
  | nil => simp [Names]
  | cons first regs ih =>
    obtain ⟨writer, readers⟩ := ih (tracker.recordWrite (adapter.regClass first) (adapter.regIndex first) index)
    simp only [List.foldl_cons, writer, readers, recordWrite_writerOf, recordWrite_readersOf, names_cons]
    by_cases later : Names adapter regs kind reg
    · simp [later]
    · simp [later]

theorem foldl_recordRead (adapter : SchedulerAdapter Inst Reg) (index : Nat) (regs : List Reg) (tracker : RegTracker) (kind : RegClass) (reg : Nat) :
    let read := regs.foldl (fun tracker reg =>
      tracker.recordRead (adapter.regClass reg) (adapter.regIndex reg) index) tracker
    read.writerOf kind reg = tracker.writerOf kind reg ∧
      ∀ source, source ∈ read.readersOf kind reg ↔
        source ∈ tracker.readersOf kind reg ∨ source = index ∧ Names adapter regs kind reg := by
  induction regs generalizing tracker with
  | nil => simp [Names]
  | cons first regs ih =>
    obtain ⟨writer, readers⟩ := ih (tracker.recordRead (adapter.regClass first) (adapter.regIndex first) index)
    refine ⟨writer.trans (recordRead_writerOf ..), fun source => (readers source).trans ?_⟩
    rw [recordRead_readersOf, names_cons]
    split
    next hit =>
      simp only [hit, true_or, and_true, List.mem_append, List.mem_singleton, and_self, or_assoc]
      exact or_congr Iff.rfl ⟨fun either => either.elim id And.left, Or.inl⟩
    next miss => simp only [miss, false_or]

private theorem at_index (adapter : SchedulerAdapter Inst Reg) (resource : Resource) (found : block[index]? = some inst) :
    (ReadsAt adapter block resource index ↔ Reads adapter inst resource) ∧
      (WritesAt adapter block resource index ↔ Writes adapter inst resource) := by
  simp [ReadsAt, WritesAt, found]

/-- Recording an instruction extends what is remembered by that instruction. -/
theorem Tracks.record (tracks : Tracks adapter block index facts) (found : block[index]? = some inst) :
    Tracks adapter block (index + 1) (facts.record adapter inst index) := by
  classical
  have reads := fun resource => (at_index adapter resource found).1
  have writes := fun resource => (at_index adapter resource found).2
  have registers : ∀ kind reg, (facts.record adapter inst index).regs.writerOf kind reg =
        (if WritesAt adapter block (.reg kind reg) index then some index else facts.regs.writerOf kind reg) ∧
      ∀ source, source ∈ (facts.record adapter inst index).regs.readersOf kind reg ↔
        source ∈ (if WritesAt adapter block (.reg kind reg) index then [] else facts.regs.readersOf kind reg) ∨
          source = index ∧ ReadsAt adapter block (.reg kind reg) index := by
    intro kind reg
    obtain ⟨clobbered, clobberedReaders⟩ := foldl_recordWrite adapter index (adapter.clobbers inst) facts.regs kind reg
    obtain ⟨written, writtenReaders⟩ := foldl_recordWrite adapter index (adapter.regsWritten inst)
      ((adapter.clobbers inst).foldl (fun tracker reg =>
        tracker.recordWrite (adapter.regClass reg) (adapter.regIndex reg) index) facts.regs) kind reg
    obtain ⟨read, readReaders⟩ := foldl_recordRead adapter index (adapter.regsRead inst)
      ((adapter.regsWritten inst).foldl (fun tracker reg =>
        tracker.recordWrite (adapter.regClass reg) (adapter.regIndex reg) index)
      ((adapter.clobbers inst).foldl (fun tracker reg =>
        tracker.recordWrite (adapter.regClass reg) (adapter.regIndex reg) index) facts.regs)) kind reg
    rw [writtenReaders, clobberedReaders] at readReaders
    simp only [BlockFacts.record, writes, reads, Writes, Reads]
    refine ⟨?_, fun source => ?_⟩
    · rw [read, written, clobbered]
      by_cases own : Names adapter (adapter.regsWritten inst) kind reg <;> simp [own]
    · rw [readReaders]
      by_cases own : Names adapter (adapter.regsWritten inst) kind reg <;> simp [own]
  refine ⟨fun kind reg source => ?_, fun kind reg source => ?_, fun source => ?_, fun source => ?_, fun source => ?_⟩
  · rw [(registers kind reg).1]
    exact visible_writer (tracks.writers kind reg) source
  · rw [(registers kind reg).2]
    exact visible_readers (tracks.readers kind reg) source
  · rw [← visible_writer tracks.flagsWriter source]
    simp only [writes, Writes, BlockFacts.record]
  · rw [← visible_readers tracks.flagsReaders source]
    simp only [writes, reads, Writes, Reads, BlockFacts.record]
    split <;> simp_all
  · rw [← visible_writer tracks.memory source]
    simp only [writes, Writes, BlockFacts.record]

theorem Tracks.dependencies_lt (tracks : Tracks adapter block index facts) {source : Nat}
    (member : source ∈ facts.dependencies adapter inst index) : source < index := by
  have writer : ∀ reg, facts.writer adapter reg = some source → source < index :=
    fun reg found => ((tracks.writers _ _ source).mp found).1
  have reader : ∀ reg, source ∈ facts.readers adapter reg → source < index :=
    fun reg found => ((tracks.readers _ _ source).mp found).1
  simp only [BlockFacts.dependencies, List.mem_append, List.mem_filterMap, List.mem_filter, List.mem_flatMap,
    Option.mem_toList, List.mem_ite_nil_right, or_assoc] at member
  rcases member with ⟨reg, _, found⟩ | ⟨reg, _, found⟩ | ⟨⟨reg, _, found⟩, _⟩ | ⟨_, found⟩ | ⟨_, found⟩ | ⟨_, found, _⟩ |
    ⟨_, found⟩ | ⟨reg, _, ⟨found, _⟩ | found⟩
  · exact writer reg found
  · exact writer reg found
  · exact reader reg found
  · exact ((tracks.flagsWriter source).mp found).1
  · exact ((tracks.flagsWriter source).mp found).1
  · exact ((tracks.flagsReaders source).mp found).1
  · exact ((tracks.memory source).mp found).1
  · exact reader reg found
  · exact writer reg found

/-- Every conflict that no write comes between is among the dependencies. -/
theorem Tracks.mem_dependencies (tracks : Tracks adapter block index facts) (found : block[index]? = some inst)
    {resource : Resource} {source : Nat} (earlier : source < index)
    (conflicts : Conflicts (ReadsAt adapter block resource) (WritesAt adapter block resource) source index)
    (clear : ∀ middle, source < middle → middle < index → ¬ WritesAt adapter block resource middle) :
    source ∈ facts.dependencies adapter inst index := by
  have reads := (at_index adapter resource found).1
  have writes := (at_index adapter resource found).2
  rw [Conflicts, reads, writes] at conflicts
  have different : source ≠ index := by omega
  simp only [BlockFacts.dependencies, List.mem_append, List.mem_filterMap, List.mem_filter, List.mem_flatMap,
    Option.mem_toList, List.mem_ite_nil_right, or_assoc, decide_eq_true_eq]
  cases resource with
  | reg kind reg =>
    rcases conflicts with ⟨writing, ⟨name, listed, rfl, rfl⟩ | ⟨name, listed, rfl, rfl⟩ | ⟨name, listed, rfl, rfl⟩⟩ |
      ⟨reading, ⟨name, listed, rfl, rfl⟩ | ⟨name, listed, rfl, rfl⟩⟩
    · exact Or.inl ⟨name, listed, (tracks.writers _ _ source).mpr ⟨earlier, writing, clear⟩⟩
    · exact Or.inr (Or.inl ⟨name, listed, (tracks.writers _ _ source).mpr ⟨earlier, writing, clear⟩⟩)
    · refine Or.inr (Or.inr (Or.inr (Or.inr (Or.inr (Or.inr (Or.inr ⟨name, listed, Or.inr ?_⟩))))))
      exact (tracks.writers _ _ source).mpr ⟨earlier, writing, clear⟩
    · refine Or.inr (Or.inr (Or.inl ⟨⟨name, listed, ?_⟩, different⟩))
      exact (tracks.readers _ _ source).mpr ⟨earlier, reading, clear⟩
    · refine Or.inr (Or.inr (Or.inr (Or.inr (Or.inr (Or.inr (Or.inr ⟨name, listed, Or.inl ⟨?_, different⟩⟩))))))
      exact (tracks.readers _ _ source).mpr ⟨earlier, reading, clear⟩
  | flags =>
    rcases conflicts with ⟨writing, read | write⟩ | ⟨reading, write⟩
    · exact Or.inr (Or.inr (Or.inr (Or.inl ⟨read, (tracks.flagsWriter source).mpr ⟨earlier, writing, clear⟩⟩)))
    · exact Or.inr (Or.inr (Or.inr (Or.inr (Or.inl
        ⟨write, (tracks.flagsWriter source).mpr ⟨earlier, writing, clear⟩⟩))))
    · exact Or.inr (Or.inr (Or.inr (Or.inr (Or.inr (Or.inl
        ⟨write, (tracks.flagsReaders source).mpr ⟨earlier, reading, clear⟩, different⟩)))))
  | memory =>
    have access : adapter.accessesMemory inst = true ∧ WritesAt adapter block .memory source := by
      rcases conflicts with ⟨writing, read | write⟩ | ⟨reading, write⟩
      · exact ⟨read, writing⟩
      · exact ⟨write, writing⟩
      · exact ⟨write, reading⟩
    exact Or.inr (Or.inr (Or.inr (Or.inr (Or.inr (Or.inr (Or.inl
      ⟨access.1, (tracks.memory source).mpr ⟨earlier, access.2, clear⟩⟩))))))

end Tracking

/-- The nodes list exactly these edges, which all run forward. -/
structure Lists (count : Nat) (nodes : List SchedNode) (edges : List (Nat × Nat)) : Prop where
  length : nodes.length = count
  forward : ∀ edge ∈ edges, edge.1 < edge.2 ∧ edge.2 < count
  deps : ∀ target node, nodes[target]? = some node → node.deps = (edges.filter fun edge => edge.2 = target).map Prod.fst
  users : ∀ source node, nodes[source]? = some node → node.users = (edges.filter fun edge => edge.1 = source).map Prod.snd

structure Holds (count : Nat) (graph : GraphScratch) (edges : List (Nat × Nat)) : Prop where
  lists : Lists count graph.nodes edges
  targets : graph.lastEdgeTarget.length = count
  newest : ∀ source target, graph.lastEdgeTarget[source]?.join = some target → (source, target) ∈ edges

theorem Holds.addEdge {count source target : Nat} {graph : GraphScratch} {edges : List (Nat × Nat)}
    (holds : Holds count graph edges) (forward : source < target) (inside : target < count) :
    ∃ edges', Holds count (Schedule.addEdge target graph source) edges' ∧ (source, target) ∈ edges' ∧
      ∀ edge, edge ∈ edges' ↔ edge ∈ edges ∨ edge = (source, target) := by
  unfold Schedule.addEdge
  split
  next known =>
    have member := holds.newest source target known
    refine ⟨edges, holds, member, fun edge => ⟨Or.inl, fun either => either.elim id ?_⟩⟩
    rintro rfl
    exact member
  next =>
    refine ⟨edges ++ [(source, target)], ⟨⟨?_, ?_, ?_, ?_⟩, ?_, ?_⟩, by simp, by simp⟩
    · simpa using holds.lists.length
    · intro edge member
      rcases List.mem_append.mp member with old | new
      · exact holds.lists.forward edge old
      · rw [List.mem_singleton] at new
        subst new
        exact ⟨forward, inside⟩
    · intro index node found
      simp only [List.getElem?_modify, Option.map_eq_map, Option.map_map, Option.map_eq_some_iff] at found
      obtain ⟨old, oldFound, rfl⟩ := found
      have known := holds.lists.deps index old oldFound
      rw [List.filter_append, List.map_append, ← known]
      by_cases hit : target = index
      · subst hit
        simp [show source ≠ target by omega]
      · by_cases own : source = index <;> simp [hit, own]
    · intro index node found
      simp only [List.getElem?_modify, Option.map_eq_map, Option.map_map, Option.map_eq_some_iff] at found
      obtain ⟨old, oldFound, rfl⟩ := found
      have known := holds.lists.users index old oldFound
      rw [List.filter_append, List.map_append, ← known]
      by_cases own : source = index
      · subst own
        simp [show target ≠ source by omega]
      · by_cases hit : target = index <;> simp [hit, own]
    · simpa using holds.targets
    · intro index last found
      by_cases same : index = source
      · subst same
        rw [List.getElem?_set_self (by have := holds.targets; omega)] at found
        simp_all
      · rw [List.getElem?_set_ne (Ne.symm same)] at found
        exact List.mem_append_left _ (holds.newest index last found)

theorem Holds.foldl_addEdge {count target : Nat} {graph : GraphScratch} {edges : List (Nat × Nat)}
    (holds : Holds count graph edges) (inside : target < count) (sources : List Nat)
    (forward : ∀ source ∈ sources, source < target) :
    ∃ edges', Holds count (sources.foldl (Schedule.addEdge target) graph) edges' ∧
      ∀ edge, edge ∈ edges' ↔ edge ∈ edges ∨ edge.1 ∈ sources ∧ edge.2 = target := by
  induction sources generalizing graph edges with
  | nil => exact ⟨edges, holds, by simp⟩
  | cons source sources ih =>
    obtain ⟨middle, middleHolds, _, middleMembers⟩ := holds.addEdge (forward source List.mem_cons_self) inside
    obtain ⟨edges', holds', members⟩ := ih middleHolds fun other member => forward other (List.mem_cons_of_mem _ member)
    refine ⟨edges', holds', fun edge => ?_⟩
    rw [members, middleMembers, List.mem_cons, or_assoc]
    refine or_congr Iff.rfl ⟨?_, ?_⟩
    · rintro (rfl | ⟨later, same⟩)
      · exact ⟨Or.inl rfl, rfl⟩
      · exact ⟨Or.inr later, same⟩
    · rintro ⟨same | later, hit⟩
      · exact Or.inl (Prod.ext same hit)
      · exact Or.inr ⟨later, hit⟩

section Build
variable {Inst Reg : Type} (adapter : SchedulerAdapter Inst Reg) (block : List Inst)

/-- Every conflict that no write comes between is an edge. -/
def Covers (bound : Nat) (edges : List (Nat × Nat)) : Prop :=
  ∀ resource source target, source < target → target < bound →
    Conflicts (ReadsAt adapter block resource) (WritesAt adapter block resource) source target →
    (∀ middle, source < middle → middle < target → ¬ WritesAt adapter block resource middle) → (source, target) ∈ edges

variable {adapter block}

theorem visitInst_spec {graph : GraphScratch} {facts : BlockFacts} {edges : List (Nat × Nat)} {inst : Inst} {index : Nat}
    (found : block[index]? = some inst) (tracks : Tracks adapter block index facts)
    (holds : Holds block.length graph edges) (covers : Covers adapter block index edges) :
    let visited := visitInst adapter (graph, facts) (inst, index)
    Tracks adapter block (index + 1) visited.2 ∧
      ∃ edges', Holds block.length visited.1 edges' ∧ Covers adapter block (index + 1) edges' := by
  have inside := (List.getElem?_eq_some_iff.mp found).1
  obtain ⟨edges', holds', members⟩ := holds.foldl_addEdge inside (facts.dependencies adapter inst index)
    fun source => tracks.dependencies_lt
  refine ⟨tracks.record found, edges', holds', ?_⟩
  intro resource source target earlier below conflicts clear
  rw [members]
  by_cases newest : target = index
  · subst newest
    exact Or.inr ⟨tracks.mem_dependencies found earlier conflicts clear, rfl⟩
  · exact Or.inl (covers resource source target earlier (by omega) conflicts clear)

theorem visitInsts_spec (rest : List Inst) (edges : List (Nat × Nat)) {bound : Nat} (split : block.drop bound = rest)
    {graph : GraphScratch} {facts : BlockFacts} (inside : bound ≤ block.length)
    (tracks : Tracks adapter block bound facts) (holds : Holds block.length graph edges)
    (covers : Covers adapter block bound edges) :
    ∃ edges', Holds block.length ((rest.zipIdx bound).foldl (visitInst adapter) (graph, facts)).1 edges' ∧
      Covers adapter block block.length edges' := by
  induction rest generalizing bound graph facts edges with
  | nil =>
    have whole : bound = block.length := by
      have := List.drop_eq_nil_iff.mp split
      omega
    exact ⟨edges, holds, whole ▸ covers⟩
  | cons inst rest ih =>
    have found : block[bound]? = some inst := by
      rw [← List.head?_drop, split, List.head?_cons]
    have below := (List.getElem?_eq_some_iff.mp found).1
    obtain ⟨tracks', edges', holds', covers'⟩ := visitInst_spec found tracks holds covers
    refine ih edges' ?_ below tracks' holds' covers'
    rw [← List.drop_drop, split, List.drop_one, List.tail_cons]

theorem resetNodes_eq (nodes : List SchedNode) :
    List.zipWith (fun node inst => node.reset (adapter.latency inst)) (resize nodes block.length (.new 0)) block =
      block.map fun inst => SchedNode.new (adapter.latency inst) := by
  refine List.ext_getElem ?_ ?_
  · simp only [List.length_zipWith, List.length_map, resize, List.length_append, List.length_take, List.length_replicate]
    omega
  · intro index _ _
    simp [SchedNode.reset, SchedNode.new]

/-- Whatever tables it is built in, the graph holds forward edges that cover
every direct conflict of the block. -/
theorem buildDepGraphReusing_spec (regs : RegTracker) (graph : GraphScratch) :
    ∃ edges, Holds block.length (buildDepGraphReusing adapter block regs graph).1 edges ∧
      Covers adapter block block.length edges := by
  refine visitInsts_spec block [] rfl (Nat.zero_le _) (tracks_start regs) ?_ ?_
  · rw [resetNodes_eq]
    have fresh : ∀ (index : Nat) (node : SchedNode), (block.map fun inst => SchedNode.new (adapter.latency inst))[index]? = some node →
        node.deps = [] ∧ node.users = [] := by
      intro index node found
      rw [List.getElem?_map, Option.map_eq_some_iff] at found
      obtain ⟨inst, _, rfl⟩ := found
      exact ⟨rfl, rfl⟩
    refine ⟨⟨by simp, by simp, fun index node found => (fresh index node found).1,
      fun index node found => (fresh index node found).2⟩, by simp, ?_⟩
    intro source target known
    rw [List.getElem?_replicate] at known
    split at known <;> cases known
  · exact fun resource source target _ below => absurd below (Nat.not_lt_zero _)

end Build

section Reuse
variable {Inst Reg : Type} (adapter : SchedulerAdapter Inst Reg)

structure Alike (first second : BlockFacts) : Prop where
  writers : ∀ kind reg, first.regs.writerOf kind reg = second.regs.writerOf kind reg
  readers : ∀ kind reg, first.regs.readersOf kind reg = second.regs.readersOf kind reg
  memory : first.lastMemoryAccess = second.lastMemoryAccess
  flagsWriter : first.lastFlagsWriter = second.lastFlagsWriter
  flagsReaders : first.lastFlagsReaders = second.lastFlagsReaders

variable {adapter} {first second : BlockFacts}

theorem Alike.dependencies (alike : Alike first second) (inst : Inst) (index : Nat) :
    first.dependencies adapter inst index = second.dependencies adapter inst index := by
  have writer : first.writer adapter = second.writer adapter := funext fun reg => alike.writers _ _
  have readers : first.readers adapter = second.readers adapter := funext fun reg => alike.readers _ _
  simp only [BlockFacts.dependencies, writer, readers, alike.memory, alike.flagsWriter, alike.flagsReaders]

private theorem foldl_alike (step : RegTracker → Reg → RegTracker)
    (keeps : ∀ before after reg, (∀ kind index, before.writerOf kind index = after.writerOf kind index) →
      (∀ kind index, before.readersOf kind index = after.readersOf kind index) →
      (∀ kind index, (step before reg).writerOf kind index = (step after reg).writerOf kind index) ∧
      ∀ kind index, (step before reg).readersOf kind index = (step after reg).readersOf kind index)
    (regs : List Reg) {before after : RegTracker}
    (writers : ∀ kind index, before.writerOf kind index = after.writerOf kind index)
    (readers : ∀ kind index, before.readersOf kind index = after.readersOf kind index) :
    (∀ kind index, (regs.foldl step before).writerOf kind index = (regs.foldl step after).writerOf kind index) ∧
      ∀ kind index, (regs.foldl step before).readersOf kind index = (regs.foldl step after).readersOf kind index := by
  induction regs generalizing before after with
  | nil => exact ⟨writers, readers⟩
  | cons reg regs ih => exact ih (keeps before after reg writers readers).1 (keeps before after reg writers readers).2

theorem Alike.record (alike : Alike first second) (inst : Inst) (index : Nat) :
    Alike (first.record adapter inst index) (second.record adapter inst index) := by
  have write : ∀ (before after : RegTracker) (reg : Reg),
      (∀ kind index, before.writerOf kind index = after.writerOf kind index) →
      (∀ kind index, before.readersOf kind index = after.readersOf kind index) →
      (∀ kind query, (before.recordWrite (adapter.regClass reg) (adapter.regIndex reg) index).writerOf kind query =
        (after.recordWrite (adapter.regClass reg) (adapter.regIndex reg) index).writerOf kind query) ∧
      ∀ kind query, (before.recordWrite (adapter.regClass reg) (adapter.regIndex reg) index).readersOf kind query =
        (after.recordWrite (adapter.regClass reg) (adapter.regIndex reg) index).readersOf kind query := by
    intro before after reg writers readers
    exact ⟨fun kind query => by rw [recordWrite_writerOf, recordWrite_writerOf, writers],
      fun kind query => by rw [recordWrite_readersOf, recordWrite_readersOf, readers]⟩
  have clobbered := foldl_alike _ write (adapter.clobbers inst) alike.writers alike.readers
  have written := foldl_alike _ write (adapter.regsWritten inst) clobbered.1 clobbered.2
  have read := foldl_alike (fun tracker reg => tracker.recordRead (adapter.regClass reg) (adapter.regIndex reg) index)
    (fun before after reg writers readers =>
      ⟨fun kind query => by rw [recordRead_writerOf, recordRead_writerOf, writers],
        fun kind query => by rw [recordRead_readersOf, recordRead_readersOf, readers]⟩)
    (adapter.regsRead inst) written.1 written.2
  refine ⟨read.1, read.2, ?_, ?_, ?_⟩ <;>
    simp only [BlockFacts.record, alike.memory, alike.flagsWriter, alike.flagsReaders]

theorem Alike.visit (alike : Alike first second) (graph : GraphScratch) (entries : List (Inst × Nat)) :
    (entries.foldl (visitInst adapter) (graph, first)).1 = (entries.foldl (visitInst adapter) (graph, second)).1 := by
  induction entries generalizing graph first second with
  | nil => rfl
  | cons entry entries ih =>
    obtain ⟨inst, index⟩ := entry
    simp only [List.foldl_cons, visitInst, alike.dependencies]
    exact ih (alike.record inst index) _

/-- The tables a graph is built in do not show in it. -/
theorem buildDepGraphReusing_fresh (block : List Inst) (regs : RegTracker) (graph : GraphScratch) :
    (buildDepGraphReusing adapter block regs graph).1 = (buildDepGraphReusing adapter block .new .new).1 := by
  have alike : Alike ⟨regs.clear, none, none, []⟩ ⟨RegTracker.new.clear, none, none, []⟩ := by
    refine ⟨fun kind reg => ?_, fun kind reg => ?_, rfl, rfl, rfl⟩ <;> simp
  simp only [buildDepGraphReusing, resetNodes_eq]
  exact alike.visit _ _

end Reuse

end Rue.Proofs.DepGraph
