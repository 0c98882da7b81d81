import Mathlib.Data.List.Rotate
import Mathlib.Logic.Relation
import Rue.Query.WaitGraph

/-! No reachable wait graph has a cycle: a wait is declined exactly when it would
close one. -/

namespace Rue.Proofs.WaitGraph

open Lib Query

variable {Label Identity : Type} {graph : WaitGraph Label} {waiter owner current target task : TaskId} {label : Label}

def labelOf (graph : WaitGraph Label) (waiter owner : TaskId) : Option Label := (edgesOf graph waiter).find? owner

def Waits (graph : WaitGraph Label) (waiter owner : TaskId) : Prop := (labelOf graph waiter owner).isSome

def Acyclic (graph : WaitGraph Label) : Prop := ∀ task, ¬Relation.TransGen (Waits graph) task task

/-- No task has an entry without an edge. -/
def Tidy (graph : WaitGraph Label) : Prop := ∀ waiter edges, graph.find? waiter = some edges → edges.entries ≠ []

/-- The tasks and labels on a way to the target, which it reaches only at its end. -/
inductive Route (graph : WaitGraph Label) (target : TaskId) : TaskId → List TaskId → List Label → Prop where
  | last {current : TaskId} {label : Label} (edge : labelOf graph current target = some label) :
      Route graph target current [current] [label]
  | step {current next : TaskId} {label : Label} {nodes : List TaskId} {labels : List Label}
      (edge : labelOf graph current next = some label) (before : next ≠ target)
      (rest : Route graph target next nodes labels) : Route graph target current (current :: nodes) (label :: labels)

theorem labelOf_insert {edges : SortedMap TaskId Label} : labelOf (graph.insert waiter edges) current owner =
    if current = waiter then edges.find? owner else labelOf graph current owner := by
  simp only [labelOf, edgesOf, SortedMap.find?_insert]
  split <;> rfl

theorem labelOf_extend : labelOf (graph.insert waiter ((edgesOf graph waiter).insert owner label)) current task =
    if current = waiter ∧ task = owner then some label else labelOf graph current task := by
  rw [labelOf_insert]
  split
  next same =>
    subst same
    rw [SortedMap.find?_insert]
    split
    next also => rw [if_pos ⟨rfl, also⟩]
    next other => rw [if_neg fun both => other both.2]; rfl
  next different => rw [if_neg fun both => different both.1]

theorem labelOf_removeEdge : labelOf (removeEdge graph waiter owner) current task =
    if current = waiter ∧ task = owner then none else labelOf graph current task := by
  simp only [removeEdge]
  split
  next absent =>
    split
    next both =>
      obtain ⟨rfl, -⟩ := both
      simp [labelOf, edgesOf, absent]
    next => rfl
  next edges found =>
    have own : edgesOf graph waiter = edges := by simp [edgesOf, found]
    have erased : (if current = waiter then (edges.erase owner).find? task else labelOf graph current task) =
        if current = waiter ∧ task = owner then none else labelOf graph current task := by
      by_cases same : current = waiter
      · subst same
        simp only [SortedMap.find?_erase, labelOf, own, true_and, if_true]
      · rw [if_neg same, if_neg fun both => same both.1]
    rw [← erased]
    split
    next isEmpty =>
      simp only [labelOf, edgesOf, SortedMap.find?_erase]
      split
      next same =>
        have none : (edges.erase owner).find? task = none := by
          rw [SortedMap.find?_eq_none, List.isEmpty_iff.mp isEmpty]
          simp
        simp only [SortedMap.find?_erase] at none
        rw [none]
        rfl
      next => rfl
    next => exact labelOf_insert

theorem tidy_empty : Tidy (SortedMap.empty : WaitGraph Label) := by
  intro waiter edges found
  cases found

theorem insert_ne_nil {edges : SortedMap TaskId Label} : (edges.insert owner label).entries ≠ [] := by
  intro isEmpty
  have found : (edges.insert owner label).find? owner = some label := by simp
  rw [← SortedMap.mem_entries, isEmpty] at found
  cases found

theorem tidy_extend (tidy : Tidy graph) :
    Tidy (graph.insert waiter ((edgesOf graph waiter).insert owner label)) := by
  intro other edges found
  rw [SortedMap.find?_insert] at found
  split at found
  · cases found
    exact insert_ne_nil
  · exact tidy other edges found

theorem tidy_removeEdge (tidy : Tidy graph) : Tidy (removeEdge graph waiter owner) := by
  simp only [removeEdge]
  split
  · exact tidy
  next edges known =>
    split
    next =>
      intro other rest found
      rw [SortedMap.find?_erase] at found
      split at found
      · cases found
      · exact tidy other rest found
    next full =>
      intro other rest found
      rw [SortedMap.find?_insert] at found
      split at found
      · cases found
        exact fun isEmpty => full (List.isEmpty_iff.mpr isEmpty)
      · exact tidy other rest found

theorem removeEdge_extend (tidy : Tidy graph) (absent : labelOf graph waiter owner = none) :
    removeEdge (graph.insert waiter ((edgesOf graph waiter).insert owner label)) waiter owner = graph := by
  have erased : ((edgesOf graph waiter).insert owner label).erase owner = edgesOf graph waiter :=
    SortedMap.erase_insert absent
  simp only [removeEdge, SortedMap.find?_insert, if_true, erased]
  cases known : graph.find? waiter with
  | none =>
    have nothing : (edgesOf graph waiter).entries.isEmpty = true := by simp [edgesOf, known, SortedMap.empty]
    rw [if_pos nothing, SortedMap.erase_insert known]
  | some edges =>
    have own : edgesOf graph waiter = edges := by simp [edgesOf, known]
    have full := tidy waiter edges known
    rw [own, if_neg (by simpa using full)]
    apply SortedMap.ext_find?
    intro query
    rw [SortedMap.find?_insert, SortedMap.find?_insert]
    split
    next same => rw [same, known]
    next => rfl

/-- The tasks with edges that the search has not visited. -/
def unvisited (graph : WaitGraph Label) (visited : List TaskId) : Nat :=
  (graph.entries.filter (·.1 ∉ visited)).length

theorem unvisited_mono {visited more : List TaskId} (grows : ∀ task ∈ visited, task ∈ more) :
    unvisited graph more ≤ unvisited graph visited := by
  apply List.Sublist.length_le
  apply List.monotone_filter_right
  intro entry fresh
  simp only [decide_eq_true_eq] at fresh ⊢
  exact fun member => fresh (grows _ member)

theorem unvisited_cons {visited : List TaskId} {edges : SortedMap TaskId Label}
    (known : graph.find? current = some edges) (fresh : current ∉ visited) :
    unvisited graph (current :: visited) < unvisited graph visited := by
  have member := SortedMap.mem_entries.mpr known
  have split : graph.entries.filter (·.1 ∉ current :: visited) =
      (graph.entries.filter (·.1 ∉ visited)).filter (·.1 ≠ current) := by
    rw [List.filter_filter]
    apply List.filter_congr
    intro entry _
    simp [not_or]
  rw [unvisited, unvisited, split]
  apply List.length_filter_lt_length_iff_exists.mpr
  exact ⟨_, List.mem_filter.mpr ⟨member, by simpa using fresh⟩, by simp⟩

/-- What a search that found the target has put on its path. -/
def Found (graph : WaitGraph Label) (target current : TaskId) (search after : WaitSearch Label) : Prop :=
  ∃ nodes labels, Route graph target current nodes labels ∧ after.path = search.path ++ labels ∧ nodes.Nodup ∧
    ∀ task ∈ nodes, task ∉ search.visited

/-- What a search that failed has visited leads neither to the target nor out. -/
structure Failed (graph : WaitGraph Label) (target : TaskId) (search after : WaitSearch Label) : Prop where
  path : after.path = search.path
  grows : ∀ task ∈ search.visited, task ∈ after.visited
  closed : ∀ task ∈ after.visited, task ∉ search.visited → ∀ owner, Waits graph task owner →
    owner ≠ target ∧ owner ∈ after.visited

def Explores (graph : WaitGraph Label) (target : TaskId) (bound : Nat)
    (visit : TaskId → WaitSearch Label → Bool × WaitSearch Label) : Prop :=
  ∀ current search, unvisited graph search.visited < bound →
    (∀ after, visit current search = (true, after) → Found graph target current search after) ∧
    ∀ after, visit current search = (false, after) → Failed graph target search after ∧ current ∈ after.visited

theorem followEdges_true {bound : Nat} {visit : TaskId → WaitSearch Label → Bool × WaitSearch Label}
    (explores : Explores graph target bound visit) {edges : List (TaskId × Label)} {search after : WaitSearch Label}
    (fuel : unvisited graph search.visited < bound) (found : followEdges visit target edges search = (true, after)) :
    ∃ owner label labels nodes, (owner, label) ∈ edges ∧ after.path = search.path ++ label :: labels ∧ nodes.Nodup ∧
      (∀ task ∈ nodes, task ∉ search.visited) ∧
      (owner = target ∧ labels = [] ∧ nodes = [] ∨ owner ≠ target ∧ Route graph target owner nodes labels) := by
  induction edges generalizing search with
  | nil => cases found
  | cons edge rest ih =>
    obtain ⟨owner, label⟩ := edge
    simp only [followEdges] at found
    split at found
    next reached =>
      obtain ⟨-, rfl⟩ := Prod.mk.inj found
      exact ⟨owner, label, [], [], by simp, rfl, List.nodup_nil, by simp, Or.inl ⟨reached, rfl, rfl⟩⟩
    next different =>
      have here := explores owner { search with path := search.path ++ [label] } fuel
      split at found
      next last visited =>
        obtain ⟨-, rfl⟩ := Prod.mk.inj found
        obtain ⟨nodes, labels, route, path, distinct, fresh⟩ := here.1 _ visited
        refine ⟨owner, label, labels, nodes, by simp, ?_, distinct, fresh, Or.inr ⟨different, route⟩⟩
        rw [path, List.append_assoc]
        rfl
      next last visited =>
        obtain ⟨failed, -⟩ := here.2 _ visited
        have path : last.path.dropLast = search.path := by rw [failed.path, List.dropLast_concat]
        have less : unvisited graph ({ last with path := last.path.dropLast } : WaitSearch Label).visited < bound :=
          lt_of_le_of_lt (unvisited_mono failed.grows) fuel
        obtain ⟨owner, label, labels, nodes, member, same, distinct, fresh, ends⟩ := ih less found
        refine ⟨owner, label, labels, nodes, List.mem_cons_of_mem _ member, ?_, distinct, ?_, ends⟩
        · rw [same, path]
        · exact fun task inside old => fresh task inside (failed.grows task old)

theorem followEdges_false {bound : Nat} {visit : TaskId → WaitSearch Label → Bool × WaitSearch Label}
    (explores : Explores graph target bound visit) {edges : List (TaskId × Label)} {search after : WaitSearch Label}
    (fuel : unvisited graph search.visited < bound) (failed : followEdges visit target edges search = (false, after)) :
    Failed graph target search after ∧ ∀ edge ∈ edges, edge.1 ≠ target ∧ edge.1 ∈ after.visited := by
  induction edges generalizing search with
  | nil =>
    obtain ⟨-, rfl⟩ := Prod.mk.inj failed
    exact ⟨⟨rfl, fun _ member => member, fun _ member fresh => absurd member fresh⟩, by simp⟩
  | cons edge rest ih =>
    obtain ⟨owner, label⟩ := edge
    simp only [followEdges] at failed
    split at failed
    · cases failed
    next different =>
      have here := explores owner { search with path := search.path ++ [label] } fuel
      split at failed
      · cases failed
      next last visited =>
        obtain ⟨first, entered⟩ := here.2 _ visited
        have path : last.path.dropLast = search.path := by rw [first.path, List.dropLast_concat]
        have less : unvisited graph ({ last with path := last.path.dropLast } : WaitSearch Label).visited < bound :=
          lt_of_le_of_lt (unvisited_mono first.grows) fuel
        obtain ⟨second, others⟩ := ih less failed
        refine ⟨⟨?_, fun task member => second.grows task (first.grows task member), ?_⟩, ?_⟩
        · rw [second.path, path]
        · intro task member fresh owner edge
          by_cases early : task ∈ last.visited
          · obtain ⟨apart, inside⟩ := first.closed task early fresh owner edge
            exact ⟨apart, second.grows owner inside⟩
          · exact second.closed task member early owner edge
        · intro other member
          rcases List.mem_cons.mp member with rfl | member
          · exact ⟨different, second.grows _ entered⟩
          · exact others other member

theorem labelOf_of_mem {edges : SortedMap TaskId Label} (known : graph.find? current = some edges) :
    (owner, label) ∈ edges.entries ↔ labelOf graph current owner = some label := by
  rw [SortedMap.mem_entries]
  simp only [labelOf, edgesOf, known, Option.getD_some]

/-- The search finds a way to the target, or all it visits leads elsewhere. -/
theorem waitPath_explores (fuel : Nat) : Explores graph target fuel (waitPath graph target fuel) := by
  induction fuel with
  | zero => exact fun _ _ none => absurd none (Nat.not_lt_zero _)
  | succ fuel ih =>
    intro current search enough
    simp only [waitPath]
    split
    next old =>
      refine ⟨fun after found => by simp at found, ?_⟩
      intro after failed
      obtain ⟨-, rfl⟩ := Prod.mk.inj failed
      exact ⟨⟨rfl, fun _ member => member, fun _ member fresh => absurd member fresh⟩, old⟩
    next fresh =>
      have entered : ∀ task ∈ search.visited, task ∈ current :: search.visited := fun _ => List.mem_cons_of_mem _
      split
      next alone =>
        refine ⟨fun after found => by simp at found, ?_⟩
        intro after failed
        obtain ⟨-, rfl⟩ := Prod.mk.inj failed
        refine ⟨⟨rfl, entered, ?_⟩, by simp⟩
        intro task member new owner edge
        rcases List.mem_cons.mp member with rfl | member
        · have nothing : labelOf graph task owner = none := by
            rw [labelOf, edgesOf, alone]
            rfl
          simp [Waits, nothing] at edge
        · exact absurd member new
      next edges known =>
        have less : unvisited graph (current :: search.visited) < fuel :=
          lt_of_lt_of_le (unvisited_cons known fresh) (Nat.lt_succ_iff.mp enough)
        constructor
        · intro after found
          obtain ⟨owner, label, labels, nodes, member, path, distinct, new, ends⟩ := followEdges_true ih less found
          have edge := (labelOf_of_mem known).mp member
          rcases ends with ⟨rfl, rfl, rfl⟩ | ⟨different, route⟩
          · exact ⟨[current], [label], .last edge, path, List.nodup_singleton _, by simpa using fresh⟩
          · refine ⟨current :: nodes, label :: labels, .step edge different route, path, ?_, ?_⟩
            · exact List.nodup_cons.mpr ⟨fun inside => new current inside (by simp), distinct⟩
            · intro task inside old
              rcases List.mem_cons.mp inside with rfl | inside
              · exact fresh old
              · exact new task inside (entered task old)
        · intro after failed
          obtain ⟨rest, others⟩ := followEdges_false ih less failed
          refine ⟨⟨rest.path, fun task member => rest.grows task (entered task member), ?_⟩, rest.grows _ (by simp)⟩
          intro task member new owner edge
          by_cases same : task = current
          · subst same
            obtain ⟨label, found⟩ := Option.isSome_iff_exists.mp edge
            exact others _ ((labelOf_of_mem known).mpr found)
          · exact rest.closed task member (by simp [same, new]) owner edge

/-- From a point that leads nowhere, every task reached is visited and none waits
for the target. -/
theorem Failed.unreached {search after : WaitSearch Label} (failed : Failed graph target search after)
    (empty : search.visited = []) (member : current ∈ after.visited) :
    ¬Relation.TransGen (Waits graph) current target := by
  have visited (task : TaskId) (way : Relation.ReflTransGen (Waits graph) current task) : task ∈ after.visited := by
    induction way with
    | refl => exact member
    | tail _ edge inside => exact (failed.closed _ inside (by simp [empty]) _ edge).2
  intro way
  obtain ⟨last, before, edge⟩ := Relation.TransGen.tail'_iff.mp way
  exact (failed.closed last (visited last before) (by simp [empty]) target edge).1 rfl

theorem Route.reaches {nodes : List TaskId} {labels : List Label} (route : Route graph target current nodes labels) :
    Relation.TransGen (Waits graph) current target := by
  induction route with
  | last edge => exact .single (by simp [Waits, edge])
  | step edge _ _ ih => exact .head (by simp [Waits, edge]) ih

section Extend

variable (graph waiter owner label)

def extend : WaitGraph Label := graph.insert waiter ((edgesOf graph waiter).insert owner label)

variable {graph waiter owner label}

theorem waits_extend : Waits (extend graph waiter owner label) current task ↔
    current = waiter ∧ task = owner ∨ Waits graph current task := by
  rw [Waits, extend, labelOf_extend]
  split
  next both => simp [both]
  next other => simp [Waits, other]

/-- A way with the new edge is a way without, or it passes the edge. -/
theorem transGen_extend (way : Relation.TransGen (Waits (extend graph waiter owner label)) current task) :
    Relation.TransGen (Waits graph) current task ∨
      Relation.ReflTransGen (Waits (extend graph waiter owner label)) current waiter ∧
        Relation.ReflTransGen (Waits (extend graph waiter owner label)) owner task := by
  induction way with
  | single edge =>
    rcases waits_extend.mp edge with ⟨rfl, rfl⟩ | old
    · exact Or.inr ⟨.refl, .refl⟩
    · exact Or.inl (.single old)
  | tail before edge ih =>
    rcases waits_extend.mp edge with ⟨rfl, rfl⟩ | old
    · exact Or.inr ⟨before.to_reflTransGen, .refl⟩
    · rcases ih with without | ⟨early, late⟩
      · exact Or.inl (.tail without old)
      · exact Or.inr ⟨early, late.tail edge⟩

theorem acyclic_extend (acyclic : Acyclic graph) (different : owner ≠ waiter)
    (apart : ¬Relation.TransGen (Waits (extend graph waiter owner label)) owner waiter) :
    Acyclic (extend graph waiter owner label) := by
  intro task cycle
  rcases transGen_extend cycle with old | ⟨early, late⟩
  · exact acyclic task old
  · rcases Relation.reflTransGen_iff_eq_or_transGen.mp (late.trans early) with same | way
    · exact different same.symm
    · exact apart way

/-- Before it reaches the waiter, a route from elsewhere does not use the new edge. -/
theorem Route.old {nodes : List TaskId} {labels : List Label}
    (route : Route (extend graph waiter owner label) waiter current nodes labels) (elsewhere : current ≠ waiter) :
    Route graph waiter current nodes labels := by
  induction route with
  | last edge =>
    rw [extend, labelOf_extend, if_neg fun both => elsewhere both.1] at edge
    exact .last edge
  | step edge before _ ih =>
    rw [extend, labelOf_extend, if_neg fun both => elsewhere both.1] at edge
    exact .step edge before (ih before)

theorem acyclic_removeEdge (acyclic : Acyclic graph) : Acyclic (removeEdge graph waiter owner) := by
  intro task cycle
  apply acyclic task
  refine Relation.TransGen.mono (show Waits (removeEdge graph waiter owner) ≤ Waits graph from ?_) task task cycle
  intro first second edge
  rw [Waits, labelOf_removeEdge] at edge
  split at edge
  · cases edge
  · exact edge

end Extend

section Report

variable [LinearOrder Identity]

theorem mem_destutter {nodes : List Identity} {node : Identity} : node ∈ nodes.destutter (· ≠ ·) ↔ node ∈ nodes := by
  refine ⟨fun member => (List.destutter_sublist _ _).subset member, ?_⟩
  cases nodes with
  | nil => exact fun member => member
  | cons first rest =>
    rw [List.destutter_cons']
    induction rest generalizing first with
    | nil => exact fun member => member
    | cons second rest ih =>
      intro member
      by_cases same : first = second
      · rw [List.destutter'_cons_neg _ (by simpa using same)]
        apply ih
        subst same
        simpa using member
      · rw [List.destutter'_cons_pos _ same]
        rcases List.mem_cons.mp member with rfl | later
        · exact List.mem_cons_self
        · exact List.mem_cons_of_mem _ (ih second later)

theorem mem_canonicalCycle {nodes : List Identity} {node : Identity} : node ∈ canonicalCycle nodes ↔ node ∈ nodes := by
  rw [canonicalCycle, mem_destutter, List.mem_insertionSort]

theorem sorted_canonicalCycle (nodes : List Identity) : (canonicalCycle nodes).Pairwise (· < ·) := by
  have ordered : (canonicalCycle nodes).Pairwise (· ≤ ·) := by
    apply List.Pairwise.sublist (List.destutter_sublist _ _)
    exact List.pairwise_insertionSort (· ≤ ·) nodes
  have distinct : (canonicalCycle nodes).IsChain (· ≠ ·) := List.isChain_destutter _ _
  apply List.IsChain.pairwise
  have chained := ordered.isChain
  generalize canonicalCycle nodes = cycle at distinct chained
  induction cycle with
  | nil => exact .nil
  | cons first rest ih =>
    cases rest with
    | nil => exact .singleton _
    | cons second rest =>
      rw [List.isChain_cons_cons] at distinct chained ⊢
      exact ⟨lt_of_le_of_ne chained.1 distinct.1, ih distinct.2 chained.2⟩

end Report

theorem Route.avoids {nodes : List TaskId} {labels : List Label} (route : Route graph target current nodes labels)
    (elsewhere : current ≠ target) : target ∉ nodes := by
  induction route with
  | last => simpa using elsewhere.symm
  | step _ before _ ih =>
    rw [List.mem_cons, not_or]
    exact ⟨elsewhere.symm, ih before⟩

/-- The labels of the edges by which a new edge from the waiter to the owner
leads back to the waiter, each task passed once. -/
def ClosesCycle (graph : WaitGraph Label) (waiter owner : TaskId) (labels : List Label) : Prop :=
  owner = waiter ∧ labels = [] ∨
    owner ≠ waiter ∧ ∃ nodes, Route graph waiter owner nodes labels ∧ (waiter :: nodes).Nodup

theorem ClosesCycle.closes {labels : List Label} (closes : ClosesCycle graph waiter owner labels) :
    owner = waiter ∨ Relation.TransGen (Waits graph) owner waiter := by
  rcases closes with ⟨same, -⟩ | ⟨-, nodes, route, -⟩
  · exact Or.inl same
  · exact Or.inr route.reaches

/-- A route found in the extended graph is the rest of a cycle through the new edge. -/
theorem closesCycle_of_route {nodes : List TaskId} {labels : List Label} (acyclic : Acyclic graph)
    (route : Route (extend graph waiter owner label) waiter owner nodes labels) (distinct : nodes.Nodup) :
    ∃ others, ClosesCycle graph waiter owner others ∧ ∀ passed, passed ∈ labels ++ [label] ↔ passed ∈ label :: others := by
  by_cases same : owner = waiter
  · subst same
    refine ⟨[], Or.inl ⟨rfl, rfl⟩, ?_⟩
    cases route with
    | last edge =>
      rw [extend, labelOf_extend, if_pos ⟨rfl, rfl⟩] at edge
      cases edge
      simp
    | step edge before rest =>
      -- A longer way back would have been a cycle before.
      rw [extend, labelOf_extend, if_neg fun both => before both.2] at edge
      exact absurd (.head (by simp [Waits, edge]) (rest.old before).reaches) (acyclic owner)
  · refine ⟨labels, Or.inr ⟨same, nodes, route.old same, ?_⟩, fun passed => by simp [or_comm]⟩
    exact List.nodup_cons.mpr ⟨route.avoids same, distinct⟩

theorem beginWait_eq [LinearOrder Identity] (nodeIdentity : Label → Identity)
    (absent : labelOf graph waiter owner = none) : beginWait nodeIdentity graph waiter owner label =
      match waitPath (extend graph waiter owner label) waiter ((extend graph waiter owner label).size + 1) owner ⟨[], []⟩ with
      | (true, search) => some (removeEdge (extend graph waiter owner label) waiter owner,
          .error (canonicalCycle ((search.path ++ [label]).map nodeIdentity)))
      | (false, _) => some (extend graph waiter owner label, .ok ()) := by
  have unregistered : ((edgesOf graph waiter).find? owner).isSome = false := by
    rw [labelOf] at absent
    rw [absent]
    rfl
  simp only [beginWait, unregistered, Bool.false_eq_true, if_false]
  rfl

/-- What registering a wait does: it closes a cycle and is taken back, or it is
added to a graph that stays without one. -/
theorem beginWait_spec [LinearOrder Identity] (nodeIdentity : Label → Identity) (tidy : Tidy graph)
    (acyclic : Acyclic graph) (absent : labelOf graph waiter owner = none) (label : Label) :
    (∃ reported labels, beginWait nodeIdentity graph waiter owner label = some (graph, .error reported) ∧
        ClosesCycle graph waiter owner labels ∧ reported.Pairwise (· < ·) ∧
        ∀ identity, identity ∈ reported ↔ ∃ passed ∈ label :: labels, nodeIdentity passed = identity) ∨
      beginWait nodeIdentity graph waiter owner label = some (extend graph waiter owner label, .ok ()) ∧
        Acyclic (extend graph waiter owner label) ∧ owner ≠ waiter ∧ ¬Relation.TransGen (Waits graph) owner waiter := by
  have fuel : unvisited (extend graph waiter owner label) [] < (extend graph waiter owner label).size + 1 :=
    Nat.lt_succ_of_le (List.length_filter_le _ _)
  have explores : Explores (extend graph waiter owner label) waiter ((extend graph waiter owner label).size + 1) _ :=
    waitPath_explores _
  obtain ⟨finds, fails⟩ := explores owner ⟨[], []⟩ fuel
  rw [beginWait_eq nodeIdentity absent]
  rcases result : waitPath (extend graph waiter owner label) waiter ((extend graph waiter owner label).size + 1) owner
    ⟨[], []⟩ with ⟨found, after⟩
  cases found with
  | true =>
    left
    obtain ⟨nodes, labels, route, path, distinct, -⟩ := finds after result
    obtain ⟨others, closes, same⟩ := closesCycle_of_route acyclic route distinct
    refine ⟨canonicalCycle ((after.path ++ [label]).map nodeIdentity), others, ?_, closes, sorted_canonicalCycle _, ?_⟩
    · rw [extend, removeEdge_extend tidy absent]
    · intro identity
      rw [mem_canonicalCycle, List.mem_map, path, List.nil_append]
      simp only [same]
  | false =>
    right
    obtain ⟨failed, entered⟩ := fails after result
    have apart := failed.unreached rfl entered
    have different : owner ≠ waiter := by
      rintro rfl
      apply apart
      exact .single (waits_extend.mpr (Or.inl ⟨rfl, rfl⟩))
    refine ⟨rfl, acyclic_extend acyclic different apart, different, ?_⟩
    intro way
    apply apart
    refine Relation.TransGen.mono (show Waits graph ≤ Waits (extend graph waiter owner label) from ?_) owner waiter way
    exact fun first second edge => waits_extend.mpr (Or.inr edge)

theorem reached_invariant [LinearOrder Identity] {nodeIdentity : Label → Identity}
    (reached : WaitReached nodeIdentity graph) : Tidy graph ∧ Acyclic graph := by
  induction reached with
  | start =>
    refine ⟨tidy_empty, fun task cycle => ?_⟩
    obtain ⟨_, edge, -⟩ := Relation.TransGen.head'_iff.mp cycle
    cases edge
  | @step graph next action _ taken ih =>
    obtain ⟨tidy, acyclic⟩ := ih
    cases action with
    | beginWait waiter owner label =>
      simp only [waitStep] at taken
      cases registered : labelOf graph waiter owner with
      | some _ =>
        rw [labelOf] at registered
        simp [beginWait, registered] at taken
      | none =>
        rcases beginWait_spec nodeIdentity tidy acyclic registered label with
          ⟨reported, labels, begins, -⟩ | ⟨begins, stays, -⟩
        · rw [begins] at taken
          cases taken
          exact ⟨tidy, acyclic⟩
        · rw [begins] at taken
          cases taken
          exact ⟨tidy_extend tidy, stays⟩
    | endWait waiter owner =>
      cases taken
      exact ⟨tidy_removeEdge tidy, acyclic_removeEdge acyclic⟩

/-- After any steps of any tasks the graph has no cycle; a new wait is declined
exactly when it would close one, leaving the graph as it was, and what is
reported names the labels of such a cycle in order. -/
theorem wait_graph_acyclic [LinearOrder Identity] (nodeIdentity : Label → Identity) (graph : WaitGraph Label)
    (reached : WaitReached nodeIdentity graph) : Acyclic graph ∧ ∀ waiter owner label,
      labelOf graph waiter owner = none → ∃ after result, beginWait nodeIdentity graph waiter owner label =
          some (after, result) ∧
        ((∃ reported, result = .error reported) ↔ owner = waiter ∨ Relation.TransGen (Waits graph) owner waiter) ∧
        ∀ reported, result = .error reported → after = graph ∧ ∃ labels, ClosesCycle graph waiter owner labels ∧
          reported.Pairwise (· < ·) ∧
          ∀ identity, identity ∈ reported ↔ ∃ passed ∈ label :: labels, nodeIdentity passed = identity := by
  obtain ⟨tidy, acyclic⟩ := reached_invariant reached
  refine ⟨acyclic, ?_⟩
  intro waiter owner label absent
  rcases beginWait_spec nodeIdentity tidy acyclic absent label with
    ⟨reported, labels, begins, closes, sorted, members⟩ | ⟨begins, -, different, apart⟩
  · refine ⟨_, _, begins, ⟨fun _ => closes.closes, fun _ => ⟨reported, rfl⟩⟩, ?_⟩
    intro other same
    cases same
    exact ⟨rfl, labels, closes, sorted, members⟩
  · refine ⟨_, _, begins, ⟨?_, ?_⟩, fun reported failed => by cases failed⟩
    · intro ⟨_, failed⟩
      cases failed
    · rintro (same | way)
      · exact absurd same different
      · exact absurd way apart

/-- Two tasks wait in a row, under the labels 0 and 2. -/
def chain : WaitGraph Nat := extend (extend .empty 0 1 0) 1 2 2

theorem chain_reached : WaitReached id chain :=
  have first : WaitReached id (extend .empty 0 1 0) :=
    .step .start (show waitStep id .empty (.beginWait 0 1 0) = some (extend .empty 0 1 0) from rfl)
  .step first (show waitStep id (extend .empty 0 1 0) (.beginWait 1 2 2) = some chain from rfl)

theorem chain_labels {label : Nat} (edge : labelOf chain current task = some label) :
    current = 1 ∧ task = 2 ∧ label = 2 ∨ current = 0 ∧ task = 1 ∧ label = 0 := by
  simp only [chain, extend, labelOf_extend] at edge
  split at edge
  next both =>
    cases edge
    exact Or.inl ⟨both.1, both.2, rfl⟩
  next =>
    split at edge
    next both =>
      cases edge
      exact Or.inr ⟨both.1, both.2, rfl⟩
    next => cases edge

theorem chain_closed {labels : List Nat} (closes : ClosesCycle chain 2 0 labels) : labels = [0, 2] := by
  rcases closes with ⟨same, -⟩ | ⟨-, nodes, route, -⟩
  · cases same
  · cases route with
    | last edge => rcases chain_labels edge with ⟨same, -⟩ | ⟨-, same, -⟩ <;> cases same
    | step edge _ rest =>
      rcases chain_labels edge with ⟨same, -⟩ | ⟨-, rfl, rfl⟩
      · cases same
      · cases rest with
        | last edge =>
          rcases chain_labels edge with ⟨-, -, rfl⟩ | ⟨same, -⟩
          · rfl
          · cases same
        | step edge before _ =>
          rcases chain_labels edge with ⟨-, rfl, -⟩ | ⟨same, -⟩
          · exact absurd rfl before
          · cases same

/-- The labels are reported by name, not in the order of the cycle. -/
theorem chain_reported_sorted : WaitReached id chain ∧
    beginWait id chain 2 0 1 = some (chain, .error [0, 1, 2]) ∧
    ∀ labels, ClosesCycle chain 2 0 labels → ¬(1 :: labels) ~r [0, 1, 2] := by
  refine ⟨chain_reached, ?_, ?_⟩
  · have tidy := (reached_invariant chain_reached).1
    have found : waitPath (extend chain 2 0 1) 2 4 0 ⟨[], []⟩ = (true, ⟨[1, 0], [0, 2]⟩) := by decide
    have depth : (extend chain 2 0 1).size + 1 = 4 := rfl
    have absent : labelOf chain 2 0 = none := rfl
    have reported : canonicalCycle (([0, 2] ++ [1]).map id) = [0, 1, 2] := by decide
    rw [beginWait_eq id absent, depth, found]
    simp only [reported]
    rw [extend, removeEdge_extend tidy absent]
  · intro labels closes
    rw [chain_closed closes]
    decide

theorem chain_declined : Acyclic chain ∧ ∃ after result, beginWait id chain 2 0 1 = some (after, result) ∧ after = chain := by
  obtain ⟨acyclic, waits⟩ := wait_graph_acyclic id chain chain_reached
  obtain ⟨after, result, begins, declined, kept⟩ := waits 2 0 1 rfl
  have first : Relation.TransGen (Waits chain) 0 1 := .single (show Waits chain 0 1 from rfl)
  have way : Relation.TransGen (Waits chain) 0 2 := first.tail (show Waits chain 1 2 from rfl)
  obtain ⟨reported, same⟩ := declined.mpr (Or.inr way)
  exact ⟨acyclic, after, result, begins, (kept reported same).1⟩

end Rue.Proofs.WaitGraph
