import Mathlib.Data.List.Destutter
import Rue.Lib.SortedMap

/-! The waits of tasks for one another. A wait that would close a cycle is
declined, with the nodes its cycle goes through. -/

namespace Rue.Query

open Lib

abbrev TaskId := Nat

/-- For each waiting task the owners it waits for, each with a label. -/
abbrev WaitGraph (Label : Type) := SortedMap TaskId (SortedMap TaskId Label)

variable {Label Identity : Type}

structure WaitSearch (Label : Type) where
  visited : List TaskId
  path : List Label
  deriving DecidableEq

/-- The edges out of a task in turn: one that leads to the target ends the
search, and one that leads nowhere is taken off the path. -/
def followEdges (visit : TaskId → WaitSearch Label → Bool × WaitSearch Label) (target : TaskId) :
    List (TaskId × Label) → WaitSearch Label → Bool × WaitSearch Label
  | [], search => (false, search)
  | (owner, label) :: rest, search =>
    let search := { search with path := search.path ++ [label] }
    if owner = target then (true, search)
    else
      match visit owner search with
      | (true, search) => (true, search)
      | (false, search) => followEdges visit target rest { search with path := search.path.dropLast }

/-- The depth of the recursion is bounded by the fuel. -/
def waitPath (graph : WaitGraph Label) (target : TaskId) : Nat → TaskId → WaitSearch Label → Bool × WaitSearch Label
  | 0, _, search => (false, search)
  | fuel + 1, current, search =>
    if current ∈ search.visited then (false, search)
    else
      let search := { search with visited := current :: search.visited }
      match graph.find? current with
      | none => (false, search)
      | some edges => followEdges (waitPath graph target fuel) target edges.entries search

/-- The nodes in the order of their names, each once. -/
def canonicalCycle [LinearOrder Identity] (nodes : List Identity) : List Identity :=
  (nodes.insertionSort (· ≤ ·)).destutter (· ≠ ·)

def edgesOf (graph : WaitGraph Label) (waiter : TaskId) : SortedMap TaskId Label :=
  (graph.find? waiter).getD .empty

/-- Without the edge; a task that waits for nothing has no entry. -/
def removeEdge (graph : WaitGraph Label) (waiter owner : TaskId) : WaitGraph Label :=
  match graph.find? waiter with
  | none => graph
  | some edges =>
    if (edges.erase owner).entries.isEmpty then graph.erase waiter else graph.insert waiter (edges.erase owner)

/-- There is no result if the waiter waits for the owner already. -/
def beginWait [LinearOrder Identity] (nodeIdentity : Label → Identity) (graph : WaitGraph Label) (waiter owner : TaskId)
    (label : Label) : Option (WaitGraph Label × Except (List Identity) Unit) :=
  if ((edgesOf graph waiter).find? owner).isSome then none
  else
    let extended := graph.insert waiter ((edgesOf graph waiter).insert owner label)
    match waitPath extended waiter (extended.size + 1) owner ⟨[], []⟩ with
    | (true, search) =>
      some (removeEdge extended waiter owner, .error (canonicalCycle ((search.path ++ [label]).map nodeIdentity)))
    | (false, _) => some (extended, .ok ())

def endWait (graph : WaitGraph Label) (waiter owner : TaskId) : WaitGraph Label := removeEdge graph waiter owner

inductive WaitAction (Label : Type) where
  | beginWait (waiter owner : TaskId) (label : Label)
  | endWait (waiter owner : TaskId)

def waitStep [LinearOrder Identity] (nodeIdentity : Label → Identity) (graph : WaitGraph Label) :
    WaitAction Label → Option (WaitGraph Label)
  | .beginWait waiter owner label => (beginWait nodeIdentity graph waiter owner label).map Prod.fst
  | .endWait waiter owner => some (endWait graph waiter owner)

/-- The graphs after any steps of any tasks. -/
inductive WaitReached [LinearOrder Identity] (nodeIdentity : Label → Identity) : WaitGraph Label → Prop where
  | start : WaitReached nodeIdentity .empty
  | step {graph next : WaitGraph Label} {action : WaitAction Label} (reached : WaitReached nodeIdentity graph)
      (taken : waitStep nodeIdentity graph action = some next) : WaitReached nodeIdentity next

end Rue.Query
