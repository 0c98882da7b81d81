import Mathlib

/-! The join of two callbacks: the parent runs one, a worker thread the other. What
a party does while it holds the frame's mutex is one step. -/

namespace Rue.Runtime.Join

inductive Status where
  | success
  | resourceExhausted
  | prestartFailure
  deriving DecidableEq

instance : Fintype Status := ⟨{.success, .resourceExhausted, .prestartFailure}, fun status => by cases status <;> decide⟩

def resourceStatus (exhausted : Bool) : Status := if exhausted then .resourceExhausted else .prestartFailure

inductive JoinState where
  | initializing
  | ready
  | failed (status : Status)
  | start
  | finished
  deriving DecidableEq

/-- Where the parent stands in `run_tasks`. -/
inductive ParentPc where
  | reserve | allocate | initMutex | initCondvar | create
  | awaitReady | parkedReady | invoke | awaitFinished | parkedFinished
  | join (status : Status)
  | cleanup (condvar mutex : Bool) (status : Status)
  | returned (status : Status)
  | fatal
  deriving DecidableEq, Fintype

/-- Where the child stands in `worker_trampoline`, with its error if it has one. -/
inductive ChildPc where
  | absent | takeToken | initializeWorker
  | report (error : Option Status)
  | awaitStart | parkedStart | invoke | release | finish
  | returned (error : Option Status)
  | fatal
  deriving DecidableEq, Fintype

/-- Both parties, the frame, the worker's slot, and how often each callback ran. -/
structure State where
  parent : ParentPc := .reserve
  child : ChildPc := .absent
  state : JoinState := .initializing
  token : Bool := false
  slot : Bool := false
  stack : Bool := false
  mutex : Bool := false
  condvar : Bool := false
  parentCalls : Nat := 0
  workerCalls : Nat := 0
  deriving DecidableEq

namespace State

variable (s : State)

/-- A parked party is woken: it locks the mutex again and looks again. -/
def wakeParent : State := match s.parent with
  | .parkedReady => { s with parent := .awaitReady }
  | .parkedFinished => { s with parent := .awaitFinished }
  | _ => s

def wakeChild : State := if s.child = .parkedStart then { s with child := .awaitStart } else s

def runTasks : Option State :=
  match s.parent with
  | .reserve => some { s with parent := .allocate, slot := true }
  | .allocate => some { s with parent := .initMutex, stack := true, token := true }
  | .initMutex => some { s with parent := .initCondvar, mutex := true }
  | .initCondvar => some { s with parent := .create, condvar := true }
  | .create => some { s with parent := .awaitReady, child := .takeToken }
  | .awaitReady => match s.mutex && s.condvar, s.state with
    | true, .initializing => some { s with parent := .parkedReady }
    | true, .failed status => some { s with parent := .join status }
    | true, .ready => some { s with parent := .invoke, state := .start }.wakeChild
    | _, _ => some { s with parent := .fatal }
  | .invoke => some { s with parent := .awaitFinished, parentCalls := s.parentCalls + 1 }
  | .awaitFinished => match s.mutex && s.condvar, s.state with
    | true, .finished => some { s with parent := .join .success }
    | true, _ => some { s with parent := .parkedFinished }
    | _, _ => some { s with parent := .fatal }
  | .join status => match s.child with
    | .returned _ => some { s with parent := .cleanup true true status }
    | _ => none
  | .cleanup condvar mutex status => some { s with
      parent := .returned status
      condvar := s.condvar && !condvar
      mutex := s.mutex && !mutex
      stack := false
      token := false
      slot := s.slot && !s.token }
  | .parkedReady | .parkedFinished | .returned _ | .fatal => none

/-- The parent's next acquisition fails. -/
def fails (status : Status) : Option State :=
  match s.parent with
  | .reserve => some { s with parent := .returned status }
  | .allocate => some { s with parent := .returned status, slot := false }
  | .initMutex => some { s with parent := .cleanup false false status }
  | .initCondvar => some { s with parent := .cleanup false true status }
  | .create => some { s with parent := .cleanup true true status }
  | _ => none

def workerTrampoline : Option State :=
  match s.child, s.mutex && s.condvar with
  | .takeToken, true => some { s with child := if s.token then .initializeWorker else .fatal, token := false }
  | .initializeWorker, _ => some { s with child := .report none }
  | .report none, true => some { s with child := .awaitStart, state := .ready }.wakeParent
  | .report (some status), true => some { s with child := .returned (some status), state := .failed status }.wakeParent
  | .awaitStart, true => match s.state with
    | .ready => some { s with child := .parkedStart }
    | .start => some { s with child := .invoke }
    | _ => some { s with child := .fatal }
  | .invoke, _ => some { s with child := .release, workerCalls := s.workerCalls + 1 }
  | .release, _ => some { s with child := .finish, slot := false }
  | .finish, true => some { s with child := .returned none, state := .finished }.wakeParent
  | .absent, _ | .parkedStart, _ | .returned _, _ | .fatal, _ => none
  | _, false => some { s with child := .fatal }

end State

/-- A step of a party, a failure, or a wakeup of parked parties that nobody asked for. -/
inductive Act where
  | parent
  | parentFails (exhausted : Bool)
  | child
  | childFails (exhausted : Bool)
  | wakes
  deriving DecidableEq, Fintype

def State.step (s : State) : Act → Option State
  | .parent => s.runTasks
  | .parentFails exhausted => s.fails (resourceStatus exhausted)
  | .child => s.workerTrampoline
  | .childFails exhausted => if s.child = .initializeWorker then
      some { s with child := .report (some (resourceStatus exhausted)), slot := false } else none
  | .wakes => some s.wakeParent.wakeChild

end Rue.Runtime.Join
