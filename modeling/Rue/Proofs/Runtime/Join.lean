import Rue.Runtime.Join

/-! Every run of the two parties of a join: nothing faults, no wakeup is lost, and
what the parent acquired is released exactly when the worker is gone. -/

namespace Rue.Proofs.Runtime.Join

open Rue.Runtime.Join

/-- The child has ended as the status says. -/
def ended (child : ChildPc) (status : Status) : Bool :=
  child = .returned (if status = .success then none else some status)

/-- How many of the slot, the stack, the mutex and the condition variable are held. -/
def held : ParentPc → Nat
  | .reserve | .returned _ => 0
  | .allocate => 1
  | .initMutex => 2
  | .initCondvar => 3
  | .cleanup condvar mutex _ => if condvar then 4 else if mutex then 3 else 2
  | _ => 4

def called : ParentPc → Bool
  | .awaitFinished | .parkedFinished | .join .success | .cleanup _ _ .success | .returned .success => true
  | _ => false

/-- Where the parent stands and where the child stands say everything else. -/
def expected (parent : ParentPc) (child : ChildPc) : State where
  parent := parent
  child := child
  state := match child with
    | .awaitStart | .parkedStart | .invoke | .release | .finish =>
      if parent = .awaitReady || parent = .parkedReady then .ready else .start
    | .returned none => .finished
    | .returned (some status) => .failed status
    | _ => .initializing
  token := 2 ≤ held parent && (child = .absent || child = .takeToken)
  slot := 1 ≤ held parent && match child with
    | .report (some _) | .finish | .returned _ => false
    | _ => true
  stack := 2 ≤ held parent
  mutex := 3 ≤ held parent
  condvar := 4 ≤ held parent
  parentCalls := if called parent then 1 else 0
  workerCalls := if child = .release || child = .finish || child = .returned none then 1 else 0

/-- The pairs of places that a run comes to. A party is parked only as long as
the other one is still to wake it. -/
def together : ParentPc → ChildPc → Bool
  | .awaitReady, child => child ∈ [.takeToken, .initializeWorker, .report none, .awaitStart, .parkedStart] ||
    [true, false].any fun exhausted => child = .report (resourceStatus exhausted) || ended child (resourceStatus exhausted)
  | .parkedReady, child => child ∈ [.takeToken, .initializeWorker, .report none] ||
    [true, false].any fun exhausted => child = .report (resourceStatus exhausted)
  | .invoke, child | .awaitFinished, child =>
    child ∈ [.awaitStart, .invoke, .release, .finish] || ended child .success
  | .parkedFinished, child => child ∈ [.awaitStart, .invoke, .release, .finish]
  | .join status, child => ended child status
  | .cleanup condvar mutex status, child =>
    child = .absent && status ≠ .success && (mutex || !condvar) || condvar && mutex && ended child status
  | .returned status, child => child = .absent && status ≠ .success || ended child status
  | .fatal, _ => false
  | _, child => child = .absent

def Standing (s : State) : Prop := together s.parent s.child = true ∧ s = expected s.parent s.child

instance (s : State) : Decidable (Standing s) := inferInstanceAs (Decidable (_ ∧ _))

/-- How far the two parties are from the end. Only a wakeup raises it. -/
def rank (s : State) : Nat :=
  (match s.parent with
    | .reserve => 14 | .allocate => 13 | .initMutex => 12 | .initCondvar => 11 | .create => 10
    | .awaitReady => 9 | .parkedReady => 8 | .invoke => 6 | .awaitFinished => 5 | .parkedFinished => 4
    | .join _ => 3 | .cleanup _ _ _ => 2 | .returned _ | .fatal => 0) +
  match s.child with
    | .absent | .takeToken => 18 | .initializeWorker => 16 | .report _ => 14 | .awaitStart => 12 | .parkedStart => 11
    | .invoke => 9 | .release => 7 | .finish => 5 | .returned _ | .fatal => 3

/-- What one step of either party preserves, and what it costs. -/
theorem step_expected : ∀ parent child, together parent child = true →
    ∀ act, ∀ next ∈ (expected parent child).step act,
      Standing next ∧ rank next + 1 ≤ rank (expected parent child) + 3 * if act = .wakes then 1 else 0 := by
  decide +kernel

theorem steps_standing {acts : List Act} {s last : State} (standing : Standing s)
    (steps : acts.foldlM State.step s = some last) :
    Standing last ∧ rank last + acts.length ≤ rank s + 3 * acts.count .wakes := by
  induction acts generalizing s with
  | nil => cases steps; exact ⟨standing, by simp⟩
  | cons act acts ih =>
    simp only [List.foldlM_cons, Option.bind_eq_bind, Option.bind_eq_some_iff] at steps
    obtain ⟨next, step, rest⟩ := steps
    have lower := step_expected _ _ standing.1 act next (standing.2 ▸ step)
    have further := ih lower.1 rest
    rw [← standing.2] at lower
    refine ⟨further.1, ?_⟩
    simp only [List.length_cons, List.count_cons, beq_iff_eq]
    omega

/-- The two parties from the call on, in the order of the list. -/
def run (acts : List Act) : Option State := acts.foldlM State.step {}

theorem run_standing {acts : List Act} {s : State} (steps : run acts = some s) :
    Standing s ∧ rank s + acts.length ≤ 32 + 3 * acts.count .wakes :=
  steps_standing (by decide) steps

def gone : ChildPc → Bool
  | .absent | .returned _ => true
  | _ => false

/-- Nothing faults, a callback begins at most once and only after the worker is
set up, and a live worker has its stack and its frame. On return both callbacks
have run or neither has, the worker is gone and everything is released. -/
def Scoped (s : State) : Prop :=
  s.parent ≠ .fatal ∧ s.child ≠ .fatal ∧ s.parentCalls ≤ 1 ∧ s.workerCalls ≤ 1 ∧
  (0 < s.parentCalls + s.workerCalls → s.state = .start ∨ s.state = .finished) ∧
  (gone s.child || s.stack && s.mutex && s.condvar) ∧
  ∀ status, s.parent = .returned status →
    s.parentCalls = (if status = .success then 1 else 0) ∧ s.workerCalls = s.parentCalls ∧ gone s.child ∧
    (s.slot || s.token || s.stack || s.mutex || s.condvar) = false

instance (s : State) : Decidable (Scoped s) := inferInstanceAs (Decidable (_ ∧ _))

/-- The parent is back, or it or the child can step. -/
def Advances (s : State) : Prop := (∃ status, s.parent = .returned status) ∨ s.runTasks.isSome ∨ s.workerTrampoline.isSome

instance (s : State) : Decidable (Advances s) := inferInstanceAs (Decidable (_ ∨ _))

theorem expected_holds : ∀ parent child, together parent child = true →
    Scoped (expected parent child) ∧ Advances (expected parent child) := by
  decide +kernel

/-- The worker parks and is woken for nothing, and both callbacks run. -/
theorem both_run : run (List.replicate 5 .parent ++ List.replicate 4 .child ++ [.wakes, .parent] ++
    List.replicate 4 .child ++ List.replicate 4 .parent) = some (expected (.returned .success) (.returned none)) := by
  decide

theorem run_scoped {acts : List Act} {s : State} (steps : run acts = some s) : Scoped s := by
  obtain ⟨⟨pair, same⟩, _⟩ := run_standing steps
  rw [same]
  exact (expected_holds _ _ pair).1

theorem both_run_scoped : Scoped (expected (.returned .success) (.returned none)) := run_scoped both_run

/-- The call returns under every scheduler: until then a party can step, and apart
from the wakeups a run is finite. -/
theorem run_returns {acts : List Act} {s : State} (steps : run acts = some s) :
    Advances s ∧ acts.length ≤ 32 + 3 * acts.count .wakes := by
  obtain ⟨⟨pair, same⟩, bound⟩ := run_standing steps
  refine ⟨?_, by omega⟩
  rw [same]
  exact (expected_holds _ _ pair).2

theorem both_run_returns : Advances (expected (.returned .success) (.returned none)) := (run_returns both_run).1

end Rue.Proofs.Runtime.Join
