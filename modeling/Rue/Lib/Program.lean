import Mathlib.Data.List.Basic

/-! Programs that are lists of instructions with labels among them. A program is
rewritten window by window, and a simulation of each window is one of every run. -/

namespace Rue.Lib.Program

section Run
variable {Inst Label State Stop : Type}

/-- An instruction goes on, transfers control or ends the run. A machine that is
stuck promises nothing. -/
inductive Effect (State Label Stop : Type) where
  | next (state : State)
  | jump (label : Label) (state : State)
  | stop (reason : Stop) (state : State)
  | stuck

inductive Ending (State Label Stop : Type) where
  | fellOff (state : State)
  | stopped (reason : Stop) (state : State)
  | lost (label : Label) (state : State)
  | running (state : State)
  | stuck

/-- What an instruction does, given the ones that follow it. -/
abbrev Machine (Inst Label State Stop : Type) := Inst → List Inst → State → Effect State Label Stop

/-- What follows a label. The last definition counts. -/
def after (defines : Inst → Label → Bool) (label : Label) : List Inst → Option (List Inst)
  | [] => none
  | inst :: rest => (after defines label rest).or (if defines inst label then some rest else none)

/-- Execute up to the first transfer of control. -/
def runFrom (machine : Machine Inst Label State Stop) (jump : Label → State → Ending State Label Stop) :
    List Inst → State → Ending State Label Stop
  | [], state => .fellOff state
  | inst :: rest, state =>
    match machine inst rest state with
    | .next state => runFrom machine jump rest state
    | .jump label state => jump label state
    | .stop reason state => .stopped reason state
    | .stuck => .stuck

/-- Execute with at most so many transfers of control. -/
def run (machine : Machine Inst Label State Stop) (defines : Inst → Label → Bool) (program : List Inst) :
    (fuel : Nat) → List Inst → State → Ending State Label Stop
  | 0 => runFrom machine fun _ state => .running state
  | fuel + 1 => runFrom machine fun label state =>
    match after defines label program with
    | none => .lost label state
    | some rest => run machine defines program fuel rest state

end Run

section Refinement
variable {Inst Label Source Target Final Stop : Type}

/-- The target ends as the source does, wherever the source is not stuck. -/
inductive Refines (same : Source → Target → Prop) : Ending Source Label Stop → Ending Target Label Stop → Prop where
  | stuck (ending) : Refines same .stuck ending
  | fellOff {source target} (states : same source target) : Refines same (.fellOff source) (.fellOff target)
  | stopped {source target} (reason) (states : same source target) : Refines same (.stopped reason source) (.stopped reason target)
  | lost {source target} (label) (states : same source target) : Refines same (.lost label source) (.lost label target)
  | running {source target} (states : same source target) : Refines same (.running source) (.running target)

def Ending.isStuck {State : Type} : Ending State Label Stop → Bool
  | .stuck => true
  | _ => false

/-- The source ends, and the target as it does. -/
def Alike (same : Source → Target → Prop) (source : Ending Source Label Stop) (target : Ending Target Label Stop) : Prop :=
  source.isStuck = false ∧ Refines same source target

theorem Refines.isStuck {same : Source → Target → Prop} {source : Ending Source Label Stop} {target : Ending Target Label Stop}
    (refines : Refines same source target) (defined : source.isStuck = false) : target.isStuck = false := by
  cases refines with
  | stuck => cases defined
  | _ => rfl

theorem Refines.eq {source target : Ending Source Label Stop} (refines : Refines Eq source target)
    (defined : source.isStuck = false) : source = target := by
  cases refines with
  | stuck => cases defined
  | fellOff states | stopped _ states | lost _ states | running states => rw [states]

theorem Refines.trans {first : Source → Target → Prop} {second : Target → Final → Prop} {whole : Source → Final → Prop}
    (compose : ∀ {source target final}, first source target → second target final → whole source final)
    {source : Ending Source Label Stop} {target : Ending Target Label Stop} {final : Ending Final Label Stop}
    (front : Refines first source target) (back : Refines second target final) : Refines whole source final := by
  cases front with
  | stuck => exact .stuck final
  | fellOff states => cases back with | fellOff states' => exact .fellOff (compose states states')
  | stopped reason states => cases back with | stopped _ states' => exact .stopped reason (compose states states')
  | lost label states => cases back with | lost _ states' => exact .lost label (compose states states')
  | running states => cases back with | running states' => exact .running (compose states states')

theorem Refines.symm {same : Source → Target → Prop} {source : Ending Source Label Stop} {target : Ending Target Label Stop}
    (refines : Refines same source target) (defined : source.isStuck = false) : Refines (flip same) target source := by
  cases refines with
  | stuck => cases defined
  | fellOff states => exact .fellOff states
  | stopped reason states => exact .stopped reason states
  | lost label states => exact .lost label states
  | running states => exact .running states

end Refinement

section Rewriting
variable {Inst Label : Type}

/-- A program with some of its windows replaced. What may replace a window
depends on what follows it. -/
inductive Rewrites (window : List Inst → List Inst → List Inst → Prop) : List Inst → List Inst → Prop where
  | nil : Rewrites window [] []
  | keep {rest rest'} (inst) (tail : Rewrites window rest rest') : Rewrites window (inst :: rest) (inst :: rest')
  | replace {old new rest rest'} (head : window old new rest) (tail : Rewrites window rest rest') :
      Rewrites window (old ++ rest) (new ++ rest')

variable {window : List Inst → List Inst → List Inst → Prop} {defines : Inst → Label → Bool}

theorem Rewrites.refl (program : List Inst) : Rewrites window program program := by
  induction program with
  | nil => exact .nil
  | cons inst rest ih => exact .keep inst ih

theorem after_append_plain {label : Label} {plain : List Inst} (unlabelled : ∀ inst ∈ plain, defines inst label = false)
    (rest : List Inst) : after defines label (plain ++ rest) = after defines label rest := by
  induction plain with
  | nil => rfl
  | cons inst plain ih =>
    have here := unlabelled inst List.mem_cons_self
    rw [List.cons_append, after, ih fun other member => unlabelled other (List.mem_cons_of_mem _ member)]
    simp only [here, Bool.false_eq_true, if_false, Option.or_none]

theorem Rewrites.after {program program' : List Inst} (rewrites : Rewrites window program program')
    (unlabelled : ∀ old new rest, window old new rest → ∀ inst ∈ old ++ new, ∀ label, defines inst label = false)
    (label : Label) :
    (after defines label program = none ∧ Program.after defines label program' = none) ∨
      ∃ rest rest', Program.after defines label program = some rest ∧ Program.after defines label program' = some rest' ∧
        Rewrites window rest rest' := by
  induction rewrites with
  | nil => exact Or.inl ⟨rfl, rfl⟩
  | keep inst tail ih =>
    rcases ih with ⟨missing, missing'⟩ | ⟨found, found', at', at'', related⟩
    · simp only [Program.after, missing, missing', Option.none_or]
      split
      · exact Or.inr ⟨_, _, rfl, rfl, tail⟩
      · exact Or.inl ⟨rfl, rfl⟩
    · exact Or.inr ⟨found, found', by rw [Program.after, at', Option.some_or], by rw [Program.after, at'', Option.some_or], related⟩
  | replace head tail ih =>
    have plain := unlabelled _ _ _ head
    rw [after_append_plain fun inst member => plain inst (List.mem_append_left _ member) label,
      after_append_plain fun inst member => plain inst (List.mem_append_right _ member) label]
    exact ih

end Rewriting

section Simulation
variable {Inst Label Source Target Stop : Type}

/-- The two effects correspond. After a jump the states agree wherever its label leads. -/
inductive Matches (lookup : Label → Option (List Inst)) (agree : List Inst → Source → Target → Prop)
    (same : Source → Target → Prop) (rest : List Inst) : Effect Source Label Stop → Effect Target Label Stop → Prop where
  | stuck (effect) : Matches lookup agree same rest .stuck effect
  | next {source target} (states : agree rest source target) : Matches lookup agree same rest (.next source) (.next target)
  | jump {source target} (label) (states : same source target)
      (arrives : ∀ there, lookup label = some there → agree there source target) :
      Matches lookup agree same rest (.jump label source) (.jump label target)
  | stop {source target} (reason) (states : same source target) :
      Matches lookup agree same rest (.stop reason source) (.stop reason target)

/-- The instructions run straight through from one state to another. -/
def Through {State : Type} (machine : Machine Inst Label State Stop) (straight rest : List Inst) (before after : State) : Prop :=
  ∀ jump, runFrom machine jump (straight ++ rest) before = runFrom machine jump rest after

theorem Through.refl {State : Type} (machine : Machine Inst Label State Stop) (rest : List Inst) (state : State) :
    Through machine [] rest state state := fun _ => rfl

theorem Through.append {State : Type} {machine : Machine Inst Label State Stop} {front back rest : List Inst}
    {first second third : State} (earlier : Through machine front (back ++ rest) first second)
    (later : Through machine back rest second third) : Through machine (front ++ back) rest first third := by
  intro jump
  rw [List.append_assoc, earlier jump, later jump]

/-- The machine is stuck before the instructions are through. -/
def Blocked {State : Type} (machine : Machine Inst Label State Stop) (straight rest : List Inst) (state : State) : Prop :=
  ∀ jump, runFrom machine jump (straight ++ rest) state = .stuck

/-- What has to hold of a machine, another one and a kind of window for a
rewritten program to do on the other what the program does. -/
structure Simulation (source : Machine Inst Label Source Stop) (target : Machine Inst Label Target Stop)
    (defines : Inst → Label → Bool) (program : List Inst) (window : List Inst → List Inst → List Inst → Prop)
    (agree : List Inst → Source → Target → Prop) (same : Source → Target → Prop) : Prop where
  unlabelled : ∀ old new rest, window old new rest → ∀ inst ∈ old ++ new, ∀ label, defines inst label = false
  observes : ∀ rest state state', agree rest state state' → same state state'
  keep : ∀ inst rest rest' state state', Rewrites window rest rest' → agree (inst :: rest) state state' →
    Matches (fun label => after defines label program) agree same rest (source inst rest state) (target inst rest' state')
  replace : ∀ old new rest rest' state state', window old new rest → Rewrites window rest rest' →
    agree (old ++ rest) state state' →
    Blocked source old rest state ∨
      ∃ final final', Through source old rest state final ∧ Through target new rest' state' final' ∧ agree rest final final'

variable {source : Machine Inst Label Source Stop} {target : Machine Inst Label Target Stop}
  {defines : Inst → Label → Bool} {program program' : List Inst} {window : List Inst → List Inst → List Inst → Prop}
  {agree : List Inst → Source → Target → Prop} {same : Source → Target → Prop}

theorem Simulation.runFrom (simulation : Simulation source target defines program window agree same)
    {jump : Label → Source → Ending Source Label Stop} {jump' : Label → Target → Ending Target Label Stop}
    (jumps : ∀ label state state', same state state' →
      (∀ there, after defines label program = some there → agree there state state') →
      Refines same (jump label state) (jump' label state'))
    {rest rest' : List Inst} (rewrites : Rewrites window rest rest') {state : Source} {state' : Target}
    (agrees : agree rest state state') :
    Refines same (runFrom source jump rest state) (Program.runFrom target jump' rest' state') := by
  induction rewrites generalizing state state' with
  | nil => exact .fellOff (simulation.observes _ _ _ agrees)
  | keep inst tail ih =>
    have step := simulation.keep inst _ _ state state' tail agrees
    unfold Program.runFrom
    generalize source inst _ state = effect at step ⊢
    generalize target inst _ state' = effect' at step ⊢
    cases step with
    | stuck => exact .stuck _
    | next states => exact ih states
    | jump label states arrives => exact jumps label _ _ states arrives
    | stop reason states => exact .stopped reason states
  | replace head tail ih =>
    rcases simulation.replace _ _ _ _ state state' head tail agrees with blocked | ⟨final, final', through, through', states⟩
    · rw [blocked jump]
      exact .stuck _
    · rw [through jump, through' jump']
      exact ih states

/-- Every run of the program is one of the rewritten program. -/
theorem Simulation.run (simulation : Simulation source target defines program window agree same)
    (whole : Rewrites window program program') (fuel : Nat) {rest rest' : List Inst} (rewrites : Rewrites window rest rest')
    {state : Source} {state' : Target} (agrees : agree rest state state') :
    Refines same (run source defines program fuel rest state) (Program.run target defines program' fuel rest' state') := by
  induction fuel generalizing rest rest' state state' with
  | zero => exact simulation.runFrom (fun _ _ _ states _ => .running states) rewrites agrees
  | succ fuel ih =>
    refine simulation.runFrom (fun label state state' states arrives => ?_) rewrites agrees
    rcases whole.after simulation.unlabelled label with ⟨missing, missing'⟩ | ⟨there, there', found, found', related⟩
    · simp only [missing, missing']
      exact .lost label states
    · simp only [found, found']
      exact ih related (arrives there found)

theorem Matches.refl {lookup : Label → Option (List Inst)} {rest : List Inst} (effect : Effect Source Label Stop) :
    Matches lookup (fun _ => Eq) Eq rest effect effect := by
  cases effect with
  | next => exact .next rfl
  | jump label => exact .jump label rfl fun _ _ => rfl
  | stop reason => exact .stop reason rfl
  | stuck => exact .stuck _

/-- Two machines on one program, step by step. -/
theorem refines_of_matches (steps : ∀ inst rest rest' state state', same state state' →
      Matches (fun label => after defines label program) (fun _ => same) same rest (source inst rest state) (target inst rest' state'))
    (fuel : Nat) (rest : List Inst) {state : Source} {state' : Target} (agrees : same state state') :
    Refines same (run source defines program fuel rest state) (Program.run target defines program fuel rest state') := by
  have simulation : Simulation source target defines program (fun _ _ _ => False) (fun _ => same) same :=
    ⟨fun _ _ _ none' => none'.elim, fun _ _ _ same => same, fun inst rest rest' state state' _ => steps inst rest rest' state state',
      fun _ _ _ _ _ _ none' => none'.elim⟩
  exact simulation.run (.refl program) fuel (.refl rest) agrees

end Simulation

end Rue.Lib.Program
