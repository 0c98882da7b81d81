import Mathlib.Data.List.Basic
import Mathlib.Logic.Relation

/-! Deterministic machines that emit events, and a simulation with stuttering
under which two of them are observed to do the same. -/

namespace Rue.Lib

universe u v w x

/-- If every step is matched by one step, so is every run. -/
theorem lockstep {Source : Type u} {Image : Type v} {moves : Source → Source → Prop} {follows : Image → Image → Prop}
    {related : Source → Image → Prop}
    (square : ∀ first next image, related first image → moves first next → ∃ after, follows image after ∧ related next after)
    {first last : Source} {image : Image} (start : related first image) (run : Relation.ReflTransGen moves first last) :
    ∃ final, Relation.ReflTransGen follows image final ∧ related last final := by
  induction run with
  | refl => exact ⟨image, .refl, start⟩
  | tail _ moved ih =>
    obtain ⟨middle, before, here⟩ := ih
    obtain ⟨final, follows, related⟩ := square _ _ _ here moved
    exact ⟨final, before.tail follows, related⟩

/-- What a machine does next: it moves on or it stops, emitting events. -/
inductive Move (State : Type u) (Event : Type v) (Ending : Type w) where
  | step (events : List Event) (state : State)
  | stop (events : List Event) (ending : Ending)

variable {State : Type u} {Target : Type x} {Event : Type v} {Ending : Type w}

/-- A run of the given number of moves, with what it emits. -/
inductive Runs (next : State → Move State Event Ending) : Nat → State → List Event → State → Prop where
  | refl (state : State) : Runs next 0 state [] state
  | step {count : Nat} {first second last : State} {events trace : List Event}
      (moved : next first = .step events second) (rest : Runs next count second trace last) :
      Runs next (count + 1) first (events ++ trace) last

/-- A trace emitted by some run, and how the machine ended if it has. -/
inductive Observes (next : State → Move State Event Ending) (start : State) :
    List Event → Option Ending → Prop where
  | running {count : Nat} {trace : List Event} {last : State} (run : Runs next count start trace last) :
      Observes next start trace none
  | stopped {count : Nat} {trace events : List Event} {last : State} {ending : Ending}
      (run : Runs next count start trace last) (stopped : next last = .stop events ending) :
      Observes next start (trace ++ events) (some ending)

namespace Runs

variable {next : State → Move State Event Ending} {count more : Nat} {first second last : State}
  {trace rest : List Event}

theorem append (run : Runs next count first trace second) (later : Runs next more second rest last) :
    Runs next (count + more) first (trace ++ rest) last := by
  induction run with
  | refl => simpa using later
  | step moved _ ih =>
    rw [List.append_assoc, Nat.add_right_comm]
    exact .step moved (ih later)

theorem snoc {events : List Event} (run : Runs next count first trace second)
    (moved : next second = .step events last) : Runs next (count + 1) first (trace ++ events) last := by
  simpa using run.append (.step moved (.refl last))

theorem invariant (run : Runs next count first trace last) {holds : State → Prop} (start : holds first)
    (kept : ∀ state events after, holds state → next state = .step events after → holds after) : holds last := by
  induction run with
  | refl => exact start
  | step moved _ ih => exact ih (kept _ _ _ start moved)

/-- Of two runs from one state, the shorter begins the longer. -/
theorem split (short : Runs next count first trace second) (long : Runs next more first rest last)
    (shorter : count ≤ more) : ∃ tail, rest = trace ++ tail ∧ Runs next (more - count) second tail last := by
  induction short generalizing more rest with
  | refl => exact ⟨rest, rfl, long⟩
  | step moved _ ih =>
    cases long with
    | refl => omega
    | step other later =>
      obtain ⟨same, rfl⟩ := Move.step.inj (moved.symm.trans other)
      obtain ⟨tail, rfl, remaining⟩ := ih later (by omega)
      refine ⟨tail, by rw [same, List.append_assoc], ?_⟩
      rwa [Nat.add_sub_add_right]

theorem of_stopped {events : List Event} {ending : Ending} (run : Runs next count first trace last)
    (stopped : next first = .stop events ending) : count = 0 ∧ trace = [] ∧ last = first := by
  cases run with
  | refl => exact ⟨rfl, rfl, rfl⟩
  | step moved => rw [stopped] at moved; cases moved

end Runs

def Silent (next : State → Move State Event Ending) (first last : State) : Prop :=
  ∃ count, Runs next count first [] last

theorem Silent.refl {next : State → Move State Event Ending} {state : State} : Silent next state state :=
  ⟨0, .refl state⟩

theorem Silent.step {next : State → Move State Event Ending} {first second : State}
    (moved : next first = .step [] second) : Silent next first second := ⟨1, .step moved (.refl second)⟩

namespace Observes

variable {next : State → Move State Event Ending} {first second : State} {trace events : List Event}
  {ending : Option Ending}

theorem cons (moved : next first = .step events second) (observed : Observes next second trace ending) :
    Observes next first (events ++ trace) ending := by
  cases observed with
  | running run => exact .running (.step moved run)
  | stopped run stopped =>
    rw [← List.append_assoc]
    exact .stopped (.step moved run) stopped

theorem after {count : Nat} (run : Runs next count first events second)
    (observed : Observes next second trace ending) : Observes next first (events ++ trace) ending := by
  induction run with
  | refl => exact observed
  | step moved _ ih =>
    rw [List.append_assoc]
    exact .cons moved (ih observed)

end Observes

/-- Every move of the source is matched by silent moves of the target and one
that emits the same, or lowers a rank. -/
structure Simulation (source : State → Move State Event Ending) (target : Target → Move Target Event Ending)
    (related : State → Target → Prop) (rank : State → Target → Nat) : Prop where
  step : ∀ {first : State} {image : Target} {events : List Event} {second : State}, related first image →
    source first = .step events second →
    (events = [] ∧ related second image ∧ rank second image < rank first image) ∨
      ∃ before after, Silent target image before ∧ target before = .step events after ∧ related second after
  stop : ∀ {first : State} {image : Target} {events : List Event} {ending : Ending}, related first image →
    source first = .stop events ending → ∃ before, Silent target image before ∧ target before = .stop events ending

namespace Simulation

variable {source : State → Move State Event Ending} {target : Target → Move Target Event Ending}
  {related : State → Target → Prop} {rank : State → Target → Nat}

theorem runs (simulates : Simulation source target related rank) {count : Nat} {first last : State} {image : Target}
    {trace : List Event} (start : related first image) (run : Runs source count first trace last) :
    ∃ more final, Runs target more image trace final ∧ related last final := by
  induction run generalizing image with
  | refl => exact ⟨0, image, .refl image, start⟩
  | step moved _ ih =>
    rcases simulates.step start moved with ⟨rfl, stays, _⟩ | ⟨before, after, ⟨quiet, silent⟩, matched, follows⟩
    · simpa using ih stays
    · obtain ⟨more, final, run, follows⟩ := ih follows
      exact ⟨_, final, by simpa using silent.append (.step matched run), follows⟩

theorem observes_of (simulates : Simulation source target related rank) {first : State} {image : Target}
    (start : related first image) {trace : List Event} {ending : Option Ending}
    (observed : Observes source first trace ending) : Observes target image trace ending := by
  cases observed with
  | running run =>
    obtain ⟨_, _, matched, _⟩ := simulates.runs start run
    exact .running matched
  | stopped run stopped =>
    obtain ⟨_, final, matched, follows⟩ := simulates.runs start run
    obtain ⟨before, ⟨_, silent⟩, ends⟩ := simulates.stop follows stopped
    simpa using Observes.after matched (Observes.after silent (.stopped (.refl before) ends))

/-- What the target is seen to do in so many moves, the source does too. The
rank bounds how long the source moves alone. -/
theorem observes_back (simulates : Simulation source target related rank) {count : Nat} {first : State}
    {image last : Target} {trace : List Event} (start : related first image) (run : Runs target count image trace last) :
    Observes source first trace none ∧ ∀ events ending, target last = .stop events ending →
      Observes source first (trace ++ events) (some ending) := by
  induction count using Nat.strongRecOn generalizing first image trace with
  | ind count byCount =>
  induction bound : rank first image using Nat.strongRecOn generalizing first with
  | ind bound byRank =>
  cases does : source first with
  | stop events ending =>
    obtain ⟨before, ⟨quiet, silent⟩, ends⟩ := simulates.stop start does
    rcases Nat.lt_or_ge quiet count with longer | shorter
    · obtain ⟨tail, _, beyond⟩ := silent.split run (by omega)
      have := (beyond.of_stopped ends).1
      omega
    · obtain ⟨tail, same, remaining⟩ := run.split silent shorter
      obtain ⟨rfl, rfl⟩ := List.append_eq_nil_iff.mp same.symm
      refine ⟨.running (.refl first), ?_⟩
      intro others other stopped
      obtain ⟨-, -, rfl⟩ := remaining.of_stopped stopped
      obtain ⟨rfl, rfl⟩ := Move.stop.inj (ends.symm.trans stopped)
      exact .stopped (.refl first) does
  | step events second =>
    rcases simulates.step start does with ⟨rfl, stays, lower⟩ | ⟨before, after, ⟨quiet, silent⟩, matched, follows⟩
    · obtain ⟨running, stopped⟩ := byRank _ (bound ▸ lower) stays rfl
      refine ⟨by simpa using running.cons does, fun others ending ends => ?_⟩
      simpa using (stopped others ending ends).cons does
    · rcases Nat.lt_or_ge quiet count with longer | shorter
      · obtain ⟨tail, rfl, remaining⟩ := (silent.snoc matched).split run longer
        obtain ⟨running, stopped⟩ := byCount _ (by omega) follows remaining
        simp only [List.nil_append]
        refine ⟨.cons does running, fun others ending ends => ?_⟩
        rw [List.append_assoc]
        exact .cons does (stopped others ending ends)
      · obtain ⟨tail, same, remaining⟩ := run.split (silent.snoc matched) (by omega)
        have empty : trace = [] := by
          obtain ⟨_, none, _⟩ := run.split silent shorter
          exact (List.append_eq_nil_iff.mp none.symm).1
        subst empty
        refine ⟨.running (.refl first), fun others ending ends => ?_⟩
        have := (remaining.of_stopped ends).1
        omega

theorem observes_iff (simulates : Simulation source target related rank) {first : State} {image : Target}
    (start : related first image) (trace : List Event) (ending : Option Ending) :
    Observes source first trace ending ↔ Observes target image trace ending := by
  constructor
  · exact simulates.observes_of start
  · intro observed
    cases observed with
    | running run => exact (simulates.observes_back start run).1
    | stopped run ends => exact (simulates.observes_back start run).2 _ _ ends

end Simulation

end Rue.Lib
