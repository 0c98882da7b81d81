import Mathlib.Data.Finmap

/-! The growable buffer as its callers see it: the elements in order, with the
panics of its operations. -/

namespace Rue.Collections

inductive Stop where
  | outOfMemory
  | outOfBounds
  | overflow
  | zeroDivisor
  | endless
  deriving DecidableEq

@[simp] theorem Stop.ok_bind {A B : Type} (a : A) (rest : A → Except Stop B) : (Except.ok a >>= rest) = rest a := rfl

@[simp] theorem Stop.pure_eq {A : Type} (a : A) : (pure a : Except Stop A) = .ok a := rfl

@[simp] theorem Stop.error_bind {A B : Type} (stop : Stop) (rest : A → Except Stop B) :
    (Except.error stop >>= rest) = .error stop := rfl

namespace U64

def add (a b : Nat) : Except Stop Nat := if a + b < 2 ^ 64 then .ok (a + b) else .error .overflow

def sub (a b : Nat) : Except Stop Nat := if b ≤ a then .ok (a - b) else .error .overflow

def mul (a b : Nat) : Except Stop Nat := if a * b < 2 ^ 64 then .ok (a * b) else .error .overflow

def rem (a b : Nat) : Except Stop Nat := if b = 0 then .error .zeroDivisor else .ok (a % b)

variable {a b : Nat}

theorem add_ok (fits : a + b < 2 ^ 64) : add a b = .ok (a + b) := if_pos fits

theorem sub_ok (enough : b ≤ a) : sub a b = .ok (a - b) := if_pos enough

theorem mul_ok (fits : a * b < 2 ^ 64) : mul a b = .ok (a * b) := if_pos fits

theorem rem_ok (positive : 0 < b) : rem a b = .ok (a % b) := if_neg (Nat.ne_of_gt positive)

end U64

namespace ArrayBuf

variable {T : Type}

/-- Whether the bytes of this many 64-bit cells can be counted; growing further
stops as out of memory. -/
def wordsFit (cells : Nat) : Bool := cells ≤ (2 ^ 64 - 1) / 8

def getOr (buffer : List T) (i : Nat) (default : T) : T := buffer.getD i default

def set (buffer : List T) (i : Nat) (x : T) : Except Stop (List T) :=
  if i < buffer.length then .ok (buffer.set i x) else .error .outOfBounds

/-- Two elements exchanged, whichever they are. -/
def swap (buffer : List T) (i j : Nat) : Except Stop (List T) :=
  match buffer[i]?, buffer[j]? with
  | some a, some b => .ok ((buffer.set i b).set j a)
  | _, _ => .error .outOfBounds

/-- One more element. Pushes are counted, and each asks whether there is room; one
that need not grow the buffer always has it. -/
def push (room : Nat → Bool) (buffer : List T) (asked : Nat) (x : T) : Except Stop (List T × Nat) :=
  if room asked ∧ buffer.length < 2 ^ 64 - 1 then .ok (buffer ++ [x], asked + 1) else .error .outOfMemory

/-- The last element, if any, and the buffer that is left. -/
def pop (buffer : List T) : Option T × List T := (buffer.getLast?, buffer.dropLast)

def popOr (buffer : List T) (default : T) : T × List T := (buffer.getLast?.getD default, buffer.dropLast)

theorem length_of_pop {buffer rest : List T} {x : T} (popped : pop buffer = (some x, rest)) :
    rest.length < buffer.length := by
  obtain ⟨last, rfl⟩ := Prod.mk.inj popped
  have : buffer ≠ [] := by
    rintro rfl
    cases last
  have := List.length_pos_iff.mpr this
  rw [List.length_dropLast]
  omega

theorem set_ok {buffer : List T} {i : Nat} {x : T} (inside : i < buffer.length) : set buffer i x = .ok (buffer.set i x) :=
  if_pos inside

theorem getOr_set {buffer : List T} {i j : Nat} {x default : T} (inside : i < buffer.length) :
    getOr (buffer.set i x) j default = if j = i then x else getOr buffer j default := by
  simp only [getOr, List.getD_eq_getElem?_getD, List.getElem?_set]
  split
  next same => simp [← same]
  next different => rw [if_neg (Ne.symm different)]

end ArrayBuf

end Rue.Collections

/-! A map seen from outside: calls, their answers, and the finite map that says
what the answers should be. -/

namespace Rue.Collections

inductive MapCall (K V : Type) where
  | insert (k : K) (v : V)
  | remove (k : K)
  | get (k : K)
  | contains (k : K)
  | len

inductive MapAnswer (V : Type) where
  | done
  | flag (present : Bool)
  | found (v : Option V)
  | length (count : Nat)
  deriving DecidableEq

/-- Calls one after another, with all their answers. -/
def performAll {State Call Answer : Type} (perform : State → Call → Except Stop (Answer × State)) :
    State → List Call → Except Stop (List Answer × State)
  | state, [] => .ok ([], state)
  | state, call :: rest => do
    let (answer, state) ← perform state call
    let (answers, state) ← performAll perform state rest
    return (answer :: answers, state)

/-- The same for calls that cannot fail. -/
def answerAll {State Call Answer : Type} (answer : State → Call → Answer × State) : State → List Call → List Answer × State
  | state, [] => ([], state)
  | state, call :: rest =>
    let first := answer state call
    let others := answerAll answer first.2 rest
    (first.1 :: others.1, others.2)

def Finite.answer {K V : Type} [DecidableEq K] (map : Finmap fun _ : K => V) :
    MapCall K V → MapAnswer V × Finmap fun _ : K => V
  | .insert k v => (.done, map.insert k v)
  | .remove k => (.flag (map.lookup k).isSome, map.erase k)
  | .get k => (.found (map.lookup k), map)
  | .contains k => (.flag (map.lookup k).isSome, map)
  | .len => (.length map.keys.card, map)

/-- If every call either does as intended or has an excuse to stop, so does a
run of them; the relation counts the calls made. -/
theorem performAll_refines {State Call Answer Model : Type} (perform : State → Call → Except Stop (Answer × State))
    (answer : Model → Call → Answer × Model) (related : Nat → State → Model → Prop) (excused : Nat → Stop → Prop)
    (step : ∀ made state model call, related made state model →
      (∃ next, perform state call = .ok ((answer model call).1, next) ∧ related (made + 1) next (answer model call).2) ∨
        ∃ stop, perform state call = .error stop ∧ excused (made + 1) stop)
    (later : ∀ {made more stop}, made ≤ more → excused made stop → excused more stop)
    {made : Nat} {state : State} {model : Model} (start : related made state model) (calls : List Call) :
    (∃ final, performAll perform state calls = .ok ((answerAll answer model calls).1, final) ∧
        related (made + calls.length) final (answerAll answer model calls).2) ∨
      ∃ stop, performAll perform state calls = .error stop ∧ excused (made + calls.length) stop := by
  induction calls generalizing made state model with
  | nil => exact .inl ⟨state, rfl, start⟩
  | cons call rest ih =>
    rw [performAll, List.length_cons]
    rcases step made state model call start with ⟨next, performed, kept⟩ | ⟨stop, failed, excuse⟩
    · rw [performed]
      rcases ih kept with ⟨final, finished, reached⟩ | ⟨stop, failed, excuse⟩
      · refine .inl ⟨final, ?_, ?_⟩
        · rw [Stop.ok_bind]
          simp only [finished]
          rfl
        · rw [show made + (rest.length + 1) = made + 1 + rest.length by omega]
          exact reached
      · refine .inr ⟨stop, ?_, later (by omega) excuse⟩
        rw [Stop.ok_bind]
        simp only [failed]
        rfl
    · exact .inr ⟨stop, by rw [failed]; rfl, later (by omega) excuse⟩

/-- Why a run may stop: it asked for memory and was refused, or made more calls
than there are addresses for their entries. -/
def Excused (room : Nat → Bool) (made : Nat) (stop : Stop) : Prop :=
  stop = .outOfMemory ∧ ((∃ request, room request = false) ∨ 2 ^ 57 ≤ made)

theorem Excused.later {room : Nat → Bool} {made more : Nat} {stop : Stop} (within : made ≤ more)
    (excused : Excused room made stop) : Excused room more stop := by
  obtain ⟨reason, refused | many⟩ := excused
  · exact ⟨reason, .inl refused⟩
  · exact ⟨reason, .inr (by omega)⟩

/-- The same for a buffer of elements that need not take up memory. -/
def Exhausted (room : Nat → Bool) (made : Nat) (stop : Stop) : Prop :=
  stop = .outOfMemory ∧ ((∃ request, room request = false) ∨ 2 ^ 63 ≤ made)

theorem Exhausted.later {room : Nat → Bool} {made more : Nat} {stop : Stop} (within : made ≤ more)
    (exhausted : Exhausted room made stop) : Exhausted room more stop := by
  obtain ⟨reason, refused | many⟩ := exhausted
  · exact ⟨reason, .inl refused⟩
  · exact ⟨reason, .inr (by omega)⟩

end Rue.Collections
