import Mathlib.Data.Nat.Notation

/-! Programs that ask for resources. Requests are counted, an oracle may refuse any of
them, and a program is right when it yields a good value or stops refused with an
excuse. -/

namespace Rue.Lib

abbrev Asking (E A : Type) := StateT Nat (Except E) A

namespace Asking

variable {E A B : Type}

/-- One request, which `room` grants or refuses. -/
def ask (room : Nat → Bool) (refused : E) : Asking E Unit :=
  fun asked => if room asked then .ok ((), asked + 1) else .error refused

/-- From any number of earlier requests the program yields a good value or stops
refused, and only with an excuse. -/
def Yields (refused : E) (excuse : Prop) (program : Asking E A) (good : A → Prop) : Prop :=
  ∀ asked, (∃ value later, program asked = .ok (value, later) ∧ good value) ∨ (program asked = .error refused ∧ excuse)

variable {refused : E} {excuse : Prop} {good : A → Prop}

theorem Yields.pure {value : A} (holds : good value) : Yields refused excuse (pure value : Asking E A) good :=
  fun asked => .inl ⟨value, asked, rfl, holds⟩

theorem Yields.bind {program : Asking E A} {rest : A → Asking E B} {after : B → Prop}
    (first : Yields refused excuse program good) (next : ∀ value, good value → Yields refused excuse (rest value) after) :
    Yields refused excuse (program >>= rest) after := by
  intro asked
  have run : (program >>= rest) asked = (program asked >>= fun answer => rest answer.1 answer.2) := rfl
  rw [run]
  rcases first asked with ⟨value, later, ended, holds⟩ | ⟨stopped, excused⟩
  · rw [ended]
    exact next value holds later
  · rw [stopped]
    exact .inr ⟨rfl, excused⟩

theorem Yields.lift {computed : Except E A} {value : A} {rest : A → Asking E B} {after : B → Prop} (ok : computed = .ok value)
    (next : Yields refused excuse (rest value) after) :
    Yields refused excuse ((liftM computed : Asking E A) >>= rest) after := by
  subst ok
  exact next

theorem Yields.mono {program : Asking E A} {weaker : A → Prop} (first : Yields refused excuse program good)
    (implies : ∀ value, good value → weaker value) : Yields refused excuse program weaker := by
  intro asked
  rcases first asked with ⟨value, later, ended, holds⟩ | stopped
  · exact .inl ⟨value, later, ended, implies value holds⟩
  · exact .inr stopped

theorem Yields.ask {room : Nat → Bool} (excused : (∃ request, room request = false) → excuse) :
    Yields refused excuse (ask room refused) fun _ => True := by
  intro asked
  rw [Asking.ask]
  split
  next => exact .inl ⟨(), asked + 1, rfl, trivial⟩
  next full => exact .inr ⟨rfl, excused ⟨asked, Bool.not_eq_true _ |>.mp full⟩⟩

end Asking

end Rue.Lib
