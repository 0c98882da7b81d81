import Rue.Collections.Sorting
import Rue.Lib.Lists

/-! What reading and exchanging do to a buffer. -/

namespace Rue.Proofs.Collections
open Rue.Collections Rue.Lib

variable {T : Type} {data : List T} {i j : Nat}

theorem swap_exchanged (first : i < data.length) (second : j < data.length) :
    ∃ after, ArrayBuf.swap data i j = .ok after ∧ Exchanged i j data after := by
  refine ⟨(data.set i data[j]).set j data[i], ?_, List.set_set_perm first second, ?_⟩
  · rw [ArrayBuf.swap, List.getElem?_eq_getElem first, List.getElem?_eq_getElem second]
  · intro k
    by_cases there : k = j
    · subst there
      rw [Equiv.swap_apply_right, List.getElem?_set_self (by rwa [List.length_set]), List.getElem?_eq_getElem first]
    · rw [List.getElem?_set_ne (Ne.symm there)]
      by_cases here : k = i
      · subst here
        rw [Equiv.swap_apply_left, List.getElem?_set_self first, List.getElem?_eq_getElem second]
      · rw [List.getElem?_set_ne (Ne.symm here), Equiv.swap_apply_of_ne_of_ne here there]

theorem elementAt_ok (inside : i < data.length) : Sorting.elementAt data i = .ok data[i] := by
  rw [Sorting.elementAt, List.getElem?_eq_getElem inside]

theorem lessAt_ok {less : T → T → Bool} (first : i < data.length) (second : j < data.length) :
    Sorting.lessAt less data i j = .ok (less data[i] data[j]) := by
  rw [Sorting.lessAt, elementAt_ok first, Stop.ok_bind, elementAt_ok second]
  rfl

end Rue.Proofs.Collections
