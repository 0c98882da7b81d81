import Mathlib.Data.Multiset.Basic
import Rue.Collections.BinaryHeap
import Rue.Lib.HeapOrder
import Rue.Proofs.Collections.ArrayBuf

/-! The heaps serve what was pushed: after every call no element precedes its
parent, and what is taken out is preceded by nothing that stays. -/

namespace Rue.Proofs.Collections
open Rue.Collections Rue.Lib Rue.Lib.HeapOrder

namespace Heap

variable {T : Type} {less : T → T → Bool} {compare : Heap.Comparison T} {data : List T} {i : Nat}

/-- The comparison of two places is that of the elements there. -/
def Compares (compare : Heap.Comparison T) (less : T → T → Bool) : Prop :=
  ∀ data i j a b, data[i]? = some a → data[j]? = some b → compare data i j = .ok (less a b)

/-- The element at one place precedes the one at another. -/
def Before (less : T → T → Bool) (data : List T) (i j : Nat) : Prop :=
  ∀ a b, data[i]? = some a → data[j]? = some b → less a b

theorem better_answers (compares : Compares compare less) {child chosen : Nat} (inside : chosen < data.length) :
    ∃ s, Heap.better compare data child chosen = .ok s ∧ s < data.length ∧
      (s = chosen ∧ NotBefore less data child chosen ∨ s = child ∧ Before less data child chosen) := by
  rw [Heap.better]
  split
  next small =>
    have here := List.getElem?_eq_getElem small
    have there := List.getElem?_eq_getElem inside
    rw [compares data child chosen _ _ here there, Stop.ok_bind]
    cases compared : less data[child] data[chosen] with
    | true =>
      refine ⟨child, rfl, small, .inr ⟨rfl, ?_⟩⟩
      intro a b first second
      cases here.symm.trans first
      cases there.symm.trans second
      exact compared
    | false =>
      refine ⟨chosen, rfl, inside, .inl ⟨rfl, ?_⟩⟩
      intro a b first second
      cases here.symm.trans first
      cases there.symm.trans second
      exact compared
  next large =>
    refine ⟨chosen, rfl, inside, .inl ⟨rfl, ?_⟩⟩
    intro a b first
    rw [List.getElem?_eq_none (by omega)] at first
    cases first

theorem child_cases {k : Nat} (positive : 0 < k) (under : parent k = i) : k = 2 * i + 1 ∨ k = 2 * i + 2 := by
  unfold parent at under
  omega

theorem parent_children : parent (2 * i + 1) = i ∧ parent (2 * i + 2) = i := by
  unfold parent
  omega

theorem notBefore_self (weak : StrictWeak less) : NotBefore less data i i := by
  intro a b first second
  cases first.symm.trans second
  exact weak.irrefl a

/-- The chosen place is the node itself when its children do not precede it, and
else a child that precedes it and is preceded by no child. -/
theorem pick_answers (weak : StrictWeak less) (compares : Compares compare less) (inside : i < data.length) :
    ∃ s, (do Heap.better compare data (2 * i + 2) (← Heap.better compare data (2 * i + 1) i)) = .ok s ∧
      (s = i ∧ (∀ k, 0 < k → parent k = i → NotBefore less data k i) ∨
        0 < s ∧ parent s = i ∧ s < data.length ∧ Before less data s i ∧ ∀ k, 0 < k → parent k = i → NotBefore less data k s) := by
  obtain ⟨c, first, within, one⟩ := @better_answers _ _ _ _ compares (2 * i + 1) _ inside
  obtain ⟨s, second, bounded, two⟩ := @better_answers _ _ _ _ compares (2 * i + 2) _ within
  refine ⟨s, by rw [first]; exact second, ?_⟩
  have found : ∀ {k : Nat}, k < data.length → ∃ a, data[k]? = some a := fun small => ⟨_, List.getElem?_eq_getElem small⟩
  rcases one with ⟨rfl, left⟩ | ⟨rfl, left⟩
  · rcases two with ⟨rfl, right⟩ | ⟨rfl, right⟩
    · refine .inl ⟨rfl, ?_⟩
      intro k positive under
      rcases child_cases positive under with rfl | rfl
      · exact left
      · exact right
    · refine .inr ⟨by omega, parent_children.2, bounded, right, ?_⟩
      intro k positive under
      rcases child_cases positive under with rfl | rfl
      · intro a b here there
        obtain ⟨top, known⟩ := found inside
        cases compared : less a b with
        | false => rfl
        | true =>
          have contrary := left a top here known
          rw [weak.trans compared (right b top there known)] at contrary
          cases contrary
      · exact notBefore_self weak
  · rcases two with ⟨rfl, right⟩ | ⟨rfl, right⟩
    · refine .inr ⟨by omega, parent_children.1, bounded, left, ?_⟩
      intro k positive under
      rcases child_cases positive under with rfl | rfl
      · exact notBefore_self weak
      · exact right
    · refine .inr ⟨by omega, parent_children.2, bounded, ?_, ?_⟩
      · intro a b here there
        obtain ⟨middle, known⟩ := found within
        exact weak.trans (right a middle here known) (left middle b known there)
      · intro k positive under
        rcases child_cases positive under with rfl | rfl
        · exact fun a b here there => weak.asymm (right b a there here)
        · exact notBefore_self weak

theorem siftDown_answers (weak : StrictWeak less) (compares : Compares compare less) {fuel : Nat} (inside : i < data.length)
    (small : data.length < 2 ^ 63 ∨ i = 0 ∧ Subsingleton T) (enough : data.length - i ≤ fuel) (order : DownOrder less data i) :
    ∃ after, Heap.siftDown compare fuel data i = .ok after ∧ after.Perm data ∧ Ordered less after := by
  induction fuel generalizing data i with
  | zero => omega
  | succ fuel ih =>
    obtain ⟨s, picked, choice⟩ := pick_answers weak compares inside
    have low : 2 * i + 2 < 2 ^ 64 := by
      rcases small with few | ⟨rfl, _⟩ <;> omega
    rw [Heap.siftDown, U64.mul_ok (by omega), Stop.ok_bind, U64.add_ok (by omega), Stop.ok_bind, Stop.ok_bind, U64.add_ok (by omega),
      Stop.ok_bind]
    rw [← bind_assoc, picked, Stop.ok_bind]
    rcases choice with ⟨rfl, children⟩ | ⟨positive, under, within, below, least⟩
    · rw [if_pos rfl]
      exact ⟨data, rfl, .refl _, order.finish children⟩
    · have lower := parent_lt positive
      obtain ⟨swapped, done, exchanged⟩ := swap_exchanged inside within
      rw [if_neg (by omega), done, Stop.ok_bind]
      have length := exchanged.length
      have few : data.length < 2 ^ 63 := by
        rcases small with few | ⟨_, single⟩
        · exact few
        · have differ := below _ _ (List.getElem?_eq_getElem within) (List.getElem?_eq_getElem inside)
          rw [single.allEq data[s] data[i], weak.irrefl] at differ
          cases differ
      obtain ⟨after, sifted, perm, ordered⟩ := ih (by omega) (.inl (by omega)) (by omega)
        (order.move weak positive under exchanged least below)
      exact ⟨after, sifted, perm.trans exchanged.perm, ordered⟩

theorem siftUp_answers (weak : StrictWeak less) (compares : Compares compare less) {fuel : Nat} (inside : i < data.length)
    (enough : i < fuel) (order : UpOrder less data i) :
    ∃ after, Heap.siftUp compare fuel data i = .ok after ∧ after.Perm data ∧ Ordered less after := by
  induction fuel generalizing data i with
  | zero => omega
  | succ fuel ih =>
    rw [Heap.siftUp]
    split
    next positive =>
      have above := parent_lt positive
      have here := List.getElem?_eq_getElem inside
      have there : data[parent i]? = some data[parent i] := List.getElem?_eq_getElem (by omega)
      have above' : (i - 1) / 2 = parent i := rfl
      rw [U64.sub_ok (show 1 ≤ i from positive), Stop.ok_bind]
      dsimp only
      rw [above', compares data i (parent i) _ _ here there, Stop.ok_bind]
      cases compared : less data[i] data[parent i] with
      | true =>
        obtain ⟨swapped, done, exchanged⟩ := swap_exchanged inside (show parent i < data.length by omega)
        have below : ∀ a b, data[i]? = some a → data[parent i]? = some b → less a b := by
          intro a b first second
          cases here.symm.trans first
          cases there.symm.trans second
          exact compared
        have length := exchanged.length
        obtain ⟨after, sifted, perm, ordered⟩ := ih (by omega) (by omega) (order.move weak positive exchanged below)
        refine ⟨after, ?_, perm.trans exchanged.perm, ordered⟩
        rw [if_pos rfl, done, Stop.ok_bind, sifted]
      | false =>
        refine ⟨data, rfl, .refl _, order.finish fun _ a b first second => ?_⟩
        cases here.symm.trans first
        cases there.symm.trans second
        exact compared
    next root => exact ⟨data, rfl, .refl _, order.finish fun positive => absurd positive root⟩

/-- One call on the elements that are stored. -/
def Serves (less : T → T → Bool) (stored : Multiset T) (answer : HeapAnswer T) (left : Multiset T) : HeapCall T → Prop
  | .push x => answer = .done ∧ left = x ::ₘ stored
  | .pop =>
    stored = 0 ∧ answer = .found none ∧ left = 0 ∨
      ∃ x, stored = x ::ₘ left ∧ answer = .found (some x) ∧ ∀ y ∈ stored, less y x = false
  | .peek =>
    left = stored ∧
      (stored = 0 ∧ answer = .found none ∨ ∃ x ∈ stored, answer = .found (some x) ∧ ∀ y ∈ stored, less y x = false)

inductive Served (less : T → T → Bool) (last : Multiset T) : Multiset T → List (HeapCall T) → List (HeapAnswer T) → Prop
  | done : Served less last last [] []
  | call {stored left : Multiset T} {call : HeapCall T} {answer : HeapAnswer T} {calls : List (HeapCall T)}
    {answers : List (HeapAnswer T)} (serves : Serves less stored answer left call) (rest : Served less last left calls answers) :
    Served less last stored (call :: calls) (answer :: answers)

/-- No request for memory reaches half of the addresses, or elements take up no
memory, as there is only one. -/
def Addressed (T : Type) (room : Nat → Nat → Bool) : Prop :=
  (∀ asked length, room asked length → length < 2 ^ 63) ∨ Subsingleton T

structure Valid (less : T → T → Bool) (heap : Heap T) : Prop where
  ordered : Ordered less heap.data
  sized : heap.data.length < 2 ^ 63 ∨ Subsingleton T

/-- Memory was refused, or there are as many elements as numbers. -/
def Refused (room : Nat → Nat → Bool) (made : Nat) (stop : Stop) : Prop :=
  stop = .outOfMemory ∧ ((∃ asked length, room asked length = false) ∨ 2 ^ 64 - 1 ≤ made)

variable {room : Nat → Nat → Bool} {heap : Heap T}

theorem push_answers (weak : StrictWeak less) (compares : Compares compare less) (addressed : Addressed T room)
    (valid : Valid less heap) (x : T) {made : Nat} (few : heap.data.length ≤ made) :
    (∃ next, heap.push compare room x = .ok next ∧ Valid less next ∧ next.data.Perm (heap.data ++ [x])) ∨
      ∃ stop, heap.push compare room x = .error stop ∧ Refused room made stop := by
  rw [Heap.push, ArrayBuf.push]
  split
  next granted =>
    left
    have length : (heap.data ++ [x]).length = heap.data.length + 1 := List.length_append
    have order : UpOrder less (heap.data ++ [x]) heap.data.length := by
      constructor
      · intro k positive apart a b here there
        have inside := (List.getElem?_eq_some_iff.mp here).1
        have above := parent_lt positive
        rw [List.getElem?_append_left (by omega)] at here there
        exact valid.ordered k positive a b here there
      · intro k _ positive under a b here
        have inside := (List.getElem?_eq_some_iff.mp here).1
        have above := parent_lt positive
        omega
    obtain ⟨after, sifted, perm, ordered⟩ := @siftUp_answers T less compare (heap.data ++ [x]) heap.data.length weak compares
      ((heap.data ++ [x]).length + 1) (by omega) (by omega) order
    refine ⟨⟨after, heap.asked + 1⟩, ?_, ⟨ordered, ?_⟩, perm⟩
    · rw [Stop.ok_bind]
      dsimp only
      rw [U64.sub_ok (by omega), Stop.ok_bind, length, Nat.add_sub_cancel, ← length, sifted, Stop.ok_bind]
      rfl
    · rcases addressed with bounded | single
      · left
        have within := bounded _ _ granted.1
        have same := perm.length_eq
        dsimp only
        omega
      · exact .inr single
  next refused =>
    right
    refine ⟨.outOfMemory, rfl, rfl, ?_⟩
    cases granted : room heap.asked (heap.data.length + 1) with
    | true =>
      right
      have full : ¬heap.data.length < 2 ^ 64 - 1 := fun short => refused ⟨granted, short⟩
      omega
    | false => exact .inl ⟨_, _, granted⟩

theorem pop_empty (empty : heap.data = []) : heap.pop compare = .ok (none, heap) := by
  rw [Heap.pop, empty]
  rfl

/-- Without its root, which its last element replaces, a heap is out of order at
the root alone. -/
theorem root_replaced {swapped : List T} {root : T} {rest : List T} (ordered : Ordered less (root :: rest))
    (exchanged : Exchanged 0 rest.length (root :: rest) swapped) :
    swapped.getLast? = some root ∧ swapped.dropLast.Perm rest ∧ DownOrder less swapped.dropLast 0 := by
  have length : swapped.length = rest.length + 1 := exchanged.length
  have last : swapped.getLast? = some root := by
    rw [List.getLast?_eq_getElem?, length, Nat.add_sub_cancel, exchanged.second, List.getElem?_cons_zero]
  refine ⟨last, ?_, ?_⟩
  · have whole : swapped.dropLast ++ [root] = swapped := List.dropLast_append_getLast? root last
    have perm := exchanged.perm
    rw [← whole] at perm
    exact ((List.perm_append_singleton root swapped.dropLast).symm.trans perm).cons_inv
  · refine ⟨?_, fun k first => absurd first (Nat.lt_irrefl 0)⟩
    intro k positive apart a b here there
    have above := parent_lt positive
    have inside := (List.getElem?_eq_some_iff.mp here).1
    rw [List.length_dropLast, length] at inside
    rw [List.getElem?_dropLast, if_pos (by omega), exchanged.other (by omega) (by omega)] at here there
    exact ordered k positive a b here there

theorem pop_answers (weak : StrictWeak less) (compares : Compares compare less) (valid : Valid less heap) {root : T}
    {rest : List T} (stored : heap.data = root :: rest) :
    ∃ next, heap.pop compare = .ok (some root, next) ∧ Valid less next ∧ next.data.Perm rest := by
  have ordered := valid.ordered
  have sized := valid.sized
  rw [stored] at ordered sized
  rw [Heap.pop, stored]
  cases rest with
  | nil =>
    refine ⟨{ heap with data := [] }, rfl, ⟨nofun, .inl (Nat.two_pow_pos 63)⟩, .nil⟩
  | cons second more =>
    have positive : 0 < (root :: second :: more).length := Nat.zero_lt_succ _
    obtain ⟨swapped, done, exchanged⟩ := @swap_exchanged T (root :: second :: more) 0 (second :: more).length positive (Nat.lt_succ_self _)
    obtain ⟨last, perm, order⟩ := root_replaced ordered exchanged
    have length : swapped.dropLast.length = (second :: more).length := perm.length_eq
    have sized' : swapped.dropLast.length < 2 ^ 63 ∨ Subsingleton T := by
      rcases sized with few | single
      · have whole : (root :: second :: more).length = (second :: more).length + 1 := rfl
        exact .inl (by omega)
      · exact .inr single
    obtain ⟨after, sifted, sorted, held⟩ := @siftDown_answers T less compare swapped.dropLast 0 weak compares
      ((root :: second :: more).length + 1) (by rw [length]; exact Nat.zero_lt_succ _) (sized'.imp_right fun single => ⟨rfl, single⟩)
      (by rw [length]; exact (Nat.sub_le _ _).trans (Nat.le_add_right _ 2)) order
    refine ⟨{ heap with data := after }, ?_, ⟨held, ?_⟩, sorted.trans perm⟩
    · have many : ¬(root :: second :: more).length = 1 := by simp
      dsimp only
      have place : (root :: second :: more).length - 1 = (second :: more).length := rfl
      rw [if_neg (Nat.ne_of_gt positive), if_neg many, place, done, Stop.ok_bind, ArrayBuf.pop, last]
      dsimp only
      rw [sifted, Stop.ok_bind]
      rfl
    · rcases sized' with few | single
      · left
        have same := sorted.length_eq
        dsimp only
        omega
      · exact .inr single

theorem least_of_perm {stored : Multiset T} (weak : StrictWeak less) (valid : Valid less heap) {root : T} {rest : List T}
    (here : heap.data = root :: rest) (same : (heap.data : Multiset T) = stored) : ∀ y ∈ stored, less y root = false := by
  intro y member
  rw [← same] at member
  have first : heap.data[0]? = some root := by rw [here, List.getElem?_cons_zero]
  exact root_least weak valid.ordered first y (Multiset.mem_coe.mp member)

theorem perform_answers (weak : StrictWeak less) (compares : Compares compare less) (addressed : Addressed T room)
    (valid : Valid less heap) {made : Nat} (few : heap.data.length ≤ made) (call : HeapCall T) :
    (∃ answer next, Heap.perform compare room heap call = .ok (answer, next) ∧ Valid less next ∧
        next.data.length ≤ made + 1 ∧ Serves less heap.data answer next.data call) ∨
      ∃ stop, Heap.perform compare room heap call = .error stop ∧ Refused room made stop := by
  cases call with
  | push x =>
    rcases push_answers weak compares addressed valid x few with ⟨next, done, kept, perm⟩ | ⟨stop, failed, excuse⟩
    · left
      refine ⟨.done, next, by rw [Heap.perform, done]; rfl, kept, ?_, rfl, ?_⟩
      · have length := perm.length_eq
        rw [List.length_append] at length
        exact length.trans_le (Nat.add_le_add_right few 1)
      · rw [Multiset.cons_coe, Multiset.coe_eq_coe]
        exact perm.trans (List.perm_append_singleton x heap.data)
    · exact .inr ⟨stop, by rw [Heap.perform, failed]; rfl, excuse⟩
  | pop =>
    left
    cases here : heap.data with
    | nil =>
      have few' : heap.data.length ≤ made + 1 := by omega
      exact ⟨.found none, heap, by rw [Heap.perform, pop_empty here]; rfl, valid, few', .inl ⟨rfl, rfl, by rw [here]; rfl⟩⟩
    | cons root rest =>
      obtain ⟨next, done, kept, perm⟩ := pop_answers weak compares valid here
      refine ⟨.found (some root), next, by rw [Heap.perform, done]; rfl, kept, ?_, .inr ⟨root, ?_, rfl, ?_⟩⟩
      · have length := perm.length_eq
        rw [here, List.length_cons] at few
        omega
      · rw [Multiset.cons_coe, Multiset.coe_eq_coe]
        exact perm.symm.cons root
      · exact least_of_perm weak valid here (by rw [here])
  | peek =>
    left
    refine ⟨.found heap.peek, heap, rfl, valid, by omega, rfl, ?_⟩
    cases here : heap.data with
    | nil => exact .inl ⟨rfl, by rw [Heap.peek, here]; rfl⟩
    | cons root rest =>
      refine .inr ⟨root, Multiset.mem_coe.mpr List.mem_cons_self, by rw [Heap.peek, here]; rfl, ?_⟩
      exact least_of_perm weak valid here (by rw [here])

/-- What the users of a heap rely on, over any run of calls. -/
structure Sound (less : T → T → Bool)
    (perform : (Nat → Nat → Bool) → Heap T → HeapCall T → Except Stop (HeapAnswer T × Heap T)) : Prop where
  serves : ∀ room, Addressed T room → ∀ calls,
    (∃ answers final, performAll (perform room) Heap.new calls = .ok (answers, final) ∧ Ordered less final.data ∧
        Served less final.data 0 calls answers) ∨
      ∃ stop, performAll (perform room) Heap.new calls = .error stop ∧ Refused room calls.length stop
  sorts : ∀ room, Addressed T room → ∀ (items : List T) answers final,
    performAll (perform room) Heap.new (items.map .push ++ List.replicate items.length .pop) = .ok (answers, final) →
      ∃ ys : List T, answers = List.replicate items.length .done ++ ys.map (fun y => .found (some y)) ∧ ys.Perm items ∧
        ys.Pairwise fun first second => less second first = false

end Heap

end Rue.Proofs.Collections
