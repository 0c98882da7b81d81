import Rue.Lib.Lists
import Rue.Lib.WeakOrder

/-! Lists ordered as binary heaps, and what an exchange along a path does to an
order that is broken at one place. -/

namespace Rue.Lib

variable {T : Type} {less : T → T → Bool}

namespace HeapOrder

def parent (i : Nat) : Nat := (i - 1) / 2

theorem parent_lt {i : Nat} (positive : 0 < i) : parent i < i := by
  unfold parent
  omega

def Ordered (less : T → T → Bool) (data : List T) : Prop := ∀ k, 0 < k → NotBefore less data k (parent k)

/-- Ordered but for the children of a place, which do not precede its parent. -/
structure DownOrder (less : T → T → Bool) (data : List T) (i : Nat) : Prop where
  off : ∀ k, 0 < k → parent k ≠ i → NotBefore less data k (parent k)
  grand : ∀ k, 0 < i → 0 < k → parent k = i → NotBefore less data k (parent i)

/-- Ordered but for a place and its parent, which its children do not precede. -/
structure UpOrder (less : T → T → Bool) (data : List T) (i : Nat) : Prop where
  off : ∀ k, 0 < k → k ≠ i → NotBefore less data k (parent k)
  grand : ∀ k, 0 < i → 0 < k → parent k = i → NotBefore less data k (parent i)

section Sift
variable {data after : List T} {i : Nat}

theorem DownOrder.finish (order : DownOrder less data i) (children : ∀ k, 0 < k → parent k = i → NotBefore less data k i) :
    Ordered less data := by
  intro k positive
  by_cases child : parent k = i
  · rw [child]
    exact children k positive child
  · exact order.off k positive child

theorem DownOrder.move {child : Nat} (weak : StrictWeak less) (order : DownOrder less data i) (positive : 0 < child)
    (under : parent child = i) (exchanged : Exchanged i child data after)
    (least : ∀ k, 0 < k → parent k = i → NotBefore less data k child)
    (below : ∀ a b, data[child]? = some a → data[i]? = some b → less a b) : DownOrder less after child := by
  have above : i < child := under ▸ parent_lt positive
  constructor
  · intro k first apart
    by_cases there : k = child
    · subst there
      rw [under]
      intro a b here parent'
      rw [exchanged.second] at here
      rw [exchanged.first] at parent'
      exact weak.asymm (below b a parent' here)
    · by_cases sibling : parent k = i
      · have other : k ≠ i := by
          have := parent_lt first
          omega
        rw [sibling]
        exact .of_get (exchanged.other other there) exchanged.first (least k first sibling)
      · by_cases here : k = i
        · subst here
          have apart' : parent k ≠ child := by
            have := parent_lt first
            omega
          exact .of_get exchanged.first (exchanged.other sibling apart') (order.grand child first positive under)
        · exact .of_get (exchanged.other here there) (exchanged.other sibling apart) (order.off k first sibling)
  · intro k _ first beneath
    have later := parent_lt first
    have other : k ≠ i := by omega
    have apart : k ≠ child := by omega
    have held := order.off k first (by omega)
    rw [beneath] at held
    rw [under]
    exact .of_get (exchanged.other other apart) exchanged.first held

theorem UpOrder.finish (order : UpOrder less data i) (settled : 0 < i → NotBefore less data i (parent i)) : Ordered less data := by
  intro k positive
  by_cases here : k = i
  · subst here
    exact settled positive
  · exact order.off k positive here

theorem UpOrder.move (weak : StrictWeak less) (order : UpOrder less data i) (positive : 0 < i)
    (exchanged : Exchanged i (parent i) data after)
    (below : ∀ a b, data[i]? = some a → data[parent i]? = some b → less a b) : UpOrder less after (parent i) := by
  have above := parent_lt positive
  have settled : ∀ k, 0 < parent i → k = parent i → NotBefore less data k (parent k) := by
    intro k first same
    exact order.off k (by omega) (by omega)
  constructor
  · intro k first apart
    have earlier := parent_lt first
    by_cases here : k = i
    · subst here
      intro a b child parent'
      rw [exchanged.first] at child
      rw [exchanged.second] at parent'
      exact weak.asymm (below b a parent' child)
    · have mine := exchanged.other here apart
      by_cases under : parent k = i
      · rw [under]
        exact .of_get mine exchanged.first (order.grand k positive first under)
      · by_cases sibling : parent k = parent i
        · rw [sibling]
          intro a b child parent'
          rw [mine] at child
          rw [exchanged.second] at parent'
          have held := order.off k first here
          rw [sibling] at held
          obtain ⟨top, found⟩ : ∃ top, data[parent i]? = some top := by
            have inside := (List.getElem?_eq_some_iff.mp parent').1
            exact ⟨_, List.getElem?_eq_getElem (by omega)⟩
          exact weak.not_less_trans (weak.asymm (below b top parent' found)) (held a top child found)
        · exact .of_get mine (exchanged.other under sibling) (order.off k first here)
  · intro k first second beneath
    have later := parent_lt second
    have grandparent := parent_lt first
    have top : after[parent (parent i)]? = data[parent (parent i)]? := exchanged.other (by omega) (by omega)
    by_cases here : k = i
    · subst here
      exact .of_get exchanged.first top (settled (parent k) first rfl)
    · have held := order.off k second here
      rw [beneath] at held
      intro a b child above'
      rw [exchanged.other here (by omega)] at child
      rw [top] at above'
      obtain ⟨middle, found⟩ : ∃ middle, data[parent i]? = some middle := by
        have inside := (List.getElem?_eq_some_iff.mp child).1
        exact ⟨_, List.getElem?_eq_getElem (by omega)⟩
      exact weak.not_less_trans (settled (parent i) first rfl middle b found above') (held a middle child found)

end Sift

theorem root_least (weak : StrictWeak less) {data : List T} (ordered : Ordered less data) {root : T} (first : data[0]? = some root) :
    ∀ a ∈ data, less a root = false := by
  have all : ∀ (k : Nat) (a : T), data[k]? = some a → less a root = false := by
    intro k
    induction k using Nat.strongRecOn with
    | ind k ih =>
      intro a here
      by_cases zero : k = 0
      · subst zero
        rw [first] at here
        cases here
        exact weak.irrefl _
      · have above := parent_lt (Nat.pos_of_ne_zero zero)
        have inside := (List.getElem?_eq_some_iff.mp here).1
        have found : data[parent k]? = some data[parent k] := List.getElem?_eq_getElem (by omega)
        exact weak.not_less_trans (ih _ above _ found) (ordered k (Nat.pos_of_ne_zero zero) a _ here found)
  intro a member
  obtain ⟨k, here⟩ := List.mem_iff_getElem?.mp member
  exact all k a here

end HeapOrder

end Rue.Lib
