import Mathlib.Algebra.Order.Ring.Int
import Mathlib.Logic.Function.Basic
import Mathlib.Data.List.Basic

/-! Byte memory with little-endian words, regions of addresses, and linked lists
whose links are words of the memory. -/

namespace Rue.Lib.Memory

abbrev Bytes := Nat → BitVec 8

def load (memory : Bytes) (address : Nat) : (width : Nat) → Nat
  | 0 => 0
  | width + 1 => (memory address).toNat + 256 * load memory (address + 1) width

def store (memory : Bytes) (address value : Nat) : (width : Nat) → Bytes
  | 0 => memory
  | width + 1 => Function.update (store memory (address + 1) (value / 256) width) address (.ofNat 8 value)

def copy (memory : Bytes) (source target size : Nat) : Bytes := fun address =>
  if target ≤ address ∧ address < target + size then memory (source + (address - target)) else memory address

def fill (memory : Bytes) (target size : Nat) (byte : BitVec 8) : Bytes := fun address =>
  if target ≤ address ∧ address < target + size then byte else memory address

structure Region where
  base : Nat
  size : Nat
  deriving DecidableEq, Repr

namespace Region

def Holds (region : Region) (address : Nat) : Prop := region.base ≤ address ∧ address < region.base + region.size

def Disjoint (first second : Region) : Prop :=
  first.base + first.size ≤ second.base ∨ second.base + second.size ≤ first.base

def Within (inner outer : Region) : Prop :=
  outer.base ≤ inner.base ∧ inner.base + inner.size ≤ outer.base + outer.size

variable {first second inner outer : Region} {address : Nat}

theorem Disjoint.symm (apart : Disjoint first second) : Disjoint second first := Or.symm apart

theorem Disjoint.of_within (apart : Disjoint outer second) (within : Within inner outer) : Disjoint inner second := by
  simp only [Disjoint, Within] at *
  omega

theorem Disjoint.not_holds (apart : Disjoint first second) (held : first.Holds address) : ¬ second.Holds address := by
  simp only [Disjoint, Holds] at *
  omega

theorem Within.holds (within : Within inner outer) (held : inner.Holds address) : outer.Holds address := by
  simp only [Within, Holds] at *
  omega

end Region

section Words
variable {memory memory' : Bytes} {address value : Nat}

variable {other width source target size k n : Nat}

theorem store_outside (outside : ¬ Region.Holds ⟨address, width⟩ other) :
    store memory address value width other = memory other := by
  induction width generalizing address value with
  | zero => rfl
  | succ width ih =>
    simp only [Region.Holds] at outside ih
    rw [store, Function.update_of_ne (by omega), ih (by omega)]

theorem load_congr (agree : ∀ other, Region.Holds ⟨address, width⟩ other → memory' other = memory other) :
    load memory' address width = load memory address width := by
  induction width generalizing address with
  | zero => rfl
  | succ width ih =>
    simp only [Region.Holds] at agree ih
    rw [load, load, agree address (by omega), ih fun other held => agree other (by omega)]

theorem load_store (width : Nat) : load (store memory address value width) address width = value % 256 ^ width := by
  induction width generalizing address value with
  | zero => rw [Nat.pow_zero, Nat.mod_one, load]
  | succ width ih =>
    have rest : load (store memory address value (width + 1)) (address + 1) width =
        load (store memory (address + 1) (value / 256) width) (address + 1) width := by
      apply load_congr
      intro other held
      simp only [Region.Holds] at held
      rw [store, Function.update_of_ne (by omega)]
    have split : value % 256 ^ (width + 1) = value % 256 + 256 * (value / 256 % 256 ^ width) := by
      rw [Nat.pow_succ', Nat.mod_mul]
    rw [load, rest, ih, store, Function.update_self, BitVec.toNat_ofNat, split]

theorem load_store_disjoint {width' : Nat} (apart : Region.Disjoint ⟨address, width⟩ ⟨other, width'⟩) :
    load (store memory address value width) other width' = load memory other width' :=
  load_congr fun _ held => store_outside (apart.symm.not_holds held)

theorem copy_outside (outside : ¬ Region.Holds ⟨target, size⟩ other) :
    copy memory source target size other = memory other := if_neg outside

theorem load_lt (memory : Bytes) (address width : Nat) : load memory address width < 256 ^ width := by
  induction width generalizing address with
  | zero => exact Nat.one_pos
  | succ width ih =>
    have low := (memory address).isLt
    have high := ih (address + 1)
    rw [load, Nat.pow_succ']
    omega

theorem store_load (memory other : Bytes) (source target width : Nat) :
    store memory target (load other source width) width = fun address =>
      if target ≤ address ∧ address < target + width then other (source + (address - target)) else memory address := by
  induction width generalizing source target with
  | zero =>
    funext address
    rw [store, if_neg (by omega)]
  | succ width ih =>
    have low := (other source).isLt
    have rest : load other source (width + 1) / 256 = load other (source + 1) width := by
      rw [load]
      omega
    have first : BitVec.ofNat 8 (load other source (width + 1)) = other source := by
      refine BitVec.eq_of_toNat_eq ?_
      rw [BitVec.toNat_ofNat, load]
      omega
    funext address
    rw [store, rest, first, ih]
    by_cases here : address = target
    · rw [here, Function.update_self, if_pos (by omega), Nat.sub_self, Nat.add_zero]
    · rw [Function.update_of_ne here]
      by_cases inside : target + 1 ≤ address ∧ address < target + 1 + width
      · have place : source + 1 + (address - (target + 1)) = source + (address - target) := by omega
        rw [if_pos inside, if_pos (by omega), place]
      · rw [if_neg inside, if_neg (by omega)]

theorem store_load_copy (memory : Bytes) (source target width : Nat) :
    store memory target (load memory source width) width = copy memory source target width := store_load ..

theorem store_load_fill (memory : Bytes) (byte : BitVec 8) (target width : Nat) :
    store memory target (load (fun _ => byte) 0 width) width = fill memory target width byte := store_load ..

theorem load_inj {first second : Nat} :
    load memory first width = load memory second width ↔ ∀ i < width, memory (first + i) = memory (second + i) := by
  induction width generalizing first second with
  | zero => exact ⟨fun _ i small => absurd small (Nat.not_lt_zero i), fun _ => rfl⟩
  | succ width ih =>
    have low := (memory first).isLt
    have low' := (memory second).isLt
    rw [load, load]
    constructor
    · intro same i small
      have heads : (memory first).toNat = (memory second).toNat := by omega
      have tails : load memory (first + 1) width = load memory (second + 1) width := by omega
      cases i with
      | zero => exact BitVec.eq_of_toNat_eq heads
      | succ i =>
        have later := ih.mp tails i (by omega)
        rwa [Nat.add_right_comm, Nat.add_right_comm second] at later
    · intro same
      have heads : memory first = memory second := same 0 (by omega)
      have tails : load memory (first + 1) width = load memory (second + 1) width := by
        refine ih.mpr fun i small => ?_
        have later := same (i + 1) (by omega)
        rwa [← Nat.add_assoc, ← Nat.add_assoc, Nat.add_right_comm, Nat.add_right_comm second] at later
      rw [heads, tails]

/-! Copies and fills in parts. A copy can go up when its target is not inside its
source, and down when its source is not inside its target. -/

theorem copy_inside (inside : target ≤ other ∧ other < target + size) :
    copy memory source target size other = memory (source + (other - target)) := if_pos inside

theorem copy_beyond (beyond : other < target ∨ target + size ≤ other) :
    copy memory source target size other = memory other := if_neg (by omega)

theorem copy_up (below : target ≤ source ∨ source + (k + n) ≤ target) :
    copy (copy memory source target k) (source + k) (target + k) n = copy memory source target (k + n) := by
  funext address
  by_cases later : target + k ≤ address ∧ address < target + k + n
  · have place : source + k + (address - (target + k)) = source + (address - target) := by omega
    rw [copy_inside later, place, copy_beyond (by omega), copy_inside (by omega)]
  · rw [copy_beyond (by omega)]
    by_cases earlier : target ≤ address ∧ address < target + k
    · rw [copy_inside earlier, copy_inside (by omega)]
    · rw [copy_beyond (by omega), copy_beyond (by omega)]

theorem copy_down (above : source ≤ target) :
    copy (copy memory (source + n) (target + n) k) source target n = copy memory source target (n + k) := by
  funext address
  by_cases earlier : target ≤ address ∧ address < target + n
  · rw [copy_inside earlier, copy_beyond (by omega), copy_inside (by omega)]
  · rw [copy_beyond (by omega)]
    by_cases later : target + n ≤ address ∧ address < target + n + k
    · have place : source + n + (address - (target + n)) = source + (address - target) := by omega
      rw [copy_inside later, place, copy_inside (by omega)]
    · rw [copy_beyond (by omega), copy_beyond (by omega)]

theorem copy_one (memory : Bytes) (source target : Nat) :
    Function.update memory target (memory source) = copy memory source target 1 := by
  funext address
  rw [copy]
  by_cases here : address = target
  · rw [here, Function.update_self, if_pos (by omega), Nat.sub_self, Nat.add_zero]
  · rw [Function.update_of_ne here, if_neg (by omega)]

theorem copy_none (memory : Bytes) (source target : Nat) : copy memory source target 0 = memory := by
  funext address
  rw [copy, if_neg (by omega)]

theorem fill_up {byte : BitVec 8} :
    fill (fill memory target k byte) (target + k) n byte = fill memory target (k + n) byte := by
  funext address
  simp only [fill]
  by_cases later : target + k ≤ address ∧ address < target + k + n
  · rw [if_pos later, if_pos (by omega)]
  · rw [if_neg later]
    by_cases earlier : target ≤ address ∧ address < target + k
    · rw [if_pos earlier, if_pos (by omega)]
    · rw [if_neg earlier, if_neg (by omega)]

theorem fill_one (memory : Bytes) (target : Nat) (byte : BitVec 8) : Function.update memory target byte = fill memory target 1 byte := by
  funext address
  rw [fill]
  by_cases here : address = target
  · rw [here, Function.update_self, if_pos (by omega)]
  · rw [Function.update_of_ne here, if_neg (by omega)]

theorem fill_none (memory : Bytes) (target : Nat) (byte : BitVec 8) : fill memory target 0 byte = memory := by
  funext address
  rw [fill, if_neg (by omega)]

end Words

/-- The nonzero nodes from this one on, each leading to the next. -/
def Chain (next : Nat → Nat) : (head : Nat) → List Nat → Prop
  | head, [] => head = 0
  | head, node :: rest => head = node ∧ node ≠ 0 ∧ Chain next (next node) rest

section Chains
variable {next next' : Nat → Nat} {head : Nat} {nodes : List Nat}

theorem Chain.frame (chain : Chain next head nodes) (agree : ∀ node ∈ nodes, next' node = next node) :
    Chain next' head nodes := by
  induction nodes generalizing head with
  | nil => exact chain
  | cons node rest ih =>
    obtain ⟨same, nonzero, tail⟩ := chain
    refine ⟨same, nonzero, ?_⟩
    rw [agree node List.mem_cons_self]
    exact ih tail fun other member => agree other (List.mem_cons_of_mem _ member)

theorem Chain.cases (chain : Chain next head nodes) :
    head = 0 ∧ nodes = [] ∨ head ≠ 0 ∧ ∃ rest, nodes = head :: rest ∧ Chain next (next head) rest := by
  cases nodes with
  | nil => exact Or.inl ⟨chain, rfl⟩
  | cons node rest =>
    obtain ⟨rfl, nonzero, tail⟩ := chain
    exact Or.inr ⟨nonzero, rest, rfl, tail⟩

end Chains

end Rue.Lib.Memory
