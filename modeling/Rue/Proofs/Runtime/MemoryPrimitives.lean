import Rue.Lib.Lists
import Rue.Runtime.MemoryPrimitives

/-! The primitives on memory do what their definitions byte by byte say, within
the ranges they are given. -/

namespace Rue.Proofs.Runtime
open Rue.Runtime Rue.Runtime.MemoryPrimitives Rue.Lib Rue.Lib.Memory

namespace MemoryPrimitives

def Reads (space : Space) (base size : Nat) : Prop := ∀ k < size, space.readable (base + k)

def Writes (space : Space) (base size : Nat) : Prop := ∀ k < size, space.writable (base + k)

variable {space : Space} {memory : Memory.Bytes} {dst src n : Nat}

theorem chunkSize_eq : chunkSize = 8 := rfl

section Ranges
variable {base size count offset : Nat}

theorem Reads.part (reads : Reads space base size) (within : offset + count ≤ size) : Reads space (base + offset) count := by
  intro k small
  rw [Nat.add_assoc]
  exact reads _ (by omega)

theorem Writes.part (writes : Writes space base size) (within : offset + count ≤ size) : Writes space (base + offset) count := by
  intro k small
  rw [Nat.add_assoc]
  exact writes _ (by omega)

theorem Reads.first (reads : Reads space base size) (within : count ≤ size) : Reads space base count :=
  fun k small => reads k (by omega)

theorem Writes.first (writes : Writes space base size) (within : count ≤ size) : Writes space base count :=
  fun k small => writes k (by omega)

end Ranges

theorem readByte_ok {a k : Nat} (reads : Reads space a n) (small : k < n) :
    readByte space memory (a + k) = .ok (memory (a + k)) := if_pos (reads k small)

theorem writeByte_ok {a k : Nat} {value : BitVec 8} (writes : Writes space a n) (small : k < n) :
    writeByte space memory (a + k) value = .ok (Function.update memory (a + k) value) := if_pos (writes k small)

theorem readChunk_ok (reads : Reads space src chunkSize) :
    readChunk space memory src = .ok (.ofNat 64 (load memory src chunkSize)) := by
  rw [readChunk, if_pos]
  rw [List.all_eq_true]
  exact fun k member => reads k (List.mem_range.mp member)

theorem writeChunk_ok {value : BitVec 64} (writes : Writes space dst chunkSize) :
    writeChunk space memory dst value = .ok (store memory dst value.toNat chunkSize) := by
  rw [writeChunk, if_pos]
  rw [List.all_eq_true]
  exact fun k member => writes k (List.mem_range.mp member)

theorem chunk_toNat (memory : Memory.Bytes) (src : Nat) : (BitVec.ofNat 64 (load memory src chunkSize)).toNat = load memory src chunkSize := by
  rw [BitVec.toNat_ofNat]
  exact Nat.mod_eq_of_lt (load_lt memory src chunkSize)

theorem chunk_copied (reads : Reads space src chunkSize) (writes : Writes space dst chunkSize) :
    (do
      let value ← readChunk space memory src
      writeChunk space memory dst value) = .ok (copy memory src dst chunkSize) := by
  rw [readChunk_ok reads, Trap.ok_bind, writeChunk_ok writes, chunk_toNat, store_load_copy]

theorem copyForwardTail_copies (below : dst ≤ src ∨ src + n ≤ dst) (reads : Reads space src n) (writes : Writes space dst n)
    (short : n < chunkSize) : copyForwardTail space memory dst src n = .ok (copy memory src dst n) := by
  have rounds : ∀ count ≤ n, (List.range count).foldlM (copyByte space dst src) memory = .ok (copy memory src dst count) := by
    intro count
    induction count with
    | zero =>
      intro _
      rw [copy_none]
      rfl
    | succ count ih =>
      intro few
      rw [List.range_succ, List.foldlM_append, ih (by omega), Trap.ok_bind, List.foldlM_cons, copyByte,
        readByte_ok reads (by omega), Trap.ok_bind, writeByte_ok writes (by omega), copy_one, copy_up (by omega)]
      rfl
  rw [copyForwardTail, if_pos short]
  exact rounds n (Nat.le_refl n)

theorem copyForward_copies {fuel : Nat} (below : dst ≤ src ∨ src + n ≤ dst) (reads : Reads space src n)
    (writes : Writes space dst n) (enough : n < fuel) : copyForward space fuel memory dst src n = .ok (copy memory src dst n) := by
  have eight := chunkSize_eq
  induction fuel generalizing memory dst src n with
  | zero => omega
  | succ fuel ih =>
    rw [copyForward]
    split
    next large =>
      have whole : chunkSize + (n - chunkSize) = n := by omega
      have chunk := @chunk_copied space memory dst src (reads.first large) (writes.first large)
      rw [readChunk_ok (reads.first large), Trap.ok_bind] at chunk ⊢
      rw [chunk, Trap.ok_bind, ih (by omega) (reads.part (by omega)) (writes.part (by omega)) (by omega), copy_up (by omega), whole]
    next small =>
      split
      next => exact copyForwardTail_copies below reads writes (by omega)
      next none =>
        have empty : n = 0 := by omega
        rw [empty, copy_none]

theorem copyBackwardTail_copies (above : src ≤ dst) (reads : Reads space src n) (writes : Writes space dst n)
    (short : n < chunkSize) : copyBackwardTail space memory dst src n = .ok (copy memory src dst n) := by
  rw [copyBackwardTail, if_pos short]
  clear short
  induction n generalizing memory with
  | zero =>
    rw [copy_none]
    rfl
  | succ n ih =>
    rw [List.range_succ, List.reverse_append, List.reverse_singleton, List.singleton_append, List.foldlM_cons, copyByte,
      readByte_ok reads (by omega), Trap.ok_bind, writeByte_ok writes (by omega), Trap.ok_bind, copy_one,
      ih (reads.first (by omega)) (writes.first (by omega)), copy_down above]

theorem copyBackward_copies {fuel : Nat} (above : src ≤ dst) (reads : Reads space src n) (writes : Writes space dst n)
    (enough : n < fuel) : copyBackward space fuel memory dst src n = .ok (copy memory src dst n) := by
  have eight := chunkSize_eq
  induction fuel generalizing memory n with
  | zero => omega
  | succ fuel ih =>
    rw [copyBackward]
    split
    next large =>
      have whole : n - chunkSize + chunkSize = n := by omega
      have chunk := @chunk_copied space memory (dst + (n - chunkSize)) (src + (n - chunkSize)) (reads.part (by omega))
        (writes.part (by omega))
      dsimp only
      rw [readChunk_ok (reads.part (by omega)), Trap.ok_bind] at chunk ⊢
      rw [chunk, Trap.ok_bind, ih (reads.first (by omega)) (writes.first (by omega)) (by omega), copy_down above, whole]
    next small =>
      split
      next => exact copyBackwardTail_copies above reads writes (by omega)
      next none =>
        have empty : n = 0 := by omega
        rw [empty, copy_none]

theorem memcpy_copies (reads : Reads space src n) (writes : Writes space dst n) (apart : Region.Disjoint ⟨dst, n⟩ ⟨src, n⟩) :
    memcpy space memory dst src n = .ok (dst, copy memory src dst n) := by
  simp only [Region.Disjoint] at apart
  rw [memcpy, copyForward_copies (by omega) reads writes (by omega)]
  rfl

theorem memmove_copies (reads : Reads space src n) (writes : Writes space dst n) :
    memmove space memory dst src n = .ok (dst, copy memory src dst n) := by
  rw [memmove]
  split
  next below =>
    rw [copyForward_copies (by omega) reads writes (by omega)]
    rfl
  next above =>
    rw [copyBackward_copies (by omega) reads writes (by omega)]
    rfl

theorem setTail_fills {byte : BitVec 8} (writes : Writes space dst n) (short : n < chunkSize) :
    setTail space memory dst byte n = .ok (fill memory dst n byte) := by
  have rounds : ∀ count ≤ n, (List.range count).foldlM (fun memory k => writeByte space memory (dst + k) byte) memory =
      .ok (fill memory dst count byte) := by
    intro count
    induction count with
    | zero =>
      intro _
      rw [fill_none]
      rfl
    | succ count ih =>
      intro few
      rw [List.range_succ, List.foldlM_append, ih (by omega), Trap.ok_bind, List.foldlM_cons, writeByte_ok writes (by omega),
        fill_one, fill_up]
      rfl
  rw [setTail, if_pos short]
  exact rounds n (Nat.le_refl n)

theorem setChunks_fills {byte : BitVec 8} {fuel : Nat} (writes : Writes space dst n) (enough : n < fuel) :
    setChunks space (.ofNat 64 (load (fun _ => byte) 0 chunkSize)) byte fuel memory dst n = .ok (fill memory dst n byte) := by
  have eight := chunkSize_eq
  induction fuel generalizing memory dst n with
  | zero => omega
  | succ fuel ih =>
    rw [setChunks]
    split
    next large =>
      have whole : chunkSize + (n - chunkSize) = n := by omega
      rw [writeChunk_ok (writes.first large), Trap.ok_bind, chunk_toNat, store_load_fill, ih (writes.part (by omega)) (by omega),
        fill_up, whole]
    next small =>
      split
      next => exact setTail_fills writes (by omega)
      next none =>
        have empty : n = 0 := by omega
        rw [empty, fill_none]

theorem memset_fills (writes : Writes space dst n) (c : BitVec 32) :
    memset space memory dst c n = .ok (dst, fill memory dst n (c.setWidth 8)) := by
  rw [memset]
  rw [setChunks_fills writes (by omega)]
  rfl

/-- The comparison of two ranges: the difference of the first bytes that differ. -/
def Compares (memory : Memory.Bytes) (a b n : Nat) (answer : Int) : Prop :=
  (∀ i < n, memory (a + i) = memory (b + i)) ∧ answer = 0 ∨
    ∃ i < n, (∀ j < i, memory (a + j) = memory (b + j)) ∧ memory (a + i) ≠ memory (b + i) ∧
      answer = ((memory (a + i)).toNat : Int) - (memory (b + i)).toNat

variable {a b : Nat}

theorem Compares.after {k : Nat} {answer : Int} (compares : Compares memory (a + k) (b + k) n answer)
    (same : ∀ i < k, memory (a + i) = memory (b + i)) : Compares memory a b (k + n) answer := by
  have before : ∀ {j}, (∀ i < j, memory (a + k + i) = memory (b + k + i)) → ∀ i < k + j, memory (a + i) = memory (b + i) := by
    intro j later i small
    rcases Nat.lt_or_ge i k with first | second
    · exact same i first
    · obtain ⟨d, rfl⟩ := Nat.exists_eq_add_of_le second
      rw [← Nat.add_assoc, ← Nat.add_assoc]
      exact later d (by omega)
  rcases compares with ⟨later, zero⟩ | ⟨i, small, later, differ, value⟩
  · exact .inl ⟨before later, zero⟩
  · rw [Nat.add_assoc, Nat.add_assoc] at differ value
    exact .inr ⟨k + i, by omega, before later, differ, value⟩

theorem compareBytes_compares {left k : Nat} (first : Reads space a (k + left)) (second : Reads space b (k + left)) :
    ∃ answer, compareBytes space memory a b left k = .ok answer ∧ Compares memory (a + k) (b + k) left answer := by
  induction left generalizing k with
  | zero => exact ⟨0, rfl, .inl ⟨nofun, rfl⟩⟩
  | succ left ih =>
    rw [compareBytes, readByte_ok first (by omega), Trap.ok_bind, readByte_ok second (by omega), Trap.ok_bind]
    split
    next differ => exact ⟨_, rfl, .inr ⟨0, by omega, nofun, differ, rfl⟩⟩
    next equal =>
      obtain ⟨answer, done, compares⟩ := @ih (k + 1) (first.first (by omega)) (second.first (by omega))
      refine ⟨answer, done, ?_⟩
      have turn : left + 1 = 1 + left := Nat.add_comm ..
      rw [turn]
      refine Compares.after compares fun i small => ?_
      have zero : i = 0 := by omega
      rw [zero]
      exact Decidable.not_not.mp equal

theorem compareBounded_compares (first : Reads space a n) (second : Reads space b n) (short : n ≤ chunkSize) :
    ∃ answer, compareBounded space memory a b n = .ok answer ∧ Compares memory a b n answer := by
  rw [compareBounded, if_pos short]
  exact @compareBytes_compares space memory a b n 0 (first.first (by omega)) (second.first (by omega))

theorem chunk_ne : BitVec.ofNat 64 (load memory a chunkSize) ≠ BitVec.ofNat 64 (load memory b chunkSize) ↔
    ¬∀ i < chunkSize, memory (a + i) = memory (b + i) := by
  have words : BitVec.ofNat 64 (load memory a chunkSize) = BitVec.ofNat 64 (load memory b chunkSize) ↔
      load memory a chunkSize = load memory b chunkSize := by
    rw [← BitVec.toNat_inj, chunk_toNat, chunk_toNat]
  rw [← load_inj, ne_eq, words]

theorem compareChunks_compares {fuel offset : Nat} (first : Reads space a (offset + n)) (second : Reads space b (offset + n))
    (enough : n < fuel) :
    ∃ answer, compareChunks space memory a b fuel offset n = .ok answer ∧ Compares memory (a + offset) (b + offset) n answer := by
  have eight := chunkSize_eq
  induction fuel generalizing offset n with
  | zero => omega
  | succ fuel ih =>
    rw [compareChunks]
    split
    next large =>
      have whole : chunkSize + (n - chunkSize) = n := by omega
      have one : Reads space (a + offset) chunkSize := first.part (by omega)
      have two : Reads space (b + offset) chunkSize := second.part (by omega)
      rw [readChunk_ok one, Trap.ok_bind, readChunk_ok two, Trap.ok_bind]
      split
      next differ =>
        obtain ⟨answer, done, compares⟩ := @compareBounded_compares space memory _ _ _ one two (Nat.le_refl _)
        refine ⟨answer, done, ?_⟩
        rcases compares with ⟨same, -⟩ | ⟨i, small, found⟩
        · exact absurd same (chunk_ne.mp differ)
        · exact .inr ⟨i, by omega, found⟩
      next equal =>
        have same := Decidable.not_not.mp fun unequal => equal (chunk_ne.mpr unequal)
        obtain ⟨answer, done, compares⟩ := @ih (n - chunkSize) (offset + chunkSize) (first.first (by omega)) (second.first (by omega))
          (by omega)
        refine ⟨answer, done, ?_⟩
        rw [← whole]
        exact Compares.after compares same
    next small =>
      split
      next none =>
        rw [none]
        exact ⟨0, rfl, .inl ⟨nofun, rfl⟩⟩
      next => exact compareBounded_compares (first.part (by omega)) (second.part (by omega)) (by omega)

theorem memcmp_compares (first : Reads space a n) (second : Reads space b n) :
    ∃ answer, memcmp space memory a b n = .ok answer ∧ Compares memory a b n answer :=
  @compareChunks_compares space memory n a b (n + 1) 0 (first.first (by omega)) (second.first (by omega)) (by omega)

theorem Compares.zero_iff {answer : Int} (compares : Compares memory a b n answer) :
    answer = 0 ↔ ∀ i < n, memory (a + i) = memory (b + i) := by
  rcases compares with ⟨same, zero⟩ | ⟨i, small, -, differ, value⟩
  · exact ⟨fun _ => same, fun _ => zero⟩
  · constructor
    · intro zero
      exact absurd (BitVec.eq_of_toNat_eq (by omega)) differ
    · intro same
      exact absurd (same i small) differ

theorem Compares.sign {answer : Int} (compares : Compares memory a b n answer) {i : Nat} (small : i < n)
    (before : ∀ j < i, memory (a + j) = memory (b + j)) (differ : memory (a + i) ≠ memory (b + i)) :
    (answer < 0 ↔ memory (a + i) < memory (b + i)) ∧ (0 < answer ↔ memory (b + i) < memory (a + i)) := by
  rcases compares with ⟨same, -⟩ | ⟨k, within, before', differ', value⟩
  · exact absurd (same i small) differ
  · have here : k = i := by
      rcases Nat.lt_trichotomy k i with less | equal | more
      · exact absurd (before k less) differ'
      · exact equal
      · exact absurd (before' i more) differ
    subst here
    rw [value, BitVec.lt_def, BitVec.lt_def]
    omega

theorem differingChunks_decides {fuel offset : Nat} (first : Reads space a (offset + n)) (second : Reads space b (offset + n))
    (enough : n < fuel) : ∃ answer, differingChunks space memory a b fuel offset n = .ok answer ∧
      (answer = 0 ↔ ∀ i < n, memory (a + offset + i) = memory (b + offset + i)) := by
  have eight := chunkSize_eq
  induction fuel generalizing offset n with
  | zero => omega
  | succ fuel ih =>
    rw [differingChunks]
    split
    next large =>
      have one : Reads space (a + offset) chunkSize := first.part (by omega)
      have two : Reads space (b + offset) chunkSize := second.part (by omega)
      rw [readChunk_ok one, Trap.ok_bind, readChunk_ok two, Trap.ok_bind]
      split
      next differ =>
        refine ⟨1, rfl, ⟨nofun, fun same => absurd (fun i small => same i (by omega)) (chunk_ne.mp differ)⟩⟩
      next equal =>
        have same := Decidable.not_not.mp fun unequal => equal (chunk_ne.mpr unequal)
        obtain ⟨answer, done, means⟩ := @ih (n - chunkSize) (offset + chunkSize) (first.first (by omega)) (second.first (by omega))
          (by omega)
        refine ⟨answer, done, means.trans ⟨fun later i small => ?_, fun all i small => ?_⟩⟩
        · rcases Nat.lt_or_ge i chunkSize with early | late
          · exact same i early
          · obtain ⟨d, rfl⟩ := Nat.exists_eq_add_of_le late
            rw [← Nat.add_assoc, ← Nat.add_assoc (b + offset), Nat.add_assoc a, Nat.add_assoc b]
            exact later d (by omega)
        · have later := all (chunkSize + i) (by omega)
          rwa [← Nat.add_assoc, ← Nat.add_assoc (b + offset), Nat.add_assoc a, Nat.add_assoc b] at later
    next small =>
      split
      next none =>
        rw [none]
        exact ⟨0, rfl, ⟨fun _ => nofun, fun _ => rfl⟩⟩
      next =>
        obtain ⟨answer, done, compares⟩ := @compareBounded_compares space memory n (a + offset) (b + offset)
          (first.part (by omega)) (second.part (by omega)) (by omega)
        refine ⟨if answer ≠ 0 then 1 else 0, by rw [done]; rfl, ?_⟩
        rw [← compares.zero_iff]
        split <;> simp_all

theorem bcmp_decides (first : Reads space a n) (second : Reads space b n) :
    ∃ answer, bcmp space memory a b n = .ok answer ∧ (answer = 0 ↔ ∀ i < n, memory (a + i) = memory (b + i)) :=
  @differingChunks_decides space memory n a b (n + 1) 0 (first.first (by omega)) (second.first (by omega)) (by omega)

/-- In any space that lets these ranges be accessed, though it may let nothing
else, the primitives do what they would byte by byte. -/
theorem primitives_sound {space : Space} {memory : Memory.Bytes} {dst src a b n : Nat} (reads : Reads space src n)
    (writes : Writes space dst n) (first : Reads space a n) (second : Reads space b n) :
    memmove space memory dst src n = .ok (dst, copy memory src dst n) ∧
    (Region.Disjoint ⟨dst, n⟩ ⟨src, n⟩ → memcpy space memory dst src n = .ok (dst, copy memory src dst n)) ∧
    (∀ c, memset space memory dst c n = .ok (dst, fill memory dst n (c.setWidth 8))) ∧
    (∃ answer, memcmp space memory a b n = .ok answer ∧ (answer = 0 ↔ ∀ i < n, memory (a + i) = memory (b + i)) ∧
      ∀ i < n, (∀ j < i, memory (a + j) = memory (b + j)) → memory (a + i) ≠ memory (b + i) →
        (answer < 0 ↔ memory (a + i) < memory (b + i)) ∧ (0 < answer ↔ memory (b + i) < memory (a + i))) ∧
    ∃ answer, bcmp space memory a b n = .ok answer ∧ (answer = 0 ↔ ∀ i < n, memory (a + i) = memory (b + i)) := by
  refine ⟨memmove_copies reads writes, memcpy_copies reads writes, memset_fills writes, ?_, bcmp_decides first second⟩
  obtain ⟨answer, done, compares⟩ := @memcmp_compares space memory n a b first second
  exact ⟨answer, done, compares.zero_iff, fun i small before differ => compares.sign small before differ⟩

/-- Eleven bytes moved up by five, in a space that allows no more than that. -/
theorem primitives_overlapping :
    let space : Space := { readable := fun k => k < 11, writable := fun k => 5 ≤ k && k < 16 }
    let memory : Memory.Bytes := fun k => .ofNat 8 k
    memmove space memory 5 0 11 = .ok (5, copy memory 0 5 11) := by
  intro space memory
  refine (@primitives_sound space memory 5 0 0 0 11 ?_ ?_ ?_ ?_).1
  all_goals
    intro k small
    simp only [space, Bool.and_eq_true, decide_eq_true_eq]
    omega

end MemoryPrimitives

end Rue.Proofs.Runtime
