import Rue.Collections.Deque
import Mathlib.Data.Nat.ModEq

/-! The ring answers like a sequence: the slots from the head on, wrapped around
the capacity, hold its elements in order. -/

namespace Rue.Proofs.Collections
open Rue.Collections

namespace Deque

variable {T : Type} {room : Nat → Bool} {deque : Deque T} {items : List T}

structure Represents (deque : Deque T) (items : List T) : Prop where
  size : deque.buf.length = deque.cap
  head : deque.head < deque.cap
  count : deque.count = items.length
  fits : deque.count ≤ deque.cap
  power : ∃ k ≤ 63, deque.cap = 2 ^ k
  held : ∀ i, i < items.length → deque.buf[(deque.head + i) % deque.cap]? = items[i]?

theorem Represents.positive (represents : Represents deque items) : 0 < deque.cap := by
  have := represents.head
  omega

theorem small_of_power {cap : Nat} (power : ∃ k ≤ 63, cap = 2 ^ k) : 0 < cap ∧ cap ≤ 2 ^ 63 := by
  obtain ⟨k, few, rfl⟩ := power
  exact ⟨Nat.two_pow_pos k, Nat.pow_le_pow_right (by decide) few⟩

/-- A ring that is not the largest one can be doubled. -/
theorem double_power {cap : Nat} (power : ∃ k ≤ 63, cap = 2 ^ k) (moderate : cap ≤ 2 ^ 63 - 1) :
    ∃ k ≤ 63, cap * 2 = 2 ^ k := by
  obtain ⟨k, few, rfl⟩ := power
  refine ⟨k + 1, ?_, (Nat.pow_succ 2 k).symm⟩
  by_contra many
  have last : k = 63 := by omega
  subst last
  omega

/-- No index overflows while the capacity is no more than half of the numbers. -/
theorem Represents.slot (represents : Represents deque items) {i : Nat} (within : i ≤ deque.cap) :
    deque.slot i = .ok ((deque.head + i) % deque.cap) := by
  have inside := represents.head
  have small := (small_of_power represents.power).2
  rw [Deque.slot, U64.add_ok (by omega)]
  exact U64.rem_ok represents.positive

theorem Represents.get (represents : Represents deque items) {i : Nat} (inside : i < items.length) (default : T) :
    some (ArrayBuf.getOr deque.buf ((deque.head + i) % deque.cap) default) = items[i]? := by
  rw [ArrayBuf.getOr, List.getD_eq_getElem?_getD, represents.held i inside, List.getElem?_eq_getElem inside]
  rfl

theorem pushEach_answers {element : Nat → Except Stop T} (elements : Nat → T) {rounds : Nat} {start : List T × Nat}
    (computed : ∀ i, i < rounds → element i = .ok (elements i)) (few : start.1.length + rounds ≤ 2 ^ 63) (made : Nat) :
    Deque.pushEach room element rounds start = .ok (start.1 ++ (List.range rounds).map elements, start.2 + rounds) ∨
      ∃ stop, Deque.pushEach room element rounds start = .error stop ∧ Exhausted room made stop := by
  unfold Deque.pushEach
  induction rounds with
  | zero =>
    exact .inl (by simp)
  | succ rounds ih =>
    rw [List.range_succ, List.foldlM_append]
    rcases ih (fun i inside => computed i (by omega)) (by omega) with done | ⟨stop, failed, excuse⟩
    · rw [done]
      simp only [List.foldlM_cons, List.foldlM_nil, Stop.ok_bind, computed rounds (Nat.lt_succ_self _), ArrayBuf.push]
      have short : (start.1 ++ (List.range rounds).map elements).length < 2 ^ 64 - 1 := by
        rw [List.length_append, List.length_map, List.length_range]
        omega
      cases granted : room (start.2 + rounds) with
      | true =>
        left
        rw [if_pos ⟨rfl, short⟩, List.map_append, ← List.append_assoc]
        rfl
      | false =>
        right
        refine ⟨.outOfMemory, ?_, rfl, .inl ⟨_, granted⟩⟩
        rw [if_neg (fun both => nomatch both.1)]
        rfl
    · right
      rw [failed]
      exact ⟨stop, rfl, excuse⟩

theorem map_getD_range (items : List T) (filler : T) : (List.range items.length).map (fun i => items.getD i filler) = items := by
  apply List.ext_getElem
  · simp
  · intro i inside here
    simp [here]

theorem growTo_answers {newCap : Nat}
    (readable : ∀ i, i < items.length → ∃ idx, deque.slot i = .ok idx ∧ deque.buf[idx]? = items[i]?)
    (count : deque.count = items.length) (large : items.length ≤ newCap) (power : ∃ k ≤ 63, newCap = 2 ^ k) (made : Nat) :
    (∃ grown, deque.growTo room newCap = .ok grown ∧ Represents grown items ∧ grown.cap = newCap) ∨
      ∃ stop, deque.growTo room newCap = .error stop ∧ Exhausted room made stop := by
  obtain ⟨positive, small⟩ := small_of_power power
  have computed : ∀ i, i < deque.count →
      (do return ArrayBuf.getOr deque.buf (← deque.slot i) deque.filler : Except Stop T) = .ok (items.getD i deque.filler) := by
    intro i inside
    obtain ⟨idx, here, holds⟩ := readable i (count ▸ inside)
    rw [here, Stop.ok_bind, ArrayBuf.getOr, List.getD_eq_getElem?_getD, holds, List.getD_eq_getElem?_getD]
    rfl
  rcases @pushEach_answers T room _ _ _ ([], deque.asked) computed (by rw [count]; simpa using large.trans small) made with
    live | ⟨stop, failed, excuse⟩
  · have elements : [] ++ (List.range deque.count).map (fun i => items.getD i deque.filler) = items := by
      rw [count, List.nil_append, map_getD_range]
    rw [elements] at live
    have few : items.length + (newCap - items.length) ≤ 2 ^ 63 := by omega
    rcases @pushEach_answers T room (fun _ => .ok deque.filler) (fun _ => deque.filler) (newCap - items.length)
      (items, deque.asked + deque.count) (fun _ _ => rfl) few made with padded | ⟨stop, failed, excuse⟩
    · refine .inl ⟨{ deque with
        buf := items ++ (List.range (newCap - items.length)).map fun _ => deque.filler
        head := 0
        cap := newCap
        asked := deque.asked + deque.count + (newCap - items.length) }, ?_, ?_, rfl⟩
      · rw [Deque.growTo, live, Stop.ok_bind]
        simp only [padded, Stop.ok_bind]
        rfl
      · have length : (items ++ (List.range (newCap - items.length)).map fun _ => deque.filler).length = newCap := by
          rw [List.length_append, List.length_map, List.length_range]
          omega
        refine ⟨length, positive, count, count ▸ large, power, ?_⟩
        intro i inside
        simp only [Nat.zero_add]
        rw [Nat.mod_eq_of_lt (by omega), List.getElem?_append_left inside]
    · refine .inr ⟨stop, ?_, excuse⟩
      rw [Deque.growTo, live, Stop.ok_bind]
      simp only [failed]
      rfl
  · refine .inr ⟨stop, ?_, excuse⟩
    rw [Deque.growTo, failed]
    rfl

theorem ensureRoom_answers (represents : Represents deque items) {made : Nat} (few : items.length ≤ made) :
    (∃ roomy, deque.ensureRoom room = .ok roomy ∧ Represents roomy items ∧ items.length < roomy.cap) ∨
      ∃ stop, deque.ensureRoom room = .error stop ∧ Exhausted room made stop := by
  have count := represents.count
  have fits := represents.fits
  have positive := represents.positive
  rw [Deque.ensureRoom]
  split
  next full =>
    split
    next huge => exact .inr ⟨.outOfMemory, rfl, rfl, .inr (by omega)⟩
    next moderate =>
      have readable : ∀ i, i < items.length → ∃ idx, deque.slot i = .ok idx ∧ deque.buf[idx]? = items[i]? :=
        fun i inside => ⟨_, represents.slot (by omega), represents.held i inside⟩
      rcases @growTo_answers T room deque items (deque.cap * 2) readable count (by omega)
          (double_power represents.power (by omega)) made with
        ⟨grown, done, kept, cap⟩ | failed
      · exact .inl ⟨grown, done, kept, by omega⟩
      · exact .inr failed
  next spare => exact .inl ⟨deque, rfl, represents, by omega⟩

theorem wrap_injective {cap head i j : Nat} (first : i < cap) (second : j < cap)
    (same : (head + i) % cap = (head + j) % cap) : i = j := by
  have equal : i % cap = j % cap := Nat.ModEq.add_left_cancel' head same
  rwa [Nat.mod_eq_of_lt first, Nat.mod_eq_of_lt second] at equal

theorem pushBack_represents (represents : Represents deque items) (spare : items.length < deque.cap) (x : T) :
    Represents { deque with buf := deque.buf.set ((deque.head + deque.count) % deque.cap) x, count := deque.count + 1 }
      (items ++ [x]) := by
  have count := represents.count
  refine ⟨by rw [List.length_set, represents.size], represents.head, by rw [count, List.length_append]; rfl, ?_,
    represents.power, ?_⟩
  · dsimp only
    omega
  · intro i inside
    rw [List.length_append, List.length_singleton] at inside
    dsimp only
    have target : (deque.head + deque.count) % deque.cap < deque.buf.length := by
      rw [represents.size]
      exact Nat.mod_lt _ represents.positive
    by_cases last : i = items.length
    · rw [last, count, List.getElem?_set_self (by rwa [count] at target), List.getElem?_concat_length]
    · have apart : (deque.head + deque.count) % deque.cap ≠ (deque.head + i) % deque.cap := by
        intro same
        have := wrap_injective (by omega) (by omega) same
        omega
      rw [List.getElem?_set_ne apart, represents.held i (by omega), List.getElem?_append_left (by omega)]

theorem pushBack_answers (represents : Represents deque items) {made : Nat} (few : items.length ≤ made) (x : T) :
    (∃ next, deque.pushBack room x = .ok next ∧ Represents next (items ++ [x])) ∨
      ∃ stop, deque.pushBack room x = .error stop ∧ Exhausted room made stop := by
  rcases @ensureRoom_answers T room deque items represents made few with ⟨roomy, done, kept, spare⟩ | ⟨stop, failed, excuse⟩
  · refine .inl ⟨_, ?_, pushBack_represents kept spare x⟩
    have count := kept.count
    have small := (small_of_power kept.power).2
    have inside : (roomy.head + roomy.count) % roomy.cap < roomy.buf.length := by
      rw [kept.size]
      exact Nat.mod_lt _ kept.positive
    rw [Deque.pushBack, done, Stop.ok_bind, kept.slot kept.fits, Stop.ok_bind, ArrayBuf.set_ok inside, Stop.ok_bind,
      U64.add_ok (by omega)]
    rfl
  · refine .inr ⟨stop, ?_, excuse⟩
    rw [Deque.pushBack, failed]
    rfl

theorem pushFront_represents (represents : Represents deque items) (spare : items.length < deque.cap) (x : T) :
    Represents { deque with
      buf := deque.buf.set ((deque.head + deque.cap - 1) % deque.cap) x
      head := (deque.head + deque.cap - 1) % deque.cap
      count := deque.count + 1 } (x :: items) := by
  have positive := represents.positive
  have target : (deque.head + deque.cap - 1) % deque.cap < deque.cap := Nat.mod_lt _ positive
  refine ⟨by rw [List.length_set, represents.size], target, by rw [represents.count, List.length_cons], ?_, represents.power, ?_⟩
  · have count := represents.count
    dsimp only
    omega
  · intro i inside
    dsimp only
    rw [Nat.mod_add_mod]
    cases i with
    | zero => rw [Nat.add_zero, List.getElem?_set_self (by rwa [represents.size]), List.getElem?_cons_zero]
    | succ i =>
      rw [List.length_cons] at inside
      have shifted : (deque.head + deque.cap - 1 + (i + 1)) % deque.cap = (deque.head + i) % deque.cap := by
        have back : deque.head + deque.cap - 1 + (i + 1) = deque.head + i + deque.cap := by omega
        rw [back, Nat.add_mod_right]
      have apart : (deque.head + deque.cap - 1) % deque.cap ≠ (deque.head + i) % deque.cap := by
        intro same
        have before : deque.head + deque.cap - 1 = deque.head + (deque.cap - 1) := by omega
        rw [before] at same
        have := wrap_injective (by omega) (by omega) same
        omega
      rw [shifted, List.getElem?_set_ne apart, represents.held i (by omega), List.getElem?_cons_succ]

theorem pushFront_answers (represents : Represents deque items) {made : Nat} (few : items.length ≤ made) (x : T) :
    (∃ next, deque.pushFront room x = .ok next ∧ Represents next (x :: items)) ∨
      ∃ stop, deque.pushFront room x = .error stop ∧ Exhausted room made stop := by
  rcases @ensureRoom_answers T room deque items represents made few with ⟨roomy, done, kept, spare⟩ | ⟨stop, failed, excuse⟩
  · refine .inl ⟨_, ?_, pushFront_represents kept spare x⟩
    have count := kept.count
    have head := kept.head
    have small := (small_of_power kept.power).2
    have inside : (roomy.head + roomy.cap - 1) % roomy.cap < roomy.buf.length := by
      rw [kept.size]
      exact Nat.mod_lt _ kept.positive
    rw [Deque.pushFront, done, Stop.ok_bind, U64.add_ok (by omega), Stop.ok_bind, U64.sub_ok (by omega), Stop.ok_bind,
      U64.rem_ok kept.positive, Stop.ok_bind, ArrayBuf.set_ok inside, Stop.ok_bind, U64.add_ok (by omega)]
    rfl
  · refine .inr ⟨stop, ?_, excuse⟩
    rw [Deque.pushFront, failed]
    rfl

theorem empty_iff (represents : Represents deque items) : deque.count = 0 ↔ items = [] := by
  rw [represents.count, List.length_eq_zero_iff]

theorem front_answers (represents : Represents deque items) : deque.front = items.head? := by
  rw [Deque.front]
  split
  next empty =>
    rw [(empty_iff represents).mp empty]
    rfl
  next some =>
    have inside : 0 < items.length := by
      rw [← represents.count]
      omega
    have first := represents.get inside deque.filler
    rwa [Nat.add_zero, Nat.mod_eq_of_lt represents.head, ← List.head?_eq_getElem?] at first

theorem popFront_answers (represents : Represents deque items) :
    ∃ next, deque.popFront = .ok (items.head?, next) ∧ Represents next items.tail := by
  rw [Deque.popFront]
  split
  next empty =>
    have none' := (empty_iff represents).mp empty
    subst none'
    exact ⟨deque, rfl, represents⟩
  next some =>
    have count := represents.count
    have front := front_answers represents
    rw [Deque.front, if_neg some] at front
    have fits := represents.fits
    refine ⟨{ deque with head := (deque.head + 1) % deque.cap, count := deque.count - 1 }, ?_, ?_⟩
    · rw [represents.slot (by omega), Stop.ok_bind, U64.sub_ok (by omega), Stop.ok_bind, ← front]
      rfl
    · refine ⟨represents.size, Nat.mod_lt _ represents.positive, ?_, ?_, represents.power, ?_⟩
      · rw [count, List.length_tail]
      · dsimp only
        omega
      · intro i inside
        rw [List.length_tail] at inside
        dsimp only
        rw [Nat.mod_add_mod, Nat.add_assoc, Nat.add_comm 1 i, represents.held (i + 1) (by omega), List.getElem?_tail]

theorem getLast_answers (represents : Represents deque items) (some : deque.count ≠ 0) :
    Option.some (ArrayBuf.getOr deque.buf ((deque.head + (deque.count - 1)) % deque.cap) deque.filler) = items.getLast? := by
  have count := represents.count
  rw [represents.get (by omega), List.getLast?_eq_getElem?, count]

theorem popBack_answers (represents : Represents deque items) :
    ∃ next, deque.popBack = .ok (items.getLast?, next) ∧ Represents next items.dropLast := by
  rw [Deque.popBack]
  split
  next empty =>
    have none' := (empty_iff represents).mp empty
    subst none'
    exact ⟨deque, rfl, represents⟩
  next some =>
    have count := represents.count
    have fits := represents.fits
    have last := getLast_answers represents some
    refine ⟨{ deque with count := deque.count - 1 }, ?_, ?_⟩
    · rw [U64.sub_ok (by omega), Stop.ok_bind]
      have slot : ({ deque with count := deque.count - 1 } : Deque T).slot (deque.count - 1) = _ :=
        represents.slot (show deque.count - 1 ≤ deque.cap by omega)
      dsimp only
      rw [slot, Stop.ok_bind, ← last]
      rfl
    · refine ⟨represents.size, represents.head, ?_, ?_, represents.power, ?_⟩
      · rw [count, List.length_dropLast]
      · dsimp only
        omega
      · intro i inside
        rw [List.length_dropLast] at inside
        dsimp only
        rw [represents.held i (by omega), List.getElem?_dropLast, if_pos inside]

theorem back_answers (represents : Represents deque items) : deque.back = .ok items.getLast? := by
  rw [Deque.back]
  split
  next empty =>
    rw [(empty_iff represents).mp empty]
    rfl
  next some =>
    have fits := represents.fits
    have head := represents.head
    have small := (small_of_power represents.power).2
    have before : deque.head + deque.count - 1 = deque.head + (deque.count - 1) := by omega
    rw [U64.add_ok (by omega), Stop.ok_bind, U64.sub_ok (by omega), Stop.ok_bind, U64.rem_ok represents.positive, Stop.ok_bind,
      before, ← getLast_answers represents some]
    rfl

theorem new_answers (room : Nat → Bool) (filler : T) :
    (∃ deque, Deque.new room filler = .ok deque ∧ Represents deque []) ∨
      ∃ stop, Deque.new room filler = .error stop ∧ Exhausted room 0 stop := by
  rcases @growTo_answers T room { buf := [], head := 0, count := 0, cap := 0, filler, asked := 0 } [] 8 nofun rfl (Nat.zero_le _)
    ⟨3, by decide, rfl⟩ 0 with ⟨grown, done, kept, _⟩ | failed
  · exact .inl ⟨grown, done, kept⟩
  · exact .inr failed

theorem perform_answers {made : Nat} (represents : Represents deque items) (few : items.length ≤ made) (call : DequeCall T) :
    (∃ next, Deque.perform room deque call = .ok ((Sequence.answer items call).1, next) ∧
        Represents next (Sequence.answer items call).2 ∧ (Sequence.answer items call).2.length ≤ made + 1) ∨
      ∃ stop, Deque.perform room deque call = .error stop ∧ Exhausted room (made + 1) stop := by
  cases call with
  | pushBack x =>
    rcases @pushBack_answers T room deque items represents made few x with ⟨next, done, kept⟩ | ⟨stop, failed, excuse⟩
    · refine .inl ⟨next, by rw [Deque.perform, done]; rfl, kept, ?_⟩
      rw [Sequence.answer, List.length_append]
      exact Nat.add_le_add_right few 1
    · exact .inr ⟨stop, by rw [Deque.perform, failed]; rfl, excuse.later (Nat.le_succ made)⟩
  | pushFront x =>
    rcases @pushFront_answers T room deque items represents made few x with ⟨next, done, kept⟩ | ⟨stop, failed, excuse⟩
    · exact .inl ⟨next, by rw [Deque.perform, done]; rfl, kept, Nat.succ_le_succ few⟩
    · exact .inr ⟨stop, by rw [Deque.perform, failed]; rfl, excuse.later (Nat.le_succ made)⟩
  | popFront =>
    obtain ⟨next, done, kept⟩ := popFront_answers represents
    refine .inl ⟨next, by rw [Deque.perform, done]; rfl, kept, ?_⟩
    rw [Sequence.answer, List.length_tail]
    omega
  | popBack =>
    obtain ⟨next, done, kept⟩ := popBack_answers represents
    refine .inl ⟨next, by rw [Deque.perform, done]; rfl, kept, ?_⟩
    rw [Sequence.answer, List.length_dropLast]
    omega
  | front => exact .inl ⟨deque, by rw [Deque.perform, front_answers represents]; rfl, represents, Nat.le_succ_of_le few⟩
  | back => exact .inl ⟨deque, by rw [Deque.perform, back_answers represents]; rfl, represents, Nat.le_succ_of_le few⟩
  | len =>
    refine .inl ⟨deque, ?_, represents, Nat.le_succ_of_le few⟩
    rw [Deque.perform, Deque.len, represents.count]
    rfl

theorem found_pushed {T : Type} (calls : List (DequeCall T)) (items : List T) {x : T}
    (found : .found (some x) ∈ (answerAll Sequence.answer items calls).1) :
    x ∈ items ∨ .pushBack x ∈ calls ∨ .pushFront x ∈ calls := by
  induction calls generalizing items with
  | nil => cases found
  | cons call rest ih =>
    have later (known : ∀ y ∈ (Sequence.answer items call).2, y ∈ items ∨ call = .pushBack y ∨ call = .pushFront y)
        (more : .found (some x) ∈ (answerAll Sequence.answer (Sequence.answer items call).2 rest).1) :
        x ∈ items ∨ .pushBack x ∈ call :: rest ∨ .pushFront x ∈ call :: rest := by
      rcases ih _ more with held | back | front
      · rcases known x held with old | rfl | rfl
        · exact .inl old
        · exact .inr (.inl List.mem_cons_self)
        · exact .inr (.inr List.mem_cons_self)
      · exact .inr (.inl (List.mem_cons_of_mem _ back))
      · exact .inr (.inr (List.mem_cons_of_mem _ front))
    have known : ∀ y ∈ (Sequence.answer items call).2, y ∈ items ∨ call = .pushBack y ∨ call = .pushFront y := by
      intro y member
      cases call with
      | pushBack z =>
        rcases List.mem_append.mp member with old | new
        · exact .inl old
        · exact .inr (.inl (by rw [List.mem_singleton.mp new]))
      | pushFront z =>
        rcases List.mem_cons.mp member with rfl | old
        · exact .inr (.inr rfl)
        · exact .inl old
      | popFront => exact .inl (List.mem_of_mem_tail member)
      | popBack => exact .inl (List.mem_of_mem_dropLast member)
      | front | back | len => exact .inl member
    rcases List.mem_cons.mp found with here | more
    · left
      cases call with
      | popFront | front => exact List.mem_of_head? (DequeAnswer.found.inj here).symm
      | popBack | back => exact List.mem_of_getLast? (DequeAnswer.found.inj here).symm
      | pushBack z | pushFront z | len => cases here
    · exact later known more

/-- Every run on a new queue gives the answers of a sequence, and hands out only
what was pushed, unless memory is refused; the ring stays within its capacity. -/
theorem deque_refines (room : Nat → Bool) (filler : T) (calls : List (DequeCall T)) :
    ((∃ deque, (do performAll (Deque.perform room) (← Deque.new room filler) calls) =
          .ok ((answerAll Sequence.answer [] calls).1, deque) ∧
        Represents deque (answerAll Sequence.answer [] calls).2) ∨
      ∃ stop, (do performAll (Deque.perform room) (← Deque.new room filler) calls) = .error stop ∧
        Exhausted room calls.length stop) ∧
      ∀ x, .found (some x) ∈ (answerAll Sequence.answer [] calls).1 → .pushBack x ∈ calls ∨ .pushFront x ∈ calls := by
  refine ⟨?_, fun x found => (found_pushed calls [] found).resolve_left nofun⟩
  rcases new_answers room filler with ⟨deque, created, empty⟩ | ⟨stop, failed, reason, refused | many⟩
  · rw [created]
    have runs := performAll_refines (Deque.perform room) Sequence.answer
      (fun made state model => Represents state model ∧ model.length ≤ made) (Exhausted room)
      (fun made state model call both => perform_answers both.1 both.2 call) Exhausted.later ⟨empty, Nat.le_refl 0⟩ calls
    rw [Nat.zero_add] at runs
    rcases runs with ⟨final, done, kept, _⟩ | failed
    · exact .inl ⟨final, done, kept⟩
    · exact .inr failed
  · exact .inr ⟨stop, by rw [failed]; rfl, reason, .inl refused⟩
  · omega

end Deque

end Rue.Proofs.Collections
