import Mathlib.Data.List.Perm.Basic
import Rue.Collections.HashMap

/-! The generic hash map against the finite map over keys up to equality. The
entry arrays are the columns of one list of cells; the table reaches every cell,
dead ones included, from the home of its hash. -/

namespace Rue.Proofs.Collections

open Rue.Collections Rue.Lib

namespace HashMap
open Rue.Collections.HashMap

variable {K V : Type}

structure Cell (K V : Type) where
  key : K
  val : V
  hash : Nat
  live : Bool

def columns (cells : List (Cell K V)) : Entries K V where
  keys := cells.map Cell.key
  vals := cells.map Cell.val
  hashes := cells.map Cell.hash
  live := cells.map Cell.live

theorem columns_push (cells : List (Cell K V)) (c : Cell K V) :
    columns (cells ++ [c]) =
      { keys := (columns cells).keys ++ [c.key], vals := (columns cells).vals ++ [c.val],
        hashes := (columns cells).hashes ++ [c.hash], live := (columns cells).live ++ [c.live] } := by
  simp [columns]

/-- Draining keeps the live cells, last first, and drops the others. -/
theorem drain_columns (cells moved : List (Cell K V)) (dropped : Dropped K V) :
    drain (columns cells) (columns moved) dropped =
      (columns (moved ++ (cells.filter Cell.live).reverse),
        { keys := (cells.filter fun c => !c.live).map Cell.key ++ dropped.keys,
          vals := (cells.filter fun c => !c.live).map Cell.val ++ dropped.vals }) := by
  induction cells using List.reverseRecOn generalizing moved dropped with
  | nil =>
    rw [drain]
    split
    next popped => cases popped
    next => simp
  | append_singleton cells c ih =>
    have pop_append : ∀ {T : Type} (xs : List T) (x : T), ArrayBuf.pop (xs ++ [x]) = (some x, xs) := by
      intro T xs x
      simp [ArrayBuf.pop]
    have popOr_append : ∀ {T : Type} (xs : List T) (x d : T), ArrayBuf.popOr (xs ++ [x]) d = (x, xs) := by
      intro T xs x d
      simp [ArrayBuf.popOr]
    rw [columns_push, drain]
    simp only [pop_append, popOr_append]
    split
    next k keys popped =>
      rw [pop_append] at popped
      obtain ⟨rfl, rfl⟩ : c.key = k ∧ (columns cells).keys = keys := by simpa using popped
      cases alive : c.live with
      | true =>
        have pushed := columns_push moved c
        rw [alive] at pushed
        simp only [if_true]
        refine (congrArg (drain (columns cells) · dropped) pushed.symm).trans ?_
        rw [ih]
        simp [alive]
      | false =>
        simp only [Bool.false_eq_true, if_false]
        refine (ih moved _).trans ?_
        simp [alive]
    next popped =>
      rw [pop_append] at popped
      cases popped

/-- The table has the number of every entry on the way from its home. -/
structure Indexed (slots : List Nat) (cap : Nat) (hashes : List Nat) (n : Nat) : Prop where
  length : slots.length = cap
  bound : ∀ i, ArrayBuf.getOr slots i 0 ≤ n
  reach : ∀ e < n, ∃ i < cap, ArrayBuf.getOr slots i 0 = e + 1 ∧
    Reaches cap (fun i => ArrayBuf.getOr slots i 0 ≠ 0) (ArrayBuf.getOr hashes e 0 % cap) i
  few : ({i ∈ Finset.range cap | ArrayBuf.getOr slots i 0 ≠ 0} : Finset Nat).card ≤ n

theorem Indexed.congr {slots hashes others : List Nat} {cap n : Nat} (indexed : Indexed slots cap hashes n)
    (same : ∀ e < n, ArrayBuf.getOr others e 0 = ArrayBuf.getOr hashes e 0) : Indexed slots cap others n := by
  refine { indexed with reach := ?_ }
  intro e before
  rw [same e before]
  exact indexed.reach e before

theorem indexed_empty (cap : Nat) (hashes : List Nat) : Indexed (List.replicate cap 0) cap hashes 0 := by
  have zero : ∀ i, ArrayBuf.getOr (List.replicate cap 0) i 0 = 0 := by
    intro i
    simp only [ArrayBuf.getOr, List.getD_eq_getElem?_getD, List.getElem?_replicate]
    split
    · rfl
    · rfl
  refine ⟨List.length_replicate, ?_, ?_, ?_⟩
  · intro i
    rw [zero]
  · intro e before
    exact absurd before (Nat.not_lt_zero e)
  · simp [zero]

/-- A table with a slot to spare takes one more entry. -/
theorem link_indexed {slots hashes : List Nat} {cap n : Nat} (indexed : Indexed slots cap hashes n) (spare : n < cap) :
    ∃ next, link cap (ArrayBuf.getOr hashes n 0) n slots = .ok next ∧ Indexed next cap hashes (n + 1) := by
  have positive : 0 < cap := by omega
  obtain ⟨free, inside, empty⟩ : ∃ i < cap, ArrayBuf.getOr slots i 0 = 0 := by
    by_contra full
    push Not at full
    have few := indexed.few
    rw [Finset.filter_true_of_mem fun i member => full i (Finset.mem_range.mp member), Finset.card_range] at few
    omega
  have start := Nat.mod_lt (ArrayBuf.getOr hashes n 0) positive
  obtain ⟨target, found, targetInside, stops⟩ :=
    @search_finds cap _ (fun idx => ArrayBuf.getOr slots idx 0 = 0) free inside (by simpa using empty) start
  have vacant : ArrayBuf.getOr slots target 0 = 0 := by simpa using stops
  have reaches : Reaches cap (fun i => ArrayBuf.getOr slots i 0 ≠ 0) (ArrayBuf.getOr hashes n 0 % cap) target := by
    refine reaches_of_search start ?_ found
    intro slot goesOn
    simpa using goesOn
  have within : target < slots.length := by
    rw [indexed.length]
    exact targetInside
  have slot : ∀ i, ArrayBuf.getOr (slots.set target (n + 1)) i 0 = if i = target then n + 1 else ArrayBuf.getOr slots i 0 :=
    fun i => ArrayBuf.getOr_set within
  have kept : ∀ i, ArrayBuf.getOr slots i 0 ≠ 0 → ArrayBuf.getOr (slots.set target (n + 1)) i 0 ≠ 0 := by
    intro i taken
    rw [slot]
    split
    · exact Nat.succ_ne_zero n
    · exact taken
  refine ⟨slots.set target (n + 1), ?_, (List.length_set ..).trans indexed.length, ?_, ?_, ?_⟩
  · rw [link, found]
    exact ArrayBuf.set_ok within
  · intro i
    rw [slot]
    split
    · exact Nat.le_refl _
    · exact (indexed.bound i).trans (Nat.le_succ n)
  · intro e before
    rcases Nat.lt_or_eq_of_le (Nat.le_of_lt_succ before) with less | rfl
    · obtain ⟨i, here, holds, reached⟩ := indexed.reach e less
      refine ⟨i, here, ?_, reached.mono kept⟩
      rw [slot, if_neg]
      · exact holds
      · rintro rfl
        omega
    · refine ⟨target, targetInside, ?_, reaches.mono kept⟩
      rw [slot, if_pos rfl]
  · refine (Finset.card_le_card (t := insert target _) ?_).trans
      ((Finset.card_insert_le _ _).trans (Nat.succ_le_succ indexed.few))
    intro i member
    rw [Finset.mem_filter, slot] at member
    obtain ⟨range, taken⟩ := member
    split at taken
    next same => exact Finset.mem_insert.mpr (.inl same)
    next => exact Finset.mem_insert_of_mem (Finset.mem_filter.mpr ⟨range, taken⟩)

theorem link_all (hashes : List Nat) {cap n : Nat} (spare : n ≤ cap) :
    ∃ slots, (List.range n).foldlM (fun slots e => link cap (ArrayBuf.getOr hashes e 0) e slots) (List.replicate cap 0) =
        .ok slots ∧ Indexed slots cap hashes n := by
  induction n with
  | zero => exact ⟨_, rfl, indexed_empty cap hashes⟩
  | succ n ih =>
    obtain ⟨slots, folded, indexed⟩ := ih (by omega)
    obtain ⟨next, linked, further⟩ := link_indexed indexed (by omega)
    refine ⟨next, ?_, further⟩
    rw [List.range_succ, List.foldlM_append, folded]
    simp only [Stop.ok_bind, List.foldlM_cons, List.foldlM_nil, linked]
    rfl

/-- The arrays with their cells; no two live cells have equal keys. -/
structure Stored (key : LawfulKey K) (entries : Entries K V) (cells : List (Cell K V)) : Prop where
  arrays : entries = columns cells
  hashes : ∀ (i : Nat) (c : Cell K V), cells[i]? = some c → c.hash = key.hash c.key
  unique : ∀ (i j : Nat) (c d : Cell K V), cells[i]? = some c → cells[j]? = some d → c.live → d.live → key.equals c.key d.key → i = j

structure Valid (key : LawfulKey K) (map : HashMap K V) (cells : List (Cell K V)) : Prop
    extends Stored key map.toEntries cells where
  indexed : Indexed map.slots map.cap (cells.map Cell.hash) cells.length
  fits : ArrayBuf.wordsFit map.cap
  large : 8 ≤ map.cap
  spare : cells.length ≤ threshold map.cap

variable {key : LawfulKey K} {map : HashMap K V} {cells : List (Cell K V)} {room : Nat → Bool} {k : K} {v : V}

theorem threshold_lt {cap : Nat} (large : 8 ≤ cap) : threshold cap < cap := by
  rw [threshold]
  omega

theorem Valid.less (valid : Valid key map cells) : cells.length < map.cap :=
  Nat.lt_of_le_of_lt valid.spare (threshold_lt valid.large)

theorem Valid.keysEq (valid : Valid key map cells) : map.keys = cells.map Cell.key := congrArg Entries.keys valid.arrays

theorem Valid.valsEq (valid : Valid key map cells) : map.vals = cells.map Cell.val := congrArg Entries.vals valid.arrays

theorem Valid.hashesEq (valid : Valid key map cells) : map.hashes = cells.map Cell.hash :=
  congrArg Entries.hashes valid.arrays

theorem Valid.liveEq (valid : Valid key map cells) : map.live = cells.map Cell.live := congrArg Entries.live valid.arrays

def Matches (key : LawfulKey K) (k : K) (c : Cell K V) : Prop := c.live ∧ key.equals c.key k

instance (c : Cell K V) : Decidable (Matches key k c) := inferInstanceAs (Decidable (_ ∧ _))

/-- What ends the probing for a key. -/
def ends (key : LawfulKey K) (cells : List (Cell K V)) (slots : List Nat) (k : K) (i : Nat) : Bool :=
  ArrayBuf.getOr slots i 0 = 0 || cells[ArrayBuf.getOr slots i 0 - 1]?.any fun c => Matches key k c

theorem ends_iff {slots : List Nat} {i : Nat} : ends key cells slots k i ↔
    ArrayBuf.getOr slots i 0 = 0 ∨ ∃ c, cells[ArrayBuf.getOr slots i 0 - 1]? = some c ∧ Matches key k c := by
  rw [ends]
  cases cells[ArrayBuf.getOr slots i 0 - 1]? with
  | none => simp
  | some c => simp

theorem findLoop_eq (valid : Valid key map cells) (k : K) (probes idx : Nat) :
    map.findLoop key k (key.hash k) probes idx = .ok (
      match search map.cap (ends key cells map.slots k) probes idx with
      | none => map.cap
      | some i => if ArrayBuf.getOr map.slots i 0 = 0 then map.cap else ArrayBuf.getOr map.slots i 0 - 1) := by
  induction probes generalizing idx with
  | zero => rfl
  | succ probes ih =>
    rw [findLoop, search]
    by_cases vacant : ArrayBuf.getOr map.slots idx 0 = 0
    · simp [ends, vacant]
    · have bound := valid.indexed.bound idx
      have inside : ArrayBuf.getOr map.slots idx 0 - 1 < cells.length := by omega
      obtain ⟨c, here⟩ : ∃ c, cells[ArrayBuf.getOr map.slots idx 0 - 1]? = some c := ⟨_, List.getElem?_eq_getElem inside⟩
      have stops : ends key cells map.slots k idx = decide (Matches key k c) := by simp [ends, vacant, here]
      have live : ArrayBuf.getOr map.live (ArrayBuf.getOr map.slots idx 0 - 1) false = c.live := by
        rw [valid.liveEq, ArrayBuf.getOr, List.getD_eq_getElem?_getD, List.getElem?_map, here]
        rfl
      have hashed : ArrayBuf.getOr map.hashes (ArrayBuf.getOr map.slots idx 0 - 1) 0 = key.hash c.key := by
        rw [valid.hashesEq, ArrayBuf.getOr, List.getD_eq_getElem?_getD, List.getElem?_map, here]
        exact valid.hashes _ c here
      have stored : map.keys[ArrayBuf.getOr map.slots idx 0 - 1]? = some c.key := by
        rw [valid.keysEq, List.getElem?_map, here]
        rfl
      simp only [if_neg vacant, live, hashed, stored, stops]
      by_cases matching : Matches key k c
      · simp [matching, vacant, matching.1, matching.2, key.respects matching.2]
      · rw [ih]
        simp only [matching, decide_false, Bool.false_eq_true, if_false]
        split
        next alive =>
          have different : key.equals c.key k = false := by
            rw [← Bool.not_eq_true]
            exact fun same => matching ⟨alive.1, same⟩
          simp [different]
        next => rfl

/-- A key is found exactly where its live cell is; the capacity says absent. -/
theorem find_spec (valid : Valid key map cells) (k : K) :
    (∃ e c, map.find key k (key.hash k) = .ok e ∧ e ≠ map.cap ∧ cells[e]? = some c ∧ Matches key k c) ∨
      map.find key k (key.hash k) = .ok map.cap ∧ ∀ (e : Nat) (c : Cell K V), cells[e]? = some c → ¬ Matches key k c := by
  have less := valid.less
  have start := Nat.mod_lt (key.hash k) (Nat.zero_lt_of_lt less)
  rw [HashMap.find, findLoop_eq valid]
  by_cases present : ∃ (e : Nat) (c : Cell K V), cells[e]? = some c ∧ Matches key k c
  · obtain ⟨e, c, here, matching⟩ := present
    have before : e < cells.length := (List.getElem?_eq_some_iff.mp here).1
    obtain ⟨i, inside, numbered, reached⟩ := valid.indexed.reach e before
    have home : ArrayBuf.getOr (cells.map Cell.hash) e 0 = key.hash k := by
      rw [ArrayBuf.getOr, List.getD_eq_getElem?_getD, List.getElem?_map, here]
      exact (valid.hashes e c here).trans (key.respects matching.2)
    have stopsHere : ends key cells map.slots k i := by simp [ends, numbered, here, matching]
    obtain ⟨found, same, _, stops⟩ := search_finds inside stopsHere start
    have occupied : ArrayBuf.getOr map.slots found 0 ≠ 0 := by
      intro vacant
      rw [← probe_zero start] at same
      obtain ⟨steps, _, _, rfl, _, clear⟩ := search_eq_some same
      rw [home] at reached
      obtain ⟨earlier, less, again⟩ := reached.before_free (not_not.mpr vacant) (by omega)
      have goesOn := clear earlier less (Nat.zero_le _)
      rw [again, stopsHere] at goesOn
      cases goesOn
    have bound := valid.indexed.bound found
    obtain ⟨d, there, matches'⟩ := (ends_iff.mp stops).resolve_left occupied
    refine .inl ⟨ArrayBuf.getOr map.slots found 0 - 1, d, ?_, by omega, there, matches'⟩
    simp [same, occupied]
  · push Not at present
    refine .inr ⟨?_, present⟩
    cases outcome : search map.cap (ends key cells map.slots k) map.cap (key.hash k % map.cap) with
    | none => rfl
    | some i =>
      rw [← probe_zero start] at outcome
      obtain ⟨_, _, _, _, stops, _⟩ := search_eq_some outcome
      have vacant : ArrayBuf.getOr map.slots i 0 = 0 := by
        by_contra occupied
        obtain ⟨d, there, matches'⟩ := (ends_iff.mp stops).resolve_left occupied
        exact present _ d there matches'
      simp [vacant]

theorem set_same {T : Type} {xs : List T} {e : Nat} {x : T} (here : xs[e]? = some x) : xs.set e x = xs := by
  obtain ⟨inside, rfl⟩ := List.getElem?_eq_some_iff.mp here
  exact List.set_getElem_self inside

theorem getElem?_set_cell {c d : Cell K V} {e : Nat} (here : cells[e]? = some c) (i : Nat) :
    (cells.set e d)[i]? = if i = e then some d else cells[i]? := by
  rw [List.getElem?_set]
  split
  next same => rw [if_pos same.symm, if_pos (List.getElem?_eq_some_iff.mp here).1]
  next different => rw [if_neg (Ne.symm different)]

theorem columns_set_val {c : Cell K V} {e : Nat} (here : cells[e]? = some c) (v : V) :
    columns (cells.set e { c with val := v }) = { columns cells with vals := (cells.map Cell.val).set e v } := by
  have column : ∀ {T : Type} (f : Cell K V → T), (cells.map f)[e]? = some (f c) := by
    intro T f
    rw [List.getElem?_map, here]
    rfl
  rw [columns]
  simp only [List.map_set, set_same (column Cell.key), set_same (column Cell.hash), set_same (column Cell.live)]
  rfl

theorem columns_set_dead {c : Cell K V} {e : Nat} (here : cells[e]? = some c) :
    columns (cells.set e { c with live := false }) = { columns cells with live := (cells.map Cell.live).set e false } := by
  have column : ∀ {T : Type} (f : Cell K V → T), (cells.map f)[e]? = some (f c) := by
    intro T f
    rw [List.getElem?_map, here]
    rfl
  rw [columns]
  simp only [List.map_set, set_same (column Cell.key), set_same (column Cell.hash), set_same (column Cell.val)]
  rfl

/-- Replacing a cell by one with the same key and hash that is not more alive. -/
theorem Valid.set (valid : Valid key map cells) {c d : Cell K V} {e : Nat} (here : cells[e]? = some c)
    (sameKey : d.key = c.key) (sameHash : d.hash = c.hash) (weaker : d.live → c.live) {after : HashMap K V}
    (arrays : after.toEntries = columns (cells.set e d)) (slots : after.slots = map.slots) (cap : after.cap = map.cap) :
    Valid key after (cells.set e d) := by
  have back : ∀ (i : Nat) (x : Cell K V), (cells.set e d)[i]? = some x →
      ∃ y : Cell K V, cells[i]? = some y ∧ x.key = y.key ∧ x.hash = y.hash ∧ (x.live → y.live) := by
    intro i x there
    rw [getElem?_set_cell here] at there
    split at there
    next same =>
      obtain rfl : d = x := Option.some.inj there
      exact ⟨c, by rw [same, here], sameKey, sameHash, weaker⟩
    next => exact ⟨x, there, rfl, rfl, id⟩
  have hashes : (cells.set e d).map Cell.hash = cells.map Cell.hash := by
    rw [List.map_set, sameHash]
    apply set_same
    rw [List.getElem?_map, here]
    rfl
  refine ⟨⟨arrays, ?_, ?_⟩, ?_, ?_, ?_, ?_⟩
  · intro i x there
    obtain ⟨y, before, sameKey, sameHash, _⟩ := back i x there
    rw [sameKey, sameHash]
    exact valid.hashes i y before
  · intro i j x y first second alive living equal
    obtain ⟨x', before, xKey, _, xLive⟩ := back i x first
    obtain ⟨y', behind, yKey, _, yLive⟩ := back j y second
    rw [xKey, yKey] at equal
    exact valid.unique i j x' y' before behind (xLive alive) (yLive living) equal
  · rw [slots, cap, hashes, List.length_set]
    exact valid.indexed
  · rw [cap]
    exact valid.fits
  · rw [cap]
    exact valid.large
  · rw [cap, List.length_set]
    exact valid.spare

/-- The map holds exactly the intended entries, and every key and value that was
moved in is in one cell or dropped. -/
structure Represents (key : LawfulKey K) (map : HashMap K V) (intended : Intended K V key) (cells : List (Cell K V)) :
    Prop where
  valid : Valid key map cells
  lookup : ∀ (k : K) (v : V), intended.entries.lookup (key.classOf k) = some v ↔ ∃ c ∈ cells, Matches key k c ∧ c.val = v
  live : map.count = cells.countP Cell.live
  count : map.count = intended.entries.keys.card
  keys : (map.keys ++ map.dropped.keys : Multiset K) = intended.keys
  vals : (map.vals ++ map.dropped.vals : Multiset V) = intended.vals

variable {intended : Intended K V key}

theorem classOf_eq {a b : K} : key.classOf a = key.classOf b ↔ key.equals a b := by
  constructor
  · exact fun same => Quotient.exact same
  · exact fun equal => Quotient.sound equal

theorem Represents.cell_unique (represents : Represents key map intended cells) {i j : Nat} {c d : Cell K V}
    (first : cells[i]? = some c) (second : cells[j]? = some d) (here : Matches key k c) (there : Matches key k d) : i = j :=
  represents.valid.unique i j c d first second here.1 there.1 (key.trans here.2 (key.symm there.2))

theorem Represents.found (represents : Represents key map intended cells) {e : Nat} {c : Cell K V}
    (here : cells[e]? = some c) (matching : Matches key k c) : intended.entries.lookup (key.classOf k) = some c.val :=
  (represents.lookup k c.val).mpr ⟨c, List.mem_of_getElem? here, matching, rfl⟩

theorem Represents.missing (represents : Represents key map intended cells)
    (absent : ∀ (e : Nat) (c : Cell K V), cells[e]? = some c → ¬ Matches key k c) :
    intended.entries.lookup (key.classOf k) = none := by
  cases found : intended.entries.lookup (key.classOf k) with
  | none => rfl
  | some v =>
    obtain ⟨c, member, matching, _⟩ := (represents.lookup k v).mp found
    obtain ⟨e, here⟩ := List.mem_iff_getElem?.mp member
    exact absurd matching (absent e c here)

theorem get_answers (represents : Represents key map intended cells) (k : K) :
    map.get key k = .ok (intended.entries.lookup (key.classOf k)) := by
  rw [HashMap.get]
  rcases find_spec represents.valid k with ⟨e, c, found, inside, here, matching⟩ | ⟨found, absent⟩
  · rw [found, represents.found here matching, Stop.ok_bind, if_neg inside, represents.valid.valsEq, List.getElem?_map, here]
    rfl
  · rw [found, represents.missing absent, Stop.ok_bind, if_pos rfl]
    rfl

theorem contains_answers (represents : Represents key map intended cells) (k : K) :
    map.contains key k = .ok (intended.entries.lookup (key.classOf k)).isSome := by
  rw [HashMap.contains]
  rcases find_spec represents.valid k with ⟨e, c, found, inside, here, matching⟩ | ⟨found, absent⟩
  · rw [found, represents.found here matching, Stop.ok_bind, decide_eq_true inside]
    rfl
  · rw [found, represents.missing absent, Stop.ok_bind]
    simp

theorem exists_mem_set {P : Cell K V → Prop} {c d : Cell K V} {e : Nat} (here : cells[e]? = some c) :
    (∃ x ∈ cells.set e d, P x) ↔ P d ∨ ∃ (i : Nat) (x : Cell K V), i ≠ e ∧ cells[i]? = some x ∧ P x := by
  constructor
  · rintro ⟨x, member, holds⟩
    obtain ⟨i, there⟩ := List.mem_iff_getElem?.mp member
    rw [getElem?_set_cell here] at there
    split at there
    next =>
      obtain rfl : d = x := Option.some.inj there
      exact .inl holds
    next different => exact .inr ⟨i, x, different, there, holds⟩
  · rintro (holds | ⟨i, x, different, there, holds⟩)
    · refine ⟨d, ?_, holds⟩
      apply List.mem_of_getElem?
      rw [getElem?_set_cell here, if_pos rfl]
    · refine ⟨x, ?_, holds⟩
      apply List.mem_of_getElem?
      rw [getElem?_set_cell here, if_neg different]
      exact there

/-- The live cells with a key are those that were there, apart from one cell and
its class. -/
theorem Represents.others (represents : Represents key map intended cells) {e : Nat} {c : Cell K V}
    (here : cells[e]? = some c) (matching : Matches key k c) (other : K) (value : V) :
    (∃ (i : Nat) (x : Cell K V), i ≠ e ∧ cells[i]? = some x ∧ Matches key other x ∧ x.val = value) ↔
      key.classOf other ≠ key.classOf k ∧ intended.entries.lookup (key.classOf other) = some value := by
  rw [represents.lookup]
  constructor
  · rintro ⟨i, x, different, there, held, rfl⟩
    refine ⟨?_, x, List.mem_of_getElem? there, held, rfl⟩
    intro same
    have again : Matches key k x := ⟨held.1, key.trans held.2 (classOf_eq.mp same)⟩
    exact different (represents.cell_unique there here again matching)
  · rintro ⟨different, x, member, held, rfl⟩
    obtain ⟨i, there⟩ := List.mem_iff_getElem?.mp member
    refine ⟨i, x, ?_, there, held, rfl⟩
    rintro rfl
    obtain rfl : c = x := Option.some.inj (here.symm.trans there)
    exact different (classOf_eq.mpr (key.trans (key.symm held.2) matching.2))

theorem overwrite_represents (represents : Represents key map intended cells) {e : Nat} {c : Cell K V}
    (here : cells[e]? = some c) (matching : Matches key k c) (v : V) :
    ∃ after, map.overwrite e v = .ok after ∧
      Represents key after
        { intended with entries := intended.entries.insert (key.classOf k) v, vals := v ::ₘ intended.vals }
        (cells.set e { c with val := v }) ∧
      after.cap = map.cap ∧ after.count = map.count := by
  have vals := represents.valid.valsEq
  have old : map.vals[e]? = some c.val := by
    rw [vals, List.getElem?_map, here]
    rfl
  obtain ⟨inside, read⟩ := List.getElem?_eq_some_iff.mp old
  refine ⟨{ map with vals := map.vals.set e v, dropped.vals := map.vals[e]?.toList ++ map.dropped.vals }, ?_, ?_, rfl, rfl⟩
  · rw [HashMap.overwrite, ArrayBuf.set_ok inside]
    rfl
  refine ⟨?_, ?_, ?_, ?_, represents.keys, ?_⟩
  · refine represents.valid.set (d := { c with val := v }) here rfl rfl id ?_ rfl rfl
    rw [columns_set_val here, ← represents.valid.arrays, ← vals]
  · intro other value
    rw [exists_mem_set here, represents.others here matching]
    by_cases same : key.classOf other = key.classOf k
    · rw [same, Finmap.lookup_insert intended.entries]
      constructor
      · intro equal
        exact .inl ⟨⟨matching.1, key.trans matching.2 (key.symm (classOf_eq.mp same))⟩, Option.some.inj equal⟩
      · rintro (⟨_, equal⟩ | ⟨different, _⟩)
        · exact congrArg some equal
        · exact absurd rfl different
    · rw [Finmap.lookup_insert_of_ne intended.entries same]
      constructor
      · exact fun found => .inr ⟨same, found⟩
      · rintro (⟨held, _⟩ | ⟨_, found⟩)
        · exact absurd (classOf_eq.mpr (key.trans (key.symm held.2) matching.2)) same
        · exact found
  · have column : (cells.set e { c with val := v }).map Cell.live = cells.map Cell.live := by
      rw [List.map_set]
      apply set_same
      rw [List.getElem?_map, here]
      rfl
    have counted : ∀ xs : List (Cell K V), xs.countP Cell.live = (xs.map Cell.live).countP id := by
      intro xs
      rw [List.countP_map]
      rfl
    rw [counted, column, ← counted]
    exact represents.live
  · have member : key.classOf k ∈ intended.entries.keys :=
      Finmap.mem_keys.mpr (Finmap.mem_of_lookup_eq_some (represents.found here matching))
    have keys : (intended.entries.insert (key.classOf k) v).keys = intended.entries.keys := by
      ext other
      rw [Finmap.mem_keys, Finmap.mem_insert, ← Finmap.mem_keys]
      exact ⟨fun either => either.elim (fun same => same ▸ member) id, .inr⟩
    rw [keys]
    exact represents.count
  · rw [← represents.vals, old]
    refine Multiset.coe_eq_coe.mpr ?_
    have shuffled : (map.vals.set e v ++ [c.val]).Perm (v :: map.vals) := by
      refine ((List.set_perm_cons_eraseIdx inside v).append_right _).trans (.cons v ?_)
      refine List.perm_append_comm.trans ?_
      rw [← read]
      exact List.getElem_cons_eraseIdx_perm inside
    simpa using shuffled.append_right map.dropped.vals

theorem remove_answers (represents : Represents key map intended cells) (k : K) :
    ∃ after cells', map.remove key k = .ok ((intended.entries.lookup (key.classOf k)).isSome, after) ∧
      Represents key after { intended with entries := intended.entries.erase (key.classOf k) } cells' ∧
      after.cap = map.cap ∧ after.count ≤ map.count := by
  rw [HashMap.remove]
  rcases find_spec represents.valid k with ⟨e, c, found, inside, here, matching⟩ | ⟨found, absent⟩
  · have lookup := represents.found here matching
    have live : e < map.live.length := by
      rw [represents.valid.liveEq, List.length_map]
      exact (List.getElem?_eq_some_iff.mp here).1
    have member : key.classOf k ∈ intended.entries.keys := Finmap.mem_keys.mpr (Finmap.mem_of_lookup_eq_some lookup)
    have positive : 0 < map.count := by
      rw [represents.count]
      exact Finset.card_pos.mpr ⟨_, member⟩
    refine ⟨{ map with live := map.live.set e false, count := map.count - 1 }, cells.set e { c with live := false }, ?_, ?_, rfl,
      Nat.sub_le ..⟩
    · rw [found, lookup, Stop.ok_bind, if_neg inside, ArrayBuf.set_ok live, Stop.ok_bind, if_neg (by omega)]
      rfl
    refine ⟨?_, ?_, ?_, ?_, represents.keys, represents.vals⟩
    · refine represents.valid.set (d := { c with live := false }) here rfl rfl nofun ?_ rfl rfl
      rw [columns_set_dead here, ← represents.valid.arrays, ← represents.valid.liveEq]
    · intro other value
      rw [exists_mem_set here, represents.others here matching]
      by_cases same : key.classOf other = key.classOf k
      · rw [same, Finmap.lookup_erase (key.classOf k) intended.entries]
        constructor
        · exact nofun
        · rintro (⟨⟨alive, _⟩, _⟩ | ⟨different, _⟩)
          · cases alive
          · exact absurd rfl different
      · rw [Finmap.lookup_erase_ne same]
        constructor
        · exact fun found => .inr ⟨same, found⟩
        · rintro (⟨⟨alive, _⟩, _⟩ | ⟨_, found⟩)
          · cases alive
          · exact found
    · obtain ⟨within, read⟩ := List.getElem?_eq_some_iff.mp here
      rw [List.countP_set within, read, if_pos matching.1, ← represents.live]
      rfl
    · rw [Finmap.keys_erase, Finset.card_erase_of_mem member, ← represents.count]
  · have missing := represents.missing absent
    have unchanged : intended.entries.erase (key.classOf k) = intended.entries := by
      refine Finmap.ext_lookup fun other => ?_
      by_cases same : other = key.classOf k
      · rw [same, Finmap.lookup_erase, missing]
      · exact Finmap.lookup_erase_ne same
    refine ⟨map, cells, ?_, ?_, rfl, Nat.le_refl _⟩
    · rw [found, missing, Stop.ok_bind, if_pos rfl]
      rfl
    · rw [unchanged]
      exact represents

theorem Stored.rebuilt {entries : Entries K V} (stored : Stored key entries cells) :
    Stored key (columns (cells.filter Cell.live).reverse) (cells.filter Cell.live).reverse := by
  have back : ∀ (i : Nat) (x : Cell K V), (cells.filter Cell.live).reverse[i]? = some x → ∃ j : Nat, cells[j]? = some x := by
    intro i x there
    have member := List.mem_of_getElem? there
    rw [List.mem_reverse, List.mem_filter] at member
    exact List.mem_iff_getElem?.mp member.1
  have distinct : cells.Pairwise fun c d => c.live → d.live → ¬ key.equals c.key d.key := by
    rw [List.pairwise_iff_getElem]
    intro i j first second less alive living equal
    have same := stored.unique i j _ _ (List.getElem?_eq_getElem first) (List.getElem?_eq_getElem second) alive living equal
    omega
  have apart : (cells.filter Cell.live).reverse.Pairwise fun c d => c.live → d.live → ¬ key.equals c.key d.key := by
    rw [List.pairwise_reverse]
    refine (distinct.filter _).imp ?_
    intro c d different living alive equal
    exact different alive living (key.symm equal)
  rw [List.pairwise_iff_getElem] at apart
  refine ⟨rfl, ?_, ?_⟩
  · intro i c there
    obtain ⟨j, before⟩ := back i c there
    exact stored.hashes j c before
  · intro i j c d first second alive living equal
    obtain ⟨inside, rfl⟩ := List.getElem?_eq_some_iff.mp first
    obtain ⟨within, rfl⟩ := List.getElem?_eq_some_iff.mp second
    rcases Nat.lt_trichotomy i j with less | same | more
    · exact absurd equal (apart i j inside within less alive living)
    · exact same
    · exact absurd (key.symm equal) (apart j i within inside more living alive)

theorem sorted_out {T : Type} (cells : List (Cell K V)) (f : Cell K V → T) (rest : List T) :
    ((cells.filter Cell.live).reverse.map f ++ ((cells.filter fun c => !c.live).map f ++ rest)).Perm (cells.map f ++ rest) := by
  rw [← List.append_assoc, ← List.map_append]
  apply List.Perm.append_right
  apply List.Perm.map
  exact ((List.reverse_perm _).append_right _).trans (List.filter_append_perm Cell.live cells)

theorem rebuild_represents {entries : Entries K V} (same : map.toEntries = entries) (stored : Stored key entries cells)
    (lookup : ∀ (k : K) (v : V), intended.entries.lookup (key.classOf k) = some v ↔ ∃ c ∈ cells, Matches key k c ∧ c.val = v)
    (live : map.count = cells.countP Cell.live) (count : map.count = intended.entries.keys.card)
    (keys : (map.keys ++ map.dropped.keys : Multiset K) = intended.keys)
    (vals : (map.vals ++ map.dropped.vals : Multiset V) = intended.vals)
    {newCap : Nat} (large : 8 ≤ newCap) (spare : map.count ≤ threshold newCap)
    (allocated : room map.asked ∧ ArrayBuf.wordsFit newCap) :
    ∃ after, map.rebuild room newCap = .ok after ∧ Represents key after intended (cells.filter Cell.live).reverse ∧
      after.cap = newCap ∧ after.count = map.count := by
  have rebuilt := stored.rebuilt
  rw [stored.arrays] at same
  have kept : (cells.filter Cell.live).reverse.length = map.count := by
    rw [List.length_reverse, live, List.countP_eq_length_filter]
  have drained := drain_columns cells [] map.dropped
  rw [List.nil_append] at drained
  obtain ⟨slots, linked, indexed⟩ := @link_all ((cells.filter Cell.live).reverse.map Cell.hash) newCap
    (cells.filter Cell.live).reverse.length (by have := threshold_lt large; omega)
  refine ⟨{ map with
    toEntries := columns (cells.filter Cell.live).reverse
    slots
    cap := newCap
    dropped := { keys := (cells.filter fun c => !c.live).map Cell.key ++ map.dropped.keys,
                 vals := (cells.filter fun c => !c.live).map Cell.val ++ map.dropped.vals }
    asked := map.asked + 1 }, ?_, ?_, rfl, rfl⟩
  · rw [rebuild, allocate, if_pos allocated, Stop.ok_bind]
    have drains : drain (columns cells) { keys := [], vals := [], hashes := [], live := [] } map.dropped = _ := drained
    simp only [same, drains, show (columns (cells.filter Cell.live).reverse).keys.length = _ from List.length_map _]
    exact congrArg (· >>= _) linked
  · refine ⟨⟨rebuilt, indexed, allocated.2, large, ?_⟩, ?_, ?_, count, ?_, ?_⟩
    · rw [kept]
      exact spare
    · intro k v
      rw [lookup]
      constructor
      · rintro ⟨c, member, matching, value⟩
        refine ⟨c, ?_, matching, value⟩
        rw [List.mem_reverse, List.mem_filter]
        exact ⟨member, matching.1⟩
      · rintro ⟨c, member, matching, value⟩
        rw [List.mem_reverse, List.mem_filter] at member
        exact ⟨c, member.1, matching, value⟩
    · rw [live, List.countP_reverse, List.countP_filter]
      simp
    · rw [← keys, congrArg Entries.keys same]
      exact Multiset.coe_eq_coe.mpr (sorted_out cells Cell.key map.dropped.keys)
    · rw [← vals, congrArg Entries.vals same]
      exact Multiset.coe_eq_coe.mpr (sorted_out cells Cell.val map.dropped.vals)

/-- The size of a table against the calls made so far. -/
structure Bounded (made : Nat) (map : HashMap K V) : Prop where
  count : map.count ≤ made
  cap : map.cap ≤ 6 * made + 8

/-- A request that is not granted was refused or is for more than there is. -/
theorem excused_of_refused {request cells made : Nat} (refused : ¬ (room request ∧ ArrayBuf.wordsFit cells))
    (small : cells ≤ 6 * made + 8) : Excused room made .outOfMemory := by
  refine ⟨rfl, ?_⟩
  by_cases granted : room request
  · right
    have large : ¬ cells ≤ (2 ^ 64 - 1) / 8 := fun fits => refused ⟨granted, decide_eq_true fits⟩
    omega
  · exact .inl ⟨request, by simpa using granted⟩

theorem rebuild_answers (represents : Represents key map intended cells) {newCap made : Nat} (large : 8 ≤ newCap)
    (spare : map.count ≤ threshold newCap) (small : newCap ≤ 6 * made + 8) :
    (∃ after, map.rebuild room newCap = .ok after ∧ Represents key after intended (cells.filter Cell.live).reverse ∧
        after.cap = newCap ∧ after.count = map.count) ∨
      ∃ stop, map.rebuild room newCap = .error stop ∧ Excused room made stop := by
  by_cases allocated : room map.asked ∧ ArrayBuf.wordsFit newCap
  · exact .inl (rebuild_represents rfl represents.valid.toStored represents.lookup represents.live represents.count
      represents.keys represents.vals large spare allocated)
  · refine .inr ⟨.outOfMemory, ?_, excused_of_refused allocated small⟩
    rw [rebuild, allocate, if_neg allocated]
    rfl

theorem makeRoom_answers (represents : Represents key map intended cells) {made : Nat} (bounded : Bounded made map) :
    (∃ after cells', map.makeRoom room = .ok after ∧ Represents key after intended cells' ∧
        cells'.length + 1 ≤ threshold after.cap ∧ after.count = map.count ∧ after.cap ≤ 6 * (made + 1) + 8) ∨
      ∃ stop, map.makeRoom room = .error stop ∧ Excused room (made + 1) stop := by
  obtain ⟨few, small⟩ := bounded
  have fits : map.cap ≤ (2 ^ 64 - 1) / 8 := of_decide_eq_true represents.valid.fits
  have large := represents.valid.large
  have length : map.keys.length = cells.length := by rw [represents.valid.keysEq, List.length_map]
  have alive : map.count ≤ cells.length := by
    rw [represents.live]
    exact List.countP_le_length
  have spare := represents.valid.spare
  have kept : (cells.filter Cell.live).reverse.length = map.count := by
    rw [List.length_reverse, represents.live, List.countP_eq_length_filter]
  rw [makeRoom, length]
  split
  next full =>
    split
    next crowded =>
      rw [threshold] at full crowded spare
      rw [if_neg (by omega)]
      have doubled : map.count + 1 ≤ threshold (map.cap * 2) := by
        rw [threshold]
        omega
      rcases @rebuild_answers K V key map cells room intended represents (map.cap * 2) (made + 1) (by omega) (by omega) (by omega)
        with ⟨after, done, holds, cap, count⟩ | failed
      · refine .inl ⟨after, _, done, holds, ?_, count, by omega⟩
        rw [kept, cap]
        exact doubled
      · exact .inr failed
    next mostlyDead =>
      rcases @rebuild_answers K V key map cells room intended represents map.cap (made + 1) large (by omega) (by omega)
        with ⟨after, done, holds, cap, count⟩ | failed
      · refine .inl ⟨after, _, done, holds, ?_, count, by omega⟩
        rw [kept, cap]
        omega
      · exact .inr failed
  next low => exact .inl ⟨map, cells, rfl, represents, by omega, rfl, by omega⟩

theorem append_answers (represents : Represents key map intended cells)
    (missing : intended.entries.lookup (key.classOf k) = none) (spare : cells.length + 1 ≤ threshold map.cap) {made : Nat}
    (small : map.cap ≤ 6 * made + 8) (v : V) :
    (∃ after, map.append room k v (key.hash k) = .ok after ∧
        Represents key after
          { entries := intended.entries.insert (key.classOf k) v, keys := k ::ₘ intended.keys, vals := v ::ₘ intended.vals }
          (cells ++ [{ key := k, val := v, hash := key.hash k, live := true }]) ∧
        after.cap = map.cap ∧ after.count = map.count + 1) ∨
      ∃ stop, map.append room k v (key.hash k) = .error stop ∧ Excused room made stop := by
  have valid := represents.valid
  have below := threshold_lt valid.large
  have length : map.keys.length = cells.length := by rw [valid.keysEq, List.length_map]
  let cell : Cell K V := { key := k, val := v, hash := key.hash k, live := true }
  have hashes : (cells ++ [cell]).map Cell.hash = cells.map Cell.hash ++ [key.hash k] := by simp [cell]
  have own : ArrayBuf.getOr ((cells ++ [cell]).map Cell.hash) cells.length 0 = key.hash k := by
    rw [hashes]
    simp [ArrayBuf.getOr]
  have indexed : Indexed map.slots map.cap ((cells ++ [cell]).map Cell.hash) cells.length := by
    apply valid.indexed.congr
    intro e before
    rw [hashes]
    simp [ArrayBuf.getOr, List.getElem?_append_left, before]
  obtain ⟨slots, linked, further⟩ := link_indexed indexed (by omega)
  rw [own] at linked
  rw [HashMap.append, length, linked, Stop.ok_bind, allocate]
  by_cases allocated : room map.asked ∧ ArrayBuf.wordsFit (cells.length + 1)
  · rw [if_pos allocated]
    have nobody : ∀ c ∈ cells, ¬ Matches key k c := by
      intro c member matching
      obtain ⟨e, here⟩ := List.mem_iff_getElem?.mp member
      rw [represents.found here matching] at missing
      cases missing
    have place : ∀ (i : Nat) (c : Cell K V), (cells ++ [cell])[i]? = some c →
        cells[i]? = some c ∨ i = cells.length ∧ c = cell := by
      intro i c there
      rcases Nat.lt_trichotomy i cells.length with less | same | more
      · left
        rwa [List.getElem?_append_left less] at there
      · right
        rw [same, List.getElem?_concat_length] at there
        exact ⟨same, (Option.some.inj there).symm⟩
      · rw [List.getElem?_eq_none (by simp; omega)] at there
        cases there
    refine .inl ⟨_, rfl, ⟨⟨⟨?_, ?_, ?_⟩, ?_, valid.fits, valid.large, ?_⟩, ?_, ?_, ?_, ?_, ?_⟩, rfl, rfl⟩
    · rw [columns_push, ← valid.arrays]
    · intro i c there
      rcases place i c there with before | ⟨_, rfl⟩
      · exact valid.hashes i c before
      · rfl
    · intro i j c d first second alive living equal
      rcases place i c first with before | ⟨here, rfl⟩
      · rcases place j d second with behind | ⟨there, rfl⟩
        · exact valid.unique i j c d before behind alive living equal
        · exact absurd ⟨alive, equal⟩ (nobody c (List.mem_of_getElem? before))
      · rcases place j d second with behind | ⟨there, rfl⟩
        · exact absurd ⟨living, key.symm equal⟩ (nobody d (List.mem_of_getElem? behind))
        · rw [here, there]
    · rw [List.length_append]
      exact further
    · rw [List.length_append]
      exact spare
    · intro other value
      have last : (∃ c ∈ cells ++ [cell], Matches key other c ∧ c.val = value) ↔
          (∃ c ∈ cells, Matches key other c ∧ c.val = value) ∨ (Matches key other cell ∧ v = value) := by
        simp only [List.mem_append, List.mem_singleton, or_and_right, exists_or, exists_eq_left]
        rfl
      rw [last, ← represents.lookup]
      by_cases same : key.classOf other = key.classOf k
      · rw [same, Finmap.lookup_insert intended.entries, missing]
        constructor
        · intro equal
          exact .inr ⟨⟨rfl, key.symm (classOf_eq.mp same)⟩, Option.some.inj equal⟩
        · rintro (found | ⟨_, equal⟩)
          · cases found
          · exact congrArg some equal
      · rw [Finmap.lookup_insert_of_ne intended.entries same]
        constructor
        · exact .inl
        · rintro (found | ⟨held, _⟩)
          · exact found
          · exact absurd (classOf_eq.mpr (key.symm held.2)) same
    · rw [List.countP_append, ← represents.live]
      rfl
    · have fresh : key.classOf k ∉ intended.entries.keys := by
        rw [Finmap.mem_keys, ← Finmap.lookup_eq_none]
        exact missing
      have keys : (intended.entries.insert (key.classOf k) v).keys = insert (key.classOf k) intended.entries.keys := by
        ext other
        simp [Finmap.mem_keys, Finmap.mem_insert]
      rw [keys, Finset.card_insert_of_notMem fresh, ← represents.count]
    · rw [← represents.keys, Multiset.cons_coe]
      exact Multiset.coe_eq_coe.mpr (by simp [List.perm_middle])
    · rw [← represents.vals, Multiset.cons_coe]
      exact Multiset.coe_eq_coe.mpr (by simp [List.perm_middle])
  · refine .inr ⟨.outOfMemory, ?_, excused_of_refused allocated (by omega)⟩
    rw [if_neg allocated]
    rfl

theorem insert_answers (represents : Represents key map intended cells) {made : Nat} (bounded : Bounded made map) (k : K) (v : V) :
    (∃ after cells', map.insert key room k v = .ok after ∧
        Represents key after
          { entries := intended.entries.insert (key.classOf k) v, keys := k ::ₘ intended.keys, vals := v ::ₘ intended.vals }
          cells' ∧ Bounded (made + 1) after) ∨
      ∃ stop, map.insert key room k v = .error stop ∧ Excused room (made + 1) stop := by
  obtain ⟨few, small⟩ := bounded
  have fits : map.cap ≤ (2 ^ 64 - 1) / 8 := of_decide_eq_true represents.valid.fits
  rw [HashMap.insert]
  rcases find_spec represents.valid k with ⟨e, c, found, inside, here, matching⟩ | ⟨found, absent⟩
  · obtain ⟨after, written, holds, cap, count⟩ := overwrite_represents represents here matching v
    refine .inl ⟨{ after with dropped.keys := k :: after.dropped.keys }, _, ?_,
      ⟨⟨holds.valid.toStored, holds.valid.indexed, holds.valid.fits, holds.valid.large, holds.valid.spare⟩, holds.lookup,
        holds.live, holds.count, ?_, holds.vals⟩, ?_, ?_⟩
    · rw [found, Stop.ok_bind, if_pos inside, written]
      rfl
    · have before := holds.keys
      rw [← before, Multiset.cons_coe]
      exact Multiset.coe_eq_coe.mpr (by simp [List.perm_middle])
    · change after.count ≤ made + 1
      omega
    · change after.cap ≤ 6 * (made + 1) + 8
      omega
  · have length : map.keys.length = cells.length := by rw [represents.valid.keysEq, List.length_map]
    have less := represents.valid.less
    rw [found, Stop.ok_bind, if_neg (not_not.mpr rfl), length, if_neg (by omega)]
    rcases @makeRoom_answers K V key map cells room intended represents made ⟨few, small⟩
      with ⟨wider, cells', done, holds, spare, count, cap⟩ | ⟨stop, failed, excuse⟩
    · rw [done, Stop.ok_bind]
      rcases @append_answers K V key wider cells' room k intended holds (represents.missing absent) spare (made + 1) cap v
        with ⟨after, appended, kept, sameCap, counted⟩ | failed
      · exact .inl ⟨after, _, appended, kept, by omega, by omega⟩
      · exact .inr failed
    · exact .inr ⟨stop, by rw [failed]; rfl, excuse⟩

theorem update_answers (represents : Represents key map intended cells) (k : K) (v : V) :
    ∃ after cells', map.update key k v = .ok ((intended.entries.lookup (key.classOf k)).isSome, after) ∧
      Represents key after (intended.answer (.update k v)).2 cells' ∧ after.cap = map.cap ∧ after.count = map.count := by
  rw [HashMap.update, Intended.answer]
  rcases find_spec represents.valid k with ⟨e, c, found, inside, here, matching⟩ | ⟨found, absent⟩
  · obtain ⟨after, written, holds, cap, count⟩ := overwrite_represents represents here matching v
    refine ⟨after, cells.set e { c with val := v }, ?_, ?_, cap, count⟩
    · rw [found, Stop.ok_bind, if_neg inside, written, represents.found here matching]
      rfl
    · simp only [represents.found here matching]
      exact holds
  · refine ⟨{ map with dropped.vals := v :: map.dropped.vals }, cells, ?_, ?_, rfl, rfl⟩
    · rw [found, Stop.ok_bind, if_pos rfl, represents.missing absent]
      rfl
    · simp only [represents.missing absent]
      refine ⟨⟨represents.valid.toStored, represents.valid.indexed, represents.valid.fits, represents.valid.large,
        represents.valid.spare⟩, represents.lookup, represents.live, represents.count, represents.keys, ?_⟩
      rw [← represents.vals, Multiset.cons_coe]
      exact Multiset.coe_eq_coe.mpr (by simp [List.perm_middle])

def Intended.nothing (key : LawfulKey K) : Intended K V key := { entries := ∅, keys := 0, vals := 0 }

theorem new_answers (key : LawfulKey K) (room : Nat → Bool) :
    (∃ map : HashMap K V, HashMap.new room = .ok map ∧ Represents key map (Intended.nothing key) [] ∧ Bounded 0 map) ∨
      ∃ stop, (HashMap.new room : Except Stop (HashMap K V)) = .error stop ∧ Excused room 0 stop := by
  have stored : Stored key (columns ([] : List (Cell K V))) [] := by
    refine ⟨rfl, ?_, ?_⟩
    · intro i c here
      cases here
    · intro i j c d here
      cases here
  by_cases allocated : room 0 ∧ ArrayBuf.wordsFit 8
  · obtain ⟨map, done, holds, cap, count⟩ := @rebuild_represents K V key
      { toEntries := columns [], slots := [], cap := 0, count := 0, dropped := { keys := [], vals := [] }, asked := 0 }
      [] room (Intended.nothing key) _ rfl stored (fun k v => by simp [Intended.nothing]) rfl rfl rfl rfl 8 (Nat.le_refl 8)
      (Nat.zero_le _) allocated
    exact .inl ⟨map, done, holds, Nat.le_of_eq count, Nat.le_of_eq cap⟩
  · refine .inr ⟨.outOfMemory, ?_, excused_of_refused allocated (Nat.le_refl 8)⟩
    rw [HashMap.new, rebuild, allocate, if_neg allocated]
    rfl

theorem perform_answers (represents : Represents key map intended cells) {made : Nat} (bounded : Bounded made map)
    (call : HashMapCall K V) :
    (∃ next, HashMap.perform key room map call = .ok ((intended.answer call).1, next) ∧
        (∃ cells', Represents key next (intended.answer call).2 cells') ∧ Bounded (made + 1) next) ∨
      ∃ stop, HashMap.perform key room map call = .error stop ∧ Excused room (made + 1) stop := by
  have more : Bounded (made + 1) map := ⟨by have := bounded.count; omega, by have := bounded.cap; omega⟩
  cases call with
  | map call =>
    cases call with
    | insert k v =>
      rcases insert_answers represents bounded k v with ⟨after, cells', done, kept, within⟩ | ⟨stop, failed, excuse⟩
      · exact .inl ⟨after, by rw [HashMap.perform, done]; rfl, ⟨cells', kept⟩, within⟩
      · exact .inr ⟨stop, by rw [HashMap.perform, failed]; rfl, excuse⟩
    | remove k =>
      obtain ⟨after, cells', done, kept, cap, count⟩ := remove_answers represents k
      refine .inl ⟨after, by rw [HashMap.perform, done]; rfl, ⟨cells', kept⟩, count.trans more.count, ?_⟩
      rw [cap]
      exact more.cap
    | get k => exact .inl ⟨map, by rw [HashMap.perform, get_answers represents]; rfl, ⟨cells, represents⟩, more⟩
    | contains k => exact .inl ⟨map, by rw [HashMap.perform, contains_answers represents]; rfl, ⟨cells, represents⟩, more⟩
    | len =>
      refine .inl ⟨map, ?_, ⟨cells, represents⟩, more⟩
      rw [Intended.answer, ← represents.count]
      rfl
  | update k v =>
    obtain ⟨after, cells', done, kept, cap, count⟩ := update_answers represents k v
    refine .inl ⟨after, by rw [HashMap.perform, done]; rfl, ⟨cells', kept⟩, ?_, ?_⟩
    · rw [count]
      exact more.count
    · rw [cap]
      exact more.cap

/-- Every run on a new map gives the answers of the finite map, and every key and
value moved in is in one cell or dropped, unless memory is refused. -/
theorem hashMap_refines (key : LawfulKey K) (room : Nat → Bool) (calls : List (HashMapCall K V)) :
    (∃ map cells, (do performAll (HashMap.perform key room) (← HashMap.new room) calls) =
          .ok ((answerAll Intended.answer (Intended.nothing key) calls).1, map) ∧
        Represents key map (answerAll Intended.answer (Intended.nothing key) calls).2 cells) ∨
      ∃ stop, (do performAll (HashMap.perform key room) (← HashMap.new room) calls) = .error stop ∧
        Excused room calls.length stop := by
  rcases @new_answers K V key room with ⟨map, created, empty, bounded⟩ | ⟨stop, failed, excuse⟩
  · rw [created]
    have runs := performAll_refines (HashMap.perform key room) Intended.answer
      (fun made state model => (∃ cells, Represents key state model cells) ∧ Bounded made state) (Excused room)
      (fun made state model call both => perform_answers both.1.choose_spec both.2 call) Excused.later ⟨⟨_, empty⟩, bounded⟩ calls
    rw [Nat.zero_add] at runs
    rcases runs with ⟨final, done, ⟨cells, kept⟩, _⟩ | failed
    · exact .inl ⟨final, cells, done, kept⟩
    · exact .inr failed
  · exact .inr ⟨stop, by rw [failed]; rfl, excuse.later (Nat.zero_le _)⟩

end HashMap

end Rue.Proofs.Collections
