import Rue.Collections.IntMap

/-! The integer-keyed map against the finite map of the same calls. Every entry
is reached from its home over slots that were never emptied, so one turn of
probing decides whether a key is there, also when no slot is empty. -/

namespace Rue.Proofs.Collections

open Rue.Collections Rue.Lib

namespace IntMap
open Rue.Collections.IntMap

theorem checkedI64_ok {value : Int} (low : -2 ^ 63 ≤ value) (high : value < 2 ^ 63) : checkedI64 value = .ok value :=
  if_pos ⟨low, high⟩

theorem keyBits_ok (k : I64) : ∃ bits, keyBits k = .ok bits := by
  have low := k.property.1
  have high := k.property.2
  unfold keyBits intCastU64
  split
  next positive => exact ⟨_, if_pos ⟨positive, by omega⟩⟩
  next negative =>
    rw [checkedI64_ok (by omega) (by omega)]
    simp only [Stop.ok_bind]
    rw [checkedI64_ok (by omega) (by omega)]
    simp only [Stop.ok_bind]
    rw [if_pos (by omega)]
    exact ⟨_, rfl⟩

/-- The hash of a key, which no key fails to have. -/
def code (k : I64) : Nat := (IntMap.hash k).toOption.getD 0

theorem hash_eq (k : I64) : IntMap.hash k = .ok (code k) := by
  obtain ⟨bits, same⟩ := keyBits_ok k
  rw [code, IntMap.hash, same]
  rfl

variable {V : Type} {slots : Slots V} {cap : Nat} {k : I64} {v : V} {i : Nat}

def At (slots : Slots V) (k : I64) (i : Nat) : Prop := slots.stateAt i = .occupied ∧ slots.keyAt i = k

instance : Decidable (At slots k i) := inferInstanceAs (Decidable (_ ∧ _))

def Taken (slots : Slots V) (i : Nat) : Prop := slots.stateAt i ≠ .empty

def Entry (slots : Slots V) (k : I64) (v : V) : Prop := ∃ i, At slots k i ∧ slots.vals[i]? = some v

/-- The arrays have one length, a key lives in one slot, and probing from the
key's home gets there. -/
structure Valid (slots : Slots V) (cap : Nat) : Prop where
  keys : slots.keys.length = cap
  vals : slots.vals.length = cap
  states : slots.states.length = cap
  unique : ∀ k i j, At slots k i → At slots k j → i = j
  chain : ∀ k i, At slots k i → Reaches cap (Taken slots) (code k % cap) i

theorem Valid.inside (valid : Valid slots cap) (taken : Taken slots i) : i < cap := by
  by_contra outside
  apply taken
  rw [Slots.stateAt, ArrayBuf.getOr, List.getD_eq_getElem?_getD, List.getElem?_eq_none (by have := valid.states; omega)]
  rfl

theorem At.taken (here : At slots k i) : Taken slots i := by
  rw [Taken, here.1]
  decide

def live (slots : Slots V) (cap : Nat) : Finset Nat := {i ∈ Finset.range cap | slots.stateAt i = .occupied}

theorem mem_live (valid : Valid slots cap) : i ∈ live slots cap ↔ slots.stateAt i = .occupied := by
  rw [live, Finset.mem_filter, Finset.mem_range]
  refine ⟨fun both => both.2, fun here => ⟨valid.inside (i := i) ?_, here⟩⟩
  exact At.taken ⟨here, rfl⟩

theorem At.entry (valid : Valid slots cap) (here : At slots k i) : ∃ v, slots.vals[i]? = some v := by
  have inside : i < slots.vals.length := by
    rw [valid.vals]
    exact valid.inside here.taken
  exact ⟨_, List.getElem?_eq_getElem inside⟩

def write (slots : Slots V) (i : Nat) (k : I64) (v : V) : Slots V where
  keys := slots.keys.set i k
  vals := slots.vals.set i v
  states := slots.states.set i .occupied

theorem put_ok (valid : Valid slots cap) (inside : i < cap) : slots.put i k v = .ok (write slots i k v) := by
  rw [Slots.put, ArrayBuf.set_ok (by rw [valid.keys]; exact inside), ArrayBuf.set_ok (by rw [valid.vals]; exact inside),
    ArrayBuf.set_ok (by rw [valid.states]; exact inside)]
  rfl

theorem stateAt_write (valid : Valid slots cap) (inside : i < cap) (j : Nat) :
    (write slots i k v).stateAt j = if j = i then .occupied else slots.stateAt j :=
  ArrayBuf.getOr_set (by rw [valid.states]; exact inside)

theorem keyAt_write (valid : Valid slots cap) (inside : i < cap) (j : Nat) :
    (write slots i k v).keyAt j = if j = i then k else slots.keyAt j :=
  ArrayBuf.getOr_set (by rw [valid.keys]; exact inside)

theorem at_write (valid : Valid slots cap) (inside : i < cap) {other : I64} {j : Nat} :
    At (write slots i k v) other j ↔ if j = i then other = k else At slots other j := by
  rw [At, stateAt_write valid inside, keyAt_write valid inside]
  split
  · exact ⟨fun both => both.2.symm, fun same => ⟨rfl, same.symm⟩⟩
  · exact Iff.rfl

theorem taken_write (valid : Valid slots cap) (inside : i < cap) {j : Nat} (taken : Taken slots j) :
    Taken (write slots i k v) j := by
  rw [Taken, stateAt_write valid inside]
  split
  · decide
  · exact taken

/-- A new key written to a reached slot that has no entry. -/
theorem write_valid (valid : Valid slots cap) (inside : i < cap) (free : slots.stateAt i ≠ .occupied)
    (reaches : Reaches cap (Taken slots) (code k % cap) i) (absent : ∀ j, ¬ At slots k j) :
    Valid (write slots i k v) cap ∧
      ∀ other value, Entry (write slots i k v) other value ↔ if other = k then value = v else Entry slots other value := by
  refine ⟨⟨?_, ?_, ?_, ?_, ?_⟩, ?_⟩
  · exact (List.length_set ..).trans valid.keys
  · exact (List.length_set ..).trans valid.vals
  · exact (List.length_set ..).trans valid.states
  · intro other j l here there
    rw [at_write valid inside] at here there
    split at here
    next first =>
      subst here
      split at there
      next second => rw [first, second]
      next => exact absurd there (absent l)
    next =>
      split at there
      next =>
        subst there
        exact absurd here (absent j)
      next => exact valid.unique other j l here there
  · intro other j here
    rw [at_write valid inside] at here
    split at here
    next same =>
      rw [here, same]
      exact reaches.mono fun slot => taken_write valid inside
    next => exact (valid.chain other j here).mono fun slot => taken_write valid inside
  · intro other value
    have value_at : ∀ j, (write slots i k v).vals[j]? = if i = j then some v else slots.vals[j]? := by
      intro j
      simp only [write, List.getElem?_set, valid.vals, if_pos inside]
    constructor
    · rintro ⟨j, here, stored⟩
      rw [at_write valid inside] at here
      rw [value_at] at stored
      split at here
      next same =>
        rw [if_pos here]
        rw [if_pos same.symm] at stored
        exact (Option.some.inj stored).symm
      next different =>
        rw [if_neg (Ne.symm different)] at stored
        have other_key : other ≠ k := by
          rintro rfl
          exact absent j here
        rw [if_neg other_key]
        exact ⟨j, here, stored⟩
    · intro entry
      split at entry
      next same =>
        refine ⟨i, (at_write valid inside).mpr ?_, ?_⟩
        · rw [if_pos rfl]
          exact same
        · rw [value_at, if_pos rfl, entry]
      next different =>
        obtain ⟨j, here, stored⟩ := entry
        have elsewhere : j ≠ i := fun same => free (same ▸ here.1)
        refine ⟨j, (at_write valid inside).mpr ?_, ?_⟩
        · rw [if_neg elsewhere]
          exact here
        · rw [value_at, if_neg (Ne.symm elsewhere)]
          exact stored

/-- A slot without an entry, as long as there are fewer entries than slots. -/
theorem exists_free (fewer : (live slots cap).card < cap) : ∃ i < cap, slots.stateAt i ≠ .occupied := by
  by_contra full
  push Not at full
  have all : live slots cap = Finset.range cap := by
    rw [live, Finset.filter_true_of_mem]
    intro i inside
    exact full i (Finset.mem_range.mp inside)
  rw [all, Finset.card_range] at fewer
  exact Nat.lt_irrefl _ fewer

theorem live_write (valid : Valid slots cap) (inside : i < cap) :
    (live (write slots i k v) cap).card ≤ (live slots cap).card + 1 := by
  refine (Finset.card_le_card (t := insert i (live slots cap)) ?_).trans (Finset.card_insert_le _ _)
  intro j member
  rw [live, Finset.mem_filter, stateAt_write valid inside] at member
  obtain ⟨within, here⟩ := member
  split at here
  next same => exact Finset.mem_insert.mpr (.inl same)
  next => exact Finset.mem_insert_of_mem (Finset.mem_filter.mpr ⟨within, here⟩)

theorem fresh_at (newCap : Nat) (filler : V) : ¬ At (Slots.fresh newCap filler) k i := by
  rintro ⟨occupied, _⟩
  simp only [Slots.stateAt, Slots.fresh, ArrayBuf.getOr, List.getD_eq_getElem?_getD, List.getElem?_replicate] at occupied
  split at occupied
  · cases occupied
  · cases occupied

theorem fresh_valid (newCap : Nat) (filler : V) : Valid (Slots.fresh newCap filler) newCap where
  keys := List.length_replicate
  vals := List.length_replicate
  states := List.length_replicate
  unique _ _ _ here := absurd here (fresh_at newCap filler)
  chain _ _ here := absurd here (fresh_at newCap filler)

/-- What the entries before a slot of the old table have become. -/
structure Moved (old : Slots V) (newCap j : Nat) (new : Slots V) : Prop where
  valid : Valid new newCap
  entries : ∀ k v, Entry new k v ↔ ∃ i < j, At old k i ∧ old.vals[i]? = some v
  few : (live new newCap).card ≤ j

theorem rehash_moves {old new : Slots V} {newCap j : Nat} (filler : V) (valid : Valid old cap) (within : j < cap)
    (larger : cap ≤ newCap) (moved : Moved old newCap j new) :
    ∃ next, Slots.rehash newCap filler old new j = .ok next ∧ Moved old newCap (j + 1) next := by
  rw [Slots.rehash]
  split
  next occupied =>
    have here : At old (old.keyAt j) j := ⟨occupied, rfl⟩
    obtain ⟨v, stored⟩ := here.entry valid
    have positive : 0 < newCap := by omega
    obtain ⟨free, inside, empty⟩ := exists_free (Nat.lt_of_le_of_lt moved.few (by omega))
    obtain ⟨target, found, targetInside, stops⟩ :=
      @search_finds newCap _ (fun idx => new.stateAt idx ≠ .occupied) free inside (by simpa using empty)
        (Nat.mod_lt (code (old.keyAt j)) positive)
    have absent : ∀ i, ¬ At new (old.keyAt j) i := by
      intro i there
      obtain ⟨value, held⟩ := there.entry moved.valid
      obtain ⟨first, before, same, _⟩ := (moved.entries _ _).mp ⟨i, there, held⟩
      exact absurd (valid.unique _ _ _ same here) (by omega)
    have reaches : Reaches newCap (Taken new) (code (old.keyAt j) % newCap) target := by
      refine reaches_of_search (Nat.mod_lt _ positive) ?_ found
      intro slot goesOn
      rw [Taken]
      intro empty
      simp [empty] at goesOn
    have unoccupied : new.stateAt target ≠ .occupied := by simpa using stops
    obtain ⟨kept, entries⟩ := write_valid (v := v) moved.valid targetInside unoccupied reaches absent
    refine ⟨write new target (old.keyAt j) v, ?_, kept, ?_, ?_⟩
    · simp only [hash_eq, Stop.ok_bind, found]
      rw [put_ok moved.valid targetInside, ArrayBuf.getOr, List.getD_eq_getElem?_getD, stored]
      rfl
    · intro k value
      rw [entries]
      split
      next same =>
        constructor
        · intro equal
          refine ⟨j, Nat.lt_succ_self j, same ▸ here, equal ▸ stored⟩
        · rintro ⟨i, _, there, held⟩
          have equal := valid.unique _ _ _ (same ▸ there) here
          rw [equal, stored] at held
          exact (Option.some.inj held).symm
      next different =>
        rw [moved.entries]
        constructor
        · rintro ⟨i, before, there, held⟩
          exact ⟨i, by omega, there, held⟩
        · rintro ⟨i, before, there, held⟩
          refine ⟨i, ?_, there, held⟩
          have : i ≠ j := by
            rintro rfl
            exact different there.2.symm
          omega
    · exact (live_write moved.valid targetInside).trans (Nat.succ_le_succ moved.few)
  next unoccupied =>
    refine ⟨new, rfl, moved.valid, ?_, moved.few.trans (Nat.le_succ j)⟩
    intro k value
    rw [moved.entries]
    constructor
    · rintro ⟨i, before, there, held⟩
      exact ⟨i, by omega, there, held⟩
    · rintro ⟨i, before, there, held⟩
      refine ⟨i, ?_, there, held⟩
      have : i ≠ j := by
        rintro rfl
        exact unoccupied there.1
      omega

theorem rehash_all {old : Slots V} {newCap : Nat} (filler : V) (valid : Valid old cap) (larger : cap ≤ newCap) :
    ∃ new, (List.range cap).foldlM (Slots.rehash newCap filler old) (Slots.fresh newCap filler) = .ok new ∧
      Moved old newCap cap new := by
  have upTo : ∀ j ≤ cap, ∃ new, (List.range j).foldlM (Slots.rehash newCap filler old) (Slots.fresh newCap filler) = .ok new ∧
      Moved old newCap j new := by
    intro j
    induction j with
    | zero =>
      intro _
      refine ⟨_, rfl, fresh_valid newCap filler, ?_, ?_⟩
      · intro k v
        constructor
        · rintro ⟨i, here, _⟩
          exact absurd here (fresh_at newCap filler)
        · rintro ⟨i, before, _⟩
          omega
      · rw [Nat.le_zero, Finset.card_eq_zero, Finset.eq_empty_iff_forall_notMem]
        intro i member
        exact fresh_at newCap filler ⟨(mem_live (fresh_valid newCap filler)).mp member, rfl⟩
    | succ j ih =>
      intro within
      obtain ⟨new, folded, moved⟩ := ih (by omega)
      obtain ⟨next, stepped, further⟩ := rehash_moves filler valid (by omega) larger moved
      refine ⟨next, ?_, further⟩
      rw [List.range_succ, List.foldlM_append, folded]
      simp only [Stop.ok_bind, List.foldlM_cons, List.foldlM_nil, stepped]
      rfl
  exact upTo cap (Nat.le_refl _)

/-- The map holds exactly the entries of a finite map, and no counter can
overflow. -/
structure Represents (map : IntMap V) (entries : Finmap fun _ : I64 => V) : Prop where
  valid : Valid map.toSlots map.cap
  fits : ArrayBuf.wordsFit map.cap
  lookup : ∀ k v, entries.lookup k = some v ↔ Entry map.toSlots k v
  count : map.count = entries.keys.card
  spare : map.count < map.cap

variable {map : IntMap V} {entries : Finmap fun _ : I64 => V} {room : Nat → Bool}

theorem live_card (valid : Valid slots cap) (lookup : ∀ k v, entries.lookup k = some v ↔ Entry slots k v) :
    (live slots cap).card = entries.keys.card := by
  have image : (live slots cap).image slots.keyAt = entries.keys := by
    ext k
    rw [Finset.mem_image, Finmap.mem_keys, Finmap.mem_iff]
    constructor
    · rintro ⟨i, member, here⟩
      have there : At slots k i := ⟨(mem_live valid).mp member, here⟩
      obtain ⟨v, stored⟩ := there.entry valid
      exact ⟨v, (lookup k v).mpr ⟨i, there, stored⟩⟩
    · rintro ⟨v, found⟩
      obtain ⟨i, here, _⟩ := (lookup k v).mp found
      exact ⟨i, (mem_live valid).mpr here.1, here.2⟩
  rw [← image, Finset.card_image_of_injOn]
  intro i member j other same
  exact valid.unique _ i j ⟨(mem_live valid).mp member, rfl⟩ ⟨(mem_live valid).mp other, same.symm⟩

theorem Represents.free (represents : Represents map entries) : ∃ i < map.cap, map.stateAt i ≠ .occupied := by
  apply exists_free
  rw [live_card represents.valid represents.lookup, ← represents.count]
  exact represents.spare

theorem Represents.present (represents : Represents map entries) (here : At map.toSlots k i)
    (stored : map.vals[i]? = some v) : entries.lookup k = some v := (represents.lookup k v).mpr ⟨i, here, stored⟩

theorem growTo_represents {newCap : Nat} (valid : Valid map.toSlots map.cap)
    (lookup : ∀ k v, entries.lookup k = some v ↔ Entry map.toSlots k v) (count : map.count = entries.keys.card)
    (larger : map.cap ≤ newCap) (spare : map.count < newCap) (allocated : room newCap ∧ ArrayBuf.wordsFit newCap) :
    ∃ grown, map.growTo room newCap = .ok grown ∧ Represents grown entries ∧ grown.cap = newCap ∧ grown.count = map.count := by
  obtain ⟨new, folded, moved⟩ := rehash_all map.filler valid larger
  refine ⟨{ map with toSlots := new, cap := newCap }, ?_, ⟨moved.valid, allocated.2, ?_, count, spare⟩, rfl, rfl⟩
  · rw [growTo, if_pos allocated, folded]
    rfl
  · intro k v
    rw [lookup, moved.entries]
    constructor
    · rintro ⟨i, here, stored⟩
      exact ⟨i, valid.inside here.taken, here, stored⟩
    · rintro ⟨i, _, here, stored⟩
      exact ⟨i, here, stored⟩

theorem slot_eq : map.slot k = .ok (code k % map.cap) := by
  rw [slot, hash_eq]
  rfl

/-- What ends the probing for a key. -/
def ends (slots : Slots V) (k : I64) (i : Nat) : Bool := slots.stateAt i = .empty ∨ At slots k i

/-- One turn finds the entry of a key or shows that there is none. -/
theorem search_key (valid : Valid slots cap) (positive : 0 < cap) (k : I64) :
    (∃ i, search cap (ends slots k) cap (code k % cap) = some i ∧ At slots k i) ∨
      ((∀ i, ¬ At slots k i) ∧ ∀ i, search cap (ends slots k) cap (code k % cap) = some i → slots.stateAt i = .empty) := by
  by_cases present : ∃ i, At slots k i
  · obtain ⟨i, here⟩ := present
    have start := Nat.mod_lt (code k) positive
    obtain ⟨found, same, _, stops⟩ := @search_finds cap _ (ends slots k) i (valid.inside here.taken) (by simp [ends, here]) start
    refine .inl ⟨found, same, ?_⟩
    rcases (by simpa [ends] using stops : slots.stateAt found = .empty ∨ At slots k found) with empty | there
    · rw [← probe_zero start] at same
      obtain ⟨reached, _, _, rfl, _, clear⟩ := search_eq_some same
      obtain ⟨steps, before, again⟩ := (valid.chain k i here).before_free (not_not.mpr empty) here.taken
      have goesOn := clear steps before (Nat.zero_le _)
      rw [again] at goesOn
      simp [ends, here] at goesOn
    · exact there
  · push Not at present
    refine .inr ⟨present, ?_⟩
    intro i same
    rw [← probe_zero (Nat.mod_lt (code k) positive)] at same
    obtain ⟨_, _, _, _, stops, _⟩ := search_eq_some same
    rcases (by simpa [ends] using stops : slots.stateAt i = .empty ∨ At slots k i) with empty | here
    · exact empty
    · exact absurd here (present i)

theorem getLoop_eq (k : I64) (probes idx : Nat) : map.getLoop k probes idx =
    (search map.cap (ends map.toSlots k) probes idx).bind fun i =>
      if map.stateAt i = .empty then none else some (ArrayBuf.getOr map.vals i map.filler) := by
  induction probes generalizing idx with
  | zero => rfl
  | succ probes ih =>
    rw [getLoop, search]
    split
    next empty => simp [ends, empty]
    next occupied =>
      split
      next same => simp [ends, At, occupied, same]
      next different => simp [ends, At, occupied, different, ih]
    next tombstone => simp [ends, At, tombstone, ih]

theorem get_answers (represents : Represents map entries) (k : I64) : map.get k = .ok (entries.lookup k) := by
  have positive : 0 < map.cap := Nat.zero_lt_of_lt represents.spare
  simp only [IntMap.get, slot_eq, Stop.ok_bind, Stop.pure_eq, getLoop_eq]
  rcases search_key represents.valid positive k with ⟨i, found, here⟩ | ⟨absent, empty⟩
  · obtain ⟨v, stored⟩ := here.entry represents.valid
    rw [found, represents.present here stored]
    simp [here.1, ArrayBuf.getOr, List.getD_eq_getElem?_getD, stored]
  · have missing : entries.lookup k = none := by
      cases found : entries.lookup k with
      | none => rfl
      | some v =>
        obtain ⟨i, here, _⟩ := (represents.lookup k v).mp found
        exact absurd here (absent i)
    rw [missing]
    cases outcome : search map.cap (ends map.toSlots k) map.cap (code k % map.cap) with
    | none => rfl
    | some i => simp [empty i outcome]

theorem contains_answers (represents : Represents map entries) (k : I64) :
    map.contains k = .ok (entries.lookup k).isSome := by
  rw [contains, get_answers represents]
  rfl

theorem removeLoop_eq (k : I64) (probes idx : Nat) : map.removeLoop k probes idx =
    match search map.cap (ends map.toSlots k) probes idx with
    | none => .ok (false, map)
    | some i =>
      if map.stateAt i = .empty then .ok (false, map)
      else do
        let states ← ArrayBuf.set map.states i .tombstone
        if map.count = 0 then .error .overflow else return (true, { map with states, count := map.count - 1 }) := by
  induction probes generalizing idx with
  | zero => rfl
  | succ probes ih =>
    rw [removeLoop, search]
    split
    next empty => simp [ends, empty]
    next occupied =>
      split
      next same => simp [ends, At, occupied, same]
      next different => simp [ends, At, occupied, different, ih]
    next tombstone => simp [ends, At, tombstone, ih]

def bury (slots : Slots V) (i : Nat) : Slots V := { slots with states := slots.states.set i .tombstone }

theorem bury_valid (valid : Valid slots cap) (here : At slots k i) :
    Valid (bury slots i) cap ∧
      ∀ other value, Entry (bury slots i) other value ↔ other ≠ k ∧ Entry slots other value := by
  have inside : i < slots.states.length := by
    rw [valid.states]
    exact valid.inside here.taken
  have state : ∀ j, (bury slots i).stateAt j = if j = i then .tombstone else slots.stateAt j :=
    fun j => ArrayBuf.getOr_set inside
  have at_iff : ∀ other j, At (bury slots i) other j ↔ j ≠ i ∧ At slots other j := by
    intro other j
    rw [At, state]
    split
    next same => simp [same]
    next different => simp [different, At, bury, Slots.keyAt]
  have taken : ∀ j, Taken slots j → Taken (bury slots i) j := by
    intro j held
    rw [Taken, state]
    split
    · decide
    · exact held
  refine ⟨⟨valid.keys, valid.vals, (List.length_set ..).trans valid.states, ?_, ?_⟩, ?_⟩
  · intro other j l first second
    exact valid.unique other j l ((at_iff _ _).mp first).2 ((at_iff _ _).mp second).2
  · intro other j there
    exact (valid.chain other j ((at_iff _ _).mp there).2).mono taken
  · intro other value
    constructor
    · rintro ⟨j, there, stored⟩
      obtain ⟨elsewhere, before⟩ := (at_iff _ _).mp there
      refine ⟨?_, j, before, stored⟩
      rintro rfl
      exact elsewhere (valid.unique _ _ _ before here)
    · rintro ⟨different, j, there, stored⟩
      refine ⟨j, (at_iff _ _).mpr ⟨?_, there⟩, stored⟩
      rintro rfl
      exact different (there.2.symm.trans here.2)

theorem remove_answers (represents : Represents map entries) (k : I64) :
    ∃ after, map.remove k = .ok ((entries.lookup k).isSome, after) ∧ Represents after (entries.erase k) ∧
      after.cap = map.cap ∧ after.count ≤ map.count := by
  have positive : 0 < map.cap := Nat.zero_lt_of_lt represents.spare
  simp only [IntMap.remove, slot_eq, Stop.ok_bind, Stop.pure_eq, removeLoop_eq]
  rcases search_key represents.valid positive k with ⟨i, found, here⟩ | ⟨absent, empty⟩
  · obtain ⟨v, stored⟩ := here.entry represents.valid
    have lookup := represents.present here stored
    have member : k ∈ entries.keys := Finmap.mem_keys.mpr (Finmap.mem_of_lookup_eq_some lookup)
    have some' : 0 < map.count := by
      rw [represents.count]
      exact Finset.card_pos.mpr ⟨k, member⟩
    have inside : i < map.states.length := by
      rw [represents.valid.states]
      exact represents.valid.inside here.taken
    obtain ⟨valid, kept⟩ := bury_valid represents.valid here
    refine ⟨{ map with toSlots := bury map.toSlots i, count := map.count - 1 }, ?_, ⟨valid, represents.fits, ?_, ?_, ?_⟩, rfl, Nat.sub_le ..⟩
    · simp only [found, here.1, ArrayBuf.set_ok inside, lookup, Stop.ok_bind, if_neg (Nat.ne_of_gt some')]
      rfl
    · intro other value
      rw [kept, ← represents.lookup]
      by_cases same : other = k
      · rw [same, Finmap.lookup_erase k entries]
        simp
      · rw [Finmap.lookup_erase_ne same]
        simp [same]
    · change map.count - 1 = _
      rw [Finmap.keys_erase, Finset.card_erase_of_mem member, represents.count]
    · exact Nat.lt_of_le_of_lt (Nat.sub_le ..) represents.spare
  · have missing : entries.lookup k = none := by
      cases found : entries.lookup k with
      | none => rfl
      | some v =>
        obtain ⟨i, here, _⟩ := (represents.lookup k v).mp found
        exact absurd here (absent i)
    have unchanged : entries.erase k = entries := by
      refine Finmap.ext_lookup fun other => ?_
      by_cases same : other = k
      · rw [same, Finmap.lookup_erase, missing]
      · exact Finmap.lookup_erase_ne same
    refine ⟨map, ?_, unchanged.symm ▸ represents, rfl, Nat.le_refl _⟩
    rw [missing]
    cases outcome : search map.cap (ends map.toSlots k) map.cap (code k % map.cap) with
    | none => rfl
    | some i => simp [empty i outcome]

theorem overwrite_valid (valid : Valid slots cap) (here : At slots k i) :
    Valid { slots with vals := slots.vals.set i v } cap ∧
      ∀ other value, Entry { slots with vals := slots.vals.set i v } other value ↔
        if other = k then value = v else Entry slots other value := by
  have inside : i < slots.vals.length := by
    rw [valid.vals]
    exact valid.inside here.taken
  refine ⟨⟨valid.keys, (List.length_set ..).trans valid.vals, valid.states, valid.unique, valid.chain⟩, ?_⟩
  intro other value
  constructor
  · rintro ⟨j, there, stored⟩
    rw [List.getElem?_set] at stored
    split at stored
    next same =>
      have equal : other = k := (there.2.symm.trans (same ▸ rfl)).trans here.2
      rw [if_pos equal]
      exact (Option.some.inj stored).symm
    next different =>
      have other_key : other ≠ k := by
        rintro rfl
        exact different (valid.unique _ _ _ here there)
      rw [if_neg other_key]
      exact ⟨j, there, stored⟩
  · intro entry
    split at entry
    next same =>
      refine ⟨i, same ▸ here, ?_⟩
      rw [List.getElem?_set_self inside, entry]
    next different =>
      obtain ⟨j, there, stored⟩ := entry
      refine ⟨j, there, ?_⟩
      rw [List.getElem?_set_ne]
      · exact stored
      · rintro rfl
        exact different (there.2.symm.trans here.2)

/-- The loop either meets the key or knows, when it stops, a reached slot without
an entry; the first removed entry it passed is one. -/
theorem insertLoop_finds (valid : Valid map.toSlots map.cap) (spare : ∃ i < map.cap, map.stateAt i ≠ .occupied) (k : I64) (v : V)
    (probes steps firstTomb : Nat) (turn : steps + probes = map.cap)
    (passed : ∀ earlier < steps, Taken map.toSlots (probe map.cap (code k % map.cap) earlier) ∧
      ¬ At map.toSlots k (probe map.cap (code k % map.cap) earlier))
    (tomb : (firstTomb = map.cap ∧ ∀ earlier < steps, map.stateAt (probe map.cap (code k % map.cap) earlier) = .occupied) ∨
      ∃ earlier < steps, probe map.cap (code k % map.cap) earlier = firstTomb ∧ map.stateAt firstTomb = .tombstone) :
    (∃ i, At map.toSlots k i ∧
        map.insertLoop k v probes (probe map.cap (code k % map.cap) steps) firstTomb =
          .ok { map with vals := map.vals.set i v }) ∨
      (∀ i, ¬ At map.toSlots k i) ∧ ∃ target < map.cap, map.stateAt target ≠ .occupied ∧
        Reaches map.cap (Taken map.toSlots) (code k % map.cap) target ∧
        map.insertLoop k v probes (probe map.cap (code k % map.cap) steps) firstTomb = map.place target k v := by
  have positive : 0 < map.cap := by
    obtain ⟨i, inside, _⟩ := spare
    omega
  have reaches : ∀ earlier < map.cap, earlier ≤ steps →
      Reaches map.cap (Taken map.toSlots) (code k % map.cap) (probe map.cap (code k % map.cap) earlier) :=
    fun earlier inside before => ⟨earlier, inside, rfl, fun first less => (passed first (by omega)).1⟩
  induction probes generalizing steps firstTomb with
  | zero =>
    right
    constructor
    · intro i here
      obtain ⟨earlier, within, rfl⟩ := @exists_probe map.cap (code k % map.cap) i (valid.inside here.taken)
      exact (passed earlier (by omega)).2 here
    · rcases tomb with ⟨_, full⟩ | ⟨earlier, before, here, buried⟩
      · obtain ⟨i, inside, free⟩ := spare
        obtain ⟨earlier, within, rfl⟩ := @exists_probe map.cap (code k % map.cap) i inside
        exact absurd (full earlier (by omega)) free
      · subst here
        refine ⟨_, probe_lt positive, ?_, reaches earlier (by omega) (by omega), rfl⟩
        rw [buried]
        decide
  | succ probes ih =>
    rw [IntMap.insertLoop]
    split
    next empty =>
      right
      constructor
      · intro i here
        obtain ⟨earlier, before, rfl⟩ := (valid.chain k i here).before_free (not_not.mpr empty) here.taken
        exact (passed earlier before).2 here
      · rcases tomb with ⟨none', _⟩ | ⟨earlier, before, here, buried⟩
        · refine ⟨_, probe_lt positive, ?_, reaches steps (by omega) (Nat.le_refl _), ?_⟩
          · rw [empty]
            decide
          · rw [if_neg (by omega)]
        · subst here
          refine ⟨_, probe_lt positive, ?_, reaches earlier (by omega) (by omega), ?_⟩
          · rw [buried]
            decide
          · rw [if_pos (probe_lt positive)]
    next occupied =>
      split
      next same =>
        have here : At map.toSlots k (probe map.cap (code k % map.cap) steps) := ⟨occupied, same⟩
        refine .inl ⟨_, here, ?_⟩
        rw [ArrayBuf.set_ok (by rw [valid.vals]; exact valid.inside here.taken)]
        rfl
      next different =>
        have further : ∀ earlier < steps + 1, Taken map.toSlots (probe map.cap (code k % map.cap) earlier) ∧
            ¬ At map.toSlots k (probe map.cap (code k % map.cap) earlier) := by
          intro earlier before
          rcases Nat.lt_or_eq_of_le (Nat.le_of_lt_succ before) with less | rfl
          · exact passed earlier less
          · exact ⟨At.taken ⟨occupied, rfl⟩, fun here => different here.2⟩
        rw [probe_succ]
        refine ih (steps + 1) firstTomb (by omega) further ?_ ?_
        · rcases tomb with ⟨none', full⟩ | ⟨earlier, before, here⟩
          · refine .inl ⟨none', fun earlier before => ?_⟩
            rcases Nat.lt_or_eq_of_le (Nat.le_of_lt_succ before) with less | rfl
            · exact full earlier less
            · exact occupied
          · exact .inr ⟨earlier, by omega, here⟩
        · exact fun earlier inside before => ⟨earlier, inside, rfl, fun first less => (further first (by omega)).1⟩
    next tombstone =>
      have further : ∀ earlier < steps + 1, Taken map.toSlots (probe map.cap (code k % map.cap) earlier) ∧
          ¬ At map.toSlots k (probe map.cap (code k % map.cap) earlier) := by
        intro earlier before
        rcases Nat.lt_or_eq_of_le (Nat.le_of_lt_succ before) with less | rfl
        · exact passed earlier less
        · constructor
          · rw [Taken, tombstone]
            decide
          · intro here
            rw [At, tombstone] at here
            cases here.1
      rw [probe_succ]
      refine ih (steps + 1) _ (by omega) further (.inr ?_) ?_
      · rcases tomb with ⟨none', _⟩ | ⟨earlier, before, here, buried⟩
        · rw [if_pos (by omega)]
          exact ⟨steps, by omega, rfl, tombstone⟩
        · subst here
          rw [if_neg (Nat.not_le.mpr (probe_lt positive))]
          exact ⟨earlier, by omega, rfl, buried⟩
      · exact fun earlier inside before => ⟨earlier, inside, rfl, fun first less => (further first (by omega)).1⟩

theorem insert_represents (represents : Represents map entries) (room' : map.count + 1 < map.cap) (k : I64) (v : V) :
    ∃ after, map.insertLoop k v map.cap (code k % map.cap) map.cap = .ok after ∧ Represents after (entries.insert k v) ∧
      after.cap = map.cap ∧ after.count ≤ map.count + 1 := by
  have positive : 0 < map.cap := by omega
  have lookup_insert : ∀ other value, (entries.insert k v).lookup other = some value ↔
      if other = k then value = v else Entry map.toSlots other value := by
    intro other value
    split
    next same =>
      rw [same, Finmap.lookup_insert entries]
      exact ⟨fun equal => (Option.some.inj equal).symm, fun equal => congrArg some equal.symm⟩
    next different => rw [Finmap.lookup_insert_of_ne entries different, represents.lookup]
  have keys_insert : (entries.insert k v).keys = insert k entries.keys := by
    ext other
    simp [Finmap.mem_keys, Finmap.mem_insert]
  have outcome := insertLoop_finds represents.valid represents.free k v map.cap 0 map.cap (Nat.zero_add _)
    (fun earlier before => absurd before (Nat.not_lt_zero _)) (.inl ⟨rfl, fun earlier before => absurd before (Nat.not_lt_zero _)⟩)
  rw [probe_zero (Nat.mod_lt _ positive)] at outcome
  rcases outcome with ⟨i, here, done⟩ | ⟨absent, target, inside, free, reaches, done⟩
  · obtain ⟨valid, same⟩ := @overwrite_valid _ _ _ _ v _ represents.valid here
    refine ⟨_, done, ⟨valid, represents.fits, fun other value => (lookup_insert other value).trans (same other value).symm, ?_, represents.spare⟩,
      rfl, Nat.le_succ _⟩
    obtain ⟨old, stored⟩ := here.entry represents.valid
    have member : k ∈ entries.keys := Finmap.mem_keys.mpr (Finmap.mem_of_lookup_eq_some (represents.present here stored))
    rw [keys_insert, Finset.insert_eq_of_mem member]
    exact represents.count
  · obtain ⟨valid, same⟩ := @write_valid _ _ _ _ v _ represents.valid inside free reaches absent
    refine ⟨{ map with toSlots := write map.toSlots target k v, count := map.count + 1 }, ?_,
      ⟨valid, represents.fits, fun other value => (lookup_insert other value).trans (same other value).symm, ?_, room'⟩, rfl, Nat.le_refl _⟩
    · rw [done, place, put_ok represents.valid inside]
      rfl
    · have missing : k ∉ entries.keys := by
        rw [Finmap.mem_keys, Finmap.mem_iff]
        rintro ⟨value, found⟩
        obtain ⟨i, here, _⟩ := (represents.lookup k value).mp found
        exact absent i here
      rw [keys_insert, Finset.card_insert_of_notMem missing]
      exact congrArg (· + 1) represents.count

/-- The size of a table against the calls made so far. -/
structure Bounded (made : Nat) (map : IntMap V) : Prop where
  count : map.count ≤ made
  cap : map.cap ≤ 3 * made + 8

theorem growTo_answers {newCap : Nat} (valid : Valid map.toSlots map.cap)
    (lookup : ∀ k v, entries.lookup k = some v ↔ Entry map.toSlots k v) (count : map.count = entries.keys.card)
    (larger : map.cap ≤ newCap) (spare : map.count < newCap) {made : Nat} (small : newCap ≤ 3 * made + 8) :
    (∃ grown, map.growTo room newCap = .ok grown ∧ Represents grown entries ∧ grown.cap = newCap ∧ grown.count = map.count) ∨
      ∃ stop, map.growTo room newCap = .error stop ∧ Excused room made stop := by
  by_cases allocated : room newCap ∧ ArrayBuf.wordsFit newCap
  · exact .inl (growTo_represents valid lookup count larger spare allocated)
  · refine .inr ⟨.outOfMemory, if_neg allocated, rfl, ?_⟩
    by_cases refused : room newCap
    · right
      have large : ¬ newCap ≤ (2 ^ 64 - 1) / 8 := fun fits => allocated ⟨refused, decide_eq_true fits⟩
      omega
    · exact .inl ⟨newCap, by simpa using refused⟩

theorem insert_answers {made : Nat} (represents : Represents map entries) (bounded : Bounded made map) (k : I64) (v : V) :
    (∃ after, map.insert room k v = .ok after ∧ Represents after (entries.insert k v) ∧ Bounded (made + 1) after) ∨
      ∃ stop, map.insert room k v = .error stop ∧ Excused room (made + 1) stop := by
  have fits : map.cap ≤ (2 ^ 64 - 1) / 8 := of_decide_eq_true represents.fits
  have spare := represents.spare
  obtain ⟨few, small⟩ := bounded
  rw [IntMap.insert, if_neg (by omega)]
  split
  next full =>
    rw [threshold] at full
    rw [if_neg (by omega)]
    rcases @growTo_answers V map entries room (map.cap * 2) represents.valid represents.lookup represents.count (by omega) (by omega)
      (made + 1) (by omega) with ⟨grown, done, kept, cap, count⟩ | ⟨stop, failed, excuse⟩
    · obtain ⟨after, inserted, holds, sameCap, counted⟩ := insert_represents kept (by omega) k v
      refine .inl ⟨after, ?_, holds, by omega, by omega⟩
      rw [done]
      simp only [Stop.ok_bind, slot_eq]
      exact inserted
    · exact .inr ⟨stop, by rw [failed]; rfl, excuse⟩
  next low =>
    rw [threshold] at low
    obtain ⟨after, inserted, holds, sameCap, counted⟩ := insert_represents represents (by omega) k v
    refine .inl ⟨after, ?_, holds, by omega, by omega⟩
    simp only [Stop.ok_bind, slot_eq]
    exact inserted

theorem new_answers (room : Nat → Bool) (filler : V) :
    (∃ map, IntMap.new room filler = .ok map ∧ Represents map ∅ ∧ Bounded 0 map) ∨
      ∃ stop, IntMap.new room filler = .error stop ∧ Excused room 0 stop := by
  let none' : IntMap V := { keys := [], vals := [], states := [], count := 0, cap := 0, filler }
  have nowhere : ∀ k i, ¬ At none'.toSlots k i := fun k i here => by cases here.1
  have valid : Valid none'.toSlots none'.cap :=
    ⟨rfl, rfl, rfl, fun k i _ here => absurd here (nowhere k i), fun k i here => absurd here (nowhere k i)⟩
  have lookup : ∀ k v, (∅ : Finmap fun _ : I64 => V).lookup k = some v ↔ Entry none'.toSlots k v := by
    intro k v
    rw [Finmap.lookup_empty]
    exact ⟨nofun, fun ⟨i, here, _⟩ => absurd here (nowhere k i)⟩
  have allocates := @growTo_answers V none' ∅ room 8 valid lookup rfl (Nat.zero_le _) (Nat.zero_lt_succ _) 0 (Nat.le_refl _)
  rcases allocates with ⟨grown, done, kept, cap, count⟩ | failed
  · exact .inl ⟨grown, done, kept, Nat.le_of_eq count, Nat.le_of_eq cap⟩
  · exact .inr failed

theorem perform_answers {made : Nat} (represents : Represents map entries) (bounded : Bounded made map)
    (call : MapCall I64 V) :
    (∃ next, IntMap.perform room map call = .ok ((Finite.answer entries call).1, next) ∧
        Represents next (Finite.answer entries call).2 ∧ Bounded (made + 1) next) ∨
      ∃ stop, IntMap.perform room map call = .error stop ∧ Excused room (made + 1) stop := by
  have more : Bounded (made + 1) map := ⟨by have := bounded.count; omega, by have := bounded.cap; omega⟩
  cases call with
  | insert k v =>
    rcases insert_answers represents bounded k v with ⟨after, done, kept⟩ | ⟨stop, failed, excuse⟩
    · exact .inl ⟨after, by rw [IntMap.perform, done]; rfl, kept⟩
    · exact .inr ⟨stop, by rw [IntMap.perform, failed]; rfl, excuse⟩
  | remove k =>
    obtain ⟨after, done, kept, cap, count⟩ := remove_answers represents k
    refine .inl ⟨after, by rw [IntMap.perform, done]; rfl, kept, ?_, ?_⟩
    · exact count.trans more.count
    · rw [cap]
      exact more.cap
  | get k => exact .inl ⟨map, by rw [IntMap.perform, get_answers represents]; rfl, represents, more⟩
  | contains k => exact .inl ⟨map, by rw [IntMap.perform, contains_answers represents]; rfl, represents, more⟩
  | len =>
    refine .inl ⟨map, ?_, represents, more⟩
    rw [Finite.answer, ← represents.count]
    rfl

/-- Every run on a new map gives the answers of the finite map, with one slot for
each key, unless memory is refused. -/
theorem intMap_refines (room : Nat → Bool) (filler : V) (calls : List (MapCall I64 V)) :
    (∃ map, (do performAll (IntMap.perform room) (← IntMap.new room filler) calls) =
          .ok ((answerAll Finite.answer ∅ calls).1, map) ∧
        Represents map (answerAll Finite.answer ∅ calls).2) ∨
      ∃ stop, (do performAll (IntMap.perform room) (← IntMap.new room filler) calls) = .error stop ∧
        Excused room calls.length stop := by
  rcases new_answers room filler with ⟨map, created, empty, bounded⟩ | ⟨stop, failed, reason, refused | many⟩
  · rw [created]
    have runs := performAll_refines (IntMap.perform room) Finite.answer
      (fun made state model => Represents state model ∧ Bounded made state) (Excused room)
      (fun made state model call both => perform_answers both.1 both.2 call) Excused.later ⟨empty, bounded⟩ calls
    rw [Nat.zero_add] at runs
    rcases runs with ⟨final, done, kept, _⟩ | failed
    · exact .inl ⟨final, done, kept⟩
    · exact .inr failed
  · exact .inr ⟨stop, by rw [failed]; rfl, reason, .inl refused⟩
  · omega

end IntMap

end Rue.Proofs.Collections
