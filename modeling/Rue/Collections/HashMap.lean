import Rue.Collections.ArrayBuf
import Rue.Lib.Probing

/-! The generic hash map: dense entry arrays and a separate table of entry
numbers. A removed entry stays in the arrays until a rebuild leaves it behind. -/

namespace Rue.Collections

/-- A key type that keeps the promises of the bound. -/
structure LawfulKey (K : Type) where
  hash : K → Nat
  equals : K → K → Bool
  refl : ∀ a, equals a a
  symm : ∀ {a b}, equals a b → equals b a
  trans : ∀ {a b c}, equals a b → equals b c → equals a c
  respects : ∀ {a b}, equals a b → hash a = hash b

def LawfulKey.setoid {K : Type} (key : LawfulKey K) : Setoid K where
  r a b := key.equals a b
  iseqv := ⟨key.refl, key.symm, key.trans⟩

abbrev LawfulKey.Class {K : Type} (key : LawfulKey K) : Type := Quotient key.setoid

def LawfulKey.classOf {K : Type} (key : LawfulKey K) (k : K) : key.Class := Quotient.mk key.setoid k

instance {K : Type} (key : LawfulKey K) : DecidableEq key.Class :=
  @Quotient.decidableEq K key.setoid fun a b => inferInstanceAs (Decidable (key.equals a b = true))

namespace HashMap

structure Entries (K V : Type) where
  keys : List K
  vals : List V
  hashes : List Nat
  live : List Bool

/-- The keys and values whose owner has dropped them. -/
structure Dropped (K V : Type) where
  keys : List K
  vals : List V

variable {K V : Type}

/-- Every entry leaves the old arrays from their end; the live ones move into the
new arrays, the dead ones are dropped. -/
def drain (old new : Entries K V) (dropped : Dropped K V) : Entries K V × Dropped K V :=
  let alive := ArrayBuf.popOr old.live false
  let h := ArrayBuf.popOr old.hashes 0
  let v := ArrayBuf.pop old.vals
  match _taken : ArrayBuf.pop old.keys with
  | (some k, keys) =>
    let rest : Entries K V := { keys, vals := v.2, hashes := h.2, live := alive.2 }
    if alive.1 then
      let vals := match v.1 with
        | some x => new.vals ++ [x]
        | none => new.vals
      drain rest { keys := new.keys ++ [k], vals, hashes := new.hashes ++ [h.1], live := new.live ++ [true] } dropped
    else drain rest new { keys := k :: dropped.keys, vals := v.1.toList ++ dropped.vals }
  | (none, _) => (new, dropped)
termination_by old.keys.length
decreasing_by all_goals exact ArrayBuf.length_of_pop _taken

/-- The first free slot from the home of an entry takes the entry's number. The
probing loop has no bound in the source; no tries left stands for not ending. -/
def link (cap h e : Nat) (slots : List Nat) : Except Stop (List Nat) :=
  match Lib.search cap (fun idx => ArrayBuf.getOr slots idx 0 = 0) cap (h % cap) with
  | none => .error .endless
  | some idx => ArrayBuf.set slots idx (e + 1)

end HashMap

structure HashMap (K V : Type) extends HashMap.Entries K V where
  slots : List Nat
  cap : Nat
  count : Nat
  -- What has been dropped, and how often memory was asked for, so far.
  dropped : HashMap.Dropped K V
  asked : Nat

namespace HashMap

variable {K V : Type}

section

-- The allocator's answer to each request.
variable (key : LawfulKey K) (room : Nat → Bool)

def allocate (map : HashMap K V) (cells : Nat) : Except Stop (HashMap K V) :=
  if room map.asked ∧ ArrayBuf.wordsFit cells then .ok { map with asked := map.asked + 1 } else .error .outOfMemory

def rebuild (map : HashMap K V) (newCap : Nat) : Except Stop (HashMap K V) := do
  let map ← map.allocate room newCap
  let (entries, dropped) := drain map.toEntries { keys := [], vals := [], hashes := [], live := [] } map.dropped
  let slots ← (List.range entries.keys.length).foldlM
    (fun slots e => link newCap (ArrayBuf.getOr entries.hashes e 0) e slots) (List.replicate newCap 0)
  return { map with toEntries := entries, slots, cap := newCap, dropped }

def new : Except Stop (HashMap K V) :=
  rebuild room { keys := [], vals := [], hashes := [], live := [], slots := [], cap := 0, count := 0,
                 dropped := { keys := [], vals := [] }, asked := 0 } 8

def len (map : HashMap K V) : Nat := map.count

def findLoop (map : HashMap K V) (k : K) (h : Nat) : Nat → Nat → Except Stop Nat
  | 0, _ => .ok map.cap
  | probes + 1, idx =>
    let s := ArrayBuf.getOr map.slots idx 0
    if s = 0 then .ok map.cap
    else
      let e := s - 1
      if ArrayBuf.getOr map.live e false ∧ ArrayBuf.getOr map.hashes e 0 = h then
        match map.keys[e]? with
        | none => .error .outOfBounds
        | some stored =>
          if key.equals stored k then .ok e else findLoop map k h probes ((idx + 1) % map.cap)
      else findLoop map k h probes ((idx + 1) % map.cap)

def find (map : HashMap K V) (k : K) (h : Nat) : Except Stop Nat := map.findLoop key k h map.cap (h % map.cap)

/-- The value of an entry replaced; the old one is dropped. -/
def overwrite (map : HashMap K V) (e : Nat) (v : V) : Except Stop (HashMap K V) := do
  let vals ← ArrayBuf.set map.vals e v
  return { map with vals, dropped.vals := map.vals[e]?.toList ++ map.dropped.vals }

def threshold (cap : Nat) : Nat := cap / 10 * 7 + cap % 10 * 7 / 10

/-- A rebuild if one more entry, live or dead, is too many for the table. -/
def makeRoom (map : HashMap K V) : Except Stop (HashMap K V) :=
  if map.keys.length + 1 > threshold map.cap then
    if (map.count + 1) * 2 > threshold map.cap then
      if map.cap > 2 ^ 63 - 1 then .error .outOfMemory else map.rebuild room (map.cap * 2)
    else map.rebuild room map.cap
  else .ok map

def append (map : HashMap K V) (k : K) (v : V) (h : Nat) : Except Stop (HashMap K V) := do
  let slots ← link map.cap h map.keys.length map.slots
  let map ← map.allocate room (map.keys.length + 1)
  return { map with
    slots
    keys := map.keys ++ [k]
    vals := map.vals ++ [v]
    hashes := map.hashes ++ [h]
    live := map.live ++ [true]
    count := map.count + 1 }

def insert (map : HashMap K V) (k : K) (v : V) : Except Stop (HashMap K V) := do
  let h := key.hash k
  let e ← map.find key k h
  if e ≠ map.cap then do
    let map ← map.overwrite e v
    return { map with dropped.keys := k :: map.dropped.keys }
  else if map.keys.length = 2 ^ 64 - 1 then .error .outOfMemory
  else do
    let map ← map.makeRoom room
    map.append room k v h

def update (map : HashMap K V) (k : K) (v : V) : Except Stop (Bool × HashMap K V) := do
  let e ← map.find key k (key.hash k)
  if e = map.cap then return (false, { map with dropped.vals := v :: map.dropped.vals })
  else return (true, ← map.overwrite e v)

def get (map : HashMap K V) (k : K) : Except Stop (Option V) := do
  let e ← map.find key k (key.hash k)
  if e = map.cap then return none else return map.vals[e]?

def contains (map : HashMap K V) (k : K) : Except Stop Bool := do
  let e ← map.find key k (key.hash k)
  return e ≠ map.cap

def remove (map : HashMap K V) (k : K) : Except Stop (Bool × HashMap K V) := do
  let e ← map.find key k (key.hash k)
  if e = map.cap then return (false, map)
  else do
    let live ← ArrayBuf.set map.live e false
    if map.count = 0 then .error .overflow else return (true, { map with live, count := map.count - 1 })

end

end HashMap

inductive HashMapCall (K V : Type) where
  | map (call : MapCall K V)
  | update (k : K) (v : V)

def HashMap.perform {K V : Type} (key : LawfulKey K) (room : Nat → Bool) (map : HashMap K V) :
    HashMapCall K V → Except Stop (MapAnswer V × HashMap K V)
  | .map (.insert k v) => do return (.done, ← map.insert key room k v)
  | .map (.remove k) => do
    let (present, map) ← map.remove key k
    return (.flag present, map)
  | .map (.get k) => do return (.found (← map.get key k), map)
  | .map (.contains k) => do return (.flag (← map.contains key k), map)
  | .map .len => return (.length map.len, map)
  | .update k v => do
    let (present, map) ← map.update key k v
    return (.flag present, map)

/-- What a map is for, over keys up to equality, with all the keys and values
that were moved into it. -/
structure HashMap.Intended (K V : Type) (key : LawfulKey K) where
  entries : Finmap fun _ : key.Class => V
  keys : Multiset K
  vals : Multiset V

def HashMap.Intended.answer {K V : Type} {key : LawfulKey K} (map : HashMap.Intended K V key) :
    HashMapCall K V → MapAnswer V × HashMap.Intended K V key
  | .map (.insert k v) =>
    (.done, { entries := map.entries.insert (key.classOf k) v, keys := k ::ₘ map.keys, vals := v ::ₘ map.vals })
  | .map (.remove k) =>
    (.flag (map.entries.lookup (key.classOf k)).isSome, { map with entries := map.entries.erase (key.classOf k) })
  | .map (.get k) => (.found (map.entries.lookup (key.classOf k)), map)
  | .map (.contains k) => (.flag (map.entries.lookup (key.classOf k)).isSome, map)
  | .map .len => (.length map.entries.keys.card, map)
  | .update k v =>
    let present := (map.entries.lookup (key.classOf k)).isSome
    let entries := if present then map.entries.insert (key.classOf k) v else map.entries
    (.flag present, { map with entries, vals := v ::ₘ map.vals })

end Rue.Collections
