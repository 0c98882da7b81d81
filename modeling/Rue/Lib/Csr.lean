import Mathlib.Logic.Function.Basic
import Mathlib.Data.List.Basic

/-! Compressed rows: the values of every key laid out one row after another in
a flat table. Rows are counted, summed into bounds, and filled by cursors. -/

namespace Rue.Lib.Csr

/-- A fixed-size table, as a function of the index. -/
abbrev Table := Nat → Nat

/-- The values filed under a key, in the order they are filed. -/
def row (edges : List (Nat × Nat)) (key : Nat) : List Nat :=
  (edges.filter fun edge => edge.1 = key).map Prod.snd

/-- Count each key's edges one place above the key. -/
def counts (edges : List (Nat × Nat)) : Table :=
  edges.foldl (fun table edge => Function.update table (edge.1 + 1) (table (edge.1 + 1) + 1)) fun _ => 0

/-- Add each entry to the next one, up to entry `keys`. -/
def prefixSums (keys : Nat) (table : Table) : Table :=
  (List.range keys).foldl (fun table key => Function.update table (key + 1) (table (key + 1) + table key)) table

/-- Write each value at its key's cursor and advance the cursor. -/
def fill (edges : List (Nat × Nat)) (cursors values : Table) : Table × Table :=
  edges.foldl
    (fun (cursors, values) edge =>
      (Function.update cursors edge.1 (cursors edge.1 + 1), Function.update values (cursors edge.1) edge.2))
    (cursors, values)

/-- The values between two bounds of a flat table. -/
def slice (values : Table) (start stop : Nat) : List Nat :=
  (List.range' start (stop - start)).map values

/-- The number of edges filed under smaller keys. -/
def bound (edges : List (Nat × Nat)) (key : Nat) : Nat := edges.countP fun edge => edge.1 < key

@[simp] theorem length_row (edges : List (Nat × Nat)) (key : Nat) :
    (row edges key).length = edges.countP fun edge => edge.1 = key := by
  simp [row, List.countP_eq_length_filter]

theorem row_append (first second : List (Nat × Nat)) (key : Nat) :
    row (first ++ second) key = row first key ++ row second key := by
  simp [row]

theorem bound_succ (edges : List (Nat × Nat)) (key : Nat) :
    bound edges (key + 1) = bound edges key + (row edges key).length := by
  simp only [bound, length_row]
  induction edges with
  | nil => rfl
  | cons edge edges ih =>
    simp only [List.countP_cons, ih, decide_eq_true_eq]
    split <;> split <;> split <;> omega

theorem bound_mono (edges : List (Nat × Nat)) {first second : Nat} (ordered : first ≤ second) :
    bound edges first ≤ bound edges second := by
  refine List.countP_mono_left fun edge _ below => ?_
  simp only [decide_eq_true_eq] at *
  omega

private theorem counts_eq (edges : List (Nat × Nat)) (table : Table) (index : Nat) :
    edges.foldl (fun table edge => Function.update table (edge.1 + 1) (table (edge.1 + 1) + 1)) table index =
      table index + edges.countP fun edge => edge.1 + 1 = index := by
  induction edges generalizing table with
  | nil => rfl
  | cons edge edges ih =>
    simp only [List.foldl_cons, ih, List.countP_cons, decide_eq_true_eq]
    by_cases same : edge.1 + 1 = index
    · subst same
      simp only [Function.update_self, ite_true]
      omega
    · simp only [Function.update_of_ne (Ne.symm same), same, ite_false]
      omega

theorem counts_congr {first second : List (Nat × Nat)} (same : first.map Prod.fst = second.map Prod.fst) :
    counts first = counts second := by
  have keys : ∀ edges : List (Nat × Nat), counts edges =
      (edges.map Prod.fst).foldl (fun table key => Function.update table (key + 1) (table (key + 1) + 1)) fun _ => 0 := by
    intro edges
    rw [List.foldl_map]
    rfl
  rw [keys, keys, same]

private theorem prefixSums_above (keys : Nat) (table : Table) {index : Nat} (above : keys < index) :
    prefixSums keys table index = table index := by
  induction keys with
  | zero => rfl
  | succ keys ih =>
    have previous := ih (by omega)
    simp only [prefixSums, List.range_succ, List.foldl_append, List.foldl_cons, List.foldl_nil] at previous ⊢
    rw [Function.update_of_ne (by omega), previous]

theorem prefixSums_outside {edges : List (Nat × Nat)} {keys : Nat} (inside : ∀ edge ∈ edges, edge.1 < keys) {key : Nat}
    (outside : keys ≤ key) : prefixSums keys (counts edges) (key + 1) = 0 := by
  rw [prefixSums_above keys _ (Nat.lt_succ_of_le outside), counts, counts_eq, Nat.zero_add, List.countP_eq_zero]
  intro edge member
  have := inside edge member
  simp only [decide_eq_true_eq]
  omega

private theorem prefixSums_succ (keys : Nat) (table : Table) :
    prefixSums (keys + 1) table =
      Function.update (prefixSums keys table) (keys + 1) (table (keys + 1) + prefixSums keys table keys) := by
  have untouched := prefixSums_above keys table (Nat.lt_succ_self keys)
  simp only [prefixSums, List.range_succ, List.foldl_append, List.foldl_cons, List.foldl_nil] at untouched ⊢
  rw [untouched]

/-- Summing the counts gives every row's first position. -/
theorem prefixSums_counts (edges : List (Nat × Nat)) (keys : Nat) :
    ∀ key ≤ keys, prefixSums keys (counts edges) key = bound edges key := by
  have counted : ∀ index, counts edges (index + 1) = (row edges index).length := by
    intro index
    simp [counts, counts_eq]
  induction keys with
  | zero =>
    intro key inside
    obtain rfl : key = 0 := by omega
    simp [prefixSums, counts, counts_eq, bound]
  | succ keys ih =>
    intro key inside
    rw [prefixSums_succ]
    by_cases last : key = keys + 1
    · subst last
      rw [Function.update_self, ih keys (Nat.le_refl _), counted, bound_succ]
      omega
    · rw [Function.update_of_ne last]
      exact ih key (by omega)

/-- After filling, every cursor stands at the end of its row and every row holds
its key's values. The induction is on the edges already filed. -/
theorem fill_rows {edges : List (Nat × Nat)} {keys : Nat} (inside : ∀ edge ∈ edges, edge.1 < keys)
    (filed rest : List (Nat × Nat)) (whole : edges = filed ++ rest) (cursors values : Table)
    (standing : ∀ key < keys, cursors key = bound edges key + (row filed key).length)
    (held : ∀ key < keys, ∀ position < (row filed key).length,
      values (bound edges key + position) = (row filed key)[position]?.getD 0) :
    (∀ key < keys, (fill rest cursors values).1 key = bound edges (key + 1)) ∧
    ∀ key < keys, ∀ position < (row edges key).length,
      (fill rest cursors values).2 (bound edges key + position) = (row edges key)[position]?.getD 0 := by
  induction rest generalizing filed cursors values with
  | nil =>
    rw [List.append_nil] at whole
    subst whole
    exact ⟨fun key named => by rw [bound_succ]; exact standing key named, held⟩
  | cons edge rest ih =>
    obtain ⟨key, value⟩ := edge
    have whole' : edges = (filed ++ [(key, value)]) ++ rest := by simp [whole]
    have named : key < keys := inside (key, value) (by simp [whole])
    have grown : ∀ other, row (filed ++ [(key, value)]) other =
        if other = key then row filed key ++ [value] else row filed other := by
      intro other
      by_cases same : other = key
      · subst same
        simp [row]
      · simp [row, same, Ne.symm same]
    -- The edge still to be filed leaves room in its own row.
    have room : ∀ other, (row (filed ++ [(key, value)]) other).length ≤ (row edges other).length := by
      intro other
      rw [whole', row_append (filed ++ [(key, value)]), List.length_append]
      omega
    have own := room key
    rw [grown, if_pos rfl, List.length_append, List.length_singleton] at own
    apply ih (filed ++ [(key, value)]) whole'
    · intro other otherNamed
      rw [grown]
      by_cases same : other = key
      · subst same
        simp only [Function.update_self, ite_true, List.length_append, List.length_singleton, standing other named]
        omega
      · simp only [Function.update_of_ne same, same, ite_false, standing other otherNamed]
    · intro other otherNamed position stored
      have fits : position < (row edges other).length := Nat.lt_of_lt_of_le stored (room other)
      rw [grown] at stored ⊢
      rw [standing key named]
      by_cases same : other = key
      · subst same
        simp only [ite_true, List.length_append, List.length_singleton] at stored ⊢
        by_cases newest : position = (row filed other).length
        · subst newest
          rw [Function.update_self, List.getElem?_concat_length, Option.getD_some]
        · rw [Function.update_of_ne (by omega), List.getElem?_append_left (by omega)]
          exact held other named position (by omega)
      · simp only [same, ite_false] at stored ⊢
        rw [Function.update_of_ne ?_]
        · exact held other otherNamed position stored
        have firstEnd := bound_succ edges key
        have secondEnd := bound_succ edges other
        rcases Nat.lt_or_gt_of_ne same with below | above
        · have := bound_mono edges (show other + 1 ≤ key from below)
          omega
        · have := bound_mono edges (show key + 1 ≤ other from above)
          omega

/-- Filling from the summed bounds lays every row out between its bounds. -/
theorem slice_fill {edges : List (Nat × Nat)} {keys : Nat} (inside : ∀ edge ∈ edges, edge.1 < keys)
    (cursors values : Table) (start : ∀ key < keys, cursors key = bound edges key) {key : Nat} (named : key < keys) :
    slice (fill edges cursors values).2 (bound edges key) (bound edges (key + 1)) = row edges key := by
  have rows := (fill_rows inside [] edges rfl cursors values (by simpa [row] using start) (by simp [row])).2 key named
  apply List.ext_getElem (by simp [slice, bound_succ])
  intro position _ found
  simp only [slice, List.getElem_map, List.getElem_range', Nat.one_mul, rows position found]
  rw [List.getElem?_eq_getElem found, Option.getD_some]

end Rue.Lib.Csr
