import Rue.Lib.Utf8

/-! The number a scalar encodes, and the parts of a text that encode none: each is
taken as far as it could have begun a scalar. -/

namespace Rue.Lib.Utf8

/-- The bits of a first byte, and six more of every further byte. -/
def code : List UInt8 → Nat
  | [] => 0
  | a :: rest =>
    rest.foldl (fun cp b => cp * 64 + b.toNat % 64) (if rest = [] then a.toNat else a.toNat % 2 ^ (6 - rest.length))

theorem code_encode (c : Char) : code (String.utf8EncodeChar c) = c.val.toNat := by
  have valid : c.val.toNat < 0xD800 ∨ 0xDFFF < c.val.toNat ∧ c.val.toNat < 0x110000 := c.valid
  have byte : ∀ n : Nat, n < 256 → (UInt8.ofNat n).toNat = n := by
    intro n small
    rw [UInt8.toNat_ofNat']
    exact Nat.mod_eq_of_lt small
  rw [String.utf8EncodeChar]
  generalize c.val.toNat = v at valid
  split
  next => simp only [code, List.foldl_nil, if_true, byte v (by omega)]
  next =>
    split
    next =>
      simp only [code, List.foldl_cons, List.foldl_nil, List.length_cons, List.length_nil, reduceCtorEq, if_false,
        byte (v / 64 % 32 + 192) (by omega), byte (v % 64 + 128) (by omega)]
      omega
    next =>
      split
      next =>
        simp only [code, List.foldl_cons, List.foldl_nil, List.length_cons, List.length_nil, reduceCtorEq, if_false,
          byte (v / 4096 % 16 + 224) (by omega), byte (v / 64 % 64 + 128) (by omega), byte (v % 64 + 128) (by omega)]
        omega
      next =>
        simp only [code, List.foldl_cons, List.foldl_nil, List.length_cons, List.length_nil, reduceCtorEq, if_false,
          byte (v / 262144 % 8 + 240) (by omega), byte (v / 4096 % 64 + 128) (by omega),
          byte (v / 64 % 64 + 128) (by omega), byte (v % 64 + 128) (by omega)]
        omega

theorem replacement_eq : String.utf8EncodeChar (Char.ofNat 0xFFFD) = replacement := by decide

def Begun (piece : List UInt8) : Prop := ∃ c : Char, piece <+: String.utf8EncodeChar c

/-- The front of a text that begins with no character, as far as it could have
begun one; one byte if it could not at all. -/
structure MaximalSubpart (piece bytes : List UInt8) : Prop where
  inside : piece <+: bytes
  some : piece ≠ []
  ill : ∀ c : Char, ¬String.utf8EncodeChar c <+: bytes
  begun : piece.length = 1 ∨ Begun piece
  longest : ∀ longer, longer <+: bytes → Begun longer → longer.length ≤ piece.length

/-- The characters of a text, with a replacement for each part that is none. -/
inductive Replaced : List UInt8 → List Char → Prop where
  | nil : Replaced [] []
  | char {c rest chars} (replaced : Replaced rest chars) : Replaced (String.utf8EncodeChar c ++ rest) (c :: chars)
  | broken {piece rest chars} (subpart : MaximalSubpart piece (piece ++ rest)) (replaced : Replaced rest chars) :
      Replaced (piece ++ rest) (Char.ofNat 0xFFFD :: chars)

section Subparts
variable {tests : List (UInt8 → Bool)} {bytes : List UInt8} {count n k : Nat}

theorem followers_inhabited {first : UInt8} (allowed : followers first = some tests) : ∀ test ∈ tests, ∃ b, test b := by
  have byte : ∀ low high, low ≤ high → high < 256 → ∃ b, between low high b := by
    intro low high order small
    refine ⟨UInt8.ofNat low, between_iff.mpr ?_⟩
    rw [UInt8.toNat_ofNat', Nat.mod_eq_of_lt (by omega)]
    exact ⟨Nat.le_refl _, order⟩
  have tail := byte 0x80 0xBF (by omega) (by omega)
  simp only [followers] at allowed
  intro test member
  split at allowed
  next => cases allowed; cases member
  next =>
    split at allowed
    next => cases allowed
    next =>
      split at allowed
      next =>
        cases allowed
        rw [List.mem_singleton.mp member]
        exact tail
      next =>
        split at allowed
        next =>
          cases allowed
          rcases List.mem_cons.mp member with rfl | member
          · exact byte _ _ (by split <;> split <;> omega) (by split <;> omega)
          · rw [List.mem_singleton.mp member]
            exact tail
        next =>
          split at allowed
          next =>
            cases allowed
            rcases List.mem_cons.mp member with rfl | member
            · exact byte _ _ (by split <;> split <;> omega) (by split <;> omega)
            · rcases List.mem_cons.mp member with rfl | member
              · exact tail
              · rw [List.mem_singleton.mp member]
                exact tail
          next => cases allowed

theorem follow_completes (inhabited : ∀ test ∈ tests, ∃ b, test b) (read : follow tests bytes count = .incomplete) :
    ∃ more, follow tests (bytes ++ more) count = .scalar (count + (bytes ++ more).length) := by
  induction tests generalizing bytes count with
  | nil => cases read
  | cons test tests ih =>
    have others : ∀ test ∈ tests, ∃ b, test b := fun test member => inhabited test (List.mem_cons_of_mem _ member)
    have further : ∀ b (rest : List UInt8), test b → (∃ more, follow tests (rest ++ more) (count + 1) =
        .scalar (count + 1 + (rest ++ more).length)) → ∃ more, follow (test :: tests) (b :: rest ++ more) count =
          .scalar (count + (b :: rest ++ more).length) := by
      rintro b rest passed ⟨more, done⟩
      refine ⟨more, ?_⟩
      rw [List.cons_append, follow, if_pos passed, done, List.length_cons]
      congr 1
      omega
    cases bytes with
    | nil =>
      obtain ⟨b, passed⟩ := inhabited test List.mem_cons_self
      have rest : ∃ more, follow tests ([] ++ more) (count + 1) = .scalar (count + 1 + ([] ++ more : List UInt8).length) := by
        cases tests with
        | nil => exact ⟨[], rfl⟩
        | cons next tests => exact ih others rfl
      obtain ⟨more, done⟩ := further b [] passed rest
      exact ⟨b :: more, done⟩
    | cons b rest =>
      rw [follow] at read
      split at read
      next passed => exact further b rest passed (ih others read)
      next => cases read

theorem follow_illFormed_take (read : follow tests bytes count = .illFormed n) (more : n < count + k) :
    follow tests (bytes.take k) count = .illFormed n := by
  induction tests generalizing bytes count k with
  | nil => cases read
  | cons test tests ih =>
    cases bytes with
    | nil => cases read
    | cons b rest =>
      have low := (follow_illFormed read).1
      cases k with
      | zero => omega
      | succ k =>
        rw [follow] at read
        rw [List.take_succ_cons, follow]
        split at read
        next passed =>
          rw [if_pos passed]
          exact ih read (by omega)
        next failed =>
          rw [if_neg failed]
          exact read

theorem follow_illFormed_before (read : follow tests bytes count = .illFormed n) :
    follow tests (bytes.take (n - count)) count = .incomplete := by
  induction tests generalizing bytes count with
  | nil => cases read
  | cons test tests ih =>
    cases bytes with
    | nil => cases read
    | cons b rest =>
      rw [follow] at read
      split at read
      next passed =>
        have low := (follow_illFormed read).1
        have turn : n - count = n - (count + 1) + 1 := by omega
        rw [turn, List.take_succ_cons, follow, if_pos passed]
        exact ih read
      next =>
        cases read
        rw [Nat.sub_self]
        rfl

theorem begun_of_incomplete (read : scan bytes = .incomplete) : Begun bytes := by
  cases bytes with
  | nil => cases read
  | cons first rest =>
    rw [scan] at read
    split at read
    next => cases read
    next tests allowed =>
      obtain ⟨more, done⟩ := follow_completes (followers_inhabited allowed) read
      have whole : scan (first :: rest ++ more) = .scalar (first :: rest ++ more).length := by
        rw [List.cons_append, scan, allowed]
        refine done.trans ?_
        rw [List.length_cons, Nat.add_comm]
      obtain ⟨c, encoded⟩ := (scalar_of_scan whole).encoded
      rw [List.take_length] at encoded
      exact ⟨c, more, encoded.symm⟩

/-- Reading the beginning of a character never fails. -/
theorem scan_of_begun (begun : Begun bytes) : ∀ n, scan bytes ≠ .illFormed n := by
  obtain ⟨c, more, encoded⟩ := begun
  intro n read
  have same := @scan_append bytes more (by rw [read]; exact nofun) (by rw [read]; exact nofun)
  have whole := (encoded_scalar c).scan []
  rw [List.append_nil, ← encoded, same, read] at whole
  cases whole

theorem scan_of_char {c : Char} (front : String.utf8EncodeChar c <+: bytes) : scan bytes = .scalar (String.utf8EncodeChar c).length := by
  obtain ⟨more, whole⟩ := front
  rw [← whole]
  exact (encoded_scalar c).scan more

theorem maximal_of_illFormed (read : scan bytes = .illFormed n) : MaximalSubpart (bytes.take n) bytes := by
  obtain ⟨positive, within⟩ := scan_illFormed read
  have length : (bytes.take n).length = n := by
    rw [List.length_take]
    omega
  refine ⟨List.take_prefix n bytes, ?_, fun c front => ?_, ?_, fun longer front begun => ?_⟩
  · intro empty
    rw [empty] at length
    exact absurd length (Nat.ne_of_lt positive)
  · rw [scan_of_char front] at read
    cases read
  · rw [length]
    cases bytes with
    | nil => cases read
    | cons first rest =>
      rw [scan] at read
      split at read
      next =>
        cases read
        exact .inl rfl
      next tests allowed =>
        refine .inr (begun_of_incomplete ?_)
        have before := follow_illFormed_before read
        have count : n = n - 1 + 1 := by omega
        rw [count, List.take_succ_cons, scan, allowed]
        exact before
  · rw [length]
    by_contra more
    have size : longer.length ≤ bytes.length := front.length_le
    have same : longer = bytes.take longer.length := List.prefix_iff_eq_take.mp front
    refine scan_of_begun begun n ?_
    rw [same]
    cases bytes with
    | nil => cases read
    | cons first rest =>
      have turn : longer.length = longer.length - 1 + 1 := by omega
      rw [turn, List.take_succ_cons]
      rw [scan] at read ⊢
      split at read
      next none =>
        exact read
      next tests allowed =>
        exact follow_illFormed_take read (by omega)

theorem maximal_of_incomplete (read : scan bytes = .incomplete) : MaximalSubpart bytes bytes := by
  refine ⟨List.prefix_refl bytes, ?_, fun c front => ?_, .inr (begun_of_incomplete read), fun longer front _ => front.length_le⟩
  · rintro rfl
    cases read
  · rw [scan_of_char front] at read
    cases read

end Subparts

end Rue.Lib.Utf8
