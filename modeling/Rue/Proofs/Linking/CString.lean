import Rue.Linking.CString

/-! Reading strings in chunks gives what converting or validating the whole string
gives, wherever a chunk ends. -/

namespace Rue.Proofs.Linking.CString
open Rue.Linking.CString Rue.Lib.Utf8

/-- The bytes before the first zero. -/
def untilNul (data : List UInt8) : List UInt8 := data.takeWhile (· ≠ 0)

theorem length_untilNul {chunk : List UInt8} {relative : Nat} (found : chunk.findIdx? (· = 0) = some relative)
    (rest : List UInt8) : (untilNul (chunk ++ rest)).length = relative := by
  induction chunk generalizing relative with
  | nil => cases found
  | cons b chunk ih =>
    rw [List.findIdx?_cons] at found
    rw [untilNul, List.cons_append, List.takeWhile_cons]
    split at found
    next zero =>
      cases found
      have stops : decide (b ≠ 0) = false := by simpa using zero
      rw [stops]
      rfl
    next nonzero =>
      obtain ⟨before, earlier, rfl⟩ := Option.map_eq_some_iff.mp found
      have goesOn : decide (b ≠ 0) = true := by simpa using nonzero
      rw [goesOn]
      exact congrArg (· + 1) (ih earlier)

theorem untilNul_append {chunk : List UInt8} (none' : chunk.findIdx? (· = 0) = none) (rest : List UInt8) :
    untilNul (chunk ++ rest) = chunk ++ untilNul rest := by
  apply List.takeWhile_append_of_pos
  intro b member
  simpa using List.findIdx?_eq_none_iff.mp none' b member

theorem cstringEnd_eq (data : List UInt8) (fin : Nat) : cstringEnd data fin = fin + (untilNul data).length := by
  induction data, fin using cstringEnd.induct with
  | case1 data fin empty =>
    rw [cstringEnd, if_pos empty, List.length_eq_zero_iff.mp empty]
    rfl
  | case2 data fin some' relative found =>
    rw [cstringEnd, if_neg some', found]
    have here := length_untilNul found (data.drop chunkSize)
    rw [List.take_append_drop] at here
    rw [here]
  | case3 data fin some' none' ih =>
    rw [cstringEnd, if_neg some', none']
    have split := untilNul_append none' (data.drop chunkSize)
    rw [List.take_append_drop] at split
    rw [ih, split, List.length_append, Nat.add_assoc]

theorem take_cstringEnd (data : List UInt8) : data.take (untilNul data).length = untilNul data := by
  have taken := @List.take_left _ (untilNul data) (data.dropWhile (· ≠ 0))
  rw [untilNul, List.takeWhile_append_dropWhile] at taken
  exact taken

section

variable {bytes : List UInt8} {offset chunkEnd : Nat}

theorem length_chunk (inside : chunkEnd ≤ bytes.length) : (chunk bytes offset chunkEnd).length = chunkEnd - offset := by
  rw [chunk, List.length_take, List.length_drop]
  omega

theorem chunk_append (within : offset ≤ chunkEnd) : chunk bytes offset chunkEnd ++ bytes.drop chunkEnd = bytes.drop offset := by
  have rest : (bytes.drop offset).drop (chunkEnd - offset) = bytes.drop chunkEnd := by
    rw [List.drop_drop]
    congr 1
    omega
  rw [chunk, ← rest, List.take_append_drop]

theorem take_chunk {n : Nat} (within : n ≤ chunkEnd - offset) :
    (chunk bytes offset chunkEnd).take n = chunk bytes offset (offset + n) := by
  rw [chunk, chunk, List.take_take]
  congr 1
  omega

theorem drop_chunk {n : Nat} (within : offset + n ≤ chunkEnd) (inside : chunkEnd ≤ bytes.length) :
    (chunk bytes offset chunkEnd).drop n ++ bytes.drop chunkEnd = bytes.drop (offset + n) := by
  rw [← List.drop_drop, ← @chunk_append bytes offset chunkEnd (by omega), List.drop_append_of_le_length]
  rw [length_chunk inside]
  omega

/-- One chunk moves on and converts what it moves over. -/
theorem convertChunk_converts (more : offset < chunkEnd) (inside : chunkEnd ≤ bytes.length) {tries : Nat}
    (enough : bytes.length - chunkEnd < tries) :
    ∃ converted next, convertChunk bytes offset tries chunkEnd = .ok (converted, next) ∧ offset < next ∧ next ≤ bytes.length ∧
      fromUtf8Lossy (bytes.drop offset) = converted ++ fromUtf8Lossy (bytes.drop next) := by
  induction tries generalizing chunkEnd with
  | zero => omega
  | succ tries ih =>
    have length := @length_chunk bytes offset chunkEnd inside
    have whole := converts (chunk bytes offset chunkEnd) (bytes.drop chunkEnd)
    rw [convertChunk]
    split
    next valid =>
      rw [valid, Converts, chunk_append (Nat.le_of_lt more)] at whole
      exact ⟨_, _, rfl, more, inside, whole⟩
    next validUpTo errorLen invalid =>
      rw [invalid, Converts, chunk_append (Nat.le_of_lt more), length] at whole
      obtain ⟨positive, within, converted⟩ := whole
      rw [take_chunk (by omega), drop_chunk (by omega) inside, ← Nat.add_assoc] at converted
      exact ⟨_, _, rfl, by omega, by omega, converted⟩
    next validUpTo cut =>
      split
      next last =>
        have within := fromUtf8_upTo cut
        rw [length] at within
        rw [cut, Converts, take_chunk within] at whole
        have rest : chunk bytes offset chunkEnd = bytes.drop offset := by
          have joined := @chunk_append bytes offset chunkEnd (Nat.le_of_lt more)
          rwa [last, List.drop_length, List.append_nil, ← last] at joined
        rw [rest] at whole
        refine ⟨_, _, rfl, by omega, Nat.le_refl _, ?_⟩
        rw [whole, List.drop_length, lossy_nil, List.append_nil]
      next => exact ih (by omega) (by omega) (by omega)

theorem convert_converts {tries : Nat} {output : List UInt8} (inside : offset ≤ bytes.length)
    (enough : bytes.length - offset < tries) :
    convert bytes tries output offset = .ok (output ++ fromUtf8Lossy (bytes.drop offset)) := by
  induction tries generalizing output offset with
  | zero => omega
  | succ tries ih =>
    have positive := chunkSize_pos
    rw [convert]
    split
    next more =>
      obtain ⟨converted, next, done, further, within, same⟩ := @convertChunk_converts bytes offset
        (min bytes.length (offset + chunkSize)) (by omega) (by omega) (bytes.length + 1) (by omega)
      rw [done, same, ← List.append_assoc]
      exact ih within (by omega)
    next =>
      rw [List.drop_eq_nil_of_le (by omega), lossy_nil, List.append_nil]

/-- One chunk moves on if what it moves over is valid, and fails only on a text that
is not. -/
theorem validateChunk_validates (more : offset < chunkEnd) (inside : chunkEnd ≤ bytes.length) {tries : Nat}
    (enough : bytes.length - chunkEnd < tries) :
    (∃ next, validateChunk bytes offset tries chunkEnd = .ok next ∧ offset < next ∧ next ≤ bytes.length ∧
        (fromUtf8 (bytes.drop offset) = .valid ↔ fromUtf8 (bytes.drop next) = .valid)) ∨
      validateChunk bytes offset tries chunkEnd = .error .invalidStringTable ∧ fromUtf8 (bytes.drop offset) ≠ .valid := by
  induction tries generalizing chunkEnd with
  | zero => omega
  | succ tries ih =>
    have joined := @chunk_append bytes offset chunkEnd (Nat.le_of_lt more)
    rw [validateChunk]
    split
    next valid =>
      refine .inl ⟨_, rfl, more, inside, ?_⟩
      rw [← joined]
      exact fromUtf8_append valid
    next validUpTo errorLen invalid =>
      split
      next stops =>
        refine .inr ⟨rfl, ?_⟩
        rw [← joined]
        cases errorLen with
        | some errorLen => exact fromUtf8_append_error invalid
        | none =>
          have last : chunkEnd = bytes.length := by simpa using stops
          rw [last, List.drop_length, List.append_nil, ← last, invalid]
          exact nofun
      next => exact ih (by omega) (by omega) (by omega)

theorem validate_validates {tries : Nat} (inside : offset ≤ bytes.length) (enough : bytes.length - offset < tries) :
    validate bytes tries offset =
      if fromUtf8 (bytes.drop offset) = .valid then .ok () else .error .invalidStringTable := by
  induction tries generalizing offset with
  | zero => omega
  | succ tries ih =>
    have positive := chunkSize_pos
    rw [validate]
    split
    next more =>
      rcases @validateChunk_validates bytes offset (min bytes.length (offset + chunkSize)) (by omega) (by omega)
        (bytes.length + 1) (by omega) with ⟨next, done, further, within, same⟩ | ⟨failed, invalid⟩
      · rw [done]
        refine (ih within (by omega)).trans ?_
        simp only [same]
      · rw [failed, if_neg invalid]
        rfl
    next =>
      rw [List.drop_eq_nil_of_le (by omega), if_pos]
      rw [fromUtf8_eq]
      rfl

end

theorem readUtf8Cstring_eq (data : List UInt8) (offset : Nat) : readUtf8Cstring data offset =
    if data.length < offset then .error .invalidStringTable
    else if fromUtf8 (untilNul (data.drop offset)) = .valid then .ok (untilNul (data.drop offset))
    else .error .invalidStringTable := by
  rw [readUtf8Cstring]
  split
  · rfl
  · have validated := @validate_validates (untilNul (data.drop offset)) 0 ((untilNul (data.drop offset)).length + 1)
      (Nat.zero_le _) (Nat.lt_succ_self _)
    rw [List.drop_zero] at validated
    simp only [cstringEnd_eq, Nat.add_sub_cancel_left, take_cstringEnd]
    rw [validated]
    split
    · rfl
    · rfl

/-- The chunked readers against the definitions over the whole string: the lossy
conversion of its bytes, and its bytes exactly when they encode characters. -/
theorem cstrings_whole (data : List UInt8) (offset : Nat) :
    readCstring data = .ok (fromUtf8Lossy (untilNul data)) ∧
      ((offset ≤ data.length ∧ ∃ chars : List Char, untilNul (data.drop offset) = chars.flatMap String.utf8EncodeChar) →
        readUtf8Cstring data offset = .ok (untilNul (data.drop offset))) ∧
      (¬ (offset ≤ data.length ∧ ∃ chars : List Char, untilNul (data.drop offset) = chars.flatMap String.utf8EncodeChar) →
        readUtf8Cstring data offset = .error .invalidStringTable) := by
  refine ⟨?_, ?_, ?_⟩
  · rw [readCstring, cstringEnd_eq, Nat.zero_add, take_cstringEnd]
    exact convert_converts (Nat.zero_le _) (Nat.lt_succ_self _)
  · rintro ⟨within, encoded⟩
    rw [readUtf8Cstring_eq, if_neg (by omega), if_pos (valid_iff_encoded.mpr encoded)]
  · intro refused
    rw [readUtf8Cstring_eq]
    split
    · rfl
    · rw [if_neg]
      intro valid
      exact refused ⟨by omega, valid_iff_encoded.mp valid⟩

end Rue.Proofs.Linking.CString
