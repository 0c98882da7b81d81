import Mathlib
import Rue.Collections.Strings
import Rue.Lib.Occurrences

/-! Splitting, replacing and joining agree on the greedy occurrences of the needle,
and the searches find the first and the last one; none of them reads outside. -/

namespace Rue.Proofs.Collections
open Rue.Collections Rue.Collections.StrBuf Rue.Lib Rue.Lib.Asking Rue.Lib.Occurrences

namespace Strings

instance (text needle : List UInt8) (pos : Nat) : Decidable (Occurs text needle pos) := inferInstanceAs (Decidable (_ ∧ _))

variable {self needle s sep replacement : StrBuf}

theorem readPackedByte_ok {index : Nat} (inside : index < self.bytes.length) :
    self.readPackedByte index = .ok self.bytes[index] := by
  rw [readPackedByte, List.getElem?_eq_getElem inside]

variable {pos i tries start : Nat}

theorem matchLoop_eq (within : pos + needle.bytes.length ≤ self.bytes.length)
    (left : i + tries = needle.bytes.length + 1) (positive : 0 < tries) : self.matchLoop pos needle tries i =
      .ok (decide ((self.bytes.drop (pos + i)).take (needle.bytes.length - i) = needle.bytes.drop i)) := by
  induction tries generalizing i with
  | zero => omega
  | succ tries ih =>
    have small := self.small
    rw [matchLoop, StrBuf.len]
    split
    next more =>
      have here : pos + i < self.bytes.length := by omega
      have width : needle.bytes.length - i = needle.bytes.length - (i + 1) + 1 := by omega
      rw [U64.add_ok (by omega), U64.add_ok (by omega)]
      simp only [Stop.ok_bind, readPackedByte_ok here, readPackedByte_ok more]
      rw [List.drop_eq_getElem_cons here, List.drop_eq_getElem_cons more, width, List.take_succ_cons]
      split
      next different =>
        rw [decide_eq_false fun same => different (List.cons.inj same).1]
        rfl
      next same =>
        rw [not_not] at same
        rw [ih (by omega) (by omega), same, Nat.add_assoc]
        simp only [List.cons.injEq, true_and]
    next done =>
      have ended : i = needle.bytes.length := by omega
      subst ended
      simp

theorem matchesAt_eq (self needle : StrBuf) (pos : Nat) :
    self.matchesAt pos needle = .ok (decide (Occurs self.bytes needle.bytes pos)) := by
  rw [matchesAt, StrBuf.len, StrBuf.len]
  split
  next outside => rw [decide_eq_false fun here => absurd here.1 (by omega)]
  next inside =>
    rw [U64.sub_ok (by omega)]
    simp only [Stop.ok_bind]
    split
    next short =>
      rw [decide_eq_false fun here => absurd here.1 (by omega)]
      rfl
    next fits =>
      rw [matchLoop_eq (by omega) (by omega) (by omega)]
      simp only [Occurs, Nat.add_zero, Nat.sub_zero, List.drop_zero, show pos + needle.bytes.length ≤ self.bytes.length by omega,
        true_and]

theorem findLoop_first {limit : Nat} (limits : limit + needle.bytes.length = self.bytes.length)
    (enough : limit + 1 < pos + tries) (positive : 0 < tries) :
    ∃ result, self.findLoop needle limit tries pos = .ok result ∧ First self.bytes needle.bytes pos result := by
  induction tries generalizing pos with
  | zero => omega
  | succ tries ih =>
    have small := self.small
    rw [findLoop]
    split
    next within =>
      rw [matchesAt_eq]
      simp only [Stop.ok_bind, decide_eq_true_eq]
      split
      next here => exact ⟨some pos, rfl, Nat.le_refl _, here, fun earlier late before => absurd before (by omega)⟩
      next absent =>
        have short : 0 < needle.bytes.length := by
          apply Nat.pos_of_ne_zero
          intro empty
          exact absent ⟨by omega, by rw [List.eq_nil_of_length_eq_zero empty]; rfl⟩
        rw [U64.add_ok (by omega)]
        obtain ⟨result, run, first⟩ := @ih (pos + 1) (by omega) (by omega)
        refine ⟨result, run, ?_⟩
        cases result with
        | none =>
          intro later late
          rcases Nat.eq_or_lt_of_le late with rfl | behind
          · exact absent
          · exact first later behind
        | some found =>
          refine ⟨Nat.le_of_succ_le first.1, first.2.1, fun earlier late before => ?_⟩
          rcases Nat.eq_or_lt_of_le late with rfl | behind
          · exact absent
          · exact first.2.2 earlier behind before
    next beyond => exact ⟨none, rfl, fun later late here => absurd here.1 (by omega)⟩

/-- The search finds the first occurrence at or after any start. -/
theorem findStrFrom_first (self needle : StrBuf) (start : Nat) :
    ∃ result, self.findStrFrom needle start = .ok result ∧ First self.bytes needle.bytes start result := by
  rw [findStrFrom, StrBuf.len, StrBuf.len]
  split
  next outside => exact ⟨none, rfl, fun later late here => absurd here.1 (by omega)⟩
  next inside =>
    rw [U64.sub_ok (by omega)]
    simp only [Stop.ok_bind]
    split
    next short => exact ⟨none, rfl, fun later late here => absurd here.1 (by omega)⟩
    next fits =>
      rw [U64.sub_ok (by omega)]
      exact findLoop_first (by omega) (by omega) (by omega)

theorem rfindLoop_last (within : pos + needle.bytes.length ≤ self.bytes.length)
    (checked : ∀ later > pos, ¬Occurs self.bytes needle.bytes later) (enough : pos < tries) :
    ∃ result, self.rfindLoop needle tries pos = .ok result ∧ Last self.bytes needle.bytes result := by
  induction tries generalizing pos with
  | zero => omega
  | succ tries ih =>
    rw [rfindLoop, matchesAt_eq]
    simp only [Stop.ok_bind, decide_eq_true_eq]
    split
    next here => exact ⟨some pos, rfl, here, checked⟩
    next absent =>
      have checked' : ∀ later ≥ pos, ¬Occurs self.bytes needle.bytes later := by
        intro later late
        rcases Nat.eq_or_lt_of_le late with rfl | behind
        · exact absent
        · exact checked later behind
      split
      next start => exact ⟨none, rfl, fun later => checked' later (by omega)⟩
      next inner =>
        rw [U64.sub_ok (by omega)]
        exact ih (by omega) (fun later late => checked' later (by omega)) (by omega)

theorem rfindStr_last (self needle : StrBuf) :
    ∃ result, self.rfindStr needle = .ok result ∧ Last self.bytes needle.bytes result := by
  rw [rfindStr, StrBuf.len, StrBuf.len]
  split
  next short => exact ⟨none, rfl, fun later here => absurd here.1 (by omega)⟩
  next fits =>
    rw [U64.sub_ok (by omega)]
    refine rfindLoop_last (by omega) (fun later late here => absurd here.1 (by omega)) ?_
    omega

variable {room : Nat → Bool} {excuse : Prop}

/-- A run that gives the value wanted or stops out of memory. -/
abbrev Gives {A : Type} (excuse : Prop) (program : Alloc A) (good : A → Prop) : Prop := Yields .outOfMemory excuse program good

def Refused (room : Nat → Bool) : Prop := ∃ request, room request = false

theorem extend_gives (refused : Refused room → excuse) (out : StrBuf) (more : List UInt8)
    (full : 2 ^ 64 ≤ out.bytes.length + more.length → excuse) :
    Gives excuse (out.extend room more) fun after => after.bytes = out.bytes ++ more := by
  rw [extend]
  split
  next fits => exact (Yields.ask refused).bind fun _ _ => .pure rfl
  next large => exact fun asked => .inr ⟨rfl, full (by omega)⟩

theorem byteRange_gives (refused : Refused room → excuse) {count : Nat} (within : start + count ≤ s.bytes.length) :
    Gives excuse (s.byteRange room start count) fun piece => piece.bytes = (s.bytes.drop start).take count := by
  rw [byteRange, StrBuf.len, if_neg (by omega)]
  refine Yields.lift (U64.sub_ok (by omega)) ?_
  rw [if_neg (by omega)]
  split
  next empty =>
    subst empty
    exact .pure rfl
  next => exact (Yields.ask refused).bind fun _ _ => .pure rfl

theorem pushPart_gives (refused : Refused room → excuse) (parts : List StrBuf) (part : StrBuf)
    (full : 2 ^ 64 - 1 ≤ parts.length → excuse) :
    Gives excuse (Strings.pushPart room parts part) fun after => after = parts ++ [part] := by
  intro asked
  rw [Strings.pushPart, ArrayBuf.push]
  split
  next => exact .inl ⟨_, _, rfl, rfl⟩
  next stopped =>
    refine .inr ⟨rfl, ?_⟩
    rcases not_and_or.mp stopped with none' | large
    · exact refused ⟨asked, Bool.not_eq_true _ |>.mp none'⟩
    · exact full (by omega)

theorem splitBytes_gives (refused : Refused room → excuse) {out : List StrBuf} (within : i ≤ s.bytes.length)
    (enough : s.bytes.length < i + tries) (full : 2 ^ 64 - 1 ≤ out.length + (s.bytes.length - i) → excuse) :
    Gives excuse (Strings.splitBytes room s tries i out) fun after =>
      after.map StrBuf.bytes = out.map StrBuf.bytes ++ (s.bytes.drop i).map fun byte => [byte] := by
  induction tries generalizing i out with
  | zero => omega
  | succ tries ih =>
    have small := s.small
    rw [Strings.splitBytes, StrBuf.len]
    split
    next more =>
      refine (byteRange_gives refused (by omega)).bind fun piece bytes => ?_
      refine (pushPart_gives refused out piece fun large => full (by omega)).bind fun next pushed => ?_
      refine Yields.lift (U64.add_ok (by omega)) ((ih (by omega) (by omega) ?_).mono fun after result => ?_)
      · rw [pushed, List.length_append]
        exact fun large => full (by simp only [List.length_singleton] at large; omega)
      · rw [result, pushed, List.map_append, List.drop_eq_getElem_cons more, List.map_cons, List.append_assoc]
        rw [List.drop_eq_getElem_cons more] at bytes
        simp only [List.map_cons, List.map_nil, bytes, List.take_succ_cons, List.take_zero, List.singleton_append]
    next done =>
      refine .pure ?_
      rw [List.drop_eq_nil_of_le (by omega), List.map_nil, List.append_nil]

theorem findStrFrom_eq {result : Option Nat} (first : First s.bytes needle.bytes start result) :
    s.findStrFrom needle start = .ok result := by
  obtain ⟨found, run, first'⟩ := findStrFrom_first s needle start
  rw [run, first'.unique first]

variable {taken : List Nat}

/-- The loop takes the greedy occurrences, and leaves the piece behind the last one. -/
theorem splitLoop_gives (refused : Refused room → excuse) (nonempty : 0 < sep.bytes.length)
    {out : List StrBuf} (greedy : Greedy s.bytes sep.bytes start taken) (within : start ≤ s.bytes.length)
    (enough : s.bytes.length < start + tries) (full : 2 ^ 64 - 1 ≤ out.length + taken.length → excuse) :
    Gives excuse (Strings.splitLoop room s sep tries start out) fun after => after.2 ≤ s.bytes.length ∧
      after.1.map StrBuf.bytes ++ [s.bytes.drop after.2] =
        out.map StrBuf.bytes ++ pieces s.bytes sep.bytes.length start taken := by
  induction tries generalizing start taken out with
  | zero => omega
  | succ tries ih =>
    rw [Strings.splitLoop]
    cases greedy with
    | done none' => exact Yields.lift (findStrFrom_eq none') (.pure ⟨within, rfl⟩)
    | @found _ pos rest here next =>
      have inside := here.2.1.1
      have late := here.1
      have small := s.small
      rw [Nat.max_eq_right nonempty] at next
      refine Yields.lift (findStrFrom_eq here) (Yields.lift (U64.sub_ok late) ?_)
      refine (byteRange_gives refused (by omega)).bind fun piece bytes => ?_
      refine (pushPart_gives refused out piece fun large => full (by rw [List.length_cons]; omega)).bind fun more pushed => ?_
      refine Yields.lift (U64.add_ok (by rw [StrBuf.len]; omega)) ?_
      refine (ih next inside (by omega) ?_).mono fun after ⟨short, result⟩ => ⟨short, ?_⟩
      · rw [pushed, List.length_append]
        exact fun large => full (by simp only [List.length_cons, List.length_nil] at large ⊢; omega)
      · rw [result, pushed, pieces, List.map_append, List.append_assoc]
        simp only [List.map_cons, List.map_nil, bytes, List.singleton_append]

theorem splitStr_gives (refused : Refused room → excuse) (greedy : Greedy s.bytes sep.bytes 0 taken)
    (full : 2 ^ 64 - 1 ≤ taken.length → excuse) : Gives excuse (Strings.splitStr room s sep) fun after =>
      after.map StrBuf.bytes = pieces s.bytes sep.bytes.length 0 taken := by
  rw [Strings.splitStr, StrBuf.len]
  split
  next empty =>
    have nil : sep.bytes = [] := List.eq_nil_of_length_eq_zero empty
    rw [nil] at greedy ⊢
    obtain rfl := greedy.unique (greedy_nil s.bytes (Nat.zero_add _))
    rw [List.length_range'] at full
    have parts : pieces s.bytes 0 0 (List.range' 0 (s.bytes.length + 1)) = [] :: (s.bytes.map (fun byte => [byte]) ++ [[]]) := by
      rw [List.range'_succ, pieces, pieces_nil s.bytes (Nat.zero_add _)]
      rfl
    rw [List.length_nil, parts]
    refine (pushPart_gives refused [] StrBuf.new fun large => absurd large (by decide)).bind fun first pushed => ?_
    subst pushed
    refine (splitBytes_gives refused (Nat.zero_le _) (by rw [StrBuf.len]; omega) fun large => full ?_).bind fun all result => ?_
    · simp only [List.nil_append, List.length_cons, List.length_nil] at large
      omega
    · have count := congrArg List.length result
      simp only [List.nil_append, List.length_append, List.length_map, List.length_cons, List.length_nil, List.length_drop] at count
      refine (pushPart_gives refused all StrBuf.new fun large => full (by omega)).mono fun after pushed => ?_
      rw [pushed, List.map_append, result, List.drop_zero]
      rfl
  next nonempty =>
    refine (splitLoop_gives refused (by omega) greedy (Nat.zero_le _) (by rw [StrBuf.len]; omega) fun large => full ?_).bind
      fun after both => ?_
    · rw [List.length_nil] at large
      omega
    · obtain ⟨within, result⟩ := both
      have count := congrArg List.length result
      rw [List.map_nil, List.nil_append, List.length_append, List.length_map, length_pieces, List.length_singleton] at count
      refine Yields.lift (U64.sub_ok within) ((byteRange_gives refused (by rw [StrBuf.len]; omega)).bind fun piece bytes => ?_)
      refine (pushPart_gives refused after.1 piece fun large => full (by omega)).mono fun parts pushed => ?_
      rw [pushed, List.map_append, List.map_singleton, bytes, List.take_of_length_le (by rw [List.length_drop, StrBuf.len])]
      exact result

theorem copyLoop_gives (refused : Refused room → excuse) {stop : Nat} {out : StrBuf} (within : stop ≤ s.bytes.length)
    (late : i ≤ stop) (enough : stop < i + tries) (full : 2 ^ 64 ≤ out.bytes.length + (stop - i) → excuse) :
    Gives excuse (Strings.copyLoop room s stop tries i out) fun after =>
      after.bytes = out.bytes ++ (s.bytes.drop i).take (stop - i) := by
  induction tries generalizing i out with
  | zero => omega
  | succ tries ih =>
    have small := s.small
    rw [Strings.copyLoop]
    split
    next more =>
      have inside : i < s.bytes.length := by omega
      refine Yields.lift (readPackedByte_ok inside) ?_
      refine (extend_gives refused out _ fun large => full (by rw [List.length_singleton] at large; omega)).bind fun next bytes => ?_
      refine Yields.lift (U64.add_ok (by omega)) ((ih (by omega) (by omega) ?_).mono fun after result => ?_)
      · rw [bytes, List.length_append, List.length_singleton]
        exact fun large => full (by omega)
      · rw [result, bytes, List.append_assoc, List.drop_eq_getElem_cons inside, show stop - i = stop - (i + 1) + 1 by omega,
          List.take_succ_cons]
        rfl
    next done =>
      obtain rfl : i = stop := by omega
      refine .pure ?_
      rw [Nat.sub_self, List.take_zero, List.append_nil]

theorem intercalate_cons (between first : List UInt8) (rest : List (List UInt8)) :
    between.intercalate (first :: rest) = first ++ rest.flatMap (between ++ ·) := by
  induction rest generalizing first with
  | nil => simp
  | cons next rest ih => rw [List.intercalate_cons_cons, ih, List.flatMap_cons, List.append_assoc, List.append_assoc]

theorem replaceBytes_gives (refused : Refused room → excuse) {out : StrBuf} (within : i ≤ s.bytes.length)
    (enough : s.bytes.length < i + tries)
    (full : 2 ^ 64 ≤ (out.bytes ++ (s.bytes.drop i).flatMap (· :: replacement.bytes)).length → excuse) :
    Gives excuse (Strings.replaceBytes room s replacement tries i out) fun after =>
      after.bytes = out.bytes ++ (s.bytes.drop i).flatMap (· :: replacement.bytes) := by
  induction tries generalizing i out with
  | zero => omega
  | succ tries ih =>
    have small := s.small
    rw [Strings.replaceBytes, StrBuf.len]
    split
    next more =>
      rw [List.drop_eq_getElem_cons more, List.flatMap_cons] at full ⊢
      simp only [List.length_append, List.length_cons] at full
      refine Yields.lift (readPackedByte_ok more) ?_
      refine (extend_gives refused out _ fun large => full (by rw [List.length_singleton] at large; omega)).bind fun next bytes => ?_
      have size := congrArg List.length bytes
      rw [List.length_append, List.length_singleton] at size
      refine (extend_gives refused next _ fun large => full (by omega)).bind fun last appended => ?_
      have text : last.bytes ++ (s.bytes.drop (i + 1)).flatMap (· :: replacement.bytes) =
          out.bytes ++ (s.bytes[i] :: replacement.bytes ++ (s.bytes.drop (i + 1)).flatMap (· :: replacement.bytes)) := by
        rw [appended, bytes]
        simp only [List.append_assoc, List.cons_append, List.nil_append]
      refine Yields.lift (U64.add_ok (by omega)) ((ih (by omega) (by omega) ?_).mono fun after result => result.trans text)
      rw [text]
      exact fun large => full (by simp only [List.length_append, List.length_cons] at large; omega)
    next done =>
      refine .pure ?_
      rw [List.drop_eq_nil_of_le (by omega), List.flatMap_nil, List.append_nil]

/-- With the needle taken out, the pieces and the replacement between them. -/
theorem replaceLoop_gives (refused : Refused room → excuse) (nonempty : 0 < needle.bytes.length)
    {out : StrBuf} (greedy : Greedy s.bytes needle.bytes start taken) (within : start ≤ s.bytes.length)
    (enough : s.bytes.length < start + tries)
    (full : 2 ^ 64 ≤ (out.bytes ++ replacement.bytes.intercalate (pieces s.bytes needle.bytes.length start taken)).length → excuse) :
    Gives excuse (Strings.replaceLoop room s needle replacement tries start out) fun after => after.2 ≤ s.bytes.length ∧
      after.1.bytes ++ s.bytes.drop after.2 =
        out.bytes ++ replacement.bytes.intercalate (pieces s.bytes needle.bytes.length start taken) := by
  induction tries generalizing start taken out with
  | zero => omega
  | succ tries ih =>
    rw [Strings.replaceLoop]
    cases greedy with
    | done none' =>
      refine Yields.lift (findStrFrom_eq none') (.pure ⟨within, ?_⟩)
      rw [pieces, List.intercalate_singleton]
    | @found _ pos rest here next =>
      have inside := here.2.1.1
      have late := here.1
      have small := s.small
      rw [Nat.max_eq_right nonempty] at next
      have parts : replacement.bytes.intercalate (pieces s.bytes needle.bytes.length start (pos :: rest)) =
          (s.bytes.drop start).take (pos - start) ++
            (replacement.bytes ++ replacement.bytes.intercalate (pieces s.bytes needle.bytes.length (pos + needle.bytes.length) rest)) := by
        rw [pieces, intercalate_cons]
        cases rest <;> rw [pieces, intercalate_cons, List.flatMap_cons, List.append_assoc]
      rw [parts] at full ⊢
      simp only [List.length_append, List.length_take, List.length_drop] at full
      refine Yields.lift (findStrFrom_eq here) ?_
      refine (copyLoop_gives refused (by omega) late (by rw [StrBuf.len]; omega) fun large => full (by omega)).bind
        fun copied bytes => ?_
      have size := congrArg List.length bytes
      simp only [List.length_append, List.length_take, List.length_drop] at size
      refine (extend_gives refused copied _ fun large => full (by omega)).bind fun more appended => ?_
      refine Yields.lift (U64.add_ok (by rw [StrBuf.len]; omega)) ?_
      have text : more.bytes ++ replacement.bytes.intercalate (pieces s.bytes needle.bytes.length (pos + needle.bytes.length) rest) =
          out.bytes ++ ((s.bytes.drop start).take (pos - start) ++
            (replacement.bytes ++ replacement.bytes.intercalate (pieces s.bytes needle.bytes.length (pos + needle.bytes.length) rest))) := by
        rw [appended, bytes]
        simp only [List.append_assoc]
      refine (ih next inside (by omega) ?_).mono fun after both => ⟨both.1, both.2.trans text⟩
      rw [text]
      exact fun large => full (by simp only [List.length_append, List.length_take, List.length_drop] at large; omega)

theorem replace_gives (refused : Refused room → excuse) (greedy : Greedy s.bytes needle.bytes 0 taken)
    (full : 2 ^ 64 ≤ (replacement.bytes.intercalate (pieces s.bytes needle.bytes.length 0 taken)).length → excuse) :
    Gives excuse (Strings.replace room s needle replacement) fun after =>
      after.bytes = replacement.bytes.intercalate (pieces s.bytes needle.bytes.length 0 taken) := by
  rw [Strings.replace, StrBuf.len]
  split
  next empty =>
    have nil : needle.bytes = [] := List.eq_nil_of_length_eq_zero empty
    rw [nil] at greedy full ⊢
    obtain rfl := greedy.unique (greedy_nil s.bytes (Nat.zero_add _))
    have parts : replacement.bytes.intercalate (pieces s.bytes 0 0 (List.range' 0 (s.bytes.length + 1))) =
        replacement.bytes ++ s.bytes.flatMap (· :: replacement.bytes) := by
      rw [List.range'_succ, pieces, pieces_nil s.bytes (Nat.zero_add _), Nat.sub_self, List.take_zero, intercalate_cons,
        List.nil_append, List.drop_zero]
      induction s.bytes with
      | nil => simp
      | cons byte rest ih => simpa using ih
    rw [List.length_nil, parts] at full ⊢
    refine (extend_gives refused StrBuf.new _ fun large => full ?_).bind fun first appended => ?_
    · rw [List.length_append]
      exact Nat.le_trans large (by simp [StrBuf.new])
    · have bare : first.bytes = replacement.bytes := appended
      refine (replaceBytes_gives refused (Nat.zero_le _) (by rw [StrBuf.len]; omega) ?_).mono fun after result => ?_
      · rw [bare, List.drop_zero]
        exact full
      · rw [result, bare, List.drop_zero]
  next nonempty =>
    refine (replaceLoop_gives refused (by omega) greedy (Nat.zero_le _) (by rw [StrBuf.len]; omega) ?_).bind
      fun after both => ?_
    · exact full
    obtain ⟨within, result⟩ := both
    have size := congrArg List.length result
    simp only [List.length_append, List.length_drop] at size
    refine (copyLoop_gives refused (Nat.le_refl _) within (by rw [StrBuf.len]; omega) fun large => full ?_).mono fun last bytes => ?_
    · have bare : StrBuf.new.bytes.length = 0 := rfl
      omega
    · rw [bytes, List.take_of_length_le (by rw [List.length_drop]), result]
      rfl

theorem reverseParts_gives (refused : Refused room → excuse) {source reversed : List StrBuf}
    (enough : source.length < tries) (full : 2 ^ 64 ≤ reversed.length + source.length → excuse) :
    Gives excuse (Strings.reverseParts room tries source reversed) fun after => after = reversed ++ source.reverse := by
  induction tries generalizing source reversed with
  | zero => omega
  | succ tries ih =>
    rw [Strings.reverseParts]
    rcases List.eq_nil_or_concat source with rfl | ⟨front, part, rfl⟩
    · exact .pure (List.append_nil reversed).symm
    · rw [List.concat_eq_append] at enough full ⊢
      have popped : ArrayBuf.pop (front ++ [part]) = (some part, front) := by
        rw [ArrayBuf.pop, List.getLast?_concat, List.dropLast_concat]
      simp only [List.length_append, List.length_singleton] at enough full
      rw [if_pos (by simp), popped]
      refine (pushPart_gives refused reversed part fun large => full (by omega)).bind fun more pushed => ?_
      refine (ih (by omega) ?_).mono fun after result => ?_
      · rw [pushed, List.length_append, List.length_singleton]
        exact fun large => full (by omega)
      · rw [result, pushed, List.append_assoc, List.reverse_append]
        rfl

/-- What is still to be written: the separator stands before every part but the first. -/
def joined (sep : List UInt8) (first : Bool) (parts : List (List UInt8)) : List UInt8 :=
  if first then sep.intercalate parts else parts.flatMap (sep ++ ·)

theorem joined_cons (between : List UInt8) (first : Bool) (part : List UInt8) (rest : List (List UInt8)) :
    joined between first (part :: rest) = (if first then [] else between) ++ part ++ joined between false rest := by
  cases first with
  | true => exact intercalate_cons between part rest
  | false => exact List.flatMap_cons

theorem joinLoop_gives (refused : Refused room → excuse) {parts : List StrBuf} {first : Bool} {out : StrBuf}
    (enough : parts.length < tries)
    (full : 2 ^ 64 ≤ (out.bytes ++ joined sep.bytes first (parts.map StrBuf.bytes)).length → excuse) :
    Gives excuse (Strings.joinLoop room sep tries parts.reverse first out) fun after =>
      after.bytes = out.bytes ++ joined sep.bytes first (parts.map StrBuf.bytes) := by
  induction tries generalizing parts first out with
  | zero => omega
  | succ tries ih =>
    rw [Strings.joinLoop]
    cases parts with
    | nil =>
      refine .pure ?_
      cases first <;> simp [joined]
    | cons part rest =>
      have popped : ArrayBuf.pop (part :: rest).reverse = (some part, rest.reverse) := by
        rw [List.reverse_cons, ArrayBuf.pop, List.getLast?_concat, List.dropLast_concat]
      rw [if_pos (by simp), popped]
      rw [List.map_cons, joined_cons] at full ⊢
      have sized : (out.bytes ++ ((if first then [] else sep.bytes) ++ part.bytes ++ joined sep.bytes false (rest.map StrBuf.bytes))).length =
          out.bytes.length + (if first then [] else sep.bytes).length + part.bytes.length +
            (joined sep.bytes false (rest.map StrBuf.bytes)).length := by
        simp only [List.length_append, Nat.add_assoc]
      rw [sized] at full
      have separated : Gives excuse (if first then pure out else out.appendStr room sep)
          fun after => after.bytes = out.bytes ++ if first then [] else sep.bytes := by
        cases first with
        | true => exact .pure (List.append_nil _).symm
        | false => exact extend_gives refused out _ fun large => full (by simp only [Bool.false_eq_true, if_false]; omega)
      refine separated.bind fun before spaced => ?_
      have size := congrArg List.length spaced
      rw [List.length_append] at size
      refine (extend_gives refused before _ fun large => full (by omega)).bind fun more pushed => ?_
      have text : more.bytes ++ joined sep.bytes false (rest.map StrBuf.bytes) =
          out.bytes ++ ((if first then [] else sep.bytes) ++ part.bytes ++ joined sep.bytes false (rest.map StrBuf.bytes)) := by
        rw [pushed, spaced]
        simp only [List.append_assoc]
      refine (ih (by rw [List.length_cons] at enough; omega) ?_).mono fun after result => result.trans text
      rw [text, sized]
      exact full

theorem join_gives (refused : Refused room → excuse) {parts : List StrBuf} (few : 2 ^ 64 ≤ parts.length → excuse)
    (full : 2 ^ 64 ≤ (sep.bytes.intercalate (parts.map StrBuf.bytes)).length → excuse) :
    Gives excuse (Strings.join room parts sep) fun after => after.bytes = sep.bytes.intercalate (parts.map StrBuf.bytes) := by
  rw [Strings.join]
  refine (reverseParts_gives refused (Nat.lt_succ_self _) fun large => few ?_).bind fun reversed result => ?_
  · rw [List.length_nil] at large
    omega
  · rw [List.nil_append] at result
    subst result
    exact joinLoop_gives refused (by rw [List.length_reverse]; omega) full

/-- Splitting, replacing and joining agree on the greedy occurrences, of the empty
needle too: replacing is splitting and joining with the replacement, and joining with
the needle gives the text back. The searches find the first occurrence from any start
on and the last one. Nothing stops a call but a lack of memory. -/
theorem strings_agree (s needle replacement : StrBuf) (room : Nat → Bool) :
    (∃ taken, Greedy s.bytes needle.bytes 0 taken ∧ (∀ other, Greedy s.bytes needle.bytes 0 other → other = taken) ∧
      Gives (Refused room ∨ 2 ^ 64 - 1 ≤ taken.length) (Strings.splitStr room s needle)
        (fun parts => parts.map StrBuf.bytes = pieces s.bytes needle.bytes.length 0 taken) ∧
      Gives (Refused room ∨ 2 ^ 64 ≤ (replacement.bytes.intercalate (pieces s.bytes needle.bytes.length 0 taken)).length)
        (Strings.replace room s needle replacement)
        (fun out => out.bytes = replacement.bytes.intercalate (pieces s.bytes needle.bytes.length 0 taken)) ∧
      Gives (Refused room ∨ 2 ^ 64 - 1 ≤ taken.length ∨
          2 ^ 64 ≤ (replacement.bytes.intercalate (pieces s.bytes needle.bytes.length 0 taken)).length)
        (do Strings.join room (← Strings.splitStr room s needle) replacement)
        (fun out => out.bytes = replacement.bytes.intercalate (pieces s.bytes needle.bytes.length 0 taken)) ∧
      Gives (Refused room ∨ 2 ^ 64 - 1 ≤ taken.length) (do Strings.join room (← Strings.splitStr room s needle) needle)
        (fun out => out.bytes = s.bytes)) ∧
    (∀ start, ∃ result, s.findStrFrom needle start = .ok result ∧ First s.bytes needle.bytes start result) ∧
    ∃ result, s.rfindStr needle = .ok result ∧ Last s.bytes needle.bytes result := by
  obtain ⟨taken, greedy⟩ := exists_greedy s.bytes needle.bytes 0
  have count := length_pieces s.bytes needle.bytes.length 0 taken
  have whole := greedy.intercalate (Nat.le_refl 0)
  refine ⟨⟨taken, greedy, fun other again => again.unique greedy, splitStr_gives .inl greedy .inr, replace_gives .inl greedy .inr,
    ?_, ?_⟩, findStrFrom_first s needle, rfindStr_last s needle⟩
  · refine (splitStr_gives .inl greedy fun many => .inr (.inl many)).bind fun parts listed => ?_
    have sized := congrArg List.length listed
    rw [List.length_map, count] at sized
    rw [← listed]
    exact join_gives .inl (fun many => .inr (.inl (by omega))) fun large => .inr (.inr large)
  · refine (splitStr_gives .inl greedy .inr).bind fun parts listed => ?_
    have sized := congrArg List.length listed
    rw [List.length_map, count] at sized
    have small := s.small
    rw [← listed, List.drop_zero] at whole
    refine (join_gives .inl (fun many => .inr (by omega)) fun large => absurd large ?_).mono fun out result => result.trans whole
    rw [whole]
    omega

end Strings

end Rue.Proofs.Collections
