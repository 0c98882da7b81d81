import Rue.Proofs.Text.Numbers

/-! The characters of a string: hexadecimal digits, code points written as bytes,
bytes copied, and escapes. -/

namespace Rue.Proofs.Text.Characters
open Rue.Lib Rue.Lib.Cursor Rue.Text Rue.Proofs.Text.Grammar Rue.Proofs.Text.Reading Rue.Proofs.Text.Numbers

variable {input rest : StrBuf} {pos : Nat}

theorem hexValue_iff {b : UInt8} {value : Nat} : hexValue b = some value ↔ HexDigit b value := by
  have small := b.toNat_lt
  simp only [hexValue, HexDigit]
  constructor
  · intro found
    split at found
    next => cases found; omega
    next =>
      split at found
      next => cases found; omega
      next =>
        split at found
        next => cases found; omega
        next => cases found
  · intro digit
    split
    next => congr 1; omega
    next =>
      split
      next => congr 1; omega
      next =>
        split
        next => congr 1; omega
        next => omega

theorem HexDigit.small {b : UInt8} {value : Nat} (digit : HexDigit b value) : value < 16 := by
  rcases digit with ⟨small, _⟩ | ⟨_, small, _⟩
  · omega
  · exact small

/-- A unit that may stand where it was found: the low half of a pair if one is
required, and only then. -/
def Fits (requireLowSurrogate : Bool) (code : Nat) : Prop :=
  (requireLowSurrogate ↔ 0xDC00 ≤ code ∧ code < 0xE000)

/-- What a digit is turned down for before the digits after it are read. -/
def TurnedDown (requireLowSurrogate : Bool) (left value digit : Nat) : Prop :=
  requireLowSurrogate ∧ left = 3 ∧ digit ≠ 13 ∨
    left = 2 ∧ value = 13 ∧ (!requireLowSurrogate ∧ digit ≥ 12 ∨ requireLowSurrogate ∧ digit < 12)

variable {requireLowSurrogate : Bool}

theorem hexTurn_gives {left value : Nat} {Good : Nat × Nat → Prop} (here : At input pos rest)
    (next : ∀ b digit after, rest = b :: after → HexDigit b digit → ¬TurnedDown requireLowSurrogate left value digit →
      At input (pos + 1) after → Gives Good (parseHexDigits input requireLowSurrogate left (pos + 1) (value * 16 + digit))) :
    Gives Good (parseHexDigits input requireLowSurrogate (left + 1) pos value) := by
  rw [parseHexDigits]
  split
  next => exact gives_fail
  next b found =>
    split
    next => exact gives_fail
    next digit spelled =>
      split
      next => exact gives_fail
      next first =>
        split
        next => exact gives_fail
        next second =>
          obtain ⟨after, rfl⟩ := here.cons found
          refine next b digit after rfl (hexValue_iff.mp spelled) ?_ here.next
          rintro (third | fourth)
          · exact first third
          · exact second fourth

theorem hexTurn_past {left value digit : Nat} {b : UInt8} (here : At input pos (b :: rest))
    (spelled : HexDigit b digit) (free : ¬TurnedDown requireLowSurrogate left value digit) :
    parseHexDigits input requireLowSurrogate (left + 1) pos value =
      parseHexDigits input requireLowSurrogate left (pos + 1) (value * 16 + digit) := by
  have head : input[pos]? = some b := here.head
  rw [parseHexDigits, head]
  simp only [hexValue_iff.mpr spelled]
  rw [if_neg fun first => free (.inl first), if_neg fun second => free (.inr second)]

theorem parseHex4_gives (here : At input pos rest) :
    Gives (Takes input rest fun text code => Hex4 text code ∧ Fits requireLowSurrogate code)
      (parseHex4 input pos requireLowSurrogate) := by
  refine hexTurn_gives here fun a first after parts one free here => hexTurn_gives here ?_
  refine fun b second after' parts' two free' here => hexTurn_gives here ?_
  refine fun c third after'' parts'' three _ here => hexTurn_gives here ?_
  intro d fourth after''' parts''' four _ there
  subst parts parts' parts'' parts'''
  have small := HexDigit.small one
  have small' := HexDigit.small two
  have small'' := HexDigit.small three
  have small''' := HexDigit.small four
  rw [Nat.zero_mul, Nat.zero_add] at *
  refine ⟨[a, b, c, d], after''', rfl, ⟨.digits one two three four, ?_⟩, there⟩
  cases requireLowSurrogate with
  | false =>
    simp only [TurnedDown, Bool.false_eq_true, Bool.not_false, false_and, or_false, true_and, false_or] at free'
    simp only [Fits, Bool.false_eq_true, false_iff]
    omega
  | true =>
    simp only [TurnedDown, Bool.not_true, Bool.false_eq_true, false_and, true_and, false_or] at free free'
    simp only [Fits, true_iff]
    omega

theorem parseHex4_past {text : StrBuf} {code : Nat} (here : At input pos (text ++ rest))
    (spelled : Hex4 text code) (fits : Fits requireLowSurrogate code) :
    parseHex4 input pos requireLowSurrogate = .ok (code, pos + 4) := by
  cases spelled with
  | @digits a b c d first second third fourth one two three four =>
    have small := HexDigit.small one
    have small' := HexDigit.small two
    have small'' := HexDigit.small three
    have small''' := HexDigit.small four
    have here' : At input pos (a :: b :: c :: d :: rest) := here
    have free : ¬TurnedDown requireLowSurrogate 3 0 first := by
      cases requireLowSurrogate with
      | false => simp [TurnedDown]
      | true =>
        simp only [Fits, true_iff] at fits
        simp only [TurnedDown, true_and]
        omega
    have free' : ¬TurnedDown requireLowSurrogate 2 (0 * 16 + first) second := by
      cases requireLowSurrogate with
      | false =>
        simp only [Fits, Bool.false_eq_true, false_iff] at fits
        simp only [TurnedDown, Bool.false_eq_true, Bool.not_false, false_and, or_false, true_and, false_or]
        omega
      | true =>
        simp only [Fits, true_iff] at fits
        simp only [TurnedDown, Bool.not_true, Bool.false_eq_true, false_and, true_and, false_or]
        omega
    have later : ∀ left value digit, left < 2 → ¬TurnedDown requireLowSurrogate left value digit := by
      rintro left value digit few (⟨_, same, _⟩ | ⟨same, _⟩)
      · omega
      · omega
    rw [parseHex4, hexTurn_past here' one free, hexTurn_past here'.next two free',
      hexTurn_past here'.next.next three (later 1 _ _ (by omega)),
      hexTurn_past here'.next.next.next four (later 0 _ _ (by omega)), parseHexDigits, Nat.zero_mul, Nat.zero_add]

theorem or_disjoint {low : Nat} (high i a : Nat) (aligned : a <<< i = high) (small : low < 1 <<< i) :
    high ||| low = high + low := by
  rw [Nat.shiftLeft_eq, Nat.one_mul] at small
  rw [← aligned, Nat.shiftLeft_eq, Nat.mul_comm]
  exact (Nat.two_pow_add_eq_or_of_lt small a).symm

theorem intCastU8_small {value : Nat} (small : value < 256) : intCastU8 value = .ok (UInt8.ofNat value) := if_pos small

theorem pushCodepoint_char (out : StrBuf) (c : Char) (position : Nat) :
    pushCodepoint out c.val.toNat position = .ok (out ++ String.utf8EncodeChar c) := by
  have valid : c.val.toNat < 0xD800 ∨ 0xDFFF < c.val.toNat ∧ c.val.toNat < 0x110000 := c.valid
  rw [pushCodepoint, String.utf8EncodeChar]
  generalize c.val.toNat = v at valid
  have six : v >>> 6 = v / 64 := Nat.shiftRight_eq_div_pow v 6
  have twelve : v >>> 12 = v / 4096 := Nat.shiftRight_eq_div_pow v 12
  have eighteen : v >>> 18 = v / 262144 := Nat.shiftRight_eq_div_pow v 18
  have low : ∀ n : Nat, n &&& 63 = n % 64 := fun n => Nat.and_two_pow_sub_one_eq_mod n 6
  have tail : ∀ n : Nat, 128 ||| n % 64 = n % 64 + 128 := by
    intro n
    rw [or_disjoint 128 7 1 rfl (by omega), Nat.add_comm]
  simp only [six, twelve, eighteen, low, tail]
  split
  next =>
    rw [intCastU8_small (by omega)]
    rfl
  next =>
    split
    next =>
      have lead : 192 ||| v / 64 = v / 64 % 32 + 192 := by
        rw [or_disjoint 192 6 3 rfl (by omega)]
        omega
      rw [lead, intCastU8_small (by omega), intCastU8_small (by omega)]
      rfl
    next =>
      split
      next =>
        have lead : 224 ||| v / 4096 = v / 4096 % 16 + 224 := by
          rw [or_disjoint 224 5 7 rfl (by omega)]
          omega
        rw [lead, intCastU8_small (by omega), intCastU8_small (by omega), intCastU8_small (by omega)]
        rfl
      next =>
        have lead : 240 ||| v / 262144 = v / 262144 % 8 + 240 := by
          rw [or_disjoint 240 4 15 rfl (by omega)]
          omega
        rw [if_pos (by omega), lead, intCastU8_small (by omega), intCastU8_small (by omega), intCastU8_small (by omega),
          intCastU8_small (by omega)]
        rfl

theorem continuation_iff {b : UInt8} : continuation b ↔ Utf8.Tail b := by
  rw [continuation, Bool.and_eq_true, decide_eq_true_eq, decide_eq_true_eq]
  rfl

/-- The bytes after a first byte that were checked from one of them on. -/
def Checked (lead i : Nat) (tail : StrBuf) : Prop :=
  (∀ b ∈ tail, Utf8.Tail b) ∧ (i = 0 → ∀ b, tail.head? = some b → boundaryLead lead b.toNat = false)

theorem checkContinuations_gives {lead needed i : Nat} (here : At input (pos + i) rest) :
    Gives (fun _ => ∃ tail after, rest = tail ++ after ∧ tail.length = needed ∧ Checked lead i tail)
      (checkContinuations input pos lead needed i) := by
  induction needed generalizing i rest with
  | zero => exact ⟨[], rest, rfl, rfl, nofun, nofun⟩
  | succ needed ih =>
    rw [checkContinuations]
    split
    next => exact gives_fail
    next b found =>
      split
      next => exact gives_fail
      next inside =>
        split
        next => exact gives_fail
        next first =>
          obtain ⟨after, rfl⟩ := here.cons found
          refine (@ih after (i + 1) here.next).weaken ?_
          rintro _ ⟨tail, after', rfl, size, all, _⟩
          refine ⟨b :: tail, after', rfl, by rw [List.length_cons, size], ?_, ?_⟩
          · intro d member
            cases member with
            | head => exact continuation_iff.mp (by simpa only [Bool.not_eq_true', Bool.not_eq_false] using inside)
            | tail _ member => exact all d member
          · intro start d head
            cases head
            exact Bool.not_eq_true _ ▸ fun bad => first ⟨start, bad⟩

variable {tail out : StrBuf}

theorem checkContinuations_past {lead i : Nat} (here : At input (pos + i) (tail ++ rest))
    (checked : Checked lead i tail) : checkContinuations input pos lead tail.length i = .ok () := by
  induction tail generalizing i with
  | nil => rfl
  | cons b tail ih =>
    have head : input[pos + i]? = some b := here.head
    obtain ⟨all, first⟩ := checked
    rw [List.length_cons, checkContinuations, head]
    simp only [continuation_iff.mpr (all b (.head _)), Bool.not_true, Bool.false_eq_true, if_false]
    rw [if_neg fun bad => Bool.false_ne_true ((first bad.1 b rfl).symm.trans bad.2)]
    refine ih (At.next here) ⟨fun d member => all d (.tail _ member), ?_⟩
    intro never
    omega

theorem copyBytes_past (here : At input pos (tail ++ rest)) :
    copyBytes input out tail.length pos = .ok (out ++ tail, pos + tail.length) := by
  induction tail generalizing pos out with
  | nil => rw [List.append_nil]; rfl
  | cons b tail ih =>
    have head : input[pos]? = some b := here.head
    rw [List.length_cons, copyBytes, head]
    simp only
    rw [ih (At.next here), List.append_assoc, Nat.add_assoc, Nat.add_comm 1]
    rfl

/-- A first byte with as many checked bytes as it asks for is one scalar. -/
theorem scalar_iff {lead : UInt8} (high : 128 ≤ lead.toNat) : Utf8.Scalar (lead :: tail) ↔
    Checked lead.toNat 0 tail ∧ (194 ≤ lead.toNat ∧ lead.toNat ≤ 223 ∧ tail.length = 1 ∨
      224 ≤ lead.toNat ∧ lead.toNat ≤ 239 ∧ tail.length = 2 ∨ 240 ≤ lead.toNat ∧ lead.toNat ≤ 244 ∧ tail.length = 3) := by
  have bound : ∀ b : UInt8, boundaryLead lead.toNat b.toNat = false ↔ ¬(lead.toNat = 224 ∧ b.toNat < 160 ∨
      lead.toNat = 237 ∧ b.toNat > 159 ∨ lead.toNat = 240 ∧ b.toNat < 144 ∨ lead.toNat = 244 ∧ b.toNat > 143) := by
    intro b
    rw [← Bool.not_eq_true]
    simp only [boundaryLead, Bool.or_eq_true, Bool.and_eq_true, decide_eq_true_eq, or_assoc]
  constructor
  · intro scalar
    cases scalar with
    | one low => omega
    | two low high second =>
      refine ⟨⟨?_, ?_⟩, .inl ⟨low, by omega, rfl⟩⟩
      · intro b member
        rw [List.mem_singleton.mp member]
        exact second
      · rintro - b head
        cases head
        rw [bound]
        omega
    | three low high second third shortest scalar =>
      refine ⟨⟨?_, ?_⟩, .inr (.inl ⟨low, by omega, rfl⟩)⟩
      · intro b member
        simp only [List.mem_cons, List.not_mem_nil, or_false] at member
        rcases member with rfl | rfl
        · exact second
        · exact third
      · rintro - b head
        cases head
        rw [bound]
        omega
    | four low high second third fourth shortest inside =>
      refine ⟨⟨?_, ?_⟩, .inr (.inr ⟨low, by omega, rfl⟩)⟩
      · intro b member
        simp only [List.mem_cons, List.not_mem_nil, or_false] at member
        rcases member with rfl | rfl | rfl
        · exact second
        · exact third
        · exact fourth
      · rintro - b head
        cases head
        rw [bound]
        omega
  · rintro ⟨⟨all, first⟩, ⟨low, high, size⟩ | ⟨low, high, size⟩ | ⟨low, high, size⟩⟩
    · obtain ⟨b, rfl⟩ := List.length_eq_one_iff.mp size
      exact .two low (by omega) (all b (.head _))
    · obtain ⟨b, c, rfl⟩ := List.length_eq_two.mp size
      have clear := (bound b).mp (first rfl b rfl)
      exact .three low (by omega) (all b (.head _)) (all c (.tail _ (.head _))) (by omega) (by omega)
    · obtain ⟨b, c, d, rfl⟩ := List.length_eq_three.mp size
      have clear := (bound b).mp (first rfl b rfl)
      exact .four low (by omega) (all b (.head _)) (all c (.tail _ (.head _))) (all d (.tail _ (.tail _ (.head _))))
        (by omega) (by omega)

/-- What is read from the rest of the input, added to what was read before. -/
def Adds (input rest out : StrBuf) (Good : StrBuf → StrBuf → Prop) : StrBuf × Nat → Prop :=
  Takes input rest fun text whole => ∃ decoded, whole = out ++ decoded ∧ Good text decoded

theorem needed_sizes {first needed : Nat} (size : tail.length = needed)
    (chosen : (if 194 ≤ first ∧ first ≤ 223 then some 1
      else if 224 ≤ first ∧ first ≤ 239 then some 2
      else if 240 ≤ first ∧ first ≤ 244 then some 3
      else none) = some needed) :
    194 ≤ first ∧ first ≤ 223 ∧ tail.length = 1 ∨ 224 ≤ first ∧ first ≤ 239 ∧ tail.length = 2 ∨
      240 ≤ first ∧ first ≤ 244 ∧ tail.length = 3 := by
  split at chosen
  next => cases chosen; omega
  next =>
    split at chosen
    next => cases chosen; omega
    next =>
      split at chosen
      next => cases chosen; omega
      next => cases chosen

theorem copyUtf8_gives {lead : UInt8} {position : Nat} (here : At input pos rest) (high : 128 ≤ lead.toNat) :
    Gives (Adds input rest out fun text decoded => decoded = lead :: text ∧ Utf8.Scalar (lead :: text))
      (copyUtf8 input pos out lead position) := by
  have copied : ∀ needed, (∀ tail : StrBuf, tail.length = needed → Checked lead.toNat 0 tail → Utf8.Scalar (lead :: tail)) →
      Gives (Adds input rest out fun text decoded => decoded = lead :: text ∧ Utf8.Scalar (lead :: text))
        (checkContinuations input pos lead.toNat needed 0 >>= fun _ => copyBytes input (out ++ [lead]) needed pos) := by
    intro needed made
    refine (@checkContinuations_gives input rest pos lead.toNat needed 0 here).bind ?_
    rintro _ ⟨tail, after, rfl, rfl, checked⟩
    rw [copyBytes_past here]
    exact ⟨tail, after, rfl, ⟨lead :: tail, List.append_assoc .., rfl, made tail rfl checked⟩, here.skip⟩
  rw [copyUtf8]
  split
  next => exact gives_fail
  next needed chosen =>
    apply copied
    intro tail size checked
    exact (scalar_iff high).mpr ⟨checked, needed_sizes size chosen⟩

theorem copyUtf8_past {lead : UInt8} {position : Nat} (here : At input pos (tail ++ rest))
    (high : 128 ≤ lead.toNat) (scalar : Utf8.Scalar (lead :: tail)) :
    copyUtf8 input pos out lead position = .ok (out ++ lead :: tail, pos + tail.length) := by
  obtain ⟨checked, sizes⟩ := (scalar_iff high).mp scalar
  have chosen : (if 194 ≤ lead.toNat ∧ lead.toNat ≤ 223 then some 1
      else if 224 ≤ lead.toNat ∧ lead.toNat ≤ 239 then some 2
      else if 240 ≤ lead.toNat ∧ lead.toNat ≤ 244 then some 3
      else none) = some tail.length := by
    rcases sizes with ⟨low, high, size⟩ | ⟨low, high, size⟩ | ⟨low, high, size⟩
    · rw [if_pos ⟨low, high⟩, size]
    · rw [if_neg (by omega), if_pos ⟨low, high⟩, size]
    · rw [if_neg (by omega), if_neg (by omega), if_pos ⟨low, high⟩, size]
  rw [copyUtf8]
  simp only [chosen]
  rw [checkContinuations_past here checked]
  refine (copyBytes_past here).trans ?_
  rw [List.append_assoc]
  rfl

end Rue.Proofs.Text.Characters
