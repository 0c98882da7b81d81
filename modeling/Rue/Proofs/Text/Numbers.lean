import Rue.Proofs.Text.Grammar

/-! Numbers: what the parser takes for one is one, and it stops nowhere short of the
end of one. -/

namespace Rue.Proofs.Text.Numbers
open Rue.Lib.Cursor Rue.Text Rue.Proofs.Text.Grammar Rue.Proofs.Text.Reading

variable {input rest : StrBuf} {pos fin : Nat}

/-- The text that ends at a position. -/
def Reads (input rest : StrBuf) (Good : StrBuf → Prop) (fin : Nat) : Prop :=
  ∃ text after, rest = text ++ after ∧ Good text ∧ At input fin after

theorem digits_read (here : At input pos rest) (some' : consumeDigits input pos - pos ≠ 0) :
    Reads input rest Digits (consumeDigits input pos) := by
  obtain ⟨digits, after, parts, all, there, size⟩ := here.skipped_reads consumeDigits_turn consumeDigits_atEnd
  refine ⟨digits, after, parts, ⟨?_, fun b inside => isDigit_iff.mp (all b inside)⟩, there⟩
  intro empty
  rw [empty, List.length_nil] at size
  omega

theorem parseInteger_gives (here : At input pos rest) (some' : rest ≠ []) :
    Gives (Reads input rest Integer) (parseInteger input pos) := by
  rw [parseInteger, here.head]
  cases rest with
  | nil => exact absurd rfl some'
  | cons b after =>
    simp only [List.head?_cons]
    split
    next zero =>
      have spelled : b = 0x30 := UInt8.toNat_inj.mp zero
      subst spelled
      have whole : Reads input (0x30 :: after) Integer (pos + 1) := ⟨[0x30], after, rfl, .zero, here.next⟩
      split
      next => exact whole
      next d _ =>
        split
        next => exact gives_fail
        next => exact whole
    next other =>
      split
      next leading =>
        have digit : Digit b := ⟨by omega, leading.2⟩
        have turn := consumeDigits_turn pos b here.head
        rw [if_pos (isDigit_iff.mpr digit)] at turn
        rw [turn]
        obtain ⟨following, after', parts, all, there, _⟩ := here.next.skipped_reads consumeDigits_turn consumeDigits_atEnd
        subst parts
        refine ⟨b :: following, after', rfl, .digits digit ?_ fun d inside => isDigit_iff.mp (all d inside), there⟩
        rintro rfl
        exact absurd rfl other
      next => exact gives_fail

theorem parseFraction_gives (here : At input pos rest) : Gives (Reads input rest Fraction) (parseFraction input pos) := by
  have absent : Reads input rest Fraction pos := ⟨[], rest, rfl, .absent, here⟩
  rw [parseFraction]
  split
  next => exact absent
  next b found =>
    split
    next point =>
      have spelled : b = 0x2E := UInt8.toNat_inj.mp point
      subst spelled
      obtain ⟨after, rfl⟩ := here.cons found
      simp only
      split
      next => exact gives_fail
      next some' =>
        obtain ⟨digits, after', rfl, good, there⟩ := digits_read here.next some'
        exact ⟨0x2E :: digits, after', rfl, .digits good, there⟩
    next => exact absent

theorem mark_listed {e : UInt8} (mark : e.toNat = 101 ∨ e.toNat = 69) : e ∈ ([0x65, 0x45] : StrBuf) := by
  rcases mark with lower | upper
  · rw [show e = 0x65 from UInt8.toNat_inj.mp lower]
    exact .head _
  · rw [show e = 0x45 from UInt8.toNat_inj.mp upper]
    exact .tail _ (.head _)

theorem sign_listed {sign : UInt8} (either : sign.toNat = 43 ∨ sign.toNat = 45) :
    [sign] ∈ ([[], [0x2B], [0x2D]] : List StrBuf) := by
  rcases either with plus | minus
  · rw [show sign = 0x2B from UInt8.toNat_inj.mp plus]
    exact .tail _ (.head _)
  · rw [show sign = 0x2D from UInt8.toNat_inj.mp minus]
    exact .tail _ (.tail _ (.head _))

theorem parseExponent_gives (here : At input pos rest) : Gives (Reads input rest Exponent) (parseExponent input pos) := by
  have absent : Reads input rest Exponent pos := ⟨[], rest, rfl, .absent, here⟩
  rw [parseExponent]
  split
  next => exact absent
  next e found =>
    split
    next mark =>
      have listed := mark_listed mark
      obtain ⟨after, rfl⟩ := here.cons found
      -- Where the digits begin, with the sign before them.
      have signed : ∀ digits sign after', after = sign ++ after' → sign ∈ ([[], [0x2B], [0x2D]] : List StrBuf) →
          At input digits after' →
          Gives (Reads input (e :: after) Exponent)
            (if consumeDigits input digits - digits = 0 then fail (.invalidNumber (consumeDigits input digits))
            else .ok (consumeDigits input digits)) := by
        intro digits sign after' parts allowed there
        split
        next => exact gives_fail
        next some' =>
          obtain ⟨text, after'', rfl, good, there'⟩ := digits_read there some'
          exact ⟨e :: (sign ++ text), after'', by rw [parts, List.cons_append, List.append_assoc],
            .digits listed allowed good, there'⟩
      simp only
      split
      next => exact signed (pos + 1) [] after rfl (.head _) here.next
      next sign found' =>
        obtain ⟨after', rfl⟩ := here.next.cons found'
        split
        next either =>
          exact signed (pos + 2) [sign] after' rfl (sign_listed either) here.next.next
        next => exact signed (pos + 1) [] (sign :: after') rfl (.head _) here.next
    next => exact absent

/-- A value and the text it was read from. -/
def Takes {α : Type} (input rest : StrBuf) (Good : StrBuf → α → Prop) : α × Nat → Prop :=
  fun (value, fin) => Reads input rest (Good · value) fin

theorem parseNumber_gives (here : At input pos rest) (some' : rest ≠ []) :
    Gives (Takes input rest fun text value => value = .number text ∧ Number text) (parseNumber input pos) := by
  rw [parseNumber, here.head]
  cases rest with
  | nil => exact absurd rfl some'
  | cons b after =>
    obtain ⟨start, same⟩ : ∃ start, start = if b.toNat = 45 then pos + 1 else pos := ⟨_, rfl⟩
    simp only [List.head?_cons, ← same]
    split
    next => exact gives_fail
    next more =>
      -- The sign, and what is left at the whole part.
      have signed : ∃ sign whole, b :: after = sign ++ whole ∧ sign ∈ ([[], [0x2D]] : List StrBuf) ∧ whole ≠ [] ∧
          At input start whole := by
        rw [same] at more ⊢
        split
        next minus =>
          rw [if_pos minus] at more
          rw [show b = 0x2D from UInt8.toNat_inj.mp minus] at here ⊢
          refine ⟨[0x2D], after, rfl, .tail _ (.head _), ?_, here.next⟩
          intro empty
          have ended := here.next.atEnd.mpr empty
          omega
        next => exact ⟨[], b :: after, rfl, .head _, some', here⟩
      obtain ⟨sign, whole, parts, allowed, some'', there⟩ := signed
      rw [parts] at here ⊢
      apply (parseInteger_gives there some'').bind
      rintro fin ⟨integer, rest, rfl, first, there⟩
      apply (parseFraction_gives there).bind
      rintro fin ⟨fraction, rest, rfl, second, there⟩
      apply (parseExponent_gives there).bind
      rintro fin ⟨exponent, rest, rfl, third, there⟩
      have joined : sign ++ (integer ++ (fraction ++ (exponent ++ rest))) =
          sign ++ (integer ++ (fraction ++ exponent)) ++ rest := by
        simp only [List.append_assoc]
      rw [joined] at here ⊢
      have length := there.unique here.skip
      have size := here.length
      rw [List.length_append] at size
      rw [if_pos ⟨by omega, by omega⟩]
      refine ⟨_, rest, rfl, ⟨?_, .made allowed first second third⟩, there⟩
      rw [length, Nat.add_sub_cancel_left, here.between]

def Starts (bytes allowed : StrBuf) : Prop := ∀ b, bytes.head? = some b → b ∈ allowed

def enders : StrBuf := [0x20, 0x09, 0x0A, 0x0D, 0x2C, 0x5D, 0x7D]

section Past

variable {text : StrBuf}

theorem noDigit {allowed : StrBuf} (starts : Starts rest allowed) (none' : allowed.any isDigit = false) (b : UInt8)
    (first : rest.head? = some b) : isDigit b = false :=
  Bool.eq_false_iff.mpr (List.any_eq_false.mp none' b (starts b first))

theorem consumeDigits_past {allowed : StrBuf} (here : At input pos (text ++ rest)) (all : ∀ b ∈ text, Digit b)
    (starts : Starts rest allowed) (none' : allowed.any isDigit = false) :
    consumeDigits input pos = pos + text.length :=
  here.skipped_past consumeDigits_turn consumeDigits_atEnd (fun b inside => isDigit_iff.mpr (all b inside)) (noDigit starts none')

theorem parseInteger_past {allowed : StrBuf} (here : At input pos (text ++ rest)) (integer : Integer text)
    (starts : Starts rest allowed) (none' : allowed.any isDigit = false) :
    parseInteger input pos = .ok (pos + text.length) := by
  cases integer with
  | zero =>
    have next : input[pos + 1]? = rest.head? := At.head (At.next here)
    have head : input[pos]? = some 0x30 := here.head
    rw [parseInteger, head]
    simp only
    rw [if_pos (by decide), next]
    split
    next => rfl
    next d found =>
      rw [noDigit starts none' d found]
      rfl
  | @digits first following leading positive all =>
    have head : input[pos]? = some first := here.head
    have other : first.toNat ≠ 48 := fun same => positive (UInt8.toNat_inj.mp same)
    obtain ⟨low, high⟩ := leading
    rw [parseInteger, head]
    simp only
    rw [if_neg other, if_pos ⟨by omega, high⟩, consumeDigits_past here ?_ starts none']
    intro b inside
    cases inside with
    | head => exact ⟨low, high⟩
    | tail _ inside => exact all b inside

theorem parseFraction_past {allowed : StrBuf} (here : At input pos (text ++ rest)) (fraction : Fraction text)
    (starts : Starts rest allowed) (none' : allowed.any isDigit = false) (other : 0x2E ∉ allowed) :
    parseFraction input pos = .ok (pos + text.length) := by
  cases fraction with
  | absent =>
    rw [parseFraction, here.head]
    split
    next => rfl
    next b found =>
      rw [if_neg]
      · rfl
      · intro point
        apply other
        rw [← show b = 0x2E from UInt8.toNat_inj.mp point]
        exact starts b found
  | @digits digits some' =>
    have head : input[pos]? = some 0x2E := here.head
    have past := consumeDigits_past (At.next here) some'.2 starts none'
    have length := List.length_pos_iff.mpr some'.1
    rw [parseFraction, head]
    simp only
    rw [if_pos (by decide), past, if_neg (by omega), List.length_cons, Nat.add_assoc, Nat.add_comm 1]

theorem parseExponent_past {allowed : StrBuf} (here : At input pos (text ++ rest)) (exponent : Exponent text)
    (starts : Starts rest allowed) (none' : allowed.any isDigit = false) (other : 0x65 ∉ allowed ∧ 0x45 ∉ allowed) :
    parseExponent input pos = .ok (pos + text.length) := by
  cases exponent with
  | absent =>
    rw [parseExponent, here.head]
    split
    next => rfl
    next b found =>
      rw [if_neg]
      · rfl
      · rintro (lower | upper)
        · apply other.1
          rw [← show b = 0x65 from UInt8.toNat_inj.mp lower]
          exact starts b found
        · apply other.2
          rw [← show b = 0x45 from UInt8.toNat_inj.mp upper]
          exact starts b found
  | @digits e sign digits mark signed some' =>
    have head : input[pos]? = some e := here.head
    have marked : e.toNat = 101 ∨ e.toNat = 69 := by
      simp only [List.mem_cons, List.not_mem_nil, or_false] at mark
      rcases mark with rfl | rfl
      · exact .inl rfl
      · exact .inr rfl
    rw [List.cons_append, List.append_assoc] at here
    have past := consumeDigits_past here.next.skip some'.2 starts none'
    have length := List.length_pos_iff.mpr some'.1
    rw [parseExponent, head]
    simp only
    rw [if_pos marked]
    have closes : (if consumeDigits input (pos + 1 + sign.length) - (pos + 1 + sign.length) = 0 then
          fail (.invalidNumber (consumeDigits input (pos + 1 + sign.length)))
        else .ok (consumeDigits input (pos + 1 + sign.length))) = .ok (pos + (e :: (sign ++ digits)).length) := by
      rw [past, if_neg (by omega), List.length_cons, List.length_append]
      congr 1
      omega
    -- The digits begin after the sign, if there is one.
    rw [here.next.head]
    simp only [List.mem_cons, List.not_mem_nil, or_false] at signed
    rcases signed with rfl | rfl | rfl
    · obtain ⟨first, following, rfl⟩ := List.exists_cons_of_ne_nil some'.1
      have low : 48 ≤ first.toNat := (some'.2 first (.head _)).1
      have neither : ¬(first.toNat = 43 ∨ first.toNat = 45) := by omega
      simp only [List.nil_append, List.cons_append, List.head?_cons, if_neg neither]
      exact closes
    · exact closes
    · exact closes

theorem starts_fraction {allowed : StrBuf} (fraction : Fraction text) (starts : Starts rest allowed) :
    Starts (text ++ rest) (0x2E :: allowed) := by
  intro b first
  cases fraction with
  | absent => exact .tail _ (starts b first)
  | digits =>
    cases first
    exact .head _

theorem starts_exponent {allowed : StrBuf} (exponent : Exponent text) (starts : Starts rest allowed) :
    Starts (text ++ rest) (0x65 :: 0x45 :: allowed) := by
  intro b first
  cases exponent with
  | absent => exact .tail _ (.tail _ (starts b first))
  | digits mark =>
    cases first
    exact List.mem_append_left allowed mark

theorem integer_head (integer : Integer text) : ∃ first following, text = first :: following ∧ Digit first := by
  cases integer with
  | zero => exact ⟨0x30, [], rfl, by decide, by decide⟩
  | digits leading => exact ⟨_, _, rfl, leading⟩

/-- The sign decides where the whole part begins. -/
theorem number_begins {sign following : StrBuf} {digit : UInt8} (here : At input pos (sign ++ digit :: following))
    (signed : sign ∈ ([[], [0x2D]] : List StrBuf)) (isDigit' : Digit digit) :
    ∃ lead, input[pos]? = some lead ∧ (if lead.toNat = 45 then pos + 1 else pos) = pos + sign.length := by
  simp only [List.mem_cons, List.not_mem_nil, or_false] at signed
  rcases signed with rfl | rfl
  · refine ⟨digit, here.head, ?_⟩
    have low : 48 ≤ digit.toNat := isDigit'.1
    rw [if_neg (by omega), List.length_nil, Nat.add_zero]
  · exact ⟨0x2D, here.head, rfl⟩

theorem parseNumber_past (here : At input pos (text ++ rest)) (number : Number text) (starts : Starts rest enders) :
    parseNumber input pos = .ok (.number text, pos + text.length) := by
  cases number with
  | @made sign integer fraction exponent signed whole decimals power =>
    have between := here.between
    have size := here.length
    simp only [List.append_assoc] at here
    have starts' := starts_exponent power starts
    have starts'' := starts_fraction decimals starts'
    have there : At input (pos + sign.length) _ := here.skip
    have first := parseInteger_past there whole starts'' (by decide)
    have second := parseFraction_past there.skip decimals starts' (by decide) (by decide)
    have third := parseExponent_past there.skip.skip power starts (by decide) (by decide)
    obtain ⟨digit, following, rfl, isDigit'⟩ := integer_head whole
    simp only [List.length_append] at size between
    obtain ⟨lead, found, begins⟩ := number_begins here signed isDigit'
    rw [parseNumber, found]
    simp only [begins]
    rw [if_neg (by rw [List.length_cons] at size; omega), first, ok_bind, second, ok_bind, third, ok_bind,
      if_pos (by omega)]
    simp only [pure, Except.pure, List.length_append]
    have total : pos + sign.length + (digit :: following).length + fraction.length + exponent.length =
        pos + (sign.length + ((digit :: following).length + (fraction.length + exponent.length))) := by omega
    rw [total, Nat.add_sub_cancel_left, between]

end Past

end Rue.Proofs.Text.Numbers
