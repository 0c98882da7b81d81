import Rue.Proofs.Text.Soundness
import Rue.Proofs.Text.Errors

/-! How far the parser looks: a result depends on the bytes up to it, and an error on
those up to the one it names. -/

namespace Rue.Proofs.Text.Lookahead
open Rue.Lib.Cursor Rue.Text Rue.Proofs.Text.Grammar Rue.Proofs.Text.Reading Rue.Proofs.Text.Numbers
open Rue.Proofs.Text.Characters Rue.Proofs.Text.Strings Rue.Proofs.Text.Soundness Rue.Proofs.Text.Errors

/-- The same bytes below a position, or the same end. -/
def Agree (input other : StrBuf) (count : Nat) : Prop := ∀ i < count, other[i]? = input[i]?

/-- The bytes that were looked at for an outcome. -/
inductive Looks {α : Type} (read : α → Nat) : Outcome α → Nat → Prop where
  | ok {value} : Looks read (.ok value) (read value)
  | error {error} : Looks read (fail error) (offset error + 1)

/-- At least some bytes are looked at, and those looked at decide. -/
def Follows {α : Type} (input : StrBuf) (read : α → Nat) (low : Nat) (outcome : Outcome α) (other : StrBuf → Outcome α) : Prop :=
  ∀ count, Looks read outcome count → low ≤ count ∧ ∀ input', Agree input input' count → other input' = outcome

section Follows
variable {α β : Type} {input : StrBuf} {read : α → Nat} {read' : β → Nat} {low low' count : Nat} {outcome : Outcome α}
  {other other' : StrBuf → Outcome α}

theorem Agree.less {input' : StrBuf} (agree : Agree input input' count) (less : low ≤ count) : Agree input input' low :=
  fun i small => agree i (Nat.lt_of_lt_of_le small less)

theorem Agree.get {input' : StrBuf} {pos : Nat} (agree : Agree input input' (pos + 1)) : input'[pos]? = input[pos]? :=
  agree pos (Nat.lt_succ_self pos)

theorem follows_ok {value : α} (enough : low ≤ read value) : Follows input read low (.ok value) fun _ => .ok value := by
  rintro count ⟨⟩
  exact ⟨enough, fun _ _ => rfl⟩

theorem follows_fail {error : ParseError} (enough : low ≤ offset error + 1) :
    Follows input read low (fail error) fun _ => fail error := by
  rintro count ⟨⟩
  exact ⟨enough, fun _ _ => rfl⟩

theorem follows_trap : Follows input read low (.error .trap) other := nofun

theorem follows_endless : Follows input read low (.error .endless) other := nofun

theorem Follows.weaken (follows : Follows input read low outcome other) (less : low' ≤ low) :
    Follows input read low' outcome other :=
  fun count looks => ⟨Nat.le_trans less (follows count looks).1, (follows count looks).2⟩

/-- Bytes that are looked at in any case may be taken as read. -/
theorem Follows.swap (inside : count ≤ low) (same : ∀ input', Agree input input' count → other input' = other' input')
    (follows : Follows input read low outcome other') : Follows input read low outcome other := by
  intro n looks
  obtain ⟨enough, decides⟩ := follows n looks
  refine ⟨enough, fun input' agree => ?_⟩
  rw [same input' (agree.less (Nat.le_trans inside enough))]
  exact decides input' agree

theorem Follows.bind {next : α → Outcome β} {next' : StrBuf → α → Outcome β} (first : Follows input read low outcome other)
    (later : ∀ value, outcome = .ok value → Follows input read' (read value) (next value) fun input' => next' input' value) :
    Follows input read' low (outcome >>= next) fun input' => other input' >>= next' input' := by
  intro count looks
  cases outcome with
  | ok value =>
    obtain ⟨least, decides⟩ := first _ .ok
    obtain ⟨least', decides'⟩ := later value rfl count looks
    refine ⟨Nat.le_trans least least', fun input' agree => ?_⟩
    show (other input' >>= next' input') = next value
    rw [decides input' (agree.less least')]
    exact decides' input' agree
  | error failure =>
    cases looks
    next error =>
      obtain ⟨least, decides⟩ := first _ .error
      refine ⟨least, fun input' agree => ?_⟩
      show (other input' >>= next' input') = fail error
      rw [decides input' agree]
      rfl

end Follows

variable {input rest out : StrBuf} {pos : Nat}

variable {input' : StrBuf}

theorem Agree.length (here : At input pos rest) (none' : input[pos]? = none) (agree : Agree input input' (pos + 1)) :
    input'.length = input.length := by
  have ended := here.atEnd.mpr (missing here none')
  have above : input'.length ≤ pos := List.getElem?_eq_none_iff.mp (agree.get.trans none')
  by_contra other
  have inside : pos - 1 < input.length := by omega
  have same := agree (pos - 1) (by omega)
  rw [List.getElem?_eq_getElem inside] at same
  have := (List.getElem?_eq_some_iff.mp same).1
  omega

theorem ended_follows {α : Type} {read : α → Nat} (here : At input pos rest) (none' : input[pos]? = none) :
    Follows input read (pos + 1) (fail (.unexpectedEnd input.length)) fun input' => fail (.unexpectedEnd input'.length) := by
  refine Follows.swap (Nat.le_refl _) (fun input' agree => ?_) (follows_fail (Nat.succ_le_succ here.1))
  rw [Agree.length here none' agree]

theorem Agree.longer {b : UInt8} (found : input[pos]? = some b) (agree : Agree input input' (pos + 1)) :
    pos < input'.length := by
  have same := agree.get
  rw [found] at same
  exact (List.getElem?_eq_some_iff.mp same).1

theorem Agree.inside (inside : ¬input.length ≤ pos) (agree : Agree input input' (pos + 1)) :
    ¬input'.length ≤ pos := by
  have found : input[pos]? = some (input.get ⟨pos, Nat.lt_of_not_le inside⟩) := List.getElem?_eq_getElem _
  exact Nat.not_le_of_lt (Agree.longer found agree)

theorem skipSpace_agree (agree : Agree input input' (skipSpace input pos + 1)) :
    skipSpace input' pos = skipSpace input pos := by
  fun_induction skipSpace input pos with
  | case1 pos inside b found blank ih =>
    have least : pos + 1 ≤ skipSpace input (pos + 1) := by
      have here : At input (pos + 1) (input.drop (pos + 1)) := ⟨inside, rfl⟩
      obtain ⟨_, _, _, _, _, size⟩ := here.skipped_reads skipSpace_turn skipSpace_atEnd
      omega
    have same := agree pos (by omega)
    rw [skipSpace_turn pos b (same.trans found), if_pos blank]
    exact ih agree
  | case2 pos inside b found other =>
    have same := agree pos (by omega)
    rw [skipSpace_turn pos b (same.trans found), if_neg other]
  | case3 pos inside found =>
    have same := agree pos (by omega)
    exact skipSpace_atEnd pos (same.trans found)
  | case4 pos outside =>
    have same := agree pos (by omega)
    exact skipSpace_atEnd pos (same.trans (List.getElem?_eq_none (Nat.le_of_not_lt outside)))

theorem consumeDigits_agree (agree : Agree input input' (consumeDigits input pos + 1)) :
    consumeDigits input' pos = consumeDigits input pos := by
  fun_induction consumeDigits input pos with
  | case1 pos inside b found digit ih =>
    have least : pos + 1 ≤ consumeDigits input (pos + 1) := by
      have here : At input (pos + 1) (input.drop (pos + 1)) := ⟨inside, rfl⟩
      obtain ⟨_, _, _, _, _, size⟩ := here.skipped_reads consumeDigits_turn consumeDigits_atEnd
      omega
    have same := agree pos (by omega)
    rw [consumeDigits_turn pos b (same.trans found), if_pos digit]
    exact ih agree
  | case2 pos inside b found other =>
    have same := agree pos (by omega)
    rw [consumeDigits_turn pos b (same.trans found), if_neg other]
  | case3 pos inside found =>
    have same := agree pos (by omega)
    exact consumeDigits_atEnd pos (same.trans found)
  | case4 pos outside =>
    have same := agree pos (by omega)
    exact consumeDigits_atEnd pos (same.trans (List.getElem?_eq_none (Nat.le_of_not_lt outside)))

theorem skipSpace_least (here : At input pos rest) : pos ≤ skipSpace input pos := by
  obtain ⟨_, _, _, _, _, size⟩ := here.skipped_reads skipSpace_turn skipSpace_atEnd
  omega

theorem consumeDigits_least (here : At input pos rest) : pos ≤ consumeDigits input pos := by
  obtain ⟨_, _, _, _, _, size⟩ := here.skipped_reads consumeDigits_turn consumeDigits_atEnd
  omega

theorem parseLiteral_follows {word : StrBuf} (here : At input pos rest) :
    Follows input id (pos + min word.length 1) (parseLiteral input pos word) fun input' => parseLiteral input' pos word := by
  induction word generalizing pos rest with
  | nil => exact follows_ok (Nat.le_refl _)
  | cons expected word ih =>
    rw [List.length_cons, Nat.min_eq_right (Nat.le_add_left 1 _), parseLiteral]
    refine Follows.swap (Nat.le_refl _) (fun input' agree => by rw [parseLiteral, agree.get]) ?_
    cases found : input[pos]? with
    | none => exact follows_fail (Nat.le_refl _)
    | some b =>
      obtain ⟨after, rfl⟩ := here.cons found
      dsimp only
      split
      next => exact follows_fail (Nat.le_refl _)
      next => exact (ih here.next).weaken (Nat.le_add_right _ _)

theorem parseHexDigits_follows {requireLowSurrogate : Bool} {left value : Nat} :
    Follows input Prod.snd pos (parseHexDigits input requireLowSurrogate left pos value)
      fun input' => parseHexDigits input' requireLowSurrogate left pos value := by
  induction left generalizing pos value with
  | zero => exact follows_ok (Nat.le_refl _)
  | succ left ih =>
    refine Follows.weaken ?_ (Nat.le_succ pos)
    rw [parseHexDigits]
    refine Follows.swap (Nat.le_refl _) (fun input' agree => by rw [parseHexDigits, agree.get]) ?_
    cases input[pos]? with
    | none => exact follows_fail (Nat.le_refl _)
    | some b =>
      dsimp only
      cases hexValue b with
      | none => exact follows_fail (Nat.le_refl _)
      | some digit =>
        dsimp only
        split
        next => exact follows_fail (Nat.le_refl _)
        next =>
          split
          next => exact follows_fail (Nat.le_refl _)
          next => exact ih

theorem parseHex4_follows {requireLowSurrogate : Bool} :
    Follows input Prod.snd pos (parseHex4 input pos requireLowSurrogate) fun input' => parseHex4 input' pos requireLowSurrogate :=
  parseHexDigits_follows

theorem parseUnicodeEscape_follows {position : Nat} (here : At input pos rest) :
    Follows input Prod.snd pos (parseUnicodeEscape input pos out position)
      fun input' => parseUnicodeEscape input' pos out position := by
  rw [parseUnicodeEscape]
  refine Follows.bind parseHex4_follows ?_
  rintro ⟨first, fin⟩ parsed
  have gives := @parseHex4_gives input rest pos false here
  rw [parsed] at gives
  obtain ⟨text, after, rfl, ⟨spelled, fits⟩, there⟩ := gives
  dsimp only at spelled fits there ⊢
  have small := Hex4.small spelled
  split
  next upper =>
    refine Follows.weaken ?_ (Nat.le_succ fin)
    refine Follows.swap (Nat.le_refl _) (fun input' agree => by rw [agree.get]) ?_
    cases found : input[fin]? with
    | none =>
      refine Follows.swap (Nat.le_refl _) (fun input' agree => ?_) (follows_fail ?_)
      · dsimp only
        rw [Agree.length there found agree]
      · exact Nat.succ_le_succ there.1
    | some b =>
      obtain ⟨after, rfl⟩ := there.cons found
      dsimp only
      split
      next => exact follows_fail (Nat.le_refl _)
      next =>
        refine Follows.weaken ?_ (Nat.le_succ (fin + 1))
        refine Follows.swap (Nat.le_refl _) (fun input' agree => by rw [agree.get]) ?_
        cases found' : input[fin + 1]? with
        | none =>
          refine Follows.swap (Nat.le_refl _) (fun input' agree => ?_) (follows_fail ?_)
          · dsimp only
            rw [Agree.length there.next found' agree]
          · exact Nat.succ_le_succ there.next.1
        | some u =>
          obtain ⟨after, rfl⟩ := there.next.cons found'
          dsimp only
          split
          next => exact follows_fail (Nat.le_refl _)
          next =>
            refine Follows.bind parseHex4_follows ?_
            rintro ⟨second, fin'⟩ parsed'
            have gives := @parseHex4_gives input after (fin + 2) true there.next.next
            rw [parsed'] at gives
            obtain ⟨text', after, rfl, ⟨spelled', fits'⟩, there'⟩ := gives
            dsimp only at spelled' fits' there' ⊢
            have lower := fits'.mp rfl
            rw [if_neg (by omega)]
            generalize sum : 65536 + (first - 55296) * 1024 + (second - 56320) = cp
            obtain ⟨c, code⟩ := Rue.Lib.Utf8.char_of_code cp (by omega)
            rw [← code, pushCodepoint_char]
            exact follows_ok (Nat.le_refl _)
  next single =>
    have outside := mt fits.mpr Bool.false_ne_true
    obtain ⟨c, code⟩ := Rue.Lib.Utf8.char_of_code first (by omega)
    rw [← code, pushCodepoint_char]
    exact follows_ok (Nat.le_refl _)

theorem checkContinuations_follows {lead needed i : Nat} (here : At input (pos + i) rest) :
    Follows input (fun _ => pos + i + needed) (pos + i) (checkContinuations input pos lead needed i)
      fun input' => checkContinuations input' pos lead needed i := by
  induction needed generalizing i rest with
  | zero => exact follows_ok (Nat.le_refl _)
  | succ needed ih =>
    refine Follows.weaken ?_ (Nat.le_succ _)
    rw [checkContinuations]
    refine Follows.swap (Nat.le_refl _) (fun input' agree => by rw [checkContinuations, agree.get]) ?_
    cases found : input[pos + i]? with
    | none => exact ended_follows here found
    | some b =>
      obtain ⟨after, rfl⟩ := here.cons found
      dsimp only
      split
      next => exact follows_fail (Nat.le_refl _)
      next =>
        split
        next bad =>
          refine follows_fail ?_
          rw [bad.1]
          exact Nat.le_refl _
        next =>
          have later := @ih after (i + 1) here.next
          rw [show pos + (i + 1) + needed = pos + i + (needed + 1) by omega] at later
          exact later

theorem copyBytes_follows {count : Nat} :
    Follows input Prod.snd pos (copyBytes input out count pos) fun input' => copyBytes input' out count pos := by
  induction count generalizing pos out with
  | zero => exact follows_ok (Nat.le_refl _)
  | succ count ih =>
    refine Follows.weaken ?_ (Nat.le_succ pos)
    rw [copyBytes]
    refine Follows.swap (Nat.le_refl _) (fun input' agree => by rw [copyBytes, agree.get]) ?_
    cases input[pos]? with
    | none => exact follows_trap
    | some b => exact ih

theorem copyUtf8_follows {lead : UInt8} (here : At input (pos + 1) rest) :
    Follows input Prod.snd (pos + 1) (copyUtf8 input (pos + 1) out lead pos)
      fun input' => copyUtf8 input' (pos + 1) out lead pos := by
  simp only [copyUtf8]
  split
  next => exact follows_fail (Nat.le_refl _)
  next needed _ =>
    have checks := @checkContinuations_follows input rest (pos + 1) lead.toNat needed 0 here
    refine Follows.bind checks ?_
    rintro ⟨⟩ checked
    have gives := @checkContinuations_gives input rest (pos + 1) lead.toNat needed 0 here
    rw [checked] at gives
    obtain ⟨tail, after, rfl, rfl, -⟩ := gives
    intro count looks
    refine ⟨?_, (copyBytes_follows count looks).2⟩
    rw [copyBytes_past here] at looks
    cases looks
    exact Nat.le_refl _

theorem parseCharacters_follows {tries tries' : Nat} (here : At input pos rest) (more : tries ≤ tries') :
    Follows input Prod.snd (pos + 1) (parseCharacters input tries pos out)
      fun input' => parseCharacters input' tries' pos out := by
  induction tries generalizing pos rest out tries' with
  | zero => exact follows_endless
  | succ tries ih =>
    obtain ⟨tries', rfl⟩ : ∃ fewer, tries' = fewer + 1 := ⟨tries' - 1, by omega⟩
    rw [parseCharacters]
    refine Follows.swap (Nat.le_refl _) (fun input' agree => by rw [parseCharacters, agree.get]) ?_
    cases found : input[pos]? with
    | none => exact ended_follows here found
    | some b =>
      obtain ⟨after, rfl⟩ := here.cons found
      dsimp only
      split
      next => exact follows_ok (Nat.le_refl _)
      next =>
        split
        next => exact follows_fail (Nat.le_refl _)
        next =>
          split
          next high =>
            refine Follows.bind (copyUtf8_follows here.next) ?_
            rintro ⟨whole, fin⟩ copied
            have gives := @copyUtf8_gives input after (pos + 1) out b pos here.next high
            rw [copied] at gives
            obtain ⟨text, after, rfl, -, there⟩ := gives
            exact (ih there (by omega)).weaken (Nat.le_succ fin)
          next =>
            split
            next => exact (ih here.next (by omega)).weaken (Nat.le_succ _)
            next =>
              refine Follows.weaken ?_ (Nat.le_succ (pos + 1))
              refine Follows.swap (Nat.le_refl _) (fun input' agree => by rw [agree.get]) ?_
              cases found' : input[pos + 1]? with
              | none => exact follows_fail (Nat.le_refl _)
              | some e =>
                obtain ⟨after, rfl⟩ := here.next.cons found'
                dsimp only
                cases simpleEscape e.toNat with
                | some c => exact (ih here.next.next (by omega)).weaken (Nat.le_succ _)
                | none =>
                  dsimp only
                  split
                  next =>
                    refine Follows.bind (parseUnicodeEscape_follows here.next.next) ?_
                    rintro ⟨whole, fin⟩ escaped
                    have gives := @parseUnicodeEscape_gives input after out (pos + 2) pos here.next.next
                    rw [escaped] at gives
                    obtain ⟨text, after, rfl, -, there⟩ := gives
                    exact (ih there (by omega)).weaken (Nat.le_succ fin)
                  next => exact follows_fail (Nat.le_refl _)

theorem Looks.of_gives {α : Type} {Good : α → Prop} {outcome : Outcome α} (read : α → Nat) (gives : Gives Good outcome) :
    ∃ count, Looks read outcome count := by
  cases outcome with
  | ok value => exact ⟨_, .ok⟩
  | error failure =>
    cases failure with
    | reported error => exact ⟨_, .error⟩
    | trap => cases gives
    | endless => cases gives

theorem parseCharacters_more {tries tries' : Nat} (here : At input pos rest) (enough : rest.length < tries) (more : tries ≤ tries') :
    parseCharacters input tries' pos out = parseCharacters input tries pos out := by
  obtain ⟨count, looks⟩ := Looks.of_gives Prod.snd (@parseCharacters_gives input rest out pos tries here enough)
  exact (parseCharacters_follows here more count looks).2 input fun _ _ => rfl

theorem parseString_follows (here : At input pos rest) :
    Follows input Prod.snd (pos + 1) (parseString input pos) fun input' => parseString input' pos := by
  rw [parseString]
  refine Follows.swap (Nat.le_refl _) (fun input' agree => by rw [parseString, agree.get]) ?_
  cases found : input[pos]? with
  | none => exact ended_follows here found
  | some b =>
    obtain ⟨after, rfl⟩ := here.cons found
    dsimp only
    split
    next => exact follows_fail (Nat.le_refl _)
    next =>
      intro count looks
      obtain ⟨least, -⟩ := parseCharacters_follows here.next (Nat.le_refl _) count looks
      refine ⟨by omega, fun input' agree => ?_⟩
      have inside := Agree.longer found (agree.less (Nat.le_trans (Nat.le_succ _) least))
      have there : At input' (pos + 1) (input'.drop (pos + 1)) := ⟨inside, rfl⟩
      have size := there.length
      show parseCharacters input' (input'.length + 1) (pos + 1) [] = _
      rw [← parseCharacters_more there (by omega) (Nat.le_max_left (input'.length + 1) (input.length + 1))]
      exact (parseCharacters_follows here.next (Nat.le_max_right _ _) count looks).2 input' agree

theorem consumed_follows {digits : Nat} (before : pos ≤ digits) (inside : digits ≤ input.length) :
    Follows input (· + 1) (pos + 1)
      (if consumeDigits input digits - digits = 0 then fail (.invalidNumber (consumeDigits input digits))
        else .ok (consumeDigits input digits))
      fun input' => if consumeDigits input' digits - digits = 0 then fail (.invalidNumber (consumeDigits input' digits))
        else .ok (consumeDigits input' digits) := by
  have there : At input digits (input.drop digits) := ⟨inside, rfl⟩
  have least := consumeDigits_least there
  refine Follows.weaken ?_ (show pos + 1 ≤ consumeDigits input digits + 1 by omega)
  refine Follows.swap (Nat.le_refl _) (fun input' agree => by rw [consumeDigits_agree agree]) ?_
  split
  next => exact follows_fail (Nat.le_refl _)
  next => exact follows_ok (Nat.le_refl _)

theorem parseInteger_follows (here : At input pos rest) :
    Follows input (· + 1) (pos + 1) (parseInteger input pos) fun input' => parseInteger input' pos := by
  rw [parseInteger]
  refine Follows.swap (Nat.le_refl _) (fun input' agree => by rw [parseInteger, agree.get]) ?_
  cases found : input[pos]? with
  | none => exact follows_trap
  | some b =>
    obtain ⟨after, rfl⟩ := here.cons found
    dsimp only
    split
    next =>
      refine Follows.weaken ?_ (Nat.le_succ (pos + 1))
      refine Follows.swap (Nat.le_refl _) (fun input' agree => by rw [agree.get]) ?_
      cases input[pos + 1]? with
      | none => exact follows_ok (Nat.le_refl _)
      | some d =>
        dsimp only
        split
        next => exact follows_fail (Nat.le_refl _)
        next => exact follows_ok (Nat.le_refl _)
    next =>
      split
      next =>
        have least := consumeDigits_least here
        refine Follows.weaken ?_ (Nat.succ_le_succ least)
        refine Follows.swap (Nat.le_refl _) (fun input' agree => by rw [consumeDigits_agree agree]) ?_
        exact follows_ok (Nat.le_refl _)
      next => exact follows_fail (Nat.le_refl _)

theorem parseFraction_follows (here : At input pos rest) :
    Follows input (· + 1) (pos + 1) (parseFraction input pos) fun input' => parseFraction input' pos := by
  rw [parseFraction]
  refine Follows.swap (Nat.le_refl _) (fun input' agree => by rw [parseFraction, agree.get]) ?_
  cases found : input[pos]? with
  | none => exact follows_ok (Nat.le_refl _)
  | some b =>
    obtain ⟨after, rfl⟩ := here.cons found
    dsimp only
    split
    next => exact consumed_follows (Nat.le_succ pos) here.next.1
    next => exact follows_ok (Nat.le_refl _)

theorem parseExponent_follows (here : At input pos rest) :
    Follows input (· + 1) (pos + 1) (parseExponent input pos) fun input' => parseExponent input' pos := by
  rw [parseExponent]
  refine Follows.swap (Nat.le_refl _) (fun input' agree => by rw [parseExponent, agree.get]) ?_
  cases found : input[pos]? with
  | none => exact follows_ok (Nat.le_refl _)
  | some b =>
    obtain ⟨after, rfl⟩ := here.cons found
    dsimp only
    split
    next =>
      -- The sign is looked at as well.
      refine Follows.weaken ?_ (Nat.le_succ (pos + 1))
      refine Follows.swap (Nat.le_refl _) (fun input' agree => by rw [agree.get]) ?_
      cases found' : input[pos + 1]? with
      | none => exact consumed_follows (Nat.le_refl _) here.next.1
      | some sign =>
        obtain ⟨after, rfl⟩ := here.next.cons found'
        dsimp only
        split
        next => exact consumed_follows (Nat.le_succ _) here.next.next.1
        next => exact consumed_follows (Nat.le_refl _) here.next.1
    next => exact follows_ok (Nat.le_refl _)

/-- The byte after a number is looked at. -/
def ahead : Json → Nat
  | .number _ => 1
  | _ => 0

def reach (value : Json × Nat) : Nat := value.2 + ahead value.1

theorem Agree.take {count : Nat} (agree : Agree input input' count) : input'.take count = input.take count := by
  apply List.ext_getElem?
  intro i
  by_cases small : i < count
  · rw [List.getElem?_take_of_lt small, List.getElem?_take_of_lt small, agree i small]
  · rw [List.getElem?_take_eq_none (by omega), List.getElem?_take_eq_none (by omega)]

theorem substring_agree {start fin : Nat} (agree : Agree input input' fin) :
    (input'.drop start).take (fin - start) = (input.drop start).take (fin - start) := by
  rw [List.take_drop, List.take_drop]
  by_cases inside : start ≤ fin
  · rw [show start + (fin - start) = fin by omega, agree.take]
  · rw [show start + (fin - start) = start by omega, List.drop_take_self, List.drop_take_self]

theorem parseNumber_follows {start : Nat} (here : At input start rest) :
    Follows input reach (start + 1) (parseNumber input start) fun input' => parseNumber input' start := by
  rw [parseNumber]
  refine Follows.swap (Nat.le_refl _) (fun input' agree => by rw [parseNumber, agree.get]) ?_
  cases found : input[start]? with
  | none => exact follows_trap
  | some b =>
    obtain ⟨after, rfl⟩ := here.cons found
    dsimp only
    obtain ⟨pos, same⟩ : ∃ pos, pos = if b.toNat = 45 then start + 1 else start := ⟨_, rfl⟩
    simp only [← same]
    have within : start ≤ pos ∧ pos ≤ input.length := by
      have := here.next.1
      split at same <;> omega
    by_cases ended : b.toNat = 45 ∧ input.length ≤ pos
    · have none' : input[pos]? = none := List.getElem?_eq_none ended.2
      have there : At input pos (input.drop pos) := ⟨within.2, rfl⟩
      rw [if_pos ended]
      refine Follows.weaken ?_ (Nat.succ_le_succ within.1)
      refine Follows.swap (Nat.le_refl _) (fun input' agree => ?_) (follows_fail (Nat.succ_le_succ within.2))
      rw [Agree.length there none' agree, if_pos ended]
    · rw [if_neg ended]
      have some' : b.toNat = 45 → pos < input.length := fun minus => Nat.lt_of_not_le fun above => ended ⟨minus, above⟩
      refine Follows.weaken ?_ (Nat.succ_le_succ within.1)
      refine Follows.swap (Nat.le_refl _) (fun input' agree => if_neg fun both => ?_) ?_
      · have found' : input[pos]? = some (input.get ⟨pos, some' both.1⟩) := List.getElem?_eq_getElem _
        have := Agree.longer found' agree
        omega
      have there : At input pos (input.drop pos) := ⟨within.2, rfl⟩
      have nonempty : input.drop pos ≠ [] := by
        rw [Ne, List.drop_eq_nil_iff]
        have := here.next.1
        split at same
        next minus => have := some' minus; omega
        next => omega
      refine Follows.bind (parseInteger_follows there) ?_
      intro fin parsed
      have gives := parseInteger_gives there nonempty
      rw [parsed] at gives
      obtain ⟨integer, rest, parts, -, there'⟩ := gives
      refine Follows.bind (parseFraction_follows there') ?_
      intro fin' parsed'
      have gives := parseFraction_gives there'
      rw [parsed'] at gives
      obtain ⟨fraction, rest', rfl, -, there''⟩ := gives
      refine Follows.bind (parseExponent_follows there'') ?_
      intro last parsed''
      have gives := parseExponent_gives there''
      rw [parsed''] at gives
      obtain ⟨exponent, rest'', rfl, -, there'''⟩ := gives
      have least : pos ≤ last := by
        have first := there.length
        have final := there'''.length
        rw [parts] at first
        simp only [List.length_append] at first
        omega
      have inside := there'''.1
      rw [if_pos ⟨by omega, by omega⟩]
      refine Follows.swap (Nat.le_refl _) (fun input' agree => ?_) (follows_ok (Nat.le_refl _))
      have longer : last ≤ input'.length := by
        cases last with
        | zero => exact Nat.zero_le _
        | succ last =>
          have found' : input[last]? = some (input.get ⟨last, inside⟩) := List.getElem?_eq_getElem _
          exact Agree.longer found' (agree.less (Nat.le_succ _))
      rw [if_pos ⟨by omega, by omega⟩, substring_agree (agree.less (Nat.le_succ last))]
      rfl

structure Locals (input : StrBuf) (tries : Nat) : Prop where
  value : ∀ {pos depth rest tries'}, At input pos rest → 3 * rest.length + 1 ≤ tries → tries ≤ tries' →
    Follows input reach (pos + 1) (parseValue input tries pos depth) fun input' => parseValue input' tries' pos depth
  array : ∀ {pos depth rest tries'}, At input pos (0x5B :: rest) → 3 * rest.length + 3 ≤ tries → tries ≤ tries' →
    Follows input reach (pos + 1) (parseArray input tries pos depth) fun input' => parseArray input' tries' pos depth
  items : ∀ {pos depth rest tries' items}, At input pos rest → 3 * rest.length + 2 ≤ tries → tries ≤ tries' →
    Follows input reach (pos + 1) (parseItems input tries pos depth items) fun input' => parseItems input' tries' pos depth items
  object : ∀ {pos depth rest tries'}, At input pos (0x7B :: rest) → 3 * rest.length + 3 ≤ tries → tries ≤ tries' →
    Follows input reach (pos + 1) (parseObject input tries pos depth) fun input' => parseObject input' tries' pos depth
  members : ∀ {pos depth rest tries' keys values}, At input pos rest → 3 * rest.length + 2 ≤ tries → tries ≤ tries' →
    Follows input reach (pos + 1) (parseMembers input tries pos depth keys values)
      fun input' => parseMembers input' tries' pos depth keys values

variable {tries tries' depth : Nat}

theorem literal_follows {word : StrBuf} {value : Json} (here : At input pos rest) (first : word ≠ []) (flat : ahead value = 0) :
    Follows input reach (pos + 1) (do return (value, ← parseLiteral input pos word))
      fun input' => do return (value, ← parseLiteral input' pos word) := by
  have read := @parseLiteral_follows input rest pos word here
  rw [Nat.min_eq_right (List.length_pos_of_ne_nil first)] at read
  refine Follows.bind read fun fin _ => follows_ok ?_
  rw [reach, flat]
  exact Nat.le_refl _

theorem value_follows (locals : Locals input tries) (here : At input pos rest) (enough : 3 * rest.length + 1 ≤ tries + 1)
    (more : tries + 1 ≤ tries') :
    Follows input reach (pos + 1) (parseValue input (tries + 1) pos depth) fun input' => parseValue input' tries' pos depth := by
  obtain ⟨tries', rfl⟩ : ∃ fewer, tries' = fewer + 1 := ⟨tries' - 1, by omega⟩
  have least := skipSpace_least here
  obtain ⟨space, after, rfl, blank, there⟩ := skipSpace_reads here
  rw [List.length_append] at enough
  rw [parseValue]
  refine Follows.weaken ?_ (Nat.succ_le_succ least)
  refine Follows.swap (Nat.le_refl _) (fun input' agree => by rw [parseValue, skipSpace_agree agree, agree.get]) ?_
  generalize skipSpace input pos = pos at there
  dsimp only
  split
  next => exact follows_fail (Nat.le_refl _)
  next =>
    cases found : input[pos]? with
    | none => exact follows_fail (Nat.le_refl _)
    | some b =>
      obtain ⟨after, rfl⟩ := there.cons found
      rw [List.length_cons] at enough
      dsimp only
      split
      next => exact literal_follows there (List.cons_ne_nil _ _) rfl
      next =>
        split
        next => exact literal_follows there (List.cons_ne_nil _ _) rfl
        next =>
          split
          next => exact literal_follows there (List.cons_ne_nil _ _) rfl
          next =>
            split
            next =>
              refine Follows.bind (parseString_follows there) ?_
              rintro ⟨value, fin⟩ -
              exact follows_ok (Nat.le_refl _)
            next =>
              split
              next bracket =>
                rw [show b = 0x5B from UInt8.toNat_inj.mp bracket] at there
                exact locals.array there (by omega) (by omega)
              next =>
                split
                next brace =>
                  rw [show b = 0x7B from UInt8.toNat_inj.mp brace] at there
                  exact locals.object there (by omega) (by omega)
                next =>
                  split
                  next => exact parseNumber_follows there
                  next => exact follows_fail (Nat.le_refl _)

theorem array_follows (locals : Locals input tries) (here : At input pos (0x5B :: rest))
    (enough : 3 * rest.length + 3 ≤ tries + 1) (more : tries + 1 ≤ tries') :
    Follows input reach (pos + 1) (parseArray input (tries + 1) pos depth) fun input' => parseArray input' tries' pos depth := by
  obtain ⟨tries', rfl⟩ : ∃ fewer, tries' = fewer + 1 := ⟨tries' - 1, by omega⟩
  have least := skipSpace_least here.next
  obtain ⟨space, after, rfl, blank, there⟩ := skipSpace_reads here.next
  rw [List.length_append] at enough
  rw [parseArray]
  refine Follows.weaken ?_ (show pos + 1 ≤ skipSpace input (pos + 1) + 1 by omega)
  refine Follows.swap (Nat.le_refl _) (fun input' agree => by rw [parseArray, skipSpace_agree agree, agree.get]) ?_
  generalize skipSpace input (pos + 1) = pos at there
  cases found : input[pos]? with
  | none => exact locals.items there (by omega) (by omega)
  | some b =>
    dsimp only
    split
    next => exact follows_ok (Nat.le_refl _)
    next => exact locals.items there (by omega) (by omega)

theorem object_follows (locals : Locals input tries) (here : At input pos (0x7B :: rest))
    (enough : 3 * rest.length + 3 ≤ tries + 1) (more : tries + 1 ≤ tries') :
    Follows input reach (pos + 1) (parseObject input (tries + 1) pos depth) fun input' => parseObject input' tries' pos depth := by
  obtain ⟨tries', rfl⟩ : ∃ fewer, tries' = fewer + 1 := ⟨tries' - 1, by omega⟩
  have least := skipSpace_least here.next
  obtain ⟨space, after, rfl, blank, there⟩ := skipSpace_reads here.next
  rw [List.length_append] at enough
  rw [parseObject]
  refine Follows.weaken ?_ (show pos + 1 ≤ skipSpace input (pos + 1) + 1 by omega)
  refine Follows.swap (Nat.le_refl _) (fun input' agree => by rw [parseObject, skipSpace_agree agree, agree.get]) ?_
  generalize skipSpace input (pos + 1) = pos at there
  cases found : input[pos]? with
  | none => exact locals.members there (by omega) (by omega)
  | some b =>
    dsimp only
    split
    next => exact follows_ok (Nat.le_refl _)
    next => exact locals.members there (by omega) (by omega)

theorem ahead_le (value : Json) : ahead value ≤ 1 := by
  cases value with
  | number => exact Nat.le_refl 1
  | _ => exact Nat.zero_le 1

theorem items_follows (locals : Locals input tries) {items : List Json} (here : At input pos rest)
    (enough : 3 * rest.length + 2 ≤ tries + 1) (more : tries + 1 ≤ tries') :
    Follows input reach (pos + 1) (parseItems input (tries + 1) pos depth items)
      fun input' => parseItems input' tries' pos depth items := by
  obtain ⟨tries', rfl⟩ : ∃ fewer, tries' = fewer + 1 := ⟨tries' - 1, by omega⟩
  simp only [parseItems]
  refine Follows.bind (locals.value here (by omega) (by omega)) ?_
  rintro ⟨value, fin⟩ parsed
  have gives := @Sound.value _ _ (sound input tries) _ (depth + 1) _ here (by omega)
  rw [parsed] at gives
  obtain ⟨text, after, rfl, -, there⟩ := gives
  rw [List.length_append] at enough
  have least := skipSpace_least there
  have close := ahead_le value
  obtain ⟨right, after, rfl, -, there'⟩ := skipSpace_reads there
  rw [List.length_append] at enough
  refine Follows.weaken ?_ (show reach (value, fin) ≤ skipSpace input fin + 1 by simp only [reach]; omega)
  dsimp only
  refine Follows.swap (Nat.le_refl _) (fun input' agree => by rw [skipSpace_agree agree, agree.get]) ?_
  generalize skipSpace input fin = pos at there'
  cases found : input[pos]? with
  | none => exact follows_fail (Nat.le_refl _)
  | some delimiter =>
    obtain ⟨after, rfl⟩ := there'.cons found
    rw [List.length_cons] at enough
    dsimp only
    split
    next => exact follows_ok (Nat.le_refl _)
    next =>
      split
      next => exact follows_fail (Nat.le_refl _)
      next =>
        have least := skipSpace_least there'.next
        obtain ⟨gap, after, rfl, -, there''⟩ := skipSpace_reads there'.next
        rw [List.length_append] at enough
        intro count looks
        obtain ⟨low, -⟩ := @Locals.items _ _ locals _ depth _ tries _ there'' (by omega) (Nat.le_refl _) count looks
        refine ⟨by omega, fun input' agree => ?_⟩
        dsimp only
        rw [skipSpace_agree (agree.less low)]
        exact (@Locals.items _ _ locals _ depth _ tries' _ there'' (by omega) (by omega) count looks).2 input' agree

theorem members_follows (locals : Locals input tries) {keys : List StrBuf} {values : List Json} (here : At input pos rest)
    (enough : 3 * rest.length + 2 ≤ tries + 1) (more : tries + 1 ≤ tries') :
    Follows input reach (pos + 1) (parseMembers input (tries + 1) pos depth keys values)
      fun input' => parseMembers input' tries' pos depth keys values := by
  obtain ⟨tries', rfl⟩ : ∃ fewer, tries' = fewer + 1 := ⟨tries' - 1, by omega⟩
  rw [parseMembers]
  by_cases ended : input.length ≤ pos
  · rw [if_pos ended]
    have none' : input[pos]? = none := List.getElem?_eq_none ended
    refine Follows.swap (Nat.le_refl _) (fun input' agree => ?_) (follows_fail (Nat.le_refl _))
    have same := Agree.length here none' agree
    rw [parseMembers, if_pos (by omega)]
  rw [if_neg ended]
  refine Follows.swap (Nat.le_refl _) (fun input' agree => by rw [parseMembers, if_neg (agree.inside ended)]) ?_
  refine Follows.bind (parseString_follows here) ?_
  rintro ⟨key, fin⟩ parsed
  have gives := parseString_gives here
  rw [parsed] at gives
  obtain ⟨text, after, rfl, ⟨name, rfl, -⟩, there⟩ := gives
  have least := skipSpace_least there
  obtain ⟨between, after, rfl, -, there'⟩ := skipSpace_reads there
  simp only [List.length_append, List.length_cons] at enough
  refine Follows.weaken ?_ (show (key, fin).2 ≤ skipSpace input fin + 1 from Nat.le_trans least (Nat.le_succ _))
  dsimp only
  refine Follows.swap (Nat.le_refl _) (fun input' agree => by rw [skipSpace_agree agree, agree.get]) ?_
  generalize skipSpace input fin = pos at there'
  cases found : input[pos]? with
  | none => exact follows_fail (Nat.le_refl _)
  | some colon =>
    obtain ⟨after, rfl⟩ := there'.cons found
    rw [List.length_cons] at enough
    dsimp only
    split
    next => exact follows_fail (Nat.le_refl _)
    next =>
      refine Follows.weaken ?_ (Nat.le_succ (pos + 1))
      refine Follows.bind (locals.value there'.next (by omega) (by omega)) ?_
      rintro ⟨value, fin'⟩ parsed'
      have gives := @Sound.value _ _ (sound input tries) _ (depth + 1) _ there'.next (by omega)
      rw [parsed'] at gives
      obtain ⟨text, last, rfl, -, there''⟩ := gives
      have least := skipSpace_least there''
      have close := ahead_le value
      rw [List.length_append] at enough
      obtain ⟨right, last, rfl, -, there'''⟩ := skipSpace_reads there''
      rw [List.length_append] at enough
      refine Follows.weaken ?_ (show reach (value, fin') ≤ skipSpace input fin' + 1 by simp only [reach]; omega)
      dsimp only
      refine Follows.swap (Nat.le_refl _) (fun input' agree => by rw [skipSpace_agree agree, agree.get]) ?_
      generalize skipSpace input fin' = pos at there'''
      cases found' : input[pos]? with
      | none => exact follows_fail (Nat.le_refl _)
      | some delimiter =>
        obtain ⟨after, rfl⟩ := there'''.cons found'
        rw [List.length_cons] at enough
        dsimp only
        split
        next => exact follows_ok (Nat.le_refl _)
        next =>
          split
          next => exact follows_fail (Nat.le_refl _)
          next =>
            have least := skipSpace_least there'''.next
            obtain ⟨gap, after, rfl, -, there''''⟩ := skipSpace_reads there'''.next
            rw [List.length_append] at enough
            intro count looks
            obtain ⟨low, -⟩ := @Locals.members _ _ locals _ depth _ tries _ _ there'''' (by omega) (Nat.le_refl _) count looks
            refine ⟨by omega, fun input' agree => ?_⟩
            dsimp only
            rw [skipSpace_agree (agree.less low)]
            exact (@Locals.members _ _ locals _ depth _ tries' _ _ there'''' (by omega) (by omega) count looks).2 input' agree

theorem locals (input : StrBuf) (tries : Nat) : Locals input tries := by
  induction tries with
  | zero =>
    exact ⟨fun _ _ _ => by omega, fun _ _ _ => by omega, fun _ _ _ => by omega, fun _ _ _ => by omega, fun _ _ _ => by omega⟩
  | succ tries ih => exact ⟨value_follows ih, array_follows ih, items_follows ih, object_follows ih, members_follows ih⟩

theorem parseValue_more (here : At input pos rest) (enough : 3 * rest.length + 1 ≤ tries) (more : tries ≤ tries') :
    parseValue input tries' pos depth = parseValue input tries pos depth := by
  obtain ⟨count, looks⟩ := Looks.of_gives reach (@Sound.value _ _ (sound input tries) pos depth _ here enough)
  exact ((locals input tries).value here enough more count looks).2 input fun _ _ => rfl

/-- The value at the start is read alike from another input that agrees. -/
theorem parseValue_agree {count : Nat}
    (looks : Looks reach (parseValue input (3 * input.length + 3) 0 0) count) (agree : Agree input input' count) :
    parseValue input' (3 * input'.length + 3) 0 0 = parseValue input (3 * input.length + 3) 0 0 := by
  rw [← @parseValue_more _ _ _ (3 * input'.length + 3) (max (3 * input.length + 3) (3 * input'.length + 3)) 0 At.start (by omega)
    (Nat.le_max_right _ _)]
  exact ((locals input _).value At.start (by omega) (Nat.le_max_left _ _) count looks).2 input' agree

/-- An error does not depend on what is behind the byte it names. -/
theorem parse_agree {error : ParseError} (failed : parse input = fail error)
    (agree : Agree input input' (offset error + 1)) : parse input' = fail error := by
  have gives := @Sound.value _ _ (sound input (3 * input.length + 3)) 0 0 _ At.start (by omega)
  cases parsed : parseValue input (3 * input.length + 3) 0 0 with
  | error failure =>
    rw [parse, parsed] at failed
    cases failed
    rw [parse, parseValue_agree (by rw [parsed]; exact .error) agree, parsed]
    rfl
  | ok value =>
    obtain ⟨value, fin⟩ := value
    rw [parsed] at gives
    obtain ⟨text, after, rfl, -, there⟩ := gives
    have least := skipSpace_least there
    have close := ahead_le value
    rw [parse, parsed, ok_bind] at failed
    dsimp only at failed
    split at failed
    next outside =>
      cases failed
      have inside : ¬(text ++ after).length ≤ skipSpace (text ++ after) fin := by
        obtain ⟨right, rest, rfl, -, there'⟩ := skipSpace_reads there
        have := there'.1
        omega
      have looks : Looks reach (parseValue (text ++ after) (3 * (text ++ after).length + 3) 0 0) (reach (value, fin)) := by
        rw [parsed]
        exact .ok
      have enough : reach (value, fin) ≤ skipSpace (text ++ after) fin + 1 := by
        simp only [reach]
        omega
      have outside' := agree.inside inside
      rw [parse, parseValue_agree looks (agree.less enough), parsed, ok_bind]
      dsimp only
      rw [skipSpace_agree agree, if_pos (by omega)]
    next => cases failed

end Rue.Proofs.Text.Lookahead
