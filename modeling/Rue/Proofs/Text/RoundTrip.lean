import Rue.Proofs.Text.Completeness

/-! The spelling the writer chooses stands for the value it was given, when any
spelling does. -/

namespace Rue.Proofs.Text.RoundTrip
open Rue.Lib Rue.Text Rue.Proofs.Text.Grammar Rue.Proofs.Text.Reading

theorem hexDigit_value (n : Nat) (small : n < 16) : HexDigit (hexDigit n) n := by
  have all : ∀ n < 16, HexDigit (hexDigit n) n := by
    unfold HexDigit
    decide
  exact all n small

theorem characters_append {left right decoded more : StrBuf} (first : Characters left decoded) (second : Characters right more) :
    Characters (left ++ right) (decoded ++ more) := by
  induction first with
  | nil => exact second
  | cons piece others ih =>
    rw [List.append_assoc, List.append_assoc]
    exact .cons piece ih

theorem characters_one {spelling decoded : StrBuf} (piece : Piece spelling decoded) : Characters spelling decoded := by
  have whole := Characters.cons piece .nil
  rw [List.append_nil, List.append_nil] at whole
  exact whole

theorem written_ascii {b : UInt8} (ascii : b.toNat < 0x80) : Piece (writeCharacter b) [b] := by
  have listed : ∀ n : Nat, n < 256 → b.toNat = n → b = UInt8.ofNat n := by
    rintro n - rfl
    exact UInt8.ofNat_toNat.symm
  rw [writeCharacter]
  split
  next same => rw [listed _ (by decide) same]; exact .escape (by decide)
  next notQuote =>
    split
    next same => rw [listed _ (by decide) same]; exact .escape (by decide)
    next notBackslash =>
      iterate 5
        split
        next same => rw [listed _ (by decide) same]; exact .escape (by decide)
      split
      next control =>
        obtain ⟨c, code⟩ := Utf8.char_of_code b.toNat (by omega)
        have encoded : String.utf8EncodeChar c = [b] := by
          rw [String.utf8EncodeChar]
          simp only [code]
          rw [if_pos (by omega), UInt8.ofNat_toNat]
        have high : b.toNat >>> 4 = b.toNat / 16 := Nat.shiftRight_eq_div_pow _ 4
        have low : b.toNat &&& 15 = b.toNat % 16 := Nat.and_two_pow_sub_one_eq_mod _ 4
        have spelled := Hex4.digits (hexDigit_value 0 (by decide)) (hexDigit_value 0 (by decide))
          (hexDigit_value (b.toNat / 16) (by omega)) (hexDigit_value (b.toNat % 16) (by omega))
        rw [show ((0 * 16 + 0) * 16 + b.toNat / 16) * 16 + b.toNat % 16 = c.val.toNat by omega] at spelled
        rw [← encoded, high, low]
        exact .unit spelled
      next printable => exact Strings.piece_ascii (by omega) (by omega) notQuote notBackslash

theorem written_high {bytes : StrBuf} (high : ∀ b ∈ bytes, 0x80 ≤ b.toNat) : bytes.flatMap writeCharacter = bytes := by
  induction bytes with
  | nil => rfl
  | cons b bytes ih =>
    have large := high b (.head _)
    rw [List.flatMap_cons, ih fun d inside => high d (.tail _ inside), writeCharacter, if_neg (by omega), if_neg (by omega),
      if_neg (by omega), if_neg (by omega), if_neg (by omega), if_neg (by omega), if_neg (by omega), if_neg (by omega)]
    rfl

theorem written_scalar {bytes : StrBuf} (scalar : Utf8.Scalar bytes) : Characters (bytes.flatMap writeCharacter) bytes := by
  have plain : (∀ b ∈ bytes, 0x80 ≤ b.toNat) → bytes.length ≠ 1 → Characters (bytes.flatMap writeCharacter) bytes := by
    intro high several
    rw [written_high high]
    refine characters_one (.plain scalar ?_)
    rintro b rfl
    exact absurd rfl several
  cases scalar with
  | one ascii =>
    rw [List.flatMap_singleton]
    exact characters_one (written_ascii ascii)
  | two low high second =>
    apply plain ?_ (by exact nofun)
    simp only [List.mem_cons, List.not_mem_nil, or_false, forall_eq_or_imp, forall_eq]
    exact ⟨by omega, second.1⟩
  | three low high second third =>
    apply plain ?_ (by exact nofun)
    simp only [List.mem_cons, List.not_mem_nil, or_false, forall_eq_or_imp, forall_eq]
    exact ⟨by omega, second.1, third.1⟩
  | four low high second third fourth =>
    apply plain ?_ (by exact nofun)
    simp only [List.mem_cons, List.not_mem_nil, or_false, forall_eq_or_imp, forall_eq]
    exact ⟨by omega, second.1, third.1, fourth.1⟩

theorem piece_scalar {spelling decoded : StrBuf} (piece : Piece spelling decoded) : Utf8.Scalar decoded := by
  cases piece with
  | plain scalar => exact scalar
  | @escape e c listed =>
    have ascii : escapes.all (fun entry => entry.2.toNat < 0x80) := by decide
    exact .one (of_decide_eq_true (List.all_eq_true.mp ascii (e, c) listed))
  | unit => exact Utf8.encoded_scalar _
  | pair => exact Utf8.encoded_scalar _

theorem written_string {spelling decoded : StrBuf} (string : Characters spelling decoded) :
    Characters (decoded.flatMap writeCharacter) decoded := by
  induction string with
  | nil => exact .nil
  | cons first others ih =>
    rw [List.flatMap_append]
    exact characters_append (written_scalar (piece_scalar first)) ih

theorem renderItems_eq (items : List Json) : renderItems items = (items.map writeValue).reverse := by
  induction items with
  | nil => rw [renderItems]; rfl
  | cons item items ih => rw [renderItems, ih, List.map_cons, List.reverse_cons]

theorem join_further (texts : List StrBuf) (out : StrBuf) :
    (texts.foldl (fun (out, first) text => (out ++ (if first then [] else [44]) ++ text, false)) (out, false)).1 =
      out ++ texts.flatMap (0x2C :: ·) := by
  induction texts generalizing out with
  | nil => exact (List.append_nil out).symm
  | cons text texts ih =>
    rw [List.foldl_cons, List.flatMap_cons]
    refine (ih _).trans ?_
    simp only [Bool.false_eq_true, if_false, List.append_assoc, List.cons_append, List.nil_append]

theorem joinRendered_reverse (text : StrBuf) (texts : List StrBuf) :
    joinRendered (text :: texts).reverse = text ++ texts.flatMap (0x2C :: ·) := by
  rw [joinRendered, List.reverse_reverse, List.foldl_cons]
  exact join_further texts text

def entry (key text : StrBuf) : StrBuf := writeString key ++ 0x3A :: text

theorem renderEntries_eq (keys texts : List StrBuf) (paired : keys.length = texts.length) :
    renderEntries keys texts = some (List.zipWith entry keys texts) := by
  induction texts generalizing keys with
  | nil =>
    rw [renderEntries, List.zipWith_nil_right]
  | cons text texts ih =>
    cases keys with
    | nil => cases paired
    | cons key keys =>
      rw [renderEntries, ih keys (Nat.succ.inj paired)]
      rfl

theorem renderEntries_reverse (keys : List StrBuf) (values : List Json) (paired : keys.length = values.length) :
    renderEntries keys.reverse (renderItems values) = some (List.zipWith entry keys (values.map writeValue)).reverse := by
  have lengths : keys.length = (values.map writeValue).length := by rw [List.length_map, paired]
  rw [renderItems_eq, renderEntries_eq _ _ (by rw [List.length_reverse, List.length_reverse, lengths]),
    List.reverse_zipWith lengths]

def Rewritten (value : Json) : Prop := Spells (writeValue value) value

/-- The texts of the items, with commas between, stand for the items. -/
def ItemsRewritten (items : List Json) : Prop :=
  ∃ first rest, items = first :: rest ∧ Items (writeValue first ++ (rest.map writeValue).flatMap (0x2C :: ·)) items

def MembersRewritten (keys : List StrBuf) (values : List Json) : Prop :=
  keys.length = values.length ∧ ∃ key names value rest, keys = key :: names ∧ values = value :: rest ∧
    Members (entry key (writeValue value) ++ (List.zipWith entry names (rest.map writeValue)).flatMap (0x2C :: ·)) keys values

theorem blank : Space [] := nofun

theorem rewritten {text : StrBuf} {value : Json} (spelled : Spells text value) : Rewritten value := by
  refine @Spells.rec (fun _ value _ => Rewritten value) (fun _ items _ => ItemsRewritten items)
    (fun _ keys values _ => MembersRewritten keys values) ?_ ?_ ?_ ?_ ?_ ?_ ?_ ?_ ?_ ?_ ?_ ?_ ?_ text value spelled
  case refine_1 =>
    rw [Rewritten, writeValue]
    exact .null
  case refine_2 =>
    rw [Rewritten, writeValue]
    exact .true
  case refine_3 =>
    rw [Rewritten, writeValue]
    exact .false
  case refine_4 =>
    intro spelling number
    rw [Rewritten, writeValue]
    exact .number number
  case refine_5 =>
    intro characters decoded string
    rw [Rewritten, writeValue, writeString]
    exact .string (written_string string)
  case refine_6 =>
    intro space _
    rw [Rewritten, writeValue, renderItems]
    exact .emptyArray blank
  case refine_7 =>
    rintro bytes items some' ⟨first, rest, rfl, written⟩
    rw [Rewritten, writeValue, renderItems_eq, List.map_cons, joinRendered_reverse]
    exact .array written
  case refine_8 =>
    intro space _
    rw [Rewritten, writeValue, renderItems]
    exact .emptyObject blank
  case refine_9 =>
    rintro bytes keys values some' ⟨paired, key, names, value, rest, rfl, rfl, written⟩
    rw [Rewritten, writeValue, renderEntries_reverse _ _ paired]
    simp only [List.map_cons, List.zipWith_cons_cons]
    rw [joinRendered_reverse]
    exact .object written
  case refine_10 =>
    intro before bytes after value left item right again
    refine ⟨value, [], rfl, ?_⟩
    exact show Items ([] ++ (writeValue value ++ [])) [value] from .one blank again blank
  case refine_11 =>
    rintro before bytes after rest value items left item right _ again ⟨first, others, rfl, written⟩
    refine ⟨value, first :: others, rfl, ?_⟩
    rw [List.map_cons, List.flatMap_cons]
    exact show Items ([] ++ (writeValue value ++ ([] ++ 0x2C :: _))) _ from .more blank again blank written
  case refine_12 =>
    intro before spelling key between left bytes right value _ name _ _ _ _ again
    refine ⟨rfl, key, [], value, [], rfl, rfl, ?_⟩
    have made := Members.one blank (written_string name) blank blank again blank
    simp only [List.append_nil, List.nil_append] at made
    rw [entry, writeString, List.zipWith_nil_left]
    simp only [List.flatMap_nil, List.append_nil, List.cons_append, List.append_assoc, List.nil_append]
    exact made
  case refine_13 =>
    rintro before spelling key between left bytes right value rest keys values _ name _ _ _ _ _ again
      ⟨paired, key', names, value', others, rfl, rfl, written⟩
    refine ⟨congrArg (· + 1) paired, key, key' :: names, value, value' :: others, rfl, rfl, ?_⟩
    have made := Members.more blank (written_string name) blank blank again blank written
    simp only [List.nil_append] at made
    rw [List.map_cons, List.zipWith_cons_cons, List.flatMap_cons, entry, writeString]
    simp only [List.append_assoc, List.cons_append, List.nil_append] at made ⊢
    exact made

theorem document_rewritten {input : StrBuf} {value : Json} (document : Document input value) : Document (toString value) value := by
  cases document with
  | made _ item _ =>
    have again : Document ([] ++ (writeValue value ++ [])) value := .made blank (rewritten item) blank
    rw [List.append_nil] at again
    exact again

/-- Parsing returns a value exactly for the documents that are not too deep, returns
an error for all else, and gives the value back from the text written for it. -/
theorem parse_documents (input : StrBuf) :
    (∀ value, parse input = .ok value ↔ Document input value ∧ nesting value ≤ 256) ∧
    ((∃ value, parse input = .ok value) ∨ ∃ error, parse input = .error (.reported error)) ∧
    ∀ value, parse input = .ok value → parse (toString value) = .ok value := by
  have sound := Soundness.parse_gives input
  have accepted : ∀ value, parse input = .ok value → Document input value ∧ nesting value ≤ 256 := by
    intro value parsed
    rw [parsed] at sound
    exact sound
  refine ⟨fun value => ⟨accepted value, fun ⟨document, deep⟩ => Completeness.parse_past document deep⟩, ?_, ?_⟩
  · cases outcome : parse input with
    | ok value => exact .inl ⟨value, rfl⟩
    | error failure =>
      rw [outcome] at sound
      cases failure with
      | reported error => exact .inr ⟨error, rfl⟩
      | trap => exact False.elim sound
      | endless => exact False.elim sound
  · intro value parsed
    obtain ⟨document, deep⟩ := accepted value parsed
    exact Completeness.parse_past (document_rewritten document) deep

end Rue.Proofs.Text.RoundTrip
