import Rue.Proofs.Text.Soundness

/-! Every document that is not too deep is accepted, with the value it stands for. -/

namespace Rue.Proofs.Text.Completeness
open Rue.Lib.Cursor Rue.Text Rue.Proofs.Text.Grammar Rue.Proofs.Text.Reading Rue.Proofs.Text.Numbers Rue.Proofs.Text.Strings
open Rue.Proofs.Text.Soundness

variable {input rest : StrBuf} {tries pos depth : Nat}

def starters : StrBuf :=
  [0x6E, 0x74, 0x66, 0x22, 0x5B, 0x7B, 0x2D, 0x30, 0x31, 0x32, 0x33, 0x34, 0x35, 0x36, 0x37, 0x38, 0x39]

theorem starter_solid {b : UInt8} (listed : b ∈ starters) : isSpace b = false := by
  have none' : starters.any isSpace = false := by decide
  exact Bool.eq_false_iff.mpr (List.any_eq_false.mp none' b listed)

theorem digit_listed {b : UInt8} (digit : Digit b) : b ∈ starters := by
  obtain ⟨low, high⟩ := digit
  have listed : ∀ n < 10, UInt8.ofNat (48 + n) ∈ starters := by decide
  have same : UInt8.ofNat (48 + (b.toNat - 48)) = b := by
    rw [show 48 + (b.toNat - 48) = b.toNat by omega]
    exact UInt8.ofNat_toNat
  rw [← same]
  exact listed (b.toNat - 48) (by omega)

variable {text space : StrBuf}

theorem number_head (number : Number text) : ∃ b after, text = b :: after ∧ (b = 0x2D ∨ Digit b) := by
  cases number with
  | made signed whole =>
    simp only [List.mem_cons, List.not_mem_nil, or_false] at signed
    rcases signed with rfl | rfl
    · obtain ⟨first, following, rfl, digit⟩ := integer_head whole
      exact ⟨first, _, rfl, .inr digit⟩
    · exact ⟨0x2D, _, rfl, .inl rfl⟩

theorem value_head {value : Json} (spelled : Spells text value) : ∃ b after, text = b :: after ∧ b ∈ starters := by
  cases spelled with
  | null => exact ⟨_, _, rfl, by decide⟩
  | true => exact ⟨_, _, rfl, by decide⟩
  | false => exact ⟨_, _, rfl, by decide⟩
  | number number =>
    obtain ⟨b, after, same, minus | digit⟩ := number_head number
    · exact ⟨b, after, same, minus ▸ by decide⟩
    · exact ⟨b, after, same, digit_listed digit⟩
  | string => exact ⟨_, _, rfl, by decide⟩
  | emptyArray => exact ⟨_, _, rfl, by decide⟩
  | array => exact ⟨_, _, rfl, by decide⟩
  | emptyObject => exact ⟨_, _, rfl, by decide⟩
  | object => exact ⟨_, _, rfl, by decide⟩

theorem value_solid {value : Json} (spelled : Spells text value) : Solid (text ++ rest) := by
  obtain ⟨b, after, rfl, listed⟩ := value_head spelled
  intro c first
  cases first
  exact starter_solid listed

theorem starts_space (blank : Space space) (starts : Starts rest enders) : Starts (space ++ rest) enders := by
  intro b first
  cases space with
  | nil => exact starts b first
  | cons c space =>
    cases first
    exact List.mem_append_left [0x2C, 0x5D, 0x7D] (blank b (.head _))

theorem starts_byte {b : UInt8} (listed : b ∈ enders) : Starts (b :: rest) enders := by
  intro c first
  cases first
  exact listed

theorem solid_byte {b : UInt8} (other : isSpace b = false) : Solid (b :: rest) := by
  intro c first
  cases first
  exact other

variable {items values : List Json}

theorem items_split (some' : Items text items) :
    ∃ space body, text = space ++ body ∧ Space space ∧ Items body items ∧ ∃ b after, body = b :: after ∧ b ∈ starters := by
  cases some' with
  | one left item right =>
    obtain ⟨b, following, rfl, listed⟩ := value_head item
    exact ⟨_, _, rfl, left, show Items ([] ++ _) _ from .one nofun item right, b, _, rfl, listed⟩
  | more left item right others =>
    obtain ⟨b, following, rfl, listed⟩ := value_head item
    exact ⟨_, _, rfl, left, show Items ([] ++ _) _ from .more nofun item right others, b, _, rfl, listed⟩

theorem members_split {keys : List StrBuf} (some' : Members text keys values) :
    ∃ space body, text = space ++ body ∧ Space space ∧ Members body keys values ∧ ∃ after, body = 0x22 :: after := by
  cases some' with
  | one left name gap before item right =>
    exact ⟨_, _, rfl, left, show Members ([] ++ _) _ _ from .one nofun name gap before item right, _, rfl⟩
  | more left name gap before item right others =>
    exact ⟨_, _, rfl, left, show Members ([] ++ _) _ _ from .more nofun name gap before item right others, _, rfl⟩

structure Complete (input : StrBuf) (tries : Nat) : Prop where
  value : ∀ {pos depth space text rest value}, At input pos (space ++ (text ++ rest)) → Space space → Spells text value →
    depth + nesting value ≤ 256 → Starts rest enders → 3 * (text ++ rest).length + 1 ≤ tries →
    ∃ fin, parseValue input tries pos depth = .ok (value, fin) ∧ At input fin rest
  array : ∀ {pos depth text rest items}, At input pos (0x5B :: (text ++ 0x5D :: rest)) → Items text items →
    depth + below items ≤ 256 → 3 * (text ++ 0x5D :: rest).length + 3 ≤ tries →
    ∃ fin, parseArray input tries pos depth = .ok (.array items, fin) ∧ At input fin rest
  items : ∀ {pos depth text rest items before}, At input pos (text ++ 0x5D :: rest) → Items text items →
    depth + below items ≤ 256 → 3 * (text ++ 0x5D :: rest).length + 2 ≤ tries →
    ∃ fin, parseItems input tries pos depth before = .ok (.array (before ++ items), fin) ∧ At input fin rest
  object : ∀ {pos depth text rest keys values}, At input pos (0x7B :: (text ++ 0x7D :: rest)) → Members text keys values →
    depth + below values ≤ 256 → 3 * (text ++ 0x7D :: rest).length + 3 ≤ tries →
    ∃ fin, parseObject input tries pos depth = .ok (.object keys values, fin) ∧ At input fin rest
  members : ∀ {pos depth text rest keys values names before}, At input pos (text ++ 0x7D :: rest) →
    (∃ after, text = 0x22 :: after) → Members text keys values →
    depth + below values ≤ 256 → 3 * (text ++ 0x7D :: rest).length + 2 ≤ tries →
    ∃ fin, parseMembers input tries pos depth names before = .ok (.object (names ++ keys) (before ++ values), fin) ∧
      At input fin rest

theorem emptyArray_past (here : At input pos (0x5B :: (space ++ 0x5D :: rest))) (blank : Space space) :
    ∃ fin, parseArray input (tries + 1) pos depth = .ok (.array [], fin) ∧ At input fin rest := by
  have there := skipSpace_past here.next blank (solid_byte (by decide))
  refine ⟨skipSpace input (pos + 1) + 1, ?_, there.next⟩
  rw [parseArray, there.head]
  rfl

theorem emptyObject_past (here : At input pos (0x7B :: (space ++ 0x7D :: rest))) (blank : Space space) :
    ∃ fin, parseObject input (tries + 1) pos depth = .ok (.object [] [], fin) ∧ At input fin rest := by
  have there := skipSpace_past here.next blank (solid_byte (by decide))
  refine ⟨skipSpace input (pos + 1) + 1, ?_, there.next⟩
  rw [parseObject, there.head]
  rfl

theorem array_past (complete : Complete input tries)
    (here : At input pos (0x5B :: (text ++ 0x5D :: rest))) (some' : Items text items) (deep : depth + below items ≤ 256)
    (enough : 3 * (text ++ 0x5D :: rest).length + 3 ≤ tries + 1) :
    ∃ fin, parseArray input (tries + 1) pos depth = .ok (.array items, fin) ∧ At input fin rest := by
  obtain ⟨space, body, rfl, blank, some'', b, after, rfl, listed⟩ := items_split some'
  simp only [List.append_assoc] at here enough
  have open' : b.toNat ≠ 93 := by
    intro bracket
    rw [show b = 0x5D from UInt8.toNat_inj.mp bracket] at listed
    exact absurd listed (by decide)
  have there := skipSpace_past here.next blank (solid_byte (starter_solid listed))
  rw [List.length_append] at enough
  obtain ⟨fin, parsed, last⟩ := @Complete.items _ _ complete _ depth _ _ items [] there some'' deep (by omega)
  refine ⟨fin, ?_, last⟩
  have head : input[skipSpace input (pos + 1)]? = some b := there.head
  rw [parseArray, head]
  simp only
  rw [if_neg open']
  exact parsed

theorem object_past (complete : Complete input tries) {keys : List StrBuf}
    (here : At input pos (0x7B :: (text ++ 0x7D :: rest))) (some' : Members text keys values)
    (deep : depth + below values ≤ 256) (enough : 3 * (text ++ 0x7D :: rest).length + 3 ≤ tries + 1) :
    ∃ fin, parseObject input (tries + 1) pos depth = .ok (.object keys values, fin) ∧ At input fin rest := by
  obtain ⟨space, body, rfl, blank, some'', after, rfl⟩ := members_split some'
  simp only [List.append_assoc] at here enough
  have there := skipSpace_past here.next blank (solid_byte (by decide))
  rw [List.length_append] at enough
  obtain ⟨fin, parsed, last⟩ := @Complete.members _ _ complete _ depth _ _ keys values [] [] there ⟨after, rfl⟩ some'' deep (by omega)
  refine ⟨fin, ?_, last⟩
  have head : input[skipSpace input (pos + 1)]? = some 0x22 := there.head
  rw [parseObject, head]
  simp only
  rw [if_neg (by decide)]
  exact parsed

/-- The first byte of a value decides how it is read. -/
theorem value_past (complete : Complete input tries) {value : Json}
    (spaced : At input pos (space ++ (text ++ rest))) (blank : Space space) (spelled : Spells text value)
    (deep : depth + nesting value ≤ 256) (starts : Starts rest enders)
    (enough : 3 * (text ++ rest).length + 1 ≤ tries + 1) :
    ∃ fin, parseValue input (tries + 1) pos depth = .ok (value, fin) ∧ At input fin rest := by
  have shallow : ¬depth > 256 := by omega
  have here := skipSpace_past spaced blank (value_solid spelled)
  rw [parseValue]
  simp only
  rw [if_neg shallow]
  generalize skipSpace input pos = pos at here ⊢
  cases spelled with
  | null =>
    have head : input[pos]? = some 0x6E := here.head
    rw [head]
    simp only
    rw [if_pos (by decide), parseLiteral_past here]
    exact ⟨pos + 4, rfl, here.skip⟩
  | true =>
    have head : input[pos]? = some 0x74 := here.head
    rw [head]
    simp only
    rw [if_neg (by decide), if_pos (by decide), parseLiteral_past here]
    exact ⟨pos + 4, rfl, here.skip⟩
  | false =>
    have head : input[pos]? = some 0x66 := here.head
    rw [head]
    simp only
    rw [if_neg (by decide), if_neg (by decide), if_pos (by decide), parseLiteral_past here]
    exact ⟨pos + 5, rfl, here.skip⟩
  | number number =>
    obtain ⟨b, after, same, first⟩ := number_head number
    have past := parseNumber_past here number starts
    have head : input[pos]? = some b := by
      rw [here.head, same]
      rfl
    have range : b.toNat = 45 ∨ 48 ≤ b.toNat ∧ b.toNat ≤ 57 := by
      rcases first with rfl | digit
      · exact .inl rfl
      · exact .inr digit
    have either : b.toNat = 45 ∨ isDigit b = true := by
      rcases first with rfl | digit
      · exact .inl rfl
      · exact .inr (isDigit_iff.mpr digit)
    rw [head]
    simp only
    rw [if_neg (by omega), if_neg (by omega), if_neg (by omega), if_neg (by omega), if_neg (by omega), if_neg (by omega),
      if_pos either, past]
    exact ⟨_, rfl, here.skip⟩
  | @string characters decoded string =>
    have head : input[pos]? = some 0x22 := here.head
    have past := here.skip
    simp only [List.cons_append, List.append_assoc, List.nil_append] at here
    rw [head]
    simp only
    rw [if_neg (by decide), if_neg (by decide), if_neg (by decide), if_pos (by decide), parseString_past here string]
    refine ⟨_, rfl, ?_⟩
    simp only [List.length_cons, List.length_append, List.length_nil] at past
    exact past
  | @emptyArray space blank =>
    simp only [List.cons_append, List.append_assoc, List.nil_append, List.length_cons] at here enough
    have head : input[pos]? = some 0x5B := here.head
    cases tries with
    | zero => omega
    | succ tries =>
      rw [head]
      simp only
      rw [if_neg (by decide), if_neg (by decide), if_neg (by decide), if_neg (by decide), if_pos (by decide)]
      exact emptyArray_past here blank
  | array some' =>
    simp only [List.cons_append, List.append_assoc, List.nil_append, List.length_cons] at here enough
    have head : input[pos]? = some 0x5B := here.head
    rw [head]
    simp only
    rw [if_neg (by decide), if_neg (by decide), if_neg (by decide), if_neg (by decide), if_pos (by decide)]
    exact complete.array here some' deep (by omega)
  | @emptyObject space blank =>
    simp only [List.cons_append, List.append_assoc, List.nil_append, List.length_cons] at here enough
    have head : input[pos]? = some 0x7B := here.head
    cases tries with
    | zero => omega
    | succ tries =>
      rw [head]
      simp only
      rw [if_neg (by decide), if_neg (by decide), if_neg (by decide), if_neg (by decide), if_neg (by decide), if_pos (by decide)]
      exact emptyObject_past here blank
  | object some' =>
    simp only [List.cons_append, List.append_assoc, List.nil_append, List.length_cons] at here enough
    have head : input[pos]? = some 0x7B := here.head
    rw [head]
    simp only
    rw [if_neg (by decide), if_neg (by decide), if_neg (by decide), if_neg (by decide), if_neg (by decide), if_pos (by decide)]
    exact complete.object here some' deep (by omega)

theorem items_past (complete : Complete input tries) {before : List Json}
    (here : At input pos (text ++ 0x5D :: rest)) (some' : Items text items) (deep : depth + below items ≤ 256)
    (enough : 3 * (text ++ 0x5D :: rest).length + 2 ≤ tries + 1) :
    ∃ fin, parseItems input (tries + 1) pos depth before = .ok (.array (before ++ items), fin) ∧ At input fin rest := by
  cases some' with
  | @one left bytes right value blank spelled blank' =>
    simp only [List.append_assoc] at here enough
    rw [List.length_append] at enough
    simp only [below] at deep
    obtain ⟨fin, parsed, there⟩ := @Complete.value _ _ complete _ (depth + 1) _ _ _ _ here blank spelled (by omega)
      (starts_space blank' (starts_byte (by decide))) (by omega)
    have last := skipSpace_past there blank' (solid_byte (by decide))
    refine ⟨skipSpace input fin + 1, ?_, last.next⟩
    rw [parseItems, parsed, ok_bind]
    simp only
    rw [last.head]
    rfl
  | @more left bytes right others value items blank spelled blank' some' =>
    obtain ⟨space, body, rfl, blank'', some'', b, after, rfl, listed⟩ := items_split some'
    simp only [List.append_assoc, List.cons_append] at here enough
    simp only [below] at deep
    obtain ⟨fin, parsed, there⟩ := @Complete.value _ _ complete _ (depth + 1) _ _ _ _ here blank spelled (by omega)
      (starts_space blank' (starts_byte (by decide))) (by rw [List.length_append] at enough; omega)
    have comma := skipSpace_past there blank' (solid_byte (by decide))
    have there' := skipSpace_past comma.next blank'' (solid_byte (starter_solid listed))
    simp only [List.length_append, List.length_cons] at enough
    obtain ⟨fin', parsed', last⟩ := @Complete.items _ _ complete _ depth _ _ items (before ++ [value]) there' some'' (by omega)
      (by simp only [List.length_append, List.length_cons]; omega)
    refine ⟨fin', ?_, last⟩
    rw [parseItems, parsed, ok_bind]
    simp only
    rw [comma.head]
    simp only [List.head?_cons]
    rw [if_neg (by decide), if_neg (by decide), parsed', List.append_assoc]
    rfl

theorem key_past {spelling key between : StrBuf} (here : At input pos (0x22 :: (spelling ++ 0x22 :: (between ++ 0x3A :: rest))))
    (string : Characters spelling key) (blank : Space between) :
    ∃ fin, parseString input pos = .ok (key, fin) ∧ At input (skipSpace input fin) (0x3A :: rest) := by
  refine ⟨pos + spelling.length + 2, parseString_past here string, ?_⟩
  have there : At input (pos + 1 + spelling.length + 1) (between ++ 0x3A :: rest) := here.next.skip.next
  rw [show pos + spelling.length + 2 = pos + 1 + spelling.length + 1 by omega]
  exact skipSpace_past there blank (solid_byte (by decide))

theorem unspaced {after : StrBuf} (same : space ++ 0x22 :: text = 0x22 :: after) (blank : Space space) : space = [] := by
  cases space with
  | nil => rfl
  | cons b space =>
    cases same
    exact absurd (blank 0x22 (.head _)) (by decide)

theorem members_past (complete : Complete input tries) {keys names : List StrBuf} {before : List Json}
    (here : At input pos (text ++ 0x7D :: rest)) (quoted : ∃ after, text = 0x22 :: after) (some' : Members text keys values)
    (deep : depth + below values ≤ 256) (enough : 3 * (text ++ 0x7D :: rest).length + 2 ≤ tries + 1) :
    ∃ fin, parseMembers input (tries + 1) pos depth names before = .ok (.object (names ++ keys) (before ++ values), fin) ∧
      At input fin rest := by
  obtain ⟨after, same⟩ := quoted
  have size := here.length
  rw [List.length_append, List.length_cons] at size
  cases some' with
  | @one left spelling key between left' bytes right' value blank string gap blank' spelled blank'' =>
    have none' := unspaced same blank
    subst none'
    simp only [List.append_assoc, List.cons_append, List.nil_append] at here enough
    simp only [below] at deep
    obtain ⟨fin, named, colon⟩ := key_past here string gap
    simp only [List.length_append, List.length_cons] at enough
    obtain ⟨fin', parsed, there⟩ := @Complete.value _ _ complete _ (depth + 1) _ _ _ _ colon.next blank' spelled (by omega)
      (starts_space blank'' (starts_byte (by decide))) (by simp only [List.length_append, List.length_cons]; omega)
    have last := skipSpace_past there blank'' (solid_byte (by decide))
    refine ⟨skipSpace input fin' + 1, ?_, last.next⟩
    rw [parseMembers, if_neg (by omega), named, ok_bind]
    simp only
    rw [colon.head]
    simp only [List.head?_cons]
    rw [if_neg (by decide), parsed, ok_bind]
    simp only
    rw [last.head]
    rfl
  | @more left spelling key between left' bytes right' value others keys values blank string gap blank' spelled blank'' some' =>
    have none' := unspaced same blank
    subst none'
    obtain ⟨space, body, rfl, blank''', some'', after, rfl⟩ := members_split some'
    simp only [List.append_assoc, List.cons_append, List.nil_append] at here enough
    simp only [below] at deep
    obtain ⟨fin, named, colon⟩ := key_past here string gap
    simp only [List.length_append, List.length_cons] at enough
    obtain ⟨fin', parsed, there⟩ := @Complete.value _ _ complete _ (depth + 1) _ _ _ _ colon.next blank' spelled (by omega)
      (starts_space blank'' (starts_byte (by decide))) (by simp only [List.length_append, List.length_cons]; omega)
    have comma := skipSpace_past there blank'' (solid_byte (by decide))
    have there' := skipSpace_past comma.next blank''' (solid_byte (by decide))
    obtain ⟨fin'', parsed', last⟩ := @Complete.members _ _ complete _ depth (0x22 :: after) _ keys values (names ++ [key])
      (before ++ [value]) there' ⟨_, rfl⟩ some'' (by omega) (by simp only [List.length_append, List.length_cons]; omega)
    refine ⟨fin'', ?_, last⟩
    rw [parseMembers, if_neg (by omega), named, ok_bind]
    simp only
    rw [colon.head]
    simp only [List.head?_cons]
    rw [if_neg (by decide), parsed, ok_bind]
    simp only
    rw [comma.head]
    simp only [List.head?_cons]
    rw [if_neg (by decide), if_neg (by decide), parsed', List.append_assoc, List.append_assoc]
    rfl

theorem complete (input : StrBuf) (tries : Nat) : Complete input tries := by
  induction tries with
  | zero =>
    exact ⟨fun _ _ _ _ _ _ => by omega, fun _ _ _ _ => by omega, fun _ _ _ _ => by omega, fun _ _ _ _ => by omega,
      fun _ _ _ _ _ => by omega⟩
  | succ tries ih =>
    exact ⟨value_past ih, array_past ih, items_past ih, object_past ih, members_past ih⟩

/-- Every document is accepted if its value is not too deep. -/
theorem parse_past {value : Json} (document : Document input value) (deep : nesting value ≤ 256) : parse input = .ok value := by
  cases document with
  | @made left bytes right value blank spelled blank' =>
    have starts : Starts right enders := by
      have starts := @starts_space [] right blank' nofun
      rw [List.append_nil] at starts
      exact starts
    obtain ⟨fin, parsed, there⟩ := @Complete.value _ _ (complete _ (3 * (left ++ (bytes ++ right)).length + 3)) 0 0 _ _ _ _
      At.start blank spelled (by omega) starts (by simp only [List.length_append]; omega)
    have last : At (left ++ (bytes ++ right)) (skipSpace (left ++ (bytes ++ right)) fin) [] := by
      apply @skipSpace_past _ [] _ right
      · rw [List.append_nil]
        exact there
      · exact blank'
      · nofun
    rw [parse, parsed, ok_bind]
    simp only
    rw [if_neg (not_not.mpr (last.atEnd.mpr rfl))]
    rfl

end Rue.Proofs.Text.Completeness
