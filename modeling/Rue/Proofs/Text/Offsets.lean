import Rue.Proofs.Text.Blame
import Rue.Proofs.Text.Lookahead

/-! The offset of an error is the length of the longest viable part of the input, except
in a member of an object too deep for one. -/

namespace Rue.Proofs.Text.Offsets
open Rue.Lib.Cursor Rue.Text Rue.Proofs.Text.Grammar Rue.Proofs.Text.Reading Rue.Proofs.Text.Numbers
open Rue.Proofs.Text.Characters Rue.Proofs.Text.Strings Rue.Proofs.Text.Soundness Rue.Proofs.Text.Completeness
open Rue.Proofs.Text.Position Rue.Proofs.Text.Errors Rue.Proofs.Text.Blame Rue.Proofs.Text.Lookahead

variable {input rest : StrBuf} {pos depth tries : Nat} {place : Position.Place} {error : ParseError}

/-! What is read first does not keep the parser from a value that is not accepted. -/

section Parser
variable (input)

/-- What is done about a member behind its colon. -/
def memberRest (tries pos depth : Nat) (keys : List StrBuf) (key : StrBuf) (values : List Json) : Outcome (Json × Nat) := do
  let (value, pos) ← parseValue input tries pos (depth + 1)
  let keys := keys ++ [key]
  let values := values ++ [value]
  let pos := skipSpace input pos
  match input[pos]? with
  | none => fail (.unexpectedEnd pos)
  | some delimiter =>
    if delimiter.toNat = 125 then .ok (.object keys values, pos + 1)
    else if delimiter.toNat ≠ 44 then fail (.unexpectedByte pos)
    else parseMembers input tries (skipSpace input (pos + 1)) depth keys values

end Parser

/-- A value may begin here, if anything does. -/
def Begins (rest : StrBuf) : Prop := ∀ b, rest.head? = some b → b ∈ starters

theorem Begins.solid (begins : Begins rest) : Solid rest := fun b first => starter_solid (begins b first)

theorem begins_byte {b : UInt8} {after : StrBuf} (listed : b ∈ starters) : Begins (b :: after) := by
  intro c first
  cases first
  exact listed

theorem skipSpace_again {space : StrBuf} (here : At input pos (space ++ rest)) (blank : Space space) :
    skipSpace input (pos + space.length) = skipSpace input pos := by
  induction space generalizing pos with
  | nil => rfl
  | cons b space ih =>
    have first : isSpace b := isSpace_iff.mpr (blank b (.head _))
    rw [skipSpace_turn pos b here.head, if_pos first, List.length_cons, Nat.add_comm space.length, ← Nat.add_assoc]
    exact ih (At.next here) fun c member => blank c (.tail _ member)

/-- The space before a value is skipped once or in part before. -/
theorem parseValue_again {space : StrBuf} (here : At input pos (space ++ rest)) (blank : Space space) :
    parseValue input tries (pos + space.length) depth = parseValue input tries pos depth := by
  cases tries with
  | zero => rw [parseValue, parseValue]
  | succ tries => rw [parseValue, parseValue, skipSpace_again here blank]

theorem parseMembers_named {name : StrBuf} {keys : List StrBuf} {values : List Json} (here : At input pos (name ++ rest))
    (named : Named name) :
    ∃ key, parseMembers input (tries + 1) pos depth keys values = memberRest input tries (pos + name.length) depth keys key values := by
  cases named with
  | @made spelling key between after string gap before =>
    simp only [List.cons_append, List.append_assoc] at here
    have inside := here.length
    rw [List.length_cons] at inside
    obtain ⟨fin, parsed, colon⟩ := key_past here string gap
    refine ⟨key, ?_⟩
    have there : At input (pos + (0x22 :: (spelling ++ 0x22 :: (between ++ 0x3A :: after))).length) rest := by
      refine At.skip ?_
      simpa only [List.cons_append, List.append_assoc] using here
    have last := colon.next.skip.unique there
    rw [parseMembers, if_neg (by omega), parsed, ok_bind]
    simp only
    rw [colon.head, memberRest, ← last, parseValue_again colon.next before]
    rfl

/-- How the error of a value that comes next is passed on. -/
def Fails (input : StrBuf) (pos : Nat) (rest : StrBuf) (error : ParseError) (depth : Nat) : Position.Place → Prop
  | .top => ∀ tries, 3 * rest.length + 1 ≤ tries → parseValue input tries pos depth = fail error
  | .item => ∀ tries items, 3 * rest.length + 2 ≤ tries → parseItems input tries pos (depth - 1) items = fail error
  | .member => ∀ tries keys key values, 3 * rest.length + 1 ≤ tries →
      memberRest input tries pos (depth - 1) keys key values = fail error

theorem fails_of_value (inside : place = .top ∨ ∃ outer, depth = outer + 1)
    (failed : ∀ tries, 3 * rest.length + 1 ≤ tries → parseValue input tries pos depth = fail error) :
    Fails input pos rest error depth place := by
  cases place with
  | top => exact failed
  | item =>
    obtain nothing | ⟨outer, rfl⟩ := inside
    · cases nothing
    intro tries items enough
    obtain ⟨tries, rfl⟩ : ∃ fewer, tries = fewer + 1 := ⟨tries - 1, by omega⟩
    rw [parseItems, Nat.add_sub_cancel, failed tries (by omega)]
    rfl
  | member =>
    obtain nothing | ⟨outer, rfl⟩ := inside
    · cases nothing
    intro tries keys key values enough
    rw [memberRest, Nat.add_sub_cancel, failed tries enough]
    rfl

theorem front_at (front rest : StrBuf) : At (front ++ rest) front.length rest :=
  ⟨by rw [List.length_append]; omega, List.drop_left⟩

/-- The parser comes to every place where a value may begin. -/
theorem Opened.path {front : StrBuf} (opened : Opened depth place front) (begins : Begins rest)
    (fails : Fails (front ++ rest) front.length rest error depth place) : parse (front ++ rest) = fail error := by
  induction opened generalizing rest with
  | @top space blank =>
    have here : At (space ++ rest) 0 (space ++ rest) := At.start
    have failed := fails (3 * (space ++ rest).length + 3) (by rw [List.length_append]; omega)
    rw [← Nat.zero_add space.length, parseValue_again here blank] at failed
    rw [parse, failed]
    rfl
  | @item depth place front space outer within blank ih =>
    have whole : front ++ 0x5B :: space ++ rest = front ++ 0x5B :: (space ++ rest) := by simp
    have here := front_at front (0x5B :: (space ++ rest))
    have there := skipSpace_past here.next blank begins.solid
    rw [whole] at fails ⊢
    have same := there.unique (whole ▸ front_at (front ++ 0x5B :: space) rest)
    refine ih (begins_byte (by decide)) (fails_of_value outer.inside fun tries enough => ?_)
    simp only [List.length_cons, List.length_append] at enough
    obtain ⟨tries, rfl⟩ : ∃ fewer, tries = fewer + 2 := ⟨tries - 2, by omega⟩
    have head : (front ++ 0x5B :: (space ++ rest))[front.length]? = some 0x5B := here.head
    have stays : skipSpace (front ++ 0x5B :: (space ++ rest)) front.length = front.length :=
      (skipSpace_turn _ _ head).trans (if_neg (by decide))
    have failed := fails tries [] (by omega)
    rw [← same, Nat.add_sub_cancel] at failed
    rw [parseValue, stays]
    simp only
    rw [if_neg (by omega), head]
    simp only
    rw [if_neg (by decide), if_neg (by decide), if_neg (by decide), if_neg (by decide), if_pos (by decide), parseArray, there.head]
    split
    next => exact failed
    next b first =>
      rw [if_neg]
      · exact failed
      · intro bracket
        have listed := begins b first
        rw [show b = 0x5D from UInt8.toNat_inj.mp bracket] at listed
        exact absurd listed (by decide)
  | @nextItem depth front text value right left earlier item within after before ih =>
    have whole : front ++ (text ++ (right ++ 0x2C :: left)) ++ rest = front ++ (text ++ (right ++ 0x2C :: (left ++ rest))) := by simp
    rw [whole] at fails ⊢
    have here := front_at front (text ++ (right ++ 0x2C :: (left ++ rest)))
    refine ih (fun b first => ?_) fun tries items enough => ?_
    · obtain ⟨c, following, rfl, listed⟩ := value_head item
      cases first
      exact listed
    simp only [List.length_append, List.length_cons] at enough
    obtain ⟨tries, rfl⟩ : ∃ fewer, tries = fewer + 1 := ⟨tries - 1, by omega⟩
    obtain nothing | ⟨outer, rfl⟩ := earlier.inside
    · cases nothing
    obtain ⟨fin, parsed, there⟩ := @Complete.value _ _ (complete _ tries) _ (outer + 1) [] _ _ _ here (List.forall_mem_nil _) item within
      (starts_space after (starts_byte (by decide))) (by simp only [List.length_append, List.length_cons]; omega)
    have comma := skipSpace_past there after (solid_byte (by decide))
    have there' := skipSpace_past comma.next before begins.solid
    have same := there'.unique (whole ▸ front_at (front ++ (text ++ (right ++ 0x2C :: left))) rest)
    have failed := fails tries (items ++ [value]) (by omega)
    rw [← same, Nat.add_sub_cancel] at failed
    rw [parseItems, Nat.add_sub_cancel, parsed, ok_bind]
    simp only
    rw [comma.head]
    simp only [List.head?_cons]
    rw [if_neg (by decide), if_neg (by decide)]
    exact failed
  | @member depth place front space name outer within blank named ih =>
    have whole : front ++ 0x7B :: (space ++ name) ++ rest = front ++ 0x7B :: (space ++ (name ++ rest)) := by simp
    have here := front_at front (0x7B :: (space ++ (name ++ rest)))
    obtain ⟨quoted, same⟩ : ∃ after, name = 0x22 :: after := by
      cases named with
      | made => exact ⟨_, rfl⟩
    have there : At _ (skipSpace _ (front.length + 1)) (name ++ rest) :=
      skipSpace_past here.next blank (by rw [same]; exact solid_byte (by decide))
    rw [whole] at fails ⊢
    have last := there.skip.unique (whole ▸ front_at (front ++ 0x7B :: (space ++ name)) rest)
    refine ih (begins_byte (by decide)) (fails_of_value outer.inside fun tries enough => ?_)
    simp only [List.length_cons, List.length_append] at enough
    have some' : 0 < name.length := by rw [same]; exact Nat.succ_pos _
    have first : (name ++ rest).head? = some 0x22 := by rw [same]; rfl
    obtain ⟨tries, rfl⟩ : ∃ fewer, tries = fewer + 3 := ⟨tries - 3, by omega⟩
    have head : (front ++ 0x7B :: (space ++ (name ++ rest)))[front.length]? = some 0x7B := here.head
    have stays : skipSpace (front ++ 0x7B :: (space ++ (name ++ rest))) front.length = front.length :=
      (skipSpace_turn _ _ head).trans (if_neg (by decide))
    obtain ⟨key, members⟩ := @parseMembers_named _ rest _ depth tries name [] [] there named
    have failed := fails tries [] key [] (by omega)
    rw [← last, Nat.add_sub_cancel, ← members] at failed
    rw [parseValue, stays]
    simp only
    rw [if_neg (by omega), head]
    simp only
    rw [if_neg (by decide), if_neg (by decide), if_neg (by decide), if_neg (by decide), if_neg (by decide), if_pos (by decide),
      parseObject, there.head, first]
    simp only
    rw [if_neg (by decide)]
    exact failed
  | @nextMember depth front text value right left name earlier item within after before named ih =>
    have whole : front ++ (text ++ (right ++ 0x2C :: (left ++ name))) ++ rest =
        front ++ (text ++ (right ++ 0x2C :: (left ++ (name ++ rest)))) := by simp
    rw [whole] at fails ⊢
    have here := front_at front (text ++ (right ++ 0x2C :: (left ++ (name ++ rest))))
    obtain ⟨quoted, same⟩ : ∃ after, name = 0x22 :: after := by
      cases named with
      | made => exact ⟨_, rfl⟩
    refine ih (fun b first => ?_) fun tries keys key values enough => ?_
    · obtain ⟨c, following, rfl, listed⟩ := value_head item
      cases first
      exact listed
    simp only [List.length_append, List.length_cons] at enough
    have some' : 0 < name.length := by rw [same]; exact Nat.succ_pos _
    obtain ⟨tries, rfl⟩ : ∃ fewer, tries = fewer + 1 := ⟨tries - 1, by omega⟩
    obtain nothing | ⟨outer, rfl⟩ := earlier.inside
    · cases nothing
    obtain ⟨fin, parsed, there⟩ := @Complete.value _ _ (complete _ (tries + 1)) _ (outer + 1) [] _ _ _ here (List.forall_mem_nil _) item within
      (starts_space after (starts_byte (by decide))) (by simp only [List.length_append, List.length_cons]; omega)
    have comma := skipSpace_past there after (solid_byte (by decide))
    have there' : At _ (skipSpace _ (skipSpace _ fin + 1)) (name ++ rest) :=
      skipSpace_past comma.next before (by rw [same]; exact solid_byte (by decide))
    have last := there'.skip.unique (whole ▸ front_at (front ++ (text ++ (right ++ 0x2C :: (left ++ name)))) rest)
    obtain ⟨key', members⟩ := @parseMembers_named _ rest _ outer tries name (keys ++ [key]) (values ++ [value]) there' named
    have failed := fails tries (keys ++ [key]) key' (values ++ [value]) (by omega)
    rw [← last, Nat.add_sub_cancel, ← members] at failed
    rw [memberRest, Nat.add_sub_cancel, parsed, ok_bind]
    simp only
    rw [comma.head]
    simp only [List.head?_cons]
    rw [if_neg (by decide), if_neg (by decide)]
    exact failed

theorem parseValue_number {b : UInt8} {after : StrBuf} (here : At input pos (b :: after)) (first : b = 0x2D ∨ Digit b)
    (within : depth ≤ 256) : parseValue input (tries + 1) pos depth = parseNumber input pos := by
  have head : input[pos]? = some b := here.head
  have range : b.toNat = 45 ∨ 48 ≤ b.toNat ∧ b.toNat ≤ 57 := by
    rcases first with rfl | digit
    · exact .inl rfl
    · exact .inr digit
  have either : b.toNat = 45 ∨ isDigit b = true := range.imp_right fun digit => isDigit_iff.mpr digit
  have solid : isSpace b = false := by
    simp only [isSpace, Bool.or_eq_false_iff, decide_eq_false_iff_not]
    omega
  have stays : skipSpace input pos = pos :=
    (skipSpace_turn pos b head).trans (if_neg (by rw [solid]; exact Bool.false_ne_true))
  rw [parseValue, stays]
  simp only
  rw [if_neg (by omega), head]
  simp only
  rw [if_neg (by omega), if_neg (by omega), if_neg (by omega), if_neg (by omega), if_neg (by omega), if_neg (by omega), if_pos either]

theorem starts_nil {allowed : StrBuf} : Starts [] allowed := nofun

theorem parseNumber_signed {sign integer after : StrBuf} (here : At input pos (sign ++ (integer ++ after)))
    (signed : sign ∈ ([[], [0x2D]] : List StrBuf)) (whole : Integer integer) (stops : parseInteger input (pos + sign.length) = fail error ∨
      parseInteger input (pos + sign.length) = .ok (pos + sign.length + integer.length) ∧
        (parseFraction input (pos + sign.length + integer.length) = fail error ∨
          ∃ fin, parseFraction input (pos + sign.length + integer.length) = .ok fin ∧ parseExponent input fin = fail error)) :
    parseNumber input pos = fail error := by
  obtain ⟨digit, following, rfl, isDigit'⟩ := integer_head whole
  have size := here.length
  simp only [List.length_append, List.length_cons] at size
  obtain ⟨lead, found, begins⟩ := number_begins here signed isDigit'
  rw [parseNumber, found]
  simp only [begins]
  rw [if_neg (by omega)]
  rcases stops with failed | ⟨passed, failed | ⟨fin, passed', failed⟩⟩
  · rw [failed]
    rfl
  · rw [passed, ok_bind, failed]
    rfl
  · rw [passed, ok_bind, passed', ok_bind, failed]
    rfl

theorem consumeDigits_end (here : At input pos []) : consumeDigits input pos = pos :=
  consumeDigits_atEnd pos here.head

theorem incomplete_fails {num : StrBuf} (here : At input pos num) (incomplete : Incomplete num) :
    parseNumber input pos = fail (.invalidNumber input.length) := by
  cases incomplete with
  | minus =>
    have size := here.length
    rw [parseNumber, here.head]
    simp only [List.head?_cons, List.length_cons, List.length_nil] at size ⊢
    exact if_pos ⟨rfl, by simp; omega⟩
  | @point sign integer signed whole =>
    refine parseNumber_signed here signed whole (.inr ⟨?_, .inl ?_⟩)
    · exact @parseInteger_past _ _ _ _ [0x2E] here.skip whole (fun b first => by cases first; exact .head _) (by decide)
    · have there := here.skip.skip
      have last : At input (pos + sign.length + integer.length + 1) [] := there.next
      have head : input[pos + sign.length + integer.length]? = some 0x2E := there.head
      rw [parseFraction, head]
      simp only
      rw [if_pos (by decide), consumeDigits_end last, if_pos (Nat.sub_self _), last.atEnd.mpr rfl]
  | @mark sign integer fraction e sign' signed whole decimals marked signed' =>
    have starts : Starts (e :: sign') [0x65, 0x45] := fun b first => by
      cases first
      exact marked
    have exponent : At input (pos + sign.length + integer.length + fraction.length) (e :: sign') := here.skip.skip.skip
    have passed := parseInteger_past here.skip whole (starts_fraction decimals starts) (by decide)
    have passed' := parseFraction_past here.skip.skip decimals starts (by decide) (by decide)
    refine parseNumber_signed here signed whole (.inr ⟨passed, .inr ⟨_, passed', ?_⟩⟩)
    generalize pos + sign.length + integer.length + fraction.length = pos at exponent
    have last : At input (pos + 1 + sign'.length) [] := by
      refine At.skip ?_
      rw [List.append_nil]
      exact exponent.next
    have mark : e.toNat = 101 ∨ e.toNat = 69 := by
      simp only [List.mem_cons, List.not_mem_nil, or_false] at marked
      rcases marked with rfl | rfl
      · exact .inl rfl
      · exact .inr rfl
    have ends : (if consumeDigits input (pos + 1 + sign'.length) - (pos + 1 + sign'.length) = 0 then
          fail (.invalidNumber (consumeDigits input (pos + 1 + sign'.length)))
        else .ok (consumeDigits input (pos + 1 + sign'.length))) = (fail (.invalidNumber input.length) : Outcome Nat) := by
      rw [consumeDigits_end last, if_pos (Nat.sub_self _), last.atEnd.mpr rfl]
    have head : input[pos]? = some e := exponent.head
    rw [parseExponent, head]
    simp only
    rw [if_pos mark, exponent.next.head]
    simp only [List.mem_cons, List.not_mem_nil, or_false] at signed'
    rcases signed' with rfl | rfl | rfl <;> exact ends

theorem zero_fails {num left : StrBuf} {b : UInt8} (here : At input pos (num ++ b :: left)) (zero : Zero num) (digit : Digit b) :
    parseNumber input pos = fail (.invalidNumber (pos + num.length)) := by
  obtain ⟨sign, signed, rfl⟩ := zero
  rw [List.append_assoc] at here
  refine parseNumber_signed here signed .zero (.inl ?_)
  have there := here.skip
  have head : input[pos + sign.length]? = some 0x30 := there.head
  have next : input[pos + sign.length + 1]? = some b := (At.next there).head
  rw [parseInteger, head]
  simp only
  rw [if_pos (by decide), next]
  simp only
  rw [if_pos (isDigit_iff.mpr digit), List.length_append]
  rfl

theorem incomplete_head {num : StrBuf} (incomplete : Incomplete num) : ∃ b after, num = b :: after ∧ (b = 0x2D ∨ Digit b) := by
  have whole : ∀ {sign integer tail : StrBuf}, sign ∈ ([[], [0x2D]] : List StrBuf) → Integer integer →
      ∃ b after, sign ++ (integer ++ tail) = b :: after ∧ (b = 0x2D ∨ Digit b) := by
    intro sign integer tail signed whole
    obtain ⟨first, following, rfl, digit⟩ := integer_head whole
    simp only [List.mem_cons, List.not_mem_nil, or_false] at signed
    rcases signed with rfl | rfl
    · exact ⟨first, _, rfl, .inr digit⟩
    · exact ⟨0x2D, _, rfl, .inl rfl⟩
  cases incomplete with
  | minus => exact ⟨_, _, rfl, .inl rfl⟩
  | point signed integer => exact whole signed integer
  | mark signed integer => exact whole signed integer

theorem incomplete_not_number {num : StrBuf} (incomplete : Incomplete num) : ¬Number num := by
  intro number
  have past := @parseNumber_past num [] 0 num (by rw [List.append_nil]; exact At.start) number starts_nil
  rw [incomplete_fails At.start incomplete] at past
  cases past

/-- The input ends inside a number that asks for a digit. -/
def InNumber (input : StrBuf) : Prop :=
  ∃ depth place front num, depth ≤ 256 ∧ Opened depth place front ∧ Incomplete num ∧ input = front ++ num

/-- The input ends where a value would be too deep. -/
def TooDeep (input : StrBuf) : Prop := ∃ place, Opened 257 place input

theorem number_begins {b : UInt8} {after : StrBuf} (first : b = 0x2D ∨ Digit b) : Begins (b :: after) := by
  refine begins_byte ?_
  rcases first with rfl | digit
  · decide
  · exact digit_listed digit

theorem parse_number {front : StrBuf} (opened : Opened depth place front) (within : depth ≤ 256)
    (first : ∃ b after, rest = b :: after ∧ (b = 0x2D ∨ Digit b))
    (failed : parseNumber (front ++ rest) front.length = fail error) : parse (front ++ rest) = fail error := by
  obtain ⟨b, after, rfl, kind⟩ := first
  refine Opened.path opened (number_begins kind) (fails_of_value opened.inside fun tries enough => ?_)
  obtain ⟨tries, rfl⟩ : ∃ fewer, tries = fewer + 1 := ⟨tries - 1, by omega⟩
  rw [parseValue_number (front_at front (b :: after)) kind within]
  exact failed

theorem InNumber.fails (inside : InNumber input) : parse input = fail (.invalidNumber input.length) := by
  obtain ⟨depth, place, front, num, within, opened, incomplete, rfl⟩ := inside
  exact parse_number opened within (incomplete_head incomplete) (incomplete_fails (front_at front num) incomplete)

theorem TooDeep.fails (deep : TooDeep input) : ∃ fin, parse input = fail (.nestingTooDeep fin) := by
  obtain ⟨place, opened⟩ := deep
  have here := front_at input []
  have path := @Opened.path [] 257 place (.nestingTooDeep (skipSpace (input ++ []) input.length)) input opened nofun
    (fails_of_value opened.inside fun tries enough => ?_)
  · rw [List.append_nil] at path
    exact ⟨_, path⟩
  · obtain ⟨tries, rfl⟩ : ∃ fewer, tries = fewer + 1 := ⟨tries - 1, by omega⟩
    rw [parseValue]
    exact if_pos (by decide)

/-- A byte that the parser does not accept is in no viable text. -/
theorem beyond_not_viable {longer : Nat} (failed : parse input = fail error) (more : offset error < longer)
    (inside : longer ≤ input.length) : ¬Viable (input.take longer) := by
  rintro ⟨tail, value, accepted⟩
  have agree : Agree input (input.take longer ++ tail) (offset error + 1) := by
    intro i small
    rw [List.getElem?_append_left (by rw [List.length_take]; omega), List.getElem?_take_of_lt (by omega)]
  rw [parse_agree failed agree] at accepted
  cases accepted

theorem viable_front {text more : StrBuf} (viable : Viable (text ++ more)) : Viable text := by
  obtain ⟨tail, accepted⟩ := viable
  exact ⟨more ++ tail, by rwa [← List.append_assoc]⟩

theorem blamed_reached (blamed : Blamed input error) : offset error ≤ input.length ∧ Reached (input.take (offset error)) := by
  have number : ∀ {depth place front rest} {text left : StrBuf} {fin : Nat}, Opened depth place front → depth ≤ 256 →
      input = front ++ rest → rest = text ++ left → At input fin left → (∃ tail, Number (text ++ tail)) →
      fin ≤ input.length ∧ Reached (input.take fin) := by
    rintro depth place front rest text left fin opened within parts rfl there ⟨tail, number⟩
    refine ⟨there.1, .inl ?_⟩
    have here : At input front.length (text ++ left) := parts ▸ front_at front (text ++ left)
    rw [taken here there, parts, List.take_left]
    exact @Opened.viable _ _ _ text _ tail opened (.number number) within
  cases blamed with
  | missing reached => exact ⟨Nat.le_refl _, by rwa [offset, List.take_length]⟩
  | byte _ reached inside => exact ⟨Nat.le_of_lt inside, reached⟩
  | number opened within parts short =>
    cases short with
    | incomplete parts' there incomplete => exact number opened within parts parts' there ⟨_, incomplete.completed⟩
    | zero parts' there zero =>
      obtain ⟨sign, signed, rfl⟩ := zero
      refine number opened within parts parts' there ⟨[], ?_⟩
      have made := Number.made signed .zero .absent .absent
      simpa only [List.append_nil] using made
  | deep opened inside => exact ⟨inside, Opened.reached opened⟩
  | @trailing text byte more parts accepted =>
    refine ⟨by rw [parts, List.length_append]; exact Nat.le_add_right _ _, .inl ⟨[], ?_⟩⟩
    rw [offset, parts, List.take_left, List.append_nil]
    exact accepted

/-- The length of the longest part from the start that some accepted text begins with. -/
def Longest (input : StrBuf) (count : Nat) : Prop :=
  count ≤ input.length ∧ Viable (input.take count) ∧ ∀ longer, count < longer → longer ≤ input.length → ¬Viable (input.take longer)

theorem offset_longest (failed : parse input = fail error) (outside : ¬Sunk (input.take (offset error))) :
    Longest input (offset error) := by
  obtain ⟨inside, reached⟩ := blamed_reached (parse_blames input error failed)
  exact ⟨inside, reached.resolve_right outside, fun longer more within => beyond_not_viable failed more within⟩

/-- A missing byte is told from one that is not accepted. -/
theorem unexpectedEnd_iff (failed : parse input = fail error) (outside : ¬Sunk (input.take (offset error))) :
    (∃ fin, error = .unexpectedEnd fin) ↔ Viable input ∧ ¬InNumber input ∧ ¬TooDeep input := by
  obtain ⟨inside, viable, longest⟩ := offset_longest failed outside
  constructor
  · rintro ⟨fin, rfl⟩
    refine ⟨?_, fun number => ?_, fun deep => ?_⟩
    · cases parse_blames input _ failed with
      | missing => rwa [offset, List.take_length] at viable
      | byte kind => cases kind
      | number _ _ _ short => cases short
    · rw [number.fails] at failed
      cases failed
    · obtain ⟨fin', fails⟩ := deep.fails
      rw [fails] at failed
      cases failed
  · rintro ⟨whole, number, deep⟩
    have last : offset error = input.length := by
      by_contra other
      refine longest input.length (by omega) (Nat.le_refl _) ?_
      rwa [List.take_length]
    cases parse_blames input error failed with
    | missing => exact ⟨_, rfl⟩
    | byte _ _ inside => omega
    | number opened within parts short =>
      cases short with
      | @incomplete text left fin parts' there incomplete =>
        have empty := there.atEnd.mp last
        subst parts' empty
        rw [List.append_nil] at parts
        exact absurd ⟨_, _, _, _, within, opened, incomplete, parts⟩ number
      | zero _ there => cases there.atEnd.mp last
    | @deep place fin opened =>
      have same : fin = input.length := last
      rw [same, List.take_length] at opened
      exact absurd ⟨_, opened⟩ deep
    | @trailing text byte more parts =>
      have size := congrArg List.length parts
      rw [List.length_append, List.length_cons] at size
      have : text.length = input.length := last
      omega

/-- Behind a value that was read nothing else is reported. -/
theorem read_trailing {value : Json × Nat} (failed : parse input = fail error)
    (parsed : parseValue input (3 * input.length + 3) 0 0 = .ok value) : ∃ fin, error = .trailingCharacters fin := by
  rw [parse, parsed, ok_bind] at failed
  dsimp only at failed
  split at failed
  next => cases failed; exact ⟨_, rfl⟩
  next => cases failed

/-- A zero that a digit must not follow. -/
def AfterZero (text : StrBuf) : Prop := ∃ space zero, text = space ++ zero ∧ Space space ∧ Zero zero

theorem accepted_trailing {text more : StrBuf} {b : UInt8} (failed : parse input = fail error) (parts : input = text ++ b :: more)
    (last : offset error = text.length) (accepted : Accepted text) (free : ¬(Digit b ∧ AfterZero text)) :
    ∃ fin, error = .trailingCharacters fin := by
  obtain ⟨whole, accepted⟩ := accepted
  have gives := @Sound.value _ _ (sound text (3 * text.length + 3)) 0 0 _ At.start (by omega)
  cases parsed : parseValue text (3 * text.length + 3) 0 0 with
  | error failure =>
    rw [parse, parsed] at accepted
    cases accepted
  | ok value =>
    obtain ⟨value, fin⟩ := value
    rw [parsed] at gives
    obtain ⟨read, after, rest', ⟨space, body, rfl, blank, spelled, within⟩, there⟩ := gives
    by_cases inside : reach (value, fin) ≤ text.length
    · have agree : Agree text input (reach (value, fin)) := by
        intro i small
        rw [parts, List.getElem?_append_left (by omega)]
      refine read_trailing failed ((parseValue_agree ?_ agree).trans parsed)
      rw [parsed]
      exact .ok
    -- Only a number looks at the byte after it.
    have end' := there.1
    cases value with
    | number spelling =>
      simp only [reach, ahead] at inside
      obtain rfl : after = [] := there.atEnd.mp (by omega)
      obtain ⟨rfl, number⟩ : body = spelling ∧ Number spelling := by
        cases spelled with
        | number number => exact ⟨rfl, number⟩
      rw [List.append_nil] at rest'
      subst rest'
      rw [List.append_assoc] at parts
      have start : At input 0 (space ++ (body ++ b :: more)) := parts ▸ At.start
      have here : At input (0 + space.length) (body ++ b :: more) := start.skip
      obtain ⟨c, following, same, first⟩ := number_head number
      have same' : parseValue input (3 * input.length + 3) 0 0 = parseNumber input (0 + space.length) := by
        rw [← parseValue_again start blank]
        refine @parseValue_number _ _ _ _ c (following ++ b :: more) ?_ first (by decide)
        rw [same] at here
        exact here
      have errs := @parseNumber_errs input _ _ here (by rw [same]; intro d head; cases head; exact first)
      cases parsed' : parseNumber input (0 + space.length) with
      | ok value => exact read_trailing failed (same'.trans parsed')
      | error failure =>
        rw [parse, same', parsed'] at failed
        cases failed
        -- The error would be where the number ends.
        have ends : ∀ {text' left : StrBuf} {fin : Nat}, body ++ b :: more = text' ++ left → At input fin left →
            fin = (space ++ body).length → text' = body ∧ left = b :: more := by
          intro text' left fin parts' there' same''
          have last' := there'.unique (parts' ▸ here).skip
          rw [List.length_append] at same''
          have size : text'.length = body.length := by omega
          obtain ⟨one, two⟩ := List.append_inj parts'.symm size
          exact ⟨one, two⟩
        cases errs _ parsed' with
        | incomplete parts' there' incomplete =>
          obtain ⟨rfl, -⟩ := ends parts' there' last
          exact absurd number (incomplete_not_number incomplete)
        | zero parts' there' zero digit =>
          obtain ⟨rfl, rest⟩ := ends parts' there' last
          obtain ⟨rfl, -⟩ := List.cons.inj rest
          exact absurd ⟨digit, space, _, rfl, blank, zero⟩ free
    | _ => exact absurd end' inside

/-- A value that is over is told from one that is not. -/
theorem trailingCharacters_iff (failed : parse input = fail error) (outside : ¬Sunk (input.take (offset error))) :
    (∃ fin, error = .trailingCharacters fin) ↔
      ∃ text b more, input = text ++ b :: more ∧ Accepted text ∧ isSpace b = false ∧ ¬Viable (text ++ [b]) ∧
        ¬(Digit b ∧ AfterZero text) := by
  obtain ⟨inside, viable, longest⟩ := offset_longest failed outside
  constructor
  · rintro ⟨fin, rfl⟩
    cases parse_blames input _ failed with
    | byte kind => cases kind
    | number _ _ _ short => cases short
    | @trailing text b more parts accepted solid =>
      refine ⟨text, b, more, parts, accepted, solid, ?_, ?_⟩
      · have beyond := @beyond_not_viable _ _ (text.length + 1) failed (Nat.lt_succ_self _) (by rw [parts]; simp)
        rwa [parts, List.take_length_add_append, List.take_succ_cons, List.take_zero] at beyond
      · rintro ⟨digit, space, zero, rfl, blank, zero'⟩
        rw [List.append_assoc] at parts
        have fails : parse input = fail (.invalidNumber (space.length + zero.length)) := by
          rw [parts]
          refine parse_number (.top blank) (by decide) ?_ (zero_fails (front_at space _) zero' digit)
          obtain ⟨sign, signed, rfl⟩ := zero'
          simp only [List.mem_cons, List.not_mem_nil, or_false] at signed
          rcases signed with rfl | rfl
          · exact ⟨_, _, rfl, .inr ⟨by decide, by decide⟩⟩
          · exact ⟨_, _, rfl, .inl rfl⟩
        rw [fails] at failed
        cases failed
  · rintro ⟨text, b, more, parts, accepted, -, stuck, free⟩
    have last : offset error = text.length := by
      rcases Nat.lt_trichotomy (offset error) text.length with less | same | greater
      · refine absurd ?_ (longest text.length less (by rw [parts]; simp))
        rw [parts, List.take_left]
        exact ⟨[], by rwa [List.append_nil]⟩
      · exact same
      · refine absurd ?_ stuck
        have longer : ∃ tail, input.take (offset error) = text ++ [b] ++ tail := by
          obtain ⟨gap, same⟩ : ∃ gap, offset error = text.length + (gap + 1) := ⟨offset error - text.length - 1, by omega⟩
          rw [same, parts, List.take_length_add_append, List.take_succ_cons]
          exact ⟨more.take gap, by simp⟩
        obtain ⟨tail, same⟩ := longer
        rw [same] at viable
        exact viable_front viable
    exact accepted_trailing failed parts last accepted free

theorem solid_unique {left right after after' : StrBuf} {b c : UInt8} (blank : Space left) (blank' : Space right)
    (solid : isSpace b = false) (solid' : isSpace c = false) (same : left ++ b :: after = right ++ c :: after') : b = c := by
  induction left generalizing right with
  | nil =>
    cases right with
    | nil => exact (List.cons.inj same).1
    | cons d right =>
      obtain ⟨rfl, -⟩ := List.cons.inj same
      exact absurd (isSpace_iff.mpr (blank' b (.head _))) (by rw [solid]; exact Bool.false_ne_true)
  | cons d left ih =>
    cases right with
    | nil =>
      obtain ⟨rfl, -⟩ := List.cons.inj same
      exact absurd (isSpace_iff.mpr (blank d (.head _))) (by rw [solid']; exact Bool.false_ne_true)
    | cons e right =>
      exact ih (fun b member => blank b (.tail _ member)) (fun b member => blank' b (.tail _ member)) (List.cons.inj same).2

theorem sunk_not_viable {text : StrBuf} (sunk : Sunk text) : ¬Viable text := by
  rintro ⟨tail, whole, accepted⟩
  obtain ⟨place, front, space, more, rfl, opened, blank⟩ := sunk
  rw [List.append_assoc] at accepted
  have parts : 0x7B :: (space ++ 0x22 :: more) ++ tail = 0x7B :: (space ++ 0x22 :: (more ++ tail)) := by simp
  rw [parts] at accepted
  have here := front_at front (0x7B :: (space ++ 0x22 :: (more ++ tail)))
  generalize count : 3 * (0x7B :: (space ++ 0x22 :: (more ++ tail)) : StrBuf).length + 1 = tries at *
  have gives := @Sound.value _ _ (sound _ tries) front.length 256 _ here (by omega)
  cases parsed : parseValue (front ++ 0x7B :: (space ++ 0x22 :: (more ++ tail))) tries front.length 256 with
  | error failure =>
    rw [parsed] at gives
    cases failure with
    | trap => cases gives
    | endless => cases gives
    | reported error =>
      have failed := Opened.path opened (begins_byte (by decide)) (fails_of_value opened.inside fun more' enough =>
        (parseValue_more here (by omega) (count ▸ enough)).trans parsed)
      rw [failed] at accepted
      cases accepted
  | ok value =>
    obtain ⟨value, fin⟩ := value
    rw [parsed] at gives
    obtain ⟨read, after, same, ⟨left, body, rfl, blank', spelled, deep⟩, -⟩ := gives
    have nothing : left = [] := by
      cases left with
      | nil => rfl
      | cons b left =>
        obtain ⟨rfl, -⟩ := List.cons.inj same
        exact absurd (blank' 0x7B (.head _)) (by decide)
    subst nothing
    rw [List.nil_append] at same
    cases spelled with
    | number number =>
      obtain ⟨b, following, rfl, first⟩ := number_head number
      obtain ⟨rfl, -⟩ := List.cons.inj same
      rcases first with bad | digit
      · exact absurd bad (by decide)
      · exact absurd digit.2 (by decide)
    | @emptyObject gap blank'' =>
      rw [List.cons_append, List.append_assoc] at same
      exact absurd (solid_unique blank blank'' rfl rfl (List.cons.inj same).2) (by decide)
    | object some' =>
      cases some' <;> simp only [nesting, below] at deep <;> omega
    | _ => cases same

/-- A rejected input is viable up to the offset of its error and no further, except in a
member of an object in 256 others, and the kind of the error tells what is missing. -/
theorem parse_offsets (input : StrBuf) (error : ParseError) (failed : parse input = fail error) :
    (Longest input (offset error) ↔ ¬Sunk (input.take (offset error))) ∧
    (¬Sunk (input.take (offset error)) →
      ((∃ fin, error = .unexpectedEnd fin) ↔ Viable input ∧ ¬InNumber input ∧ ¬TooDeep input) ∧
      ((∃ fin, error = .trailingCharacters fin) ↔
        ∃ text b more, input = text ++ b :: more ∧ Accepted text ∧ isSpace b = false ∧ ¬Viable (text ++ [b]) ∧
          ¬(Digit b ∧ AfterZero text))) := by
  refine ⟨⟨fun longest sunk => ?_, offset_longest failed⟩, fun outside => ?_⟩
  · exact sunk_not_viable sunk longest.2.1
  · exact ⟨unexpectedEnd_iff failed outside, trailingCharacters_iff failed outside⟩

/-- An array that is not closed. -/
theorem bracket_offset : Longest [0x5B] 1 ∧ Viable [0x5B] := by
  have failed : parse [0x5B] = fail (.unexpectedEnd 1) := by
    simp [parse, parseValue, parseArray, parseItems, skipSpace, isSpace, fail, bind, Except.bind]
  have outside : ¬Sunk (([0x5B] : StrBuf).take (offset (.unexpectedEnd 1))) := by
    rintro ⟨place, front, space, more, same, -⟩
    have size := congrArg List.length same
    simp [offset] at size
    omega
  obtain ⟨longest, rest⟩ := parse_offsets [0x5B] (.unexpectedEnd 1) failed
  exact ⟨longest.mpr outside, ((rest outside).1.mp ⟨1, rfl⟩).1⟩

theorem brackets_opened (count : Nat) (within : count ≤ 257) : ∃ place, Opened count place (List.replicate count 0x5B) := by
  induction count with
  | zero => exact ⟨.top, .top nofun⟩
  | succ count ih =>
    obtain ⟨place, opened⟩ := ih (by omega)
    rw [List.replicate_succ']
    exact ⟨.item, .item opened (by omega) nofun⟩

/-- 257 opening brackets, and a key begun in 256 of them and a brace. -/
theorem deep_offsets :
    ((∃ fin, parse (List.replicate 257 0x5B) = fail (.nestingTooDeep fin)) ∧ Viable (List.replicate 257 0x5B) ∧
      ¬InNumber (List.replicate 257 0x5B)) ∧
    (parse (List.replicate 256 0x5B ++ [0x7B, 0x22]) = fail (.unexpectedEnd 258) ∧
      ¬Viable (List.replicate 256 0x5B ++ [0x7B, 0x22])) := by
  constructor
  · obtain ⟨place, opened⟩ := brackets_opened 257 (Nat.le_refl _)
    obtain ⟨fin, failed⟩ := TooDeep.fails ⟨place, opened⟩
    refine ⟨⟨fin, failed⟩, ?_, fun number => ?_⟩
    · obtain ⟨place, outer⟩ := brackets_opened 256 (by decide)
      rw [List.replicate_succ']
      exact @Opened.viable _ _ _ [0x5B] _ [0x5D] outer (@Spells.emptyArray [] nofun) (by decide)
    · rw [number.fails] at failed
      cases failed
  · obtain ⟨place, opened⟩ := brackets_opened 256 (by decide)
    refine ⟨?_, sunk_not_viable ⟨place, _, [], [], rfl, opened, nofun⟩⟩
    refine Opened.path opened (begins_byte (by decide)) (fails_of_value opened.inside fun tries enough => ?_)
    have here := front_at (List.replicate 256 0x5B) [0x7B, 0x22]
    have size := here.length
    generalize (List.replicate 256 0x5B ++ [0x7B, 0x22] : StrBuf) = input at here size ⊢
    rw [List.length_replicate] at here size ⊢
    obtain ⟨tries, rfl⟩ : ∃ fewer, tries = fewer + 4 := ⟨tries - 4, by simp at enough; omega⟩
    have brace : input[256]? = some 0x7B := here.head
    have quote : input[257]? = some 0x22 := here.next.head
    have ended : input[258]? = none := here.next.next.head
    have stays : skipSpace input 256 = 256 := (skipSpace_turn _ _ brace).trans (if_neg (by decide))
    have stays' : skipSpace input 257 = 257 := (skipSpace_turn _ _ quote).trans (if_neg (by decide))
    have last : input.length = 258 := size.symm
    rw [parseValue, stays]
    simp only
    rw [if_neg (by decide), brace]
    simp only
    rw [if_neg (by decide), if_neg (by decide), if_neg (by decide), if_neg (by decide), if_neg (by decide), if_pos (by decide),
      parseObject, stays', quote]
    simp only
    rw [if_neg (by decide), parseMembers, if_neg (by omega), parseString, quote]
    simp only
    rw [if_neg (by decide), last, parseCharacters, ended, last]
    rfl

end Rue.Proofs.Text.Offsets
