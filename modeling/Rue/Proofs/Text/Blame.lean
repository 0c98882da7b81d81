import Rue.Proofs.Text.Errors
import Rue.Proofs.Text.Completeness

/-! Where a value may begin: how deep, in what, and how the text before it can be
brought to an end after the value. -/

namespace Rue.Proofs.Text.Position
open Rue.Lib.Cursor Rue.Text Rue.Proofs.Text.Grammar Rue.Proofs.Text.Soundness

def Accepted (text : StrBuf) : Prop := ∃ value, parse text = .ok value

/-- Some text that begins so is accepted. -/
def Viable (text : StrBuf) : Prop := ∃ tail, Accepted (text ++ tail)

/-- A key with its colon, and the space up to the value. -/
inductive Named : StrBuf → Prop where
  | made {spelling key between after} (name : Characters spelling key) (gap : Space between) (before : Space after) :
      Named (0x22 :: (spelling ++ 0x22 :: (between ++ 0x3A :: after)))

inductive Place where
  | top
  | item
  | member

/-- A text after which a value at some depth comes next. -/
inductive Opened : Nat → Place → StrBuf → Prop where
  | top {space} (blank : Space space) : Opened 0 .top space
  | item {depth place front space} (outer : Opened depth place front) (within : depth ≤ 256) (blank : Space space) :
      Opened (depth + 1) .item (front ++ 0x5B :: space)
  | nextItem {depth front text value right left} (earlier : Opened depth .item front) (item : Spells text value)
      (within : depth + nesting value ≤ 256) (after : Space right) (before : Space left) :
      Opened depth .item (front ++ (text ++ (right ++ 0x2C :: left)))
  | member {depth place front space name} (outer : Opened depth place front) (within : depth ≤ 256) (blank : Space space)
      (named : Named name) : Opened (depth + 1) .member (front ++ 0x7B :: (space ++ name))
  | nextMember {depth front text value right left name} (earlier : Opened depth .member front) (item : Spells text value)
      (within : depth + nesting value ≤ 256) (after : Space right) (before : Space left) (named : Named name) :
      Opened depth .member (front ++ (text ++ (right ++ 0x2C :: (left ++ name))))

variable {depth : Nat} {place : Place} {front blanks text : StrBuf}

theorem Named.space {name : StrBuf} (named : Named name) (blank : Space blanks) : Named (name ++ blanks) := by
  cases named with
  | made name gap before =>
    simp only [List.cons_append, List.append_assoc]
    exact .made name gap (Space.append before blank)

theorem Opened.space (opened : Opened depth place front) (blank : Space blanks) : Opened depth place (front ++ blanks) := by
  cases opened with
  | top before => exact .top (Space.append before blank)
  | item outer within before =>
    simp only [List.append_assoc, List.cons_append]
    exact .item outer within (Space.append before blank)
  | nextItem earlier item within after before =>
    simp only [List.append_assoc, List.cons_append]
    exact .nextItem earlier item within after (Space.append before blank)
  | member outer within before named =>
    simp only [List.append_assoc, List.cons_append]
    exact .member outer within before (named.space blank)
  | nextMember earlier item within after before named =>
    simp only [List.append_assoc, List.cons_append]
    exact .nextMember earlier item within after before (named.space blank)

/-- What may come between a value and the end of what it stands in. -/
inductive More : Nat → Place → StrBuf → Prop where
  | none {depth : Nat} {place : Place} : More depth place []
  | items {depth : Nat} {bytes items} (others : Items bytes items) (within : depth + below items ≤ 257) :
      More depth .item (0x2C :: bytes)
  | members {depth : Nat} {bytes keys values} (others : Members bytes keys values) (within : depth + below values ≤ 257) :
      More depth .member (0x2C :: bytes)

/-- One end serves every value, with more after it or none. -/
def Closable (depth : Nat) (place : Place) (front : StrBuf) : Prop :=
  ∃ tail, ∀ {text value after more}, Spells text value → depth + nesting value ≤ 256 → Space after → More depth place more →
    Accepted (front ++ (text ++ (after ++ (more ++ tail))))

theorem accepted_of_document {value : Json} (document : Document text value) (deep : nesting value ≤ 256) : Accepted text :=
  ⟨value, Completeness.parse_past document deep⟩

theorem items_more {bytes left right more : StrBuf} {value : Json} (before : Space left) (item : Spells bytes value)
    (after : Space right) (others : More (depth + 1) .item more) (deep : depth + 1 + nesting value ≤ 256) :
    ∃ items, Items (left ++ (bytes ++ (right ++ more))) items ∧ depth + below items ≤ 256 := by
  cases others with
  | none =>
    rw [List.append_nil]
    refine ⟨_, .one before item after, ?_⟩
    simp only [below]
    omega
  | items others within =>
    refine ⟨_, .more before item after others, ?_⟩
    simp only [below]
    omega

theorem members_more {bytes left right name more : StrBuf} {value : Json} (before : Space left) (named : Named name)
    (item : Spells bytes value) (after : Space right) (others : More (depth + 1) .member more)
    (deep : depth + 1 + nesting value ≤ 256) :
    ∃ keys values, Members (left ++ (name ++ (bytes ++ (right ++ more)))) keys values ∧ depth + below values ≤ 256 := by
  cases named with
  | made name gap before' =>
    simp only [List.cons_append, List.append_assoc]
    cases others with
    | none =>
      rw [List.append_nil]
      refine ⟨_, _, .one before name gap before' item after, ?_⟩
      simp only [below]
      omega
    | members others within =>
      refine ⟨_, _, .more before name gap before' item after others, ?_⟩
      simp only [below]
      omega

/-- The depth of an item is that of its array and one. -/
theorem Opened.inside (opened : Opened depth place front) : place = .top ∨ ∃ outer, depth = outer + 1 := by
  induction opened with
  | top => exact .inl rfl
  | item => exact .inr ⟨_, rfl⟩
  | nextItem _ _ _ _ _ ih => exact ih
  | member => exact .inr ⟨_, rfl⟩
  | nextMember _ _ _ _ _ _ ih => exact ih

theorem Opened.closable (opened : Opened depth place front) : Closable depth place front := by
  induction opened with
  | top blank =>
    refine ⟨[], fun spelled deep after more => ?_⟩
    cases more
    simp only [List.append_nil]
    exact accepted_of_document (.made blank spelled after) (by omega)
  | @item depth place front space outer within blank ih =>
    obtain ⟨tail, close⟩ := ih
    refine ⟨0x5D :: tail, fun {text value after more} spelled deep blank' others => ?_⟩
    obtain ⟨items, listed, deep'⟩ := items_more blank spelled blank' others deep
    have closed := @close _ _ [] _ (.array listed) deep' nofun .none
    simp only [List.append_assoc, List.cons_append, List.nil_append] at closed ⊢
    exact closed
  | @nextItem depth front text value right left earlier item within after before ih =>
    obtain ⟨tail, close⟩ := ih
    obtain nothing | ⟨outer, rfl⟩ := earlier.inside
    · cases nothing
    refine ⟨tail, fun {text' value' after' more} spelled deep blank' others => ?_⟩
    obtain ⟨items, listed, deep'⟩ := items_more before spelled blank' others deep
    have closed := close item within after (.items listed (by omega))
    simp only [List.append_assoc, List.cons_append] at closed ⊢
    exact closed
  | @member depth place front space name outer within blank named ih =>
    obtain ⟨tail, close⟩ := ih
    refine ⟨0x7D :: tail, fun {text value after more} spelled deep blank' others => ?_⟩
    obtain ⟨keys, values, listed, deep'⟩ := members_more blank named spelled blank' others deep
    have closed := @close _ _ [] _ (.object listed) deep' nofun .none
    simp only [List.append_assoc, List.cons_append, List.nil_append] at closed ⊢
    exact closed
  | @nextMember depth front text value right left name earlier item within after before named ih =>
    obtain ⟨tail, close⟩ := ih
    obtain nothing | ⟨outer, rfl⟩ := earlier.inside
    · cases nothing
    refine ⟨tail, fun {text' value' after' more} spelled deep blank' others => ?_⟩
    obtain ⟨keys, values, listed, deep'⟩ := members_more before named spelled blank' others deep
    have closed := close item within after (.members listed (by omega))
    simp only [List.append_assoc, List.cons_append] at closed ⊢
    exact closed

/-- The text is viable as long as the value that comes next can be completed. -/
theorem Opened.viable {value : Json} {tail : StrBuf} (opened : Opened depth place front) (spelled : Spells (text ++ tail) value)
    (deep : depth + nesting value ≤ 256) : Viable (front ++ text) := by
  obtain ⟨closing, close⟩ := opened.closable
  have closed := @close _ _ [] _ spelled deep nofun .none
  exact ⟨tail ++ closing, by simpa only [List.append_assoc, List.nil_append] using closed⟩

end Rue.Proofs.Text.Position

/-! What every error names: up to the offset the text is viable, and the kind of the
error tells what stands there. -/

namespace Rue.Proofs.Text.Blame
open Rue.Lib.Cursor Rue.Text Rue.Proofs.Text.Grammar Rue.Proofs.Text.Reading Rue.Proofs.Text.Numbers
open Rue.Proofs.Text.Strings Rue.Proofs.Text.Soundness Rue.Proofs.Text.Position Rue.Proofs.Text.Errors

/-- In a member of an object so deep that none of its values is read. -/
def Sunk (text : StrBuf) : Prop :=
  ∃ place front space more, text = front ++ 0x7B :: (space ++ 0x22 :: more) ∧ Opened 256 place front ∧ Space space

def Reached (text : StrBuf) : Prop := Viable text ∨ Sunk text

inductive Blamed (input : StrBuf) : ParseError → Prop where
  | missing (reached : Reached input) : Blamed input (.unexpectedEnd input.length)
  | byte {error} (kind : Plain error [0]) (reached : Reached (input.take (offset error)))
      (inside : offset error < input.length) : Blamed input error
  | number {depth place front rest error} (opened : Opened depth place front) (within : depth ≤ 256)
      (parts : input = front ++ rest) (short : Short input rest error) : Blamed input error
  | deep {place fin} (opened : Opened 257 place (input.take fin)) (inside : fin ≤ input.length) :
      Blamed input (.nestingTooDeep fin)
  | trailing {text byte more} (parts : input = text ++ byte :: more) (accepted : Accepted text)
      (solid : isSpace byte = false) : Blamed input (.trailingCharacters text.length)

variable {input rest : StrBuf} {tries pos fin depth : Nat} {place : Position.Place} {Good : StrBuf → Prop} {error : ParseError}

theorem taken {text left : StrBuf} (here : At input pos (text ++ left)) (there : At input fin left) :
    input.take fin = input.take pos ++ text := by
  rw [there.unique here.skip, List.take_add, here.between]

theorem taken_all (here : At input pos []) : input.take pos = input := by
  rw [here.atEnd.mpr rfl, List.take_length]

theorem Opened.bounded {front : StrBuf} (opened : Opened depth place front) : depth ≤ 257 := by
  induction opened with
  | top => omega
  | item _ within => omega
  | nextItem _ _ _ _ _ ih => exact ih
  | member _ within => omega
  | nextMember _ _ _ _ _ _ ih => exact ih

theorem Opened.reached {front : StrBuf} (opened : Opened depth place front) : Reached front := by
  by_cases within : depth ≤ 256
  · have viable := @Opened.viable _ _ _ [] _ _ opened .null within
    rw [List.append_nil] at viable
    exact .inl viable
  have deep : depth = 257 := by have := Opened.bounded opened; omega
  cases opened with
  | top => omega
  | @item depth place front space outer within' blank =>
    exact .inl (@Opened.viable _ _ _ (0x5B :: space) _ [0x5D] outer (.emptyArray blank) within')
  | nextItem _ _ deep' => omega
  | @member depth place front space name outer within blank named =>
    obtain rfl : depth = 256 := by omega
    cases named with
    | made => exact .inr ⟨place, front, space, _, rfl, outer, blank⟩
  | nextMember _ _ deep' => omega

theorem blamed_missing (here : At input pos rest) (none' : input[pos]? = none) (reached : Reached (input.take pos)) :
    Blamed input (.unexpectedEnd pos) := by
  have empty := missing here none'
  subst empty
  rw [taken_all here] at reached
  rw [here.atEnd.mpr rfl]
  exact .missing reached

theorem blamed_byte {b : UInt8} (found : input[pos]? = some b) (reached : Reached (input.take pos)) :
    Blamed input (.unexpectedByte pos) :=
  .byte (List.cons_ne_nil _ _) reached (List.getElem?_eq_some_iff.mp found).1

/-- What was read in vain was part of something that could be completed. -/
theorem blamed_stuck (here : At input pos rest) (stuck : Stuck input rest Good error)
    (made : ∀ text tail, Good (text ++ tail) → Reached (input.take pos ++ text)) : Blamed input error := by
  obtain ⟨text, left, tail, rfl, there, good, plain⟩ := stuck
  have reached := made text tail good
  rw [← taken here there] at reached
  have inside : left ≠ [] → offset error < input.length := by
    intro some'
    have size := there.length
    have := List.length_pos_of_ne_nil some'
    omega
  cases error with
  | unexpectedEnd =>
    obtain rfl : left = [] := plain
    exact blamed_missing there there.head reached
  | unexpectedByte => exact .byte (List.cons_ne_nil _ _) reached (inside plain)
  | invalidEscape => exact .byte (List.cons_ne_nil _ _) reached (inside plain)
  | invalidUnicode => exact .byte (List.cons_ne_nil _ _) reached (inside plain)
  | invalidNumber => cases plain
  | trailingCharacters => cases plain
  | nestingTooDeep => cases plain

theorem skipSpace_stops {b : UInt8} (here : At input pos rest) (found : input[skipSpace input pos]? = some b) :
    isSpace b = false := by
  have there := here.skipped skipSpace_turn skipSpace_atEnd
  have stop := List.head?_dropWhile_not isSpace rest
  rw [← there.head, found] at stop
  exact stop

structure Blames (input : StrBuf) (tries : Nat) : Prop where
  value : ∀ {pos depth place rest}, At input pos rest → 3 * rest.length + 1 ≤ tries → Opened depth place (input.take pos) →
    Errs (Blamed input) (parseValue input tries pos depth)
  array : ∀ {pos depth place rest}, At input pos (0x5B :: rest) → 3 * rest.length + 3 ≤ tries → depth ≤ 256 →
    Opened depth place (input.take pos) → Errs (Blamed input) (parseArray input tries pos depth)
  items : ∀ {pos depth rest items}, At input pos rest → 3 * rest.length + 2 ≤ tries →
    Opened (depth + 1) .item (input.take pos) → Errs (Blamed input) (parseItems input tries pos depth items)
  object : ∀ {pos depth place rest}, At input pos (0x7B :: rest) → 3 * rest.length + 3 ≤ tries → depth ≤ 256 →
    Opened depth place (input.take pos) → Errs (Blamed input) (parseObject input tries pos depth)
  members : ∀ {pos depth rest keys values}, At input pos rest → 3 * rest.length + 2 ≤ tries → depth ≤ 256 →
    (∀ name, Named name → Opened (depth + 1) .member (input.take pos ++ name)) →
    (depth = 256 → Viable (input.take pos) ∧ ∀ more, Sunk (input.take pos ++ 0x22 :: more)) →
    Errs (Blamed input) (parseMembers input tries pos depth keys values)

theorem literal_blames {word : StrBuf} {value : Json} (here : At input pos rest) (opened : Opened depth place (input.take pos))
    (spelled : Spells word value) (flat : nesting value = 0) (within : depth ≤ 256) :
    Errs (Blamed input) (do return (value, ← parseLiteral input pos word)) := by
  refine Errs.bind ((parseLiteral_errs here).weaken fun error stuck => ?_) (parseLiteral_gives here) fun _ _ => errs_ok
  refine blamed_stuck here stuck fun text tail same => .inl (@Opened.viable _ _ _ text value tail opened ?_ (by omega))
  rw [same]
  exact spelled

theorem value_blames (blames : Blames input tries) (here : At input pos rest) (enough : 3 * rest.length + 1 ≤ tries + 1)
    (opened : Opened depth place (input.take pos)) : Errs (Blamed input) (parseValue input (tries + 1) pos depth) := by
  obtain ⟨space, after, rfl, blank, there⟩ := skipSpace_reads here
  have opened := opened.space blank
  rw [← taken here there] at opened
  rw [List.length_append] at enough
  rw [parseValue]
  split
  next deep =>
    obtain rfl : depth = 257 := by have := Opened.bounded opened; omega
    exact errs_fail (.deep opened there.1)
  next shallow =>
    have within := Nat.le_of_not_lt shallow
    split
    next none' => exact errs_fail (blamed_missing there none' (Opened.reached opened))
    next b found =>
      obtain ⟨after, rfl⟩ := there.cons found
      rw [List.length_cons] at enough
      split
      next => exact literal_blames there opened .null rfl within
      next =>
        split
        next => exact literal_blames there opened .true rfl within
        next =>
          split
          next => exact literal_blames there opened .false rfl within
          next =>
            split
            next =>
              refine Errs.bind ((parseString_errs there).weaken fun error stuck => ?_) (parseString_gives there) fun _ _ => errs_ok
              refine blamed_stuck there stuck fun text tail good => ?_
              obtain ⟨decoded, characters, same, string⟩ := good
              refine .inl (@Opened.viable _ _ _ text (.string decoded) tail opened ?_ within)
              rw [same]
              exact .string string
            next =>
              split
              next bracket =>
                rw [show b = 0x5B from UInt8.toNat_inj.mp bracket] at there
                exact blames.array there (by omega) within opened
              next =>
                split
                next brace =>
                  rw [show b = 0x7B from UInt8.toNat_inj.mp brace] at there
                  exact blames.object there (by omega) within opened
                next =>
                  split
                  next either =>
                    refine (parseNumber_errs there fun c first => ?_).weaken fun error short => ?_
                    · cases first
                      exact either.imp (fun minus => UInt8.toNat_inj.mp minus) isDigit_iff.mp
                    · refine .number opened within ?_ short
                      rw [← there.2, List.take_append_drop]
                  next => exact errs_fail (blamed_byte found (Opened.reached opened))

theorem array_blames (blames : Blames input tries) (here : At input pos (0x5B :: rest))
    (enough : 3 * rest.length + 3 ≤ tries + 1) (within : depth ≤ 256) (opened : Opened depth place (input.take pos)) :
    Errs (Blamed input) (parseArray input (tries + 1) pos depth) := by
  obtain ⟨space, after, rfl, blank, there⟩ := skipSpace_reads here.next
  have inside := Opened.item opened within blank
  rw [← @taken _ _ _ (0x5B :: space) _ here there] at inside
  rw [List.length_append] at enough
  have items := @Blames.items _ _ blames _ _ _ [] there (by omega) inside
  rw [parseArray]
  split
  next => exact items
  next =>
    split
    next => exact errs_ok
    next => exact items

theorem items_blames (blames : Blames input tries) {items : List Json} (here : At input pos rest)
    (enough : 3 * rest.length + 2 ≤ tries + 1) (opened : Opened (depth + 1) .item (input.take pos)) :
    Errs (Blamed input) (parseItems input (tries + 1) pos depth items) := by
  rw [parseItems]
  refine Errs.bind (blames.value here (by omega) opened) ((sound input tries).value here (by omega)) ?_
  rintro ⟨value, fin⟩ ⟨text, after, rfl, ⟨left, body, rfl, blank, spelled, deep⟩, there⟩
  obtain ⟨right, after, rfl, blank', there'⟩ := skipSpace_reads there
  simp only [List.length_append] at enough
  have opened := opened.space blank
  -- The text up to where a comma or the bracket is expected.
  have read : input.take (skipSpace input fin) = input.take pos ++ left ++ (body ++ right) := by
    rw [taken there there', taken here there]
    simp only [List.append_assoc]
  have reached : Reached (input.take (skipSpace input fin)) := by
    obtain ⟨tail, close⟩ := opened.closable
    have closed := close spelled deep blank' .none
    rw [read]
    exact .inl ⟨tail, by simpa only [List.append_assoc, List.nil_append] using closed⟩
  simp only
  split
  next none' => exact errs_fail (blamed_missing there' none' reached)
  next delimiter found =>
    obtain ⟨after, rfl⟩ := there'.cons found
    rw [List.length_cons] at enough
    split
    next => exact errs_ok
    next =>
      split
      next => exact errs_fail (blamed_byte found reached)
      next comma =>
        rw [show delimiter = 0x2C from UInt8.toNat_inj.mp (not_not.mp comma)] at there'
        obtain ⟨gap, after, rfl, blank'', there''⟩ := skipSpace_reads there'.next
        rw [List.length_append] at enough
        refine blames.items there'' (by omega) ?_
        rw [@taken _ _ _ (0x2C :: gap) _ there' there'', read, List.append_assoc _ (body ++ right), List.append_assoc body]
        exact .nextItem opened spelled deep blank' blank''

theorem object_blames (blames : Blames input tries) (here : At input pos (0x7B :: rest))
    (enough : 3 * rest.length + 3 ≤ tries + 1) (within : depth ≤ 256) (opened : Opened depth place (input.take pos)) :
    Errs (Blamed input) (parseObject input (tries + 1) pos depth) := by
  obtain ⟨space, after, rfl, blank, there⟩ := skipSpace_reads here.next
  have read := @taken _ _ _ (0x7B :: space) _ here there
  rw [List.length_append] at enough
  have members : Errs (Blamed input) (parseMembers input tries (skipSpace input (pos + 1)) depth [] []) := by
    refine blames.members there (by omega) within (fun name named => ?_) ?_
    · rw [read, List.append_assoc]
      exact .member opened within blank named
    · rintro rfl
      rw [read]
      refine ⟨@Opened.viable _ _ _ (0x7B :: space) _ [0x7D] opened (.emptyObject blank) within, fun more => ?_⟩
      exact ⟨place, input.take pos, space, more, by simp, opened, blank⟩
  rw [parseObject]
  split
  next => exact members
  next =>
    split
    next => exact errs_ok
    next => exact members

/-- Where a key is expected, or part of one was read. -/
theorem key_reached (within : depth ≤ 256)
    (ready : ∀ name, Named name → Opened (depth + 1) .member (input.take pos ++ name))
    (deepest : depth = 256 → Viable (input.take pos) ∧ ∀ more, Sunk (input.take pos ++ 0x22 :: more))
    {text tail : StrBuf} (named : Named (text ++ tail)) : Reached (input.take pos ++ text) := by
  by_cases deep : depth = 256
  · obtain ⟨viable, sunk⟩ := deepest deep
    cases text with
    | nil => rw [List.append_nil]; exact .inl viable
    | cons b text =>
      generalize same : b :: text ++ tail = name at named
      cases named with
      | made =>
        obtain ⟨rfl, -⟩ := List.cons.inj same
        exact .inr (sunk text)
  · have viable := @Opened.viable _ _ _ [] _ _ (ready _ named) .null (show depth + 1 + 0 ≤ 256 by omega)
    obtain ⟨more, accepted⟩ := viable
    exact .inl ⟨tail ++ ([] ++ more), by simpa only [List.append_assoc, List.nil_append] using accepted⟩

theorem members_blames (blames : Blames input tries) {keys : List StrBuf} {values : List Json} (here : At input pos rest)
    (enough : 3 * rest.length + 2 ≤ tries + 1) (within : depth ≤ 256)
    (ready : ∀ name, Named name → Opened (depth + 1) .member (input.take pos ++ name))
    (deepest : depth = 256 → Viable (input.take pos) ∧ ∀ more, Sunk (input.take pos ++ 0x22 :: more)) :
    Errs (Blamed input) (parseMembers input (tries + 1) pos depth keys values) := by
  have empty : Named [0x22, 0x22, 0x3A] := @Named.made [] [] [] [] .nil nofun nofun
  have start : Reached (input.take pos) := by
    have reached := @key_reached _ _ _ within ready deepest [] _ empty
    rwa [List.append_nil] at reached
  rw [parseMembers]
  split
  next ended =>
    have same : pos = input.length := by have := here.1; omega
    have none' : input[pos]? = none := List.getElem?_eq_none ended
    exact errs_fail (blamed_missing here none' start)
  next =>
    refine Errs.bind ((parseString_errs here).weaken fun error stuck => ?_) (parseString_gives here) ?_
    · refine blamed_stuck here stuck fun text tail good => ?_
      obtain ⟨decoded, characters, same, string⟩ := good
      refine @key_reached _ _ _ within ready deepest text (tail ++ [0x3A]) ?_
      rw [← List.append_assoc, same]
      simp only [List.cons_append, List.append_assoc, List.nil_append]
      exact @Named.made _ _ [] [] string nofun nofun
    rintro ⟨key, fin⟩ ⟨text, after, rfl, ⟨name, rfl, string⟩, there⟩
    obtain ⟨between, after, rfl, blank, there'⟩ := skipSpace_reads there
    simp only [List.length_append, List.length_cons] at enough
    have read : input.take (skipSpace input fin) = input.take pos ++ (0x22 :: (name ++ 0x22 :: between)) := by
      rw [taken there there', taken here there]
      simp only [List.append_assoc, List.cons_append, List.nil_append]
    have reached : Reached (input.take (skipSpace input fin)) := by
      rw [read]
      refine @key_reached _ _ _ within ready deepest _ [0x3A] ?_
      simp only [List.cons_append, List.append_assoc]
      exact @Named.made _ _ _ [] string blank nofun
    simp only
    split
    next none' => exact errs_fail (blamed_missing there' none' reached)
    next colon found =>
      obtain ⟨after, rfl⟩ := there'.cons found
      rw [List.length_cons] at enough
      split
      next => exact errs_fail (blamed_byte found reached)
      next same =>
        rw [show colon = 0x3A from UInt8.toNat_inj.mp (not_not.mp same)] at there'
        have read' : input.take (skipSpace input fin + 1) = input.take pos ++ (0x22 :: (name ++ 0x22 :: (between ++ [0x3A]))) := by
          rw [@taken _ _ _ [0x3A] _ there' there'.next, read]
          simp only [List.append_assoc, List.cons_append]
        have opened : ∀ left, Space left → Opened (depth + 1) .member (input.take (skipSpace input fin + 1) ++ left) := by
          intro left blank'
          rw [read', List.append_assoc]
          refine ready _ ?_
          simp only [List.cons_append, List.append_assoc, List.nil_append]
          exact .made string blank blank'
        have opened' := opened [] nofun
        rw [List.append_nil] at opened'
        refine Errs.bind (blames.value there'.next (by omega) opened') ((sound input tries).value there'.next (by omega)) ?_
        rintro ⟨value, fin'⟩ ⟨text, last, rfl, ⟨left, body, rfl, blank', spelled, deep⟩, there''⟩
        obtain ⟨right, last, rfl, blank'', there'''⟩ := skipSpace_reads there''
        simp only [List.length_append] at enough
        have read'' : input.take (skipSpace input fin') = input.take (skipSpace input fin + 1) ++ left ++ (body ++ right) := by
          rw [taken there'' there''', taken there'.next there'']
          simp only [List.append_assoc]
        have reached : Reached (input.take (skipSpace input fin')) := by
          obtain ⟨tail, close⟩ := (opened left blank').closable
          have closed := close spelled deep blank'' .none
          rw [read'']
          exact .inl ⟨tail, by simpa only [List.append_assoc, List.nil_append] using closed⟩
        simp only
        split
        next none' => exact errs_fail (blamed_missing there''' none' reached)
        next delimiter found =>
          obtain ⟨after, rfl⟩ := there'''.cons found
          rw [List.length_cons] at enough
          split
          next => exact errs_ok
          next =>
            split
            next => exact errs_fail (blamed_byte found reached)
            next comma =>
              rw [show delimiter = 0x2C from UInt8.toNat_inj.mp (not_not.mp comma)] at there'''
              obtain ⟨gap, after, rfl, blank''', there''''⟩ := skipSpace_reads there'''.next
              rw [List.length_append] at enough
              refine blames.members there'''' (by omega) within (fun name' named => ?_) (fun deep' => by omega)
              rw [@taken _ _ _ (0x2C :: gap) _ there''' there'''', read'']
              simp only [List.append_assoc, List.cons_append]
              rw [← List.append_assoc]
              exact .nextMember (opened left blank') spelled deep blank'' blank''' named

theorem blames (input : StrBuf) (tries : Nat) : Blames input tries := by
  induction tries with
  | zero => exact ⟨fun _ _ => by omega, fun _ _ => by omega, fun _ _ => by omega, fun _ _ => by omega, fun _ _ => by omega⟩
  | succ tries ih => exact ⟨value_blames ih, array_blames ih, items_blames ih, object_blames ih, members_blames ih⟩

/-- Every error of the parser names what the text before it makes impossible. -/
theorem parse_blames (input : StrBuf) : Errs (Blamed input) (parse input) := by
  refine Errs.bind ((blames input _).value At.start (by omega) (.top nofun)) ((sound input _).value At.start (by omega)) ?_
  rintro ⟨value, fin⟩ ⟨text, after, parts, ⟨space, body, rfl, blank, spelled, deep⟩, there⟩
  obtain ⟨right, after, rfl, blank', there'⟩ := skipSpace_reads there
  simp only
  split
  next more =>
    obtain ⟨byte, after, rfl⟩ := List.exists_cons_of_ne_nil fun empty => more (there'.atEnd.mpr empty)
    have accepted : Accepted (space ++ (body ++ right)) := accepted_of_document (.made blank spelled blank') (by omega)
    have length : skipSpace input fin = (space ++ (body ++ right)).length := by
      have size := there'.length
      have size' := congrArg List.length parts
      simp only [List.length_append, List.length_cons] at size size' ⊢
      omega
    rw [length]
    refine errs_fail (@Blamed.trailing _ _ byte after ?_ accepted (skipSpace_stops there there'.head))
    simpa only [List.append_assoc] using parts
  next => exact errs_ok

end Rue.Proofs.Text.Blame
