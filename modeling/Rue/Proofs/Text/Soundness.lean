import Rue.Proofs.Text.Strings

/-! What the parser accepts is JSON with the value it returns, at most so deep, and
there are tries enough for every input. -/

namespace Rue.Proofs.Text.Soundness
open Rue.Lib.Cursor Rue.Text Rue.Proofs.Text.Grammar Rue.Proofs.Text.Reading Rue.Proofs.Text.Numbers Rue.Proofs.Text.Strings

theorem Space.append {left right : StrBuf} (first : Space left) (second : Space right) : Space (left ++ right) := by
  intro b inside
  rcases List.mem_append.mp inside with inside | inside
  · exact first b inside
  · exact second b inside

theorem items_space {space text : StrBuf} {items : List Json} (blank : Space space) (some' : Items text items) :
    Items (space ++ text) items := by
  cases some' with
  | one left item right =>
    rw [← List.append_assoc]
    exact .one (Space.append blank left) item right
  | more left item right others =>
    rw [← List.append_assoc]
    exact .more (Space.append blank left) item right others

theorem members_space {space text : StrBuf} {keys : List StrBuf} {values : List Json} (blank : Space space)
    (some' : Members text keys values) : Members (space ++ text) keys values := by
  cases some' with
  | one left name gap before item right =>
    rw [← List.append_assoc]
    exact .one (Space.append blank left) name gap before item right
  | more left name gap before item right others =>
    rw [← List.append_assoc]
    exact .more (Space.append blank left) name gap before item right others

/-- A value that is no deeper than allowed, after space. -/
def Spaced (depth : Nat) (text : StrBuf) (value : Json) : Prop :=
  ∃ space body, text = space ++ body ∧ Space space ∧ Spells body value ∧ depth + nesting value ≤ 256

/-- The items that are still to come, and the bracket after them. -/
def Closing (depth : Nat) (items : List Json) (text : StrBuf) (value : Json) : Prop :=
  ∃ body more, text = body ++ [0x5D] ∧ Items body more ∧ value = .array (items ++ more) ∧ depth + below more ≤ 256

def ClosingBrace (depth : Nat) (keys : List StrBuf) (values : List Json) (text : StrBuf) (value : Json) : Prop :=
  ∃ body names more, text = body ++ [0x7D] ∧ Members body names more ∧ value = .object (keys ++ names) (values ++ more) ∧
    depth + below more ≤ 256

structure Sound (input : StrBuf) (tries : Nat) : Prop where
  value : ∀ {pos depth rest}, At input pos rest → 3 * rest.length + 1 ≤ tries →
    Gives (Takes input rest (Spaced depth)) (parseValue input tries pos depth)
  array : ∀ {pos depth rest}, At input pos (0x5B :: rest) → 3 * rest.length + 3 ≤ tries → depth ≤ 256 →
    Gives (Takes input (0x5B :: rest) (Spaced depth)) (parseArray input tries pos depth)
  items : ∀ {pos depth rest items}, At input pos rest → 3 * rest.length + 2 ≤ tries →
    Gives (Takes input rest (Closing depth items)) (parseItems input tries pos depth items)
  object : ∀ {pos depth rest}, At input pos (0x7B :: rest) → 3 * rest.length + 3 ≤ tries → depth ≤ 256 →
    Gives (Takes input (0x7B :: rest) (Spaced depth)) (parseObject input tries pos depth)
  members : ∀ {pos depth rest keys values}, At input pos rest → 3 * rest.length + 2 ≤ tries →
    Gives (Takes input rest (ClosingBrace depth keys values)) (parseMembers input tries pos depth keys values)

variable {input rest : StrBuf} {tries pos depth : Nat}

theorem literal_spaced {word : StrBuf} {value : Json} (here : At input pos rest) (spelled : Spells word value)
    (flat : nesting value = 0) (within : depth ≤ 256) :
    Gives (Takes input rest (Spaced depth)) (do return (value, ← parseLiteral input pos word)) := by
  refine (@parseLiteral_gives input rest pos word here).bind ?_
  rintro fin ⟨after, rfl, there⟩
  exact ⟨word, after, rfl, ⟨[], word, rfl, nofun, spelled, by omega⟩, there⟩

theorem takes_space {value : Json × Nat} {space : StrBuf} (blank : Space space)
    (taken : Takes input rest (Spaced depth) value) : Takes input (space ++ rest) (Spaced depth) value := by
  obtain ⟨text, after, rfl, ⟨more, body, rfl, blank', spelled, within⟩, there⟩ := taken
  refine ⟨space ++ (more ++ body), after, by simp only [List.append_assoc], ?_, there⟩
  exact ⟨space ++ more, body, by rw [List.append_assoc], Space.append blank blank', spelled, within⟩

theorem value_step (sound : Sound input tries) (here : At input pos rest) (enough : 3 * rest.length + 1 ≤ tries + 1) :
    Gives (Takes input rest (Spaced depth)) (parseValue input (tries + 1) pos depth) := by
  obtain ⟨space, after, rfl, blank, there⟩ := skipSpace_reads here
  rw [List.length_append] at enough
  rw [parseValue]
  split
  next => exact gives_fail
  next shallow =>
    have within := Nat.le_of_not_lt shallow
    refine Gives.weaken ?_ fun _ => takes_space blank
    split
    next => exact gives_fail
    next b found =>
      obtain ⟨after, rfl⟩ := there.cons found
      rw [List.length_cons] at enough
      split
      next => exact literal_spaced there .null rfl within
      next =>
        split
        next => exact literal_spaced there .true rfl within
        next =>
          split
          next => exact literal_spaced there .false rfl within
          next =>
            split
            next =>
              refine (parseString_gives there).bind ?_
              rintro ⟨value, fin⟩ ⟨text, after, parts, ⟨characters, same, string⟩, there⟩
              refine ⟨text, after, parts, ⟨[], text, rfl, List.forall_mem_nil _, ?_, ?_⟩, there⟩
              · rw [same]
                exact .string string
              · exact within
            next =>
              split
              next bracket =>
                rw [show b = 0x5B from UInt8.toNat_inj.mp bracket] at there ⊢
                exact sound.array there (by omega) within
              next =>
                split
                next brace =>
                  rw [show b = 0x7B from UInt8.toNat_inj.mp brace] at there ⊢
                  exact sound.object there (by omega) within
                next =>
                  split
                  next =>
                    refine (parseNumber_gives there (List.cons_ne_nil _ _)).weaken ?_
                    rintro ⟨value, fin⟩ ⟨text, after, parts, ⟨same, number⟩, there⟩
                    refine ⟨text, after, parts, ⟨[], text, rfl, List.forall_mem_nil _, ?_, ?_⟩, there⟩
                    · rw [show value = _ from same]
                      exact .number number
                    · rw [show value = _ from same]
                      exact within
                  next => exact gives_fail

theorem array_step (sound : Sound input tries) (here : At input pos (0x5B :: rest)) (enough : 3 * rest.length + 3 ≤ tries + 1)
    (within : depth ≤ 256) : Gives (Takes input (0x5B :: rest) (Spaced depth)) (parseArray input (tries + 1) pos depth) := by
  obtain ⟨space, after, rfl, blank, there⟩ := skipSpace_reads here.next
  rw [List.length_append] at enough
  have filled : Gives (Takes input (0x5B :: (space ++ after)) (Spaced depth))
      (parseItems input tries (skipSpace input (pos + 1)) depth []) := by
    refine (sound.items there (by omega)).weaken ?_
    rintro ⟨value, fin⟩ ⟨text, rest, rfl, ⟨body, items, rfl, some', same, deep⟩, there'⟩
    refine ⟨0x5B :: (space ++ body ++ [0x5D]), rest, by simp only [List.append_assoc, List.cons_append], ?_, there'⟩
    refine ⟨[], _, rfl, List.forall_mem_nil _, ?_, ?_⟩
    · rw [show value = _ from same]
      exact .array (items_space blank some')
    · rw [show value = _ from same]
      exact deep
  rw [parseArray]
  split
  next => exact filled
  next b found =>
    split
    next bracket =>
      obtain ⟨after, rfl⟩ := there.cons found
      rw [show b = 0x5D from UInt8.toNat_inj.mp bracket] at there ⊢
      refine ⟨0x5B :: (space ++ [0x5D]), after, by simp only [List.append_assoc, List.cons_append, List.nil_append], ?_, there.next⟩
      exact ⟨[], _, rfl, List.forall_mem_nil _, .emptyArray blank, within⟩
    next => exact filled

theorem object_step (sound : Sound input tries) (here : At input pos (0x7B :: rest)) (enough : 3 * rest.length + 3 ≤ tries + 1)
    (within : depth ≤ 256) : Gives (Takes input (0x7B :: rest) (Spaced depth)) (parseObject input (tries + 1) pos depth) := by
  obtain ⟨space, after, rfl, blank, there⟩ := skipSpace_reads here.next
  rw [List.length_append] at enough
  have filled : Gives (Takes input (0x7B :: (space ++ after)) (Spaced depth))
      (parseMembers input tries (skipSpace input (pos + 1)) depth [] []) := by
    refine (sound.members there (by omega)).weaken ?_
    rintro ⟨value, fin⟩ ⟨text, rest, rfl, ⟨body, names, values, rfl, some', same, deep⟩, there'⟩
    refine ⟨0x7B :: (space ++ body ++ [0x7D]), rest, by simp only [List.append_assoc, List.cons_append], ?_, there'⟩
    refine ⟨[], _, rfl, List.forall_mem_nil _, ?_, ?_⟩
    · rw [show value = _ from same]
      exact .object (members_space blank some')
    · rw [show value = _ from same]
      exact deep
  rw [parseObject]
  split
  next => exact filled
  next b found =>
    split
    next brace =>
      obtain ⟨after, rfl⟩ := there.cons found
      rw [show b = 0x7D from UInt8.toNat_inj.mp brace] at there ⊢
      refine ⟨0x7B :: (space ++ [0x7D]), after, by simp only [List.append_assoc, List.cons_append, List.nil_append], ?_, there.next⟩
      exact ⟨[], _, rfl, List.forall_mem_nil _, .emptyObject blank, within⟩
    next => exact filled

theorem items_step (sound : Sound input tries) {items : List Json} (here : At input pos rest)
    (enough : 3 * rest.length + 2 ≤ tries + 1) :
    Gives (Takes input rest (Closing depth items)) (parseItems input (tries + 1) pos depth items) := by
  rw [parseItems]
  refine (sound.value here (by omega)).bind ?_
  rintro ⟨value, fin⟩ ⟨text, after, rfl, ⟨left, body, rfl, blank, spelled, deep⟩, there⟩
  obtain ⟨right, after, rfl, blank', there⟩ := skipSpace_reads there
  simp only [List.length_append] at enough
  simp only
  split
  next => exact gives_fail
  next delimiter found =>
    obtain ⟨after, rfl⟩ := there.cons found
    rw [List.length_cons] at enough
    split
    next bracket =>
      rw [show delimiter = 0x5D from UInt8.toNat_inj.mp bracket] at there ⊢
      refine ⟨left ++ (body ++ right) ++ [0x5D], after, ?_, ⟨_, [value], rfl, .one blank spelled blank', rfl, ?_⟩, there.next⟩
      · simp only [List.append_assoc, List.cons_append, List.nil_append]
      · simp only [below]
        omega
    next =>
      split
      next => exact gives_fail
      next comma =>
        rw [show delimiter = 0x2C from UInt8.toNat_inj.mp (not_not.mp comma)] at there ⊢
        obtain ⟨gap, after, rfl, blank'', there'⟩ := skipSpace_reads there.next
        rw [List.length_append] at enough
        refine (sound.items there' (by omega)).weaken ?_
        rintro ⟨whole, fin⟩ ⟨text, rest, rfl, ⟨others, more, rfl, some', same, deep'⟩, there''⟩
        refine ⟨left ++ (body ++ (right ++ 0x2C :: (gap ++ others))) ++ [0x5D], rest, ?_, ?_, there''⟩
        · simp only [List.append_assoc, List.cons_append]
        · refine ⟨_, value :: more, rfl, .more blank spelled blank' (items_space blank'' some'), ?_, ?_⟩
          · rw [show whole = _ from same, List.append_assoc]
            rfl
          · simp only [below]
            omega

theorem members_step (sound : Sound input tries) {keys : List StrBuf} {values : List Json} (here : At input pos rest)
    (enough : 3 * rest.length + 2 ≤ tries + 1) :
    Gives (Takes input rest (ClosingBrace depth keys values)) (parseMembers input (tries + 1) pos depth keys values) := by
  rw [parseMembers]
  split
  next => exact gives_fail
  next =>
    refine (parseString_gives here).bind ?_
    rintro ⟨key, fin⟩ ⟨text, after, rfl, ⟨name, rfl, string⟩, there⟩
    obtain ⟨between, after, rfl, blank, there⟩ := skipSpace_reads there
    simp only [List.length_append, List.length_cons] at enough
    simp only
    split
    next => exact gives_fail
    next colon found =>
      obtain ⟨after, rfl⟩ := there.cons found
      rw [List.length_cons] at enough
      split
      next => exact gives_fail
      next same =>
        rw [show colon = 0x3A from UInt8.toNat_inj.mp (not_not.mp same)] at there ⊢
        refine (sound.value there.next (by omega)).bind ?_
        rintro ⟨value, fin⟩ ⟨text, last, rfl, ⟨left, body, rfl, blank', spelled, deep⟩, there'⟩
        obtain ⟨right, last, rfl, blank'', there⟩ := skipSpace_reads there'
        simp only [List.length_append] at enough
        simp only
        split
        next => exact gives_fail
        next delimiter found =>
          obtain ⟨after, rfl⟩ := there.cons found
          rw [List.length_cons] at enough
          split
          next brace =>
            rw [show delimiter = 0x7D from UInt8.toNat_inj.mp brace] at there ⊢
            refine ⟨0x22 :: (name ++ 0x22 :: (between ++ 0x3A :: (left ++ (body ++ right)))) ++ [0x7D], after, ?_, ?_, there.next⟩
            · simp only [List.append_assoc, List.cons_append, List.nil_append]
            · refine ⟨_, [key], [value], rfl, show Members ([] ++ _) _ _ from .one (List.forall_mem_nil _) string blank blank' spelled blank'', rfl, ?_⟩
              simp only [below]
              omega
          next =>
            split
            next => exact gives_fail
            next comma =>
              rw [show delimiter = 0x2C from UInt8.toNat_inj.mp (not_not.mp comma)] at there ⊢
              obtain ⟨gap, after, rfl, blank''', there'⟩ := skipSpace_reads there.next
              rw [List.length_append] at enough
              refine (sound.members there' (by omega)).weaken ?_
              rintro ⟨whole, fin⟩ ⟨text, rest, rfl, ⟨others, names, more, rfl, some', same, deep'⟩, there''⟩
              refine ⟨0x22 :: (name ++ 0x22 :: (between ++ 0x3A :: (left ++ (body ++ (right ++ 0x2C :: (gap ++ others)))))) ++ [0x7D],
                rest, ?_, ?_, there''⟩
              · simp only [List.append_assoc, List.cons_append, List.nil_append]
              · refine ⟨_, key :: names, value :: more, rfl,
                  show Members ([] ++ _) _ _ from .more (List.forall_mem_nil _) string blank blank' spelled blank'' (members_space blank''' some'), ?_, ?_⟩
                · rw [show whole = _ from same, List.append_assoc, List.append_assoc]
                  rfl
                · simp only [below]
                  omega

theorem sound (input : StrBuf) (tries : Nat) : Sound input tries := by
  induction tries with
  | zero => exact ⟨fun _ _ => by omega, fun _ _ => by omega, fun _ _ => by omega, fun _ _ => by omega, fun _ _ => by omega⟩
  | succ tries ih =>
    exact ⟨value_step ih, array_step ih, items_step ih, object_step ih, members_step ih⟩

/-- What is accepted is one document with the returned value, and all else is an error. -/
theorem parse_gives (input : StrBuf) : Gives (fun value => Document input value ∧ nesting value ≤ 256) (parse input) := by
  refine ((sound input _).value At.start (by omega)).bind ?_
  rintro ⟨value, fin⟩ ⟨text, after, parts, ⟨space, body, rfl, blank, spelled, deep⟩, there⟩
  obtain ⟨right, after, rfl, blank', there⟩ := skipSpace_reads there
  simp only
  split
  next => exact gives_fail
  next atEnd =>
    rw [there.atEnd.mp (not_not.mp atEnd), List.append_nil, List.append_assoc] at parts
    refine ⟨?_, by omega⟩
    rw [parts]
    exact .made blank spelled blank'

end Rue.Proofs.Text.Soundness
