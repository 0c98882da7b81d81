import Mathlib.Data.List.Basic
import Mathlib.Data.Nat.Find

/-! Regular expressions over classes of items, and the scan that cuts off the
longest match of a list of rules. -/

namespace Rue.Lib

inductive Regex (α : Type) where
  | never
  | empty
  | one (accepts : α → Bool)
  | either (first second : Regex α)
  | chain (first second : Regex α)
  | many (inner : Regex α)

namespace Regex

variable {α β : Type}

inductive Matches : Regex α → List α → Prop
  | empty : Matches .empty []
  | one {accepts : α → Bool} {item : α} (accepted : accepts item) : Matches (.one accepts) [item]
  | left {first second : Regex α} {text : List α} (matched : Matches first text) : Matches (.either first second) text
  | right {first second : Regex α} {text : List α} (matched : Matches second text) :
      Matches (.either first second) text
  | chain {first second : Regex α} {before after : List α} (head : Matches first before) (tail : Matches second after) :
      Matches (.chain first second) (before ++ after)
  | done {inner : Regex α} : Matches (.many inner) []
  | again {inner : Regex α} {before after : List α} (head : Matches inner before) (tail : Matches (.many inner) after) :
      Matches (.many inner) (before ++ after)

def optional (inner : Regex α) : Regex α := .either inner .empty

def atLeastOne (inner : Regex α) : Regex α := .chain inner (.many inner)

def literal [BEq α] (text : List α) : Regex α := text.foldr (fun item rest => .chain (.one (· == item)) rest) .empty

def nullable : Regex α → Bool
  | .never | .one _ => false
  | .empty | .many _ => true
  | .either first second => nullable first || nullable second
  | .chain first second => nullable first && nullable second

/-- What is left to match after one item. -/
def derive (item : α) : Regex α → Regex α
  | .never | .empty => .never
  | .one accepts => if accepts item then .empty else .never
  | .either first second => .either (derive item first) (derive item second)
  | .chain first second =>
    if nullable first then .either (.chain (derive item first) second) (derive item second)
    else .chain (derive item first) second
  | .many inner => .chain (derive item inner) (.many inner)

def accepts (regex : Regex α) : List α → Bool
  | [] => nullable regex
  | item :: text => accepts (derive item regex) text

section Words

variable {first second inner : Regex α} {text : List α} {item : α}

theorem matches_empty : Matches (.empty : Regex α) text ↔ text = [] := by
  constructor
  · rintro ⟨⟩
    rfl
  · rintro rfl
    exact .empty

theorem matches_one {accepts : α → Bool} : Matches (.one accepts) text ↔ ∃ item, text = [item] ∧ accepts item := by
  constructor
  · rintro ⟨⟩
    next item accepted => exact ⟨item, rfl, accepted⟩
  · rintro ⟨item, rfl, accepted⟩
    exact .one accepted

theorem matches_either : Matches (.either first second) text ↔ Matches first text ∨ Matches second text := by
  constructor
  · rintro (_ | _)
    next matched => exact .inl matched
    next matched => exact .inr matched
  · rintro (matched | matched)
    · exact .left matched
    · exact .right matched

theorem matches_chain : Matches (.chain first second) text ↔
    ∃ before after, text = before ++ after ∧ Matches first before ∧ Matches second after := by
  constructor
  · rintro ⟨⟩
    next before after head tail => exact ⟨before, after, rfl, head, tail⟩
  · rintro ⟨before, after, rfl, head, tail⟩
    exact .chain head tail

/-- A nonempty word of a repetition begins with a nonempty word of what is repeated. -/
theorem matches_many_cons : Matches (.many inner) (item :: text) ↔
    ∃ before after, text = before ++ after ∧ Matches inner (item :: before) ∧ Matches (.many inner) after := by
  constructor
  · intro matched
    generalize whole : item :: text = word at matched
    generalize shape : Regex.many inner = regex at matched
    induction matched with
    | empty | one | left | right | chain => cases shape
    | done => cases whole
    | @again inner' before after head tail _ ih =>
      cases before with
      | nil => exact ih whole shape
      | cons first rest =>
        cases shape
        cases whole
        exact ⟨rest, after, rfl, head, tail⟩
  · rintro ⟨before, after, rfl, head, tail⟩
    exact .again head tail

/-- A repeated class is matched by what consists of its items. -/
theorem matches_many_one {accepts : α → Bool} : Matches (.many (.one accepts)) text ↔ ∀ item ∈ text, accepts item := by
  induction text with
  | nil => simp [Matches.done]
  | cons item text ih =>
    rw [matches_many_cons, List.forall_mem_cons, ← ih]
    constructor
    · rintro ⟨before, after, rfl, head, tail⟩
      obtain ⟨only, single, accepted⟩ := matches_one.mp head
      cases single
      exact ⟨accepted, tail⟩
    · rintro ⟨accepted, tail⟩
      exact ⟨[], text, rfl, .one accepted, tail⟩

theorem matches_literal [BEq α] [LawfulBEq α] {word : List α} : Matches (literal word) text ↔ text = word := by
  induction word generalizing text with
  | nil => exact matches_empty
  | cons item word ih =>
    rw [literal, List.foldr_cons, ← literal, matches_chain]
    constructor
    · rintro ⟨before, after, rfl, head, tail⟩
      obtain ⟨only, rfl, same⟩ := matches_one.mp head
      rw [ih.mp tail, eq_of_beq same]
      rfl
    · rintro rfl
      exact ⟨[item], word, rfl, .one (beq_self_eq_true item), ih.mpr rfl⟩

end Words

theorem nullable_iff {regex : Regex α} : nullable regex ↔ Matches regex [] := by
  induction regex with
  | never =>
    constructor
    · intro none
      cases none
    · rintro ⟨⟩
  | empty => simp [nullable, Matches.empty]
  | one accepts => simp [nullable, matches_one]
  | either first second one two => simp [nullable, matches_either, one, two]
  | chain first second one two => simp [nullable, matches_chain, one, two, and_assoc]
  | many inner => simp [nullable, Matches.done]

theorem derive_iff {regex : Regex α} {item : α} {text : List α} :
    Matches (derive item regex) text ↔ Matches regex (item :: text) := by
  induction regex generalizing text with
  | never | empty =>
    constructor
    · rintro ⟨⟩
    · rintro ⟨⟩
  | one accepts =>
    rw [derive, matches_one]
    split
    next accepted => simp [matches_empty, accepted]
    next rejected =>
      constructor
      · rintro ⟨⟩
      · rintro ⟨only, single, accepted⟩
        cases single
        exact absurd accepted rejected
  | either first second one two => rw [derive, matches_either, matches_either, one, two]
  | chain first second one two =>
    have shifted : Matches (.chain (derive item first) second) text ↔
        ∃ before after, text = before ++ after ∧ Matches first (item :: before) ∧ Matches second after := by
      simp only [matches_chain, one]
    have split' : Matches (.chain first second) (item :: text) ↔
        Matches first [] ∧ Matches second (item :: text) ∨
          ∃ before after, text = before ++ after ∧ Matches first (item :: before) ∧ Matches second after := by
      rw [matches_chain]
      constructor
      · rintro ⟨before, after, whole, head, tail⟩
        cases before with
        | nil => exact .inl ⟨head, by rw [whole]; exact tail⟩
        | cons first rest =>
          cases whole
          exact .inr ⟨rest, after, rfl, head, tail⟩
      · rintro (⟨head, tail⟩ | ⟨before, after, rfl, head, tail⟩)
        · exact ⟨[], item :: text, rfl, head, tail⟩
        · exact ⟨item :: before, after, rfl, head, tail⟩
    rw [derive, split']
    split
    next skipped => rw [matches_either, shifted, two, or_comm, and_iff_right (nullable_iff.mp skipped)]
    next needed => rw [shifted, or_iff_right fun both => needed (nullable_iff.mpr both.1)]
  | many inner one => simp only [derive, matches_chain, one, matches_many_cons]

theorem accepts_iff {regex : Regex α} {text : List α} : accepts regex text ↔ Matches regex text := by
  induction text generalizing regex with
  | nil => exact nullable_iff
  | cons item text ih => rw [accepts, ih, derive_iff]

/-- The longest match at the start of a text, by the first of the rules that
match as much. -/
def Longest (rules : List (Regex α × β)) (text : List α) : Option (β × Nat) → Prop
  | none => ∀ rule ∈ rules, ∀ count, 0 < count → count ≤ text.length → ¬ Matches rule.1 (text.take count)
  | some (name, count) => 0 < count ∧ count ≤ text.length ∧
      (∃ before regex after, rules = before ++ (regex, name) :: after ∧ Matches regex (text.take count) ∧
        ∀ rule ∈ before, ¬ Matches rule.1 (text.take count)) ∧
      ∀ rule ∈ rules, ∀ more, count < more → more ≤ text.length → ¬ Matches rule.1 (text.take more)

/-- Some rule matches that many items. -/
def cuts (rules : List (Regex α × β)) (text : List α) (count : Nat) : Bool :=
  rules.any fun rule => accepts rule.1 (text.take count)

def longest (rules : List (Regex α × β)) (text : List α) : Option (β × Nat) :=
  let count := Nat.findGreatest (fun count => cuts rules text count) text.length
  if count = 0 then none
  else (rules.find? fun rule => accepts rule.1 (text.take count)).map fun rule => (rule.2, count)

theorem longest_spec (rules : List (Regex α × β)) (text : List α) : Longest rules text (longest rules text) := by
  have within := @Nat.findGreatest_le (fun count => cuts rules text count) _ text.length
  have reached := @Nat.findGreatest_of_ne_zero _ (fun count => cuts rules text count) _ text.length rfl
  have greatest (more : Nat) (beyond : Nat.findGreatest (fun count => cuts rules text count) text.length < more)
      (short : more ≤ text.length) : ∀ rule ∈ rules, ¬ Matches rule.1 (text.take more) := by
    intro rule listed matched
    exact Nat.findGreatest_is_greatest beyond short (List.any_eq_true.mpr ⟨rule, listed, accepts_iff.mpr matched⟩)
  rw [longest]
  generalize Nat.findGreatest (fun count => cuts rules text count) text.length = count at within reached greatest ⊢
  split
  next zero =>
    intro rule listed more positive short
    exact greatest more (by omega) short rule listed
  next positive =>
    cases found : rules.find? fun rule => accepts rule.1 (text.take count) with
    | none =>
      obtain ⟨rule, listed, accepted⟩ := List.any_eq_true.mp (reached positive)
      exact absurd accepted (by simpa using List.find?_eq_none.mp found rule listed)
    | some rule =>
      obtain ⟨accepted, before, after, whole, rejected⟩ := List.find?_eq_some_iff_append.mp found
      refine ⟨by omega, within, ⟨before, rule.1, after, whole, accepts_iff.mp accepted, ?_⟩, ?_⟩
      · intro earlier listed matched
        have missed := rejected earlier listed
        rw [accepts_iff.mpr matched] at missed
        cases missed
      · intro rule listed more beyond short
        exact greatest more beyond short rule listed

end Regex

end Rue.Lib
