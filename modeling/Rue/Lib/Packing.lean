import Mathlib.Logic.Function.Basic
import Mathlib.Data.List.Basic

/-! Placing members that may conflict. A packing never puts two conflicting
members in one place; members come and go one at a time. -/

namespace Rue.Lib

universe u v
variable {ι : Type u} {κ : Type v}

/-- Conflicting members never share a place. -/
def Packed (conflict : ι → ι → Prop) (place : ι → Option κ) : Prop :=
  ∀ first second spot, first ≠ second → conflict first second →
    place first = some spot → place second ≠ some spot

namespace Packed

variable {conflict : ι → ι → Prop} {place : ι → Option κ}

theorem empty : Packed conflict (fun _ => (none : Option κ)) := by
  intro first second spot _ _ placed
  cases placed

variable [DecidableEq ι]

/-- A member may enter a place that none of its rivals occupies. -/
theorem insert (packed : Packed conflict place) (symmetric : ∀ {first second}, conflict first second → conflict second first)
    (member : ι) (spot : κ) (clear : ∀ other, other ≠ member → conflict member other → place other ≠ some spot) :
    Packed conflict (Function.update place member (some spot)) := by
  intro first second found distinct rivals placed taken
  by_cases isFirst : first = member
  · subst isFirst
    simp only [Function.update_self, Option.some.injEq] at placed
    subst placed
    rw [Function.update_of_ne (Ne.symm distinct)] at taken
    exact clear second (Ne.symm distinct) rivals taken
  · rw [Function.update_of_ne isFirst] at placed
    by_cases isSecond : second = member
    · subst isSecond
      simp only [Function.update_self, Option.some.injEq] at taken
      subst taken
      exact clear first isFirst (symmetric rivals) placed
    · rw [Function.update_of_ne isSecond] at taken
      exact packed first second found distinct rivals placed taken

theorem remove (packed : Packed conflict place) (member : ι) :
    Packed conflict (Function.update place member none) := by
  intro first second spot distinct rivals placed taken
  by_cases isFirst : first = member
  · subst isFirst
    simp at placed
  · by_cases isSecond : second = member
    · subst isSecond
      simp at taken
    · rw [Function.update_of_ne isFirst] at placed
      rw [Function.update_of_ne isSecond] at taken
      exact packed first second spot distinct rivals placed taken

end Packed

end Rue.Lib

/-! Slots placed in shared cells. As long as no two slots that count share a
cell, the cells hold what private ones would. -/

namespace Rue.Lib

universe u v w

variable {Slot : Type u} {Cell : Type v} {Content : Type w}

/-- Writes, in order, through a placement of the slots. -/
def writeAll [DecidableEq Cell] (place : Slot → Cell) (cells : Cell → Content) (writes : List (Slot × Content)) : Cell → Content :=
  writes.foldl (fun cells write => Function.update cells (place write.1) write.2) cells

/-- Each slot that counts finds its own content in its cell. -/
def Agrees (place : Slot → Cell) (counts : Slot → Prop) (own : Slot → Content) (shared : Cell → Content) : Prop :=
  ∀ slot, counts slot → shared (place slot) = own slot

namespace Agrees

variable {place : Slot → Cell} {counts fewer : Slot → Prop} {own : Slot → Content} {shared : Cell → Content}

theorem mono (agrees : Agrees place counts own shared) (less : ∀ slot, fewer slot → counts slot) :
    Agrees place fewer own shared :=
  fun slot counted => agrees slot (less slot counted)

variable [DecidableEq Slot] [DecidableEq Cell]

/-- A write keeps the agreement if its cell is no other counting slot's. -/
theorem update (agrees : Agrees place counts own shared) (target : Slot) (content : Content)
    (alone : ∀ slot, counts slot → slot ≠ target → place slot ≠ place target) :
    Agrees place (fun slot => counts slot ∨ slot = target) (Function.update own target content)
      (Function.update shared (place target) content) := by
  intro slot counted
  by_cases same : slot = target
  · subst same
    rw [Function.update_self, Function.update_self]
  · have counted := counted.resolve_right same
    rw [Function.update_of_ne (alone slot counted same), Function.update_of_ne same]
    exact agrees slot counted

/-- A list of writes keeps the agreement if the cells it touches are no other
counting slot's. -/
theorem writeAll (agrees : Agrees place counts own shared) (writes : List (Slot × Content))
    (alone : ∀ write ∈ writes, ∀ slot, counts slot ∨ slot ∈ writes.map Prod.fst →
      slot ≠ write.1 → place slot ≠ place write.1) :
    Agrees place (fun slot => counts slot ∨ slot ∈ writes.map Prod.fst) (Lib.writeAll id own writes)
      (Lib.writeAll place shared writes) := by
  induction writes generalizing counts own shared with
  | nil => exact agrees.mono (by simp)
  | cons write rest ih =>
    have first := agrees.update write.1 write.2 fun slot counted different =>
      alone write (by simp) slot (Or.inl counted) different
    refine (ih first ?_).mono ?_
    · intro other member slot counted different
      refine alone other (by simp [member]) slot ?_ different
      rcases counted with (counted | same) | later
      · exact Or.inl counted
      · exact Or.inr (by simp [same])
      · exact Or.inr (by simp [List.mem_map.mp later])
    · intro slot counted
      simp only [List.map_cons, List.mem_cons] at counted
      rcases counted with counted | same | later
      · exact Or.inl (Or.inl counted)
      · exact Or.inl (Or.inr same)
      · exact Or.inr later

end Agrees

end Rue.Lib
