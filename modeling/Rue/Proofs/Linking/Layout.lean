import Rue.Proofs.Linking.Formats

/-! When a link places everything well: the conditions on the admitted objects. -/

namespace Rue.Proofs.Linking
open Rue.Linking Rue.Lib

/-! The alignments of the winners are ones the objects ask for. -/

def CommonsAre (good : Nat → Prop) (table : Name → Option (Nat × Symbol)) : Prop :=
  ∀ name entry align, table name = some entry → entry.2.common = some align → good align

namespace CommonsAre

variable {good : Nat → Prop} {table next : Name → Option (Nat × Symbol)} {objIdx : Nat} {symbol : Symbol}

theorem insert (commons : CommonsAre good table) (own : ∀ align, symbol.common = some align → good align) :
    CommonsAre good (Linker.insertGlobal table (objIdx, symbol)) := by
  intro name entry align found common
  simp only [Linker.insertGlobal] at found
  split at found
  · cases found
    exact own align common
  · exact commons name entry align found common

theorem addSymbol (commons : CommonsAre good table) (joined : ∀ first second, good first → good second → good (max first second))
    (own : ∀ align, symbol.common = some align → good align)
    (added : Linker.addSymbol objIdx table symbol = .ok next) : CommonsAre good next := by
  simp only [Linker.addSymbol] at added
  split at added
  · cases added
    exact commons
  · split at added
    · cases added
      exact commons.insert own
    next existingObj existing present =>
      split at added
      · split at added
        next existingAlign align first second =>
          cases added
          intro name entry merged found common
          simp only at found
          split at found
          · cases found
            cases common
            exact joined _ _ (commons _ _ _ present first) (own align second)
          · exact commons name entry merged found common
        · cases added
          exact commons.insert own
        · cases added
          exact commons
      · split at added
        · cases added
        · split at added
          · cases added
            exact commons.insert own
          · cases added
            exact commons

theorem addObjects {objects : List LinkObject} {linker : Linker}
    (joined : ∀ first second, good first → good second → good (max first second))
    (asked : ∀ obj ∈ objects, ∀ symbol ∈ obj.symbols, ∀ align, symbol.common = some align → good align)
    (added : Linker.new.addObjects objects = .ok linker) : CommonsAre good linker.globalSymbols := by
  refine foldlM_keeps (fun linker => CommonsAre good linker.globalSymbols) ?_ ?_ added
  · intro obj inside state next commons stepped
    simp only [Linker.addLinkObject, bind, Except.bind] at stepped
    split at stepped
    · cases stepped
    · split at stepped
      · cases stepped
      next table extended =>
        cases stepped
        refine foldlM_keeps (CommonsAre good) ?_ commons extended
        intro symbol member table after kept stepped
        exact kept.addSymbol joined (asked obj inside symbol member) stepped
  · intro name entry align found
    cases found

end CommonsAre

theorem PageAligned.linker {target : Target} {objects : List LinkObject} {linker : Linker}
    (aligned : PageAligned target objects) (admitted : Linker.new.addObjects objects = .ok linker) :
    PagedLinker target linker where
  sections := by
    intro owner inside
    obtain ⟨obj, known, within⟩ := List.mem_flatMap.mp inside
    rw [addObjects_objects admitted] at known
    exact aligned.sections obj known owner within
  tentative := CommonsAre.addObjects (fun _ _ => Paged.max) aligned.tentative admitted

/-! What is in the data and in the zero-initialized region. -/

section Regions

variable {target : Target} {linker : Linker} {image : MergedImage} {total need : Nat}

end Regions

section Placing

variable {target : Target} {linker : Linker} {image : MergedImage} {total need : Nat}

end Placing

end Rue.Proofs.Linking
