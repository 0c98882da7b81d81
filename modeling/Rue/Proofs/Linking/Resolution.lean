import Rue.Lib.Lists
import Rue.Proofs.Linking.Addresses
import Rue.Proofs.Linking.Loading

/-! Every applied relocation is patched with the address of the entry that
decides its symbol's name, so it reaches the entry it names exactly when that
entry's address is the same. -/

namespace Rue.Proofs.Linking
open Rue.Linking Rue.Lib

variable {symbol : Symbol}

theorem mem_entries {linker : Linker} {objIdx : Nat} {obj : LinkObject}
    (known : linker.objects[objIdx]? = some obj) (member : symbol ∈ obj.symbols) :
    (objIdx, symbol) ∈ entries linker := by
  rw [entries, List.mem_flatMap]
  exact ⟨(obj, objIdx), List.mem_zipIdx_iff_getElem?.mpr known, List.mem_map.mpr ⟨symbol, member, rfl⟩⟩

/-- Every winner that is not tentative is a symbol-table entry of its object. -/
def Backed (objects : List LinkObject) (table : Name → Option (Nat × Symbol)) : Prop :=
  ∀ name objIdx winner, table name = some (objIdx, winner) → winner.common = none →
    winner.name = name ∧ name ≠ [] ∧ winner.binding ≠ .localBinding ∧
      ∃ obj, objects[objIdx]? = some obj ∧ winner ∈ obj.symbols

namespace Backed

variable {objects : List LinkObject}

theorem more {table : Name → Option (Nat × Symbol)} (backed : Backed objects table)
    (obj : LinkObject) : Backed (objects ++ [obj]) table := by
  intro name objIdx winner found real
  obtain ⟨named, nonempty, visible, owner, known, member⟩ := backed name objIdx winner found real
  refine ⟨named, nonempty, visible, owner, ?_, member⟩
  rw [List.getElem?_append_left (List.getElem?_eq_some_iff.mp known).1]
  exact known

theorem insert {table : Name → Option (Nat × Symbol)} (backed : Backed objects table)
    {objIdx : Nat} {obj : LinkObject} {symbol : Symbol} (known : objects[objIdx]? = some obj)
    (member : symbol ∈ obj.symbols) (provides : providesDefinition symbol = true) :
    Backed objects (Linker.insertGlobal table (objIdx, symbol)) := by
  intro name other winner found real
  simp only [Linker.insertGlobal] at found
  split at found
  next same =>
    cases found
    simp only [providesDefinition, Bool.and_eq_true, Bool.or_eq_true, decide_eq_true_eq] at provides
    refine ⟨same.symm, same ▸ provides.2, ?_, obj, known, member⟩
    rcases provides.1.2 with visible | visible <;> rw [visible] <;> exact fun equal => nomatch equal
  next => exact backed name other winner found real

theorem addSymbol {table next : Name → Option (Nat × Symbol)}
    (backed : Backed objects table) {objIdx : Nat} {obj : LinkObject} {symbol : Symbol}
    (known : objects[objIdx]? = some obj) (member : symbol ∈ obj.symbols)
    (added : Linker.addSymbol objIdx table symbol = .ok next) : Backed objects next := by
  simp only [Linker.addSymbol] at added
  split at added
  · cases added
    exact backed
  next provides =>
    have provides : providesDefinition symbol = true := by simpa using provides
    split at added
    · cases added
      exact backed.insert known member provides
    · split at added
      · split at added
        · cases added
          intro name other winner found real
          simp only at found
          split at found
          · cases found
            cases real
          · exact backed name other winner found real
        · cases added
          exact backed.insert known member provides
        · cases added
          exact backed
      · split at added
        · cases added
        · split at added
          · cases added
            exact backed.insert known member provides
          · cases added
            exact backed

theorem addObjects {linker : Linker}
    (added : Linker.new.addObjects objects = .ok linker) : Backed linker.objects linker.globalSymbols := by
  refine foldlM_keeps (fun linker => Backed linker.objects linker.globalSymbols) ?_ ?_ added
  · intro obj _ state next backed stepped
    simp only [Linker.addLinkObject, bind, Except.bind] at stepped
    split at stepped
    · cases stepped
    · split at stepped
      · cases stepped
      next table extended =>
        cases stepped
        refine foldlM_keeps (Backed (state.objects ++ [obj])) ?_ (backed.more obj) extended
        intro symbol member table after backed stepped
        exact backed.addSymbol List.getElem?_concat_length member stepped
  · intro name objIdx winner found
    cases found

end Backed

variable {objects : List LinkObject}

theorem addObjects_objects {linker : Linker}
    (added : Linker.new.addObjects objects = .ok linker) : linker.objects = objects := by
  have general : ∀ (objects : List LinkObject) (start : Linker), start.addObjects objects = .ok linker →
      linker.objects = start.objects ++ objects := by
    intro objects
    induction objects with
    | nil =>
      intro start done
      cases done
      simp
    | cons obj rest ih =>
      intro start done
      simp only [Linker.addObjects, List.foldlM_cons, bind, Except.bind] at done
      split at done
      · cases done
      next middle stepped =>
        have later := ih middle done
        simp only [Linker.addLinkObject, bind, Except.bind] at stepped
        split at stepped
        · cases stepped
        · split at stepped
          · cases stepped
          · cases stepped
            rw [later, List.append_assoc, List.singleton_append]
  exact general objects Linker.new added

/-- A queued relocation is one of its object's, and its symbol has a name or an
address of its own. -/
def Queued (objects : List LinkObject) (pending : PendingRelocation) : Prop :=
  ∃ obj owner relocation symbol, objects[pending.objIdx]? = some obj ∧ owner ∈ obj.sections ∧
    relocation ∈ owner.relocations ∧ relocation.symbolIndex = pending.symbolIndex ∧
    relocation.reference = pending.reference ∧ obj.symbols[pending.symbolIndex]? = some symbol ∧
    (symbol.name ≠ [] ∨ symbol.absolute = true)

variable {pending : PendingRelocation}

theorem collectRelocation_queued {obj : LinkObject} {owner : LinkSection}
    {mergedOffset objIdx : Nat} {home : PatchHome} {relocation : Relocation}
    (known : objects[objIdx]? = some obj) (placed : owner ∈ obj.sections) (member : relocation ∈ owner.relocations)
    (collected : collectRelocation obj owner mergedOffset objIdx home relocation = .ok (some pending)) :
    Queued objects pending := by
  simp only [collectRelocation] at collected
  split at collected
  · cases collected
  next symbol found =>
    split at collected
    · cases collected
    next usable =>
      split at collected
      · split at collected <;> cases collected
      · simp only [bind, Except.bind] at collected
        split at collected
        · cases collected
        · split at collected
          · cases collected
          · split at collected
            · cases collected
            · cases collected
              refine ⟨obj, owner, relocation, symbol, known, placed, member, rfl, rfl, found, ?_⟩
              by_cases named : symbol.name = []
              · right
                simpa [named] using usable
              · exact Or.inl named

theorem collect_queued {obj : LinkObject} {owner : LinkSection}
    {mergedOffset objIdx : Nat} {home : PatchHome} {before after : List PendingRelocation}
    (known : objects[objIdx]? = some obj) (placed : owner ∈ obj.sections)
    (queued : ∀ pending ∈ before, Queued objects pending)
    (collected : collectSectionRelocations obj owner mergedOffset objIdx home before = .ok after) :
    ∀ pending ∈ after, Queued objects pending := by
  simp only [collectSectionRelocations, bind, Except.bind] at collected
  split at collected
  · cases collected
  next added done =>
    cases collected
    intro pending member
    rcases List.mem_append.mp member with old | new
    · exact queued pending old
    · obtain ⟨kept, inside, rfl⟩ := List.mem_filterMap.mp new
      obtain ⟨relocation, present, answer⟩ := mapM_ok_mem done _ inside
      exact collectRelocation_queued known placed present answer

/-- Placing one section keeps every queued relocation in order. -/
theorem merge_queued {merge : Nat → LinkObject → MergedImage → LinkSection × Nat →
      Except LinkError MergedImage}
    (keeps : ∀ objIdx obj image owner next, objects[objIdx]? = some obj → owner.1 ∈ obj.sections →
      (∀ pending ∈ image.pending, Queued objects pending) → merge objIdx obj image owner = .ok next →
      ∀ pending ∈ next.pending, Queued objects pending)
    {before after : MergedImage} (queued : ∀ pending ∈ before.pending, Queued objects pending)
    (merged : objects.zipIdx.foldlM (fun image (obj, objIdx) =>
      obj.sections.zipIdx.foldlM (merge objIdx obj) image) before = .ok after) :
    ∀ pending ∈ after.pending, Queued objects pending := by
  refine foldlM_keeps (fun image => ∀ pending ∈ image.pending, Queued objects pending) ?_ queued merged
  intro entry member image next kept stepped
  have known := List.mem_zipIdx_iff_getElem?.mp member
  refine foldlM_keeps (fun image => ∀ pending ∈ image.pending, Queued objects pending) ?_ kept stepped
  intro owner inside image next kept stepped
  exact keeps entry.2 entry.1 image owner next known (List.fst_mem_of_mem_zipIdx inside) kept stepped

theorem mergeSections_queued {linker : Linker} {policy : LayoutPolicy} {image : MergedImage}
    (merged : linker.mergeSections policy = .ok image) : ∀ pending ∈ image.pending, Queued linker.objects pending := by
  simp only [Linker.mergeSections, bind, Except.bind] at merged
  split at merged
  · cases merged
  next text first =>
    split at merged
    · cases merged
    next rodata second =>
      split at merged
      · cases merged
      next data third =>
        cases merged
        have inText : ∀ pending ∈ text.pending, Queued linker.objects pending := by
          refine merge_queued ?_ (by simp [MergedImage.empty]) first
          intro objIdx obj image owner next known inside kept stepped
          simp only [MergedImage.mergeText, bind, Except.bind] at stepped
          split at stepped
          · cases stepped
            exact kept
          · split at stepped
            · cases stepped
            next pending collected =>
              cases stepped
              exact collect_queued known inside kept collected
        have inRodata : ∀ pending ∈ rodata.pending, Queued linker.objects pending := by
          refine merge_queued ?_ inText second
          intro objIdx obj image owner next known inside kept stepped
          simp only [MergedImage.mergeRodata, bind, Except.bind] at stepped
          split at stepped
          · cases stepped
            exact kept
          · split at stepped <;> split at stepped
            · cases stepped
            · next pending collected =>
              cases stepped
              exact collect_queued known inside kept collected
            · cases stepped
            · next pending collected =>
              cases stepped
              exact collect_queued known inside kept collected
        have inData : ∀ pending ∈ data.pending, Queued linker.objects pending := by
          refine merge_queued ?_ inRodata third
          intro objIdx obj image owner next known inside kept stepped
          simp only [MergedImage.mergeData, bind, Except.bind] at stepped
          split at stepped
          · cases stepped
            exact kept
          · split at stepped
            · cases stepped
            next pending collected =>
              cases stepped
              exact collect_queued known inside kept collected
        have bss (image : MergedImage) (objIdx : Nat) (owner : LinkSection × Nat) :
            (MergedImage.mergeBss objIdx image owner).pending = image.pending := by
          simp only [MergedImage.mergeBss]
          split <;> rfl
        have common (image : MergedImage) (objIdx : Nat) (symbol : Symbol) :
            (MergedImage.mergeCommon linker objIdx image symbol).pending = image.pending := by
          simp only [MergedImage.mergeCommon]
          repeat' split
          all_goals rfl
        refine List.foldlRecOn (motive := fun image : MergedImage => ∀ pending ∈ image.pending,
          Queued linker.objects pending) _ _ ?_ ?_
        · refine List.foldlRecOn (motive := fun image : MergedImage => ∀ pending ∈ image.pending,
            Queued linker.objects pending) _ _ inData ?_
          intro image kept entry _
          refine List.foldlRecOn (motive := fun image : MergedImage => ∀ pending ∈ image.pending,
            Queued linker.objects pending) _ _ kept ?_
          intro image kept owner _
          rw [bss]
          exact kept
        · intro image kept entry _
          refine List.foldlRecOn (motive := fun image : MergedImage => ∀ pending ∈ image.pending,
            Queued linker.objects pending) _ _ kept ?_
          intro image kept symbol _
          rw [common]
          exact kept

section Spec

variable (linker : Linker) (image : MergedImage) (bases : SectionBases)

def symbolAt (linker : Linker) (objIdx index : Nat) : Option Symbol :=
  linker.objects[objIdx]?.bind fun obj => obj.symbols[index]?

/-- A local symbol that its object defines, or a name that has a winner. -/
def HasDefinition (linker : Linker) (symbol : Symbol) : Prop :=
  match symbol.binding with
  | .localBinding => symbol.absolute = true ∨ symbol.sectionIndex ≠ none
  | .globalBinding | .weakBinding => symbol.name ≠ [] ∧ linker.globalSymbols symbol.name ≠ none

/-- The address of the definition that won a name. -/
def winnerAddress (name : Name) : Option Nat :=
  match linker.globalSymbols name with
  | none => none
  | some (objIdx, winner) =>
    if winner.common.isSome then commonAddress image bases name
    else ownAddress linker image bases (objIdx, winner)

/-- The address of the definition a symbol of an object stands for. -/
def definitionAddress (objIdx : Nat) (symbol : Symbol) : Option Nat :=
  match symbol.binding with
  | .localBinding => ownAddress linker image bases (objIdx, symbol)
  | .globalBinding | .weakBinding => winnerAddress linker image bases symbol.name

/-- The target address is the address of the very definition the relocation
names. -/
def Resolves (pending : PendingRelocation) (target : Nat) : Prop :=
  match pending.reference with
  | .sectionStart secIdx => sectionStart linker image bases pending.objIdx secIdx = some target
  | .symbol index => ∀ symbol, symbolAt linker pending.objIdx index = some symbol → HasDefinition linker symbol →
      definitionAddress linker image bases pending.objIdx symbol = some target

/-- The entry that decides the symbol's name lies where the named definition
does. -/
def Unambiguous (pending : PendingRelocation) : Prop :=
  match pending.reference with
  | .sectionStart secIdx => ∃ start, sectionStart linker image bases pending.objIdx secIdx = some start ∧
      ∀ anchor address, symbolAt linker pending.objIdx pending.symbolIndex = some anchor →
        decidingAddress linker image bases pending.objIdx anchor.name anchor.binding = some address → address = start
  | .symbol index => ∀ symbol, symbolAt linker pending.objIdx index = some symbol → HasDefinition linker symbol →
      (symbol.absolute = true ∧ symbol.binding = .localBinding) ∨
        ∃ address, decidingAddress linker image bases pending.objIdx symbol.name symbol.binding = some address ∧
          definitionAddress linker image bases pending.objIdx symbol = some address

end Spec

variable {linker : Linker} {image : MergedImage} {bases : SectionBases} {addresses : SymbolAddresses}

/-- A name that some entry decides is patched with that entry's address. -/
theorem targetAddress_decided (resolved : linker.resolveSymbolAddresses image bases = .ok addresses)
    {target address : Nat}
    (found : symbolAt linker pending.objIdx pending.symbolIndex = some symbol)
    (byName : ¬ (symbol.absolute = true ∧ (symbol.binding = .localBinding ∨ symbol.name = [])))
    (named : symbol.name ≠ [])
    (decided : decidingAddress linker image bases pending.objIdx symbol.name symbol.binding = some address)
    (applied : linker.targetAddress image bases addresses pending = .ok target) : target = address := by
  obtain ⟨obj, known, listed⟩ := Option.bind_eq_some_iff.mp found
  simp only [Linker.targetAddress, known, listed] at applied
  rw [if_neg byName] at applied
  obtain ⟨locals, globals⟩ := resolveSymbolAddresses_decides resolved named
  have looked : addresses.resolve pending.objIdx symbol.name symbol.binding = some address := by
    cases binding : symbol.binding with
    | localBinding =>
      rw [binding] at decided
      exact locals pending.objIdx address decided
    | globalBinding =>
      rw [binding] at decided
      exact globals.trans decided
    | weakBinding =>
      rw [binding] at decided
      exact globals.trans decided
  rw [looked] at applied
  cases applied
  rfl

/-- A definition that has an address leaves its name decided. -/
theorem decidingAddress_ne_none (backed : Backed linker.objects linker.globalSymbols) {objIdx index : Nat}
    (found : symbolAt linker objIdx index = some symbol) {address : Nat}
    (defined : definitionAddress linker image bases objIdx symbol = some address) :
    decidingAddress linker image bases objIdx symbol.name symbol.binding ≠ none := by
  have visible (global : symbol.binding ≠ .localBinding)
      (won : winnerAddress linker image bases symbol.name = some address) :
      (lastAddress linker image bases (isWinning linker symbol.name) (entries linker)).or
        (commonAddress image bases symbol.name) ≠ none := by
    simp only [winnerAddress] at won
    split at won
    · cases won
    next winnerObj winner table =>
      split at won
      next tentative =>
        rw [won]
        cases lastAddress linker image bases (isWinning linker symbol.name) (entries linker) <;> simp
      next real =>
        have real : winner.common = none := by simpa using real
        obtain ⟨same, _, shared, obj, known, member⟩ := backed _ winnerObj winner table real
        have last : lastAddress linker image bases (isWinning linker symbol.name) (entries linker) ≠ none := by
          apply lastAddress_ne_none (mem_entries known member)
          · simp [isWinning, same, shared, table]
          · rw [won]
            exact Option.some_ne_none _
        intro missing
        exact last (Option.or_eq_none_iff.mp missing).1
  obtain ⟨obj, known, listed⟩ := Option.bind_eq_some_iff.mp found
  simp only [definitionAddress] at defined
  cases binding : symbol.binding with
  | localBinding =>
    simp only [binding] at defined
    apply lastAddress_ne_none (mem_entries known (List.mem_of_getElem? listed))
    · simp [isLocalOf, binding]
    · rw [defined]
      exact Option.some_ne_none _
  | globalBinding =>
    rw [binding] at defined
    exact visible (by simp [binding]) defined
  | weakBinding =>
    rw [binding] at defined
    exact visible (by simp [binding]) defined

/-- A reference to a section reaches the section's start, whichever symbol the
parser settled on, unless that symbol's name is decided elsewhere. -/
theorem sectionStart_resolves (backed : Backed linker.objects linker.globalSymbols)
    (resolved : linker.resolveSymbolAddresses image bases = .ok addresses)
    {anchor : Symbol} {secIdx target : Nat}
    (found : symbolAt linker pending.objIdx pending.symbolIndex = some anchor) (starts : StartsSection anchor secIdx)
    (named : anchor.name ≠ [])
    (applied : linker.targetAddress image bases addresses pending = .ok target) :
    sectionStart linker image bases pending.objIdx secIdx = some target ↔
      ∃ start, sectionStart linker image bases pending.objIdx secIdx = some start ∧
        ∀ address, decidingAddress linker image bases pending.objIdx anchor.name anchor.binding = some address →
          address = start := by
  obtain ⟨located, atStart, relative⟩ := starts
  have byName : ¬ (anchor.absolute = true ∧ (anchor.binding = .localBinding ∨ anchor.name = [])) := by
    simp [relative]
  constructor
  · intro reached
    refine ⟨target, reached, ?_⟩
    intro address decided
    exact (targetAddress_decided resolved found byName named decided applied).symm
  · rintro ⟨start, placed, unambiguous⟩
    rw [placed]
    cases decided : decidingAddress linker image bases pending.objIdx anchor.name anchor.binding with
    | some address =>
      rw [targetAddress_decided resolved found byName named decided applied, unambiguous address decided]
    | none =>
      have own : ownAddress linker image bases (pending.objIdx, anchor) = some start := by
        simp [ownAddress, relative, located, placed, atStart]
      have shared : anchor.binding ≠ .localBinding := by
        intro isLocal
        have defined : definitionAddress linker image bases pending.objIdx anchor = some start := by
          simp only [definitionAddress, isLocal]
          exact own
        exact decidingAddress_ne_none backed found defined decided
      have unknown : addresses.resolve pending.objIdx anchor.name anchor.binding = none := by
        obtain ⟨_, globals⟩ := resolveSymbolAddresses_decides resolved named
        cases binding : anchor.binding with
        | localBinding => exact absurd binding shared
        | globalBinding =>
          rw [binding] at decided
          exact globals.trans decided
        | weakBinding =>
          rw [binding] at decided
          exact globals.trans decided
      obtain ⟨obj, known, listed⟩ := Option.bind_eq_some_iff.mp found
      simp only [Linker.targetAddress, known, listed] at applied
      rw [if_neg byName, unknown] at applied
      simp only [located] at applied
      simp only [sectionStart, known, Option.bind_some] at placed
      split at applied
      · cases applied
      next owner present =>
        rw [present] at placed
        split at applied
        next offset base merged region =>
          rw [merged] at placed
          simp only [region, Option.map_some] at placed
          cases applied
          rw [← placed]
        next => cases applied

/-- A reference to a symbol reaches the definition it names exactly when the
entry that decides the name lies there. -/
theorem symbol_resolves (backed : Backed linker.objects linker.globalSymbols)
    (resolved : linker.resolveSymbolAddresses image bases = .ok addresses)
    {target : Nat}
    (found : symbolAt linker pending.objIdx pending.symbolIndex = some symbol)
    (usable : symbol.name ≠ [] ∨ symbol.absolute = true) (defined : HasDefinition linker symbol)
    (applied : linker.targetAddress image bases addresses pending = .ok target) :
    definitionAddress linker image bases pending.objIdx symbol = some target ↔
      (symbol.absolute = true ∧ symbol.binding = .localBinding) ∨
        ∃ address, decidingAddress linker image bases pending.objIdx symbol.name symbol.binding = some address ∧
          definitionAddress linker image bases pending.objIdx symbol = some address := by
  by_cases byEntry : symbol.absolute = true ∧ symbol.binding = .localBinding
  · obtain ⟨obj, known, listed⟩ := Option.bind_eq_some_iff.mp found
    simp only [Linker.targetAddress, known, listed] at applied
    rw [if_pos ⟨byEntry.1, Or.inl byEntry.2⟩] at applied
    cases applied
    have own : definitionAddress linker image bases pending.objIdx symbol = some symbol.value := by
      simp [definitionAddress, byEntry.2, ownAddress, byEntry.1]
    exact ⟨fun _ => Or.inl byEntry, fun _ => own⟩
  · have named : symbol.name ≠ [] := by
      intro unnamed
      have absolute := usable.resolve_left (fun named => named unnamed)
      simp only [HasDefinition] at defined
      split at defined
      next isLocal => exact byEntry ⟨absolute, isLocal⟩
      all_goals exact defined.1 unnamed
    have byName : ¬ (symbol.absolute = true ∧ (symbol.binding = .localBinding ∨ symbol.name = [])) := by
      rintro ⟨absolute, isLocal | unnamed⟩
      · exact byEntry ⟨absolute, isLocal⟩
      · exact named unnamed
    constructor
    · intro reached
      right
      cases decided : decidingAddress linker image bases pending.objIdx symbol.name symbol.binding with
      | none => exact absurd decided (decidingAddress_ne_none backed found reached)
      | some address =>
        rw [targetAddress_decided resolved found byName named decided applied] at reached
        exact ⟨address, rfl, reached⟩
    · rintro (entry | ⟨address, decided, reached⟩)
      · exact absurd entry byEntry
      · rw [targetAddress_decided resolved found byName named decided applied]
        exact reached

/-- For every link that succeeds: an applied relocation is computed from the
address of the definition it names exactly when the entry that decides its
symbol's name lies there. -/
theorem relocation_resolves_iff {inputs : List Input} {objects : List LinkObject} {policy : LayoutPolicy}
    {regions : MergedImage → SectionBases} {linker : Linker} {image : MergedImage}
    {patched : List (PendingRelocation × Nat)} (loaded : inputs.mapM Input.load = .ok objects)
    (linked : Linker.link objects policy regions = .ok (linker, image, patched)) :
    ∀ applied ∈ patched, Resolves linker image (regions image) applied.1 applied.2 ↔
      Unambiguous linker image (regions image) applied.1 := by
  simp only [Linker.link, bind, Except.bind] at linked
  split at linked
  · cases linked
  next linker added =>
    split at linked
    · cases linked
    next image merged =>
      split at linked
      · cases linked
      next addresses resolved =>
        split at linked
        · cases linked
        next patched done =>
          cases linked
          intro applied member
          obtain ⟨pending, inside, answer⟩ := mapM_ok_mem done applied member
          simp only [bind, Except.bind] at answer
          split at answer
          · cases answer
          next target applied =>
            cases answer
            have backed := Backed.addObjects added
            obtain ⟨obj, owner, relocation, symbol, known, placed, present, index, refers, listed, usable⟩ :=
              mergeSections_queued merged pending inside
            have found : symbolAt linker pending.objIdx pending.symbolIndex = some symbol :=
              Option.bind_eq_some_iff.mpr ⟨obj, known, listed⟩
            have named : Named obj.symbols relocation := by
              have admitted := addObjects_objects added ▸ List.mem_of_getElem? known
              obtain ⟨input, _, load⟩ := mapM_ok_mem loaded obj admitted
              exact load_named load owner placed relocation present
            simp only [Named, refers, index] at named
            simp only [Resolves, Unambiguous]
            split at named
            next number same =>
              rw [same]
              simp only
              rw [← named, found]
              constructor
              · intro resolves other equal defined
                cases equal
                exact (symbol_resolves backed resolved found usable defined applied).mp (resolves symbol rfl defined)
              · intro unambiguous other equal defined
                cases equal
                exact (symbol_resolves backed resolved found usable defined applied).mpr
                  (unambiguous symbol rfl defined)
            next secIdx same =>
              rw [same]
              obtain ⟨anchor, at', starts⟩ := named
              cases listed.symm.trans at'
              have nonempty := usable.resolve_right (by simp [starts.2.2])
              refine (sectionStart_resolves backed resolved found starts nonempty applied).trans ?_
              simp only [found, Option.some.injEq]
              constructor
              · rintro ⟨start, begins, all⟩
                exact ⟨start, begins, fun anchor address equal => equal ▸ all address⟩
              · rintro ⟨start, begins, all⟩
                exact ⟨start, begins, fun address => all _ address rfl⟩

/-- An object with two static variables of one name, as a relocatable link of
two files leaves them, and a reference to the first. -/
def repeatedStatics : Input :=
  let header (name : Name) (size : Nat) : LinkSection :=
    { name, contentLen := size, size, alloc := true, relocations := [], align := 8 }
  let static (value : Nat) : ElfSymbolEntry := { name := ['x'], info := 1, shndx := 1, value, size := 8 }
  .elf {
    machine := .x86_64
    sections := [header [] 0, header ['.', 'd', 'a', 't', 'a'] 16]
    symbols := [{ name := [], info := 0, shndx := 0, value := 0, size := 0 }, static 0, static 8]
    rela := [(1, [{ offset := 0, info := 2 ^ 32 + 1, addend := 0 }])] }

def sampleBases (_ : MergedImage) : SectionBases := { text := 4096, rodata := 8192, data := 12288, bss := 16384 }

def sampleLink (inputs : List Input) : Option (Linker × MergedImage × List (PendingRelocation × Nat)) :=
  (inputs.mapM Input.load).toOption.bind fun objects =>
    (Linker.link objects (.forTarget .x86_64Linux) sampleBases).toOption

theorem sampleLink_some {inputs : List Input} {linker : Linker} {image : MergedImage}
    {patched : List (PendingRelocation × Nat)} (linked : sampleLink inputs = some (linker, image, patched)) :
    ∃ objects, inputs.mapM Input.load = .ok objects ∧
      Linker.link objects (.forTarget .x86_64Linux) sampleBases = .ok (linker, image, patched) := by
  obtain ⟨objects, loaded, linked⟩ := Option.bind_eq_some_iff.mp linked
  refine ⟨objects, ?_, ?_⟩
  · cases result : inputs.mapM Input.load with
    | error => simp [result, Except.toOption] at loaded
    | ok => simpa [result, Except.toOption] using loaded
  · cases result : Linker.link objects (.forTarget .x86_64Linux) sampleBases with
    | error => simp [result, Except.toOption] at linked
    | ok => simpa [result, Except.toOption] using linked

/-- The reference to the first variable is patched with the second's address. -/
theorem repeated_local_name_reaches_the_last :
    ¬ ∀ (inputs : List Input) (objects : List LinkObject) (policy : LayoutPolicy)
      (regions : MergedImage → SectionBases) (linker : Linker) (image : MergedImage)
      (patched : List (PendingRelocation × Nat)), inputs.mapM Input.load = .ok objects →
      Linker.link objects policy regions = .ok (linker, image, patched) →
      ∀ applied ∈ patched, Resolves linker image (regions image) applied.1 applied.2 := by
  intro all
  have outcome : (sampleLink [repeatedStatics]).map (fun linked => linked.2.2.map fun applied =>
      (applied.1.objIdx, applied.1.reference, applied.2)) = some [(0, .symbol 1, 12296)] := by decide
  have first : (sampleLink [repeatedStatics]).map (fun linked => (symbolAt linked.1 0 1).map fun symbol =>
      (symbol.absolute, symbol.sectionIndex, symbol.binding,
        definitionAddress linked.1 linked.2.1 (sampleBases linked.2.1) 0 symbol)) =
      some (some (false, some 1, .localBinding, some 12288)) := by decide
  cases linked : sampleLink [repeatedStatics] with
  | none => simp [linked] at outcome
  | some result =>
    obtain ⟨linker, image, patched⟩ := result
    obtain ⟨objects, loaded, done⟩ := sampleLink_some linked
    simp only [linked, Option.map_some, Option.some.injEq] at outcome first
    obtain ⟨applied, only, entry⟩ := List.map_eq_singleton_iff.mp outcome
    obtain ⟨symbol, found, facts⟩ := Option.map_eq_some_iff.mp first
    simp only [Prod.mk.injEq] at entry facts
    have resolves := all _ _ _ _ linker image patched loaded done applied (by simp [only])
    simp only [Resolves, entry.2.1, entry.1] at resolves
    have reached := resolves symbol found (by simp [HasDefinition, facts.2.2.1, facts.2.1])
    rw [facts.2.2.2, entry.2.2] at reached
    cases reached

theorem repeatedStatics_resolves_iff :
    ∃ linker image patched, sampleLink [repeatedStatics] = some (linker, image, patched) ∧ patched ≠ [] ∧
      ∀ applied ∈ patched, Resolves linker image (sampleBases image) applied.1 applied.2 ↔
        Unambiguous linker image (sampleBases image) applied.1 := by
  have outcome : (sampleLink [repeatedStatics]).map (fun linked => linked.2.2.length) = some 1 := by decide
  obtain ⟨⟨linker, image, patched⟩, linked, count⟩ := Option.map_eq_some_iff.mp outcome
  obtain ⟨objects, loaded, done⟩ := sampleLink_some linked
  refine ⟨linker, image, patched, linked, ?_, relocation_resolves_iff loaded done⟩
  intro empty
  simp [empty] at count

end Rue.Proofs.Linking
