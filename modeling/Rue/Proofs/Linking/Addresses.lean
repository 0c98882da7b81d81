import Rue.Linking.Linker

/-! The linker's address tables: what a name resolves to is decided by the last
entry of that name that has an address. -/

namespace Rue.Proofs.Linking
open Rue.Linking

section Spec

variable (linker : Linker) (image : MergedImage) (bases : SectionBases)

/-- All symbol-table entries of the link, object by object. -/
def entries (linker : Linker) : List (Nat × Symbol) :=
  linker.objects.zipIdx.flatMap fun (obj, objIdx) => obj.symbols.map fun symbol => (objIdx, symbol)

/-- Where a section of an object starts, if the linker places it. -/
def sectionStart (objIdx secIdx : Nat) : Option Nat :=
  linker.objects[objIdx]?.bind fun obj =>
    match obj.sections[secIdx]?, image.sectionOffsets objIdx secIdx with
    | some owner, some offset => (bases.of (classifySection owner.name)).map (· + offset)
    | _, _ => none

/-- The address of a symbol-table entry: its own section's start plus its value,
or its value if it is absolute. -/
def ownAddress (entry : Nat × Symbol) : Option Nat :=
  if entry.2.absolute then some entry.2.value
  else (entry.2.sectionIndex.bind (sectionStart linker image bases entry.1)).map (· + entry.2.value)

def lastAddress (selected : Nat × Symbol → Bool) (listed : List (Nat × Symbol)) : Option Nat :=
  ((listed.filter selected).filterMap (ownAddress linker image bases)).getLast?

def isLocalOf (objIdx : Nat) (name : Name) (entry : Nat × Symbol) : Bool :=
  entry.1 = objIdx ∧ entry.2.name = name ∧ entry.2.binding = .localBinding

/-- A definition of a name in the object that won it. -/
def isWinning (name : Name) (entry : Nat × Symbol) : Bool :=
  let winner := (linker.globalSymbols name).map Prod.fst
  entry.2.name = name ∧ entry.2.binding ≠ .localBinding ∧ (winner = none ∨ winner = some entry.1)

/-- The storage reserved for a tentative definition. -/
def commonAddress (name : Name) : Option Nat :=
  ((image.commonOffsets.filter fun entry => entry.1 = name).getLast?).map fun entry => bases.bss + entry.2

/-- The address of the entry that decides what a name of an object means: the
last local of the name, or the last definition of the name in its winner's
object. -/
def decidingAddress (objIdx : Nat) (name : Name) : SymbolBinding → Option Nat
  | .localBinding => lastAddress linker image bases (isLocalOf objIdx name) (entries linker)
  | .globalBinding | .weakBinding =>
    (lastAddress linker image bases (isWinning linker name) (entries linker)).or (commonAddress image bases name)

end Spec

variable {linker : Linker} {image : MergedImage} {bases : SectionBases}

theorem lastAddress_cons (selected : Nat × Symbol → Bool) (entry : Nat × Symbol) (rest : List (Nat × Symbol)) :
    lastAddress linker image bases selected (entry :: rest) =
      (lastAddress linker image bases selected rest).or
        (if selected entry then ownAddress linker image bases entry else none) := by
  simp only [lastAddress, List.filter_cons]
  split
  next =>
    cases known : ownAddress linker image bases entry with
    | none => rw [List.filterMap_cons_none known, Option.or_none]
    | some address =>
      rw [List.filterMap_cons_some known, List.getLast?_cons]
      cases ((rest.filter selected).filterMap (ownAddress linker image bases)).getLast? <;> rfl
  next => rw [Option.or_none]

theorem lastAddress_append (selected : Nat × Symbol → Bool) (first second : List (Nat × Symbol)) :
    lastAddress linker image bases selected (first ++ second) =
      (lastAddress linker image bases selected second).or (lastAddress linker image bases selected first) := by
  induction first with
  | nil => simp [lastAddress]
  | cons entry rest ih => rw [List.cons_append, lastAddress_cons, lastAddress_cons, ih, Option.or_assoc]

/-- An entry that has an address is passed over only for a later one. -/
theorem lastAddress_ne_none {selected : Nat × Symbol → Bool} {listed : List (Nat × Symbol)} {entry : Nat × Symbol}
    (member : entry ∈ listed) (wanted : selected entry = true)
    (placed : ownAddress linker image bases entry ≠ none) :
    lastAddress linker image bases selected listed ≠ none := by
  intro missing
  rw [lastAddress, List.getLast?_eq_none_iff, List.filterMap_eq_nil_iff] at missing
  exact placed (missing entry (List.mem_filter.mpr ⟨member, wanted⟩))

theorem placedAddress_eq {objIdx : Nat} {obj : LinkObject} {symbol : Symbol} {placed : Option Nat}
    (known : linker.objects[objIdx]? = some obj)
    (answer : placedAddress image bases objIdx obj symbol = .ok placed) :
    placed = ownAddress linker image bases (objIdx, symbol) := by
  simp only [placedAddress] at answer
  simp only [ownAddress]
  split at answer
  next absolute =>
    cases answer
    rw [if_pos absolute]
  next relative =>
    rw [if_neg relative]
    split at answer
    next none =>
      cases answer
      rw [none]
      rfl
    next secIdx located =>
      rw [located, Option.bind_some, sectionStart, known, Option.bind_some]
      cases found : obj.sections[secIdx]? with
      | none =>
        rw [found] at answer
        cases answer
        rfl
      | some owner =>
        cases merged : image.sectionOffsets objIdx secIdx with
        | none =>
          rw [found, merged] at answer
          cases answer
          rfl
        | some offset =>
          rw [found, merged] at answer
          simp only at answer ⊢
          cases placedAt : bases.of (classifySection owner.name) with
          | none =>
            rw [placedAt] at answer
            cases answer
            rfl
          | some base =>
            rw [placedAt] at answer
            simp only [checkedSymbolAddress, checkedAdd, bind, Except.bind] at answer
            split at answer
            · cases answer
            next first same =>
              split at same
              · cases same
                split at answer
                · cases answer
                  rfl
                · cases answer
              · cases same

/-- What adding some entries to the tables makes of them. -/
def Extends (linker : Linker) (image : MergedImage) (bases : SectionBases) (listed : List (Nat × Symbol))
    (before after : SymbolAddresses) : Prop :=
  ∀ name, name ≠ [] →
    (∀ objIdx, after.locals objIdx name =
      (lastAddress linker image bases (isLocalOf objIdx name) listed).or (before.locals objIdx name)) ∧
    after.globals name = (lastAddress linker image bases (isWinning linker name) listed).or (before.globals name)

namespace Extends

theorem nil (tables : SymbolAddresses) : Extends linker image bases [] tables tables :=
  fun _ _ => ⟨fun _ => rfl, rfl⟩

theorem append {first second : List (Nat × Symbol)} {before middle after : SymbolAddresses}
    (one : Extends linker image bases first before middle) (two : Extends linker image bases second middle after) :
    Extends linker image bases (first ++ second) before after := by
  intro name named
  refine ⟨?_, ?_⟩
  · intro objIdx
    rw [lastAddress_append, Option.or_assoc, ← (one name named).1 objIdx]
    exact (two name named).1 objIdx
  · rw [lastAddress_append, Option.or_assoc, ← (one name named).2]
    exact (two name named).2

theorem single {entry : Nat × Symbol} {before after : SymbolAddresses}
    (localAfter : ∀ name, name ≠ [] → ∀ objIdx, after.locals objIdx name =
      (if isLocalOf objIdx name entry then ownAddress linker image bases entry else none).or
        (before.locals objIdx name))
    (globalAfter : ∀ name, name ≠ [] → after.globals name =
      (if isWinning linker name entry then ownAddress linker image bases entry else none).or
        (before.globals name)) : Extends linker image bases [entry] before after := by
  intro name named
  refine ⟨?_, ?_⟩
  · intro objIdx
    rw [lastAddress_cons]
    exact localAfter name named objIdx
  · rw [lastAddress_cons]
    exact globalAfter name named

end Extends

theorem addSymbolAddress_extends {objIdx : Nat} {obj : LinkObject} {symbol : Symbol}
    {before after : SymbolAddresses} (known : linker.objects[objIdx]? = some obj)
    (added : linker.addSymbolAddress image bases objIdx obj before symbol = .ok after) :
    Extends linker image bases [(objIdx, symbol)] before after := by
  simp only [Linker.addSymbolAddress] at added
  split at added
  next unnamed =>
    cases added
    apply Extends.single
    · intro name named other
      rw [if_neg]
      · rfl
      · intro selected
        simp only [isLocalOf, decide_eq_true_eq] at selected
        exact named (selected.2.1 ▸ unnamed)
    · intro name named
      rw [if_neg]
      · rfl
      · intro selected
        simp only [isWinning, decide_eq_true_eq] at selected
        exact named (selected.1 ▸ unnamed)
  next named' =>
    simp only [bind, Except.bind] at added
    split at added
    · cases added
    next placed answer =>
      have own := placedAddress_eq known answer
      cases placed with
      | none =>
        cases added
        apply Extends.single <;> intros <;> rw [← own, ite_self] <;> rfl
      | some address =>
        simp only at added
        split at added
        next isLocal =>
          cases added
          apply Extends.single
          · intro name named other
            rw [← own]
            simp only [SymbolAddresses.insertLocal, isLocalOf, isLocal, and_true, decide_eq_true_eq]
            by_cases same : other = objIdx ∧ name = symbol.name
            · rw [if_pos same, if_pos ⟨same.1.symm, same.2.symm⟩]
              rfl
            · rw [if_neg same, if_neg (fun equal => same ⟨equal.1.symm, equal.2.symm⟩)]
              rfl
          · intro name named
            rw [if_neg]
            · rfl
            · intro selected
              simp only [isWinning, decide_eq_true_eq] at selected
              exact selected.2.1 isLocal
        all_goals
          next isGlobal =>
          have notLocal : symbol.binding ≠ .localBinding := by
            rw [isGlobal]
            intro equal
            cases equal
          have localAfter (name : Name) (other : Nat) : isLocalOf other name (objIdx, symbol) = false := by
            simp [isLocalOf, notLocal]
          split at added
          next wins =>
            cases added
            apply Extends.single
            · intro name named other
              rw [localAfter]
              rfl
            · intro name named
              rw [← own]
              simp only [SymbolAddresses.insertGlobal, isWinning, decide_eq_true_eq]
              by_cases same : name = symbol.name
              · subst same
                rw [if_pos rfl, if_pos ⟨rfl, notLocal, wins⟩]
                rfl
              · rw [if_neg same, if_neg (fun equal => same equal.1.symm)]
                rfl
          next loses =>
            cases added
            apply Extends.single
            · intro name named other
              rw [localAfter]
              rfl
            · intro name named
              rw [if_neg]
              · rfl
              · intro selected
                simp only [isWinning, decide_eq_true_eq] at selected
                exact loses (selected.1 ▸ selected.2.2)

theorem addObjectAddresses_extends {objIdx : Nat} {obj : LinkObject} {before after : SymbolAddresses}
    (known : linker.objects[objIdx]? = some obj)
    (added : obj.symbols.foldlM (linker.addSymbolAddress image bases objIdx obj) before = .ok after) :
    Extends linker image bases (obj.symbols.map fun symbol => (objIdx, symbol)) before after := by
  generalize obj.symbols = symbols at added
  induction symbols generalizing before with
  | nil =>
    cases added
    exact Extends.nil _
  | cons symbol rest ih =>
    simp only [List.foldlM_cons, bind, Except.bind] at added
    split at added
    · cases added
    next middle first => exact (addSymbolAddress_extends known first).append (ih added)

theorem addAllAddresses_extends {objects : List (LinkObject × Nat)} {before after : SymbolAddresses}
    (known : ∀ entry ∈ objects, linker.objects[entry.2]? = some entry.1)
    (added : objects.foldlM (fun addresses (obj, objIdx) =>
      obj.symbols.foldlM (linker.addSymbolAddress image bases objIdx obj) addresses) before = .ok after) :
    Extends linker image bases
      (objects.flatMap fun (obj, objIdx) => obj.symbols.map fun symbol => (objIdx, symbol)) before after := by
  induction objects generalizing before with
  | nil =>
    cases added
    exact Extends.nil _
  | cons entry rest ih =>
    simp only [List.foldlM_cons, bind, Except.bind] at added
    split at added
    · cases added
    next middle first =>
      rw [List.flatMap_cons]
      have head := addObjectAddresses_extends (known entry (by simp)) first
      exact head.append (ih (fun other member => known other (by simp [member])) added)

/-- Section names never displace an address a symbol has given the name. -/
theorem addSectionAddress_keeps {objIdx : Nat} {tables : SymbolAddresses} {owner : LinkSection × Nat}
    {other : Nat} {name : Name} {address : Nat} (known : tables.locals other name = some address) :
    (Linker.addSectionAddress image bases objIdx tables owner).locals other name = some address := by
  simp only [Linker.addSectionAddress]
  split
  · split
    next => exact known
    next free =>
      simp only [SymbolAddresses.insertLocal]
      split
      next same =>
        rw [same.1, same.2] at known
        rw [known] at free
        exact absurd rfl free
      next => exact known
  · exact known

theorem addSectionAddress_globals {objIdx : Nat} {tables : SymbolAddresses} {owner : LinkSection × Nat} :
    (Linker.addSectionAddress image bases objIdx tables owner).globals = tables.globals := by
  simp only [Linker.addSectionAddress]
  split
  · split <;> rfl
  · rfl

theorem addCommonAddress_globals {listed : List (Name × Nat)} {before after : SymbolAddresses}
    (added : listed.foldlM (Linker.addCommonAddress bases) before = .ok after) (name : Name) :
    after.globals name = (((listed.filter fun entry => entry.1 = name).getLast?).map
      fun entry => bases.bss + entry.2).or (before.globals name) := by
  induction listed generalizing before with
  | nil =>
    cases added
    rfl
  | cons entry rest ih =>
    simp only [List.foldlM_cons, bind, Except.bind] at added
    split at added
    · cases added
    next middle first =>
      rw [ih added, List.filter_cons]
      simp only [Linker.addCommonAddress, checkedAdd, bind, Except.bind] at first
      split at first
      · cases first
      next address fits =>
        split at fits
        · cases fits
          cases first
          simp only [SymbolAddresses.insertGlobal, decide_eq_true_eq]
          by_cases same : entry.1 = name
          · rw [if_pos same, if_pos same.symm, List.getLast?_cons]
            cases (rest.filter fun entry => entry.1 = name).getLast? <;> rfl
          · rw [if_neg same, if_neg (fun equal => same equal.symm)]
        · cases fits

/-- The finished tables: globals are decided exactly as `decidingAddress` says,
locals too wherever it gives an address. -/
theorem resolveSymbolAddresses_decides {addresses : SymbolAddresses}
    (resolved : linker.resolveSymbolAddresses image bases = .ok addresses) {name : Name} (named : name ≠ []) :
    (∀ objIdx address, decidingAddress linker image bases objIdx name .localBinding = some address →
      addresses.locals objIdx name = some address) ∧
    addresses.globals name = (lastAddress linker image bases (isWinning linker name) (entries linker)).or
      (commonAddress image bases name) := by
  simp only [Linker.resolveSymbolAddresses, bind, Except.bind] at resolved
  split at resolved
  · cases resolved
  next commons first =>
    split at resolved
    · cases resolved
    next symbols second =>
      cases resolved
      have known : ∀ entry ∈ linker.objects.zipIdx, linker.objects[entry.2]? = some entry.1 :=
        fun entry member => List.mem_zipIdx_iff_getElem?.mp member
      obtain ⟨locals, globals⟩ := addAllAddresses_extends known second name named
      have common := addCommonAddress_globals first name
      rw [Option.or_none] at common
      refine ⟨?_, ?_⟩
      · intro objIdx address decided
        have start : symbols.locals objIdx name = some address := by
          rw [locals objIdx]
          simp only [decidingAddress, entries] at decided
          rw [decided]
          rfl
        refine List.foldlRecOn (motive := fun tables : SymbolAddresses => tables.locals objIdx name = some address) _ _ start ?_
        intro tables kept entry _
        refine List.foldlRecOn (motive := fun tables : SymbolAddresses => tables.locals objIdx name = some address) _ _ kept ?_
        exact fun inner kept owner _ => addSectionAddress_keeps kept
      · have start : symbols.globals name =
            (lastAddress linker image bases (isWinning linker name) (entries linker)).or
              (commonAddress image bases name) := by
          rw [globals, common]
          rfl
        refine Eq.trans ?_ start
        refine List.foldlRecOn (motive := fun tables : SymbolAddresses => tables.globals name = symbols.globals name)
          _ _ rfl ?_
        intro tables kept entry _
        refine List.foldlRecOn (motive := fun tables : SymbolAddresses => tables.globals name = symbols.globals name)
          _ _ kept ?_
        intro inner kept owner _
        rw [addSectionAddress_globals]
        exact kept

end Rue.Proofs.Linking
