import Rue.Linking.Object

/-! What loading an object guarantees about its relocations: each keeps the
symbol its entry names, or an anchor at the start of the section it names. -/

namespace Rue.Proofs.Linking
open Rue.Linking

/-- A symbol at the very start of a section. -/
def StartsSection (symbol : Symbol) (owner : Nat) : Prop :=
  symbol.sectionIndex = some owner ∧ symbol.value = 0 ∧ symbol.absolute = false

def Named (symbols : List Symbol) (relocation : Relocation) : Prop :=
  match relocation.reference with
  | .symbol index => relocation.symbolIndex = index
  | .sectionStart owner => ∃ anchor, symbols[relocation.symbolIndex]? = some anchor ∧ StartsSection anchor owner

def ObjectNamed (obj : LinkObject) : Prop :=
  ∀ owner ∈ obj.sections, ∀ relocation ∈ owner.relocations, Named obj.symbols relocation

section Elf

theorem parseElfRela_named {machine : ElfMachine} {entry : ElfRelaEntry} {relocation : Relocation}
    (parsed : parseElfRela machine entry = some relocation) (symbols : List Symbol) : Named symbols relocation := by
  simp only [parseElfRela] at parsed
  split at parsed
  · cases parsed
  · cases parsed
    rfl

theorem addRelocations_named {sections : List LinkSection} {symbols : List Symbol} {target : Nat}
    {relocations : List Relocation}
    (named : ∀ owner ∈ sections, ∀ relocation ∈ owner.relocations, Named symbols relocation)
    (added : ∀ relocation ∈ relocations, Named symbols relocation) :
    ∀ owner ∈ addRelocations sections target relocations, ∀ relocation ∈ owner.relocations,
      Named symbols relocation := by
  intro owner member relocation present
  obtain ⟨index, inside, rfl⟩ := List.getElem_of_mem member
  simp only [addRelocations, List.getElem_modify] at present
  rw [addRelocations, List.length_modify] at inside
  split at present
  · rcases List.mem_append.mp present with old | new
    · exact named _ (List.getElem_mem inside) relocation old
    · exact added relocation new
  · exact named _ (List.getElem_mem inside) relocation present

theorem parseElf_named {tables : ElfTables} {obj : LinkObject} (parsed : parseElf tables = .ok obj) :
    ObjectNamed obj := by
  simp only [parseElf, bind, Except.bind] at parsed
  split at parsed
  · cases parsed
  · next symbols _ =>
    cases parsed
    have bare : ∀ owner ∈ tables.sections.map (fun header => { header with relocations := [] }),
        ∀ relocation ∈ owner.relocations, Named symbols relocation := by
      intro owner member relocation present
      obtain ⟨header, _, rfl⟩ := List.mem_map.mp member
      cases present
    simp only [ObjectNamed]
    generalize tables.sections.map (fun header => { header with relocations := [] }) = sections at bare
    induction tables.rela generalizing sections with
    | nil => exact bare
    | cons rela rest ih =>
      apply ih
      apply addRelocations_named bare
      intro relocation present
      obtain ⟨entry, _, parsed⟩ := List.mem_filterMap.mp present
      exact parseElfRela_named parsed symbols

end Elf

section Macho

/-- The anchors known so far stand at the starts of their sections. -/
def Anchored (reader : MachoReader) : Prop :=
  ∀ owner index, reader.anchors owner = some index →
    ∃ anchor, reader.symbols[index]? = some anchor ∧ StartsSection anchor owner

/-- The symbol table only grows, so what was named stays named. -/
def Grows (reader next : MachoReader) : Prop := ∃ minted, next.symbols = reader.symbols ++ minted

namespace Grows

theorem refl (reader : MachoReader) : Grows reader reader := ⟨[], by simp⟩

theorem trans {first second third : MachoReader} (one : Grows first second) (two : Grows second third) :
    Grows first third := by
  obtain ⟨minted, same⟩ := one
  obtain ⟨more, same'⟩ := two
  exact ⟨minted ++ more, by rw [same', same, List.append_assoc]⟩

theorem getElem? {reader next : MachoReader} (grows : Grows reader next) {index : Nat} {symbol : Symbol}
    (known : reader.symbols[index]? = some symbol) : next.symbols[index]? = some symbol := by
  obtain ⟨minted, same⟩ := grows
  rw [same, List.getElem?_append_left (List.getElem?_eq_some_iff.mp known).1]
  exact known

theorem named {reader next : MachoReader} (grows : Grows reader next) {relocation : Relocation}
    (known : Named reader.symbols relocation) : Named next.symbols relocation := by
  unfold Named at known ⊢
  split
  next index same =>
    rw [same] at known
    exact known
  next owner same =>
    rw [same] at known
    obtain ⟨anchor, present, starts⟩ := known
    exact ⟨anchor, grows.getElem? present, starts⟩

end Grows

variable {addresses : List Nat}

theorem parseNlist_relative {entry : NlistEntry} {symbol : Symbol}
    (parsed : parseNlist addresses entry = .ok symbol) : symbol.absolute = false := by
  simp only [parseNlist] at parsed
  split at parsed
  · split at parsed
    · cases parsed
    · split at parsed
      · cases parsed
        rfl
      · cases parsed
  · cases parsed
    rfl

theorem sectionAnchors_anchored {symbols : List Symbol} (relative : ∀ symbol ∈ symbols, symbol.absolute = false)
    (pendingAddend : Int) : Anchored { symbols, anchors := sectionAnchors symbols, pendingAddend } := by
  intro owner index found
  obtain ⟨inside, holds, _⟩ := List.findIdx?_eq_some_iff_getElem.mp found
  simp only [decide_eq_true_eq] at holds
  exact ⟨symbols[index], List.getElem?_eq_getElem inside, holds.1, holds.2.1, relative _ (List.getElem_mem inside)⟩

variable {reader next : MachoReader}

theorem anchor_spec {owner index : Nat} {name : Name} (anchored : Anchored reader)
    (found : reader.anchor owner name = (next, index)) :
    Anchored next ∧ Grows reader next ∧ ∃ anchor, next.symbols[index]? = some anchor ∧ StartsSection anchor owner := by
  simp only [MachoReader.anchor] at found
  split at found
  next known =>
    cases found
    exact ⟨anchored, Grows.refl reader, anchored owner index known⟩
  next =>
    cases found
    have minted : (reader.symbols ++ [MachoReader.mintedAnchor owner name])[reader.symbols.length]? =
        some (MachoReader.mintedAnchor owner name) := List.getElem?_concat_length
    refine ⟨?_, ⟨_, rfl⟩, _, minted, rfl, rfl, rfl⟩
    intro other position known
    simp only at known
    split at known
    next same =>
      subst other
      cases known
      exact ⟨_, minted, rfl, rfl, rfl⟩
    next =>
      obtain ⟨anchor, present, starts⟩ := anchored other position known
      have inside := (List.getElem?_eq_some_iff.mp present).1
      exact ⟨anchor, by rw [List.getElem?_append_left inside]; exact present, starts⟩

variable {sections : List LinkSection}

theorem symbolIndex_spec {entry : MachoReloc}
    {index : Nat} {reference : Reference} (anchored : Anchored reader)
    (found : reader.symbolIndex sections entry = .ok (next, index, reference)) :
    Anchored next ∧ Grows reader next ∧ ∀ relocation, relocation.symbolIndex = index →
      relocation.reference = reference → Named next.symbols relocation := by
  simp only [MachoReader.symbolIndex] at found
  split at found
  · split at found
    · cases found
      refine ⟨anchored, Grows.refl reader, ?_⟩
      intro relocation same refers
      simp only [Named, refers, same]
    · cases found
  · split at found
    · cases found
    · split at found
      · cases found
      next referenced _ =>
        cases answer : reader.anchor (entry.symbolnum - 1) referenced.name with
        | mk reader' position =>
          rw [answer] at found
          cases found
          obtain ⟨kept, grows, anchor, present, starts⟩ := anchor_spec anchored answer
          refine ⟨kept, grows, ?_⟩
          intro relocation same refers
          simp only [Named, refers, same]
          exact ⟨anchor, present, starts⟩

theorem read_spec {entry : MachoReloc}
    {relocations after : List Relocation} (anchored : Anchored reader)
    (named : ∀ relocation ∈ relocations, Named reader.symbols relocation)
    (done : MachoReader.read sections addresses (reader, relocations) entry = .ok (next, after)) :
    Anchored next ∧ Grows reader next ∧ ∀ relocation ∈ after, Named next.symbols relocation := by
  simp only [MachoReader.read] at done
  split at done
  · cases done
    exact ⟨anchored, ⟨[], by simp⟩, named⟩
  · simp only [bind, Except.bind] at done
    split at done
    · cases done
    next found =>
      split at done
      · cases done
      next addend _ =>
        cases done
        obtain ⟨kept, grows, refers⟩ := symbolIndex_spec anchored found
        refine ⟨kept, grows, ?_⟩
        intro relocation present
        rcases List.mem_append.mp present with old | new
        · exact grows.named (named relocation old)
        · rw [List.mem_singleton] at new
          exact refers relocation (by rw [new]) (by rw [new])

theorem readSection_spec {entries : List MachoReloc}
    {relocations : List Relocation} (anchored : Anchored reader)
    (done : MachoReader.readSection sections addresses reader entries = .ok (next, relocations)) :
    Anchored next ∧ Grows reader next ∧ ∀ relocation ∈ relocations, Named next.symbols relocation := by
  have general : ∀ (entries : List MachoReloc) (start : MachoReader) (before : List Relocation), Anchored start →
      (∀ relocation ∈ before, Named start.symbols relocation) →
      entries.foldlM (MachoReader.read sections addresses) (start, before) = .ok (next, relocations) →
      Anchored next ∧ Grows start next ∧ ∀ relocation ∈ relocations, Named next.symbols relocation := by
    intro entries
    induction entries with
    | nil =>
      intro start before anchored named done
      cases done
      exact ⟨anchored, Grows.refl _, named⟩
    | cons entry rest ih =>
      intro start before anchored named done
      simp only [List.foldlM_cons, bind, Except.bind] at done
      split at done
      · cases done
      next state stepped =>
        obtain ⟨middle, between⟩ := state
        obtain ⟨kept, grows, named'⟩ := read_spec anchored named stepped
        obtain ⟨last, grows', all⟩ := ih middle between kept named' done
        exact ⟨last, grows.trans grows', all⟩
  exact general entries { reader with pendingAddend := 0 } [] anchored (by simp) done

theorem readAll_spec {patched : List MachoSection}
    {done : List LinkSection} (anchored : Anchored reader)
    (read : MachoReader.readAll sections addresses reader patched = .ok (next, done)) :
    Grows reader next ∧ ∀ owner ∈ done, ∀ relocation ∈ owner.relocations, Named next.symbols relocation := by
  induction patched generalizing reader next done with
  | nil =>
    cases read
    exact ⟨Grows.refl _, by simp⟩
  | cons first rest ih =>
    simp only [MachoReader.readAll, bind, Except.bind] at read
    split at read
    · cases read
    next state stepped =>
      obtain ⟨middle, relocations⟩ := state
      simp only at read
      split at read
      · cases read
      next final finished =>
        obtain ⟨last, others⟩ := final
        cases read
        obtain ⟨kept, grows, named⟩ := readSection_spec anchored stepped
        obtain ⟨grows', all⟩ := ih kept finished
        refine ⟨grows.trans grows', ?_⟩
        intro owner member
        rcases List.mem_cons.mp member with rfl | later
        · exact fun relocation present => grows'.named (named relocation present)
        · exact all owner later

theorem mapM_ok_mem {α β ε : Type} {parse : α → Except ε β} {entries : List α} {results : List β}
    (done : entries.mapM parse = .ok results) : ∀ result ∈ results, ∃ entry ∈ entries, parse entry = .ok result := by
  induction entries generalizing results with
  | nil =>
    cases done
    simp
  | cons entry rest ih =>
    simp only [List.mapM_cons, bind, Except.bind, pure, Except.pure] at done
    split at done
    · cases done
    next first parsed =>
      split at done
      · cases done
      next others finished =>
        cases done
        intro result member
        rcases List.mem_cons.mp member with rfl | later
        · exact ⟨entry, by simp, parsed⟩
        · obtain ⟨source, present, known⟩ := ih finished result later
          exact ⟨source, by simp [present], known⟩

theorem parseMacho_named {tables : MachoTables} {obj : LinkObject} (parsed : parseMacho tables = .ok obj) :
    ObjectNamed obj := by
  simp only [parseMacho, bind, Except.bind] at parsed
  split at parsed
  · cases parsed
  next symbols read =>
    split at parsed
    · cases parsed
    next state finished =>
      cases parsed
      have relative : ∀ symbol ∈ symbols, symbol.absolute = false := by
        intro symbol member
        obtain ⟨entry, _, known⟩ := mapM_ok_mem read symbol member
        exact parseNlist_relative known
      exact (readAll_spec (sectionAnchors_anchored relative 0) finished).2

end Macho

theorem load_named {input : Input} {obj : LinkObject} (loaded : input.load = .ok obj) : ObjectNamed obj := by
  cases input with
  | elf tables => exact parseElf_named loaded
  | macho tables => exact parseMacho_named loaded
  | structured sections symbols =>
    cases loaded
    intro owner member relocation present
    obtain ⟨original, _, rfl⟩ := List.mem_map.mp member
    obtain ⟨relocation, _, rfl⟩ := List.mem_map.mp present
    rfl

end Rue.Proofs.Linking
