import Mathlib
import Rue.Linking.Admission
import Rue.Proofs.Linking.Definitions

/-! What a rejected or canceled object leaves behind in the table of definitions. -/

namespace Rue.Proofs.Linking
open Rue.Linking

abbrev Table := Name → Option (Nat × Symbol)

/-- Whether a symbol changes what the table holds, if it is not rejected. -/
def enters (table : Table) (symbol : Symbol) : Bool :=
  providesDefinition symbol &&
    match table symbol.name with
    | none => true
    | some (_, existing) =>
      if isReal existing then !isStrong existing && isStrong symbol
      else isReal symbol || decide (existing.size < symbol.size) ||
        decide (existing.common.getD 0 < symbol.common.getD 0)

def StrongIn (table : Table) (name : Name) : Prop := ∃ entry, table name = some entry ∧ isStrong entry.2 = true

/-! A definition that changes the table raises its name's standing. -/

def standing : Option (Nat × Symbol) → ℕ ×ₗ ℕ
  | none => toLex (0, 0)
  | some (_, symbol) =>
    if isReal symbol then toLex (if isStrong symbol then 3 else 2, 0)
    else toLex (1, symbol.size + symbol.common.getD 0)

theorem addSymbol_error {objIndex : Nat} {table : Table} {symbol : Symbol} :
    (∃ error, Linker.addSymbol objIndex table symbol = .error error) ↔
      strongDefinition symbol = true ∧ StrongIn table symbol.name := by
  cases provides : providesDefinition symbol with
  | false => simp [Linker.addSymbol, provides, strongDefinition]
  | true =>
    rw [addSymbol_eq provides, strongDefinition, provides, Bool.true_and]
    cases known : table symbol.name with
    | none => simp [StrongIn, known]
    | some existing =>
      have collide := @resolve_eq_none (objIndex, symbol) existing
      cases resolved : resolve existing (objIndex, symbol) with
      | none =>
        obtain ⟨old, new⟩ := collide.mp resolved
        simp only [resolved]
        exact ⟨fun _ => ⟨new, existing, known, old⟩, fun _ => ⟨_, rfl⟩⟩
      | some winner =>
        simp only [resolved]
        constructor
        · rintro ⟨_, failed⟩
          cases failed
        · rintro ⟨new, entry, same, old⟩
          rw [known] at same
          cases same
          rw [collide.mpr ⟨old, new⟩] at resolved
          cases resolved

theorem addSymbol_collides (objIndex : Nat) {table : Table} {symbol : Symbol}
    (collides : strongDefinition symbol = true ∧ StrongIn table symbol.name) :
    ∃ error, Linker.addSymbol objIndex table symbol = .error error := addSymbol_error.mpr collides

theorem isReal_of_isStrong {symbol : Symbol} (strong : isStrong symbol = true) : isReal symbol = true := by
  simp only [isStrong, Bool.and_eq_true] at strong
  exact strong.1

theorem resolve_cases {existing entry winner : Nat × Symbol} (resolved : resolve existing entry = some winner) :
    isReal existing.2 = true ∧ isStrong entry.2 = false ∧ winner = existing ∨
      isReal existing.2 = true ∧ isStrong existing.2 = false ∧ isStrong entry.2 = true ∧ winner = entry ∨
      isReal existing.2 = false ∧ isReal entry.2 = true ∧ winner = entry ∨
      isReal existing.2 = false ∧ isReal entry.2 = false ∧ winner = mergeTentative existing entry := by
  simp only [resolve] at resolved
  cases old : isReal existing.2 with
  | true =>
    simp only [old, if_true] at resolved
    cases strong : isStrong entry.2 with
    | false =>
      simp only [strong, Bool.and_false, Bool.false_eq_true, if_false] at resolved
      split at resolved <;> exact Or.inl ⟨rfl, rfl, by cases resolved; rfl⟩
    | true =>
      simp only [isReal_of_isStrong strong, Bool.not_true, Bool.false_eq_true, if_false, strong, Bool.and_true,
        if_true] at resolved
      split at resolved
      · cases resolved
      next weak =>
        cases resolved
        exact Or.inr (Or.inl ⟨rfl, by simpa using weak, rfl, rfl⟩)
  | false =>
    simp only [old, Bool.false_eq_true, if_false] at resolved
    split at resolved
    next real =>
      cases resolved
      exact Or.inr (Or.inr (Or.inl ⟨rfl, real, rfl⟩))
    next tentative =>
      cases resolved
      exact Or.inr (Or.inr (Or.inr ⟨rfl, by simpa using tentative, rfl⟩))

/-- A tentative definition that is neither larger nor stricter changes nothing. -/
theorem mergeTentative_eq {existing entry : Nat × Symbol} (tentative : isReal existing.2 = false) :
    mergeTentative existing entry = existing ↔
      ¬(existing.2.size < entry.2.size ∨ existing.2.common.getD 0 < entry.2.common.getD 0) := by
  obtain ⟨owner, symbol⟩ := existing
  have common : symbol.common.isSome = true := by
    simpa [isReal, Option.isSome_iff_ne_none, Option.isNone_iff_eq_none] using tentative
  obtain ⟨align, same⟩ := Option.isSome_iff_exists.mp common
  cases symbol
  simp only at same
  subst same
  simp only [mergeTentative, Option.getD_some, Prod.mk.injEq, Symbol.mk.injEq, true_and, Option.some.injEq]
  omega

theorem resolve_standing {existing entry winner : Nat × Symbol} (resolved : resolve existing entry = some winner) :
    winner = existing ∨ standing (some existing) < standing (some winner) := by
  rcases resolve_cases resolved with ⟨-, -, same⟩ | ⟨old, weak, strong, rfl⟩ | ⟨old, real, rfl⟩ | ⟨old, new, rfl⟩
  · exact Or.inl same
  · refine Or.inr ?_
    simp [standing, old, isReal_of_isStrong strong, strong, weak, Prod.Lex.toLex_lt_toLex]
  · refine Or.inr ?_
    simp only [standing, old, real, if_true, Bool.false_eq_true, if_false, Prod.Lex.toLex_lt_toLex]
    split <;> omega
  · by_cases kept : mergeTentative existing entry = existing
    · exact Or.inl kept
    · refine Or.inr ?_
      have larger := not_not.mp (mt (mergeTentative_eq old).mpr kept)
      have merged : isReal (mergeTentative existing entry).2 = false := rfl
      simp only [standing, old, merged, Bool.false_eq_true, if_false, Prod.Lex.toLex_lt_toLex]
      simp only [mergeTentative, Option.getD_some]
      refine Or.inr ⟨trivial, ?_⟩
      omega

theorem resolve_enters {table : Table} {existing winner : Nat × Symbol} {objIndex : Nat} {symbol : Symbol}
    (provides : providesDefinition symbol = true) (known : table symbol.name = some existing)
    (resolved : resolve existing (objIndex, symbol) = some winner) :
    winner = existing ↔ enters table symbol = false := by
  simp only [enters, provides, Bool.true_and, known]
  rcases resolve_cases resolved with ⟨old, weak, same⟩ | ⟨old, weak, strong, rfl⟩ | ⟨old, real, rfl⟩ | ⟨old, new, rfl⟩
  · simp only at weak
    simp [old, weak, same]
  · simp only at strong
    simp only [old, if_true, weak, Bool.not_false, strong, Bool.and_self, Bool.true_eq_false, iff_false]
    intro same
    rw [← same, strong] at weak
    cases weak
  · simp only at real
    simp only [old, Bool.false_eq_true, if_false, real, Bool.true_or, Bool.true_eq_false, iff_false]
    intro same
    rw [← same, real] at old
    cases old
  · simp only at new
    rw [mergeTentative_eq old]
    simp [old, new]

theorem resolve_strong {existing entry winner : Nat × Symbol} (resolved : resolve existing entry = some winner) :
    isStrong winner.2 = true ↔ isStrong existing.2 = true ∨ isStrong entry.2 = true := by
  rcases resolve_cases resolved with ⟨-, weak, rfl⟩ | ⟨-, weak, strong, rfl⟩ | ⟨old, real, rfl⟩ | ⟨old, new, rfl⟩
  · simp [weak]
  · simp [strong]
  · simp [isStrong, old]
  · have merged : isReal (mergeTentative existing entry).2 = false := rfl
    simp [isStrong, old, new, merged]

theorem addSymbol_table {objIndex : Nat} {table next : Table} {symbol : Symbol}
    (done : Linker.addSymbol objIndex table symbol = .ok next) :
    (∀ name, next name = table name ∨ standing (table name) < standing (next name)) ∧
      (next = table ↔ enters table symbol = false) ∧
      ∀ name, StrongIn next name ↔ StrongIn table name ∨ strongDefinition symbol = true ∧ symbol.name = name := by
  cases provides : providesDefinition symbol with
  | false =>
    simp only [Linker.addSymbol, provides, Bool.not_false, if_true, Except.ok.injEq] at done
    subst done
    refine ⟨fun name => Or.inl rfl, by simp [enters, provides], fun name => by simp [strongDefinition, provides]⟩
  | true =>
    rw [addSymbol_eq provides] at done
    cases known : table symbol.name with
    | none =>
      simp only [known, Except.ok.injEq] at done
      subst done
      refine ⟨fun name => ?_, ?_, fun name => ?_⟩
      · by_cases same : name = symbol.name
        · subst same
          refine Or.inr ?_
          simp only [known, if_true, standing]
          split
          · split <;> simp [Prod.Lex.toLex_lt_toLex]
          · simp [Prod.Lex.toLex_lt_toLex]
        · exact Or.inl (if_neg same)
      · simp only [enters, provides, known, Bool.and_self, Bool.true_eq_false, iff_false]
        intro same
        have absent := congrFun same symbol.name
        simp [known] at absent
      · by_cases same : symbol.name = name
        · subst same
          simp [StrongIn, known, strongDefinition, provides]
        · simp [StrongIn, same, Ne.symm same]
    | some existing =>
      cases resolved : resolve existing (objIndex, symbol) with
      | none => simp [known, resolved] at done
      | some winner =>
        simp only [known, resolved, Except.ok.injEq] at done
        subst done
        refine ⟨fun name => ?_, ?_, fun name => ?_⟩
        · by_cases same : name = symbol.name
          · subst same
            simp only [if_true, known, Option.some.injEq]
            exact resolve_standing resolved
          · exact Or.inl (if_neg same)
        · rw [← resolve_enters provides known resolved]
          constructor
          · intro same
            have at' := congrFun same symbol.name
            simpa [known] using at'
          · intro same
            funext name
            split
            next named => rw [named, known, same]
            next => rfl
        · by_cases same : symbol.name = name
          · subst same
            simp only [StrongIn, if_true, known, Option.some.injEq, exists_eq_left', strongDefinition, provides,
              Bool.true_and, and_true]
            exact resolve_strong resolved
          · simp [StrongIn, same, Ne.symm same]

/-- The loop stops at a symbol: the caller cancels it there, or its name already
has a strong definition. -/
def Stops (cancellation : Cancellation) (polls : Nat) (table : Table) (symbols : List Symbol) (index : Nat) : Prop :=
  ∃ symbol, symbols[index]? = some symbol ∧ (cancellation (polls + index) = true ∨
    strongDefinition symbol = true ∧ (StrongIn table symbol.name ∨
      ∃ earlier < index, ∃ other, symbols[earlier]? = some other ∧ strongDefinition other = true ∧
        other.name = symbol.name))

/-- No symbol before the one the loop stops at has a place in the table. -/
def EntersNothing (cancellation : Cancellation) (polls : Nat) (table : Table) (symbols : List Symbol) : Prop :=
  ∀ stop, Stops cancellation polls table symbols stop → (∀ earlier < stop, ¬Stops cancellation polls table symbols earlier) →
    ∀ index < stop, ∀ symbol, symbols[index]? = some symbol → enters table symbol = false

theorem stops_zero {cancellation : Cancellation} {polls : Nat} {table : Table} {symbol : Symbol} {rest : List Symbol} :
    Stops cancellation polls table (symbol :: rest) 0 ↔
      cancellation polls = true ∨ strongDefinition symbol = true ∧ StrongIn table symbol.name := by
  simp [Stops]

theorem stops_succ {cancellation : Cancellation} {polls index : Nat} {table next : Table} {symbol : Symbol}
    {rest : List Symbol}
    (strong : ∀ name, StrongIn next name ↔ StrongIn table name ∨ strongDefinition symbol = true ∧ symbol.name = name) :
    Stops cancellation polls table (symbol :: rest) (index + 1) ↔ Stops cancellation (polls + 1) next rest index := by
  have shift : polls + (index + 1) = polls + 1 + index := by omega
  have earlier (named : Symbol) : (∃ earlier < index + 1, ∃ other, (symbol :: rest)[earlier]? = some other ∧
      strongDefinition other = true ∧ other.name = named.name) ↔
      (strongDefinition symbol = true ∧ symbol.name = named.name) ∨
        ∃ earlier < index, ∃ other, rest[earlier]? = some other ∧ strongDefinition other = true ∧
          other.name = named.name := by
    constructor
    · intro ⟨earlier, before, other, known, facts⟩
      cases earlier with
      | zero =>
        simp only [List.getElem?_cons_zero, Option.some.injEq] at known
        subst known
        exact Or.inl facts
      | succ earlier => exact Or.inr ⟨earlier, by omega, other, by simpa using known, facts⟩
    · intro found
      rcases found with facts | ⟨earlier, before, other, known, facts⟩
      · exact ⟨0, by omega, symbol, rfl, facts⟩
      · exact ⟨earlier + 1, by omega, other, by simpa using known, facts⟩
  simp only [Stops, List.getElem?_cons_succ, shift, earlier, strong, or_assoc]

theorem enterSymbols_standing (cancellation : Cancellation) (objIndex : Nat) (symbols : List Symbol) (polls : Nat)
    (table : Table) (name : Name) :
    (enterSymbols cancellation objIndex symbols polls table).2 name = table name ∨
      standing (table name) < standing ((enterSymbols cancellation objIndex symbols polls table).2 name) := by
  induction symbols generalizing polls table with
  | nil => exact Or.inl rfl
  | cons symbol rest ih =>
    simp only [enterSymbols]
    cases checkCancellation cancellation polls with
    | error error => exact Or.inl rfl
    | ok polls =>
      simp only
      cases entered : Linker.addSymbol objIndex table symbol with
      | error error => exact Or.inl rfl
      | ok next =>
        simp only
        rcases ih polls next with same | more
        · rw [same]
          exact (addSymbol_table entered).1 name
        · rcases (addSymbol_table entered).1 name with same | less
          · rw [same] at more
            exact Or.inr more
          · exact Or.inr (less.trans more)

theorem first_stop {cancellation : Cancellation} {polls : Nat} {table : Table} {symbols : List Symbol}
    (stops : ∃ stop, Stops cancellation polls table symbols stop) : ∃ first, Stops cancellation polls table symbols first ∧
      ∀ earlier < first, ¬Stops cancellation polls table symbols earlier := by
  classical
  exact ⟨Nat.find stops, Nat.find_spec stops, fun earlier before => Nat.find_min stops before⟩

theorem entersNothing_cons {cancellation : Cancellation} {polls : Nat} {table : Table} {symbol : Symbol}
    {rest : List Symbol} (goes : ¬Stops cancellation polls table (symbol :: rest) 0)
    (strong : ∀ name, StrongIn table name ↔ StrongIn table name ∨ strongDefinition symbol = true ∧ symbol.name = name)
    (enter : enters table symbol = false) :
    EntersNothing cancellation polls table (symbol :: rest) ↔ EntersNothing cancellation (polls + 1) table rest := by
  constructor
  · intro nothing stop stops first index before other known
    refine nothing (stop + 1) ((stops_succ strong).mpr stops) (fun earlier less => ?_) (index + 1) (by omega) other
      (by simpa using known)
    cases earlier with
    | zero => exact goes
    | succ earlier => exact fun also => first earlier (by omega) ((stops_succ strong).mp also)
  · intro nothing stop stops first index before other known
    cases stop with
    | zero => exact absurd stops goes
    | succ stop =>
      cases index with
      | zero =>
        simp only [List.getElem?_cons_zero, Option.some.injEq] at known
        rw [← known, enter]
      | succ index =>
        exact nothing stop ((stops_succ strong).mp stops)
          (fun earlier less also => first (earlier + 1) (by omega) ((stops_succ strong).mpr also)) index (by omega) other
          (by simpa using known)

/-- The loop fails exactly where some symbol stops it, and the table is then the
one it began with exactly if no symbol before that one had a place in it. -/
theorem enterSymbols_error (cancellation : Cancellation) (objIndex : Nat) (symbols : List Symbol) (polls : Nat)
    (table : Table) :
    ((∃ error, (enterSymbols cancellation objIndex symbols polls table).1 = .error error) ↔
      ∃ stop, Stops cancellation polls table symbols stop) ∧
    ∀ error, (enterSymbols cancellation objIndex symbols polls table).1 = .error error →
      ((enterSymbols cancellation objIndex symbols polls table).2 = table ↔
        EntersNothing cancellation polls table symbols) := by
  induction symbols generalizing polls table with
  | nil => exact ⟨by simp [enterSymbols, Stops], fun error failed => by cases failed⟩
  | cons symbol rest ih =>
    have stopped (here : Stops cancellation polls table (symbol :: rest) 0) :
        EntersNothing cancellation polls table (symbol :: rest) := by
      intro stop _ first index before
      exact absurd here (first 0 (by omega))
    simp only [enterSymbols, checkCancellation]
    cases asked : cancellation polls with
    | true =>
      have here : Stops cancellation polls table (symbol :: rest) 0 := stops_zero.mpr (Or.inl asked)
      exact ⟨⟨fun _ => ⟨0, here⟩, fun _ => ⟨_, rfl⟩⟩, fun _ _ => ⟨fun _ => stopped here, fun _ => rfl⟩⟩
    | false =>
      simp only [Bool.false_eq_true, if_false]
      cases entered : Linker.addSymbol objIndex table symbol with
      | error error =>
        have here : Stops cancellation polls table (symbol :: rest) 0 :=
          stops_zero.mpr (Or.inr (addSymbol_error.mp ⟨error, entered⟩))
        exact ⟨⟨fun _ => ⟨0, here⟩, fun _ => ⟨_, rfl⟩⟩, fun _ _ => ⟨fun _ => stopped here, fun _ => rfl⟩⟩
      | ok next =>
        obtain ⟨-, same, strong⟩ := addSymbol_table entered
        obtain ⟨failing, unchanged⟩ := ih (polls + 1) next
        have goes : ¬Stops cancellation polls table (symbol :: rest) 0 := by
          rw [stops_zero, asked]
          intro stops
          rcases stops with canceled | collides
          · cases canceled
          · obtain ⟨_, failed⟩ := addSymbol_collides objIndex collides
            rw [entered] at failed
            cases failed
        simp only
        refine ⟨failing.trans ⟨fun ⟨stop, stops⟩ => ⟨stop + 1, (stops_succ strong).mpr stops⟩, fun ⟨stop, stops⟩ => ?_⟩,
          fun error failed => ?_⟩
        · cases stop with
          | zero => exact absurd stops goes
          | succ stop => exact ⟨stop, (stops_succ strong).mp stops⟩
        · cases enter : enters table symbol with
          | false =>
            obtain rfl := same.mpr enter
            rw [unchanged error failed]
            exact (entersNothing_cons goes strong enter).symm
          | true =>
            -- The table has moved on and cannot come back.
            refine ⟨fun back => ?_, fun nothing => ?_⟩
            · have moved : next ≠ table := fun equal => by
                rw [same.mp equal] at enter
                cases enter
              obtain ⟨name, different⟩ := Function.ne_iff.mp moved
              have raised := ((addSymbol_table entered).1 name).resolve_left different
              rcases enterSymbols_standing cancellation objIndex rest (polls + 1) next name with kept | more
              · rw [back] at kept
                exact absurd kept.symm different
              · rw [back] at more
                exact absurd (raised.trans more) (lt_irrefl _)
            · obtain ⟨stop, stops⟩ := failing.mp ⟨error, failed⟩
              have here := (stops_succ strong).mpr stops
              obtain ⟨first, least, before⟩ := first_stop ⟨_, here⟩
              have positive : 0 < first := by
                rcases Nat.eq_zero_or_pos first with zero | positive
                · rw [zero] at least
                  exact absurd least goes
                · exact positive
              rw [nothing first least before 0 positive symbol rfl] at enter
              cases enter

def LinkMeets (cancellation : Cancellation) (session : Session) (obj : LinkObject) (polls : Nat) : Prop :=
  ∀ validated, validateDefinedSymbols cancellation obj obj.symbols polls = .ok validated →
    EntersNothing cancellation validated session.linker.globalSymbols obj.symbols

/-- A checked object is admitted, or stops before any symbol that has a place in the table. -/
def AdmitMeets (cancellation : Cancellation) (session : Session) (obj : InputObject)
    (checked : Except AdmissionError Nat) : Prop :=
  ∀ polls, checked = .ok polls → LinkMeets cancellation session obj.content polls

def MemberMeets (cancellation : Cancellation) (session : Session) (member : ArchiveMember) (polls : Nat) : Prop :=
  ∀ asked, checkCancellation cancellation polls = .ok asked → member.selected = true →
    ∀ obj parsing, member.parsed = .ok (obj, parsing) →
      AdmitMeets cancellation session obj (session.checkObject cancellation obj (asked + parsing))

/-- An admission that fails leaves the session as it was. -/
def Unchanged (session : Session) (admitted : Except AdmissionError Nat × Session) : Prop :=
  ∀ error, admitted.1 = .error error → admitted.2 = session

theorem addLinkObject_unchanged (cancellation : Cancellation) (session : Session) (obj : LinkObject) (polls : Nat) :
    Unchanged session (session.addLinkObject cancellation obj polls) ↔ LinkMeets cancellation session obj polls := by
  simp only [Unchanged, LinkMeets, Session.addLinkObject]
  cases validateDefinedSymbols cancellation obj obj.symbols polls with
  | error error => simp
  | ok validated =>
    obtain ⟨failing, unchanged⟩ := enterSymbols_error cancellation session.linker.objects.length obj.symbols validated
      session.linker.globalSymbols
    simp only [Except.ok.injEq, forall_eq']
    cases entered : enterSymbols cancellation session.linker.objects.length obj.symbols validated
      session.linker.globalSymbols with
    | mk outcome table =>
      rw [entered] at failing unchanged
      cases outcome with
      | error error =>
        simp only [Except.error.injEq, forall_eq'] at unchanged ⊢
        rw [← unchanged]
        constructor
        · intro same
          exact congrArg (fun session => session.linker.globalSymbols) same
        · intro same
          rw [same]
      | ok polls =>
        simp only [reduceCtorEq, false_implies, implies_true, true_iff]
        intro stop stops
        obtain ⟨_, failed⟩ := failing.mpr ⟨stop, stops⟩
        cases failed

theorem admit_unchanged (cancellation : Cancellation) (session : Session) (obj : InputObject)
    (checked : Except AdmissionError Nat) :
    Unchanged session (session.admitChecked cancellation obj checked) ↔ AdmitMeets cancellation session obj checked := by
  cases checked with
  | error error => simp [Unchanged, AdmitMeets, Session.admitChecked]
  | ok polls =>
    simp only [AdmitMeets, Session.admitChecked, Except.ok.injEq, forall_eq']
    exact addLinkObject_unchanged cancellation session obj.content polls

theorem addMember_unchanged (cancellation : Cancellation) (session : Session) (member : ArchiveMember) (polls : Nat) :
    Unchanged session (session.addMember cancellation member polls) ↔ MemberMeets cancellation session member polls := by
  simp only [MemberMeets, Session.addMember]
  cases checkCancellation cancellation polls with
  | error error => simp [Unchanged]
  | ok asked =>
    simp only [Except.ok.injEq, forall_eq']
    cases member.selected with
    | false => simp [Unchanged]
    | true =>
      simp only [Bool.not_true, Bool.false_eq_true, if_false, forall_const]
      cases member.parsed with
      | error error => simp [Unchanged]
      | ok decoded =>
        obtain ⟨obj, parsing⟩ := decoded
        simp only [Except.ok.injEq, Prod.mk.injEq, Session.addObject]
        rw [admit_unchanged]
        constructor
        · intro meets other asked' same
          obtain ⟨rfl, rfl⟩ := same
          exact meets
        · intro meets
          exact meets obj parsing ⟨rfl, rfl⟩

/-- An entry is a definition of its object; a tentative one may have grown since. -/
def Backs (objects : List LinkObject) (name : Name) (entry : Nat × Symbol) : Prop :=
  ∃ obj own, objects[entry.1]? = some obj ∧ own ∈ obj.symbols ∧ providesDefinition own = true ∧ own.name = name ∧
    entry.2 = { own with size := entry.2.size, common := entry.2.common } ∧
    entry.2.common.isSome = own.common.isSome ∧ (own.common = none → entry.2 = own)

def EntriesBacked (linker : Linker) : Prop :=
  ∀ name entry, linker.globalSymbols name = some entry → Backs linker.objects name entry

theorem backs_append {objects : List LinkObject} {name : Name} {entry : Nat × Symbol} (backs : Backs objects name entry)
    (obj : LinkObject) : Backs (objects ++ [obj]) name entry := by
  obtain ⟨owner, own, known, facts⟩ := backs
  have inside := (List.getElem?_eq_some_iff.mp known).1
  exact ⟨owner, own, by rw [List.getElem?_append_left inside, known], facts⟩

theorem backs_merge {objects : List LinkObject} {name : Name} {entry : Nat × Symbol} (backs : Backs objects name entry)
    (tentative : isReal entry.2 = false) (other : Nat × Symbol) : Backs objects name (mergeTentative entry other) := by
  obtain ⟨owner, own, known, member, provides, named, same, common, -⟩ := backs
  have some' : own.common.isSome = true := by
    rw [← common]
    simpa [isReal, Option.isSome_iff_ne_none, Option.isNone_iff_eq_none] using tentative
  refine ⟨owner, own, known, member, provides, named, ?_, ?_, fun none => ?_⟩
  · simp only [mergeTentative]
    rw [same]
  · simp [mergeTentative, some']
  · rw [none] at some'
    cases some'

/-- A symbol of the object being admitted keeps every entry backed. -/
theorem addSymbol_backs {objects : List LinkObject} {obj : LinkObject} {table next : Table} {symbol : Symbol}
    (backed : ∀ name entry, table name = some entry → Backs (objects ++ [obj]) name entry) (member : symbol ∈ obj.symbols)
    (done : Linker.addSymbol objects.length table symbol = .ok next) :
    ∀ name entry, next name = some entry → Backs (objects ++ [obj]) name entry := by
  intro name entry found
  cases provides : providesDefinition symbol with
  | false =>
    simp only [Linker.addSymbol, provides, Bool.not_false, if_true, Except.ok.injEq] at done
    subst done
    exact backed name entry found
  | true =>
    have own : Backs (objects ++ [obj]) symbol.name (objects.length, symbol) :=
      ⟨obj, symbol, by simp, member, provides, rfl, rfl, rfl, fun _ => rfl⟩
    rw [addSymbol_eq provides] at done
    cases known : table symbol.name with
    | none =>
      simp only [known, Except.ok.injEq] at done
      subst done
      simp only at found
      split at found
      next same =>
        cases found
        rw [same]
        exact own
      next => exact backed name entry found
    | some existing =>
      cases resolved : resolve existing (objects.length, symbol) with
      | none => simp [known, resolved] at done
      | some winner =>
        simp only [known, resolved, Except.ok.injEq] at done
        subst done
        simp only at found
        split at found
        next same =>
          cases found
          rw [same]
          rcases resolve_cases resolved with ⟨-, -, rfl⟩ | ⟨-, -, -, rfl⟩ | ⟨-, -, rfl⟩ | ⟨old, -, rfl⟩
          · exact backed _ _ known
          · exact own
          · exact own
          · exact backs_merge (backed _ _ known) old _
        next => exact backed name entry found

theorem enterSymbols_backs (cancellation : Cancellation) {objects : List LinkObject} {obj : LinkObject}
    (symbols : List Symbol) (polls : Nat) {table : Table} (inside : ∀ symbol ∈ symbols, symbol ∈ obj.symbols)
    (backed : ∀ name entry, table name = some entry → Backs (objects ++ [obj]) name entry) :
    ∀ name entry, (enterSymbols cancellation objects.length symbols polls table).2 name = some entry →
      Backs (objects ++ [obj]) name entry := by
  induction symbols generalizing polls table with
  | nil => exact backed
  | cons symbol rest ih =>
    simp only [enterSymbols]
    cases checkCancellation cancellation polls with
    | error error => exact backed
    | ok polls =>
      cases entered : Linker.addSymbol objects.length table symbol with
      | error error => exact backed
      | ok next =>
        exact ih polls (fun other member => inside other (List.mem_cons_of_mem _ member))
          (addSymbol_backs backed (inside symbol (by simp)) entered)

theorem addLinkObject_backed {cancellation : Cancellation} {session : Session} {obj : LinkObject} {polls : Nat}
    (meets : LinkMeets cancellation session obj polls) (backed : EntriesBacked session.linker) :
    EntriesBacked (session.addLinkObject cancellation obj polls).2.linker := by
  have unchanged := (addLinkObject_unchanged cancellation session obj polls).mpr meets
  cases outcome : (session.addLinkObject cancellation obj polls).1 with
  | error error =>
    rw [unchanged error outcome]
    exact backed
  | ok after =>
    simp only [Session.addLinkObject] at outcome ⊢
    cases validated : validateDefinedSymbols cancellation obj obj.symbols polls with
    | error error =>
      rw [validated] at outcome
      cases outcome
    | ok asked =>
      have backs := enterSymbols_backs cancellation obj.symbols asked
        (fun symbol member => member) fun name entry found => backs_append (backed name entry found) obj
      rw [validated] at outcome
      simp only at outcome ⊢
      cases entered : enterSymbols cancellation session.linker.objects.length obj.symbols asked
        session.linker.globalSymbols with
      | mk result table =>
        rw [entered] at outcome backs
        cases result with
        | error error => cases outcome
        | ok polls => exact backs

theorem admit_backed {cancellation : Cancellation} {session : Session} {obj : InputObject}
    {checked : Except AdmissionError Nat} (meets : AdmitMeets cancellation session obj checked)
    (backed : EntriesBacked session.linker) : EntriesBacked (session.admitChecked cancellation obj checked).2.linker := by
  cases checked with
  | error error => exact backed
  | ok polls => exact addLinkObject_backed (meets polls rfl) backed

theorem addMember_backed {cancellation : Cancellation} {session : Session} {member : ArchiveMember} {polls : Nat}
    (meets : MemberMeets cancellation session member polls) (backed : EntriesBacked session.linker) :
    EntriesBacked (session.addMember cancellation member polls).2.linker := by
  simp only [Session.addMember]
  cases asked : checkCancellation cancellation polls with
  | error error => exact backed
  | ok polls =>
    cases selected : member.selected with
    | false => exact backed
    | true =>
      cases decoded : member.parsed with
      | error error => exact backed
      | ok decoded' =>
        obtain ⟨obj, parsing⟩ := decoded'
        exact admit_backed (meets polls asked selected obj parsing decoded) backed

/-- Every member the archive's loop comes to meets the condition. -/
def MembersMeet (cancellation : Cancellation) (session : Session) : List ArchiveMember → Nat → Prop
  | [], _ => True
  | member :: rest, polls => MemberMeets cancellation session member polls ∧
    ∀ asked, (session.addMember cancellation member polls).1 = .ok asked →
      MembersMeet cancellation (session.addMember cancellation member polls).2 rest asked

theorem addMembers_backed {cancellation : Cancellation} {session : Session} (members : List ArchiveMember) {polls : Nat}
    (meets : MembersMeet cancellation session members polls) (backed : EntriesBacked session.linker) :
    EntriesBacked (session.addMembers cancellation members polls).2.linker := by
  induction members generalizing session polls with
  | nil => exact backed
  | cons member rest ih =>
    obtain ⟨here, later⟩ := meets
    have next := addMember_backed here backed
    simp only [Session.addMembers]
    cases outcome : session.addMember cancellation member polls with
    | mk result after =>
      rw [outcome] at next later
      cases result with
      | error error => exact next
      | ok asked => exact ih (later asked rfl) next

def RequestMeets (session : Session) : Request → Prop
  | .requireSymbol _ => True
  | .addObject cancellation obj => AdmitMeets cancellation session obj (session.checkObject cancellation obj 0)
  | .addStructuredObject cancellation obj =>
    AdmitMeets cancellation session obj (session.checkStructuredObject cancellation obj 0)
  | .addArchive cancellation selection members =>
    ∀ polls, selection = .ok polls → MembersMeet cancellation session members polls

def RequestsMeet (session : Session) : List Request → Prop
  | [] => True
  | request :: rest => RequestMeets session request ∧ RequestsMeet (session.handle request) rest

theorem handle_backed {session : Session} {request : Request} (meets : RequestMeets session request)
    (backed : EntriesBacked session.linker) : EntriesBacked (session.handle request).linker := by
  cases request with
  | requireSymbol name => exact backed
  | addObject cancellation obj => exact admit_backed meets backed
  | addStructuredObject cancellation obj => exact admit_backed meets backed
  | addArchive cancellation selection members =>
    simp only [Session.handle, Session.addArchive]
    cases selection with
    | error error => exact backed
    | ok polls => exact addMembers_backed members (meets polls rfl) backed

/-- Requests that meet the condition keep every entry of the table backed. -/
theorem requests_backed (requests : List Request) {session : Session} (meets : RequestsMeet session requests)
    (backed : EntriesBacked session.linker) : EntriesBacked (requests.foldl Session.handle session).linker := by
  induction requests generalizing session with
  | nil => exact backed
  | cons request rest ih => exact ih meets.2 (handle_backed meets.1 backed)

/-- A failed admission leaves the session as it was exactly if no symbol before
the one it stopped at has a place in the table; where that is so throughout, every
entry of the table is a definition of an admitted object. -/
theorem failed_admission_unchanged (cancellation : Cancellation) (session : Session) (obj : InputObject)
    (member : ArchiveMember) (polls : Nat) (target : Target) (requests : List Request) :
    (Unchanged session (session.addObject cancellation obj polls) ↔
      AdmitMeets cancellation session obj (session.checkObject cancellation obj polls)) ∧
    (Unchanged session (session.addStructuredObject cancellation obj polls) ↔
      AdmitMeets cancellation session obj (session.checkStructuredObject cancellation obj polls)) ∧
    (Unchanged session (session.addMember cancellation member polls) ↔
      MemberMeets cancellation session member polls) ∧
    (RequestsMeet (Session.new target) requests →
      EntriesBacked (requests.foldl Session.handle (Session.new target)).linker) :=
  ⟨admit_unchanged cancellation session obj _, admit_unchanged cancellation session obj _,
    addMember_unchanged cancellation session member polls,
    fun meets => requests_backed requests meets fun name entry found => by cases found⟩

def strongSymbol (name : Name) : Symbol where
  name := name
  sectionIndex := none
  absolute := true
  value := 0
  size := 0
  binding := .globalBinding
  common := none

def declaringObject (names : List Name) : InputObject where
  machine := .x86_64
  format := .elf
  content := declaring (names.map strongSymbol)

def uncanceled (objects : List (List Name)) : List Request :=
  objects.map fun names => .addObject (fun _ => false) (declaringObject names)

theorem failed_admission_single : EntriesBacked ((uncanceled [[['m']]]).foldl Session.handle (Session.new .x86_64Linux)).linker := by
  apply (failed_admission_unchanged (fun _ => false) (Session.new .x86_64Linux) (declaringObject [])
    { selected := false, parsed := .error .canceled } 0 .x86_64Linux (uncanceled [[['m']]])).2.2.2
  refine ⟨fun polls _ validated _ stop ⟨symbol, known, _⟩ _ index before => ?_, trivial⟩
  have inside := (List.getElem?_eq_some_iff.mp known).1
  simp only [declaringObject, declaring, List.map_cons, List.map_nil, List.length_singleton] at inside
  omega

/-- The second object defines a fresh name and then one that is taken. It is
rejected, but the fresh name stays in the table, and the third object, which does
not define it, takes the index its entry has. -/
theorem rejected_object_leaks :
    let before := (uncanceled [[['m']]]).foldl Session.handle (Session.new .x86_64Linux)
    let rejected := before.addObject (fun _ => false) (declaringObject [['f'], ['m']]) 0
    rejected.1 = .error (.link (.duplicateSymbol ['m'])) ∧
      before.linker.globalSymbols ['f'] = none ∧
      rejected.2.linker.globalSymbols ['f'] = some (1, strongSymbol ['f']) ∧
      let after := ((uncanceled [[['g']]]).foldl Session.handle rejected.2).linker
      after.globalSymbols ['f'] = some (1, strongSymbol ['f']) ∧
        after.objects.map LinkObject.symbols = [[strongSymbol ['m']], [strongSymbol ['g']]] := by
  refine ⟨rfl, rfl, ?_, ?_, ?_⟩
  · decide
  · decide
  · decide

end Rue.Proofs.Linking
