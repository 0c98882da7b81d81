import Rue.Linking.Linker

/-! A linker session: objects and archive members are admitted one after another,
and each admission asks the caller whether it is canceled. -/

namespace Rue.Linking

inductive ObjectFormat where
  | elf
  | machO
  deriving DecidableEq

inductive AdmissionError where
  | link (error : LinkError)
  | archMismatch
  | canceled
  | archiveMemberParse

/-- An object as a file or the compiler hands it over. -/
structure InputObject where
  machine : ElfMachine
  format : ObjectFormat
  content : LinkObject

structure ArchiveMember where
  selected : Bool
  /-- The decoded member and how often decoding asked for cancellation. -/
  parsed : Except AdmissionError (InputObject × Nat)

def Target.machine : Target → ElfMachine
  | .x86_64Linux => .x86_64
  | .aarch64Linux | .aarch64Macos => .aarch64

def Target.isMacho (target : Target) : Bool := target = .aarch64Macos

def Target.format (target : Target) : ObjectFormat := if target.isMacho then .machO else .elf

/-- The answers of the caller's cancellation callback, in the order it is asked. -/
abbrev Cancellation := Nat → Bool

/-- One question to the caller; the result counts the questions so far. -/
def checkCancellation (cancellation : Cancellation) (polls : Nat) : Except AdmissionError Nat :=
  if cancellation polls then .error .canceled else .ok (polls + 1)

def validateDefinedSymbols (cancellation : Cancellation) (obj : LinkObject) :
    List Symbol → Nat → Except AdmissionError Nat
  | [], polls => .ok polls
  | symbol :: rest, polls =>
    match checkCancellation cancellation polls with
    | .error error => .error error
    | .ok polls =>
      match validateDefinedSymbol obj symbol with
      | .error error => .error (.link error)
      | .ok _ => validateDefinedSymbols cancellation obj rest polls

/-- The loop over an object's symbols, with the table as it stands where the loop ends. -/
def enterSymbols (cancellation : Cancellation) (objIndex : Nat) :
    List Symbol → Nat → (Name → Option (Nat × Symbol)) →
      Except AdmissionError Nat × (Name → Option (Nat × Symbol))
  | [], polls, table => (.ok polls, table)
  | symbol :: rest, polls, table =>
    match checkCancellation cancellation polls with
    | .error error => (.error error, table)
    | .ok polls =>
      match Linker.addSymbol objIndex table symbol with
      | .error error => (.error (.link error), table)
      | .ok next => enterSymbols cancellation objIndex rest polls next

structure Session where
  target : Target
  linker : Linker
  requiredSymbols : List Name

namespace Session

def new (target : Target) : Session := { target, linker := Linker.new, requiredSymbols := [] }

def parsedSymbolName (target : Target) (name : Name) : Name :=
  if target.isMacho then stripMachoUnderscore name else name

def requireSymbol (session : Session) (name : Name) : Session :=
  { session with requiredSymbols := session.requiredSymbols ++ [parsedSymbolName session.target name] }

def addLinkObject (cancellation : Cancellation) (session : Session) (obj : LinkObject) (polls : Nat) :
    Except AdmissionError Nat × Session :=
  match validateDefinedSymbols cancellation obj obj.symbols polls with
  | .error error => (.error error, session)
  | .ok polls =>
    let linker := session.linker
    match enterSymbols cancellation linker.objects.length obj.symbols polls linker.globalSymbols with
    | (.error error, table) => (.error error, { session with linker := { linker with globalSymbols := table } })
    | (.ok polls, table) =>
      (.ok polls, { session with linker := { globalSymbols := table, objects := linker.objects ++ [obj] } })

def checkObject (cancellation : Cancellation) (session : Session) (obj : InputObject) (polls : Nat) :
    Except AdmissionError Nat := do
  let polls ← checkCancellation cancellation polls
  if obj.machine ≠ session.target.machine then .error .archMismatch else .ok polls

def checkStructuredObject (cancellation : Cancellation) (session : Session) (obj : InputObject) (polls : Nat) :
    Except AdmissionError Nat := do
  let polls ← checkCancellation cancellation polls
  if obj.format ≠ session.target.format then .error .archMismatch
  else if obj.machine ≠ session.target.machine then .error .archMismatch
  else .ok polls

/-- Admit an object if its checks pass. -/
def admitChecked (cancellation : Cancellation) (session : Session) (obj : InputObject) (checked : Except AdmissionError Nat) :
    Except AdmissionError Nat × Session :=
  match checked with
  | .error error => (.error error, session)
  | .ok polls => session.addLinkObject cancellation obj.content polls

def addObject (cancellation : Cancellation) (session : Session) (obj : InputObject) (polls : Nat) :
    Except AdmissionError Nat × Session :=
  session.admitChecked cancellation obj (session.checkObject cancellation obj polls)

def addStructuredObject (cancellation : Cancellation) (session : Session) (obj : InputObject) (polls : Nat) :
    Except AdmissionError Nat × Session :=
  session.admitChecked cancellation obj (session.checkStructuredObject cancellation obj polls)

def addMember (cancellation : Cancellation) (session : Session) (member : ArchiveMember) (polls : Nat) :
    Except AdmissionError Nat × Session :=
  match checkCancellation cancellation polls with
  | .error error => (.error error, session)
  | .ok polls =>
    if !member.selected then (.ok polls, session)
    else
      match member.parsed with
      | .error error => (.error error, session)
      | .ok (obj, asked) => session.addObject cancellation obj (polls + asked)

def addMembers (cancellation : Cancellation) (session : Session) : List ArchiveMember → Nat →
    Except AdmissionError Nat × Session
  | [], polls => (.ok polls, session)
  | member :: rest, polls =>
    match session.addMember cancellation member polls with
    | (.error error, session) => (.error error, session)
    | (.ok polls, session) => session.addMembers cancellation rest polls

/-- Admit the selected members of an archive, unless the selection was canceled. -/
def addArchive (cancellation : Cancellation) (session : Session) (selection : Except AdmissionError Nat)
    (members : List ArchiveMember) : Except AdmissionError Nat × Session :=
  match selection with
  | .error error => (.error error, session)
  | .ok polls => session.addMembers cancellation members polls

end Session

inductive Request where
  | requireSymbol (name : Name)
  | addObject (cancellation : Cancellation) (obj : InputObject)
  | addStructuredObject (cancellation : Cancellation) (obj : InputObject)
  | addArchive (cancellation : Cancellation) (selection : Except AdmissionError Nat) (members : List ArchiveMember)

/-- The session after a request, whether it succeeded or not. -/
def Session.handle (session : Session) : Request → Session
  | .requireSymbol name => session.requireSymbol name
  | .addObject cancellation obj => (session.addObject cancellation obj 0).2
  | .addStructuredObject cancellation obj => (session.addStructuredObject cancellation obj 0).2
  | .addArchive cancellation selection members => (session.addArchive cancellation selection members).2

end Rue.Linking
