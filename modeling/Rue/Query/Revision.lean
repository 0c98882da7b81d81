import Rue.Lib.SortedMap

/-! The store of published revisions: immutable views of the input leaves, as
complete maps or as overlays over a parent's view, with their validation epochs. -/

namespace Rue.Query

open Lib

variable {Input : Type} [LinearOrder Input]

structure Revision where
  id : Nat
  compatibility : Nat
  deriving DecidableEq

/-- The view of a revision. Nodes are shared; a node's address tells it from others. -/
inductive RevisionInputs (Input : Type) [LinearOrder Input] where
  | full (address : Nat) (map : SortedMap Input Nat)
  | overlay (address : Nat) (parent : RevisionInputs Input) (delta : SortedMap Input Nat) (depth : Nat)

namespace RevisionInputs

def address : RevisionInputs Input → Nat
  | .full address _ => address
  | .overlay address _ _ _ => address

def stamp (input : Input) : RevisionInputs Input → Option Nat
  | .full _ map => map.find? input
  | .overlay _ parent delta _ => (delta.find? input).or (parent.stamp input)

def depth : RevisionInputs Input → Nat
  | .full _ _ => 0
  | .overlay _ _ _ depth => depth

def flatten : RevisionInputs Input → SortedMap Input Nat
  | .full _ map => map
  | .overlay _ parent delta _ => parent.flatten.insertAll delta

def ptrEq (first second : RevisionInputs Input) : Bool := first.address = second.address

end RevisionInputs

structure RevisionEntry (Input : Type) [LinearOrder Input] where
  revision : Revision
  inputs : RevisionInputs Input
  activeRequests : Nat
  epoch : Nat

structure EpochHead where
  epoch : Nat
  headId : Nat
  deriving DecidableEq

inductive RevisionError (Input : Type) where
  | alreadyPublished (revision : Revision)
  | conflictingInput (input : Input)
  | reservedInputStamp (input : Input)
  | retired (revision : Revision)
  | overlayParentUnavailable (parent : Revision)
  | incompatibleOverlayParent (parent : Revision)
  | nonMonotonicOverlay (revision : Revision)

structure RevisionStore (Input : Type) [LinearOrder Input] where
  entries : SortedMap Nat (RevisionEntry Input)
  retiredThrough : Nat
  nextEpoch : Nat
  epochHeads : SortedMap Nat EpochHead
  /-- The address of the next node. -/
  nextAddress : Nat

def revisionRetentionLimit : Nat := 64

def overlayCompactionDepth : Nat := 16

/-- The leaves of a publication, each with one nonzero stamp. -/
def collectInputs (inputs : List (Input × Nat)) : Except (RevisionError Input) (SortedMap Input Nat) :=
  inputs.foldlM (fun exact' (input, stamp) =>
    if stamp = 0 then .error (.reservedInputStamp input)
    else if (exact'.find? input).any (· ≠ stamp) then .error (.conflictingInput input)
    else .ok (exact'.insert input stamp)) .empty

namespace RevisionStore

def empty : RevisionStore Input where
  entries := .empty
  retiredThrough := 0
  nextEpoch := 1
  epochHeads := .empty
  nextAddress := 0

/-- The entry of exactly this revision. -/
def retained (store : RevisionStore Input) (revision : Revision) : Option (RevisionEntry Input) :=
  (store.entries.find? revision.id).filter fun entry => entry.revision = revision

def freshEpoch (store : RevisionStore Input) : Nat × RevisionStore Input :=
  (store.nextEpoch, { store with nextEpoch := store.nextEpoch + 1 })

def retire (store : RevisionStore Input) (id : Nat) : RevisionStore Input :=
  { store with entries := store.entries.erase id, retiredThrough := max store.retiredThrough id }

def unpinned (store : RevisionStore Input) : Option Nat :=
  (store.entries.entries.find? fun entry => entry.2.activeRequests = 0).map Prod.fst

/-- Retire the oldest revisions no request has pinned, down to the limit. Each
round takes one entry off, so as many rounds as there are entries are enough. -/
def retireRounds : Nat → RevisionStore Input → RevisionStore Input
  | 0, store => store
  | rounds + 1, store =>
    if store.entries.size ≤ revisionRetentionLimit then store
    else
      match store.unpinned with
      | none => store
      | some id => retireRounds rounds (store.retire id)

def enforceRevisionRetention (store : RevisionStore Input) : RevisionStore Input :=
  retireRounds store.entries.size store

/-- A new revision in an epoch, as the head of its namespace. -/
def insertRevision (store : RevisionStore Input) (revision : Revision) (inputs : RevisionInputs Input) (epoch : Nat) :
    RevisionStore Input :=
  let entry := { revision, inputs, activeRequests := 0, epoch : RevisionEntry Input }
  enforceRevisionRetention { store with
    epochHeads := store.epochHeads.insert revision.compatibility { epoch, headId := revision.id }
    entries := store.entries.insert revision.id entry
    nextAddress := store.nextAddress + 1 }

def publishRevision (store : RevisionStore Input) (revision : Revision) (inputs : List (Input × Nat)) :
    Except (RevisionError Input) Unit × RevisionStore Input :=
  match collectInputs inputs with
  | .error error => (.error error, store)
  | .ok inputs =>
    match store.entries.find? revision.id with
    | some previous =>
      if previous.revision = revision then
        match previous.inputs with
        | .full _ previousInputs =>
          if previousInputs.entries = inputs.entries then (.ok (), store)
          else (.error (.alreadyPublished revision), store)
        | .overlay .. => (.error (.alreadyPublished revision), store)
      else (.error (.alreadyPublished revision), store)
    | none =>
      if revision.id ≤ store.retiredThrough then (.error (.retired revision), store)
      else
        let (epoch, store) := store.freshEpoch
        (.ok (), store.insertRevision revision (.full store.nextAddress inputs) epoch)

/-- The parent is the head of its namespace and the delta only adds leaves. -/
def extendsHead (store : RevisionStore Input) (parent : Revision) (parentEntry : RevisionEntry Input)
    (delta : SortedMap Input Nat) : Bool :=
  (store.epochHeads.find? parent.compatibility).any (fun head =>
    head.epoch = parentEntry.epoch && head.headId = parent.id) &&
    delta.entries.all fun entry => (parentEntry.inputs.stamp entry.1).isNone

/-- An overlay over the parent's view, as one map where the chain is deep. -/
def overlayInputs (address : Nat) (parent : RevisionInputs Input) (delta : SortedMap Input Nat) :
    RevisionInputs Input :=
  if overlayCompactionDepth ≤ parent.depth then .full address (parent.flatten.insertAll delta)
  else .overlay address parent delta (parent.depth + 1)

def identicalInputs : RevisionInputs Input → RevisionInputs Input → Bool
  | .overlay _ previousParent previousDelta _, .overlay _ parent delta _ =>
    previousParent.ptrEq parent && previousDelta.entries = delta.entries
  | .full _ previousMap, .full _ map => previousMap.entries = map.entries
  | _, _ => false

def publishRevisionOverlay (store : RevisionStore Input) (revision parent : Revision) (delta : List (Input × Nat)) :
    Except (RevisionError Input) Unit × RevisionStore Input :=
  match collectInputs delta with
  | .error error => (.error error, store)
  | .ok delta =>
    match store.retained parent with
    | none => (.error (.overlayParentUnavailable parent), store)
    | some parentEntry =>
      if revision.compatibility ≠ parent.compatibility then (.error (.incompatibleOverlayParent parent), store)
      else if revision.id ≤ parent.id then (.error (.nonMonotonicOverlay revision), store)
      else
        let inputs := overlayInputs store.nextAddress parentEntry.inputs delta
        match store.entries.find? revision.id with
        | some previous =>
          if previous.revision = revision then
            if identicalInputs previous.inputs inputs then (.ok (), store)
            else (.error (.alreadyPublished revision), store)
          else (.error (.alreadyPublished revision), store)
        | none =>
          if revision.id ≤ store.retiredThrough then (.error (.retired revision), store)
          else if store.extendsHead parent parentEntry delta then
            (.ok (), store.insertRevision revision inputs parentEntry.epoch)
          else
            let (epoch, store) := store.freshEpoch
            (.ok (), store.insertRevision revision inputs epoch)

def setActive (store : RevisionStore Input) (entry : RevisionEntry Input) (activeRequests : Nat) :
    RevisionStore Input :=
  { store with entries := store.entries.insert entry.revision.id { entry with activeRequests } }

def pinRevision (store : RevisionStore Input) (revision : Revision) : Option (RevisionStore Input) :=
  (store.retained revision).map fun entry => store.setActive entry (entry.activeRequests + 1)

/-- The end of a lease; no result where its revision is not retained or has no
active request. -/
def releaseLease (store : RevisionStore Input) (revision : Revision) : Option (RevisionStore Input) :=
  match store.retained revision with
  | none => none
  | some entry =>
    if entry.activeRequests = 0 then none
    else some (store.setActive entry (entry.activeRequests - 1)).enforceRevisionRetention

end RevisionStore

structure RevisionSession (Input : Type) [LinearOrder Input] where
  store : RevisionStore Input
  leases : List Revision

inductive RevisionRequest (Input : Type) where
  | publishRevision (revision : Revision) (inputs : List (Input × Nat))
  | publishRevisionOverlay (revision parent : Revision) (delta : List (Input × Nat))
  | pinRevision (revision : Revision)
  | release (lease : Nat)

namespace RevisionSession

def start : RevisionSession Input := { store := .empty, leases := [] }

/-- One request; only the end of a lease that is held can go wrong. -/
def handle (session : RevisionSession Input) : RevisionRequest Input → Option (RevisionSession Input)
  | .publishRevision revision inputs =>
    some { session with store := (session.store.publishRevision revision inputs).2 }
  | .publishRevisionOverlay revision parent delta =>
    some { session with store := (session.store.publishRevisionOverlay revision parent delta).2 }
  | .pinRevision revision =>
    match session.store.pinRevision revision with
    | none => some session
    | some store => some { store, leases := session.leases ++ [revision] }
  | .release lease =>
    match session.leases[lease]? with
    | none => some session
    | some revision =>
      (session.store.releaseLease revision).map fun store => { store, leases := session.leases.eraseIdx lease }

def handleAll (session : RevisionSession Input) (requests : List (RevisionRequest Input)) :
    Option (RevisionSession Input) :=
  requests.foldlM handle session

end RevisionSession

end Rue.Query
