import Mathlib.Data.List.Perm.Basic
import Rue.Query.Revision

/-! Every reachable store of revisions: same-epoch revisions only add leaves,
views never change while they are retained, and pinned revisions stay. -/

namespace Rue.Proofs.Revision
open Rue.Lib Rue.Query

variable {Input : Type} [LinearOrder Input]

theorem stamp_flatten (inputs : RevisionInputs Input) (input : Input) :
    inputs.flatten.find? input = inputs.stamp input := by
  induction inputs with
  | full address map => rfl
  | overlay address parent delta depth ih => simp only [RevisionInputs.flatten, SortedMap.find?_insertAll, ih,
      RevisionInputs.stamp]

theorem stamp_overlayInputs (address : Nat) (parent : RevisionInputs Input) (delta : SortedMap Input Nat)
    (input : Input) :
    (RevisionStore.overlayInputs address parent delta).stamp input = (delta.find? input).or (parent.stamp input) := by
  simp only [RevisionStore.overlayInputs]
  split
  · simp only [RevisionInputs.stamp, SortedMap.find?_insertAll, stamp_flatten]
  · rfl

/-- A node and the nodes of its ancestors. -/
def nodes : RevisionInputs Input → List (RevisionInputs Input)
  | .full address map => [.full address map]
  | .overlay address parent delta depth => .overlay address parent delta depth :: nodes parent

theorem self_mem_nodes (inputs : RevisionInputs Input) : inputs ∈ nodes inputs := by
  cases inputs <;> simp [nodes]

theorem nodes_overlayInputs {address : Nat} {parent node : RevisionInputs Input} {delta : SortedMap Input Nat}
    (member : node ∈ nodes (RevisionStore.overlayInputs address parent delta)) :
    node = RevisionStore.overlayInputs address parent delta ∨ node ∈ nodes parent := by
  simp only [RevisionStore.overlayInputs] at member ⊢
  split at member
  next deep =>
    rw [if_pos deep]
    exact Or.inl (List.mem_singleton.mp member)
  next shallow =>
    rw [if_neg shallow]
    exact List.mem_cons.mp member

/-- Of two revisions of one namespace and epoch, the later has every leaf of the earlier. -/
def Additive (store : RevisionStore Input) : Prop :=
  ∀ id entry later after, store.entries.find? id = some entry → store.entries.find? later = some after →
    entry.revision.compatibility = after.revision.compatibility → entry.epoch = after.epoch → id < later →
    ∀ input stamp, entry.inputs.stamp input = some stamp → after.inputs.stamp input = some stamp

structure Views (store : RevisionStore Input) : Prop where
  keyed : ∀ id entry, store.entries.find? id = some entry → entry.revision.id = id
  epochs : ∀ id entry, store.entries.find? id = some entry → entry.epoch < store.nextEpoch
  newest : ∀ id entry head, store.entries.find? id = some entry →
    store.epochHeads.find? entry.revision.compatibility = some head → head.epoch = entry.epoch → id ≤ head.headId
  additive : Additive store
  allocated : ∀ id entry, store.entries.find? id = some entry → ∀ node ∈ nodes entry.inputs, node.address < store.nextAddress
  shared : ∀ id entry other after, store.entries.find? id = some entry → store.entries.find? other = some after →
    ∀ node ∈ nodes entry.inputs, ∀ same ∈ nodes after.inputs, node.address = same.address → node = same

structure Leased (store : RevisionStore Input) (leases : List Revision) : Prop where
  counted : ∀ id entry, store.entries.find? id = some entry → entry.activeRequests = leases.count entry.revision
  held : ∀ lease ∈ leases, ∃ entry, store.retained lease = some entry

/-- What any request leaves of the retained revisions. -/
structure Follows (store after : RevisionStore Input) : Prop where
  watermark : store.retiredThrough ≤ after.retiredThrough
  absent : ∀ id, id ≤ store.retiredThrough → store.entries.find? id = none → after.entries.find? id = none
  kept : ∀ id entry, store.entries.find? id = some entry →
    (∃ later, after.entries.find? id = some later ∧ later.revision = entry.revision ∧ later.inputs = entry.inputs ∧
      later.epoch = entry.epoch) ∨ after.entries.find? id = none ∧ id ≤ after.retiredThrough

variable {store : RevisionStore Input} {revision : Revision} {entry : RevisionEntry Input}

theorem retained_eq :
    store.retained revision = some entry ↔
      store.entries.find? revision.id = some entry ∧ entry.revision = revision := by
  simp [RevisionStore.retained, Option.filter_eq_some_iff]

theorem Follows.refl (store : RevisionStore Input) : Follows store store :=
  ⟨Nat.le_refl _, fun _ _ absent => absent, fun _ entry known => Or.inl ⟨entry, known, rfl, rfl, rfl⟩⟩

theorem Follows.trans {first second third : RevisionStore Input} (early : Follows first second)
    (late : Follows second third) : Follows first third := by
  refine ⟨Nat.le_trans early.watermark late.watermark, fun id old absent => ?_, fun id entry known => ?_⟩
  · exact late.absent id (Nat.le_trans old early.watermark) (early.absent id old absent)
  · rcases early.kept id entry known with ⟨middle, found, revision, inputs, epoch⟩ | ⟨gone, old⟩
    · rcases late.kept id middle found with ⟨last, also, revision', inputs', epoch'⟩ | ⟨gone, old⟩
      · exact Or.inl ⟨last, also, revision'.trans revision, inputs'.trans inputs, epoch'.trans epoch⟩
      · exact Or.inr ⟨gone, old⟩
    · exact Or.inr ⟨late.absent id old gone, Nat.le_trans old late.watermark⟩

/-- Taking entries off, or changing how often they are pinned, keeps the views. -/
theorem Views.restrict {after : RevisionStore Input} (views : Views store)
    (known : ∀ id entry, after.entries.find? id = some entry → ∃ before, store.entries.find? id = some before ∧
      entry.revision = before.revision ∧ entry.inputs = before.inputs ∧ entry.epoch = before.epoch)
    (heads : after.epochHeads = store.epochHeads) (nextEpoch : after.nextEpoch = store.nextEpoch)
    (nextAddress : after.nextAddress = store.nextAddress) : Views after := by
  refine ⟨fun id entry found => ?_, fun id entry found => ?_, fun id entry head found first same => ?_,
    fun id entry later last found also namespace' epoch less input stamp has => ?_, fun id entry found node member => ?_,
    fun id entry other last found also node member same alsoMember equal => ?_⟩
  · obtain ⟨before, old, revision, -, -⟩ := known id entry found
    rw [revision]
    exact views.keyed id before old
  · obtain ⟨before, old, -, -, epoch⟩ := known id entry found
    rw [epoch, nextEpoch]
    exact views.epochs id before old
  · obtain ⟨before, old, revision, -, epoch⟩ := known id entry found
    rw [revision, heads] at first
    exact views.newest id before head old first (same.trans epoch)
  · obtain ⟨before, old, revision, inputs, epoch'⟩ := known id entry found
    obtain ⟨before', old', revision', inputs', epoch''⟩ := known later last also
    rw [inputs']
    rw [inputs] at has
    exact views.additive id before later before' old old' (by rw [← revision, ← revision', namespace'])
      (by rw [← epoch', ← epoch'', epoch]) less input stamp has
  · obtain ⟨before, old, -, inputs, -⟩ := known id entry found
    rw [nextAddress]
    exact views.allocated id before old node (inputs ▸ member)
  · obtain ⟨before, old, -, inputs, -⟩ := known id entry found
    obtain ⟨before', old', -, inputs', -⟩ := known other last also
    exact views.shared id before other before' old old' node (inputs ▸ member) same (inputs' ▸ alsoMember) equal

variable {id epoch : Nat}

theorem find?_retire {query : Nat}
    (found : (store.retire id).entries.find? query = some entry) :
    query ≠ id ∧ store.entries.find? query = some entry := by
  simp only [RevisionStore.retire, SortedMap.find?_erase] at found
  split at found
  · cases found
  next different => exact ⟨different, found⟩

theorem retire_views (views : Views store) (id : Nat) : Views (store.retire id) :=
  views.restrict (fun _ entry found => ⟨entry, (find?_retire found).2, rfl, rfl, rfl⟩) rfl rfl rfl

variable {leases : List Revision}

theorem retire_leased
    (leased : Leased store leases) (known : store.entries.find? id = some entry) (unpinned : entry.activeRequests = 0) :
    Leased (store.retire id) leases := by
  refine ⟨fun query other found => leased.counted query other (find?_retire found).2, fun lease member => ?_⟩
  obtain ⟨held, found⟩ := leased.held lease member
  obtain ⟨present, same⟩ := retained_eq.mp found
  have different : lease.id ≠ id := by
    intro equal
    rw [equal, known] at present
    cases present
    have counted := leased.counted id entry known
    rw [same, unpinned] at counted
    exact absurd (List.count_pos_iff.mpr member) (by omega)
  refine ⟨held, retained_eq.mpr ⟨?_, same⟩⟩
  simp only [RevisionStore.retire, SortedMap.find?_erase, if_neg different]
  exact present

theorem retire_follows (store : RevisionStore Input) (id : Nat) : Follows store (store.retire id) := by
  refine ⟨Nat.le_max_left _ _, fun query _ absent => ?_, fun query entry known => ?_⟩
  · simp only [RevisionStore.retire, SortedMap.find?_erase, absent]
    split <;> rfl
  · simp only [RevisionStore.retire, SortedMap.find?_erase]
    split
    next same => exact Or.inr ⟨rfl, same ▸ Nat.le_max_right _ _⟩
    next => exact Or.inl ⟨entry, known, rfl, rfl, rfl⟩

/-- What every retirement of an unpinned revision keeps, the retention keeps. -/
theorem retention_keeps (kept : RevisionStore Input → Prop) (store : RevisionStore Input)
    (step : ∀ store id entry, kept store → store.entries.find? id = some entry → entry.activeRequests = 0 →
      kept (store.retire id)) (holds : kept store) : kept store.enforceRevisionRetention := by
  have rounds (count : Nat) (store : RevisionStore Input) (holds : kept store) :
      kept (RevisionStore.retireRounds count store) := by
    induction count generalizing store with
    | zero => exact holds
    | succ count ih =>
      simp only [RevisionStore.retireRounds]
      split
      · exact holds
      · split
        · exact holds
        next id oldest =>
          obtain ⟨entry, first, rfl⟩ := Option.map_eq_some_iff.mp oldest
          have unpinned : entry.2.activeRequests = 0 := by simpa using List.find?_some first
          exact ih _ (step store entry.1 entry.2 holds
            (SortedMap.mem_entries.mp (List.mem_of_find?_eq_some first)) unpinned)
  exact rounds _ store holds

/-- The store with a new revision, before retention. -/
def place (store : RevisionStore Input) (revision : Revision) (inputs : RevisionInputs Input) (epoch : Nat) :
    RevisionStore Input where
  entries := store.entries.insert revision.id { revision, inputs, activeRequests := 0, epoch }
  retiredThrough := store.retiredThrough
  nextEpoch := store.nextEpoch
  epochHeads := store.epochHeads.insert revision.compatibility { epoch, headId := revision.id }
  nextAddress := store.nextAddress + 1

theorem insertRevision_eq (store : RevisionStore Input) (revision : Revision) (inputs : RevisionInputs Input)
    (epoch : Nat) :
    store.insertRevision revision inputs epoch = (place store revision inputs epoch).enforceRevisionRetention := rfl

/-- What makes a new revision fit its store: its identity is unused, its node is
new over nodes in use, and it has every leaf of the revisions of its epoch. -/
structure Fits (store : RevisionStore Input) (revision : Revision) (inputs : RevisionInputs Input) (epoch : Nat) :
    Prop where
  unused : store.entries.find? revision.id = none
  later : store.retiredThrough < revision.id
  known : epoch < store.nextEpoch
  new : inputs.address = store.nextAddress
  parents : ∀ node ∈ nodes inputs, node = inputs ∨ ∃ id entry, store.entries.find? id = some entry ∧ node ∈ nodes entry.inputs
  joins : ∀ id entry, store.entries.find? id = some entry → entry.revision.compatibility = revision.compatibility →
    entry.epoch = epoch → id < revision.id ∧
      ∀ input stamp, entry.inputs.stamp input = some stamp → inputs.stamp input = some stamp

variable {inputs : RevisionInputs Input}

theorem find?_place
   
    (found : (place store revision inputs epoch).entries.find? id = some entry) :
    id = revision.id ∧ entry = { revision, inputs, activeRequests := 0, epoch } ∨
      id ≠ revision.id ∧ store.entries.find? id = some entry := by
  simp only [place, SortedMap.find?_insert] at found
  split at found
  next same =>
    cases found
    exact Or.inl ⟨same, rfl⟩
  next different => exact Or.inr ⟨different, found⟩

theorem place_views
    (views : Views store) (fits : Fits store revision inputs epoch) : Views (place store revision inputs epoch) := by
  -- A node of the new revision is the new node or one that is in use.
  have olderAddress (node : RevisionInputs Input) (member : node ∈ nodes inputs) : node = inputs ∨
      node.address < store.nextAddress := by
    rcases fits.parents node member with same | ⟨id, entry, known, inside⟩
    · exact Or.inl same
    · exact Or.inr (views.allocated id entry known node inside)
  refine ⟨fun id entry found => ?_, fun id entry found => ?_, fun id entry head found first same => ?_,
    fun id entry later last found also namespace' same less input stamp has => ?_, fun id entry found node member => ?_,
    fun id entry other last found also node member same alsoMember equal => ?_⟩
  · rcases find?_place found with ⟨rfl, rfl⟩ | ⟨-, known⟩
    · rfl
    · exact views.keyed id entry known
  · rcases find?_place found with ⟨rfl, rfl⟩ | ⟨-, known⟩
    · exact fits.known
    · exact views.epochs id entry known
  · simp only [place, SortedMap.find?_insert] at first
    rcases find?_place found with ⟨rfl, rfl⟩ | ⟨-, known⟩
    · rw [if_pos rfl] at first
      cases first
      exact Nat.le_refl _
    · split at first
      next named =>
        cases first
        exact Nat.le_of_lt (fits.joins id entry known named same.symm).1
      next => exact views.newest id entry head known first same
  · rcases find?_place found with ⟨rfl, rfl⟩ | ⟨-, known⟩
    · rcases find?_place also with ⟨rfl, rfl⟩ | ⟨-, known⟩
      · omega
      · have := (fits.joins later last known namespace'.symm same.symm).1
        omega
    · rcases find?_place also with ⟨rfl, rfl⟩ | ⟨-, known'⟩
      · exact (fits.joins id entry known namespace' same).2 input stamp has
      · exact views.additive id entry later last known known' namespace' same less input stamp has
  · simp only [place]
    rcases find?_place found with ⟨rfl, rfl⟩ | ⟨-, known⟩
    · rcases olderAddress node member with rfl | older
      · have := fits.new
        omega
      · omega
    · have := views.allocated id entry known node member
      omega
  · have apart (old : RevisionInputs Input) (index : Nat) (owner : RevisionEntry Input)
        (known : store.entries.find? index = some owner) (inside : old ∈ nodes owner.inputs) :
        old.address ≠ inputs.address := by
      have := views.allocated index owner known old inside
      rw [fits.new]
      omega
    have place' (index : Nat) (owner : RevisionEntry Input)
        (found : (place store revision inputs epoch).entries.find? index = some owner) (node : RevisionInputs Input)
        (member : node ∈ nodes owner.inputs) :
        node = inputs ∨ ∃ id entry, store.entries.find? id = some entry ∧ node ∈ nodes entry.inputs := by
      rcases find?_place found with ⟨rfl, rfl⟩ | ⟨-, known⟩
      · exact fits.parents node member
      · exact Or.inr ⟨index, owner, known, member⟩
    rcases place' id entry found node member with rfl | ⟨first, owner, known, inside⟩
    · rcases place' other last also same alsoMember with rfl | ⟨second, owner, known, inside⟩
      · rfl
      · exact absurd equal.symm (apart same second owner known inside)
    · rcases place' other last also same alsoMember with rfl | ⟨second, owner', known', inside'⟩
      · exact absurd equal (apart node first owner known inside)
      · exact views.shared first owner second owner' known known' node inside same inside' equal

theorem place_leased
    (leased : Leased store leases)
    (fits : Fits store revision inputs epoch) : Leased (place store revision inputs epoch) leases := by
  have unleased (lease : Revision) (member : lease ∈ leases) : lease.id ≠ revision.id := by
    intro same
    obtain ⟨entry, found⟩ := leased.held lease member
    obtain ⟨present, -⟩ := retained_eq.mp found
    rw [same, fits.unused] at present
    cases present
  refine ⟨fun id entry found => ?_, fun lease member => ?_⟩
  · rcases find?_place found with ⟨rfl, rfl⟩ | ⟨-, known⟩
    · exact (List.count_eq_zero.mpr fun member => unleased revision member rfl).symm
    · exact leased.counted id entry known
  · obtain ⟨entry, found⟩ := leased.held lease member
    obtain ⟨present, same⟩ := retained_eq.mp found
    refine ⟨entry, retained_eq.mpr ⟨?_, same⟩⟩
    simp only [place, SortedMap.find?_insert, if_neg (unleased lease member)]
    exact present

theorem place_follows
    (unused : store.entries.find? revision.id = none) (later : store.retiredThrough < revision.id) :
    Follows store (place store revision inputs epoch) := by
  refine ⟨Nat.le_refl _, fun id old absent => ?_, fun id entry known => Or.inl ⟨entry, ?_, rfl, rfl, rfl⟩⟩
  · simp only [place, SortedMap.find?_insert]
    rw [if_neg (by omega), absent]
  · simp only [place, SortedMap.find?_insert]
    rw [if_neg, known]
    intro same
    rw [same, unused] at known
    cases known

theorem insertRevision_sound
    (views : Views store) (leased : Leased store leases)
    (fits : Fits store revision inputs epoch) :
    Views (store.insertRevision revision inputs epoch) ∧ Leased (store.insertRevision revision inputs epoch) leases ∧
      Follows store (store.insertRevision revision inputs epoch) := by
  rw [insertRevision_eq]
  apply retention_keeps fun after => Views after ∧ Leased after leases ∧ Follows store after
  · intro after id entry ⟨views, leased, follows⟩ known unpinned
    exact ⟨retire_views views id, retire_leased leased known unpinned, follows.trans (retire_follows after id)⟩
  · exact ⟨place_views views fits, place_leased leased fits, place_follows fits.unused fits.later⟩

/-- A new revision is retained with its view, or retired at once. -/
theorem insertRevision_kept (store : RevisionStore Input) (revision : Revision) (inputs : RevisionInputs Input)
    (epoch : Nat) :
    (∃ entry, (store.insertRevision revision inputs epoch).entries.find? revision.id = some entry ∧ entry.inputs = inputs) ∨
      (store.insertRevision revision inputs epoch).entries.find? revision.id = none ∧
        revision.id ≤ (store.insertRevision revision inputs epoch).retiredThrough := by
  rw [insertRevision_eq]
  have kept := retention_keeps (fun after => Follows (place store revision inputs epoch) after)
    (place store revision inputs epoch) (fun after id entry follows _ _ => follows.trans (retire_follows after id))
    (Follows.refl _)
  have placed : (place store revision inputs epoch).entries.find? revision.id =
      some { revision, inputs, activeRequests := 0, epoch } := by
    simp only [place, SortedMap.find?_insert, if_true]
  rcases kept.kept revision.id _ placed with ⟨entry, known, -, same, -⟩ | gone
  · exact Or.inl ⟨entry, known, same⟩
  · exact Or.inr gone

theorem freshEpoch_views (views : Views store) : Views store.freshEpoch.2 where
  keyed := views.keyed
  epochs := fun id entry found => Nat.lt_succ_of_lt (views.epochs id entry found)
  newest := views.newest
  additive := views.additive
  allocated := views.allocated
  shared := views.shared

/-- In an epoch of its own a revision fits beside any others. -/
theorem fits_freshEpoch
    (views : Views store) (unused : store.entries.find? revision.id = none) (later : store.retiredThrough < revision.id)
    (new : inputs.address = store.nextAddress)
    (parents : ∀ node ∈ nodes inputs, node = inputs ∨
      ∃ id entry, store.entries.find? id = some entry ∧ node ∈ nodes entry.inputs) :
    Fits store.freshEpoch.2 revision inputs store.freshEpoch.1 where
  unused := unused
  later := later
  known := Nat.lt_succ_self _
  new := new
  parents := parents
  joins := fun id entry known _ same => absurd (views.epochs id entry known) (by rw [same]; exact Nat.lt_irrefl _)

theorem publishRevision_cases (store : RevisionStore Input) (revision : Revision) (inputs : List (Input × Nat)) :
    (∃ error, store.publishRevision revision inputs = (.error error, store)) ∨
      store.publishRevision revision inputs = (.ok (), store) ∨
      ∃ leaves, store.entries.find? revision.id = none ∧ store.retiredThrough < revision.id ∧
        store.publishRevision revision inputs = (.ok (),
          store.freshEpoch.2.insertRevision revision (.full store.nextAddress leaves) store.freshEpoch.1) := by
  simp only [RevisionStore.publishRevision]
  cases collectInputs inputs with
  | error error => exact Or.inl ⟨error, rfl⟩
  | ok leaves =>
    simp only
    cases unused : store.entries.find? revision.id with
    | some previous =>
      simp only
      split
      · cases previous.inputs with
        | full address map =>
          simp only
          split
          · exact Or.inr (Or.inl rfl)
          · exact Or.inl ⟨_, rfl⟩
        | overlay address parent delta depth => exact Or.inl ⟨_, rfl⟩
      · exact Or.inl ⟨_, rfl⟩
    | none =>
      simp only
      split
      · exact Or.inl ⟨_, rfl⟩
      next later => exact Or.inr (Or.inr ⟨leaves, trivial, by omega, rfl⟩)

theorem publishRevisionOverlay_cases (store : RevisionStore Input) (revision parent : Revision)
    (delta : List (Input × Nat)) :
    (∃ error, store.publishRevisionOverlay revision parent delta = (.error error, store)) ∨
      ∃ leaves entry, collectInputs delta = .ok leaves ∧ store.retained parent = some entry ∧
        revision.compatibility = parent.compatibility ∧ parent.id < revision.id ∧
        ((∃ previous, store.retained revision = some previous ∧
            RevisionStore.identicalInputs previous.inputs
              (RevisionStore.overlayInputs store.nextAddress entry.inputs leaves) = true ∧
            store.publishRevisionOverlay revision parent delta = (.ok (), store)) ∨
          store.entries.find? revision.id = none ∧ store.retiredThrough < revision.id ∧
            (store.extendsHead parent entry leaves = true ∧
                store.publishRevisionOverlay revision parent delta = (.ok (), store.insertRevision revision
                  (RevisionStore.overlayInputs store.nextAddress entry.inputs leaves) entry.epoch) ∨
              store.publishRevisionOverlay revision parent delta = (.ok (), store.freshEpoch.2.insertRevision revision
                (RevisionStore.overlayInputs store.nextAddress entry.inputs leaves) store.freshEpoch.1))) := by
  simp only [RevisionStore.publishRevisionOverlay]
  cases collectInputs delta with
  | error error => exact Or.inl ⟨error, rfl⟩
  | ok leaves =>
    simp only
    cases available : store.retained parent with
    | none => exact Or.inl ⟨_, rfl⟩
    | some entry =>
      simp only
      split
      · exact Or.inl ⟨_, rfl⟩
      next compatible =>
        split
        · exact Or.inl ⟨_, rfl⟩
        next monotonic =>
          cases unused : store.entries.find? revision.id with
          | some previous =>
            simp only
            split
            next same =>
              split
              next identical =>
                exact Or.inr ⟨leaves, entry, rfl, rfl, not_not.mp compatible, by omega,
                  Or.inl ⟨previous, retained_eq.mpr ⟨unused, same⟩, identical, rfl⟩⟩
              · exact Or.inl ⟨_, rfl⟩
            · exact Or.inl ⟨_, rfl⟩
          | none =>
            simp only
            split
            · exact Or.inl ⟨_, rfl⟩
            next later =>
              refine Or.inr ⟨leaves, entry, rfl, rfl, not_not.mp compatible, by omega, Or.inr ⟨trivial, by omega, ?_⟩⟩
              split
              next extends' => exact Or.inl ⟨extends', rfl⟩
              next => exact Or.inr rfl

theorem publishRevision_sound (views : Views store)
    (leased : Leased store leases) (revision : Revision) (inputs : List (Input × Nat)) :
    Views (store.publishRevision revision inputs).2 ∧ Leased (store.publishRevision revision inputs).2 leases ∧
      Follows store (store.publishRevision revision inputs).2 := by
  rcases publishRevision_cases store revision inputs with ⟨error, same⟩ | same | ⟨leaves, unused, later, same⟩
  · rw [same]
    exact ⟨views, leased, Follows.refl store⟩
  · rw [same]
    exact ⟨views, leased, Follows.refl store⟩
  · rw [same]
    have fits : Fits store.freshEpoch.2 revision (.full store.nextAddress leaves) store.freshEpoch.1 :=
      fits_freshEpoch views unused later rfl fun node member => Or.inl (List.mem_singleton.mp member)
    obtain ⟨sound, counted, follows⟩ := insertRevision_sound (freshEpoch_views views)
      (⟨leased.counted, leased.held⟩ : Leased store.freshEpoch.2 leases) fits
    exact ⟨sound, counted, ⟨follows.watermark, follows.absent, follows.kept⟩⟩

/-- An overlay that extends the head of its namespace has every leaf of its epoch. -/
theorem fits_extendsHead {parent : Revision}
    {leaves : SortedMap Input Nat} (views : Views store) (unused : store.entries.find? revision.id = none)
    (later : store.retiredThrough < revision.id) (available : store.retained parent = some entry)
    (compatible : revision.compatibility = parent.compatibility) (monotonic : parent.id < revision.id)
    (parents : ∀ node ∈ nodes (RevisionStore.overlayInputs store.nextAddress entry.inputs leaves),
      node = RevisionStore.overlayInputs store.nextAddress entry.inputs leaves ∨
        ∃ id entry, store.entries.find? id = some entry ∧ node ∈ nodes entry.inputs)
    (new : (RevisionStore.overlayInputs store.nextAddress entry.inputs leaves).address = store.nextAddress)
    (head : store.extendsHead parent entry leaves = true) :
    Fits store revision (RevisionStore.overlayInputs store.nextAddress entry.inputs leaves) entry.epoch := by
  obtain ⟨present, named⟩ := retained_eq.mp available
  simp only [RevisionStore.extendsHead, Bool.and_eq_true, Option.any_eq_true_iff_get, List.all_eq_true] at head
  obtain ⟨⟨first, here⟩, additive⟩ := head
  simp only [decide_eq_true_eq] at here
  refine ⟨unused, later, views.epochs parent.id entry present, new, parents, fun id other known namespace' same => ?_⟩
  have before : id ≤ parent.id := by
    have := views.newest id other _ known (by rw [namespace', compatible]; exact Option.some_get first |>.symm)
      (here.1.trans same.symm)
    omega
  refine ⟨by omega, fun input stamp has => ?_⟩
  have inherited : entry.inputs.stamp input = some stamp := by
    rcases Nat.lt_or_ge id parent.id with less | atLeast
    · exact views.additive id other parent.id entry known present (by rw [namespace', compatible, named]) same less input
        stamp has
    · have equal : id = parent.id := by omega
      rw [equal, present] at known
      cases known
      exact has
  rw [stamp_overlayInputs]
  cases added : leaves.find? input with
  | none => exact inherited
  | some new =>
    have absent := additive (input, new) (SortedMap.mem_entries.mpr added)
    simp [inherited] at absent

theorem publishRevisionOverlay_sound (views : Views store)
    (leased : Leased store leases) (revision parent : Revision) (delta : List (Input × Nat)) :
    Views (store.publishRevisionOverlay revision parent delta).2 ∧
      Leased (store.publishRevisionOverlay revision parent delta).2 leases ∧
      Follows store (store.publishRevisionOverlay revision parent delta).2 := by
  rcases publishRevisionOverlay_cases store revision parent delta with
    ⟨error, same⟩ | ⟨leaves, entry, -, available, compatible, monotonic, again | ⟨unused, later, inserted⟩⟩
  · rw [same]
    exact ⟨views, leased, Follows.refl store⟩
  · obtain ⟨previous, -, -, same⟩ := again
    rw [same]
    exact ⟨views, leased, Follows.refl store⟩
  · obtain ⟨present, -⟩ := retained_eq.mp available
    have new : (RevisionStore.overlayInputs store.nextAddress entry.inputs leaves).address = store.nextAddress := by
      simp only [RevisionStore.overlayInputs]
      split <;> rfl
    have parents (node : RevisionInputs Input)
        (member : node ∈ nodes (RevisionStore.overlayInputs store.nextAddress entry.inputs leaves)) :
        node = RevisionStore.overlayInputs store.nextAddress entry.inputs leaves ∨
          ∃ id entry, store.entries.find? id = some entry ∧ node ∈ nodes entry.inputs :=
      (nodes_overlayInputs member).imp_right fun inside => ⟨parent.id, entry, present, inside⟩
    rcases inserted with ⟨head, same⟩ | same
    · rw [same]
      exact insertRevision_sound views leased
        (fits_extendsHead views unused later available compatible monotonic parents new head)
    · rw [same]
      obtain ⟨sound, counted, follows⟩ := insertRevision_sound (freshEpoch_views views)
        (⟨leased.counted, leased.held⟩ : Leased store.freshEpoch.2 leases)
        (fits_freshEpoch views unused later new parents)
      exact ⟨sound, counted, ⟨follows.watermark, follows.absent, follows.kept⟩⟩

/-- A revision that is published again with an identical node has the view of that node. -/
theorem identicalInputs_stamp {parent : Revision}
    {previous : RevisionEntry Input} {leaves : SortedMap Input Nat} (views : Views store)
    (again : store.retained revision = some previous) (available : store.retained parent = some entry)
    (identical : RevisionStore.identicalInputs previous.inputs
      (RevisionStore.overlayInputs store.nextAddress entry.inputs leaves) = true) (input : Input) :
    previous.inputs.stamp input = (leaves.find? input).or (entry.inputs.stamp input) := by
  obtain ⟨known, -⟩ := retained_eq.mp again
  obtain ⟨present, -⟩ := retained_eq.mp available
  rw [← stamp_overlayInputs store.nextAddress]
  cases new : RevisionStore.overlayInputs store.nextAddress entry.inputs leaves with
  | full address map =>
    rw [new] at identical
    cases old : previous.inputs with
    | full address' map' =>
      simp only [old, RevisionStore.identicalInputs, decide_eq_true_eq] at identical
      simp only [RevisionInputs.stamp, SortedMap.find?, identical]
    | overlay address' parent' delta' depth' => simp [old, RevisionStore.identicalInputs] at identical
  | overlay address over' delta' depth =>
    have inside : over' = entry.inputs := by
      simp only [RevisionStore.overlayInputs] at new
      split at new
      · cases new
      · cases new
        rfl
    rw [new] at identical
    cases old : previous.inputs with
    | full address' map' => simp [old, RevisionStore.identicalInputs] at identical
    | overlay address' previous' delta'' depth' =>
      simp only [old, RevisionStore.identicalInputs, RevisionInputs.ptrEq, Bool.and_eq_true,
        decide_eq_true_eq] at identical
      -- Nodes in use with one address are one node.
      have shared : previous' = over' := by
        apply views.shared revision.id previous parent.id entry known present _ _ _ _ identical.1
        · rw [old]
          exact List.mem_cons_of_mem _ (self_mem_nodes previous')
        · rw [inside]
          exact self_mem_nodes entry.inputs
      simp only [RevisionInputs.stamp, SortedMap.find?, identical.2, shared]

/-- A published overlay is retained with its own leaves over the view its parent
has, or retired at once. -/
theorem published_overlay {parent : Revision} {delta : List (Input × Nat)}
    (views : Views store) (published : (store.publishRevisionOverlay revision parent delta).1 = .ok ()) :
    ∃ leaves entry, collectInputs delta = .ok leaves ∧ store.retained parent = some entry ∧
      ((∃ child, (store.publishRevisionOverlay revision parent delta).2.entries.find? revision.id = some child ∧
          ∀ input, child.inputs.stamp input = (leaves.find? input).or (entry.inputs.stamp input)) ∨
        (store.publishRevisionOverlay revision parent delta).2.entries.find? revision.id = none ∧
          revision.id ≤ (store.publishRevisionOverlay revision parent delta).2.retiredThrough) := by
  rcases publishRevisionOverlay_cases store revision parent delta with
    ⟨error, failed⟩ | ⟨leaves, entry, collected, available, -, -, done⟩
  · rw [failed] at published
    cases published
  have inserted (start : RevisionStore Input) (epoch : Nat)
      (same : store.publishRevisionOverlay revision parent delta = (.ok (), start.insertRevision revision
        (RevisionStore.overlayInputs store.nextAddress entry.inputs leaves) epoch)) :
      (∃ child, (store.publishRevisionOverlay revision parent delta).2.entries.find? revision.id = some child ∧
          ∀ input, child.inputs.stamp input = (leaves.find? input).or (entry.inputs.stamp input)) ∨
        (store.publishRevisionOverlay revision parent delta).2.entries.find? revision.id = none ∧
          revision.id ≤ (store.publishRevisionOverlay revision parent delta).2.retiredThrough := by
    rw [same]
    rcases insertRevision_kept start revision
      (RevisionStore.overlayInputs store.nextAddress entry.inputs leaves) epoch with ⟨child, known, node⟩ | gone
    · exact Or.inl ⟨child, known, fun input => by rw [node, stamp_overlayInputs]⟩
    · exact Or.inr gone
  refine ⟨leaves, entry, collected, available, ?_⟩
  rcases done with ⟨previous, again, identical, same⟩ | ⟨-, -, ⟨-, same⟩ | same⟩
  · rw [same]
    exact Or.inl ⟨previous, (retained_eq.mp again).1, identicalInputs_stamp views again available identical⟩
  · exact inserted store entry.epoch same
  · exact inserted store.freshEpoch.2 store.freshEpoch.1 same

theorem find?_setActive {other : RevisionEntry Input} {count : Nat}
    (found : (store.setActive entry count).entries.find? id = some other) :
    id = entry.revision.id ∧ other = { entry with activeRequests := count } ∨
      id ≠ entry.revision.id ∧ store.entries.find? id = some other := by
  simp only [RevisionStore.setActive, SortedMap.find?_insert] at found
  split at found
  next same =>
    cases found
    exact Or.inl ⟨same, rfl⟩
  next different => exact Or.inr ⟨different, found⟩

theorem setActive_views (views : Views store)
    (known : store.entries.find? entry.revision.id = some entry) (count : Nat) : Views (store.setActive entry count) := by
  refine views.restrict (fun id other found => ?_) rfl rfl rfl
  rcases find?_setActive found with ⟨rfl, rfl⟩ | ⟨-, old⟩
  · exact ⟨entry, known, rfl, rfl, rfl⟩
  · exact ⟨other, old, rfl, rfl, rfl⟩

theorem setActive_follows
    (known : store.entries.find? entry.revision.id = some entry) (count : Nat) :
    Follows store (store.setActive entry count) := by
  refine ⟨Nat.le_refl _, fun id _ absent => ?_, fun id other found => Or.inl ?_⟩
  · simp only [RevisionStore.setActive, SortedMap.find?_insert]
    rw [if_neg, absent]
    intro same
    rw [same, known] at absent
    cases absent
  · simp only [RevisionStore.setActive, SortedMap.find?_insert]
    split
    next same =>
      rw [same, known] at found
      cases found
      exact ⟨_, rfl, rfl, rfl, rfl⟩
    next => exact ⟨other, found, rfl, rfl, rfl⟩

/-- With as many active requests as leases, the other leases as before. -/
theorem setActive_leased {after : List Revision}
    (views : Views store) (leased : Leased store leases)
    (available : store.retained revision = some entry)
    (others : ∀ other, other ≠ revision → after.count other = leases.count other) :
    Leased (store.setActive entry (after.count revision)) after := by
  obtain ⟨known, named⟩ := retained_eq.mp available
  refine ⟨fun id other found => ?_, fun lease member => ?_⟩
  · rcases find?_setActive found with ⟨rfl, rfl⟩ | ⟨different, old⟩
    · rw [named]
    · rw [others, leased.counted id other old]
      intro same
      have keyed := views.keyed id other old
      rw [same, ← named] at keyed
      exact different keyed.symm
  · by_cases same : lease = revision
    · subst same
      refine ⟨{ entry with activeRequests := after.count lease }, retained_eq.mpr ⟨?_, named⟩⟩
      simp only [RevisionStore.setActive, SortedMap.find?_insert, named, if_true]
    · have inside : lease ∈ leases := by
        rw [← List.count_pos_iff, ← others lease same]
        exact List.count_pos_iff.mpr member
      obtain ⟨owner, found⟩ := leased.held lease inside
      obtain ⟨present, also⟩ := retained_eq.mp found
      refine ⟨owner, retained_eq.mpr ⟨?_, also⟩⟩
      simp only [RevisionStore.setActive, SortedMap.find?_insert]
      rw [if_neg, present]
      intro equal
      rw [equal, named, known] at present
      cases present
      exact same (also.symm.trans named)

theorem pinRevision_sound {after : RevisionStore Input}
    (views : Views store) (leased : Leased store leases) (pinned : store.pinRevision revision = some after) :
    Views after ∧ Leased after (leases ++ [revision]) ∧ Follows store after := by
  obtain ⟨entry, available, rfl⟩ := Option.map_eq_some_iff.mp pinned
  obtain ⟨known, named⟩ := retained_eq.mp available
  have here : store.entries.find? entry.revision.id = some entry := by rw [named, known]
  have count : entry.activeRequests + 1 = (leases ++ [revision]).count revision := by
    rw [leased.counted revision.id entry known, named, List.count_append, List.count_singleton_self]
  refine ⟨setActive_views views here _, ?_, setActive_follows here _⟩
  rw [count]
  apply setActive_leased views leased available
  intro other different
  rw [List.count_append, List.count_singleton, if_neg (by simpa using different.symm), Nat.add_zero]

theorem releaseLease_sound {lease : Nat}
    (views : Views store) (leased : Leased store leases) (held : leases[lease]? = some revision) :
    ∃ after, store.releaseLease revision = some after ∧ Views after ∧ Leased after (leases.eraseIdx lease) ∧
      Follows store after := by
  have member := List.mem_of_getElem? held
  obtain ⟨entry, available⟩ := leased.held revision member
  obtain ⟨known, named⟩ := retained_eq.mp available
  have here : store.entries.find? entry.revision.id = some entry := by rw [named, known]
  have active := leased.counted revision.id entry known
  rw [named] at active
  have positive := List.count_pos_iff.mpr member
  have inside := (List.getElem?_eq_some_iff.mp held).1
  have erased (other : Revision) : leases.count other =
      (leases.eraseIdx lease).count other + if other = revision then 1 else 0 := by
    have same := (List.getElem?_eq_some_iff.mp held).2
    have perm := List.getElem_cons_eraseIdx_perm inside
    rw [same] at perm
    rw [← perm.count_eq, List.count_cons]
    simp only [beq_iff_eq, eq_comm (a := revision)]
  have count : entry.activeRequests - 1 = (leases.eraseIdx lease).count revision := by
    have := erased revision
    rw [if_pos rfl] at this
    omega
  refine ⟨_, by simp only [RevisionStore.releaseLease, available]; rw [if_neg (by omega)], ?_⟩
  rw [count]
  apply retention_keeps fun after => Views after ∧ Leased after (leases.eraseIdx lease) ∧ Follows store after
  · intro after id other ⟨views, leased, follows⟩ known unpinned
    exact ⟨retire_views views id, retire_leased leased known unpinned, follows.trans (retire_follows after id)⟩
  · refine ⟨setActive_views views here _, setActive_leased views leased available fun other different => ?_,
      setActive_follows here _⟩
    rw [erased other, if_neg different, Nat.add_zero]

structure Sound (session : RevisionSession Input) : Prop where
  views : Views session.store
  leased : Leased session.store session.leases

theorem start_sound : Sound (RevisionSession.start : RevisionSession Input) := by
  have nothing (id : Nat) (entry : RevisionEntry Input) :
      (RevisionSession.start : RevisionSession Input).store.entries.find? id ≠ some entry := by
    simp [RevisionSession.start, RevisionStore.empty]
  exact ⟨⟨fun id entry found => absurd found (nothing id entry), fun id entry found => absurd found (nothing id entry),
    fun id entry _ found => absurd found (nothing id entry), fun id entry _ _ found => absurd found (nothing id entry),
    fun id entry found => absurd found (nothing id entry), fun id entry _ _ found => absurd found (nothing id entry)⟩,
    ⟨fun id entry found => absurd found (nothing id entry), fun lease member => by cases member⟩⟩

/-- A request succeeds or fails without harm, and what was retained stays as it was. -/
theorem handle_sound {session : RevisionSession Input} (sound : Sound session) (request : RevisionRequest Input) :
    ∃ after, session.handle request = some after ∧ Sound after ∧ Follows session.store after.store := by
  obtain ⟨views, leased⟩ := sound
  cases request with
  | publishRevision revision inputs =>
    obtain ⟨kept, counted, follows⟩ := publishRevision_sound views leased revision inputs
    exact ⟨_, rfl, ⟨kept, counted⟩, follows⟩
  | publishRevisionOverlay revision parent delta =>
    obtain ⟨kept, counted, follows⟩ := publishRevisionOverlay_sound views leased revision parent delta
    exact ⟨_, rfl, ⟨kept, counted⟩, follows⟩
  | pinRevision revision =>
    simp only [RevisionSession.handle]
    cases pinned : session.store.pinRevision revision with
    | none => exact ⟨session, rfl, ⟨views, leased⟩, Follows.refl _⟩
    | some store =>
      obtain ⟨kept, counted, follows⟩ := pinRevision_sound views leased pinned
      exact ⟨_, rfl, ⟨kept, counted⟩, follows⟩
  | release lease =>
    simp only [RevisionSession.handle]
    cases held : session.leases[lease]? with
    | none => exact ⟨session, rfl, ⟨views, leased⟩, Follows.refl _⟩
    | some revision =>
      obtain ⟨store, released, kept, counted, follows⟩ := releaseLease_sound views leased held
      exact ⟨{ store, leases := session.leases.eraseIdx lease }, by simp only [released, Option.map_some],
        ⟨kept, counted⟩, follows⟩

theorem handleAll_sound (requests : List (RevisionRequest Input)) {session : RevisionSession Input}
    (sound : Sound session) :
    ∃ after, session.handleAll requests = some after ∧ Sound after ∧ Follows session.store after.store := by
  induction requests generalizing session with
  | nil => exact ⟨session, rfl, sound, Follows.refl _⟩
  | cons request rest ih =>
    obtain ⟨middle, handled, kept, follows⟩ := handle_sound sound request
    obtain ⟨after, done, last, later⟩ := ih kept
    refine ⟨after, ?_, last, follows.trans later⟩
    simp only [RevisionSession.handleAll, List.foldlM_cons, handled] at done ⊢
    exact done

/-- A revision that is retained later has the view it had. -/
theorem Follows.same {after : RevisionStore Input} (follows : Follows store after)
    {later : RevisionEntry Input} (known : store.entries.find? id = some entry)
    (found : after.entries.find? id = some later) :
    later.revision = entry.revision ∧ later.inputs = entry.inputs ∧ later.epoch = entry.epoch := by
  rcases follows.kept id entry known with ⟨last, same, facts⟩ | ⟨gone, -⟩
  · rw [found] at same
    cases same
    exact facts
  · rw [gone] at found
    cases found

/-- After any requests: same-epoch revisions of a namespace only add leaves; a
published overlay has, whenever it is retained, its own leaves over the view its
parent had; no view or epoch changes while its revision is retained; a publication
that fails changes nothing; and the revision of every lease is retained. -/
theorem revision_store_sound (requests : List (RevisionRequest Input)) :
    ∃ session, RevisionSession.start.handleAll requests = some session ∧ Additive session.store ∧
      (∀ revision parent delta, (session.store.publishRevisionOverlay revision parent delta).1 = .ok () →
        ∃ leaves entry, collectInputs delta = .ok leaves ∧ session.store.retained parent = some entry ∧
          ∀ more after, session.handleAll (.publishRevisionOverlay revision parent delta :: more) = some after →
            ∀ child, after.store.retained revision = some child →
              ∀ input, child.inputs.stamp input = (leaves.find? input).or (entry.inputs.stamp input)) ∧
      (∀ more after, session.handleAll more = some after → ∀ id entry later, session.store.entries.find? id = some entry →
        after.store.entries.find? id = some later →
          later.revision = entry.revision ∧ later.inputs = entry.inputs ∧ later.epoch = entry.epoch) ∧
      (∀ revision inputs error, (session.store.publishRevision revision inputs).1 = .error error →
        (session.store.publishRevision revision inputs).2 = session.store) ∧
      (∀ revision parent delta error, (session.store.publishRevisionOverlay revision parent delta).1 = .error error →
        (session.store.publishRevisionOverlay revision parent delta).2 = session.store) ∧
      ∀ lease ∈ session.leases, ∃ entry, session.store.retained lease = some entry ∧
        entry.activeRequests = session.leases.count lease := by
  obtain ⟨session, done, ⟨views, leased⟩, -⟩ := handleAll_sound requests
    (start_sound : Sound (RevisionSession.start : RevisionSession Input))
  refine ⟨session, done, views.additive, fun revision parent delta published => ?_, fun more after ran id entry later
    known found => ?_, fun revision inputs error failed => ?_, fun revision parent delta error failed => ?_,
    fun lease member => ?_⟩
  · obtain ⟨leaves, entry, collected, available, view⟩ := published_overlay views published
    refine ⟨leaves, entry, collected, available, fun more after ran child found input => ?_⟩
    obtain ⟨kept, counted, -⟩ := publishRevisionOverlay_sound views leased revision parent delta
    obtain ⟨last, same, -, follows⟩ := handleAll_sound more
      (⟨kept, counted⟩ : Sound { session with store := (session.store.publishRevisionOverlay revision parent delta).2 })
    simp only [RevisionSession.handleAll, List.foldlM_cons, RevisionSession.handle] at ran same
    have equal : some last = some after := same.symm.trans ran
    cases equal
    obtain ⟨present, -⟩ := retained_eq.mp found
    rcases view with ⟨first, known, stamps⟩ | ⟨gone, old⟩
    · rw [(follows.same known present).2.1, stamps]
    · rw [follows.absent _ old gone] at present
      cases present
  · obtain ⟨last, same, -, follows⟩ := handleAll_sound more ⟨views, leased⟩
    rw [ran] at same
    cases same
    exact follows.same known found
  · rcases publishRevision_cases session.store revision inputs with ⟨_, same⟩ | same | ⟨leaves, -, -, same⟩
    · rw [same]
    · rw [same]
    · rw [same] at failed
      cases failed
  · rcases publishRevisionOverlay_cases session.store revision parent delta with
      ⟨_, same⟩ | ⟨leaves, entry, -, -, -, -, ⟨previous, -, -, same⟩ | ⟨-, -, ⟨-, same⟩ | same⟩⟩
    · rw [same]
    · rw [same]
    · rw [same] at failed
      cases failed
    · rw [same] at failed
      cases failed
  · obtain ⟨entry, found⟩ := leased.held lease member
    obtain ⟨known, named⟩ := retained_eq.mp found
    exact ⟨entry, found, by rw [leased.counted lease.id entry known, named]⟩

/-- An overlay over a full view, with a request at it. -/
theorem revision_store_overlay :
    ∃ session : RevisionSession Nat, RevisionSession.start.handleAll [.publishRevision ⟨1, 0⟩ [(5, 7)],
        .publishRevisionOverlay ⟨2, 0⟩ ⟨1, 0⟩ [(6, 8)], .pinRevision ⟨2, 0⟩] = some session ∧
      Additive session.store ∧ session.store.entries.find? 1 ≠ none ∧
      ∃ entry, session.store.retained ⟨2, 0⟩ = some entry ∧ entry.activeRequests = 1 := by
  obtain ⟨session, done, additive, -, -, -, -, held⟩ := revision_store_sound
    [.publishRevision ⟨1, 0⟩ [(5, 7)], .publishRevisionOverlay ⟨2, 0⟩ ⟨1, 0⟩ [(6, 8)], .pinRevision ⟨2, 0⟩]
  refine ⟨session, done, additive, ?_, ?_⟩
  · cases done
    exact Option.some_ne_none _
  · have leases : session.leases = [⟨2, 0⟩] := by
      cases done
      rfl
    rw [leases] at held
    exact held ⟨2, 0⟩ (List.mem_singleton_self _)

end Rue.Proofs.Revision
