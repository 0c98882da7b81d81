import Rue.Proofs.Cfg.Certificate
import Rue.Proofs.Opt.LoopBodies

/-! The loop forest: one loop for each header, nested or apart, each with the
innermost loop around it. -/

namespace Rue.Loops

open Lib

variable {loops : List NaturalLoop}

theorem loopByHeader_eq (distinct : (loops.map NaturalLoop.header).Nodup) (block : BlockId) (id : LoopId) :
    loopByHeader loops block = some id ↔ ∃ lp, loops[id]? = some lp ∧ lp.header = block := by
  rw [loopByHeader]
  induction loops using List.reverseRecOn generalizing id with
  | nil => simp
  | append_singleton loops last ih =>
    rw [List.map_append, List.nodup_append] at distinct
    obtain ⟨before, _, apart⟩ := distinct
    rw [List.zipIdx_append, List.foldl_append]
    simp only [List.zipIdx_singleton, List.foldl_cons, List.foldl_nil, Nat.zero_add]
    by_cases here : block = last.header
    · subst here
      rw [Function.update_self]
      constructor
      · intro same
        cases same
        exact ⟨last, by simp, rfl⟩
      · rintro ⟨lp, found, headed⟩
        rcases Nat.lt_or_ge id loops.length with early | late
        · rw [List.getElem?_append_left early] at found
          refine absurd headed (apart _ (List.mem_map_of_mem (List.mem_of_getElem? found)) _ ?_)
          exact List.mem_singleton_self _
        · have bound := (List.getElem?_eq_some_iff.mp found).choose
          rw [List.length_append, List.length_singleton] at bound
          rw [Nat.le_antisymm (Nat.le_of_lt_succ bound) late]
    · rw [Function.update_of_ne here, ih before]
      constructor
      · rintro ⟨lp, found, headed⟩
        refine ⟨lp, ?_, headed⟩
        rw [List.getElem?_append_left (List.getElem?_eq_some_iff.mp found).choose]
        exact found
      · rintro ⟨lp, found, headed⟩
        rcases Nat.lt_or_ge id loops.length with early | late
        · rw [List.getElem?_append_left early] at found
          exact ⟨lp, found, headed⟩
        · have bound := (List.getElem?_eq_some_iff.mp found).choose
          rw [List.length_append, List.length_singleton] at bound
          rw [Nat.le_antisymm (Nat.le_of_lt_succ bound) late, List.getElem?_concat_length] at found
          cases found
          exact absurd headed.symm here

/-- The first loop is larger than the second and has its header. -/
def claims (loops : List NaturalLoop) (inner outer : LoopId) : Bool :=
  inner ≠ outer && (bodyOf loops outer).length > (bodyOf loops inner).length &&
    (bodyOf loops outer).any fun block => loopByHeader loops block = some inner

theorem claimInner_apply (outer : LoopId) (parents : LoopId → Option LoopId) (block : BlockId) (inner : LoopId) :
    claimInner loops outer parents block inner =
      if loopByHeader loops block = some inner ∧ inner ≠ outer ∧ (bodyOf loops outer).length > (bodyOf loops inner).length then
        (parents inner).or (some outer)
      else parents inner := by
  cases found : loopByHeader loops block with
  | none =>
    simp only [claimInner, found]
    rw [if_neg fun both => nomatch both.1]
  | some other =>
    simp only [claimInner, found]
    by_cases same : other = inner
    · subst same
      cases taken : parents other with
      | none =>
        simp only [Option.isNone_none, and_true, true_and, Option.none_or]
        split
        next holds => rw [Function.update_self]
        next fails => exact taken
      | some first => simp [taken]
    · have missed : ¬(some other = some inner ∧ inner ≠ outer ∧ (bodyOf loops outer).length > (bodyOf loops inner).length) :=
        fun both => same (Option.some.inj both.1)
      rw [if_neg missed]
      split
      next => rw [Function.update_of_ne (Ne.symm same)]
      next => rfl

theorem claimInner_foldl (outer : LoopId) (blocks : List BlockId) (parents : LoopId → Option LoopId) (inner : LoopId) :
    blocks.foldl (claimInner loops outer) parents inner =
      if (blocks.any fun block => loopByHeader loops block = some inner) ∧ inner ≠ outer ∧
          (bodyOf loops outer).length > (bodyOf loops inner).length then (parents inner).or (some outer)
      else parents inner := by
  induction blocks generalizing parents with
  | nil => simp
  | cons block blocks ih =>
    rw [List.foldl_cons, ih, claimInner_apply, List.any_cons]
    by_cases larger : inner ≠ outer ∧ (bodyOf loops outer).length > (bodyOf loops inner).length
    · by_cases here : loopByHeader loops block = some inner
      · simp [here, larger]
      · simp [here, larger]
    · rw [if_neg fun both => larger both.2, if_neg fun both => larger both.2, if_neg fun both => larger both.2]

theorem parents_eq (inner : LoopId) : parents loops inner = (byBodySize loops).find? (claims loops inner) := by
  have swept : ∀ (outers : List LoopId) (before : LoopId → Option LoopId),
      outers.foldl (fun parents outer => (bodyOf loops outer).foldl (claimInner loops outer) parents) before inner =
        (before inner).or (outers.find? (claims loops inner)) := by
    intro outers
    induction outers with
    | nil => exact fun before => (Option.or_none).symm
    | cons outer outers ih =>
      intro before
      rw [List.foldl_cons, ih, claimInner_foldl, List.find?_cons]
      cases chosen : claims loops inner outer with
      | true =>
        rw [claims, Bool.and_eq_true, Bool.and_eq_true, decide_eq_true_eq, decide_eq_true_eq] at chosen
        rw [if_pos ⟨chosen.2, chosen.1⟩, Option.or_assoc, Option.some_or]
      | false =>
        rw [if_neg]
        rintro ⟨inside, different, larger⟩
        rw [claims, inside] at chosen
        simp [different, larger] at chosen
  exact swept (byBodySize loops) fun _ => none

/-- The parent is a smallest loop among those that claim the inner one. -/
theorem parents_some {inner outer : LoopId} (found : parents loops inner = some outer) :
    claims loops inner outer ∧ outer < loops.length ∧
      ∀ other < loops.length, claims loops inner other → (bodyOf loops outer).length ≤ (bodyOf loops other).length := by
  rw [parents_eq] at found
  have sorted : (byBodySize loops).Pairwise fun one other => (bodyOf loops one).length ≤ (bodyOf loops other).length := by
    have ordered := @List.pairwise_mergeSort Nat (fun one other =>
      (bodyOf loops one).length < (bodyOf loops other).length ||
        (bodyOf loops one).length = (bodyOf loops other).length && one ≤ other) ?_ ?_ (List.range loops.length)
    · refine ordered.imp ?_
      intro one other before
      simp only [Bool.or_eq_true, Bool.and_eq_true, decide_eq_true_eq] at before
      omega
    · intro a b c first second
      simp only [Bool.or_eq_true, Bool.and_eq_true, decide_eq_true_eq] at first second ⊢
      omega
    · intro a b
      simp only [Bool.or_eq_true, Bool.and_eq_true, decide_eq_true_eq]
      omega
  have listed : ∀ id, id ∈ byBodySize loops ↔ id < loops.length := by
    intro id
    rw [byBodySize, List.mem_mergeSort, List.mem_range]
  obtain ⟨chosen, before, after, same, missed⟩ := List.find?_eq_some_iff_append.mp found
  refine ⟨chosen, (listed outer).mp (by rw [same]; simp), ?_⟩
  intro other inside claimed
  have member := (listed other).mpr inside
  rw [same] at member sorted
  rcases List.mem_append.mp member with early | here
  · have fails := missed other early
    rw [claimed] at fails
    cases fails
  · rcases List.mem_cons.mp here with rfl | late
    · exact Nat.le_refl _
    · exact (List.pairwise_cons.mp (List.pairwise_append.mp sorted).2.1).1 other late

theorem parents_none {inner : LoopId} : parents loops inner = none ↔ ∀ outer < loops.length, claims loops inner outer = false := by
  rw [parents_eq, List.find?_eq_none]
  constructor
  · intro none' outer inside
    exact Bool.eq_false_iff.mpr (none' outer (by rw [byBodySize, List.mem_mergeSort, List.mem_range]; exact inside))
  · intro none' outer member
    rw [byBodySize, List.mem_mergeSort, List.mem_range] at member
    exact Bool.eq_false_iff.mp (none' outer member)

section

variable (cfg : Cfg)

/-- Of the blocks that are reached, the second loop has all of the first. -/
def Inside (inner outer : NaturalLoop) : Prop := ∀ block, cfg.Live block → block ∈ inner.body → block ∈ outer.body

def StrictlyInside (inner outer : NaturalLoop) : Prop :=
  Inside cfg inner outer ∧ ∃ block, cfg.Live block ∧ block ∈ outer.body ∧ block ∉ inner.body

/-- The loops of a graph whose cycles have one entry each. -/
structure Forest (loops : List NaturalLoop) : Prop where
  headers : ∀ header, header ∈ loops.map NaturalLoop.header ↔ ∃ u, BackEdge cfg.Edge cfg.entry u header
  once : (loops.map NaturalLoop.header).Nodup
  natural : ∀ lp ∈ loops, Natural cfg lp
  dominated : ∀ lp ∈ loops, ∀ block ∈ lp.body, cfg.Live block → cfg.Dominates lp.header block
  nested : ∀ one ∈ loops, ∀ other ∈ loops,
    Inside cfg one other ∨ Inside cfg other one ∨ ∀ block, cfg.Live block → block ∈ one.body → block ∉ other.body
  innermost : ∀ lp ∈ loops, ∀ id, lp.parent = some id → ∃ outer, loops[id]? = some outer ∧ StrictlyInside cfg lp outer ∧
    ∀ other ∈ loops, StrictlyInside cfg lp other → Inside cfg outer other
  outermost : ∀ lp ∈ loops, lp.parent = none → ∀ other ∈ loops, ¬StrictlyInside cfg lp other

end

variable {cfg : Cfg} {lp outer : NaturalLoop}

theorem Natural.live (natural : Natural cfg lp) : cfg.Live lp.header := by
  obtain ⟨u, rest, same⟩ := List.exists_cons_of_ne_nil natural.latched
  have back := (natural.latches u).mp (by rw [same]; exact .head _)
  obtain ⟨done, path⟩ := back.reached
  exact ⟨_, path.step back.taken⟩

theorem Natural.own_header (bounds : cfg.InBounds) (natural : Natural cfg lp) : lp.header ∈ lp.body :=
  (natural.body _).mpr ⟨Cfg.Live.inBounds bounds natural.live, .inl rfl⟩

theorem Natural.subset (natural : Natural cfg lp) (around : Natural cfg outer)
    (headed : Body cfg.Edge cfg.entry outer.header lp.header) : lp.body ⊆ outer.body := by
  intro block inside
  obtain ⟨bound, inner⟩ := (natural.body block).mp inside
  exact (around.body block).mpr ⟨bound, Body.nested natural.live headed inner⟩

/-- A loop is strictly inside another one when its header is there and is not the
other one's header. -/
theorem strictlyInside_iff (bounds : cfg.InBounds) (natural : Natural cfg lp) (around : Natural cfg outer) :
    StrictlyInside cfg lp outer ↔ lp.header ∈ outer.body ∧ outer.header ≠ lp.header := by
  constructor
  · rintro ⟨inside, block, _, there, missing⟩
    refine ⟨inside _ natural.live (natural.own_header bounds), ?_⟩
    intro same
    obtain ⟨bound, body⟩ := (around.body block).mp there
    rw [same] at body
    exact missing ((natural.body block).mpr ⟨bound, body⟩)
  · rintro ⟨headed, different⟩
    obtain ⟨_, body⟩ := (around.body _).mp headed
    refine ⟨fun block _ member => natural.subset around body member, outer.header, around.live, around.own_header bounds, ?_⟩
    intro again
    exact Body.outside different body.dominated natural.live ((natural.body _).mp again).2

/-- So it has fewer blocks, those that are not reached included. -/
theorem StrictlyInside.shorter (bounds : cfg.InBounds) (natural : Natural cfg lp) (around : Natural cfg outer)
    (inside : StrictlyInside cfg lp outer) : lp.body.length < outer.body.length := by
  obtain ⟨headed, different⟩ := (strictlyInside_iff bounds natural around).mp inside
  obtain ⟨_, body⟩ := (around.body _).mp headed
  have missing : outer.header ∉ lp.body := fun again =>
    Body.outside different body.dominated natural.live ((natural.body _).mp again).2
  have all : outer.header :: lp.body ⊆ outer.body :=
    List.cons_subset.mpr ⟨around.own_header bounds, natural.subset around body⟩
  exact ((List.nodup_cons.mpr ⟨missing, natural.distinct⟩).subperm all).length_le

/-- Two loops with a block in common are inside one another. -/
theorem Natural.nested (natural : Natural cfg lp) (around : Natural cfg outer) {block : BlockId} (live : cfg.Live block)
    (here : block ∈ lp.body) (there : block ∈ outer.body) :
    Body cfg.Edge cfg.entry lp.header outer.header ∨ Body cfg.Edge cfg.entry outer.header lp.header :=
  Body.nested_of_common live ((natural.body block).mp here).2 ((around.body block).mp there).2

theorem claims_iff (bounds : cfg.InBounds) (natural : ∀ lp ∈ loops, Natural cfg lp)
    (distinct : (loops.map NaturalLoop.header).Nodup) {inner id : LoopId} (found : loops[inner]? = some lp)
    (there : loops[id]? = some outer) : claims loops inner id ↔ StrictlyInside cfg lp outer := by
  have lpNatural := natural lp (List.mem_of_getElem? found)
  have outerNatural := natural outer (List.mem_of_getElem? there)
  have same : claims loops inner id ↔
      (inner ≠ id ∧ outer.body.length > lp.body.length) ∧ ∃ block ∈ outer.body, loopByHeader loops block = some inner := by
    simp only [claims, bodyOf, found, there, Option.map_some, Option.getD_some, Bool.and_eq_true, decide_eq_true_eq,
      List.any_eq_true]
  rw [same, strictlyInside_iff bounds lpNatural outerNatural]
  constructor
  · rintro ⟨⟨different, larger⟩, block, inside, headed⟩
    obtain ⟨owner, at', named⟩ := (loopByHeader_eq distinct block inner).mp headed
    rw [found] at at'
    cases at'
    rw [named]
    refine ⟨inside, ?_⟩
    intro again
    have sameBody : outer.body ⊆ lp.body := by
      intro other member
      obtain ⟨bound, body⟩ := (outerNatural.body other).mp member
      rw [again, ← named] at body
      exact (lpNatural.body other).mpr ⟨bound, body⟩
    exact absurd (outerNatural.distinct.subperm sameBody).length_le (Nat.not_le_of_lt larger)
  · rintro ⟨headed, different⟩
    refine ⟨⟨?_, ?_⟩, lp.header, headed, (loopByHeader_eq distinct _ _).mpr ⟨lp, found, rfl⟩⟩
    · rintro rfl
      rw [found] at there
      cases there
      exact different rfl
    · exact StrictlyInside.shorter bounds lpNatural outerNatural
        ((strictlyInside_iff bounds lpNatural outerNatural).mpr ⟨headed, different⟩)

theorem Natural.withParent (natural : Natural cfg lp) (parent : Option LoopId) : Natural cfg { lp with parent } :=
  ⟨natural.latches, natural.latched, natural.ascending, natural.body, natural.distinct, natural.exits⟩

/-- The smallest loop that has the header is inside every other that has it. -/
theorem assignLoopParents_forest (bounds : cfg.InBounds) (natural : ∀ lp ∈ loops, Natural cfg lp)
    (headers : ∀ header, header ∈ loops.map NaturalLoop.header ↔ ∃ u, BackEdge cfg.Edge cfg.entry u header)
    (distinct : (loops.map NaturalLoop.header).Nodup) : Forest cfg (assignLoopParents loops) := by
  have at' : ∀ (id : LoopId) (lp : NaturalLoop), (assignLoopParents loops)[id]? = some lp ↔
      ∃ before, loops[id]? = some before ∧ lp = { before with parent := parents loops id } := by
    intro id lp
    rw [assignLoopParents, List.getElem?_map, List.getElem?_zipIdx]
    cases found : loops[id]? with
    | none => simp
    | some before => simp [eq_comm]
  have listed : ∀ lp ∈ assignLoopParents loops, ∃ (id : LoopId) (before : NaturalLoop),
      loops[id]? = some before ∧ lp = { before with parent := parents loops id } := by
    intro lp member
    obtain ⟨id, found⟩ := List.mem_iff_getElem?.mp member
    exact ⟨id, (at' id lp).mp found⟩
  have sameHeaders : (assignLoopParents loops).map NaturalLoop.header = loops.map NaturalLoop.header := by
    apply List.ext_getElem?
    intro id
    rw [assignLoopParents, List.getElem?_map, List.getElem?_map, List.getElem?_zipIdx, List.getElem?_map]
    cases loops[id]? with
    | none => rfl
    | some before => rfl
  refine ⟨?_, ?_, ?_, ?_, ?_, ?_, ?_⟩
  · rw [sameHeaders]
    exact headers
  · rw [sameHeaders]
    exact distinct
  · intro lp member
    obtain ⟨id, before, found, rfl⟩ := listed lp member
    exact (natural before (List.mem_of_getElem? found)).withParent _
  · intro lp member block inside _
    obtain ⟨id, before, found, rfl⟩ := listed lp member
    exact (((natural before (List.mem_of_getElem? found)).body block).mp inside).2.dominated
  · intro one oneMember other otherMember
    obtain ⟨oneId, one, oneAt, rfl⟩ := listed one oneMember
    obtain ⟨otherId, other, otherAt, rfl⟩ := listed other otherMember
    have oneNatural := natural one (List.mem_of_getElem? oneAt)
    have otherNatural := natural other (List.mem_of_getElem? otherAt)
    by_cases apart : ∀ block, cfg.Live block → block ∈ one.body → block ∉ other.body
    · exact .inr (.inr apart)
    · simp only [not_forall, not_not] at apart
      obtain ⟨block, live, here, there⟩ := apart
      rcases oneNatural.nested otherNatural live here there with headed | headed
      · exact .inr (.inl fun _ _ member => otherNatural.subset oneNatural headed member)
      · exact .inl fun _ _ member => oneNatural.subset otherNatural headed member
  · intro lp member id parent
    obtain ⟨inner, before, found, rfl⟩ := listed lp member
    obtain ⟨claimed, inside, smallest⟩ := parents_some parent
    obtain ⟨outer, there⟩ : ∃ outer, loops[id]? = some outer := ⟨_, List.getElem?_eq_getElem inside⟩
    have strictly := (claims_iff bounds natural distinct found there).mp claimed
    refine ⟨_, (at' id _).mpr ⟨outer, there, rfl⟩, strictly, ?_⟩
    intro other otherMember around
    obtain ⟨otherId, other, otherAt, rfl⟩ := listed other otherMember
    have outerNatural := natural outer (List.mem_of_getElem? there)
    have otherNatural := natural other (List.mem_of_getElem? otherAt)
    have beforeNatural := natural before (List.mem_of_getElem? found)
    have shorter := smallest otherId (List.getElem?_eq_some_iff.mp otherAt).choose
      ((claims_iff bounds natural distinct found otherAt).mpr around)
    simp only [bodyOf, there, otherAt, Option.map_some, Option.getD_some] at shorter
    have header := beforeNatural.own_header bounds
    rcases outerNatural.nested otherNatural beforeNatural.live (strictly.1 _ beforeNatural.live header)
      (around.1 _ beforeNatural.live header) with headed | headed
    · have same : outer.header = other.header := by
        by_contra different
        have within := (strictlyInside_iff bounds otherNatural outerNatural).mpr
          ⟨(outerNatural.body _).mpr ⟨Cfg.Live.inBounds bounds otherNatural.live, headed⟩, different⟩
        exact absurd shorter (Nat.not_le_of_lt (within.shorter bounds otherNatural outerNatural))
      exact fun _ _ member => outerNatural.subset otherNatural (.inl same) member
    · exact fun _ _ member => outerNatural.subset otherNatural headed member
  · intro lp member parent other otherMember around
    obtain ⟨inner, before, found, rfl⟩ := listed lp member
    obtain ⟨id, other, there, rfl⟩ := listed other otherMember
    have none' := parents_none.mp parent id (List.getElem?_eq_some_iff.mp there).choose
    have claimed := (claims_iff bounds natural distinct found there).mpr around
    rw [none'] at claimed
    cases claimed

/-- The forest has the natural loops, and none when some cycle has more than one
entry. -/
theorem natural_loop_forest (cfg : Cfg) (dom : DominatorTree) (bounds : cfg.InBounds) (tree : dom.IsOf cfg) :
    ((Loops.loops cfg dom).irreducible ↔ Tangled cfg.Edge cfg.entry) ∧
      ((Loops.loops cfg dom).irreducible = true → (Loops.loops cfg dom).loops = []) ∧
      ((Loops.loops cfg dom).irreducible = false → Forest cfg (Loops.loops cfg dom).loops) := by
  rw [← scan_irreducible bounds tree]
  cases tangled : (scan cfg dom).irreducible with
  | true =>
    have shape : Loops.loops cfg dom = ⟨[], true⟩ := by simp only [Loops.loops, tangled, if_true]
    rw [shape]
    exact ⟨.rfl, fun _ => rfl, nofun⟩
  | false =>
    have shape : Loops.loops cfg dom = ⟨assignLoopParents
        (((backEdges cfg dom (scan cfg dom).visited).foldl addLatch []).map (naturalLoop cfg)), false⟩ := by
      simp only [Loops.loops, tangled, Bool.false_eq_true, if_false]
    rw [shape]
    refine ⟨.rfl, nofun, fun _ => ?_⟩
    have grouped := grouped_foldl (@backEdges_sorted cfg dom (scan cfg dom).visited)
    have edges : ∀ u s, (u, s) ∈ backEdges cfg dom (scan cfg dom).visited ↔ BackEdge cfg.Edge cfg.entry u s :=
      fun u s => mem_backEdges bounds tree (scan_visited bounds)
    generalize (backEdges cfg dom (scan cfg dom).visited).foldl addLatch [] = groups at grouped
    have sameHeaders : (groups.map (naturalLoop cfg)).map NaturalLoop.header = groups.map Prod.fst := by
      rw [List.map_map]
      rfl
    apply assignLoopParents_forest bounds
    · intro lp member
      obtain ⟨group, inside, rfl⟩ := List.mem_map.mp member
      refine naturalLoop_natural bounds (grouped.some' group inside) (grouped.ascending group inside) ?_
      intro u
      rw [grouped.latches group inside, edges]
    · intro header
      rw [sameHeaders, grouped.mem]
      simp only [edges]
    · rw [sameHeaders]
      exact grouped.distinct

def spinning : Cfg := Cfg.ofTables [] [([], [], .goto 0 [])]

def spinningTree : DominatorTree where
  idom := fun _ => none
  postNum := fun block => if block = 0 then some 0 else none
  preNum := fun block => if block = 0 then some 0 else none
  subtreeLast := fun _ => 0

theorem spinning_one_loop : (Loops.loops spinning spinningTree).irreducible = false ∧
    Forest spinning (Loops.loops spinning spinningTree).loops := by
  have bounds : spinning.InBounds := by decide
  have tree : spinningTree.IsOf spinning := by
    have only : ∀ block, spinning.Live block → block = 0 := by
      intro block live
      obtain ⟨done, path⟩ := live
      apply @Path.invariant _ _ _ _ _ path (· = 0) rfl
      rintro node next rfl edge
      exact List.mem_singleton.mp edge
    intro a b aLive bLive
    rw [only a aLive, only b bLive]
    exact ⟨fun _ => Dominates.refl, fun _ => by decide⟩
  have reducible : (Loops.loops spinning spinningTree).irreducible = false := by decide
  exact ⟨reducible, (natural_loop_forest spinning spinningTree bounds tree).2.2 reducible⟩

end Rue.Loops
