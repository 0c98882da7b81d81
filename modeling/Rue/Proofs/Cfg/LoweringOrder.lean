import Rue.Proofs.Cfg.DominatorTree

/-! Taking the least node that is ready lists a tree once, parents first, in the
lexicographically least such order. -/

namespace Rue.Cfg

open Lib

/-- Every node stands after the one that lists it. -/
def ParentsFirst (children : BlockId → List BlockId) (order : List BlockId) : Prop :=
  ∀ before block after, order = before ++ block :: after → ∀ parent, block ∈ children parent → parent ∈ before

theorem popReady_eq {ready rest : List BlockId} {index : BlockId} (popped : popReady ready = some (index, rest)) :
    ready.Perm (index :: rest) ∧ ∀ other ∈ ready, index ≤ other := by
  rw [popReady, Option.map_eq_some_iff] at popped
  obtain ⟨least, found, same⟩ := popped
  obtain ⟨rfl, rfl⟩ := Prod.mk.inj same
  obtain ⟨member, below⟩ := List.min?_eq_some_iff.mp found
  exact ⟨List.perm_cons_erase member, below⟩

section

variable {children : BlockId → List BlockId} {n : Nat} {entry : BlockId}

structure Draining (children : BlockId → List BlockId) (entry : BlockId) (ready order : List BlockId) : Prop where
  distinct : (order ++ ready).Nodup
  below : ∀ block ∈ order ++ ready, Preorder.Below children entry block
  parents : ParentsFirst children order
  known : ∀ block, block ∈ order ++ ready ↔ block = entry ∨ ∃ parent ∈ order, block ∈ children parent

theorem start_draining : Draining children entry [entry] [] := by
  refine ⟨List.nodup_singleton _, ?_, ?_, ?_⟩
  · intro block member
    rw [List.mem_singleton.mp member]
    exact .start
  · intro before block after same
    exact absurd same (by simp)
  · simp

variable (branching : Preorder.Branching children n entry)

include branching

theorem Draining.pop {ready rest order : List BlockId} {index : BlockId} (draining : Draining children entry ready order)
    (popped : popReady ready = some (index, rest)) : Draining children entry (children index ++ rest) (order ++ [index]) := by
  obtain ⟨same, _⟩ := popReady_eq popped
  have whole : (order ++ ready).Perm (order ++ [index] ++ rest) := by
    rw [List.append_assoc]
    exact same.append_left order
  have distinct := whole.nodup_iff.mp draining.distinct
  have onward : (order ++ [index] ++ (children index ++ rest)).Perm (children index ++ (order ++ [index] ++ rest)) := by
    rw [← List.append_assoc, ← List.append_assoc (children index)]
    exact List.perm_append_comm.append_right rest
  have fresh : index ∉ order := by
    intro again
    exact (List.nodup_append.mp distinct.of_append_left).2.2 index again index (List.mem_singleton_self _) rfl
  have member : index ∈ order ++ ready := whole.mem_iff.mpr (by simp)
  have new : ∀ child ∈ children index, child ∉ order ++ ready := by
    intro child listed again
    rcases (draining.known child).mp again with rfl | ⟨parent, done, listed'⟩
    · exact branching.root index listed
    · exact fresh (branching.single index parent child listed listed' ▸ done)
  refine ⟨?_, ?_, ?_, ?_⟩
  · rw [onward.nodup_iff, List.nodup_append]
    refine ⟨branching.distinct index, distinct, ?_⟩
    rintro child listed _ again rfl
    exact new child listed (whole.mem_iff.mpr again)
  · intro block inside
    rw [onward.mem_iff, List.mem_append] at inside
    rcases inside with listed | old
    · exact (draining.below index member).step listed
    · exact draining.below block (whole.mem_iff.mpr old)
  · intro before block after split parent listed
    rcases List.eq_nil_or_concat after with rfl | ⟨init, last, rfl⟩
    · obtain ⟨rfl, here⟩ := List.append_inj' split rfl
      rw [← List.singleton_inj.mp here] at listed
      rcases (draining.known index).mp member with rfl | ⟨parent', done, listed'⟩
      · exact absurd listed (branching.root parent)
      · rwa [branching.single parent parent' index listed listed']
    · rw [List.concat_eq_append, ← List.cons_append, ← List.append_assoc] at split
      exact draining.parents before block init (List.append_inj' split rfl).1 parent listed
  · intro block
    rw [onward.mem_iff, List.mem_append, ← whole.mem_iff, draining.known]
    simp only [List.mem_append, List.mem_singleton]
    constructor
    · rintro (listed | rfl | ⟨parent, done, listed⟩)
      · exact .inr ⟨index, .inr rfl, listed⟩
      · exact .inl rfl
      · exact .inr ⟨parent, .inl done, listed⟩
    · rintro (rfl | ⟨parent, done | rfl, listed⟩)
      · exact .inr (.inl rfl)
      · exact .inr (.inr ⟨parent, done, listed⟩)
      · exact .inl listed

/-- The heap empties, having given out every node below the entry. -/
theorem drainReady_spec {fuel : Nat} {ready order : List BlockId} (draining : Draining children entry ready order)
    (enough : n < order.length + fuel) :
    ∃ tail, drainReady children fuel ready order = some (order ++ tail) ∧ (order ++ tail).Nodup ∧ ParentsFirst children (order ++ tail) ∧
      (∀ block, block ∈ order ++ tail ↔ Preorder.Below children entry block) ∧
      ∀ rest, (order ++ rest).Perm (order ++ tail) → ParentsFirst children (order ++ rest) → tail ≤ rest := by
  have inside : ∀ block, Preorder.Below children entry block → block < n := by
    rintro block ⟨_, path⟩
    exact path.invariant branching.inside fun node child small listed => branching.targets node small child listed
  induction fuel generalizing ready order with
  | zero =>
    have few : order.length ≤ n := by
      apply length_le_of_inside draining.distinct.of_append_left
      intro block member
      exact inside block (draining.below block (List.mem_append_left _ member))
    omega
  | succ fuel ih =>
    rw [drainReady]
    cases popped : popReady ready with
    | none =>
      have empty : ready = [] := by
        rwa [popReady, Option.map_eq_none_iff, List.min?_eq_none_iff] at popped
      subst empty
      have distinct := draining.distinct
      have known := draining.known
      have below := draining.below
      rw [List.append_nil] at distinct known below
      refine ⟨[], ?_⟩
      rw [List.append_nil]
      refine ⟨rfl, distinct, draining.parents, ?_, fun rest _ _ => not_lt.mp (List.not_lt_nil rest)⟩
      intro block
      refine ⟨below block, ?_⟩
      rintro ⟨_, path⟩
      apply path.invariant ((known entry).mpr (.inl rfl))
      intro node child member listed
      exact (known child).mpr (.inr ⟨node, member, listed⟩)
    | some pair =>
      obtain ⟨index, rest⟩ := pair
      obtain ⟨tail, found, distinct, parents, all, least⟩ := ih (draining.pop branching popped) (by simp; omega)
      simp only [List.append_assoc, List.singleton_append] at found distinct parents all least
      refine ⟨index :: tail, found, distinct, parents, all, ?_⟩
      intro other same first
      cases other with
      | nil => exact absurd same.length_eq (by simp)
      | cons head other =>
        -- What another order gives out next is ready, so it is no less than the index.
        have apart := same.nodup_iff.mpr distinct
        have outside : head ∉ order := by
          intro again
          exact (List.nodup_append.mp apart).2.2 head again head (.head _) rfl
        have hangs : head = entry ∨ ∃ parent ∈ order, head ∈ children parent := by
          obtain ⟨done, path⟩ := (all head).mp (same.mem_iff.mp (by simp))
          cases path with
          | start => exact .inl rfl
          | step _ listed => exact .inr ⟨_, first order head other rfl _ listed, listed⟩
        have isReady := (List.mem_append.mp ((draining.known head).mpr hangs)).resolve_left outside
        rcases Nat.lt_or_eq_of_le ((popReady_eq popped).2 head isReady) with before | rfl
        · exact le_of_lt (List.Lex.rel before)
        · exact List.cons_le_cons index (least other same first)

end

/-- Nothing in a different order comes before the ascending one. -/
theorem ascending_le {arena other : List BlockId} (ascending : arena.Pairwise (· < ·)) (same : other.Perm arena) : arena ≤ other := by
  induction arena generalizing other with
  | nil =>
    rw [same.eq_nil]
  | cons first arena ih =>
    obtain ⟨above, rest⟩ := List.pairwise_cons.mp ascending
    cases other with
    | nil => exact absurd same.symm.eq_nil (List.cons_ne_nil _ _)
    | cons head other =>
      rcases List.mem_cons.mp (same.mem_iff.mp (List.mem_cons_self ..)) with rfl | later
      · exact List.cons_le_cons head (ih rest same.cons_inv)
      · exact le_of_lt (List.Lex.rel (above head later))

section

variable {cfg : Cfg} {dom : DominatorTree}

theorem mem_dominatorChildren {n : Nat} {parent child : BlockId} :
    child ∈ dominatorChildren dom n parent ↔ child < n ∧ dom.idomOf child = some parent := by
  induction n with
  | zero => simp [dominatorChildren]
  | succ n ih =>
    simp only [dominatorChildren, List.range_succ, List.foldl_append, List.foldl_cons, List.foldl_nil] at ih ⊢
    cases own : dom.idomOf n with
    | none =>
      simp only [ih]
      constructor
      · rintro ⟨inside, same⟩
        exact ⟨Nat.lt_succ_of_lt inside, same⟩
      · rintro ⟨inside, same⟩
        refine ⟨Nat.lt_of_le_of_ne (Nat.le_of_lt_succ inside) ?_, same⟩
        rintro rfl
        rw [own] at same
        cases same
    | some up =>
      by_cases here : parent = up
      · subst here
        simp only [Function.update_self, List.mem_append, List.mem_singleton, ih]
        constructor
        · rintro (⟨inside, same⟩ | rfl)
          · exact ⟨Nat.lt_succ_of_lt inside, same⟩
          · exact ⟨Nat.lt_succ_self _, own⟩
        · rintro ⟨inside, same⟩
          refine (Nat.lt_or_eq_of_le (Nat.le_of_lt_succ inside)).imp_left fun before => ⟨before, same⟩
      · simp only [Function.update_of_ne here, ih]
        constructor
        · rintro ⟨inside, same⟩
          exact ⟨Nat.lt_succ_of_lt inside, same⟩
        · rintro ⟨inside, same⟩
          refine ⟨Nat.lt_of_le_of_ne (Nat.le_of_lt_succ inside) ?_, same⟩
          rintro rfl
          rw [own] at same
          exact here (Option.some_inj.mp same).symm

theorem sorted_dominatorChildren (dom : DominatorTree) (n : Nat) (parent : BlockId) : (dominatorChildren dom n parent).Pairwise (· < ·) := by
  induction n with
  | zero => exact .nil
  | succ n ih =>
    have below : ∀ child ∈ dominatorChildren dom n parent, child < n := fun child member => (mem_dominatorChildren.mp member).1
    simp only [dominatorChildren, List.range_succ, List.foldl_append, List.foldl_cons, List.foldl_nil] at ih below ⊢
    cases dom.idomOf n with
    | none => exact ih
    | some up =>
      by_cases here : parent = up
      · subst here
        simp only [Function.update_self]
        rw [List.pairwise_append]
        refine ⟨ih, List.pairwise_singleton _ _, ?_⟩
        intro child member last alone
        rw [List.mem_singleton.mp alone]
        exact below child member
      · simp only [Function.update_of_ne here]
        exact ih

variable (answers : dom.Answers cfg)

include answers

theorem branching_dominators (inside : cfg.entry < cfg.blockCount) :
    Preorder.Branching (dominatorChildren dom cfg.blockCount) cfg.blockCount cfg.entry := by
  refine ⟨inside, ?_, ?_, ?_, ?_⟩
  · intro node _ child member
    exact (mem_dominatorChildren.mp member).1
  · intro node
    exact (sorted_dominatorChildren dom cfg.blockCount node).imp Nat.ne_of_lt
  · intro one other child member member'
    exact Option.some_inj.mp ((mem_dominatorChildren.mp member).2.symm.trans (mem_dominatorChildren.mp member').2)
  · intro node member
    have own := (mem_dominatorChildren.mp member).2
    rw [answers.none' cfg.entry (.inr rfl)] at own
    cases own

/-- A block is a child of its immediate dominator, and of no other block. -/
theorem mem_children_iff (bounds : cfg.InBounds) {parent child : BlockId} (reached : cfg.Reached child) :
    child ∈ dominatorChildren dom cfg.blockCount parent ↔ cfg.ImmediatelyDominates parent child := by
  rw [mem_dominatorChildren]
  constructor
  · rintro ⟨_, own⟩
    have other : child ≠ cfg.entry := by
      intro same
      rw [answers.none' child (.inr same)] at own
      cases own
    obtain ⟨d, own', immediate⟩ := answers.idom child reached other
    rw [own'] at own
    cases own
    exact immediate
  · intro immediate
    have other : child ≠ cfg.entry := by
      rintro rfl
      rcases immediate.2.1 [] .start with passed | same
      · cases passed
      · exact immediate.1 same
    obtain ⟨d, own, immediate'⟩ := answers.idom child reached other
    rw [own, immediate'.unique reached.2 immediate]
    exact ⟨reached.2.inBounds bounds, rfl⟩

/-- The tree holds what the entry reaches: a dominator is reached sooner. -/
theorem below_dominators (bounds : cfg.InBounds) {block : BlockId} :
    Preorder.Below (dominatorChildren dom cfg.blockCount) cfg.entry block ↔ cfg.Reached block := by
  constructor
  · rintro ⟨_, path⟩
    apply path.invariant ⟨bounds.entry, .start⟩
    intro node child _ listed
    by_contra unreached
    have own := (mem_dominatorChildren.mp listed).2
    rw [answers.none' child (.inl unreached)] at own
    cases own
  · rintro ⟨_, done, path⟩
    induction size : done.length using Nat.strongRecOn generalizing done block with
    | ind bound ih =>
      have reached : cfg.Reached block := ⟨bounds.entry, done, path⟩
      by_cases here : block = cfg.entry
      · rw [here]
        exact .start
      · obtain ⟨d, own, different, dominates, _⟩ := answers.idom block reached here
        obtain ⟨first, rest, rfl, shorter⟩ := path.before ((dominates done path).resolve_right different)
        refine (ih first.length ?_ first shorter rfl).step (mem_dominatorChildren.mpr ⟨reached.2.inBounds bounds, own⟩)
        rw [← size, List.length_append, List.length_cons]
        omega

end

/-- Every block that is reached stands after its immediate dominator. -/
def Respects (cfg : Cfg) (order : List BlockId) : Prop :=
  ∀ before block after, order = before ++ block :: after → cfg.Reached block →
    ∀ dominator, cfg.ImmediatelyDominates dominator block → dominator ∈ before

theorem respects_iff {cfg : Cfg} {dom : DominatorTree} (answers : dom.Answers cfg) (bounds : cfg.InBounds) {order : List BlockId}
    (reached : ∀ block ∈ order, cfg.Reached block) :
    cfg.Respects order ↔ ParentsFirst (dominatorChildren dom cfg.blockCount) order := by
  constructor
  · intro respects before block after same parent listed
    have here := reached block (by simp [same])
    exact respects before block after same here parent ((mem_children_iff answers bounds here).mp listed)
  · intro first before block after same here dominator immediate
    exact first before block after same dominator ((mem_children_iff answers bounds here).mpr immediate)

/-- The blocks that are reached, drained from the heap. -/
theorem drainReady_reached {cfg : Cfg} {dom : DominatorTree} (answers : dom.Answers cfg)
    (targets : ∀ block < cfg.blockCount, ∀ target ∈ cfg.succs block, target < cfg.blockCount) :
    ∃ first, drainReady (dominatorChildren dom cfg.blockCount) (cfg.blockCount + 1)
        (if dom.isReachable cfg.entry then [cfg.entry] else []) [] = some first ∧
      first.Nodup ∧ (∀ block, block ∈ first ↔ cfg.Reached block) ∧ cfg.Respects first ∧
      ∀ other, other.Perm first → cfg.Respects other → first ≤ other := by
  by_cases inside : cfg.entry < cfg.blockCount
  · have bounds : cfg.InBounds := ⟨inside, targets⟩
    have start : dom.isReachable cfg.entry = true := (answers.reachable cfg.entry).mpr ⟨inside, .start⟩
    obtain ⟨first, found, distinct, parents, all, least⟩ :=
      drainReady_spec (branching_dominators answers inside) start_draining (Nat.lt_of_lt_of_eq (Nat.lt_succ_self _) (Nat.zero_add _).symm)
    simp only [List.nil_append] at found distinct parents all least
    have reached := fun block => (all block).trans (below_dominators answers bounds)
    rw [if_pos start]
    refine ⟨first, found, distinct, reached, ?_, ?_⟩
    · exact (respects_iff answers bounds fun block member => (reached block).mp member).mpr parents
    · intro other same respects
      apply least other same
      exact (respects_iff answers bounds fun block member => (reached block).mp (same.mem_iff.mp member)).mp respects
  · have nothing : ∀ block, ¬cfg.Reached block := fun block reached => inside reached.1
    have stop : ¬dom.isReachable cfg.entry = true := fun found => nothing cfg.entry ((answers.reachable cfg.entry).mp found)
    rw [if_neg stop]
    refine ⟨[], rfl, List.nodup_nil, ?_, ?_, fun other _ _ => not_lt.mp (List.not_lt_nil other)⟩
    · intro block
      simp [nothing]
    · intro before block after same
      exact absurd same (by simp)

/-- Every block is lowered once, after its immediate dominator, the blocks that are not
reached last; and no order of the others that respects the tree comes before theirs. -/
theorem blockLoweringOrder_least (cfg : Cfg) (targets : ∀ block < cfg.blockCount, ∀ target ∈ cfg.succs block, target < cfg.blockCount) :
    ∃ order, blockLoweringOrder cfg = some order ∧ order.Perm (List.range cfg.blockCount) ∧ cfg.Respects order ∧
      ∃ first rest, order = first ++ rest ∧ (∀ block ∈ first, cfg.Reached block) ∧ (∀ block ∈ rest, ¬cfg.Reached block) ∧
        (∀ other, other.Perm first → cfg.Respects other → first ≤ other) ∧
        ∀ arena, arena.Perm first → arena.Pairwise (· < ·) → cfg.Respects arena → first = arena := by
  obtain ⟨dom, computed, answers⟩ := DominatorTree.compute_answers targets
  obtain ⟨first, drained, distinct, reached, respects, least⟩ := drainReady_reached answers targets
  have dead : ∀ block, block ∈ (List.range cfg.blockCount).filter (fun block => !dom.isReachable block) ↔
      block < cfg.blockCount ∧ ¬cfg.Reached block := by
    intro block
    rw [List.mem_filter, List.mem_range, ← answers.reachable, Bool.not_eq_true', Bool.not_eq_true]
  refine ⟨first ++ (List.range cfg.blockCount).filter fun block => !dom.isReachable block, ?_, ?_, ?_, first, _, rfl,
    fun block member => (reached block).mp member, fun block member => ((dead block).mp member).2, least, ?_⟩
  · simp only [blockLoweringOrder, computed, drained, Option.bind_eq_bind, Option.bind_some]
  · rw [List.perm_ext_iff_of_nodup ?_ List.nodup_range]
    · intro block
      rw [List.mem_append, dead, reached, List.mem_range]
      constructor
      · rintro (live | ⟨inside, _⟩)
        · exact live.2.inBounds ⟨live.1, targets⟩
        · exact inside
      · intro inside
        by_cases live : cfg.Reached block
        · exact .inl live
        · exact .inr ⟨inside, live⟩
    · rw [List.nodup_append]
      refine ⟨distinct, List.nodup_range.filter _, ?_⟩
      rintro block live _ left rfl
      exact ((dead block).mp left).2 ((reached block).mp live)
  · intro before block after same here dominator immediate
    -- A block that is reached stands in the first part.
    rcases List.append_eq_append_iff.mp same with ⟨more, rfl, tail⟩ | ⟨more, split, tail⟩
    · have member : block ∈ (List.range cfg.blockCount).filter fun block => !dom.isReachable block := by simp [tail]
      exact absurd here ((dead block).mp member).2
    · cases more with
      | nil =>
        have member : block ∈ (List.range cfg.blockCount).filter fun block => !dom.isReachable block := by
          rw [List.nil_append] at tail
          rw [← tail]
          exact .head _
        exact absurd here ((dead block).mp member).2
      | cons head more =>
        obtain ⟨rfl, _⟩ := List.cons.inj tail
        exact respects before block more split here dominator immediate
  · intro arena same ascending fits
    exact le_antisymm (least arena same fits) (ascending_le ascending same.symm)

theorem crossed_lowered : ∃ order, blockLoweringOrder DominatorTree.crossed = some order ∧
    order.Perm (List.range 5) ∧ DominatorTree.crossed.Respects order := by
  obtain ⟨order, found, each, respects, _⟩ := blockLoweringOrder_least DominatorTree.crossed (by decide)
  exact ⟨order, found, each, respects⟩

end Rue.Cfg
