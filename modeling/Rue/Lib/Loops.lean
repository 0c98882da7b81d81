import Mathlib.Data.List.Induction
import Mathlib.Data.List.Nodup
import Mathlib.Data.List.Perm.Basic
import Rue.Lib.Paths

/-! Cycles of a flow graph and the ways into them, and the natural loop of a
header. -/

namespace Rue.Lib

universe u

variable {α : Type u} {edge : α → α → Prop} {entry : α}

/-- The first of the nodes in a list that something holds of. -/
theorem first_of_mem {holds : α → Prop} {nodes : List α} {node : α} (inside : node ∈ nodes) (hit : holds node) :
    ∃ before first after, nodes = before ++ first :: after ∧ holds first ∧ ∀ earlier ∈ before, ¬holds earlier := by
  induction nodes with
  | nil => cases inside
  | cons head rest ih =>
    by_cases here : holds head
    · exact ⟨[], head, rest, rfl, here, nofun⟩
    · rcases List.mem_cons.mp inside with rfl | inside
      · exact absurd hit here
      · obtain ⟨before, first, after, rfl, found, missed⟩ := ih inside
        refine ⟨head :: before, first, after, rfl, found, ?_⟩
        intro earlier member
        rcases List.mem_cons.mp member with rfl | member
        · exact here
        · exact missed earlier member

namespace Path

variable {first middle last : α} {done more : List α}

theorem append (early : Path edge first done middle) (late : Path edge middle more last) :
    Path edge first (done ++ more) last := by
  induction late with
  | start => rwa [List.append_nil]
  | step _ taken ih =>
    rw [← List.append_assoc]
    exact ih.step taken

theorem start_eq (path : Path edge first [] last) : first = last := by
  generalize none' : ([] : List α) = done at path
  cases path with
  | start => rfl
  | step => exact absurd none' (by simp)

theorem inv {node : α} (path : Path edge first (done ++ [node]) last) : Path edge first done node ∧ edge node last := by
  generalize same : done ++ [node] = all at path
  cases path with
  | start => exact absurd same (by simp)
  | @step before other _ path taken =>
    obtain ⟨rfl, rfl⟩ := List.append_inj' same rfl |>.imp id List.singleton_inj.mp
    exact ⟨path, taken⟩

theorem split {node : α} (path : Path edge first (done ++ node :: more) last) :
    Path edge first done node ∧ Path edge node (node :: more) last := by
  induction more using List.reverseRecOn generalizing last with
  | nil =>
    obtain ⟨before, taken⟩ := path.inv
    exact ⟨before, Path.start.step taken⟩
  | append_singleton more final ih =>
    rw [← List.cons_append, ← List.append_assoc] at path
    obtain ⟨before, taken⟩ := path.inv
    obtain ⟨early, late⟩ := ih before
    exact ⟨early, late.step taken⟩

theorem head {node : α} (path : Path edge first (node :: more) last) : first = node := (@split _ _ _ _ [] _ _ path).1.start_eq

theorem start_mem (path : Path edge first done last) : first ∈ done ++ [last] := by
  cases done with
  | nil => simp [path.start_eq]
  | cons node rest => simp [path.head]

/-- A path from any node it comes through, the last one included. -/
theorem from_mem {node : α} {before after : List α} (path : Path edge first done last)
    (through : done ++ [last] = before ++ node :: after) :
    ∃ rest, Path edge first before node ∧ Path edge node rest last ∧ rest ++ [last] = node :: after := by
  rcases List.eq_nil_or_concat after with rfl | ⟨init, final, rfl⟩
  · obtain ⟨rfl, same⟩ := List.append_inj' through rfl
    cases List.singleton_inj.mp same
    exact ⟨[], path, .start, rfl⟩
  · rw [List.concat_eq_append, ← List.cons_append, ← List.append_assoc] at through
    obtain ⟨rfl, same⟩ := List.append_inj' through rfl
    cases List.singleton_inj.mp same
    rw [List.concat_eq_append]
    exact ⟨node :: init, path.split.1, path.split.2, rfl⟩

/-- A node that is reached is reached without passing any node twice. -/
theorem simple (path : Path edge first done last) : ∃ few, Path edge first few last ∧ (few ++ [last]).Nodup := by
  induction size : done.length using Nat.strongRecOn generalizing done last with
  | ind bound ih =>
    cases path with
    | start => exact ⟨[], .start, List.nodup_singleton _⟩
    | @step before node _ path taken =>
      obtain ⟨few, shorter, distinct⟩ := ih before.length (by simp at size; omega) path rfl
      by_cases again : last ∈ few ++ [node]
      · rcases List.mem_append.mp again with passed | here
        · obtain ⟨start, rest, rfl⟩ := List.append_of_mem passed
          refine ⟨start, shorter.split.1, ?_⟩
          rw [List.append_assoc, List.cons_append, List.append_cons] at distinct
          exact distinct.of_append_left
        · rw [List.mem_singleton.mp here]
          exact ⟨few, shorter, distinct⟩
      · refine ⟨few ++ [node], shorter.step taken, ?_⟩
        rw [List.nodup_append]
        refine ⟨distinct, List.nodup_singleton _, ?_⟩
        rintro a inside _ alone rfl
        rw [List.mem_singleton.mp alone] at inside
        exact again inside

end Path

/-- A cycle through distinct nodes, listed from one of them on. -/
def Cycle (edge : α → α → Prop) (nodes : List α) : Prop :=
  ∃ first between last, Path edge first between last ∧ edge last first ∧ nodes = between ++ [last] ∧ nodes.Nodup

/-- A node of the cycle that some path comes to before any other of its nodes. -/
def Enters (edge : α → α → Prop) (entry : α) (nodes : List α) (node : α) : Prop :=
  node ∈ nodes ∧ ∃ done, Path edge entry done node ∧ ∀ passed ∈ done, passed ∉ nodes

/-- Some cycle that the entry reaches has more than one entry. -/
def Tangled (edge : α → α → Prop) (entry : α) : Prop :=
  ∃ nodes, Cycle edge nodes ∧ ∃ one another, Enters edge entry nodes one ∧ Enters edge entry nodes another ∧ one ≠ another

theorem Cycle.around {nodes : List α} (cycle : Cycle edge nodes) {one another : α} (oneOn : one ∈ nodes)
    (anotherOn : another ∈ nodes) : ∃ done, Path edge one done another := by
  obtain ⟨first, between, last, path, closing, rfl, _⟩ := cycle
  have toLast : ∃ done, Path edge one done last := by
    rcases List.mem_append.mp oneOn with passed | final
    · obtain ⟨before, after, rfl⟩ := List.append_of_mem passed
      exact ⟨_, path.split.2⟩
    · rw [List.mem_singleton.mp final]
      exact ⟨[], .start⟩
  have fromFirst : ∃ done, Path edge first done another := by
    rcases List.mem_append.mp anotherOn with passed | final
    · obtain ⟨before, after, rfl⟩ := List.append_of_mem passed
      exact ⟨_, path.split.1⟩
    · rw [List.mem_singleton.mp final]
      exact ⟨_, path⟩
  obtain ⟨early, out⟩ := toLast
  obtain ⟨late, back⟩ := fromFirst
  exact ⟨_, (out.step closing).append back⟩

/-- An edge back to a node passed on the way to its source. -/
structure Retreats (edge : α → α → Prop) (entry source target : α) : Prop where
  taken : edge source target
  onPath : ∃ done between, Path edge entry done target ∧ Path edge target between source ∧ (done ++ (between ++ [source])).Nodup

/-- Going back to a node that can be bypassed closes a cycle with two entries. -/
theorem tangled_of_retreats {source target : α} (retreats : Retreats edge entry source target)
    (bypassed : ¬Dominates edge entry target source) : Tangled edge entry := by
  obtain ⟨taken, done, between, early, late, distinct⟩ := retreats
  obtain ⟨_, distinct', apart⟩ := List.nodup_append.mp distinct
  have onCycle := late.start_mem
  have first : Enters edge entry (between ++ [source]) target :=
    ⟨onCycle, done, early, fun passed inside again => apart passed inside passed again rfl⟩
  rw [Dominates, not_forall] at bypassed
  obtain ⟨around, missed⟩ := bypassed
  rw [Classical.not_imp, not_or] at missed
  obtain ⟨path, avoids, different⟩ := missed
  -- The first node of the cycle on the way around.
  have second : ∃ node, Enters edge entry (between ++ [source]) node ∧ node ≠ target := by
    by_cases clear : ∀ passed ∈ around, passed ∉ between ++ [source]
    · exact ⟨source, ⟨by simp, around, path, clear⟩, Ne.symm different⟩
    · simp only [not_forall, not_not] at clear
      obtain ⟨passed, inside, hit⟩ := clear
      obtain ⟨before, node, after, rfl, onCycle, earlier⟩ :=
        @first_of_mem _ (· ∈ between ++ [source]) _ _ inside hit
      exact ⟨node, ⟨onCycle, before, path.split.1, earlier⟩, fun same => avoids (by simp [← same])⟩
  obtain ⟨node, enters, other⟩ := second
  exact ⟨_, ⟨target, between, source, late, taken, rfl, distinct'⟩, node, target, enters, first, other⟩

/-- Ranks that fall along every edge but the ones back to a dominator. -/
def Falls (edge : α → α → Prop) (entry : α) (rank : α → Nat) : Prop :=
  ∀ source target, Reachable edge entry source → edge source target → rank target < rank source ∨ Dominates edge entry target source

section Falls

variable {rank : α → Nat} (falls : Falls edge entry rank)

include falls

/-- A path goes down, unless some step of it goes back to a dominator. -/
theorem Falls.path {first last : α} {done : List α} (reached : Reachable edge entry first) (path : Path edge first done last) :
    rank last ≤ rank first ∨ ∃ before source after target, done = before ++ source :: after ∧ Path edge first before source ∧
      edge source target ∧ Dominates edge entry target source ∧ Path edge target after last := by
  induction path with
  | start => exact .inl (Nat.le_refl _)
  | @step done node next path taken ih =>
    rcases ih with lower | ⟨before, source, after, target, rfl, early, back, dominates, late⟩
    · have here : Reachable edge entry node := by
        obtain ⟨start, toFirst⟩ := reached
        exact ⟨_, toFirst.append path⟩
      rcases falls node next here taken with down | dominates
      · exact .inl (by omega)
      · exact .inr ⟨done, node, [], next, rfl, path, taken, dominates, .start⟩
    · exact .inr ⟨before, source, after ++ [node], target, by simp, early, back, dominates, late.step taken⟩

/-- A cycle has a step back to a dominator: read it from there. -/
theorem Falls.cycle {nodes : List α} (cycle : Cycle edge nodes) (reached : ∀ node ∈ nodes, Reachable edge entry node) :
    ∃ target around source, Path edge target around source ∧ Dominates edge entry target source ∧
      (around ++ [source]).Perm nodes := by
  obtain ⟨first, between, last, path, closing, rfl, _⟩ := cycle
  have start := reached first path.start_mem
  rcases falls.path start path with lower | ⟨before, source, after, target, rfl, early, back, dominates, late⟩
  · rcases falls last first (reached last (by simp)) closing with down | dominates
    · omega
    · exact ⟨first, between, last, path, dominates, .refl _⟩
  · refine ⟨target, after ++ [last] ++ before, source, (late.step closing).append early, dominates, ?_⟩
    rw [List.append_assoc, List.append_assoc, List.append_assoc]
    refine List.perm_append_comm.trans ?_
    simp only [List.append_assoc, List.cons_append, List.nil_append]
    have turned : ([last] ++ (before ++ ([source] ++ after))).Perm ((before ++ ([source] ++ after)) ++ [last]) :=
      List.perm_append_comm
    simpa using turned

omit falls in
/-- On a path without repetition, what dominates the last node dominates every node
after itself. -/
theorem dominates_around {target source node : α} {around : List α} (path : Path edge target around source)
    (distinct : (around ++ [source]).Nodup) (dominates : Dominates edge entry target source) (on : node ∈ around ++ [source]) :
    Dominates edge entry target node := by
  rcases List.mem_append.mp on with passed | final
  · obtain ⟨before, after, rfl⟩ := List.append_of_mem passed
    intro done reaches
    have head : ∀ first, (before ++ node :: after).head? = some first → target = first := by
      intro first begins
      obtain ⟨rest, same⟩ := List.head?_eq_some_iff.mp begins
      rw [same] at path
      exact path.head
    rcases dominates _ (reaches.append path.split.2) with inside | same
    · rcases List.mem_append.mp inside with early | late
      · exact .inl early
      · cases before with
        | nil => exact .inr (head node rfl)
        | cons first before =>
          have same := head first rfl
          subst same
          rw [List.append_assoc, List.cons_append, List.nodup_cons] at distinct
          refine absurd (List.mem_append_right before ?_) distinct.1
          exact List.mem_append_left _ late
    · subst same
      obtain ⟨first, rest, same⟩ := List.exists_cons_of_ne_nil (List.append_ne_nil_of_right_ne_nil before (List.cons_ne_nil node after))
      have begins := head first (by rw [same]; rfl)
      rw [same, ← begins, List.cons_append, List.nodup_cons] at distinct
      exact absurd (List.mem_append_right rest (List.mem_singleton_self _)) distinct.1
  · rw [List.mem_singleton.mp final]
    exact dominates

/-- The node that a cycle goes back to dominates all of it, so it is the only entry. -/
theorem Falls.not_tangled : ¬Tangled edge entry := by
  rintro ⟨nodes, cycle, one, another, oneEnters, anotherEnters, different⟩
  have reached : ∀ node ∈ nodes, Reachable edge entry node := by
    intro node on
    obtain ⟨oneOn, done, path, _⟩ := oneEnters
    obtain ⟨more, onward⟩ := cycle.around oneOn on
    exact ⟨_, path.append onward⟩
  obtain ⟨target, around, source, path, dominates, same⟩ := falls.cycle cycle reached
  have distinct : (around ++ [source]).Nodup := by
    obtain ⟨_, _, _, _, _, _, distinct⟩ := cycle
    exact same.nodup_iff.mpr distinct
  have onCycle := same.mem_iff.mp path.start_mem
  have only : ∀ node, Enters edge entry nodes node → node = target := by
    rintro node ⟨on, done, toNode, fresh⟩
    rcases dominates_around path distinct dominates (same.mem_iff.mpr on) done toNode with passed | here
    · exact absurd onCycle (fresh target passed)
    · exact here.symm
  exact different ((only one oneEnters).trans (only another anotherEnters).symm)

end Falls

theorem Dominates.total {one another node : α} (reached : Reachable edge entry node) (early : Dominates edge entry one node)
    (late : Dominates edge entry another node) : Dominates edge entry one another ∨ Dominates edge entry another one := by
  obtain ⟨done, path⟩ := reached
  obtain ⟨few, path, distinct⟩ := path.simple
  have onPath : ∀ {first}, Dominates edge entry first node → first ∈ few ++ [node] := by
    intro first dominates
    rcases dominates few path with passed | rfl
    · exact List.mem_append_left _ passed
    · exact List.mem_append_right _ (List.mem_singleton_self _)
  -- The one passed last is dominated by the other: a way around it would go on to the node.
  have last : ∀ {first second before after}, Dominates edge entry first node → few ++ [node] = before ++ second :: after →
      first ∉ after → Dominates edge entry first second := by
    intro first second before after dominates through missed around toSecond
    obtain ⟨rest, _, onward, same⟩ := path.from_mem through
    by_cases here : first = second
    · exact .inr here
    · have absent : first ∉ rest ++ [node] := by
        rw [same, List.mem_cons, not_or]
        exact ⟨here, missed⟩
      rcases dominates _ (toSecond.append onward) with passed | final
      · rcases List.mem_append.mp passed with inside | outside
        · exact .inl inside
        · exact absurd (List.mem_append_left _ outside) absent
      · exact absurd (List.mem_append_right _ (List.mem_singleton.mpr final)) absent
  obtain ⟨before, after, through⟩ := List.append_of_mem (onPath early)
  by_cases later : another ∈ after
  · obtain ⟨middle, rest, rfl⟩ := List.append_of_mem later
    have through' : few ++ [node] = (before ++ one :: middle) ++ another :: rest := by simp [through]
    refine .inl (last early through' ?_)
    rw [through] at distinct
    intro again
    exact (List.nodup_cons.mp distinct.of_append_right).1 (List.mem_append_right _ (List.mem_cons_of_mem _ again))
  · exact .inr (last late through later)

/-- An edge, out of a node that is reached, back to a dominator of it. -/
structure BackEdge (edge : α → α → Prop) (entry source target : α) : Prop where
  reached : Reachable edge entry source
  taken : edge source target
  dominates : Dominates edge entry target source

/-- The header, and what reaches the source of a back edge to it without passing it. -/
def Body (edge : α → α → Prop) (entry header node : α) : Prop :=
  node = header ∨ ∃ latch done, BackEdge edge entry latch header ∧ Path edge node done latch ∧ header ∉ done ++ [latch]

namespace Body

variable {header outer inner node other : α}

theorem dominated (inside : Body edge entry header node) : Dominates edge entry header node := by
  rcases inside with rfl | ⟨latch, done, back, path, avoids⟩
  · exact .refl
  · intro before toNode
    rcases back.dominates _ (toNode.append path) with passed | final
    · rcases List.mem_append.mp passed with early | late
      · exact .inl early
      · exact absurd (List.mem_append_left _ late) avoids
    · exact absurd (List.mem_append_right _ (List.mem_singleton.mpr final)) avoids

/-- The header of a loop is outside every other loop whose header it dominates. -/
theorem outside (different : outer ≠ inner) (dominates : Dominates edge entry outer inner)
    (reached : Reachable edge entry inner) : ¬Body edge entry inner outer := by
  intro inside
  exact different (dominates.antisymm reached inside.dominated)

/-- Of two loops with a common node that is reached, one has the other's header. -/
theorem header_inside (reached : Reachable edge entry node) (here : Body edge entry outer node)
    (there : Body edge entry inner node) (dominates : Dominates edge entry outer inner) : Body edge entry outer inner := by
  by_cases same : outer = inner
  · exact .inl same.symm
  · obtain ⟨done, path⟩ := reached
    obtain ⟨few, path, distinct⟩ := path.simple
    have through : inner ∈ few ++ [node] := by
      rcases there.dominated few path with passed | rfl
      · exact List.mem_append_left _ passed
      · exact List.mem_append_right _ (List.mem_singleton_self _)
    obtain ⟨before, after, through⟩ := List.append_of_mem through
    obtain ⟨rest, toInner, onward, same'⟩ := path.from_mem through
    have passed : outer ∈ before := (dominates before toInner).resolve_right same
    have avoids : outer ∉ rest ++ [node] := by
      rw [same']
      intro again
      rw [through] at distinct
      exact (List.nodup_append.mp distinct).2.2 outer passed outer again rfl
    rcases here with rfl | ⟨latch, tail, back, toLatch, avoids'⟩
    · exact absurd (List.mem_append_right _ (List.mem_singleton_self _)) avoids
    · refine .inr ⟨latch, rest ++ tail, back, onward.append toLatch, ?_⟩
      rw [List.append_assoc]
      intro inside
      rcases List.mem_append.mp inside with early | late
      · exact avoids (List.mem_append_left _ early)
      · exact avoids' late

/-- A loop whose header is in another loop is inside that loop. -/
theorem nested (reached : Reachable edge entry inner) (headed : Body edge entry outer inner)
    (inside : Body edge entry inner other) : Body edge entry outer other := by
  by_cases same : outer = inner
  · rw [same]
    exact inside
  · have dominates := headed.dominated
    have absent := outside same dominates reached
    rcases inside with rfl | ⟨latch, done, back, path, avoids⟩
    · exact headed
    · rcases headed with rfl | ⟨last, rest, back', onward, avoids'⟩
      · exact absurd rfl same
      · refine .inr ⟨last, done ++ [latch] ++ rest, back', (path.step back.taken).append onward, ?_⟩
        rw [List.append_assoc]
        intro passed
        rcases List.mem_append.mp passed with early | late
        · obtain ⟨before, after, through⟩ := List.append_of_mem early
          obtain ⟨tail, _, toLatch, same'⟩ := path.from_mem through
          refine absent (.inr ⟨latch, tail, back, toLatch, ?_⟩)
          rw [same', ← List.singleton_append]
          intro again
          apply avoids
          rw [through]
          exact List.mem_append_right _ again
        · exact avoids' late

/-- Two loops with a common node that is reached are nested. -/
theorem nested_of_common {one another : α} (reached : Reachable edge entry node) (here : Body edge entry one node)
    (there : Body edge entry another node) :
    Body edge entry one another ∨ Body edge entry another one := by
  rcases Dominates.total reached here.dominated there.dominated with early | late
  · exact .inl (header_inside reached here there early)
  · exact .inr (header_inside reached there here late)

end Body

end Rue.Lib
