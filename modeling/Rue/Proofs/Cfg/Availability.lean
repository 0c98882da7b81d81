import Rue.Cfg.Semantics
import Rue.Cfg.Verified

/-! A value that is available where a run stands still has the value it was
given: nothing it depends on is defined again before it is. -/

namespace Rue.Cfg

variable {cfg : Cfg} {block target : BlockId} {done rest : List CfgValue} {value used : CfgValue}

/-- The given values are available where each instruction is. -/
def Grounded (cfg : Cfg) (deps : CfgValue → List CfgValue) : Prop :=
  ∀ block, cfg.Live block → ∀ done value rest, (cfg.block block).insts = done ++ value :: rest →
    ∀ used ∈ deps value, cfg.Available block done used

/-- An instruction of the graph, as opposed to a parameter. -/
def IsInst (cfg : Cfg) (value : CfgValue) : Prop := ∃ block < cfg.blockCount, value ∈ (cfg.block block).insts

theorem Verified.grounded (verified : cfg.Verified) : cfg.Grounded fun value => (cfg.inst value).data.uses :=
  verified.uses

theorem Verified.isInst_not_param (verified : cfg.Verified) (inst : cfg.IsInst value) (inside : block < cfg.blockCount) :
    value ∉ cfg.paramValues block := by
  intro param
  obtain ⟨other, otherInside, member⟩ := inst
  have same := verified.defines_unique inside otherInside (mem_defines.mpr (Or.inl param))
    (mem_defines.mpr (Or.inr member))
  subst same
  exact verified.not_param_of_inst inside member param

theorem live_of_dominates {first second : BlockId} (dominates : cfg.Dominates first second) (live : cfg.Live second) :
    cfg.Live first := Lib.Dominates.reachable dominates live

namespace Available

theorem mono {more : List CfgValue} (available : cfg.Available block done value) (keeps : ∀ old ∈ done, old ∈ more) :
    cfg.Available block more value := by
  rcases available with param | earlier | elsewhere
  · exact Or.inl param
  · exact Or.inr (Or.inl (keeps _ earlier))
  · exact Or.inr (Or.inr elsewhere)

theorem of_snoc {last : CfgValue} (available : cfg.Available block (done ++ [last]) value) (different : value ≠ last) :
    cfg.Available block done value := by
  rcases available with param | earlier | elsewhere
  · exact Or.inl param
  · exact Or.inr (Or.inl (by simpa [different] using earlier))
  · exact Or.inr (Or.inr elsewhere)

/-- The block that defines an available value dominates the point. -/
theorem definer (available : cfg.Available block done value) (inside : block < cfg.blockCount)
    (prefix' : done <+: (cfg.block block).insts) :
    ∃ other < cfg.blockCount, value ∈ cfg.defines other ∧ cfg.Dominates other block := by
  rcases available with param | earlier | ⟨other, otherInside, -, defined, dominates⟩
  · exact ⟨block, inside, mem_defines.mpr (Or.inl param), Lib.Dominates.refl⟩
  · exact ⟨block, inside, mem_defines.mpr (Or.inr (prefix'.subset earlier)), Lib.Dominates.refl⟩
  · exact ⟨other, otherInside, defined, dominates⟩

/-- What is available where a dominating block ends is available here. -/
theorem of_dominates {other : BlockId} {before : List CfgValue} (verified : cfg.Verified) (live : cfg.Live block)
    (different : other ≠ block) (dominates : cfg.Dominates other block) (prefix' : before <+: (cfg.block other).insts)
    (available : cfg.Available other before value) : cfg.Available block done value := by
  have otherInside := (live_of_dominates dominates live).inBounds verified.bounds
  obtain ⟨first, firstInside, defined, early⟩ := available.definer otherInside prefix'
  refine Or.inr (Or.inr ⟨first, firstInside, ?_, defined, early.trans dominates⟩)
  rintro rfl
  exact different (Lib.Dominates.antisymm live dominates early)

/-- What an available instruction depends on is available. -/
theorem dep {deps : CfgValue → List CfgValue} (verified : cfg.Verified) (grounded : cfg.Grounded deps)
    (live : cfg.Live block) (prefix' : done <+: (cfg.block block).insts) (available : cfg.Available block done value)
    (inst : cfg.IsInst value) (member : used ∈ deps value) : cfg.Available block done used := by
  rcases available with param | earlier | ⟨other, otherInside, different, defined, dominates⟩
  · exact absurd param (verified.isInst_not_param inst (live.inBounds verified.bounds))
  · obtain ⟨early, late, rfl⟩ := List.append_of_mem earlier
    obtain ⟨tail, whole⟩ := prefix'
    have before := grounded block live early value (late ++ tail) (by simp [← whole]) used member
    exact before.mono fun old inside => by simp [inside]
  · rcases mem_defines.mp defined with param | here
    · exact absurd param (verified.isInst_not_param inst otherInside)
    · obtain ⟨early, late, whole⟩ := List.append_of_mem here
      have before := grounded other (live_of_dominates dominates live) early value late whole used member
      exact before.of_dominates verified live different dominates ⟨_, whole.symm⟩

/-- What is available where an edge arrives, other than the parameters bound
there, was available where it left. -/
theorem edge (available : cfg.Available target [] value) (taken : cfg.Edge block target)
    (inst : value ∉ cfg.paramValues target) : cfg.Available block (cfg.block block).insts value := by
  rcases available with param | earlier | ⟨other, otherInside, different, defined, dominates⟩
  · exact absurd param inst
  · cases earlier
  · have before : cfg.Dominates other block := Lib.Dominates.pred dominates different taken
    by_cases same : other = block
    · subst same
      rcases mem_defines.mp defined with param | member
      · exact Or.inl param
      · exact Or.inr (Or.inl member)
    · exact Or.inr (Or.inr ⟨other, otherInside, same, defined, before⟩)

/-- A value about to be defined is not available yet. -/
theorem ne_next {next : CfgValue} (verified : cfg.Verified) (live : cfg.Live block)
    (split : (cfg.block block).insts = done ++ next :: rest) (available : cfg.Available block done value) :
    value ≠ next := by
  rintro rfl
  have inside := live.inBounds verified.bounds
  have member : value ∈ (cfg.block block).insts := by simp [split]
  rcases available with param | earlier | ⟨other, otherInside, different, defined, -⟩
  · exact verified.not_param_of_inst inside member param
  · have distinct := verified.nodup_insts inside
    rw [split] at distinct
    exact (List.nodup_append.mp distinct).2.2 value earlier value (by simp) rfl
  · exact different (verified.defines_unique otherInside inside defined (mem_defines.mpr (Or.inr member)))

/-- A parameter bound on an edge is not available before it, unless it is the
target's own from an earlier visit. -/
theorem param_only_own (verified : cfg.Verified) (live : cfg.Live target) (param : value ∈ cfg.paramValues target)
    (available : cfg.Available block done value) (prefix' : done <+: (cfg.block block).insts)
    (inside : block < cfg.blockCount) : cfg.Dominates target block := by
  obtain ⟨other, otherInside, defined, dominates⟩ := available.definer inside prefix'
  have same := verified.defines_unique otherInside (live.inBounds verified.bounds) defined
    (mem_defines.mpr (Or.inl param))
  rwa [same] at dominates

end Available

/-- A fact about an instruction and what it depends on, at every available one. -/
def Facts {Datum : Type} (cfg : Cfg) (holds : (CfgValue → Value Datum) → CfgValue → Prop) (env : CfgValue → Value Datum)
    (block : BlockId) (done : List CfgValue) : Prop :=
  ∀ value, cfg.IsInst value → cfg.Available block done value → holds env value

/-- The fact reads nothing but the instruction and what it depends on. -/
def Local {Datum : Type} (deps : CfgValue → List CfgValue) (holds : (CfgValue → Value Datum) → CfgValue → Prop) : Prop :=
  ∀ env after value, holds env value → after value = env value → (∀ used ∈ deps value, after used = env used) →
    holds after value

variable {Datum : Type} {deps : CfgValue → List CfgValue} {holds : (CfgValue → Value Datum) → CfgValue → Prop}
  {env : CfgValue → Value Datum}

theorem bindParams_of_notMem {params : List (CfgValue × Ty)} (values : List (Value Datum))
    (env : CfgValue → Value Datum) (other : value ∉ params.map Prod.fst) : bindParams params values env value = env value := by
  induction params generalizing values env with
  | nil => rfl
  | cons param params ih =>
    cases values with
    | nil => rfl
    | cons bound values =>
      simp only [List.map_cons, List.mem_cons, not_or] at other
      exact (ih values (Function.update env param.1 bound) other.2).trans (Function.update_of_ne other.1 _ _)

namespace Facts

theorem start (verified : cfg.Verified) : cfg.Facts holds env cfg.entry [] := by
  intro value inst available
  rcases available with param | earlier | ⟨other, _, different, _, dominates⟩
  · exact absurd param (verified.isInst_not_param inst verified.bounds.entry)
  · cases earlier
  · rcases dominates [] .start with passed | same
    · cases passed
    · exact absurd same different

/-- Executing an instruction keeps every fact, given the fact about it. -/
theorem step (verified : cfg.Verified) (grounded : cfg.Grounded deps) (reads : Local deps holds)
    (live : cfg.Live block) {next : CfgValue} (split : (cfg.block block).insts = done ++ next :: rest)
    (facts : cfg.Facts holds env block done) {result : Value Datum}
    (established : holds (Function.update env next result) next) :
    cfg.Facts holds (Function.update env next result) block (done ++ [next]) := by
  intro value inst available
  by_cases same : value = next
  · rw [same]; exact established
  have earlier := available.of_snoc same
  apply reads env _ value (facts value inst earlier)
  · exact Function.update_of_ne same _ _
  · intro used member
    have before := earlier.dep verified grounded live ⟨_, split.symm⟩ inst member
    exact Function.update_of_ne (before.ne_next verified live split) _ _

/-- Taking an edge keeps every fact: what is available at its target depends on
no parameter bound there. -/
theorem edge (verified : cfg.Verified) (grounded : cfg.Grounded deps) (reads : Local deps holds)
    (live : cfg.Live block) (taken : cfg.Edge block target) (facts : cfg.Facts holds env block (cfg.block block).insts)
    (values : List (Value Datum)) :
    cfg.Facts holds (bindParams (cfg.block target).params values env) target [] := by
  have arrived : cfg.Live target := Lib.Reachable.step live taken
  have inside := arrived.inBounds verified.bounds
  intro value inst available
  have notParam := verified.isInst_not_param inst inside
  apply reads env _ value (facts value inst (available.edge taken notParam))
  · exact bindParams_of_notMem values env notParam
  · intro used member
    apply bindParams_of_notMem
    intro param
    rcases available with own | earlier | ⟨other, otherInside, different, defined, dominates⟩
    · exact notParam own
    · cases earlier
    · rcases mem_defines.mp defined with own | here
      · exact verified.isInst_not_param inst otherInside own
      · obtain ⟨early, late, whole⟩ := List.append_of_mem here
        have before := grounded other (live_of_dominates dominates arrived) early value late whole used member
        have back := before.param_only_own verified arrived param ⟨_, whole.symm⟩ otherInside
        exact different (Lib.Dominates.antisymm arrived dominates back)

end Facts

end Rue.Cfg
