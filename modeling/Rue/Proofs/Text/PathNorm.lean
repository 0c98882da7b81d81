import Rue.Lib.Lexical
import Rue.Text.PathNorm

/-! Normalized module paths are canonical: two spellings of one kind normalize alike
just when they name the same node from every deep enough directory. -/

namespace Rue.Proofs.Text.PathNorm
open Rue.Text.PathNorm Rue.Lib.Lexical

abbrev Directory := Node (List Char)

structure IsName (name : List Char) : Prop where
  nonempty : name ≠ []
  unslashed : '/' ∉ name
  notDot : name ≠ ['.']
  notDots : name ≠ ['.', '.']

/-- What a component does to the node reached so far, in a tree without links. -/
def visit (node : Directory) : Component → Directory
  | .rootDir => []
  | .curDir => node
  | .parentDir => node.tail
  | .normal name => name :: node

/-- The node a path names from a base directory. -/
def resolve (base : Directory) (path : Path) : Directory := (components path).foldl visit base

def toStep : Component → Option (Lib.Lexical.Step (List Char))
  | .parentDir => some .up
  | .normal name => some (.down name)
  | _ => none

def steps (path : Path) : List (Lib.Lexical.Step (List Char)) := (components path).filterMap toStep

def pieceStep (piece : List Char) : Option (Lib.Lexical.Step (List Char)) := (parseComponent piece).bind toStep

theorem steps_eq (path : Path) : steps path = (path.splitOn '/').filterMap pieceStep := by
  have start : (if isAbsolute path then [Component.rootDir]
      else if (path.splitOn '/').head? = some ['.'] then [.curDir] else []).filterMap toStep = [] := by
    split
    · rfl
    · split <;> rfl
  rw [steps, components, List.filterMap_append, start, List.nil_append, List.filterMap_filterMap]
  rfl

/-- After its start a path has no other root and no other dot. -/
theorem parsed_step {piece : List Char} {comp : Component} (parsed : parseComponent piece = some comp) :
    comp = .parentDir ∨ ∃ name, comp = .normal name ∧ piece = name := by
  rw [parseComponent] at parsed
  split at parsed
  · cases parsed
  · split at parsed
    · exact .inl (Option.some.inj parsed).symm
    · exact .inr ⟨piece, (Option.some.inj parsed).symm, rfl⟩

theorem foldl_visit {comps : List Component} (inner : ∀ comp ∈ comps, comp ≠ .rootDir) (node : Directory) :
    comps.foldl visit node = (comps.filterMap toStep).foldl enter node := by
  induction comps generalizing node with
  | nil => rfl
  | cons comp rest ih =>
    have later := ih fun other member => inner other (List.mem_cons_of_mem _ member)
    cases comp with
    | rootDir => exact absurd rfl (inner .rootDir List.mem_cons_self)
    | curDir => exact later node
    | parentDir => exact later node.tail
    | normal name => exact later (name :: node)

theorem body_inner (pieces : List (List Char)) : ∀ comp ∈ pieces.filterMap parseComponent, comp ≠ .rootDir := by
  intro comp member
  obtain ⟨piece, -, parsed⟩ := List.mem_filterMap.mp member
  rcases parsed_step parsed with rfl | ⟨name, rfl, -⟩ <;> exact Component.noConfusion

/-- A path is its root, if it has one, and components that are no root. -/
theorem components_split (path : Path) : ∃ inner, components path = (if isAbsolute path then [.rootDir] else []) ++ inner ∧
    (∀ comp ∈ inner, comp ≠ Component.rootDir) ∧ inner.filterMap toStep = steps path := by
  have body := body_inner (path.splitOn '/')
  by_cases absolute : isAbsolute path
  · refine ⟨(path.splitOn '/').filterMap parseComponent, ?_, body, ?_⟩
    · simp only [components, absolute, if_true]
    · rw [steps_eq, List.filterMap_filterMap]
      rfl
  · refine ⟨components path, by simp only [absolute, if_false, Bool.false_eq_true, List.nil_append], ?_, rfl⟩
    intro comp member
    rw [components, List.mem_append] at member
    rcases member with first | later
    · simp only [absolute, Bool.false_eq_true, if_false] at first
      split at first
      · rw [List.mem_singleton.mp first]
        exact Component.noConfusion
      · cases first
    · exact body comp later

theorem resolve_eq (base : Directory) (path : Path) :
    resolve base path = (steps path).foldl enter (if isAbsolute path then [] else base) := by
  obtain ⟨inner, split, plain, same⟩ := components_split path
  rw [resolve, split, List.foldl_append, foldl_visit plain, same]
  by_cases absolute : isAbsolute path <;> simp only [absolute, if_true, Bool.false_eq_true, if_false] <;> rfl

/-- The stack of components that stands for a reduced walk. -/
def shape (absolute : Bool) (form : Form (List Char)) : List Component :=
  (if absolute then [.rootDir] else List.replicate form.ups .parentDir) ++ form.names.reverse.map .normal

theorem reduceComponent_shape (absolute : Bool) (form : Form (List Char)) {comp : Component} (inner : comp ≠ .rootDir) :
    reduceComponent absolute (shape absolute form) comp = shape absolute ((toStep comp).toList.foldl Form.step form) := by
  cases comp with
  | rootDir => exact absurd rfl inner
  | curDir => rfl
  | normal name => simp [reduceComponent, shape, toStep, Form.step]
  | parentDir =>
    rcases form with ⟨ups, names⟩
    cases names with
    | cons name rest => simp [reduceComponent, shape, toStep, Form.step, Component.isNormal]
    | nil =>
      cases absolute with
      | true => simp [reduceComponent, shape, toStep, Form.step, Component.isNormal]
      | false =>
        cases ups with
        | zero => simp [reduceComponent, shape, toStep, Form.step]
        | succ ups => simp [reduceComponent, shape, toStep, Form.step, Component.isNormal, List.replicate_succ']

theorem foldl_shape (absolute : Bool) {comps : List Component} (inner : ∀ comp ∈ comps, comp ≠ .rootDir)
    (form : Form (List Char)) : comps.foldl (reduceComponent absolute) (shape absolute form) =
      shape absolute ((comps.filterMap toStep).foldl Form.step form) := by
  induction comps generalizing form with
  | nil => rfl
  | cons comp rest ih =>
    rw [List.foldl_cons, reduceComponent_shape absolute form (inner comp List.mem_cons_self),
      ih fun other member => inner other (List.mem_cons_of_mem _ member)]
    cases step : toStep comp with
    | none => rw [List.filterMap_cons_none step]; rfl
    | some walked => rw [List.filterMap_cons_some step]; rfl

/-- The loop over the components leaves the reduced walk. -/
theorem reduced_shape (path : Path) : (components path).foldl (reduceComponent (isAbsolute path)) [] =
    shape (isAbsolute path) (reduce (steps path)) := by
  obtain ⟨inner, split, plain, same⟩ := components_split path
  have start : (if isAbsolute path then [Component.rootDir] else []).foldl (reduceComponent (isAbsolute path)) [] =
      shape (isAbsolute path) .start := by
    cases isAbsolute path <;> rfl
  rw [split, List.foldl_append, start, foldl_shape _ plain, same]
  rfl

theorem unslashed_of_mem_splitOn {path : Path} {piece : List Char} (member : piece ∈ path.splitOn '/') : '/' ∉ piece := by
  induction path generalizing piece with
  | nil =>
    rw [List.splitOn_nil, List.mem_singleton] at member
    simp [member]
  | cons first rest ih =>
    rw [List.splitOn_cons_eq_if_modifyHead] at member
    split at member
    · rcases List.mem_cons.mp member with rfl | later
      · exact List.not_mem_nil
      · exact ih later
    next other =>
      cases pieces : rest.splitOn '/' with
      | nil => exact absurd pieces (List.splitOn_ne_nil '/' rest)
      | cons head tail =>
        rw [pieces] at member ih
        rcases List.mem_cons.mp member with rfl | later
        · rw [List.mem_cons, not_or]
          exact ⟨fun same => other (beq_iff_eq.mpr same.symm), ih List.mem_cons_self⟩
        · exact ih (List.mem_cons_of_mem _ later)

theorem parse_name {name : List Char} (sound : IsName name) : parseComponent name = some (.normal name) := by
  rw [parseComponent, if_neg (not_or.mpr ⟨sound.nonempty, sound.notDot⟩), if_neg sound.notDots]

theorem isName_of_step {path : Path} {name : List Char} (member : .down name ∈ steps path) : IsName name := by
  rw [steps_eq] at member
  obtain ⟨piece, piece', stepped⟩ := List.mem_filterMap.mp member
  obtain ⟨comp, parsed, walked⟩ := Option.bind_eq_some_iff.mp stepped
  rcases parsed_step parsed with rfl | ⟨other, rfl, rfl⟩
  · cases walked
  · cases walked
    rw [parseComponent] at parsed
    split at parsed
    · cases parsed
    next named =>
      split at parsed
      · cases parsed
      next notDots =>
        obtain ⟨nonempty, notDot⟩ := not_or.mp named
        exact ⟨nonempty, unslashed_of_mem_splitOn piece', notDot, notDots⟩

/-- A piece that survives in a buffer: nonempty, and no part of it a separator. -/
structure IsPiece (piece : List Char) : Prop where
  nonempty : piece ≠ []
  unslashed : '/' ∉ piece

theorem IsPiece.relative {piece : List Char} (sound : IsPiece piece) : isAbsolute piece = false := by
  cases piece with
  | nil => rfl
  | cons first rest =>
    rw [isAbsolute, decide_eq_false_iff_not, List.head?_cons, Option.some.injEq]
    intro same
    exact sound.unslashed (same ▸ List.mem_cons_self)

theorem IsPiece.unfinished {piece : List Char} (sound : IsPiece piece) (buf : Path) :
    (buf ++ piece).getLast?.any (· ≠ '/') := by
  rw [List.getLast?_append_of_ne_nil _ sound.nonempty, List.getLast?_eq_some_getLast sound.nonempty]
  have last := List.getLast_mem sound.nonempty
  exact decide_eq_true fun same => sound.unslashed (same ▸ last)

/-- After a piece, each further one is set off by a separator. -/
theorem foldl_push {pieces : List (List Char)} (sound : ∀ piece ∈ pieces, IsPiece piece) {buf : Path}
    (unfinished : buf.getLast?.any (· ≠ '/')) : pieces.foldl push buf = buf ++ pieces.flatMap ('/' :: ·) := by
  induction pieces generalizing buf with
  | nil => exact (List.append_nil buf).symm
  | cons piece rest ih =>
    have here := sound piece List.mem_cons_self
    have pushed : push buf piece = buf ++ '/' :: piece := by
      rw [push, if_neg (by rw [here.relative]; exact Bool.false_ne_true), if_pos unfinished]
    have next := here.unfinished (buf ++ ['/'])
    rw [List.append_assoc, List.singleton_append] at next
    rw [List.foldl_cons, pushed, ih (fun other member => sound other (List.mem_cons_of_mem _ member)) next]
    simp

def root (absolute : Bool) : Path := if absolute then ['/'] else []

def render (absolute : Bool) : List (List Char) → Path
  | [] => root absolute
  | piece :: rest => root absolute ++ piece ++ rest.flatMap ('/' :: ·)

theorem foldl_push_root (absolute : Bool) {pieces : List (List Char)} (sound : ∀ piece ∈ pieces, IsPiece piece) :
    pieces.foldl push (root absolute) = render absolute pieces := by
  cases pieces with
  | nil => rfl
  | cons piece rest =>
    have here := sound piece List.mem_cons_self
    have pushed : push (root absolute) piece = root absolute ++ piece := by
      rw [push, if_neg (by rw [here.relative]; exact Bool.false_ne_true)]
      cases absolute <;> rfl
    rw [List.foldl_cons, pushed, foldl_push (fun other member => sound other (List.mem_cons_of_mem _ member)) (here.unfinished _)]
    rfl

theorem splitOn_pieces {piece : List Char} {rest : List (List Char)} (sound : ∀ other ∈ piece :: rest, IsPiece other) :
    (piece ++ rest.flatMap ('/' :: ·)).splitOn '/' = piece :: rest := by
  induction rest generalizing piece with
  | nil =>
    rw [List.flatMap_nil, List.append_nil]
    exact List.splitOn_eq_singleton (sound piece List.mem_cons_self).unslashed
  | cons next rest ih =>
    rw [List.flatMap_cons, List.cons_append,
      List.splitOn_append_cons_self_of_not_mem (sound piece List.mem_cons_self).unslashed,
      ih fun other member => sound other (List.mem_cons_of_mem _ member)]

theorem isAbsolute_render (absolute : Bool) {pieces : List (List Char)} (sound : ∀ piece ∈ pieces, IsPiece piece) :
    isAbsolute (render absolute pieces) = absolute := by
  cases absolute with
  | true => cases pieces <;> rfl
  | false =>
    cases pieces with
    | nil => rfl
    | cons piece rest =>
      have here := sound piece List.mem_cons_self
      cases piece with
      | nil => exact absurd rfl here.nonempty
      | cons first later => exact here.relative

theorem components_render (absolute : Bool) {pieces : List (List Char)} (sound : ∀ piece ∈ pieces, IsPiece piece)
    (notDot : ∀ piece ∈ pieces, piece ≠ ['.']) : components (render absolute pieces) =
      (if absolute then [.rootDir] else []) ++ pieces.filterMap parseComponent := by
  have kind := isAbsolute_render absolute sound
  cases pieces with
  | nil => cases absolute <;> rfl
  | cons piece rest =>
    have read := splitOn_pieces sound
    cases absolute with
    | true =>
      have rooted : (render true (piece :: rest)).splitOn '/' = [] :: piece :: rest := by
        have under := (List.splitOn_cons_eq_if_modifyHead '/' (piece ++ rest.flatMap ('/' :: ·))).trans
          (if_pos (beq_self_eq_true '/'))
        rw [read] at under
        exact under
      simp only [components, kind, if_true, rooted]
      rfl
    | false =>
      have bare : (render false (piece :: rest)).splitOn '/' = piece :: rest := read
      have first : ¬some piece = some ['.'] := fun same => notDot piece List.mem_cons_self (Option.some.inj same)
      simp only [components, kind, Bool.false_eq_true, if_false, bare, List.head?_cons, if_neg first]

/-- The pieces a reduced walk is written with. -/
def pieces (absolute : Bool) (form : Form (List Char)) : List (List Char) :=
  (if absolute then [] else List.replicate form.ups ['.', '.']) ++ form.names.reverse

theorem shape_pieces (absolute : Bool) (form : Form (List Char)) :
    ((shape absolute form).map Component.asOsStr).foldl push [] = (pieces absolute form).foldl push (root absolute) := by
  have names : (form.names.reverse.map Component.normal).map Component.asOsStr = form.names.reverse := by
    rw [List.map_map]
    exact List.map_id _
  rw [shape, List.map_append, names, pieces]
  cases absolute with
  | true => rfl
  | false => simp only [Bool.false_eq_true, if_false, List.map_replicate, root, Component.asOsStr]

variable {absolute : Bool} {form : Form (List Char)}

theorem pieces_sound (named : ∀ name ∈ form.names, IsName name) {piece : List Char} (member : piece ∈ pieces absolute form) :
    IsPiece piece ∧ piece ≠ ['.'] := by
  rcases List.mem_append.mp member with ascent | name
  · split at ascent
    · cases ascent
    · rw [List.eq_of_mem_replicate ascent]
      exact ⟨⟨List.cons_ne_nil _ _, by decide⟩, by decide⟩
  · have sound := named piece (List.mem_reverse.mp name)
    exact ⟨⟨sound.nonempty, sound.unslashed⟩, sound.notDot⟩

theorem parse_pieces (named : ∀ name ∈ form.names, IsName name) :
    (if absolute then [.rootDir] else []) ++ (pieces absolute form).filterMap parseComponent = shape absolute form := by
  have names : form.names.reverse.filterMap parseComponent = form.names.reverse.map .normal := by
    rw [← List.filterMap_eq_map]
    apply List.filterMap_congr
    intro name member
    exact parse_name (named name (List.mem_reverse.mp member))
  have dots : parseComponent ['.', '.'] = some .parentDir := rfl
  rw [pieces, List.filterMap_append, names, shape, ← List.append_assoc]
  cases absolute with
  | true => rfl
  | false => simp only [Bool.false_eq_true, if_false, List.nil_append, List.filterMap_replicate_of_some dots]

/-- A normalized path keeps its kind, and its components are the reduced walk. -/
theorem components_normalize (path : Path) :
    isAbsolute (normalizeModulePath path) = isAbsolute path ∧
      components (normalizeModulePath path) = shape (isAbsolute path) (reduce (steps path)) := by
  have named : ∀ name ∈ (reduce (steps path)).names, IsName name := fun name member => isName_of_step (mem_reduce member)
  have sound := fun piece member => @pieces_sound (isAbsolute path) _ named piece member
  have written : normalizeModulePath path = render (isAbsolute path) (pieces (isAbsolute path) (reduce (steps path))) := by
    simp only [normalizeModulePath, reduced_shape, shape_pieces]
    exact foldl_push_root _ fun piece member => (sound piece member).1
  rw [written]
  refine ⟨isAbsolute_render _ fun piece member => (sound piece member).1, ?_⟩
  rw [components_render _ (fun piece member => (sound piece member).1) (fun piece member => (sound piece member).2)]
  exact parse_pieces named

theorem normalize_congr {first second : Path}
    (same : shape (isAbsolute first) (reduce (steps first)) = shape (isAbsolute second) (reduce (steps second))) :
    normalizeModulePath first = normalizeModulePath second := by
  simp only [normalizeModulePath, reduced_shape, same]

theorem shape_names {first second : Form (List Char)} (same : first.names = second.names) :
    shape true first = shape true second := by
  simp only [shape, if_true, same]

/-- What is left of a reduced walk when it starts at the root. -/
def settle (absolute : Bool) (form : Form (List Char)) : Form (List Char) := ⟨if absolute then 0 else form.ups, form.names⟩

theorem toStep_shape : (shape absolute form).filterMap toStep = (settle absolute form).steps := by
  have names : (form.names.reverse.map Component.normal).filterMap toStep = form.names.reverse.map .down := by
    rw [List.filterMap_map, ← List.filterMap_eq_map]
    rfl
  rw [shape, List.filterMap_append, names, Form.steps]
  cases absolute with
  | true => rfl
  | false =>
    have dots : toStep .parentDir = some .up := rfl
    simp only [Bool.false_eq_true, if_false, List.filterMap_replicate_of_some dots, settle]

theorem reduce_normalize (path : Path) :
    reduce (steps (normalizeModulePath path)) = settle (isAbsolute path) (reduce (steps path)) := by
  rw [steps, (components_normalize path).2, toStep_shape, reduce_steps]

theorem normalize_idempotent (path : Path) : normalizeModulePath (normalizeModulePath path) = normalizeModulePath path := by
  have kind := (components_normalize path).1
  apply normalize_congr
  rw [kind, reduce_normalize]
  cases isAbsolute path <;> rfl

theorem resolve_normalize (base : Directory) (path : Path) : resolve base (normalizeModulePath path) = resolve base path := by
  rw [resolve_eq, resolve_eq, (components_normalize path).1, ← apply_reduce, ← apply_reduce, reduce_normalize]
  cases isAbsolute path with
  | false => rfl
  | true => simp [settle, Form.apply]

theorem steps_join (base : Path) {path : Path} (relative : isAbsolute path = false) :
    isAbsolute (join base path) = isAbsolute base ∧ steps (join base path) = steps base ++ steps path := by
  have plain : ¬isAbsolute path = true := by rw [relative]; exact Bool.false_ne_true
  rw [join, push, if_neg plain]
  split
  next unfinished =>
    refine ⟨?_, ?_⟩
    · cases base with
      | nil => cases unfinished
      | cons first rest => rfl
    · rw [steps_eq, steps_eq, steps_eq, List.splitOn_append_cons_self, List.filterMap_append]
  next finished =>
    rcases List.eq_nil_or_concat base with rfl | ⟨front, last, rfl⟩
    · refine ⟨?_, rfl⟩
      rw [List.nil_append, relative]
      rfl
    · rw [List.concat_eq_append] at finished ⊢
      obtain rfl : last = '/' := by
        rw [List.getLast?_concat] at finished
        exact not_not.mp fun other => finished (decide_eq_true other)
      refine ⟨?_, ?_⟩
      · cases front <;> rfl
      · rw [List.append_assoc, List.singleton_append, steps_eq, steps_eq, steps_eq, List.splitOn_append_cons_self,
          List.splitOn_append_cons_self, List.filterMap_append, List.filterMap_append, List.splitOn_nil]
        have blank : pieceStep [] = none := rfl
        rw [List.filterMap_cons_none blank, List.filterMap_nil, List.append_nil]

/-- Joining onto a normalized directory cancels across the seam as before. -/
theorem normalize_join (base : Path) {path : Path} (relative : isAbsolute path = false) :
    normalizeModulePath (join base path) = normalizeModulePath (join (normalizeModulePath base) path) := by
  have kind := (components_normalize base).1
  have first := steps_join base relative
  have second := steps_join (normalizeModulePath base) relative
  apply normalize_congr
  rw [first.1, first.2, second.1, second.2, kind, reduce, reduce, List.foldl_append, List.foldl_append]
  have seam : (steps (normalizeModulePath base)).foldl Form.step .start = settle (isAbsolute base) (reduce (steps base)) :=
    reduce_normalize base
  rw [seam]
  cases isAbsolute base with
  | false => rfl
  | true => exact shape_names (foldl_names _ rfl)

/-- Spellings of one kind that name the same node from every deep enough directory
leave the same stack. -/
theorem shape_of_resolve {first second : Path} (kind : isAbsolute first = isAbsolute second) {depth : Nat}
    (agree : ∀ base : Directory, (∀ name ∈ base, IsName name) → depth ≤ base.length → resolve base first = resolve base second) :
    shape (isAbsolute first) (reduce (steps first)) = shape (isAbsolute second) (reduce (steps second)) := by
  have a : IsName ['a'] := ⟨by decide, by decide, by decide, by decide⟩
  have b : IsName ['b'] := ⟨by decide, by decide, by decide, by decide⟩
  simp only [resolve_eq, ← apply_reduce, ← kind] at agree
  rw [← kind]
  cases absolute : isAbsolute first with
  | true =>
    have ends := agree (List.replicate depth ['a'])
      (fun name member => List.eq_of_mem_replicate member ▸ a) (Nat.le_of_eq List.length_replicate.symm)
    simp only [absolute, if_true, Form.apply, List.drop_nil, List.append_nil] at ends
    exact shape_names ends
  | false =>
    simp only [absolute, Bool.false_eq_true, if_false] at agree
    congr 1
    apply @Form.separated _ _ _ ['a'] ['b'] (by decide) depth
    intro fresh either length deep
    apply agree _ _ (by rw [List.length_replicate]; exact deep)
    intro name member
    rw [List.eq_of_mem_replicate member]
    rcases either with rfl | rfl
    · exact a
    · exact b

/-- Normalization is a canonical form for lexical resolution: it decides whether two
spellings of one kind name the same node from every deep enough directory, keeps no
ascent above a root and ascents only before names otherwise, changes nothing the
second time, and commutes with joining a relative path. -/
theorem normalizeModulePath_canonical (path other base : Path) :
    (isAbsolute path = isAbsolute other →
      (normalizeModulePath path = normalizeModulePath other ↔ ∃ depth, ∀ directory : Directory,
        (∀ name ∈ directory, IsName name) → depth ≤ directory.length → resolve directory path = resolve directory other)) ∧
    normalizeModulePath (normalizeModulePath path) = normalizeModulePath path ∧
    (isAbsolute path = true → ∃ names : List (List Char), (∀ name ∈ names, IsName name) ∧
      components (normalizeModulePath path) = .rootDir :: names.map .normal) ∧
    (isAbsolute path = false → ∃ (ups : Nat) (names : List (List Char)), (∀ name ∈ names, IsName name) ∧
      isAbsolute (normalizeModulePath path) = false ∧
      components (normalizeModulePath path) = List.replicate ups .parentDir ++ names.map .normal) ∧
    (isAbsolute path = false → normalizeModulePath (join base path) = normalizeModulePath (join (normalizeModulePath base) path)) := by
  have named : ∀ name ∈ (reduce (steps path)).names.reverse, IsName name :=
    fun name member => isName_of_step (mem_reduce (List.mem_reverse.mp member))
  obtain ⟨kept, listed⟩ := components_normalize path
  refine ⟨fun kind => ⟨fun same => ⟨0, fun directory _ _ => ?_⟩, fun ⟨depth, agree⟩ => normalize_congr (shape_of_resolve kind agree)⟩,
    normalize_idempotent path, fun absolute => ⟨_, named, ?_⟩, fun relative => ⟨(reduce (steps path)).ups, _, named, kept.trans relative, ?_⟩,
    normalize_join base⟩
  · rw [← resolve_normalize directory path, ← resolve_normalize directory other, same]
  · rw [listed, absolute]
    rfl
  · rw [listed, relative]
    rfl

theorem seam_canonical : normalizeModulePath (join ['a', '/', '.', '.', '/', '.', '.'] ['x', '/', '.']) =
    normalizeModulePath (join ['.', '.'] ['x']) ∧ normalizeModulePath ['.'] = [] := by
  have across := (normalizeModulePath_canonical ['x', '/', '.'] [] ['a', '/', '.', '.', '/', '.', '.']).2.2.2.2 rfl
  have dot := (normalizeModulePath_canonical ['.'] [] []).1 rfl
  refine ⟨across.trans rfl, (dot.mpr ⟨0, fun directory _ _ => ?_⟩).trans rfl⟩
  rfl

end Rue.Proofs.Text.PathNorm
