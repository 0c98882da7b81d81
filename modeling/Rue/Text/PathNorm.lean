import Mathlib.Data.List.Basic

/-! Lexical normalization of module paths over the component rules of a Unix path.
A path is the characters of its spelling. -/

namespace Rue.Text.PathNorm

abbrev Path := List Char

inductive Component where
  | rootDir
  | curDir
  | parentDir
  | normal (name : List Char)
  deriving DecidableEq

namespace Component

def asOsStr : Component → List Char
  | .rootDir => ['/']
  | .curDir => ['.']
  | .parentDir => ['.', '.']
  | .normal name => name

def isNormal : Component → Bool
  | .normal _ => true
  | _ => false

end Component

def isAbsolute (path : Path) : Bool := path.head? = some '/'

/-- A piece of a path after its start; empty pieces and dots name nothing there. -/
def parseComponent (piece : List Char) : Option Component :=
  if piece = [] ∨ piece = ['.'] then none
  else if piece = ['.', '.'] then some .parentDir
  else some (.normal piece)

/-- A relative path that begins with a dot keeps it as its first component. -/
def components (path : Path) : List Component :=
  let start :=
    if isAbsolute path then [.rootDir]
    else if (path.splitOn '/').head? = some ['.'] then [.curDir] else []
  start ++ (path.splitOn '/').filterMap parseComponent

/-- `PathBuf::push`: an absolute path replaces the buffer. -/
def push (buf path : Path) : Path :=
  if isAbsolute path then path
  else if buf.getLast?.any (· ≠ '/') then buf ++ '/' :: path
  else buf ++ path

def join (path other : Path) : Path := push path other

def reduceComponent (absolute : Bool) (out : List Component) (comp : Component) : List Component :=
  match comp with
  | .curDir => out
  | .parentDir =>
    if out.getLast?.any Component.isNormal then out.dropLast
    else if absolute then out else out ++ [comp]
  | other => out ++ [other]

def normalizeModulePath (path : Path) : Path :=
  let out := (components path).foldl (reduceComponent (isAbsolute path)) []
  (out.map Component.asOsStr).foldl push []

end Rue.Text.PathNorm
