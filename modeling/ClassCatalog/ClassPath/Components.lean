import ClassCatalog.Path
import ClassCatalog.Text.Blank

/-! Class path strings.

Components are separated by semicolons or colons. A colon behind a single letter is part
of a drive prefix when a slash or a backslash follows it. White space around a component
does not count, and empty components are dropped. -/
namespace ClassCatalog.ClassPath

def isLetter (c : Char) : Bool := c.isAlpha

/-- Whether a colon after the component so far (in reverse) belongs to a drive prefix. -/
def isDriveColon (before after : List Char) : Bool :=
  match before, after with
  | [c], d :: _ => isLetter c && (d = '\\' || d = '/')
  | _, _ => false

/-- The stretches between separators, given the one begun, in reverse. -/
def splitFrom : List Char → List Char → List (List Char)
  | begun, [] => [begun.reverse]
  | begun, c :: rest =>
    if c = ';' then begun.reverse :: splitFrom [] rest
    else if c = ':' && !isDriveColon begun rest then begun.reverse :: splitFrom [] rest
    else splitFrom (c :: begun) rest

def split (cs : List Char) : List (List Char) :=
  ((splitFrom [] cs).map Text.trim).filter (· ≠ [])

def hasDrive : List Char → Bool
  | c :: ':' :: d :: _ => isLetter c && (d = '\\' || d = '/')
  | _ => false

/-- A component as a path, seen from `workingDir` unless it says where it is. -/
def resolve (workingDir : Path) (component : List Char) : Path :=
  let text := String.ofList component
  if hasDrive component then ⟨text⟩ else workingDir.join text

def components (classPath : String) (workingDir : Path) : List Path :=
  (split classPath.toList).map (resolve workingDir)

end ClassCatalog.ClassPath
