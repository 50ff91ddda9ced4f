/-!
# Paths

A path is a text whose parts are divided by slashes.  What the parts lead to is
the matter of a tree of files; here is what the text alone decides.
-/

namespace Dynarec
namespace Path

def maxBytes : Nat := 4095

def maxPartBytes : Nat := 255

def parts (path : String) : List String :=
  path.splitOn "/"

def isAbsolute (path : String) : Bool :=
  path.startsWith "/"

/-- The parts of a path without the slashes at its end. -/
def trimmedParts (path : String) : List String :=
  ((parts path).reverse.dropWhile (· = "")).reverse

/-- The path in front of the last name, without the slash between them. -/
def parent? (path : String) : Option String :=
  let front := ((path.toList.reverse.dropWhile (· = '/')).dropWhile (· ≠ '/')).length
  if 1 < front then some (String.ofList (path.toList.take (front - 1))) else none

/-- The parts that a further part leaves, the last one first.  Empty parts and dots add
nothing, and two dots take back a name; above the root there is nothing. -/
def step (absolute : Bool) (kept : List String) (part : String) : List String :=
  if part = "" ∨ part = "." then kept
  else if part = ".." then
    match kept with
    | [] => if absolute then [] else [part]
    | last :: rest => if last = ".." then part :: kept else rest
  else part :: kept

def shortest (path : String) : String :=
  let kept := (parts path).foldl (step (isAbsolute path)) []
  let text := "/".intercalate kept.reverse
  if isAbsolute path then "/" ++ text else if text = "" then "." else text

def join (directory name : String) : String :=
  shortest (directory ++ "/" ++ name)

end Path
end Dynarec
