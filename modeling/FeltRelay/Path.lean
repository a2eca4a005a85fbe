import FeltRelay.Text.Case

/-!
# File paths

A path is a text with slashes between its parts. Empty parts and parts of one dot do not count, two
slashes in front (and not three) are kept, and the path without parts is a dot.
-/

namespace FeltRelay.Path

def root : List Char → List Char
  | '/' :: '/' :: '/' :: _ => ['/']
  | '/' :: '/' :: _ => ['/', '/']
  | '/' :: _ => ['/']
  | _ => []

def parts (path : String) : List (List Char) :=
  (path.toList.splitOnP (· = '/')).filter fun p => p ≠ [] && p ≠ ['.']

/-- The spelling of a path with a root, perhaps an empty one, and parts. -/
def spell (root : List Char) (parts : List (List Char)) : String :=
  let s := root ++ List.intercalate ['/'] parts
  if s.isEmpty then "." else String.ofList s

def normal (path : String) : String := spell (root path.toList) (parts path)

def name (path : String) : String := String.ofList ((parts path).getLastD [])

/-- The end of the last part from its last dot on; a dot in front or at the end does not count. -/
def suffix (path : String) : String :=
  let s := ((parts path).getLastD []).reverse
  let tail := s.takeWhile (· ≠ '.')
  let before := s.drop (tail.length + 1)
  if tail.isEmpty || before.isEmpty then "" else String.ofList ('.' :: tail.reverse)

/-- A path below a directory. An absolute path stands for itself. -/
def join (directory path : String) : String :=
  if path.toList.head? = some '/' then normal path
  else if directory.toList.getLast? = some '/' then normal (directory ++ path)
  else normal (directory ++ "/" ++ path)

/-- The directories above a path, nearest first, the current one left out. -/
def above (path : String) : List String :=
  let ps := parts path
  let lead := root path.toList
  ((List.range ps.length).reverse.map fun n =>
    String.ofList (lead ++ List.intercalate ['/'] (ps.take n))).filter (· ≠ "")

example : normal "a//b/./c/" = "a/b/c" := by decide +kernel
example : suffix "dir.d/x.YAML" = ".YAML" := by decide +kernel
example : suffix ".yaml" = "" := by decide +kernel
example : above "a/b/c" = ["a/b", "a"] := by decide +kernel

end FeltRelay.Path
