/-!
# File paths

Paths are texts with `/` between their parts; these operations look at the text alone.
-/

namespace MiniJam.Path

/-- The characters after the last `/`, and those up to it. -/
def splitLast (path : List Char) : List Char × List Char :=
  let back := path.reverse
  ((back.takeWhile (· ≠ '/')).reverse, (back.dropWhile (· ≠ '/')).reverse)

/-- The last part of a path; it is `.` for the empty path and `/` if there are only slashes. -/
def base (path : String) : String :=
  if path = "" then "."
  else
    let trimmed := (path.toList.reverse.dropWhile (· = '/')).reverse
    match (splitLast trimmed).1 with
    | [] => "/"
    | name => String.ofList name

/-- The extension of the last part, with its dot; it is empty without one. -/
def ext (path : String) : String :=
  let name := (splitLast path.toList).1.reverse
  if name.contains '.' then
    String.ofList ('.' :: (name.takeWhile (· ≠ '.')).reverse)
  else ""

/-- The path without its extension. -/
def dropExt (path : String) : String :=
  String.ofList (path.toList.take (path.length - (ext path).length))

def isAbsolute (path : String) : Bool :=
  path.toList.head? = some '/'

def parts (path : String) : List String := (path.toList.splitOn '/').map String.ofList

/-- The parts of a path, in reverse order, with one more part: `.` and empty parts stand for nothing,
and `..` undoes the part before it. -/
def push (rooted : Bool) (done : List String) (part : String) : List String :=
  if part = "" ∨ part = "." then done
  else if part = ".." then
    match done with
    | [] => if rooted then [] else [".."]
    | last :: before => if last = ".." then ".." :: done else before
  else part :: done

def ofParts (rooted : Bool) (parts : List String) : String :=
  if rooted then "/" ++ "/".intercalate parts
  else if parts = [] then "." else "/".intercalate parts

def clean (path : String) : String :=
  let rooted := isAbsolute path
  ofParts rooted ((parts path).foldl (push rooted) []).reverse

def dir (path : String) : String :=
  clean (String.ofList (splitLast path.toList).2)

def within (directory path : String) : String :=
  if isAbsolute path then clean path else clean (directory ++ "/" ++ path)

def object (source : String) : String := dropExt source ++ ".mJAM"

def symbols (object : String) : String := object ++ ".sym"

end MiniJam.Path
