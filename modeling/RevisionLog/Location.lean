/-!
# Locations

Paths of files: which directory a file lies in, and when two paths name the same file.

* `Location.parent` — the directory part of a path, as it is told.
* `Location.parts` — the names along a path, the same for all spellings of it.
* `Location.isBelow` — whether one path leads through another.
-/

namespace RevisionLog.Location

/-- A path without the slashes at its end. -/
def withoutSlashes (path : List Char) : List Char := (path.reverse.dropWhile (· = '/')).reverse

/-- The directory part of a path: empty if there is none, or if the path is the root. -/
def parent (path : String) : String :=
  let upTo := (withoutSlashes path.toList).reverse.dropWhile (· ≠ '/')
  String.ofList (withoutSlashes upTo.reverse)

/-- The names along a path. A leading slash counts as an empty name; a name for the directory itself
counts for nothing, and one for the directory above takes back the name before it. -/
def parts (path : String) : List String :=
  let names := path.splitOn "/"
  let absolute := path.startsWith "/"
  let step (reached : List String) (name : String) : List String :=
    if name = "" ∨ name = "." then reached
    else if name = ".." then (match reached with
      | [] => [".."]
      | ".." :: _ => ".." :: reached
      | _ :: rest => rest)
    else name :: reached
  let walked := (names.foldl step []).reverse
  if absolute then "" :: walked else walked

/-- Whether a path leads through another one, or is it. -/
def isBelow (path other : List String) : Bool := other.isPrefixOf path

end RevisionLog.Location
