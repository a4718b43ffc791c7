/-!
# Paths

A path is a text of components with slashes between them.
-/

namespace Kennel.Cli.Path

/-- The components of a path, empty ones included. -/
def split : List Char → List (List Char)
  | [] => [[]]
  | c :: cs =>
    if c = '/' then [] :: split cs
    else
      match split cs with
      | [] => [[c]]
      | p :: ps => (c :: p) :: ps

def components (path : String) : List String := (split path.toList).map String.ofList

/-- Replace the extension of a file name, given last character first, by `s`. The extension begins
at the last dot, unless nothing stands before that dot; a name without one gets one. With the
extension gone, `..` is left of a name such as `..x`; that is not a file name, and stays. -/
def toListingRev (name : List Char) : List Char :=
  match name.dropWhile (· != '.') with
  | [] | ['.'] => 's' :: '.' :: name
  | ['.', '.'] => ['.', '.']
  | stem => 's' :: stem

/-- The path at which the listing of a file is put: beside the file, with the extension `s`. The
path of a file ends with its name, not with a slash or in a directory's `.` or `..`. -/
def listing (path : String) : String :=
  let cs := path.toList.reverse
  let name := cs.takeWhile (· != '/')
  String.ofList (toListingRev name ++ cs.dropWhile (· != '/')).reverse

end Kennel.Cli.Path
