set_option autoImplicit false

/-!
# File names and their extensions
-/

namespace StreamFilter.Text

/-- The last part of a path that is not empty. -/
def fileName (path : String) : List Char :=
  let backwards := path.toList.reverse.dropWhile (· == '/')
  (backwards.takeWhile (· != '/')).reverse

/-- What follows the last point of a file name.  A name without a point has none,
and neither has one whose only point comes first. -/
def extension? (path : String) : Option String :=
  let name := fileName path
  if name == ['.', '.'] then none
  else
    let backwards := name.reverse
    match backwards.dropWhile (· != '.') with
    | '.' :: _ :: _ => some (String.ofList (backwards.takeWhile (· != '.')).reverse)
    | _ => none

/-- The directory of a file, without the slash behind it. -/
def directory (path : String) : String :=
  let backwards := path.toList.reverse.dropWhile (· != '/')
  String.ofList (backwards.dropWhile (· == '/')).reverse

end StreamFilter.Text
