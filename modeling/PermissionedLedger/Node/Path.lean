/-!
# Paths

Names of files and directories. Components are separated by slashes; repeated
slashes and components of one dot have no meaning of their own, and a slash at the
front makes a path absolute.
-/

namespace PermissionedLedger

/-- A path as it is written. -/
abbrev Path := String

namespace Path

/-- The components, in order. A path that is absolute begins with a component of one slash, and a
dot counts only at the front. -/
def components (p : Path) : List String :=
  let parts := (p.splitOn "/").filter (· ≠ "")
  match p.startsWith "/", parts with
  | true, parts => "/" :: parts.filter (· ≠ ".")
  | false, "." :: parts => "." :: parts.filter (· ≠ ".")
  | false, parts => parts.filter (· ≠ ".")

/-- The path with these components. -/
def ofComponents : List String → Path
  | "/" :: parts => "/" ++ String.intercalate "/" parts
  | parts => String.intercalate "/" parts

/-- A path below another; one that is absolute stands for itself. -/
def join (base p : Path) : Path :=
  if p.startsWith "/" || base.isEmpty then p
  else if base.endsWith "/" then base ++ p
  else base ++ "/" ++ p

/-- The directory that holds what a path names. The empty path and the root have none. -/
def parent? (p : Path) : Option Path :=
  match p.components with
  | [] | ["/"] => none
  | parts => some (ofComponents parts.dropLast)

/-- Whether the path can only name a directory, since it ends in a slash or a dot. -/
def namesDirectory (p : Path) : Bool := p.endsWith "/" || p.endsWith "/." || p = "."

end Path

end PermissionedLedger
