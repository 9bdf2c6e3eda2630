import PermissionedLedger.Node.Request
import Std.Time

/-!
# The program

Takes a request from the command line, does what it asks with the files of the
machine at the time of its clock, and prints the report.
-/

namespace PermissionedLedger

open Time (Instant)

/-- Whether an operation goes through. -/
def succeeds (operation : IO Unit) : IO Bool :=
  try
    operation
    return true
  catch _ => return false

/-- The files of the machine. -/
instance : Files IO where
  has path := succeeds (discard (IO.FS.Handle.mk path .read))
  read path := do
    try return some (← IO.FS.readBinFile path).toList
    catch _ => return none
  write path contents := succeeds (IO.FS.writeBinFile path ⟨contents.toArray⟩)
  createDirectory path := succeeds (IO.FS.createDirAll path)

/-- The time of the clock, in whole seconds. -/
def clockTime : IO Instant := do
  let stamp ← Std.Time.Timestamp.now
  return (Instant.ofUnix? stamp.toSecondsSinceUnixEpoch.val 0).getD .epoch

/-- The text of a failure. -/
def CommandError.report (e : CommandError) : String :=
  match e.cause? with
  | some cause => s!"Error: {e.message}\n\nCaused by:\n    {cause.message}"
  | none => s!"Error: {e.message}"

end PermissionedLedger

open PermissionedLedger

/-- Does what the command line asks. -/
def main (words : List String) : IO UInt32 := do
  match Request.parse words with
  | .error problem =>
    IO.eprintln s!"error: {problem}"
    return 2
  | .ok request =>
    match ← (request.run (← clockTime)).run with
    | .ok report =>
      IO.print report
      return 0
    | .error e =>
      IO.eprintln e.report
      return 1
