import ByteView.Tool.Cli

/-!
# The command-line tool

The entry point of the tool: it looks up the path the command line names (a file, a directory,
or the system's reason why it cannot be opened), runs the command, writes the file back when the
command changed it, prints the two outputs and exits with the command's status. The command runs
on the host platform (`Platform.host`). The time reported for a sort is the time the command
took.
-/

namespace ByteView

/-- The system's text for an error number, the way the tool reports it. -/
def systemText (code : UInt32) : String :=
  let name := match code.toNat with
    | 2 => "No such file or directory"
    | 13 => "Permission denied"
    | 20 => "Not a directory"
    | 21 => "Is a directory"
    | 36 => "File name too long"
    | 40 => "Too many levels of symbolic links"
    | _ => "Input/output error"
  s!"{name} (os error {code})"

/-- The error number of a failed file operation, if it has one. -/
def errorCode : IO.Error → Option UInt32
  | .noFileOrDirectory _ code _ => some code
  | .permissionDenied _ code _ => some code
  | .inappropriateType _ code _ => some code
  | .invalidArgument _ code _ => some code
  | .noSuchThing _ code _ => some code
  | .resourceExhausted _ code _ => some code
  | .alreadyExists _ code _ => some code
  | .otherError code _ => some code
  | _ => none

/-- The system's text for a failed file operation. -/
def failureText (e : IO.Error) : String :=
  match errorCode e with
  | some code => systemText code
  | none => toString e

/-- Why the file at `path` cannot be opened for writing, if it cannot; opening it so neither
    creates nor truncates it. -/
def writeRefusal (path : String) : IO (Option String) := do
  match ← (IO.FS.Handle.mk path .readWrite).toBaseIO with
  | .ok _ => pure none
  | .error e => pure (some (failureText e))

/-- What the path `path` names. -/
def lookupEntry (path : String) : IO Tool.Entry := do
  match ← (IO.FS.readBinFile path).toBaseIO with
  | .ok bytes => pure (Tool.Entry.file bytes (← writeRefusal path))
  | .error e =>
    match errorCode e with
    | some 21 => pure (Tool.Entry.directory false)
    | _ => pure (.unreachable (failureText e))

end ByteView

open ByteView in
/-- Runs the tool on the command line. -/
def main (args : List String) : IO UInt32 := do
  let named ← match (Tool.readArgs args).file? with
    | some path => (fun entry => some (path, entry)) <$> lookupEntry path
    | none => pure none
  let entries (path : String) : Tool.Entry :=
    match named with
    | some (p, entry) => if p = path then entry else .unreachable Tool.missingText
    | none => .unreachable Tool.missingText
  let started ← IO.monoMsNow
  let r ← IO.lazyPure fun _ => Tool.run Platform.host args entries
  let finished ← IO.monoMsNow
  if let some (path, bytes) := r.written then
    IO.FS.writeBinFile path bytes
  IO.print (r.stdout (finished - started))
  IO.eprint r.stderr
  pure r.status.toUInt32
