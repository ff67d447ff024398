import ByteView.Mapping.File
import ByteView.Records.Sort
import ByteView.Tool.Args
import ByteView.Tool.Report

/-!
# Commands of the tool

The four commands, each on the file at one path:

* `info` maps the file read-only and reports its size and layout;
* `get` maps it read-only and reads one value (widths other than 1, 2 and 4 read 8 bytes);
* `sort` checks the key, maps the file read-write, finds the record area and sorts the records
  in place, by key or by their bytes;
* `verify` checks the key, maps the file read-only, finds the record area and reports whether
  its records are in order; records out of order make it fail after the report.

A path may name something that opens (a file, a device, a directory, a kernel attribute: it
shows some bytes, may refuse to be opened for writing, and may have bytes that cannot be mapped)
or nothing that can be opened (`Entry`). A command gives what it printed, whether it failed (a chain of
messages, outermost first, or an abort), and the bytes it wrote back to its file.
-/

namespace ByteView

namespace Tool

/-- The system's text for a path that names nothing. -/
def missingText : String := "No such file or directory (os error 2)"

/-- The system's text for a directory opened for writing. -/
def directoryText : String := "Is a directory (os error 21)"

/-- What a path names when a command opens it. -/
inductive Entry where
  /-- Something that opens for reading and shows `bytes`; a region of it that has bytes maps
      only when it is `mappable`, and `writeRefusal` is the system's text when it cannot be
      opened for writing. -/
  | opened (bytes : ByteArray) (mappable : Bool) (writeRefusal : Option String)
  /-- Nothing that can be opened; `reason` is the system's text. -/
  | unreachable (reason : String)

/-- A file with `bytes`; `writeRefusal` as for `Entry.opened`. -/
def Entry.file (bytes : ByteArray) (writeRefusal : Option String) : Entry :=
  .opened bytes true writeRefusal

/-- A directory: it opens for reading only, and its bytes cannot be mapped. Most directories
    report some bytes; those of the kernel's own file systems report none (`empty`), and map as
    an empty region. -/
def Entry.directory (empty : Bool) : Entry :=
  .opened (if empty then ByteArray.empty else Bytes.zeros 1) false (some directoryText)

/-- What a command printed before it finished or failed. -/
inductive Output where
  | nothing
  | text (s : String)
  | info (r : InfoReport)
  | value (r : GetReport)
  | sorted (r : SortReport)
  | verified (r : Records.Report)

/-- The text of an output; `elapsedMs` is the time a sort took. -/
def Output.render (o : Output) (format : Format) (elapsedMs : Nat) : String :=
  match o with
  | .nothing => ""
  | .text s => s
  | .info r => r.render format
  | .value r => r.render format
  | .sorted r => r.render elapsedMs format
  | .verified r => renderVerify r format

/-- How a command failed. -/
inductive Failure where
  /-- It reported an error: the outermost message first, then its causes. -/
  | error (chain : List String)
  /-- It stopped at once, with this message (see `Fault.aborts`). -/
  | abort (message : String)

/-- The failure of a fault met under the context `context`, if any. -/
def Failure.ofFault (context : List String) (f : Fault) : Failure :=
  if f.aborts then .abort f.message else .error (context ++ f.chain)

/-- The outcome of a command. -/
structure Outcome where
  /-- What it printed. -/
  output : Output
  /-- Why it failed. -/
  failure : Option Failure
  /-- The bytes it wrote back to its file, if it wrote. -/
  written : Option ByteArray := none

/-- Opens and maps the entry at `path` with `options` on the platform `p`, opened for writing
    when the mode is read-write. -/
def openFile (p : Platform) (path : String) (entry : Entry) (o : Mapping.Options) :
    Except Failure (Store × Mapping.Resource) :=
  let context := s!"Failed to map {path}"
  let refused (reason : String) : Except Failure (Store × Mapping.Resource) :=
    .error (.error [context, (Fault.io reason).message, reason])
  match entry with
  | .unreachable reason => refused reason
  | .opened bytes mappable writeRefusal =>
    match writeRefusal, o.mode with
    | some reason, .readWrite => refused reason
    | _, _ =>
      match (Mapping.mapAuto p o).run ⟨.ofBytes bytes, o.mode = .readWrite, mappable⟩ with
      | .ok s r => .ok (s, r)
      | .error f _ => .error (Failure.ofFault [context] f)

/-- A failed command that printed nothing and wrote nothing. -/
def failedWith (failure : Failure) : Outcome :=
  { output := .nothing, failure := some failure }

/-- Reports the size and layout of the file. -/
def info (p : Platform) (path : String) (entry : Entry) (map : MapArgs) : Outcome :=
  let o := map.options .readOnly
  match openFile p path entry o with
  | .error failure => failedWith failure
  | .ok (s, _) =>
    let report : InfoReport := {
      path, size := s.size, strategy := s.strategy, segments := s.segmentCount,
      segmentSize := if s.strategy = .segmented then some o.segmentSize else none,
      byteOrder := s.order }
    { output := .info report, failure := none }

/-- Reads the value of `width` bytes at `pos`: widths 1, 2 and 4 as such, any other as 8. -/
def readValue (v : View) (pos width : Nat) : Except Fault Nat :=
  v.read (match width with
    | 1 => .one
    | 2 => .two
    | 4 => .four
    | _ => .eight) pos

/-- Reads one value of the file. -/
def get (p : Platform) (path : String) (entry : Entry) (pos width : Nat) (map : MapArgs) :
    Outcome :=
  match openFile p path entry (map.options .readOnly) with
  | .error failure => failedWith failure
  | .ok (s, _) =>
    match readValue (.store s) pos width with
    | .error f => failedWith (Failure.ofFault [s!"Failed to read {width} bytes at {pos}"] f)
    | .ok value =>
      { output := .value { pos, width, byteOrder := s.order, value }, failure := none }

/-- Sorts the records of the file in place, with as many turns of the sort's loop as the area
    has records, within which a sort by key or by bytes ends. -/
def sort (p : Platform) (args : RecordArgs) (entry : Entry) : Outcome :=
  match args.keySpec with
  | .error message => failedWith (.error [message])
  | .ok key =>
    match openFile p args.file entry (args.map.options .readWrite) with
    | .error failure => failedWith failure
    | .ok (s, r) =>
      match args.areaLength s.size with
      | .error message => failedWith (.error [message])
      | .ok length =>
        let cmp : Records.Comparator := match key with
          | some k => fun _ v a b => Records.compareRecords (some k) args.recordSize v a b
          | none => Records.byBytes args.recordSize
        let (result, v) := match (Records.sortBy cmp args.recordSize args.start length
            (length / args.recordSize)).run ⟨.store s, 0⟩ with
          | .ok _ state => (none, state.view)
          | .error f state => (some f, state.view)
        let written := some (r.absorb 0 v.base).bytes.toByteArray
        match result with
        | some f =>
          { output := .nothing, failure := some (Failure.ofFault [s!"Failed to sort {args.file}"] f),
            written }
        | none =>
          match v.flush with
          | .error f =>
            { output := .nothing,
              failure := some (Failure.ofFault ["Failed to flush sorted records"] f), written }
          | .ok () =>
            let report : SortReport :=
              { records := length / args.recordSize, recordSize := args.recordSize }
            { output := .sorted report, failure := none, written }

/-- Checks the order of the records of the file. -/
def verify (p : Platform) (args : RecordArgs) (entry : Entry) : Outcome :=
  match args.keySpec with
  | .error message => failedWith (.error [message])
  | .ok key =>
    match openFile p args.file entry (args.map.options .readOnly) with
    | .error failure => failedWith failure
    | .ok (s, _) =>
      match args.areaLength s.size with
      | .error message => failedWith (.error [message])
      | .ok length =>
        match Records.verify (.store s) args.recordSize args.start length key with
        | .error f => failedWith (Failure.ofFault [] f)
        | .ok report =>
          { output := .verified report,
            failure := report.firstUnsorted.map fun i => .error [s!"record {i} is out of order"] }

end Tool

end ByteView
