/-!
# The platform

Two answers that decide whether a mapping succeeds come from outside the library: whether the
allocator grants the table of a segmented store's segments, and whether the storage lets a file
grow to the end of a region mapped for writing. The library only asks; which tables and which
sizes are granted is the platform's choice, so it is data here (`Platform`), and what the
library does is stated for every platform.

`Platform.host` is the machine the command-line tool runs on: its allocator grants at most
`2 ^ 34` bytes to a table of 24-byte segment handles, and its file system holds files of up to
`2 ^ 44 - 4096` bytes.
-/

namespace ByteView

/-- What the platform answers when the library asks it for room. -/
structure Platform where
  /-- Whether the allocator grants a table of `n` segment handles. -/
  reserves : Nat → Bool
  /-- Whether the storage lets a file grow to `n` bytes. -/
  grows : Nat → Bool

/-- The machine the command-line tool runs on. -/
def Platform.host : Platform where
  reserves n := decide (n * 24 ≤ 17179869184)
  grows n := decide (n ≤ 17592186040320)

end ByteView
