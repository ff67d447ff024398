import ByteView.Mapping.File
import ByteView.Mapping.Memory
import ByteView.View

/-!
# What a session works on

A session is a run of operations on one view. The view rests on a store that is built once,
from given bytes, from zero bytes, or by mapping a file (`Spec.build`); its byte order may be
set once it is built (`Built.withByteOrder`). Each operation may see the store through adapters
that last for that operation only (`Adapter.wrapAll`). A store mapped from a file keeps the file
beside it, so that the file can be shown as the store's writes left it.
-/

namespace ByteView

namespace Session

/-- Where the bytes of a session's store come from. -/
inductive Source where
  /-- A writable flat copy of `bytes`. -/
  | flat (bytes : ByteArray)
  /-- A writable flat store of `length` zero bytes. -/
  | flatZeros (length : Nat)
  /-- A writable copy of `bytes` in segments of `2 ^ shift` bytes. -/
  | segmented (bytes : ByteArray) (shift : Nat)
  /-- `length` zero bytes in segments of `2 ^ shift` bytes. -/
  | segmentedZeros (length shift : Nat)
  /-- `length` zero bytes held as the options' strategy decides. -/
  | zeros (length : Nat) (options : Mapping.Options)
  /-- A region of a file holding `bytes`, mapped with `strategy` (or as the options decide);
      the file is opened for writing when `opened` says so, else when the mode is read-write. -/
  | file (bytes : ByteArray) (options : Mapping.Options) (strategy : Option Strategy)
      (opened : Option Mapping.Mode)

/-- A store to build: its source and the byte order given with it. -/
structure Spec where
  /-- Where the bytes come from. -/
  source : Source
  /-- The byte order of a store built from bytes or zero bytes. -/
  order : ByteOrder

/-- A built store, with the file and the offset it was mapped from, if any. -/
structure Built where
  /-- The store. -/
  store : Store
  /-- The file the store was mapped from, and where in it. -/
  file : Option (Mapping.Resource × Nat)

/-- Maps a file region with the given strategy, or as the options decide. -/
def mapWith (p : Platform) (o : Mapping.Options) : Option Strategy → Mapping.MapM Store
  | none => Mapping.mapAuto p o
  | some .flat => Store.flat <$> Mapping.mapFlat p o
  | some .segmented => Store.segmented <$> Mapping.mapSegmented p o

/-- Builds the store of a source on the platform `p`. -/
def Source.build (p : Platform) (order : ByteOrder) : Source → Except Fault Built
  | .flat bytes => .ok ⟨.flat (Flat.ofBytes bytes order), none⟩
  | .flatZeros length => do
    let s ← Flat.zeros length order
    pure ⟨.flat s, none⟩
  | .segmented bytes shift => do
    let s ← Mapping.segmentedOfBytes p bytes { segmentShift := shift, byteOrder := order }
    pure ⟨.segmented s, none⟩
  | .segmentedZeros length shift => do
    let s ← Mapping.segmentedZeros p length { segmentShift := shift, byteOrder := order }
    pure ⟨.segmented s, none⟩
  | .zeros length o => do
    let s ← Mapping.zeros p length o
    pure ⟨s, none⟩
  | .file bytes o strategy opened =>
    let writable := (opened.getD o.mode) = .readWrite
    match (mapWith p o strategy).run { bytes := .ofBytes bytes, writable } with
    | .ok s r => .ok ⟨s, some (r, o.offset)⟩
    | .error f _ => .error f

/-- Builds the store of a spec on the platform `p`. -/
def Spec.build (p : Platform) (spec : Spec) : Except Fault Built :=
  spec.source.build p spec.order

/-- The built store with its byte order set to `o`; the bytes and the file stay as they are. -/
def Built.withByteOrder (b : Built) (o : ByteOrder) : Built :=
  { b with store := b.store.withByteOrder o }

/-- An adapter an operation sees its view through. -/
inductive Adapter where
  /-- A window of `len` bytes from `pos` on. -/
  | window (pos len : Nat)
  /-- Words in the byte order `order`. -/
  | reorder (order : ByteOrder)

/-- Puts the adapter around a view. -/
def Adapter.wrap : Adapter → View → View
  | .window pos len, v => .window pos len v
  | .reorder o, v => .reorder o v

/-- Puts the adapters around a view, each around the ones before it. -/
def Adapter.wrapAll (adapters : List Adapter) (v : View) : View :=
  adapters.foldl (fun v a => a.wrap v) v

end Session

end ByteView
