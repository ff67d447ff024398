import ByteView.Mapping.Options

/-!
# Stores in memory

Stores that no file backs: a copy of given bytes, or zero bytes. They are always writable. A
segmented one is built only from valid options; one that holds no bytes at all has no segment.
-/

namespace ByteView

namespace Mapping

/-- A segmented store holding a copy of `bytes`, in the options' segments and byte order. -/
def segmentedOfBytes (p : Platform) (bytes : ByteArray) (o : Options) :
    Except Fault Segmented := do
  o.validate
  Segmented.ofBytes p bytes o.segmentShift o.byteOrder

/-- A segmented store of `length` zero bytes, in the options' segments and byte order. -/
def segmentedZeros (p : Platform) (length : Nat) (o : Options) : Except Fault Segmented := do
  o.validate
  Segmented.zeros p length o.segmentShift o.byteOrder

/-- A store of `length` zero bytes, flat or segmented as `Options.strategyFor` decides. -/
def zeros (p : Platform) (length : Nat) (o : Options) : Except Fault Store := do
  o.validate
  match o.strategyFor length with
  | .flat => Store.flat <$> Flat.zeros length o.byteOrder
  | .segmented => Store.segmented <$> segmentedZeros p length o

end Mapping

end ByteView
