import Mathlib.Data.Nat.Notation

/-! The global descriptor table. The descriptors are written to memory as the bytes of
their structures, little-endian and with the low bit-field first. -/

namespace Hotarubi.Gdt

def gdtDescriptorCount : Nat := 7

/-- `enum class Type`, a bitmask over `int`. -/
structure GdtType where
  numeric : Int32
  deriving DecidableEq, Repr

namespace GdtType

instance : OrOp GdtType := ⟨fun a b => ⟨a.numeric ||| b.numeric⟩⟩

def kNull : GdtType := ⟨0x00⟩
def kAccessUsr : GdtType := ⟨0x60⟩
def kPresent : GdtType := ⟨0x80⟩
def kTypeXR : GdtType := ⟨0x1a⟩
def kTypeRW : GdtType := ⟨0x12⟩
def kTypeTSS : GdtType := ⟨0x09⟩

end GdtType

/-- `enum class Flag`, a bitmask over `int`. -/
structure Flag where
  numeric : Int32
  deriving DecidableEq, Repr

namespace Flag

instance : OrOp Flag := ⟨fun a b => ⟨a.numeric ||| b.numeric⟩⟩

def kNone : Flag := ⟨0x00⟩
def kGranularity4KByte : Flag := ⟨0x08⟩
def kOpData32Bit : Flag := ⟨0x00⟩
def kOpSize64Bit : Flag := ⟨0x02⟩

end Flag

structure GdtDescriptor where
  limitLo : UInt16
  baseLo : UInt16
  baseMi : UInt8
  type : UInt8
  limitHi : BitVec 4
  granular : BitVec 4
  baseHi : UInt8
  deriving DecidableEq, Repr

structure GdtDescriptorExtended extends GdtDescriptor where
  baseXt : UInt32
  reserved0 : UInt32
  deriving DecidableEq, Repr

structure GdtPointer where
  limit : UInt16
  address : UInt64
  deriving DecidableEq, Repr

section Bytes

def bytes16 (x : UInt16) : List UInt8 := [x.toUInt8, (x >>> 8).toUInt8]

def bytes32 (x : UInt32) : List UInt8 := [x.toUInt8, (x >>> 8).toUInt8, (x >>> 16).toUInt8, (x >>> 24).toUInt8]

def GdtDescriptor.bytes (descr : GdtDescriptor) : List UInt8 :=
  bytes16 descr.limitLo ++ bytes16 descr.baseLo ++ [descr.baseMi, descr.type,
    UInt8.ofNat (descr.limitHi.toNat + 16 * descr.granular.toNat), descr.baseHi]

def GdtDescriptorExtended.bytes (descr : GdtDescriptorExtended) : List UInt8 :=
  descr.toGdtDescriptor.bytes ++ bytes32 descr.baseXt ++ bytes32 descr.reserved0

/-- Memory with the given bytes from an address on. -/
def store (memory : Nat → UInt8) (address : Nat) (bytes : List UInt8) : Nat → UInt8 := fun x =>
  if address ≤ x then bytes.getD (x - address) (memory x) else memory x

end Bytes

section Setup

variable (memory : Nat → UInt8) (gdt : UInt64) (index : UInt32) (base : UInt64) (limit : UInt32) (type : GdtType)
  (flags : Flag)

/-- `&gdt[index]` -/
def entry : Nat := gdt.toNat + 8 * index.toNat

/-- The fields `_setup_descriptor` fills in. -/
def GdtDescriptor.to : GdtDescriptor where
  limitLo := ((limit >>> 0) &&& 0xffff).toUInt16
  limitHi := ((limit >>> 16) &&& 0x0f).toBitVec.setWidth 4
  baseLo := ((base >>> 0) &&& 0xffff).toUInt16
  baseMi := ((base >>> 16) &&& 0xff).toUInt8
  baseHi := ((base >>> 20) &&& 0xff).toUInt8
  type := type.numeric.toUInt32.toUInt8
  granular := flags.numeric.toBitVec.setWidth 4

def setupDescriptor : Nat → UInt8 := store memory (entry gdt index) (GdtDescriptor.to base limit type flags).bytes

/-- The fields `_setup_extended_descriptor` fills in, and the zero of `memset`. -/
def GdtDescriptorExtended.to : GdtDescriptorExtended where
  limitLo := ((limit >>> 0) &&& 0xffff).toUInt16
  limitHi := ((limit >>> 16) &&& 0x0f).toBitVec.setWidth 4
  baseLo := ((base >>> 0) &&& 0xffff).toUInt16
  baseMi := ((base >>> 16) &&& 0xff).toUInt8
  baseHi := ((base >>> 24) &&& 0xff).toUInt8
  baseXt := ((base >>> 32) &&& 0xffffffff).toUInt32
  type := type.numeric.toUInt32.toUInt8
  granular := flags.numeric.toBitVec.setWidth 4
  reserved0 := 0

def setupExtendedDescriptor : Nat → UInt8 :=
  store memory (entry gdt index) (GdtDescriptorExtended.to base limit type flags).bytes

end Setup

/-- `sizeof( struct tss::tss )`, which is packed. -/
def tssSize : UInt32 := 104

def setupTssDescriptor (memory : Nat → UInt8) (gdt : UInt64) (index : UInt32) (tss : UInt64) : Nat → UInt8 :=
  setupExtendedDescriptor memory gdt index tss (tssSize - 1)
    (GdtType.kTypeTSS ||| GdtType.kPresent ||| GdtType.kAccessUsr) Flag.kNone

/-- `init` up to `lgdt`: the table of a core and what `_gdtr` says of it. -/
def init (memory : Nat → UInt8) (gdt tss : UInt64) : (Nat → UInt8) × GdtPointer :=
  let memory := store memory gdt.toNat (List.replicate (8 * gdtDescriptorCount) 0)
  let flags := Flag.kOpSize64Bit ||| Flag.kOpData32Bit ||| Flag.kGranularity4KByte
  let memory := setupDescriptor memory gdt 0 0 0 GdtType.kNull Flag.kNone
  let memory := setupDescriptor memory gdt 1 0 0xffffffff (GdtType.kTypeXR ||| GdtType.kPresent) flags
  let memory := setupDescriptor memory gdt 2 0 0xffffffff (GdtType.kTypeRW ||| GdtType.kPresent) flags
  let memory := setupDescriptor memory gdt 3 0 0xffffffff
    (GdtType.kTypeXR ||| GdtType.kAccessUsr ||| GdtType.kPresent) flags
  let memory := setupDescriptor memory gdt 4 0 0xffffffff
    (GdtType.kTypeRW ||| GdtType.kAccessUsr ||| GdtType.kPresent) flags
  let memory := setupTssDescriptor memory gdt 5 tss
  (memory, ⟨UInt16.ofNat (8 * gdtDescriptorCount - 1), gdt⟩)

end Hotarubi.Gdt
