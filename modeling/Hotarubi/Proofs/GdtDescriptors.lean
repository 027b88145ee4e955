import Hotarubi.Base.Mask
import Hotarubi.Processor.Gdt

/-! Segment descriptors as the processor reads them. The extended form says what was
asked for. The plain one takes the high byte of the base from bit 20 on, so that it
says so of the bases alone whose bits 20 to 27 are also bits 24 to 31. -/

namespace Hotarubi.Gdt
open Base

section Layout

/-- What a descriptor says. -/
structure Segment where
  base : Nat
  limit : Nat
  type : Int
  flags : Int
  deriving DecidableEq, Repr

/-- The eight bytes of a descriptor at an address. -/
def segment (memory : Nat → UInt8) (a : Nat) : Segment where
  base := (memory (a + 2)).toNat + (memory (a + 3)).toNat * 2 ^ 8 + (memory (a + 4)).toNat * 2 ^ 16 +
    (memory (a + 7)).toNat * 2 ^ 24
  limit := (memory a).toNat + (memory (a + 1)).toNat * 2 ^ 8 + (memory (a + 6)).toNat % 16 * 2 ^ 16
  type := (memory (a + 5)).toNat
  flags := ((memory (a + 6)).toNat / 16 : Nat)

/-- The sixteen bytes of an extended descriptor: the base goes on behind the first eight. -/
def extendedSegment (memory : Nat → UInt8) (a : Nat) : Segment :=
  { segment memory a with
    base := (segment memory a).base + ((memory (a + 8)).toNat + (memory (a + 9)).toNat * 2 ^ 8 +
      (memory (a + 10)).toNat * 2 ^ 16 + (memory (a + 11)).toNat * 2 ^ 24) * 2 ^ 32 }

end Layout

section Bytes

variable {memory : Nat → UInt8} {address : Nat} {bytes : List UInt8}

private theorem store_at {i : Nat} {byte : UInt8} (found : bytes[i]? = some byte) :
    store memory address bytes (address + i) = byte := by
  rw [store, if_pos (Nat.le_add_right address i), Nat.add_sub_cancel_left, List.getD_eq_getElem?_getD, found,
    Option.getD_some]

private theorem store_other {x : Nat} (outside : x < address ∨ address + bytes.length ≤ x) :
    store memory address bytes x = memory x := by
  unfold store
  split
  next behind => rw [List.getD_eq_getElem?_getD, List.getElem?_eq_none (by omega), Option.getD_none]
  next => rfl

private theorem bytes16_toNat (x : UInt16) : x.toUInt8.toNat + (x >>> 8).toUInt8.toNat * 2 ^ 8 = x.toNat := by
  have bound := x.toNat_lt
  have low : x.toUInt8.toNat = x.toNat % 2 ^ 8 := UInt16.toNat_toUInt8 x
  have high : (x >>> 8).toUInt8.toNat = x.toNat / 2 ^ 8 % 2 ^ 8 := Mask.shift_toNat x.toBitVec 8
  omega

private theorem bytes32_toNat (x : UInt32) : x.toUInt8.toNat + (x >>> 8).toUInt8.toNat * 2 ^ 8 +
    (x >>> 16).toUInt8.toNat * 2 ^ 16 +
    (x >>> 24).toUInt8.toNat * 2 ^ 24 = x.toNat := by
  have bound := x.toNat_lt
  have first : x.toUInt8.toNat = x.toNat % 2 ^ 8 := UInt32.toNat_toUInt8 x
  have second : (x >>> 8).toUInt8.toNat = x.toNat / 2 ^ 8 % 2 ^ 8 := Mask.shift_toNat x.toBitVec 8
  have third : (x >>> 16).toUInt8.toNat = x.toNat / 2 ^ 16 % 2 ^ 8 := Mask.shift_toNat x.toBitVec 16
  have fourth : (x >>> 24).toUInt8.toNat = x.toNat / 2 ^ 24 % 2 ^ 8 := Mask.shift_toNat x.toBitVec 24
  omega

private theorem nibbles (lo hi : BitVec 4) : (UInt8.ofNat (lo.toNat + 16 * hi.toNat)).toNat = lo.toNat + 16 * hi.toNat := by
  have small := lo.isLt
  have small' := hi.isLt
  rw [UInt8.toNat_ofNat']
  omega

private theorem segment_store (memory : Nat → UInt8) (address : Nat) (descr : GdtDescriptor) (rest : List UInt8) :
    segment (store memory address (descr.bytes ++ rest)) address =
      { base := descr.baseLo.toNat + descr.baseMi.toNat * 2 ^ 16 + descr.baseHi.toNat * 2 ^ 24
        limit := descr.limitLo.toNat + descr.limitHi.toNat * 2 ^ 16
        type := descr.type.toNat
        flags := descr.granular.toNat } := by
  have byte (i : Nat) (value : UInt8) (found : (descr.bytes ++ rest)[i]? = some value) :
      store memory address (descr.bytes ++ rest) (address + i) = value := store_at found
  have first : store memory address (descr.bytes ++ rest) address = descr.limitLo.toUInt8 := byte 0 _ rfl
  have base := bytes16_toNat descr.baseLo
  have limit := bytes16_toNat descr.limitLo
  have small := descr.limitHi.isLt
  unfold segment
  rw [byte 2 _ rfl, byte 3 _ rfl, byte 4 _ rfl, byte 7 _ rfl, first, byte 1 _ rfl, byte 6 _ rfl, byte 5 _ rfl, nibbles,
    base, Segment.mk.injEq]
  refine ⟨rfl, ?_, rfl, ?_⟩ <;> omega

private theorem extendedSegment_store (memory : Nat → UInt8) (address : Nat) (descr : GdtDescriptorExtended) :
    extendedSegment (store memory address descr.bytes) address =
      { base := descr.baseLo.toNat + descr.baseMi.toNat * 2 ^ 16 + descr.baseHi.toNat * 2 ^ 24 + descr.baseXt.toNat * 2 ^ 32
        limit := descr.limitLo.toNat + descr.limitHi.toNat * 2 ^ 16
        type := descr.type.toNat
        flags := descr.granular.toNat } := by
  have byte (i : Nat) (value : UInt8) (found : descr.bytes[i]? = some value) :
      store memory address descr.bytes (address + i) = value := store_at found
  have low := segment_store memory address descr.toGdtDescriptor (bytes32 descr.baseXt ++ bytes32 descr.reserved0)
  rw [← List.append_assoc, ← GdtDescriptorExtended.bytes] at low
  unfold extendedSegment
  rw [low, byte 8 _ rfl, byte 9 _ rfl, byte 10 _ rfl, byte 11 _ rfl, bytes32_toNat]

end Bytes

section Setup

variable (memory : Nat → UInt8) (gdt : UInt64) (index : UInt32) (base : UInt64) (limit : UInt32) (type : GdtType)
  (flags : Flag)

private theorem type_field : (type.numeric.toUInt32.toUInt8.toNat : Int) = type.numeric.toInt % 2 ^ 8 :=
  Mask.setWidth_toInt (v := 8) type.numeric.toBitVec (by decide)

private theorem flags_field : ((flags.numeric.toBitVec.setWidth 4).toNat : Int) = flags.numeric.toInt % 2 ^ 4 :=
  Mask.setWidth_toInt flags.numeric.toBitVec (by decide)

private theorem limit_field : ((limit >>> 0) &&& 0xffff).toUInt16.toNat +
    (((limit >>> 16) &&& 0x0f).toBitVec.setWidth 4).toNat * 2 ^ 16 = limit.toNat % 2 ^ 20 := by
  have low : ((limit >>> 0) &&& 0xffff).toUInt16.toNat = limit.toNat / 2 ^ 0 % 2 ^ 16 :=
    Mask.field_toNat limit.toBitVec 0 rfl
  have high : (((limit >>> 16) &&& 0x0f).toBitVec.setWidth 4).toNat = limit.toNat / 2 ^ 16 % 2 ^ 4 :=
    Mask.field_toNat limit.toBitVec 16 rfl
  rw [low, high]
  omega

private theorem base_low : ((base >>> 0) &&& 0xffff).toUInt16.toNat + ((base >>> 16) &&& 0xff).toUInt8.toNat * 2 ^ 16 =
    base.toNat % 2 ^ 24 := by
  have low : ((base >>> 0) &&& 0xffff).toUInt16.toNat = base.toNat / 2 ^ 0 % 2 ^ 16 := Mask.field_toNat base.toBitVec 0 rfl
  have middle : ((base >>> 16) &&& 0xff).toUInt8.toNat = base.toNat / 2 ^ 16 % 2 ^ 8 :=
    Mask.field_toNat base.toBitVec 16 rfl
  rw [low, middle]
  omega

private theorem plain_high : ((base >>> 20) &&& 0xff).toUInt8.toNat = base.toNat / 2 ^ 20 % 2 ^ 8 :=
    Mask.field_toNat base.toBitVec 20 rfl

private theorem extended_high : ((base >>> 24) &&& 0xff).toUInt8.toNat = base.toNat / 2 ^ 24 % 2 ^ 8 :=
  Mask.field_toNat base.toBitVec 24 rfl

private theorem plain_segment : segment (setupDescriptor memory gdt index base limit type flags) (entry gdt index) =
    { base := base.toNat % 2 ^ 24 + base.toNat / 2 ^ 20 % 2 ^ 8 * 2 ^ 24
      limit := limit.toNat % 2 ^ 20
      type := type.numeric.toInt % 2 ^ 8
      flags := flags.numeric.toInt % 2 ^ 4 } := by
  have fields := segment_store memory (entry gdt index) (GdtDescriptor.to base limit type flags) []
  rw [List.append_nil] at fields
  rw [setupDescriptor, fields]
  simp only [GdtDescriptor.to, base_low, limit_field, type_field, flags_field, plain_high]

private theorem extended_segment :
    extendedSegment (setupExtendedDescriptor memory gdt index base limit type flags) (entry gdt index) =
      { base := base.toNat
        limit := limit.toNat % 2 ^ 20
        type := type.numeric.toInt % 2 ^ 8
        flags := flags.numeric.toInt % 2 ^ 4 } := by
  have bound := base.toNat_lt
  have upper : ((base >>> 32) &&& 0xffffffff).toUInt32.toNat = base.toNat / 2 ^ 32 % 2 ^ 32 :=
    Mask.field_toNat base.toBitVec 32 rfl
  have whole : base.toNat % 2 ^ 24 + base.toNat / 2 ^ 24 % 2 ^ 8 * 2 ^ 24 + base.toNat / 2 ^ 32 % 2 ^ 32 * 2 ^ 32 =
    base.toNat := by
    omega
  rw [setupExtendedDescriptor, extendedSegment_store]
  simp only [GdtDescriptorExtended.to, base_low, limit_field, type_field, flags_field, extended_high, upper, whole]

/-- Bits 20 to 27 of a base are its bits 24 to 31 as well. -/
def Repeats : Prop := base.toNat / 2 ^ 20 % 2 ^ 8 = base.toNat / 2 ^ 24 % 2 ^ 8

/-- The type and the flags fit the fields they are put into. -/
def Fits : Prop :=
  (0 ≤ type.numeric.toInt ∧ type.numeric.toInt < 2 ^ 8) ∧ 0 ≤ flags.numeric.toInt ∧ flags.numeric.toInt < 2 ^ 4

private theorem same_iff : GdtDescriptor.to base limit type flags =
    (GdtDescriptorExtended.to base limit type flags).toGdtDescriptor ↔
    Repeats base := by
  unfold Repeats
  rw [← plain_high, ← extended_high, UInt8.toNat_inj]
  simp only [GdtDescriptor.to, GdtDescriptorExtended.to, GdtDescriptor.mk.injEq, true_and]

private theorem agree_iff : (∀ i < 8, setupDescriptor memory gdt index base limit type flags (entry gdt index + i) =
    setupExtendedDescriptor memory gdt index base limit type flags (entry gdt index + i)) ↔ Repeats base := by
  rw [← same_iff base limit type flags]
  constructor
  · intro agree
    have plain : setupDescriptor memory gdt index base limit type flags (entry gdt index + 7) =
        (GdtDescriptor.to base limit type flags).baseHi := store_at rfl
    have extended : setupExtendedDescriptor memory gdt index base limit type flags (entry gdt index + 7) =
        (GdtDescriptorExtended.to base limit type flags).baseHi := store_at rfl
    have high := agree 7 (by decide)
    rw [plain, extended] at high
    simp only [GdtDescriptor.to, GdtDescriptorExtended.to] at high ⊢
    rw [high]
  · intro same i inside
    have found : (GdtDescriptor.to base limit type flags).bytes[i]? = some
      (GdtDescriptor.to base limit type flags).bytes[i] :=
      List.getElem?_eq_getElem inside
    have found' : (GdtDescriptorExtended.to base limit type flags).bytes[i]? =
        some (GdtDescriptor.to base limit type flags).bytes[i] := by
      rw [GdtDescriptorExtended.bytes, ← same, List.append_assoc, List.getElem?_append_left inside, found]
    rw [setupDescriptor, setupExtendedDescriptor, store_at found, store_at found']

private theorem extended_iff (twenty : limit.toNat < 2 ^ 20) :
    extendedSegment (setupExtendedDescriptor memory gdt index base limit type flags) (entry gdt index) =
        ⟨base.toNat, limit.toNat, type.numeric.toInt, flags.numeric.toInt⟩ ↔ Fits type flags := by
  rw [extended_segment, Segment.mk.injEq]
  unfold Fits
  omega

private theorem plain_iff (twenty : limit.toNat < 2 ^ 20) (small : base.toNat < 2 ^ 32) :
    segment (setupDescriptor memory gdt index base limit type flags) (entry gdt index) =
        ⟨base.toNat, limit.toNat, type.numeric.toInt, flags.numeric.toInt⟩ ↔ Fits type flags ∧ Repeats base := by
  rw [plain_segment, Segment.mk.injEq]
  unfold Fits Repeats
  omega

/-- What was asked for is what the processor reads, but for the bases that the plain form
gets wrong, where it does not agree with the extended one. -/
theorem descriptors_iff (twenty : limit.toNat < 2 ^ 20) :
    (extendedSegment (setupExtendedDescriptor memory gdt index base limit type flags) (entry gdt index) =
        ⟨base.toNat, limit.toNat, type.numeric.toInt, flags.numeric.toInt⟩ ↔ Fits type flags) ∧
    (base.toNat < 2 ^ 32 →
      (segment (setupDescriptor memory gdt index base limit type flags) (entry gdt index) =
        ⟨base.toNat, limit.toNat, type.numeric.toInt, flags.numeric.toInt⟩ ↔ Fits type flags ∧ Repeats base) ∧
      ((∀ i < 8, setupDescriptor memory gdt index base limit type flags (entry gdt index + i) =
        setupExtendedDescriptor memory gdt index base limit type flags (entry gdt index + i)) ↔ Repeats base)) := by
  refine ⟨extended_iff memory gdt index base limit type flags twenty, ?_⟩
  intro small
  exact ⟨plain_iff memory gdt index base limit type flags twenty small, agree_iff memory gdt index base limit type flags⟩

/-- A base with 0x11 in both places. -/
theorem descriptors_iff_witness : Repeats 0x11100000 ∧
    segment (setupDescriptor (fun _ => 0) 0x1000 1 0x11100000 0xfffff (GdtType.kTypeXR ||| GdtType.kPresent)
      Flag.kOpSize64Bit) (entry 0x1000 1) = ⟨0x11100000, 0xfffff, 0x9a, 2⟩ := by
  have fits : Fits (GdtType.kTypeXR ||| GdtType.kPresent) Flag.kOpSize64Bit := by unfold Fits; decide
  have repeats : Repeats 0x11100000 := by unfold Repeats; decide
  have both := descriptors_iff (fun _ => 0) 0x1000 1 0x11100000 0xfffff (GdtType.kTypeXR ||| GdtType.kPresent)
    Flag.kOpSize64Bit (by decide)
  exact ⟨repeats, (both.2 (by decide)).1.mpr ⟨fits, repeats⟩⟩

/-- A code segment at a megabyte is set up at seventeen. -/
theorem setupDescriptor_misplaced :
    segment (setupDescriptor (fun _ => 0) 0x1000 1 0x00100000 0xfffff (GdtType.kTypeXR ||| GdtType.kPresent)
      Flag.kOpSize64Bit) (entry 0x1000 1) = ⟨0x01100000, 0xfffff, 0x9a, 2⟩ ∧
    segment (setupDescriptor (fun _ => 0) 0x1000 1 0x00100000 0xfffff (GdtType.kTypeXR ||| GdtType.kPresent)
      Flag.kOpSize64Bit) (entry 0x1000 1) ≠ ⟨0x00100000, 0xfffff, 0x9a, 2⟩ ∧
    setupDescriptor (fun _ => 0) 0x1000 1 0x00100000 0xfffff (GdtType.kTypeXR ||| GdtType.kPresent)
      Flag.kOpSize64Bit (entry 0x1000 1 + 7) ≠
    setupExtendedDescriptor (fun _ => 0) 0x1000 1 0x00100000 0xfffff (GdtType.kTypeXR ||| GdtType.kPresent)
      Flag.kOpSize64Bit (entry 0x1000 1 + 7) := by
  rw [plain_segment]
  decide

end Setup

section Table

variable {memory : Nat → UInt8} {gdt : UInt64} {index other : UInt32} {base : UInt64} {limit : UInt32} {type : GdtType}
  {flags : Flag}

private theorem segment_congr {memory' : Nat → UInt8} {a : Nat} (same : ∀ x, a ≤ x → x < a + 8 → memory x = memory' x) :
    segment memory a = segment memory' a := by
  unfold segment
  rw [same a (by omega) (by omega), same (a + 1) (by omega) (by omega), same (a + 2) (by omega) (by omega),
    same (a + 3) (by omega) (by omega), same (a + 4) (by omega) (by omega), same (a + 5) (by omega) (by omega),
    same (a + 6) (by omega) (by omega), same (a + 7) (by omega) (by omega)]

private theorem setupDescriptor_other {x : Nat} (outside : x < entry gdt index ∨ entry gdt index + 8 ≤ x) :
    setupDescriptor memory gdt index base limit type flags x = memory x := store_other outside

private theorem setupExtendedDescriptor_other {x : Nat} (outside : x < entry gdt index ∨ entry gdt index + 16 ≤ x) :
    setupExtendedDescriptor memory gdt index base limit type flags x = memory x := store_other outside

private theorem segment_other (apart : other.toNat ≠ index.toNat) :
    segment (setupDescriptor memory gdt index base limit type flags) (entry gdt other) = segment memory
      (entry gdt other) := by
  apply segment_congr
  intro x first last
  apply setupDescriptor_other
  unfold entry at first last ⊢
  omega

private theorem segment_before (before : other.toNat < index.toNat) :
    segment (setupExtendedDescriptor memory gdt index base limit type flags) (entry gdt other) =
      segment memory (entry gdt other) := by
  apply segment_congr
  intro x first last
  apply setupExtendedDescriptor_other
  unfold entry at first last ⊢
  omega

/-- The table that a core loads: flat segments, which the plain form gets right, and the
task state segment. -/
theorem init_segments (memory : Nat → UInt8) (gdt tss : UInt64) :
    segment (init memory gdt tss).1 (entry gdt 0) = ⟨0, 0, 0, 0⟩ ∧
    segment (init memory gdt tss).1 (entry gdt 1) = ⟨0, 0xfffff, 0x9a, 0xa⟩ ∧
    segment (init memory gdt tss).1 (entry gdt 2) = ⟨0, 0xfffff, 0x92, 0xa⟩ ∧
    segment (init memory gdt tss).1 (entry gdt 3) = ⟨0, 0xfffff, 0xfa, 0xa⟩ ∧
    segment (init memory gdt tss).1 (entry gdt 4) = ⟨0, 0xfffff, 0xf2, 0xa⟩ ∧
    extendedSegment (init memory gdt tss).1 (entry gdt 5) = ⟨tss.toNat, 103, 0xe9, 0⟩ := by
  simp only [init, setupTssDescriptor]
  refine ⟨?_, ?_, ?_, ?_, ?_, ?_⟩
  · rw [segment_before (by decide), segment_other (by decide), segment_other (by decide), segment_other (by decide),
      segment_other (by decide), plain_segment]
    rfl
  · rw [segment_before (by decide), segment_other (by decide), segment_other (by decide), segment_other (by decide),
      plain_segment]
    rfl
  · rw [segment_before (by decide), segment_other (by decide), segment_other (by decide), plain_segment]
    rfl
  · rw [segment_before (by decide), segment_other (by decide), plain_segment]
    rfl
  · rw [segment_before (by decide), plain_segment]
    rfl
  · rw [extended_segment]
    rfl

/-- Nothing but the bytes that `_gdtr` describes is written. -/
theorem init_other (memory : Nat → UInt8) (gdt tss : UInt64) {x : Nat}
    (outside : x < gdt.toNat ∨ gdt.toNat + (init memory gdt tss).2.limit.toNat < x) : (init memory gdt tss).1 x =
      memory x := by
  have limit : (init memory gdt tss).2.limit.toNat = 55 := rfl
  rw [limit] at outside
  have apart (index : UInt32) (inside : index.toNat < 7) : x < entry gdt index ∨ entry gdt index + 8 ≤ x := by
    unfold entry
    omega
  have apart' : x < entry gdt 5 ∨ entry gdt 5 + 16 ≤ x := by
    have five : (5 : UInt32).toNat = 5 := rfl
    unfold entry
    omega
  simp only [init, setupTssDescriptor]
  rw [setupExtendedDescriptor_other apart', setupDescriptor_other (apart 4 (by decide)),
    setupDescriptor_other (apart 3 (by decide)), setupDescriptor_other (apart 2 (by decide)),
    setupDescriptor_other (apart 1 (by decide)), setupDescriptor_other (apart 0 (by decide))]
  apply store_other
  rw [List.length_replicate]
  unfold gdtDescriptorCount
  omega

end Table

end Hotarubi.Gdt
