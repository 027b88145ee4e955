import Hotarubi.Memory.Layout
import Hotarubi.Processor.Madt

/-! The tables that the firmware leaves in memory: how the kernel finds the RSDP, looks
a table up by its signature, and walks over the entries of the MADT. Every length and
every pointer is what the bytes say. -/

namespace Hotarubi.Acpi

open Memory Processor

/-- The bytes of the address space. -/
abbrev Image := UInt64 → UInt8

/-- The number that some bytes make, the lowest first. -/
def word (mem : Image) (addr : UInt64) : Nat → Nat
  | 0 => 0
  | n + 1 => (mem addr).toNat + 256 * word mem (addr + 1) n

/-- A string constant: behind its characters there is the NUL. -/
abbrev Signature := List UInt8

def acpiSig (text : String) : Signature := text.toList.map Char.toUInt8

/-- Where `strncmp` ends. -/
def strncmpLast (u1 u2 : UInt8) : Int := if u1 = u2 then 0 else if u1 < u2 then -1 else 1

/-- The loop of `strncmp`, with `n` bytes to go from the `i`th on. -/
def strncmpFrom (u1 u2 : Nat → UInt8) (i : Nat) : Nat → Int
  | n + 2 =>
    if u1 i ≠ 0 ∧ u2 i ≠ 0 then
      if u1 i ≠ u2 i then (if u1 i < u2 i then -1 else 1) else strncmpFrom u1 u2 (i + 1) (n + 1)
    else strncmpLast (u1 i) (u2 i)
  | 0 | 1 => strncmpLast (u1 i) (u2 i)

/-- `strncmp` of the string at an address and a constant. -/
def strncmp (mem : Image) (s1 : UInt64) (s2 : Signature) (n : Nat) : Int :=
  if s1 = 0 ∨ n = 0 then 0 else strncmpFrom (fun i => mem (s1 + .ofNat i)) (s2.getD · 0) 0 n

/-- The sum of the first `n` bytes. -/
def sumBytes (mem : Image) (addr : UInt64) (n : Nat) : UInt8 :=
  (List.range n).foldl (fun sum i => sum + mem (addr + .ofNat i)) 0

/-- `length` of a `system_descriptor_table`. -/
def tableLength (mem : Image) (table : UInt64) : UInt32 := .ofNat (word mem (table + 4) 4)

/-- `system_descriptor_table::check` -/
def check (mem : Image) (table : UInt64) (targetSig : Signature) : Bool :=
  if strncmp mem table targetSig 4 = 0 then sumBytes mem table (tableLength mem table).toNat == 0 else false

/-- `rsdp::check` -/
def rsdpCheck (mem : Image) (rsdp : UInt64) : Bool :=
  if strncmp mem rsdp (acpiSig "RSD PTR ") 8 = 0 then
    if sumBytes mem rsdp 20 = 0 then sumBytes mem rsdp (word mem (rsdp + 20) 4) == 0 else false
  else false

/-- The variables `rsdt` and `xsdt`. -/
structure Roots where
  rsdt : UInt64
  xsdt : UInt64
  deriving DecidableEq, Repr

/-- The `sizeof` of a table with its one entry. -/
def sizeofRsdt : UInt64 := 40
def sizeofXsdt : UInt64 := 44

def maxEntry (length : UInt32) (size width : UInt64) : UInt64 := (length.toUInt64 - size + width) / width

/-- The table that a slot points to. -/
def slotTable (mem : Image) (table : UInt64) (width i : Nat) : UInt64 :=
  va (.ofNat (word mem (table + .ofNat (36 + i * width)) width))

/-- The loop of `_get_table` over `n` more slots from the `i`th on: which slots it reads,
and the pointer that it ends with. -/
def searchSlots (mem : Image) (signature : Signature) (table : UInt64) (width : Nat) : (n i : Nat) → List Nat × UInt64
  | 0, _ => ([], 0)
  | n + 1, i =>
    let res := slotTable mem table width i
    if check mem res signature then ([i], res)
    else
      let (slots, res) := searchSlots mem signature table width n (i + 1)
      (i :: slots, res)

/-- `_get_table` -/
def getTable (mem : Image) (roots : Roots) (signature : Signature) : List Nat × UInt64 :=
  if roots.rsdt ≠ 0 then
    searchSlots mem signature roots.rsdt 4 (maxEntry (tableLength mem roots.rsdt) sizeofRsdt 4).toNat 0
  else if roots.xsdt ≠ 0 then
    searchSlots mem signature roots.xsdt 8 (maxEntry (tableLength mem roots.xsdt) sizeofXsdt 8).toNat 0
  else ([], 0)

/-- Where `init_tables` begins to look: `mem[0x040e] >> 4`. -/
def scanStart (mem : Image) : Nat := (mem (va 0x40e) >>> 4).toNat

/-- The addresses that it looks at. -/
def scanned (mem : Image) : List Nat := List.range' (scanStart mem) ((0x100001 - scanStart mem) / 2) 2

/-- The scan for the RSDP. -/
def findRsdp (mem : Image) : Option Nat := (scanned mem).find? fun i => rsdpCheck mem (va (.ofNat i))

/-- `init_tables`: the message of a panic, or the roots. -/
def initTables (mem : Image) (roots : Roots) : Except String Roots :=
  match findRsdp mem with
  | none => .ok roots
  | some i =>
    let rsdp := va (.ofNat i)
    let xsdtPtr := UInt64.ofNat (word mem (rsdp + 24) 8)
    if xsdtPtr = 0 then
      let rsdt := va (.ofNat (word mem (rsdp + 16) 4))
      if check mem rsdt (acpiSig "RSDT") then .ok { roots with rsdt } else .error "acpi: RSDT is INVALID!"
    else
      let xsdt := va xsdtPtr
      if check mem xsdt (acpiSig "XSDT") then .ok { roots with xsdt } else .error "acpi: XSDT is INVALID!"

/-- `madt_add` -/
def madtAdd (mem : Image) (ptr : UInt64) : UInt64 := ptr + (mem (ptr + 1)).toUInt64

/-- `begin` and `end` of a MADT -/
def madtBegin (madt : UInt64) : UInt64 := madt + 44

def madtEnd (mem : Image) (madt : UInt64) : UInt64 := madt + (tableLength mem madt).toUInt64

/-- The entries that a loop from `ptr` to `last` visits, when it is done in that many steps. -/
def visited (mem : Image) (last : UInt64) : (fuel : Nat) → (ptr : UInt64) → Option (List UInt64)
  | 0, _ => none
  | fuel + 1, ptr =>
    if ptr ≠ last then do
      let later ← visited mem last fuel (madtAdd mem ptr)
      some (ptr :: later)
    else some []

/-- The values of the two fields of `madt_mps_init_flags`. -/
def triggerMode : Nat → TriggerMode
  | 0 => .conform
  | 1 => .edge
  | 2 => .reserved
  | _ => .level

def polarity : Nat → Polarity
  | 0 => .conform
  | 1 => .high
  | 2 => .reserved
  | _ => .low

/-- A visited entry, for the runs of `parse_madt`. -/
def madtEntry (mem : Image) (ptr : UInt64) : TableEntry :=
  match (mem ptr).toNat with
  | 0 => .madt (.lapic (mem (ptr + 2)) (mem (ptr + 3)))
  | 1 => .madt .ioapic
  | 4 =>
    let flags := word mem (ptr + 3) 2
    .lapicNmi ⟨mem (ptr + 2), triggerMode (flags / 4 % 4), polarity (flags % 4), mem (ptr + 5)⟩
  | 5 => .madt (.lapicAddressOverride (.ofNat (word mem (ptr + 4) 8)))
  | _ => .madt .other

/-- `parse_madt`, when its loops are done in that many steps; its three loops visit the
same entries. -/
def parseMadt {κ : Type} (mem : Image) (roots : Roots) (fuel : Nat) (s : State κ) : Option (Except Fault (Parsing κ)) :=
  let madt := (getTable mem roots (acpiSig "APIC")).2
  if madt = 0 then some (.error (.panic "acpi: No MADT table available!"))
  else do
    let entries ← visited mem (madtEnd mem madt) fuel (madtBegin madt)
    some (parseTable (entries.map (madtEntry mem)) s)

end Hotarubi.Acpi
