import Hotarubi.Include.List
import Hotarubi.Memory.Layout

/-! The object caches. A cache keeps its slabs on three lists; the descriptors of
a slab's buffers are linked through the word that otherwise points to the slab.
Addresses are natural numbers: no block of memory reaches beyond the last one, so
their sums do not wrap. A result of `none` is a wild or null access, a division by zero, a lock that is
never released, or more passes than `limit` allows. -/

namespace Hotarubi.Memory.Cache
open Base Include

def slabSize : Nat := 0x1000
def sizeofSlab : Nat := 40
def sizeofBufctl : Nat := 32
def sizeofBufctlInline : Nat := 8
def bufferMagicSize : Nat := 2
def bufferMagicWord : UInt16 := 0xaa55

/-- The fields of a `mem_cache` that `_cache_init` derives from its arguments. -/
structure Config where
  objSize : Nat
  objAlign : Nat
  allocSize : Nat
  compact : Bool
  markers : Bool
  deriving DecidableEq, Repr

/-- The loop that adds `SLAB_SIZE` until the size fits. -/
def allocSizeFor (size : Nat) : Nat := slabSize * max 1 ((size + slabSize - 1) / slabSize)

def cacheInit (size align : Nat) (checkOverflow : Bool) : Config where
  objSize := size
  objAlign := if align = 0 then 1 else align
  allocSize := allocSizeFor size
  compact := size < allocSizeFor size / 8
  markers := checkOverflow

/-- `_slab_cache` and `_bufctl_cache` -/
def slabPool : Config := cacheInit sizeofSlab 4 true
def bufctlPool : Config := cacheInit sizeofBufctl 4 true

/-- The list nodes of a cache, of its slabs and of its external buffer descriptors. -/
inductive Link where
  | free
  | used
  | full
  | objMap
  | slabs (slab : Nat)
  | bufctls (bufctl : Nat)
  deriving DecidableEq, Repr

structure Stats where
  slabs : UInt64
  buffers : UInt64
  allocation : UInt64
  cacheHits : UInt64
  cacheMisses : UInt64
  overflows : UInt64
  deriving DecidableEq, Repr

/-- What changes in a cache, and the fields of its slabs and buffer descriptors by
address. `word` is the first word of a descriptor, its `slab` and its `link` at
once, and the `bufctls` head of a slab. Two fields are auxiliary: the slabs that
`_slab_alloc` has returned, and the slab and descriptor an object was last handed out with. -/
structure State where
  links : Links Link
  refs : Nat → UInt32
  backing : Nat → Nat
  word : Nat → Option Nat
  data : Nat → Nat
  magic : Nat → UInt16
  stats : Stats
  locked : Bool
  made : List Nat
  origin : Nat → Option (Nat × Nat)

/-- `&slab->bufctls` -/
def bufctlsHead (slab : Nat) : Nat := slab + 32

/-- `LIST_ENTRY( ptr, struct slab, slabs )` -/
def slabEntry : Link → Option Nat
  | .slabs slab => some slab
  | _ => none

/-- `LIST_ENTRY( item, struct bufctl, bufctls )` -/
def bufctlEntry : Link → Option Nat
  | .bufctls bufctl => some bufctl
  | _ => none

/-- `SLAB_INLINE` -/
def Config.slabInline (c : Config) (buffer : Nat) : Nat := buffer + c.allocSize - sizeofSlab

/-- The size of an object with its marker. -/
def Config.markedSize (c : Config) : Nat := c.objSize + if c.markers then bufferMagicSize else 0

/-- `BUFCTL_INLINE` -/
def Config.bufctlInline (c : Config) (buffer : Nat) : Nat := buffer + c.markedSize

/-- The object that belongs to a descriptor: right in front of an inline one, named by an external one. -/
def State.objectOf (s : State) (c : Config) (bufctl : Nat) : Nat :=
  if c.compact then bufctl - c.markedSize else s.data bufctl

/-- The size of an object with its marker and its inline link. -/
def Config.packedSize (c : Config) : Nat := c.markedSize + if c.compact then sizeofBufctlInline else 0

/-- `buff_size`: the first multiple of the alignment, or 0 where the search for it wraps. -/
def Config.bufferSize (c : Config) : Nat :=
  let aligned := (c.packedSize + c.objAlign - 1) / c.objAlign * c.objAlign
  if aligned < 2 ^ 64 then aligned else 0

/-- `buff_avail` -/
def Config.buffers (c : Config) : Nat :=
  (if c.compact then c.allocSize - sizeofSlab else c.allocSize) / c.bufferSize

/-- What a cache calls: its backing allocator, the page map where that is the
default allocator, and the caches for external descriptors. `σ` is all their state. -/
structure Supply (σ : Type) where
  slabAlloc : Nat → σ → Option (Option Nat × σ)
  /-- `page_map->link.next = cache` if the backing comes from `_backing_page_alloc`. -/
  associate : Option Nat → σ → Option σ
  slabFree : Nat → Nat → σ → Option σ
  getSlab : σ → Option (Option Nat × σ)
  putSlab : Nat → σ → Option σ
  getBufctl : σ → Option (Option Nat × σ)
  putBufctl : Nat → σ → Option σ

section Slabs

variable {σ : Type} (limit : Nat) (c : Config) (supply : Supply σ)

/-- One pass of the loop that fills a slab, once it has its descriptor. -/
def addBuffer (s : State) (slab buffer bufctl : Nat) : Option State := do
  let s := { s with
    magic := if c.markers then Function.update s.magic (buffer + c.objSize) bufferMagicWord else s.magic }
  let s ← if c.compact then some s else do
    let links ← listAdd s.links .objMap (.bufctls bufctl)
    some { s with links, data := Function.update s.data bufctl buffer }
  some { s with
    word := slistAdd s.word (bufctlsHead slab) bufctl
    stats := { s.stats with buffers := s.stats.buffers + 1 } }

/-- The descriptor of the next buffer, inline or from the descriptor cache. -/
def bufctlFor (buffer : Nat) (m : σ) : Option (Option Nat × σ) :=
  if c.compact then some (some (c.bufctlInline buffer), m) else supply.getBufctl m

/-- The descriptor of a new slab, inline or from the slab cache. -/
def slabFor (backing : Nat) (m : σ) : Option (Option Nat × σ) :=
  if c.compact then some (some (c.slabInline backing), m) else supply.getSlab m

/-- The loop from buffer `i` on, for the given number of buffers; `false` if a
descriptor is missing. -/
def fillSlab (backing slab : Nat) : Nat → Nat → State → σ → Option (Bool × State × σ)
  | 0, _, s, m => some (true, s, m)
  | left + 1, i, s, m => do
    let buffer := backing + c.bufferSize * i
    let (bufctl, m) ← bufctlFor c supply buffer m
    match bufctl with
    | none => some (false, s, m)
    | some bufctl =>
      let s ← addBuffer c s slab buffer bufctl
      fillSlab backing slab left (i + 1) s m

/-- `err_no_slab` -/
def dropBacking (backing : Nat) (s : State) (m : σ) : Option (Option Nat × State × σ) := do
  let m ← supply.slabFree backing c.allocSize m
  some (none, { s with stats := { s.stats with allocation := s.stats.allocation - UInt64.ofNat c.allocSize } }, m)

/-- `err_no_bufctl`. Inline descriptors are no objects of the caches they would be given to. -/
def dropBufctls (backing slab : Nat) (s : State) (m : σ) : Option (Option Nat × State × σ) :=
  if c.compact then none
  else do
    let (s, m) ← visitMutable (fun state : State × σ => state.1.word) (bufctlsHead slab) (fun (s, m) bufctl => do
      let word ← slistDel s.word (bufctlsHead slab) bufctl limit
      let links ← listDel s.links (.bufctls bufctl)
      let m ← supply.putBufctl bufctl m
      some ({ s with word, links, stats := { s.stats with buffers := s.stats.buffers - 1 } }, m)) limit (s, m)
    let m ← supply.putSlab slab m
    dropBacking c supply backing s m

/-- `_slab_alloc`. Every field of the new slab is set below, so clearing the block
matters only where there is none. -/
def slabAlloc (s : State) (m : σ) : Option (Option Nat × State × σ) := do
  let (answer, m) ← supply.slabAlloc c.allocSize m
  let m ← supply.associate answer m
  let backing ← answer
  let s := { s with stats := { s.stats with allocation := s.stats.allocation + UInt64.ofNat c.allocSize } }
  let (slab, m) ← slabFor c supply backing m
  match slab with
  | none => dropBacking c supply backing s m
  | some slab =>
    let s := { s with
      refs := Function.update s.refs slab 0
      backing := Function.update s.backing slab backing
      links := initList s.links (.slabs slab)
      word := Function.update s.word (bufctlsHead slab) (some (bufctlsHead slab)) }
    if c.bufferSize = 0 then none
    else if c.buffers = 0 ∨ c.bufferSize > c.allocSize then dropBufctls limit c supply backing slab s m
    else do
      let (filled, s, m) ← fillSlab c supply backing slab c.buffers 0 s m
      if filled then do
        let links ← listAdd s.links .free (.slabs slab)
        some (some slab,
          { s with links, stats := { s.stats with slabs := s.stats.slabs + 1 }, made := slab :: s.made }, m)
      else dropBufctls limit c supply backing slab s m

def slabGetObject (s : State) (slab : Nat) : Option (Option Nat × State) :=
  if slistEmpty s.word (bufctlsHead slab) then some (none, s)
  else do
    let bufctl ← s.word (bufctlsHead slab)
    let word ← slistDel s.word (bufctlsHead slab) bufctl limit
    some (some (s.objectOf c bufctl), { s with
      word := Function.update word bufctl (some slab)
      refs := Function.update s.refs slab (s.refs slab + 1)
      origin := Function.update s.origin (s.objectOf c bufctl) (some (slab, bufctl)) })

def slabPutObject (s : State) (slab bufctl : Nat) : State :=
  if s.refs slab ≠ 0 then
    { s with
      word := slistAdd s.word (bufctlsHead slab) bufctl
      refs := Function.update s.refs slab (s.refs slab - 1) }
  else s

def slabFull (s : State) (slab : Nat) : Bool := slistEmpty s.word (bufctlsHead slab)

def slabEmpty (s : State) (slab : Nat) : Bool := s.refs slab == 0

/-- One loop of `_cache_sort`: every slab of a list for which there is a target
goes to the end of that list. -/
def migrate (s : State) (list : Link) (target : State → Nat → Option Link) : Option State :=
  visitMutable (fun s : State => s.links.next) list (fun s ptr => do
    let slab ← slabEntry ptr
    match target s slab with
    | none => some s
    | some target => do
      let links ← listDel s.links ptr
      let links ← listAddTail links target ptr
      some { s with links }) limit s

def cacheSort (s : State) : Option State := do
  let s ← migrate limit s .full fun s slab => if !slabFull s slab then some .used else none
  let s ← migrate limit s .free fun s slab => if !slabEmpty s slab then some .used else none
  migrate limit s .used fun s slab =>
    if slabFull s slab then some .full else if slabEmpty s slab then some .free else none

/-- The list that `get_object` takes a slab from; `none` if a new slab was needed and there is none. -/
def slabList (s : State) (m : σ) : Option (Option Link × State × σ) :=
  if listEmpty s.links .used then
    if listEmpty s.links .free then do
      let (slab, s, m) ← slabAlloc limit c supply s m
      match slab with
      | none => some (none, s, m)
      | some _ => some (some .free, { s with stats := { s.stats with
          cacheMisses := s.stats.cacheMisses + 1
          cacheHits := s.stats.cacheHits - 1 } }, m)
    else some (some .free, s, m)
  else some (some .used, s, m)

/-- `get_object`. Where there is no new slab it returns with the lock taken. -/
def getObject (s : State) (m : σ) : Option (Option Nat × State × σ) :=
  if s.locked then none
  else do
    let (list, s, m) ← slabList limit c supply { s with locked := true } m
    match list with
    | none => some (none, s, m)
    | some list => do
      let first ← s.links.next list
      let slab ← slabEntry first
      let (object, s) ← slabGetObject limit c s slab
      let s ← if object.isSome then
          cacheSort limit { s with stats := { s.stats with cacheHits := s.stats.cacheHits + 1 } }
        else some s
      some (object, { s with locked := false }, m)

/-- The descriptor `put_object` finds for an object. -/
def lookupBufctl (s : State) (ptr : Nat) : Option (Option Nat) :=
  if c.compact then some (some (c.bufctlInline ptr))
  else search s.links .objMap (fun item => do
    let bufctl ← bufctlEntry item
    some (if s.data bufctl = ptr then some bufctl else none)) limit

def putObject (s : State) (ptr : Nat) : Option State :=
  if s.locked then none
  else do
    let s := { s with locked := true }
    let found ← lookupBufctl limit c s ptr
    match found with
    | none => some { s with locked := false }
    | some bufctl => do
      let s := { s with
        magic := if c.markers && s.magic (ptr + c.objSize) != bufferMagicWord then
            Function.update s.magic (ptr + c.objSize) bufferMagicWord
          else s.magic }
      let slab ← s.word bufctl
      let s ← cacheSort limit (slabPutObject s slab bufctl)
      some { s with locked := false }

/-- The loop of `_slab_release` over the free descriptors of a slab. -/
def returnBufctls (slab : Nat) (s : State) (m : σ) : Option (State × σ) :=
  visitMutable (fun state : State × σ => state.1.word) (bufctlsHead slab) (fun (s, m) bufctl => do
    let word ← slistDel s.word (bufctlsHead slab) bufctl limit
    let links ← listDel s.links (.bufctls bufctl)
    let m ← supply.putBufctl bufctl m
    some ({ s with word, links, stats := { s.stats with buffers := s.stats.buffers - 1 } }, m)) limit (s, m)

/-- The part of `_slab_release` for slabs that are not compact. -/
def releaseParts (slab : Nat) (s : State) (m : σ) : Option (State × σ) :=
  if c.compact then some (s, m)
  else do
    let (s, m) ← returnBufctls limit supply slab s m
    let m ← supply.putSlab slab m
    some ({ s with stats := { s.stats with slabs := s.stats.slabs - 1 } }, m)

/-- `_slab_release`, and whether the backing was given back. The slab stays on its list. -/
def slabRelease (slab : Nat) (s : State) (m : σ) : Option (Bool × State × σ) :=
  let backing := s.backing slab
  if backing = 0 then some (false, s, m)
  else do
    let (s, m) ← releaseParts limit c supply slab s m
    let m ← supply.slabFree backing c.allocSize m
    some (true, { s with stats := { s.stats with allocation := s.stats.allocation - UInt64.ofNat c.allocSize } }, m)

/-- `reap`, with the slabs whose backing it has given back. -/
def reap (s : State) (m : σ) : Option (Bool × List Nat × State × σ) :=
  if s.locked then none
  else if listEmpty s.links .free then some (false, [], s, m)
  else do
    let (s, m, gone) ← visitMutable (fun state : State × σ × List Nat => state.1.links.next) .free
      (fun (s, m, gone) item => do
        let slab ← slabEntry item
        let (given, s, m) ← slabRelease limit c supply slab s m
        some (s, m, if given then slab :: gone else gone)) limit ({ s with locked := true }, m, [])
    some (true, gone, { s with locked := false }, m)

/-- One loop of `release`. -/
def releaseList (list : Link) (s : State) (m : σ) : Option (State × σ) :=
  visitMutable (fun state : State × σ => state.1.links.next) list (fun (s, m) item => do
    let slab ← slabEntry item
    let (_, s, m) ← slabRelease limit c supply slab s m
    some (s, m)) limit (s, m)

/-- `release`, up to giving the `mem_cache` itself back to the cache it is an object of. -/
def release (force : Bool) (s : State) (m : σ) : Option (Bool × State × σ) :=
  if s.locked then none
  else if (!listEmpty s.links .full || !listEmpty s.links .used) && !force then some (false, s, m)
  else do
    let (s, m) ← if force then do
        let (s, m) ← releaseList limit c supply .full { s with locked := true } m
        releaseList limit c supply .used s m
      else some ({ s with locked := true }, m)
    let (s, m) ← releaseList limit c supply .free s m
    some (true, { s with locked := false }, m)

end Slabs

/-- A cache right after `_cache_init`. -/
def State.initial : State where
  links := initList (initList (initList (initList ⟨fun _ => none, fun _ => none⟩ .free) .used) .full) .objMap
  refs _ := 0
  backing _ := 0
  word _ := none
  data _ := 0
  magic _ := 0
  stats := ⟨0, 0, 0, 0, 0, 0⟩
  locked := false
  made := []
  origin _ := none

end Hotarubi.Memory.Cache
