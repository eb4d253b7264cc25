import Mathlib.Data.Finset.Basic
import Whuse.MachineWord

/-! The user address space of the `mm` crate. A machine is one address space over the bytes
of kernel memory, indexed by the kernel virtual addresses the code dereferences. Calls keep
the state of a failed run: nothing is rolled back. What the heap and the memory map of the
platform answer is a parameter of each call. -/
namespace AddressSpace

open Std (ExtTreeMap)
open MachineWord

abbrev Memory := ℕ → UInt8
abbrev KernelResult := Except ℕ

def efault : ℕ := 14
def einval : ℕ := 22
def enoexec : ℕ := 8
def enomem : ℕ := 12

def userHeapBase : ℕ := 0x40000000
def userStackSize : ℕ := 0x80000
def userStackTop : ℕ := 0x7ffff000
def userMmapBase : ℕ := 0x50000000
def defaultProt : ℕ := 0b11
def pageSize : ℕ := 4096

structure MemoryRegion where
  start : ℕ
  size : ℕ
  usable : Bool
  deriving DecidableEq, Repr

structure HalMemory where
  memoryRegions : List MemoryRegion
  physToVirt : ℕ → ℕ

def riscvVirtMemory (kernelEnd : ℕ) : HalMemory where
  memoryRegions := [⟨0, 0x10000000, false⟩, ⟨kernelEnd, 0x90000000 - kernelEnd, true⟩]
  physToVirt := id

/-- The answers of the kernel heap during one call: whether a reservation succeeds, where the
buffer of a shared segment starts, and where the counted block of a segment is put. -/
structure Heap where
  tryReserve : ℕ → Bool
  vecPtr : ℕ
  arc : ℕ → ℕ

structure MappingArea where
  start : ℕ
  len : ℕ
  prot : ℕ
  deriving DecidableEq, Repr

structure FrameAllocator where
  start : ℕ
  end_ : ℕ
  next : ℕ
  deriving DecidableEq, Repr

def FrameAllocator.fromRegions (regions : List MemoryRegion) : FrameAllocator :=
  let usable := (regions.find? (·.usable)).getD ⟨0, 0, false⟩
  ⟨usable.start, wrappingAdd usable.start usable.size, usable.start⟩

def FrameAllocator.allocPage (fa : FrameAllocator) : Option (ℕ × FrameAllocator) :=
  match checkedAdd fa.next pageSize with
  | none => none
  | some next => if fa.end_ < next then none else some (fa.next, { fa with next := next })

structure OwnedFramesInner where
  physBase : ℕ
  numPages : ℕ
  deriving DecidableEq, Repr

/-- A counted reference: the address of the block tells two references apart. -/
structure Arc (α : Type) where
  addr : ℕ
  inner : α
  deriving DecidableEq, Repr

structure VecBuf where
  ptr : ℕ
  len : ℕ
  deriving DecidableEq, Repr

inductive SegmentStorage where
  | owned (frames : Arc OwnedFramesInner)
  | shared (bytes : Arc VecBuf) (ptr : ℕ)
  | host (ptr len : ℕ)
  deriving DecidableEq, Repr

structure Segment where
  area : MappingArea
  storage : SegmentStorage
  deriving DecidableEq, Repr

abbrev Mappings := ExtTreeMap ℕ Segment

structure AddressSpaceInner where
  mappings : Mappings
  programBreak : ℕ
  nextMappingBase : ℕ
  dirty : Bool
  frameAllocator : FrameAllocator

structure Machine where
  space : AddressSpaceInner
  mem : Memory

def newUser (hal : HalMemory) : AddressSpaceInner where
  mappings := ∅
  programBreak := userHeapBase
  nextMappingBase := userMmapBase
  dirty := true
  frameAllocator := FrameAllocator.fromRegions hal.memoryRegions

/-! Raw memory. A pointer sum is the address of an object the code dereferences, so it is
not reduced. -/

def copyBytes (mem : Memory) (ptr : ℕ) (data : List UInt8) : Memory :=
  fun a => if ptr ≤ a then (data[a - ptr]?).getD (mem a) else mem a

def rawBytes (mem : Memory) (ptr len : ℕ) : List UInt8 :=
  (List.range len).map fun i => mem (ptr + i)

def pageOffset (addr : ℕ) : ℕ := addr &&& (pageSize - 1)

def sliceSegmentStorage (segment : Segment) (start len : ℕ) : SegmentStorage :=
  let offset := start - segment.area.start
  match segment.storage with
  | .owned frames => .owned frames
  | .shared bytes ptr => .shared bytes (saturatingAdd ptr offset)
  | .host ptr _ => .host (saturatingAdd ptr offset) len

def sliceSegment (segment : Segment) (start len prot : ℕ) : Segment :=
  ⟨⟨start, len, prot⟩, sliceSegmentStorage segment start len⟩

def overlaps (mappings : Mappings) (start len : ℕ) : Bool :=
  let end_ := saturatingAdd start len
  mappings.toList.any fun (base, segment) =>
    let segEnd := wrappingAdd base segment.area.len
    decide (start < segEnd ∧ base < end_)

def firstOverlapEnd (mappings : Mappings) (start len : ℕ) : Option ℕ :=
  let end_ := saturatingAdd start len
  mappings.toList.findSome? fun (base, segment) =>
    let segEnd := wrappingAdd base segment.area.len
    if start < segEnd ∧ base < end_ then some segEnd else none

/-- One turn of the loop of `unmapRangeInner`; the flag is `changed`. -/
def unmapKey (start end_ : ℕ) (st : Mappings × Bool) (key : ℕ) : Mappings × Bool :=
  match st.1[key]? with
  | none => st
  | some segment =>
    let rest := st.1.erase key
    let segStart := segment.area.start
    let segEnd := wrappingAdd segStart segment.area.len
    if end_ ≤ segStart ∨ segEnd ≤ start then (rest.insert segStart segment, st.2)
    else
      let rest :=
        if segStart < start then
          let left := sliceSegment segment segStart (start - segStart) segment.area.prot
          rest.insert left.area.start left
        else rest
      let rest :=
        if end_ < segEnd then
          let right := sliceSegment segment end_ (segEnd - end_) segment.area.prot
          rest.insert right.area.start right
        else rest
      (rest, true)

def unmapRangeInner (inner : AddressSpaceInner) (start len : ℕ) :
    KernelResult Unit × AddressSpaceInner :=
  if len = 0 then (.error einval, inner)
  else match checkedAdd start len with
    | none => (.error einval, inner)
    | some end_ =>
      let (mappings, changed) :=
        inner.mappings.keys.foldl (unmapKey start end_) (inner.mappings, false)
      (.ok (), { inner with mappings := mappings, dirty := changed || inner.dirty })

def insertSegment (inner : AddressSpaceInner) (segment : Segment) :
    KernelResult Unit × AddressSpaceInner :=
  let cleared :=
    if overlaps inner.mappings segment.area.start segment.area.len then
      unmapRangeInner inner segment.area.start segment.area.len
    else (.ok (), inner)
  match cleared with
  | (.error e, inner) => (.error e, inner)
  | (.ok (), inner) =>
    (.ok (), { inner with
      mappings := inner.mappings.insert segment.area.start segment, dirty := true })

/-- The loop that takes the pages after the first; a failure keeps what was taken. -/
def allocMore : ℕ → FrameAllocator → Bool × FrameAllocator
  | 0, fa => (true, fa)
  | n + 1, fa =>
    match fa.allocPage with
    | none => (false, fa)
    | some (_, fa) => allocMore n fa

def storageLen (addr len : ℕ) : ℕ := alignUp (wrappingAdd (pageOffset addr) len) pageSize

def numPages (addr len : ℕ) : ℕ := wrappingAdd (storageLen addr len) (pageSize - 1) / pageSize

def createOwnedStorage (hal : HalMemory) (heap : Heap) (addr : ℕ) (data : List UInt8)
    (fa : FrameAllocator) (mem : Memory) : KernelResult SegmentStorage × FrameAllocator × Memory :=
  let data := if data.isEmpty then [0] else data
  let pages := numPages addr data.length
  match fa.allocPage with
  | none => (.error enomem, fa, mem)
  | some (physBase, fa) =>
    match allocMore (pages - 1) fa with
    | (false, fa) => (.error enomem, fa, mem)
    | (true, fa) =>
      let alignedBase := alignUp (hal.physToVirt physBase) pageSize
      (.ok (.owned ⟨heap.arc addr, ⟨physBase, pages⟩⟩), fa,
        copyBytes mem (alignedBase + pageOffset addr) data)

def createSharedStorage (heap : Heap) (addr : ℕ) (data : List UInt8) (mem : Memory) :
    SegmentStorage × Memory :=
  let data := if data.isEmpty then [0] else data
  let total := wrappingAdd (storageLen addr data.length) pageSize
  let ptr := alignUp heap.vecPtr pageSize + pageOffset addr
  (.shared ⟨heap.arc addr, ⟨heap.vecPtr, total⟩⟩ ptr,
    copyBytes (copyBytes mem heap.vecPtr (List.replicate total 0)) ptr data)

def mapOwned (hal : HalMemory) (heap : Heap) (addr : ℕ) (bytes : List UInt8) (prot : ℕ)
    (M : Machine) : KernelResult Unit × Machine :=
  match createOwnedStorage hal heap addr bytes M.space.frameAllocator M.mem with
  | (.error e, fa, mem) => (.error e, ⟨{ M.space with frameAllocator := fa }, mem⟩)
  | (.ok storage, fa, mem) =>
    let (r, space) := insertSegment { M.space with frameAllocator := fa }
      ⟨⟨addr, max bytes.length 1, prot⟩, storage⟩
    (r, ⟨space, mem⟩)

def mapShared (heap : Heap) (addr : ℕ) (bytes : List UInt8) (prot : ℕ) (M : Machine) :
    KernelResult Unit × Machine :=
  let (storage, mem) := createSharedStorage heap addr bytes M.mem
  let (r, space) := insertSegment M.space ⟨⟨addr, max bytes.length 1, prot⟩, storage⟩
  (r, ⟨space, mem⟩)

def setNextBase (next : ℕ) (M : Machine) : Machine :=
  { M with space := { M.space with nextMappingBase := next } }

def setBreak (newBreak : ℕ) (M : Machine) : Machine :=
  { M with space := { M.space with programBreak := newBreak } }

/-! The mapping calls. Each private call and its shared sibling differ in the function that
stores the bytes. -/

abbrev Place := ℕ → List UInt8 → ℕ → Machine → KernelResult Unit × Machine

/-- The search for a free range, with the next mapping base; `none` is a search still
running. -/
def searchLoop (mappings : Mappings) (aligned : ℕ) : ℕ → ℕ → Option (KernelResult (ℕ × ℕ))
  | 0, _ => none
  | fuel + 1, start =>
    match firstOverlapEnd mappings start aligned with
    | some overlapEnd => searchLoop mappings aligned fuel (alignUp overlapEnd pageSize)
    | none =>
      match checkedAdd start aligned with
      | none => some (.error enomem)
      | some next => some (.ok (start, next))

def mapAnonymousBy (place : Place) (heap : Heap) (fuel len prot : ℕ) (M : Machine) :
    Option (KernelResult ℕ × Machine) :=
  if len = 0 then some (.error einval, M)
  else
    let aligned := alignUp len pageSize
    match searchLoop M.space.mappings aligned fuel (alignUp M.space.nextMappingBase pageSize) with
    | none => none
    | some (.error e) => some (.error e, M)
    | some (.ok (start, next)) =>
      let M := setNextBase next M
      if heap.tryReserve aligned then
        match place start (List.replicate aligned 0) prot M with
        | (.error e, M) => some (.error e, M)
        | (.ok (), M) => some (.ok start, M)
      else some (.error enomem, M)

def mapAnonymous (hal : HalMemory) (heap : Heap) :=
  mapAnonymousBy (mapOwned hal heap) heap

def mapAnonymousShared (heap : Heap) := mapAnonymousBy (mapShared heap) heap

def mapFixedBytesBy (place : Place) (heap : Heap) (addr : ℕ) (bytes : List UInt8)
    (memLen prot : ℕ) (M : Machine) : KernelResult Unit × Machine :=
  if memLen = 0 ∨ memLen < bytes.length then (.error einval, M)
  else if heap.tryReserve memLen then
    place addr (bytes ++ List.replicate (memLen - bytes.length) 0) prot M
  else (.error enomem, M)

def mapFixedBytes (hal : HalMemory) (heap : Heap) :=
  mapFixedBytesBy (mapOwned hal heap) heap

def mapFixedSharedBytes (heap : Heap) := mapFixedBytesBy (mapShared heap) heap

def mapAnonymousAtBy (place : Place) (heap : Heap) (addr len prot : ℕ) (M : Machine) :
    KernelResult ℕ × Machine :=
  if len = 0 ∨ addr &&& (pageSize - 1) ≠ 0 then (.error einval, M)
  else
    match mapFixedBytesBy place heap addr [] (alignUp len pageSize) prot M with
    | (.error e, M) => (.error e, M)
    | (.ok (), M) => (.ok addr, M)

def mapAnonymousAt (hal : HalMemory) (heap : Heap) :=
  mapAnonymousAtBy (mapOwned hal heap) heap

def mapAnonymousSharedAt (heap : Heap) := mapAnonymousAtBy (mapShared heap) heap

def mapSharedExisting (addr : ℕ) (data : Arc VecBuf) (prot : ℕ) (M : Machine) :
    KernelResult ℕ × Machine :=
  match insertSegment M.space ⟨⟨addr, max data.inner.len 1, prot⟩, .shared data addr⟩ with
  | (.error e, space) => (.error e, { M with space := space })
  | (.ok (), space) => (.ok addr, { M with space := space })

def installHostRange (addr len prot : ℕ) (M : Machine) : KernelResult Unit × Machine :=
  if len = 0 then (.error einval, M)
  else
    let (r, space) := insertSegment M.space ⟨⟨addr, len, prot⟩, .host addr len⟩
    (r, { M with space := space })

def unmap (addr len : ℕ) (M : Machine) : KernelResult Unit × Machine :=
  if len = 0 then (.error einval, M)
  else
    let (r, space) := unmapRangeInner M.space addr (alignUp len pageSize)
    (r, { M with space := space })

def mprotectKey (addr end_ prot : ℕ) (mappings : Mappings) (key : ℕ) : Mappings :=
  match mappings[key]? with
  | none => mappings
  | some segment =>
    let rest := mappings.erase key
    let segStart := segment.area.start
    let segEnd := wrappingAdd segStart segment.area.len
    if end_ ≤ segStart ∨ segEnd ≤ addr then rest.insert segStart segment
    else
      let rest :=
        if segStart < addr then
          let left := sliceSegment segment segStart (addr - segStart) segment.area.prot
          rest.insert left.area.start left
        else rest
      let midStart := max segStart addr
      let midEnd := min segEnd end_
      let mid := sliceSegment segment midStart (wrappingSub midEnd midStart) prot
      let rest := rest.insert mid.area.start mid
      if end_ < segEnd then
        let right := sliceSegment segment end_ (segEnd - end_) segment.area.prot
        rest.insert right.area.start right
      else rest

def mprotect (addr len prot : ℕ) (M : Machine) : KernelResult Unit × Machine :=
  if len = 0 then (.error einval, M)
  else match checkedAdd addr (alignUp len pageSize) with
    | none => (.error einval, M)
    | some end_ =>
      let mappings := M.space.mappings.keys.foldl (mprotectKey addr end_ prot) M.space.mappings
      (.ok (), { M with space := { M.space with mappings := mappings, dirty := true } })

/-- The pages between the old and the new break, mapped or unmapped. -/
def moveBreak (hal : HalMemory) (heap : Heap) (newBreak : ℕ) (M : Machine) :
    KernelResult Unit × Machine :=
  let oldBreak := M.space.programBreak
  if oldBreak < newBreak then
    let mapStart := alignUp oldBreak pageSize
    let mapEnd := alignUp newBreak pageSize
    if mapStart < mapEnd then
      mapFixedBytes hal heap mapStart [] (mapEnd - mapStart) defaultProt M
    else (.ok (), M)
  else if newBreak < oldBreak then
    let unmapStart := alignUp newBreak pageSize
    let unmapEnd := alignUp oldBreak pageSize
    if unmapStart < unmapEnd then
      let (r, space) := unmapRangeInner M.space unmapStart (unmapEnd - unmapStart)
      (r, { M with space := space })
    else (.ok (), M)
  else (.ok (), M)

def brk (hal : HalMemory) (heap : Heap) (newBreak : Option ℕ) (M : Machine) :
    KernelResult ℕ × Machine :=
  match newBreak with
  | none => (.ok M.space.programBreak, M)
  | some requestedBreak =>
    if requestedBreak < userHeapBase then (.error einval, M)
    else
      let newBreak := alignUp requestedBreak 16
      match moveBreak hal heap newBreak M with
      | (.error e, M) => (.error e, M)
      | (.ok (), M) => (.ok newBreak, setBreak newBreak M)

def clear (M : Machine) : Machine :=
  { M with space := { M.space with
      mappings := ∅, programBreak := userHeapBase, nextMappingBase := userMmapBase,
      dirty := true } }

/-- A host range is re-described as owned frames at the same place; the other two kinds keep
their counted block. -/
def cloneStorage (heap : Heap) (start : ℕ) : SegmentStorage → SegmentStorage
  | .owned frames => .owned frames
  | .shared bytes ptr => .shared bytes ptr
  | .host ptr len => .owned ⟨heap.arc start, ⟨ptr, alignUp len pageSize / pageSize⟩⟩

def clonePrivate (hal : HalMemory) (heap : Heap) (inner : AddressSpaceInner) :
    AddressSpaceInner where
  mappings := inner.mappings.map fun start segment =>
    ⟨segment.area, cloneStorage heap start segment.storage⟩
  programBreak := inner.programBreak
  nextMappingBase := inner.nextMappingBase
  dirty := true
  frameAllocator := FrameAllocator.fromRegions hal.memoryRegions

def holdsRange (addr end_ : ℕ) (entry : ℕ × Segment) : Bool :=
  match checkedAdd entry.1 entry.2.area.len with
  | none => false
  | some segEnd => decide (entry.1 ≤ addr ∧ end_ ≤ segEnd)

def findSegment (mappings : Mappings) (addr len : ℕ) : KernelResult (Segment × ℕ) :=
  match checkedAdd addr len with
  | none => .error efault
  | some end_ =>
    match mappings.toList.find? (holdsRange addr end_) with
    | none => .error efault
    | some (base, segment) => .ok (segment, addr - base)

def dataPtr (hal : HalMemory) (segment : Segment) : ℕ :=
  match segment.storage with
  | .owned frames => hal.physToVirt frames.inner.physBase + pageOffset segment.area.start
  | .shared _ ptr => ptr
  | .host ptr _ => ptr

/-- Each turn takes at least one byte, so the length is fuel enough. -/
def readLoop (hal : HalMemory) (mappings : Mappings) (mem : Memory) :
    ℕ → ℕ → ℕ → List UInt8 → KernelResult (List UInt8)
  | _, _, 0, out => .ok out
  | 0, _, _ + 1, _ => .error efault
  | fuel + 1, cursor, remaining + 1, out =>
    match findSegment mappings cursor 1 with
    | .error e => .error e
    | .ok (segment, offset) =>
      let take := min (segment.area.len - offset) (remaining + 1)
      if take = 0 then .error efault
      else
        let out := out ++ rawBytes mem (dataPtr hal segment + offset) take
        match checkedAdd cursor take with
        | none => .error efault
        | some cursor => readLoop hal mappings mem fuel cursor (remaining + 1 - take) out

def readBytes (hal : HalMemory) (heap : Heap) (addr len : ℕ) (M : Machine) :
    KernelResult (List UInt8) :=
  if len = 0 then .ok []
  else if heap.tryReserve len then readLoop hal M.space.mappings M.mem len addr len []
  else .error enomem

def hostRefuses (storage : SegmentStorage) (offset take : ℕ) : Bool :=
  match storage with
  | .host _ len => decide (len < offset + take)
  | _ => false

def writeLoop (hal : HalMemory) (mappings : Mappings) :
    ℕ → ℕ → List UInt8 → Memory → KernelResult Unit × Memory
  | _, _, [], mem => (.ok (), mem)
  | 0, _, _ :: _, mem => (.error efault, mem)
  | fuel + 1, cursor, byte :: bytes, mem =>
    match findSegment mappings cursor 1 with
    | .error e => (.error e, mem)
    | .ok (segment, offset) =>
      let take := min (segment.area.len - offset) (bytes.length + 1)
      if hostRefuses segment.storage offset take then (.error efault, mem)
      else
        let mem := copyBytes mem (dataPtr hal segment + offset) ((byte :: bytes).take take)
        match checkedAdd cursor take with
        | none => (.error efault, mem)
        | some cursor => writeLoop hal mappings fuel cursor ((byte :: bytes).drop take) mem

def writeBytes (hal : HalMemory) (addr : ℕ) (bytes : List UInt8) (M : Machine) :
    KernelResult Unit × Machine :=
  let (r, mem) := writeLoop hal M.space.mappings bytes.length addr bytes M.mem
  (r, { M with mem := mem })

/-- Results have no decidable equality, their values do. -/
theorem toOption_eq_some {α : Type} {r : KernelResult α} {a : α} :
    r.toOption = some a ↔ r = .ok a := by
  cases r <;> simp [Except.toOption]

def pageUp (n : ℕ) : ℕ := (n + (pageSize - 1)) / pageSize * pageSize

theorem pageOffset_eq_mod (addr : ℕ) : pageOffset addr = addr % pageSize :=
  Nat.and_two_pow_sub_one_eq_mod addr 12

theorem le_pageUp (n : ℕ) : n ≤ pageUp n := by unfold pageUp pageSize; omega

theorem pageUp_pos {n : ℕ} (h : 0 < n) : 0 < pageUp n := lt_of_lt_of_le h (le_pageUp n)

theorem alignUp_page {n : ℕ} (h : pageUp n ≤ usizeMax) : alignUp n pageSize = pageUp n := by
  have hn : n + (2 ^ 12 - 1) ≤ usizeMax := by
    unfold pageUp pageSize usizeMax at *
    omega
  exact alignUp_two_pow (by decide) hn

end AddressSpace
