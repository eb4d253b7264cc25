import Whuse.ElfLoader

/-! The system calls that change an address space. Each is a short program over the calls of
the `mm` crate; what the file system reads and which shared segment an id names are arguments.
The last section says that such a program is a run of calls. -/
namespace MemoryCalls

open MachineWord AddressSpace CallRuns ElfLoader

def ebadf : ℕ := 9
def eexist : ℕ := 17

def mapSharedFlag : ℕ := 0x01
def mapPrivateFlag : ℕ := 0x02
def mapTypeMask : ℕ := 0x0f
def mapFixedFlag : ℕ := 0x10
def mapAnonymousFlag : ℕ := 0x20
def mapFixedNoreplaceFlag : ℕ := 0x100000

structure MmapArgs where
  addr : ℕ
  len : ℕ
  prot : ℕ
  flags : ℕ
  fd : ℤ
  offset : ℕ
  deriving DecidableEq, Repr

def MmapArgs.has (args : MmapArgs) (flag : ℕ) : Bool := args.flags &&& flag != 0

def isRangeAvailable (S : AddressSpaceInner) (addr len : ℕ) : KernelResult Bool :=
  if len = 0 ∨ addr &&& (pageSize - 1) ≠ 0 then .error einval
  else .ok (!overlaps S.mappings addr (alignUp len pageSize))

def mmapHint (args : MmapArgs) : KernelResult (Option ℕ) :=
  let pinned := args.has mapFixedFlag || args.has mapFixedNoreplaceFlag
  if pinned || args.addr != 0 then
    let aligned := alignDown args.addr pageSize
    if pinned && aligned != args.addr then .error einval else .ok (some aligned)
  else .ok none

def mmapTarget (S : AddressSpaceInner) (args : MmapArgs) (alignedLen : ℕ) :
    KernelResult (Option ℕ) :=
  match mmapHint args with
  | .error e => .error e
  | .ok none => .ok none
  | .ok (some hint) =>
    if args.has mapFixedNoreplaceFlag then
      match isRangeAvailable S hint alignedLen with
      | .error e => .error e
      | .ok false => .error eexist
      | .ok true => .ok (some hint)
    else if args.has mapFixedFlag then .ok (some hint)
    else
      match isRangeAvailable S hint alignedLen with
      | .error e => .error e
      | .ok free => .ok (if free then some hint else none)

def anonymousCall (heap : Heap) (fuel : ℕ) (shared : Bool) (target : Option ℕ) (len prot : ℕ) :
    Call :=
  match target, shared with
  | some addr, true => .mapAnonymousSharedAt heap addr len prot
  | some addr, false => .mapAnonymousAt heap addr len prot
  | none, true => .mapAnonymousShared heap fuel len prot
  | none, false => .mapAnonymous heap fuel len prot

def fixedCall (heap : Heap) (shared : Bool) (addr : ℕ) (data : List UInt8) (len prot : ℕ) : Call :=
  if shared then .mapFixedSharedBytes heap addr data len prot
  else .mapFixedBytes heap addr data len prot

def mmapFile (hal : HalMemory) (heap : Heap) (fuel : ℕ) (args : MmapArgs) (shared : Bool)
    (target : Option ℕ) (alignedLen : ℕ) (data : List UInt8) (M : Machine) :
    Option (KernelResult ℕ × Machine) :=
  match target with
  | some addr =>
    match exec hal (fixedCall heap shared addr data alignedLen args.prot) M with
    | none => none
    | some (.error e, N) => some (.error e, N)
    | some (.ok _, N) => some (.ok addr, N)
  | none =>
    match exec hal (anonymousCall heap fuel shared none alignedLen args.prot) M with
    | none => none
    | some (.error e, N) => some (.error e, N)
    | some (.ok base, N) =>
      match writeBytes hal base data N with
      | (.error _, N) => some (.error efault, N)
      | (.ok (), N) => some (.ok base, N)

def sysMmap (hal : HalMemory) (heap : Heap) (fuel : ℕ) (file : KernelResult (List UInt8))
    (args : MmapArgs) (M : Machine) : Option (KernelResult ℕ × Machine) :=
  let mappingType := args.flags &&& mapTypeMask
  if args.len = 0 ∨ args.offset &&& (pageSize - 1) ≠ 0 ∨
      (mappingType ≠ mapPrivateFlag ∧ mappingType ≠ mapSharedFlag) then some (.error einval, M)
  else match checkedAdd args.len (pageSize - 1) with
    | none => some (.error einval, M)
    | some padded =>
      let alignedLen := alignDown padded pageSize
      let shared := mappingType == mapSharedFlag
      match mmapTarget M.space args alignedLen with
      | .error e => some (.error e, M)
      | .ok target =>
        if args.has mapAnonymousFlag then
          exec hal (anonymousCall heap fuel shared target alignedLen args.prot) M
        else if args.fd < 0 then some (.error ebadf, M)
        else match file with
          | .error e => some (.error e, M)
          | .ok data => mmapFile hal heap fuel args shared target alignedLen data M

def sysMunmap (addr len : ℕ) (M : Machine) : KernelResult ℕ × Machine := withZero (unmap addr len M)

def sysMprotect (addr len prot : ℕ) (M : Machine) : KernelResult ℕ × Machine :=
  withZero (mprotect addr len prot M)

def sysBrk (hal : HalMemory) (heap : Heap) (requested : ℕ) (M : Machine) :
    KernelResult ℕ × Machine :=
  brk hal heap (if requested ≠ 0 then some requested else none) M

/-- The segment is mapped at the address that equals its length, whatever was asked for. -/
def sysShmat (hal : HalMemory) (segment : KernelResult (Arc VecBuf)) (M : Machine) :
    KernelResult ℕ × Machine :=
  match segment with
  | .error e => (.error e, M)
  | .ok data =>
    match mapSharedExisting data.inner.len data 0b11 M with
    | (.error e, N) => (.error e, N)
    | (.ok addr, N) =>
      withZero (writeBytes hal addr (rawBytes N.mem data.inner.ptr data.inner.len) N)

inductive SystemCall where
  | mmap (heap : Heap) (fuel : ℕ) (file : KernelResult (List UInt8)) (args : MmapArgs)
  | munmap (addr len : ℕ)
  | mprotect (addr len prot : ℕ)
  | brk (heap : Heap) (requested : ℕ)
  | shmat (segment : KernelResult (Arc VecBuf))

def perform (hal : HalMemory) (M : Machine) : SystemCall → Option (KernelResult ℕ × Machine)
  | .mmap heap fuel file args => sysMmap hal heap fuel file args M
  | .munmap addr len => some (sysMunmap addr len M)
  | .mprotect addr len prot => some (sysMprotect addr len prot M)
  | .brk heap requested => some (sysBrk hal heap requested M)
  | .shmat segment => some (sysShmat hal segment M)

end MemoryCalls
