import Mathlib.Data.Fin.VecNotation
import Whuse.ProcessTable
import Whuse.TaskScheduler

/-! The calls that create and end threads. The process table and the scheduler are two separate
structures; each call changes both by hand. -/
namespace ProcessCalls

open Option
open MachineWord AddressSpace ByteFields TrapHandler TaskScheduler ProcessTable ProcessTable.Table

structure KernelState where
  table : Table
  scheduler : Scheduler

structure CloneRequest where
  flags : ℕ
  stack : ℕ
  parentTid : ℕ
  childTid : ℕ
  tls : Option ℕ
  deriving DecidableEq, Repr

def cloneVm : ℕ := 0x100
def cloneFs : ℕ := 0x200
def cloneFiles : ℕ := 0x400
def cloneSighand : ℕ := 0x800
def cloneVfork : ℕ := 0x4000
def cloneThreadFlag : ℕ := 0x10000
def cloneSettls : ℕ := 0x80000
def cloneParentSettid : ℕ := 0x100000
def cloneChildCleartid : ℕ := 0x200000
def cloneChildSettid : ℕ := 0x1000000

def cloneNamespaceMask : ℕ :=
  0x20000 ||| 0x2000000 ||| 0x4000000 ||| 0x8000000 ||| 0x10000000 ||| 0x20000000 ||| 0x40000000

def cloneThreadRequired : ℕ :=
  cloneVm ||| cloneFs ||| cloneFiles ||| cloneSighand ||| cloneThreadFlag

def CloneRequest.has (r : CloneRequest) (flag : ℕ) : Bool := r.flags &&& flag != 0

instance neZero_args : NeZero 6 := ⟨by decide⟩

def decodeCloneRequest (arch : Arch) (args : Fin 6 → ℕ) : CloneRequest where
  flags := args 0
  stack := args 1
  parentTid := args 2
  childTid := match arch with
    | .riscv64 => args 4
    | .loongarch64 => args 3
  tls := if args 0 &&& cloneSettls ≠ 0 then
      some (match arch with
        | .riscv64 => args 3
        | .loongarch64 => args 4)
    else none

section Clone

variable (hal : HalMemory) (heap : Heap) (fuel : ℕ)

def storeTid (wanted : Bool) (holder addr tid : ℕ) (t : Table) : KernelResult Unit × Table :=
  if wanted = true ∧ addr ≠ 0 then
    match t.processes[holder]? with
    | none => (.error ebadf, t)
    | some p =>
      match writeBytes hal addr (leBytes 4 tid) (t.machine p) with
      | (.error _, M) => (.error efault, t.putMachine p M)
      | (.ok (), M) => (.ok (), t.putMachine p M)
  else (.ok (), t)

def setClearChildTid (wanted : Bool) (tid addr : ℕ) (t : Table) : Table :=
  if wanted = true ∧ addr ≠ 0 then t.modify tid fun p => { p with clearChildTid := some addr } else t

/-- The tids are stored before the scheduler hears of the thread. The second store runs with the
new thread as the current one, which a failure leaves in place. -/
def cloneThread (r : CloneRequest) (k : KernelState) : Option (KernelResult ℕ × KernelState) :=
  if r.flags &&& cloneThreadRequired ≠ cloneThreadRequired then some (.error einval, k)
  else
    match k.table.cloneThreadFromCurrent hal heap fuel r.stack r.tls with
    | none => none
    | some (.error e, t) => some (.error e, { k with table := t })
    | some (.ok tid, t) =>
      match storeTid hal (r.has cloneParentSettid) t.currentTid r.parentTid tid t with
      | (.error e, t) => some (.error e, { k with table := t })
      | (.ok (), t) =>
        match t.current with
        | .error e => some (.error e, { k with table := t })
        | .ok caller =>
          let t := (t.setCurrent tid).2
          match storeTid hal (r.has cloneChildSettid) tid r.childTid tid t with
          | (.error e, t) => some (.error e, { k with table := t })
          | (.ok (), t) =>
            let t := setClearChildTid (r.has cloneChildCleartid) tid r.childTid t
            some (.ok tid, ⟨(t.setCurrent caller.tid).2, k.scheduler.spawn tid caller.tgid⟩)

def forkedFrame (sepc : UInt64) (stack : ℕ) (p : Process) : Process :=
  let frame := { p.trapFrame.setRetval 0 with sepc := sepc + 4 }
  { p with trapFrame :=
      if stack = 0 then frame
      else { frame with regs := Function.update frame.regs 2 (UInt64.ofNat stack) } }

/-- A process is forked; of the two stores only the parent's can fail the call. -/
def cloneProcess (r : CloneRequest) (k : KernelState) : KernelResult ℕ × KernelState :=
  let forked := if r.has cloneVm then k.table.forkProcessFromCurrentShared
    else k.table.forkProcessFromCurrent hal heap
  match forked with
  | (.error e, t) => (.error e, { k with table := t })
  | (.ok pid, t) =>
    match storeTid hal (r.has cloneParentSettid) t.currentTid r.parentTid pid t with
    | (.error e, t) => (.error e, { k with table := t })
    | (.ok (), t) =>
      match t.current with
      | .error e => (.error e, { k with table := t })
      | .ok caller =>
        let t := (storeTid hal (r.has cloneChildSettid) pid r.childTid pid t).2
        let t := setClearChildTid (r.has cloneChildCleartid) pid r.childTid t
        let t := t.modify pid (forkedFrame caller.trapFrame.sepc r.stack)
        if r.has cloneVfork then
          (.ok pid, ⟨(t.setVforkParentTid pid caller.tid).2, k.scheduler.blockCurrent.spawn pid pid⟩)
        else (.ok pid, ⟨t, k.scheduler.spawn pid pid⟩)

def doClone (r : CloneRequest) (k : KernelState) : Option (KernelResult ℕ × KernelState) :=
  match k.table.current with
  | .error e => some (.error e, k)
  | .ok _ =>
    if r.has cloneNamespaceMask then some (.error einval, k)
    else if r.has cloneThreadFlag then cloneThread hal heap fuel r k
    else some (cloneProcess hal heap r k)

def cloneArgsLen : ℕ := 88

/-- A field beyond the bytes the caller gave reads as zero. -/
def cloneArg (raw : List UInt8) (offset : ℕ) : ℕ :=
  if raw.length < offset + 8 then 0 else ElfLoader.fromLeBytes ((raw.drop offset).take 8)

/-- The arguments of `clone3`, in the order of the older call. -/
def clone3Args (raw : List UInt8) : Fin 6 → ℕ :=
  let stack := cloneArg raw 40
  let stackSize := cloneArg raw 48
  ![cloneArg raw 0 ||| (cloneArg raw 32 &&& 0xff),
    if stackSize = 0 then stack else saturatingAdd stack stackSize,
    cloneArg raw 24, cloneArg raw 16, cloneArg raw 56, 0]

def sysClone3 (arch : Arch) (addr size : ℕ) (k : KernelState) :
    Option (KernelResult ℕ × KernelState) :=
  if addr = 0 ∨ size < 64 then some (.error einval, k)
  else
    match k.table.current with
    | .error e => some (.error e, k)
    | .ok p =>
      match readBytes hal heap addr (min size cloneArgsLen) (k.table.machine p) with
      | .error _ => some (.error efault, k)
      | .ok raw => doClone hal heap fuel (decodeCloneRequest arch (clone3Args raw)) k

variable {hal heap fuel} {r : CloneRequest} {k : KernelState} {out : KernelResult ℕ × KernelState}

theorem doClone_cases (h : doClone hal heap fuel r k = some out) :
    (∃ e, out = (.error e, k)) ∨ ∃ p, k.table.current = .ok p ∧
      (r.has cloneThreadFlag = true ∧ cloneThread hal heap fuel r k = some out ∨
        r.has cloneThreadFlag = false ∧ out = cloneProcess hal heap r k) := by
  unfold doClone at h
  split at h
  · exact .inl ⟨_, (some.inj h).symm⟩
  next p hp =>
  split at h
  · exact .inl ⟨_, (some.inj h).symm⟩
  split at h
  · next hthread => exact .inr ⟨p, hp, .inl ⟨hthread, h⟩⟩
  · next hthread => exact .inr ⟨p, hp, .inr ⟨by simpa using hthread, (some.inj h).symm⟩⟩

theorem sysClone3_cases {arch : Arch} {addr size : ℕ}
    (h : sysClone3 hal heap fuel arch addr size k = some out) :
    (∃ e, out = (.error e, k)) ∨ ∃ p raw, k.table.current = .ok p ∧
      readBytes hal heap addr (min size cloneArgsLen) (k.table.machine p) = .ok raw ∧
      doClone hal heap fuel (decodeCloneRequest arch (clone3Args raw)) k = some out := by
  unfold sysClone3 at h
  split at h
  · exact .inl ⟨_, (some.inj h).symm⟩
  split at h
  · exact .inl ⟨_, (some.inj h).symm⟩
  split at h
  · exact .inl ⟨_, (some.inj h).symm⟩
  · exact .inr ⟨_, _, ‹_›, ‹_›, h⟩

end Clone

def wakeProcessGroupThreads (tgid : ℕ) (k : KernelState) : KernelState :=
  { k with scheduler := k.scheduler.wakeTasks (k.table.liveTidsInTgid tgid) }

/-- The parent is signalled once more and all its threads are woken. -/
def tellParent (parent : Option ℕ) (k : KernelState) : KernelState :=
  match parent with
  | none => k
  | some tgid =>
    wakeProcessGroupThreads tgid { k with table := (k.table.sendSignalTid tgid sigchld).2 }

def wakeWaiters (count addr : ℕ) (k : KernelState) : KernelState :=
  let (woken, t) := k.table.wakeFutex addr count
  ⟨t, k.scheduler.wakeTasks woken⟩

def wakeAllWaiters (addrs : List ℕ) (k : KernelState) : KernelState :=
  addrs.foldl (fun k addr => wakeWaiters usizeMax addr k) k

def wakeRobust (addrs : List ℕ) (k : KernelState) : KernelState :=
  addrs.foldl (fun k addr => wakeWaiters 1 addr k) k

def wakeVforkParent (tid : Option ℕ) (k : KernelState) : KernelState :=
  match tid with
  | none => k
  | some tid => { k with scheduler := k.scheduler.wakeTask tid }

/-- The two addresses joiners wait at, each once. -/
def joinAddrs (x : ThreadExit) : List ℕ :=
  if x.clearChildTid = x.tidAddress then x.clearChildTid.toList
  else x.clearChildTid.toList ++ x.tidAddress.toList

/-- The scheduler forgets an exited thread, and its group if it was the last. -/
def dropTasks (x : ThreadExit) (s : Scheduler) : Scheduler :=
  let s := s.removeTask x.tid
  if x.groupExited then s.exitGroup x.tgid else s

section Exits

variable (hal : HalMemory) (heap : Heap)

/-- `exit_group` wakes no futex waiter. -/
def sysExitGroup (code : Int32) (k : KernelState) : KernelResult ℕ × KernelState :=
  match k.table.exitCurrentProcessGroup hal heap code with
  | (.error e, t) => (.error e, { k with table := t })
  | (.ok x, t) => (.ok 0, tellParent x.parentTgid ⟨t, k.scheduler.exitGroup x.tgid⟩)

/-- The parent is told even when the group lives on. The addresses are woken in order. -/
def sysExitThread (code : Int32) (k : KernelState) : KernelResult ℕ × KernelState :=
  match k.table.exitCurrentThread hal heap code with
  | (.error e, t) => (.error e, { k with table := t })
  | (.ok x, t) =>
    let k := tellParent x.parentTgid ⟨t, dropTasks x k.scheduler⟩
    (.ok 0, wakeAllWaiters ((joinAddrs x).mergeSort (· ≤ ·)) k)

def sysExit (exitGroup : Bool) (code : Int32) (k : KernelState) : KernelResult ℕ × KernelState :=
  if exitGroup then sysExitGroup hal heap code k else sysExitThread hal heap code k

/-- What the kernel does after it has ended a thread by itself. -/
def afterKernelExit (x : ThreadExit) (k : KernelState) : KernelState :=
  let k := tellParent x.parentTgid { k with scheduler := dropTasks x k.scheduler }
  wakeRobust x.robustFutexAddrs (wakeAllWaiters (joinAddrs x) k)

def wakeEveryone (k : KernelState) : KernelState :=
  { k with scheduler := k.scheduler.wakeAllBlocked }

def signalExit (signum : ℕ) (k : KernelState) : KernelState :=
  match k.table.exitCurrentThread hal heap (-Int32.ofNat signum) with
  | (.error _, t) => { k with table := t }
  | (.ok x, t) => wakeEveryone (afterKernelExit x { k with table := t })

/-- A thread that was interrupted too often in a futex wait. -/
def forcedThreadExit (k : KernelState) : KernelState :=
  match k.table.exitCurrentThread hal heap 7 with
  | (.error _, t) => { k with table := t }
  | (.ok x, t) => afterKernelExit x { k with table := t }

/-- A trap that is neither a call nor an interrupt ends the group; the `vfork` parent is woken
first. -/
def faultExit (k : KernelState) : KernelState :=
  match k.table.exitCurrentProcessGroup hal heap (-1) with
  | (.error _, t) => { k with table := t }
  | (.ok x, t) =>
    let k := wakeVforkParent x.vforkParentTid ⟨t, dropTasks x k.scheduler⟩
    let k := tellParent x.parentTgid k
    wakeEveryone (wakeRobust x.robustFutexAddrs (wakeAllWaiters (joinAddrs x) k))

def watchdogCode : Int32 := 124

def forceExits : List ℕ → Table → List GroupExit × Table
  | [], t => ([], t)
  | tgid :: tgids, t =>
    let (x, t) := t.forceExitGroup hal heap watchdogCode tgid
    let (xs, t) := forceExits tgids t
    (x.toList ++ xs, t)

def afterForcedExit (k : KernelState) (x : GroupExit) : KernelState :=
  let k := { k with scheduler := k.scheduler.exitGroup x.tgid }
  let k := match x.parentTgid with
    | none => k
    | some tgid => wakeProcessGroupThreads tgid k
  wakeVforkParent x.vforkParentTid k

def watchdogKill (tgids : List ℕ) (k : KernelState) : KernelState :=
  let (xs, t) := forceExits hal heap tgids k.table
  if xs.isEmpty then { k with table := t }
  else
    let k := xs.foldl afterForcedExit { k with table := t }
    let k := wakeAllWaiters (xs.flatMap GroupExit.clearChildTids) k
    wakeEveryone (wakeRobust (xs.flatMap GroupExit.robustFutexAddrs) k)

end Exits

def Lasts (P : Scheduler → Prop) : Prop := ∀ s, P s → ∀ tid, P (s.wakeTask tid)

namespace Lasts

variable {P : Scheduler → Prop} {s : Scheduler} {k : KernelState}

theorem wakeTasks (hP : Lasts P) (h : P s) (tids : List ℕ) : P (s.wakeTasks tids) := by
  induction tids generalizing s with
  | nil => exact h
  | cons tid tids ih => exact ih (hP s h tid)

theorem wakeEach (hP : Lasts P) (h : P k.scheduler) (count : ℕ) (addrs : List ℕ) :
    P (addrs.foldl (fun k addr => wakeWaiters count addr k) k).scheduler := by
  induction addrs generalizing k with
  | nil => exact h
  | cons addr addrs ih => exact ih (k := wakeWaiters count addr k) (hP.wakeTasks h _)

theorem tellParent (hP : Lasts P) (h : P k.scheduler) (parent : Option ℕ) :
    P (tellParent parent k).scheduler := by
  cases parent with
  | none => exact h
  | some tgid => exact hP.wakeTasks h _

theorem wakeVforkParent (hP : Lasts P) (h : P k.scheduler) (tid : Option ℕ) :
    P (wakeVforkParent tid k).scheduler := by
  cases tid with
  | none => exact h
  | some tid => exact hP _ h tid

end Lasts

theorem afterForcedExit_table (k : KernelState) (xs : List GroupExit) :
    (xs.foldl afterForcedExit k).table = k.table := by
  induction xs generalizing k with
  | nil => rfl
  | cons x xs ih =>
    rw [List.foldl_cons, ih]
    unfold afterForcedExit
    cases x.parentTgid <;> cases x.vforkParentTid <;> rfl

end ProcessCalls
