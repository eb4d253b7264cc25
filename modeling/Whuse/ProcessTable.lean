import Mathlib.Data.Int.Basic
import Whuse.PipeObjects
import Whuse.SignalFrame

/-! The process table of the `proc` crate. An entry is one thread; threads of one process share
`tgid` and, through a counted reference, the address space. The address spaces and the memory
behind them stand beside the entries that point to them. -/
namespace ProcessTable

open Std (ExtTreeMap)
open MachineWord AddressSpace ByteFields ElfLoader TrapHandler SignalFrame PipeObjects Function

def enoent : ℕ := 2
def esrch : ℕ := 3
def ebadf : ℕ := 9
def echild : ℕ := 10
def eagain : ℕ := 11

inductive ProcessState where
  | ready
  | running
  | blocked
  | exited
  deriving DecidableEq, Repr

structure Process where
  pid : ℕ
  tid : ℕ
  tgid : ℕ
  pgid : ℕ
  parent : Option ℕ
  state : ProcessState
  exitCode : Option Int32
  /-- The reference to the address space: entries with the same number share it. -/
  addressSpace : ℕ
  fds : ExtTreeMap ℤ FileHandle
  trapFrame : TrapFrame
  tidAddress : Option ℕ
  clearChildTid : Option ℕ
  robustList : Option (ℕ × ℕ)
  signalMask : UInt64
  pendingSignals : UInt64
  signalActions : ℕ → SigAction
  futexWaitAddr : Option ℕ
  futexWaitDeadline : Option ℕ
  isThread : Bool
  signalFramePending : Bool
  cancelSignalSeen : Bool
  cancellationInProgress : Bool
  eintrCount : ℕ
  forceThreadExit : Bool
  vforkParentTid : Option ℕ

structure Table where
  nextPid : ℕ
  currentTid : ℕ
  processes : ExtTreeMap ℕ Process
  futexWaiters : ExtTreeMap ℕ (List ℕ)
  spaces : ℕ → AddressSpaceInner
  nextSpace : ℕ
  mem : Memory

namespace Table

def machine (t : Table) (p : Process) : Machine := ⟨t.spaces p.addressSpace, t.mem⟩

def putMachine (p : Process) (M : Machine) (t : Table) : Table :=
  { t with spaces := update t.spaces p.addressSpace M.space, mem := M.mem }

def current (t : Table) : KernelResult Process :=
  match t.processes[t.currentTid]? with
  | some p => .ok p
  | none => .error ebadf

def values (t : Table) : List Process := t.processes.toList.map Prod.snd

def find (keep : Process → Bool) (t : Table) : Option Process := t.values.find? keep

def groupTids (tgid : ℕ) (t : Table) : List ℕ :=
  (t.processes.toList.filter fun entry => entry.2.tgid == tgid).map Prod.fst

def liveTidsInTgid (tgid : ℕ) (t : Table) : List ℕ :=
  (t.values.filter fun p => p.tgid == tgid && p.state != .exited).map Process.tid

def taskCount (t : Table) : ℕ := (t.values.filter fun p => p.state != .exited).length

def isShared (p : Process) (t : Table) : Bool :=
  1 < (t.values.filter fun q => q.addressSpace == p.addressSpace).length

def modify (tid : ℕ) (f : Process → Process) (t : Table) : Table :=
  { t with processes := t.processes.modify tid f }

def modifyGroup (tgid : ℕ) (f : Process → Process) (t : Table) : Table :=
  { t with processes := t.processes.map fun _ p => if p.tgid == tgid then f p else p }

section Modified

variable {f : Process → Process} {q : Process} {g j tid : ℕ} {t : Table}

theorem modify_get : (t.modify tid f).processes[j]? =
    t.processes[j]?.map fun p => if j = tid then f p else p := by
  simp only [modify, ExtTreeMap.getElem?_modify]
  by_cases hj : tid = j
  · simp [hj]
  · have hne : ¬ j = tid := Ne.symm hj
    simp [hj, hne]

theorem modifyGroup_get : (t.modifyGroup g f).processes[j]? =
    t.processes[j]?.map fun p => if p.tgid == g then f p else p :=
  ExtTreeMap.getElem?_map

theorem modify_eq_some : (t.modify tid f).processes[j]? = some q ↔
    ∃ p, t.processes[j]? = some p ∧ (if j = tid then f p else p) = q := by
  rw [modify_get, Option.map_eq_some_iff]

theorem modifyGroup_eq_some : (t.modifyGroup g f).processes[j]? = some q ↔
    ∃ p, t.processes[j]? = some p ∧ (if p.tgid == g then f p else p) = q := by
  rw [modifyGroup_get, Option.map_eq_some_iff]

variable {γ : Type} (k : Option Process → γ) (h : ∀ p, k (some (f p)) = k (some p))

include h

theorem modify_same (tid j : ℕ) (t : Table) :
    k (t.modify tid f).processes[j]? = k t.processes[j]? := by
  rw [modify_get]
  rcases t.processes[j]? with _ | p
  · rfl
  split
  · exact h p
  · rfl

theorem modifyGroup_same (g j : ℕ) (t : Table) :
    k (t.modifyGroup g f).processes[j]? = k t.processes[j]? := by
  rw [modifyGroup_get]
  rcases t.processes[j]? with _ | p
  · rfl
  rw [Option.map_some]
  split
  · exact h p
  · rfl

end Modified

def setCurrent (tid : ℕ) (t : Table) : KernelResult Unit × Table :=
  if t.processes.contains tid then (.ok (), { t with currentTid := tid }) else (.error ebadf, t)

def setQueue (addr : ℕ) (waiters : List ℕ) (t : Table) : Table :=
  { t with futexWaiters :=
      if waiters.isEmpty then t.futexWaiters.erase addr else t.futexWaiters.insert addr waiters }

def enqueueFutexWaiter (addr tid : ℕ) (t : Table) : Table :=
  let waiters := t.futexWaiters.getD addr []
  { t with futexWaiters :=
      t.futexWaiters.insert addr (if waiters.contains tid then waiters else waiters ++ [tid]) }

def wakeFutex (addr count : ℕ) (t : Table) : List ℕ × Table :=
  match t.futexWaiters[addr]? with
  | none => ([], t)
  | some waiters => (waiters.take count, t.setQueue addr (waiters.drop count))

def isFutexWaiting (addr tid : ℕ) (t : Table) : Bool :=
  (t.futexWaiters.getD addr []).contains tid

def removeFutexWaiterAt (addr tid : ℕ) (t : Table) : Table :=
  match t.futexWaiters[addr]? with
  | none => t
  | some waiters => t.setQueue addr (waiters.filter (· != tid))

def removeFutexWaiter (tid : ℕ) (t : Table) : Table :=
  { t with futexWaiters := t.futexWaiters.filterMap fun _ waiters =>
      let waiters := waiters.filter (· != tid)
      if waiters.isEmpty then none else some waiters }

/-- The moved waiters keep the address they recorded when they went to sleep. -/
def requeueFutex (source target wakeCount requeueCount : ℕ) (t : Table) : List ℕ × Table :=
  let (woke, t) := t.wakeFutex source wakeCount
  let (moved, t) := t.wakeFutex source requeueCount
  if moved.isEmpty then (woke, t)
  else
    (woke, { t with
      futexWaiters := t.futexWaiters.insert target (t.futexWaiters.getD target [] ++ moved) })

def clearFutexWaitState (tid : ℕ) (t : Table) : Table :=
  match t.processes[tid]? with
  | none => t
  | some p =>
    let t := t.modify tid fun p =>
      { p with futexWaitAddr := none, futexWaitDeadline := none, eintrCount := 0 }
    match p.futexWaitAddr with
    | none => t
    | some addr => t.removeFutexWaiterAt addr tid

def wakeAllFutexWaitersInTgid (tgid : ℕ) (t : Table) : List ℕ × Table :=
  let tids := (t.values.filter fun p =>
    p.tgid == tgid && p.futexWaitAddr.isSome && p.state != .exited).map Process.tid
  (tids, tids.foldl (fun t tid => t.clearFutexWaitState tid) t)

def resolveTargetTid (pid : ℕ) (t : Table) : KernelResult ℕ :=
  let named := t.processes[pid]?.filter fun p => p.state != .exited
  match named with
  | some _ => .ok pid
  | none =>
    match t.find fun p => p.tgid == pid && !p.isThread && p.state != .exited with
    | some p => .ok p.tid
    | none => .error esrch

def raise (signal : ℕ) (p : Process) : Process :=
  { p with pendingSignals := p.pendingSignals ||| 1 <<< UInt64.ofNat (signal - 1) }

def sendSignalTid (pid signal : ℕ) (t : Table) : KernelResult ℕ × Table :=
  if 64 < signal then (.error einval, t)
  else
    match t.resolveTargetTid pid with
    | .error e => (.error e, t)
    | .ok tid =>
      if signal = 0 then (.ok tid, t)
      else
        match t.processes[tid]? with
        | none => (.error enoent, t)
        | some p =>
          if p.state = .exited then (.error esrch, t) else (.ok tid, t.modify tid (raise signal))

theorem sendSignalTid_cases (pid signal : ℕ) (t : Table) : (t.sendSignalTid pid signal).2 = t ∨
      ∃ tid, (t.sendSignalTid pid signal).2 = t.modify tid (raise signal) := by
  unfold sendSignalTid
  split
  · exact .inl rfl
  split
  · exact .inl rfl
  split
  · exact .inl rfl
  split
  · exact .inl rfl
  split
  · exact .inl rfl
  · exact .inr ⟨_, rfl⟩

def sigchld : ℕ := 17

/-- The signal to the parent of an exit; a missing parent is ignored. -/
def notifyParent (parent : Option ℕ) (t : Table) : Table :=
  match parent with
  | none => t
  | some parent => (t.sendSignalTid parent sigchld).2

def setVforkParentTid (childTid parentTid : ℕ) (t : Table) : KernelResult Unit × Table :=
  if t.processes.contains childTid then
    (.ok (), t.modify childTid fun p => { p with vforkParentTid := some parentTid })
  else (.error enoent, t)

def releaseVforkParentForTgid (tgid : ℕ) (t : Table) : Option ℕ × Table :=
  ((t.values.filter fun p => p.tgid == tgid).findSome? Process.vforkParentTid,
    t.modifyGroup tgid fun p => { p with vforkParentTid := none })

end Table

section Robust

variable (hal : HalMemory) (heap : Heap)

def robustListMaxScan : ℕ := 2048
def futexWaitersBit : ℕ := 0x80000000
def futexOwnerDied : ℕ := 0x40000000
def futexTidMask : ℕ := 0x3fffffff

def readUserUsize (addr : ℕ) (M : Machine) : Option ℕ :=
  (readBytes hal heap addr 8 M).toOption.map fromLeBytes

def readUserIsize (addr : ℕ) (M : Machine) : Option ℤ :=
  (readUserUsize hal heap addr M).map fun n => if n < 2 ^ 63 then (n : ℤ) else n - 2 ^ 64

def readUserU32 (addr : ℕ) (M : Machine) : Option ℕ :=
  (readBytes hal heap addr 4 M).toOption.map fromLeBytes

def robustFutexAddr (node : ℕ) (offset : ℤ) : Option ℕ :=
  if 0 ≤ offset then checkedAdd node offset.toNat
  else if offset.natAbs ≤ node then some (node - offset.natAbs) else none

def maybeMarkOwnerDied (addr tid : ℕ) (M : Machine) : Machine :=
  match readUserU32 hal heap addr M with
  | none => M
  | some word =>
    if word &&& futexTidMask = tid &&& futexTidMask then
      (writeBytes hal addr (leBytes 4 ((word &&& futexWaitersBit) ||| futexOwnerDied)) M).2
    else M

def pushUniqueAddr (addrs : List ℕ) (addr : ℕ) : List ℕ :=
  if addrs.contains addr then addrs else addrs ++ [addr]

/-- One node: its futex word is marked if the exiting thread owns it, and listed in any case. -/
def visitRobust (tid : ℕ) (offset : ℤ) (node : ℕ) (found : List ℕ × Machine) : List ℕ × Machine :=
  match robustFutexAddr node offset with
  | none => found
  | some addr => (pushUniqueAddr found.1 addr, maybeMarkOwnerDied hal heap addr tid found.2)

/-- The scan ends at the head, at a node seen before and at one that cannot be read. -/
def scanRobust (head tid : ℕ) (offset : ℤ) :
    ℕ → ℕ → List ℕ → List ℕ × Machine → List ℕ × Machine
  | 0, _, _, found => found
  | fuel + 1, node, seen, found =>
    if node = 0 ∨ node = head ∨ node ∈ seen then found
    else
      let found := visitRobust hal heap tid offset node found
      match readUserUsize hal heap node found.2 with
      | none => found
      | some next => scanRobust head tid offset fuel next (node :: seen) found

def collectRobustFutexAddrsForExit (p : Process) (M : Machine) : List ℕ × Machine :=
  match p.robustList with
  | none => ([], M)
  | some (head, len) =>
    if len < 24 then ([], M)
    else
      match readUserUsize hal heap head M, readUserIsize hal heap (wrappingAdd head 8) M with
      | some next, some offset =>
        let pending := (readUserUsize hal heap (wrappingAdd head 16) M).getD 0
        let found := scanRobust hal heap head p.tid offset robustListMaxScan next [] ([], M)
        if pending = 0 ∨ pending = head then found
        else visitRobust hal heap p.tid offset pending found
      | _, _ => ([], M)

/-- What an exiting thread does to the memory of its process. -/
def leaveMemory (p : Process) (M : Machine) : List ℕ × Machine :=
  let (addrs, M) := collectRobustFutexAddrsForExit hal heap p M
  match p.clearChildTid with
  | none => (addrs, M)
  | some addr => (addrs, (writeBytes hal addr (leBytes 4 0) M).2)

end Robust

namespace Table

section Creation

variable (hal : HalMemory) (heap : Heap)

def userStackMapping (M : Machine) : Machine :=
  (mapFixedBytes hal heap (userStackTop - userStackSize) [] userStackSize 0b11 M).2

def newProcess (pid : ℕ) (parent : Option ℕ) (entry : UInt64) (space : ℕ) : Process where
  pid := pid
  tid := pid
  tgid := pid
  pgid := parent.getD pid
  parent := parent
  state := .ready
  exitCode := none
  addressSpace := space
  fds := ∅
  trapFrame := TrapFrame.newUser entry (UInt64.ofNat (userStackTop - 16))
  tidAddress := none
  clearChildTid := none
  robustList := none
  signalMask := 0
  pendingSignals := 0
  signalActions := fun _ => ⟨0, 0, 0⟩
  futexWaitAddr := none
  futexWaitDeadline := none
  isThread := false
  signalFramePending := false
  cancelSignalSeen := false
  cancellationInProgress := false
  eintrCount := 0
  forceThreadExit := false
  vforkParentTid := none

def addSpace (inner : AddressSpaceInner) (t : Table) : ℕ × Table :=
  (t.nextSpace, { t with
    spaces := update t.spaces t.nextSpace inner, nextSpace := t.nextSpace + 1 })

def spawn (parent : Option ℕ) (entry : UInt64) (t : Table) : ℕ × Table :=
  let pid := t.nextPid
  let (space, t) := addSpace (newUser hal) { t with nextPid := pid + 1 }
  let p := newProcess pid parent entry space
  let t := t.putMachine p (userStackMapping hal heap (t.machine p))
  (pid, { t with
    processes := t.processes.insert pid p
    currentTid := if t.currentTid = 0 then pid else t.currentTid })

/-- The child's frame resumes after the call and answers zero. -/
def childFrame (frame : TrapFrame) : TrapFrame :=
  { frame.setRetval 0 with sepc := frame.sepc + 4 }

/-- The fields that a new thread of any kind does not take over. -/
def freshThread (p : Process) (tid : ℕ) : Process :=
  { p with
    pid := tid
    tid := tid
    state := .ready
    exitCode := none
    pendingSignals := 0
    futexWaitAddr := none
    futexWaitDeadline := none
    isThread := false
    signalFramePending := false
    cancelSignalSeen := false
    cancellationInProgress := false
    eintrCount := 0
    forceThreadExit := false
    vforkParentTid := none }

def forkChild (p : Process) (pid space : ℕ) : Process :=
  { freshThread p pid with
    tgid := pid
    parent := some p.tgid
    addressSpace := space
    trapFrame := childFrame p.trapFrame }

def estimatedPrivateCloneBytes (inner : AddressSpaceInner) : ℕ :=
  inner.mappings.toList.foldl (fun acc entry =>
    let area := entry.2.area
    let mapLen := alignUp (wrappingAdd (pageOffset area.start) (max area.len 1)) pageSize
    saturatingAdd acc (saturatingAdd mapLen pageSize)) 0

def forkCloneBudgetBytes : ℕ := 192 * 1024 * 1024

/-- The id is taken before the budget is checked. -/
def forkProcessFromCurrent (t : Table) : KernelResult ℕ × Table :=
  let pid := t.nextPid
  let t := { t with nextPid := pid + 1 }
  match t.current with
  | .error e => (.error e, t)
  | .ok p =>
    let cloneBytes := estimatedPrivateCloneBytes (t.spaces p.addressSpace)
    if 0 < cloneBytes ∧ forkCloneBudgetBytes < min (t.taskCount * cloneBytes) usizeMax then
      (.error eagain, t)
    else
      let (space, t) := addSpace (clonePrivate hal heap (t.spaces p.addressSpace)) t
      (.ok pid, { t with processes := t.processes.insert pid (forkChild p pid space) })

def forkProcessFromCurrentShared (t : Table) : KernelResult ℕ × Table :=
  let pid := t.nextPid
  let t := { t with nextPid := pid + 1 }
  match t.current with
  | .error e => (.error e, t)
  | .ok p =>
    (.ok pid, { t with processes := t.processes.insert pid (forkChild p pid p.addressSpace) })

/-- The stack of a thread whose creator gave none; `none` is a search that does not end. -/
def threadStack (fuel stack : ℕ) (M : Machine) : Option (ℕ × Machine) :=
  if stack ≠ 0 then some (stack, M)
  else
    match mapAnonymous hal heap fuel userStackSize 0b11 M with
    | none => none
    | some (.ok base, M) => some (wrappingAdd base (userStackSize - 16), M)
    | some (.error _, M) => some (userStackTop - 16, M)

def threadFrame (frame : TrapFrame) (sp : ℕ) (tls : Option ℕ) : TrapFrame :=
  let frame := childFrame frame
  let regs := update frame.regs 2 (UInt64.ofNat sp)
  { frame with regs := match tls with
      | none => regs
      | some tls => update regs 4 (UInt64.ofNat tls) }

/-- A thread stays in the group and keeps the parent of its creator. -/
def threadChild (p : Process) (tid sp : ℕ) (tls : Option ℕ) : Process :=
  { freshThread p tid with
    trapFrame := threadFrame p.trapFrame sp tls
    tidAddress := none
    clearChildTid := none
    robustList := none }

def cloneThreadFromCurrent (fuel stack : ℕ) (tls : Option ℕ) (t : Table) :
    Option (KernelResult ℕ × Table) :=
  let tid := t.nextPid
  let t := { t with nextPid := tid + 1 }
  match t.current with
  | .error e => some (.error e, t)
  | .ok p =>
    (threadStack hal heap fuel stack (t.machine p)).map fun (sp, M) =>
      let t := t.putMachine p M
      (.ok tid, { t with processes := t.processes.insert tid (threadChild p tid sp tls) })

end Creation

def cloexecBit : ℕ := 31

def resetProcess (entry : UInt64) (stackPointer : Option UInt64) (p : Process) : Process :=
  { p with
    trapFrame := TrapFrame.newUser entry (stackPointer.getD (UInt64.ofNat (userStackTop - 16)))
    state := .ready
    exitCode := none
    pendingSignals := 0
    signalMask := 0
    signalActions := fun _ => ⟨0, 0, 0⟩
    clearChildTid := none
    tidAddress := none
    robustList := none
    futexWaitAddr := none
    futexWaitDeadline := none
    signalFramePending := false
    cancelSignalSeen := false
    cancellationInProgress := false }

def dropEntries (tids : List ℕ) (t : Table) : Table :=
  tids.foldl (fun t tid =>
    removeFutexWaiter tid { t with processes := t.processes.erase tid }) t

def unshareSpace (hal : HalMemory) (heap : Heap) (p : Process) (t : Table) : Process × Table :=
  if t.isShared p then
    let (space, t) := addSpace (clonePrivate hal heap (t.spaces p.addressSpace)) t
    ({ p with addressSpace := space }, t)
  else (p, t)

/-- The heap answers for the copy of the space and for the new stack. -/
def execveCurrentImage (hal : HalMemory) (cloneHeap stackHeap : Heap) (entry : UInt64)
    (stackPointer : Option UInt64) (t : Table) : KernelResult Unit × Table :=
  match t.current with
  | .error e => (.error e, t)
  | .ok p =>
    let t := t.dropEntries ((t.groupTids p.tgid).filter (· != p.tid))
    let (p, t) := t.unshareSpace hal cloneHeap p
    let kept := p.fds.filter fun _ handle => !handle.flags.testBit cloexecBit
    let t := t.putMachine p (userStackMapping hal stackHeap (clear (t.machine p)))
    let p := { resetProcess entry stackPointer { p with fds := kept } with
      isThread := false, pid := p.tgid }
    (.ok (), { t with processes := t.processes.insert t.currentTid p })

structure ThreadExit where
  tid : ℕ
  tgid : ℕ
  clearChildTid : Option ℕ
  tidAddress : Option ℕ
  robustFutexAddrs : List ℕ
  groupExited : Bool
  parentTgid : Option ℕ
  vforkParentTid : Option ℕ

structure GroupExit where
  tgid : ℕ
  tids : List ℕ
  clearChildTids : List ℕ
  robustFutexAddrs : List ℕ
  parentTgid : Option ℕ
  vforkParentTid : Option ℕ

def endProcess (code : Int32) (p : Process) : Process :=
  { p with state := .exited, exitCode := some code }

def clearSpace (p : Process) (t : Table) : Table := t.putMachine p (clear (t.machine p))

section Exits

variable (hal : HalMemory) (heap : Heap) (code : Int32)

/-- The entries of a group whose last thread has exited. -/
def endGroup (tgid : ℕ) (t : Table) : Table :=
  let members := t.values.filter fun p => p.tgid == tgid
  members.foldl (fun t p => t.clearSpace p) (t.modifyGroup tgid (endProcess code))

def groupAlive (tgid except : ℕ) (t : Table) : Bool :=
  t.values.any fun p => p.tgid == tgid && p.tid != except && p.state != .exited

def leaveThread (p : Process) (t : Table) : List ℕ × Table :=
  let (addrs, M) := leaveMemory hal heap p (t.machine p)
  let t := (t.putMachine p M).removeFutexWaiter p.tid
  (addrs, t.modify t.currentTid fun p => { endProcess code p with fds := ∅ })

def exitCurrentThread (t : Table) : KernelResult ThreadExit × Table :=
  match t.current with
  | .error e => (.error e, t)
  | .ok p =>
    let (addrs, t) := t.leaveThread hal heap code p
    let alive := t.groupAlive p.tgid p.tid
    let t := if alive then t else (t.endGroup code p.tgid).notifyParent p.parent
    (.ok ⟨p.tid, p.tgid, p.clearChildTid, p.tidAddress, addrs, !alive, p.parent, p.vforkParentTid⟩, t)

/-- One turn of the loop over a group: the entry, if it is still there, leaves memory and
ends. -/
def exitEntry (found : List ℕ × Table) (tid : ℕ) : List ℕ × Table :=
  match found.2.processes[tid]? with
  | none => (found.1, found.2.removeFutexWaiter tid)
  | some p =>
    let (addrs, M) := leaveMemory hal heap p (found.2.machine p)
    let t := ((found.2.putMachine p M).clearSpace p).modify tid fun p =>
      { endProcess code p with fds := ∅ }
    (addrs.foldl pushUniqueAddr found.1, t.removeFutexWaiter tid)

def exitEntries (tids : List ℕ) (t : Table) : List ℕ × Table :=
  tids.foldl (exitEntry hal heap code) ([], t)

def exitCurrentProcessGroup (t : Table) : KernelResult ThreadExit × Table :=
  match t.current with
  | .error e => (.error e, t)
  | .ok p =>
    let (addrs, t) := t.exitEntries hal heap code (t.groupTids p.tgid)
    (.ok ⟨p.tid, p.tgid, p.clearChildTid, p.tidAddress, addrs, true, p.parent, p.vforkParentTid⟩,
      t.notifyParent p.parent)

/-- The parent is that of the first entry of the group. -/
def forceExitGroup (tgid : ℕ) (t : Table) : Option GroupExit × Table :=
  let tids := t.groupTids tgid
  match tids with
  | [] => (none, t)
  | first :: _ =>
    let leader := t.processes[first]?
    let parent := leader.bind Process.parent
    let childTids := tids.filterMap fun tid => t.processes[tid]?.bind Process.clearChildTid
    let (addrs, t) := t.exitEntries hal heap code tids
    (some ⟨tgid, tids, childTids, addrs, parent, leader.bind Process.vforkParentTid⟩,
      t.notifyParent parent)

end Exits

inductive WaitSelector where
  | any
  | pid (pid : ℕ)
  | pgid (pgid : ℕ)
  deriving DecidableEq, Repr

def selectorMatches (selector : WaitSelector) (p : Process) : Bool :=
  match selector with
  | .any => true
  | .pid pid => p.tgid == pid
  | .pgid pgid => p.pgid == pgid

def dumpsCore (signum : ℕ) : Bool := signum ∈ [3, 4, 6, 7, 8, 11, 24, 25, 31]

def waitStatusFromSignal (signum : ℕ) : Int32 :=
  (Int32.ofNat signum &&& 0x7f) ||| if dumpsCore signum then 0x80 else 0

/-- The negation wraps and is widened with its sign before it is read as unsigned. -/
def waitStatus (exitCode : Int32) : Int32 :=
  if exitCode < 0 then waitStatusFromSignal (-exitCode).toInt64.toUInt64.toNat
  else exitCode <<< 8

/-- The live children of a reaped group go to the first process without a parent. -/
def adoptChildren (tgid init : ℕ) (t : Table) : Table :=
  { t with processes := t.processes.map fun _ p =>
      if !p.isThread && p.state != .exited && p.parent == some tgid && p.tgid != tgid then
        { p with parent := some init }
      else p }

def initTgid (t : Table) : ℕ :=
  match t.find fun p => !p.isThread && p.parent.isNone with
  | some p => p.tgid
  | none => 1

def reapThreadGroup (tgid : ℕ) (t : Table) : Table :=
  let t := t.adoptChildren tgid t.initTgid
  t.dropEntries (t.groupTids tgid)

/-- The exit code is that of the entry filed under the group's own number. -/
def waitChild (parentTgid : ℕ) (selector : WaitSelector) (t : Table) :
    KernelResult (ℕ × Int32) × Table :=
  let candidate (p : Process) : Bool :=
    !p.isThread && p.parent == some parentTgid && selectorMatches selector p
  match t.find fun p => candidate p && p.state == .exited with
  | none => if (t.find candidate).isSome then (.ok (0, 0), t) else (.error echild, t)
  | some p =>
    let exitCode := (t.processes[p.tgid]?.bind Process.exitCode).getD 0
    (.ok (p.tgid, waitStatus exitCode), t.reapThreadGroup p.tgid)

end Table

end ProcessTable
