import Whuse.TaskScheduler
import Whuse.TrapHandler

/-! The system calls that may put their caller to sleep, as decisions over what they read: the
arguments, the answers of the file system and of user memory, the clock and the caller's wait
state. Lookups and user copies never fail with the code that means "wait". -/
namespace BlockingCalls

open MachineWord TrapHandler TaskScheduler

structure Refusal where
  errno : Errno
  notAgain : errno ≠ .eagain

namespace Refusal

def ofCode (n : ℕ) (hpos : 0 < n) (hsmall : n < 4096) (hne : n ≠ 11) : Refusal where
  errno := ⟨n, hpos, hsmall⟩
  notAgain := fun h => hne (congrArg Errno.val h)

def eintr : Refusal := ofCode 4 (by decide) (by decide) (by decide)
def ebadf : Refusal := ofCode 9 (by decide) (by decide) (by decide)
def eacces : Refusal := ofCode 13 (by decide) (by decide) (by decide)
def efault : Refusal := ofCode 14 Errno.efault.pos Errno.efault.small (by decide)
def einval : Refusal := ofCode 22 (by decide) (by decide) (by decide)
def enosys : Refusal := ofCode 38 (by decide) (by decide) (by decide)
def etimedout : Refusal := ofCode 110 (by decide) (by decide) (by decide)

end Refusal

/-- The fields of the calling process that decide about waiting. -/
structure WaitState where
  pendingSignals : UInt64
  signalMask : UInt64
  sleepDeadline : Option ℕ
  sleepRequested : ℕ
  sleepRemain : Option ℕ
  sleepAbsolute : Bool
  epollWaitDeadline : Option ℕ
  futexWait : Option (ℕ × ℕ)
  signalFramePending : Bool
  cancellationInProgress : Bool
  eintrCount : ℕ
  forceThreadExit : Bool
  sigsuspendSavedMask : Option UInt64

def WaitState.pending (w : WaitState) : UInt64 := w.pendingSignals &&& ~~~ w.signalMask

def WaitState.clearSleep (w : WaitState) : WaitState :=
  { w with sleepDeadline := none, sleepRequested := 0, sleepRemain := none, sleepAbsolute := false }

/-- How a call ends. `polls` marks the two places that give up the processor and return in
order to be called again. -/
structure Outcome where
  result : SyscallResult
  wait : WaitState
  sched : Scheduler
  polls : Bool

/-- A count of bytes, descriptors or tasks; none passes the largest `isize`. -/
def countWord (n : ℕ) : UInt64 := UInt64.ofNat (min n (2 ^ 63 - 1))

section Ends

variable (w : WaitState) (s : Scheduler)

def answer (n : ℕ) : Outcome := ⟨.ok (countWord n), w, s, false⟩

def refuse (e : Refusal) : Outcome := ⟨.error e.errno, w, s, false⟩

def again : Outcome := ⟨.error .eagain, w, s, false⟩

def block : Outcome := ⟨.error .eagain, w, s.blockCurrent, false⟩

def pollAgain : Outcome := ⟨.error .eagain, w, s, true⟩

def finish (copy : Except Refusal Unit) (n : ℕ) : Outcome :=
  match copy with
  | .error e => refuse w s e
  | .ok () => answer w s n

/-- An answer of the file system is passed on; it may be the code that means "wait". -/
def passOn (e : Errno) : Outcome := ⟨.error e, w, s, false⟩

end Ends

structure ReadRequest where
  handle : Except Refusal Unit
  isPipe : Bool
  isSocket : Bool
  answer : Except Errno (List UInt8)
  copyOut : Except Refusal Unit

/-- The body of `sys_read` and of `sys_recvfrom`. -/
def readOrBlock (r : ReadRequest) (w : WaitState) (s : Scheduler) : Outcome :=
  match r.handle with
  | .error e => refuse w s e
  | .ok () =>
    match r.answer with
    | .ok bytes => finish w s r.copyOut bytes.length
    | .error e =>
      if e = .eagain ∧ (r.isPipe || r.isSocket) then block w s else passOn w s e

def sysRead := readOrBlock
def sysRecvfrom := readOrBlock

structure IovStep where
  len : ℕ
  answer : Except Errno (List UInt8)
  copyOut : Except Refusal Unit

structure VectorRequest where
  iovecs : Except Refusal (List IovStep)
  handle : Except Refusal Unit
  isPipe : Bool
  isSocket : Bool
  epilogue : Except Refusal Unit

/-- The loop of `sys_readv`: a pipe that runs dry after some bytes ends it. -/
def readvLoop (isPipe : Bool) (w : WaitState) (s : Scheduler) : List IovStep → ℕ → Outcome
  | [], total => answer w s total
  | step :: rest, total =>
    match step.answer with
    | .error e =>
      if e = .eagain ∧ isPipe then
        if total = 0 then block w s else answer w s total
      else passOn w s e
    | .ok bytes =>
      match step.copyOut with
      | .error e => refuse w s e
      | .ok () =>
        if bytes.length < step.len then answer w s (total + bytes.length)
        else readvLoop isPipe w s rest (total + bytes.length)

def sysReadv (r : VectorRequest) (w : WaitState) (s : Scheduler) : Outcome :=
  match r.iovecs with
  | .error e => refuse w s e
  | .ok [] => answer w s 0
  | .ok (step :: rest) =>
    match r.handle with
    | .error e => refuse w s e
    | .ok () => readvLoop r.isPipe w s (step :: rest) 0

/-- The loop of `sys_recvmsg`: it blocks also after some bytes have been taken. -/
def recvmsgLoop (waits : Bool) (epilogue : Except Refusal Unit) (w : WaitState) (s : Scheduler) :
    List IovStep → ℕ → Outcome
  | [], total => finish w s epilogue total
  | step :: rest, total =>
    match step.answer with
    | .error e => if e = .eagain ∧ waits then block w s else passOn w s e
    | .ok bytes =>
      match step.copyOut with
      | .error e => refuse w s e
      | .ok () =>
        if bytes.length < step.len then finish w s epilogue (total + bytes.length)
        else recvmsgLoop waits epilogue w s rest (total + bytes.length)

def sysRecvmsg (r : VectorRequest) (w : WaitState) (s : Scheduler) : Outcome :=
  match r.iovecs with
  | .error e => refuse w s e
  | .ok iovecs =>
    match r.handle with
    | .error e => refuse w s e
    | .ok () => recvmsgLoop (r.isSocket || r.isPipe) r.epilogue w s iovecs 0

structure AcceptRequest where
  handle : Except Refusal Unit
  pathOnly : Bool
  nonblock : Bool
  answer : ℕ → Except Errno Unit
  finish : Except Refusal ℕ

def acceptSpins : ℕ := 256

/-- The loop of `sys_accept`, by the spins that are left: each yields the processor, and the
last blocks whichever task is current by then. -/
def acceptLoop (r : AcceptRequest) (w : WaitState) : ℕ → Scheduler → Outcome
  | spins, s =>
    match r.answer (acceptSpins - spins) with
    | .ok () =>
      match r.finish with
      | .error e => refuse w s e
      | .ok fd => answer w s fd
    | .error e =>
      if e = .eagain ∧ r.nonblock = false then
        match spins with
        | 0 => pollAgain w s.blockCurrent
        | spins + 1 => acceptLoop r w spins s.yieldNow
      else passOn w s e

def sysAccept (r : AcceptRequest) (w : WaitState) (s : Scheduler) : Outcome :=
  match r.handle with
  | .error e => refuse w s e
  | .ok () => if r.pathOnly then refuse w s .ebadf else acceptLoop r w acceptSpins s

structure PollRequest where
  scan : Except Refusal ℕ
  copyOut : Except Refusal Unit
  timeout : Option (Except Refusal ℕ)
  now : ℕ

/-- The deadline of a wait that has none yet: `none` inside is a timeout of zero. -/
def newDeadline (timeout : Option (Except Refusal ℕ)) (now : ℕ) : Except Refusal (Option ℕ) :=
  match timeout with
  | none => .ok (some usizeMax)
  | some (.error e) => .error e
  | some (.ok requested) => .ok (if requested = 0 then none else some (saturatingAdd now requested))

def waitUntil (w : WaitState) (s : Scheduler) (now deadline : ℕ) : Outcome :=
  if deadline ≠ usizeMax ∧ deadline ≤ now then answer { w with epollWaitDeadline := none } s 0
  else block { w with epollWaitDeadline := some deadline } s

/-- The body of `sys_ppoll` and of `sys_pselect6`. -/
def pollOrBlock (r : PollRequest) (w : WaitState) (s : Scheduler) : Outcome :=
  match r.scan with
  | .error e => refuse w s e
  | .ok (ready + 1) => finish { w with epollWaitDeadline := none } s r.copyOut (ready + 1)
  | .ok 0 =>
    if w.pending ≠ 0 then refuse { w with epollWaitDeadline := none } s .eintr
    else
      match w.epollWaitDeadline with
      | some deadline => waitUntil w s r.now deadline
      | none =>
        match newDeadline r.timeout r.now with
        | .error e => refuse w s e
        | .ok none => answer w s 0
        | .ok (some deadline) => waitUntil w s r.now deadline

def sysPpoll := pollOrBlock
def sysPselect6 := pollOrBlock

structure EpollRequest where
  timeoutMs : Except Refusal ℤ
  maxevents : ℤ
  watches : Except Refusal Unit
  ready : ℕ
  copyOut : Except Refusal Unit
  now : ℕ

/-- The body of `sys_epoll_pwait`; `sys_epoll_pwait2` reads its timeout from user memory. -/
def sysEpollPwait (r : EpollRequest) (w : WaitState) (s : Scheduler) : Outcome :=
  match r.timeoutMs with
  | .error e => refuse w s e
  | .ok timeoutMs =>
    if r.maxevents ≤ 0 ∨ timeoutMs < -1 then refuse w s .einval
    else
      match r.watches, r.copyOut with
      | .error e, _ => refuse w s e
      | .ok (), .error e => refuse w s e
      | .ok (), .ok () =>
        if r.ready ≠ 0 then answer { w with epollWaitDeadline := none } s r.ready
        else if timeoutMs = 0 then answer { w with epollWaitDeadline := none } s 0
        else
          let deadline := w.epollWaitDeadline.getD
            (if timeoutMs < 0 then usizeMax
              else saturatingAdd r.now (min (timeoutMs.toNat * 1000000) usizeMax))
          waitUntil w s r.now deadline

structure SleepRequest where
  requestNull : Bool
  requested : Except Refusal ℕ
  remain : Option ℕ
  copyRemain : Except Refusal Unit
  absolute : Bool
  itimerDeadline : Option ℕ
  /-- The caller's pending signals once an expired interval timer has delivered its own. -/
  pendingAfterTimer : UInt64
  now : ℕ

/-- The copy of the remaining time, where the sleeper asked for it; `clock_nanosleep` leaves it
out of a sleep until a fixed time. -/
def copyRemain (skipAbsolute : Bool) (r : SleepRequest) (w : WaitState) : Except Refusal Unit :=
  if w.sleepRemain.isSome ∧ (skipAbsolute && w.sleepAbsolute) = false then r.copyRemain else .ok ()

def sleepUntil (skipAbsolute : Bool) (r : SleepRequest) (w : WaitState) (s : Scheduler)
    (deadline : ℕ) : Outcome :=
  if w.pending ≠ 0 then
    match copyRemain skipAbsolute r w with
    | .error e => refuse w s e
    | .ok () => refuse w.clearSleep s .eintr
  else if r.now < deadline then block w s
  else
    match copyRemain skipAbsolute r w with
    | .error e => refuse w s e
    | .ok () => answer w.clearSleep s 0

def withItimer (r : SleepRequest) (w : WaitState) (deadline : ℕ) : WaitState × ℕ :=
  match r.itimerDeadline with
  | none => (w, deadline)
  | some itimer =>
    if itimer ≤ r.now then ({ w with pendingSignals := r.pendingAfterTimer }, deadline)
    else (w, min deadline itimer)

def startSleep (r : SleepRequest) (w : WaitState) (requested deadline : ℕ) (absolute : Bool) :
    WaitState :=
  { w with
    sleepDeadline := some deadline
    sleepRequested := requested
    sleepRemain := r.remain
    sleepAbsolute := absolute }

def sysNanosleep (r : SleepRequest) (w : WaitState) (s : Scheduler) : Outcome :=
  if r.requestNull then refuse w s .efault
  else
    match w.sleepDeadline with
    | some deadline =>
      let (w, deadline) := withItimer r w deadline
      sleepUntil false r w s deadline
    | none =>
      match r.requested with
      | .error e => refuse w s e
      | .ok 0 => finish w s (if r.remain.isSome then r.copyRemain else .ok ()) 0
      | .ok (n + 1) =>
        let deadline := saturatingAdd r.now (n + 1)
        let deadline := min deadline (r.itimerDeadline.getD deadline)
        let w := startSleep r w (n + 1) deadline false
        let (w, deadline) := withItimer r w deadline
        sleepUntil false r w s deadline

def sysClockNanosleep (r : SleepRequest) (w : WaitState) (s : Scheduler) : Outcome :=
  if r.requestNull then refuse w s .efault
  else
    match w.sleepDeadline with
    | some deadline => sleepUntil true r w s deadline
    | none =>
      match r.requested with
      | .error e => refuse w s e
      | .ok requested =>
        let deadline := if r.absolute then requested else saturatingAdd r.now requested
        sleepUntil true r (startSleep r w requested deadline r.absolute) s deadline

structure WakeOpRequest where
  old : Except Refusal ℤ
  opKnown : Bool
  write : Except Refusal Unit
  woke : List ℕ
  condition : Option Bool
  wokeSecond : List ℕ

inductive FutexOp where
  | wait (timeout : Option (Except Refusal ℕ)) (stillQueued : Bool)
  | wake (woke : List ℕ)
  | requeue (moved : List ℕ)
  | cmpRequeue (expected : ℤ) (moved : List ℕ)
  | wakeOp (op : WakeOpRequest)
  | unknown

structure FutexRequest where
  op : FutexOp
  uaddr : ℕ
  val : ℤ
  word : Except Refusal ℤ
  libcBench : Bool
  now : ℕ

def cancelMask : UInt64 := (1 : UInt64) <<< 32

/-- Whether a futex wait gives way to a signal: a pending one other than the cancellation
signal, one being delivered, or a cancellation under way. -/
def interrupted (w : WaitState) : Bool :=
  w.pending &&& ~~~ cancelMask != 0 || w.signalFramePending || w.cancellationInProgress

/-- After a thousand interruptions the thread is made to exit instead. -/
def interruptWait (w : WaitState) (s : Scheduler) : Outcome :=
  let w := { w with eintrCount := min (w.eintrCount + 1) (2 ^ 32 - 1) }
  if 1000 ≤ w.eintrCount then block { w with forceThreadExit := true } s else refuse w s .eintr

def enqueueWait (r : FutexRequest) (timeout : Option (Except Refusal ℕ)) (w : WaitState)
    (s : Scheduler) : Outcome :=
  match timeout with
  | none => block { w with futexWait := some (r.uaddr, usizeMax) } s
  | some (.error e) => refuse w s e
  | some (.ok requested) =>
    block { w with futexWait := some (r.uaddr, saturatingAdd r.now requested) } s

def freshWait (r : FutexRequest) (timeout : Option (Except Refusal ℕ)) (w : WaitState)
    (s : Scheduler) : Outcome :=
  if interrupted w then interruptWait w s
  else
    match r.word with
    | .error e => refuse w s e
    | .ok word => if word ≠ r.val then again w s else enqueueWait r timeout w s

def futexWait (r : FutexRequest) (timeout : Option (Except Refusal ℕ)) (stillQueued : Bool)
    (w : WaitState) (s : Scheduler) : Outcome :=
  match w.futexWait with
  | none => freshWait r timeout w s
  | some (waitAddr, deadline) =>
    if waitAddr = r.uaddr then
      if interrupted w then
        interruptWait (if w.cancellationInProgress then w else { w with futexWait := none }) s
      else if stillQueued = false then answer { w with futexWait := none } s 0
      else if deadline ≠ usizeMax ∧ deadline ≤ r.now then
        refuse { w with futexWait := none } s .etimedout
      else block w s
    else freshWait r timeout { w with futexWait := none } s

/-- The libc benchmark yields after it has woken a thread. -/
def wakeAndYield (libcBench : Bool) (woke : List ℕ) (s : Scheduler) : Scheduler :=
  let s := s.wakeTasks woke
  if libcBench ∧ woke ≠ [] ∧ s.ready ≠ [] then s.yieldNow else s

def futexWakeOp (r : FutexRequest) (op : WakeOpRequest) (w : WaitState) (s : Scheduler) : Outcome :=
  match op.old with
  | .error e => refuse w s e
  | .ok _ =>
    if op.opKnown = false then refuse w s .einval
    else
      match op.write with
      | .error e => refuse w s e
      | .ok () =>
        let s := wakeAndYield r.libcBench op.woke s
        match op.condition with
        | none => refuse w s .einval
        | some false => answer w s op.woke.length
        | some true =>
          answer w (wakeAndYield r.libcBench op.wokeSecond s)
            (op.woke.length + op.wokeSecond.length)

def sysFutex (r : FutexRequest) (w : WaitState) (s : Scheduler) : Outcome :=
  match r.op with
  | .wait timeout stillQueued => futexWait r timeout stillQueued w s
  | .wake woke => answer w (wakeAndYield r.libcBench woke s) woke.length
  | .requeue moved => answer w (s.wakeTasks moved) moved.length
  | .cmpRequeue expected moved =>
    match r.word with
    | .error e => refuse w s e
    | .ok word => if word ≠ expected then again w s else answer w (s.wakeTasks moved) moved.length
  | .wakeOp op => futexWakeOp r op w s
  | .unknown => refuse w s .enosys

structure SigsuspendRequest where
  mask : Except Refusal UInt64
  cooperativePolling : Bool

def lowestSignal (pending : UInt64) : ℕ :=
  ((List.range 64).find? fun i => pending.toNat.testBit i).getD 64 + 1

def clearPending (w : WaitState) (signum : ℕ) : WaitState :=
  { w with pendingSignals := w.pendingSignals &&& ~~~ (1 <<< UInt64.ofNat (signum - 1)) }

/-- A standard signal is consumed here, since no handler will run for it. -/
def endSuspend (w : WaitState) (s : Scheduler) : Outcome :=
  let signum := lowestSignal w.pending
  let w := if signum < 32 then clearPending w signum else w
  let w := match w.sigsuspendSavedMask with
    | none => w
    | some old => { w with signalMask := old, sigsuspendSavedMask := none }
  refuse w s .eintr

def suspend (r : SigsuspendRequest) (w : WaitState) (s : Scheduler) : Outcome :=
  if w.pending ≠ 0 then endSuspend w s
  else if r.cooperativePolling then pollAgain w s.yieldNow
  else block w s

def sysRtSigsuspend (r : SigsuspendRequest) (w : WaitState) (s : Scheduler) : Outcome :=
  match w.sigsuspendSavedMask with
  | some _ => suspend r w s
  | none =>
    match r.mask with
    | .error e => refuse w s e
    | .ok mask =>
      suspend r { w with sigsuspendSavedMask := some w.signalMask, signalMask := mask } s

structure SigtimedwaitRequest where
  sizeOk : Bool
  set : Except Refusal UInt64
  timeout : Option (Except Refusal ℕ)
  copyInfo : Except Refusal Unit
  now : ℕ

/-- The end of a wait for a signal that has not come. -/
def sigwaitUntil (w : WaitState) (s : Scheduler) (now deadline : ℕ) : Outcome :=
  if now < deadline then block w s
  else again { w with sleepDeadline := none } s

def sysRtSigtimedwait (r : SigtimedwaitRequest) (w : WaitState) (s : Scheduler) : Outcome :=
  if r.sizeOk = false then refuse w s .einval
  else
    match r.set with
    | .error e => refuse w s e
    | .ok set =>
      if w.pendingSignals &&& set ≠ 0 then
        let signal := lowestSignal (w.pendingSignals &&& set)
        finish { clearPending w signal with sleepDeadline := none } s r.copyInfo signal
      else if w.pending ≠ 0 then refuse { w with sleepDeadline := none } s .eintr
      else
        match w.sleepDeadline with
        | some deadline => sigwaitUntil w s r.now deadline
        | none =>
          match newDeadline r.timeout r.now with
          | .error e => refuse w s e
          | .ok none => again w s
          | .ok (some deadline) =>
            sigwaitUntil { w with sleepDeadline := some deadline, sleepAbsolute := false } s r.now
              deadline

structure WaitRequest where
  /-- The reaped child, or zero while children are alive. -/
  child : Except Refusal ℕ
  wnohang : Bool
  copyStatus : Except Refusal Unit

def sysWait (r : WaitRequest) (w : WaitState) (s : Scheduler) : Outcome :=
  match r.child with
  | .error e => refuse w s e
  | .ok 0 => if r.wnohang then answer w s 0 else block w s
  | .ok (child + 1) => finish w s r.copyStatus (child + 1)

inductive LockCmd where
  | getlk
  | setlk
  | setlkw
  deriving DecidableEq, Repr

structure LockRequest where
  cmd : LockCmd
  prepared : Except Refusal Unit
  unlock : Bool
  conflict : Bool
  changed : Bool
  copyOut : Except Refusal Unit

def sysFcntlLock (r : LockRequest) (w : WaitState) (s : Scheduler) : Outcome :=
  match r.prepared with
  | .error e => refuse w s e
  | .ok () =>
    if r.cmd = .getlk then finish w s r.copyOut 0
    else if r.unlock = false ∧ r.conflict then
      if r.cmd = .setlkw then block w s else refuse w s .eacces
    else answer w (if r.changed then s.wakeAllBlocked else s) 0

structure CloneRequest where
  /-- The new task, once the child exists and its frame is set up. -/
  child : Except Errno ℕ
  thread : Bool
  vfork : Bool
  processId : ℕ

def doClone (r : CloneRequest) (w : WaitState) (s : Scheduler) : Outcome :=
  match r.child with
  | .error e => passOn w s e
  | .ok child =>
    if r.thread then answer w (s.spawn child r.processId) child
    else
      let s := if r.vfork then s.blockCurrent else s
      answer w (s.spawn child child) child

def sysSchedYield (w : WaitState) (s : Scheduler) : Outcome := answer w s.yieldNow 0

inductive SchedOp where
  | wake (taskId : ℕ)
  | wakeAll
  | remove (taskId : ℕ)
  | exitGroup (processId : ℕ)

def SchedOp.apply (op : SchedOp) (s : Scheduler) : Scheduler :=
  match op with
  | .wake taskId => s.wakeTask taskId
  | .wakeAll => s.wakeAllBlocked
  | .remove taskId => s.removeTask taskId
  | .exitGroup processId => s.exitGroup processId

end BlockingCalls
