import Whuse.ProcessCalls

/-! The `futex` call. A wait answers "again" when it blocks and is made again when its task runs;
what happened in the meantime is read off the entry and the queues. -/
namespace FutexCalls

open MachineWord AddressSpace ByteFields TaskScheduler ProcessTable ProcessTable.Table ProcessCalls

def eintr : ℕ := 4
def enosys : ℕ := 38
def etimedout : ℕ := 110

def futexWaitOp : ℕ := 0
def futexWakeOp : ℕ := 1
def futexRequeueOp : ℕ := 3
def futexCmpRequeueOp : ℕ := 4
def futexWakeOpOp : ℕ := 5
def futexWaitBitset : ℕ := 9
def futexWakeBitset : ℕ := 10

def sigcancel : ℕ := 33
def cancelMask : UInt64 := 1 <<< UInt64.ofNat (sigcancel - 1)
def eintrLimit : ℕ := 1000
def noDeadline : ℕ := 2 ^ 64 - 1

/-- What the call finds outside the table: the heap, the clock, and whether the task is one of the
benchmark's, for which a wake gives up the processor. -/
structure FutexEnv where
  heap : Heap
  now : ℕ
  bench : Bool

section Futex

variable (hal : HalMemory) (env : FutexEnv)

def readI32 (addr : ℕ) (M : Machine) : KernelResult Int32 :=
  match readBytes hal env.heap addr 4 M with
  | .error _ => .error efault
  | .ok bytes => .ok (Int32.ofNat (ElfLoader.fromLeBytes bytes))

def readTimespecNs (addr : ℕ) (M : Machine) : KernelResult ℕ :=
  match readBytes hal env.heap addr 16 M with
  | .error _ => .error efault
  | .ok raw =>
    let sec := ElfLoader.fromLeBytes (raw.take 8)
    let nsec := ElfLoader.fromLeBytes (raw.drop 8)
    if 2 ^ 63 ≤ sec ∨ 1000000000 ≤ nsec then .error einval
    else .ok (saturatingAdd (min (sec * 1000000000) usizeMax) nsec)

/-- A signal other than the one for cancellation is due, or a handler or a cancellation is under
way. -/
def interrupted (p : Process) : Bool :=
  p.pendingSignals &&& ~~~p.signalMask &&& ~~~cancelMask != 0 || p.signalFramePending ||
    p.cancellationInProgress

def countEintr (p : Process) : Process :=
  { p with eintrCount := min (p.eintrCount + 1) (2 ^ 32 - 1) }

def answerInterrupted (count : ℕ) (k : KernelState) : KernelResult ℕ × KernelState :=
  if eintrLimit ≤ count then
    (.error eagain, ⟨k.table.modify k.table.currentTid fun p => { p with forceThreadExit := true },
        k.scheduler.blockCurrent⟩)
  else (.error eintr, k)

def resumeWait (uaddr deadline : ℕ) (p : Process) (k : KernelState) :
    KernelResult ℕ × KernelState :=
  if interrupted p then
    let t := k.table.modify k.table.currentTid countEintr
    let t := if p.cancellationInProgress then t else t.clearFutexWaitState p.tid
    answerInterrupted (countEintr p).eintrCount { k with table := t }
  else if !k.table.isFutexWaiting uaddr p.tid then
    (.ok 0, { k with table := k.table.clearFutexWaitState p.tid })
  else if deadline ≠ noDeadline ∧ deadline ≤ env.now then
    (.error etimedout, { k with table := k.table.clearFutexWaitState p.tid })
  else (.error eagain, { k with scheduler := k.scheduler.blockCurrent })

def sleepAt (uaddr deadline : ℕ) (p : Process) : Process :=
  { p with futexWaitAddr := some uaddr, futexWaitDeadline := some deadline }

def startWait (uaddr : ℕ) (val : Int32) (timeout : ℕ) (k : KernelState) :
    KernelResult ℕ × KernelState :=
  match k.table.current with
  | .error e => (.error e, k)
  | .ok p =>
    if interrupted p then
      answerInterrupted (countEintr p).eintrCount
        { k with table := k.table.modify k.table.currentTid countEintr }
    else
      match readI32 hal env uaddr (k.table.machine p) with
      | .error e => (.error e, k)
      | .ok word =>
        if word ≠ val then (.error eagain, k)
        else
          let deadline := if timeout = 0 then .ok noDeadline
            else (readTimespecNs hal env timeout (k.table.machine p)).map (saturatingAdd env.now)
          match deadline with
          | .error e => (.error e, k)
          | .ok deadline =>
            let t := k.table.enqueueFutexWaiter uaddr p.tid
            (.error eagain, ⟨t.modify t.currentTid (sleepAt uaddr deadline),
              k.scheduler.blockCurrent⟩)

def futexWait (uaddr : ℕ) (val : Int32) (timeout : ℕ) (k : KernelState) :
    KernelResult ℕ × KernelState :=
  match k.table.current with
  | .error e => (.error e, k)
  | .ok p =>
    match p.futexWaitAddr, p.futexWaitDeadline with
    | some waitAddr, some deadline =>
      if waitAddr = uaddr then resumeWait env uaddr deadline p k
      else startWait hal env uaddr val timeout
        { k with table := k.table.clearFutexWaitState p.tid }
    | _, _ => startWait hal env uaddr val timeout k

def wakeCount (val : Int32) : ℕ := val.toInt.toNat

def benchYield (woke : List ℕ) (k : KernelState) : KernelState :=
  if env.bench && !woke.isEmpty && !k.scheduler.ready.isEmpty then
    { k with scheduler := k.scheduler.yieldNow }
  else k

def futexWake (uaddr count : ℕ) (k : KernelState) : KernelResult ℕ × KernelState :=
  let woke := (k.table.wakeFutex uaddr count).1
  (.ok woke.length, benchYield env woke (wakeWaiters count uaddr k))

/-- Only the woken waiters are counted and made ready. -/
def futexRequeue (source target wakeCount requeueCount : ℕ) (k : KernelState) :
    KernelResult ℕ × KernelState :=
  let (woke, t) := k.table.requeueFutex source target wakeCount requeueCount
  (.ok woke.length, ⟨t, k.scheduler.wakeTasks woke⟩)

def wakeOpValue (op : ℕ) (old arg : Int32) : Option Int32 :=
  match op with
  | 0 => some arg
  | 1 => some (old + arg)
  | 2 => some (old ||| arg)
  | 3 => some (old &&& ~~~arg)
  | 4 => some (old ^^^ arg)
  | _ => none

def wakeOpCondition (cmp : ℕ) (old arg : Int32) : Option Bool :=
  match cmp with
  | 0 => some (old == arg)
  | 1 => some (old != arg)
  | 2 => some (old < arg)
  | 3 => some (old ≤ arg)
  | 4 => some (arg < old)
  | 5 => some (arg ≤ old)
  | _ => none

/-- The comparison is decoded only after the word has been written and the first waiters woken. -/
def futexWakeOpCall (uaddr uaddr2 count count2 encoded : ℕ) (k : KernelState) :
    KernelResult ℕ × KernelState :=
  let encoded := encoded % 2 ^ 32
  let oparg := Int32.ofNat (encoded / 2 ^ 12 % 2 ^ 12)
  let cmparg := Int32.ofNat (encoded % 2 ^ 12)
  match k.table.current with
  | .error e => (.error e, k)
  | .ok p =>
    match readI32 hal env uaddr2 (k.table.machine p) with
    | .error e => (.error e, k)
    | .ok old =>
      match wakeOpValue (encoded / 2 ^ 28 % 2 ^ 4) old oparg with
      | none => (.error einval, k)
      | some value =>
        match writeBytes hal uaddr2 (leBytes 4 value.toUInt32.toNat) (k.table.machine p) with
        | (.error _, M) => (.error efault, { k with table := k.table.putMachine p M })
        | (.ok (), M) =>
          let k := { k with table := k.table.putMachine p M }
          let woke := (k.table.wakeFutex uaddr count).1
          let k := benchYield env woke (wakeWaiters count uaddr k)
          match wakeOpCondition (encoded / 2 ^ 24 % 2 ^ 4) old cmparg with
          | none => (.error einval, k)
          | some false => (.ok woke.length, k)
          | some true =>
            let woke2 := (k.table.wakeFutex uaddr2 count2).1
            (.ok (woke.length + woke2.length), benchYield env woke2 (wakeWaiters count2 uaddr2 k))

def sysFutex (args : Fin 6 → ℕ) (k : KernelState) : KernelResult ℕ × KernelState :=
  let op := args 1 &&& 0x7f
  let val := Int32.ofNat (args 2)
  if op = futexWaitOp ∨ op = futexWaitBitset then futexWait hal env (args 0) val (args 3) k
  else if op = futexWakeOp ∨ op = futexWakeBitset then futexWake env (args 0) (wakeCount val) k
  else if op = futexRequeueOp then futexRequeue (args 0) (args 4) (wakeCount val) (args 3) k
  else if op = futexCmpRequeueOp then
    match k.table.current with
    | .error e => (.error e, k)
    | .ok p =>
      match readI32 hal env (args 0) (k.table.machine p) with
      | .error e => (.error e, k)
      | .ok word =>
        if word ≠ Int32.ofNat (args 5) then (.error eagain, k)
        else futexRequeue (args 0) (args 4) (wakeCount val) (args 3) k
  else if op = futexWakeOpOp then
    futexWakeOpCall hal env (args 0) (args 4) (wakeCount val) (args 5) (args 3) k
  else (.error enosys, k)

end Futex

end FutexCalls
