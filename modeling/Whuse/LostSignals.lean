import Whuse.BlockingCalls
import Whuse.CallViews
import Whuse.FutexRuns
import Whuse.GroupAttributes
import Whuse.RobustLists

/-! Pending signals. A signal leaves the pending set of a thread when it is dispatched, when it
ends a wait for signals, and when the image of the thread is replaced. -/
namespace LostSignals

open Function List Option
open MachineWord AddressSpace ByteFields ElfLoader TrapHandler CallRuns TrapReturn SignalFrame
open TaskScheduler (Scheduler)
open ProcessTable ProcessTable.Table ProcessCalls BlockingCalls
open TableEffects TableFiling CallViews

variable {t : Table} {heap : Heap}

def pending (s : ℕ) (p : Process) : Bool := p.pendingSignals.toBitVec.getLsbD (s - 1)

section Dispatch

variable (arch : Arch)

def signalFrameSize : ℕ :=
  match arch with
  | .riscv64 => frameSize
  | .loongarch64 => 832

def signalFrameSp (sp : UInt64) : UInt64 := (sp - UInt64.ofNat (signalFrameSize arch)) &&& ~~~ 0xf

def plainFrameWrites (signum : ℕ) (task : Task) : List (Write UInt8) :=
  (siginfoOff, leBytes 4 signum) :: maskWrite task :: pcWrite task ::
    regWrites mctxOff task.frame.regs (List.finRange 32).tail

def signalFrameBytes (signum : ℕ) (task : Task) : List UInt8 :=
  match arch with
  | .riscv64 => frameBytes signum task
  | .loongarch64 =>
    putAll (List.replicate (signalFrameSize .loongarch64) 0) (plainFrameWrites signum task)

def entryFrame (signum : ℕ) (action : SigAction) (frame : TrapFrame) : TrapFrame :=
  let base := signalFrameSp arch (frame.regs 2)
  let restorer := if action.restorer > 0x1000 ∧ action.restorer < 0x8000000000000000 then
    action.restorer else UInt64.ofNat signalTrampolineBase
  { frame with
    regs := update (update (update (update (update
      frame.regs 2 base) 10 (UInt64.ofNat signum)) 11 (base + UInt64.ofNat siginfoOff))
      12 (base + UInt64.ofNat ucontextOff)) 1 restorer
    sepc := action.handler }

/-- On loongarch64 only the signals from 32 on are dispatched. -/
def dispatchable (unmasked : UInt64) : UInt64 :=
  match arch with
  | .riscv64 => unmasked
  | .loongarch64 => unmasked &&& ~~~ ((1 : UInt64) <<< 31 - 1)

def writeSignalFrame (hal : HalMemory) (signum : ℕ) (task : Task) : KernelResult Unit × Machine :=
  writeBytes hal (signalFrameSp arch (task.frame.regs 2)).toNat (signalFrameBytes arch signum task)
    task.machine

def deliver (hal : HalMemory) (signum : ℕ) (t : SignalTask) : Dispatch × SignalTask :=
  let action := t.signalActions signum
  if action.handler = 0 then
    if signum ≠ 17 ∧ signum ≠ 23 ∧ signum ≠ 28 then (.terminate signum, t) else (.ignored, t)
  else if action.handler = 1 then (.ignored, t)
  else
    match writeSignalFrame arch hal signum t.task with
    | (.error _, M) => (.failed, { t with task := { t.task with machine := M } })
    | (.ok (), M) => (.entered, { t with task :=
        { enterHandler signum action M t.task with frame := entryFrame arch signum action t.task.frame } })

def dispatchSignals (hal : HalMemory) (t : SignalTask) : Dispatch × SignalTask :=
  let ready := dispatchable arch (unmaskedSignals t)
  if ready = 0 then (.idle, t)
  else
    let signum := trailingZeros ready + 1
    deliver arch hal signum (consumeSignal signum t)

end Dispatch

def signalTask (t : Table) (p : Process) : SignalTask where
  task := ⟨p.trapFrame, t.machine p, p.signalMask, p.signalFramePending, p.cancelSignalSeen,
    p.cancellationInProgress⟩
  pendingSignals := p.pendingSignals
  signalActions := p.signalActions

def withTask (s : SignalTask) (p : Process) : Process :=
  { p with
    trapFrame := s.task.frame
    signalMask := s.task.signalMask
    pendingSignals := s.pendingSignals
    signalFramePending := s.task.signalFramePending
    cancelSignalSeen := s.task.cancelSignalSeen
    cancellationInProgress := s.task.cancellationInProgress }

def putSignalTask (p : Process) (s : SignalTask) (t : Table) : Table :=
  (t.putMachine p s.task.machine).modify t.currentTid (withTask s)

/-- The default action of a signal on loongarch64: of the parent one thread is woken, and the
addresses on the robust list are not. -/
def plainSignalExit (hal : HalMemory) (heap : Heap) (signum : ℕ) (k : KernelState) : KernelState :=
  match k.table.exitCurrentThread hal heap (-Int32.ofNat signum) with
  | (.error _, t) => { k with table := t }
  | (.ok x, t) =>
    let s := dropTasks x k.scheduler
    let told : KernelState := match x.parentTgid with
      | none => ⟨t, s⟩
      | some parent => ⟨(t.sendSignalTid parent sigchld).2, s.wakeTask parent⟩
    wakeEveryone (wakeAllWaiters (joinAddrs x) told)

def defaultAction (hal : HalMemory) (heap : Heap) (arch : Arch) (signum : ℕ) (k : KernelState) :
    KernelState :=
  match arch with
  | .riscv64 => signalExit hal heap signum k
  | .loongarch64 => plainSignalExit hal heap signum k

def dispatchCurrent (hal : HalMemory) (heap : Heap) (arch : Arch) (k : KernelState) : KernelState :=
  match k.table.current with
  | .error _ => k
  | .ok p =>
    match dispatchSignals arch hal (signalTask k.table p) with
    | (.terminate signum, s) =>
      defaultAction hal heap arch signum { k with table := putSignalTask p s k.table }
    | (_, s) => { k with table := putSignalTask p s k.table }

structure Waiting where
  sigsuspendSavedMask : Option UInt64
  sleepDeadline : Option ℕ
  sleepAbsolute : Bool

def Waiting.fresh : Waiting := ⟨none, none, false⟩

structure State where
  kernel : KernelState
  waiting : ℕ → Waiting

def waitState (p : Process) (w : Waiting) : WaitState where
  pendingSignals := p.pendingSignals
  signalMask := p.signalMask
  sleepDeadline := w.sleepDeadline
  sleepRequested := 0
  sleepRemain := none
  sleepAbsolute := w.sleepAbsolute
  epollWaitDeadline := none
  futexWait := none
  signalFramePending := p.signalFramePending
  cancellationInProgress := p.cancellationInProgress
  eintrCount := p.eintrCount
  forceThreadExit := p.forceThreadExit
  sigsuspendSavedMask := w.sigsuspendSavedMask

def finishWait (p : Process) (M : Machine) (o : Outcome) (k : State) : State where
  kernel := {
    table := (k.kernel.table.putMachine p M).modify k.kernel.table.currentTid fun p =>
      { p with pendingSignals := o.wait.pendingSignals, signalMask := o.wait.signalMask }
    scheduler := o.sched }
  waiting := update k.waiting k.kernel.table.currentTid
    ⟨o.wait.sigsuspendSavedMask, o.wait.sleepDeadline, o.wait.sleepAbsolute⟩

section Waits

variable (hal : HalMemory) (heap : Heap)

def readMask (addr size : ℕ) (M : Machine) : Except Refusal UInt64 :=
  match readBytes hal heap addr size M with
  | .error _ => .error .efault
  | .ok bytes => .ok (UInt64.ofNat (fromLeBytes (bytes.take 8)))

def readTimespecNs (addr : ℕ) (M : Machine) : Except Refusal ℕ :=
  match readBytes hal heap addr 16 M with
  | .error _ => .error .efault
  | .ok raw =>
    let sec := RobustLists.signed (fromLeBytes (raw.take 8))
    let nsec := RobustLists.signed (fromLeBytes ((raw.drop 8).take 8))
    if sec < 0 ∨ nsec < 0 ∨ 1000000000 ≤ nsec then .error .einval
    else .ok (saturatingAdd (min (sec.toNat * 1000000000) usizeMax) nsec.toNat)

def siginfo (signal : ℕ) : List UInt8 := UInt8.ofNat signal :: List.replicate 127 0

def sigsuspend (setPtr size : ℕ) (cooperativePolling : Bool) (k : State) : SyscallResult × State :=
  let t := k.kernel.table
  match t.current with
  | .error _ => (.error Refusal.ebadf.errno, k)
  | .ok p =>
    let M := t.machine p
    let mask := if setPtr = 0 then .ok 0 else readMask hal heap setPtr (max size 8) M
    let o := sysRtSigsuspend ⟨mask, cooperativePolling⟩ (waitState p (k.waiting t.currentTid))
      k.kernel.scheduler
    (o.result, finishWait p M o k)

def foundSignal (set : Except Refusal UInt64) (sigsetsize : ℕ) (p : Process) : Option ℕ :=
  match set with
  | .error _ => none
  | .ok set =>
    if sigsetsize = 8 ∧ p.pendingSignals &&& set ≠ 0 then
      some (lowestSignal (p.pendingSignals &&& set))
    else none

def copyInfo (infoPtr : ℕ) (found : Option ℕ) (M : Machine) : KernelResult Unit × Machine :=
  match found with
  | none => (.ok (), M)
  | some signal => if infoPtr = 0 then (.ok (), M) else writeBytes hal infoPtr (siginfo signal) M

def sigtimedwait (setPtr infoPtr timeoutPtr sigsetsize now : ℕ) (k : State) :
    SyscallResult × State :=
  let t := k.kernel.table
  match t.current with
  | .error _ => (.error Refusal.ebadf.errno, k)
  | .ok p =>
    let M := t.machine p
    let set := readMask hal heap setPtr 8 M
    let copied := copyInfo hal infoPtr (foundSignal set sigsetsize p) M
    let request : SigtimedwaitRequest := {
      sizeOk := sigsetsize == 8
      set := set
      timeout := if timeoutPtr = 0 then none else some (readTimespecNs hal heap timeoutPtr M)
      copyInfo := match copied.1 with
        | .error _ => .error .efault
        | .ok () => .ok ()
      now := now }
    let o := sysRtSigtimedwait request (waitState p (k.waiting t.currentTid)) k.kernel.scheduler
    (o.result, finishWait p copied.2 o k)

end Waits

/-- The entries of the second table are entries of the first that have lost no signal, or new
ones. -/
structure Carries (t u : Table) : Prop where
  nextPid : t.nextPid ≤ u.nextPid
  entries : ∀ {j : ℕ} {q : Process}, u.processes[j]? = some q →
    (∃ p, t.processes[j]? = some p ∧ ∀ s, pending s p = true → pending s q = true) ∨
      t.nextPid ≤ j ∧ j < u.nextPid

/-- A dispatch, a wait for signals, an operation of the process table, a signal that is sent, or
something else that clears no pending signal. -/
inductive Event where
  | dispatch (heap : Heap)
  | sigsuspend (heap : Heap) (setPtr size : ℕ) (cooperativePolling : Bool)
  | sigtimedwait (heap : Heap) (setPtr infoPtr timeoutPtr sigsetsize now : ℕ)
  | table (op : WaitReaping.Op)
  | send (pid signal : ℕ)
  | other (f : Table → Table) (h : ∀ t, Carries t (f t)) (s : Scheduler) (waiting : ℕ → Waiting)

/-- A new thread and a new image start without a wait. -/
def freshWaits (t : Table) (waiting : ℕ → Waiting) : WaitReaping.Op → ℕ → Waiting
  | .spawn .. | .fork _ | .forkShared | .cloneThread .. =>
    update waiting t.nextPid .fresh
  | .execve .. => update waiting t.currentTid .fresh
  | _ => waiting

/-- The answer of a wait and the state after an event; `none` is a thread stack that is never
found. -/
def Event.step (hal : HalMemory) (arch : Arch) (k : State) :
    Event → Option (Option SyscallResult × State)
  | dispatch heap => some (none, { k with kernel := dispatchCurrent hal heap arch k.kernel })
  | sigsuspend heap setPtr size polling =>
    let (r, l) := LostSignals.sigsuspend hal heap setPtr size polling k
    some (some r, l)
  | sigtimedwait heap setPtr infoPtr timeoutPtr sigsetsize now =>
    let (r, l) := LostSignals.sigtimedwait hal heap setPtr infoPtr timeoutPtr sigsetsize now k
    some (some r, l)
  | table op => (op.run hal k.kernel.table).map fun t =>
      (none, ⟨{ k.kernel with table := t }, freshWaits k.kernel.table k.waiting op⟩)
  | send pid signal => some (none, { k with kernel :=
      { k.kernel with table := (k.kernel.table.sendSignalTid pid signal).2 } })
  | other f _ s waiting => some (none, ⟨⟨f k.kernel.table, s⟩, waiting⟩)

/-- Something holds of every step of a run. -/
def Throughout (hal : HalMemory) (arch : Arch)
    (P : Event → Option SyscallResult → State → State → Prop) : State → List Event → Prop
  | _, [] => True
  | k, e :: es =>
    match e.step hal arch k with
    | none => True
    | some (r, l) => P e r k l ∧ Throughout hal arch P l es

def boot (spaces : ℕ → AddressSpaceInner) (mem : Memory) (s : Scheduler) : State :=
  ⟨⟨⟨1, 0, ∅, ∅, spaces, 0, mem⟩, s⟩, fun _ => .fresh⟩

def Caught (s : ℕ) (p : Process) : Prop :=
  (p.signalActions s).handler ≠ 0 ∧ (p.signalActions s).handler ≠ 1

def Ignored (s : ℕ) (p : Process) : Prop :=
  (p.signalActions s).handler = 1 ∨ (p.signalActions s).handler = 0 ∧ (s = 17 ∨ s = 23 ∨ s = 28)

structure Starts (hal : HalMemory) (arch : Arch) (s : ℕ) (t u : Table) (p q : Process) : Prop where
  caught : Caught s p
  written : writeBytes hal (signalFrameSp arch (p.trapFrame.regs 2)).toNat
    (signalFrameBytes arch s (signalTask t p).task) (t.machine p) = (.ok (), u.machine q)
  entered : q.trapFrame = entryFrame arch s (p.signalActions s) p.trapFrame

inductive Settled (hal : HalMemory) (arch : Arch) (s : ℕ) (t u : Table) (p q : Process) :
    Event → Option SyscallResult → Prop where
  | started {heap r} : Starts hal arch s t u p q → Settled hal arch s t u p q (.dispatch heap) r
  | ended {heap r} : (p.signalActions s).handler = 0 → q.state = .exited →
      Settled hal arch s t u p q (.dispatch heap) r
  | ignored {e r} : Ignored s p → Settled hal arch s t u p q e r
  | returned {heap setPtr infoPtr timeoutPtr sigsetsize now} :
      Settled hal arch s t u p q (.sigtimedwait heap setPtr infoPtr timeoutPtr sigsetsize now)
        (some (.ok (countWord s)))

/-- Every signal that leaves the pending set of a living thread is settled. -/
def Accounted (hal : HalMemory) (arch : Arch) (e : Event) (r : Option SyscallResult)
    (k l : State) : Prop :=
  ∀ (j : ℕ) (p q : Process) (s : ℕ), k.kernel.table.processes[j]? = some p → p.state ≠ .exited →
    l.kernel.table.processes[j]? = some q → 1 ≤ s → s ≤ 64 → pending s p = true →
      pending s q = false → Settled hal arch s k.kernel.table l.kernel.table p q e r

def CanWrite (hal : HalMemory) (addr len : ℕ) (M : Machine) : Prop :=
  (writeBytes hal addr (List.replicate len 0) M).1 = .ok ()

/-- The mask in force during `rt_sigsuspend`. -/
def suspendMask (hal : HalMemory) (heap : Heap) (setPtr size : ℕ) (p : Process) (w : Waiting)
    (M : Machine) : Except Refusal UInt64 :=
  match w.sigsuspendSavedMask with
  | some _ => .ok p.signalMask
  | none => if setPtr = 0 then .ok 0 else readMask hal heap setPtr (max size 8) M

/-- The frame of a caught signal can be written; `rt_sigsuspend` meets no standard signal first
that is not ignored; `rt_sigtimedwait` can write its answer; a new image finds no signal pending
that is not ignored. -/
def Event.SafeFor (hal : HalMemory) (arch : Arch) (k : State) (p : Process) : Event → Prop
  | dispatch _ =>
    let ready := dispatchable arch (p.pendingSignals &&& ~~~ p.signalMask)
    ready ≠ 0 → Caught (lowestSignal ready) p →
      CanWrite hal (signalFrameSp arch (p.trapFrame.regs 2)).toNat (signalFrameSize arch)
        (k.kernel.table.machine p)
  | sigsuspend heap setPtr size _ =>
    ∀ mask, suspendMask hal heap setPtr size p (k.waiting k.kernel.table.currentTid)
        (k.kernel.table.machine p) = .ok mask →
      p.pendingSignals &&& ~~~ mask ≠ 0 → lowestSignal (p.pendingSignals &&& ~~~ mask) < 32 →
        Ignored (lowestSignal (p.pendingSignals &&& ~~~ mask)) p
  | sigtimedwait heap setPtr infoPtr _ sigsetsize _ =>
    ∀ set, readMask hal heap setPtr 8 (k.kernel.table.machine p) = .ok set → sigsetsize = 8 →
      p.pendingSignals &&& set ≠ 0 → ¬ Ignored (lowestSignal (p.pendingSignals &&& set)) p →
        infoPtr ≠ 0 → CanWrite hal infoPtr 128 (k.kernel.table.machine p)
  | table (.execve ..) => ∀ s, 1 ≤ s → s ≤ 64 → pending s p = true → Ignored s p
  | _ => True

/-- The condition concerns the running thread. -/
def Event.Safe (hal : HalMemory) (arch : Arch) (e : Event) (k : State) : Prop :=
  ∀ p, k.kernel.table.current = .ok p → p.state ≠ .exited → e.SafeFor hal arch k p

theorem bit_of_signal {n : ℕ} (hn : n < 64) :
    ((1 : UInt64) <<< UInt64.ofNat n).toBitVec = BitVec.twoPow 64 n := by
  simp [Nat.mod_eq_of_lt hn, BitVec.twoPow]

variable {p q : Process} {u : Table} {x y : UInt64} {s i addr : ℕ}

theorem signal_bit (hs : 1 ≤ s) (hs' : s ≤ 64) (i : ℕ) :
    ((1 : UInt64) <<< UInt64.ofNat (s - 1)).toBitVec.getLsbD i = decide (i = s - 1) := by
  have hlt : s - 1 < 64 := by omega
  rw [bit_of_signal hlt, BitVec.getLsbD_twoPow]
  simp only [hlt]
  exact decide_eq_decide.mpr eq_comm

theorem pending_cleared (hs : 1 ≤ s) (hs' : s ≤ 64) (hi : 1 ≤ i) (hi' : i ≤ 64)
    (hq : q.pendingSignals = p.pendingSignals &&& ~~~ (1 <<< UInt64.ofNat (s - 1))) :
    pending i q = (pending i p && decide (i ≠ s)) := by
  have hne : (i - 1 = s - 1) = (i = s) := by
    apply propext
    omega
  have hlt : i - 1 < 64 := by omega
  simp only [pending, hq, UInt64.toBitVec_and, UInt64.toBitVec_not, BitVec.getLsbD_and,
    BitVec.getLsbD_not, signal_bit hs hs', hne, hlt, decide_true, Bool.true_and, decide_not]

theorem lowestSignal_spec (h : x ≠ 0) : 1 ≤ lowestSignal x ∧ lowestSignal x ≤ 64 ∧
      x.toBitVec.getLsbD (lowestSignal x - 1) = true := by
  unfold lowestSignal
  cases hfind : (List.range 64).find? fun i => x.toNat.testBit i with
  | some i =>
    have hbit := find?_some hfind
    have hlt := mem_range.mp (mem_of_find?_eq_some hfind)
    simp only [getD_some]
    exact ⟨by omega, by omega, hbit⟩
  | none =>
    refine absurd ?_ h
    have hnone := find?_eq_none.mp hfind
    apply UInt64.toBitVec_inj.mp
    apply BitVec.eq_of_getLsbD_eq
    intro i hi
    have hclear := hnone i (mem_range.mpr hi)
    rw [Bool.not_eq_true] at hclear
    exact hclear.trans (by simp)

theorem pending_of_and (hx : p.pendingSignals = x) (h : (x &&& y).toBitVec.getLsbD (s - 1) = true) :
    pending s p = true := by
  rw [UInt64.toBitVec_and, BitVec.getLsbD_and, Bool.and_eq_true] at h
  rw [pending, hx]
  exact h.1

theorem canWrite_iff {hal : HalMemory} {bytes : List UInt8} {M : Machine} :
    CanWrite hal addr bytes.length M ↔ (writeBytes hal addr bytes M).1 = .ok () := by
  have hlen : (List.replicate bytes.length (0 : UInt8)).length = bytes.length := length_replicate
  constructor
  · intro h
    simp only [CanWrite, writeBytes, hlen] at h ⊢
    exact RobustLists.writeLoop_anew hal _ h M.mem hlen.symm
  · intro h
    simp only [CanWrite, writeBytes, hlen] at h ⊢
    exact RobustLists.writeLoop_anew hal _ h M.mem hlen

theorem signalFrameBytes_length (arch : Arch) (signum : ℕ) (task : Task) :
    (signalFrameBytes arch signum task).length = signalFrameSize arch := by
  cases arch with
  | riscv64 => exact frameBytes_length signum task
  | loongarch64 =>
    have hfit : ∀ v ∈ plainFrameWrites signum task,
        v.Fits (List.replicate (signalFrameSize .loongarch64) (0 : UInt8)).length := by
      intro v hv
      rw [length_replicate]
      simp only [plainFrameWrites, mem_cons] at hv
      rcases hv with rfl | rfl | rfl | hv
      · simp only [Write.Fits, leBytes_length]; decide
      · simp only [maskWrite, Write.Fits, leBytes_length]; decide
      · simp only [pcWrite, Write.Fits, leBytes_length]; decide
      obtain ⟨-, hle, hlen⟩ := mem_regWrites hv
      rw [Write.Fits]
      have hlayout := layout
      simp only [signalFrameSize]
      omega
    rw [signalFrameBytes, putAll_length hfit, length_replicate]

structure Numbered (t : Table) : Prop where
  below : ∀ {j : ℕ} {p : Process}, t.processes[j]? = some p → j < t.nextPid

theorem Numbered.keeps {β : Type} {view : Process → β} (h : Numbered t)
    (hk : Keeps view t u) : Numbered u := by
  refine ⟨fun {j q} hq => ?_⟩
  have hheld : held view t j = some (view q) := by
    rw [← hk.held]
    exact held_of_entry hq
  obtain ⟨p, hp, -⟩ := map_eq_some_iff.mp hheld
  rw [hk.nextPid]
  exact h.below hp

theorem Numbered.carries (h : Numbered t) (hc : Carries t u) : Numbered u := by
  refine ⟨fun {j q} hq => ?_⟩
  rcases hc.entries hq with ⟨p, hp, -⟩ | ⟨-, hlt⟩
  · exact lt_of_lt_of_le (h.below hp) hc.nextPid
  · exact hlt

namespace Carries

variable {t u v : Table}

theorem refl (t : Table) : Carries t t := ⟨le_rfl, fun hq => .inl ⟨_, hq, fun _ => id⟩⟩

theorem trans (h : Carries t u) (k : Carries u v) : Carries t v := by
  refine ⟨h.nextPid.trans k.nextPid, fun {j q} hq => ?_⟩
  rcases k.entries hq with ⟨r, hr, hkept⟩ | ⟨hle, hlt⟩
  · rcases h.entries hr with ⟨p, hp, hkept'⟩ | ⟨hle, hlt⟩
    · exact .inl ⟨p, hp, fun s hs => hkept s (hkept' s hs)⟩
    · exact .inr ⟨hle, lt_of_lt_of_le hlt k.nextPid⟩
  · exact .inr ⟨h.nextPid.trans hle, hlt⟩

theorem of_keeps (h : Keeps Process.pendingSignals t u) : Carries t u := by
  refine ⟨h.nextPid.ge, fun {j q} hq => .inl ?_⟩
  have hheld : held Process.pendingSignals t j = some q.pendingSignals := by
    rw [← h.held]
    exact held_of_entry hq
  obtain ⟨p, hp, hsame⟩ := map_eq_some_iff.mp hheld
  refine ⟨p, hp, fun s hs => ?_⟩
  rw [pending, ← hsame]
  exact hs

theorem modify {tid : ℕ} {f : Process → Process}
    (hf : ∀ p s, pending s p = true → pending s (f p) = true) : Carries t (t.modify tid f) := by
  refine ⟨le_rfl, fun {j q} hq => .inl ?_⟩
  obtain ⟨p, hp, rfl⟩ := modify_eq_some.mp hq
  refine ⟨p, hp, fun s hs => ?_⟩
  split
  · exact hf p s hs
  · exact hs

theorem sendSignalTid (pid signal : ℕ) : Carries t (t.sendSignalTid pid signal).2 := by
  rcases t.sendSignalTid_cases pid signal with h | ⟨tid, h⟩ <;> rw [h]
  · exact .refl t
  · refine .modify fun p s h => ?_
    simp only [pending, raise, UInt64.toBitVec_or, BitVec.getLsbD_or] at h ⊢
    rw [h, Bool.true_or]

theorem notifyParent (parent : Option ℕ) : Carries t (t.notifyParent parent) := by
  cases parent with
  | none => exact .refl t
  | some parent => exact sendSignalTid parent sigchld

theorem created {c : Process} (hu : u.processes = t.processes.insert t.nextPid c)
    (hn : u.nextPid = t.nextPid + 1) : Carries t u := by
  refine ⟨by omega, fun {j q} hq => ?_⟩
  rw [hu] at hq
  rcases GroupAttributes.entry_insert hq with ⟨rfl, -⟩ | ⟨-, hold⟩
  · exact .inr ⟨le_rfl, by omega⟩
  · exact .inl ⟨q, hold, fun _ => id⟩

theorem creates {made : Process → Process → Prop} (h : GroupAttributes.Creates t u made) :
    Carries t u := by
  rcases h.entries with hu | ⟨p, c, -, -, hu⟩
  · exact ⟨by rw [h.nextPid]; omega, fun hq => .inl ⟨_, hu ▸ hq, fun _ => id⟩⟩
  · exact created hu h.nextPid

theorem waitChild (parent : ℕ) (selector : WaitSelector) :
    Carries t (t.waitChild parent selector).2 := by
  obtain ⟨hn, hu | ⟨c, init, hu⟩⟩ := GroupAttributes.wait_entries parent selector t
  · exact ⟨hn.ge, fun hq => .inl ⟨_, hu ▸ hq, fun _ => id⟩⟩
  refine ⟨hn.ge, fun {j q} hq => .inl ?_⟩
  obtain ⟨p, hp, rfl⟩ := hu hq
  refine ⟨p, hp, fun s hs => ?_⟩
  split
  · exact hs
  · exact hs

section Exits

variable (hal : HalMemory) (heap : Heap) (code : Int32)

theorem lasting_pending : Lasting Process.pendingSignals := ⟨fun _ _ => rfl, fun _ _ => rfl⟩

theorem exitCurrentThread : Carries t (t.exitCurrentThread hal heap code).2 := by
  unfold Table.exitCurrentThread
  split
  · exact .refl t
  next p hp =>
  have hleave := of_keeps (keeps_leaveThread hal heap code lasting_pending p t)
  simp only
  split
  · exact hleave
  · exact (hleave.trans (of_keeps (keeps_endGroup code lasting_pending _ _))).trans
      (notifyParent _)

theorem exitCurrentProcessGroup : Carries t (t.exitCurrentProcessGroup hal heap code).2 := by
  unfold Table.exitCurrentProcessGroup
  split
  · exact .refl t
  · exact (of_keeps (keeps_exitEntries hal heap code lasting_pending _ t)).trans (notifyParent _)

theorem forceExitGroup (g : ℕ) : Carries t (t.forceExitGroup hal heap code g).2 := by
  unfold Table.forceExitGroup
  simp only
  split
  · exact .refl t
  · exact (of_keeps (keeps_exitEntries hal heap code lasting_pending _ t)).trans (notifyParent _)

end Exits

end Carries

section Steps

variable {hal : HalMemory} {arch : Arch} {e : Event} {r : Option SyscallResult} {k l : State}
  {o : Outcome}

theorem accounted_of_carries (h : Numbered k.kernel.table)
    (hc : Carries k.kernel.table l.kernel.table) : Accounted hal arch e r k l := by
  intro j p q s hp _ hq _ _ hset hclear
  rcases hc.entries hq with ⟨p', hp', hkept⟩ | ⟨hle, -⟩
  · obtain rfl := some.inj (hp.symm.trans hp')
    rw [hkept s hset] at hclear
    cases hclear
  · exact absurd (h.below hp) (not_lt.mpr hle)

/-- No other thread loses a signal. -/
def Spares (j : ℕ) (t u : Table) : Prop :=
  ∀ {i : ℕ} {p q : Process}, i ≠ j → t.processes[i]? = some p → u.processes[i]? = some q →
    ∀ s, pending s p = true → pending s q = true

theorem Spares.carries {j : ℕ} {v : Table} (h : Spares j t u) (hn : Numbered t)
    (hnext : u.nextPid = t.nextPid) (hc : Carries u v) : Spares j t v := by
  intro i p q hi hp hq s hs
  rcases hc.entries hq with ⟨q', hq', hkept⟩ | ⟨hle, -⟩
  · exact hkept s (h hi hp hq' s hs)
  · have := hn.below hp
    omega

theorem modify_current (h : t.current = .ok p) (M : Machine) (f : Process → Process) :
    ((t.putMachine p M).modify t.currentTid f).processes[t.currentTid]? = some (f p) ∧
      Spares t.currentTid t ((t.putMachine p M).modify t.currentTid f) := by
  constructor
  · exact modify_eq_some.mpr ⟨p, current_ok h, if_pos rfl⟩
  · intro i p' q hi hp' hq s hs
    obtain ⟨r, hr, rfl⟩ := modify_eq_some.mp hq
    obtain rfl := some.inj (hp'.symm.trans hr)
    rw [if_neg hi]
    exact hs

section

variable (hp : k.kernel.table.current = .ok p)
  (hq : l.kernel.table.processes[k.kernel.table.currentTid]? = some q)
  (hrest : Spares k.kernel.table.currentTid k.kernel.table l.kernel.table)
include hp hq hrest

theorem accounted_running :
    Accounted hal arch e r k l ↔ (p.state ≠ .exited → ∀ s, 1 ≤ s → s ≤ 64 → pending s p = true →
      pending s q = false → Settled hal arch s k.kernel.table l.kernel.table p q e r) := by
  constructor
  · intro h hlive s hs hs' hset hclear
    exact h _ p q s (current_ok hp) hlive hq hs hs' hset hclear
  · intro h j p' q' s hp' hlive hq' hs hs' hset hclear
    by_cases hj : j = k.kernel.table.currentTid
    · subst hj
      obtain rfl := some.inj ((current_ok hp).symm.trans hp')
      obtain rfl := some.inj (hq.symm.trans hq')
      exact h hlive s hs hs' hset hclear
    · rw [hrest hj hp' hq' s hset] at hclear
      cases hclear

theorem accounted_cleared (hs : 1 ≤ s)
    (hs' : s ≤ 64) (hset : pending s p = true)
    (hclear : q.pendingSignals = p.pendingSignals &&& ~~~ (1 <<< UInt64.ofNat (s - 1))) :
    Accounted hal arch e r k l ↔
      (p.state ≠ .exited → Settled hal arch s k.kernel.table l.kernel.table p q e r) := by
  rw [accounted_running hp hq hrest]
  constructor
  · intro h hlive
    refine h hlive s hs hs' hset ?_
    rw [pending_cleared hs hs' hs hs' hclear]
    simp
  · intro h hlive i hi hi' hiset hiclear
    rw [pending_cleared hs hs' hi hi' hclear, hiset, Bool.true_and, decide_eq_false_iff_not,
      not_not] at hiclear
    exact hiclear ▸ h hlive

end

/-- What follows an exit: signals are sent and waiters are woken. -/
structure Tells (t u : Table) : Prop where
  carries : Carries t u
  kin : kin u = kin t

namespace Tells

variable {t u v : Table}

theorem trans (h : Tells t u) (k : Tells u v) : Tells t v :=
  ⟨h.carries.trans k.carries, k.kin.trans h.kin⟩

theorem send (t : Table) (pid signal : ℕ) : Tells t (t.sendSignalTid pid signal).2 :=
  ⟨.sendSignalTid pid signal, (sameKin_sendSignalTid t pid signal).kin⟩

theorem wakeEach (count : ℕ) (addrs : List ℕ) (k : KernelState) :
    Tells k.table (addrs.foldl (fun k addr => wakeWaiters count addr k) k).table :=
  ⟨.of_keeps (keeps_wakeEach count addrs k),
    (keeps_wakeEach count addrs k : Keeps kinOf k.table _).held⟩

theorem tellParent (parent : Option ℕ) (k : KernelState) :
    Tells k.table (tellParent parent k).table := by
  cases parent with
  | none => exact ⟨.refl _, rfl⟩
  | some tgid => exact send k.table tgid sigchld

end Tells

/-- The default action ends the running thread and clears no further signal. -/
theorem defaultAction_spec (hal : HalMemory) (heap : Heap) (arch : Arch) (signum : ℕ)
    (k : KernelState) (hp : k.table.current = .ok p) :
    Carries k.table (defaultAction hal heap arch signum k).table ∧
      ∃ q, (defaultAction hal heap arch signum k).table.processes[k.table.currentTid]? = some q ∧
        q.state = .exited := by
  have hcarry := Carries.exitCurrentThread (t := k.table) hal heap (-Int32.ofNat signum)
  have hkin := exitCurrentThread_kin hal heap (-Int32.ofNat signum) hp
  have hended : ∃ x, kin (k.table.exitCurrentThread hal heap (-Int32.ofNat signum)).2
      k.table.currentTid = some x ∧ x.state = .exited := by
    rw [hkin]
    split
    · exact ⟨_, update_self .., rfl⟩
    refine ⟨(kinOf p).ended (-Int32.ofNat signum), ?_, rfl⟩
    simp only
    rw [current_kin hp, map_some, Kin.inGroup, if_pos (show (kinOf p).tgid = p.tgid from rfl)]
  generalize hout : k.table.exitCurrentThread hal heap (-Int32.ofNat signum) = out at hcarry hended
  -- what follows the exit changes neither
  have htold : Tells out.2 (defaultAction hal heap arch signum k).table := by
    obtain ⟨answer, t⟩ := out
    cases arch with
    | riscv64 =>
      simp only [defaultAction, signalExit, hout]
      rcases answer with e | x
      · exact ⟨.refl t, rfl⟩
      exact ((Tells.tellParent x.parentTgid ⟨t, dropTasks x k.scheduler⟩).trans
        (.wakeEach _ _ _)).trans (.wakeEach _ _ _)
    | loongarch64 =>
      simp only [defaultAction, plainSignalExit, hout]
      rcases answer with e | x
      · exact ⟨.refl t, rfl⟩
      simp only [wakeEveryone]
      rcases x.parentTgid with _ | parent
      · exact .wakeEach _ _ ⟨t, dropTasks x k.scheduler⟩
      exact (Tells.send t parent sigchld).trans
        (.wakeEach _ _ ⟨_, (dropTasks x k.scheduler).wakeTask parent⟩)
  refine ⟨hcarry.trans htold.carries, ?_⟩
  obtain ⟨x, hx, hstate⟩ := hended
  rw [← htold.kin] at hx
  obtain ⟨q, hq, rfl⟩ := kin_eq_some.mp hx
  exact ⟨q, hq, hstate⟩

inductive Dispatched (hal : HalMemory) (arch : Arch) (t : SignalTask) (s : ℕ) :
    Dispatch × SignalTask → Prop where
  | ended : (t.signalActions s).handler = 0 →
      Dispatched hal arch t s (.terminate s, consumeSignal s t)
  | ignored : (t.signalActions s).handler = 1 ∨
        (t.signalActions s).handler = 0 ∧ (s = 17 ∨ s = 23 ∨ s = 28) →
      Dispatched hal arch t s (.ignored, consumeSignal s t)
  | failed {c M} : (t.signalActions s).handler ≠ 0 → (t.signalActions s).handler ≠ 1 →
      writeSignalFrame arch hal s t.task = (.error c, M) →
      Dispatched hal arch t s
        (.failed, { consumeSignal s t with task := { t.task with machine := M } })
  | entered {M} : (t.signalActions s).handler ≠ 0 → (t.signalActions s).handler ≠ 1 →
      writeSignalFrame arch hal s t.task = (.ok (), M) →
      Dispatched hal arch t s (.entered, { consumeSignal s t with task :=
        { enterHandler s (t.signalActions s) M t.task with
          frame := entryFrame arch s (t.signalActions s) t.task.frame } })

theorem dispatchSignals_dispatched (hal : HalMemory) {t : SignalTask}
    (h : dispatchable arch (unmaskedSignals t) ≠ 0) :
    Dispatched hal arch t (lowestSignal (dispatchable arch (unmaskedSignals t)))
      (dispatchSignals arch hal t) := by
  have hsignum : trailingZeros (dispatchable arch (unmaskedSignals t)) + 1 =
      lowestSignal (dispatchable arch (unmaskedSignals t)) := rfl
  unfold dispatchSignals
  simp only [if_neg h, hsignum]
  generalize lowestSignal (dispatchable arch (unmaskedSignals t)) = s
  have hactions : (consumeSignal s t).signalActions = t.signalActions := rfl
  have htask : (consumeSignal s t).task = t.task := rfl
  unfold deliver
  simp only [hactions, htask]
  by_cases hzero : (t.signalActions s).handler = 0
  · rw [if_pos hzero]
    by_cases hends : s ≠ 17 ∧ s ≠ 23 ∧ s ≠ 28
    · rw [if_pos hends]
      exact .ended hzero
    · rw [if_neg hends]
      refine .ignored (.inr ⟨hzero, ?_⟩)
      omega
  · rw [if_neg hzero]
    by_cases hone : (t.signalActions s).handler = 1
    · rw [if_pos hone]
      exact .ignored (.inl hone)
    rw [if_neg hone]
    rcases hwrite : writeSignalFrame arch hal s t.task with ⟨c | u, M⟩
    · exact .failed hzero hone hwrite
    · exact .entered hzero hone hwrite

theorem dispatchSignals_idle (hal : HalMemory) {t : SignalTask}
    (h : dispatchable arch (unmaskedSignals t) = 0) : dispatchSignals arch hal t = (.idle, t) :=
  if_pos h

theorem pending_dispatchable (hx : p.pendingSignals &&& ~~~ p.signalMask = x)
    (h : (dispatchable arch x).toBitVec.getLsbD (s - 1) = true) : pending s p = true := by
  cases arch with
  | riscv64 => exact pending_of_and rfl (hx ▸ h)
  | loongarch64 =>
    rw [dispatchable, UInt64.toBitVec_and, BitVec.getLsbD_and, Bool.and_eq_true] at h
    exact pending_of_and rfl (hx ▸ h.1)

theorem dispatch_settles (hn : Numbered k.kernel.table) (hp : k.kernel.table.current = .ok p)
    (hl : l = { k with kernel := dispatchCurrent hal heap arch k.kernel }) :
    Accounted hal arch (.dispatch heap) r k l ↔
      (p.state ≠ .exited → (Event.dispatch heap).SafeFor hal arch k p) := by
  obtain ⟨⟨t, sched⟩, waiting⟩ := k
  have hunmasked : unmaskedSignals (signalTask t p) = p.pendingSignals &&& ~~~ p.signalMask := rfl
  unfold dispatchCurrent at hl
  simp only [hp] at hl
  by_cases hready : dispatchable arch (p.pendingSignals &&& ~~~ p.signalMask) = 0
  · -- nothing to dispatch
    rw [dispatchSignals_idle hal (hunmasked ▸ hready)] at hl
    obtain ⟨hq, hrest⟩ := modify_current hp (t.machine p) (withTask (signalTask t p))
    rw [accounted_running hp (by rw [hl]; exact hq) (by rw [hl]; exact hrest)]
    constructor
    · intro _ _ hne
      exact absurd hready hne
    · intro _ _ s _ _ hset hclear
      exact absurd (hclear.symm.trans hset) (by decide)
  · obtain ⟨hs, hs', hbit⟩ := lowestSignal_spec hready
    have hset := pending_dispatchable rfl hbit
    have hdone := dispatchSignals_dispatched hal (hunmasked.symm ▸ hready)
    rw [hunmasked] at hdone
    have hsafe : (Event.dispatch heap).SafeFor hal arch ⟨⟨t, sched⟩, waiting⟩ p ↔
        (Caught (lowestSignal (dispatchable arch (p.pendingSignals &&& ~~~ p.signalMask))) p →
          CanWrite hal (signalFrameSp arch (p.trapFrame.regs 2)).toNat (signalFrameSize arch)
            (t.machine p)) := ⟨fun h => h hready, fun h _ => h⟩
    rw [hsafe]
    generalize lowestSignal (dispatchable arch (p.pendingSignals &&& ~~~ p.signalMask)) = s at *
    generalize dispatchSignals arch hal (signalTask t p) = out at hdone hl
    have hcan : CanWrite hal (signalFrameSp arch (p.trapFrame.regs 2)).toNat (signalFrameSize arch)
        (t.machine p) ↔ (writeSignalFrame arch hal s (signalTask t p).task).1 = .ok () := by
      rw [← signalFrameBytes_length arch s (signalTask t p).task]
      exact canWrite_iff
    cases hdone with
    | ended hzero =>
      obtain ⟨hq, hrest⟩ := modify_current hp (t.machine p)
        (withTask (consumeSignal s (signalTask t p)))
      have hcur : (putSignalTask p (consumeSignal s (signalTask t p)) t).current =
          .ok (withTask (consumeSignal s (signalTask t p)) p) := by
        simp only [Table.current]
        exact hq ▸ rfl
      obtain ⟨hcarry, q, hq', hstate⟩ := defaultAction_spec hal heap arch s
        ⟨putSignalTask p (consumeSignal s (signalTask t p)) t, sched⟩ hcur
      subst hl
      rw [accounted_running hp hq' (hrest.carries hn rfl hcarry)]
      refine ⟨fun _ _ hcaught => absurd hzero hcaught.1, fun _ _ i hi hi' hiset hiclear => ?_⟩
      have hone : i = s := by
        by_contra hne
        have hkept : pending i (withTask (consumeSignal s (signalTask t p)) p) = true := by
          rw [pending_cleared hs hs' hi hi' rfl, hiset, decide_eq_true hne, Bool.and_true]
        rcases hcarry.entries hq' with ⟨q₀, hq₀, hlater⟩ | ⟨hle, -⟩
        · obtain rfl := some.inj (hq.symm.trans hq₀)
          exact absurd (hiclear.symm.trans (hlater i hkept)) (by decide)
        · exact absurd (hn.below (current_ok hp)) (not_lt.mpr hle)
      exact .ended (hone ▸ hzero) hstate
    | ignored hignored =>
      obtain ⟨hq, hrest⟩ := modify_current hp (t.machine p)
        (withTask (consumeSignal s (signalTask t p)))
      subst hl
      rw [accounted_cleared hp hq hrest hs hs' hset rfl]
      refine ⟨fun _ _ hcaught => ?_, fun _ _ => .ignored hignored⟩
      rcases hignored with hone | ⟨hzero, -⟩
      · exact absurd hone hcaught.2
      · exact absurd hzero hcaught.1
    | @failed c M hzero hone hwrite =>
      obtain ⟨hq, hrest⟩ := modify_current hp M (withTask { consumeSignal s (signalTask t p) with
        task := { (signalTask t p).task with machine := M } })
      subst hl
      rw [accounted_cleared hp hq hrest hs hs' hset rfl]
      constructor
      · intro h hlive _
        cases h hlive with
        | started hstarts =>
          have hok := congrArg Prod.fst (hwrite.symm.trans hstarts.written)
          cases hok
        | ended hzero' _ => exact absurd hzero' hzero
        | ignored hignored =>
          rcases hignored with hone' | ⟨hzero', -⟩
          · exact absurd hone' hone
          · exact absurd hzero' hzero
      · intro h hlive
        have hok := hcan.mp (h hlive ⟨hzero, hone⟩)
        rw [hwrite] at hok
        cases hok
    | @entered M hzero hone hwrite =>
      obtain ⟨hq, hrest⟩ := modify_current hp M (withTask { consumeSignal s (signalTask t p) with
        task := { enterHandler s (p.signalActions s) M (signalTask t p).task with
          frame := entryFrame arch s (p.signalActions s) p.trapFrame } })
      subst hl
      rw [accounted_cleared hp hq hrest hs hs' hset rfl]
      refine ⟨fun _ _ _ => hcan.mpr (by rw [hwrite]), fun _ _ => .started ⟨⟨hzero, hone⟩, ?_, rfl⟩⟩
      refine hwrite.trans ?_
      have hspace : ∀ q : Process, q.addressSpace = p.addressSpace →
          (t.putMachine p M).machine q = M := by
        intro q hsame
        rw [Table.machine, Table.putMachine, hsame]
        simp
      exact congrArg (Prod.mk _) (hspace _ rfl).symm

theorem suspend_pending (request : SigsuspendRequest) (w : WaitState) (s : Scheduler) :
    (suspend request w s).wait.pendingSignals =
      if w.pending ≠ 0 ∧ lowestSignal w.pending < 32 then
        w.pendingSignals &&& ~~~ (1 <<< UInt64.ofNat (lowestSignal w.pending - 1))
      else w.pendingSignals := by
  unfold suspend
  by_cases hpending : w.pending ≠ 0
  · simp only [if_pos hpending, endSuspend]
    by_cases hlow : lowestSignal w.pending < 32
    · rw [if_pos hlow, if_pos ⟨hpending, hlow⟩]
      split <;> rfl
    · rw [if_neg hlow, if_neg (fun h => hlow h.2)]
      split <;> rfl
  · have hnone : ¬ (w.pending ≠ 0 ∧ lowestSignal w.pending < 32) := fun h => hpending h.1
    rw [if_neg hpending]
    split <;> rfl

theorem accounted_waited {M : Machine} (hp : k.kernel.table.current = .ok p)
    (hsame : o.wait.pendingSignals = p.pendingSignals) :
    Accounted hal arch e r k (finishWait p M o k) := by
  obtain ⟨hq, hrest⟩ := modify_current hp M fun p =>
    { p with pendingSignals := o.wait.pendingSignals, signalMask := o.wait.signalMask }
  rw [accounted_running hp hq hrest]
  intro _ s _ _ hset hclear
  simp only [hsame] at hset hclear
  exact absurd (hclear.symm.trans hset) (by decide)

theorem accounted_took {M : Machine} (hp : k.kernel.table.current = .ok p) (hs : 1 ≤ s)
    (hs' : s ≤ 64) (hset : pending s p = true)
    (htook : o.wait.pendingSignals = p.pendingSignals &&& ~~~ (1 <<< UInt64.ofNat (s - 1))) :
    Accounted hal arch e r k (finishWait p M o k) ↔ (p.state ≠ .exited →
      Settled hal arch s k.kernel.table (finishWait p M o k).kernel.table p
        { p with pendingSignals := o.wait.pendingSignals, signalMask := o.wait.signalMask } e r) := by
  obtain ⟨hq, hrest⟩ := modify_current hp M fun p =>
    { p with pendingSignals := o.wait.pendingSignals, signalMask := o.wait.signalMask }
  exact accounted_cleared hp hq hrest hs hs' hset htook

theorem sigsuspend_settles {setPtr size : ℕ} {polling : Bool}
    (hp : k.kernel.table.current = .ok p) :
    Accounted hal arch (.sigsuspend heap setPtr size polling) r k
        (LostSignals.sigsuspend hal heap setPtr size polling k).2 ↔
      (p.state ≠ .exited → (Event.sigsuspend heap setPtr size polling).SafeFor hal arch k p) := by
  unfold LostSignals.sigsuspend
  simp only [hp]
  generalize hmask : (if setPtr = 0 then Except.ok 0
    else readMask hal heap setPtr (max size 8) (k.kernel.table.machine p)) = mask
  generalize ho : sysRtSigsuspend ⟨mask, polling⟩
    (waitState p (k.waiting k.kernel.table.currentTid)) k.kernel.scheduler = o
  -- the mask in force decides what is taken
  have hforce : (∃ c, suspendMask hal heap setPtr size p (k.waiting k.kernel.table.currentTid)
        (k.kernel.table.machine p) = .error c ∧ o.wait.pendingSignals = p.pendingSignals) ∨
      ∃ m, suspendMask hal heap setPtr size p (k.waiting k.kernel.table.currentTid)
        (k.kernel.table.machine p) = .ok m ∧ o.wait.pendingSignals =
          if p.pendingSignals &&& ~~~ m ≠ 0 ∧ lowestSignal (p.pendingSignals &&& ~~~ m) < 32 then
            p.pendingSignals &&&
              ~~~ (1 <<< UInt64.ofNat (lowestSignal (p.pendingSignals &&& ~~~ m) - 1))
          else p.pendingSignals := by
    rw [← ho]
    unfold sysRtSigsuspend suspendMask
    rw [hmask]
    have hsaved : (waitState p (k.waiting k.kernel.table.currentTid)).sigsuspendSavedMask =
      (k.waiting k.kernel.table.currentTid).sigsuspendSavedMask := rfl
    rw [hsaved]
    cases (k.waiting k.kernel.table.currentTid).sigsuspendSavedMask with
    | some old => exact .inr ⟨_, rfl, suspend_pending _ _ _⟩
    | none =>
      cases mask with
      | error c => exact .inl ⟨c, rfl, rfl⟩
      | ok m => exact .inr ⟨m, rfl, suspend_pending _ _ _⟩
  simp only [Event.SafeFor]
  rcases hforce with ⟨c, hc, hsame⟩ | ⟨m, hm, htaken⟩
  · rw [hc]
    exact ⟨fun _ _ m hm => (by cases hm), fun _ => accounted_waited hp hsame⟩
  rw [hm]
  by_cases htakes : p.pendingSignals &&& ~~~ m ≠ 0 ∧ lowestSignal (p.pendingSignals &&& ~~~ m) < 32
  · rw [if_pos htakes] at htaken
    obtain ⟨hs, hs', hbit⟩ := lowestSignal_spec htakes.1
    rw [accounted_took hp hs hs' (pending_of_and rfl hbit) htaken]
    constructor
    · intro h hlive m' hm' _ _
      obtain rfl := Except.ok.inj hm'
      cases h hlive with
      | ignored hignored => exact hignored
    · intro h hlive
      exact .ignored (h hlive m rfl htakes.1 htakes.2)
  · rw [if_neg htakes] at htaken
    refine ⟨fun _ _ m' hm' hne hlow => ?_, fun _ => accounted_waited hp htaken⟩
    obtain rfl := Except.ok.inj hm'
    exact absurd ⟨hne, hlow⟩ htakes

/-- What `rt_sigtimedwait` finds it takes, and answers with it if it can. -/
theorem sysRtSigtimedwait_spec (request : SigtimedwaitRequest) (w : WaitState) (s : Scheduler) :
    (∃ set, request.sizeOk = true ∧ request.set = .ok set ∧ w.pendingSignals &&& set ≠ 0 ∧
      (sysRtSigtimedwait request w s).wait.pendingSignals = w.pendingSignals &&&
        ~~~ (1 <<< UInt64.ofNat (lowestSignal (w.pendingSignals &&& set) - 1)) ∧
      (sysRtSigtimedwait request w s).result = match request.copyInfo with
        | .error c => .error c.errno
        | .ok () => .ok (countWord (lowestSignal (w.pendingSignals &&& set)))) ∨
    (∀ set, request.sizeOk = true → request.set = .ok set → w.pendingSignals &&& set = 0) ∧
      (sysRtSigtimedwait request w s).wait.pendingSignals = w.pendingSignals := by
  have huntil : ∀ (w : WaitState) now deadline,
      (sigwaitUntil w s now deadline).wait.pendingSignals = w.pendingSignals := by
    intro w now deadline
    unfold sigwaitUntil
    split <;> rfl
  unfold sysRtSigtimedwait
  rcases hsize : request.sizeOk with _ | _
  · exact .inr ⟨fun _ h => (by cases h), rfl⟩
  simp only [Bool.true_eq_false, if_false]
  rcases hset : request.set with c | set
  · exact .inr ⟨fun _ _ h => (by cases h), rfl⟩
  simp only
  by_cases hfound : w.pendingSignals &&& set ≠ 0
  · rw [if_pos hfound]
    cases request.copyInfo with
    | error c | ok u => exact .inl ⟨set, trivial, rfl, hfound, rfl, rfl⟩
  rw [if_neg hfound]
  refine .inr ⟨fun set' _ h => ?_, ?_⟩
  · obtain rfl := Except.ok.inj h
    exact not_not.mp hfound
  · split
    · rfl
    · split
      · exact huntil _ _ _
      · split
        · rfl
        · rfl
        · exact huntil _ _ _

theorem sigtimedwait_settles {setPtr infoPtr timeoutPtr sigsetsize now : ℕ}
    (hp : k.kernel.table.current = .ok p)
    (hr : r = some (LostSignals.sigtimedwait hal heap setPtr infoPtr timeoutPtr sigsetsize now k).1) :
    Accounted hal arch (.sigtimedwait heap setPtr infoPtr timeoutPtr sigsetsize now) r k
        (LostSignals.sigtimedwait hal heap setPtr infoPtr timeoutPtr sigsetsize now k).2 ↔
      (p.state ≠ .exited →
        (Event.sigtimedwait heap setPtr infoPtr timeoutPtr sigsetsize now).SafeFor hal arch k p) := by
  unfold LostSignals.sigtimedwait at hr ⊢
  simp only [hp] at hr ⊢
  simp only [Event.SafeFor]
  generalize hread : readMask hal heap setPtr 8 (k.kernel.table.machine p) = mask at hr ⊢
  generalize hcopied : copyInfo hal infoPtr (foundSignal mask sigsetsize p)
    (k.kernel.table.machine p) = copied at hr ⊢
  generalize htime : (if timeoutPtr = 0 then none
    else some (readTimespecNs hal heap timeoutPtr (k.kernel.table.machine p))) = timeout at hr ⊢
  have hspec := sysRtSigtimedwait_spec
    ⟨sigsetsize == 8, mask, timeout, match copied.1 with
      | .error _ => .error .efault
      | .ok () => .ok (), now⟩ (waitState p (k.waiting k.kernel.table.currentTid))
    k.kernel.scheduler
  generalize sysRtSigtimedwait _ (waitState p (k.waiting k.kernel.table.currentTid))
    k.kernel.scheduler = o at hr hspec ⊢
  subst hr
  rcases hspec with ⟨set, hsize, rfl, hfound, htook, hanswer⟩ | ⟨hnone, hsame⟩
  · have hsize : sigsetsize = 8 := beq_iff_eq.mp hsize
    have hfound : p.pendingSignals &&& set ≠ 0 := hfound
    obtain ⟨hs, hs', hbit⟩ := lowestSignal_spec hfound
    rw [accounted_took hp hs hs' (pending_of_and rfl hbit) htook]
    have hwrite : copied.1 = .ok () ↔
        (infoPtr ≠ 0 → CanWrite hal infoPtr 128 (k.kernel.table.machine p)) := by
      rw [← hcopied, foundSignal, if_pos ⟨hsize, hfound⟩]
      simp only [copyInfo]
      by_cases hnull : infoPtr = 0
      · rw [if_pos hnull]
        exact ⟨fun _ h => absurd hnull h, fun _ => rfl⟩
      · rw [if_neg hnull, ← canWrite_iff]
        exact ⟨fun h _ => h, fun h => h hnull⟩
    constructor
    · intro h hlive set' hset' _ _ hcaught hinfo
      obtain rfl := Except.ok.inj hset'
      refine hwrite.mp ?_ hinfo
      cases hcopy : copied.1 with
      | ok u => rfl
      | error c =>
        simp only [hcopy] at hanswer
        have hsettled := h hlive
        rw [hanswer] at hsettled
        cases hsettled with
        | ignored hignored => exact absurd hignored hcaught
    · intro h hlive
      by_cases hignored : Ignored (lowestSignal (p.pendingSignals &&& set)) p
      · exact .ignored hignored
      have hok := hwrite.mpr fun hinfo => h hlive set rfl hsize hfound hignored hinfo
      simp only [hok] at hanswer
      rw [hanswer]
      exact .returned
  · refine ⟨fun _ _ set hset hsize hfound => ?_, fun _ => accounted_waited hp hsame⟩
    exact absurd (hnone set (beq_iff_eq.mpr hsize) hset) hfound

/-- A new image has no signal pending; the other entries that are left stay as they were. -/
theorem execve_settles {cloneHeap stackHeap : Heap} {entry : UInt64} {sp : Option UInt64}
    (hp : k.kernel.table.current = .ok p)
    (hl : l.kernel.table = (k.kernel.table.execveCurrentImage hal cloneHeap stackHeap entry sp).2) :
    Accounted hal arch (.table (.execve cloneHeap stackHeap entry sp)) r k l ↔ (p.state ≠ .exited →
      (Event.table (.execve cloneHeap stackHeap entry sp)).SafeFor hal arch k p) := by
  obtain ⟨q, hq⟩ := execve_replaced hal cloneHeap stackHeap entry sp hp
  have hself : l.kernel.table.processes[k.kernel.table.currentTid]? = some q := by
    rw [hl, hq.processes, Std.ExtTreeMap.getElem?_insert_self]
  have hrest : Spares k.kernel.table.currentTid k.kernel.table l.kernel.table := by
    intro i p' q' hi hp' hq' s hs
    obtain rfl := some.inj (hp'.symm.trans (GroupAttributes.execve_old hp hi (hl ▸ hq')))
    exact hs
  rw [accounted_running hp hself hrest]
  have hnone : ∀ s, pending s q = false := by
    intro s
    rw [pending, hq.cleared]
    simp
  constructor
  · intro h hlive s hs hs' hset
    cases h hlive s hs hs' hset (hnone s) with
    | ignored hignored => exact hignored
  · intro h hlive s hs hs' hset _
    exact .ignored (h hlive s hs hs' hset)

theorem carries_table {op : WaitReaping.Op} (hrun : op.run hal t = some u)
    (hop : ∀ cloneHeap stackHeap entry sp, op ≠ .execve cloneHeap stackHeap entry sp) :
    Carries t u := by
  cases op with
  | execve cloneHeap stackHeap entry sp => exact absurd rfl (hop cloneHeap stackHeap entry sp)
  | cloneThread heap fuel stack tls =>
    obtain ⟨out, hout, rfl⟩ := map_eq_some_iff.mp hrun
    exact .creates (GroupAttributes.creates_cloneThread hal heap t hout)
  | setCurrent tid => exact some.inj hrun ▸ .of_keeps (keeps_setCurrent tid t)
  | spawn heap parent entry => exact some.inj hrun ▸ .created rfl rfl
  | fork heap => exact some.inj hrun ▸ .creates (GroupAttributes.creates_fork hal heap t)
  | forkShared => exact some.inj hrun ▸ .creates (GroupAttributes.creates_forkShared t)
  | exit heap arg => exact some.inj hrun ▸ .exitCurrentThread hal heap arg
  | exitGroup heap arg => exact some.inj hrun ▸ .exitCurrentProcessGroup hal heap arg
  | signalExit heap bit => exact some.inj hrun ▸ .exitCurrentThread hal heap _
  | forceExit heap tgid code => exact some.inj hrun ▸ .forceExitGroup hal heap code tgid
  | wait parent selector => exact some.inj hrun ▸ .waitChild parent selector

theorem safe_iff (hp : k.kernel.table.current = .ok p) :
    e.Safe hal arch k ↔ (p.state ≠ .exited → e.SafeFor hal arch k p) := by
  constructor
  · intro h
    exact h p hp
  · intro h p' hp'
    obtain rfl := Except.ok.inj (hp.symm.trans hp')
    exact h

theorem safe_missing {c : ℕ} (hp : k.kernel.table.current = .error c) : e.Safe hal arch k := by
  intro p hp'
  rw [hp] at hp'
  cases hp'

theorem numbered_modify (h : Numbered t) (p : Process) (M : Machine) (tid : ℕ)
    (f : Process → Process) : Numbered ((t.putMachine p M).modify tid f) :=
  h.keeps ((keeps_putMachine p M t : Keeps (fun _ => ()) t _).trans (keeps_modify fun _ => rfl))

theorem numbered_dispatch (h : Numbered k.kernel.table) :
    Numbered (dispatchCurrent hal heap arch k.kernel).table := by
  unfold dispatchCurrent
  rcases hp : k.kernel.table.current with c | p
  · exact h
  simp only
  split
  · next s t hout =>
    have hcur := (modify_current hp t.task.machine (withTask t)).1
    have hrunning : (putSignalTask p t k.kernel.table).current = .ok (withTask t p) := by
      simp only [Table.current]
      exact hcur ▸ rfl
    exact (numbered_modify h p _ _ _).carries (defaultAction_spec hal heap arch s
      ⟨putSignalTask p t k.kernel.table, k.kernel.scheduler⟩ hrunning).1
  · exact numbered_modify h p _ _ _

/-- A step accounts for every signal exactly if it meets the condition, and keeps the numbering. -/
theorem step_settles (h : Numbered k.kernel.table) (hstep : e.step hal arch k = some (r, l)) :
    (Accounted hal arch e r k l ↔ e.Safe hal arch k) ∧ Numbered l.kernel.table := by
  have hcarried : Carries k.kernel.table l.kernel.table → (∀ p, e.SafeFor hal arch k p) →
      (Accounted hal arch e r k l ↔ e.Safe hal arch k) ∧ Numbered l.kernel.table := fun hc hsafe =>
    ⟨iff_of_true (accounted_of_carries h hc) fun p _ _ => hsafe p, h.carries hc⟩
  have hmissing : ∀ c, k.kernel.table.current = .error c → l.kernel.table = k.kernel.table →
      (Accounted hal arch e r k l ↔ e.Safe hal arch k) ∧ Numbered l.kernel.table := fun c hp hsame =>
    ⟨iff_of_true (accounted_of_carries h (hsame ▸ .refl _)) (safe_missing hp), hsame ▸ h⟩
  cases e with
  | dispatch heap =>
    obtain ⟨-, rfl⟩ := Prod.mk.inj (some.inj hstep)
    refine ⟨?_, numbered_dispatch h⟩
    cases hp : k.kernel.table.current with
    | error c => exact (hmissing c hp (by simp only [dispatchCurrent, hp])).1
    | ok p => rw [dispatch_settles h hp rfl, safe_iff hp]
  | sigsuspend heap setPtr size polling =>
    have hl : (LostSignals.sigsuspend hal heap setPtr size polling k).2 = l :=
      (Prod.mk.inj (some.inj hstep)).2
    subst hl
    rcases hp : k.kernel.table.current with c | p
    · exact hmissing c hp (by simp only [LostSignals.sigsuspend, hp])
    rw [sigsuspend_settles hp, safe_iff hp, LostSignals.sigsuspend]
    simp only [hp]
    exact ⟨trivial, numbered_modify h _ _ _ _⟩
  | sigtimedwait heap setPtr infoPtr timeoutPtr sigsetsize now =>
    obtain ⟨hr, hl⟩ := Prod.mk.inj (some.inj hstep)
    have hl : (LostSignals.sigtimedwait hal heap setPtr infoPtr timeoutPtr sigsetsize now k).2 = l :=
      hl
    subst hl
    rcases hp : k.kernel.table.current with c | p
    · exact hmissing c hp (by simp only [LostSignals.sigtimedwait, hp])
    rw [sigtimedwait_settles hp hr.symm, safe_iff hp, LostSignals.sigtimedwait]
    simp only [hp]
    exact ⟨trivial, numbered_modify h _ _ _ _⟩
  | table op =>
    obtain ⟨u, hrun, hl⟩ := map_eq_some_iff.mp hstep
    obtain ⟨-, rfl⟩ := Prod.mk.inj hl
    by_cases hop : ∀ cloneHeap stackHeap entry sp, op ≠ .execve cloneHeap stackHeap entry sp
    · refine hcarried (carries_table hrun hop) fun p => ?_
      cases op with
      | execve cloneHeap stackHeap entry sp => exact absurd rfl (hop cloneHeap stackHeap entry sp)
      | _ => trivial
    · simp only [not_forall, not_not] at hop
      obtain ⟨cloneHeap, stackHeap, entry, sp, rfl⟩ := hop
      obtain rfl := some.inj hrun
      rcases hp : k.kernel.table.current with c | p
      · exact hmissing c hp (by simp only [Table.execveCurrentImage, hp])
      rw [execve_settles hp rfl, safe_iff hp]
      refine ⟨Iff.rfl, ⟨fun {j q} hq => ?_⟩⟩
      rw [GroupAttributes.execve_nextPid hal cloneHeap stackHeap entry sp k.kernel.table]
      by_cases hj : j = k.kernel.table.currentTid
      · exact hj ▸ h.below (current_ok hp)
      · exact h.below (GroupAttributes.execve_old hp hj hq)
  | send pid signal =>
    obtain ⟨-, rfl⟩ := Prod.mk.inj (some.inj hstep)
    exact hcarried (.sendSignalTid pid signal) fun _ => trivial
  | other f hf sched waiting =>
    obtain ⟨-, rfl⟩ := Prod.mk.inj (some.inj hstep)
    exact hcarried (hf _) fun _ => trivial

end Steps

theorem throughout_iff {hal : HalMemory} {arch : Arch} {k : State} (h : Numbered k.kernel.table)
    (es : List Event) : Throughout hal arch (Accounted hal arch) k es ↔
      Throughout hal arch (fun e _ k _ => e.Safe hal arch k) k es := by
  induction es generalizing k with
  | nil => exact Iff.rfl
  | cons e es ih =>
    simp only [Throughout]
    split
    · exact Iff.rfl
    · next r l hstep => rw [(step_settles h hstep).1, ih (step_settles h hstep).2]

/-- In a run every signal that leaves the pending set of a living thread starts its handler,
has its default action, is ignored or is returned, exactly if every step meets the condition. -/
theorem signals_settled (hal : HalMemory) (arch : Arch) (spaces : ℕ → AddressSpaceInner)
    (mem : Memory) (s : Scheduler) (es : List Event) :
    Throughout hal arch (Accounted hal arch) (boot spaces mem s) es ↔
      Throughout hal arch (fun e _ k _ => e.Safe hal arch k) (boot spaces mem s) es := by
  apply throughout_iff
  refine ⟨fun {j p} hp => ?_⟩
  simp [boot] at hp

def arm (p : Process) : Process :=
  { p with
    signalActions := fun s => if s = 10 then ⟨0x400000, 0, 0⟩ else ⟨0, 0, 0⟩
    trapFrame := { p.trapFrame with regs := fun _ => 0x1000 } }

def idleScheduler : Scheduler := ⟨1, [], none, ∅⟩

def start : State := boot (fun _ => newUser board) (fun _ => 0) idleScheduler

def armRuns : List Event :=
  [.table (.spawn AgreementRuns.noHeap none 0),
   .other (fun t => t.modify 1 arm) (fun _ => .modify fun _ _ => id) idleScheduler fun _ => .fresh,
   .send 1 10]

def armed : State where
  kernel := {
    table := (((start.kernel.table.spawn board AgreementRuns.noHeap none 0).2.modify 1 arm
      ).sendSignalTid 1 10).2
    scheduler := idleScheduler }
  waiting := fun _ => .fresh

theorem start_numbered : Numbered start.kernel.table := by
  refine ⟨fun {j p} hp => ?_⟩
  simp [start, boot] at hp

theorem armed_running : ∃ p, armed.kernel.table.current = .ok p ∧ p.state ≠ .exited ∧
    p.pendingSignals = 0x200 ∧ p.signalMask = 0 ∧ (p.signalActions 10).handler = 0x400000 ∧
      ¬ CanWrite board (signalFrameSp .riscv64 (p.trapFrame.regs 2)).toNat
        (signalFrameSize .riscv64) (armed.kernel.table.machine p) := by
  have hfacts : armed.kernel.table.current.toOption.map (fun p =>
      (decide (p.state = .exited), p.pendingSignals, p.signalMask, (p.signalActions 10).handler,
        (writeBytes board (signalFrameSp .riscv64 (p.trapFrame.regs 2)).toNat
          (List.replicate (signalFrameSize .riscv64) 0) (armed.kernel.table.machine p)).1.toOption)) =
      some (false, 0x200, 0, 0x400000, none) := by
    decide +kernel
  obtain ⟨p, hp, hfields⟩ := map_eq_some_iff.mp hfacts
  simp only [Prod.mk.injEq, decide_eq_false_iff_not] at hfields
  obtain ⟨hlive, hpending, hmask, hhandler, hwrite⟩ := hfields
  refine ⟨p, toOption_eq_some.mp hp, hlive, hpending, hmask, hhandler, fun hcan => ?_⟩
  rw [toOption_eq_some.mpr hcan] at hwrite
  cases hwrite

/-- The signal interrupts `rt_sigsuspend`, or finds no room for its frame, or is pending when the
image is replaced: its handler never runs. -/
theorem signals_are_lost : ¬ Throughout board .riscv64 (Accounted board .riscv64) start
      (armRuns ++ [.sigsuspend boardHeap 0 8 false]) ∧
    ¬ Throughout board .riscv64 (Accounted board .riscv64) start
      (armRuns ++ [.dispatch boardHeap]) ∧
    ¬ Throughout board .riscv64 (Accounted board .riscv64) start
      (armRuns ++ [.table (.execve boardHeap boardHeap 0 none)]) := by
  simp only [throughout_iff start_numbered]
  obtain ⟨p, hp, hlive, hpending, hmask, hhandler, hwrite⟩ := armed_running
  have hcaught : Caught 10 p := by
    rw [Caught, hhandler]
    decide
  have hignored : ¬ Ignored 10 p := by
    rw [Ignored, hhandler]
    decide
  refine ⟨fun h => ?_, fun h => ?_, fun h => ?_⟩
  · have hsafe : Event.Safe board .riscv64 (.sigsuspend boardHeap 0 8 false) armed := h.2.2.2.1
    have hlost := hsafe p hp hlive 0 rfl
    rw [hpending] at hlost
    exact hignored (hlost (by decide) (by decide))
  · have hsafe : Event.Safe board .riscv64 (.dispatch boardHeap) armed := h.2.2.2.1
    have hlost := hsafe p hp hlive
    simp only [Event.SafeFor, hpending, hmask] at hlost
    exact hwrite (hlost (by decide) hcaught)
  · have hsafe : Event.Safe board .riscv64 (.table (.execve boardHeap boardHeap 0 none)) armed :=
      h.2.2.2.1
    refine hignored (hsafe p hp hlive 10 (by decide) (by decide) ?_)
    rw [pending, hpending]
    decide

end LostSignals
