import Whuse.BlockingCalls

/-! The block-and-restart protocol of riscv64. A call tells the trap handler that it waits only
through its answer and its number; here the handler's decision is compared with what the call
did to the scheduler. -/
namespace BlockRestart

open TrapHandler TaskScheduler BlockingCalls TaskScheduler.Scheduler

/-- The calls, each with what it reads. `other` is any call that never waits. -/
inductive Request where
  | read (r : ReadRequest)
  | recvfrom (r : ReadRequest)
  | readv (r : VectorRequest)
  | recvmsg (r : VectorRequest)
  | accept (r : AcceptRequest)
  | accept4 (r : AcceptRequest)
  | ppoll (r : PollRequest)
  | pselect6 (r : PollRequest)
  | epollPwait (r : EpollRequest)
  | epollPwait2 (r : EpollRequest)
  | nanosleep (r : SleepRequest)
  | clockNanosleep (r : SleepRequest)
  | futex (r : FutexRequest)
  | rtSigsuspend (r : SigsuspendRequest)
  | rtSigtimedwait (r : SigtimedwaitRequest)
  | wait (r : WaitRequest)
  | fcntlLock (r : LockRequest)
  | clone (r : CloneRequest)
  | clone3 (r : CloneRequest)
  | schedYield
  | other (sysno : UInt64) (h : (restartable .riscv64).contains sysno = false)
      (result : SyscallResult) (ops : List SchedOp)

def Request.sysno : Request → UInt64
  | .read _ => 63
  | .recvfrom _ => 207
  | .readv _ => 65
  | .recvmsg _ => 212
  | .accept _ => 202
  | .accept4 _ => 242
  | .ppoll _ => 73
  | .pselect6 _ => 72
  | .epollPwait _ => 22
  | .epollPwait2 _ => 441
  | .nanosleep _ => 101
  | .clockNanosleep _ => 115
  | .futex _ => 98
  | .rtSigsuspend _ => 133
  | .rtSigtimedwait _ => 137
  | .wait _ => 260
  | .fcntlLock _ => 25
  | .clone _ => 220
  | .clone3 _ => 435
  | .schedYield => 124
  | .other sysno _ _ _ => sysno

def body (request : Request) (w : WaitState) (s : Scheduler) : Outcome :=
  match request with
  | .read r => sysRead r w s
  | .recvfrom r => sysRecvfrom r w s
  | .readv r => sysReadv r w s
  | .recvmsg r => sysRecvmsg r w s
  | .accept r => sysAccept r w s
  | .accept4 r => sysAccept r w s
  | .ppoll r => sysPpoll r w s
  | .pselect6 r => sysPselect6 r w s
  | .epollPwait r => sysEpollPwait r w s
  | .epollPwait2 r => sysEpollPwait r w s
  | .nanosleep r => sysNanosleep r w s
  | .clockNanosleep r => sysClockNanosleep r w s
  | .futex r => sysFutex r w s
  | .rtSigsuspend r => sysRtSigsuspend r w s
  | .rtSigtimedwait r => sysRtSigtimedwait r w s
  | .wait r => sysWait r w s
  | .fcntlLock r => sysFcntlLock r w s
  | .clone r => doClone r w s
  | .clone3 r => doClone r w s
  | .schedYield => sysSchedYield w s
  | .other _ _ result ops => ⟨result, w, ops.foldl (fun s op => op.apply s) s, false⟩

/-- A trap: the caller is the scheduler's current task and not asleep. -/
structure Trap where
  request : Request
  wait : WaitState
  sched : Scheduler
  tid : ℕ
  running : sched.current.map (·.id) = some tid
  awake : sched.isBlocked tid = false

def Trap.outcome (T : Trap) : Outcome := body T.request T.wait T.sched

/-- The handler leaves the frame alone, so that the call runs again. -/
def Restarted (sysno : UInt64) (o : Outcome) : Prop :=
  blockedRestart .riscv64 sysno (encode o.result) = true

def Waits (tid : ℕ) (o : Outcome) : Prop := o.sched.isBlocked tid = true ∨ o.polls = true

def Agree (sysno : UInt64) (tid : ℕ) (o : Outcome) : Prop := Restarted sysno o ↔ Waits tid o

def Listed (sysno : UInt64) : Prop := (restartable .riscv64).contains sysno = true

instance (sysno : UInt64) : Decidable (Listed sysno) := inferInstanceAs (Decidable (_ = true))

variable {o : Outcome}

section Ends

variable {sysno : UInt64} {tid : ℕ} {w : WaitState} {s : Scheduler}

section

variable (hawake : s.isBlocked tid = false)
include hawake

end

end Ends

/-! When each call keeps to the protocol. The conditions speak of what the call reads. -/

section Calls

variable {sysno : UInt64} {tid : ℕ} {w : WaitState} {s : Scheduler}

section

variable (hawake : s.isBlocked tid = false)
include hawake

end

section Running

variable (hrun : s.current.map (·.id) = some tid) (hawake : s.isBlocked tid = false)

include hrun hawake

section Listed

variable (hlisted : Listed sysno)

include hlisted

end Listed

end Running

end Calls

end BlockRestart
