import Mathlib.Logic.Function.Basic
import Whuse.MachineWord

/-! The end of a system-call trap on both architectures. The dispatcher's answer becomes one
word; the handler restarts a call that has to wait, and otherwise stores the word and decides
whether to step over the trapping instruction. -/
namespace TrapHandler

inductive Arch where
  | riscv64
  | loongarch64
  deriving DecidableEq, Repr

/-- The trap frame; the floating-point part exists on riscv64 only. -/
structure TrapFrame where
  regs : Fin 32 → UInt64
  sepc : UInt64
  fregs : Fin 32 → UInt64
  fcsr : UInt64

instance neZero_regs : NeZero 32 := ⟨by decide⟩

namespace TrapFrame

def newUser (entry sp : UInt64) : TrapFrame where
  regs := Function.update (fun _ => 0) 2 sp
  sepc := entry
  fregs := fun _ => 0
  fcsr := 0

def syscallNumber (frame : TrapFrame) : UInt64 := frame.regs 17

def retval (frame : TrapFrame) : UInt64 := frame.regs 10

def setRetval (frame : TrapFrame) (value : UInt64) : TrapFrame :=
  { frame with regs := Function.update frame.regs 10 value }

@[simp] theorem setRetval_retval (frame : TrapFrame) (value : UInt64) :
    (frame.setRetval value).retval = value := by
  simp [setRetval, retval]

end TrapFrame

structure Errno where
  val : ℕ
  pos : 0 < val
  small : val < 4096
  deriving DecidableEq, Repr

namespace Errno

def eagain : Errno := ⟨11, by decide, by decide⟩
def efault : Errno := ⟨14, by decide, by decide⟩
def enoexec : Errno := ⟨8, by decide, by decide⟩
def enoent : Errno := ⟨2, by decide, by decide⟩

end Errno

abbrev SyscallResult := Except Errno UInt64

/-- What `dispatch` makes of an answer: the value, or the code negated. -/
def encode : SyscallResult → UInt64
  | .ok value => value
  | .error e => 0 - UInt64.ofNat e.val

def eagainRet : UInt64 := encode (.error .eagain)

/-- `(result as i32) < 0`. -/
def asI32Negative (result : UInt64) : Bool := (result.toBitVec.setWidth 32).msb

theorem encode_error_toNat (e : Errno) : (encode (.error e)).toNat = 2 ^ 64 - e.val := by
  have hpos := e.pos
  have hsmall := e.small
  rw [encode, UInt64.toNat_sub, UInt64.toNat_ofNat_of_lt' (by
    rw [UInt64.size]; omega)]
  change (2 ^ 64 - e.val + 0) % 2 ^ 64 = 2 ^ 64 - e.val
  exact Nat.mod_eq_of_lt (by omega)

theorem asI32Negative_error (e : Errno) : asI32Negative (encode (.error e)) = true := by
  have hpos := e.pos
  have hsmall := e.small
  have hval := encode_error_toNat e
  have hlow : ((encode (.error e)).toBitVec.setWidth 32).toNat = 2 ^ 32 - e.val := by
    rw [BitVec.toNat_setWidth, UInt64.toNat_toBitVec]
    omega
  rw [asI32Negative, BitVec.msb_eq_decide]
  exact decide_eq_true (by omega)

def sysExecve : UInt64 := 221
def sysRtSigreturn : UInt64 := 139

def restartable : Arch → List UInt64
  | .riscv64 => [260, 63, 65, 202, 242, 133, 137, 98, 73, 72, 22, 441, 101, 115]
  | .loongarch64 => [260, 63, 65, 133, 137, 98, 73, 72, 22, 441, 101, 115]

def blockedRestart (arch : Arch) (sysno result : UInt64) : Bool :=
  result == eagainRet && (restartable arch).contains sysno

def stepsOver (arch : Arch) (sysno result : UInt64) : Bool :=
  let plain := sysno != sysExecve && sysno != sysRtSigreturn
  match arch with
  | .riscv64 => plain
  | .loongarch64 => plain || asI32Negative result

def finishTrap (arch : Arch) (sysno sepc result : UInt64) (frame : TrapFrame) : TrapFrame :=
  if blockedRestart arch sysno result then frame
  else
    let frame := frame.setRetval result
    if stepsOver arch sysno result then { frame with sepc := sepc + 4 } else frame

variable {sysno : UInt64}

section

variable {arch : Arch} {sepc result : UInt64} {frame : TrapFrame}
  (h : blockedRestart arch sysno result = false)
include h

theorem finishTrap_retval : (finishTrap arch sysno sepc result frame).retval = result := by
  unfold finishTrap
  rw [h, if_neg (by decide)]
  split
  · exact TrapFrame.setRetval_retval frame result
  · exact TrapFrame.setRetval_retval frame result

theorem finishTrap_sepc : (finishTrap arch sysno sepc result frame).sepc =
      if stepsOver arch sysno result then sepc + 4 else frame.sepc := by
  unfold finishTrap
  rw [h, if_neg (by decide)]
  split <;> rfl

end

/-- The two calls that choose where to resume are never restarted. -/
theorem not_restarted (arch : Arch) (result : UInt64)
    (h : sysno = sysExecve ∨ sysno = sysRtSigreturn) :
    blockedRestart arch sysno result = false := by
  have hlist : (restartable arch).contains sysno = false := by
    rcases h with rfl | rfl <;> cases arch <;> decide
  rw [blockedRestart, hlist, Bool.and_false]

end TrapHandler
