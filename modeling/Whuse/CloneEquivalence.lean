import Whuse.ExecFailure

/-! `clone3` against `clone`. Both are decoded by one function, which expects the registers of the
older call in the order of the machine; `clone3` fills them in one order on every machine. -/
namespace CloneEquivalence

open MachineWord AddressSpace TrapHandler ProcessTable ProcessCalls
open CallRuns (board boardHeap)

/-- The fields of the structure that a thread is made from. -/
structure CloneArgs where
  flags : ℕ
  childTid : ℕ
  parentTid : ℕ
  exitSignal : ℕ
  stack : ℕ
  stackSize : ℕ
  tls : ℕ
  deriving DecidableEq, Repr

def CloneArgs.request (c : CloneArgs) : CloneRequest where
  flags := c.flags ||| c.exitSignal
  stack := c.stack + c.stackSize
  parentTid := c.parentTid
  childTid := c.childTid
  tls := if c.flags &&& cloneSettls ≠ 0 then some c.tls else none

/-- The signal adds no flag, the stack ends at a word, and where the last two registers are
exchanged nothing changes by it. -/
structure Plain (arch : Arch) (c : CloneArgs) : Prop where
  signal : c.exitSignal &&& (c.flags ||| 0xff) = c.exitSignal
  stack : c.stackSize ≠ 0 → c.stack + c.stackSize ≤ usizeMax
  order : arch = .riscv64 → c.childTid = c.tls

variable {f s : ℕ}

variable (raw : List UInt8)

end CloneEquivalence
