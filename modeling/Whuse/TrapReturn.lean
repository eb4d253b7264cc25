import Whuse.ElfLoader
import Whuse.TrapHandler

/-! Where a system call resumes. `execve` and `rt_sigreturn` write the program counter
themselves; the handler must step over every other call, and over these two when they fail. -/
namespace TrapReturn

open AddressSpace CallRuns ElfLoader TrapHandler Option

structure Task where
  frame : TrapFrame
  machine : Machine
  signalMask : UInt64
  signalFramePending : Bool
  cancelSignalSeen : Bool
  cancellationInProgress : Bool

structure BuiltinProgram where
  entry : UInt64
  image : List UInt8

inductive ExecImage where
  | builtin (program : BuiltinProgram)
  | elf (req : LoadRequest)

/-- What the calls ask of the rest of the kernel. Calls other than the two may answer anything
and change the task in any way; `none` is a call that does not return. -/
structure Kernel where
  resolve : Task → Except Errno ExecImage
  spaceShared : Bool
  cloneHeap : Heap
  stackHeap : Heap
  imageHeap : Heap
  trampolineHeap : Heap
  frameHeap : Heap
  trampolineCode : List UInt8
  other : UInt64 → Task → Option (SyscallResult × Task)

def builtinExecBase : ℕ := 0x800000
def signalTrampolineBase : ℕ := 0x7ff00000

section Calls

variable (hal : HalMemory) (kernel : Kernel)

def resetImage (entry : UInt64) (stackPointer : Option UInt64) (task : Task) : Task :=
  let cleared := clear task.machine
  let mapped := mapFixedBytes hal kernel.stackHeap (userStackTop - userStackSize) [] userStackSize
    0b11 cleared
  { frame := TrapFrame.newUser entry (stackPointer.getD (UInt64.ofNat (userStackTop - 16)))
    machine := mapped.2
    signalMask := 0
    signalFramePending := false
    cancelSignalSeen := false
    cancellationInProgress := false }

/-- The part of `execve_current_image` that concerns the calling task. -/
def execveCurrentImage (entry : UInt64) (stackPointer : Option UInt64) (task : Task) : Task :=
  let machine := if kernel.spaceShared then
    { task.machine with space := clonePrivate hal kernel.cloneHeap task.machine.space }
    else task.machine
  resetImage hal kernel entry stackPointer { task with machine := machine }

def mapTrampoline (task : Task) : Task :=
  { task with machine := (mapFixedBytes hal kernel.trampolineHeap signalTrampolineBase
      kernel.trampolineCode 4096 0b101 task.machine).2 }

def builtinEntry (program : BuiltinProgram) : UInt64 := UInt64.ofNat builtinExecBase + program.entry

def mapBuiltin (program : BuiltinProgram) (M : Machine) : KernelResult Unit × Machine :=
  mapFixedBytes hal kernel.imageHeap builtinExecBase program.image program.image.length 0b101 M

def execBuiltin (program : BuiltinProgram) (task : Task) : SyscallResult × Task :=
  let entry := builtinEntry program
  let task := execveCurrentImage hal kernel entry none task
  match mapBuiltin hal kernel program task.machine with
  | (.error _, M) => (.error .efault, { task with machine := M })
  | (.ok (), M) =>
    let task := mapTrampoline hal kernel { task with machine := M }
    (.ok 0, { task with frame := { task.frame with sepc := entry } })

def runElf (req : LoadRequest) (task : Task) : Except Stop LoadedImage × Machine :=
  (loadElfImages hal req).run.run (execveCurrentImage hal kernel 0 none task).machine

def execElf (req : LoadRequest) (task : Task) : Option (SyscallResult × Task) :=
  let reset := execveCurrentImage hal kernel 0 none task
  match runElf hal kernel req task with
  | (.error (.errno e), M) =>
    some (.error (if e = enoexec then .enoexec else .efault), { reset with machine := M })
  | (.error .panic, _) => none
  | (.error .running, _) => none
  | (.ok loaded, M) =>
    let frame := { reset.frame with
      sepc := UInt64.ofNat loaded.entry
      regs := Function.update reset.frame.regs 2 (UInt64.ofNat loaded.stackPointer) }
    some (.ok 0, mapTrampoline hal kernel { reset with frame := frame, machine := M })

def execve (task : Task) : Option (SyscallResult × Task) :=
  match kernel.resolve task with
  | .error e => some (.error e, task)
  | .ok (.builtin program) => some (execBuiltin hal kernel program task)
  | .ok (.elf req) => execElf hal kernel req task

def frameSize : ℕ := 816
def ucSigmaskOff : ℕ := 128 + 40
def mctxOff : ℕ := 128 + 168
def mctxFpOff : ℕ := mctxOff + 32 * 8
def mctxDFcsrOff : ℕ := mctxFpOff + 32 * 8

def readWord (width : ℕ) (frame : List UInt8) (off : ℕ) : UInt64 :=
  UInt64.ofNat (fromLeBytes ((frame.drop off).take width))

def storedReg (frame : List UInt8) (i : ℕ) : UInt64 := readWord 8 frame (mctxOff + i * 8)

def storedPc (frame : List UInt8) : UInt64 := readWord 8 frame mctxOff

def signalFrame (task : Task) : KernelResult (List UInt8) :=
  readBytes hal kernel.frameHeap (task.frame.regs 2).toNat frameSize task.machine

def restoreFrame (arch : Arch) (stored : List UInt8) (frame : TrapFrame) : TrapFrame :=
  { regs := fun i => if i = 0 then frame.regs 0 else storedReg stored i
    sepc := storedPc stored
    fregs := match arch with
      | .riscv64 => fun i => readWord 8 stored (mctxFpOff + i * 8)
      | .loongarch64 => frame.fregs
    fcsr := match arch with
      | .riscv64 => readWord 4 stored mctxDFcsrOff
      | .loongarch64 => frame.fcsr }

def rtSigreturn (arch : Arch) (task : Task) : SyscallResult × Task :=
  match signalFrame hal kernel task with
  | .error _ => (.error .efault, task)
  | .ok stored =>
    let frame := restoreFrame arch stored task.frame
    (.ok (frame.regs 10),
      { frame := frame
        machine := task.machine
        signalMask := readWord 8 stored ucSigmaskOff
        signalFramePending := false
        cancelSignalSeen := false
        cancellationInProgress := task.cancelSignalSeen || task.cancellationInProgress })

def dispatch (arch : Arch) (sysno : UInt64) (task : Task) : Option (SyscallResult × Task) :=
  if sysno = sysExecve then execve hal kernel task
  else if sysno = sysRtSigreturn then some (rtSigreturn hal kernel arch task)
  else kernel.other sysno task

/-- The task that resumes, from the trapped task and the one the call left. -/
def finishTask (arch : Arch) (task : Task) (r : SyscallResult) (after : Task) : Task :=
  let frame := finishTrap arch task.frame.syscallNumber task.frame.sepc (encode r) after.frame
  { after with frame := frame }

def handleTrap (arch : Arch) (task : Task) : Option (SyscallResult × Task) :=
  match dispatch hal kernel arch task.frame.syscallNumber task with
  | none => none
  | some (r, after) => some (r, finishTask arch task r after)

def Succeeded (r : SyscallResult) : Prop := ∃ v, r = .ok v

def LoadedEntry (task : Task) (entry : UInt64) : Prop :=
  (∃ program, kernel.resolve task = .ok (.builtin program) ∧ entry = builtinEntry program) ∨
  ∃ req loaded, kernel.resolve task = .ok (.elf req) ∧
    (runElf hal kernel req task).1 = .ok loaded ∧ entry = UInt64.ofNat loaded.entry

structure ReturnsTo (task : Task) (r : SyscallResult) (after : Task) (arch : Arch) : Prop where
  stepped : ¬ (Succeeded r ∧ (task.frame.syscallNumber = sysExecve ∨
      task.frame.syscallNumber = sysRtSigreturn)) →
    blockedRestart arch task.frame.syscallNumber (encode r) = false →
    after.frame.sepc = task.frame.sepc + 4 ∧ after.frame.retval = encode r
  entered : task.frame.syscallNumber = sysExecve → Succeeded r →
    LoadedEntry hal kernel task after.frame.sepc
  restored : task.frame.syscallNumber = sysRtSigreturn → Succeeded r →
    ∃ stored, signalFrame hal kernel task = .ok stored ∧
      after.frame.sepc = storedPc stored ∧ after.frame.retval = storedReg stored 10

def ReturnLaw (arch : Arch) (task : Task) : Prop :=
  ∀ r after, handleTrap hal kernel arch task = some (r, after) →
    ReturnsTo hal kernel task r after arch

/-- Whether the image the path resolves to can be put in place; the alternatives are the
addresses at which a failure resumes at the next instruction by coincidence. -/
def ImageLoads (task : Task) : Prop :=
  match kernel.resolve task with
  | .error _ => False
  | .ok (.builtin program) =>
    (mapBuiltin hal kernel program
        (execveCurrentImage hal kernel (builtinEntry program) none task).machine).1 = .ok () ∨
      builtinEntry program = task.frame.sepc + 4
  | .ok (.elf req) =>
    (∀ e, (runElf hal kernel req task).1 ≠ .error (.errno e)) ∨ task.frame.sepc + 4 = 0

def ResumeSafe (arch : Arch) (task : Task) : Prop :=
  match arch with
  | .riscv64 => (task.frame.syscallNumber = sysExecve → ImageLoads hal kernel task) ∧
      (task.frame.syscallNumber = sysRtSigreturn →
        ∃ stored, signalFrame hal kernel task = .ok stored)
  | .loongarch64 => task.frame.syscallNumber = sysRtSigreturn →
      ∀ stored, signalFrame hal kernel task = .ok stored →
        asI32Negative (storedReg stored 10) = false ∨ storedPc stored = task.frame.sepc + 4

end Calls

variable {r : SyscallResult} {after out : Task}

section Law

variable {hal : HalMemory} {kernel : Kernel} {arch : Arch} {task : Task}

/-- How an `execve` ends, with the program counter it leaves in the frame. -/
inductive ExecveEnd (hal : HalMemory) (kernel : Kernel) (task : Task) :
    SyscallResult → UInt64 → Prop where
  | refused {e : Errno} (h : kernel.resolve task = .error e) :
      ExecveEnd hal kernel task (.error e) task.frame.sepc
  | builtinFailed {program : BuiltinProgram} {e : ℕ}
      (h : kernel.resolve task = .ok (.builtin program))
      (hmap : (mapBuiltin hal kernel program
        (execveCurrentImage hal kernel (builtinEntry program) none task).machine).1 = .error e) :
      ExecveEnd hal kernel task (.error .efault) (builtinEntry program)
  | builtin {program : BuiltinProgram} (h : kernel.resolve task = .ok (.builtin program))
      (hmap : (mapBuiltin hal kernel program
        (execveCurrentImage hal kernel (builtinEntry program) none task).machine).1 = .ok ()) :
      ExecveEnd hal kernel task (.ok 0) (builtinEntry program)
  | elfFailed {req : LoadRequest} {e : ℕ} (r : Errno) (h : kernel.resolve task = .ok (.elf req))
      (hload : (runElf hal kernel req task).1 = .error (.errno e)) :
      ExecveEnd hal kernel task (.error r) 0
  | elf {req : LoadRequest} {loaded : LoadedImage} (h : kernel.resolve task = .ok (.elf req))
      (hload : (runElf hal kernel req task).1 = .ok loaded) :
      ExecveEnd hal kernel task (.ok 0) (UInt64.ofNat loaded.entry)

theorem execBuiltin_end {program : BuiltinProgram}
    (h : kernel.resolve task = .ok (.builtin program)) :
    ExecveEnd hal kernel task (execBuiltin hal kernel program task).1
      (execBuiltin hal kernel program task).2.frame.sepc := by
  unfold execBuiltin
  simp only
  rcases hmap : mapBuiltin hal kernel program
    (execveCurrentImage hal kernel (builtinEntry program) none task).machine with ⟨r, M⟩
  cases r with
  | error e => exact .builtinFailed h (congrArg Prod.fst hmap)
  | ok => exact .builtin h (congrArg Prod.fst hmap)

theorem execElf_end {req : LoadRequest} (h : kernel.resolve task = .ok (.elf req))
    (hx : execElf hal kernel req task = some (r, after)) :
    ExecveEnd hal kernel task r after.frame.sepc := by
  unfold execElf at hx
  rcases hload : runElf hal kernel req task with ⟨loadResult, M⟩
  rw [hload] at hx
  cases loadResult with
  | error stop =>
    cases stop with
    | errno e =>
      obtain ⟨rfl, rfl⟩ := Prod.mk.inj (some.inj hx)
      exact .elfFailed _ h (congrArg Prod.fst hload)
    | panic => cases hx
    | running => cases hx
  | ok loaded =>
    obtain ⟨rfl, rfl⟩ := Prod.mk.inj (some.inj hx)
    exact .elf h (congrArg Prod.fst hload)

theorem execve_end (hx : execve hal kernel task = some (r, after)) :
    ExecveEnd hal kernel task r after.frame.sepc := by
  unfold execve at hx
  split at hx
  · next e he =>
    obtain ⟨rfl, rfl⟩ := Prod.mk.inj (some.inj hx)
    exact .refused he
  · next program he =>
    have hend : ExecveEnd hal kernel task (execBuiltin hal kernel program task).1
      (execBuiltin hal kernel program task).2.frame.sepc := execBuiltin_end he
    rw [some.inj hx] at hend
    exact hend
  · next req he => exact execElf_end he hx

theorem handleTrap_eq_some (h : handleTrap hal kernel arch task = some (r, after)) :
    ∃ out, dispatch hal kernel arch task.frame.syscallNumber task = some (r, out) ∧
      after = finishTask arch task r out := by
  unfold handleTrap at h
  split at h
  · cases h
  · next r' out hd =>
    obtain ⟨rfl, rfl⟩ := Prod.mk.inj (some.inj h)
    exact ⟨out, hd, rfl⟩

theorem handleTrap_of_dispatch
    (h : dispatch hal kernel arch task.frame.syscallNumber task = some (r, out)) :
    handleTrap hal kernel arch task = some (r, finishTask arch task r out) := by
  unfold handleTrap
  simp [h]

theorem returnLaw_of_other (hexec : task.frame.syscallNumber ≠ sysExecve)
    (hret : task.frame.syscallNumber ≠ sysRtSigreturn) : ReturnLaw hal kernel arch task := by
  intro r after h
  obtain ⟨out, _, rfl⟩ := handleTrap_eq_some h
  refine ⟨fun _ hrun => ?_, fun he => absurd he hexec, fun he => absurd he hret⟩
  have hstep : stepsOver arch task.frame.syscallNumber (encode r) = true := by
    cases arch <;> simp [stepsOver, hexec, hret]
  refine ⟨?_, finishTrap_retval hrun⟩
  rw [finishTask, finishTrap_sepc hrun, hstep, if_pos rfl]

theorem ne_add_four (x : UInt64) : x ≠ x + 4 := by
  intro h
  have hnat := congrArg UInt64.toNat h
  change x.toNat = (x.toNat + 4) % 2 ^ 64 at hnat
  omega

theorem finishTask_special (arch : Arch)
    (h : task.frame.syscallNumber = sysExecve ∨ task.frame.syscallNumber = sysRtSigreturn)
    (r : SyscallResult) (out : Task) :
    (finishTask arch task r out).frame.sepc =
        (if arch == .loongarch64 && asI32Negative (encode r) then task.frame.sepc + 4
          else out.frame.sepc) ∧
      (finishTask arch task r out).frame.retval = encode r := by
  have hrun := not_restarted arch (encode r) h
  have hsteps : stepsOver arch task.frame.syscallNumber (encode r) =
      (arch == .loongarch64 && asI32Negative (encode r)) := by
    rcases h with h | h <;> rw [h] <;> cases arch <;> rfl
  refine ⟨?_, finishTrap_retval hrun⟩
  rw [finishTask, finishTrap_sepc hrun, hsteps]

theorem finishTask_failed (arch : Arch)
    (h : task.frame.syscallNumber = sysExecve ∨ task.frame.syscallNumber = sysRtSigreturn)
    (e : Errno) (out : Task) :
    (finishTask arch task (.error e) out).frame.sepc =
      if arch == .loongarch64 then task.frame.sepc + 4 else out.frame.sepc := by
  rw [(finishTask_special arch h _ _).1, asI32Negative_error, Bool.and_true]

theorem execve_ne_rtSigreturn : sysExecve ≠ sysRtSigreturn := by decide

theorem not_succeeded_error (e : Errno) : ¬ Succeeded (.error e) := by
  rintro ⟨v, hv⟩
  cases hv

theorem dispatch_execve (hs : task.frame.syscallNumber = sysExecve) :
    dispatch hal kernel arch task.frame.syscallNumber task = execve hal kernel task := by
  rw [dispatch, if_pos hs]

/-- An `execve` obeys the law exactly when a failure on riscv64 leaves the next instruction in
the frame. -/
theorem execve_returnsTo_iff (hs : task.frame.syscallNumber = sysExecve)
    (hend : ExecveEnd hal kernel task r out.frame.sepc) :
    ReturnsTo hal kernel task r (finishTask arch task r out) arch ↔
      (arch = .riscv64 → ∀ e, r = .error e → out.frame.sepc = task.frame.sepc + 4) := by
  have hrun := not_restarted arch (encode r) (.inl hs)
  have hspecial := finishTask_special arch (.inl hs) r out
  constructor
  · rintro hlaw rfl e rfl
    have hpc := (hlaw.stepped (fun h => not_succeeded_error e h.1) hrun).1
    rw [finishTask_failed _ (.inl hs)] at hpc
    exact hpc
  · intro hpc
    refine ⟨fun hnot _ => ⟨?_, hspecial.2⟩, fun _ hsucc => ?_, fun hret _ => ?_⟩
    · cases r with
      | ok v => exact absurd ⟨⟨v, rfl⟩, .inl hs⟩ hnot
      | error e =>
        rw [finishTask_failed arch (.inl hs)]
        cases arch with
        | riscv64 => exact hpc rfl e rfl
        | loongarch64 => rfl
    · obtain ⟨v, rfl⟩ := hsucc
      have hzero : asI32Negative (encode (.ok 0)) = false := by decide
      rw [hspecial.1]
      generalize out.frame.sepc = pc at hend ⊢
      cases hend with
      | builtin h _ =>
        rw [hzero, Bool.and_false]
        exact .inl ⟨_, h, rfl⟩
      | elf h hload =>
        rw [hzero, Bool.and_false]
        exact .inr ⟨_, _, h, hload, rfl⟩
    · rw [hs] at hret
      cases hret

theorem imageLoads_iff :
    ImageLoads hal kernel task ↔ ∀ r out e, execve hal kernel task = some (r, out) →
      r = .error e → out.frame.sepc = task.frame.sepc + 4 := by
  constructor
  · rintro hloads r out e hx rfl
    have hend := execve_end hx
    generalize out.frame.sepc = pc at hend
    unfold ImageLoads at hloads
    cases hend with
    | refused h => rw [h] at hloads; exact hloads.elim
    | builtinFailed h hmap =>
      rw [h] at hloads
      rcases hloads with hok | hpc
      · rw [hmap] at hok
        cases hok
      · exact hpc
    | elfFailed r h hload =>
      rw [h] at hloads
      rcases hloads with hok | hpc
      · exact absurd hload (hok _)
      · exact hpc.symm
  · intro hall
    unfold ImageLoads
    rcases hres : kernel.resolve task with e | image
    · have hx : execve hal kernel task = some (.error e, task) := by rw [execve, hres]
      exact ne_add_four _ (hall _ _ e hx rfl)
    cases image with
    | builtin program =>
      have hx : execve hal kernel task = some (execBuiltin hal kernel program task) := by
        rw [execve, hres]
      simp only
      rcases hmap : mapBuiltin hal kernel program
        (execveCurrentImage hal kernel (builtinEntry program) none task).machine with ⟨r, M⟩
      cases r with
      | ok => exact .inl rfl
      | error e =>
        refine .inr ?_
        have hpc := hall _ _ .efault hx
        simp only [hmap] at hpc
        exact hpc trivial
    | elf req =>
      have hx : execve hal kernel task = execElf hal kernel req task := by rw [execve, hres]
      by_cases hfail : ∃ e, (runElf hal kernel req task).1 = .error (.errno e)
      · obtain ⟨e, he⟩ := hfail
        refine .inr ?_
        unfold execElf at hx
        rcases hload : runElf hal kernel req task with ⟨r, M⟩
        rw [hload] at he
        subst he
        simp only [hload] at hx
        exact (hall _ _ _ hx rfl).symm
      · exact .inl fun e he => hfail ⟨e, he⟩

theorem execve_law_iff (hs : task.frame.syscallNumber = sysExecve) :
    ReturnLaw hal kernel arch task ↔ (arch = .riscv64 → ImageLoads hal kernel task) := by
  rw [imageLoads_iff]
  constructor
  · intro hlaw harch r out e hx he
    have hd : dispatch hal kernel arch task.frame.syscallNumber task = some (r, out) := by
      rw [dispatch_execve hs, hx]
    exact (execve_returnsTo_iff hs (execve_end hx)).mp
      (hlaw _ _ (handleTrap_of_dispatch hd)) harch e he
  · intro hpc r after h
    obtain ⟨out, hd, rfl⟩ := handleTrap_eq_some h
    rw [dispatch_execve hs] at hd
    exact (execve_returnsTo_iff hs (execve_end hd)).mpr fun harch e he => hpc harch r out e hd he

theorem dispatch_rtSigreturn (hs : task.frame.syscallNumber = sysRtSigreturn) :
    dispatch hal kernel arch task.frame.syscallNumber task =
      some (rtSigreturn hal kernel arch task) := by
  rw [dispatch, hs, if_neg (by decide), if_pos rfl]

theorem rtSigreturn_law (hs : task.frame.syscallNumber = sysRtSigreturn) :
    ReturnLaw hal kernel arch task ↔ ReturnsTo hal kernel task (rtSigreturn hal kernel arch task).1
      (finishTask arch task (rtSigreturn hal kernel arch task).1
        (rtSigreturn hal kernel arch task).2) arch := by
  constructor
  · intro hlaw
    exact hlaw _ _ (handleTrap_of_dispatch (dispatch_rtSigreturn hs))
  · intro hreturns r after h
    obtain ⟨out, hd, rfl⟩ := handleTrap_eq_some h
    rw [dispatch_rtSigreturn hs] at hd
    obtain rfl : (rtSigreturn hal kernel arch task).1 = r := congrArg Prod.fst (some.inj hd)
    obtain rfl : (rtSigreturn hal kernel arch task).2 = out := congrArg Prod.snd (some.inj hd)
    exact hreturns

theorem rtSigreturn_unreadable_iff (hs : task.frame.syscallNumber = sysRtSigreturn) (e : Errno) :
    ReturnsTo hal kernel task (.error e) (finishTask arch task (.error e) task) arch ↔
      arch = .loongarch64 := by
  have hpc := finishTask_failed arch (.inr hs) e task
  constructor
  · intro hlaw
    have hstep := (hlaw.stepped (fun h => not_succeeded_error e h.1)
      (not_restarted arch _ (.inr hs))).1
    cases arch with
    | riscv64 => exact absurd (hpc.symm.trans hstep) (ne_add_four _)
    | loongarch64 => rfl
  · rintro rfl
    refine ⟨fun _ _ => ⟨hpc, (finishTask_special _ (.inr hs) _ _).2⟩, fun _ hsucc => ?_,
      fun _ hsucc => ?_⟩
    · exact absurd hsucc (not_succeeded_error e)
    · exact absurd hsucc (not_succeeded_error e)

theorem rtSigreturn_restored_iff (hs : task.frame.syscallNumber = sysRtSigreturn)
    {stored : List UInt8} (hread : signalFrame hal kernel task = .ok stored)
    (hout : out.frame.sepc = storedPc stored) :
    ReturnsTo hal kernel task (.ok (storedReg stored 10))
        (finishTask arch task (.ok (storedReg stored 10)) out) arch ↔
      (arch = .loongarch64 → asI32Negative (storedReg stored 10) = false ∨
        storedPc stored = task.frame.sepc + 4) := by
  obtain ⟨hpc, hval⟩ := finishTask_special arch (.inr hs) (.ok (storedReg stored 10)) out
  rw [hout, encode] at hpc
  constructor
  · rintro hlaw rfl
    obtain ⟨stored', hread', hpc', _⟩ := hlaw.restored hs ⟨_, rfl⟩
    obtain rfl : stored = stored' := Except.ok.inj (hread.symm.trans hread')
    rw [hpc'] at hpc
    cases hneg : asI32Negative (storedReg stored 10) with
    | false => exact .inl rfl
    | true =>
      rw [hneg] at hpc
      exact .inr hpc
  · intro hsafe
    refine ⟨fun hnot => absurd ⟨⟨_, rfl⟩, .inr hs⟩ hnot, fun he => ?_,
      fun _ _ => ⟨stored, hread, ?_, hval⟩⟩
    · rw [hs] at he
      cases he
    · rw [hpc]
      cases arch with
      | riscv64 => rfl
      | loongarch64 =>
        rcases hsafe rfl with hneg | hnext
        · rw [hneg]
          rfl
        · rw [hnext, ite_self]

/-- The return law holds of a trap exactly when a riscv64 `execve` or `rt_sigreturn` does not
fail, and when the restored return register of loongarch64 does not look like an error code. -/
theorem return_law_iff (hal : HalMemory) (kernel : Kernel) (arch : Arch) (task : Task) :
    ReturnLaw hal kernel arch task ↔ ResumeSafe hal kernel arch task := by
  by_cases hexec : task.frame.syscallNumber = sysExecve
  · rw [execve_law_iff hexec]
    cases arch <;> simp [ResumeSafe, hexec, execve_ne_rtSigreturn]
  by_cases hret : task.frame.syscallNumber = sysRtSigreturn
  · rw [rtSigreturn_law hret]
    unfold rtSigreturn
    cases hread : signalFrame hal kernel task with
    | error e =>
      rw [rtSigreturn_unreadable_iff hret]
      cases arch <;> simp [ResumeSafe, hret, hread]
    | ok stored =>
      refine (rtSigreturn_restored_iff hret hread rfl).trans ?_
      cases arch <;> simp [ResumeSafe, hret, hread, execve_ne_rtSigreturn.symm]
  · refine ⟨fun _ => ?_, fun _ => returnLaw_of_other hexec hret⟩
    cases arch <;> simp [ResumeSafe, hexec, hret]

/-! Two traps that break the law: a path that names no file, and a stored register with its
bit 31 set. -/

def missingFile : Kernel where
  resolve := fun _ => .error .enoent
  spaceShared := false
  cloneHeap := boardHeap
  stackHeap := boardHeap
  imageHeap := boardHeap
  trampolineHeap := boardHeap
  frameHeap := boardHeap
  trampolineCode := []
  other := fun _ _ => none

def frameMemory : Memory := fun a =>
  if a = 0x80400000 + mctxOff + 1 then 0x20
  else if a = 0x80400000 + mctxOff + 10 * 8 + 3 then 0x80
  else 0

def trapped (sysno : UInt64) : Task where
  frame :=
    { regs := Function.update (fun _ => 0x10000) 17 sysno
      sepc := 0x1000
      fregs := fun _ => 0
      fcsr := 0 }
  machine := ⟨(mapFixedBytes board boardHeap 0x10000 [] 0x1000 3 ⟨newUser board, fun _ => 0⟩).2.space,
    frameMemory⟩
  signalMask := 0
  signalFramePending := false
  cancelSignalSeen := false
  cancellationInProgress := false

theorem failed_execve_and_sigreturn_misreturn :
    (handleTrap board missingFile .riscv64 (trapped sysExecve)).map
      (fun o => (encode o.1, o.2.frame.sepc)) = some (encode (.error .enoent), 0x1000) ∧
    ¬ ReturnLaw board missingFile .riscv64 (trapped sysExecve) ∧
    (handleTrap board missingFile .loongarch64 (trapped sysRtSigreturn)).map
      (fun o => (encode o.1, o.2.frame.sepc)) = some (0x80000000, 0x1004) ∧
    (signalFrame board missingFile (trapped sysRtSigreturn)).map storedPc = .ok 0x2000 ∧
    ¬ ReturnLaw board missingFile .loongarch64 (trapped sysRtSigreturn) := by
  refine ⟨by decide +kernel, fun hlaw => (execve_law_iff rfl).mp hlaw rfl, by decide +kernel,
    by decide +kernel, fun hlaw => ?_⟩
  have hstored : (signalFrame board missingFile (trapped sysRtSigreturn)).map
      (fun st => (storedPc st, asI32Negative (storedReg st 10))) = .ok (0x2000, true) := by
    decide +kernel
  have hreturns := (rtSigreturn_law rfl).mp hlaw
  unfold rtSigreturn at hreturns
  rcases hread : signalFrame board missingFile (trapped sysRtSigreturn) with e | stored
  · rw [hread] at hstored; cases hstored
  rw [hread] at hstored hreturns
  obtain ⟨hpc, hneg⟩ := Prod.mk.inj (Except.ok.inj hstored)
  rcases (rtSigreturn_restored_iff rfl hread rfl).mp hreturns rfl with h | h
  · rw [hneg] at h
    cases h
  · rw [hpc] at h
    exact absurd h (by decide)

end Law

end TrapReturn
