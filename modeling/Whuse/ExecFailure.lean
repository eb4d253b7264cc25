import Whuse.ExecCall

/-! What a failed `execve` leaves behind. Everything up to the replacement of the caller's image
is undone by doing nothing; an error after it leaves the caller in an empty image. -/
namespace ExecFailure

open Option
open AddressSpace ElfLoader TrapHandler TaskScheduler ProcessTable ProcessTable.Table ProcessCalls
open ExecCall TrapReturn
open CallRuns (board boardHeap)

/-- The caller `p` of `t` against its entry `q` of `u`. -/
structure Untouched (hal : HalMemory) (p : Process) (t : Table) (q : Process) (u : Table) :
    Prop where
  mappings : (u.machine q).space.mappings = (t.machine p).space.mappings
  bytes : ∀ heap addr len,
    readBytes hal heap addr len (u.machine q) = readBytes hal heap addr len (t.machine p)
  fds : q.fds = p.fds
  signalActions : q.signalActions = p.signalActions
  signalMask : q.signalMask = p.signalMask
  pendingSignals : q.pendingSignals = p.pendingSignals
  trapFrame : q.trapFrame = p.trapFrame

structure NoEffect (hal : HalMemory) (p : Process) (t u : Table) : Prop where
  threads : u.groupTids p.tgid = t.groupTids p.tgid
  caller : ∃ q, u.current = .ok q ∧ Untouched hal p t q u

theorem NoEffect.refl {hal : HalMemory} {p : Process} {t : Table} (h : t.current = .ok p) :
    NoEffect hal p t t :=
  ⟨rfl, p, h, ⟨rfl, fun _ _ _ => rfl, rfl, rfl, rfl, rfl, rfl⟩⟩

section Failure

variable (hal : HalMemory) (heaps : ExecHeaps)

def freshMachine (p : Process) (t : Table) : Machine :=
  let t := t.dropEntries ((t.groupTids p.tgid).filter (· != p.tid))
  let (p, t) := t.unshareSpace hal heaps.clone p
  userStackMapping hal heaps.stack (clear (t.machine p))

def ImageLoads (M : Machine) : ExecImage → Prop
  | .builtin program => (mapImage hal heaps program M).1 = .ok ()
  | .elf req => ∀ e, (loadImage hal req M).1 ≠ .error (.errno e)

/-- Whatever the path leads to can be put in place of the caller's image. -/
def Placeable (files : ExecFiles) (args : ExecArgs) (p : Process) (t : Table) : Prop :=
  ∀ image, resolveImage files heaps args = some (.ok image) →
    ImageLoads hal heaps (freshMachine hal heaps p t) image

variable {hal heaps} {t : Table} {p : Process} {k : KernelState} {image : ExecImage}

variable (hal heaps) in
theorem resetCaller_spec (entry : UInt64) (h : t.current = .ok p) :
    ∃ q u, resetCaller hal heaps entry t = (.ok (), u) ∧ u.current = .ok q ∧
      u.machine q = freshMachine hal heaps p t ∧ q.trapFrame.syscallNumber = 0 := by
  unfold resetCaller Table.execveCurrentImage freshMachine
  simp only [h]
  generalize t.dropEntries ((t.groupTids p.tgid).filter (· != p.tid)) = d
  generalize d.unshareSpace hal heaps.clone p = u
  let kept := u.1.fds.filter fun _ handle => !handle.flags.testBit cloexecBit
  refine ⟨{ resetProcess entry none { u.1 with fds := kept } with
    isThread := false, pid := u.1.tgid }, _, rfl, ?_, ?_, rfl⟩
  · simp [Table.current, kept]
  · simp [Table.machine, Table.putMachine, resetProcess]

theorem placeImage_loads {k' : KernelState} {r : KernelResult ℕ} (h : k.table.current = .ok p)
    (hload : ImageLoads hal heaps (freshMachine hal heaps p k.table) image)
    (hr : placeImage hal heaps image k = some (r, k')) : r = .ok 0 := by
  cases image with
  | builtin program =>
    obtain ⟨q, u, hreset, hq, hfresh, -⟩ := resetCaller_spec hal heaps (builtinEntry program) h
    simp only [placeImage, placeBuiltin, hreset, hq, hfresh] at hr
    rcases hmap : mapImage hal heaps program (freshMachine hal heaps p k.table) with ⟨o, M⟩
    simp only [ImageLoads, hmap] at hload
    subst hload
    simp only [hmap, some.injEq, Prod.mk.injEq] at hr
    exact hr.1.symm
  | elf req =>
    obtain ⟨q, u, hreset, hq, hfresh, -⟩ := resetCaller_spec hal heaps 0 h
    simp only [placeImage, placeElf, hreset, hq, hfresh] at hr
    rcases hrun : loadImage hal req (freshMachine hal heaps p k.table) with ⟨o, M⟩
    simp only [ImageLoads, hrun] at hload
    rw [hrun] at hr
    rcases o with (e | - | -) | loaded
    · exact absurd rfl (hload e)
    · cases hr
    · cases hr
    · simp only [some.injEq, Prod.mk.injEq] at hr
      exact hr.1.symm

theorem placeImage_fails (h : k.table.current = .ok p)
    (hload : ¬ ImageLoads hal heaps (freshMachine hal heaps p k.table) image) :
    ∃ e k' q, placeImage hal heaps image k = some (.error e, k') ∧ k'.table.current = .ok q ∧
      q.trapFrame.syscallNumber = 0 := by
  cases image with
  | builtin program =>
    obtain ⟨q, u, hreset, hq, hfresh, hzero⟩ := resetCaller_spec hal heaps (builtinEntry program) h
    rcases hmap : mapImage hal heaps program (freshMachine hal heaps p k.table) with ⟨o, M⟩
    simp only [ImageLoads, hmap] at hload
    cases o with
    | ok => exact absurd rfl hload
    | error e =>
      refine ⟨efault, { k with table := u.putMachine q M }, q, ?_, hq, hzero⟩
      simp [placeImage, placeBuiltin, hreset, hq, hfresh, hmap]
  | elf req =>
    obtain ⟨q, u, hreset, hq, hfresh, hzero⟩ := resetCaller_spec hal heaps 0 h
    simp only [ImageLoads, not_forall, not_not] at hload
    obtain ⟨e, he⟩ := hload
    rcases hrun : loadImage hal req (freshMachine hal heaps p k.table) with ⟨o, M⟩
    rw [hrun] at he
    subst he
    refine ⟨if e = enoexec then enoexec else efault, { k with table := u.putMachine q M }, q, ?_,
      hq, hzero⟩
    simp [placeImage, placeElf, hreset, hq, hfresh, hrun]

/-- A failed `execve` has no effect exactly when no image is found that cannot be put in place
of the caller's. -/
theorem failed_execve_no_effect_iff (hal : HalMemory) (heaps : ExecHeaps) (files : ExecFiles)
    (args : ExecArgs) (k : KernelState) (p : Process) (h : k.table.current = .ok p)
    (hs : p.trapFrame.syscallNumber = TrapHandler.sysExecve) :
    (∀ e k', ExecCall.sysExecve hal heaps files args k = some (.error e, k') →
      NoEffect hal p k.table k'.table) ↔ Placeable hal heaps files args p k.table := by
  constructor
  · intro hall image hres
    by_contra hload
    obtain ⟨e, k', q, hplace, hq, hzero⟩ := placeImage_fails h hload
    have hx : ExecCall.sysExecve hal heaps files args k = some (.error e, k') := by
      simp [ExecCall.sysExecve, h, hres, hplace]
    -- the reset frame no longer names the call
    obtain ⟨-, r, hr, hsame⟩ := hall e k' hx
    obtain rfl := Except.ok.inj (hq.symm.trans hr)
    rw [hsame.trapFrame, hs] at hzero
    exact absurd hzero (by decide)
  · intro hplace e k' hx
    rcases sysExecve_cases hx with ⟨e', hrefused⟩ | ⟨q, image, hq, hres, hx⟩
    · cases hrefused
      exact NoEffect.refl h
    · cases placeImage_loads h (hplace image hres) hx

end Failure

def refusing : Heap := ⟨fun _ => false, 0, id⟩

def badHeaps : ExecHeaps where
  clone := boardHeap
  stack := refusing
  image := boardHeap
  trampoline := boardHeap
  program := ⟨fun _ => true, fun _ => boardHeap⟩
  interp := ⟨fun _ => true, fun _ => boardHeap⟩
  loadStack := refusing
  fuel := 8
  trampolineCode := []

def badFiles : ExecFiles where
  cwdImage := fun _ => .ok [7]
  rootImage := fun _ => .ok [7]
  shellAccess := false
  absolutePath := id
  builtinProgram := fun _ => none
  payload := fun _ => none
  shebang := fun _ => none
  elfInterp := fun _ => none

def badArgs : ExecArgs := ⟨.ok "/a", .ok [], .ok []⟩

def caller : Process :=
  { newProcess 1 none 0 0 with
    fds := (∅ : Std.ExtTreeMap ℤ PipeObjects.FileHandle).insert 3 ⟨0, 2 ^ cloexecBit, .none⟩
    trapFrame := { TrapFrame.newUser 0x1000 0 with
      regs := Function.update (fun _ => 0) 17 TrapHandler.sysExecve } }

def callerKernel : KernelState where
  table :=
    let M := (mapFixedBytes board boardHeap 0x10000 [7] 0x1000 3 ⟨newUser board, fun _ => 0⟩).2
    { nextPid := 3
      currentTid := 1
      processes := ((∅ : Std.ExtTreeMap ℕ Process).insert 1 caller).insert 2
        { newProcess 2 none 0 0 with tgid := 1, isThread := true }
      futexWaiters := ∅
      spaces := fun _ => M.space
      nextSpace := 1
      mem := M.mem }
  scheduler := .new

theorem callerKernel_current : callerKernel.table.current = .ok caller := by
  have hget : callerKernel.table.processes[1]? = some caller := by
    rfl
  simp [Table.current, show callerKernel.table.currentTid = 1 from rfl, hget]

def errorOf : KernelResult ℕ → Option ℕ
  | .ok _ => none
  | .error e => some e

def seen (t : Table) : List ℕ × Option (Option (List UInt8) × Bool × UInt64) :=
  (t.groupTids 1, t.current.toOption.map fun p =>
    ((readBytes board boardHeap 0x10000 1 (t.machine p)).toOption,
      p.fds.contains 3, p.trapFrame.syscallNumber))

/-- `ENOEXEC` comes back to a caller without its page, its descriptor and its second thread. -/
theorem malformed_execve_resets_caller :
    seen callerKernel.table = ([1, 2], some (some [7], true, 221)) ∧
    (ExecCall.sysExecve board badHeaps badFiles badArgs callerKernel).map
      (fun o => errorOf o.1) = some (some enoexec) ∧
    (ExecCall.sysExecve board badHeaps badFiles badArgs callerKernel).map
      (fun o => seen o.2.table) = some ([1], some (none, false, 0)) := by
  decide +kernel

/-- A path that is not readable is refused before anything changes. -/
theorem failed_execve_no_effect_iff_unreadable :
    caller.trapFrame.syscallNumber = TrapHandler.sysExecve ∧
    ∀ e k', ExecCall.sysExecve board badHeaps badFiles ⟨.error efault, .ok [], .ok []⟩
        callerKernel = some (.error e, k') →
      NoEffect board caller callerKernel.table k'.table := by
  refine ⟨by decide, (failed_execve_no_effect_iff board badHeaps badFiles
    ⟨.error efault, .ok [], .ok []⟩ callerKernel caller callerKernel_current (by decide)).mpr ?_⟩
  intro image hres
  cases hres

end ExecFailure
