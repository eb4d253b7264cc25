import Whuse.ByteFields
import Whuse.TrapReturn
import Whuse.UserMemory

/-! Signal frames on riscv64. Dispatching a signal with a handler stores the interrupted context
on the user stack; `rt_sigreturn` brings it back. -/
namespace SignalFrame

open Function List
open MachineWord IntervalTable AddressSpace MappingTable UserMemory ByteFields ElfLoader TrapHandler
  TrapReturn

structure SigAction where
  handler : UInt64
  restorer : UInt64
  mask : UInt64
  deriving DecidableEq

structure SignalTask where
  task : Task
  pendingSignals : UInt64
  signalActions : ℕ → SigAction

def trailingZeros (x : UInt64) : ℕ := ((List.range 64).find? fun i => x.toNat.testBit i).getD 64

inductive Dispatch where
  | idle
  | ignored
  /-- The default action ends the thread. -/
  | terminate (signum : ℕ)
  | failed
  | entered
  deriving DecidableEq, Repr

def siginfoOff : ℕ := 0
def ucontextOff : ℕ := 128
def mctxFpSize : ℕ := 264

def frameSp (sp : UInt64) : UInt64 := (sp - UInt64.ofNat frameSize) &&& ~~~ 0xf

def regWrites (off : ℕ) (regs : Fin 32 → UInt64) (indices : List (Fin 32)) : List (Write UInt8) :=
  indices.map fun i => (off + i.val * 8, leBytes 8 (regs i).toNat)

def maskWrite (task : Task) : Write UInt8 := (ucSigmaskOff, leBytes 8 task.signalMask.toNat)

def pcWrite (task : Task) : Write UInt8 := (mctxOff, leBytes 8 task.frame.sepc.toNat)

def fcsrWrite (task : Task) : Write UInt8 := (mctxDFcsrOff, leBytes 4 task.frame.fcsr.toNat)

/-- The writes into the frame, in the order the kernel makes them. -/
def frameWrites (signum : ℕ) (task : Task) : List (Write UInt8) :=
  [(siginfoOff, leBytes 4 signum), (ucSigmaskOff, List.replicate 128 0)] ++
  (maskWrite task :: pcWrite task :: regWrites mctxOff task.frame.regs (List.finRange 32).tail) ++
  ((mctxFpOff, List.replicate mctxFpSize 0) ::
    (regWrites mctxFpOff task.frame.fregs (List.finRange 32) ++ [fcsrWrite task]))

def frameBytes (signum : ℕ) (task : Task) : List UInt8 :=
  putAll (List.replicate frameSize 0) (frameWrites signum task)

def writeFrame (hal : HalMemory) (signum : ℕ) (task : Task) : KernelResult Unit × Machine :=
  writeBytes hal (frameSp (task.frame.regs 2)).toNat (frameBytes signum task) task.machine

def handlerFrame (signum : ℕ) (action : SigAction) (frame : TrapFrame) : TrapFrame :=
  let base := frameSp (frame.regs 2)
  let restorer := if action.restorer > 0x1000 ∧ action.restorer < 0x8000000000000000 then
    action.restorer else UInt64.ofNat signalTrampolineBase
  { frame with
    regs := update (update (update (update (update
      frame.regs 2 base) 10 (UInt64.ofNat signum)) 11 (base + UInt64.ofNat siginfoOff))
      12 (base + UInt64.ofNat ucontextOff)) 1 restorer
    sepc := action.handler }

def unmaskedSignals (t : SignalTask) : UInt64 := t.pendingSignals &&& ~~~ t.task.signalMask

def consumeSignal (signum : ℕ) (t : SignalTask) : SignalTask :=
  { t with pendingSignals := t.pendingSignals &&& ~~~ (1 <<< UInt64.ofNat (signum - 1)) }

def enterHandler (signum : ℕ) (action : SigAction) (M : Machine) (task : Task) : Task where
  frame := handlerFrame signum action task.frame
  machine := M
  signalMask := task.signalMask ||| action.mask
  signalFramePending := true
  cancelSignalSeen := signum = 33 ∨ task.cancelSignalSeen
  cancellationInProgress := signum ≠ 33 ∧ task.cancellationInProgress

def deliverSignal (hal : HalMemory) (signum : ℕ) (t : SignalTask) : Dispatch × SignalTask :=
  let action := t.signalActions signum
  if action.handler = 0 then
    if signum ≠ 17 ∧ signum ≠ 23 ∧ signum ≠ 28 then (.terminate signum, t) else (.ignored, t)
  else if action.handler = 1 then (.ignored, t)
  else
    match writeFrame hal signum t.task with
    | (.error _, M) => (.failed, { t with task := { t.task with machine := M } })
    | (.ok (), M) => (.entered, { t with task := enterHandler signum action M t.task })

def dispatchPendingSignals (hal : HalMemory) (t : SignalTask) : Dispatch × SignalTask :=
  if unmaskedSignals t = 0 then (.idle, t)
  else
    let signum := trailingZeros (unmaskedSignals t) + 1
    deliverSignal hal signum (consumeSignal signum t)

theorem layout : ucSigmaskOff = 168 ∧ mctxOff = 296 ∧ mctxFpOff = 552 ∧ mctxDFcsrOff = 808 ∧
    frameSize = 816 := ⟨rfl, rfl, rfl, rfl, rfl⟩

variable {off signum : ℕ}

section Frame
variable (signum : ℕ) (task : Task) {indices : List (Fin 32)} {frame : List UInt8} {v : UInt64}

theorem regWrites_pairwise (off : ℕ) (regs : Fin 32 → UInt64) (h : indices.Pairwise (· < ·)) :
    (regWrites off regs indices).Pairwise fun v v' => v'.Apart v.1 v.2.length := by
  refine pairwise_map.mpr (h.imp fun {i j} hij => ?_)
  simp only [Write.Apart, leBytes_length]
  omega

theorem mem_regWrites {regs : Fin 32 → UInt64} {v : Write UInt8}
    (h : v ∈ regWrites off regs indices) : off ≤ v.1 ∧ v.1 ≤ off + 31 * 8 ∧ v.2.length = 8 := by
  obtain ⟨i, -, rfl⟩ := List.mem_map.mp h
  exact ⟨by omega, by simp only; omega, leBytes_length 8 _⟩

theorem frameWrites_fit : ∀ v ∈ frameWrites signum task,
    v.Fits (List.replicate frameSize (0 : UInt8)).length := by
  intro v hv
  have hlayout := layout
  rw [length_replicate]
  simp only [frameWrites, mem_append, mem_cons, not_mem_nil, or_false] at hv
  rcases hv with ((rfl | rfl) | rfl | rfl | hv) | rfl | hv | rfl
  · simp only [Write.Fits, leBytes_length]; decide
  · simp only [Write.Fits, length_replicate]; decide
  · simp only [maskWrite, Write.Fits, leBytes_length]; decide
  · simp only [pcWrite, Write.Fits, leBytes_length]; decide
  · obtain ⟨-, hle, hlen⟩ := mem_regWrites hv
    rw [Write.Fits]
    omega
  · simp only [Write.Fits, length_replicate]; decide
  · obtain ⟨-, hle, hlen⟩ := mem_regWrites hv
    rw [Write.Fits]
    omega
  · simp only [fcsrWrite, Write.Fits, leBytes_length]; decide

theorem frameBytes_length : (frameBytes signum task).length = frameSize := by
  rw [frameBytes, putAll_length (frameWrites_fit signum task), length_replicate]

theorem field_context {w : Write UInt8}
    (hw : w ∈ maskWrite task :: pcWrite task ::
      regWrites mctxOff task.frame.regs (List.finRange 32).tail) :
    field (frameBytes signum task) w.1 w.2.length = w.2 := by
  have hlayout := layout
  have hregs : ∀ v ∈ regWrites mctxOff task.frame.regs (List.finRange 32).tail,
      mctxOff + 8 ≤ v.1 ∧ v.1 ≤ mctxOff + 31 * 8 ∧ v.2.length = 8 := by
    intro v hv
    obtain ⟨-, hle, hlen⟩ := mem_regWrites hv
    obtain ⟨i, hi, rfl⟩ := List.mem_map.mp hv
    have hne : i ≠ 0 := by
      rintro rfl
      exact absurd hi (by decide)
    exact ⟨by simp only; omega, hle, hlen⟩
  apply field_putAll_group (frameWrites_fit signum task) hw
  · refine pairwise_cons.mpr ⟨fun v hv => ?_, pairwise_cons.mpr ⟨fun v hv => ?_, ?_⟩⟩
    · simp only [Write.Apart, maskWrite, leBytes_length]
      rcases mem_cons.mp hv with rfl | hv
      · simp only [pcWrite]
        omega
      · have := (hregs v hv).1
        omega
    · have := (hregs v hv).1
      simp only [Write.Apart, pcWrite, leBytes_length]
      omega
    · exact regWrites_pairwise _ _ (pairwise_lt_finRange 32).tail
  · -- the floating-point part stands behind
    have hend : w.1 + w.2.length ≤ mctxFpOff := by
      simp only [mem_cons] at hw
      rcases hw with rfl | rfl | hw
      · simp only [maskWrite, leBytes_length]; decide
      · simp only [pcWrite, leBytes_length]; decide
      · obtain ⟨-, hle, hlen⟩ := hregs w hw
        omega
    intro v hv
    simp only [mem_cons, mem_append, not_mem_nil, or_false] at hv
    refine .inr (hend.trans ?_)
    rcases hv with rfl | hv | rfl
    · exact le_rfl
    · exact (mem_regWrites hv).1
    · simp only [fcsrWrite]; decide

theorem field_float {w : Write UInt8}
    (hw : w ∈ regWrites mctxFpOff task.frame.fregs (List.finRange 32) ++ [fcsrWrite task]) :
    field (frameBytes signum task) w.1 w.2.length = w.2 := by
  have hlayout := layout
  let before := [(siginfoOff, leBytes 4 signum), (ucSigmaskOff, List.replicate 128 0)] ++
    (maskWrite task :: pcWrite task :: regWrites mctxOff task.frame.regs (List.finRange 32).tail) ++
    [(mctxFpOff, List.replicate mctxFpSize 0)]
  have hwrites : frameWrites signum task = before ++
      (regWrites mctxFpOff task.frame.fregs (List.finRange 32) ++ [fcsrWrite task]) ++ [] := by
    simp [before, frameWrites]
  have hfit := frameWrites_fit signum task
  rw [hwrites] at hfit
  apply field_putAll_group hfit hw
  · refine pairwise_append.mpr ⟨regWrites_pairwise _ _ (pairwise_lt_finRange 32),
      pairwise_singleton _ _, fun v hv u hu => ?_⟩
    obtain rfl := mem_singleton.mp hu
    obtain ⟨-, hle, hlen⟩ := mem_regWrites hv
    refine .inr ?_
    simp only [fcsrWrite]
    omega
  · intro v hv
    cases hv

theorem readWord_eight (h : field frame off 8 = leBytes 8 v.toNat) : readWord 8 frame off = v := by
  have hval : fromLeBytes (field frame off 8) = v.toNat := by
    rw [h, fromLeBytes, foldr_leBytes]
    exact Nat.mod_eq_of_lt v.toNat_lt
  rw [readWord, ← field, hval]
  exact UInt64.ofNat_toNat

theorem readWord_four (h : field frame off 4 = leBytes 4 v.toNat) :
    (readWord 4 frame off).toNat = v.toNat % 2 ^ 32 := by
  have hval : fromLeBytes (field frame off 4) = v.toNat % 256 ^ 4 := by
    rw [h, fromLeBytes, foldr_leBytes]
  rw [readWord, ← field, hval]
  apply UInt64.toNat_ofNat_of_lt'
  exact (Nat.mod_lt _ (by decide)).trans (by decide)

/-- The interrupted context is back; of the status word only the low half is stored. -/
structure Resumes (saved after : Task) : Prop where
  sepc : after.frame.sepc = saved.frame.sepc
  regs : ∀ i, i ≠ 0 → after.frame.regs i = saved.frame.regs i
  mask : after.signalMask = saved.signalMask
  fregs : after.frame.fregs = saved.frame.fregs
  fcsr : after.frame.fcsr.toNat % 2 ^ 32 = saved.frame.fcsr.toNat % 2 ^ 32

theorem storedReg_frameBytes {i : Fin 32} (hi : i ≠ 0) :
    storedReg (frameBytes signum task) i = task.frame.regs i := by
  have hmem : i ∈ (List.finRange 32).tail := by
    revert i
    decide
  have hfield := field_context signum task (mem_cons_of_mem _ (mem_cons_of_mem _
    (List.mem_map_of_mem hmem)))
  exact readWord_eight hfield

theorem restoreFrame_resumes (frame : TrapFrame) (machine : Machine) (pending seen cancelling : Bool) :
    Resumes task
      ⟨restoreFrame .riscv64 (frameBytes signum task) frame, machine,
        readWord 8 (frameBytes signum task) ucSigmaskOff, pending, seen, cancelling⟩ := by
  have hfloat : ∀ i : Fin 32, readWord 8 (frameBytes signum task) (mctxFpOff + i * 8) =
      task.frame.fregs i := by
    intro i
    have hfield := field_float signum task (mem_append_left _
      (List.mem_map_of_mem (mem_finRange i)))
    rw [leBytes_length] at hfield
    exact readWord_eight hfield
  have hmask := field_context signum task mem_cons_self
  have hpc := field_context signum task (mem_cons_of_mem _ mem_cons_self)
  have hfcsr := field_float signum task (mem_append_right _ mem_cons_self)
  simp only [maskWrite, pcWrite, fcsrWrite, leBytes_length] at hmask hpc hfcsr
  refine ⟨readWord_eight hpc, fun i hi => ?_, readWord_eight hmask, funext hfloat, ?_⟩
  · rw [restoreFrame]
    simp only [if_neg hi]
    exact storedReg_frameBytes signum task hi
  · simp only [restoreFrame, readWord_four hfcsr, Nat.mod_mod]

end Frame

theorem sigreturn_resumes {hal : HalMemory} {kernel : Kernel} {saved task : Task}
    (hcall : task.frame.syscallNumber = sysRtSigreturn)
    (hframe : signalFrame hal kernel task = .ok (frameBytes signum saved)) :
    ∃ after, handleTrap hal kernel .riscv64 task = some (.ok (saved.frame.regs 10), after) ∧
      Resumes saved after ∧ after.machine = task.machine := by
  have hten : (restoreFrame .riscv64 (frameBytes signum saved) task.frame).regs 10 =
      saved.frame.regs 10 := by
    exact storedReg_frameBytes signum saved (by decide)
  have hne : sysRtSigreturn ≠ sysExecve := by decide
  have hkeep : ∀ frame : TrapFrame, frame.setRetval (frame.regs 10) = frame := by
    intro frame
    rw [TrapFrame.setRetval, update_eq_self]
  have hrestart := not_restarted .riscv64 (saved.frame.regs 10) (.inr rfl)
  refine ⟨_, ?_, restoreFrame_resumes signum saved task.frame task.machine false false
    (task.cancelSignalSeen || task.cancellationInProgress), rfl⟩
  simp only [handleTrap, dispatch, hcall, if_neg hne, if_pos, rtSigreturn, hframe, finishTask,
    finishTrap, encode, hten, hrestart]
  rw [← hten, hkeep]
  rfl

/-- On the machines of a family, the addresses from `lo` to `hi` read back what was written last. -/
structure StackMemory (hal : HalMemory) (heap : Heap) (lo hi : ℕ) (Mapped : Machine → Prop) :
    Prop where
  keeps : ∀ {M : Machine} {addr : ℕ} {bytes : List UInt8}, Mapped M → lo ≤ addr →
    addr + bytes.length ≤ hi → Mapped (writeBytes hal addr bytes M).2
  reads_back : ∀ {M : Machine} {addr : ℕ} {bytes : List UInt8}, Mapped M → lo ≤ addr →
    addr + bytes.length ≤ hi → (writeBytes hal addr bytes M).1 = .ok () →
    readBytes hal heap addr bytes.length (writeBytes hal addr bytes M).2 = .ok bytes
  leaves : ∀ {M : Machine} {addr : ℕ} {bytes : List UInt8} {off len : ℕ}, Mapped M → lo ≤ addr →
    addr + bytes.length ≤ hi → lo ≤ off → off + len ≤ hi →
    off + len ≤ addr ∨ addr + bytes.length ≤ off →
    readBytes hal heap off len (writeBytes hal addr bytes M).2 = readBytes hal heap off len M

structure OwnStack (s : Segment) (lo hi : ℕ) (M : Machine) : Prop where
  wellFormed : TableWellFormed M.space.mappings
  mapped : ∃ k : ℕ, M.space.mappings[k]? = some s
  owned : ∃ frames, s.storage = .owned frames
  lower : s.area.start ≤ lo
  upper : hi ≤ s.area.start + s.area.len

section OwnStack
variable {hal : HalMemory} {heap : Heap} {s : Segment} {lo hi addr : ℕ} {M : Machine}

section

variable (h : OwnStack s lo hi M) {bytes : List UInt8}
include h

theorem OwnStack.find (hlo : lo ≤ addr) (hhi : addr < hi) :
    findSegment M.space.mappings addr 1 = .ok (s, addr - s.area.start) := by
  obtain ⟨k, hk⟩ := h.mapped
  have hlower := h.lower
  have hupper := h.upper
  have hat : entryAt segmentExtent M.space.mappings addr = some s :=
    h.wellFormed.entryAt_iff.mpr ⟨k, hk, by simp only [covers_iff]; omega⟩
  rw [findSegment_one h.wellFormed, hat]

theorem OwnStack.bounded : hi ≤ usizeMax := by
  obtain ⟨k, hk⟩ := h.mapped
  exact h.upper.trans (h.wellFormed.bounded k s hk)

theorem OwnStack.readBytes_eq {len : ℕ} (hlo : lo ≤ addr)
    (hhi : addr + len ≤ hi) (hres : heap.tryReserve len = true) :
    readBytes hal heap addr len M = .ok (rawBytes M.mem (bytePtr hal s addr) len) := by
  have hbound := h.bounded
  have hlower := h.lower
  have hupper := h.upper
  rcases len with _ | n
  · rfl
  have htake : min (s.area.len - (addr - s.area.start)) (n + 1) = n + 1 := by omega
  rw [readBytes, hres, readLoop, h.find hlo (by omega)]
  simp only [htake, checkedAdd_of_le (show addr + (n + 1) ≤ usizeMax by omega), Nat.sub_self]
  cases n <;> rfl

theorem OwnStack.writeBytes_eq (hlo : lo ≤ addr) (hhi : addr + bytes.length ≤ hi) :
    writeBytes hal addr bytes M =
      (.ok (), { M with mem := copyBytes M.mem (bytePtr hal s addr) bytes }) := by
  have hbound := h.bounded
  have hlower := h.lower
  have hupper := h.upper
  obtain ⟨frames, hs⟩ := h.owned
  rcases bytes with _ | ⟨b, rest⟩
  · have hnone : copyBytes M.mem (bytePtr hal s addr) [] = M.mem := by
      funext x
      exact copyBytes_outside (by simp)
    rw [hnone]
    rfl
  rw [length_cons] at hhi
  have htake : min (s.area.len - (addr - s.area.start)) (rest.length + 1) = rest.length + 1 := by
    omega
  have hall : (b :: rest).take (rest.length + 1) = b :: rest := by simp
  have hnone : (b :: rest).drop (rest.length + 1) = [] := by simp
  simp only [writeBytes, length_cons, writeLoop, h.find hlo (by omega), htake, hs,
    checkedAdd_of_le (show addr + (rest.length + 1) ≤ usizeMax by omega), hall, hnone]
  rfl

theorem OwnStack.write : OwnStack s lo hi (writeBytes hal addr bytes M).2 :=
  ⟨h.wellFormed, h.mapped, h.owned, h.lower, h.upper⟩

end

/-- A stack in the process's own frames is a byte memory. -/
theorem ownStack_memory (hres : ∀ len, heap.tryReserve len = true) :
    StackMemory hal heap lo hi (OwnStack s lo hi) where
  keeps h _ _ := h.write
  reads_back h hlo hhi _ := by
    rw [h.write.readBytes_eq hlo hhi (hres _), h.writeBytes_eq hlo hhi,
      rawBytes_copyBytes]
  leaves {M addr bytes off len} h hlo hhi hoff hend hapart := by
    have hlower := h.lower
    rw [h.write.readBytes_eq hoff hend (hres _), h.readBytes_eq hoff hend (hres _),
      h.writeBytes_eq hlo hhi]
    refine congrArg Except.ok (map_congr_left fun i hi => copyBytes_outside ?_)
    have hi := mem_range.mp hi
    simp only [bytePtr]
    omega

end OwnStack

theorem frameSp_toNat {sp : UInt64} (h : 832 ≤ sp.toNat) :
    (frameSp sp).toNat = (sp.toNat - frameSize) / 2 ^ 4 * 2 ^ 4 := by
  have hsub : (sp - UInt64.ofNat frameSize).toNat = sp.toNat - frameSize := by
    have hsize : (UInt64.ofNat frameSize).toNat = frameSize := by decide
    rw [UInt64.toNat_sub_of_le, hsize]
    · exact le_trans (by decide) h
  have hle : sp.toNat - frameSize ≤ usizeMax := by
    have := sp.toNat_lt
    unfold usizeMax
    omega
  have hdown := alignDown_two_pow (k := 4) hle (by decide)
  rw [alignDown] at hdown
  have hmask : (~~~ (0xf : UInt64)).toNat = usizeMax - (2 ^ 4 - 1) := by decide
  rw [frameSp, UInt64.toNat_and, hsub, hmask, hdown]

/-- A frame is aligned and lies below the stack pointer it interrupts. -/
theorem frameSp_place {sp : UInt64} (h : 832 ≤ sp.toNat) :
    (frameSp sp).toNat % 16 = 0 ∧ (frameSp sp).toNat + frameSize ≤ sp.toNat := by
  have hlayout := layout
  rw [frameSp_toNat h]
  constructor
  · exact Nat.mul_mod_left _ (2 ^ 4)
  · omega

structure Saved where
  context : Task
  base : ℕ

/-- A thread with the frames of the handlers it is in, the innermost first. -/
structure World where
  thread : SignalTask
  frames : List Saved

def World.sp (w : World) : UInt64 := w.thread.task.frame.regs 2

def afterDispatch (hal : HalMemory) (w : World) : World :=
  match dispatchPendingSignals hal w.thread with
  | (.entered, thread) => ⟨thread, ⟨w.thread.task, (frameSp w.sp).toNat⟩ :: w.frames⟩
  | (_, thread) => ⟨thread, w.frames⟩

section Nested
variable (hal : HalMemory) (kernel : Kernel) (lo hi : ℕ) (Mapped : Machine → Prop)

structure Room (w : World) : Prop where
  high : 832 ≤ w.sp.toNat
  within : w.sp.toNat ≤ hi
  low : lo ≤ (frameSp w.sp).toNat
  below : ∀ f ∈ w.frames.head?, w.sp.toNat ≤ f.base

/-- User code and other calls do anything but write the frames; signals are dispatched; handlers
return, the innermost first. -/
inductive Step : World → World → Prop where
  | run {w : World} (thread : SignalTask) (hmapped : Mapped thread.task.machine)
      (hkept : ∀ f ∈ w.frames, readBytes hal kernel.frameHeap f.base frameSize thread.task.machine =
        readBytes hal kernel.frameHeap f.base frameSize w.thread.task.machine) :
      Step w ⟨thread, w.frames⟩
  | dispatch {w : World} (hroom : Room lo hi w) : Step w (afterDispatch hal w)
  | sigreturn {w : World} {f : Saved} {rest : List Saved} {r : SyscallResult} {after : Task}
      (hframes : w.frames = f :: rest) (hsp : w.sp.toNat = f.base)
      (hcall : w.thread.task.frame.syscallNumber = sysRtSigreturn)
      (htrap : handleTrap hal kernel .riscv64 w.thread.task = some (r, after)) :
      Step w ⟨{ w.thread with task := after }, rest⟩

inductive Reachable : World → Prop where
  | start (thread : SignalTask) : Mapped thread.task.machine → Reachable ⟨thread, []⟩
  | step {w w' : World} : Reachable w → Step hal kernel lo hi Mapped w w' → Reachable w'

structure Sound (w : World) : Prop where
  mapped : Mapped w.thread.task.machine
  stored : ∀ f ∈ w.frames, ∃ signum,
    readBytes hal kernel.frameHeap f.base frameSize w.thread.task.machine =
      .ok (frameBytes signum f.context)
  aligned : ∀ f ∈ w.frames, f.base % 16 = 0
  place : ∀ f ∈ w.frames, lo ≤ f.base ∧
    f.base + frameSize ≤ (f.context.frame.regs 2).toNat ∧ (f.context.frame.regs 2).toNat ≤ hi
  order : w.frames.Pairwise fun f g => f.base + frameSize ≤ g.base

end Nested

section Nested
variable {hal : HalMemory} {kernel : Kernel} {lo hi : ℕ} {Mapped : Machine → Prop} {w w' : World}

theorem consumeSignal_task (signum : ℕ) (t : SignalTask) : (consumeSignal signum t).task = t.task := by
  cases t
  rfl

/-- A delivery enters a handler after it wrote the frame, or leaves the memory alone, or fails in
the middle of the frame. -/
theorem deliver_cases (hal : HalMemory) (signum : ℕ) (t : SignalTask) :
    (∃ M, writeFrame hal signum t.task = (.ok (), M) ∧ deliverSignal hal signum t =
      (.entered, { t with task := enterHandler signum (t.signalActions signum) M t.task })) ∨
    (deliverSignal hal signum t).1 ≠ .entered ∧
      ((deliverSignal hal signum t).2.task.machine = t.task.machine ∨
        (deliverSignal hal signum t).2.task.machine = (writeFrame hal signum t.task).2) := by
  unfold deliverSignal
  by_cases hdefault : (t.signalActions signum).handler = 0
  · rw [if_pos hdefault]
    by_cases hends : signum ≠ 17 ∧ signum ≠ 23 ∧ signum ≠ 28
    · rw [if_pos hends]
      exact .inr ⟨by simp, .inl rfl⟩
    · rw [if_neg hends]
      exact .inr ⟨by simp, .inl rfl⟩
  · rw [if_neg hdefault]
    by_cases hignore : (t.signalActions signum).handler = 1
    · rw [if_pos hignore]
      exact .inr ⟨by simp, .inl rfl⟩
    rw [if_neg hignore]
    rcases writeFrame hal signum t.task with ⟨e | _, M⟩
    · exact .inr ⟨by simp, .inr rfl⟩
    · exact .inl ⟨M, rfl, rfl⟩

theorem dispatch_cases (hal : HalMemory) (t : SignalTask) :
    (∃ signum M, signum = trailingZeros (unmaskedSignals t) + 1 ∧
      writeFrame hal signum t.task = (.ok (), M) ∧ dispatchPendingSignals hal t = (.entered,
        { consumeSignal signum t with
          task := enterHandler signum (t.signalActions signum) M t.task })) ∨
    (dispatchPendingSignals hal t).1 ≠ .entered ∧
      ((dispatchPendingSignals hal t).2.task.machine = t.task.machine ∨
        ∃ signum, (dispatchPendingSignals hal t).2.task.machine =
          (writeFrame hal signum t.task).2) := by
  unfold dispatchPendingSignals
  split
  · exact .inr ⟨by simp, .inl rfl⟩
  have hcases := deliver_cases hal (trailingZeros (unmaskedSignals t) + 1)
    (consumeSignal (trailingZeros (unmaskedSignals t) + 1) t)
  rcases hcases with ⟨M, hwrite, hdeliver⟩ | ⟨hne, hM⟩
  · exact .inl ⟨_, M, rfl, hwrite, hdeliver⟩
  · exact .inr ⟨hne, hM.imp_right fun h => ⟨_, h⟩⟩

theorem Sound.below (h : Sound hal kernel lo hi Mapped w) (hroom : Room lo hi w) :
    ∀ f ∈ w.frames, (frameSp w.sp).toNat + frameSize ≤ f.base := by
  obtain ⟨-, hend⟩ := frameSp_place hroom.high
  have hbelow := hroom.below
  have horder := h.order
  intro f hf
  cases hframes : w.frames with
  | nil => simp [hframes] at hf
  | cons g rest =>
    rw [hframes] at hf hbelow horder
    have hg := hbelow g rfl
    rcases mem_cons.mp hf with rfl | hf
    · omega
    · have := (pairwise_cons.mp horder).1 f hf
      omega

theorem Sound.frameWritten (hmem : StackMemory hal kernel.frameHeap lo hi Mapped)
    (h : Sound hal kernel lo hi Mapped w) (hroom : Room lo hi w) (signum : ℕ) :
    Mapped (writeFrame hal signum w.thread.task).2 ∧
      ∀ f ∈ w.frames, readBytes hal kernel.frameHeap f.base frameSize
          (writeFrame hal signum w.thread.task).2 =
        readBytes hal kernel.frameHeap f.base frameSize w.thread.task.machine := by
  have hlen := frameBytes_length signum w.thread.task
  obtain ⟨-, hend⟩ := frameSp_place hroom.high
  have hin : (frameSp w.sp).toNat + (frameBytes signum w.thread.task).length ≤ hi := by
    rw [hlen]
    exact hend.trans hroom.within
  refine ⟨hmem.keeps h.mapped hroom.low hin, fun f hf => ?_⟩
  obtain ⟨hflo, hfend, hfhi⟩ := h.place f hf
  apply hmem.leaves h.mapped hroom.low hin hflo (hfend.trans hfhi)
  rw [hlen]
  exact .inr (h.below hroom f hf)

theorem afterDispatch_entered {t : SignalTask}
    (h : dispatchPendingSignals hal w.thread = (.entered, t)) :
    afterDispatch hal w = ⟨t, ⟨w.thread.task, (frameSp w.sp).toNat⟩ :: w.frames⟩ := by
  rw [afterDispatch, h]

theorem afterDispatch_other (h : (dispatchPendingSignals hal w.thread).1 ≠ .entered) :
    afterDispatch hal w = ⟨(dispatchPendingSignals hal w.thread).2, w.frames⟩ := by
  unfold afterDispatch
  rcases hd : dispatchPendingSignals hal w.thread with ⟨d, t⟩
  rw [hd] at h
  cases d
  case entered => exact absurd rfl h
  all_goals rfl

theorem dispatch_sound (hmem : StackMemory hal kernel.frameHeap lo hi Mapped)
    (h : Sound hal kernel lo hi Mapped w) (hroom : Room lo hi w) :
    Sound hal kernel lo hi Mapped (afterDispatch hal w) := by
  obtain ⟨haligned, hend⟩ := frameSp_place hroom.high
  rcases dispatch_cases hal w.thread with ⟨signum, M, -, hwrite, hent⟩ | ⟨hne, hM⟩
  · -- the new frame is below the others
    obtain ⟨hmapped, hkept⟩ := h.frameWritten hmem hroom signum
    have hnew : readBytes hal kernel.frameHeap (frameSp w.sp).toNat frameSize
        (writeFrame hal signum w.thread.task).2 = .ok (frameBytes signum w.thread.task) := by
      have hlen := frameBytes_length signum w.thread.task
      have hread := hmem.reads_back h.mapped hroom.low
        (by rw [hlen]; exact hend.trans hroom.within) (congrArg Prod.fst hwrite)
      rwa [hlen] at hread
    rw [hwrite] at hmapped hkept hnew
    rw [afterDispatch_entered hent]
    refine ⟨hmapped, fun f hf => ?_, fun f hf => ?_, fun f hf => ?_,
      pairwise_cons.mpr ⟨h.below hroom, h.order⟩⟩
    · rcases mem_cons.mp hf with rfl | hf
      · exact ⟨signum, hnew⟩
      · obtain ⟨older, hold⟩ := h.stored f hf
        exact ⟨older, (hkept f hf).trans hold⟩
    · rcases mem_cons.mp hf with rfl | hf
      · exact haligned
      · exact h.aligned f hf
    · rcases mem_cons.mp hf with rfl | hf
      · exact ⟨hroom.low, hend, hroom.within⟩
      · exact h.place f hf
  · have hkept : Mapped (dispatchPendingSignals hal w.thread).2.task.machine ∧
        ∀ f ∈ w.frames, readBytes hal kernel.frameHeap f.base frameSize
            (dispatchPendingSignals hal w.thread).2.task.machine =
          readBytes hal kernel.frameHeap f.base frameSize w.thread.task.machine := by
      rcases hM with hM | ⟨signum, hM⟩
      · rw [hM]
        exact ⟨h.mapped, fun f _ => rfl⟩
      · rw [hM]
        exact h.frameWritten hmem hroom signum
    rw [afterDispatch_other hne]
    refine ⟨hkept.1, fun f hf => ?_, h.aligned, h.place, h.order⟩
    obtain ⟨older, hold⟩ := h.stored f hf
    exact ⟨older, (hkept.2 f hf).trans hold⟩

/-- The innermost handler returns to what it interrupted. -/
theorem Sound.sigreturn (h : Sound hal kernel lo hi Mapped w) {f : Saved} {rest : List Saved}
    (hframes : w.frames = f :: rest) (hsp : w.sp.toNat = f.base)
    (hcall : w.thread.task.frame.syscallNumber = sysRtSigreturn) :
    ∃ after, handleTrap hal kernel .riscv64 w.thread.task =
        some (.ok (f.context.frame.regs 10), after) ∧
      Resumes f.context after ∧ after.machine = w.thread.task.machine := by
  obtain ⟨signum, hstored⟩ := h.stored f (by rw [hframes]; exact mem_cons_self)
  have hframe : signalFrame hal kernel w.thread.task = .ok (frameBytes signum f.context) := by
    rw [signalFrame]
    exact hsp.symm ▸ hstored
  exact sigreturn_resumes hcall hframe

theorem step_sound (hmem : StackMemory hal kernel.frameHeap lo hi Mapped)
    (h : Sound hal kernel lo hi Mapped w) (hstep : Step hal kernel lo hi Mapped w w') :
    Sound hal kernel lo hi Mapped w' := by
  cases hstep with
  | run thread hmapped hkept =>
    refine ⟨hmapped, fun f hf => ?_, h.aligned, h.place, h.order⟩
    obtain ⟨signum, hold⟩ := h.stored f hf
    exact ⟨signum, (hkept f hf).trans hold⟩
  | dispatch hroom => exact dispatch_sound hmem h hroom
  | sigreturn hframes hsp hcall htrap =>
    obtain ⟨after', htrap', -, hM⟩ := h.sigreturn hframes hsp hcall
    cases htrap.symm.trans htrap'
    obtain ⟨hmapped, hstored, haligned, hplace, horder⟩ := h
    rw [hframes] at hstored haligned hplace horder
    refine ⟨by rw [hM]; exact hmapped, fun g hg => ?_,
      fun g hg => haligned g (mem_cons_of_mem _ hg),
      fun g hg => hplace g (mem_cons_of_mem _ hg), (pairwise_cons.mp horder).2⟩
    rw [hM]
    exact hstored g (mem_cons_of_mem _ hg)

theorem reachable_sound (hmem : StackMemory hal kernel.frameHeap lo hi Mapped)
    (h : Reachable hal kernel lo hi Mapped w) : Sound hal kernel lo hi Mapped w := by
  induction h with
  | start thread hmapped =>
    exact ⟨hmapped, fun f hf => absurd hf not_mem_nil, fun f hf => absurd hf not_mem_nil,
      fun f hf => absurd hf not_mem_nil, List.Pairwise.nil⟩
  | step _ hstep ih => exact step_sound hmem ih hstep

/-- At any depth, a handler that returns on its frame gives back the context it interrupted, and
the frame is aligned and below that context's stack pointer. -/
theorem signal_frames_round_trip (hmem : StackMemory hal kernel.frameHeap lo hi Mapped)
    (h : Reachable hal kernel lo hi Mapped w) {f : Saved} {rest : List Saved}
    (hframes : w.frames = f :: rest) (hsp : w.sp.toNat = f.base)
    (hcall : w.thread.task.frame.syscallNumber = sysRtSigreturn) :
    (∃ after, handleTrap hal kernel .riscv64 w.thread.task =
        some (.ok (f.context.frame.regs 10), after) ∧ Resumes f.context after) ∧
      f.base % 16 = 0 ∧ f.base + frameSize ≤ (f.context.frame.regs 2).toNat := by
  have hsound := reachable_sound hmem h
  have hf : f ∈ w.frames := by rw [hframes]; exact mem_cons_self
  obtain ⟨after, htrap, hresumes, -⟩ := hsound.sigreturn hframes hsp hcall
  exact ⟨⟨after, htrap, hresumes⟩, hsound.aligned f hf, (hsound.place f hf).2.1⟩

end Nested

def stackSegment : Segment := ⟨⟨0x7ff7f000, 0x80000, 0b11⟩, .owned ⟨0, ⟨0x80400000, 128⟩⟩⟩

def stackMachine : Machine where
  space := { newUser (riscvVirtMemory 0x80400000) with
    mappings := Std.ExtTreeMap.empty.insert 0x7ff7f000 stackSegment }
  mem := fun _ => 0

theorem stackMachine_ownStack : OwnStack stackSegment 0x7ff7f000 0x7ffff000 stackMachine := by
  refine ⟨?_, ⟨0x7ff7f000, by simp [stackMachine]⟩, ⟨_, rfl⟩, by decide, by decide⟩
  have hfree : ∀ a, Covers segmentExtent stackSegment a → ∀ t,
      ¬ EntryAt segmentExtent (∅ : Mappings) a t := by
    intro a _ t ht
    simp [EntryAt] at ht
  exact insert_wellFormed WellFormed.empty (by decide) (by decide) hfree

def interrupted : SignalTask where
  task := ⟨TrapFrame.newUser 0x1000 0x7fffeff0, stackMachine, 0, false, false, false⟩
  pendingSignals := 0x200
  signalActions := fun signum => if signum = 10 then ⟨0x5000, 0, 0⟩ else ⟨0, 0, 0⟩

def returning : TrapFrame where
  regs := fun i => if i = 2 then frameSp 0x7fffeff0 else if i = 17 then sysRtSigreturn else 0
  sepc := 0x5010
  fregs := fun _ => 0
  fcsr := 0

def plainKernel : Kernel where
  resolve := fun _ => .error .enoent
  spaceShared := false
  cloneHeap := ⟨fun _ => true, 0, id⟩
  stackHeap := ⟨fun _ => true, 0, id⟩
  imageHeap := ⟨fun _ => true, 0, id⟩
  trampolineHeap := ⟨fun _ => true, 0, id⟩
  frameHeap := ⟨fun _ => true, 0, id⟩
  trampolineCode := []
  other := fun _ _ => none

theorem enters_ten (sp : UInt64) {t : SignalTask}
    (hstack : OwnStack stackSegment 0x7ff7f000 0x7ffff000 t.task.machine)
    (hsp : t.task.frame.regs 2 = sp)
    (hplace : 0x7ff7f000 ≤ (frameSp sp).toNat ∧ (frameSp sp).toNat + frameSize ≤ 0x7ffff000)
    (hunmasked : unmaskedSignals t = 0x200) (hhandler : (t.signalActions 10).handler = 0x5000) :
    ∃ M, dispatchPendingSignals (riscvVirtMemory 0x80400000) t = (.entered,
      { consumeSignal 10 t with task := enterHandler 10 (t.signalActions 10) M t.task }) := by
  subst hsp
  have hbits : unmaskedSignals t ≠ 0 ∧ trailingZeros (unmaskedSignals t) + 1 = 10 := by
    rw [hunmasked]
    decide
  obtain ⟨M, hok⟩ : ∃ M, writeFrame (riscvVirtMemory 0x80400000) 10 t.task = (.ok (), M) :=
    ⟨_, hstack.writeBytes_eq hplace.1 (frameBytes_length 10 t.task ▸ hplace.2)⟩
  rw [dispatchPendingSignals, if_neg hbits.1, hbits.2]
  refine ⟨M, (if_neg (ne_of_eq_of_ne hhandler (by decide))).trans
    ((if_neg (ne_of_eq_of_ne hhandler (by decide))).trans ?_)⟩
  rw [consumeSignal_task, hok]
  rfl

theorem signal_frames_round_trip_once : ∃ task after, task.frame = returning ∧
      handleTrap (riscvVirtMemory 0x80400000) plainKernel .riscv64 task = some (.ok 0, after) ∧
      after.frame.sepc = 0x1000 ∧ after.frame.regs 2 = 0x7fffeff0 := by
  let hal := riscvVirtMemory 0x80400000
  let Mapped := OwnStack stackSegment 0x7ff7f000 0x7ffff000
  have hmem : StackMemory hal plainKernel.frameHeap 0x7ff7f000 0x7ffff000 Mapped :=
    ownStack_memory fun _ => rfl
  obtain ⟨M, hent⟩ := enters_ten 0x7fffeff0 (t := World.thread ⟨interrupted, []⟩)
    stackMachine_ownStack rfl (by decide) (by decide) rfl
  have hroom : Room 0x7ff7f000 0x7ffff000 ⟨interrupted, []⟩ :=
    ⟨by decide, by decide, by decide, fun f hf => by cases hf⟩
  have hstart : Reachable hal plainKernel 0x7ff7f000 0x7ffff000 Mapped ⟨interrupted, []⟩ :=
    .start interrupted stackMachine_ownStack
  have hentered := hstart.step (.dispatch hroom)
  rw [afterDispatch_entered hent] at hentered
  -- the handler runs up to its return call
  obtain ⟨frame, hframe⟩ : ∃ frame, frame = returning := ⟨_, rfl⟩
  have hsp : (frame.regs 2).toNat = (frameSp (World.sp ⟨interrupted, []⟩)).toNat := by
    rw [hframe]
    decide
  have hcall : frame.syscallNumber = sysRtSigreturn := by rw [hframe]; rfl
  let task : Task := { interrupted.task with machine := M, frame := frame }
  have hmapped := (reachable_sound hmem hentered).mapped
  have hready := hentered.step (.run ⟨task, 0, interrupted.signalActions⟩ hmapped fun f _ => rfl)
  obtain ⟨⟨after, htrap, hresumes⟩, -, -⟩ := signal_frames_round_trip hmem hready rfl hsp hcall
  exact ⟨task, after, hframe, htrap, hresumes.sepc, hresumes.regs 2 (by decide)⟩

end SignalFrame
