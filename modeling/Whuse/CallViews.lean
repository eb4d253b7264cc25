import Whuse.AgreementRuns

/-! What the calls and exits of the kernel leave of the entries in one view. -/
namespace CallViews

open AddressSpace TaskScheduler ProcessTable ProcessTable.Table ProcessCalls
open TableEffects TableFiling TaskAgreement

section Exits

variable (hal : HalMemory) (heap : Heap)

section

variable {β : Type} {view : Process → β}

theorem keeps_wakeEach (count : ℕ) (addrs : List ℕ)
    (k : KernelState) :
    Keeps view k.table (addrs.foldl (fun k addr => wakeWaiters count addr k) k).table := by
  induction addrs generalizing k with
  | nil => exact .refl k.table
  | cons addr addrs ih => exact (keeps_wakeFutex addr count k.table).trans (ih (wakeWaiters count addr k))

theorem keeps_tellParent (hv : Steady view) (parent : Option ℕ)
    (k : KernelState) : Keeps view k.table (tellParent parent k).table := by
  cases parent with
  | none => exact .refl k.table
  | some tgid => exact keeps_sendSignalTid hv tgid sigchld k.table

theorem keeps_wakeVforkParent (tid : Option ℕ) (k : KernelState) :
    Keeps view k.table (wakeVforkParent tid k).table := by
  cases tid with
  | none => exact .refl k.table
  | some tid => exact .refl k.table

end

variable {β : Type} {view : Process → β} (hv : Steady view)

include hv

theorem keeps_afterKernelExit (x : ThreadExit) (k : KernelState) :
    Keeps view k.table (afterKernelExit x k).table :=
  ((keeps_tellParent hv x.parentTgid { k with scheduler := dropTasks x k.scheduler }).trans
    (keeps_wakeEach _ _ _)).trans (keeps_wakeEach _ _ _)

theorem keeps_sysExit (exitGroup : Bool) (code : Int32) (k : KernelState) :
    Keeps view k.table (sysExit hal heap exitGroup code k).2.table := by
  cases exitGroup with
  | true =>
    have hexit := keeps_exitCurrentProcessGroup hal heap code hv k.table
    simp only [sysExit, sysExitGroup]
    generalize k.table.exitCurrentProcessGroup hal heap code = out at hexit ⊢
    obtain ⟨e | x, t⟩ := out
    · exact hexit
    · exact hexit.trans (keeps_tellParent hv _ ⟨t, _⟩)
  | false =>
    have hexit := keeps_exitCurrentThread hal heap code hv k.table
    simp only [sysExit, sysExitThread]
    generalize k.table.exitCurrentThread hal heap code = out at hexit ⊢
    obtain ⟨e | x, t⟩ := out
    · exact hexit
    · exact (hexit.trans (keeps_tellParent hv _ ⟨t, _⟩)).trans (keeps_wakeEach _ _ _)

theorem keeps_signalExit (signum : ℕ) (k : KernelState) :
    Keeps view k.table (signalExit hal heap signum k).table := by
  have hexit := keeps_exitCurrentThread hal heap (-Int32.ofNat signum) hv k.table
  unfold signalExit
  generalize k.table.exitCurrentThread hal heap (-Int32.ofNat signum) = out at hexit ⊢
  obtain ⟨e | x, t⟩ := out
  · exact hexit
  · exact hexit.trans (keeps_afterKernelExit hv x ⟨t, k.scheduler⟩)

theorem keeps_forcedThreadExit (k : KernelState) :
    Keeps view k.table (forcedThreadExit hal heap k).table := by
  have hexit := keeps_exitCurrentThread hal heap 7 hv k.table
  unfold forcedThreadExit
  generalize k.table.exitCurrentThread hal heap 7 = out at hexit ⊢
  obtain ⟨e | x, t⟩ := out
  · exact hexit
  · exact hexit.trans (keeps_afterKernelExit hv x ⟨t, k.scheduler⟩)

theorem keeps_faultExit (k : KernelState) : Keeps view k.table (faultExit hal heap k).table := by
  have hexit := keeps_exitCurrentProcessGroup hal heap (-1) hv k.table
  unfold faultExit
  generalize k.table.exitCurrentProcessGroup hal heap (-1) = out at hexit ⊢
  obtain ⟨e | x, t⟩ := out
  · exact hexit
  · exact (((hexit.trans (keeps_wakeVforkParent x.vforkParentTid ⟨t, _⟩)).trans
      (keeps_tellParent hv x.parentTgid _)).trans (keeps_wakeEach _ _ _)).trans
      (keeps_wakeEach _ _ _)

theorem keeps_watchdogKill (tgids : List ℕ) (k : KernelState) :
    Keeps view k.table (watchdogKill hal heap tgids k).table := by
  have hforce := keeps_forceExits hal heap hv tgids k.table
  unfold watchdogKill
  generalize forceExits hal heap tgids k.table = out at hforce ⊢
  obtain ⟨xs, t⟩ := out
  simp only
  split
  · exact hforce
  have hafter : Keeps view k.table (xs.foldl afterForcedExit ⟨t, k.scheduler⟩).table := by
    rw [afterForcedExit_table]
    exact hforce
  exact (hafter.trans (keeps_wakeEach _ _ _)).trans (keeps_wakeEach _ _ _)

end Exits

end CallViews
