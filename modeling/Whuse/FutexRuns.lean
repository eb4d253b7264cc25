import Whuse.FutexQueues

/-! Runs of the kernel over the futex calls and everything else that touches the queues. -/
namespace FutexRuns

open List Option
open Std (ExtTreeMap)
open AddressSpace TaskScheduler ProcessTable ProcessTable.Table ProcessCalls TableEffects Function
open TableFiling WaitBook FutexCalls FutexQueues AgreementRuns
open CallRuns (board boardHeap)

variable {t : Table} {k : KernelState} {s : State} {uaddr : ℕ}

def waiting (p : Process) : Option ℕ × Option ℕ := (p.futexWaitAddr, p.futexWaitDeadline)

theorem steady_waiting : Steady waiting := ⟨fun _ _ => rfl, fun _ _ => rfl, fun _ _ => rfl⟩

def Paired (t : Table) : Prop :=
  ∀ j x, held waiting t j = some x → x.1.isSome = true → x.2.isSome = true

variable {p q : Process} {f : Process → Process} {u v : Table} {j g : ℕ}

section

variable {t : Table} (h : Paired t)
include h

theorem Paired.of_held (hsub : ∀ j x, held waiting u j = some x → held waiting t j = some x ∨ x.1 = none) :
    Paired u := by
  intro j x hx hsome
  rcases hsub j x hx with hold | hnone
  · exact h j x hold hsome
  · rw [hnone] at hsome
    cases hsome

theorem Paired.keeps (k : Keeps waiting t u) : Paired u :=
  h.of_held fun _ _ hx => .inl (k.held ▸ hx)

theorem Paired.modify (hf : ∀ p, (f p).futexWaitAddr.isSome = true →
      (f p).futexWaitDeadline.isSome = false → p.futexWaitAddr.isSome = true ∧ p.futexWaitDeadline.isSome = false) :
    Paired (t.modify j f) := by
  intro i x hx hsome
  obtain ⟨q, hq, rfl⟩ := map_eq_some_iff.mp hx
  obtain ⟨p, hp, rfl⟩ := modify_eq_some.mp hq
  have hpaired := h i (waiting p) (held_of_entry hp)
  by_cases hj : i = j
  · rw [if_pos hj] at hsome ⊢
    by_contra hdeadline
    obtain ⟨haddr, hnone⟩ := hf p hsome (by simpa [waiting] using hdeadline)
    have hpaired := hpaired haddr
    simp [waiting] at hpaired
    simp_all
  · rw [if_neg hj] at hsome ⊢
    exact hpaired hsome

theorem Paired.insert (hp : p.futexWaitAddr = none) :
    Paired { t with processes := t.processes.insert j p } := by
  refine h.of_held fun i x hx => ?_
  rw [held_insert, update_apply] at hx
  split at hx
  · exact .inr (some.inj hx ▸ hp)
  · exact .inl hx

theorem Paired.dropEntries (tids : List ℕ) : Paired (t.dropEntries tids) :=
  h.of_held fun j x hx => .inl ((held_dropEntries waiting tids t).1 j x hx)

theorem Paired.clearFutexWaitState (tid : ℕ) : Paired (t.clearFutexWaitState tid) := by
  unfold Table.clearFutexWaitState
  split
  · exact h
  have hclear : Paired (t.modify tid fun p =>
      { p with futexWaitAddr := none, futexWaitDeadline := none, eintrCount := 0 }) :=
    h.modify fun p haddr => by simp at haddr
  simp only
  split
  · exact hclear
  · unfold removeFutexWaiterAt
    split <;> exact hclear

end

theorem Paired.execveCurrentImage (hal : HalMemory) (cloneHeap stackHeap : Heap) (entry : UInt64)
    (sp : Option UInt64) (h : Paired t) :
    Paired (t.execveCurrentImage hal cloneHeap stackHeap entry sp).2 := by
  rcases hp : t.current with e | p
  · rw [Table.execveCurrentImage, hp]
    exact h
  obtain ⟨q, hq⟩ := execve_replaced hal cloneHeap stackHeap entry sp hp
  have hdrop : Paired (withoutOthers p t) := h.dropEntries _
  refine (hdrop.insert (p := q) (j := t.currentTid) ?_).of_held fun j x hx => .inl ?_
  · exact congrArg Kin.futexWaitAddr hq.kin
  · rw [held, hq.processes] at hx
    exact hx

theorem held_adoptChildren {β : Type} (view : Process → β)
    (hview : ∀ p parent, view { p with parent := parent } = view p) (c init : ℕ) (t : Table) :
    held view (t.adoptChildren c init) = held view t := by
  funext i
  simp only [held, adoptChildren, ExtTreeMap.getElem?_map, Option.map_map]
  congr 1
  funext p
  simp only [comp_apply]
  split
  · exact hview p _
  · rfl

theorem Paired.waitChild (h : Paired t) (parent : ℕ) (selector : WaitSelector) :
    Paired (t.waitChild parent selector).2 := by
  rcases waitChild_cases parent selector t with ⟨hsame, -⟩ | ⟨j, q, -, -, -, -, -, hreap⟩
  · rw [hsame]
    exact h
  · rw [hreap]
    have hadopt := held_adoptChildren waiting (fun _ _ => rfl) q.tgid t.initTgid t
    exact Paired.dropEntries (h.of_held fun i x hx => .inl (hadopt ▸ hx)) _

theorem Filed.waitChild (h : Filed t) (parent : ℕ) (selector : WaitSelector) :
    Filed (t.waitChild parent selector).2 := by
  rcases waitChild_cases parent selector t with ⟨hsame, -⟩ | ⟨j, q, -, -, -, -, -, hreap⟩
  · rw [hsame]
    exact h
  rw [hreap]
  have hadopt := held_adoptChildren filing (fun _ _ => rfl) q.tgid t.initTgid t
  obtain ⟨hheld, hpid, hspace⟩ := held_dropEntries filing
    ((t.adoptChildren q.tgid t.initTgid).groupTids q.tgid) (t.adoptChildren q.tgid t.initTgid)
  have hold : ∀ {j x}, held filing (t.reapThreadGroup q.tgid) j = some x →
      held filing t j = some x := fun hx => hadopt ▸ hheld _ _ hx
  exact ⟨fun j x hx => h.tid j x (hold hx), fun j x hx => hpid ▸ h.below j x (hold hx),
    fun j x hx => hspace ▸ h.space j x (hold hx)⟩

/-- What a change of an entry leaves alone. -/
def waitView (p : Process) : (ℕ × ℕ) × Option ℕ × Option ℕ × ProcessState :=
  (filing p, p.futexWaitAddr, p.futexWaitDeadline, p.state)

/-- The operations of the process table, the wait call, and whatever else the kernel does. -/
inductive Op where
  | wait (env : FutexEnv) (uaddr : ℕ) (val : Int32) (timeout : ℕ)
  | wake (addr count : ℕ)
  | requeue (source target wakeCount requeueCount : ℕ)
  | clear (tid : ℕ)
  | clearGroup (tgid : ℕ)
  | exitThread (heap : Heap) (code : Int32)
  | exitGroup (heap : Heap) (code : Int32)
  | forceExit (heap : Heap) (code : Int32) (tgid : ℕ)
  | execve (cloneHeap stackHeap : Heap) (entry : UInt64) (sp : Option UInt64)
  | fork (heap : Heap)
  | forkShared
  | cloneThread (heap : Heap) (fuel stack : ℕ) (tls : Option ℕ)
  | reap (parent : ℕ) (selector : WaitSelector)
  | touch (tid : ℕ) (f : Process → Process) (h : ∀ p, waitView (f p) = waitView p)
  | touchGroup (tgid : ℕ) (f : Process → Process) (h : ∀ p, waitView (f p) = waitView p)
  | memory (p : Process) (M : Machine)
  | setCurrent (tid : ℕ)
  | schedule (f : Scheduler → Scheduler)

/-- The kernel, and beside it the threads that a wake has taken out of a queue since they last
went to sleep. -/
structure State where
  kernel : KernelState
  woken : List ℕ

def onTable (f : Table → Table) (k : KernelState) : KernelState := { k with table := f k.table }

def Op.run (hal : HalMemory) (k : KernelState) : Op → Option KernelState
  | wait env uaddr val timeout => some (futexWait hal env uaddr val timeout k).2
  | wake addr count => some (onTable (fun t => (t.wakeFutex addr count).2) k)
  | requeue source target wakeCount requeueCount =>
    some (onTable (fun t => (t.requeueFutex source target wakeCount requeueCount).2) k)
  | clear tid => some (onTable (clearFutexWaitState tid) k)
  | clearGroup tgid => some (onTable (fun t => (t.wakeAllFutexWaitersInTgid tgid).2) k)
  | exitThread heap code => some (onTable (fun t => (t.exitCurrentThread hal heap code).2) k)
  | exitGroup heap code => some (onTable (fun t => (t.exitCurrentProcessGroup hal heap code).2) k)
  | forceExit heap code tgid => some (onTable (fun t => (t.forceExitGroup hal heap code tgid).2) k)
  | execve cloneHeap stackHeap entry sp =>
    some (onTable (fun t => (t.execveCurrentImage hal cloneHeap stackHeap entry sp).2) k)
  | fork heap => some (onTable (fun t => (t.forkProcessFromCurrent hal heap).2) k)
  | forkShared => some (onTable (fun t => t.forkProcessFromCurrentShared.2) k)
  | cloneThread heap fuel stack tls =>
    (k.table.cloneThreadFromCurrent hal heap fuel stack tls).map fun out =>
      { k with table := out.2 }
  | reap parent selector => some (onTable (fun t => (t.waitChild parent selector).2) k)
  | touch tid f _ => some (onTable (Table.modify tid f) k)
  | touchGroup tgid f _ => some (onTable (Table.modifyGroup tgid f) k)
  | memory p M => some (onTable (putMachine p M) k)
  | setCurrent tid => some (onTable (fun t => (t.setCurrent tid).2) k)
  | schedule f => some { k with scheduler := f k.scheduler }

def Op.wakes (t : Table) : Op → List ℕ
  | wake addr count => (t.wakeFutex addr count).1
  | requeue source target wakeCount requeueCount =>
    (t.requeueFutex source target wakeCount requeueCount).1
  | _ => []

def Op.sleeps (t u : Table) : Op → Option ℕ
  | wait _ uaddr _ _ =>
    match t.current with
    | .error _ => none
    | .ok p => if p.tid ∈ queue u uaddr ∧ p.tid ∉ queue t uaddr then some p.tid else none
  | _ => none

def Op.step (hal : HalMemory) (s : State) (op : Op) : Option State :=
  (op.run hal s.kernel).map fun k =>
    ⟨k, (s.woken ++ op.wakes s.kernel.table).filter fun i =>
      op.sleeps s.kernel.table k.table ≠ some i⟩

/-- A wait is made by a live thread; a requeue moves nobody to another queue; the caller of an
`execve` stands in no queue. -/
def Op.Safe (t : Table) : Op → Prop
  | wait _ _ _ _ => ∀ p, t.current = .ok p → p.state ≠ .exited
  | requeue source target wakeCount requeueCount =>
    source = target ∨ requeueCount = 0 ∨ (queue t source).length ≤ wakeCount
  | execve _ _ _ _ => ∀ p, t.current = .ok p → ∀ a, t.currentTid ∉ queue t a
  | _ => True

structure Sound (s : State) : Prop where
  filed : Filed s.kernel.table
  paired : Paired s.kernel.table
  consistent : Consistent (book s.kernel.table)
  accounted : Accounted (book s.kernel.table) (· ∈ s.woken)

structure Mild (t u : Table) : Prop where
  filed : Filed t → Filed u
  paired : Paired t → Paired u
  silent : Silent t u

namespace Mild

theorem refl (t : Table) : Mild t t := ⟨id, id, .refl t⟩

theorem trans (h : Mild t u) (k : Mild u v) : Mild t v :=
  ⟨k.filed ∘ h.filed, k.paired ∘ h.paired, h.silent.trans k.silent⟩

end Mild

theorem keeps_of_processes {β : Type} {view : Process → β} (h : u.processes = t.processes) (hpid : u.nextPid = t.nextPid)
    (hspace : u.nextSpace = t.nextSpace) : Keeps view t u :=
  ⟨funext fun j => by rw [held, held, h], hpid, hspace⟩

theorem waitsAt_of_view (h : waitView q = waitView p) : waitsAt (kinOf q) = waitsAt (kinOf p) := by
  simp only [waitView, Prod.mk.injEq] at h
  obtain ⟨-, haddr, -, hstate⟩ := h
  show (if q.state = .exited then none else q.futexWaitAddr) = _
  rw [hstate, haddr]
  rfl

theorem waiting_of_view (h : waitView q = waitView p) : waiting q = waiting p := by
  simp only [waitView, Prod.mk.injEq] at h
  simp [waiting, h]

theorem mild_modify (h : ∀ p, waitView (f p) = waitView p) : Mild t (t.modify j f) where
  filed ht := ht.keeps (keeps_modify fun p => congrArg Prod.fst (h p))
  paired ht := ht.keeps (keeps_modify fun p => waiting_of_view (h p))
  silent := silent_of_book (congrArg (Book.mk (queue t)) (funext fun i =>
    modify_same (fun o => (o.map kinOf).bind waitsAt) (fun p => waitsAt_of_view (h p)) j i t))

theorem mild_modifyGroup (h : ∀ p, waitView (f p) = waitView p) :
    Mild t (t.modifyGroup g f) where
  filed ht := ht.keeps (keeps_modifyGroup fun p => congrArg Prod.fst (h p))
  paired ht := ht.keeps (keeps_modifyGroup fun p => waiting_of_view (h p))
  silent := silent_of_book (congrArg (Book.mk (queue t)) (funext fun i =>
    modifyGroup_same (fun o => (o.map kinOf).bind waitsAt) (fun p => waitsAt_of_view (h p)) g i t))

theorem keeps_clearFutexWaitState (tid : ℕ) (t : Table) :
    Keeps filing t (t.clearFutexWaitState tid) := by
  unfold clearFutexWaitState
  split
  · exact .refl t
  have hclear : Keeps filing t (t.modify tid fun p =>
      { p with futexWaitAddr := none, futexWaitDeadline := none, eintrCount := 0 }) :=
    keeps_modify fun p => rfl
  simp only
  split
  · exact hclear
  · refine hclear.trans ?_
    unfold removeFutexWaiterAt
    split <;> exact ⟨rfl, rfl, rfl⟩

theorem mild_clear (tid : ℕ) (t : Table) : Mild t (t.clearFutexWaitState tid) :=
  ⟨fun h => h.keeps (keeps_clearFutexWaitState tid t), fun h => h.clearFutexWaitState tid,
    silent_clearFutexWaitState tid t⟩

theorem mild_clearGroup (tgid : ℕ) (t : Table) : Mild t (t.wakeAllFutexWaitersInTgid tgid).2 := by
  have hfold : ∀ (tids : List ℕ) (t : Table),
      Mild t (tids.foldl (fun t tid => t.clearFutexWaitState tid) t) := by
    intro tids
    induction tids with
    | nil => exact fun t => .refl t
    | cons tid tids ih => exact fun t => (mild_clear tid t).trans (ih _)
  exact hfold _ t

theorem mild_born {q : Kin} (hb : Filed t → Born t u q) (hq : q.futexWaitAddr = none)
    (hqueue : queue u = queue t) (hpaired : Paired t → Paired u) (h : Filed t) : Mild t u :=
  ⟨fun h => h.born (hb h), hpaired, silent_of_book (book_born h (hb h) hq hqueue)⟩

section Creation

variable (hal : HalMemory) (heap : Heap) {t : Table}

theorem mild_takeId (t : Table) : Mild t { t with nextPid := t.nextPid + 1 } :=
  ⟨Filed.takeId, id, silent_of_book rfl⟩

theorem mild_forkShared (h : Filed t) : Mild t t.forkProcessFromCurrentShared.2 := by
  rcases hp : t.current with e | p
  · simp only [forkProcessFromCurrentShared, current_takeId, hp]
    exact mild_takeId t
  obtain ⟨u, hu, ho⟩ := forkShared_offspring h hp
  have hout : u = (t.forkProcessFromCurrentShared).2 := by rw [hu]
  rw [← hout]
  simp only [forkProcessFromCurrentShared, current_takeId, hp] at hout
  subst hout
  exact mild_born (fun _ => ho.born) rfl rfl (fun hpaired => Paired.insert hpaired rfl) h

theorem mild_fork (h : Filed t) : Mild t (t.forkProcessFromCurrent hal heap).2 := by
  rcases hp : t.current with e | p
  · simp only [forkProcessFromCurrent, current_takeId, hp]
    exact mild_takeId t
  rcases fork_offspring hal heap h hp with ⟨-, e, hu⟩ | ⟨-, u, hu, ho⟩
  · rw [hu]
    exact mild_takeId t
  have hout : u = (t.forkProcessFromCurrent hal heap).2 := by rw [hu]
  rw [← hout]
  simp only [forkProcessFromCurrent, current_takeId, hp] at hout
  split at hout
  · subst hout
    exact mild_takeId t
  · subst hout
    exact mild_born (fun _ => ho.born) rfl rfl (fun hpaired => Paired.insert hpaired rfl) h

theorem mild_cloneThread {fuel stack : ℕ} {tls : Option ℕ} {r : KernelResult ℕ} (h : Filed t)
    (hrun : t.cloneThreadFromCurrent hal heap fuel stack tls = some (r, u)) : Mild t u := by
  rcases hp : t.current with e | p
  · simp only [cloneThreadFromCurrent, current_takeId, hp, some.injEq, Prod.mk.injEq] at hrun
    rw [← hrun.2]
    exact mild_takeId t
  obtain ⟨-, sp, M, -, ho, -⟩ := cloneThread_offspring hal heap h hp hrun
  simp only [cloneThreadFromCurrent, current_takeId, hp, map_eq_some_iff] at hrun
  obtain ⟨⟨sp', M'⟩, -, hrun⟩ := hrun
  obtain ⟨-, rfl⟩ := hrun
  exact mild_born (fun _ => ho.born) rfl rfl (fun hpaired => Paired.insert hpaired rfl) h

end Creation

section Wait

variable (hal : HalMemory) (env : FutexEnv) {deadline : ℕ}

theorem mild_answerInterrupted (count : ℕ) (k : KernelState) :
    Mild k.table (answerInterrupted count k).2.table := by
  unfold answerInterrupted
  split
  · exact mild_modify fun p => rfl
  · exact .refl _

theorem answerInterrupted_error (count : ℕ) (k : KernelState) :
    ∃ e, (answerInterrupted count k).1 = .error e := by
  unfold answerInterrupted
  split
  · exact ⟨eagain, rfl⟩
  · exact ⟨eintr, rfl⟩

theorem mild_resumeWait (uaddr deadline : ℕ) (p : Process) (k : KernelState) :
    Mild k.table (resumeWait env uaddr deadline p k).2.table := by
  have hcount : Mild k.table (k.table.modify k.table.currentTid countEintr) :=
    mild_modify fun p => rfl
  unfold resumeWait
  split
  · refine Mild.trans ?_ (mild_answerInterrupted _ _)
    split
    · exact hcount
    · exact hcount.trans (mild_clear _ _)
  · split
    · exact mild_clear _ _
    · split
      · exact mild_clear _ _
      · exact .refl _

def asleep (uaddr deadline : ℕ) (p : Process) (t : Table) : Table :=
  (t.enqueueFutexWaiter uaddr p.tid).modify t.currentTid (sleepAt uaddr deadline)

theorem startWait_cases (uaddr : ℕ) (val : Int32) (timeout : ℕ) (hp : k.table.current = .ok p) :
    (Mild k.table (startWait hal env uaddr val timeout k).2.table ∨
      ∃ deadline, (startWait hal env uaddr val timeout k).2.table =
        asleep uaddr deadline p k.table) ∧
      ∃ e, (startWait hal env uaddr val timeout k).1 = .error e := by
  unfold startWait
  simp only [hp]
  split
  · have hcount : Mild k.table (k.table.modify k.table.currentTid countEintr) :=
      mild_modify fun p => rfl
    refine ⟨.inl (hcount.trans (mild_answerInterrupted _
      { k with table := k.table.modify k.table.currentTid countEintr })), ?_⟩
    exact answerInterrupted_error _ _
  · split
    · next e _ => exact ⟨.inl (.refl _), e, rfl⟩
    · split
      · exact ⟨.inl (.refl _), eagain, rfl⟩
      · split
        · next e _ => exact ⟨.inl (.refl _), e, rfl⟩
        · next deadline _ => exact ⟨.inr ⟨deadline, rfl⟩, eagain, rfl⟩

theorem book_asleep (uaddr deadline : ℕ) (hp : t.current = .ok p)
    (htid : p.tid = t.currentTid) (hlive : p.state ≠ .exited) :
    book (asleep uaddr deadline p t) = (book t).join uaddr p.tid := by
  have hqueue : queue (asleep uaddr deadline p t) = _ := enqueueFutexWaiter_queue uaddr p.tid t
  have hkin : kin (asleep uaddr deadline p t) = update (kin t) t.currentTid
      ((kin t t.currentTid).map fun q => { q with futexWaitAddr := some uaddr }) :=
    kin_modify fun p => rfl
  simp only [book, Book.join, Book.mk.injEq]
  refine ⟨by congr, funext fun i => ?_⟩
  rw [hkin, htid, update_apply, update_apply]
  split
  · simp [current_kin hp, waitsAt, kinOf, hlive]
  · rfl

theorem filed_asleep (h : Filed t) : Filed (asleep uaddr deadline p t) := by
  have hqueue : Keeps filing t (t.enqueueFutexWaiter uaddr p.tid) := ⟨rfl, rfl, rfl⟩
  exact h.keeps (hqueue.trans (keeps_modify fun p => rfl))

theorem paired_asleep (h : Paired t) : Paired (asleep uaddr deadline p t) := by
  have hqueue : Keeps waiting t (t.enqueueFutexWaiter uaddr p.tid) := ⟨rfl, rfl, rfl⟩
  exact (h.keeps hqueue).modify fun p _ hdeadline => by simp [sleepAt] at hdeadline

end Wait

theorem Sound.leaves {called : List ℕ} (h : Sound s)
    (hfiled : Filed k.table) (hpaired : Paired k.table)
    (hleaves : Leaves (book s.kernel.table) (book k.table) (· ∈ called)) :
    Sound ⟨k, s.woken ++ called⟩ where
  filed := hfiled
  paired := hpaired
  consistent := hleaves.consistent h.consistent
  accounted i a hi := by
    simpa using hleaves.accounted h.accounted i a hi

theorem Sound.mild (h : Sound s) (hm : Mild s.kernel.table k.table) : Sound ⟨k, s.woken⟩ := by
  have hleaves : Leaves (book s.kernel.table) (book k.table) (· ∈ ([] : List ℕ)) :=
    hm.silent.mono fun i hi => hi.elim
  have hsound := h.leaves (hm.filed h.filed) (hm.paired h.paired) hleaves
  rwa [append_nil] at hsound

theorem queue_append (a : ℕ) (ws : List ℕ) (t : Table) :
    queue { t with futexWaiters := t.futexWaiters.insert a (t.futexWaiters.getD a [] ++ ws) } =
      update (queue t) a (queue t a ++ ws) := by
  funext c
  simp only [queue, ExtTreeMap.getD_insert, update_apply]
  by_cases hc : c = a
  · subst hc
    simp
  · have hne : ¬ a = c := Ne.symm hc
    simp [hc, hne]

theorem silent_turn (hkin : kin u = kin t) (hperm : ∀ a, (queue u a).Perm (queue t a)) :
    Silent t u := by
  have hplace : (book u).place = (book t).place := by
    unfold book
    rw [hkin]
  exact ⟨fun a => (hperm a).subperm, fun a i _ hb => hplace ▸ hb,
    fun i a hc => ⟨hplace ▸ hc, fun hi => .inl ((hperm a).mem_iff.mpr hi)⟩⟩

/-- A requeue that moves nobody elsewhere wakes and perhaps turns one queue. -/
theorem leaves_requeue {source target wakeCount requeueCount : ℕ} (hsafe : source = target ∨ requeueCount = 0 ∨ (queue t source).length ≤ wakeCount) :
    Leaves (book t) (book (t.requeueFutex source target wakeCount requeueCount).2)
      (· ∈ (t.requeueFutex source target wakeCount requeueCount).1) := by
  have hfirst := leaves_wakeFutex source wakeCount t
  obtain ⟨-, hqueue⟩ := wakeFutex_queue source wakeCount t
  unfold requeueFutex
  simp only
  generalize t.wakeFutex source wakeCount = out at *
  obtain ⟨woke, u⟩ := out
  simp only at hfirst hqueue ⊢
  obtain ⟨hmoved, hrest⟩ := wakeFutex_queue source requeueCount u
  have hsecond := leaves_wakeFutex source requeueCount u
  have hkin : kin (u.wakeFutex source requeueCount).2 = kin u := by
    unfold wakeFutex
    split <;> rfl
  generalize u.wakeFutex source requeueCount = out at *
  obtain ⟨moved, v⟩ := out
  simp only at hmoved hrest hsecond hkin ⊢
  split
  · next hempty =>
    rw [List.isEmpty_iff.mp hempty] at hsecond
    exact (hfirst.trans hsecond).mono fun i hi => hi.elim id fun h => by cases h
  next hmany =>
  -- somebody moves, so source and target are one queue
  have hsame : source = target := by
    rcases hsafe with hsame | hzero | hshort
    · exact hsame
    · rw [hzero, take_zero] at hmoved
      simp [hmoved] at hmany
    · rw [hqueue, update_self, drop_eq_nil_of_le hshort, take_nil] at hmoved
      simp [hmoved] at hmany
  subst hsame
  refine (hfirst.trans (silent_turn (t := u) ?_ fun a => ?_)).mono fun i hi =>
    hi.elim id fun h => h.elim
  · exact hkin
  · rw [queue_append, hrest, update_self, update_idem, update_apply]
    split
    · next ha =>
      subst ha
      rw [hmoved]
      exact perm_append_comm.trans (by rw [take_append_drop])
    · exact .refl _

theorem requeue_processes (source target wakeCount requeueCount : ℕ) (t : Table) :
    (t.requeueFutex source target wakeCount requeueCount).2.processes = t.processes ∧
    (t.requeueFutex source target wakeCount requeueCount).2.nextPid = t.nextPid ∧
    (t.requeueFutex source target wakeCount requeueCount).2.nextSpace = t.nextSpace := by
  have hwake : ∀ (a n : ℕ) (t : Table), (t.wakeFutex a n).2.processes = t.processes ∧
      (t.wakeFutex a n).2.nextPid = t.nextPid ∧
      (t.wakeFutex a n).2.nextSpace = t.nextSpace := by
    intro a n t
    unfold wakeFutex
    split <;> exact ⟨rfl, rfl, rfl⟩
  obtain ⟨hp, hpid, hspace⟩ := hwake source wakeCount t
  obtain ⟨hp', hpid', hspace'⟩ := hwake source requeueCount (t.wakeFutex source wakeCount).2
  unfold requeueFutex
  simp only
  split <;> exact ⟨hp'.trans hp, hpid'.trans hpid, hspace'.trans hspace⟩

section Step

variable {hal : HalMemory} {env : FutexEnv} {val : Int32} {timeout : ℕ}

/-- The caller has no address written down, so it stands nowhere, and goes to sleep. -/
theorem Sound.asleep (uaddr deadline : ℕ) {s' : Scheduler}
    (h : Sound ⟨⟨t, s'⟩, s.woken⟩) (hp : t.current = .ok p) (hlive : p.state ≠ .exited)
    (haddr : p.futexWaitAddr = none) (s'' : Scheduler) :
    Sound ⟨⟨asleep uaddr deadline p t, s''⟩, s.woken.filter fun i => some p.tid ≠ some i⟩ := by
  have htid := h.filed.current hp
  have hbook := book_asleep uaddr deadline hp htid hlive
  have hnone : (book t).place p.tid = none := by
    simp [book, htid, current_kin hp, waitsAt, kinOf, haddr]
  refine ⟨filed_asleep h.filed, paired_asleep h.paired, ?_, ?_⟩
  · rw [hbook]
    refine h.consistent.join fun c hc => ?_
    have hplace := h.consistent.placed c _ hc
    rw [hnone] at hplace
    cases hplace
  · rw [hbook]
    intro i a hi
    refine (h.accounted.join uaddr p.tid i a hi).imp id fun hwoken => ?_
    exact mem_filter.mpr ⟨hwoken.1, by simpa using Ne.symm hwoken.2⟩

theorem clear_current (hp : t.current = .ok p) :
    ∃ q, (t.clearFutexWaitState t.currentTid).current = .ok q ∧ q.tid = p.tid ∧
      q.state = p.state ∧ q.futexWaitAddr = none := by
  have hentry := current_ok hp
  have hget : (t.processes.modify t.currentTid fun p =>
      { p with futexWaitAddr := none, futexWaitDeadline := none, eintrCount := 0 })[t.currentTid]? =
      some { p with futexWaitAddr := none, futexWaitDeadline := none, eintrCount := 0 } := by
    simp [hentry]
  refine ⟨{ p with futexWaitAddr := none, futexWaitDeadline := none, eintrCount := 0 }, ?_, rfl,
    rfl, rfl⟩
  unfold clearFutexWaitState
  simp only [hentry]
  split
  · simp [Table.current, Table.modify, hget]
  · unfold removeFutexWaiterAt
    split <;> simp [Table.current, Table.setQueue, Table.modify, hget]

/-- A wait lets waiters withdraw, or the caller, which has no address written down by then, goes
to sleep. -/
theorem futexWait_cases (hal : HalMemory) (env : FutexEnv) (uaddr : ℕ) (val : Int32) (timeout : ℕ)
    (hfiled : Filed k.table) (hpaired : Paired k.table)
    (hp : k.table.current = .ok p) :
    Mild k.table (futexWait hal env uaddr val timeout k).2.table ∨
      ∃ (t : Table) (deadline : ℕ) (q : Process), Mild k.table t ∧ t.current = .ok q ∧
        q.tid = p.tid ∧ q.state = p.state ∧ q.futexWaitAddr = none ∧
        p.futexWaitAddr ≠ some uaddr ∧
        (futexWait hal env uaddr val timeout k).2.table = asleep uaddr deadline q t := by
  have htid := hfiled.current hp
  unfold futexWait
  simp only [hp]
  split
  · next waitAddr deadline haddr _ =>
    split
    · exact .inl (mild_resumeWait env uaddr deadline p k)
    next hne =>
    have hclear := mild_clear p.tid k.table
    obtain ⟨q, hcurrent, hqtid, hqstate, hqaddr⟩ := clear_current hp
    rw [← htid] at hcurrent
    rcases (startWait_cases hal env uaddr val timeout
      (k := { k with table := k.table.clearFutexWaitState p.tid }) hcurrent).1 with hm | ⟨d, hd⟩
    · exact .inl (hclear.trans hm)
    · refine .inr ⟨_, d, q, hclear, hcurrent, hqtid, hqstate, hqaddr, ?_, hd⟩
      rw [haddr]
      exact fun heq => hne (some.inj heq)
  · next hnone =>
    have haddr : p.futexWaitAddr = none := by
      by_contra hsome
      obtain ⟨a, ha⟩ := ne_none_iff_exists'.mp hsome
      have hdeadline := hpaired _ _ (held_of_entry (current_ok hp)) (by simp [waiting, ha])
      obtain ⟨d, hd⟩ := isSome_iff_exists.mp hdeadline
      exact hnone a d ha hd
    rcases (startWait_cases hal env uaddr val timeout hp).1 with hm | ⟨d, hd⟩
    · exact .inl hm
    · exact .inr ⟨_, d, p, .refl _, hp, rfl, rfl, haddr, by simp [haddr], hd⟩

theorem filter_none (woken : List ℕ) : woken.filter (fun i => (none : Option ℕ) ≠ some i) = woken :=
  filter_eq_self.mpr fun i _ => by simp

theorem wait_sound (h : Sound s) (hlive : ∀ p, s.kernel.table.current = .ok p → p.state ≠ .exited) :
    Sound ⟨(futexWait hal env uaddr val timeout s.kernel).2, s.woken.filter fun i =>
      (Op.wait env uaddr val timeout).sleeps s.kernel.table
        (futexWait hal env uaddr val timeout s.kernel).2.table ≠ some i⟩ := by
  rcases hp : s.kernel.table.current with e | p
  · simp only [futexWait, hp, Op.sleeps, filter_none]
    exact h
  have hlive := hlive p hp
  have htid := h.filed.current hp
  rcases futexWait_cases hal env uaddr val timeout h.filed h.paired hp with hm | ⟨t, d, q, hm, hq, hqtid, hqs, haddr, hne, hu⟩
  · have hawake : ¬ (p.tid ∈ queue (futexWait hal env uaddr val timeout s.kernel).2.table uaddr ∧
        p.tid ∉ queue s.kernel.table uaddr) :=
      fun hin => hin.2 ((hm.silent.subperm uaddr).subset hin.1)
    simp only [Op.sleeps, hp, if_neg hawake, filter_none]
    exact h.mild hm
  · have hqlive : q.state ≠ .exited := hqs ▸ hlive
    have hqcur := (hm.filed h.filed).current hq
    have hbook := book_asleep uaddr d hq hqcur hqlive
    have hin : p.tid ∈ queue (asleep uaddr d q t) uaddr := by
      show p.tid ∈ (book (asleep uaddr d q t)).queue uaddr
      rw [hbook, ← hqtid]
      simp only [Book.join, update_self]
      split
      · assumption
      · simp
    have hout : p.tid ∉ queue s.kernel.table uaddr := by
      intro hmem
      have hplace := h.consistent.placed uaddr p.tid hmem
      simp only [book, htid, current_kin hp, bind_some, waitsAt, kinOf, if_neg hlive] at hplace
      exact hne hplace
    simp only [Op.sleeps, hp, hu, if_pos (And.intro hin hout)]
    have hsound := Sound.asleep uaddr d (h.mild (k := ⟨t, s.kernel.scheduler⟩) hm)
      hq hqlive haddr (futexWait hal env uaddr val timeout s.kernel).2.scheduler
    rw [hqtid, ← hu] at hsound
    exact hsound

/-- Neither a wait nor a wake. -/
def Op.plain : Op → Bool
  | wait _ _ _ _ => false
  | wake _ _ => false
  | requeue _ _ _ _ => false
  | _ => true

theorem Op.plain_quiet {op : Op} (h : op.plain = true) (t u : Table) :
    op.wakes t = [] ∧ op.sleeps t u = none := by
  cases op with
  | wait | wake | requeue => cases h
  | _ => exact ⟨rfl, rfl⟩

theorem Op.run_mild (op : Op) {l : KernelState} (hplain : op.plain = true)
    (hfiled : Filed k.table) (hsafe : op.Safe k.table) (hrun : op.run hal k = some l) :
    Mild k.table l.table := by
  cases op with
  | wait | wake | requeue => cases hplain
  | clear tid => exact some.inj hrun ▸ mild_clear tid _
  | clearGroup tgid => exact some.inj hrun ▸ mild_clearGroup tgid _
  | exitThread heap code =>
    exact some.inj hrun ▸
      ⟨fun ht => ht.keeps (keeps_exitCurrentThread hal heap code steady_filing _),
      fun ht => ht.keeps (keeps_exitCurrentThread hal heap code steady_waiting _),
      silent_exitCurrentThread hal heap code hfiled⟩
  | exitGroup heap code =>
    exact some.inj hrun ▸
      ⟨fun ht => ht.keeps (keeps_exitCurrentProcessGroup hal heap code steady_filing _),
      fun ht => ht.keeps (keeps_exitCurrentProcessGroup hal heap code steady_waiting _),
      silent_exitCurrentProcessGroup hal heap code _⟩
  | forceExit heap code tgid =>
    exact some.inj hrun ▸
      ⟨fun ht => ht.keeps (keeps_forceExitGroup hal heap code steady_filing tgid _),
      fun ht => ht.keeps (keeps_forceExitGroup hal heap code steady_waiting tgid _),
      silent_forceExitGroup hal heap code tgid _⟩
  | execve cloneHeap stackHeap entry sp =>
    exact some.inj hrun ▸
      ⟨fun ht => ht.execveCurrentImage hal cloneHeap stackHeap entry sp,
      fun ht => ht.execveCurrentImage hal cloneHeap stackHeap entry sp,
      silent_execveCurrentImage hal cloneHeap stackHeap entry sp hsafe⟩
  | fork heap => exact some.inj hrun ▸ mild_fork hal heap hfiled
  | forkShared => exact some.inj hrun ▸ mild_forkShared hfiled
  | cloneThread heap fuel stack tls =>
    obtain ⟨out, hout, rfl⟩ := map_eq_some_iff.mp hrun
    exact mild_cloneThread hal heap hfiled hout
  | reap parent selector =>
    exact some.inj hrun ▸ ⟨fun ht => Filed.waitChild ht parent selector,
      fun ht => ht.waitChild parent selector, silent_waitChild parent selector _⟩
  | touch tid f hf => exact some.inj hrun ▸ mild_modify hf
  | touchGroup tgid f hf => exact some.inj hrun ▸ mild_modifyGroup hf
  | memory p M =>
    exact some.inj hrun ▸ ⟨fun ht => ht.keeps (keeps_putMachine p M _),
      fun ht => ht.keeps (keeps_putMachine p M _), silent_of_book rfl⟩
  | setCurrent tid =>
    refine some.inj hrun ▸ ⟨fun ht => ht.keeps (keeps_setCurrent tid _),
      fun ht => ht.keeps (keeps_setCurrent tid _), silent_of_book ?_⟩
    simp only [onTable, Table.setCurrent]
    split <;> rfl
  | schedule f => exact some.inj hrun ▸ .refl _

theorem Op.step_sound (op : Op) {s' : State} (h : Sound s) (hsafe : op.Safe s.kernel.table)
    (hstep : op.step hal s = some s') : Sound s' := by
  obtain ⟨k, hk, rfl⟩ := map_eq_some_iff.mp hstep
  by_cases hplain : op.plain = true
  · obtain ⟨hwakes, hsleeps⟩ := Op.plain_quiet hplain s.kernel.table k.table
    rw [hwakes, hsleeps, append_nil, filter_none]
    exact h.mild (op.run_mild hplain h.filed hsafe hk)
  cases op with
  | wait env uaddr val timeout =>
    obtain rfl := some.inj hk
    simp only [Op.wakes, append_nil]
    exact wait_sound h hsafe
  | wake addr count =>
    obtain rfl := some.inj hk
    rw [show (Op.wake addr count).sleeps _ _ = none from rfl, filter_none]
    exact h.leaves (k := onTable (fun t => (t.wakeFutex addr count).2) s.kernel)
      (h.filed.keeps (keeps_wakeFutex addr count _))
      (h.paired.keeps (keeps_wakeFutex addr count _)) (leaves_wakeFutex addr count _)
  | requeue source target wakeCount requeueCount =>
    obtain rfl := some.inj hk
    rw [show (Op.requeue source target wakeCount requeueCount).sleeps _ _ = none from rfl,
      filter_none]
    obtain ⟨hp, hpid, hspace⟩ :=
      requeue_processes source target wakeCount requeueCount s.kernel.table
    exact h.leaves (k := onTable
        (fun t => (t.requeueFutex source target wakeCount requeueCount).2) s.kernel)
      (h.filed.keeps (keeps_of_processes hp hpid hspace))
      (h.paired.keeps (keeps_of_processes hp hpid hspace)) (leaves_requeue hsafe)
  | _ => exact absurd rfl hplain

inductive Run (hal : HalMemory) : State → State → Prop where
  | refl (s : State) : Run hal s s
  | tail {r s t} (op : Op) : Run hal r s → op.Safe s.kernel.table → op.step hal s = some t →
      Run hal r t

theorem Run.sound {t : State} (hrun : Run hal s t) (h : Sound s) : Sound t := by
  induction hrun with
  | refl => exact h
  | tail op _ hsafe hstep ih => exact op.step_sound ih hsafe hstep

theorem sound_boot (hal : HalMemory) (heap : Heap) (entry : UInt64) :
    Sound ⟨boot hal heap entry, []⟩ := by
  have hempty : Paired (emptyTable hal) := by
    intro j x hx
    simp [held, emptyTable] at hx
  refine ⟨filed_boot hal heap entry, ?_, ⟨fun a => ?_, fun a i hi => ?_⟩, fun i a hi => ?_⟩
  · refine hempty.of_held fun j x hx => ?_
    have hheld : held waiting (boot hal heap entry).table =
      update (held waiting (emptyTable hal)) 1 (some (none, none)) := held_insert
    rw [hheld, update_apply] at hx
    split at hx
    · exact .inr (some.inj hx ▸ rfl)
    · exact .inl hx
  · exact nodup_nil
  · cases hi
  · have hi : (kin (boot hal heap entry).table i).bind waitsAt = some a := hi
    simp only [boot, (spawn_kin hal heap none entry (emptyTable hal)).1, update_apply] at hi
    split at hi
    · cases hi
    · simp [kin, emptyTable] at hi

/-- The queues agree with the entries, and a wait answers success only to a thread that was
woken. -/
structure Bookkeeping (hal : HalMemory) (s : State) : Prop where
  once : ∀ a tid, (queue s.kernel.table a).count tid ≤ 1
  single : ∀ a b tid, tid ∈ queue s.kernel.table a → tid ∈ queue s.kernel.table b → a = b
  waits : ∀ a tid, tid ∈ queue s.kernel.table a → ∃ p, s.kernel.table.processes[tid]? = some p ∧
    p.state ≠ .exited ∧ p.futexWaitAddr = some a
  woken : ∀ env args k p, s.kernel.table.current = .ok p → p.state ≠ .exited →
    (args 1 &&& 0x7f = futexWaitOp ∨ args 1 &&& 0x7f = futexWaitBitset) →
    sysFutex hal env args s.kernel = (.ok 0, k) → p.tid ∈ s.woken

/-- Success is answered only to a caller that has the address written down and stands in no
queue. -/
theorem futexWait_ok {n : ℕ} {k' : KernelState} (hp : k.table.current = .ok p)
    (hok : futexWait hal env uaddr val timeout k = (.ok n, k')) :
    p.futexWaitAddr = some uaddr ∧ p.tid ∉ queue k.table uaddr := by
  have hstart : ∀ {l : KernelState}, startWait hal env uaddr val timeout l ≠ (.ok n, k') := by
    intro l hl
    cases hq : l.table.current with
    | error e =>
      simp only [startWait, hq] at hl
      cases hl
    | ok q =>
      obtain ⟨e, he⟩ := (startWait_cases hal env uaddr val timeout hq).2
      rw [hl] at he
      cases he
  unfold futexWait at hok
  simp only [hp] at hok
  split at hok
  · next waitAddr deadline haddr _ =>
    split at hok
    · next heq =>
      subst heq
      refine ⟨haddr, fun hmem => ?_⟩
      have hwaiting : k.table.isFutexWaiting waitAddr p.tid = true := by
        simpa [isFutexWaiting, queue] using hmem
      unfold resumeWait at hok
      rw [hwaiting] at hok
      split at hok
      · obtain ⟨e, he⟩ := answerInterrupted_error _ _
        rw [hok] at he
        cases he
      · simp only [Bool.not_true, Bool.false_eq_true, if_false] at hok
        split at hok <;> cases hok
    · exact absurd hok hstart
  · exact absurd hok hstart

theorem Sound.bookkeeping (h : Sound s) : Bookkeeping hal s := by
  refine ⟨fun a tid => nodup_iff_count_le_one.mp (h.consistent.nodup a) tid,
    fun a b tid => h.consistent.unique, fun a tid hmem => ?_, fun env args k p hp hlive hop hok => ?_⟩
  · obtain ⟨q, hq, hwaits⟩ := bind_eq_some_iff.mp (h.consistent.placed a tid hmem)
    obtain ⟨p, hp, rfl⟩ := kin_eq_some.mp hq
    unfold waitsAt at hwaits
    split at hwaits
    · cases hwaits
    · next hlive => exact ⟨p, hp, hlive, hwaits⟩
  · simp only [sysFutex, if_pos hop] at hok
    obtain ⟨haddr, hout⟩ := futexWait_ok hp hok
    have htid := h.filed.current hp
    have hplace : (book s.kernel.table).place p.tid = some (args 0) := by
      simp [book, htid, current_kin hp, waitsAt, kinOf, hlive, haddr]
    exact (h.accounted p.tid (args 0) hplace).resolve_left hout

/-- In every state that safe operations reach from the start of the kernel the futex bookkeeping
is consistent. -/
theorem futex_bookkeeping (hal : HalMemory) (heap : Heap) (entry : UInt64) (s : State)
    (hrun : Run hal ⟨boot hal heap entry, []⟩ s) : Bookkeeping hal s :=
  (hrun.sound (sound_boot hal heap entry)).bookkeeping

end Step

def benchEnv : FutexEnv := ⟨boardHeap, 0, false⟩

def mapPage : Op :=
  .memory (newProcess 1 none 0 0)
    (mapFixedBytes board boardHeap 0x10000 [] 0x1000 3 ⟨newUser board, fun _ => 0⟩).2

def sleepOnPage : Op := .wait benchEnv 0x10000 0 0

def start : State := ⟨small, []⟩

def runOps (s : State) (ops : List Op) : Option State :=
  ops.foldlM (fun s op => op.step board s) s

theorem futex_bookkeeping_sleeper : ∃ s, runOps start [mapPage, sleepOnPage] = some s ∧
      queue s.kernel.table 0x10000 = [1] ∧ Bookkeeping board s := by
  have hcurrent : ((mapPage.step board start).map fun s =>
      s.kernel.table.current.toOption.map Process.state) = some (some .ready) := by decide +kernel
  have hqueue : ((runOps start [mapPage, sleepOnPage]).map fun s =>
      queue s.kernel.table 0x10000) = some [1] := by decide +kernel
  obtain ⟨s, hs, hsleeps⟩ := map_eq_some_iff.mp hqueue
  refine ⟨s, hs, hsleeps, futex_bookkeeping board noHeap 0 s ?_⟩
  obtain ⟨t, ht, hlive⟩ := map_eq_some_iff.mp hcurrent
  have hlast : sleepOnPage.step board t = some s := by
    simpa [runOps, ht] using hs
  refine .tail sleepOnPage (.tail mapPage (.refl _) trivial ht) (fun p hp hexited => ?_) hlast
  rw [hp] at hlive
  simp [Except.toOption, hexited] at hlive

def written (t : Table) (tid : ℕ) : Option ℕ := t.processes[tid]?.bind Process.futexWaitAddr

def answer (r : KernelResult ℕ) : Option ℕ := r.toOption

/-- A second thread sleeps at the page and is moved to another address: it stands there with the
old address written down, and its wait answers success although nobody woke it. A thread that runs
`execve` while it stands in a queue, as from a handler, still stands there afterwards. -/
theorem requeue_and_execve_lose_sleepers :
    (runOps start [mapPage, .cloneThread noHeap 0 0x1000 none, .setCurrent 2, sleepOnPage,
        .setCurrent 1, .requeue 0x10000 0x20000 0 1, .setCurrent 2]).map
      (fun s => (queue s.kernel.table 0x20000, written s.kernel.table 2, s.woken,
        answer (sysFutex board benchEnv ![0x10000, 0, 0, 0, 0, 0] s.kernel).1)) =
      some ([2], some 0x10000, [], some 0) ∧
    (runOps start [mapPage, sleepOnPage, .execve noHeap noHeap 0 none]).map
      (fun s => (queue s.kernel.table 0x10000, written s.kernel.table 1)) = some ([1], none) := by
  decide +kernel

end FutexRuns
