import Whuse.WaitBook
import Whuse.FutexCalls
import Whuse.AgreementRuns

/-! The futex queues against the addresses that the entries have written down. -/
namespace FutexQueues

open List
open Std (ExtTreeMap)
open AddressSpace TaskScheduler ProcessTable ProcessTable.Table ProcessCalls TableEffects Function
open TableFiling WaitBook FutexCalls

def queue (t : Table) (a : ℕ) : List ℕ := t.futexWaiters.getD a []

def waitsAt (q : Kin) : Option ℕ := if q.state = .exited then none else q.futexWaitAddr

def book (t : Table) : Book ℕ ℕ := ⟨queue t, fun i => (kin t i).bind waitsAt⟩

theorem queue_setQueue (a : ℕ) (ws : List ℕ) (t : Table) :
    queue (t.setQueue a ws) = update (queue t) a ws := by
  funext c
  simp only [queue, setQueue, update_apply, ExtTreeMap.getD_eq_getD_getElem?]
  by_cases hempty : ws.isEmpty = true
  · rw [if_pos hempty, ExtTreeMap.getElem?_erase]
    by_cases hc : c = a
    · subst hc
      simpa using (List.isEmpty_iff.mp hempty).symm
    · have hne : ¬ a = c := Ne.symm hc
      simp [hc, hne]
  · rw [if_neg hempty, ExtTreeMap.getElem?_insert]
    by_cases hc : c = a
    · subst hc
      simp
    · have hne : ¬ a = c := Ne.symm hc
      simp [hc, hne]

variable {t u v : Table} {a tid : ℕ}

theorem queue_eq {ws : List ℕ} (h : t.futexWaiters[a]? = some ws) : queue t a = ws := by
  simp [queue, ExtTreeMap.getD_eq_getD_getElem?, h]

theorem queue_none (h : t.futexWaiters[a]? = none) : queue t a = [] := by
  simp [queue, ExtTreeMap.getD_eq_getD_getElem?, h]

theorem wakeFutex_queue (a n : ℕ) (t : Table) : (t.wakeFutex a n).1 = (queue t a).take n ∧
      queue (t.wakeFutex a n).2 = update (queue t) a ((queue t a).drop n) := by
  unfold wakeFutex
  cases hget : t.futexWaiters[a]? with
  | none =>
    have hnil := queue_none hget
    refine ⟨by simp [hnil], ?_⟩
    rw [hnil, drop_nil, update_eq_self_iff.mpr hnil.symm]
  | some ws =>
    rw [queue_eq hget]
    exact ⟨rfl, queue_setQueue a _ t⟩

theorem filter_bne (tid : ℕ) (ws : List ℕ) : ws.filter (· != tid) = ws.filter (· ≠ tid) :=
  filter_congr fun i _ => by by_cases h : i = tid <;> simp [h]

theorem removeFutexWaiterAt_queue (a tid : ℕ) (t : Table) : queue (t.removeFutexWaiterAt a tid) =
      update (queue t) a ((queue t a).filter (· ≠ tid)) := by
  unfold removeFutexWaiterAt
  cases hget : t.futexWaiters[a]? with
  | none =>
    have hnil := queue_none hget
    rw [hnil, update_eq_self_iff.mpr hnil.symm]
  | some ws =>
    rw [queue_eq hget]
    rw [queue_setQueue, filter_bne]

theorem removeFutexWaiter_queue (tid : ℕ) (t : Table) :
    queue (t.removeFutexWaiter tid) = fun a => (queue t a).filter (· ≠ tid) := by
  funext a
  simp only [queue, removeFutexWaiter, ExtTreeMap.getD_eq_getD_getElem?,
    ExtTreeMap.getElem?_filterMap']
  rcases t.futexWaiters[a]? with _ | ws
  · rfl
  simp only [Option.bind_some, filter_bne]
  split
  · next hempty => exact (List.isEmpty_iff.mp hempty).symm
  · rfl

theorem enqueueFutexWaiter_queue (a tid : ℕ) (t : Table) : queue (t.enqueueFutexWaiter a tid) =
      update (queue t) a (if tid ∈ queue t a then queue t a else queue t a ++ [tid]) := by
  funext c
  simp only [queue, enqueueFutexWaiter, update_apply, ExtTreeMap.getD_eq_getD_getElem?,
    ExtTreeMap.getElem?_insert]
  by_cases hc : c = a
  · subst hc
    simp
  · have hne : ¬ a = c := Ne.symm hc
    simp [hc, hne]

/-- Waiters may withdraw, but nobody is woken. -/
def Silent (t u : Table) : Prop := Leaves (book t) (book u) fun _ => False

theorem Silent.refl (t : Table) : Silent t t := Leaves.refl _

theorem Silent.trans (h : Silent t u) (k : Silent u v) : Silent t v :=
  Leaves.silent h k

theorem silent_of_book (h : book u = book t) : Silent t u := by
  unfold Silent
  rw [h]
  exact Leaves.refl _

theorem book_of_kin (hqueue : queue u = queue t) (hkin : kin u = kin t) : book u = book t := by
  unfold book
  rw [hqueue, hkin]

theorem leaves_wakeFutex (a n : ℕ) (t : Table) :
    Leaves (book t) (book (t.wakeFutex a n).2) (· ∈ (t.wakeFutex a n).1) := by
  obtain ⟨hwoken, hqueue⟩ := wakeFutex_queue a n t
  have hkin : kin (t.wakeFutex a n).2 = kin t := by
    unfold wakeFutex
    split <;> rfl
  have hbook : book (t.wakeFutex a n).2 = (book t).call a n := by
    unfold book Book.call
    rw [hqueue, hkin]
  rw [hbook, hwoken]
  exact leaves_call (book t) a n

/-- An entry strikes out its address and leaves the queue of that address. -/
theorem leaves_strike {b c : Book ℕ ℕ} (hplace : b.place tid = none ∨ b.place tid = some a)
    (hc : c.place = update b.place tid none)
    (hqueue : c.queue = update b.queue a ((b.queue a).filter (· ≠ tid))) :
    Leaves b c fun _ => False := by
  refine ⟨fun d => ?_, fun d i hi hb => ?_, fun i d hd => ?_⟩
  · rw [hqueue, update_apply]
    split
    · next hda => subst hda; exact filter_sublist.subperm
    · exact .refl _
  · rw [hc, update_apply]
    split
    · next hi' =>
      -- the entry stood in no queue but this one
      subst hi'
      rw [hb] at hplace
      have hda : d = a := by simpa using hplace
      subst hda
      rw [hqueue] at hi
      simp at hi
    · exact hb
  · rw [hc, update_apply] at hd
    split at hd
    · cases hd
    next hne =>
    refine ⟨hd, fun hi => .inl ?_⟩
    rw [hqueue, update_apply]
    split
    · next hda =>
      subst hda
      exact mem_filter.mpr ⟨hi, by simpa using hne⟩
    · exact hi

theorem silent_clearFutexWaitState (tid : ℕ) (t : Table) :
    Silent t (t.clearFutexWaitState tid) := by
  unfold clearFutexWaitState
  rcases hp : t.processes[tid]? with _ | p
  · exact .refl t
  have hplace : (book (t.modify tid fun p =>
      { p with futexWaitAddr := none, futexWaitDeadline := none, eintrCount := 0 })).place =
      update (book t).place tid none := by
    funext i
    simp only [book]
    rw [kin_modify (g := fun q => { q with futexWaitAddr := none }) fun p => rfl,
      update_apply, update_apply]
    split
    · cases kin t tid <;> simp [waitsAt]
    · rfl
  have hqueue : queue (t.modify tid fun p =>
    { p with futexWaitAddr := none, futexWaitDeadline := none, eintrCount := 0 }) = queue t := rfl
  simp only
  generalize (t.modify tid fun p =>
    { p with futexWaitAddr := none, futexWaitDeadline := none, eintrCount := 0 }) = u at *
  have hold : (book t).place tid = none ∨ (book t).place tid = p.futexWaitAddr := by
    by_cases hs : p.state = .exited <;> simp [book, kin_of_entry hp, waitsAt, kinOf, hs]
  cases haddr : p.futexWaitAddr with
  | none =>
    rw [haddr, or_self] at hold
    rw [update_eq_self_iff.mpr hold.symm] at hplace
    refine silent_of_book ?_
    show Book.mk (queue u) (book u).place = book t
    rw [hqueue, hplace]
    rfl
  | some a =>
    rw [haddr] at hold
    have hkin : kin (u.removeFutexWaiterAt a tid) = kin u := by
      unfold removeFutexWaiterAt
      split <;> rfl
    refine leaves_strike hold ?_ ?_
    · rw [← hplace]
      simp [book, hkin]
    · exact (removeFutexWaiterAt_queue a tid u).trans (by rw [hqueue]; rfl)

/-- An entry that has left every queue and waits nowhere. -/
theorem silent_forget (tid : ℕ) (hqueue : queue u = fun a => (queue t a).filter (· ≠ tid))
    (hplace : ∀ i, (kin u i).bind waitsAt = if i = tid then none else (kin t i).bind waitsAt) :
    Silent t u := by
  have hbook : book u = (book t).forget tid := by
    simp only [book, Book.forget, hqueue, Book.mk.injEq, true_and]
    funext i
    rw [hplace, update_apply]
  unfold Silent
  rw [hbook]
  exact leaves_forget (book t) tid

theorem waitsAt_ended (code : Int32) (q : Kin) : waitsAt (q.ended code) = none := by
  simp [waitsAt, Kin.ended]

section Exits

variable (hal : HalMemory) (heap : Heap) (code : Int32)

theorem silent_leaveThread {p : Process} (hp : t.current = .ok p) (htid : p.tid = t.currentTid) :
    Silent t (t.leaveThread hal heap code p).2 := by
  refine silent_forget t.currentTid ?_ fun i => ?_
  · rw [← htid]
    exact removeFutexWaiter_queue p.tid (t.putMachine p (leaveMemory hal heap p (t.machine p)).2)
  · rw [leaveThread_kin hal heap code (current_ok hp), update_apply]
    split
    · exact waitsAt_ended code _
    · rfl

/-- A group without a live entry has no waiter. -/
theorem silent_endGroup {g : ℕ} (hdead : ∀ j q, kin t j = some q → q.tgid = g → q.state = .exited) :
    Silent t (t.endGroup code g) := by
  have hqueue : queue (t.endGroup code g) = queue t := by
    have hclear : ∀ (members : List Process) (u : Table),
        queue (members.foldl (fun u p => u.clearSpace p) u) = queue u := by
      intro members
      induction members with
      | nil => exact fun _ => rfl
      | cons p members ih => exact fun u => ih (u.clearSpace p)
    exact hclear _ _
  refine silent_of_book ?_
  simp only [book, hqueue, endGroup_kin, Book.mk.injEq, true_and]
  funext i
  rcases hq : kin t i with _ | q
  · rfl
  by_cases hg : q.tgid = g
  · simp [Kin.inGroup, hg, waitsAt, Kin.ended, hdead i q hq hg]
  · simp [Kin.inGroup, hg]

theorem book_sendSignalTid (pid signal : ℕ) (t : Table) :
    book (t.sendSignalTid pid signal).2 = book t := by
  have hqueue : queue (t.sendSignalTid pid signal).2 = queue t := by
    rcases t.sendSignalTid_cases pid signal with h | ⟨tid, h⟩ <;> rw [h]
    rfl
  exact book_of_kin hqueue (sameKin_sendSignalTid t pid signal).kin

theorem silent_notifyParent (parent : Option ℕ) (t : Table) : Silent t (t.notifyParent parent) := by
  cases parent with
  | none => exact .refl t
  | some parent => exact silent_of_book (book_sendSignalTid parent _ t)

theorem silent_exitCurrentThread (h : Filed t) :
    Silent t (t.exitCurrentThread hal heap code).2 := by
  unfold exitCurrentThread
  rcases hp : t.current with e | p
  · exact .refl t
  have htid := h.current hp
  have hleave := silent_leaveThread hal heap code hp htid
  have hkin := leaveThread_kin hal heap code (current_ok hp)
  have halive := leaveThread_groupAlive hal heap code (current_ok hp)
  simp only
  split
  · exact hleave
  next hdead =>
  rw [halive] at hdead
  refine (hleave.trans (silent_endGroup code fun j q hq hg => ?_)).trans
    (silent_notifyParent _ _)
  rw [hkin, update_apply] at hq
  split at hq
  · rw [← Option.some.inj hq]
    rfl
  next hj =>
  by_contra hstate
  obtain ⟨e, he, rfl⟩ := kin_eq_some.mp hq
  have hne : (kinOf e).tid ≠ p.tid := by
    rw [htid]
    exact fun heq => hj ((h.tid _ _ (held_of_entry he)).symm.trans heq)
  exact hdead (groupAlive_iff.mpr ⟨j, kinOf e, hq, hg, hne, hstate⟩)

theorem silent_exitEntry (found : List ℕ × Table) (tid : ℕ) :
    Silent found.2 (exitEntry hal heap code found tid).2 := by
  have hkin := exitEntry_kin hal heap code found tid
  refine silent_forget tid ?_ fun i => ?_
  · unfold exitEntry
    split
    · exact removeFutexWaiter_queue tid found.2
    · exact removeFutexWaiter_queue tid _
  · rw [hkin, update_apply]
    split
    · cases kin found.2 tid with
      | none => rfl
      | some q => exact waitsAt_ended code q
    · rfl

theorem silent_exitEntries (tids : List ℕ) (t : Table) :
    Silent t (t.exitEntries hal heap code tids).2 := by
  have hfold : ∀ (tids : List ℕ) (found : List ℕ × Table),
      Silent found.2 (tids.foldl (exitEntry hal heap code) found).2 := by
    intro tids
    induction tids with
    | nil => exact fun found => .refl _
    | cons tid tids ih => exact fun found => (silent_exitEntry hal heap code found tid).trans (ih _)
  exact hfold tids ([], t)

theorem silent_exitCurrentProcessGroup (t : Table) :
    Silent t (t.exitCurrentProcessGroup hal heap code).2 := by
  unfold exitCurrentProcessGroup
  split
  · exact .refl t
  · exact (silent_exitEntries hal heap code _ t).trans (silent_notifyParent _ _)

theorem silent_forceExitGroup (g : ℕ) (t : Table) :
    Silent t (t.forceExitGroup hal heap code g).2 := by
  unfold forceExitGroup
  simp only
  split
  · exact .refl t
  · exact (silent_exitEntries hal heap code _ t).trans (silent_notifyParent _ _)

end Exits

theorem silent_dropEntries (tids : List ℕ) (t : Table) : Silent t (t.dropEntries tids) := by
  induction tids generalizing t with
  | nil => exact .refl t
  | cons tid tids ih =>
    refine Silent.trans ?_ (ih _)
    refine silent_forget tid
      (removeFutexWaiter_queue tid { t with processes := t.processes.erase tid }) fun i => ?_
    show (kin { t with processes := t.processes.erase tid } i).bind waitsAt = _
    rw [kin_erase, update_apply]
    split <;> rfl

theorem waitsAt_adopt (c init : ℕ) (q : Kin) : waitsAt (q.adopt c init) = waitsAt q := by
  unfold Kin.adopt
  split <;> rfl

theorem silent_reapThreadGroup (c : ℕ) (t : Table) : Silent t (t.reapThreadGroup c) := by
  have hkin : kin (t.adoptChildren c t.initTgid) =
      fun j => (kin t j).map (Kin.adopt c t.initTgid) := kin_map (kinOf_adopt c t.initTgid)
  have hadopt : book (t.adoptChildren c t.initTgid) = book t := by
    refine congrArg (Book.mk (queue t)) (funext fun i => ?_)
    simp only [hkin]
    cases kin t i with
    | none => rfl
    | some q => exact waitsAt_adopt c _ q
  exact (silent_of_book hadopt).trans (silent_dropEntries _ _)

theorem silent_waitChild (parent : ℕ) (selector : WaitSelector) (t : Table) :
    Silent t (t.waitChild parent selector).2 := by
  rcases waitChild_cases parent selector t with ⟨hsame, -⟩ | ⟨j, q, -, -, -, -, -, hreap⟩
  · rw [hsame]
    exact .refl t
  · rw [hreap]
    exact silent_reapThreadGroup _ t

/-- An entry that stands in no queue loses the address it had written down. -/
theorem silent_reset (tid : ℕ) (q : Kin) (hkin : kin u = update (kin t) tid (some q))
    (hq : waitsAt q = none) (hqueue : queue u = queue t) (hout : ∀ a, tid ∉ queue t a) :
    Silent t u := by
  have hplace : ∀ i, (book u).place i = if i = tid then none else (book t).place i := by
    intro i
    simp only [book, hkin, update_apply]
    split
    · exact hq
    · rfl
  refine ⟨fun a => ?_, fun a i hi hb => ?_, fun i a hc => ?_⟩
  · show (queue u a).Subperm (queue t a)
    rw [hqueue]
  · have hi : i ∈ queue u a := hi
    rw [hqueue] at hi
    have hne : i ≠ tid := by
      rintro rfl
      exact hout a hi
    rw [hplace, if_neg hne, hb]
  · rw [hplace] at hc
    split at hc
    · cases hc
    refine ⟨hc, fun hi => .inl ?_⟩
    show i ∈ queue u a
    rw [hqueue]
    exact hi

/-- The caller of an `execve` must not stand in a queue. -/
theorem silent_execveCurrentImage (hal : HalMemory) (cloneHeap stackHeap : Heap) (entry : UInt64)
    (sp : Option UInt64) (hfree : ∀ p, t.current = .ok p → ∀ a, t.currentTid ∉ queue t a) :
    Silent t (t.execveCurrentImage hal cloneHeap stackHeap entry sp).2 := by
  rcases hp : t.current with e | p
  · rw [execveCurrentImage, hp]
    exact .refl t
  obtain ⟨q, hq⟩ := execve_replaced hal cloneHeap stackHeap entry sp hp
  have hdrop : Silent t (withoutOthers p t) := silent_dropEntries _ t
  refine hdrop.trans (silent_reset t.currentTid (kinOf q) ?_ (by rw [hq.kin]; rfl)
    (congrArg (fun m a => m.getD a []) hq.queues)
    fun a hi => hfree p hp a ((hdrop.subperm a).subset hi))
  exact (congrArg (fun m j => Option.map kinOf m[j]?) hq.processes).trans
    (kin_insert (t := withoutOthers p t))

theorem book_born {q : Kin} (h : Filed t) (hb : Born t u q) (hq : q.futexWaitAddr = none)
    (hqueue : queue u = queue t) : book u = book t := by
  simp only [book, hqueue, hb.kin, Book.mk.injEq, true_and]
  funext i
  rw [update_apply]
  split
  · next hi =>
    subst hi
    have hnone : kin t t.nextPid = none := by
      cases hget : t.processes[t.nextPid]? with
      | none => rw [kin, hget]; rfl
      | some p => exact absurd (h.below _ _ (held_of_entry hget)) (lt_irrefl _)
    rw [hnone]
    simp [waitsAt, hq]
  · rfl

end FutexQueues
