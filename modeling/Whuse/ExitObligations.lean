import Whuse.RobustLists
import Whuse.DeathNotices
import Whuse.FutexSeparation

/-! What an exit owes to others: the words its threads promised to clear or to mark, and a wake at
each address it reports. -/
namespace ExitObligations

open List Option
open MachineWord AddressSpace ByteFields TaskScheduler ProcessTable ProcessTable.Table ProcessCalls
open TableEffects ExitIsolation FutexQueues FutexSeparation RobustLists
open CallRuns (board boardHeap)

variable {tids : List ℕ} {p : Process} {s : Scheduler} {task : Task} {a j waiter : ℕ}

section Wakes

variable {k : KernelState} {task : Task} {waiter g : ℕ}

def Ready (task : Task) (s : Scheduler) : Prop := { task with state := .ready } ∈ s.ready

/-- The waiter sleeps as this task, or has been made ready. -/
def Kept (waiter : ℕ) (task : Task) (s : Scheduler) : Prop :=
  s.blocked[waiter]? = some task ∨ Ready task s

theorem lasts_ready (task : Task) : Lasts (Ready task) := by
  intro s h tid
  unfold Scheduler.wakeTask
  split
  · exact h
  · exact mem_append_left _ h

theorem Kept.wakeTask (h : Kept waiter task s) (tid : ℕ) :
    Kept waiter task (s.wakeTask tid) ∧ (tid = waiter → Ready task (s.wakeTask tid)) := by
  rcases h with hblocked | hready
  · by_cases htid : tid = waiter
    · have hwoken : Ready task (s.wakeTask tid) := by
        rw [htid]
        unfold Scheduler.wakeTask
        rw [hblocked]
        exact mem_append_right _ (mem_singleton.mpr rfl)
      exact ⟨.inr hwoken, fun _ => hwoken⟩
    · refine ⟨.inl ?_, fun heq => absurd heq htid⟩
      unfold Scheduler.wakeTask
      split
      · exact hblocked
      · rw [Std.ExtTreeMap.getElem?_erase, if_neg (by simpa using htid)]
        exact hblocked
  · have hstill := lasts_ready task s hready tid
    exact ⟨.inr hstill, fun _ => hstill⟩

theorem Kept.wakeTasks (h : Kept waiter task s) (tids : List ℕ) :
    Kept waiter task (s.wakeTasks tids) ∧ (waiter ∈ tids → Ready task (s.wakeTasks tids)) := by
  induction tids generalizing s with
  | nil => exact ⟨h, fun hmem => by cases hmem⟩
  | cons tid tids ih =>
    obtain ⟨hkept, hwoken⟩ := h.wakeTask tid
    refine ⟨(ih hkept).1, fun hmem => ?_⟩
    rcases mem_cons.mp hmem with heq | hmem
    · exact (lasts_ready task).wakeTasks (hwoken heq.symm) tids
    · exact (ih hkept).2 hmem

theorem Kept.exitGroup (h : Kept waiter task s) (hother : task.processId ≠ g) :
    Kept waiter task (s.exitGroup g) := by
  rcases h with hblocked | hready
  · left
    show (s.blocked.filter fun _ t => t.processId != g)[waiter]? = some task
    rw [Std.ExtTreeMap.getElem?_filter', hblocked]
    simp [hother]
  · right
    exact mem_filter.mpr ⟨hready, by simpa using hother⟩

variable {count count' : ℕ} {addrs rest addrs' : List ℕ} {a : ℕ}

theorem wakeWaiters_queue (count b : ℕ) (k : KernelState) (a : ℕ) :
    queue (wakeWaiters count b k).table a =
      if a = b then (queue k.table a).drop count else queue k.table a := by
  have hqueue := congrFun (wakeFutex_queue b count k.table).2 a
  rw [Function.update_apply] at hqueue
  refine Eq.trans hqueue ?_
  split
  · next h => rw [h]
  · rfl

theorem wakeEach_other (count : ℕ) (h : a ∉ addrs) (k : KernelState) :
    queue (addrs.foldl (fun k b => wakeWaiters count b k) k).table a = queue k.table a := by
  induction addrs generalizing k with
  | nil => rfl
  | cons b addrs ih =>
    rw [mem_cons, not_or] at h
    rw [foldl_cons, ih h.2, wakeWaiters_queue, if_neg h.1]

theorem wakeEach_suffix (addrs : List ℕ) (k : KernelState) (a : ℕ) :
    queue (addrs.foldl (fun k b => wakeWaiters count b k) k).table a <:+ queue k.table a := by
  induction addrs generalizing k with
  | nil => exact suffix_rfl
  | cons b addrs ih =>
    refine (ih (wakeWaiters count b k)).trans ?_
    rw [wakeWaiters_queue]
    split
    · exact drop_suffix count _
    · exact suffix_rfl

theorem lasts_kept (waiter : ℕ) (task : Task) : Lasts (Kept waiter task) :=
  fun _ h tid => (h.wakeTask tid).1

/-- The first waiter leaves the queue of an address that is called, and is made ready. -/
theorem wakeEach_serves (hcount : 1 ≤ count) (ha : a ∈ addrs)
    (hq : queue k.table a = waiter :: rest) :
    queue (addrs.foldl (fun k b => wakeWaiters count b k) k).table a <:+ rest ∧
      ∀ task, Kept waiter task k.scheduler →
        Ready task (addrs.foldl (fun k b => wakeWaiters count b k) k).scheduler := by
  induction addrs generalizing k with
  | nil => cases ha
  | cons b addrs ih =>
    by_cases hab : a = b
    · subst hab
      obtain ⟨n, rfl⟩ := Nat.exists_eq_add_of_le' hcount
      have hwoken : waiter ∈ (k.table.wakeFutex a (n + 1)).1 := by
        rw [(wakeFutex_queue a (n + 1) k.table).1, hq]
        exact mem_cons_self
      refine ⟨(wakeEach_suffix addrs _ a).trans ?_, fun task hkept => ?_⟩
      · rw [wakeWaiters_queue, if_pos rfl, hq]
        exact drop_suffix n rest
      · exact (lasts_ready task).wakeEach (k := wakeWaiters (n + 1) a k)
          ((hkept.wakeTasks _).2 hwoken) _ addrs
    · have hstill : queue (wakeWaiters count b k).table a = waiter :: rest := by
        rw [wakeWaiters_queue, if_neg hab, hq]
      obtain ⟨hsuffix, hready⟩ := ih ((mem_cons.mp ha).resolve_left hab) hstill
      exact ⟨hsuffix, fun task hkept => hready task (hkept.wakeTasks _).1⟩

theorem wakeTwice_serves (hcount : 1 ≤ count) (hcount' : 1 ≤ count') (ha : a ∈ addrs ∨ a ∈ addrs')
    (hq : queue k.table a = waiter :: rest) :
    let l := addrs.foldl (fun k b => wakeWaiters count b k) k
    queue (addrs'.foldl (fun k b => wakeWaiters count' b k) l).table a <:+ rest ∧
      ∀ task, Kept waiter task k.scheduler →
        Ready task (addrs'.foldl (fun k b => wakeWaiters count' b k) l).scheduler := by
  intro l
  by_cases hfirst : a ∈ addrs
  · obtain ⟨hsuffix, hready⟩ := wakeEach_serves hcount hfirst hq
    exact ⟨(wakeEach_suffix addrs' l a).trans hsuffix,
      fun task hkept => (lasts_ready task).wakeEach (hready task hkept) _ addrs'⟩
  · have hstill : queue l.table a = waiter :: rest := (wakeEach_other count hfirst k).trans hq
    obtain ⟨hsuffix, hready⟩ := wakeEach_serves hcount' (ha.resolve_left hfirst) hstill
    exact ⟨hsuffix, fun task hkept => hready task ((lasts_kept waiter task).wakeEach hkept _ addrs)⟩

end Wakes

inductive Way where
  | exit (code : Int32)
  | exitGroup (code : Int32)
  | fault
  | force (earlier : List ℕ) (tgid : ℕ) (later : List ℕ)

section Ways

variable (hal : HalMemory) (heap : Heap)

def Way.run (k : KernelState) : Way → KernelState
  | exit code => (sysExit hal heap false code k).2
  | exitGroup code => (sysExit hal heap true code k).2
  | fault => faultExit hal heap k
  | force earlier tgid later => watchdogKill hal heap (earlier ++ tgid :: later) k

def Way.before (t : Table) : Way → Table
  | force earlier _ _ => (forceExits hal heap earlier t).2
  | _ => t

def Way.leavers (t : Table) : Way → List ℕ
  | exit _ => match t.current with
    | .ok _ => [t.currentTid]
    | .error _ => []
  | force _ tgid _ => t.groupTids tgid
  | _ => match t.current with
    | .ok p => t.groupTids p.tgid
    | .error _ => []

def threadReport : KernelResult ThreadExit × Table → List ℕ × Table
  | (.error _, t) => ([], t)
  | (.ok x, t) => (x.clearChildTid.toList ++ x.tidAddress.toList ++ x.robustFutexAddrs, t)

def groupReport : Option GroupExit × Table → List ℕ × Table
  | (none, t) => ([], t)
  | (some x, t) => (x.clearChildTids ++ x.robustFutexAddrs, t)

def Way.record (t : Table) : Way → List ℕ × Table
  | exit code => threadReport (t.exitCurrentThread hal heap code)
  | exitGroup code => threadReport (t.exitCurrentProcessGroup hal heap code)
  | fault => threadReport (t.exitCurrentProcessGroup hal heap (-1))
  | force _ tgid _ => groupReport (t.forceExitGroup hal heap watchdogCode tgid)

def Way.ended (t : Table) : Way → Table
  | force earlier tgid later => (forceExits hal heap (earlier ++ tgid :: later) t).2
  | w => (w.record hal heap t).2

def Way.groups (t : Table) : Way → List ℕ
  | exit _ => match t.current with
    | .ok p => if t.groupAlive p.tgid p.tid then [] else [p.tgid]
    | .error _ => []
  | force earlier tgid later => earlier ++ tgid :: later
  | _ => match t.current with
    | .ok p => [p.tgid]
    | .error _ => []

def Leaves (w : Way) (t : Table) (j : ℕ) (p : Process) : Prop :=
  j ∈ w.leavers t ∧ t.processes[j]? = some p ∧ p.state ≠ .exited

def Holds (t : Table) (p : Process) (a w : ℕ) : Prop :=
  Listed hal p (t.machine p) a ∧ wordOf hal a (t.machine p) = some w ∧
    w &&& futexTidMask = p.tid &&& futexTidMask

def wordBytes (t : Table) (p : Process) (a : ℕ) : List ℕ :=
  wordLocs hal (t.machine p).space.mappings a

/-- Every live thread that leaves has its word cleared and its robust words marked, all these
addresses are reported, and at each address reported the first of those who wait leaves the queue
and is made ready. -/
structure Met (w : Way) (k : KernelState) : Prop where
  cleared : ∀ {j p a}, Leaves w (w.before hal heap k.table) j p → p.clearChildTid = some a →
    Writable hal a ((w.before hal heap k.table).machine p) →
      ∀ x ∈ wordBytes hal (w.before hal heap k.table) p a,
        (w.record hal heap (w.before hal heap k.table)).2.mem x = 0
  marked : ∀ {j p a word}, Leaves w (w.before hal heap k.table) j p →
    Holds hal (w.before hal heap k.table) p a word →
      (wordBytes hal (w.before hal heap k.table) p a).map
        (w.record hal heap (w.before hal heap k.table)).2.mem = leBytes 4 (ownerDied word)
  reported : ∀ {j p a}, Leaves w (w.before hal heap k.table) j p →
    (p.clearChildTid = some a ∨ ∃ word, Holds hal (w.before hal heap k.table) p a word) →
      a ∈ (w.record hal heap (w.before hal heap k.table)).1
  woken : ∀ a ∈ (w.record hal heap (w.before hal heap k.table)).1, ∀ waiter rest,
    queue (w.ended hal heap k.table) a = waiter :: rest →
      queue (w.run hal heap k).table a <:+ rest ∧
      ∀ task, k.scheduler.blocked[waiter]? = some task →
        task.processId ∉ w.groups k.table → Ready task (w.run hal heap k).scheduler

/-- The first entry that leaves. -/
def Way.first (t : Table) (w : Way) : Option Process :=
  (w.leavers t).head?.bind fun j => t.processes[j]?

/-- The threads share one address space. -/
def Shares (w : Way) (t : Table) : Prop :=
  ∀ {i j p q}, i ∈ w.leavers t → j ∈ w.leavers t → t.processes[i]? = some p →
    t.processes[j]? = some q → p.addressSpace = q.addressSpace

def FirstInLine (w : Way) (t : Table) : Prop :=
  ∀ {j p}, Leaves w t j p → p.clearChildTid.isSome ∨ (∃ a word, Holds hal t p a word) →
    (w.leavers t).head? = some j

def outsiders (w : Way) (t : Table) (a : ℕ) : List ℕ := (queue t a).filter (· ∉ w.leavers t)

def ownAddrs (t : Table) : List ℕ :=
  match t.current with
  | .ok p => p.clearChildTid.toList ++ p.tidAddress.toList
  | .error _ => []

/-- The record of a group exit names the caller's own addresses only; `exit_group` wakes nobody,
and `exit` nobody at the words of the robust list. -/
def Kindly (t : Table) (w : Way) : Prop :=
  match w with
  | .exit _ => ∀ p, w.first t = some p → ∀ a, Listed hal p (t.machine p) a → a ∉ ownAddrs t →
      outsiders w t a = []
  | .exitGroup _ => (∀ j p a, Leaves w t j p → p.clearChildTid = some a →
        a ∈ ownAddrs t ∨ Listed hal p (t.machine p) a) ∧
      (∀ a ∈ ownAddrs t, outsiders w t a = []) ∧
      ∀ p, w.first t = some p → ∀ a, Listed hal p (t.machine p) a → outsiders w t a = []
  | .fault => ∀ j p a, Leaves w t j p → p.clearChildTid = some a →
      a ∈ ownAddrs t ∨ Listed hal p (t.machine p) a
  | .force .. => True

end Ways

section Records

variable {t : Table}

theorem mem_foldl_pushUniqueAddr {addrs found : List ℕ} :
    a ∈ addrs.foldl pushUniqueAddr found ↔ a ∈ found ∨ a ∈ addrs := by
  induction addrs generalizing found with
  | nil => simp
  | cons b addrs ih =>
    rw [foldl_cons, ih, mem_pushUniqueAddr, mem_cons]
    exact or_assoc

variable (hal : HalMemory) (heap : Heap) {w : Way}

/-- In a cleared space the loop goes round without effect on memory. -/
theorem exitEntries_cleared (code : Int32) {space : ℕ} (tids : List ℕ) {found : List ℕ × Table}
    (hclear : (found.2.spaces space).mappings = ∅)
    (hshare : ∀ j ∈ tids, ∀ n, spaceOf found.2 j = some n → n = space) :
    (tids.foldl (exitEntry hal heap code) found).2.mem = found.2.mem ∧
      (tids.foldl (exitEntry hal heap code) found).1 = found.1 := by
  induction tids generalizing found with
  | nil => exact ⟨rfl, rfl⟩
  | cons j tids ih =>
    have htears := tears_exitEntry hal heap code found j
    have hstep : (exitEntry hal heap code found j).2.mem = found.2.mem ∧
        (exitEntry hal heap code found j).1 = found.1 := by
      unfold exitEntry
      rcases hp : found.2.processes[j]? with _ | p
      · exact ⟨rfl, rfl⟩
      have hspace : p.addressSpace = space := hshare j mem_cons_self _ (by rw [spaceOf, hp]; rfl)
      have hmachine : (found.2.machine p).space.mappings = ∅ := by
        rw [← hclear, ← hspace]
        rfl
      simp only [leaveMemory_cleared hmachine]
      exact ⟨rfl, rfl⟩
    obtain ⟨hmem, hfound⟩ := @ih (exitEntry hal heap code found j) (by
        by_cases hj : spaceOf found.2 j = some space
        · exact htears.emptied space hj
        · rw [htears.kept space hj, hclear])
      (by
        intro i hi n hn
        rw [htears.refs] at hn
        exact hshare i (mem_cons_of_mem j hi) n hn)
    exact ⟨hmem.trans hstep.1, hfound.trans hstep.2⟩

/-- Threads that share one space: only the first of them finds its words. -/
theorem exitEntries_shared (code : Int32) (hp : t.processes[j]? = some p)
    (hshare : ∀ i ∈ tids, ∀ q, t.processes[i]? = some q → q.addressSpace = p.addressSpace) :
    (t.exitEntries hal heap code (j :: tids)).2.mem = (leaveMemory hal heap p (t.machine p)).2.mem ∧
      ∀ a, a ∈ (t.exitEntries hal heap code (j :: tids)).1 ↔
        a ∈ (leaveMemory hal heap p (t.machine p)).1 := by
  have htears := tears_exitEntry hal heap code ([], t) j
  have hspace : spaceOf t j = some p.addressSpace := by rw [spaceOf, hp]; rfl
  have hstep : (exitEntry hal heap code ([], t) j).2.mem =
        (leaveMemory hal heap p (t.machine p)).2.mem ∧
      (exitEntry hal heap code ([], t) j).1 =
        (leaveMemory hal heap p (t.machine p)).1.foldl pushUniqueAddr [] := by
    unfold exitEntry
    simp only [hp]
    exact ⟨rfl, trivial⟩
  obtain ⟨hmem, hfound⟩ := exitEntries_cleared hal heap code tids
    (htears.emptied p.addressSpace hspace) (by
      intro i hi n hn
      rw [htears.refs] at hn
      obtain ⟨q, hq, rfl⟩ := spaceOf_eq_some.mp hn
      exact hshare i hi q hq)
  unfold exitEntries
  rw [foldl_cons, hmem, hfound, hstep.1, hstep.2]
  refine ⟨rfl, fun a => ?_⟩
  rw [mem_foldl_pushUniqueAddr]
  simp

def Way.named (t : Table) : Way → List ℕ
  | .force _ tgid _ => (t.groupTids tgid).filterMap fun j => t.processes[j]?.bind Process.clearChildTid
  | _ => ownAddrs t

theorem mem_unchanged {u v : Table} {c : ℕ → Prop} (h : Tears u v c []) : v.mem = u.mem :=
  funext fun x => h.outside x (not_mem_nil)

theorem record_nobody (h : w.leavers t = []) : w.record hal heap t = ([], t) := by
  have hgroup : ∀ {p}, t.current = .ok p → t.groupTids p.tgid ≠ [] := by
    intro p hp hnil
    have hmem : t.currentTid ∈ t.groupTids p.tgid :=
      mem_groupTids.mpr ⟨kinOf p, current_kin hp, rfl⟩
    rw [hnil] at hmem
    cases hmem
  cases w with
  | exit code =>
    cases hp : t.current with
    | error e => simp [Way.record, exitCurrentThread, hp, threadReport]
    | ok p => simp [Way.leavers, hp] at h
  | exitGroup code | fault =>
    rcases hp : t.current with e | p
    · simp [Way.record, exitCurrentProcessGroup, hp, threadReport]
    simp only [Way.leavers, hp] at h
    exact absurd h (hgroup hp)
  | force earlier tgid later =>
    have hnil : t.groupTids tgid = [] := h
    simp [Way.record, forceExitGroup, hnil, groupReport]

theorem record_spec (hshare : Shares w t) (hleavers : w.leavers t = j :: tids)
    (hp : t.processes[j]? = some p) :
    (w.record hal heap t).2.mem = (leaveMemory hal heap p (t.machine p)).2.mem ∧
      ∀ a, a ∈ (w.record hal heap t).1 ↔
        a ∈ w.named t ∨ a ∈ (leaveMemory hal heap p (t.machine p)).1 := by
  have hspaces : ∀ i ∈ tids, ∀ q, t.processes[i]? = some q → q.addressSpace = p.addressSpace := by
    intro i hi q hq
    have hmem : i ∈ w.leavers t ∧ j ∈ w.leavers t := by
      rw [hleavers]
      exact ⟨mem_cons_of_mem j hi, mem_cons_self⟩
    exact hshare hmem.1 hmem.2 hq hp
  cases w with
  | exit code =>
    rcases hcur : t.current with e | q
    · simp [Way.leavers, hcur] at hleavers
    simp only [Way.leavers, hcur] at hleavers
    obtain ⟨rfl, rfl⟩ := hleavers
    obtain rfl : q = p := some.inj ((current_ok hcur).symm.trans hp)
    simp only [Way.record, Way.named, ownAddrs, exitCurrentThread, hcur, threadReport, mem_append]
    refine ⟨?_, fun a => Iff.rfl⟩
    split
    · rfl
    · rw [mem_unchanged (tears_notifyParent _ _), mem_unchanged (tears_endGroup code _ _)]
      rfl
  | exitGroup | fault =>
    rcases hcur : t.current with e | q
    · simp [Way.leavers, hcur] at hleavers
    simp only [Way.leavers, hcur] at hleavers
    simp only [Way.record, Way.named, exitCurrentProcessGroup, hcur, hleavers, threadReport,
      ownAddrs, mem_append]
    exact ⟨(mem_unchanged (tears_notifyParent _ _)).trans
      (exitEntries_shared hal heap _ hp hspaces).1,
      fun a => or_congr_right ((exitEntries_shared hal heap _ hp hspaces).2 a)⟩
  | force earlier tgid later =>
    have htids : t.groupTids tgid = j :: tids := hleavers
    obtain ⟨hmem, haddrs⟩ := exitEntries_shared hal heap watchdogCode hp hspaces
    simp only [Way.record, forceExitGroup, htids, groupReport, Way.named, mem_append, haddrs]
    exact ⟨(mem_unchanged (tears_notifyParent _ _)).trans hmem, fun a => trivial⟩

end Records

section Served

variable (hal : HalMemory) (heap : Heap) {k : KernelState} {x : ThreadExit} {code : Int32}

/-- Entries are filed under their tid. -/
def Keyed (t : Table) : Prop := ∀ {j : ℕ} {p : Process}, t.processes[j]? = some p → p.tid = j

/-- The first of those who wait at the address leaves the queue and is made ready. -/
def Served (w : Way) (k : KernelState) (a : ℕ) : Prop :=
  ∀ waiter rest, queue (w.ended hal heap k.table) a = waiter :: rest →
    queue (w.run hal heap k).table a <:+ rest ∧
    ∀ task, k.scheduler.blocked[waiter]? = some task →
      task.processId ∉ w.groups k.table → Ready task (w.run hal heap k).scheduler

theorem usizeMax_pos : 1 ≤ MachineWord.usizeMax := by
  unfold MachineWord.usizeMax
  omega

theorem Kept.dropTasks (h : s.blocked[waiter]? = some task) (hne : waiter ≠ x.tid)
    (hother : x.groupExited = true → task.processId ≠ x.tgid) :
    Kept waiter task (dropTasks x s) := by
  have hremoved := (Scheduler.removeTask_other hne).trans h
  unfold ProcessCalls.dropTasks
  split
  · next hx => exact Kept.exitGroup (.inl hremoved) (hother hx)
  · exact .inl hremoved

theorem mem_joinAddrs : a ∈ joinAddrs x ↔ a ∈ x.clearChildTid.toList ++ x.tidAddress.toList := by
  unfold joinAddrs
  split
  · next heq => simp [heq]
  · rfl

theorem exit_answer (code : Int32) (hp : k.table.current = .ok p) :
    ∃ x u, k.table.exitCurrentThread hal heap code = (.ok x, u) ∧ x.tid = p.tid ∧
      x.tgid = p.tgid ∧ x.clearChildTid = p.clearChildTid ∧ x.tidAddress = p.tidAddress ∧
      x.groupExited = !k.table.groupAlive p.tgid p.tid := by
  simp only [exitCurrentThread, hp, leaveThread_groupAlive hal heap code (current_ok hp)]
  exact ⟨_, _, rfl, rfl, rfl, rfl, rfl, rfl⟩

theorem exit_serves (hp : k.table.current = .ok p) :
    (a ∈ ownAddrs k.table → Served hal heap (.exit code) k a) ∧
    (a ∉ ownAddrs k.table → queue (Way.run hal heap k (.exit code)).table a =
      queue (Way.ended hal heap k.table (.exit code)) a) := by
  obtain ⟨x, u, hexit, htid, htgid, hclear, htida, hgone⟩ := exit_answer hal heap code hp
  have hmem : a ∈ (joinAddrs x).mergeSort (· ≤ ·) ↔ a ∈ ownAddrs k.table := by
    rw [(mergeSort_perm _ _).mem_iff, mem_joinAddrs, hclear, htida]
    simp only [ownAddrs, hp]
  have hended : Way.ended hal heap k.table (.exit code) = u := by
    simp only [Way.ended, Way.record, hexit, threadReport]
  have hrun : Way.run hal heap k (.exit code) = wakeAllWaiters ((joinAddrs x).mergeSort (· ≤ ·))
      (tellParent x.parentTgid ⟨u, dropTasks x k.scheduler⟩) := by
    simp only [Way.run, sysExit, Bool.false_eq_true, if_false, sysExitThread, hexit]
  have htold := queue_tellParent x.parentTgid ⟨u, dropTasks x k.scheduler⟩
  unfold Served
  rw [hended, hrun]
  constructor
  · intro ha waiter rest hq
    have hq' : queue (tellParent x.parentTgid ⟨u, dropTasks x k.scheduler⟩).table a = waiter :: rest := by
      rw [htold]
      exact hq
    obtain ⟨hsuffix, hready⟩ := wakeEach_serves usizeMax_pos (hmem.mpr ha) hq'
    refine ⟨hsuffix, fun task hblocked hother => hready task
      ((lasts_kept waiter task).tellParent (Kept.dropTasks hblocked ?_ ?_) _)⟩
    · -- the caller has left the queues
      rw [(queue_exitCurrentThread hal heap code hp hexit a).2] at hq
      have hin : waiter ∈ (queue k.table a).filter (· ∉ [p.tid]) := by
        rw [hq]
        exact mem_cons_self
      rw [htid]
      simpa using (mem_filter.mp hin).2
    · intro hx
      rw [hgone, Bool.not_eq_true'] at hx
      simp only [Way.groups, hp, hx, Bool.false_eq_true, if_false, mem_singleton] at hother
      rw [htgid]
      exact hother
  · intro ha
    have hother := wakeEach_other MachineWord.usizeMax (fun h => ha (hmem.mp h))
      (tellParent x.parentTgid ⟨u, dropTasks x k.scheduler⟩)
    exact hother.trans (congrFun htold a)

theorem group_answer (hkeyed : Keyed k.table) (code : Int32) (hp : k.table.current = .ok p) :
    ∃ x u, k.table.exitCurrentProcessGroup hal heap code = (.ok x, u) ∧ x.tgid = p.tgid ∧
      x.clearChildTid = p.clearChildTid ∧ x.tidAddress = p.tidAddress ∧
      (∀ a, queue u a = (queue k.table a).filter (· ∉ k.table.groupTids p.tgid)) ∧
      ∀ a, x.tid ∉ queue u a := by
  have hown : p.tid ∈ k.table.groupTids p.tgid := by
    rw [hkeyed (current_ok hp)]
    exact mem_groupTids.mpr ⟨kinOf p, current_kin hp, rfl⟩
  have hqueue : ∀ a, queue ((k.table.exitEntries hal heap code
      (k.table.groupTids p.tgid)).2.notifyParent p.parent) a =
        (queue k.table a).filter (· ∉ k.table.groupTids p.tgid) := by
    intro a
    rw [queue_notifyParent]
    exact queue_exitEntries hal heap code (k.table.groupTids p.tgid) ([], k.table) a
  simp only [exitCurrentProcessGroup, hp]
  refine ⟨_, _, rfl, rfl, rfl, rfl, hqueue, fun a hmem => ?_⟩
  rw [hqueue a] at hmem
  simp [hown] at hmem

theorem exitGroup_serves (hp : k.table.current = .ok p) (a : ℕ) :
    queue (Way.run hal heap k (.exitGroup code)).table a =
      queue (Way.ended hal heap k.table (.exitGroup code)) a := by
  simp only [Way.run, Way.ended, Way.record, sysExit, sysExitGroup, exitCurrentProcessGroup, hp]
  exact congrFun (queue_tellParent p.parent ⟨_, _⟩) a

theorem fault_serves (hkeyed : Keyed k.table) (hp : k.table.current = .ok p)
    (ha : a ∈ (Way.record hal heap k.table .fault).1) : Served hal heap .fault k a := by
  obtain ⟨x, u, hexit, htgid, hclear, htida, -, hgone⟩ := group_answer hal heap hkeyed (-1) hp
  have hmem : a ∈ joinAddrs x ∨ a ∈ x.robustFutexAddrs := by
    rw [mem_joinAddrs]
    simpa only [Way.record, hexit, threadReport, mem_append] using ha
  have hended : Way.ended hal heap k.table .fault = u := by
    simp only [Way.ended, Way.record, hexit, threadReport]
  intro waiter rest hq
  rw [hended] at hq
  -- the parents are woken before the waiters
  have hbefore : ∀ l : KernelState, l.table = u → queue (wakeVforkParent x.vforkParentTid l).table =
      queue u := by
    intro l hl
    rw [← hl]
    cases x.vforkParentTid <;> rfl
  have hq' : queue (tellParent x.parentTgid
      (wakeVforkParent x.vforkParentTid ⟨u, dropTasks x k.scheduler⟩)).table a = waiter :: rest := by
    rw [queue_tellParent, hbefore _ rfl]
    exact hq
  obtain ⟨hsuffix, hready⟩ := wakeTwice_serves usizeMax_pos le_rfl hmem hq'
  simp only [Way.run, faultExit, hexit]
  refine ⟨hsuffix, fun task hblocked hother => ?_⟩
  have hkept : Kept waiter task (dropTasks x k.scheduler) := by
    refine .dropTasks hblocked ?_ fun _ => ?_
    · rintro rfl
      refine hgone a ?_
      rw [hq]
      exact mem_cons_self
    · simp only [Way.groups, hp, mem_singleton] at hother
      rw [htgid]
      exact hother
  have hlasts := lasts_kept waiter task
  have hvfork := hlasts.wakeVforkParent (k := ⟨u, dropTasks x k.scheduler⟩) hkept x.vforkParentTid
  exact (lasts_ready task).wakeTasks (hready task (hlasts.tellParent hvfork x.parentTgid)) _

theorem forceExits_append (gs hs : List ℕ) (t : Table) : forceExits hal heap (gs ++ hs) t =
      ((forceExits hal heap gs t).1 ++ (forceExits hal heap hs (forceExits hal heap gs t).2).1,
        (forceExits hal heap hs (forceExits hal heap gs t).2).2) := by
  induction gs generalizing t with
  | nil => rfl
  | cons g gs ih =>
    simp [forceExits, ih]

theorem forceExits_groups (gs : List ℕ) (t : Table) :
    ∀ x ∈ (forceExits hal heap gs t).1, x.tgid ∈ gs := by
  induction gs generalizing t with
  | nil =>
    intro x hx
    cases hx
  | cons g gs ih =>
    intro x hx
    simp only [forceExits, mem_append, mem_toList] at hx
    rcases hx with hx | hx
    · unfold forceExitGroup at hx
      simp only at hx
      split at hx
      · cases hx
      · obtain rfl := some.inj hx
        exact mem_cons_self
    · exact mem_cons_of_mem g (ih _ x hx)

theorem Kept.afterForcedExits {gs : List ℕ} (hother : task.processId ∉ gs) (xs : List GroupExit)
    (hxs : ∀ x ∈ xs, x.tgid ∈ gs) (h : Kept waiter task k.scheduler) :
    Kept waiter task (xs.foldl afterForcedExit k).scheduler := by
  induction xs generalizing k with
  | nil => exact h
  | cons x xs ih =>
    have hne : task.processId ≠ x.tgid := by
      intro heq
      exact hother (heq ▸ hxs x mem_cons_self)
    refine ih (fun y hy => hxs y (mem_cons_of_mem x hy)) ?_
    have hleft : Kept waiter task (k.scheduler.exitGroup x.tgid) := h.exitGroup hne
    refine (lasts_kept waiter task).wakeVforkParent ?_ x.vforkParentTid
    cases x.parentTgid with
    | none => exact hleft
    | some P => exact (hleft.wakeTasks _).1

theorem force_serves {earlier later : List ℕ} {g : ℕ}
    (ha : a ∈ (Way.record hal heap (Way.before hal heap k.table (.force earlier g later))
      (.force earlier g later)).1) : Served hal heap (.force earlier g later) k a := by
  intro waiter rest hq
  have hfirst : ∃ x, ((forceExits hal heap earlier k.table).2.forceExitGroup hal heap watchdogCode
      g).1 = some x ∧ (a ∈ x.clearChildTids ∨ a ∈ x.robustFutexAddrs) := by
    simp only [Way.record, Way.before] at ha
    generalize (forceExits hal heap earlier k.table).2.forceExitGroup hal heap watchdogCode g = out
      at ha ⊢
    obtain ⟨none | x, u⟩ := out
    · cases ha
    · exact ⟨x, rfl, mem_append.mp ha⟩
  obtain ⟨x, hx, hmem⟩ := hfirst
  have hgroups := forceExits_groups hal heap (earlier ++ g :: later) k.table
  have hin : x ∈ (forceExits hal heap (earlier ++ g :: later) k.table).1 := by
    rw [forceExits_append]
    simp only [forceExits, mem_append, mem_toList]
    exact .inr (.inl hx)
  simp only [Way.ended] at hq
  simp only [Way.run, watchdogKill]
  generalize forceExits hal heap (earlier ++ g :: later) k.table = out at hq hin hgroups ⊢
  obtain ⟨xs, u⟩ := out
  have hsome : ¬ xs.isEmpty = true := by
    intro hnil
    rw [List.isEmpty_iff.mp hnil] at hin
    cases hin
  simp only [hsome, Bool.false_eq_true, if_false]
  have hq' : queue (xs.foldl afterForcedExit ⟨u, k.scheduler⟩).table a = waiter :: rest := by
    rw [afterForcedExit_table]
    exact hq
  have hcalled : a ∈ xs.flatMap GroupExit.clearChildTids ∨ a ∈ xs.flatMap GroupExit.robustFutexAddrs :=
    hmem.imp (fun h => mem_flatMap.mpr ⟨x, hin, h⟩) fun h => mem_flatMap.mpr ⟨x, hin, h⟩
  obtain ⟨hsuffix, hready⟩ := wakeTwice_serves usizeMax_pos le_rfl hcalled hq'
  refine ⟨hsuffix, fun task hblocked hother => ?_⟩
  exact (lasts_ready task).wakeTasks
    (hready task (Kept.afterForcedExits hother xs hgroups (.inl hblocked))) _

end Served

section Result

variable {hal : HalMemory} {heap : Heap} {k : KernelState} {t : Table} {w : Way}

theorem leavers_entry (h : j ∈ w.leavers t) : ∃ p, t.processes[j]? = some p := by
  have hgroup : ∀ g, j ∈ t.groupTids g → ∃ p, t.processes[j]? = some p := by
    intro g hj
    obtain ⟨q, hq, -⟩ := mem_groupTids.mp hj
    obtain ⟨p, hp, -⟩ := kin_eq_some.mp hq
    exact ⟨p, hp⟩
  have hcaller : ∀ {l : Process → List ℕ}, (∀ p, t.current = .ok p → j ∈ l p →
      ∃ p, t.processes[j]? = some p) → j ∈ (match t.current with
        | .ok p => l p
        | .error _ => []) → ∃ p, t.processes[j]? = some p := by
    intro l hl hj
    cases hp : t.current with
    | error e =>
      rw [hp] at hj
      cases hj
    | ok p =>
      rw [hp] at hj
      exact hl p hp hj
  cases w with
  | exit code =>
    refine hcaller (l := fun _ => [t.currentTid]) (fun p hp hj => ?_) h
    exact ⟨p, mem_singleton.mp hj ▸ current_ok hp⟩
  | exitGroup code | fault =>
    exact hcaller (l := fun p => t.groupTids p.tgid) (fun p _ => hgroup p.tgid) h
  | force earlier tgid later => exact hgroup tgid h

theorem caller_of_leavers (hw : w.leavers t = j :: tids)
    (hnot : ∀ earlier g later, w ≠ .force earlier g later) : ∃ p, t.current = .ok p := by
  cases hp : t.current with
  | ok p => exact ⟨p, rfl⟩
  | error e =>
    cases w with
    | force earlier g later => exact absurd rfl (hnot earlier g later)
    | exit | exitGroup | fault => simp [Way.leavers, hp] at hw

variable (hal heap) in
theorem ended_queue (hkeyed : Keyed k.table) (hp : k.table.current = .ok p)
    (hw : ∀ earlier g later, w ≠ .force earlier g later) (a : ℕ) :
    queue (w.ended hal heap k.table) a = outsiders w k.table a := by
  cases w with
  | exit code =>
    obtain ⟨x, u, hexit, -⟩ := exit_answer hal heap code hp
    simp only [Way.ended, Way.record, hexit, threadReport, outsiders, Way.leavers, hp]
    rw [(queue_exitCurrentThread hal heap code hp hexit a).2, hkeyed (current_ok hp)]
  | exitGroup | fault =>
    simp only [outsiders, Way.leavers, hp]
    obtain ⟨x, u, hexit, -, -, -, hqueue, -⟩ := group_answer hal heap hkeyed _ hp
    change queue (threadReport (k.table.exitCurrentProcessGroup hal heap _)).2 a = _
    rw [hexit]
    exact hqueue a
  | force earlier g later => exact absurd rfl (hw earlier g later)

/-- The words of the threads after the first lie apart from those of the first, the words to clear
are not clear yet, and no thread has a number that looks like none. -/
structure Distinct (hal : HalMemory) (w : Way) (t : Table) : Prop where
  tids : ∀ {j p}, Leaves w t j p → p.tid &&& futexTidMask ≠ 0
  pending : ∀ {j p a}, Leaves w t j p → p.clearChildTid = some a →
    Writable hal a (t.machine p) ∧ ∃ x ∈ wordBytes hal t p a, t.mem x ≠ 0
  apart : ∀ {j p q a b}, Leaves w t j p → (w.leavers t).head? ≠ some j → w.first t = some q →
    (p.clearChildTid = some a ∨ ∃ word, Holds hal t p a word) →
    (q.clearChildTid = some b ∨ Listed hal q (t.machine q) b) →
      (wordBytes hal t p a).Disjoint (wordBytes hal t q b)

theorem first_entry (hw : w.leavers t = j :: tids) :
    ∃ p, t.processes[j]? = some p ∧ w.first t = some p := by
  have hj : j ∈ w.leavers t := by
    rw [hw]
    exact mem_cons_self
  obtain ⟨p, hp⟩ := leavers_entry hj
  refine ⟨p, hp, ?_⟩
  rw [Way.first, hw]
  exact hp

theorem Leaves.leavers (h : Leaves w t j p) : ∃ i tids, w.leavers t = i :: tids :=
  exists_cons_of_ne_nil (ne_nil_of_mem h.1)

/-- The first in line is the only thread with anything to do. -/
theorem FirstInLine.eq (h : FirstInLine hal w t) {i : ℕ} {q : Process}
    (hw : w.leavers t = j :: tids) (hp : t.processes[j]? = some p) (hq : Leaves w t i q)
    (hduty : q.clearChildTid.isSome ∨ ∃ a word, Holds hal t q a word) : q = p := by
  have hhead := h hq hduty
  rw [hw, head?_cons, some.injEq] at hhead
  subst hhead
  exact some.inj (hq.2.1.symm.trans hp)

theorem named_of_first (hw : w.leavers t = j :: tids) (hp : t.processes[j]? = some p)
    (hlive : p.state ≠ .exited) (hkind : Kindly hal t w) (ha : p.clearChildTid = some a) :
    a ∈ w.named t ∨ Listed hal p (t.machine p) a := by
  have hleaves : Leaves w t j p := ⟨by rw [hw]; exact mem_cons_self, hp, hlive⟩
  cases w with
  | exit code =>
    obtain ⟨q, hq⟩ := caller_of_leavers hw (by simp)
    simp only [Way.leavers, hq] at hw
    obtain ⟨rfl, -⟩ := hw
    obtain rfl : q = p := some.inj ((current_ok hq).symm.trans hp)
    left
    simp only [Way.named, ownAddrs, hq, ha]
    exact mem_append_left _ (mem_singleton_self a)
  | exitGroup code => exact hkind.1 j p a hleaves ha
  | fault => exact hkind j p a hleaves ha
  | force earlier g later =>
    left
    refine mem_filterMap.mpr ⟨j, hleaves.1, ?_⟩
    rw [hp]
    exact ha

/-- Nobody is served at an address where nobody is left waiting, and nobody else goes unserved. -/
theorem served_of_empty (h : queue (w.ended hal heap k.table) a = []) : Served hal heap w k a := by
  intro waiter rest hq
  rw [h] at hq
  cases hq

theorem ownerDied_tid (word : ℕ) : ownerDied word &&& futexTidMask = 0 := by
  unfold ownerDied
  apply Nat.eq_of_testBit_eq
  intro i
  have hbits : (futexWaitersBit &&& futexTidMask).testBit i = false ∧
      (futexOwnerDied &&& futexTidMask).testBit i = false := by
    rw [show futexWaitersBit &&& futexTidMask = 0 by decide,
      show futexOwnerDied &&& futexTidMask = 0 by decide]
    simp
  simp only [Nat.testBit_and] at hbits ⊢
  cases hw : futexTidMask.testBit i
  · simp
  · rw [hw, Bool.and_true] at hbits
    simp [hbits.1, hbits.2]

/-- A word that still has its old bytes is not marked. -/
theorem not_marked {word : ℕ} (hholds : Holds hal t p a word) (htid : p.tid &&& futexTidMask ≠ 0)
    {mem : Memory} (hsame : ∀ x ∈ wordBytes hal t p a, mem x = t.mem x) :
    (wordBytes hal t p a).map mem ≠ leBytes 4 (ownerDied word) := by
  intro hmarked
  obtain ⟨-, hword, howner⟩ := hholds
  obtain ⟨bytes, hbytes, hvalue⟩ := map_eq_some_iff.mp hword
  have hread := readLoop_anew hal 4 (toOption_eq_some.mp hbytes) (t.machine p).mem []
  rw [toOption_eq_some.mp hbytes] at hread
  have hlocs : bytes = (wordBytes hal t p a).map mem := by
    rw [Except.ok.inj hread, map_congr_left hsame]
    rfl
  rw [hlocs, hmarked, ElfLoader.fromLeBytes, foldr_leBytes, Nat.mod_eq_of_lt (ownerDied_lt word)]
    at hvalue
  rw [← hvalue, ownerDied_tid] at howner
  exact htid howner.symm

section Shared

variable (hshare : Shares w t)
  (horderly : ∀ p, w.first t = some p → Orderly hal heap p (t.machine p))

include hshare horderly

theorem reported_iff (hw : w.leavers t = j :: tids) :
    ∃ p, t.processes[j]? = some p ∧ w.first t = some p ∧ ∀ a, a ∈ (w.record hal heap t).1 ↔
      a ∈ w.named t ∨ Listed hal p (t.machine p) a := by
  obtain ⟨p, hp, hfirst⟩ := first_entry hw
  obtain ⟨hlisted, -, -⟩ := leaveMemory_spec (horderly p hfirst)
  refine ⟨p, hp, hfirst, fun a => ?_⟩
  rw [(record_spec hal heap hshare hw hp).2 a, hlisted]

theorem reported_of_listed (hp : w.first t = some p) (ha : Listed hal p (t.machine p) a) :
    (∃ j tids, w.leavers t = j :: tids) ∧ a ∈ (w.record hal heap t).1 := by
  cases hw : w.leavers t with
  | nil =>
    rw [Way.first, hw] at hp
    cases hp
  | cons j tids =>
    obtain ⟨q, -, hq, haddrs⟩ := reported_iff hshare horderly hw
    obtain rfl : p = q := some.inj (hp.symm.trans hq)
    exact ⟨⟨j, tids, rfl⟩, (haddrs a).mpr (.inr ha)⟩

theorem kindly_serves (hb : w.before hal heap k.table = t) (hkeyed : Keyed k.table)
    (hw : w.leavers t = j :: tids) (hkind : Kindly hal t w) :
    ∀ a ∈ (w.record hal heap t).1, Served hal heap w k a := by
  intro a ha
  obtain ⟨p, hp, hfirst, haddrs⟩ := reported_iff hshare horderly hw
  have hrec := (haddrs a).mp ha
  subst hb
  cases w with
  | exit code =>
    obtain ⟨q, hq⟩ := caller_of_leavers hw (by simp)
    by_cases hown : a ∈ ownAddrs k.table
    · exact (exit_serves hal heap hq).1 hown
    · apply served_of_empty
      rw [ended_queue hal heap hkeyed hq (by simp)]
      exact hkind p hfirst a (hrec.resolve_left hown) hown
  | exitGroup code =>
    obtain ⟨q, hq⟩ := caller_of_leavers hw (by simp)
    apply served_of_empty
    rw [ended_queue hal heap hkeyed hq (by simp)]
    exact hrec.elim (hkind.2.1 a) (hkind.2.2 p hfirst a)
  | fault =>
    obtain ⟨q, hq⟩ := caller_of_leavers hw (by simp)
    exact fault_serves hal heap hkeyed hq ha
  | force earlier g later => exact force_serves hal heap ha

/-- The obligations are met where the only thread that has any comes first, and those who are not
woken do not exist. -/
theorem met_of_kindly (hb : w.before hal heap k.table = t) (hkeyed : Keyed k.table)
    (hline : FirstInLine hal w t) (hkind : Kindly hal t w) : Met hal heap w k := by
  cases hw : w.leavers t with
  | nil =>
    have hnobody : ∀ {j p}, ¬ Leaves w t j p := fun h => not_mem_nil (hw ▸ h.1)
    subst hb
    refine ⟨fun h => (hnobody h).elim, fun h => (hnobody h).elim, fun h => (hnobody h).elim, ?_⟩
    intro a ha
    rw [record_nobody hal heap hw] at ha
    cases ha
  | cons j tids =>
    obtain ⟨p, hp, hfirst⟩ := first_entry hw
    obtain ⟨hlisted, hmarked, hcleared⟩ := leaveMemory_spec (horderly p hfirst)
    obtain ⟨hmem, haddrs⟩ := record_spec hal heap hshare hw hp
    have hserves := kindly_serves hshare horderly hb hkeyed hw hkind
    subst hb
    refine ⟨?_, ?_, ?_, hserves⟩
    · intro i q a hq ha hwritable x hx
      obtain rfl := hline.eq hw hp hq (.inl (by rw [ha]; rfl))
      rw [hmem]
      exact hcleared a ha hwritable x hx
    · intro i q a word hq hholds
      obtain rfl := hline.eq hw hp hq (.inr ⟨a, word, hholds⟩)
      rw [hmem]
      exact hmarked a word hholds.1 hholds.2.1 hholds.2.2
    · intro i q a hq hduty
      rw [haddrs, hlisted]
      rcases hduty with ha | ⟨word, hholds⟩
      · obtain rfl := hline.eq hw hp hq (.inl (by rw [ha]; rfl))
        exact named_of_first hw hp hq.2.2 hkind ha
      · obtain rfl := hline.eq hw hp hq (.inr ⟨a, word, hholds⟩)
        exact .inr hholds.1

/-- Bytes of words that the first thread does not name stay as they are. -/
theorem untouched (hw : w.leavers t = j :: tids) (hp : w.first t = some p) {bytes : List ℕ}
    (hapart : ∀ b, p.clearChildTid = some b ∨ Listed hal p (t.machine p) b →
      bytes.Disjoint (wordBytes hal t p b)) :
    ∀ x ∈ bytes, (w.record hal heap t).2.mem x = t.mem x := by
  intro x hx
  obtain ⟨q, hq, hfirst⟩ := first_entry hw
  obtain rfl : p = q := some.inj (hp.symm.trans hfirst)
  rw [(record_spec hal heap hshare hw hq).1]
  refine leaveMemory_outside ?_
  intro hloc
  obtain ⟨b, hb, hxb⟩ := mem_flatMap.mp hloc
  refine hapart b ?_ hx hxb
  rcases mem_append.mp hb with hb | hb
  · exact .inl (mem_toList.mp hb)
  · exact .inr (((collectRobust_marks (horderly p hp)).2 b).mp hb)

theorem firstInLine_of_met (hb : w.before hal heap k.table = t) (hdistinct : Distinct hal w t)
    (hmet : Met hal heap w k) : FirstInLine hal w t := by
  intro i q hq hduty
  by_contra hnot
  obtain ⟨j, tids, hw⟩ := hq.leavers
  obtain ⟨p, -, hp⟩ := first_entry hw
  have hkept : ∀ a, (q.clearChildTid = some a ∨ ∃ word, Holds hal t q a word) →
      ∀ x ∈ wordBytes hal t q a, (w.record hal heap t).2.mem x = t.mem x := fun a ha =>
    untouched hshare horderly hw hp fun b hb => hdistinct.apart hq hnot hp ha hb
  subst hb
  rcases hduty with hclear | ⟨a, word, hholds⟩
  · obtain ⟨a, ha⟩ := isSome_iff_exists.mp hclear
    obtain ⟨hwritable, x, hx, hne⟩ := hdistinct.pending hq ha
    refine hne ?_
    rw [← hkept a (.inl ha) x hx]
    exact hmet.cleared hq ha hwritable x hx
  · exact not_marked hholds (hdistinct.tids hq) (hkept a (.inr ⟨word, hholds⟩))
      (hmet.marked hq hholds)

theorem kindly_of_met (hb : w.before hal heap k.table = t) (hkeyed : Keyed k.table)
    (hline : FirstInLine hal w t)
    (hreported : ∀ {j p a}, Leaves w t j p → p.clearChildTid = some a → a ∈ (w.record hal heap t).1)
    (hwoken : ∀ a ∈ (w.record hal heap t).1, Served hal heap w k a) : Kindly hal t w := by
  have hcleared : ∀ i q a, Leaves w t i q → q.clearChildTid = some a →
      a ∈ w.named t ∨ Listed hal q (t.machine q) a := by
    intro i q a hq ha
    obtain ⟨j, tids, hw⟩ := hq.leavers
    obtain ⟨p, hp, -, haddrs⟩ := reported_iff hshare horderly hw
    obtain rfl := hline.eq hw hp hq (.inl (by rw [ha]; rfl))
    exact (haddrs a).mp (hreported hq ha)
  have hsilent : ∀ {p}, k.table.current = .ok p → (∀ earlier g later, w ≠ .force earlier g later) →
      ∀ {a}, a ∈ (w.record hal heap t).1 →
      queue (w.run hal heap k).table a = queue (w.ended hal heap k.table) a →
        outsiders w k.table a = [] := by
    intro p hp hnot a ha hsame
    rw [← ended_queue hal heap hkeyed hp hnot a]
    cases hq : queue (w.ended hal heap k.table) a with
    | nil => rfl
    | cons waiter rest =>
      have hsuffix := (hwoken a ha waiter rest hq).1
      rw [hsame, hq] at hsuffix
      have hlen := hsuffix.length_le
      simp at hlen
  subst hb
  cases w with
  | exit code =>
    intro p hp a ha hown
    obtain ⟨⟨j, tids, hw⟩, hrec⟩ := reported_of_listed hshare horderly hp ha
    obtain ⟨q, hq⟩ := caller_of_leavers hw (by simp)
    exact hsilent hq (by simp) hrec ((exit_serves hal heap hq).2 hown)
  | exitGroup code =>
    refine ⟨hcleared, ?_, ?_⟩
    · intro a ha
      rcases hq : k.table.current with e | q
      · simp only [Way.before, ownAddrs, hq] at ha
        cases ha
      have hmem : k.table.currentTid ∈ Way.leavers k.table (.exitGroup code) := by
        simp only [Way.leavers, hq]
        exact mem_groupTids.mpr ⟨kinOf q, current_kin hq, rfl⟩
      obtain ⟨j, tids, hw⟩ := exists_cons_of_ne_nil (ne_nil_of_mem hmem)
      obtain ⟨p, -, -, haddrs⟩ := reported_iff hshare horderly hw
      exact hsilent hq (by simp) ((haddrs a).mpr (.inl ha)) (exitGroup_serves hal heap hq a)
    · intro p hp a ha
      obtain ⟨⟨j, tids, hw⟩, hrec⟩ := reported_of_listed hshare horderly hp ha
      obtain ⟨q, hq⟩ := caller_of_leavers hw (by simp)
      exact hsilent hq (by simp) hrec (exitGroup_serves hal heap hq a)
  | fault => exact hcleared
  | force earlier g later => trivial

end Shared

/-- For threads that share one address space, whose robust lists are in order: if the only live
thread with a word to clear or to mark comes first, and those whom this way of exit does not wake
do not exist, then every obligation is met. Where the words lie apart and are not clear yet, the
converse holds as well. -/
theorem exit_obligations (w : Way) (k : KernelState) (hkeyed : Keyed k.table)
    (hshare : Shares w (w.before hal heap k.table))
    (horderly : ∀ p, w.first (w.before hal heap k.table) = some p →
      Orderly hal heap p ((w.before hal heap k.table).machine p)) :
    (FirstInLine hal w (w.before hal heap k.table) ∧ Kindly hal (w.before hal heap k.table) w →
      Met hal heap w k) ∧
    (Distinct hal w (w.before hal heap k.table) → Met hal heap w k →
      FirstInLine hal w (w.before hal heap k.table) ∧
        Kindly hal (w.before hal heap k.table) w) := by
  constructor
  · rintro ⟨hline, hkind⟩
    exact met_of_kindly hshare horderly rfl hkeyed hline hkind
  · intro hdistinct hmet
    have hline : FirstInLine hal w (w.before hal heap k.table) :=
      firstInLine_of_met hshare horderly rfl hdistinct hmet
    exact ⟨hline, kindly_of_met hshare horderly rfl hkeyed hline
      (fun hq ha => hmet.reported hq (.inl ha)) hmet.woken⟩

end Result

def page : List UInt8 :=
  [7, 0, 0, 0, 9, 0, 0, 0] ++ List.replicate 0xf8 0 ++ leBytes 8 0x10120 ++ leBytes 8 16 ++
    leBytes 8 0 ++ List.replicate 8 0 ++ leBytes 8 0x10100 ++ List.replicate 8 0 ++
    leBytes 4 0x80000001

def family : Table :=
  let t : Table := ⟨1, 0, ∅, ∅, fun _ => newUser board, 0, fun _ => 0⟩
  let t := (t.spawn board AgreementRuns.noHeap none 0).2
  let t := match t.processes[1]? with
    | none => t
    | some p => t.putMachine p
      (mapFixedBytes board boardHeap 0x10000 page 0x1000 3 (t.machine p)).2
  let t := (t.forkProcessFromCurrent board AgreementRuns.noHeap).2
  t.modify 1 fun p => { p with tidAddress := some 0x10000, clearChildTid := some 0x10000 }

def asleepAt (a : ℕ) (t : Table) : KernelState :=
  ⟨t.enqueueFutexWaiter a 2, ⟨4, [], some ⟨1, 1, .running⟩,
    (∅ : Std.ExtTreeMap ℕ Task).insert 2 ⟨2, 2, .blocked⟩⟩⟩

/-- A second thread of the init process, with a word of its own to clear. -/
def secondThread (t : Table) : Table :=
  let t := (t.cloneThreadFromCurrent board AgreementRuns.noHeap 0 0x1000 none).elim t Prod.snd
  t.modify 3 fun p => { p with clearChildTid := some 0x10004 }

def robustThread (t : Table) : Table :=
  t.modify 1 fun p => { p with robustList := some (0x10100, 24) }

def bytesAfter (w : Way) (k : KernelState) (a : ℕ) : Option (List UInt8 × List UInt8) :=
  k.table.processes[1]?.map fun p =>
    let locs := wordBytes board k.table p a
    (locs.map k.table.mem, locs.map (w.run board boardHeap k).table.mem)

/-- `exit_group` of two threads: the word of the second keeps its value and is not reported, and
the sleeper at the word of the first stays in its queue and asleep. A thread that exits marks its
robust word and reports it, and leaves the sleeper there alone. -/
theorem exit_neglects_waiters :
    (bytesAfter (.exitGroup 0) (asleepAt 0x10000 (secondThread family)) 0x10004 =
        some ([9, 0, 0, 0], [9, 0, 0, 0]) ∧
      (Way.record board boardHeap (asleepAt 0x10000 (secondThread family)).table
        (.exitGroup 0)).1 = [0x10000, 0x10000] ∧
      queue (Way.run board boardHeap (asleepAt 0x10000 (secondThread family))
        (.exitGroup 0)).table 0x10000 = [2] ∧
      (Way.run board boardHeap (asleepAt 0x10000 (secondThread family))
        (.exitGroup 0)).scheduler.isBlocked 2 = true) ∧
    bytesAfter (.exit 0) (asleepAt 0x10130 (robustThread family)) 0x10130 =
        some ([1, 0, 0, 0x80], [0, 0, 0, 0xc0]) ∧
      (Way.record board boardHeap (asleepAt 0x10130 (robustThread family)).table
        (.exit 0)).1 = [0x10000, 0x10000, 0x10130] ∧
      queue (Way.run board boardHeap (asleepAt 0x10130 (robustThread family))
        (.exit 0)).table 0x10130 = [2] ∧
      (Way.run board boardHeap (asleepAt 0x10130 (robustThread family))
        (.exit 0)).scheduler.isBlocked 2 = true := by
  refine ⟨⟨?_, ?_, ?_, ?_⟩, ?_, ?_, ?_, ?_⟩
  · decide +kernel
  · decide +kernel
  · decide +kernel
  · decide +kernel
  · decide +kernel
  · decide +kernel
  · decide +kernel
  · decide +kernel

/-- A fatal trap of a single thread, with a sleeper at the word it clears. -/
theorem exit_obligations_fault : queue (asleepAt 0x10000 family).table 0x10000 = [2] ∧
      (∃ p, Leaves .fault (asleepAt 0x10000 family).table 1 p ∧ p.clearChildTid = some 0x10000 ∧
        Writable board 0x10000 ((asleepAt 0x10000 family).table.machine p)) ∧
      Met board boardHeap .fault (asleepAt 0x10000 family) := by
  generalize hk : asleepAt 0x10000 family = k
  have hfacts : queue k.table 0x10000 = [2] ∧ Way.leavers k.table .fault = [1] ∧
      (∀ e ∈ k.table.processes.toList, e.2.tid = e.1) ∧ 0x10000 ∈ ownAddrs k.table ∧
      k.table.processes[1]?.map (fun p => (p.clearChildTid, p.robustList,
        decide (p.state = .exited), (writeBytes board 0x10000 (leBytes 4 0)
          (k.table.machine p)).1.toOption)) = some (some 0x10000, none, false, some ()) := by
    rw [← hk]
    decide +kernel
  obtain ⟨hqueue, hleavers, hall, hown, hentry⟩ := hfacts
  have hkeyed : Keyed k.table := fun {j p} hp =>
    hall (j, p) (Std.ExtTreeMap.mem_toList_iff_getElem?_eq_some.mpr hp)
  obtain ⟨p, hp, hfields⟩ := map_eq_some_iff.mp hentry
  simp only [Prod.mk.injEq, decide_eq_false_iff_not, toOption_eq_some] at hfields
  obtain ⟨hclear, hlist, hlive, hwritable⟩ := hfields
  have honly : ∀ {j q}, j ∈ Way.leavers k.table .fault → k.table.processes[j]? = some q →
      j = 1 ∧ q = p := by
    intro j q hj hq
    rw [hleavers, mem_singleton] at hj
    subst hj
    exact ⟨rfl, some.inj (hq.symm.trans hp)⟩
  have hanchor : ∀ c, anchor board p (k.table.machine p) ≠ some c := by
    intro c hc
    simp only [anchor, hlist] at hc
    cases hc
  have hunlisted : ∀ a, ¬ Listed board p (k.table.machine p) a := by
    rintro a ⟨c, hc, -⟩
    exact hanchor c hc
  have horderly : Orderly board boardHeap p (k.table.machine p) :=
    ⟨rfl, rfl, fun c hc => (hanchor c hc).elim, fun a ha => (hunlisted a ha).elim,
      fun a b ha => (hunlisted a ha).elim, fun a c node ha => (hunlisted a ha).elim,
      fun a b ha => (hunlisted a ha).elim⟩
  have hshare : Shares .fault k.table := fun hi hj hq hr => by
    rw [(honly hi hq).2, (honly hj hr).2]
  have hfirst : ∀ q, Way.first k.table .fault = some q →
      Orderly board boardHeap q (k.table.machine q) := by
    intro q hq
    rw [Way.first, hleavers] at hq
    exact some.inj (hp.symm.trans hq) ▸ horderly
  have hline : FirstInLine board .fault k.table := by
    intro j q hq _
    rw [hleavers, (honly hq.1 hq.2.1).1]
    rfl
  have hkind : Kindly board k.table .fault := by
    intro j q a hq ha
    rw [(honly hq.1 hq.2.1).2, hclear] at ha
    cases ha
    exact .inl hown
  refine ⟨hqueue, ⟨p, ⟨by rw [hleavers]; exact mem_cons_self, hp, hlive⟩, hclear, hwritable⟩, ?_⟩
  exact (exit_obligations .fault k hkeyed hshare hfirst).1 ⟨hline, hkind⟩

end ExitObligations
