import Whuse.TableFiling
import Whuse.ExecCall
import Whuse.SchedulerConservation

/-! The process table and the scheduler. A live entry of the table is a task of the scheduler; each
call that creates or ends one has to say so to both. -/
namespace TaskAgreement

open AddressSpace TaskScheduler ProcessTable ProcessTable.Table ProcessCalls TableEffects Function
open TableFiling SchedulerConservation

def task (q : Kin) : Option ℕ := if q.state = .exited then none else some q.tgid

def census (t : Table) : Census := fun j => (kin t j).bind task

def isLive (t : Table) (id : ℕ) : Bool := t.processes[id]?.any fun p => p.state != .exited

/-- The scheduler holds the tids of the live entries, each once, and nothing else. -/
def Agrees (k : KernelState) : Prop :=
  ∀ id, places k.scheduler id = if isLive k.table id then 1 else 0

/-- Agreement with what keeps it: entries are filed under their tids, and a task names the group
of its entry. -/
structure InStep (k : KernelState) : Prop where
  filed : Filed k.table
  tasks : Conserved k.scheduler (census k.table)

theorem census_isSome (t : Table) (id : ℕ) : (census t id).isSome = isLive t id := by
  unfold census isLive kin
  cases t.processes[id]? with
  | none => rfl
  | some p => by_cases hp : p.state = .exited <;> simp [task, kinOf, hp]

theorem InStep.agrees {k : KernelState} (h : InStep k) : Agrees k := fun id => by
  rw [h.tasks.once id, census_isSome]

variable {c : Census} {s : Scheduler} {t u v : Table} {j : ℕ} {code : Int32}

theorem census_congr (h : kin u = kin t) : census u = census t := by
  unfold census
  rw [h]

structure Quiet (t u : Table) : Prop where
  keeps : Keeps filing t u
  census : census u = census t

namespace Quiet

theorem refl (t : Table) : Quiet t t := ⟨.refl t, rfl⟩

theorem trans (h : Quiet t u) (k : Quiet u v) : Quiet t v :=
  ⟨h.keeps.trans k.keeps, k.census.trans h.census⟩

end Quiet

theorem quiet_of_kin (hkeeps : Keeps filing t u) (hkin : kin u = kin t) : Quiet t u :=
  ⟨hkeeps, census_congr hkin⟩

def identity (p : Process) : ℕ × ℕ × Option ℕ := (p.tid, p.addressSpace, task (kinOf p))

theorem quiet_of_keeps (h : Keeps identity t u) : Quiet t u := by
  refine ⟨h.map fun x => (x.1, x.2.1), funext fun j => ?_⟩
  have hj := congrArg (Option.bind · (·.2.2)) (congrFun h.held j)
  simp only [held, Option.bind_map] at hj
  simp only [TaskAgreement.census, kin, Option.bind_map]
  exact hj

theorem quiet_modify {f : Process → Process} (h : ∀ p, identity (f p) = identity p) :
    Quiet t (t.modify j f) := quiet_of_keeps (keeps_modify h)

theorem quiet_setCurrent (tid : ℕ) (t : Table) : Quiet t (t.setCurrent tid).2 :=
  quiet_of_keeps (keeps_setCurrent tid t)

theorem quiet_wakeFutex (addr count : ℕ) (t : Table) : Quiet t (t.wakeFutex addr count).2 :=
  quiet_of_keeps (keeps_wakeFutex addr count t)

theorem quiet_sendSignalTid (pid signal : ℕ) (t : Table) : Quiet t (t.sendSignalTid pid signal).2 :=
  quiet_of_kin (keeps_sendSignalTid steady_filing pid signal t) (sameKin_sendSignalTid t pid signal).kin

namespace InStep

variable {k : KernelState}

section

variable (h : InStep k)
include h

theorem table (hquiet : Quiet k.table u) : InStep { k with table := u } :=
  ⟨h.filed.keeps hquiet.keeps, hquiet.census ▸ h.tasks⟩

theorem scheduler (hs : Conserved k.scheduler (census k.table) → Conserved s (census k.table)) :
    InStep { k with scheduler := s } :=
  ⟨h.filed, hs h.tasks⟩

theorem wakeGroup (tgid : ℕ) : InStep (wakeProcessGroupThreads tgid k) :=
  h.scheduler fun hs => hs.wakeTasks _

theorem tellParent (parent : Option ℕ) : InStep (tellParent parent k) := by
  cases parent with
  | none => exact h
  | some tgid =>
    exact (h.table (quiet_sendSignalTid tgid sigchld k.table)).wakeGroup tgid

theorem wakeWaiters (count addr : ℕ) : InStep (wakeWaiters count addr k) :=
  (h.table (quiet_wakeFutex addr count k.table)).scheduler fun hs => hs.wakeTasks _

theorem wakeEach (count : ℕ) (addrs : List ℕ) :
    InStep (addrs.foldl (fun k addr => ProcessCalls.wakeWaiters count addr k) k) := by
  induction addrs generalizing k with
  | nil => exact h
  | cons addr addrs ih => exact ih (h.wakeWaiters count addr)

theorem wakeVforkParent (tid : Option ℕ) : InStep (wakeVforkParent tid k) := by
  cases tid with
  | none => exact h
  | some tid => exact h.scheduler fun hs => hs.wakeTask tid

theorem wakeEveryone : InStep (wakeEveryone k) :=
  h.scheduler fun hs => hs.wakeTasks _

end

end InStep

theorem conserved_removeTask (h : Conserved s c) (tid : ℕ) :
    Conserved (s.removeTask tid) (c.drop fun id _ => id == tid) :=
  h.drops (removeTask_drops h tid)

theorem conserved_exitGroup (h : Conserved s c) (g : ℕ) :
    Conserved (s.exitGroup g) (c.drop fun _ tgid => tgid == g) :=
  h.drops (exitGroup_drops g s)

theorem census_update_ended {q : Kin} (h : kin u = update (kin t) j (some (q.ended code))) :
    census u = (census t).drop fun id _ => id == j := by
  funext i
  simp only [census, Census.drop, h]
  by_cases hi : i = j
  · subst hi
    cases (kin t i).bind task <;> simp [task, Kin.ended]
  · have hbeq : (i == j) = false := by simpa using hi
    cases hq : (kin t i).bind task <;> simp [Option.filter, hi, hq]

theorem census_group_ended {g : ℕ}
    (h : kin u = fun j => (kin t j).map (Kin.inGroup g (Kin.ended code))) :
    census u = (census t).drop fun _ tgid => tgid == g := by
  funext i
  simp only [census, Census.drop, h]
  rcases hi : kin t i with _ | q
  · rfl
  by_cases hg : q.tgid = g
  · by_cases hq : q.state = .exited <;> simp [Option.filter, Kin.inGroup, hg, task, Kin.ended, hq]
  · by_cases hq : q.state = .exited <;> simp [Option.filter, Kin.inGroup, hg, task, hq]

section Exits

variable (hal : HalMemory) (heap : Heap) (code : Int32) {k : KernelState} {p : Process}

/-- Removing the caller first does not matter to the removal of its group. -/
theorem drop_group_of_member (hp : t.current = .ok p) :
    ((census t).drop fun id _ => id == t.currentTid).drop (fun _ tgid => tgid == p.tgid) =
      (census t).drop fun _ tgid => tgid == p.tgid := by
  funext i
  by_cases hi : i = t.currentTid
  · subst hi
    by_cases hs : p.state = .exited <;>
      simp [Census.drop, census, current_kin hp, task, kinOf, hs, Option.filter]
  · have hbeq : (i == t.currentTid) = false := by simpa using hi
    simp [Census.drop, hbeq]

theorem InStep.exitThread (h : InStep k) (hp : k.table.current = .ok p) :
    ∃ x, (k.table.exitCurrentThread hal heap code).1 = .ok x ∧
      InStep ⟨(k.table.exitCurrentThread hal heap code).2, dropTasks x k.scheduler⟩ := by
  have hkin := exitCurrentThread_kin hal heap code hp
  have hkeeps := keeps_exitCurrentThread hal heap code steady_filing k.table
  have hremove := conserved_removeTask h.tasks p.tid
  have halive := leaveThread_groupAlive hal heap code (current_ok hp)
  refine ⟨_, by simp only [exitCurrentThread, hp]; rfl, h.filed.keeps hkeeps, ?_⟩
  rw [h.filed.current hp] at hremove
  simp only [halive]
  by_cases hg : k.table.groupAlive p.tgid p.tid = true
  · rw [if_pos hg] at hkin
    rw [hg, census_update_ended hkin, h.filed.current hp]
    exact hremove
  · rw [if_neg hg] at hkin
    rw [Bool.not_eq_true] at hg
    rw [hg, census_group_ended hkin, ← drop_group_of_member hp, h.filed.current hp]
    exact conserved_exitGroup hremove p.tgid

theorem InStep.exitGroup (h : InStep k) (hp : k.table.current = .ok p) :
    InStep ⟨(k.table.exitCurrentProcessGroup hal heap code).2, k.scheduler.exitGroup p.tgid⟩ := by
  refine ⟨h.filed.keeps (keeps_exitCurrentProcessGroup hal heap code steady_filing k.table), ?_⟩
  rw [census_group_ended (exitCurrentProcessGroup_kin hal heap code hp)]
  exact conserved_exitGroup h.tasks p.tgid

theorem InStep.sysExitGroup (h : InStep k) : InStep (sysExitGroup hal heap code k).2 := by
  rcases hp : k.table.current with e | p
  · simp only [ProcessCalls.sysExitGroup, exitCurrentProcessGroup, hp]
    exact h
  have hgroup := h.exitGroup hal heap code hp
  simp only [exitCurrentProcessGroup, hp] at hgroup
  simp only [ProcessCalls.sysExitGroup, exitCurrentProcessGroup, hp]
  exact hgroup.tellParent p.parent

theorem InStep.exitThread_then (h : InStep k) {f : ThreadExit → KernelState → KernelState}
    (hf : ∀ x l, InStep { l with scheduler := dropTasks x l.scheduler } → InStep (f x l)) :
    InStep (match k.table.exitCurrentThread hal heap code with
      | (.error _, t) => { k with table := t }
      | (.ok x, t) => f x { k with table := t }) := by
  rcases hp : k.table.current with e | p
  · simp only [exitCurrentThread, hp]
    exact h
  obtain ⟨x, hx, hstep⟩ := h.exitThread hal heap code hp
  rcases hrun : k.table.exitCurrentThread hal heap code with ⟨r, t⟩
  rw [hrun] at hx hstep
  subst hx
  exact hf x { k with table := t } hstep

theorem InStep.sysExitThread (h : InStep k) : InStep (sysExitThread hal heap code k).2 := by
  have hthen := h.exitThread_then hal heap code (f := fun x l =>
    wakeAllWaiters ((joinAddrs x).mergeSort (· ≤ ·))
      (ProcessCalls.tellParent x.parentTgid { l with scheduler := dropTasks x l.scheduler }))
    fun x l hl => (hl.tellParent _).wakeEach _ _
  unfold ProcessCalls.sysExitThread
  rcases hrun : k.table.exitCurrentThread hal heap code with ⟨e | x, t⟩ <;>
    rw [hrun] at hthen <;> exact hthen

theorem InStep.sysExit (h : InStep k) (exitGroup : Bool) :
    InStep (sysExit hal heap exitGroup code k).2 := by
  cases exitGroup with
  | false => exact h.sysExitThread hal heap code
  | true => exact h.sysExitGroup hal heap code

theorem InStep.afterKernelExit {x : ThreadExit}
    (h : InStep { k with scheduler := dropTasks x k.scheduler }) : InStep (afterKernelExit x k) :=
  ((h.tellParent _).wakeEach _ _).wakeEach _ _

theorem InStep.signalExit (h : InStep k) (signum : ℕ) : InStep (signalExit hal heap signum k) :=
  h.exitThread_then hal heap _ fun _ _ hl => hl.afterKernelExit.wakeEveryone

theorem InStep.forcedThreadExit (h : InStep k) : InStep (forcedThreadExit hal heap k) :=
  h.exitThread_then hal heap _ fun _ _ hl => hl.afterKernelExit

theorem InStep.faultExit (h : InStep k) : InStep (faultExit hal heap k) := by
  rcases hp : k.table.current with e | p
  · simp only [ProcessCalls.faultExit, exitCurrentProcessGroup, hp]
    exact h
  have hkeeps := keeps_exitCurrentProcessGroup hal heap (-1) steady_filing k.table
  have hkin := exitCurrentProcessGroup_kin hal heap (-1) hp
  have hremove := conserved_removeTask h.tasks p.tid
  rw [h.filed.current hp] at hremove
  have hgroup := conserved_exitGroup hremove p.tgid
  rw [drop_group_of_member hp, ← census_group_ended hkin, ← h.filed.current hp] at hgroup
  have hstep : InStep ⟨_, _⟩ := ⟨h.filed.keeps hkeeps, hgroup⟩
  simp only [exitCurrentProcessGroup, hp] at hstep
  simp only [ProcessCalls.faultExit, exitCurrentProcessGroup, hp]
  exact ((((hstep.wakeVforkParent _).tellParent _).wakeEach _ _).wakeEach _ _).wakeEveryone

/-! The watchdog ends the groups in the table first and tells the scheduler afterwards. -/

def dropGroups (xs : List GroupExit) (c : Census) : Census :=
  xs.foldl (fun c x => c.drop fun _ tgid => tgid == x.tgid) c

theorem forceExits_census (tgids : List ℕ) (t : Table) : census (forceExits hal heap tgids t).2 =
      dropGroups (forceExits hal heap tgids t).1 (census t) := by
  induction tgids generalizing t with
  | nil => rfl
  | cons g tgids ih =>
    have hfirst : census (t.forceExitGroup hal heap watchdogCode g).2 =
        dropGroups (t.forceExitGroup hal heap watchdogCode g).1.toList (census t) := by
      have hkin := forceExitGroup_kin hal heap watchdogCode g t
      cases htids : t.groupTids g with
      | nil => simp only [forceExitGroup, htids]; rfl
      | cons first rest =>
        rw [census_group_ended hkin]
        simp only [forceExitGroup, htids]
        rfl
    simp only [forceExits]
    rw [ih, hfirst, dropGroups, dropGroups, dropGroups, List.foldl_append]

theorem keeps_forceExits {β : Type} {view : Process → β} (hv : Steady view) (tgids : List ℕ)
    (t : Table) : Keeps view t (forceExits hal heap tgids t).2 := by
  induction tgids generalizing t with
  | nil => exact .refl t
  | cons g tgids ih => exact (keeps_forceExitGroup hal heap watchdogCode hv g t).trans (ih _)

theorem afterForcedExits (xs : List GroupExit) (h : Conserved k.scheduler c) :
    Conserved (xs.foldl afterForcedExit k).scheduler (dropGroups xs c) := by
  induction xs generalizing k c with
  | nil => exact h
  | cons x xs ih =>
    have hdrop := conserved_exitGroup h x.tgid
    apply ih
    unfold afterForcedExit
    cases x.parentTgid <;> cases x.vforkParentTid
    · exact hdrop
    · exact hdrop.wakeTask _
    · exact hdrop.wakeTasks _
    · exact (hdrop.wakeTasks _).wakeTask _

theorem InStep.watchdogKill (h : InStep k) (tgids : List ℕ) :
    InStep (watchdogKill hal heap tgids k) := by
  have hkeeps := keeps_forceExits hal heap steady_filing tgids k.table
  have hcensus := forceExits_census hal heap tgids k.table
  unfold ProcessCalls.watchdogKill
  generalize forceExits hal heap tgids k.table = out at hkeeps hcensus ⊢
  obtain ⟨xs, t⟩ := out
  simp only at hkeeps hcensus ⊢
  split
  · next hnil =>
    rw [List.isEmpty_iff.mp hnil] at hcensus
    exact h.table ⟨hkeeps, hcensus⟩
  have hstep : InStep (xs.foldl afterForcedExit { k with table := t }) := by
    refine ⟨?_, ?_⟩ <;> rw [afterForcedExit_table]
    · exact h.filed.keeps hkeeps
    · rw [hcensus]
      exact afterForcedExits (k := { k with table := t }) xs h.tasks
  exact ((hstep.wakeEach _ _).wakeEach _ _).wakeEveryone

end Exits

/-! Storing a tid. Whether a store succeeds depends on the mappings and the length only. -/

theorem writeLoop_result (hal : HalMemory) (mappings : Mappings) (fuel cursor : ℕ)
    {bytes bytes' : List UInt8} (hlen : bytes.length = bytes'.length) (mem mem' : Memory) :
    (writeLoop hal mappings fuel cursor bytes mem).1 =
      (writeLoop hal mappings fuel cursor bytes' mem').1 := by
  induction fuel generalizing cursor bytes bytes' mem mem' with
  | zero => cases bytes <;> cases bytes' <;> simp_all [writeLoop]
  | succ fuel ih =>
    rcases bytes with _ | ⟨b, bytes⟩
    · rw [List.eq_nil_of_length_eq_zero hlen.symm]
      rfl
    rcases bytes' with _ | ⟨b', bytes'⟩
    · cases hlen
    have htail : bytes.length = bytes'.length := by simpa using hlen
    simp only [writeLoop, htail]
    split
    · rfl
    split
    · rfl
    · split
      · rfl
      · exact ih _ (by simp [htail]) _ _

def CanStore (hal : HalMemory) (addr : ℕ) (M : Machine) : Prop :=
  (writeBytes hal addr (ByteFields.leBytes 4 0) M).1 = .ok ()

theorem CanStore.write {hal : HalMemory} {addr : ℕ} {M M' : Machine} (h : CanStore hal addr M)
    (hspace : M'.space = M.space) (tid : ℕ) :
    (writeBytes hal addr (ByteFields.leBytes 4 tid) M').1 = .ok () := by
  refine Eq.trans ?_ h
  simp only [writeBytes, hspace]
  exact writeLoop_result hal _ _ _ (by simp) _ _

section Store

variable {hal : HalMemory} {wanted : Bool} {holder addr tid : ℕ} {t : Table} {q p : Process}

theorem putMachine_of_space {M : Machine} (h : M.space = (t.machine p).space) :
    t.putMachine p M = { t with mem := M.mem } := by
  have hspace : update t.spaces p.addressSpace M.space = t.spaces := by
    rw [h]
    exact update_eq_self _ _
  unfold putMachine
  rw [hspace]

variable (hal wanted holder addr tid t) in
theorem storeTid_table : ∃ m, (storeTid hal wanted holder addr tid t).2 = { t with mem := m } := by
  unfold storeTid
  split
  · split
    · exact ⟨t.mem, rfl⟩
    · next p hp =>
      have hspace := UserMemory.writeBytes_space hal addr (ByteFields.leBytes 4 tid) (t.machine p)
      generalize writeBytes hal addr (ByteFields.leBytes 4 tid) (t.machine p) = out at hspace ⊢
      rcases out with ⟨e | _, M⟩
      · exact ⟨_, putMachine_of_space hspace⟩
      · exact ⟨_, putMachine_of_space hspace⟩
  · exact ⟨t.mem, rfl⟩

theorem storeTid_ok (hq : t.processes[holder]? = some q)
    (hcan : wanted = true → addr ≠ 0 →
      (writeBytes hal addr (ByteFields.leBytes 4 tid) (t.machine q)).1 = .ok ()) :
    (storeTid hal wanted holder addr tid t).1 = .ok () := by
  unfold storeTid
  split
  · next h =>
    have hwrite := hcan h.1 h.2
    simp only [hq]
    rcases hrun : writeBytes hal addr (ByteFields.leBytes 4 tid) (t.machine q) with ⟨r, M⟩
    rw [hrun] at hwrite
    simp only at hwrite
    rw [hwrite]
  · rfl

variable (hal wanted holder addr tid t) in
theorem keeps_storeTid {β : Type} {view : Process → β} :
    Keeps view t (storeTid hal wanted holder addr tid t).2 := by
  obtain ⟨m, hm⟩ := storeTid_table hal wanted holder addr tid t
  rw [hm]
  exact ⟨rfl, rfl, rfl⟩

variable (wanted tid addr t) in
theorem keeps_setClearChildTid {β : Type} {view : Process → β}
    (hview : ∀ p c, view { p with clearChildTid := c } = view p) :
    Keeps view t (setClearChildTid wanted tid addr t) := by
  unfold setClearChildTid
  split
  · exact keeps_modify fun p => hview p _
  · exact .refl t

theorem quiet_setVforkParentTid (child parent : ℕ) : Quiet t (t.setVforkParentTid child parent).2 := by
  unfold setVforkParentTid
  split
  · exact quiet_modify fun p => rfl
  · exact .refl t

end Store

end TaskAgreement
