import Whuse.TaskAgreement

/-! Runs of the kernel over clones, image replacements and exits. -/
namespace AgreementRuns

open Option
open AddressSpace TrapHandler TaskScheduler ProcessTable ProcessTable.Table ProcessCalls Function
open TableEffects TableFiling SchedulerConservation TaskAgreement ExecCall
open CallRuns (board boardHeap)

/-- A new entry beside the caller `p`, which now runs in the machine `M`. -/
structure Offspring (t u : Table) (p : Process) (q : Kin) (M : Machine) : Prop where
  born : Born t u q
  caller : u.processes[t.currentTid]? = some p
  machine : u.machine p = M

variable {out : KernelResult ℕ × KernelState} {q : Kin} {t u : Table}

theorem insert_caller {p c : Process} (h : Filed t) (hp : t.current = .ok p) :
    (t.processes.insert t.nextPid c)[t.currentTid]? = some p := by
  have hne : ¬ t.nextPid = t.currentTid := (h.current_below hp).ne'
  rw [Std.ExtTreeMap.getElem?_insert, if_neg (by simpa using hne), current_ok hp]

section Fork

variable (hal : HalMemory) (heap : Heap) {p : Process}

theorem forkShared_offspring (h : Filed t) (hp : t.current = .ok p) :
    ∃ u, t.forkProcessFromCurrentShared = (.ok t.nextPid, u) ∧
      Offspring t u p (newborn t.nextPid t.nextPid (some p.tgid)) (t.machine p) := by
  unfold forkProcessFromCurrentShared
  simp only [current_takeId, hp]
  refine ⟨_, rfl, ⟨kin_insert, ⟨p.addressSpace, h.current_space hp, held_insert⟩, rfl, le_rfl, rfl⟩,
    insert_caller h hp, rfl⟩

/-- So many copies would go over the budget. -/
def OverBudget (t : Table) (p : Process) : Prop :=
  0 < estimatedPrivateCloneBytes (t.spaces p.addressSpace) ∧ forkCloneBudgetBytes <
    min (t.taskCount * estimatedPrivateCloneBytes (t.spaces p.addressSpace)) MachineWord.usizeMax

/-- The id is taken also when the budget refuses the copy. -/
theorem fork_offspring (h : Filed t) (hp : t.current = .ok p) :
    OverBudget t p ∧ (∃ e, t.forkProcessFromCurrent hal heap =
      (.error e, { t with nextPid := t.nextPid + 1 })) ∨
    ¬ OverBudget t p ∧ ∃ u, t.forkProcessFromCurrent hal heap = (.ok t.nextPid, u) ∧
      Offspring t u p (newborn t.nextPid t.nextPid (some p.tgid)) (t.machine p) := by
  unfold forkProcessFromCurrent
  simp only [current_takeId, hp]
  split
  · next hover => exact .inl ⟨hover, eagain, rfl⟩
  next hunder =>
  refine .inr ⟨hunder, _, rfl, ⟨kin_insert, ⟨t.nextSpace, Nat.lt_succ_self _, held_insert⟩, rfl,
    Nat.le_succ _, rfl⟩, insert_caller h hp, ?_⟩
  have hne : p.addressSpace ≠ t.nextSpace := (h.current_space hp).ne
  simp [machine, addSpace, update_of_ne hne]

theorem cloneThread_offspring {fuel stack : ℕ} {tls : Option ℕ} {r : KernelResult ℕ} (h : Filed t)
    (hp : t.current = .ok p) (hrun : t.cloneThreadFromCurrent hal heap fuel stack tls = some (r, u)) :
    r = .ok t.nextPid ∧ ∃ sp M, threadStack hal heap fuel stack (t.machine p) = some (sp, M) ∧
      Offspring t u p (newborn t.nextPid p.tgid p.parent) M ∧
      u.processes[t.nextPid]? = some (threadChild p t.nextPid sp tls) := by
  unfold cloneThreadFromCurrent at hrun
  simp only [current_takeId, hp, map_eq_some_iff] at hrun
  obtain ⟨⟨sp, M⟩, hstack, hrun⟩ := hrun
  simp only [Prod.mk.injEq] at hrun
  obtain ⟨rfl, rfl⟩ := hrun
  refine ⟨rfl, sp, M, hstack, ⟨⟨kin_insert, ⟨p.addressSpace, h.current_space hp, held_insert⟩, rfl,
    le_rfl, rfl⟩, insert_caller h hp, ?_⟩, ?_⟩
  · simp [machine, putMachine]
  · simp

end Fork

theorem census_born (h : Born t u q) (hq : q.state = .ready) :
    census u = update (census t) t.nextPid (some q.tgid) := by
  funext j
  simp only [census, h.kin, update_apply]
  split
  · simp [task, hq]
  · rfl

theorem census_free (h : Filed t) : census t t.nextPid = none := by
  unfold census kin
  cases hget : t.processes[t.nextPid]? with
  | none => rfl
  | some p => exact absurd (h.below _ _ (held_of_entry hget)) (lt_irrefl _)

theorem inStep_born {k : KernelState} {v : Table} {s : Scheduler} (h : InStep k)
    (hb : Born k.table u q) (hq : q.state = .ready) (hquiet : Quiet u v)
    (hs : Conserved s (census k.table)) : InStep ⟨v, s.spawn k.table.nextPid q.tgid⟩ := by
  refine ⟨(h.filed.born hb).keeps hquiet.keeps, ?_⟩
  rw [hquiet.census, census_born hb hq]
  exact hs.spawn (census_free h.filed) q.tgid

theorem inStep_takeId {k : KernelState} (h : InStep k) :
    InStep { k with table := { k.table with nextPid := k.table.nextPid + 1 } } :=
  ⟨h.filed.takeId, h.tasks⟩

/-- The pointers through which a clone is asked to store the tid can be written. A thread's are
looked at once its stack is mapped. -/
def TidsWritable (hal : HalMemory) (heap : Heap) (fuel : ℕ) (r : CloneRequest) (t : Table) : Prop :=
  ∀ p, t.current = .ok p →
    if r.has cloneThreadFlag then
      ∀ sp M, threadStack hal heap fuel r.stack (t.machine p) = some (sp, M) →
        (r.has cloneParentSettid = true → r.parentTid ≠ 0 → CanStore hal r.parentTid M) ∧
        (r.has cloneChildSettid = true → r.childTid ≠ 0 → CanStore hal r.childTid M)
    else r.has cloneParentSettid = true → r.parentTid ≠ 0 → CanStore hal r.parentTid (t.machine p)

section Clone

variable {hal : HalMemory} {heap : Heap} {fuel : ℕ} {r : CloneRequest} {k : KernelState}
  {p : Process}

/-- The request is refused before there is a new entry. -/
def Refused (r : CloneRequest) (t : Table) (p : Process) : Prop :=
  r.has cloneNamespaceMask = true ∨
    if r.has cloneThreadFlag then r.flags &&& cloneThreadRequired ≠ cloneThreadRequired
    else r.has cloneVm = false ∧ OverBudget t p

def CloneRequest.newborn (r : CloneRequest) (p : Process) (tid : ℕ) : Kin :=
  if r.has cloneThreadFlag then TableEffects.newborn tid p.tgid p.parent
  else TableEffects.newborn tid tid (some p.tgid)

def look (p : Process) : (ℕ × ℕ) × Kin := (filing p, kinOf p)

variable (hal heap fuel r k p) in
/-- Everything a clone can do: it is refused, or makes an entry and fails to store a tid, or makes
an entry and hands it to the scheduler. -/
inductive Cloning : KernelResult ℕ × KernelState → Prop where
  | refused {e n} : Refused r k.table p → n = k.table.nextPid ∨ n = k.table.nextPid + 1 →
      Cloning (.error e, { k with table := { k.table with nextPid := n } })
  | failed {e u M m t} : ¬ Refused r k.table p → ¬ TidsWritable hal heap fuel r k.table →
      Offspring k.table u p (CloneRequest.newborn r p k.table.nextPid) M →
      Cloning (.error e, { k with table := { u with mem := m, currentTid := t } })
  | made {u M v} : Offspring k.table u p (CloneRequest.newborn r p k.table.nextPid) M →
      Keeps look u v → r.has cloneThreadFlag = true ∨ r.has cloneVfork = false →
      Cloning (.ok k.table.nextPid, ⟨v, k.scheduler.spawn k.table.nextPid
        (CloneRequest.newborn r p k.table.nextPid).tgid⟩)
  | waits {u M v} : Offspring k.table u p (CloneRequest.newborn r p k.table.nextPid) M →
      Keeps look u v → r.has cloneThreadFlag = false → r.has cloneVfork = true →
      Cloning (.ok k.table.nextPid, ⟨(v.setVforkParentTid k.table.nextPid p.tid).2,
        k.scheduler.blockCurrent.spawn k.table.nextPid k.table.nextPid⟩)

variable (hal r) in
theorem Offspring.store {M : Machine} (ho : Offspring k.table u p q M) :
    ∃ m, (storeTid hal (r.has cloneParentSettid) u.currentTid r.parentTid k.table.nextPid u).2 =
        { u with mem := m } ∧ ({ u with mem := m } : Table).current = .ok p ∧
      ((r.has cloneParentSettid = true → r.parentTid ≠ 0 → CanStore hal r.parentTid M) →
        (storeTid hal (r.has cloneParentSettid) u.currentTid r.parentTid k.table.nextPid u).1 =
          .ok ()) := by
  have hentry : u.processes[u.currentTid]? = some p := ho.born.currentTid ▸ ho.caller
  obtain ⟨m, hm⟩ := storeTid_table hal (r.has cloneParentSettid) u.currentTid r.parentTid
    k.table.nextPid u
  refine ⟨m, hm, by simp only [current, hentry], fun hcan => ?_⟩
  exact storeTid_ok hentry fun hw ha => (hcan hw ha).write (congrArg Machine.space ho.machine) _

section

variable (h : Filed k.table) (hp : k.table.current = .ok p)
include h hp

theorem cloneProcess_cloning (hspace : ¬ r.has cloneNamespaceMask = true) (hthread : r.has cloneThreadFlag = false) :
    Cloning hal heap fuel r k p (cloneProcess hal heap r k) := by
  have hforked : (Refused r k.table p ∧ ∃ e, (if r.has cloneVm then
        k.table.forkProcessFromCurrentShared else k.table.forkProcessFromCurrent hal heap) =
          (.error e, { k.table with nextPid := k.table.nextPid + 1 })) ∨
      ¬ Refused r k.table p ∧ ∃ u, (if r.has cloneVm then
        k.table.forkProcessFromCurrentShared else k.table.forkProcessFromCurrent hal heap) =
          (.ok k.table.nextPid, u) ∧
        Offspring k.table u p (CloneRequest.newborn r p k.table.nextPid) (k.table.machine p) := by
    have hrefused : Refused r k.table p ↔ r.has cloneVm = false ∧ OverBudget k.table p := by
      simp [Refused, hspace, hthread]
    have hkin : CloneRequest.newborn r p k.table.nextPid =
        TableEffects.newborn k.table.nextPid k.table.nextPid (some p.tgid) := by
      simp [CloneRequest.newborn, hthread]
    rw [hrefused, hkin]
    cases r.has cloneVm with
    | true => exact .inr ⟨fun hvm => absurd hvm.1 nofun, forkShared_offspring h hp⟩
    | false =>
      rcases fork_offspring hal heap h hp with ⟨hover, hfork⟩ | ⟨hunder, hfork⟩
      · exact .inl ⟨⟨rfl, hover⟩, hfork⟩
      · exact .inr ⟨fun hover => hunder hover.2, hfork⟩
  unfold ProcessCalls.cloneProcess
  rcases hforked with ⟨hrefused, e, hfork⟩ | ⟨hnot, u, hfork, ho⟩
  · rw [hfork]
    exact .refused hrefused (.inr rfl)
  obtain ⟨m, hm, hcurrent, hstore⟩ := ho.store hal r
  simp only [hfork]
  generalize storeTid hal (r.has cloneParentSettid) u.currentTid r.parentTid
    k.table.nextPid u = stored at hm hstore ⊢
  obtain ⟨e | _, v⟩ := stored <;> cases hm
  · refine .failed (t := u.currentTid) hnot (fun hcan => ?_) ho
    have hcan := hcan p hp
    rw [if_neg (by simp [hthread])] at hcan
    cases hstore hcan
  · simp only [hcurrent]
    have hmem : Keeps look u { u with mem := m } := ⟨rfl, rfl, rfl⟩
    have htail := hmem.trans ((keeps_storeTid hal (r.has cloneChildSettid) k.table.nextPid
      r.childTid k.table.nextPid { u with mem := m }).trans
      ((keeps_setClearChildTid (r.has cloneChildCleartid) r.childTid k.table.nextPid _
        fun _ _ => rfl).trans (keeps_modify (j := k.table.nextPid)
          (f := forkedFrame p.trapFrame.sepc r.stack) fun _ => rfl)))
    split
    · next hvfork => exact .waits ho htail hthread hvfork
    next hvfork =>
    have hmade := @Cloning.made hal heap fuel r k p _ _ _ ho htail (.inr (by simpa using hvfork))
    simp only [CloneRequest.newborn, hthread] at hmade
    exact hmade

theorem cloneThread_cloning (hspace : ¬ r.has cloneNamespaceMask = true) (hthread : r.has cloneThreadFlag = true)
    (hrun : cloneThread hal heap fuel r k = some out) : Cloning hal heap fuel r k p out := by
  unfold ProcessCalls.cloneThread at hrun
  split at hrun
  · next hflags =>
    cases hrun
    exact .refused (.inr (by rwa [if_pos hthread])) (.inl rfl)
  next hflags =>
  have hnot : ¬ Refused r k.table p := by
    rw [Refused, if_pos hthread]
    exact not_or.mpr ⟨hspace, hflags⟩
  rcases hclone : k.table.cloneThreadFromCurrent hal heap fuel r.stack r.tls with _ | ⟨res, u⟩
  · simp only [hclone] at hrun
    cases hrun
  obtain ⟨rfl, sp, M, hstack, ho, hchild⟩ := cloneThread_offspring hal heap h hp hclone
  have hcan : TidsWritable hal heap fuel r k.table →
      (r.has cloneParentSettid = true → r.parentTid ≠ 0 → CanStore hal r.parentTid M) ∧
      (r.has cloneChildSettid = true → r.childTid ≠ 0 → CanStore hal r.childTid M) := by
    intro hcan
    have hcan := hcan p hp
    rw [if_pos hthread] at hcan
    exact hcan sp M hstack
  have hkin : TableEffects.newborn k.table.nextPid p.tgid p.parent =
      CloneRequest.newborn r p k.table.nextPid := by rw [CloneRequest.newborn, if_pos hthread]
  have ho' := hkin ▸ ho
  obtain ⟨m, hm, hcurrent, hstore⟩ := ho.store hal r
  simp only [hclone] at hrun
  generalize storeTid hal (r.has cloneParentSettid) u.currentTid r.parentTid
    k.table.nextPid u = stored at hm hstore hrun
  obtain ⟨e | _, v⟩ := stored <;> cases hm
  · cases hrun
    refine .failed (t := u.currentTid) hnot (fun hw => ?_) ho'
    cases hstore (hcan hw).1
  -- the child's store runs with the child as the current thread, in the same space
  have hcontains : u.processes.contains k.table.nextPid = true := by
    rw [Std.ExtTreeMap.contains_eq_isSome_getElem?, hchild, isSome_some]
  simp only [hcurrent, setCurrent, hcontains, if_true] at hrun
  have hok : TidsWritable hal heap fuel r k.table →
      (storeTid hal (r.has cloneChildSettid) k.table.nextPid r.childTid k.table.nextPid
        { u with mem := m, currentTid := k.table.nextPid }).1 = .ok () := by
    intro hw
    have hspace : u.spaces p.addressSpace = M.space := congrArg Machine.space ho.machine
    exact storeTid_ok (t := { u with mem := m, currentTid := k.table.nextPid }) hchild
      fun hwanted ha => ((hcan hw).2 hwanted ha).write hspace _
  obtain ⟨m', hm'⟩ := storeTid_table hal (r.has cloneChildSettid) k.table.nextPid r.childTid
    k.table.nextPid { u with mem := m, currentTid := k.table.nextPid }
  generalize storeTid hal (r.has cloneChildSettid) k.table.nextPid r.childTid k.table.nextPid
    { u with mem := m, currentTid := k.table.nextPid } = stored at hm' hok hrun
  obtain ⟨e | _, w⟩ := stored <;> cases hm'
  · cases hrun
    refine .failed (u := u) (t := k.table.nextPid) hnot (fun hw => ?_) ho'
    cases hok hw
  cases hrun
  have hmem : Keeps look u { u with mem := m', currentTid := k.table.nextPid } := ⟨rfl, rfl, rfl⟩
  have hmade := @Cloning.made hal heap fuel r k p _ _ _ ho' ((hmem.trans (keeps_setClearChildTid
    (r.has cloneChildCleartid) r.childTid k.table.nextPid _ fun _ _ => rfl)).trans
    (keeps_setCurrent p.tid _)) (.inl hthread)
  rw [← hkin] at hmade
  exact hmade

theorem doClone_cloning (hrun : doClone hal heap fuel r k = some out) : Cloning hal heap fuel r k p out := by
  unfold doClone at hrun
  simp only [hp] at hrun
  split at hrun
  · next hspace =>
    cases hrun
    exact .refused (.inl hspace) (.inl rfl)
  next hspace =>
  split at hrun
  · next hthread => exact cloneThread_cloning h hp hspace hthread hrun
  · next hthread =>
    cases hrun
    exact cloneProcess_cloning h hp hspace (by simpa using hthread)

end

theorem quiet_of_look {v : Table} (h : Keeps look u v) : Quiet u v :=
  quiet_of_keeps (h.map fun x => (x.1.1, x.1.2, task x.2))

theorem inStep_doClone (h : InStep k) (hcan : TidsWritable hal heap fuel r k.table)
    (hrun : doClone hal heap fuel r k = some out) : InStep out.2 := by
  rcases doClone_cases hrun with ⟨e, rfl⟩ | ⟨p, hp, -⟩
  · exact h
  have hready : ∀ tid, (CloneRequest.newborn r p tid).state = .ready := by
    intro tid
    unfold CloneRequest.newborn
    split <;> rfl
  cases doClone_cloning h.filed hp hrun with
  | refused hrefused hn =>
    rcases hn with rfl | rfl
    · exact h
    · exact inStep_takeId h
  | failed hnot hbad ho => exact absurd hcan hbad
  | made ho hkeeps hcase => exact inStep_born h ho.born (hready _) (quiet_of_look hkeeps) h.tasks
  | waits ho hkeeps hthread hvfork =>
    have hborn := inStep_born h ho.born (hready _)
      ((quiet_of_look hkeeps).trans (quiet_setVforkParentTid k.table.nextPid p.tid))
      h.tasks.blockCurrent
    simp only [CloneRequest.newborn, hthread] at hborn
    exact hborn

end Clone

section Exec

variable {hal : HalMemory} {heaps : ExecHeaps} {k : KernelState} {p : Process}

variable (hal heaps) in
theorem census_execve (entry : UInt64) (sp : Option UInt64) (h : InStep k)
    (hp : k.table.current = .ok p) (hlive : p.state ≠ .exited)
    (halone : k.table.groupAlive p.tgid p.tid = false) :
    census (k.table.execveCurrentImage hal heaps.clone heaps.stack entry sp).2 =
      census k.table := by
  have htid := h.filed.current hp
  funext j
  simp only [census, execveCurrentImage_kin hal heaps.clone heaps.stack entry sp hp htid,
    update_apply]
  by_cases hj : j = k.table.currentTid
  · rw [hj, current_kin hp]
    simp [task, Kin.reset, kinOf, hlive]
  rw [if_neg hj]
  rcases hq : kin k.table j with _ | q
  · rfl
  by_cases hg : q.tgid = p.tgid
  · -- the removed entries of the group have exited
    have hexited : q.state = .exited := by
      by_contra hstate
      have hne : q.tid ≠ p.tid := by
        obtain ⟨e, he, rfl⟩ := kin_eq_some.mp hq
        rw [htid]
        exact fun heq => hj ((h.filed.tid _ _ (held_of_entry he)).symm.trans heq)
      have halive := groupAlive_iff.mpr ⟨j, q, hq, hg, hne, hstate⟩
      rw [halone] at halive
      cases halive
    simp [task, hexited]
  · simp [Option.filter, hg]

variable (hal heaps) in
theorem quiet_putMachine (q : Process) (M : Machine) (t : Table) : Quiet t (t.putMachine q M) :=
  ⟨⟨rfl, rfl, rfl⟩, rfl⟩

theorem inStep_sysExecve {files : ExecFiles} {args : ExecArgs} (h : InStep k)
    (hp : k.table.current = .ok p) (hlive : p.state ≠ .exited)
    (halone : ∀ image, resolveImage files heaps args = some (.ok image) →
      k.table.groupAlive p.tgid p.tid = false)
    (hrun : ExecCall.sysExecve hal heaps files args k = some out) : InStep out.2 := by
  rcases sysExecve_cases hrun with ⟨e, rfl⟩ | ⟨q, image, hq, hres, hplace⟩
  · exact h
  have hreset : ∀ {entry t}, (resetCaller hal heaps entry k.table).2 = t →
      InStep { k with table := t } := by
    rintro entry _ rfl
    refine ⟨Filed.execveCurrentImage hal heaps.clone heaps.stack entry none h.filed, ?_⟩
    exact census_execve hal heaps entry none h hp hlive (halone image hres) ▸ h.tasks
  cases placeImage_placing hplace with
  | reset ht => exact hreset ht
  | wrote ht _ => exact (hreset ht).table (quiet_putMachine _ _ _)
  | builtin _ ht _ =>
    exact (hreset ht).table ((quiet_putMachine _ _ _).trans (quiet_modify fun p => rfl))
  | elf ht _ hu hv =>
    subst hu
    cases hv
    refine InStep.wakeVforkParent ((hreset ht).table ?_) _
    refine Quiet.trans ?_ (quiet_of_keeps (keeps_modifyGroup fun p => rfl))
    exact (quiet_putMachine _ _ _).trans (quiet_modify fun p => rfl)

end Exec

inductive Call where
  | clone (heap : Heap) (fuel : ℕ) (r : CloneRequest)
  | clone3 (heap : Heap) (fuel : ℕ) (arch : Arch) (addr size : ℕ)
  | execve (heaps : ExecHeaps) (files : ExecFiles) (args : ExecArgs)
  | exit (heap : Heap) (exitGroup : Bool) (code : Int32)

def Call.run (hal : HalMemory) (k : KernelState) : Call → Option KernelState
  | clone heap fuel r => (doClone hal heap fuel r k).map Prod.snd
  | clone3 heap fuel arch addr size => (sysClone3 hal heap fuel arch addr size k).map Prod.snd
  | execve heaps files args => (sysExecve hal heaps files args k).map Prod.snd
  | exit heap exitGroup code => some (sysExit hal heap exitGroup code k).2

/-- What happens between two looks at the state: a call of the running task, an exit that the
kernel makes, a change that concerns no relation of an entry, or a move of the scheduler. -/
inductive Event where
  | call (c : Call)
  | signalExit (heap : Heap) (signum : ℕ)
  | forcedThreadExit (heap : Heap)
  | faultExit (heap : Heap)
  | watchdogKill (heap : Heap) (tgids : List ℕ)
  | touch (tid : ℕ) (f : Process → Process) (h : ∀ p, identity (f p) = identity p)
  | setCurrent (tid : ℕ)
  | yieldNow
  | blockCurrent
  | ensureCurrent
  | wake (tids : List ℕ)
  | wakeAllBlocked

/-- The loop makes the scheduler's task the current one before it lets it run. -/
def enter (k : KernelState) : Option KernelState :=
  k.scheduler.current.map fun task => { k with table := (k.table.setCurrent task.id).2 }

def Event.step (hal : HalMemory) (k : KernelState) : Event → Option KernelState
  | call c => (enter k).bind (c.run hal)
  | signalExit heap signum => some (ProcessCalls.signalExit hal heap signum k)
  | forcedThreadExit heap => some (ProcessCalls.forcedThreadExit hal heap k)
  | faultExit heap => some (ProcessCalls.faultExit hal heap k)
  | watchdogKill heap tgids => some (ProcessCalls.watchdogKill hal heap tgids k)
  | touch tid f _ => some { k with table := k.table.modify tid f }
  | setCurrent tid => some { k with table := (k.table.setCurrent tid).2 }
  | yieldNow => some { k with scheduler := k.scheduler.yieldNow }
  | blockCurrent => some { k with scheduler := k.scheduler.blockCurrent }
  | ensureCurrent => some { k with scheduler := k.scheduler.ensureCurrent }
  | wake tids => some { k with scheduler := k.scheduler.wakeTasks tids }
  | wakeAllBlocked => some { k with scheduler := k.scheduler.wakeAllBlocked }

/-- A clone can store the tids it is asked for; an `execve` that finds its image is made by the
only live thread of its group. -/
def Call.Safe (hal : HalMemory) (k : KernelState) : Call → Prop
  | clone heap fuel r => TidsWritable hal heap fuel r k.table
  | clone3 heap fuel arch addr size => ∀ p raw, k.table.current = .ok p →
      readBytes hal heap addr (min size cloneArgsLen) (k.table.machine p) = .ok raw →
      TidsWritable hal heap fuel (decodeCloneRequest arch (clone3Args raw)) k.table
  | execve heaps files args => ∀ p image, k.table.current = .ok p →
      resolveImage files heaps args = some (.ok image) →
      k.table.groupAlive p.tgid p.tid = false
  | exit _ _ _ => True

def Event.Safe (hal : HalMemory) (k : KernelState) : Event → Prop
  | call c => ∀ l, enter k = some l → c.Safe hal l
  | _ => True

inductive SafeRun (hal : HalMemory) : KernelState → KernelState → Prop where
  | refl (k) : SafeRun hal k k
  | tail {k l m} (e : Event) : SafeRun hal k l → e.Safe hal l → e.step hal l = some m →
      SafeRun hal k m

section Run

variable {hal : HalMemory} {k l m : KernelState}

theorem inStep_enter (h : InStep k) (he : enter k = some l) :
    InStep l ∧ ∃ p, l.table.current = .ok p ∧ p.state ≠ .exited := by
  obtain ⟨tk, htask, rfl⟩ := map_eq_some_iff.mp he
  refine ⟨h.table (quiet_setCurrent tk.id k.table), ?_⟩
  have hcensus := (h.tasks.current tk htask).2
  obtain ⟨q, hq, hlive⟩ := bind_eq_some_iff.mp hcensus
  obtain ⟨p, hp, rfl⟩ := kin_eq_some.mp hq
  have hcontains : k.table.processes.contains tk.id = true := by
    rw [Std.ExtTreeMap.contains_eq_isSome_getElem?, hp, isSome_some]
  refine ⟨p, ?_, ?_⟩
  · simp [setCurrent, hcontains, current, hp]
  · intro hstate
    simp [task, kinOf, hstate] at hlive

theorem Call.run_inStep (c : Call) {p : Process} (h : InStep k) (hp : k.table.current = .ok p)
    (hlive : p.state ≠ .exited) (hsafe : c.Safe hal k) (hrun : c.run hal k = some l) :
    InStep l := by
  cases c with
  | clone heap fuel r =>
    obtain ⟨out, hout, rfl⟩ := map_eq_some_iff.mp hrun
    exact inStep_doClone h hsafe hout
  | clone3 heap fuel arch addr size =>
    obtain ⟨out, hout, rfl⟩ := map_eq_some_iff.mp hrun
    rcases sysClone3_cases hout with ⟨e, rfl⟩ | ⟨q, raw, hq, hraw, hout⟩
    · exact h
    · exact inStep_doClone h (hsafe q raw hq hraw) hout
  | execve heaps files args =>
    obtain ⟨out, hout, rfl⟩ := map_eq_some_iff.mp hrun
    exact inStep_sysExecve h hp hlive (fun image => hsafe p image hp) hout
  | exit heap exitGroup code =>
    obtain rfl := some.inj hrun
    exact h.sysExit hal heap code exitGroup

theorem Event.step_inStep (e : Event) (h : InStep k) (hsafe : e.Safe hal k)
    (hstep : e.step hal k = some l) : InStep l := by
  cases e with
  | call c =>
    obtain ⟨m, hm, hrun⟩ := bind_eq_some_iff.mp hstep
    obtain ⟨hin, p, hp, hlive⟩ := inStep_enter h hm
    exact c.run_inStep hin hp hlive (hsafe m hm) hrun
  | signalExit heap signum => exact some.inj hstep ▸ h.signalExit hal heap signum
  | forcedThreadExit heap => exact some.inj hstep ▸ h.forcedThreadExit hal heap
  | faultExit heap => exact some.inj hstep ▸ h.faultExit hal heap
  | watchdogKill heap tgids => exact some.inj hstep ▸ h.watchdogKill hal heap tgids
  | touch tid f hf => exact some.inj hstep ▸ h.table (quiet_modify hf)
  | setCurrent tid => exact some.inj hstep ▸ h.table (quiet_setCurrent tid k.table)
  | yieldNow => exact some.inj hstep ▸ h.scheduler fun hs => hs.yieldNow
  | blockCurrent => exact some.inj hstep ▸ h.scheduler fun hs => hs.blockCurrent
  | ensureCurrent =>
    refine some.inj hstep ▸ h.scheduler fun hs => ?_
    unfold Scheduler.ensureCurrent
    split
    · exact hs
    · next hnone => exact hs.scheduleNext hnone
  | wake tids => exact some.inj hstep ▸ h.scheduler fun hs => hs.wakeTasks tids
  | wakeAllBlocked => exact some.inj hstep ▸ h.scheduler fun hs => hs.wakeTasks _

theorem SafeRun.inStep (hrun : SafeRun hal k l) (h : InStep k) : InStep l := by
  induction hrun with
  | refl => exact h
  | tail e _ hsafe hstep ih => exact e.step_inStep ih hsafe hstep

/-- In every run of safe events the scheduler holds the tids of the live entries, each once. -/
theorem tasks_are_live_entries (hal : HalMemory) (k l : KernelState) (h : InStep k)
    (hrun : SafeRun hal k l) : Agrees l :=
  (hrun.inStep h).agrees

end Run

def emptyTable (hal : HalMemory) : Table := ⟨1, 0, ∅, ∅, fun _ => newUser hal, 0, fun _ => 0⟩

def boot (hal : HalMemory) (heap : Heap) (entry : UInt64) : KernelState :=
  ⟨((emptyTable hal).spawn hal heap none entry).2, (Scheduler.new.spawn 1 1).start⟩

theorem filed_boot (hal : HalMemory) (heap : Heap) (entry : UInt64) :
    Filed (boot hal heap entry).table := by
  have hheld : held filing (boot hal heap entry).table =
      update (held filing (emptyTable hal)) 1 (some (1, 0)) := held_insert
  have hone : ∀ {j x}, held filing (boot hal heap entry).table j = some x → j = 1 ∧ x = (1, 0) := by
    intro j x hx
    rw [hheld, update_apply] at hx
    split at hx
    · next hj => exact ⟨hj, (some.inj hx).symm⟩
    · simp [held, emptyTable] at hx
  refine ⟨fun j x hx => ?_, fun j x hx => ?_, fun j x hx => ?_⟩
  · obtain ⟨rfl, rfl⟩ := hone hx
    rfl
  · obtain ⟨rfl, -⟩ := hone hx
    exact Nat.lt_succ_self 1
  · obtain ⟨-, rfl⟩ := hone hx
    exact Nat.lt_succ_self 0

theorem inStep_boot (hal : HalMemory) (heap : Heap) (entry : UInt64) :
    InStep (boot hal heap entry) := by
  have hcensus : census (boot hal heap entry).table = update (fun _ => none) 1 (some 1) := by
    funext j
    simp only [census, boot, (spawn_kin hal heap none entry (emptyTable hal)).1, update_apply]
    split
    · next hj => rw [if_pos (show j = 1 from hj)]; rfl
    · next hj => rw [if_neg (show ¬ j = 1 from hj)]; simp [kin, emptyTable]
  refine ⟨filed_boot hal heap entry, ?_⟩
  rw [hcensus]
  exact (new_conserved.spawn rfl 1).scheduleNext rfl

def noHeap : Heap := ⟨fun _ => false, 0, id⟩

def small : KernelState := boot board noHeap 0

def fork : Event := .call (.clone noHeap 0 ⟨0, 0, 0, 0, none⟩)

theorem tasks_are_live_entries_fork :
    InStep small ∧ ∃ l, fork.step board small = some l ∧ isLive l.table 2 = true ∧ Agrees l := by
  have hrun : (fork.step board small).map (fun l => isLive l.table 2) = some true := by
    decide +kernel
  obtain ⟨l, hl, hlive⟩ := map_eq_some_iff.mp hrun
  refine ⟨inStep_boot _ _ _, l, hl, hlive, tasks_are_live_entries board small l
    (inStep_boot _ _ _) (.tail fork (.refl small) ?_ hl)⟩
  intro m hm p hp
  intro hwanted
  exact absurd hwanted (by decide)

/-- Where a task and an entry are: how often the scheduler holds the id, and whether the table has
it alive. -/
def sides (k : KernelState) (id : ℕ) : ℕ × Bool := (places k.scheduler id, isLive k.table id)

def runEvents (hal : HalMemory) (k : KernelState) (es : List Event) : Option KernelState :=
  es.foldlM (fun k e => e.step hal k) k

def newThread : Event := .call (.clone noHeap 0 ⟨cloneThreadRequired, 0x1000, 0, 0, none⟩)

def badPointer : Event := .call (.clone noHeap 0 ⟨cloneParentSettid, 0, 0x10, 0, none⟩)

def programHeaps : ExecHeaps where
  clone := noHeap
  stack := noHeap
  image := boardHeap
  trampoline := noHeap
  program := ⟨fun _ => false, fun _ => noHeap⟩
  interp := ⟨fun _ => false, fun _ => noHeap⟩
  loadStack := noHeap
  fuel := 1
  trampolineCode := []

def programFiles : ExecFiles where
  cwdImage := fun _ => .ok [7]
  rootImage := fun _ => .ok [7]
  shellAccess := false
  absolutePath := id
  builtinProgram := fun _ => some ⟨0, [7]⟩
  payload := fun _ => none
  shebang := fun _ => none
  elfInterp := fun _ => none

def exec : Event := .call (.execve programHeaps programFiles ⟨.ok "/a", .ok [], .ok []⟩)

/-- After an `execve` beside a second thread the scheduler still holds that thread, which the table
has forgotten; after a refused clone the table has a live entry that the scheduler never saw. -/
theorem execve_and_clone_out_of_step : InStep small ∧
    (runEvents board small [newThread]).map (fun k => (sides k 1, sides k 2)) =
      some ((1, true), (1, true)) ∧
    (runEvents board small [newThread, exec]).map (fun k => (sides k 1, sides k 2)) =
      some ((1, true), (1, false)) ∧
    (runEvents board small [badPointer]).map (fun k => (sides k 1, sides k 2)) =
      some ((1, true), (0, true)) :=
  ⟨inStep_boot _ _ _, by decide +kernel, by decide +kernel, by decide +kernel⟩

end AgreementRuns
