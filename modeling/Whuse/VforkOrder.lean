import Whuse.CallViews
import Whuse.FutexSeparation

/-! A parent that waits for the child of its `vfork`. It sleeps among all the others who sleep,
and the child's entry names it until the child has replaced its image. -/
namespace VforkOrder

open Option Std.ExtTreeMap
open Std (ExtTreeMap)
open AddressSpace TaskScheduler ProcessTable ProcessTable.Table ProcessCalls ExecCall Function List
open TableEffects TableFiling TaskAgreement AgreementRuns CallViews FutexQueues FutexSeparation TaskScheduler.Scheduler
open CallRuns (board)

variable {t : Table} {l : KernelState}

def bond (p : Process) : ℕ × Option ℕ := (p.tgid, p.vforkParentTid)

def card (p : Process) : (ℕ × ℕ) × ℕ × Option ℕ := (filing p, bond p)

theorem steady_card : Steady card := ⟨fun _ _ => rfl, fun _ _ => rfl, fun _ _ => rfl⟩

theorem held_bond (t : Table) (j : ℕ) :
    held bond t j = (kin t j).map fun q => (q.tgid, q.vforkParentTid) := by
  simp only [kin, Option.map_map]
  rfl

/-- The parent sleeps; the child's entry, and nobody else of its group, names it. -/
structure Open (parent child : ℕ) (k : KernelState) : Prop where
  filed : Filed k.table
  asleep : k.scheduler.isBlocked parent = true
  names : held bond k.table child = some (child, some parent)
  crew : ∀ j x, held bond k.table j = some x → x.1 = child → x.2 = none ∨ x.2 = some parent

section Asleep

variable {s : Scheduler} {tid woken processId : ℕ}

theorem asleep_wakeTask (h : s.isBlocked tid = true) (hne : tid ≠ woken) :
    (s.wakeTask woken).isBlocked tid = true := by
  unfold wakeTask
  split
  · exact h
  · unfold isBlocked at h ⊢
    rw [contains_erase, h]
    simpa using Ne.symm hne

theorem asleep_wakeTasks {woken : List ℕ} (h : s.isBlocked tid = true) (hnot : tid ∉ woken) :
    (s.wakeTasks woken).isBlocked tid = true := by
  induction woken generalizing s with
  | nil => exact h
  | cons id woken ih =>
    rw [mem_cons, not_or] at hnot
    exact ih (asleep_wakeTask h hnot.1) hnot.2

theorem asleep_blockCurrent (h : s.isBlocked tid = true) : s.blockCurrent.isBlocked tid = true := by
  unfold blockCurrent
  split
  · exact h
  · unfold isBlocked at h ⊢
    rw [scheduleNext_blocked, ExtTreeMap.contains_insert, h, Bool.or_true]

theorem asleep_ensureCurrent (h : s.isBlocked tid = true) :
    s.ensureCurrent.isBlocked tid = true := by
  unfold ensureCurrent
  split
  · exact h
  · unfold isBlocked at h ⊢
    rwa [scheduleNext_blocked]

theorem asleep_exitGroup (h : s.isBlocked tid = true)
    (hother : ∀ task, s.blocked[tid]? = some task → task.processId ≠ processId) :
    (s.exitGroup processId).isBlocked tid = true := by
  unfold isBlocked at h ⊢
  rw [contains_eq_isSome_getElem?, isSome_iff_exists] at h
  obtain ⟨task, htask⟩ := h
  rw [exitGroup, contains_eq_isSome_getElem?, ExtTreeMap.getElem?_filter, htask]
  simpa using hother task htask

/-- The woken task leaves the sleepers for the end of the ready queue. -/
theorem wakeTask_ready (h : s.isBlocked tid = true) :
    (s.wakeTask tid).isBlocked tid = false ∧ ∃ task, s.blocked[tid]? = some task ∧
      { task with state := .ready } ∈ (s.wakeTask tid).ready := by
  unfold isBlocked at h
  rw [contains_eq_isSome_getElem?, isSome_iff_exists] at h
  obtain ⟨task, htask⟩ := h
  unfold wakeTask
  rw [htask]
  refine ⟨?_, task, rfl, ?_⟩
  · simp [isBlocked]
  · exact mem_append_right _ (mem_singleton.mpr rfl)

end Asleep

variable {out : KernelResult ℕ × KernelState} {s : Scheduler} {u : Table} {x : ℕ × Option ℕ}

section Parts

variable {parent child : ℕ} {k : KernelState}

theorem Open.table (h : Open parent child k) (hcard : Keeps card k.table t) :
    Open parent child { k with table := t } := by
  have hbond : held bond t = held bond k.table := (hcard.map Prod.snd).held
  refine ⟨h.filed.keeps (hcard.map Prod.fst), h.asleep, ?_, fun j x hx => ?_⟩
  · exact (congrFun hbond child).trans h.names
  · exact h.crew j x ((congrFun hbond j).symm.trans hx)

theorem Open.scheduler (h : Open parent child k) (hs : s.isBlocked parent = true) :
    Open parent child { k with scheduler := s } :=
  ⟨h.filed, hs, h.names, h.crew⟩

theorem Open.below (h : Open parent child k) : child < k.table.nextPid := by
  obtain ⟨p, hp, -⟩ := map_eq_some_iff.mp h.names
  exact h.filed.below child (filing p) (held_of_entry hp)

end Parts

section Clone

variable {hal : HalMemory} {heap : Heap} {fuel : ℕ} {r : CloneRequest} {k : KernelState}
  {p : Process} {v : Table}

theorem bond_born {q : Kin} (h : Born t u q) :
    held bond u = update (held bond t) t.nextPid (some (q.tgid, q.vforkParentTid)) := by
  funext j
  rw [held_bond, h.kin, update_apply, update_apply]
  split
  · rfl
  · rw [held_bond]

/-- The waiting parent is written into an entry of another group. -/
theorem bond_setVforkParentTid {pid caller : ℕ} (hpid : held bond t pid = some x) :
    held bond (t.setVforkParentTid pid caller).2 =
      update (held bond t) pid (some (x.1, some caller)) := by
  obtain ⟨p, hp, rfl⟩ := map_eq_some_iff.mp hpid
  have hcontains : t.processes.contains pid = true := by
    rw [contains_eq_isSome_getElem?, hp, isSome_some]
  simp only [Table.setVforkParentTid, hcontains, if_true]
  funext j
  rw [held, modify_get]
  by_cases hj : j = pid
  · subst hj
    simp [hp, bond]
  · simp [held, hj]

theorem keeps_card (h : Keeps look u v) : Keeps card u v :=
  h.map fun x => (x.1, x.2.tgid, x.2.vforkParentTid)

/-- A creator that waits is written into the new entry. -/
theorem bond_waits {M : Machine} (h : Filed k.table)
    (ho : Offspring k.table u p (CloneRequest.newborn r p k.table.nextPid) M)
    (hkeeps : Keeps look u v) (hthread : r.has cloneThreadFlag = false) :
    Filed (v.setVforkParentTid k.table.nextPid p.tid).2 ∧
      k.table.nextPid < (v.setVforkParentTid k.table.nextPid p.tid).2.nextPid ∧
      held bond (v.setVforkParentTid k.table.nextPid p.tid).2 = update (held bond k.table)
        k.table.nextPid (some (k.table.nextPid, some p.tid)) := by
  have hcard := keeps_card hkeeps
  have hset : Keeps filing v (v.setVforkParentTid k.table.nextPid p.tid).2 := by
    unfold Table.setVforkParentTid
    split
    · exact keeps_modify fun p => rfl
    · exact .refl v
  have hv : held bond v = update (held bond k.table) k.table.nextPid
      (some (k.table.nextPid, none)) := by
    simp only [CloneRequest.newborn, hthread] at ho
    exact (hcard.map Prod.snd).held.trans (bond_born ho.born)
  refine ⟨((h.born ho.born).keeps (hcard.map Prod.fst)).keeps hset, ?_, ?_⟩
  · rw [hset.nextPid, hcard.nextPid, ho.born.nextPid]
    exact Nat.lt_succ_self _
  · rw [bond_setVforkParentTid ((congrFun hv _).trans (update_self _ _ _)), hv, update_idem]

/-- What any clone leaves: perhaps a new entry, of its own group or of its creator's and then
naming nobody. Nobody is woken. -/
structure CloneEffect (k l : KernelState) : Prop where
  filed : Filed l.table
  pids : k.table.nextPid ≤ l.table.nextPid
  bonds : held bond l.table = held bond k.table ∨ k.table.nextPid < l.table.nextPid ∧
    ∃ x, held bond l.table = update (held bond k.table) k.table.nextPid (some x) ∧
      (x.1 = k.table.nextPid ∨ x.2 = none ∧ ∃ j y, held bond k.table j = some y ∧ y.1 = x.1)
  asleep : ∀ tid, k.scheduler.isBlocked tid = true → l.scheduler.isBlocked tid = true

theorem CloneEffect.table (h : CloneEffect k l)
    (hcard : Keeps card l.table t) : CloneEffect k { l with table := t } where
  filed := h.filed.keeps (hcard.map Prod.fst)
  pids := hcard.nextPid ▸ h.pids
  bonds := by
    have hbond : held bond t = held bond l.table := (hcard.map Prod.snd).held
    rw [hbond, hcard.nextPid]
    exact h.bonds
  asleep := h.asleep

theorem CloneEffect.spawn (h : CloneEffect k l) (tid tgid : ℕ) :
    CloneEffect k { l with scheduler := l.scheduler.spawn tid tgid } :=
  ⟨h.filed, h.pids, h.bonds, h.asleep⟩

theorem cloneEffect_refl (h : Filed k.table) : CloneEffect k k :=
  ⟨h, le_rfl, .inl rfl, fun _ htid => htid⟩

theorem doClone_effect (h : Filed k.table) (hrun : doClone hal heap fuel r k = some out) :
    CloneEffect k out.2 := by
  rcases doClone_cases hrun with ⟨e, rfl⟩ | ⟨p, hp, -⟩
  · exact cloneEffect_refl h
  have hborn : ∀ {u M}, Offspring k.table u p (CloneRequest.newborn r p k.table.nextPid) M →
      CloneEffect k { k with table := u } := by
    intro u M ho
    have hpid : k.table.nextPid < u.nextPid := ho.born.nextPid ▸ Nat.lt_succ_self _
    refine ⟨h.born ho.born, hpid.le, .inr ⟨hpid, _, bond_born ho.born, ?_⟩, fun _ htid => htid⟩
    unfold CloneRequest.newborn
    split
    · exact .inr ⟨rfl, _, _, held_of_entry (current_ok hp), rfl⟩
    · exact .inl rfl
  cases doClone_cloning h hp hrun with
  | refused hrefused hn =>
    rcases hn with rfl | rfl
    · exact cloneEffect_refl h
    · exact ⟨h.takeId, Nat.le_succ _, .inl rfl, fun _ htid => htid⟩
  | failed hnot hbad ho => exact (hborn ho).table ⟨rfl, rfl, rfl⟩
  | made ho hkeeps => exact ((hborn ho).table (keeps_card hkeeps)).spawn _ _
  | waits ho hkeeps hthread hvfork =>
    obtain ⟨hfiled, hpid, hbond⟩ := bond_waits h ho hkeeps hthread
    exact ⟨hfiled, hpid.le, .inr ⟨hpid, _, hbond, .inl rfl⟩, fun _ htid => asleep_blockCurrent htid⟩

theorem sysClone3_effect {arch : TrapHandler.Arch} {addr size : ℕ} (h : Filed k.table)
    (hrun : sysClone3 hal heap fuel arch addr size k = some out) : CloneEffect k out.2 := by
  rcases sysClone3_cases hrun with ⟨e, rfl⟩ | ⟨p, raw, -, -, hrun⟩
  · exact cloneEffect_refl h
  · exact doClone_effect h hrun

theorem Open.cloned {parent child : ℕ} (h : Open parent child k)
    (hc : CloneEffect k l) : Open parent child l := by
  rcases hc.bonds with hbond | ⟨-, x, hbond, hx⟩
  · refine ⟨hc.filed, hc.asleep _ h.asleep, (congrFun hbond child).trans h.names, ?_⟩
    intro j x hx
    exact h.crew j x ((congrFun hbond j).symm.trans hx)
  refine ⟨hc.filed, hc.asleep _ h.asleep, ?_, ?_⟩
  · rw [hbond, update_of_ne h.below.ne]
    exact h.names
  · intro j y hy hchild
    rw [hbond, update_apply] at hy
    split at hy
    · obtain rfl := some.inj hy
      rcases hx with hnew | ⟨hnone, -⟩
      · exact absurd (hnew.symm.trans hchild) h.below.ne'
      · exact .inl hnone
    · exact h.crew j y hy hchild

end Clone

structure Ordered (t : Table) : Prop where
  filed : Filed t
  groups : ∀ j g, held Process.tgid t j = some g → g < t.nextPid

theorem held_tgid (t : Table) (j : ℕ) : held Process.tgid t j = (held bond t j).map Prod.fst := by
  simp only [held, Option.map_map]
  rfl

theorem Ordered.cloned {k : KernelState} (h : Ordered k.table) (hc : CloneEffect k l) :
    Ordered l.table := by
  refine ⟨hc.filed, fun j g hg => ?_⟩
  rw [held_tgid] at hg
  have hold : ∀ i, (held bond k.table i).map Prod.fst = some g → g < l.table.nextPid := by
    intro i hi
    rw [← held_tgid] at hi
    exact lt_of_lt_of_le (h.groups i g hi) hc.pids
  rcases hc.bonds with hbond | ⟨hpid, x, hbond, hx⟩
  · exact hold j (hbond ▸ hg)
  rw [hbond, update_apply] at hg
  split at hg
  · obtain rfl := some.inj hg
    rcases hx with hnew | ⟨-, i, y, hy, heq⟩
    · exact hnew ▸ hpid
    · exact hold i (by rw [hy, map_some, heq])
  · exact hold j hg

/-- The window opens: the caller, which runs, goes to sleep and the child names it. -/
theorem open_doClone {hal : HalMemory} {heap : Heap} {fuel : ℕ} {r : CloneRequest}
    {k : KernelState} {p : Process} {task : Task} {child : ℕ} (h : Ordered k.table)
    (hp : k.table.current = .ok p) (htask : k.scheduler.current = some task)
    (hid : task.id = k.table.currentTid) (hvfork : r.has cloneVfork = true)
    (hthread : r.has cloneThreadFlag = false)
    (hrun : doClone hal heap fuel r k = some (.ok child, l)) : Open k.table.currentTid child l := by
  have htid := h.filed.current hp
  cases doClone_cloning h.filed hp hrun with
  | made _ _ hcase => simp [hthread, hvfork] at hcase
  | waits ho hkeeps _ _ =>
    obtain ⟨hfiled, hpid, hbond⟩ := bond_waits h.filed ho hkeeps hthread
    refine ⟨hfiled, ?_, ?_, ?_⟩
    · rw [← hid]
      exact isBlocked_blockCurrent htask
    · rw [hbond, update_self, htid]
    · intro j x hx hchild
      rw [hbond, update_apply] at hx
      split at hx
      · obtain rfl := some.inj hx
        exact .inr (congrArg some htid)
      · have hold := h.groups j x.1 (by rw [held_tgid, hx, map_some])
        exact absurd hchild hold.ne

section Exec

variable {hal : HalMemory} {heaps : ExecHeaps} {k : KernelState} {p : Process}

def aloneWith (t : Table) (p : Process) (waits : Option ℕ) : ℕ → Option (ℕ × Option ℕ) :=
  update (fun j => (held bond t j).filter fun x => x.1 != p.tgid) t.currentTid
    (some (p.tgid, waits))

/-- What `execve` leaves. Only a loaded image releases the parent. -/
inductive Replaced (loaded : Prop) (p : Process) (k : KernelState) :
    KernelResult ℕ → KernelState → Prop where
  | refused {e} : Replaced loaded p k (.error e) k
  | reset {res t} : (loaded → ∃ e, res = .error e) → Filed t → t.nextPid = k.table.nextPid →
      held bond t = aloneWith k.table p p.vforkParentTid → Replaced loaded p k res ⟨t, k.scheduler⟩
  | released {n t} : Filed t → t.nextPid = k.table.nextPid →
      held bond t = aloneWith k.table p none →
      Replaced loaded p k (.ok n) (wakeVforkParent p.vforkParentTid ⟨t, k.scheduler⟩)

structure Alone (p : Process) (t u : Table) : Prop where
  filed : Filed u
  nextPid : u.nextPid = t.nextPid
  currentTid : u.currentTid = t.currentTid
  bonds : held bond u = aloneWith t p p.vforkParentTid

theorem alone_resetCaller (hal : HalMemory) (heaps : ExecHeaps) (entry : UInt64) (h : Filed t) (hp : t.current = .ok p) : Alone p t (resetCaller hal heaps entry t).2 := by
  have htid := h.current hp
  have hkin := execveCurrentImage_kin hal heaps.clone heaps.stack entry none hp htid
  have hcounters := execveCurrentImage_counters hal heaps.clone heaps.stack entry none t
  refine ⟨h.execveCurrentImage hal heaps.clone heaps.stack entry none,
    congrArg Prod.fst hcounters, congrArg Prod.snd hcounters, funext fun j => ?_⟩
  rw [held_bond]
  unfold resetCaller
  rw [hkin, aloneWith, update_apply, update_apply]
  split
  · rfl
  rw [held_bond]
  cases kin t j with
  | none => rfl
  | some q =>
    simp only [Option.filter, map_some]
    split <;> rfl

theorem Alone.table {v : Table} (h : Alone p t u) (hcard : Keeps card u v)
    (hcurrent : v.currentTid = u.currentTid) : Alone p t v where
  filed := h.filed.keeps (hcard.map Prod.fst)
  nextPid := hcard.nextPid.trans h.nextPid
  currentTid := hcurrent.trans h.currentTid
  bonds := (hcard.map Prod.snd).held.trans h.bonds

theorem aloneWith_current (t : Table) (p : Process) (waits : Option ℕ) :
    aloneWith t p waits t.currentTid = some (p.tgid, waits) := update_self _ _ _

theorem aloneWith_group {waits : Option ℕ} {j : ℕ} (h : aloneWith t p waits j = some x)
    (hx : x.1 = p.tgid) : j = t.currentTid ∧ x = (p.tgid, waits) := by
  unfold aloneWith at h
  rw [update_apply] at h
  split at h
  · next hj => exact ⟨hj, (some.inj h).symm⟩
  · have hne := (filter_eq_some_iff.mp h).2
    simp [hx] at hne

theorem findSome_const {α β : Type} {f : α → Option β} {v : Option β} {l : List α}
    (h : ∀ a ∈ l, f a = v) (hne : l ≠ []) : l.findSome? f = v := by
  rcases v with _ | b
  · exact findSome?_eq_none_iff.mpr h
  cases l with
  | nil => exact absurd rfl hne
  | cons a l => rw [findSome?_cons_of_isSome (by simp [h a]), h a mem_cons_self]

/-- The release finds whom the caller names and leaves it naming nobody. -/
theorem Alone.release (h : Alone p t u) :
    (u.releaseVforkParentForTgid p.tgid).1 = p.vforkParentTid ∧
      Filed (u.releaseVforkParentForTgid p.tgid).2 ∧
      (u.releaseVforkParentForTgid p.tgid).2.nextPid = t.nextPid ∧
      held bond (u.releaseVforkParentForTgid p.tgid).2 = aloneWith t p none := by
  have hcurrent : held bond u u.currentTid = some (p.tgid, p.vforkParentTid) := by
    rw [h.bonds, h.currentTid, aloneWith_current]
  obtain ⟨q, hq, hbond⟩ := map_eq_some_iff.mp hcurrent
  have hqgroup : q.tgid = p.tgid := congrArg Prod.fst hbond
  refine ⟨findSome_const ?_ ?_, ?_, h.nextPid, ?_⟩
  · intro e he
    obtain ⟨hvalue, hgroup⟩ := mem_filter.mp he
    obtain ⟨j, hj⟩ := mem_values.mp hvalue
    have hheld : aloneWith t p p.vforkParentTid j = some (bond e) := by
      rw [← h.bonds]
      exact held_of_entry hj
    exact congrArg Prod.snd (aloneWith_group hheld (beq_iff_eq.mp hgroup)).2
  · intro hnil
    have hmem : q ∈ u.values.filter fun e => e.tgid == p.tgid :=
      mem_filter.mpr ⟨mem_values.mpr ⟨_, hq⟩, by simpa using hqgroup⟩
    rw [hnil] at hmem
    cases hmem
  · exact h.filed.keeps (keeps_modifyGroup fun p => rfl)
  · funext j
    have hmap : held bond (u.modifyGroup p.tgid fun e => { e with vforkParentTid := none }) j =
        (held bond u j).map fun x => if x.1 = p.tgid then (x.1, none) else x := by
      simp only [held, modifyGroup_get, Option.map_map]
      congr 1
      funext e
      by_cases he : e.tgid = p.tgid <;> simp [bond, he]
    refine hmap.trans ?_
    rw [h.bonds, aloneWith, aloneWith, update_apply, update_apply]
    split
    · simp
    cases hx : (held bond t j).filter fun x => x.1 != p.tgid with
    | none => rfl
    | some x =>
      have hne : ¬ x.1 = p.tgid := by simpa using (filter_eq_some_iff.mp hx).2
      simp [hne]

theorem placing_replaced {image : TrapReturn.ExecImage} (h : Filed k.table)
    (hp : k.table.current = .ok p) (hplace : Placing hal heaps k image out) :
    Replaced (∃ req, image = .elf req) p k out.1 out.2 := by
  have halone : ∀ {entry t}, (resetCaller hal heaps entry k.table).2 = t → Alone p k.table t :=
    fun ht => ht ▸ alone_resetCaller hal heaps _ h hp
  have hframed : ∀ {entry t} q M start sp, (resetCaller hal heaps entry k.table).2 = t →
      Alone p k.table ((t.putMachine q M).modify t.currentTid (setFrame start sp)) :=
    fun _ _ _ _ ht => ((halone ht).table (keeps_putMachine _ _ _) rfl).table
      (keeps_modify fun _ => rfl) rfl
  have hfailed : ∀ {e : ℕ} {t : Table}, Alone p k.table t →
      Replaced (∃ req, image = .elf req) p k (.error e) ⟨t, k.scheduler⟩ :=
    fun ht => .reset (fun _ => ⟨_, rfl⟩) ht.filed ht.nextPid ht.bonds
  cases hplace with
  | reset ht => exact hfailed (halone ht)
  | wrote ht _ => exact hfailed ((halone ht).table (keeps_putMachine _ _ _) rfl)
  | builtin himage ht _ =>
    refine .reset ?_ (hframed _ _ _ _ ht).filed (hframed _ _ _ _ ht).nextPid (hframed _ _ _ _ ht).bonds
    rintro ⟨req, helf⟩
    rw [himage] at helf
    cases helf
  | @elf _ start sp t q M _ _ _ ht hq hu hv =>
    have hgroup : q.tgid = p.tgid := by
      have hbond : held bond t t.currentTid = some (bond q) := held_of_entry (current_ok hq)
      rw [(halone ht).bonds, (halone ht).currentTid, aloneWith_current] at hbond
      exact (congrArg Prod.fst (some.inj hbond)).symm
    obtain ⟨hparent, hfiled, hpid, hbonds⟩ := (hframed q M start sp ht).release
    rw [← hu, ← hgroup, hv] at hparent hfiled hpid hbonds
    obtain rfl : _ = p.vforkParentTid := hparent
    exact .released hfiled hpid hbonds

def Loads (heaps : ExecHeaps) (files : ExecFiles) (args : ExecArgs) : Prop :=
  ∃ req, resolveImage files heaps args = some (.ok (.elf req))

theorem sysExecve_replaced {files : ExecFiles} {args : ExecArgs} (h : Filed k.table)
    (hp : k.table.current = .ok p) (hrun : sysExecve hal heaps files args k = some out) :
    Replaced (Loads heaps files args) p k out.1 out.2 := by
  rcases sysExecve_cases hrun with ⟨e, rfl⟩ | ⟨q, image, hq, hres, hplace⟩
  · exact .refused
  have hloads : Loads heaps files args ↔ ∃ req, image = .elf req := by simp [Loads, hres]
  rw [hloads]
  exact placing_replaced h hp (placeImage_placing hplace)

variable {loaded : Prop} {res : KernelResult ℕ} {l : KernelState}

theorem aloneWith_other {waits : Option ℕ} {j : ℕ} (h : aloneWith t p waits j = some x)
    (hx : x.1 ≠ p.tgid) : held bond t j = some x := by
  unfold aloneWith at h
  rw [update_apply] at h
  split at h
  · exact absurd (congrArg Prod.fst (some.inj h)).symm hx
  · exact (filter_eq_some_iff.mp h).1

theorem Ordered.replaced (h : Ordered k.table) (hp : k.table.current = .ok p)
    (hr : Replaced loaded p k res l) : Ordered l.table := by
  have hgroup : p.tgid < k.table.nextPid := h.groups _ _ (held_of_entry (current_ok hp))
  have halone : ∀ {t : Table} {waits : Option ℕ}, Filed t → t.nextPid = k.table.nextPid →
      held bond t = aloneWith k.table p waits → Ordered t := by
    intro t waits hfiled hpid hbonds
    refine ⟨hfiled, fun j g hg => ?_⟩
    rw [held_tgid, hbonds] at hg
    obtain ⟨x, hx, rfl⟩ := map_eq_some_iff.mp hg
    rw [hpid]
    by_cases hown : x.1 = p.tgid
    · rwa [hown]
    · exact h.groups j x.1 (by rw [held_tgid, aloneWith_other hx hown, map_some])
  cases hr with
  | refused => exact h
  | reset _ hfiled hpid hbonds => exact halone hfiled hpid hbonds
  | released hfiled hpid hbonds =>
    cases p.vforkParentTid with
    | none | some tid => exact halone hfiled hpid hbonds

variable {parent child : ℕ}

/-- The child's own thread names the parent. -/
theorem Open.caller (h : Open parent child k) (hp : k.table.current = .ok p)
    (hchild : p.tid = child) : bond p = (child, some parent) := by
  have htid := h.filed.current hp
  have hheld : held bond k.table child = some (bond p) := by
    rw [← hchild, htid]
    exact held_of_entry (current_ok hp)
  exact some.inj (hheld.symm.trans h.names)

/-- The window stays open while another group replaces its image, and while the child fails to. -/
theorem Open.replaced (h : Open parent child k) (hp : k.table.current = .ok p)
    (hself : p.tgid = child → p.tid = child ∧ ∃ e, res = .error e)
    (hother : p.tgid ≠ child → p.vforkParentTid ≠ some parent)
    (hr : Replaced loaded p k res l) : Open parent child l := by
  have htid := h.filed.current hp
  -- the child's entry is the caller's or that of another group
  have halone : ∀ {t : Table} {waits : Option ℕ}, Filed t →
      held bond t = aloneWith k.table p waits → (p.tgid = child → waits = p.vforkParentTid) →
      Open parent child ⟨t, k.scheduler⟩ := by
    intro t waits hfiled hbonds hwaits
    refine ⟨hfiled, h.asleep, ?_, fun j x hx hchild => ?_⟩
    · by_cases hown : p.tgid = child
      · have hcaller := h.caller hp (hself hown).1
        have hcur : child = k.table.currentTid := (hself hown).1.symm.trans htid
        rw [hbonds, hcur, aloneWith_current, hwaits hown, ← hcur]
        exact congrArg some hcaller
      · have hne : child ≠ k.table.currentTid := by
          intro heq
          exact hown (congrArg Prod.fst (h.caller hp (htid.trans heq.symm)))
        have hkeep : (child != p.tgid) = true := by simpa using Ne.symm hown
        rw [hbonds, aloneWith, update_of_ne hne, h.names]
        simp [hkeep]
    · rw [hbonds] at hx
      by_cases hown : x.1 = p.tgid
      · obtain ⟨-, rfl⟩ := aloneWith_group hx hown
        have hwaits := hwaits hchild
        refine hwaits ▸ h.crew _ (bond p) (held_of_entry (current_ok hp)) hchild
      · exact h.crew j x (aloneWith_other hx hown) hchild
  cases hr with
  | refused => exact h
  | reset _ hfiled hpid hbonds => exact halone hfiled hbonds fun _ => rfl
  | released hfiled hpid hbonds =>
    have hne : p.tgid ≠ child := by
      intro hown
      obtain ⟨-, e, he⟩ := hself hown
      cases he
    have hopen := halone hfiled hbonds fun hown => absurd hown hne
    have hawake := hother hne
    rcases hparent : p.vforkParentTid with _ | tid
    · exact hopen
    rw [hparent] at hawake
    exact hopen.scheduler (asleep_wakeTask h.asleep fun heq => hawake (heq ▸ rfl))

structure Released (parent child : ℕ) (k l : KernelState) : Prop where
  cleared : ∀ (j : ℕ) (q : Process), l.table.processes[j]? = some q → q.tgid = child → q.vforkParentTid = none
  awake : l.scheduler.isBlocked parent = false
  ready : ∃ task, k.scheduler.blocked[parent]? = some task ∧
    { task with state := .ready } ∈ l.scheduler.ready

theorem Open.released {n : ℕ} (h : Open parent child k) (hp : k.table.current = .ok p)
    (hchild : p.tid = child) (hloaded : loaded) (hr : Replaced loaded p k (.ok n) l) :
    Released parent child k l := by
  have hbond := h.caller hp hchild
  have hgroup : p.tgid = child := congrArg Prod.fst hbond
  have hparent : p.vforkParentTid = some parent := congrArg Prod.snd hbond
  cases hr with
  | reset hfails =>
    obtain ⟨e, he⟩ := hfails hloaded
    cases he
  | released hfiled hpid hbonds =>
    rw [hparent]
    obtain ⟨hawake, hready⟩ := wakeTask_ready h.asleep
    refine ⟨fun j q hq hqchild => ?_, hawake, hready⟩
    have hheld : aloneWith k.table p none j = some (bond q) := by
      rw [← hbonds]
      exact held_of_entry hq
    exact congrArg Prod.snd (aloneWith_group hheld (hqchild.trans hgroup.symm)).2

end Exec

/-- The exit of `p` concerns neither the child's group nor the sleeping parent: it does not take
the parent's task away, does not tell the parent's group and finds it in no futex queue. -/
structure Spares (parent child : ℕ) (p : Process) (k : KernelState) : Prop where
  group : p.tgid ≠ child
  tid : p.tid ≠ parent
  task : ∀ task, k.scheduler.blocked[parent]? = some task → task.processId ≠ p.tgid
  told : ∀ (j : ℕ) (q : Process), k.table.processes[j]? = some q → p.parent = some q.tgid →
    q.tid ≠ parent
  futex : ∀ a, parent ∉ queue k.table a

section Exits

variable {parent : ℕ}

structure Idle (parent : ℕ) (k : KernelState) : Prop where
  asleep : k.scheduler.isBlocked parent = true
  futex : ∀ a, parent ∉ queue k.table a

theorem Idle.wakeWaiters {k : KernelState} (h : Idle parent k) (count addr : ℕ) :
    Idle parent (ProcessCalls.wakeWaiters count addr k) := by
  obtain ⟨hwoken, hqueue⟩ := wakeFutex_queue addr count k.table
  have hnot : parent ∉ (k.table.wakeFutex addr count).1 := by
    rw [hwoken]
    exact fun hmem => h.futex addr (mem_of_mem_take hmem)
  refine ⟨asleep_wakeTasks h.asleep hnot, fun a hmem => ?_⟩
  have hmem : parent ∈ queue (k.table.wakeFutex addr count).2 a := hmem
  rw [hqueue, update_apply] at hmem
  split at hmem
  · exact h.futex addr (mem_of_mem_drop hmem)
  · exact h.futex a hmem

theorem Idle.wakeEach {k : KernelState} (h : Idle parent k) (count : ℕ) (addrs : List ℕ) :
    Idle parent (addrs.foldl (fun k addr => ProcessCalls.wakeWaiters count addr k) k) := by
  induction addrs generalizing k with
  | nil => exact h
  | cons addr addrs ih => exact ih (h.wakeWaiters count addr)

theorem Idle.tellParent {k : KernelState} (h : Idle parent k) {told : Option ℕ}
    (hother : ∀ (j : ℕ) (q : Process), k.table.processes[j]? = some q → told = some q.tgid →
      q.tid ≠ parent) : Idle parent (ProcessCalls.tellParent told k) := by
  refine ⟨?_, fun a => queue_tellParent told k ▸ h.futex a⟩
  rcases told with _ | tgid
  · exact h.asleep
  refine asleep_wakeTasks h.asleep fun hmem => ?_
  -- the signal changes nobody's tid or group
  have hkeeps : Keeps (fun p => (p.tid, p.tgid)) k.table (k.table.sendSignalTid tgid sigchld).2 :=
    keeps_sendSignalTid ⟨fun _ _ => rfl, fun _ _ => rfl, fun _ _ => rfl⟩ tgid sigchld k.table
  obtain ⟨q, hq, hparent⟩ := List.mem_map.mp hmem
  obtain ⟨hvalue, hgroup⟩ := mem_filter.mp hq
  obtain ⟨j, hj⟩ := mem_values.mp hvalue
  have hheld := congrFun hkeeps.held j
  rw [held_of_entry hj] at hheld
  obtain ⟨e, he, hsame⟩ := map_eq_some_iff.mp hheld.symm
  obtain ⟨htid, htgid⟩ := Prod.mk.inj hsame
  have hqgroup : q.tgid = tgid := by
    simp only [Bool.and_eq_true, beq_iff_eq] at hgroup
    exact hgroup.1
  exact hother j e he (by rw [htgid, hqgroup]) (htid.trans hparent)

theorem asleep_dropTasks {x : ThreadExit} (h : s.isBlocked parent = true) (htid : x.tid ≠ parent)
    (htask : ∀ task, s.blocked[parent]? = some task → task.processId ≠ x.tgid) :
    (dropTasks x s).isBlocked parent = true := by
  have hremove := removeTask_other (s := s) (Ne.symm htid)
  have hasleep : (s.removeTask x.tid).isBlocked parent = true := by
    unfold isBlocked at h ⊢
    rwa [contains_eq_isSome_getElem?, hremove, ← contains_eq_isSome_getElem?]
  unfold dropTasks
  split
  · exact asleep_exitGroup hasleep fun task ht => htask task (hremove ▸ ht)
  · exact hasleep

variable {child : ℕ} {k : KernelState} {p : Process}

theorem exitRecord_spec (hal : HalMemory) (heap : Heap) (code : Int32) (group : Bool) (hp : t.current = .ok p) : ∃ x u, exitRecord hal heap code group t = (.ok x, u) ∧
      x.parentTgid = p.parent ∧ x.tid = p.tid ∧ x.tgid = p.tgid ∧
      Keeps (fun p => (p.tid, p.tgid)) t u := by
  have hsteady : Steady (fun p : Process => (p.tid, p.tgid)) :=
    ⟨fun _ _ => rfl, fun _ _ => rfl, fun _ _ => rfl⟩
  cases group with
  | false =>
    have hkeeps := keeps_exitCurrentThread hal heap code hsteady t
    simp only [exitRecord, Bool.false_eq_true, if_false, exitCurrentThread, hp] at hkeeps ⊢
    exact ⟨_, _, rfl, rfl, rfl, rfl, hkeeps⟩
  | true =>
    have hkeeps := keeps_exitCurrentProcessGroup hal heap code hsteady t
    simp only [exitRecord, if_true, exitCurrentProcessGroup, hp] at hkeeps ⊢
    exact ⟨_, _, rfl, rfl, rfl, rfl, hkeeps⟩

section

variable (hs : Spares parent child p k) (hp : k.table.current = .ok p)
include hs hp

/-- The exit of `p` is recorded, its tasks are gone and its parent is told. -/
theorem Spares.recorded (hal : HalMemory) (heap : Heap) (code : Int32) (group : Bool) :
    ∃ x t, exitRecord hal heap code group k.table = (.ok x, t) ∧ x.tid = p.tid ∧ x.tgid = p.tgid ∧
      ∀ s : Scheduler, s.isBlocked parent = true →
        Idle parent (ProcessCalls.tellParent x.parentTgid ⟨t, s⟩) := by
  obtain ⟨x, t, hexit, hparent, htid, hgroup, hkeeps⟩ := exitRecord_spec hal heap code group hp
  refine ⟨x, t, hexit, htid, hgroup, fun s hasleep => ?_⟩
  refine Idle.tellParent ⟨hasleep, fun a hmem => ?_⟩ fun j q hq htold => ?_
  · rw [(queue_exitRecord hal heap code group hp hexit a).2] at hmem
    exact hs.futex a (mem_of_mem_filter hmem)
  · have hheld := congrFun hkeeps.held j
    rw [held_of_entry hq] at hheld
    obtain ⟨e, he, hsame⟩ := map_eq_some_iff.mp hheld.symm
    obtain ⟨htid, htgid⟩ := Prod.mk.inj hsame
    rw [← htid]
    exact hs.told j e he (by rw [← hparent, htold, htgid])

theorem Spares.sysExit (hasleep : k.scheduler.isBlocked parent = true) (hal : HalMemory) (heap : Heap)
    (exitGroup : Bool) (code : Int32) :
    (ProcessCalls.sysExit hal heap exitGroup code k).2.scheduler.isBlocked parent = true := by
  obtain ⟨x, t, hexit, htid, hgroup, hidle⟩ := hs.recorded hp hal heap code exitGroup
  cases exitGroup with
  | true =>
    simp only [exitRecord, if_true] at hexit
    simp only [ProcessCalls.sysExit, if_true, sysExitGroup, hexit, hgroup]
    exact (hidle _ (asleep_exitGroup hasleep hs.task)).asleep
  | false =>
    simp only [exitRecord, Bool.false_eq_true, if_false] at hexit
    simp only [ProcessCalls.sysExit, Bool.false_eq_true, if_false, sysExitThread, hexit]
    have hgone := asleep_dropTasks hasleep (htid ▸ hs.tid) (hgroup ▸ hs.task)
    exact ((hidle _ hgone).wakeEach _ _).asleep

theorem Spares.forcedThreadExit (hasleep : k.scheduler.isBlocked parent = true) (hal : HalMemory) (heap : Heap) :
    (ProcessCalls.forcedThreadExit hal heap k).scheduler.isBlocked parent = true := by
  obtain ⟨x, t, hexit, htid, hgroup, hidle⟩ := hs.recorded hp hal heap 7 false
  simp only [exitRecord, Bool.false_eq_true, if_false] at hexit
  simp only [ProcessCalls.forcedThreadExit, hexit]
  have hgone := asleep_dropTasks hasleep (htid ▸ hs.tid) (hgroup ▸ hs.task)
  exact (((hidle _ hgone).wakeEach _ _).wakeEach _ _).asleep

end

end Exits

/-- No change of an entry touches its filing, its group or whom it names. -/
def Plain : Event → Prop
  | .touch _ f _ => ∀ p, card (f p) = card p
  | _ => True

section Runs

variable (hal : HalMemory) (heap : Heap) (entry : UInt64)

inductive Reached : KernelState → Prop where
  | boot : Reached (boot hal heap entry)
  | step {k l} (e : Event) : Reached k → Plain e → e.step hal k = some l → Reached l

/-- The event wakes neither the parent nor everybody, its exit spares the parent, and its `execve`
is that of another group, which waits for another parent. -/
def Undisturbed (parent child : ℕ) (k : KernelState) : Event → Prop
  | .call c => ∀ l p, enter k = some l → l.table.current = .ok p →
    match c with
    | .clone _ _ _ => True
    | .clone3 _ _ _ _ _ => True
    | .execve _ _ _ => p.tgid ≠ child ∧ p.vforkParentTid ≠ some parent
    | .exit _ _ _ => Spares parent child p l
  | .signalExit _ _ => False
  | .forcedThreadExit _ => ∀ p, k.table.current = .ok p → Spares parent child p k
  | .faultExit _ => False
  | .watchdogKill _ _ => False
  | .touch _ f _ => ∀ p, card (f p) = card p
  | .wake tids => parent ∉ tids
  | .wakeAllBlocked => False
  | .setCurrent _ => True
  | .yieldNow => True
  | .blockCurrent => True
  | .ensureCurrent => True

/-- From the return of a `vfork` of the running task to the child's first successful `execve`. -/
inductive Window (parent child : ℕ) : KernelState → Prop where
  | opened {k l m} {task : Task} {heap' : Heap} {fuel : ℕ} {r : CloneRequest} :
      Reached hal heap entry k → k.scheduler.current = some task →
      k.table.processes.contains task.id = true → task.id = parent → enter k = some l →
      r.has cloneVfork = true → r.has cloneThreadFlag = false →
      doClone hal heap' fuel r l = some (.ok child, m) → Window parent child m
  | step {k l} (e : Event) : Window parent child k → Undisturbed parent child k e →
      e.step hal k = some l → Window parent child l
  | failed {k l m} {p : Process} {heaps : ExecHeaps} {files : ExecFiles} {args : ExecArgs} {e : ℕ} :
      Window parent child k → enter k = some l → l.table.current = .ok p → p.tid = child →
      sysExecve hal heaps files args l = some (.error e, m) → Window parent child m

variable {hal heap entry} {k l : KernelState}

theorem enter_keeps {β : Type} {view : Process → β} (h : enter k = some l) :
    Keeps view k.table l.table := by
  obtain ⟨task, -, rfl⟩ := map_eq_some_iff.mp h
  exact keeps_setCurrent task.id k.table

theorem enter_scheduler (h : enter k = some l) : l.scheduler = k.scheduler := by
  obtain ⟨task, -, rfl⟩ := map_eq_some_iff.mp h
  rfl

theorem Ordered.keeps (h : Ordered t) (hcard : Keeps card t u) : Ordered u := by
  refine ⟨h.filed.keeps (hcard.map Prod.fst), fun j g hg => ?_⟩
  have htgid : held Process.tgid u = held Process.tgid t := (hcard.map fun x => x.2.1).held
  rw [hcard.nextPid]
  exact h.groups j g (htgid ▸ hg)

theorem Ordered.call (c : Call) (h : Ordered k.table) (hrun : c.run hal k = some l) :
    Ordered l.table := by
  cases c with
  | clone heap fuel r =>
    obtain ⟨out, hout, rfl⟩ := map_eq_some_iff.mp hrun
    exact h.cloned (doClone_effect h.filed hout)
  | clone3 heap fuel arch addr size =>
    obtain ⟨out, hout, rfl⟩ := map_eq_some_iff.mp hrun
    exact h.cloned (sysClone3_effect h.filed hout)
  | execve heaps files args =>
    obtain ⟨out, hout, rfl⟩ := map_eq_some_iff.mp hrun
    rcases sysExecve_cases hout with ⟨e, rfl⟩ | ⟨p, image, hp, -⟩
    · exact h
    · exact h.replaced hp (sysExecve_replaced h.filed hp hout)
  | exit heap exitGroup code =>
    exact some.inj hrun ▸ h.keeps (keeps_sysExit hal heap steady_card exitGroup code k)

theorem Ordered.event (e : Event) (h : Ordered k.table) (hplain : Plain e)
    (hstep : e.step hal k = some l) : Ordered l.table := by
  cases e with
  | call c =>
    obtain ⟨m, hm, hrun⟩ := bind_eq_some_iff.mp hstep
    exact (h.keeps (enter_keeps hm)).call c hrun
  | signalExit heap signum =>
    exact some.inj hstep ▸ h.keeps (keeps_signalExit hal heap steady_card signum k)
  | forcedThreadExit heap =>
    exact some.inj hstep ▸ h.keeps (keeps_forcedThreadExit hal heap steady_card k)
  | faultExit heap => exact some.inj hstep ▸ h.keeps (keeps_faultExit hal heap steady_card k)
  | watchdogKill heap tgids =>
    exact some.inj hstep ▸ h.keeps (keeps_watchdogKill hal heap steady_card tgids k)
  | touch tid f hf => exact some.inj hstep ▸ h.keeps (keeps_modify hplain)
  | setCurrent tid => exact some.inj hstep ▸ h.keeps (keeps_setCurrent tid k.table)
  | yieldNow | blockCurrent | ensureCurrent | wake | wakeAllBlocked =>
    exact some.inj hstep ▸ h

theorem ordered_boot (hal : HalMemory) (heap : Heap) (entry : UInt64) :
    Ordered (boot hal heap entry).table := by
  refine ⟨filed_boot hal heap entry, fun j g hg => ?_⟩
  have hheld : held Process.tgid (boot hal heap entry).table =
    update (held Process.tgid (emptyTable hal)) 1 (some 1) := held_insert
  rw [hheld, update_apply] at hg
  split at hg
  · exact some.inj hg ▸ (by decide : 1 < 2)
  · simp [held, emptyTable] at hg

theorem Reached.ordered (h : Reached hal heap entry k) : Ordered k.table := by
  induction h with
  | boot => exact ordered_boot hal heap entry
  | step e _ hplain hstep ih => exact ih.event e hplain hstep

variable {parent child : ℕ}

theorem Open.enter (h : Open parent child k) (he : enter k = some l) : Open parent child l := by
  have hopen := (h.table (enter_keeps he)).scheduler h.asleep
  rw [← enter_scheduler he] at hopen
  exact hopen

theorem Open.event (e : Event) (h : Open parent child k) (hcalm : Undisturbed parent child k e)
    (hstep : e.step hal k = some l) : Open parent child l := by
  cases e with
  | call c =>
    obtain ⟨m, hm, hrun⟩ := bind_eq_some_iff.mp hstep
    have hin := h.enter hm
    have hcalm := hcalm m
    cases c with
    | clone heap fuel r =>
      obtain ⟨out, hout, rfl⟩ := map_eq_some_iff.mp hrun
      exact hin.cloned (doClone_effect hin.filed hout)
    | clone3 heap fuel arch addr size =>
      obtain ⟨out, hout, rfl⟩ := map_eq_some_iff.mp hrun
      exact hin.cloned (sysClone3_effect hin.filed hout)
    | execve heaps files args =>
      obtain ⟨out, hout, rfl⟩ := map_eq_some_iff.mp hrun
      rcases sysExecve_cases hout with ⟨e, rfl⟩ | ⟨p, image, hp, -⟩
      · exact hin
      · obtain ⟨hgroup, hnames⟩ := hcalm p hm hp
        exact hin.replaced hp (fun heq => absurd heq hgroup) (fun _ => hnames)
          (sysExecve_replaced hin.filed hp hout)
    | exit heap exitGroup code =>
      obtain rfl := some.inj hrun
      have htable := hin.table (keeps_sysExit hal heap steady_card exitGroup code m)
      cases hp : m.table.current with
      | error e =>
        have hsame : (sysExit hal heap exitGroup code m).2.scheduler = m.scheduler := by
          cases exitGroup <;> simp [sysExit, sysExitGroup, sysExitThread,
            Table.exitCurrentProcessGroup, Table.exitCurrentThread, hp]
        exact htable.scheduler (hsame ▸ hin.asleep)
      | ok p =>
        exact htable.scheduler ((hcalm p hm hp).sysExit hp hin.asleep hal heap exitGroup code)
  | forcedThreadExit heap =>
    obtain rfl := some.inj hstep
    have htable := h.table (keeps_forcedThreadExit hal heap steady_card k)
    cases hp : k.table.current with
    | error e =>
      have hsame : (forcedThreadExit hal heap k).scheduler = k.scheduler := by
        simp [forcedThreadExit, Table.exitCurrentThread, hp]
      have hopen := htable.scheduler h.asleep
      rw [← hsame] at hopen
      exact hopen
    | ok p => exact htable.scheduler ((hcalm p hp).forcedThreadExit hp h.asleep hal heap)
  | signalExit | faultExit | watchdogKill | wakeAllBlocked => exact hcalm.elim
  | touch tid f hf => exact some.inj hstep ▸ h.table (keeps_modify hcalm)
  | setCurrent tid => exact some.inj hstep ▸ h.table (keeps_setCurrent tid k.table)
  | yieldNow =>
    refine some.inj hstep ▸ h.scheduler ?_
    have hasleep := h.asleep
    unfold isBlocked at hasleep ⊢
    rwa [yieldNow_blocked]
  | blockCurrent => exact some.inj hstep ▸ h.scheduler (asleep_blockCurrent h.asleep)
  | ensureCurrent => exact some.inj hstep ▸ h.scheduler (asleep_ensureCurrent h.asleep)
  | wake tids => exact some.inj hstep ▸ h.scheduler (asleep_wakeTasks h.asleep hcalm)

theorem Window.stays_open (h : Window hal heap entry parent child k) : Open parent child k := by
  induction h with
  | @opened k l m task heap' fuel r hreached htask hcontains hid henter hvfork hthread hrun =>
    have henter' := henter
    obtain ⟨task', htask', rfl⟩ := map_eq_some_iff.mp henter'
    obtain rfl := some.inj (htask.symm.trans htask')
    have hcurrent : (k.table.setCurrent task.id).2.currentTid = task.id := by
      simp [Table.setCurrent, hcontains]
    have hordered := hreached.ordered.keeps (enter_keeps henter)
    rw [contains_eq_isSome_getElem?, isSome_iff_exists] at hcontains
    obtain ⟨p, hp⟩ := hcontains
    have hok : (k.table.setCurrent task.id).2.current = .ok p := by
      have hprocesses : (k.table.setCurrent task.id).2.processes = k.table.processes := by
        unfold Table.setCurrent
        split <;> rfl
      simp [Table.current, hcurrent, hprocesses, hp]
    have hopen := open_doClone hordered hok htask hcurrent.symm hvfork hthread hrun
    rw [hcurrent, hid] at hopen
    exact hopen
  | step e _ hcalm hstep ih => exact ih.event e hcalm hstep
  | failed _ henter hp hchild hrun ih =>
    have hin := ih.enter henter
    refine hin.replaced hp (fun _ => ⟨hchild, _, rfl⟩) (fun hne => ?_)
      (sysExecve_replaced hin.filed hp hrun)
    exact absurd (congrArg Prod.fst (hin.caller hp hchild)) hne

/-- While the window is open the parent sleeps, and the child's first successful `execve` of a
loaded image clears its bond and makes the parent ready. -/
theorem vfork_order (h : Window hal heap entry parent child k) :
    k.scheduler.isBlocked parent = true ∧
      ∀ (heaps : ExecHeaps) (files : ExecFiles) (args : ExecArgs) (l m : KernelState)
        (p : Process) (n : ℕ), enter k = some l → l.table.current = .ok p → p.tid = child →
        Loads heaps files args → sysExecve hal heaps files args l = some (.ok n, m) →
        Released parent child k m := by
  have hopen := h.stays_open
  refine ⟨hopen.asleep, fun heaps files args l m p n henter hp hchild hloads hrun => ?_⟩
  have hin := hopen.enter henter
  obtain ⟨hcleared, hawake, hready⟩ := hin.released hp hchild hloads
    (sysExecve_replaced hin.filed hp hrun)
  rw [enter_scheduler henter] at hready
  exact ⟨hcleared, hawake, hready⟩

end Runs

def vforkRequest : CloneRequest := ⟨cloneVm ||| cloneVfork, 0, 0, 0, none⟩

def vfork : Event := .call (.clone noHeap 0 vforkRequest)

def standing (k : KernelState) : Bool × Option ℕ :=
  (k.scheduler.isBlocked 1, k.table.processes[2]?.bind Process.vforkParentTid)

theorem vfork_order_parent_sleeps : ∃ k, runEvents board small [vfork, .ensureCurrent] = some k ∧
      k.scheduler.isBlocked 1 = true := by
  have hclone : ((enter small).bind (doClone board noHeap 0 vforkRequest)).map
      (fun out => out.1.toOption) = some (some 2) := by decide +kernel
  obtain ⟨⟨res, m⟩, hout, hres⟩ := map_eq_some_iff.mp hclone
  obtain ⟨l, hl, hrun⟩ := bind_eq_some_iff.mp hout
  rcases res with e | pid
  · cases hres
  obtain rfl : pid = 2 := some.inj hres
  have htask : small.scheduler.current = some ⟨1, 1, .running⟩ := rfl
  have hwindow : Window board noHeap 0 1 2 m :=
    .opened .boot htask (by decide +kernel) rfl hl (by decide) (by decide) hrun
  refine ⟨{ m with scheduler := m.scheduler.ensureCurrent }, ?_,
    (vfork_order (hwindow.step .ensureCurrent trivial rfl)).1⟩
  simp [runEvents, vfork, Event.step, Call.run, hl, hrun]

def childExits : Event := .call (.exit noHeap true 0)

/-- A call that wakes everybody wakes the parent; a built-in program leaves it asleep and named; an
exit leaves it named. -/
theorem vfork_window_ends_badly : (runEvents board small [vfork, .ensureCurrent]).map standing =
      some (true, some 1) ∧
    (runEvents board small [vfork, .ensureCurrent, .wakeAllBlocked]).map standing =
      some (false, some 1) ∧
    ((runEvents board small [vfork, .ensureCurrent]).bind fun k => (enter k).bind
      (sysExecve board programHeaps programFiles ⟨.ok "/a", .ok [], .ok []⟩)).map
      (fun out => (out.1.toOption, standing out.2)) = some (some 0, true, some 1) ∧
    (runEvents board small [vfork, .ensureCurrent, childExits]).map standing =
      some (false, some 1) := by
  decide +kernel

end VforkOrder
