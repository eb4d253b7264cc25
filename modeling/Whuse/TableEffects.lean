import Whuse.ProcessTable

/-! What each operation of the process table does to its entries. Most results look only at an
entry's place among the others: its group, its parent, whether it is alive and what it waits
for. That part of the table is a function from tids, and each operation acts on it by an
equation. -/
namespace TableEffects

open Std (ExtTreeMap)
open AddressSpace TrapHandler ProcessTable Function ProcessTable.Table List Option

structure Kin where
  tid : ℕ
  tgid : ℕ
  parent : Option ℕ
  state : ProcessState
  exitCode : Option Int32
  isThread : Bool
  futexWaitAddr : Option ℕ
  vforkParentTid : Option ℕ

def kinOf (p : Process) : Kin where
  tid := p.tid
  tgid := p.tgid
  parent := p.parent
  state := p.state
  exitCode := p.exitCode
  isThread := p.isThread
  futexWaitAddr := p.futexWaitAddr
  vforkParentTid := p.vforkParentTid

def Kin.Live (q : Kin) : Prop := q.state ≠ .exited

instance (q : Kin) : Decidable q.Live := inferInstanceAs (Decidable (¬ _))

def Kin.ended (code : Int32) (q : Kin) : Kin := { q with state := .exited, exitCode := some code }

def Kin.inGroup (tgid : ℕ) (f : Kin → Kin) (q : Kin) : Kin := if q.tgid = tgid then f q else q

def kin (t : Table) (k : ℕ) : Option Kin := t.processes[k]?.map kinOf

variable {p : Process} {f : Process → Process} {t u : Table} {g k : ℕ}

theorem kin_eq_some {q : Kin} : kin t k = some q ↔ ∃ p, t.processes[k]? = some p ∧ kinOf p = q := by
  simp [kin]

theorem kin_of_entry (h : t.processes[k]? = some p) :
    kin t k = some (kinOf p) := kin_eq_some.mpr ⟨p, h, rfl⟩

theorem mem_values : p ∈ t.values ↔ ∃ k : ℕ, t.processes[k]? = some p := by
  simp only [values, List.mem_map, Prod.exists, ExtTreeMap.mem_toList_iff_getElem?_eq_some]
  constructor
  · rintro ⟨k, _, h, rfl⟩
    exact ⟨k, h⟩
  · rintro ⟨k, h⟩
    exact ⟨k, p, h, rfl⟩

theorem mem_groupTids : k ∈ t.groupTids g ↔ ∃ q, kin t k = some q ∧ q.tgid = g := by
  simp only [groupTids, List.mem_map, mem_filter, Prod.exists,
    ExtTreeMap.mem_toList_iff_getElem?_eq_some, beq_iff_eq, kin_eq_some]
  constructor
  · rintro ⟨k, p, ⟨h, hg⟩, rfl⟩
    exact ⟨kinOf p, ⟨p, h, rfl⟩, hg⟩
  · rintro ⟨_, ⟨p, h, rfl⟩, hg⟩
    exact ⟨k, p, ⟨h, hg⟩, rfl⟩

theorem find_some {keep : Process → Bool} (h : t.find keep = some p) :
    (∃ k : ℕ, t.processes[k]? = some p) ∧ keep p = true :=
  ⟨mem_values.mp (mem_of_find?_eq_some h), find?_some h⟩

theorem current_ok (h : t.current = .ok p) : t.processes[t.currentTid]? = some p := by
  unfold current at h
  split at h
  · next q hq => cases h; exact hq
  · cases h

theorem current_kin (h : t.current = .ok p) : kin t t.currentTid = some (kinOf p) :=
  kin_of_entry (current_ok h)

theorem kin_insert :
    kin { t with processes := t.processes.insert k p } = update (kin t) k (some (kinOf p)) := by
  funext j
  simp only [kin, ExtTreeMap.getElem?_insert, Std.LawfulEqOrd.compare_eq_iff_eq, update_apply,
    eq_comm (a := k)]
  split <;> rfl

theorem kin_erase : kin { t with processes := t.processes.erase k } = update (kin t) k none := by
  funext j
  simp only [kin, ExtTreeMap.getElem?_erase, Std.LawfulEqOrd.compare_eq_iff_eq, update_apply,
    eq_comm (a := k)]
  split <;> rfl

theorem kin_map {g : Kin → Kin} (h : ∀ p, kinOf (f p) = g (kinOf p)) :
    kin { t with processes := t.processes.map fun _ => f } = fun j => (kin t j).map g := by
  funext j
  simp only [kin, ExtTreeMap.getElem?_map, Option.map_map]
  congr 1
  funext p
  exact h p

theorem kin_modify {g : Kin → Kin} (h : ∀ p, kinOf (f p) = g (kinOf p)) :
    kin (t.modify k f) = update (kin t) k ((kin t k).map g) := by
  funext j
  simp only [kin, Table.modify, ExtTreeMap.getElem?_modify, Std.LawfulEqOrd.compare_eq_iff_eq,
    update_apply]
  by_cases hj : k = j
  · subst hj
    rw [if_pos rfl, if_pos rfl, Option.map_map, Option.map_map]
    congr 1
    funext p
    exact h p
  · rw [if_neg hj, if_neg (Ne.symm hj)]

theorem kin_modify_id (h : ∀ p, kinOf (f p) = kinOf p) : kin (t.modify k f) = kin t := by
  rw [kin_modify (g := id) h, Option.map_id, id, update_eq_self]

/-- The id counter and the current thread. -/
def counters (t : Table) : ℕ × ℕ := (t.nextPid, t.currentTid)

structure SameKin (t u : Table) : Prop where
  kin : kin u = kin t
  counters : counters u = counters t

namespace SameKin

theorem rfl' (t : Table) : SameKin t t := ⟨rfl, rfl⟩

theorem trans {v : Table} (h : SameKin t u) (k : SameKin u v) : SameKin t v :=
  ⟨k.kin.trans h.kin, k.counters.trans h.counters⟩

end SameKin

theorem sameKin_modify (h : ∀ p, kinOf (f p) = kinOf p) :
    SameKin t (t.modify k f) := ⟨kin_modify_id h, rfl⟩

theorem sameKin_sendSignalTid (t : Table) (pid signal : ℕ) :
    SameKin t (t.sendSignalTid pid signal).2 := by
  rcases t.sendSignalTid_cases pid signal with h | ⟨tid, h⟩ <;> rw [h]
  · exact .rfl' t
  · exact sameKin_modify fun p => rfl

theorem sameKin_notifyParent (t : Table) (parent : Option ℕ) : SameKin t (t.notifyParent parent) := by
  cases parent with
  | none => exact .rfl' t
  | some parent => exact sameKin_sendSignalTid t parent _

section Exits

variable (hal : HalMemory) (heap : Heap) (code : Int32)

theorem sameKin_clearSpaces (members : List Process) (t : Table) :
    SameKin t (members.foldl (fun t p => t.clearSpace p) t) := by
  induction members generalizing t with
  | nil => exact .rfl' t
  | cons p members ih => exact SameKin.trans (u := t.clearSpace p) ⟨rfl, rfl⟩ (ih _)

theorem endGroup_kin (g : ℕ) (t : Table) :
    kin (t.endGroup code g) = fun j => (kin t j).map (Kin.inGroup g (Kin.ended code)) := by
  unfold endGroup
  rw [(sameKin_clearSpaces _ _).kin]
  refine kin_map fun p => ?_
  simp only [beq_iff_eq, Kin.inGroup]
  by_cases hg : p.tgid = g
  · rw [if_pos hg, if_pos (show (kinOf p).tgid = g from hg)]
    rfl
  · rw [if_neg hg, if_neg (show (kinOf p).tgid ≠ g from hg)]

theorem endGroup_counters (g : ℕ) (t : Table) : counters (t.endGroup code g) = counters t :=
  (sameKin_clearSpaces _ _).counters

theorem leaveThread_kin (h : t.processes[t.currentTid]? = some p) :
    kin (t.leaveThread hal heap code p).2 =
      update (kin t) t.currentTid (some ((kinOf p).ended code)) := by
  unfold leaveThread
  rw [kin_modify (g := Kin.ended code) fun p => rfl]
  show update (kin t) t.currentTid ((kin t t.currentTid).map (Kin.ended code)) = _
  rw [kin_of_entry h]
  rfl

theorem exitEntry_kin (found : List ℕ × Table)
    (tid : ℕ) : kin (exitEntry hal heap code found tid).2 =
      update (kin found.2) tid ((kin found.2 tid).map (Kin.ended code)) := by
  unfold exitEntry
  split
  · next h =>
    have hnone : kin found.2 tid = none := by rw [kin, h]; rfl
    rw [hnone, update_eq_self_iff.mpr hnone.symm]
    rfl
  · show kin (Table.modify tid _ _) = _
    rw [kin_modify (g := Kin.ended code) fun p => rfl]
    rfl

theorem foldl_exitEntry_kin (tids : List ℕ)
    (found : List ℕ × Table) :
    kin (tids.foldl (exitEntry hal heap code) found).2 = (fun j =>
        if j ∈ tids then (kin found.2 j).map (Kin.ended code) else kin found.2 j) ∧
      counters (tids.foldl (exitEntry hal heap code) found).2 = counters found.2 := by
  induction tids generalizing found with
  | nil => exact ⟨by simp, rfl⟩
  | cons tid tids ih =>
    obtain ⟨hkin, hcounters⟩ := ih (exitEntry hal heap code found tid)
    refine ⟨?_, hcounters.trans (by unfold exitEntry; split <;> rfl)⟩
    rw [foldl_cons, hkin]
    funext j
    rw [exitEntry_kin, update_apply]
    -- ending an entry twice with one code is ending it once
    by_cases hj : j = tid
    · subst hj
      simp only [if_pos, mem_cons, Option.map_map]
      split <;> rfl
    · simp [hj]

theorem exitEntries_kin (g : ℕ) (t : Table) : kin (t.exitEntries hal heap code (t.groupTids g)).2 =
      fun j => (kin t j).map (Kin.inGroup g (Kin.ended code)) := by
  rw [exitEntries, (foldl_exitEntry_kin ..).1]
  funext j
  rcases hj : kin t j with _ | q
  · simp
  have hmem : j ∈ t.groupTids g ↔ q.tgid = g := by
    rw [mem_groupTids, hj]
    simp
  simp only [hmem, Kin.inGroup, map_some]
  split <;> rfl

theorem exitEntries_counters (tids : List ℕ)
    (t : Table) : counters (t.exitEntries hal heap code tids).2 = counters t :=
  (foldl_exitEntry_kin ..).2

theorem groupAlive_iff {tid : ℕ} :
    t.groupAlive g tid = true ↔ ∃ j q, kin t j = some q ∧ q.tgid = g ∧ q.tid ≠ tid ∧ q.Live := by
  simp only [groupAlive, List.any_eq_true, mem_values, Bool.and_eq_true, beq_iff_eq, bne_iff_ne,
    kin_eq_some]
  constructor
  · rintro ⟨p, ⟨j, hj⟩, ⟨hg, htid⟩, hlive⟩
    exact ⟨j, kinOf p, ⟨p, hj, rfl⟩, hg, htid, hlive⟩
  · rintro ⟨j, _, ⟨p, hj, rfl⟩, hg, htid, hlive⟩
    exact ⟨p, ⟨j, hj⟩, ⟨hg, htid⟩, hlive⟩

/-- The exiting thread itself does not count, before or after it has left. -/
theorem leaveThread_groupAlive (h : t.processes[t.currentTid]? = some p) :
    (t.leaveThread hal heap code p).2.groupAlive p.tgid p.tid = t.groupAlive p.tgid p.tid := by
  rw [Bool.eq_iff_iff, groupAlive_iff, groupAlive_iff, leaveThread_kin hal heap code h]
  refine exists_congr fun j => exists_congr fun q => ?_
  by_cases hj : j = t.currentTid
  · subst hj
    rw [update_self, kin_of_entry h]
    constructor
    · rintro ⟨hq, -, htid, -⟩
      cases hq
      exact absurd rfl htid
    · rintro ⟨hq, -, htid, -⟩
      cases hq
      exact absurd rfl htid
  · rw [update_of_ne hj]

theorem exitCurrentThread_kin (h : t.current = .ok p) : kin (t.exitCurrentThread hal heap code).2 =
      if t.groupAlive p.tgid p.tid then
        update (kin t) t.currentTid (some ((kinOf p).ended code))
      else fun j => (kin t j).map (Kin.inGroup p.tgid (Kin.ended code)) := by
  have hcur := current_ok h
  simp only [exitCurrentThread, h]
  rw [leaveThread_groupAlive hal heap code hcur]
  by_cases halive : t.groupAlive p.tgid p.tid = true
  · rw [if_pos halive, if_pos halive, leaveThread_kin hal heap code hcur]
  rw [if_neg halive, if_neg halive, (sameKin_notifyParent _ _).kin, endGroup_kin,
    leaveThread_kin hal heap code hcur]
  funext j
  by_cases hj : j = t.currentTid
  · subst hj
    rw [update_self, kin_of_entry hcur, map_some, map_some, Kin.inGroup,
      Kin.inGroup, if_pos (show ((kinOf p).ended code).tgid = p.tgid from rfl),
      if_pos (show (kinOf p).tgid = p.tgid from rfl)]
    rfl
  · rw [update_of_ne hj]

theorem exitCurrentThread_counters (t : Table) :
    counters (t.exitCurrentThread hal heap code).2 = counters t := by
  unfold exitCurrentThread
  split
  · rfl
  simp only
  split
  · rfl
  · rw [(sameKin_notifyParent _ _).counters, endGroup_counters]
    rfl

theorem exitCurrentProcessGroup_kin (h : t.current = .ok p) :
    kin (t.exitCurrentProcessGroup hal heap code).2 =
      fun j => (kin t j).map (Kin.inGroup p.tgid (Kin.ended code)) := by
  simp only [exitCurrentProcessGroup, h]
  rw [(sameKin_notifyParent _ _).kin, exitEntries_kin]

theorem exitCurrentProcessGroup_counters (t : Table) : counters (t.exitCurrentProcessGroup hal heap code).2 = counters t := by
  unfold exitCurrentProcessGroup
  split
  · rfl
  · simp only
    rw [(sameKin_notifyParent _ _).counters, exitEntries_counters]

theorem forceExitGroup_kin (g : ℕ) (t : Table) : kin (t.forceExitGroup hal heap code g).2 =
      fun j => (kin t j).map (Kin.inGroup g (Kin.ended code)) := by
  unfold forceExitGroup
  simp only
  split
  · next hnil =>
    funext j
    rcases hj : kin t j with _ | q
    · rfl
    have hout : q.tgid ≠ g := fun hg => by
      have := mem_groupTids.mpr ⟨q, hj, hg⟩
      rw [hnil] at this
      cases this
    rw [map_some, Kin.inGroup, if_neg hout]
  · rw [(sameKin_notifyParent _ _).kin, exitEntries_kin]

theorem forceExitGroup_counters (g : ℕ) (t : Table) :
    counters (t.forceExitGroup hal heap code g).2 = counters t := by
  unfold forceExitGroup
  simp only
  split
  · rfl
  · rw [(sameKin_notifyParent _ _).counters, exitEntries_counters]

end Exits

theorem dropEntries_kin (tids : List ℕ) (t : Table) :
    kin (t.dropEntries tids) = (fun j => if j ∈ tids then none else kin t j) ∧
      counters (t.dropEntries tids) = counters t := by
  unfold dropEntries
  induction tids generalizing t with
  | nil => exact ⟨by simp, rfl⟩
  | cons tid tids ih =>
    obtain ⟨hkin, hcounters⟩ := ih (removeFutexWaiter tid
      { t with processes := t.processes.erase tid })
    refine ⟨?_, hcounters⟩
    rw [foldl_cons, hkin]
    funext j
    have herase : kin (removeFutexWaiter tid { t with processes := t.processes.erase tid }) =
        update (kin t) tid none := kin_erase
    rw [herase]
    by_cases hj : j = tid <;> simp [hj]

def Kin.reset (q : Kin) : Kin :=
  { q with state := .ready, exitCode := none, isThread := false, futexWaitAddr := none }

/-- The table without the other threads of an entry's group. -/
def withoutOthers (p : Process) (t : Table) : Table :=
  t.dropEntries ((t.groupTids p.tgid).filter (· != p.tid))

/-- The entry `q` of a new image in place of `p`. -/
structure Replaced (t u : Table) (p q : Process) : Prop where
  processes : u.processes = (withoutOthers p t).processes.insert t.currentTid q
  queues : u.futexWaiters = (withoutOthers p t).futexWaiters
  counters : counters u = counters t
  kin : kinOf q = (kinOf p).reset
  cleared : q.pendingSignals = 0
  nextSpace : (withoutOthers p t).nextSpace ≤ u.nextSpace
  space : p.addressSpace < (withoutOthers p t).nextSpace → q.addressSpace < u.nextSpace

section Execve

variable (hal : HalMemory) (cloneHeap stackHeap : Heap) (entry : UInt64) (sp : Option UInt64)

theorem execve_replaced (h : t.current = .ok p) :
    ∃ q, Replaced t (t.execveCurrentImage hal cloneHeap stackHeap entry sp).2 p q := by
  have hcount : counters (withoutOthers p t) = counters t := (dropEntries_kin ..).2
  have hcur : (withoutOthers p t).currentTid = t.currentTid := congrArg Prod.snd hcount
  have hnext : (withoutOthers p t).nextPid = t.nextPid := congrArg Prod.fst hcount
  simp only [execveCurrentImage, h, ← withoutOthers.eq_1, unshareSpace]
  split
  · simp only [addSpace, hcur]
    refine ⟨_, { processes := rfl, queues := rfl, counters := Prod.ext hnext rfl, kin := rfl
                 cleared := rfl, nextSpace := Nat.le_succ _, space := ?_ }⟩
    exact fun _ => Nat.lt_succ_self _
  · simp only [putMachine, hcur]
    exact ⟨_, { processes := rfl, queues := rfl, counters := Prod.ext hnext rfl, kin := rfl
                cleared := rfl, nextSpace := le_rfl, space := id }⟩

theorem execveCurrentImage_kin (h : t.current = .ok p) (hkey : p.tid = t.currentTid) :
    kin (t.execveCurrentImage hal cloneHeap stackHeap entry sp).2 =
      update (fun j => (kin t j).filter fun q => q.tgid != p.tgid) t.currentTid
        (some (kinOf p).reset) := by
  obtain ⟨q, hq⟩ := execve_replaced hal cloneHeap stackHeap entry sp h
  have hentries : kin (t.execveCurrentImage hal cloneHeap stackHeap entry sp).2 = _ :=
    (congrArg (fun m j => Option.map kinOf m[j]?) hq.processes).trans
      (kin_insert (t := withoutOthers p t))
  rw [hentries, hq.kin, withoutOthers, (dropEntries_kin ..).1]
  funext j
  rw [update_apply, update_apply]
  by_cases hj : j = t.currentTid
  · rw [if_pos hj, if_pos hj]
  have hmem : j ∈ (t.groupTids p.tgid).filter (· != p.tid) ↔
      ∃ q, kin t j = some q ∧ q.tgid = p.tgid := by
    rw [mem_filter, mem_groupTids, hkey]
    simp [hj]
  cases hq : kin t j with
  | none => simp
  | some q => simp [hmem, hq, Option.filter]

theorem execveCurrentImage_counters (t : Table) :
    counters (t.execveCurrentImage hal cloneHeap stackHeap entry sp).2 = counters t := by
  cases hp : t.current with
  | error e => rw [execveCurrentImage, hp]
  | ok p =>
    obtain ⟨q, hq⟩ := execve_replaced hal cloneHeap stackHeap entry sp hp
    exact hq.counters

end Execve

def newborn (tid tgid : ℕ) (parent : Option ℕ) : Kin where
  tid := tid
  tgid := tgid
  parent := parent
  state := .ready
  exitCode := none
  isThread := false
  futexWaitAddr := none
  vforkParentTid := none

theorem spawn_kin (hal : HalMemory) (heap : Heap) (parent : Option ℕ) (entry : UInt64) (t : Table) :
    kin (t.spawn hal heap parent entry).2 =
        update (kin t) t.nextPid (some (newborn t.nextPid t.nextPid parent)) ∧
      (t.spawn hal heap parent entry).2.nextPid = t.nextPid + 1 :=
  ⟨kin_insert, rfl⟩

/-- An operation that takes an id and adds an entry under it beside the caller's, or none. -/
structure Begets (t u : Table) (made : Process → Process → Prop) : Prop where
  counters : counters u = (t.nextPid + 1, t.currentTid)
  entries : u.processes = t.processes ∨ ∃ p c, t.current = .ok p ∧ made p c ∧
    u.processes = t.processes.insert t.nextPid c

def Forks (t : Table) (p c : Process) : Prop := kinOf c = newborn t.nextPid t.nextPid (some p.tgid)

def Joins (t : Table) (p c : Process) : Prop :=
  kinOf c = newborn t.nextPid p.tgid p.parent ∧ c.signalActions = p.signalActions ∧ c.pgid = p.pgid

theorem Begets.kin {made : Process → Process → Prop} (h : Begets t u made) :
    kin u = kin t ∨ ∃ p c, t.current = .ok p ∧ made p c ∧
      kin u = update (kin t) t.nextPid (some (kinOf c)) := by
  rcases h.entries with hu | ⟨p, c, hp, hc, hu⟩
  · refine .inl ?_
    funext j
    rw [TableEffects.kin, hu, TableEffects.kin]
  · refine .inr ⟨p, c, hp, hc, ?_⟩
    rw [← kin_insert]
    funext j
    rw [TableEffects.kin, hu, TableEffects.kin]

theorem current_takeId (t : Table) :
    ({ t with nextPid := t.nextPid + 1 } : Table).current = t.current := rfl

theorem begets_fork (hal : HalMemory) (heap : Heap) (t : Table) :
    Begets t (t.forkProcessFromCurrent hal heap).2 (Forks t) := by
  unfold forkProcessFromCurrent
  simp only [current_takeId]
  rcases hp : t.current with e | p
  · exact ⟨rfl, .inl rfl⟩
  simp only
  split
  · exact ⟨rfl, .inl rfl⟩
  · refine ⟨rfl, .inr ⟨p, _, hp, ?_, rfl⟩⟩
    rfl

theorem begets_forkShared (t : Table) : Begets t t.forkProcessFromCurrentShared.2 (Forks t) := by
  unfold forkProcessFromCurrentShared
  simp only [current_takeId]
  cases hp : t.current with
  | error e => exact ⟨rfl, .inl rfl⟩
  | ok p =>
    refine ⟨rfl, .inr ⟨p, _, hp, ?_, rfl⟩⟩
    rfl

theorem begets_cloneThread {hal : HalMemory} {heap : Heap} {fuel stack : ℕ} {tls : Option ℕ}
    {r : KernelResult ℕ} (h : t.cloneThreadFromCurrent hal heap fuel stack tls = some (r, u)) :
    Begets t u (Joins t) := by
  unfold cloneThreadFromCurrent at h
  simp only [current_takeId] at h
  rcases hp : t.current with e | p
  · simp only [hp] at h
    obtain ⟨-, rfl⟩ := h
    exact ⟨rfl, .inl rfl⟩
  simp only [hp, map_eq_some_iff] at h
  obtain ⟨⟨sp, M⟩, -, h⟩ := h
  obtain ⟨-, rfl⟩ := h
  exact ⟨rfl, .inr ⟨p, threadChild p t.nextPid sp tls, hp, ⟨rfl, rfl, rfl⟩, rfl⟩⟩

def Kin.adopt (tgid init : ℕ) (q : Kin) : Kin :=
  if !q.isThread && q.state != .exited && q.parent == some tgid && q.tgid != tgid then
    { q with parent := some init }
  else q

theorem kinOf_adopt (tgid init : ℕ) (p : Process) :
    kinOf (if !p.isThread && p.state != .exited && p.parent == some tgid && p.tgid != tgid then
      { p with parent := some init } else p) = (kinOf p).adopt tgid init := by
  rw [apply_ite kinOf]
  rfl

section Adopt

variable (c init : ℕ) (q : Kin)

@[simp] theorem Kin.adopt_tid : (q.adopt c init).tid = q.tid := by unfold Kin.adopt; split <;> rfl

@[simp] theorem Kin.adopt_tgid : (q.adopt c init).tgid = q.tgid := by unfold Kin.adopt; split <;> rfl

@[simp] theorem Kin.adopt_state : (q.adopt c init).state = q.state := by
  unfold Kin.adopt; split <;> rfl

@[simp] theorem Kin.adopt_exitCode : (q.adopt c init).exitCode = q.exitCode := by
  unfold Kin.adopt; split <;> rfl

@[simp] theorem Kin.adopt_isThread : (q.adopt c init).isThread = q.isThread := by
  unfold Kin.adopt; split <;> rfl

theorem Kin.adopt_parent : (q.adopt c init).parent =
    if !q.isThread && q.state != .exited && q.parent == some c && q.tgid != c then some init
    else q.parent := by
  unfold Kin.adopt; split <;> rfl

variable {c init q}

theorem Kin.adopt_of_ne (h : q.parent ≠ some c) : q.adopt c init = q := by
  simp [Kin.adopt, h]

end Adopt

theorem reapThreadGroup_kin (c : ℕ) (t : Table) : kin (t.reapThreadGroup c) = (fun j =>
        ((kin t j).filter fun q => q.tgid != c).map (Kin.adopt c t.initTgid)) ∧
      counters (t.reapThreadGroup c) = counters t := by
  have hadopt : kin (t.adoptChildren c t.initTgid) =
      fun j => (kin t j).map (Kin.adopt c t.initTgid) := kin_map (kinOf_adopt c t.initTgid)
  have hdrop := dropEntries_kin ((t.adoptChildren c t.initTgid).groupTids c)
    (t.adoptChildren c t.initTgid)
  refine ⟨?_, hdrop.2⟩
  rw [reapThreadGroup, hdrop.1]
  funext j
  have hmem : j ∈ (t.adoptChildren c t.initTgid).groupTids c ↔
      ∃ q, kin t j = some q ∧ q.tgid = c := by
    rw [mem_groupTids, hadopt]
    simp
  rw [hadopt]
  cases hq : kin t j with
  | none => simp [hq]
  | some q => by_cases hc : q.tgid = c <;> simp [hmem, hq, hc]

theorem waitChild_cases (parent : ℕ) (selector : Table.WaitSelector) (t : Table) :
    ((t.waitChild parent selector).2 = t ∧ ((t.waitChild parent selector).1 = .ok (0, 0) ∨
        (t.waitChild parent selector).1 = .error echild)) ∨
      ∃ (j : ℕ) (q : Kin), kin t j = some q ∧ q.isThread = false ∧ q.parent = some parent ∧
        q.state = .exited ∧
        (t.waitChild parent selector).1 = .ok (q.tgid,
          waitStatus (((kin t q.tgid).bind Kin.exitCode).getD 0)) ∧
        (t.waitChild parent selector).2 = t.reapThreadGroup q.tgid := by
  unfold waitChild
  simp only
  split
  · split
    · exact .inl ⟨rfl, .inl rfl⟩
    · exact .inl ⟨rfl, .inr rfl⟩
  next p hp =>
  obtain ⟨⟨j, hj⟩, hkeep⟩ := find_some hp
  simp only [Bool.and_eq_true, Bool.not_eq_true', beq_iff_eq] at hkeep
  refine .inr ⟨j, kinOf p, kin_of_entry hj, hkeep.1.1.1, hkeep.1.1.2, hkeep.2, ?_, rfl⟩
  have hcode : t.processes[p.tgid]?.bind Process.exitCode = (kin t p.tgid).bind Kin.exitCode := by
    rw [kin, bind_map]
    rfl
  rw [hcode]
  rfl

section Found

variable {K : ℕ → Option Kin} {c g init j n : ℕ} {q r : Kin} {code : Int32}

theorem kin_empty {next cur : ℕ} {futex spaces count mem} :
    kin ⟨next, cur, ∅, futex, spaces, count, mem⟩ j ≠ some q := by
  simp [kin]

theorem update_eq_some : update K n (some r) j = some q ↔ j = n ∧ q = r ∨ j ≠ n ∧ K j = some q := by
  rw [update_apply]
  split
  · next hj => simp [hj, eq_comm]
  · next hj => simp [hj]

theorem replaced_eq_some :
    update (fun j => (K j).filter fun q => q.tgid != g) n (some r) j = some q ↔
      j = n ∧ q = r ∨ j ≠ n ∧ K j = some q ∧ q.tgid ≠ g := by
  rw [update_eq_some, filter_eq_some_iff, bne_iff_ne]

theorem reaped_eq_some : ((K j).filter fun q => q.tgid != c).map (Kin.adopt c init) = some q ↔
    ∃ r, K j = some r ∧ r.tgid ≠ c ∧ r.adopt c init = q := by
  simp [and_assoc]

end Found

end TableEffects
