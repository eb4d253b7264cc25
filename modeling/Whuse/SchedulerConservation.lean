import Mathlib.Logic.Function.Basic
import Whuse.TaskScheduler

/-! No task is lost or held twice. A census beside the scheduler lists the tasks that were
spawned and have not left since; every call keeps the scheduler in step with it. -/
namespace SchedulerConservation

open Std (ExtTreeMap)
open TaskScheduler Scheduler Function List Option Std.ExtTreeMap

/-- The process of every task that was spawned and has neither been removed nor exited. -/
abbrev Census := ℕ → Option ℕ

def places (s : Scheduler) (id : ℕ) : ℕ :=
  s.ready.countP (fun t => t.id == id) + s.current.toList.countP (fun t => t.id == id) +
    (s.blocked.contains id).toNat

structure Conserved (s : Scheduler) (census : Census) : Prop where
  once : ∀ id, places s id = if (census id).isSome then 1 else 0
  ready : ∀ t ∈ s.ready, t.state = .ready ∧ census t.id = some t.processId
  current : ∀ t, s.current = some t → t.state = .running ∧ census t.id = some t.processId
  blocked : ∀ (k : ℕ) (t : Task), s.blocked[k]? = some t →
    t.id = k ∧ t.state = .blocked ∧ census t.id = some t.processId

variable {census : Census} {st : State} {t : Task} {l : List Task} {p : Task → Bool}

theorem contains_of_get {m : ExtTreeMap ℕ Task} {k : ℕ} (h : m[k]? = some t) :
    m.contains k = true := by
  rw [contains_eq_isSome_getElem?, h, isSome_some]

namespace Conserved

variable {s : Scheduler}

section

variable (h : Conserved s census)
include h

theorem places_le_one (id : ℕ) : places s id ≤ 1 := by
  rw [h.once id]
  split <;> omega

theorem current_alone (ht : s.current = some t) :
    s.ready.countP (fun u => u.id == t.id) = 0 ∧ s.blocked.contains t.id = false := by
  have hone := h.places_le_one t.id
  unfold places at hone
  rw [ht] at hone
  simp only [toList_some, countP_cons, beq_self_eq_true, if_true] at hone
  cases hb : s.blocked.contains t.id with
  | true =>
    rw [hb, Bool.toNat_true] at hone
    omega
  | false => exact ⟨by omega, rfl⟩

theorem scheduleNext (hnone : s.current = none) : Conserved s.scheduleNext census := by
  unfold Scheduler.scheduleNext
  split
  · exact h
  next task rest hready =>
  have hmem := h.ready task (hready ▸ mem_cons_self)
  refine ⟨fun id => ?_, fun t ht => ?_, fun t ht => ?_, h.blocked⟩
  · rw [← h.once id]
    simp only [places, hready, hnone, toList_some, toList_none, countP_cons]
    omega
  · exact h.ready t (hready ▸ mem_cons_of_mem _ ht)
  · obtain rfl := some.inj ht
    exact ⟨rfl, hmem.2⟩

theorem withoutCurrent_once (ht : s.current = some t) (id : ℕ) :
    s.ready.countP (fun u => u.id == id) + (if t.id == id then 1 else 0) +
      (s.blocked.contains id).toNat = if (census id).isSome then 1 else 0 := by
  rw [← h.once id, places, ht]
  simp

theorem yieldNow : Conserved s.yieldNow census := by
  unfold Scheduler.yieldNow
  rcases hcur : s.current with _ | task
  · exact h.scheduleNext hcur
  obtain ⟨hstate, hheld⟩ := h.current task hcur
  have hrun : ¬ task.state = .exited := by rw [hstate]; decide
  simp only [if_neg hrun]
  refine scheduleNext ⟨fun id => ?_, fun t ht => ?_, fun t ht => (by cases ht), h.blocked⟩ rfl
  · rw [← h.withoutCurrent_once hcur id]
    simp only [places, countP_append, countP_cons, countP_nil, toList_none]
    omega
  · rcases mem_append.mp ht with ht | ht
    · exact h.ready t ht
    · rw [mem_singleton.mp ht]
      exact ⟨rfl, hheld⟩

theorem blockCurrent : Conserved s.blockCurrent census := by
  unfold Scheduler.blockCurrent
  rcases hcur : s.current with _ | task
  · exact h
  obtain ⟨hstate, hheld⟩ := h.current task hcur
  refine scheduleNext ⟨fun id => ?_, h.ready, fun t ht => (by cases ht), fun k t ht => ?_⟩ rfl
  · rw [← h.withoutCurrent_once hcur id]
    simp only [places]
    by_cases hid : task.id = id
    · subst hid
      simp [h.current_alone hcur]
    · have hcmp : (compare task.id id == Ordering.eq) = false := by simpa using hid
      have hbeq : (task.id == id) = false := by simpa using hid
      simp [hcmp, hbeq]
  · rw [ExtTreeMap.getElem?_insert] at ht
    split at ht
    · next heq =>
      obtain rfl := some.inj ht
      exact ⟨by simpa using heq, rfl, hheld⟩
    · exact h.blocked k t ht

theorem wakeTask (taskId : ℕ) : Conserved (s.wakeTask taskId) census := by
  unfold Scheduler.wakeTask
  rcases hget : s.blocked[taskId]? with _ | task
  · exact h
  obtain ⟨hid, hstate, hheld⟩ := h.blocked taskId task hget
  have hcontains := contains_of_get hget
  refine ⟨fun id => ?_, fun t ht => ?_, h.current, fun k t ht => ?_⟩
  · rw [← h.once id]
    simp only [places]
    by_cases heq : taskId = id
    · subst heq
      simp [hid, hcontains]
      omega
    · have hcmp : (compare taskId id == Ordering.eq) = false := by simpa using heq
      have hbeq : (task.id == id) = false := by simpa [hid] using heq
      simp [bne, hcmp, hbeq]
  · rcases mem_append.mp ht with ht | ht
    · exact h.ready t ht
    · rw [mem_singleton.mp ht]
      exact ⟨rfl, hheld⟩
  · rw [getElem?_erase] at ht
    split at ht
    · cases ht
    · exact h.blocked k t ht

theorem wakeTasks (taskIds : List ℕ) : Conserved (s.wakeTasks taskIds) census := by
  induction taskIds generalizing s with
  | nil => exact h
  | cons id rest ih => exact ih (h.wakeTask id)

theorem spawn {threadId : ℕ} (hfree : census threadId = none)
    (processId : ℕ) :
    Conserved (s.spawn threadId processId) (update census threadId (some processId)) := by
  -- no task that is held has the new id
  have hother : ∀ {t : Task}, census t.id = some t.processId →
      update census threadId (some processId) t.id = some t.processId := by
    intro t ht
    rw [update_of_ne]
    · exact ht
    · intro heq
      rw [heq, hfree] at ht
      cases ht
  refine ⟨fun id => ?_, fun t ht => ?_, fun t ht => ?_, fun k t ht => ?_⟩
  · have hold := h.once id
    simp only [places] at hold
    simp only [places, Scheduler.spawn, countP_append, countP_cons, countP_nil]
    by_cases hid : threadId = id
    · subst hid
      rw [hfree] at hold
      simp only [update_self, isSome_some, beq_self_eq_true]
      simp only [isSome_none, Bool.false_eq_true, if_false] at hold
      omega
    · have hbeq : (threadId == id) = false := by simpa using hid
      rw [update_of_ne (Ne.symm hid), ← hold]
      simp [hbeq]
  · rcases mem_append.mp ht with ht | ht
    · exact ⟨(h.ready t ht).1, hother (h.ready t ht).2⟩
    · rw [mem_singleton.mp ht]
      exact ⟨rfl, update_self ..⟩
  · exact ⟨(h.current t ht).1, hother (h.current t ht).2⟩
  · obtain ⟨hid, hstate, hheld⟩ := h.blocked k t ht
    exact ⟨hid, hstate, hother hheld⟩

end

end Conserved

structure Drops (gone : Task → Bool) (s s' : Scheduler) : Prop where
  ready : s'.ready = s.ready.filter fun t => !gone t
  current : s'.current = s.current.filter fun t => !gone t
  blocked : ∀ k : ℕ, s'.blocked[k]? = s.blocked[k]?.filter fun t => !gone t

def Census.drop (gone : ℕ → ℕ → Bool) (census : Census) : Census :=
  fun id => (census id).filter fun processId => !gone id processId

theorem countP_filter_same (l : List Task) (gone : Task → Bool) (id : ℕ) {out : Bool}
    (h : ∀ t ∈ l, t.id = id → gone t = out) :
    (l.filter fun t => !gone t).countP (fun t => t.id == id) =
      if out then 0 else l.countP (fun t => t.id == id) := by
  induction l with
  | nil => simp
  | cons t l ih =>
    by_cases hid : t.id = id
    · cases out <;> simp_all
    · cases hgone : gone t <;> simp_all

theorem Conserved.drops {s s' : Scheduler} (h : Conserved s census) {gone : ℕ → ℕ → Bool}
    (hd : Drops (fun t => gone t.id t.processId) s s') : Conserved s' (census.drop gone) := by
  have hkeep : ∀ {t : Task}, census t.id = some t.processId → gone t.id t.processId = false →
      census.drop gone t.id = some t.processId := by
    intro t ht hstay
    simp [Census.drop, ht, hstay]
  refine ⟨fun id => ?_, fun t ht => ?_, fun t ht => ?_, fun k t ht => ?_⟩
  · -- all tasks with this id leave, or none does
    have hsame : ∀ t : Task, census t.id = some t.processId → t.id = id →
        gone t.id t.processId = ((census id).map (gone id)).getD false := by
      intro t ht heq
      rw [heq] at ht ⊢
      simp [ht]
    generalize hout : ((census id).map (gone id)).getD false = out at hsame
    have hplaces : places s' id = if out then 0 else places s id := by
      have hready := countP_filter_same s.ready (fun t => gone t.id t.processId) id
        fun t ht => hsame t (h.ready t ht).2
      have hcurrent := countP_filter_same s.current.toList (fun t => gone t.id t.processId) id
        fun t ht => hsame t (h.current t (mem_toList.mp ht)).2
      have hblocked : (s'.blocked.contains id).toNat =
          if out then 0 else (s.blocked.contains id).toNat := by
        rw [contains_eq_isSome_getElem?, contains_eq_isSome_getElem?, hd.blocked]
        rcases hget : s.blocked[id]? with _ | t
        · simp
        obtain ⟨hid, -, hheld⟩ := h.blocked id t hget
        have hgone := hsame t hheld hid
        cases out <;> simp [hgone]
      simp only [places, hd.ready, hd.current, hready, hblocked, toList_filter, hcurrent]
      cases out <;> simp
    rw [hplaces, h.once id]
    rcases hcensus : census id with _ | processId
    · simp [Census.drop, hcensus]
    cases out <;> simp_all [Census.drop]
  · rw [hd.ready, mem_filter] at ht
    have hready := h.ready t ht.1
    exact ⟨hready.1, hkeep hready.2 (by simpa using ht.2)⟩
  · rw [hd.current, filter_eq_some_iff] at ht
    have hcur := h.current t ht.1
    exact ⟨hcur.1, hkeep hcur.2 (by simpa using ht.2)⟩
  · rw [hd.blocked, filter_eq_some_iff] at ht
    obtain ⟨hid, hstate, hheld⟩ := h.blocked k t ht.1
    exact ⟨hid, hstate, hkeep hheld (by simpa using ht.2)⟩

theorem eraseP_eq_filter (h : l.countP p ≤ 1) : l.eraseP p = l.filter fun t => !p t := by
  induction l with
  | nil => rfl
  | cons t l ih =>
    cases hp : p t with
    | true =>
      rw [countP_cons_of_pos hp] at h
      have hnone : ∀ u ∈ l, ¬ p u = true := countP_eq_zero.mp (by omega)
      rw [eraseP_cons_of_pos hp, filter_cons_of_neg (by simp [hp])]
      exact (filter_eq_self.mpr fun u hu => by simpa using hnone u hu).symm
    | false =>
      rw [countP_cons_of_neg (by simp [hp])] at h
      rw [eraseP_cons_of_neg (by simp [hp]), filter_cons_of_pos (by simp [hp]), ih h]

theorem filter_of_absent (h : l.countP p = 0) : (l.filter fun t => !p t) = l :=
  filter_eq_self.mpr fun t ht => by simpa using countP_eq_zero.mp h t ht

section Leaving

variable {s : Scheduler} (h : Conserved s census)

include h

/-- Where a task with this id is not held, nothing changes. -/
theorem blocked_filter_of_absent {id : ℕ} (hb : s.blocked.contains id = false) (k : ℕ) :
    s.blocked[k]? = s.blocked[k]?.filter fun t => !(t.id == id) := by
  rcases hget : s.blocked[k]? with _ | t
  · rfl
  have hid := (h.blocked k t hget).1
  have hne : (t.id == id) = false := by
    rw [beq_eq_false_iff_ne, hid]
    rintro rfl
    rw [contains_of_get hget] at hb
    cases hb
  simp [Option.filter, hne]

theorem exitCurrent_drops (ht : s.current = some t) :
    Drops (fun u => u.id == t.id) s s.exitCurrent := by
  obtain ⟨hready, hblocked⟩ := h.current_alone ht
  refine ⟨(filter_of_absent hready).symm, ?_, blocked_filter_of_absent h hblocked⟩
  simp [ht, Scheduler.exitCurrent, Option.filter]

theorem removeTask_drops (taskId : ℕ) : Drops (fun u => u.id == taskId) s (s.removeTask taskId) := by
  have hone := h.places_le_one taskId
  unfold Scheduler.removeTask
  by_cases hcur : s.current.any (fun t => t.id == taskId) = true
  · rw [if_pos hcur]
    cases ht : s.current with
    | none =>
      rw [ht] at hcur
      cases hcur
    | some t =>
      have hid : t.id = taskId := by simpa [ht] using hcur
      subst hid
      exact exitCurrent_drops h ht
  · rw [if_neg hcur]
    have hkeep : s.current.filter (fun t => !(t.id == taskId)) = s.current := by
      rcases hs : s.current with _ | t
      · rfl
      rw [hs] at hcur
      simpa using hcur
    by_cases hready : s.ready.any (fun t => t.id == taskId) = true
    · rw [if_pos hready]
      have hpos : 0 < s.ready.countP (fun t => t.id == taskId) := by
        obtain ⟨t, ht, hid⟩ := List.any_eq_true.mp hready
        exact countP_pos_iff.mpr ⟨t, ht, hid⟩
      have hb : s.blocked.contains taskId = false := by
        rcases hb : s.blocked.contains taskId with _ | _
        · rfl
        rw [places, hb, Bool.toNat_true] at hone
        omega
      refine ⟨eraseP_eq_filter ?_, hkeep.symm, blocked_filter_of_absent h hb⟩
      unfold places at hone
      omega
    · rw [if_neg hready]
      refine ⟨?_, hkeep.symm, fun k => ?_⟩
      · refine (filter_of_absent (countP_eq_zero.mpr fun t ht hid => ?_)).symm
        exact hready (List.any_eq_true.mpr ⟨t, ht, hid⟩)
      · rw [getElem?_erase]
        rcases hget : s.blocked[k]? with _ | t
        · simp
        have hid := (h.blocked k t hget).1
        by_cases heq : taskId = k
        · simp [Option.filter, heq, hid]
        · simp [Option.filter, hid, heq, Ne.symm heq]

end Leaving

theorem exitGroup_drops (processId : ℕ) (s : Scheduler) :
    Drops (fun u => u.processId == processId) s (s.exitGroup processId) :=
  ⟨rfl, rfl, fun k => getElem?_filter'⟩

def population (s : Scheduler) : ℕ := s.ready.length + s.current.toList.length + s.blocked.size

def Holds (s : Scheduler) (t : Task) : Prop :=
  t ∈ s.ready ∨ s.current = some t ∨ ∃ k : ℕ, s.blocked[k]? = some t

theorem exitGroup_population (processId : ℕ) (s : Scheduler) :
    population (s.exitGroup processId) + s.exitGroupCount processId = population s := by
  have hready := length_filter_le (fun t : Task => t.processId != processId) s.ready
  have hcurrent : (s.current.filter fun t => t.processId != processId).toList.length +
      (if s.current.any (fun t => t.processId == processId) then 1 else 0) =
        s.current.toList.length := by
    cases hs : s.current with
    | none => rfl
    | some t => by_cases hp : t.processId = processId <;> simp [hp]
  have hblocked : (s.blocked.filter fun _ t => t.processId != processId).size +
      (s.blocked.toList.filterMap fun entry =>
        if entry.2.processId = processId then some entry.1 else none).length = s.blocked.size := by
    rw [← ExtTreeMap.length_toList, ← ExtTreeMap.length_toList, ExtTreeMap.toList_filter]
    generalize s.blocked.toList = entries
    induction entries with
    | nil => rfl
    | cons entry rest ih =>
      by_cases hp : entry.2.processId = processId <;> simp [hp] <;> omega
  simp only [population, Scheduler.exitGroup, Scheduler.exitGroupCount]
  omega

theorem exitGroup_holds (processId : ℕ) (s : Scheduler) (t : Task) :
    Holds (s.exitGroup processId) t ↔ Holds s t ∧ t.processId ≠ processId := by
  have hd := exitGroup_drops processId s
  unfold Holds
  rw [hd.ready, hd.current, mem_filter]
  simp only [hd.blocked, filter_eq_some_iff, Bool.not_eq_true', beq_eq_false_iff_ne]
  constructor
  · rintro (⟨h, hp⟩ | ⟨h, hp⟩ | ⟨k, h, hp⟩)
    · exact ⟨.inl h, hp⟩
    · exact ⟨.inr (.inl h), hp⟩
    · exact ⟨.inr (.inr ⟨k, h⟩), hp⟩
  · rintro ⟨h | h | ⟨k, h⟩, hp⟩
    · exact .inl ⟨h, hp⟩
    · exact .inr (.inl ⟨h, hp⟩)
    · exact .inr (.inr ⟨k, h, hp⟩)

inductive Call where
  | spawn (threadId processId : ℕ)
  | start
  | ensureCurrent
  | yieldNow
  | blockCurrent
  | createWaitQueue
  | blockCurrentOn (queue : ℕ)
  | wakeTask (taskId : ℕ)
  | wakeAllBlocked
  | wakeOne (queue : ℕ)
  | wakeAll (queue : ℕ)
  | removeTask (taskId : ℕ)
  | exitCurrent
  | exitGroup (processId : ℕ)

structure State where
  sched : Scheduler
  queues : List WaitQueue

def onQueue (queue : ℕ) (f : WaitQueue → Scheduler → Scheduler × WaitQueue) (st : State) : State :=
  match st.queues[queue]? with
  | none => st
  | some q => ⟨(f q st.sched).1, st.queues.set queue (f q st.sched).2⟩

def perform (c : Call) (st : State) : State :=
  match c with
  | .spawn threadId processId => { st with sched := st.sched.spawn threadId processId }
  | .start => { st with sched := st.sched.start }
  | .ensureCurrent => { st with sched := st.sched.ensureCurrent }
  | .yieldNow => { st with sched := st.sched.yieldNow }
  | .blockCurrent => { st with sched := st.sched.blockCurrent }
  | .createWaitQueue => { st with queues := st.queues ++ [WaitQueue.new (st.queues.length + 1)] }
  | .blockCurrentOn queue => onQueue queue Scheduler.blockCurrentOn st
  | .wakeTask taskId => { st with sched := st.sched.wakeTask taskId }
  | .wakeAllBlocked => { st with sched := st.sched.wakeAllBlocked }
  | .wakeOne queue => onQueue queue Scheduler.wakeOne st
  | .wakeAll queue => onQueue queue Scheduler.wakeAll st
  | .removeTask taskId => { st with sched := st.sched.removeTask taskId }
  | .exitCurrent => { st with sched := st.sched.exitCurrent }
  | .exitGroup processId => { st with sched := st.sched.exitGroup processId }

def Census.after (c : Call) (s : Scheduler) (census : Census) : Census :=
  match c with
  | .spawn threadId processId => update census threadId (some processId)
  | .removeTask taskId => census.drop fun id _ => id == taskId
  | .exitCurrent =>
    match s.current with
    | none => census
    | some t => census.drop fun id _ => id == t.id
  | .exitGroup processId => census.drop fun _ p => p == processId
  | _ => census

/-- A new task gets an id that is not held; `start` is for a scheduler that runs nothing. -/
def Allowed (c : Call) (s : Scheduler) (census : Census) : Prop :=
  match c with
  | .spawn threadId _ => census threadId = none
  | .start => s.current = none
  | _ => True

inductive Reachable : State → Census → Prop where
  | new : Reachable ⟨Scheduler.new, []⟩ fun _ => none
  | call {st : State} {census : Census} (c : Call) : Reachable st census →
      Allowed c st.sched census → Reachable (perform c st) (census.after c st.sched)

theorem onQueue_conserved {queue : ℕ} {f : WaitQueue → Scheduler → Scheduler × WaitQueue}
    (hf : ∀ q, Conserved (f q st.sched).1 census) (h : Conserved st.sched census) :
    Conserved (onQueue queue f st).sched census := by
  unfold onQueue
  split
  · exact h
  · exact hf _

theorem perform_conserved (c : Call) (h : Conserved st.sched census)
    (hc : Allowed c st.sched census) :
    Conserved (perform c st).sched (census.after c st.sched) := by
  cases c with
  | spawn threadId processId => exact h.spawn hc processId
  | start => exact h.scheduleNext hc
  | ensureCurrent =>
    simp only [perform, Scheduler.ensureCurrent]
    cases hcur : st.sched.current with
    | none => exact h.scheduleNext hcur
    | some t => exact h
  | yieldNow => exact h.yieldNow
  | blockCurrent => exact h.blockCurrent
  | createWaitQueue => exact h
  | blockCurrentOn queue =>
    refine onQueue_conserved (fun q => ?_) h
    unfold Scheduler.blockCurrentOn
    split
    · exact h
    · exact h.blockCurrent
  | wakeTask taskId => exact h.wakeTask taskId
  | wakeAllBlocked => exact h.wakeTasks _
  | wakeOne queue =>
    refine onQueue_conserved (fun q => ?_) h
    unfold Scheduler.wakeOne
    split
    · exact h
    · exact h.wakeTask _
  | wakeAll queue => exact onQueue_conserved (fun q => h.wakeTasks _) h
  | removeTask taskId => exact h.drops (removeTask_drops h taskId)
  | exitCurrent =>
    simp only [perform, Census.after]
    cases hcur : st.sched.current with
    | none =>
      have hsame : st.sched.exitCurrent = st.sched := by rw [Scheduler.exitCurrent, ← hcur]
      exact hsame ▸ h
    | some t => exact h.drops (exitCurrent_drops h hcur)
  | exitGroup processId => exact h.drops (exitGroup_drops processId st.sched)

theorem new_conserved : Conserved Scheduler.new fun _ => none :=
  ⟨fun id => by simp [places, Scheduler.new], fun t ht => by simp [Scheduler.new] at ht,
    fun t ht => by simp [Scheduler.new] at ht, fun k t ht => by simp [Scheduler.new] at ht⟩

theorem reachable_conserved (h : Reachable st census) : Conserved st.sched census := by
  induction h with
  | new => exact new_conserved
  | call c _ hc ih => exact perform_conserved c ih hc

/-- In every run the scheduler holds each task of the census once, in the container of its
state, and `exit_group` removes the tasks of one process and counts them. -/
theorem scheduler_conserves_tasks {st : State} {census : Census} (h : Reachable st census) :
    Conserved st.sched census ∧
    ∀ processId, (∀ t, Holds (st.sched.exitGroup processId) t ↔
        Holds st.sched t ∧ t.processId ≠ processId) ∧
      population (st.sched.exitGroup processId) + st.sched.exitGroupCount processId =
        population st.sched :=
  ⟨reachable_conserved h, fun processId =>
    ⟨exitGroup_holds processId st.sched, exitGroup_population processId st.sched⟩⟩

/-- The first of two tasks sleeps on a wait queue. -/
theorem scheduler_conserves_two_tasks :
    ∃ st census, Reachable st census ∧ census 1 = some 10 ∧ st.sched.isBlocked 1 = true ∧
      Conserved st.sched census ∧ st.sched.exitGroupCount 10 = 1 := by
  have h₁ := Reachable.new.call (.spawn 1 10) rfl
  have h₂ := (h₁.call (.spawn 2 20) rfl).call .start rfl
  have h₃ := (h₂.call .createWaitQueue trivial).call (.blockCurrentOn 0) trivial
  exact ⟨_, _, h₃, by decide, by decide +kernel, (scheduler_conserves_tasks h₃).1,
    by decide +kernel⟩

end SchedulerConservation
