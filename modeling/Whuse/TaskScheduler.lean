import Mathlib.Data.Finset.Basic
import Mathlib.Tactic.Common

/-! The scheduler of the `task` crate: a queue of ready tasks, at most one current task and a
table of blocked ones. -/
namespace TaskScheduler

open Std.ExtTreeMap
open Std (ExtTreeMap)

inductive TaskState where
  | ready
  | running
  | blocked
  | exited
  deriving DecidableEq, Repr

structure Task where
  id : ℕ
  processId : ℕ
  state : TaskState
  deriving DecidableEq, Repr

structure Scheduler where
  nextId : ℕ
  ready : List Task
  current : Option Task
  blocked : ExtTreeMap ℕ Task

namespace Scheduler

def scheduleNext (s : Scheduler) : Scheduler :=
  match s.ready with
  | [] => s
  | task :: ready => { s with ready := ready, current := some { task with state := .running } }

def spawn (threadId processId : ℕ) (s : Scheduler) : Scheduler :=
  { s with
    nextId := max s.nextId (threadId + 1)
    ready := s.ready ++ [⟨threadId, processId, .ready⟩] }

def yieldNow (s : Scheduler) : Scheduler :=
  match s.current with
  | none => s.scheduleNext
  | some task =>
    let s := { s with current := none }
    if task.state = .exited then s.scheduleNext
    else scheduleNext { s with ready := s.ready ++ [{ task with state := .ready }] }

def blockCurrent (s : Scheduler) : Scheduler :=
  match s.current with
  | none => s
  | some task =>
    scheduleNext
      { s with current := none, blocked := s.blocked.insert task.id { task with state := .blocked } }

def wakeTask (taskId : ℕ) (s : Scheduler) : Scheduler :=
  match s.blocked[taskId]? with
  | none => s
  | some task =>
    { s with
      blocked := s.blocked.erase taskId
      ready := s.ready ++ [{ task with state := .ready }] }

def wakeTasks (taskIds : List ℕ) (s : Scheduler) : Scheduler :=
  taskIds.foldl (fun s id => s.wakeTask id) s

def wakeAllBlocked (s : Scheduler) : Scheduler := s.wakeTasks s.blocked.keys

def removeTask (taskId : ℕ) (s : Scheduler) : Scheduler :=
  if s.current.any (fun t => t.id == taskId) then { s with current := none }
  else if s.ready.any (fun t => t.id == taskId) then
    { s with ready := s.ready.eraseP fun t => t.id == taskId }
  else { s with blocked := s.blocked.erase taskId }

def exitGroup (processId : ℕ) (s : Scheduler) : Scheduler :=
  { s with
    current := s.current.filter fun t => t.processId != processId
    ready := s.ready.filter fun t => t.processId != processId
    blocked := s.blocked.filter fun _ t => t.processId != processId }

def isBlocked (taskId : ℕ) (s : Scheduler) : Bool := s.blocked.contains taskId

def new : Scheduler := ⟨1, [], none, ∅⟩

def start (s : Scheduler) : Scheduler := s.scheduleNext

def ensureCurrent (s : Scheduler) : Scheduler :=
  match s.current with
  | some _ => s
  | none => s.scheduleNext

def exitCurrent (s : Scheduler) : Scheduler := { s with current := none }

/-- The number of tasks `exitGroup` answers that it removed. -/
def exitGroupCount (processId : ℕ) (s : Scheduler) : ℕ :=
  (if s.current.any (fun t => t.processId == processId) then 1 else 0) +
    (s.ready.length - (s.ready.filter fun t => t.processId != processId).length) +
    (s.blocked.toList.filterMap fun entry =>
      if entry.2.processId = processId then some entry.1 else none).length

end Scheduler

structure WaitQueue where
  id : ℕ
  waiters : List ℕ
  deriving DecidableEq, Repr

namespace WaitQueue

def new (id : ℕ) : WaitQueue := ⟨id, []⟩

def register (taskId : ℕ) (queue : WaitQueue) : WaitQueue :=
  if queue.waiters.contains taskId then queue
  else { queue with waiters := queue.waiters ++ [taskId] }

end WaitQueue

variable {s : Scheduler} {tid gone : ℕ}

namespace Scheduler

def blockCurrentOn (queue : WaitQueue) (s : Scheduler) : Scheduler × WaitQueue :=
  match s.current with
  | none => (s, queue)
  | some task => (s.blockCurrent, queue.register task.id)

/-- The first waiter leaves the queue, also when it sleeps no longer. -/
def wakeOne (queue : WaitQueue) (s : Scheduler) : Scheduler × WaitQueue :=
  match queue.waiters with
  | [] => (s, queue)
  | taskId :: rest => (s.wakeTask taskId, { queue with waiters := rest })

def wakeAll (queue : WaitQueue) (s : Scheduler) : Scheduler × WaitQueue :=
  (s.wakeTasks queue.waiters, { queue with waiters := [] })

@[simp] theorem scheduleNext_blocked (s : Scheduler) : s.scheduleNext.blocked = s.blocked := by
  unfold scheduleNext
  split <;> rfl

@[simp] theorem yieldNow_blocked (s : Scheduler) : s.yieldNow.blocked = s.blocked := by
  unfold yieldNow
  split
  · exact scheduleNext_blocked s
  · split <;> exact scheduleNext_blocked _

@[simp] theorem spawn_blocked (threadId processId : ℕ) (s : Scheduler) :
    (s.spawn threadId processId).blocked = s.blocked := rfl

theorem isBlocked_blockCurrent {task : Task} (h : s.current = some task) :
    s.blockCurrent.isBlocked task.id = true := by
  simp [isBlocked, blockCurrent, h]

theorem isBlocked_wakeTask (h : s.isBlocked tid = false) (woken : ℕ) :
    (s.wakeTask woken).isBlocked tid = false := by
  unfold wakeTask
  split
  · exact h
  · unfold isBlocked at h ⊢
    rw [contains_erase, h, Bool.and_false]

theorem isBlocked_wakeTasks (h : s.isBlocked tid = false) (woken : List ℕ) :
    (s.wakeTasks woken).isBlocked tid = false := by
  induction woken generalizing s with
  | nil => exact h
  | cons id woken ih => exact ih (isBlocked_wakeTask h id)

theorem removeTask_other (hne : tid ≠ gone) :
    (s.removeTask gone).blocked[tid]? = s.blocked[tid]? := by
  unfold removeTask
  split
  · rfl
  split
  · rfl
  · rw [getElem?_erase, if_neg (by simpa using Ne.symm hne)]

theorem isBlocked_removeTask (h : s.isBlocked tid = false) (gone : ℕ) :
    (s.removeTask gone).isBlocked tid = false := by
  unfold removeTask
  split
  · exact h
  split
  · exact h
  · unfold isBlocked at h ⊢
    rw [contains_erase, h, Bool.and_false]

theorem isBlocked_exitGroup (h : s.isBlocked tid = false) (processId : ℕ) :
    (s.exitGroup processId).isBlocked tid = false := by
  have hnone : s.blocked[tid]? = none := by
    refine getElem?_eq_none fun hmem => ?_
    rw [isBlocked, contains_iff_mem.mpr hmem] at h
    cases h
  unfold isBlocked exitGroup
  rw [contains_eq_isSome_getElem?, getElem?_filter, hnone]
  rfl

end Scheduler

end TaskScheduler
