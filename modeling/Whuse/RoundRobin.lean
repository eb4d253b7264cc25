import Mathlib.Data.List.Rotate
import Whuse.TaskScheduler

/-! The order of the ready queue. Whatever is spawned, woken, blocked or exits, the tasks that are
ready run in the order of the queue, and yields alone turn it round. -/
namespace RoundRobin

open TaskScheduler List

/-- A scheduler as the crate can build it: `schedule_next` alone makes a task current. -/
structure Runqueue where
  sched : Scheduler
  running : ∀ t, sched.current = some t → t.state = .running

inductive Op where
  | yieldNow
  | spawn (threadId processId : ℕ)
  | wakeTask (taskId : ℕ)
  | blockCurrent
  | exitCurrent
  deriving DecidableEq, Repr

def Op.apply : Op → Scheduler → Scheduler
  | yieldNow => Scheduler.yieldNow
  | spawn threadId processId => Scheduler.spawn threadId processId
  | wakeTask taskId => Scheduler.wakeTask taskId
  | blockCurrent => Scheduler.blockCurrent
  | exitCurrent => Scheduler.exitCurrent

/-- The operation comes to `schedule_next`. -/
def Op.schedules (s : Scheduler) : Op → Bool
  | yieldNow => true
  | blockCurrent => s.current.isSome
  | _ => false

def run (ops : List Op) (s : Scheduler) : Scheduler := ops.foldl (fun s o => o.apply s) s

/-- How often a run comes to `schedule_next`. -/
def steps : List Op → Scheduler → ℕ
  | [], _ => 0
  | o :: ops, s => (o.schedules s).toNat + steps ops (o.apply s)

def started (t : Task) : Task := { t with state := .running }

variable {s : Scheduler} {o : Op} {t : Task}

theorem scheduleNext_ready (s : Scheduler) : s.scheduleNext.ready = s.ready.tail := by
  unfold Scheduler.scheduleNext
  split
  · next h => rw [h]; rfl
  · next h => rw [h]; rfl

theorem scheduleNext_current (h : s.ready.head? = some t) :
    s.scheduleNext.current = some (started t) := by
  obtain ⟨rest, hready⟩ := head?_eq_some_iff.mp h
  simp [Scheduler.scheduleNext, hready, started]

/-- An operation puts tasks at the end of the queue, and then schedules or not. -/
theorem apply_cases (o : Op) (s : Scheduler) :
    ∃ (u : Scheduler) (more : List Task), u.ready = s.ready ++ more ∧
      o.apply s = if o.schedules s then u.scheduleNext else u := by
  cases o with
  | yieldNow =>
    simp only [Op.apply, Scheduler.yieldNow]
    rcases s.current with _ | task
    · exact ⟨s, [], (append_nil _).symm, rfl⟩
    dsimp only
    split
    · exact ⟨{ s with current := none }, [], (append_nil _).symm, rfl⟩
    · exact ⟨_, _, rfl, rfl⟩
  | spawn threadId processId => exact ⟨s.spawn threadId processId, _, rfl, rfl⟩
  | wakeTask taskId =>
    simp only [Op.apply, Scheduler.wakeTask]
    cases s.blocked[taskId]? with
    | none => exact ⟨s, [], (append_nil _).symm, rfl⟩
    | some task => exact ⟨_, _, rfl, rfl⟩
  | blockCurrent =>
    rcases hcur : s.current with _ | task
    · refine ⟨s, [], (append_nil _).symm, ?_⟩
      simp [Op.apply, Op.schedules, hcur, Scheduler.blockCurrent]
    refine ⟨{ s with
      current := none
      blocked := s.blocked.insert task.id { task with state := .blocked } }, [],
      (append_nil _).symm, ?_⟩
    simp [Op.apply, Op.schedules, hcur, Scheduler.blockCurrent]
  | exitCurrent => exact ⟨s.exitCurrent, [], (append_nil _).symm, rfl⟩

theorem apply_ready (o : Op) (s : Scheduler) :
    s.ready.drop (o.schedules s).toNat <+: (o.apply s).ready := by
  obtain ⟨u, more, hready, happly⟩ := apply_cases o s
  have hfirst : s.ready <+: u.ready := ⟨more, hready.symm⟩
  rw [happly]
  cases o.schedules s with
  | false => exact hfirst
  | true =>
    rw [if_pos rfl, scheduleNext_ready, ← drop_one]
    exact hfirst.drop 1

theorem apply_current (hs : o.schedules s = true) (h : s.ready.head? = some t) :
    (o.apply s).current = some (started t) := by
  obtain ⟨u, more, hready, happly⟩ := apply_cases o s
  rw [happly, if_pos hs]
  apply scheduleNext_current
  rw [hready, head?_append, h]
  rfl

/-- The queue of a run begins with what is left of the old one. -/
theorem run_ready (ops : List Op) (s : Scheduler) :
    s.ready.drop (steps ops s) <+: (run ops s).ready := by
  induction ops generalizing s with
  | nil => exact prefix_rfl
  | cons o ops ih =>
    rw [steps, ← drop_drop]
    exact ((apply_ready o s).drop _).trans (ih (o.apply s))

def label (t : Task) : ℕ × ℕ := (t.id, t.processId)

/-- The current task and those that are ready, in the order in which they run. -/
def ring (s : Scheduler) : List (ℕ × ℕ) := (s.current.toList ++ s.ready).map label

def yields (m : ℕ) (s : Scheduler) : Scheduler := Scheduler.yieldNow^[m] s

theorem yieldNow_ring (h : s.current = some t) (hrun : t.state = .running) :
    (∃ u, s.yieldNow.current = some u ∧ u.state = .running) ∧
      ring s.yieldNow = (ring s).rotate 1 := by
  have hlive : ¬ t.state = .exited := by
    rw [hrun]
    decide
  simp only [Scheduler.yieldNow, h, if_neg hlive, ring, Option.toList_some, singleton_append,
    map_cons, rotate_cons_succ]
  cases hready : s.ready with
  | nil => exact ⟨⟨_, rfl, rfl⟩, rfl⟩
  | cons u rest =>
    refine ⟨⟨_, rfl, rfl⟩, ?_⟩
    simp [Scheduler.scheduleNext, label]

theorem yields_ring (m : ℕ) (h : s.current = some t) (hrun : t.state = .running) :
    ((yields m s).current.map label) = (ring (yields m s)).head? ∧
      ring (yields m s) = (ring s).rotate m := by
  induction m generalizing s t with
  | zero =>
    simp [yields, ring, h]
  | succ m ih =>
    obtain ⟨⟨u, hu, hstate⟩, hring⟩ := yieldNow_ring h hrun
    obtain ⟨hhead, hrest⟩ := ih hu hstate
    refine ⟨hhead, hrest.trans ?_⟩
    rw [hring, rotate_rotate, Nat.add_comm 1 m]

/-- The task at position `k` runs at the scheduling after `k` others, until then the queue begins
with it and those before it, and yields alone run the tasks in a circle. -/
theorem ready_tasks_take_turns (q : Runqueue) :
    (∀ (ops : List Op) (o : Op) (k : ℕ) (t : Task), q.sched.ready[k]? = some t →
      steps ops q.sched = k → o.schedules (run ops q.sched) = true →
        (o.apply (run ops q.sched)).current = some (started t)) ∧
    (∀ ops, q.sched.ready.drop (steps ops q.sched) <+: (run ops q.sched).ready) ∧
    (q.sched.current.isSome → ∀ m, (List.range' (m + 1) (q.sched.ready.length + 1)).map
          (fun i => (yields i q.sched).current.map label) =
        ((ring q.sched).rotate (m + 1)).map some) := by
  refine ⟨fun ops o k t hk hsteps hs => ?_, fun ops => run_ready ops q.sched, fun hsome m => ?_⟩
  · subst hsteps
    obtain ⟨rest, hready⟩ := run_ready ops q.sched
    refine apply_current hs ?_
    rw [← hready, head?_append, head?_drop, hk]
    rfl
  · obtain ⟨t, ht⟩ := Option.isSome_iff_exists.mp hsome
    have hlength : (ring q.sched).length = q.sched.ready.length + 1 := by
      simp [ring, ht]
    apply ext_getElem?
    intro j
    by_cases hj : j < q.sched.ready.length + 1
    · obtain ⟨hhead, hring⟩ := yields_ring (m + 1 + j) ht (q.running t ht)
      rw [getElem?_map, getElem?_range' hj, getElem?_map]
      simp only [Option.map_some, Nat.one_mul]
      have hin : j < ((ring q.sched).rotate (m + 1)).length := by rwa [length_rotate, hlength]
      rw [hhead, hring, ← rotate_rotate, head?_rotate hin, getElem?_eq_getElem hin]
      rfl
    · rw [getElem?_eq_none (by simp; omega), getElem?_eq_none (by simp; omega)]

def pair : Runqueue := ⟨((Scheduler.new.spawn 1 1).spawn 2 2).start, by
  rintro t ⟨⟩
  rfl⟩

theorem ready_tasks_take_turns_pair :
    (List.range' 1 2).map (fun i => (yields i pair.sched).current.map label) =
      [some (2, 2), some (1, 1)] :=
  (ready_tasks_take_turns pair).2.2 rfl 0

end RoundRobin
