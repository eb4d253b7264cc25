import Whuse.FutexRuns

/-! # The order of futex waiters

A wake takes waiters from the front of a queue, a requeue puts the next ones at the end of
another queue, and the map of the queues never keeps an empty one.
-/
namespace FutexOrder

open Std (ExtTreeMap)
open ProcessTable ProcessTable.Table AgreementRuns FutexQueues FutexRuns Function List Option

/-- The loop of both operations: what was taken so far, and the queue. -/
def popFront : ℕ → List ℕ → List ℕ → List ℕ × List ℕ
  | 0, taken, waiters => (taken, waiters)
  | _ + 1, taken, [] => (taken, [])
  | count + 1, taken, tid :: waiters => popFront count (taken ++ [tid]) waiters

theorem popFront_eq (count : ℕ) (taken waiters : List ℕ) :
    popFront count taken waiters = (taken ++ waiters.take count, waiters.drop count) := by
  induction count generalizing taken waiters with
  | zero => simp [popFront]
  | succ count ih =>
    cases waiters with
    | nil => simp [popFront]
    | cons tid waiters => simp [popFront, ih]

theorem wakeFutex_eq_popFront (a count : ℕ) (t : Table) : t.wakeFutex a count =
      match t.futexWaiters[a]? with
      | none => ([], t)
      | some waiters =>
        ((popFront count [] waiters).1, t.setQueue a (popFront count [] waiters).2) := by
  unfold wakeFutex
  cases t.futexWaiters[a]? with
  | none => rfl
  | some waiters => simp [popFront_eq]

/-- With this the queues determine the map. -/
def NoEmptyQueue (t : Table) : Prop :=
  ∀ (a : ℕ) (waiters : List ℕ), t.futexWaiters[a]? = some waiters → waiters ≠ []

variable {t : Table}

theorem NoEmptyQueue.insert (h : NoEmptyQueue t) (a : ℕ) {waiters : List ℕ} (hne : waiters ≠ []) :
    NoEmptyQueue { t with futexWaiters := t.futexWaiters.insert a waiters } := by
  intro b ws hget
  rw [ExtTreeMap.getElem?_insert] at hget
  by_cases hb : compare a b = .eq
  · rw [if_pos hb] at hget
    rwa [← some.inj hget]
  · rw [if_neg hb] at hget
    exact h b ws hget

theorem NoEmptyQueue.setQueue (h : NoEmptyQueue t) (a : ℕ) (waiters : List ℕ) :
    NoEmptyQueue (t.setQueue a waiters) := by
  unfold Table.setQueue
  by_cases hempty : waiters.isEmpty = true
  · intro b ws hget
    rw [if_pos hempty, ExtTreeMap.getElem?_erase] at hget
    by_cases hb : compare a b = .eq
    · rw [if_pos hb] at hget
      cases hget
    · rw [if_neg hb] at hget
      exact h b ws hget
  · rw [if_neg hempty]
    apply h.insert
    intro hnil
    exact hempty (List.isEmpty_iff.mpr hnil)

theorem NoEmptyQueue.wakeFutex (h : NoEmptyQueue t) (a count : ℕ) :
    NoEmptyQueue (t.wakeFutex a count).2 := by
  unfold Table.wakeFutex
  cases t.futexWaiters[a]? with
  | none => exact h
  | some waiters => exact h.setQueue a _

theorem NoEmptyQueue.requeueFutex (h : NoEmptyQueue t) (source target wake requeue : ℕ) :
    NoEmptyQueue (t.requeueFutex source target wake requeue).2 := by
  have hsecond := (h.wakeFutex source wake).wakeFutex source requeue
  unfold Table.requeueFutex
  dsimp only
  split
  · exact hsecond
  next hmoved =>
  apply hsecond.insert
  intro hnil
  exact hmoved (List.isEmpty_iff.mpr (append_eq_nil_iff.mp hnil).2)

/-- Waiters are moved to the target after they have left the source, so that one may be the
other. -/
theorem requeueFutex_queue (source target wake requeue : ℕ) (t : Table) :
    (t.requeueFutex source target wake requeue).1 = (queue t source).take wake ∧
      queue (t.requeueFutex source target wake requeue).2 = update
          (update (queue t) source ((queue t source).drop (wake + requeue))) target
          (update (queue t) source ((queue t source).drop (wake + requeue)) target ++
            ((queue t source).drop wake).take requeue) := by
  obtain ⟨hwoke, hfirst⟩ := wakeFutex_queue source wake t
  obtain ⟨hmoved, hsecond⟩ := wakeFutex_queue source requeue (t.wakeFutex source wake).2
  rw [hfirst, update_self] at hmoved hsecond
  rw [update_idem, drop_drop] at hsecond
  have hanswer : (t.requeueFutex source target wake requeue).1 = (t.wakeFutex source wake).1 := by
    unfold Table.requeueFutex
    dsimp only
    split <;> rfl
  refine ⟨hanswer.trans hwoke, ?_⟩
  rw [← hmoved, ← hsecond]
  unfold Table.requeueFutex
  dsimp only
  split
  · next hnil => rw [List.isEmpty_iff.mp hnil, append_nil, update_eq_self]
  · exact queue_append target _ _

/-- Wake and requeue are first in, first out and lose nobody. -/
theorem futex_waiters_in_order (h : NoEmptyQueue t) (source target wake requeue : ℕ) :
    (t.wakeFutex source wake).1 = (queue t source).take wake ∧
    queue (t.wakeFutex source wake).2 = update (queue t) source ((queue t source).drop wake) ∧
    NoEmptyQueue (t.wakeFutex source wake).2 ∧
    (t.requeueFutex source target wake requeue).1 = (queue t source).take wake ∧
    (source ≠ target → queue (t.requeueFutex source target wake requeue).2 source =
        (queue t source).drop (wake + requeue) ∧
      queue (t.requeueFutex source target wake requeue).2 target =
        queue t target ++ ((queue t source).drop wake).take requeue) ∧
    (source = target → ((t.requeueFutex source target wake requeue).1 ++
        queue (t.requeueFutex source target wake requeue).2 source).Perm (queue t source)) ∧
    (∀ a, a ≠ source → a ≠ target →
      queue (t.requeueFutex source target wake requeue).2 a = queue t a) ∧
    NoEmptyQueue (t.requeueFutex source target wake requeue).2 := by
  obtain ⟨hwake, hleft⟩ := wakeFutex_queue source wake t
  obtain ⟨hwoke, hqueue⟩ := requeueFutex_queue source target wake requeue t
  refine ⟨hwake, hleft, h.wakeFutex source wake, hwoke, ?_, ?_, ?_,
    h.requeueFutex source target wake requeue⟩
  · intro hne
    rw [hqueue]
    simp [hne, hne.symm]
  · intro heq
    subst heq
    rw [hqueue, hwoke, update_self, update_self, ← drop_drop]
    -- What stays and what moves change places.
    have hturn : (((queue t source).drop wake).drop requeue ++
        ((queue t source).drop wake).take requeue).Perm ((queue t source).drop wake) := by
      rw [perm_append_comm.congr_left, take_append_drop]
    exact (hturn.append_left _).trans (by rw [take_append_drop])
  · intro a hsource htarget
    rw [hqueue, update_of_ne htarget, update_of_ne hsource]

/-- Three threads wait at one address. -/
def threeWaiting : Table :=
  { emptyTable CallRuns.board with futexWaiters := (∅ : ExtTreeMap ℕ (List ℕ)).insert 16 [5, 6, 7] }

theorem threeWaiting_noEmptyQueue : NoEmptyQueue threeWaiting := by
  intro a waiters hget
  simp only [threeWaiting, ExtTreeMap.getElem?_insert] at hget
  split at hget
  · rw [← some.inj hget]
    decide
  · simp at hget

theorem futex_waiters_in_order_three :
    NoEmptyQueue threeWaiting ∧ (threeWaiting.requeueFutex 16 32 1 1).1 = [5] ∧
      queue (threeWaiting.requeueFutex 16 32 1 1).2 16 = [7] ∧
      queue (threeWaiting.requeueFutex 16 32 1 1).2 32 = [6] := by
  obtain ⟨-, -, -, hwoke, hne, -⟩ := futex_waiters_in_order threeWaiting_noEmptyQueue 16 32 1 1
  obtain ⟨hsource, htarget⟩ := hne (by decide)
  exact ⟨threeWaiting_noEmptyQueue, hwoke.trans (by decide), hsource.trans (by decide),
    htarget.trans (by decide)⟩

end FutexOrder
