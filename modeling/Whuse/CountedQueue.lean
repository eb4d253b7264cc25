import Mathlib.Tactic.Common

/-! A queue with two counted ends. Reading takes from the front; an empty queue tells a reader
to wait while the writing end is open and that nothing will come once it is not. What was put
in is what was taken out followed by what is left. -/
namespace CountedQueue

variable {α : Type*}

structure Queue (α : Type*) where
  buf : List α
  readers : ℕ
  writers : ℕ
  deriving DecidableEq, Repr

inductive ReadAnswer (α : Type*) where
  | data (items : List α)
  | closed
  | wait
  deriving DecidableEq, Repr

namespace Queue

def readAnswer (n : ℕ) (q : Queue α) : ReadAnswer α :=
  if q.buf.isEmpty then if q.writers = 0 then .closed else .wait else .data (q.buf.take n)

def afterRead (n : ℕ) (q : Queue α) : Queue α := { q with buf := q.buf.drop n }

def accepts (q : Queue α) : Bool := q.readers != 0

def afterWrite (items : List α) (q : Queue α) : Queue α := { q with buf := q.buf ++ items }

@[simp] theorem readAnswer_closed {n : ℕ} {q : Queue α} :
    q.readAnswer n = .closed ↔ q.buf = [] ∧ q.writers = 0 := by
  unfold readAnswer
  cases q.buf with
  | nil => by_cases hw : q.writers = 0 <;> simp [hw]
  | cons a l => simp

@[simp] theorem readAnswer_wait {n : ℕ} {q : Queue α} :
    q.readAnswer n = .wait ↔ q.buf = [] ∧ q.writers ≠ 0 := by
  unfold readAnswer
  cases q.buf with
  | nil => by_cases hw : q.writers = 0 <;> simp [hw]
  | cons a l => simp

theorem readAnswer_data {n : ℕ} {q : Queue α} {items : List α} :
    q.readAnswer n = .data items ↔ q.buf ≠ [] ∧ items = q.buf.take n := by
  unfold readAnswer
  cases q.buf with
  | nil => by_cases hw : q.writers = 0 <;> simp [hw]
  | cons a l => simp [eq_comm]

end Queue

structure History (α : Type*) where
  accepted : List α
  returned : List α
  deriving DecidableEq, Repr

namespace History

def Balanced (h : History α) (q : Queue α) : Prop := h.accepted = h.returned ++ q.buf

section

variable {h : History α} {q : Queue α} (hb : h.Balanced q)
include hb

theorem Balanced.isPrefix : h.returned <+: h.accepted := ⟨q.buf, hb.symm⟩

theorem Balanced.read (n : ℕ) :
    Balanced { h with returned := h.returned ++ q.buf.take n } (q.afterRead n) := by
  simp only [Balanced, Queue.afterRead, List.append_assoc, List.take_append_drop]
  exact hb

theorem Balanced.write (items : List α) :
    Balanced { h with accepted := h.accepted ++ items } (q.afterWrite items) := by
  simp only [Balanced, Queue.afterWrite] at hb ⊢
  rw [hb, List.append_assoc]

end

end History

end CountedQueue
