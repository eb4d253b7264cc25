import Mathlib.Data.List.Nodup
import Mathlib.Data.List.Perm.Subperm
import Mathlib.Logic.Function.Basic

/-! Waiting lists with a double entry: a waiter stands in the queue of a place, and has the place
written down. -/
namespace WaitBook

open Function List

variable {α ι : Type}

structure Book (α ι : Type) where
  queue : α → List ι
  place : ι → Option α

/-- Nobody stands twice, and everybody stands where it has written down. -/
structure Consistent (b : Book α ι) : Prop where
  nodup : ∀ a, (b.queue a).Nodup
  placed : ∀ a i, i ∈ b.queue a → b.place i = some a

theorem Consistent.unique {b : Book α ι} (h : Consistent b) {a c : α} {i : ι}
    (ha : i ∈ b.queue a) (hc : i ∈ b.queue c) : a = c :=
  Option.some.inj ((h.placed a i ha).symm.trans (h.placed c i hc))

/-- Whoever has a place written down stands there or has been called. -/
def Accounted (b : Book α ι) (called : ι → Prop) : Prop :=
  ∀ i a, b.place i = some a → i ∈ b.queue a ∨ called i

structure Leaves (b c : Book α ι) (called : ι → Prop) : Prop where
  subperm : ∀ a, (c.queue a).Subperm (b.queue a)
  stay : ∀ a i, i ∈ c.queue a → b.place i = some a → c.place i = some a
  gone : ∀ i a, c.place i = some a → b.place i = some a ∧ (i ∈ b.queue a → i ∈ c.queue a ∨ called i)

namespace Leaves

variable {b c d : Book α ι} {called called' : ι → Prop}

theorem refl (b : Book α ι) : Leaves b b fun _ => False :=
  ⟨fun _ => .refl _, fun _ _ _ h => h, fun _ _ h => ⟨h, .inl⟩⟩

theorem trans (h : Leaves b c called) (k : Leaves c d called') :
    Leaves b d fun i => called i ∨ called' i where
  subperm a := (k.subperm a).trans (h.subperm a)
  stay a i hi hb := k.stay a i hi (h.stay a i ((k.subperm a).subset hi) hb)
  gone i a hd := by
    obtain ⟨hc, hlast⟩ := k.gone i a hd
    obtain ⟨hb, hfirst⟩ := h.gone i a hc
    refine ⟨hb, fun hi => ?_⟩
    rcases hfirst hi with hi | hcalled
    · exact (hlast hi).imp id .inr
    · exact .inr (.inl hcalled)

theorem mono (h : Leaves b c called) (hsub : ∀ i, called i → called' i) : Leaves b c called' :=
  ⟨h.subperm, h.stay, fun i a hc => ⟨(h.gone i a hc).1,
    fun hi => ((h.gone i a hc).2 hi).imp id (hsub i)⟩⟩

theorem silent (h : Leaves b c fun _ => False) (k : Leaves c d fun _ => False) :
    Leaves b d fun _ => False :=
  (h.trans k).mono fun _ hi => hi.elim id id

theorem consistent (h : Leaves b c called) (hb : Consistent b) : Consistent c where
  nodup a := by
    obtain ⟨l, hperm, hsub⟩ := h.subperm a
    exact hperm.nodup_iff.mp ((hb.nodup a).sublist hsub)
  placed a i hi := h.stay a i hi (hb.placed a i ((h.subperm a).subset hi))

theorem accounted (h : Leaves b c called) (hb : Accounted b called') :
    Accounted c fun i => called' i ∨ called i := by
  intro i a hc
  obtain ⟨hplace, hkept⟩ := h.gone i a hc
  rcases hb i a hplace with hi | hcalled
  · exact (hkept hi).imp id .inr
  · exact .inr (.inl hcalled)

end Leaves

section Moves

variable [DecidableEq α] [DecidableEq ι]

def Book.call (b : Book α ι) (a : α) (n : ℕ) : Book α ι :=
  { b with queue := update b.queue a ((b.queue a).drop n) }

def Book.forget (b : Book α ι) (i : ι) : Book α ι where
  queue a := (b.queue a).filter (· ≠ i)
  place := update b.place i none

def Book.join (b : Book α ι) (a : α) (i : ι) : Book α ι where
  queue := update b.queue a (if i ∈ b.queue a then b.queue a else b.queue a ++ [i])
  place := update b.place i (some a)

variable {b : Book α ι}

omit [DecidableEq ι] in
theorem leaves_call (b : Book α ι) (a : α) (n : ℕ) :
    Leaves b (b.call a n) (· ∈ (b.queue a).take n) := by
  refine ⟨fun c => ?_, fun _ _ _ h => h, fun i c hc => ⟨hc, fun hi => ?_⟩⟩
  · by_cases hca : c = a
    · subst hca
      simpa [Book.call] using (drop_sublist n (b.queue c)).subperm
    · simp [Book.call, hca, List.Subperm.refl]
  · by_cases hca : c = a
    · subst hca
      rw [← take_append_drop n (b.queue c), mem_append] at hi
      simpa [Book.call] using hi.symm
    · exact .inl (by simpa [Book.call, hca] using hi)

omit [DecidableEq α] in
theorem leaves_forget (b : Book α ι) (i : ι) : Leaves b (b.forget i) fun _ => False := by
  refine ⟨fun a => filter_sublist.subperm, fun a j hj hb => ?_, fun j a hc => ?_⟩
  · have hne : j ≠ i := by simpa using (mem_filter.mp hj).2
    simpa [Book.forget, hne] using hb
  · have hne : j ≠ i := by
      rintro rfl
      simp [Book.forget] at hc
    refine ⟨by simpa [Book.forget, hne] using hc, fun hj => .inl ?_⟩
    simpa [Book.forget, hne] using hj

theorem Consistent.join (h : Consistent b) {a : α} {i : ι} (hfree : ∀ c, i ∈ b.queue c → c = a) :
    Consistent (b.join a i) := by
  refine ⟨fun c => ?_, fun c j hj => ?_⟩
  · by_cases hca : c = a
    · subst hca
      simp only [Book.join, update_self]
      split
      · exact h.nodup c
      · next hi => exact nodup_append.mpr ⟨h.nodup c, nodup_singleton i, by grind⟩
    · simpa [Book.join, hca] using h.nodup c
  · have hcases : j ∈ b.queue c ∨ (c = a ∧ j = i) := by
      by_cases hca : c = a
      · subst hca
        simp only [Book.join, update_self] at hj
        split at hj
        · exact .inl hj
        · simpa using hj
      · exact .inl (by simpa [Book.join, hca] using hj)
    by_cases hji : j = i
    · subst hji
      have hca : c = a := hcases.elim (hfree c) fun h => h.1
      simp [Book.join, hca]
    · have hmem := hcases.resolve_right fun h => hji h.2
      simpa [Book.join, hji] using h.placed c j hmem

/-- Whoever joins is no longer among those who were called before. -/
theorem Accounted.join {called : ι → Prop} (h : Accounted b called) (a : α) (i : ι) :
    Accounted (b.join a i) fun j => called j ∧ j ≠ i := by
  intro j c hc
  by_cases hji : j = i
  · subst hji
    have hca : c = a := by simpa [Book.join, eq_comm] using hc
    subst hca
    refine .inl ?_
    simp only [Book.join, update_self]
    split
    · assumption
    · simp
  · have hplace : b.place j = some c := by simpa [Book.join, hji] using hc
    refine (h j c hplace).imp (fun hmem => ?_) fun hcalled => ⟨hcalled, hji⟩
    by_cases hca : c = a
    · subst hca
      simp only [Book.join, update_self]
      split
      · exact hmem
      · exact mem_append_left _ hmem
    · simpa [Book.join, hca] using hmem

end Moves

end WaitBook
