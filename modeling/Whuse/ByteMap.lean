import Mathlib.Data.Option.Basic
import Mathlib.Tactic.Common

/-! Byte maps: partial maps from addresses to values. A range is read if every address of it has a
value, and written by putting values over it. -/
namespace ByteMap

open List Option

variable {β : Type}

def Defined (m : ℕ → Option β) (a n : ℕ) : Prop := ∀ x, a ≤ x → x < a + n → (m x).isSome

def load (m : ℕ → Option β) : ℕ → ℕ → Option (List β)
  | _, 0 => some []
  | a, n + 1 =>
    match m a with
    | none => none
    | some b => (load m (a + 1) n).map (b :: ·)

def store (m : ℕ → Option β) (a : ℕ) (values : List β) : ℕ → Option β :=
  fun x => if a ≤ x ∧ x < a + values.length then values[x - a]? else m x

variable {m : ℕ → Option β}

theorem load_eq_some_iff {a n : ℕ} {out : List β} :
    load m a n = some out ↔ out.length = n ∧ ∀ i, i < n → m (a + i) = out[i]? := by
  induction n generalizing a out with
  | zero =>
    constructor
    · intro h
      obtain rfl := some.inj h
      exact ⟨rfl, fun i hi => absurd hi (Nat.not_lt_zero i)⟩
    · rintro ⟨hlen, -⟩
      rw [length_eq_zero_iff.mp hlen]
      rfl
  | succ n ih =>
    rw [load]
    rcases hm : m a with _ | b
    · refine ⟨nofun, ?_⟩
      rintro ⟨hlen, hall⟩
      have hfirst := hall 0 (Nat.succ_pos n)
      rw [Nat.add_zero, hm, getElem?_eq_getElem (by omega)] at hfirst
      cases hfirst
    simp only [Option.map_eq_some_iff]
    constructor
    · rintro ⟨rest, hrest, rfl⟩
      obtain ⟨hlen, hall⟩ := ih.mp hrest
      refine ⟨by rw [length_cons, hlen], ?_⟩
      intro i hi
      rcases i with _ | i
      · exact hm
      rw [getElem?_cons_succ, ← hall i (by omega)]
      exact congrArg m (by omega)
    · rintro ⟨hlen, hall⟩
      rcases out with _ | ⟨c, rest⟩
      · cases hlen
      have hfirst := hall 0 (Nat.succ_pos n)
      rw [Nat.add_zero, hm] at hfirst
      refine ⟨rest, ih.mpr ⟨Nat.succ.inj hlen, ?_⟩, by rw [some.inj hfirst]⟩
      intro i hi
      have hnext := hall (i + 1) (by omega)
      rw [getElem?_cons_succ] at hnext
      rw [← hnext]
      exact congrArg m (by omega)

theorem exists_load_iff {a n : ℕ} : (∃ out, load m a n = some out) ↔ Defined m a n := by
  induction n generalizing a with
  | zero => exact ⟨fun _ x hx hlt => absurd hlt (Nat.not_lt.mpr hx), fun _ => ⟨[], rfl⟩⟩
  | succ n ih =>
    rw [load]
    rcases hm : m a with _ | b
    · refine ⟨nofun, ?_⟩
      intro h
      have hfirst := h a (Nat.le_refl a) (by omega)
      rw [hm] at hfirst
      cases hfirst
    constructor
    · rintro ⟨out, hout⟩
      obtain ⟨rest, hrest, -⟩ := Option.map_eq_some_iff.mp hout
      intro x hge hlt
      by_cases hx : x = a
      · rw [hx, hm]
        rfl
      · exact ih.mp ⟨rest, hrest⟩ x (by omega) (by omega)
    · intro h
      have htail : Defined m (a + 1) n := fun x hge hlt => h x (by omega) (by omega)
      obtain ⟨rest, hrest⟩ := ih.mpr htail
      exact ⟨b :: rest, by simp [hrest]⟩

theorem load_add (a k n : ℕ) :
    load m a (k + n) = (load m a k).bind fun out => (load m (a + k) n).map (out ++ ·) := by
  induction k generalizing a with
  | zero => simp [load]
  | succ k ih =>
    have hsum : a + (k + 1) = a + 1 + k := by omega
    rw [Nat.succ_add, load, load]
    rcases m a with _ | b
    · rfl
    simp only [ih, hsum]
    cases load m (a + 1) k with
    | none => rfl
    | some out => cases load m (a + 1 + k) n <;> rfl

theorem store_nil (a : ℕ) : store m a [] = m := by
  funext x
  rw [store, if_neg (by rw [length_nil]; omega)]

theorem store_outside {a x : ℕ} {values : List β} (h : ¬ (a ≤ x ∧ x < a + values.length)) :
    store m a values x = m x := if_neg h

theorem load_store (a : ℕ) (values : List β) :
    load (store m a values) a values.length = some values := by
  refine load_eq_some_iff.mpr ⟨rfl, ?_⟩
  intro i hi
  rw [store, if_pos (by omega), Nat.add_sub_cancel_left]

theorem store_store (a : ℕ) (front back : List β) :
    store (store m a front) (a + front.length) back = store m a (front ++ back) := by
  funext x
  rw [store, store, store, length_append]
  by_cases hfront : a ≤ x ∧ x < a + front.length
  · rw [if_neg (by omega), if_pos hfront, if_pos (by omega), getElem?_append_left (by omega)]
  · by_cases hback : a + front.length ≤ x ∧ x < a + front.length + back.length
    · rw [if_pos hback, if_pos (by omega), getElem?_append_right (by omega), Nat.sub_sub]
    · rw [if_neg hback, if_neg hfront, if_neg (by omega)]

end ByteMap
