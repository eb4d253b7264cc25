import Mathlib.Data.Nat.Bitwise
import Mathlib.Tactic.Common

/-! Unsigned 64-bit machine words as natural numbers.
Plain sums wrap, as they do in an optimised build; the checked and the saturating
forms are separate functions. Masks are bitwise, and lemmas turn them into division. -/
namespace MachineWord

def usizeMax : ℕ := 2 ^ 64 - 1

@[irreducible] def wrappingAdd (a b : ℕ) : ℕ := (a + b) % 2 ^ 64

@[irreducible] def wrappingSub (a b : ℕ) : ℕ := (a + (2 ^ 64 - b)) % 2 ^ 64

@[irreducible] def checkedAdd (a b : ℕ) : Option ℕ := if a + b ≤ usizeMax then some (a + b) else none

@[irreducible] def saturatingAdd (a b : ℕ) : ℕ := min (a + b) usizeMax

/-- `value & !(alignment - 1)`: the complement of a word is its distance from the maximum. -/
@[irreducible] def alignDown (value alignment : ℕ) : ℕ := value &&& (usizeMax - (alignment - 1))

def alignUp (value alignment : ℕ) : ℕ := alignDown (wrappingAdd value (alignment - 1)) alignment

variable {a b k m c v n : ℕ}

theorem wrappingAdd_of_le (h : a + b ≤ usizeMax) : wrappingAdd a b = a + b := by
  unfold usizeMax at h
  unfold wrappingAdd
  exact Nat.mod_eq_of_lt (by omega)

theorem wrappingAdd_le (a b : ℕ) : wrappingAdd a b ≤ usizeMax := by
  unfold wrappingAdd usizeMax
  omega

theorem wrappingSub_of_le (ha : a ≤ usizeMax) (h : b ≤ a) : wrappingSub a b = a - b := by
  unfold usizeMax at ha
  have hsum : a + (2 ^ 64 - b) = a - b + 2 ^ 64 := by omega
  rw [wrappingSub, hsum, Nat.add_mod_right]
  exact Nat.mod_eq_of_lt (by omega)

theorem checkedAdd_eq_some : checkedAdd a b = some c ↔ a + b ≤ usizeMax ∧ c = a + b := by
  unfold checkedAdd
  split <;> rename_i h <;> simp [h, eq_comm]

theorem checkedAdd_eq_none : checkedAdd a b = none ↔ usizeMax < a + b := by
  unfold checkedAdd
  split <;> rename_i h <;> simp <;> omega

theorem checkedAdd_of_le (h : a + b ≤ usizeMax) : checkedAdd a b = some (a + b) :=
  checkedAdd_eq_some.mpr ⟨h, rfl⟩

theorem saturatingAdd_of_le (h : a + b ≤ usizeMax) : saturatingAdd a b = a + b := by
  unfold saturatingAdd
  exact Nat.min_eq_left h

private theorem complement_low_mask (hk : k ≤ 64) :
    usizeMax - (2 ^ k - 1) = (2 ^ (64 - k) - 1) <<< k := by
  have hp : 2 ^ 64 = 2 ^ (64 - k) * 2 ^ k := by rw [← pow_add]; congr 1; omega
  have hpos : 0 < 2 ^ k := Nat.two_pow_pos k
  rw [Nat.shiftLeft_eq, Nat.sub_mul, usizeMax]
  omega

theorem alignDown_two_pow (hv : v ≤ usizeMax) (hk : k ≤ 64) :
    alignDown v (2 ^ k) = v / 2 ^ k * 2 ^ k := by
  have hlt : v < 2 ^ 64 := by unfold usizeMax at hv; omega
  rw [alignDown, complement_low_mask hk, ← Nat.shiftRight_eq_div_pow, ← Nat.shiftLeft_eq]
  apply Nat.eq_of_testBit_eq
  intro i
  by_cases hi : k ≤ i
  · have hadd : k + (i - k) = i := by omega
    by_cases h64 : i < 64
    · simp [hi, show i - k < 64 - k by omega]
    · have hb : v.testBit i = false :=
        Nat.testBit_lt_two_pow (lt_of_lt_of_le hlt (Nat.pow_le_pow_right (by decide) (by omega)))
      simp [hadd, hb]
  · simp [hi]

theorem alignUp_two_pow (hk : k ≤ 64) (hv : v + (2 ^ k - 1) ≤ usizeMax) :
    alignUp v (2 ^ k) = (v + (2 ^ k - 1)) / 2 ^ k * 2 ^ k := by
  rw [alignUp, wrappingAdd_of_le hv, alignDown_two_pow hv hk]

theorem and_low_mask (hm : m < 2 ^ k) : a &&& m = a % 2 ^ k &&& m := by
  have hself : (2 ^ k - 1) &&& m = m := by
    rw [Nat.and_comm, Nat.and_two_pow_sub_one_eq_mod, Nat.mod_eq_of_lt hm]
  calc a &&& m = a &&& ((2 ^ k - 1) &&& m) := by rw [hself]
    _ = a % 2 ^ k &&& m := by rw [← Nat.and_assoc, Nat.and_two_pow_sub_one_eq_mod]

theorem shiftLeft_or {h l : ℕ} (hl : l < 2 ^ k) : h <<< k ||| l = h * 2 ^ k + l := by
  rw [Nat.shiftLeft_eq, Nat.mul_comm, Nat.two_pow_add_eq_or_of_lt hl]

end MachineWord
