import Mathlib.Data.Finset.Sort
import Mathlib.Data.Nat.Bitwise
import Mathlib.Tactic.IntervalCases
import Whuse.AddressSpace

/-! The bit arrays of `pselect6`: one bit for each descriptor. -/
namespace DescriptorSets

open List AddressSpace

def fdSetLen (nfds : ℕ) : ℕ := (nfds + 7) / 8

def marked (raw : List UInt8) (fd : ℕ) : Bool :=
  raw[fd / 8]?.any fun value => value &&& (1 <<< UInt8.ofNat (fd % 8)) != 0

/-- Of the bytes the process has there. -/
def readFdSet (raw : KernelResult (List UInt8)) (nfds : ℕ) : KernelResult (List ℕ) :=
  match raw with
  | .error _ => .error efault
  | .ok raw => .ok ((range nfds).filter (marked raw))

def fdSetBytes (fds : List ℕ) (nfds : ℕ) : List UInt8 :=
  (fds.filter (· < nfds)).foldl
    (fun out fd => out.modify (fd / 8) (· ||| 1 <<< UInt8.ofNat (fd % 8)))
    (replicate (fdSetLen nfds) 0)

def Holds (raw : List UInt8) (fd : ℕ) : Prop :=
  ∃ value, raw[fd / 8]? = some value ∧ value.toNat.testBit (fd % 8) = true

def clearUnused (raw : List UInt8) (nfds : ℕ) : List UInt8 :=
  raw.mapIdx fun j value => UInt8.ofNat (value.toNat % 2 ^ (nfds - 8 * j))

structure RoundTrip (nfds : ℕ) (raw : List UInt8) (fds : List ℕ) : Prop where
  decodes : ∃ found, readFdSet (.ok raw) nfds = .ok found ∧ found.Pairwise (· < ·) ∧
    (∀ fd, fd ∈ found ↔ fd < nfds ∧ Holds raw fd) ∧ fdSetBytes found nfds = clearUnused raw nfds
  length : (fdSetBytes fds nfds).length = fdSetLen nfds
  encodes : ∀ fd, Holds (fdSetBytes fds nfds) fd ↔ fd < nfds ∧ fd ∈ fds
  back : readFdSet (.ok (fdSetBytes fds nfds)) nfds = .ok ((fds.filter (· < nfds)).toFinset.sort)

variable {raw : List UInt8} {fds xs : List ℕ} {nfds fd bit x : ℕ}

theorem toNat_bit (h : bit < 8) : ((1 : UInt8) <<< UInt8.ofNat bit).toNat = 2 ^ bit := by
  interval_cases bit <;> rfl

theorem marked_iff : marked raw fd = true ↔ Holds raw fd := by
  rw [marked, Option.any_eq_true]
  refine exists_congr fun value => and_congr_right fun _ => ?_
  rw [bne_iff_ne, ne_eq, ← UInt8.toNat_inj, UInt8.toNat_and, toNat_bit (Nat.mod_lt _ (by decide)),
    Nat.and_two_pow]
  cases value.toNat.testBit (fd % 8) <;> simp

theorem holds_modify (hx : x / 8 < raw.length) :
    Holds (raw.modify (x / 8) (· ||| 1 <<< UInt8.ofNat (x % 8))) fd ↔ Holds raw fd ∨ fd = x := by
  by_cases hbyte : x / 8 = fd / 8
  · rw [hbyte] at hx ⊢
    have hsame : fd = x ↔ x % 8 = fd % 8 := by omega
    simp [Holds, getElem?_eq_getElem hx, toNat_bit (Nat.mod_lt x (by decide : 0 < 8)),
      Nat.testBit_two_pow, hsame]
  · have hne : fd ≠ x := fun heq => hbyte (by rw [heq])
    simp [Holds, hbyte, hne]

theorem holds_foldl (hxs : ∀ x ∈ xs, x / 8 < raw.length) :
    Holds (xs.foldl (fun out x => out.modify (x / 8) (· ||| 1 <<< UInt8.ofNat (x % 8))) raw) fd ↔
      Holds raw fd ∨ fd ∈ xs := by
  induction xs generalizing raw with
  | nil => simp
  | cons x xs ih =>
    rw [foldl_cons, ih, holds_modify (hxs x mem_cons_self), mem_cons, or_assoc]
    intro y hy
    rw [length_modify]
    exact hxs y (mem_cons_of_mem x hy)

theorem fdSetBytes_length : (fdSetBytes fds nfds).length = fdSetLen nfds := by
  refine foldlRecOn (motive := (length · = fdSetLen nfds)) _ _ length_replicate ?_
  intro out hout fd _
  rw [length_modify, hout]

theorem holds_fdSetBytes : Holds (fdSetBytes fds nfds) fd ↔ fd < nfds ∧ fd ∈ fds := by
  have hempty : ¬ Holds (replicate (fdSetLen nfds) 0) fd := by
    rintro ⟨value, hvalue, hbit⟩
    obtain rfl := eq_of_mem_replicate (mem_of_getElem? hvalue)
    simp at hbit
  rw [fdSetBytes, holds_foldl, or_iff_right hempty, mem_filter, decide_eq_true_eq, and_comm]
  intro x hx
  have hlt := of_decide_eq_true (mem_filter.mp hx).2
  rw [length_replicate, fdSetLen]
  omega

theorem holds_clearUnused : Holds (clearUnused raw nfds) fd ↔ fd < nfds ∧ Holds raw fd := by
  have hbelow : fd % 8 < nfds - 8 * (fd / 8) ↔ fd < nfds := by omega
  have hclear : ∀ value : UInt8, (UInt8.ofNat (value.toNat % 2 ^ (nfds - 8 * (fd / 8)))).toNat =
      value.toNat % 2 ^ (nfds - 8 * (fd / 8)) := fun value =>
    UInt8.toNat_ofNat_of_lt ((Nat.mod_le _ _).trans_lt value.toNat_lt)
  simp [Holds, clearUnused, hclear, hbelow, and_left_comm]

theorem eq_of_holds {a b : List UInt8} (hlen : a.length = b.length)
    (h : ∀ fd, Holds a fd ↔ Holds b fd) : a = b := by
  refine ext_getElem hlen fun j hj hj' => UInt8.toNat_inj.mp (Nat.eq_of_testBit_eq fun i => ?_)
  by_cases hi : i < 8
  · have hbit := h (8 * j + i)
    simp only [Holds, show (8 * j + i) / 8 = j by omega, show (8 * j + i) % 8 = i by omega,
      getElem?_eq_getElem hj, getElem?_eq_getElem hj', Option.some.injEq, exists_eq_left'] at hbit
    exact Bool.eq_iff_iff.mpr hbit
  · have hpow : 2 ^ 8 ≤ 2 ^ i := Nat.pow_le_pow_right (by decide) (not_lt.mp hi)
    rw [Nat.testBit_lt_two_pow (a[j].toNat_lt.trans_le hpow),
      Nat.testBit_lt_two_pow (b[j].toNat_lt.trans_le hpow)]

theorem fd_sets_round_trip (nfds : ℕ) (raw : List UInt8) (fds : List ℕ)
    (hraw : raw.length = fdSetLen nfds) : RoundTrip nfds raw fds := by
  have hmem : ∀ {raw : List UInt8} {fd : ℕ},
      fd ∈ (range nfds).filter (marked raw) ↔ fd < nfds ∧ Holds raw fd := by
    intro raw fd
    rw [mem_filter, mem_range, marked_iff]
  have hsorted : ∀ p : ℕ → Bool, ((range nfds).filter p).Pairwise (· < ·) :=
    fun p => pairwise_lt_range.filter p
  refine ⟨⟨_, rfl, hsorted _, fun _ => hmem, ?_⟩, fdSetBytes_length, fun _ => holds_fdSetBytes, ?_⟩
  · refine eq_of_holds ?_ fun fd => ?_
    · rw [fdSetBytes_length, clearUnused, length_mapIdx, hraw]
    · rw [holds_fdSetBytes, holds_clearUnused, hmem]
      tauto
  · refine congrArg Except.ok (Perm.eq_of_pairwise' (r := (· < ·)) (hsorted _) ?_ ?_)
    · exact Finset.sortedLT_sort _ |>.pairwise
    · rw [perm_ext_iff_of_nodup ((hsorted _).imp ne_of_lt) (Finset.sort_nodup _ _)]
      intro fd
      rw [hmem, holds_fdSetBytes, Finset.mem_sort, mem_toFinset, mem_filter, decide_eq_true_eq]
      tauto

theorem fd_sets_round_trip_ten :
    [(129 : UInt8), 7].length = fdSetLen 10 ∧ RoundTrip 10 [129, 7] [9, 3, 3, 12] :=
  ⟨rfl, fd_sets_round_trip 10 _ _ rfl⟩

end DescriptorSets
