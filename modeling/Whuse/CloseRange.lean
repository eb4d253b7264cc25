import Whuse.AliasGroups
import Whuse.PipeWakeups
import Whuse.RecordLocks

/-! `close_range` against one `close` for each number of the range. What lies behind a descriptor is
known by its number: the path of the handle, and what the file system answers and becomes when
the handle goes. -/
namespace CloseRange

open DescriptorTable AliasGroups RecordLocks TaskScheduler AddressSpace Std.ExtTreeMap

structure Behind (V : Type) where
  path : ℤ → String
  /-- Whether it was a pipe, and the file system without the handle. -/
  drop : ℤ → V → Bool × V

structure World (V : Type) where
  table : FdTable
  locks : List RecordLock
  scheduler : Scheduler
  vfs : V

variable {V : Type} (b : Behind V) (owner : ℕ)

def wakeIf (wake : Bool) (w : World V) : World V :=
  if wake then { w with scheduler := w.scheduler.wakeAllBlocked } else w

/-- What both calls do to an open descriptor, and whether they wake the blocked tasks for it. -/
def closeOne (fd : ℤ) (w : World V) : Bool × World V :=
  let (pipe, vfs) := b.drop fd w.vfs
  let (released, locks) := clearForOwnerPath owner (b.path fd) w.locks
  (pipe || released, { w with table := (w.table.closeFd fd).2, locks, vfs })

def sysClose (fd : ℤ) (w : World V) : KernelResult ℕ × World V :=
  match w.table.fd fd with
  | .error e => (.error e, w)
  | .ok _ => (.ok 0, wakeIf (closeOne b owner fd w).1 (closeOne b owner fd w).2)

def closeStep (out : Bool × World V) (fd : ℤ) : Bool × World V :=
  match out.2.table.fd fd with
  | .error _ => out
  | .ok _ => (out.1 || (closeOne b owner fd out.2).1, (closeOne b owner fd out.2).2)

def interval (lo hi : ℤ) : List ℤ := (List.range (hi + 1 - lo).toNat).map fun i : ℕ => lo + i

/-- The cast of a bound to `i32`. -/
def asI32 (n : ℕ) : ℤ := (BitVec.ofNat 32 n).toInt

def sysCloseRange (first last : ℕ) (w : World V) : KernelResult ℕ × World V :=
  let out := (interval (asI32 first) (asI32 last)).foldl (closeStep b owner) (false, w)
  (.ok 0, wakeIf out.1 out.2)

/-- One `close` after the other. -/
def closeAll (fds : List ℤ) (w : World V) : World V :=
  fds.foldl (fun w fd => (sysClose b owner fd w).2) w

structure Exact (first last : ℕ) (w : World V) : Prop where
  closes : first ≤ last →
    sysCloseRange b owner first last w = (.ok 0, closeAll b owner (interval first last) w)
  only : first ≤ last → ∀ fd : ℤ, (sysCloseRange b owner first last w).2.table.fds[fd]? =
    if first ≤ fd ∧ fd ≤ last then none else w.table.fds[fd]?
  rejects : last < first → ∃ e, (sysCloseRange b owner first last w).1 = .error e

variable {b owner} {w : World V} {fds : List ℤ} {fd : ℤ} {n : ℕ}

theorem asI32_small (h : n < 2 ^ 31) : asI32 n = n := by
  rw [asI32, BitVec.toInt, BitVec.toNat_ofNat]
  omega

theorem asI32_neg (h : 2 ^ 31 ≤ n) (hn : n < 2 ^ 32) : asI32 n < 0 := by
  rw [asI32, BitVec.toInt, BitVec.toNat_ofNat]
  omega

theorem mem_interval {lo hi : ℤ} : fd ∈ interval lo hi ↔ lo ≤ fd ∧ fd ≤ hi := by
  simp only [interval, List.mem_map, List.mem_range]
  constructor
  · rintro ⟨i, hlt, rfl⟩
    omega
  · intro h
    exact ⟨(fd - lo).toNat, by omega, by omega⟩

theorem wakeIf_table (x : Bool) : (wakeIf x w).table = w.table := by cases x <;> rfl

/-- After the first wake nobody is blocked. -/
theorem wakeIf_wakeIf (x y : Bool) : wakeIf y (wakeIf x w) = wakeIf (x || y) w := by
  rcases x with _ | _
  · rfl
  rcases y with _ | _
  · rfl
  have hkeys : w.scheduler.wakeAllBlocked.blocked.keys = [] := by
    apply List.eq_nil_iff_forall_not_mem.mpr
    intro tid hmem
    have hawake := PipeWakeups.awake_wakeAllBlocked w.scheduler tid
    rw [Scheduler.isBlocked, contains_iff_mem.mpr (mem_keys.mp hmem)] at hawake
    cases hawake
  exact congrArg (fun ids => { w with scheduler := w.scheduler.wakeAllBlocked.wakeTasks ids })
    hkeys

theorem closeOne_wakeIf (x : Bool) : closeOne b owner fd (wakeIf x w) =
    ((closeOne b owner fd w).1, wakeIf x (closeOne b owner fd w).2) := by
  cases x <;> rfl

/-- The loop wakes once, at its end. -/
theorem foldl_closeStep (fds : List ℤ) (wake : Bool) (w : World V) :
    wakeIf (fds.foldl (closeStep b owner) (wake, w)).1 (fds.foldl (closeStep b owner) (wake, w)).2 =
      closeAll b owner fds (wakeIf wake w) := by
  induction fds generalizing wake w with
  | nil => rfl
  | cons fd fds ih =>
    have hstep : (sysClose b owner fd (wakeIf wake w)).2 =
        wakeIf (closeStep b owner (wake, w) fd).1 (closeStep b owner (wake, w) fd).2 := by
      rw [sysClose, closeStep, wakeIf_table]
      cases w.table.fd fd with
      | error e => rfl
      | ok h => rw [closeOne_wakeIf, wakeIf_wakeIf]
    rw [List.foldl_cons, ih, closeAll, closeAll, List.foldl_cons, hstep]

theorem sysClose_get (fd k : ℤ) : (sysClose b owner fd w).2.table.fds[k]? =
    if k = fd then none else w.table.fds[k]? := by
  rw [sysClose, FdTable.fd]
  cases hfd : w.table.fds[fd]? with
  | none =>
    by_cases hk : k = fd
    · rw [if_pos hk, hk, hfd]
    · rw [if_neg hk]
  | some handle =>
    have hopen : w.table.fds.contains fd = true := by
      rw [contains_eq_isSome_getElem?, hfd]; rfl
    simp only [wakeIf_table, closeOne, closeFd_eq, hopen, closed]
    simp [getElem?_erase, @eq_comm _ fd]

theorem closeAll_get (fds : List ℤ) (k : ℤ) (w : World V) :
    (closeAll b owner fds w).table.fds[k]? = if k ∈ fds then none else w.table.fds[k]? := by
  induction fds generalizing w with
  | nil => rfl
  | cons fd fds ih =>
    rw [closeAll, List.foldl_cons, ← closeAll, ih, sysClose_get]
    by_cases hk : k = fd <;> by_cases hmem : k ∈ fds <;> simp [hk]

theorem closeAll_closed (h : ∀ fd ∈ fds, ¬ w.table.fds.contains fd = true) :
    closeAll b owner fds w = w := by
  induction fds with
  | nil => rfl
  | cons fd fds ih =>
    have hnone : w.table.fds[fd]? = none := getElem?_eq_none_of_contains_eq_false
      (Bool.eq_false_of_not_eq_true (h fd List.mem_cons_self))
    have hone : (sysClose b owner fd w).2 = w := by rw [sysClose, FdTable.fd, hnone]
    rw [closeAll, List.foldl_cons, hone]
    exact ih fun fd' hmem => h fd' (List.mem_cons_of_mem _ hmem)

variable (b owner w) in
theorem sysCloseRange_eq (first last : ℕ) : sysCloseRange b owner first last w =
    (.ok 0, closeAll b owner (interval (asI32 first) (asI32 last)) w) :=
  congrArg (Prod.mk _) (foldl_closeStep _ false w)

theorem closeAll_interval (lo hi : ℤ) : (closeAll b owner (interval lo hi) w).table.fds[fd]? =
    if lo ≤ fd ∧ fd ≤ hi then none else w.table.fds[fd]? := by
  rw [closeAll_get]
  simp [mem_interval]

/-- The call does what the closes would exactly if its bounds are in order and below 2³¹, or
nothing is open between them, read either way. -/
theorem close_range_exact_iff {first last : ℕ} (hlast : last < 2 ^ 32) :
    Exact b owner first last w ↔ first ≤ last ∧ (last < 2 ^ 31 ∨ ∀ fd : ℤ,
      w.table.fds.contains fd = true → ¬ (first ≤ fd ∧ fd ≤ last) ∧
        ¬ (asI32 first ≤ fd ∧ fd ≤ asI32 last)) := by
  constructor
  · intro h
    have hle : first ≤ last := by
      by_contra hlt
      obtain ⟨e, he⟩ := h.rejects (by omega)
      cases he
    refine ⟨hle, or_iff_not_imp_left.mpr fun hwide fd hopen => ?_⟩
    -- the two readings of the bounds share no number, so an open one lies in neither
    have hneg := asI32_neg (by omega) hlast
    obtain ⟨handle, hhandle⟩ := Option.isSome_iff_exists.mp
      (contains_eq_isSome_getElem?.symm.trans hopen)
    have honly := h.only hle fd
    rw [sysCloseRange_eq, closeAll_interval, hhandle] at honly
    split_ifs at honly with hin hin' hin'
    · omega
    · exact ⟨hin', hin⟩
  · rintro ⟨hle, hrange⟩
    have hcloses : sysCloseRange b owner first last w =
        (.ok 0, closeAll b owner (interval first last) w) := by
      rw [sysCloseRange_eq]
      rcases hrange with hnarrow | hclosed
      · rw [asI32_small hnarrow, asI32_small (by omega)]
      · rw [closeAll_closed fun fd hmem hopen => (hclosed fd hopen).2 (mem_interval.mp hmem),
          closeAll_closed fun fd hmem hopen => (hclosed fd hopen).1 (mem_interval.mp hmem)]
    refine ⟨fun _ => hcloses, fun _ fd => ?_, fun hlt => absurd hlt (by omega)⟩
    rw [hcloses, closeAll_interval]

def quiet : Behind Unit := ⟨fun _ => "", fun _ v => (false, v)⟩

def shell : World Unit := ⟨.seeded ⟨0, 0, 0⟩ ⟨0, 0, 0⟩ ⟨0, 0, 0⟩, [], .new, ()⟩

theorem close_range_exact_two : Exact quiet 1 1 2 shell :=
  (close_range_exact_iff (by decide)).mpr ⟨by decide, .inl (by decide)⟩

/-- The largest bound is read as -1: nothing is closed. -/
theorem close_range_leaves_open : ¬ Exact quiet 1 0 4294967295 shell := by
  intro h
  exact absurd (h.only (by decide) 0) (by decide +kernel)

end CloseRange
