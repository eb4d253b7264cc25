import Whuse.AgreementRuns

/-! What a failed clone leaves behind. The entry of the new thread is made first; the tids are
stored after that, and a store that fails ends the call with the entry in place. -/
namespace CloneFailure

open AddressSpace ProcessTable ProcessCalls TableEffects TableFiling AgreementRuns
open CallRuns (board)

/-- The addresses of the two tid words. -/
def TidByte (r : CloneRequest) (a : ℕ) : Prop :=
  r.parentTid ≤ a ∧ a < r.parentTid + 4 ∨ r.childTid ≤ a ∧ a < r.childTid + 4

structure Untouched (hal : HalMemory) (r : CloneRequest) (k l : KernelState) : Prop where
  entries : l.table.processes = k.table.processes
  current : l.table.currentTid = k.table.currentTid
  scheduler : l.scheduler = k.scheduler
  spaces : l.table.spaces = k.table.spaces
  memory : ∀ x, (∀ p a, k.table.current = .ok p → TidByte r a →
    UserMemory.ptrAt hal (k.table.spaces p.addressSpace).mappings a ≠ some x) →
      l.table.mem x = k.table.mem x

variable {hal : HalMemory} {heap : Heap} {fuel e : ℕ} {r : CloneRequest} {k l : KernelState}

theorem untouched_takeId (n : ℕ) :
    Untouched hal r k { k with table := { k.table with nextPid := n } } :=
  ⟨rfl, rfl, rfl, rfl, fun _ _ => rfl⟩

/-- A new entry is seen: its id was free. -/
theorem not_untouched_of_born {u : Table} {q : Kin} (h : Filed k.table) (hborn : Born k.table u q)
    (hl : l.table.processes = u.processes) : ¬ Untouched hal r k l := by
  intro hsame
  have hkin : kin u k.table.nextPid = kin k.table k.table.nextPid := by
    rw [kin, kin, ← hl, hsame.entries]
  rw [hborn.kin, Function.update_self] at hkin
  obtain ⟨p, hp, -⟩ := kin_eq_some.mp hkin.symm
  exact absurd (h.below _ _ (held_of_entry hp)) (lt_irrefl _)

/-- A clone that fails changes nothing but the next id exactly if it was refused before the entry
was made; if the tid words can be stored, that is the only way to fail. -/
theorem failed_clone_untouched_iff (h : Filed k.table)
    (hrun : doClone hal heap fuel r k = some (.error e, l)) :
    (Untouched hal r k l ↔ ∀ p, k.table.current = .ok p → Refused r k.table p) ∧
      (TidsWritable hal heap fuel r k.table → Untouched hal r k l) := by
  rcases hp : k.table.current with c | p
  · simp only [doClone, hp] at hrun
    obtain ⟨-, rfl⟩ := Prod.mk.inj (Option.some.inj hrun)
    have hsame : Untouched hal r k k := ⟨rfl, rfl, rfl, rfl, fun _ _ => rfl⟩
    refine ⟨iff_of_true hsame fun p hp' => ?_, fun _ => hsame⟩
    cases hp'
  cases doClone_cloning h hp hrun with
  | refused hrefused =>
    refine ⟨iff_of_true (untouched_takeId _) fun p' hp' => ?_, fun _ => untouched_takeId _⟩
    exact Except.ok.inj hp' ▸ hrefused
  | failed hnot hbad ho =>
    refine ⟨iff_of_false (not_untouched_of_born h ho.born rfl) fun hall => ?_, fun hw => ?_⟩
    · exact hnot (hall p rfl)
    · exact absurd hw hbad

/-- A clone into a new namespace is refused. -/
theorem failed_clone_untouched_namespace :
    ∃ l, doClone board noHeap 0 ⟨0x20000, 0, 0, 0, none⟩ small = some (.error einval, l) ∧
      Untouched board ⟨0x20000, 0, 0, 0, none⟩ small l := by
  have hrun : doClone board noHeap 0 ⟨0x20000, 0, 0, 0, none⟩ small =
      some (.error einval, small) := rfl
  refine ⟨small, hrun, (failed_clone_untouched_iff (inStep_boot _ _ _).filed hrun).1.mpr ?_⟩
  exact fun _ _ => .inl (by decide)

def outcome (r : CloneRequest) : Option (Option ℕ × Bool × ℕ) :=
  (doClone board noHeap 0 r small).map fun out =>
    (out.1.toOption, out.2.table.processes.contains 2, out.2.table.currentTid)

/-- With a pointer to unmapped memory a fork and a thread fail and leave the entry 2; the thread is
also the current one. -/
theorem failed_clone_leaves_entry :
    (small.table.processes.contains 2, small.table.currentTid) = (false, 1) ∧
    outcome ⟨cloneParentSettid, 0, 0x10, 0, none⟩ = some (none, true, 1) ∧
    outcome ⟨cloneThreadRequired ||| cloneChildSettid, 0x1000, 0, 0x10, none⟩ =
      some (none, true, 2) := by
  decide +kernel

end CloneFailure
