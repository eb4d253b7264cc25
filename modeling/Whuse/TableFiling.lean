import Whuse.TableEffects
import Whuse.ProcessCalls

/-! Every entry is filed under its own tid, below the next id, and refers to an address space that
exists. -/
namespace TableFiling

open Std (ExtTreeMap)
open AddressSpace ProcessTable ProcessTable.Table ProcessCalls TableEffects Function Option

/-- One view of the entries. -/
def held {β : Type} (view : Process → β) (t : Table) (j : ℕ) : Option β := t.processes[j]?.map view

variable {p : Process} {t u : Table} {β : Type} {j : ℕ} {view : Process → β}

theorem held_of_entry (h : t.processes[j]? = some p) : held view t j = some (view p) := by
  rw [held, h]
  rfl

def filing (p : Process) : ℕ × ℕ := (p.tid, p.addressSpace)

structure Filed (t : Table) : Prop where
  tid : ∀ j x, held filing t j = some x → x.1 = j
  below : ∀ j x, held filing t j = some x → j < t.nextPid
  space : ∀ j x, held filing t j = some x → x.2 < t.nextSpace

theorem Filed.current (h : Filed t) (hp : t.current = .ok p) : p.tid = t.currentTid :=
  h.tid _ _ (held_of_entry (current_ok hp))

/-- No entry is made or removed, and none looks different in this view. -/
structure Keeps {β : Type} (view : Process → β) (t u : Table) : Prop where
  held : held view u = held view t
  nextPid : u.nextPid = t.nextPid
  nextSpace : u.nextSpace = t.nextSpace

/-- A view that does not show the end of an entry. -/
structure Lasting {β : Type} (view : Process → β) : Prop where
  ended : ∀ code p, view (endProcess code p) = view p
  closed : ∀ code p, view { endProcess code p with fds := ∅ } = view p

/-- A view that shows neither the end of an entry nor its pending signals. -/
structure Steady {β : Type} (view : Process → β) : Prop where
  ended : ∀ code p, view (endProcess code p) = view p
  closed : ∀ code p, view { endProcess code p with fds := ∅ } = view p
  raised : ∀ signal p, view (raise signal p) = view p

theorem Steady.lasting (h : Steady view) : Lasting view :=
  ⟨h.ended, h.closed⟩

theorem steady_filing : Steady filing := ⟨fun _ _ => rfl, fun _ _ => rfl, fun _ _ => rfl⟩

section Views

variable {view : Process → β} {f : Process → Process}

namespace Keeps

theorem refl (t : Table) : Keeps view t t := ⟨rfl, rfl, rfl⟩

theorem trans {v : Table} (h : Keeps view t u) (k : Keeps view u v) : Keeps view t v :=
  ⟨k.held.trans h.held, k.nextPid.trans h.nextPid, k.nextSpace.trans h.nextSpace⟩

theorem map {γ : Type} (h : Keeps view t u) (g : β → γ) : Keeps (fun p => g (view p)) t u := by
  refine ⟨funext fun j => ?_, h.nextPid, h.nextSpace⟩
  have hj := congrArg (Option.map g) (congrFun h.held j)
  rw [TableFiling.held, TableFiling.held, Option.map_map, Option.map_map] at hj
  exact hj

end Keeps

theorem Filed.keeps (h : Filed t) (k : Keeps filing t u) : Filed u where
  tid j x hx := h.tid j x (k.held ▸ hx)
  below j x hx := k.nextPid ▸ h.below j x (k.held ▸ hx)
  space j x hx := k.nextSpace ▸ h.space j x (k.held ▸ hx)

theorem keeps_modify (h : ∀ p, view (f p) = view p) : Keeps view t (t.modify j f) :=
  ⟨funext fun i => modify_same (Option.map view) (fun p => congrArg some (h p)) j i t, rfl, rfl⟩

theorem keeps_modifyGroup {g : ℕ} (h : ∀ p, view (f p) = view p) :
    Keeps view t (t.modifyGroup g f) :=
  ⟨funext fun i => modifyGroup_same (Option.map view) (fun p => congrArg some (h p)) g i t,
    rfl, rfl⟩

theorem keeps_putMachine (p : Process) (M : Machine) (t : Table) :
    Keeps view t (t.putMachine p M) :=
  ⟨rfl, rfl, rfl⟩

theorem keeps_setCurrent (tid : ℕ) (t : Table) : Keeps view t (t.setCurrent tid).2 := by
  unfold Table.setCurrent
  split <;> exact ⟨rfl, rfl, rfl⟩

theorem keeps_wakeFutex (addr count : ℕ) (t : Table) : Keeps view t (t.wakeFutex addr count).2 := by
  unfold Table.wakeFutex
  split <;> exact ⟨rfl, rfl, rfl⟩

theorem keeps_sendSignalTid (hv : Steady view) (pid signal : ℕ) (t : Table) :
    Keeps view t (t.sendSignalTid pid signal).2 := by
  rcases t.sendSignalTid_cases pid signal with h | ⟨tid, h⟩ <;> rw [h]
  · exact .refl t
  · exact keeps_modify (hv.raised signal)

theorem keeps_notifyParent (hv : Steady view) (parent : Option ℕ) (t : Table) :
    Keeps view t (t.notifyParent parent) := by
  cases parent with
  | none => exact .refl t
  | some parent => exact keeps_sendSignalTid hv parent _ t

section Exits

variable (hal : HalMemory) (heap : Heap) (code : Int32)

section Lasting

variable (hv : Lasting view)

include hv

theorem keeps_endGroup (g : ℕ) (t : Table) : Keeps view t (t.endGroup code g) := by
  have hend : Keeps view t (t.modifyGroup g (endProcess code)) := keeps_modifyGroup (hv.ended code)
  exact List.foldlRecOn (motive := Keeps view t) _ _ hend fun u hu p _ =>
    hu.trans (keeps_putMachine p _ u)

theorem keeps_leaveThread (p : Process) (t : Table) :
    Keeps view t (t.leaveThread hal heap code p).2 := by
  have hleave : Keeps view t
      ((t.putMachine p (leaveMemory hal heap p (t.machine p)).2).removeFutexWaiter p.tid) :=
    ⟨rfl, rfl, rfl⟩
  exact hleave.trans (keeps_modify (hv.closed code))

theorem keeps_exitEntry (found : List ℕ × Table) (tid : ℕ) :
    Keeps view found.2 (Table.exitEntry hal heap code found tid).2 := by
  unfold Table.exitEntry
  split
  · exact ⟨rfl, rfl, rfl⟩
  next p hp =>
  have hclear : Keeps view found.2 ((found.2.putMachine p
      (leaveMemory hal heap p (found.2.machine p)).2).clearSpace p) := ⟨rfl, rfl, rfl⟩
  have hend := hclear.trans
    (keeps_modify (j := tid) (hv.closed code))
  exact hend.trans ⟨rfl, rfl, rfl⟩

theorem keeps_exitEntries (tids : List ℕ) (t : Table) :
    Keeps view t (t.exitEntries hal heap code tids).2 := by
  have hfold : ∀ (tids : List ℕ) (found : List ℕ × Table),
      Keeps view found.2 (tids.foldl (Table.exitEntry hal heap code) found).2 := by
    intro tids
    induction tids with
    | nil => exact fun found => .refl _
    | cons tid tids ih => exact fun found => (keeps_exitEntry hal heap code hv found tid).trans (ih _)
  exact hfold tids ([], t)

end Lasting

variable (hv : Steady view)

include hv

theorem keeps_exitCurrentThread (t : Table) : Keeps view t (t.exitCurrentThread hal heap code).2 := by
  unfold Table.exitCurrentThread
  split
  · exact .refl t
  next p hp =>
  have hleave := keeps_leaveThread hal heap code hv.lasting p t
  simp only
  split
  · exact hleave
  · exact (hleave.trans (keeps_endGroup code hv.lasting _ _)).trans (keeps_notifyParent hv _ _)

theorem keeps_exitCurrentProcessGroup (t : Table) :
    Keeps view t (t.exitCurrentProcessGroup hal heap code).2 := by
  unfold Table.exitCurrentProcessGroup
  split
  · exact .refl t
  · exact (keeps_exitEntries hal heap code hv.lasting _ t).trans (keeps_notifyParent hv _ _)

theorem keeps_forceExitGroup (g : ℕ) (t : Table) :
    Keeps view t (t.forceExitGroup hal heap code g).2 := by
  unfold Table.forceExitGroup
  simp only
  split
  · exact .refl t
  · exact (keeps_exitEntries hal heap code hv.lasting _ t).trans (keeps_notifyParent hv _ _)

end Exits

end Views

/-- A new entry is filed under the next id; the others stay. -/
structure Born (t u : Table) (q : Kin) : Prop where
  kin : kin u = update (kin t) t.nextPid (some q)
  held : ∃ space < u.nextSpace,
    held filing u = update (held filing t) t.nextPid (some (t.nextPid, space))
  nextPid : u.nextPid = t.nextPid + 1
  nextSpace : t.nextSpace ≤ u.nextSpace
  currentTid : u.currentTid = t.currentTid

theorem held_insert :
    held view { t with processes := t.processes.insert j p } =
      update (held view t) j (some (view p)) := by
  funext i
  simp only [held, ExtTreeMap.getElem?_insert, Std.LawfulEqOrd.compare_eq_iff_eq, update_apply]
  by_cases hi : j = i
  · rw [if_pos hi, if_pos hi.symm]
    rfl
  · rw [if_neg hi, if_neg (Ne.symm hi)]

theorem Filed.beside {n space : ℕ} (h : Filed t) (hn : n < u.nextPid) (hspace : space < u.nextSpace)
    (hpids : t.nextPid ≤ u.nextPid) (hspaces : t.nextSpace ≤ u.nextSpace)
    (hheld : ∀ j x, held filing u j = some x → j = n ∧ x = (n, space) ∨ held filing t j = some x) :
    Filed u := by
  refine ⟨fun j x hx => ?_, fun j x hx => ?_, fun j x hx => ?_⟩
  · rcases hheld j x hx with ⟨rfl, rfl⟩ | hold
    · rfl
    · exact h.tid j x hold
  · rcases hheld j x hx with ⟨rfl, -⟩ | hold
    · exact hn
    · exact lt_of_lt_of_le (h.below j x hold) hpids
  · rcases hheld j x hx with ⟨-, rfl⟩ | hold
    · exact hspace
    · exact lt_of_lt_of_le (h.space j x hold) hspaces

theorem Filed.born {q : Kin} (h : Filed t) (hb : Born t u q) : Filed u := by
  obtain ⟨space, hspace, hheld⟩ := hb.held
  have hnext := hb.nextPid
  refine h.beside (n := t.nextPid) (by omega) hspace (by omega) hb.nextSpace fun j x hx => ?_
  rw [hheld, update_apply] at hx
  split at hx
  · next hj => exact .inl ⟨hj, (some.inj hx).symm⟩
  · exact .inr hx

theorem Filed.takeId (h : Filed t) : Filed { t with nextPid := t.nextPid + 1 } :=
  ⟨h.tid, fun j x hx => Nat.lt_succ_of_lt (h.below j x hx), h.space⟩

theorem Filed.current_below (h : Filed t) (hp : t.current = .ok p) :
    t.currentTid < t.nextPid := h.below _ _ (held_of_entry (current_ok hp))

theorem Filed.current_space (h : Filed t) (hp : t.current = .ok p) :
    p.addressSpace < t.nextSpace := h.space _ _ (held_of_entry (current_ok hp))

theorem held_dropEntries (view : Process → β) (tids : List ℕ) (t : Table) :
    (∀ j x, held view (t.dropEntries tids) j = some x → held view t j = some x) ∧
      (t.dropEntries tids).nextPid = t.nextPid ∧ (t.dropEntries tids).nextSpace = t.nextSpace := by
  induction tids generalizing t with
  | nil => exact ⟨fun _ _ hx => hx, rfl, rfl⟩
  | cons tid tids ih =>
    obtain ⟨hheld, hpid, hspace⟩ := ih (removeFutexWaiter tid
      { t with processes := t.processes.erase tid })
    refine ⟨fun j x hx => ?_, hpid, hspace⟩
    have hx := hheld j x hx
    simp only [held, removeFutexWaiter, ExtTreeMap.getElem?_erase] at hx
    split at hx
    · cases hx
    · exact hx

theorem Filed.execveCurrentImage (hal : HalMemory) (cloneHeap stackHeap : Heap) (entry : UInt64)
    (sp : Option UInt64) (h : Filed t) :
    Filed (t.execveCurrentImage hal cloneHeap stackHeap entry sp).2 := by
  rcases hp : t.current with e | p
  · rw [Table.execveCurrentImage, hp]
    exact h
  obtain ⟨q, hq⟩ := execve_replaced hal cloneHeap stackHeap entry sp hp
  have hentry : held filing t t.currentTid = some (filing p) := held_of_entry (current_ok hp)
  have htid : q.tid = t.currentTid := (congrArg Kin.tid hq.kin).trans (h.tid _ _ hentry)
  have hpid : _ = t.nextPid := congrArg Prod.fst hq.counters
  obtain ⟨hheld, -, hspace⟩ :
      _ ∧ _ ∧ (withoutOthers p t).nextSpace = t.nextSpace := held_dropEntries filing _ t
  refine h.beside (hpid.symm ▸ h.below _ _ hentry) (hq.space (hspace ▸ h.space _ _ hentry))
    hpid.ge (hspace ▸ hq.nextSpace) fun j x hx => ?_
  rw [held, hq.processes, ExtTreeMap.getElem?_insert] at hx
  split at hx
  · next hj =>
    refine .inl ⟨(Std.LawfulEqOrd.compare_eq_iff_eq.mp hj).symm, ?_⟩
    rw [← some.inj hx, ← htid]
    rfl
  · exact .inr (hheld j x hx)

end TableFiling
