import Whuse.CallViews
import Whuse.WaitReaping

/-! The death of a process. A process dies with its last thread, and its parent should hear of it
then and not before; a signal that ends a process should end all its threads. -/
namespace DeathNotices

open AddressSpace TaskScheduler ProcessTable ProcessTable.Table ProcessCalls List Option
open TableEffects TableFiling CallViews WaitReaping SchedulerConservation
open CallRuns (board)

variable {g i : ℕ} {r : Kin} {gs : List ℕ}

def notified (p : Process) : Bool := p.pendingSignals.toBitVec.getLsbD 16

inductive Exit where
  | exit (heap : Heap) (code : Int32)
  | exitGroup (heap : Heap) (code : Int32)
  | signal (heap : Heap) (signum : ℕ)
  | forced (heap : Heap)
  | fault (heap : Heap)
  | watchdog (heap : Heap) (tgids : List ℕ)

def Exit.run (hal : HalMemory) (k : KernelState) : Exit → KernelState
  | exit heap code => (sysExit hal heap false code k).2
  | exitGroup heap code => (sysExit hal heap true code k).2
  | signal heap signum => signalExit hal heap signum k
  | forced heap => forcedThreadExit hal heap k
  | fault heap => faultExit hal heap k
  | watchdog heap tgids => watchdogKill hal heap tgids k

/-- Who exits is alive. A thread that exits alone is the last of its group; the watchdog ends a
group once. -/
def Exit.Safe (t : Table) : Exit → Prop
  | exit _ _ => ∀ p, t.current = .ok p → p.state ≠ .exited ∧ t.groupAlive p.tgid p.tid = false
  | signal _ _ => ∀ p, t.current = .ok p → p.state ≠ .exited ∧ t.groupAlive p.tgid p.tid = false
  | forced _ => ∀ p, t.current = .ok p → p.state ≠ .exited ∧ t.groupAlive p.tgid p.tid = false
  | exitGroup _ _ => ∀ p, t.current = .ok p → p.state ≠ .exited
  | fault _ => ∀ p, t.current = .ok p → p.state ≠ .exited
  | watchdog _ tgids => tgids.Nodup ∧ ∀ g ∈ tgids, LiveIn (kin t) g

/-- An exit, an operation of the table, a change of an entry that concerns no relation, or a move
of the scheduler. -/
inductive Event where
  | exit (e : Exit)
  | table (op : Op)
  | touch (tid : ℕ) (f : Process → Process) (h : ∀ p, kinOf (f p) = kinOf p)
  | schedule (s : Scheduler)

def Event.step (hal : HalMemory) (k : KernelState) : Event → Option KernelState
  | exit e => some (e.run hal k)
  | table op => (op.run hal k.table).map fun t => { k with table := t }
  | touch tid f _ => some { k with table := k.table.modify tid f }
  | schedule s => some { k with scheduler := s }

/-- The first processes have no parent, and a thread is made by a living one. The operations that
end entries come as exits. -/
def tableSafe (t : Table) : Op → Prop
  | .spawn _ parent _ => parent = none
  | .cloneThread .. => ∀ p, t.current = .ok p → p.state ≠ .exited
  | op => op.death = none

def Event.Safe (k : KernelState) : Event → Prop
  | exit e => e.Safe k.table
  | table op => tableSafe k.table op
  | _ => True

def boot (spaces : ℕ → AddressSpaceInner) (mem : Memory) (s : Scheduler) : KernelState :=
  ⟨⟨1, 0, ∅, ∅, spaces, 0, mem⟩, s⟩

inductive Reached (hal : HalMemory) : KernelState → Prop where
  | boot (spaces : ℕ → AddressSpaceInner) (mem : Memory) (s : Scheduler) :
      Reached hal (boot spaces mem s)
  | step {k l} (e : Event) : Reached hal k → e.Safe k → e.step hal k = some l → Reached hal l

/-- A group is dead or alive as a whole and has one parent; the number of a group or of a parent is
never that of a thread of another group. -/
structure Families (K : Kinship) (n : ℕ) : Prop where
  positive : 1 ≤ n
  keyed : ∀ {j q}, K j = some q → q.tid = j ∧ 1 ≤ j ∧ j < n ∧ q.tgid < n ∧ q.isThread = false
  parents : ∀ {j q P}, K j = some q → q.parent = some P → P < n
  named : ∀ {i j q r}, K j = some q → K i = some r → r.tgid = j ∨ r.parent = some j → q.tgid = j
  first : ∀ {q}, K 1 = some q → q.tgid = 1
  whole : ∀ {i j a b}, K i = some a → K j = some b → a.tgid = b.tgid →
    a.parent = b.parent ∧ (a.Live ↔ b.Live)

namespace Families

variable {K L : Kinship} {n j k : ℕ}

theorem bump (h : Families K n) : Families K (n + 1) := by
  refine ⟨Nat.le_add_left 1 n, ?_, ?_, h.named, h.first, h.whole⟩
  · intro j q hq
    obtain ⟨htid, hpos, hj, hg, hthread⟩ := h.keyed hq
    exact ⟨htid, hpos, by omega, by omega, hthread⟩
  · intro j q P hq hP
    exact Nat.lt_succ_of_lt (h.parents hq hP)

theorem ended_back {code : Int32} {q : Kin}
    (hq : (K j).map (Kin.inGroup g (Kin.ended code)) = some q) :
    ∃ r, K j = some r ∧ SamePlace r q ∧ (q.Live ↔ r.Live ∧ r.tgid ≠ g) := by
  obtain ⟨r, hr, rfl⟩ := map_eq_some_iff.mp hq
  refine ⟨r, hr, samePlace_ite r, ?_⟩
  unfold Kin.inGroup
  split
  · next hg => exact ⟨fun hlive => absurd rfl hlive, fun hlive => absurd hg hlive.2⟩
  · next hg => exact ⟨fun hlive => ⟨hlive, hg⟩, fun hlive => hlive.1⟩

/-- Entries stay in their place and name whom they named, or somebody who may be named. -/
theorem pull (h : Families K n)
    (hback : ∀ {j q}, L j = some q → ∃ r, K j = some r ∧ q.tid = r.tid ∧ q.tgid = r.tgid ∧
      q.isThread = false ∧ ∀ P, q.parent = some P →
        r.parent = some P ∨ P < n ∧ ∀ a, K P = some a → a.tgid = P)
    (hwhole : ∀ {i j a b}, L i = some a → L j = some b → a.tgid = b.tgid →
      a.parent = b.parent ∧ (a.Live ↔ b.Live)) : Families L n := by
  refine ⟨h.positive, ?_, ?_, ?_, ?_, hwhole⟩
  · intro j q hq
    obtain ⟨r, hr, htid, hg, hthread, -⟩ := hback hq
    obtain ⟨hkey, hpos, hj, hbelow, -⟩ := h.keyed hr
    exact ⟨htid.trans hkey, hpos, hj, hg ▸ hbelow, hthread⟩
  · intro j q P hq hP
    obtain ⟨r, hr, -, -, -, hparent⟩ := hback hq
    exact (hparent P hP).elim (h.parents hr) And.left
  · intro i j q r hq hr hname
    obtain ⟨q₀, hq₀, -, hqg, -⟩ := hback hq
    obtain ⟨r₀, hr₀, -, hrg, -, hparent⟩ := hback hr
    rw [hqg]
    rcases hname with hg | hP
    · exact h.named hq₀ hr₀ (.inl (hrg.symm.trans hg))
    · exact (hparent j hP).elim (fun hP => h.named hq₀ hr₀ (.inr hP)) fun hnew => hnew.2 q₀ hq₀
  · intro q hq
    obtain ⟨r, hr, -, hg, -⟩ := hback hq
    exact hg.trans (h.first hr)

theorem ended (h : Families K n) (g : ℕ) (code : Int32) :
    Families (fun j => (K j).map (Kin.inGroup g (Kin.ended code))) n := by
  apply h.pull
  · intro j q hq
    obtain ⟨r, hr, hsame, -⟩ := ended_back hq
    exact ⟨r, hr, hsame.tid, hsame.tgid, hsame.isThread.trans (h.keyed hr).2.2.2.2,
      fun P hP => .inl (hsame.parent ▸ hP)⟩
  · intro i j a b ha hb hg
    obtain ⟨a₀, ha₀, hsa, hla⟩ := ended_back ha
    obtain ⟨b₀, hb₀, hsb, hlb⟩ := ended_back hb
    have hg₀ : a₀.tgid = b₀.tgid := by rw [← hsa.tgid, ← hsb.tgid, hg]
    obtain ⟨hparent, hlive⟩ := h.whole ha₀ hb₀ hg₀
    rw [hsa.parent, hsb.parent, hla, hlb, hlive, hg₀]
    exact ⟨hparent, Iff.rfl⟩

theorem insert (h : Families K n) {parent : Option ℕ}
    (hg : (g = n ∧ ∀ P, parent = some P → P < n ∧ ∀ q, K P = some q → q.tgid = P) ∨
      ∃ i a, K i = some a ∧ a.tgid = g ∧ a.parent = parent ∧ a.Live) :
    Families (Function.update K n (some (newborn n g parent))) (n + 1) := by
  have hbelow : g ≤ n ∧ ∀ P, parent = some P → P < n := by
    rcases hg with ⟨rfl, hparent⟩ | ⟨i, a, ha, rfl, rfl, -⟩
    · exact ⟨le_rfl, fun P hP => (hparent P hP).1⟩
    · exact ⟨(h.keyed ha).2.2.2.1.le, fun P hP => h.parents ha hP⟩
  -- what the new entry names
  have hnames : ∀ {j q}, K j = some q → g = j ∨ parent = some j → q.tgid = j := by
    intro j q hq hname
    rcases hg with ⟨rfl, hparent⟩ | ⟨i, a, ha, rfl, rfl, -⟩
    · rcases hname with rfl | hP
      · exact absurd (h.keyed hq).2.2.1 (lt_irrefl _)
      · exact (hparent j hP).2 q hq
    · exact h.named hq ha hname
  have hbeside : ∀ {j b}, K j = some b → b.tgid = g → b.parent = parent ∧ b.Live := by
    intro j b hb hbg
    rcases hg with ⟨rfl, -⟩ | ⟨i, a, ha, rfl, rfl, hlive⟩
    · exact absurd hbg (h.keyed hb).2.2.2.1.ne
    · obtain ⟨hparent, hiff⟩ := h.whole hb ha hbg
      exact ⟨hparent, hiff.mpr hlive⟩
  constructor
  · exact Nat.le_add_left 1 n
  · intro j q hq
    rcases update_eq_some.mp hq with ⟨rfl, rfl⟩ | ⟨-, hq⟩
    · exact ⟨rfl, h.positive, Nat.lt_succ_self _, Nat.lt_succ_of_le hbelow.1, rfl⟩
    · exact h.bump.keyed hq
  · intro j q P hq hP
    rcases update_eq_some.mp hq with ⟨rfl, rfl⟩ | ⟨-, hq⟩
    · exact Nat.lt_succ_of_lt (hbelow.2 P hP)
    · exact h.bump.parents hq hP
  · intro i j q r hq hr hname
    rcases update_eq_some.mp hq with ⟨rfl, rfl⟩ | ⟨-, hqold⟩ <;>
      rcases update_eq_some.mp hr with ⟨rfl, rfl⟩ | ⟨-, hrold⟩
    · rcases hname with htgid | hP
      · exact htgid
      · exact absurd (hbelow.2 _ hP) (lt_irrefl _)
    · rcases hname with htgid | hP
      · exact absurd htgid (h.keyed hrold).2.2.2.1.ne
      · exact absurd (h.parents hrold hP) (lt_irrefl _)
    · exact hnames hqold hname
    · exact h.named hqold hrold hname
  · intro q hq
    rcases update_eq_some.mp hq with ⟨hone, rfl⟩ | ⟨-, hq⟩
    · rcases hg with ⟨rfl, -⟩ | ⟨i, a, ha, -⟩
      · exact hone.symm
      · have hi := h.keyed ha
        omega
    · exact h.first hq
  · intro i j a b ha hb hab
    rcases update_eq_some.mp ha with ⟨rfl, rfl⟩ | ⟨-, haold⟩ <;>
      rcases update_eq_some.mp hb with ⟨rfl, rfl⟩ | ⟨-, hbold⟩
    · exact ⟨rfl, Iff.rfl⟩
    · obtain ⟨hparent, hlive⟩ := hbeside hbold hab.symm
      exact ⟨hparent.symm, fun _ => hlive, fun _ hstate => by cases hstate⟩
    · obtain ⟨hparent, hlive⟩ := hbeside haold hab
      exact ⟨hparent, fun _ hstate => by (cases hstate), fun _ => hlive⟩
    · exact h.whole haold hbold hab

theorem execve (h : Families K n) {p : Kin} (hp : K k = some p) :
    Families (Function.update (fun j => (K j).filter fun q => q.tgid != p.tgid) k (some p.reset)) n := by
  apply h.pull
  · intro j q hq
    rcases replaced_eq_some.mp hq with ⟨rfl, rfl⟩ | ⟨-, hq, -⟩
    · exact ⟨p, hp, rfl, rfl, rfl, fun P => .inl⟩
    · exact ⟨q, hq, rfl, rfl, (h.keyed hq).2.2.2.2, fun P => .inl⟩
  · intro i j a b ha hb hab
    rcases replaced_eq_some.mp ha with ⟨rfl, rfl⟩ | ⟨-, haold, hag⟩ <;>
      rcases replaced_eq_some.mp hb with ⟨rfl, rfl⟩ | ⟨-, hbold, hbg⟩
    · exact ⟨rfl, Iff.rfl⟩
    · exact absurd hab.symm hbg
    · exact absurd hab hag
    · exact h.whole haold hbold hab

theorem reap (h : Families K n) {c init : ℕ} (hbelow : init < n)
    (hinit : ∀ q, K init = some q → q.tgid = init) :
    Families (fun j => ((K j).filter fun q => q.tgid != c).map (Kin.adopt c init)) n := by
  apply h.pull
  · intro j q hq
    obtain ⟨r, hr, -, rfl⟩ := reaped_eq_some.mp hq
    refine ⟨r, hr, by simp, by simp, by simpa using (h.keyed hr).2.2.2.2, fun P hP => ?_⟩
    rw [Kin.adopt_parent] at hP
    split at hP
    · cases hP
      exact .inr ⟨hbelow, hinit⟩
    · exact .inl hP
  · intro i j a b ha hb hab
    obtain ⟨a₀, ha₀, -, rfl⟩ := reaped_eq_some.mp ha
    obtain ⟨b₀, hb₀, -, rfl⟩ := reaped_eq_some.mp hb
    rw [Kin.adopt_tgid, Kin.adopt_tgid] at hab
    obtain ⟨hparent, hlive⟩ := h.whole ha₀ hb₀ hab
    have hstate : (a₀.state != .exited) = (b₀.state != .exited) := by
      rw [Bool.eq_iff_iff, bne_iff_ne, bne_iff_ne]
      exact hlive
    have hthread : a₀.isThread = b₀.isThread :=
      (h.keyed ha₀).2.2.2.2.trans (h.keyed hb₀).2.2.2.2.symm
    refine ⟨?_, ?_⟩
    · rw [Kin.adopt_parent, Kin.adopt_parent, hparent, hstate, hthread, hab]
    · simpa [Kin.Live] using hlive

end Families

/-- Only the threads of one group may be notified, and no notice is lost. -/
structure Tells (parent : Option ℕ) (t u : Table) : Prop where
  back : ∀ {j : ℕ} {q : Process}, u.processes[j]? = some q → ∃ p, t.processes[j]? = some p ∧
    p.tgid = q.tgid ∧ (notified q = true → notified p = true ∨ parent = some q.tgid)
  forth : ∀ {j : ℕ} {p : Process}, t.processes[j]? = some p → ∃ q, u.processes[j]? = some q ∧
    q.tgid = p.tgid ∧ (notified p = true → notified q = true)

namespace Tells

variable {parent : Option ℕ} {t u : Table}

theorem refl (t : Table) : Tells parent t t :=
  ⟨fun h => ⟨_, h, rfl, .inl⟩, fun h => ⟨_, h, rfl, id⟩⟩

theorem of_keeps (h : Keeps (fun p => (p.tgid, notified p)) t u) : Tells parent t u := by
  have hheld : ∀ j, (t.processes[j]?).map (fun p : Process => (p.tgid, notified p)) =
      (u.processes[j]?).map fun p : Process => (p.tgid, notified p) :=
    fun j => (congrFun h.held j).symm
  constructor
  · intro j q hq
    have hj := hheld j
    rw [hq] at hj
    obtain ⟨p, hp, hsame⟩ := map_eq_some_iff.mp hj
    obtain ⟨hg, hn⟩ := Prod.mk.inj hsame
    exact ⟨p, hp, hg, fun hq => .inl (hn.trans hq)⟩
  · intro j p hp
    have hj := hheld j
    rw [hp] at hj
    obtain ⟨q, hq, hsame⟩ := map_eq_some_iff.mp hj.symm
    obtain ⟨hg, hn⟩ := Prod.mk.inj hsame
    exact ⟨q, hq, hg, fun hp => hn.trans hp⟩

end Tells

/-- No notice is lost on the way. -/
theorem forth_trans {t u v : Table}
    (h : ∀ {j : ℕ} {p : Process}, t.processes[j]? = some p → ∃ q, u.processes[j]? = some q ∧
      q.tgid = p.tgid ∧ (notified p = true → notified q = true))
    (h' : ∀ {j : ℕ} {p : Process}, u.processes[j]? = some p → ∃ q, v.processes[j]? = some q ∧
      q.tgid = p.tgid ∧ (notified p = true → notified q = true))
    {j : ℕ} {p : Process} (hp : t.processes[j]? = some p) : ∃ q, v.processes[j]? = some q ∧
      q.tgid = p.tgid ∧ (notified p = true → notified q = true) := by
  obtain ⟨q, hq, hqp, hforth⟩ := h hp
  obtain ⟨r, hr, hrq, hforth'⟩ := h' hq
  exact ⟨r, hr, hrq.trans hqp, fun hn => hforth' (hforth hn)⟩

theorem notified_raise (p : Process) : notified (raise sigchld p) = true := by
  have hbit : ((1 : UInt64) <<< UInt64.ofNat (sigchld - 1)).toBitVec.getLsbD 16 = true := by decide
  simp only [notified, raise, UInt64.toBitVec_or, BitVec.getLsbD_or, hbit, Bool.or_true]

def Heard (g : ℕ) (t : Table) : Prop :=
  ∃ (j : ℕ) (q : Process), t.processes[j]? = some q ∧ q.tgid = g ∧ notified q = true

theorem Heard.tells {parent : Option ℕ} {t u : Table} (h : Heard g t)
    (ht : Tells parent t u) : Heard g u := by
  obtain ⟨j, p, hp, hg, hn⟩ := h
  obtain ⟨q, hq, hqp, hforth⟩ := ht.forth hp
  exact ⟨j, q, hq, hqp.trans hg, hforth hn⟩

theorem tells_send {t : Table} {n : ℕ} (h : Families (kin t) n) {P : ℕ}
    (hname : ∀ q, kin t P = some q → q.tgid = P) :
    Tells (some P) t (t.sendSignalTid P sigchld).2 ∧
      (LiveIn (kin t) P → Heard P (t.sendSignalTid P sigchld).2) := by
  have hraise : ∀ {tid : ℕ} {p : Process}, t.processes[tid]? = some p → p.tgid = P →
      Tells (some P) t (t.modify tid (raise sigchld)) ∧ Heard P (t.modify tid (raise sigchld)) := by
    intro tid p hp hg
    refine ⟨⟨?_, ?_⟩, tid, raise sigchld p, ?_, hg, notified_raise p⟩
    · intro j q hq
      obtain ⟨r, hr, rfl⟩ := modify_eq_some.mp hq
      split
      · next hj =>
        subst hj
        obtain rfl := some.inj (hp.symm.trans hr)
        exact ⟨p, hp, rfl, fun _ => .inr (congrArg some hg.symm)⟩
      · exact ⟨r, hr, rfl, .inl⟩
    · intro j q hq
      by_cases hj : j = tid
      · exact ⟨_, modify_eq_some.mpr ⟨q, hq, if_pos hj⟩, rfl, fun _ => notified_raise q⟩
      · exact ⟨q, modify_eq_some.mpr ⟨q, hq, if_neg hj⟩, rfl, id⟩
    · exact modify_eq_some.mpr ⟨p, hp, if_pos rfl⟩
  have hsig : ¬ 64 < sigchld ∧ sigchld ≠ 0 := by decide
  have hresolved : ∀ tid, t.resolveTargetTid P = .ok tid →
      ∃ p, t.processes[tid]? = some p ∧ p.tgid = P ∧ p.state ≠ .exited := by
    intro tid htid
    unfold resolveTargetTid at htid
    simp only at htid
    split at htid
    · next p hp =>
      cases htid
      obtain ⟨hp, hlive⟩ := filter_eq_some_iff.mp hp
      exact ⟨p, hp, hname _ (kin_of_entry hp), bne_iff_ne.mp hlive⟩
    · split at htid
      · next p hp =>
        cases htid
        obtain ⟨⟨j, hj⟩, hkeep⟩ := find_some hp
        simp only [Bool.and_eq_true, beq_iff_eq, bne_iff_ne] at hkeep
        have htid : p.tid = j := (h.keyed (kin_of_entry hj)).1
        exact ⟨p, by rw [htid, hj], hkeep.1.1, hkeep.2⟩
      · cases htid
  unfold sendSignalTid
  cases htarget : t.resolveTargetTid P with
  | error e =>
    refine ⟨.refl t, fun hlive => ?_⟩
    -- a living thread would have been found
    obtain ⟨j, q, hq, hg, hlive⟩ := hlive
    obtain ⟨p, hp, rfl⟩ := kin_eq_some.mp hq
    unfold resolveTargetTid at htarget
    simp only at htarget
    split at htarget
    · cases htarget
    split at htarget
    · cases htarget
    next hnone =>
    have hmem := find?_eq_none.mp hnone p (mem_values.mpr ⟨j, hp⟩)
    have hgroup : p.tgid = P := hg
    have hthread : p.isThread = false := (h.keyed hq).2.2.2.2
    have hstate : p.state ≠ .exited := hlive
    simp [hgroup, hthread, hstate] at hmem
  | ok tid =>
    obtain ⟨p, hp, hg, hstate⟩ := hresolved tid htarget
    simp only [hp, if_neg hstate]
    obtain ⟨htells, hheard⟩ := hraise hp hg
    exact ⟨htells, fun _ => hheard⟩

/-- The given groups have ended, and at most their parents have heard of it. -/
structure Fallen (gs : List ℕ) (t u : Table) : Prop where
  families : Families (kin u) u.nextPid
  places : ∀ {j q}, kin u j = some q → ∃ r, kin t j = some r ∧ SamePlace r q ∧
    (q.Live ↔ r.Live ∧ r.tgid ∉ gs)
  back : ∀ {j : ℕ} {q : Process}, u.processes[j]? = some q → ∃ p, t.processes[j]? = some p ∧
    p.tgid = q.tgid ∧ (notified q = true → notified p = true ∨
      ∃ i r, kin t i = some r ∧ r.tgid ∈ gs ∧ r.parent = some q.tgid)
  forth : ∀ {j : ℕ} {p : Process}, t.processes[j]? = some p → ∃ q, u.processes[j]? = some q ∧
    q.tgid = p.tgid ∧ (notified p = true → notified q = true)

/-- Moreover each parent that is alive has heard of it. -/
structure Noticed (gs : List ℕ) (t u : Table) : Prop extends Fallen gs t u where
  told : ∀ {i r P}, kin t i = some r → r.tgid ∈ gs → r.parent = some P → LiveIn (kin u) P → Heard P u

namespace Fallen

variable {t u v : Table} {gs : List ℕ} {j : ℕ}

theorem place (h : Fallen gs t u) (hr : kin t j = some r) :
    ∃ q, kin u j = some q ∧ SamePlace r q ∧ (q.Live ↔ r.Live ∧ r.tgid ∉ gs) := by
  obtain ⟨p, hp, rfl⟩ := kin_eq_some.mp hr
  obtain ⟨q, hq, -, -⟩ := h.forth hp
  have hqkin := kin_of_entry hq
  obtain ⟨r, hr', hsame, hlive⟩ := h.places hqkin
  obtain rfl : kinOf p = r := some.inj (hr.symm.trans hr')
  exact ⟨kinOf q, hqkin, hsame, hlive⟩

theorem back_tells {parent : Option ℕ} (h : Fallen gs t u) (ht : Tells parent u v)
    (hwho : ∀ g, parent = some g → ∃ i r, kin t i = some r ∧ r.tgid ∈ gs ∧ r.parent = some g)
    {q : Process} (hq : v.processes[j]? = some q) : ∃ p, t.processes[j]? = some p ∧
      p.tgid = q.tgid ∧ (notified q = true → notified p = true ∨
        ∃ i r, kin t i = some r ∧ r.tgid ∈ gs ∧ r.parent = some q.tgid) := by
  obtain ⟨p, hp, hpq, hlate⟩ := ht.back hq
  obtain ⟨a, ha, hap, hearly⟩ := h.back hp
  exact ⟨a, ha, hap.trans hpq, fun hn => (hlate hn).elim (hpq ▸ hearly) fun hP => .inr (hwho _ hP)⟩

theorem notify (h : Fallen gs t u) (hr : kin t i = some r) (hg : r.tgid ∈ gs) :
    Fallen gs t (u.notifyParent r.parent) ∧ Tells r.parent u (u.notifyParent r.parent) ∧
      ∀ P, r.parent = some P → LiveIn (kin u) P → Heard P (u.notifyParent r.parent) := by
  rcases hparent : r.parent with _ | P
  · refine ⟨h, .refl u, ?_⟩
    intro P hP
    cases hP
  have hname : ∀ q, kin u P = some q → q.tgid = P := by
    intro q hq
    obtain ⟨r', hr', hsame, -⟩ := h.place hr
    exact h.families.named hq hr' (.inr (hsame.parent.trans hparent))
  obtain ⟨htells, hheard⟩ := tells_send h.families hname
  have hkin := sameKin_sendSignalTid u P sigchld
  have hnext : (u.sendSignalTid P sigchld).2.nextPid = u.nextPid := congrArg Prod.fst hkin.counters
  refine ⟨⟨?_, ?_, ?_, ?_⟩, htells, ?_⟩
  · show Families (kin (u.sendSignalTid P sigchld).2) (u.sendSignalTid P sigchld).2.nextPid
    rw [hkin.kin, hnext]
    exact h.families
  · show ∀ {j q}, kin (u.sendSignalTid P sigchld).2 j = some q → _
    rw [hkin.kin]
    exact h.places
  · exact h.back_tells htells fun g hP => ⟨i, r, hr, hg, hparent.trans hP⟩
  · exact forth_trans h.forth htells.forth
  · rintro P' ⟨⟩ hlive
    exact hheard hlive

theorem ended (h : Families (kin t) t.nextPid) {code : Int32}
    (hkin : kin u = fun j => (kin t j).map (Kin.inGroup g (Kin.ended code)))
    (hnext : u.nextPid = t.nextPid) (hnotice : Keeps (fun p => (p.tgid, notified p)) t u) :
    Fallen [g] t u := by
  have htells : Tells none t u := .of_keeps hnotice
  refine ⟨?_, ?_, ?_, htells.forth⟩
  · rw [hkin, hnext]
    exact h.ended g code
  · intro j q hq
    rw [hkin] at hq
    simpa using Families.ended_back hq
  · intro j q hq
    obtain ⟨p, hp, hpq, hb⟩ := htells.back hq
    refine ⟨p, hp, hpq, fun hn => .inl ((hb hn).resolve_right ?_)⟩
    intro hnone
    cases hnone

end Fallen

namespace Noticed

variable {t u v : Table} {gs hs : List ℕ}

theorem refl (h : Families (kin t) t.nextPid) : Noticed [] t t := by
  refine ⟨⟨h, ?_, ?_, ?_⟩, ?_⟩
  · intro j q hq
    exact ⟨q, hq, ⟨rfl, rfl, rfl, rfl⟩, by simp⟩
  · intro j q hq
    exact ⟨q, hq, rfl, .inl⟩
  · intro j p hp
    exact ⟨p, hp, rfl, id⟩
  · intro i r P _ hmem
    cases hmem

theorem trans (h : Noticed gs t u) (k : Noticed hs u v) : Noticed (gs ++ hs) t v := by
  refine ⟨⟨k.families, ?_, ?_, ?_⟩, ?_⟩
  · intro j q hq
    obtain ⟨r, hr, hqr, hlive⟩ := k.places hq
    obtain ⟨a, ha, har, hlive'⟩ := h.places hr
    refine ⟨a, ha, ⟨hqr.tid.trans har.tid, hqr.tgid.trans har.tgid, hqr.parent.trans har.parent,
      hqr.isThread.trans har.isThread⟩, ?_⟩
    rw [hlive, har.tgid, mem_append]
    tauto
  · intro j q hq
    obtain ⟨p, hp, hpq, hback⟩ := k.back hq
    obtain ⟨a, ha, hap, hback'⟩ := h.back hp
    refine ⟨a, ha, hap.trans hpq, fun hn => ?_⟩
    rcases hback hn with hn | ⟨i, r, hr, hmem, hparent⟩
    · rcases hback' hn with hn | ⟨i, r, hr, hmem, hparent⟩
      · exact .inl hn
      · exact .inr ⟨i, r, hr, mem_append_left _ hmem, hpq ▸ hparent⟩
    · obtain ⟨b, hb, hbr, -⟩ := h.places hr
      exact .inr ⟨i, b, hb, mem_append_right _ (hbr.tgid ▸ hmem), hbr.parent ▸ hparent⟩
  · exact forth_trans h.forth k.forth
  · intro i r P hr hmem hparent hlive
    rcases mem_append.mp hmem with hmem | hmem
    · -- the parent was alive when the first groups ended, and what it heard stays
      obtain ⟨j, q, hq, hg, hql⟩ := hlive
      obtain ⟨a, ha, hqa, hiff⟩ := k.places hq
      obtain ⟨j', p, hp, hpg, hn⟩ := h.told hr hmem hparent
        ⟨j, a, ha, hqa.tgid.symm.trans hg, (hiff.mp hql).1⟩
      obtain ⟨q', hq', hqp, hforth⟩ := k.forth hp
      exact ⟨j', q', hq', hqp.trans hpg, hforth hn⟩
    · obtain ⟨q, hq, hsame, -⟩ := h.place hr
      exact k.told hq (hsame.tgid ▸ hmem) (hsame.parent.trans hparent) hlive

theorem quiet (h : Noticed gs t u) (hkin : Keeps kinOf u v)
    (hnotice : Keeps (fun p => (p.tgid, notified p)) u v) : Noticed gs t v := by
  have hsame : kin v = kin u := hkin.held
  have htells : Tells none u v := .of_keeps hnotice
  refine ⟨⟨?_, ?_, ?_, ?_⟩, ?_⟩
  · rw [hsame, hkin.nextPid]
    exact h.families
  · rw [hsame]
    exact h.places
  · refine h.back_tells htells fun g hnone => ?_
    cases hnone
  · exact forth_trans h.forth htells.forth
  · intro i r P hr hmem hparent hlive
    rw [hsame] at hlive
    exact (h.told hr hmem hparent hlive).tells htells

theorem again (h : Noticed gs t u) (hr : kin t i = some r) (hg : r.tgid ∈ gs) :
    Noticed gs t (u.notifyParent r.parent) := by
  obtain ⟨hfallen, htells, -⟩ := h.notify hr hg
  refine ⟨hfallen, ?_⟩
  intro i' r' P hr' hmem hparent hlive
  rw [(sameKin_notifyParent u r.parent).kin] at hlive
  exact (h.told hr' hmem hparent hlive).tells htells

theorem ended (h : Families (kin t) t.nextPid) {code : Int32}
    (hkin : kin u = fun j => (kin t j).map (Kin.inGroup g (Kin.ended code)))
    (hnext : u.nextPid = t.nextPid) (hnotice : Keeps (fun p => (p.tgid, notified p)) t u)
    (hr : kin t i = some r) (hg : r.tgid = g) : Noticed [g] t (u.notifyParent r.parent) := by
  obtain ⟨hfallen, -, hheard⟩ := (Fallen.ended h hkin hnext hnotice).notify hr (by simp [hg])
  refine ⟨hfallen, ?_⟩
  intro i' r' P hr' hmem hparent hlive
  -- the entries of one group have one parent
  have hsame := (h.whole hr' hr ((mem_singleton.mp hmem).trans hg.symm)).1
  rw [(sameKin_notifyParent u r.parent).kin] at hlive
  exact hheard P (hsame.symm.trans hparent) hlive

end Noticed

section Exits

variable (hal : HalMemory) (heap : Heap) {k : KernelState} {t : Table}

theorem lasting_notice : Lasting fun p : Process => (p.tgid, notified p) :=
  ⟨fun _ _ => rfl, fun _ _ => rfl⟩

theorem noticed_forceExitGroup (h : Families (kin t) t.nextPid) (code : Int32) (hlive : LiveIn (kin t) g) : Noticed [g] t (t.forceExitGroup hal heap code g).2 := by
  obtain ⟨j, q, hq, hg, -⟩ := hlive
  have hmem : j ∈ t.groupTids g := mem_groupTids.mpr ⟨q, hq, hg⟩
  unfold forceExitGroup
  simp only
  split
  · next hnil =>
    rw [hnil] at hmem
    cases hmem
  next first rest hcons =>
  obtain ⟨r, hr, hrg⟩ := mem_groupTids.mp (by rw [hcons]; exact mem_cons_self)
  obtain ⟨p, hp, rfl⟩ := kin_eq_some.mp hr
  have hcount := exitEntries_counters hal heap code (t.groupTids g) t
  rw [hp, bind_some]
  exact .ended h (exitEntries_kin hal heap code g t) (congrArg Prod.fst hcount)
    (keeps_exitEntries hal heap code lasting_notice _ t) hr hrg

theorem noticed_forceExits {tgids : List ℕ} (h : Families (kin t) t.nextPid) (hdistinct : tgids.Nodup)
    (hlive : ∀ g ∈ tgids, LiveIn (kin t) g) : Noticed tgids t (forceExits hal heap tgids t).2 := by
  induction tgids generalizing t with
  | nil => exact .refl h
  | cons g gs ih =>
    obtain ⟨hnot, hdistinct⟩ := nodup_cons.mp hdistinct
    have hfirst := noticed_forceExitGroup hal heap h watchdogCode (hlive g mem_cons_self)
    refine hfirst.trans (ih hfirst.families hdistinct ?_)
    -- the groups still to come are alive
    intro g' hg'
    obtain ⟨j, q, hq, hqg, hql⟩ := hlive g' (mem_cons_of_mem g hg')
    obtain ⟨r, hr, hsame, hiff⟩ := hfirst.place hq
    refine ⟨j, r, hr, hsame.tgid.trans hqg, hiff.mpr ⟨hql, ?_⟩⟩
    rw [hqg, mem_singleton]
    rintro rfl
    exact hnot hg'

theorem Noticed.wakeEach (h : Noticed gs t k.table) (count : ℕ) (addrs : List ℕ) :
    Noticed gs t (addrs.foldl (fun k addr => wakeWaiters count addr k) k).table :=
  h.quiet (keeps_wakeEach count addrs k) (keeps_wakeEach count addrs k)

theorem tellParent_table (parent : Option ℕ) (k : KernelState) :
    (tellParent parent k).table = k.table.notifyParent parent := by
  cases parent <;> rfl

theorem Noticed.tellParent (h : Noticed gs t k.table) (hr : kin t i = some r) (hg : r.tgid ∈ gs) :
    Noticed gs t (ProcessCalls.tellParent r.parent k).table := by
  rw [tellParent_table]
  exact h.again hr hg

theorem Noticed.afterKernelExit (h : Noticed gs t k.table) (x : ThreadExit) (hr : kin t i = some r) (hg : r.tgid ∈ gs) (hx : x.parentTgid = r.parent) :
    Noticed gs t (ProcessCalls.afterKernelExit x k).table := by
  unfold ProcessCalls.afterKernelExit
  rw [hx]
  have htold : Noticed gs t
      (ProcessCalls.tellParent r.parent ⟨k.table, dropTasks x k.scheduler⟩).table :=
    Noticed.tellParent (k := ⟨k.table, dropTasks x k.scheduler⟩) h hr hg
  exact (htold.wakeEach _ (joinAddrs x)).wakeEach 1 x.robustFutexAddrs

def callers (t : Table) : List ℕ :=
  match t.current with
  | .ok p => [p.tgid]
  | .error _ => []

inductive Departs (t : Table) (gs : List ℕ) : KernelResult ThreadExit × Table → Prop where
  | refused (e : ℕ) (h : Noticed gs t t) : Departs t gs (.error e, t)
  | left {x : ThreadExit} {u : Table} {i : ℕ} {r : Kin} (h : Noticed gs t u)
      (hr : kin t i = some r) (hg : r.tgid ∈ gs) (hx : x.parentTgid = r.parent) :
      Departs t gs (.ok x, u)

theorem departs_exitCurrentThread (h : Families (kin t) t.nextPid) (code : Int32)
    (hlast : ∀ p, t.current = .ok p → p.state ≠ .exited ∧ t.groupAlive p.tgid p.tid = false) :
    Departs t (callers t) (t.exitCurrentThread hal heap code) := by
  unfold callers
  rcases hp : t.current with e | p
  · simp only [exitCurrentThread, hp]
    exact .refused e (.refl h)
  have hcur := current_ok hp
  have hkin := exitCurrentThread_kin hal heap code hp
  have hcount := exitCurrentThread_counters hal heap code t
  simp only [exitCurrentThread, hp, leaveThread_groupAlive hal heap code hcur, (hlast p hp).2,
    Bool.false_eq_true, if_false] at hkin hcount ⊢
  rw [(sameKin_notifyParent _ _).kin] at hkin
  rw [(sameKin_notifyParent _ _).counters] at hcount
  refine .left (.ended h hkin (congrArg Prod.fst hcount) ?_ (kin_of_entry hcur) rfl)
    (kin_of_entry hcur) mem_cons_self rfl
  exact (keeps_leaveThread hal heap code lasting_notice p t).trans
    (keeps_endGroup code lasting_notice p.tgid _)

theorem departs_exitCurrentProcessGroup (h : Families (kin t) t.nextPid) (code : Int32) :
    Departs t (callers t) (t.exitCurrentProcessGroup hal heap code) := by
  unfold callers
  rcases hp : t.current with e | p
  · simp only [exitCurrentProcessGroup, hp]
    exact .refused e (.refl h)
  have hcur := current_kin hp
  have hcount := exitEntries_counters hal heap code (t.groupTids p.tgid) t
  simp only [exitCurrentProcessGroup, hp]
  exact .left (.ended h (exitEntries_kin hal heap code p.tgid t) (congrArg Prod.fst hcount)
    (keeps_exitEntries hal heap code lasting_notice _ t) hcur rfl) hcur mem_cons_self rfl

end Exits

def Exit.ends (t : Table) : Exit → List ℕ
  | watchdog _ tgids => tgids
  | _ => callers t

theorem noticed_run {hal : HalMemory} {k : KernelState} (h : Families (kin k.table) k.table.nextPid)
    {e : Exit} (hs : e.Safe k.table) : Noticed (e.ends k.table) k.table (e.run hal k).table := by
  cases e with
  | exit heap code =>
    have hexit := departs_exitCurrentThread hal heap h code hs
    simp only [Exit.run, sysExit, sysExitThread]
    generalize k.table.exitCurrentThread hal heap code = out at hexit ⊢
    cases hexit with
    | refused e h => exact h
    | @left x u _ _ h hr hg hx =>
      simp only [hx]
      exact (Noticed.tellParent (k := ⟨u, _⟩) h hr hg).wakeEach _ _
  | exitGroup heap code =>
    have hexit := departs_exitCurrentProcessGroup hal heap h code
    simp only [Exit.run, sysExit, sysExitGroup]
    generalize k.table.exitCurrentProcessGroup hal heap code = out at hexit ⊢
    cases hexit with
    | refused e h => exact h
    | @left x u _ _ h hr hg hx =>
      simp only [hx]
      exact Noticed.tellParent (k := ⟨u, _⟩) h hr hg
  | signal heap signum =>
    have hexit := departs_exitCurrentThread hal heap h (-Int32.ofNat signum) hs
    simp only [Exit.run, signalExit]
    generalize k.table.exitCurrentThread hal heap (-Int32.ofNat signum) = out at hexit ⊢
    cases hexit with
    | refused e h => exact h
    | @left x u _ _ h hr hg hx => exact Noticed.afterKernelExit (k := ⟨u, k.scheduler⟩) h x hr hg hx
  | forced heap =>
    have hexit := departs_exitCurrentThread hal heap h 7 hs
    simp only [Exit.run, forcedThreadExit]
    generalize k.table.exitCurrentThread hal heap 7 = out at hexit ⊢
    cases hexit with
    | refused e h => exact h
    | @left x u _ _ h hr hg hx => exact Noticed.afterKernelExit (k := ⟨u, k.scheduler⟩) h x hr hg hx
  | fault heap =>
    have hexit := departs_exitCurrentProcessGroup hal heap h (-1)
    simp only [Exit.run, faultExit]
    generalize k.table.exitCurrentProcessGroup hal heap (-1) = out at hexit ⊢
    cases hexit with
    | refused e h => exact h
    | @left x u _ _ h hr hg hx =>
      simp only [hx]
      have hvfork : Noticed (callers k.table) k.table
          (wakeVforkParent x.vforkParentTid ⟨u, dropTasks x k.scheduler⟩).table := by
        cases x.vforkParentTid <;> exact h
      exact ((hvfork.tellParent hr hg).wakeEach _ _).wakeEach _ _
  | watchdog heap tgids =>
    have hforce := noticed_forceExits hal heap h hs.1 hs.2
    simp only [Exit.run, watchdogKill]
    generalize forceExits hal heap tgids k.table = out at hforce ⊢
    obtain ⟨xs, t⟩ := out
    split
    · exact hforce
    have hafter : Noticed tgids k.table (xs.foldl afterForcedExit ⟨t, k.scheduler⟩).table := by
      rw [afterForcedExit_table]
      exact hforce
    exact (hafter.wakeEach _ _).wakeEach _ _

section Runs

variable {hal : HalMemory} {k l : KernelState} {t u : Table}

section

variable (h : Families (kin t) t.nextPid)
include h

theorem Families.names {a : Kin} (ha : kin t i = some a) :
    ∀ P, some a.tgid = some P → P < t.nextPid ∧ ∀ q, kin t P = some q → q.tgid = P := by
  rintro P ⟨⟩
  exact ⟨(h.keyed ha).2.2.2.1, fun q hq => h.named hq ha (.inl rfl)⟩

theorem families_table {op : Op} (hs : tableSafe t op) (hrun : op.run hal t = some u) :
    Families (kin u) u.nextPid := by
  have hd : op.death = none := by cases op <;> first | rfl | exact hs
  have hstep := run_kinStep (fun hq => (h.keyed hq).1) hd hrun
  generalize kin u = K, u.nextPid = n at hstep
  cases hstep with
  | same => exact h
  | refused => exact h.bump
  | spawned =>
    obtain rfl := hs
    refine h.insert (.inl ⟨rfl, ?_⟩)
    intro P hP
    cases hP
  | forked hp => exact h.insert (.inl ⟨rfl, h.names (current_kin hp)⟩)
  | joined hp => exact h.insert (.inr ⟨_, _, current_kin hp, rfl, rfl, hs _ hp⟩)
  | replaced hp => exact h.execve (current_kin hp)
  | reaped _ hz =>
    have hinit : t.initTgid < t.nextPid ∧ ∀ r, kin t t.initTgid = some r → r.tgid = t.initTgid := by
      unfold initTgid
      split
      · next p hp =>
        obtain ⟨⟨i, hi⟩, -⟩ := find_some hp
        exact h.names (kin_of_entry hi) p.tgid rfl
      · have hj := h.keyed hz
        exact ⟨by omega, fun r hr => h.first hr⟩
    exact h.reap hinit.1 hinit.2

end

theorem reached_families (h : Reached hal k) : Families (kin k.table) k.table.nextPid := by
  induction h with
  | boot spaces mem s =>
    exact ⟨le_rfl, fun hq => (kin_empty hq).elim, fun hq => (kin_empty hq).elim,
      fun hq => (kin_empty hq).elim, fun hq => (kin_empty hq).elim, fun hq => (kin_empty hq).elim⟩
  | @step k l e _ hs hstep ih =>
    cases e with
    | exit e =>
      cases hstep
      exact (noticed_run ih hs).families
    | table op =>
      obtain ⟨t, ht, rfl⟩ := map_eq_some_iff.mp hstep
      exact families_table ih hs ht
    | touch tid f hf =>
      cases hstep
      rw [show kin (k.table.modify tid f) = kin k.table from kin_modify_id hf]
      exact ih
    | schedule s =>
      cases hstep
      exact ih

def Absent (g : ℕ) (s : Scheduler) : Prop := ∀ task, Holds s task → task.processId ≠ g

theorem lasts_absent (g : ℕ) : Lasts (Absent g) := by
  intro s h tid
  unfold Scheduler.wakeTask
  split
  · exact h
  next task htask =>
  rintro other (hready | hcurrent | ⟨j, hblocked⟩)
  · rcases mem_append.mp hready with hready | hready
    · exact h other (.inl hready)
    · obtain rfl := mem_singleton.mp hready
      exact h task (.inr (.inr ⟨tid, htask⟩))
  · exact h other (.inr (.inl hcurrent))
  · rw [Std.ExtTreeMap.getElem?_erase] at hblocked
    split at hblocked
    · cases hblocked
    · exact h other (.inr (.inr ⟨j, hblocked⟩))

/-- The default action of a signal, taken by the last thread of a group. -/
theorem absent_signalExit {heap : Heap} {signum : ℕ} {p : Process} (hp : k.table.current = .ok p)
    (hlast : k.table.groupAlive p.tgid p.tid = false) :
    Absent p.tgid (signalExit hal heap signum k).scheduler := by
  have hcur := current_ok hp
  have hdrop : ∀ x : ThreadExit, x.groupExited = true →
      Absent x.tgid (dropTasks x k.scheduler) := by
    intro x hx task hheld
    unfold dropTasks at hheld
    rw [hx] at hheld
    exact ((exitGroup_holds x.tgid _ task).mp hheld).2
  have hanswer : ∃ x, (k.table.exitCurrentThread hal heap (-Int32.ofNat signum)).1 = .ok x ∧
      x.tgid = p.tgid ∧ x.groupExited = true := by
    simp only [exitCurrentThread, hp, leaveThread_groupAlive hal heap _ hcur, hlast]
    exact ⟨_, rfl, rfl, rfl⟩
  unfold signalExit
  generalize k.table.exitCurrentThread hal heap (-Int32.ofNat signum) = out at hanswer ⊢
  obtain ⟨answer, t⟩ := out
  obtain ⟨x, rfl, hg, hx⟩ := hanswer
  have hlasts := lasts_absent p.tgid
  have htold := hlasts.tellParent (k := ⟨t, dropTasks x k.scheduler⟩) (hg ▸ hdrop x hx) x.parentTgid
  exact hlasts.wakeTasks (hlasts.wakeEach (hlasts.wakeEach htold _ _) _ _) _

def Dies (g : ℕ) (t u : Table) : Prop := LiveIn (kin t) g ∧ ¬ LiveIn (kin u) g

theorem Fallen.dies_iff (h : Fallen gs t u) : Dies g t u ↔ LiveIn (kin t) g ∧ g ∈ gs := by
  refine and_congr_right fun hlive => ⟨fun hnot => ?_, fun hmem => ?_⟩
  · obtain ⟨j, r, hr, hg, hl⟩ := hlive
    obtain ⟨q, hq, hsame, hiff⟩ := h.place hr
    by_contra hout
    exact hnot ⟨j, q, hq, hsame.tgid.trans hg, hiff.mpr ⟨hl, hg ▸ hout⟩⟩
  · rintro ⟨j, q, hq, hg, hl⟩
    obtain ⟨r, hr, hsame, hiff⟩ := h.places hq
    exact (hiff.mp hl).2 (hsame.tgid ▸ hg ▸ hmem)

theorem Exit.Safe.live {e : Exit} (hs : e.Safe t) : ∀ g ∈ e.ends t, LiveIn (kin t) g := by
  have hcallers : (∀ p, t.current = .ok p → p.state ≠ .exited) →
      ∀ g ∈ callers t, LiveIn (kin t) g := by
    intro hlive g hg
    unfold callers at hg
    split at hg
    · next p hp =>
      obtain rfl := mem_singleton.mp hg
      exact ⟨t.currentTid, kinOf p, current_kin hp, rfl, hlive p hp⟩
    · cases hg
  cases e with
  | exit | signal | forced => exact hcallers fun p hp => (hs p hp).1
  | exitGroup => exact hcallers hs
  | fault => exact hcallers hs
  | watchdog heap tgids => exact hs.2

/-- In a run in which single threads exit only as the last of their group, an exit notifies the
parent of a group exactly when the group dies by it, and a signal that ends a thread leaves no
thread of its group, in the table or with the scheduler. -/
theorem death_concerns_the_group (h : Reached hal k) (e : Exit) (hs : e.Safe k.table) :
    (∀ (j : ℕ) (p q : Process), k.table.processes[j]? = some p →
      (e.run hal k).table.processes[j]? = some q → notified p = false → notified q = true →
      ∃ (i : ℕ) (r : Process), k.table.processes[i]? = some r ∧ r.parent = some q.tgid ∧
        Dies r.tgid k.table (e.run hal k).table) ∧
    (∀ (i P : ℕ) (r : Process), k.table.processes[i]? = some r → r.parent = some P →
      Dies r.tgid k.table (e.run hal k).table → LiveIn (kin (e.run hal k).table) P →
      Heard P (e.run hal k).table) ∧
    ∀ (heap : Heap) (signum : ℕ) (p : Process), e = .signal heap signum →
      k.table.current = .ok p → ¬ LiveIn (kin (e.run hal k).table) p.tgid ∧
        Absent p.tgid (e.run hal k).scheduler := by
  have hnoticed : Noticed (e.ends k.table) k.table (e.run hal k).table :=
    noticed_run (reached_families h) hs
  refine ⟨?_, ?_, ?_⟩
  · intro j p q hp hq hbefore hafter
    obtain ⟨p', hp', -, hback⟩ := hnoticed.back hq
    obtain rfl : p = p' := some.inj (hp.symm.trans hp')
    rcases hback hafter with hn | ⟨i, r, hr, hmem, hparent⟩
    · rw [hbefore] at hn
      cases hn
    · obtain ⟨r, hentry, rfl⟩ := kin_eq_some.mp hr
      exact ⟨i, r, hentry, hparent, hnoticed.dies_iff.mpr ⟨hs.live _ hmem, hmem⟩⟩
  · intro i P r hr hparent hdies hlive
    exact hnoticed.told (kin_of_entry hr) (hnoticed.dies_iff.mp hdies).2 hparent hlive
  · rintro heap signum p rfl hp
    refine ⟨?_, absent_signalExit hp (hs p hp).2⟩
    have hmem : p.tgid ∈ Exit.ends k.table (.signal heap signum) := by
      simp [Exit.ends, callers, hp]
    exact (hnoticed.dies_iff.mpr ⟨hs.live _ hmem, hmem⟩).2

end Runs

def runEvents (hal : HalMemory) : List Event → KernelState → Option KernelState
  | [], k => some k
  | e :: es, k => (e.step hal k).bind (runEvents hal es)

theorem reached_runEvents {hal : HalMemory} {es : List Event} {k l : KernelState}
    (h : Reached hal k) (hsafe : ∀ e ∈ es, ∀ k, e.Safe k) (hrun : runEvents hal es k = some l) :
    Reached hal l := by
  induction es generalizing k with
  | nil =>
    cases hrun
    exact h
  | cons e es ih =>
    obtain ⟨m, hm, hrest⟩ := bind_eq_some_iff.mp hrun
    exact ih (h.step e (hsafe e mem_cons_self k) hm)
      (fun e he => hsafe e (mem_cons_of_mem _ he)) hrest

def bareBoot : KernelState := boot (fun _ => newUser board) (fun _ => 0) Scheduler.new

def childRuns : List Event :=
  [.table (.spawn emptyHandedHeap none 0), .table (.fork emptyHandedHeap), .table (.setCurrent 2),
    .schedule ((Scheduler.new.spawn 1 1).spawn 2 2)]

def threadRuns : List Event :=
  childRuns ++ [.table (.cloneThread emptyHandedHeap 0 0x1000 none), .table (.setCurrent 3),
    .schedule (((Scheduler.new.spawn 1 1).spawn 2 2).spawn 3 2)]

def outcome (es : List Event) : Option (List (ℕ × ℕ × Bool × Bool) × List (ℕ × ℕ)) :=
  (runEvents board es bareBoot).map fun k =>
    (k.table.values.map fun p => (p.tid, p.tgid, notified p, decide (p.state = .exited)),
      k.scheduler.ready.map fun task => (task.id, task.processId))

/-- The second thread of the child exits, or dies of signal 9: the parent is notified, while the
first thread lives on and is scheduled. -/
theorem thread_death_is_told : outcome (threadRuns ++ [.exit (.exit emptyHandedHeap 0)]) =
      some ([(1, 1, true, false), (2, 2, false, false), (3, 2, false, true)], [(1, 1), (2, 2)]) ∧
    outcome (threadRuns ++ [.exit (.signal emptyHandedHeap 9)]) =
      some ([(1, 1, true, false), (2, 2, false, false), (3, 2, false, true)], [(1, 1), (2, 2)]) := by
  constructor
  · decide +kernel
  · decide +kernel

/-- The child dies of signal 9 as the only thread of its group. -/
theorem death_concerns_the_group_child : ∃ k, k.table.current.toOption.map Process.tgid = some 2 ∧
      Heard 1 (Exit.run board k (.signal emptyHandedHeap 9)).table ∧
      ¬ LiveIn (kin (Exit.run board k (.signal emptyHandedHeap 9)).table) 2 ∧
      Absent 2 (Exit.run board k (.signal emptyHandedHeap 9)).scheduler := by
  have hsome : (runEvents board childRuns bareBoot).isSome = true := by decide +kernel
  obtain ⟨k, hk⟩ := isSome_iff_exists.mp hsome
  have hsafe : ∀ e ∈ childRuns, ∀ k, e.Safe k := by
    intro e he k
    simp only [childRuns, mem_cons, not_mem_nil, or_false] at he
    rcases he with rfl | rfl | rfl | rfl
    · exact rfl
    · exact rfl
    · exact rfl
    · trivial
  have hreached : Reached board k := reached_runEvents (.boot _ _ _) hsafe hk
  have hfacts : (runEvents board childRuns bareBoot).map (fun k =>
      (k.table.current.toOption.map fun p => (p.tgid, p.parent, decide (p.state = .exited),
        k.table.groupAlive p.tgid p.tid),
      hasLive 1 (Exit.run board k (.signal emptyHandedHeap 9)).table)) =
      some (some (2, some 1, false, false), true) := by
    decide +kernel
  rw [hk, map_some, some.injEq, Prod.mk.injEq] at hfacts
  obtain ⟨hcurrent, hinit⟩ := hfacts
  obtain ⟨p, hp, hfields⟩ := map_eq_some_iff.mp hcurrent
  simp only [Prod.mk.injEq, decide_eq_false_iff_not] at hfields
  obtain ⟨hg, hparent, hlive, hlast⟩ := hfields
  have hok : k.table.current = .ok p := toOption_eq_some.mp hp
  have hexit : Exit.Safe k.table (.signal emptyHandedHeap 9) := by
    intro q hq
    obtain rfl : p = q := Except.ok.inj (hok.symm.trans hq)
    exact ⟨hlive, hlast⟩
  obtain ⟨-, htold, hsignal⟩ := death_concerns_the_group hreached _ hexit
  obtain ⟨hdead, habsent⟩ := hsignal _ _ p rfl hok
  have hentry := current_ok hok
  refine ⟨k, by rw [hp, map_some, hg], ?_, hg ▸ hdead, hg ▸ habsent⟩
  exact htold _ 1 p hentry hparent ⟨⟨_, _, kin_of_entry hentry, rfl, hlive⟩, hdead⟩
    (hasLive_iff.mp hinit)

end DeathNotices
