import Whuse.GroupAttributes

/-! What a thread finds when it runs again, whatever the others did meanwhile. -/
namespace ContextIsolation

open Option AddressSpace TrapHandler ProcessTable ProcessTable.Table TableEffects TableFiling
open SignalFrame (SigAction)
open WaitReaping (Op emptyHandedHeap)
open CallRuns (board)
open GroupAttributes (Creates entry_insert wait_entries execve_old execve_nextPid creates_fork
  creates_forkShared creates_cloneThread)

structure Context where
  trapFrame : TrapFrame
  signalMask : UInt64
  signalActions : ℕ → SigAction
  addressSpace : ℕ
  tgid : ℕ

def context (p : Process) : Context :=
  ⟨p.trapFrame, p.signalMask, p.signalActions, p.addressSpace, p.tgid⟩

/-- The running thread replaces its image. -/
def Replaces (j : ℕ) (t : Table) (op : Op) : Prop :=
  t.currentTid = j ∧ ∃ cloneHeap stackHeap entry sp, op = .execve cloneHeap stackHeap entry sp

inductive Run (hal : HalMemory) (allowed : Table → Op → Prop) : Table → Table → Prop where
  | refl (t) : Run hal allowed t t
  | tail {t u v} (op : Op) : Run hal allowed t u → allowed u op → op.run hal u = some v →
      Run hal allowed t v

/-- The tables of a kernel that has started without threads. -/
def Reached (hal : HalMemory) (t : Table) : Prop :=
  ∃ spaces mem, Run hal (fun _ _ => True) (WaitReaping.boot spaces mem).table t

variable {hal : HalMemory} {allowed : Table → Op → Prop} {t u v : Table} {j : ℕ}
  {p q : Process} {op : Op} {own : Prop}

/-- Where an entry of the second table comes from. -/
structure Descends (j : ℕ) (own : Prop) (t u : Table) : Prop where
  nextPid : t.nextPid ≤ u.nextPid
  entry : ∀ {x}, held context u j = some x → held context t j = some x ∨
    t.nextPid ≤ j ∧ j < u.nextPid ∨ own ∧ ∃ p, t.processes[j]? = some p

theorem descends_of_keeps (h : Keeps context t u) : Descends j own t u :=
  ⟨h.nextPid.ge, fun hx => .inl (h.held ▸ hx)⟩

theorem descends_created {c : Process} (hn : u.nextPid = t.nextPid + 1)
    (hu : u.processes = t.processes.insert t.nextPid c) : Descends j own t u := by
  refine ⟨by omega, fun {x} hx => ?_⟩
  obtain ⟨q, hq, rfl⟩ := map_eq_some_iff.mp hx
  rw [hu] at hq
  rcases entry_insert hq with ⟨rfl, -⟩ | ⟨-, hold⟩
  · exact .inr (.inl ⟨le_rfl, by omega⟩)
  · exact .inl (held_of_entry hold)

theorem descends_creates {made : Process → Process → Prop} (h : Creates t u made) :
    Descends j own t u := by
  rcases h.entries with hu | ⟨p, c, -, -, hu⟩
  · refine ⟨by rw [h.nextPid]; omega, fun hx => .inl ?_⟩
    rwa [held, hu] at hx
  · exact descends_created h.nextPid hu

theorem descends_wait (parent : ℕ) (selector : WaitSelector) :
    Descends j own t (t.waitChild parent selector).2 := by
  obtain ⟨hn, hu | ⟨c, init, hu⟩⟩ := wait_entries parent selector t
  · refine ⟨hn.ge, fun hx => .inl ?_⟩
    rwa [held, hu] at hx
  refine ⟨hn.ge, fun {x} hx => .inl ?_⟩
  obtain ⟨q, hq, rfl⟩ := map_eq_some_iff.mp hx
  obtain ⟨p, hp, rfl⟩ := hu hq
  refine (held_of_entry hp).trans (congrArg some ?_)
  split <;> rfl

theorem step_descends (hrun : op.run hal t = some u) : Descends j (Replaces j t op) t u := by
  have hsteady : Steady context := ⟨fun _ _ => rfl, fun _ _ => rfl, fun _ _ => rfl⟩
  cases op with
  | setCurrent tid => exact some.inj hrun ▸ descends_of_keeps (keeps_setCurrent tid t)
  | spawn heap parent entry => exact some.inj hrun ▸ descends_created rfl rfl
  | fork heap => exact some.inj hrun ▸ descends_creates (creates_fork hal heap t)
  | forkShared => exact some.inj hrun ▸ descends_creates (creates_forkShared t)
  | cloneThread heap fuel stack tls =>
    obtain ⟨out, hout, rfl⟩ := map_eq_some_iff.mp hrun
    exact descends_creates (creates_cloneThread hal heap t hout)
  | execve cloneHeap stackHeap entry sp =>
    obtain rfl := some.inj hrun
    rcases hp : t.current with e | p
    · rw [execveCurrentImage, hp]
      exact descends_of_keeps (.refl t)
    refine ⟨(execve_nextPid hal cloneHeap stackHeap entry sp t).ge, fun {x} hx => ?_⟩
    by_cases hj : j = t.currentTid
    · subst hj
      exact .inr (.inr ⟨⟨rfl, _, _, _, _, rfl⟩, p, current_ok hp⟩)
    · obtain ⟨q, hq, rfl⟩ := map_eq_some_iff.mp hx
      exact .inl (held_of_entry (execve_old hp hj hq))
  | exit heap arg =>
    exact some.inj hrun ▸ descends_of_keeps (keeps_exitCurrentThread hal heap arg hsteady t)
  | exitGroup heap arg =>
    exact some.inj hrun ▸ descends_of_keeps (keeps_exitCurrentProcessGroup hal heap arg hsteady t)
  | signalExit heap bit =>
    exact some.inj hrun ▸ descends_of_keeps (keeps_exitCurrentThread hal heap _ hsteady t)
  | forceExit heap tgid code =>
    exact some.inj hrun ▸ descends_of_keeps (keeps_forceExitGroup hal heap code hsteady tgid t)
  | wait parent selector => exact some.inj hrun ▸ descends_wait parent selector

theorem Run.nextPid_le (h : Run hal allowed t u) : t.nextPid ≤ u.nextPid := by
  induction h with
  | refl => exact le_rfl
  | tail op _ _ hrun ih => exact ih.trans (step_descends (j := 0) hrun).nextPid

theorem Reached.below (h : Reached hal t) (hp : t.processes[j]? = some p) : j < t.nextPid := by
  obtain ⟨spaces, mem, h⟩ := h
  induction h generalizing p with
  | refl => simp [WaitReaping.boot] at hp
  | tail op _ _ hrun ih =>
    have hstep := step_descends (j := j) hrun
    rcases hstep.entry (held_of_entry hp) with hold | ⟨-, hlt⟩ | ⟨-, q, hq⟩
    · obtain ⟨q, hq, -⟩ := map_eq_some_iff.mp hold
      exact (ih hq).trans_le hstep.nextPid
    · exact hlt
    · exact (ih hq).trans_le hstep.nextPid

/-- Whoever is created, replaces an image, exits or is reaped meanwhile, a thread that has not
replaced its own goes on with the registers, mask, handlers and space that it had. -/
theorem context_kept (hreached : Reached hal t) (hp : t.processes[j]? = some p)
    (hrun : Run hal (fun t op => ¬ Replaces j t op) t u) (hq : u.processes[j]? = some q) :
    context q = context p := by
  have hbelow := hreached.below hp
  induction hrun generalizing q with
  | refl => exact congrArg context (some.inj (hq.symm.trans hp))
  | tail op hrun hnot hstep ih =>
    rcases (step_descends hstep).entry (held_of_entry hq) with hold | ⟨hnew, -⟩ | ⟨hown, -⟩
    · obtain ⟨r, hr, heq⟩ := map_eq_some_iff.mp hold
      exact heq.symm.trans (ih hr)
    · exact absurd (hbelow.trans_le hrun.nextPid_le) (not_lt.mpr hnew)
    · exact absurd hown hnot

def forked : Table := (((WaitReaping.bareBoot.table.spawn board emptyHandedHeap none 0).2
  |>.forkProcessFromCurrent board emptyHandedHeap).2.setCurrent 2).2

theorem reached_forked : Reached board forked :=
  ⟨_, _, .tail (.setCurrent 2) (.tail (.fork emptyHandedHeap)
    (.tail (.spawn emptyHandedHeap none 0) (.refl _) trivial rfl) trivial rfl) trivial rfl⟩

def exited : Table := (forked.exitCurrentThread board emptyHandedHeap 0).2

theorem context_kept_exited : ∃ p q, forked.processes[1]? = some p ∧
    exited.processes[1]? = some q ∧ context q = context p := by
  obtain ⟨p, hp⟩ := isSome_iff_exists.mp (by decide +kernel : forked.processes[1]?.isSome = true)
  obtain ⟨q, hq⟩ := isSome_iff_exists.mp (by decide +kernel : exited.processes[1]?.isSome = true)
  refine ⟨p, q, hp, hq, context_kept reached_forked hp
    (.tail (.exit emptyHandedHeap 0) (.refl _) ?_ rfl) hq⟩
  rintro ⟨-, _, _, _, _, ⟨⟩⟩

/-- A tid that was in use and is no more never names an entry again. -/
theorem tid_not_reused (hreached : Reached hal t) (hp : t.processes[j]? = some p)
    (hgone : Run hal allowed t u) (hnone : u.processes[j]? = none) (hlater : Run hal allowed u v) :
    v.processes[j]? = none := by
  have hbelow := (hreached.below hp).trans_le hgone.nextPid_le
  induction hlater with
  | refl => exact hnone
  | @tail v w op hrun _ hstep ih =>
    rcases hw : w.processes[j]? with _ | q
    · rfl
    rcases (step_descends hstep).entry (held_of_entry hw) with hold | ⟨hnew, -⟩ | ⟨-, r, hr⟩
    · rw [held, ih] at hold
      cases hold
    · exact absurd (hbelow.trans_le hrun.nextPid_le) (not_lt.mpr hnew)
    · rw [ih] at hr
      cases hr

def reaped : Table := (exited.waitChild 1 .any).2

theorem tid_not_reused_child :
    ((reaped.setCurrent 1).2.forkProcessFromCurrent board emptyHandedHeap).2.processes[2]? =
      none := by
  obtain ⟨p, hp⟩ := isSome_iff_exists.mp (by decide +kernel : forked.processes[2]?.isSome = true)
  have hgone : Run board (fun _ _ => True) forked reaped :=
    .tail (.wait 1 .any) (.tail (.exit emptyHandedHeap 0) (.refl _) trivial rfl) trivial rfl
  exact tid_not_reused reached_forked hp hgone (isNone_iff_eq_none.mp (by decide +kernel))
    (.tail (.fork emptyHandedHeap) (.tail (.setCurrent 1) (.refl _) trivial rfl) trivial rfl)

end ContextIsolation
