import Whuse.TableFiling
import Whuse.WaitReaping

/-! What the threads of a process have in common. Each entry of the process table has its own copy
of the ids, the session, the signal actions and the timer of its group; the calls that set one
of them write all copies, or only one. -/
namespace GroupAttributes

open Option
open Std (ExtTreeMap)
open MachineWord AddressSpace ProcessTable ProcessTable.Table TableEffects TableFiling Function
open CallRuns (board)

def eperm : ℕ := 1

structure Ids where
  real : UInt32
  effective : UInt32
  deriving DecidableEq, Repr

structure SignalAction where
  handler : ℕ
  flags : ℕ
  restorer : ℕ
  mask : UInt64
  deriving DecidableEq, Repr

structure Identity where
  sid : ℕ
  user : Ids
  group : Ids
  groups : List UInt32
  signalActions : ExtTreeMap ℕ SignalAction

structure Timer where
  deadline : Option ℕ
  interval : ℕ
  deriving DecidableEq, Repr

def Timer.off : Timer := ⟨none, 0⟩

/-- The table, with the parts of its entries that only stand here; an id without an entry has
parts that mean nothing. -/
structure Population where
  table : Table
  identity : ℕ → Identity
  timer : ℕ → Timer

def inGroup (g : ℕ) (t : Table) (tid : ℕ) : Bool := t.processes[tid]?.any fun p => p.tgid == g

def onIdentities (g : ℕ) (f : Identity → Identity) (s : Population) : Population :=
  { s with identity := fun tid => if inGroup g s.table tid then f (s.identity tid) else s.identity tid }

def onTimers (g : ℕ) (f : Timer → Timer) (s : Population) : Population :=
  { s with timer := fun tid => if inGroup g s.table tid then f (s.timer tid) else s.timer tid }

def forCurrent (f : Process → KernelResult Unit × Population) (s : Population) :
    KernelResult Unit × Population :=
  match s.table.current with
  | .error e => (.error e, s)
  | .ok p => f p

inductive Kind where
  | user
  | group
  deriving DecidableEq, Repr

def Identity.ids (i : Identity) : Kind → Ids
  | .user => i.user
  | .group => i.group

def Identity.setIds (kind : Kind) (f : Ids → Ids) (i : Identity) : Identity :=
  match kind with
  | .user => { i with user := f i.user }
  | .group => { i with group := f i.group }

/-- Both ids are set; nothing is checked. -/
def setBothCurrent (kind : Kind) (id : UInt32) (s : Population) : KernelResult Unit × Population :=
  forCurrent (fun p => (.ok (), onIdentities p.tgid (Identity.setIds kind fun _ => ⟨id, id⟩) s)) s

def setuidCurrent : UInt32 → Population → KernelResult Unit × Population := setBothCurrent .user
def setgidCurrent : UInt32 → Population → KernelResult Unit × Population := setBothCurrent .group

def Ids.set (real effective : Option UInt32) (ids : Ids) : Ids :=
  ⟨real.getD ids.real, effective.getD ids.effective⟩

def Ids.has (ids : Ids) (id : UInt32) : Prop := id = ids.real ∨ id = ids.effective

instance (ids : Ids) (id : UInt32) : Decidable (ids.has id) :=
  inferInstanceAs (Decidable (_ ∨ _))

/-- The request is refused when neither of the two new ids is an old one. -/
def Ids.refuses (real effective : Option UInt32) (ids : Ids) : Prop :=
  ¬ (ids.real = 0 ∨ ids.effective = 0) ∧ ¬ ids.has (ids.set real effective).real ∧
    ¬ ids.has (ids.set real effective).effective

instance (real effective : Option UInt32) (ids : Ids) : Decidable (ids.refuses real effective) :=
  inferInstanceAs (Decidable (_ ∧ _))

def setIdsCurrent (kind : Kind) (real effective : Option UInt32) (s : Population) :
    KernelResult Unit × Population :=
  forCurrent (fun p =>
    if ((s.identity s.table.currentTid).ids kind).refuses real effective then (.error eperm, s)
    else (.ok (), onIdentities p.tgid (Identity.setIds kind (Ids.set real effective)) s)) s

def setresuidCurrent : Option UInt32 → Option UInt32 → Population → KernelResult Unit × Population :=
  setIdsCurrent .user

def setresgidCurrent : Option UInt32 → Option UInt32 → Population → KernelResult Unit × Population :=
  setIdsCurrent .group

def setgroupsCurrent (groups : List UInt32) (s : Population) : KernelResult Unit × Population :=
  forCurrent (fun p => (.ok (), onIdentities p.tgid (fun i => { i with groups }) s)) s

def setsidCurrent (s : Population) : KernelResult Unit × Population :=
  forCurrent (fun p =>
    let s := onIdentities p.tgid (fun i => { i with sid := p.tgid }) s
    (.ok (), { s with table := s.table.modifyGroup p.tgid fun q => { q with pgid := p.tgid } })) s

def lookedUp (a : SignalAction) : SignalFrame.SigAction :=
  ⟨UInt64.ofNat a.handler, UInt64.ofNat a.restorer, a.mask⟩

def setSigaction (signal : ℕ) (action : SignalAction) (s : Population) :
    KernelResult Unit × Population :=
  if signal = 0 ∨ 64 < signal then (.error einval, s)
  else forCurrent (fun p =>
    let s := onIdentities p.tgid
      (fun i => { i with signalActions := i.signalActions.insert signal action }) s
    (.ok (), { s with table := s.table.modifyGroup p.tgid fun q =>
      { q with signalActions := update q.signalActions signal (lookedUp action) } })) s

def setItimerRealCurrent (timer : Timer) (s : Population) : KernelResult Unit × Population :=
  forCurrent (fun p => (.ok (), onTimers p.tgid (fun _ => timer) s)) s

def Timer.consume (now : ℕ) (timer : Timer) : Timer :=
  match timer.deadline with
  | none => timer
  | some deadline =>
    if deadline ≠ 2 ^ 64 - 1 ∧ deadline ≤ now then
      { timer with deadline :=
          if timer.interval ≠ 0 then some (saturatingAdd now timer.interval) else none }
    else timer

def consumeItimerRealExpiry (g now : ℕ) (s : Population) : Population :=
  onTimers g (Timer.consume now) s

def findProcessByPidMut (pid : ℕ) (t : Table) : KernelResult ℕ :=
  if t.processes.contains pid then .ok pid
  else
    match t.processes.toList.find? fun entry => !entry.2.isThread && entry.2.tgid == pid with
    | none => .error enoent
    | some entry => .ok entry.1

def namedPid (pid : ℕ) (t : Table) : KernelResult ℕ :=
  if pid = 0 then t.current.map Process.tgid else .ok pid

/-- Only the entry that was found is written. -/
def setpgid (pid pgid : ℕ) (s : Population) : KernelResult Unit × Population :=
  match namedPid pid s.table with
  | .error e => (.error e, s)
  | .ok pid =>
    match findProcessByPidMut pid s.table with
    | .error e => (.error e, s)
    | .ok tid =>
      (.ok (), { s with table := s.table.modify tid fun p =>
        { p with pgid := if pgid = 0 then pid else pgid } })

def parseOptionalUid (raw : ℕ) : Option UInt32 :=
  if raw = usizeMax then none else some (UInt32.ofNat raw)

inductive Call where
  | setuid (uid : ℕ)
  | setreuid (ruid euid : ℕ)
  | setresuid (ruid euid suid : ℕ)
  | setgid (gid : ℕ)
  | setregid (rgid egid : ℕ)
  | setresgid (rgid egid sgid : ℕ)
  | setgroups (groups : Option (List UInt32))
  | setpgid (pid pgid : ℕ)
  | setsid
  | sigaction (signal : ℕ) (action : SignalAction)
  | setitimer (timer : Timer)

/-- The saved ids are not kept; a list of groups that cannot be read is an error. -/
def Call.run (s : Population) : Call → KernelResult Unit × Population
  | setuid uid => setuidCurrent (UInt32.ofNat uid) s
  | setreuid ruid euid => setresuidCurrent (parseOptionalUid ruid) (parseOptionalUid euid) s
  | setresuid ruid euid _ => setresuidCurrent (parseOptionalUid ruid) (parseOptionalUid euid) s
  | setgid gid => setgidCurrent (UInt32.ofNat gid) s
  | setregid rgid egid => setresgidCurrent (parseOptionalUid rgid) (parseOptionalUid egid) s
  | setresgid rgid egid _ => setresgidCurrent (parseOptionalUid rgid) (parseOptionalUid egid) s
  | setgroups none => (.error efault, s)
  | setgroups (some groups) => setgroupsCurrent groups s
  | .setpgid pid pgid => GroupAttributes.setpgid pid pgid s
  | setsid => setsidCurrent s
  | sigaction signal action => setSigaction signal action s
  | setitimer timer => setItimerRealCurrent timer s

def Identity.new (sid : ℕ) : Identity := ⟨sid, ⟨0, 0⟩, ⟨0, 0⟩, [], ∅⟩

/-- A new entry takes over the identity of its creator; an image that is replaced loses its
actions. -/
def identitiesAfter (s : Population) : WaitReaping.Op → ℕ → Identity
  | .spawn _ parent _ =>
    update s.identity s.table.nextPid (.new (parent.getD s.table.nextPid))
  | .fork _ => update s.identity s.table.nextPid (s.identity s.table.currentTid)
  | .forkShared => update s.identity s.table.nextPid (s.identity s.table.currentTid)
  | .cloneThread .. => update s.identity s.table.nextPid (s.identity s.table.currentTid)
  | .execve .. =>
    update s.identity s.table.currentTid
      { s.identity s.table.currentTid with signalActions := ∅ }
  | _ => s.identity

/-- No new entry has a timer, and a replaced image loses its own. -/
def timersAfter (s : Population) : WaitReaping.Op → ℕ → Timer
  | .spawn .. => update s.timer s.table.nextPid .off
  | .fork _ => update s.timer s.table.nextPid .off
  | .forkShared => update s.timer s.table.nextPid .off
  | .cloneThread .. => update s.timer s.table.nextPid .off
  | .execve .. => update s.timer s.table.currentTid .off
  | _ => s.timer

def onTable (hal : HalMemory) (op : WaitReaping.Op) (s : Population) : Option Population :=
  (op.run hal s.table).map fun t => ⟨t, identitiesAfter s op, timersAfter s op⟩

inductive Event where
  | table (op : WaitReaping.Op)
  | call (c : Call)
  | timerExpiry (g now : ℕ)

def Event.step (hal : HalMemory) (s : Population) : Event → Option Population
  | table op => onTable hal op s
  | call c => some (c.run s).2
  | timerExpiry g now => some (consumeItimerRealExpiry g now s)

inductive Steps (hal : HalMemory) (safe : Population → Event → Prop) :
    Population → Population → Prop where
  | refl (s) : Steps hal safe s s
  | tail {s s' s''} (e : Event) : Steps hal safe s s' → safe s' e → e.step hal s' = some s'' →
      Steps hal safe s s''

def boot (spaces : ℕ → AddressSpaceInner) (mem : Memory) : Population :=
  ⟨⟨1, 0, ∅, ∅, spaces, 0, mem⟩, fun _ => .new 0, fun _ => .off⟩

structure Standing where
  tid : ℕ
  tgid : ℕ
  parent : Option ℕ
  isThread : Bool
  pgid : ℕ
  signalActions : ℕ → SignalFrame.SigAction

def standing (p : Process) : Standing :=
  ⟨p.tid, p.tgid, p.parent, p.isThread, p.pgid, p.signalActions⟩

theorem steady_standing : Steady standing := ⟨fun _ _ => rfl, fun _ _ => rfl, fun _ _ => rfl⟩

/-- Entries are filed under their tids, and the identity is the same in all entries of a group,
dead or alive. -/
structure Kept (s : Population) : Prop where
  keyed : ∀ {j : ℕ} {p : Process}, s.table.processes[j]? = some p →
    p.tid = j ∧ j < s.table.nextPid ∧ p.tgid < s.table.nextPid ∧ p.isThread = false
  same : ∀ {i j : ℕ} {p q : Process}, s.table.processes[i]? = some p →
    s.table.processes[j]? = some q → p.tgid = q.tgid →
    p.signalActions = q.signalActions ∧ s.identity i = s.identity j

/-- The living entries of a group also have one parent, one process group and one timer. -/
structure Agree (s : Population) : Prop where
  alike : ∀ {i j : ℕ} {p q : Process}, s.table.processes[i]? = some p →
    s.table.processes[j]? = some q → p.tgid = q.tgid → p.state ≠ .exited → q.state ≠ .exited →
    p.parent = q.parent ∧ p.pgid = q.pgid ∧ s.timer i = s.timer j

/-- The caller of a clone is alive and its timer is off; `setpgid` meets no other living entry of
the group, or sets what the others have. -/
def Safe (s : Population) : Event → Prop
  | .table (.cloneThread ..) => ∀ p, s.table.current = .ok p →
      p.state ≠ .exited ∧ s.timer s.table.currentTid = .off
  | .call (.setpgid pid pgid) => ∀ g tid p, namedPid pid s.table = .ok g →
      findProcessByPidMut g s.table = .ok tid → s.table.processes[tid]? = some p →
      p.state ≠ .exited → ∀ j q, j ≠ tid → s.table.processes[j]? = some q → q.tgid = p.tgid →
      q.state ≠ .exited → q.pgid = if pgid = 0 then g else pgid
  | _ => True

/-- The first invariant, and the second in a run that is safe. -/
structure Sound (safe : Prop) (s : Population) : Prop extends Kept s where
  agree : safe → Agree s

/-- What both invariants say of two entries of one group. -/
def Alike (safe : Prop) (s : Population) (i j : ℕ) (p q : Process) : Prop :=
  (p.signalActions = q.signalActions ∧ s.identity i = s.identity j) ∧
    (safe → p.state ≠ .exited → q.state ≠ .exited →
      p.parent = q.parent ∧ p.pgid = q.pgid ∧ s.timer i = s.timer j)

section Pairs

variable {safe : Prop} {s s' : Population} {i j n : ℕ} {p q : Process}

theorem Sound.pair (h : Sound safe s) (hp : s.table.processes[i]? = some p)
    (hq : s.table.processes[j]? = some q) (hg : p.tgid = q.tgid) : Alike safe s i j p q :=
  ⟨h.same hp hq hg, fun hsafe => (h.agree hsafe).alike hp hq hg⟩

theorem Sound.of_pairs (hkeyed : ∀ {j p}, s.table.processes[j]? = some p →
      p.tid = j ∧ j < s.table.nextPid ∧ p.tgid < s.table.nextPid ∧ p.isThread = false)
    (hpairs : ∀ {i j p q}, s.table.processes[i]? = some p → s.table.processes[j]? = some q →
      p.tgid = q.tgid → Alike safe s i j p q) : Sound safe s :=
  ⟨⟨hkeyed, fun hp hq hg => (hpairs hp hq hg).1⟩,
    fun hsafe => ⟨fun hp hq hg => (hpairs hp hq hg).2 hsafe⟩⟩

theorem Alike.refl : Alike safe s i i p p := ⟨⟨rfl, rfl⟩, fun _ _ _ => ⟨rfl, rfl, rfl⟩⟩

theorem Alike.symm (h : Alike safe s i j p q) : Alike safe s j i q p :=
  ⟨⟨h.1.1.symm, h.1.2.symm⟩, fun hsafe hq hp =>
    have ⟨hparent, hpgid, htimer⟩ := h.2 hsafe hp hq
    ⟨hparent.symm, hpgid.symm, htimer.symm⟩⟩

/-- Nothing changes for entries other than the one that is written. -/
theorem Alike.off (h : Alike safe s i j p q) {x : Identity} {y : Timer}
    (hids : s'.identity = update s.identity n x) (htimers : s'.timer = update s.timer n y)
    (hi : i ≠ n) (hj : j ≠ n) : Alike safe s' i j p q := by
  unfold Alike
  rw [hids, htimers]
  simp only [update_of_ne hi, update_of_ne hj]
  exact h

end Pairs

structure Fades (t u : Table) : Prop where
  back : ∀ {j : ℕ} {p : Process}, u.processes[j]? = some p → ∃ q, t.processes[j]? = some q ∧
    standing p = standing q ∧ (p.state ≠ .exited → q.state ≠ .exited)
  nextPid : u.nextPid = t.nextPid

theorem Fades.refl (t : Table) : Fades t t := ⟨fun h => ⟨_, h, rfl, id⟩, rfl⟩

theorem fades_setCurrent (tid : ℕ) (t : Table) : Fades t (t.setCurrent tid).2 := by
  unfold Table.setCurrent
  split <;> exact ⟨fun h => ⟨_, h, rfl, id⟩, rfl⟩

variable {c p : Process} {f : Process → Process} {t u : Table} {j g : ℕ}

theorem fades_of (hkeeps : Keeps standing t u)
    (hlive : ∀ {j q}, kin u j = some q → q.Live → ∃ r, kin t j = some r ∧ r.Live) : Fades t u := by
  refine ⟨fun {j p} hp => ?_, hkeeps.nextPid⟩
  have hheld : held standing t j = some (standing p) := by
    rw [← hkeeps.held]
    exact held_of_entry hp
  obtain ⟨q, hq, hsame⟩ := map_eq_some_iff.mp hheld
  refine ⟨q, hq, hsame.symm, fun hstate => ?_⟩
  obtain ⟨r, hr, hrlive⟩ := hlive (kin_of_entry hp) hstate
  obtain ⟨q', hq', rfl⟩ := kin_eq_some.mp hr
  obtain rfl : q' = q := some.inj (hq'.symm.trans hq)
  exact hrlive

theorem live_inGroup {K : ℕ → Option Kin} {code : Int32} {q : Kin}
    (hq : (K j).map (Kin.inGroup g (Kin.ended code)) = some q) (hlive : q.Live) :
    ∃ r, K j = some r ∧ r.Live := by
  obtain ⟨r, hr, rfl⟩ := map_eq_some_iff.mp hq
  refine ⟨r, hr, ?_⟩
  unfold Kin.inGroup at hlive
  split at hlive
  · exact absurd rfl hlive
  · exact hlive

section Exits

variable (hal : HalMemory) (heap : Heap) (code : Int32) (t : Table)

theorem fades_exitThread : Fades t (t.exitCurrentThread hal heap code).2 := by
  rcases hp : t.current with e | p
  · rw [exitCurrentThread, hp]
    exact .refl t
  refine fades_of (keeps_exitCurrentThread hal heap code steady_standing t) ?_
  intro j q hq hlive
  rw [exitCurrentThread_kin hal heap code hp] at hq
  split at hq
  · rw [update_apply] at hq
    split at hq
    · cases hq
      exact absurd rfl hlive
    · exact ⟨q, hq, hlive⟩
  · exact live_inGroup hq hlive

theorem fades_exitGroup : Fades t (t.exitCurrentProcessGroup hal heap code).2 := by
  rcases hp : t.current with e | p
  · rw [exitCurrentProcessGroup, hp]
    exact .refl t
  refine fades_of (keeps_exitCurrentProcessGroup hal heap code steady_standing t) ?_
  intro j q hq hlive
  rw [exitCurrentProcessGroup_kin hal heap code hp] at hq
  exact live_inGroup hq hlive

theorem fades_forceExit (g : ℕ) : Fades t (t.forceExitGroup hal heap code g).2 := by
  refine fades_of (keeps_forceExitGroup hal heap code steady_standing g t) ?_
  intro j q hq hlive
  rw [forceExitGroup_kin hal heap code g t] at hq
  exact live_inGroup hq hlive

end Exits

theorem Sound.fades {safe : Prop} {s : Population} (h : Sound safe s) (hf : Fades s.table u) :
    Sound safe { s with table := u } := by
  refine .of_pairs (fun {j p} hp => ?_) fun {i j p q} hp hq hg => ?_
  · obtain ⟨q, hq, hsame, -⟩ := hf.back hp
    simp only [standing, Standing.mk.injEq] at hsame
    rw [hsame.1, hsame.2.1, hsame.2.2.2.1, hf.nextPid]
    exact h.keyed hq
  · obtain ⟨p₀, hp₀, hsp, hpl⟩ := hf.back hp
    obtain ⟨q₀, hq₀, hsq, hql⟩ := hf.back hq
    simp only [standing, Standing.mk.injEq] at hsp hsq
    have hpair := h.pair hp₀ hq₀ (by rw [← hsp.2.1, ← hsq.2.1, hg])
    rw [Alike, hsp.2.2.1, hsq.2.2.1, hsp.2.2.2.2.1, hsq.2.2.2.2.1, hsp.2.2.2.2.2, hsq.2.2.2.2.2]
    exact ⟨hpair.1, fun hsafe hp hq => hpair.2 hsafe (hpl hp) (hql hq)⟩

section Creation

variable {safe : Prop} {s s' : Population} {i : Identity}

theorem entry_insert {n : ℕ} (h : (t.processes.insert n c)[j]? = some p) :
    j = n ∧ p = c ∨ j ≠ n ∧ t.processes[j]? = some p := by
  rw [ExtTreeMap.getElem?_insert] at h
  split at h
  · next hj => exact .inl ⟨(Std.LawfulEqOrd.compare_eq_iff_eq.mp hj).symm, (some.inj h).symm⟩
  · next hj => exact .inr ⟨fun heq => hj (by simp [heq]), h⟩

theorem update_old (hk : Kept s) {β : Type} {f : ℕ → β} {x : β}
    (hp : s.table.processes[j]? = some p) : update f s.table.nextPid x j = f j :=
  update_of_ne (hk.keyed hp).2.1.ne ..

theorem Sound.takeId (h : Sound safe s) (hu : s'.table.processes = s.table.processes)
    (hn : s'.table.nextPid = s.table.nextPid + 1)
    (hids : s'.identity = update s.identity s.table.nextPid i)
    (htimers : s'.timer = update s.timer s.table.nextPid .off) : Sound safe s' := by
  refine .of_pairs (fun {j p} hp => ?_) fun {j k p q} hp hq hg => ?_
  · obtain ⟨htid, hj, hg, hthread⟩ := h.keyed (hu ▸ hp)
    exact ⟨htid, by omega, by omega, hthread⟩
  · rw [hu] at hp hq
    exact (h.pair hp hq hg).off hids htimers (h.keyed hp).2.1.ne (h.keyed hq).2.1.ne

theorem Sound.born (h : Sound safe s)
    (hu : s'.table.processes = s.table.processes.insert s.table.nextPid c)
    (hn : s'.table.nextPid = s.table.nextPid + 1)
    (hids : s'.identity = update s.identity s.table.nextPid i)
    (htimers : s'.timer = update s.timer s.table.nextPid .off)
    (hc : c.tid = s.table.nextPid ∧ c.isThread = false)
    (hgroup : c.tgid = s.table.nextPid ∨ ∃ p, s.table.processes[s.table.currentTid]? = some p ∧
      c.tgid = p.tgid ∧ c.signalActions = p.signalActions ∧ i = s.identity s.table.currentTid ∧
      c.parent = p.parent ∧ c.pgid = p.pgid ∧
      (safe → p.state ≠ .exited ∧ s.timer s.table.currentTid = .off)) : Sound safe s' := by
  have hbelow : c.tgid ≤ s.table.nextPid := by
    rcases hgroup with heq | ⟨p, hp, heq, -⟩
    · exact heq.le
    · rw [heq]
      exact (h.keyed hp).2.2.1.le
  -- an old entry of the new entry's group is one of its creator's
  have hbeside : ∀ {j : ℕ} {q : Process}, s.table.processes[j]? = some q → q.tgid = c.tgid →
      Alike safe s' j s.table.nextPid q c := by
    intro j q hq hg
    rcases hgroup with heq | ⟨p, hp, heq, hactions, rfl, hparent, hpgid, hlive⟩
    · exact absurd (hg.trans heq) (h.keyed hq).2.2.1.ne
    have hpair := h.pair hq hp (hg.trans heq)
    rw [Alike, hids, htimers, hactions, hparent, hpgid]
    simp only [update_self, update_old h.toKept hq]
    exact ⟨hpair.1, fun hsafe hq _ => (hlive hsafe).2 ▸ hpair.2 hsafe hq (hlive hsafe).1⟩
  refine .of_pairs (fun {j p} hp => ?_) fun {j k p q} hp hq hg => ?_
  · rw [hu] at hp
    rcases entry_insert hp with ⟨rfl, rfl⟩ | ⟨-, hp⟩
    · exact ⟨hc.1, by omega, by omega, hc.2⟩
    · obtain ⟨htid, hj, hg, hthread⟩ := h.keyed hp
      exact ⟨htid, by omega, by omega, hthread⟩
  · rw [hu] at hp hq
    rcases entry_insert hp with ⟨rfl, rfl⟩ | ⟨hj, hpold⟩ <;>
      rcases entry_insert hq with ⟨rfl, rfl⟩ | ⟨hk, hqold⟩
    · exact .refl
    · exact (hbeside hqold hg.symm).symm
    · exact hbeside hpold hg
    · exact (h.pair hpold hqold hg).off hids htimers hj hk

end Creation

/-- What a creating operation does: it takes an id, and adds an entry or none. -/
structure Creates (t u : Table) (made : Process → Process → Prop) : Prop where
  nextPid : u.nextPid = t.nextPid + 1
  entries : u.processes = t.processes ∨ ∃ p c, t.current = .ok p ∧ made p c ∧
    u.processes = t.processes.insert t.nextPid c

def Forked (t : Table) (_ c : Process) : Prop :=
  c.tid = t.nextPid ∧ c.isThread = false ∧ c.tgid = t.nextPid

def Threaded (t : Table) (p c : Process) : Prop :=
  c.tid = t.nextPid ∧ c.isThread = false ∧ c.tgid = p.tgid ∧ c.signalActions = p.signalActions ∧
    c.parent = p.parent ∧ c.pgid = p.pgid

section Creates

variable (hal : HalMemory) (heap : Heap) (t : Table)

theorem Creates.of_begets {made sort : Process → Process → Prop} (h : Begets t u made)
    (hsort : ∀ p c, made p c → sort p c) : Creates t u sort :=
  ⟨congrArg Prod.fst h.counters, h.entries.imp_right fun ⟨p, c, hp, hc, hu⟩ =>
    ⟨p, c, hp, hsort p c hc, hu⟩⟩

theorem forked_of_forks (p c : Process) (h : Forks t p c) : Forked t p c :=
  ⟨congrArg Kin.tid h, congrArg Kin.isThread h, congrArg Kin.tgid h⟩

theorem creates_fork : Creates t (t.forkProcessFromCurrent hal heap).2 (Forked t) :=
  .of_begets t (begets_fork hal heap t) (forked_of_forks t)

theorem creates_forkShared : Creates t t.forkProcessFromCurrentShared.2 (Forked t) :=
  .of_begets t (begets_forkShared t) (forked_of_forks t)

theorem creates_cloneThread {fuel stack : ℕ} {tls : Option ℕ} {r : KernelResult ℕ}
    (h : t.cloneThreadFromCurrent hal heap fuel stack tls = some (r, u)) :
    Creates t u (Threaded t) := by
  refine .of_begets t (begets_cloneThread h) fun p c hc => ?_
  exact ⟨congrArg Kin.tid hc.1, congrArg Kin.isThread hc.1, congrArg Kin.tgid hc.1, hc.2.1,
    congrArg Kin.parent hc.1, hc.2.2⟩

end Creates

section Execve

variable {hal : HalMemory} {cloneHeap stackHeap : Heap} {entry : UInt64} {sp : Option UInt64}
  {q : Process}

theorem execve_old (hp : t.current = .ok p) (hj : j ≠ t.currentTid)
    (hq : (t.execveCurrentImage hal cloneHeap stackHeap entry sp).2.processes[j]? = some q) :
    t.processes[j]? = some q := by
  obtain ⟨r, hr⟩ := execve_replaced hal cloneHeap stackHeap entry sp hp
  rw [hr.processes, Std.ExtTreeMap.getElem?_insert, if_neg (by simpa using Ne.symm hj)] at hq
  have hdropped : held id (withoutOthers p t) j = some q := by rw [held, hq]; rfl
  simpa [held] using (held_dropEntries id _ t).1 j q hdropped

/-- The caller's entry starts afresh, and no other of its group is left. -/
theorem execve_entries (hkey : ∀ p, t.current = .ok p → p.tid = t.currentTid)
    (hq : (t.execveCurrentImage hal cloneHeap stackHeap entry sp).2.processes[j]? = some q) :
    (∃ p, t.current = .ok p ∧ j = t.currentTid ∧ q.tid = p.tid ∧ q.tgid = p.tgid ∧
        q.isThread = false) ∨
      j ≠ t.currentTid ∧ t.processes[j]? = some q ∧ ∀ p, t.current = .ok p → q.tgid ≠ p.tgid := by
  rcases hp : t.current with e | p
  · rw [execveCurrentImage, hp] at hq
    refine .inr ⟨?_, hq, fun p h => (by cases h)⟩
    rintro rfl
    simp only [Table.current, hq] at hp
    cases hp
  have hqkin := kin_of_entry hq
  rw [execveCurrentImage_kin hal cloneHeap stackHeap entry sp hp (hkey p hp),
    update_apply] at hqkin
  split at hqkin
  · next hj =>
    have hreset := some.inj hqkin
    exact .inl ⟨p, rfl, hj, (congrArg Kin.tid hreset).symm, (congrArg Kin.tgid hreset).symm,
      (congrArg Kin.isThread hreset).symm⟩
  · next hj =>
    obtain ⟨-, hg⟩ := filter_eq_some_iff.mp hqkin
    refine .inr ⟨hj, execve_old hp hj hq, fun p' hp' => ?_⟩
    obtain rfl := Except.ok.inj hp'
    simpa [kinOf] using hg

end Execve

/-- What is left after a wait: all entries, or those of other groups with new parents. -/
theorem wait_entries (parent : ℕ) (selector : WaitSelector) (t : Table) :
    (t.waitChild parent selector).2.nextPid = t.nextPid ∧
    ((t.waitChild parent selector).2.processes = t.processes ∨ ∃ c init, ∀ {j : ℕ} {q : Process},
        (t.waitChild parent selector).2.processes[j]? = some q → ∃ p, t.processes[j]? = some p ∧
          q = if !p.isThread && p.state != .exited && p.parent == some c && p.tgid != c then
            { p with parent := some init } else p) := by
  rcases waitChild_cases parent selector t with ⟨hsame, -⟩ | ⟨j, q, -, -, -, -, -, hreap⟩
  · rw [hsame]
    exact ⟨rfl, .inl rfl⟩
  rw [hreap]
  refine ⟨congrArg Prod.fst (reapThreadGroup_kin q.tgid t).2, .inr ⟨q.tgid, t.initTgid, ?_⟩⟩
  intro i r hr
  have hdrop := held_dropEntries (id : Process → Process)
    ((t.adoptChildren q.tgid t.initTgid).groupTids q.tgid) (t.adoptChildren q.tgid t.initTgid)
  have hheld := hdrop.1 i r (by rw [held]; exact congrArg (Option.map id) hr)
  simp only [held, adoptChildren, ExtTreeMap.getElem?_map, Option.map_id_fun, id,
    map_eq_some_iff] at hheld
  obtain ⟨p, hp, rfl⟩ := hheld
  exact ⟨p, hp, rfl⟩

section Steps

variable {hal : HalMemory} {safe : Prop} {s s' : Population} {guard : Population → Event → Prop}

theorem Kept.current (h : Kept s) (p : Process) (hp : s.table.current = .ok p) :
    p.tid = s.table.currentTid := (h.keyed (current_ok hp)).1

theorem Sound.created (h : Sound safe s) {made : Process → Process → Prop}
    (hc : Creates s.table s'.table made)
    (hids : s'.identity = update s.identity s.table.nextPid (s.identity s.table.currentTid))
    (htimers : s'.timer = update s.timer s.table.nextPid .off)
    (hmade : ∀ p c, s.table.current = .ok p → made p c → Forked s.table p c ∨
      Threaded s.table p c ∧ (safe → p.state ≠ .exited ∧ s.timer s.table.currentTid = .off)) :
    Sound safe s' := by
  rcases hc.entries with hu | ⟨p, c, hp, hpc, hu⟩
  · exact h.takeId hu hc.nextPid hids htimers
  rcases hmade p c hp hpc with ⟨htid, hthread, hg⟩ | ⟨⟨htid, hthread, hg, hactions, hrest⟩, hlive⟩
  · exact h.born hu hc.nextPid hids htimers ⟨htid, hthread⟩ (.inl hg)
  · exact h.born hu hc.nextPid hids htimers ⟨htid, hthread⟩
      (.inr ⟨p, current_ok hp, hg, hactions, rfl, hrest.1, hrest.2, hlive⟩)

theorem execve_nextPid (hal : HalMemory) (cloneHeap stackHeap : Heap) (entry : UInt64)
    (sp : Option UInt64) (t : Table) :
    (t.execveCurrentImage hal cloneHeap stackHeap entry sp).2.nextPid = t.nextPid :=
  congrArg Prod.fst (execveCurrentImage_counters hal cloneHeap stackHeap entry sp t)

theorem Sound.execve (h : Sound safe s) (cloneHeap stackHeap : Heap) (entry : UInt64)
    (sp : Option UInt64) (i : Identity) (x : Timer) :
    Sound safe ⟨(s.table.execveCurrentImage hal cloneHeap stackHeap entry sp).2,
      update s.identity s.table.currentTid i,
      update s.timer s.table.currentTid x⟩ := by
  refine .of_pairs (fun {j q} hq => ?_) fun {j k q r} hq hr hg => ?_
  · simp only [execve_nextPid]
    rcases execve_entries h.current hq with ⟨p, hp, rfl, htid, hg, hthread⟩ | ⟨-, hq, -⟩
    · have hfiled := h.keyed (current_ok hp)
      exact ⟨htid.trans hfiled.1, hfiled.2.1, hg ▸ hfiled.2.2.1, hthread⟩
    · exact h.keyed hq
  · rcases execve_entries h.current hq with ⟨p, hp, rfl, -, hqg, -⟩ | ⟨hj, hqold, hqg⟩ <;>
      rcases execve_entries h.current hr with ⟨p', hp', rfl, -, hrg, -⟩ | ⟨hk, hrold, hrg⟩
    · obtain rfl : q = r := some.inj (hq.symm.trans hr)
      exact .refl
    · exact absurd (hg.symm.trans hqg) (hrg p hp)
    · exact absurd (hg.trans hrg) (hqg p' hp')
    · exact (h.pair hqold hrold hg).off rfl rfl hj hk

/-- The living children of a reaped group are adopted all together. -/
theorem Sound.wait (h : Sound safe s) (parent : ℕ) (selector : WaitSelector) :
    Sound safe { s with table := (s.table.waitChild parent selector).2 } := by
  obtain ⟨hnext, hsame | ⟨c, init, hback⟩⟩ := wait_entries parent selector s.table
  · refine .of_pairs (fun {j p} hp => ?_) fun {i j p q} hp hq hg => ?_
    · simp only [hnext]
      exact h.keyed (hsame ▸ hp)
    · exact h.pair (hsame ▸ hp) (hsame ▸ hq) hg
  · refine .of_pairs (fun {j q} hq => ?_) fun {i j p q} hp hq hg => ?_
    · obtain ⟨p, hp, rfl⟩ := hback hq
      simp only [hnext, apply_ite Process.tid, apply_ite Process.tgid, apply_ite Process.isThread,
        ite_self]
      exact h.keyed hp
    · obtain ⟨p₀, hp₀, rfl⟩ := hback hp
      obtain ⟨q₀, hq₀, rfl⟩ := hback hq
      simp only [apply_ite Process.tgid, ite_self] at hg
      obtain ⟨hsame, halike⟩ := h.pair hp₀ hq₀ hg
      have hthread : p₀.isThread = q₀.isThread := (h.keyed hp₀).2.2.2.trans (h.keyed hq₀).2.2.2.symm
      simp only [Alike, apply_ite Process.signalActions, apply_ite Process.state,
        apply_ite Process.parent, apply_ite Process.pgid, ite_self]
      refine ⟨hsame, fun hsafe hpl hql => ?_⟩
      obtain ⟨hparent, hpgid, htimer⟩ := halike hsafe hpl hql
      have hpb : (p₀.state != .exited) = true := bne_iff_ne.mpr hpl
      have hqb : (q₀.state != .exited) = true := bne_iff_ne.mpr hql
      exact ⟨by simp only [hparent, hg, hthread, hpb, hqb], hpgid, htimer⟩

theorem Sound.onTable (h : Sound safe s) (op : WaitReaping.Op) (hsafe : safe → Safe s (.table op))
    (hstep : onTable hal op s = some s') : Sound safe s' := by
  obtain ⟨t, hrun, rfl⟩ := map_eq_some_iff.mp hstep
  cases op with
  | setCurrent tid =>
    cases hrun
    exact h.fades (fades_setCurrent tid s.table)
  | spawn heap parent entry =>
    cases hrun
    exact h.born rfl rfl rfl rfl ⟨rfl, rfl⟩ (.inl rfl)
  | fork heap =>
    cases hrun
    exact h.created (creates_fork hal heap s.table) rfl rfl fun p c _ hc => .inl hc
  | forkShared =>
    cases hrun
    exact h.created (creates_forkShared s.table) rfl rfl fun p c _ hc => .inl hc
  | cloneThread heap fuel stack tls =>
    obtain ⟨⟨r, u⟩, hclone, rfl⟩ := map_eq_some_iff.mp hrun
    refine h.created (creates_cloneThread hal heap s.table hclone) rfl rfl fun p c hp hc => ?_
    exact .inr ⟨hc, fun hs => hsafe hs p hp⟩
  | execve cloneHeap stackHeap entry sp =>
    cases hrun
    exact h.execve cloneHeap stackHeap entry sp _ _
  | exit heap arg =>
    cases hrun
    exact h.fades (fades_exitThread hal heap arg s.table)
  | exitGroup heap arg =>
    cases hrun
    exact h.fades (fades_exitGroup hal heap arg s.table)
  | signalExit heap bit =>
    cases hrun
    exact h.fades (fades_exitThread hal heap _ s.table)
  | forceExit heap tgid code =>
    cases hrun
    exact h.fades (fades_forceExit hal heap code s.table tgid)
  | wait parent selector =>
    cases hrun
    exact h.wait parent selector

theorem inGroup_entry {g : ℕ} (hp : t.processes[j]? = some p) : inGroup g t j = (p.tgid == g) := by
  rw [inGroup, hp, any_some]

section

variable (h : Sound safe s)
include h

theorem Sound.onIdentities (g : ℕ) (f : Identity → Identity) : Sound safe (onIdentities g f s) := by
  refine .of_pairs h.keyed fun {i j p q} hp hq hg => ?_
  obtain ⟨⟨hactions, hid⟩, halike⟩ := h.pair hp hq hg
  have hi : inGroup g s.table i = (p.tgid == g) := inGroup_entry hp
  have hj : inGroup g s.table j = (q.tgid == g) := inGroup_entry hq
  refine ⟨⟨hactions, ?_⟩, halike⟩
  simp [GroupAttributes.onIdentities, hi, hj, hg, hid]

theorem Sound.onTimers (g : ℕ) (f : Timer → Timer) : Sound safe (onTimers g f s) := by
  refine .of_pairs h.keyed fun {i j p q} hp hq hg => ?_
  obtain ⟨hsame, halike⟩ := h.pair hp hq hg
  have hi : inGroup g s.table i = (p.tgid == g) := inGroup_entry hp
  have hj : inGroup g s.table j = (q.tgid == g) := inGroup_entry hq
  refine ⟨hsame, fun hsafe hpl hql => ?_⟩
  obtain ⟨hparent, hpgid, htimer⟩ := halike hsafe hpl hql
  refine ⟨hparent, hpgid, ?_⟩
  simp [GroupAttributes.onTimers, hi, hj, hg, htimer]

/-- A loop over the entries of a group that keeps their places, treats their actions alike, and
sets one process group or leaves them all. -/
theorem Sound.modifyGroup (g : ℕ)
    (actions : (ℕ → SignalFrame.SigAction) → ℕ → SignalFrame.SigAction) (pgid : ℕ → ℕ)
    (hf : ∀ p, ((f p).tid = p.tid ∧ (f p).tgid = p.tgid ∧ (f p).isThread = p.isThread) ∧
      (f p).signalActions = actions p.signalActions ∧ (f p).parent = p.parent ∧
      (f p).state = p.state ∧ (f p).pgid = pgid p.pgid) :
    Sound safe { s with table := s.table.modifyGroup g f } := by
  refine .of_pairs (fun {j q} hq => ?_) fun {i j p q} hp hq hg => ?_
  · obtain ⟨p, hp, rfl⟩ := modifyGroup_eq_some.mp hq
    obtain ⟨⟨htid, htgid, hthread⟩, -⟩ := hf p
    simp only [apply_ite Process.tid, apply_ite Process.tgid, apply_ite Process.isThread, htid,
      htgid, hthread, ite_self]
    exact h.keyed hp
  · obtain ⟨p₀, hp₀, rfl⟩ := modifyGroup_eq_some.mp hp
    obtain ⟨q₀, hq₀, rfl⟩ := modifyGroup_eq_some.mp hq
    simp only [apply_ite Process.tgid, (hf _).1.2.1, ite_self] at hg
    obtain ⟨⟨hactions, hid⟩, halike⟩ := h.pair hp₀ hq₀ hg
    simp only [Alike, apply_ite Process.signalActions, apply_ite Process.parent,
      apply_ite Process.state, apply_ite Process.pgid, (hf _).2, ite_self]
    refine ⟨⟨by simp only [hg, hactions], hid⟩, fun hsafe hpl hql => ?_⟩
    obtain ⟨hparent, hpgid, htimer⟩ := halike hsafe hpl hql
    exact ⟨hparent, by simp only [hg, hpgid], htimer⟩

theorem Sound.setpgid {pid pgid : ℕ}
    (hsafe : safe → Safe s (.call (.setpgid pid pgid))) :
    Sound safe (GroupAttributes.setpgid pid pgid s).2 := by
  unfold GroupAttributes.setpgid
  split
  · exact h
  next g hg =>
  split
  · exact h
  next tid htid =>
  refine .of_pairs (fun {j q} hq => ?_) fun {i j p q} hp hq hgroup => ?_
  · obtain ⟨p, hp, rfl⟩ := modify_eq_some.mp hq
    simp only [apply_ite Process.tid, apply_ite Process.tgid, apply_ite Process.isThread, ite_self]
    exact h.keyed hp
  · obtain ⟨p₀, hp₀, rfl⟩ := modify_eq_some.mp hp
    obtain ⟨q₀, hq₀, rfl⟩ := modify_eq_some.mp hq
    simp only [apply_ite Process.tgid, ite_self] at hgroup
    obtain ⟨hsame, halike⟩ := h.pair hp₀ hq₀ hgroup
    simp only [Alike, apply_ite Process.signalActions, apply_ite Process.parent,
      apply_ite Process.state, ite_self]
    refine ⟨hsame, fun hs hpl hql => ?_⟩
    obtain ⟨hparent, hpgid, htimer⟩ := halike hs hpl hql
    refine ⟨hparent, ?_, htimer⟩
    -- the entry that was found against the others, which have the new value already
    by_cases hi : i = tid <;> by_cases hj : j = tid
    · rw [if_pos hi, if_pos hj]
    · rw [if_pos hi, if_neg hj]
      subst hi
      exact (hsafe hs g i p₀ hg htid hp₀ hpl j q₀ hj hq₀ hgroup.symm hql).symm
    · rw [if_neg hi, if_pos hj]
      subst hj
      exact hsafe hs g j q₀ hg htid hq₀ hql i p₀ hi hp₀ hgroup hpl
    · rw [if_neg hi, if_neg hj, hpgid]

theorem Sound.forCurrent {f : Process → KernelResult Unit × Population}
    (hf : ∀ p, Sound safe (f p).2) : Sound safe (forCurrent f s).2 := by
  unfold GroupAttributes.forCurrent
  split
  · exact h
  · next p hp => exact hf p

theorem Sound.setIdsCurrent (kind : Kind) (real effective : Option UInt32) :
    Sound safe (setIdsCurrent kind real effective s).2 := by
  refine h.forCurrent fun p => ?_
  split
  · exact h
  · exact h.onIdentities _ _

theorem Sound.call (c : Call) (hsafe : safe → Safe s (.call c)) : Sound safe (c.run s).2 := by
  cases c with
  | setuid uid | setgid gid => exact h.forCurrent fun p => h.onIdentities _ _
  | setreuid ruid euid | setresuid ruid euid suid => exact h.setIdsCurrent .user _ _
  | setregid rgid egid | setresgid rgid egid sgid => exact h.setIdsCurrent .group _ _
  | setgroups groups =>
    cases groups with
    | none => exact h
    | some groups =>
      exact h.forCurrent fun p => h.onIdentities p.tgid fun i => { i with groups }
  | setpgid pid pgid => exact h.setpgid hsafe
  | setsid =>
    refine h.forCurrent fun p => ?_
    exact (h.onIdentities _ _).modifyGroup p.tgid id (fun _ => p.tgid)
      fun q => ⟨⟨rfl, rfl, rfl⟩, rfl, rfl, rfl, rfl⟩
  | sigaction signal action =>
    simp only [Call.run, setSigaction]
    split
    · exact h
    refine h.forCurrent fun p => ?_
    exact (h.onIdentities _ _).modifyGroup p.tgid
      (fun old => update old signal (lookedUp action)) id
      fun q => ⟨⟨rfl, rfl, rfl⟩, rfl, rfl, rfl, rfl⟩
  | setitimer timer => exact h.forCurrent fun p => h.onTimers p.tgid fun _ => timer

theorem Sound.step (e : Event) (hsafe : safe → Safe s e)
    (hstep : e.step hal s = some s') : Sound safe s' := by
  cases e with
  | table op => exact h.onTable op hsafe hstep
  | call c =>
    cases hstep
    exact h.call c hsafe
  | timerExpiry g now =>
    cases hstep
    exact h.onTimers g _

end

theorem Sound.steps (h : Sound safe s) (hguard : safe → guard = Safe)
    (hrun : Steps hal guard s s') : Sound safe s' := by
  induction hrun with
  | refl => exact h
  | tail e _ hsafe hstep ih => exact Sound.step ih e (fun hs => hguard hs ▸ hsafe) hstep

theorem Kept.steps (h : Kept s) (hrun : Steps hal guard s s') : Kept s' :=
  (Sound.steps ⟨h, False.elim⟩ False.elim hrun).toKept

end Steps

theorem sound_boot (spaces : ℕ → AddressSpaceInner) (mem : Memory) :
    Sound True (boot spaces mem) := by
  refine .of_pairs (fun {j p} hp => ?_) fun {i j p q} hp => ?_
  all_goals simp [boot] at hp

/-- Two living entries of one group have the same parent, process group, session, ids, groups,
signal actions and timer. -/
theorem group_attributes_agree {hal : HalMemory} {spaces : ℕ → AddressSpaceInner} {mem : Memory}
    {s : Population} (h : Steps hal Safe (boot spaces mem) s) {i j : ℕ} {p q : Process}
    (hp : s.table.processes[i]? = some p) (hq : s.table.processes[j]? = some q)
    (hg : p.tgid = q.tgid) (hpl : p.state ≠ .exited) (hql : q.state ≠ .exited) :
    p.parent = q.parent ∧ p.pgid = q.pgid ∧ p.signalActions = q.signalActions ∧
      s.identity i = s.identity j ∧ s.timer i = s.timer j := by
  have hsound := (sound_boot spaces mem).steps (fun _ => rfl) h
  obtain ⟨⟨hactions, hid⟩, halike⟩ := hsound.pair hp hq hg
  obtain ⟨hparent, hpgid, htimer⟩ := halike trivial hpl hql
  exact ⟨hparent, hpgid, hactions, hid, htimer⟩

def bareBoot : Population := boot (fun _ => newUser board) fun _ => 0

def runEvents (es : List Event) : Option Population :=
  es.foldlM (fun s e => e.step board s) bareBoot

def firstProcess : Event := .table (.spawn WaitReaping.emptyHandedHeap none 0)

def newThread : Event := .table (.cloneThread WaitReaping.emptyHandedHeap 0 0x1000 none)

/-- A process with two threads sets its user id. -/
theorem group_attributes_agree_two_threads :
    ∃ s p q, Steps board Safe bareBoot s ∧ s.table.processes[1]? = some p ∧
      s.table.processes[2]? = some q ∧ (s.identity 1).user = ⟨1000, 1000⟩ ∧
      p.parent = q.parent ∧ p.pgid = q.pgid ∧ p.signalActions = q.signalActions ∧
      s.identity 1 = s.identity 2 ∧ s.timer 1 = s.timer 2 := by
  have hfirst : (runEvents [firstProcess]).map (fun s => (s.timer s.table.currentTid,
      (s.table.processes[s.table.currentTid]?.map Process.state))) = some (.off, some .ready) := by
    decide +kernel
  have hview : (runEvents [firstProcess, newThread, .call (.setuid 1000)]).map (fun s =>
      ((s.table.processes[1]?.map fun p => (p.tgid, p.state)),
        (s.table.processes[2]?.map fun p => (p.tgid, p.state)), (s.identity 1).user)) =
      some (some (1, .ready), some (1, .ready), ⟨1000, 1000⟩) := by decide +kernel
  obtain ⟨s₁, hs₁, hview₁⟩ := map_eq_some_iff.mp hfirst
  obtain ⟨s₃, hs₃, hview₃⟩ := map_eq_some_iff.mp hview
  simp only [runEvents, List.foldlM_cons] at hs₁ hs₃
  obtain ⟨s₁', h₁, hs₁⟩ := bind_eq_some_iff.mp hs₁
  obtain rfl := some.inj hs₁
  obtain ⟨s₁'', h₁', hs₃⟩ := bind_eq_some_iff.mp hs₃
  obtain rfl : s₁' = s₁'' := some.inj (h₁.symm.trans h₁')
  obtain ⟨s₂, h₂, hs₃⟩ := bind_eq_some_iff.mp hs₃
  obtain ⟨s₃', h₃, hs₃⟩ := bind_eq_some_iff.mp hs₃
  obtain rfl := some.inj hs₃
  simp only [Prod.mk.injEq, map_eq_some_iff] at hview₁ hview₃
  obtain ⟨htimer, p₁, hp₁, hstate⟩ := hview₁
  have hclone : Safe s₁' newThread := by
    intro p hp
    obtain rfl : p₁ = p := some.inj (hp₁.symm.trans (current_ok hp))
    exact ⟨by rw [hstate]; decide, htimer⟩
  have hrun : Steps board Safe bareBoot s₃' :=
    .tail (.call (.setuid 1000)) (.tail _ (.tail firstProcess (.refl _) trivial h₁) hclone h₂)
      trivial h₃
  obtain ⟨⟨p, hp, hpg, hpl⟩, ⟨q, hq, hqg, hql⟩, huser⟩ := hview₃
  exact ⟨s₃', p, q, hrun, hp, hq, huser, group_attributes_agree hrun hp hq (hpg.trans hqg.symm)
    (by rw [hpl]; decide) (by rw [hql]; decide)⟩

/-- The group, the process group and the deadline of a living thread. -/
def attributes (s : Population) (tid : ℕ) : Option (ℕ × ℕ × Option ℕ) :=
  (s.table.processes[tid]?.filter fun p => p.state != .exited).map fun p =>
    (p.tgid, p.pgid, (s.timer tid).deadline)

/-- A thread made while the timer runs has none, and `setpgid` moves one of two threads. -/
theorem threads_disagree :
    (runEvents [firstProcess, .call (.setitimer ⟨some 5, 0⟩), newThread]).map (fun s =>
      (attributes s 1, attributes s 2)) = some (some (1, 1, some 5), some (1, 1, none)) ∧
    (runEvents [firstProcess, newThread, .call (.setpgid 0 7)]).map (fun s =>
      (attributes s 1, attributes s 2)) = some (some (1, 7, none), some (1, 1, none)) := by
  constructor
  · decide +kernel
  · decide +kernel

end GroupAttributes
