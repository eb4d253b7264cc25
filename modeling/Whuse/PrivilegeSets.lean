import Whuse.GroupAttributes
import Whuse.OptionRuns

/-! The ids a process can get. A process that runs under a user other than the first should only
move among the ids it has; the calls that set ids test this together or not at all. -/
namespace PrivilegeSets

open MachineWord AddressSpace ProcessTable ProcessTable.Table TableEffects GroupAttributes Function

inductive Request where
  | both (id : UInt32)
  | each (real effective : Option UInt32)

def request : Call → Option (Kind × Request)
  | .setuid uid => some (.user, .both (UInt32.ofNat uid))
  | .setreuid ruid euid => some (.user, .each (parseOptionalUid ruid) (parseOptionalUid euid))
  | .setresuid ruid euid _ => some (.user, .each (parseOptionalUid ruid) (parseOptionalUid euid))
  | .setgid gid => some (.group, .both (UInt32.ofNat gid))
  | .setregid rgid egid => some (.group, .each (parseOptionalUid rgid) (parseOptionalUid egid))
  | .setresgid rgid egid _ => some (.group, .each (parseOptionalUid rgid) (parseOptionalUid egid))
  | _ => none

def Request.granted (ids : Ids) : Request → Ids
  | both id => ⟨id, id⟩
  | each real effective => ids.set real effective

def Inside (start ids : Ids) : Prop := start.has ids.real ∧ start.has ids.effective

/-- The id for both is one of the process; of two ids both are, or neither is one of the caller's. -/
def Request.Keeps (start ids : Ids) : Request → Prop
  | both id => start.has id
  | each real effective => Inside start (ids.set real effective) ∨
      ¬ ids.has (ids.set real effective).real ∧ ¬ ids.has (ids.set real effective).effective

def Within (g : ℕ) (kind : Kind) (start : Ids) (s : Population) : Prop :=
  ∀ (j : ℕ) (p : Process), s.table.processes[j]? = some p → p.tgid = g →
    Inside start ((s.identity j).ids kind)

/-- Requests by a thread of the group keep inside; nothing else is restricted. -/
def Restricted (g : ℕ) (kind : Kind) (start : Ids) (s : Population) : Event → Prop
  | .call c => ∀ p r, s.table.current = .ok p → p.tgid = g → request c = some (kind, r) →
      r.Keeps start ((s.identity s.table.currentTid).ids kind)
  | _ => True

variable {c : Call} {ids : Ids}

section Requests

variable {s : Population} {kind : Kind} {p q : Process}

theorem setIds_ids (k : Kind) (f : Ids → Ids) (i : Identity) :
    (i.setIds kind f).ids k = if k = kind then f (i.ids k) else i.ids k := by
  cases kind <;> cases k <;> rfl

def grant (g : ℕ) (kind : Kind) (r : Request) (s : Population) : Population :=
  onIdentities g (Identity.setIds kind fun ids => r.granted ids) s

def Request.refused (ids : Ids) : Request → Prop
  | both _ => False
  | each real effective => ids.refuses real effective

instance (ids : Ids) : (r : Request) → Decidable (r.refused ids)
  | .both _ => inferInstanceAs (Decidable False)
  | .each real effective => inferInstanceAs (Decidable (ids.refuses real effective))

theorem setBoth_eq (kind : Kind) (id : UInt32) (hp : s.table.current = .ok p) :
    setBothCurrent kind id s = (.ok (), grant p.tgid kind (.both id) s) := by
  simp only [setBothCurrent, forCurrent, hp]
  rfl

theorem setIds_eq (kind : Kind) (real effective : Option UInt32) (hp : s.table.current = .ok p) :
    setIdsCurrent kind real effective s =
      if ((s.identity s.table.currentTid).ids kind).refuses real effective then (.error eperm, s)
      else (.ok (), grant p.tgid kind (.each real effective) s) := by
  simp only [setIdsCurrent, forCurrent, hp]
  rfl

theorem run_request {r : Request} (hp : s.table.current = .ok p) (hc : request c = some (kind, r)) :
    c.run s = if r.refused ((s.identity s.table.currentTid).ids kind) then (.error eperm, s)
      else (.ok (), grant p.tgid kind r s) := by
  cases c with
  | setuid uid =>
    cases hc
    exact setBoth_eq .user _ hp
  | setreuid ruid euid | setresuid ruid euid suid =>
    cases hc
    exact setIds_eq .user _ _ hp
  | setgid gid =>
    cases hc
    exact setBoth_eq .group _ hp
  | setregid rgid egid | setresgid rgid egid sgid =>
    cases hc
    exact setIds_eq .group _ _ hp
  | setgroups groups | setpgid pid pgid | setsid | sigaction signal action | setitimer timer =>
    cases hc

theorem run_nobody {wanted : Kind × Request} {e : ℕ} (hp : s.table.current = .error e)
    (hc : request c = some wanted) : (c.run s).2 = s := by
  have hnobody : ∀ f : Process → KernelResult Unit × Population, (forCurrent f s).2 = s := by
    intro f
    rw [forCurrent, hp]
  cases c with
  | setuid uid | setreuid ruid euid | setresuid ruid euid suid | setgid gid | setregid rgid egid
  | setresgid rgid egid sgid => exact hnobody _
  | setgroups groups | setpgid pid pgid | setsid | sigaction signal action | setitimer timer =>
    cases hc

theorem grant_ids (g : ℕ) (kind : Kind) (r : Request) (k : Kind) {j : ℕ}
    (hq : s.table.processes[j]? = some q) :
    ((grant g kind r s).identity j).ids k =
      if q.tgid = g ∧ k = kind then r.granted ((s.identity j).ids k) else (s.identity j).ids k := by
  simp only [grant, onIdentities, inGroup_entry hq]
  by_cases hg : q.tgid = g
  · simp [hg, setIds_ids]
  · simp [hg]

/-- Where the ids of the caller are not those of the first user, a request is refused exactly if
neither of its ids is one of the caller's. -/
theorem refused_each (hreal : ids.real ≠ 0) (heffective : ids.effective ≠ 0)
    {real effective : Option UInt32} :
    (Request.each real effective).refused ids ↔
      ¬ ids.has (ids.set real effective).real ∧ ¬ ids.has (ids.set real effective).effective := by
  simp [Request.refused, Ids.refuses, hreal, heffective]

end Requests

section OneRequest

variable {s : Population} {g : ℕ} {kind : Kind} {start : Ids} {p : Process} {c : Call} {r : Request}

theorem Inside.nonzero (h : Inside start ids) (hreal : start.real ≠ 0)
    (heffective : start.effective ≠ 0) : ids.real ≠ 0 ∧ ids.effective ≠ 0 := by
  have hhas : ∀ id, start.has id → id ≠ 0 := by
    rintro id (rfl | rfl)
    · exact hreal
    · exact heffective
  exact ⟨hhas _ h.1, hhas _ h.2⟩

/-- All threads of the caller's group get the caller's new ids. -/
theorem within_grant (hk : Kept s) (hp : s.table.current = .ok p) (hg : p.tgid = g)
    (hin : Inside start (r.granted ((s.identity s.table.currentTid).ids kind))) :
    Within g kind start (grant p.tgid kind r s) := by
  intro j q hq hqg
  have hq : s.table.processes[j]? = some q := hq
  have hsame : s.identity j = s.identity s.table.currentTid :=
    (hk.same hq (current_ok hp) (hqg.trans hg.symm)).2
  rw [grant_ids p.tgid kind r kind hq, if_pos ⟨hqg.trans hg.symm, rfl⟩, hsame]
  exact hin

theorem granted_keeps (hnonzero : start.real ≠ 0 ∧ start.effective ≠ 0) (hids : Inside start ids)
    (hkeeps : r.Keeps start ids) (href : ¬ r.refused ids) : Inside start (r.granted ids) := by
  obtain ⟨hreal, heffective⟩ := hids.nonzero hnonzero.1 hnonzero.2
  cases r with
  | both id => exact ⟨hkeeps, hkeeps⟩
  | each real effective =>
    rcases hkeeps with hin | hout
    · exact hin
    · exact absurd ((refused_each hreal heffective).mpr hout) href

/-- A request keeps the group inside, and is refused without effect where it would not, exactly if
it meets the condition. -/
theorem request_keeps_iff (hk : Kept s) (h : Within g kind start s)
    (hnonzero : start.real ≠ 0 ∧ start.effective ≠ 0) (hp : s.table.current = .ok p)
    (hg : p.tgid = g) (hc : request c = some (kind, r)) :
    r.Keeps start ((s.identity s.table.currentTid).ids kind) ↔ Within g kind start (c.run s).2 ∧
      (¬ Inside start (r.granted ((s.identity s.table.currentTid).ids kind)) →
        (∃ e, (c.run s).1 = .error e) ∧ (c.run s).2 = s) := by
  have hids : Inside start ((s.identity s.table.currentTid).ids kind) := h _ p (current_ok hp) hg
  obtain ⟨hreal, heffective⟩ := hids.nonzero hnonzero.1 hnonzero.2
  rw [run_request hp hc]
  by_cases href : r.refused ((s.identity s.table.currentTid).ids kind)
  · rw [if_pos href]
    refine ⟨fun _ => ⟨h, fun _ => ⟨⟨eperm, rfl⟩, rfl⟩⟩, fun _ => ?_⟩
    cases r with
    | both id => exact href.elim
    | each real effective => exact .inr ((refused_each hreal heffective).mp href)
  · rw [if_neg href]
    constructor
    · intro hkeeps
      have hin := granted_keeps hnonzero hids hkeeps href
      exact ⟨within_grant hk hp hg hin, fun hout => absurd hin hout⟩
    · rintro ⟨-, hout⟩
      -- a request that is granted was inside
      have hin : Inside start (r.granted ((s.identity s.table.currentTid).ids kind)) := by
        by_contra hnot
        obtain ⟨⟨e, he⟩, -⟩ := hout hnot
        cases he
      cases r with
      | both id => exact hin.1
      | each real effective => exact .inl hin

end OneRequest

section Runs

variable {hal : HalMemory} {s s' : Population} {g : ℕ} {kind : Kind} {start : Ids} {u : Table}
  {f : Process → Process}

/-- An entry has kept its ids, or it is new, in a group of its own or with the ids of the caller. -/
structure Descends (s s' : Population) : Prop where
  below : s.table.nextPid ≤ s'.table.nextPid
  back : ∀ {j : ℕ} {q : Process}, s'.table.processes[j]? = some q →
    (∃ p, s.table.processes[j]? = some p ∧ p.tgid = q.tgid ∧
      (s'.identity j).ids = (s.identity j).ids) ∨
    q.tgid = s.table.nextPid ∨
    ∃ p, s.table.current = .ok p ∧ p.tgid = q.tgid ∧ s'.identity j = s.identity s.table.currentTid

theorem Descends.fades (hf : Fades s.table u) (timers : ℕ → Timer) :
    Descends s ⟨u, s.identity, timers⟩ := by
  refine ⟨hf.nextPid.ge, fun {j q} hq => ?_⟩
  obtain ⟨p, hp, hsame, -⟩ := hf.back hq
  exact .inl ⟨p, hp, (congrArg Standing.tgid hsame).symm, rfl⟩

theorem Descends.created (hk : Kept s) {made : Process → Process → Prop}
    (hc : Creates s.table u made) (timers : ℕ → Timer)
    (hmade : ∀ p c, made p c → c.tgid = s.table.nextPid ∨ p.tgid = c.tgid) :
    Descends s ⟨u, update s.identity s.table.nextPid (s.identity s.table.currentTid), timers⟩ := by
  refine ⟨by simp only [hc.nextPid]; omega, fun {j q} hq => ?_⟩
  have hold : s.table.processes[j]? = some q → ∃ p, s.table.processes[j]? = some p ∧
      p.tgid = q.tgid ∧ (update s.identity s.table.nextPid
        (s.identity s.table.currentTid) j).ids = (s.identity j).ids := by
    intro hq
    exact ⟨q, hq, rfl, by rw [update_old hk hq]⟩
  rcases hc.entries with hu | ⟨p, c, hp, hpc, hu⟩
  · exact .inl (hold (hu ▸ hq))
  simp only [hu] at hq
  rcases entry_insert hq with ⟨rfl, rfl⟩ | ⟨-, hqold⟩
  · right
    rcases hmade p q hpc with hown | hbeside
    · exact .inl hown
    · exact .inr ⟨p, hp, hbeside, update_self ..⟩
  · exact .inl (hold hqold)

theorem Descends.spawn (hk : Kept s) (heap : Heap) (parent : Option ℕ) (entry : UInt64)
    (i : Identity) (timers : ℕ → Timer) :
    Descends s ⟨(s.table.spawn hal heap parent entry).2,
      update s.identity s.table.nextPid i, timers⟩ := by
  refine ⟨Nat.le_succ _, fun {j q} hq => ?_⟩
  rcases entry_insert hq with ⟨rfl, rfl⟩ | ⟨-, hqold⟩
  · exact .inr (.inl rfl)
  · exact .inl ⟨q, hqold, rfl, by simp [update_old hk hqold]⟩

theorem Descends.execve (hk : Kept s) (cloneHeap stackHeap : Heap) (entry : UInt64)
    (sp : Option UInt64) (timers : ℕ → Timer) :
    Descends s ⟨(s.table.execveCurrentImage hal cloneHeap stackHeap entry sp).2,
      update s.identity s.table.currentTid
        { s.identity s.table.currentTid with signalActions := ∅ }, timers⟩ := by
  have hids : ∀ j, (update s.identity s.table.currentTid
      { s.identity s.table.currentTid with signalActions := ∅ } j).ids = (s.identity j).ids := by
    intro j
    rw [update_apply]
    split
    · next hj =>
      funext k
      rw [hj]
      cases k <;> rfl
    · rfl
  refine ⟨(execve_nextPid hal cloneHeap stackHeap entry sp s.table).ge, fun {j q} hq => .inl ?_⟩
  rcases execve_entries hk.current hq with ⟨p, hp, rfl, -, hg, -⟩ | ⟨-, hqold, -⟩
  · exact ⟨p, current_ok hp, hg.symm, hids _⟩
  · exact ⟨q, hqold, rfl, hids j⟩

theorem Descends.wait (parent : ℕ) (selector : WaitSelector) :
    Descends s { s with table := (s.table.waitChild parent selector).2 } := by
  obtain ⟨hnext, hsame | ⟨c, init, hback⟩⟩ := wait_entries parent selector s.table
  · exact ⟨hnext.ge, fun {j q} hq => .inl ⟨q, hsame ▸ hq, rfl, rfl⟩⟩
  · refine ⟨hnext.ge, fun {j q} hq => .inl ?_⟩
    obtain ⟨p, hp, rfl⟩ := hback hq
    exact ⟨p, hp, by simp only [apply_ite Process.tgid, ite_self], rfl⟩

theorem descends_onTable (hk : Kept s) (op : WaitReaping.Op) (hstep : onTable hal op s = some s') :
    Descends s s' := by
  obtain ⟨t, hrun, rfl⟩ := Option.map_eq_some_iff.mp hstep
  cases op with
  | setCurrent tid =>
    cases hrun
    exact .fades (fades_setCurrent tid s.table) _
  | spawn heap parent entry =>
    cases hrun
    exact .spawn hk heap parent entry _ _
  | fork heap =>
    cases hrun
    exact .created hk (creates_fork hal heap s.table) _ fun p c hc => .inl hc.2.2
  | forkShared =>
    cases hrun
    exact .created hk (creates_forkShared s.table) _ fun p c hc => .inl hc.2.2
  | cloneThread heap fuel stack tls =>
    obtain ⟨⟨r, u⟩, hclone, rfl⟩ := Option.map_eq_some_iff.mp hrun
    exact .created hk (creates_cloneThread hal heap s.table hclone) _
      fun p c hc => .inr hc.2.2.1.symm
  | execve cloneHeap stackHeap entry sp =>
    cases hrun
    exact .execve hk cloneHeap stackHeap entry sp _
  | exit heap arg =>
    cases hrun
    exact .fades (fades_exitThread hal heap arg s.table) _
  | exitGroup heap arg =>
    cases hrun
    exact .fades (fades_exitGroup hal heap arg s.table) _
  | signalExit heap bit =>
    cases hrun
    exact .fades (fades_exitThread hal heap _ s.table) _
  | forceExit heap tgid code =>
    cases hrun
    exact .fades (fades_forceExit hal heap code s.table tgid) _
  | wait parent selector =>
    cases hrun
    exact .wait parent selector

/-- A step of the table keeps a group inside that was made before. -/
theorem Within.descends (h : Within g kind start s) (hg : g < s.table.nextPid)
    (hd : Descends s s') : Within g kind start s' := by
  intro j q hq hqg
  rcases hd.back hq with ⟨p, hp, hsame, hids⟩ | hown | ⟨p, hp, hsame, hid⟩
  · rw [hids]
    exact h j p hp (hsame.trans hqg)
  · exact absurd (hqg.symm.trans hown) hg.ne
  · rw [hid]
    exact h _ p (current_ok hp) (hsame.trans hqg)

/-- The entries and their ids are the same. -/
structure Spares (s s' : Population) : Prop where
  nextPid : s'.table.nextPid = s.table.nextPid
  back : ∀ {j : ℕ} {q : Process}, s'.table.processes[j]? = some q →
    ∃ p, s.table.processes[j]? = some p ∧ p.tgid = q.tgid ∧ (s'.identity j).ids = (s.identity j).ids

theorem Spares.refl (s : Population) : Spares s s := ⟨rfl, fun hq => ⟨_, hq, rfl, rfl⟩⟩

theorem Spares.onIdentities {f : Identity → Identity} (hf : ∀ i : Identity, (f i).ids = i.ids)
    (g : ℕ) (s : Population) : Spares s (onIdentities g f s) := by
  refine ⟨rfl, fun {j q} hq => ⟨q, hq, rfl, ?_⟩⟩
  simp only [GroupAttributes.onIdentities]
  split
  · exact hf _
  · rfl

theorem Spares.modifyGroup (h : Spares s s') (g : ℕ) (hf : ∀ p, (f p).tgid = p.tgid) :
    Spares s { s' with table := s'.table.modifyGroup g f } := by
  refine ⟨h.nextPid, fun {j q} hq => ?_⟩
  obtain ⟨p, hp, rfl⟩ := modifyGroup_eq_some.mp hq
  obtain ⟨p₀, hp₀, hsame, hids⟩ := h.back hp
  refine ⟨p₀, hp₀, ?_, hids⟩
  simp [apply_ite Process.tgid, hf, hsame]

theorem Spares.modify (tid : ℕ) (hf : ∀ p, (f p).tgid = p.tgid) (s : Population) :
    Spares s { s with table := s.table.modify tid f } := by
  refine ⟨rfl, fun {j q} hq => ?_⟩
  obtain ⟨p, hp, rfl⟩ := modify_eq_some.mp hq
  refine ⟨p, hp, ?_, rfl⟩
  simp [apply_ite Process.tgid, hf]

theorem Spares.forCurrent {f : Process → KernelResult Unit × Population}
    (hf : ∀ p, Spares s (f p).2) : Spares s (forCurrent f s).2 := by
  unfold GroupAttributes.forCurrent
  split
  · exact .refl s
  · exact hf _

/-- A call that asks for no ids leaves them all. -/
theorem spares_call (hc : request c = none) : Spares s (c.run s).2 := by
  have hids : ∀ {i i' : Identity}, i'.user = i.user → i'.group = i.group → i'.ids = i.ids := by
    intro i i' huser hgroup
    funext k
    cases k
    · exact huser
    · exact hgroup
  cases c with
  | setuid uid | setreuid ruid euid | setresuid ruid euid suid | setgid gid | setregid rgid egid
  | setresgid rgid egid sgid => cases hc
  | setgroups groups =>
    rcases groups with _ | groups
    · exact .refl s
    refine .forCurrent fun p => ?_
    refine Spares.onIdentities (f := fun i => { i with groups }) ?_ p.tgid s
    intro i
    exact hids rfl rfl
  | setpgid pid pgid =>
    simp only [Call.run, GroupAttributes.setpgid]
    split
    · exact .refl s
    split
    · exact .refl s
    · refine Spares.modify _ ?_ s
      intro p
      rfl
  | setsid =>
    refine .forCurrent fun p => Spares.modifyGroup ?_ p.tgid ?_
    · refine Spares.onIdentities ?_ p.tgid s
      intro i
      exact hids rfl rfl
    · intro q
      rfl
  | sigaction signal action =>
    simp only [Call.run, setSigaction]
    split
    · exact .refl s
    refine .forCurrent fun p => Spares.modifyGroup ?_ p.tgid ?_
    · refine Spares.onIdentities ?_ p.tgid s
      intro i
      exact hids rfl rfl
    · intro q
      rfl
  | setitimer timer =>
    refine .forCurrent fun p => ?_
    exact ⟨rfl, fun hq => ⟨_, hq, rfl, rfl⟩⟩

theorem Within.spares (h : Within g kind start s) (hs : Spares s s') : Within g kind start s' := by
  intro j q hq hqg
  obtain ⟨p, hp, hsame, hids⟩ := hs.back hq
  rw [hids]
  exact h j p hp (hsame.trans hqg)

theorem Within.call (h : Within g kind start s) (hk : Kept s)
    (hnonzero : start.real ≠ 0 ∧ start.effective ≠ 0) (hsafe : Restricted g kind start s (.call c))
    : Within g kind start (c.run s).2 := by
  rcases hc : request c with _ | wanted
  · exact h.spares (spares_call hc)
  obtain ⟨kind', r⟩ := wanted
  rcases hp : s.table.current with e | p
  · rw [run_nobody hp hc]
    exact h
  by_cases hmine : p.tgid = g ∧ kind' = kind
  · obtain ⟨hg, rfl⟩ := hmine
    have hkeeps := hsafe p r hp hg hc
    exact ((request_keeps_iff hk h hnonzero hp hg hc).mp hkeeps).1
  · rw [run_request hp hc]
    split
    · exact h
    intro j q hq hqg
    have hq : s.table.processes[j]? = some q := hq
    rw [grant_ids p.tgid kind' r kind hq, if_neg]
    · exact h j q hq hqg
    · rintro ⟨hg, hkind⟩
      exact hmine ⟨hg.symm.trans hqg, hkind.symm⟩

theorem call_nextPid (c : Call) : (c.run s).2.table.nextPid = s.table.nextPid := by
  rcases hc : request c with _ | wanted
  · exact (spares_call hc).nextPid
  rcases hp : s.table.current with e | p
  · rw [run_nobody hp hc]
  rw [run_request hp hc]
  split <;> rfl

theorem within_steps (hk : Kept s) (h : Within g kind start s) (hg : g < s.table.nextPid)
    (hnonzero : start.real ≠ 0 ∧ start.effective ≠ 0)
    (hrun : Steps hal (Restricted g kind start) s s') :
    Within g kind start s' ∧ g < s'.table.nextPid := by
  induction hrun with
  | refl => exact ⟨h, hg⟩
  | tail e hprev hsafe hstep ih =>
    have hkept := hk.steps hprev
    cases e with
    | table op =>
      have hd := descends_onTable hkept op hstep
      exact ⟨ih.1.descends ih.2 hd, ih.2.trans_le hd.below⟩
    | call c =>
      cases hstep
      refine ⟨ih.1.call hkept hnonzero hsafe, ?_⟩
      rw [call_nextPid]
      exact ih.2
    | timerExpiry g' now =>
      cases hstep
      exact ih

end Runs

/-- A process with ids other than those of the first user keeps to the ids it has; a request that
would leave them is refused without effect exactly if it meets the condition. -/
theorem no_privilege_gain {hal : HalMemory} {spaces : ℕ → AddressSpaceInner} {mem : Memory}
    {s₀ s : Population} (h₀ : Steps hal (fun _ _ => True) (boot spaces mem) s₀) {tid : ℕ}
    {p₀ : Process} (hp₀ : s₀.table.processes[tid]? = some p₀) {kind : Kind}
    (hnonzero : ((s₀.identity tid).ids kind).real ≠ 0 ∧ ((s₀.identity tid).ids kind).effective ≠ 0)
    (h : Steps hal (Restricted p₀.tgid kind ((s₀.identity tid).ids kind)) s₀ s) :
    Within p₀.tgid kind ((s₀.identity tid).ids kind) s ∧
    ∀ c p r, s.table.current = .ok p → p.tgid = p₀.tgid → request c = some (kind, r) →
      (r.Keeps ((s₀.identity tid).ids kind) ((s.identity s.table.currentTid).ids kind) ↔
        Within p₀.tgid kind ((s₀.identity tid).ids kind) (c.run s).2 ∧
        (¬ Inside ((s₀.identity tid).ids kind)
            (r.granted ((s.identity s.table.currentTid).ids kind)) →
          (∃ e, (c.run s).1 = .error e) ∧ (c.run s).2 = s)) := by
  have hk₀ := (sound_boot spaces mem).toKept.steps h₀
  have hstart : Within p₀.tgid kind ((s₀.identity tid).ids kind) s₀ := by
    intro j p hp hg
    rw [(hk₀.same hp hp₀ hg).2]
    exact ⟨.inl rfl, .inr rfl⟩
  obtain ⟨hwithin, -⟩ := within_steps hk₀ hstart (hk₀.keyed hp₀).2.2.1 hnonzero h
  refine ⟨hwithin, fun c p r hp hg hc => ?_⟩
  exact request_keeps_iff (hk₀.steps h) hwithin hnonzero hp hg hc

def lowered : List Event := [firstProcess, .call (.setresuid 1000 2000 1000), .call (.setgid 1000)]

/-- A process swaps its two user ids and stays inside. -/
theorem no_privilege_gain_swap : ∃ s₀ s p₀, Steps CallRuns.board (fun _ _ => True) bareBoot s₀ ∧
      s₀.table.processes[1]? = some p₀ ∧ (s₀.identity 1).user = ⟨1000, 2000⟩ ∧
      (s.identity 1).user = ⟨2000, 1000⟩ ∧ Within p₀.tgid .user (s₀.identity 1).user s := by
  have hview : (runEvents lowered).map (fun s => ((s.table.processes[1]?).isSome,
      s.table.currentTid, (s.identity 1).user,
      ((Call.setreuid 2000 1000).run s).2.identity 1 |>.user)) =
      some (true, 1, ⟨1000, 2000⟩, ⟨2000, 1000⟩) := by decide +kernel
  obtain ⟨s₀, hs₀, hfacts⟩ := Option.map_eq_some_iff.mp hview
  simp only [Prod.mk.injEq] at hfacts
  obtain ⟨hsome, hcur, huser, hswapped⟩ := hfacts
  obtain ⟨p₀, hp₀⟩ := Option.isSome_iff_exists.mp hsome
  have h₀ : Steps CallRuns.board (fun _ _ => True) bareBoot s₀ :=
    OptionRuns.foldlM_invariant (fun e _ _ _ h hs => .tail e h trivial hs) (.refl _) hs₀
  have hids : (s₀.identity 1).ids .user = ⟨1000, 2000⟩ := huser
  have hsafe : Restricted p₀.tgid .user ((s₀.identity 1).ids .user) s₀
      (.call (.setreuid 2000 1000)) := by
    intro p r _ _ hc
    cases hc
    rw [hcur, hids]
    exact .inl ⟨by decide, by decide⟩
  have hrun : Steps CallRuns.board (Restricted p₀.tgid .user ((s₀.identity 1).ids .user)) s₀
      ((Call.setreuid 2000 1000).run s₀).2 := .tail _ (.refl _) hsafe rfl
  refine ⟨s₀, _, p₀, h₀, hp₀, huser, hswapped, ?_⟩
  exact (no_privilege_gain h₀ hp₀ (by rw [hids]; decide) hrun).1

def after (c : Call) : Option (Bool × Ids × Ids) :=
  (runEvents lowered).map fun s =>
    let out := c.run s
    (out.1.toBool, (out.2.identity 1).user, (out.2.identity 1).group)

/-- With ids 1000 and 2000 a process becomes the first user by `setuid(0)` or by
`setreuid(-1, 0)`, and joins the first group by `setgid(0)`. -/
theorem privilege_gained : after (.setuid 0) = some (true, ⟨0, 0⟩, ⟨1000, 1000⟩) ∧
    after (.setreuid usizeMax 0) = some (true, ⟨1000, 0⟩, ⟨1000, 1000⟩) ∧
    after (.setgid 0) = some (true, ⟨1000, 2000⟩, ⟨0, 0⟩) := by
  decide +kernel

end PrivilegeSets
