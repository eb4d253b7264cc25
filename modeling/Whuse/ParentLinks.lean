import Whuse.OptionRuns
import Whuse.WaitReaping

/-! Parent links. An entry names its parent by the number of a group; the entries of a group go
when it is reaped, and its children are given to the first process. -/
namespace ParentLinks

open AddressSpace ProcessTable ProcessTable.Table TableEffects WaitReaping Function List Option
open CallRuns (board)

variable {g parent : ℕ} {t : Table}

section Subtree

/-- The links from parents to living children. -/
def childLinks (t : Table) : List (ℕ × ℕ) :=
  t.values.filterMap fun p =>
    if p.isThread || p.state == .exited then none
    else p.parent.bind fun parent => if p.tgid != parent then some (parent, p.tgid) else none

def kids (links : List (ℕ × ℕ)) (g : ℕ) : List ℕ := (links.filter fun link => link.1 == g).map Prod.snd

/-- The links whose parents are still to be visited. -/
def unvisited (links : List (ℕ × ℕ)) (out : List ℕ) : List (ℕ × ℕ) :=
  links.filter fun link => link.1 ∉ out

theorem unvisited_visit {out : List ℕ} (hg : g ∉ out) (links : List (ℕ × ℕ)) :
    (unvisited links (out ++ [g])).length + (kids links g).length = (unvisited links out).length := by
  induction links with
  | nil => rfl
  | cons link links ih =>
    simp only [unvisited, kids, length_map, filter_cons, mem_append, mem_singleton] at ih ⊢
    by_cases hlink : link.1 = g
    · simp only [hlink, hg, or_true, not_true_eq_false, not_false_eq_true, decide_false,
        decide_true, Bool.false_eq_true, if_false, if_true, beq_self_eq_true, length_cons]
      omega
    · by_cases hmem : link.1 ∈ out
      · simpa [hlink, hmem] using ih
      · simp only [hlink, hmem, or_false, not_false_eq_true, decide_true, beq_iff_eq, if_false,
          if_true, length_cons]
        omega

/-- The search visits each group once, in the order of its discovery. -/
def descend (links : List (ℕ × ℕ)) (queue out : List ℕ) : List ℕ :=
  match queue with
  | [] => out
  | g :: queue =>
    if g ∈ out then descend links queue out
    else descend links (queue ++ kids links g) (out ++ [g])
  termination_by queue.length + (unvisited links out).length
  decreasing_by
  · simp
  · next hnot =>
    have hvisit := unvisited_visit hnot links
    simp only [length_append, length_cons]
    omega

def descendantProcessGroups (root : ℕ) (t : Table) : List ℕ :=
  if t.values.any fun p => !(p.isThread || p.state == .exited) && p.tgid == root then
    descend (childLinks t) [root] []
  else []

/-- The descendants end before their ancestors. -/
def forceExitSubtree (hal : HalMemory) (heap : Heap) (code : Int32) (root : ℕ) (t : Table) : Table :=
  (descendantProcessGroups root t).reverse.foldl (fun t g => (t.forceExitGroup hal heap code g).2) t

end Subtree

inductive Op where
  | setCurrent (tid : ℕ)
  | spawnInit (heap : Heap) (entry : UInt64)
  | fork (heap : Heap)
  | forkShared
  | cloneThread (heap : Heap) (fuel stack : ℕ) (tls : Option ℕ)
  | execve (cloneHeap stackHeap : Heap) (entry : UInt64) (sp : Option UInt64)
  | exit (heap : Heap) (code : Int32)
  | exitGroup (heap : Heap) (code : Int32)
  | forceExitSubtree (heap : Heap) (root : ℕ) (code : Int32)
  | wait (parent : ℕ) (selector : WaitSelector)

structure Run where
  table : Table
  inits : List ℕ

def Op.run (hal : HalMemory) (s : Run) : Op → Option Run
  | setCurrent tid => some { s with table := (s.table.setCurrent tid).2 }
  | spawnInit heap entry =>
    let (pid, t) := s.table.spawn hal heap none entry
    some ⟨t, pid :: s.inits⟩
  | fork heap => some { s with table := (s.table.forkProcessFromCurrent hal heap).2 }
  | forkShared => some { s with table := s.table.forkProcessFromCurrentShared.2 }
  | cloneThread heap fuel stack tls =>
    (s.table.cloneThreadFromCurrent hal heap fuel stack tls).map fun out => { s with table := out.2 }
  | execve cloneHeap stackHeap entry sp =>
    some { s with table := (s.table.execveCurrentImage hal cloneHeap stackHeap entry sp).2 }
  | exit heap code => some { s with table := (s.table.exitCurrentThread hal heap code).2 }
  | exitGroup heap code =>
    some { s with table := (s.table.exitCurrentProcessGroup hal heap code).2 }
  | .forceExitSubtree heap root code =>
    some { s with table := ParentLinks.forceExitSubtree hal heap code root s.table }
  | wait parent selector => some { s with table := (s.table.waitChild parent selector).2 }

def deadMatch (parent : ℕ) (selector : WaitSelector) (p : Process) : Bool :=
  (!p.isThread && p.parent == some parent && selectorMatches selector p) && p.state == .exited

/-- The first dead child that a wait asks for has no dead child of its own. -/
def ReapsChildless (parent : ℕ) (selector : WaitSelector) (t : Table) : Prop :=
  ∀ z, t.find (deadMatch parent selector) = some z →
    ∀ p ∈ t.values, p.state = .exited → p.parent = some z.tgid → p.tgid = z.tgid

def Op.Safe (t : Table) : Op → Prop
  | wait parent selector => ReapsChildless parent selector t
  | _ => True

def boot (spaces : ℕ → AddressSpaceInner) (mem : Memory) : Run :=
  ⟨⟨1, 0, ∅, ∅, spaces, 0, mem⟩, []⟩

inductive Reached (hal : HalMemory) : Run → Prop where
  | boot (spaces : ℕ → AddressSpaceInner) (mem : Memory) : Reached hal (boot spaces mem)
  | step {s s'} (op : Op) : Reached hal s → op.Safe s.table → op.run hal s = some s' →
      Reached hal s'

def Present (K : Kinship) (g : ℕ) : Prop := ∃ j q, K j = some q ∧ q.tgid = g

/-- Parents are present, the entries without a parent are those of the first processes, and if
there is any entry there is such a one. -/
structure Linked (K : Kinship) (n : ℕ) (inits : List ℕ) : Prop where
  keyed : ∀ {j q}, K j = some q → q.tid = j ∧ j < n ∧ q.tgid < n ∧ q.isThread = false
  made : ∀ g ∈ inits, g < n
  present : ∀ {j q parent}, K j = some q → q.parent = some parent → Present K parent
  root : ∀ {j q}, K j = some q → ∃ i r, K i = some r ∧ r.parent = none
  roots : ∀ {j q}, K j = some q → (q.parent = none ↔ q.tgid ∈ inits)

namespace Linked

variable {K K' : Kinship} {n k : ℕ} {inits inits' : List ℕ}

theorem bump (h : Linked K n inits) : Linked K (n + 1) inits := by
  refine ⟨?_, ?_, h.present, h.root, h.roots⟩
  · intro j q hq
    obtain ⟨htid, hj, hg, hthread⟩ := h.keyed hq
    exact ⟨htid, by omega, by omega, hthread⟩
  · intro g hg
    exact Nat.lt_succ_of_lt (h.made g hg)

theorem moved (h : Linked K n inits) {f : ℕ → Kin → Kin} (hK : ∀ j, K' j = (K j).map (f j))
    (hf : ∀ {j q}, K j = some q → SamePlace q (f j q)) : Linked K' n inits := by
  have hold : ∀ {j q}, K' j = some q → ∃ r, K j = some r ∧ SamePlace r q := by
    intro j q hq
    rw [hK] at hq
    obtain ⟨r, hr, rfl⟩ := map_eq_some_iff.mp hq
    exact ⟨r, hr, hf hr⟩
  have hnew : ∀ {j r}, K j = some r → ∃ q, K' j = some q ∧ SamePlace r q := by
    intro j r hr
    exact ⟨f j r, by rw [hK, hr, map_some], hf hr⟩
  refine ⟨?_, h.made, ?_, ?_, ?_⟩
  · intro j q hq
    obtain ⟨r, hr, hsame⟩ := hold hq
    rw [hsame.tid, hsame.tgid, hsame.isThread]
    exact h.keyed hr
  · intro j q parent hq hparent
    obtain ⟨r, hr, hsame⟩ := hold hq
    obtain ⟨i, a, ha, hgroup⟩ := h.present hr (hsame.parent ▸ hparent)
    obtain ⟨b, hb, hab⟩ := hnew ha
    exact ⟨i, b, hb, hab.tgid.trans hgroup⟩
  · intro j q hq
    obtain ⟨r, hr, -⟩ := hold hq
    obtain ⟨i, a, ha, hroot⟩ := h.root hr
    obtain ⟨b, hb, hab⟩ := hnew ha
    exact ⟨i, b, hb, hab.parent.trans hroot⟩
  · intro j q hq
    obtain ⟨r, hr, hsame⟩ := hold hq
    rw [hsame.parent, hsame.tgid]
    exact h.roots hr

theorem insert (h : Linked K n inits) {parent : Option ℕ} (hg : g ≤ n) (hmade : ∀ g ∈ inits', g ≤ n)
    (hold : ∀ {j q}, K j = some q → (q.tgid ∈ inits' ↔ q.tgid ∈ inits))
    (hparent : ∀ {g}, parent = some g → Present K g) (hroots : parent = none ↔ g ∈ inits') :
    Linked (update K n (some (newborn n g parent))) (n + 1) inits' := by
  have hkept : ∀ {j q}, K j = some q → update K n (some (newborn n g parent)) j = some q := by
    intro j q hq
    rw [update_of_ne (h.keyed hq).2.1.ne, hq]
  have hpresent : ∀ {g'}, Present K g' → Present (update K n (some (newborn n g parent))) g' := by
    rintro g' ⟨j, q, hq, hg'⟩
    exact ⟨j, q, hkept hq, hg'⟩
  refine ⟨?_, fun g hg => Nat.lt_succ_of_le (hmade g hg), ?_, ?_, ?_⟩
  · intro j q hq
    rcases update_eq_some.mp hq with ⟨rfl, rfl⟩ | ⟨-, hq⟩
    · exact ⟨rfl, Nat.lt_succ_self _, Nat.lt_succ_of_le hg, rfl⟩
    · exact h.bump.keyed hq
  · intro j q p hq hp
    rcases update_eq_some.mp hq with ⟨rfl, rfl⟩ | ⟨-, hq⟩
    · exact hpresent (hparent hp)
    · exact hpresent (h.present hq hp)
  · intro j q hq
    rcases update_eq_some.mp hq with ⟨rfl, rfl⟩ | ⟨-, hq⟩
    · rcases hp : parent with _ | p
      · exact ⟨j, newborn j g none, by rw [update_self], rfl⟩
      obtain ⟨i, r, hr, -⟩ := hparent hp
      obtain ⟨i', r', hr', hroot⟩ := h.root hr
      rw [← hp]
      exact ⟨i', r', hkept hr', hroot⟩
    · obtain ⟨i, r, hr, hroot⟩ := h.root hq
      exact ⟨i, r, hkept hr, hroot⟩
  · intro j q hq
    rcases update_eq_some.mp hq with ⟨rfl, rfl⟩ | ⟨-, hq⟩
    · exact hroots
    · rw [hold hq]
      exact h.roots hq

/-- The caller stays the only entry of its group. -/
theorem execve (h : Linked K n inits) {p : Kin} (hp : K k = some p) :
    Linked (update (fun j => (K j).filter fun q => q.tgid != p.tgid) k (some p.reset)) n
      inits := by
  have hself : update (fun j => (K j).filter fun q => q.tgid != p.tgid) k
      (some p.reset) k = some p.reset := update_self ..
  -- an entry stays, or it is of the caller's group, whose links the caller has
  have hstays : ∀ {j q}, K j = some q →
      update (fun j => (K j).filter fun q => q.tgid != p.tgid) k (some p.reset) j =
        some q ∨ q.tgid = p.tgid := by
    intro j q hq
    by_cases hg : q.tgid = p.tgid
    · exact .inr hg
    refine .inl (replaced_eq_some.mpr (.inr ⟨?_, hq, hg⟩))
    rintro rfl
    rw [hp] at hq
    exact hg (congrArg Kin.tgid (some.inj hq)).symm
  have hpresent : ∀ {g}, Present K g →
      Present (update (fun j => (K j).filter fun q => q.tgid != p.tgid) k (some p.reset)) g := by
    rintro g ⟨j, q, hq, hg⟩
    rcases hstays hq with hq' | hgroup
    · exact ⟨j, q, hq', hg⟩
    · exact ⟨k, p.reset, hself, hgroup.symm.trans hg⟩
  refine ⟨?_, h.made, ?_, ?_, ?_⟩
  · intro j q hq
    rcases replaced_eq_some.mp hq with ⟨rfl, rfl⟩ | ⟨-, hq, -⟩
    · obtain ⟨htid, hj, hg, -⟩ := h.keyed hp
      exact ⟨htid, hj, hg, rfl⟩
    · exact h.keyed hq
  · intro j q parent hq hparent
    rcases replaced_eq_some.mp hq with ⟨rfl, rfl⟩ | ⟨-, hq, -⟩
    · exact hpresent (h.present hp hparent)
    · exact hpresent (h.present hq hparent)
  · intro j q hq
    obtain ⟨i, r, hr, hroot⟩ := h.root hp
    rcases hstays hr with hr' | hgroup
    · exact ⟨i, r, hr', hroot⟩
    · refine ⟨k, p.reset, hself, ?_⟩
      exact (h.roots hp).mpr (hgroup ▸ (h.roots hr).mp hroot)
  · intro j q hq
    rcases replaced_eq_some.mp hq with ⟨rfl, rfl⟩ | ⟨-, hq, -⟩
    · exact (h.roots hp : p.parent = none ↔ p.tgid ∈ inits)
    · exact h.roots hq

theorem reap (h : Linked K n inits) {c init : ℕ} (hinit : ∃ i r, K i = some r ∧ r.parent = none ∧
      r.tgid = init) (hc : c ∉ inits)
    (hdead : ∀ {j q}, K j = some q → q.state = .exited → q.parent = some c → q.tgid = c) :
    Linked (fun j => ((K j).filter fun q => q.tgid != c).map (Kin.adopt c init)) n inits := by
  obtain ⟨i, first, hfirst, hnone, rfl⟩ := hinit
  have hfirstc : first.tgid ≠ c := fun heq => hc (heq ▸ (h.roots hfirst).mp hnone)
  refine ⟨?_, h.made, ?_, ?_, ?_⟩
  · intro j q hq
    obtain ⟨r, hr, -, rfl⟩ := reaped_eq_some.mp hq
    simpa using h.keyed hr
  · intro j q parent hq hparent
    obtain ⟨r, hr, hg, rfl⟩ := reaped_eq_some.mp hq
    rw [Kin.adopt_parent] at hparent
    split at hparent
    · cases hparent
      exact ⟨i, _, reaped_eq_some.mpr ⟨first, hfirst, hfirstc, rfl⟩, by simp⟩
    next hcond =>
    have hne : parent ≠ c := by
      rintro rfl
      have hlive : r.state ≠ .exited := fun hstate => hg (hdead hr hstate hparent)
      exact hcond (by simp [(h.keyed hr).2.2.2, hlive, hparent, hg])
    obtain ⟨i', a, ha, rfl⟩ := h.present hr hparent
    exact ⟨i', _, reaped_eq_some.mpr ⟨a, ha, hne, rfl⟩, by simp⟩
  · intro j q _
    refine ⟨i, _, reaped_eq_some.mpr ⟨first, hfirst, hfirstc, rfl⟩, ?_⟩
    rw [Kin.adopt_of_ne (by simp [hnone]), hnone]
  · intro j q hq
    obtain ⟨r, hr, -, rfl⟩ := reaped_eq_some.mp hq
    rw [Kin.adopt_tgid, ← h.roots hr, Kin.adopt_parent]
    split
    · next hcond =>
      simp only [Bool.and_eq_true, beq_iff_eq] at hcond
      simp [hcond.1.2]
    · exact Iff.rfl

end Linked

section Operations

variable {hal : HalMemory} {t u : Table} {inits : List ℕ} {selector : WaitSelector} {s : Run}

theorem linked_of_kin {K : Kinship} (hkin : kin u = K) (hcount : counters u = counters t)
    (hK : Linked K t.nextPid inits) : Linked (kin u) u.nextPid inits := by
  rw [hkin, show u.nextPid = t.nextPid from congrArg Prod.fst hcount]
  exact hK

section

variable (h : Linked (kin t) t.nextPid inits)
include h

theorem initTgid_found {j : ℕ} {q : Kin}
    (hq : kin t j = some q) : ∃ i r, kin t i = some r ∧ r.parent = none ∧ r.tgid = t.initTgid := by
  unfold initTgid
  split
  · next p hp =>
    obtain ⟨⟨i, hi⟩, hkeep⟩ := find_some hp
    simp only [Bool.and_eq_true, isNone_iff_eq_none] at hkeep
    exact ⟨i, kinOf p, kin_of_entry hi, hkeep.2, rfl⟩
  · next hnone =>
    obtain ⟨i, r, hr, hroot⟩ := h.root hq
    obtain ⟨p, hp, rfl⟩ := kin_eq_some.mp hr
    have hmem := find?_eq_none.mp hnone p (mem_values.mpr ⟨i, hp⟩)
    have hthread : p.isThread = false := (h.keyed hr).2.2.2
    have hparent : p.parent = none := hroot
    simp [hthread, hparent] at hmem

theorem linked_ended {u : Table} {code : Int32}
    (hkin : kin u = fun j => (kin t j).map (Kin.inGroup g (Kin.ended code)))
    (hcount : counters u = counters t) : Linked (kin u) u.nextPid inits := by
  refine linked_of_kin hkin hcount (h.moved (fun _ => rfl) ?_)
  intro j q _
  exact samePlace_ite q

theorem linked_exitThread (heap : Heap) (code : Int32) :
    Linked (kin (t.exitCurrentThread hal heap code).2)
      (t.exitCurrentThread hal heap code).2.nextPid inits := by
  rcases hp : t.current with e | p
  · rw [exitCurrentThread, hp]
    exact h
  have hkin := exitCurrentThread_kin hal heap code hp
  have hcount := exitCurrentThread_counters hal heap code t
  by_cases halive : t.groupAlive p.tgid p.tid = true
  · rw [if_pos halive] at hkin
    refine linked_of_kin hkin hcount ?_
    -- only the caller's entry ends
    refine h.moved (f := fun j q => if j = t.currentTid then q.ended code else q) ?_ ?_
    · intro j
      rw [update_apply]
      split
      · next hj => rw [hj, current_kin hp, map_some]
      · rw [Option.map_id']
    · intro j q _
      exact samePlace_ite q
  · rw [if_neg halive] at hkin
    exact linked_ended h hkin hcount

end

theorem waitChild_eq (parent : ℕ) (selector : WaitSelector) (t : Table) :
    (t.find (deadMatch parent selector) = none ∧ (t.waitChild parent selector).2 = t) ∨
    ∃ z, t.find (deadMatch parent selector) = some z ∧
      (t.waitChild parent selector).2 = t.reapThreadGroup z.tgid ∧
      ∃ status, (t.waitChild parent selector).1 = .ok (z.tgid, status) := by
  have hdead : (fun p : Process => (!p.isThread && p.parent == some parent &&
      selectorMatches selector p) && p.state == .exited) = deadMatch parent selector := rfl
  simp only [waitChild, hdead]
  cases hfind : t.find (deadMatch parent selector) with
  | none =>
    refine .inl ⟨rfl, ?_⟩
    simp only
    split <;> rfl
  | some z => exact .inr ⟨z, rfl, rfl, _, rfl⟩

theorem deadMatch_iff {z : Process} :
    deadMatch parent selector z = true ↔ z.isThread = false ∧ z.parent = some parent ∧
      selectorMatches selector z = true ∧ z.state = .exited := by
  simp only [deadMatch, Bool.and_eq_true, Bool.not_eq_true', beq_iff_eq]
  tauto

/-- One step of a run that neither ends a group nor boots one. -/
theorem linked_step (hal : HalMemory) (op : WaitReaping.Op) (h : Linked (kin t) t.nextPid inits)
    (hd : op.death = none) (hspawn : ∀ heap parent entry, op ≠ .spawn heap parent entry)
    (hsafe : ∀ parent selector, op = .wait parent selector → ReapsChildless parent selector t)
    (hrun : op.run hal t = some u) : Linked (kin u) u.nextPid inits := by
  have hstep := run_kinStep (fun hq => (h.keyed hq).1) hd hrun
  have hmade := fun g hg => (h.made g hg).le
  generalize kin u = K, u.nextPid = n at hstep
  cases hstep with
  | same => exact h
  | refused => exact h.bump
  | spawned => exact absurd rfl (hspawn _ _ _)
  | forked hp =>
    refine h.insert le_rfl hmade (fun _ => Iff.rfl) ?_ ⟨nofun, fun hmem => ?_⟩
    · rintro g ⟨⟩
      exact ⟨_, _, current_kin hp, rfl⟩
    · exact absurd (h.made _ hmem) (lt_irrefl _)
  | joined hp =>
    have hcur := current_kin hp
    exact h.insert (h.keyed hcur).2.2.1.le hmade (fun _ => Iff.rfl) (h.present hcur) (h.roots hcur)
  | replaced hp => exact h.execve (current_kin hp)
  | reaped hfind hz hparent =>
    refine h.reap (initTgid_found h hz) ?_ ?_
    · intro hmem
      exact absurd (hparent.symm.trans ((h.roots hz).mpr hmem)) nofun
    · intro i q hq hstate hqparent
      obtain ⟨p, hp, rfl⟩ := kin_eq_some.mp hq
      exact hsafe _ _ rfl _ hfind p (mem_values.mpr ⟨i, hp⟩) hstate hqparent

theorem linked_wait (h : Linked (kin t) t.nextPid inits)
    (hsafe : ReapsChildless parent selector t) :
    Linked (kin (t.waitChild parent selector).2) (t.waitChild parent selector).2.nextPid inits := by
  refine linked_step board (.wait parent selector) h rfl nofun ?_ rfl
  rintro _ _ ⟨⟩
  exact hsafe

theorem Op.linked {s' : Run} (op : Op) (h : Linked (kin s.table) s.table.nextPid s.inits)
    (hsafe : op.Safe s.table) (hrun : op.run hal s = some s') :
    Linked (kin s'.table) s'.table.nextPid s'.inits := by
  cases op with
  | setCurrent tid =>
    cases hrun
    unfold Table.setCurrent
    split <;> exact h
  | spawnInit heap entry =>
    cases hrun
    obtain ⟨hkin, hnext⟩ := spawn_kin hal heap none entry s.table
    show Linked (kin (s.table.spawn hal heap none entry).2)
      (s.table.spawn hal heap none entry).2.nextPid (s.table.nextPid :: s.inits)
    rw [hkin]
    refine h.insert le_rfl ?_ ?_ (fun hnone => by cases hnone) (by simp)
    · intro g hg
      rcases mem_cons.mp hg with rfl | hg
      · exact le_rfl
      · exact (h.made g hg).le
    · intro j q hq
      have hne : q.tgid ≠ s.table.nextPid := (h.keyed hq).2.2.1.ne
      simp [hne]
  | fork heap =>
    cases hrun
    exact linked_step hal (.fork heap) h rfl nofun nofun rfl
  | forkShared =>
    cases hrun
    exact linked_step hal .forkShared h rfl nofun nofun rfl
  | cloneThread heap fuel stack tls =>
    obtain ⟨out, hclone, rfl⟩ := map_eq_some_iff.mp hrun
    exact linked_step hal (.cloneThread heap fuel stack tls) h rfl nofun nofun
      (map_eq_some_iff.mpr ⟨out, hclone, rfl⟩)
  | execve cloneHeap stackHeap entry sp =>
    cases hrun
    exact linked_step hal (.execve cloneHeap stackHeap entry sp) h rfl nofun nofun rfl
  | exit heap code =>
    cases hrun
    exact linked_exitThread h heap code
  | exitGroup heap code =>
    cases hrun
    cases hp : s.table.current with
    | error e =>
      rw [exitCurrentProcessGroup, hp]
      exact h
    | ok p =>
      exact linked_ended h (exitCurrentProcessGroup_kin hal heap code hp)
        (exitCurrentProcessGroup_counters hal heap code s.table)
  | forceExitSubtree heap root code =>
    cases hrun
    refine foldlRecOn (motive := fun t : Table => Linked (kin t) t.nextPid s.inits) _ _ h
      fun t ht g _ => ?_
    exact linked_ended ht (forceExitGroup_kin hal heap code g t)
      (forceExitGroup_counters hal heap code g t)
  | wait parent selector =>
    cases hrun
    exact linked_wait h hsafe

theorem Reached.linked (h : Reached hal s) : Linked (kin s.table) s.table.nextPid s.inits := by
  induction h with
  | boot spaces mem =>
    exact ⟨fun hq => (kin_empty hq).elim, fun g hg => absurd hg not_mem_nil,
      fun hq => (kin_empty hq).elim, fun hq => (kin_empty hq).elim, fun hq => (kin_empty hq).elim⟩
  | step op _ hsafe hrun ih => exact op.linked ih hsafe hrun

end Operations

def InTable (g : ℕ) (t : Table) : Prop := ∃ p ∈ t.values, p.tgid = g

instance (g : ℕ) (t : Table) : Decidable (InTable g t) :=
  inferInstanceAs (Decidable (∃ p ∈ t.values, p.tgid = g))

theorem inTable_iff : InTable g t ↔ Present (kin t) g := by
  constructor
  · rintro ⟨p, hp, hg⟩
    obtain ⟨j, hj⟩ := mem_values.mp hp
    exact ⟨j, kinOf p, kin_of_entry hj, hg⟩
  · rintro ⟨j, q, hq, hg⟩
    obtain ⟨p, hp, rfl⟩ := kin_eq_some.mp hq
    exact ⟨p, mem_values.mpr ⟨j, hp⟩, hg⟩

theorem wait_returns {p : Process} (hp : p ∈ t.values) (hthread : p.isThread = false)
    (hparent : p.parent = some parent) (hstate : p.state = .exited) :
    ∃ status, (t.waitChild parent (.pid p.tgid)).1 = .ok (p.tgid, status) := by
  have hmatch : deadMatch parent (.pid p.tgid) p = true :=
    deadMatch_iff.mpr ⟨hthread, hparent, by simp [selectorMatches], hstate⟩
  rcases waitChild_eq parent (.pid p.tgid) t with ⟨hnone, -⟩ | ⟨z, hfind, -, status, hz⟩
  · exact absurd hmatch (find?_eq_none.mp hnone p hp)
  have hsame : z.tgid = p.tgid := by
    have hsel := (deadMatch_iff.mp (find_some hfind).2).2.2.1
    simpa [selectorMatches] using hsel
  rw [hsame] at hz
  exact ⟨status, hz⟩

/-- In every table reached the parent of an entry is in the table, and a dead entry of a group with
a parent is returned by a wait of that parent. A wait keeps this only if the child it reaps has
no dead child. -/
theorem parent_links_never_dangle {hal : HalMemory} {s : Run} (h : Reached hal s) :
    (∀ p ∈ s.table.values, ∀ parent, p.parent = some parent → InTable parent s.table) ∧
    (∀ p ∈ s.table.values, p.state = .exited → p.tgid ∉ s.inits → ∃ parent status,
      InTable parent s.table ∧ (s.table.waitChild parent (.pid p.tgid)).1 = .ok (p.tgid, status)) ∧
    ∀ parent selector, ReapsChildless parent selector s.table ↔
      ∀ p ∈ (s.table.waitChild parent selector).2.values, ∀ g, p.parent = some g →
        InTable g (s.table.waitChild parent selector).2 := by
  have hlinked := h.linked
  have hpresent : ∀ {t : Table} {inits : List ℕ}, Linked (kin t) t.nextPid inits →
      ∀ p ∈ t.values, ∀ parent, p.parent = some parent → InTable parent t := by
    intro t inits hlinked p hp parent hparent
    obtain ⟨j, hj⟩ := mem_values.mp hp
    exact inTable_iff.mpr (hlinked.present (kin_of_entry hj) hparent)
  refine ⟨hpresent hlinked, ?_, ?_⟩
  · intro p hp hstate hinit
    obtain ⟨j, hj⟩ := mem_values.mp hp
    have hkin := kin_of_entry hj
    rcases hparent : p.parent with _ | parent
    · exact absurd ((hlinked.roots hkin).mp hparent) hinit
    obtain ⟨status, hwait⟩ := wait_returns hp (hlinked.keyed hkin).2.2.2 hparent hstate
    exact ⟨parent, status, hpresent hlinked p hp parent hparent, hwait⟩
  · intro parent selector
    constructor
    · intro hsafe
      exact hpresent (linked_wait hlinked hsafe)
    · intro hlinks z hfind p hp hstate hparent
      by_contra hne
      rcases waitChild_eq parent selector s.table with ⟨hnone, -⟩ | ⟨z', hfind', hreap, -⟩
      · rw [hnone] at hfind
        cases hfind
      obtain rfl : z' = z := some.inj (hfind'.symm.trans hfind)
      rw [hreap] at hlinks
      have hkin := (reapThreadGroup_kin z'.tgid s.table).1
      obtain ⟨j, hj⟩ := mem_values.mp hp
      -- the entry of the dead child stays with its link
      have hkept : kin (s.table.reapThreadGroup z'.tgid) j = some (kinOf p) := by
        rw [hkin]
        simp only [kin_of_entry hj, filter_some]
        rw [if_pos (by simpa [kinOf] using hne), map_some, Kin.adopt]
        simp [kinOf, hstate]
      obtain ⟨p', hp', hsame⟩ := kin_eq_some.mp hkept
      have hparent' : p'.parent = some z'.tgid := (congrArg Kin.parent hsame).trans hparent
      obtain ⟨i, r, hr, hg⟩ := inTable_iff.mp
        (hlinks p' (mem_values.mpr ⟨j, hp'⟩) z'.tgid hparent')
      rw [hkin] at hr
      obtain ⟨a, ha, rfl⟩ := map_eq_some_iff.mp hr
      obtain ⟨-, hnot⟩ := filter_eq_some_iff.mp ha
      exact absurd (by simpa using hg) (bne_iff_ne.mp hnot)

def bareBoot : Run := boot (fun _ => newUser board) fun _ => 0

def runOps (ops : List Op) : Option Run := ops.foldlM (fun s op => op.run board s) bareBoot

def childRunning : List Op := [.spawnInit emptyHandedHeap 0, .fork emptyHandedHeap, .setCurrent 2]

/-- The child has exited: its parent is there to wait for it. -/
theorem parent_links_never_dangle_child :
    ∃ s, Reached board s ∧ (∃ p ∈ s.table.values, p.tgid = 2 ∧ p.state = .exited) ∧
      ∃ parent status, InTable parent s.table ∧
        (s.table.waitChild parent (.pid 2)).1 = .ok (2, status) := by
  have hview : (runOps (childRunning ++ [.exit emptyHandedHeap 0])).map (fun s =>
      ((s.table.processes[2]?.map fun p => (p.tgid, decide (p.state = .exited))), s.inits)) =
      some (some (2, true), [1]) := by decide +kernel
  obtain ⟨s, hrun, hs⟩ := map_eq_some_iff.mp hview
  simp only [Prod.mk.injEq, map_eq_some_iff] at hs
  obtain ⟨⟨p, hp, hg, hstate⟩, hinits⟩ := hs
  have hreached : Reached board s := by
    refine OptionRuns.foldlM_invariant (fun op hop s s' h hs => ?_) (.boot _ _) hrun
    refine .step op h ?_ hs
    revert op
    simp [childRunning, Op.Safe]
  have hmem : p ∈ s.table.values := mem_values.mpr ⟨2, hp⟩
  have hexited : p.state = .exited := of_decide_eq_true hstate
  refine ⟨s, hreached, ⟨p, hmem, hg, hexited⟩, ?_⟩
  have hwait := (parent_links_never_dangle hreached).2.1 p hmem hexited (by simp [hinits, hg])
  rwa [hg] at hwait

/-- A grandchild and then its parent exit, and the first process waits: the grandchild names a
parent that is gone, and no group can wait for it. -/
theorem dead_grandchild_dangles :
    (runOps (childRunning ++ [.fork emptyHandedHeap, .setCurrent 3, .exit emptyHandedHeap 0,
      .setCurrent 2, .exit emptyHandedHeap 0, .setCurrent 1, .wait 1 .any])).map (fun s =>
      (s.table.values.map fun p => (p.tgid, p.parent, decide (p.state = .exited)),
        decide (InTable 2 s.table),
        [1, 3].map fun g => match (s.table.waitChild g .any).1 with
          | .ok (child, _) => some child
          | .error _ => none)) =
      some ([(1, none, false), (3, some 2, true)], false, [none, none]) := by
  decide +kernel

end ParentLinks
