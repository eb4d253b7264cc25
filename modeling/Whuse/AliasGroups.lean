import Mathlib.Data.Finset.Card
import Mathlib.Data.Int.Interval
import Whuse.DescriptorTable
import Whuse.LeaderGroups
import Whuse.OptionRuns

/-! The pointers between descriptors store which of them are duplicates of one another, over any
sequence of opens, duplications, closes and forks. -/
namespace AliasGroups

open Std.ExtTreeMap
open AddressSpace ProcessTable PipeCalls DescriptorTable LeaderGroups Function List Option
open Std (ExtTreeMap)

variable {out : KernelResult ℤ × FdTable} {handle : OpenFile} {n fuel : ℕ} {fd source : ℤ}

theorem mem_pointingAt {a : ExtTreeMap ℤ ℤ} {leader : ℤ} :
    fd ∈ pointingAt leader a ↔ a[fd]? = some leader := by
  simp only [pointingAt, List.mem_map, mem_filter, beq_iff_eq]
  constructor
  · rintro ⟨⟨k, l⟩, ⟨hmem, rfl⟩, rfl⟩
    exact mem_toList_iff_getElem?_eq_some.mp hmem
  · intro h
    exact ⟨(fd, leader), ⟨mem_toList_iff_getElem?_eq_some.mpr h, rfl⟩, rfl⟩

theorem getElem?_foldl_insert (leader : ℤ) (fds : List ℤ) (a : ExtTreeMap ℤ ℤ) (k : ℤ) :
    (fds.foldl (fun a fd => a.insert fd leader) a)[k]? =
      if k ∈ fds then some leader else a[k]? := by
  induction fds generalizing a with
  | nil => simp
  | cons fd fds ih =>
    rw [foldl_cons, ih, ExtTreeMap.getElem?_insert]
    by_cases hk : k = fd
    · simp [hk]
    · simp [hk, Ne.symm hk]

theorem reelect_get (fd : ℤ) (a : ExtTreeMap ℤ ℤ) (k : ℤ) :
    (reelect fd a)[k]? = if a[k]? = some fd then (pointingAt fd a).head? else a[k]? := by
  have hmem : k ∈ pointingAt fd a ↔ a[k]? = some fd := mem_pointingAt
  unfold reelect
  rcases hlist : pointingAt fd a with _ | ⟨leader, rest⟩
  · rw [hlist] at hmem
    rw [if_neg fun heq => by cases hmem.mpr heq]
  rw [hlist, mem_cons] at hmem
  simp only [getElem?_foldl_insert, ExtTreeMap.getElem?_insert, head?_cons]
  by_cases hk : k ∈ rest
  · rw [if_pos hk, if_pos (hmem.mp (.inr hk))]
  rw [if_neg hk]
  by_cases hl : leader = k
  · rw [if_pos (by simpa using hl), if_pos (hmem.mp (.inl hl.symm))]
  · rw [if_neg (by simpa using hl), if_neg fun heq => ?_]
    exact (hmem.mpr heq).elim (fun h => hl h.symm) hk

theorem freeFrom_free {fds : ExtTreeMap ℤ OpenFile} {first : ℤ}
    (h : freeFrom fds fuel first = some fd) : fds.contains fd = false := by
  induction fuel generalizing first with
  | zero => cases h
  | succ fuel ih =>
    unfold freeFrom at h
    split at h
    · exact ih h
    · next hfree =>
      obtain rfl := some.inj h
      rwa [Bool.not_eq_true] at hfree

section

variable {fds : ExtTreeMap ℤ OpenFile} {first : ℤ}

end

def leaders (t : FdTable) (fd : ℤ) : Option ℤ :=
  if t.fds.contains fd then some (t.leaderOf fd) else none

/-- The pointers store the groups of a history. A closed descriptor points at most at itself. -/
structure Grouped (t : FdTable) (origin : ℤ → ℕ) : Prop where
  groups : Represents (leaders t) origin
  tidy : ∀ fd l, t.fdAlias[fd]? = some l → t.fds.contains fd = true ∨ l = fd

section Leaders

variable {t : FdTable} {l : ℤ}

theorem leaders_eq_some : leaders t fd = some l ↔ t.fds.contains fd = true ∧ t.leaderOf fd = l := by
  unfold leaders
  split
  · next h => simp [h]
  · next h => simp [h]

theorem leaders_open (h : t.fds.contains fd = true) : leaders t fd = some (t.leaderOf fd) :=
  if_pos h

theorem leaders_closed (h : t.fds.contains fd = false) : leaders t fd = none := by
  simp [leaders, h]

theorem leaderOf_eq (t : FdTable) (fd : ℤ) : t.leaderOf fd = (t.fdAlias[fd]?).getD fd :=
  getD_eq_getD_getElem?

theorem fd_eq (h : t.fds[fd]? = some handle) : t.fd fd = .ok handle := by
  simp [FdTable.fd, h]

theorem contains_of_get (h : t.fds[fd]? = some handle) : t.fds.contains fd = true := by
  rw [contains_eq_isSome_getElem?, h, isSome_some]

theorem get_of_contains (h : t.fds.contains fd = true) : ∃ handle, t.fds[fd]? = some handle := by
  rw [contains_eq_isSome_getElem?] at h
  exact isSome_iff_exists.mp h

theorem get_of_free (h : t.fds.contains fd = false) : t.fds[fd]? = none := by
  rwa [contains_eq_isSome_getElem?, isSome_eq_false_iff, isNone_iff_eq_none] at h

theorem followAlias_leader (h : t.leaderOf l = l) (fuel : ℕ) : followAlias t.fdAlias fuel l = l := by
  rcases fuel with _ | fuel
  · rfl
  rw [leaderOf_eq] at h
  unfold followAlias
  rcases hget : t.fdAlias[l]? with _ | next
  · rfl
  rw [hget, getD_some] at h
  simp [h]

theorem fdAliasLeader_eq (hopen : t.fds.contains fd = true)
    (hleader : t.leaderOf (t.leaderOf fd) = t.leaderOf fd) :
    t.fdAliasLeader fd = .ok (t.leaderOf fd) := by
  obtain ⟨handle, hget⟩ := get_of_contains hopen
  simp [FdTable.fdAliasLeader, fd_eq hget, followAlias_leader hleader]

theorem Grouped.leader {origin : ℤ → ℕ} (h : Grouped t origin) (hopen : t.fds.contains fd = true) :
    t.fds.contains (t.leaderOf fd) = true ∧ t.leaderOf (t.leaderOf fd) = t.leaderOf fd :=
  leaders_eq_some.mp (h.groups.leads (leaders_open hopen))

theorem Grouped.fdAliasLeader {origin : ℤ → ℕ} (h : Grouped t origin)
    (hopen : t.fds.contains fd = true) : t.fdAliasLeader fd = .ok (t.leaderOf fd) :=
  fdAliasLeader_eq hopen (h.leader hopen).2

end Leaders

section Operations

variable {t : FdTable} {origin : ℤ → ℕ} {k : ℤ}

theorem leaders_insert (handle : OpenFile) (fd l : ℤ) (t : FdTable) :
    leaders ⟨t.fds.insert fd handle, t.fdAlias.insert fd l⟩ = update (leaders t) fd (some l) := by
  funext k
  simp only [leaders, FdTable.leaderOf, getD_insert, update_apply]
  by_cases hk : k = fd
  · simp [hk]
  · have hne : ¬ fd = k := Ne.symm hk
    simp [hk, hne]

theorem tidy_insert (h : Grouped t origin) (handle : OpenFile) (fd l k m : ℤ)
    (hk : (t.fdAlias.insert fd l)[k]? = some m) :
    (t.fds.insert fd handle).contains k = true ∨ m = k := by
  rw [ExtTreeMap.getElem?_insert] at hk
  rw [ExtTreeMap.contains_insert]
  split at hk
  · next heq => exact .inl (by simp [Std.LawfulEqOrd.compare_eq_iff_eq.mp heq])
  · exact (h.tidy k m hk).imp (fun hopen => by rw [hopen, Bool.or_true]) id

theorem Grouped.found (h : Grouped t origin) (hfree : t.fds.contains fd = false) (handle : OpenFile)
    {id : ℕ} (hid : ∀ k, t.fds.contains k = true → origin k ≠ id) :
    Grouped ⟨t.fds.insert fd handle, t.fdAlias.insert fd fd⟩ (update origin fd id) := by
  refine ⟨?_, tidy_insert h handle fd fd⟩
  rw [leaders_insert]
  exact h.groups.found (leaders_closed hfree) fun a l ha => hid a (leaders_eq_some.mp ha).1

theorem Grouped.join (h : Grouped t origin) (hfree : t.fds.contains fd = false)
    (hopen : t.fds.contains source = true) (handle : OpenFile) :
    Grouped ⟨t.fds.insert fd handle, t.fdAlias.insert fd (t.leaderOf source)⟩
      (update origin fd (origin source)) := by
  refine ⟨?_, tidy_insert h handle fd _⟩
  rw [leaders_insert]
  exact h.groups.join (leaders_closed hfree) (leaders_open hopen)

theorem leaderOf_insert_ne (hne : k ≠ fd) (l : ℤ) (fds : ExtTreeMap ℤ OpenFile) :
    FdTable.leaderOf ⟨fds, t.fdAlias.insert fd l⟩ k = t.leaderOf k := by
  simp only [FdTable.leaderOf, getD_insert]
  exact if_neg (by simpa using Ne.symm hne)

def closed (fd : ℤ) (t : FdTable) : FdTable :=
  ⟨t.fds.erase fd, reelect fd (t.fdAlias.erase fd)⟩

theorem contains_closed (fd k : ℤ) (t : FdTable) :
    (closed fd t).fds.contains k = (k != fd && t.fds.contains k) := by
  simp only [closed, contains_erase]
  by_cases hk : k = fd
  · simp [hk]
  · have hne : compare fd k ≠ .eq := fun heq => hk (Std.LawfulEqOrd.compare_eq_iff_eq.mp heq).symm
    rw [bne_iff_ne.mpr hk, bne_iff_ne.mpr hne]

theorem alias_closed (hk : k ≠ fd) (t : FdTable) : (closed fd t).fdAlias[k]? =
      if t.fdAlias[k]? = some fd then (pointingAt fd (t.fdAlias.erase fd)).head?
      else t.fdAlias[k]? := by
  have hget : (t.fdAlias.erase fd)[k]? = t.fdAlias[k]? := by
    rw [getElem?_erase, if_neg (by simpa using Ne.symm hk)]
  simp [closed, reelect_get, hget]

theorem alias_closed_self (fd : ℤ) (t : FdTable) : (closed fd t).fdAlias[fd]? = none := by
  have hget : (t.fdAlias.erase fd)[fd]? = none := by simp
  simp only [closed, reelect_get]
  simp

theorem Grouped.closed (h : Grouped t origin) (fd : ℤ) : Grouped (closed fd t) origin := by
  -- what led nobody but itself stays as it is
  have hpoint : ∀ {a l}, a ≠ fd → leaders t a = some l → (l = fd ↔ t.fdAlias[a]? = some fd) := by
    intro a l hne ha
    obtain ⟨-, rfl⟩ := leaders_eq_some.mp ha
    rw [leaderOf_eq]
    cases t.fdAlias[a]? with
    | none => simpa using hne
    | some m => simp
  have hclosed : ∀ a, leaders (AliasGroups.closed fd t) a =
      if a = fd then none
      else if t.fds.contains a then
        some ((AliasGroups.closed fd t).leaderOf a) else none := by
    intro a
    unfold leaders
    rw [contains_closed]
    by_cases ha : a = fd <;> simp [ha]
  refine ⟨h.groups.leave (k := fd) ?_ ?_ ?_ ?_, fun k l hk => ?_⟩
  · rw [hclosed, if_pos rfl]
  · intro a l hne ha hl
    rw [hclosed, if_neg hne, if_pos (leaders_eq_some.mp ha).1, leaderOf_eq, alias_closed hne,
      if_neg fun heq => hl ((hpoint hne ha).mpr heq), ← leaderOf_eq, (leaders_eq_some.mp ha).2]
  · intro a hne ha
    have hmem : a ∈ pointingAt fd (t.fdAlias.erase fd) := by
      rw [mem_pointingAt, getElem?_erase, if_neg (by simpa using Ne.symm hne)]
      exact (hpoint hne ha).mp rfl
    obtain ⟨r, rest, hlist⟩ := exists_cons_of_ne_nil (ne_nil_of_mem hmem)
    have hr : (t.fdAlias.erase fd)[r]? = some fd := by
      rw [← mem_pointingAt, hlist]
      exact mem_cons_self
    rw [getElem?_erase] at hr
    split at hr
    · cases hr
    next hrfd =>
    have hrne : r ≠ fd := fun heq => hrfd (by simp [heq])
    have hropen := (h.tidy r fd hr).resolve_right (Ne.symm hrne)
    refine ⟨r, hrne, leaders_eq_some.mpr ⟨hropen, by rw [leaderOf_eq, hr, getD_some]⟩, ?_⟩
    intro b hbne hb
    rw [hclosed, if_neg hbne, if_pos (leaders_eq_some.mp hb).1, leaderOf_eq, alias_closed hbne,
      if_pos ((hpoint hbne hb).mp rfl), hlist, head?_cons, getD_some]
  · intro a ha
    rw [hclosed]
    have hnot : t.fds.contains a = false := by
      unfold leaders at ha
      split at ha
      · cases ha
      · next hfalse => rwa [Bool.not_eq_true] at hfalse
    simp [hnot]
  · by_cases hkfd : k = fd
    · rw [hkfd, alias_closed_self] at hk
      cases hk
    · rw [alias_closed hkfd] at hk
      rw [contains_closed]
      split at hk
      · next hpointed =>
        have hopen := (h.tidy k fd hpointed).resolve_right (Ne.symm hkfd)
        exact .inl (by simp [hkfd, hopen])
      · exact (h.tidy k l hk).imp (fun hopen => by simp [hkfd, hopen]) id

end Operations

section Calls

variable {t : FdTable} {origin : ℤ → ℕ}

theorem modify_insert (fds : ExtTreeMap ℤ OpenFile) (fd : ℤ) (handle : OpenFile)
    (f : OpenFile → OpenFile) : (fds.insert fd handle).modify fd f = fds.insert fd (f handle) := by
  apply ExtTreeMap.ext_getElem?
  intro k
  simp only [ExtTreeMap.getElem?_modify, ExtTreeMap.getElem?_insert]
  by_cases hk : fd = k <;> simp [hk]

def duplicated (fd source : ℤ) (handle : OpenFile) (t : FdTable) : FdTable :=
  ⟨t.fds.insert fd handle, t.fdAlias.insert fd (t.leaderOf source)⟩

section

variable (h : Grouped t origin) (hfree : t.fds.contains fd = false)
  (hopen : t.fds.contains source = true) (handle : OpenFile)
include h hfree hopen

/-- The last part of every duplication: it cannot fail, and the new handle takes the offset of the
leader. -/
theorem joinAlias_spec {a : ExtTreeMap ℤ ℤ}
    (ha : ∀ k, k ≠ fd → a[k]? = t.fdAlias[k]?) :
    ∃ lead, t.fds[t.leaderOf source]? = some lead ∧
      FdTable.joinAlias fd source ⟨t.fds.insert fd handle, a⟩ =
        (.ok fd, duplicated fd source { handle with offset := lead.offset } t) := by
  obtain ⟨hlopen, hlself⟩ := h.leader hopen
  obtain ⟨lead, hlead⟩ := get_of_contains hlopen
  have hne : ∀ {k}, t.fds.contains k = true → k ≠ fd := by
    rintro k hk rfl
    rw [hfree] at hk
    cases hk
  have hleader : ∀ {k}, k ≠ fd → FdTable.leaderOf ⟨t.fds.insert fd handle, a⟩ k = t.leaderOf k := by
    intro k hk
    rw [leaderOf_eq, leaderOf_eq, ha k hk]
  have halias : a.insert fd (t.leaderOf source) = t.fdAlias.insert fd (t.leaderOf source) := by
    apply ExtTreeMap.ext_getElem?
    intro k
    rw [ExtTreeMap.getElem?_insert, ExtTreeMap.getElem?_insert]
    split
    · rfl
    · next hk => exact ha k fun heq => hk (by simp [heq])
  have hcontains : ∀ {k}, t.fds.contains k = true → (t.fds.insert fd handle).contains k = true := by
    intro k hk
    rw [ExtTreeMap.contains_insert, hk, Bool.or_true]
  -- the leader of the source, then the leader of the new descriptor
  have hfirst : FdTable.fdAliasLeader source ⟨t.fds.insert fd handle, a⟩ =
      .ok (t.leaderOf source) := by
    rw [fdAliasLeader_eq (hcontains hopen) (by
      rw [hleader (hne hopen), hleader (hne hlopen), hlself]), hleader (hne hopen)]
  have hnew : FdTable.leaderOf ⟨t.fds.insert fd handle, t.fdAlias.insert fd (t.leaderOf source)⟩ fd =
      t.leaderOf source := by
    simp [FdTable.leaderOf]
  have hsecond : FdTable.fdAliasLeader fd
      ⟨t.fds.insert fd handle, t.fdAlias.insert fd (t.leaderOf source)⟩ =
      .ok (t.leaderOf source) := by
    rw [fdAliasLeader_eq (by simp) (by
      rw [hnew, leaderOf_insert_ne (hne hlopen), hlself]), hnew]
  have hlead' : FdTable.fd (t.leaderOf source)
      ⟨t.fds.insert fd handle, t.fdAlias.insert fd (t.leaderOf source)⟩ = .ok lead := by
    refine fd_eq ?_
    rw [ExtTreeMap.getElem?_insert, if_neg (by simpa using Ne.symm (hne hlopen)), hlead]
  refine ⟨lead, hlead, ?_⟩
  simp only [FdTable.joinAlias, hfirst, FdTable.setFdAlias, halias, FdTable.syncFdOffsetFromAlias,
    hsecond, if_neg (hne hlopen), hlead', FdTable.setOffset, modify_insert]
  rfl

theorem Grouped.duplicated :
    Grouped (duplicated fd source handle t) (update origin fd (origin source)) :=
  h.join hfree hopen handle

end

theorem closeFd_eq (fd : ℤ) (t : FdTable) :
    t.closeFd fd = if t.fds.contains fd then (.ok (), closed fd t) else (.error ebadf, t) := rfl

theorem fd_error {e : ℕ} (h : t.fd fd = .error e) : e = ebadf ∧ t.fds[fd]? = none := by
  unfold FdTable.fd at h
  split at h
  · next hnone =>
    cases h
    exact ⟨rfl, hnone⟩
  · cases h

theorem fd_ok (h : t.fd fd = .ok handle) : t.fds[fd]? = some handle := by
  unfold FdTable.fd at h
  split at h
  · cases h
  · next hsome =>
    cases h
    exact hsome

/-- What a duplicating call leaves: nothing has changed, or a free number of the table `u`, in
which at most the new number has been closed, holds the handle of the source with other flags and
the leader's offset. -/
inductive Dup (source : ℤ) (t : FdTable) : KernelResult ℤ × FdTable → Prop where
  | refused : t.fds[source]? = none → Dup source t (.error ebadf, t)
  | same : t.fds.contains source = true → Dup source t (.ok source, t)
  | made (u : FdTable) (fd : ℤ) (handle lead : OpenFile) (flags : ℕ) :
      (t.fds.contains fd = false ∧ u = t ∨ t.fds.contains fd = true ∧ u = closed fd t) →
      source ≠ fd → t.fds[source]? = some handle → u.fds[u.leaderOf source]? = some lead →
      Dup source t (.ok fd, duplicated fd source { handle with flags, offset := lead.offset } u)

theorem dup_join (h : Grouped t origin) (hget : t.fds[source]? = some handle)
    (hfree : t.fds.contains fd = false) (flags : ℕ) {a : ExtTreeMap ℤ ℤ}
    (ha : ∀ k, k ≠ fd → a[k]? = t.fdAlias[k]?) :
    Dup source t (FdTable.joinAlias fd source ⟨t.fds.insert fd { handle with flags }, a⟩) := by
  have hopen := contains_of_get hget
  obtain ⟨lead, hlead, heq⟩ := joinAlias_spec h hfree hopen { handle with flags } ha
  rw [heq]
  refine .made t fd handle lead flags (.inl ⟨hfree, rfl⟩) ?_ hget hlead
  rintro rfl
  rw [hfree] at hopen
  cases hopen

theorem sysDup_dup (h : Grouped t origin) (hrun : t.sysDup source = some out) :
    Dup source t out := by
  unfold FdTable.sysDup at hrun
  cases hfd : t.fd source with
  | error e =>
    obtain ⟨rfl, hnone⟩ := fd_error hfd
    rw [hfd] at hrun
    cases hrun
    exact .refused hnone
  | ok handle =>
    simp only [hfd, FdTable.addFdFrom, FdTable.addFd, Option.map_map] at hrun
    obtain ⟨fd, hfree, rfl⟩ := map_eq_some_iff.mp hrun
    refine dup_join h (fd_ok hfd) (freeFrom_free hfree) _ fun k hk => ?_
    rw [ExtTreeMap.getElem?_insert, if_neg (by simpa using Ne.symm hk)]

theorem sysFcntlDup_dup (h : Grouped t origin) {arg : ℤ} {cloexec : Bool}
    (hrun : t.sysFcntlDup source arg cloexec = some out) : Dup source t out := by
  unfold FdTable.sysFcntlDup at hrun
  cases hfd : t.fd source with
  | error e =>
    obtain ⟨rfl, hnone⟩ := fd_error hfd
    rw [hfd] at hrun
    cases hrun
    exact .refused hnone
  | ok handle =>
    simp only [hfd] at hrun
    obtain ⟨fd, hfree, rfl⟩ := map_eq_some_iff.mp hrun
    exact dup_join h (fd_ok hfd) (freeFrom_free hfree) _ fun k _ => rfl

theorem sysDup3_dup (h : Grouped t origin) (oldFd newFd : ℤ) (cloexec : Bool) :
    Dup oldFd t (t.sysDup3 oldFd newFd cloexec) := by
  unfold FdTable.sysDup3
  rcases hfd : t.fd oldFd with e | handle
  · obtain ⟨rfl, hnone⟩ := fd_error hfd
    exact .refused hnone
  have hget := fd_ok hfd
  have hopen := contains_of_get hget
  simp only
  split
  · next heq => exact heq ▸ .same hopen
  next hne =>
  have hattach : ∀ u : FdTable, (t.closeFd newFd).2 = u → Grouped u origin →
      u.fds.contains newFd = false → u.fds.contains oldFd = true →
      (t.fds.contains newFd = false ∧ u = t ∨ t.fds.contains newFd = true ∧ u = closed newFd t) →
      Dup oldFd t (FdTable.joinAlias newFd oldFd { (t.closeFd newFd).2 with
          fds := (t.closeFd newFd).2.fds.insert newFd
            { handle with flags := withCloexecFlag handle.flags cloexec } }) := by
    intro u hu hgrouped hfree hopen' hcase
    rw [hu]
    obtain ⟨lead, hlead, heq⟩ := joinAlias_spec hgrouped hfree hopen'
      { handle with flags := withCloexecFlag handle.flags cloexec } (a := u.fdAlias)
      fun k _ => rfl
    rw [heq]
    exact .made u newFd handle lead _ hcase hne hget hlead
  rcases hnew : t.fds.contains newFd with _ | _
  · exact hattach t (by simp [closeFd_eq, hnew]) h hnew hopen (.inl ⟨hnew, rfl⟩)
  refine hattach (closed newFd t) (by simp [closeFd_eq, hnew]) (h.closed newFd) ?_ ?_
    (.inr ⟨hnew, rfl⟩)
  · simp [contains_closed]
  · rw [contains_closed, hopen, Bool.and_true, bne_iff_ne]
    exact hne

end Calls

structure Proc where
  table : FdTable
  origin : ℤ → ℕ

structure System where
  procs : ℕ → Option Proc
  opens : ℕ

inductive FdCall where
  | open (handle : OpenFile)
  | dup (source : ℤ)
  | dup3 (oldFd newFd : ℤ) (cloexec : Bool)
  | fcntlDup (source arg : ℤ) (cloexec : Bool)
  | close (fd : ℤ)
  | closeRange (first last : ℤ)

def inherit (source : ℤ) (origin : ℤ → ℕ) : KernelResult ℤ × FdTable → Proc
  | (.error _, t) => ⟨t, origin⟩
  | (.ok fd, t) => ⟨t, update origin fd (origin source)⟩

def FdCall.run (p : Proc) (opens : ℕ) : FdCall → Option (Proc × ℕ)
  | .open handle => (p.table.addFd handle).map fun (fd, t) =>
      (⟨t, update p.origin fd opens⟩, opens + 1)
  | dup source => (p.table.sysDup source).map fun out => (inherit source p.origin out, opens)
  | dup3 oldFd newFd cloexec =>
    some (inherit oldFd p.origin (p.table.sysDup3 oldFd newFd cloexec), opens)
  | fcntlDup source arg cloexec =>
    (p.table.sysFcntlDup source arg cloexec).map fun out => (inherit source p.origin out, opens)
  | close fd => some ({ p with table := (p.table.sysClose fd).2 }, opens)
  | closeRange first last => some ({ p with table := (p.table.sysCloseRange first last).2 }, opens)

inductive Event where
  | call (pid : ℕ) (c : FdCall)
  | fork (parent child : ℕ)

/-- A child starts with a copy of all descriptors. -/
def Event.step (s : System) : Event → Option System
  | call pid c =>
    (s.procs pid).bind fun p => (c.run p s.opens).map fun (p, opens) =>
      ⟨update s.procs pid (some p), opens⟩
  | fork parent child =>
    (s.procs parent).bind fun p =>
      if (s.procs child).isSome then none
      else some { s with procs := update s.procs child (some p) }

def start (stdin stdout stderr : OpenFile) : System :=
  ⟨update (fun _ => none) 1 (some ⟨.seeded stdin stdout stderr, Int.toNat⟩), 3⟩

inductive Reached (stdin stdout stderr : OpenFile) : System → Prop where
  | start : Reached stdin stdout stderr (start stdin stdout stderr)
  | step {s s'} (e : Event) : Reached stdin stdout stderr s → e.step s = some s' →
      Reached stdin stdout stderr s'

structure Sound (p : Proc) (opens : ℕ) : Prop where
  grouped : Grouped p.table p.origin
  closed : ∀ fd, p.table.fds.contains fd = false → p.table.fdAlias[fd]? = none
  known : ∀ fd, p.table.fds.contains fd = true → p.origin fd < opens

section Steps

variable {p : Proc} {opens : ℕ}

section

variable (h : Sound p opens)
include h

theorem Sound.mono (hn : opens ≤ n) : Sound p n :=
  ⟨h.grouped, h.closed, fun fd hfd => (h.known fd hfd).trans_le hn⟩

theorem Sound.closeOne (fd : ℤ) :
    Sound { p with table := AliasGroups.closed fd p.table } opens := by
  refine ⟨h.grouped.closed fd, fun k hk => ?_, fun k hk => ?_⟩
  · by_cases hkfd : k = fd
    · rw [hkfd]
      exact alias_closed_self fd p.table
    · have hopen : p.table.fds.contains k = false := by
        rw [contains_closed, bne_iff_ne.mpr hkfd] at hk
        exact hk
      rw [alias_closed hkfd, h.closed k hopen]
      rfl
  · rw [contains_closed, Bool.and_eq_true] at hk
    exact h.known k hk.2

theorem Sound.closeFd (fd : ℤ) : Sound { p with table := (p.table.closeFd fd).2 } opens := by
  rw [closeFd_eq]
  split
  · exact h.closeOne fd
  · exact h

theorem Sound.closeEach (fds : List ℤ) :
    Sound { p with table := fds.foldl (fun t fd => (t.closeFd fd).2) p.table } opens := by
  induction fds generalizing p with
  | nil => exact h
  | cons fd fds ih => exact ih (h.closeFd fd)

theorem Sound.insert {l : ℤ} {id : ℕ}
    (hgrouped : Grouped ⟨p.table.fds.insert fd handle, p.table.fdAlias.insert fd l⟩
      (update p.origin fd id)) (hid : id < n) (hn : opens ≤ n) :
    Sound ⟨⟨p.table.fds.insert fd handle, p.table.fdAlias.insert fd l⟩,
      update p.origin fd id⟩ n := by
  refine ⟨hgrouped, fun k hk => ?_, fun k hk => ?_⟩
  · rw [ExtTreeMap.contains_insert, Bool.or_eq_false_iff] at hk
    rw [ExtTreeMap.getElem?_insert, if_neg (by simpa using hk.1)]
    exact h.closed k hk.2
  · simp only [update_apply]
    split
    · exact hid
    next hne =>
    rw [ExtTreeMap.contains_insert, Bool.or_eq_true] at hk
    have hopen := hk.resolve_left (by simpa using Ne.symm hne)
    exact (h.known k hopen).trans_le hn

theorem Sound.inherits (hdup : Dup source p.table out) :
    Sound (inherit source p.origin out) opens := by
  cases hdup with
  | refused => exact h
  | same hopen =>
    simp only [inherit, update_eq_self]
    exact h
  | made u fd handle lead flags hcase hne hget hlead =>
    have hopen := contains_of_get hget
    have hsource := h.known source hopen
    rcases hcase with ⟨hfree, rfl⟩ | ⟨hclosed, rfl⟩
    · exact h.insert (h.grouped.duplicated hfree hopen _) hsource le_rfl
    have hu := h.closeOne fd
    refine hu.insert (hu.grouped.duplicated ?_ ?_ _) hsource le_rfl
    · simp [contains_closed]
    · rw [contains_closed, hopen, Bool.and_true, bne_iff_ne]
      exact hne

theorem Sound.run (c : FdCall) {p' : Proc} (hrun : c.run p opens = some (p', n))
    : Sound p' n ∧ opens ≤ n := by
  cases c with
  | «open» handle =>
    obtain ⟨⟨fd, t⟩, hadd, hout⟩ := map_eq_some_iff.mp hrun
    obtain ⟨fd', hfree, hadd⟩ := map_eq_some_iff.mp hadd
    cases hadd
    cases hout
    have hfree := freeFrom_free hfree
    refine ⟨h.insert (h.grouped.found hfree handle fun k hk => ?_) (Nat.lt_succ_self _)
      (Nat.le_succ _), Nat.le_succ _⟩
    exact (h.known k hk).ne
  | dup source =>
    obtain ⟨out, hdup, hout⟩ := map_eq_some_iff.mp hrun
    cases hout
    exact ⟨h.inherits (sysDup_dup h.grouped hdup), le_rfl⟩
  | dup3 oldFd newFd cloexec =>
    cases hrun
    exact ⟨h.inherits (sysDup3_dup h.grouped oldFd newFd cloexec), le_rfl⟩
  | fcntlDup source arg cloexec =>
    obtain ⟨out, hdup, hout⟩ := map_eq_some_iff.mp hrun
    cases hout
    exact ⟨h.inherits (sysFcntlDup_dup h.grouped hdup), le_rfl⟩
  | close fd =>
    cases hrun
    refine ⟨?_, le_rfl⟩
    have hclose := h.closeFd fd
    unfold FdTable.sysClose
    generalize p.table.closeFd fd = out at hclose ⊢
    obtain ⟨e | _, t⟩ := out <;> exact hclose
  | closeRange first last =>
    cases hrun
    exact ⟨h.closeEach _, le_rfl⟩

end

theorem Event.step_sound (e : Event) {s s' : System}
    (h : ∀ pid p, s.procs pid = some p → Sound p s.opens) (hstep : e.step s = some s') :
    ∀ pid p, s'.procs pid = some p → Sound p s'.opens := by
  intro pid p hp
  cases e with
  | call caller c =>
    obtain ⟨q, hq, hstep⟩ := bind_eq_some_iff.mp hstep
    obtain ⟨⟨q', n⟩, hrun, hout⟩ := map_eq_some_iff.mp hstep
    cases hout
    obtain ⟨hsound, hle⟩ := (h caller q hq).run c hrun
    simp only [update_apply] at hp
    split at hp
    · cases hp
      exact hsound
    · exact (h pid p hp).mono hle
  | fork parent child =>
    obtain ⟨q, hq, hstep⟩ := bind_eq_some_iff.mp hstep
    split at hstep
    · cases hstep
    cases hstep
    simp only [update_apply] at hp
    split at hp
    · obtain rfl := some.inj hp
      exact h parent _ hq
    · exact h pid p hp

theorem seeded_contains (stdin stdout stderr : OpenFile) (fd : ℤ) :
    (FdTable.seeded stdin stdout stderr).fds.contains fd = true ↔ fd = 0 ∨ fd = 1 ∨ fd = 2 := by
  simp only [FdTable.seeded, ExtTreeMap.contains_insert, Bool.or_eq_true, beq_iff_eq,
    Std.LawfulEqOrd.compare_eq_iff_eq, contains_empty, Bool.false_eq_true, or_false]
  omega

theorem sound_seeded (stdin stdout stderr : OpenFile) :
    Sound ⟨.seeded stdin stdout stderr, Int.toNat⟩ 3 := by
  refine ⟨⟨⟨?_, ?_⟩, fun fd l hl => ?_⟩, fun fd _ => ?_, fun fd hfd => ?_⟩
  · intro a l ha
    obtain ⟨hopen, rfl⟩ := leaders_eq_some.mp ha
    exact ha
  · intro a b l m ha hb
    obtain ⟨hopen, rfl⟩ := leaders_eq_some.mp ha
    obtain ⟨hopen', rfl⟩ := leaders_eq_some.mp hb
    rw [seeded_contains] at hopen hopen'
    show a = b ↔ a.toNat = b.toNat
    omega
  · simp [FdTable.seeded] at hl
  · simp [FdTable.seeded]
  · rw [seeded_contains] at hfd
    show fd.toNat < 3
    omega

theorem Reached.sound {stdin stdout stderr : OpenFile} {s : System}
    (h : Reached stdin stdout stderr s) : ∀ pid p, s.procs pid = some p → Sound p s.opens := by
  induction h with
  | start =>
    intro pid p hp
    simp only [AliasGroups.start, update_apply] at hp
    split at hp
    · cases hp
      exact sound_seeded stdin stdout stderr
    · cases hp
  | step e _ hstep ih => exact e.step_sound ih hstep

end Steps

/-- In every process the leader of an open descriptor is open and leads itself, it is what the
kernel finds by following pointers, closed descriptors point at nothing, and two open descriptors
have one leader if and only if they come from one open. -/
theorem alias_groups_well_formed {stdin stdout stderr : OpenFile} {s : System}
    (h : Reached stdin stdout stderr s) {pid : ℕ} {p : Proc} (hp : s.procs pid = some p) :
    (∀ fd, p.table.fds.contains fd = true → p.table.fds.contains (p.table.leaderOf fd) = true ∧
      p.table.leaderOf (p.table.leaderOf fd) = p.table.leaderOf fd ∧
      p.table.fdAliasLeader fd = .ok (p.table.leaderOf fd)) ∧
    (∀ fd, p.table.fds.contains fd = false → p.table.fdAlias[fd]? = none) ∧
    ∀ a b, p.table.fds.contains a = true → p.table.fds.contains b = true →
      (p.table.leaderOf a = p.table.leaderOf b ↔ p.origin a = p.origin b) := by
  have hsound := h.sound pid p hp
  refine ⟨fun fd hopen => ?_, hsound.closed, fun a b ha hb => ?_⟩
  · obtain ⟨hleader, hself⟩ := hsound.grouped.leader hopen
    exact ⟨hleader, hself, hsound.grouped.fdAliasLeader hopen⟩
  · exact hsound.grouped.groups.same (leaders_open ha) (leaders_open hb)

def console : OpenFile := ⟨0, 2, 0⟩

/-- Descriptor 0 is duplicated twice and closed: the first duplicate leads the second. -/
theorem alias_groups_well_formed_reelected :
    ∃ s p, Reached console console console s ∧ s.procs 1 = some p ∧
      (p.table.leaderOf 3, p.table.leaderOf 4) = (3, 3) ∧ p.origin 3 = p.origin 4 := by
  have hrun : ([.call 1 (.dup 0), .call 1 (.dup 0), .call 1 (.close 0)].foldlM Event.step
      (start console console console)).bind (fun s => (s.procs 1).map fun p =>
        (p.table.leaderOf 3, p.table.leaderOf 4, p.table.fds.contains 3, p.table.fds.contains 4)) =
      some (3, 3, true, true) := by decide +kernel
  obtain ⟨s, hs, hview⟩ := bind_eq_some_iff.mp hrun
  obtain ⟨p, hp, hview⟩ := map_eq_some_iff.mp hview
  simp only [Prod.mk.injEq] at hview
  obtain ⟨h3, h4, ho3, ho4⟩ := hview
  have hreached : Reached console console console s :=
    OptionRuns.foldlM_invariant (fun e _ _ _ h hs => .step e h hs) .start hs
  refine ⟨s, p, hreached, hp, by rw [h3, h4], ?_⟩
  exact ((alias_groups_well_formed hreached hp).2.2 3 4 ho3 ho4).mp (h3.trans h4.symm)

end AliasGroups
