import Whuse.AliasGroups
import Whuse.OffsetCalls

/-! Whether duplicated descriptors share one offset. Beside the descriptors stands, for every open,
the offset that the last successful call through one of its descriptors left. -/
namespace SharedOffsets

open Option Std.ExtTreeMap
open AddressSpace ProcessTable DescriptorTable PositionedFiles OffsetCalls AliasGroups Function List
open Std (ExtTreeMap)

structure Tracked where
  state : State
  origin : ℤ → ℕ
  left : ℕ → ℕ
  opens : ℕ

def usedOffset (fd : ℤ) (t : FdTable) : KernelResult ℕ :=
  match t.syncFdOffsetFromAlias fd with
  | (.error e, _) => .error e
  | (.ok (), t) => (t.fd fd).map OpenFile.offset

def moves : Call → List ℤ
  | .read fd _ _ => [fd]
  | .write fd _ => [fd]
  | .readv fd _ => [fd]
  | .writev fd _ => if fd = 1 ∨ fd = 2 then [] else [fd]
  | .lseek fd _ _ => [fd]
  | .getdents64 fd _ _ => [fd]
  | .sendfile outFd inFd offset _ => outFd :: if offset.isNone then [inFd] else []
  | .copyFileRange inFd offIn outFd offOut _ =>
    (if offIn.isNone then [inFd] else []) ++ if offOut.isNone then [outFd] else []
  | .ftruncate fd _ => [fd]
  | _ => []

def leaves (origin : ℤ → ℕ) (t : FdTable) (left : ℕ → ℕ) (fd : ℤ) : ℕ → ℕ :=
  match t.fds[fd]? with
  | none => left
  | some h => update left (origin fd) h.offset

def origins (k : Tracked) (fd : ℤ) : Call → ℤ → ℕ
  | .open _ => update k.origin fd k.opens
  | .dup source => update k.origin fd (k.origin source)
  | .dup3 oldFd _ _ => update k.origin fd (k.origin oldFd)
  | .fcntlDup source _ _ => update k.origin fd (k.origin source)
  | _ => k.origin

def record (k : Tracked) (c : Call) : KernelResult ℤ × State → Tracked
  | (.error _, s) => { k with state := s }
  | (.ok r, s) =>
    let left := (moves c).foldl (leaves k.origin s.table) k.left
    match c with
    | .open handle => ⟨s, origins k r c, update left k.opens handle.offset, k.opens + 1⟩
    | _ => ⟨s, origins k r c, left, k.opens⟩

/-- A call, or anything that others do to the files. -/
inductive Event where
  | call (a : Answers) (c : Call)
  | others (files : Files)

def Event.step (k : Tracked) : Event → Option Tracked
  | call a c => (c.run a k.state).map (record k c)
  | others files => some { k with state := { k.state with files } }

/-- All descriptors of an open are at the offset that was left there. -/
structure InStep (k : Tracked) : Prop where
  grouped : Grouped k.state.table k.origin
  offset : ∀ fd h, k.state.table.fds[fd]? = some h → h.offset = k.left (k.origin fd)
  known : ∀ fd, k.state.table.fds.contains fd = true → k.origin fd < k.opens

def Alone (k : Tracked) (fd : ℤ) : Prop :=
  ∀ fd', k.state.table.fds.contains fd = true → k.state.table.fds.contains fd' = true →
    k.origin fd' = k.origin fd → fd' = fd

variable {c : Call} {t : FdTable} {files files' : Files} {out : KernelResult ℕ × State}
  {h h' handle : OpenFile} {s : State} {α : Type} {len total e : ℕ} {fd inFd outFd : ℤ}

section Sync

variable {origin : ℤ → ℕ} {left : ℕ → ℕ}

theorem setOffset_get (offset : ℕ) (fd k : ℤ) (t : FdTable) : (t.setOffset offset fd).fds[k]? =
      (t.fds[k]?).map fun h => if k = fd then { h with offset } else h := by
  simp only [FdTable.setOffset, ExtTreeMap.getElem?_modify]
  by_cases hk : fd = k
  · simp [hk]
  · have hne : ¬ k = fd := Ne.symm hk
    simp [hk, hne]

theorem setOffsets_get (offset : ℕ) (fds : List ℤ) (k : ℤ) (t : FdTable) :
    (fds.foldl (fun u peer => u.setOffset offset peer) t).fds[k]? =
      (t.fds[k]?).map fun h => if k ∈ fds then { h with offset } else h := by
  induction fds generalizing t with
  | nil => simp
  | cons fd fds ih =>
    rw [foldl_cons, ih, setOffset_get, Option.map_map]
    congr 1
    funext h
    by_cases hk : k = fd <;> by_cases hmem : k ∈ fds <;> simp [hk]

/-- With all duplicates in step, taking the leader's offset changes nothing. -/
theorem syncFrom_eq (h : Grouped t origin)
    (hoffset : ∀ fd h, t.fds[fd]? = some h → h.offset = left (origin fd))
    (hopen : t.fds.contains fd = true) : t.syncFdOffsetFromAlias fd = (.ok (), t) := by
  obtain ⟨hlopen, -⟩ := h.leader hopen
  obtain ⟨lead, hlead⟩ := get_of_contains hlopen
  obtain ⟨handle, hget⟩ := get_of_contains hopen
  unfold FdTable.syncFdOffsetFromAlias
  rw [h.fdAliasLeader hopen]
  simp only [fd_eq hlead]
  split
  · rfl
  have hsame : lead.offset = handle.offset := by
    rw [hoffset _ _ hlead, hoffset _ _ hget, h.groups.tag_leader (leaders_open hopen)]
  have hfds : (t.setOffset lead.offset fd).fds = t.fds := by
    apply ExtTreeMap.ext_getElem?
    intro k
    rw [setOffset_get]
    by_cases hk : k = fd
    · rw [hk, hget, hsame]
      simp
    · simp [hk]
  rw [show t.setOffset lead.offset fd = t from congrArg (fun fds => FdTable.mk fds t.fdAlias) hfds]

theorem syncTo_spec (h : Grouped t origin) (hget : t.fds[fd]? = some handle) :
    ∃ u, t.syncFdOffsetToAliases fd = (.ok (), u) ∧ u.fdAlias = t.fdAlias ∧
      ∀ k, u.fds[k]? = (t.fds[k]?).map fun h' =>
        if origin k = origin fd then { h' with offset := handle.offset } else h' := by
  have hopen := contains_of_get hget
  have hself := (h.leader hopen).2
  unfold FdTable.syncFdOffsetToAliases
  rw [h.fdAliasLeader hopen, fd_eq hget]
  refine ⟨_, rfl, ?_, fun k => ?_⟩
  · exact foldlRecOn (motive := (FdTable.fdAlias · = t.fdAlias)) _ _ rfl fun _ hu _ _ => hu
  rw [setOffset_get, setOffsets_get]
  rcases hk : t.fds[k]? with _ | hand
  · rfl
  have hkopen := contains_of_get hk
  have hiff : origin k = origin fd ↔
      k ∈ pointingAt (t.leaderOf fd) t.fdAlias ∨ k = t.leaderOf fd := by
    rw [← h.groups.same (leaders_open hkopen) (leaders_open hopen), mem_pointingAt, leaderOf_eq t k]
    rcases halias : t.fdAlias[k]? with _ | l
    · simp
    simp only [getD_some, some.injEq]
    refine ⟨.inl, fun hor => hor.elim id fun heq => ?_⟩
    rw [← heq, leaderOf_eq, halias, getD_some] at hself
    rw [hself, ← heq]
  simp only [hiff]
  by_cases hmem : k ∈ pointingAt (t.leaderOf fd) t.fdAlias
  · simp only [if_pos (Or.inl hmem)]
    split <;> rfl
  · simp [hmem]

end Sync

section Changes

variable {k : Tracked} {u : FdTable} {origin : ℤ → ℕ}

theorem grouped_of_same (h : Grouped t origin) (halias : u.fdAlias = t.fdAlias)
    (hopen : ∀ j, u.fds.contains j = t.fds.contains j) : Grouped u origin := by
  have hleaders : leaders u = leaders t := by
    funext j
    simp [leaders, FdTable.leaderOf, halias, hopen]
  refine ⟨hleaders ▸ h.groups, fun fd l hl => ?_⟩
  rw [hopen]
  exact h.tidy fd l (halias ▸ hl)

theorem InStep.sameTable (h : InStep k) (hs : s.table = k.state.table) :
    InStep { k with state := s } := by
  obtain ⟨t, files⟩ := s
  obtain rfl : t = k.state.table := hs
  exact ⟨h.grouped, h.offset, h.known⟩

theorem putHandle_get (j : ℤ) :
    (putHandle fd h t).fds[j]? = if j = fd then some h else t.fds[j]? := by
  simp [putHandle, ExtTreeMap.getElem?_insert, eq_comm (a := fd)]

theorem putHandle_opens (hopen : t.fds.contains fd = true) (j : ℤ) :
    (putHandle fd h t).fds.contains j = t.fds.contains j := by
  rw [contains_eq_isSome_getElem?, putHandle_get]
  split
  · next hj => rw [hj, hopen, isSome_some]
  · rw [contains_eq_isSome_getElem?]

theorem putHandle_self (hget : t.fds[fd]? = some h) : putHandle fd h t = t := by
  have hfds : (putHandle fd h t).fds = t.fds := by
    apply ExtTreeMap.ext_getElem?
    intro j
    rw [putHandle_get]
    split
    · next hj => rw [hj, hget]
    · rfl
  exact congrArg (fun fds => FdTable.mk fds t.fdAlias) hfds

theorem foldl_leaves {j : ℤ} {hj : OpenFile} (hget : u.fds[j]? = some hj) (fds : List ℤ)
    (halone : ∀ fd ∈ fds, u.fds.contains fd = true → origin fd = origin j → fd = j) (left : ℕ → ℕ) :
    fds.foldl (leaves origin u) left (origin j) =
      if j ∈ fds then hj.offset else left (origin j) := by
  induction fds generalizing left with
  | nil => simp
  | cons fd fds ih =>
    rw [foldl_cons, ih fun fd' hmem => halone fd' (mem_cons_of_mem _ hmem)]
    by_cases hmem : j ∈ fds
    · simp [hmem]
    rw [if_neg hmem]
    by_cases hjfd : j = fd
    · rw [if_pos (hjfd ▸ mem_cons_self), leaves, ← hjfd, hget]
      exact update_self ..
    rw [if_neg (by simp [hjfd, hmem]), leaves]
    rcases hfd : u.fds[fd]? with _ | h
    · rfl
    refine update_of_ne (fun heq => hjfd ?_) ..
    exact (halone fd mem_cons_self (contains_of_get hfd) heq.symm).symm

/-- Some descriptors, each the only one of its open, have moved. -/
theorem InStep.own (h : InStep k) (fds : List ℤ) (halone : ∀ fd ∈ fds, Alone k fd)
    (halias : u.fdAlias = k.state.table.fdAlias)
    (hopen : ∀ j, u.fds.contains j = k.state.table.fds.contains j)
    (hother : ∀ j, j ∉ fds → u.fds[j]? = k.state.table.fds[j]?) :
    InStep { k with
      state := ⟨u, files⟩
      left := fds.foldl (leaves k.origin u) k.left } := by
  refine ⟨grouped_of_same h.grouped halias hopen, fun j hj hget => ?_, fun j hj => ?_⟩
  · have hjopen : k.state.table.fds.contains j = true := (hopen j) ▸ contains_of_get hget
    have hvalue : fds.foldl (leaves k.origin u) k.left (k.origin j) =
        if j ∈ fds then hj.offset else k.left (k.origin j) := by
      refine foldl_leaves hget fds (fun fd hmem hfd heq => ?_) k.left
      exact (halone fd hmem j (hopen fd ▸ hfd) hjopen heq.symm).symm
    show hj.offset = fds.foldl (leaves k.origin u) k.left (k.origin j)
    rw [hvalue]
    split
    · rfl
    · next hmem =>
      rw [hother j hmem] at hget
      exact h.offset j hj hget
  · exact h.known j (hopen j ▸ hj)

/-- All duplicates of a descriptor have moved with it. -/
theorem InStep.moved (h : InStep k) (hopen : k.state.table.fds.contains fd = true)
    (halias : u.fdAlias = k.state.table.fdAlias)
    (hfds : ∀ j, u.fds[j]? = ((putHandle fd handle k.state.table).fds[j]?).map fun h' =>
      if k.origin j = k.origin fd then { h' with offset := handle.offset } else h') :
    InStep { k with
      state := ⟨u, files⟩
      left := [fd].foldl (leaves k.origin u) k.left } := by
  have hcontains : ∀ j, u.fds.contains j = k.state.table.fds.contains j := by
    intro j
    rw [contains_eq_isSome_getElem?, hfds, isSome_map,
      ← contains_eq_isSome_getElem?, putHandle_opens hopen]
  have hleft : [fd].foldl (leaves k.origin u) k.left =
      update k.left (k.origin fd) handle.offset := by
    have hfd : u.fds[fd]? = some handle := by
      rw [hfds, putHandle_get, if_pos rfl]
      simp
    simp only [foldl_cons, foldl_nil, leaves, hfd]
  refine ⟨grouped_of_same h.grouped halias hcontains, fun j hj hget => ?_, fun j hj => ?_⟩
  · show hj.offset = [fd].foldl (leaves k.origin u) k.left (k.origin j)
    rw [hleft]
    rw [hfds, putHandle_get] at hget
    by_cases horigin : k.origin j = k.origin fd
    · obtain ⟨h', -, rfl⟩ := map_eq_some_iff.mp hget
      rw [if_pos horigin, horigin, update_self]
    rw [update_of_ne horigin]
    have hne : j ≠ fd := fun heq => horigin (by rw [heq])
    rw [if_neg hne] at hget
    obtain ⟨h', hbefore, rfl⟩ := map_eq_some_iff.mp hget
    rw [if_neg horigin]
    exact h.offset j h' hbefore
  · exact h.known j (hcontains j ▸ hj)

end Changes

def OnOpen (t : FdTable) : Call → Prop
  | .read fd _ _ => t.fds.contains fd = true
  | .write fd _ => t.fds.contains fd = true
  | .readv fd _ => t.fds.contains fd = true
  | .writev fd _ => t.fds.contains fd = true
  | .lseek fd _ _ => t.fds.contains fd = true
  | .getdents64 fd _ _ => t.fds.contains fd = true
  | .sendfile outFd inFd _ _ => t.fds.contains outFd = true ∧ t.fds.contains inFd = true
  | .copyFileRange inFd _ outFd _ _ => t.fds.contains inFd = true ∧ t.fds.contains outFd = true
  | .ftruncate fd _ => t.fds.contains fd = true
  | .dup source => t.fds.contains source = true
  | .dup3 oldFd _ _ => t.fds.contains oldFd = true
  | .fcntlDup source _ _ => t.fds.contains source = true
  | .close fd => t.fds.contains fd = true
  | _ => True

def Bad {α : Type} (r : KernelResult α) : Prop := r = .error ebadf

theorem not_bad_ok (x : α) : ¬ Bad (.ok x : KernelResult α) := fun h => by cases h

theorem not_bad_efault : ¬ Bad (.error efault : KernelResult α) :=
  fun h => absurd (Except.error.inj h) (by decide)

theorem bad_cast {β : Type} (h : ¬ Bad (.error e : KernelResult α)) :
    ¬ Bad (.error e : KernelResult β) :=
  fun hbad => h (congrArg Except.error (Except.error.inj hbad))

theorem bad_map {β : Type} {r : KernelResult α} {f : α → β} (h : ¬ Bad r) : ¬ Bad (r.map f) := by
  cases r with
  | error e => exact bad_cast h
  | ok x => exact not_bad_ok (f x)

theorem deliver_not_bad (stores : Bool) (n : ℕ) : ¬ Bad (deliver stores n) := by
  unfold deliver
  split
  · exact not_bad_ok n
  · exact not_bad_efault

section Operations

variable {k : Tracked} {op : HandleOp α}

/-- With synchronisation an operation fails and changes no descriptor, or all duplicates move. -/
theorem withSynced_cases (h : InStep k) (hop : Gentle op) {out : KernelResult α × State}
    (hrun : withSynced fd op k.state = some out) :
    (∃ e, out.1 = .error e ∧ out.2.table = k.state.table ∧
      (k.state.table.fds.contains fd = true → ¬ Bad out.1)) ∨
    ∃ x, out.1 = .ok x ∧ InStep { k with
      state := out.2
      left := [fd].foldl (leaves k.origin out.2.table) k.left } := by
  rcases hopen : k.state.table.fds.contains fd with _ | _
  · have hleader : k.state.table.fdAliasLeader fd = .error ebadf := by
      simp only [FdTable.fdAliasLeader, FdTable.fd, get_of_free hopen]
    simp only [withSynced, FdTable.syncFdOffsetFromAlias, hleader] at hrun
    cases hrun
    exact .inl ⟨ebadf, rfl, rfl, fun hne => by cases hne⟩
  obtain ⟨handle, hget⟩ := get_of_contains hopen
  simp only [withSynced, syncFrom_eq h.grouped h.offset hopen, fd_eq hget] at hrun
  obtain ⟨⟨r, h', files⟩, hopr, hout⟩ := map_eq_some_iff.mp hrun
  rcases r with e | x
  · obtain ⟨rfl, hne⟩ := hop.failed hopr
    subst hout
    exact .inl ⟨e, rfl, putHandle_self hget, fun _ hbad => hne (Except.error.inj hbad)⟩
  have hgrouped : Grouped (putHandle fd h' k.state.table) k.origin :=
    grouped_of_same h.grouped rfl (putHandle_opens hopen)
  obtain ⟨u, hsync, halias, hfds⟩ := syncTo_spec hgrouped ((putHandle_get fd).trans (if_pos rfl))
  simp only [hsync] at hout
  subst hout
  exact .inr ⟨x, rfl, h.moved hopen halias hfds⟩

structure Own (fd : ℤ) (t u : FdTable) : Prop where
  pointers : u.fdAlias = t.fdAlias
  opens : ∀ j, u.fds.contains j = t.fds.contains j
  other : ∀ j, j ≠ fd → u.fds[j]? = t.fds[j]?

theorem Own.refl (fd : ℤ) (t : FdTable) : Own fd t t := ⟨rfl, fun _ => rfl, fun _ _ => rfl⟩

theorem Own.trans {u v : FdTable} (h : Own fd t u) (h' : Own fd u v) : Own fd t v :=
  ⟨h'.pointers.trans h.pointers, fun j => (h'.opens j).trans (h.opens j),
    fun j hj => (h'.other j hj).trans (h.other j hj)⟩

theorem own_putHandle (hopen : t.fds.contains fd = true) (h : OpenFile) :
    Own fd t (putHandle fd h t) :=
  ⟨rfl, putHandle_opens hopen, fun j hj => (putHandle_get j).trans (if_neg hj)⟩

theorem withOwn_closed (hclosed : s.table.fds.contains fd = false) :
    withOwn fd op s = some (.error ebadf, s) := by
  simp [withOwn, FdTable.fd, get_of_free hclosed]

/-- Without synchronisation it fails and changes nothing, or changes the one handle. -/
theorem withOwn_cases (hop : Gentle op) (hget : s.table.fds[fd]? = some handle)
    {out : KernelResult α × State} (hrun : withOwn fd op s = some out) :
    ∃ r h' files, op handle s.files = some (r, h', files) ∧
      out = (r, ⟨putHandle fd h' s.table, files⟩) ∧ Own fd s.table out.2.table ∧
      ∀ e, r = .error e → out.2.table = s.table ∧ ¬ Bad (.error e : KernelResult α) := by
  simp only [withOwn, fd_eq hget] at hrun
  obtain ⟨⟨r, h', files⟩, hopr, rfl⟩ := map_eq_some_iff.mp hrun
  refine ⟨r, h', files, hopr, rfl, own_putHandle (contains_of_get hget) h', fun e he => ?_⟩
  subst he
  obtain ⟨rfl, hne⟩ := hop.failed hopr
  exact ⟨putHandle_self hget, fun hbad => hne (Except.error.inj hbad)⟩

end Operations

section Vectors

variable {k : Tracked} {a : Answers} {data : List UInt8} {r : KernelResult ℕ}

def Positioned : Node → Prop
  | .file _ => True
  | .ext4File _ _ => True
  | _ => False

/-- Reading the image can fail; reading the memory cannot. -/
def ReadsThrough (k : Tracked) (a : Answers) (fd : ℤ) : Prop :=
  ∀ h size, k.state.table.fds[fd]? = some h → k.state.files h.node = .ext4File none size →
    ∀ offset len e, a.ext4Read h.node offset len ≠ .error e

/-- A read changes no file; it leaves the handle, or the file has a position and the read fails
only if the image does. -/
theorem read_cases {r : KernelResult (List UInt8)}
    (hread : read a len h files = some (r, h', files')) : files' = files ∧
      (¬ Positioned (files h.node) ∧ h' = h ∨
        Positioned (files h.node) ∧ ((∀ size, files h.node = .ext4File none size →
          ∀ offset len e, a.ext4Read h.node offset len ≠ .error e) → ∀ e, r ≠ .error e)) := by
  unfold PositionedFiles.read at hread
  split at hread
  · cases hread
    exact ⟨rfl, .inl ⟨by simp_all [Positioned], rfl⟩⟩
  · cases hread
    exact ⟨rfl, .inl ⟨by simp_all [Positioned], rfl⟩⟩
  · obtain ⟨out, -, hout⟩ := map_eq_some_iff.mp hread
    cases hout
    exact ⟨rfl, .inr ⟨by simp_all [Positioned], fun _ => nofun⟩⟩
  · obtain ⟨out, -, hout⟩ := map_eq_some_iff.mp hread
    cases hout
    exact ⟨rfl, .inr ⟨by simp_all [Positioned], fun _ => nofun⟩⟩
  · next size hnode =>
    have hpos : Positioned (files h.node) := by rw [hnode]; trivial
    split at hread <;> cases hread
    · next hext => exact ⟨rfl, .inr ⟨hpos, fun hsure => absurd hext (hsure size hnode _ _ _)⟩⟩
    · exact ⟨rfl, .inr ⟨hpos, fun _ => nofun⟩⟩
  · cases hread
    exact ⟨rfl, .inl ⟨by simp_all [Positioned], rfl⟩⟩

/-- In the middle of a `readv` of the handle `h₀`: it has moved only if reading cannot fail. -/
structure MidRead (k : Tracked) (fd : ℤ) (h₀ : OpenFile) (s : State) : Prop where
  own : Own fd k.state.table s.table
  files : s.files = k.state.files
  handle : ∃ h, s.table.fds[fd]? = some h ∧ h.node = h₀.node
  still : Positioned (k.state.files h₀.node) ∨ s.table = k.state.table

/-- An open descriptor is not called bad; under the conditions the loop fails and has moved
nothing, or has moved the one handle. -/
theorem readvLoop_sound {iovecs : List (ℕ × Bool)} (hopen : s.table.fds.contains fd = true)
    (hrun : readvLoop a fd iovecs total s = some out) :
    ¬ Bad out.1 ∧ ∀ h₀, k.state.table.fds[fd]? = some h₀ → ReadsThrough k a fd →
      (∀ iovec ∈ iovecs, iovec.2 = true) → MidRead k fd h₀ s →
      (∃ e, out.1 = .error e ∧ out.2.table = k.state.table) ∨
        ∃ n, out.1 = .ok n ∧ Own fd k.state.table out.2.table := by
  induction iovecs generalizing s total with
  | nil =>
    cases hrun
    exact ⟨not_bad_ok total, fun _ _ _ _ hmid => .inr ⟨total, rfl, hmid.own⟩⟩
  | cons iovec iovecs ih =>
    obtain ⟨len, stores⟩ := iovec
    obtain ⟨h, hs⟩ := get_of_contains hopen
    unfold OffsetCalls.readvLoop at hrun
    rcases hstep : withOwn fd (PositionedFiles.read a len) s with _ | mid
    · rw [hstep] at hrun
      cases hrun
    obtain ⟨r, h', files, hread, rfl, hown, hfail⟩ := withOwn_cases (gentle_read a len) hs hstep
    obtain ⟨rfl, hcase⟩ := read_cases hread
    rw [hstep] at hrun
    cases r with
    | error e =>
      simp only at hrun
      split at hrun <;> cases hrun
      · exact ⟨not_bad_ok total, fun _ _ _ _ hmid => .inr ⟨total, rfl, hmid.own.trans hown⟩⟩
      refine ⟨bad_cast (hfail e rfl).2, fun h₀ hget hsure _ hmid => .inl ⟨e, rfl, ?_⟩⟩
      rcases hmid.still with hpos | hsame
      · obtain ⟨h₁, hs₁, hnode⟩ := hmid.handle
        obtain rfl := some.inj (hs.symm.trans hs₁)
        rw [hmid.files, hnode] at hcase
        exact absurd rfl ((hcase.resolve_left fun hnot => hnot.1 hpos).2 (hsure h₀ · hget) e)
      · exact ((hfail e rfl).1).trans hsame
    | ok bytes =>
      simp only at hrun
      split at hrun
      · split at hrun
        · cases hrun
          exact ⟨not_bad_ok _, fun _ _ _ _ hmid => .inr ⟨_, rfl, hmid.own.trans hown⟩⟩
        · obtain ⟨hbad, hcases⟩ := ih ((hown.opens fd).trans hopen) hrun
          refine ⟨hbad, fun h₀ hget hsure hstores hmid => hcases h₀ hget hsure
            (fun iovec hmem => hstores iovec (mem_cons_of_mem _ hmem)) ?_⟩
          obtain ⟨h₁, hs₁, hnode⟩ := hmid.handle
          obtain rfl := some.inj (hs.symm.trans hs₁)
          refine ⟨hmid.own.trans hown, hmid.files, ⟨h', by simp [putHandle], ?_⟩, ?_⟩
          · exact ((gentle_read a len).kept hread).1.trans hnode
          · rw [hmid.files, hnode] at hcase
            rcases hmid.still with hpos | hsame
            · exact .inl hpos
            · rcases hcase with ⟨-, rfl⟩ | ⟨hpos, -⟩
              · exact .inr ((putHandle_self hs).trans hsame)
              · exact .inl hpos
      · next hst =>
        cases hrun
        exact ⟨not_bad_efault, fun _ _ _ hstores => absurd (hstores _ mem_cons_self) hst⟩

theorem write_still (hnot : ∀ buf, files h.node ≠ .file buf)
    (hwrite : write a data h files = some (r, h', files')) : h' = h ∧ files' = files := by
  unfold PositionedFiles.write at hwrite
  split at hwrite
  · cases hwrite
    exact ⟨rfl, rfl⟩
  · cases hwrite
    exact ⟨rfl, rfl⟩
  · cases hwrite
    exact ⟨rfl, rfl⟩
  · next buf hnode => exact absurd hnode (hnot buf)
  · cases hwrite
    exact ⟨rfl, rfl⟩

/-- Every vector can be written: there is memory and the file stays below its limit. -/
def WritesThrough (k : Tracked) (a : Answers) (fd : ℤ) (len : ℕ) : Prop :=
  ∀ h buf, k.state.table.fds[fd]? = some h → k.state.files h.node = .file buf →
    (∀ n, a.room n = true) ∧ h.offset + len ≤ inmemFileSizeLimit

theorem ensureFileSize_ok (hroom : ∀ n, a.room n = true) {size : ℕ} (hsize : size ≤ inmemFileSizeLimit)
    (buf : List UInt8) : ∃ buf', ensureFileSize a size buf = .ok buf' := by
  unfold ensureFileSize
  split
  · exact ⟨_, rfl⟩
  · rw [if_neg (by omega), if_pos (hroom size)]
    exact ⟨_, rfl⟩

theorem write_file (hroom : ∀ n, a.room n = true) {buf : List UInt8}
    (hnode : files h.node = .file buf) (hfits : h.offset + data.length ≤ inmemFileSizeLimit)
    (hwrite : write a data h files = some (r, h', files')) :
    r = .ok data.length ∧ h'.offset = h.offset + data.length ∧
      ∃ buf', files' h.node = .file buf' := by
  have hlimit : inmemFileSizeLimit ≤ MachineWord.usizeMax := by decide
  obtain ⟨buf₁, h₁⟩ := ensureFileSize_ok hroom (show h.offset ≤ inmemFileSizeLimit by omega) buf
  obtain ⟨buf₂, h₂⟩ := ensureFileSize_ok hroom hfits buf₁
  have hsat : MachineWord.saturatingAdd h.offset data.length = h.offset + data.length :=
    MachineWord.saturatingAdd_of_le (by omega)
  simp only [PositionedFiles.write, hnode, writeBuf, h₁, hsat, h₂] at hwrite
  obtain ⟨rfl, rfl, rfl⟩ := hwrite
  exact ⟨rfl, rfl, _, update_self ..⟩

/-- In the middle of a `writev` of the handle `h₀`, with so many bytes to come. -/
structure MidWrite (k : Tracked) (fd : ℤ) (h₀ : OpenFile) (rest : ℕ) (s : State) : Prop where
  own : Own fd k.state.table s.table
  handle : ∃ h, s.table.fds[fd]? = some h ∧ h.node = h₀.node ∧
    ((∃ buf, s.files h.node = .file buf) ∧ h.offset + rest ≤ inmemFileSizeLimit ∨
      s.table = k.state.table ∧ ∀ buf, s.files h.node ≠ .file buf)

def vectorLen (iovecs : List (Option (List UInt8))) : ℕ :=
  (iovecs.map fun data => (data.getD []).length).sum

theorem writevLoop_sound {pipe : Bool} {iovecs : List (Option (List UInt8))}
    (hopen : s.table.fds.contains fd = true)
    (hrun : writevLoop a fd pipe iovecs total s = some out) :
    ¬ Bad out.1 ∧ ∀ h₀, ((∃ buf, k.state.files h₀.node = .file buf) → ∀ n, a.room n = true) →
      (∀ data ∈ iovecs, data ≠ none) →
      (∀ buf, s.files h₀.node = .file buf → ∃ buf, k.state.files h₀.node = .file buf) →
      MidWrite k fd h₀ (vectorLen iovecs) s →
      (∃ e, out.1 = .error e ∧ out.2.table = k.state.table) ∨
        ∃ n, out.1 = .ok n ∧ Own fd k.state.table out.2.table := by
  induction iovecs generalizing s total with
  | nil =>
    cases hrun
    exact ⟨not_bad_ok total, fun _ _ _ _ hmid => .inr ⟨total, rfl, hmid.own⟩⟩
  | cons iovec iovecs ih =>
    rcases iovec with _ | data
    · cases hrun
      exact ⟨not_bad_efault, fun _ _ hdata => absurd rfl (hdata none mem_cons_self)⟩
    obtain ⟨h, hs⟩ := get_of_contains hopen
    unfold OffsetCalls.writevLoop at hrun
    rcases hstep : withOwn fd (PositionedFiles.write a data) s with _ | mid
    · rw [hstep] at hrun
      cases hrun
    obtain ⟨r, h', files, hwrite, rfl, hown, hfail⟩ := withOwn_cases (gentle_write a data) hs hstep
    have hkept := ((gentle_write a data).kept hwrite).1
    have hlen : vectorLen (some data :: iovecs) = data.length + vectorLen iovecs := by
      simp [vectorLen]
    rw [hstep] at hrun
    cases r with
    | error e =>
      simp only at hrun
      split at hrun <;> cases hrun
      · exact ⟨not_bad_ok total, fun _ _ _ _ hmid => .inr ⟨total, rfl, hmid.own.trans hown⟩⟩
      refine ⟨bad_cast (hfail e rfl).2, fun h₀ hroom _ hfile hmid => .inl ⟨e, rfl, ?_⟩⟩
      obtain ⟨h₁, hs₁, hnode, ⟨⟨buf, hbuf⟩, hfits⟩ | ⟨hsame, -⟩⟩ := hmid.handle <;>
        obtain rfl := some.inj (hs.symm.trans hs₁)
      · have hroom := hroom (hfile buf (hnode ▸ hbuf))
        cases (write_file hroom hbuf (by omega) hwrite).1
      · exact (hfail e rfl).1.trans hsame
    | ok n =>
      obtain ⟨hbad, hcases⟩ := ih ((hown.opens fd).trans hopen) hrun
      refine ⟨hbad, fun h₀ hroom hdata hfile hmid => ?_⟩
      have hrest : ∀ data ∈ iovecs, data ≠ none :=
        fun data hmem => hdata data (mem_cons_of_mem _ hmem)
      obtain ⟨h₁, hs₁, hnode, ⟨⟨buf, hbuf⟩, hfits⟩ | ⟨hsame, hnot⟩⟩ := hmid.handle <;>
        obtain rfl := some.inj (hs.symm.trans hs₁)
      · have hkfile := hfile buf (hnode ▸ hbuf)
        obtain ⟨-, hoffset, buf', hbuf'⟩ := write_file (hroom hkfile) hbuf (by omega) hwrite
        refine hcases h₀ hroom hrest (fun _ _ => hkfile) ⟨hmid.own.trans hown, h',
          by simp [putHandle], hkept.trans hnode, .inl ⟨⟨buf', ?_⟩, by omega⟩⟩
        rw [hkept]
        exact hbuf'
      · obtain ⟨rfl, rfl⟩ := write_still hnot hwrite
        exact hcases h₀ hroom hrest hfile ⟨hmid.own.trans hown, h', by simp [putHandle], hnode,
          .inr ⟨(putHandle_self hs).trans hsame, hnot⟩⟩

end Vectors

/-- What a call that finds or leaves an offset needs: the handle is the only one of its open, or
the offset is the caller's and can be stored. -/
def ArgSafe (k : Tracked) (fd : ℤ) : Option OffsetArg → Prop
  | none => Alone k fd
  | some arg => arg.stores = true

/-- What a call needs to keep all duplicates in step. -/
def Safe (k : Tracked) (a : Answers) : Call → Prop
  | .read _ _ stores => stores = true
  | .getdents64 _ _ stores => stores = true
  | .readv fd iovecs => ∀ vectors, iovecs = some vectors →
      Alone k fd ∧ ReadsThrough k a fd ∧ ∀ iovec ∈ vectors, iovec.2 = true
  | .writev fd iovecs => ¬ (fd = 1 ∨ fd = 2) → ∀ vectors, iovecs = some vectors →
      Alone k fd ∧ WritesThrough k a fd (vectorLen vectors) ∧ ∀ data ∈ vectors, data ≠ none
  | .sendfile outFd inFd offset _ => Alone k outFd ∧ ArgSafe k inFd offset
  | .copyFileRange inFd offIn outFd offOut _ => ArgSafe k inFd offIn ∧ ArgSafe k outFd offOut
  | .ftruncate fd len => ∀ h, k.state.table.fds[fd]? = some h → Alone k fd ∨ h.offset ≤ len
  | .execve => ∀ fd h, k.state.table.fds[fd]? = some h →
      h.flags.testBit Table.cloexecBit = true → Alone k fd
  | _ => True

/-- A safe call keeps all duplicates in step, and one on open descriptors finds none bad. -/
def Sound (k : Tracked) (a : Answers) (c : Call) (out : KernelResult ℤ × State) : Prop :=
  (Safe k a c → InStep (record k c out)) ∧ (OnOpen k.state.table c → ¬ Bad out.1)

/-- What the call leaves is the offset of the one descriptor. -/
def MovesOne (k : Tracked) (c : Call) (fd : ℤ) : Prop := ∀ r s, record k c (.ok r, s) =
  { k with state := s, left := [fd].foldl (leaves k.origin s.table) k.left }

section Calls

variable {k : Tracked} {a : Answers} {e : ℕ} {op : HandleOp α} {arg : Option OffsetArg} {source : ℤ}

theorem InStep.refused (h : InStep k) (hs : s.table = k.state.table)
    (hbad : OnOpen k.state.table c → ¬ Bad (.error e : KernelResult α)) :
    Sound k a c (.error e, s) :=
  ⟨fun _ => h.sameTable hs, fun hopen => bad_cast (hbad hopen)⟩

/-- The call failed and changed no descriptor, or succeeded and kept all in step. -/
theorem inStep_record (h : InStep k) {out : KernelResult ℤ × State}
    (hcase : (∃ e, out.1 = .error e ∧ out.2.table = k.state.table) ∨
      ∃ r, out.1 = .ok r ∧ InStep (record k c (.ok r, out.2))) : InStep (record k c out) := by
  obtain ⟨r, s⟩ := out
  rcases hcase with ⟨e, rfl, htable⟩ | ⟨r, rfl, hin⟩
  · exact h.sameTable htable
  · exact hin

theorem synced_sound (h : InStep k) (hop : Gentle op) {f : α → KernelResult ℕ}
    (hrecord : MovesOne k c fd) (hf : ∀ x, ¬ Bad (f x)) {mid : KernelResult α × State}
    (hrun : withSynced fd op k.state = some mid) :
    ((∀ x, ∃ n, f x = .ok n) → InStep (record k c (ofNatResult (mid.1.bind f, mid.2)))) ∧
      (k.state.table.fds.contains fd = true → ¬ Bad (ofNatResult (mid.1.bind f, mid.2)).1) := by
  obtain ⟨r, s⟩ := mid
  rcases withSynced_cases h hop hrun with ⟨e, rfl, htable, hbad⟩ | ⟨x, rfl, hin⟩
  · exact ⟨fun _ => h.sameTable htable, fun hopen => bad_cast (hbad hopen)⟩
  refine ⟨fun hok => ?_, fun _ => bad_map (hf x)⟩
  obtain ⟨n, hn⟩ := hok x
  have hout : ofNatResult ((Except.ok x : KernelResult α).bind f, s) = (.ok n, s) := by
    simp [ofNatResult, Except.bind, hn, Except.map]
  rw [hout, hrecord]
  exact hin

/-- The same for an operation whose answer is passed on. -/
theorem synced_passed (h : InStep k) {op : HandleOp ℕ} (hop : Gentle op)
    (hrecord : MovesOne k c fd)
    (hrun : withSynced fd op k.state = some out) : InStep (record k c (ofNatResult out)) ∧
      (k.state.table.fds.contains fd = true → ¬ Bad (ofNatResult out).1) := by
  have hsound := synced_sound h hop hrecord (f := .ok) not_bad_ok hrun
  obtain ⟨_ | n, s⟩ := out <;> exact hsound.imp_left fun hin => hin fun n => ⟨n, rfl⟩

theorem deliver_stores {stores : Bool} (h : stores = true) (n : ℕ) : deliver stores n = .ok n := by
  simp [deliver, h]

theorem inStep_own_call (h : InStep k) (halone : Alone k fd)
    (hrecord : MovesOne k c fd)
    (hcase : (∃ e, out.1 = .error e ∧ out.2.table = k.state.table) ∨
      ∃ n, out.1 = .ok n ∧ Own fd k.state.table out.2.table) :
    InStep (record k c (ofNatResult out)) := by
  obtain ⟨r, s⟩ := out
  refine inStep_record h ?_
  rcases hcase with ⟨e, rfl, htable⟩ | ⟨n, rfl, hown⟩
  · exact .inl ⟨e, rfl, htable⟩
  · refine .inr ⟨n, rfl, ?_⟩
    rw [hrecord]
    refine h.own [fd] (fun fd' hmem => ?_) hown.pointers hown.opens fun j hj => hown.other j ?_
    · rw [mem_singleton.mp hmem]
      exact halone
    · simpa using hj

theorem readv_sound (h : InStep k) {iovecs : Option (List (ℕ × Bool))}
    (hrun : sysReadv a fd iovecs k.state = some out) :
    Sound k a (.readv fd iovecs) (ofNatResult out) := by
  rcases iovecs with _ | vectors
  · cases hrun
    exact h.refused rfl fun _ => @not_bad_efault ℕ
  cases hopen : k.state.table.fds.contains fd with
  | false =>
    refine ⟨fun hsafe => inStep_own_call h (hsafe vectors rfl).1 (fun _ _ => rfl) ?_,
      fun htrue => absurd (hopen.symm.trans htrue) nofun⟩
    rcases vectors with _ | ⟨iovec, vectors⟩
    · cases hrun
      exact .inr ⟨0, rfl, .refl fd _⟩
    simp only [sysReadv, readvLoop, withOwn_closed hopen] at hrun
    rw [if_neg fun hpipe => hpipe.2.2 rfl] at hrun
    cases hrun
    exact .inl ⟨ebadf, rfl, rfl⟩
  | true =>
    obtain ⟨h₀, hget⟩ := get_of_contains hopen
    obtain ⟨hbad, hcases⟩ := readvLoop_sound (k := k) hopen hrun
    refine ⟨fun hsafe => ?_, fun _ => bad_map hbad⟩
    obtain ⟨halone, hsure, hstores⟩ := hsafe vectors rfl
    exact inStep_own_call h halone (fun _ _ => rfl) (hcases h₀ hget hsure hstores
      ⟨.refl fd _, rfl, ⟨h₀, hget, rfl⟩, .inr rfl⟩)

theorem closed_of_error (h : t.fd fd = .error e) : ¬ t.fds.contains fd = true := by
  rw [contains_eq_isSome_getElem?, (fd_error h).2]
  nofun

theorem consoleLoop_not_bad (iovecs : List (Option (List UInt8))) (total : ℕ) :
    ¬ Bad (consoleLoop iovecs total) := by
  induction iovecs generalizing total with
  | nil => exact not_bad_ok total
  | cons data iovecs ih =>
    cases data with
    | none => exact not_bad_efault
    | some data => exact ih _

theorem writev_sound (h : InStep k) {iovecs : Option (List (Option (List UInt8)))}
    (hrun : sysWritev a fd iovecs k.state = some out) :
    Sound k a (.writev fd iovecs) (ofNatResult out) := by
  rcases iovecs with _ | vectors
  · cases hrun
    exact h.refused rfl fun _ => @not_bad_efault ℕ
  simp only [sysWritev] at hrun
  split at hrun
  · next hconsole =>
    cases hrun
    refine ⟨fun _ => inStep_record h ?_, fun _ => bad_map (consoleLoop_not_bad vectors 0)⟩
    rcases hloop : consoleLoop vectors 0 with e | n
    · exact .inl ⟨e, rfl, rfl⟩
    refine .inr ⟨n, rfl, ?_⟩
    have hnone : record k (.writev fd (some vectors)) (.ok n, k.state) = k := by
      simp [record, moves, hconsole, origins]
    show InStep (record k (.writev fd (some vectors)) (.ok n, k.state))
    rw [hnone]
    exact h
  · next hconsole =>
    have hrecord : MovesOne k (.writev fd (some vectors)) fd := by
      intro r s
      simp only [record, moves, if_neg hconsole, origins]
    rcases hfd : k.state.table.fd fd with e | h₀
    · rw [hfd] at hrun
      cases hrun
      exact h.refused (α := ℕ) rfl fun hopen => absurd hopen (closed_of_error hfd)
    have hget := fd_ok hfd
    rw [hfd] at hrun
    obtain ⟨hbad, hcases⟩ := writevLoop_sound (k := k) (contains_of_get hget) hrun
    refine ⟨fun hsafe => ?_, fun _ => bad_map hbad⟩
    obtain ⟨halone, hthrough, hdata⟩ := hsafe hconsole vectors rfl
    refine inStep_own_call h halone hrecord (hcases h₀
      (fun ⟨buf, hbuf⟩ => (hthrough h₀ buf hget hbuf).1) hdata (fun buf hbuf => ⟨buf, hbuf⟩)
      ⟨.refl fd _, h₀, hget, rfl, ?_⟩)
    by_cases hfile : ∃ buf, k.state.files h₀.node = .file buf
    · obtain ⟨buf, hbuf⟩ := hfile
      exact .inl ⟨⟨buf, hbuf⟩, (hthrough h₀ buf hget hbuf).2⟩
    · exact .inr ⟨rfl, fun buf hbuf => hfile ⟨buf, hbuf⟩⟩

theorem truncate_still {r : KernelResult Unit} (hlen : h.offset ≤ len)
    (hop : truncate a len h files = some (r, h', files')) : h' = h := by
  unfold truncate at hop
  split at hop
  · split at hop
    · cases hop
      rfl
    · cases hop
      rw [Nat.min_eq_left hlen]
  · cases hop
    rfl
  · cases hop
    rfl
  · cases hop
    rfl

theorem ftruncate_sound (h : InStep k) (hrun : sysFtruncate a fd len k.state = some out) :
    Sound k a (.ftruncate fd len) (ofNatResult out) := by
  obtain ⟨mid, hmid, rfl⟩ := map_eq_some_iff.mp hrun
  rcases hopen : k.state.table.fds.contains fd with _ | _
  · rw [withOwn_closed hopen] at hmid
    cases hmid
    exact h.refused (α := ℕ) rfl fun htrue => absurd (hopen.symm.trans htrue) nofun
  obtain ⟨h₀, hget⟩ := get_of_contains hopen
  obtain ⟨r, h', files, hop, rfl, hown, hfail⟩ := withOwn_cases (gentle_truncate a len) hget hmid
  rcases r with e | _
  · exact h.refused (hfail e rfl).1 fun _ => (hfail e rfl).2
  refine ⟨fun hsafe => ?_, fun _ => not_bad_ok _⟩
  rcases hsafe h₀ hget with halone | hlen
  · exact inStep_own_call h halone (fun _ _ => rfl) (.inr ⟨0, rfl, hown⟩)
  obtain rfl := truncate_still hlen hop
  have hleft : [fd].foldl (leaves k.origin (putHandle fd h' k.state.table)) k.left = k.left := by
    rw [putHandle_self hget]
    simp only [foldl_cons, foldl_nil, leaves, hget, h.offset fd h' hget, update_eq_self]
  show InStep { k with
    state := ⟨putHandle fd h' k.state.table, files⟩
    left := [fd].foldl (leaves k.origin (putHandle fd h' k.state.table)) k.left }
  rw [hleft]
  exact h.sameTable (putHandle_self hget)

/-- The descriptors whose offset an argument stands for. -/
def argMoves (fd : ℤ) (arg : Option OffsetArg) : List ℤ := if arg.isNone then [fd] else []

/-- Where a copied handle leaves its offset, in a table with the same open descriptors. -/
theorem leaveOffset_cases (hopen : t.fds.contains fd = true) (hsafe : ArgSafe k fd arg)
    (offset : ℕ) :
    ∃ u, leaveOffset arg fd offset t = (.ok (), u) ∧ Own fd t u ∧
      ∀ j ∉ argMoves fd arg, u.fds[j]? = t.fds[j]? := by
  cases arg with
  | some arg =>
    have hstores : arg.stores = true := hsafe
    exact ⟨t, by simp [leaveOffset, hstores], .refl fd t, fun _ _ => rfl⟩
  | none =>
    obtain ⟨h, hget⟩ := get_of_contains hopen
    have hown := own_putHandle hopen { h with offset }
    exact ⟨_, by simp only [leaveOffset, fd_eq hget], hown,
      fun j hj => hown.other j (by simpa [argMoves] using hj)⟩

theorem argSafe_alone (h : ArgSafe k fd arg) : ∀ j ∈ argMoves fd arg, Alone k j := by
  cases arg with
  | none => exact fun j hj => mem_singleton.mp hj ▸ h
  | some arg => exact fun j hj => by cases hj

theorem atOffset_not_bad (arg : Option OffsetArg) (h : OpenFile) : ¬ Bad (atOffset arg h) := by
  unfold atOffset
  split
  · exact not_bad_ok h
  · split
    · exact not_bad_efault
    · exact not_bad_ok _

theorem leaveOffset_not_bad (arg : Option OffsetArg) (offset : ℕ) (hopen : t.fds.contains fd = true) :
    ¬ Bad (leaveOffset arg fd offset t).1 ∧
      ∀ j, (leaveOffset arg fd offset t).2.fds.contains j = t.fds.contains j := by
  obtain ⟨h, hget⟩ := get_of_contains hopen
  unfold leaveOffset
  split
  · refine ⟨?_, fun _ => rfl⟩
    dsimp only
    split
    · exact not_bad_ok ()
    · exact not_bad_efault
  · rw [fd_eq hget]
    exact ⟨not_bad_ok (), (own_putHandle hopen _).opens⟩

theorem gentle_not_bad (hop : Gentle op) {r : KernelResult α}
    (hrun : op h files = some (r, h', files')) : ¬ Bad r := by
  rintro rfl
  exact (hop.failed hrun).2 rfl

theorem sendfile_sound (h : InStep k) {offset : Option OffsetArg} {count : ℕ}
    (hrun : sysSendfile a outFd inFd offset count k.state = some out) :
    Sound k a (.sendfile outFd inFd offset count) (ofNatResult out) := by
  unfold sysSendfile at hrun
  rcases hin : k.state.table.fd inFd with e | source
  · rw [hin] at hrun
    cases hrun
    exact h.refused (α := ℕ) rfl fun hopen => absurd hopen.2 (closed_of_error hin)
  have hinOpen := contains_of_get (fd_ok hin)
  simp only [hin] at hrun
  split at hrun
  · next he =>
    cases hrun
    exact h.refused rfl fun _ => he ▸ atOffset_not_bad offset source
  split at hrun
  · cases hrun
  · next hread =>
    cases hrun
    exact h.refused rfl fun _ => gentle_not_bad (gentle_read a count) hread
  next bytes source' files _ =>
  rcases hstep : withOwn outFd (PositionedFiles.write a bytes) { k.state with files } with _ | mid
  · rw [hstep] at hrun
    cases hrun
  rw [hstep] at hrun
  rcases houtOpen : k.state.table.fds.contains outFd with _ | _
  · rw [withOwn_closed (s := { k.state with files }) houtOpen] at hstep
    cases hstep
    cases hrun
    exact h.refused (α := ℕ) rfl fun hopen => absurd (houtOpen.symm.trans hopen.1) nofun
  obtain ⟨h₀, hget⟩ := get_of_contains houtOpen
  obtain ⟨r, h', files', -, rfl, hown, hfail⟩ :=
    withOwn_cases (s := { k.state with files }) (gentle_write a bytes) hget hstep
  rcases r with e | n
  · cases hrun
    exact h.refused (hfail e rfl).1 fun _ => (hfail e rfl).2
  have hopen : (putHandle outFd h' k.state.table).fds.contains inFd = true :=
    (hown.opens inFd).trans hinOpen
  cases hrun
  refine ⟨fun ⟨haloneOut, hargs⟩ => ?_,
    fun _ => bad_map (bad_map (leaveOffset_not_bad _ _ hopen).1)⟩
  obtain ⟨u, hleave, hown', hkeep⟩ := leaveOffset_cases hopen hargs source'.offset
  simp only [hleave]
  refine h.own (outFd :: argMoves inFd offset) ?_ (hown'.pointers.trans hown.pointers)
    (fun j => (hown'.opens j).trans (hown.opens j)) fun j hj => ?_
  · exact forall_mem_cons.mpr ⟨haloneOut, argSafe_alone hargs⟩
  · rw [mem_cons, not_or] at hj
    exact (hkeep j hj.2).trans (hown.other j hj.1)

theorem copyFileRange_sound (h : InStep k) {offIn offOut : Option OffsetArg}
    (hrun : sysCopyFileRange a inFd offIn outFd offOut len k.state = some out) :
    Sound k a (.copyFileRange inFd offIn outFd offOut len) (ofNatResult out) := by
  unfold sysCopyFileRange at hrun
  rcases hin : k.state.table.fd inFd with e | source
  · rw [hin] at hrun
    cases hrun
    exact h.refused (α := ℕ) rfl fun hopen => absurd hopen.1 (closed_of_error hin)
  rcases hout : k.state.table.fd outFd with e | target
  · rw [hin, hout] at hrun
    cases hrun
    exact h.refused (α := ℕ) rfl fun hopen => absurd hopen.2 (closed_of_error hout)
  have hinOpen := contains_of_get (fd_ok hin)
  have houtOpen := contains_of_get (fd_ok hout)
  simp only [hin, hout] at hrun
  split at hrun
  · next he =>
    cases hrun
    exact h.refused rfl fun _ => he ▸ atOffset_not_bad offIn source
  · next he =>
    cases hrun
    exact h.refused rfl fun _ => he ▸ atOffset_not_bad offOut target
  split at hrun
  · cases hrun
  · next hread =>
    cases hrun
    exact h.refused rfl fun _ => gentle_not_bad (gentle_read a len) hread
  split at hrun
  · cases hrun
  · next hwrite =>
    cases hrun
    exact h.refused rfl fun _ => gentle_not_bad (gentle_write a _) hwrite
  next source' files _ _ n target' files' _ =>
  constructor
  · rintro ⟨hargsIn, hargsOut⟩
    obtain ⟨u, hleave, hown, hkeep⟩ := leaveOffset_cases hinOpen hargsIn source'.offset
    obtain ⟨v, hleave', hown', hkeep'⟩ := leaveOffset_cases
      ((hown.opens outFd).trans houtOpen) hargsOut target'.offset
    simp only [hleave, hleave', some.injEq] at hrun
    subst hrun
    refine h.own (argMoves inFd offIn ++ argMoves outFd offOut) ?_
      (hown'.pointers.trans hown.pointers) (fun j => (hown'.opens j).trans (hown.opens j))
      fun j hj => ?_
    · exact forall_mem_append.mpr ⟨argSafe_alone hargsIn, argSafe_alone hargsOut⟩
    · rw [mem_append, not_or] at hj
      exact (hkeep' j hj.2).trans (hkeep j hj.1)
  · intro _
    obtain ⟨hbad, hopens⟩ := leaveOffset_not_bad offIn source'.offset hinOpen
    generalize leaveOffset offIn inFd source'.offset k.state.table = left at hbad hopens hrun
    obtain ⟨e | _, t⟩ := left <;> cases hrun
    · exact bad_cast hbad
    · exact bad_map (bad_map (leaveOffset_not_bad _ _ ((hopens outFd).trans houtOpen)).1)

theorem InStep.closed (h : InStep k) (fd : ℤ) :
    InStep { k with state := { k.state with table := closed fd k.state.table } } := by
  refine ⟨h.grouped.closed fd, fun j hj hget => ?_, fun j hj => ?_⟩
  · change (k.state.table.fds.erase fd)[j]? = some hj at hget
    rw [getElem?_erase] at hget
    split at hget
    · cases hget
    · exact h.offset j hj hget
  · change (AliasGroups.closed fd k.state.table).fds.contains j = true at hj
    rw [contains_closed, Bool.and_eq_true] at hj
    exact h.known j hj.2

theorem InStep.insert (h : InStep k) {l : ℤ} {id n : ℕ} {left : ℕ → ℕ}
    (hgrouped : Grouped ⟨k.state.table.fds.insert fd handle, k.state.table.fdAlias.insert fd l⟩
      (update k.origin fd id)) (hoffset : handle.offset = left id) (hid : id < n)
    (hn : k.opens ≤ n) (hleft : ∀ i, i < k.opens → left i = k.left i) :
    InStep ⟨{ k.state with
        table := ⟨k.state.table.fds.insert fd handle, k.state.table.fdAlias.insert fd l⟩ },
      update k.origin fd id, left, n⟩ := by
  refine ⟨hgrouped, fun j hj hget => ?_, fun j hj => ?_⟩
  · change (k.state.table.fds.insert fd handle)[j]? = some hj at hget
    show hj.offset = left (update k.origin fd id j)
    rw [ExtTreeMap.getElem?_insert] at hget
    split at hget
    · next heq =>
      cases hget
      rw [← Std.LawfulEqOrd.compare_eq_iff_eq.mp heq, update_self, hoffset]
    · next hne =>
      rw [update_of_ne (fun heq => hne (by simp [heq])), hleft _ (h.known j (contains_of_get hget))]
      exact h.offset j hj hget
  · change (k.state.table.fds.insert fd handle).contains j = true at hj
    show update k.origin fd id j < n
    rw [ExtTreeMap.contains_insert, Bool.or_eq_true] at hj
    by_cases hjfd : j = fd
    · rw [hjfd, update_self]
      exact hid
    · rw [update_of_ne hjfd]
      exact (h.known j (hj.resolve_left (by simpa using Ne.symm hjfd))).trans_le hn

theorem inStep_dup (h : InStep k) {out : KernelResult ℤ × FdTable}
    (hdup : Dup source k.state.table out)
    (hrecord : ∀ fd s, record k c (.ok fd, s) =
      { k with state := s, origin := update k.origin fd (k.origin source) }) :
    InStep (record k c (onTable k.state out)) := by
  cases hdup with
  | refused => exact h.sameTable rfl
  | same hopen =>
    show InStep (record k c (.ok source, k.state))
    rw [hrecord, update_eq_self]
    exact h
  | made u fd handle lead flags hcase hne hget hlead =>
    have hopen := contains_of_get hget
    -- the table in which the number is free
    have hfree : InStep { k with state := { k.state with table := u } } ∧
        u.fds.contains fd = false ∧ u.fds.contains source = true := by
      rcases hcase with ⟨hfree, rfl⟩ | ⟨-, rfl⟩
      · exact ⟨h, hfree, hopen⟩
      · refine ⟨h.closed fd, by simp [contains_closed], ?_⟩
        rw [contains_closed, hopen, Bool.and_true, bne_iff_ne]
        exact hne
    obtain ⟨hk, hfreeFd, hsource⟩ := hfree
    show InStep (record k c (.ok fd, { k.state with table := duplicated fd source _ u }))
    rw [hrecord]
    refine hk.insert (hk.grouped.duplicated hfreeFd hsource _) ?_ (hk.known source hsource) le_rfl
      fun i _ => rfl
    show lead.offset = k.left (k.origin source)
    have hleader := hk.offset _ _ hlead
    have htag := hk.grouped.groups.tag_leader (leaders_open hsource)
    rw [hleader]
    exact congrArg k.left htag

theorem dup_not_bad (hopen : t.fds.contains source = true) {out : KernelResult ℤ × FdTable}
    (hdup : Dup source t out) : ¬ Bad out.1 := by
  cases hdup with
  | refused hnone =>
    rw [contains_eq_isSome_getElem?, hnone] at hopen
    cases hopen
  | same => exact not_bad_ok _
  | made => exact not_bad_ok _

theorem inStep_execve (h : InStep k) (hsafe : Safe k a .execve) :
    InStep { k with state := { k.state with table := k.state.table.closeOnExec } } := by
  have hget : ∀ fd : ℤ, k.state.table.closeOnExec.fds[fd]? =
      (k.state.table.fds[fd]?).filter fun (hd : OpenFile) =>
        !hd.flags.testBit Table.cloexecBit := by
    intro fd
    simp only [FdTable.closeOnExec, getElem?_filter']
  have hkeep : ∀ {fd : ℤ} {hd : OpenFile}, k.state.table.closeOnExec.fds[fd]? = some hd →
      k.state.table.fds[fd]? = some hd := by
    intro fd hd hfd
    rw [hget] at hfd
    exact (filter_eq_some_iff.mp hfd).1
  -- a descriptor that goes is the only one of its open
  have halone : ∀ fd, k.state.table.fds.contains fd = true →
      ¬ k.state.table.closeOnExec.fds.contains fd = true → Alone k fd := by
    intro fd hopen hgone
    obtain ⟨hd, hfd⟩ := get_of_contains hopen
    refine hsafe fd hd hfd ?_
    by_contra hflag
    have hkept : k.state.table.closeOnExec.fds[fd]? = some hd := by
      rw [hget, hfd, filter_some, if_pos (by simpa using hflag)]
    exact hgone (contains_of_get hkept)
  have hleaders : leaders k.state.table.closeOnExec = fun fd =>
      if k.state.table.closeOnExec.fds.contains fd = true then leaders k.state.table fd else none := by
    funext fd
    unfold leaders
    by_cases hfd : k.state.table.closeOnExec.fds.contains fd = true
    · obtain ⟨hd, hhd⟩ := get_of_contains hfd
      rw [if_pos hfd, if_pos hfd, if_pos (contains_of_get (hkeep hhd))]
      rfl
    · rw [if_neg hfd, if_neg hfd]
  refine ⟨⟨?_, fun fd l hl => ?_⟩, fun fd hd hfd => h.offset fd hd (hkeep hfd), fun fd hfd => ?_⟩
  · show LeaderGroups.Represents (leaders k.state.table.closeOnExec) k.origin
    rw [hleaders]
    refine h.grouped.groups.restrict fun x y l m hx hy hxkeep hykeep heq => hykeep ?_
    rw [← halone y (leaders_eq_some.mp hy).1 hykeep x (leaders_eq_some.mp hy).1
      (leaders_eq_some.mp hx).1 heq]
    exact hxkeep
  · change k.state.table.fdAlias[fd]? = some l at hl
    by_cases hfd : k.state.table.closeOnExec.fds.contains fd = true
    · exact .inl hfd
    refine .inr ?_
    rcases h.grouped.tidy fd l hl with hopen | heq
    · have hleader : k.state.table.leaderOf fd = l := by rw [leaderOf_eq, hl, getD_some]
      refine halone fd hopen hfd l hopen ?_ ?_
      · exact hleader ▸ (h.grouped.leader hopen).1
      · exact hleader ▸ h.grouped.groups.tag_leader (leaders_open hopen)
    · exact heq
  · obtain ⟨hd, hhd⟩ := get_of_contains hfd
    exact h.known fd (contains_of_get (hkeep hhd))

theorem Call.sound (h : InStep k) (c : Call) {out : KernelResult ℤ × State}
    (hrun : c.run a k.state = some out) : Sound k a c out := by
  cases c with
  | read fd count stores =>
    obtain ⟨out, hout, rfl⟩ := map_eq_some_iff.mp hrun
    obtain ⟨mid, hmid, rfl⟩ := map_eq_some_iff.mp hout
    exact (synced_sound h (gentle_read a count) (fun _ _ => rfl) (fun _ => deliver_not_bad stores _)
      hmid).imp_left fun hin hsafe => hin fun bytes => ⟨bytes.length, deliver_stores hsafe _⟩
  | write fd data =>
    obtain ⟨mid, hmid, rfl⟩ := map_eq_some_iff.mp hrun
    cases data with
    | none =>
      cases hmid
      exact h.refused rfl fun _ => @not_bad_efault ℕ
    | some data =>
      exact (synced_passed h (gentle_write a data) (fun _ _ => rfl) hmid).imp_left fun hin _ => hin
  | readv fd iovecs =>
    obtain ⟨mid, hmid, rfl⟩ := map_eq_some_iff.mp hrun
    exact readv_sound h hmid
  | writev fd iovecs =>
    obtain ⟨mid, hmid, rfl⟩ := map_eq_some_iff.mp hrun
    exact writev_sound h hmid
  | lseek fd offset whence =>
    obtain ⟨mid, hmid, rfl⟩ := map_eq_some_iff.mp hrun
    exact (synced_passed h (gentle_seek offset whence) (fun _ _ => rfl) hmid).imp_left fun hin _ => hin
  | getdents64 fd count stores =>
    obtain ⟨out, hout, rfl⟩ := map_eq_some_iff.mp hrun
    obtain ⟨mid, hmid, rfl⟩ := map_eq_some_iff.mp hout
    exact (synced_sound h (gentle_getdents a count) (fun _ _ => rfl)
      (fun _ => deliver_not_bad stores _) hmid).imp_left
        fun hin hsafe => hin fun n => ⟨n, deliver_stores hsafe _⟩
  | sendfile outFd inFd offset count =>
    obtain ⟨mid, hmid, rfl⟩ := map_eq_some_iff.mp hrun
    exact sendfile_sound h hmid
  | copyFileRange inFd offIn outFd offOut len =>
    obtain ⟨mid, hmid, rfl⟩ := map_eq_some_iff.mp hrun
    exact copyFileRange_sound h hmid
  | ftruncate fd len =>
    obtain ⟨mid, hmid, rfl⟩ := map_eq_some_iff.mp hrun
    exact ftruncate_sound h hmid
  | dup source =>
    obtain ⟨mid, hmid, rfl⟩ := map_eq_some_iff.mp hrun
    have hdup := sysDup_dup h.grouped hmid
    exact ⟨fun _ => inStep_dup h hdup fun _ _ => rfl, fun hopen => dup_not_bad hopen hdup⟩
  | dup3 oldFd newFd cloexec =>
    cases hrun
    have hdup := sysDup3_dup h.grouped oldFd newFd cloexec
    exact ⟨fun _ => inStep_dup h hdup fun _ _ => rfl, fun hopen => dup_not_bad hopen hdup⟩
  | fcntlDup source arg cloexec =>
    obtain ⟨mid, hmid, rfl⟩ := map_eq_some_iff.mp hrun
    have hdup := sysFcntlDup_dup h.grouped hmid
    exact ⟨fun _ => inStep_dup h hdup fun _ _ => rfl, fun hopen => dup_not_bad hopen hdup⟩
  | close fd =>
    cases hrun
    cases hopen : k.state.table.fds.contains fd with
    | false =>
      simp only [FdTable.sysClose, closeFd_eq, hopen, Bool.false_eq_true, if_false]
      exact ⟨fun _ => h.sameTable rfl, fun htrue => absurd (hopen.symm.trans htrue) nofun⟩
    | true =>
      simp only [FdTable.sysClose, closeFd_eq, hopen, if_true]
      exact ⟨fun _ => h.closed fd, fun _ => not_bad_ok _⟩
  | execve =>
    cases hrun
    exact ⟨inStep_execve h, fun _ => not_bad_ok _⟩
  | «open» handle =>
    obtain ⟨⟨fd, t⟩, hadd, rfl⟩ := map_eq_some_iff.mp hrun
    refine ⟨fun _ => ?_, fun _ => not_bad_ok _⟩
    obtain ⟨fd', hfree, hadd⟩ := map_eq_some_iff.mp hadd
    cases hadd
    have hfree := freeFrom_free hfree
    refine h.insert (h.grouped.found hfree handle fun j hj => (h.known j hj).ne) ?_
      (Nat.lt_succ_self _) (Nat.le_succ _) fun i hi => ?_
    · show handle.offset = update k.left k.opens handle.offset k.opens
      rw [update_self]
    · exact update_of_ne hi.ne ..

end Calls

def Event.Safe (k : Tracked) : Event → Prop
  | call a c => SharedOffsets.Safe k a c
  | others _ => True

def start (stdin stdout stderr : OpenFile) (files : Files) : Tracked :=
  ⟨⟨.seeded { stdin with offset := 0 } { stdout with offset := 0 } { stderr with offset := 0 }, files⟩,
    Int.toNat, fun _ => 0, 3⟩

inductive Reached (stdin stdout stderr : OpenFile) (files : Files) : Tracked → Prop where
  | start : Reached stdin stdout stderr files (start stdin stdout stderr files)
  | step {k k'} (e : Event) : Reached stdin stdout stderr files k → e.Safe k →
      e.step k = some k' → Reached stdin stdout stderr files k'

theorem inStep_start (stdin stdout stderr : OpenFile) (files : Files) :
    InStep (start stdin stdout stderr files) := by
  have hsound := sound_seeded { stdin with offset := 0 } { stdout with offset := 0 }
    { stderr with offset := 0 }
  refine ⟨hsound.grouped, fun fd h hget => ?_, hsound.known⟩
  simp only [start, FdTable.seeded, ExtTreeMap.getElem?_insert] at hget
  split at hget
  · cases hget
    rfl
  split at hget
  · cases hget
    rfl
  split at hget
  · cases hget
    rfl
  · simp at hget

theorem Reached.inStep {stdin stdout stderr : OpenFile} {k : Tracked}
    (h : Reached stdin stdout stderr files k) : InStep k := by
  induction h with
  | start => exact inStep_start stdin stdout stderr files
  | step e _ hsafe hstep ih =>
    cases e with
    | call a c =>
      obtain ⟨out, hrun, rfl⟩ := map_eq_some_iff.mp hstep
      exact (Call.sound ih c hrun).1 hsafe
    | others files =>
      obtain rfl := some.inj hstep
      exact ih.sameTable rfl

/-- In every run of safe calls the next `read`, `write` or `lseek` of an open descriptor starts
where the last call through one of its duplicates stopped, and no call on open descriptors is
told that one is bad. -/
theorem duplicates_share_offset {stdin stdout stderr : OpenFile} {files : Files} {k : Tracked}
    (h : Reached stdin stdout stderr files k) :
    (∀ fd, k.state.table.fds.contains fd = true →
      usedOffset fd k.state.table = .ok (k.left (k.origin fd))) ∧
    ∀ a c out, OnOpen k.state.table c → Call.run a k.state c = some out → out.1 ≠ .error ebadf := by
  have hin := h.inStep
  refine ⟨fun fd hopen => ?_, fun a c out hopen hrun => (Call.sound hin c hrun).2 hopen⟩
  obtain ⟨handle, hget⟩ := get_of_contains hopen
  simp only [usedOffset, syncFrom_eq hin.grouped hin.offset hopen, fd_eq hget, Except.map,
    hin.offset fd handle hget]

def console : OpenFile := ⟨0, 2, 0⟩

def twoBytes : Files := fun node => if node = 1 then .file [7, 8] else .stream false false 0

def plain : Answers := .quiet length fun _ => true

def opened (flags : ℕ) (calls : List Call) : Option Tracked :=
  (.open ⟨1, flags, 0⟩ :: calls).foldlM (fun k c => (Event.call plain c).step k)
    (start console console console twoBytes)

/-- A byte is read through the duplicate: the next call on the descriptor starts behind it. -/
theorem duplicates_share_offset_read : ∃ k, Reached console console console twoBytes k ∧
      usedOffset 3 k.state.table = .ok (k.left (k.origin 3)) ∧ k.left (k.origin 3) = 1 := by
  have hrun : (opened 0 [.dup 3, .read 4 1 true]).map (fun k =>
      (k.state.table.fds.contains 3, k.left (k.origin 3))) = some (true, 1) := by decide +kernel
  obtain ⟨k, hk, hview⟩ := map_eq_some_iff.mp hrun
  simp only [Prod.mk.injEq] at hview
  have hreached : Reached console console console twoBytes k := by
    refine OptionRuns.foldlM_invariant (fun c hc _ _ h hs => ?_) .start hk
    simp only [mem_cons, not_mem_nil, or_false] at hc
    rcases hc with rfl | rfl | rfl <;> exact .step _ h (by trivial) hs
  exact ⟨k, hreached, (duplicates_share_offset hreached).1 3 hview.1, hview.2⟩

def usedAndLeft (fd : ℤ) (k : Tracked) : Option ℕ × ℕ :=
  ((usedOffset fd k.state.table).toOption, k.left (k.origin fd))

/-- `readv`, `sendfile` and `ftruncate` move one of two duplicates, a `read` that cannot store what
it read has moved both, and after `execve` has closed the leader its duplicate cannot be read. -/
theorem duplicate_left_behind :
    (opened 0 [.dup 3, .readv 4 (some [(1, true)])]).map (usedAndLeft 4) = some (some 0, 1) ∧
    (opened 0 [.dup 3, .sendfile 1 4 none 2]).map (usedAndLeft 4) = some (some 0, 2) ∧
    (opened 0 [.dup 3, .read 4 2 true, .ftruncate 4 1]).map (usedAndLeft 4) = some (some 2, 1) ∧
    (opened 0 [.dup 3, .read 4 2 false]).map (usedAndLeft 4) = some (some 2, 0) ∧
    ((opened (2 ^ Table.cloexecBit) [.dup 3, .execve]).bind fun k =>
      (Call.run plain k.state (.read 4 1 true)).map fun out =>
        (k.state.table.fds.contains 4, match out.1 with
          | .error e => some e
          | .ok _ => none)) = some (true, some ebadf) := by
  decide +kernel

end SharedOffsets
