import Whuse.TableEffects

/-! What the exit of a thread group does to the memory of other processes. It writes the words
that the group's own threads named, and it clears the address spaces of the group's entries,
whoever else refers to them. -/
namespace ExitIsolation

open Function List Option
open Std (ExtTreeMap)
open MachineWord AddressSpace ByteFields ProcessTable ProcessTable.Table UserMemory TableEffects
open CallRuns (board boardHeap)

variable {M : Machine} {f : Process → Process} {t u v : Table} {k n x : ℕ}

section Locations

variable (hal : HalMemory)

def locAt (m : Mappings) (a : ℕ) : Option ℕ :=
  match findSegment m a 1 with
  | .error _ => none
  | .ok (s, offset) => some (dataPtr hal s + offset)

theorem findSegment_empty (a : ℕ) : findSegment ∅ a 1 = .error efault := by
  unfold findSegment
  split <;> rfl

theorem readBytes_byte {heap : Heap} (hheap : heap.tryReserve 1 = true) (a : ℕ) (M : Machine) :
    readBytes hal heap a 1 M =
      match locAt hal M.space.mappings a with
      | none => .error efault
      | some x => .ok [M.mem x] := by
  rw [readBytes, if_neg one_ne_zero, if_pos hheap]
  unfold locAt
  simp only [readLoop]
  rcases hf : findSegment M.space.mappings a 1 with e | found
  · rw [findSegment_error hf]
  obtain ⟨base, -, hplace, hlow, hhigh, hfits⟩ := findSegment_ok hf
  have htake : min (found.1.area.len - found.2) (0 + 1) = 1 := by omega
  simp [htake, checkedAdd_of_le (show a + 1 ≤ usizeMax by omega), readLoop, rawBytes]

def rangeLocs (m : Mappings) : ℕ → ℕ → ℕ → List ℕ
  | 0, _, _ => []
  | fuel + 1, cursor, remaining =>
    match findSegment m cursor 1 with
    | .error _ => []
    | .ok (s, offset) =>
      let take := min (s.area.len - offset) remaining
      (List.range take).map (dataPtr hal s + offset + ·) ++
        match checkedAdd cursor take with
        | none => []
        | some next => rangeLocs m fuel next (remaining - take)

def wordLocs (m : Mappings) (addr : ℕ) : List ℕ := rangeLocs hal m 4 addr 4

theorem writeLoop_outside {m : Mappings} (fuel : ℕ) {cursor : ℕ} {bytes : List UInt8} {mem : Memory}
    (hx : x ∉ rangeLocs hal m fuel cursor bytes.length) :
    (writeLoop hal m fuel cursor bytes mem).2 x = mem x := by
  induction fuel generalizing cursor bytes mem with
  | zero => cases bytes <;> rfl
  | succ fuel ih =>
    rcases bytes with _ | ⟨b, bytes⟩
    · rfl
    unfold rangeLocs at hx
    simp only [writeLoop]
    rcases hf : findSegment m cursor 1 with e | found
    · rfl
    obtain ⟨s, offset⟩ := found
    rw [hf] at hx
    simp only [mem_append, List.mem_map, mem_range, not_or] at hx ⊢
    generalize htake : min (s.area.len - offset) (bytes.length + 1) = n at hx ⊢
    obtain ⟨hhere, hrest⟩ := hx
    split
    · rfl
    have hcopy : copyBytes mem (dataPtr hal s + offset) ((b :: bytes).take n) x = mem x := by
      apply copyBytes_outside
      rintro ⟨hge, hlt⟩
      simp only [length_take] at hlt
      exact hhere ⟨x - (dataPtr hal s + offset), by omega, by omega⟩
    rcases hadd : checkedAdd cursor n with _ | next
    · exact hcopy
    rw [hadd] at hrest
    refine (ih ?_).trans hcopy
    rwa [length_drop]

theorem writeWord_outside {addr : ℕ} (hx : x ∉ wordLocs hal M.space.mappings addr) :
    (writeBytes hal addr (leBytes 4 n) M).2.mem x = M.mem x := by
  show (writeLoop hal M.space.mappings (leBytes 4 n).length addr (leBytes 4 n) M.mem).2 x = _
  refine writeLoop_outside hal _ ?_
  exact hx

end Locations

section Words

variable (hal : HalMemory) (heap : Heap)

def namedWords (p : Process) (M : Machine) : List ℕ :=
  p.clearChildTid.toList ++ (collectRobustFutexAddrsForExit hal heap p M).1

def namedLocs (p : Process) (M : Machine) : List ℕ :=
  (namedWords hal heap p M).flatMap (wordLocs hal M.space.mappings)

/-- A step of the scan: it adds addresses, keeps the space, and changes only bytes of words it
has listed. -/
structure Visits (before after : List ℕ × Machine) : Prop where
  listed : before.1 ⊆ after.1
  space : after.2.space = before.2.space
  outside : ∀ x, (∀ addr ∈ after.1, x ∉ wordLocs hal before.2.space.mappings addr) →
    after.2.mem x = before.2.mem x

variable {hal heap}

theorem Visits.refl (found : List ℕ × Machine) : Visits hal found found :=
  ⟨List.Subset.refl _, rfl, fun _ _ => rfl⟩

theorem Visits.trans {a b c : List ℕ × Machine} (h : Visits hal a b) (k : Visits hal b c) :
    Visits hal a c where
  listed := List.Subset.trans h.listed k.listed
  space := k.space.trans h.space
  outside x hx := by
    rw [k.outside x (h.space ▸ hx), h.outside x fun addr haddr => hx addr (k.listed haddr)]

variable (hal heap) in
theorem visitRobust_visits (tid : ℕ) (offset : ℤ) (node : ℕ) (found : List ℕ × Machine) :
    Visits hal found (visitRobust hal heap tid offset node found) := by
  unfold visitRobust
  split
  · exact .refl found
  next addr _ =>
  have hmem : found.1 ⊆ pushUniqueAddr found.1 addr ∧ addr ∈ pushUniqueAddr found.1 addr := by
    unfold pushUniqueAddr
    split
    · next hc => exact ⟨List.Subset.refl _, contains_iff_mem.mp hc⟩
    · exact ⟨subset_append_left .., by simp⟩
  unfold maybeMarkOwnerDied
  split
  · exact ⟨hmem.1, rfl, fun _ _ => rfl⟩
  split
  · exact ⟨hmem.1, rfl, fun x hx => writeWord_outside hal (hx addr hmem.2)⟩
  · exact ⟨hmem.1, rfl, fun _ _ => rfl⟩

variable (hal heap) in
theorem scanRobust_visits (head tid : ℕ) (offset : ℤ) (fuel node : ℕ) (seen : List ℕ)
    (found : List ℕ × Machine) :
    Visits hal found (scanRobust hal heap head tid offset fuel node seen found) := by
  induction fuel generalizing node seen found with
  | zero => exact .refl found
  | succ fuel ih =>
    unfold scanRobust
    split
    · exact .refl found
    have hvisit := visitRobust_visits hal heap tid offset node found
    simp only
    split
    · exact hvisit
    · exact hvisit.trans (ih ..)

variable (hal heap) in
theorem collectRobust_visits (p : Process) (M : Machine) :
    Visits hal ([], M) (collectRobustFutexAddrsForExit hal heap p M) := by
  unfold collectRobustFutexAddrsForExit
  split
  · exact .refl _
  split
  · exact .refl _
  split
  · next head _ _ _ _ _ next offset _ _ =>
    have hscan := scanRobust_visits hal heap head p.tid offset
      robustListMaxScan next [] ([], M)
    simp only
    split
    · exact hscan
    · exact hscan.trans (visitRobust_visits ..)
  · exact .refl _

variable (hal heap) in
theorem leaveMemory_space (p : Process) (M : Machine) :
    (leaveMemory hal heap p M).2.space = M.space := by
  unfold leaveMemory
  simp only
  split <;> exact (collectRobust_visits hal heap p M).space

theorem leaveMemory_outside {p : Process} (hx : x ∉ namedLocs hal heap p M) :
    (leaveMemory hal heap p M).2.mem x = M.mem x := by
  have hword : ∀ addr ∈ namedWords hal heap p M, x ∉ wordLocs hal M.space.mappings addr :=
    fun addr haddr hloc => hx (mem_flatMap.mpr ⟨addr, haddr, hloc⟩)
  have hvisits := collectRobust_visits hal heap p M
  have hrobust : (collectRobustFutexAddrsForExit hal heap p M).2.mem x = M.mem x :=
    hvisits.outside x fun addr haddr => hword addr (mem_append_right _ haddr)
  unfold leaveMemory
  simp only
  split
  · exact hrobust
  next addr hclear =>
  refine (writeWord_outside hal ?_).trans hrobust
  rw [hvisits.space]
  refine hword addr (mem_append_left _ ?_)
  rw [hclear]
  exact mem_singleton_self addr

end Words

def spaceOf (t : Table) (k : ℕ) : Option ℕ := t.processes[k]?.map Process.addressSpace

theorem spaceOf_eq_some :
    spaceOf t k = some n ↔ ∃ p, t.processes[k]? = some p ∧ p.addressSpace = n := by
  simp [spaceOf]

/-- The entries keep their spaces; some spaces are emptied and the others stay as they are; bytes
change only at the given locations. -/
structure Tears (t u : Table) (cleared : ℕ → Prop) (locs : List ℕ) : Prop where
  refs : spaceOf u = spaceOf t
  kept : ∀ n, ¬ cleared n → (u.spaces n).mappings = (t.spaces n).mappings
  emptied : ∀ n, cleared n → (u.spaces n).mappings = ∅
  outside : ∀ x, x ∉ locs → u.mem x = t.mem x

theorem Tears.refl (t : Table) : Tears t t (fun _ => False) [] :=
  ⟨rfl, fun _ _ => rfl, fun _ h => h.elim, fun _ _ => rfl⟩

theorem Tears.trans {c c' : ℕ → Prop} {l l' : List ℕ} (h : Tears t u c l) (k : Tears u v c' l') :
    Tears t v (fun n => c n ∨ c' n) (l ++ l') where
  refs := k.refs.trans h.refs
  kept n hn := by
    rw [not_or] at hn
    exact (k.kept n hn.2).trans (h.kept n hn.1)
  emptied n hn := by
    by_cases hc : c' n
    · exact k.emptied n hc
    · exact (k.kept n hc).trans (h.emptied n (hn.resolve_right hc))
  outside x hx := by
    rw [mem_append, not_or] at hx
    exact (k.outside x hx.2).trans (h.outside x hx.1)

theorem Tears.congr {c c' : ℕ → Prop} {l l' : List ℕ} (h : Tears t u c l) (hc : ∀ n, c n ↔ c' n)
    (hl : l = l') : Tears t u c' l' := by
  subst hl
  rwa [show c' = c from funext fun n => propext (hc n).symm]

/-- Operations that touch neither memory nor the references to spaces. -/
theorem Tears.of_eq (hrefs : spaceOf u = spaceOf t) (hspaces : u.spaces = t.spaces)
    (hmem : u.mem = t.mem) : Tears t u (fun _ => False) [] :=
  ⟨hrefs, fun _ _ => by rw [hspaces], fun _ h => h.elim, fun _ _ => by rw [hmem]⟩

theorem tears_modify (t : Table) (k : ℕ) (h : ∀ p, (f p).addressSpace = p.addressSpace) :
    Tears t (t.modify k f) (fun _ => False) [] :=
  .of_eq (funext fun j => modify_same (Option.map Process.addressSpace)
    (fun p => congrArg some (h p)) k j t) rfl rfl

theorem tears_notifyParent (t : Table) (parent : Option ℕ) :
    Tears t (t.notifyParent parent) (fun _ => False) [] := by
  rcases parent with _ | parent
  · exact .refl t
  simp only [notifyParent]
  rcases t.sendSignalTid_cases parent sigchld with h | ⟨tid, h⟩ <;> rw [h]
  · exact .refl t
  · exact tears_modify t _ fun p => rfl

theorem tears_removeFutexWaiter (t : Table) (tid : ℕ) :
    Tears t (t.removeFutexWaiter tid) (fun _ => False) [] := .of_eq rfl rfl rfl

theorem tears_clearSpace (t : Table) (p : Process) :
    Tears t (t.clearSpace p) (fun n => n = p.addressSpace) [] where
  refs := rfl
  kept n hn := by
    show (update t.spaces p.addressSpace _ n).mappings = _
    rw [update_of_ne hn]
  emptied n hn := by
    subst hn
    show (update t.spaces p.addressSpace _ p.addressSpace).mappings = _
    rw [update_self]
    rfl
  outside x _ := rfl

theorem tears_clearSpaces (members : List Process) (t : Table) :
    Tears t (members.foldl (fun t p => t.clearSpace p) t)
      (fun n => ∃ p ∈ members, n = p.addressSpace) [] := by
  induction members generalizing t with
  | nil => exact (Tears.refl t).congr (fun n => by simp) rfl
  | cons p members ih =>
    exact ((tears_clearSpace t p).trans (ih _)).congr (fun n => by simp) rfl

theorem tears_leave (hal : HalMemory) (heap : Heap) (p : Process) (t : Table) :
    Tears t (t.putMachine p (leaveMemory hal heap p (t.machine p)).2) (fun _ => False)
      (namedLocs hal heap p (t.machine p)) where
  refs := rfl
  kept n _ := by
    show (update t.spaces p.addressSpace _ n).mappings = _
    rw [leaveMemory_space, Table.machine, update_eq_self]
  emptied n hn := hn.elim
  outside x hx := leaveMemory_outside hx

section Exits

variable (hal : HalMemory) (heap : Heap) (code : Int32) {g : ℕ}

def groupLocs : List ℕ → List ℕ × Table → List ℕ
  | [], _ => []
  | tid :: tids, found =>
    (match found.2.processes[tid]? with
      | none => []
      | some p => namedLocs hal heap p (found.2.machine p)) ++
    groupLocs tids (exitEntry hal heap code found tid)

theorem tears_exitEntry (found : List ℕ × Table) (tid : ℕ) :
    Tears found.2 (exitEntry hal heap code found tid).2 (fun n => spaceOf found.2 tid = some n)
      (match found.2.processes[tid]? with
        | none => []
        | some p => namedLocs hal heap p (found.2.machine p)) := by
  unfold exitEntry
  rcases hp : found.2.processes[tid]? with _ | p
  · exact (tears_removeFutexWaiter found.2 tid).congr (fun n => by simp [spaceOf, hp]) rfl
  have hleave := tears_leave hal heap p found.2
  have hclear := tears_clearSpace (found.2.putMachine p
    (leaveMemory hal heap p (found.2.machine p)).2) p
  have hend := tears_modify ((found.2.putMachine p
    (leaveMemory hal heap p (found.2.machine p)).2).clearSpace p) tid
    (f := fun p => { endProcess code p with fds := ∅ }) fun p => rfl
  refine (((hleave.trans hclear).trans hend).trans (tears_removeFutexWaiter _ tid)).congr
    (fun n => ?_) (by simp)
  simp [spaceOf, hp, eq_comm]

theorem tears_exitEntries (tids : List ℕ) (found : List ℕ × Table) :
    Tears found.2 (tids.foldl (exitEntry hal heap code) found).2
      (fun n => ∃ tid ∈ tids, spaceOf found.2 tid = some n)
      (groupLocs hal heap code tids found) := by
  induction tids generalizing found with
  | nil => exact (Tears.refl found.2).congr (fun n => by simp) rfl
  | cons tid tids ih =>
    have hfirst := tears_exitEntry hal heap code found tid
    refine (hfirst.trans (ih _)).congr (fun n => ?_) rfl
    rw [hfirst.refs]
    simp

inductive ExitCall where
  | thread
  | group
  | forced (tgid : ℕ)

def ExitCall.endsGroup (t : Table) : ExitCall → Option ℕ
  | thread =>
    match t.current with
    | .error _ => none
    | .ok p => if t.groupAlive p.tgid p.tid then none else some p.tgid
  | group =>
    match t.current with
    | .error _ => none
    | .ok p => some p.tgid
  | forced tgid => some tgid

def ExitCall.run (t : Table) : ExitCall → Table
  | thread => (t.exitCurrentThread hal heap code).2
  | group => (t.exitCurrentProcessGroup hal heap code).2
  | forced tgid => (t.forceExitGroup hal heap code tgid).2

def ExitCall.ownLocs (t : Table) : ExitCall → List ℕ
  | thread =>
    match t.current with
    | .error _ => []
    | .ok p => namedLocs hal heap p (t.machine p)
  | group =>
    match t.current with
    | .error _ => []
    | .ok p => groupLocs hal heap code (t.groupTids p.tgid) ([], t)
  | forced tgid => groupLocs hal heap code (t.groupTids tgid) ([], t)

/-- A member of the group refers to the space. -/
def SpaceIn (t : Table) (g n : ℕ) : Prop := ∃ j q, kin t j = some q ∧ q.tgid = g ∧ spaceOf t j = some n

theorem spaceIn_iff : SpaceIn t g n ↔ ∃ tid ∈ t.groupTids g, spaceOf t tid = some n := by
  simp only [mem_groupTids]
  constructor
  · rintro ⟨j, q, hq, hg, hn⟩
    exact ⟨j, ⟨q, hq, hg⟩, hn⟩
  · rintro ⟨j, ⟨q, hq, hg⟩, hn⟩
    exact ⟨j, q, hq, hg, hn⟩

theorem tears_endGroup (g : ℕ) (t : Table) : Tears t (t.endGroup code g) (SpaceIn t g) [] := by
  have hend : Tears t (t.modifyGroup g (endProcess code)) (fun _ => False) [] :=
    .of_eq (funext fun j => modifyGroup_same (f := endProcess code)
      (Option.map Process.addressSpace) (fun _ => rfl) g j t) rfl rfl
  refine (hend.trans (tears_clearSpaces _ _)).congr (fun n => ?_) rfl
  simp only [false_or, mem_filter, mem_values, beq_iff_eq, SpaceIn, spaceOf_eq_some]
  constructor
  · rintro ⟨p, ⟨⟨j, hj⟩, hg⟩, rfl⟩
    exact ⟨j, kinOf p, kin_of_entry hj, hg, p, hj, rfl⟩
  · rintro ⟨j, q, hq, hg, p, hp, rfl⟩
    rw [kin_of_entry hp] at hq
    obtain rfl := some.inj hq
    exact ⟨p, ⟨⟨j, hp⟩, hg⟩, rfl⟩

theorem tears_leaveThread {p : Process} : Tears t (t.leaveThread hal heap code p).2 (fun _ => False)
      (namedLocs hal heap p (t.machine p)) := by
  have hleave := tears_leave hal heap p t
  have hqueue := tears_removeFutexWaiter (t.putMachine p
    (leaveMemory hal heap p (t.machine p)).2) p.tid
  have hend := tears_modify ((t.putMachine p
    (leaveMemory hal heap p (t.machine p)).2).removeFutexWaiter p.tid) t.currentTid
    (f := fun p => { endProcess code p with fds := ∅ }) fun p => rfl
  exact ((hleave.trans hqueue).trans hend).congr (fun n => by simp) (by simp)

theorem tears_run {x : ExitCall} (hg : x.endsGroup t = some g) :
    Tears t (x.run hal heap code t) (SpaceIn t g) (x.ownLocs hal heap code t) := by
  cases x with
  | thread =>
    unfold ExitCall.endsGroup at hg
    unfold ExitCall.run ExitCall.ownLocs
    rcases hp : t.current with e | p
    · simp [hp] at hg
    simp only [hp, ite_none_left_eq_some, some.injEq] at hg ⊢
    obtain ⟨halive, rfl⟩ := hg
    have hcur := current_ok hp
    simp only [exitCurrentThread, hp]
    rw [leaveThread_groupAlive hal heap code hcur, if_neg halive]
    have hleave := tears_leaveThread hal heap code (t := t) (p := p)
    have hend := tears_endGroup code p.tgid (t.leaveThread hal heap code p).2
    refine ((hleave.trans hend).trans (tears_notifyParent _ _)).congr (fun n => ?_) (by simp)
    simp only [false_or, or_false, SpaceIn, hleave.refs, leaveThread_kin hal heap code hcur]
    -- the entry that has left still belongs to the group
    refine exists_congr fun j => ?_
    by_cases hj : j = t.currentTid
    · subst hj
      rw [kin_of_entry hcur]
      simp [Kin.ended]
    · rw [update_of_ne hj]
  | group =>
    unfold ExitCall.endsGroup at hg
    unfold ExitCall.run ExitCall.ownLocs
    rcases hp : t.current with e | p
    · simp [hp] at hg
    simp only [hp, some.injEq] at hg ⊢
    subst hg
    simp only [exitCurrentProcessGroup, hp]
    have hexits := tears_exitEntries hal heap code (t.groupTids p.tgid) ([], t)
    refine (hexits.trans (tears_notifyParent _ _)).congr (fun n => ?_) (by simp)
    rw [or_false, spaceIn_iff]
  | forced tgid =>
    obtain rfl := some.inj hg
    unfold ExitCall.run ExitCall.ownLocs forceExitGroup
    simp only
    split
    · next hnil =>
      rw [hnil]
      refine (Tears.refl t).congr (fun n => ?_) rfl
      simp [spaceIn_iff, hnil]
    · have hexits := tears_exitEntries hal heap code (t.groupTids tgid) ([], t)
      refine (hexits.trans (tears_notifyParent _ _)).congr (fun n => ?_) (by simp)
      rw [or_false, spaceIn_iff]

/-- Process `k` reads the byte `b` at `a` through its address space, whenever the kernel has room
for one byte. -/
def Reads (t : Table) (k a : ℕ) (b : UInt8) : Prop :=
  ∃ p, t.processes[k]? = some p ∧
    ∀ heap : Heap, heap.tryReserve 1 = true → readBytes hal heap a 1 (t.machine p) = .ok [b]

def locOf (t : Table) (k a : ℕ) : Option ℕ :=
  (spaceOf t k).bind fun n => locAt hal (t.spaces n).mappings a

theorem reads_iff {a : ℕ} {b : UInt8} :
    Reads hal t k a b ↔ ∃ x, locOf hal t k a = some x ∧ t.mem x = b := by
  unfold Reads locOf spaceOf
  rcases hp : t.processes[k]? with _ | p
  · simp
  simp only [some.injEq, exists_eq_left', map_some, bind_some]
  constructor
  · intro h
    have hread := h ⟨fun _ => true, 0, id⟩ rfl
    rw [readBytes_byte hal rfl] at hread
    rcases hloc : locAt hal (t.spaces p.addressSpace).mappings a with _ | x
    · simp [Table.machine, hloc] at hread
    refine ⟨x, rfl, ?_⟩
    simpa [Table.machine, hloc] using hread
  · rintro ⟨x, hx, rfl⟩ heap hheap
    rw [readBytes_byte hal hheap]
    simp [Table.machine, hx]

/-- Every live process of another group reads after the exit what it read before, except at the
words the group's own threads named. -/
def Isolated (t : Table) (x : ExitCall) : Prop :=
  ∀ g, x.endsGroup t = some g → ∀ k q, kin t k = some q → q.Live → q.tgid ≠ g →
    ∀ a b, Reads hal t k a b → Reads hal (x.run hal heap code t) k a b ∨
        ∃ y ∈ x.ownLocs hal heap code t, locOf hal t k a = some y

/-- A live process of another group that shares an address space with a member of the exiting
group has nothing mapped there but the words that group named. -/
def SharesOwnWordsOnly (t : Table) (x : ExitCall) : Prop :=
  ∀ g, x.endsGroup t = some g → ∀ k q, kin t k = some q → q.Live → q.tgid ≠ g →
    ∀ n, spaceOf t k = some n → SpaceIn t g n →
      ∀ a y, locAt hal (t.spaces n).mappings a = some y → y ∈ x.ownLocs hal heap code t

theorem exit_isolated_iff (t : Table) (x : ExitCall) :
    Isolated hal heap code t x ↔ SharesOwnWordsOnly hal heap code t x := by
  refine forall_congr' fun g => forall_congr' fun hg => ?_
  have htears := tears_run hal heap code hg
  refine forall_congr' fun k => forall_congr' fun q => forall_congr' fun hq =>
    forall_congr' fun _ => forall_congr' fun _ => ?_
  constructor
  · intro h n hn hshared a y hy
    have hloc : locOf hal t k a = some y := by rw [locOf, hn, bind_some, hy]
    rcases h a (t.mem y) ((reads_iff hal).mpr ⟨y, hloc, rfl⟩) with hafter | ⟨z, hz, hza⟩
    · -- the shared space is empty after the exit
      obtain ⟨z, hz, -⟩ := (reads_iff hal).mp hafter
      rw [locOf, htears.refs, hn, bind_some, htears.emptied n hshared] at hz
      exact absurd hz (by simp [locAt, findSegment_empty])
    · rw [hloc] at hza
      rwa [some.inj hza]
  · intro h a b hread
    obtain ⟨y, hy, rfl⟩ := (reads_iff hal).mp hread
    obtain ⟨n, hn, hloc⟩ := bind_eq_some_iff.mp hy
    by_cases hown : y ∈ x.ownLocs hal heap code t
    · exact .inr ⟨y, hown, hy⟩
    · have hkept : ¬ SpaceIn t g n := fun hshared => hown (h n hn hshared a y hloc)
      refine .inl ((reads_iff hal).mpr ⟨y, ?_, htears.outside y hown⟩)
      rw [locOf, htears.refs, hn, bind_some, htears.kept n hkept, hloc]

end Exits

def vforkTable : Table :=
  let t : Table := ⟨1, 0, ∅, ∅, fun _ => newUser board, 0, fun _ => 0⟩
  let t := (t.spawn board ⟨fun _ => false, 0, id⟩ none 0).2
  let t := match t.processes[1]? with
    | none => t
    | some p => t.putMachine p (mapFixedBytes board boardHeap 0x10000 [7] 0x1000 3 (t.machine p)).2
  (t.forkProcessFromCurrentShared.2.setCurrent 2).2

/-- The parent reads 7 at `0x10000`; its child names no word; after the child's exit the parent
can read nothing there. -/
theorem vfork_child_exit_unmaps_parent : (vforkTable.processes[1]?.map fun p => (p.state,
      (readBytes board boardHeap 0x10000 1 (vforkTable.machine p)).toOption)) =
        some (.ready, some [7]) ∧
    ExitCall.group.endsGroup vforkTable = some 2 ∧
    ExitCall.group.ownLocs board boardHeap 0 vforkTable = [] ∧
    ((ExitCall.group.run board boardHeap 0 vforkTable).processes[1]?.map fun p => (p.state,
      (readBytes board boardHeap 0x10000 1
        ((ExitCall.group.run board boardHeap 0 vforkTable).machine p)).toOption)) =
        some (.ready, none) := by
  decide +kernel

end ExitIsolation
