import Mathlib.Logic.Function.Basic
import Whuse.ProtectionMap

/-! User memory as a map from addresses to kernel locations. One byte is read where the
location of its address is; a write touches the locations of its own addresses only. A
space carries its invariants: the table is well formed and every pointer range is real. -/
namespace UserMemory

open List Option
open Std (ExtTreeMap)
open MachineWord IntervalTable AddressSpace CallRuns MappingTable OwnedMapping CallEffects Function
  ProtectionMap

def bytePtr (hal : HalMemory) (s : Segment) (a : ℕ) : ℕ := dataPtr hal s + (a - s.area.start)

def ptrAt (hal : HalMemory) (m : Mappings) (a : ℕ) : Option ℕ :=
  (entryAt segmentExtent m a).map fun s => bytePtr hal s a

variable {hal : HalMemory} {bytes data : List UInt8} {M N : Machine} {m : Mappings} {mem : Memory}
  {s : Segment} {a ptr x p e cursor : ℕ} {c : Call}

theorem ptrAt_eq_some (hm : TableWellFormed m) :
    ptrAt hal m a = some p ↔ ∃ s, SegmentAt m a s ∧ bytePtr hal s a = p := by
  simp [ptrAt, hm.entryAt_iff]

theorem ptrAt_of_segmentAt (hal : HalMemory) (hm : TableWellFormed m) (h : SegmentAt m a s) :
    ptrAt hal m a = some (bytePtr hal s a) :=
  (ptrAt_eq_some hm).mpr ⟨s, h, rfl⟩

theorem findSegment_one (hm : TableWellFormed m) (a : ℕ) : findSegment m a 1 =
      match entryAt segmentExtent m a with
      | some s => .ok (s, a - s.area.start)
      | none => .error efault := by
  have hbase : ∀ (k : ℕ) (s : Segment), m[k]? = some s → s.area.start = k ∧
        checkedAdd s.area.start s.area.len = some (s.area.start + s.area.len) :=
    fun k s hk => ⟨hm.key k s hk, checkedAdd_of_le (hm.bounded k s hk)⟩
  unfold findSegment
  cases hend : checkedAdd a 1 with
  | none =>
    -- the last address belongs to no segment
    have hlast := checkedAdd_eq_none.mp hend
    have hnone : entryAt segmentExtent m a = none := by
      refine hm.entryAt_eq_none.mpr ?_
      rintro s ⟨k, hk, hc⟩
      have := hm.bounded k s hk
      simp only [covers_iff, segmentExtent_start, segmentExtent_len] at *
      omega
    rw [hnone]
  | some e =>
    obtain ⟨_, rfl⟩ := checkedAdd_eq_some.mp hend
    have htest : ∀ p ∈ m.toList, holdsRange a (a + 1) p = decide (Covers segmentExtent p.2 a) := by
      intro p hp
      obtain ⟨hkey, hadd⟩ := hbase p.1 p.2 (ExtTreeMap.mem_toList_iff_getElem?_eq_some.mp hp)
      simp only [holdsRange, ← hkey, hadd]
      rfl
    rw [← entryAt_eq_find htest]
    rcases hf : m.toList.find? (holdsRange a (a + 1)) with _ | p
    · simp [hf]
    have hmem := mem_of_find?_eq_some hf
    obtain ⟨hkey, _⟩ := hbase p.1 p.2 (ExtTreeMap.mem_toList_iff_getElem?_eq_some.mp hmem)
    simp [hf, hkey]

theorem findSegment_error (h : findSegment m a 1 = .error e) : e = efault := by
  unfold findSegment at h
  grind

theorem findSegment_ok (h : findSegment m a 1 = .ok (s, offset)) :
    ∃ base, m.toList.find? (holdsRange a (a + 1)) = some (base, s) ∧ offset = a - base ∧
      base ≤ a ∧ a < base + s.area.len ∧ base + s.area.len ≤ usizeMax := by
  unfold findSegment at h
  rcases hend : checkedAdd a 1 with _ | e
  · simp [hend] at h
  obtain ⟨-, rfl⟩ := checkedAdd_eq_some.mp hend
  simp only [hend] at h
  split at h
  · cases h
  next base s hfind =>
    obtain ⟨rfl, rfl⟩ := Prod.mk.inj (Except.ok.inj h)
    have hhold := find?_some hfind
    unfold holdsRange at hhold
    split at hhold
    · cases hhold
    next segEnd hsum =>
      obtain ⟨hfits, rfl⟩ := checkedAdd_eq_some.mp hsum
      obtain ⟨hlow, hhigh⟩ := of_decide_eq_true hhold
      exact ⟨base, hfind, rfl, hlow, hhigh, hfits⟩

theorem readBytes_one (hal : HalMemory) (heap : Heap) (hm : TableWellFormed M.space.mappings)
    (a : ℕ) :
    readBytes hal heap a 1 M =
      if heap.tryReserve 1 then
        match ptrAt hal M.space.mappings a with
        | some p => .ok [M.mem p]
        | none => .error efault
      else .error enomem := by
  simp only [readBytes, readLoop, findSegment_one hm, ptrAt]
  rcases he : entryAt segmentExtent M.space.mappings a with _ | s
  · simp
  obtain ⟨k, hk, hc⟩ := hm.entryAt_iff.mp he
  have hb : s.area.start + s.area.len ≤ usizeMax := hm.bounded k s hk
  simp only [covers_iff] at hc
  have htake : min (s.area.len - (a - s.area.start)) 1 = 1 := by omega
  simp only [htake, checkedAdd_of_le (show a + 1 ≤ usizeMax by omega)]
  simp [rawBytes, bytePtr, readLoop]

/-- Whether an address can be read, and what is read there, depends on its location only. -/
theorem readBytes_one_eq_iff (hal : HalMemory) (hM : TableWellFormed M.space.mappings)
    (hN : TableWellFormed N.space.mappings) (a : ℕ) :
    (∀ heap, readBytes hal heap a 1 N = readBytes hal heap a 1 M) ↔
      (ptrAt hal N.space.mappings a).map N.mem = (ptrAt hal M.space.mappings a).map M.mem := by
  simp only [readBytes_one hal _ hM, readBytes_one hal _ hN]
  constructor
  · intro h
    have := h ⟨fun _ => true, 0, id⟩
    revert this
    cases ptrAt hal N.space.mappings a <;> cases ptrAt hal M.space.mappings a <;> simp
  · intro h heap
    revert h
    cases ptrAt hal N.space.mappings a <;> cases ptrAt hal M.space.mappings a <;> simp
    intro h
    rw [h]

theorem copyBytes_of_lt (h : x < ptr) : copyBytes mem ptr data x = mem x := by
  rw [copyBytes, if_neg (by omega)]

theorem copyBytes_of_ge (h : ptr + data.length ≤ x) : copyBytes mem ptr data x = mem x := by
  rw [copyBytes, if_pos (by omega), getElem?_eq_none (by omega), Option.getD_none]

theorem copyBytes_outside (h : ¬ (ptr ≤ x ∧ x < ptr + data.length)) :
    copyBytes mem ptr data x = mem x := by
  by_cases hlt : x < ptr
  · exact copyBytes_of_lt hlt
  · exact copyBytes_of_ge (by omega)

theorem copyBytes_one (mem : Memory) (ptr : ℕ) (b : UInt8) :
    copyBytes mem ptr [b] = update mem ptr b := by
  funext x
  by_cases hx : x = ptr
  · subst hx
    simp [copyBytes]
  · rw [update_of_ne hx, copyBytes_outside (by simp only [length_singleton]; omega)]

theorem rawBytes_copyBytes (mem : Memory) (ptr : ℕ) (bytes : List UInt8) :
    rawBytes (copyBytes mem ptr bytes) ptr bytes.length = bytes := by
  apply ext_getElem
  · simp [rawBytes]
  · intro i h₁ h₂
    simp [rawBytes, copyBytes, h₂]

/-- A write changes no byte outside the locations of the addresses it names. -/
theorem writeLoop_frame (hal : HalMemory) (hm : TableWellFormed m) (fuel : ℕ)
    (hx : ∀ a, cursor ≤ a → a < cursor + bytes.length → ptrAt hal m a ≠ some x) :
    (writeLoop hal m fuel cursor bytes mem).2 x = mem x := by
  induction fuel generalizing cursor bytes mem with
  | zero => cases bytes <;> rfl
  | succ fuel ih =>
    rcases bytes with _ | ⟨b, bytes⟩
    · rfl
    simp only [writeLoop, findSegment_one hm]
    rcases he : entryAt segmentExtent m cursor with _ | s
    · rfl
    obtain ⟨k, hk, hc⟩ := hm.entryAt_iff.mp he
    simp only [covers_iff] at hc ⊢
    generalize htake : min (s.area.len - (cursor - s.area.start)) (bytes.length + 1) = n
    split
    · rfl
    have hcopy : copyBytes mem (dataPtr hal s + (cursor - s.area.start))
        ((b :: bytes).take n) x = mem x := by
      apply copyBytes_outside
      rintro ⟨hge, hlt⟩
      simp only [length_take] at hlt
      -- the location of the address that many bytes further on
      generalize hi : x - (dataPtr hal s + (cursor - s.area.start)) = i
      have hseg : SegmentAt m (cursor + i) s := ⟨k, hk, by simp only [covers_iff]; omega⟩
      refine hx (cursor + i) (by omega) (by simp only [length_cons]; omega) ?_
      rw [ptrAt_of_segmentAt hal hm hseg]
      simp only [bytePtr, some.injEq]
      omega
    rcases hadd : checkedAdd cursor n with _ | next
    · exact hcopy
    obtain ⟨_, rfl⟩ := checkedAdd_eq_some.mp hadd
    rw [ih, hcopy]
    intro a hge hlt
    simp only [length_drop, length_cons] at hlt
    exact hx a (by omega) (by simp only [length_cons]; omega)

@[simp] theorem writeBytes_space (hal : HalMemory) (addr : ℕ) (bytes : List UInt8) (M : Machine) :
    (writeBytes hal addr bytes M).2.space = M.space := rfl

def IsShared (s : Segment) : Prop := ∃ bytes ptr, s.storage = .shared bytes ptr

def IsOwned (s : Segment) : Prop := ∃ frames, s.storage = .owned frames

/-- The bytes behind a segment lie below the last address, and a host range is as long as
its mapping. -/
def StorageOk (s : Segment) : Prop :=
  match s.storage with
  | .owned _ => True
  | .shared _ ptr => ptr + s.area.len ≤ usizeMax
  | .host ptr len => ptr + s.area.len ≤ usizeMax ∧ len = s.area.len

structure UserSpace where
  inner : AddressSpaceInner
  ok : SpaceOk inner
  stored : ∀ (k : ℕ) (s : Segment), inner.mappings[k]? = some s → StorageOk s

theorem UserSpace.table (S : UserSpace) : TableWellFormed S.inner.mappings := S.ok.table

theorem writeBytes_one (hal : HalMemory) (S : UserSpace) (b : UInt8) (mem : Memory)
    (hp : ptrAt hal S.inner.mappings a = some p) :
    writeBytes hal a [b] ⟨S.inner, mem⟩ = (.ok (), ⟨S.inner, update mem p b⟩) := by
  obtain ⟨s, hs, rfl⟩ := (ptrAt_eq_some S.table).mp hp
  have hentry := S.table.entryAt_iff.mpr hs
  obtain ⟨k, hk, hc⟩ := hs
  have hb : s.area.start + s.area.len ≤ usizeMax := S.table.bounded k s hk
  simp only [covers_iff] at hc
  have htake : min (s.area.len - (a - s.area.start)) 1 = 1 := by omega
  have hhost : hostRefuses s.storage (a - s.area.start) 1 = false := by
    have hstored := S.stored k s hk
    unfold StorageOk at hstored
    cases hst : s.storage with
    | owned frames => rfl
    | shared bytes ptr => rfl
    | host ptr len =>
      simp only [hst] at hstored
      simp only [hostRefuses, decide_eq_false_iff_not]
      omega
  simp only [writeBytes, writeLoop, length_singleton, findSegment_one S.table, hentry, length_nil,
    htake, hhost, checkedAdd_of_le (show a + 1 ≤ usizeMax by omega)]
  simp [bytePtr, copyBytes_one, writeLoop]

theorem storageOk_slice {p : Segment} {start end_ : ℕ} (hs : StorageOk s)
    (hp : SliceOf s start end_ p) : StorageOk p := by
  have hleft := hp.left
  have hright := hp.right
  rw [hp.slice]
  unfold StorageOk at hs ⊢
  cases hst : s.storage with
  | owned frames => simp [sliceSegment, sliceSegmentStorage, hst]
  | shared bytes ptr =>
    simp only [hst] at hs
    simp only [sliceSegment, sliceSegmentStorage, hst]
    rw [saturatingAdd_of_le (by omega)]
    omega
  | host ptr len =>
    simp only [hst] at hs
    simp only [sliceSegment, sliceSegmentStorage, hst]
    rw [saturatingAdd_of_le (by omega)]
    exact ⟨by omega, trivial⟩

def BufferFits (heap : Heap) (addr len : ℕ) : Prop :=
  heap.vecPtr + pageUp (pageOffset addr + len) + pageSize ≤ usizeMax

theorem sharedPtr_bounds {heap : Heap} {addr len : ℕ} (h : BufferFits heap addr len) :
    heap.vecPtr ≤ sharedPtr heap addr ∧
      sharedPtr heap addr + len ≤ heap.vecPtr + pageUp (pageOffset addr + len) + pageSize := by
  unfold BufferFits at h
  have hup : pageUp heap.vecPtr ≤ heap.vecPtr + (pageSize - 1) := by
    exact Nat.div_mul_le_self _ _
  have hle := le_pageUp heap.vecPtr
  have hlen := le_pageUp (pageOffset addr + len)
  rw [sharedPtr, alignUp_page (by omega)]
  omega

def HeapFits (c : Call) : Prop :=
  ∀ heap oldBreak answer, sharedHeap c = some heap →
    (Anonymous c → pageOffset (placedArea c oldBreak answer).start = 0) →
    BufferFits heap (placedArea c oldBreak answer).start (placedArea c oldBreak answer).len

theorem makes_storageOk (hh : HeapFits c) (h : Makes c M s) : StorageOk s := by
  cases h with
  | owned => simp [StorageOk, ownedSegment, ownedStorage]
  | shared answer hheap harea hfits haligned _ =>
    subst harea
    have hb := hh _ _ answer hheap haligned
    have hptr := sharedPtr_bounds hb
    unfold BufferFits at hb
    simp only [StorageOk, sharedSegment]
    omega
  | existing answer hstorage harea hfits =>
    subst harea
    obtain ⟨hpos, hend⟩ := hfits
    cases c with
    | mapSharedExisting addr data prot =>
      obtain rfl := some.inj hstorage
      exact hend
    | installHostRange addr len prot =>
      obtain rfl := some.inj hstorage
      exact ⟨hend, rfl⟩
    | _ => cases hstorage

theorem exec_userSpace (S : UserSpace) {o : KernelResult ℕ × Machine} (hc : NoWrap c)
    (hh : HeapFits c) (hx : exec hal c ⟨S.inner, mem⟩ = some o) :
    ∃ T : UserSpace, T.inner = o.2.space := by
  have heff := exec_effect (M := ⟨S.inner, mem⟩) S.ok hc hx
  exact ⟨⟨o.2.space, effect_spaceOk heff S.ok,
    effect_segments heff S.ok S.stored (fun _ _ _ _ _ _ _ hs hp _ => storageOk_slice hs hp)
      fun _ hs => makes_storageOk hh hs⟩, rfl⟩

def newUserSpace (hal : HalMemory) : UserSpace :=
  ⟨newUser hal, newUser_spaceOk hal, fun k s h => by simp [newUser] at h⟩

theorem cloneStorage_ok (heap : Heap) (k : ℕ) (hs : StorageOk s) :
    StorageOk ⟨s.area, cloneStorage heap k s.storage⟩ := by
  unfold StorageOk at hs ⊢
  cases hst : s.storage with
  | owned frames => simp [cloneStorage]
  | shared bytes ptr => simpa [cloneStorage, hst] using hs
  | host ptr len => simp [cloneStorage]

/-- The copy a fork makes. -/
def cloneSpace (hal : HalMemory) (heap : Heap) (S : UserSpace) : UserSpace where
  inner := clonePrivate hal heap S.inner
  ok := ⟨clonePrivate_wellFormed hal heap S.ok.table, S.ok.breakFits⟩
  stored := by
    intro k t h
    simp only [clonePrivate, ExtTreeMap.getElem?_map, Option.map_eq_some_iff] at h
    obtain ⟨s, hs, rfl⟩ := h
    exact cloneStorage_ok heap k (S.stored k s hs)

end UserMemory
