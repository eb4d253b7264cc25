import Whuse.UserMemory

/-! Parent and child of a fork. The child is the private copy of the parent's space; both
then write through their own tables into one memory. Isolation says that a write through one
side never shows at a private byte of the other. The copy keeps the frames of private
segments, so isolation holds only of parents that have none. -/
namespace ForkIsolation

open Std (ExtTreeMap)
open MachineWord IntervalTable AddressSpace CallRuns MappingTable OwnedMapping CallEffects
  ProtectionMap UserMemory

inductive Side where
  | parent | child
  deriving DecidableEq, Repr

structure Write where
  side : Side
  addr : ℕ
  bytes : List UInt8

variable (hal : HalMemory)

def target (P C : UserSpace) : Side → UserSpace
  | .parent => P
  | .child => C

def applyWrite (P C : UserSpace) (mem : Memory) (w : Write) : Memory :=
  (writeBytes hal w.addr w.bytes ⟨(target P C w.side).inner, mem⟩).2.mem

def runWrites (P C : UserSpace) (mem : Memory) (ws : List Write) : Memory :=
  ws.foldl (applyWrite hal P C) mem

def PrivateUnchanged (S : UserSpace) (before after : Memory) : Prop :=
  ∀ a s, SegmentAt S.inner.mappings a s → ¬ IsShared s → ∀ heap,
    readBytes hal heap a 1 ⟨S.inner, after⟩ = readBytes hal heap a 1 ⟨S.inner, before⟩

/-- After any writes, one more write through the child changes no private byte of the parent
and one more through the parent changes none of the child. -/
def ForkIsolated (heap : Heap) (P : UserSpace) : Prop :=
  ∀ (mem : Memory) (ws : List Write) (w : Write),
    let C := cloneSpace hal heap P
    let before := runWrites hal P C mem ws
    let after := applyWrite hal P C before w
    (w.side = .child → PrivateUnchanged hal P before after) ∧
    (w.side = .parent → PrivateUnchanged hal C before after)

def hostCopyPtr (s : Segment) (ptr a : ℕ) : ℕ :=
  hal.physToVirt ptr + pageOffset s.area.start + (a - s.area.start)

/-- The parent has no private frames, the copies of its host ranges lie outside everything it
maps, and its host ranges outside its shared buffers. -/
structure ForkSafe (P : UserSpace) : Prop where
  noOwned : ∀ a s, SegmentAt P.inner.mappings a s → ¬ IsOwned s
  copiesApart : ∀ a s ptr len, SegmentAt P.inner.mappings a s → s.storage = .host ptr len →
    ∀ b, ptrAt hal P.inner.mappings b ≠ some (hostCopyPtr hal s ptr a)
  hostsApart : ∀ a s ptr len, SegmentAt P.inner.mappings a s → s.storage = .host ptr len →
    ∀ b t, SegmentAt P.inner.mappings b t → IsShared t → bytePtr hal t b ≠ bytePtr hal s a

variable {hal}

variable {heap : Heap} {C P S : UserSpace} {a : ℕ}

theorem segmentAt_clone {t : Segment} :
    SegmentAt (cloneSpace hal heap P).inner.mappings a t ↔ ∃ s, SegmentAt P.inner.mappings a s ∧
        t = ⟨s.area, cloneStorage heap s.area.start s.storage⟩ := by
  have hmap := entryAt_map (E := segmentExtent) (m := P.inner.mappings)
    (f := fun start s => ⟨s.area, cloneStorage heap start s.storage⟩)
    (fun _ _ => rfl) (fun _ _ => rfl) a t
  refine hmap.trans ?_
  constructor
  · rintro ⟨k, s, hk, hc, rfl⟩
    have hkey : s.area.start = k := P.table.key k s hk
    exact ⟨s, ⟨k, hk, hc⟩, by rw [hkey]⟩
  · rintro ⟨s, ⟨k, hk, hc⟩, rfl⟩
    have hkey : s.area.start = k := P.table.key k s hk
    exact ⟨k, s, hk, hc, by rw [hkey]⟩

theorem privateUnchanged_of_apart {w : Write} {mem : Memory}
    (h : ∀ a s, SegmentAt S.inner.mappings a s → ¬ IsShared s →
      ∀ b, ptrAt hal (target P C w.side).inner.mappings b ≠ some (bytePtr hal s a)) :
    PrivateUnchanged hal S mem (applyWrite hal P C mem w) := by
  intro a s hs hprivate
  refine (readBytes_one_eq_iff hal (M := ⟨S.inner, mem⟩) (N := ⟨S.inner, _⟩) S.table S.table
    a).mpr ?_
  rw [ptrAt_of_segmentAt hal S.table hs]
  simp only [Option.map_some, Option.some.injEq]
  exact writeLoop_frame hal (target P C w.side).table _ fun b _ _ => h a s hs hprivate b

theorem write_shows (side : Side) {b : ℕ} {s : Segment} (hs : SegmentAt S.inner.mappings a s)
    (hprivate : ¬ IsShared s)
    (hb : ptrAt hal (target P C side).inner.mappings b = some (bytePtr hal s a)) :
    ¬ PrivateUnchanged hal S (fun _ => 0)
      (applyWrite hal P C (fun _ => 0) ⟨side, b, [1]⟩) := by
  intro h
  have hread := (readBytes_one_eq_iff hal (M := ⟨S.inner, fun _ => 0⟩) (N := ⟨S.inner, _⟩)
    S.table S.table a).mp (h a s hs hprivate)
  simp only [applyWrite, writeBytes_one hal (target P C side) 1 _ hb,
    ptrAt_of_segmentAt hal S.table hs, Option.map_some, Function.update_self] at hread
  exact absurd hread (by decide)

theorem forkIsolated_of_safe (h : ForkSafe hal P) : ForkIsolated hal heap P := by
  intro mem ws w
  refine ⟨fun hside => privateUnchanged_of_apart fun a s hs hprivate b hb => ?_,
    fun hside => privateUnchanged_of_apart fun a t ht hprivate b hb => ?_⟩
  · -- a private byte of the parent is a byte of a host range
    rw [hside] at hb
    cases hst : s.storage with
    | owned frames => exact h.noOwned a s hs ⟨frames, hst⟩
    | shared bytes ptr => exact hprivate ⟨bytes, ptr, hst⟩
    | host ptr len =>
      obtain ⟨t, ht, htp⟩ := (ptrAt_eq_some (cloneSpace hal heap P).table).mp hb
      obtain ⟨u, hu, rfl⟩ := segmentAt_clone.mp ht
      cases hut : u.storage with
      | owned frames => exact h.noOwned b u hu ⟨frames, hut⟩
      | shared bytes q =>
        refine h.hostsApart a s ptr len hs hst b u hu ⟨bytes, q, hut⟩ ?_
        simpa [bytePtr, dataPtr, cloneStorage, hut] using htp
      | host q n =>
        refine h.copiesApart b u q n hu hut a ?_
        rw [ptrAt_of_segmentAt hal P.table hs, ← htp]
        simp [bytePtr, dataPtr, cloneStorage, hut, hostCopyPtr]
  · -- a private byte of the child is a byte of the copy of a host range
    rw [hside] at hb
    obtain ⟨u, hu, rfl⟩ := segmentAt_clone.mp ht
    cases hut : u.storage with
    | owned frames => exact h.noOwned a u hu ⟨frames, hut⟩
    | shared bytes q => exact hprivate ⟨bytes, q, by simp [cloneStorage, hut]⟩
    | host q n =>
      refine h.copiesApart a u q n hu hut b ?_
      rw [show ptrAt hal P.inner.mappings b = _ from hb]
      simp [bytePtr, dataPtr, cloneStorage, hut, hostCopyPtr]

theorem safe_of_forkIsolated (h : ForkIsolated hal heap P) : ForkSafe hal P := by
  refine ⟨fun a s hs => ?_, fun a s ptr len hs hst b hb => ?_, fun a s ptr len hs hst b t ht hsh he => ?_⟩
  · rintro ⟨frames, hst⟩
    -- the child has the same segment over the same frames
    have hclone : SegmentAt (cloneSpace hal heap P).inner.mappings a s :=
      segmentAt_clone.mpr ⟨s, hs, by rw [hst]; simp [cloneStorage, ← hst]⟩
    exact write_shows .child hs (by rintro ⟨_, _, h⟩; simp [hst] at h)
      (ptrAt_of_segmentAt hal (cloneSpace hal heap P).table hclone)
      ((h (fun _ => 0) [] ⟨.child, a, [1]⟩).1 rfl)
  · have hclone : SegmentAt (cloneSpace hal heap P).inner.mappings a
        ⟨s.area, cloneStorage heap s.area.start s.storage⟩ := segmentAt_clone.mpr ⟨s, hs, rfl⟩
    refine write_shows .parent (b := b) hclone ?_ ?_
      ((h (fun _ => 0) [] ⟨.parent, b, [1]⟩).2 rfl)
    · rintro ⟨_, _, h⟩
      simp [cloneStorage, hst] at h
    · refine Eq.trans (show _ = _ from hb) ?_
      simp [bytePtr, dataPtr, cloneStorage, hst, hostCopyPtr]
  · obtain ⟨bytes, q, hut⟩ := hsh
    have hclone : SegmentAt (cloneSpace hal heap P).inner.mappings b t :=
      segmentAt_clone.mpr ⟨t, ht, by rw [hut]; simp [cloneStorage, ← hut]⟩
    refine write_shows .child (b := b) hs (by rintro ⟨_, _, h⟩; simp [hst] at h) ?_
      ((h (fun _ => 0) [] ⟨.child, b, [1]⟩).1 rfl)
    exact (ptrAt_of_segmentAt hal (cloneSpace hal heap P).table hclone).trans (by rw [he])

/-- A fork isolates its two sides exactly when the parent has no private frames and its host
ranges, their copies and its shared buffers lie apart. -/
theorem fork_isolated_iff (hal : HalMemory) (heap : Heap) (P : UserSpace) :
    ForkIsolated hal heap P ↔ ForkSafe hal P :=
  ⟨safe_of_forkIsolated, forkIsolated_of_safe⟩

/-- One private page with a first byte 7. -/
def parentMachine : Machine :=
  (mapFixedBytes board boardHeap 0x10000 [7] 0x1000 3 ⟨newUser board, fun _ => 0⟩).2

/-- The child's write of 9 shows in the parent. -/
theorem fork_shares_private_frames : readBytes board boardHeap 0x10000 1 parentMachine = .ok [7] ∧
    readBytes board boardHeap 0x10000 1 ⟨parentMachine.space, (writeBytes board 0x10000 [9]
        ⟨clonePrivate board boardHeap parentMachine.space, parentMachine.mem⟩).2.mem⟩ = .ok [9] ∧
    ∃ P : UserSpace, P.inner = parentMachine.space ∧ ¬ ForkIsolated board boardHeap P := by
  refine ⟨by decide +kernel, by decide +kernel, ?_⟩
  have hcall : exec board (.mapFixedBytes boardHeap 0x10000 [7] 0x1000 3)
      ⟨(newUserSpace board).inner, fun _ => 0⟩ = some (withZero
        (mapFixedBytes board boardHeap 0x10000 [7] 0x1000 3 ⟨newUser board, fun _ => 0⟩)) := rfl
  have hfits : NoWrap (.mapFixedBytes boardHeap 0x10000 [7] 0x1000 3) := by
    simp [NoWrap, usizeMax]
  obtain ⟨P, hP⟩ := exec_userSpace (newUserSpace board) hfits (fun _ _ _ h => by cases h) hcall
  refine ⟨P, hP, fun h => ?_⟩
  have howned : ((entryAt segmentExtent parentMachine.space.mappings 0x10000).map
      (·.storage)) = some (.owned ⟨0x10000, ⟨0x80400000, 1⟩⟩) := by decide +kernel
  obtain ⟨s, hs, hst⟩ := Option.map_eq_some_iff.mp howned
  refine (safe_of_forkIsolated h).noOwned 0x10000 s ?_ ⟨_, hst⟩
  rw [hP]
  exact (hP ▸ P.table : TableWellFormed parentMachine.space.mappings).entryAt_iff.mp hs

end ForkIsolation
