import Whuse.UserMemory

/-! The bytes behind a mapping while ranges are cut out of the table. A kept part of a
segment must lead to the bytes it led to before. A slice of private frames starts again at
the first frame, so this holds exactly for cuts that leave no part in a later page. -/
namespace MappingContents

open Std (ExtTreeMap)
open MachineWord IntervalTable AddressSpace CallRuns MappingTable OwnedMapping CallEffects Option
  ProtectionMap UserMemory

inductive Surgery where
  | unmap (addr len : ℕ)
  | mprotect (addr len prot : ℕ)
  | mapFixedBytes (heap : Heap) (addr : ℕ) (bytes : List UInt8) (memLen prot : ℕ)
  | mapFixedSharedBytes (heap : Heap) (addr : ℕ) (bytes : List UInt8) (memLen prot : ℕ)

def toCall : Surgery → Call
  | .unmap addr len => .unmap addr len
  | .mprotect addr len prot => .mprotect addr len prot
  | .mapFixedBytes heap addr bytes memLen prot => .mapFixedBytes heap addr bytes memLen prot
  | .mapFixedSharedBytes heap addr bytes memLen prot =>
    .mapFixedSharedBytes heap addr bytes memLen prot

def firstAddr : Surgery → ℕ
  | .unmap addr _ => addr
  | .mprotect addr _ _ => addr
  | .mapFixedBytes _ addr _ _ _ => addr
  | .mapFixedSharedBytes _ addr _ _ _ => addr

def Affected : Surgery → ℕ → Prop
  | .unmap addr len, a => addr ≤ a ∧ a < addr + pageUp len
  | .mprotect _ _ _, _ => False
  | .mapFixedBytes _ addr _ memLen _, a => addr ≤ a ∧ a < addr + memLen
  | .mapFixedSharedBytes _ addr _ memLen _, a => addr ≤ a ∧ a < addr + memLen

/-- A new buffer lies below the last address and apart from every byte the space can reach. -/
def BufferFresh (hal : HalMemory) (S : UserSpace) (heap : Heap) (addr len : ℕ) : Prop :=
  BufferFits heap addr len ∧ ∀ a p, ptrAt hal S.inner.mappings a = some p →
    ¬ (heap.vecPtr ≤ p ∧ p < heap.vecPtr + pageUp (pageOffset addr + len) + pageSize)

/-- Page-aligned calls whose range does not wrap, with a heap that hands out free memory. -/
structure Admissible (hal : HalMemory) (S : UserSpace) (x : Surgery) : Prop where
  aligned : pageOffset (firstAddr x) = 0
  noWrap : NoWrap (toCall x)
  fresh : ∀ heap addr bytes memLen prot, x = .mapFixedSharedBytes heap addr bytes memLen prot →
    BufferFresh hal S heap addr memLen

/-- Every mapped byte the call does not replace is still mapped and reads the same. -/
def Preserves (hal : HalMemory) (S : UserSpace) (mem : Memory) (x : Surgery) : Prop :=
  ∀ o, exec hal (toCall x) ⟨S.inner, mem⟩ = some o →
    ∀ a, protOf S.inner.mappings a ≠ none → ¬ Affected x a → protOf o.2.space.mappings a ≠ none ∧
      ∀ heap, readBytes hal heap a 1 o.2 = readBytes hal heap a 1 ⟨S.inner, mem⟩

/-- No private segment is cut at `b` past its first page. -/
def SamePageAt (m : Mappings) (b : ℕ) : Prop :=
  ∀ (k : ℕ) (s : Segment), m[k]? = some s → IsOwned s → s.area.start < b →
    b < s.area.start + s.area.len → b / pageSize = s.area.start / pageSize

def Refused (heap : Heap) (bytes : List UInt8) (memLen : ℕ) : Prop :=
  memLen = 0 ∨ memLen < bytes.length ∨ heap.tryReserve memLen = false

/-- The frames the allocator would hand out back no byte that is kept. -/
def WindowFree (hal : HalMemory) (S : UserSpace) (addr memLen : ℕ) : Prop :=
  ∀ a p, ptrAt hal S.inner.mappings a = some p → ¬ (addr ≤ a ∧ a < addr + memLen) →
    ¬ (copyTarget hal S.inner.frameAllocator addr ≤ p ∧
      p < copyTarget hal S.inner.frameAllocator addr + memLen)

/-- The cuts that lose no byte, told from the call and the space before it. -/
def SafeCut (hal : HalMemory) (S : UserSpace) : Surgery → Prop
  | .unmap addr len => len = 0 ∨ SamePageAt S.inner.mappings (addr + pageUp len)
  | .mprotect addr len _ => len = 0 ∨
    (SamePageAt S.inner.mappings addr ∧ SamePageAt S.inner.mappings (addr + pageUp len))
  | .mapFixedBytes heap addr bytes memLen _ =>
    Refused heap bytes memLen ∨ ¬ Room S.inner.frameAllocator (pagesTaken addr memLen) ∨
      (SamePageAt S.inner.mappings (addr + memLen) ∧ WindowFree hal S addr memLen)
  | .mapFixedSharedBytes heap addr bytes memLen _ =>
    Refused heap bytes memLen ∨ SamePageAt S.inner.mappings (addr + memLen)

variable {hal : HalMemory} {heap : Heap} {bytes data : List UInt8} {f : Memory → Memory}
  {s : Segment} {x : Surgery} {S U : UserSpace} {a addr len memLen p prot start q : ℕ}
  {g : ℕ → Option UInt8} {m : Mappings} {place : Place}

section Locations

variable {m : Mappings} {end_ k : ℕ}

/-- A slice leads to the bytes of its segment unless it starts in a later page of private
frames. -/
theorem bytePtr_slice_iff {p : Segment} (hs : StorageOk s) (hp : SliceOf s start end_ p)
    (hc : Covers segmentExtent p a) :
    bytePtr hal p a = bytePtr hal s a ↔
      (IsOwned s → p.area.start / pageSize = s.area.start / pageSize) := by
  have hleft := hp.left
  have hright := hp.right
  simp only [covers_iff] at hc
  have hstorage : p.storage = sliceSegmentStorage s p.area.start p.area.len :=
    congrArg Segment.storage hp.slice
  unfold StorageOk at hs
  simp only [bytePtr, dataPtr, hstorage, sliceSegmentStorage, IsOwned]
  cases hst : s.storage with
  | owned frames =>
    simp only [pageOffset_eq_mod, pageSize]
    constructor
    · intro h _
      omega
    · intro h
      have := h ⟨frames, rfl⟩
      omega
  | shared bytes ptr | host ptr len =>
    simp only [hst] at hs
    simp only [reduceCtorEq, exists_false, false_implies, iff_true]
    rw [saturatingAdd_of_le (by omega)]
    omega

theorem samePage_of_edge {p : Segment} {b : ℕ} (hk : m[k]? = some s) (hp : SliceOf s start end_ p)
    (hb : SamePageAt m b) (hedge : p.area.start = b) :
    IsOwned s → p.area.start / pageSize = s.area.start / pageSize := by
  intro howned
  have hleft := hp.left
  have hright := hp.right
  have hpos := hp.pos
  by_cases heq : s.area.start = b
  · rw [hedge, heq]
  · rw [hedge]
    exact hb k s hk howned (by omega) (by omega)

section

variable (hm : TableWellFormed m) (hst : ∀ (k : ℕ) (s : Segment), m[k]? = some s → StorageOk s)
  (hlen : 0 < len)
include hm hst hlen

theorem ptrAt_unmapTable (hsafe : SamePageAt m (start + len)) (hp : ptrAt hal m a = some p)
    (ha : ¬ (start ≤ a ∧ a < start + len)) : ptrAt hal (unmapTable m start len) a = some p := by
  obtain ⟨s, ⟨k, hk, hc⟩, rfl⟩ := (ptrAt_eq_some hm).mp hp
  obtain ⟨ht, hct⟩ := cutPieces_outside (fun _ => []) (hm.fits hk) hc ha
  refine (ptrAt_eq_some (unmapTable_wellFormed hm hlen)).mpr ⟨_,
    (entryAt_rewrite hm (unmapPieces_cuts (by omega)) a _).mpr ⟨s, ⟨k, hk, hc⟩, ht, hct⟩, ?_⟩
  rcases unmapPieces_slice (hm.fits hk) (by omega) ht with heq | ⟨hsl, _, hedge⟩
  · rw [heq]
  refine (bytePtr_slice_iff (hst k s hk) hsl hct).mpr ?_
  rcases hedge with hedge | hedge
  · intro _
    rw [hedge]
  · exact samePage_of_edge hk hsl hsafe hedge

theorem ptrAt_mprotectTable (hleft : SamePageAt m addr) (hright : SamePageAt m (addr + len)) (hp : ptrAt hal m a = some p) :
    ptrAt hal (mprotectTable m addr len prot) a = some p := by
  obtain ⟨s, hs, rfl⟩ := (ptrAt_eq_some hm).mp hp
  have hwf : TableWellFormed (mprotectTable m addr len prot) := mprotectTable_wellFormed hm hlen
  have hmapped : protOf (mprotectTable m addr len prot) a ≠ none := by
    rw [protOf_mprotectTable hm hlen, protect, (protOf_eq_some hm).mpr ⟨s, hs, rfl⟩]
    split <;> simp
  obtain ⟨t, ht⟩ := (protOf_ne_none hwf).mp hmapped
  refine (ptrAt_eq_some hwf).mpr ⟨t, ht, ?_⟩
  obtain ⟨u, hu, htu, hct⟩ := (entryAt_rewrite hm (mprotectPieces_cuts prot (by omega)) a t).mp ht
  obtain rfl := hm.entryAt_unique hs hu
  obtain ⟨k, hk, _⟩ := hs
  rcases mprotectPieces_slice (hm.fits hk) (by omega) htu with rfl | ⟨hsl, _⟩
  · rfl
  refine (bytePtr_slice_iff (hst k s hk) hsl hct).mpr ?_
  rcases hsl.leftEdge with hedge | hedge | hedge
  · intro _
    rw [hedge]
  · exact samePage_of_edge hk hsl hright hedge
  · exact samePage_of_edge hk hsl hleft hedge

end

theorem ptrAt_placeSegment (hm : TableWellFormed m) (hs : Fits segmentExtent usizeMax s)
    (ha : ¬ (s.area.start ≤ a ∧ a < s.area.start + s.area.len)) :
    ptrAt hal (placeSegment m s) a = ptrAt hal (unmapTable m s.area.start s.area.len) a := by
  rw [ptrAt, ptrAt, entryAt_placeSegment hm hs ha]

/-- A piece that leads to the old byte where it starts does so in the first page. -/
theorem samePage_of_piece {b : ℕ} {t : Segment} {pieces : Segment → List Segment}
    (hm : TableWellFormed m) (hcuts : Cuts segmentExtent usizeMax pieces) (hk : m[k]? = some s)
    (hst : StorageOk s) (howned : IsOwned s) (hc : Covers segmentExtent s b) (ht : t ∈ pieces s)
    (hsl : SliceOf s start end_ t) (hb : t.area.start = b)
    (h : ∀ p, ptrAt hal m b = some p → ptrAt hal (rewrite segmentExtent pieces m) b = some p) :
    b / pageSize = s.area.start / pageSize := by
  have hct : Covers segmentExtent t b := by
    have hpos := hsl.pos
    rw [covers_iff]
    omega
  have hold := h _ (ptrAt_of_segmentAt hal hm ⟨k, hk, hc⟩)
  have hnew := ptrAt_of_segmentAt hal (rewrite_wellFormed hm hcuts)
    ((entryAt_rewrite hm hcuts _ t).mpr ⟨s, ⟨k, hk, hc⟩, ht, hct⟩)
  rw [← hb]
  exact (bytePtr_slice_iff hst hsl hct).mp (some.inj (hnew.symm.trans hold)) howned

/-- The part after the range is a slice that starts where the range ends. -/
theorem right_piece (mid : Segment → List Segment) (hs : Fits segmentExtent usizeMax s)
    (hlt : start < end_) (hleft : s.area.start < end_) (hright : end_ < s.area.start + s.area.len) :
    sliceSegment s end_ (s.area.start + s.area.len - end_) s.area.prot ∈
        cutPieces mid start end_ s ∧
      SliceOf s start end_
        (sliceSegment s end_ (s.area.start + s.area.len - end_) s.area.prot) := by
  refine ⟨(mem_cutPieces hs).mpr (.inr ⟨by omega, by omega, .inr (.inr ⟨hright, rfl⟩)⟩), ?_⟩
  refine ⟨rfl, ?_, ?_, ?_, .inr (.inl rfl), .inl ?_⟩ <;> simp only [sliceSegment] <;> omega

/-- The kept parts of every segment lead to their old bytes only if the end of the range cuts
no private segment past its first page. -/
theorem samePage_of_ptrAt_unmapTable (hal : HalMemory) (hm : TableWellFormed m)
    (hst : ∀ (k : ℕ) (s : Segment), m[k]? = some s → StorageOk s) (hlen : 0 < len)
    (h : ∀ a p, ptrAt hal m a = some p → ¬ (start ≤ a ∧ a < start + len) →
      ptrAt hal (unmapTable m start len) a = some p) : SamePageAt m (start + len) := by
  intro k s hk howned hlt hgt
  obtain ⟨ht, hsl⟩ := right_piece (fun _ => []) (hm.fits hk) (by omega : start < _) hlt hgt
  exact samePage_of_piece hm (unmapPieces_cuts (by omega)) hk (hst k s hk) howned ⟨hlt.le, hgt⟩ ht
    hsl rfl fun p hp => h _ p hp (by omega)

theorem samePage_of_ptrAt_mprotectTable (hm : TableWellFormed m)
    (hst : ∀ (k : ℕ) (s : Segment), m[k]? = some s → StorageOk s) (hlen : 0 < len)
    (h : ∀ a p, ptrAt hal m a = some p → ptrAt hal (mprotectTable m addr len prot) a = some p) :
    SamePageAt m addr ∧ SamePageAt m (addr + len) := by
  have hlt : addr < addr + len := by omega
  constructor
  · intro k s hk howned hlt' hgt
    have harea := midSegment_extent prot hlt (hm.fits hk)
      (show ¬ addr + len ≤ s.area.start by omega) (by omega)
    have hsl : SliceOf s addr (addr + len) (midSegment addr (addr + len) prot s) := by
      refine ⟨rfl, ?_, ?_, ?_, ?_, ?_⟩ <;> rw [harea] <;> simp only <;> omega
    exact samePage_of_piece hm (mprotectPieces_cuts prot hlt) hk (hst k s hk) howned ⟨hlt'.le, hgt⟩
      (midSegment_mem (hm.fits hk) (by omega) (by omega)) hsl (by rw [harea]; simp only; omega) fun p hp => h _ p hp
  · intro k s hk howned hlt' hgt
    obtain ⟨ht, hsl⟩ := right_piece (fun s => [midSegment addr (addr + len) prot s]) (hm.fits hk) hlt
      hlt' hgt
    exact samePage_of_piece hm (mprotectPieces_cuts prot hlt) hk (hst k s hk) howned ⟨hlt'.le, hgt⟩
      ht hsl rfl fun p hp => h _ p hp

end Locations

def Overwrites (f : Memory → Memory) (g : ℕ → Option UInt8) : Prop :=
  ∀ mem x, f mem x = (g x).getD (mem x)

/-- Two locations hold equal bytes in every memory, one read after the overwriting, only if
they are one location the overwriting does not touch. -/
theorem overwrites_eq_iff (hf : Overwrites f g) :
    (∀ mem, f mem q = mem p) ↔ q = p ∧ g p = none := by
  constructor
  · intro h
    have hq : g q = none := by
      rcases hg : g q with _ | c
      · rfl
      have := h fun _ => c + 1
      rw [hf, hg] at this
      exact absurd this (by simp)
    have hpq : q = p := by
      by_contra hne
      have := h fun x => if x = p then 1 else 0
      rw [hf, hq] at this
      simp [hne] at this
    exact ⟨hpq, hpq ▸ hq⟩
  · rintro ⟨rfl, hg⟩ mem
    rw [hf, hg, Option.getD_none]

/-- The table and the memory a call leaves, whatever the memory was. -/
def Result (hal : HalMemory) (S : UserSpace) (x : Surgery) (m : Mappings)
    (f : Memory → Memory) : Prop :=
  ∀ mem, ∃ r N, exec hal (toCall x) ⟨S.inner, mem⟩ = some (r, N) ∧ N.space.mappings = m ∧
    N.mem = f mem

/-- A call keeps all contents when the bytes it does not replace keep their locations and the
locations are not overwritten. -/
theorem preserves_iff (hres : Result hal S x m f) (hm : TableWellFormed m) (hf : Overwrites f g) :
    (∀ mem, Preserves hal S mem x) ↔ ∀ a p, ptrAt hal S.inner.mappings a = some p → ¬ Affected x a →
        ptrAt hal m a = some p ∧ g p = none := by
  have hmapped : ∀ {n : Mappings}, TableWellFormed n → ∀ {a p}, ptrAt hal n a = some p →
      protOf n a ≠ none := by
    intro n hn a p hp
    obtain ⟨s, hs, _⟩ := (ptrAt_eq_some hn).mp hp
    exact (protOf_ne_none hn).mpr ⟨s, hs⟩
  constructor
  · intro h a p hp ha
    have hval : ∀ mem, (ptrAt hal m a).map (f mem) = some (mem p) := by
      intro mem
      obtain ⟨r, N, hx, hN, hmem⟩ := hres mem
      have hread := (h mem _ hx a (hmapped S.table hp) ha).2
      have := (readBytes_one_eq_iff hal (M := ⟨S.inner, mem⟩) (N := N) S.table (hN ▸ hm) a).mp hread
      rwa [hN, hmem, show ptrAt hal (Machine.space ⟨S.inner, mem⟩).mappings a = some p from hp] at this
    rcases hq : ptrAt hal m a with _ | q
    · have := hval fun _ => 0
      rw [hq] at this
      cases this
    obtain ⟨rfl, hg⟩ := (overwrites_eq_iff hf (p := p) (q := q)).mp fun mem => by
      have := hval mem
      rw [hq] at this
      exact some.inj this
    exact ⟨rfl, hg⟩
  · intro h mem o hx a hmap ha
    obtain ⟨r, N, hx', hN, hmem⟩ := hres mem
    obtain rfl := some.inj (hx.symm.trans hx')
    obtain ⟨s, hs⟩ := (protOf_ne_none S.table).mp hmap
    have hp := ptrAt_of_segmentAt hal S.table hs
    obtain ⟨hq, hg⟩ := h a _ hp ha
    refine ⟨hN ▸ hmapped hm hq, (readBytes_one_eq_iff hal (M := ⟨S.inner, mem⟩) (N := N) S.table
      (hN ▸ hm) a).mpr ?_⟩
    rw [hN, hmem, hq, show ptrAt hal (Machine.space ⟨S.inner, mem⟩).mappings a = _ from hp]
    simp only [Option.map_some, some.injEq]
    rw [hf, hg, Option.getD_none]

section Calls

theorem overwrites_id : Overwrites id fun _ => none := fun _ _ => rfl

theorem preserves_of_unchanged (hres : Result hal S x S.inner.mappings id) (mem : Memory) :
    Preserves hal S mem x :=
  (preserves_iff hres S.table overwrites_id).mpr (fun _ _ hp _ => ⟨hp, rfl⟩) mem

theorem result_intro (step : Machine → KernelResult Unit × Machine)
    (hx : ∀ M, exec hal (toCall x) M = some (withZero (step M)))
    (h : ∀ mem, (step ⟨S.inner, mem⟩).2.space.mappings = m ∧ (step ⟨S.inner, mem⟩).2.mem = f mem) :
    Result hal S x m f :=
  fun mem => ⟨_, _, hx ⟨S.inner, mem⟩, (h mem).1, (h mem).2⟩

theorem unmap_preserves_iff (hb : addr + pageUp len ≤ usizeMax) :
    (∀ mem, Preserves hal S mem (.unmap addr len)) ↔ SafeCut hal S (.unmap addr len) := by
  by_cases hlen : len = 0
  · refine iff_of_true (preserves_of_unchanged ?_) (.inl hlen)
    exact result_intro (unmap addr len) (fun _ => rfl) fun mem => by simp [unmap, hlen]
  have hpos : 0 < pageUp len := pageUp_pos (Nat.pos_of_ne_zero hlen)
  have hres : Result hal S (.unmap addr len)
      (unmapTable S.inner.mappings addr (pageUp len)) id := by
    refine result_intro (unmap addr len) (fun _ => rfl) fun mem => ?_
    obtain ⟨d, hd⟩ := unmap_ok ⟨S.inner, mem⟩ (Nat.pos_of_ne_zero hlen) hb
    rw [hd]
    exact ⟨rfl, rfl⟩
  rw [preserves_iff hres (unmapTable_wellFormed S.table hpos) overwrites_id]
  simp only [SafeCut, hlen, false_or, and_true]
  constructor
  · exact samePage_of_ptrAt_unmapTable hal S.table S.stored hpos
  · intro h a p hp ha
    exact ptrAt_unmapTable S.table S.stored hpos h hp ha

theorem mprotect_preserves_iff (hb : addr + pageUp len ≤ usizeMax) :
    (∀ mem, Preserves hal S mem (.mprotect addr len prot)) ↔
      SafeCut hal S (.mprotect addr len prot) := by
  by_cases hlen : len = 0
  · refine iff_of_true (preserves_of_unchanged ?_) (.inl hlen)
    exact result_intro (mprotect addr len prot) (fun _ => rfl) fun mem => by simp [mprotect, hlen]
  have hpos : 0 < pageUp len := pageUp_pos (Nat.pos_of_ne_zero hlen)
  have hres : Result hal S (.mprotect addr len prot)
      (mprotectTable S.inner.mappings addr (pageUp len) prot) id := by
    refine result_intro (mprotect addr len prot) (fun _ => rfl) fun mem => ?_
    rw [mprotect_ok ⟨S.inner, mem⟩ prot (Nat.pos_of_ne_zero hlen) hb]
    exact ⟨rfl, rfl⟩
  rw [preserves_iff hres (mprotectTable_wellFormed S.table hpos) overwrites_id]
  simp only [SafeCut, hlen, false_or, and_true]
  constructor
  · intro h
    exact samePage_of_ptrAt_mprotectTable S.table S.stored hpos fun a p hp => h a p hp id
  · intro h a p hp _
    exact ptrAt_mprotectTable S.table S.stored hpos h.1 h.2 hp

/-- Placing a segment keeps the locations outside it exactly when its end cuts no private
segment past the first page. -/
theorem place_locations_iff (hal : HalMemory) (S : UserSpace) (hs : Fits segmentExtent usizeMax s) :
    (∀ a p, ptrAt hal S.inner.mappings a = some p →
      ¬ (s.area.start ≤ a ∧ a < s.area.start + s.area.len) →
      ptrAt hal (placeSegment S.inner.mappings s) a = some p) ↔
    SamePageAt S.inner.mappings (s.area.start + s.area.len) := by
  have hpos : 0 < s.area.len := hs.1
  constructor
  · intro h
    refine samePage_of_ptrAt_unmapTable hal S.table S.stored hpos fun a p hp ha => ?_
    rw [← ptrAt_placeSegment S.table hs ha]
    exact h a p hp ha
  · intro h a p hp ha
    rw [ptrAt_placeSegment S.table hs ha]
    exact ptrAt_unmapTable S.table S.stored hpos h hp ha

/-- The data a fixed mapping stores: the given bytes and zeros. -/
def fixedData (bytes : List UInt8) (memLen : ℕ) : List UInt8 :=
  bytes ++ List.replicate (memLen - bytes.length) 0

theorem fixedData_length (h : ¬ Refused heap bytes memLen) :
    (fixedData bytes memLen).length = memLen := by
  simp only [Refused] at h
  simp only [fixedData, List.length_append, List.length_replicate]
  omega

theorem result_refused
    (hx : ∀ M, exec hal (toCall x) M =
      some (withZero (mapFixedBytesBy place heap addr bytes memLen prot M)))
    (href : Refused heap bytes memLen) : Result hal S x S.inner.mappings id := by
  refine result_intro _ hx fun mem => ?_
  unfold mapFixedBytesBy
  split
  · exact ⟨rfl, rfl⟩
  next hok =>
  have hreserve := or_assoc.mpr href |>.resolve_left hok
  simp [hreserve]

theorem result_placed
    (hx : ∀ M, exec hal (toCall x) M =
      some (withZero (mapFixedBytesBy place heap addr bytes memLen prot M)))
    (href : ¬ Refused heap bytes memLen) {r : Memory → KernelResult Unit} {N : Memory → Machine}
    (h : ∀ mem, place addr (fixedData bytes memLen) prot ⟨S.inner, mem⟩ = (r mem, N mem))
    (hN : ∀ mem, (N mem).space.mappings = m ∧ (N mem).mem = f mem) : Result hal S x m f := by
  refine result_intro _ hx fun mem => ?_
  simp only [Refused, not_or, Bool.not_eq_false] at href
  rw [mapFixedBytesBy, if_neg (by omega), if_pos href.2.2, ← fixedData, h]
  exact hN mem

def copied (ptr : ℕ) (data : List UInt8) (x : ℕ) : Option UInt8 :=
  if ptr ≤ x then data[x - ptr]? else none

theorem copied_eq_none {ptr x : ℕ} :
    copied ptr data x = none ↔ ¬ (ptr ≤ x ∧ x < ptr + data.length) := by
  unfold copied
  split
  · rw [List.getElem?_eq_none_iff]
    omega
  · simp
    omega

theorem copyBytes_apply (mem : Memory) (ptr : ℕ) (data : List UInt8) (x : ℕ) :
    copyBytes mem ptr data x = (copied ptr data x).getD (mem x) := by
  simp only [copyBytes, copied]
  split <;> rfl

theorem overwrites_copyBytes (ptr : ℕ) (data : List UInt8) :
    Overwrites (fun mem => copyBytes mem ptr data) (copied ptr data) :=
  fun mem x => copyBytes_apply mem ptr data x

theorem mapFixedBytes_preserves_iff (hb : addr + memLen ≤ usizeMax) :
    (∀ mem, Preserves hal S mem (.mapFixedBytes heap addr bytes memLen prot)) ↔
      SafeCut hal S (.mapFixedBytes heap addr bytes memLen prot) := by
  by_cases href : Refused heap bytes memLen
  · exact iff_of_true (preserves_of_unchanged (result_refused (fun _ => rfl) href)) (.inl href)
  have hlen := fixedData_length href
  have hpos : 0 < memLen := Nat.pos_of_ne_zero fun h => href (.inl h)
  have hcases := fun mem => mapOwned_cases hal heap addr (fixedData bytes memLen) prot
    (M := ⟨S.inner, mem⟩) S.table (by rw [hlen, Nat.max_eq_left hpos]; exact hb)
  rw [hlen, Nat.max_eq_left hpos, storedData_of_pos (by omega)] at hcases
  by_cases hroom : Room S.inner.frameAllocator (pagesTaken addr memLen)
  · have hs : Fits segmentExtent usizeMax
        (ownedSegment heap S.inner.frameAllocator addr memLen prot) := ⟨hpos, hb⟩
    have hres : Result hal S (.mapFixedBytes heap addr bytes memLen prot)
        (placeSegment S.inner.mappings
          (ownedSegment heap S.inner.frameAllocator addr memLen prot)) fun mem =>
        copyBytes mem (copyTarget hal S.inner.frameAllocator addr) (fixedData bytes memLen) :=
      result_placed (fun _ => rfl) href
        (fun mem => ((hcases mem).resolve_right fun h => h.1 hroom).2) fun _ => ⟨rfl, rfl⟩
    rw [preserves_iff hres (placeSegment_wellFormed S.table hs) (overwrites_copyBytes _ _)]
    have hplace := place_locations_iff hal S hs
    simp only [ownedSegment] at hplace
    simp only [SafeCut, href, hroom, not_true, false_or, ← hplace, copied_eq_none, hlen]
    constructor
    · intro h
      exact ⟨fun a p hp ha => (h a p hp ha).1, fun a p hp ha => (h a p hp ha).2⟩
    · intro h a p hp ha
      exact ⟨h.1 a p hp ha, h.2 a p hp ha⟩
  · choose _ k _ hd using fun mem => (hcases mem).resolve_left fun h => hroom h.1
    exact iff_of_true (preserves_of_unchanged
      (result_placed (fun _ => rfl) href hd fun _ => ⟨rfl, rfl⟩)) (.inr (.inl hroom))

theorem bufferLen_eq (h : BufferFits heap addr len) :
    bufferLen addr len = pageUp (pageOffset addr + len) + pageSize := by
  unfold BufferFits at h
  have hle := le_pageUp (pageOffset addr + len)
  unfold bufferLen storageLen
  rw [wrappingAdd_of_le (show pageOffset addr + len ≤ usizeMax by omega), alignUp_page (by omega),
    wrappingAdd_of_le (by omega)]

/-- What making a shared buffer writes. -/
def bufferBytes (heap : Heap) (addr : ℕ) (data : List UInt8) (x : ℕ) : Option UInt8 :=
  (copied (sharedPtr heap addr) data x).or
    (copied heap.vecPtr (List.replicate (bufferLen addr data.length) 0) x)

theorem overwrites_sharedMemory (heap : Heap) (addr : ℕ) (data : List UInt8)
    (hpos : 0 < data.length) :
    Overwrites (sharedMemory heap addr data) (bufferBytes heap addr data) := by
  intro mem x
  rw [sharedMemory, Nat.max_eq_left hpos, storedData_of_pos hpos, bufferBytes,
    copyBytes_apply, copyBytes_apply]
  cases copied (sharedPtr heap addr) data x <;> simp

theorem bufferBytes_outside {x : ℕ} (hfits : BufferFits heap addr data.length)
    (hx : ¬ (heap.vecPtr ≤ x ∧
      x < heap.vecPtr + pageUp (pageOffset addr + data.length) + pageSize)) :
    bufferBytes heap addr data x = none := by
  have hptr := sharedPtr_bounds hfits
  have hinner : copied (sharedPtr heap addr) data x = none := copied_eq_none.mpr (by omega)
  have houter : copied heap.vecPtr (List.replicate (bufferLen addr data.length) 0) x = none := by
    rw [copied_eq_none, List.length_replicate, bufferLen_eq hfits]
    omega
  rw [bufferBytes, hinner, houter]
  rfl

theorem mapFixedSharedBytes_preserves_iff (hb : addr + memLen ≤ usizeMax)
    (hfresh : BufferFresh hal S heap addr memLen) :
    (∀ mem, Preserves hal S mem (.mapFixedSharedBytes heap addr bytes memLen prot)) ↔
      SafeCut hal S (.mapFixedSharedBytes heap addr bytes memLen prot) := by
  by_cases href : Refused heap bytes memLen
  · exact iff_of_true (preserves_of_unchanged (result_refused (fun _ => rfl) href)) (.inl href)
  have hlen := fixedData_length href
  have hpos : 0 < memLen := Nat.pos_of_ne_zero fun h => href (.inl h)
  have hok := fun mem => mapShared_ok heap addr (fixedData bytes memLen) prot
    (M := ⟨S.inner, mem⟩) S.table (by rw [hlen, Nat.max_eq_left hpos]; exact hb)
  rw [hlen, Nat.max_eq_left hpos] at hok
  have hs : Fits segmentExtent usizeMax (sharedSegment heap addr memLen prot) := ⟨hpos, hb⟩
  rw [preserves_iff (result_placed (fun _ => rfl) href hok fun _ => ⟨rfl, rfl⟩)
    (placeSegment_wellFormed S.table hs)
    (overwrites_sharedMemory heap addr (fixedData bytes memLen) (by omega))]
  have hplace := place_locations_iff hal S hs
  simp only [sharedSegment] at hplace
  simp only [SafeCut, href, false_or, ← hplace]
  constructor
  · intro h a p hp ha
    exact (h a p hp ha).1
  · intro h a p hp ha
    exact ⟨h a p hp ha, bufferBytes_outside (by rw [hlen]; exact hfresh.1)
      (by rw [hlen]; exact hfresh.2 a p hp)⟩

end Calls

/-- Calls made one after the other, each admissible and safe in the space before it. -/
inductive SafeRun (hal : HalMemory) : UserSpace → Memory → List Surgery → UserSpace → Memory → Prop
  where
  | nil (S : UserSpace) (mem : Memory) : SafeRun hal S mem [] S mem
  | cons {S T U : UserSpace} {mem mem₁ mem₂ : Memory} {x : Surgery} {xs : List Surgery}
      {r : KernelResult ℕ} (hadm : Admissible hal S x) (hsafe : SafeCut hal S x)
      (hx : exec hal (toCall x) ⟨S.inner, mem⟩ = some (r, ⟨T.inner, mem₁⟩))
      (rest : SafeRun hal T mem₁ xs U mem₂) : SafeRun hal S mem (x :: xs) U mem₂

theorem preserves_iff_safeCut (h : Admissible hal S x) :
    (∀ mem, Preserves hal S mem x) ↔ SafeCut hal S x := by
  cases x with
  | unmap addr len => exact unmap_preserves_iff h.noWrap
  | mprotect addr len prot => exact mprotect_preserves_iff h.noWrap
  | mapFixedBytes heap addr bytes memLen prot => exact mapFixedBytes_preserves_iff h.noWrap
  | mapFixedSharedBytes heap addr bytes memLen prot =>
    exact mapFixedSharedBytes_preserves_iff h.noWrap (h.fresh _ _ _ _ _ rfl)

theorem safeRun_preserves {mem mem₁ : Memory} {xs : List Surgery} (h : SafeRun hal S mem xs U mem₁)
    (hmapped : protOf S.inner.mappings a ≠ none) (ha : ∀ x ∈ xs, ¬ Affected x a) :
    protOf U.inner.mappings a ≠ none ∧
      ∀ heap, readBytes hal heap a 1 ⟨U.inner, mem₁⟩ = readBytes hal heap a 1 ⟨S.inner, mem⟩ := by
  induction h with
  | nil => exact ⟨hmapped, fun _ => rfl⟩
  | cons hadm hsafe hx _ ih =>
    obtain ⟨hstill, hsame⟩ := (preserves_iff_safeCut hadm).mpr hsafe _ _ hx a hmapped
      (ha _ List.mem_cons_self)
    obtain ⟨hend, hread⟩ := ih hstill fun x hx => ha x (List.mem_cons_of_mem _ hx)
    exact ⟨hend, fun heap => (hread heap).trans (hsame heap)⟩

/-- One admissible call keeps all contents whatever the memory holds exactly when it is a safe
cut; and in every sequence of safe cuts each byte that no call replaces stays mapped and reads
the same. -/
theorem contents_survive_iff (hal : HalMemory) :
    (∀ S x, Admissible hal S x → ((∀ mem, Preserves hal S mem x) ↔ SafeCut hal S x)) ∧
    ∀ S mem xs U mem₁, SafeRun hal S mem xs U mem₁ →
      ∀ a, protOf S.inner.mappings a ≠ none → (∀ x ∈ xs, ¬ Affected x a) →
        protOf U.inner.mappings a ≠ none ∧
        ∀ heap, readBytes hal heap a 1 ⟨U.inner, mem₁⟩ = readBytes hal heap a 1 ⟨S.inner, mem⟩ :=
  ⟨fun _ _ h => preserves_iff_safeCut h, fun _ _ _ _ _ h _ hm ha => safeRun_preserves h hm ha⟩

/-- Two private pages whose first byte is 1 and whose second page is zero. -/
def twoPages : Machine :=
  (mapFixedBytes board boardHeap 0x10000 [1] 0x2000 3 ⟨newUser board, fun _ => 0⟩).2

/-- Unmapping the first page moves the bytes of the first frame under the second page. -/
theorem unmap_moves_contents : readBytes board boardHeap 0x11000 1 twoPages = .ok [0] ∧
    readBytes board boardHeap 0x11000 1 (unmap 0x10000 0x1000 twoPages).2 = .ok [1] := by
  decide +kernel

end MappingContents
