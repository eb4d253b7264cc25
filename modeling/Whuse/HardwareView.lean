import Whuse.MemoryCalls
import Whuse.PageTableWalk
import Whuse.UserMemory

/-! The view the hardware has of user memory on riscv64, against the view of the kernel. The
page table is built from the segments of the space; the kernel reads through the segments
themselves. Both agree on spaces whose segments are paged; calls made with care keep them so. -/
namespace HardwareView

open Option
open Std (ExtTreeMap)
open MachineWord IntervalTable AddressSpace CallRuns MappingTable OwnedMapping CallEffects List
  ProtectionMap UserMemory PagedView PageTables PageTableWalk MemoryCalls

/-- The riscv64 board: the end of the kernel image is rounded up to a page. -/
def riscvBoard (imageEnd : ℕ) : HalMemory := riscvVirtMemory (alignUp imageEnd pageSize)

/-- The segments in the order of their keys. -/
def inOrder (m : Mappings) : List Segment := m.toList.map Prod.snd

/-- An Sv39 address is the sign extension of its low 39 bits; others fault. -/
def hardwareTranslate (boxes : BoxPages) (S : AddressSpaceInner) (v : ℕ) : Option Leaf :=
  if v < 2 ^ 38 ∨ 2 ^ 64 - 2 ^ 38 ≤ v then
    riscvTranslate (buildRiscvPageTable boxes (inOrder S.mappings)) (v % 2 ^ 39)
  else none

/-- User mode may use the leaf at all: W without R is a reserved encoding, which faults. -/
def UserAccessible (l : Leaf) : Prop :=
  l.flags &&& riscvPteU ≠ 0 ∧ (l.flags &&& riscvPteW ≠ 0 → l.flags &&& riscvPteR ≠ 0)

def protWrite : ℕ := 0b010
def protExec : ℕ := 0b100

structure ViewsAgree (hal : HalMemory) (boxes : BoxPages) (M : Machine) : Prop where
  read : ∀ heap a b, a ≤ usizeMax → readBytes hal heap a 1 M = .ok [b] →
    ∃ l, hardwareTranslate boxes M.space a = some l ∧ UserAccessible l ∧
      ptrAt hal M.space.mappings a = some (hal.physToVirt (l.translate a)) ∧
      M.mem (hal.physToVirt (l.translate a)) = b
  permission : ∀ a s l, SegmentAt M.space.mappings a s →
    hardwareTranslate boxes M.space a = some l →
    (l.flags &&& riscvPteW ≠ 0 → s.area.prot &&& protWrite ≠ 0) ∧
      (l.flags &&& riscvPteX ≠ 0 → s.area.prot &&& protExec ≠ 0)
  unmapped : ∀ a, a ≤ usizeMax → (∀ b s, b / pageSize = a / pageSize → ¬ SegmentAt M.space.mappings b s) →
    ∀ l, hardwareTranslate boxes M.space a = some l → ¬ UserAccessible l

/-- The pages of a range lie below the user bound and outside the two kernel windows. -/
def OutsideWindows (start end_ : ℕ) : Prop :=
  end_ ≤ 0x02000000 ∨ (0x20000000 ≤ start ∧ end_ ≤ 0x80000000) ∨
    (0x100000000 ≤ start ∧ end_ ≤ 2 ^ 38)

instance (start end_ : ℕ) : Decidable (OutsideWindows start end_) :=
  inferInstanceAs (Decidable (_ ∨ _))

/-- Something may be done with the memory, and reading is among it. -/
def Usable (prot : ℕ) : Prop := prot &&& 0b101 ≠ 0

instance (prot : ℕ) : Decidable (Usable prot) := inferInstanceAs (Decidable (_ ≠ _))

/-- Whole frames of physical memory behind the pages of a segment. -/
def StoragePaged (s : Segment) : Prop :=
  match s.storage with
  | .owned frames => frames.inner.physBase % pageSize = 0 ∧
    frames.inner.physBase + (pageUp (s.area.start + s.area.len) - s.area.start) ≤ 2 ^ 48
  | .shared _ ptr => ptr % pageSize = 0 ∧
    ptr + (pageUp (s.area.start + s.area.len) - s.area.start) ≤ 2 ^ 48
  | .host _ _ => False

structure PagedSegment (s : Segment) : Prop where
  pos : 0 < s.area.len
  aligned : s.area.start % pageSize = 0
  outside : OutsideWindows s.area.start (pageUp (s.area.start + s.area.len))
  usable : Usable s.area.prot
  storage : StoragePaged s

variable {S : AddressSpaceInner} {s p : Segment} {end_ k start v prot a n len : ℕ} {m : Mappings}

theorem OutsideWindows.below (h : OutsideWindows start (pageUp end_)) : end_ ≤ 2 ^ 38 := by
  have hle := le_pageUp end_
  rcases h with h | ⟨-, h⟩ | ⟨-, h⟩ <;> omega

theorem PagedSegment.below (h : PagedSegment s) :
    s.area.start + s.area.len ≤ 2 ^ 38 := h.outside.below

theorem PagedSegment.range (h : PagedSegment s) :
    segmentStart s = s.area.start ∧ segmentEnd s = pageUp (s.area.start + s.area.len) := by
  have hbelow := h.below
  have haligned := h.aligned
  have hpage : pageSize = 4096 := rfl
  rw [hpage] at haligned
  constructor
  · rw [segmentStart_eq (by unfold usizeMax; omega)]
    omega
  · rw [segmentEnd_eq (by unfold usizeMax; omega)]
    rfl

/-- The frames of a segment start where the kernel finds its first byte. -/
theorem PagedSegment.physBase (h : PagedSegment s) (imageEnd : ℕ) :
    segmentPhysBase s = some (dataPtr (riscvBoard imageEnd) s) ∧
      dataPtr (riscvBoard imageEnd) s % pageSize = 0 ∧
      dataPtr (riscvBoard imageEnd) s +
        (pageUp (s.area.start + s.area.len) - s.area.start) ≤ 2 ^ 48 := by
  have hoffset : pageOffset s.area.start = 0 := by rw [pageOffset_eq_mod, h.aligned]
  have hstorage := h.storage
  unfold StoragePaged at hstorage
  unfold segmentPhysBase dataPtr
  cases hst : s.storage with
  | owned frames =>
    simp only [hst] at hstorage
    simp only [hoffset]
    exact ⟨rfl, hstorage⟩
  | shared bytes ptr =>
    simp only [hst] at hstorage
    simp only [hoffset, Nat.sub_zero]
    exact ⟨trivial, hstorage⟩
  | host ptr len => simp [hst] at hstorage

theorem PagedSegment.segmentOk (h : PagedSegment s) :
    SegmentOk (2 ^ 39) 0x80000000 0x100000000 s := by
  have hbelow := h.below
  have houtside := h.outside
  obtain ⟨hstart, hend⟩ := h.range
  obtain ⟨hbase, haligned, hfits⟩ := h.physBase 0
  have hle := le_pageUp (s.area.start + s.area.len)
  have hpos := h.pos
  refine ⟨by omega, fun p hp => ?_, fun p _ hwindow => ?_⟩
  · rw [hbase] at hp
    cases hp
    rw [hstart, hend]
    exact ⟨haligned, hfits⟩
  · unfold OutsideWindows at houtside
    omega

structure PagedSpace (S : AddressSpaceInner) : Prop where
  ok : SpaceOk S
  paged : ∀ (k : ℕ) (s : Segment), S.mappings[k]? = some s → PagedSegment s

def Footprint (s : Segment) (v : ℕ) : Prop :=
  s.area.start ≤ v ∧ v < pageUp (s.area.start + s.area.len)

theorem mem_inOrder : s ∈ inOrder m ↔ ∃ k : ℕ, m[k]? = some s := by
  rw [inOrder, List.mem_map]
  constructor
  · rintro ⟨⟨k, t⟩, ht, rfl⟩
    exact ⟨k, ExtTreeMap.mem_toList_iff_getElem?_eq_some.mp ht⟩
  · rintro ⟨k, hk⟩
    exact ⟨(k, s), ExtTreeMap.mem_toList_iff_getElem?_eq_some.mpr hk, rfl⟩

section Views

variable (hS : PagedSpace S)

include hS

theorem footprint_le {l : ℕ} {t : Segment} (hs : S.mappings[k]? = some s)
    (ht : S.mappings[l]? = some t) (hle : s.area.start ≤ t.area.start) (hsv : Footprint s v)
    (htv : Footprint t v) : s = t := by
  have hm := hS.ok.table
  by_cases hmeet : t.area.start < s.area.start + s.area.len
  · have hpos := (hS.paged l t ht).pos
    have hkl := hm.disjoint k l s t t.area.start hs ht
      (covers_iff.mpr ⟨hle, hmeet⟩) (covers_iff.mpr ⟨le_rfl, by omega⟩)
    subst hkl
    rw [hs] at ht
    exact some.inj ht
  · -- the pages of the first end where the second starts, at the latest
    have haligned := (hS.paged l t ht).aligned
    obtain ⟨-, hlt⟩ := hsv
    obtain ⟨hge, -⟩ := htv
    have hpage : pageSize = 4096 := rfl
    unfold pageUp at hlt
    rw [hpage] at haligned hlt
    omega

theorem lastSegment_eq (hs : S.mappings[k]? = some s) (hv : Footprint s v) :
    lastSegment (inOrder S.mappings) v = some s := by
  obtain ⟨hstart, hend⟩ := (hS.paged k s hs).range
  have hmem : s ∈ (inOrder S.mappings).filter fun s => (segmentPhysBase s).isSome :=
    mem_filter.mpr ⟨mem_inOrder.mpr ⟨k, hs⟩, by rw [((hS.paged k s hs).physBase 0).1]; rfl⟩
  rcases hlast : lastSegment (inOrder S.mappings) v with _ | t
  · have hno := find?_eq_none.mp hlast s (mem_reverse.mpr hmem)
    rw [hstart, hend, Bool.and_eq_true, decide_eq_true_eq, decide_eq_true_eq] at hno
    exact absurd hv hno
  obtain ⟨hmem', hcov⟩ := lastCovering_some hlast
  obtain ⟨l, ht⟩ := mem_inOrder.mp (mem_filter.mp hmem').1
  obtain ⟨hstart', hend'⟩ := (hS.paged l t ht).range
  rw [hstart', hend'] at hcov
  rcases le_total s.area.start t.area.start with hle | hle
  · rw [footprint_le hS hs ht hle hv hcov]
  · rw [footprint_le hS ht hs hle hcov hv]

theorem lastSegment_none (h : ∀ (k : ℕ) (s : Segment), S.mappings[k]? = some s → ¬ Footprint s v) :
    lastSegment (inOrder S.mappings) v = none := by
  rcases hlast : lastSegment (inOrder S.mappings) v with _ | t
  · rfl
  obtain ⟨hmem, hcov⟩ := lastCovering_some hlast
  obtain ⟨l, ht⟩ := mem_inOrder.mp (mem_filter.mp hmem).1
  obtain ⟨hstart, hend⟩ := (hS.paged l t ht).range
  rw [hstart, hend] at hcov
  exact absurd hcov (h l t ht)

theorem values_ok : ∀ s ∈ (inOrder S.mappings), SegmentOk (2 ^ 39) 0x80000000 0x100000000 s := by
  intro s hs
  obtain ⟨k, hk⟩ := mem_inOrder.mp hs
  exact (hS.paged k s hk).segmentOk

variable {boxes : BoxPages} (hheld : boxes.Held (buildRiscvPageTable boxes (inOrder S.mappings)))

include hheld

/-- On a page of a segment the hardware finds the frame the kernel reads. -/
theorem translate_segment (imageEnd : ℕ) (hs : S.mappings[k]? = some s) (hv : Footprint s v) :
    hardwareTranslate boxes S v =
      some ⟨2 ^ 12, dataPtr (riscvBoard imageEnd) s + (v / 2 ^ 12 * 2 ^ 12 - s.area.start),
        riscvSegmentPteFlags s.area.prot ||| riscvPteV⟩ := by
  have hpaged := hS.paged k s hs
  obtain ⟨hge, hlt⟩ := hv
  have houtside := hpaged.outside
  unfold OutsideWindows at houtside
  have hbound : v < 2 ^ 38 := by omega
  have hresult := riscv_walkResult boxes (values_ok hS) (show v < 2 ^ 39 by omega) hheld
  obtain ⟨p, hp, heq⟩ := hresult.segment (by
    intro w hw
    simp only [riscvWindows, riscvMmioBase, riscvMmioSize, mem_cons, not_mem_nil, or_false] at hw
    rcases hw with rfl | rfl <;> simp only <;> omega) s (lastSegment_eq hS hs ⟨hge, hlt⟩)
  rw [(hpaged.physBase imageEnd).1] at hp
  cases hp
  rw [hpaged.range.1] at heq
  rw [hardwareTranslate, if_pos (.inl hbound), Nat.mod_eq_of_lt (by omega)]
  exact heq

/-- Off the pages of all segments the hardware finds no leaf for user mode. -/
theorem translate_other
    (h : ∀ (k : ℕ) (s : Segment), S.mappings[k]? = some s → ¬ Footprint s (v % 2 ^ 39)) {l : Leaf}
    (hl : hardwareTranslate boxes S v = some l) : l.flags &&& riscvPteU = 0 := by
  rw [hardwareTranslate] at hl
  split at hl
  · have hresult := riscv_walkResult boxes (values_ok hS)
      (Nat.mod_lt v (show 0 < 2 ^ 39 by decide)) hheld
    by_cases hwindow : ∃ w ∈ riscvWindows, w.lo ≤ v % 2 ^ 39 ∧ v % 2 ^ 39 < w.hi
    · obtain ⟨w, hw, hlo, hhi⟩ := hwindow
      obtain ⟨l', hl', -, -, -, huser⟩ := hresult.window w hw hlo hhi
      rw [hl] at hl'
      cases hl'
      exact huser
    · have hnone := hresult.nothing (fun w hw hcov => hwindow ⟨w, hw, hcov⟩) (lastSegment_none hS h)
      rw [hl] at hnone
      cases hnone
  · cases hl

end Views

theorem usable_flags (h : Usable prot) :
    (riscvSegmentPteFlags prot ||| riscvPteV) &&& riscvPteU ≠ 0 ∧
      (riscvSegmentPteFlags prot ||| riscvPteV) &&& riscvPteR ≠ 0 ∧
      ((riscvSegmentPteFlags prot ||| riscvPteV) &&& riscvPteW ≠ 0 → prot &&& protWrite ≠ 0) ∧
      ((riscvSegmentPteFlags prot ||| riscvPteV) &&& riscvPteX ≠ 0 → prot &&& protExec ≠ 0) := by
  have hsplit : prot &&& 0b101 = (prot &&& 0b001) ||| (prot &&& 0b100) := by
    rw [← Nat.and_or_distrib_left]
    rfl
  have hread : ((prot &&& 0b001 != 0) || (prot &&& 0b100 != 0)) = true := by
    rw [Bool.or_eq_true, bne_iff_ne, bne_iff_ne]
    by_contra hno
    rw [not_or, not_not, not_not] at hno
    exact h (by rw [hsplit, hno.1, hno.2, Nat.or_self])
  rw [← bne_iff_ne (a := prot &&& protWrite), ← bne_iff_ne (a := prot &&& protExec)]
  change _ ∧ _ ∧ (_ → (prot &&& 0b010 != 0) = true) ∧ (_ → (prot &&& 0b100 != 0) = true)
  unfold riscvSegmentPteFlags
  generalize (prot &&& 0b001 != 0) = read, (prot &&& 0b010 != 0) = write,
    (prot &&& 0b100 != 0) = exec at hread ⊢
  revert read write exec
  decide

theorem segmentAt_footprint (h : SegmentAt m a s) : ∃ k : ℕ, m[k]? = some s ∧ Footprint s a := by
  obtain ⟨k, hk, hcov⟩ := h
  obtain ⟨hle, hlt⟩ := covers_iff.mp hcov
  exact ⟨k, hk, hle, hlt.trans_le (le_pageUp _)⟩

theorem not_footprint (hS : PagedSpace S) (hs : S.mappings[k]? = some s)
    (h : ∀ b s, b / pageSize = a / pageSize → ¬ SegmentAt S.mappings b s) : ¬ Footprint s a := by
  rintro ⟨hle, hlt⟩
  have haligned := (hS.paged k s hs).aligned
  have hpage : pageSize = 4096 := rfl
  -- the first byte of the page is inside: the segment starts on a page boundary
  refine h (a / pageSize * pageSize) s (Nat.mul_div_cancel _ (by decide))
    ⟨k, hs, covers_iff.mpr ?_⟩
  unfold pageUp at hlt
  rw [hpage] at haligned hlt ⊢
  omega

theorem viewsAgree_of_paged (hS : PagedSpace S) (imageEnd : ℕ) {boxes : BoxPages}
    (hheld : boxes.Held (buildRiscvPageTable boxes (inOrder S.mappings))) (mem : Memory) :
    ViewsAgree (riscvBoard imageEnd) boxes ⟨S, mem⟩ := by
  have hm := hS.ok.table
  constructor
  · intro heap a b _ hread
    rw [readBytes_one _ _ hm] at hread
    rcases hptr : ptrAt (riscvBoard imageEnd) S.mappings a with _ | p
    · rw [hptr] at hread
      split at hread <;> cases hread
    obtain ⟨s, hat, hbyte⟩ := (ptrAt_eq_some hm).mp hptr
    obtain ⟨k, hk, hfoot⟩ := segmentAt_footprint hat
    have hpaged := hS.paged k s hk
    obtain ⟨hU, hR, -⟩ := usable_flags hpaged.usable
    have hbelow : a / 2 ^ 12 * 2 ^ 12 - s.area.start + a % 2 ^ 12 = a - s.area.start := by
      have haligned : s.area.start % 4096 = 0 := hpaged.aligned
      have hle : s.area.start ≤ a := hfoot.1
      omega
    refine ⟨_, translate_segment hS hheld imageEnd hk hfoot, ⟨hU, fun _ => hR⟩, ?_, ?_⟩ <;>
      rw [Leaf.translate, Nat.add_assoc, hbelow]
    · exact congrArg some hbyte.symm
    · have hval : mem p = b := by
        rw [hptr] at hread
        split at hread
        · simpa using hread
        · cases hread
      rw [← hval, ← hbyte]
      rfl
  · intro a s l hat hl
    obtain ⟨k, hk, hfoot⟩ := segmentAt_footprint hat
    rw [translate_segment hS hheld imageEnd hk hfoot] at hl
    cases hl
    exact (usable_flags (hS.paged k s hk).usable).2.2
  · intro a ha hno l hl hacc
    refine hacc.1 (translate_other hS hheld ?_ hl)
    intro k s hk hfoot
    by_cases hlow : a < 2 ^ 38
    · rw [Nat.mod_eq_of_lt (by omega)] at hfoot
      exact not_footprint hS hk hno hfoot
    -- the upper half of the address space lies above every segment
    have hbound := hS.paged k s hk
    have houtside := hbound.outside
    obtain ⟨-, hlt⟩ := hfoot
    rw [hardwareTranslate] at hl
    split at hl
    · rename_i hcanon
      unfold OutsideWindows at houtside
      unfold usizeMax at ha
      omega
    · cases hl

def NotStraddled (S : AddressSpaceInner) (edge : ℕ) : Prop :=
  ∀ s ∈ inOrder S.mappings, ¬ (s.area.start < edge ∧ edge < s.area.start + s.area.len)

instance (S : AddressSpaceInner) (edge : ℕ) : Decidable (NotStraddled S edge) :=
  inferInstanceAs (Decidable (∀ s ∈ inOrder S.mappings, _))

/-- Where a mapping may be placed, and with which protection. -/
structure PlaceOk (S : AddressSpaceInner) (start len prot : ℕ) : Prop where
  aligned : start % pageSize = 0
  outside : OutsideWindows start (pageUp (start + len))
  usable : Usable prot
  edge : (start + len) % pageSize = 0 ∨ NotStraddled S (start + len)

def BufferLow (heap : Heap) (start len : ℕ) : Prop :=
  sharedPtr heap start + (pageUp (start + len) - start) ≤ 2 ^ 48

/-- The calls after which both views still agree. -/
def CallOk (S : AddressSpaceInner) : Call → Prop
  | .mapAnonymous _ fuel len prot =>
    ∀ start ∈ foundStart S fuel len, PlaceOk S start (pageUp len) prot
  | .mapAnonymousShared heap fuel len prot =>
    ∀ start ∈ foundStart S fuel len,
      PlaceOk S start (pageUp len) prot ∧ BufferLow heap start (pageUp len)
  | .mapAnonymousAt _ addr len prot => PlaceOk S addr (pageUp len) prot
  | .mapAnonymousSharedAt heap addr len prot =>
    PlaceOk S addr (pageUp len) prot ∧ BufferLow heap addr (pageUp len)
  | .mapFixedBytes _ addr _ memLen prot => PlaceOk S addr memLen prot
  | .mapFixedSharedBytes heap addr _ memLen prot =>
    PlaceOk S addr memLen prot ∧ BufferLow heap addr memLen
  | .mapSharedExisting addr data prot => PlaceOk S addr (max data.inner.len 1) prot
  | .installHostRange _ _ _ => False
  | .unmap addr _ => addr % pageSize = 0
  | .mprotect addr _ prot => addr % pageSize = 0 ∧ Usable prot
  | .brk _ (some requested) => pageUp S.programBreak < pageUp requested →
    OutsideWindows (pageUp S.programBreak) (pageUp requested)
  | _ => True

def Careful (W : World) : Event → Prop
  | .call i c => NoWrap c ∧ ∀ S ∈ W.spaces[i]?, CallOk S c
  | _ => True

/-- The allocator hands out whole frames of a region of physical memory. -/
structure PagedAllocator (fa : FrameAllocator) : Prop where
  aligned : fa.next % pageSize = 0
  bounded : fa.next < fa.end_ → fa.end_ ≤ 2 ^ 48

structure Paged (S : AddressSpaceInner) : Prop where
  space : PagedSpace S
  allocator : PagedAllocator S.frameAllocator

theorem pageUp_mod (n : ℕ) : pageUp n % pageSize = 0 := Nat.mul_mod_left _ _

theorem aligned_add_pageUp (h : start % pageSize = 0) (n : ℕ) :
    (start + pageUp n) % pageSize = 0 := by
  rw [Nat.add_mod, pageUp_mod, h, Nat.zero_mod]

theorem pageUp_of_aligned (h : n % pageSize = 0) : pageUp n = n := by
  have hpage : pageSize = 4096 := rfl
  unfold pageUp
  rw [hpage] at h ⊢
  omega

theorem OutsideWindows.mono {start' end' : ℕ} (h : OutsideWindows start end_)
    (hstart : start ≤ start') (hend : end' ≤ end_) : OutsideWindows start' end' := by
  rcases h with h | ⟨h₁, h₂⟩ | ⟨h₁, h₂⟩
  · exact .inl (hend.trans h)
  · exact .inr (.inl ⟨h₁.trans hstart, hend.trans h₂⟩)
  · exact .inr (.inr ⟨h₁.trans hstart, hend.trans h₂⟩)

theorem advance_paged {fa : FrameAllocator} (h : PagedAllocator fa) (k : ℕ) :
    PagedAllocator (advance fa k) := by
  refine ⟨?_, fun hlt => h.bounded ((Nat.le_add_right _ _).trans_lt hlt)⟩
  rw [advance, Nat.add_mul_mod_self_right]
  exact h.aligned

theorem pagesTaken_aligned (haligned : start % pageSize = 0) (hfit : start + len ≤ 2 ^ 38) :
    pageUp (start + len) - start ≤ pagesTaken start len * pageSize := by
  have hpage : pageSize = 4096 := rfl
  have hoffset : pageOffset start = 0 := by rw [pageOffset_eq_mod, haligned]
  have hlen : pageUp len ≤ usizeMax := by
    unfold pageUp usizeMax
    rw [hpage]
    omega
  have hstorage : storageLen start len = pageUp len := by
    rw [storageLen, hoffset, wrappingAdd_of_le (by unfold usizeMax; omega), Nat.zero_add,
      alignUp_page hlen]
  have hpages : numPages start len = pageUp len / pageSize := by
    rw [numPages, hstorage, wrappingAdd_of_le (by unfold pageUp usizeMax; rw [hpage]; omega)]
    unfold pageUp
    rw [hpage]
    omega
  have hle : pageUp len / pageSize ≤ pagesTaken start len := hpages ▸ le_max_left _ _
  unfold pageUp at hle ⊢
  rw [hpage] at haligned hle ⊢
  omega

section Calls

variable {c : Call} {M : Machine} (hwrap : NoWrap c) (hok : CallOk M.space c)

include hwrap hok

theorem placedArea_ok {answer : ℕ}
    (hmaps : (∃ heap, ownedHeap c = some heap) ∨ (∃ heap, sharedHeap c = some heap) ∨
      ∃ storage, existingStorage c = some storage)
    (hpos : 0 < (placedArea c M.space.programBreak answer).len)
    (hanswer : Answers c M.space answer) :
    PlaceOk M.space (placedArea c M.space.programBreak answer).start
      (placedArea c M.space.programBreak answer).len
      (placedArea c M.space.programBreak answer).prot := by
  cases c with
  | mapAnonymous => exact hok _ hanswer
  | mapAnonymousShared => exact (hok _ hanswer).1
  | mapAnonymousAt => exact hok
  | mapAnonymousSharedAt => exact hok.1
  | mapFixedBytes => exact hok
  | mapFixedSharedBytes => exact hok.1
  | mapSharedExisting => exact hok
  | installHostRange => exact hok.elim
  | brk heap newBreak =>
    simp only [placedArea] at hpos ⊢
    rcases newBreak with _ | requested
    · rw [hanswer] at hpos
      omega
    have hround : pageUp answer = pageUp requested := by
      rw [hanswer]
      exact break_rounding hwrap
    rw [hround] at hpos ⊢
    have hsum : pageUp M.space.programBreak +
        (pageUp requested - pageUp M.space.programBreak) = pageUp requested := by omega
    refine ⟨pageUp_mod _, ?_, by decide, .inl ?_⟩ <;> rw [hsum]
    · rw [pageUp_of_aligned (pageUp_mod requested)]
      exact hok (by omega)
    · exact pageUp_mod requested
  | unmap | mprotect | clear | writeBytes | reserveBase | setBreak =>
    simp [ownedHeap, sharedHeap, existingStorage] at hmaps

theorem makes_paged (hfa : PagedAllocator M.space.frameAllocator) (h : Makes c M s) :
    PagedSegment s := by
  cases h with
  | owned answer hheap harea hfits _ hanswer hroom =>
    subst harea
    have hplace := placedArea_ok hwrap hok (.inl ⟨_, hheap⟩) hfits.1 hanswer
    have hpages := pagesTaken_aligned hplace.aligned hplace.outside.below
    refine ⟨hfits.1, hplace.aligned, hplace.outside, hplace.usable, hfa.aligned, ?_⟩
    have hbound := hfa.bounded
    simp only [ownedSegment]
    rcases hroom with hnone | hroom
    · exact absurd hnone (Nat.ne_of_gt (Nat.lt_of_lt_of_le Nat.one_pos (le_max_right _ _)))
    have hend := le_pageUp ((placedArea c M.space.programBreak answer).start +
      (placedArea c M.space.programBreak answer).len)
    have hpos := hfits.1
    omega
  | shared answer hheap harea hfits _ hanswer =>
    subst harea
    have hplace := placedArea_ok hwrap hok (.inr (.inl ⟨_, hheap⟩)) hfits.1 hanswer
    refine ⟨hfits.1, hplace.aligned, hplace.outside, hplace.usable, ?_, ?_⟩
    · rename_i heap _
      have hbuffer := pageOffset_alignUp heap.vecPtr
      rw [pageOffset_eq_mod] at hbuffer
      rw [sharedPtr, pageOffset_eq_mod, hplace.aligned]
      exact hbuffer
    cases c with
    | mapAnonymousShared =>
      cases hheap
      exact (hok _ hanswer).2
    | mapAnonymousSharedAt | mapFixedSharedBytes =>
      cases hheap
      exact hok.2
    | _ => cases hheap
  | existing answer hstorage harea hfits =>
    subst harea
    cases c with
    | mapSharedExisting addr data prot =>
      cases hstorage
      have hplace : PlaceOk M.space addr (max data.inner.len 1) prot := hok
      have hle := le_pageUp (addr + max data.inner.len 1)
      refine ⟨hfits.1, hplace.aligned, hplace.outside, hplace.usable, hplace.aligned, ?_⟩
      have hbound := hplace.outside
      unfold OutsideWindows at hbound
      simp only [placedArea]
      omega
    | installHostRange => exact hok.elim
    | _ => cases hstorage

theorem cutRange_edges {len : ℕ} (h : CutRange c M start len) :
    start % pageSize = 0 ∧ ((start + len) % pageSize = 0 ∨ NotStraddled M.space (start + len)) := by
  rcases h with ⟨s, hmakes, rfl, rfl⟩ | ⟨answer, hrange⟩ | ⟨n, prot, rfl, rfl⟩
  · have hplace : PlaceOk M.space s.area.start s.area.len s.area.prot := by
      cases hmakes with
      | owned answer hheap harea hfits _ hanswer _ =>
        subst harea
        exact placedArea_ok hwrap hok (.inl ⟨_, hheap⟩) hfits.1 hanswer
      | shared answer hheap harea hfits _ hanswer =>
        subst harea
        exact placedArea_ok hwrap hok (.inr (.inl ⟨_, hheap⟩)) hfits.1 hanswer
      | existing answer hstorage harea hfits =>
        subst harea
        cases c with
        | mapSharedExisting => exact hok
        | installHostRange => exact hok.elim
        | _ => cases hstorage
    exact ⟨hplace.aligned, hplace.edge⟩
  · cases c with
    | unmap addr len =>
      obtain ⟨rfl, rfl⟩ := Prod.mk.inj (some.inj hrange)
      exact ⟨hok, .inl (aligned_add_pageUp hok len)⟩
    | brk heap newBreak =>
      rcases newBreak with _ | requested
      · cases hrange
      obtain ⟨rfl, rfl⟩ := Prod.mk.inj (some.inj hrange)
      have hnew := pageUp_mod answer
      have hold := pageUp_mod M.space.programBreak
      have hpage : pageSize = 4096 := rfl
      rw [hpage] at hnew hold ⊢
      exact ⟨hnew, .inl (by omega)⟩
    | _ => cases hrange
  · exact ⟨hok.1, .inl (aligned_add_pageUp hok.1 n)⟩

end Calls

theorem PagedSegment.slice (hs : PagedSegment s) (hp : SliceOf s start end_ p)
    (haligned : p.area.start % pageSize = 0) (husable : Usable p.area.prot) : PagedSegment p := by
  have hle := pageUp_mono hp.right
  refine ⟨hp.pos, haligned, hs.outside.mono hp.left hle, husable, ?_⟩
  have hstorage := hs.storage
  have hslice : p.storage = sliceSegmentStorage s p.area.start p.area.len :=
    congrArg Segment.storage hp.slice
  have hleft := hp.left
  have hend := le_pageUp (p.area.start + p.area.len)
  unfold StoragePaged at hstorage ⊢
  rw [hslice, sliceSegmentStorage]
  cases hst : s.storage with
  | owned frames =>
    simp only [hst] at hstorage ⊢
    exact ⟨hstorage.1, by omega⟩
  | shared bytes ptr =>
    simp only [hst] at hstorage ⊢
    obtain ⟨hptr, hfit⟩ := hstorage
    have hstart := hs.aligned
    rw [saturatingAdd_of_le (by unfold usizeMax; omega)]
    have hpage : pageSize = 4096 := rfl
    rw [hpage] at hptr hstart haligned ⊢
    constructor <;> omega
  | host ptr len => simp [hst] at hstorage

theorem exec_paged {hal : HalMemory} {c : Call} {M N : Machine} {r : KernelResult ℕ}
    (hM : Paged M.space) (hwrap : NoWrap c) (hok : CallOk M.space c)
    (hx : exec hal c M = some (r, N)) : Paged N.space := by
  have heffect := exec_effect hM.space.ok hwrap hx
  refine ⟨⟨effect_spaceOk heffect hM.space.ok, ?_⟩, ?_⟩
  · refine effect_segments heffect hM.space.ok hM.space.paged ?_
      fun s hs => makes_paged hwrap hok hM.allocator hs
    intro k s start len p hs hcut hpaged hslice hprot
    obtain ⟨hstart, hedge⟩ := cutRange_edges hwrap hok hcut
    refine hpaged.slice hslice ?_ ?_
    · rcases hslice.leftEdge with h | h | h <;> rw [h]
      · exact hpaged.aligned
      · rcases hedge with hedge | hedge
        · exact hedge
        · -- no segment lies on both sides of the edge, so the slice is not cut there
          have hsame := hedge s (mem_inOrder.mpr ⟨k, hs⟩)
          have hleft := hslice.left
          have hright := hslice.right
          have hpos := hslice.pos
          rw [show start + len = s.area.start by omega]
          exact hpaged.aligned
      · exact hstart
    · rcases hprot with h | ⟨n, rfl⟩
      · exact h ▸ hpaged.usable
      · exact hok.2
  · cases heffect with
    | failed leaves | owned _ _ _ _ _ _ _ leaves =>
      exact leaves.allocator ▸ advance_paged hM.allocator _
    | shared _ _ _ _ _ _ leaves | existing _ _ _ leaves | unmapped _ _ _ _ leaves
    | reprotected _ _ _ leaves | emptied _ leaves | kept _ _ leaves | adjusted _ _ leaves =>
      exact leaves.allocator ▸ hM.allocator
    | wrote _ ho =>
      obtain ⟨-, rfl⟩ := Prod.mk.inj ho
      exact hM.allocator

theorem newUser_paged (imageEnd : ℕ) : Paged (newUser (riscvBoard imageEnd)) := by
  have haligned := pageOffset_alignUp imageEnd
  rw [pageOffset_eq_mod] at haligned
  refine ⟨⟨newUser_spaceOk _, fun k s hs => ?_⟩, haligned, ?_⟩
  · simp [newUser] at hs
  · simp only [newUser, FrameAllocator.fromRegions, riscvBoard, riscvVirtMemory, find?_cons,
      Option.getD_some]
    unfold wrappingAdd
    omega

theorem clonePrivate_paged (imageEnd : ℕ) (heap : Heap) (hS : Paged S) :
    Paged (clonePrivate (riscvBoard imageEnd) heap S) := by
  refine ⟨⟨⟨clonePrivate_wellFormed _ heap hS.space.ok.table, hS.space.ok.breakFits⟩, ?_⟩,
    (newUser_paged imageEnd).allocator⟩
  intro k t ht
  simp only [clonePrivate, ExtTreeMap.getElem?_map, Option.map_eq_some_iff] at ht
  obtain ⟨s, hs, rfl⟩ := ht
  have hpaged := hS.space.paged k s hs
  refine ⟨hpaged.pos, hpaged.aligned, hpaged.outside, hpaged.usable, ?_⟩
  have hstorage := hpaged.storage
  unfold StoragePaged at hstorage ⊢
  cases hst : s.storage with
  | owned frames | shared bytes ptr =>
    simpa [hst, cloneStorage] using hstorage
  | host ptr len => simp [hst] at hstorage

/-- In every careful run the hardware sees the memory of every space as the kernel does. -/
theorem careful_views_agree {imageEnd : ℕ} {W : World}
    (h : Reachable (riscvBoard imageEnd) Careful W) {S : AddressSpaceInner} (hS : S ∈ W.spaces)
    {boxes : BoxPages} (hheld : boxes.Held (buildRiscvPageTable boxes (inOrder S.mappings))) :
    ViewsAgree (riscvBoard imageEnd) boxes (W.machine S) := by
  have hpaged : ∀ S ∈ W.spaces, Paged S :=
    reachable_spaces (newUser_paged imageEnd) (fun heap S hS => clonePrivate_paged imageEnd heap hS)
      (fun W i c S r M hcareful hat hS hx => exec_paged hS hcareful.1 (hcareful.2 S hat) hx) h
  exact viewsAgree_of_paged (hpaged S hS).space imageEnd hheld W.mem

theorem heapBoxes_held {segments : List Segment} (h : (segments.map segmentPages).sum ≤ 16) :
    heapBoxes.Held (buildRiscvPageTable heapBoxes segments) := by
  have hpages := riscv_pages heapBoxes segments
  have hlimit : heapBoxes.limit = 65536 := rfl
  rw [BoxPages.Held]
  omega

theorem riscvBoard_eq : riscvBoard 0x80400000 = board :=
  congrArg riscvVirtMemory (alignUp_page (by decide))

/-- Two pages are mapped and the first is unmapped again. -/
theorem careful_views_agree_after_unmap :
    ∃ W S, Reachable (riscvBoard 0x80400000) Careful W ∧ S ∈ W.spaces ∧
      protOf S.mappings 0x11000 = some 3 ∧
      ViewsAgree (riscvBoard 0x80400000) heapBoxes (W.machine S) := by
  have hrun : firstSpace
      (fun S => (protOf S.mappings 0x11000, ((inOrder S.mappings).map segmentPages).sum))
      [.newUser, .call 0 (.mapFixedBytes boardHeap 0x10000 [] 0x2000 3),
        .call 0 (.unmap 0x10000 0x1000)] = some (some 3, 1) := by decide +kernel
  have hplace : ∀ S, PlaceOk S 0x10000 0x2000 3 := fun S =>
    ⟨by decide, .inl (by decide), by decide, .inl (by decide)⟩
  have hall : ∀ e ∈ [Event.newUser, .call 0 (.mapFixedBytes boardHeap 0x10000 [] 0x2000 3),
      .call 0 (.unmap 0x10000 0x1000)], ∀ V, Careful V e := by
    simp [Careful, CallOk, hplace, NoWrap, usizeMax, pageUp, pageSize]
  obtain ⟨W, S, hW, hS, hf⟩ := firstSpace_reachable hall hrun
  obtain ⟨hprot, hpages⟩ := Prod.mk.inj hf
  rw [← riscvBoard_eq] at hW
  exact ⟨W, S, hW, hS, hprot, careful_views_agree hW hS (heapBoxes_held (by omega))⟩

def deviceMmap : SystemCall :=
  .mmap boardHeap 1 (.error efault)
    ⟨0x10000000, 0x1000, 1, mapFixedFlag ||| mapAnonymousFlag ||| mapPrivateFlag, -1, 0⟩

def devicePage : Segment := ⟨⟨0x10000000, 0x1000, 1⟩, .owned ⟨0x10000000, 0x80400000, 1⟩⟩

theorem mmap_in_device_window :
    ∃ N, perform (riscvBoard 0x80400000) ⟨newUser (riscvBoard 0x80400000), fun _ => 0⟩ deviceMmap =
        some (.ok 0x10000000, N) ∧
      ¬ ViewsAgree (riscvBoard 0x80400000) heapBoxes N := by
  have hcall : (perform (riscvBoard 0x80400000) ⟨newUser (riscvBoard 0x80400000), fun _ => 0⟩
      deviceMmap).map (fun o => (o.1.toOption, inOrder o.2.space.mappings,
        (readBytes (riscvBoard 0x80400000) boardHeap 0x10000000 1 o.2).toOption)) =
      some (some 0x10000000, [devicePage], some [0]) := by
    decide +kernel
  obtain ⟨⟨r, N⟩, hN, ho⟩ := Option.map_eq_some_iff.mp hcall
  simp only [Prod.mk.injEq, toOption_eq_some] at ho
  obtain ⟨rfl, hsegments, hread⟩ := ho
  refine ⟨N, hN, fun hagree => ?_⟩
  obtain ⟨l, hl, hacc, -⟩ := hagree.read boardHeap 0x10000000 0 (by decide) hread
  -- the walk ends in the window of the devices
  have hok : ∀ s ∈ [devicePage], SegmentOk (2 ^ 39) 0x80000000 0x100000000 s := by
    intro s hs
    rw [mem_singleton.mp hs]
    have hrange : segmentStart devicePage = 0x10000000 ∧ segmentEnd devicePage = 0x10001000 ∧
        segmentPhysBase devicePage = some 0x80400000 := by decide +kernel
    refine ⟨by decide, fun p hp => ?_, fun p _ h => by omega⟩
    rw [hrange.2.2] at hp
    cases hp
    rw [hrange.1, hrange.2.1]
    decide
  obtain ⟨l', hl', -, -, -, huser⟩ := (riscv_walkResult heapBoxes hok
    (show 0x10000000 < 2 ^ 39 by decide) (heapBoxes_held (by decide +kernel))).window
      ⟨riscvMmioBase, riscvMmioBase + riscvMmioSize, riscvMmioFlags⟩ (by decide) (by decide) (by decide)
  rw [hardwareTranslate, if_pos (.inl (by decide)), hsegments] at hl
  have heq := hl.symm.trans hl'
  cases heq
  exact hacc.1 huser

end HardwareView
