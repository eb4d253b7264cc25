import Whuse.CallEffects
import Whuse.ElfLoader

/-! Which physical frames are in use. Every storage in a table after a call is a slice of one
before it or the one new storage of the call, also where ranges wrap. Frames of different
mapping calls therefore stay apart in every run whose private mapping calls take pages that no
live segment occupies. -/
namespace FrameExclusivity

open List Option
open MachineWord IntervalTable AddressSpace CallRuns MappingTable OwnedMapping CallEffects ElfLoader

def SliceClosed (Q : SegmentStorage → Prop) : Prop :=
  ∀ s start len, Q s.storage → Q (sliceSegmentStorage s start len)

def AllStorage (Q : SegmentStorage → Prop) (m : Mappings) : Prop :=
  ∀ (k : ℕ) (s : Segment), m[k]? = some s → Q s.storage

section Storage

variable {Q : SegmentStorage → Prop}

theorem cutPieces_storage (hQ : SliceClosed Q) {mid : Segment → List Segment}
    (hmid : ∀ s p, Q s.storage → p ∈ mid s → Q p.storage) {start end_ : ℕ} (s p : Segment)
    (hs : Q s.storage) (hp : p ∈ cutPieces mid start end_ s) : Q p.storage := by
  unfold cutPieces at hp
  simp only at hp
  split at hp
  · rw [mem_singleton.mp hp]
    exact hs
  simp only [mem_append] at hp
  rcases hp with (hp | hp) | hp
  · split at hp
    · rw [mem_singleton.mp hp]
      exact hQ s _ _ hs
    · cases hp
  · exact hmid s p hs hp
  · split at hp
    · rw [mem_singleton.mp hp]
      exact hQ s _ _ hs
    · cases hp

theorem unmapRangeInner_storage (hQ : SliceClosed Q) (inner : AddressSpaceInner) (start len : ℕ)
    (h : AllStorage Q inner.mappings) :
    AllStorage Q (unmapRangeInner inner start len).2.mappings := by
  unfold unmapRangeInner
  split
  · exact h
  split
  · exact h
  simp only [unmapKey_foldl]
  refine foldl_rewriteKey_forall (Q := fun s : Segment => Q s.storage)
    (cutPieces_storage hQ ?_) _ h
  intro s p _ hp
  cases hp

theorem insertSegment_storage (hQ : SliceClosed Q) (inner : AddressSpaceInner) (s : Segment)
    (h : AllStorage Q inner.mappings) (hs : Q s.storage) :
    AllStorage Q (insertSegment inner s).2.mappings := by
  have hcleared : AllStorage Q (if overlaps inner.mappings s.area.start s.area.len then
      unmapRangeInner inner s.area.start s.area.len else (.ok (), inner)).2.mappings := by
    split
    · exact unmapRangeInner_storage hQ inner _ _ h
    · exact h
  unfold insertSegment
  simp only
  split
  · next he => rw [he] at hcleared; exact hcleared
  next hk =>
  rw [hk] at hcleared
  intro k t ht
  rw [Std.ExtTreeMap.getElem?_insert] at ht
  split at ht
  · exact some.inj ht ▸ hs
  · exact hcleared k t ht

theorem mprotect_storage (hQ : SliceClosed Q) (addr len prot : ℕ) (M : Machine)
    (h : AllStorage Q M.space.mappings) :
    AllStorage Q (mprotect addr len prot M).2.space.mappings := by
  unfold mprotect
  split
  · exact h
  split
  · exact h
  simp only [mprotectKey_eq]
  refine foldl_rewriteKey_forall (Q := fun s : Segment => Q s.storage)
    (cutPieces_storage hQ ?_) _ h
  intro s p hs hp
  rw [mem_singleton.mp hp]
  exact hQ s _ _ hs

end Storage

/-- The pages a private mapping call may take; the placement of an anonymous mapping is page
aligned. -/
def pagesRequested (c : Call) (oldBreak : ℕ) : ℕ :=
  match c with
  | .mapAnonymous _ _ len _ => pagesTaken 0 (max (alignUp len pageSize) 1)
  | .mapAnonymousAt _ addr len _ => pagesTaken addr (alignUp len pageSize)
  | .mapFixedBytes _ addr _ memLen _ => pagesTaken addr memLen
  | .brk _ (some requested) => pagesTaken (alignUp oldBreak pageSize)
      (alignUp (alignUp requested 16) pageSize - alignUp oldBreak pageSize)
  | _ => 0

def NewStorage (c : Call) (M : Machine) : SegmentStorage → Prop
  | .owned f => f.inner.physBase = M.space.frameAllocator.next ∧
      f.inner.numPages ≤ pagesRequested c M.space.programBreak
  | .shared _ _ => True
  | .host ptr len => ∃ prot, c = .installHostRange ptr len prot

/-- Every storage of the second table is a slice of one of the first, or the added one. -/
def Adds (new : Option SegmentStorage) (M N : Machine) : Prop :=
  ∀ Q, SliceClosed Q → AllStorage Q M.space.mappings → (∀ st ∈ new, Q st) →
    AllStorage Q N.space.mappings

def AddsAtMost (c : Call) (M N : Machine) : Prop :=
  ∃ new, (∀ st ∈ new, NewStorage c M st) ∧ Adds new M N

variable {f : Arc OwnedFramesInner} {c d : Call} {hal : HalMemory} {r : KernelResult ℕ}
  {o : KernelResult ℕ × Machine} {M N : Machine} {x y : OwnedFramesInner} {W U : World} {addr : ℕ}
  {heap : Heap} {S : AddressSpaceInner}

theorem addsAtMost_of_none (h : Adds none M N) : AddsAtMost c M N :=
  ⟨none, (fun _ h => nomatch h), h⟩

theorem adds_refl (new : Option SegmentStorage) (M : Machine) : Adds new M M :=
  fun _ _ h _ => h

theorem inserting_adds (fa : FrameAllocator) (s : Segment) (mem : Memory)
    (hs : NewStorage c M s.storage) : AddsAtMost c M (inserting M fa s mem).2 := by
  refine ⟨some s.storage, ?_, fun Q hQ hM hnew => insertSegment_storage hQ _ s hM (hnew _ rfl)⟩
  intro st hst
  rw [← some.inj hst]
  exact hs

theorem numPages_of_aligned (h : pageOffset addr = 0) (len : ℕ) :
    numPages addr len = numPages 0 len := by
  have h0 : pageOffset 0 = 0 := rfl
  unfold numPages storageLen
  rw [h, h0]

theorem le_pagesTaken (addr len : ℕ) : numPages addr len ≤ pagesTaken addr len := le_max_left _ _

theorem fixed_pages {len a n : ℕ}
    (h : (if len ≠ 0 ∧ heap.tryReserve len then some (addr, len) else none) = some (a, n)) :
    numPages a (max n 1) ≤ pagesTaken addr len := by
  split at h
  · next hasks =>
    cases h
    rw [Nat.max_eq_left (Nat.pos_of_ne_zero hasks.1)]
    exact le_pagesTaken _ _
  · cases h

theorem request_pages {len : ℕ} (h : request c M = some (addr, len)) :
    numPages addr (max len 1) ≤ pagesRequested c M.space.programBreak := by
  unfold request at h
  split at h
  · split at h
    · cases h
    · next hfound =>
      split at h <;> cases h
      rw [numPages_of_aligned (foundStart_spec hfound).2]
      exact le_pagesTaken _ _
  · split at h
    · cases h
    · exact fixed_pages h
  · split at h
    · cases h
    · exact fixed_pages h
  · simp only at h
    split at h
    · exact fixed_pages h
    · cases h
  · cases h

/-- What a call does with frames: it asks for none and adds at most one storage, or it maps the
private range that it asks for. -/
inductive Asks (hal : HalMemory) (c : Call) (M : Machine) : KernelResult ℕ → Machine → Prop where
  | nothing {r : KernelResult ℕ} {N : Machine} (hasks : request c M = none)
      (hadds : AddsAtMost c M N) (hframes : N.space.frameAllocator = M.space.frameAllocator) :
      Asks hal c M r N
  | range (heap : Heap) {addr : ℕ} {data : List UInt8} (prot answer next : ℕ) {K N : Machine}
      {r : KernelResult ℕ} (hK : K = setNextBase next M)
      (hasks : request c M = some (addr, data.length))
      (hr : r = (answering answer (mapOwned hal heap addr data prot K)).1)
      (htable : N.space.mappings = (mapOwned hal heap addr data prot K).2.space.mappings)
      (hframes : N.space.frameAllocator =
        (mapOwned hal heap addr data prot K).2.space.frameAllocator) : Asks hal c M r N

section Calls

theorem asks_still (next : ℕ) (hasks : request c M = none) : Asks hal c M r (setNextBase next M) :=
  .nothing hasks (addsAtMost_of_none (adds_refl _ M)) rfl

theorem asks_inserting (next : ℕ) (s : Segment) (mem : Memory) (hasks : request c M = none)
    (hs : NewStorage c M s.storage) :
    Asks hal c M r (inserting (setNextBase next M) M.space.frameAllocator s mem).2 :=
  .nothing hasks (inserting_adds (M := setNextBase next M) _ s mem hs)
    (insertSegment_keeps (f := (·.frameAllocator)) (fun _ _ _ => rfl) (setNextBase next M).space s)

theorem asks_maps (h : Maps (mapOwned hal heap) c M o) : Asks hal c M o.1 o.2 := by
  cases h with
  | refused e next hasks => exact asks_still next hasks
  | placed next hasks _ => exact .range heap _ _ next rfl hasks rfl rfl rfl

theorem asks_maps_shared (h : Maps (mapShared heap) d M o) (hasks : request c M = none) :
    Asks hal c M o.1 o.2 := by
  cases h with
  | refused e next _ => exact asks_still next hasks
  | placed next _ _ =>
    exact asks_inserting next _ _ hasks trivial

theorem asks_unmapping (start len brk : ℕ) (hasks : request c M = none) : Asks hal c M r
      { M with space := { (unmapRangeInner M.space start len).2 with programBreak := brk } } :=
  .nothing hasks
    (addsAtMost_of_none fun Q hQ hM _ => unmapRangeInner_storage hQ M.space start len hM)
    (unmapRangeInner_keeps (f := (·.frameAllocator)) (fun _ _ _ => rfl) M.space start len)

theorem brk_asks (heap : Heap) (requested : ℕ) :
    Asks hal (.brk heap (some requested)) M (brk hal heap (some requested) M).1
      (brk hal heap (some requested) M).2 := by
  have hstill : ∀ r brk, request (.brk heap (some requested)) M = none →
      Asks hal (.brk heap (some requested)) M r (setBreak brk M) :=
    fun _ _ hnone => .nothing hnone (addsAtMost_of_none (adds_refl _ M)) rfl
  rw [brk]
  by_cases hbase : requested < userHeapBase
  · rw [if_pos hbase]
    exact hstill _ M.space.programBreak (if_neg fun hand => absurd hbase (Nat.not_lt.mpr hand.1))
  rw [if_neg hbase]
  simp only [moveBreak]
  by_cases hgrow : M.space.programBreak < alignUp requested 16
  · simp only [if_pos hgrow]
    by_cases hpages : alignUp M.space.programBreak pageSize < alignUp (alignUp requested 16) pageSize
    · have hgrows := And.intro (Nat.le_of_not_lt hbase) (And.intro hgrow hpages)
      simp only [if_pos hpages]
      rcases mapFixedBytesBy_cases (mapOwned hal heap) heap (alignUp M.space.programBreak pageSize)
        [] (alignUp (alignUp requested 16) pageSize - alignUp M.space.programBreak pageSize)
        defaultProt M with ⟨hno, e, he⟩ | ⟨data, hasks, -, -, he⟩
      · rw [mapFixedBytes, he]
        exact hstill _ M.space.programBreak ((if_pos hgrows).trans hno)
      rw [mapFixedBytes, he]
      refine .range heap defaultProt (alignUp requested 16) M.space.nextMappingBase
        (rfl : M = _) ((if_pos hgrows).trans hasks) ?_ ?_ ?_
      all_goals
        generalize mapOwned hal heap (alignUp M.space.programBreak pageSize) data defaultProt M = o
        obtain ⟨e | ⟨⟩, K⟩ := o
        all_goals rfl
    · simp only [if_neg hpages]
      exact hstill _ _ (if_neg fun hand => hpages hand.2.2)
  · have hnone : request (.brk heap (some requested)) M = none := if_neg fun hand => hgrow hand.2.1
    simp only [if_neg hgrow]
    by_cases hshrink : alignUp requested 16 < M.space.programBreak ∧
        alignUp (alignUp requested 16) pageSize < alignUp M.space.programBreak pageSize
    · have hcut := fun r brk => @asks_unmapping _ hal r M
        (alignUp (alignUp requested 16) pageSize)
        (alignUp M.space.programBreak pageSize - alignUp (alignUp requested 16) pageSize) brk hnone
      simp only [if_pos hshrink.1, if_pos hshrink.2]
      rcases hres : unmapRangeInner M.space (alignUp (alignUp requested 16) pageSize)
        (alignUp M.space.programBreak pageSize - alignUp (alignUp requested 16) pageSize)
        with ⟨e | ⟨⟩, space⟩
      all_goals
        rw [hres] at hcut
      · exact hcut _ space.programBreak
      · exact hcut _ _
    · rw [show (if alignUp requested 16 < M.space.programBreak then
          if alignUp (alignUp requested 16) pageSize < alignUp M.space.programBreak pageSize then _
          else _ else _) = ((.ok (), M) : KernelResult Unit × Machine) by grind]
      exact hstill _ _ hnone

theorem exec_asks (hx : exec hal c M = some o) : Asks hal c M o.1 o.2 := by
  cases c with
  | mapAnonymous => exact asks_maps (mapAnonymousBy_maps hx)
  | mapAnonymousShared => exact asks_maps_shared (mapAnonymousBy_maps hx) rfl
  | mapAnonymousAt =>
    obtain rfl := some.inj hx
    exact asks_maps (mapAnonymousAtBy_maps ..)
  | mapAnonymousSharedAt =>
    obtain rfl := some.inj hx
    exact asks_maps_shared (mapAnonymousAtBy_maps ..) rfl
  | mapFixedBytes =>
    obtain rfl := some.inj hx
    exact asks_maps (mapFixedBytesBy_maps ..)
  | mapFixedSharedBytes =>
    obtain rfl := some.inj hx
    exact asks_maps_shared (mapFixedBytesBy_maps ..) rfl
  | mapSharedExisting addr data prot =>
    obtain rfl := some.inj hx
    rw [mapSharedExisting_eq]
    exact asks_inserting M.space.nextMappingBase _ M.mem rfl trivial
  | installHostRange addr len prot =>
    obtain rfl := some.inj hx
    rw [installHostRange]
    split
    · exact asks_still M.space.nextMappingBase rfl
    · exact asks_inserting M.space.nextMappingBase ⟨⟨addr, len, prot⟩, .host addr len⟩ M.mem rfl
        ⟨prot, rfl⟩
  | unmap addr len =>
    obtain rfl := some.inj hx
    rw [unmap]
    split
    · exact asks_still M.space.nextMappingBase rfl
    · exact .nothing rfl
        (addsAtMost_of_none fun Q hQ hM _ => unmapRangeInner_storage hQ M.space _ _ hM)
        (unmapRangeInner_keeps (f := (·.frameAllocator)) (fun _ _ _ => rfl) M.space _ _)
  | mprotect addr len prot =>
    obtain rfl := some.inj hx
    refine .nothing rfl (addsAtMost_of_none fun Q hQ hM _ =>
      mprotect_storage hQ addr len prot M hM) ?_
    rw [mprotect]
    split
    · rfl
    · split
      · rfl
      · rfl
  | brk heap newBreak =>
    obtain rfl := some.inj hx
    cases newBreak with
    | none => exact asks_still M.space.nextMappingBase rfl
    | some requested => exact brk_asks heap requested
  | clear =>
    obtain rfl := some.inj hx
    refine .nothing rfl (addsAtMost_of_none fun Q _ _ _ k s hs => ?_) rfl
    simp [clear] at hs
  | writeBytes addr bytes | setBreak newBreak =>
    obtain rfl := some.inj hx
    exact .nothing rfl (addsAtMost_of_none (adds_refl _ M)) rfl
  | reserveBase next =>
    obtain rfl := some.inj hx
    exact asks_still next rfl

theorem exec_adds (hx : exec hal c M = some o) : AddsAtMost c M o.2 := by
  cases exec_asks hx with
  | nothing _ hadds _ => exact hadds
  | @range heap addr data prot answer next K _ _ hK hasks _ htable _ =>
    subst hK
    have hpages := request_pages hasks
    rcases mapOwned_split hal heap addr data prot (setNextBase next M) with
      ⟨-, he⟩ | ⟨-, k, -, he⟩
    · rw [he] at htable
      obtain ⟨new, hnew, hadds⟩ := inserting_adds (c := c) (M := setNextBase next M)
        (advance M.space.frameAllocator (pagesTaken addr (max data.length 1)))
        (ownedSegment heap M.space.frameAllocator addr (max data.length 1) prot)
        (copyBytes M.mem (copyTarget hal M.space.frameAllocator addr) (storedData data))
        ⟨rfl, hpages⟩
      refine ⟨new, hnew, ?_⟩
      intro Q hQ hM hst
      have hall := hadds Q hQ hM hst
      rw [htable]
      exact hall
    · rw [he] at htable
      refine addsAtMost_of_none fun Q _ hM _ => ?_
      rw [htable]
      exact hM

end Calls

def ownedFrames : SegmentStorage → Option (Arc OwnedFramesInner)
  | .owned frames => some frames
  | _ => none

def framesIn (m : Mappings) : List (Arc OwnedFramesInner) :=
  m.toList.filterMap fun entry => ownedFrames entry.2.storage

/-- The counted frame blocks of every live segment; one block belongs to one mapping call. -/
def liveFrames (W : World) : List (Arc OwnedFramesInner) :=
  W.spaces.flatMap fun S => framesIn S.mappings

theorem ownedFrames_eq_some {st : SegmentStorage} : ownedFrames st = some f ↔ st = .owned f := by
  cases st <;> simp [ownedFrames]

theorem mem_framesIn {m : Mappings} :
    f ∈ framesIn m ↔ ∃ (k : ℕ) (s : Segment), m[k]? = some s ∧ s.storage = .owned f := by
  simp [framesIn, ownedFrames_eq_some]

theorem mem_liveFrames : f ∈ liveFrames W ↔ ∃ S ∈ W.spaces, f ∈ framesIn S.mappings := mem_flatMap

def physEnd (x : OwnedFramesInner) : ℕ := x.physBase + x.numPages * pageSize

def Apart (x y : OwnedFramesInner) : Prop :=
  ∀ a, ¬ ((x.physBase ≤ a ∧ a < physEnd x) ∧ (y.physBase ≤ a ∧ a < physEnd y))

theorem apart_iff : min (physEnd x) (physEnd y) ≤ max x.physBase y.physBase ↔ Apart x y := by
  constructor
  · intro h a
    omega
  · intro h
    have := h (max x.physBase y.physBase)
    omega

instance (x y : OwnedFramesInner) : Decidable (Apart x y) := decidable_of_iff _ apart_iff

theorem Apart.symm (h : Apart x y) : Apart y x :=
  fun a ha => h a ha.symm

theorem Apart.shrink {pages : ℕ} (hle : x.numPages ≤ pages) (h : Apart ⟨x.physBase, pages⟩ y) :
    Apart x y := by
  intro a ⟨hx, hy⟩
  refine h a ⟨⟨hx.1, ?_⟩, hy⟩
  have hmul := Nat.mul_le_mul_right pageSize hle
  have hlt : a < x.physBase + x.numPages * pageSize := hx.2
  show a < x.physBase + pages * pageSize
  omega

/-- Frames of two different mapping calls never overlap. -/
def Exclusive (W : World) : Prop :=
  ∀ f ∈ liveFrames W, ∀ g ∈ liveFrames W, f ≠ g → Apart f.inner g.inner

instance (W : World) : Decidable (Exclusive W) :=
  inferInstanceAs (Decidable (∀ f ∈ liveFrames W, ∀ g ∈ liveFrames W, f ≠ g → Apart f.inner g.inner))

def isHostCall : Call → Bool
  | .installHostRange _ _ _ => true
  | _ => false

/-- The pages a call may take from its allocator back no live segment of any space. -/
def FreshPages (W : World) : Event → Prop
  | .call i c => isHostCall c = false ∧ ∀ S ∈ W.spaces[i]?, ∀ f ∈ liveFrames W,
      Apart ⟨S.frameAllocator.next, pagesRequested c S.programBreak⟩ f.inner
  | _ => True

instance (W : World) : ∀ e, Decidable (FreshPages W e)
  | .call i c => inferInstanceAs (Decidable (isHostCall c = false ∧ ∀ S ∈ W.spaces[i]?,
      ∀ f ∈ liveFrames W, Apart ⟨S.frameAllocator.next, pagesRequested c S.programBreak⟩ f.inner))
  | .newUser | .clonePrivate _ _ | .drop _ => isTrue trivial

def NoHost (st : SegmentStorage) : Prop := ∀ ptr len, st ≠ .host ptr len

theorem noHost_sliceClosed : SliceClosed NoHost := by
  intro s start len h ptr n
  unfold sliceSegmentStorage
  cases hs : s.storage with
  | owned frames => simp
  | shared bytes p => simp
  | host p l => exact absurd hs (h p l)

structure FrameInvariant (W : World) : Prop where
  noHost : ∀ S ∈ W.spaces, AllStorage NoHost S.mappings
  exclusive : Exclusive W

theorem clonePrivate_frames (hal : HalMemory) (heap : Heap) (h : AllStorage NoHost S.mappings) :
    AllStorage NoHost (clonePrivate hal heap S).mappings ∧
      ∀ f ∈ framesIn (clonePrivate hal heap S).mappings, f ∈ framesIn S.mappings := by
  have hkeep : ∀ (k : ℕ) (t : Segment), (clonePrivate hal heap S).mappings[k]? = some t →
      ∃ s, S.mappings[k]? = some s ∧ t.storage = s.storage := by
    intro k t ht
    simp only [clonePrivate, Std.ExtTreeMap.getElem?_map, map_eq_some_iff] at ht
    obtain ⟨s, hs, rfl⟩ := ht
    refine ⟨s, hs, ?_⟩
    cases hst : s.storage with
    | owned frames => rfl
    | shared bytes ptr => rfl
    | host ptr len => exact absurd hst (h k s hs ptr len)
  constructor
  · intro k t ht
    obtain ⟨s, hs, he⟩ := hkeep k t ht
    rw [he]
    exact h k s hs
  · intro f hf
    obtain ⟨k, t, ht, hst⟩ := mem_framesIn.mp hf
    obtain ⟨s, hs, he⟩ := hkeep k t ht
    exact mem_framesIn.mpr ⟨k, s, hs, he ▸ hst⟩

/-- The frames after a call were there before it, or they are the call's own. -/
theorem exec_frames (hx : exec hal c M = some o) : ∃ new : Option (Arc OwnedFramesInner),
      (∀ f ∈ new, f.inner.physBase = M.space.frameAllocator.next ∧
        f.inner.numPages ≤ pagesRequested c M.space.programBreak) ∧
      ∀ f ∈ framesIn o.2.space.mappings, f ∈ new ∨ f ∈ framesIn M.space.mappings := by
  obtain ⟨new, hnew, hadds⟩ := exec_adds hx
  refine ⟨new.bind ownedFrames, ?_, ?_⟩
  · intro f hf
    obtain ⟨st, hst, hof⟩ := bind_eq_some_iff.mp hf
    obtain rfl := ownedFrames_eq_some.mp hof
    exact hnew _ hst
  · intro f hf
    obtain ⟨k, t, ht, hst⟩ := mem_framesIn.mp hf
    refine hadds (fun st => ∀ g, st = .owned g →
      g ∈ new.bind ownedFrames ∨ g ∈ framesIn M.space.mappings) ?_ ?_ ?_ k t ht f hst
    · intro s start len hs g hg
      unfold sliceSegmentStorage at hg
      cases hst : s.storage with
      | owned frames =>
        simp only [hst] at hg
        exact hs g (hst.trans hg)
      | shared bytes p => simp [hst] at hg
      | host p l => simp [hst] at hg
    · exact fun k s hs g hg => .inr (mem_framesIn.mpr ⟨k, s, hs, hg⟩)
    · rintro st hst g rfl
      exact .inl (bind_eq_some_iff.mpr ⟨_, hst, rfl⟩)

theorem exclusive_of_subset (h : Exclusive W) (hsub : ∀ f ∈ liveFrames U, f ∈ liveFrames W) :
    Exclusive U :=
  fun f hf g hg hne => h f (hsub f hf) g (hsub g hg) hne

theorem call_keeps_invariant {i : ℕ} (hW : FrameInvariant W) (hfresh : FreshPages W (.call i c))
    (hS : W.spaces[i]? = some S) (hx : exec hal c (W.machine S) = some o) :
    FrameInvariant ⟨W.spaces.set i o.2.space, o.2.mem⟩ := by
  have hSmem : S ∈ W.spaces := mem_of_getElem? hS
  constructor
  · intro T hT
    rcases mem_or_eq_of_mem_set hT with hT | rfl
    · exact hW.noHost T hT
    · obtain ⟨new, hnew, hadds⟩ := exec_adds hx
      refine hadds NoHost noHost_sliceClosed (hW.noHost S hSmem) fun st hst ptr len he => ?_
      subst he
      obtain ⟨prot, rfl⟩ := hnew _ hst
      cases hfresh.1
  · obtain ⟨new, hnew, hframes⟩ := exec_frames hx
    have hlive : ∀ f ∈ liveFrames ⟨W.spaces.set i o.2.space, o.2.mem⟩,
        f ∈ new ∨ f ∈ liveFrames W := by
      intro f hf
      obtain ⟨T, hT, hfT⟩ := mem_liveFrames.mp hf
      rcases mem_or_eq_of_mem_set hT with hT | rfl
      · exact .inr (mem_liveFrames.mpr ⟨T, hT, hfT⟩)
      · rcases hframes f hfT with hf | hf
        · exact .inl hf
        · exact .inr (mem_liveFrames.mpr ⟨S, hSmem, hf⟩)
    have happart : ∀ f ∈ new, ∀ g ∈ liveFrames W, Apart f.inner g.inner := by
      intro f hf g hg
      obtain ⟨hbase, hle⟩ := hnew f hf
      have hwin := hfresh.2 S hS g hg
      rw [← show f.inner.physBase = S.frameAllocator.next from hbase] at hwin
      exact Apart.shrink hle hwin
    intro f hf g hg hne
    rcases hlive f hf with hf | hf <;> rcases hlive g hg with hg | hg
    · exact absurd (mem_unique hf hg) hne
    · exact happart f hf g hg
    · exact (happart g hg f hf).symm
    · exact hW.exclusive f hf g hg hne

theorem next_keeps_invariant {e : Event} (hW : FrameInvariant W) (ha : FreshPages W e)
    (hn : next hal W e = some U) : FrameInvariant U := by
  rcases next_cases hn with ⟨rfl, rfl⟩ | ⟨i, heap, T, rfl, hT, rfl⟩ | ⟨i, rfl, rfl⟩ |
    ⟨i, c, T, r, M, rfl, hT, hx, rfl⟩
  · constructor
    · intro S hS
      rcases mem_append.mp hS with hS | hS
      · exact hW.noHost S hS
      · rw [mem_singleton.mp hS]
        intro k s hs
        simp [newUser] at hs
    · refine exclusive_of_subset hW.exclusive fun f hf => ?_
      obtain ⟨S, hS, hfS⟩ := mem_liveFrames.mp hf
      rcases mem_append.mp hS with hS | hS
      · exact mem_liveFrames.mpr ⟨S, hS, hfS⟩
      · rw [mem_singleton.mp hS] at hfS
        obtain ⟨k, s, hs, _⟩ := mem_framesIn.mp hfS
        simp [newUser] at hs
  · have hTmem := mem_of_getElem? hT
    obtain ⟨hno, hsub⟩ := clonePrivate_frames hal heap (hW.noHost T hTmem)
    constructor
    · intro S hS
      rcases mem_append.mp hS with hS | hS
      · exact hW.noHost S hS
      · rw [mem_singleton.mp hS]
        exact hno
    · refine exclusive_of_subset hW.exclusive fun f hf => ?_
      obtain ⟨S, hS, hfS⟩ := mem_liveFrames.mp hf
      rcases mem_append.mp hS with hS | hS
      · exact mem_liveFrames.mpr ⟨S, hS, hfS⟩
      · rw [mem_singleton.mp hS] at hfS
        exact mem_liveFrames.mpr ⟨T, hTmem, hsub f hfS⟩
  · constructor
    · exact fun S hS => hW.noHost S (mem_of_mem_eraseIdx hS)
    · refine exclusive_of_subset hW.exclusive fun f hf => ?_
      obtain ⟨S, hS, hfS⟩ := mem_liveFrames.mp hf
      exact mem_liveFrames.mpr ⟨S, mem_of_mem_eraseIdx hS, hfS⟩
  · exact call_keeps_invariant hW ha hT hx

theorem reachable_frameInvariant (h : Reachable hal FreshPages W) : FrameInvariant W := by
  refine reachable_invariant ?_ (fun _ _ _ => next_keeps_invariant) h
  intro W₀ h₀
  constructor
  · intro S hS
    rw [h₀] at hS
    cases hS
  · intro f hf
    obtain ⟨S, hS, _⟩ := mem_liveFrames.mp hf
    rw [h₀] at hS
    cases hS

/-- Frames stay exclusive in every run whose private mapping calls take free pages; a load is a
sequence of such events, whatever the images hold. -/
theorem frames_exclusive {hal : HalMemory} {W : World} (h : Reachable hal FreshPages W) :
    Exclusive W ∧
    ∀ (req : LoadRequest) (i : ℕ) (S : AddressSpaceInner), W.spaces[i]? = some S →
      ∃ cs : List Call, (∀ c ∈ cs, LoaderCall c) ∧ run hal W (cs.map (.call i)) =
          some ⟨W.spaces.set i ((loadElfImages hal req).run.run (W.machine S)).2.space,
            ((loadElfImages hal req).run.run (W.machine S)).2.mem⟩ := by
  refine ⟨(reachable_frameInvariant h).exclusive, fun req i S hS => ?_⟩
  obtain ⟨cs, hcs, hrun⟩ := loadElfImages_byCalls req (W.machine S)
  exact ⟨cs, hcs, run_calls hS hrun⟩

def twoMappings : List Event :=
  [.newUser, .call 0 (.mapFixedBytes boardHeap 0x10000 [] 0x2000 3),
    .call 0 (.mapFixedBytes boardHeap 0x20000 [] 0x1000 3)]

theorem frames_exclusive_two_mappings : ∃ W, run board boot twoMappings = some W ∧
      (liveFrames W).map (·.inner) = [⟨0x80400000, 2⟩, ⟨0x80402000, 1⟩] ∧ Exclusive W := by
  have hrun : (run board boot twoMappings).map (fun W => (liveFrames W).map (·.inner)) =
      some [⟨0x80400000, 2⟩, ⟨0x80402000, 1⟩] := by decide +kernel
  obtain ⟨W, hW, hlive⟩ := map_eq_some_iff.mp hrun
  have hreach : Reachable board FreshPages W :=
    (reachable_initial (W := boot) rfl).run (by decide +kernel) hW
  exact ⟨W, hW, hlive, (frames_exclusive hreach).1⟩

def twoSpaces : List Event :=
  [.newUser, .newUser, .call 0 (.mapFixedBytes boardHeap 0x10000 [] 0x1000 3),
    .call 1 (.mapFixedBytes boardHeap 0x20000 [] 0x1000 3)]

theorem new_spaces_share_frames : ∃ W, run board boot twoSpaces = some W ∧
      liveFrames W = [⟨0x10000, ⟨0x80400000, 1⟩⟩, ⟨0x20000, ⟨0x80400000, 1⟩⟩] ∧
      ¬ Exclusive W := by
  have hrun : (run board boot twoSpaces).map (fun W => (liveFrames W, decide (Exclusive W))) =
      some ([⟨0x10000, ⟨0x80400000, 1⟩⟩, ⟨0x20000, ⟨0x80400000, 1⟩⟩], false) := by decide +kernel
  obtain ⟨W, hW, hlive⟩ := map_eq_some_iff.mp hrun
  obtain ⟨hframes, hex⟩ := Prod.mk.inj hlive
  exact ⟨W, hW, hframes, of_decide_eq_false hex⟩

end FrameExclusivity
