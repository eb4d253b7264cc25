import Whuse.OwnedMapping

/-! What one call can do. The effect of every call whose range does not pass the last address
is one of a few shapes, with the table, the allocator, the memory and the break it leaves.
Later invariants are proved by cases on these shapes and never unfold a call. -/
namespace CallEffects

open MachineWord IntervalTable AddressSpace CallRuns MappingTable OwnedMapping Option

def NoWrap : Call → Prop
  | .mapAnonymous _ _ len _ => pageUp len ≤ usizeMax
  | .mapAnonymousShared _ _ len _ => pageUp len ≤ usizeMax
  | .mapAnonymousAt _ addr len _ => addr + pageUp len ≤ usizeMax
  | .mapAnonymousSharedAt _ addr len _ => addr + pageUp len ≤ usizeMax
  | .mapFixedBytes _ addr _ memLen _ => addr + memLen ≤ usizeMax
  | .mapFixedSharedBytes _ addr _ memLen _ => addr + memLen ≤ usizeMax
  | .mapSharedExisting addr data _ => addr + max data.inner.len 1 ≤ usizeMax
  | .installHostRange addr len _ => addr + len ≤ usizeMax
  | .unmap addr len => addr + pageUp len ≤ usizeMax
  | .mprotect addr len _ => addr + pageUp len ≤ usizeMax
  | .brk _ none => True
  | .brk _ (some newBreak) => pageUp newBreak ≤ usizeMax
  | .clear => True
  | .writeBytes _ _ => True
  | .reserveBase _ => True
  | .setBreak newBreak => pageUp newBreak ≤ usizeMax

structure SpaceOk (S : AddressSpaceInner) : Prop where
  table : TableWellFormed S.mappings
  breakFits : pageUp S.programBreak ≤ usizeMax

def ownedHeap : Call → Option Heap
  | .mapAnonymous heap _ _ _ => some heap
  | .mapAnonymousAt heap _ _ _ => some heap
  | .mapFixedBytes heap _ _ _ _ => some heap
  | .brk heap _ => some heap
  | _ => none

def sharedHeap : Call → Option Heap
  | .mapAnonymousShared heap _ _ _ => some heap
  | .mapAnonymousSharedAt heap _ _ _ => some heap
  | .mapFixedSharedBytes heap _ _ _ _ => some heap
  | _ => none

/-- The area a successful mapping call places; `answer` is what the call returned. -/
def placedArea (c : Call) (oldBreak answer : ℕ) : MappingArea :=
  match c with
  | .mapAnonymous _ _ len prot => ⟨answer, pageUp len, prot⟩
  | .mapAnonymousShared _ _ len prot => ⟨answer, pageUp len, prot⟩
  | .mapAnonymousAt _ addr len prot => ⟨addr, pageUp len, prot⟩
  | .mapAnonymousSharedAt _ addr len prot => ⟨addr, pageUp len, prot⟩
  | .mapFixedBytes _ addr _ memLen prot => ⟨addr, memLen, prot⟩
  | .mapFixedSharedBytes _ addr _ memLen prot => ⟨addr, memLen, prot⟩
  | .mapSharedExisting addr data prot => ⟨addr, max data.inner.len 1, prot⟩
  | .installHostRange addr len prot => ⟨addr, len, prot⟩
  | .brk _ _ => ⟨pageUp oldBreak, pageUp answer - pageUp oldBreak, defaultProt⟩
  | _ => ⟨0, 0, 0⟩

def existingStorage : Call → Option SegmentStorage
  | .mapSharedExisting addr data _ => some (.shared data addr)
  | .installHostRange addr len _ => some (.host addr len)
  | _ => none

def unmappedRange (c : Call) (oldBreak answer : ℕ) : Option (ℕ × ℕ) :=
  match c with
  | .unmap addr len => some (addr, pageUp len)
  | .brk _ (some _) => some (pageUp answer, pageUp oldBreak - pageUp answer)
  | _ => none

def breakAfter (c : Call) (oldBreak answer : ℕ) : ℕ :=
  match c with
  | .brk _ _ => answer
  | .setBreak newBreak => newBreak
  | _ => oldBreak

def foundStart (S : AddressSpaceInner) (fuel len : ℕ) : Option ℕ :=
  match searchLoop S.mappings (alignUp len pageSize) fuel (alignUp S.nextMappingBase pageSize) with
  | some (.ok (start, _)) => some start
  | _ => none

/-- What the answer of a successful call is, where the call or the search determines it. -/
def Answers (c : Call) (S : AddressSpaceInner) (answer : ℕ) : Prop :=
  match c with
  | .mapAnonymous _ fuel len _ => foundStart S fuel len = some answer
  | .mapAnonymousShared _ fuel len _ => foundStart S fuel len = some answer
  | .brk _ none => answer = S.programBreak
  | .brk _ (some requested) => answer = alignUp requested 16
  | _ => True

/-- The address and the length of the private range that a call asks frames for, if it comes to
that. -/
def request (c : Call) (M : Machine) : Option (ℕ × ℕ) :=
  let fixed (heap : Heap) (addr len : ℕ) : Option (ℕ × ℕ) :=
    if len ≠ 0 ∧ heap.tryReserve len then some (addr, len) else none
  match c with
  | .mapAnonymous heap fuel len _ =>
    match foundStart M.space fuel len with
    | none => none
    | some start =>
      if len ≠ 0 ∧ heap.tryReserve (alignUp len pageSize) then some (start, alignUp len pageSize)
      else none
  | .mapAnonymousAt heap addr len _ =>
    if len = 0 ∨ addr &&& (pageSize - 1) ≠ 0 then none
    else fixed heap addr (alignUp len pageSize)
  | .mapFixedBytes heap addr bytes memLen _ =>
    if memLen < bytes.length then none else fixed heap addr memLen
  | .brk heap (some requested) =>
    let newBreak := alignUp requested 16
    if userHeapBase ≤ requested ∧ M.space.programBreak < newBreak ∧
        alignUp M.space.programBreak pageSize < alignUp newBreak pageSize then
      fixed heap (alignUp M.space.programBreak pageSize)
        (alignUp newBreak pageSize - alignUp M.space.programBreak pageSize)
    else none
  | _ => none

/-- The calls that answer a page boundary. -/
def Anonymous : Call → Prop
  | .mapAnonymous _ _ _ _ => True
  | .mapAnonymousShared _ _ _ _ => True
  | .mapAnonymousAt _ _ _ _ => True
  | .mapAnonymousSharedAt _ _ _ _ => True
  | _ => False

def AreaFits (area : MappingArea) : Prop := 0 < area.len ∧ area.start + area.len ≤ usizeMax

structure Leaves (N : Machine) (m : Mappings) (fa : FrameAllocator) (mem : Memory) (brk : ℕ) :
    Prop where
  table : N.space.mappings = m
  allocator : N.space.frameAllocator = fa
  memory : N.mem = mem
  programBreak : N.space.programBreak = brk

inductive CallEffect (hal : HalMemory) (c : Call) (M : Machine) : KernelResult ℕ × Machine → Prop where
  | failed {e k : ℕ} {N : Machine}
      (leaves : Leaves N M.space.mappings (advance M.space.frameAllocator k) M.mem
        M.space.programBreak) : CallEffect hal c M (.error e, N)
  | owned {heap : Heap} {area : MappingArea} {data : List UInt8} {answer : ℕ} {N : Machine}
      (hheap : ownedHeap c = some heap)
      (harea : area = placedArea c M.space.programBreak answer) (hfits : AreaFits area)
      (haligned : Anonymous c → pageOffset area.start = 0) (hdata : data.length = area.len)
      (hanswer : Answers c M.space answer)
      (hroom : Room M.space.frameAllocator (pagesTaken area.start area.len))
      (leaves : Leaves N (placeSegment M.space.mappings
          (ownedSegment heap M.space.frameAllocator area.start area.len area.prot))
        (advance M.space.frameAllocator (pagesTaken area.start area.len))
        (copyBytes M.mem (copyTarget hal M.space.frameAllocator area.start) data)
        (breakAfter c M.space.programBreak answer)) : CallEffect hal c M (.ok answer, N)
  | shared {heap : Heap} {area : MappingArea} {data : List UInt8} {answer : ℕ} {N : Machine}
      (hheap : sharedHeap c = some heap)
      (harea : area = placedArea c M.space.programBreak answer) (hfits : AreaFits area)
      (haligned : Anonymous c → pageOffset area.start = 0) (hdata : data.length = area.len)
      (hanswer : Answers c M.space answer)
      (leaves : Leaves N
        (placeSegment M.space.mappings (sharedSegment heap area.start area.len area.prot))
        M.space.frameAllocator (sharedMemory heap area.start data M.mem)
        M.space.programBreak) : CallEffect hal c M (.ok answer, N)
  | existing {storage : SegmentStorage} {area : MappingArea} {answer : ℕ} {N : Machine}
      (hstorage : existingStorage c = some storage)
      (harea : area = placedArea c M.space.programBreak answer) (hfits : AreaFits area)
      (leaves : Leaves N (placeSegment M.space.mappings ⟨area, storage⟩) M.space.frameAllocator
        M.mem M.space.programBreak) : CallEffect hal c M (.ok answer, N)
  | unmapped {start len answer : ℕ} {N : Machine}
      (hrange : unmappedRange c M.space.programBreak answer = some (start, len)) (hlen : 0 < len)
      (hb : start + len ≤ usizeMax)
      (hbreak : ∀ heap b, c = .brk heap b → ¬ M.space.programBreak < answer)
      (leaves : Leaves N (unmapTable M.space.mappings start len) M.space.frameAllocator M.mem
        (breakAfter c M.space.programBreak answer)) : CallEffect hal c M (.ok answer, N)
  | reprotected {addr len prot answer : ℕ} {N : Machine} (hc : c = .mprotect addr len prot)
      (hlen : 0 < len) (hb : addr + pageUp len ≤ usizeMax)
      (leaves : Leaves N (mprotectTable M.space.mappings addr (pageUp len) prot)
        M.space.frameAllocator M.mem M.space.programBreak) : CallEffect hal c M (.ok answer, N)
  | emptied {answer : ℕ} {N : Machine} (hc : c = .clear)
      (leaves : Leaves N ∅ M.space.frameAllocator M.mem userHeapBase) :
      CallEffect hal c M (.ok answer, N)
  | kept {heap : Heap} {newBreak : Option ℕ} {answer : ℕ} {N : Machine}
      (hc : c = .brk heap newBreak) (hpages : pageUp answer = pageUp M.space.programBreak)
      (leaves : Leaves N M.space.mappings M.space.frameAllocator M.mem answer) :
      CallEffect hal c M (.ok answer, N)
  | adjusted {answer : ℕ} {N : Machine} (hc : (∃ next, c = .reserveBase next) ∨ ∃ b, c = .setBreak b)
      (hfits : pageUp (breakAfter c M.space.programBreak answer) ≤ usizeMax)
      (leaves : Leaves N M.space.mappings M.space.frameAllocator M.mem
        (breakAfter c M.space.programBreak answer)) : CallEffect hal c M (.ok answer, N)
  | wrote {addr : ℕ} {bytes : List UInt8} {o : KernelResult ℕ × Machine}
      (hc : c = .writeBytes addr bytes) (ho : o = withZero (writeBytes hal addr bytes M)) :
      CallEffect hal c M o

def answering (answer : ℕ) (o : KernelResult Unit × Machine) : KernelResult ℕ × Machine :=
  (o.1.map fun _ => answer, o.2)

theorem mapSharedExisting_eq (addr : ℕ) (data : Arc VecBuf) (prot : ℕ) (M : Machine) :
    mapSharedExisting addr data prot M = answering addr
      ((insertSegment M.space ⟨⟨addr, max data.inner.len 1, prot⟩, .shared data addr⟩).1,
        { M with space :=
          (insertSegment M.space ⟨⟨addr, max data.inner.len 1, prot⟩, .shared data addr⟩).2 }) := by
  unfold mapSharedExisting
  rcases insertSegment M.space _ with ⟨_ | _, _⟩ <;> rfl

/-- Where a call places its bytes, and what it answers. -/
structure Placed (c : Call) (M : Machine) (addr len prot answer : ℕ) : Prop where
  area : placedArea c M.space.programBreak answer = ⟨addr, len, prot⟩
  fits : 0 < len ∧ addr + len ≤ usizeMax
  aligned : Anonymous c → pageOffset addr = 0
  answers : Answers c M.space answer

/-- How a private mapping call goes, and with another `place` the shared call of its form: it is
refused before it maps, or it places the bytes. -/
inductive Maps (place : Place) (c : Call) (M : Machine) : KernelResult ℕ × Machine → Prop where
  | refused (e next : ℕ) (hasks : request c M = none) :
      Maps place c M (.error e, setNextBase next M)
  | placed {addr prot answer : ℕ} {data : List UInt8} (next : ℕ)
      (hasks : request c M = some (addr, data.length))
      (hplaced : NoWrap c → Placed c M addr data.length prot answer) :
      Maps place c M (answering answer (place addr data prot (setNextBase next M)))

theorem mapFixedBytesBy_cases (place : Place) (heap : Heap) (addr : ℕ) (bytes : List UInt8)
    (memLen prot : ℕ) (M : Machine) :
    request (.mapFixedBytes heap addr bytes memLen prot) M = none ∧
      (∃ e, mapFixedBytesBy place heap addr bytes memLen prot M = (.error e, M)) ∨
    ∃ data, request (.mapFixedBytes heap addr bytes memLen prot) M = some (addr, data.length) ∧
      0 < data.length ∧ data.length = memLen ∧
      mapFixedBytesBy place heap addr bytes memLen prot M = place addr data prot M := by
  simp only [request, mapFixedBytesBy]
  by_cases hshort : memLen < bytes.length
  · exact .inl ⟨if_pos hshort, _, if_pos (.inr hshort)⟩
  rw [if_neg hshort]
  by_cases hzero : memLen = 0
  · exact .inl ⟨if_neg fun hand => hand.1 hzero, _, if_pos (.inl hzero)⟩
  rw [if_neg (not_or.mpr ⟨hzero, hshort⟩)]
  by_cases hheap : heap.tryReserve memLen = true
  · have hlen : (bytes ++ List.replicate (memLen - bytes.length) 0).length = memLen := by
      simp only [List.length_append, List.length_replicate]
      omega
    refine .inr ⟨_, ?_, by omega, hlen, if_pos hheap⟩
    rw [hlen]
    exact if_pos ⟨hzero, hheap⟩
  · exact .inl ⟨if_neg fun hand => hheap hand.2, _, if_neg hheap⟩

theorem mapFixedBytesBy_maps (place : Place) (heap : Heap) (addr : ℕ) (bytes : List UInt8)
    (memLen prot : ℕ) (M : Machine) :
    Maps place (.mapFixedBytes heap addr bytes memLen prot) M
      (withZero (mapFixedBytesBy place heap addr bytes memLen prot M)) := by
  rcases mapFixedBytesBy_cases place heap addr bytes memLen prot M with
    ⟨hasks, e, he⟩ | ⟨data, hasks, hpos, rfl, he⟩ <;> rw [he]
  · exact .refused e M.space.nextMappingBase hasks
  · exact .placed M.space.nextMappingBase hasks fun hb => ⟨rfl, ⟨hpos, hb⟩, nofun, trivial⟩

theorem mapAnonymousAtBy_maps (place : Place) (heap : Heap) (addr len prot : ℕ) (M : Machine) :
    Maps place (.mapAnonymousAt heap addr len prot) M
      (mapAnonymousAtBy place heap addr len prot M) := by
  unfold mapAnonymousAtBy
  by_cases hbad : len = 0 ∨ addr &&& (pageSize - 1) ≠ 0
  · rw [if_pos hbad]
    exact .refused einval M.space.nextMappingBase (if_pos hbad)
  rw [if_neg hbad]
  rcases mapFixedBytesBy_cases place heap addr [] (alignUp len pageSize) prot M with
    ⟨hasks, e, he⟩ | ⟨data, hasks, hpos, hlen, he⟩ <;> rw [he]
  · exact .refused e M.space.nextMappingBase ((if_neg hbad).trans hasks)
  have hmaps : Maps place (.mapAnonymousAt heap addr len prot) M
      (answering addr (place addr data prot M)) := by
    refine .placed M.space.nextMappingBase ((if_neg hbad).trans hasks) fun hb => ?_
    rw [alignUp_page ((Nat.le_add_left _ _).trans hb)] at hlen
    rw [hlen] at hpos ⊢
    exact ⟨rfl, ⟨hpos, hb⟩, fun _ => not_not.mp fun hne => hbad (.inr hne), trivial⟩
  generalize place addr data prot M = placed at hmaps ⊢
  obtain ⟨e | _, N⟩ := placed <;> exact hmaps

theorem pageOffset_alignUp (n : ℕ) : pageOffset (alignUp n pageSize) = 0 := by
  have h : alignUp n pageSize = wrappingAdd n (pageSize - 1) / 2 ^ 12 * 2 ^ 12 :=
    alignDown_two_pow (k := 12) (wrappingAdd_le n (pageSize - 1)) (by decide)
  rw [h, pageOffset_eq_mod]
  exact Nat.mul_mod_left _ _

theorem searchLoop_found {m : Mappings} {aligned fuel from_ start next : ℕ}
    (hfrom : pageOffset from_ = 0)
    (h : searchLoop m aligned fuel from_ = some (.ok (start, next))) :
    start + aligned ≤ usizeMax ∧ pageOffset start = 0 ∧ next = start + aligned := by
  induction fuel generalizing from_ with
  | zero => cases h
  | succ fuel ih =>
    unfold searchLoop at h
    split at h
    · exact ih (pageOffset_alignUp _) h
    split at h
    · cases h
    next hadd =>
    obtain ⟨rfl, rfl⟩ := h
    obtain ⟨hfits, hsum⟩ := checkedAdd_eq_some.mp hadd
    exact ⟨hfits, hfrom, hsum⟩

variable {heap : Heap} {o : KernelResult ℕ × Machine} {prot fuel len : ℕ} {M : Machine}

theorem foundStart_spec {S : AddressSpaceInner} {start : ℕ}
    (h : foundStart S fuel len = some start) :
    start + alignUp len pageSize ≤ usizeMax ∧ pageOffset start = 0 := by
  unfold foundStart at h
  split at h
  · next hsearch =>
    obtain ⟨hfits, haligned, -⟩ := searchLoop_found (pageOffset_alignUp _) hsearch
    cases h
    exact ⟨hfits, haligned⟩
  · cases h

theorem mapAnonymousBy_maps {place : Place}
    (hx : mapAnonymousBy place heap fuel len prot M = some o) :
    Maps place (.mapAnonymous heap fuel len prot) M o := by
  unfold mapAnonymousBy at hx
  by_cases hlen : len = 0
  · rw [if_pos hlen] at hx
    cases hx
    refine .refused einval M.space.nextMappingBase ?_
    simp only [request]
    split
    · rfl
    · exact if_neg fun hand => hand.1 hlen
  · rw [if_neg hlen] at hx
    cases hs : searchLoop M.space.mappings (alignUp len pageSize) fuel
        (alignUp M.space.nextMappingBase pageSize) with
    | none => simp [hs] at hx
    | some found =>
      rcases found with e | range
      · simp only [hs, some.injEq] at hx
        subst hx
        exact .refused e M.space.nextMappingBase (by simp [request, foundStart, hs])
      obtain ⟨start, next⟩ := range
      have hfound : foundStart M.space fuel len = some start := by rw [foundStart, hs]
      simp only [hs] at hx
      split at hx
      · next hheap =>
        have hmaps : Maps place (.mapAnonymous heap fuel len prot) M (answering start
            (place start (List.replicate (alignUp len pageSize) 0) prot (setNextBase next M))) := by
          refine .placed next (by simp [request, hfound, hlen, hheap]) fun hb => ?_
          obtain ⟨hfits, haligned⟩ := foundStart_spec hfound
          rw [alignUp_page hb] at hfits ⊢
          rw [List.length_replicate]
          exact ⟨rfl, ⟨pageUp_pos (Nat.pos_of_ne_zero hlen), hfits⟩, fun _ => haligned, hfound⟩
        generalize place start _ prot (setNextBase next M) = placed at hx hmaps
        obtain ⟨e | _, N⟩ := placed <;> cases hx <;> exact hmaps
      · next hheap =>
        cases hx
        exact .refused enomem next (by simp [request, hfound, hheap])

section Effects

variable {hal : HalMemory} {c d : Call} {M : Machine} {requested : ℕ}

theorem failed_refl (e : ℕ) : CallEffect hal c M (.error e, M) :=
  .failed (k := 0) ⟨rfl, (advance_zero _).symm, rfl, rfl⟩

theorem failed_setNext (e next : ℕ) : CallEffect hal c M (.error e, setNextBase next M) :=
  .failed (k := 0) ⟨rfl, (advance_zero _).symm, rfl, rfl⟩

theorem Maps.owned_effect (h : Maps (mapOwned hal heap) c M o) (hM : SpaceOk M.space)
    (hc : NoWrap c) (hheap : ownedHeap c = some heap)
    (hbreak : ∀ answer, breakAfter c M.space.programBreak answer = M.space.programBreak) :
    CallEffect hal c M o := by
  cases h with
  | refused e next _ => exact failed_setNext e next
  | @placed addr prot answer data next _ hplaced =>
    obtain ⟨harea, ⟨hpos, hb⟩, haligned, hanswer⟩ := hplaced hc
    have hmax : max data.length 1 = data.length := by omega
    have hcases := mapOwned_cases hal heap addr data prot (M := setNextBase next M) hM.table (by omega)
    rw [hmax, storedData_of_pos hpos] at hcases
    rcases hcases with ⟨hroom, he⟩ | ⟨_, k, _, he⟩ <;> rw [he]
    · refine .owned hheap harea.symm ⟨hpos, hb⟩ haligned rfl hanswer hroom ⟨rfl, rfl, rfl, ?_⟩
      rw [hbreak]
      rfl
    · exact .failed ⟨rfl, rfl, rfl, rfl⟩

theorem Maps.shared_effect (h : Maps (mapShared heap) c M o) (hM : SpaceOk M.space) (hc : NoWrap c)
    (hheap : sharedHeap d = some heap)
    (hd : ∀ {addr len prot answer}, Placed c M addr len prot answer →
      Placed d M addr len prot answer) : CallEffect hal d M o := by
  cases h with
  | refused e next _ => exact failed_setNext e next
  | @placed addr prot answer data next _ hplaced =>
    obtain ⟨harea, ⟨hpos, hb⟩, haligned, hanswer⟩ := hd (hplaced hc)
    have hmax : max data.length 1 = data.length := by omega
    have hok := mapShared_ok heap addr data prot (M := setNextBase next M) hM.table (by omega)
    rw [hok, hmax]
    exact .shared hheap harea.symm ⟨hpos, hb⟩ haligned rfl hanswer ⟨rfl, rfl, rfl, rfl⟩

theorem insertSegment_effect (answer : ℕ) {storage : SegmentStorage} {area : MappingArea}
    (hM : SpaceOk M.space) (hstorage : existingStorage c = some storage)
    (harea : area = placedArea c M.space.programBreak answer) (hfits : AreaFits area) :
    CallEffect hal c M (answering answer ((insertSegment M.space ⟨area, storage⟩).1,
        { M with space := (insertSegment M.space ⟨area, storage⟩).2 })) := by
  rw [insertSegment_ok M.space hM.table (s := ⟨area, storage⟩) hfits]
  exact .existing hstorage harea hfits ⟨rfl, rfl, rfl, rfl⟩

/-- Rounding a break to sixteen bytes does not move it past its page boundary. -/
theorem break_rounding (h : pageUp requested ≤ usizeMax) :
    pageUp (alignUp requested 16) = pageUp requested := by
  have hle : requested + (2 ^ 4 - 1) ≤ usizeMax := by
    unfold pageUp pageSize usizeMax at *
    omega
  have hround : alignUp requested 16 = (requested + 15) / 16 * 16 :=
    alignUp_two_pow (k := 4) (by decide) hle
  unfold pageUp pageSize
  omega

theorem pageUp_mono {a b : ℕ} (h : a ≤ b) : pageUp a ≤ pageUp b := by
  unfold pageUp pageSize
  omega

theorem brk_effect (hM : SpaceOk M.space) (hb : pageUp requested ≤ usizeMax) :
    CallEffect hal (.brk heap (some requested)) M (brk hal heap (some requested) M) := by
  have hold := hM.breakFits
  have hnew : pageUp (alignUp requested 16) ≤ usizeMax := by rw [break_rounding hb]; exact hb
  simp only [brk, moveBreak]
  split
  · exact failed_refl _
  rw [alignUp_page hold, alignUp_page hnew]
  generalize hround : alignUp requested 16 = newBreak at hnew
  by_cases hgrow : M.space.programBreak < newBreak
  · have hle := pageUp_mono (Nat.le_of_lt hgrow)
    rw [if_pos hgrow]
    by_cases hpages : pageUp M.space.programBreak < pageUp newBreak
    · rw [if_pos hpages]
      rcases mapFixedBytesBy_cases (mapOwned hal heap) heap (pageUp M.space.programBreak) []
        (pageUp newBreak - pageUp M.space.programBreak) defaultProt M with
        ⟨-, e, he⟩ | ⟨data, -, hpos, hlen, he⟩
      · rw [mapFixedBytes, he]
        exact failed_refl e
      have hmax : max data.length 1 = data.length := by omega
      have hcases := mapOwned_cases hal heap (pageUp M.space.programBreak) data defaultProt
        (M := M) hM.table (by omega)
      rw [hmax, storedData_of_pos hpos, hlen] at hcases
      rw [mapFixedBytes, he]
      rcases hcases with ⟨hroom, he⟩ | ⟨_, k, _, he⟩ <;> rw [he]
      · exact .owned rfl rfl ⟨Nat.sub_pos_of_lt hpages, by simp only [placedArea]; omega⟩
          (fun h => h.elim) hlen hround.symm hroom ⟨rfl, rfl, rfl, rfl⟩
      · exact .failed ⟨rfl, rfl, rfl, rfl⟩
    · rw [if_neg hpages]
      exact .kept rfl (by omega) ⟨rfl, rfl, rfl, rfl⟩
  · have hle := pageUp_mono (Nat.le_of_not_lt hgrow)
    rw [if_neg hgrow]
    by_cases hpages : pageUp newBreak < pageUp M.space.programBreak
    · have hlt : newBreak < M.space.programBreak := by
        by_contra hno
        have := pageUp_mono (show M.space.programBreak ≤ newBreak by omega)
        omega
      have hpos : 0 < pageUp M.space.programBreak - pageUp newBreak := by omega
      obtain ⟨d, hd⟩ := unmapRangeInner_ok M.space hpos
        (show pageUp newBreak + _ ≤ usizeMax by omega)
      rw [if_pos hlt, if_pos hpages, hd]
      exact .unmapped rfl hpos (by omega) (fun _ _ _ => hgrow) ⟨rfl, rfl, rfl, rfl⟩
    · rw [if_neg hpages, ite_self]
      exact .kept rfl (by omega) ⟨rfl, rfl, rfl, rfl⟩

theorem exec_effect (hM : SpaceOk M.space) (hc : NoWrap c) (hx : exec hal c M = some o) :
    CallEffect hal c M o := by
  cases c with
  | mapAnonymous => exact (mapAnonymousBy_maps hx).owned_effect hM hc rfl fun _ => rfl
  | mapAnonymousShared =>
    exact (mapAnonymousBy_maps hx).shared_effect hM hc rfl fun h => ⟨h.1, h.2, h.3, h.4⟩
  | mapAnonymousAt =>
    obtain rfl := some.inj hx
    exact (mapAnonymousAtBy_maps ..).owned_effect hM hc rfl fun _ => rfl
  | mapAnonymousSharedAt =>
    obtain rfl := some.inj hx
    exact (mapAnonymousAtBy_maps ..).shared_effect hM hc rfl fun h => ⟨h.1, h.2, h.3, h.4⟩
  | mapFixedBytes =>
    obtain rfl := some.inj hx
    exact (mapFixedBytesBy_maps ..).owned_effect hM hc rfl fun _ => rfl
  | mapFixedSharedBytes =>
    obtain rfl := some.inj hx
    exact (mapFixedBytesBy_maps ..).shared_effect hM hc rfl fun h => ⟨h.1, h.2, h.3, h.4⟩
  | mapSharedExisting addr data prot =>
    obtain rfl := some.inj hx
    rw [mapSharedExisting_eq]
    exact insertSegment_effect addr hM rfl rfl ⟨by simp, hc⟩
  | installHostRange addr len prot =>
    obtain rfl := some.inj hx
    unfold installHostRange
    split
    · exact failed_refl _
    · next hlen =>
      exact insertSegment_effect 0 hM rfl rfl ⟨Nat.pos_of_ne_zero hlen, hc⟩
  | unmap addr len =>
    obtain rfl := some.inj hx
    by_cases hlen : len = 0
    · rw [unmap, if_pos hlen]
      exact failed_refl _
    obtain ⟨d, hd⟩ := unmap_ok M (Nat.pos_of_ne_zero hlen) hc
    rw [hd]
    exact .unmapped rfl (pageUp_pos (Nat.pos_of_ne_zero hlen)) hc (fun _ _ h => by cases h)
      ⟨rfl, rfl, rfl, rfl⟩
  | mprotect addr len prot =>
    obtain rfl := some.inj hx
    by_cases hlen : len = 0
    · rw [mprotect, if_pos hlen]
      exact failed_refl _
    · rw [mprotect_ok M prot (Nat.pos_of_ne_zero hlen) hc]
      exact .reprotected rfl (Nat.pos_of_ne_zero hlen) hc ⟨rfl, rfl, rfl, rfl⟩
  | brk heap newBreak =>
    obtain rfl := some.inj hx
    cases newBreak with
    | none => exact .kept rfl rfl ⟨rfl, rfl, rfl, rfl⟩
    | some requested => exact brk_effect hM hc
  | clear =>
    obtain rfl := some.inj hx
    exact .emptied rfl ⟨rfl, rfl, rfl, rfl⟩
  | writeBytes addr bytes => exact .wrote rfl (some.inj hx).symm
  | reserveBase next =>
    obtain rfl := some.inj hx
    exact .adjusted (.inl ⟨next, rfl⟩) hM.breakFits ⟨rfl, rfl, rfl, rfl⟩
  | setBreak newBreak =>
    obtain rfl := some.inj hx
    exact .adjusted (.inr ⟨newBreak, rfl⟩) hc ⟨rfl, rfl, rfl, rfl⟩

end Effects

/-- The segments a call can put in the table. -/
inductive Makes (c : Call) (M : Machine) : Segment → Prop where
  | owned {heap : Heap} {area : MappingArea} (answer : ℕ) (hheap : ownedHeap c = some heap)
      (harea : area = placedArea c M.space.programBreak answer) (hfits : AreaFits area)
      (haligned : Anonymous c → pageOffset area.start = 0) (hanswer : Answers c M.space answer)
      (hroom : Room M.space.frameAllocator (pagesTaken area.start area.len)) :
      Makes c M (ownedSegment heap M.space.frameAllocator area.start area.len area.prot)
  | shared {heap : Heap} {area : MappingArea} (answer : ℕ) (hheap : sharedHeap c = some heap)
      (harea : area = placedArea c M.space.programBreak answer) (hfits : AreaFits area)
      (haligned : Anonymous c → pageOffset area.start = 0) (hanswer : Answers c M.space answer) :
      Makes c M (sharedSegment heap area.start area.len area.prot)
  | existing {storage : SegmentStorage} {area : MappingArea} (answer : ℕ)
      (hstorage : existingStorage c = some storage)
      (harea : area = placedArea c M.space.programBreak answer) (hfits : AreaFits area) :
      Makes c M ⟨area, storage⟩

/-- The range a call cuts out of the segments that are there. -/
def CutRange (c : Call) (M : Machine) (start len : ℕ) : Prop :=
  (∃ s, Makes c M s ∧ s.area.start = start ∧ s.area.len = len) ∨
  (∃ answer, unmappedRange c M.space.programBreak answer = some (start, len)) ∨
  ∃ n prot, c = .mprotect start n prot ∧ len = pageUp n

theorem effect_segments {hal : HalMemory} {c : Call} {Q : Segment → Prop} (h : CallEffect hal c M o)
    (hM : SpaceOk M.space) (hold : ∀ (k : ℕ) (s : Segment), M.space.mappings[k]? = some s → Q s)
    (hcut : ∀ (k : ℕ) s start len p, M.space.mappings[k]? = some s → CutRange c M start len →
      Q s → SliceOf s start (start + len) p →
      (p.area.prot = s.area.prot ∨ ∃ n, c = .mprotect start n p.area.prot) → Q p)
    (hmake : ∀ s, Makes c M s → Q s) :
    ∀ (k : ℕ) (s : Segment), o.2.space.mappings[k]? = some s → Q s := by
  have hm := hM.table
  have hunmap : ∀ start len, CutRange c M start len → 0 < len → ∀ (k : ℕ) (t : Segment),
      (unmapTable M.space.mappings start len)[k]? = some t → Q t := by
    intro start len hrange hlen k t ht
    obtain ⟨l, s, hs, hts, _⟩ := (rewrite_get hm (unmapPieces_cuts (by omega)) k t).mp ht
    rcases unmapPieces_slice (hm.fits hs) (by omega) hts with rfl | ⟨hsl, hprot, _⟩
    · exact hold l t hs
    · exact hcut l s start len t hs hrange (hold l s hs) hsl (.inl hprot)
  have hplaced : ∀ s, Makes c M s → Fits segmentExtent usizeMax s → ∀ (k : ℕ) (t : Segment),
      (placeSegment M.space.mappings s)[k]? = some t → Q t := by
    intro s hs hfits k t ht
    rcases (insert_get_of_free (E := segmentExtent) (unmapTable_wellFormed hm hfits.1)
      (placeSegment_free hm) k t hfits.1).mp ht with ⟨-, rfl⟩ | ht
    · exact hmake t hs
    · exact hunmap _ _ (.inl ⟨s, hs, rfl, rfl⟩) hfits.1 k t ht
  cases h with
  | failed leaves | kept _ _ leaves | adjusted _ _ leaves => rw [leaves.table]; exact hold
  | owned hheap harea hfits haligned _ hanswer hroom leaves =>
    rw [leaves.table]
    exact hplaced _ (.owned _ hheap harea hfits haligned hanswer hroom) hfits
  | shared hheap harea hfits haligned _ hanswer leaves =>
    rw [leaves.table]
    exact hplaced _ (.shared _ hheap harea hfits haligned hanswer) hfits
  | existing hstorage harea hfits leaves =>
    rw [leaves.table]
    exact hplaced _ (.existing _ hstorage harea hfits) hfits
  | unmapped hrange hlen _ _ leaves =>
    rw [leaves.table]
    exact hunmap _ _ (.inr (.inl ⟨_, hrange⟩)) hlen
  | reprotected hc hlen _ leaves =>
    rename_i addr len prot _ _ _
    rw [leaves.table]
    intro k t ht
    have hpos := pageUp_pos hlen
    obtain ⟨l, s, hs, hts, _⟩ := (rewrite_get hm (mprotectPieces_cuts prot (by omega)) k t).mp ht
    rcases mprotectPieces_slice (hm.fits hs) (by omega) hts with rfl | ⟨hsl, hprot⟩
    · exact hold l t hs
    refine hcut l s addr (pageUp len) t hs (.inr (.inr ⟨len, prot, hc, rfl⟩)) (hold l s hs)
      hsl ?_
    rcases hprot with hprot | hprot
    · exact .inl hprot
    · exact .inr ⟨len, by rw [hprot]; exact hc⟩
  | emptied _ leaves =>
    rw [leaves.table]
    intro k t ht
    simp at ht
  | wrote _ ho => rw [ho]; exact hold

end CallEffects
