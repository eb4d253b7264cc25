import Whuse.MappingTable

/-! What a placed mapping takes from the allocator, writes to memory and puts in the table.
A private mapping either finds all its pages past the cursor of the allocator or fails with
the table and the memory as they were. -/
namespace OwnedMapping

open MachineWord IntervalTable AddressSpace MappingTable

theorem allocPage_eq_some {fa fa' : FrameAllocator} {page : ℕ} : fa.allocPage = some (page, fa') ↔
      fa.next + pageSize ≤ usizeMax ∧ fa.next + pageSize ≤ fa.end_ ∧ page = fa.next ∧
        fa' = { fa with next := fa.next + pageSize } := by
  unfold FrameAllocator.allocPage
  by_cases hover : fa.next + pageSize ≤ usizeMax
  · by_cases hend : fa.end_ < fa.next + pageSize
    · simp [checkedAdd_of_le hover, hend]
    · simp [checkedAdd_of_le hover, hend, hover, eq_comm]
      omega
  · simp [checkedAdd_eq_none.mpr (Nat.lt_of_not_le hover), hover]

def Room (fa : FrameAllocator) (n : ℕ) : Prop :=
  n = 0 ∨ fa.next + n * pageSize ≤ min fa.end_ usizeMax

instance (fa : FrameAllocator) (n : ℕ) : Decidable (Room fa n) :=
  inferInstanceAs (Decidable (_ ∨ _))

def advance (fa : FrameAllocator) (n : ℕ) : FrameAllocator :=
  { fa with next := fa.next + n * pageSize }

@[simp] theorem advance_zero (fa : FrameAllocator) : advance fa 0 = fa := by
  rw [advance, Nat.zero_mul, Nat.add_zero]

theorem advance_succ (fa : FrameAllocator) (n : ℕ) :
    advance { fa with next := fa.next + pageSize } n = advance fa (n + 1) := by
  simp [advance, Nat.add_mul, Nat.add_assoc, Nat.add_comm (n * pageSize)]

theorem allocMore_cases (n : ℕ) (fa : FrameAllocator) :
    (Room fa n ∧ allocMore n fa = (true, advance fa n)) ∨
    (¬ Room fa n ∧ ∃ k, ¬ Room fa (k + 1) ∧ allocMore n fa = (false, advance fa k)) := by
  induction n generalizing fa with
  | zero => exact .inl ⟨.inl rfl, by simp [allocMore]⟩
  | succ n ih =>
    cases hp : fa.allocPage with
    | none =>
      have hnone : ∀ m, ¬ Room fa (m + 1) := by
        rintro m (h | h)
        · cases h
        · have hle : pageSize ≤ (m + 1) * pageSize := Nat.le_mul_of_pos_left _ (by omega)
          have : fa.allocPage = some (fa.next, { fa with next := fa.next + pageSize }) :=
            allocPage_eq_some.mpr ⟨by omega, by omega, rfl, rfl⟩
          rw [hp] at this
          cases this
      exact .inr ⟨hnone n, 0, hnone 0, by simp [allocMore, hp]⟩
    | some o =>
      obtain ⟨page, fa'⟩ := o
      obtain ⟨hmax, hend, rfl, rfl⟩ := allocPage_eq_some.mp hp
      have hrun : allocMore (n + 1) fa = allocMore n { fa with next := fa.next + pageSize } := by
        simp [allocMore, hp]
      have hroom : ∀ m, Room { fa with next := fa.next + pageSize } m ↔ Room fa (m + 1) := by
        intro m
        simp only [Room, Nat.add_mul]
        constructor
        · rintro (rfl | h)
          · right; simp; omega
          · right; omega
        · rintro (h | h)
          · cases h
          · right; omega
      rcases ih { fa with next := fa.next + pageSize } with ⟨hr, he⟩ | ⟨hr, k, hk, he⟩
      · exact .inl ⟨(hroom n).mp hr, by rw [hrun, he, advance_succ]⟩
      · exact .inr ⟨fun h => hr ((hroom n).mpr h), k + 1, fun h => hk ((hroom _).mpr h),
          by rw [hrun, he, advance_succ]⟩

def pagesTaken (addr len : ℕ) : ℕ := max (numPages addr len) 1

def storedData (bytes : List UInt8) : List UInt8 := if bytes.isEmpty then [0] else bytes

theorem storedData_length (bytes : List UInt8) :
    (storedData bytes).length = max bytes.length 1 := by
  cases bytes with
  | nil => rfl
  | cons b bytes => simp [storedData]

theorem storedData_of_pos {data : List UInt8} (h : 0 < data.length) : storedData data = data := by
  cases data with
  | nil => cases h
  | cons b data => rfl

/-- Where the data of a private mapping is copied to. -/
def copyTarget (hal : HalMemory) (fa : FrameAllocator) (addr : ℕ) : ℕ :=
  alignUp (hal.physToVirt fa.next) pageSize + pageOffset addr

def ownedStorage (heap : Heap) (fa : FrameAllocator) (addr len : ℕ) : SegmentStorage :=
  .owned ⟨heap.arc addr, ⟨fa.next, numPages addr len⟩⟩

theorem createOwnedStorage_cases (hal : HalMemory) (heap : Heap) (addr : ℕ) (bytes : List UInt8)
    (fa : FrameAllocator) (mem : Memory) :
    (Room fa (pagesTaken addr (max bytes.length 1)) ∧
      createOwnedStorage hal heap addr bytes fa mem =
        (.ok (ownedStorage heap fa addr (max bytes.length 1)),
          advance fa (pagesTaken addr (max bytes.length 1)),
          copyBytes mem (copyTarget hal fa addr) (storedData bytes))) ∨
    (¬ Room fa (pagesTaken addr (max bytes.length 1)) ∧ ∃ k, ¬ Room fa (k + 1) ∧
      createOwnedStorage hal heap addr bytes fa mem = (.error enomem, advance fa k, mem)) := by
  rw [← storedData_length]
  have htaken : pagesTaken addr (storedData bytes).length =
      numPages addr (storedData bytes).length - 1 + 1 := by unfold pagesTaken; omega
  have hdata : (if bytes.isEmpty then [0] else bytes) = storedData bytes := rfl
  simp only [createOwnedStorage, hdata]
  have hall := allocMore_cases (pagesTaken addr (storedData bytes).length) fa
  rcases hp : fa.allocPage with _ | o
  · simp only [htaken, allocMore, hp] at hall ⊢
    rcases hall with ⟨_, he⟩ | ⟨hr, k, hk, he⟩
    · cases he
    · exact .inr ⟨hr, k, hk, by simp [← (Prod.mk.inj he).2]⟩
  obtain ⟨page, fa'⟩ := o
  obtain ⟨_, _, rfl, _⟩ := allocPage_eq_some.mp hp
  simp only [htaken, allocMore, hp] at hall ⊢
  rcases hall with ⟨hr, he⟩ | ⟨hr, k, hk, he⟩
  · exact .inl ⟨hr, by simp [he, ownedStorage, copyTarget]⟩
  · exact .inr ⟨hr, k, hk, by simp [he]⟩

def withSegment (M : Machine) (fa : FrameAllocator) (s : Segment) (mem : Memory) : Machine :=
  ⟨{ M.space with frameAllocator := fa, mappings := placeSegment M.space.mappings s,
                  dirty := true }, mem⟩

def withAllocator (M : Machine) (fa : FrameAllocator) : Machine :=
  { M with space := { M.space with frameAllocator := fa } }

def ownedSegment (heap : Heap) (fa : FrameAllocator) (addr len prot : ℕ) : Segment :=
  ⟨⟨addr, len, prot⟩, ownedStorage heap fa addr len⟩

def inserting (M : Machine) (fa : FrameAllocator) (s : Segment) (mem : Memory) :
    KernelResult Unit × Machine :=
  ((insertSegment (withAllocator M fa).space s).1,
    ⟨(insertSegment (withAllocator M fa).space s).2, mem⟩)

variable {M : Machine}

theorem inserting_ok (hm : TableWellFormed M.space.mappings) (fa : FrameAllocator) {s : Segment}
    (hs : Fits segmentExtent usizeMax s) (mem : Memory) :
    inserting M fa s mem = (.ok (), withSegment M fa s mem) := by
  rw [inserting, insertSegment_ok (withAllocator M fa).space hm hs]
  rfl

theorem mapOwned_split (hal : HalMemory) (heap : Heap) (addr : ℕ) (bytes : List UInt8) (prot : ℕ)
    (M : Machine) :
    (Room M.space.frameAllocator (pagesTaken addr (max bytes.length 1)) ∧
      mapOwned hal heap addr bytes prot M =
        inserting M (advance M.space.frameAllocator (pagesTaken addr (max bytes.length 1)))
          (ownedSegment heap M.space.frameAllocator addr (max bytes.length 1) prot)
          (copyBytes M.mem (copyTarget hal M.space.frameAllocator addr) (storedData bytes))) ∨
    (¬ Room M.space.frameAllocator (pagesTaken addr (max bytes.length 1)) ∧ ∃ k,
      ¬ Room M.space.frameAllocator (k + 1) ∧
      mapOwned hal heap addr bytes prot M =
        (.error enomem, withAllocator M (advance M.space.frameAllocator k))) := by
  rw [mapOwned]
  rcases createOwnedStorage_cases hal heap addr bytes M.space.frameAllocator M.mem with
    ⟨hr, he⟩ | ⟨hr, k, hk, he⟩
  · exact .inl ⟨hr, by rw [he]; rfl⟩
  · exact .inr ⟨hr, k, hk, by rw [he]; rfl⟩

theorem mapOwned_cases (hal : HalMemory) (heap : Heap) (addr : ℕ) (bytes : List UInt8) (prot : ℕ)
    (hm : TableWellFormed M.space.mappings) (hb : addr + max bytes.length 1 ≤ usizeMax) :
    (Room M.space.frameAllocator (pagesTaken addr (max bytes.length 1)) ∧
      mapOwned hal heap addr bytes prot M = (.ok (), withSegment M
          (advance M.space.frameAllocator (pagesTaken addr (max bytes.length 1)))
          (ownedSegment heap M.space.frameAllocator addr (max bytes.length 1) prot)
          (copyBytes M.mem (copyTarget hal M.space.frameAllocator addr) (storedData bytes)))) ∨
    (¬ Room M.space.frameAllocator (pagesTaken addr (max bytes.length 1)) ∧ ∃ k,
      ¬ Room M.space.frameAllocator (k + 1) ∧
      mapOwned hal heap addr bytes prot M =
        (.error enomem, withAllocator M (advance M.space.frameAllocator k))) := by
  refine (mapOwned_split hal heap addr bytes prot M).imp_left fun ⟨hr, he⟩ => ⟨hr, ?_⟩
  have hfit : Fits segmentExtent usizeMax
      (ownedSegment heap M.space.frameAllocator addr (max bytes.length 1) prot) :=
    ⟨by simp [ownedSegment], hb⟩
  rw [he, inserting_ok hm _ hfit]

/-- The size of the buffer behind a shared mapping. -/
def bufferLen (addr len : ℕ) : ℕ := wrappingAdd (storageLen addr len) pageSize

def sharedPtr (heap : Heap) (addr : ℕ) : ℕ := alignUp heap.vecPtr pageSize + pageOffset addr

def sharedSegment (heap : Heap) (addr len prot : ℕ) : Segment :=
  ⟨⟨addr, len, prot⟩,
    .shared ⟨heap.arc addr, ⟨heap.vecPtr, bufferLen addr len⟩⟩ (sharedPtr heap addr)⟩

def sharedMemory (heap : Heap) (addr : ℕ) (bytes : List UInt8) (mem : Memory) : Memory :=
  copyBytes
    (copyBytes mem heap.vecPtr (List.replicate (bufferLen addr (max bytes.length 1)) 0))
    (sharedPtr heap addr) (storedData bytes)

theorem mapShared_eq (heap : Heap) (addr : ℕ) (bytes : List UInt8) (prot : ℕ) (M : Machine) :
    mapShared heap addr bytes prot M =
      inserting M M.space.frameAllocator (sharedSegment heap addr (max bytes.length 1) prot)
        (sharedMemory heap addr bytes M.mem) := by
  have hstore : createSharedStorage heap addr bytes M.mem =
      ((sharedSegment heap addr (max bytes.length 1) prot).storage,
        sharedMemory heap addr bytes M.mem) := by
    simp only [sharedMemory, ← storedData_length]
    rfl
  rw [mapShared, hstore]
  rfl

theorem mapShared_ok (heap : Heap) (addr : ℕ) (bytes : List UInt8) (prot : ℕ)
    (hm : TableWellFormed M.space.mappings) (hb : addr + max bytes.length 1 ≤ usizeMax) :
    mapShared heap addr bytes prot M = (.ok (), withSegment M M.space.frameAllocator
        (sharedSegment heap addr (max bytes.length 1) prot)
        (sharedMemory heap addr bytes M.mem)) := by
  have hfit : Fits segmentExtent usizeMax (sharedSegment heap addr (max bytes.length 1) prot) :=
    ⟨by simp [sharedSegment], hb⟩
  rw [mapShared_eq, inserting_ok hm _ hfit]

end OwnedMapping
