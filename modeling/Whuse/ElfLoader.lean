import Whuse.CallRuns

/-! The image loader of the `mm` crate. A load reads headers out of untrusted bytes and makes
its changes through address-space calls, each in its own critical section. It stops early on
an error code, on an index out of range, or with a placement search still running. -/
namespace ElfLoader

open MachineWord AddressSpace CallRuns List Option

inductive Stop where
  | errno (e : ℕ)
  | panic
  | running
  deriving DecidableEq, Repr

abbrev Load := ExceptT Stop (StateM Machine)

def okOr {α : Type} (o : Option α) (e : ℕ) : Except Stop α :=
  match o with
  | some a => .ok a
  | none => .error (.errno e)

def lift {α : Type} (x : Except Stop α) : Load α := ExceptT.mk fun M => (x, M)

def perform (hal : HalMemory) (c : Call) : Load Unit := ExceptT.mk fun M =>
  match exec hal c M with
  | none => (.error .running, M)
  | some (.ok _, N) => (.ok (), N)
  | some (.error e, N) => (.error (.errno e), N)

def slice (bytes : List UInt8) (start end_ : ℕ) : Except Stop (List UInt8) :=
  if start ≤ end_ ∧ end_ ≤ bytes.length then .ok ((bytes.drop start).take (end_ - start))
  else .error .panic

def fromLeBytes (bytes : List UInt8) : ℕ := bytes.foldr (fun b n => b.toNat + 256 * n) 0

/-- The sum of the bound check wraps, so a huge offset passes it and the slice is out of
range. -/
def readLe (width : ℕ) (bytes : List UInt8) (offset : ℕ) : Except Stop ℕ :=
  if bytes.length < wrappingAdd offset width then .error (.errno enoexec)
  else (slice bytes offset (wrappingAdd offset width)).map fromLeBytes

def readU16 := readLe 2
def readU32 := readLe 4
def readU64 := readLe 8

structure ElfHeader where
  class_ : UInt8
  endianness : UInt8
  elfType : ℕ
  entry : ℕ
  programHeaderOffset : ℕ
  programHeaderSize : ℕ
  programHeaderNum : ℕ
  deriving DecidableEq, Repr

def elfMagic : List UInt8 := [0x7f, 0x45, 0x4c, 0x46]

def ElfHeader.parse (image : List UInt8) : Except Stop ElfHeader :=
  if image.length < 64 ∨ image.take 4 ≠ elfMagic then .error (.errno enoexec)
  else do
    let elfType ← readU16 image 16
    let entry ← readU64 image 24
    let programHeaderOffset ← readU64 image 32
    let programHeaderSize ← readU16 image 54
    let programHeaderNum ← readU16 image 56
    pure ⟨image.getD 4 0, image.getD 5 0, elfType, entry, programHeaderOffset, programHeaderSize,
      programHeaderNum⟩

structure ProgramHeader where
  segmentType : ℕ
  flags : ℕ
  offset : ℕ
  vaddr : ℕ
  fileSize : ℕ
  memSize : ℕ
  deriving DecidableEq, Repr

def ProgramHeader.parse (image : List UInt8) (offset : ℕ) : Except Stop ProgramHeader :=
  if image.length < wrappingAdd offset 56 then .error (.errno enoexec)
  else do
    let segmentType ← readU32 image offset
    let flags ← readU32 image (wrappingAdd offset 4)
    let fileOffset ← readU64 image (wrappingAdd offset 8)
    let vaddr ← readU64 image (wrappingAdd offset 16)
    let fileSize ← readU64 image (wrappingAdd offset 32)
    let memSize ← readU64 image (wrappingAdd offset 40)
    pure ⟨segmentType, flags, fileOffset, vaddr, fileSize, memSize⟩

def ptLoad : ℕ := 1
def etExec : ℕ := 2
def etDyn : ℕ := 3

def programHeader (header : ElfHeader) (image : List UInt8) (index : ℕ) :
    Except Stop ProgramHeader :=
  ProgramHeader.parse image
    (wrappingAdd header.programHeaderOffset (index * header.programHeaderSize))

def elfFlagsToProt (flags : ℕ) : ℕ :=
  let prot := if flags &&& 0b100 ≠ 0 then 0b001 else 0
  let prot := if flags &&& 0b010 ≠ 0 then prot ||| 0b010 else prot
  let prot := if flags &&& 0b001 ≠ 0 then prot ||| 0b100 else prot
  if prot = 0 then defaultProt else prot

structure LoadRange where
  minVaddr : ℕ
  maxVaddrEnd : ℕ
  loadSegments : ℕ
  deriving DecidableEq, Repr

def scanHeader (header : ElfHeader) (image : List UInt8) (range : LoadRange) (index : ℕ) :
    Except Stop LoadRange := do
  let ph ← programHeader header image index
  if ph.segmentType ≠ ptLoad then pure range
  else if ph.memSize < ph.fileSize then .error (.errno enoexec)
  else
    let vaddrEnd ← okOr (checkedAdd ph.vaddr ph.memSize) enoexec
    pure ⟨min range.minVaddr ph.vaddr, max range.maxVaddrEnd vaddrEnd, range.loadSegments + 1⟩

def findPhdrVaddr (header : ElfHeader) (image : List UInt8) : List ℕ → Except Stop ℕ
  | [] => .ok 0
  | index :: rest => do
    let ph ← programHeader header image index
    if ph.segmentType ≠ ptLoad ∨ ph.fileSize = 0 then findPhdrVaddr header image rest
    else
      let fileEnd ← okOr (checkedAdd ph.offset ph.fileSize) enoexec
      let phoff := header.programHeaderOffset
      if phoff < ph.offset ∨ fileEnd ≤ phoff then findPhdrVaddr header image rest
      else okOr (checkedAdd ph.vaddr (phoff - ph.offset)) enoexec

structure LoadHeap where
  segBytes : ℕ → Bool
  segment : ℕ → Heap

structure MappedElfImage where
  entry : ℕ
  loadBias : ℕ
  phdrAddr : ℕ
  phnum : ℕ
  phent : ℕ
  highestEnd : ℕ
  isDyn : Bool
  deriving DecidableEq, Repr

section Mapping

variable (hal : HalMemory)

def reserveDynamicLoadBias (fuel minVaddr maxVaddrEnd : ℕ) : Load ℕ := do
  let loadFloor := alignDown minVaddr pageSize
  let span := alignUp (max (maxVaddrEnd - loadFloor) pageSize) pageSize
  let M ← get
  match searchLoop M.space.mappings span fuel (alignUp M.space.nextMappingBase pageSize) with
  | none => throw .running
  | some (.error e) => throw (.errno e)
  | some (.ok (base, nextBase)) =>
    perform hal (.reserveBase nextBase)
    if base < loadFloor then throw (.errno enomem) else pure (base - loadFloor)

def mapProgramHeader (heap : LoadHeap) (header : ElfHeader) (image : List UInt8) (loadBias : ℕ)
    (index : ℕ) : Load Unit := do
  let ph ← lift (programHeader header image index)
  if ph.segmentType ≠ ptLoad then pure ()
  else if ph.memSize < ph.fileSize then throw (.errno enoexec)
  else
    let dataEnd ← lift (okOr (checkedAdd ph.offset ph.fileSize) enoexec)
    if image.length < dataEnd then throw (.errno enoexec)
    else
      let mappedVaddr ← lift (okOr (checkedAdd ph.vaddr loadBias) enoexec)
      let segStart := alignDown mappedVaddr pageSize
      let off := mappedVaddr - segStart
      let memLen ← lift (okOr (checkedAdd off ph.memSize) enoexec)
      let segMemLen := alignUp memLen pageSize
      if heap.segBytes index then
        let data ← lift (slice image ph.offset dataEnd)
        perform hal (.mapFixedBytes (heap.segment index) segStart (List.replicate off 0 ++ data)
          segMemLen (elfFlagsToProt ph.flags))
      else throw (.errno enomem)

def loadBiasOf (fuel : ℕ) (header : ElfHeader) (range : LoadRange) : Load ℕ :=
  if header.elfType = etExec then pure 0
  else if header.elfType = etDyn then
    reserveDynamicLoadBias hal fuel range.minVaddr range.maxVaddrEnd
  else throw (.errno enoexec)

def mapElfSegments (heap : LoadHeap) (fuel : ℕ) (image : List UInt8) : Load MappedElfImage := do
  let header ← lift (ElfHeader.parse image)
  if header.programHeaderSize ≠ 56 ∨ header.class_ ≠ 2 ∨ header.endianness ≠ 1 ∨
      header.programHeaderNum = 0 then throw (.errno enoexec)
  else
    let indices := List.range header.programHeaderNum
    let range ← lift (indices.foldlM (scanHeader header image) ⟨usizeMax, 0, 0⟩)
    if range.loadSegments = 0 then throw (.errno enoexec)
    else
      let loadBias ← loadBiasOf hal fuel header range
      indices.forM (mapProgramHeader hal heap header image loadBias)
      let phdrVaddr ← lift (findPhdrVaddr header image indices)
      let phdrAddr ← lift (okOr (checkedAdd phdrVaddr loadBias) enoexec)
      let entry ← lift (okOr (checkedAdd header.entry loadBias) enoexec)
      let highest ← lift (okOr (checkedAdd range.maxVaddrEnd loadBias) enoexec)
      pure ⟨entry, loadBias, phdrAddr, header.programHeaderNum, header.programHeaderSize,
        alignUp highest pageSize, header.elfType == etDyn⟩

end Mapping

/-! The initial stack. Strings are pushed downwards from the top; the words stand below. -/

def auxRandomBytes : List UInt8 :=
  [0x57, 0x68, 0x75, 0x73, 0x65, 0x2d, 0x72, 0x76, 0x2d, 0x61, 0x75, 0x78, 0x76, 0x2d, 0x31, 0x36]

def toLeBytes (n : ℕ) : List UInt8 := (List.range 8).map fun i => UInt8.ofNat (n / 256 ^ i)

/-- Where each blob starts, and the string area after all of them are pushed. -/
def pushBlobs (stackTop : ℕ) : List (List UInt8) → List UInt8 → List ℕ × List UInt8
  | [], strings => ([], strings)
  | blob :: rest, strings =>
    let (ptrs, all) := pushBlobs stackTop rest (blob ++ strings)
    (wrappingSub stackTop (blob ++ strings).length :: ptrs, all)

def terminated (entry : List UInt8) : List UInt8 := entry ++ [0]

def atRandom : ℕ := 25
def atExecfn : ℕ := 31

def buildInitialStack (args envs : List (List UInt8)) (stackTop : ℕ) (auxv : List (ℕ × ℕ))
    (execfn : Option (List UInt8)) : KernelResult (List UInt8) :=
  let (argPtrs, strings) := pushBlobs stackTop (args.map terminated) []
  let (envPtrs, strings) := pushBlobs stackTop (envs.map terminated) strings
  let (execfnPtrs, strings) := pushBlobs stackTop (execfn.toList.map terminated) strings
  let (randomPtrs, strings) := pushBlobs stackTop [auxRandomBytes] strings
  let words := [args.length] ++ argPtrs ++ [0] ++ envPtrs ++ [0] ++
    auxv.flatMap (fun (key, value) => [key, value]) ++ randomPtrs.flatMap (fun p => [atRandom, p]) ++
    execfnPtrs.flatMap (fun p => [atExecfn, p]) ++ [0, 0]
  let head := words.flatMap toLeBytes
  let total := head.length + strings.length
  if userStackSize < total then .error enomem
  else .ok (head ++ List.replicate (alignUp total 16 - total) 0 ++ strings)

structure LoadedImage where
  entry : ℕ
  stackPointer : ℕ
  loadBias : ℕ
  phdrAddr : ℕ
  phnum : ℕ
  phent : ℕ
  interpBase : ℕ
  interpEntry : ℕ
  programEntry : ℕ
  isDyn : Bool
  deriving DecidableEq, Repr

def initialAuxv (program : MappedElfImage) (interp : Option MappedElfImage) : List (ℕ × ℕ) :=
  [(3, program.phdrAddr), (4, program.phent), (5, program.phnum), (6, pageSize),
    (7, (interp.map (·.loadBias)).getD 0), (8, 0), (9, program.entry), (11, 0), (12, 0), (13, 0),
    (14, 0), (16, 0), (17, 100), (23, 0)]

structure LoadRequest where
  programHeap : LoadHeap
  interpHeap : LoadHeap
  stackHeap : Heap
  fuel : ℕ
  programImage : List UInt8
  interpImage : Option (List UInt8)
  args : List (List UInt8)
  envs : List (List UInt8)
  execfn : Option (List UInt8)

def mapInterp (hal : HalMemory) (req : LoadRequest) : Load (Option MappedElfImage) :=
  match req.interpImage with
  | none => pure none
  | some image => do
    let mapped ← mapElfSegments hal req.interpHeap req.fuel image
    pure (some mapped)

def loadElfImages (hal : HalMemory) (req : LoadRequest) : Load LoadedImage := do
  perform hal .clear
  let program ← mapElfSegments hal req.programHeap req.fuel req.programImage
  let interp ← mapInterp hal req
  perform hal (.setBreak (max program.highestEnd userHeapBase))
  perform hal (.mapFixedBytes req.stackHeap (userStackTop - userStackSize) [] userStackSize
    defaultProt)
  match buildInitialStack req.args req.envs userStackTop (initialAuxv program interp) req.execfn with
  | .error e => throw (.errno e)
  | .ok stackImage =>
    let used := stackImage.length
    perform hal (.writeBytes (userStackTop - used) stackImage)
    pure
      { entry := (interp.map (·.entry)).getD program.entry
        stackPointer := userStackTop - used
        loadBias := program.loadBias
        phdrAddr := program.phdrAddr
        phnum := program.phnum
        phent := program.phent
        interpBase := (interp.map (·.loadBias)).getD 0
        interpEntry := (interp.map (·.entry)).getD 0
        programEntry := program.entry
        isDyn := program.isDyn }

/-! A load is a sequence of calls, whatever the image holds and wherever it stops. -/

inductive LoaderCall : Call → Prop where
  | clear : LoaderCall .clear
  | reserveBase (next : ℕ) : LoaderCall (.reserveBase next)
  | setBreak (newBreak : ℕ) : LoaderCall (.setBreak newBreak)
  | mapFixedBytes (heap : Heap) (addr : ℕ) (bytes : List UInt8) (memLen prot : ℕ) :
      LoaderCall (.mapFixedBytes heap addr bytes memLen prot)
  | writeBytes (addr : ℕ) (bytes : List UInt8) : LoaderCall (.writeBytes addr bytes)

theorem LoaderCall.total {c : Call} (h : LoaderCall c) (hal : HalMemory) (M : Machine) :
    ∃ o, exec hal c M = some o := by
  cases h <;> exact ⟨_, rfl⟩

def runCalls (hal : HalMemory) : List Call → Machine → Option Machine
  | [], M => some M
  | c :: cs, M =>
    match exec hal c M with
    | none => none
    | some (_, N) => runCalls hal cs N

theorem runCalls_append {hal : HalMemory} {cs ds : List Call} {M N : Machine}
    (h : runCalls hal cs M = some N) : runCalls hal (cs ++ ds) M = runCalls hal ds N := by
  induction cs generalizing M with
  | nil => rw [some.inj h, nil_append]
  | cons c cs ih =>
    simp only [runCalls, cons_append] at h ⊢
    rcases hx : exec hal c M with _ | o
    · simp [hx] at h
    simp only [hx] at h ⊢
    exact ih h

/-- Calls on one machine are events of a world that has the machine's space in it. -/
theorem run_calls {hal : HalMemory} {cs : List Call} {W : World} {i : ℕ} {S : AddressSpaceInner}
    {N : Machine} (hS : W.spaces[i]? = some S) (h : runCalls hal cs (W.machine S) = some N) :
    run hal W (cs.map (.call i)) = some ⟨W.spaces.set i N.space, N.mem⟩ := by
  induction cs generalizing W S with
  | nil =>
    obtain rfl := some.inj h
    have hset : W.spaces.set i S = W.spaces := by
      refine ext_getElem? fun j => ?_
      rw [getElem?_set]
      split
      · next hij =>
        subst hij
        obtain ⟨hlt, _⟩ := List.getElem?_eq_some_iff.mp hS
        rw [if_pos hlt, hS]
      · rfl
    simp [run, World.machine, hset]
  | cons c cs ih =>
    simp only [runCalls] at h
    rcases hx : exec hal c (W.machine S) with _ | o
    · simp [hx] at h
    obtain ⟨r, M⟩ := o
    simp only [hx] at h
    obtain ⟨hlt, _⟩ := List.getElem?_eq_some_iff.mp hS
    have hstep : next hal W (.call i c) = some ⟨W.spaces.set i M.space, M.mem⟩ := by
      simp [CallRuns.next, hS, hx]
    have hmid : (World.mk (W.spaces.set i M.space) M.mem).spaces[i]? = some M.space :=
      getElem?_set_self hlt
    simp only [map_cons, run, hstep]
    rw [ih hmid h, set_set]

variable {α : Type}

section Decomposition

variable (hal : HalMemory)

def ByCalls {α : Type} (x : Load α) : Prop :=
  ∀ M, ∃ cs, (∀ c ∈ cs, LoaderCall c) ∧ runCalls hal cs M = some (x.run.run M).2

variable {hal}

theorem byCalls_lift (x : Except Stop α) : ByCalls hal (lift x) :=
  fun M => ⟨[], by simp, rfl⟩

theorem byCalls_pure (a : α) : ByCalls hal (pure a : Load α) :=
  fun M => ⟨[], by simp, rfl⟩

theorem byCalls_throw (e : Stop) : ByCalls hal (throw e : Load α) :=
  fun M => ⟨[], by simp, rfl⟩

theorem byCalls_get : ByCalls hal (get : Load Machine) :=
  fun M => ⟨[], by simp, rfl⟩

theorem byCalls_perform {c : Call} (hc : LoaderCall c) : ByCalls hal (perform hal c) := by
  intro M
  obtain ⟨⟨r, N⟩, hx⟩ := hc.total hal M
  refine ⟨[c], by simpa using hc, ?_⟩
  cases r <;> simp [runCalls, perform, hx, ExceptT.run, ExceptT.mk, StateT.run]

/-- What follows a computation runs in the machine it left, unless it stopped. -/
theorem run_bind {β : Type} (x : Load α) (f : α → Load β) (M : Machine) : (x >>= f).run.run M =
      match x.run.run M with
      | (.ok a, N) => (f a).run.run N
      | (.error e, N) => (.error e, N) := by
  rw [ExceptT.run_bind, StateT.run_bind]
  generalize x.run.run M = o
  obtain ⟨r, N⟩ := o
  cases r <;> rfl

theorem byCalls_bind {β : Type} {x : Load α} {f : α → Load β} (hx : ByCalls hal x)
    (hf : ∀ a, ByCalls hal (f a)) : ByCalls hal (x >>= f) := by
  intro M
  obtain ⟨cs, hcs, hrun⟩ := hx M
  rw [run_bind]
  generalize x.run.run M = o at hrun
  obtain ⟨r, N⟩ := o
  rcases r with e | a
  · exact ⟨cs, hcs, hrun⟩
  obtain ⟨ds, hds, hrest⟩ := hf a N
  refine ⟨cs ++ ds, ?_, ?_⟩
  · intro c hc
    rcases mem_append.mp hc with hc | hc
    · exact hcs c hc
    · exact hds c hc
  · rw [runCalls_append hrun, hrest]

theorem byCalls_forM {f : α → Load Unit} (hf : ∀ a, ByCalls hal (f a)) (as : List α) :
    ByCalls hal (as.forM f) := by
  induction as with
  | nil => exact byCalls_pure ()
  | cons a as ih => exact byCalls_bind (hf a) fun _ => ih

theorem reserveDynamicLoadBias_byCalls (fuel minVaddr maxVaddrEnd : ℕ) :
    ByCalls hal (reserveDynamicLoadBias hal fuel minVaddr maxVaddrEnd) := by
  refine byCalls_bind byCalls_get fun M => ?_
  split
  · exact byCalls_throw _
  · exact byCalls_throw _
  refine byCalls_bind (byCalls_perform (.reserveBase _)) fun _ => ?_
  split
  · exact byCalls_throw _
  · exact byCalls_pure _

theorem mapProgramHeader_byCalls (heap : LoadHeap) (header : ElfHeader) (image : List UInt8)
    (loadBias index : ℕ) : ByCalls hal (mapProgramHeader hal heap header image loadBias index) := by
  refine byCalls_bind (byCalls_lift _) fun ph => ?_
  split
  · exact byCalls_pure ()
  split
  · exact byCalls_throw _
  refine byCalls_bind (byCalls_lift _) fun dataEnd => ?_
  split
  · exact byCalls_throw _
  refine byCalls_bind (byCalls_lift _) fun mappedVaddr => ?_
  refine byCalls_bind (byCalls_lift _) fun memLen => ?_
  split
  · refine byCalls_bind (byCalls_lift _) fun data => ?_
    exact byCalls_perform (.mapFixedBytes _ _ _ _ _)
  · exact byCalls_throw _

theorem loadBiasOf_byCalls (fuel : ℕ) (header : ElfHeader) (range : LoadRange) :
    ByCalls hal (loadBiasOf hal fuel header range) := by
  unfold loadBiasOf
  split
  · exact byCalls_pure 0
  · split
    · exact reserveDynamicLoadBias_byCalls fuel _ _
    · exact byCalls_throw _

theorem mapElfSegments_byCalls (heap : LoadHeap) (fuel : ℕ) (image : List UInt8) :
    ByCalls hal (mapElfSegments hal heap fuel image) := by
  refine byCalls_bind (byCalls_lift _) fun header => ?_
  split
  · exact byCalls_throw _
  refine byCalls_bind (byCalls_lift _) fun range => ?_
  split
  · exact byCalls_throw _
  refine byCalls_bind (loadBiasOf_byCalls fuel header range) fun loadBias => ?_
  refine byCalls_bind
    (byCalls_forM (mapProgramHeader_byCalls heap header image loadBias) _) fun _ => ?_
  refine byCalls_bind (byCalls_lift _) fun _ => ?_
  refine byCalls_bind (byCalls_lift _) fun _ => ?_
  refine byCalls_bind (byCalls_lift _) fun _ => ?_
  exact byCalls_bind (byCalls_lift _) fun _ => byCalls_pure _

theorem mapInterp_byCalls (req : LoadRequest) : ByCalls hal (mapInterp hal req) := by
  unfold mapInterp
  split
  · exact byCalls_pure none
  · exact byCalls_bind (mapElfSegments_byCalls _ _ _) fun _ => byCalls_pure _

theorem loadElfImages_byCalls (req : LoadRequest) : ByCalls hal (loadElfImages hal req) := by
  refine byCalls_bind (byCalls_perform .clear) fun _ => ?_
  refine byCalls_bind (mapElfSegments_byCalls _ _ _) fun program => ?_
  refine byCalls_bind (mapInterp_byCalls req) fun interp => ?_
  refine byCalls_bind (byCalls_perform (.setBreak _)) fun _ => ?_
  refine byCalls_bind (byCalls_perform (.mapFixedBytes _ _ _ _ _)) fun _ => ?_
  split
  · exact byCalls_throw _
  · exact byCalls_bind (byCalls_perform (.writeBytes _ _)) fun _ => byCalls_pure _

end Decomposition

end ElfLoader
