import Whuse.ByteMap
import Whuse.UserMemory

/-! User memory as a byte map. The loops of `read_bytes` and `write_bytes` go from segment to
segment; together they read a range of the map and put a range over it. -/
namespace ByteAccess

open Option
open MachineWord IntervalTable AddressSpace CallRuns MappingTable CallEffects ProtectionMap List
  UserMemory ByteMap

def view (hal : HalMemory) (m : Mappings) (mem : Memory) (x : ℕ) : Option UInt8 :=
  (ptrAt hal m x).map mem

/-- The byte that `find_segment` leads to, in any table. -/
def byteAt (hal : HalMemory) (m : Mappings) (mem : Memory) (x : ℕ) : Option UInt8 :=
  match findSegment m x 1 with
  | .error _ => none
  | .ok (segment, place) => some (mem (dataPtr hal segment + place))

/-- The storage of a host segment is as long as the segment. -/
def HostExact (m : Mappings) : Prop :=
  ∀ (k : ℕ) (s : Segment) ptr len, m[k]? = some s → s.storage = .host ptr len → len = s.area.len

def Distinct (hal : HalMemory) (m : Mappings) : Prop :=
  ∀ x y p, ptrAt hal m x = some p → ptrAt hal m y = some p → x = y

variable {bytes : List UInt8} {s p : Segment} {a cursor fuel k n ptr len : ℕ}

section Table

variable {hal : HalMemory} {m : Mappings} {mem : Memory} {segment : Segment}
  {place x i remaining : ℕ} {out data : List UInt8}

theorem defined_view_iff (hm : TableWellFormed m) :
    Defined (view hal m mem) a n ↔ ∀ x, a ≤ x → x < a + n → ∃ s, SegmentAt m x s := by
  refine forall_congr' fun x => forall_congr' fun _ => forall_congr' fun _ => ?_
  rw [view, Option.isSome_map]
  constructor
  · intro hsome
    obtain ⟨p, hp⟩ := Option.isSome_iff_exists.mp hsome
    obtain ⟨s, hs, -⟩ := (ptrAt_eq_some hm).mp hp
    exact ⟨s, hs⟩
  · rintro ⟨s, hs⟩
    rw [ptrAt_of_segmentAt hal hm hs]
    rfl

theorem load_view_segment (hal : HalMemory) (mem : Memory) (hm : TableWellFormed m)
    (hs : m[k]? = some s) (hlow : s.area.start ≤ a) (hhigh : a + n ≤ s.area.start + s.area.len) :
    load (view hal m mem) a n = some (rawBytes mem (dataPtr hal s + (a - s.area.start)) n) := by
  refine load_eq_some_iff.mpr ⟨by simp [rawBytes], ?_⟩
  intro i hi
  have hseg : SegmentAt m (a + i) s := ⟨k, hs, by rw [covers_iff]; omega⟩
  have hplace : a + i - s.area.start = a - s.area.start + i := by omega
  rw [view, ptrAt_of_segmentAt hal hm hseg, bytePtr, hplace, ← Nat.add_assoc, rawBytes,
    getElem?_map, getElem?_range hi]
  rfl

theorem byteAt_eq_view (hm : TableWellFormed m) : byteAt hal m mem = view hal m mem := by
  funext x
  rw [byteAt, findSegment_one hm, view, ptrAt]
  cases entryAt segmentExtent m x with
  | none => rfl
  | some s => rfl

/-- An address further on in the segment leads to the same segment: an earlier one that holds
it holds the first address, too. -/
theorem findSegment_next (h : findSegment m x 1 = .ok (segment, place))
    (hi : i < segment.area.len - place) : findSegment m (x + i) 1 = .ok (segment, place + i) := by
  obtain ⟨base, hfind, rfl, hlow, hhigh, hfits⟩ := findSegment_ok h
  obtain ⟨-, before, after, hlist, hbefore⟩ := find?_eq_some_iff_append.mp hfind
  have hfind' : m.toList.find? (holdsRange (x + i) (x + i + 1)) = some (base, segment) := by
    refine find?_eq_some_iff_append.mpr ⟨?_, before, after, hlist, ?_⟩
    · simp only [holdsRange, checkedAdd_of_le hfits]
      exact decide_eq_true (by omega)
    · intro entry hentry
      have hpair := (pairwise_append.mp (hlist ▸ m.ordered_keys_toList)).2.2
        entry hentry (base, segment) mem_cons_self
      have hlt : entry.1 < base := Nat.compare_eq_lt.mp hpair
      have hnot := hbefore entry hentry
      unfold holdsRange at hnot ⊢
      rcases hother : checkedAdd entry.1 entry.2.area.len with _ | segEnd
      · rfl
      simp only [hother, Bool.not_eq_true', decide_eq_false_iff_not] at hnot ⊢
      omega
  rw [findSegment, checkedAdd_of_le (by omega)]
  simp only [hfind']
  rw [Nat.sub_add_comm hlow]

theorem load_byteAt_segment (h : findSegment m x 1 = .ok (segment, place))
    (hn : n ≤ segment.area.len - place) :
    load (byteAt hal m mem) x n = some (rawBytes mem (dataPtr hal segment + place) n) := by
  refine load_eq_some_iff.mpr ⟨by simp [rawBytes], ?_⟩
  intro i hi
  rw [byteAt, findSegment_next h (by omega), rawBytes, getElem?_map, getElem?_range hi]
  simp [Nat.add_assoc]

theorem readLoop_byteAt (hfuel : remaining ≤ fuel) :
    readLoop hal m mem fuel x remaining out =
      match load (byteAt hal m mem) x remaining with
      | none => .error efault
      | some bytes => .ok (out ++ bytes) := by
  induction fuel generalizing x remaining out with
  | zero =>
    obtain rfl : remaining = 0 := Nat.le_zero.mp hfuel
    simp [readLoop, load]
  | succ fuel ih =>
    rcases remaining with _ | remaining
    · simp [readLoop, load]
    rw [readLoop]
    rcases hfind : findSegment m x 1 with e | found
    · simp [load, byteAt, hfind, findSegment_error hfind]
    obtain ⟨segment, place⟩ := found
    obtain ⟨base, -, hplace, hlow, hhigh, hfits⟩ := findSegment_ok hfind
    dsimp only
    generalize htake : min (segment.area.len - place) (remaining + 1) = n
    have hsplit : remaining + 1 = n + (remaining + 1 - n) := by omega
    rw [if_neg (by omega : n ≠ 0), checkedAdd_of_le (by omega : x + n ≤ usizeMax)]
    dsimp only
    rw [ih (by omega)]
    conv_rhs => rw [hsplit, load_add, load_byteAt_segment hfind (by omega)]
    cases load (byteAt hal m mem) (x + n) (remaining + 1 - n) with
    | none => rfl
    | some rest => simp

theorem view_copyBytes (hm : TableWellFormed m) (hd : Distinct hal m) (hs : m[k]? = some s)
    (hlow : s.area.start ≤ a) (hhigh : a + data.length ≤ s.area.start + s.area.len) :
    view hal m (copyBytes mem (dataPtr hal s + (a - s.area.start)) data) =
      store (view hal m mem) a data := by
  have hat : ∀ x, a ≤ x → x < a + data.length →
      ptrAt hal m x = some (dataPtr hal s + (a - s.area.start) + (x - a)) := by
    intro x hge hlt
    have hseg : SegmentAt m x s := ⟨k, hs, by rw [covers_iff]; omega⟩
    have hplace : x - s.area.start = a - s.area.start + (x - a) := by omega
    rw [ptrAt_of_segmentAt hal hm hseg, bytePtr, hplace, Nat.add_assoc]
  funext x
  by_cases hin : a ≤ x ∧ x < a + data.length
  · have hidx : x - a < data.length := by omega
    rw [view, hat x hin.1 hin.2, store, if_pos hin, Option.map_some, copyBytes,
      if_pos (Nat.le_add_right _ _), Nat.add_sub_cancel_left, getElem?_eq_getElem hidx]
    rfl
  · rw [store_outside hin, view, view]
    rcases hp : ptrAt hal m x with _ | p
    · rfl
    refine congrArg some (copyBytes_outside ?_)
    -- a byte of the copy lies behind an address of the range, and behind no other
    rintro ⟨hge, hlt⟩
    generalize hi : p - (dataPtr hal s + (a - s.area.start)) = i
    have hother := hat (a + i) (by omega) (by omega)
    rw [Nat.add_sub_cancel_left, show dataPtr hal s + (a - s.area.start) + i = p by omega]
      at hother
    have hsame := hd x (a + i) p hp hother
    omega

theorem not_hostRefuses (hhost : HostExact m) (hs : m[k]? = some s) {offset take : ℕ}
    (htake : offset + take ≤ s.area.len) : hostRefuses s.storage offset take = false := by
  cases hst : s.storage with
  | owned frames => rfl
  | shared bytes ptr => rfl
  | host ptr len =>
    have hlen := hhost k s ptr len hs hst
    simp only [hostRefuses, decide_eq_false_iff_not]
    omega

theorem writeLoop_turn (hal : HalMemory) (mem : Memory) (hm : TableWellFormed m)
    (hhost : HostExact m) (hs : m[k]? = some s) (hc : Covers segmentExtent s cursor) (fuel : ℕ)
    (byte : UInt8) (bytes : List UInt8) :
    ∃ n, 0 < n ∧ n ≤ (byte :: bytes).length ∧ cursor + n ≤ s.area.start + s.area.len ∧
      writeLoop hal m (fuel + 1) cursor (byte :: bytes) mem =
        writeLoop hal m fuel (cursor + n) ((byte :: bytes).drop n)
          (copyBytes mem (dataPtr hal s + (cursor - s.area.start)) ((byte :: bytes).take n)) := by
  have hb : s.area.start + s.area.len ≤ usizeMax := hm.bounded k s hs
  have hentry : entryAt segmentExtent m cursor = some s := hm.entryAt_iff.mpr ⟨k, hs, hc⟩
  rw [covers_iff] at hc
  refine ⟨min (s.area.len - (cursor - s.area.start)) (bytes.length + 1), by omega,
    Nat.min_le_right _ _, by omega, ?_⟩
  have hlen : cursor - s.area.start +
      min (s.area.len - (cursor - s.area.start)) (bytes.length + 1) ≤ s.area.len := by omega
  have hhosted := not_hostRefuses hhost hs hlen
  have hnext : cursor + min (s.area.len - (cursor - s.area.start)) (bytes.length + 1) ≤ usizeMax := by
    omega
  simp only [writeLoop, findSegment_one hm, hentry, hhosted, checkedAdd_of_le hnext]
  rfl

theorem writeBytes_segment (hal : HalMemory) {S : AddressSpaceInner}
    (hm : TableWellFormed S.mappings) (hs : S.mappings[k]? = some s)
    (hhost : ∀ ptr len, s.storage ≠ .host ptr len) (hlow : s.area.start ≤ a)
    (hhigh : a + data.length ≤ s.area.start + s.area.len) (mem : Memory) :
    writeBytes hal a data ⟨S, mem⟩ =
      (.ok (), ⟨S, copyBytes mem (dataPtr hal s + (a - s.area.start)) data⟩) := by
  rw [writeBytes]
  rcases data with _ | ⟨byte, bytes⟩
  · have hnone : copyBytes mem (dataPtr hal s + (a - s.area.start)) [] = mem := by
      funext x
      exact copyBytes_outside (by rw [length_nil]; omega)
    rw [hnone]
    rfl
  rw [length_cons] at hhigh
  have hb : s.area.start + s.area.len ≤ usizeMax := hm.bounded k s hs
  have hentry : entryAt segmentExtent S.mappings a = some s :=
    hm.entryAt_iff.mpr ⟨k, hs, by rw [covers_iff]; omega⟩
  have hrefuses : hostRefuses s.storage (a - s.area.start) (bytes.length + 1) = false := by
    cases hst : s.storage with
    | owned frames => rfl
    | shared bytes ptr => rfl
    | host ptr len => exact absurd hst (hhost ptr len)
  have htake : min (s.area.len - (a - s.area.start)) (bytes.length + 1) = bytes.length + 1 := by
    omega
  have hnext : a + (bytes.length + 1) ≤ usizeMax := by omega
  simp only [writeLoop, length_cons, findSegment_one hm, hentry, htake, hrefuses,
    checkedAdd_of_le hnext, drop_succ_cons, take_succ_cons, take_length,
    drop_length]
  rfl

theorem writeLoop_unmapped (hm : TableWellFormed m) {byte : UInt8}
    (hnone : entryAt segmentExtent m cursor = none) :
    writeLoop hal m fuel cursor (byte :: bytes) mem = (.error efault, mem) := by
  cases fuel with
  | zero => rfl
  | succ fuel => simp [writeLoop, findSegment_one hm, hnone]

theorem writeLoop_ok_iff (hm : TableWellFormed m) (hhost : HostExact m)
    (hfuel : bytes.length ≤ fuel) :
    (writeLoop hal m fuel cursor bytes mem).1 = .ok () ↔
      ∀ x, cursor ≤ x → x < cursor + bytes.length → ∃ s, SegmentAt m x s := by
  induction fuel generalizing cursor bytes mem with
  | zero =>
    obtain rfl : bytes = [] := length_eq_zero_iff.mp (Nat.le_zero.mp hfuel)
    exact ⟨fun _ x hge hlt => absurd hlt (Nat.not_lt.mpr hge), fun _ => rfl⟩
  | succ fuel ih =>
    rcases bytes with _ | ⟨byte, bytes⟩
    · exact ⟨fun _ x hge hlt => absurd hlt (Nat.not_lt.mpr hge), fun _ => rfl⟩
    rcases he : entryAt segmentExtent m cursor with _ | s
    · rw [writeLoop_unmapped hm he]
      refine ⟨nofun, ?_⟩
      intro hall
      obtain ⟨s, hs⟩ := hall cursor le_rfl (by rw [length_cons]; omega)
      exact absurd hs (hm.entryAt_eq_none.mp he s)
    obtain ⟨k, hk, hc⟩ := hm.entryAt_iff.mp he
    obtain ⟨n, hpos, hle, hin, hturn⟩ := writeLoop_turn hal mem hm hhost hk hc fuel byte bytes
    rw [covers_iff] at hc
    rw [hturn, ih (by rw [length_drop]; omega), length_drop]
    constructor
    · intro hall x hge hlt
      by_cases hx : x < cursor + n
      · exact ⟨s, k, hk, by rw [covers_iff]; omega⟩
      · exact hall x (by omega) (by omega)
    · intro hall x hge hlt
      exact hall x (by omega) (by omega)

theorem writeLoop_view (hm : TableWellFormed m) (hhost : HostExact m) (hd : Distinct hal m)
    (hok : (writeLoop hal m fuel cursor bytes mem).1 = .ok ()) :
    view hal m (writeLoop hal m fuel cursor bytes mem).2 = store (view hal m mem) cursor bytes := by
  induction fuel generalizing cursor bytes mem with
  | zero =>
    cases bytes with
    | nil => exact (store_nil cursor).symm
    | cons byte bytes => cases hok
  | succ fuel ih =>
    rcases bytes with _ | ⟨byte, bytes⟩
    · exact (store_nil cursor).symm
    rcases he : entryAt segmentExtent m cursor with _ | s
    · rw [writeLoop_unmapped hm he] at hok
      cases hok
    obtain ⟨k, hk, hc⟩ := hm.entryAt_iff.mp he
    obtain ⟨n, hpos, hle, hin, hturn⟩ := writeLoop_turn hal mem hm hhost hk hc fuel byte bytes
    have hlen : ((byte :: bytes).take n).length = n := length_take_of_le hle
    rw [hturn] at hok ⊢
    rw [ih hok, view_copyBytes hm hd hk hc.1 (by omega)]
    nth_rewrite 2 [← hlen]
    rw [store_store, take_append_drop]

end Table

theorem slice_host {start end_ : ℕ} (h : SliceOf s start end_ p) (hp : p.storage = .host ptr len) :
    len = p.area.len := by
  rw [h.slice, sliceSegment, sliceSegmentStorage] at hp
  cases hs : s.storage with
  | owned frames | shared bytes ptr =>
    rw [hs] at hp
    cases hp
  | host ptr len =>
    rw [hs] at hp
    exact (SegmentStorage.host.inj hp).2.symm

theorem makes_host {c : Call} {M : Machine} (h : Makes c M s) (hs : s.storage = .host ptr len) :
    len = s.area.len := by
  cases h with
  | owned => cases hs
  | shared => cases hs
  | existing answer hstorage harea hfits =>
    subst harea
    cases c with
    | mapSharedExisting addr data prot =>
      obtain rfl := some.inj hstorage
      cases hs
    | installHostRange addr len prot =>
      obtain rfl := some.inj hstorage
      exact (SegmentStorage.host.inj hs).2.symm
    | _ => cases hstorage

theorem reachable_hostExact {hal : HalMemory} {W : World} (h : Reachable hal NoWrapEvent W) :
    ∀ S ∈ W.spaces, SpaceOk S ∧ HostExact S.mappings := by
  have hempty : HostExact (newUser hal).mappings := by
    intro k s ptr len hk
    simp [newUser] at hk
  refine reachable_spaces ⟨newUser_spaceOk hal, hempty⟩ ?_ ?_ h
  · rintro heap S ⟨hok, -⟩
    refine ⟨⟨clonePrivate_wellFormed hal heap hok.table, hok.breakFits⟩, ?_⟩
    intro k t ptr len hk ht
    simp only [clonePrivate, Std.ExtTreeMap.getElem?_map, Option.map_eq_some_iff] at hk
    obtain ⟨s, -, rfl⟩ := hk
    cases hs : s.storage with
    | owned frames | shared bytes ptr | host ptr len => simp [cloneStorage, hs] at ht
  · rintro W i c S r M hc - ⟨hok, hexact⟩ hx
    have heff := exec_effect (M := W.machine S) hok hc hx
    refine ⟨effect_spaceOk heff hok, ?_⟩
    intro k s ptr len hk hs
    exact effect_segments (Q := fun s => ∀ ptr len, s.storage = .host ptr len → len = s.area.len)
      heff hok (fun k s hk ptr len hs => hexact k s ptr len hk hs)
      (fun _ _ _ _ _ _ _ _ hslice _ _ _ hp => slice_host hslice hp)
      (fun _ hmake _ _ hs => makes_host hmake hs) k s hk ptr len hs

section Calls

variable {hal : HalMemory} {heap : Heap} {S : AddressSpaceInner} {mem : Memory}

theorem readBytes_byteAt {M : Machine} (hheap : heap.tryReserve n = true) (a : ℕ) :
    readBytes hal heap a n M =
      match load (byteAt hal M.space.mappings M.mem) a n with
      | none => .error efault
      | some bytes => .ok bytes := by
  rw [readBytes]
  by_cases hn : n = 0
  · rw [if_pos hn, hn, load]
  rw [if_neg hn, if_pos hheap, readLoop_byteAt le_rfl]
  cases load (byteAt hal M.space.mappings M.mem) a n with
  | none => rfl
  | some bytes => rfl

theorem readBytes_ok_iff (hm : TableWellFormed S.mappings) (hheap : ∀ n, heap.tryReserve n = true)
    {out : List UInt8} :
    readBytes hal heap a n ⟨S, mem⟩ = .ok out ↔ load (view hal S.mappings mem) a n = some out := by
  rw [readBytes_byteAt (hheap n), byteAt_eq_view hm]
  cases load (view hal S.mappings mem) a n with
  | none => exact ⟨nofun, nofun⟩
  | some bytes => exact ⟨fun h => by rw [Except.ok.inj h], fun h => by rw [some.inj h]⟩

/-- **Main theorem**: `read_bytes` and `write_bytes` are the read and the write of the byte map. -/
theorem user_memory_is_byte_map (hal : HalMemory) (heap : Heap) (S : AddressSpaceInner)
    (mem : Memory) (hm : TableWellFormed S.mappings) (hhost : HostExact S.mappings)
    (hheap : ∀ n, heap.tryReserve n = true) :
    (∀ a n, ((∃ out, readBytes hal heap a n ⟨S, mem⟩ = .ok out) ↔
        ∀ x, a ≤ x → x < a + n → ∃ s, SegmentAt S.mappings x s) ∧
      ∀ out, readBytes hal heap a n ⟨S, mem⟩ = .ok out → out.length = n ∧
        ∀ i s, i < n → SegmentAt S.mappings (a + i) s →
          out[i]? = some (mem (bytePtr hal s (a + i)))) ∧
    ∀ a data, ((writeBytes hal a data ⟨S, mem⟩).1 = .ok () ↔
        ∀ x, a ≤ x → x < a + data.length → ∃ s, SegmentAt S.mappings x s) ∧
      (Distinct hal S.mappings → (writeBytes hal a data ⟨S, mem⟩).1 = .ok () →
        readBytes hal heap a data.length (writeBytes hal a data ⟨S, mem⟩).2 = .ok data ∧
        ∀ x s, SegmentAt S.mappings x s → ¬ (a ≤ x ∧ x < a + data.length) →
          readBytes hal heap x 1 (writeBytes hal a data ⟨S, mem⟩).2 =
            readBytes hal heap x 1 ⟨S, mem⟩) := by
  refine ⟨fun a n => ⟨?_, ?_⟩, fun a data => ⟨?_, ?_⟩⟩
  · simp only [readBytes_ok_iff hm hheap]
    exact exists_load_iff.trans (defined_view_iff hm)
  · intro out hout
    obtain ⟨hlen, hall⟩ := load_eq_some_iff.mp ((readBytes_ok_iff hm hheap).mp hout)
    refine ⟨hlen, ?_⟩
    intro i s hi hs
    rw [← hall i hi, view, ptrAt_of_segmentAt hal hm hs]
    rfl
  · exact writeLoop_ok_iff hm hhost le_rfl
  · intro hd hok
    have hview := writeLoop_view hm hhost hd hok
    constructor
    · refine (readBytes_ok_iff hm hheap).mpr ?_
      rw [hview]
      exact load_store a data
    · intro x s hs hout
      have hsame : view hal S.mappings (writeBytes hal a data ⟨S, mem⟩).2.mem x =
          view hal S.mappings mem x := by
        rw [← store_outside (m := view hal S.mappings mem) hout, ← hview]
        rfl
      exact ((readBytes_one_eq_iff (M := ⟨S, mem⟩) (N := (writeBytes hal a data ⟨S, mem⟩).2) hal hm hm
        x).mpr hsame) heap

/-- Bytes on both sides of the border of a host range and a shared mapping. -/
theorem user_memory_is_byte_map_across : ∃ S, TableWellFormed S.mappings ∧ HostExact S.mappings ∧
      ∃ out, readBytes board boardHeap 0x107ff 2 ⟨S, fun _ => 0⟩ = .ok out := by
  have hall : ∀ e ∈ [Event.newUser, .call 0 (.installHostRange 0x10000 0x800 3),
      .call 0 (.mapFixedSharedBytes boardHeap 0x10800 [7] 0x800 3)], ∀ V, NoWrapEvent V e := by
    simp [NoWrapEvent, NoWrap, usizeMax]
  obtain ⟨W, S, hreach, hS, hmapped⟩ := firstSpace_reachable (x := (true, true)) hall
    (f := fun S => ((ptrAt board S.mappings 0x107ff).isSome, (ptrAt board S.mappings 0x10800).isSome))
    (by decide +kernel)
  obtain ⟨hok, hexact⟩ := reachable_hostExact hreach S hS
  obtain ⟨hfirst, hsecond⟩ := Prod.mk.inj hmapped
  refine ⟨S, hok.table, hexact, ?_⟩
  refine ((user_memory_is_byte_map board boardHeap S (fun _ => 0) hok.table hexact
    (fun _ => rfl)).1 0x107ff 2).1.mpr ?_
  intro x hge hlt
  have hat : (ptrAt board S.mappings x).isSome = true := by
    obtain rfl | rfl : x = 0x107ff ∨ x = 0x10800 := by omega
    · exact hfirst
    · exact hsecond
  obtain ⟨p, hp⟩ := Option.isSome_iff_exists.mp hat
  obtain ⟨s, hs, -⟩ := (ptrAt_eq_some hok.table).mp hp
  exact ⟨s, hs⟩

end Calls

end ByteAccess
