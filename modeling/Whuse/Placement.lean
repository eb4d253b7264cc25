import Whuse.ByteAccess
import Whuse.MemoryCalls

/-! Where a new mapping goes. The search moves past the end of the first segment in its way, so it
looks at each segment once. A mapping at a hint is made where nothing is in the way; whether the
range ends before the last address is not looked at. -/
namespace Placement

open Option
open Std (ExtTreeMap)
open MachineWord IntervalTable AddressSpace CallRuns MappingTable OwnedMapping CallEffects List
  UserMemory ByteMap ByteAccess MemoryCalls ElfLoader

def Free (m : Mappings) (start len : ℕ) : Prop :=
  ∀ (k : ℕ) (s : Segment), m[k]? = some s →
    s.area.start + s.area.len ≤ start ∨ start + len ≤ s.area.start

variable {data : List UInt8} {M N : Machine} {m : Mappings} {s : Segment}
  {fuel len start e k next aligned n addr : ℕ}

section Search

end Search

/-- The segments that are there stay, with their ranges, protections and storages. -/
def Keeps (M N : Machine) : Prop :=
  ∀ (k : ℕ) (s : Segment), M.space.mappings[k]? = some s → N.space.mappings[k]? = some s

structure Holds (hal : HalMemory) (M N : Machine) (s : Segment) (bytes : List UInt8) : Prop where
  table : N.space.mappings = M.space.mappings.insert s.area.start s
  notHost : ∀ ptr len, s.storage ≠ .host ptr len
  bytes : rawBytes N.mem (dataPtr hal s) bytes.length = bytes

section Placing

variable {hal : HalMemory} {N : Machine} {bytes : List UInt8}

theorem Holds.keeps (h : Holds hal M N s bytes) (hm : TableWellFormed M.space.mappings)
    (hpos : 0 < s.area.len) (hfree : overlaps M.space.mappings s.area.start s.area.len = false) :
    Keeps M N := by
  intro k t hk
  have hkey : t.area.start = k := hm.key k t hk
  have hlen : 0 < t.area.len := hm.pos k t hk
  have hend : t.area.start + t.area.len ≤ usizeMax := hm.bounded k t hk
  have hne : s.area.start ≠ k := by
    intro heq
    refine (overlaps_eq_false_iff hm).mp hfree k t hk ⟨by omega, ?_⟩
    rw [saturatingAdd]
    omega
  rw [h.table, ExtTreeMap.getElem?_insert, if_neg (by simpa using hne)]
  exact hk

theorem Free.unmapped (h : Free m start len) {a : ℕ} (hge : start ≤ a) (hlt : a < start + len)
    (t : Segment) : ¬ SegmentAt m a t := by
  rintro ⟨k, hk, hc⟩
  have hapart := h k t hk
  rw [covers_iff] at hc
  omega

theorem Holds.get (h : Holds hal M N s bytes) : N.space.mappings[s.area.start]? = some s := by
  rw [h.table, ExtTreeMap.getElem?_insert_self]

theorem rawBytes_copy_front (mem : Memory) (ptr : ℕ) {n : ℕ} (hlen : data.length ≤ n) :
    rawBytes (copyBytes mem ptr data) ptr n = data ++ (rawBytes mem ptr n).drop data.length := by
  refine ext_getElem? fun i => ?_
  by_cases hi : i < data.length
  · rw [getElem?_append_left hi]
    simp [rawBytes, copyBytes, getElem?_range (by omega : i < n), hi]
  rw [getElem?_append_right (by omega), getElem?_drop,
    show data.length + (i - data.length) = i by omega]
  have hout : ∀ j, data.length ≤ j → copyBytes mem ptr data (ptr + j) = mem (ptr + j) :=
    fun j hj => copyBytes_of_ge (by omega)
  simp only [rawBytes, getElem?_map]
  by_cases hin : i < n
  · rw [getElem?_range hin]
    exact congrArg some (hout i (by omega))
  · rw [getElem?_eq_none (by rw [length_range]; omega)]
    rfl

variable (h : Holds hal M N s bytes) (hm : TableWellFormed M.space.mappings)
  (hpos : 0 < s.area.len) (hfits : s.area.start + s.area.len ≤ usizeMax)
  (hfree : Free M.space.mappings s.area.start s.area.len)

include h hm hpos hfits hfree

theorem Holds.wellFormed : TableWellFormed N.space.mappings := by
  rw [h.table]
  exact insert_wellFormed hm hpos hfits fun a hc t => hfree.unmapped hc.1 hc.2 t

theorem Holds.reads (hlen : bytes.length = s.area.len) {heap : Heap}
    (hheap : ∀ n, heap.tryReserve n = true) :
    readBytes hal heap s.area.start s.area.len N = .ok bytes := by
  have hwf := h.wellFormed hm hpos hfits hfree
  have hload := load_view_segment hal N.mem hwf h.get le_rfl
    (le_refl (s.area.start + s.area.len))
  rw [Nat.sub_self, Nat.add_zero, ← hlen, h.bytes] at hload
  rw [← hlen]
  exact (readBytes_ok_iff (S := N.space) hwf hheap).mpr hload

theorem Holds.write (hlen : bytes.length = s.area.len) (hdata : data.length ≤ s.area.len) :
    ∃ L, writeBytes hal s.area.start data N = (.ok (), L) ∧
      Holds hal M L s (data ++ bytes.drop data.length) := by
  have hwf := h.wellFormed hm hpos hfits hfree
  have hsegment := writeBytes_segment hal hwf h.get h.notHost le_rfl
    (by omega : s.area.start + data.length ≤ s.area.start + s.area.len) N.mem
  refine ⟨_, hsegment, ?_⟩
  refine ⟨h.table, h.notHost, ?_⟩
  have hbytes := h.bytes
  have hall : (data ++ bytes.drop data.length).length = bytes.length := by
    rw [length_append, length_drop]
    omega
  rw [hall, Nat.sub_self, Nat.add_zero]
  rw [rawBytes_copy_front _ _ (by omega), hbytes]

end Placing

def isShared (args : MmapArgs) : Bool := args.flags &&& mapTypeMask == mapSharedFlag

/-- The bytes that go into the mapping, unless there is no file to take them from. -/
def fileBytes (args : MmapArgs) (file : KernelResult (List UInt8)) : Option (List UInt8) :=
  if args.has mapAnonymousFlag then some [] else if args.fd < 0 then none else file.toOption

section Call

variable (hal : HalMemory) (heap : Heap) (fuel : ℕ) (file : KernelResult (List UInt8))
  (args : MmapArgs) (M : Machine)

variable {file args M}

end Call

section Outcome

variable {hal : HalMemory} {heap : Heap} {args : MmapArgs} {bytes : List UInt8}

def padded (args : MmapArgs) (bytes : List UInt8) : List UInt8 :=
  bytes ++ List.replicate (pageUp args.len - bytes.length) 0

end Outcome

/-- Existing segments stay, and a new range reads as the bytes of the file followed by zeros. -/
def Placed (hal : HalMemory) (heap : Heap) (fuel : ℕ) (file : KernelResult (List UInt8))
    (args : MmapArgs) (M : Machine) : Prop :=
  ∃ r N, sysMmap hal heap fuel file args M = some (r, N) ∧ Keeps M N ∧
    ∀ base, r = .ok base → ∃ bytes, fileBytes args file = some bytes ∧
      ∀ reader : Heap, (∀ n, reader.tryReserve n = true) →
        readBytes hal reader base (pageUp args.len) N = .ok (padded args bytes)

section Main

variable {hal : HalMemory} {heap : Heap} {file : KernelResult (List UInt8)} {args : MmapArgs}
  {bytes : List UInt8}

end Main

def fresh : Machine := ⟨newUser board, fun _ => 0⟩

end Placement
