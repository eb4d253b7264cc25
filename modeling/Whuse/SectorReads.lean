import Whuse.ByteFields
import Whuse.MachineWord

/-! Reading a range of bytes from a device that is read by sectors. -/
namespace SectorReads

open ByteFields MachineWord List

structure Device where
  sectorSize : ℕ
  readSector : ℕ → Except ℤ (List UInt8)
  readSectors : ℕ → ℕ → Except ℤ (List UInt8)

inductive BlockIoError where
  | invalidGeometry
  | addressOverflow
  | device (code : ℤ) (sector startByte readLen : ℕ)

/-- The sectors asked for, the destination and the answer. -/
structure Outcome where
  asked : List ℕ
  dst : List UInt8
  result : Except BlockIoError Unit

/-- A sum that overflows, a difference that underflows and a slice that does not fit are `none`. -/
def readLoop (d : Device) (start end_ : ℕ) : List ℕ → List UInt8 → Option Outcome
  | [], dst => some ⟨[], dst, .ok ()⟩
  | sector :: sectors, dst =>
    match d.readSector sector with
    | .error code => some ⟨[sector], dst, .error (.device code sector start dst.length)⟩
    | .ok scratch =>
      let sectorStart := sector * d.sectorSize
      let copyStart := max start sectorStart
      let copyEnd := min end_ (sectorStart + d.sectorSize)
      let dstStart := copyStart - start
      let srcStart := copyStart - sectorStart
      let len := copyEnd - copyStart
      if sectorStart + d.sectorSize ≤ usizeMax ∧ copyStart ≤ copyEnd ∧
          dstStart + len ≤ dst.length ∧ srcStart + len ≤ scratch.length then
        (readLoop d start end_ sectors (put dst dstStart (field scratch srcStart len))).map
          fun o => { o with asked := sector :: o.asked }
      else none

def scratchLen (d : Device) : ℕ := max d.sectorSize 512

def read (d : Device) (start : ℕ) (dst : List UInt8) : Option Outcome :=
  if d.sectorSize = 0 ∨ scratchLen d ≠ d.sectorSize then some ⟨[], dst, .error .invalidGeometry⟩
  else if usizeMax < start + dst.length then some ⟨[], dst, .error .addressOverflow⟩
  else
    let first := start / d.sectorSize
    let last := (start + dst.length - 1) / d.sectorSize
    if start % d.sectorSize = 0 ∧ dst.length % d.sectorSize = 0 then
      let asked := range' first (dst.length / d.sectorSize)
      match d.readSectors first dst.length with
      | .error code => some ⟨asked, dst, .error (.device code first start dst.length)⟩
      | .ok bytes => some ⟨asked, bytes, .ok ()⟩
    else readLoop d start (start + dst.length) (range' first (last + 1 - first)) dst

/-- The device is an array of whole sectors, and its calls return them. -/
structure Holds (d : Device) (bytes : List UInt8) : Prop where
  whole : ∀ s, s * d.sectorSize < bytes.length → s * d.sectorSize + d.sectorSize ≤ bytes.length
  small : bytes.length ≤ usizeMax
  sector : ∀ s, s * d.sectorSize < bytes.length →
    d.readSector s = .ok (field bytes (s * d.sectorSize) d.sectorSize)
  sectors : ∀ s len, d.sectorSize ∣ len → s * d.sectorSize + len ≤ bytes.length →
    d.readSectors s len = .ok (field bytes (s * d.sectorSize) len)

variable {d : Device} {bytes : List UInt8}

theorem field_add (bytes : List UInt8) (off a b : ℕ) :
    field bytes off (a + b) = field bytes off a ++ field bytes (off + a) b := by
  rw [field, field, field, take_add, drop_drop]

theorem field_field {off n off' len : ℕ} (h : off' + len ≤ n) :
    field (field bytes off n) off' len = field bytes (off + off') len := by
  rw [field, field, field, drop_take, drop_drop, take_take, min_eq_left (by omega)]

theorem field_length {off len : ℕ} (h : off + len ≤ bytes.length) :
    (field bytes off len).length = len := by
  rw [field, length_take, length_drop]
  omega

theorem put_append (front bytes rest : List UInt8) :
    put (front ++ rest) front.length bytes = (front ++ bytes) ++ rest.drop bytes.length := by
  rw [put, take_left, ← drop_drop, drop_left, append_assoc]

/-- Before each sector the destination is filled up to where the sector begins. -/
theorem readLoop_fills (h : Holds d bytes) {start end_ : ℕ} (hend : end_ ≤ bytes.length)
    {n s k : ℕ} {rest : List UInt8} (hk : start + k = min end_ (max start (s * d.sectorSize)))
    (hrest : start + k + rest.length = end_) (hafter : start ≤ s * d.sectorSize + d.sectorSize)
    (hbefore : ∀ i < n, (s + i) * d.sectorSize < end_) (hcover : end_ ≤ (s + n) * d.sectorSize) :
    readLoop d start end_ (range' s n) (field bytes start k ++ rest) =
      some ⟨range' s n, field bytes start (end_ - start), .ok ()⟩ := by
  induction n generalizing s k rest with
  | zero =>
    rw [Nat.add_zero] at hcover
    have hnil : rest = [] := length_eq_zero_iff.mp (by omega)
    have hall : k = end_ - start := by omega
    rw [hnil, append_nil, hall]
    rfl
  | succ n ih =>
    have hs : s * d.sectorSize < end_ := hbefore 0 (Nat.succ_pos n)
    have hnext := h.whole s (hs.trans_le hend)
    have hscratch := field_length hnext
    have hfront : (field bytes start k).length = k := field_length (by omega)
    have hsmall := h.small
    have hsucc : (s + 1) * d.sectorSize = s * d.sectorSize + d.sectorSize := Nat.succ_mul _ _
    have hcopy : max start (s * d.sectorSize) = start + k := by omega
    obtain ⟨len, hlen⟩ : ∃ len, min end_ (s * d.sectorSize + d.sectorSize) = start + k + len :=
      ⟨_, (Nat.add_sub_cancel' (by omega)).symm⟩
    have hput : put (field bytes start k ++ rest) k (field (field bytes (s * d.sectorSize)
        d.sectorSize) (start + k - s * d.sectorSize) len) =
        field bytes start (k + len) ++ rest.drop len := by
      have hpart : field bytes (start + k) len = field (field bytes (s * d.sectorSize)
          d.sectorSize) (start + k - s * d.sectorSize) len := by
        rw [field_field (by omega), Nat.add_sub_cancel' (by omega)]
      have hput := put_append (field bytes start k) (field bytes (start + k) len) rest
      rw [hfront, field_length (by omega), ← field_add] at hput
      rw [← hpart, hput]
    rw [range'_succ, readLoop, h.sector s (hs.trans_le hend)]
    simp only [hcopy, hlen, Nat.add_sub_cancel_left, hput]
    rw [if_pos ⟨by omega, by omega, by rw [length_append]; omega, by omega⟩, ih]
    · rfl
    · omega
    · rw [length_drop]; omega
    · omega
    · intro i hi
      rw [Nat.add_right_comm]
      exact hbefore (i + 1) (by omega)
    · rwa [Nat.add_right_comm]

/-- The sectors from the first byte to the last begin before the end and reach up to it. -/
theorem sectors_of_range {z start end_ : ℕ} (hz : 0 < z) (hend : end_ ≠ 0) :
    (∀ i < (end_ - 1) / z + 1 - start / z, (start / z + i) * z < end_) ∧
      end_ ≤ (start / z + ((end_ - 1) / z + 1 - start / z)) * z := by
  have hlast := Nat.div_mul_le_self (end_ - 1) z
  have hcover := Nat.lt_div_mul_add hz (a := end_ - 1)
  rw [← Nat.add_one_mul] at hcover
  constructor
  · intro i hi
    have := Nat.mul_le_mul_right z (show start / z + i ≤ (end_ - 1) / z by omega)
    omega
  · have := Nat.mul_le_mul_right z (show (end_ - 1) / z + 1 ≤
      start / z + ((end_ - 1) / z + 1 - start / z) by omega)
    omega

theorem meets_of_mem {z start end_ n s : ℕ} (hz : 0 < z)
    (hbefore : ∀ i < n, (start / z + i) * z < end_) (hs : s ∈ range' (start / z) n) :
    s * z < end_ ∧ start < (s + 1) * z := by
  obtain ⟨i, hi, rfl⟩ := mem_range'.mp hs
  rw [Nat.one_mul]
  refine ⟨hbefore i hi, (Nat.lt_div_mul_add hz).trans_le ?_⟩
  rw [← Nat.succ_mul]
  exact Nat.mul_le_mul_right z (by omega)

/-- The destination receives the bytes of the range, and only sectors that meet the range are asked
for, or at most one where the range is empty. -/
theorem read_fills (h : Holds d bytes) (hsize : 512 ≤ d.sectorSize) (start : ℕ) (dst : List UInt8)
    (hin : start + dst.length ≤ bytes.length) :
    ∃ asked, read d start dst = some ⟨asked, field bytes start dst.length, .ok ()⟩ ∧
      (dst ≠ [] → ∀ s ∈ asked, s * d.sectorSize < start + dst.length ∧
        start < (s + 1) * d.sectorSize) ∧ (dst = [] → asked.length ≤ 1) := by
  have hsmall := h.small
  have hpos : 0 < d.sectorSize := by omega
  rw [read, if_neg (by rw [scratchLen]; omega), if_neg (by omega)]
  by_cases haligned : start % d.sectorSize = 0 ∧ dst.length % d.sectorSize = 0
  · have hstart := Nat.div_mul_cancel (Nat.dvd_of_mod_eq_zero haligned.1)
    have hlen := Nat.dvd_of_mod_eq_zero haligned.2
    rw [if_pos haligned, h.sectors _ _ hlen (by omega), hstart]
    refine ⟨_, rfl, fun _ s hs => meets_of_mem hpos (fun i hi => ?_) hs, ?_⟩
    · rw [Nat.add_mul, hstart, Nat.mul_comm i]
      exact Nat.add_lt_add_left ((Nat.lt_div_iff_mul_lt' hlen i).mp hi) start
    · rintro rfl
      simp
  · rw [if_neg haligned]
    have hend : start + dst.length ≠ 0 := by
      intro hzero
      have hboth : start = 0 ∧ dst.length = 0 := by omega
      exact haligned (by simp [hboth])
    obtain ⟨hbefore, hcover⟩ := @sectors_of_range _ start _ hpos hend
    have hfirst := Nat.div_mul_le_self start d.sectorSize
    have hloop := @readLoop_fills d bytes h start _ hin _ _ 0 dst (by omega) rfl
      (Nat.lt_div_mul_add hpos).le hbefore hcover
    rw [Nat.add_sub_cancel_left] at hloop
    refine ⟨_, hloop, fun _ s => meets_of_mem hpos hbefore, ?_⟩
    rintro rfl
    have hle := Nat.div_le_div_right (c := d.sectorSize) (Nat.sub_le start 1)
    rw [length_range']
    show (start - 1) / d.sectorSize + 1 - start / d.sectorSize ≤ 1
    omega

/-- One sector of zeros. -/
def blank : Device where
  sectorSize := 512
  readSector _ := .ok (replicate 512 0)
  readSectors _ len := .ok (replicate len 0)

theorem read_fills_blank : ∃ asked,
    read blank 500 [1, 2, 3] = some ⟨asked, field (replicate 512 0) 500 3, .ok ()⟩ := by
  have hholds : Holds blank (replicate 512 0) := by
    constructor
    all_goals simp only [blank, field, length_replicate, drop_replicate, take_replicate]
    · omega
    · decide
    · intro s hs
      rw [show s = 0 by omega]
      rfl
    · intro s len _ hle
      rw [min_eq_left (by omega)]
  obtain ⟨asked, hread, -⟩ := read_fills hholds le_rfl 500 [1, 2, 3] (by rw [length_replicate]; decide)
  exact ⟨asked, hread⟩

end SectorReads
