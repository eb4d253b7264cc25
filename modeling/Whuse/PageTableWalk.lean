import Whuse.PageTables
import Whuse.RadixPaging

/-! What the hardware walk finds in the tables the two builders make. Each format is a radix
table with a leaf codec; each walk reads it as the radix walk does, since every entry was
written by the builder. -/
namespace PageTableWalk

open MachineWord AddressSpace PagedView RadixTable RadixPaging PageTables List Option

theorem small_eq : small = 2 ^ 12 := by unfold small; rfl

theorem large_eq : large = 2 ^ 21 := by unfold large; rfl

theorem pageSize_eq : pageSize = small := by rw [small_eq]; rfl

theorem index_eq_digit (v level : ℕ) :
    (v >>> (12 + 9 * level)) &&& 0x1ff = v / small / 512 ^ level % 512 := by
  have hmask : (0x1ff : ℕ) = 2 ^ 9 - 1 := rfl
  have hpow : (512 : ℕ) ^ level = 2 ^ (9 * level) := by rw [pow_mul]; rfl
  rw [hmask, Nat.and_two_pow_sub_one_eq_mod, Nat.shiftRight_eq_div_pow, small_eq, hpow, pow_add,
    Nat.div_div_eq_div_mul]

theorem index_eq_largeDigit (v level : ℕ) :
    (v >>> (21 + 9 * level)) &&& 0x1ff = v / large / 512 ^ level % 512 := by
  have hstep : 21 + 9 * level = 12 + 9 * (level + 1) := by omega
  rw [hstep, index_eq_digit, pow_succ', ← Nat.div_div_eq_div_mul, Nat.div_div_eq_div_mul v,
    small_times]

variable {segments : List Segment} {s : Segment}
  {a bound fl level m n p ramHi ramLo t v k b userBits : ℕ} {pteFlags : ℕ → ℕ} {entry : ℕ → ℕ → ℕ}
  {boxes : BoxPages} {C : Codec ℕ boxes.toSupply} {ws : List Window}

theorem aligned_mask (hv : v % 2 ^ k = 0) (hp : p % 2 ^ k = 0) :
    ¬ (v ||| p) &&& (2 ^ k - 1) ≠ 0 := by
  rw [not_not, Nat.and_or_distrib_right, Nat.and_two_pow_sub_one_eq_mod,
    Nat.and_two_pow_sub_one_eq_mod, hv, hp, Nat.or_self]

theorem pageSizeAt_eq (level : ℕ) : pageSizeAt level = small * 512 ^ level := by
  rw [small_eq]
  rfl

/-! How a hardware walk reads the entries of a format, and that it is the radix walk then. -/
section Walkers

variable {boxes : BoxPages} {C : Codec ℕ boxes.toSupply} {T : Tables ℕ}

def digitAt (level v : ℕ) : ℕ := v / small / 512 ^ level % 512

structure Walker (C : Codec ℕ boxes.toSupply) where
  walk : (ℕ → ℕ → ℕ) → ℕ → ℕ → ℕ → Option Leaf
  absent : ∀ {entry level t v}, C.format.classify (entry t (digitAt level v)) = .absent →
    walk entry level t v = none
  lastLink : ∀ {entry t v a}, a % 2 ^ 12 = 0 → a < 2 ^ 48 →
    entry t (digitAt 0 v) = C.format.link a → walk entry 0 t v = none
  link : ∀ {entry level t v a}, a ≠ 0 → a % 2 ^ 12 = 0 → a < 2 ^ 48 →
    entry t (digitAt (level + 1) v) = C.format.link a →
    walk entry (level + 1) t v = walk entry level a v
  smallLeaf : ∀ {entry t v a fl}, a % small = 0 → a < C.physBound → C.SmallOk fl →
    entry t (digitAt 0 v) = C.smallLeaf a fl →
    walk entry 0 t v = some ⟨pageSizeAt 0, a, C.smallFlags fl⟩
  largeLeaf : ∀ {entry t v a fl}, a % large = 0 → a < C.physBound → C.LargeOk fl →
    entry t (digitAt 1 v) = C.largeLeaf a fl →
    walk entry 1 t v = some ⟨pageSizeAt 1, a, C.largeFlags fl⟩

variable {q : List ℕ} {i : ℕ} (hgood : WellFormed C.format boxes.toSupply (Shape C m) T)
  (hq : reach C.format T q = some t)
include hgood hq

theorem table_entry (hc : C.format.classify (T.entry t i) = .table a) :
    T.entry t i = C.format.link a ∧ reach C.format T (q ++ [i]) = some a ∧ a ≠ 0 ∧
      a % 2 ^ 12 = 0 ∧ a < 2 ^ 48 := by
  have hnext := reach_snoc_of_some (i := i) hq
  rw [child_eq_some.mpr hc] at hnext
  obtain ⟨k, hlt, rfl⟩ := hgood.supplied a (hgood.owned _ _ hnext)
  have hk := hlt.trans_le hgood.room
  exact ⟨hgood.linked q _ t _ hq hc, hnext, boxes.nonzero k hk, boxes.aligned k hk,
    boxes.below k hk⟩

theorem leaf_shape (hc : C.format.classify (T.entry t i) = .leaf) :
    Shape C m (q.length + 1) (T.entry t i) := by
  have hleaf := hgood.shaped _ _ ((hasLeaf_slot hq _).mpr ⟨rfl, hc⟩)
  rwa [length_append] at hleaf

/-- The hardware walk from a reached table is the radix walk with the leaf decoded. -/
theorem Walker.walk_eq (W : Walker C) (v level : ℕ) (hlen : q.length + level = m) :
    W.walk T.entry level t v =
      (RadixTable.walk C.format T t (digits (level + 1) (v / small))).map (decode C) := by
  induction level generalizing q t with
  | zero =>
    simp only [digits, RadixTable.walk]
    cases hc : C.format.classify (T.entry t (v / small / 512 ^ 0 % 512)) with
    | absent => exact W.absent hc
    | table a =>
      obtain ⟨hentry, -, -, haligned, ha⟩ := table_entry hgood hq hc
      exact W.lastLink haligned ha hentry
    | leaf =>
      rcases leaf_shape hgood hq hc with ⟨hd, -⟩ | ⟨-, a, fl, ha, hphys, hfl, he⟩
      · omega
      have hread := C.small_read a fl ha hphys hfl
      rw [W.smallLeaf ha hphys hfl he, he, map_some, decode, hread.2.1, hread.2.2, pageSizeAt_eq]
      rfl
  | succ level ih =>
    rw [digits, RadixTable.walk]
    cases hc : C.format.classify (T.entry t (v / small / 512 ^ (level + 1) % 512)) with
    | absent => exact W.absent hc
    | table a =>
      obtain ⟨hentry, hnext, hne, haligned, ha⟩ := table_entry hgood hq hc
      rw [W.link hne haligned ha hentry]
      refine ih hnext ?_
      rw [length_append, length_singleton]
      omega
    | leaf =>
      rcases leaf_shape hgood hq hc with ⟨hd, a, fl, ha, hphys, hfl, he⟩ | ⟨hd, -⟩
      · obtain rfl : level = 0 := by omega
        have hread := C.large_read a fl ha hphys hfl
        rw [W.largeLeaf ha hphys hfl he, he, map_some, decode, hread.2.1, hread.2.2, digits_length,
          pageSizeAt_eq]
      · omega

end Walkers

theorem guarded_pages {c : Prop} [Decidable c] (f : Format ℕ) (T : Tables ℕ) (p : List ℕ) (e : ℕ) :
    T.pages.length ≤ (if c then T else place f boxes.toSupply T T.root p e).pages.length ∧
      (if c then T else place f boxes.toSupply T T.root p e).pages.length ≤
        T.pages.length + p.length := by
  split
  · omega
  · exact place_pages T.root p e

section Sv39

theorem sv39_entry (hfl : fl < 2 ^ 10) : (p >>> 12) <<< 10 ||| fl = p / 2 ^ 12 * 2 ^ 10 + fl := by
  rw [shiftLeft_or hfl, Nat.shiftRight_eq_div_pow]

theorem sv39_low (hfl : fl < 2 ^ 10) (hm : m < 2 ^ 10) :
    ((p >>> 12) <<< 10 ||| fl) &&& m = fl &&& m := by
  rw [sv39_entry hfl, and_low_mask hm, Nat.mul_add_mod_self_right, Nat.mod_eq_of_lt hfl]

theorem sv39_high (hfl : fl < 2 ^ 10) : ((p >>> 12) <<< 10 ||| fl) >>> 10 = p / 2 ^ 12 := by
  rw [sv39_entry hfl]
  omega

theorem leafPte_eq (p fl : ℕ) :
    riscvMakeLeafPte p fl = (p >>> 12) <<< 10 ||| (fl ||| riscvPteV) := Nat.or_assoc _ _ _

theorem or_valid_lt (hfl : fl < 2 ^ 10) : fl ||| riscvPteV < 2 ^ 10 :=
  Nat.or_lt_two_pow hfl (by decide)

def sv39Base (e : ℕ) : ℕ := ((e >>> 10) &&& (2 ^ 44 - 1)) * 4096

theorem sv39Base_eq (hfl : fl < 2 ^ 10) (haligned : p % 2 ^ 12 = 0) (hp : p < 2 ^ 48) :
    sv39Base ((p >>> 12) <<< 10 ||| fl) = p := by
  rw [sv39Base, sv39_high hfl, Nat.and_two_pow_sub_one_eq_mod]
  omega

theorem sv39_classify_link (haligned : p % 2 ^ 12 = 0) (hp : p < 2 ^ 48) :
    sv39Format.classify (riscvMakeTablePte p) = .table p := by
  have hV : riscvPteV < 2 ^ 10 := by decide
  have hvalid : riscvMakeTablePte p &&& riscvPteV ≠ 0 := by
    rw [riscvMakeTablePte, sv39_low hV hV]
    decide
  have hno : riscvMakeTablePte p &&& (riscvPteR ||| riscvPteW ||| riscvPteX) = 0 := by
    rw [riscvMakeTablePte, sv39_low hV (by decide)]
    decide
  have haddr : (riscvMakeTablePte p >>> 10) <<< 12 % 2 ^ 64 = p := by
    rw [riscvMakeTablePte, sv39_high hV]
    omega
  simp only [sv39Format, if_pos (And.intro hvalid hno), haddr]

structure LeafFlags (fl : ℕ) : Prop where
  bits : fl < 2 ^ 10
  access : fl &&& (riscvPteR ||| riscvPteW ||| riscvPteX) ≠ 0

theorem or_and_ne_zero (h : a &&& m ≠ 0) : (a ||| b) &&& m ≠ 0 := by
  rw [Nat.and_or_distrib_right]
  intro hzero
  exact h (Nat.or_eq_zero_iff.mp hzero).1

theorem sv39_leaf_bits (hfl : LeafFlags fl) : riscvMakeLeafPte p fl &&& riscvPteV ≠ 0 ∧
      riscvMakeLeafPte p fl &&& (riscvPteR ||| riscvPteW ||| riscvPteX) ≠ 0 := by
  have hlt := or_valid_lt hfl.bits
  constructor
  · rw [leafPte_eq, sv39_low hlt (by decide), Nat.or_comm]
    exact or_and_ne_zero (by decide)
  · rw [leafPte_eq, sv39_low hlt (by decide)]
    exact or_and_ne_zero hfl.access

theorem sv39_leaf_read (haligned : p % 2 ^ 12 = 0) (hp : p < 2 ^ 48) (hfl : LeafFlags fl) :
    sv39Format.classify (riscvMakeLeafPte p fl) = .leaf ∧ sv39Base (riscvMakeLeafPte p fl) = p ∧
      riscvMakeLeafPte p fl &&& 0x3ff = fl ||| riscvPteV := by
  have hlt := or_valid_lt hfl.bits
  obtain ⟨hvalid, haccess⟩ := sv39_leaf_bits (p := p) hfl
  refine ⟨?_, ?_, ?_⟩
  · simp [sv39Format, hvalid, haccess]
  · rw [leafPte_eq, sv39Base_eq hlt haligned hp]
  · have hmask : (0x3ff : ℕ) = 2 ^ 10 - 1 := rfl
    rw [leafPte_eq, sv39_low hlt (by decide), hmask, Nat.and_two_pow_sub_one_eq_mod,
      Nat.mod_eq_of_lt hlt]

theorem large_aligned (h : p % large = 0) : p % 2 ^ 12 = 0 := by
  rw [large_eq] at h
  omega

def sv39Codec (boxes : BoxPages) : Codec ℕ boxes.toSupply where
  format := sv39Format
  encodes := ⟨by decide, fun k hk => sv39_classify_link (boxes.aligned k hk) (boxes.below k hk)⟩
  physBound := 2 ^ 48
  largeLeaf := riscvMakeLeafPte
  smallLeaf := riscvMakeLeafPte
  base := sv39Base
  flags e := e &&& 0x3ff
  largeFlags fl := fl ||| riscvPteV
  smallFlags fl := fl ||| riscvPteV
  LargeOk := LeafFlags
  SmallOk := LeafFlags
  large_read _ _ hp hphys hfl := sv39_leaf_read (large_aligned hp) hphys hfl
  small_read _ _ hp hphys hfl := sv39_leaf_read (small_eq ▸ hp) hphys hfl

variable {boxes : BoxPages} {T : Tables ℕ}

def Sv39Good (boxes : BoxPages) (T : Tables ℕ) : Prop :=
  WellFormed sv39Format boxes.toSupply (Shape (sv39Codec boxes) 2) T

theorem sv39_classify_absent {e : ℕ} (h : sv39Format.classify e = .absent) :
    e &&& riscvPteV = 0 := by
  by_contra hV
  by_cases hA : e &&& (riscvPteR ||| riscvPteW ||| riscvPteX) = 0 <;> simp [sv39Format, hV, hA] at h

theorem sv39Walk_absent (h : entry t (digitAt level v) &&& riscvPteV = 0) :
    sv39Walk entry level t v = none := by
  cases level <;> rw [sv39Walk, index_eq_digit] <;> exact if_pos h

theorem sv39_link_bits (a : ℕ) : riscvMakeTablePte a &&& riscvPteV ≠ 0 ∧
      riscvMakeTablePte a &&& (riscvPteR ||| riscvPteW ||| riscvPteX) = 0 := by
  have hV : riscvPteV < 2 ^ 10 := by decide
  constructor <;> rw [riscvMakeTablePte, sv39_low hV (by decide)] <;> decide

theorem sv39Walk_last_link (h : entry t (digitAt 0 v) = riscvMakeTablePte a) :
    sv39Walk entry 0 t v = none := by
  obtain ⟨hvalid, hno⟩ := sv39_link_bits a
  rw [digitAt] at h
  rw [sv39Walk, index_eq_digit, h, if_neg hvalid, if_pos hno]

theorem sv39Walk_link (h : entry t (digitAt (level + 1) v) = riscvMakeTablePte a)
    (haligned : a % 2 ^ 12 = 0) (ha : a < 2 ^ 48) :
    sv39Walk entry (level + 1) t v = sv39Walk entry level a v := by
  obtain ⟨hvalid, hno⟩ := sv39_link_bits a
  have hbase : sv39Base (riscvMakeTablePte a) = a := sv39Base_eq (by decide) haligned ha
  rw [digitAt] at h
  rw [sv39Walk, index_eq_digit, h, if_neg hvalid, if_pos hno]
  exact congrArg (fun t => sv39Walk entry level t v) hbase

theorem sv39Walk_leaf (h : entry t (digitAt level v) = riscvMakeLeafPte a fl)
    (haligned : a % pageSizeAt level = 0) (hpage : a % 2 ^ 12 = 0) (ha : a < 2 ^ 48)
    (hfl : LeafFlags fl) :
    sv39Walk entry level t v = some ⟨pageSizeAt level, a, fl ||| riscvPteV⟩ := by
  obtain ⟨hvalid, haccess⟩ := sv39_leaf_bits (p := a) hfl
  obtain ⟨-, hbase, hflags⟩ := sv39_leaf_read hpage ha hfl
  rw [sv39Base] at hbase
  rw [digitAt] at h
  cases level <;>
    rw [sv39Walk, index_eq_digit, h, if_neg hvalid, if_neg haccess, hbase,
      if_neg (not_not.mpr haligned), hflags]

def sv39Walker (boxes : BoxPages) : Walker (sv39Codec boxes) where
  walk := sv39Walk
  absent h := sv39Walk_absent (sv39_classify_absent h)
  lastLink _ _ h := sv39Walk_last_link h
  link _ haligned ha h := sv39Walk_link h haligned ha
  smallLeaf ha hphys hfl h :=
    sv39Walk_leaf h (by rwa [pageSizeAt_eq, pow_zero, mul_one]) (small_eq ▸ ha) hphys hfl
  largeLeaf ha hphys hfl h :=
    sv39Walk_leaf h (by rwa [pageSizeAt_eq, pow_one, small_times]) (large_aligned ha) hphys hfl

theorem sv39_map4k_place (boxes : BoxPages) (T : Tables ℕ) (v p fl : ℕ) :
    Sv39.map4k boxes T v p fl = if (v ||| p) &&& (pageSize - 1) ≠ 0 then T
      else place sv39Format boxes.toSupply T T.root
        [(v >>> 30) &&& 0x1ff, (v >>> 21) &&& 0x1ff, (v >>> 12) &&& 0x1ff]
        (riscvMakeLeafPte p fl) := rfl

theorem sv39_map4k_eq (hv : v % small = 0) (hp : p % small = 0) : Sv39.map4k boxes T v p fl =
      place sv39Format boxes.toSupply T T.root (path 2 v) (riscvMakeLeafPte p fl) := by
  rw [small_eq] at hv hp
  have h0 := index_eq_digit v 0
  have h1 := index_eq_digit v 1
  have h2 := index_eq_digit v 2
  have hmask : pageSize - 1 = 2 ^ 12 - 1 := rfl
  rw [sv39_map4k_place, if_neg (hmask ▸ aligned_mask hv hp), path, digits, digits, digits, digits,
    ← h0, ← h1, ← h2]

theorem sv39_map2m_pages (boxes : BoxPages) (T : Tables ℕ) (v p fl : ℕ) :
    T.pages.length ≤ (Sv39.map2m boxes T v p fl).pages.length ∧
      (Sv39.map2m boxes T v p fl).pages.length ≤ T.pages.length + 3 := by
  rw [Sv39.map2m]
  split
  · omega
  · obtain ⟨h₁, h₂⟩ := ensure_pages sv39Format boxes.toSupply T T.root ((v >>> 30) &&& 0x1ff)
    exact ⟨h₁, h₂.trans (by omega)⟩

theorem sv39_map4k_pages (boxes : BoxPages) (T : Tables ℕ) (v p fl : ℕ) :
    T.pages.length ≤ (Sv39.map4k boxes T v p fl).pages.length ∧
      (Sv39.map4k boxes T v p fl).pages.length ≤ T.pages.length + 3 := by
  rw [sv39_map4k_place]
  exact guarded_pages sv39Format T _ _

/-- No leaf stands in the root table, so the address the builder does not look at is a table. -/
theorem sv39_map2m_eq (hgood : Sv39Good boxes T) (hv : v % large = 0) (hp : p % large = 0)
    (hfit : (Sv39.map2m boxes T v p fl).pages.length ≤ boxes.limit) :
    Sv39.map2m boxes T v p fl =
      place sv39Format boxes.toSupply T T.root (largePath 2 v) (riscvMakeLeafPte p fl) := by
  rw [large_eq] at hv hp
  have h0 := index_eq_largeDigit v 0
  have h1 := index_eq_largeDigit v 1
  rw [Sv39.map2m, if_neg (aligned_mask hv hp)] at hfit
  obtain ⟨-, -, -, hstep⟩ := ensure_spec (sv39Codec boxes).encodes hgood
    (show reach sv39Format T [] = some T.root from rfl) ((v >>> 30) &&& 0x1ff) hfit
  have hne : (Sv39.ensureNextTable boxes T T.root ((v >>> 30) &&& 0x1ff)).1 ≠ 0 := by
    rcases hstep with ⟨-, d, hd⟩ | ⟨hne, -⟩
    · rcases hgood.shaped _ _ hd with ⟨hdepth, -⟩ | ⟨hdepth, -⟩ <;> simp at hdepth
    · exact hne
  rw [Sv39.map2m, if_neg (aligned_mask hv hp), largePath, digits, digits, ← h0, ← h1]
  exact (if_neg hne).symm

def sv39Builder (boxes : BoxPages) : Builder (sv39Codec boxes) 2 where
  depth := Nat.two_pos
  walk := riscvTranslate
  map2m := Sv39.map2m boxes
  map4k := Sv39.map4k boxes
  map2m_pages := sv39_map2m_pages boxes
  map4k_pages := sv39_map4k_pages boxes
  walk_eq _ v hgood := (sv39Walker boxes).walk_eq (q := []) hgood rfl v 2 rfl
  map2m_eq _ _ _ _ hgood hv hp hfit := sv39_map2m_eq hgood hv hp hfit
  map4k_eq _ _ _ _ hv hp := sv39_map4k_eq hv hp

end Sv39

section Loong

theorem laMask_eq : laPteAddrMask = (2 ^ 36 - 1) <<< 12 := by decide

variable {boxes : BoxPages} {T : Tables ℕ}

end Loong

/-! The tables as built: the windows, then the segments in their order. -/
section Built

/-- What a list of segments has to meet before its pages are mapped: it lies below the bound,
its frames are whole pages of physical memory, and it is not left to the identity window. -/
structure SegmentOk (bound ramLo ramHi : ℕ) (s : Segment) : Prop where
  below : s.area.start + s.area.len ≤ bound
  frames : ∀ p, segmentPhysBase s = some p →
    p % pageSize = 0 ∧ p + (segmentEnd s - segmentStart s) ≤ 2 ^ 48
  apart : ∀ p, segmentPhysBase s = some p →
    ¬ ((ramLo ≤ segmentStart s ∧ segmentStart s < ramHi) ∧ p = segmentStart s)

theorem segmentStart_eq (h : s.area.start ≤ usizeMax) :
    segmentStart s = s.area.start / 2 ^ 12 * 2 ^ 12 :=
  alignDown_two_pow (k := 12) h (by decide)

theorem segmentEnd_eq (h : s.area.start + s.area.len + 4095 ≤ usizeMax) :
    segmentEnd s = (s.area.start + s.area.len + 4095) / 2 ^ 12 * 2 ^ 12 := by
  rw [segmentEnd, wrappingAdd_of_le (by omega)]
  exact alignUp_two_pow (k := 12) (by decide) h

def segmentRegion (pteFlags : ℕ → ℕ) (s : Segment) : Option Region :=
  (segmentPhysBase s).map fun p => ⟨segmentStart s, segmentEnd s, p, pteFlags s.area.prot⟩

variable {boxes : BoxPages} {C : Codec ℕ boxes.toSupply} (B : Builder C m)

theorem mapIdentity2m_eq {lo hi : ℕ} (hlo : alignDown lo (2 ^ 21) = lo)
    (hhi : alignUp hi (2 ^ 21) = hi) (T : Tables ℕ) (fl : ℕ) :
    mapIdentity2m B.map2m T lo hi fl = mapWindow B.paging T ⟨lo, hi, fl⟩ := by
  rw [mapIdentity2m, mapWindow, large_eq, hlo, hhi]
  rfl

theorem mapSegmentPages_eq (hs : SegmentOk bound ramLo ramHi s) (T : Tables ℕ) :
    mapSegmentPages B.map4k ramLo ramHi pteFlags T s =
      ((segmentRegion pteFlags s).toList).foldl (mapRegion B.paging) T := by
  rcases hp : segmentPhysBase s with _ | p
  · simp [mapSegmentPages, segmentRegion, hp]
  have hframes := (hs.frames p hp).2
  have hpos : 0 < pageSize := by decide
  simp only [mapSegmentPages, segmentRegion, hp, if_neg (hs.apart p hp), map_some, toList_some,
    foldl_cons, mapRegion, ← pageSize_eq]
  apply foldl_ext
  intro T v hv
  obtain ⟨k, rfl, hlt⟩ := (mem_steps hpos).mp hv
  rw [wrappingAdd_of_le (by unfold usizeMax; omega)]
  rfl

theorem mapSegments_eq (hs : ∀ s ∈ segments, SegmentOk bound ramLo ramHi s) (T : Tables ℕ) :
    segments.foldl (mapSegmentPages B.map4k ramLo ramHi pteFlags) T =
      (segments.filterMap (segmentRegion pteFlags)).foldl (mapRegion B.paging) T := by
  induction segments generalizing T with
  | nil => rfl
  | cons s rest ih =>
    have hrest := ih fun x hx => hs x (mem_cons_of_mem s hx)
    rw [foldl_cons, mapSegmentPages_eq B (hs s mem_cons_self), hrest, filterMap_cons]
    cases segmentRegion pteFlags s <;> rfl

def lastSegment (segments : List Segment) (v : ℕ) : Option Segment :=
  lastCovering segmentStart segmentEnd (segments.filter fun s => (segmentPhysBase s).isSome) v

theorem lastRegion_eq (pteFlags : ℕ → ℕ) (segments : List Segment) (v : ℕ) :
    lastCovering Region.lo Region.hi (segments.filterMap (segmentRegion pteFlags)) v =
      (lastSegment segments v).bind (segmentRegion pteFlags) := by
  induction segments using List.reverseRecOn with
  | nil => rfl
  | append_singleton segments s ih =>
    rw [lastSegment, filterMap_append, filter_append]
    rcases hp : segmentPhysBase s with _ | p
    · have hregion : segmentRegion pteFlags s = none := by rw [segmentRegion, hp, map_none]
      have h₁ : [s].filterMap (segmentRegion pteFlags) = [] := by simp [hregion]
      have h₂ : [s].filter (fun s => (segmentPhysBase s).isSome) = [] := by simp [hp]
      rw [h₁, h₂, append_nil, append_nil]
      exact ih
    have hregion : segmentRegion pteFlags s =
        some ⟨segmentStart s, segmentEnd s, p, pteFlags s.area.prot⟩ := by
      rw [segmentRegion, hp, map_some]
    have h₁ : [s].filterMap (segmentRegion pteFlags) =
        [⟨segmentStart s, segmentEnd s, p, pteFlags s.area.prot⟩] := by simp [hregion]
    have h₂ : [s].filter (fun s => (segmentPhysBase s).isSome) = [s] := by simp [hp]
    rw [h₁, h₂, lastCovering_snoc, lastCovering_snoc]
    split
    · exact hregion.symm
    · exact ih

theorem regionOk {r : Region} (hs : SegmentOk (RadixPaging.bound m) ramLo ramHi s)
    (hbound : RadixPaging.bound m ≤ 2 ^ 48) (hphys : C.physBound = 2 ^ 48)
    (hflags : ∀ prot, C.SmallOk (pteFlags prot)) (hr : segmentRegion pteFlags s = some r) :
    RegionOk B.paging r := by
  obtain ⟨p, hp, rfl⟩ := map_eq_some_iff.mp hr
  obtain ⟨haligned, hframes⟩ := hs.frames p hp
  have hbelow := hs.below
  have hmod : RadixPaging.bound m % 2 ^ 12 = 0 := by
    rw [RadixPaging.bound, small_eq, Nat.mul_mod_right]
  have hstart := segmentStart_eq (s := s) (by unfold usizeMax; omega)
  have hend := segmentEnd_eq (s := s) (by unfold usizeMax; omega)
  rw [pageSize_eq] at haligned
  have hrange : segmentStart s % 2 ^ 12 = 0 ∧ segmentEnd s % 2 ^ 12 = 0 ∧
      segmentEnd s ≤ RadixPaging.bound m := by
    omega
  exact ⟨small_eq ▸ hrange.1, small_eq ▸ hrange.2.1, hrange.2.2, haligned,
    hframes.trans_eq hphys.symm, hflags _⟩

theorem built_walk {ws : List Window} (hws : ∀ w ∈ ws, WindowOk B.paging w)
    (hs : ∀ s ∈ segments, SegmentOk (RadixPaging.bound m) ramLo ramHi s)
    (hbound : RadixPaging.bound m ≤ 2 ^ 48) (hphys : C.physBound = 2 ^ 48)
    (hflags : ∀ prot, C.SmallOk (pteFlags prot)) (hv : v < RadixPaging.bound m)
    (hheld : boxes.Held (segments.foldl (mapSegmentPages B.map4k ramLo ramHi pteFlags)
      (ws.foldl (mapWindow B.paging) (start C.format boxes.toSupply)))) :
    B.walk (segments.foldl (mapSegmentPages B.map4k ramLo ramHi pteFlags)
        (ws.foldl (mapWindow B.paging) (start C.format boxes.toSupply))) v =
      ((lastCovering Window.lo Window.hi ws v).map (windowLeaf B.paging · v)).or
        (((lastSegment segments v).bind (segmentRegion pteFlags)).map
          (regionLeaf B.paging · v)) := by
  rw [mapSegments_eq B hs] at hheld
  rw [mapSegments_eq B hs, ← lastRegion_eq]
  have hfits := mapWindows_fits ws (mapRegions_fits (P := B.paging) _ hheld)
  obtain ⟨hgood, hnone⟩ := B.start_spec (show 1 ≤ boxes.limit from hfits)
  refine built_view hgood hws ?_ hheld (fun v _ => hnone v) hv
  intro r hr
  obtain ⟨s, hmem, hregion⟩ := mem_filterMap.mp hr
  exact regionOk B (hs s hmem) hbound hphys hflags hregion

end Built

/-! The two windows of each kernel, with the flags of their leaves as the walk reads them. -/

def riscvWindows : List Window :=
  [⟨0x80000000, 0x100000000, riscvRamFlags⟩,
    ⟨riscvMmioBase, riscvMmioBase + riscvMmioSize, riscvMmioFlags⟩]

theorem riscvSegmentPteFlags_ok (prot : ℕ) : LeafFlags (riscvSegmentPteFlags prot) := by
  rw [riscvSegmentPteFlags]
  cases prot &&& 0b010 != 0 <;> cases prot &&& 0b100 != 0 <;> cases prot &&& 0b001 != 0 <;>
    exact ⟨by decide, by decide⟩

theorem riscv_bound : RadixPaging.bound 2 = 2 ^ 39 := by
  rw [RadixPaging.bound, small_eq]
  rfl

theorem buildRiscvPageTable_eq (boxes : BoxPages) (segments : List Segment) :
    buildRiscvPageTable boxes segments =
      segments.foldl (mapSegmentPages (sv39Builder boxes).map4k 0x80000000 0x100000000
          riscvSegmentPteFlags)
        (riscvWindows.foldl (mapWindow (sv39Builder boxes).paging)
          (start (sv39Codec boxes).format boxes.toSupply)) := by
  simp only [buildRiscvPageTable]
  rw [show Sv39.map2m boxes = (sv39Builder boxes).map2m from rfl,
    mapIdentity2m_eq _ (by decide +kernel) (by decide +kernel),
    mapIdentity2m_eq _ (by decide +kernel) (by decide +kernel)]
  rfl

theorem windows_ok (B : Builder C m) (hphys : C.physBound = 2 ^ 48)
    (hflags : ∀ w ∈ ws, C.LargeOk w.flags)
    (h : ∀ w ∈ ws, w.lo % 2 ^ 21 = 0 ∧ w.hi % 2 ^ 21 = 0 ∧ w.hi ≤ RadixPaging.bound m ∧
      w.hi ≤ 2 ^ 48) : ∀ w ∈ ws, WindowOk B.paging w := by
  intro w hw
  obtain ⟨hlo, hhi, hbound, hbelow⟩ := h w hw
  rw [← large_eq] at hlo hhi
  exact ⟨hlo, hhi, hbound, hbelow.trans_eq hphys.symm, hflags w hw⟩

theorem riscvWindows_ok (boxes : BoxPages) :
    ∀ w ∈ riscvWindows, WindowOk (sv39Builder boxes).paging w := by
  refine windows_ok _ rfl ?_ (by rw [riscv_bound]; decide)
  intro w hw
  simp only [riscvWindows, mem_cons, not_mem_nil, or_false] at hw
  rcases hw with rfl | rfl <;> exact ⟨by decide, by decide⟩

/-- What a walk at an address finds: the leaf of a window, with none of the bits that give user
access; else the page of the last segment that covers it; else nothing. -/
structure WalkResult (translate : ℕ → Option Leaf) (windows : List Window) (userBits : ℕ)
    (windowFlags segmentFlags : ℕ → ℕ) (segments : List Segment) (v : ℕ) : Prop where
  window : ∀ w ∈ windows, w.lo ≤ v → v < w.hi → ∃ l, translate v = some l ∧ l.size = 2 ^ 21 ∧
    l.translate v = v ∧ l.flags = windowFlags w.flags ∧ l.flags &&& userBits = 0
  segment : (∀ w ∈ windows, ¬ (w.lo ≤ v ∧ v < w.hi)) → ∀ s, lastSegment segments v = some s →
    ∃ p, segmentPhysBase s = some p ∧ translate v =
        some ⟨2 ^ 12, p + (v / 2 ^ 12 * 2 ^ 12 - segmentStart s), segmentFlags s.area.prot⟩
  nothing : (∀ w ∈ windows, ¬ (w.lo ≤ v ∧ v < w.hi)) → lastSegment segments v = none →
    translate v = none

/-- Two windows apart: the one that covers an address is the last to cover it. -/
theorem lastWindow_of_mem {w₁ w₂ w : Window} (hapart : w₁.hi ≤ w₂.lo ∨ w₂.hi ≤ w₁.lo)
    (hw : w ∈ [w₁, w₂]) (hlo : w.lo ≤ v) (hhi : v < w.hi) :
    lastCovering Window.lo Window.hi [w₁, w₂] v = some w := by
  have hlast := lastCovering_snoc Window.lo Window.hi [w₁] w₂ v
  have hfirst := lastCovering_snoc Window.lo Window.hi [] w₁ v
  simp only [singleton_append, nil_append] at hlast hfirst
  simp only [mem_cons, not_mem_nil, or_false] at hw
  rcases hw with rfl | rfl
  · rw [hlast, if_neg (by omega), hfirst, if_pos ⟨hlo, hhi⟩]
  · rw [hlast, if_pos ⟨hlo, hhi⟩]

theorem lastWindow_none (h : ∀ w ∈ ws, ¬ (w.lo ≤ v ∧ v < w.hi)) :
    lastCovering Window.lo Window.hi ws v = none := by
  cases hlast : lastCovering Window.lo Window.hi ws v with
  | none => rfl
  | some w =>
    obtain ⟨hmem, hcov⟩ := lastCovering_some hlast
    exact absurd hcov (h w hmem)

theorem lastSegment_phys (h : lastSegment segments v = some s) :
    ∃ p, segmentPhysBase s = some p := by
  have hmem := (mem_filter.mp (lastCovering_some h).1).2
  exact isSome_iff_exists.mp hmem

theorem walkResult_of_eq {τ : Type} {P : Paging τ} {translate : ℕ → Option Leaf} {w₁ w₂ : Window}
    (hapart : w₁.hi ≤ w₂.lo ∨ w₂.hi ≤ w₁.lo)
    (huser : ∀ w ∈ [w₁, w₂], P.largeFlags w.flags &&& userBits = 0)
    (heq : translate v = ((lastCovering Window.lo Window.hi [w₁, w₂] v).map (windowLeaf P · v)).or
        (((lastSegment segments v).bind (segmentRegion pteFlags)).map (regionLeaf P · v))) :
    WalkResult translate [w₁, w₂] userBits P.largeFlags (fun prot => P.smallFlags (pteFlags prot))
      segments v := by
  constructor
  · intro w hw hlo hhi
    refine ⟨windowLeaf P w v, ?_, ?_, ?_, rfl, huser w hw⟩
    · rw [heq, lastWindow_of_mem hapart hw hlo hhi, map_some, some_or]
    · rw [windowLeaf, large_eq]
    · exact Nat.div_add_mod' v large
  · intro hout s hs
    obtain ⟨p, hp⟩ := lastSegment_phys hs
    refine ⟨p, hp, ?_⟩
    rw [heq, lastWindow_none hout, hs, map_none, none_or, bind_some,
      segmentRegion, hp, map_some, map_some, regionLeaf, small_eq]
  · intro hout hs
    rw [heq, lastWindow_none hout, hs]
    rfl

theorem foldl_pages {α : Type} {g : Tables ℕ → α → Tables ℕ}
    (hg : ∀ T c, (g T c).pages.length ≤ T.pages.length + n) (items : List α) (T : Tables ℕ) :
    (items.foldl g T).pages.length ≤ T.pages.length + n * items.length := by
  induction items generalizing T with
  | nil => simp
  | cons c rest ih =>
    have h₁ := hg T c
    have h₂ := ih (g T c)
    rw [foldl_cons, length_cons, Nat.mul_succ]
    omega

def segmentPages (s : Segment) : ℕ := (steps (segmentStart s) (segmentEnd s) pageSize).length

section

variable {map4k : Tables ℕ → ℕ → ℕ → ℕ → Tables ℕ}
  (h : ∀ T v p fl, (map4k T v p fl).pages.length ≤ T.pages.length + n)
variable (ramLo ramHi pteFlags)
include h

theorem mapSegmentPages_pages (T : Tables ℕ) (s : Segment) :
    (mapSegmentPages map4k ramLo ramHi pteFlags T s).pages.length ≤
      T.pages.length + n * segmentPages s := by
  rcases hp : segmentPhysBase s with _ | p
  · simp [mapSegmentPages, hp]
  simp only [mapSegmentPages, hp]
  split
  · omega
  · exact foldl_pages (fun T v => h T v _ _) _ T

theorem mapSegments_pages (segments : List Segment) (T : Tables ℕ) :
    (segments.foldl (mapSegmentPages map4k ramLo ramHi pteFlags) T).pages.length ≤
      T.pages.length + n * (segments.map segmentPages).sum := by
  induction segments generalizing T with
  | nil => simp
  | cons s rest ih =>
    have h₁ := mapSegmentPages_pages ramHi ramLo pteFlags h T s
    have h₂ := ih (mapSegmentPages map4k ramLo ramHi pteFlags T s)
    rw [foldl_cons, map_cons, sum_cons, Nat.mul_add]
    omega

end

theorem mapIdentity2m_pages {map2m : Tables ℕ → ℕ → ℕ → ℕ → Tables ℕ}
    (h : ∀ T v p fl, (map2m T v p fl).pages.length ≤ T.pages.length + n) (T : Tables ℕ)
    (lo hi fl : ℕ) :
    (mapIdentity2m map2m T lo hi fl).pages.length ≤ T.pages.length +
      n * ((alignUp hi (2 ^ 21) - alignDown lo (2 ^ 21) + (2 ^ 21 - 1)) / 2 ^ 21) := by
  have := foldl_pages (fun T c => h T c c fl)
    (steps (alignDown lo (2 ^ 21)) (alignUp hi (2 ^ 21)) (2 ^ 21)) T
  rwa [steps, length_range'] at this

theorem built_pages (B : Builder C m) {lo hi lo' hi' fl' windows : ℕ}
    (hwindows :
      (alignUp hi (2 ^ 21) - alignDown lo (2 ^ 21) + (2 ^ 21 - 1)) / 2 ^ 21 +
        (alignUp hi' (2 ^ 21) - alignDown lo' (2 ^ 21) + (2 ^ 21 - 1)) / 2 ^ 21 = windows)
    (segments : List Segment) :
    (segments.foldl (mapSegmentPages B.map4k ramLo ramHi pteFlags)
      (mapIdentity2m B.map2m (mapIdentity2m B.map2m (start C.format boxes.toSupply) lo hi fl)
        lo' hi' fl')).pages.length ≤
      1 + (m + 1) * windows + (m + 1) * (segments.map segmentPages).sum := by
  have hmap2m := fun T v p fl => (B.map2m_pages T v p fl).2
  have hfirst := mapIdentity2m_pages hmap2m (start C.format boxes.toSupply) lo hi fl
  have hsecond := mapIdentity2m_pages hmap2m
    (mapIdentity2m B.map2m (start C.format boxes.toSupply) lo hi fl) lo' hi' fl'
  have hroot : (start C.format boxes.toSupply).pages.length = 1 := rfl
  refine (mapSegments_pages _ _ _ (fun T v p fl => (B.map4k_pages T v p fl).2) segments _).trans ?_
  rw [← hwindows, Nat.mul_add]
  omega

theorem riscv_pages (boxes : BoxPages) (segments : List Segment) :
    (buildRiscvPageTable boxes segments).pages.length ≤
      1 + 3 * 1264 + 3 * (segments.map segmentPages).sum := by
  refine built_pages (sv39Builder boxes) ?_ segments
  decide +kernel

theorem riscv_walkResult (boxes : BoxPages)
    (hs : ∀ s ∈ segments, SegmentOk (2 ^ 39) 0x80000000 0x100000000 s) (hv : v < 2 ^ 39)
    (hheld : boxes.Held (buildRiscvPageTable boxes segments)) :
    WalkResult (riscvTranslate (buildRiscvPageTable boxes segments)) riscvWindows riscvPteU
      (· ||| riscvPteV) (fun prot => riscvSegmentPteFlags prot ||| riscvPteV) segments v := by
  rw [buildRiscvPageTable_eq] at hheld ⊢
  have hbound : RadixPaging.bound 2 ≤ 2 ^ 48 := by
    rw [riscv_bound]
    decide
  exact walkResult_of_eq (P := (sv39Builder boxes).paging) (.inr (by decide))
    (show ∀ w ∈ riscvWindows, (w.flags ||| riscvPteV) &&& riscvPteU = 0 by decide)
    (built_walk (sv39Builder boxes) (riscvWindows_ok boxes) (riscv_bound ▸ hs) hbound rfl
      riscvSegmentPteFlags_ok (riscv_bound ▸ hv) hheld)

/-- Boxes from the heap of the kernel, one after the other. -/
def heapBoxes : BoxPages where
  addr k := 0x81000000 + 4096 * k
  limit := 2 ^ 16
  distinct i j _ _ h := by omega
  nonzero k _ := by omega
  aligned k _ := by
    rw [show pageSize = 4096 from rfl]
    omega
  below k hk := by omega

end PageTableWalk
