import Whuse.CallRuns
import Whuse.IntervalTable

/-! The mapping table as a map from addresses to protections. The loops of `unmap` and
`mprotect` are rewriting passes over an interval table; each call then refines an update of
the abstract map, and every run keeps the table well formed. -/
namespace MappingTable

open Std (ExtTreeMap)
open MachineWord IntervalTable AddressSpace CallRuns List

def segmentExtent : Extent Segment := ⟨fun s => s.area.start, fun s => s.area.len⟩

@[simp] theorem segmentExtent_start (s : Segment) : segmentExtent.start s = s.area.start := rfl
@[simp] theorem segmentExtent_len (s : Segment) : segmentExtent.len s = s.area.len := rfl

variable {p s : Segment} {mid : Segment → List Segment} {a addr end_ len prot start : ℕ}

theorem covers_iff :
    Covers segmentExtent s a ↔ s.area.start ≤ a ∧ a < s.area.start + s.area.len := Iff.rfl

abbrev TableWellFormed (m : Mappings) : Prop := WellFormed segmentExtent usizeMax m

abbrev SegmentAt (m : Mappings) (a : ℕ) (s : Segment) : Prop := EntryAt segmentExtent m a s

theorem segEnd_of_fits (h : Fits segmentExtent usizeMax s) :
    wrappingAdd s.area.start s.area.len = s.area.start + s.area.len :=
  wrappingAdd_of_le h.2

/-- What a pass over `[start, end_)` leaves of a segment: the parts on either side, and
between them what `mid` makes of the part inside. -/
def cutPieces (mid : Segment → List Segment) (start end_ : ℕ) (s : Segment) : List Segment :=
  let segStart := s.area.start
  let segEnd := wrappingAdd segStart s.area.len
  if end_ ≤ segStart ∨ segEnd ≤ start then [s]
  else
    (if segStart < start then [sliceSegment s segStart (start - segStart) s.area.prot] else [])
      ++ mid s ++
      (if end_ < segEnd then [sliceSegment s end_ (segEnd - end_) s.area.prot] else [])

def unmapPieces : ℕ → ℕ → Segment → List Segment := cutPieces fun _ => []

def midSegment (addr end_ prot : ℕ) (s : Segment) : Segment :=
  let segEnd := wrappingAdd s.area.start s.area.len
  sliceSegment s (max s.area.start addr)
    (wrappingSub (min segEnd end_) (max s.area.start addr)) prot

def mprotectPieces (addr end_ prot : ℕ) : Segment → List Segment :=
  cutPieces (fun s => [midSegment addr end_ prot s]) addr end_

theorem unmapKey_fst (start end_ : ℕ) (st : Mappings × Bool) (key : ℕ) :
    (unmapKey start end_ st key).1 =
      rewriteKey segmentExtent (unmapPieces start end_) st.1 key := by
  unfold unmapKey rewriteKey
  rcases st.1[key]? with _ | s
  · rfl
  by_cases hd : end_ ≤ s.area.start ∨ wrappingAdd s.area.start s.area.len ≤ start
  · simp [hd, unmapPieces, cutPieces, putAll]
  · by_cases hl : s.area.start < start <;>
      by_cases hr : end_ < wrappingAdd s.area.start s.area.len <;>
        simp [hd, hl, hr, unmapPieces, cutPieces, putAll]

theorem unmapKey_foldl (start end_ : ℕ) (keys : List ℕ) (st : Mappings × Bool) :
    (keys.foldl (unmapKey start end_) st).1 =
      keys.foldl (rewriteKey segmentExtent (unmapPieces start end_)) st.1 := by
  induction keys generalizing st with
  | nil => rfl
  | cons k keys ih => rw [foldl_cons, ih, unmapKey_fst, foldl_cons]

theorem mprotectKey_eq (addr end_ prot : ℕ) :
    mprotectKey addr end_ prot = rewriteKey segmentExtent (mprotectPieces addr end_ prot) := by
  funext m key
  unfold mprotectKey rewriteKey
  rcases m[key]? with _ | s
  · rfl
  by_cases hd : end_ ≤ s.area.start ∨ wrappingAdd s.area.start s.area.len ≤ addr
  · simp [hd, mprotectPieces, cutPieces, putAll]
  · by_cases hl : s.area.start < addr <;>
      by_cases hr : end_ < wrappingAdd s.area.start s.area.len <;>
        simp [hd, hl, hr, mprotectPieces, cutPieces, putAll, midSegment]

def MidInside (mid : Segment → List Segment) (start end_ : ℕ) : Prop :=
  ∀ s p, Fits segmentExtent usizeMax s → ¬ (end_ ≤ s.area.start) →
    ¬ (s.area.start + s.area.len ≤ start) → p ∈ mid s →
    mid s = [p] ∧ p.area.start = max s.area.start start ∧
      p.area.start + p.area.len = min (s.area.start + s.area.len) end_

theorem mem_cutPieces (hs : Fits segmentExtent usizeMax s) : p ∈ cutPieces mid start end_ s ↔
    (p = s ∧ (end_ ≤ s.area.start ∨ s.area.start + s.area.len ≤ start)) ∨
    (¬ end_ ≤ s.area.start ∧ ¬ s.area.start + s.area.len ≤ start ∧ ((s.area.start < start ∧
          p = sliceSegment s s.area.start (start - s.area.start) s.area.prot) ∨
        p ∈ mid s ∨
        (end_ < s.area.start + s.area.len ∧
          p = sliceSegment s end_ (s.area.start + s.area.len - end_) s.area.prot))) := by
  simp only [cutPieces, segEnd_of_fits hs]
  by_cases hd : end_ ≤ s.area.start ∨ s.area.start + s.area.len ≤ start
  · rw [if_pos hd, mem_singleton]
    constructor
    · exact fun h => .inl ⟨h, hd⟩
    · rintro (⟨h, -⟩ | ⟨hleft, hright, -⟩)
      · exact h
      · exact absurd hd (not_or.mpr ⟨hleft, hright⟩)
  · obtain ⟨hleft, hright⟩ := not_or.mp hd
    rw [if_neg hd]
    simp [hleft, hright]

/-- The piece at an address outside the range. -/
def sidePiece (start end_ a : ℕ) (s : Segment) : Segment :=
  if end_ ≤ s.area.start ∨ s.area.start + s.area.len ≤ start then s
  else if a < start then sliceSegment s s.area.start (start - s.area.start) s.area.prot
  else sliceSegment s end_ (s.area.start + s.area.len - end_) s.area.prot

theorem sidePiece_prot : (sidePiece start end_ a s).area.prot = s.area.prot := by
  unfold sidePiece
  split_ifs <;> rfl

theorem cutPieces_at (hs : Fits segmentExtent usizeMax s) (hlt : start < end_)
    (hmid : MidInside mid start end_) (hp : p ∈ cutPieces mid start end_ s) (hc : Covers segmentExtent p a) :
    Covers segmentExtent s a ∧
      if start ≤ a ∧ a < end_ then mid s = [p] else p = sidePiece start end_ a s := by
  unfold sidePiece
  rcases (mem_cutPieces hs).mp hp with ⟨rfl, hd⟩ | ⟨h1, h2, ⟨_, rfl⟩ | hm | ⟨_, rfl⟩⟩
  · simp only [covers_iff] at hc ⊢
    rw [if_neg (by omega), if_pos hd]
    exact ⟨hc, rfl⟩
  · simp only [covers_iff, sliceSegment] at hc ⊢
    rw [if_neg (by omega), if_neg (by omega), if_pos (by omega)]
    exact ⟨by omega, rfl⟩
  · obtain ⟨hone, hstart, hend⟩ := hmid s p hs h1 h2 hm
    simp only [covers_iff] at hc ⊢
    rw [if_pos (by omega)]
    exact ⟨by omega, hone⟩
  · simp only [covers_iff, sliceSegment] at hc ⊢
    rw [if_neg (by omega), if_neg (by omega), if_neg (by omega)]
    exact ⟨by omega, rfl⟩

theorem cutPieces_cuts (hlt : start < end_) (hmid : MidInside mid start end_) :
    Cuts segmentExtent usizeMax (cutPieces mid start end_) := by
  constructor
  · intro s p hs hp
    rcases (mem_cutPieces hs).mp hp with ⟨rfl, _⟩ | ⟨h1, h2, ⟨_, rfl⟩ | hm | ⟨_, rfl⟩⟩
    · exact hs.1
    · simp [sliceSegment]; omega
    · obtain ⟨_, hstart, hend⟩ := hmid s p hs h1 h2 hm
      have := hs.1
      simp only [segmentExtent_len] at *
      omega
    · simp [sliceSegment]; omega
  · intro s p a hs hp hc
    exact (cutPieces_at hs hlt hmid hp hc).1
  · intro s p q a hs hp hq hcp hcq
    have hpa := (cutPieces_at hs hlt hmid hp hcp).2
    have hqa := (cutPieces_at hs hlt hmid hq hcq).2
    split at hpa
    · next ha =>
      rw [if_pos ha] at hqa
      exact singleton_inj.mp (hpa.symm.trans hqa)
    · next ha =>
      rw [if_neg ha] at hqa
      exact hpa.trans hqa.symm

/-- `p` is a slice of `s` with the bounds of `s` or of the range. -/
structure SliceOf (s : Segment) (start end_ : ℕ) (p : Segment) : Prop where
  slice : p = sliceSegment s p.area.start p.area.len p.area.prot
  pos : 0 < p.area.len
  left : s.area.start ≤ p.area.start
  right : p.area.start + p.area.len ≤ s.area.start + s.area.len
  leftEdge : p.area.start = s.area.start ∨ p.area.start = end_ ∨ p.area.start = start
  rightEdge : p.area.start + p.area.len = s.area.start + s.area.len ∨
    p.area.start + p.area.len = start ∨ p.area.start + p.area.len = end_

/-- A piece is the whole segment or a slice that keeps the protection, or comes from `mid`. -/
theorem cutPieces_slice (hs : Fits segmentExtent usizeMax s) (hlt : start < end_)
    (hmid : MidInside mid start end_)
    (hslice : ∀ p ∈ mid s, p = sliceSegment s p.area.start p.area.len p.area.prot)
    (hp : p ∈ cutPieces mid start end_ s) :
    p = s ∨ (SliceOf s start end_ p ∧
      ((p.area.prot = s.area.prot ∧ (p.area.start = s.area.start ∨ p.area.start = end_)) ∨
        p ∈ mid s)) := by
  have hpos : 0 < s.area.len := hs.1
  rcases (mem_cutPieces hs).mp hp with ⟨rfl, _⟩ | ⟨h1, h2, ⟨hlt', rfl⟩ | hm | ⟨hlt', rfl⟩⟩
  · exact .inl rfl
  · refine .inr ⟨⟨rfl, ?_, ?_, ?_, .inl rfl, .inr (.inl ?_)⟩, .inl ⟨rfl, .inl rfl⟩⟩ <;>
      simp only [sliceSegment] <;> omega
  · obtain ⟨_, hstart, hend⟩ := hmid s p hs h1 h2 hm
    refine .inr ⟨⟨hslice p hm, ?_, ?_, ?_, ?_, ?_⟩, .inr hm⟩ <;> omega
  · refine .inr ⟨⟨rfl, ?_, ?_, ?_, .inr (.inl rfl), .inl ?_⟩,
      .inl ⟨rfl, .inr rfl⟩⟩ <;> simp only [sliceSegment] <;> omega

theorem cutPieces_outside (mid : Segment → List Segment) (hs : Fits segmentExtent usizeMax s)
    (hc : Covers segmentExtent s a) (ha : ¬ (start ≤ a ∧ a < end_)) :
    sidePiece start end_ a s ∈ cutPieces mid start end_ s ∧
      Covers segmentExtent (sidePiece start end_ a s) a := by
  rw [mem_cutPieces hs]
  unfold sidePiece
  rw [covers_iff] at hc
  by_cases hd : end_ ≤ s.area.start ∨ s.area.start + s.area.len ≤ start
  · rw [if_pos hd]
    exact ⟨.inl ⟨rfl, hd⟩, hc⟩
  obtain ⟨hleft, hright⟩ := not_or.mp hd
  rw [if_neg hd]
  by_cases hl : a < start
  · rw [if_pos hl]
    refine ⟨.inr ⟨hleft, hright, .inl ⟨by omega, rfl⟩⟩, ?_⟩
    simp only [covers_iff, sliceSegment]; omega
  · rw [if_neg hl]
    refine ⟨.inr ⟨hleft, hright, .inr (.inr ⟨by omega, rfl⟩)⟩, ?_⟩
    simp only [covers_iff, sliceSegment]; omega

theorem midInside_unmap (start end_ : ℕ) : MidInside (fun _ => []) start end_ :=
  fun _ _ _ _ _ hp => by cases hp

theorem unmapPieces_cuts (hlt : start < end_) :
    Cuts segmentExtent usizeMax (unmapPieces start end_) :=
  cutPieces_cuts hlt (midInside_unmap start end_)

theorem unmapPieces_slice (hs : Fits segmentExtent usizeMax s) (hlt : start < end_)
    (hp : p ∈ unmapPieces start end_ s) :
    p = s ∨ (SliceOf s start end_ p ∧ p.area.prot = s.area.prot ∧
      (p.area.start = s.area.start ∨ p.area.start = end_)) := by
  rcases cutPieces_slice hs hlt (midInside_unmap start end_) (fun _ h => by cases h) hp with
    rfl | ⟨hsl, h | h⟩
  · exact .inl rfl
  · exact .inr ⟨hsl, h⟩
  · cases h

theorem midSegment_extent (prot : ℕ) (hlt : addr < end_) (hs : Fits segmentExtent usizeMax s)
    (h1 : ¬ end_ ≤ s.area.start) (h2 : ¬ s.area.start + s.area.len ≤ addr) :
    (midSegment addr end_ prot s).area = ⟨max s.area.start addr,
        min (s.area.start + s.area.len) end_ - max s.area.start addr, prot⟩ := by
  have hb : s.area.start + s.area.len ≤ usizeMax := hs.2
  simp only [midSegment, sliceSegment, segEnd_of_fits hs]
  rw [wrappingSub_of_le (by omega) (by omega)]

theorem midSegment_mem (hs : Fits segmentExtent usizeMax s) (h1 : ¬ end_ ≤ s.area.start)
    (h2 : ¬ s.area.start + s.area.len ≤ addr) :
    midSegment addr end_ prot s ∈ mprotectPieces addr end_ prot s :=
  (mem_cutPieces hs).mpr (.inr ⟨h1, h2, .inr (.inl mem_cons_self)⟩)

theorem midInside_mprotect (prot : ℕ) (hlt : addr < end_) :
    MidInside (fun s => [midSegment addr end_ prot s]) addr end_ := by
  intro s p hs h1 h2 hp
  obtain rfl := mem_singleton.mp hp
  refine ⟨rfl, ?_, ?_⟩ <;> rw [midSegment_extent prot hlt hs h1 h2]
  simp only
  omega

theorem mprotectPieces_cuts (prot : ℕ) (hlt : addr < end_) :
    Cuts segmentExtent usizeMax (mprotectPieces addr end_ prot) :=
  cutPieces_cuts hlt (midInside_mprotect prot hlt)

theorem mprotectPieces_slice (hs : Fits segmentExtent usizeMax s) (hlt : addr < end_)
    (hp : p ∈ mprotectPieces addr end_ prot s) :
    p = s ∨ (SliceOf s addr end_ p ∧ (p.area.prot = s.area.prot ∨ p.area.prot = prot)) := by
  have hslice : ∀ p ∈ [midSegment addr end_ prot s],
      p = sliceSegment s p.area.start p.area.len p.area.prot := by
    intro p hm
    obtain rfl := mem_singleton.mp hm
    rfl
  rcases cutPieces_slice hs hlt (midInside_mprotect prot hlt) hslice hp with
    rfl | ⟨hsl, ⟨h, _⟩ | h⟩
  · exact .inl rfl
  · exact .inr ⟨hsl, .inl h⟩
  · exact .inr ⟨hsl, .inr (by rw [mem_singleton.mp h]; rfl)⟩

def unmapTable (m : Mappings) (start len : ℕ) : Mappings :=
  rewrite segmentExtent (unmapPieces start (start + len)) m

def mprotectTable (m : Mappings) (addr len prot : ℕ) : Mappings :=
  rewrite segmentExtent (mprotectPieces addr (addr + len) prot) m

def placeSegment (m : Mappings) (s : Segment) : Mappings :=
  (unmapTable m s.area.start s.area.len).insert s.area.start s

theorem unmapRangeInner_ok (inner : AddressSpaceInner) (hlen : 0 < len)
    (hb : start + len ≤ usizeMax) :
    ∃ d, unmapRangeInner inner start len =
      (.ok (), { inner with mappings := unmapTable inner.mappings start len, dirty := d }) := by
  have hne : len ≠ 0 := by omega
  refine ⟨(inner.mappings.keys.foldl (unmapKey start (start + len)) (inner.mappings, false)).2
    || inner.dirty, ?_⟩
  simp only [unmapRangeInner, hne, checkedAdd_of_le hb, unmapKey_foldl]
  rfl

section

variable {α : Type} {f : AddressSpaceInner → α}
  (hf : ∀ inner m d, f { inner with mappings := m, dirty := d } = f inner)
  (inner : AddressSpaceInner)
include hf

theorem unmapRangeInner_keeps (start len : ℕ) : f (unmapRangeInner inner start len).2 = f inner := by
  rw [unmapRangeInner]
  split
  · rfl
  · split
    · rfl
    · exact hf inner _ _

theorem insertSegment_keeps (segment : Segment) : f (insertSegment inner segment).2 = f inner := by
  have hcut := unmapRangeInner_keeps hf inner segment.area.start segment.area.len
  rw [insertSegment]
  by_cases hover : overlaps inner.mappings segment.area.start segment.area.len = true
  · rw [if_pos hover]
    rcases hres : unmapRangeInner inner segment.area.start segment.area.len with ⟨e | ⟨⟩, space⟩
    all_goals rw [hres] at hcut
    · exact hcut
    · exact (hf space _ _).trans hcut
  · rw [if_neg hover]
    exact hf inner _ _

end

theorem unmap_ok (M : Machine) (hlen : 0 < len) (hb : addr + pageUp len ≤ usizeMax) :
    ∃ d, unmap addr len M = (.ok (), { M with space := { M.space with
      mappings := unmapTable M.space.mappings addr (pageUp len), dirty := d } }) := by
  obtain ⟨d, hd⟩ := unmapRangeInner_ok M.space (pageUp_pos hlen) hb
  refine ⟨d, ?_⟩
  unfold unmap
  rw [if_neg (by omega), alignUp_page (by omega), hd]

theorem mprotect_ok (M : Machine) (prot : ℕ) (hlen : 0 < len) (hb : addr + pageUp len ≤ usizeMax) :
    mprotect addr len prot M = (.ok (), { M with space := { M.space with
      mappings := mprotectTable M.space.mappings addr (pageUp len) prot, dirty := true } }) := by
  unfold mprotect
  rw [if_neg (by omega), alignUp_page (by omega), checkedAdd_of_le hb]
  simp only [mprotectKey_eq]
  rfl

section Effects

variable {m : Mappings}

theorem entry_of_mem (hm : TableWellFormed m) {k : ℕ} (h : (k, s) ∈ m.toList) :
    m[k]? = some s ∧ s.area.start = k ∧ wrappingAdd k s.area.len = s.area.start + s.area.len := by
  have hk := ExtTreeMap.mem_toList_iff_getElem?_eq_some.mp h
  have hstart : s.area.start = k := hm.key k s hk
  subst hstart
  exact ⟨hk, rfl, segEnd_of_fits (hm.fits hk)⟩

theorem overlaps_eq_false_iff (hm : TableWellFormed m) :
    overlaps m start len = false ↔ ∀ (k : ℕ) (s : Segment), m[k]? = some s →
      ¬ (start < s.area.start + s.area.len ∧ s.area.start < saturatingAdd start len) := by
  simp only [overlaps, List.any_eq_false, decide_eq_true_eq]
  constructor
  · intro h k s hk
    have hmem := ExtTreeMap.mem_toList_iff_getElem?_eq_some.mpr hk
    obtain ⟨-, rfl, hend⟩ := entry_of_mem hm hmem
    rw [← hend]
    exact h _ hmem
  · rintro h ⟨k, s⟩ hmem
    obtain ⟨hk, rfl, hend⟩ := entry_of_mem hm hmem
    rw [hend]
    exact h _ s hk

/-- Where nothing overlaps, the unmapping pass puts every segment back. -/
theorem unmapTable_of_free (hm : TableWellFormed m) (hlen : 0 < len) (hb : start + len ≤ usizeMax)
    (hfree : overlaps m start len = false) : unmapTable m start len = m := by
  have hnone : ∀ (k : ℕ) (s : Segment), m[k]? = some s →
      unmapPieces start (start + len) s = [s] := by
    intro k s hk
    have hno := (overlaps_eq_false_iff hm).mp hfree k s hk
    rw [saturatingAdd_of_le hb] at hno
    simp only [unmapPieces, cutPieces, segEnd_of_fits (hm.fits hk)]
    rw [if_pos (by omega)]
  apply ExtTreeMap.ext_getElem?
  intro k
  apply Option.ext
  intro t
  rw [unmapTable, rewrite_get hm (unmapPieces_cuts (by omega))]
  constructor
  · rintro ⟨l, s, hs, ht, he⟩
    rw [hnone l s hs] at ht
    obtain rfl := mem_singleton.mp ht
    rw [← he, segmentExtent_start, show t.area.start = l from hm.key l t hs]
    exact hs
  · intro ht
    exact ⟨k, t, ht, by rw [hnone k t ht]; exact mem_singleton_self t, hm.key k t ht⟩

theorem insertSegment_ok (inner : AddressSpaceInner) (hm : TableWellFormed inner.mappings)
    (hs : Fits segmentExtent usizeMax s) :
    insertSegment inner s =
      (.ok (), { inner with mappings := placeSegment inner.mappings s, dirty := true }) := by
  have hpos : 0 < s.area.len := hs.1
  have hb : s.area.start + s.area.len ≤ usizeMax := hs.2
  unfold insertSegment placeSegment
  cases ho : overlaps inner.mappings s.area.start s.area.len with
  | true =>
    obtain ⟨d, hd⟩ := unmapRangeInner_ok inner hpos hb
    simp [hd]
  | false => simp [unmapTable_of_free hm hpos hb ho]

section

variable (hm : TableWellFormed m)
include hm

theorem unmapTable_wellFormed (hlen : 0 < len) : TableWellFormed (unmapTable m start len) :=
  rewrite_wellFormed hm (unmapPieces_cuts (by omega))

theorem mprotectTable_wellFormed (hlen : 0 < len) :
    TableWellFormed (mprotectTable m addr len prot) :=
  rewrite_wellFormed hm (mprotectPieces_cuts prot (by omega))

theorem unmapTable_inside (ha : start ≤ a) (hb : a < start + len)
    (t : Segment) : ¬ SegmentAt (unmapTable m start len) a t := by
  intro h
  obtain ⟨s, ⟨k, hk, -⟩, ht, hct⟩ := (entryAt_rewrite hm (unmapPieces_cuts (by omega)) a t).mp h
  have hmid := (cutPieces_at (hm.fits hk) (by omega) (midInside_unmap _ _) ht hct).2
  rw [if_pos ⟨ha, hb⟩] at hmid
  cases hmid

theorem placeSegment_free (a : ℕ) (hc : Covers segmentExtent s a)
    (t : Segment) : ¬ SegmentAt (unmapTable m s.area.start s.area.len) a t :=
  unmapTable_inside hm hc.1 hc.2 t

theorem placeSegment_wellFormed (hs : Fits segmentExtent usizeMax s) :
    TableWellFormed (placeSegment m s) :=
  insert_wellFormed (unmapTable_wellFormed hm hs.1) hs.1 hs.2 (placeSegment_free hm)

theorem segmentAt_placeSegment (hs : Fits segmentExtent usizeMax s) (a : ℕ)
    (t : Segment) :
    SegmentAt (placeSegment m s) a t ↔ (t = s ∧ Covers segmentExtent s a) ∨
        SegmentAt (unmapTable m s.area.start s.area.len) a t :=
  entryAt_insert (unmapTable_wellFormed hm hs.1) hs.1 (placeSegment_free hm) a t

theorem entryAt_placeSegment (hs : Fits segmentExtent usizeMax s)
    (ha : ¬ Covers segmentExtent s a) :
    entryAt segmentExtent (placeSegment m s) a =
      entryAt segmentExtent (unmapTable m s.area.start s.area.len) a := by
  have hpos : 0 < s.area.len := hs.1
  apply Option.ext
  intro t
  rw [(placeSegment_wellFormed hm hs).entryAt_iff, (unmapTable_wellFormed hm hpos).entryAt_iff]
  exact (segmentAt_placeSegment hm hs a t).trans (or_iff_right fun h => ha h.2)

end

end Effects

end MappingTable
