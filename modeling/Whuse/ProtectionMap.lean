import Whuse.CallEffects

/-! The purpose of the mapping table: a partial map from addresses to protections. Every
call whose range does not pass the last address refines one update of this map, and a call
that fails leaves the table as it was. -/
namespace ProtectionMap

open Std (ExtTreeMap)
open MachineWord IntervalTable AddressSpace CallRuns MappingTable OwnedMapping Option
  CallEffects

abbrev ProtMap := ℕ → Option ℕ

def put (f : ProtMap) (start len prot : ℕ) : ProtMap :=
  fun a => if start ≤ a ∧ a < start + len then some prot else f a

def remove (f : ProtMap) (start len : ℕ) : ProtMap :=
  fun a => if start ≤ a ∧ a < start + len then none else f a

def protect (f : ProtMap) (start len prot : ℕ) : ProtMap :=
  fun a => if start ≤ a ∧ a < start + len then (f a).map fun _ => prot else f a

def protOf (m : Mappings) : ProtMap := fun a => (entryAt segmentExtent m a).map (·.area.prot)

variable {c : Call} {hal : HalMemory} {a : ℕ} {M : Machine} {o : KernelResult ℕ × Machine}

section Tables

variable {m n : Mappings} {S : AddressSpaceInner}

theorem protOf_eq_some (hm : TableWellFormed m) {p : ℕ} :
    protOf m a = some p ↔ ∃ s, SegmentAt m a s ∧ s.area.prot = p := by
  simp [protOf, hm.entryAt_iff]

theorem protOf_ne_none (hm : TableWellFormed m) : protOf m a ≠ none ↔ ∃ s, SegmentAt m a s := by
  rw [← Option.isSome_iff_ne_none, Option.isSome_iff_exists]
  constructor
  · rintro ⟨p, hp⟩
    obtain ⟨s, hs, _⟩ := (protOf_eq_some hm).mp hp
    exact ⟨s, hs⟩
  · rintro ⟨s, hs⟩
    exact ⟨_, (protOf_eq_some hm).mpr ⟨s, hs, rfl⟩⟩

theorem protOf_congr (hm : TableWellFormed m) (hn : TableWellFormed n) {b : ℕ}
    (h : ∀ p, (∃ s, SegmentAt m a s ∧ s.area.prot = p) ↔ ∃ s, SegmentAt n b s ∧ s.area.prot = p) :
    protOf m a = protOf n b := by
  apply Option.ext
  intro p
  rw [protOf_eq_some hm, protOf_eq_some hn]
  exact h p

theorem protOf_cut_outside {mid : Segment → List Segment} {start end_ : ℕ} (hm : TableWellFormed m)
    (hlt : start < end_) (hmid : MidInside mid start end_) (ha : ¬ (start ≤ a ∧ a < end_)) :
    protOf (rewrite segmentExtent (cutPieces mid start end_) m) a = protOf m a := by
  have hcut := cutPieces_cuts hlt hmid
  refine protOf_congr (rewrite_wellFormed hm hcut) hm fun p => ?_
  constructor
  · rintro ⟨t, ht, rfl⟩
    obtain ⟨s, ⟨k, hk, hc⟩, hts, hct⟩ := (entryAt_rewrite hm hcut a t).mp ht
    have hside := (cutPieces_at (hm.fits hk) hlt hmid hts hct).2
    rw [if_neg ha] at hside
    exact ⟨s, ⟨k, hk, hc⟩, by rw [hside, sidePiece_prot]⟩
  · rintro ⟨s, ⟨k, hk, hc⟩, rfl⟩
    exact ⟨_, (entryAt_rewrite hm hcut a _).mpr
      ⟨s, ⟨k, hk, hc⟩, cutPieces_outside mid (hm.fits hk) hc ha⟩, sidePiece_prot⟩

theorem protOf_unmapTable (hm : TableWellFormed m) {start len : ℕ} (hlen : 0 < len) :
    protOf (unmapTable m start len) = remove (protOf m) start len := by
  funext a
  unfold remove
  by_cases ha : start ≤ a ∧ a < start + len
  · rw [if_pos ha, protOf, (unmapTable_wellFormed hm hlen).entryAt_eq_none.mpr
      (unmapTable_inside hm ha.1 ha.2), Option.map_none]
  · rw [if_neg ha]
    exact protOf_cut_outside hm (by omega) (midInside_unmap _ _) ha

theorem protOf_mprotectTable (hm : TableWellFormed m) {addr len prot : ℕ} (hlen : 0 < len) :
    protOf (mprotectTable m addr len prot) = protect (protOf m) addr len prot := by
  have hlt : addr < addr + len := by omega
  have hcut := mprotectPieces_cuts prot hlt
  funext a
  unfold protect
  by_cases ha : addr ≤ a ∧ a < addr + len
  · rw [if_pos ha]
    apply Option.ext
    intro p
    rw [protOf_eq_some (mprotectTable_wellFormed hm hlen), Option.map_eq_some_iff]
    constructor
    · rintro ⟨t, ht, rfl⟩
      obtain ⟨s, ⟨k, hk, hc⟩, hts, hct⟩ := (entryAt_rewrite hm hcut a t).mp ht
      refine ⟨_, (protOf_eq_some hm).mpr ⟨s, ⟨k, hk, hc⟩, rfl⟩, ?_⟩
      have hmid := (cutPieces_at (hm.fits hk) hlt (midInside_mprotect prot hlt) hts hct).2
      rw [if_pos ha] at hmid
      rw [← List.singleton_inj.mp hmid]
      rfl
    · rintro ⟨q, hq, rfl⟩
      obtain ⟨s, ⟨k, hk, hc⟩, rfl⟩ := (protOf_eq_some hm).mp hq
      have hin : ¬ addr + len ≤ s.area.start ∧ ¬ s.area.start + s.area.len ≤ addr := by
        simp only [covers_iff] at hc; omega
      have harea := midSegment_extent prot hlt (hm.fits hk) hin.1 hin.2
      refine ⟨midSegment addr (addr + len) prot s, (entryAt_rewrite hm hcut a _).mpr
        ⟨s, ⟨k, hk, hc⟩, midSegment_mem (hm.fits hk) hin.1 hin.2, ?_⟩, by rw [harea]⟩
      simp only [covers_iff] at hc
      simp only [covers_iff, harea]
      omega
  · rw [if_neg ha]
    exact protOf_cut_outside hm hlt (midInside_mprotect prot hlt) ha

theorem protOf_placeSegment (hm : TableWellFormed m) {s : Segment}
    (hs : Fits segmentExtent usizeMax s) :
    protOf (placeSegment m s) = put (protOf m) s.area.start s.area.len s.area.prot := by
  have hwf := placeSegment_wellFormed hm hs
  have hpos : 0 < s.area.len := hs.1
  funext a
  unfold put
  by_cases ha : s.area.start ≤ a ∧ a < s.area.start + s.area.len
  · rw [if_pos ha]
    exact (protOf_eq_some hwf).mpr
      ⟨s, (segmentAt_placeSegment hm hs a s).mpr (.inl ⟨rfl, ha⟩), rfl⟩
  · rw [if_neg ha]
    have hkeep : protOf (unmapTable m s.area.start s.area.len) a = protOf m a := by
      rw [protOf_unmapTable hm hpos, remove, if_neg ha]
    rw [← hkeep, protOf, entryAt_placeSegment hm hs ha]
    rfl

theorem clonePrivate_wellFormed (hal : HalMemory) (heap : Heap) (hm : TableWellFormed S.mappings) :
    TableWellFormed (clonePrivate hal heap S).mappings :=
  map_wellFormed (fun _ _ => rfl) (fun _ _ => rfl) hm

theorem protOf_clonePrivate (hal : HalMemory) (heap : Heap) (hm : TableWellFormed S.mappings) :
    protOf (clonePrivate hal heap S).mappings = protOf S.mappings := by
  funext a
  refine protOf_congr (clonePrivate_wellFormed hal heap hm) hm fun p => ?_
  simp only [clonePrivate, SegmentAt, entryAt_map (E := segmentExtent)
      (f := fun start s => ⟨s.area, cloneStorage heap start s.storage⟩)
      (fun _ _ => rfl) (fun _ _ => rfl)]
  constructor
  · rintro ⟨t, ⟨k, s, hk, hc, rfl⟩, hp⟩
    exact ⟨s, ⟨k, hk, hc⟩, hp⟩
  · rintro ⟨s, ⟨k, hk, hc⟩, hp⟩
    exact ⟨_, ⟨k, s, hk, hc, rfl⟩, hp⟩

end Tables

/-- The update a successful call stands for; `answer` is what it returned. A break moves the
page boundary of the heap, in either direction. -/
def meaning (c : Call) (oldBreak answer : ℕ) (f : ProtMap) : ProtMap :=
  match c with
  | .mapAnonymous _ _ len prot => put f answer (pageUp len) prot
  | .mapAnonymousShared _ _ len prot => put f answer (pageUp len) prot
  | .mapAnonymousAt _ addr len prot => put f addr (pageUp len) prot
  | .mapAnonymousSharedAt _ addr len prot => put f addr (pageUp len) prot
  | .mapFixedBytes _ addr _ memLen prot => put f addr memLen prot
  | .mapFixedSharedBytes _ addr _ memLen prot => put f addr memLen prot
  | .mapSharedExisting addr data prot => put f addr (max data.inner.len 1) prot
  | .installHostRange addr len prot => put f addr len prot
  | .unmap addr len => remove f addr (pageUp len)
  | .mprotect addr len prot => protect f addr (pageUp len) prot
  | .brk _ _ =>
    if oldBreak < answer then
      put f (pageUp oldBreak) (pageUp answer - pageUp oldBreak) defaultProt
    else remove f (pageUp answer) (pageUp oldBreak - pageUp answer)
  | .clear => fun _ => none
  | .writeBytes _ _ => f
  | .reserveBase _ => f
  | .setBreak _ => f

/-- After a success the table stands for the update of the call; after a failure it is the
table before. -/
def Agrees (c : Call) (M : Machine) (o : KernelResult ℕ × Machine) : Prop :=
  match o.1 with
  | .ok answer => protOf o.2.space.mappings =
      meaning c M.space.programBreak answer (protOf M.space.mappings)
  | .error _ => o.2.space.mappings = M.space.mappings

theorem put_zero (f : ProtMap) (start prot : ℕ) : put f start 0 prot = f := by
  funext a
  simp only [put]
  rw [if_neg (by omega)]

theorem remove_zero (f : ProtMap) (start : ℕ) : remove f start 0 = f := by
  funext a
  simp only [remove]
  rw [if_neg (by omega)]

theorem meaning_put {oldBreak answer : ℕ} {area : MappingArea}
    (hc : (∃ heap, ownedHeap c = some heap) ∨ (∃ heap, sharedHeap c = some heap) ∨
      ∃ storage, existingStorage c = some storage) (harea : area = placedArea c oldBreak answer)
    (hpos : 0 < area.len) (f : ProtMap) :
    meaning c oldBreak answer f = put f area.start area.len area.prot := by
  subst harea
  cases c with
  | brk heap newBreak =>
    have hgrow : oldBreak < answer := by
      by_contra hno
      have := pageUp_mono (Nat.le_of_not_lt hno)
      simp only [placedArea] at hpos
      omega
    simp [meaning, if_pos hgrow, placedArea]
  | unmap | mprotect | clear | writeBytes | reserveBase | setBreak =>
    simp [ownedHeap, sharedHeap, existingStorage] at hc
  | _ => rfl

theorem effect_agrees (h : CallEffect hal c M o) (hM : SpaceOk M.space) : Agrees c M o := by
  have hm := hM.table
  cases h with
  | failed leaves => exact leaves.table
  | owned hheap harea hfits _ _ _ _ leaves =>
    simp only [Agrees, leaves.table]
    rw [meaning_put (.inl ⟨_, hheap⟩) harea hfits.1]
    exact protOf_placeSegment hm hfits
  | shared hheap harea hfits _ _ _ leaves =>
    simp only [Agrees, leaves.table]
    rw [meaning_put (.inr (.inl ⟨_, hheap⟩)) harea hfits.1]
    exact protOf_placeSegment hm hfits
  | existing hstorage harea hfits leaves =>
    simp only [Agrees, leaves.table]
    rw [meaning_put (.inr (.inr ⟨_, hstorage⟩)) harea hfits.1]
    exact protOf_placeSegment hm hfits
  | unmapped hrange hlen hb hbreak leaves =>
    simp only [Agrees, leaves.table, protOf_unmapTable hm hlen]
    cases c with
    | unmap addr len =>
      obtain ⟨rfl, rfl⟩ := Prod.mk.inj (some.inj hrange)
      rfl
    | brk heap newBreak =>
      rcases newBreak with _ | requested
      · cases hrange
      obtain ⟨rfl, rfl⟩ := Prod.mk.inj (some.inj hrange)
      simp [meaning, if_neg (hbreak _ _ rfl)]
    | _ => cases hrange
  | reprotected hc hlen hb leaves =>
    subst hc
    simp only [Agrees, leaves.table]
    exact protOf_mprotectTable hm (pageUp_pos hlen)
  | emptied hc leaves =>
    subst hc
    simp only [Agrees, leaves.table]
    rfl
  | kept hc hpages leaves =>
    subst hc
    simp [Agrees, leaves.table, meaning, hpages, put_zero, remove_zero]
  | adjusted hc _ leaves =>
    simp only [Agrees, leaves.table]
    rcases hc with ⟨next, rfl⟩ | ⟨b, rfl⟩ <;> rfl
  | wrote hc ho =>
    subst hc ho
    simp only [Agrees, withZero, writeBytes]
    cases (writeLoop hal M.space.mappings _ _ _ M.mem).1 <;> simp [Except.map, meaning]

theorem heapBase_fits : pageUp userHeapBase ≤ usizeMax := by decide

theorem effect_spaceOk (h : CallEffect hal c M o) (hM : SpaceOk M.space) : SpaceOk o.2.space := by
  have hm := hM.table
  have hold := hM.breakFits
  cases h with
  | failed leaves => exact ⟨leaves.table ▸ hm, leaves.programBreak ▸ hold⟩
  | owned hheap harea hfits _ _ _ _ leaves =>
    refine ⟨leaves.table ▸ placeSegment_wellFormed hm hfits, leaves.programBreak ▸ ?_⟩
    subst harea
    obtain ⟨hpos, hend⟩ := hfits
    cases c with
    | brk heap newBreak =>
      simp only [placedArea] at hpos hend
      simp only [breakAfter]
      omega
    | setBreak => cases hheap
    | _ => exact hold
  | shared _ _ hfits _ _ _ leaves | existing _ _ hfits leaves =>
    exact ⟨leaves.table ▸ placeSegment_wellFormed hm hfits, leaves.programBreak ▸ hold⟩
  | unmapped hrange hlen hb _ leaves =>
    refine ⟨leaves.table ▸ unmapTable_wellFormed hm hlen, leaves.programBreak ▸ ?_⟩
    cases c with
    | brk heap newBreak =>
      rcases newBreak with _ | requested
      · cases hrange
      obtain ⟨rfl, rfl⟩ := Prod.mk.inj (some.inj hrange)
      simp only [breakAfter]
      omega
    | setBreak => cases hrange
    | _ => exact hold
  | reprotected _ hlen _ leaves =>
    exact ⟨leaves.table ▸ mprotectTable_wellFormed hm (pageUp_pos hlen), leaves.programBreak ▸ hold⟩
  | emptied _ leaves =>
    exact ⟨leaves.table ▸ WellFormed.empty, leaves.programBreak ▸ heapBase_fits⟩
  | kept _ hpages leaves =>
    exact ⟨leaves.table ▸ hm, by rw [leaves.programBreak, hpages]; exact hold⟩
  | adjusted _ hfits leaves => exact ⟨leaves.table ▸ hm, leaves.programBreak ▸ hfits⟩
  | wrote hc ho => exact ho ▸ hM

/-- Runs in which no call's range wraps. -/
def NoWrapEvent (_ : World) : Event → Prop
  | .call _ c => NoWrap c
  | _ => True

theorem newUser_spaceOk (hal : HalMemory) : SpaceOk (newUser hal) :=
  ⟨WellFormed.empty, heapBase_fits⟩

theorem reachable_spaceOk {W : World} (h : Reachable hal NoWrapEvent W) :
    ∀ S ∈ W.spaces, SpaceOk S :=
  reachable_spaces (newUser_spaceOk hal)
    (fun heap _ hS => ⟨clonePrivate_wellFormed hal heap hS.table, hS.breakFits⟩)
    (fun W _ _ S _ _ hc _ hS hx => effect_spaceOk (exec_effect (M := W.machine S) hS hc hx) hS) h

/-- In every reachable world every table is well formed, a copy has the map of its original,
and every call is the abstract update of the map or leaves the table alone. -/
theorem mapping_table_correct {hal : HalMemory} {W : World} (h : Reachable hal NoWrapEvent W)
    {S : AddressSpaceInner} (hS : S ∈ W.spaces) :
    TableWellFormed S.mappings ∧
    (∀ heap, protOf (clonePrivate hal heap S).mappings = protOf S.mappings) ∧
    ∀ c o, NoWrap c → exec hal c (W.machine S) = some o → Agrees c (W.machine S) o := by
  have hok := reachable_spaceOk h S hS
  exact ⟨hok.table, fun heap => protOf_clonePrivate hal heap hok.table,
    fun c o hc hx => effect_agrees (exec_effect (M := W.machine S) hok hc hx) hok⟩

/-- Two pages are mapped and the first is unmapped again. -/
theorem mapping_table_correct_after_unmap :
    ∃ W S, Reachable board NoWrapEvent W ∧ S ∈ W.spaces ∧ protOf S.mappings 0x11000 = some 3 ∧
      TableWellFormed S.mappings ∧
      ∀ c o, NoWrap c → exec board c (W.machine S) = some o → Agrees c (W.machine S) o := by
  have hrun : firstSpace (fun S => protOf S.mappings 0x11000)
      [.newUser, .call 0 (.mapFixedBytes boardHeap 0x10000 [] 0x2000 3),
        .call 0 (.unmap 0x10000 0x1000)] = some (some 3) := by decide +kernel
  have hall : ∀ e ∈ [Event.newUser, .call 0 (.mapFixedBytes boardHeap 0x10000 [] 0x2000 3),
      .call 0 (.unmap 0x10000 0x1000)], ∀ V, NoWrapEvent V e := by
    simp [NoWrapEvent, NoWrap, usizeMax, pageUp, pageSize]
  obtain ⟨W, S, hW, hS, hp⟩ := firstSpace_reachable hall hrun
  exact ⟨W, S, hW, hS, hp, (mapping_table_correct hW hS).1, (mapping_table_correct hW hS).2.2⟩

end ProtectionMap
