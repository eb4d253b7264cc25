import Mathlib.Data.List.Perm.Basic
import Whuse.ExitIsolation
import Whuse.LinkedWalk

/-! The robust list of a thread: what an exit finds on it, and what it leaves in memory. -/
namespace RobustLists

open List Option
open MachineWord AddressSpace ByteFields ElfLoader ProcessTable UserMemory ExitIsolation LinkedWalk

variable {bytes : List UInt8} {mem : Memory} {cursor n : ℕ}

section Words

variable (hal : HalMemory) {m : Mappings}

theorem rangeLocs_zero (fuel cursor : ℕ) : rangeLocs hal m fuel cursor 0 = [] := by
  induction fuel generalizing cursor with
  | zero => rfl
  | succ fuel ih =>
    unfold rangeLocs
    split
    · rfl
    simp only [Nat.min_zero]
    split
    · rfl
    · exact ih _

/-- What is read lies at the locations a write would fill; whether it can be read does not depend
on the bytes. -/
theorem readLoop_map (fuel : ℕ) (mem mem' : Memory) (out out' : List UInt8) :
    readLoop hal m mem' fuel cursor n out' = (readLoop hal m mem fuel cursor n out).map fun _ =>
      out' ++ (rangeLocs hal m fuel cursor n).map mem' := by
  induction fuel generalizing cursor n out out' with
  | zero =>
    cases n with
    | zero => simp [readLoop, rangeLocs, Except.map]
    | succ n => rfl
  | succ fuel ih =>
    rcases n with _ | n
    · simp [readLoop, rangeLocs_zero, Except.map]
    simp only [readLoop]
    unfold rangeLocs
    rcases hf : findSegment m cursor 1 with e | found
    · rfl
    obtain ⟨s, offset⟩ := found
    simp only
    split
    · rfl
    rcases hadd : checkedAdd cursor (min (s.area.len - offset) (n + 1)) with _ | next
    · rfl
    simp only [map_append, List.map_map, ← append_assoc]
    exact ih _ _

theorem readLoop_anew (fuel : ℕ) {out : List UInt8}
    (h : readLoop hal m mem fuel cursor n out = .ok bytes) (mem' : Memory) (out' : List UInt8) :
    readLoop hal m mem' fuel cursor n out' =
      .ok (out' ++ (rangeLocs hal m fuel cursor n).map mem') := by
  rw [readLoop_map hal fuel mem mem' out, h]
  rfl

theorem writeLoop_anew (fuel : ℕ) (h : (writeLoop hal m fuel cursor bytes mem).1 = .ok ())
    (mem' : Memory) {bytes' : List UInt8} (hlen : bytes'.length = bytes.length) :
    (writeLoop hal m fuel cursor bytes' mem').1 = .ok () := by
  induction fuel generalizing cursor bytes bytes' mem mem' with
  | zero =>
    cases bytes with
    | nil =>
      rw [length_eq_zero_iff.mp hlen]
      exact h
    | cons b bytes => cases h
  | succ fuel ih =>
    rcases bytes with _ | ⟨b, bytes⟩
    · rw [length_eq_zero_iff.mp hlen]
      exact h
    obtain ⟨b', rest, rfl⟩ := exists_cons_of_length_eq_add_one hlen
    simp only [length_cons] at hlen
    simp only [writeLoop] at h ⊢
    rw [hlen]
    split at h
    · cases h
    split at h
    · cases h
    next hhost =>
    rw [if_neg hhost]
    split at h
    · cases h
    · exact ih h _ (by simp [hlen])

theorem writeLoop_goes {fuel : ℕ} {b : UInt8}
    (h : (writeLoop hal m (fuel + 1) cursor (b :: bytes) mem).1 = .ok ()) :
    ∃ start next n, n ≤ (b :: bytes).length ∧
      writeLoop hal m (fuel + 1) cursor (b :: bytes) mem = writeLoop hal m fuel next
        ((b :: bytes).drop n) (copyBytes mem start ((b :: bytes).take n)) ∧
      rangeLocs hal m (fuel + 1) cursor (b :: bytes).length = (List.range n).map (start + ·) ++
          rangeLocs hal m fuel next ((b :: bytes).drop n).length := by
  simp only [writeLoop] at h ⊢
  split at h
  · cases h
  next s offset hf =>
  split at h
  · cases h
  next hhost =>
  split at h
  · cases h
  next next hadd =>
  refine ⟨dataPtr hal s + offset, next, min (s.area.len - offset) (bytes.length + 1),
    Nat.min_le_right _ _, ?_, ?_⟩
  · rw [if_neg hhost]
  · rw [rangeLocs, hf]
    simp [hadd]

theorem copyBytes_take (mem : Memory) (start : ℕ) {i : ℕ} (hn : n ≤ bytes.length) (hi : i < n) :
    copyBytes mem start (bytes.take n) (start + i) = bytes[i] := by
  rw [copyBytes, if_pos (Nat.le_add_right _ _), Nat.add_sub_cancel_left, getElem?_take_of_lt hi,
    getElem?_eq_getElem, Option.getD_some]

/-- After a write the locations hold the bytes, if no two of them are the same. -/
theorem writeLoop_fills (fuel : ℕ) (h : (writeLoop hal m fuel cursor bytes mem).1 = .ok ())
    (hdistinct : (rangeLocs hal m fuel cursor bytes.length).Nodup) :
    (rangeLocs hal m fuel cursor bytes.length).map (writeLoop hal m fuel cursor bytes mem).2 =
      bytes := by
  induction fuel generalizing cursor bytes mem with
  | zero =>
    cases bytes with
    | nil => rfl
    | cons b bytes => cases h
  | succ fuel ih =>
    rcases bytes with _ | ⟨b, bytes⟩
    · simp [rangeLocs_zero]
    obtain ⟨start, next, n, hn, hloop, hlocs⟩ := writeLoop_goes hal h
    rw [hloop] at h ⊢
    rw [hlocs] at hdistinct ⊢
    obtain ⟨-, hrest, hapart⟩ := nodup_append.mp hdistinct
    rw [map_append, ih h hrest]
    refine Eq.trans ?_ (take_append_drop n (b :: bytes))
    congr 1
    -- the bytes of the first part are not written again
    rw [List.map_map]
    apply ext_getElem
    · rw [length_map, length_range, length_take, Nat.min_eq_left hn]
    · intro i hi hi'
      rw [length_map, length_range] at hi
      rw [getElem_map, getElem_range, Function.comp_apply, getElem_take]
      have hout : start + i ∉ rangeLocs hal m fuel next ((b :: bytes).drop n).length := by
        intro hmem
        exact hapart _ (List.mem_map.mpr ⟨i, mem_range.mpr hi, rfl⟩) _ hmem rfl
      rw [writeLoop_outside hal fuel hout, copyBytes_take mem start hn hi]

theorem writeLoop_same (fuel : ℕ) {c : UInt8}
    (h : (writeLoop hal m fuel cursor bytes mem).1 = .ok ()) (hsame : ∀ b ∈ bytes, b = c) :
    ∀ x ∈ rangeLocs hal m fuel cursor bytes.length,
      (writeLoop hal m fuel cursor bytes mem).2 x = c := by
  induction fuel generalizing cursor bytes mem with
  | zero =>
    intro x hx
    cases hx
  | succ fuel ih =>
    intro x hx
    rcases bytes with _ | ⟨b, bytes⟩
    · rw [length_nil, rangeLocs_zero] at hx
      cases hx
    obtain ⟨start, next, n, hn, hloop, hlocs⟩ := writeLoop_goes hal h
    rw [hloop] at h ⊢
    rw [hlocs] at hx
    by_cases hlater : x ∈ rangeLocs hal m fuel next ((b :: bytes).drop n).length
    · exact ih h (fun d hd => hsame d (mem_of_mem_drop hd)) x hlater
    · obtain ⟨i, hi, rfl⟩ := List.mem_map.mp ((mem_append.mp hx).resolve_right hlater)
      rw [writeLoop_outside hal fuel hlater, copyBytes_take mem start hn (mem_range.mp hi)]
      exact hsame _ (getElem_mem _)

end Words

section Lists

variable (hal : HalMemory)

def wordOf (a : ℕ) (M : Machine) : Option ℕ :=
  (readLoop hal M.space.mappings M.mem 4 a 4 []).toOption.map fromLeBytes

def pointerOf (a : ℕ) (M : Machine) : Option ℕ :=
  (readLoop hal M.space.mappings M.mem 8 a 8 []).toOption.map fromLeBytes

/-- The bytes of a pointer in the list. -/
def pointerLocs (m : Mappings) (a : ℕ) : List ℕ := rangeLocs hal m 8 a 8

def signed (n : ℕ) : ℤ := if (n : ℤ) < 2 ^ 63 then n else n - 2 ^ 64

structure Anchor where
  head : ℕ
  first : ℕ
  offset : ℤ
  pending : ℕ

def anchor (p : Process) (M : Machine) : Option Anchor :=
  match p.robustList with
  | none => none
  | some (head, len) =>
    if len < 24 then none
    else
      match pointerOf hal head M, pointerOf hal (wrappingAdd head 8) M with
      | some first, some offset =>
        some ⟨head, first, signed offset, (pointerOf hal (wrappingAdd head 16) M).getD 0⟩
      | _, _ => none

/-- Zero and the head end the list. -/
def Ends (c : Anchor) (node : ℕ) : Prop := node = 0 ∨ node = c.head

instance (c : Anchor) : DecidablePred (Ends c) :=
  fun node => inferInstanceAs (Decidable (node = 0 ∨ node = c.head))

def Linked (c : Anchor) (M : Machine) (node : ℕ) : Prop :=
  OnList (fun n => pointerOf hal n M) (Ends c) c.first node

def Listed (p : Process) (M : Machine) (a : ℕ) : Prop :=
  ∃ c, anchor hal p M = some c ∧ ∃ node, (Linked hal c M node ∨ node = c.pending ∧ ¬ Ends c node) ∧
      robustFutexAddr node c.offset = some a

def Owned (tid a : ℕ) (M : Machine) : Prop :=
  ∃ w, wordOf hal a M = some w ∧ w &&& futexTidMask = tid &&& futexTidMask

def Writable (a : ℕ) (M : Machine) : Prop := (writeBytes hal a (leBytes 4 0) M).1 = .ok ()

def ownerDied (w : ℕ) : ℕ := (w &&& futexWaitersBit) ||| futexOwnerDied

/-- The list is not longer than the scan, the kernel has memory to read it, and the words the
thread owns can be written and overlap neither each other nor the list. -/
structure Orderly (heap : Heap) (p : Process) (M : Machine) : Prop where
  word : heap.tryReserve 4 = true
  pointer : heap.tryReserve 8 = true
  short : ∀ c, anchor hal p M = some c →
    ∃ ns : List ℕ, ns.length ≤ robustListMaxScan ∧ ∀ node, Linked hal c M node → node ∈ ns
  writable : ∀ a, Listed hal p M a → Owned hal p.tid a M →
    Writable hal a M ∧ (wordLocs hal M.space.mappings a).Nodup
  words : ∀ a b, Listed hal p M a → Owned hal p.tid a M → Listed hal p M b → b ≠ a →
    (wordLocs hal M.space.mappings a).Disjoint (wordLocs hal M.space.mappings b)
  links : ∀ a c node, Listed hal p M a → Owned hal p.tid a M → anchor hal p M = some c →
    Linked hal c M node →
      (wordLocs hal M.space.mappings a).Disjoint (pointerLocs hal M.space.mappings node)
  child : ∀ a b, Listed hal p M a → Owned hal p.tid a M → p.clearChildTid = some b →
    (wordLocs hal M.space.mappings a).Disjoint (wordLocs hal M.space.mappings b)

/-- The words that the thread owns can be written and do not overlap. -/
structure Separate (heap : Heap) (tid : ℕ) (S : ℕ → Prop) (M : Machine) : Prop where
  word : heap.tryReserve 4 = true
  writable : ∀ a, S a → Owned hal tid a M →
    Writable hal a M ∧ (wordLocs hal M.space.mappings a).Nodup
  words : ∀ a b, S a → Owned hal tid a M → S b → b ≠ a →
    (wordLocs hal M.space.mappings a).Disjoint (wordLocs hal M.space.mappings b)

theorem Orderly.separate {hal : HalMemory} {heap : Heap} {p : Process} {M : Machine}
    (h : Orderly hal heap p M) : Separate hal heap p.tid (Listed hal p M) M :=
  ⟨h.word, h.writable, h.words⟩

/-- Some listed words have been visited: those that the thread owns are marked and nothing else
has changed. -/
structure Marks (tid : ℕ) (visited : List ℕ) (M N : Machine) : Prop where
  space : N.space = M.space
  kept : ∀ x, (∀ a ∈ visited, Owned hal tid a M → x ∉ wordLocs hal M.space.mappings a) →
    N.mem x = M.mem x
  marked : ∀ a ∈ visited, ∀ w, wordOf hal a M = some w → w &&& futexTidMask = tid &&& futexTidMask →
      (wordLocs hal M.space.mappings a).map N.mem = leBytes 4 (ownerDied w)

variable {hal} {heap : Heap}

theorem readUserU32_eq (h : heap.tryReserve 4 = true) (a : ℕ) (M : Machine) :
    readUserU32 hal heap a M = wordOf hal a M := by
  simp [readUserU32, readBytes, h, wordOf]

theorem readUserUsize_eq (h : heap.tryReserve 8 = true) (a : ℕ) (M : Machine) :
    readUserUsize hal heap a M = pointerOf hal a M := by
  simp [readUserUsize, readBytes, h, pointerOf]

theorem readUserIsize_eq (h : heap.tryReserve 8 = true) (a : ℕ) (M : Machine) :
    readUserIsize hal heap a M = (pointerOf hal a M).map signed := by
  simp only [readUserIsize, readUserUsize_eq h]
  cases pointerOf hal a M <;> rfl

theorem readLoop_congr {m : Mappings} {mem' : Memory} {fuel : ℕ}
    (h : ∀ x ∈ rangeLocs hal m fuel cursor n, mem' x = mem x) :
    readLoop hal m mem' fuel cursor n [] = readLoop hal m mem fuel cursor n [] := by
  cases hr : readLoop hal m mem fuel cursor n [] with
  | error e =>
    rw [readLoop_map hal fuel mem mem' [], hr]
    rfl
  | ok bytes =>
    have hself := readLoop_anew hal fuel hr mem []
    rw [hr] at hself
    rw [readLoop_anew hal fuel hr mem' [], Except.ok.inj hself, map_congr_left h]

theorem ownerDied_lt (w : ℕ) : ownerDied w < 256 ^ 4 := by
  rw [show 256 ^ 4 = 2 ^ 32 by decide]
  apply Nat.or_lt_two_pow
  · exact lt_of_le_of_lt Nat.and_le_right (by decide)
  · decide

theorem ownerDied_ownerDied (w : ℕ) : ownerDied (ownerDied w) = ownerDied w := by
  unfold ownerDied
  apply Nat.eq_of_testBit_eq
  intro i
  simp only [Nat.testBit_or, Nat.testBit_and]
  cases w.testBit i <;> cases hd : futexOwnerDied.testBit i <;>
    cases hw : futexWaitersBit.testBit i <;> simp

theorem mem_pushUniqueAddr {addrs : List ℕ} {a b : ℕ} :
    b ∈ pushUniqueAddr addrs a ↔ b ∈ addrs ∨ b = a := by
  unfold pushUniqueAddr
  split
  · next hmem =>
    rw [contains_iff_mem] at hmem
    exact ⟨.inl, fun h => h.elim id fun heq => heq ▸ hmem⟩
  · rw [mem_append, mem_singleton]

variable {p : Process} {M N : Machine} {visited : List ℕ} {a tid node : ℕ} {S : ℕ → Prop}
  {c : Anchor}

theorem Marks.nil (M : Machine) (tid : ℕ) : Marks hal tid [] M M :=
  ⟨rfl, fun _ _ => rfl, fun _ h => by cases h⟩

section

variable (hp : Separate hal heap tid S M) (h : Marks hal tid visited M N)
  (hv : ∀ b ∈ visited, S b) (ha : S a)
include hp h hv ha

theorem Marks.wordOf_eq (hfresh : a ∈ visited → ¬ Owned hal tid a M) : wordOf hal a N = wordOf hal a M := by
  unfold wordOf
  rw [h.space, readLoop_congr]
  intro x hx
  refine h.kept x fun b hb hown hxb => ?_
  have hne : a ≠ b := by
    rintro rfl
    exact hfresh hb hown
  exact hp.words b a (hv b hb) hown ha hne hxb hx

theorem Marks.write {w : ℕ}
    (hw : wordOf hal a M = some w) (htid : w &&& futexTidMask = tid &&& futexTidMask) :
    Marks hal tid (pushUniqueAddr visited a) M
      (writeBytes hal a (leBytes 4 (ownerDied w)) N).2 := by
  have hown : Owned hal tid a M := ⟨w, hw, htid⟩
  obtain ⟨hwritable, hdistinct⟩ := hp.writable a ha hown
  have hout : ∀ x, x ∉ wordLocs hal M.space.mappings a →
      (writeBytes hal a (leBytes 4 (ownerDied w)) N).2.mem x = N.mem x := by
    intro x hx
    apply writeWord_outside
    rw [h.space]
    exact hx
  refine ⟨h.space, ?_, ?_⟩
  · intro x hx
    rw [hout x (hx a (mem_pushUniqueAddr.mpr (.inr rfl)) hown)]
    exact h.kept x fun b hb => hx b (mem_pushUniqueAddr.mpr (.inl hb))
  · intro b hb w' hw' htid'
    by_cases hne : b = a
    · subst hne
      obtain rfl : w = w' := some.inj (hw.symm.trans hw')
      have hok : (writeLoop hal N.space.mappings 4 b (leBytes 4 (ownerDied w)) N.mem).1 = .ok () := by
        have hzero : (writeLoop hal M.space.mappings 4 b (leBytes 4 0) M.mem).1 = .ok () := hwritable
        rw [h.space]
        exact writeLoop_anew hal 4 hzero N.mem (by simp)
      have hfill := writeLoop_fills hal 4 hok (by rw [h.space]; exact hdistinct)
      rw [h.space] at hfill
      show (wordLocs hal M.space.mappings b).map
        (writeLoop hal N.space.mappings 4 b (leBytes 4 (ownerDied w)) N.mem).2 = _
      rw [h.space]
      exact hfill
    · have hb := (mem_pushUniqueAddr.mp hb).resolve_right hne
      rw [← h.marked b hb w' hw' htid']
      apply map_congr_left
      intro x hx
      exact hout x fun hxa => hp.words b a (hv b hb) ⟨w', hw', htid'⟩ ha (Ne.symm hne) hx hxa

theorem Marks.visit :
    Marks hal tid (pushUniqueAddr visited a) M (maybeMarkOwnerDied hal heap a tid N) := by
  unfold maybeMarkOwnerDied
  rw [readUserU32_eq hp.word]
  by_cases hown : Owned hal tid a M
  · obtain ⟨w, hw, htid⟩ := hown
    by_cases hmem : a ∈ visited
    · -- the word is marked already: it is left alone, or marked the same way again
      have hread : wordOf hal a N = some (ownerDied w) := by
        unfold wordOf at hw ⊢
        obtain ⟨bytes, hbytes, -⟩ := Option.map_eq_some_iff.mp hw
        have hok := readLoop_anew hal 4 (toOption_eq_some.mp hbytes) N.mem []
        rw [h.space, hok]
        show some (fromLeBytes ((wordLocs hal M.space.mappings a).map N.mem)) = _
        rw [h.marked a hmem w hw htid, fromLeBytes, foldr_leBytes,
          Nat.mod_eq_of_lt (ownerDied_lt w)]
      rw [hread]
      simp only
      split
      · have hagain := h.write hp hv ha hw htid
        rw [← ownerDied_ownerDied] at hagain
        exact hagain
      · have hpush : pushUniqueAddr visited a = visited := by
          rw [pushUniqueAddr, if_pos (contains_iff_mem.mpr hmem)]
        rw [hpush]
        exact h
    · rw [h.wordOf_eq hp hv ha fun hin => absurd hin hmem, hw]
      simp only
      rw [if_pos htid]
      exact h.write hp hv ha hw htid
  · have hsame : Marks hal tid (pushUniqueAddr visited a) M N := by
      refine ⟨h.space, fun x hx => h.kept x fun b hb => hx b (mem_pushUniqueAddr.mpr (.inl hb)), ?_⟩
      intro b hb w hw htid
      rcases mem_pushUniqueAddr.mp hb with hb | rfl
      · exact h.marked b hb w hw htid
      · exact absurd ⟨w, hw, htid⟩ hown
    rw [h.wordOf_eq hp hv ha fun _ => hown]
    split
    · exact hsame
    · next w hw =>
      rw [if_neg fun htid => hown ⟨w, hw, htid⟩]
      exact hsame

end

/-- A node of the list still points where it pointed. -/
theorem Marks.pointerOf_eq (hp : Orderly hal heap p M) (h : Marks hal p.tid visited M N)
    (hv : ∀ b ∈ visited, Listed hal p M b) (hc : anchor hal p M = some c)
    (hnode : Linked hal c M node) : pointerOf hal node N = pointerOf hal node M := by
  unfold pointerOf
  rw [h.space, readLoop_congr]
  intro x hx
  refine h.kept x fun b hb hown hxb => ?_
  exact hp.links b c node (hv b hb) hown hc hnode hxb hx

theorem visitRobust_marks (hp : Separate hal heap tid S M) {offset : ℤ} {found : List ℕ × Machine}
    (h : Marks hal tid found.1 M found.2) (hv : ∀ b ∈ found.1, S b)
    (hlisted : ∀ a, robustFutexAddr node offset = some a → S a) :
    Marks hal tid (visitRobust hal heap tid offset node found).1 M
        (visitRobust hal heap tid offset node found).2 ∧
      ∀ a, a ∈ (visitRobust hal heap tid offset node found).1 ↔
        a ∈ found.1 ∨ robustFutexAddr node offset = some a := by
  unfold visitRobust
  split
  · next hnone => exact ⟨h, fun a => by simp [hnone]⟩
  next addr haddr =>
  refine ⟨h.visit hp hv (hlisted addr haddr), fun a => ?_⟩
  rw [mem_pushUniqueAddr, haddr, some.injEq]
  exact or_congr_right eq_comm

/-- The scan goes along the list as it was, and visits the words it leads to. -/
theorem scanRobust_marks (hp : Orderly hal heap p M) {c : Anchor} (hc : anchor hal p M = some c)
    (fuel : ℕ) {node : ℕ} {seen : List ℕ} {found : List ℕ × Machine}
    (h : Marks hal p.tid found.1 M found.2) (hv : ∀ b ∈ found.1, Listed hal p M b)
    (hnode : ¬ Ends c node → Linked hal c M node) :
    let out := scanRobust hal heap c.head p.tid c.offset fuel node seen found
    Marks hal p.tid out.1 M out.2 ∧ ∀ a, a ∈ out.1 ↔ a ∈ found.1 ∨
      ∃ n ∈ walk (fun n => pointerOf hal n M) (Ends c) fuel node seen,
        robustFutexAddr n c.offset = some a := by
  induction fuel generalizing node seen found with
  | zero => exact ⟨h, fun a => by simp [scanRobust, walk]⟩
  | succ fuel ih =>
    unfold scanRobust walk
    by_cases hend : node = 0 ∨ node = c.head ∨ node ∈ seen
    · have hend' : Ends c node ∨ node ∈ seen := or_assoc.mpr hend
      rw [if_pos hend, if_pos hend']
      exact ⟨h, fun a => by simp⟩
    have hgo : ¬ (Ends c node ∨ node ∈ seen) := fun h => hend (or_assoc.mp h)
    rw [if_neg hend, if_neg hgo]
    rw [not_or] at hgo
    have hon := hnode hgo.1
    have hvisit := visitRobust_marks hp.separate h hv
      fun addr haddr => ⟨c, hc, node, .inl hon, haddr⟩
    generalize visitRobust hal heap p.tid c.offset node found = found' at hvisit ⊢
    obtain ⟨hmarks, hmem⟩ := hvisit
    have hv' : ∀ b ∈ found'.1, Listed hal p M b := by
      intro b hb
      rcases (hmem b).mp hb with hb | haddr
      · exact hv b hb
      · exact ⟨c, hc, node, .inl hon, haddr⟩
    dsimp only
    rw [readUserUsize_eq hp.pointer, hmarks.pointerOf_eq hp hv' hc hon]
    rcases hnext : pointerOf hal node M with _ | node'
    · refine ⟨hmarks, fun a => ?_⟩
      rw [hmem]
      simp
    obtain ⟨hlast, hlistedAll⟩ := @ih node' (node :: seen) found' hmarks hv'
      fun hstop => .link hon hnext hstop
    refine ⟨hlast, fun a => ?_⟩
    rw [hlistedAll, hmem]
    simp only [mem_cons, exists_eq_or_imp]
    exact or_assoc

theorem collect_anchored (hp : Orderly hal heap p M) (hc : anchor hal p M = some c) :
    let found := scanRobust hal heap c.head p.tid c.offset robustListMaxScan c.first [] ([], M)
    let out := if c.pending = 0 ∨ c.pending = c.head then found
      else visitRobust hal heap p.tid c.offset c.pending found
    Marks hal p.tid out.1 M out.2 ∧ ∀ a, a ∈ out.1 ↔ Listed hal p M a := by
  obtain ⟨ns, hns, hall⟩ := hp.short c hc
  obtain ⟨hmarks, hmem⟩ := @scanRobust_marks hal heap p M hp c hc robustListMaxScan c.first []
    ([], M) (.nil M p.tid) (fun b hb => by cases hb) fun hstop => .first hstop
  have hscanned : ∀ a, a ∈ (scanRobust hal heap c.head p.tid c.offset robustListMaxScan c.first []
      ([], M)).1 ↔ ∃ n, Linked hal c M n ∧ robustFutexAddr n c.offset = some a := by
    intro a
    rw [hmem]
    simp only [not_mem_nil, false_or, mem_walk_iff hall hns]
    rfl
  dsimp only
  generalize scanRobust hal heap c.head p.tid c.offset robustListMaxScan c.first [] ([], M) = found
    at hmarks hscanned ⊢
  have hlisted : ∀ a, Listed hal p M a ↔ (∃ n, Linked hal c M n ∧ robustFutexAddr n c.offset = some a)
      ∨ ¬ Ends c c.pending ∧ robustFutexAddr c.pending c.offset = some a := by
    intro a
    constructor
    · rintro ⟨c', hc', n, hn | ⟨rfl, hn⟩, haddr⟩
      · obtain rfl : c = c' := some.inj (hc.symm.trans hc')
        exact .inl ⟨n, hn, haddr⟩
      · obtain rfl : c = c' := some.inj (hc.symm.trans hc')
        exact .inr ⟨hn, haddr⟩
    · rintro (⟨n, hn, haddr⟩ | ⟨hn, haddr⟩)
      · exact ⟨c, hc, n, .inl hn, haddr⟩
      · exact ⟨c, hc, c.pending, .inr ⟨rfl, hn⟩, haddr⟩
  by_cases hpending : c.pending = 0 ∨ c.pending = c.head
  · rw [if_pos hpending]
    refine ⟨hmarks, fun a => ?_⟩
    have hends : Ends c c.pending := hpending
    rw [hscanned, hlisted]
    simp [hends]
  · rw [if_neg hpending]
    have hends : ¬ Ends c c.pending := hpending
    obtain ⟨hlast, hmem'⟩ := visitRobust_marks hp.separate hmarks
      (fun b hb => (hlisted b).mpr (.inl ((hscanned b).mp hb)))
      fun a haddr => (hlisted a).mpr (.inr ⟨hends, haddr⟩)
    refine ⟨hlast, fun a => ?_⟩
    rw [hmem', hscanned, hlisted]
    simp [hends]

/-- The exit finds the words of the list as it was, and marks those the thread owns. -/
theorem collectRobust_marks (hp : Orderly hal heap p M) :
    Marks hal p.tid (collectRobustFutexAddrsForExit hal heap p M).1 M
        (collectRobustFutexAddrsForExit hal heap p M).2 ∧
      ∀ a, a ∈ (collectRobustFutexAddrsForExit hal heap p M).1 ↔ Listed hal p M a := by
  have hnone : anchor hal p M = none → ∀ a, a ∈ ([] : List ℕ) ↔ Listed hal p M a := by
    intro hanchor a
    constructor
    · intro h
      cases h
    · rintro ⟨c, hc, -⟩
      rw [hanchor] at hc
      cases hc
  unfold collectRobustFutexAddrsForExit
  rcases hlist : p.robustList with _ | entry
  · exact ⟨.nil M p.tid, hnone (by simp [anchor, hlist])⟩
  obtain ⟨head, len⟩ := entry
  simp only
  by_cases hlen : len < 24
  · rw [if_pos hlen]
    exact ⟨.nil M p.tid, hnone (by simp [anchor, hlist, hlen])⟩
  rw [if_neg hlen]
  rw [readUserUsize_eq hp.pointer, readUserIsize_eq hp.pointer, readUserUsize_eq hp.pointer]
  rcases hfirst : pointerOf hal head M with _ | first
  · exact ⟨.nil M p.tid, hnone (by simp [anchor, hlist, hfirst])⟩
  rcases hoffset : pointerOf hal (wrappingAdd head 8) M with _ | offset
  · exact ⟨.nil M p.tid, hnone (by simp [anchor, hlist, hoffset])⟩
  have hc : anchor hal p M = some ⟨head, first, signed offset,
      (pointerOf hal (wrappingAdd head 16) M).getD 0⟩ := by
    simp [anchor, hlist, if_neg hlen, hfirst, hoffset]
  have hfound := collect_anchored hp hc
  simp only at hfound
  exact hfound

theorem leaveMemory_spec (hp : Orderly hal heap p M) :
    (∀ a, a ∈ (leaveMemory hal heap p M).1 ↔ Listed hal p M a) ∧
    (∀ a w, Listed hal p M a → wordOf hal a M = some w →
      w &&& futexTidMask = p.tid &&& futexTidMask →
        (wordLocs hal M.space.mappings a).map (leaveMemory hal heap p M).2.mem =
          leBytes 4 (ownerDied w)) ∧
    ∀ b, p.clearChildTid = some b → Writable hal b M →
      ∀ x ∈ wordLocs hal M.space.mappings b, (leaveMemory hal heap p M).2.mem x = 0 := by
  obtain ⟨hmarks, hmem⟩ := collectRobust_marks hp
  unfold leaveMemory
  generalize collectRobustFutexAddrsForExit hal heap p M = found at hmarks hmem
  obtain ⟨addrs, N⟩ := found
  rcases hchild : p.clearChildTid with _ | b
  · refine ⟨hmem, fun a w ha hw htid => hmarks.marked a ((hmem a).mpr ha) w hw htid, ?_⟩
    intro b hb
    cases hb
  refine ⟨hmem, ?_, ?_⟩
  · intro a w ha hw htid
    rw [← hmarks.marked a ((hmem a).mpr ha) w hw htid]
    apply map_congr_left
    intro x hx
    apply writeWord_outside
    rw [hmarks.space]
    exact fun hxb => hp.child a b ha ⟨w, hw, htid⟩ hchild hx hxb
  · rintro b' ⟨⟩ hwritable x hx
    have hzero : (writeLoop hal M.space.mappings 4 b (leBytes 4 0) M.mem).1 = .ok () := hwritable
    have hok : (writeLoop hal M.space.mappings 4 b (leBytes 4 0) N.mem).1 = .ok () :=
      writeLoop_anew hal 4 hzero N.mem rfl
    rw [← hmarks.space] at hok hx
    exact writeLoop_same hal 4 hok (by decide +kernel) x hx

end Lists

section Cleared

variable {hal : HalMemory} {heap : Heap} {p : Process} {M : Machine}

theorem readBytes_cleared (h : M.space.mappings = ∅) (a n : ℕ) :
    (readBytes hal heap a (n + 1) M).toOption = none := by
  unfold readBytes
  rw [if_neg (Nat.succ_ne_zero n)]
  split
  · rw [readLoop, h, findSegment_empty]
    rfl
  · rfl

theorem leaveMemory_cleared (h : M.space.mappings = ∅) : leaveMemory hal heap p M = ([], M) := by
  have hread : ∀ a, readUserUsize hal heap a M = none := by
    intro a
    rw [readUserUsize, readBytes_cleared h a 7]
    rfl
  have hcollect : collectRobustFutexAddrsForExit hal heap p M = ([], M) := by
    unfold collectRobustFutexAddrsForExit
    split
    · rfl
    · split
      · rfl
      · rw [hread]
  unfold leaveMemory
  rw [hcollect]
  simp only
  split
  · rfl
  · simp [show leBytes 4 0 = [0, 0, 0, 0] by decide, writeBytes, writeLoop, h, findSegment_empty]

end Cleared

end RobustLists
