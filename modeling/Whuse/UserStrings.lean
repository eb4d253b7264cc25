import Whuse.ByteAccess

/-! # Strings in user memory

A string is read page by page, and byte by byte where a page cannot be read as a whole.
-/
namespace UserStrings

open MachineWord AddressSpace MappingTable UserMemory ByteMap ByteAccess List Option
open CallRuns (board boardHeap)

def maxStrLen : ℕ := 16 * pageSize

def fromUtf8 (bytes : List UInt8) : KernelResult (List UInt8) :=
  if ByteArray.validateUTF8 ⟨bytes.toArray⟩ then .ok bytes else .error efault

section Reading

variable (hal : HalMemory) (heap : Heap) (addr : ℕ) (M : Machine)

/-- The inner loop: the answer, or how far it came; `none` is a sum that overflows. -/
def probe : ℕ → ℕ → List UInt8 → Option (KernelResult (List UInt8) ⊕ ℕ × List UInt8)
  | 0, offset, out => some (.inr (offset, out))
  | n + 1, offset, out =>
    if offset < maxStrLen then
      (checkedAdd addr offset).bind fun a =>
        match readBytes hal heap a 1 M with
        | .ok (byte :: _) =>
          if byte = 0 then some (.inl (fromUtf8 out)) else probe n (offset + 1) (out ++ [byte])
        | .ok [] => none
        | .error _ => some (.inl (.error efault))
    else some (.inr (offset, out))

/-- `none` is a sum that overflows, or a loop still running. -/
def cstrLoop : ℕ → ℕ → List UInt8 → Option (KernelResult (List UInt8))
  | 0, _, _ => none
  | fuel + 1, offset, out =>
    if offset < maxStrLen then
      (checkedAdd addr offset).bind fun a =>
        let chunkLen := min (pageSize - a % pageSize) (maxStrLen - offset)
        match readBytes hal heap a chunkLen M with
        | .ok chunk =>
          if 0 ∈ chunk then some (fromUtf8 (out ++ chunk.takeWhile (· ≠ 0)))
          else cstrLoop fuel (offset + chunk.length) (out ++ chunk)
        | .error _ =>
          (probe hal heap addr M chunkLen offset out).bind fun
            | .inl answer => some answer
            | .inr (offset, out) => cstrLoop fuel offset out
    else some (.error efault)

def readCstr : Option (KernelResult (List UInt8)) :=
  cstrLoop hal heap addr M (maxStrLen + 1) 0 []

end Reading

variable {m : ℕ → Option UInt8} {a n offset : ℕ} {s out chunk s' : List UInt8}

structure IsCstr (m : ℕ → Option UInt8) (a : ℕ) (s : List UInt8) : Prop where
  mapped : load m a (s.length + 1) = some (s ++ [0])
  nonzero : 0 ∉ s
  short : s.length < maxStrLen

/-- Bytes from the start on that are no terminator. -/
structure Passed (m : ℕ → Option UInt8) (a offset : ℕ) (out : List UInt8) : Prop where
  mapped : load m a offset = some out
  nonzero : 0 ∉ out

def Meets (m : ℕ → Option UInt8) (a : ℕ) (r : KernelResult (List UInt8)) : Prop :=
  (∃ s, IsCstr m a s ∧ r = fromUtf8 s) ∨ (∀ s, ¬ IsCstr m a s) ∧ r = .error efault

theorem Passed.le (h : Passed m a offset out) (hs : IsCstr m a s) : offset ≤ s.length := by
  by_contra hlt
  obtain ⟨hlen, hall⟩ := load_eq_some_iff.mp h.mapped
  have hzero := (load_eq_some_iff.mp hs.mapped).2 s.length (Nat.lt_succ_self _)
  rw [hall s.length (by omega), getElem?_append_right le_rfl, Nat.sub_self] at hzero
  exact h.nonzero (mem_of_getElem? hzero)

theorem IsCstr.unique (h : IsCstr m a s) (h' : IsCstr m a s') : s = s' := by
  have htake : ∀ {s}, IsCstr m a s → Passed m a s.length s := by
    intro s hs
    refine ⟨load_eq_some_iff.mpr ⟨rfl, fun i hi => ?_⟩, hs.nonzero⟩
    rw [(load_eq_some_iff.mp hs.mapped).2 i (by omega), getElem?_append_left hi]
  have hlen := Nat.le_antisymm ((htake h).le h') ((htake h').le h)
  have hsame := (htake h).mapped.symm.trans (hlen ▸ (htake h').mapped)
  exact some.inj hsame

theorem Passed.append (h : Passed m a offset out) (hchunk : load m (a + offset) n = some chunk)
    (hzero : 0 ∉ chunk) : Passed m a (offset + n) (out ++ chunk) := by
  refine ⟨?_, by simp [h.nonzero, hzero]⟩
  rw [load_add, h.mapped, bind_some, hchunk, map_some]

theorem Passed.meets_zero (h : Passed m a offset out)
    (hchunk : load m (a + offset) n = some chunk) (hzero : 0 ∈ chunk)
    (hmax : offset + n ≤ maxStrLen) : Meets m a (fromUtf8 (out ++ chunk.takeWhile (· ≠ 0))) := by
  have hall : load m a (offset + n) = some (out ++ chunk) := by
    rw [load_add, h.mapped, bind_some, hchunk, map_some]
  obtain ⟨hlen, hbytes⟩ := load_eq_some_iff.mp hall
  obtain ⟨pre, post, rfl, hpre⟩ := eq_append_cons_of_mem hzero
  have htake : (pre ++ 0 :: post).takeWhile (· ≠ 0) = pre := by
    rw [takeWhile_append_of_pos (by grind)]
    simp
  rw [htake]
  rw [length_append, length_append, length_cons] at hlen
  refine .inl ⟨out ++ pre, ⟨load_eq_some_iff.mpr ⟨by simp [Nat.add_assoc], ?_⟩, ?_, ?_⟩, rfl⟩
  · intro i hi
    rw [length_append] at hi
    have hsplit : out ++ (pre ++ 0 :: post) = (out ++ pre ++ [0]) ++ post := by simp
    rw [hbytes i (by omega), hsplit, getElem?_append_left (by simp; omega)]
  · rw [mem_append]
    exact fun hmem => hmem.elim h.nonzero hpre
  · rw [length_append]
    omega

theorem Passed.meets_unmapped (h : Passed m a offset out) (hnone : load m (a + offset) 1 = none) :
    Meets m a (.error efault) := by
  refine .inr ⟨fun s hs => ?_, rfl⟩
  have hle := h.le hs
  have hbyte := (load_eq_some_iff.mp hs.mapped).2 offset (by omega)
  rw [getElem?_eq_getElem (by simp; omega)] at hbyte
  simp [load, hbyte] at hnone

theorem Passed.meets_long (h : Passed m a offset out) (hlong : maxStrLen ≤ offset) :
    Meets m a (.error efault) := by
  refine .inr ⟨fun s hs => ?_, rfl⟩
  have hle := h.le hs
  have hshort := hs.short
  omega

section Table

variable {hal : HalMemory} {heap : Heap} {table : Mappings} {mem : Memory} {M : Machine} {x : ℕ}

theorem load_of_readBytes (h : readBytes hal heap x n M = .ok chunk) :
    load (byteAt hal M.space.mappings M.mem) x n = some chunk := by
  cases hheap : heap.tryReserve n with
  | true =>
    rw [readBytes_byteAt hheap] at h
    rcases hload : load (byteAt hal M.space.mappings M.mem) x n with _ | bytes
    · simp [hload] at h
    simp only [hload] at h
    rw [Except.ok.inj h]
  | false =>
    rw [readBytes] at h
    split at h
    next hn =>
      obtain rfl := Except.ok.inj h
      rw [hn, load]
    next hn => simp [hheap] at h

theorem Passed.no_overflow (ha : a ≤ usizeMax) (h : Passed (byteAt hal table mem) a offset out) :
    checkedAdd a offset = some (a + offset) := by
  refine checkedAdd_of_le ?_
  obtain _ | before := offset
  · exact ha
  obtain ⟨hlen, hall⟩ := load_eq_some_iff.mp h.mapped
  have hlast := hall before (Nat.lt_succ_self _)
  rw [getElem?_eq_getElem (by omega), byteAt] at hlast
  cases hfind : findSegment table (a + before) 1 with
  | error e => simp [hfind] at hlast
  | ok found =>
    obtain ⟨base, -, -, -, hhigh, hfits⟩ := findSegment_ok hfind
    omega

end Table

section Loops

variable {hal : HalMemory} {heap : Heap} {M : Machine} {fuel : ℕ}

section

variable (hheap : heap.tryReserve 1 = true) (ha : a ≤ usizeMax)
  (h : Passed (byteAt hal M.space.mappings M.mem) a offset out)
include hheap ha h

theorem probe_spec (hmax : offset + n ≤ maxStrLen) :
    (∃ answer, probe hal heap a M n offset out = some (.inl answer) ∧
        Meets (byteAt hal M.space.mappings M.mem) a answer) ∨
      ∃ out', probe hal heap a M n offset out = some (.inr (offset + n, out')) ∧
        Passed (byteAt hal M.space.mappings M.mem) a (offset + n) out' := by
  induction n generalizing offset out with
  | zero => exact .inr ⟨out, rfl, h⟩
  | succ n ih =>
    rw [probe, if_pos (by omega), h.no_overflow ha, bind_some, readBytes_byteAt hheap]
    rcases hload : load (byteAt hal M.space.mappings M.mem) (a + offset) 1 with _ | bytes
    · exact .inl ⟨_, rfl, h.meets_unmapped hload⟩
    obtain ⟨byte, rfl⟩ := length_eq_one_iff.mp (load_eq_some_iff.mp hload).1
    by_cases hzero : byte = 0
    · have hmeets := h.meets_zero hload (by simp [hzero]) (by omega)
      simp only [hzero, takeWhile_cons, ne_eq, not_true_eq_false, decide_false, Bool.false_eq_true,
        if_false, append_nil] at hmeets ⊢
      exact .inl ⟨_, rfl, hmeets⟩
    · simp only [if_neg hzero]
      have hnext := ih (h.append hload (by simpa using Ne.symm hzero)) (by omega)
      rwa [Nat.add_assoc, Nat.add_comm 1 n] at hnext

theorem cstrLoop_spec (hmax : offset ≤ maxStrLen)
    (hfuel : maxStrLen - offset < fuel) :
    ∃ answer, cstrLoop hal heap a M fuel offset out = some answer ∧
      Meets (byteAt hal M.space.mappings M.mem) a answer := by
  induction fuel generalizing offset out with
  | zero => omega
  | succ fuel ih =>
    rw [cstrLoop]
    by_cases hmore : offset < maxStrLen
    · rw [if_pos hmore, h.no_overflow ha, bind_some]
      have hpage : (a + offset) % pageSize < pageSize := Nat.mod_lt _ (by decide)
      generalize hlen : min (pageSize - (a + offset) % pageSize) (maxStrLen - offset) = n
      dsimp only
      cases hread : readBytes hal heap (a + offset) n M with
      | ok chunk =>
        have hload := load_of_readBytes hread
        have hn := (load_eq_some_iff.mp hload).1
        dsimp only
        by_cases hzero : 0 ∈ chunk
        · rw [if_pos hzero]
          exact ⟨_, rfl, h.meets_zero hload hzero (by omega)⟩
        · rw [if_neg hzero, hn]
          exact ih (h.append hload hzero) (by omega) (by omega)
      | error e =>
        obtain ⟨answer, hprobe, hanswer⟩ | ⟨out', hprobe, hpassed⟩ :=
          probe_spec hheap ha h (by omega : offset + n ≤ maxStrLen)
        · exact ⟨answer, by rw [hprobe]; rfl, hanswer⟩
        · simp only [hprobe]
          exact ih hpassed (by omega) (by omega)
    · rw [if_neg hmore]
      exact ⟨_, rfl, h.meets_long (by omega)⟩

end

end Loops

/-- In every address space `read_cstr` ends without an overflow and answers what the bytes say:
the string at the address when there is one, and a fault otherwise. Where segments do not
overlap or wrap, the bytes are those of the byte map. -/
theorem read_cstr_bytewise (hal : HalMemory) {heap : Heap} (M : Machine)
    (hheap : heap.tryReserve 1 = true) (ha : a ≤ usizeMax) :
    (∀ s, IsCstr (byteAt hal M.space.mappings M.mem) a s →
        readCstr hal heap a M = some (fromUtf8 s)) ∧
      ((∀ s, ¬ IsCstr (byteAt hal M.space.mappings M.mem) a s) →
        readCstr hal heap a M = some (.error efault)) ∧
      (TableWellFormed M.space.mappings →
        byteAt hal M.space.mappings M.mem = view hal M.space.mappings M.mem) := by
  have hstart : Passed (byteAt hal M.space.mappings M.mem) a 0 [] := ⟨rfl, not_mem_nil⟩
  obtain ⟨answer, hloop, hanswer⟩ :=
    cstrLoop_spec hheap ha hstart (Nat.zero_le _) (Nat.lt_succ_self maxStrLen)
  rw [readCstr, hloop]
  refine ⟨fun s hs => ?_, fun hnone => ?_, byteAt_eq_view⟩
  · obtain ⟨s', hs', rfl⟩ | ⟨hno, -⟩ := hanswer
    · rw [hs.unique hs']
    · exact absurd hs (hno s)
  · obtain ⟨s', hs', -⟩ | ⟨-, rfl⟩ := hanswer
    · exact absurd hs' (hnone s')
    · rfl

def greeting : Machine where
  space := { newUser board with
    mappings := (∅ : Mappings).insert 0x10000 ⟨⟨0x10000, 3, 1⟩, .host 0 3⟩ }
  mem x := ([104, 105, 0] : List UInt8).getD x 0

/-- Two bytes and a terminator are all that is mapped. -/
theorem read_cstr_bytewise_greeting : readCstr board boardHeap 0x10000 greeting =
      some (fromUtf8 [104, 105]) := by
  have hmapped : load (byteAt board greeting.space.mappings greeting.mem) 0x10000 3 =
      some [104, 105, 0] := by decide +kernel
  exact (read_cstr_bytewise board greeting rfl (by decide)).1 [104, 105]
    ⟨hmapped, by decide, by decide⟩

end UserStrings
