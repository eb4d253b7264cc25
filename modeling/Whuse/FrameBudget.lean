import Whuse.FrameExclusivity

/-! The frames left to private mappings. The allocator only moves its cursor up: a request that does
not fit takes what is left before it fails, and `dealloc_page` gives nothing back. -/
namespace FrameBudget

open MachineWord AddressSpace CallRuns OwnedMapping CallEffects Option

def freeFrames (fa : FrameAllocator) : ℕ := (min fa.end_ usizeMax - fa.next) / pageSize

def pages (range : ℕ × ℕ) : ℕ := pagesTaken range.1 (max range.2 1)

def asked (c : Call) (M : Machine) : ℕ := ((request c M).map pages).getD 0

def runAsked (hal : HalMemory) : List Call → Machine → Option (ℕ × Machine)
  | [], M => some (0, M)
  | c :: cs, M =>
    match exec hal c M with
    | none => none
    | some (_, N) =>
      match runAsked hal cs N with
      | none => none
      | some (total, P) => some (asked c M + total, P)

def free (M : Machine) : ℕ := freeFrames M.space.frameAllocator

theorem room_iff (fa : FrameAllocator) (n : ℕ) : Room fa n ↔ n ≤ freeFrames fa := by
  rw [freeFrames, Nat.le_div_iff_mul_le (by decide : 0 < pageSize)]
  rcases Nat.eq_zero_or_pos n with rfl | hpos
  · exact ⟨fun _ => by simp, fun _ => .inl rfl⟩
  have hsize : 0 < n * pageSize := Nat.mul_pos hpos (by decide)
  constructor
  · rintro (hzero | hle)
    · omega
    · omega
  · intro hle
    right
    omega

theorem freeFrames_advance (fa : FrameAllocator) (n : ℕ) :
    freeFrames (advance fa n) = freeFrames fa - n := by
  rw [freeFrames, freeFrames, advance, Nat.sub_add_eq, Nat.mul_comm, Nat.sub_mul_div]

theorem insertSegment_of_fits {inner : AddressSpaceInner} {segment : Segment}
    (hlen : 0 < segment.area.len) (hfits : segment.area.start + segment.area.len ≤ usizeMax) :
    (insertSegment inner segment).1 = .ok () := by
  obtain ⟨dirty, hunmap⟩ := MappingTable.unmapRangeInner_ok inner hlen hfits
  rw [insertSegment]
  by_cases hover : overlaps inner.mappings segment.area.start segment.area.len = true
  · rw [if_pos hover, hunmap]
  · rw [if_neg hover]

theorem mapOwned_frames (hal : HalMemory) (heap : Heap) (addr : ℕ) (bytes : List UInt8)
    (prot : ℕ) (M : Machine) :
    free (mapOwned hal heap addr bytes prot M).2 = free M - pagesTaken addr (max bytes.length 1) ∧
      (free M < pagesTaken addr (max bytes.length 1) →
        (mapOwned hal heap addr bytes prot M).1 = .error enomem) ∧
      (pagesTaken addr (max bytes.length 1) ≤ free M → addr + max bytes.length 1 ≤ usizeMax →
        (mapOwned hal heap addr bytes prot M).1 = .ok ()) := by
  have hcases := mapOwned_split hal heap addr bytes prot M
  simp only [room_iff] at hcases
  rcases hcases with ⟨hroom, heq⟩ | ⟨hfull, k, hk, heq⟩
  · rw [heq]
    refine ⟨?_, fun hfull => absurd hroom (Nat.not_le.mpr hfull), fun _ hfits => ?_⟩
    · rw [free, inserting]
      rw [MappingTable.insertSegment_keeps (f := (·.frameAllocator)) fun _ _ _ => rfl]
      exact freeFrames_advance _ _
    · exact insertSegment_of_fits (Nat.lt_of_lt_of_le Nat.one_pos (Nat.le_max_right _ _)) hfits
  · rw [heq]
    refine ⟨?_, fun _ => rfl, fun hroom => absurd hroom hfull⟩
    have hleft : free (withAllocator M (advance M.space.frameAllocator k)) = free M - k :=
      freeFrames_advance _ _
    have hfree : free M = freeFrames M.space.frameAllocator := rfl
    dsimp only
    omega

structure Serves (M : Machine) (range : ℕ × ℕ) (r : KernelResult ℕ) (N : Machine) : Prop where
  left : free N = free M - pages range
  refused : free M < pages range → r = .error enomem
  served : pages range ≤ free M → range.1 + max range.2 1 ≤ usizeMax → ∃ a, r = .ok a

variable {hal : HalMemory} {M N : Machine} {c : Call} {r : KernelResult ℕ}

theorem exec_frames (hx : exec hal c M = some (r, N)) :
    (request c M = none → free N = free M) ∧
      ∀ range, request c M = some range → Serves M range r N := by
  cases FrameExclusivity.exec_asks hx with
  | nothing hasks _ hframes =>
    refine ⟨fun _ => congrArg freeFrames hframes, ?_⟩
    intro range hrange
    rw [hasks] at hrange
    cases hrange
  | @range heap addr data prot answer next K _ _ hK hasks hr _ hframes =>
    refine ⟨fun hnone => absurd (hasks.symm.trans hnone) nofun, ?_⟩
    intro range hrange
    obtain rfl := some.inj (hasks.symm.trans hrange)
    have hfree : free K = free M := by rw [hK]; rfl
    dsimp only at hr
    obtain ⟨hleft, hrefused, hserved⟩ := mapOwned_frames hal heap addr data prot K
    rw [hfree] at hleft hrefused hserved
    constructor
    · exact (congrArg freeFrames hframes).trans hleft
    · intro hfull
      rw [hr, answering, hrefused hfull]
      rfl
    · intro hroom hfits
      rw [hr, answering, hserved hroom hfits]
      exact ⟨answer, rfl⟩

theorem mapAnonymous_fits {heap : Heap} {fuel len prot : ℕ} {range : ℕ × ℕ}
    (hrequest : request (.mapAnonymous heap fuel len prot) M = some range) :
    range.1 + max range.2 1 ≤ usizeMax := by
  simp only [request] at hrequest
  split at hrequest
  · cases hrequest
  next start hfound =>
  split at hrequest
  · obtain rfl := some.inj hrequest
    obtain ⟨hfits, haligned⟩ := foundStart_spec hfound
    have hmax : usizeMax = 18446744073709551615 := rfl
    have hpage : start % 4096 = 0 := (pageOffset_eq_mod start).symm.trans haligned
    omega
  · cases hrequest

theorem exec_free (hx : exec hal c M = some (r, N)) : free N = free M - asked c M := by
  obtain ⟨hnone, hsome⟩ := exec_frames hx
  rw [asked]
  cases hrequest : request c M with
  | none => exact hnone hrequest
  | some range => exact (hsome range hrequest).left

/-- Frames asked for are gone, whether they were given or not. -/
theorem runAsked_free (cs : List Call) :
    ∀ {M N : Machine} {total : ℕ}, runAsked hal cs M = some (total, N) → free N = free M - total := by
  induction cs with
  | nil =>
    intro M N total hrun
    obtain ⟨rfl, rfl⟩ := Prod.mk.inj (some.inj hrun)
    rfl
  | cons c cs ih =>
    intro M N total hrun
    rw [runAsked] at hrun
    rcases hx : exec hal c M with _ | ⟨r, K⟩
    · rw [hx] at hrun
      cases hrun
    rw [hx] at hrun
    dsimp only at hrun
    rcases hrest : runAsked hal cs K with _ | ⟨rest, P⟩
    · rw [hrest] at hrun
      cases hrun
    · rw [hrest] at hrun
      obtain ⟨rfl, rfl⟩ := Prod.mk.inj (some.inj hrun)
      rw [ih hrest, exec_free hx, Nat.sub_sub]

/-- **Main theorem**: frames asked for do not come back. -/
theorem frames_asked_are_gone (hal : HalMemory) (cs : List Call) (M N : Machine) (total : ℕ)
    (hrun : runAsked hal cs M = some (total, N)) :
    free N = free M - total ∧ ∀ c range r P, request c N = some range → exec hal c N = some (r, P) →
        (free N < pages range → r = .error enomem ∧ free P = 0) ∧
        (range.1 + max range.2 1 ≤ usizeMax → ((∃ a, r = .ok a) ↔ pages range ≤ free N)) ∧
        ∀ heap fuel len prot, c = .mapAnonymous heap fuel len prot →
          range.1 + max range.2 1 ≤ usizeMax := by
  refine ⟨runAsked_free cs hrun, ?_⟩
  intro c range r P hrequest hx
  obtain ⟨hleft, hrefused, hserved⟩ := (exec_frames hx).2 range hrequest
  refine ⟨?_, ?_, ?_⟩
  · intro hfull
    refine ⟨hrefused hfull, ?_⟩
    omega
  · intro hfits
    constructor
    · rintro ⟨a, rfl⟩
      by_contra hfull
      exact absurd (hrefused (Nat.lt_of_not_le hfull)) nofun
    · intro hroom
      exact hserved hroom hfits
  · rintro heap fuel len prot rfl
    exact mapAnonymous_fits hrequest

/-- A board whose usable memory is one frame. -/
def oneFrame : HalMemory := riscvVirtMemory 0x8ffff000

def oneFrameUser : Machine := ⟨newUser oneFrame, fun _ => 0⟩

def anonymous (len : ℕ) : Call := .mapAnonymous boardHeap 1 len defaultProt

/-- The calls one after another, each with its error if it fails. -/
def errors (hal : HalMemory) : List Call → Machine → Option (List (Option ℕ))
  | [], _ => some []
  | c :: cs, M =>
    match exec hal c M with
    | none => none
    | some (.ok _, N) => (errors hal cs N).map (none :: ·)
    | some (.error e, N) => (errors hal cs N).map (some e :: ·)

/-- Two pages are refused where one is left; after that one page is refused as well. -/
theorem failed_request_takes_last_frame : free oneFrameUser = 1 ∧
    errors oneFrame [anonymous 0x1000] oneFrameUser = some [none] ∧
    errors oneFrame [anonymous 0x2000, anonymous 0x1000] oneFrameUser =
      some [some enomem, some enomem] := by
  refine ⟨by decide +kernel, by decide +kernel, by decide +kernel⟩

/-- One frame, asked for twice. -/
theorem frames_asked_are_gone_one_frame :
    (∃ N, runAsked oneFrame [anonymous 0x2000] oneFrameUser = some (2, N) ∧ free N = 1 - 2) ∧
      free oneFrameUser = 1 := by
  have hsome : (runAsked oneFrame [anonymous 0x2000] oneFrameUser).map Prod.fst = some 2 := by
    decide +kernel
  have hone : free oneFrameUser = 1 := by decide +kernel
  obtain ⟨⟨total, N⟩, hrun, htotal⟩ := Option.map_eq_some_iff.mp hsome
  obtain rfl : total = 2 := htotal
  have hfree := (frames_asked_are_gone oneFrame [anonymous 0x2000] oneFrameUser N 2 hrun).1
  rw [hone] at hfree
  exact ⟨⟨N, hrun, hfree⟩, hone⟩

end FrameBudget
