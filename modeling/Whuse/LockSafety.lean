import Whuse.RecordLocks

/-! Record locks over every run of locking, closing and exiting calls. A table grants bytes of
files to owners; taking a lock changes the bytes of its range for its owner and no others. -/
namespace LockSafety

open MachineWord AddressSpace TaskScheduler RecordLocks List

structure Grants (lock : RecordLock) (path : String) (owner : ℕ) (mode : Int16) (x : ℕ) : Prop where
  path : lock.path = path
  owner : lock.ownerTgid = owner
  mode : lock.lockType = mode
  lower : lock.start ≤ x
  upper : x < rangeEndU128 lock.end_

def Holds (locks : List RecordLock) (path : String) (owner : ℕ) (mode : Int16) (x : ℕ) : Prop :=
  ∃ lock ∈ locks, Grants lock path owner mode x

/-- Limits on the offsets and the owners in a table. -/
structure Limits where
  bound : ℕ
  bound_le : bound ≤ 2 ^ 64
  owners : ℕ → Prop

def unsignedLimits : Limits := ⟨2 ^ 64, le_rfl, fun _ => True⟩

/-- Offsets and owners that the signed fields of a `flock` record can hold. -/
def signedLimits : Limits := ⟨2 ^ 63, by decide, fun owner => owner < 2 ^ 31⟩

structure ValidRange (L : Limits) (start : ℕ) (end_ : Option ℕ) : Prop where
  nonempty : start < rangeEndU128 end_
  start_lt : start < L.bound
  end_lt : ∀ e, end_ = some e → e < L.bound

structure ValidLock (L : Limits) (lock : RecordLock) : Prop where
  range : ValidRange L lock.start lock.end_
  mode : lock.lockType = fRdlck ∨ lock.lockType = fWrlck
  owner : L.owners lock.ownerTgid

def ValidTable (L : Limits) (locks : List RecordLock) : Prop := ∀ lock ∈ locks, ValidLock L lock

variable {L : Limits}

variable {request : FlockRequest} {handle : Handle} {mode : Int16} {locks l₁ l₂ : List RecordLock}
  {end_ : Option ℕ} {lock : RecordLock} {path : String} {n owner start e : ℕ}

theorem ValidRange.end_cases (h : ValidRange L start end_) :
    rangeEndU128 end_ < L.bound ∨ rangeEndU128 end_ = u128Max := by
  cases end_ with
  | none => exact .inr rfl
  | some e => exact .inl (h.end_lt e rfl)

theorem rangeEnd_endOf (h : n < L.bound ∨ n = u128Max) : rangeEndU128 (endOfU128 n) = n := by
  unfold endOfU128
  split
  · next heq => exact heq.symm
  · next hne => exact Nat.mod_eq_of_lt ((h.resolve_right hne).trans_le L.bound_le)

theorem endOf_lt (hn : n < L.bound ∨ n = u128Max) (h : endOfU128 n = some e) : e < L.bound := by
  unfold endOfU128 at h
  split at h
  · cases h
  · next hne =>
    obtain rfl := Option.some.inj h
    exact (Nat.mod_le n _).trans_lt (hn.resolve_right hne)

theorem validRange_of_end (hlt : start < n) (hs : start < L.bound) (hn : n < L.bound ∨ n = u128Max)
    : ValidRange L start (endOfU128 n) :=
  ⟨by rwa [rangeEnd_endOf hn], hs, fun _ he => endOf_lt hn he⟩

theorem overlaps_iff {startA startB : ℕ} {endA endB : Option ℕ} (ha : ValidRange L startA endA)
    (hb : ValidRange L startB endB) :
    rangeOverlaps startA endA startB endB = true ↔
      ∃ x, (startA ≤ x ∧ x < rangeEndU128 endA) ∧ startB ≤ x ∧ x < rangeEndU128 endB := by
  have hna := ha.nonempty
  have hnb := hb.nonempty
  simp only [rangeOverlaps, Bool.and_eq_true, decide_eq_true_eq]
  constructor
  · intro ⟨h₁, h₂⟩
    exact ⟨max startA startB, by omega, by omega⟩
  · rintro ⟨x, hx⟩
    omega

section Holds
variable {p : String} {o : ℕ} {t : Int16} {x : ℕ}

@[simp] theorem holds_nil : ¬ Holds [] path owner t x := by
  rintro ⟨lock, hmem, -⟩
  cases hmem

@[simp] theorem holds_cons :
    Holds (lock :: locks) path owner t x ↔ Grants lock path owner t x ∨ Holds locks path owner t x := by
  simp [Holds, mem_cons, or_and_right, exists_or]

@[simp] theorem holds_append :
    Holds (l₁ ++ l₂) path owner t x ↔ Holds l₁ path owner t x ∨ Holds l₂ path owner t x := by
  simp [Holds, or_and_right, exists_or]

theorem Holds.perm (h : l₁.Perm l₂) : Holds l₁ path owner t x ↔ Holds l₂ path owner t x := by
  unfold Holds
  simp [h.mem_iff]

theorem Holds.mono (h : ∀ lock ∈ l₁, lock ∈ l₂) (hold : Holds l₁ path owner t x) :
    Holds l₂ path owner t x := by
  obtain ⟨lock, hmem, hgrants⟩ := hold
  exact ⟨lock, h lock hmem, hgrants⟩

end Holds

/-- The bytes a change by an owner is about. -/
structure InRange (path : String) (owner start : ℕ) (end_ : Option ℕ) (p : String) (o x : ℕ) :
    Prop where
  path : p = path
  owner : o = owner
  lower : start ≤ x
  upper : x < rangeEndU128 end_

section Cut

section

variable (hr : ValidRange L start end_) (hl : ValidLock L lock)
include hr hl

theorem isCut_iff : isCut path owner start end_ lock = true ↔
      ∃ x, Grants lock path owner lock.lockType x ∧ InRange path owner start end_ path owner x := by
  simp only [isCut, Bool.and_eq_true, beq_iff_eq, overlaps_iff hl.range hr]
  constructor
  · rintro ⟨⟨hp, ho⟩, x, hx, hy⟩
    exact ⟨x, ⟨hp, ho, rfl, hx.1, hx.2⟩, ⟨rfl, rfl, hy.1, hy.2⟩⟩
  · rintro ⟨x, hg, hi⟩
    exact ⟨⟨hg.path, hg.owner⟩, x, ⟨hg.lower, hg.upper⟩, hi.lower, hi.upper⟩

theorem end_lt_of_lt (h : rangeEndU128 end_ < rangeEndU128 lock.end_) : rangeEndU128 end_ < L.bound := by
  have hbig : L.bound ≤ u128Max := L.bound_le.trans (by decide)
  rcases hr.end_cases with hlt | heq
  · exact hlt
  · rcases hl.range.end_cases with hlt | heq' <;> omega

theorem pieces_holds (p : String) (o : ℕ)
    (t : Int16) (x : ℕ) :
    Holds ((if lock.start < start then [{ lock with end_ := endOfU128 start }] else []) ++
        (if rangeEndU128 end_ < rangeEndU128 lock.end_ then
          [{ lock with
              start := rangeEndU128 end_ % 2 ^ 64
              end_ := endOfU128 (rangeEndU128 lock.end_) }]
        else [])) p o t x ↔
      (lock.path = p ∧ lock.ownerTgid = o ∧ lock.lockType = t) ∧
        (lock.start ≤ x ∧ x < start ∨ rangeEndU128 end_ ≤ x ∧ x < rangeEndU128 lock.end_) := by
  have hstart : rangeEndU128 (endOfU128 start) = start := rangeEnd_endOf (.inl hr.start_lt)
  have hlend : rangeEndU128 (endOfU128 (rangeEndU128 lock.end_)) = rangeEndU128 lock.end_ :=
    rangeEnd_endOf hl.range.end_cases
  have hbelow : Holds (if lock.start < start then [{ lock with end_ := endOfU128 start }] else [])
      p o t x ↔ (lock.path = p ∧ lock.ownerTgid = o ∧ lock.lockType = t) ∧
        lock.start ≤ x ∧ x < start := by
    split
    · next hlt =>
      simp only [holds_cons, holds_nil, or_false]
      constructor
      · intro h
        exact ⟨⟨h.path, h.owner, h.mode⟩, h.lower, hstart ▸ h.upper⟩
      · rintro ⟨⟨hp, ho, ht⟩, hl, hu⟩
        exact ⟨hp, ho, ht, hl, by rwa [hstart]⟩
    · next hge =>
      simp only [holds_nil, false_iff]
      omega
  have habove : Holds (if rangeEndU128 end_ < rangeEndU128 lock.end_ then
        [{ lock with
            start := rangeEndU128 end_ % 2 ^ 64
            end_ := endOfU128 (rangeEndU128 lock.end_) }]
      else []) p o t x ↔ (lock.path = p ∧ lock.ownerTgid = o ∧ lock.lockType = t) ∧
        rangeEndU128 end_ ≤ x ∧ x < rangeEndU128 lock.end_ := by
    split
    · next hlt =>
      have hmod := Nat.mod_eq_of_lt ((end_lt_of_lt hr hl hlt).trans_le L.bound_le)
      simp only [holds_cons, holds_nil, or_false]
      constructor
      · intro h
        exact ⟨⟨h.path, h.owner, h.mode⟩, hmod ▸ h.lower, hlend ▸ h.upper⟩
      · rintro ⟨⟨hp, ho, ht⟩, hl, hu⟩
        exact ⟨hp, ho, ht, hmod.symm ▸ hl, by rwa [hlend]⟩
    · next hge =>
      simp only [holds_nil, false_iff]
      omega
  rw [holds_append, hbelow, habove, ← and_or_left]

theorem cutLock_holds (p : String) (o : ℕ)
    (t : Int16) (x : ℕ) :
    Holds (cutLock path owner start end_ lock) p o t x ↔
      Grants lock p o t x ∧ ¬ InRange path owner start end_ p o x := by
  unfold cutLock
  by_cases hcut : isCut path owner start end_ lock = true
  · -- the lock is of the owner, and has a byte of the range
    obtain ⟨y, hy, hin⟩ := (isCut_iff hr hl).mp hcut
    have hyl := hy.lower
    have hyu := hy.upper
    have hil := hin.lower
    have hiu := hin.upper
    rw [if_pos hcut, pieces_holds hr hl]
    constructor
    · rintro ⟨⟨hp, ho, ht⟩, hx⟩
      refine ⟨⟨hp, ho, ht, by omega, by omega⟩, fun hx' => ?_⟩
      have hlower := hx'.lower
      have hupper := hx'.upper
      omega
    · rintro ⟨hg, hout⟩
      refine ⟨⟨hg.path, hg.owner, hg.mode⟩, ?_⟩
      have hlower := hg.lower
      have hupper := hg.upper
      by_contra hx
      refine hout ⟨?_, ?_, by omega, by omega⟩
      · rw [← hg.path, hy.path]
      · rw [← hg.owner, hy.owner]
  · rw [if_neg hcut, holds_cons]
    constructor
    · rintro (hg | h)
      · refine ⟨hg, fun hin => hcut ((isCut_iff hr hl).mpr ⟨x, ?_, ?_⟩)⟩
        · exact ⟨hg.path.trans hin.path, hg.owner.trans hin.owner, rfl, hg.lower, hg.upper⟩
        · exact ⟨rfl, rfl, hin.lower, hin.upper⟩
      · exact absurd h holds_nil
    · exact fun h => .inl h.1

theorem cutLock_valid : ValidTable L (cutLock path owner start end_ lock) := by
  intro piece hpiece
  unfold cutLock at hpiece
  split at hpiece
  · rw [mem_append] at hpiece
    rcases hpiece with hpiece | hpiece
    · split at hpiece
      · next hlt =>
        obtain rfl := mem_singleton.mp hpiece
        exact ⟨validRange_of_end hlt hl.range.start_lt (.inl hr.start_lt), hl.mode, hl.owner⟩
      · cases hpiece
    · split at hpiece
      · next hlt =>
        obtain rfl := mem_singleton.mp hpiece
        have hend := end_lt_of_lt hr hl hlt
        refine ⟨?_, hl.mode, hl.owner⟩
        simp only [Nat.mod_eq_of_lt (hend.trans_le L.bound_le)]
        exact validRange_of_end hlt hend hl.range.end_cases
      · cases hpiece
  · obtain rfl := mem_singleton.mp hpiece
    exact hl

end

end Cut

def InOrder (a b : RecordLock) : Prop :=
  a.path = b.path → a.ownerTgid = b.ownerTgid → a.start ≤ b.start

instance : Std.Total fun a b : RecordLock => lockKey a ≤ lockKey b := ⟨fun a b => le_total _ _⟩

instance : IsTrans RecordLock fun a b => lockKey a ≤ lockKey b := ⟨fun _ _ _ => le_trans⟩

theorem inOrder_of_key {a b : RecordLock} (h : lockKey a ≤ lockKey b) : InOrder a b := by
  intro hp ho
  simp only [lockKey, Prod.Lex.toLex_le_toLex, hp, ho, lt_irrefl, true_and, false_or] at h
  rcases h with hlt | ⟨heq, -⟩
  · exact hlt.le
  · exact heq.le

theorem sortLocks_inOrder (locks : List RecordLock) : (sortLocks locks).Pairwise InOrder :=
  (pairwise_insertionSort _ locks).imp inOrder_of_key

theorem sortLocks_perm (locks : List RecordLock) : (sortLocks locks).Perm locks :=
  perm_insertionSort _ locks

def Follows (merged : List RecordLock) (lock : RecordLock) : Prop :=
  ∀ last ∈ merged.head?, InOrder last lock

section Merge
variable {merged : List RecordLock}

theorem max_end_cases {a b : RecordLock} (ha : ValidLock L a) (hb : ValidLock L b) :
    max (rangeEndU128 a.end_) (rangeEndU128 b.end_) < L.bound ∨
      max (rangeEndU128 a.end_) (rangeEndU128 b.end_) = u128Max := by
  have := ha.range.end_cases
  have := hb.range.end_cases
  omega

theorem mergeStep_holds (hvalid : ValidTable L merged) (hl : ValidLock L lock)
    (hfollows : Follows merged lock) (p : String) (o : ℕ) (t : Int16) (x : ℕ) :
    Holds (mergeStep merged lock) p o t x ↔ Holds merged p o t x ∨ Grants lock p o t x := by
  unfold mergeStep
  rcases merged with _ | ⟨last, rest⟩
  · simp
  simp only
  split
  · next hsame =>
    simp only [sameStream, Bool.and_eq_true, beq_iff_eq, decide_eq_true_eq] at hsame
    obtain ⟨⟨⟨hp, ho⟩, ht⟩, hstart⟩ := hsame
    have horder : last.start ≤ lock.start := hfollows last rfl hp ho
    have hend := rangeEnd_endOf (max_end_cases (hvalid last mem_cons_self) hl)
    -- the two ranges touch, so together they are one range
    have hunion : Grants { last with
          end_ := endOfU128 (max (rangeEndU128 last.end_) (rangeEndU128 lock.end_)) } p o t x ↔
        Grants last p o t x ∨ Grants lock p o t x := by
      constructor
      · intro h
        have hlower : last.start ≤ x := h.lower
        have hupper : x < max (rangeEndU128 last.end_) (rangeEndU128 lock.end_) := hend ▸ h.upper
        by_cases hx : x < rangeEndU128 last.end_
        · exact .inl ⟨h.path, h.owner, h.mode, hlower, hx⟩
        · exact .inr ⟨hp ▸ h.path, ho ▸ h.owner, ht ▸ h.mode, by omega, by omega⟩
      · rintro (h | h)
        · refine ⟨h.path, h.owner, h.mode, h.lower, ?_⟩
          rw [hend]
          exact lt_max_of_lt_left h.upper
        · refine ⟨hp.trans h.path, ho.trans h.owner, ht.trans h.mode, horder.trans h.lower, ?_⟩
          rw [hend]
          exact lt_max_of_lt_right h.upper
    rw [holds_cons, hunion, holds_cons, or_right_comm]
  · rw [holds_cons, or_comm]

theorem mergeStep_valid (hvalid : ValidTable L merged) (hl : ValidLock L lock) :
    ValidTable L (mergeStep merged lock) := by
  intro other hother
  unfold mergeStep at hother
  rcases merged with _ | ⟨last, rest⟩
  · obtain rfl := mem_singleton.mp hother
    exact hl
  have hlast := hvalid last mem_cons_self
  simp only at hother
  split at hother
  · rcases mem_cons.mp hother with rfl | hmem
    · refine ⟨validRange_of_end ?_ hlast.range.start_lt (max_end_cases hlast hl), hlast.mode,
        hlast.owner⟩
      exact lt_max_of_lt_left hlast.range.nonempty
    · exact hvalid other (mem_cons_of_mem _ hmem)
  · rcases mem_cons.mp hother with rfl | hmem
    · exact hl
    · exact hvalid other hmem

/-- The lock merged into keeps its place, and so does a new one. -/
theorem mergeStep_follows {next : RecordLock} (hfollows : Follows merged next)
    (hnext : InOrder lock next) : Follows (mergeStep merged lock) next := by
  intro last hlast
  unfold mergeStep at hlast
  rcases merged with _ | ⟨head, rest⟩
  · obtain rfl := Option.some.inj hlast
    exact hnext
  simp only at hlast
  split at hlast
  · obtain rfl := Option.some.inj hlast
    exact hfollows head rfl
  · obtain rfl := Option.some.inj hlast
    exact hnext

theorem foldl_mergeStep (hmerged : ValidTable L merged) (hvalid : ValidTable L locks)
    (horder : locks.Pairwise InOrder) (hfollows : ∀ lock ∈ locks, Follows merged lock) :
    ValidTable L (locks.foldl mergeStep merged) ∧
      ∀ p o t x, Holds (locks.foldl mergeStep merged) p o t x ↔
        Holds merged p o t x ∨ Holds locks p o t x := by
  induction locks generalizing merged with
  | nil => exact ⟨hmerged, fun p o t x => by simp⟩
  | cons lock locks ih =>
    have hl := hvalid lock mem_cons_self
    obtain ⟨hfirst, hrest⟩ := pairwise_cons.mp horder
    have hstep := mergeStep_holds hmerged hl (hfollows lock mem_cons_self)
    obtain ⟨hvalid', hholds⟩ := ih (mergeStep_valid hmerged hl)
      (fun other hmem => hvalid other (mem_cons_of_mem _ hmem)) hrest
      (fun other hmem => mergeStep_follows (hfollows other (mem_cons_of_mem _ hmem))
        (hfirst other hmem))
    refine ⟨hvalid', fun p o t x => ?_⟩
    rw [foldl_cons, hholds, hstep, holds_cons, or_assoc]

end Merge

theorem mergeLocks_spec (hvalid : ValidTable L locks) :
    ValidTable L (mergeLocks (sortLocks locks)) ∧
      ∀ p o t x, Holds (mergeLocks (sortLocks locks)) p o t x ↔ Holds locks p o t x := by
  have hsorted : ValidTable L (sortLocks locks) := fun lock hmem =>
    hvalid lock ((sortLocks_perm locks).mem_iff.mp hmem)
  have hnil : ValidTable L [] := fun lock hmem => absurd hmem not_mem_nil
  obtain ⟨hout, hholds⟩ := foldl_mergeStep hnil hsorted (sortLocks_inOrder locks)
    (fun lock _ last hlast => by cases hlast)
  refine ⟨fun lock hmem => hout lock (mem_reverse.mp hmem), fun p o t x => ?_⟩
  rw [mergeLocks, Holds.perm (reverse_perm _), hholds, Holds.perm (sortLocks_perm locks)]
  simp

theorem cut_valid (hvalid : ValidTable L locks) (hr : ValidRange L start end_) :
    ValidTable L (locks.flatMap (cutLock path owner start end_)) := by
  intro piece hpiece
  obtain ⟨lock, hmem, hpiece⟩ := mem_flatMap.mp hpiece
  exact cutLock_valid hr (hvalid lock hmem) piece hpiece

theorem add_valid (hvalid : ValidTable L locks) (hr : ValidRange L start end_)
    (hmode : mode = fRdlck ∨ mode = fWrlck ∨ mode = fUnlck) (hlock : mode ≠ fUnlck)
    (howner : L.owners owner) :
    ValidTable L (locks.flatMap (cutLock path owner start end_) ++
      [⟨path, owner, mode, start, end_⟩]) := by
  intro lock hmem
  rcases mem_append.mp hmem with hmem | hmem
  · exact cut_valid hvalid hr lock hmem
  obtain rfl := mem_singleton.mp hmem
  refine ⟨hr, ?_, howner⟩
  rcases hmode with h | h | h
  · exact .inl h
  · exact .inr h
  · exact absurd h hlock

/-- Taking or giving up a range changes the bytes of the range for its owner, and nothing
else. -/
theorem applyLock_spec (hvalid : ValidTable L locks) (path : String) (hr : ValidRange L start end_)
    (hmode : mode = fRdlck ∨ mode = fWrlck ∨ mode = fUnlck) (howner : L.owners owner) :
    ValidTable L (applyLock path owner mode start end_ locks).2 ∧
      ∀ p o t x, Holds (applyLock path owner mode start end_ locks).2 p o t x ↔
        Holds locks p o t x ∧ ¬ InRange path owner start end_ p o x ∨
          InRange path owner start end_ p o x ∧ t = mode ∧ mode ≠ fUnlck := by
  let left := locks.flatMap (cutLock path owner start end_)
  have hholds : ∀ p o t x, Holds left p o t x ↔
      Holds locks p o t x ∧ ¬ InRange path owner start end_ p o x := by
    intro p o t x
    constructor
    · rintro ⟨piece, hpiece, hg⟩
      obtain ⟨lock, hmem, hpiece⟩ := mem_flatMap.mp hpiece
      have hcut := (cutLock_holds hr (hvalid lock hmem) p o t x).mp ⟨piece, hpiece, hg⟩
      exact ⟨⟨lock, hmem, hcut.1⟩, hcut.2⟩
    · rintro ⟨⟨lock, hmem, hg⟩, hout⟩
      obtain ⟨piece, hpiece, hg⟩ := (cutLock_holds hr (hvalid lock hmem) p o t x).mpr ⟨hg, hout⟩
      exact ⟨piece, mem_flatMap.mpr ⟨lock, hmem, hpiece⟩, hg⟩
  by_cases hun : mode = fUnlck
  · have hnext : (applyLock path owner mode start end_ locks).2 = mergeLocks (sortLocks left) := by
      simp [applyLock, hun, left]
    obtain ⟨hv, hh⟩ := mergeLocks_spec (show ValidTable L left from cut_valid hvalid hr)
    rw [hnext]
    refine ⟨hv, fun p o t x => ?_⟩
    simp [hh, hholds, hun]
  · have hnext : (applyLock path owner mode start end_ locks).2 =
        mergeLocks (sortLocks (left ++ [⟨path, owner, mode, start, end_⟩])) := by
      simp [applyLock, hun, left]
    have hnew : ValidTable L (left ++ [⟨path, owner, mode, start, end_⟩]) :=
      add_valid hvalid hr hmode hun howner
    obtain ⟨hv, hh⟩ := mergeLocks_spec hnew
    rw [hnext]
    refine ⟨hv, fun p o t x => ?_⟩
    rw [hh, holds_append, hholds, holds_cons]
    refine or_congr Iff.rfl ⟨?_, ?_⟩
    · rintro (hg | h)
      · exact ⟨⟨hg.path.symm, hg.owner.symm, hg.lower, hg.upper⟩, hg.mode.symm, hun⟩
      · exact absurd h holds_nil
    · rintro ⟨hin, rfl, -⟩
      exact .inl ⟨hin.path.symm, hin.owner.symm, rfl, hin.lower, hin.upper⟩

theorem minByStart_mem (h : minByStart locks = some lock) : lock ∈ locks := by
  induction locks generalizing lock with
  | nil => cases h
  | cons head rest ih =>
    rw [minByStart] at h
    split at h
    · obtain rfl := Option.some.inj h
      exact mem_cons_self
    next least hleast =>
    split at h
    · obtain rfl := Option.some.inj h
      exact mem_cons_self
    · obtain rfl := Option.some.inj h
      exact mem_cons_of_mem _ (ih hleast)

theorem minByStart_eq_none : minByStart locks = none ↔ locks = [] := by
  cases locks with
  | nil => simp [minByStart]
  | cons head rest =>
    simp only [minByStart]
    split
    · simp
    · split <;> simp

/-- A byte granted to two owners is granted to both for reading. -/
def Shared (locks : List RecordLock) : Prop :=
  ∀ p o o' t t' x, o ≠ o' → Holds locks p o t x → Holds locks p o' t' x → t = fRdlck ∧ t' = fRdlck

theorem Shared.mono (h : Shared l₂) (hsub : ∀ lock ∈ l₁, lock ∈ l₂) :
    Shared l₁ := fun p o o' t t' x hne h₁ h₂ =>
  h p o o' t t' x hne (h₁.mono hsub) (h₂.mono hsub)

/-- No two locks of different owners overlap unless both are read locks. -/
def NoConflict (locks : List RecordLock) : Prop :=
  ∀ a ∈ locks, ∀ b ∈ locks, a.path = b.path → a.ownerTgid ≠ b.ownerTgid →
    rangeOverlaps a.start a.end_ b.start b.end_ = true →
    a.lockType = fRdlck ∧ b.lockType = fRdlck

theorem Shared.noConflict (h : Shared locks) (hv : ValidTable L locks) : NoConflict locks := by
  intro a ha b hb hpath howner hover
  obtain ⟨x, hxa, hxb⟩ := (overlaps_iff (hv a ha).range (hv b hb).range).mp hover
  exact h a.path a.ownerTgid b.ownerTgid _ _ x howner ⟨a, ha, rfl, rfl, rfl, hxa.1, hxa.2⟩
    ⟨b, hb, hpath.symm, rfl, rfl, hxb.1, hxb.2⟩

/-- A request that meets no conflict takes its range without one. -/
theorem applyLock_shared (h : Shared locks) (hv : ValidTable L locks) (hr : ValidRange L start end_)
    (hmode : mode = fRdlck ∨ mode = fWrlck ∨ mode = fUnlck) (howner : L.owners owner)
    (hfree : mode ≠ fUnlck → firstConflict path owner mode start end_ locks = none) :
    Shared (applyLock path owner mode start end_ locks).2 := by
  have hholds := (applyLock_spec hv path hr hmode howner).2
  -- a byte of the range that another owner has is read by both
  have hother : ∀ o t x, o ≠ owner → mode ≠ fUnlck → start ≤ x → x < rangeEndU128 end_ →
      Holds locks path o t x → t = fRdlck ∧ mode = fRdlck := by
    rintro o t x hne hun hlower hupper ⟨lock, hmem, hg⟩
    have hl := hv lock hmem
    have hover : rangeOverlaps lock.start lock.end_ start end_ = true :=
      (overlaps_iff hl.range hr).mpr ⟨x, ⟨hg.lower, hg.upper⟩, hlower, hupper⟩
    have hno := filter_eq_nil_iff.mp (minByStart_eq_none.mp (hfree hun)) lock hmem
    rw [Bool.not_eq_true] at hno
    have hne' : lock.ownerTgid ≠ owner := hg.owner ▸ hne
    simp only [conflicts, hg.path, beq_self_eq_true, Bool.true_and, hover, Bool.and_true,
      bne_iff_ne.mpr hne', lockModesConflict, Bool.or_eq_false_iff, beq_eq_false_iff_ne] at hno
    refine ⟨hg.mode ▸ hl.mode.resolve_right hno.1, ?_⟩
    rcases hmode with h | h | h
    · exact h
    · exact absurd h hno.2
    · exact absurd h hun
  intro p o o' t t' x hne h₁ h₂
  rcases (hholds p o t x).mp h₁ with ⟨hold₁, -⟩ | ⟨hin, rfl, hun⟩
  · rcases (hholds p o' t' x).mp h₂ with ⟨hold₂, -⟩ | ⟨hin, rfl, hun⟩
    · exact h p o o' t t' x hne hold₁ hold₂
    · exact hother o t x (hin.owner ▸ hne) hun hin.lower hin.upper (hin.path ▸ hold₁)
  · rcases (hholds p o' t' x).mp h₂ with ⟨hold₂, -⟩ | ⟨hin', -, -⟩
    · exact (hother o' t' x (hin.owner ▸ hne.symm) hun hin.lower hin.upper (hin.path ▸ hold₂)).symm
    · exact absurd (hin.owner.trans hin'.owner.symm) hne

theorem checkedAddI64_eq_some {a b c : Int64} (h : checkedAddI64 a b = some c) :
    c.toInt = a.toInt + b.toInt := by
  unfold checkedAddI64 at h
  split at h
  · next hin =>
    obtain rfl := Option.some.inj h
    rw [Int64.toInt_add]
    exact Int.bmod_eq_of_le (by omega) (by omega)
  · cases h

def FitsSigned (flock : FlockRequest) (handle : Handle) (size : KernelResult ℕ) : Prop :=
  ∀ base, lockBase flock.lWhence handle size = .ok base →
    base.toInt + flock.lStart.toInt + flock.lLen.toInt < 2 ^ 63

section

variable {flock : FlockRequest} {size : KernelResult ℕ}
  (h : normalizeLockRange flock handle size = .ok (start, end_))
include h

theorem normalize_cases : ∃ base, lockBase flock.lWhence handle size = .ok base ∧
      (start : ℤ) = base.toInt + flock.lStart.toInt ∧ start < 2 ^ 63 ∧
      (flock.lLen.toInt = 0 ∧ end_ = none ∨
        0 < flock.lLen.toInt ∧ ∃ e, end_ = some e ∧ (e : ℤ) = start + flock.lLen.toInt) := by
  unfold normalizeLockRange at h
  split at h
  · cases h
  next base hbase =>
  split at h
  · cases h
  next sum hsum =>
  have hval := checkedAddI64_eq_some hsum
  have hlt := sum.toInt_lt
  split at h
  · cases h
  next hneg =>
  rw [Int64.lt_iff_toInt_lt, Int64.toInt_zero] at hneg
  split at h
  · cases h
  next hlen =>
  rw [Int64.lt_iff_toInt_lt, Int64.toInt_zero] at hlen
  split at h
  · next hzero =>
    cases h
    refine ⟨base, hbase, by omega, by omega, .inl ⟨?_, rfl⟩⟩
    rw [hzero, Int64.toInt_zero]
  · next hpos =>
    have hne : flock.lLen.toInt ≠ 0 := fun heq => hpos (Int64.toInt_inj.mp heq)
    split at h
    · cases h
    next e he =>
    cases h
    obtain ⟨-, he⟩ := checkedAdd_eq_some.mp he
    exact ⟨base, hbase, by omega, by omega, .inr ⟨by omega, e, rfl, by omega⟩⟩

theorem normalize_valid : ValidRange unsignedLimits start end_ ∧
      (FitsSigned flock handle size → ValidRange signedLimits start end_) := by
  obtain ⟨base, hbase, hstart, hlt, ⟨-, rfl⟩ | ⟨hlen, e, rfl, he⟩⟩ := normalize_cases h
  · have hne : start < rangeEndU128 none := hlt.trans (by decide)
    exact ⟨⟨hne, hlt.trans (by decide), fun e he => by cases he⟩,
      fun _ => ⟨hne, hlt, fun e he => by cases he⟩⟩
  have hne : start < rangeEndU128 (some e) := by
    have hlt : start < e := by omega
    exact hlt
  have hlen' := flock.lLen.toInt_lt
  refine ⟨⟨hne, hlt.trans (by decide), fun e' he' => ?_⟩, fun hfits => ⟨hne, hlt, fun e' he' => ?_⟩⟩
  · obtain rfl := Option.some.inj he'
    simp only [unsignedLimits]
    omega
  · obtain rfl := Option.some.inj he'
    have := hfits base hbase
    simp only [signedLimits]
    omega

end

structure Sound (L : Limits) (locks : List RecordLock) : Prop where
  valid : ValidTable L locks
  shared : Shared locks

theorem Sound.mono (h : Sound L l₂) (hsub : ∀ lock ∈ l₁, lock ∈ l₂) :
    Sound L l₁ := ⟨fun lock hmem => h.valid lock (hsub lock hmem), h.shared.mono hsub⟩

theorem setLock_sound {s : State} (h : Sound L s.locks) (cmd : ℕ) (path : String)
    (hr : ValidRange L start end_) (hmode : mode = fRdlck ∨ mode = fWrlck ∨ mode = fUnlck)
    (howner : L.owners owner) : Sound L (setLock cmd path owner mode start end_ s).2.locks := by
  unfold setLock
  split
  · split <;> exact h
  next hfree =>
  refine ⟨(applyLock_spec h.valid path hr hmode howner).1,
    applyLock_shared h.shared h.valid hr hmode howner fun hun => ?_⟩
  cases hconf : firstConflict path owner mode start end_ s.locks with
  | none => rfl
  | some lock => exact absurd ⟨hun, by rw [hconf]; rfl⟩ hfree

section Runs
variable {hal : HalMemory} {heap : Heap} {size : Handle → KernelResult ℕ} {c : Caller} {fd : ℤ}
  {cmd arg : ℕ} {M : Machine} {s : State} {e : Event} {P : Event → Prop}

theorem lockRequest_eq_ok
    (h : lockRequest hal heap size c fd arg M = .ok (handle, request, start, end_)) :
    c.fds[fd]? = some handle ∧ readFlockRequest hal heap arg M = .ok request ∧
      (request.lType = fRdlck ∨ request.lType = fWrlck ∨ request.lType = fUnlck) ∧
      normalizeLockRange request handle (size handle) = .ok (start, end_) := by
  unfold lockRequest at h
  split at h
  · cases h
  next handle' hfd =>
  split at h
  · cases h
  next request' hread =>
  split at h
  · cases h
  next hmode =>
  split at h
  · cases h
  next start' end' hrange =>
  cases h
  refine ⟨hfd, hread, ?_, hrange⟩
  by_contra hno
  push Not at hno
  exact hmode hno

inductive Event where
  | fcntl (c : Caller) (fd : ℤ) (cmd arg : ℕ) (size : Handle → KernelResult ℕ) (M : Machine)
  | close (c : Caller) (fd : ℤ)
  | closeRange (c : Caller) (first last : ℤ)
  | exit (tgid : ℕ) (groupExited : Bool)

def next (hal : HalMemory) (heap : Heap) (s : State) : Event → State
  | .fcntl c fd cmd arg size M => (sysFcntlLock hal heap size c fd cmd arg M s).2.2
  | .close c fd => (sysClose c fd s).2
  | .closeRange c first last => (sysCloseRange c first last s).2
  | .exit tgid groupExited => exitLocks tgid groupExited s

/-- States reached by calls that all have a property. -/
inductive Reachable (hal : HalMemory) (heap : Heap) (P : Event → Prop) : State → Prop where
  | boot (scheduler : Scheduler) : Reachable hal heap P ⟨[], scheduler⟩
  | step {s : State} {e : Event} :
    Reachable hal heap P s → P e → Reachable hal heap P (next hal heap s e)

def Within (hal : HalMemory) (heap : Heap) (L : Limits) : Event → Prop
  | .fcntl c fd cmd arg size M => cmd ≠ fGetlk → ∀ handle request start end_,
      lockRequest hal heap size c fd arg M = .ok (handle, request, start, end_) →
        ValidRange L start end_ ∧ L.owners c.tgid
  | _ => True

theorem within_unsigned (e : Event) : Within hal heap unsignedLimits e := by
  cases e with
  | fcntl c fd cmd arg size M =>
    intro _ handle request start end_ h
    exact ⟨(normalize_valid (lockRequest_eq_ok h).2.2.2).1, trivial⟩
  | _ => trivial

theorem sysFcntlLock_sound (h : Sound L s.locks)
    (hreq : Within hal heap L (.fcntl c fd cmd arg size M)) :
    Sound L (sysFcntlLock hal heap size c fd cmd arg M s).2.2.locks := by
  unfold sysFcntlLock
  split
  · exact h
  next handle request start end_ hok =>
  simp only
  split
  · split <;> exact h
  · next hcmd =>
    obtain ⟨hr, howner⟩ := hreq hcmd handle request start end_ hok
    exact setLock_sound h cmd handle.path hr (lockRequest_eq_ok hok).2.2.1 howner

theorem sysClose_sound (h : Sound L s.locks) (c : Caller) (fd : ℤ) :
    Sound L (sysClose c fd s).2.locks := by
  unfold sysClose
  split
  · exact h
  · exact h.mono fun lock hmem => mem_of_mem_filter hmem

theorem next_sound (h : Sound L s.locks) (he : Within hal heap L e) :
    Sound L (next hal heap s e).locks := by
  cases e with
  | fcntl c fd cmd arg size M => exact sysFcntlLock_sound h he
  | close c fd => exact sysClose_sound h c fd
  | closeRange c first last =>
    refine h.mono (List.foldlRecOn (motive := fun st : Bool × List RecordLock =>
      ∀ lock ∈ st.2, lock ∈ s.locks) _ _ (fun _ hmem => hmem) ?_)
    exact fun st hst _ _ lock hmem => hst lock (List.mem_of_mem_filter hmem)
  | exit tgid groupExited =>
    cases groupExited with
    | true => exact h.mono fun lock hmem => List.mem_of_mem_filter hmem
    | false => exact h

theorem reachable_sound (hP : ∀ e, P e → Within hal heap L e) (h : Reachable hal heap P s) :
    Sound L s.locks := by
  induction h with
  | boot scheduler =>
    exact ⟨fun lock hmem => absurd hmem not_mem_nil, fun p o o' t t' x _ h _ => absurd h holds_nil⟩
  | step _ he ih => exact next_sound ih (hP _ he)

/-- No run whatever lets two owners have one byte unless both read it. -/
theorem reachable_noConflict (h : Reachable hal heap P s) : NoConflict s.locks := by
  have hsound : Sound unsignedLimits s.locks := reachable_sound (fun e _ => within_unsigned e) h
  exact hsound.shared.noConflict hsound.valid

def lockLength (lock : RecordLock) : ℤ :=
  match lock.end_ with
  | none => 0
  | some e => e - lock.start

structure Describes (answer : FlockRequest) (lock : RecordLock) : Prop where
  mode : answer.lType = lock.lockType
  whence : answer.lWhence = seekSet
  start : answer.lStart.toInt = lock.start
  len : answer.lLen.toInt = lockLength lock
  pid : answer.lPid.toInt = lock.ownerTgid

/-- The calls end at offsets, and come from owners, that the signed fields of a record hold. -/
def Signed (hal : HalMemory) (heap : Heap) : Event → Prop
  | .fcntl c fd cmd arg size M => cmd ≠ fGetlk → c.tgid < 2 ^ 31 ∧
      ∀ handle request, c.fds[fd]? = some handle → readFlockRequest hal heap arg M = .ok request →
        FitsSigned request handle (size handle)
  | _ => True

theorem within_signed (he : Signed hal heap e) : Within hal heap signedLimits e := by
  cases e with
  | fcntl c fd cmd arg size M =>
    intro hcmd handle request start end_ h
    obtain ⟨hfd, hread, -, hrange⟩ := lockRequest_eq_ok h
    obtain ⟨howner, hfits⟩ := he hcmd
    exact ⟨(normalize_valid hrange).2 (hfits handle request hfd hread), howner⟩
  | _ => trivial

theorem lockAnswer_describes (hmode : request.lType ≠ fUnlck) (hl : ValidLock signedLimits lock) :
    Describes (lockAnswer request (some lock)) lock := by
  have hstart : lock.start < 2 ^ 63 := hl.range.start_lt
  have howner : lock.ownerTgid < 2 ^ 31 := hl.owner
  rw [lockAnswer, if_neg hmode]
  refine ⟨rfl, rfl, Int64.toInt_ofNat_of_lt hstart, ?_, Int32.toInt_ofNat_of_lt howner⟩
  simp only [lockLength]
  rcases hend : lock.end_ with _ | e
  · rfl
  have hlt : e < 2 ^ 63 := hl.range.end_lt e hend
  have hne : lock.start < e := by
    have := hl.range.nonempty
    rwa [hend] at this
  simp only [lockRangeLen]
  rw [Int64.toInt_ofNat_of_lt (by omega)]
  omega

/-- An answer says whether `F_SETLK` would succeed with the same request, and if not, which lock
is in the way. -/
structure Truthful (hal : HalMemory) (heap : Heap) (size : Handle → KernelResult ℕ) (c : Caller)
    (fd : ℤ) (arg : ℕ) (M : Machine) (s : State) (answer : FlockRequest) : Prop where
  free : answer.lType = fUnlck ↔ (sysFcntlLock hal heap size c fd fSetlk arg M s).1 = .ok 0
  taken : answer.lType ≠ fUnlck → ∃ handle request start end_,
    lockRequest hal heap size c fd arg M = .ok (handle, request, start, end_) ∧
      ∃ lock ∈ s.locks, lock.path = handle.path ∧ lock.ownerTgid ≠ c.tgid ∧
        lockModesConflict lock.lockType request.lType = true ∧
        rangeOverlaps lock.start lock.end_ start end_ = true ∧ Describes answer lock

theorem getLock_truthful (h : Sound signedLimits s.locks)
    (hreq : lockRequest hal heap size c fd arg M = .ok (handle, request, start, end_)) :
    Truthful hal heap size c fd arg M s (getLock handle.path c.tgid request start end_ s) := by
  have hset : fSetlk ≠ fGetlk := by decide
  by_cases hun : request.lType = fUnlck
  · refine ⟨?_, fun hne => absurd ?_ hne⟩
    · simp [sysFcntlLock, hreq, setLock, getLock, lockAnswer, hun, hset]
    · simp [getLock, lockAnswer, hun]
  rcases hconf : firstConflict handle.path c.tgid request.lType start end_ s.locks with _ | lock
  · refine ⟨?_, fun hne => absurd ?_ hne⟩
    · simp [sysFcntlLock, hreq, setLock, getLock, lockAnswer, hun, hset, hconf]
    · simp [getLock, lockAnswer, hun, hconf]
  obtain ⟨hmem, hconflicts⟩ := mem_filter.mp (minByStart_mem hconf)
  simp only [conflicts, Bool.and_eq_true, beq_iff_eq, bne_iff_ne] at hconflicts
  obtain ⟨⟨⟨hpath, howner⟩, hmodes⟩, hover⟩ := hconflicts
  have hl := h.valid lock hmem
  have htype : lock.lockType ≠ fUnlck := by
    rcases hl.mode with h | h <;> rw [h] <;> decide
  have hset' : fSetlk ≠ fSetlkw := by decide
  have hanswer : getLock handle.path c.tgid request start end_ s =
      lockAnswer request (some lock) := by rw [getLock, hconf]
  rw [hanswer]
  refine ⟨?_, fun _ => ⟨handle, request, start, end_, hreq, lock, hmem, hpath, howner, hmodes,
    hover, lockAnswer_describes hun hl⟩⟩
  simp [sysFcntlLock, hreq, setLock, lockAnswer, hun, hset, hset', hconf, htype]

/-- In a run of calls whose ranges and owners fit the record, locks never conflict, and
`F_GETLK` writes a true answer and does nothing else. -/
theorem locks_safe_and_reported (h : Reachable hal heap (Signed hal heap) s) : NoConflict s.locks ∧
      ∀ size c fd arg M handle request start end_,
        lockRequest hal heap size c fd arg M = .ok (handle, request, start, end_) →
        let answer := getLock handle.path c.tgid request start end_ s
        let written := writeFlockRequest hal arg answer M
        sysFcntlLock hal heap size c fd fGetlk arg M s = (written.1.map fun _ => 0, written.2, s) ∧
          Truthful hal heap size c fd arg M s answer := by
  have hsound : Sound signedLimits s.locks := reachable_sound (fun e => within_signed) h
  refine ⟨reachable_noConflict h,
    fun size c fd arg M handle request start end_ hreq => ⟨?_, getLock_truthful hsound hreq⟩⟩
  simp only [sysFcntlLock, hreq, if_pos]
  rcases writeFlockRequest hal arg (getLock handle.path c.tgid request start end_ s) M with ⟨r, M'⟩
  cases r <;> rfl

end Runs

def boardMemory : HalMemory := riscvVirtMemory 0x80400000

def givingHeap : Heap := ⟨fun _ => true, 0, id⟩

def recordMachine (flock : FlockRequest) : Machine where
  space := { newUser boardMemory with
    mappings := Std.ExtTreeMap.empty.insert 0x1000
      ⟨⟨0x1000, 4096, 0b11⟩, .owned ⟨0, ⟨0x80400000, 1⟩⟩⟩ }
  mem := copyBytes (fun _ => 0) 0x80400000 (encodeFlock flock)

def fileCaller (tgid : ℕ) : Caller := ⟨tgid, Std.ExtTreeMap.empty.insert 3 ⟨"/a", 0, false⟩⟩

def lockFile (tgid : ℕ) (start len : Int64) : Event :=
  .fcntl (fileCaller tgid) 3 fSetlk 0x1000 (fun _ => .ok 0)
    (recordMachine ⟨fWrlck, seekSet, start, len, 0⟩)

def longLock : State :=
  next boardMemory givingHeap
    (next boardMemory givingHeap ⟨[], Scheduler.new⟩ (lockFile 1 0 Int64.maxValue))
    (lockFile 1 Int64.maxValue Int64.maxValue)

def askFirst : FlockRequest := ⟨fWrlck, seekSet, 0, 1, 0⟩

/-- The merged lock is longer than the length field can say, and the answer has length -2. -/
theorem getlk_reports_negative_length : Reachable boardMemory givingHeap (fun _ => True) longLock ∧
      (sysFcntlLock boardMemory givingHeap (fun _ => .ok 0) (fileCaller 2) 3 fGetlk 0x1000
        (recordMachine askFirst) longLock).1 = .ok 0 ∧
      (getLock "/a" 2 askFirst 0 (some 1) longLock).lLen.toInt = -2 ∧
      ¬ Truthful boardMemory givingHeap (fun _ => .ok 0) (fileCaller 2) 3 0x1000
        (recordMachine askFirst) longLock (getLock "/a" 2 askFirst 0 (some 1) longLock) := by
  have hlocks : longLock.locks = [⟨"/a", 1, fWrlck, 0, some (2 ^ 64 - 2)⟩] := by decide +kernel
  have hlen : (getLock "/a" 2 askFirst 0 (some 1) longLock).lLen.toInt = -2 := by decide +kernel
  have htype : (getLock "/a" 2 askFirst 0 (some 1) longLock).lType ≠ fUnlck := by decide +kernel
  refine ⟨.step (.step (.boot _) trivial) trivial, ?_, hlen, fun htrue => ?_⟩
  · rw [← toOption_eq_some]
    decide +kernel
  · obtain ⟨-, -, -, -, -, lock, hmem, -, -, -, -, hdesc⟩ := htrue.taken htype
    rw [hlocks, mem_singleton] at hmem
    subst hmem
    have hbad := hlen.symm.trans hdesc.len
    revert hbad
    decide

theorem lockFile_signed : Signed boardMemory givingHeap (lockFile 1 0 10) := by
  refine fun _ => ⟨by decide, fun handle request _ hread base hbase => ?_⟩
  have hrequest : readFlockRequest boardMemory givingHeap 0x1000
      (recordMachine ⟨fWrlck, seekSet, 0, 10, 0⟩) = .ok ⟨fWrlck, seekSet, 0, 10, 0⟩ := by
    decide +kernel
  cases hrequest.symm.trans hread
  cases hbase
  decide

/-- After one process locks ten bytes, another is told of the lock. -/
theorem locks_safe_and_reported_ten_bytes :
    Truthful boardMemory givingHeap (fun _ => .ok 0) (fileCaller 2) 3 0x1000
      (recordMachine askFirst) (next boardMemory givingHeap ⟨[], Scheduler.new⟩ (lockFile 1 0 10))
      ⟨fWrlck, seekSet, 0, 10, 1⟩ := by
  have hreach : Reachable boardMemory givingHeap (Signed boardMemory givingHeap)
      (next boardMemory givingHeap ⟨[], Scheduler.new⟩ (lockFile 1 0 10)) :=
    .step (.boot _) lockFile_signed
  have hanswer : getLock "/a" 2 askFirst 0 (some 1)
      (next boardMemory givingHeap ⟨[], Scheduler.new⟩ (lockFile 1 0 10)) =
        ⟨fWrlck, seekSet, 0, 10, 1⟩ := by decide +kernel
  have htrue := ((locks_safe_and_reported hreach).2 (fun _ => .ok 0) (fileCaller 2) 3 0x1000
    (recordMachine askFirst) ⟨"/a", 0, false⟩ askFirst 0 (some 1)
    (by rw [← toOption_eq_some]; decide +kernel)).2
  exact hanswer ▸ htrue

end LockSafety
