import Whuse.LockSafety

/-! # The normal form of the lock table

Sorting and merging leave the locks of one owner on one file apart and in order, and no two of
the same type touch.
-/
namespace LockNormalForm

open RecordLocks LockSafety List

/-- No byte of a file is granted twice to one owner. -/
def Apart (a b : RecordLock) : Prop :=
  ∀ {p o t t' x}, Grants a p o t x → Grants b p o t' x → False

def streamKey (lock : RecordLock) : String ×ₗ ℕ := toLex (lock.path, lock.ownerTgid)

/-- The table goes by files and owners, and for each of them upwards. -/
def Ascends (a b : RecordLock) : Prop :=
  streamKey a ≤ streamKey b ∧ (streamKey a = streamKey b → rangeEndU128 a.end_ ≤ b.start)

/-- Moreover locks of one type do not touch. -/
def Normal (a b : RecordLock) : Prop :=
  Ascends a b ∧
    (streamKey a = streamKey b → a.lockType = b.lockType → rangeEndU128 a.end_ < b.start)

variable {L : Limits} {locks merged rest : List RecordLock} {lock a b piece last : RecordLock}
  {path p : String} {owner start o x : ℕ} {end_ : Option ℕ} {mode t : Int16}

theorem Apart.symm (h : Apart a b) : Apart b a := fun hb ha => h ha hb

theorem streamKey_eq : streamKey a = streamKey b ↔ a.path = b.path ∧ a.ownerTgid = b.ownerTgid := by
  simp [streamKey]

theorem grants_of_piece (hr : ValidRange L start end_) (hl : ValidLock L lock)
    (hpiece : piece ∈ cutLock path owner start end_ lock) (hg : Grants piece p o t x) :
    Grants lock p o t x ∧ ¬ InRange path owner start end_ p o x :=
  (cutLock_holds hr hl p o t x).mp ⟨piece, hpiece, hg⟩

theorem cutLock_apart (hr : ValidRange L start end_) (hl : ValidLock L lock) :
    (cutLock path owner start end_ lock).Pairwise Apart := by
  unfold cutLock
  split
  · by_cases hbelow : lock.start < start
    · by_cases habove : rangeEndU128 end_ < rangeEndU128 lock.end_
      · rw [if_pos hbelow, if_pos habove]
        refine pairwise_pair.mpr fun {_ _ _ _ x} h₁ h₂ => ?_
        have hupper : x < start := rangeEnd_endOf (.inl hr.start_lt) ▸ h₁.upper
        have hlower : rangeEndU128 end_ ≤ x :=
          Nat.mod_eq_of_lt ((end_lt_of_lt hr hl habove).trans_le L.bound_le) ▸ h₂.lower
        have hnonempty := hr.nonempty
        omega
      · split <;> simp
    · rw [if_neg hbelow]
      split <;> simp
  · exact pairwise_singleton Apart lock

theorem cut_apart (hr : ValidRange L start end_) (hvalid : ValidTable L locks)
    (hapart : locks.Pairwise Apart) :
    (locks.flatMap (cutLock path owner start end_)).Pairwise Apart := by
  rw [pairwise_flatMap]
  refine ⟨fun lock hmem => cutLock_apart hr (hvalid lock hmem), ?_⟩
  refine hapart.imp_of_mem fun {a b} ha hb hab x hx y hy => ?_
  intro _ _ _ _ _ h₁ h₂
  exact hab (grants_of_piece hr (hvalid a ha) hx h₁).1 (grants_of_piece hr (hvalid b hb) hy h₂).1

theorem add_apart (hr : ValidRange L start end_) (hvalid : ValidTable L locks)
    (hapart : locks.Pairwise Apart) :
    (locks.flatMap (cutLock path owner start end_) ++
      [RecordLock.mk path owner mode start end_]).Pairwise Apart := by
  refine pairwise_append.mpr ⟨cut_apart hr hvalid hapart, pairwise_singleton _ _, ?_⟩
  intro piece hpiece new hnew p o t t' x h₁ h₂
  rw [mem_singleton.mp hnew] at h₂
  obtain ⟨lock, hmem, hpiece⟩ := mem_flatMap.mp hpiece
  exact (grants_of_piece hr (hvalid lock hmem) hpiece h₁).2
    ⟨h₂.path.symm, h₂.owner.symm, h₂.lower, h₂.upper⟩

theorem ascends_of_key (hb : ValidLock L b) (h : lockKey a ≤ lockKey b) (hapart : Apart a b) :
    Ascends a b := by
  have horder := inOrder_of_key h
  constructor
  · simp only [lockKey, Prod.Lex.toLex_le_toLex] at h
    simp only [streamKey, Prod.Lex.toLex_le_toLex]
    rcases h with hlt | ⟨heq, hlt | ⟨howner, -⟩⟩
    · exact .inl hlt
    · exact .inr ⟨heq, hlt.le⟩
    · exact .inr ⟨heq, howner.le⟩
  · intro hsame
    obtain ⟨hp, ho⟩ := streamKey_eq.mp hsame
    -- Otherwise the first byte of the later lock is in both.
    by_contra hover
    exact hapart (p := a.path) (o := a.ownerTgid) (x := b.start)
      ⟨rfl, rfl, rfl, horder hp ho, by omega⟩ ⟨hp.symm, ho.symm, rfl, le_rfl, hb.range.nonempty⟩

theorem sortLocks_ascends (hvalid : ValidTable L locks) (hapart : locks.Pairwise Apart) :
    (sortLocks locks).Pairwise Ascends := by
  have hperm := sortLocks_perm locks
  have hkeys : (sortLocks locks).Pairwise fun a b => lockKey a ≤ lockKey b :=
    pairwise_insertionSort _ locks
  have hsorted := (hperm.pairwise_iff fun {a b} (h : Apart a b) => h.symm).mpr hapart
  refine (hkeys.and hsorted).imp_of_mem fun {a b} _ hb h => ?_
  exact ascends_of_key (hvalid b (hperm.mem_iff.mp hb)) h.1 h.2

/-- The lock that is not merged comes after all others, and touches none of its type. -/
theorem normal_push (hlast : ValidLock L last) (hnormal : ∀ x ∈ rest, Normal x last)
    (hnext : ∀ x ∈ last :: rest, Ascends x lock)
    (hnot : ¬ (sameStream last lock && decide (lock.start ≤ rangeEndU128 last.end_)) = true) :
    ∀ x ∈ last :: rest, Normal x lock := by
  intro x hx
  refine ⟨hnext x hx, fun hsame hmode => ?_⟩
  have hnextLast := hnext last mem_cons_self
  rcases mem_cons.mp hx with rfl | hrest
  · obtain ⟨hp, ho⟩ := streamKey_eq.mp hsame
    by_contra htouch
    exact hnot (by simp [sameStream, hp, hmode]; omega)
  -- The last lock lies in between, on the same file.
  obtain ⟨⟨hle, hend⟩, -⟩ := hnormal x hrest
  have hbetween : streamKey x = streamKey last := le_antisymm hle (hsame ▸ hnextLast.1)
  have hnonempty := hlast.range.nonempty
  have hfirst := hend hbetween
  have hsecond := hnextLast.2 (hbetween ▸ hsame)
  omega

theorem foldl_mergeStep_normal (hmerged : ValidTable L merged) (hvalid : ValidTable L locks)
    (hnormal : merged.Pairwise fun b a => Normal a b) (hlocks : locks.Pairwise Ascends)
    (hnext : ∀ x ∈ merged, ∀ lock ∈ locks, Ascends x lock) :
    (locks.foldl mergeStep merged).Pairwise fun b a => Normal a b := by
  induction locks generalizing merged with
  | nil => exact hnormal
  | cons lock locks ih =>
    obtain ⟨hfirst, hrest⟩ := pairwise_cons.mp hlocks
    have hl := hvalid lock mem_cons_self
    refine ih (mergeStep_valid hmerged hl)
      (fun other hmem => hvalid other (mem_cons_of_mem _ hmem)) ?_ hrest ?_
    · unfold mergeStep
      rcases merged with _ | ⟨last, rest⟩
      · exact pairwise_singleton _ _
      obtain ⟨hbefore, hpairs⟩ := pairwise_cons.mp hnormal
      simp only
      split
      · exact pairwise_cons.mpr ⟨hbefore, hpairs⟩
      · next hnot =>
        exact pairwise_cons.mpr ⟨normal_push (hmerged last mem_cons_self) hbefore
          (fun x hx => hnext x hx lock mem_cons_self) hnot, hnormal⟩
    · intro x hx other hother
      have hold : ∀ y ∈ merged, Ascends y other := fun y hy =>
        hnext y hy other (mem_cons_of_mem _ hother)
      unfold mergeStep at hx
      rcases merged with _ | ⟨last, rest⟩
      · rw [mem_singleton.mp hx]
        exact hfirst other hother
      simp only at hx
      split at hx
      · next hsame =>
        rcases mem_cons.mp hx with rfl | hx
        · simp only [sameStream, Bool.and_eq_true, beq_iff_eq] at hsame
          obtain ⟨⟨⟨hp, ho⟩, -⟩, -⟩ := hsame
          have hstream : streamKey lock = streamKey last := streamKey_eq.mpr ⟨hp.symm, ho.symm⟩
          have hlast := hold last mem_cons_self
          refine ⟨hlast.1, fun h => ?_⟩
          rw [rangeEnd_endOf (max_end_cases (hmerged last mem_cons_self) hl)]
          exact max_le (hlast.2 h) ((hfirst other hother).2 (hstream.trans h))
        · exact hold x (mem_cons_of_mem _ hx)
      · rcases mem_cons.mp hx with rfl | hx
        · exact hfirst other hother
        · exact hold x hx

theorem mergeLocks_normal (hvalid : ValidTable L locks) (hapart : locks.Pairwise Apart) :
    (mergeLocks (sortLocks locks)).Pairwise Normal := by
  have hsorted : ValidTable L (sortLocks locks) := fun lock hmem =>
    hvalid lock ((sortLocks_perm locks).mem_iff.mp hmem)
  rw [mergeLocks, pairwise_reverse]
  apply foldl_mergeStep_normal (L := L) _ hsorted List.Pairwise.nil (sortLocks_ascends hvalid hapart)
  · intro x hx
    cases hx
  · intro x hx
    cases hx

/-- Taking or giving up a range changes the bytes of the range for its owner and no others, leaves
the table in its normal form, and is reported if it changed anything. -/
theorem applyLock_normal_form (hvalid : ValidTable unsignedLimits locks)
    (hapart : locks.Pairwise Apart) (path : String) (owner : ℕ)
    (hr : ValidRange unsignedLimits start end_)
    (hmode : mode = fRdlck ∨ mode = fWrlck ∨ mode = fUnlck) :
    (∀ p o t x, Holds (applyLock path owner mode start end_ locks).2 p o t x ↔
      Holds locks p o t x ∧ ¬ InRange path owner start end_ p o x ∨
        InRange path owner start end_ p o x ∧ t = mode ∧ mode ≠ fUnlck) ∧
    (applyLock path owner mode start end_ locks).2.Pairwise Normal ∧
    ((applyLock path owner mode start end_ locks).1 = true ↔ mode ≠ fUnlck ∨
      ∃ t x, Holds locks path owner t x ∧ InRange path owner start end_ path owner x) := by
  have howner : unsignedLimits.owners owner := trivial
  obtain ⟨-, hholds⟩ := applyLock_spec hvalid path hr hmode howner
  refine ⟨hholds, ?_, ?_⟩
  · unfold applyLock
    split
    · next hlock =>
      exact mergeLocks_normal (add_valid hvalid hr hmode hlock howner) (add_apart hr hvalid hapart)
    · exact mergeLocks_normal (cut_valid hvalid hr) (cut_apart hr hvalid hapart)
  · have hany : locks.any (isCut path owner start end_) = true ↔
        ∃ t x, Holds locks path owner t x ∧ InRange path owner start end_ path owner x := by
      rw [List.any_eq_true]
      constructor
      · rintro ⟨lock, hmem, hcut⟩
        obtain ⟨x, hg, hin⟩ := (isCut_iff hr (hvalid lock hmem)).mp hcut
        exact ⟨lock.lockType, x, ⟨lock, hmem, hg⟩, hin⟩
      · rintro ⟨t, x, ⟨lock, hmem, hg⟩, hin⟩
        exact ⟨lock, hmem, (isCut_iff hr (hvalid lock hmem)).mpr ⟨x, hg.mode ▸ hg, hin⟩⟩
    simp only [applyLock, Bool.or_eq_true, hany, bne_iff_ne]
    exact or_comm

theorem applyLock_normal_form_split :
    (applyLock "f" 1 fWrlck 3 (some 5) [⟨"f", 1, fRdlck, 0, some 10⟩]).2 =
      [⟨"f", 1, fRdlck, 0, some 3⟩, ⟨"f", 1, fWrlck, 3, some 5⟩, ⟨"f", 1, fRdlck, 5, some 10⟩] ∧
    (applyLock "f" 1 fWrlck 3 (some 5) [⟨"f", 1, fRdlck, 0, some 10⟩]).2.Pairwise Normal := by
  refine ⟨by decide +kernel, ?_⟩
  refine (applyLock_normal_form ?_ (pairwise_singleton _ _) "f" 1
    ⟨by decide, by decide, by simp [unsignedLimits]⟩ (.inr (.inl rfl))).2.1
  intro lock hmem
  rw [mem_singleton.mp hmem]
  exact ⟨⟨by decide, by decide, by simp [unsignedLimits]⟩, .inl rfl, trivial⟩

end LockNormalForm
