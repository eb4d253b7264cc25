import Whuse.ByteFields
import Whuse.ElfLoader
import Whuse.NameCalls
import Whuse.SharedOffsets

/-! How directories are listed. The cursor counts entries and the buffer bytes; the first record of
a call is given even when the buffer has no room for it. -/
namespace DirectoryListing

open List

section Enumeration

open NameSpace NameSpace.KernelVfs ByteFields ElfLoader Function

/-- The fields of `linux_dirent64`, the next record found by the length of this one. -/
inductive Decodes : List UInt8 → List (List UInt8 × ℕ) → Prop where
  | done : Decodes [] []
  | record {ino off len name rest : List UInt8} {fileType : UInt8} {pad : ℕ} {entries} :
      ino.length = 8 → off.length = 8 → len.length = 2 → pad < 8 → fromLeBytes len % 8 = 0 →
      fromLeBytes len = (ino ++ off ++ len ++ fileType :: (name ++ [0])).length + pad →
      Decodes rest entries →
      Decodes (ino ++ off ++ len ++ fileType :: (name ++ [0]) ++ replicate pad 0 ++ rest)
        ((name, fromLeBytes off) :: entries)

variable {h : FileHandle} {v : KernelVfs} {es : List (String × ℕ)} {out : List UInt8}

end Enumeration

section Bounds

open AddressSpace ProcessTable DescriptorTable AliasGroups PositionedFiles OffsetCalls SharedOffsets

/-- The names of a directory in the order of its listing. -/
def listed (a : Answers) (files : Files) (node : ℕ) : List String :=
  match files node with
  | .directory names => names
  | .ext4Dir _ => (a.ext4Names node).toOption.getD []
  | _ => []

/-- The handle of a descriptor when it has taken the offset of its leader. -/
def synced (fd : ℤ) (s : State) : Option OpenFile :=
  match s.table.syncFdOffsetFromAlias fd with
  | (.error _, _) => none
  | (.ok (), t) => t.fds[fd]?

def nextName (a : Answers) (fd : ℤ) (s : State) : Option String :=
  (synced fd s).bind fun h => (listed a s.files h.node)[h.offset]?

/-- How many bytes are written to the buffer. -/
def handed (a : Answers) (fd : ℤ) (count : ℕ) (s : State) : ℕ :=
  match withSynced fd (getdents a count) s with
  | some (.ok n, _) => n
  | _ => 0

structure Respects (a : Answers) (fd : ℤ) (count : ℕ) (s : State) : Prop where
  bounded : handed a fd count s ≤ count
  reported : ∀ stores n u, sysGetdents64 a fd count stores s = some (.ok n, u) →
    n = handed a fd count s
  refused : ∀ name, nextName a fd s = some name → count < reclen name → ∀ stores, ∃ e u,
    sysGetdents64 a fd count stores s = some (.error e, u) ∧
      u.table.fds[fd]?.map OpenFile.offset = (synced fd s).map OpenFile.offset

variable {a : Answers} {fd : ℤ} {count : ℕ} {s : State} {files : Files} {h : OpenFile}

theorem emit_le (names : List String) {emitted len : ℕ} (hstarted : emitted ≠ 0) (hlen : len ≤ count) :
    (emit count names emitted len).2 ≤ count := by
  induction names generalizing emitted len with
  | nil => exact hlen
  | cons name names ih =>
    rw [emit]
    split
    · exact hlen
    · next hfits => exact ih (Nat.succ_ne_zero _) (not_lt.mp fun h => hfits ⟨hstarted, h⟩)

/-- How many bytes a call gives of a directory. -/
def given (a : Answers) (count : ℕ) (files : Files) (h : OpenFile) : ℕ :=
  if count = 0 then 0 else (emit count ((listed a files h.node).drop h.offset) 0 0).2

theorem given_le
    (hfits : ∀ name, (listed a files h.node)[h.offset]? = some name → reclen name ≤ count) :
    given a count files h ≤ count := by
  unfold given
  split
  · exact Nat.zero_le _
  rw [← head?_drop] at hfits
  cases hnames : (listed a files h.node).drop h.offset with
  | nil => exact Nat.zero_le _
  | cons name names =>
    rw [emit, if_neg (fun hfull => hfull.1 rfl), Nat.zero_add, Nat.zero_add]
    exact emit_le names Nat.one_ne_zero (hfits name (by rw [hnames, head?_cons]))

theorem getdents_cases (a : Answers) (count : ℕ) (h : OpenFile) (files : Files) :
    ∃ r h' files', getdents a count h files = some (r, h', files') ∧
      (r = .ok (given a count files h) ∨ listed a files h.node = [] ∧ ∃ e, r = .error e) := by
  simp only [getdents, given]
  by_cases hcount : count = 0
  · simp only [if_pos hcount]
    exact ⟨_, _, _, rfl, .inl rfl⟩
  simp only [if_neg hcount, listed]
  cases files h.node with
  | directory names => exact ⟨_, _, _, rfl, .inl rfl⟩
  | ext4Dir size =>
    rcases a.ext4Names h.node with e | names
    · exact ⟨_, _, _, rfl, .inr ⟨rfl, e, rfl⟩⟩
    by_cases hpast : names.length < h.offset
    · simp only [if_pos hpast, Except.toOption, Option.getD_some, drop_eq_nil_of_le hpast.le]
      exact ⟨_, _, _, rfl, .inl rfl⟩
    · simp only [if_neg hpast]
      exact ⟨_, _, _, rfl, .inl rfl⟩
  | _ => exact ⟨_, _, _, rfl, .inr ⟨rfl, _, rfl⟩⟩

theorem withSynced_cases (a : Answers) (fd : ℤ) (count : ℕ) (s : State) :
    ∃ r u, withSynced fd (getdents a count) s = some (r, u) ∧
      ((∃ h, synced fd s = some h ∧ r = .ok (given a count s.files h)) ∨
        nextName a fd s = none ∧ ∃ e, r = .error e) := by
  simp only [nextName, synced, withSynced]
  rcases s.table.syncFdOffsetFromAlias fd with ⟨e | _, t⟩
  · exact ⟨_, _, rfl, .inr ⟨rfl, e, rfl⟩⟩
  rcases hget : t.fds[fd]? with _ | h
  · simp only [FdTable.fd, hget]
    exact ⟨_, _, rfl, .inr ⟨rfl, _, rfl⟩⟩
  obtain ⟨r, h', files, heq, hcases⟩ := getdents_cases a count h s.files
  have hput : (putHandle fd h' t).fds[fd]? = some h' := (putHandle_get fd).trans (if_pos rfl)
  rcases hcases with rfl | ⟨hnil, e, rfl⟩ <;>
    simp only [fd_eq hget, heq, Option.map_some, FdTable.syncFdOffsetToAliases,
      FdTable.fdAliasLeader, fd_eq hput]
  · exact ⟨_, _, rfl, .inl ⟨h, hget, rfl⟩⟩
  · exact ⟨_, _, rfl, .inr ⟨by rw [hget, Option.bind_some, hnil]; rfl, e, rfl⟩⟩

/-- A call keeps to its buffer exactly if the next entry, where there is one, fits into it. -/
theorem getdents_respects_iff (a : Answers) (fd : ℤ) (count : ℕ) (s : State) :
    Respects a fd count s ↔ ∀ name, nextName a fd s = some name → reclen name ≤ count := by
  obtain ⟨r, u, hrun, ⟨h, hs, rfl⟩ | ⟨hnone, e, rfl⟩⟩ := withSynced_cases a fd count s
  · have hhanded : handed a fd count s = given a count s.files h := by rw [handed, hrun]
    constructor
    · intro hrespects name hname
      by_contra hlong
      obtain ⟨e, u', hrefused, -⟩ := hrespects.refused name hname (not_le.mp hlong) true
      rw [sysGetdents64, hrun] at hrefused
      cases hrefused
    · intro hfits
      refine ⟨?_, fun stores n u' hok => ?_, fun name hname hlong => ?_⟩
      · rw [hhanded]
        exact given_le fun name hname => hfits name (by rw [nextName, hs]; exact hname)
      · rw [sysGetdents64, hrun] at hok
        cases stores <;> cases hok
        exact hhanded.symm
      · exact absurd (hfits name hname) (not_le.mpr hlong)
  · have hhanded : handed a fd count s = 0 := by rw [handed, hrun]
    rw [hnone]
    refine iff_of_true ⟨hhanded ▸ Nat.zero_le _, fun stores n u' hok => ?_, ?_⟩ nofun
    · rw [sysGetdents64, hrun] at hok
      cases hok
    · exact fun name hname => absurd (hnone.symm.trans hname) nofun

/-- A directory with one entry: its record of 24 bytes is written to a buffer of one. -/
def lonely : State := ⟨FdTable.seeded ⟨0, 0, 0⟩ ⟨0, 0, 0⟩ ⟨0, 0, 0⟩, fun _ => .directory ["a"]⟩

theorem getdents_overruns_buffer : handed plain 0 1 lonely = 24 ∧ ¬ Respects plain 0 1 lonely := by
  have hhanded : handed plain 0 1 lonely = 24 := by decide +kernel
  refine ⟨hhanded, fun hrespects => ?_⟩
  have hbounded := hrespects.bounded
  rw [hhanded] at hbounded
  omega

end Bounds

end DirectoryListing
