import Whuse.SectorReads

/-! Reading a range of a file through a library that may deliver fewer bytes than were asked for. -/
namespace RangedReads

open ByteFields List

inductive Ext4Error where
  | notFound | notADirectory | isADirectory | malformedPath | notAbsolute | notASymlink
  | pathTooLong | tooManySymlinks | fileTooLarge | isASpecialFile | io | other

def einval : ℤ := 22
def maxRangeRead : ℕ := 256 * 1024

def mapExt4Error : Ext4Error → ℤ
  | .notFound => 2
  | .notADirectory => 20
  | .isADirectory => 21
  | .io => 5
  | .other => 95
  | _ => einval

/-- The calls of the library. A read is asked for at most so many bytes. -/
structure Library (Path File : Type) where
  openFile : Path → Except Ext4Error File
  seekTo : ℕ → File → Except Ext4Error File
  readBytes : ℕ → File → Except Ext4Error (List UInt8 × File)

variable {Path File : Type} {lib : Library Path File} {bytes : List UInt8} {file : File}

/-- A chunk, and the file if it has not ended. -/
def fillChunk (lib : Library Path File) :
    ℕ → List UInt8 → ℕ → File → Option (Except ℤ (List UInt8 × Option File))
  | 0, _, _, _ => none
  | fuel + 1, chunk, filled, file =>
    if filled < chunk.length then
      match lib.readBytes (chunk.length - filled) file with
      | .error err => some (.error (mapExt4Error err))
      | .ok (read, file) =>
        if read = [] then some (.ok (chunk.take filled, none))
        else fillChunk lib fuel (put chunk filled read) (filled + read.length) file
    else some (.ok (chunk, some file))

def readChunks (lib : Library Path File) (len : ℕ) :
    ℕ → List UInt8 → File → Option (Except ℤ (List UInt8))
  | 0, _, _ => none
  | fuel + 1, out, file =>
    if out.length < len then
      let chunkLen := min (len - out.length) maxRangeRead
      match fillChunk lib (chunkLen + 1) (replicate chunkLen 0) 0 file with
      | none => none
      | some (.error code) => some (.error code)
      | some (.ok (chunk, none)) => some (.ok (out ++ chunk))
      | some (.ok (chunk, some file)) => readChunks lib len fuel (out ++ chunk) file
    else some (.ok out)

def readRange (lib : Library Path File) (path : Path) (offset len : ℕ) :
    Option (Except ℤ (List UInt8)) :=
  if len = 0 then some (.ok [])
  else
    match lib.openFile path with
    | .error err => some (.error (mapExt4Error err))
    | .ok file =>
      match lib.seekTo offset file with
      | .error err =>
        let code := mapExt4Error err
        some (if code = einval then .ok [] else .error code)
      | .ok file => readChunks lib len (len + 1) [] file

/-- The library delivers the files: `At` says which bytes an open file has still to deliver. -/
structure Delivers (lib : Library Path File) (At : File → List UInt8 → Prop)
    (files : Path → List UInt8) : Prop where
  seek : ∀ path file offset moved, lib.openFile path = .ok file →
    lib.seekTo offset file = .ok moved → At moved ((files path).drop offset)
  read : ∀ file rest len, At file rest → 0 < len → ∃ bytes later next,
    lib.readBytes len file = .ok (bytes, next) ∧ At next later ∧ rest = bytes ++ later ∧
      bytes.length ≤ len ∧ (bytes = [] → rest = [])

variable {At : File → List UInt8 → Prop} {files : Path → List UInt8} {rest out : List UInt8}
  {fuel len : ℕ}

/-- The chunk is `got` followed by what has still to be filled. -/
theorem fillChunk_fills (h : Delivers lib At files) {got spare : List UInt8} (hat : At file rest)
    (hfuel : spare.length < fuel) :
    rest.length < spare.length ∧
        fillChunk lib fuel (got ++ spare) got.length file = some (.ok (got ++ rest, none)) ∨
      ∃ next, fillChunk lib fuel (got ++ spare) got.length file =
        some (.ok (got ++ rest.take spare.length, some next)) ∧
        spare.length ≤ rest.length ∧ At next (rest.drop spare.length) := by
  induction fuel generalizing got spare rest file with
  | zero => cases hfuel
  | succ fuel ih =>
    rw [fillChunk, length_append, Nat.add_sub_cancel_left]
    by_cases hspare : spare.length = 0
    · rw [length_eq_zero_iff.mp hspare]
      exact .inr ⟨file, by simp, Nat.zero_le _, hat⟩
    obtain ⟨bytes, later, next, hread, hnext, rfl, hlen, hend⟩ :=
      h.read file rest spare.length hat (by omega)
    rw [if_pos (by omega), hread]
    by_cases hbytes : bytes = []
    · rw [hend hbytes]
      exact .inl ⟨Nat.pos_of_ne_zero hspare, by simp [hbytes]⟩
    have hsome := length_pos_iff.mpr hbytes
    have hrest := @ih next later (got ++ bytes) (spare.drop bytes.length) hnext
      (by rw [length_drop]; omega)
    rw [length_drop, length_append] at hrest
    simp only [if_neg hbytes, SectorReads.put_append, ← append_assoc got]
    rw [take_append, take_of_length_le hlen, drop_append, drop_of_length_le hlen, length_append,
      ← append_assoc got]
    refine hrest.imp (And.imp_left fun _ => by omega) ?_
    rintro ⟨last, hfill, hle, hlast⟩
    exact ⟨last, hfill, by omega, hlast⟩

theorem readChunks_reads (h : Delivers lib At files) (hat : At file rest) (hout : out.length ≤ len)
    (hfuel : len - out.length < fuel) :
    readChunks lib len fuel out file = some (.ok (out ++ rest.take (len - out.length))) := by
  induction fuel generalizing out rest file with
  | zero => cases hfuel
  | succ fuel ih =>
    rw [readChunks]
    by_cases hdone : len ≤ out.length
    · rw [if_neg (not_lt.mpr hdone), Nat.sub_eq_zero_of_le hdone, take_zero, append_nil]
    have hmax : 0 < maxRangeRead := by decide
    obtain ⟨n, hn⟩ : ∃ n, n = min (len - out.length) maxRangeRead := ⟨_, rfl⟩
    have hfill := @fillChunk_fills _ _ _ _ _ _ _ (n + 1) h [] (replicate n 0) hat (by simp)
    rw [length_replicate, nil_append, nil_append, nil_append, length_nil] at hfill
    simp only [if_pos (not_le.mp hdone), ← hn]
    rcases hfill with ⟨hshort, hfill⟩ | ⟨next, hfill, hle, hnext⟩
    · rw [hfill, take_of_length_le (by omega)]
    · have hlen : (out ++ rest.take n).length = out.length + n := by
        rw [length_append, length_take, min_eq_left hle]
      simp only [hfill]
      rw [ih hnext (by omega) (by omega), append_assoc, ← take_add]
      congr 4
      omega

/-- Where the position is taken the bytes of the range are returned; a refused position is an
error, or nothing is read if it is called invalid. -/
theorem read_range_complete (h : Delivers lib At files) (path : Path) (offset len : ℕ)
    (hopen : lib.openFile path = .ok file) :
    (∀ moved, lib.seekTo offset file = .ok moved →
      readRange lib path offset len = some (.ok (field (files path) offset len))) ∧
    ∀ err, lib.seekTo offset file = .error err → len ≠ 0 → readRange lib path offset len =
      some (if mapExt4Error err = einval then .ok [] else .error (mapExt4Error err)) := by
  refine ⟨fun moved hseek => ?_, fun err hseek hlen => by simp [readRange, hlen, hopen, hseek]⟩
  unfold readRange
  split
  · next hlen => simp [hlen, field]
  · simp only [hopen, hseek]
    exact readChunks_reads h (h.seek path file offset moved hopen hseek) (Nat.zero_le _) (by simp)

/-- Delivers three bytes one at a time. -/
def slow : Library Unit (List UInt8) where
  openFile _ := .ok [1, 2, 3]
  seekTo offset file := .ok (file.drop offset)
  readBytes _ file := .ok (file.take 1, file.drop 1)

theorem read_range_complete_slow : readRange slow () 1 5 = some (.ok [2, 3]) := by
  have hslow : Delivers slow (· = ·) fun _ => [1, 2, 3] := by
    refine ⟨fun _ _ _ _ hopen hseek => ?_, fun file rest len hat hlen => ?_⟩
    · cases hopen
      exact (Except.ok.inj hseek).symm
    · subst hat
      refine ⟨_, _, _, rfl, rfl, (take_append_drop 1 file).symm, ?_, ?_⟩
      · rw [length_take]
        omega
      · cases file <;> simp
  exact (read_range_complete hslow () 1 5 rfl).1 _ rfl

end RangedReads
