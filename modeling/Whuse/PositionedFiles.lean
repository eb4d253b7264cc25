import Whuse.DescriptorTable

/-! What the operations on a handle do to its offset. Files in memory and on the image are read at
the offset of the handle; pipes, sockets and devices keep their own position. -/
namespace PositionedFiles

open MachineWord AddressSpace ProcessTable DescriptorTable Function

def enomem : ℕ := 12
def enotdir : ℕ := 20
def eisdir : ℕ := 21
def enospc : ℕ := 28
def erofs : ℕ := 30

inductive Node where
  | file (buf : List UInt8)
  | ext4File (cached : Option (List UInt8)) (size : ℕ)
  | directory (names : List String)
  | ext4Dir (size : ℕ)
  | stream (isPipe seekable : Bool) (size : ℕ)

def Files := ℕ → Node

/-- What the image, the heap and the files without a position answer during a call. None of them
says that a descriptor is bad. -/
structure Answers where
  streamRead : ℕ → ℕ → KernelResult (List UInt8)
  streamWrite : ℕ → List UInt8 → KernelResult ℕ
  ext4Read : ℕ → ℕ → ℕ → KernelResult (List UInt8)
  ext4Names : ℕ → KernelResult (List String)
  room : ℕ → Bool
  streamRead_ne : ∀ node len, streamRead node len ≠ .error ebadf
  streamWrite_ne : ∀ node data, streamWrite node data ≠ .error ebadf
  ext4Read_ne : ∀ node offset len, ext4Read node offset len ≠ .error ebadf
  ext4Names_ne : ∀ node, ext4Names node ≠ .error ebadf

/-- Nothing is read from elsewhere. -/
def Answers.quiet (written : List UInt8 → ℕ) (room : ℕ → Bool) : Answers where
  streamRead _ _ := .ok []
  streamWrite _ data := .ok (written data)
  ext4Read _ _ _ := .ok []
  ext4Names _ := .ok []
  room := room
  streamRead_ne := nofun
  streamWrite_ne := nofun
  ext4Read_ne := nofun
  ext4Names_ne := nofun

/-- An operation on a handle: `none` is a panic. -/
abbrev HandleOp (α : Type) := OpenFile → Files → Option (KernelResult α × OpenFile × Files)

section Operations

variable (a : Answers)

/-- The sum of start and length is one of 64 bits; a range that ends before it starts panics. -/
def readBuf (buf : List UInt8) (len : ℕ) (h : OpenFile) : Option (List UInt8 × OpenFile) :=
  let start := min h.offset buf.length
  let stop := min ((start + len) % 2 ^ 64) buf.length
  if stop < start then none
  else some ((buf.drop start).take (stop - start), { h with offset := stop })

def read (len : ℕ) : HandleOp (List UInt8) := fun h files =>
  match files h.node with
  | .directory _ => some (.error eisdir, h, files)
  | .ext4Dir _ => some (.error eisdir, h, files)
  | .file buf => (readBuf buf len h).map fun (bytes, h) => (.ok bytes, h, files)
  | .ext4File (some cached) _ => (readBuf cached len h).map fun (bytes, h) => (.ok bytes, h, files)
  | .ext4File none _ =>
    match a.ext4Read h.node h.offset len with
    | .error e => some (.error e, h, files)
    | .ok bytes =>
      some (.ok bytes, { h with offset := (h.offset + bytes.length) % 2 ^ 64 }, files)
  | .stream _ _ _ => some (a.streamRead h.node len, h, files)

def inmemFileSizeLimit : ℕ := 64 * 1024 * 1024

def ensureFileSize (size : ℕ) (buf : List UInt8) : KernelResult (List UInt8) :=
  if size ≤ buf.length then .ok buf
  else if inmemFileSizeLimit < size then .error enospc
  else if a.room size then .ok (buf ++ List.replicate (size - buf.length) 0)
  else .error enomem

def overwrite (offset : ℕ) (data buf : List UInt8) : List UInt8 :=
  buf.take offset ++ data ++ buf.drop (offset + data.length)

/-- A file that grew up to the offset stays so when it cannot grow any further. -/
def writeBuf (data : List UInt8) (h : OpenFile) (buf : List UInt8) :
    KernelResult ℕ × OpenFile × List UInt8 :=
  match ensureFileSize a h.offset buf with
  | .error e => (.error e, h, buf)
  | .ok buf =>
    match ensureFileSize a (saturatingAdd h.offset data.length) buf with
    | .error e => (.error e, h, buf)
    | .ok buf =>
      (.ok data.length, { h with offset := h.offset + data.length }, overwrite h.offset data buf)

def write (data : List UInt8) : HandleOp ℕ := fun h files =>
  match files h.node with
  | .directory _ => some (.error eisdir, h, files)
  | .ext4Dir _ => some (.error erofs, h, files)
  | .ext4File _ _ => some (.error erofs, h, files)
  | .file buf =>
    let (r, h', buf) := writeBuf a data h buf
    some (r, h', update files h.node (.file buf))
  | .stream _ _ _ => some (a.streamWrite h.node data, h, files)

def asIsize (n : ℕ) : ℤ := if n < 2 ^ 63 then n else n - 2 ^ 64

def Node.size : Node → ℕ
  | file buf => buf.length
  | ext4File _ size => size
  | directory names => names.length
  | ext4Dir size => size
  | stream _ _ size => size

def Node.seekable : Node → Bool
  | stream _ seekable _ => seekable
  | _ => true

def seekBase (whence : ℕ) (h : OpenFile) (node : Node) : Option ℤ :=
  match whence with
  | 0 => some 0
  | 1 => some (asIsize h.offset)
  | 2 => some (asIsize node.size)
  | _ => none

def seek (offset : ℤ) (whence : ℕ) : HandleOp ℕ := fun h files =>
  if (files h.node).seekable then
    match seekBase whence h (files h.node) with
    | none => some (.error einval, h, files)
    | some base =>
      if 0 ≤ base + offset ∧ base + offset < 2 ^ 63 then
        some (.ok (base + offset).toNat, { h with offset := (base + offset).toNat }, files)
      else some (.error einval, h, files)
  else some (.error einval, h, files)

def reclen (name : String) : ℕ := (19 + name.utf8ByteSize + 1 + 7) / 8 * 8

/-- How many entries fit, and their length; the first one always fits. -/
def emit (maxLen : ℕ) : List String → ℕ → ℕ → ℕ × ℕ
  | [], emitted, len => (emitted, len)
  | name :: names, emitted, len =>
    if emitted ≠ 0 ∧ maxLen < len + reclen name then (emitted, len)
    else emit maxLen names (emitted + 1) (len + reclen name)

def getdents (maxLen : ℕ) : HandleOp ℕ := fun h files =>
  if maxLen = 0 then some (.ok 0, h, files)
  else
    match files h.node with
    | .directory names =>
      let (emitted, len) := emit maxLen (names.drop h.offset) 0 0
      some (.ok len, { h with offset := saturatingAdd h.offset emitted }, files)
    | .ext4Dir _ =>
      match a.ext4Names h.node with
      | .error e => some (.error e, h, files)
      | .ok names =>
        if names.length < h.offset then some (.ok 0, { h with offset := names.length }, files)
        else
          let (emitted, len) := emit maxLen (names.drop h.offset) 0 0
          some (.ok len, { h with offset := saturatingAdd h.offset emitted }, files)
    | _ => some (.error enotdir, h, files)

/-- A file never shrinks, but the offset does. -/
def truncate (len : ℕ) : HandleOp Unit := fun h files =>
  match files h.node with
  | .file buf =>
    match ensureFileSize a len buf with
    | .error e => some (.error e, h, files)
    | .ok buf =>
      some (.ok (), { h with offset := min h.offset len }, update files h.node (.file buf))
  | .ext4File _ _ => some (.error erofs, h, files)
  | .ext4Dir _ => some (.error erofs, h, files)
  | _ => some (.error einval, h, files)

/-- The size is reserved; the offset stays. -/
def fallocate (offset len : ℕ) : HandleOp Unit := fun h files =>
  match files h.node with
  | .file buf =>
    match ensureFileSize a (saturatingAdd offset len) buf with
    | .error e => some (.error e, h, files)
    | .ok buf => some (.ok (), h, update files h.node (.file buf))
  | .ext4File _ _ => some (.error erofs, h, files)
  | .ext4Dir _ => some (.error erofs, h, files)
  | _ => some (.error einval, h, files)

end Operations

/-- An operation moves at most the offset, does nothing to the handle when it fails, and never says
that the descriptor is bad. -/
structure Gentle {α : Type} (op : HandleOp α) : Prop where
  kept : ∀ {h files r h' files'}, op h files = some (r, h', files') →
    h'.node = h.node ∧ h'.flags = h.flags
  failed : ∀ {h files e h' files'}, op h files = some (.error e, h', files') → h' = h ∧ e ≠ ebadf

/-- What an operation gives back for a handle. -/
inductive Outcome {α : Type} (h : OpenFile) : KernelResult α × OpenFile × Files → Prop where
  | refused {e : ℕ} {files : Files} (hne : e ≠ ebadf) : Outcome h (.error e, h, files)
  | moved (x : α) (offset : ℕ) (files : Files) : Outcome h (.ok x, { h with offset }, files)

theorem gentle_of_outcomes {α : Type} {op : HandleOp α}
    (hop : ∀ {h files out}, op h files = some out → Outcome h out) : Gentle op := by
  constructor
  · intro h files r h' files' hrun
    cases hop hrun with
    | refused | moved => exact ⟨rfl, rfl⟩
  · intro h files e h' files' hrun
    cases hop hrun with
    | refused hne => exact ⟨rfl, hne⟩

theorem outcome_still {α : Type} {r : KernelResult α} {h : OpenFile} {files : Files}
    (hr : r ≠ .error ebadf) : Outcome h (r, h, files) := by
  cases r with
  | error e => exact .refused fun he => hr (he ▸ rfl)
  | ok x => exact .moved x h.offset files

section Gentle

variable (a : Answers)

theorem readBuf_outcome {buf : List UInt8} {len : ℕ} {h : OpenFile} {files : Files}
    {out : KernelResult (List UInt8) × OpenFile × Files}
    (hop : ((readBuf buf len h).map fun (out : List UInt8 × OpenFile) =>
      ((.ok out.1 : KernelResult (List UInt8)), out.2, files)) = some out) : Outcome h out := by
  obtain ⟨⟨bytes, h'⟩, hread, rfl⟩ := Option.map_eq_some_iff.mp hop
  simp only [readBuf] at hread
  split at hread
  · cases hread
  · cases hread
    exact .moved ..

theorem gentle_read (len : ℕ) : Gentle (read a len) := by
  refine gentle_of_outcomes fun {h files out} hop => ?_
  unfold read at hop
  split at hop
  · cases hop
    exact .refused (by decide)
  · cases hop
    exact .refused (by decide)
  · exact readBuf_outcome hop
  · exact readBuf_outcome hop
  · split at hop
    · next e hread =>
      cases hop
      exact .refused fun he => a.ext4Read_ne _ _ _ (he ▸ hread)
    · cases hop
      exact .moved ..
  · cases hop
    exact outcome_still (a.streamRead_ne _ _)

theorem ensureFileSize_ne (size : ℕ) (buf : List UInt8) :
    ensureFileSize a size buf ≠ .error ebadf := by
  unfold ensureFileSize
  split
  · exact fun h => by cases h
  split
  · exact fun h => absurd (Except.error.inj h) (by decide)
  split
  · exact fun h => by cases h
  · exact fun h => absurd (Except.error.inj h) (by decide)

theorem writeBuf_cases (data : List UInt8) (h : OpenFile) (buf : List UInt8) :
    (∃ e buf', writeBuf a data h buf = (.error e, h, buf') ∧ e ≠ ebadf) ∨
      ∃ buf', writeBuf a data h buf =
        (.ok data.length, { h with offset := h.offset + data.length }, buf') := by
  unfold writeBuf
  split
  · next e hsize =>
    refine .inl ⟨e, _, rfl, ?_⟩
    rintro rfl
    exact ensureFileSize_ne a _ _ hsize
  split
  · next e hsize =>
    refine .inl ⟨e, _, rfl, ?_⟩
    rintro rfl
    exact ensureFileSize_ne a _ _ hsize
  · exact .inr ⟨_, rfl⟩

theorem gentle_write (data : List UInt8) : Gentle (write a data) := by
  refine gentle_of_outcomes fun {h files out} hop => ?_
  unfold write at hop
  split at hop
  · cases hop
    exact .refused (by decide)
  · cases hop
    exact .refused (by decide)
  · cases hop
    exact .refused (by decide)
  · next buf _ =>
    rcases writeBuf_cases a data h buf with ⟨e, buf', heq, hne⟩ | ⟨buf', heq⟩ <;> rw [heq] at hop
    · cases hop
      exact .refused hne
    · cases hop
      exact .moved ..
  · cases hop
    exact outcome_still (a.streamWrite_ne _ _)

theorem gentle_seek (offset : ℤ) (whence : ℕ) : Gentle (seek offset whence) := by
  refine gentle_of_outcomes fun {h files out} hop => ?_
  unfold seek at hop
  split at hop
  · split at hop
    · cases hop
      exact .refused (by decide)
    · split at hop
      · cases hop
        exact .moved ..
      · cases hop
        exact .refused (by decide)
  · cases hop
    exact .refused (by decide)

theorem gentle_getdents (maxLen : ℕ) : Gentle (getdents a maxLen) := by
  refine gentle_of_outcomes fun {h files out} hop => ?_
  unfold getdents at hop
  split at hop
  · cases hop
    exact .moved ..
  split at hop
  · cases hop
    exact .moved ..
  · split at hop
    · next e hnames =>
      cases hop
      exact .refused fun he => a.ext4Names_ne _ (he ▸ hnames)
    · split at hop <;> cases hop <;> exact .moved ..
  · cases hop
    exact .refused (by decide)

theorem gentle_truncate (len : ℕ) : Gentle (truncate a len) := by
  refine gentle_of_outcomes fun {h files out} hop => ?_
  unfold truncate at hop
  split at hop
  · split at hop
    · next e hsize =>
      cases hop
      exact .refused fun he => ensureFileSize_ne a _ _ (he ▸ hsize)
    · cases hop
      exact .moved ..
  · cases hop
    exact .refused (by decide)
  · cases hop
    exact .refused (by decide)
  · cases hop
    exact .refused (by decide)

end Gentle

end PositionedFiles
