import Whuse.PositionedFiles

/-! In-memory regular files against the file of POSIX: an array of bytes and any number of offsets
into it. -/
namespace RegularFiles

open MachineWord AddressSpace PositionedFiles List
open Function (update update_self update_eq_self)

structure ByteFile where
  bytes : List UInt8
  offset : ℕ → ℕ

inductive Call where
  | read (i : ℕ) (len : UInt64)
  | write (i : ℕ) (data : List UInt8)
  | seek (i : ℕ) (offset : ℤ) (whence : ℕ)
  | truncate (i len : ℕ)
  | truncatePath (len : ℕ)
  | fallocate (i offset len : ℕ)

def resize (len : ℕ) (bytes : List UInt8) : List UInt8 :=
  bytes.take len ++ List.replicate (len - bytes.length) 0

/-- What a call that answers `r` makes of the file. -/
def Posix (f : ByteFile) (c : Call) (r : KernelResult (List UInt8 × ℕ)) (f' : ByteFile) : Prop :=
  match r, c with
  | .error _, _ => f' = f
  | .ok (out, _), .read i len => out = (f.bytes.drop (f.offset i)).take len.toNat ∧
      f' = { f with offset := update f.offset i (f.offset i + out.length) }
  | .ok (_, k), .write i data => k = data.length ∧ f' = if data = [] then f else
        ⟨overwrite (f.offset i) data (resize (max f.bytes.length (f.offset i)) f.bytes),
          update f.offset i (f.offset i + data.length)⟩
  | .ok (_, k), .seek i _ _ => f' = { f with offset := update f.offset i k }
  | .ok _, .truncate _ len | .ok _, .truncatePath len => f' = { f with bytes := resize len f.bytes }
  | .ok _, .fallocate _ offset len =>
      f' = { f with bytes := resize (max f.bytes.length (offset + len)) f.bytes }

def contents : Node → List UInt8
  | .file buf => buf
  | _ => []

/-- An operation on a handle that is open on the file. -/
def onHandle {α : Type} (answer : α → List UInt8 × ℕ) (op : HandleOp α) (offset : ℕ) (f : ByteFile) :
    Option (KernelResult (List UInt8 × ℕ) × List UInt8 × ℕ) :=
  (op ⟨0, 2, offset⟩ fun _ => .file f.bytes).map fun (r, h, files) =>
    (r.map answer, contents (files 0), h.offset)

/-- `truncate` of a path works on a handle of its own. -/
def Call.run (a : Answers) (f : ByteFile) (c : Call) :
    Option (KernelResult (List UInt8 × ℕ) × ByteFile) :=
  let on {α : Type} (i : ℕ) (answer : α → List UInt8 × ℕ) (op : HandleOp α) :=
    (onHandle answer op (f.offset i) f).map fun (r, bytes, offset) =>
      (r, ⟨bytes, update f.offset i offset⟩)
  match c with
  | read i len => on i (·, 0) (PositionedFiles.read a len.toNat)
  | write i data => on i ([], ·) (PositionedFiles.write a data)
  | seek i offset whence => on i ([], ·) (PositionedFiles.seek offset whence)
  | truncate i len => on i (fun _ => ([], 0)) (PositionedFiles.truncate a len)
  | truncatePath len => (onHandle (fun _ => ([], 0)) (PositionedFiles.truncate a len) 0 f).map
      fun (r, bytes, _) => (r, { f with bytes })
  | fallocate i offset len => on i (fun _ => ([], 0)) (PositionedFiles.fallocate a offset len)

/-- Each call of the sequence ends, does to the file what POSIX says and keeps it within its
limit. -/
def Conforms (f : ByteFile) : List (Answers × Call) → Prop
  | [] => True
  | (a, c) :: calls => ∃ r f', c.run a f = some (r, f') ∧ Posix f c r f' ∧
      f'.bytes.length ≤ inmemFileSizeLimit ∧ Conforms f' calls

def Grows (a : Answers) (size : ℕ) : Prop := size ≤ inmemFileSizeLimit ∧ a.room size = true

/-- Nothing is read, and nothing empty is written, past the end; a write past the end fits; nothing
is cut off, and no offset lies past the new end. -/
def Plain (a : Answers) (f : ByteFile) : Call → Prop
  | .read i len => f.offset i ≤ f.bytes.length ∧ f.offset i + len.toNat < 2 ^ 64
  | .write i data => f.offset i ≤ f.bytes.length ∨ ¬ Grows a (f.offset i) ∨
      data ≠ [] ∧ Grows a (f.offset i + data.length)
  | .truncate i len => f.bytes.length ≤ len ∧ (f.offset i ≤ len ∨ f.bytes.length < len ∧ ¬ Grows a len)
  | .truncatePath len => f.bytes.length ≤ len
  | _ => True

def AllPlain (f : ByteFile) : List (Answers × Call) → Prop
  | [] => True
  | (a, c) :: calls => Plain a f c ∧ ∀ r f', c.run a f = some (r, f') → AllPlain f' calls

section Steps

variable {a : Answers} {f : ByteFile} {c : Call} {size : ℕ} {buf : List UInt8}

def grown (size : ℕ) (buf : List UInt8) : List UInt8 := buf ++ List.replicate (size - buf.length) 0

theorem grown_of_le (h : size ≤ buf.length) : grown size buf = buf := by
  simp [grown, Nat.sub_eq_zero_of_le h]

theorem resize_max (size : ℕ) (buf : List UInt8) : resize (max buf.length size) buf = grown size buf := by
  rw [resize, take_of_length_le (Nat.le_max_left _ _), grown]
  congr 2
  omega

theorem length_grown (size : ℕ) (buf : List UInt8) : (grown size buf).length = max buf.length size := by
  rw [grown, length_append, length_replicate]
  omega

variable (a) in
theorem ensureFileSize_cases (size : ℕ) (hbuf : buf.length ≤ inmemFileSizeLimit) :
    (size ≤ buf.length ∨ Grows a size) ∧ ensureFileSize a size buf = .ok (grown size buf) ∧
      (grown size buf).length ≤ inmemFileSizeLimit ∨
    buf.length < size ∧ ¬ Grows a size ∧ ∃ e, ensureFileSize a size buf = .error e := by
  rw [length_grown]
  unfold ensureFileSize
  by_cases hsize : size ≤ buf.length
  · refine .inl ⟨.inl hsize, ?_, by omega⟩
    rw [if_pos hsize, grown_of_le hsize]
  rw [if_neg hsize]
  by_cases hlimit : inmemFileSizeLimit < size
  · rw [if_pos hlimit]
    exact .inr ⟨by omega, fun hgrows => absurd hgrows.1 (by omega), _, rfl⟩
  rw [if_neg hlimit]
  by_cases hroom : a.room size = true
  · refine .inl ⟨.inr ⟨by omega, hroom⟩, ?_, by omega⟩
    rw [if_pos hroom]
    rfl
  · rw [if_neg hroom]
    exact .inr ⟨by omega, fun hgrows => hroom hgrows.2, _, rfl⟩

theorem overwrite_grown (o : ℕ) (data buf : List UInt8) (ho : o ≤ buf.length)
    (hsize : size ≤ o + data.length) : overwrite o data (grown size buf) = overwrite o data buf := by
  unfold overwrite grown
  rw [take_append_of_le_length ho, drop_append]
  simp
  omega

/-- A length that two add up to, if a file may have it. -/
theorem saturatingAdd_eq {x y : ℕ} (h : saturatingAdd x y ≤ inmemFileSizeLimit) :
    saturatingAdd x y = x + y := by
  unfold saturatingAdd inmemFileSizeLimit usizeMax at *
  omega

/-- The call ends and does what it should. -/
def Sound (a : Answers) (f : ByteFile) (c : Call) : Prop :=
  ∃ r f', c.run a f = some (r, f') ∧ Posix f c r f' ∧ f'.bytes.length ≤ inmemFileSizeLimit

section Handle

variable {α : Type} {answer : α → List UInt8 × ℕ} {op : HandleOp α} {o e : ℕ} {g : ℕ → ℕ → ℕ}
  (hf : f.bytes.length ≤ inmemFileSizeLimit)
  (hc : c.run a f = (onHandle answer op o f).map fun (r, bytes, offset) => (r, ⟨bytes, g offset⟩))

include hf hc

omit hf in
theorem sound_of {r : KernelResult α} {h : DescriptorTable.OpenFile} {files : Files}
    (hop : op ⟨0, 2, o⟩ (fun _ => .file f.bytes) = some (r, h, files))
    (hposix : Posix f c (r.map answer) ⟨contents (files 0), g h.offset⟩)
    (hbound : (contents (files 0)).length ≤ inmemFileSizeLimit) : Sound a f c :=
  ⟨_, _, by rw [hc, onHandle, hop]; rfl, hposix, hbound⟩

theorem sound_refused (hg : g o = f.offset)
    (hop : op ⟨0, 2, o⟩ (fun _ => .file f.bytes) =
      some (.error e, ⟨0, 2, o⟩, fun _ => .file f.bytes)) : Sound a f c :=
  sound_of hc hop (congrArg (ByteFile.mk _) hg) hf

/-- The file is made to have a size, if it can. -/
theorem sound_sized {o' : ℕ} {x : α} (hg : g o = f.offset)
    (hop : op ⟨0, 2, o⟩ (fun _ => .file f.bytes) =
      match ensureFileSize a size f.bytes with
      | .error e => some (.error e, ⟨0, 2, o⟩, fun _ => .file f.bytes)
      | .ok buf => some (.ok x, ⟨0, 2, o'⟩, update (fun _ => .file f.bytes) 0 (.file buf)))
    (hok : size ≤ f.bytes.length ∨ Grows a size →
      Posix f c (.ok (answer x)) ⟨grown size f.bytes, g o'⟩) : Sound a f c := by
  rcases ensureFileSize_cases a size hf with ⟨hgrows, heq, hbound⟩ | ⟨-, -, e, heq⟩ <;> rw [heq] at hop
  · exact sound_of hc hop (hok hgrows) hbound
  · exact sound_refused hf hc hg hop

end Handle

theorem read_sound (hf : f.bytes.length ≤ inmemFileSizeLimit) {i : ℕ} {len : UInt64}
    (hc : Plain a f (.read i len)) : Sound a f (.read i len) := by
  obtain ⟨hsize, hsum⟩ := hc
  have hread : PositionedFiles.read a len.toNat ⟨0, 2, f.offset i⟩ (fun _ => .file f.bytes) =
      some (.ok ((f.bytes.drop (f.offset i)).take len.toNat),
        ⟨0, 2, min (f.offset i + len.toNat) f.bytes.length⟩, fun _ => .file f.bytes) := by
    simp only [PositionedFiles.read, readBuf, Nat.min_eq_left hsize, Nat.mod_eq_of_lt hsum]
    rw [if_neg (by omega), Option.map_some]
    congr 3
    rw [take_eq_take_iff, length_drop]
    omega
  refine sound_of (g := update f.offset i) rfl hread ⟨rfl, ?_⟩ hf
  simp only [length_take, length_drop]
  congr 2
  omega

theorem seek_sound (hf : f.bytes.length ≤ inmemFileSizeLimit) (i : ℕ) (offset : ℤ) (whence : ℕ) :
    Sound a f (.seek i offset whence) := by
  cases hseek : PositionedFiles.seek offset whence ⟨0, 2, f.offset i⟩ (fun _ => .file f.bytes) with
  | none => grind [PositionedFiles.seek]
  | some out =>
    have hout := hseek
    simp only [PositionedFiles.seek, Node.seekable, if_true] at hout
    split at hout
    · cases hout
      exact sound_refused (g := update f.offset i) hf rfl (update_eq_self i _) hseek
    split at hout <;> cases hout
    · exact sound_of (g := update f.offset i) rfl hseek rfl hf
    · exact sound_refused (g := update f.offset i) hf rfl (update_eq_self i _) hseek

theorem write_sound (hf : f.bytes.length ≤ inmemFileSizeLimit) {i : ℕ} {data : List UInt8}
    (hc : Plain a f (.write i data)) : Sound a f (.write i data) := by
  have hwrite : PositionedFiles.write a data ⟨0, 2, f.offset i⟩ (fun _ => .file f.bytes) =
      (some (writeBuf a data ⟨0, 2, f.offset i⟩ f.bytes)).map fun out =>
        (out.1, out.2.1, update (fun _ => .file f.bytes) 0 (.file out.2.2)) := rfl
  simp only [writeBuf, Option.map_some] at hwrite
  simp only [Plain] at hc
  have hself : update (fun _ : ℕ => Node.file f.bytes) 0 (.file f.bytes) =
    fun _ => .file f.bytes := update_eq_self 0 _
  rcases ensureFileSize_cases a (f.offset i) hf with ⟨hfirst, heq, hbound⟩ | ⟨-, -, e, heq⟩
  · simp only [heq] at hwrite
    have hlength := length_grown (f.offset i) f.bytes
    rcases ensureFileSize_cases a (saturatingAdd (f.offset i) data.length) hbound with
      ⟨hsecond, heq, hbound⟩ | ⟨hlt, hno, e, heq⟩ <;> simp only [heq] at hwrite
    · have hsum : saturatingAdd (f.offset i) data.length = f.offset i + data.length := by
        apply saturatingAdd_eq
        rcases hsecond with hle | hgrows
        · omega
        · exact hgrows.1
      rw [hsum] at hwrite hsecond hbound
      rw [overwrite_grown (f.offset i) data (grown (f.offset i) f.bytes) (by omega) le_rfl] at hwrite
      refine sound_of (g := update f.offset i) rfl hwrite ⟨rfl, ?_⟩ ?_
      · rw [resize_max]
        split
        · next hnil =>
          have hle : f.offset i ≤ f.bytes.length := by tauto
          simp only [hnil, grown_of_le hle, overwrite, append_nil, length_nil, Nat.add_zero,
            take_append_drop]
          exact congrArg (ByteFile.mk _) (update_eq_self i _)
        · rfl
      · rw [length_grown] at hbound
        simp only [contents, update_self, overwrite, length_append, length_take, length_drop]
        omega
    · have hle : f.offset i ≤ f.bytes.length := by
        by_contra hpast
        have hgrows : Grows a (f.offset i + data.length) := by tauto
        have hmax : inmemFileSizeLimit ≤ usizeMax := by decide
        rw [saturatingAdd_of_le (hgrows.1.trans hmax)] at hno
        exact hno hgrows
      rw [grown_of_le hle, hself] at hwrite
      exact sound_refused (g := update f.offset i) hf rfl (update_eq_self i _) hwrite
  · simp only [heq, hself] at hwrite
    exact sound_refused (g := update f.offset i) hf rfl (update_eq_self i _) hwrite

theorem truncate_sound (hf : f.bytes.length ≤ inmemFileSizeLimit) {i len : ℕ}
    (hc : Plain a f (.truncate i len)) : Sound a f (.truncate i len) := by
  obtain ⟨hsize, hend⟩ := hc
  have hself := update_eq_self i f.offset
  refine sound_sized (g := update f.offset i) hf rfl hself rfl fun hgrows => ?_
  have hle : f.offset i ≤ len := by
    rcases hend with hle | ⟨hlt, hno⟩
    · exact hle
    · exact absurd hgrows (not_or.mpr ⟨by omega, hno⟩)
  rw [Nat.min_eq_left hle, hself, ← resize_max, Nat.max_eq_right hsize]
  rfl

theorem truncatePath_sound (hf : f.bytes.length ≤ inmemFileSizeLimit) {len : ℕ}
    (hc : Plain a f (.truncatePath len)) : Sound a f (.truncatePath len) := by
  refine sound_sized (g := fun _ => f.offset) hf rfl rfl rfl fun _ => ?_
  rw [← resize_max, Nat.max_eq_right hc]
  rfl

theorem fallocate_sound (hf : f.bytes.length ≤ inmemFileSizeLimit) (i offset len : ℕ) :
    Sound a f (.fallocate i offset len) := by
  have hself := update_eq_self i f.offset
  refine sound_sized (g := update f.offset i) hf rfl hself rfl fun hgrows => ?_
  rw [hself, saturatingAdd_eq (hgrows.elim (fun h => h.trans hf) And.left), ← resize_max]
  rfl

theorem plain_sound (hf : f.bytes.length ≤ inmemFileSizeLimit) (hc : Plain a f c) : Sound a f c := by
  cases c with
  | read i len => exact read_sound hf hc
  | write i data => exact write_sound hf hc
  | seek i offset whence => exact seek_sound hf i offset whence
  | truncate i len => exact truncate_sound hf hc
  | truncatePath len => exact truncatePath_sound hf hc
  | fallocate i offset len => exact fallocate_sound hf i offset len

end Steps

/-- Every sequence of plain calls, on any number of handles of one file that is within its limit,
does to the file what POSIX says. -/
theorem plain_calls_conform (f : ByteFile) (calls : List (Answers × Call))
    (hf : f.bytes.length ≤ inmemFileSizeLimit) (hplain : AllPlain f calls) : Conforms f calls := by
  induction calls generalizing f with
  | nil => trivial
  | cons call calls ih =>
    obtain ⟨r, f', hrun, hposix, hbound⟩ := plain_sound hf hplain.1
    exact ⟨r, f', hrun, hposix, hbound, ih f' hbound (hplain.2 r f' hrun)⟩

def withRoom (limit : ℕ) : Answers := .quiet (fun _ => 0) (· ≤ limit)

theorem plain_calls_conform_two : Conforms ⟨[1, 2, 3, 4], fun _ => 0⟩
    [(withRoom 8, .read 0 2), (withRoom 8, .fallocate 1 2 6)] :=
  plain_calls_conform _ _ (by decide)
    ⟨⟨by decide, by decide⟩, fun _ _ _ => ⟨trivial, fun _ _ _ => trivial⟩⟩

/-- The answer, the bytes and the offset after a call on a file of four bytes at offset six. -/
def outcome (a : Answers) (c : Call) : Option (Option (List UInt8 × ℕ) × List UInt8 × ℕ) :=
  (c.run a ⟨[1, 2, 3, 4], fun _ => 6⟩).map fun (r, f) => (r.toOption, f.bytes, f.offset 0)

/-- Past the end a read moves the offset back, a write of nothing makes the file grow, and so does a
write that fails; `truncate` cuts nothing off and moves the offset. -/
theorem past_the_end : outcome (withRoom 8) (.read 0 1) = some (some ([], 0), [1, 2, 3, 4], 4) ∧
    outcome (withRoom 8) (.write 0 []) = some (some ([], 0), [1, 2, 3, 4, 0, 0], 6) ∧
    outcome (withRoom 6) (.write 0 [7]) = some (none, [1, 2, 3, 4, 0, 0], 6) ∧
    outcome (withRoom 8) (.truncate 0 2) = some (some ([], 0), [1, 2, 3, 4], 2) :=
  ⟨by decide +kernel, by decide +kernel, by decide +kernel, by decide +kernel⟩

end RegularFiles
