import Whuse.PositionedFiles

/-! The calls that read, write and move through a descriptor. `read`, `write`, `lseek` and
`getdents64` take the offset of the descriptor's leader before and give theirs to all duplicates
after; the others work on the handle of the descriptor alone. -/
namespace OffsetCalls

open AddressSpace ProcessTable DescriptorTable PositionedFiles

structure State where
  table : FdTable
  files : Files

def putHandle (fd : ℤ) (h : OpenFile) (t : FdTable) : FdTable := { t with fds := t.fds.insert fd h }

def withSynced {α : Type} (fd : ℤ) (op : HandleOp α) (s : State) :
    Option (KernelResult α × State) :=
  match s.table.syncFdOffsetFromAlias fd with
  | (.error e, t) => some (.error e, { s with table := t })
  | (.ok (), t) =>
    match t.fd fd with
    | .error e => some (.error e, { s with table := t })
    | .ok h =>
      (op h s.files).map fun
        | (.error e, h, files) => (.error e, ⟨putHandle fd h t, files⟩)
        | (.ok x, h, files) =>
          match (putHandle fd h t).syncFdOffsetToAliases fd with
          | (.error e, t) => (.error e, ⟨t, files⟩)
          | (.ok (), t) => (.ok x, ⟨t, files⟩)

def withOwn {α : Type} (fd : ℤ) (op : HandleOp α) (s : State) : Option (KernelResult α × State) :=
  match s.table.fd fd with
  | .error e => some (.error e, s)
  | .ok h => (op h s.files).map fun (r, h, files) => (r, ⟨putHandle fd h s.table, files⟩)

def deliver (stores : Bool) (n : ℕ) : KernelResult ℕ := if stores then .ok n else .error efault

section Calls

variable (a : Answers)

def sysRead (fd : ℤ) (count : ℕ) (stores : Bool) (s : State) : Option (KernelResult ℕ × State) :=
  (withSynced fd (read a count) s).map fun (r, s) =>
    (r.bind fun bytes => deliver stores bytes.length, s)

def sysGetdents64 (fd : ℤ) (count : ℕ) (stores : Bool) (s : State) :
    Option (KernelResult ℕ × State) :=
  (withSynced fd (getdents a count) s).map fun (r, s) => (r.bind fun n => deliver stores n, s)

def sysLseek (fd offset : ℤ) (whence : ℕ) (s : State) : Option (KernelResult ℕ × State) :=
  withSynced fd (seek offset whence) s

def sysWrite (fd : ℤ) (data : Option (List UInt8)) (s : State) : Option (KernelResult ℕ × State) :=
  match data with
  | none => some (.error efault, s)
  | some data => withSynced fd (write a data) s

def isPipe (fd : ℤ) (s : State) : Bool :=
  match s.table.fds[fd]? with
  | none => false
  | some h =>
    match s.files h.node with
    | .stream pipe _ _ => pipe
    | _ => false

def readvLoop (fd : ℤ) : List (ℕ × Bool) → ℕ → State → Option (KernelResult ℕ × State)
  | [], total, s => some (.ok total, s)
  | (len, stores) :: iovecs, total, s =>
    match withOwn fd (read a len) s with
    | none => none
    | some (.error e, s') =>
      if e = PipeObjects.eagain ∧ isPipe fd s = true ∧ total ≠ 0 then some (.ok total, s')
      else some (.error e, s')
    | some (.ok bytes, s') =>
      if stores then
        if bytes.length < len then some (.ok (total + bytes.length), s')
        else readvLoop fd iovecs (total + bytes.length) s'
      else some (.error efault, s')

/-- The vectors, if they can be read; each with whether its buffer can be stored to. -/
def sysReadv (fd : ℤ) (iovecs : Option (List (ℕ × Bool))) (s : State) :
    Option (KernelResult ℕ × State) :=
  match iovecs with
  | none => some (.error efault, s)
  | some iovecs => readvLoop a fd iovecs 0 s

def writevLoop (fd : ℤ) (pipe : Bool) :
    List (Option (List UInt8)) → ℕ → State → Option (KernelResult ℕ × State)
  | [], total, s => some (.ok total, s)
  | none :: _, _, s => some (.error efault, s)
  | some data :: iovecs, total, s =>
    match withOwn fd (write a data) s with
    | none => none
    | some (.error e, s) =>
      if e = PipeObjects.epipe ∧ pipe = true ∧ total ≠ 0 then some (.ok total, s)
      else some (.error e, s)
    | some (.ok n, s) => writevLoop fd pipe iovecs (total + n) s

/-- Descriptors 1 and 2 are always the console, which has no offset. -/
def consoleLoop : List (Option (List UInt8)) → ℕ → KernelResult ℕ
  | [], total => .ok total
  | none :: _, _ => .error efault
  | some data :: iovecs, total => consoleLoop iovecs (total + data.length)

def sysWritev (fd : ℤ) (iovecs : Option (List (Option (List UInt8)))) (s : State) :
    Option (KernelResult ℕ × State) :=
  match iovecs with
  | none => some (.error efault, s)
  | some iovecs =>
    if fd = 1 ∨ fd = 2 then some (consoleLoop iovecs 0, s)
    else
      match s.table.fd fd with
      | .error e => some (.error e, s)
      | .ok _ => writevLoop a fd (isPipe fd s) iovecs 0 s

/-- An offset that a caller passes: what stands there, and whether it can be stored back. -/
structure OffsetArg where
  value : Option ℕ
  stores : Bool

def atOffset (arg : Option OffsetArg) (h : OpenFile) : KernelResult OpenFile :=
  match arg with
  | none => .ok h
  | some arg =>
    match arg.value with
    | none => .error efault
    | some offset => .ok { h with offset }

def leaveOffset (arg : Option OffsetArg) (fd : ℤ) (offset : ℕ) (t : FdTable) :
    KernelResult Unit × FdTable :=
  match arg with
  | some arg => (if arg.stores then .ok () else .error efault, t)
  | none =>
    match t.fd fd with
    | .error e => (.error e, t)
    | .ok h => (.ok (), putHandle fd { h with offset } t)

def sysSendfile (outFd inFd : ℤ) (offset : Option OffsetArg) (count : ℕ) (s : State) :
    Option (KernelResult ℕ × State) :=
  match s.table.fd inFd with
  | .error e => some (.error e, s)
  | .ok source =>
    match atOffset offset source with
    | .error e => some (.error e, s)
    | .ok source =>
      match read a count source s.files with
      | none => none
      | some (.error e, _, files) => some (.error e, { s with files })
      | some (.ok bytes, source, files) =>
        match withOwn outFd (write a bytes) { s with files } with
        | none => none
        | some (.error e, s) => some (.error e, s)
        | some (.ok n, s) =>
          let (r, t) := leaveOffset offset inFd source.offset s.table
          some (r.map fun _ => n, { s with table := t })

def sysCopyFileRange (inFd : ℤ) (offIn : Option OffsetArg) (outFd : ℤ) (offOut : Option OffsetArg)
    (len : ℕ) (s : State) : Option (KernelResult ℕ × State) :=
  match s.table.fd inFd, s.table.fd outFd with
  | .error e, _ => some (.error e, s)
  | .ok _, .error e => some (.error e, s)
  | .ok source, .ok target =>
    match atOffset offIn source, atOffset offOut target with
    | .error e, _ => some (.error e, s)
    | .ok _, .error e => some (.error e, s)
    | .ok source, .ok target =>
      match read a len source s.files with
      | none => none
      | some (.error e, _, files) => some (.error e, { s with files })
      | some (.ok bytes, source, files) =>
        match write a bytes target files with
        | none => none
        | some (.error e, _, files) => some (.error e, { s with files })
        | some (.ok n, target, files) =>
          match leaveOffset offIn inFd source.offset s.table with
          | (.error e, t) => some (.error e, ⟨t, files⟩)
          | (.ok (), t) =>
            let (r, t) := leaveOffset offOut outFd target.offset t
            some (r.map fun _ => n, ⟨t, files⟩)

def sysFtruncate (fd : ℤ) (len : ℕ) (s : State) : Option (KernelResult ℕ × State) :=
  (withOwn fd (truncate a len) s).map fun (r, s) => (r.map fun _ => 0, s)

end Calls

inductive Call where
  | read (fd : ℤ) (count : ℕ) (stores : Bool)
  | write (fd : ℤ) (data : Option (List UInt8))
  | readv (fd : ℤ) (iovecs : Option (List (ℕ × Bool)))
  | writev (fd : ℤ) (iovecs : Option (List (Option (List UInt8))))
  | lseek (fd offset : ℤ) (whence : ℕ)
  | getdents64 (fd : ℤ) (count : ℕ) (stores : Bool)
  | sendfile (outFd inFd : ℤ) (offset : Option OffsetArg) (count : ℕ)
  | copyFileRange (inFd : ℤ) (offIn : Option OffsetArg) (outFd : ℤ) (offOut : Option OffsetArg)
      (len : ℕ)
  | ftruncate (fd : ℤ) (len : ℕ)
  | dup (source : ℤ)
  | dup3 (oldFd newFd : ℤ) (cloexec : Bool)
  | fcntlDup (source arg : ℤ) (cloexec : Bool)
  | close (fd : ℤ)
  | execve
  | open (handle : OpenFile)

def ofNatResult (out : KernelResult ℕ × State) : KernelResult ℤ × State :=
  (out.1.map Int.ofNat, out.2)

def onTable {α : Type} (s : State) (out : α × FdTable) : α × State := (out.1, { s with table := out.2 })

def Call.run (a : Answers) (s : State) : Call → Option (KernelResult ℤ × State)
  | read fd count stores => (sysRead a fd count stores s).map ofNatResult
  | write fd data => (sysWrite a fd data s).map ofNatResult
  | readv fd iovecs => (sysReadv a fd iovecs s).map ofNatResult
  | writev fd iovecs => (sysWritev a fd iovecs s).map ofNatResult
  | lseek fd offset whence => (sysLseek fd offset whence s).map ofNatResult
  | getdents64 fd count stores => (sysGetdents64 a fd count stores s).map ofNatResult
  | sendfile outFd inFd offset count =>
    (sysSendfile a outFd inFd offset count s).map ofNatResult
  | copyFileRange inFd offIn outFd offOut len =>
    (sysCopyFileRange a inFd offIn outFd offOut len s).map ofNatResult
  | ftruncate fd len => (sysFtruncate a fd len s).map ofNatResult
  | dup source => (s.table.sysDup source).map (onTable s)
  | dup3 oldFd newFd cloexec => some (onTable s (s.table.sysDup3 oldFd newFd cloexec))
  | fcntlDup source arg cloexec => (s.table.sysFcntlDup source arg cloexec).map (onTable s)
  | close fd => some (ofNatResult (onTable s (s.table.sysClose fd)))
  | execve => some (.ok 0, { s with table := s.table.closeOnExec })
  | .open handle => (s.table.addFd handle).map fun (fd, t) => (.ok fd, { s with table := t })

end OffsetCalls
