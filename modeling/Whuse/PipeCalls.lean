import Whuse.AgreementRuns

/-! The system calls that read, write, copy and close descriptors, as far as pipes and connected
sockets are concerned, together with what creation, `execve` and the exits do to handles: a
handle that leaves the table is dropped, one that is copied is cloned. Beside the kernel stands,
for each task that a read has put to sleep, the handle it read. -/
namespace PipeCalls

open AddressSpace TaskScheduler ProcessTable ProcessTable.Table ProcessCalls ExecCall PipeObjects
open AgreementRuns

/-- What the files of other kinds answer. -/
structure OtherFiles where
  isSocket : FileHandle → Bool
  read : FileHandle → ℕ → KernelResult (List UInt8)
  write : FileHandle → List UInt8 → KernelResult ℕ

structure World where
  kernel : KernelState
  vfs : Vfs
  reading : ℕ → Option FileHandle

def known (h : FileHandle) (v : Vfs) : Bool := v.nodes[h.node]?.isSome

def isPipe (h : FileHandle) (v : Vfs) : Bool :=
  match v.nodes[h.node]? with
  | some (.pipe _) => true
  | _ => false

def isSocket (files : OtherFiles) (h : FileHandle) (v : Vfs) : Bool :=
  match v.nodes[h.node]? with
  | some (.pipe _) => false
  | some (.socketConnected _ _) => true
  | none => files.isSocket h

def vfsRead (files : OtherFiles) (h : FileHandle) (len : ℕ) (v : Vfs) :
    KernelResult (List UInt8) × Vfs :=
  if known h v then readObject h len v else (files.read h len, v)

def vfsWrite (files : OtherFiles) (h : FileHandle) (data : List UInt8) (v : Vfs) :
    KernelResult ℕ × Vfs :=
  if known h v then writeObject h data v else (files.write h data, v)

def onScheduler (f : Scheduler → Scheduler) (w : World) : World :=
  { w with kernel := { w.kernel with scheduler := f w.kernel.scheduler } }

def onTable (f : Table → Table) (w : World) : World :=
  { w with kernel := { w.kernel with table := f w.kernel.table } }

def wakeAll (w : World) : World := onScheduler Scheduler.wakeAllBlocked w

def wakeIf (b : Bool) (w : World) : World := if b then wakeAll w else w

def sleepOn (h : FileHandle) (w : World) : World :=
  match w.kernel.scheduler.current with
  | none => w
  | some task =>
    { onScheduler Scheduler.blockCurrent w with
      reading := Function.update w.reading task.id (some h) }

def storeUser (hal : HalMemory) (p : Process) (addr : ℕ) (bytes : List UInt8) (w : World) :
    KernelResult Unit × World :=
  match writeBytes hal addr bytes (w.kernel.table.machine p) with
  | (.error _, M) => (.error efault, onTable (Table.putMachine p M) w)
  | (.ok (), M) => (.ok (), onTable (Table.putMachine p M) w)

def lookFd (fd : ℤ) (w : World) : KernelResult (Process × FileHandle) :=
  match w.kernel.table.current with
  | .error e => .error e
  | .ok p =>
    match p.fds[fd]? with
    | none => .error ebadf
    | some h => .ok (p, h)

section Calls

variable (hal : HalMemory) (heap : Heap) (files : OtherFiles)

def receive (fd : ℤ) (buf count : ℕ) (w : World) : KernelResult ℕ × World :=
  match lookFd fd w with
  | .error e => (.error e, w)
  | .ok (p, h) =>
    match vfsRead files h count w.vfs with
    | (.ok bytes, v) =>
      let (r, w) := storeUser hal p buf bytes { w with vfs := v }
      (r.map fun _ => bytes.length, w)
    | (.error e, v) =>
      let w := { w with vfs := v }
      if e = PipeObjects.eagain ∧ (isPipe h v || isSocket files h v) = true then (.error PipeObjects.eagain, sleepOn h w)
      else (.error e, w)

def sysRead := receive hal files
def sysRecvfrom := receive hal files

/-- Only a pipe puts the caller to sleep, and only before the first byte. -/
def readvLoop (p : Process) (h : FileHandle) :
    List (ℕ × ℕ) → ℕ → World → KernelResult ℕ × World
  | [], total, w => (.ok total, w)
  | (base, len) :: iovecs, total, w =>
    match vfsRead files h len w.vfs with
    | (.ok bytes, v) =>
      match storeUser hal p base bytes { w with vfs := v } with
      | (.error e, w) => (.error e, w)
      | (.ok (), w) =>
        if bytes.length < len then (.ok (total + bytes.length), w)
        else readvLoop p h iovecs (total + bytes.length) w
    | (.error e, v) =>
      let w := { w with vfs := v }
      if e = PipeObjects.eagain ∧ isPipe h v = true then
        if total = 0 then (.error PipeObjects.eagain, sleepOn h w) else (.ok total, w)
      else (.error e, w)

def sysReadv (fd : ℤ) (iovecs : KernelResult (List (ℕ × ℕ))) (w : World) : KernelResult ℕ × World :=
  match iovecs with
  | .error e => (.error e, w)
  | .ok [] => (.ok 0, w)
  | .ok iovecs =>
    match lookFd fd w with
    | .error e => (.error e, w)
    | .ok (p, h) => readvLoop hal files p h iovecs 0 w

def userData (p : Process) (buf count : ℕ) (w : World) : KernelResult (List UInt8) :=
  match readBytes hal heap buf count (w.kernel.table.machine p) with
  | .error _ => .error efault
  | .ok data => .ok data

def sysWrite (fd : ℤ) (buf count : ℕ) (w : World) : KernelResult ℕ × World :=
  match w.kernel.table.current with
  | .error e => (.error e, w)
  | .ok p =>
    match userData hal heap p buf count w with
    | .error e => (.error e, w)
    | .ok data =>
      match p.fds[fd]? with
      | none => (.error ebadf, w)
      | some h =>
        let stream := isPipe h w.vfs || isSocket files h w.vfs
        match vfsWrite files h data w.vfs with
        | (.ok n, v) => (.ok n, wakeIf (stream && n != 0) { w with vfs := v })
        | (.error e, v) => (.error e, wakeIf (stream && e == epipe) { w with vfs := v })

/-- Unlike `write` it wakes nobody when it fails. -/
def sysSendto (fd : ℤ) (buf count : ℕ) (w : World) : KernelResult ℕ × World :=
  match w.kernel.table.current with
  | .error e => (.error e, w)
  | .ok p =>
    match userData hal heap p buf count w with
    | .error e => (.error e, w)
    | .ok data =>
      match p.fds[fd]? with
      | none => (.error ebadf, w)
      | some h =>
        let stream := isPipe h w.vfs || isSocket files h w.vfs
        match vfsWrite files h data w.vfs with
        | (.ok n, v) => (.ok n, wakeIf (stream && n != 0) { w with vfs := v })
        | (.error e, v) => (.error e, { w with vfs := v })

/-- The readers are woken once all vectors are written; a fault on the way leaves at once. -/
def writevLoop (p : Process) (h : FileHandle) (pipe : Bool) :
    List (ℕ × ℕ) → ℕ → World → KernelResult ℕ × World
  | [], total, w => (.ok total, wakeIf (pipe && total != 0) w)
  | (base, len) :: iovecs, total, w =>
    match userData hal heap p base len w with
    | .error e => (.error e, w)
    | .ok bytes =>
      match vfsWrite files h bytes w.vfs with
      | (.ok n, v) => writevLoop p h pipe iovecs (total + n) { w with vfs := v }
      | (.error e, v) =>
        let w := { w with vfs := v }
        if e = epipe ∧ pipe = true then
          let w := wakeAll w
          if total = 0 then (.error epipe, w) else (.ok total, wakeIf (pipe && total != 0) w)
        else (.error e, w)

/-- Descriptors 1 and 2 always are the console here. -/
def consoleLoop (p : Process) : List (ℕ × ℕ) → ℕ → World → KernelResult ℕ × World
  | [], total, w => (.ok total, w)
  | (base, len) :: iovecs, total, w =>
    match userData hal heap p base len w with
    | .error e => (.error e, w)
    | .ok bytes => consoleLoop p iovecs (total + bytes.length) w

def sysWritev (fd : ℤ) (iovecs : KernelResult (List (ℕ × ℕ))) (w : World) :
    KernelResult ℕ × World :=
  match w.kernel.table.current, iovecs with
  | .error e, _ => (.error e, w)
  | .ok _, .error e => (.error e, w)
  | .ok p, .ok iovecs =>
    if fd = 1 ∨ fd = 2 then consoleLoop hal heap p iovecs 0 w
    else
      match p.fds[fd]? with
      | none => (.error ebadf, w)
      | some h => writevLoop hal heap files p h (isPipe h w.vfs) iovecs 0 w

def withClone (h : FileHandle) (body : World → KernelResult ℕ × World) (w : World) :
    KernelResult ℕ × World :=
  let (r, w) := body { w with vfs := (cloneHandle h w.vfs).2 }
  (r, { w with vfs := dropHandle h w.vfs })

/-- Where a copy finds and leaves an offset: a pointer, and the offset it stores in the end. -/
structure OffsetArg where
  ptr : ℕ
  after : ℕ

def readOffset (p : Process) (arg : OffsetArg) (w : World) : KernelResult Unit :=
  if arg.ptr = 0 then .ok ()
  else
    match readBytes hal heap arg.ptr 8 (w.kernel.table.machine p) with
    | .error _ => .error efault
    | .ok _ => .ok ()

def writeOffset (p : Process) (arg : OffsetArg) (w : World) : KernelResult Unit × World :=
  if arg.ptr = 0 then (.ok (), w) else storeUser hal p arg.ptr (ByteFields.leBytes 8 arg.after) w

/-- Nobody is woken. -/
def sysSendfile (outFd inFd : ℤ) (offset : OffsetArg) (count : ℕ) (w : World) :
    KernelResult ℕ × World :=
  match lookFd inFd w with
  | .error e => (.error e, w)
  | .ok (p, source) =>
    withClone source (fun w =>
      match readOffset hal heap p offset w with
      | .error e => (.error e, w)
      | .ok () =>
        match vfsRead files source count w.vfs with
        | (.error e, v) => (.error e, { w with vfs := v })
        | (.ok bytes, v) =>
          match p.fds[outFd]? with
          | none => (.error ebadf, { w with vfs := v })
          | some target =>
            match vfsWrite files target bytes v with
            | (.error e, v) => (.error e, { w with vfs := v })
            | (.ok n, v) =>
              match writeOffset hal p offset { w with vfs := v } with
              | (.error e, w) => (.error e, w)
              | (.ok (), w) => (.ok n, w)) w

/-- Nobody is woken. -/
def sysCopyBetweenFds (inFd outFd : ℤ) (len : ℕ) (offIn offOut : OffsetArg) (w : World) :
    KernelResult ℕ × World :=
  match lookFd inFd w with
  | .error e => (.error e, w)
  | .ok (p, source) =>
    withClone source (fun w =>
      match p.fds[outFd]? with
      | none => (.error ebadf, w)
      | some target =>
        withClone target (fun w =>
          match readOffset hal heap p offIn w with
          | .error e => (.error e, w)
          | .ok () =>
            match readOffset hal heap p offOut w with
            | .error e => (.error e, w)
            | .ok () =>
              match vfsRead files source len w.vfs with
              | (.error e, v) => (.error e, { w with vfs := v })
              | (.ok bytes, v) =>
                match vfsWrite files target bytes v with
                | (.error e, v) => (.error e, { w with vfs := v })
                | (.ok n, v) =>
                  match writeOffset hal p offIn { w with vfs := v } with
                  | (.error e, w) => (.error e, w)
                  | (.ok (), w) =>
                    match writeOffset hal p offOut w with
                    | (.error e, w) => (.error e, w)
                    | (.ok (), w) => (.ok n, w)) w) w

def sysSplice := sysCopyBetweenFds hal heap files

def withFds (f : Std.ExtTreeMap ℤ FileHandle → Std.ExtTreeMap ℤ FileHandle) (t : Table) : Table :=
  t.modify t.currentTid fun p => { p with fds := f p.fds }

/-- The call holds a clone while the descriptor goes. -/
def closeOne (fd : ℤ) (h : FileHandle) (w : World) : World :=
  let w := onTable (withFds fun fds => fds.erase fd) w
  { w with vfs := dropHandle h (dropHandle h (cloneHandle h w.vfs).2) }

def sysClose (fd : ℤ) (released : Bool) (w : World) : KernelResult ℕ × World :=
  match lookFd fd w with
  | .error e => (.error e, w)
  | .ok (_, h) => (.ok 0, wakeIf (isPipe h w.vfs || released) (closeOne fd h w))

def closeEach : List (ℤ × FileHandle) → World → World
  | [], w => w
  | (fd, h) :: rest, w => closeEach rest (closeOne fd h w)

def sysCloseRange (first last : ℤ) (released : Bool) (w : World) : KernelResult ℕ × World :=
  match w.kernel.table.current with
  | .error e => (.error e, w)
  | .ok p =>
    let doomed := p.fds.toList.filter fun entry => decide (first ≤ entry.1 ∧ entry.1 ≤ last)
    let wake := doomed.any (fun entry => isPipe entry.2 w.vfs) || released
    (.ok 0, wakeIf wake (closeEach doomed w))

/-- The first free descriptor from a number on, among as many as could be taken. -/
def freeFd (fds : Std.ExtTreeMap ℤ FileHandle) : ℕ → ℤ → ℤ
  | 0, fd => fd
  | fuel + 1, fd => if fds.contains fd then freeFd fds fuel (fd + 1) else fd

def withCloexecFlag (flags : ℕ) (cloexec : Bool) : ℕ :=
  if cloexec then flags ||| 2 ^ cloexecBit
  else if flags.testBit cloexecBit then flags - 2 ^ cloexecBit else flags

def addFd (from_ : ℤ) (h : FileHandle) (p : Process) (w : World) : ℤ × World :=
  let fd := freeFd p.fds p.fds.size from_
  (fd, onTable (withFds fun fds => fds.insert fd h) w)

def sysDup (fd from_ : ℤ) (cloexec : Bool) (w : World) : KernelResult ℤ × World :=
  match lookFd fd w with
  | .error e => (.error e, w)
  | .ok (p, h) =>
    let (fd, w) := addFd from_ { h with flags := withCloexecFlag h.flags cloexec } p
      { w with vfs := (cloneHandle h w.vfs).2 }
    (.ok fd, w)

/-- The handle that stood at the new descriptor is dropped; nobody is woken. -/
def sysDup3 (oldFd newFd : ℤ) (cloexec : Bool) (w : World) : KernelResult ℤ × World :=
  match lookFd oldFd w with
  | .error e => (.error e, w)
  | .ok (p, h) =>
    if oldFd = newFd then (.ok newFd, w)
    else
      let v := (cloneHandle h w.vfs).2
      let v := match p.fds[newFd]? with
        | none => v
        | some old => dropHandle old v
      let h := { h with flags := withCloexecFlag h.flags cloexec }
      (.ok newFd, onTable (withFds fun fds => fds.insert newFd h) { w with vfs := v })

def storeFds (p : Process) (addr : ℕ) (fds : ℤ × ℤ) (w : World) : KernelResult ℕ × World :=
  let (r, w) := storeUser hal p addr
    (ByteFields.leBytes 4 fds.1.toNat ++ ByteFields.leBytes 4 fds.2.toNat) w
  (r.map fun _ => 0, w)

/-- Two handles take the two lowest descriptors. -/
def addPair (addr : ℕ) (ends : FileHandle × FileHandle) (w : World) : KernelResult ℕ × World :=
  match w.kernel.table.current with
  | .error e => (.error e, w)
  | .ok p =>
    let (left, w) := addFd 0 ends.1 p w
    let (right, w) := addFd 0 ends.2 { p with fds := p.fds.insert left ends.1 } w
    storeFds hal p addr (left, right) w

def sysPipe (addr : ℕ) (cloexec : Bool) (w : World) : KernelResult ℕ × World :=
  let ((readEnd, writeEnd), v) := createPipe w.vfs
  addPair hal addr ({ readEnd with flags := withCloexecFlag readEnd.flags cloexec },
    { writeEnd with flags := withCloexecFlag writeEnd.flags cloexec }) { w with vfs := v }

def sysSocketpair (addr : ℕ) (w : World) : KernelResult ℕ × World :=
  let (ends, v) := createSocketpair w.vfs
  addPair hal addr ends { w with vfs := v }

end Calls

def handles (p : Process) : List FileHandle := p.fds.toList.map Prod.snd

def dropAll (hs : List FileHandle) (v : Vfs) : Vfs := hs.foldl (fun v h => dropHandle h v) v
def cloneAll (hs : List FileHandle) (v : Vfs) : Vfs := hs.foldl (fun v h => (cloneHandle h v).2) v

def groupHandles (tgid : ℕ) (t : Table) : List FileHandle :=
  (t.values.filter fun p => p.tgid == tgid).flatMap handles

/-- What an exit of the current thread, or of its group, drops. -/
def exitHandles (group : Bool) (t : Table) : List FileHandle :=
  match t.current with
  | .error _ => []
  | .ok p => if group then groupHandles p.tgid t else handles p

/-- What the watchdog drops with the groups it ends, one after another. -/
def forcedHandles (hal : HalMemory) (heap : Heap) : List ℕ → Table → List FileHandle
  | [], _ => []
  | tgid :: tgids, t =>
    groupHandles tgid t ++
      forcedHandles hal heap tgids (t.forceExitGroup hal heap watchdogCode tgid).2

/-- What a replaced image drops: the handles of the threads that go, and those of the caller that
are to be closed. -/
def execHandles (t : Table) : List FileHandle :=
  match t.current with
  | .error _ => []
  | .ok p =>
    (t.values.filter fun q => q.tgid == p.tgid && q.tid != p.tid).flatMap handles ++
      (p.fds.toList.filter fun entry => entry.2.flags.testBit cloexecBit).map Prod.snd

/-- A child or a thread takes a clone of every handle. -/
def cloneHandles (t u : Table) : List FileHandle :=
  match t.current with
  | .error _ => []
  | .ok p => if u.processes.contains t.nextPid then handles p else []

def kernelCall (hal : HalMemory) (c : Call) (w : World) : Option World :=
  (c.run hal w.kernel).map fun k =>
    let v := match c with
      | .clone _ _ _ => cloneAll (cloneHandles w.kernel.table k.table) w.vfs
      | .clone3 _ _ _ _ _ => cloneAll (cloneHandles w.kernel.table k.table) w.vfs
      | .execve heaps files args =>
        match resolveImage files heaps args with
        | some (.ok _) => dropAll (execHandles w.kernel.table) w.vfs
        | _ => w.vfs
      | .exit _ group _ => dropAll (exitHandles group w.kernel.table) w.vfs
    { w with kernel := k, vfs := v }

end PipeCalls
