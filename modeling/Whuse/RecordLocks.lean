import Mathlib.Data.List.Sort
import Mathlib.Data.Prod.Lex
import Mathlib.Data.String.Basic
import Whuse.ByteFields
import Whuse.ElfLoader
import Whuse.TaskScheduler

/-! Record locks of `fcntl`: the table of locks, the `flock` record in user memory, and the three
commands. -/
namespace RecordLocks

open Std (ExtTreeMap)
open MachineWord AddressSpace ByteFields ElfLoader TaskScheduler

def ebadf : ℕ := 9
def eagain : ℕ := 11
def eacces : ℕ := 13

def seekSet : Int16 := 0
def seekCur : Int16 := 1
def seekEnd : Int16 := 2
def fRdlck : Int16 := 0
def fWrlck : Int16 := 1
def fUnlck : Int16 := 2
def fGetlk : ℕ := 5
def fSetlk : ℕ := 6
def fSetlkw : ℕ := 7

structure FlockRequest where
  lType : Int16
  lWhence : Int16
  lStart : Int64
  lLen : Int64
  lPid : Int32
  deriving DecidableEq

def decodeFlock (bytes : List UInt8) : FlockRequest where
  lType := .ofNat (fromLeBytes (field bytes 0 2))
  lWhence := .ofNat (fromLeBytes (field bytes 2 2))
  lStart := .ofNat (fromLeBytes (field bytes 8 8))
  lLen := .ofNat (fromLeBytes (field bytes 16 8))
  lPid := .ofNat (fromLeBytes (field bytes 24 4))

def encodeFlock (flock : FlockRequest) : List UInt8 :=
  putAll (List.replicate 32 0)
    [(0, leBytes 2 flock.lType.toUInt16.toNat), (2, leBytes 2 flock.lWhence.toUInt16.toNat),
      (8, leBytes 8 flock.lStart.toUInt64.toNat), (16, leBytes 8 flock.lLen.toUInt64.toNat),
      (24, leBytes 4 flock.lPid.toUInt32.toNat)]

def readFlockRequest (hal : HalMemory) (heap : Heap) (addr : ℕ) (M : Machine) :
    KernelResult FlockRequest :=
  if addr = 0 then .error efault
  else
    match readBytes hal heap addr 32 M with
    | .error _ => .error efault
    | .ok bytes => if bytes.length < 32 then .error efault else .ok (decodeFlock bytes)

def writeFlockRequest (hal : HalMemory) (addr : ℕ) (flock : FlockRequest) (M : Machine) :
    KernelResult Unit × Machine :=
  if addr = 0 then (.error efault, M)
  else
    match writeBytes hal addr (encodeFlock flock) M with
    | (.error _, M) => (.error efault, M)
    | (.ok (), M) => (.ok (), M)

theorem fromLeBytes_leBytes {width n : ℕ} (h : n < 256 ^ width) :
    fromLeBytes (leBytes width n) = n := by
  rw [fromLeBytes, foldr_leBytes, Nat.mod_eq_of_lt h]

def u128Max : ℕ := 2 ^ 128 - 1

def rangeEndU128 (end_ : Option ℕ) : ℕ := end_.getD u128Max

/-- Back to an end: the largest value stands for the end of the file. -/
def endOfU128 (n : ℕ) : Option ℕ := if n = u128Max then none else some (n % 2 ^ 64)

def rangeOverlaps (startA : ℕ) (endA : Option ℕ) (startB : ℕ) (endB : Option ℕ) : Bool :=
  decide (startA < rangeEndU128 endB) && decide (startB < rangeEndU128 endA)

def lockModesConflict (left right : Int16) : Bool := left == fWrlck || right == fWrlck

def lockRangeLen (start : ℕ) : Option ℕ → Int64
  | some limit => .ofNat (limit - start)
  | none => 0

/-- What a lock needs of an open file. -/
structure Handle where
  path : String
  offset : ℕ
  isPipe : Bool
  deriving DecidableEq, Repr

def checkedAddI64 (a b : Int64) : Option Int64 :=
  if -2 ^ 63 ≤ a.toInt + b.toInt ∧ a.toInt + b.toInt < 2 ^ 63 then some (a + b) else none

def lockBase (whence : Int16) (handle : Handle) (size : KernelResult ℕ) : KernelResult Int64 :=
  if whence = seekSet then .ok 0
  else if whence = seekCur then .ok (.ofNat handle.offset)
  else if whence = seekEnd then
    match size with
    | .error _ => .error einval
    | .ok size => .ok (if size < 2 ^ 63 then .ofNat size else Int64.maxValue)
  else .error einval

def normalizeLockRange (flock : FlockRequest) (handle : Handle) (size : KernelResult ℕ) :
    KernelResult (ℕ × Option ℕ) :=
  match lockBase flock.lWhence handle size with
  | .error e => .error e
  | .ok base =>
    match checkedAddI64 base flock.lStart with
    | none => .error einval
    | some start =>
      if start < 0 then .error einval
      else if flock.lLen < 0 then .error einval
      else if flock.lLen = 0 then .ok (start.toInt.toNat, none)
      else
        match checkedAdd start.toInt.toNat flock.lLen.toInt.toNat with
        | none => .error einval
        | some end_ => .ok (start.toInt.toNat, some end_)

structure RecordLock where
  path : String
  ownerTgid : ℕ
  lockType : Int16
  start : ℕ
  end_ : Option ℕ
  deriving DecidableEq

def clearForOwner (owner : ℕ) (locks : List RecordLock) : Bool × List RecordLock :=
  let kept := locks.filter fun lock => lock.ownerTgid != owner
  (locks.length != kept.length, kept)

def clearForOwnerPath (owner : ℕ) (path : String) (locks : List RecordLock) :
    Bool × List RecordLock :=
  let kept := locks.filter fun lock => !(lock.ownerTgid == owner && lock.path == path)
  (locks.length != kept.length, kept)

/-- The first of the locks that start lowest. -/
def minByStart : List RecordLock → Option RecordLock
  | [] => none
  | lock :: rest =>
    match minByStart rest with
    | none => some lock
    | some least => if lock.start ≤ least.start then some lock else some least

def conflicts (path : String) (owner : ℕ) (lockType : Int16) (start : ℕ) (end_ : Option ℕ)
    (lock : RecordLock) : Bool :=
  lock.path == path && lock.ownerTgid != owner && lockModesConflict lock.lockType lockType &&
    rangeOverlaps lock.start lock.end_ start end_

def firstConflict (path : String) (owner : ℕ) (lockType : Int16) (start : ℕ) (end_ : Option ℕ)
    (locks : List RecordLock) : Option RecordLock :=
  minByStart (locks.filter (conflicts path owner lockType start end_))

def isCut (path : String) (owner start : ℕ) (end_ : Option ℕ) (lock : RecordLock) : Bool :=
  lock.path == path && lock.ownerTgid == owner && rangeOverlaps lock.start lock.end_ start end_

def cutLock (path : String) (owner start : ℕ) (end_ : Option ℕ) (lock : RecordLock) :
    List RecordLock :=
  if isCut path owner start end_ lock then
    (if lock.start < start then [{ lock with end_ := endOfU128 start }] else []) ++
      (if rangeEndU128 end_ < rangeEndU128 lock.end_ then
        [{ lock with
            start := rangeEndU128 end_ % 2 ^ 64
            end_ := endOfU128 (rangeEndU128 lock.end_) }]
      else [])
  else [lock]

def lockKey (lock : RecordLock) : String ×ₗ ℕ ×ₗ ℕ ×ₗ ℕ ×ₗ ℤ :=
  toLex (lock.path, toLex (lock.ownerTgid, toLex (lock.start,
    toLex (rangeEndU128 lock.end_, lock.lockType.toInt))))

/-- The order of the table. Locks with one key are the same lock, so any sort gives one list. -/
def sortLocks (locks : List RecordLock) : List RecordLock :=
  locks.insertionSort fun a b => lockKey a ≤ lockKey b

def sameStream (a b : RecordLock) : Bool :=
  a.path == b.path && a.ownerTgid == b.ownerTgid && a.lockType == b.lockType

/-- The locks merged so far are kept last first. -/
def mergeStep (merged : List RecordLock) (lock : RecordLock) : List RecordLock :=
  match merged with
  | [] => [lock]
  | last :: rest =>
    if sameStream last lock && decide (lock.start ≤ rangeEndU128 last.end_) then
      { last with end_ := endOfU128 (max (rangeEndU128 last.end_) (rangeEndU128 lock.end_)) } :: rest
    else lock :: last :: rest

def mergeLocks (locks : List RecordLock) : List RecordLock := (locks.foldl mergeStep []).reverse

def applyLock (path : String) (owner : ℕ) (lockType : Int16) (start : ℕ) (end_ : Option ℕ)
    (locks : List RecordLock) : Bool × List RecordLock :=
  let left := locks.flatMap (cutLock path owner start end_)
  let next := if lockType ≠ fUnlck then left ++ [⟨path, owner, lockType, start, end_⟩] else left
  (locks.any (isCut path owner start end_) || lockType != fUnlck, mergeLocks (sortLocks next))

structure Caller where
  tgid : ℕ
  fds : ExtTreeMap ℤ Handle

structure State where
  locks : List RecordLock
  scheduler : Scheduler

def lockAnswer (request : FlockRequest) (conflict : Option RecordLock) : FlockRequest :=
  if request.lType = fUnlck then { request with lPid := 0 }
  else
    match conflict with
    | some lock =>
      { lType := lock.lockType
        lWhence := seekSet
        lStart := .ofNat lock.start
        lLen := lockRangeLen lock.start lock.end_
        lPid := .ofNat lock.ownerTgid }
    | none => { request with lType := fUnlck, lPid := 0 }

def getLock (path : String) (owner : ℕ) (request : FlockRequest) (start : ℕ) (end_ : Option ℕ)
    (s : State) : FlockRequest :=
  lockAnswer request (firstConflict path owner request.lType start end_ s.locks)

def setLock (cmd : ℕ) (path : String) (owner : ℕ) (lockType : Int16) (start : ℕ)
    (end_ : Option ℕ) (s : State) : KernelResult ℕ × State :=
  if lockType ≠ fUnlck ∧ (firstConflict path owner lockType start end_ s.locks).isSome then
    if cmd = fSetlkw then (.error eagain, { s with scheduler := s.scheduler.blockCurrent })
    else (.error eacces, s)
  else
    let applied := applyLock path owner lockType start end_ s.locks
    (.ok 0,
      { locks := applied.2
        scheduler := if applied.1 then s.scheduler.wakeAllBlocked else s.scheduler })

def lockRequest (hal : HalMemory) (heap : Heap) (size : Handle → KernelResult ℕ) (c : Caller)
    (fd : ℤ) (arg : ℕ) (M : Machine) : KernelResult (Handle × FlockRequest × ℕ × Option ℕ) :=
  match c.fds[fd]? with
  | none => .error ebadf
  | some handle =>
    match readFlockRequest hal heap arg M with
    | .error e => .error e
    | .ok request =>
      if request.lType ≠ fRdlck ∧ request.lType ≠ fWrlck ∧ request.lType ≠ fUnlck then
        .error einval
      else
        match normalizeLockRange request handle (size handle) with
        | .error e => .error e
        | .ok (start, end_) => .ok (handle, request, start, end_)

def sysFcntlLock (hal : HalMemory) (heap : Heap) (size : Handle → KernelResult ℕ) (c : Caller)
    (fd : ℤ) (cmd arg : ℕ) (M : Machine) (s : State) : KernelResult ℕ × Machine × State :=
  match lockRequest hal heap size c fd arg M with
  | .error e => (.error e, M, s)
  | .ok (handle, request, start, end_) =>
    if cmd = fGetlk then
      match writeFlockRequest hal arg (getLock handle.path c.tgid request start end_ s) M with
      | (.error e, M) => (.error e, M, s)
      | (.ok (), M) => (.ok 0, M, s)
    else
      let out := setLock cmd handle.path c.tgid request.lType start end_ s
      (out.1, M, out.2)

def sysClose (c : Caller) (fd : ℤ) (s : State) : KernelResult ℕ × State :=
  match c.fds[fd]? with
  | none => (.error ebadf, s)
  | some handle =>
    let released := clearForOwnerPath c.tgid handle.path s.locks
    (.ok 0,
      { locks := released.2
        scheduler :=
          if handle.isPipe || released.1 then s.scheduler.wakeAllBlocked else s.scheduler })

def closeStep (owner : ℕ) (st : Bool × List RecordLock) (handle : Handle) :
    Bool × List RecordLock :=
  let released := clearForOwnerPath owner handle.path st.2
  (st.1 || handle.isPipe || released.1, released.2)

def sysCloseRange (c : Caller) (first last : ℤ) (s : State) : KernelResult ℕ × State :=
  let closed := c.fds.toList.filter fun entry => decide (first ≤ entry.1 ∧ entry.1 ≤ last)
  let out := closed.foldl (fun st entry => closeStep c.tgid st entry.2) (false, s.locks)
  (.ok 0,
    { locks := out.2
      scheduler := if out.1 then s.scheduler.wakeAllBlocked else s.scheduler })

def exitLocks (tgid : ℕ) (groupExited : Bool) (s : State) : State :=
  if groupExited then { s with locks := (clearForOwner tgid s.locks).2 } else s

end RecordLocks
