import Whuse.PipeCalls

/-! The descriptors of a process, with the pointers that say which of them are duplicates of one
another. Each descriptor has a handle of its own; duplicates copy its offset to and fro. -/
namespace DescriptorTable

open AddressSpace ProcessTable PipeCalls
open Std (ExtTreeMap)

structure OpenFile where
  node : ℕ
  flags : ℕ
  offset : ℕ
  deriving DecidableEq, Repr

structure FdTable where
  fds : ExtTreeMap ℤ OpenFile
  fdAlias : ExtTreeMap ℤ ℤ

/-- The number after a descriptor, as a machine integer of 32 bits. -/
def nextFd (fd : ℤ) : ℤ := if fd = 2 ^ 31 - 1 then -2 ^ 31 else fd + 1

def freeFrom (fds : ExtTreeMap ℤ OpenFile) : ℕ → ℤ → Option ℤ
  | 0, _ => none
  | fuel + 1, fd => if fds.contains fd then freeFrom fds fuel (nextFd fd) else some fd

/-- Among one more number than there are descriptors. -/
def freeFd (first : ℤ) (fds : ExtTreeMap ℤ OpenFile) : Option ℤ :=
  freeFrom fds (fds.size + 1) first

def pointingAt (leader : ℤ) (fdAlias : ExtTreeMap ℤ ℤ) : List ℤ :=
  (fdAlias.toList.filter fun entry => entry.2 == leader).map Prod.fst

/-- The first of those that pointed at a closed descriptor leads the others. -/
def reelect (fd : ℤ) (fdAlias : ExtTreeMap ℤ ℤ) : ExtTreeMap ℤ ℤ :=
  match pointingAt fd fdAlias with
  | [] => fdAlias
  | leader :: rest => rest.foldl (fun a fd => a.insert fd leader) (fdAlias.insert leader leader)

def followAlias (fdAlias : ExtTreeMap ℤ ℤ) : ℕ → ℤ → ℤ
  | 0, leader => leader
  | fuel + 1, leader =>
    match fdAlias[leader]? with
    | none => leader
    | some next => if next = leader then leader else followAlias fdAlias fuel next

namespace FdTable

def fd (fd : ℤ) (t : FdTable) : KernelResult OpenFile :=
  match t.fds[fd]? with
  | none => .error ebadf
  | some handle => .ok handle

def leaderOf (t : FdTable) (fd : ℤ) : ℤ := t.fdAlias.getD fd fd

/-- At most 16 pointers are followed. -/
def fdAliasLeader (fd : ℤ) (t : FdTable) : KernelResult ℤ :=
  match t.fd fd with
  | .error e => .error e
  | .ok _ => .ok (followAlias t.fdAlias 16 (t.leaderOf fd))

def setFdAlias (fd leader : ℤ) (t : FdTable) : FdTable :=
  { t with fdAlias := t.fdAlias.insert fd leader }

def setOffset (offset : ℕ) (fd : ℤ) (t : FdTable) : FdTable :=
  { t with fds := t.fds.modify fd fun handle => { handle with offset } }

def syncFdOffsetFromAlias (fd : ℤ) (t : FdTable) : KernelResult Unit × FdTable :=
  match t.fdAliasLeader fd with
  | .error e => (.error e, t)
  | .ok leader =>
    if leader = fd then (.ok (), t)
    else
      match t.fd leader with
      | .error e => (.error e, t)
      | .ok handle => (.ok (), t.setOffset handle.offset fd)

def syncFdOffsetToAliases (fd : ℤ) (t : FdTable) : KernelResult Unit × FdTable :=
  match t.fdAliasLeader fd, t.fd fd with
  | .error e, _ => (.error e, t)
  | .ok _, .error e => (.error e, t)
  | .ok leader, .ok handle =>
    let u := (pointingAt leader t.fdAlias).foldl (fun u peer => u.setOffset handle.offset peer) t
    (.ok (), u.setOffset handle.offset leader)

/-! Adding and removing. `none` stands for a search that finds no free number and never ends. -/

def addFd (handle : OpenFile) (t : FdTable) : Option (ℤ × FdTable) :=
  (freeFd 0 t.fds).map fun fd => (fd, ⟨t.fds.insert fd handle, t.fdAlias.insert fd fd⟩)

def joinAlias (fd source : ℤ) (t : FdTable) : KernelResult ℤ × FdTable :=
  match t.fdAliasLeader source with
  | .error e => (.error e, t)
  | .ok leader =>
    match (t.setFdAlias fd leader).syncFdOffsetFromAlias fd with
    | (.error e, t) => (.error e, t)
    | (.ok (), t) => (.ok fd, t)

def addFdFrom (source : ℤ) (handle : OpenFile) (t : FdTable) : Option (KernelResult ℤ × FdTable) :=
  (t.addFd handle).map fun (fd, t) => t.joinAlias fd source

def closeFd (fd : ℤ) (t : FdTable) : KernelResult Unit × FdTable :=
  if t.fds.contains fd then (.ok (), ⟨t.fds.erase fd, reelect fd (t.fdAlias.erase fd)⟩)
  else (.error ebadf, t)

def sysDup (source : ℤ) (t : FdTable) : Option (KernelResult ℤ × FdTable) :=
  match t.fd source with
  | .error e => some (.error e, t)
  | .ok handle =>
    t.addFdFrom source { handle with flags := withCloexecFlag handle.flags false }

/-- The new number is not looked at: it may be negative. -/
def sysDup3 (oldFd newFd : ℤ) (cloexec : Bool) (t : FdTable) : KernelResult ℤ × FdTable :=
  match t.fd oldFd with
  | .error e => (.error e, t)
  | .ok handle =>
    if oldFd = newFd then (.ok newFd, t)
    else
      let t := (t.closeFd newFd).2
      let handle := { handle with flags := withCloexecFlag handle.flags cloexec }
      { t with fds := t.fds.insert newFd handle }.joinAlias newFd oldFd

/-- `F_DUPFD` and `F_DUPFD_CLOEXEC`. -/
def sysFcntlDup (source arg : ℤ) (cloexec : Bool) (t : FdTable) :
    Option (KernelResult ℤ × FdTable) :=
  match t.fd source with
  | .error e => some (.error e, t)
  | .ok handle =>
    (freeFd (max arg 0) t.fds).map fun newFd =>
      let handle := { handle with flags := withCloexecFlag handle.flags cloexec }
      { t with fds := t.fds.insert newFd handle }.joinAlias newFd source

def sysClose (fd : ℤ) (t : FdTable) : KernelResult ℕ × FdTable :=
  match t.closeFd fd with
  | (.error e, t) => (.error e, t)
  | (.ok (), t) => (.ok 0, t)

/-- Numbers without a descriptor are passed over. -/
def sysCloseRange (first last : ℤ) (t : FdTable) : KernelResult ℕ × FdTable :=
  let doomed := t.fds.keys.filter fun fd => decide (first ≤ fd ∧ fd ≤ last)
  (.ok 0, doomed.foldl (fun t fd => (t.closeFd fd).2) t)

/-- What an `execve` leaves: the pointers stay as they are. -/
def closeOnExec (t : FdTable) : FdTable :=
  { t with fds := t.fds.filter fun _ handle => !handle.flags.testBit Table.cloexecBit }

def seeded (stdin stdout stderr : OpenFile) : FdTable :=
  ⟨(((∅ : ExtTreeMap ℤ OpenFile).insert 0 stdin).insert 1 stdout).insert 2 stderr, ∅⟩

end FdTable

end DescriptorTable
