import Mathlib.Logic.Function.Basic
import Whuse.AddressSpace

/-! The names of the `vfs` crate: a tree of nodes in memory, over ext4 images that are only read.
What the tree has not got is looked for among preloaded files, remembered stats and the images. -/
namespace NameSpace

open Function
open Std (ExtTreeMap)
open AddressSpace (KernelResult)

def enoent : ℕ := 2
def eagain : ℕ := 11
def eexist : ℕ := 17
def enotdir : ℕ := 20
def eisdir : ℕ := 21
def einval : ℕ := 22
def enotempty : ℕ := 39
def eloop : ℕ := 40
def enotsock : ℕ := 88
def eaddrinuse : ℕ := 98
def eaddrnotavail : ℕ := 99

def oRdonly : ℕ := 0
def oWronly : ℕ := 1
def oRdwr : ℕ := 2
def oCreat : ℕ := 0o100
def oTrunc : ℕ := 0o1000
def oDirectory : ℕ := 0o200000

def hasFlag (flags flag : ℕ) : Bool := flags &&& flag != 0

def sIfreg : ℕ := 0o100000
def sIfdir : ℕ := 0o040000
def sIfchr : ℕ := 0o020000
def sIflnk : ℕ := 0o120000
def sIfsock : ℕ := 0o140000

/-- The components of an absolute path without dots. -/
abbrev Path := List String

abbrev PathArg := List String

def PathArg.rooted : PathArg → Bool
  | "" :: _ :: _ => true
  | _ => false

def PathArg.len (path : PathArg) : ℕ := (path.map String.utf8ByteSize).sum + (path.length - 1)

def pushComponent (components : Path) (component : String) : Path :=
  if component = "" ∨ component = "." then components
  else if component = ".." then components.dropLast
  else components ++ [component]

def normalizePath (cwd : Path) (path : PathArg) : Path :=
  ((if PathArg.rooted path then [] else cwd) ++ path).foldl pushComponent []

def splitParent (path : Path) : KernelResult (Path × String) :=
  match path.getLast? with
  | none => .error einval
  | some name => .ok (path.dropLast, name)

def isShellTokenPath (path : Path) : Bool := path == ["["] || path == ["]"]

/-- The directories that are looked for in memory only. -/
def isMemoryPreferredPath : Path → Bool
  | [] => false
  | component :: _ => ["dev", "proc", "tmp", "mnt"].contains component

inductive NodeKind where
  | directory
  | file
  | charDevice
  | proc
  | symlink
  | socket
  deriving DecidableEq, Repr

structure FileStat where
  mode : ℕ
  size : ℕ
  nlink : ℕ
  deriving DecidableEq, Repr

inductive Ext4NodeKind where
  | regular
  | directory
  | symlink
  | special
  deriving DecidableEq, Repr

structure Ext4DirEntryLite where
  name : String
  kind : Ext4NodeKind
  deriving DecidableEq, Repr

structure Ext4DirEntry extends Ext4DirEntryLite where
  stat : FileStat
  deriving DecidableEq, Repr

/-- One image, as the library shows it. An entry of a directory comes with the stat of the entry
itself, while a path is followed through links. -/
structure Ext4Mount where
  stat : Path → KernelResult FileStat
  read : Path → KernelResult (List UInt8)
  readDir : Path → KernelResult (List Ext4DirEntry)
  readDirLite : Path → KernelResult (List Ext4DirEntryLite)

/-- A node is named by its place in the table of nodes. Of a socket only its family and the path it
is bound to are kept. -/
inductive NodeData where
  | directory (entries : ExtTreeMap String ℕ)
  | file (buf : List UInt8)
  | procFile (buf : List UInt8)
  | charDevice
  | symlink (target : PathArg)
  | socketPending (family : ℕ) (path : Option Path)
  | socketRaw (family : ℕ) (boundPath : Option Path)
  | ext4File (mount : Ext4Mount) (path : Path) (mode size : ℕ) (cached : Option (List UInt8))
  | ext4Dir (mount : Ext4Mount) (path : Path) (mode size : ℕ)
      (entries : Option (List Ext4DirEntryLite))

structure Node where
  kind : NodeKind
  data : NodeData

def Node.directory : Node := ⟨.directory, .directory ∅⟩

structure ExternalMount where
  target : Path
  ext4 : Ext4Mount

structure FileHandle where
  node : ℕ
  offset : ℕ
  flags : ℕ
  path : Path

structure MountRecord where
  source : String
  target : Path
  fsType : String
  deriving DecidableEq, Repr

structure KernelVfs where
  nodes : ℕ → Node
  next : ℕ
  mounts : List MountRecord
  externalMounts : List ExternalMount
  externalStatCache : ExtTreeMap Path FileStat
  externalPreloaded : ExtTreeMap Path (List UInt8 × FileStat)
  externalDeletions : Path → Bool
  memModes : Path → Option ℕ
  socketBindings : Path → Option ℕ
  nextEphemeralPort : ℕ

def root : ℕ := 0

namespace KernelVfs

def setData (n : ℕ) (data : NodeData) (v : KernelVfs) : KernelVfs :=
  { v with nodes := update v.nodes n { v.nodes n with data := data } }

def allocate (node : Node) (v : KernelVfs) : ℕ × KernelVfs :=
  (v.next, { v with nodes := update v.nodes v.next node, next := v.next + 1 })

def lookupFrom (v : KernelVfs) : ℕ → Path → KernelResult ℕ
  | n, [] => .ok n
  | n, component :: rest =>
    match (v.nodes n).data with
    | .directory entries =>
      match entries[component]? with
      | none => .error enoent
      | some m => lookupFrom v m rest
    | _ => .error enotdir

def lookupAbs (v : KernelVfs) (path : Path) : KernelResult ℕ := v.lookupFrom root path

def found (v : KernelVfs) (path : Path) : Bool := (v.lookupAbs path).isOk

def externalMountPath (target path : Path) : Option Path :=
  if target.isPrefixOf path then some (path.drop target.length) else none

/-- Of the mounts above a path the one with the longest target, the last of several. -/
def resolveExternalPath (v : KernelVfs) (path : Path) : Option (ExternalMount × Path) :=
  (v.externalMounts.filterMap fun mount =>
    (externalMountPath mount.target path).map fun inner => (mount, inner)).foldl
    (fun best candidate => match best with
      | none => some candidate
      | some found =>
        if found.1.target.length ≤ candidate.1.target.length then some candidate else some found)
    none

def anyBelow (keys : List Path) (path : Path) : Bool :=
  keys.any fun key => path.isPrefixOf key && (path.isEmpty || key != path)

def externalStatPath (v : KernelVfs) (path : Path) : KernelResult (Option FileStat) :=
  if isShellTokenPath path then .ok none
  else if v.found path then .ok none
  else if isMemoryPreferredPath path then .ok none
  else
    match v.externalPreloaded[path]? with
    | some preloaded => .ok (some preloaded.2)
    | none =>
      if v.externalDeletions path then .ok none
      else
        match v.externalStatCache[path]? with
        | some stat => .ok (some stat)
        | none =>
          match v.resolveExternalPath path with
          | none => .ok none
          | some (mount, inner) =>
            if anyBelow v.externalPreloaded.keys path || anyBelow v.externalStatCache.keys path then
              .ok (some ⟨sIfdir ||| 0o755, 0, 1⟩)
            else
              match mount.ext4.stat inner with
              | .ok stat => .ok (some stat)
              | .error e => if e = enoent then .ok none else .error e

def isDirMode (mode : ℕ) : Bool := mode &&& sIfdir == sIfdir

/-- The end of `create_node`: the entry is made in the parent. -/
def createIn (path : Path) (parent : ℕ) (name : String) (node : Node) (v : KernelVfs) :
    KernelResult Unit × KernelVfs :=
  match (v.nodes parent).data with
  | .directory entries =>
    if entries.contains name then (.error eexist, v)
    else
      let v := { v with externalDeletions := update v.externalDeletions path false }
      let (n, v) := v.allocate node
      (.ok (), v.setData parent (.directory (entries.insert name n)))
  | _ => (.error enotdir, v)

/-- `create_node` under a parent that is in memory. -/
def createUnder (parentPath path : Path) (name : String) (node : Node) (v : KernelVfs) :
    KernelResult Unit × KernelVfs :=
  match v.lookupAbs parentPath with
  | .error e => (.error e, v)
  | .ok parent => v.createIn path parent name node

/-- The path is given from its end, as the recursion goes. The parent is in memory once it has been
ensured, so that `create_node` does not come back here. -/
def ensureUp : List String → KernelVfs → KernelResult Unit × KernelVfs
  | [], v => (.ok (), v)
  | component :: up, v =>
    let path := (component :: up).reverse
    if v.found path then (.ok (), v)
    else
      match ensureUp up v with
      | (.error e, v) => (.error e, v)
      | (.ok (), v) =>
        match v.externalStatPath path with
        | .error e => (.error e, v)
        | .ok none => (.error enoent, v)
        | .ok (some stat) =>
          if isDirMode stat.mode then v.createUnder up.reverse path component Node.directory
          else (.error enotdir, v)

def ensureMemoryDir (path : Path) (v : KernelVfs) : KernelResult Unit × KernelVfs :=
  ensureUp path.reverse v

def createNode (path : Path) (node : Node) (v : KernelVfs) : KernelResult Unit × KernelVfs :=
  match splitParent path with
  | .error _ => (.error eexist, v)
  | .ok (parentPath, name) =>
    match v.lookupAbs parentPath with
    | .ok parent => v.createIn path parent name node
    | .error e =>
      if e = enoent then
        match v.ensureMemoryDir parentPath with
        | (.error e, v) => (.error e, v)
        | (.ok (), v) => v.createUnder parentPath path name node
      else (.error e, v)

def setMode (path : Path) (mode : ℕ) (v : KernelVfs) : KernelVfs :=
  { v with memModes := update v.memModes path (some mode) }

def createWithMode (path : Path) (node : Node) (mode : ℕ) (v : KernelVfs) :
    KernelResult Unit × KernelVfs :=
  match v.createNode path node with
  | (.error e, v) => (.error e, v)
  | (.ok (), v) => (.ok (), v.setMode path mode)

def createFileWithMode (cwd : Path) (path : PathArg) (contents : List UInt8) (mode : ℕ)
    (v : KernelVfs) : KernelResult Unit × KernelVfs :=
  v.createWithMode (normalizePath cwd path) ⟨.file, .file contents⟩ (sIfreg ||| (mode &&& 0o7777))

def createSymlink (cwd : Path) (path target : PathArg) (v : KernelVfs) :
    KernelResult Unit × KernelVfs :=
  v.createWithMode (normalizePath cwd path) ⟨.symlink, .symlink target⟩ (sIflnk ||| 0o777)

def mkdir (cwd : Path) (path : PathArg) (mode : ℕ) (v : KernelVfs) :
    KernelResult Unit × KernelVfs :=
  v.createWithMode (normalizePath cwd path) Node.directory (sIfdir ||| (mode &&& 0o7777))

def enter (parent : ℕ) (entries : ExtTreeMap String ℕ) (name : String) (n : ℕ) (v : KernelVfs) :
    KernelVfs :=
  v.setData parent (.directory (entries.insert name n))

def leave (parent : ℕ) (entries : ExtTreeMap String ℕ) (name : String) (v : KernelVfs) :
    KernelVfs :=
  v.setData parent (.directory (entries.erase name))

def undelete (path : Path) (v : KernelVfs) : KernelVfs :=
  { v with externalDeletions := update v.externalDeletions path false }

/-- A directory with entries; a node that only looks like a directory has none. -/
def occupied (v : KernelVfs) (n : ℕ) : Bool :=
  (v.nodes n).kind == .directory &&
    match (v.nodes n).data with
    | .directory children => !children.isEmpty
    | _ => false

def forget (path : Path) (v : KernelVfs) : KernelVfs :=
  { v with
    socketBindings := update v.socketBindings path none
    memModes := update v.memModes path none
    externalPreloaded := v.externalPreloaded.erase path
    externalStatCache := v.externalStatCache.erase path
    externalDeletions :=
      if (v.resolveExternalPath path).isSome then update v.externalDeletions path true
      else v.externalDeletions }

def unlink (cwd : Path) (path : PathArg) (v : KernelVfs) : KernelResult Unit × KernelVfs :=
  let absolute := normalizePath cwd path
  match splitParent absolute with
  | .error e => (.error e, v)
  | .ok (parentPath, name) =>
    match v.lookupAbs parentPath with
    | .error e => (.error e, v)
    | .ok parent =>
      match (v.nodes parent).data with
      | .directory entries =>
        match entries[name]? with
        | none => (.error enoent, v)
        | some n =>
          if v.occupied n then (.error enotempty, v)
          else (.ok (), (v.leave parent entries name).forget absolute)
      | _ => (.error enotdir, v)

def copyMode (old new : Path) (v : KernelVfs) : KernelVfs :=
  match v.memModes old with
  | none => v
  | some mode => v.setMode new mode

def link (cwd : Path) (oldPath newPath : PathArg) (v : KernelVfs) :
    KernelResult Unit × KernelVfs :=
  let old := normalizePath cwd oldPath
  let new := normalizePath cwd newPath
  match v.lookupAbs old with
  | .error e => (.error e, v)
  | .ok n =>
    match splitParent new with
    | .error e => (.error e, v)
    | .ok (parentPath, name) =>
      match v.lookupAbs parentPath with
      | .error e => (.error e, v)
      | .ok parent =>
        match (v.nodes parent).data with
        | .directory entries =>
          if entries.contains name then (.error eexist, v)
          else (.ok (), ((v.enter parent entries name n).undelete new).copyMode old new)
        | _ => (.error enotdir, v)

def moveMode (old new : Path) (v : KernelVfs) : KernelVfs :=
  match v.memModes old with
  | none => v
  | some mode =>
    { v with
      memModes := update (update v.memModes old none) new (some mode) }

/-- The second half of `rename`: the node has left its old place and is put in the new one. -/
def renameInto (old new newParentPath : Path) (newName : String) (n : ℕ) (v : KernelVfs) :
    KernelResult Unit × KernelVfs :=
  match v.lookupAbs newParentPath with
  | .error e => (.error e, v)
  | .ok parent =>
    match (v.nodes parent).data with
    | .directory entries =>
      if entries.contains newName then (.error eexist, v)
      else (.ok (), ((v.enter parent entries newName n).undelete new).moveMode old new)
    | _ => (.error enotdir, v)

def rename (cwd : Path) (oldPath newPath : PathArg) (v : KernelVfs) :
    KernelResult Unit × KernelVfs :=
  let old := normalizePath cwd oldPath
  let new := normalizePath cwd newPath
  match splitParent old with
  | .error e => (.error e, v)
  | .ok (oldParentPath, oldName) =>
    match splitParent new with
    | .error e => (.error e, v)
    | .ok (newParentPath, newName) =>
      match v.lookupAbs oldParentPath with
      | .error e => (.error e, v)
      | .ok oldParent =>
        match (v.nodes oldParent).data with
        | .directory entries =>
          match entries[oldName]? with
          | none => (.error enoent, v)
          -- what fails from here on has already taken the entry away
          | some n => (v.leave oldParent entries oldName).renameInto old new newParentPath newName n
        | _ => (.error enotdir, v)

def createSocket (family sockType : ℕ) (v : KernelVfs) : ℕ × KernelVfs :=
  v.allocate ⟨.socket, if sockType = 3 then .socketRaw family none else .socketPending family none⟩

def rsplitColon (text : String) : Option (String × String) :=
  match text.toList.reverse.span (· ≠ ':') with
  | (_, []) => none
  | (port, _ :: ip) => some (String.ofList ip.reverse, String.ofList port.reverse)

/-- A port of zero stands at the end of the last component. -/
def assignEphemeralInetPath (path : Path) (v : KernelVfs) : Path × KernelVfs :=
  match path with
  | family :: component :: rest =>
    if family = "inet" ∨ family = "inet6" then
      match rsplitColon ((component :: rest).getLastD component) with
      | some (ip, "0") =>
        (path.dropLast ++ [ip ++ ":" ++ toString v.nextEphemeralPort],
          { v with nextEphemeralPort := min (v.nextEphemeralPort + 1) 65535 })
      | _ => (path, v)
    else (path, v)
  | _ => (path, v)

/-- An IPv4 socket is bound to any address or to the loopback. -/
def checkInetAddress (family : ℕ) (path : Path) : KernelResult Unit :=
  match path with
  | "inet" :: component :: rest =>
    if family = 2 then
      match rsplitColon ("/".intercalate (component :: rest)) with
      | none => .error einval
      | some (ip, _) =>
        if ip = "000.000.000.000" ∨ ip = "127.000.000.001" then .ok () else .error eaddrnotavail
    else .ok ()
  | _ => .ok ()

/-- The name of a Unix socket is entered unless it is abstract. -/
def enterSocket (n family : ℕ) (path : Path) (v : KernelVfs) : KernelResult Unit × KernelVfs :=
  if family = 1 ∧ ¬ (path.head? = some "__unix_abstract__" ∧ 1 < path.length) then
    if (v.socketBindings path).isSome then (.error eaddrinuse, v)
    else
      match splitParent path with
      | .error e => (.error e, v)
      | .ok (parentPath, name) =>
        match v.lookupAbs parentPath with
        | .error e => (.error e, v)
        | .ok parent =>
          if (v.nodes parent).kind ≠ .directory then (.error enotdir, v)
          else
            match (v.nodes parent).data with
            | .directory entries =>
              if entries.contains name then (.error eaddrinuse, v)
              else (.ok (), (v.enter parent entries name n).setMode path (sIfsock ||| 0o777))
            | _ => (.error enotdir, v)
  else (.ok (), v)

def bindSocket (n : ℕ) (cwd : Path) (path : PathArg) (v : KernelVfs) :
    KernelResult Path × KernelVfs :=
  let (absolute, v) := v.assignEphemeralInetPath (normalizePath cwd path)
  match (v.nodes n).data with
  | .socketPending family bound =>
    if bound.isSome then (.error einval, v)
    else
      match checkInetAddress family absolute with
      | .error e => (.error e, v)
      | .ok () =>
        match v.enterSocket n family absolute with
        | (.error e, v) => (.error e, v)
        | (.ok (), v) =>
          let v := v.setData n (.socketPending family (some absolute))
          (.ok absolute, { v with socketBindings := update v.socketBindings absolute (some n) })
  | .socketRaw family bound =>
    if bound.isSome then (.error einval, v)
    else
      match checkInetAddress family absolute with
      | .error e => (.error e, v)
      | .ok () =>
        match v.enterSocket n family absolute with
        | (.error e, v) => (.error e, v)
        | (.ok (), v) => (.ok absolute, v.setData n (.socketRaw family (some absolute)))
  | _ => (.error enotsock, v)

def empty : KernelVfs where
  nodes := fun _ => Node.directory
  next := 1
  mounts := []
  externalMounts := []
  externalStatCache := ∅
  externalPreloaded := ∅
  externalDeletions := fun _ => false
  memModes := fun _ => none
  socketBindings := fun _ => none
  nextEphemeralPort := 40000

/-- The nodes of `new` in their order; the texts of the proc files are left open. -/
def firstNodes (text : Path → List UInt8) : List (Path × Node) :=
  let dir (path : Path) := (path, Node.directory)
  let device (name : String) := (["dev", name], (⟨.charDevice, .charDevice⟩ : Node))
  let proc (path : Path) := (path, (⟨.proc, .procFile (text path)⟩ : Node))
  let conf (rest : Path) : Path := ["proc", "sys", "net", "ipv6", "conf"] ++ rest
  [dir ["dev"], dir ["proc"], dir ["mnt"], dir ["tmp"], dir ["bin"], dir ["etc"],
    dir ["proc", "net"], dir ["proc", "sys"], dir ["proc", "sys", "net"],
    dir ["proc", "sys", "user"], dir ["proc", "sys", "net", "ipv6"], dir (conf []),
    dir (conf ["all"]), dir (conf ["lo"]), dir (conf ["ltp_ns_veth1"]),
    dir (conf ["ltp_ns_veth2"]),
    device "console", device "null", device "zero", device "random", device "urandom",
    device "rtc0", proc ["proc", "mounts"], proc ["proc", "net", "if_inet6"],
    proc (conf ["all", "disable_ipv6"]), proc (conf ["lo", "disable_ipv6"]),
    proc (conf ["ltp_ns_veth1", "disable_ipv6"]), proc (conf ["ltp_ns_veth2", "disable_ipv6"]),
    dir ["proc", "sys"], dir ["proc", "sys", "user"], dir ["proc", "sys", "kernel"],
    dir ["proc", "sys", "kernel", "keys"], proc ["proc", "sys", "user", "max_user_namespaces"],
    proc ["proc", "sys", "kernel", "tainted"], proc ["proc", "key-users"],
    proc ["proc", "sys", "kernel", "keys", "gc_delay"],
    proc ["proc", "sys", "kernel", "keys", "maxkeys"],
    proc ["proc", "sys", "kernel", "keys", "maxbytes"], proc ["proc", "meminfo"],
    proc ["proc", "uptime"], proc ["proc", "stat"], proc ["proc", "version"],
    dir ["proc", "self"], proc ["proc", "self", "stat"], proc ["proc", "self", "maps"]]

/-- A directory is made by `mkdir`, which also notes its mode; that a node exists is ignored. -/
def addFirst (v : KernelVfs) (entry : Path × Node) : KernelVfs :=
  if entry.2.kind = .directory then
    (v.createWithMode entry.1 entry.2 (sIfdir ||| (0o755 &&& 0o7777))).2
  else (v.createNode entry.1 entry.2).2

def new (text : Path → List UInt8) : KernelVfs := (firstNodes text).foldl addFirst empty

end KernelVfs

end NameSpace
