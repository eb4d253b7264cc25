import Whuse.NameSpace

/-! The calls of the `vfs` crate that find a path: opening, stat, change of directory and listing,
each with its own order of looking at memory, preloaded files, deletions, stats and images. -/
namespace NameSpace

open List Option
open Std (ExtTreeMap)
open AddressSpace (KernelResult)

namespace KernelVfs

def isLibctestProbePath (path : Path) : Bool :=
  [["musl", "run-static.sh"], ["musl", "run-dynamic.sh"], ["musl", "libctest_testcode.sh"],
    ["musl", "runtest.exe"], ["musl", "entry-static.exe"], ["musl", "entry-dynamic.exe"]].contains
    path

def containsText (text : String) (part : String) : Bool :=
  text.toList.tails.any fun rest => part.toList.isPrefixOf rest

def pathText (path : Path) : String := "/" ++ "/".intercalate path

def inLibraries (path : Path) : Bool :=
  [["lib"], ["lib64"], ["glibc", "lib"], ["musl", "lib"]].any fun dir =>
    dir.isPrefixOf path && dir.length < path.length

def shouldUseStatlessExternalOpen (path : Path) (flags : ℕ) : Bool :=
  if hasFlag flags oDirectory then false
  else if path == ["etc", "localtime"] then true
  else if ["basic", "test_echo"].isSuffixOf path then true
  else if isLibctestProbePath path then true
  else if !inLibraries path then false
  else
    let text := pathText path
    containsText text "ld-linux" || containsText text "ld-musl" ||
      ".so".toList.isSuffixOf text.toList || containsText text ".so."

def ext4Node (mount : Ext4Mount) (inner : Path) (stat : FileStat) (cached : Option (List UInt8)) :
    Node :=
  if isDirMode stat.mode then ⟨.directory, .ext4Dir mount inner stat.mode stat.size none⟩
  else ⟨.file, .ext4File mount inner stat.mode stat.size cached⟩

def buildExt4Handle (path : Path) (mount : Ext4Mount) (inner : Path) (stat : FileStat)
    (cached : Option (List UInt8)) (v : KernelVfs) : FileHandle × KernelVfs :=
  let (n, v) := v.allocate (ext4Node mount inner stat cached)
  (⟨n, 0, oRdonly, path⟩, v)

def openStat (path : Path) (flags : ℕ) (mount : Ext4Mount) (inner : Path) (stat : FileStat)
    (cached : Option (List UInt8)) (v : KernelVfs) : KernelResult (Option FileHandle) × KernelVfs :=
  if hasFlag flags oDirectory && !isDirMode stat.mode then (.error enotdir, v)
  else
    let (handle, v) := v.buildExt4Handle path mount inner stat cached
    (.ok (some handle), v)

def rememberStat (path : Path) (stat : FileStat) (v : KernelVfs) : KernelVfs :=
  { v with externalStatCache := v.externalStatCache.insert path stat }

def tryOpenExternal (path : Path) (flags : ℕ) (v : KernelVfs) :
    KernelResult (Option FileHandle) × KernelVfs :=
  if isShellTokenPath path then (.ok none, v)
  else if v.found path then (.ok none, v)
  else if v.externalDeletions path then (.ok none, v)
  else
    match v.resolveExternalPath path with
    | none => (.ok none, v)
    | some (mount, inner) =>
      if hasFlag flags (oWronly ||| oRdwr ||| oCreat ||| oTrunc) then (.ok none, v)
      else
        match v.externalPreloaded[path]? with
        | some (cached, stat) => v.openStat path flags mount.ext4 inner stat (some cached)
        | none =>
          match v.externalStatCache[path]? with
          | some stat => v.openStat path flags mount.ext4 inner stat none
          | none =>
            if shouldUseStatlessExternalOpen path flags then
              let (handle, v) :=
                v.buildExt4Handle path mount.ext4 inner ⟨sIfreg ||| 0o755, 0, 1⟩ none
              (.ok (some handle), v)
            else
              match mount.ext4.stat inner with
              | .ok stat => (v.rememberStat path stat).openStat path flags mount.ext4 inner stat none
              | .error e => if e = enoent then (.ok none, v) else (.error e, v)

def truncated : NodeData → NodeData
  | .file _ => .file []
  | data => data

def openNode (path : Path) (flags n : ℕ) (v : KernelVfs) : KernelResult FileHandle × KernelVfs :=
  if hasFlag flags oDirectory && (v.nodes n).kind != .directory then (.error enotdir, v)
  else
    (.ok ⟨n, 0, flags, path⟩,
      if hasFlag flags oTrunc then v.setData n (truncated (v.nodes n).data) else v)

/-- A link is followed once. -/
def openResolved (path : Path) (flags n : ℕ) (v : KernelVfs) :
    KernelResult FileHandle × KernelVfs :=
  if (v.nodes n).kind = .symlink then
    match (v.nodes n).data with
    | .symlink target =>
      match splitParent path with
      | .error e => (.error e, v)
      | .ok (parentPath, _) =>
        let resolved := normalizePath parentPath target
        match v.lookupAbs resolved with
        | .ok m => v.openNode resolved flags m
        | .error e =>
          if e = enoent then
            match v.tryOpenExternal resolved flags with
            | (.error e, v) => (.error e, v)
            | (.ok none, v) => (.error enoent, v)
            | (.ok (some handle), v) => (.ok handle, v)
          else (.error e, v)
    | _ => (.error einval, v)
  else v.openNode path flags n

def openMem (path : Path) (flags mode : ℕ) (v : KernelVfs) : KernelResult FileHandle × KernelVfs :=
  match v.lookupAbs path with
  | .ok n => v.openResolved path flags n
  | .error e =>
    if e = enoent ∧ hasFlag flags oCreat then
      match v.createWithMode path ⟨.file, .file []⟩ (sIfreg ||| (mode &&& 0o7777)) with
      | (.error e, v) => (.error e, v)
      | (.ok (), v) =>
        match v.lookupAbs path with
        | .error e => (.error e, v)
        | .ok n => v.openResolved path flags n
    else (.error e, v)

def openPath (cwd : Path) (path : PathArg) (flags mode : ℕ) (v : KernelVfs) :
    KernelResult FileHandle × KernelVfs :=
  let absolute := normalizePath cwd path
  match v.tryOpenExternal absolute flags with
  | (.error e, v) => (.error e, v)
  | (.ok (some handle), v) => (.ok handle, v)
  | (.ok none, v) => v.openMem absolute flags mode

def readRange (mount : Ext4Mount) (inner : Path) (offset len : ℕ) : KernelResult (List UInt8) :=
  if len = 0 then .ok []
  else
    match mount.read inner with
    | .error e => .error e
    | .ok buf => .ok ((buf.drop offset).take len)

def isEndless (path : Path) : Bool :=
  [["dev", "zero"], ["dev", "random"], ["dev", "urandom"]].contains path

/-- `read_object`, with the new offset. The queue of a raw socket is not kept. -/
def readObject (path : Path) (data : NodeData) (offset len : ℕ) : KernelResult (List UInt8 × ℕ) :=
  let slice (buf : List UInt8) : List UInt8 × ℕ :=
    let start := min offset buf.length
    let stop := min (start + len) buf.length
    ((buf.take stop).drop start, stop)
  match data with
  | .directory _ => .error eisdir
  | .file buf => .ok (slice buf)
  | .procFile buf => .ok (slice buf)
  | .charDevice => .ok (if isEndless path then List.replicate len 0 else [], offset)
  | .symlink target => .ok ((("/".intercalate target).toUTF8.toList).take len, offset)
  | .socketPending _ _ => .error einval
  | .socketRaw _ _ => .error eagain
  | .ext4File _ _ _ _ (some cached) => .ok (slice cached)
  | .ext4File mount inner _ _ none =>
    match readRange mount inner offset len with
    | .error e => .error e
    | .ok bytes => .ok (bytes, offset + bytes.length)
  | .ext4Dir _ _ _ _ _ => .error eisdir

/-- What a handle at the start of a node reads up to the end. Nothing is said of the devices that
have none, nor of a link, which is read from its start each time. -/
def contents (path : Path) : NodeData → Option (KernelResult (List UInt8))
  | .directory _ => some (.error eisdir)
  | .file buf => some (.ok buf)
  | .procFile buf => some (.ok buf)
  | .charDevice => if isEndless path then none else some (.ok [])
  | .symlink _ => none
  | .socketPending _ _ => some (.error einval)
  | .socketRaw _ _ => some (.error eagain)
  | .ext4File mount inner _ _ cached =>
    match cached with
    | some buf => some (.ok buf)
    | none => some (mount.read inner)
  | .ext4Dir _ _ _ _ _ => some (.error eisdir)

def defaultMode : NodeKind → ℕ
  | .directory => sIfdir ||| 0o755
  | .file => sIfreg ||| 0o644
  | .proc => sIfreg ||| 0o644
  | .charDevice => sIfchr ||| 0o600
  | .symlink => sIflnk ||| 0o777
  | .socket => sIfsock ||| 0o644

/-- The queues of a socket are not kept, so that its size is that of an empty one. -/
def stat (v : KernelVfs) (path : Path) (n : ℕ) : FileStat :=
  let memMode := (v.memModes path).getD (defaultMode (v.nodes n).kind)
  match (v.nodes n).data with
  | .directory entries => ⟨memMode, entries.size, 1⟩
  | .file buf => ⟨memMode, buf.length, 1⟩
  | .procFile buf => ⟨memMode, buf.length, 1⟩
  | .charDevice => ⟨memMode, 0, 1⟩
  | .symlink target => ⟨memMode, PathArg.len target, 1⟩
  | .socketPending _ _ => ⟨memMode, 0, 1⟩
  | .socketRaw _ _ => ⟨memMode, 0, 1⟩
  | .ext4File _ _ mode size _ => ⟨mode, size, 1⟩
  | .ext4Dir _ _ mode size _ => ⟨mode, size, 1⟩

/-- The fuel is what is left of the sixteen links that are followed. -/
def statPathFollow (v : KernelVfs) : ℕ → Path → KernelResult FileStat
  | 0, _ => .error eloop
  | fuel + 1, path =>
    match v.externalStatPath path with
    | .error e => .error e
    | .ok (some stat) => .ok stat
    | .ok none =>
      match v.lookupAbs path with
      | .error e => .error e
      | .ok n =>
        if (v.nodes n).kind = .symlink then
          match (v.nodes n).data with
          | .symlink target =>
            match splitParent path with
            | .error e => .error e
            | .ok (parentPath, _) => statPathFollow v fuel (normalizePath parentPath target)
          | _ => .error einval
        else .ok (v.stat path n)

def statPath (v : KernelVfs) (cwd : Path) (path : PathArg) : KernelResult FileStat :=
  v.statPathFollow 16 (normalizePath cwd path)

/-- Below a mount every path is taken; whether it exists is left to the calls that follow. -/
def chdir (v : KernelVfs) (cwd : Path) (path : PathArg) : KernelResult Path :=
  let absolute := normalizePath cwd path
  match v.lookupAbs absolute with
  | .ok n => if (v.nodes n).kind ≠ .directory then .error enotdir else .ok absolute
  | .error _ =>
    if isMemoryPreferredPath absolute then .error enoent
    else if v.externalPreloaded.contains absolute then .ok absolute
    else
      match v.resolveExternalPath absolute with
      | some _ => .ok absolute
      | none => .error enoent

structure Dirent where
  index : ℕ
  name : String
  fileType : ℕ
  deriving DecidableEq, Repr

def nodeKindToDirentType : NodeKind → ℕ
  | .directory => 4
  | .symlink => 10
  | _ => 8

def ext4KindToDirentType : Ext4NodeKind → ℕ
  | .directory => 4
  | .symlink => 10
  | _ => 8

def reclen (name : String) : ℕ := (19 + name.utf8ByteSize + 1 + 7) / 8 * 8

/-- The records that fit; the first is given even when it does not. -/
def appendDirents (maxLen : ℕ) : ℕ → ℕ → List (String × ℕ) → List Dirent
  | _, _, [] => []
  | used, index, (name, fileType) :: rest =>
    if used ≠ 0 ∧ maxLen < used + reclen name then []
    else ⟨index, name, fileType⟩ :: appendDirents maxLen (used + reclen name) (index + 1) rest

def ext4DirStatCacheMaxSize : ℕ := 512 * 1024

def isDots (name : String) : Bool := name == "." || name == ".."

/-- The stats of the entries are remembered under the path of the handle. -/
def cacheExternalDirentStats (path : Path) (entries : List Ext4DirEntry) (v : KernelVfs) :
    KernelVfs :=
  entries.foldl (fun v entry => v.rememberStat (normalizePath path [entry.name]) entry.stat) v

/-- The entries of a directory of an image, which are read once for a handle's node. -/
def ext4Entries (path : Path) (mount : Ext4Mount) (inner : Path) (size : ℕ) (v : KernelVfs) :
    KernelResult (List Ext4DirEntryLite) × KernelVfs :=
  if size ≤ ext4DirStatCacheMaxSize then
    match mount.readDir inner with
    | .error e => (.error e, v)
    | .ok entries =>
      let entries := entries.filter fun entry => !isDots entry.name
      (.ok (entries.map (·.toExt4DirEntryLite)), v.cacheExternalDirentStats path entries)
  else
    match mount.readDirLite inner with
    | .error e => (.error e, v)
    | .ok entries => (.ok (entries.filter fun entry => !isDots entry.name), v)

/-- The records from the offset of the handle on. -/
def emit (handle : FileHandle) (maxLen : ℕ) (entries : List (String × ℕ)) :
    List Dirent × FileHandle :=
  let dirents := appendDirents maxLen 0 handle.offset (entries.drop handle.offset)
  (dirents, { handle with offset := handle.offset + dirents.length })

/-- An offset past the end goes back to it. -/
def emitExt4 (handle : FileHandle) (maxLen : ℕ) (entries : List Ext4DirEntryLite) :
    List Dirent × FileHandle :=
  if entries.length < handle.offset then ([], { handle with offset := entries.length })
  else emit handle maxLen (entries.map fun entry => (entry.name, ext4KindToDirentType entry.kind))

def getdents (handle : FileHandle) (maxLen : ℕ) (v : KernelVfs) :
    KernelResult (List Dirent × FileHandle) × KernelVfs :=
  if maxLen = 0 then (.ok ([], handle), v)
  else
    match (v.nodes handle.node).data with
    | .directory entries =>
      (.ok (emit handle maxLen (entries.toList.map fun entry =>
        (entry.1, nodeKindToDirentType (v.nodes entry.2).kind))), v)
    | .ext4Dir _ _ _ _ (some entries) => (.ok (emitExt4 handle maxLen entries), v)
    | .ext4Dir mount inner mode size none =>
      match v.ext4Entries handle.path mount inner size with
      | (.error e, v) => (.error e, v)
      | (.ok entries, v) =>
        (.ok (emitExt4 handle maxLen entries),
          v.setData handle.node (.ext4Dir mount inner mode size (some entries)))
    | _ => (.error enotdir, v)

def mountsText (mounts : List MountRecord) : String :=
  String.join (mounts.map fun mount =>
    mount.source ++ " " ++ pathText mount.target ++ " " ++ mount.fsType ++ "\n")

/-- The data of the node at a path becomes a proc file, whatever it was. -/
def replaceProcFile (path : Path) (contents : List UInt8) (v : KernelVfs) :
    KernelResult Unit × KernelVfs :=
  match v.lookupAbs path with
  | .error e => (.error e, v)
  | .ok n => (.ok (), v.setData n (.procFile contents))

def refreshMountsProc (v : KernelVfs) : KernelVfs :=
  (v.replaceProcFile ["proc", "mounts"] (mountsText v.mounts).toUTF8.toList).2

def addMount (record : MountRecord) (v : KernelVfs) : KernelVfs :=
  ({ v with mounts := v.mounts ++ [record] }).refreshMountsProc

def mount (source : String) (target : PathArg) (fsType : String) (v : KernelVfs) :
    KernelResult Unit × KernelVfs :=
  let absolute := normalizePath [] target
  if v.found absolute then (.ok (), v.addMount ⟨source, absolute, fsType⟩)
  else
    match v.createWithMode absolute Node.directory (sIfdir ||| (0o755 &&& 0o7777)) with
    | (.error e, v) => (.error e, v)
    | (.ok (), v) => (.ok (), v.addMount ⟨source, absolute, fsType⟩)

/-- What was learnt from the images is forgotten. -/
def clearExternal (v : KernelVfs) : KernelVfs :=
  { v with externalStatCache := ∅, externalPreloaded := ∅, externalDeletions := fun _ => false }

def umount (target : PathArg) (v : KernelVfs) : KernelResult Unit × KernelVfs :=
  let absolute := normalizePath [] target
  let mounts := v.mounts.filter (·.target ≠ absolute)
  let externalMounts := v.externalMounts.filter (·.target ≠ absolute)
  let w := { v with mounts := mounts, externalMounts := externalMounts }
  let w := if externalMounts.length ≠ v.externalMounts.length then w.clearExternal else w
  if mounts.length = v.mounts.length then (.error enoent, w) else (.ok (), w.refreshMountsProc)

end KernelVfs

end NameSpace
