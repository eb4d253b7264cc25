import Whuse.NameLookups

/-! What `open` does to the bytes under every path. An opening without `O_CREAT` only learns stats;
with it a file, and directories on the way to it, may take the place of what an image has. -/
namespace OpenFrames

open Std (ExtTreeMap)
open AddressSpace (KernelResult)
open NameSpace NameSpace.KernelVfs DirectoryTree NameLookups Function List

def readable : Option (KernelResult (List UInt8)) → Option (List UInt8)
  | some (.ok buf) => some buf
  | _ => none

/-- The bytes that an absolute path gives when it is opened read-only and read to the end. -/
def bytes (v : KernelVfs) (path : PathArg) : Option (List UInt8) :=
  match v.openPath [] path oRdonly 0 with
  | (.error _, _) => none
  | (.ok handle, w) => readable (contents handle.path (w.nodes handle.node).data)

def Existed (v : KernelVfs) (path : PathArg) : Prop :=
  (v.statPath [] path).isOk = true ∨ bytes v path ≠ none

def Follows (v : KernelVfs) (path target : Path) : Prop :=
  ∃ n text front name, v.lookupAbs path = .ok n ∧ (v.nodes n).kind = .symlink ∧
    (v.nodes n).data = .symlink text ∧ path = front ++ [name] ∧
    target = normalizePath front text

structure State where
  vfs : KernelVfs
  tree : Rooted vfs
  images : ∀ mount ∈ vfs.externalMounts, ∀ inner stat buf, mount.ext4.stat inner = .ok stat →
    mount.ext4.read inner = .ok buf → isDirMode stat.mode = false

/-- The path is missing in memory and to be created. A directory made on the way to it hides what
could be read; or the file made at the path hides what was there, or cuts a link to below it. -/
def Shadows (v : KernelVfs) (path : Path) (flags : ℕ) : Prop :=
  hasFlag flags oCreat = true ∧ v.lookupAbs path = .error enoent ∧
    ((∃ dir, Ensured v path.dropLast dir ∧ bytes v (absolute dir) ≠ none) ∨
      ((v.found path.dropLast = true ∨ NewDir v path.dropLast) ∧
        ((Existed v (absolute path) ∧ bytes v (absolute path) ≠ some []) ∨
          ∃ link target, Follows v (normalizePath [] link) target ∧ path <+: target ∧
            target ≠ path ∧ bytes v link ≠ none)))

def ext4Bytes (mount : Ext4Mount) (inner : Path) (stat : FileStat) (cached : Option (List UInt8)) :
    Option (List UInt8) :=
  readable (contents [] (ext4Node mount inner stat cached).data)

/-- What is read of a path that is not in memory. -/
def outsideBytes (v : KernelVfs) (path : Path) : Option (List UInt8) :=
  if isShellTokenPath path then none
  else if v.externalDeletions path then none
  else
    match v.resolveExternalPath path with
    | none => none
    | some (mount, inner) =>
      match v.externalPreloaded[path]? with
      | some (cached, stat) => ext4Bytes mount.ext4 inner stat (some cached)
      | none =>
        match v.externalStatCache[path]? with
        | some stat => ext4Bytes mount.ext4 inner stat none
        | none =>
          if shouldUseStatlessExternalOpen path oRdonly then
            ext4Bytes mount.ext4 inner ⟨sIfreg ||| 0o755, 0, 1⟩ none
          else
            match mount.ext4.stat inner with
            | .ok stat => ext4Bytes mount.ext4 inner stat none
            | .error _ => none

def nodeBytes (v : KernelVfs) (path : Path) (n : ℕ) : Option (List UInt8) :=
  readable (contents path (v.nodes n).data)

/-- What is read at the end of a link. -/
def targetBytes (v : KernelVfs) (target : Path) : Option (List UInt8) :=
  match v.lookupAbs target with
  | .ok n => nodeBytes v target n
  | .error e => if e = enoent then outsideBytes v target else none

/-- What is read of a path that leads to the node. -/
def resolvedBytes (v : KernelVfs) (path : Path) (node : Node) : Option (List UInt8) :=
  if node.kind = .symlink then
    match node.data with
    | .symlink text =>
      match splitParent path with
      | .error _ => none
      | .ok (front, _) => targetBytes v (normalizePath front text)
    | _ => none
  else readable (contents path node.data)

def pathBytes (v : KernelVfs) (path : Path) : Option (List UInt8) :=
  match v.lookupAbs path with
  | .error _ => outsideBytes v path
  | .ok n => resolvedBytes v path (v.nodes n)

def answerBytes : KernelResult (Option FileHandle) × KernelVfs → Option (List UInt8)
  | (.ok (some handle), w) => readable (contents handle.path (w.nodes handle.node).data)
  | _ => none

theorem answerBytes_openStat (path : Path) (mount : Ext4Mount) (inner : Path) (stat : FileStat)
    (cached : Option (List UInt8)) (v : KernelVfs) :
    answerBytes (v.openStat path oRdonly mount inner stat cached) =
      ext4Bytes mount inner stat cached := by
  have hnode : (v.allocate (ext4Node mount inner stat cached)).2.nodes v.next =
      ext4Node mount inner stat cached := update_self _ _ _
  change readable (contents path
    ((v.allocate (ext4Node mount inner stat cached)).2.nodes v.next).data) = _
  rw [hnode, ext4Bytes, ext4Node]
  split <;> rfl

variable {v w : KernelVfs} {front path target cwd : Path} {name : String} {flags n e : ℕ}

theorem answerBytes_tryOpenExternal (h : v.found path = false) :
    answerBytes (v.tryOpenExternal path oRdonly) = outsideBytes v path := by
  have hfound : ¬ v.found path = true := by
    rw [h]
    exact Bool.false_ne_true
  rw [tryOpenExternal, outsideBytes]
  by_cases hshell : isShellTokenPath path = true
  · rw [if_pos hshell, if_pos hshell]
    rfl
  rw [if_neg hshell, if_neg hshell, if_neg hfound]
  by_cases hdeleted : v.externalDeletions path = true
  · rw [if_pos hdeleted, if_pos hdeleted]
    rfl
  rw [if_neg hdeleted, if_neg hdeleted]
  rcases v.resolveExternalPath path with _ | ⟨mount, inner⟩
  · rfl
  dsimp only
  rcases v.externalPreloaded[path]? with _ | ⟨cached, stat⟩
  · rcases v.externalStatCache[path]? with _ | stat
    · by_cases hstatless : shouldUseStatlessExternalOpen path oRdonly = true
      · rw [if_pos hstatless, if_pos hstatless]
        exact answerBytes_openStat path mount.ext4 inner _ none v
      rw [if_neg hstatless, if_neg hstatless]
      rcases mount.ext4.stat inner with e | stat
      · dsimp only
        by_cases he : e = enoent
        · rw [if_pos he]
          rfl
        · rw [if_neg he]
          rfl
      · exact answerBytes_openStat path mount.ext4 inner stat none _
    · exact answerBytes_openStat path mount.ext4 inner stat none v
  · exact answerBytes_openStat path mount.ext4 inner stat (some cached) v

theorem openStat_ne_none (path : Path) (flags : ℕ) (mount : Ext4Mount) (inner : Path)
    (stat : FileStat) (cached : Option (List UInt8)) (v : KernelVfs) :
    (v.openStat path flags mount inner stat cached).1 ≠ .ok none := by
  rw [openStat]
  split
  · rintro ⟨⟩
  · rintro ⟨⟩

theorem tryOpenExternal_none (h : v.tryOpenExternal path flags = (.ok none, w)) : w = v := by
  have hsame : ∀ {answer : KernelResult (Option FileHandle)}, (answer, v) = (.ok none, w) →
      w = v := fun heq => (Prod.mk.inj heq).2.symm
  rw [tryOpenExternal] at h
  split at h
  · exact hsame h
  split at h
  · exact hsame h
  split at h
  · exact hsame h
  split at h
  · exact hsame h
  split at h
  · exact hsame h
  split at h
  · exact absurd (congrArg Prod.fst h) (openStat_ne_none _ _ _ _ _ _ _)
  split at h
  · exact absurd (congrArg Prod.fst h) (openStat_ne_none _ _ _ _ _ _ _)
  split at h
  · cases congrArg Prod.fst h
  split at h
  · exact absurd (congrArg Prod.fst h) (openStat_ne_none _ _ _ _ _ _ _)
  split at h
  · exact hsame h
  · exact hsame h

/-- The bytes of an answer of `open`. -/
def handleBytes : KernelResult FileHandle × KernelVfs → Option (List UInt8)
  | (.ok handle, w) => readable (contents handle.path (w.nodes handle.node).data)
  | _ => none

theorem handleBytes_openNode (v : KernelVfs) (path : Path) (n : ℕ) :
    handleBytes (v.openNode path oRdonly n) = nodeBytes v path n := rfl

theorem handleBytes_openResolved (v : KernelVfs) (path : Path) (n : ℕ) :
    handleBytes (v.openResolved path oRdonly n) = resolvedBytes v path (v.nodes n) := by
  rw [openResolved, resolvedBytes]
  by_cases hlink : (v.nodes n).kind = .symlink
  · rw [if_pos hlink, if_pos hlink]
    cases (v.nodes n).data with
    | symlink text =>
      rcases splitParent path with e | ⟨front, name⟩
      · rfl
      dsimp only
      rw [targetBytes]
      cases hlookup : v.lookupAbs (normalizePath front text) with
      | ok m => exact handleBytes_openNode v _ m
      | error e =>
        dsimp only
        by_cases he : e = enoent
        · rw [if_pos he, if_pos he, ← answerBytes_tryOpenExternal (found_eq_false hlookup)]
          rcases v.tryOpenExternal (normalizePath front text) oRdonly with ⟨_ | _ | handle, w⟩
          all_goals rfl
        · rw [if_neg he, if_neg he]
          rfl
    | _ => rfl
  · rw [if_neg hlink, if_neg hlink]
    exact handleBytes_openNode v path n

theorem bytes_eq (v : KernelVfs) (path : PathArg) :
    bytes v path = pathBytes v (normalizePath [] path) := by
  have hbytes : bytes v path = handleBytes (v.openPath [] path oRdonly 0) := by
    rw [bytes]
    rcases v.openPath [] path oRdonly 0 with ⟨_ | handle, w⟩ <;> rfl
  rw [hbytes, openPath, pathBytes]
  cases hlookup : v.lookupAbs (normalizePath [] path) with
  | ok n =>
    have hfound : v.found (normalizePath [] path) = true := (found_iff v _).mpr ⟨n, hlookup⟩
    rw [tryOpenExternal, if_pos hfound, ite_self]
    dsimp only
    rw [openMem, hlookup]
    exact handleBytes_openResolved v _ n
  | error e =>
    rw [← answerBytes_tryOpenExternal (found_eq_false hlookup)]
    have hnothing : handleBytes (v.openMem (normalizePath [] path) oRdonly 0) = none := by
      have hcreat : ¬ (e = enoent ∧ hasFlag oRdonly oCreat = true) := by
        rintro ⟨-, hflag⟩
        exact absurd hflag (by decide)
      rw [openMem, hlookup]
      simp only [if_neg hcreat]
      rfl
    rcases hres : v.tryOpenExternal (normalizePath [] path) oRdonly with ⟨_ | _ | handle, w⟩
    · rfl
    · obtain rfl := tryOpenExternal_none hres
      exact hnothing
    · rfl

theorem pathBytes_of_error (h : v.lookupAbs path = .error e) :
    pathBytes v path = outsideBytes v path := by
  rw [pathBytes, h]

theorem pathBytes_of_follows (h : Follows v path target) :
    pathBytes v path = targetBytes v target := by
  obtain ⟨n, text, front, name, hlookup, hkind, hdata, rfl, rfl⟩ := h
  rw [pathBytes, hlookup]
  dsimp only
  rw [resolvedBytes, if_pos hkind, hdata, splitParent_append]

theorem targetBytes_of_enoent (h : v.lookupAbs target = .error enoent) :
    targetBytes v target = outsideBytes v target := by
  rw [targetBytes, h]
  exact if_pos rfl

theorem targetBytes_of_ok (h : v.lookupAbs target = .ok n) :
    targetBytes v target = nodeBytes v target n := by
  rw [targetBytes, h]

theorem bare_kind (node : Node) : (bare node).kind = node.kind := by
  rw [bare]
  split <;> rfl

theorem bare_symlink {node : Node} {text : PathArg} :
    (bare node).data = .symlink text ↔ node.data = .symlink text := by
  rw [bare]
  split
  · next hdata => simp [hdata]
  · rfl

theorem resolvedBytes_bare (v : KernelVfs) (path : Path) (node : Node) :
    resolvedBytes v path (bare node) = resolvedBytes v path node := by
  obtain ⟨kind, data⟩ := node
  cases data <;> rfl

theorem nodeBytes_bare (v : KernelVfs) (path : Path) (n : ℕ) :
    nodeBytes v path n = readable (contents path (bare (v.nodes n)).data) := by
  rw [nodeBytes, bare]
  split
  · next hdata => rw [hdata]; rfl
  · rfl

section Congruence

variable {w : KernelVfs}

theorem agrees_follows (h : Agrees v w path) (hlink : Follows v path target) :
    Follows w path target := by
  obtain ⟨n, text, front, name, hlookup, hkind, hdata, hpath, htarget⟩ := hlink
  have hnode := h.node n hlookup
  refine ⟨n, text, front, name, h.lookup.trans hlookup, ?_, ?_, hpath, htarget⟩
  · rw [← bare_kind, hnode, bare_kind, hkind]
  · rw [← bare_symlink, hnode, bare_symlink, hdata]

theorem agrees_targetBytes (h : Agrees v w path)
    (houtside : outsideBytes w path = outsideBytes v path) :
    targetBytes w path = targetBytes v path := by
  rw [targetBytes, targetBytes, h.lookup, houtside]
  cases hlookup : v.lookupAbs path with
  | error e => rfl
  | ok n =>
    dsimp only
    rw [nodeBytes_bare, nodeBytes_bare, h.node n hlookup]

theorem agrees_pathBytes (h : Agrees v w path)
    (houtside : outsideBytes w path = outsideBytes v path)
    (hlink : ∀ target, Follows v path target → targetBytes w target = targetBytes v target) :
    pathBytes w path = pathBytes v path := by
  rw [pathBytes, pathBytes, h.lookup, houtside]
  rcases hv : v.lookupAbs path with e | n
  · rfl
  dsimp only
  rw [← resolvedBytes_bare w, h.node n hv, resolvedBytes_bare, resolvedBytes, resolvedBytes]
  by_cases hsymlink : (v.nodes n).kind = .symlink
  · rw [if_pos hsymlink, if_pos hsymlink]
    cases htext : (v.nodes n).data with
    | symlink text =>
      rcases hsplit : splitParent path with e | pair
      · rfl
      obtain ⟨front, name⟩ := pair
      exact hlink _ ⟨n, text, front, name, hv, hsymlink, htext, splitParent_eq_ok hsplit, rfl⟩
    | _ => rfl
  · rw [if_neg hsymlink, if_neg hsymlink]

theorem outsideBytes_congr (hmounts : w.externalMounts = v.externalMounts)
    (hcache : w.externalStatCache = v.externalStatCache)
    (hpreloaded : w.externalPreloaded = v.externalPreloaded)
    (hdeletions : w.externalDeletions path = v.externalDeletions path) :
    outsideBytes w path = outsideBytes v path := by
  have hresolve : w.resolveExternalPath path = v.resolveExternalPath path := by
    rw [resolveExternalPath, resolveExternalPath, hmounts]
  rw [outsideBytes, outsideBytes, hdeletions, hresolve, hpreloaded, hcache]

theorem lookup_congr (h : Rooted v) (hdata : ∀ n, n < v.next → (w.nodes n).data = (v.nodes n).data)
    (path : Path) : w.lookupAbs path = v.lookupAbs path := by
  induction path using List.reverseRecOn with
  | nil => rfl
  | append_singleton front name ih =>
    cases hfront : v.lookupAbs front with
    | error e =>
      rw [hfront] at ih
      rw [lookup_concat_of_error ih, lookup_concat_of_error hfront]
    | ok m =>
      rw [hfront] at ih
      rw [lookup_concat_of_ok ih, lookup_concat_of_ok hfront]
      exact lookupFrom_one_congr (hdata m (h.reached_lt (Rooted.lookup_reaches hfront))) name

end Congruence

/-- The tree is the same but for nodes of handles, and outside of it the same is read. -/
structure Same (v w : KernelVfs) : Prop where
  rooted : Rooted w
  mounts : w.externalMounts = v.externalMounts
  nodes : ∀ n, n < v.next → w.nodes n = v.nodes n
  next : v.next ≤ w.next
  outside : ∀ path, outsideBytes w path = outsideBytes v path

namespace Same

variable {w : KernelVfs}

theorem refl (h : Rooted v) : Same v v :=
  ⟨h, rfl, fun _ _ => rfl, Nat.le_refl _, fun _ => rfl⟩

theorem lookup (h : Same v w) (hv : Rooted v) (path : Path) :
    w.lookupAbs path = v.lookupAbs path := by
  apply lookup_congr hv
  intro n hn
  rw [h.nodes n hn]

theorem agrees (h : Same v w) (hv : Rooted v) (path : Path) : Agrees v w path := by
  refine ⟨h.lookup hv path, fun n hn => ?_⟩
  rw [h.nodes n (hv.reached_lt (Rooted.lookup_reaches hn))]

theorem pathBytes (h : Same v w) (hv : Rooted v) (path : Path) :
    OpenFrames.pathBytes w path = OpenFrames.pathBytes v path :=
  agrees_pathBytes (h.agrees hv path) (h.outside path) fun target _ =>
    agrees_targetBytes (h.agrees hv target) (h.outside target)

/-- A stat that the image gives does not change what is read: a file that is opened without a stat
is no directory if it can be read. -/
theorem rememberStat (h : Same v w)
    (himages : ∀ mount ∈ v.externalMounts,
      ∀ inner stat buf, mount.ext4.stat inner = .ok stat → mount.ext4.read inner = .ok buf →
      KernelVfs.isDirMode stat.mode = false) {stat : FileStat} (hstat : w.OnImage path stat)
    (hcache : w.externalStatCache[path]? = none) :
    Same v (w.rememberStat path stat) where
  rooted := h.rooted.congr rfl rfl
  mounts := h.mounts
  nodes := h.nodes
  next := h.next
  outside := by
    intro other
    rw [← h.outside other]
    by_cases heq : other = path
    · subst heq
      obtain ⟨mount, inner, hresolve, himage⟩ := hstat
      have hmount : mount ∈ v.externalMounts := by
        rw [← h.mounts]
        exact KernelVfs.mem_of_resolveExternalPath hresolve
      have hnow : (w.rememberStat other stat).externalStatCache[other]? = some stat :=
        ExtTreeMap.getElem?_insert_self
      have hthere : (w.rememberStat other stat).resolveExternalPath other = some (mount, inner) :=
        hresolve
      rw [outsideBytes, outsideBytes, hresolve, hthere, hcache, hnow]
      simp only [himage]
      have hstatless : ext4Bytes mount.ext4 inner ⟨sIfreg ||| 0o755, 0, 1⟩ none =
          ext4Bytes mount.ext4 inner stat none := by
        have hfile : ¬ KernelVfs.isDirMode (sIfreg ||| 0o755) = true := by decide
        rw [ext4Bytes, ext4Bytes, KernelVfs.ext4Node, KernelVfs.ext4Node, if_neg hfile]
        by_cases hdir : KernelVfs.isDirMode stat.mode = true
        · rw [if_pos hdir]
          cases hread : mount.ext4.read inner with
          | error e =>
            rw [KernelVfs.contents, hread]
            rfl
          | ok buf =>
            rw [himages mount hmount inner stat buf himage hread] at hdir
            exact absurd hdir Bool.false_ne_true
        · rw [if_neg hdir]
          rfl
      rw [hstatless, ite_self]
      rfl
    · have hcmp : ¬ compare path other = .eq := fun hc =>
        heq (Std.LawfulEqOrd.compare_eq_iff_eq.mp hc).symm
      have hother : (w.rememberStat path stat).externalStatCache[other]? =
          w.externalStatCache[other]? := by
        rw [KernelVfs.rememberStat, ExtTreeMap.getElem?_insert, if_neg hcmp]
      rw [outsideBytes, hother]
      rfl

theorem allocate (h : Same v w) {node : Node} (hnode : node.data.isDirectory = false) :
    Same v (w.allocate node).2 where
  rooted := (h.rooted.allocate (NodeData.entries_eq_empty hnode)).1
  mounts := h.mounts
  nodes := by
    intro n hn
    rw [← h.nodes n hn]
    exact update_of_ne (Nat.ne_of_lt (Nat.lt_of_lt_of_le hn h.next)) _ _
  next := Nat.le_trans h.next (Nat.le_succ _)
  outside := h.outside

theorem setMode (h : Rooted v) (path : Path) (mode : ℕ) : Same v (v.setMode path mode) :=
  ⟨h.congr rfl rfl, rfl, fun _ _ => rfl, Nat.le_refl _, fun _ => rfl⟩

end Same

theorem openPath_same (s : State) {path : PathArg} (htrunc : hasFlag flags oTrunc = false)
    (hnot : ¬ (hasFlag flags oCreat = true ∧
      s.vfs.lookupAbs (normalizePath cwd path) = .error enoent))
    (mode : ℕ) : Same s.vfs (s.vfs.openPath cwd path flags mode).2 := by
  apply openPath_rule _ _ _ (Same.refl s.tree)
  · intro w other hw
    apply tryOpenExternal_rule _ _ hw
    · intro w' path' stat hw' hstat hcache
      exact hw'.rememberStat s.images hstat hcache
    · intro w' node hw' hnode
      exact hw'.allocate hnode
  · intro hcreat w mode' hw hmissing
    rw [hw.lookup s.tree] at hmissing
    exact absurd ⟨hcreat, hmissing⟩ hnot
  · intro htrunc'
    rw [htrunc] at htrunc'
    exact absurd htrunc' Bool.false_ne_true

theorem tryOpenExternal_of_creat (h : hasFlag flags oCreat = true) (path : Path) (v : KernelVfs) :
    v.tryOpenExternal path flags = (.ok none, v) := by
  have hflags : hasFlag flags (oWronly ||| oRdwr ||| oCreat ||| oTrunc) = true := by
    have hmask : (oWronly ||| oRdwr ||| oCreat ||| oTrunc) &&& oCreat = oCreat := by decide
    rw [hasFlag, bne_iff_ne] at h ⊢
    intro hzero
    apply h
    rw [← hmask, ← Nat.land_assoc, hzero, Nat.zero_and]
  rw [tryOpenExternal]
  rcases v.resolveExternalPath path with _ | ⟨mount, inner⟩
  · simp
  · simp [if_pos hflags]

theorem openResolved_of_creat (hcreat : hasFlag flags oCreat = true)
    (htrunc : hasFlag flags oTrunc = false) (path : Path) (n : ℕ) (v : KernelVfs) :
    (v.openResolved path flags n).2 = v := by
  have hnode : ∀ other m, (v.openNode other flags m).2 = v := by
    intro other m
    rw [openNode, htrunc]
    split
    · rfl
    · rfl
  rw [openResolved]
  by_cases hlink : (v.nodes n).kind = .symlink
  · rw [if_pos hlink]
    cases (v.nodes n).data with
    | symlink text =>
      rcases splitParent path with e | ⟨front, name⟩
      · rfl
      dsimp only
      rw [tryOpenExternal_of_creat hcreat]
      rcases v.lookupAbs (normalizePath front text) with e | m
      · dsimp only
        split
        · rfl
        · rfl
      · exact hnode _ m
    | _ => rfl
  · rw [if_neg hlink]
    exact hnode path n

/-- With `O_CREAT` the state after an opening of a missing path is that after its creation. -/
theorem openPath_of_creat {path : PathArg} (hcreat : hasFlag flags oCreat = true)
    (htrunc : hasFlag flags oTrunc = false)
    (hmissing : v.lookupAbs (normalizePath cwd path) = .error enoent) (mode : ℕ) :
    (v.openPath cwd path flags mode).2 =
      (v.createWithMode (normalizePath cwd path) ⟨.file, .file []⟩
        (sIfreg ||| (mode &&& 0o7777))).2 := by
  rw [openPath, tryOpenExternal_of_creat hcreat]
  dsimp only
  rw [openMem, hmissing]
  simp only [hcreat]
  rcases v.createWithMode (normalizePath cwd path) ⟨.file, .file []⟩
    (sIfreg ||| (mode &&& 0o7777)) with ⟨_ | ⟨⟩, w⟩
  · rfl
  dsimp only
  rcases w.lookupAbs (normalizePath cwd path) with e | n
  · rfl
  · exact openResolved_of_creat hcreat htrunc _ n w

section Growth

variable {w : KernelVfs} {S : Path → Prop}

theorem grown_outsideBytes (h : Grown v S w) (hpath : ¬ S path) :
    outsideBytes w path = outsideBytes v path :=
  outsideBytes_congr h.mounts h.cache h.preloaded (h.deletions path hpath)

theorem grown_pathBytes_made (h : Grown v S w) (hpath : S path) : pathBytes w path = none := by
  obtain ⟨-, n, hn, hdir⟩ := h.made path hpath
  rw [pathBytes, hn]
  dsimp only
  rw [← resolvedBytes_bare, hdir]
  rfl

theorem grown_targetBytes (h : Grown v S w) (hnone : S target → outsideBytes v target = none) :
    targetBytes w target = targetBytes v target := by
  by_cases hS : S target
  · obtain ⟨hmissing, n, hn, hdir⟩ := h.made target hS
    rw [targetBytes_of_ok hn, targetBytes_of_enoent hmissing, hnone hS, nodeBytes_bare, hdir]
    rfl
  · exact agrees_targetBytes (h.kept target hS) (grown_outsideBytes h hS)

theorem grown_pathBytes (h : Grown v S w) (hnone : ∀ path, S path → outsideBytes v path = none)
    (path : Path) : pathBytes w path = pathBytes v path := by
  by_cases hS : S path
  · rw [grown_pathBytes_made h hS, pathBytes_of_error (h.made path hS).1, hnone path hS]
  · exact agrees_pathBytes (h.kept path hS) (grown_outsideBytes h hS) fun target _ =>
      grown_targetBytes h (hnone target)

/-- The links are the same: what was made are directories. -/
theorem grown_follows (h : Grown v S w) : Follows w path target ↔ Follows v path target := by
  constructor
  · intro hlink
    have hS : ¬ S path := by
      intro hS
      obtain ⟨-, m, hm, hdir⟩ := h.made path hS
      obtain ⟨n, -, -, -, hlookup, hkind, -⟩ := hlink
      rw [← Except.ok.inj (hm.symm.trans hlookup), ← bare_kind, hdir] at hkind
      cases hkind
    exact agrees_follows (h.kept path hS).symm hlink
  · intro hlink
    have hS : ¬ S path := by
      intro hS
      obtain ⟨n, -, -, -, hlookup, -⟩ := hlink
      rw [(h.made path hS).1] at hlookup
      cases hlookup
    exact agrees_follows (h.kept path hS) hlink

end Growth

section NewFile

variable {parent : ℕ} {entries : ExtTreeMap String ℕ}

def withFile (v : KernelVfs) (front : Path) (name : String) (parent : ℕ)
    (entries : ExtTreeMap String ℕ) : KernelVfs :=
  v.addNode (front ++ [name]) parent entries name ⟨.file, .file []⟩

variable (h : Rooted v) (hparent : v.lookupAbs front = .ok parent)
  (hdata : (v.nodes parent).data = .directory entries)
include h hparent hdata

theorem withFile_lookup_self :
    (withFile v front name parent entries).lookupAbs (front ++ [name]) = .ok v.next := by
  rw [withFile, addNode_lookup h hparent hdata rfl, if_pos rfl]

theorem withFile_lookup_below (hbelow : front ++ [name] <+: path) (hne : path ≠ front ++ [name]) :
    (withFile v front name parent entries).lookupAbs path = .error enotdir := by
  rw [withFile, addNode_lookup h hparent hdata rfl, if_neg hne, if_pos hbelow]
  rfl

theorem withFile_pathBytes_self :
    pathBytes (withFile v front name parent entries) (front ++ [name]) = some [] := by
  rw [pathBytes, withFile_lookup_self h hparent hdata]
  dsimp only
  rw [withFile, addNode_nodes_next h hparent]
  rfl

theorem withFile_targetBytes_self :
    targetBytes (withFile v front name parent entries) (front ++ [name]) = some [] := by
  rw [targetBytes_of_ok (withFile_lookup_self h hparent hdata), nodeBytes, withFile,
    addNode_nodes_next h hparent]
  rfl

theorem withFile_targetBytes_below (hbelow : front ++ [name] <+: path)
    (hne : path ≠ front ++ [name]) :
    targetBytes (withFile v front name parent entries) path = none := by
  rw [targetBytes, withFile_lookup_below h hparent hdata hbelow hne]
  exact if_neg enoent_ne_enotdir.symm

omit h hparent hdata in
theorem withFile_outsideBytes (hne : path ≠ front ++ [name]) :
    outsideBytes (withFile v front name parent entries) path = outsideBytes v path := by
  have hdeletions : (withFile v front name parent entries).externalDeletions path =
      v.externalDeletions path := update_of_ne hne _ _
  exact outsideBytes_congr (v := v) (w := withFile v front name parent entries) rfl rfl rfl
    hdeletions

variable (hfree : entries.contains name = false)
include hfree

theorem withFile_agrees (hapart : ¬ front ++ [name] <+: path) :
    Agrees v (withFile v front name parent entries) path := by
  refine addNode_agrees h hparent hdata hfree rfl ?_ fun hbelow => absurd hbelow hapart
  rintro rfl
  exact hapart (prefix_refl _)

theorem withFile_follows (hlink : Follows v path target) :
    Follows (withFile v front name parent entries) path target := by
  have hmissing := lookup_concat_of_free hparent hdata hfree
  have hapart : ¬ front ++ [name] <+: path := by
    rintro ⟨rest, rfl⟩
    obtain ⟨n, -, -, -, hlookup, -⟩ := hlink
    rw [lookup_append_of_error hmissing] at hlookup
    cases hlookup
  exact agrees_follows (withFile_agrees h hparent hdata hfree hapart) hlink

theorem withFile_pathBytes (hne : path ≠ front ++ [name])
    (hlinks : ∀ target, Follows v path target → ¬ front ++ [name] <+: target) :
    pathBytes (withFile v front name parent entries) path = pathBytes v path := by
  by_cases hbelow : front ++ [name] <+: path
  · have hmissing := lookup_concat_of_free hparent hdata hfree
    obtain ⟨rest, rfl⟩ := hbelow
    rw [pathBytes_of_error (withFile_lookup_below h hparent hdata (prefix_append _ _) hne),
      pathBytes_of_error (lookup_append_of_error hmissing rest), withFile_outsideBytes hne]
  · refine agrees_pathBytes (withFile_agrees h hparent hdata hfree hbelow)
      (withFile_outsideBytes hne) fun target hlink => agrees_targetBytes
        (withFile_agrees h hparent hdata hfree (hlinks target hlink)) (withFile_outsideBytes ?_)
    rintro rfl
    exact hlinks _ hlink (prefix_refl _)

end NewFile

theorem existed_congr {path other : PathArg} (h : normalizePath [] path = normalizePath [] other)
    (hexisted : Existed v path) : Existed v other := by
  rw [Existed, statPath, bytes_eq, h] at hexisted
  rw [Existed, bytes_eq]
  exact hexisted

/-- The state after the creation of a missing path, as far as reading goes. -/
theorem creation_cases (s : State) (hmissing : s.vfs.lookupAbs (front ++ [name]) = .error enoent)
    (mode : ℕ) :
    ∃ w, Grown s.vfs (Ensured s.vfs front) w ∧
      (((¬ (s.vfs.found front = true ∨ NewDir s.vfs front)) ∧
        ∀ path, pathBytes (s.vfs.createWithMode (front ++ [name]) ⟨.file, .file []⟩ mode).2 path =
          pathBytes w path) ∨
      ((s.vfs.found front = true ∨ NewDir s.vfs front) ∧
        ∃ m entries, w.lookupAbs front = .ok m ∧ (w.nodes m).data = .directory entries ∧
          entries.contains name = false ∧
          ∀ path, pathBytes (s.vfs.createWithMode (front ++ [name]) ⟨.file, .file []⟩ mode).2 path =
            pathBytes (withFile w front name m entries) path)) := by
  rcases createNode_spec s.tree ⟨.file, .file []⟩ hmissing with
    ⟨hnot, e, w, hgrown, heq⟩ | ⟨hready, w, m, entries, hgrown, hm, hdata, hfree, heq⟩
  · refine ⟨w, hgrown, .inl ⟨hnot, ?_⟩⟩
    intro path
    rw [createWithMode, heq]
  refine ⟨w, hgrown, .inr ⟨hready, m, entries, hm, hdata, hfree, ?_⟩⟩
  intro path
  have hrooted : Rooted (withFile w front name m entries) :=
    hgrown.rooted.addNode (Rooted.lookup_reaches hm) hdata hfree rfl
  rw [createWithMode, heq]
  exact (Same.setMode hrooted _ mode).pathBytes hrooted path

theorem existed_of_follows {link path : PathArg}
    (hlink : Follows v (normalizePath [] link) (normalizePath [] path))
    (hmissing : v.lookupAbs (normalizePath [] path) = .error enoent) (hexisted : Existed v link) :
    Existed v path := by
  rcases hexisted with hstat | hbytes
  · left
    obtain ⟨n, text, front, name, hlookup, hkind, hdata, hpath, htarget⟩ := hlink
    have hfound : v.found (normalizePath [] link) = true := (found_iff v _).mpr ⟨n, hlookup⟩
    have hnone : v.externalStatPath (normalizePath [] link) = .ok none := by
      rw [externalStatPath, if_pos hfound, ite_self]
    rw [statPath, statPathFollow, hnone, hlookup] at hstat
    dsimp only at hstat
    rw [if_pos hkind, hdata, hpath, splitParent_append] at hstat
    dsimp only at hstat
    rw [← htarget, statPathFollow, hmissing] at hstat
    rw [statPath, statPathFollow, hmissing]
    exact hstat
  · right
    rw [bytes_eq, pathBytes_of_follows hlink, targetBytes_of_enoent hmissing] at hbytes
    rw [bytes_eq, pathBytes_of_error hmissing]
    exact hbytes

section

variable (s : State) (hclean : Clean (front ++ [name]))
  (hmissing : s.vfs.lookupAbs (front ++ [name]) = .error enoent)
include hclean hmissing

theorem creation_keeps (hcreat : hasFlag flags oCreat = true)
    (hnot : ¬ Shadows s.vfs (front ++ [name]) flags) (mode : ℕ) (path : PathArg)
    (hexisted : Existed s.vfs path) :
    bytes (s.vfs.createWithMode (front ++ [name]) ⟨.file, .file []⟩ mode).2 path =
      bytes s.vfs path := by
  rw [Shadows, dropLast_concat] at hnot
  have habsolute : normalizePath [] (absolute (front ++ [name])) = front ++ [name] :=
    normalizePath_absolute hclean
  have hnone : ∀ dir, Ensured s.vfs front dir → outsideBytes s.vfs dir = none := by
    intro dir hdir
    by_contra hbytes
    have hdirclean : Clean dir := hclean.of_front (hdir.1.trans (prefix_append _ _))
    refine hnot ⟨hcreat, hmissing, .inl ⟨dir, hdir, ?_⟩⟩
    rw [bytes_eq, normalizePath_absolute hdirclean, pathBytes_of_error hdir.2.1]
    exact hbytes
  obtain ⟨w, hgrown, ⟨-, hbytes⟩ | ⟨hready, m, entries, hm, hdata, hfree, hbytes⟩⟩ :=
    creation_cases s hmissing mode
  · rw [bytes_eq, bytes_eq, hbytes]
    exact grown_pathBytes hgrown hnone _
  have hempty : Existed s.vfs (absolute (front ++ [name])) →
      outsideBytes s.vfs (front ++ [name]) = some [] := by
    intro hthere
    rw [← pathBytes_of_error hmissing, ← habsolute, ← bytes_eq]
    by_contra hother
    exact hnot ⟨hcreat, hmissing, .inr ⟨hready, .inl ⟨hthere, hother⟩⟩⟩
  rw [bytes_eq, hbytes]
  by_cases hself : normalizePath [] path = front ++ [name]
  · rw [hself, withFile_pathBytes_self hgrown.rooted hm hdata, bytes_eq, hself,
      pathBytes_of_error hmissing,
      hempty (existed_congr (hself.trans habsolute.symm) hexisted)]
  by_cases hlink : ∃ target, Follows w (normalizePath [] path) target ∧ front ++ [name] <+: target
  · obtain ⟨target, hfollows, hbelow⟩ := hlink
    have hold := (grown_follows hgrown).mp hfollows
    rw [pathBytes_of_follows (withFile_follows hgrown.rooted hm hdata hfree hfollows)]
    by_cases htarget : target = front ++ [name]
    · rw [htarget] at hold ⊢
      rw [withFile_targetBytes_self hgrown.rooted hm hdata, bytes_eq,
        pathBytes_of_follows hold, targetBytes_of_enoent hmissing, hempty
          (existed_of_follows (habsolute.symm ▸ hold) (habsolute.symm ▸ hmissing) hexisted)]
    · rw [withFile_targetBytes_below hgrown.rooted hm hdata hbelow htarget]
      by_contra hread
      exact hnot ⟨hcreat, hmissing,
        .inr ⟨hready, .inr ⟨path, target, hold, hbelow, htarget, Ne.symm hread⟩⟩⟩
  · rw [withFile_pathBytes hgrown.rooted hm hdata hfree hself
        fun target hfollows hbelow => hlink ⟨target, hfollows, hbelow⟩,
      grown_pathBytes hgrown hnone, bytes_eq]

theorem creation_shadows (mode : ℕ)
    (hkeeps : ∀ path, Existed s.vfs path →
      bytes (s.vfs.createWithMode (front ++ [name]) ⟨.file, .file []⟩ mode).2 path =
        bytes s.vfs path) : ¬ Shadows s.vfs (front ++ [name]) flags := by
  rw [Shadows, dropLast_concat]
  obtain ⟨w, hgrown, hcases⟩ := creation_cases s hmissing mode
  rintro ⟨-, -, ⟨dir, hdir, hbytes⟩ | ⟨hready, hfile⟩⟩
  · have hdirclean : Clean dir := hclean.of_front (hdir.1.trans (prefix_append _ _))
    apply hbytes
    rw [← hkeeps (absolute dir) (.inr hbytes), bytes_eq, normalizePath_absolute hdirclean]
    rcases hcases with ⟨-, hafter⟩ | ⟨-, m, entries, hm, hdata, hfree, hafter⟩
    · rw [hafter, grown_pathBytes_made hgrown hdir]
    have hne : dir ≠ front ++ [name] := fun heq => not_ensured_self (heq ▸ hdir)
    have hnolink : ∀ target, Follows w dir target → ¬ front ++ [name] <+: target := by
      intro target hfollows
      obtain ⟨n, -, -, -, hlookup, -⟩ := (grown_follows hgrown).mp hfollows
      rw [hdir.2.1] at hlookup
      cases hlookup
    rw [hafter, withFile_pathBytes hgrown.rooted hm hdata hfree hne hnolink,
      grown_pathBytes_made hgrown hdir]
  · rcases hcases with ⟨hnot, -⟩ | ⟨-, m, entries, hm, hdata, hfree, hafter⟩
    · exact hnot hready
    rcases hfile with ⟨hexisted, hbytes⟩ | ⟨link, target, hfollows, hbelow, hne, hbytes⟩
    · apply hbytes
      rw [← hkeeps _ hexisted, bytes_eq, normalizePath_absolute hclean, hafter,
        withFile_pathBytes_self hgrown.rooted hm hdata]
    · apply hbytes
      have hnow := (grown_follows hgrown).mpr hfollows
      rw [← hkeeps link (.inr hbytes), bytes_eq, hafter,
        pathBytes_of_follows (withFile_follows hgrown.rooted hm hdata hfree hnow),
        withFile_targetBytes_below hgrown.rooted hm hdata hbelow hne]

end

def image : Ext4Mount where
  stat := fun path =>
    if path = [] then .ok ⟨sIfdir ||| 0o755, 4096, 1⟩
    else if path = ["data"] then .ok ⟨sIfreg ||| 0o644, 2, 1⟩
    else .error enoent
  read := fun path =>
    if path = ["data"] then .ok [104, 105]
    else if path = [] then .error eisdir
    else .error enoent
  readDir := fun path =>
    if path = [] then .ok [⟨⟨"data", .regular⟩, ⟨sIfreg ||| 0o644, 2, 1⟩⟩]
    else .error enoent
  readDirLite := fun path => if path = [] then .ok [⟨"data", .regular⟩] else .error enoent

def mounted : State where
  vfs := start (fun _ => []) ⟨[⟨[], image⟩], ∅, ∅, fun _ => false⟩
  tree := Rooted.start _ _
  images := by
    intro mount hmount inner stat buf hstat hread
    obtain rfl : mount = ⟨[], image⟩ := mem_singleton.mp hmount
    simp only [image] at hstat hread
    by_cases hinner : inner = ["data"]
    · subst hinner
      obtain rfl : (⟨sIfreg ||| 0o644, 2, 1⟩ : FileStat) = stat := Except.ok.inj hstat
      decide
    · rw [if_neg hinner] at hread
      split at hread
      · cases hread
      · cases hread

/-- Opening without truncation keeps the bytes of every path that existed exactly if no node is made
in the place of something. -/
theorem opening_keeps_bytes (s : State) (cwd : Path) (path : PathArg) (flags mode : ℕ)
    (htrunc : hasFlag flags oTrunc = false) :
    (∀ other, Existed s.vfs other →
      bytes (s.vfs.openPath cwd path flags mode).2 other = bytes s.vfs other) ↔
      ¬ Shadows s.vfs (normalizePath cwd path) flags := by
  by_cases hcreating : hasFlag flags oCreat = true ∧
      s.vfs.lookupAbs (normalizePath cwd path) = .error enoent
  · obtain ⟨hcreat, hmissing⟩ := hcreating
    rw [openPath_of_creat hcreat htrunc hmissing]
    have hclean := normalizePath_clean cwd path
    generalize normalizePath cwd path = absolutePath at *
    rcases eq_nil_or_concat absolutePath with rfl | ⟨front, name, rfl⟩
    · cases hmissing
    rw [concat_eq_append] at *
    exact ⟨creation_shadows s hclean hmissing _,
      fun hnot => creation_keeps s hclean hmissing hcreat hnot _⟩
  · constructor
    · rintro - ⟨hcreat, hmissing, -⟩
      exact hcreating ⟨hcreat, hmissing⟩
    · intro _ other _
      rw [bytes_eq, bytes_eq]
      exact (openPath_same s htrunc hcreating mode).pathBytes s.tree _

/-- Reading `/data` of the image costs nothing. -/
theorem opening_keeps_bytes_reading : hasFlag oRdonly oTrunc = false ∧
    ∀ other, Existed mounted.vfs other →
      bytes (mounted.vfs.openPath [] ["", "data"] oRdonly 0).2 other = bytes mounted.vfs other :=
  ⟨by decide, (opening_keeps_bytes mounted [] ["", "data"] oRdonly 0 (by decide)).mpr
    fun hshadows => absurd hshadows.1 (by decide)⟩

/-- `open("/data", O_CREAT | O_RDWR)` succeeds and the two bytes of the image are gone. -/
theorem creat_hides_image_file : hasFlag (oCreat ||| oRdwr) oTrunc = false ∧
      (mounted.vfs.openPath [] ["", "data"] (oCreat ||| oRdwr) 0o644).1.isOk = true ∧
      Existed mounted.vfs ["", "data"] ∧
      bytes mounted.vfs ["", "data"] = some [104, 105] ∧
      bytes (mounted.vfs.openPath [] ["", "data"] (oCreat ||| oRdwr) 0o644).2 ["", "data"] =
        some [] := by
  refine ⟨by decide, by decide +kernel, .inl ?_, by decide +kernel, by decide +kernel⟩
  decide +kernel

end OpenFrames
