import Whuse.NameEdits

/-! Whether the directories in memory form a tree. A new directory is a leaf and a renamed one is
detached before it is put in its new place; only `link` makes a second entry for a directory. -/
namespace DirectoryTree

open Std (ExtTreeMap)
open NameSpace NameSpace.KernelVfs RootedForest Function List

def trail (v : KernelVfs) : ℕ → Path → List ℕ
  | n, [] => [n]
  | n, name :: rest =>
    n :: match (v.entriesAt n)[name]? with
      | none => []
      | some m => trail v m rest

/-- A directory other than the root is an entry of one directory under the root, unless it is
detached, and has one name there; none is below itself, and a lookup meets no node twice. -/
structure Tree (v : KernelVfs) : Prop where
  placed : ∀ n, v.IsDir n → n ≠ root →
    (∃! p, Reaches v.Entry root p ∧ Child v.Entry p n) ∨ ¬ Reaches v.Entry root n
  named : ∀ n, v.IsDir n → ∀ p a b, Reaches v.Entry root p → v.Entry p a n → v.Entry p b n → a = b
  acyclic : ∀ n, ¬ Below v.Entry n n
  lookups : ∀ path, (trail v root path).Nodup

inductive Call where
  | mkdir (cwd : Path) (path : PathArg) (mode : ℕ)
  | create (cwd : Path) (path : PathArg) (contents : List UInt8) (mode : ℕ)
  | openPath (cwd : Path) (path : PathArg) (flags mode : ℕ)
  | link (cwd : Path) (oldPath newPath : PathArg)
  | symlink (cwd : Path) (path target : PathArg)
  | rename (cwd : Path) (oldPath newPath : PathArg)
  | unlink (cwd : Path) (path : PathArg)
  | socket (family sockType : ℕ)
  | bind (n : ℕ) (cwd : Path) (path : PathArg)

def Call.step : Call → KernelVfs → KernelVfs
  | .mkdir cwd path mode, v => (v.mkdir cwd path mode).2
  | .create cwd path contents mode, v => (v.createFileWithMode cwd path contents mode).2
  | .openPath cwd path flags mode, v => (v.openPath cwd path flags mode).2
  | .link cwd oldPath newPath, v => (v.link cwd oldPath newPath).2
  | .symlink cwd path target, v => (v.createSymlink cwd path target).2
  | .rename cwd oldPath newPath, v => (v.rename cwd oldPath newPath).2
  | .unlink cwd path, v => (v.unlink cwd path).2
  | .socket family sockType, v => (v.createSocket family sockType).2
  | .bind n cwd path, v => (v.bindSocket n cwd path).2

/-- A directory is found under the old path, and the new path is free in a directory. -/
def LinksDirectory (v : KernelVfs) (old new : Path) : Prop :=
  ∃ n parentPath name parent, v.lookupAbs old = .ok n ∧ v.IsDir n ∧
    new = parentPath ++ [name] ∧ v.lookupAbs parentPath = .ok parent ∧ v.IsDir parent ∧
    (v.entriesAt parent)[name]? = none

def Call.Safe (v : KernelVfs) : Call → Prop
  | .link cwd oldPath newPath =>
    ¬ LinksDirectory v (normalizePath cwd oldPath) (normalizePath cwd newPath)
  | _ => True

/-- A property of every state of a run. -/
def Always (P : KernelVfs → Prop) : KernelVfs → List Call → Prop
  | v, [] => P v
  | v, call :: rest => P v ∧ Always P (call.step v) rest

def AllSafe : KernelVfs → List Call → Prop
  | _, [] => True
  | v, call :: rest => call.Safe v ∧ AllSafe (call.step v) rest

structure Outside where
  externalMounts : List ExternalMount
  externalStatCache : ExtTreeMap Path FileStat
  externalPreloaded : ExtTreeMap Path (List UInt8 × FileStat)
  externalDeletions : Path → Bool

def Outside.put (outside : Outside) (v : KernelVfs) : KernelVfs :=
  { v with
    externalMounts := outside.externalMounts
    externalStatCache := outside.externalStatCache
    externalPreloaded := outside.externalPreloaded
    externalDeletions := outside.externalDeletions }

def start (text : Path → List UInt8) (outside : Outside) : KernelVfs :=
  outside.put (KernelVfs.new text)

/-- The directories form a forest in which the root has no entry; the nodes not yet made are
empty directories without one. -/
structure Rooted (v : KernelVfs) : Prop where
  forest : Forest v.IsDir v.Entry
  orphan : Orphan v.Entry root
  isDir : v.IsDir root
  old : root < v.next
  filed : ∀ p name c, v.Entry p name c → c < v.next
  blank : ∀ n, v.next ≤ n → v.nodes n = Node.directory

variable {entries : ExtTreeMap String ℕ} {w v : KernelVfs} {node : Node} {n parent : ℕ}

theorem entry_congr (h : w.nodes = v.nodes) : w.Entry = v.Entry := by
  funext p name c
  rw [Entry, entriesAt, h]
  rfl

theorem isDir_congr (h : w.nodes = v.nodes) : w.IsDir = v.IsDir := by
  funext n
  rw [IsDir, h]
  rfl

namespace Rooted

variable {v : KernelVfs} {cwd : Path} {call : Call}

section

variable (h : Rooted v) {name : String}
include h

theorem congr (hnodes : w.nodes = v.nodes) (hnext : w.next = v.next) : Rooted w where
  forest := by
    rw [entry_congr hnodes, isDir_congr hnodes]
    exact h.forest
  orphan := by
    rw [entry_congr hnodes]
    exact h.orphan
  isDir := by
    rw [isDir_congr hnodes]
    exact h.isDir
  old := hnext ▸ h.old
  filed := by
    rw [entry_congr hnodes, hnext]
    exact h.filed
  blank := by
    rw [hnodes, hnext]
    exact h.blank

theorem reached_lt (hreach : Reaches v.Entry root n) : n < v.next := by
  rcases Relation.ReflTransGen.cases_tail hreach with heq | ⟨p, -, name, hentry⟩
  · rw [heq]
    exact h.old
  · exact h.filed p name n hentry

theorem lt_of_not_isDir (hn : ¬ v.IsDir n) : n < v.next := by
  by_contra hge
  apply hn
  rw [IsDir, h.blank n (Nat.le_of_not_lt hge)]
  rfl

theorem enter (hparent : Reaches v.Entry root parent)
    (hdata : (v.nodes parent).data = .directory entries) (hfree : entries.contains name = false)
    (hn : n < v.next) (horphan : v.IsDir n → Orphan v.Entry n ∧ n ≠ root) :
    Rooted (v.enter parent entries name n) := by
  have hdir : v.IsDir parent := isDir_of_data hdata
  have hentry := enter_entry_iff hdata name n hfree
  have hkinds : (v.enter parent entries name n).IsDir = v.IsDir := by
    funext m
    exact propext (setData_isDir_iff (by rw [hdata]; rfl) m)
  -- a detached directory is not above the parent, and what is no directory is above nothing
  have hnot : ¬ Reaches v.Entry n parent := by
    intro habove
    by_cases hnode : v.IsDir n
    · obtain ⟨hdetached, hne⟩ := horphan hnode
      exact hne (h.forest.orphan_unique h.orphan hdetached hparent hdir habove)
    · have heq := eq_of_reaches_leaf (fun a c hc => hnode (Entry.isDir hc)) habove
      rw [heq] at hnode
      exact hnode hdir
  constructor
  · rw [hkinds]
    apply h.forest.attach hdir (fun hnode => (horphan hnode).1) hnot
    intro q b c hc
    exact (hentry q b c).mp hc
  · intro p a hroot
    rcases (hentry p a root).mp hroot with hold | ⟨-, -, heq⟩
    · exact h.orphan p a hold
    · exact (horphan (heq ▸ h.isDir)).2 heq.symm
  · rw [hkinds]
    exact h.isDir
  · exact h.old
  · intro p a c hc
    rcases (hentry p a c).mp hc with hold | ⟨-, -, rfl⟩
    · exact h.filed p a c hold
    · exact hn
  · intro m hm
    have hne : m ≠ parent := by
      intro heq
      have hlt := h.reached_lt hparent
      rw [← heq] at hlt
      exact absurd hlt (Nat.not_lt.mpr hm)
    rw [KernelVfs.enter, setData_nodes_of_ne hne]
    exact h.blank m hm

theorem leave (hparent : parent < v.next)
    (hdata : (v.nodes parent).data = .directory entries) (name : String) :
    Rooted (v.leave parent entries name) := by
  have hentry := leave_entry_iff hdata name
  have hkinds : (v.leave parent entries name).IsDir = v.IsDir := by
    funext m
    exact propext (setData_isDir_iff (by rw [hdata]; rfl) m)
  constructor
  · rw [hkinds]
    apply h.forest.mono
    · intro p a c hc
      exact ((hentry p a c).mp hc).1
    · intro p a c hc
      exact h.forest.inner ((hentry p a c).mp hc).1
    · intro p a c _ hc
      exact hc
  · intro p a hroot
    exact h.orphan p a ((hentry p a root).mp hroot).1
  · rw [hkinds]
    exact h.isDir
  · exact h.old
  · intro p a c hc
    exact h.filed p a c ((hentry p a c).mp hc).1
  · intro m hm
    have hne : m ≠ parent := by
      intro heq
      rw [← heq] at hparent
      exact absurd hparent (Nat.not_lt.mpr hm)
    rw [KernelVfs.leave, setData_nodes_of_ne hne]
    exact h.blank m hm

theorem setData {data : NodeData} (hn : ¬ v.IsDir n)
    (hdata : data.isDirectory = false) : Rooted (v.setData n data) := by
  have hold : (v.nodes n).data.isDirectory = false := Bool.not_eq_true _ ▸ hn
  have hkinds : (v.setData n data).IsDir = v.IsDir := by
    funext m
    exact propext (setData_isDir_iff (hdata.trans hold.symm) m)
  have hentry : (v.setData n data).Entry = v.Entry := by
    funext p a c
    by_cases hp : p = n
    · rw [Entry, Entry, hp, setData_entriesAt_self,
        NodeData.entries_eq_empty hdata, entriesAt, NodeData.entries_eq_empty hold]
    · rw [Entry, Entry, setData_entriesAt_of_ne hp]
  constructor
  · rw [hkinds, hentry]
    exact h.forest
  · rw [hentry]
    exact h.orphan
  · rw [hkinds]
    exact h.isDir
  · exact h.old
  · rw [hentry]
    exact h.filed
  · intro m hm
    have hne : m ≠ n := by
      intro heq
      have hlt := h.lt_of_not_isDir hn
      rw [← heq] at hlt
      exact absurd hlt (Nat.not_lt.mpr hm)
    rw [setData_nodes_of_ne hne]
    exact h.blank m hm

theorem allocate (hnode : node.data.entries = ∅) :
    Rooted (v.allocate node).2 ∧ (v.allocate node).2.Entry = v.Entry := by
  have hself : (v.allocate node).2.nodes v.next = node := update_self _ _ _
  have hother : ∀ m, m ≠ v.next → (v.allocate node).2.nodes m = v.nodes m :=
    fun m hm => update_of_ne hm _ _
  have hentry : (v.allocate node).2.Entry = v.Entry := by
    funext p a c
    by_cases hp : p = v.next
    · rw [Entry, entriesAt, hp, hself, hnode, Entry, entriesAt, h.blank v.next (Nat.le_refl _)]
      rfl
    · rw [Entry, entriesAt, hother p hp, Entry, entriesAt]
  have hkinds : ∀ m, m < v.next → ((v.allocate node).2.IsDir m ↔ v.IsDir m) := by
    intro m hm
    rw [IsDir, hother m (Nat.ne_of_lt hm), IsDir]
  -- the new node has no edges, so that its kind does not matter
  have hparent : ∀ p a c, v.Entry p a c → p < v.next := by
    intro p a c hc
    by_contra hge
    rw [Entry, entriesAt, h.blank p (Nat.le_of_not_lt hge)] at hc
    exact absurd hc (by simp [Node.directory, NodeData.entries])
  refine ⟨⟨?_, ?_, ?_, ?_, ?_, ?_⟩, hentry⟩
  · rw [hentry]
    apply h.forest.mono
    · intro p a c hc
      exact hc
    · intro p a c hc
      exact (hkinds p (hparent p a c hc)).mpr (h.forest.inner hc)
    · intro p a c hc hdir
      exact (hkinds c (h.filed p a c hc)).mp hdir
  · rw [hentry]
    exact h.orphan
  · exact (hkinds root h.old).mpr h.isDir
  · exact Nat.lt_succ_of_lt h.old
  · rw [hentry]
    intro p a c hc
    exact Nat.lt_succ_of_lt (h.filed p a c hc)
  · intro m hm
    rw [hother m (Nat.ne_of_gt hm)]
    exact h.blank m (Nat.le_of_succ_le hm)

/-- A new node is entered: a leaf that nothing else has an entry for. -/
theorem addNode {path : Path} (hparent : Reaches v.Entry root parent)
    (hdata : (v.nodes parent).data = .directory entries) (hfree : entries.contains name = false)
    (hnode : node.data.entries = ∅) : Rooted (v.addNode path parent entries name node) := by
  have hundeleted : Rooted (v.undelete path) := h.congr rfl rfl
  obtain ⟨hnew, hentry⟩ := hundeleted.allocate hnode
  have hne : parent ≠ v.next := Nat.ne_of_lt (h.reached_lt hparent)
  have hreach : Reaches ((v.undelete path).allocate node).2.Entry root parent := by
    rw [hentry]
    exact hparent
  have hstill : (((v.undelete path).allocate node).2.nodes parent).data = .directory entries := by
    rw [← hdata]
    exact congrArg Node.data (update_of_ne hne _ _)
  apply hnew.enter hreach hstill hfree (Nat.lt_succ_self v.next)
  intro _
  refine ⟨?_, Nat.ne_of_gt h.old⟩
  intro p a hc
  rw [hentry] at hc
  exact absurd (h.filed p a v.next hc) (Nat.lt_irrefl _)

end

theorem lookup_reaches {path : Path} (hlookup : v.lookupAbs path = .ok n) :
    Reaches v.Entry root n :=
  reaches_of_lookupFrom root hlookup

theorem keepsAdding (path : Path) (hnode : node.data.entries = ∅) :
    KeepsAdding Rooted path node := by
  intro w parentPath parent entries name made hw hparent hdata hfree _ hmade
  apply hw.addNode (lookup_reaches hparent) hdata hfree
  rcases hmade with rfl | rfl
  · rfl
  · exact hnode

theorem createNode (h : Rooted v) (path : Path) (hnode : node.data.entries = ∅) :
    Rooted (v.createNode path node).2 :=
  createNode_rule (keepsAdding path hnode) h

theorem createWithMode (h : Rooted v) (path : Path) (hnode : node.data.entries = ∅) (mode : ℕ) :
    Rooted (v.createWithMode path node mode).2 := by
  have hmade := h.createNode path hnode
  rw [KernelVfs.createWithMode]
  rcases hres : v.createNode path node with ⟨_ | ⟨⟩, w⟩
  · rw [hres] at hmade
    exact hmade
  · rw [hres] at hmade
    exact hmade.congr rfl rfl

theorem unlink (h : Rooted v) (cwd : Path) (path : PathArg) : Rooted (v.unlink cwd path).2 := by
  unfold KernelVfs.unlink
  dsimp only
  split
  · exact h
  split
  · exact h
  next hparent =>
  split
  swap
  · exact h
  next hdata =>
  split
  · exact h
  split
  · exact h
  · exact (h.leave (h.reached_lt (lookup_reaches hparent)) hdata _).congr rfl rfl

theorem copyMode_nodes (old new : Path) (w : KernelVfs) :
    (w.copyMode old new).nodes = w.nodes ∧ (w.copyMode old new).next = w.next := by
  rw [copyMode]
  cases w.memModes old <;> exact ⟨rfl, rfl⟩

theorem moveMode_nodes (old new : Path) (w : KernelVfs) :
    (w.moveMode old new).nodes = w.nodes ∧ (w.moveMode old new).next = w.next := by
  rw [moveMode]
  cases w.memModes old <;> exact ⟨rfl, rfl⟩

/-- Between its two halves `rename` has taken the only entry of a directory away. -/
theorem rename (h : Rooted v) (cwd : Path) (oldPath newPath : PathArg) :
    Rooted (v.rename cwd oldPath newPath).2 := by
  unfold KernelVfs.rename
  dsimp only
  split
  · exact h
  next oldParentPath oldName _ =>
  split
  · exact h
  split
  · exact h
  next oldParent hparent =>
  split
  swap
  · exact h
  next entries hdata =>
  split
  · exact h
  next n hentry =>
  have hleft := h.leave (h.reached_lt (lookup_reaches hparent)) hdata oldName
  have hedge : v.Entry oldParent oldName n := by
    rw [Entry, entriesAt_of_data hdata]
    exact hentry
  have hdetached : v.IsDir n → Orphan (v.leave oldParent entries oldName).Entry n := by
    intro hdir p a hc
    obtain ⟨hold, hother⟩ := (leave_entry_iff hdata oldName p a n).mp hc
    exact hother (h.forest.single hdir hold hedge)
  have hne : n ≠ root := by
    intro hroot
    rw [hroot] at hedge
    exact h.orphan oldParent oldName hedge
  unfold renameInto
  split
  · exact hleft
  next hnew =>
  split
  swap
  · exact hleft
  next hdata' =>
  split
  · exact hleft
  next hname =>
  have hentered := hleft.enter (lookup_reaches hnew) hdata' (Bool.not_eq_true _ ▸ hname)
    (h.filed _ _ n hedge)
    fun hdir => ⟨hdetached ((setData_isDir_iff (by rw [hdata]; rfl) n).mp hdir), hne⟩
  exact hentered.congr (moveMode_nodes _ _ _).1 (moveMode_nodes _ _ _).2

/-- The node stays what it was, for it is not the directory it is entered in. -/
theorem enterSocket (h : Rooted v) (hnode : ¬ v.IsDir n) (family : ℕ) (path : Path) :
    Rooted (v.enterSocket n family path).2 ∧ ¬ (v.enterSocket n family path).2.IsDir n := by
  unfold KernelVfs.enterSocket
  split
  swap
  · exact ⟨h, hnode⟩
  split
  · exact ⟨h, hnode⟩
  split
  · exact ⟨h, hnode⟩
  split
  · exact ⟨h, hnode⟩
  next hparent =>
  split
  · exact ⟨h, hnode⟩
  split
  swap
  · exact ⟨h, hnode⟩
  next hdata =>
  split
  · exact ⟨h, hnode⟩
  next hname =>
  have hentered := h.enter (lookup_reaches hparent) hdata (Bool.not_eq_true _ ▸ hname)
    (h.lt_of_not_isDir hnode) fun hdir => absurd hdir hnode
  refine ⟨hentered.congr rfl rfl, fun hafter => hnode ?_⟩
  exact (setData_isDir_iff (by rw [hdata]; rfl) n).mp hafter

theorem bindSocket (h : Rooted v) (n : ℕ) (cwd : Path) (path : PathArg) :
    Rooted (v.bindSocket n cwd path).2 := by
  have hassign : Rooted (v.assignEphemeralInetPath (normalizePath cwd path)).2 := by
    rw [assignEphemeralInetPath.eq_def]
    repeat' split
    · exact h.congr rfl rfl
    all_goals exact h
  rw [KernelVfs.bindSocket]
  rcases hres : v.assignEphemeralInetPath (normalizePath cwd path) with ⟨absolute, w⟩
  rw [hres] at hassign
  dsimp only at hassign ⊢
  cases hnode : (w.nodes n).data with
  | socketPending family bound | socketRaw family bound =>
    have hnot : ¬ w.IsDir n := by rw [IsDir, hnode]; exact Bool.false_ne_true
    cases bound with
    | some path => exact hassign
    | none =>
      obtain ⟨hin, hstill⟩ := hassign.enterSocket hnot family absolute
      dsimp only [Option.isSome_none]
      rcases checkInetAddress family absolute with _ | ⟨⟩
      · exact hassign
      rcases hres : w.enterSocket n family absolute with ⟨_ | ⟨⟩, w'⟩ <;> rw [hres] at hin hstill
      · exact hin
      · exact (hin.setData hstill rfl).congr rfl rfl
  | _ => exact hassign

theorem openPath (h : Rooted v) (cwd : Path) (path : PathArg) (flags mode : ℕ) :
    Rooted (v.openPath cwd path flags mode).2 := by
  apply openPath_rule _ _ _ h
  · intro w path hw
    apply tryOpenExternal_rule _ _ hw
    · intro w path stat hw _ _
      exact hw.congr rfl rfl
    · intro w node hw hnode
      exact (hw.allocate (NodeData.entries_eq_empty hnode)).1
  · intro _ w mode hw _
    exact hw.createWithMode _ rfl mode
  · intro _ w n hw
    cases hdata : (w.nodes n).data with
    | file buf =>
      apply hw.setData
      · rw [IsDir, hdata]
        exact Bool.false_ne_true
      · rfl
    | _ =>
      have hnodes : (w.setData n (w.nodes n).data).nodes = w.nodes := update_eq_self n w.nodes
      rw [hdata] at hnodes
      exact hw.congr hnodes rfl

/-- A second name for what is no directory does no harm. -/
theorem link (h : Rooted v) {oldPath newPath : PathArg}
    (hsafe : ¬ LinksDirectory v (normalizePath cwd oldPath) (normalizePath cwd newPath)) :
    Rooted (v.link cwd oldPath newPath).2 := by
  unfold KernelVfs.link
  dsimp only
  split
  · exact h
  next n hold =>
  split
  · exact h
  next parentPath name hsplit =>
  split
  · exact h
  next parent hparent =>
  split
  swap
  · exact h
  next entries hdata =>
  split
  · exact h
  next hname =>
  have hfree : entries.contains name = false := Bool.not_eq_true _ ▸ hname
  have hnode : ¬ v.IsDir n := by
    intro hdir
    refine hsafe ⟨n, parentPath, name, parent, hold, hdir, splitParent_eq_ok hsplit, hparent,
      isDir_of_data hdata, ?_⟩
    rw [entriesAt_of_data hdata]
    exact getElem?_of_free hfree
  have hentered := h.enter (lookup_reaches hparent) hdata hfree
    (h.reached_lt (lookup_reaches hold)) fun hdir => absurd hdir hnode
  exact hentered.congr (copyMode_nodes _ _ _).1 (copyMode_nodes _ _ _).2

theorem step (h : Rooted v) (hsafe : call.Safe v) : Rooted (call.step v) := by
  cases call with
  | mkdir cwd path mode | create cwd path contents mode | symlink cwd path target =>
    exact h.createWithMode _ rfl _
  | openPath cwd path flags mode => exact h.openPath cwd path flags mode
  | link cwd oldPath newPath => exact h.link hsafe
  | rename cwd oldPath newPath => exact h.rename cwd oldPath newPath
  | unlink cwd path => exact h.unlink cwd path
  | socket family sockType =>
    refine (h.allocate ?_).1
    split <;> rfl
  | bind n cwd path => exact h.bindSocket n cwd path

theorem empty : Rooted KernelVfs.empty := by
  have hnone : ∀ p a c, ¬ KernelVfs.empty.Entry p a c := by
    intro p a c hc
    exact absurd hc (by simp [Entry, entriesAt, KernelVfs.empty, Node.directory, NodeData.entries])
  constructor
  · constructor
    · intro p a c hc
      exact absurd hc (hnone p a c)
    · intro p q a b c _ hc
      exact absurd hc (hnone p a c)
    · intro n hcycle
      obtain ⟨m, -, a, hc⟩ := Relation.TransGen.tail'_iff.mp hcycle
      exact hnone m a n hc
  · intro p a
    exact hnone p a root
  · rfl
  · exact Nat.zero_lt_one
  · intro p a c hc
    exact absurd hc (hnone p a c)
  · intro n _
    rfl

theorem new (text : Path → List UInt8) : Rooted (KernelVfs.new text) := by
  have hblank : ∀ entry ∈ firstNodes text, entry.2.data.entries = ∅ := by
    intro entry hentry
    simp only [firstNodes, mem_cons] at hentry
    rcases hentry with rfl | hentry
    · rfl
    repeat' rcases hentry with rfl | hentry
    all_goals rfl
  have hfold : ∀ (nodes : List (Path × Node)) (w : KernelVfs), Rooted w →
      (∀ entry ∈ nodes, entry.2.data.entries = ∅) →
      Rooted (nodes.foldl addFirst w) := by
    intro nodes
    induction nodes with
    | nil =>
      intro w hw _
      exact hw
    | cons entry rest ih =>
      intro w hw hall
      apply ih
      · have hentry := hall entry mem_cons_self
        rw [addFirst]
        split
        · exact hw.createWithMode _ hentry _
        · exact hw.createNode _ hentry
      · intro other hother
        exact hall other (mem_cons_of_mem _ hother)
  exact hfold _ _ empty hblank

theorem put (h : Rooted v) (outside : Outside) : Rooted (outside.put v) :=
  h.congr rfl rfl

theorem start (text : Path → List UInt8) (outside : Outside) :
    Rooted (DirectoryTree.start text outside) :=
  (new text).put outside

theorem trail_eq_cons (n : ℕ) (path : Path) : ∃ rest, trail v n path = n :: rest := by
  cases path with
  | nil => exact ⟨[], rfl⟩
  | cons name rest => exact ⟨_, rfl⟩

theorem trail_isChain (path : Path) : ∀ n, (trail v n path).IsChain (Child v.Entry) := by
  induction path with
  | nil =>
    intro n
    exact isChain_singleton n
  | cons name rest ih =>
    intro n
    rw [trail]
    rcases hentry : (v.entriesAt n)[name]? with _ | m
    · exact isChain_singleton n
    have hrest := ih m
    obtain ⟨below, hbelow⟩ := trail_eq_cons (v := v) m rest
    dsimp only
    rw [hbelow] at hrest ⊢
    exact isChain_cons_cons.mpr ⟨⟨name, hentry⟩, hrest⟩

theorem tree (h : Rooted v) : Tree v where
  placed := by
    intro n hdir hne
    by_cases hreach : Reaches v.Entry root n
    · rcases Relation.ReflTransGen.cases_tail hreach with heq | ⟨p, hp, name, hentry⟩
      · exact absurd heq hne
      · refine .inl ⟨p, ⟨hp, name, hentry⟩, ?_⟩
        rintro q ⟨-, other, hother⟩
        exact (h.forest.single hdir hother hentry).1
    · exact .inr hreach
  named := by
    intro n hdir p a b _ ha hb
    exact (h.forest.single hdir ha hb).2
  acyclic := h.forest.acyclic
  lookups := by
    intro path
    exact h.forest.nodup_of_isChain (trail_isChain path root)

/-- The second entry of a directory is seen: below itself if it is the root, and otherwise beside
the entry that it was found through. -/
theorem not_tree_link {oldPath newPath : PathArg}
    (hlinks : LinksDirectory v (normalizePath cwd oldPath) (normalizePath cwd newPath)) :
    ¬ Tree (v.link cwd oldPath newPath).2 := by
  obtain ⟨n, parentPath, name, parent, hold, hdir, hnew, hparent, hpdir, hfree⟩ := hlinks
  intro htree
  have hdata := NodeData.eq_directory hpdir
  have hcontains : (v.entriesAt parent).contains name = false := by
    rw [ExtTreeMap.contains_eq_isSome_getElem?, hfree]
    rfl
  have hnodes : (v.link cwd oldPath newPath).2.nodes =
      (v.enter parent (v.entriesAt parent) name n).nodes := by
    rw [KernelVfs.link, hold, hnew, splitParent_append]
    dsimp only
    rw [hparent]
    dsimp only
    rw [hdata]
    dsimp only
    rw [if_neg (show ¬ (v.nodes parent).data.entries.contains name = true from
      ne_true_of_eq_false hcontains)]
    exact (copyMode_nodes _ _ _).1
  have hentry : ∀ p a c, (v.link cwd oldPath newPath).2.Entry p a c ↔
      v.Entry p a c ∨ (p = parent ∧ a = name ∧ c = n) := by
    intro p a c
    rw [entry_congr hnodes]
    exact enter_entry_iff hdata name n hcontains p a c
  have hkinds : (v.link cwd oldPath newPath).2.IsDir n := by
    rw [isDir_congr hnodes]
    exact (setData_isDir_iff (by rw [hdata]; rfl) n).mpr hdir
  have hmore : ∀ p a c, v.Entry p a c → (v.link cwd oldPath newPath).2.Entry p a c :=
    fun p a c hc => (hentry p a c).mpr (.inl hc)
  have hedge : (v.link cwd oldPath newPath).2.Entry parent name n :=
    (hentry parent name n).mpr (.inr ⟨rfl, rfl, rfl⟩)
  have hparent' := Reaches.mono hmore (lookup_reaches hparent)
  by_cases hroot : n = root
  · rw [hroot] at hedge
    exact htree.acyclic root (Relation.TransGen.tail' hparent' ⟨name, hedge⟩)
  have hreach := lookup_reaches hold
  rcases Relation.ReflTransGen.cases_tail hreach with heq | ⟨p, hp, a, hfirst⟩
  · exact hroot heq
  rcases htree.placed n hkinds hroot with ⟨q, -, hunique⟩ | hdetached
  · have hsame : p = parent := (hunique p ⟨Reaches.mono hmore hp, a, hmore p a n hfirst⟩).trans
        (hunique parent ⟨hparent', name, hedge⟩).symm
    rw [hsame] at hfirst
    have hname := htree.named n hkinds parent a name hparent' (hmore _ _ _ hfirst) hedge
    rw [hname, Entry, hfree] at hfirst
    cases hfirst
  · exact hdetached (Reaches.mono hmore hreach)

theorem safe_of_tree (htree : Tree (call.step v)) : call.Safe v := by
  cases call with
  | link cwd oldPath newPath =>
    intro hlinks
    exact not_tree_link hlinks htree
  | _ => trivial

theorem always_iff (calls : List Call) : ∀ v, Rooted v → (Always Tree v calls ↔ AllSafe v calls) := by
  induction calls with
  | nil =>
    intro v hv
    exact ⟨fun _ => trivial, fun _ => hv.tree⟩
  | cons call rest ih =>
    intro v hv
    constructor
    · rintro ⟨-, hrest⟩
      have hsafe : call.Safe v := by
        apply safe_of_tree
        cases rest with
        | nil => exact hrest
        | cons next rest => exact hrest.1
      exact ⟨hsafe, (ih (call.step v) (hv.step hsafe)).mp hrest⟩
    · rintro ⟨hsafe, hrest⟩
      exact ⟨hv.tree, (ih (call.step v) (hv.step hsafe)).mpr hrest⟩

end Rooted

/-- The directories are a tree in every state of a run exactly if no call of it links a directory
under a free name. -/
theorem directories_form_tree (text : Path → List UInt8) (outside : Outside) (calls : List Call) :
    Always Tree (start text outside) calls ↔ AllSafe (start text outside) calls :=
  Rooted.always_iff calls _ (Rooted.start text outside)

def Outside.none : Outside := ⟨[], ∅, ∅, fun _ => false⟩

def withA : KernelVfs :=
  (Call.mkdir [] ["", "a"] 0o755).step (start (fun _ => []) Outside.none)

/-- `link("/a", "/a/b")` succeeds, and `/a/b` is `/a`. -/
theorem link_makes_cycle : (withA.link [] ["", "a"] ["", "a", "b"]).1.toOption = some () ∧
      (withA.link [] ["", "a"] ["", "a", "b"]).2.Entry 44 "b" 44 ∧
      ¬ Always Tree (start (fun _ => []) Outside.none)
        [.mkdir [] ["", "a"] 0o755, .link [] ["", "a"] ["", "a", "b"]] := by
  have hentry : (withA.link [] ["", "a"] ["", "a", "b"]).2.Entry 44 "b" 44 := by
    rw [Entry]
    decide +kernel
  refine ⟨by decide +kernel, hentry, ?_⟩
  rintro ⟨-, -, htree⟩
  exact htree.acyclic 44 (Relation.TransGen.single ⟨"b", hentry⟩)

end DirectoryTree
