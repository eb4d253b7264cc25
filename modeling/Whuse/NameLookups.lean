import Whuse.DirectoryTree

/-! What a creation does to lookups in a tree: the directories of an image that lie on the path
appear one below another, then the new node. -/
namespace NameLookups

open Std (ExtTreeMap)
open NameSpace NameSpace.KernelVfs DirectoryTree RootedForest Function List

variable {v w : KernelVfs}

theorem enoent_ne_enotdir : enoent ≠ enotdir := by decide

theorem lookup_concat (v : KernelVfs) (front : Path) (name : String) :
    v.lookupAbs (front ++ [name]) =
      match v.lookupAbs front with
      | .error e => .error e
      | .ok m => v.lookupFrom m [name] :=
  lookupFrom_append v front [name] root

variable {entries : ExtTreeMap String ℕ} {front path other : Path} {name : String} {e m n c : ℕ}

theorem lookup_concat_of_error (h : v.lookupAbs front = .error e) (name : String) :
    v.lookupAbs (front ++ [name]) = .error e := by
  rw [lookup_concat, h]

theorem lookup_concat_of_ok (h : v.lookupAbs front = .ok m) (name : String) :
    v.lookupAbs (front ++ [name]) = v.lookupFrom m [name] := by
  rw [lookup_concat, h]

theorem lookupFrom_one (v : KernelVfs) (m : ℕ) (name : String) : v.lookupFrom m [name] =
      if (v.nodes m).data.isDirectory then
        match (v.entriesAt m)[name]? with
        | none => .error enoent
        | some c => .ok c
      else .error enotdir :=
  lookupFrom_cons v m name []

theorem lookupFrom_one_of_data (h : (v.nodes m).data = .directory entries) (name : String) :
    v.lookupFrom m [name] =
      match entries[name]? with
      | none => .error enoent
      | some c => .ok c := by
  rw [lookupFrom_one, entriesAt_of_data h, h]
  rfl

theorem lookupFrom_one_congr (h : (w.nodes m).data = (v.nodes m).data) (name : String) :
    w.lookupFrom m [name] = v.lookupFrom m [name] := by
  rw [lookupFrom_one, lookupFrom_one, entriesAt, entriesAt, h]

theorem entry_of_lookupFrom (h : v.lookupFrom m [name] = .ok c) : v.Entry m name c := by
  rw [lookupFrom_one] at h
  by_cases hdir : (v.nodes m).data.isDirectory = true
  · rw [if_pos hdir] at h
    cases hentry : (v.entriesAt m)[name]? with
    | none =>
      rw [hentry] at h
      cases h
    | some d =>
      rw [hentry] at h
      rw [Entry, hentry, Except.ok.inj h]
  · rw [if_neg hdir] at h
    cases h

theorem lookup_concat_eq_ok (h : v.lookupAbs (front ++ [name]) = .ok c) :
    ∃ m, v.lookupAbs front = .ok m ∧ v.Entry m name c := by
  cases hfront : v.lookupAbs front with
  | error e =>
    rw [lookup_concat_of_error hfront] at h
    cases h
  | ok m =>
    rw [lookup_concat_of_ok hfront] at h
    exact ⟨m, rfl, entry_of_lookupFrom h⟩

/-- A name is missing below a missing directory, or in one that is there. -/
theorem lookup_concat_eq_enoent (h : v.lookupAbs (front ++ [name]) = .error enoent) :
    v.lookupAbs front = .error enoent ∨ ∃ m entries, v.lookupAbs front = .ok m ∧
      (v.nodes m).data = .directory entries ∧ entries.contains name = false := by
  rcases hfront : v.lookupAbs front with e | m
  · rw [lookup_concat_of_error hfront] at h
    exact .inl (by rw [Except.error.inj h])
  rw [lookup_concat_of_ok hfront, lookupFrom_one] at h
  by_cases hdir : (v.nodes m).data.isDirectory = true
  · rw [if_pos hdir] at h
    refine .inr ⟨m, v.entriesAt m, rfl, NodeData.eq_directory hdir, ?_⟩
    cases hentry : (v.entriesAt m)[name]? with
    | none =>
      rw [ExtTreeMap.contains_eq_isSome_getElem?, hentry]
      rfl
    | some c =>
      rw [hentry] at h
      cases h
  · rw [if_neg hdir] at h
    exact absurd (Except.error.inj h).symm enoent_ne_enotdir

theorem lookup_concat_of_free (h : v.lookupAbs front = .ok m)
    (hdata : (v.nodes m).data = .directory entries) (hfree : entries.contains name = false) :
    v.lookupAbs (front ++ [name]) = .error enoent := by
  rw [lookup_concat_of_ok h, lookupFrom_one_of_data hdata, getElem?_of_free hfree]

theorem lookup_append_of_error (h : v.lookupAbs front = .error e) (rest : Path) :
    v.lookupAbs (front ++ rest) = .error e := by
  have happend := lookupFrom_append v front rest root
  rw [lookupAbs] at h
  rw [h] at happend
  exact happend

theorem found_iff (v : KernelVfs) (path : Path) :
    v.found path = true ↔ ∃ n, v.lookupAbs path = .ok n := by
  rw [found]
  cases v.lookupAbs path with
  | error e => exact ⟨nofun, fun ⟨_, h⟩ => absurd h nofun⟩
  | ok n => exact ⟨fun _ => ⟨n, rfl⟩, fun _ => rfl⟩

theorem found_eq_false (h : v.lookupAbs path = .error e) : v.found path = false := by
  rw [found, h]
  rfl

theorem found_congr (h : w.lookupAbs path = v.lookupAbs path) : w.found path = v.found path := by
  rw [found, found, h]

theorem found_of_front (hinit : front <+: path) (h : v.found path = true) :
    v.found front = true := by
  obtain ⟨rest, rfl⟩ := hinit
  by_contra hnot
  cases hfront : v.lookupAbs front with
  | ok n => exact hnot ((found_iff v front).mpr ⟨n, hfront⟩)
  | error e =>
    rw [found_eq_false (lookup_append_of_error hfront rest)] at h
    exact absurd h Bool.false_ne_true

/-- In a tree a directory is found under one path. -/
theorem lookup_unique (h : Rooted v) (front : Path) :
    ∀ path m, v.IsDir m → v.lookupAbs front = .ok m → v.lookupAbs path = .ok m → front = path := by
  induction front using List.reverseRecOn with
  | nil =>
    intro path m _ hfront hpath
    obtain rfl : root = m := Except.ok.inj hfront
    rcases eq_nil_or_concat path with rfl | ⟨other, name, rfl⟩
    · rfl
    · rw [concat_eq_append] at hpath
      obtain ⟨p, -, hentry⟩ := lookup_concat_eq_ok hpath
      exact absurd hentry (h.orphan p name)
  | append_singleton front name ih =>
    intro path m hdir hfront hpath
    obtain ⟨p, hp, hentry⟩ := lookup_concat_eq_ok hfront
    rcases eq_nil_or_concat path with rfl | ⟨other, name', rfl⟩
    · obtain rfl : root = m := Except.ok.inj hpath
      exact absurd hentry (h.orphan p name)
    rw [concat_eq_append] at hpath ⊢
    obtain ⟨q, hq, hentry'⟩ := lookup_concat_eq_ok hpath
    obtain ⟨rfl, rfl⟩ := h.forest.single hdir hentry hentry'
    rw [ih other p hentry.isDir hp hq]

/-- A node without its entries. -/
def bare (node : Node) : Node :=
  match node.data with
  | .directory _ => ⟨node.kind, .directory ∅⟩
  | _ => node

/-- The path leads to the same node, which differs at most in a directory's entries. -/
structure Agrees (v w : KernelVfs) (path : Path) : Prop where
  lookup : w.lookupAbs path = v.lookupAbs path
  node : ∀ n, v.lookupAbs path = .ok n → bare (w.nodes n) = bare (v.nodes n)

theorem Agrees.symm (h : Agrees v w path) : Agrees w v path :=
  ⟨h.lookup.symm, fun n hn => (h.node n (h.lookup.symm.trans hn)).symm⟩

theorem Agrees.trans {u : KernelVfs} (h : Agrees u v path) (h' : Agrees v w path) :
    Agrees u w path :=
  ⟨h'.lookup.trans h.lookup, fun n hn => (h'.node n (h.lookup.trans hn)).trans (h.node n hn)⟩

section AddNode

variable {parentPath : Path} {parent : ℕ} {made : Node}

theorem addNode_nodes_next (h : Rooted v) (hparent : v.lookupAbs parentPath = .ok parent) :
    (v.addNode path parent entries name made).nodes v.next = made := by
  have hne : v.next ≠ parent := Nat.ne_of_gt (h.reached_lt (Rooted.lookup_reaches hparent))
  rw [addNode, setData_nodes_of_ne hne]
  exact update_self _ _ _

theorem addNode_nodes_of_ne (hnext : n ≠ v.next) (hne : n ≠ parent) :
    (v.addNode path parent entries name made).nodes n = v.nodes n := by
  rw [addNode, setData_nodes_of_ne hne]
  exact update_of_ne hnext _ _

section

variable (h : Rooted v) (hparent : v.lookupAbs parentPath = .ok parent)
include h hparent

theorem addNode_nodes_parent : (v.addNode path parent entries name made).nodes parent =
      ⟨(v.nodes parent).kind, .directory (entries.insert name v.next)⟩ := by
  have hne : parent ≠ v.next := Nat.ne_of_lt (h.reached_lt (Rooted.lookup_reaches hparent))
  have hold : ((v.undelete path).allocate made).2.nodes parent = v.nodes parent :=
    update_of_ne hne _ _
  rw [addNode, setData_nodes_self, hold]

/-- Only the new path and what lies below it is looked up otherwise than before. -/
theorem addNode_lookup (hdata : (v.nodes parent).data = .directory entries) (hmade : made.data.entries = ∅)
    (other : Path) :
    (v.addNode path parent entries name made).lookupAbs other =
      if other = parentPath ++ [name] then .ok v.next
      else if parentPath ++ [name] <+: other then
        .error (if made.data.isDirectory then enoent else enotdir)
      else v.lookupAbs other := by
  have hlt := h.reached_lt (Rooted.lookup_reaches hparent)
  -- the induction is on the path from its end, and the cases are where its front leads
  induction other using List.reverseRecOn with
  | nil =>
    have hne : ([] : Path) ≠ parentPath ++ [name] := by simp
    have hnot : ¬ parentPath ++ [name] <+: [] := by simp
    rw [if_neg hne, if_neg hnot]
    rfl
  | append_singleton front last ih =>
    by_cases hunder : parentPath ++ [name] <+: front
    · -- there is nothing below the new node
      have hne : front ++ [last] ≠ parentPath ++ [name] := by
        intro heq
        have hlength := hunder.length_le
        rw [← heq, length_append, length_singleton] at hlength
        omega
      rw [if_neg hne, if_pos (hunder.trans (prefix_append _ _))]
      by_cases hat : front = parentPath ++ [name]
      · rw [if_pos hat] at ih
        rw [lookup_concat_of_ok ih, lookupFrom_one, entriesAt, addNode_nodes_next h hparent, hmade]
        by_cases hdir : made.data.isDirectory = true
        · rw [if_pos hdir, if_pos hdir]
          simp
        · rw [if_neg hdir, if_neg hdir]
      · rw [if_neg hat, if_pos hunder] at ih
        exact lookup_concat_of_error ih last
    · have hat : front ≠ parentPath ++ [name] := fun heq => hunder (heq ▸ prefix_rfl)
      rw [if_neg hat, if_neg hunder] at ih
      have hnot : front ++ [last] ≠ parentPath ++ [name] →
          ¬ parentPath ++ [name] <+: front ++ [last] := by
        intro hne hinit
        rcases prefix_concat_iff.mp hinit with heq | hin
        · exact hne heq.symm
        · exact hunder hin
      have hbeside : v.lookupAbs front ≠ .ok parent → front ++ [last] ≠ parentPath ++ [name] := by
        intro hfront heq
        obtain ⟨heq, -⟩ := append_inj' heq rfl
        exact hfront (heq ▸ hparent)
      rcases hfront : v.lookupAbs front with e | m
      · rw [hfront] at ih hbeside
        have hne := hbeside fun heq => by cases heq
        rw [if_neg hne, if_neg (hnot hne), lookup_concat_of_error ih, lookup_concat_of_error hfront]
      rw [hfront] at ih hbeside
      have hm := h.reached_lt (Rooted.lookup_reaches hfront)
      by_cases hself : m = parent
      · -- the parent itself, under its only path
        subst hself
        obtain rfl := lookup_unique h front parentPath m (isDir_of_data hdata)
          hfront hparent
        have hentries : ((v.addNode path m entries name made).nodes m).data =
            .directory (entries.insert name v.next) := by
          rw [addNode_nodes_parent h hparent]
        rw [lookup_concat_of_ok ih, lookupFrom_one_of_data hentries, ExtTreeMap.getElem?_insert]
        by_cases hname : name = last
        · rw [if_pos (Std.LawfulEqOrd.compare_eq_iff_eq.mpr hname),
            if_pos (congrArg (fun other => front ++ [other]) hname.symm)]
        have hne : front ++ [last] ≠ front ++ [name] := by
          intro heq
          obtain ⟨-, heq⟩ := append_inj' heq rfl
          exact hname (singleton_inj.mp heq).symm
        rw [if_neg hne, if_neg (hnot hne), lookup_concat_of_ok hparent,
          lookupFrom_one_of_data hdata,
          if_neg fun heq => hname (Std.LawfulEqOrd.compare_eq_iff_eq.mp heq)]
      · have hne := hbeside fun heq => hself (Except.ok.inj heq)
        rw [if_neg hne, if_neg (hnot hne), lookup_concat_of_ok ih, lookup_concat_of_ok hfront]
        apply lookupFrom_one_congr
        rw [addNode_nodes_of_ne (Nat.ne_of_lt hm) hself]

theorem addNode_agrees (hdata : (v.nodes parent).data = .directory entries)
    (hfree : entries.contains name = false) (hmade : made.data.entries = ∅) {other : Path}
    (hne : other ≠ parentPath ++ [name])
    (hbelow : parentPath ++ [name] <+: other → made.data.isDirectory = true) :
    Agrees v (v.addNode path parent entries name made) other := by
  refine ⟨?_, fun n hn => ?_⟩
  rotate_left
  · by_cases hself : n = parent
    · rw [hself, addNode_nodes_parent h hparent]
      simp [bare, hdata]
    · have hlt := h.reached_lt (Rooted.lookup_reaches hn)
      rw [addNode_nodes_of_ne (Nat.ne_of_lt hlt) hself]
  rw [addNode_lookup h hparent hdata hmade, if_neg hne]
  by_cases hinit : parentPath ++ [name] <+: other
  · rw [if_pos hinit, if_pos (hbelow hinit)]
    obtain ⟨rest, rfl⟩ := hinit
    rw [lookup_append_of_error (lookup_concat_of_free hparent hdata hfree)]
  · rw [if_neg hinit]

end

end AddNode

def ExternalDir (v : KernelVfs) (path : Path) : Prop :=
  ∃ stat, v.externalStatPath path = .ok (some stat) ∧ isDirMode stat.mode = true

/-- A path that is missing in memory while what is missing of it is a directory outside. -/
def NewDir (v : KernelVfs) (path : Path) : Prop :=
  v.lookupAbs path = .error enoent ∧
    ∀ front, front <+: path → v.found front = false → ExternalDir v front

/-- Empty directories have appeared at some paths that were missing, and nothing else changed. -/
structure Grown (v : KernelVfs) (S : Path → Prop) (w : KernelVfs) : Prop where
  rooted : Rooted w
  mounts : w.externalMounts = v.externalMounts
  cache : w.externalStatCache = v.externalStatCache
  preloaded : w.externalPreloaded = v.externalPreloaded
  deletions : ∀ path, ¬ S path → w.externalDeletions path = v.externalDeletions path
  kept : ∀ path, ¬ S path → Agrees v w path
  made : ∀ path, S path → v.lookupAbs path = .error enoent ∧
    ∃ n, w.lookupAbs path = .ok n ∧ bare (w.nodes n) = Node.directory

namespace Grown

variable {S S' : Path → Prop}

theorem refl (h : Rooted v) (hS : ∀ path, ¬ S path) : Grown v S v where
  rooted := h
  mounts := rfl
  cache := rfl
  preloaded := rfl
  deletions := fun _ _ => rfl
  kept := fun _ _ => ⟨rfl, fun _ _ => rfl⟩
  made := fun path hpath => absurd hpath (hS path)

theorem of_iff (h : Grown v S w) (hS : ∀ path, S' path ↔ S path) : Grown v S' w := by
  have heq : S' = S := by
    funext path
    exact propext (hS path)
  rw [heq]
  exact h

theorem resolveExternalPath (h : Grown v S w) (path : Path) :
    w.resolveExternalPath path = v.resolveExternalPath path := by
  rw [KernelVfs.resolveExternalPath, KernelVfs.resolveExternalPath, h.mounts]

theorem externalStatPath (h : Grown v S w) (hpath : ¬ S path) :
    w.externalStatPath path = v.externalStatPath path := by
  rw [KernelVfs.externalStatPath, KernelVfs.externalStatPath, found_congr (h.kept path hpath).lookup,
    h.preloaded, h.deletions path hpath, h.cache, h.resolveExternalPath]

theorem add (h : Grown v S w) {parentPath : Path} {parent : ℕ}
    (hparent : w.lookupAbs parentPath = .ok parent)
    (hdata : (w.nodes parent).data = .directory entries) (hfree : entries.contains name = false)
    (hnew : ¬ S (parentPath ++ [name])) :
    Grown v (fun path => S path ∨ path = parentPath ++ [name])
      (w.addNode (parentPath ++ [name]) parent entries name Node.directory) := by
  have hmissing := lookup_concat_of_free hparent hdata hfree
  have hagrees : ∀ other, other ≠ parentPath ++ [name] → Agrees w
      (w.addNode (parentPath ++ [name]) parent entries name Node.directory) other :=
    fun other hne => addNode_agrees h.rooted hparent hdata hfree rfl hne fun _ => rfl
  constructor
  · exact h.rooted.addNode (Rooted.lookup_reaches hparent) hdata hfree rfl
  · exact h.mounts
  · exact h.cache
  · exact h.preloaded
  · intro path hpath
    have hne : path ≠ parentPath ++ [name] := fun heq => hpath (.inr heq)
    rw [← h.deletions path fun hS => hpath (.inl hS)]
    exact update_of_ne hne _ _
  · intro path hpath
    exact (h.kept path fun hS => hpath (.inl hS)).trans
      (hagrees path fun heq => hpath (.inr heq))
  · intro path hpath
    by_cases heq : path = parentPath ++ [name]
    · rw [heq, ← (h.kept _ hnew).lookup]
      refine ⟨hmissing, w.next, ?_, ?_⟩
      · rw [addNode_lookup h.rooted hparent hdata rfl, if_pos rfl]
      · rw [addNode_nodes_next h.rooted hparent]
        rfl
    · obtain ⟨hmissing, n, hn, hdir⟩ := h.made path (hpath.resolve_right heq)
      have hsame := hagrees path heq
      exact ⟨hmissing, n, hsame.lookup.trans hn, (hsame.node n hn).trans hdir⟩

end Grown

/-- The directories that ensuring a path makes. -/
def Ensured (v : KernelVfs) (path front : Path) : Prop := front <+: path ∧ NewDir v front

theorem not_newDir_of_found (h : v.found path = true) (hinit : front <+: path) :
    ¬ NewDir v front := by
  rintro ⟨hmissing, -⟩
  have hfound := found_of_front hinit h
  rw [found_eq_false hmissing] at hfound
  exact absurd hfound Bool.false_ne_true

theorem missing_parent (h : v.lookupAbs (front ++ [name]) = .error enoent) :
    v.found front = true ∨ v.lookupAbs front = .error enoent := by
  rcases lookup_concat_eq_enoent h with hmissing | ⟨m, -, hm, -⟩
  · exact .inr hmissing
  · exact .inl ((found_iff v front).mpr ⟨m, hm⟩)

theorem newDir_concat (hmissing : v.lookupAbs (front ++ [name]) = .error enoent)
    (hfront : v.found front = true ∨ NewDir v front) :
    NewDir v (front ++ [name]) ↔ ExternalDir v (front ++ [name]) := by
  constructor
  · rintro ⟨-, hall⟩
    exact hall _ (prefix_refl _) (found_eq_false hmissing)
  · intro hdir
    refine ⟨hmissing, ?_⟩
    intro r hr hnot
    rcases prefix_concat_iff.mp hr with heq | hin
    · rw [heq]
      exact hdir
    rcases hfront with hfound | ⟨-, hall⟩
    · rw [found_of_front hin hfound] at hnot
      exact absurd hnot.symm Bool.false_ne_true
    · exact hall r hin hnot

theorem newDir_parent (h : NewDir v (front ++ [name])) : v.found front = true ∨ NewDir v front := by
  obtain ⟨hmissing, hall⟩ := h
  rcases missing_parent hmissing with hfound | hfront
  · exact .inl hfound
  · exact .inr ⟨hfront, fun r hr hnot => hall r (hr.trans (prefix_append _ _)) hnot⟩

theorem ensured_concat : Ensured v (front ++ [name]) other ↔
      Ensured v front other ∨ (other = front ++ [name] ∧ NewDir v (front ++ [name])) := by
  constructor
  · rintro ⟨hinit, hnew⟩
    rcases prefix_concat_iff.mp hinit with heq | hin
    · exact .inr ⟨heq, heq ▸ hnew⟩
    · exact .inl ⟨hin, hnew⟩
  · rintro (⟨hin, hnew⟩ | ⟨rfl, hnew⟩)
    · exact ⟨hin.trans (prefix_append _ _), hnew⟩
    · exact ⟨prefix_refl _, hnew⟩

theorem not_ensured_self : ¬ Ensured v front (front ++ [name]) := by
  rintro ⟨hinit, -⟩
  have hlength := hinit.length_le
  rw [length_append, length_singleton] at hlength
  omega

theorem createUnder_of_enoent {made : Node} (hm : v.lookupAbs front = .ok m)
    (hdata : (v.nodes m).data = .directory entries) (hfree : entries.contains name = false) :
    v.createUnder front path name made = (.ok (), v.addNode path m entries name made) := by
  have hname : ¬ entries.contains name = true := by
    rw [hfree]
    exact Bool.false_ne_true
  rw [createUnder, hm]
  dsimp only
  rw [createIn, hdata]
  exact if_neg hname

namespace Grown

/-- What was made above a path is all, if the path is no new directory. -/
theorem stopped (h : Grown v (Ensured v front) w) (hnot : ¬ NewDir v (front ++ [name])) :
    Grown v (Ensured v (front ++ [name])) w := by
  refine h.of_iff fun other => ?_
  rw [ensured_concat]
  exact ⟨fun hor => hor.resolve_right fun hnew => hnot hnew.2, .inl⟩

theorem still_missing (h : Grown v (Ensured v front) w)
    (hmissing : v.lookupAbs (front ++ [name]) = .error enoent)
    (hready : v.found front = true ∨ NewDir v front) :
    ∃ m entries, w.lookupAbs front = .ok m ∧ (w.nodes m).data = .directory entries ∧
      entries.contains name = false := by
  have hstill : w.lookupAbs (front ++ [name]) = .error enoent := by
    rw [(h.kept _ not_ensured_self).lookup, hmissing]
  rcases lookup_concat_eq_enoent hstill with hgone | hthere
  · exfalso
    by_cases hS : Ensured v front front
    · obtain ⟨-, n, hn, -⟩ := h.made _ hS
      rw [hn] at hgone
      cases hgone
    · rw [(h.kept _ hS).lookup] at hgone
      rcases hready with hfront | hfront
      · rw [found_eq_false hgone] at hfront
        exact absurd hfront Bool.false_ne_true
      · exact hS ⟨prefix_refl _, hfront⟩
  · exact hthere

end Grown

/-- `ensure_memory_dir` makes the new directories from the top as far as they go, and succeeds if
they reach the path. -/
theorem ensureUp_spec (h : Rooted v) : ∀ up : List String,
    (v.found up.reverse = true ∨ v.lookupAbs up.reverse = .error enoent) →
    Grown v (Ensured v up.reverse) (ensureUp up v).2 ∧
      ((ensureUp up v).1 = .ok () ↔ v.found up.reverse = true ∨ NewDir v up.reverse) := by
  intro up
  induction up with
  | nil =>
    intro _
    have hroot : v.found [] = true := rfl
    exact ⟨Grown.refl h fun other hother => not_newDir_of_found hroot hother.1 hother.2,
      ⟨fun _ => .inl hroot, fun _ => rfl⟩⟩
  | cons name up ih =>
    intro hpath
    rw [ensureUp, reverse_cons]
    rw [reverse_cons] at hpath
    by_cases hfound : v.found (up.reverse ++ [name]) = true
    · rw [if_pos hfound]
      exact ⟨Grown.refl h fun other hother => not_newDir_of_found hfound hother.1 hother.2,
        ⟨fun _ => .inl hfound, fun _ => rfl⟩⟩
    rw [if_neg hfound]
    have hmissing := hpath.resolve_left hfound
    obtain ⟨hgrown, hok⟩ := ih (missing_parent hmissing)
    rcases hres : ensureUp up v with ⟨r, w⟩
    rw [hres] at hgrown hok
    have hstop : ∀ e, ¬ NewDir v (up.reverse ++ [name]) →
        Grown v (Ensured v (up.reverse ++ [name])) w ∧
          ((Except.error e : AddressSpace.KernelResult Unit) = .ok () ↔
            v.found (up.reverse ++ [name]) = true ∨ NewDir v (up.reverse ++ [name])) :=
      fun e hnot => ⟨hgrown.stopped hnot, (by rintro ⟨⟩), fun hor => (hor.elim hfound hnot).elim⟩
    rcases r with e | ⟨⟩
    · -- the parent was not reached, and so nothing below it
      exact hstop e fun hnew => by cases hok.mpr (newDir_parent hnew)
    have hiff := newDir_concat hmissing (hok.mp rfl)
    have hstat : w.externalStatPath (up.reverse ++ [name]) =
        v.externalStatPath (up.reverse ++ [name]) := hgrown.externalStatPath not_ensured_self
    dsimp only
    rw [hstat]
    rcases hanswer : v.externalStatPath (up.reverse ++ [name]) with e | _ | stat
    · refine hstop e (hiff.not.mpr ?_)
      rintro ⟨_, heq, -⟩
      cases hanswer.symm.trans heq
    · refine hstop enoent (hiff.not.mpr ?_)
      rintro ⟨_, heq, -⟩
      cases hanswer.symm.trans heq
    by_cases hdir : isDirMode stat.mode = true
    · have hnew : NewDir v (up.reverse ++ [name]) := hiff.mpr ⟨stat, hanswer, hdir⟩
      obtain ⟨m, entries, hm, hdata, hfree⟩ := hgrown.still_missing hmissing (hok.mp rfl)
      simp only [if_pos hdir]
      rw [createUnder_of_enoent hm hdata hfree]
      refine ⟨(hgrown.add hm hdata hfree not_ensured_self).of_iff fun other => ?_,
        ⟨fun _ => .inr hnew, fun _ => rfl⟩⟩
      rw [ensured_concat]
      exact ⟨fun hor => hor.imp_right And.left, fun hor => hor.imp_right fun heq => ⟨heq, hnew⟩⟩
    · simp only [if_neg hdir]
      refine hstop enotdir (hiff.not.mpr ?_)
      rintro ⟨other, heq, hother⟩
      cases hanswer.symm.trans heq
      exact hdir hother

/-- The node of a missing path is made if its parent is there or could be made. -/
theorem createNode_spec (h : Rooted v) (node : Node)
    (hmissing : v.lookupAbs (front ++ [name]) = .error enoent) :
    ((¬ (v.found front = true ∨ NewDir v front)) ∧ ∃ e w, Grown v (Ensured v front) w ∧
        v.createNode (front ++ [name]) node = (.error e, w)) ∨
    ((v.found front = true ∨ NewDir v front) ∧
      ∃ w m entries, Grown v (Ensured v front) w ∧ w.lookupAbs front = .ok m ∧
        (w.nodes m).data = .directory entries ∧ entries.contains name = false ∧
        v.createNode (front ++ [name]) node =
          (.ok (), w.addNode (front ++ [name]) m entries name node)) := by
  rw [createNode, splitParent_append]
  dsimp only
  rcases lookup_concat_eq_enoent hmissing with hgone | ⟨m, entries, hm, hdata, hfree⟩
  · have hreverse : front.reverse.reverse = front := reverse_reverse front
    obtain ⟨hgrown, hok⟩ := ensureUp_spec h front.reverse (hreverse.symm ▸ .inr hgone)
    rw [hreverse] at hgrown hok
    rw [hgone]
    simp only [ensureMemoryDir]
    rcases hres : ensureUp front.reverse v with ⟨e | ⟨⟩, w⟩
    · rw [hres] at hgrown hok
      exact .inl ⟨fun hor => (by cases hok.mpr hor), e, w, hgrown, rfl⟩
    rw [hres] at hgrown hok
    have hready := hok.mp rfl
    obtain ⟨m, entries, hm, hdata, hfree⟩ := hgrown.still_missing hmissing hready
    exact .inr ⟨hready, w, m, entries, hgrown, hm, hdata, hfree,
      createUnder_of_enoent hm hdata hfree⟩
  · have hfound : v.found front = true := (found_iff v front).mpr ⟨m, hm⟩
    refine .inr ⟨.inl hfound, v, m, entries, ?_, hm, hdata, hfree, ?_⟩
    · exact Grown.refl h fun other hother => not_newDir_of_found hfound hother.1 hother.2
    · have hunder : v.createUnder front (front ++ [name]) name node = _ :=
        createUnder_of_enoent hm hdata hfree
      rw [createUnder, hm] at hunder
      rw [hm]
      exact hunder

end NameLookups
