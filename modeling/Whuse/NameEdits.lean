import Whuse.NameCalls
import Whuse.RootedForest

/-! What the calls on names do to the table of nodes: which entries there are afterwards, and which
of the few edits a call has made. -/
namespace NameSpace

open List Option
open Std (ExtTreeMap)
open AddressSpace (KernelResult)

/-- What is not a directory has no entries. -/
def NodeData.entries : NodeData → ExtTreeMap String ℕ
  | .directory entries => entries
  | _ => ∅

def NodeData.isDirectory : NodeData → Bool
  | .directory _ => true
  | _ => false

variable {entries : ExtTreeMap String ℕ} {v : KernelVfs} {P : KernelVfs → Prop} {data : NodeData}
  {parentPath path front components inner cwd : Path} {name : String} {m n parent flags : ℕ}

theorem NodeData.eq_directory (h : data.isDirectory = true) : data = .directory data.entries := by
  cases data with
  | directory entries => rfl
  | _ => exact absurd h Bool.false_ne_true

theorem NodeData.entries_eq_empty (h : data.isDirectory = false) : data.entries = ∅ := by
  cases data with
  | directory entries => exact absurd h.symm Bool.false_ne_true
  | _ => rfl

theorem splitParent_append (parentPath : Path) (name : String) :
    splitParent (parentPath ++ [name]) = .ok (parentPath, name) := by
  simp [splitParent]

theorem splitParent_eq_ok (h : splitParent path = .ok (parentPath, name)) :
    path = parentPath ++ [name] := by
  rcases eq_nil_or_concat path with rfl | ⟨front, last, rfl⟩
  · cases h
  · rw [concat_eq_append, splitParent_append] at h
    obtain ⟨rfl, rfl⟩ := Prod.mk.inj (Except.ok.inj h)
    exact concat_eq_append

/-- No component of a path is empty or made of dots. -/
def Clean (path : Path) : Prop := ∀ component ∈ path, component ≠ "" ∧ component ≠ "." ∧
  component ≠ ".."

theorem Clean.of_front (h : Clean path) (hinit : front <+: path) : Clean front :=
  fun component hmem => h component (hinit.subset hmem)

theorem pushComponent_clean (h : Clean components) (component : String) :
    Clean (pushComponent components component) := by
  rw [pushComponent]
  by_cases hdot : component = "" ∨ component = "."
  · rw [if_pos hdot]
    exact h
  rw [if_neg hdot]
  by_cases hup : component = ".."
  · rw [if_pos hup]
    exact h.of_front ( dropLast_prefix components)
  rw [if_neg hup]
  intro other hother
  rcases mem_append.mp hother with hold | hnew
  · exact h other hold
  · rw [mem_singleton.mp hnew]
    exact ⟨fun heq => hdot (.inl heq), fun heq => hdot (.inr heq), hup⟩

theorem normalizePath_clean (cwd : Path) (path : PathArg) : Clean (normalizePath cwd path) := by
  have hfold : ∀ (text : List String) (components : Path), Clean components →
      Clean (text.foldl pushComponent components) := by
    intro text
    induction text with
    | nil =>
      intro components h
      exact h
    | cons component rest ih =>
      intro components h
      exact ih _ (pushComponent_clean h component)
  exact hfold _ [] fun _ hmem => absurd hmem not_mem_nil

theorem foldl_pushComponent (h : Clean path) :
    ∀ components : Path, path.foldl pushComponent components = components ++ path := by
  induction path with
  | nil =>
    intro components
    exact (append_nil components).symm
  | cons component rest ih =>
    intro components
    obtain ⟨hempty, hdot, hup⟩ := h component mem_cons_self
    have hpush : pushComponent components component = components ++ [component] := by
      rw [pushComponent, if_neg (fun hor => hor.elim hempty hdot), if_neg hup]
    rw [foldl_cons, hpush, ih fun other hmem => h other (mem_cons_of_mem _ hmem), append_assoc]
    rfl

/-- The text of a path from the root. -/
def absolute (path : Path) : PathArg := "" :: path

theorem normalizePath_absolute (h : Clean path) : normalizePath [] (absolute path) = path := by
  rw [normalizePath, ite_self]
  exact foldl_pushComponent h []

namespace KernelVfs

def entriesAt (v : KernelVfs) (n : ℕ) : ExtTreeMap String ℕ := (v.nodes n).data.entries

def IsDir (v : KernelVfs) (n : ℕ) : Prop := (v.nodes n).data.isDirectory = true

def Entry (v : KernelVfs) (p : ℕ) (name : String) (c : ℕ) : Prop := (v.entriesAt p)[name]? = some c

theorem Entry.isDir {p c : ℕ} (h : v.Entry p name c) : v.IsDir p := by
  by_contra hnot
  have hempty := NodeData.entries_eq_empty (Bool.not_eq_true _ ▸ hnot)
  rw [Entry, entriesAt, hempty] at h
  exact absurd h (by simp)

theorem isDir_of_data (h : (v.nodes n).data = .directory entries) : v.IsDir n := by
  rw [IsDir, h]
  rfl

theorem entriesAt_of_data (h : (v.nodes n).data = .directory entries) :
    v.entriesAt n = entries := by
  rw [entriesAt, h]
  rfl

theorem lookupFrom_cons (v : KernelVfs) (n : ℕ) (name : String) (rest : Path) :
    v.lookupFrom n (name :: rest) =
      if (v.nodes n).data.isDirectory then
        match (v.entriesAt n)[name]? with
        | none => .error enoent
        | some m => v.lookupFrom m rest
      else .error enotdir := by
  rw [lookupFrom]
  cases hdata : (v.nodes n).data with
  | directory entries =>
    rw [entriesAt_of_data hdata]
    rfl
  | _ => rfl

theorem lookupFrom_append (v : KernelVfs) (front rest : Path) :
    ∀ n, v.lookupFrom n (front ++ rest) =
      match v.lookupFrom n front with
      | .error e => .error e
      | .ok m => v.lookupFrom m rest := by
  induction front with
  | nil =>
    intro n
    rfl
  | cons name front ih =>
    intro n
    rw [cons_append, lookupFrom_cons, lookupFrom_cons]
    by_cases hdir : (v.nodes n).data.isDirectory
    · rw [if_pos hdir, if_pos hdir]
      cases (v.entriesAt n)[name]? with
      | none => rfl
      | some m => exact ih m
    · rw [if_neg hdir, if_neg hdir]

/-- A lookup goes from entry to entry. -/
theorem reaches_of_lookupFrom :
    ∀ n, v.lookupFrom n path = .ok m → RootedForest.Reaches v.Entry n m := by
  induction path with
  | nil =>
    intro n h
    obtain rfl : n = m := Except.ok.inj h
    exact Relation.ReflTransGen.refl
  | cons name rest ih =>
    intro n h
    rw [lookupFrom_cons] at h
    by_cases hdir : (v.nodes n).data.isDirectory
    · rw [if_pos hdir] at h
      cases hentry : (v.entriesAt n)[name]? with
      | none =>
        rw [hentry] at h
        cases h
      | some c =>
        rw [hentry] at h
        exact Relation.ReflTransGen.head ⟨name, hentry⟩ (ih c h)
    · rw [if_neg hdir] at h
      cases h

theorem setData_nodes_self (n : ℕ) (data : NodeData) (v : KernelVfs) :
    (v.setData n data).nodes n = { v.nodes n with data := data } :=
  Function.update_self n _ v.nodes

theorem setData_nodes_of_ne (hne : m ≠ n) (data : NodeData) (v : KernelVfs) :
    (v.setData n data).nodes m = v.nodes m :=
  Function.update_of_ne hne _ v.nodes

theorem setData_entriesAt_self (n : ℕ) (data : NodeData) (v : KernelVfs) :
    (v.setData n data).entriesAt n = data.entries := by
  rw [entriesAt, setData_nodes_self]

theorem setData_entriesAt_of_ne (hne : m ≠ n) (data : NodeData) (v : KernelVfs) :
    (v.setData n data).entriesAt m = v.entriesAt m := by
  rw [entriesAt, setData_nodes_of_ne hne, entriesAt]

theorem getElem?_of_free (h : entries.contains name = false) : entries[name]? = none := by
  rw [ExtTreeMap.contains_eq_isSome_getElem?] at h
  exact Option.isNone_iff_eq_none.mp (Option.isSome_eq_false_iff.mp h)

theorem enter_entry_iff (hdata : (v.nodes parent).data = .directory entries) (name : String) (n : ℕ)
    (hfree : entries.contains name = false) (p : ℕ) (a : String) (c : ℕ) :
    (v.enter parent entries name n).Entry p a c ↔
      v.Entry p a c ∨ (p = parent ∧ a = name ∧ c = n) := by
  by_cases hp : p = parent
  · subst hp
    rw [Entry, enter, setData_entriesAt_self, Entry, entriesAt_of_data hdata]
    change (entries.insert name n)[a]? = some c ↔ _
    rw [ExtTreeMap.getElem?_insert]
    by_cases ha : name = a
    · subst ha
      rw [if_pos (Std.LawfulEqOrd.compare_eq_iff_eq.mpr rfl), getElem?_of_free hfree]
      constructor
      · intro h
        exact .inr ⟨rfl, rfl, (some.inj h).symm⟩
      · rintro (h | ⟨-, -, rfl⟩)
        · cases h
        · rfl
    · rw [if_neg fun heq => ha (Std.LawfulEqOrd.compare_eq_iff_eq.mp heq)]
      constructor
      · exact .inl
      · rintro (h | ⟨-, rfl, -⟩)
        · exact h
        · exact absurd rfl ha
  · rw [Entry, enter, setData_entriesAt_of_ne hp]
    constructor
    · exact .inl
    · rintro (h | ⟨rfl, -, -⟩)
      · exact h
      · exact absurd rfl hp

theorem leave_entry_iff (hdata : (v.nodes parent).data = .directory entries) (name : String) (p : ℕ)
    (a : String) (c : ℕ) :
    (v.leave parent entries name).Entry p a c ↔ v.Entry p a c ∧ ¬ (p = parent ∧ a = name) := by
  by_cases hp : p = parent
  · subst hp
    rw [Entry, leave, setData_entriesAt_self, Entry, entriesAt_of_data hdata]
    change (entries.erase name)[a]? = some c ↔ _
    rw [ExtTreeMap.getElem?_erase]
    by_cases ha : name = a
    · rw [if_pos (Std.LawfulEqOrd.compare_eq_iff_eq.mpr ha)]
      constructor
      · intro h
        cases h
      · rintro ⟨-, hnot⟩
        exact absurd ⟨rfl, ha.symm⟩ hnot
    · rw [if_neg fun heq => ha (Std.LawfulEqOrd.compare_eq_iff_eq.mp heq)]
      constructor
      · intro h
        exact ⟨h, fun heq => ha heq.2.symm⟩
      · exact And.left
  · rw [Entry, leave, setData_entriesAt_of_ne hp]
    constructor
    · intro h
      exact ⟨h, fun heq => hp heq.1⟩
    · exact And.left

theorem setData_isDir_iff (hsame : data.isDirectory = (v.nodes n).data.isDirectory) (m : ℕ) :
    (v.setData n data).IsDir m ↔ v.IsDir m := by
  by_cases hm : m = n
  · rw [IsDir, hm, setData_nodes_self, IsDir, hsame]
  · rw [IsDir, setData_nodes_of_ne hm, IsDir]

/-- The entry of a new node, after the deletion of its path has been taken back. -/
def addNode (path : Path) (parent : ℕ) (entries : ExtTreeMap String ℕ) (name : String) (node : Node)
    (v : KernelVfs) : KernelVfs :=
  ((v.undelete path).allocate node).2.setData parent (.directory (entries.insert name v.next))

section Creation

variable {node : Node}

/-- Of one new node on the way to a path: what held before holds with it. -/
def KeepsAdding (P : KernelVfs → Prop) (path : Path) (node : Node) : Prop :=
  ∀ (w : KernelVfs) (parentPath : Path) (parent : ℕ) (entries : ExtTreeMap String ℕ)
    (name : String) (made : Node), P w → w.lookupAbs parentPath = .ok parent →
    (w.nodes parent).data = .directory entries → entries.contains name = false →
    parentPath ++ [name] <+: path → (made = Node.directory ∨ made = node) →
    P (w.addNode (parentPath ++ [name]) parent entries name made)

section

variable (hadd : KeepsAdding P path node)
include hadd

theorem createUnder_rule {w : KernelVfs} (hw : P w)
    (hinit : parentPath ++ [name] <+: path) {made : Node}
    (hmade : made = Node.directory ∨ made = node) :
    P (w.createUnder parentPath (parentPath ++ [name]) name made).2 := by
  rw [createUnder]
  rcases hparent : w.lookupAbs parentPath with e | parent
  · exact hw
  dsimp only
  rw [createIn]
  cases hdata : (w.nodes parent).data with
  | directory entries =>
    by_cases hname : entries.contains name = true
    · simp only [if_pos hname]
      exact hw
    · simp only [if_neg hname]
      exact hadd w parentPath parent entries name made hw hparent hdata
        (Bool.not_eq_true _ ▸ hname) hinit hmade
  | _ => exact hw

theorem ensureUp_rule :
    ∀ up : List String, up.reverse <+: path → ∀ w, P w → P (ensureUp up w).2 := by
  intro up
  induction up with
  | nil =>
    intro _ w hw
    exact hw
  | cons component up ih =>
    intro hinit w hw
    rw [reverse_cons] at hinit
    have hparent := ih ((prefix_append _ _).trans hinit) w hw
    rw [ensureUp, reverse_cons]
    by_cases hfound : w.found (up.reverse ++ [component]) = true
    · rw [if_pos hfound]
      exact hw
    rw [if_neg hfound]
    rcases hup : ensureUp up w with ⟨_ | ⟨⟩, w'⟩
    · rw [hup] at hparent
      exact hparent
    rw [hup] at hparent
    dsimp only
    rcases w'.externalStatPath (up.reverse ++ [component]) with _ | _ | stat
    · exact hparent
    · exact hparent
    by_cases hdir : isDirMode stat.mode = true
    · simp only [if_pos hdir]
      exact createUnder_rule hadd hparent hinit (.inl rfl)
    · simp only [if_neg hdir]
      exact hparent

/-- A creation adds nodes one below another, so that what each of them keeps is kept by the whole,
failed or not. -/
theorem createNode_rule (hv : P v) : P (v.createNode path node).2 := by
  rw [createNode]
  rcases hsplit : splitParent path with e | pair
  · exact hv
  obtain ⟨parentPath, name⟩ := pair
  obtain rfl := splitParent_eq_ok hsplit
  have hdirect := createUnder_rule hadd hv (prefix_refl _) (.inr rfl)
  rw [createUnder] at hdirect
  dsimp only
  cases hparent : v.lookupAbs parentPath with
  | ok parent =>
    rw [hparent] at hdirect
    exact hdirect
  | error e =>
    by_cases he : e = enoent
    · simp only [if_pos he, ensureMemoryDir]
      have hfront : parentPath.reverse.reverse <+: parentPath ++ [name] := by
        rw [reverse_reverse]
        exact prefix_append _ _
      have hensured := ensureUp_rule hadd parentPath.reverse hfront v hv
      rcases hup : ensureUp parentPath.reverse v with ⟨_ | ⟨⟩, w⟩
      · rw [hup] at hensured
        exact hensured
      · rw [hup] at hensured
        exact createUnder_rule hadd hensured (prefix_refl _) (.inr rfl)
    · simp only [if_neg he]
      exact hv

end

end Creation

theorem ext4Node_isDirectory (mount : Ext4Mount) (inner : Path) (stat : FileStat)
    (cached : Option (List UInt8)) :
    (ext4Node mount inner stat cached).data.isDirectory = false := by
  rw [ext4Node]
  split <;> rfl

def OnImage (v : KernelVfs) (path : Path) (stat : FileStat) : Prop :=
  ∃ mount inner, v.resolveExternalPath path = some (mount, inner) ∧ mount.ext4.stat inner = .ok stat

theorem mem_of_resolveExternalPath {mount : ExternalMount}
    (h : v.resolveExternalPath path = some (mount, inner)) : mount ∈ v.externalMounts := by
  -- each step of the fold takes the candidate or keeps what it has
  have hfold : ∀ f : Option (ExternalMount × Path) → ExternalMount × Path → _,
      (∀ best candidate, f best candidate = some candidate ∨ f best candidate = best) →
      ∀ (candidates : List _) best, candidates.foldl f best = some (mount, inner) →
        (mount, inner) ∈ candidates ∨ best = some (mount, inner) := by
    intro f hf candidates
    induction candidates with
    | nil =>
      intro best hbest
      exact .inr hbest
    | cons candidate rest ih =>
      intro best hbest
      rcases ih _ hbest with hmem | hchosen
      · exact .inl (mem_cons_of_mem _ hmem)
      rcases hf best candidate with htaken | hkept
      · rw [← some.inj (htaken.symm.trans hchosen)]
        exact .inl mem_cons_self
      · exact .inr (hkept.symm.trans hchosen)
  refine (hfold _ (fun best candidate => ?_) _ _ h).elim (fun hmem => ?_) (fun hnone => ?_)
  · rcases best with _ | found
    · exact .inl rfl
    · exact ite_eq_or_eq _ _ _
  · obtain ⟨candidate, hcandidate, heq⟩ := mem_filterMap.mp hmem
    obtain ⟨found, -, hpair⟩ := Option.map_eq_some_iff.mp heq
    rw [← (Prod.mk.inj hpair).1]
    exact hcandidate
  · cases hnone

/-- An opening outside of memory may note a stat and may make a node for its handle. -/
theorem tryOpenExternal_rule
    (hstat : ∀ (w : KernelVfs) (path : Path) (stat : FileStat), P w → w.OnImage path stat →
      w.externalStatCache[path]? = none → P (w.rememberStat path stat))
    (hnode : ∀ (w : KernelVfs) (node : Node), P w → node.data.isDirectory = false →
      P (w.allocate node).2) (hv : P v) (path : Path) (flags : ℕ) :
    P (v.tryOpenExternal path flags).2 := by
  have hopen : ∀ (w : KernelVfs) (mount : Ext4Mount) (inner : Path) (stat : FileStat)
      (cached : Option (List UInt8)), P w →
      P (w.openStat path flags mount inner stat cached).2 := by
    intro w mount inner stat cached hw
    rw [openStat]
    split
    · exact hw
    · exact hnode w _ hw (ext4Node_isDirectory mount inner stat cached)
  rw [tryOpenExternal]
  split
  · exact hv
  split
  · exact hv
  split
  · exact hv
  rcases hresolve : v.resolveExternalPath path with _ | found
  · exact hv
  obtain ⟨mount, inner⟩ := found
  dsimp only
  split
  · exact hv
  cases v.externalPreloaded[path]? with
  | some preloaded => exact hopen v _ _ _ _ hv
  | none =>
    cases hcache : v.externalStatCache[path]? with
    | some stat => exact hopen v _ _ _ _ hv
    | none =>
      dsimp only
      split
      · exact hnode v _ hv (ext4Node_isDirectory _ _ _ _)
      cases himage : mount.ext4.stat inner with
      | ok stat =>
        apply hopen
        exact hstat v path stat hv ⟨mount, inner, hresolve, himage⟩ hcache
      | error e =>
        dsimp only
        split
        · exact hv
        · exact hv

theorem openPath_rule {path : PathArg}
    (hexternal : ∀ w path, P w → P (w.tryOpenExternal path flags).2)
    (hcreate : hasFlag flags oCreat = true → ∀ (w : KernelVfs) (mode : ℕ), P w →
      w.lookupAbs (normalizePath cwd path) = .error enoent →
      P (w.createWithMode (normalizePath cwd path) ⟨.file, .file []⟩ mode).2)
    (htruncate : hasFlag flags oTrunc = true → ∀ (w : KernelVfs) (n : ℕ), P w →
      P (w.setData n (truncated (w.nodes n).data)))
    (hv : P v) (mode : ℕ) : P (v.openPath cwd path flags mode).2 := by
  have hopenNode : ∀ (w : KernelVfs) (path : Path) (n : ℕ), P w →
      P (w.openNode path flags n).2 := by
    intro w path n hw
    rw [openNode]
    split
    · exact hw
    split
    · rename_i htrunc
      exact htruncate htrunc w n hw
    · exact hw
  have hresolved : ∀ (w : KernelVfs) (path : Path) (n : ℕ), P w →
      P (w.openResolved path flags n).2 := by
    intro w path n hw
    rw [openResolved]
    by_cases hlink : (w.nodes n).kind = .symlink
    · rw [if_pos hlink]
      cases (w.nodes n).data with
      | symlink target =>
        rcases splitParent path with e | ⟨parentPath, name⟩
        · exact hw
        dsimp only
        rcases w.lookupAbs (normalizePath parentPath target) with e | m
        · by_cases he : e = enoent
          · have hout := hexternal w (normalizePath parentPath target) hw
            simp only [if_pos he]
            rcases hres : w.tryOpenExternal (normalizePath parentPath target) flags with
              ⟨_ | _ | handle, w'⟩
            all_goals
              rw [hres] at hout
              exact hout
          · simp only [if_neg he]
            exact hw
        · exact hopenNode w _ m hw
      | _ => exact hw
    · rw [if_neg hlink]
      exact hopenNode w path n hw
  have hmem : ∀ w : KernelVfs, P w → P (w.openMem (normalizePath cwd path) flags mode).2 := by
    intro w hw
    rw [openMem]
    cases hlookup : w.lookupAbs (normalizePath cwd path) with
    | error e =>
      by_cases hcreat : e = enoent ∧ hasFlag flags oCreat = true
      · have hmade := hcreate hcreat.2 w (sIfreg ||| (mode &&& 0o7777)) hw (hcreat.1 ▸ hlookup)
        simp only [if_pos hcreat]
        rcases hres : w.createWithMode (normalizePath cwd path) ⟨.file, .file []⟩
            (sIfreg ||| (mode &&& 0o7777)) with ⟨_ | ⟨⟩, w'⟩
        · rw [hres] at hmade
          exact hmade
        rw [hres] at hmade
        dsimp only
        rcases w'.lookupAbs (normalizePath cwd path) with e' | n
        · exact hmade
        · exact hresolved w' _ n hmade
      · simp only [if_neg hcreat]
        exact hw
    | ok n => exact hresolved w _ n hw
  have hout := hexternal v (normalizePath cwd path) hv
  rw [openPath]
  rcases hres : v.tryOpenExternal (normalizePath cwd path) flags with ⟨_ | _ | handle, w⟩
  · rw [hres] at hout
    exact hout
  · rw [hres] at hout
    exact hmem w hout
  · rw [hres] at hout
    exact hout

end KernelVfs

end NameSpace
