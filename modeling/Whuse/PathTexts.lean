import Mathlib.Data.List.DropRight
import Whuse.MountLookup

/-! The texts that `normalize_path` and `split_parent` make of texts. -/
namespace PathTexts

open List MountLookup

def dot : UInt8 := 46

def einval : ℕ := 22

def push (components : List Text) (component : Text) : List Text :=
  if component = [] ∨ component = [dot] then components
  else if component = [dot, dot] then components.dropLast
  else components ++ [component]

def join (components : List Text) : Text :=
  if components = [] then [slash] else slash :: [slash].intercalate components

def normalizePath (cwd path : Text) : Text :=
  let source :=
    if path.head? = some slash then path
    else if cwd = [slash] then slash :: path
    else cwd.rdropWhile (· == slash) ++ slash :: path
  join ((source.splitOn slash).foldl push [])

def splitParent (path : Text) : Except ℕ (Text × Text) :=
  let trimmed := path.rdropWhile (· == slash)
  match trimmed.reverse.findIdx? (· == slash) with
  | none => .error einval
  | some behind =>
    let index := trimmed.length - 1 - behind
    let parent := if index = 0 then [slash] else trimmed.take index
    let name := trimmed.drop (index + 1)
    if name = [] then .error einval else .ok (parent, name)

structure Canonical (path : Text) : Prop where
  rooted : path.head? = some slash
  plain : path ≠ [slash] →
    ∀ component ∈ path.tail.splitOn slash, component ∉ [[], [dot], [dot, dot]]
  closed : path ≠ [slash] → path.getLast? ≠ some slash
  fixed : ∀ cwd, normalizePath cwd path = path

def Plain (component : Text) : Prop := slash ∉ component ∧ component ∉ [[], [dot], [dot, dot]]

/-- The components that are left when a text is read behind others. -/
def walk (components : List Text) (path : Text) : List Text :=
  (path.splitOn slash).foldl push components

variable {a b s component : Text} {components cs : List Text}

theorem push_plain (h : Plain component) :
    push components component = components ++ [component] := by
  simp only [Plain, mem_cons, not_or] at h
  simp [push, h]

theorem not_mem_of_mem_splitOn (h : component ∈ s.splitOn slash) : slash ∉ component := by
  induction s generalizing component with
  | nil => simp_all
  | cons c s ih =>
    rw [splitOn_cons_eq_if_modifyHead] at h
    obtain ⟨first, rest, hsplit⟩ := exists_cons_of_ne_nil (splitOn_ne_nil slash s)
    rw [hsplit] at h ih
    split at h
    · rcases mem_cons.mp h with rfl | hmem
      · exact not_mem_nil
      · exact ih hmem
    · next hne =>
      rcases mem_cons.mp h with rfl | hmem
      · rw [mem_cons, not_or]
        exact ⟨fun heq => hne (beq_iff_eq.mpr heq.symm), ih mem_cons_self⟩
      · exact ih (mem_cons_of_mem _ hmem)

theorem walk_plain (h : ∀ c ∈ components, Plain c) : ∀ c ∈ walk components s, Plain c := by
  refine foldlRecOn (motive := fun cs : List Text => ∀ c ∈ cs, Plain c) _ _ h ?_
  intro cs hcs component hmem
  unfold push
  split
  · exact hcs
  split
  · exact fun c hc => hcs c (mem_of_mem_dropLast hc)
  · refine forall_mem_append.mpr ⟨hcs, forall_mem_singleton.mpr ⟨not_mem_of_mem_splitOn hmem, ?_⟩⟩
    simp_all

theorem walk_nil : walk components [] = components := rfl

theorem walk_append : walk components (a ++ slash :: b) = walk (walk components a) b := by
  rw [walk, splitOn_append_cons_self, foldl_append, walk, walk]

theorem walk_slash : walk components (slash :: b) = walk components b := walk_append (a := [])

theorem walk_rdropWhile : walk components (s.rdropWhile (· == slash)) = walk components s := by
  induction s using reverseRecOn with
  | nil => rfl
  | append_singleton s c ih =>
    rw [rdropWhile_concat]
    split
    · next hc => rw [ih, beq_iff_eq.mp hc, walk_append, walk_nil]
    · rfl

theorem foldl_push (h : ∀ c ∈ cs, Plain c) : cs.foldl push components = components ++ cs := by
  induction cs generalizing components with
  | nil => simp
  | cons c cs ih =>
    rw [forall_mem_cons] at h
    rw [foldl_cons, push_plain h.1, ih h.2, append_assoc, singleton_append]

theorem walk_join (h : ∀ c ∈ cs, Plain c) : walk components (join cs) = components ++ cs := by
  unfold join
  split
  · next hnil => rw [walk_slash, walk_nil, hnil, append_nil]
  · next hne =>
    rw [walk_slash, walk, splitOn_intercalate slash (fun c hc => (h c hc).1) hne, foldl_push h]

theorem join_head : (join components).head? = some slash := by
  unfold join
  split <;> rfl

theorem normalizePath_eq (cwd path : Text) : normalizePath cwd path =
    join (walk (if path.head? = some slash then [] else walk [] cwd) path) := by
  change join (walk [] _) = _
  congr 1
  split
  · rfl
  split
  · next hcwd => rw [hcwd]; rfl
  · rw [walk_append, walk_rdropWhile]

theorem normalizePath_join (cwd : Text) (h : ∀ c ∈ components, Plain c) :
    normalizePath cwd (join components) = join components := by
  rw [normalizePath_eq, if_pos join_head, walk_join h, nil_append]

theorem join_eq (h : components ≠ []) : join components = components.flatMap (slash :: ·) := by
  rw [join]
  obtain ⟨c, components, rfl⟩ := exists_cons_of_ne_nil h
  induction components generalizing c with
  | nil => simp
  | cons d components ih =>
    rw [flatMap_cons, ← ih d (cons_ne_nil d components)]
    simp

theorem join_concat : join (components ++ [component]) =
    components.flatMap (slash :: ·) ++ slash :: component := by
  rw [join_eq (by simp), flatMap_append, flatMap_singleton]

theorem last_ne (h : Plain component) :
    (join (components ++ [component])).getLast? ≠ some slash := by
  have hne : component ≠ [] := fun hnil => h.2 (by simp [hnil])
  rw [join_concat, getLast?_append_of_ne_nil _ (cons_ne_nil _ _), getLast?_cons_of_ne_nil hne]
  exact fun heq => h.1 (mem_of_getLast? heq)

theorem canonical_join (h : ∀ c ∈ components, Plain c) : Canonical (join components) := by
  refine ⟨join_head, fun hroot => ?_, fun hroot => ?_, fun cwd => normalizePath_join cwd h⟩
  all_goals have hne : components ≠ [] := fun hnil => hroot (by rw [hnil]; rfl)
  · rw [join, if_neg hne, tail_cons, splitOn_intercalate slash (fun c hc => (h c hc).1) hne]
    exact fun c hc => (h c hc).2
  · obtain ⟨front, component, rfl⟩ := (eq_nil_or_concat' components).resolve_left hne
    exact last_ne (h component (by simp))

theorem splitParent_join (h : Plain component) :
    splitParent (join (components ++ [component])) = .ok (join components, component) := by
  have htrim : (join (components ++ [component])).rdropWhile (· == slash) =
      components.flatMap (slash :: ·) ++ slash :: component := by
    rw [rdropWhile_eq_self_iff.mpr, join_concat]
    intro hl heq
    exact last_ne h ((getLast?_eq_some_getLast hl).trans (congrArg some (beq_iff_eq.mp heq)))
  have hnone : component.reverse.findIdx? (· == slash) = none := by
    rw [findIdx?_eq_none_iff]
    exact fun x hx => beq_false_of_ne fun heq => h.1 (heq ▸ mem_reverse.mp hx)
  have hne : component ≠ [] := fun hnil => h.2 (by simp [hnil])
  have hparent : join components = if components.flatMap (slash :: ·) = [] then [slash]
      else components.flatMap (slash :: ·) := by
    cases components with
    | nil => rfl
    | cons c components => exact join_eq (cons_ne_nil c components)
  rw [hparent]
  generalize components.flatMap (slash :: ·) = front at htrim
  simp [splitParent, htrim, findIdx?_cons, hnone, hne]

theorem normalization_canonical (cwd path : Text) :
    Canonical (normalizePath cwd path) ∧
    (∀ b, path ≠ [] → b.head? ≠ some slash →
      normalizePath (normalizePath cwd path) b = normalizePath cwd (path ++ slash :: b)) ∧
    (normalizePath cwd path ≠ [slash] → ∃ parent name,
      splitParent (normalizePath cwd path) = .ok (parent, name) ∧ Canonical parent ∧ name ≠ [] ∧
        slash ∉ name ∧ normalizePath parent name = normalizePath cwd path) := by
  have hbase : ∀ c ∈ (if path.head? = some slash then [] else walk [] cwd), Plain c := by
    split
    · nofun
    · exact walk_plain nofun
  rw [normalizePath_eq cwd path]
  have hplain := walk_plain (s := path) hbase
  refine ⟨canonical_join hplain, fun b hpath hb => ?_, fun hroot => ?_⟩
  · rw [normalizePath_eq, normalizePath_eq, if_neg hb, walk_join hplain, nil_append, walk_append,
      head?_append_of_ne_nil path hpath]
  · obtain hnil | ⟨front, name, heq⟩ := eq_nil_or_concat' (walk _ path)
    · exact absurd (by rw [hnil]; rfl) hroot
    rw [heq] at hplain ⊢
    rw [forall_mem_append, forall_mem_singleton] at hplain
    obtain ⟨hfront, hname⟩ := hplain
    refine ⟨join front, name, splitParent_join hname, canonical_join hfront, ?_, hname.1, ?_⟩
    · exact fun hnil => hname.2 (by simp [hnil])
    · have hhead : ¬ name.head? = some slash := fun hs => hname.1 (mem_of_mem_head? hs)
      rw [normalizePath_eq, if_neg hhead, walk_join hfront, nil_append, walk,
        splitOn_eq_singleton hname.1, foldl_cons, foldl_nil, push_plain hname]

end PathTexts
