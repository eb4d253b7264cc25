import Whuse.ParentLinks

/-! # Ending a group with its descendants

The search for descendants goes along the links of living processes only. A process that has
exited stays in the table until it is reaped, and what lives below it is not found.
-/
namespace SubtreeExit

open Std (ExtTreeMap)
open Relation AddressSpace ProcessTable ProcessTable.Table TableEffects ParentLinks List Option
open CallRuns (board boardHeap)

variable {links : List (ℕ × ℕ)} {root g parent child : ℕ} {t : Table}

structure Searching (links : List (ℕ × ℕ)) (root : ℕ) (queue out : List ℕ) : Prop where
  nodup : out.Nodup
  start : root ∈ out ∨ root ∈ queue
  reached : ∀ g, g ∈ out ∨ g ∈ queue → ReflTransGen (fun a b => (a, b) ∈ links) root g
  queued : ∀ g ∈ queue, g = root ∨ ∃ parent ∈ out, (parent, g) ∈ links
  closed : ∀ parent ∈ out, ∀ g, (parent, g) ∈ links → g ∈ out ∨ g ∈ queue
  later : ∀ g ∈ out, g = root ∨ ∃ parent, (parent, g) ∈ links ∧ [parent, g].Sublist out

theorem mem_kids : child ∈ kids links g ↔ (g, child) ∈ links := by
  simp [kids]

theorem Searching.skip {queue out : List ℕ} (h : Searching links root (g :: queue) out)
    (hmem : g ∈ out) : Searching links root queue out := by
  have hmove : ∀ {x}, x ∈ out ∨ x ∈ g :: queue → x ∈ out ∨ x ∈ queue := by
    intro x hx
    rw [mem_cons] at hx
    rcases hx with hout | rfl | hqueue
    · exact .inl hout
    · exact .inl hmem
    · exact .inr hqueue
  exact ⟨h.nodup, hmove h.start, fun x hx => h.reached x (hx.imp_right (mem_cons_of_mem g)),
    fun x hx => h.queued x (mem_cons_of_mem g hx),
    fun parent hparent x hlink => hmove (h.closed parent hparent x hlink), h.later⟩

theorem Searching.visit {queue out : List ℕ} (h : Searching links root (g :: queue) out)
    (hnot : g ∉ out) : Searching links root (queue ++ kids links g) (out ++ [g]) := by
  have hmove : ∀ {x}, x ∈ out ∨ x ∈ g :: queue → x ∈ out ++ [g] ∨ x ∈ queue ++ kids links g := by
    intro x hx
    simp only [mem_append, mem_cons] at hx ⊢
    tauto
  refine ⟨?_, hmove h.start, ?_, ?_, ?_, ?_⟩
  · exact nodup_append.mpr ⟨h.nodup, nodup_singleton g, by
      intro x hx y hy hxy
      rw [mem_singleton.mp hy] at hxy
      exact hnot (hxy ▸ hx)⟩
  · intro x hx
    have hg := h.reached g (.inr mem_cons_self)
    simp only [mem_append, mem_singleton, mem_kids] at hx
    rcases hx with (hout | rfl) | hqueue | hkid
    · exact h.reached x (.inl hout)
    · exact hg
    · exact h.reached x (.inr (mem_cons_of_mem g hqueue))
    · exact hg.tail hkid
  · intro x hx
    rcases mem_append.mp hx with hqueue | hkid
    · rcases h.queued x (mem_cons_of_mem g hqueue) with rfl | ⟨parent, hparent, hlink⟩
      · exact .inl rfl
      · exact .inr ⟨parent, mem_append_left _ hparent, hlink⟩
    · exact .inr ⟨g, mem_append_right _ mem_cons_self, mem_kids.mp hkid⟩
  · intro parent hparent x hlink
    rcases mem_append.mp hparent with hout | hg
    · exact hmove (h.closed parent hout x hlink)
    · rw [mem_singleton.mp hg] at hlink
      exact .inr (mem_append_right _ (mem_kids.mpr hlink))
  · intro x hx
    rcases mem_append.mp hx with hout | hg
    · rcases h.later x hout with rfl | ⟨parent, hlink, hsub⟩
      · exact .inl rfl
      · exact .inr ⟨parent, hlink, hsub.trans (sublist_append_left out [g])⟩
    · rw [mem_singleton.mp hg]
      rcases h.queued g mem_cons_self with rfl | ⟨parent, hparent, hlink⟩
      · exact .inl rfl
      · exact .inr ⟨parent, hlink, (singleton_sublist.mpr hparent).append (List.Sublist.refl [g])⟩

theorem searching_descend (links : List (ℕ × ℕ)) (queue out : List ℕ)
    (h : Searching links root queue out) : Searching links root [] (descend links queue out) := by
  induction queue, out using descend.induct links with
  | case1 out =>
    rw [descend]
    exact h
  | case2 out g queue hmem ih =>
    rw [descend, if_pos hmem]
    exact ih (h.skip hmem)
  | case3 out g queue hnot ih =>
    rw [descend, if_neg hnot]
    exact ih (h.visit hnot)

theorem searched (links : List (ℕ × ℕ)) (root : ℕ) :
    Searching links root [] (descend links [root] []) := by
  apply searching_descend
  exact ⟨nodup_nil, .inr mem_cons_self, by simp [ReflTransGen.refl], by simp, by simp, by simp⟩

theorem mem_descend :
    g ∈ descend links [root] [] ↔ ReflTransGen (fun a b => (a, b) ∈ links) root g := by
  have h := searched links root
  constructor
  · intro hg
    exact h.reached g (.inl hg)
  · intro hpath
    induction hpath with
    | refl => simpa using h.start
    | tail _ hlink ih => simpa using h.closed _ ih _ hlink

/-- A living process of the group names the parent. -/
def LiveLink (t : Table) (g parent : ℕ) : Prop :=
  ∃ j q, kin t j = some q ∧ q.Live ∧ q.isThread = false ∧ q.tgid = g ∧ q.parent = some parent ∧
    g ≠ parent

/-- A chain of parent links, through the dead as well. -/
def Descends (t : Table) : ℕ → ℕ → Prop :=
  ReflTransGen fun g parent => ∃ j q, kin t j = some q ∧ q.tgid = g ∧ q.parent = some parent

/-- The group has a living process that is no thread of another. -/
def Led (t : Table) (g : ℕ) : Prop :=
  ∃ j q, kin t j = some q ∧ q.Live ∧ q.isThread = false ∧ q.tgid = g

/-- Whoever lives below the root is below it by links of living processes. -/
def Connected (t : Table) (root : ℕ) : Prop :=
  ∀ j q, kin t j = some q → q.Live → Descends t q.tgid root →
    Led t root ∧ ReflTransGen (LiveLink t) q.tgid root

def OneParent (t : Table) : Prop :=
  ∀ g parent parent', LiveLink t g parent → LiveLink t g parent' → parent = parent'

theorem mem_childLinks : (parent, g) ∈ childLinks t ↔ LiveLink t g parent := by
  simp only [childLinks, mem_filterMap, mem_values, LiveLink, kin_eq_some]
  constructor
  · rintro ⟨p, ⟨j, hp⟩, hlink⟩
    by_cases hskip : (p.isThread || p.state == .exited) = true
    · rw [if_pos hskip] at hlink
      cases hlink
    rw [if_neg hskip] at hlink
    obtain ⟨a, ha, hlink⟩ := bind_eq_some_iff.mp hlink
    by_cases hself : (p.tgid != a) = true
    · rw [if_pos hself] at hlink
      obtain ⟨rfl, rfl⟩ := Prod.mk.inj (some.inj hlink)
      refine ⟨j, kinOf p, ⟨p, hp, rfl⟩, ?_, ?_, rfl, ha, by simpa using hself⟩
      · intro hdead
        exact hskip (by simp [show p.state = .exited from hdead])
      · simp only [Bool.or_eq_true, not_or, Bool.not_eq_true] at hskip
        exact hskip.1
    · rw [if_neg hself] at hlink
      cases hlink
  · rintro ⟨j, _, ⟨p, hp, rfl⟩, hlive, hthread, rfl, hparent, hne⟩
    refine ⟨p, ⟨j, hp⟩, ?_⟩
    have hthread : p.isThread = false := hthread
    have hparent : p.parent = some parent := hparent
    have hlive : p.state ≠ .exited := hlive
    have hne : p.tgid ≠ parent := hne
    simp [hthread, hparent, hlive, hne, kinOf]

theorem LiveLink.descends (h : LiveLink t g parent) :
    ∃ j q, kin t j = some q ∧ q.tgid = g ∧ q.parent = some parent := by
  obtain ⟨j, q, hq, -, -, hg, hparent, -⟩ := h
  exact ⟨j, q, hq, hg, hparent⟩

theorem mem_descendantProcessGroups :
    g ∈ descendantProcessGroups root t ↔ Led t root ∧ ReflTransGen (LiveLink t) g root := by
  have hled : (t.values.any fun p => !(p.isThread || p.state == .exited) && p.tgid == root) = true ↔
      Led t root := by
    simp only [List.any_eq_true, mem_values, Led, kin_eq_some]
    constructor
    · rintro ⟨p, ⟨j, hp⟩, htest⟩
      simp only [Bool.and_eq_true, Bool.not_eq_true', Bool.or_eq_false_iff, beq_eq_false_iff_ne,
        beq_iff_eq] at htest
      exact ⟨j, kinOf p, ⟨p, hp, rfl⟩, htest.1.2, htest.1.1, htest.2⟩
    · rintro ⟨j, _, ⟨p, hp, rfl⟩, hlive, hthread, hroot⟩
      have hthread : p.isThread = false := hthread
      have hlive : p.state ≠ .exited := hlive
      have hroot : p.tgid = root := hroot
      exact ⟨p, ⟨j, hp⟩, by simp [hthread, hlive, hroot]⟩
  unfold descendantProcessGroups
  by_cases h : Led t root
  · rw [if_pos (hled.mpr h), mem_descend]
    simp only [mem_childLinks, h, true_and]
    exact reflTransGen_swap
  · rw [if_neg (fun hany => h (hled.mp hany))]
    simp [h]

section Exits

variable (hal : HalMemory) (heap : Heap) (code : Int32)

def exitGroups : List ℕ → Table → List GroupExit × Table
  | [], t => ([], t)
  | g :: groups, t =>
    let (x, t) := t.forceExitGroup hal heap code g
    let (xs, t) := exitGroups groups t
    (x.toList ++ xs, t)

def forceExitSubtree (root : ℕ) (t : Table) : List GroupExit × Table :=
  exitGroups hal heap code (descendantProcessGroups root t).reverse t

theorem exitGroups_table (groups : List ℕ) (t : Table) : (exitGroups hal heap code groups t).2 =
      groups.foldl (fun t g => (t.forceExitGroup hal heap code g).2) t := by
  induction groups generalizing t with
  | nil => rfl
  | cons g groups ih => exact ih _

theorem exitGroups_kin (groups : List ℕ) (t : Table) : kin (exitGroups hal heap code groups t).2 =
      fun j => (kin t j).map fun q => if q.tgid ∈ groups then q.ended code else q := by
  induction groups generalizing t with
  | nil =>
    funext j
    simp [exitGroups]
  | cons g groups ih =>
    refine (ih (t.forceExitGroup hal heap code g).2).trans ?_
    funext j
    simp only [forceExitGroup_kin, Option.map_map]
    congr 1
    funext q
    simp only [Function.comp_apply, Kin.inGroup, mem_cons]
    by_cases hg : q.tgid = g
    · simp only [hg, if_true, true_or]
      have htgid : (q.ended code).tgid = g := hg
      by_cases hmem : g ∈ groups
      · rw [htgid, if_pos hmem]
        rfl
      · rw [htgid, if_neg hmem]
    · simp [hg]

theorem exitGroups_tgids {groups : List ℕ} (h : ∀ g ∈ groups, Present (kin t) g) :
    (exitGroups hal heap code groups t).1.map GroupExit.tgid = groups := by
  induction groups generalizing t with
  | nil => rfl
  | cons g groups ih =>
    have hrest : ∀ g' ∈ groups, Present (kin (t.forceExitGroup hal heap code g).2) g' := by
      intro g' hg'
      obtain ⟨j, q, hq, hg⟩ := h g' (mem_cons_of_mem g hg')
      refine ⟨j, Kin.inGroup g (Kin.ended code) q, ?_, ?_⟩
      · simp [forceExitGroup_kin, hq]
      · unfold Kin.inGroup
        split <;> exact hg
    have hfirst : (t.forceExitGroup hal heap code g).1.toList.map GroupExit.tgid = [g] := by
      obtain ⟨j, q, hq, hg⟩ := h g mem_cons_self
      have hmem : j ∈ t.groupTids g := mem_groupTids.mpr ⟨q, hq, hg⟩
      unfold Table.forceExitGroup
      cases htids : t.groupTids g with
      | nil =>
        rw [htids] at hmem
        cases hmem
      | cons first tids => simp
    simp [exitGroups, hfirst, ih hrest]

theorem descendants_present :
    ∀ g ∈ (descendantProcessGroups root t).reverse, Present (kin t) g := by
  intro g hg
  obtain ⟨⟨j, q, hq, -, -, hroot⟩, hchain⟩ := mem_descendantProcessGroups.mp (mem_reverse.mp hg)
  rcases hchain.cases_head with rfl | ⟨parent, ⟨j, q, hq, -, -, hg, -⟩, -⟩
  · exact ⟨j, q, hq, hroot⟩
  · exact ⟨j, q, hq, hg⟩

/-- Nobody outside the subtree is touched, each group ends once and before its parent, and nobody
in the subtree survives just if the living are connected. -/
theorem subtree_ends_iff (root : ℕ) (t : Table) :
    (forceExitSubtree hal heap code root t).2 = ParentLinks.forceExitSubtree hal heap code root t ∧
    (∀ j q, kin t j = some q → ¬ Descends t q.tgid root →
      kin (forceExitSubtree hal heap code root t).2 j = some q) ∧
    ((forceExitSubtree hal heap code root t).1.map GroupExit.tgid).Nodup ∧
    (OneParent t → ∀ g parent, LiveLink t g parent → g ≠ root →
      g ∈ (forceExitSubtree hal heap code root t).1.map GroupExit.tgid →
      [g, parent].Sublist ((forceExitSubtree hal heap code root t).1.map GroupExit.tgid)) ∧
    ((∀ j q, kin (forceExitSubtree hal heap code root t).2 j = some q → q.Live →
      ¬ Descends t q.tgid root) ↔ Connected t root) := by
  have htgids := exitGroups_tgids hal heap code (@descendants_present root t)
  have hkin := exitGroups_kin hal heap code (descendantProcessGroups root t).reverse t
  refine ⟨exitGroups_table hal heap code _ t, ?_, ?_, ?_, ?_⟩
  · intro j q hq hout
    unfold forceExitSubtree
    simp only [hkin, hq, map_some]
    rw [if_neg]
    intro hmem
    obtain ⟨-, hchain⟩ := mem_descendantProcessGroups.mp (mem_reverse.mp hmem)
    exact hout (ReflTransGen.mono (fun _ _ => LiveLink.descends) _ _ hchain)
  · unfold forceExitSubtree
    rw [htgids, nodup_reverse]
    unfold descendantProcessGroups
    split
    · exact (searched _ root).nodup
    · exact nodup_nil
  · intro hone g parent hlink hne hmem
    unfold forceExitSubtree at hmem ⊢
    rw [htgids] at hmem ⊢
    rw [mem_reverse] at hmem
    unfold descendantProcessGroups at hmem ⊢
    split at hmem
    · next hroot =>
      rw [if_pos hroot]
      rcases (searched _ root).later g hmem with hroot | ⟨parent', hlink', hsub⟩
      · exact absurd hroot hne
      · rw [hone g parent parent' hlink (mem_childLinks.mp hlink')]
        exact reverse_sublist.mpr hsub
    · cases hmem
  · unfold forceExitSubtree
    rw [hkin]
    constructor
    · intro hnone j q hq hlive hdesc
      by_contra hgap
      have hout : q.tgid ∉ (descendantProcessGroups root t).reverse := by
        rw [mem_reverse, mem_descendantProcessGroups]
        exact hgap
      refine hnone j q ?_ hlive hdesc
      simp only [hq, map_some]
      rw [if_neg hout]
    · intro hconn j q hq hlive hdesc
      obtain ⟨p, hp, rfl⟩ := map_eq_some_iff.mp hq
      by_cases hmem : p.tgid ∈ (descendantProcessGroups root t).reverse
      · rw [if_pos hmem] at hlive
        exact hlive rfl
      · rw [if_neg hmem] at hlive hdesc
        exact hmem (mem_reverse.mpr (mem_descendantProcessGroups.mpr (hconn j p hp hlive hdesc)))

end Exits

/-- A child that has exited and is not reaped, with a living child of its own. -/
def deadBetween : Table :=
  { (boot (fun _ => newUser board) fun _ => 0).table with
    processes := ((((∅ : ExtTreeMap ℕ Process).insert 1 (newProcess 1 none 0 0)).insert 2
      { newProcess 2 (some 1) 0 0 with state := .exited }).insert 3 (newProcess 3 (some 2) 0 0)) }

theorem grandchild_survives :
    (forceExitSubtree board boardHeap 124 1 deadBetween).1.map GroupExit.tgid = [1] ∧
    (kin (forceExitSubtree board boardHeap 124 1 deadBetween).2 3).any
      (fun q => decide q.Live) = true ∧
    Descends deadBetween 3 1 := by
  have hrelatives : [2, 3].map (fun j => (kin deadBetween j).map fun q => (q.tgid, q.parent)) =
      [some (2, some 1), some (3, some 2)] := by decide +kernel
  simp only [map_cons, List.cons.injEq, map_eq_some_iff, Prod.mk.injEq] at hrelatives
  obtain ⟨⟨p, hp, hpgroup, hpparent⟩, ⟨q, hq, hqgroup, hqparent⟩, -⟩ := hrelatives
  refine ⟨by decide +kernel, by decide +kernel, ?_⟩
  exact .head ⟨3, q, hq, hqgroup, hqparent⟩ (.single ⟨2, p, hp, hpgroup, hpparent⟩)

end SubtreeExit
