import Mathlib.Data.List.Infix

/-! Which mount a path belongs to. The tables hold texts, and both lookups compare texts; what they
should find is said of the components. -/
namespace MountLookup

open List

abbrev Text := List UInt8

def slash : UInt8 := 47

abbrev Component := { c : Text // c ≠ [] ∧ slash ∉ c }

/-- What `normalize_path` makes of the components that are left. -/
def text (path : List Component) : Text :=
  if path = [] then [slash] else path.flatMap fun c => slash :: c.1

structure Mount (α : Type) where
  target : List Component
  info : α

/-- `Iterator::max_by_key` keeps the last of the largest. -/
def maxByKey {α : Type} (key : α → ℕ) (xs : List α) : Option α :=
  xs.foldl (fun best x => match best with
    | none => some x
    | some y => if key y ≤ key x then some x else some y) none

def mountFlagsForPath (mounts : List (Mount ℕ)) (absolute : Text) : ℕ :=
  ((maxByKey (fun mount => (text mount.target).length) (mounts.filter fun mount =>
    absolute = text mount.target ∨ text mount.target ++ [slash] <+: absolute)).map Mount.info).getD 0

def externalMountPath (target absolute : Text) : Option Text :=
  if target = [slash] then some absolute
  else if absolute = target then some [slash]
  else ((target.isPrefixOf? absolute).bind [slash].isPrefixOf?).map (slash :: ·)

def resolveExternalPath {α : Type} (mounts : List (Mount α)) (absolute : Text) :
    Option (Mount α × Text) :=
  maxByKey (fun found => (text found.1.target).length) (mounts.filterMap fun mount =>
    (externalMountPath (text mount.target) absolute).map fun path => (mount, path))

/-- The last mount among those with the longest target above the path. -/
def Innermost {α : Type} (mounts : List (Mount α)) (path : List Component)
    (mount : Mount α) : Prop :=
  mount.target <+: path ∧ ∃ before after, mounts = before ++ mount :: after ∧
    (∀ m ∈ before, m.target <+: path → m.target.length ≤ mount.target.length) ∧
    ∀ m ∈ after, m.target <+: path → m.target.length < mount.target.length

structure Picks {α : Type} (mounts : List (Mount ℕ)) (external : List (Mount α))
    (path : List Component) : Prop where
  flags : ∀ mount, Innermost mounts path mount → mountFlagsForPath mounts (text path) = mount.info
  noFlags : (∀ m ∈ mounts, ¬ m.target <+: path) → mountFlagsForPath mounts (text path) = 0
  inside : ∀ mount rest, Innermost external path mount → path = mount.target ++ rest →
    resolveExternalPath external (text path) = some (mount, text rest)
  outside : (∀ m ∈ external, ¬ m.target <+: path) → resolveExternalPath external (text path) = none

variable {α β : Type} {p q t path : List Component} {mounts : List (Mount α)} {mount : Mount α}

theorem text_nil : text [] = [slash] := rfl

theorem word_prefix {c d x y : Text} (hc : slash ∉ c) (hd : slash ∉ d) :
    c ++ slash :: x <+: d ++ slash :: y ↔ c = d ∧ x <+: y := by
  induction c generalizing d with
  | nil => cases d <;> simp_all
  | cons a c ih =>
    cases d with
    | nil =>
      have hne : a ≠ slash := fun heq => hc (heq ▸ mem_cons_self)
      simp [hne]
    | cons b d =>
      rw [cons_append, cons_append, cons_prefix_cons, ih (fun h => hc (mem_cons_of_mem a h))
        fun h => hd (mem_cons_of_mem b h), cons.injEq, and_assoc]

/-- A text with a slash behind it: one in front, and one behind each component. -/
theorem text_concat (h : p ≠ []) :
    text p ++ [slash] = slash :: p.flatMap fun c => c.1 ++ [slash] := by
  rw [text, if_neg h]
  clear h
  induction p with
  | nil => rfl
  | cons c p ih =>
    rw [flatMap_cons, append_assoc, ih, flatMap_cons, append_assoc]
    rfl

theorem closed_prefix :
    (p.flatMap fun c => c.1 ++ [slash]) <+: (q.flatMap fun c => c.1 ++ [slash]) ↔ p <+: q := by
  induction p generalizing q with
  | nil => simp
  | cons c p ih =>
    cases q with
    | nil => simp
    | cons d q =>
      rw [flatMap_cons, flatMap_cons, append_assoc, append_assoc, singleton_append, singleton_append,
        word_prefix c.2.2 d.2.2, ih, cons_prefix_cons, Subtype.ext_iff]

theorem text_head (h : p ≠ []) : ∃ b x, text p = slash :: b :: x ∧ b ≠ slash := by
  obtain ⟨⟨_ | ⟨b, c⟩, hne, hc⟩, p, rfl⟩ := exists_cons_of_ne_nil h
  · exact absurd rfl hne
  · exact ⟨b, _, by rw [text]; rfl, fun heq => hc (heq ▸ mem_cons_self)⟩

theorem text_append (hp : p ≠ []) (hq : q ≠ []) : text (p ++ q) = text p ++ text q := by
  rw [text, text, text, if_neg hp, if_neg hq, if_neg (append_ne_nil_of_left_ne_nil hp q),
    flatMap_append]

/-- The test of `mount_flags_for_path` misses the root for every path below it. -/
theorem text_matches_iff : (text p = text t ∨ text t ++ [slash] <+: text p) ↔
    t <+: p ∧ (t = [] → p = []) := by
  have hboth : (text p = text t ∨ text t ++ [slash] <+: text p) ↔
      text t ++ [slash] <+: text p ++ [slash] := by
    rw [prefix_concat_iff, append_left_inj, eq_comm]
  rw [hboth]
  by_cases ht : t = [] <;> by_cases hp : p = []
  · simp [ht, hp]
  · obtain ⟨b, x, heq, hb⟩ := text_head hp
    simp [ht, hp, heq, text_nil, hb.symm]
  · obtain ⟨b, x, heq, hb⟩ := text_head ht
    simp [ht, hp, heq, text_nil]
  · rw [text_concat ht, text_concat hp, cons_prefix_cons, closed_prefix]
    simp [ht]

theorem externalMountPath_eq (t p : List Component) : externalMountPath (text t) (text p) =
    if t <+: p then some (text (p.drop t.length)) else none := by
  unfold externalMountPath
  by_cases ht : t = []
  · simp [ht, text_nil]
  obtain ⟨b, x, htext, hb⟩ := text_head ht
  rw [if_neg (by rw [htext]; simp)]
  by_cases hpre : t <+: p
  · obtain ⟨rest, rfl⟩ := hpre
    rw [if_pos (prefix_append t rest), drop_left]
    by_cases hrest : rest = []
    · simp [hrest, text_nil]
    · obtain ⟨c, y, hrtext, -⟩ := text_head hrest
      rw [text_append ht hrest, if_neg (by simp [hrtext]),
        isPrefixOf?_eq_some_iff_append_eq.mpr rfl, hrtext]
      rfl
  · have hnot := mt text_matches_iff.mp fun h => hpre h.1
    rw [not_or] at hnot
    rw [if_neg hnot.1, if_neg hpre, Option.map_eq_none_iff, Option.bind_eq_none_iff]
    intro suffix hsuffix
    refine Option.eq_none_iff_forall_ne_some.mpr fun y hy => hnot.2 ⟨y, ?_⟩
    rw [append_assoc, isPrefixOf?_eq_some_iff_append_eq.mp hy,
      isPrefixOf?_eq_some_iff_append_eq.mp hsuffix]

theorem maxByKey_last {key : α → ℕ} {before after : List α} {m : α}
    (hb : ∀ x ∈ before, key x ≤ key m) (ha : ∀ x ∈ after, key x < key m) :
    maxByKey key (before ++ m :: after) = some m := by
  have hfront : ∀ y ∈ maxByKey key before, key y ≤ key m := by
    refine foldlRecOn (motive := fun best => ∀ y ∈ best, key y ≤ key m) before _ nofun
      fun best hbest x hx y hy => ?_
    rcases best with _ | z
    · exact Option.some.inj hy ▸ hb x hx
    dsimp only at hy
    split at hy
    · exact Option.some.inj hy ▸ hb x hx
    · exact hbest y hy
  have hstep : maxByKey key (before ++ [m]) = some m := by
    rw [maxByKey, foldl_append, ← maxByKey]
    cases h : maxByKey key before with
    | none => rfl
    | some y => exact if_pos (hfront y h)
  rw [← concat_append, concat_eq_append, maxByKey, foldl_append, ← maxByKey, hstep]
  refine foldlRecOn (motive := (· = some m)) after _ rfl fun best hbest x hx => ?_
  rw [hbest]
  exact if_neg (ha x hx).not_ge

theorem text_length_le (h : t <+: q) : (text t).length ≤ (text q).length ∧
    (t.length < q.length → (text t).length < (text q).length) := by
  obtain ⟨rest, rfl⟩ := h
  by_cases hrest : rest = []
  · simp [hrest]
  obtain ⟨c, y, hrtext, -⟩ := text_head hrest
  have hlt : (text t).length < (text (t ++ rest)).length := by
    by_cases ht : t = []
    · simp [ht, text_nil, hrtext]
    · simp [text_append ht hrest, hrtext]
  exact ⟨hlt.le, fun _ => hlt⟩

theorem maxByKey_innermost {pick : Mount α → Option β} {key : β → ℕ} {b : β}
    (h : Innermost mounts path mount) (hmount : pick mount = some b)
    (hpick : ∀ m b, pick m = some b → m.target <+: path ∧ key b = (text m.target).length) :
    maxByKey key (mounts.filterMap pick) = some b := by
  obtain ⟨hpre, before, after, rfl, hbefore, hafter⟩ := h
  rw [filterMap_append, filterMap_cons_some hmount]
  apply maxByKey_last <;> rw [(hpick mount b hmount).2] <;> intro x hx
  · obtain ⟨m, hm, hx⟩ := mem_filterMap.mp hx
    obtain ⟨hmpre, hkey⟩ := hpick m x hx
    rw [hkey]
    exact (text_length_le (prefix_of_prefix_length_le hmpre hpre (hbefore m hm hmpre))).1
  · obtain ⟨m, hm, hx⟩ := mem_filterMap.mp hx
    obtain ⟨hmpre, hkey⟩ := hpick m x hx
    have hlt := hafter m hm hmpre
    rw [hkey]
    exact (text_length_le (prefix_of_prefix_length_le hmpre hpre hlt.le)).2 hlt

theorem mountFlags_none {mounts : List (Mount ℕ)}
    (h : ∀ m ∈ mounts, m.target <+: path → m.target = [] ∧ path ≠ []) :
    mountFlagsForPath mounts (text path) = 0 := by
  have hnone : (mounts.filter fun mount =>
      text path = text mount.target ∨ text mount.target ++ [slash] <+: text path) = [] := by
    refine filter_eq_nil_iff.mpr fun m hm hmatch => ?_
    obtain ⟨hpre, hroot⟩ := text_matches_iff.mp (of_decide_eq_true hmatch)
    exact (h m hm hpre).2 (hroot (h m hm hpre).1)
  rw [mountFlagsForPath, hnone]
  rfl

theorem mountFlags_innermost {mounts : List (Mount ℕ)} {mount : Mount ℕ}
    (h : Innermost mounts path mount) (hroot : mount.target = [] → path = []) :
    mountFlagsForPath mounts (text path) = mount.info := by
  rw [mountFlagsForPath, ← filterMap_eq_filter, maxByKey_innermost h
    (Option.guard_eq_some_iff.mpr ⟨rfl, decide_eq_true (text_matches_iff.mpr ⟨h.1, hroot⟩)⟩)]
  · rfl
  · intro m b hb
    obtain ⟨rfl, hmatch⟩ := Option.guard_eq_some_iff.mp hb
    exact ⟨(text_matches_iff.mp (of_decide_eq_true hmatch)).1, rfl⟩

/-- A root mount is innermost where nothing else is above the path. -/
theorem mountFlags_root {mounts : List (Mount ℕ)} {mount : Mount ℕ}
    (h : Innermost mounts path mount) (hroot : mount.target = []) (hpath : path ≠ []) :
    mountFlagsForPath mounts (text path) = 0 := by
  obtain ⟨-, before, after, rfl, hbefore, hafter⟩ := h
  refine mountFlags_none fun m hm hpre => ⟨?_, hpath⟩
  rw [hroot] at hbefore hafter
  rcases mem_append.mp hm with hm | hm
  · exact eq_nil_of_length_eq_zero (Nat.le_zero.mp (hbefore m hm hpre))
  rcases mem_cons.mp hm with rfl | hm
  · exact hroot
  · exact absurd (hafter m hm hpre) (Nat.not_lt_zero _)

theorem picks_iff_root_plain (mounts : List (Mount ℕ)) (external : List (Mount α))
    (path : List Component) : Picks mounts external path ↔
      path = [] ∨ ∀ mount, Innermost mounts path mount → mount.target = [] → mount.info = 0 := by
  constructor
  · intro h
    by_cases hpath : path = []
    · exact .inl hpath
    refine .inr fun mount hin hroot => ?_
    rw [← h.flags mount hin, mountFlags_root hin hroot hpath]
  intro h
  constructor
  · intro mount hin
    by_cases hroot : mount.target = [] ∧ path ≠ []
    · rw [mountFlags_root hin hroot.1 hroot.2, (h.resolve_left hroot.2) mount hin hroot.1]
    · exact mountFlags_innermost hin fun ht => not_not.mp fun hp => hroot ⟨ht, hp⟩
  · intro hnone
    exact mountFlags_none fun m hm hpre => absurd hpre (hnone m hm)
  · intro mount rest hin hrest
    simp only [resolveExternalPath, externalMountPath_eq]
    refine maxByKey_innermost hin ?_ ?_
    · rw [if_pos hin.1, hrest, drop_left]
      rfl
    · intro m b hb
      by_cases hpre : m.target <+: path
      · rw [if_pos hpre] at hb
        exact ⟨hpre, Option.some.inj hb ▸ rfl⟩
      · rw [if_neg hpre] at hb
        cases hb
  · intro hnone
    simp only [resolveExternalPath, externalMountPath_eq]
    rw [filterMap_eq_nil_iff.mpr fun m hm => by rw [if_neg (hnone m hm)]; rfl]
    rfl

/-- A root mounted read-only, and `access` of `/a`: no flag is found. -/
theorem root_flags_missed : ¬ Picks [⟨[], 1⟩] ([] : List (Mount ℕ)) [⟨[97], by decide⟩] := by
  intro h
  exact absurd (h.flags ⟨[], 1⟩ ⟨ nil_prefix, [], [], rfl, nofun, nofun⟩) (by decide)

end MountLookup
