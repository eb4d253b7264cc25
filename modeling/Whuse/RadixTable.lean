import Mathlib.Data.List.Infix
import Mathlib.Logic.Function.Basic
import Mathlib.Tactic.Common

/-! Multi-level lookup tables over numbered pages. A slot is absent, links a further table or
holds a leaf; a format says how an entry encodes this. Tables are taken from a supply of
fresh pages. A path of indices names a slot, and a walk stops at the first leaf on its path.
That no two paths reach one table is proved, not assumed: it makes one write change one slot. -/
namespace RadixTable

open Function List Option

inductive Slot where
  | absent
  | leaf
  | table (addr : ℕ)
  deriving DecidableEq, Repr

structure Format (E : Type) where
  empty : E
  link : ℕ → E
  classify : E → Slot

/-- The addresses successive allocations answer, as long as there are any left. Zero is kept
free: it says that a slot is taken. -/
structure Supply where
  addr : ℕ → ℕ
  limit : ℕ
  distinct : ∀ i j, i < limit → j < limit → addr i = addr j → i = j
  nonzero : ∀ k < limit, addr k ≠ 0

structure Encodes (f : Format E) (boxes : Supply) : Prop where
  empty_absent : f.classify f.empty = .absent
  link_table : ∀ k < boxes.limit, f.classify (f.link (boxes.addr k)) = .table (boxes.addr k)

structure Tables (E : Type) where
  root : ℕ
  pages : List ℕ
  entry : ℕ → ℕ → E

def start (f : Format E) (boxes : Supply) : Tables E :=
  ⟨boxes.addr 0, [boxes.addr 0], fun _ _ => f.empty⟩

def write (T : Tables E) (t i : ℕ) (e : E) : Tables E :=
  { T with entry := update T.entry t (update (T.entry t) i e) }

def newPage (f : Format E) (T : Tables E) (a : ℕ) : Tables E :=
  { T with pages := T.pages ++ [a], entry := update T.entry a fun _ => f.empty }

def ensure (f : Format E) (boxes : Supply) (T : Tables E) (t i : ℕ) : ℕ × Tables E :=
  match f.classify (T.entry t i) with
  | .table next => (next, T)
  | .leaf => (0, T)
  | .absent =>
    let next := boxes.addr T.pages.length
    (next, write (newPage f T next) t i (f.link next))

def place (f : Format E) (boxes : Supply) (T : Tables E) (t : ℕ) : List ℕ → E → Tables E
  | [], _ => T
  | [i], e => write T t i e
  | i :: j :: rest, e =>
    let step := ensure f boxes T t i
    if step.1 = 0 then step.2 else place f boxes step.2 step.1 (j :: rest) e

def walk (f : Format E) (T : Tables E) : ℕ → List ℕ → Option (E × List ℕ)
  | _, [] => none
  | t, i :: rest =>
    match f.classify (T.entry t i) with
    | .absent => none
    | .leaf => some (T.entry t i, rest)
    | .table next => walk f T next rest

def child (f : Format E) (T : Tables E) (t i : ℕ) : Option ℕ :=
  match f.classify (T.entry t i) with
  | .table next => some next
  | _ => none

def reachFrom (f : Format E) (T : Tables E) : ℕ → List ℕ → Option ℕ
  | t, [] => some t
  | t, i :: rest => (child f T t i).bind fun next => reachFrom f T next rest

def reach (f : Format E) (T : Tables E) (p : List ℕ) : Option ℕ := reachFrom f T T.root p

def HasLeaf (f : Format E) (T : Tables E) (p : List ℕ) (e : E) : Prop :=
  ∃ q i t, p = q ++ [i] ∧ reach f T q = some t ∧ T.entry t i = e ∧ f.classify e = .leaf

/-- The tables form a tree on supplied pages, and each leaf has the shape its depth asks for. -/
structure WellFormed (f : Format E) (boxes : Supply) (shape : ℕ → E → Prop) (T : Tables E) :
    Prop where
  room : T.pages.length ≤ boxes.limit
  supplied : ∀ a ∈ T.pages, ∃ k < T.pages.length, boxes.addr k = a
  owned : ∀ p t, reach f T p = some t → t ∈ T.pages
  unshared : ∀ p q t, reach f T p = some t → reach f T q = some t → p = q
  linked : ∀ p i t a, reach f T p = some t → f.classify (T.entry t i) = .table a →
    T.entry t i = f.link a
  shaped : ∀ p e, HasLeaf f T p e → shape p.length e

variable {e : E} {p : List ℕ} {i t : ℕ}

section Reading

variable {f : Format E} {T : Tables E}

theorem reachFrom_append (t : ℕ) (p q : List ℕ) :
    reachFrom f T t (p ++ q) = (reachFrom f T t p).bind fun next => reachFrom f T next q := by
  induction p generalizing t with
  | nil => rfl
  | cons i rest ih =>
    cases h : child f T t i with
    | none => simp [reachFrom, h]
    | some next => simp [reachFrom, h, ih]

theorem reach_snoc (p : List ℕ) (i : ℕ) :
    reach f T (p ++ [i]) = (reach f T p).bind fun t => child f T t i := by
  unfold reach
  rw [reachFrom_append]
  congr 1
  funext t
  cases h : child f T t i <;> simp [reachFrom, h]

theorem child_eq_some {a : ℕ} : child f T t i = some a ↔ f.classify (T.entry t i) = .table a := by
  cases h : f.classify (T.entry t i) <;> simp [child, h]

theorem child_eq_none : child f T t i = none ↔ ∀ a, f.classify (T.entry t i) ≠ .table a := by
  cases h : f.classify (T.entry t i) <;> simp [child, h]

theorem reach_snoc_of_some (hp : reach f T p = some t) : reach f T (p ++ [i]) = child f T t i := by
  rw [reach_snoc, hp, bind_some]

/-- A walk from a table finds exactly the leaves below it. -/
theorem walk_eq_some_iff (t : ℕ) (q : List ℕ) (e : E) (rest : List ℕ) :
    walk f T t q = some (e, rest) ↔
      ∃ p i s, q = p ++ i :: rest ∧ reachFrom f T t p = some s ∧ T.entry s i = e ∧
        f.classify e = .leaf := by
  induction q generalizing t with
  | nil => simp [walk]
  | cons j q ih =>
    constructor
    · intro h
      cases hc : f.classify (T.entry t j) with
      | absent => simp [walk, hc] at h
      | leaf =>
        have hpair : T.entry t j = e ∧ q = rest := by simpa [walk, hc] using h
        obtain ⟨rfl, rfl⟩ := hpair
        exact ⟨[], j, t, rfl, rfl, rfl, hc⟩
      | table next =>
        have hw : walk f T next q = some (e, rest) := by simpa [walk, hc] using h
        obtain ⟨p, i, s, hq, hs, he, hl⟩ := (ih next).mp hw
        refine ⟨j :: p, i, s, by rw [hq]; rfl, ?_, he, hl⟩
        rw [reachFrom, child_eq_some.mpr hc, bind_some, hs]
    · rintro ⟨p, i, s, hq, hs, he, hl⟩
      cases p with
      | nil =>
        obtain ⟨rfl, rfl⟩ : j = i ∧ q = rest := by simpa using hq
        obtain rfl : t = s := by simpa [reachFrom] using hs
        rw [← he] at hl ⊢
        simp [walk, hl]
      | cons k p =>
        obtain ⟨rfl, rfl⟩ : j = k ∧ q = p ++ i :: rest := by simpa using hq
        obtain ⟨next, hc, hr⟩ := bind_eq_some_iff.mp hs
        have hw := (ih next).mpr ⟨p, i, s, rfl, hr, he, hl⟩
        simpa [walk, child_eq_some.mp hc] using hw

theorem walk_root_iff (q : List ℕ) (e : E) (rest : List ℕ) :
    walk f T T.root q = some (e, rest) ↔ ∃ p, q = p ++ rest ∧ HasLeaf f T p e := by
  rw [walk_eq_some_iff]
  constructor
  · rintro ⟨p, i, s, hq, hs, he, hl⟩
    exact ⟨p ++ [i], by simp [hq], p, i, s, rfl, hs, he, hl⟩
  · rintro ⟨_, hq, p, i, s, rfl, hs, he, hl⟩
    exact ⟨p, i, s, by simp [hq], hs, he, hl⟩

end Reading

section Writing

variable {f : Format E} {boxes : Supply} {shape : ℕ → E → Prop} {T : Tables E}

@[simp] theorem write_root (t i : ℕ) (e : E) : (write T t i e).root = T.root := rfl

@[simp] theorem write_pages (t i : ℕ) (e : E) : (write T t i e).pages = T.pages := rfl

@[simp] theorem newPage_root (a : ℕ) : (newPage f T a).root = T.root := rfl

@[simp] theorem newPage_pages (a : ℕ) : (newPage f T a).pages = T.pages ++ [a] := rfl

theorem write_entry (t i : ℕ) (e : E) (s j : ℕ) :
    (write T t i e).entry s j = if s = t ∧ j = i then e else T.entry s j := by
  simp only [write]
  by_cases hs : s = t
  · by_cases hj : j = i <;> simp [hs, hj]
  · simp [hs]

theorem newPage_entry (a s j : ℕ) :
    (newPage f T a).entry s j = if s = a then f.empty else T.entry s j := by
  simp only [newPage]
  by_cases hs : s = a <;> simp [hs]

section

variable (hwf : WellFormed f boxes shape T) (hp : reach f T p = some t)
  (he : f.classify e = .leaf)
include hwf hp he

theorem reach_write_leaf (q : List ℕ) :
    reach f (write T t i e) q = if (p ++ [i]) <+: q then none else reach f T q := by
  induction q using List.reverseRecOn with
  | nil => simp [reach, reachFrom]
  | append_singleton q j ih =>
    rw [reach_snoc, ih]
    by_cases hq : (p ++ [i]) <+: q
    · rw [if_pos hq, if_pos (hq.trans (prefix_append q [j]))]
      rfl
    rw [if_neg hq]
    by_cases heq : p ++ [i] = q ++ [j]
    · -- The slot itself: it now holds a leaf, which links nothing.
      obtain ⟨rfl, hij⟩ := append_inj' heq rfl
      obtain rfl : i = j := by simpa using hij
      rw [if_pos (prefix_refl _), hp]
      exact child_eq_none.mpr fun a => by simp [write_entry, he]
    · have hnp : ¬ (p ++ [i]) <+: (q ++ [j]) := by
        rw [prefix_concat_iff]
        rintro (h | h)
        · exact heq h
        · exact hq h
      rw [if_neg hnp, reach_snoc]
      rcases hr : reach f T q with _ | s
      · rfl
      have hne : ¬ (s = t ∧ j = i) := by
        rintro ⟨rfl, rfl⟩
        exact heq (by rw [hwf.unshared p q s hp hr])
      simp [child, write_entry, if_neg hne]

theorem hasLeaf_write (q : List ℕ) (d : E) : HasLeaf f (write T t i e) q d ↔
      q = p ++ [i] ∧ d = e ∨ ¬ (p ++ [i]) <+: q ∧ HasLeaf f T q d := by
  constructor
  · rintro ⟨q, j, s, rfl, hr, hd, hl⟩
    rw [reach_write_leaf hwf hp he] at hr
    split at hr
    · cases hr
    rename_i hq
    rw [write_entry] at hd
    by_cases hsj : s = t ∧ j = i
    · obtain ⟨rfl, rfl⟩ := hsj
      rw [if_pos ⟨rfl, rfl⟩] at hd
      exact .inl ⟨by rw [hwf.unshared p q s hp hr], hd.symm⟩
    rw [if_neg hsj] at hd
    refine .inr ⟨?_, q, j, s, rfl, hr, hd, hl⟩
    rw [prefix_concat_iff]
    rintro (h | h)
    · obtain ⟨rfl, hij⟩ := append_inj' h rfl
      rw [hp] at hr
      exact hsj ⟨(some.inj hr).symm, by simpa using hij.symm⟩
    · exact hq h
  · rintro (⟨rfl, rfl⟩ | ⟨hq, q, j, s, rfl, hr, hd, hl⟩)
    · refine ⟨p, i, t, rfl, ?_, by rw [write_entry, if_pos ⟨rfl, rfl⟩], he⟩
      have hnp : ¬ (p ++ [i]) <+: p := fun h => by
        have := h.length_le
        rw [length_append, length_singleton] at this
        omega
      rw [reach_write_leaf hwf hp he, if_neg hnp, hp]
    · have hnp : ¬ (p ++ [i]) <+: q := fun h => hq (h.trans (prefix_append q [j]))
      refine ⟨q, j, s, rfl, by rw [reach_write_leaf hwf hp he, if_neg hnp, hr], ?_, hl⟩
      have hne : ¬ (s = t ∧ j = i) := by
        rintro ⟨rfl, rfl⟩
        exact hq (by rw [hwf.unshared p q s hp hr])
      rw [write_entry, if_neg hne, hd]

theorem wellFormed_write (hshape : shape (p.length + 1) e) :
    WellFormed f boxes shape (write T t i e) := by
  have hback : ∀ q s, reach f (write T t i e) q = some s → reach f T q = some s := by
    intro q s h
    rw [reach_write_leaf hwf hp he] at h
    split at h
    · cases h
    · exact h
  refine ⟨hwf.room, hwf.supplied, fun q s h => hwf.owned q s (hback q s h),
    fun q r s hq hr => hwf.unshared q r s (hback q s hq) (hback r s hr), ?_, ?_⟩
  · intro q j s a hq hc
    rw [write_entry] at hc ⊢
    split at hc
    · rw [he] at hc
      cases hc
    · rename_i hne
      rw [if_neg hne]
      exact hwf.linked q j s a (hback q s hq) hc
  · intro q d h
    rcases (hasLeaf_write hwf hp he q d).mp h with ⟨rfl, rfl⟩ | ⟨-, hold⟩
    · simpa using hshape
    · exact hwf.shaped q d hold

end

def linked (f : Format E) (boxes : Supply) (T : Tables E) (t i : ℕ) : Tables E :=
  write (newPage f T (boxes.addr T.pages.length)) t i (f.link (boxes.addr T.pages.length))

theorem linked_entry (t i s j : ℕ) : (linked f boxes T t i).entry s j =
      if s = t ∧ j = i then f.link (boxes.addr T.pages.length)
      else if s = boxes.addr T.pages.length then f.empty else T.entry s j := by
  rw [linked, write_entry, newPage_entry]

section Linking

variable (henc : Encodes f boxes) (hwf : WellFormed f boxes shape T)
  (hroom : T.pages.length < boxes.limit) (hp : reach f T p = some t)
  (habsent : f.classify (T.entry t i) = .absent)

include hwf hroom hp in
theorem reached_ne_fresh : t ≠ boxes.addr T.pages.length := by
  intro heq
  obtain ⟨k, hk, hsame⟩ := hwf.supplied _ (heq ▸ hwf.owned p t hp)
  have := boxes.distinct k T.pages.length (hk.trans hroom) hroom hsame
  omega

include habsent hp in
theorem reach_absent : reach f T (p ++ [i]) = none := by
  rw [reach_snoc_of_some hp]
  exact child_eq_none.mpr fun a => by simp [habsent]

include henc hwf hroom hp habsent in
theorem reach_linked (q : List ℕ) : reach f (linked f boxes T t i) q =
      if q = p ++ [i] then some (boxes.addr T.pages.length) else reach f T q := by
  induction q using List.reverseRecOn with
  | nil => simp [reach, reachFrom, linked]
  | append_singleton q j ih =>
    rw [reach_snoc, ih]
    by_cases hq : q = p ++ [i]
    · -- Below the new table: its page is empty, and the slot linked nothing before.
      have hlen : q ++ [j] ≠ p ++ [i] := fun h => by
        have := congrArg List.length h
        simp [hq] at this
      have hnew : boxes.addr T.pages.length ≠ t := (reached_ne_fresh hwf hroom hp).symm
      rw [if_pos hq, if_neg hlen, reach_snoc, hq, reach_absent hp habsent]
      exact child_eq_none.mpr fun a => by simp [linked_entry, hnew, henc.empty_absent]
    rw [if_neg hq]
    by_cases heq : q ++ [j] = p ++ [i]
    · obtain ⟨rfl, hij⟩ := append_inj' heq rfl
      obtain rfl : j = i := by simpa using hij
      rw [if_pos rfl, hp]
      exact child_eq_some.mpr (by rw [linked_entry, if_pos ⟨rfl, rfl⟩, henc.link_table _ hroom])
    · rw [if_neg heq, reach_snoc]
      rcases hr : reach f T q with _ | s
      · rfl
      have hne : ¬ (s = t ∧ j = i) := by
        rintro ⟨rfl, rfl⟩
        exact heq (by rw [hwf.unshared p q s hp hr])
      simp [child, linked_entry, if_neg hne, if_neg (reached_ne_fresh hwf hroom hr)]

include henc hwf hroom hp habsent in
theorem hasLeaf_linked (q : List ℕ) (d : E) :
    HasLeaf f (linked f boxes T t i) q d ↔ HasLeaf f T q d := by
  have hreach := reach_linked henc hwf hroom hp habsent
  constructor
  · rintro ⟨q, j, s, rfl, hr, hd, hl⟩
    rw [hreach] at hr
    rw [linked_entry] at hd
    by_cases hsj : s = t ∧ j = i
    · rw [if_pos hsj] at hd
      rw [← hd, henc.link_table _ hroom] at hl
      cases hl
    rw [if_neg hsj] at hd
    split at hr
    · rw [if_pos (some.inj hr).symm] at hd
      rw [← hd, henc.empty_absent] at hl
      cases hl
    · rw [if_neg (reached_ne_fresh hwf hroom hr)] at hd
      exact ⟨q, j, s, rfl, hr, hd, hl⟩
  · rintro ⟨q, j, s, rfl, hr, hd, hl⟩
    have hq : q ≠ p ++ [i] := by
      rintro rfl
      rw [reach_absent hp habsent] at hr
      cases hr
    have hsj : ¬ (s = t ∧ j = i) := by
      rintro ⟨rfl, rfl⟩
      rw [← hd, habsent] at hl
      cases hl
    refine ⟨q, j, s, rfl, by rw [hreach, if_neg hq, hr], ?_, hl⟩
    rw [linked_entry, if_neg hsj, if_neg (reached_ne_fresh hwf hroom hr), hd]

include henc hwf hroom hp habsent in
theorem wellFormed_linked : WellFormed f boxes shape (linked f boxes T t i) := by
  have hreach := reach_linked henc hwf hroom hp habsent
  have hpages : (linked f boxes T t i).pages = T.pages ++ [boxes.addr T.pages.length] := rfl
  refine ⟨?_, ?_, ?_, ?_, ?_, ?_⟩
  · rw [hpages, length_append]
    exact hroom
  · intro a ha
    rw [hpages] at ha ⊢
    rw [length_append, length_singleton]
    rcases mem_append.mp ha with hold | hnew
    · obtain ⟨k, hk, heq⟩ := hwf.supplied a hold
      exact ⟨k, by omega, heq⟩
    · exact ⟨T.pages.length, by omega, (mem_singleton.mp hnew).symm⟩
  · intro q s h
    rw [hreach] at h
    rw [hpages]
    split at h
    · cases h
      simp
    · exact mem_append_left _ (hwf.owned q s h)
  · intro q r s hq hr
    rw [hreach] at hq hr
    split at hq <;> split at hr <;> rename_i h₁ h₂
    · rw [h₁, h₂]
    · cases hq
      exact absurd rfl (reached_ne_fresh hwf hroom hr)
    · cases hr
      exact absurd rfl (reached_ne_fresh hwf hroom hq)
    · exact hwf.unshared q r s hq hr
  · intro q j s a hq hc
    rw [linked_entry] at hc ⊢
    by_cases hsj : s = t ∧ j = i
    · rw [if_pos hsj, henc.link_table _ hroom] at hc
      rw [if_pos hsj]
      cases hc
      rfl
    rw [if_neg hsj] at hc ⊢
    by_cases hs : s = boxes.addr T.pages.length
    · rw [if_pos hs, henc.empty_absent] at hc
      cases hc
    rw [if_neg hs] at hc ⊢
    rw [hreach] at hq
    split at hq
    · exact absurd (some.inj hq).symm hs
    · exact hwf.linked q j s a hq hc
  · intro q d h
    exact hwf.shaped q d ((hasLeaf_linked henc hwf hroom hp habsent q d).mp h)

end Linking

def Blocked (f : Format E) (T : Tables E) (p path : List ℕ) : Prop :=
  ∃ q r d, path = q ++ r ∧ r ≠ [] ∧ HasLeaf f T (p ++ q) d

theorem hasLeaf_slot (hp : reach f T p = some t) (d : E) :
    HasLeaf f T (p ++ [i]) d ↔ T.entry t i = d ∧ f.classify d = .leaf := by
  constructor
  · rintro ⟨q, j, s, heq, hr, hd, hl⟩
    obtain ⟨rfl, hij⟩ := append_inj' heq rfl
    obtain rfl : i = j := by simpa using hij
    rw [hp] at hr
    cases hr
    exact ⟨hd, hl⟩
  · rintro ⟨hd, hl⟩
    exact ⟨p, i, t, rfl, hp, hd, hl⟩

theorem not_hasLeaf_of_reach (hp : reach f T p = some t) (d : E) : ¬ HasLeaf f T p d := by
  rintro ⟨q, i, s, rfl, hr, hd, hl⟩
  rw [reach_snoc_of_some hr, child_eq_some, hd, hl] at hp
  cases hp

/-- What asking for the table below a slot does: it adds no leaf and loses none. -/
theorem ensure_spec (henc : Encodes f boxes) (hwf : WellFormed f boxes shape T)
    (hp : reach f T p = some t) (i : ℕ) (hfit : (ensure f boxes T t i).2.pages.length ≤ boxes.limit) :
    WellFormed f boxes shape (ensure f boxes T t i).2 ∧
    (ensure f boxes T t i).2.root = T.root ∧
    (∀ q d, HasLeaf f (ensure f boxes T t i).2 q d ↔ HasLeaf f T q d) ∧
    ((ensure f boxes T t i).1 = 0 ∧ (∃ d, HasLeaf f T (p ++ [i]) d) ∨
      (ensure f boxes T t i).1 ≠ 0 ∧ (∀ d, ¬ HasLeaf f T (p ++ [i]) d) ∧
        reach f (ensure f boxes T t i).2 (p ++ [i]) = some (ensure f boxes T t i).1) := by
  cases hc : f.classify (T.entry t i) with
  | absent =>
    have heq : ensure f boxes T t i = (boxes.addr T.pages.length, linked f boxes T t i) := by
      simp [ensure, hc, linked]
    have hroom : T.pages.length < boxes.limit := by
      rw [heq] at hfit
      have : T.pages.length + 1 ≤ boxes.limit := by simpa [linked] using hfit
      omega
    rw [heq]
    refine ⟨wellFormed_linked henc hwf hroom hp hc, rfl, hasLeaf_linked henc hwf hroom hp hc,
      .inr ⟨?_, ?_, ?_⟩⟩
    · exact boxes.nonzero _ hroom
    · intro d hd
      obtain ⟨rfl, hl⟩ := (hasLeaf_slot hp d).mp hd
      rw [hc] at hl
      cases hl
    · rw [reach_linked henc hwf hroom hp hc, if_pos rfl]
  | leaf =>
    have heq : ensure f boxes T t i = (0, T) := by simp [ensure, hc]
    rw [heq]
    exact ⟨hwf, rfl, fun _ _ => Iff.rfl, .inl ⟨rfl, _, (hasLeaf_slot hp _).mpr ⟨rfl, hc⟩⟩⟩
  | table next =>
    have heq : ensure f boxes T t i = (next, T) := by simp [ensure, hc]
    have hnext : reach f T (p ++ [i]) = some next := by
      rw [reach_snoc_of_some hp, child_eq_some, hc]
    rw [heq]
    refine ⟨hwf, rfl, fun _ _ => Iff.rfl, .inr ⟨?_, not_hasLeaf_of_reach hnext, hnext⟩⟩
    obtain ⟨k, hlt, hk⟩ := hwf.supplied next (hwf.owned _ _ hnext)
    exact hk ▸ boxes.nonzero k (hlt.trans_le hwf.room)

theorem ensure_pages (f : Format E) (boxes : Supply) (T : Tables E) (t i : ℕ) :
    T.pages.length ≤ (ensure f boxes T t i).2.pages.length ∧
      (ensure f boxes T t i).2.pages.length ≤ T.pages.length + 1 := by
  cases h : f.classify (T.entry t i) <;> simp [ensure, h]

theorem place_pages (t : ℕ) (p : List ℕ) (e : E) :
    T.pages.length ≤ (place f boxes T t p e).pages.length ∧
      (place f boxes T t p e).pages.length ≤ T.pages.length + p.length := by
  induction p generalizing T t with
  | nil => exact ⟨le_rfl, le_rfl⟩
  | cons i rest ih =>
    rcases rest with _ | ⟨j, rest⟩
    · exact ⟨le_rfl, Nat.le_succ _⟩
    obtain ⟨h₁, h₂⟩ := ensure_pages f boxes T t i
    simp only [place]
    split
    · simp only [length_cons]
      omega
    · obtain ⟨h₃, h₄⟩ := ih (T := (ensure f boxes T t i).2) (ensure f boxes T t i).1
      simp only [length_cons] at h₃ h₄ ⊢
      omega

/-- Writing a leaf at the end of a path changes the leaves below that path and no others, and
changes none when a leaf stands on the way. -/
theorem place_spec (i : ℕ) (rest : List ℕ) (henc : Encodes f boxes)
    (hwf : WellFormed f boxes shape T) (hp : reach f T p = some t) (he : f.classify e = .leaf)
    (hshape : shape (p.length + (rest.length + 1)) e)
    (hfit : (place f boxes T t (i :: rest) e).pages.length ≤ boxes.limit) :
    WellFormed f boxes shape (place f boxes T t (i :: rest) e) ∧
    (place f boxes T t (i :: rest) e).root = T.root ∧
    (Blocked f T p (i :: rest) →
      ∀ q d, HasLeaf f (place f boxes T t (i :: rest) e) q d ↔ HasLeaf f T q d) ∧
    (¬ Blocked f T p (i :: rest) → ∀ q d, HasLeaf f (place f boxes T t (i :: rest) e) q d ↔
        q = p ++ i :: rest ∧ d = e ∨ ¬ (p ++ i :: rest) <+: q ∧ HasLeaf f T q d) := by
  induction rest generalizing T t p i with
  | nil =>
    refine ⟨wellFormed_write hwf hp he hshape, rfl, ?_, fun _ => hasLeaf_write hwf hp he⟩
    -- The path is one slot long: a leaf before its end would stand where a table is.
    rintro ⟨q, r, d, hq, hr, hd⟩
    have hnil : q = [] := by
      cases q with
      | nil => rfl
      | cons a q =>
        have := congrArg List.length hq
        cases r with
        | nil => exact absurd rfl hr
        | cons => simp at this
    rw [hnil, append_nil] at hd
    exact absurd hd (not_hasLeaf_of_reach hp d)
  | cons j rest ih =>
    have hfit' : (ensure f boxes T t i).2.pages.length ≤ boxes.limit := by
      simp only [place] at hfit
      split at hfit
      · exact hfit
      · exact (place_pages _ _ _).1.trans hfit
    obtain ⟨hwf', hroot, hleaves, hstep⟩ := ensure_spec henc hwf hp i hfit'
    rcases hstep with ⟨hzero, d, hd⟩ | ⟨hne, hno, hreach⟩
    · have hplace : place f boxes T t (i :: j :: rest) e = (ensure f boxes T t i).2 := by
        simp [place, hzero]
      rw [hplace]
      refine ⟨hwf', hroot, fun _ => hleaves, fun hfree => ?_⟩
      exact absurd ⟨[i], j :: rest, d, rfl, by simp, hd⟩ hfree
    · have hplace : place f boxes T t (i :: j :: rest) e =
          place f boxes (ensure f boxes T t i).2 (ensure f boxes T t i).1 (j :: rest) e := by
        simp [place, hne]
      have hblocked : Blocked f (ensure f boxes T t i).2 (p ++ [i]) (j :: rest) ↔
          Blocked f T p (i :: j :: rest) := by
        constructor
        · rintro ⟨q, r, d, hq, hr, hd⟩
          refine ⟨i :: q, r, d, by rw [hq]; rfl, hr, ?_⟩
          rw [hleaves, append_assoc] at hd
          exact hd
        · rintro ⟨q, r, d, hq, hr, hd⟩
          rcases q with _ | ⟨a, q⟩
          · rw [append_nil] at hd
            exact absurd hd (not_hasLeaf_of_reach hp d)
          obtain ⟨rfl, htail⟩ : i = a ∧ j :: rest = q ++ r := by simpa using hq
          refine ⟨q, r, d, htail, hr, ?_⟩
          rw [hleaves, append_assoc]
          exact hd
      have hlen : (p ++ [i]).length + (rest.length + 1) = p.length + ((j :: rest).length + 1) := by
        simp
        omega
      obtain ⟨h₁, h₂, h₃, h₄⟩ := ih j hwf' hreach (hlen ▸ hshape) (hplace ▸ hfit)
      rw [hblocked] at h₃ h₄
      rw [hplace]
      refine ⟨h₁, h₂.trans hroot, fun hb q d => (h₃ hb q d).trans (hleaves q d), ?_⟩
      intro hfree q d
      rw [h₄ hfree q d, hleaves, append_assoc]
      rfl

section

variable {rest : List ℕ} (henc : Encodes f boxes) (hwf : WellFormed f boxes shape T)
  (he : f.classify e = .leaf) (hshape : shape (rest.length + 1) e)
include henc hwf he hshape

theorem walk_place (hfree : ¬ Blocked f T [] (i :: rest))
    (hfit : (place f boxes T T.root (i :: rest) e).pages.length ≤ boxes.limit) (q : List ℕ) :
    walk f (place f boxes T T.root (i :: rest) e) T.root q =
      if (i :: rest) <+: q then some (e, q.drop (i :: rest).length) else walk f T T.root q := by
  have hp : reach f T [] = some T.root := rfl
  obtain ⟨-, hroot, -, hleaves⟩ := place_spec i rest henc hwf hp he (by simpa using hshape) hfit
  have hleaves := hleaves hfree
  simp only [nil_append] at hleaves
  apply Option.ext
  rintro ⟨d, r⟩
  have hwalk := walk_root_iff (f := f) (T := place f boxes T T.root (i :: rest) e) q d r
  rw [hroot] at hwalk
  rw [hwalk]
  by_cases hq : (i :: rest) <+: q
  · rw [if_pos hq]
    obtain ⟨s, rfl⟩ := hq
    simp only [some.injEq, Prod.mk.injEq, drop_left]
    constructor
    · rintro ⟨p', hp', hleaf⟩
      rcases (hleaves p' d).mp hleaf with ⟨rfl, rfl⟩ | ⟨hnot, hold⟩
      · exact ⟨rfl, append_cancel_left hp'⟩
      -- An older leaf on the way would have kept the path from being written.
      exfalso
      have hpre : p' <+: i :: rest := by
        rcases prefix_or_prefix_of_prefix (prefix_append (i :: rest) s)
          (hp' ▸ prefix_append p' r) with h | h
        · exact absurd h hnot
        · exact h
      obtain ⟨u, hu⟩ := hpre
      refine hfree ⟨p', u, d, hu.symm, ?_, hold⟩
      rintro rfl
      exact hnot (by rw [← hu, append_nil])
    · rintro ⟨rfl, rfl⟩
      exact ⟨i :: rest, rfl, (hleaves _ _).mpr (.inl ⟨rfl, rfl⟩)⟩
  · rw [if_neg hq, walk_root_iff]
    refine exists_congr fun p' => and_congr_right fun hp' => ?_
    have hnot : ¬ (i :: rest) <+: p' := fun h => hq (h.trans ⟨r, hp'.symm⟩)
    rw [hleaves]
    constructor
    · rintro (⟨rfl, -⟩ | ⟨-, hold⟩)
      · exact absurd (prefix_refl _) hnot
      · exact hold
    · intro hold
      exact .inr ⟨hnot, hold⟩

theorem walk_place_blocked (hblocked : Blocked f T [] (i :: rest))
    (hfit : (place f boxes T T.root (i :: rest) e).pages.length ≤ boxes.limit) (q : List ℕ) :
    walk f (place f boxes T T.root (i :: rest) e) T.root q = walk f T T.root q := by
  have hp : reach f T [] = some T.root := rfl
  obtain ⟨-, hroot, hleaves, -⟩ := place_spec i rest henc hwf hp he (by simpa using hshape) hfit
  apply Option.ext
  rintro ⟨d, r⟩
  have hwalk := walk_root_iff (f := f) (T := place f boxes T T.root (i :: rest) e) q d r
  rw [hroot] at hwalk
  rw [hwalk, walk_root_iff]
  exact exists_congr fun p' => and_congr_right fun _ => hleaves hblocked p' d

end

theorem wellFormed_start (henc : Encodes f boxes) (hlimit : 0 < boxes.limit) :
    WellFormed f boxes shape (start f boxes) := by
  have hslot : ∀ t i, f.classify ((start f boxes).entry t i) = .absent := fun _ _ =>
    henc.empty_absent
  have hreach : ∀ p t, reach f (start f boxes) p = some t → p = [] ∧ t = boxes.addr 0 := by
    intro p t h
    cases p with
    | nil => exact ⟨rfl, (some.inj h).symm⟩
    | cons i rest =>
      obtain ⟨next, hc, -⟩ := bind_eq_some_iff.mp h
      rw [child_eq_some, hslot] at hc
      cases hc
  refine ⟨hlimit, ?_, ?_, ?_, ?_, ?_⟩
  · intro a ha
    exact ⟨0, Nat.one_pos, (mem_singleton.mp ha).symm⟩
  · intro p t h
    rw [(hreach p t h).2]
    exact mem_singleton_self _
  · intro p q t hp hq
    rw [(hreach p t hp).1, (hreach q t hq).1]
  · intro p i t a _ hc
    rw [hslot] at hc
    cases hc
  · rintro p e ⟨q, i, t, -, -, he, hl⟩
    rw [← he, hslot] at hl
    cases hl

theorem walk_start (henc : Encodes f boxes) (t : ℕ) (q : List ℕ) :
    walk f (start f boxes) t q = none := by
  cases q with
  | nil => rfl
  | cons i q => simp [walk, start, henc.empty_absent]

end Writing

end RadixTable
