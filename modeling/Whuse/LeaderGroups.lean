import Mathlib.Logic.Function.Basic
import Mathlib.Tactic.Common

/-! Groups stored as pointers to leaders: every member of a set points at a member of its group,
and that one points at itself. Which members belong together is said by a tag on each. -/
namespace LeaderGroups

open Function Option

variable {K O : Type*}

/-- The pointers store the groups of the tags. A key without a pointer is no member. -/
structure Represents (leader : K → Option K) (tag : K → O) : Prop where
  leads : ∀ {a l}, leader a = some l → leader l = some l
  same : ∀ {a b l m}, leader a = some l → leader b = some m → (l = m ↔ tag a = tag b)

namespace Represents

variable {leader leader' : K → Option K} {tag : K → O}

theorem tag_leader (h : Represents leader tag) {a l : K} (ha : leader a = some l) : tag l = tag a :=
  (h.same (h.leads ha) ha).mp rfl

section Decidable

variable [DecidableEq K] {k : K}

theorem found (h : Represents leader tag) {o : O} (hk : leader k = none)
    (ho : ∀ a l, leader a = some l → tag a ≠ o) :
    Represents (update leader k (some k)) (update tag k o) := by
  constructor
  · intro a l ha
    by_cases hak : a = k
    · subst hak
      rw [update_self, some.injEq] at ha
      rw [← ha, update_self]
    · rw [update_of_ne hak] at ha
      have hl := h.leads ha
      rw [update_of_ne (fun heq => by rw [heq, hk] at hl; cases hl)]
      exact hl
  · intro a b l m ha hb
    by_cases hak : a = k <;> by_cases hbk : b = k
    · subst hak hbk
      rw [ha] at hb
      simp [some.inj hb]
    · subst hak
      rw [update_self, some.injEq] at ha
      rw [update_of_ne hbk] at hb
      rw [update_self, update_of_ne hbk]
      refine iff_of_false (fun heq => ?_) (fun heq => ho b m hb heq.symm)
      have hm := h.leads hb
      rw [← heq, ← ha, hk] at hm
      cases hm
    · subst hbk
      rw [update_self, some.injEq] at hb
      rw [update_of_ne hak] at ha
      rw [update_self, update_of_ne hak]
      refine iff_of_false (fun heq => ?_) (ho a l ha)
      have hl := h.leads ha
      rw [heq, ← hb, hk] at hl
      cases hl
    · rw [update_of_ne hak] at ha ⊢
      rw [update_of_ne hbk] at hb ⊢
      exact h.same ha hb

theorem join (h : Represents leader tag) {a l : K} (hk : leader k = none) (ha : leader a = some l) :
    Represents (update leader k (some l)) (update tag k (tag a)) := by
  have hne : ∀ {b m}, leader b = some m → b ≠ k := by
    rintro b m hb rfl
    rw [hk] at hb
    cases hb
  -- both look at `k` as they look at `a`
  have hpoint : ∀ {b m}, update leader k (some l) b = some m →
      ∃ c, leader c = some m ∧ update tag k (tag a) b = tag c := by
    intro b m hb
    by_cases hbk : b = k
    · subst hbk
      rw [update_self] at hb
      exact ⟨a, ha.trans hb, update_self ..⟩
    · rw [update_of_ne hbk] at hb
      exact ⟨b, hb, update_of_ne hbk ..⟩
  constructor
  · intro b m hb
    obtain ⟨c, hc, -⟩ := hpoint hb
    rw [update_of_ne (hne (h.leads hc))]
    exact h.leads hc
  · intro b c m n hb hc
    obtain ⟨b', hb', htagb⟩ := hpoint hb
    obtain ⟨c', hc', htagc⟩ := hpoint hc
    rw [htagb, htagc]
    exact h.same hb' hc'

end Decidable

theorem leave (h : Represents leader tag) {k : K} (hgone : leader' k = none)
    (hkeep : ∀ a l, a ≠ k → leader a = some l → l ≠ k → leader' a = some l)
    (helect : ∀ a, a ≠ k → leader a = some k →
      ∃ r, r ≠ k ∧ leader r = some k ∧ ∀ b, b ≠ k → leader b = some k → leader' b = some r)
    (hmembers : ∀ a, leader a = none → leader' a = none) : Represents leader' tag := by
  -- the members that stay, and who led them
  have hback : ∀ {a m}, leader' a = some m → a ≠ k ∧ ∃ l, leader a = some l ∧
      (l ≠ k ∧ m = l ∨ l = k ∧ m ≠ k ∧ leader m = some k ∧
        ∀ b, b ≠ k → leader b = some k → leader' b = some m) := by
    intro a m ha
    have hak : a ≠ k := by
      rintro rfl
      rw [hgone] at ha
      cases ha
    refine ⟨hak, ?_⟩
    rcases hl : leader a with _ | l
    · rw [hmembers a hl] at ha
      cases ha
    refine ⟨l, rfl, ?_⟩
    by_cases hlk : l = k
    · subst hlk
      obtain ⟨r, hr, hrl, hall⟩ := helect a hak hl
      rw [hall a hak hl, some.injEq] at ha
      subst ha
      exact .inr ⟨rfl, hr, hrl, hall⟩
    · rw [hkeep a l hak hl hlk, some.injEq] at ha
      exact .inl ⟨hlk, ha.symm⟩
  constructor
  · intro a m ha
    obtain ⟨-, l, hl, ⟨hlk, rfl⟩ | ⟨rfl, hmk, hml, hall⟩⟩ := hback ha
    · exact hkeep _ _ hlk (h.leads hl) hlk
    · exact hall m hmk hml
  · intro a b m n ha hb
    obtain ⟨hak, l, hl, hcase⟩ := hback ha
    obtain ⟨hbk, l', hl', hcase'⟩ := hback hb
    rw [← h.same hl hl']
    rcases hcase with ⟨hlk, rfl⟩ | ⟨rfl, hmk, hml, hall⟩ <;>
      rcases hcase' with ⟨hlk', rfl⟩ | ⟨rfl, hnk, hnl, -⟩
    · exact Iff.rfl
    · -- a leader that stays leads nobody of the group of `k`
      refine iff_of_false (fun heq => ?_) hlk
      have hself := h.leads hl
      rw [heq, hnl, some.injEq] at hself
      exact hnk hself.symm
    · refine iff_of_false (fun heq => ?_) (fun heq => hlk' heq.symm)
      have hself := h.leads hl'
      rw [← heq, hml, some.injEq] at hself
      exact hmk hself.symm
    · have hsame := hall b hbk hl'
      rw [hb, some.injEq] at hsame
      exact iff_of_true hsame.symm rfl

/-- Members that belong to no group with others may go together. -/
theorem restrict (h : Represents leader tag) {keep : K → Prop} [DecidablePred keep]
    (halone : ∀ a b l m, leader a = some l → leader b = some m → keep a → ¬ keep b →
      tag a ≠ tag b) : Represents (fun a => if keep a then leader a else none) tag := by
  constructor
  · intro a l ha
    split at ha
    · next hka =>
      have hl := h.leads ha
      have hkl : keep l := by
        by_contra hnot
        exact halone a l l l ha hl hka hnot (h.tag_leader ha).symm
      rw [if_pos hkl]
      exact hl
    · cases ha
  · intro a b l m ha hb
    split at ha
    · split at hb
      · exact h.same ha hb
      · cases hb
    · cases ha

end Represents

end LeaderGroups
