import Mathlib.Logic.Relation
import Mathlib.Data.List.Chain
import Mathlib.Tactic.Common

/-! Forests with labelled edges. Some nodes are inner ones, and only these have edges; an inner node
has at most one edge into it, while a leaf may have many. -/
namespace RootedForest

open Relation (ReflTransGen TransGen)

variable {α L : Type*} {D D' : α → Prop} {E E' : α → L → α → Prop} {p : α}

def Child (E : α → L → α → Prop) (p c : α) : Prop := ∃ a, E p a c

def Reaches (E : α → L → α → Prop) : α → α → Prop := ReflTransGen (Child E)

def Below (E : α → L → α → Prop) : α → α → Prop := TransGen (Child E)

def Orphan (E : α → L → α → Prop) (n : α) : Prop := ∀ p a, ¬ E p a n

structure Forest (D : α → Prop) (E : α → L → α → Prop) : Prop where
  inner : ∀ {p a c}, E p a c → D p
  single : ∀ {p q a b c}, D c → E p a c → E q b c → p = q ∧ a = b
  acyclic : ∀ n, ¬ Below E n n

theorem child_le (hE : ∀ p a c, E' p a c → E p a c) : Child E' ≤ Child E := by
  rintro p c ⟨a, hedge⟩
  exact ⟨a, hE p a c hedge⟩

theorem Below.mono (hE : ∀ p a c, E' p a c → E p a c) {c : α} (h : Below E' p c) : Below E p c :=
  TransGen.mono (child_le hE) p c h

theorem Reaches.mono (hE : ∀ p a c, E' p a c → E p a c) {c : α} (h : Reaches E' p c) :
    Reaches E p c :=
  ReflTransGen.mono (child_le hE) p c h

/-- Nothing but an orphan itself reaches it. -/
theorem Orphan.eq_of_reaches {n : α} (horphan : Orphan E n) (h : Reaches E p n) : p = n := by
  rcases ReflTransGen.cases_tail h with heq | ⟨q, -, a, hedge⟩
  · exact heq.symm
  · exact absurd hedge (horphan q a)

theorem eq_of_reaches_leaf {n : α} (hleaf : ∀ a c, ¬ E n a c) (h : Reaches E n p) : n = p := by
  rcases ReflTransGen.cases_head h with heq | ⟨q, ⟨a, hedge⟩, -⟩
  · exact heq
  · exact absurd hedge (hleaf a q)

namespace Forest

/-- Above one inner node there is one orphan: the climb from it has no choice. -/
theorem orphan_unique (h : Forest D E) {r n : α} (hr : Orphan E r) (hn : Orphan E n)
    (hreach : Reaches E r p) (hp : D p) (habove : Reaches E n p) : n = r := by
  induction hreach with
  | refl => exact hr.eq_of_reaches habove
  | @tail b c _ hedge ih =>
    obtain ⟨a, hedge⟩ := hedge
    rcases ReflTransGen.cases_tail habove with heq | ⟨q, hq, a', hedge'⟩
    · rw [heq] at hedge
      exact absurd hedge (hn b a)
    obtain ⟨hparent, -⟩ := h.single hp hedge' hedge
    apply ih (h.inner hedge)
    rw [← hparent]
    exact hq

/-- Edges may go, and what has no edges may change its kind. -/
theorem mono (h : Forest D E) (hE : ∀ p a c, E' p a c → E p a c)
    (hinner : ∀ p a c, E' p a c → D' p) (hD : ∀ p a c, E' p a c → D' c → D c) : Forest D' E' where
  inner := fun hedge => hinner _ _ _ hedge
  single := by
    intro p q a b c hc hpc hqc
    exact h.single (hD p a c hpc hc) (hE p a c hpc) (hE q b c hqc)
  acyclic := by
    intro n hcycle
    exact h.acyclic n (hcycle.mono hE)

section Attach

variable {p n : α} {a : L}

theorem below_attach (hnot : ¬ Reaches E n p)
    (hE : ∀ q b c, E' q b c → E q b c ∨ (q = p ∧ b = a ∧ c = n)) {x y : α} (h : Below E' x y) :
    Below E x y ∨ (Reaches E x p ∧ Reaches E n y) := by
  induction h with
  | single hedge =>
    obtain ⟨b, hedge⟩ := hedge
    rcases hE _ _ _ hedge with hold | ⟨rfl, -, rfl⟩
    · exact .inl (TransGen.single ⟨b, hold⟩)
    · exact .inr ⟨ReflTransGen.refl, ReflTransGen.refl⟩
  | tail _ hedge ih =>
    obtain ⟨b, hedge⟩ := hedge
    rcases hE _ _ _ hedge with hold | ⟨rfl, -, rfl⟩
    · rcases ih with hbelow | ⟨hxp, hny⟩
      · exact .inl (hbelow.tail ⟨b, hold⟩)
      · exact .inr ⟨hxp, hny.tail ⟨b, hold⟩⟩
    · rcases ih with hbelow | ⟨-, hback⟩
      · exact .inr ⟨hbelow.to_reflTransGen, ReflTransGen.refl⟩
      · exact absurd hback hnot

/-- A node is put under an inner one that it is not above; an inner node must be an orphan. -/
theorem attach (h : Forest D E) (hp : D p) (horphan : D n → Orphan E n) (hnot : ¬ Reaches E n p)
    (hE : ∀ q b c, E' q b c → E q b c ∨ (q = p ∧ b = a ∧ c = n)) : Forest D E' where
  inner := by
    intro q b c hedge
    rcases hE q b c hedge with hold | ⟨rfl, -, -⟩
    · exact h.inner hold
    · exact hp
  single := by
    intro q q' b b' c hc hq hq'
    rcases hE q b c hq with hold | ⟨rfl, rfl, rfl⟩
    · rcases hE q' b' c hq' with hold' | ⟨rfl, rfl, rfl⟩
      · exact h.single hc hold hold'
      · exact absurd hold (horphan hc q b)
    · rcases hE q' b' c hq' with hold' | ⟨rfl, rfl, -⟩
      · exact absurd hold' (horphan hc q' b')
      · exact ⟨rfl, rfl⟩
  acyclic := by
    intro m hcycle
    rcases below_attach hnot hE hcycle with hold | ⟨hmp, hnm⟩
    · exact h.acyclic m hold
    · exact hnot (hnm.trans hmp)

end Attach

theorem nodup_of_isChain (h : Forest D E) {way : List α} (hway : way.IsChain (Child E)) :
    way.Nodup := by
  have hbelow : way.IsChain (TransGen (Child E)) := hway.imp fun _ _ hedge => TransGen.single hedge
  have hpairs := List.isChain_iff_pairwise.mp hbelow
  apply hpairs.imp
  intro x y hxy heq
  rw [heq] at hxy
  exact h.acyclic y hxy

end Forest

end RootedForest
