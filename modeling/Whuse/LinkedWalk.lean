import Mathlib.Data.List.Nodup
import Mathlib.Data.List.Perm.Subperm
import Mathlib.Tactic.Common

/-! Walks along a linked list. The walk takes a bounded number of nodes, and ends early at a node
that stops it, at a node it has seen and at a node without a successor. -/
namespace LinkedWalk

open List

variable {α : Type} [DecidableEq α] (next : α → Option α) (stop : α → Prop) [DecidablePred stop]

def walk : ℕ → α → List α → List α
  | 0, _, _ => []
  | fuel + 1, node, seen =>
    if stop node ∨ node ∈ seen then []
    else node :: (match next node with
      | none => []
      | some node' => walk fuel node' (node :: seen))

inductive OnList (start : α) : α → Prop where
  | first : ¬ stop start → OnList start start
  | link {n n' : α} : OnList start n → next n = some n' → ¬ stop n' → OnList start n'

variable {next stop} {start node : α} {seen : List α}

theorem walk_onList (fuel : ℕ) (h : ¬ stop node → OnList next stop start node) :
    ∀ n ∈ walk next stop fuel node seen, OnList next stop start n := by
  induction fuel generalizing node seen with
  | zero =>
    intro n hn
    cases hn
  | succ fuel ih =>
    intro n hn
    unfold walk at hn
    split at hn
    · cases hn
    next hgo =>
    rw [not_or] at hgo
    rcases mem_cons.mp hn with rfl | hn
    · exact h hgo.1
    · split at hn
      · cases hn
      · next node' hnext => exact ih (fun hstop => .link (h hgo.1) hnext hstop) n hn

theorem walk_nodup (fuel : ℕ) (node : α) (seen : List α) :
    (walk next stop fuel node seen).Nodup ∧ ∀ n ∈ walk next stop fuel node seen, n ∉ seen := by
  induction fuel generalizing node seen with
  | zero => exact ⟨nodup_nil, fun n hn => by cases hn⟩
  | succ fuel ih =>
    unfold walk
    split
    · exact ⟨nodup_nil, fun n hn => by cases hn⟩
    next hgo =>
    rw [not_or] at hgo
    split
    · refine ⟨nodup_singleton node, ?_⟩
      intro n hn
      rw [mem_singleton.mp hn]
      exact hgo.2
    · next node' hnext =>
      obtain ⟨hnodup, hout⟩ := ih node' (node :: seen)
      refine ⟨nodup_cons.mpr ⟨fun hmem => hout node hmem mem_cons_self, hnodup⟩, ?_⟩
      intro n hn
      rcases mem_cons.mp hn with rfl | hn
      · exact hgo.2
      · exact fun hseen => hout n hn (mem_cons_of_mem node hseen)

theorem walk_closed (fuel : ℕ)
    (hseen : ∀ n ∈ seen, ∀ n', next n = some n' → stop n' ∨ n' ∈ seen ∨ n' = node)
    (hshort : (walk next stop fuel node seen).length < fuel) :
    (stop node ∨ node ∈ seen ∨ node ∈ walk next stop fuel node seen) ∧
    ∀ n, n ∈ seen ∨ n ∈ walk next stop fuel node seen → ∀ n', next n = some n' →
      stop n' ∨ n' ∈ seen ∨ n' ∈ walk next stop fuel node seen := by
  induction fuel generalizing node seen with
  | zero => cases hshort
  | succ fuel ih =>
    unfold walk at hshort ⊢
    split
    · next hend =>
      refine ⟨hend.elim .inl fun hmem => .inr (.inl hmem), ?_⟩
      rintro n (hn | hn) n' hn'
      · rcases hseen n hn n' hn' with hstop | hmem | rfl
        · exact .inl hstop
        · exact .inr (.inl hmem)
        · exact hend.elim .inl fun hmem => .inr (.inl hmem)
      · cases hn
    · next hgo =>
      rw [if_neg hgo] at hshort
      refine ⟨.inr (.inr mem_cons_self), ?_⟩
      cases hnext : next node with
      | none =>
        rintro n (hn | hn) n' hn'
        · rcases hseen n hn n' hn' with hstop | hmem | rfl
          · exact .inl hstop
          · exact .inr (.inl hmem)
          · exact .inr (.inr mem_cons_self)
        · rw [mem_singleton.mp hn, hnext] at hn'
          cases hn'
      | some node' =>
        rw [hnext] at hshort
        have hrest : (walk next stop fuel node' (node :: seen)).length < fuel := by
          simp only [length_cons] at hshort
          omega
        have hahead : ∀ n ∈ node :: seen, ∀ n', next n = some n' →
            stop n' ∨ n' ∈ node :: seen ∨ n' = node' := by
          intro n hn n' hn'
          rcases mem_cons.mp hn with rfl | hn
          · rw [hnext] at hn'
            exact .inr (.inr (Option.some.inj hn').symm)
          rcases hseen n hn n' hn' with hstop | hmem | rfl
          · exact .inl hstop
          · exact .inr (.inl (mem_cons_of_mem node hmem))
          · exact .inr (.inl mem_cons_self)
        obtain ⟨-, hclosed⟩ := ih hahead hrest
        -- what lies on the walk is the node, or lies on the rest of it
        have hmove : ∀ {n}, n ∈ node :: seen ∨ n ∈ walk next stop fuel node' (node :: seen) ↔
            n ∈ seen ∨ n ∈ node :: walk next stop fuel node' (node :: seen) := by
          intro n
          simp only [mem_cons]
          tauto
        intro n hn n' hn'
        rcases hclosed n (hmove.mpr hn) n' hn' with hstop | hmem
        · exact .inl hstop
        · exact .inr (hmove.mp hmem)

theorem mem_walk_iff {fuel : ℕ} {ns : List α} (hall : ∀ n, OnList next stop start n → n ∈ ns)
    (hlen : ns.length ≤ fuel) (n : α) :
    n ∈ walk next stop fuel start [] ↔ OnList next stop start n := by
  refine ⟨walk_onList fuel (fun hstop => .first hstop) n, fun hn => ?_⟩
  rcases Nat.lt_or_ge (walk next stop fuel start []).length fuel with hshort | hlong
  · have hempty : ∀ n ∈ ([] : List α), ∀ n', next n = some n' → stop n' ∨ n' ∈ [] ∨ n' = start := by
      intro n hn
      cases hn
    obtain ⟨hfirst, hclosed⟩ := walk_closed fuel hempty hshort
    induction hn with
    | first hstop => exact (hfirst.resolve_left hstop).resolve_left (by simp)
    | @link n n' _ hnext hstop ih =>
      exact ((hclosed n (.inr ih) n' hnext).resolve_left hstop).resolve_left (by simp)
  · -- the walk has as many nodes as the list, so it is the list
    have hsub : walk next stop fuel start [] ⊆ ns := by
      intro m hm
      exact hall m (walk_onList fuel (fun hstop => .first hstop) m hm)
    have hperm := (subperm_of_subset (walk_nodup fuel start []).1 hsub).perm_of_length_le
      (Nat.le_trans hlen hlong)
    exact hperm.mem_iff.mpr (hall n hn)

end LinkedWalk
