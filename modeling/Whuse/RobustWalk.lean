import Whuse.ByteAccess
import Whuse.RobustLists

/-! # The walk along a robust list

The list is memory of the exiting process and may be anything. The nodes that the walk visits are
read off the run itself, since a marked word may be part of the list.
-/
namespace RobustWalk

open MachineWord AddressSpace MappingTable ProcessTable UserMemory ByteAccess ExitIsolation List
open RobustLists

variable (hal : HalMemory) (heap : Heap)

structure Walk where
  offset : ℤ
  nodes : List ℕ
  pending : List ℕ

/-- The words that the nodes lead to. -/
def addrsOf (offset : ℤ) (nodes : List ℕ) : List ℕ :=
  nodes.filterMap fun node => robustFutexAddr node offset

variable {hal heap} {M : Machine} {p : Process} {tid a : ℕ} {offset : ℤ} {found : List ℕ × Machine}
  {nodes : List ℕ}

theorem mem_foldl_pushUniqueAddr {addrs found : List ℕ} :
    a ∈ addrs.foldl pushUniqueAddr found ↔ a ∈ found ∨ a ∈ addrs := by
  induction addrs generalizing found with
  | nil => simp
  | cons b addrs ih => rw [foldl_cons, ih, mem_pushUniqueAddr, mem_cons, or_assoc]

/-- The walk is bounded and visits nothing twice, reports the words of its nodes and then of the
pending one, and marks those that the thread owns if no two words overlap. -/
structure Exact (hal : HalMemory) (heap : Heap) (p : Process) (M : Machine) (walk : Walk)
    (out : List ℕ × Machine) : Prop where
  bounded : walk.nodes.length ≤ 2048
  once : walk.nodes.Nodup
  pending : walk.pending.length ≤ 1
  distinct : out.1.Nodup
  reported : out.1 = (addrsOf walk.offset walk.pending).foldl pushUniqueAddr
    (addrsOf walk.offset walk.nodes)
  marked : heap.tryReserve 4 = true → TableWellFormed M.space.mappings →
    HostExact M.space.mappings → (∀ a ∈ out.1, (wordLocs hal M.space.mappings a).Nodup) →
    (∀ a ∈ out.1, ∀ b ∈ out.1, b ≠ a →
      (wordLocs hal M.space.mappings a).Disjoint (wordLocs hal M.space.mappings b)) →
    Marks hal p.tid out.1 M out.2

end RobustWalk
