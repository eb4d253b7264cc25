import Whuse.AddressSpace

/-! Runs of address-space calls. A world is every live address space over one kernel memory;
an event makes a space, copies one, drops one or makes one call in one of them. A guard on
events restricts a run to calls a result is about. -/
namespace CallRuns

open MachineWord AddressSpace List Option

/-- The critical sections on one address space. The last two are sections of the image loader,
which moves the next mapping base and the break by hand. -/
inductive Call where
  | mapAnonymous (heap : Heap) (fuel len prot : ℕ)
  | mapAnonymousShared (heap : Heap) (fuel len prot : ℕ)
  | mapAnonymousAt (heap : Heap) (addr len prot : ℕ)
  | mapAnonymousSharedAt (heap : Heap) (addr len prot : ℕ)
  | mapFixedBytes (heap : Heap) (addr : ℕ) (bytes : List UInt8) (memLen prot : ℕ)
  | mapFixedSharedBytes (heap : Heap) (addr : ℕ) (bytes : List UInt8) (memLen prot : ℕ)
  | mapSharedExisting (addr : ℕ) (data : Arc VecBuf) (prot : ℕ)
  | installHostRange (addr len prot : ℕ)
  | unmap (addr len : ℕ)
  | mprotect (addr len prot : ℕ)
  | brk (heap : Heap) (newBreak : Option ℕ)
  | clear
  | writeBytes (addr : ℕ) (bytes : List UInt8)
  | reserveBase (next : ℕ)
  | setBreak (newBreak : ℕ)

def withZero (o : KernelResult Unit × Machine) : KernelResult ℕ × Machine :=
  (o.1.map fun _ => 0, o.2)

/-- The answer and the machine after a call; `none` is a placement search still running. -/
def exec (hal : HalMemory) (c : Call) (M : Machine) : Option (KernelResult ℕ × Machine) :=
  match c with
  | .mapAnonymous heap fuel len prot => mapAnonymous hal heap fuel len prot M
  | .mapAnonymousShared heap fuel len prot => mapAnonymousShared heap fuel len prot M
  | .mapAnonymousAt heap addr len prot => some (mapAnonymousAt hal heap addr len prot M)
  | .mapAnonymousSharedAt heap addr len prot => some (mapAnonymousSharedAt heap addr len prot M)
  | .mapFixedBytes heap addr bytes memLen prot =>
    some (withZero (mapFixedBytes hal heap addr bytes memLen prot M))
  | .mapFixedSharedBytes heap addr bytes memLen prot =>
    some (withZero (mapFixedSharedBytes heap addr bytes memLen prot M))
  | .mapSharedExisting addr data prot => some (mapSharedExisting addr data prot M)
  | .installHostRange addr len prot => some (withZero (installHostRange addr len prot M))
  | .unmap addr len => some (withZero (unmap addr len M))
  | .mprotect addr len prot => some (withZero (mprotect addr len prot M))
  | .brk heap newBreak => some (brk hal heap newBreak M)
  | .clear => some (.ok 0, clear M)
  | .writeBytes addr bytes => some (withZero (writeBytes hal addr bytes M))
  | .reserveBase next => some (.ok 0, setNextBase next M)
  | .setBreak newBreak => some (.ok 0, setBreak newBreak M)

structure World where
  spaces : List AddressSpaceInner
  mem : Memory

def World.machine (W : World) (S : AddressSpaceInner) : Machine := ⟨S, W.mem⟩

inductive Event where
  | newUser
  | clonePrivate (i : ℕ) (heap : Heap)
  | drop (i : ℕ)
  | call (i : ℕ) (c : Call)

def next (hal : HalMemory) (W : World) : Event → Option World
  | .newUser => some { W with spaces := W.spaces ++ [newUser hal] }
  | .clonePrivate i heap =>
    match W.spaces[i]? with
    | none => none
    | some S => some { W with spaces := W.spaces ++ [clonePrivate hal heap S] }
  | .drop i => some { W with spaces := W.spaces.eraseIdx i }
  | .call i c =>
    match W.spaces[i]? with
    | none => none
    | some S =>
      match exec hal c (W.machine S) with
      | none => none
      | some (_, M) => some ⟨W.spaces.set i M.space, M.mem⟩

def Initial (W : World) : Prop := W.spaces = []

inductive Execution (hal : HalMemory) (allowed : World → Event → Prop) : World → World → Prop where
  | refl (W) : Execution hal allowed W W
  | tail {W V U e} : Execution hal allowed W V → allowed V e → next hal V e = some U →
      Execution hal allowed W U

def Reachable (hal : HalMemory) (allowed : World → Event → Prop) (W : World) : Prop :=
  ∃ W₀, Initial W₀ ∧ Execution hal allowed W₀ W

variable {hal : HalMemory} {allowed : World → Event → Prop}

variable {es : List Event} {U W : World} {e : Event}

theorem reachable_initial (h : Initial W) : Reachable hal allowed W :=
  ⟨W, h, .refl W⟩

theorem Reachable.tail (h : Reachable hal allowed W) (ha : allowed W e)
    (hn : next hal W e = some U) : Reachable hal allowed U := by
  obtain ⟨W₀, h₀, hx⟩ := h
  exact ⟨W₀, h₀, .tail hx ha hn⟩

theorem reachable_invariant {P : World → Prop} (hinit : ∀ W, Initial W → P W)
    (hstep : ∀ W U e, P W → allowed W e → next hal W e = some U → P U) (h : Reachable hal allowed W)
    : P W := by
  obtain ⟨W₀, h₀, hx⟩ := h
  induction hx with
  | refl => exact hinit W₀ h₀
  | tail _ ha hn ih => exact hstep _ _ _ ih ha hn

theorem next_cases (h : next hal W e = some U) :
    (e = .newUser ∧ U = { W with spaces := W.spaces ++ [newUser hal] }) ∨
    (∃ i heap S, e = .clonePrivate i heap ∧ W.spaces[i]? = some S ∧
      U = { W with spaces := W.spaces ++ [clonePrivate hal heap S] }) ∨
    (∃ i, e = .drop i ∧ U = { W with spaces := W.spaces.eraseIdx i }) ∨
    (∃ i c S r M, e = .call i c ∧ W.spaces[i]? = some S ∧
      exec hal c (W.machine S) = some (r, M) ∧ U = ⟨W.spaces.set i M.space, M.mem⟩) := by
  cases e with
  | newUser => exact .inl ⟨rfl, (some.inj h).symm⟩
  | clonePrivate i heap =>
    simp only [next] at h
    rcases hS : W.spaces[i]? with _ | S
    · simp [hS] at h
    simp only [hS, some.injEq] at h
    exact .inr (.inl ⟨i, heap, S, rfl, hS, h.symm⟩)
  | drop i => exact .inr (.inr (.inl ⟨i, rfl, (some.inj h).symm⟩))
  | call i c =>
    simp only [next] at h
    rcases hS : W.spaces[i]? with _ | S
    · simp [hS] at h
    simp only [hS] at h
    rcases hx : exec hal c (W.machine S) with _ | o
    · simp [hx] at h
    simp only [hx, some.injEq] at h
    exact .inr (.inr (.inr ⟨i, c, S, o.1, o.2, rfl, hS, hx, h.symm⟩))

theorem reachable_spaces {P : AddressSpaceInner → Prop} (hnew : P (newUser hal))
    (hclone : ∀ heap S, P S → P (clonePrivate hal heap S))
    (hcall : ∀ W i c S r M, allowed W (.call i c) → W.spaces[i]? = some S → P S →
      exec hal c (W.machine S) = some (r, M) → P M.space) (h : Reachable hal allowed W) :
    ∀ S ∈ W.spaces, P S := by
  refine reachable_invariant (P := fun W => ∀ S ∈ W.spaces, P S) ?_ ?_ h
  · intro W h₀ S hS
    rw [h₀] at hS
    cases hS
  · intro W U e hW ha hn S hS
    rcases next_cases hn with ⟨rfl, rfl⟩ | ⟨i, heap, T, rfl, hT, rfl⟩ | ⟨i, rfl, rfl⟩ |
      ⟨i, c, T, r, M, rfl, hT, hx, rfl⟩
    · rcases mem_append.mp hS with hS | hS
      · exact hW S hS
      · rw [mem_singleton.mp hS]; exact hnew
    · rcases mem_append.mp hS with hS | hS
      · exact hW S hS
      · rw [mem_singleton.mp hS]; exact hclone heap T (hW T (mem_of_getElem? hT))
    · exact hW S (mem_of_mem_eraseIdx hS)
    · rcases mem_or_eq_of_mem_set hS with hS | rfl
      · exact hW S hS
      · exact hcall W i c T r M ha hT (hW T (mem_of_getElem? hT)) hx

def run (hal : HalMemory) : World → List Event → Option World
  | W, [] => some W
  | W, e :: es =>
    match next hal W e with
    | none => none
    | some V => run hal V es

def AllAllowed (hal : HalMemory) (allowed : World → Event → Prop) : World → List Event → Prop
  | _, [] => True
  | W, e :: es => allowed W e ∧ ∀ V ∈ next hal W e, AllAllowed hal allowed V es

instance AllAllowed.decidable [h : ∀ W e, Decidable (allowed W e)] :
    ∀ es W, Decidable (AllAllowed hal allowed W es)
  | [], _ => isTrue trivial
  | e :: es, W =>
    have : ∀ V, Decidable (AllAllowed hal allowed V es) := AllAllowed.decidable es
    inferInstanceAs (Decidable (allowed W e ∧ ∀ V ∈ next hal W e, AllAllowed hal allowed V es))

theorem Reachable.run (h : Reachable hal allowed W) (hall : AllAllowed hal allowed W es)
    (hrun : run hal W es = some U) : Reachable hal allowed U := by
  induction es generalizing W with
  | nil => exact some.inj hrun ▸ h
  | cons e es ih =>
    simp only [CallRuns.run] at hrun
    rcases hn : next hal W e with _ | V
    · simp [hn] at hrun
    simp only [hn] at hrun
    exact ih (h.tail hall.1 hn) (hall.2 V hn) hrun

theorem allAllowed_of_forall (hall : ∀ e ∈ es, ∀ V, allowed V e) (W : World) :
    AllAllowed hal allowed W es := by
  induction es generalizing W with
  | nil => trivial
  | cons e es ih =>
    exact ⟨hall e mem_cons_self W, fun V _ => ih (fun e' he' => hall e' (mem_cons_of_mem _ he')) V⟩

/-! A platform, a heap and a start on which runs can be evaluated. -/

def board : HalMemory := riscvVirtMemory 0x80400000

def boardHeap : Heap := ⟨fun _ => true, 0x80300000, fun start => start⟩

def boot : World := ⟨[], fun _ => 0⟩

def firstSpace {α : Type} (f : AddressSpaceInner → α) (es : List Event) : Option α :=
  (run board boot es).bind fun U => U.spaces[0]?.map f

theorem firstSpace_reachable {α : Type} {f : AddressSpaceInner → α} {x : α}
    (hall : ∀ e ∈ es, ∀ V, allowed V e) (h : firstSpace f es = some x) :
    ∃ W S, Reachable board allowed W ∧ S ∈ W.spaces ∧ f S = x := by
  obtain ⟨U, hU, hS⟩ := Option.bind_eq_some_iff.mp h
  obtain ⟨S, hmem, hf⟩ := Option.map_eq_some_iff.mp hS
  have hreach : Reachable board allowed U :=
    (reachable_initial (W := boot) rfl).run (allAllowed_of_forall hall boot) hU
  exact ⟨U, S, hreach, mem_of_getElem? hmem, hf⟩

end CallRuns
