import Whuse.SignalFrame

/-! Whether the handler of a signal is entered again by its own signal. A dispatch adds the mask of
the action to the mask of the thread; the signal itself is masked only if the action says so. -/
namespace HandlerReentry

open AddressSpace ElfLoader TrapReturn SignalFrame List Option

/-- The signal whose handler a dispatch starts. -/
def startsHandler (hal : HalMemory) (t : SignalTask) : Option ℕ :=
  if (dispatchPendingSignals hal t).1 = .entered then some (trailingZeros (unmaskedSignals t) + 1)
  else none

def Masks (mask : UInt64) (signum : ℕ) : Prop := mask.toBitVec.getLsbD (signum - 1) = true

section Runs

variable (hal : HalMemory) (kernel : Kernel) (lo hi : ℕ) (Mapped : Machine → Prop)

/-- From the start of a handler, which leaves the world `base`, until its return. No handler on the
way changes the mask itself. -/
inductive Handling (base : World) : World → Prop where
  | entered : Handling base base
  | step {w w' : World} : Handling base w → Step hal kernel lo hi Mapped w w' →
      (w'.frames = w.frames → w'.thread.task.signalMask = w.thread.task.signalMask) →
      base.frames <:+ w'.frames → Handling base w'

end Runs

variable {hal : HalMemory} {kernel : Kernel} {lo hi signum : ℕ} {Mapped : Machine → Prop}
  {t : SignalTask} {base w w' : World}

theorem not_masks_of_starts (h : startsHandler hal t = some signum) :
    ¬ Masks t.task.signalMask signum := by
  unfold startsHandler at h
  split at h
  · obtain rfl := some.inj h
    intro hmask
    rw [Masks, Nat.add_sub_cancel] at hmask
    unfold trailingZeros at hmask
    cases hfind : (List.range 64).find? fun i => (unmaskedSignals t).toNat.testBit i with
    | none =>
      rw [hfind] at hmask
      simp at hmask
    | some i =>
      rw [hfind, Option.getD_some] at hmask
      have hbit : (unmaskedSignals t).toBitVec.getLsbD i = true := find?_some hfind
      simp [unmaskedSignals, hmask] at hbit
  · cases h

theorem entered_of_starts (h : startsHandler hal t = some signum) :
    ∃ M, dispatchPendingSignals hal t = (.entered, { consumeSignal signum t with
      task := enterHandler signum (t.signalActions signum) M t.task }) := by
  unfold startsHandler at h
  split at h
  · next hent =>
    rcases dispatch_cases hal t with ⟨n, M, hn, -, hdispatch⟩ | ⟨hne, -⟩
    · obtain rfl := hn.trans (some.inj h)
      exact ⟨M, hdispatch⟩
    · exact absurd hent hne
  · cases h

theorem masks_or {x y : UInt64} (h : Masks x signum ∨ Masks y signum) : Masks (x ||| y) signum := by
  rw [Masks, UInt64.toBitVec_or, BitVec.getLsbD_or, Bool.or_eq_true]
  exact h

section Invariant

variable (hmem : StackMemory hal kernel.frameHeap lo hi Mapped)
  (hbase : Reachable hal kernel lo hi Mapped base)
  (hreach : Reachable hal kernel lo hi Mapped w) (hstep : Step hal kernel lo hi Mapped w w')

include hbase in
theorem Handling.reachable (h : Handling hal kernel lo hi Mapped base w) :
    Reachable hal kernel lo hi Mapped w := by
  induction h with
  | entered => exact hbase
  | step _ hstep _ _ ih => exact ih.step hstep

/-- The thread masks the signal, and so does every context that a handler has interrupted since. -/
def Masked (signum : ℕ) (base w : World) : Prop :=
  Masks w.thread.task.signalMask signum ∧
    ∃ upper, w.frames = upper ++ base.frames ∧ ∀ f ∈ upper, Masks f.context.signalMask signum

include hmem

section Step

include hreach hstep

/-- A step leaves the frames, starts a handler, or ends the innermost one and brings back the mask
it had interrupted. -/
theorem step_cases : w'.frames = w.frames ∨
    (∃ base n, w'.frames = ⟨w.thread.task, base⟩ :: w.frames ∧
      w'.thread.task.signalMask = w.thread.task.signalMask ||| (w.thread.signalActions n).mask) ∨
    ∃ f, w.frames = f :: w'.frames ∧ w'.thread.task.signalMask = f.context.signalMask := by
  cases hstep with
  | run thread _ _ => exact .inl rfl
  | dispatch hroom =>
    rcases dispatch_cases hal w.thread with ⟨n, M, -, -, hent⟩ | ⟨hne, -⟩
    · rw [afterDispatch_entered hent]
      exact .inr (.inl ⟨_, n, rfl, rfl⟩)
    · rw [afterDispatch_other hne]
      exact .inl rfl
  | sigreturn hpop hsp hcall htrap =>
    obtain ⟨after', htrap', hresumes, -⟩ := (reachable_sound hmem hreach).sigreturn hpop hsp hcall
    cases htrap.symm.trans htrap'
    exact .inr (.inr ⟨_, hpop, hresumes.mask⟩)

theorem Masked.step (h : Masked signum base w)
    (hkeeps : w'.frames = w.frames → w'.thread.task.signalMask = w.thread.task.signalMask)
    (hinside : base.frames <:+ w'.frames) : Masked signum base w' := by
  obtain ⟨hmask, upper, hframes, hupper⟩ := h
  rcases step_cases hmem hreach hstep with hsame | ⟨_, n, hpush, hafter⟩ | ⟨f, hpop, hafter⟩
  · rw [Masked, hkeeps hsame, hsame]
    exact ⟨hmask, upper, hframes, hupper⟩
  · refine ⟨hafter ▸ masks_or (.inl hmask), _ :: upper, hpush.trans (congrArg _ hframes), ?_⟩
    exact forall_mem_cons.mpr ⟨hmask, hupper⟩
  cases upper with
  | nil =>
    -- the handler itself would return
    have hlen := hinside.length_le
    rw [nil_append, hpop] at hframes
    rw [← hframes, length_cons] at hlen
    omega
  | cons g upper =>
    rw [hpop, cons_append, List.cons.injEq] at hframes
    obtain ⟨rfl, hrest⟩ := hframes
    obtain ⟨hf, hupper⟩ := forall_mem_cons.mp hupper
    exact ⟨hafter ▸ hf, upper, hrest, hupper⟩

end Step

include hbase in
theorem Handling.masked (hmask : Masks base.thread.task.signalMask signum)
    (h : Handling hal kernel lo hi Mapped base w) : Masked signum base w := by
  induction h with
  | entered => exact ⟨hmask, [], rfl, nofun⟩
  | step hbefore hstep hkeeps hinside ih =>
    exact ih.step hmem (hbefore.reachable hbase) hstep hkeeps hinside

end Invariant

/-- While the handler of a signal runs whose action masks it, no dispatch starts the handler again;
and its return brings back the mask from before. -/
theorem handler_not_reentered (hmem : StackMemory hal kernel.frameHeap lo hi Mapped)
    {before : World} (hbefore : Reachable hal kernel lo hi Mapped before)
    (hroom : Room lo hi before) (hstarts : startsHandler hal before.thread = some signum)
    (hmask : Masks (before.thread.signalActions signum).mask signum)
    (h : Handling hal kernel lo hi Mapped (afterDispatch hal before) w) :
    startsHandler hal w.thread ≠ some signum ∧
      ∀ w', Step hal kernel lo hi Mapped w w' → w'.frames = before.frames →
        w'.thread.task.signalMask = before.thread.task.signalMask := by
  have hbase := hbefore.step (.dispatch hroom)
  obtain ⟨M, hent⟩ := entered_of_starts hstarts
  rw [afterDispatch_entered hent] at h hbase
  obtain ⟨hnow, upper, hframes, -⟩ := h.masked hmem hbase (masks_or (.inr hmask))
  refine ⟨fun hagain => not_masks_of_starts hagain hnow, fun w' hstep hback => ?_⟩
  have hlen := congrArg List.length hframes
  rw [length_append, length_cons] at hlen
  rcases step_cases hmem (h.reachable hbase) hstep with hsame | ⟨_, n, hpush, -⟩ | ⟨f, hpop, hmask'⟩
  · rw [← hsame, hback] at hlen
    omega
  · rw [hback] at hpush
    rw [hpush, length_cons] at hlen
    omega
  · -- the frame that goes is the one that the dispatch made
    rw [hpop] at hframes
    rw [hpop, hback, length_cons] at hlen
    obtain rfl := length_eq_zero_iff.mp (show upper.length = 0 by omega)
    rw [hmask', (List.cons.inj hframes).1]

def board : HalMemory := riscvVirtMemory 0x80400000

abbrev OnStack : Machine → Prop := OwnStack stackSegment 0x7ff7f000 0x7ffff000

def caught (mask : UInt64) : SignalTask :=
  { interrupted with signalActions := fun _ => ⟨0x5000, 0, mask⟩ }

def again (mask : UInt64) : World :=
  let w := afterDispatch board ⟨caught mask, []⟩
  ⟨{ w.thread with pendingSignals := 0x200 }, w.frames⟩

theorem starts_ten (sp : UInt64) (hstack : OnStack t.task.machine) (hsp : t.task.frame.regs 2 = sp)
    (hplace : 0x7ff7f000 ≤ (frameSp sp).toNat ∧ (frameSp sp).toNat + frameSize ≤ 0x7ffff000)
    (hunmasked : unmaskedSignals t = 0x200) (hhandler : (t.signalActions 10).handler = 0x5000) :
    startsHandler board t = some 10 := by
  obtain ⟨M, hent⟩ := enters_ten sp hstack hsp hplace hunmasked hhandler
  refine (if_pos (congrArg Prod.fst hent)).trans ?_
  rw [hunmasked]
  rfl

theorem room (mask : UInt64) : Room 0x7ff7f000 0x7ffff000 ⟨caught mask, []⟩ :=
  ⟨show 832 ≤ (0x7fffeff0 : UInt64).toNat by decide,
    show (0x7fffeff0 : UInt64).toNat ≤ 0x7ffff000 by decide,
    show 0x7ff7f000 ≤ (frameSp 0x7fffeff0).toNat by decide, nofun⟩

theorem again_handling (mask : UInt64) :
    startsHandler board (caught mask) = some 10 ∧ OnStack (again mask).thread.task.machine ∧
    Handling board plainKernel 0x7ff7f000 0x7ffff000 OnStack (afterDispatch board ⟨caught mask, []⟩)
      (again mask) := by
  have hstart : Reachable board plainKernel 0x7ff7f000 0x7ffff000 OnStack ⟨caught mask, []⟩ :=
    .start _ stackMachine_ownStack
  have hstack := (reachable_sound (ownStack_memory fun _ => rfl)
    (hstart.step (.dispatch (room mask)))).mapped
  exact ⟨starts_ten 0x7fffeff0 stackMachine_ownStack rfl (by decide)
      (show 0x200 &&& ~~~ (0 : UInt64) = 0x200 by decide) rfl,
    hstack, .step .entered (.run _ hstack fun _ _ => rfl) (fun _ => rfl) (suffix_refl _)⟩

theorem handler_not_reentered_ten : startsHandler board (again 0x200).thread ≠ some 10 := by
  obtain ⟨hstarts, -, hhandling⟩ := again_handling 0x200
  exact (handler_not_reentered (ownStack_memory fun _ => rfl) (.start _ stackMachine_ownStack)
    (room _) hstarts (show BitVec.getLsbD 0x200 9 = true by decide) hhandling).1

/-- The action masks nothing: sent again, the signal enters the handler again. -/
theorem handler_reentered : startsHandler board (caught 0) = some 10 ∧
    Handling board plainKernel 0x7ff7f000 0x7ffff000 OnStack (afterDispatch board ⟨caught 0, []⟩)
      (again 0) ∧
    startsHandler board (again 0).thread = some 10 := by
  obtain ⟨hstarts, hstack, hhandling⟩ := again_handling 0
  refine ⟨hstarts, hhandling, ?_⟩
  obtain ⟨M, hent⟩ := entered_of_starts (t := World.thread ⟨caught 0, []⟩) hstarts
  rw [again, afterDispatch_entered hent] at hstack ⊢
  refine starts_ten (frameSp 0x7fffeff0) hstack ?_ (by decide)
    (show 0x200 &&& ~~~ ((0 : UInt64) ||| 0) = 0x200 by decide) rfl
  rfl

end HandlerReentry
