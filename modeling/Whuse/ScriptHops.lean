import Whuse.ExecFailure

/-! How long `execve` follows scripts. Two of the three ways round the loop look at the number of
hops; the one for scripts without a body does not, but it always leads to the same program. -/
namespace ScriptHops

open AddressSpace TrapReturn ExecCall

def exitProgram : String := "/musl/basic/exit"

/-- A shell script with nothing but blanks after its first line. -/
def EmptyScript (files : ExecFiles) (path : String) : Prop :=
  ∃ data interp arg, files.cwdImage path = .ok data ∧ data.isEmpty = false ∧
    files.shebang data = some (interp, arg) ∧ bodyEmpty data = true ∧
    shellNames.contains interp = true

def resolveWithin (files : ExecFiles) (heaps : ExecHeaps) (turns : ℕ) (args : ExecArgs) :
    Option (KernelResult ExecImage) :=
  resolveImage files { heaps with fuel := turns } args

section Loop

variable {files : ExecFiles} {heaps : ExecHeaps} {display : String} {envp : List String}

theorem resolveLoop_answers (hexit : ¬ EmptyScript files exitProgram) {turns : ℕ} :
    ∀ {hops : ℕ} {path : String} {argv : List String}, 6 ≤ hops + turns → 0 < turns →
      (hops ≤ 4 ∨ ¬ EmptyScript files path) →
      (resolveLoop files heaps display envp turns hops path argv).isSome := by
  induction turns with
  | zero =>
    intro hops path argv _ hpos
    exact absurd hpos (Nat.lt_irrefl 0)
  | succ turns ih =>
    intro hops path argv hturns _ hfew
    rw [resolveLoop]
    rcases hdata : files.cwdImage path with e | data
    · rfl
    dsimp only
    by_cases hempty : data.isEmpty = true
    · rw [if_pos hempty]
      rfl
    rw [if_neg hempty]
    have hcounted : ∀ {path : String} {argv : List String}, ¬ shebangHopLimit ≤ hops →
        (resolveLoop files heaps display envp turns (hops + 1) path argv).isSome := by
      intro path argv hlimit
      have hless : hops < 4 := Nat.lt_of_not_le hlimit
      exact ih (by omega) (by omega) (.inl hless)
    cases hshebang : files.shebang data with
    | some line =>
      obtain ⟨interp, arg⟩ := line
      dsimp only
      by_cases hbody : (bodyEmpty data && shellNames.contains interp) = true
      · rw [if_pos hbody]
        obtain ⟨hblank, hshell⟩ := (Bool.and_eq_true _ _).mp hbody
        have hscript : EmptyScript files path :=
          ⟨data, interp, arg, hdata, Bool.eq_false_iff.mpr hempty, hshebang, hblank, hshell⟩
        have hfour : hops ≤ 4 := hfew.resolve_right (not_not_intro hscript)
        exact ih (by omega) (by omega) (.inr hexit)
      · rw [if_neg hbody]
        split
        · rfl
        · next hlimit => exact hcounted hlimit
    | none =>
      dsimp only
      split
      · split
        · rfl
        · next hlimit =>
          split
          · exact hcounted hlimit
          · rfl
      · rfl

theorem resolveLoop_runs_on (hexit : EmptyScript files exitProgram) (turns : ℕ) :
    ∀ {hops : ℕ} {argv : List String},
      resolveLoop files heaps display envp turns hops exitProgram argv = none := by
  obtain ⟨data, interp, arg, hdata, hempty, hshebang, hblank, hshell⟩ := hexit
  induction turns with
  | zero =>
    intro hops argv
    rfl
  | succ turns ih =>
    intro hops argv
    rw [resolveLoop, hdata]
    dsimp only
    rw [if_neg (Bool.eq_false_iff.mp hempty), hshebang]
    dsimp only
    rw [if_pos ((Bool.and_eq_true _ _).mpr ⟨hblank, hshell⟩)]
    exact ih

end Loop

variable (files : ExecFiles) (heaps : ExecHeaps)

theorem resolveWithin_six (hexit : ¬ EmptyScript files exitProgram) (args : ExecArgs) :
    (resolveWithin files heaps 6 args).isSome := by
  rw [resolveWithin, resolveImage]
  rcases args.path with e | path
  · rfl
  rcases args.argv with e | argv
  · rfl
  cases args.envp with
  | error e => rfl
  | ok envp => exact resolveLoop_answers hexit le_rfl (Nat.succ_pos 5) (.inl (Nat.zero_le 4))

theorem resolveWithin_exit (hexit : EmptyScript files exitProgram) (turns : ℕ) :
    resolveWithin files heaps turns ⟨.ok exitProgram, .ok [], .ok []⟩ = none :=
  resolveLoop_runs_on hexit turns

/-- **Main theorem**: some number of turns is enough for every call, and then six are, exactly if
the program that stands for scripts without a body is not such a script itself. -/
theorem execve_turns_bounded_iff :
    ((∃ turns, ∀ args, (resolveWithin files heaps turns args).isSome) ↔
      ¬ EmptyScript files exitProgram) ∧
    (¬ EmptyScript files exitProgram → ∀ args, (resolveWithin files heaps 6 args).isSome) := by
  refine ⟨⟨?_, ?_⟩, resolveWithin_six files heaps⟩
  · rintro ⟨turns, hall⟩ hexit
    have hsome := hall ⟨.ok exitProgram, .ok [], .ok []⟩
    rw [resolveWithin_exit files heaps hexit] at hsome
    cases hsome
  · intro hexit
    exact ⟨6, resolveWithin_six files heaps hexit⟩

def blankScripts : ExecFiles :=
  { ExecFailure.badFiles with
    cwdImage := fun _ => .ok (textBytes "#!/bin/sh\n")
    shebang := fun _ => some ("/bin/sh", none) }

/-- The loop goes round for ever, from the exit program to the exit program. -/
theorem blank_exit_program_runs_on :
    ¬ ∃ turns out, resolveWithin blankScripts ExecFailure.badHeaps turns
      ⟨.ok exitProgram, .ok [], .ok []⟩ = some out := by
  have hscript : EmptyScript blankScripts exitProgram :=
    ⟨textBytes "#!/bin/sh\n", "/bin/sh", none, rfl, by decide +kernel, rfl, by decide +kernel,
      by decide +kernel⟩
  rintro ⟨turns, out, hout⟩
  rw [resolveWithin_exit blankScripts ExecFailure.badHeaps hscript turns] at hout
  cases hout

end ScriptHops
