import Whuse.ProcessCalls

/-! `execve`. The path is followed through scripts and shells to an image without touching the
caller; then the caller's image is replaced, and only after that is the new image put in place. -/
namespace ExecCall

open Option
open AddressSpace ElfLoader TrapHandler TaskScheduler ProcessTable ProcessTable.Table ProcessCalls
open TrapReturn (BuiltinProgram ExecImage builtinExecBase signalTrampolineBase builtinEntry)

/-- What the call finds in the file system and among the built-in programs. Reading a file's
text is a function of its bytes. -/
structure ExecFiles where
  cwdImage : String → KernelResult (List UInt8)
  rootImage : String → KernelResult (List UInt8)
  shellAccess : Bool
  absolutePath : String → String
  builtinProgram : String → Option BuiltinProgram
  payload : List UInt8 → Option BuiltinProgram
  shebang : List UInt8 → Option (String × Option String)
  elfInterp : List UInt8 → Option String

structure ExecArgs where
  path : KernelResult String
  argv : KernelResult (List String)
  envp : KernelResult (List String)

structure ExecHeaps where
  clone : Heap
  stack : Heap
  image : Heap
  trampoline : Heap
  program : LoadHeap
  interp : LoadHeap
  loadStack : Heap
  fuel : ℕ
  trampolineCode : List UInt8

def containsText (needle s : String) : Bool := s.toList.tails.any needle.toList.isPrefixOf

def isAsciiWhitespace (b : UInt8) : Bool := [9, 10, 12, 13, 32].contains b

def shellNames : List String := ["/bin/sh", "/bin/bash", "/busybox"]

def shellExecCommand (path : String) (argv : List String) : Option String :=
  match argv with
  | [_, "-c", command] => if path = "/bin/sh" ∨ path = "/bin/bash" then some command else none
  | [_, "sh", "-c", command] =>
    if path = "/musl/busybox" ∨ path = "/busybox" then some command else none
  | _ => none

def textBytes (s : String) : List UInt8 := s.toUTF8.toList

/-- The bytes of `;`, `&`, `|`, `<`, `>`, the round brackets, `$` and the three quotes. -/
def shellSpecials : List UInt8 := [59, 38, 124, 60, 62, 40, 41, 36, 96, 34, 39]

/-- A command that is only the path of a program. -/
def simpleShellCommandPath (command : String) : Option String :=
  let bytes := textBytes command
  if bytes.isEmpty || bytes.any isAsciiWhitespace then none
  else if bytes.any shellSpecials.contains then none
  else some command

/-- Applets of the shell binary that exist as programs of their own. -/
def appletRedirect : String → Option String
  | "wait" => some "/musl/wait"
  | "locale" => some "/musl/locale"
  | "useradd" => some "/musl/useradd"
  | "userdel" => some "/musl/userdel"
  | _ => none

def bodyEmpty (data : List UInt8) : Bool :=
  match data.dropWhile (· != 10) with
  | [] => false
  | _ :: body => body.all isAsciiWhitespace

section Resolve

variable (files : ExecFiles) (heaps : ExecHeaps)

def interpCandidates (path : String) : List String :=
  [path, "/musl/lib/libc.so", "/glibc/lib/ld-linux-loongarch-lp64d.so.1",
    "/lib/ld-linux-riscv64-lp64d.so.1"]

def loadInterp (path : String) : KernelResult (List UInt8) :=
  match (interpCandidates path).findSome? fun candidate => (files.rootImage candidate).toOption with
  | none => .error enoent
  | some image => if image.isEmpty then .error enoexec else .ok image

def loadRequest (display : String) (argv envp : List String) (data : List UInt8)
    (interp : Option (List UInt8)) : LoadRequest where
  programHeap := heaps.program
  interpHeap := heaps.interp
  stackHeap := heaps.loadStack
  fuel := heaps.fuel
  programImage := data
  interpImage := interp
  args := argv.map textBytes
  envs := envp.map textBytes
  execfn := some (textBytes display)

/-- A file that is no script: a built-in program or an ELF image with its interpreter. -/
def finalImage (display path : String) (argv envp : List String) (data : List UInt8) :
    KernelResult ExecImage :=
  match (files.payload data).or (files.builtinProgram path) with
  | some program => .ok (.builtin program)
  | none =>
    match files.elfInterp data with
    | none => .ok (.elf (loadRequest heaps display argv envp data none))
    | some interpPath =>
      (loadInterp files interpPath).map fun image =>
        .elf (loadRequest heaps display argv envp data (some image))

def shebangHopLimit : ℕ := 4

/-- The loop over interpreters; a script with an empty body runs the exit program. -/
def resolveLoop (display : String) (envp : List String) :
    ℕ → ℕ → String → List String → Option (KernelResult ExecImage)
  | 0, _, _, _ => none
  | fuel + 1, hops, path, argv =>
    match files.cwdImage path with
    | .error e => some (.error e)
    | .ok data =>
      if data.isEmpty then some (.error efault)
      else
        match files.shebang data with
        | some (interp, arg) =>
          let isShell := shellNames.contains interp
          if bodyEmpty data && isShell then
            resolveLoop display envp fuel (hops + 1) "/musl/basic/exit" [display]
          else if shebangHopLimit ≤ hops then some (.error enoexec)
          else
            let arg := if isShell then some (arg.getD "sh") else arg
            let interp := if isShell then "/musl/busybox" else interp
            resolveLoop display envp fuel (hops + 1) interp
              (interp :: arg.toList ++ display :: argv.drop 1)
        | none =>
          if ".sh".toList.isSuffixOf path.toList then
            if shebangHopLimit ≤ hops then some (.error enoexec)
            else if files.shellAccess then
              resolveLoop display envp fuel (hops + 1) "/musl/busybox"
                ("/musl/busybox" :: "sh" :: display :: argv.drop 1)
            else some (finalImage files heaps display path argv envp data)
          else some (finalImage files heaps display path argv envp data)

/-- The path, its display form and the arguments after the shortcuts for shell commands and
applets. -/
def rewriteCommand (path : String) (argv : List String) : String × String × List String :=
  let display := files.absolutePath path
  let argv := if argv.isEmpty then [display] else argv
  let (path, display, argv) :=
    match (shellExecCommand path argv).bind simpleShellCommandPath with
    | some command => (command, files.absolutePath command, [files.absolutePath command])
    | none => (path, display, argv)
  match argv with
  | _ :: applet :: rest =>
    if containsText "busybox" path then
      match appletRedirect applet with
      | some target => (target, target, target :: rest)
      | none => (path, display, argv)
    else (path, display, argv)
  | _ => (path, display, argv)

def resolveImage (args : ExecArgs) : Option (KernelResult ExecImage) :=
  match args.path with
  | .error _ => some (.error efault)
  | .ok path =>
    match args.argv with
    | .error e => some (.error e)
    | .ok argv =>
      match args.envp with
      | .error e => some (.error e)
      | .ok envp =>
        let (path, display, argv) := rewriteCommand files path argv
        resolveLoop files heaps display envp heaps.fuel 0 path argv

end Resolve

section Place

variable (hal : HalMemory) (heaps : ExecHeaps)

def mapTrampoline (M : Machine) : Machine :=
  (mapFixedBytes hal heaps.trampoline signalTrampolineBase heaps.trampolineCode 4096 0b101 M).2

def mapImage (program : BuiltinProgram) (M : Machine) : KernelResult Unit × Machine :=
  mapFixedBytes hal heaps.image builtinExecBase program.image program.image.length 0b101 M

def setFrame (entry : UInt64) (sp : Option UInt64) (p : Process) : Process :=
  { p with trapFrame := { p.trapFrame with
      sepc := entry
      regs := match sp with
        | none => p.trapFrame.regs
        | some sp => Function.update p.trapFrame.regs 2 sp } }

/-- The caller with its image replaced. -/
def resetCaller (entry : UInt64) (t : Table) : KernelResult Unit × Table :=
  t.execveCurrentImage hal heaps.clone heaps.stack entry none

/-- A built-in program; the `vfork` parent is not released. -/
def placeBuiltin (program : BuiltinProgram) (k : KernelState) : KernelResult ℕ × KernelState :=
  match resetCaller hal heaps (builtinEntry program) k.table with
  | (.error e, t) => (.error e, { k with table := t })
  | (.ok (), t) =>
    match t.current with
    | .error e => (.error e, { k with table := t })
    | .ok p =>
      match mapImage hal heaps program (t.machine p) with
      | (.error _, M) => (.error efault, { k with table := t.putMachine p M })
      | (.ok (), M) =>
        let t := t.putMachine p (mapTrampoline hal heaps M)
        (.ok 0, { k with table := t.modify t.currentTid (setFrame (builtinEntry program) none) })

def loadImage (req : LoadRequest) (M : Machine) : Except Stop LoadedImage × Machine :=
  (loadElfImages hal req).run.run M

/-- `none` is a load that panics or does not end. -/
def placeElf (req : LoadRequest) (k : KernelState) : Option (KernelResult ℕ × KernelState) :=
  match resetCaller hal heaps 0 k.table with
  | (.error e, t) => some (.error e, { k with table := t })
  | (.ok (), t) =>
    match t.current with
    | .error e => some (.error e, { k with table := t })
    | .ok p =>
      match loadImage hal req (t.machine p) with
      | (.error (.errno e), M) =>
        some (.error (if e = enoexec then enoexec else efault), { k with table := t.putMachine p M })
      | (.error .panic, _) => none
      | (.error .running, _) => none
      | (.ok loaded, M) =>
        let t := t.putMachine p (mapTrampoline hal heaps M)
        let t := t.modify t.currentTid
          (setFrame (UInt64.ofNat loaded.entry) (some (UInt64.ofNat loaded.stackPointer)))
        let (parent, t) := t.releaseVforkParentForTgid p.tgid
        some (.ok 0, wakeVforkParent parent { k with table := t })

def placeImage (image : ExecImage) (k : KernelState) : Option (KernelResult ℕ × KernelState) :=
  match image with
  | .builtin program => some (placeBuiltin hal heaps program k)
  | .elf req => placeElf hal heaps req k

def sysExecve (files : ExecFiles) (args : ExecArgs) (k : KernelState) :
    Option (KernelResult ℕ × KernelState) :=
  match k.table.current with
  | .error e => some (.error e, k)
  | .ok _ =>
    match resolveImage files heaps args with
    | none => none
    | some (.error e) => some (.error e, k)
    | some (.ok image) => placeImage hal heaps image k

variable {hal heaps} {files : ExecFiles} {args : ExecArgs} {k : KernelState}
  {out : KernelResult ℕ × KernelState}

theorem sysExecve_cases (h : sysExecve hal heaps files args k = some out) :
    (∃ e, out = (.error e, k)) ∨ ∃ p image, k.table.current = .ok p ∧
      resolveImage files heaps args = some (.ok image) ∧
      placeImage hal heaps image k = some out := by
  unfold sysExecve at h
  split at h
  · exact .inl ⟨_, (some.inj h).symm⟩
  split at h
  · cases h
  · exact .inl ⟨_, (some.inj h).symm⟩
  · exact .inr ⟨_, _, ‹_›, ‹_›, h⟩

variable (hal heaps) in
/-- What an image leaves; `t` is the table with the caller reset. -/
inductive Placing (k : KernelState) (image : ExecImage) : KernelResult ℕ × KernelState → Prop where
  | reset {e entry t} : (resetCaller hal heaps entry k.table).2 = t →
      Placing k image (.error e, { k with table := t })
  | wrote {e entry t p M} : (resetCaller hal heaps entry k.table).2 = t → t.current = .ok p →
      Placing k image (.error e, { k with table := t.putMachine p M })
  | builtin {program entry t p M} : image = .builtin program →
      (resetCaller hal heaps entry k.table).2 = t → t.current = .ok p → Placing k image (.ok 0,
        { k with table := (t.putMachine p M).modify t.currentTid (setFrame entry none) })
  | elf {entry start sp t p M u parent v} : (resetCaller hal heaps entry k.table).2 = t →
      t.current = .ok p → u = (t.putMachine p M).modify t.currentTid (setFrame start sp) →
      u.releaseVforkParentForTgid p.tgid = (parent, v) →
      Placing k image (.ok 0, wakeVforkParent parent { k with table := v })

theorem placeImage_placing {image : ExecImage} (h : placeImage hal heaps image k = some out) :
    Placing hal heaps k image out := by
  have hwith : ∀ {entry res t}, resetCaller hal heaps entry k.table = (res, t) →
      (resetCaller hal heaps entry k.table).2 = t := fun hreset => by rw [hreset]
  cases image with
  | builtin program =>
    obtain rfl := some.inj h
    unfold placeBuiltin
    split
    · exact .reset (hwith ‹_›)
    split
    · exact .reset (hwith ‹_›)
    split
    · exact .wrote (hwith ‹_›) ‹_›
    · exact .builtin rfl (hwith ‹_›) ‹_›
  | elf req =>
    simp only [placeImage, placeElf] at h
    split at h
    · cases h
      exact .reset (hwith ‹_›)
    split at h
    · cases h
      exact .reset (hwith ‹_›)
    split at h
    · cases h
      exact .wrote (hwith ‹_›) ‹_›
    · cases h
    · cases h
    · cases h
      exact .elf (hwith ‹_›) ‹_› rfl rfl

end Place

end ExecCall
