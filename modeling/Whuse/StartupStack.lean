import Whuse.RecordLocks

/-! # The initial stack as a program reads it

The words stand at the bottom of the image, the strings end at its top, and what the alignment
adds lies between them.
-/
namespace StartupStack

open MachineWord AddressSpace ByteFields ElfLoader List

def readWords : List UInt8 → List ℕ
  | a :: b :: c :: d :: e :: f :: g :: h :: rest =>
    fromLeBytes [a, b, c, d, e, f, g, h] :: readWords rest
  | _ => []

/-- The pairs up to the one whose key is `AT_NULL`. -/
def readPairs : List ℕ → List (ℕ × ℕ)
  | key :: value :: rest => if key = 0 then [] else (key, value) :: readPairs rest
  | _ => []

structure Startup where
  argc : ℕ
  argv : List ℕ
  envp : List ℕ
  auxv : List (ℕ × ℕ)

/-- The words are counted up to the end of `argv` and read up to a null word from there on. -/
def readStartup (image : List UInt8) : Option Startup :=
  match readWords image with
  | [] => none
  | argc :: words =>
    match words.drop argc with
    | 0 :: rest => some ⟨argc, words.take argc, rest.takeWhile (· != 0),
        readPairs (rest.dropWhile (· != 0)).tail⟩
    | _ => none

section Image

variable (top : ℕ) (image : List UInt8)

def bytesFrom (p : ℕ) : Option (List UInt8) :=
  if top ≤ p + image.length ∧ p ≤ top then some (image.drop (p + image.length - top)) else none

def bytesAt (p len : ℕ) : Option (List UInt8) :=
  (bytesFrom top image p).bind fun bytes => if len ≤ bytes.length then some (bytes.take len) else none

def stringAt (p : ℕ) : Option (List UInt8) :=
  (bytesFrom top image p).bind fun bytes =>
    if 0 ∈ bytes then some (bytes.takeWhile (· != 0)) else none

end Image

section Sizes

variable (args envs : List (List UInt8)) (auxv : List (ℕ × ℕ)) (execfn : Option (List UInt8))

def totalStringsLen : ℕ :=
  ((args ++ envs).map fun entry => entry.length + 1).sum +
    (execfn.map fun value => value.length + 1).getD 0 + auxRandomBytes.length

def pointerCount : ℕ :=
  1 + args.length + 1 + envs.length + 1 + (auxv.length + execfn.toList.length + 1 + 1) * 2

end Sizes

theorem readWords_append {ws : List ℕ} (h : ∀ w ∈ ws, w ≤ usizeMax) (rest : List UInt8) :
    readWords (ws.flatMap toLeBytes ++ rest) = ws ++ readWords rest := by
  induction ws with
  | nil => rfl
  | cons w ws ih =>
    have hw : fromLeBytes (leBytes 8 w) = w := by
      apply RecordLocks.fromLeBytes_leBytes
      have hle := h w mem_cons_self
      unfold usizeMax at hle
      omega
    rw [cons_append, ← ih fun x hx => h x (mem_cons_of_mem w hx)]
    exact congrArg (· :: _) hw

theorem readPairs_append {pairs : List (ℕ × ℕ)} (h : ∀ kv ∈ pairs, kv.1 ≠ 0) (rest : List ℕ) :
    readPairs (pairs.flatMap (fun (key, value) => [key, value]) ++ 0 :: 0 :: rest) = pairs := by
  induction pairs with
  | nil => rfl
  | cons kv pairs ih =>
    simp [readPairs, if_neg (h kv mem_cons_self), ih fun x hx => h x (mem_cons_of_mem kv hx)]

def startWords (argv envp : List ℕ) (pairs : List (ℕ × ℕ)) : List ℕ :=
  argv.length :: (argv ++ 0 :: (envp ++ 0 ::
    (pairs.flatMap (fun (key, value) => [key, value]) ++ [0, 0])))

theorem length_startWords (argv envp : List ℕ) (pairs : List (ℕ × ℕ)) :
    (startWords argv envp pairs).length = argv.length + envp.length + 2 * pairs.length + 5 := by
  have hpairs : (pairs.flatMap fun (key, value) => [key, value]).length = 2 * pairs.length := by
    simp [Nat.mul_comm]
  simp only [startWords, length_cons, length_append, hpairs, length_nil]
  omega

/-- Words of this shape are read as they were meant. -/
theorem readStartup_eq {image : List UInt8} {argv envp : List ℕ} {pairs : List (ℕ × ℕ)}
    {rest : List ℕ} (hread : readWords image = startWords argv envp pairs ++ rest)
    (henvp : ∀ p ∈ envp, p ≠ 0) (hpairs : ∀ kv ∈ pairs, kv.1 ≠ 0) :
    readStartup image = some ⟨argv.length, argv, envp, pairs⟩ := by
  have hall : ∀ p ∈ envp, (p != 0) = true := fun p hp => bne_iff_ne.mpr (henvp p hp)
  simp only [startWords, cons_append, append_assoc] at hread
  simp only [readStartup, hread, drop_left, takeWhile_append_of_pos hall,
    dropWhile_append_of_pos hall]
  simp [readPairs_append hpairs]

/-- A pointer into an image that ends at `top` leads to some bytes. -/
structure Leads (top : ℕ) (image : List UInt8) (p : ℕ) (blob : List UInt8) : Prop where
  pos : 0 < p
  bytes : ∃ rest, blob ++ rest <:+ image ∧ p + (blob ++ rest).length = top

variable {top total : ℕ} {image blob entry : List UInt8} {p : ℕ} {ptrs : List ℕ}

/-- Pointers are counted from the top, so what is put below changes nothing. -/
theorem Leads.below (h : Leads top image p blob) (front : List UInt8) :
    Leads top (front ++ image) p blob := by
  obtain ⟨rest, hsuffix, hlen⟩ := h.bytes
  exact ⟨h.pos, rest, hsuffix.trans (suffix_append _ _), hlen⟩

theorem Leads.bytesFrom (h : Leads top image p blob) :
    p ≤ top ∧ ∃ rest, bytesFrom top image p = some (blob ++ rest) := by
  obtain ⟨rest, ⟨front, rfl⟩, hlen⟩ := h.bytes
  have hall : (front ++ (blob ++ rest)).length = front.length + (blob ++ rest).length :=
    length_append
  have hat : p + (front ++ (blob ++ rest)).length - top = front.length := by omega
  refine ⟨by omega, rest, ?_⟩
  rw [StartupStack.bytesFrom, if_pos (by omega), hat, drop_left]

theorem pushBlobs_spec (htop : top ≤ usizeMax) (blobs : List (List UInt8)) (strings : List UInt8)
    (hsize : (blobs.map List.length).sum + strings.length < top) :
    ∃ ptrs front, pushBlobs top blobs strings = (ptrs, front ++ strings) ∧
      front.length = (blobs.map List.length).sum ∧
      List.Forall₂ (Leads top (front ++ strings)) ptrs blobs := by
  induction blobs generalizing strings with
  | nil => exact ⟨[], [], rfl, rfl, .nil⟩
  | cons blob blobs ih =>
    simp only [map_cons, sum_cons] at hsize ⊢
    have hlen : (blob ++ strings).length = blob.length + strings.length := length_append
    obtain ⟨ptrs, front, hpush, hfront, hleads⟩ := ih (blob ++ strings) (by omega)
    have hsub := wrappingSub_of_le htop (b := (blob ++ strings).length) (by omega)
    have hfirst : Leads top (blob ++ strings) (top - (blob ++ strings).length) blob :=
      ⟨by omega, strings, suffix_rfl, by omega⟩
    refine ⟨_ :: ptrs, front ++ blob, ?_, ?_, .cons (append_assoc .. ▸ hfirst.below front) ?_⟩
    · rw [pushBlobs, hpush, hsub, append_assoc]
    · rw [length_append, hfront, Nat.add_comm]
    · rw [append_assoc]
      exact hleads

theorem stringAt_of_leads (h : Leads top image p (terminated entry)) (hentry : 0 ∉ entry) :
    stringAt top image p = some entry := by
  obtain ⟨-, rest, hrest⟩ := h.bytesFrom
  have hall : ∀ b ∈ entry, (b != 0) = true :=
    fun b hb => bne_iff_ne.mpr fun hzero => hentry (hzero ▸ hb)
  simp [stringAt, hrest, terminated, takeWhile_append_of_pos hall]

theorem strings_of_leads {entries : List (List UInt8)}
    (h : List.Forall₂ (Leads top image) ptrs (entries.map terminated))
    (hentries : ∀ entry ∈ entries, 0 ∉ entry) :
    ptrs.map (stringAt top image) = entries.map some := by
  induction entries generalizing ptrs with
  | nil =>
    cases h
    rfl
  | cons entry entries ih =>
    cases h with
    | cons hp hrest =>
      rw [map_cons, map_cons, stringAt_of_leads hp (hentries entry mem_cons_self),
        ih hrest fun e he => hentries e (mem_cons_of_mem entry he)]

theorem bounds_of_leads {blobs : List (List UInt8)} (htop : top ≤ usizeMax)
    (h : List.Forall₂ (Leads top image) ptrs blobs) : ∀ p ∈ ptrs, p ≠ 0 ∧ p ≤ usizeMax := by
  induction h with
  | nil => exact nofun
  | cons hp _ ih =>
    intro p hmem
    rcases mem_cons.mp hmem with rfl | hmem
    · exact ⟨hp.pos.ne', hp.bytesFrom.1.trans htop⟩
    · exact ih p hmem

/-- What the start-up code of a program finds. -/
structure Decodes (args envs : List (List UInt8)) (top : ℕ) (auxv : List (ℕ × ℕ))
    (execfn : Option (List UInt8)) (image : List UInt8) : Prop where
  aligned : 16 ∣ image.length
  fits : image.length ≤ userStackSize
  startup : ∃ s random, ∃ file : List ℕ, readStartup image = some s ∧ s.argc = args.length ∧
    s.argv.map (stringAt top image) = args.map some ∧
    s.envp.map (stringAt top image) = envs.map some ∧
    s.auxv = auxv ++ (atRandom, random) :: file.map (fun p => (atExecfn, p)) ∧
    bytesAt top image random 16 = some auxRandomBytes ∧
    file.map (stringAt top image) = execfn.toList.map some

theorem sum_terminated (entries : List (List UInt8)) :
    ((entries.map terminated).map List.length).sum =
      (entries.map fun entry => entry.length + 1).sum := by
  rw [List.map_map]
  congr 1
  exact map_congr_left fun entry _ => length_append

theorem length_words (ws : List ℕ) : (ws.flatMap toLeBytes).length = 8 * ws.length := by
  simp [toLeBytes, Nat.mul_comm]

theorem alignUp_stack (h : total ≤ userStackSize) :
    total ≤ alignUp total 16 ∧ alignUp total 16 ≤ userStackSize ∧ 16 ∣ alignUp total 16 := by
  unfold userStackSize at h ⊢
  have hup : alignUp total (2 ^ 4) = _ := alignUp_two_pow (by decide) (by unfold usizeMax; omega)
  have h16 : (2 : ℕ) ^ 4 = 16 := rfl
  rw [h16] at hup
  rw [hup]
  exact ⟨by omega, by omega, Dvd.intro_left _ rfl⟩

/-- The four runs of pushes put all strings into one area. -/
theorem buildInitialStack_eq {args envs : List (List UInt8)} {execfn : Option (List UInt8)}
    (htop : top ≤ usizeMax) (hsize : totalStringsLen args envs execfn < top)
    (auxv : List (ℕ × ℕ)) : ∃ argv envp random file strings,
      strings.length = totalStringsLen args envs execfn ∧
      List.Forall₂ (Leads top strings) argv (args.map terminated) ∧
      List.Forall₂ (Leads top strings) envp (envs.map terminated) ∧
      Leads top strings random auxRandomBytes ∧
      List.Forall₂ (Leads top strings) file (execfn.toList.map terminated) ∧
      buildInitialStack args envs top auxv execfn =
        (let pairs := auxv ++ (atRandom, random) :: file.map fun p => (atExecfn, p)
        let head := (startWords argv envp pairs).flatMap toLeBytes
        let total := head.length + strings.length
        if userStackSize < total then .error enomem
        else .ok (head ++ List.replicate (alignUp total 16 - total) 0 ++ strings)) := by
  have hsum : totalStringsLen args envs execfn = ((args.map terminated).map List.length).sum +
      ((envs.map terminated).map List.length).sum +
      ((execfn.toList.map terminated).map List.length).sum + 16 := by
    simp only [sum_terminated, totalStringsLen, map_append, sum_append]
    cases execfn <;> rfl
  obtain ⟨argv, f₁, h₁, hlen₁, hargv⟩ := pushBlobs_spec htop (args.map terminated) [] (by
    rw [length_nil]; omega)
  rw [append_nil] at h₁ hargv
  obtain ⟨envp, f₂, h₂, hlen₂, henvp⟩ := pushBlobs_spec htop (envs.map terminated) f₁ (by omega)
  have hs₂ : (f₂ ++ f₁).length = f₂.length + f₁.length := length_append
  obtain ⟨file, f₃, h₃, hlen₃, hfile⟩ := pushBlobs_spec htop (execfn.toList.map terminated)
    (f₂ ++ f₁) (by omega)
  have hs₃ : (f₃ ++ (f₂ ++ f₁)).length = f₃.length + (f₂ ++ f₁).length := length_append
  have hlen : [auxRandomBytes.length].sum = 16 := rfl
  obtain ⟨random, f₄, h₄, hlen₄, hrandom⟩ := pushBlobs_spec htop [auxRandomBytes]
    (f₃ ++ (f₂ ++ f₁)) (by rw [map_singleton]; omega)
  obtain ⟨p, rfl⟩ : ∃ p, random = [p] := length_eq_one_iff.mp hrandom.length_eq
  refine ⟨argv, envp, p, file, f₄ ++ (f₃ ++ (f₂ ++ f₁)), ?_, ?_, ?_, ?_, ?_, ?_⟩
  · rw [map_singleton] at hlen₄
    rw [length_append]
    omega
  · exact hargv.imp fun _ _ h => ((h.below f₂).below f₃).below f₄
  · exact henvp.imp fun _ _ h => (h.below f₃).below f₄
  · exact (forall₂_cons.mp hrandom).1
  · exact hfile.imp fun _ _ h => h.below f₄
  · have hargc : argv.length = args.length := by rw [hargv.length_eq, length_map]
    simp only [buildInitialStack, h₁, h₂, h₃, h₄]
    simp [startWords, hargc, flatMap_map]

theorem initial_stack_decodes {args envs : List (List UInt8)} {execfn : Option (List UInt8)}
    {auxv : List (ℕ × ℕ)} (htop : top ≤ usizeMax) (hargs : ∀ entry ∈ args, 0 ∉ entry)
    (henvs : ∀ entry ∈ envs, 0 ∉ entry) (hexecfn : ∀ entry ∈ execfn, 0 ∉ entry)
    (hauxv : ∀ kv ∈ auxv, kv.1 ≠ 0 ∧ kv.1 ≤ usizeMax ∧ kv.2 ≤ usizeMax)
    (hsize : totalStringsLen args envs execfn < top) :
    (∀ image, buildInitialStack args envs top auxv execfn = .ok image →
      Decodes args envs top auxv execfn image) ∧
    ∀ e, buildInitialStack args envs top auxv execfn = .error e → e = enomem ∧
      userStackSize < 8 * pointerCount args envs auxv execfn + totalStringsLen args envs execfn := by
  obtain ⟨argv, envp, random, file, strings, hlen, hargv, henvp, hrandom, hfile, hbuild⟩ :=
    buildInitialStack_eq htop hsize auxv
  have hargc : argv.length = args.length := by rw [hargv.length_eq, length_map]
  rw [hbuild]
  simp only
  generalize hpairs : auxv ++ (atRandom, random) :: file.map (fun p => (atExecfn, p)) = pairs
  have hkeys : ∀ kv ∈ pairs, kv.1 ≠ 0 ∧ kv.1 ≤ usizeMax ∧ kv.2 ≤ usizeMax := by
    simp only [← hpairs, forall_mem_append, forall_mem_cons, List.forall_mem_map]
    exact ⟨hauxv, ⟨nofun, (by decide : atRandom ≤ usizeMax), hrandom.bytesFrom.1.trans htop⟩,
      fun p hp => ⟨nofun, (by decide : atExecfn ≤ usizeMax), (bounds_of_leads htop hfile p hp).2⟩⟩
  have hcount : (startWords argv envp pairs).length = pointerCount args envs auxv execfn := by
    rw [length_startWords, ← hpairs, hargc, henvp.length_eq]
    simp only [pointerCount, length_append, length_cons, length_map, hfile.length_eq]
    omega
  rw [length_words, hlen, hcount]
  split
  · next hbig => exact ⟨nofun, fun e he => ⟨(Except.error.inj he).symm, hbig⟩⟩
  next hfit =>
  refine ⟨fun image himage => ?_, nofun⟩
  obtain ⟨hle, hmax, hdvd⟩ := alignUp_stack (not_lt.mp hfit)
  have hbound : ∀ w ∈ startWords argv envp pairs, w ≤ usizeMax := by
    have hfew : argv.length ≤ usizeMax := by
      unfold pointerCount userStackSize at hfit
      unfold usizeMax
      omega
    simp only [startWords, forall_mem_cons, forall_mem_append, forall_mem_flatMap]
    exact ⟨hfew, fun p hp => (bounds_of_leads htop hargv p hp).2, Nat.zero_le _,
      fun p hp => (bounds_of_leads htop henvp p hp).2, Nat.zero_le _,
      fun kv hkv => ⟨(hkeys kv hkv).2.1, (hkeys kv hkv).2.2, nofun⟩, by simp⟩
  obtain rfl := Except.ok.inj himage
  generalize hgap : List.replicate _ (0 : UInt8) = gap
  have hlength : ((startWords argv envp pairs).flatMap toLeBytes ++ gap ++ strings).length =
      alignUp (8 * pointerCount args envs auxv execfn + totalStringsLen args envs execfn) 16 := by
    simp only [length_append, ← hgap, length_replicate, length_words, hcount, hlen]
    omega
  have hread := readWords_append hbound (gap ++ strings)
  rw [← append_assoc] at hread
  obtain ⟨-, rest, hrest⟩ :=
    (hrandom.below ((startWords argv envp pairs).flatMap toLeBytes ++ gap)).bytesFrom
  refine ⟨hlength ▸ hdvd, hlength ▸ hmax, _, random, file, readStartup_eq hread
    (fun p hp => (bounds_of_leads htop henvp p hp).1) (fun kv hkv => (hkeys kv hkv).1), hargc,
    strings_of_leads (hargv.imp fun _ _ h => h.below _) hargs,
    strings_of_leads (henvp.imp fun _ _ h => h.below _) henvs, hpairs.symm, ?_,
    strings_of_leads (hfile.imp fun _ _ h => h.below _) ?_⟩
  · rw [bytesAt, hrest]
    simp [auxRandomBytes]
  · simpa using hexecfn

/-- A shell with one argument and one variable. -/
theorem initial_stack_decodes_shell : ∃ image,
    buildInitialStack [[115, 104]] [[65, 61, 66]] 0x7ffff000 [(6, 4096)] (some [115]) = .ok image ∧
      Decodes [[115, 104]] [[65, 61, 66]] 0x7ffff000 [(6, 4096)] (some [115]) image := by
  have hsome : (buildInitialStack [[115, 104]] [[65, 61, 66]] 0x7ffff000 [(6, 4096)]
      (some [115])).toOption.isSome = true := by decide +kernel
  obtain ⟨image, himage⟩ := Option.isSome_iff_exists.mp hsome
  have hbuilt := toOption_eq_some.mp himage
  exact ⟨image, hbuilt, (initial_stack_decodes (by decide) (by decide) (by decide) (by decide)
    (by decide) (by decide)).1 image hbuilt⟩

end StartupStack
