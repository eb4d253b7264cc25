import Whuse.OptionRuns
import Whuse.PipeReadiness

/-! Whether a task can sleep over a pipe or a socket that has something to read. The kernel keeps
no list of readers: each call that may have made a handle readable wakes every sleeping task, or
forgets to. -/
namespace PipeWakeups

open List Option
open MachineWord AddressSpace CountedQueue TaskScheduler ProcessTable ProcessTable.Table Function
open ProcessCalls ExecCall AgreementRuns PipeObjects PipeCalls PipeReadiness TaskScheduler.Scheduler

def Quiet (w : World) : Prop :=
  ∀ tid h, w.reading tid = some h → w.kernel.scheduler.isBlocked tid = true →
    pollReadReady h w.vfs = false

def Unwatched (w : World) (d : Direction) : Prop :=
  ∀ tid h, w.reading tid = some h → w.kernel.scheduler.isBlocked tid = true →
    listens w.vfs h ≠ some d

section Sleep

variable {s : Scheduler} {tid : ℕ}

theorem awake_wakeTask (s : Scheduler) (tid : ℕ) : (s.wakeTask tid).isBlocked tid = false := by
  unfold wakeTask isBlocked
  cases h : s.blocked[tid]? with
  | none => simp [Std.ExtTreeMap.contains_eq_isSome_getElem?, h]
  | some task => simp

theorem awake_wakeTasks {woken : List ℕ} (h : tid ∈ woken) :
    (s.wakeTasks woken).isBlocked tid = false := by
  induction woken generalizing s with
  | nil => cases h
  | cons id woken ih =>
    rcases mem_cons.mp h with rfl | hmem
    · exact isBlocked_wakeTasks (awake_wakeTask s tid) woken
    · exact ih hmem

theorem awake_wakeAllBlocked (s : Scheduler) (tid : ℕ) :
    s.wakeAllBlocked.isBlocked tid = false := by
  cases h : s.isBlocked tid with
  | false => exact isBlocked_wakeTasks h _
  | true =>
    apply awake_wakeTasks
    rw [Std.ExtTreeMap.mem_keys]
    exact Std.ExtTreeMap.contains_iff_mem.mp h

theorem awake_blockCurrent (hne : ∀ task, s.current = some task → tid ≠ task.id)
    (h : s.isBlocked tid = false) : s.blockCurrent.isBlocked tid = false := by
  rcases hcurrent : s.current with _ | task
  · simpa [blockCurrent, hcurrent] using h
  simp only [blockCurrent, hcurrent, isBlocked, scheduleNext_blocked] at h ⊢
  rw [Std.ExtTreeMap.contains_insert, h]
  simpa using (hne task hcurrent).symm

theorem awake_ensureCurrent (h : s.isBlocked tid = false) :
    s.ensureCurrent.isBlocked tid = false := by
  unfold ensureCurrent
  split
  · exact h
  · rwa [isBlocked, scheduleNext_blocked]

theorem awake_yieldNow (h : s.isBlocked tid = false) : s.yieldNow.isBlocked tid = false := by
  rwa [isBlocked, yieldNow_blocked]

theorem awake_dropTasks (x : ThreadExit) (h : s.isBlocked tid = false) :
    (dropTasks x s).isBlocked tid = false := by
  have hremoved := isBlocked_removeTask h x.tid
  unfold ProcessCalls.dropTasks
  split
  · exact isBlocked_exitGroup hremoved x.tgid
  · exact hremoved

end Sleep

/-- Readers may wake up but none falls asleep, bytes come only into some directions, and at most
so many writers go. -/
structure Stirs (cap : ℕ) (w w' : World) (filled : Direction → Prop) (gone : Direction → ℕ) :
    Prop where
  reading : w'.reading = w.reading
  asleep : ∀ tid h, w.reading tid = some h → w.kernel.scheduler.isBlocked tid = false →
    w'.kernel.scheduler.isBlocked tid = false
  pours : Pours cap w.vfs w'.vfs filled gone

variable {h hd : FileHandle} {k : KernelState} {p : Process} {v : Vfs} {w : World} {cap : ℕ}
  {outFd : ℤ}

namespace Stirs

variable {w' w'' : World} {filled filled' : Direction → Prop} {gone gone' : Direction → ℕ}

theorem refl (cap : ℕ) (w : World) (gone : Direction → ℕ) : Stirs cap w w filled gone :=
  ⟨rfl, fun _ _ _ h => h, .refl cap w.vfs gone⟩

theorem trans (h : Stirs cap w w' filled gone) (h' : Stirs cap w' w'' filled gone') :
    Stirs cap w w'' filled fun d => gone d + gone' d := by
  refine ⟨h'.reading.trans h.reading, fun tid hd hread hawake => ?_, h.pours.trans h'.pours⟩
  exact h'.asleep tid hd (h.reading ▸ hread) (h.asleep tid hd hread hawake)

theorem mono {cap' : ℕ} (h : Stirs cap w w' filled gone) (hcap : cap' ≤ cap)
    (hgone : ∀ d, gone d ≤ gone' d) : Stirs cap' w w' filled gone' :=
  ⟨h.reading, h.asleep, h.pours.mono hcap hgone⟩

theorem fills (h : Stirs cap w w' filled gone) (hfilled : ∀ d, filled d → filled' d) :
    Stirs cap w w' filled' gone :=
  ⟨h.reading, h.asleep, h.pours.fills hfilled⟩

theorem of_vfs (h : Pours cap w.vfs v filled gone) : Stirs cap w { w with vfs := v } filled gone :=
  ⟨rfl, fun _ _ _ hawake => hawake, h⟩

theorem of_kernel (cap : ℕ)
    (h : ∀ tid hd, w.reading tid = some hd → w.kernel.scheduler.isBlocked tid = false →
      k.scheduler.isBlocked tid = false) : Stirs cap w { w with kernel := k } filled fun _ => 0 :=
  ⟨rfl, h, .refl cap w.vfs _⟩

theorem storeUser (hal : HalMemory) (p : Process) (addr : ℕ) (bytes : List UInt8) (cap : ℕ)
    (w : World) : Stirs cap w (PipeCalls.storeUser hal p addr bytes w).2 filled fun _ => 0 := by
  unfold PipeCalls.storeUser
  rcases writeBytes hal addr bytes (w.kernel.table.machine p) with ⟨_ | _, M⟩ <;>
    exact of_kernel cap fun _ _ _ hawake => hawake

theorem after {v : World} (h : Stirs cap w w' filled gone)
    (hmove : Stirs cap w' v filled fun _ => 0) : Stirs cap w v filled gone :=
  h.trans hmove

end Stirs

/-- The directions that would lose their last writer with these handles have no sleeping reader. -/
def Spares (w : World) (hs : List FileHandle) : Prop :=
  ∀ d q, w.vfs.queue d = some q → q.writers ≠ 0 →
    min q.writers (usizeMax - 2) ≤ writersAmong w.vfs hs d → Unwatched w d

namespace Quiet

variable {w' : World} {filled : Direction → Prop}

theorem stirs {gone : Direction → ℕ} (h : Quiet w) (hs : Stirs cap w w' filled gone)
    (hfilled : ∀ d, filled d → Unwatched w d)
    (hgone : ∀ d q, w.vfs.queue d = some q → q.writers ≠ 0 → min q.writers cap ≤ gone d →
      Unwatched w d) : Quiet w' := by
  intro tid hd hread hblocked
  rw [hs.reading] at hread
  have hbefore : w.kernel.scheduler.isBlocked tid = true := by
    by_contra hawake
    rw [Bool.not_eq_true] at hawake
    rw [hs.asleep tid hd hread hawake] at hblocked
    cases hblocked
  have hnot := h tid hd hread hbefore
  by_contra hready
  rw [Bool.not_eq_false] at hready
  obtain ⟨d, hlistens, hfill | ⟨q, hq, hwriters, hle⟩⟩ := hs.pours.rouses hd hnot hready
  · exact hfilled d hfill tid hd hread hbefore hlistens
  · exact hgone d q hq hwriters hle tid hd hread hbefore hlistens

theorem fills (h : Quiet w) (hcap : 0 < cap) (hs : Stirs cap w w' filled fun _ => 0)
    (hfilled : ∀ d, filled d → Unwatched w d) : Quiet w' := by
  refine h.stirs hs hfilled fun d q _ hwriters hle => ?_
  omega

theorem idle (h : Quiet w) (hcap : 0 < cap) (hs : Stirs cap w w' (fun _ => False) fun _ => 0) :
    Quiet w' :=
  h.fills hcap hs nofun

theorem drops (h : Quiet w) {hs : List FileHandle} (hspares : Spares w hs)
    (hstirs : Stirs (usizeMax - 2) w w' (fun _ => False) (writersAmong w.vfs hs)) : Quiet w' :=
  h.stirs hstirs nofun hspares

end Quiet

theorem usizeMax_pos : 0 < usizeMax - 2 := by decide

theorem quiet_of_awake (h : ∀ tid, w.kernel.scheduler.isBlocked tid = false) : Quiet w := by
  intro tid hd _ hblocked
  rw [h tid] at hblocked
  cases hblocked

theorem quiet_wakeAll (w : World) : Quiet (wakeAll w) :=
  quiet_of_awake fun tid => awake_wakeAllBlocked w.kernel.scheduler tid

theorem Quiet.wakeIf {b : Bool} (h : b = false → Quiet w) : Quiet (PipeCalls.wakeIf b w) := by
  cases b with
  | false => exact h rfl
  | true => exact quiet_wakeAll w

theorem Quiet.sleepOn (hq : Quiet w) (hready : pollReadReady h w.vfs = false) :
    Quiet (PipeCalls.sleepOn h w) := by
  unfold PipeCalls.sleepOn
  rcases hcurrent : w.kernel.scheduler.current with _ | task
  · exact hq
  intro tid hd hread hblocked
  by_cases htid : tid = task.id
  · subst htid
    simp only [update_self, some.injEq] at hread
    exact hread ▸ hready
  simp only [update_of_ne htid] at hread
  refine hq tid hd hread ?_
  by_contra hawake
  rw [Bool.not_eq_true] at hawake
  have hstill : (onScheduler blockCurrent w).kernel.scheduler.isBlocked tid = false :=
    awake_blockCurrent (by simpa [hcurrent] using htid) hawake
  rw [hstill] at hblocked
  cases hblocked

section Reads

variable {hal : HalMemory} {files : OtherFiles}

theorem Quiet.read {len : ℕ} {r : KernelResult (List UInt8)} (h : Quiet w)
    (hread : vfsRead files hd len w.vfs = (r, v)) : Quiet { w with vfs := v } := by
  have hpours := @pours_vfsRead (fun _ => False) files hd len w.vfs
  rw [hread] at hpours
  exact h.idle (by decide) (.of_vfs hpours)

theorem Quiet.storeUser (h : Quiet w) (p : Process) (addr : ℕ) (bytes : List UInt8) :
    Quiet (storeUser hal p addr bytes w).2 :=
  h.idle Nat.one_pos (.storeUser hal p addr bytes 1 w)

theorem Quiet.receive (h : Quiet w) (fd : ℤ) (buf count : ℕ) :
    Quiet (receive hal files fd buf count w).2 := by
  unfold PipeCalls.receive
  split
  · exact h
  next p hd _ =>
  split
  · next bytes v hread => exact (h.read hread).storeUser p buf bytes
  next e v hread =>
  have hquiet := h.read hread
  split
  · next hwait =>
    obtain ⟨rfl, -⟩ := hwait
    exact hquiet.sleepOn (vfsRead_waits hread)
  · exact hquiet

theorem Quiet.readvLoop (h : Quiet w) (p : Process) (hd : FileHandle) (iovecs : List (ℕ × ℕ))
    (total : ℕ) : Quiet (readvLoop hal files p hd iovecs total w).2 := by
  induction iovecs generalizing w total with
  | nil => exact h
  | cons iovec iovecs ih =>
    obtain ⟨base, len⟩ := iovec
    unfold PipeCalls.readvLoop
    split
    · next bytes v hread =>
      have hquiet : Quiet (PipeCalls.storeUser hal p base bytes _).2 :=
        (h.read hread).storeUser p base bytes
      generalize PipeCalls.storeUser hal p base bytes { w with vfs := v } = stored at hquiet ⊢
      obtain ⟨e | _, w'⟩ := stored
      · exact hquiet
      simp only
      split
      · exact hquiet
      · exact ih hquiet _
    · next e v hread =>
      have hquiet := h.read hread
      split
      · next hwait =>
        obtain ⟨rfl, -⟩ := hwait
        split
        · exact hquiet.sleepOn (vfsRead_waits hread)
        · exact hquiet
      · exact hquiet

theorem Quiet.sysReadv (h : Quiet w) (fd : ℤ) (iovecs : KernelResult (List (ℕ × ℕ))) :
    Quiet (sysReadv hal files fd iovecs w).2 := by
  unfold PipeCalls.sysReadv
  split
  · exact h
  · exact h
  · split
    · exact h
    · exact h.readvLoop _ _ _ _

end Reads

section Writes

variable {hal : HalMemory} {heap : Heap} {files : OtherFiles} {d : Direction} {v' : Vfs}

theorem stream_of_feeds (hfeeds : feeds v h = some d) :
    (isPipe h v || PipeCalls.isSocket files h v) = true := by
  unfold PipeReadiness.feeds at hfeeds
  unfold PipeCalls.isPipe PipeCalls.isSocket
  cases hnode : v.nodes[h.node]? with
  | none => simp [hnode] at hfeeds
  | some node => cases node <;> rfl

theorem Quiet.written (h : Quiet w) (hd : FileHandle) (data : List UInt8) {b : Bool}
    {r : KernelResult ℕ} (hwrite : vfsWrite files hd data w.vfs = (r, v))
    (hwake : ∀ n, r = .ok n → n ≠ 0 →
      (isPipe hd w.vfs || PipeCalls.isSocket files hd w.vfs) = true → b = true) :
    Quiet (PipeCalls.wakeIf b { w with vfs := v }) := by
  have hpours := pours_vfsWrite files hd data w.vfs
  rw [hwrite] at hpours
  refine Quiet.wakeIf fun hb => h.fills (by decide) (Stirs.of_vfs hpours) ?_
  rintro d ⟨hdata, hfeeds, hok⟩
  have hlength : data.length ≠ 0 := fun hzero => hdata (length_eq_zero_iff.mp hzero)
  rw [hwake _ hok hlength (stream_of_feeds hfeeds)] at hb
  cases hb

theorem Quiet.sysWrite (h : Quiet w) (fd : ℤ) (buf count : ℕ) :
    Quiet (sysWrite hal heap files fd buf count w).2 := by
  unfold PipeCalls.sysWrite
  split
  · exact h
  split
  · exact h
  split
  · exact h
  next data _ _ hd _ =>
  split
  · next n v hwrite =>
    refine h.written hd data hwrite fun n' hok hne hstream => ?_
    cases hok
    simpa [hstream] using hne
  · next e v hwrite => exact h.written hd data hwrite fun n' hok => by cases hok

theorem Quiet.sysSendto (h : Quiet w) (fd : ℤ) (buf count : ℕ) :
    Quiet (sysSendto hal heap files fd buf count w).2 := by
  unfold PipeCalls.sysSendto
  split
  · exact h
  split
  · exact h
  split
  · exact h
  next data _ _ hd _ =>
  split
  · next n v hwrite =>
    refine h.written hd data hwrite fun n' hok hne hstream => ?_
    cases hok
    simpa [hstream] using hne
  · next e v hwrite =>
    have hwritten := h.written (b := false) hd data hwrite fun n' hok => by cases hok
    exact hwritten

/-- The other end of a pipe is the only thing that can refuse a write. -/
theorem write_pipe_error {data : List UInt8} {e : ℕ} (hpipe : isPipe hd v = true)
    (hfeeds : feeds v hd = some d) (hwrite : vfsWrite files hd data v = (.error e, v')) :
    e = epipe := by
  obtain ⟨state, hnode⟩ : ∃ state, v.nodes[hd.node]? = some (.pipe state) := by
    unfold PipeCalls.isPipe at hpipe
    split at hpipe
    · exact ⟨_, ‹_›⟩
    · cases hpipe
  have hend : hd.pipeEnd ≠ .read := fun hend => by simp [feeds, hnode, hend] at hfeeds
  simp only [vfsWrite, known, hnode, isSome_some, if_true, writeObject, if_neg hend] at hwrite
  split at hwrite
  · cases hwrite
  split at hwrite
  · cases hwrite
    rfl
  · cases hwrite

theorem isPipe_same (h : SameNodes v v') (hd : FileHandle) : isPipe hd v' = isPipe hd v := by
  have hnode := h.nodes hd.node
  unfold PipeCalls.isPipe
  rcases h₁ : v'.nodes[hd.node]? with _ | (_ | ⟨c', s'⟩) <;>
    rcases h₂ : v.nodes[hd.node]? with _ | (_ | ⟨c, s⟩) <;>
    simp_all [NodeData.channelSide]

/-- What a `writev` needs: nobody waits for what it writes, or it goes to a pipe and every vector
can be read. -/
def WritevSafe (hal : HalMemory) (heap : Heap) (p : Process) (h : FileHandle)
    (iovecs : List (ℕ × ℕ)) (w : World) : Prop :=
  (∀ d, feeds w.vfs h = some d → Unwatched w d) ∨ isPipe h w.vfs = true ∧
      ∀ iovec ∈ iovecs, ∃ data, userData hal heap p iovec.1 iovec.2 w = .ok data

/-- The loop of `writev`, entered in the world `w₀`; the bytes written so far are counted. -/
theorem Quiet.writevLoop {w₀ : World} (h : Quiet w₀) {pipe : Bool} {iovecs : List (ℕ × ℕ)}
    {total : ℕ} (hpipe : pipe = isPipe hd w₀.vfs) (hkernel : w.kernel = w₀.kernel)
    (hstirs : Stirs usizeMax w₀ w (fun d => total ≠ 0 ∧ feeds w₀.vfs hd = some d) fun _ => 0)
    (hsafe : WritevSafe hal heap p hd iovecs w₀) :
    Quiet (writevLoop hal heap files p hd pipe iovecs total w).2 := by
  -- leaving without waking anyone
  have hleave : ∀ {w' : World} {n : ℕ},
      Stirs usizeMax w₀ w' (fun d => n ≠ 0 ∧ feeds w₀.vfs hd = some d) (fun _ => 0) →
      (∀ d, feeds w₀.vfs hd = some d → n ≠ 0 → Unwatched w₀ d) → Quiet w' := by
    intro w' n hs hun
    exact h.fills (by decide) hs fun d hfill => hun d hfill.2 hfill.1
  induction iovecs generalizing w total with
  | nil =>
    apply Quiet.wakeIf
    intro hb
    refine hleave hstirs fun d hfeeds htotal => ?_
    rcases hsafe with hun | ⟨hisPipe, -⟩
    · exact hun d hfeeds
    · rw [hpipe, hisPipe] at hb
      exact absurd hb (by simpa using htotal)
  | cons iovec iovecs ih =>
    obtain ⟨base, len⟩ := iovec
    have huser : userData hal heap p base len w = userData hal heap p base len w₀ := by
      simp [userData, hkernel]
    unfold PipeCalls.writevLoop
    rw [huser]
    split
    · next e hdata =>
      refine hleave hstirs fun d hfeeds _ => ?_
      rcases hsafe with hun | ⟨-, hreadable⟩
      · exact hun d hfeeds
      · obtain ⟨data, hok⟩ := hreadable _ mem_cons_self
        rw [hdata] at hok
        cases hok
    · next bytes _ =>
      have hpours := pours_vfsWrite files hd bytes w.vfs
      have hfeeds_same := feeds_same hstirs.pours.nodes hd
      split
      · next n v hwrite =>
        rw [hwrite] at hpours
        refine ih hkernel ?_ ?_
        · refine (hstirs.fills ?_).after ((Stirs.of_vfs hpours).fills ?_)
          · exact fun d ⟨htotal, hfeeds⟩ => ⟨by omega, hfeeds⟩
          · rintro d ⟨hbytes, hfeeds, hok⟩
            have hlength : bytes.length ≠ 0 := fun hz => hbytes (length_eq_zero_iff.mp hz)
            cases hok
            exact ⟨by omega, hfeeds_same ▸ hfeeds⟩
        · refine hsafe.imp id fun hreadable => ⟨hreadable.1, fun iovec hmem => ?_⟩
          exact hreadable.2 iovec (mem_cons_of_mem _ hmem)
      · next e v hwrite =>
        rw [hwrite] at hpours
        have hboth : Stirs usizeMax w₀ { w with vfs := v }
            (fun d => total ≠ 0 ∧ feeds w₀.vfs hd = some d) fun _ => 0 :=
          hstirs.after ((Stirs.of_vfs hpours).fills fun d hfill => nomatch hfill.2.2)
        split
        · split
          · exact quiet_wakeAll _
          · exact Quiet.wakeIf fun _ => quiet_wakeAll _
        next hnot =>
        refine hleave hboth fun d hfeeds _ => ?_
        rcases hsafe with hun | ⟨hisPipe, -⟩
        · exact hun d hfeeds
        · have hepipe := write_pipe_error ((isPipe_same hstirs.pours.nodes hd).trans hisPipe)
            (hfeeds_same.trans hfeeds) hwrite
          exact absurd ⟨hepipe, hpipe.trans hisPipe⟩ hnot

theorem consoleLoop_world (p : Process) (iovecs : List (ℕ × ℕ)) (total : ℕ) (w : World) :
    (consoleLoop hal heap p iovecs total w).2 = w := by
  induction iovecs generalizing total with
  | nil => rfl
  | cons iovec iovecs ih =>
    unfold PipeCalls.consoleLoop
    split
    · rfl
    · exact ih _

theorem Quiet.sysWritev (h : Quiet w) (fd : ℤ) (iovecs : KernelResult (List (ℕ × ℕ)))
    (hsafe : ∀ p hd vectors, w.kernel.table.current = .ok p → p.fds[fd]? = some hd →
      iovecs = .ok vectors → WritevSafe hal heap p hd vectors w) :
    Quiet (sysWritev hal heap files fd iovecs w).2 := by
  unfold PipeCalls.sysWritev
  split
  · exact h
  · exact h
  next p vectors hp =>
  split
  · rw [consoleLoop_world]
    exact h
  split
  · exact h
  · next hd hfd =>
    exact h.writevLoop rfl rfl (.refl _ w _) (hsafe p hd vectors hp hfd rfl)

end Writes

variable {filled : Direction → Prop}

section Copies

variable {hal : HalMemory} {heap : Heap} {files : OtherFiles}

/-- The directions that a copy to a descriptor of an entry can fill. -/
def copyFills (p : Process) (outFd : ℤ) (v : Vfs) (d : Direction) : Prop :=
  ∃ target, p.fds[outFd]? = some target ∧ feeds v target = some d

theorem Stirs.writeOffset (hal : HalMemory) (p : Process) (arg : OffsetArg) (cap : ℕ) (w : World) :
    Stirs cap w (writeOffset hal p arg w).2 filled fun _ => 0 := by
  unfold PipeCalls.writeOffset
  split
  · exact .refl cap w _
  · exact .storeUser hal p _ _ cap w

theorem Stirs.withClone (hcap : cap ≤ usizeMax) {body : World → KernelResult ℕ × World}
    (hbody : Stirs cap { w with vfs := (cloneHandle h w.vfs).2 }
      (body { w with vfs := (cloneHandle h w.vfs).2 }).2 filled fun _ => 0) :
    Stirs (cap - 1) w (withClone h body w).2 filled fun _ => 0 :=
  ⟨hbody.reading, hbody.asleep, pours_withClone hcap hbody.pours⟩

theorem stirs_read (files : OtherFiles) (source : FileHandle) (len : ℕ) (w : World) :
    Stirs usizeMax w { w with vfs := (vfsRead files source len w.vfs).2 } filled fun _ => 0 :=
  .of_vfs (pours_vfsRead files source len w.vfs)

theorem stirs_copied (files : OtherFiles) (source : FileHandle) (len : ℕ) (bytes : List UInt8)
    {v₀ : Vfs} (hsame : SameNodes v₀ w.vfs) {target : FileHandle}
    (hout : p.fds[outFd]? = some target) :
    Stirs usizeMax w
      { w with vfs := (vfsWrite files target bytes (vfsRead files source len w.vfs).2).2 }
      (copyFills p outFd v₀) fun _ => 0 := by
  have hread : Pours usizeMax w.vfs _ (copyFills p outFd v₀) _ :=
    pours_vfsRead files source len w.vfs
  refine Stirs.of_vfs (hread.trans ((pours_vfsWrite files target bytes _).fills ?_))
  rintro d ⟨-, hfeeds, -⟩
  rw [feeds_same (hsame.trans hread.nodes)] at hfeeds
  exact ⟨target, hout, hfeeds⟩

theorem stirs_sendfile (offset : OffsetArg) (count : ℕ) (outFd inFd : ℤ)
    (hp : w.kernel.table.current = .ok p) :
    Stirs (usizeMax - 1) w (sysSendfile hal heap files outFd inFd offset count w).2
      (copyFills p outFd w.vfs) fun _ => 0 := by
  simp only [sysSendfile, lookFd, hp]
  rcases p.fds[inFd]? with _ | source
  · exact .refl _ w _
  apply Stirs.withClone le_rfl
  have hsame := clone_nodes source w.vfs
  generalize (cloneHandle source w.vfs).2 = v₀ at hsame ⊢
  have hread := @stirs_read (copyFills p outFd w.vfs) files source count { w with vfs := v₀ }
  split
  · exact .refl _ _ _
  split
  · next e v heq =>
    rw [heq] at hread
    exact hread
  next bytes v heq =>
  split
  · rw [heq] at hread
    exact hread
  next target hout =>
  have hcopied := stirs_copied (w := { w with vfs := v₀ }) files source count bytes hsame hout
  rw [heq] at hcopied
  split
  · next e v' hwrite =>
    rw [hwrite] at hcopied
    exact hcopied
  next n v' hwrite =>
  rw [hwrite] at hcopied
  have hoffset := hcopied.after (.writeOffset hal p offset _ _)
  generalize writeOffset hal p offset { w with vfs := v' } = out at hoffset ⊢
  obtain ⟨e | _, w'⟩ := out <;> exact hoffset

theorem stirs_copyBetweenFds (inFd outFd : ℤ) (len : ℕ) (offIn offOut : OffsetArg)
    (hp : w.kernel.table.current = .ok p) :
    Stirs (usizeMax - 1 - 1) w
      (sysCopyBetweenFds hal heap files inFd outFd len offIn offOut w).2
      (copyFills p outFd w.vfs) fun _ => 0 := by
  simp only [sysCopyBetweenFds, lookFd, hp]
  rcases p.fds[inFd]? with _ | source
  · exact .refl _ w _
  apply Stirs.withClone (Nat.sub_le _ _)
  have hsource := clone_nodes source w.vfs
  generalize (cloneHandle source w.vfs).2 = v₁ at hsource ⊢
  split
  · exact .refl _ _ _
  next target hout =>
  apply Stirs.withClone le_rfl
  have hsame := hsource.trans (clone_nodes target v₁)
  generalize (cloneHandle target v₁).2 = v₀ at hsame ⊢
  have hread := @stirs_read (copyFills p outFd w.vfs) files source len { w with vfs := v₀ }
  split
  · exact .refl _ _ _
  split
  · exact .refl _ _ _
  split
  · next e v heq =>
    rw [heq] at hread
    exact hread
  next bytes v heq =>
  have hcopied := stirs_copied (w := { w with vfs := v₀ }) files source len bytes hsame hout
  rw [heq] at hcopied
  split
  · next e v' hwrite =>
    rw [hwrite] at hcopied
    exact hcopied
  next n v' hwrite =>
  rw [hwrite] at hcopied
  have hfirst := hcopied.after (.writeOffset hal p offIn _ _)
  generalize writeOffset hal p offIn { w with vfs := v' } = out at hfirst ⊢
  obtain ⟨e | _, w'⟩ := out
  · exact hfirst
  have hsecond := hfirst.after (.writeOffset hal p offOut _ _)
  simp only
  generalize writeOffset hal p offOut w' = out at hsecond ⊢
  obtain ⟨e | _, w''⟩ := out <;> exact hsecond

end Copies

section Closes

theorem stirs_closeOne (fd : ℤ) (h : FileHandle) (w : World) :
    Stirs (usizeMax - 1) w (closeOne fd h w) filled (writersAmong w.vfs [h]) := by
  refine ⟨rfl, fun _ _ _ hawake => hawake, ?_⟩
  have hheld : Pours _ w.vfs _ filled _ := pours_withClone (h := h) le_rfl (.refl usizeMax _ _)
  refine (hheld.trans (pours_drop (usizeMax - 1) h _)).mono le_rfl fun d => ?_
  rw [writersAmong_same hheld.nodes]
  omega

theorem stirs_closeEach (doomed : List (ℤ × FileHandle)) (w : World) :
    Stirs (usizeMax - 1) w (closeEach doomed w) filled
      (writersAmong w.vfs (doomed.map Prod.snd)) := by
  induction doomed generalizing w with
  | nil => exact .refl _ w _
  | cons entry doomed ih =>
    obtain ⟨fd, h⟩ := entry
    have hone : Stirs _ w _ filled _ := stirs_closeOne fd h w
    refine (hone.trans (ih _)).mono le_rfl fun d => ?_
    rw [writersAmong_same hone.pours.nodes, map_cons, writersAmong_cons, writersAmong_cons]
    simp only [writersAmong, filter_nil, length_nil]
    omega

theorem Quiet.sysClose (h : Quiet w) (fd : ℤ) (released : Bool)
    (hsafe : ∀ p hd, lookFd fd w = .ok (p, hd) → isPipe hd w.vfs = false → released = false →
      Spares w [hd]) : Quiet (sysClose fd released w).2 := by
  unfold PipeCalls.sysClose
  split
  · exact h
  next p hd hlook =>
  apply Quiet.wakeIf
  intro hb
  rw [Bool.or_eq_false_iff] at hb
  exact h.drops (hsafe p hd hlook hb.1 hb.2)
    ((stirs_closeOne fd hd w).mono (by decide) fun _ => le_rfl)

def doomed (first last : ℤ) (p : Process) : List (ℤ × FileHandle) :=
  p.fds.toList.filter fun entry => decide (first ≤ entry.1 ∧ entry.1 ≤ last)

theorem Quiet.sysCloseRange (h : Quiet w) (first last : ℤ) (released : Bool)
    (hsafe : ∀ p, w.kernel.table.current = .ok p → released = false →
      (∀ entry ∈ doomed first last p, isPipe entry.2 w.vfs = false) →
      Spares w ((doomed first last p).map Prod.snd)) :
    Quiet (sysCloseRange first last released w).2 := by
  unfold PipeCalls.sysCloseRange
  split
  · exact h
  next p hp =>
  apply Quiet.wakeIf
  intro hb
  rw [Bool.or_eq_false_iff, List.any_eq_false] at hb
  refine h.drops (hsafe p hp hb.2 fun entry hmem => ?_)
    ((stirs_closeEach (doomed first last p) w).mono (by decide) fun _ => le_rfl)
  simpa using hb.1 entry hmem

end Closes

section Descriptors

variable {hal : HalMemory}

theorem stirs_clone (h : FileHandle) (w : World) :
    Stirs usizeMax w { w with vfs := (cloneHandle h w.vfs).2 } filled fun _ => 0 :=
  .of_vfs (pours_clone usizeMax le_rfl h w.vfs)

theorem Stirs.onTable (f : Table → Table) (cap : ℕ) (w : World) :
    Stirs cap w (onTable f w) filled fun _ => 0 :=
  .of_kernel cap fun _ _ _ hawake => hawake

theorem Quiet.sysDup (h : Quiet w) (fd first : ℤ) (cloexec : Bool) :
    Quiet (sysDup fd first cloexec w).2 := by
  unfold PipeCalls.sysDup
  split
  · exact h
  · next p hd _ => exact h.idle (by decide) ((stirs_clone hd w).after (.onTable _ _ _))

theorem Quiet.sysDup3 (h : Quiet w) (oldFd newFd : ℤ) (cloexec : Bool)
    (hsafe : ∀ p old, w.kernel.table.current = .ok p → oldFd ≠ newFd → p.fds[newFd]? = some old →
      Spares w [old]) : Quiet (sysDup3 oldFd newFd cloexec w).2 := by
  unfold PipeCalls.sysDup3
  rcases hlook : lookFd oldFd w with e | found
  · exact h
  obtain ⟨p, hd⟩ := found
  simp only
  split
  · exact h
  next hne =>
  have hp : w.kernel.table.current = .ok p := by
    unfold lookFd at hlook
    split at hlook
    · cases hlook
    next q hq =>
    split at hlook
    · cases hlook
    · cases hlook
      exact hq
  rcases hnew : p.fds[newFd]? with _ | old
  · exact h.idle (by decide) ((stirs_clone hd w).after (.onTable _ _ _))
  have hclone := @pours_clone (fun _ => False) usizeMax le_rfl hd w.vfs
  have hdrop := hclone.trans (pours_drop usizeMax old (cloneHandle hd w.vfs).2)
  refine h.drops (hsafe p old hp hne hnew)
    (((Stirs.of_vfs hdrop).after (.onTable _ _ _)).mono (by decide) fun d => ?_)
  rw [writersAmong_same hclone.nodes, Nat.zero_add]

theorem stirs_addPair (addr : ℕ) (ends : FileHandle × FileHandle) (w : World) :
    Stirs usizeMax w (addPair hal addr ends w).2 filled fun _ => 0 := by
  unfold PipeCalls.addPair
  split
  · exact .refl _ w _
  · exact ((Stirs.onTable _ _ w).after (.onTable _ _ _)).after (.storeUser hal _ _ _ _ _)

theorem Quiet.sysPipe (h : Quiet w) (addr : ℕ) (cloexec : Bool) :
    Quiet (sysPipe hal addr cloexec w).2 := by
  have hnew : Quiet { w with vfs := (createPipe w.vfs).2 } := fun tid hd hread hblocked => by
    rw [pollReadReady_createPipe]
    exact h tid hd hread hblocked
  exact hnew.idle (by decide) (stirs_addPair addr _ _)

theorem Quiet.sysSocketpair (h : Quiet w) (addr : ℕ) : Quiet (sysSocketpair hal addr w).2 := by
  have hnew : Quiet { w with vfs := (createSocketpair w.vfs).2 } := fun tid hd hread hblocked => by
    rw [pollReadReady_createSocketpair]
    exact h tid hd hread hblocked
  exact hnew.idle (by decide) (stirs_addPair addr _ _)

end Descriptors

section Kernel

variable {hal : HalMemory} {heap : Heap} {l : KernelState} {tid fuel : ℕ}
  {out : KernelResult ℕ × KernelState}

theorem lasts_awake (tid : ℕ) : Lasts fun s => s.isBlocked tid = false :=
  fun _ => isBlocked_wakeTask

theorem awake_doClone {r : CloneRequest}
    (hnot : ∀ task, k.scheduler.current = some task → tid ≠ task.id)
    (h : k.scheduler.isBlocked tid = false) (hrun : doClone hal heap fuel r k = some out) :
    out.2.scheduler.isBlocked tid = false := by
  rcases doClone_cases hrun with ⟨e, rfl⟩ | ⟨p, -, ⟨-, hrun⟩ | ⟨-, rfl⟩⟩
  · exact h
  · unfold cloneThread at hrun
    split at hrun
    · cases hrun
      exact h
    split at hrun
    · cases hrun
    · cases hrun
      exact h
    split at hrun
    · cases hrun
      exact h
    split at hrun
    · cases hrun
      exact h
    simp only at hrun
    split at hrun <;> cases hrun <;> exact h
  · unfold cloneProcess
    simp only
    split
    · exact h
    split
    · exact h
    split
    · exact h
    split
    · exact awake_blockCurrent hnot h
    · exact h

theorem awake_sysExecve {heaps : ExecHeaps} {files : ExecFiles} {args : ExecArgs}
    (h : k.scheduler.isBlocked tid = false) (hrun : sysExecve hal heaps files args k = some out) :
    out.2.scheduler.isBlocked tid = false := by
  rcases sysExecve_cases hrun with ⟨e, rfl⟩ | ⟨p, image, -, -, hrun⟩
  · exact h
  cases placeImage_placing hrun with
  | reset | wrote | builtin => exact h
  | @elf _ _ _ _ _ _ _ parent v => exact (lasts_awake tid).wakeVforkParent (k := ⟨v, _⟩) h parent

theorem awake_sysExit (exitGroup : Bool) (code : Int32) (h : k.scheduler.isBlocked tid = false) :
    (sysExit hal heap exitGroup code k).2.scheduler.isBlocked tid = false := by
  cases exitGroup with
  | true =>
    show (sysExitGroup hal heap code k).2.scheduler.isBlocked tid = false
    unfold sysExitGroup
    split
    · exact h
    · exact (lasts_awake tid).tellParent (isBlocked_exitGroup h _) _
  | false =>
    show (sysExitThread hal heap code k).2.scheduler.isBlocked tid = false
    unfold sysExitThread
    split
    · exact h
    · exact (lasts_awake tid).wakeEach ((lasts_awake tid).tellParent (awake_dropTasks _ h) _) _ _

theorem awake_forcedThreadExit (h : k.scheduler.isBlocked tid = false) :
    (forcedThreadExit hal heap k).scheduler.isBlocked tid = false := by
  unfold forcedThreadExit
  split
  · exact h
  · have hlasts := lasts_awake tid
    exact hlasts.wakeEach (hlasts.wakeEach (hlasts.tellParent (awake_dropTasks _ h) _) _ _) _ _

/-- The kernel's own exits wake everyone, unless there is nothing to end. -/
theorem awake_signalExit (hp : k.table.current = .ok p) (signum tid : ℕ) :
    (signalExit hal heap signum k).scheduler.isBlocked tid = false := by
  unfold signalExit
  split
  · next e t hexit => simp [Table.exitCurrentThread, hp] at hexit
  · exact awake_wakeAllBlocked _ tid

theorem awake_faultExit (hp : k.table.current = .ok p) (tid : ℕ) :
    (faultExit hal heap k).scheduler.isBlocked tid = false := by
  unfold faultExit
  split
  · next e t hexit => simp [Table.exitCurrentProcessGroup, hp] at hexit
  · exact awake_wakeAllBlocked _ tid

end Kernel

inductive IoCall where
  | read (fd : ℤ) (buf count : ℕ)
  | recvfrom (fd : ℤ) (buf count : ℕ)
  | readv (fd : ℤ) (iovecs : KernelResult (List (ℕ × ℕ)))
  | write (fd : ℤ) (buf count : ℕ)
  | sendto (fd : ℤ) (buf count : ℕ)
  | writev (fd : ℤ) (iovecs : KernelResult (List (ℕ × ℕ)))
  | sendfile (outFd inFd : ℤ) (offset : OffsetArg) (count : ℕ)
  | splice (inFd outFd : ℤ) (len : ℕ) (offIn offOut : OffsetArg)
  | close (fd : ℤ) (released : Bool)
  | closeRange (first last : ℤ) (released : Bool)
  | dup (fd first : ℤ) (cloexec : Bool)
  | dup3 (oldFd newFd : ℤ) (cloexec : Bool)
  | pipe (addr : ℕ) (cloexec : Bool)
  | socketpair (addr : ℕ)

def IoCall.run (hal : HalMemory) (heap : Heap) (files : OtherFiles) (w : World) : IoCall → World
  | read fd buf count => (sysRead hal files fd buf count w).2
  | recvfrom fd buf count => (sysRecvfrom hal files fd buf count w).2
  | readv fd iovecs => (sysReadv hal files fd iovecs w).2
  | write fd buf count => (sysWrite hal heap files fd buf count w).2
  | sendto fd buf count => (sysSendto hal heap files fd buf count w).2
  | writev fd iovecs => (sysWritev hal heap files fd iovecs w).2
  | sendfile outFd inFd offset count => (sysSendfile hal heap files outFd inFd offset count w).2
  | splice inFd outFd len offIn offOut => (sysSplice hal heap files inFd outFd len offIn offOut w).2
  | close fd released => (sysClose fd released w).2
  | closeRange first last released => (sysCloseRange first last released w).2
  | dup fd first cloexec => (sysDup fd first cloexec w).2
  | dup3 oldFd newFd cloexec => (sysDup3 oldFd newFd cloexec w).2
  | pipe addr cloexec => (sysPipe hal addr cloexec w).2
  | socketpair addr => (sysSocketpair hal addr w).2

def forget (w : World) : World :=
  match w.kernel.scheduler.current with
  | none => w
  | some task => { w with reading := update w.reading task.id none }

def enterCall (w : World) : Option World :=
  (enter w.kernel).map fun k => { forget w with kernel := k }

/-- What happens between two looks at the world. What other calls do to the table is left open;
they may put the running task to sleep and wake sleeping ones. -/
inductive Event where
  | io (heap : Heap) (files : OtherFiles) (c : IoCall)
  | call (c : Call)
  | signalExit (heap : Heap) (signum : ℕ)
  | forcedThreadExit (heap : Heap)
  | faultExit (heap : Heap)
  | watchdogKill (heap : Heap) (tgids : List ℕ)
  | table (f : Table → Table)
  | yieldNow
  | blockCurrent
  | ensureCurrent
  | wake (tids : List ℕ)
  | wakeAllBlocked

def Event.step (hal : HalMemory) (w : World) : Event → Option World
  | io heap files c => (enterCall w).map (c.run hal heap files)
  | call c => (enterCall w).bind (kernelCall hal c)
  | signalExit heap signum =>
    some { w with
      kernel := ProcessCalls.signalExit hal heap signum w.kernel
      vfs := dropAll (exitHandles false w.kernel.table) w.vfs }
  | forcedThreadExit heap =>
    some { w with
      kernel := ProcessCalls.forcedThreadExit hal heap w.kernel
      vfs := dropAll (exitHandles false w.kernel.table) w.vfs }
  | faultExit heap =>
    some { w with
      kernel := ProcessCalls.faultExit hal heap w.kernel
      vfs := dropAll (exitHandles true w.kernel.table) w.vfs }
  | watchdogKill heap tgids =>
    some { w with
      kernel := ProcessCalls.watchdogKill hal heap tgids w.kernel
      vfs := dropAll (forcedHandles hal heap tgids w.kernel.table) w.vfs }
  | table f => some (onTable f w)
  | yieldNow => some (onScheduler Scheduler.yieldNow w)
  | blockCurrent => some (onScheduler Scheduler.blockCurrent (forget w))
  | ensureCurrent => some (onScheduler Scheduler.ensureCurrent w)
  | wake tids => some (onScheduler (wakeTasks tids) w)
  | wakeAllBlocked => some (wakeAll w)

/-- The calls that wake nobody, or not always, need that nobody waits for what they write and that
no reader waits for a direction they take the last writer from. -/
def IoCall.Safe (hal : HalMemory) (heap : Heap) (w : World) : IoCall → Prop
  | writev fd iovecs => ∀ p h vectors, w.kernel.table.current = .ok p → p.fds[fd]? = some h →
      iovecs = .ok vectors → WritevSafe hal heap p h vectors w
  | sendfile outFd _ _ _ => ∀ p, w.kernel.table.current = .ok p →
      ∀ d, copyFills p outFd w.vfs d → Unwatched w d
  | splice _ outFd _ _ _ => ∀ p, w.kernel.table.current = .ok p →
      ∀ d, copyFills p outFd w.vfs d → Unwatched w d
  | close fd released => ∀ p h, lookFd fd w = .ok (p, h) → isPipe h w.vfs = false →
      released = false → Spares w [h]
  | closeRange first last released => ∀ p, w.kernel.table.current = .ok p → released = false →
      (∀ entry ∈ doomed first last p, isPipe entry.2 w.vfs = false) →
      Spares w ((doomed first last p).map Prod.snd)
  | dup3 oldFd newFd _ => ∀ p old, w.kernel.table.current = .ok p → oldFd ≠ newFd →
      p.fds[newFd]? = some old → Spares w [old]
  | _ => True

def callSafe (w : World) : Call → Prop
  | .execve heaps files args => (∃ image, resolveImage files heaps args = some (.ok image)) →
      Spares w (execHandles w.kernel.table)
  | .exit _ group _ => Spares w (exitHandles group w.kernel.table)
  | _ => True

def Event.Safe (hal : HalMemory) (w : World) : Event → Prop
  | io heap _ c => ∀ w', enterCall w = some w' → c.Safe hal heap w'
  | call c => ∀ w', enterCall w = some w' → callSafe w' c
  | forcedThreadExit _ => Spares w (exitHandles false w.kernel.table)
  | _ => True

section Steps

variable {hal : HalMemory} {heap : Heap} {w' : World}

theorem lookFd_error {fd : ℤ} {e : ℕ} (h : w.kernel.table.current = .error e) :
    lookFd fd w = .error e := by
  simp [lookFd, h]

/-- A copy wakes nobody: it is safe only where nobody waits for what it writes. -/
theorem Quiet.copy (h : Quiet w) (hcap : 0 < cap)
    (hnone : ∀ e, w.kernel.table.current = .error e → w' = w)
    (hstirs : ∀ p, w.kernel.table.current = .ok p →
      Stirs cap w w' (copyFills p outFd w.vfs) fun _ => 0)
    (hsafe : ∀ p, w.kernel.table.current = .ok p →
      ∀ d, copyFills p outFd w.vfs d → Unwatched w d) : Quiet w' := by
  cases hp : w.kernel.table.current with
  | error e =>
    rw [hnone e hp]
    exact h
  | ok p => exact h.fills hcap (hstirs p hp) (hsafe p hp)

theorem Quiet.io {files : OtherFiles} (h : Quiet w) (c : IoCall) (hsafe : c.Safe hal heap w) :
    Quiet (c.run hal heap files w) := by
  cases c with
  | read fd buf count | recvfrom fd buf count => exact h.receive fd buf count
  | readv fd iovecs => exact h.sysReadv fd iovecs
  | write fd buf count => exact h.sysWrite fd buf count
  | sendto fd buf count => exact h.sysSendto fd buf count
  | writev fd iovecs => exact h.sysWritev fd iovecs hsafe
  | sendfile outFd inFd offset count =>
    refine h.copy (by decide) (fun e he => ?_)
      (fun p hp => stirs_sendfile offset count outFd inFd hp) hsafe
    simp [IoCall.run, sysSendfile, lookFd_error he]
  | splice inFd outFd len offIn offOut =>
    refine h.copy (by decide) (fun e he => ?_)
      (fun p hp => stirs_copyBetweenFds inFd outFd len offIn offOut hp) hsafe
    simp [IoCall.run, sysSplice, sysCopyBetweenFds, lookFd_error he]
  | close fd released => exact h.sysClose fd released hsafe
  | closeRange first last released => exact h.sysCloseRange first last released hsafe
  | dup fd first cloexec => exact h.sysDup fd first cloexec
  | dup3 oldFd newFd cloexec => exact h.sysDup3 oldFd newFd cloexec hsafe
  | pipe addr cloexec => exact h.sysPipe addr cloexec
  | socketpair addr => exact h.sysSocketpair addr

theorem Quiet.kernelDrops (h : Quiet w) (hs : List FileHandle)
    (hawake : ∀ tid hd, w.reading tid = some hd → w.kernel.scheduler.isBlocked tid = false →
      k.scheduler.isBlocked tid = false) (hspares : Spares w hs) :
    Quiet { w with kernel := k, vfs := dropAll hs w.vfs } :=
  h.drops hspares ⟨rfl, hawake, pours_dropAll _ hs w.vfs⟩

theorem spares_nil (w : World) : Spares w [] := by
  intro d q _ hwriters hle
  have hpos := usizeMax_pos
  simp only [writersAmong, filter_nil, length_nil] at hle
  omega

theorem quiet_forget (h : Quiet w) : Quiet (forget w) := by
  unfold forget
  rcases w.kernel.scheduler.current with _ | task
  · exact h
  intro tid hd hread hblocked
  by_cases htid : tid = task.id
  · simp [htid] at hread
  · simp only [update_of_ne htid] at hread
    exact h tid hd hread hblocked

/-- Whoever still waits for a read is not the running task. -/
theorem forget_current {tid : ℕ} (hread : (forget w).reading tid = some hd) (task : Task)
    (hcurrent : w.kernel.scheduler.current = some task) : tid ≠ task.id := by
  intro htid
  simp [forget, hcurrent, htid] at hread

theorem forget_kernel (w : World) : (forget w).kernel = w.kernel := by
  unfold forget
  split <;> rfl

structure Entered (w : World) : Prop where
  quiet : Quiet w
  current : ∀ tid hd, w.reading tid = some hd →
    ∀ task, w.kernel.scheduler.current = some task → tid ≠ task.id

theorem Quiet.enterCall (h : Quiet w) (he : enterCall w = some w') : Entered w' := by
  obtain ⟨k, hk, rfl⟩ := map_eq_some_iff.mp he
  obtain ⟨task, htask, rfl⟩ := map_eq_some_iff.mp hk
  constructor
  · intro tid hd hread hblocked
    exact quiet_forget h tid hd hread (by rw [forget_kernel]; exact hblocked)
  · exact fun tid hd hread => forget_current (w := w) hread

theorem Quiet.kernelCall (h : Entered w) (c : Call) (hsafe : callSafe w c)
    (hrun : kernelCall hal c w = some w') : Quiet w' := by
  obtain ⟨k, hk, rfl⟩ := map_eq_some_iff.mp hrun
  have hclone : ∀ hs, (∀ tid hd, w.reading tid = some hd →
      w.kernel.scheduler.isBlocked tid = false → k.scheduler.isBlocked tid = false) →
      Quiet { w with kernel := k, vfs := cloneAll hs w.vfs } := fun hs hawake =>
    h.quiet.idle (by decide) ⟨rfl, hawake, pours_cloneAll hs w.vfs⟩
  cases c with
  | clone heap fuel r =>
    obtain ⟨out, hout, rfl⟩ := map_eq_some_iff.mp hk
    apply hclone
    intro tid hd hread hawake
    exact awake_doClone (h.current tid hd hread) hawake hout
  | clone3 heap fuel arch addr size =>
    obtain ⟨out, hout, rfl⟩ := map_eq_some_iff.mp hk
    apply hclone
    intro tid hd hread hawake
    rcases sysClone3_cases hout with ⟨e, rfl⟩ | ⟨p, raw, -, -, hout⟩
    · exact hawake
    · exact awake_doClone (h.current tid hd hread) hawake hout
  | execve heaps files args =>
    obtain ⟨out, hout, rfl⟩ := map_eq_some_iff.mp hk
    have hawake : ∀ tid hd, w.reading tid = some hd →
        w.kernel.scheduler.isBlocked tid = false → out.2.scheduler.isBlocked tid = false :=
      fun tid hd _ hawake => awake_sysExecve hawake hout
    simp only
    split
    · next image himage =>
      exact h.quiet.kernelDrops _ hawake (hsafe ⟨image, himage⟩)
    · exact h.quiet.kernelDrops [] hawake (spares_nil w)
  | exit heap group code =>
    obtain rfl := some.inj hk
    exact h.quiet.kernelDrops _ (fun tid hd _ hawake => awake_sysExit group code hawake) hsafe

/-- The watchdog wakes everyone once it has ended a group; otherwise it drops nothing. -/
theorem forcedHandles_nil (tgids : List ℕ) (t : Table)
    (h : (forceExits hal heap tgids t).1 = []) : forcedHandles hal heap tgids t = [] := by
  induction tgids generalizing t with
  | nil => rfl
  | cons tgid tgids ih =>
    simp only [forceExits, append_eq_nil_iff] at h
    have hgroup : t.groupTids tgid = [] := by
      by_contra hne
      obtain ⟨first, rest, hcons⟩ := exists_cons_of_ne_nil hne
      simp [Table.forceExitGroup, hcons] at h
    have hnone : groupHandles tgid t = [] := by
      simp only [groupTids, map_eq_nil_iff, filter_eq_nil_iff] at hgroup
      simp only [groupHandles, Table.values, List.filter_map, flatMap_eq_nil_iff, List.mem_map,
        mem_filter]
      rintro p ⟨entry, ⟨hmem, hkeep⟩, -⟩
      exact absurd hkeep (hgroup entry hmem)
    simp only [forcedHandles, hnone]
    exact ih _ h.2

theorem Quiet.watchdogKill (h : Quiet w) (tgids : List ℕ) : Quiet { w with
      kernel := ProcessCalls.watchdogKill hal heap tgids w.kernel
      vfs := dropAll (forcedHandles hal heap tgids w.kernel.table) w.vfs } := by
  unfold ProcessCalls.watchdogKill
  simp only
  split
  · next hempty =>
    rw [forcedHandles_nil tgids _ (List.isEmpty_iff.mp hempty)]
    exact h.kernelDrops [] (fun _ _ _ hawake => hawake) (spares_nil w)
  · exact quiet_of_awake fun tid => awake_wakeAllBlocked _ tid

/-- An exit after which everyone is awake, if there was something to end. -/
theorem Quiet.loudExit (h : Quiet w) (group : Bool)
    (hloud : ∀ p, w.kernel.table.current = .ok p → ∀ tid, k.scheduler.isBlocked tid = false)
    (hnone : ∀ e, w.kernel.table.current = .error e → k.scheduler = w.kernel.scheduler) :
    Quiet { w with kernel := k, vfs := dropAll (exitHandles group w.kernel.table) w.vfs } := by
  cases hp : w.kernel.table.current with
  | ok p => exact quiet_of_awake (hloud p hp)
  | error e =>
    have hnil : exitHandles group w.kernel.table = [] := by simp [exitHandles, hp]
    rw [hnil]
    refine h.kernelDrops [] (fun tid hd _ hawake => ?_) (spares_nil w)
    rw [hnone e hp]
    exact hawake

theorem Quiet.event (h : Quiet w) (e : Event) (hsafe : e.Safe hal w)
    (hstep : e.step hal w = some w') : Quiet w' := by
  cases e with
  | io heap files c =>
    obtain ⟨l, hl, rfl⟩ := map_eq_some_iff.mp hstep
    exact (h.enterCall hl).quiet.io c (hsafe l hl)
  | call c =>
    obtain ⟨l, hl, hrun⟩ := bind_eq_some_iff.mp hstep
    exact Quiet.kernelCall (h.enterCall hl) c (hsafe l hl) hrun
  | signalExit heap signum =>
    obtain rfl := some.inj hstep
    refine h.loudExit false (fun p hp tid => awake_signalExit hp signum tid) fun e he => ?_
    simp [ProcessCalls.signalExit, Table.exitCurrentThread, he]
  | forcedThreadExit heap =>
    obtain rfl := some.inj hstep
    exact h.kernelDrops _ (fun tid hd _ hawake => awake_forcedThreadExit hawake) hsafe
  | faultExit heap =>
    obtain rfl := some.inj hstep
    refine h.loudExit true (fun p hp tid => awake_faultExit hp tid) fun e he => ?_
    simp [ProcessCalls.faultExit, Table.exitCurrentProcessGroup, he]
  | watchdogKill heap tgids => exact some.inj hstep ▸ h.watchdogKill tgids
  | table f => exact some.inj hstep ▸ h.idle (by decide) (.onTable f usizeMax w)
  | yieldNow =>
    obtain rfl := some.inj hstep
    exact h.idle (by decide) (.of_kernel usizeMax fun tid hd _ hawake => awake_yieldNow hawake)
  | blockCurrent =>
    obtain rfl := some.inj hstep
    refine (quiet_forget h).idle (by decide) (.of_kernel usizeMax fun tid hd hread hawake => ?_)
    rw [forget_kernel] at hawake ⊢
    exact awake_blockCurrent (forget_current hread) hawake
  | ensureCurrent =>
    obtain rfl := some.inj hstep
    exact h.idle (by decide) (.of_kernel usizeMax fun tid hd _ hawake => awake_ensureCurrent hawake)
  | wake tids =>
    obtain rfl := some.inj hstep
    exact h.idle (by decide)
      (.of_kernel usizeMax fun tid hd _ hawake => isBlocked_wakeTasks hawake tids)
  | wakeAllBlocked => exact some.inj hstep ▸ quiet_wakeAll w

end Steps

def start (hal : HalMemory) (heap : Heap) (entry : UInt64) : World :=
  ⟨boot hal heap entry, ⟨[], []⟩, fun _ => none⟩

inductive Reached (hal : HalMemory) (heap : Heap) (entry : UInt64) : World → Prop where
  | start : Reached hal heap entry (start hal heap entry)
  | step {w w'} (e : Event) : Reached hal heap entry w → e.Safe hal w → e.step hal w = some w' →
      Reached hal heap entry w'

def runEvents (es : List Event) : Option World :=
  es.foldlM (fun w e => e.step CallRuns.board w) (start CallRuns.board noHeap 0)

def view (tid : ℕ) (w : World) : Bool × Option Bool :=
  (w.kernel.scheduler.isBlocked tid, (w.reading tid).map fun h => pollReadReady h w.vfs)

end PipeWakeups
