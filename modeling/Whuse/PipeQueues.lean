import Whuse.PipeObjects

/-! Runs of handle operations. Pipes and socket pairs are made, handles are cloned, dropped,
read and written in any order. Beside the kernel state a run keeps what each direction took in
and gave out. -/
namespace PipeQueues

open MachineWord AddressSpace CountedQueue PipeObjects Function List Option

structure World where
  vfs : Vfs
  handles : List FileHandle
  history : Direction → History UInt8

inductive Event where
  | createPipe
  | createSocketpair
  | clone (i : ℕ)
  | drop (i : ℕ)
  | read (i len : ℕ)
  | write (i : ℕ) (data : List UInt8)

def boot : World := ⟨⟨[], []⟩, [], fun _ => ⟨[], []⟩⟩

def recordRead (d : Option Direction) (r : KernelResult (List UInt8))
    (history : Direction → History UInt8) : Direction → History UInt8 :=
  match d, r with
  | some d, .ok bytes =>
    update history d { history d with returned := (history d).returned ++ bytes }
  | _, _ => history

def recordWrite (d : Option Direction) (data : List UInt8) (r : KernelResult ℕ)
    (history : Direction → History UInt8) : Direction → History UInt8 :=
  match d, r with
  | some d, .ok n =>
    update history d { history d with accepted := (history d).accepted ++ data.take n }
  | _, _ => history

def onHandle (w : World) (i : ℕ) (f : FileHandle → World) : World :=
  match w.handles[i]? with
  | none => w
  | some handle => f handle

def next (w : World) : Event → World
  | .createPipe =>
    let ends := PipeObjects.createPipe w.vfs
    { w with vfs := ends.2, handles := w.handles ++ [ends.1.1, ends.1.2] }
  | .createSocketpair =>
    let ends := PipeObjects.createSocketpair w.vfs
    { w with vfs := ends.2, handles := w.handles ++ [ends.1.1, ends.1.2] }
  | .clone i => onHandle w i fun handle =>
    let copy := cloneHandle handle w.vfs
    { w with vfs := copy.2, handles := w.handles ++ [copy.1] }
  | .drop i => onHandle w i fun handle =>
    { w with vfs := dropHandle handle w.vfs, handles := w.handles.eraseIdx i }
  | .read i len => onHandle w i fun handle =>
    let out := readObject handle len w.vfs
    { w with vfs := out.2, history := recordRead (w.vfs.readsFrom handle) out.1 w.history }
  | .write i data => onHandle w i fun handle =>
    let out := writeObject handle data w.vfs
    { w with vfs := out.2, history := recordWrite (w.vfs.writesTo handle) data out.1 w.history }

/-- A handle is an object in memory, so there are never more of them than addresses. -/
def Fits (w : World) : Prop := w.handles.length < usizeMax

inductive Reachable : World → Prop where
  | boot : Reachable PipeQueues.boot
  | step {w : World} (e : Event) : Reachable w → Fits w → Reachable (next w e)

def readersOf (w : World) (d : Direction) : ℕ :=
  w.handles.countP fun handle => w.vfs.readsFrom handle == some d

def writersOf (w : World) (d : Direction) : ℕ :=
  w.handles.countP fun handle => w.vfs.writesTo handle == some d

/-- A handle of a pipe is at one of its ends. -/
def Proper (v : Vfs) (handle : FileHandle) : Prop :=
  match v.nodes[handle.node]? with
  | none => False
  | some (.pipe _) => handle.pipeEnd ≠ .none
  | some (.socketConnected channel _) => channel < v.channels.length

structure Live (w : World) (d : Direction) (q : Queue UInt8) : Prop where
  readers : q.readers = readersOf w d
  writers : q.writers = writersOf w d
  balanced : (w.history d).Balanced q

structure Sound (w : World) : Prop where
  proper : ∀ handle ∈ w.handles, Proper w.vfs handle
  queues : ∀ d q, w.vfs.queue d = some q → Live w d q
  fresh : ∀ d, w.vfs.queue d = none → w.history d = ⟨[], []⟩

variable {d : Direction} {handle : FileHandle} {v v' : Vfs} {w : World} {i : ℕ}

theorem countP_eraseIdx {l : List FileHandle} (h : l[i]? = some handle) (p : FileHandle → Bool) :
    (l.eraseIdx i).countP p + (p handle).toNat = l.countP p := by
  induction l generalizing i with
  | nil => cases h
  | cons x l ih =>
    cases i with
    | zero =>
      obtain rfl := some.inj h
      cases hp : p x <;> simp [hp]
    | succ i =>
      have := ih (i := i) h
      simp only [eraseIdx_cons_succ, countP_cons]
      omega

theorem Proper.queue_isSome (h : Proper v handle)
    (hd : v.readsFrom handle = some d ∨ v.writesTo handle = some d) : (v.queue d).isSome := by
  unfold Proper at h
  rcases hnode : v.nodes[handle.node]? with _ | data
  · simp [hnode] at h
  cases data with
  | pipe state =>
    have heq : d = .pipe handle.node := by
      rw [(ends_pipe hnode).1, (ends_pipe hnode).2] at hd
      rcases hd with hd | hd <;> split at hd <;> cases hd <;> rfl
    subst heq
    simp [Vfs.queue, hnode]
  | socketConnected channel side =>
    rw [(ends_socket hnode).1, (ends_socket hnode).2] at hd
    simp only [hnode] at h
    rcases hd with hd | hd <;> cases hd <;> simp [Vfs.queue, h]

theorem Proper.same (h : SameNodes v v') (hp : Proper v handle) : Proper v' handle := by
  have hnode := h.nodes handle.node
  have hlen := h.channels
  unfold Proper at hp ⊢
  rcases h₁ : v'.nodes[handle.node]? with _ | (_ | ⟨c', s'⟩) <;>
    rcases h₂ : v.nodes[handle.node]? with _ | (_ | ⟨c, s⟩) <;>
    simp_all [NodeData.channelSide]

theorem adjust_sound (h : Sound w) (up : Bool) {handles : List FileHandle}
    (hold : ∀ other ∈ handles, other ∈ w.handles)
    (hcount : ∀ p : FileHandle → Bool, (if p handle then adjustCount up (w.handles.countP p)
      else w.handles.countP p) = handles.countP p) :
    Sound { w with vfs := adjustPipeRefcount handle up w.vfs, handles } := by
  obtain ⟨hnodes, hqueue⟩ := adjust_spec handle up w.vfs
  refine ⟨fun other hother => (h.proper other (hold other hother)).same hnodes, fun d q hq => ?_,
    fun d hq => ?_⟩
  · simp only [hqueue, Option.map_eq_some_iff] at hq
    obtain ⟨q₀, hq₀, rfl⟩ := hq
    obtain ⟨hr, hw, hbalanced⟩ := h.queues d q₀ hq₀
    refine ⟨?_, ?_, hbalanced⟩
    · simp only [adjustEnds, hr, readersOf, (hnodes.ends _).1]
      exact hcount fun handle => w.vfs.readsFrom handle == some d
    · simp only [adjustEnds, hw, writersOf, (hnodes.ends _).2]
      exact hcount fun handle => w.vfs.writesTo handle == some d
  · simp only [hqueue, Option.map_eq_none_iff] at hq
    exact h.fresh d hq

theorem clone_sound (h : Sound w) (hfits : Fits w) (hi : w.handles[i]? = some handle) :
    Sound { w with vfs := (cloneHandle handle w.vfs).2, handles := w.handles ++ [handle] } := by
  refine adjust_sound h true (fun other hother => ?_) fun p => ?_
  · rcases mem_append.mp hother with hother | hother
    · exact hother
    · rw [mem_singleton.mp hother]
      exact mem_of_getElem? hi
  · have hle : w.handles.countP p ≤ w.handles.length := countP_le_length
    unfold Fits at hfits
    rw [adjustCount, saturatingAdd_of_le (by omega), countP_append, countP_singleton]
    split <;> rfl

theorem drop_sound (h : Sound w) (hi : w.handles[i]? = some handle) :
    Sound { w with vfs := dropHandle handle w.vfs, handles := w.handles.eraseIdx i } := by
  refine adjust_sound h false (fun other => mem_of_mem_eraseIdx) fun p => ?_
  have herase := countP_eraseIdx hi p
  cases hp : p handle <;> simp [hp, adjustCount] at herase ⊢ <;> omega

/-- A change of the contents of one queue, with its history. -/
theorem contents_sound (h : Sound w) (hnodes : SameNodes w.vfs v) {q q' : Queue UInt8}
    (hq : w.vfs.queue d = some q)
    (hqueue : ∀ e, v.queue e = if e = d then some q' else w.vfs.queue e)
    (hreaders : q'.readers = q.readers) (hwriters : q'.writers = q.writers)
    {history : History UInt8} (hbalanced : history.Balanced q') :
    Sound { w with vfs := v, history := update w.history d history } := by
  have hlive : ∀ e, readersOf { w with vfs := v, history := update w.history d history } e =
        readersOf w e ∧
      writersOf { w with vfs := v, history := update w.history d history } e = writersOf w e := by
    intro e
    constructor
    · exact countP_congr fun handle _ => by rw [(hnodes.ends handle).1]
    · exact countP_congr fun handle _ => by rw [(hnodes.ends handle).2]
  refine ⟨fun other hother => (h.proper other hother).same hnodes, fun e p hp => ?_, fun e hp => ?_⟩
  · obtain ⟨hr, hw⟩ := hlive e
    rw [hqueue] at hp
    split at hp
    · next heq =>
      subst heq
      cases hp
      obtain ⟨hr₀, hw₀, -⟩ := h.queues e q hq
      refine ⟨hreaders.trans (hr₀.trans hr.symm), hwriters.trans (hw₀.trans hw.symm), ?_⟩
      simpa using hbalanced
    · next hne =>
      obtain ⟨hr₀, hw₀, hold⟩ := h.queues e p hp
      exact ⟨hr₀.trans hr.symm, hw₀.trans hw.symm, by simpa [hne] using hold⟩
  · rw [hqueue] at hp
    split at hp
    · cases hp
    · next hne =>
      exact (update_of_ne hne history w.history).trans (h.fresh e hp)

/-- A handle that reads nothing is the writing end of a pipe. -/
theorem Proper.end_of_none (h : Proper v handle) :
    (v.readsFrom handle = none → ∀ len, readObject handle len v = (.error einval, v)) ∧
      (v.writesTo handle = none → ∀ data, writeObject handle data v = (.error einval, v)) := by
  unfold Proper at h
  rcases hnode : v.nodes[handle.node]? with _ | data
  · simp [hnode] at h
  cases data with
  | pipe state =>
    simp only [hnode] at h
    rw [(ends_pipe hnode).1, (ends_pipe hnode).2]
    cases hend : handle.pipeEnd with
    | none => exact absurd hend h
    | read => simp [writeObject, hnode, hend]
    | write => simp [readObject, hnode, hend]
  | socketConnected channel side =>
    rw [(ends_socket hnode).1, (ends_socket hnode).2]
    exact ⟨fun hnone => absurd hnone (by simp), fun hnone => absurd hnone (by simp)⟩

theorem read_sound (h : Sound w) (hmem : handle ∈ w.handles) (len : ℕ) : Sound { w with
      vfs := (readObject handle len w.vfs).2
      history := recordRead (w.vfs.readsFrom handle) (readObject handle len w.vfs).1 w.history } := by
  have hproper := h.proper handle hmem
  rcases hd : w.vfs.readsFrom handle with _ | d
  · rw [hproper.end_of_none.1 hd len]
    exact h
  obtain ⟨q, hq⟩ := Option.isSome_iff_exists.mp (hproper.queue_isSome (.inl hd))
  obtain ⟨hresult, hnodes, hqueue⟩ := read_spec hd hq len
  have hbalanced := (h.queues d q hq).balanced.read len
  have hsound := contents_sound h hnodes hq hqueue rfl rfl hbalanced
  rw [hresult]
  cases hans : q.readAnswer len with
  | data bytes =>
    rw [(Queue.readAnswer_data.mp hans).2]
    exact hsound
  | closed =>
    have hbuf := (Queue.readAnswer_closed.mp hans).1
    rw [hbuf, take_nil] at hsound
    exact hsound
  | wait =>
    have hbuf := (Queue.readAnswer_wait.mp hans).1
    rw [hbuf, take_nil, append_nil, update_eq_self] at hsound
    exact hsound

theorem write_sound (h : Sound w) (hmem : handle ∈ w.handles) (data : List UInt8) : Sound { w with
      vfs := (writeObject handle data w.vfs).2
      history :=
        recordWrite (w.vfs.writesTo handle) data (writeObject handle data w.vfs).1 w.history } := by
  have hproper := h.proper handle hmem
  rcases hd : w.vfs.writesTo handle with _ | d
  · rw [hproper.end_of_none.2 hd data]
    exact h
  obtain ⟨q, hq⟩ := Option.isSome_iff_exists.mp (hproper.queue_isSome (.inr hd))
  have hkeep : ∀ v, SameNodes w.vfs v → (∀ e, v.queue e = w.vfs.queue e) →
      Sound { w with vfs := v } := by
    intro v hnodes hqueue
    have hsame : ∀ e, v.queue e = if e = d then some q else w.vfs.queue e := by
      intro e
      rw [hqueue]
      split
      · next heq => rw [heq, hq]
      · rfl
    have hsound := contents_sound h hnodes hq hsame rfl rfl (h.queues d q hq).balanced
    rwa [update_eq_self] at hsound
  by_cases hdata : data = []
  · subst hdata
    obtain ⟨hnodes, hqueue⟩ := write_nil_spec handle w.vfs
    have hhistory : ∀ r, recordWrite (some d) [] r w.history = w.history := by
      intro r
      cases r <;> simp [recordWrite]
    rw [hhistory]
    exact hkeep _ hnodes hqueue
  · obtain ⟨hresult, hnodes, hqueue⟩ := write_spec hd hq hdata
    rw [hresult]
    rcases hacc : q.accepts with _ | _
    · simp only [hacc, Bool.false_eq_true, and_false] at hqueue
      exact hkeep _ hnodes hqueue
    have hbalanced := (h.queues d q hq).balanced.write data
    simp only [hacc, and_true] at hqueue
    have hsound := contents_sound h hnodes hq hqueue rfl rfl hbalanced
    simpa [recordWrite] using hsound

structure Extends (v v' : Vfs) : Prop where
  nodes : ∃ more, v'.nodes = v.nodes ++ more
  channels : ∃ more, v'.channels = v.channels ++ more

theorem Extends.proper (h : Extends v v') (hp : Proper v handle) :
    Proper v' handle ∧ v'.readsFrom handle = v.readsFrom handle ∧
      v'.writesTo handle = v.writesTo handle := by
  obtain ⟨moreNodes, hnodes⟩ := h.nodes
  obtain ⟨moreChannels, hchannels⟩ := h.channels
  unfold Proper at hp
  rcases hnode : v.nodes[handle.node]? with _ | data
  · simp [hnode] at hp
  have hlt := (List.getElem?_eq_some_iff.mp hnode).1
  have hnode' : v'.nodes[handle.node]? = some data := by
    rw [hnodes, getElem?_append_left hlt, hnode]
  refine ⟨?_, by simp [Vfs.readsFrom, hnode, hnode'], by simp [Vfs.writesTo, hnode, hnode']⟩
  unfold Proper
  rw [hnode']
  rcases data with state | ⟨channel, side⟩
  · simpa [hnode] using hp
  simp only [hnode, hchannels, length_append] at hp ⊢
  omega

theorem Extends.queue (h : Extends v v') (hq : (v.queue d).isSome) : v'.queue d = v.queue d := by
  obtain ⟨moreNodes, hnodes⟩ := h.nodes
  obtain ⟨moreChannels, hchannels⟩ := h.channels
  cases d with
  | pipe node =>
    rcases hnode : v.nodes[node]? with _ | data
    · simp [Vfs.queue, hnode] at hq
    have hlt := (List.getElem?_eq_some_iff.mp hnode).1
    simp [Vfs.queue, hnodes, getElem?_append_left hlt]
  | socket channel side =>
    rcases hc : v.channels[channel]? with _ | c
    · simp [Vfs.queue, hc] at hq
    have hlt := (List.getElem?_eq_some_iff.mp hc).1
    simp [Vfs.queue, hchannels, getElem?_append_left hlt]

theorem create_sound (h : Sound w) (hext : Extends w.vfs v) {a b : FileHandle} (ha : Proper v a)
    (hb : Proper v b)
    (hnew : ∀ d, w.vfs.queue d = none → ∀ q, v.queue d = some q → q = ⟨[], 1, 1⟩ ∧
      [a, b].countP (fun handle => v.readsFrom handle == some d) = 1 ∧
      [a, b].countP (fun handle => v.writesTo handle == some d) = 1)
    (hold : ∀ d, (w.vfs.queue d).isSome →
      [a, b].countP (fun handle => v.readsFrom handle == some d) = 0 ∧
      [a, b].countP (fun handle => v.writesTo handle == some d) = 0) :
    Sound { w with vfs := v, handles := w.handles ++ [a, b] } := by
  have hread : ∀ d, readersOf { w with vfs := v, handles := w.handles ++ [a, b] } d =
      readersOf w d + [a, b].countP (fun handle => v.readsFrom handle == some d) := by
    intro d
    rw [readersOf, countP_append, readersOf, countP_congr fun handle hmem => by
      rw [(hext.proper (h.proper handle hmem)).2.1]]
  have hwrite : ∀ d, writersOf { w with vfs := v, handles := w.handles ++ [a, b] } d =
      writersOf w d + [a, b].countP (fun handle => v.writesTo handle == some d) := by
    intro d
    rw [writersOf, countP_append, writersOf, countP_congr fun handle hmem => by
      rw [(hext.proper (h.proper handle hmem)).2.2]]
  -- no handle there was is at a direction that was not there
  have hnone : ∀ d, w.vfs.queue d = none → readersOf w d = 0 ∧ writersOf w d = 0 := by
    intro d hd
    constructor
    · refine countP_eq_zero.mpr fun handle hmem hr => ?_
      have := (h.proper handle hmem).queue_isSome (.inl (beq_iff_eq.mp hr))
      simp [hd] at this
    · refine countP_eq_zero.mpr fun handle hmem hr => ?_
      have := (h.proper handle hmem).queue_isSome (.inr (beq_iff_eq.mp hr))
      simp [hd] at this
  refine ⟨fun handle hmem => ?_, fun d q hq => ?_, fun d hq => ?_⟩
  · simp only [mem_append, mem_cons, not_mem_nil, or_false] at hmem
    rcases hmem with hmem | rfl | rfl
    · exact (hext.proper (h.proper handle hmem)).1
    · exact ha
    · exact hb
  · rcases hd : w.vfs.queue d with _ | q₀
    · obtain ⟨rfl, hr, hw⟩ := hnew d hd q hq
      refine ⟨?_, ?_, by simp [h.fresh d hd, History.Balanced]⟩
      · rw [hread, (hnone d hd).1, hr]
      · rw [hwrite, (hnone d hd).2, hw]
    have hsome : (w.vfs.queue d).isSome := by rw [hd]; rfl
    rw [hext.queue hsome] at hq
    obtain ⟨hr, hw, hbalanced⟩ := h.queues d q hq
    refine ⟨?_, ?_, hbalanced⟩
    · rw [hread, (hold d hsome).1, hr, Nat.add_zero]
    · rw [hwrite, (hold d hsome).2, hw, Nat.add_zero]
  · rcases hd : w.vfs.queue d with _ | q₀
    · exact h.fresh d hd
    have hsome : (w.vfs.queue d).isSome := by rw [hd]; rfl
    rw [← hext.queue hsome] at hd
    exact absurd (hd.symm.trans hq) (by simp)

theorem createPipe_sound (h : Sound w) : Sound (next w .createPipe) := by
  have hfresh : w.vfs.queue (.pipe w.vfs.nodes.length) = none := by simp [Vfs.queue]
  have hext : Extends w.vfs (PipeObjects.createPipe w.vfs).2 :=
    ⟨⟨_, rfl⟩, ⟨[], by simp [PipeObjects.createPipe]⟩⟩
  refine create_sound h hext ?_ ?_ (fun d hd q hq => ?_) (fun d hd => ?_)
  · simp [Proper, PipeObjects.createPipe]
  · simp [Proper, PipeObjects.createPipe]
  · rw [createPipe_queue, hd] at hq
    split at hq
    · next heq =>
      subst heq
      obtain rfl := some.inj hq
      simp [PipeObjects.createPipe, Vfs.readsFrom, Vfs.writesTo]
    · cases hq
  · have hne : Direction.pipe w.vfs.nodes.length ≠ d := by
      rintro rfl
      simp [hfresh] at hd
    simp [PipeObjects.createPipe, Vfs.readsFrom, Vfs.writesTo, hne]

theorem createSocketpair_sound (h : Sound w) : Sound (next w .createSocketpair) := by
  have hfresh : ∀ side, w.vfs.queue (.socket w.vfs.channels.length side) = none := by
    simp [Vfs.queue]
  have hext : Extends w.vfs (PipeObjects.createSocketpair w.vfs).2 := ⟨⟨_, rfl⟩, ⟨_, rfl⟩⟩
  refine create_sound h hext ?_ ?_ (fun d hd q hq => ?_) (fun d hd => ?_)
  · simp [Proper, PipeObjects.createSocketpair]
  · simp [Proper, PipeObjects.createSocketpair]
  · rw [createSocketpair_queue] at hq
    rcases d with node | ⟨channel, side⟩
    · exact absurd (hd.symm.trans hq) (by simp)
    simp only [hd] at hq
    split at hq
    · next heq =>
      subst heq
      obtain rfl := some.inj hq
      rcases side_cases 0 side with rfl | rfl <;>
        simp [PipeObjects.createSocketpair, Vfs.readsFrom, Vfs.writesTo]
    · cases hq
  · have hne : ∀ side, Direction.socket w.vfs.channels.length side ≠ d := by
      rintro side rfl
      simp [hfresh] at hd
    simp [PipeObjects.createSocketpair, Vfs.readsFrom, Vfs.writesTo, hne]

theorem boot_sound : Sound boot := by
  have hqueue : ∀ d, boot.vfs.queue d = none := by
    intro d
    cases d <;> rfl
  refine ⟨fun handle hmem => absurd hmem not_mem_nil, fun d q hq => ?_, fun d _ => rfl⟩
  rw [hqueue] at hq
  cases hq

theorem next_sound (h : Sound w) (hfits : Fits w) (e : Event) : Sound (next w e) := by
  have hon : ∀ i f, (∀ handle, w.handles[i]? = some handle → Sound (f handle)) →
      Sound (onHandle w i f) := by
    intro i f hf
    unfold onHandle
    split
    · exact h
    · next handle hi => exact hf handle hi
  cases e with
  | createPipe => exact createPipe_sound h
  | createSocketpair => exact createSocketpair_sound h
  | clone i => exact hon i _ fun handle hi => clone_sound h hfits hi
  | drop i => exact hon i _ fun handle hi => drop_sound h hi
  | read i len => exact hon i _ fun handle hi => read_sound h (mem_of_getElem? hi) len
  | write i data => exact hon i _ fun handle hi => write_sound h (mem_of_getElem? hi) data

theorem reachable_sound (h : Reachable w) : Sound w := by
  induction h with
  | boot => exact boot_sound
  | step e _ hfits ih => exact next_sound ih hfits e

/-- Every direction of every pipe and pair is a first-in first-out queue counting its live
handles. -/
theorem counted_fifos {w : World} (h : Reachable w) {d : Direction} {q : Queue UInt8}
    (hq : w.vfs.queue d = some q) :
    (w.history d).returned <+: (w.history d).accepted ∧
      (w.history d).accepted = (w.history d).returned ++ q.buf ∧
      q.readers = readersOf w d ∧ q.writers = writersOf w d ∧
      (∀ handle ∈ w.handles, w.vfs.readsFrom handle = some d → ∀ len, 0 < len →
        ((readObject handle len w.vfs).1 = .ok [] ↔ q.buf = [] ∧ writersOf w d = 0) ∧
        ((readObject handle len w.vfs).1 = .error eagain ↔ q.buf = [] ∧ writersOf w d ≠ 0)) ∧
      (∀ handle ∈ w.handles, w.vfs.writesTo handle = some d → ∀ data, data ≠ [] →
        ((writeObject handle data w.vfs).1 = .error epipe ↔ readersOf w d = 0)) := by
  obtain ⟨hreaders, hwriters, hbalanced⟩ := (reachable_sound h).queues d q hq
  refine ⟨hbalanced.isPrefix, hbalanced, hreaders, hwriters,
    fun handle _ hd len hlen => ?_, fun handle _ hd data hdata => ?_⟩
  · rw [(read_spec hd hq len).1, ← hwriters]
    refine ⟨?_, ?_⟩
    · rw [← Queue.readAnswer_closed (n := len)]
      cases hans : q.readAnswer len with
      | data bytes =>
        obtain ⟨hne, rfl⟩ := Queue.readAnswer_data.mp hans
        simp [readResult, hne, Nat.ne_of_gt hlen]
      | closed => simp [readResult]
      | wait => simp [readResult]
    · rw [← Queue.readAnswer_wait (n := len)]
      cases q.readAnswer len <;> simp [readResult]
  · rw [(write_spec hd hq hdata).1, ← hreaders]
    by_cases hr : q.readers = 0 <;> simp [Queue.accepts]

/-- A pipe, a byte through it, and its writing end closed. -/
theorem counted_fifos_closed_pipe :
    let w := next (next (next (next boot .createPipe) (.write 1 [7])) (.read 0 4)) (.drop 1)
    (w.history (.pipe 0)).returned = [7] ∧ writersOf w (.pipe 0) = 0 ∧
      (readObject ⟨0, oRdonly, .read⟩ 1 w.vfs).1 = .ok [] := by
  have hfits : ∀ w : World, w.handles.length ≤ 2 → Fits w := by
    intro w hw
    unfold Fits usizeMax
    omega
  have hreach : Reachable
      (next (next (next (next boot .createPipe) (.write 1 [7])) (.read 0 4)) (.drop 1)) := by
    refine .step _ (.step _ (.step _ (.step _ .boot ?_) ?_) ?_) ?_ <;>
      exact hfits _ (by decide)
  have hall := counted_fifos hreach (d := .pipe 0) (q := ⟨[], 1, 0⟩) rfl
  have hwriters : writersOf _ (.pipe 0) = 0 := hall.2.2.2.1.symm
  refine ⟨rfl, hwriters, ?_⟩
  refine ((hall.2.2.2.2.1 ⟨0, oRdonly, .read⟩ ?_ rfl 1 (by decide)).1).mpr ⟨rfl, hwriters⟩
  decide

end PipeQueues
