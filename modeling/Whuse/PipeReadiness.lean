import Whuse.PipeCalls

/-! Which handles an operation on pipes and sockets can make readable. -/
namespace PipeReadiness

open MachineWord AddressSpace CountedQueue PipeObjects PipeCalls List

def ready (q : Queue UInt8) : Bool := !q.buf.isEmpty || q.writers == 0

def listens (v : Vfs) (h : FileHandle) : Option Direction :=
  match v.nodes[h.node]? with
  | none => none
  | some (.pipe _) => some (.pipe h.node)
  | some (.socketConnected channel side) => some (.socket channel side)

def feeds (v : Vfs) (h : FileHandle) : Option Direction :=
  match v.nodes[h.node]? with
  | none => none
  | some (.pipe _) => if h.pipeEnd = .read then none else some (.pipe h.node)
  | some (.socketConnected channel side) => some (.socket channel (1 - side))

variable {h : FileHandle} {v v' : Vfs} {q : Queue UInt8}

theorem pollReadReady_iff :
    pollReadReady h v = true ↔ ∃ d q, listens v h = some d ∧ v.queue d = some q ∧ ready q = true := by
  unfold pollReadReady listens
  rcases hnode : v.nodes[h.node]? with _ | data
  · simp
  rcases data with state | ⟨channel, side⟩
  · simp [Vfs.queue, hnode, ready]
  simp only [Vfs.queue]
  cases hc : v.channels[channel]? with
  | none => simp [hc]
  | some c => simp [hc, ready]

theorem listens_same (h : SameNodes v v') (hd : FileHandle) : listens v' hd = listens v hd := by
  have hnode := h.nodes hd.node
  unfold listens
  rcases h₁ : v'.nodes[hd.node]? with _ | (_ | ⟨c', s'⟩) <;>
    rcases h₂ : v.nodes[hd.node]? with _ | (_ | ⟨c, s⟩) <;>
    simp_all [NodeData.channelSide]

theorem feeds_same (h : SameNodes v v') (hd : FileHandle) : feeds v' hd = feeds v hd := by
  have hnode := h.nodes hd.node
  unfold feeds
  rcases h₁ : v'.nodes[hd.node]? with _ | (_ | ⟨c', s'⟩) <;>
    rcases h₂ : v.nodes[hd.node]? with _ | (_ | ⟨c, s⟩) <;>
    simp_all [NodeData.channelSide]

/-- Only handles on these directions may become readable. -/
def RousesOnly (v v' : Vfs) (D : Direction → Prop) : Prop :=
  ∀ h, pollReadReady h v = false → pollReadReady h v' = true → ∃ d, listens v h = some d ∧ D d

/-- The same nodes; bytes come only into some directions, and at most so many writers go, counted
up to a cap because the counters saturate. -/
structure Pours (cap : ℕ) (v v' : Vfs) (filled : Direction → Prop) (gone : Direction → ℕ) :
    Prop where
  nodes : SameNodes v v'
  queues : ∀ d q', v'.queue d = some q' → ∃ q, v.queue d = some q ∧
    (q'.buf ≠ [] → q.buf ≠ [] ∨ filled d) ∧ min q.writers cap ≤ q'.writers + gone d

theorem ready_eq_false : ready q = false ↔ q.buf = [] ∧ q.writers ≠ 0 := by
  simp [ready]

theorem ready_eq_true : ready q = true ↔ q.buf ≠ [] ∨ q.writers = 0 := by
  unfold ready
  cases q.buf <;> simp

namespace Pours

variable {cap cap' : ℕ} {v'' : Vfs} {filled filled' : Direction → Prop} {gone gone' : Direction → ℕ}

theorem rouses (h : Pours cap v v' filled gone) :
    RousesOnly v v' fun d => filled d ∨ ∃ q, v.queue d = some q ∧ q.writers ≠ 0 ∧
      min q.writers cap ≤ gone d := by
  intro hd hfalse htrue
  obtain ⟨d, q', hd', hq', hready⟩ := pollReadReady_iff.mp htrue
  rw [listens_same h.nodes] at hd'
  obtain ⟨q, hq, hbuf, hwriters⟩ := h.queues d q' hq'
  have hbefore : ready q = false := by
    by_contra hne
    rw [Bool.not_eq_false] at hne
    rw [pollReadReady_iff.mpr ⟨d, q, hd', hq, hne⟩] at hfalse
    cases hfalse
  obtain ⟨hempty, hsome⟩ := ready_eq_false.mp hbefore
  refine ⟨d, hd', ?_⟩
  rcases ready_eq_true.mp hready with hfull | hnone
  · exact .inl ((hbuf hfull).resolve_left fun hne => hne hempty)
  · exact .inr ⟨q, hq, hsome, by omega⟩

theorem refl (cap : ℕ) (v : Vfs) (gone : Direction → ℕ) : Pours cap v v filled gone :=
  ⟨.refl v, fun d q hq => ⟨q, hq, .inl, by omega⟩⟩

theorem trans (h : Pours cap v v' filled gone) (h' : Pours cap v' v'' filled gone') :
    Pours cap v v'' filled fun d => gone d + gone' d := by
  refine ⟨h.nodes.trans h'.nodes, fun d q'' hq'' => ?_⟩
  obtain ⟨q', hq', hbuf', hwriters'⟩ := h'.queues d q'' hq''
  obtain ⟨q, hq, hbuf, hwriters⟩ := h.queues d q' hq'
  exact ⟨q, hq, fun hne => (hbuf' hne).elim hbuf .inr, by omega⟩

theorem mono (h : Pours cap v v' filled gone) (hcap : cap' ≤ cap) (hgone : ∀ d, gone d ≤ gone' d) :
    Pours cap' v v' filled gone' := by
  refine ⟨h.nodes, fun d q' hq' => ?_⟩
  obtain ⟨q, hq, hbuf, hwriters⟩ := h.queues d q' hq'
  have hle := hgone d
  exact ⟨q, hq, hbuf, by omega⟩

theorem fills (h : Pours cap v v' filled gone) (hfilled : ∀ d, filled d → filled' d) :
    Pours cap v v' filled' gone :=
  ⟨h.nodes, fun d q' hq' => (h.queues d q' hq').imp fun _ hq =>
    ⟨hq.1, fun hne => (hq.2.1 hne).imp id (hfilled d), hq.2.2⟩⟩

end Pours

variable {filled : Direction → Prop}

theorem adjustCount_up_ge (n : ℕ) : min (n + 1) usizeMax ≤ adjustCount true n := by
  unfold adjustCount saturatingAdd
  simp

theorem queue_adjust {up : Bool} {d : Direction} {q' : Queue UInt8}
    (hq' : (adjustPipeRefcount h up v).queue d = some q') :
    ∃ q, v.queue d = some q ∧ q'.buf = q.buf ∧
      q'.writers = if v.writesTo h = some d then adjustCount up q.writers else q.writers := by
  rw [(adjust_spec h up v).2 d] at hq'
  obtain ⟨q, hq, rfl⟩ := Option.map_eq_some_iff.mp hq'
  refine ⟨q, hq, rfl, ?_⟩
  simp [adjustEnds]

theorem clone_nodes (h : FileHandle) (v : Vfs) : SameNodes v (cloneHandle h v).2 :=
  (adjust_spec h true v).1

theorem pours_clone (cap : ℕ) (hcap : cap ≤ usizeMax) (h : FileHandle) (v : Vfs) :
    Pours cap v (cloneHandle h v).2 filled fun _ => 0 := by
  refine ⟨clone_nodes h v, fun d q' hq' => ?_⟩
  obtain ⟨q, hq, hbuf, hwriters⟩ := queue_adjust hq'
  refine ⟨q, hq, fun hne => .inl (hbuf ▸ hne), ?_⟩
  have hup := adjustCount_up_ge q.writers
  rw [hwriters]
  split <;> omega

/-- How many of the handles write to a direction. -/
def writersAmong (v : Vfs) (hs : List FileHandle) (d : Direction) : ℕ :=
  (hs.filter fun h => v.writesTo h == some d).length

theorem writersAmong_cons (v : Vfs) (h : FileHandle) (hs : List FileHandle) (d : Direction) :
    writersAmong v (h :: hs) d = writersAmong v hs d + if v.writesTo h = some d then 1 else 0 := by
  unfold writersAmong
  by_cases hd : v.writesTo h = some d <;> simp [hd]

theorem writersAmong_same (hn : SameNodes v v') (hs : List FileHandle) (d : Direction) :
    writersAmong v' hs d = writersAmong v hs d := by
  unfold writersAmong
  congr 2
  funext h
  rw [(hn.ends h).2]

theorem pours_drop (cap : ℕ) (h : FileHandle) (v : Vfs) :
    Pours cap v (dropHandle h v) filled (writersAmong v [h]) := by
  refine ⟨(adjust_spec h false v).1, fun d q' hq' => ?_⟩
  obtain ⟨q, hq, hbuf, hwriters⟩ := queue_adjust hq'
  refine ⟨q, hq, fun hne => .inl (hbuf ▸ hne), ?_⟩
  rw [hwriters, writersAmong_cons]
  simp only [adjustCount, Bool.false_eq_true, if_false]
  split <;> omega

theorem pours_dropAll (cap : ℕ) (hs : List FileHandle) (v : Vfs) :
    Pours cap v (dropAll hs v) filled (writersAmong v hs) := by
  induction hs generalizing v with
  | nil => exact .refl cap v _
  | cons h hs ih =>
    have hone : Pours cap v _ filled _ := pours_drop cap h v
    refine (hone.trans (ih (dropHandle h v))).mono le_rfl fun d => ?_
    rw [writersAmong_same hone.nodes, writersAmong_cons, writersAmong_cons]
    simp only [writersAmong, filter_nil, length_nil]
    omega

theorem pours_cloneAll (hs : List FileHandle) (v : Vfs) :
    Pours usizeMax v (cloneAll hs v) filled fun _ => 0 := by
  induction hs generalizing v with
  | nil => exact .refl _ v _
  | cons h hs ih => exact (pours_clone usizeMax le_rfl h v).trans (ih _)

theorem pours_withClone {cap : ℕ} (hcap : cap ≤ usizeMax)
    (hbody : Pours cap (cloneHandle h v).2 v' filled fun _ => 0) :
    Pours (cap - 1) v (dropHandle h v') filled fun _ => 0 := by
  have hnodes := (clone_nodes h v).trans hbody.nodes
  refine ⟨hnodes.trans (adjust_spec h false v').1, fun d q₃ hq₃ => ?_⟩
  obtain ⟨q₂, hq₂, hbuf₂, hwriters₂⟩ := queue_adjust hq₃
  obtain ⟨q₁, hq₁, hbuf₁, hwriters₁⟩ := hbody.queues d q₂ hq₂
  obtain ⟨q, hq, hbuf, hwriters⟩ := queue_adjust hq₁
  refine ⟨q, hq, fun hne => ?_, ?_⟩
  · rw [← hbuf]
    exact hbuf₁ (hbuf₂ ▸ hne)
  · rw [(hnodes.ends h).2] at hwriters₂
    have hup := adjustCount_up_ge q.writers
    by_cases hw : v.writesTo h = some d
    · rw [if_pos hw] at hwriters hwriters₂
      have hdown : adjustCount false q₂.writers = q₂.writers - 1 := rfl
      omega
    · rw [if_neg hw] at hwriters hwriters₂
      omega

/-- A read takes from the queue that the handle listens to, or is refused before that. -/
theorem readObject_cases (h : FileHandle) (len : ℕ) (v : Vfs) :
    readObject h len v = (.error einval, v) ∨
    ∃ d q, listens v h = some d ∧ v.queue d = some q ∧
      (readObject h len v).1 = readResult (q.readAnswer len) ∧
      SameNodes v (readObject h len v).2 ∧
      ∀ e, (readObject h len v).2.queue e = if e = d then some (q.afterRead len) else v.queue e := by
  rcases hnode : v.nodes[h.node]? with _ | node
  · exact .inl (by simp only [readObject, hnode])
  cases node with
  | pipe state =>
    by_cases hend : h.pipeEnd = .write
    · exact .inl (by simp only [readObject, hnode, if_pos hend])
    have hread : readObject h len v = readObject { h with pipeEnd := .read } len v := by
      simp [readObject, hnode, hend]
    have hq : v.queue (.pipe h.node) = some ⟨state.buf, state.readers, state.writers⟩ := by
      simp only [Vfs.queue, hnode]
    rw [hread]
    exact .inr ⟨_, _, by simp only [listens, hnode], hq,
      read_spec (by simp only [Vfs.readsFrom, hnode, if_true]) hq len⟩
  | socketConnected channel side =>
    rcases hc : v.channels[channel]? with _ | c
    · exact .inl (by simp only [readObject, hnode, hc])
    have hq : v.queue (.socket channel side) =
        some ⟨c.inbox side, c.openSides side, c.openSides (1 - side)⟩ := by
      simp only [Vfs.queue, hc, Option.map_some]
    exact .inr ⟨_, _, by simp only [listens, hnode], hq, read_spec (ends_socket hnode).1 hq len⟩

theorem writeObject_cases {data : List UInt8} (hdata : data ≠ []) (h : FileHandle) (v : Vfs) :
    writeObject h data v = (.error einval, v) ∨
    ∃ d q, feeds v h = some d ∧ v.queue d = some q ∧
      (writeObject h data v).1 = (if q.accepts then .ok data.length else .error epipe) ∧
      SameNodes v (writeObject h data v).2 ∧
      ∀ e, (writeObject h data v).2.queue e =
        if e = d ∧ q.accepts then some (q.afterWrite data) else v.queue e := by
  rcases hnode : v.nodes[h.node]? with _ | node
  · exact .inl (by simp [writeObject, hnode])
  cases node with
  | pipe state =>
    by_cases hend : h.pipeEnd = .read
    · exact .inl (by simp [writeObject, hnode, if_pos hend])
    have hwrite : writeObject h data v = writeObject { h with pipeEnd := .write } data v := by
      simp [writeObject, hend]
    have hq : v.queue (.pipe h.node) = some ⟨state.buf, state.readers, state.writers⟩ := by
      simp [Vfs.queue, hnode]
    rw [hwrite]
    exact .inr ⟨_, _, by simp only [feeds, hnode, if_neg hend], hq,
      write_spec (by simp only [Vfs.writesTo, hnode, if_true]) hq hdata⟩
  | socketConnected channel side =>
    rcases hc : v.channels[channel]? with _ | c
    · exact .inl (by simp [writeObject, hnode, hc])
    have hq : v.queue (.socket channel (1 - side)) = some
        ⟨c.inbox (1 - side), c.openSides (1 - side), c.openSides (1 - (1 - side))⟩ := by
      simp [Vfs.queue, hc]
    exact .inr ⟨_, _, by simp only [feeds, hnode], hq, write_spec (ends_socket hnode).2 hq hdata⟩

/-- A read that finds nothing leaves the handle not readable. -/
theorem readObject_spec (h : FileHandle) (len : ℕ) (v : Vfs) :
    Pours usizeMax v (readObject h len v).2 filled (fun _ => 0) ∧
      ((readObject h len v).1 = .error PipeObjects.eagain →
        pollReadReady h (readObject h len v).2 = false) := by
  rcases readObject_cases h len v with he | ⟨d, q, hd, hq, hanswer, hnodes, hqueues⟩
  · rw [he]
    exact ⟨.refl _ v _, fun heq => absurd (Except.error.inj heq) (by decide)⟩
  refine ⟨⟨hnodes, fun e q' hq' => ?_⟩, fun hwait => ?_⟩
  · rw [hqueues] at hq'
    split at hq'
    · next heq =>
      cases hq'
      refine ⟨q, heq ▸ hq, fun hne => .inl fun hnil => hne ?_, Nat.min_le_left _ _⟩
      rw [Queue.afterRead, hnil, drop_nil]
    · exact ⟨q', hq', .inl, by omega⟩
  · have hempty : q.buf = [] ∧ q.writers ≠ 0 := by
      rw [hanswer] at hwait
      cases ha : q.readAnswer len with
      | data bytes => rw [ha] at hwait; cases hwait
      | closed => rw [ha] at hwait; cases hwait
      | wait => exact Queue.readAnswer_wait.mp ha
    by_contra hready
    obtain ⟨d', q', hd', hq', hr⟩ := pollReadReady_iff.mp (Bool.of_not_eq_false hready)
    rw [listens_same hnodes, hd] at hd'
    cases hd'
    rw [hqueues, if_pos rfl] at hq'
    cases hq'
    simp [ready, Queue.afterRead, hempty] at hr

theorem writeObject_spec (h : FileHandle) (data : List UInt8) (v : Vfs) :
    Pours usizeMax v (writeObject h data v).2
      (fun d => data ≠ [] ∧ feeds v h = some d ∧ (writeObject h data v).1 = .ok data.length)
      fun _ => 0 := by
  by_cases hdata : data = []
  · subst hdata
    obtain ⟨hnodes, hqueues⟩ := write_nil_spec h v
    exact ⟨hnodes, fun d q' hq' => ⟨q', (hqueues d).symm.trans hq', .inl, by omega⟩⟩
  rcases writeObject_cases hdata h v with he | ⟨d, q, hd, hq, hanswer, hnodes, hqueues⟩
  · rw [he]
    exact .refl _ v _
  refine ⟨hnodes, fun e q' hq' => ?_⟩
  rw [hqueues] at hq'
  split at hq'
  · next hin =>
    cases hq'
    refine ⟨q, hin.1 ▸ hq, fun _ => .inr ⟨hdata, hin.1 ▸ hd, ?_⟩, Nat.min_le_left _ _⟩
    rw [hanswer, if_pos hin.2]
  · exact ⟨q', hq', .inl, by omega⟩

theorem pours_vfsRead (files : OtherFiles) (h : FileHandle) (len : ℕ) (v : Vfs) :
    Pours usizeMax v (vfsRead files h len v).2 filled fun _ => 0 := by
  unfold vfsRead
  split
  · exact (readObject_spec h len v).1
  · exact .refl _ v _

theorem vfsRead_waits {files : OtherFiles} {len : ℕ}
    (hread : vfsRead files h len v = (.error PipeObjects.eagain, v')) :
    pollReadReady h v' = false := by
  unfold vfsRead at hread
  split at hread
  · obtain ⟨-, hspec⟩ := @readObject_spec (fun _ => False) h len v
    rw [hread] at hspec
    exact hspec rfl
  · next hknown =>
    obtain rfl : v = v' := congrArg Prod.snd hread
    cases hnode : v.nodes[h.node]? with
    | some node => simp [known, hnode] at hknown
    | none => simp [pollReadReady, hnode]

theorem pours_vfsWrite (files : OtherFiles) (h : FileHandle) (data : List UInt8) (v : Vfs) :
    Pours usizeMax v (vfsWrite files h data v).2
      (fun d => data ≠ [] ∧ feeds v h = some d ∧ (vfsWrite files h data v).1 = .ok data.length)
      fun _ => 0 := by
  unfold vfsWrite
  split
  · exact writeObject_spec h data v
  · exact .refl _ v _

theorem pollReadReady_createPipe (h : FileHandle) (v : Vfs) :
    pollReadReady h (createPipe v).2 = pollReadReady h v := by
  unfold pollReadReady createPipe
  rcases Nat.lt_trichotomy h.node v.nodes.length with hlt | heq | hgt
  · simp [getElem?_append_left hlt]
  · simp [heq]
  · simp only [getElem?_eq_none (show v.nodes.length ≤ h.node by omega)]
    rw [getElem?_eq_none (by simp; omega)]

theorem pollReadReady_createSocketpair (h : FileHandle) (v : Vfs) :
    pollReadReady h (createSocketpair v).2 = pollReadReady h v := by
  unfold pollReadReady createSocketpair
  rcases Nat.lt_or_ge h.node v.nodes.length with hlt | hge
  · simp only [getElem?_append_left hlt]
    rcases v.nodes[h.node]? with _ | node
    · rfl
    rcases node with state | ⟨channel, side⟩
    · rfl
    rcases Nat.lt_trichotomy channel v.channels.length with hlt | heq | hgt
    · simp [getElem?_append_left hlt]
    · simp [heq]
    · simp only [getElem?_eq_none (show v.channels.length ≤ channel by omega)]
      rw [getElem?_eq_none (by simp; omega)]
  · obtain ⟨k, hk⟩ := Nat.exists_eq_add_of_le hge
    rw [hk]
    rcases k with _ | _ | k <;> simp

end PipeReadiness
