import Mathlib.Logic.Function.Basic
import Whuse.AddressSpace
import Whuse.CountedQueue

/-! Pipes and connected sockets of the `vfs` crate: handles, the nodes they refer to and the
channels behind sockets. Each direction of a pipe or a socket is a counted queue. -/
namespace PipeObjects

open MachineWord AddressSpace CountedQueue Function List Option

def eagain : ℕ := 11
def epipe : ℕ := 32

inductive PipeEnd where
  | none
  | read
  | write
  deriving DecidableEq, Repr

structure FileHandle where
  node : ℕ
  flags : ℕ
  pipeEnd : PipeEnd
  deriving DecidableEq, Repr

structure PipeState where
  buf : List UInt8
  readers : ℕ
  writers : ℕ
  deriving DecidableEq, Repr

structure SocketChannel where
  inbox : Fin 2 → List UInt8
  openSides : Fin 2 → ℕ

instance neZero_sides : NeZero 2 := ⟨by decide⟩

inductive NodeData where
  | pipe (state : PipeState)
  | socketConnected (channel : ℕ) (side : Fin 2)

structure Vfs where
  nodes : List NodeData
  channels : List SocketChannel

def oRdonly : ℕ := 0
def oWronly : ℕ := 1
def oRdwr : ℕ := 2

def createPipe (v : Vfs) : (FileHandle × FileHandle) × Vfs :=
  ((⟨v.nodes.length, oRdonly, .read⟩, ⟨v.nodes.length, oWronly, .write⟩),
    { v with nodes := v.nodes ++ [.pipe ⟨[], 1, 1⟩] })

def createSocketpair (v : Vfs) : (FileHandle × FileHandle) × Vfs :=
  ((⟨v.nodes.length, oRdwr, .none⟩, ⟨v.nodes.length + 1, oRdwr, .none⟩),
    { nodes := v.nodes ++ [.socketConnected v.channels.length 0, .socketConnected v.channels.length 1]
      channels := v.channels ++ [⟨fun _ => [], fun _ => 1⟩] })

/-- One handle more or less. -/
def adjustCount (up : Bool) (count : ℕ) : ℕ := if up then saturatingAdd count 1 else count - 1

def setPipe (node : ℕ) (state : PipeState) (v : Vfs) : Vfs :=
  { v with nodes := v.nodes.set node (.pipe state) }

def setChannel (channel : ℕ) (c : SocketChannel) (v : Vfs) : Vfs :=
  { v with channels := v.channels.set channel c }

def adjustPipeRefcount (handle : FileHandle) (up : Bool) (v : Vfs) : Vfs :=
  match v.nodes[handle.node]? with
  | none => v
  | some (.pipe state) =>
    match handle.pipeEnd with
    | .none => v
    | .read => setPipe handle.node { state with readers := adjustCount up state.readers } v
    | .write => setPipe handle.node { state with writers := adjustCount up state.writers } v
  | some (.socketConnected channel side) =>
    match v.channels[channel]? with
    | none => v
    | some c => setChannel channel
        { c with openSides := update c.openSides side (adjustCount up (c.openSides side)) } v

def cloneHandle (handle : FileHandle) (v : Vfs) : FileHandle × Vfs :=
  (handle, adjustPipeRefcount handle true v)

def dropHandle (handle : FileHandle) (v : Vfs) : Vfs := adjustPipeRefcount handle false v

def readObject (handle : FileHandle) (len : ℕ) (v : Vfs) : KernelResult (List UInt8) × Vfs :=
  match v.nodes[handle.node]? with
  | none => (.error einval, v)
  | some (.pipe state) =>
    if handle.pipeEnd = .write then (.error einval, v)
    else if state.buf.isEmpty then
      if state.writers = 0 then (.ok [], v) else (.error eagain, v)
    else
      (.ok (state.buf.take len), setPipe handle.node { state with buf := state.buf.drop len } v)
  | some (.socketConnected channel side) =>
    match v.channels[channel]? with
    | none => (.error einval, v)
    | some c =>
      if (c.inbox side).isEmpty then
        if c.openSides (1 - side) = 0 then (.ok [], v) else (.error eagain, v)
      else
        (.ok ((c.inbox side).take len), setChannel channel
          { c with inbox := update c.inbox side ((c.inbox side).drop len) } v)

def writeObject (handle : FileHandle) (data : List UInt8) (v : Vfs) : KernelResult ℕ × Vfs :=
  match v.nodes[handle.node]? with
  | none => (.error einval, v)
  | some (.pipe state) =>
    if handle.pipeEnd = .read then (.error einval, v)
    else if data.isEmpty then (.ok 0, v)
    else if state.readers = 0 then (.error epipe, v)
    else (.ok data.length, setPipe handle.node { state with buf := state.buf ++ data } v)
  | some (.socketConnected channel side) =>
    match v.channels[channel]? with
    | none => (.error einval, v)
    | some c =>
      if c.openSides (1 - side) = 0 then (.error epipe, v)
      else
        (.ok data.length, setChannel channel
          { c with inbox := update c.inbox (1 - side) (c.inbox (1 - side) ++ data) } v)

def pollReadReady (handle : FileHandle) (v : Vfs) : Bool :=
  match v.nodes[handle.node]? with
  | none => false
  | some (.pipe state) => !state.buf.isEmpty || state.writers == 0
  | some (.socketConnected channel side) =>
    match v.channels[channel]? with
    | none => false
    | some c => !(c.inbox side).isEmpty || c.openSides (1 - side) == 0

/-- A pipe, or the way to one side of a channel. -/
inductive Direction where
  | pipe (node : ℕ)
  | socket (channel : ℕ) (side : Fin 2)
  deriving DecidableEq, Repr

namespace Vfs

def queue (v : Vfs) : Direction → Option (Queue UInt8)
  | .pipe node =>
    match v.nodes[node]? with
    | some (.pipe state) => some ⟨state.buf, state.readers, state.writers⟩
    | _ => none
  | .socket channel side =>
    v.channels[channel]?.map fun c => ⟨c.inbox side, c.openSides side, c.openSides (1 - side)⟩

def readsFrom (v : Vfs) (handle : FileHandle) : Option Direction :=
  match v.nodes[handle.node]? with
  | some (.pipe _) => if handle.pipeEnd = .read then some (.pipe handle.node) else none
  | some (.socketConnected channel side) => some (.socket channel side)
  | none => none

def writesTo (v : Vfs) (handle : FileHandle) : Option Direction :=
  match v.nodes[handle.node]? with
  | some (.pipe _) => if handle.pipeEnd = .write then some (.pipe handle.node) else none
  | some (.socketConnected channel side) => some (.socket channel (1 - side))
  | none => none

end Vfs

/-! What each operation does to the queues, and that it keeps the ends of every handle. -/

def NodeData.channelSide : NodeData → Option (ℕ × Fin 2)
  | .pipe _ => none
  | .socketConnected channel side => some (channel, side)

structure SameNodes (v v' : Vfs) : Prop where
  channels : v'.channels.length = v.channels.length
  nodes : ∀ n : ℕ, v'.nodes[n]?.map NodeData.channelSide = v.nodes[n]?.map NodeData.channelSide

theorem SameNodes.refl (v : Vfs) : SameNodes v v := ⟨rfl, fun _ => rfl⟩

variable {handle : FileHandle} {state : PipeState} {v v' : Vfs} {channel node i : ℕ} {d : Direction}
  {c : SocketChannel} {q : Queue UInt8}

theorem SameNodes.trans {u w : Vfs} (h : SameNodes u v) (h' : SameNodes v w) : SameNodes u w :=
  ⟨h'.channels.trans h.channels, fun n => (h'.nodes n).trans (h.nodes n)⟩

theorem ends_pipe (h : v.nodes[handle.node]? = some (.pipe state)) :
    v.readsFrom handle = (if handle.pipeEnd = .read then some (.pipe handle.node) else none) ∧
      v.writesTo handle = (if handle.pipeEnd = .write then some (.pipe handle.node) else none) := by
  simp [Vfs.readsFrom, Vfs.writesTo, h]

theorem ends_socket {side : Fin 2}
    (h : v.nodes[handle.node]? = some (.socketConnected channel side)) :
    v.readsFrom handle = some (.socket channel side) ∧
      v.writesTo handle = some (.socket channel (1 - side)) := by
  simp [Vfs.readsFrom, Vfs.writesTo, h]

theorem ends_none (h : v.nodes[handle.node]? = none) :
    v.readsFrom handle = none ∧ v.writesTo handle = none := by
  simp [Vfs.readsFrom, Vfs.writesTo, h]

theorem SameNodes.ends (h : SameNodes v v') (handle : FileHandle) :
    v'.readsFrom handle = v.readsFrom handle ∧ v'.writesTo handle = v.writesTo handle := by
  have hnode := h.nodes handle.node
  unfold Vfs.readsFrom Vfs.writesTo
  rcases h₁ : v'.nodes[handle.node]? with _ | (_ | ⟨c', s'⟩) <;>
    rcases h₂ : v.nodes[handle.node]? with _ | (_ | ⟨c, s⟩) <;>
    simp_all [NodeData.channelSide]

theorem setPipe_nodes (h : v.nodes[node]? = some (.pipe state)) (state' : PipeState) :
    SameNodes v (setPipe node state' v) := by
  refine ⟨rfl, fun n => ?_⟩
  have hlt := (List.getElem?_eq_some_iff.mp h).1
  by_cases heq : node = n
  · subst heq
    have hset : (setPipe node state' v).nodes[node]? = some (.pipe state') := by
      simp [setPipe, hlt]
    rw [hset, h]
    rfl
  · rw [setPipe, getElem?_set_ne heq]

theorem setChannel_nodes (channel : ℕ) (c : SocketChannel) (v : Vfs) :
    SameNodes v (setChannel channel c v) := ⟨by simp [setChannel], fun _ => rfl⟩

theorem queue_setPipe (h : v.nodes[node]? = some (.pipe state)) (state' : PipeState)
    (d : Direction) :
    (setPipe node state' v).queue d =
      if d = .pipe node then some ⟨state'.buf, state'.readers, state'.writers⟩ else v.queue d := by
  have hlt := (List.getElem?_eq_some_iff.mp h).1
  cases d with
  | pipe n =>
    by_cases heq : n = node
    · subst heq
      simp [Vfs.queue, setPipe, hlt]
    · simp [Vfs.queue, setPipe, getElem?_set_ne (Ne.symm heq), heq]
  | socket channel side => simp [Vfs.queue, setPipe]

def adjustEnds (up reads writes : Bool) (q : Queue UInt8) : Queue UInt8 where
  buf := q.buf
  readers := if reads then adjustCount up q.readers else q.readers
  writers := if writes then adjustCount up q.writers else q.writers

theorem map_adjustEnds_neither (up : Bool) (o : Option (Queue UInt8)) :
    o.map (adjustEnds up false false) = o := by
  cases o <;> rfl

theorem adjustEnds_others {up : Bool} {e f : Direction} (he : d ≠ e) (hf : d ≠ f)
    (o : Option (Queue UInt8)) :
    o.map (adjustEnds up (some e == some d) (some f == some d)) = o := by
  rw [beq_eq_false_iff_ne.mpr fun h => he (some.inj h).symm,
    beq_eq_false_iff_ne.mpr fun h => hf (some.inj h).symm, map_adjustEnds_neither]

theorem side_ne (side : Fin 2) : 1 - side ≠ side := by
  revert side
  decide

theorem side_cases (side other : Fin 2) : other = side ∨ other = 1 - side := by
  revert side other
  decide

theorem side_back (side : Fin 2) : 1 - (1 - side) = side := by
  revert side
  decide

/-- Only the two directions of the channel change. -/
theorem queue_setChannel (h : v.channels[channel]? = some c) (c' : SocketChannel) (side : Fin 2)
    (d : Direction) :
    (setChannel channel c' v).queue d =
      if d = .socket channel side then
        some ⟨c'.inbox side, c'.openSides side, c'.openSides (1 - side)⟩
      else if d = .socket channel (1 - side) then
        some ⟨c'.inbox (1 - side), c'.openSides (1 - side), c'.openSides side⟩
      else v.queue d := by
  have hlt := (List.getElem?_eq_some_iff.mp h).1
  rcases d with n | ⟨other, side'⟩
  · rfl
  by_cases heq : other = channel
  · subst heq
    rcases side_cases side side' with rfl | rfl <;>
      simp [Vfs.queue, setChannel, hlt, side_ne, side_back]
  · simp [Vfs.queue, setChannel, getElem?_set_ne (Ne.symm heq), heq]

theorem queue_socket (h : v.channels[channel]? = some c) (side : Fin 2) :
    v.queue (.socket channel side) = some ⟨c.inbox side, c.openSides side, c.openSides (1 - side)⟩ := by
  rw [Vfs.queue, h, map_some]

theorem adjust_spec (handle : FileHandle) (up : Bool) (v : Vfs) :
    SameNodes v (adjustPipeRefcount handle up v) ∧
    ∀ d, (adjustPipeRefcount handle up v).queue d =
      (v.queue d).map (adjustEnds up (v.readsFrom handle == some d) (v.writesTo handle == some d)) := by
  have hkeep : v.readsFrom handle = none → v.writesTo handle = none → SameNodes v v ∧
      ∀ d, v.queue d = (v.queue d).map
        (adjustEnds up (v.readsFrom handle == some d) (v.writesTo handle == some d)) := by
    intro hr hw
    refine ⟨.refl v, fun d => ?_⟩
    rw [hr, hw]
    exact (map_adjustEnds_neither up _).symm
  unfold adjustPipeRefcount
  rcases hnode : v.nodes[handle.node]? with _ | data
  · exact hkeep (ends_none hnode).1 (ends_none hnode).2
  cases data with
  | pipe state =>
    obtain ⟨hr, hw⟩ := ends_pipe hnode
    cases hend : handle.pipeEnd with
    | none =>
      rw [hend] at hr hw
      exact hkeep hr hw
    | read | write =>
      rw [hend] at hr hw
      refine ⟨setPipe_nodes hnode _, fun d => ?_⟩
      rw [queue_setPipe hnode, hr, hw]
      by_cases heq : d = .pipe handle.node
      · subst heq
        simp [Vfs.queue, hnode, adjustEnds]
      have hne : (some (Direction.pipe handle.node) == some d) = false := by
        simpa using Ne.symm heq
      rw [if_neg heq, if_pos rfl, hne]
      exact (map_adjustEnds_neither up _).symm
  | socketConnected channel side =>
    obtain ⟨hr, hw⟩ := ends_socket hnode
    simp only
    cases hc : v.channels[channel]? with
    | none =>
      refine ⟨.refl v, fun d => ?_⟩
      have hnone : ∀ side, v.queue (.socket channel side) = none := by simp [Vfs.queue, hc]
      rw [hr, hw]
      by_cases hd : d = .socket channel side ∨ d = .socket channel (1 - side)
      · rcases hd with rfl | rfl <;> rw [hnone] <;> rfl
      rw [not_or] at hd
      exact (adjustEnds_others hd.1 hd.2 _).symm
    | some c =>
      refine ⟨setChannel_nodes _ _ _, fun d => ?_⟩
      rw [queue_setChannel hc _ side, hr, hw]
      split
      · next hd => simp [hd, queue_socket hc, adjustEnds, side_ne]
      split
      · next hd => simp [hd, queue_socket hc, adjustEnds, side_ne, side_back, Ne.symm (side_ne _)]
      · next hread hwrite => exact (adjustEnds_others hread hwrite _).symm

def readResult : ReadAnswer UInt8 → KernelResult (List UInt8)
  | .data bytes => .ok bytes
  | .closed => .ok []
  | .wait => .error eagain

theorem read_spec (hd : v.readsFrom handle = some d) (hq : v.queue d = some q) (len : ℕ) :
    (readObject handle len v).1 = readResult (q.readAnswer len) ∧
      SameNodes v (readObject handle len v).2 ∧
      ∀ e, (readObject handle len v).2.queue e =
        if e = d then some (q.afterRead len) else v.queue e := by
  -- an empty queue stays as it is
  have hempty : q.buf = [] → SameNodes v v ∧
      ∀ e, v.queue e = if e = d then some (q.afterRead len) else v.queue e := by
    intro hbuf
    refine ⟨.refl v, fun e => ?_⟩
    have hsame : q.afterRead len = q := by
      cases q
      simp_all [Queue.afterRead]
    split
    · next heq => rw [heq, hq, hsame]
    · rfl
  rcases hnode : v.nodes[handle.node]? with _ | data
  · rw [(ends_none hnode).1] at hd
    cases hd
  cases data with
  | pipe state =>
    rw [(ends_pipe hnode).1] at hd
    split at hd
    · next hend =>
      cases hd
      simp only [Vfs.queue, hnode, some.injEq] at hq
      subst hq
      have hnot : handle.pipeEnd ≠ .write := by rw [hend]; decide
      simp only [readObject, hnode, if_neg hnot]
      cases hbuf : state.buf with
      | nil =>
        rw [hbuf] at hempty
        by_cases hw : state.writers = 0
        · simpa [hw, Queue.readAnswer, readResult] using hempty rfl
        · simpa [hw, Queue.readAnswer, readResult] using hempty rfl
      | cons b rest =>
        refine ⟨rfl, setPipe_nodes hnode _, fun e => ?_⟩
        exact queue_setPipe hnode _ e
    · cases hd
  | socketConnected channel side =>
    rw [(ends_socket hnode).1] at hd
    cases hd
    obtain ⟨c, hc, hq⟩ := Option.map_eq_some_iff.mp hq
    subst hq
    simp only [readObject, hnode, hc]
    rcases hbuf : c.inbox side with _ | ⟨b, rest⟩
    · rw [hbuf] at hempty
      by_cases hw : c.openSides (1 - side) = 0
      · simpa [hw, Queue.readAnswer, readResult] using hempty rfl
      · simpa [hw, Queue.readAnswer, readResult] using hempty rfl
    refine ⟨rfl, setChannel_nodes _ _ _, fun e => ?_⟩
    rw [isEmpty_cons, if_neg Bool.false_ne_true, queue_setChannel hc _ side]
    split
    · simp [Queue.afterRead]
    split
    · next he => simp [he, queue_socket hc, side_ne, side_back]
    · rfl

theorem write_spec (hd : v.writesTo handle = some d) (hq : v.queue d = some q) {data : List UInt8}
    (hdata : data ≠ []) :
    (writeObject handle data v).1 = (if q.accepts then .ok data.length else .error epipe) ∧
      SameNodes v (writeObject handle data v).2 ∧
      ∀ e, (writeObject handle data v).2.queue e =
        if e = d ∧ q.accepts then some (q.afterWrite data) else v.queue e := by
  have hsome : data.isEmpty = false := by simpa using hdata
  rcases hnode : v.nodes[handle.node]? with _ | node
  · rw [(ends_none hnode).2] at hd
    cases hd
  cases node with
  | pipe state =>
    rw [(ends_pipe hnode).2] at hd
    split at hd
    · next hend =>
      cases hd
      simp only [Vfs.queue, hnode, some.injEq] at hq
      subst hq
      have hnot : handle.pipeEnd ≠ .read := by rw [hend]; decide
      simp only [writeObject, hnode, if_neg hnot, hsome, if_neg Bool.false_ne_true]
      by_cases hr : state.readers = 0
      · simp [hr, Queue.accepts, SameNodes.refl]
      refine ⟨by simp [hr, Queue.accepts], ?_, fun e => ?_⟩
      · rw [if_neg hr]
        exact setPipe_nodes hnode _
      · rw [if_neg hr, queue_setPipe hnode]
        simp [hr, Queue.accepts, Queue.afterWrite]
    · cases hd
  | socketConnected channel side =>
    rw [(ends_socket hnode).2] at hd
    cases hd
    obtain ⟨c, hc, hq⟩ := Option.map_eq_some_iff.mp hq
    subst hq
    simp only [writeObject, hnode, hc]
    by_cases hr : c.openSides (1 - side) = 0
    · simp [hr, Queue.accepts, SameNodes.refl]
    refine ⟨by simp [hr, Queue.accepts], ?_, fun e => ?_⟩
    · rw [if_neg hr]
      exact setChannel_nodes _ _ _
    · rw [if_neg hr, queue_setChannel hc _ side]
      split
      · next he => simp [he, queue_socket hc, Ne.symm (side_ne _)]
      split
      · next he => simp [he, hr, Queue.accepts, Queue.afterWrite, side_back]
      · next hne => simp [hne]

theorem write_nil_spec (handle : FileHandle) (v : Vfs) : SameNodes v (writeObject handle [] v).2 ∧
      ∀ e, (writeObject handle [] v).2.queue e = v.queue e := by
  have hsame : SameNodes v v ∧ ∀ e, v.queue e = v.queue e := ⟨.refl v, fun _ => rfl⟩
  unfold writeObject
  rcases hnode : v.nodes[handle.node]? with _ | node
  · exact hsame
  rcases node with state | ⟨channel, side⟩
  · by_cases hend : handle.pipeEnd = .read
    · simpa [hend] using hsame
    · simpa [hend] using hsame
  simp only
  rcases hc : v.channels[channel]? with _ | c
  · exact hsame
  by_cases hr : c.openSides (1 - side) = 0
  · simpa [hr] using hsame
  have hlt := (List.getElem?_eq_some_iff.mp hc).1
  have hget : v.channels[channel] = c := (List.getElem?_eq_some_iff.mp hc).2
  have hset : v.channels.set channel c = v.channels := by
    rw [← hget, set_getElem_self]
  simpa [hr, setChannel, hset] using hsame

theorem getElem?_concat_ne {α : Type} {l : List α} {a : α} (h : i ≠ l.length) :
    (l ++ [a])[i]? = l[i]? := by
  rcases Nat.lt_or_gt_of_ne h with hlt | hgt
  · exact getElem?_append_left hlt
  · rw [getElem?_eq_none (by simp; omega), getElem?_eq_none (by omega)]

theorem createPipe_queue (v : Vfs) (d : Direction) :
    (createPipe v).2.queue d = if d = .pipe v.nodes.length then some ⟨[], 1, 1⟩ else v.queue d := by
  cases d with
  | pipe node =>
    by_cases heq : node = v.nodes.length
    · simp [heq, createPipe, Vfs.queue]
    simp [heq, createPipe, Vfs.queue, getElem?_concat_ne heq]
  | socket channel side => simp [createPipe, Vfs.queue]

theorem createSocketpair_queue (v : Vfs) (d : Direction) : (createSocketpair v).2.queue d =
      match d with
      | .pipe _ => v.queue d
      | .socket channel _ =>
        if channel = v.channels.length then some ⟨[], 1, 1⟩ else v.queue d := by
  cases d with
  | pipe node =>
    rcases Nat.lt_or_ge node v.nodes.length with hlt | hge
    · simp [createSocketpair, Vfs.queue, getElem?_append_left hlt]
    · obtain ⟨k, rfl⟩ := Nat.exists_eq_add_of_le hge
      rcases k with _ | _ | k <;> simp [createSocketpair, Vfs.queue]
  | socket channel side =>
    by_cases heq : channel = v.channels.length
    · simp [heq, createSocketpair, Vfs.queue]
    simp [heq, createSocketpair, Vfs.queue, getElem?_concat_ne heq]

end PipeObjects
