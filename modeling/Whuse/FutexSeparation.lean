import Mathlib.Algebra.Order.BigOperators.Group.Finset
import Whuse.FutexRuns

/-! Whose waiters a wake reaches. The queues are found by virtual address alone, so what a call
takes out of a queue is the front of it, whichever address spaces the waiters belong to. -/
namespace FutexSeparation

open Function List
open AddressSpace TaskScheduler ProcessTable ProcessTable.Table ProcessCalls FutexCalls FutexQueues
open CallRuns (board boardHeap)

/-- The word at an address of shared storage: the counted buffer and the place in it. -/
def sharedWord (space : AddressSpaceInner) (a : ℕ) : Option (ℕ × ℕ) :=
  match findSegment space.mappings a 4 with
  | .error _ => none
  | .ok (segment, offset) =>
    match segment.storage with
    | .shared bytes ptr => some (bytes.addr, ptr + offset)
    | .owned _ => none
    | .host _ _ => none

/-- The thread, waiting at the address, waits on the word that the address is for the process. -/
def SameWord (t : Table) (p : Process) (tid a : ℕ) : Prop :=
  ∃ q, t.processes[tid]? = some q ∧ (q.addressSpace = p.addressSpace ∨
      ∃ word, sharedWord (t.spaces p.addressSpace) a = some word ∧
        sharedWord (t.spaces q.addressSpace) a = some word)

def Lost (before after : Table) (a tid : ℕ) : Prop :=
  (queue after a).count tid < (queue before a).count tid

section Reach

variable (hal : HalMemory) (env : FutexEnv)

def wakeReach (uaddr count a : ℕ) : ℕ := if a = uaddr then count else 0

/-- Waiters that a requeue puts back into the same queue do not leave it. -/
def requeueReach (source target wakeCount requeueCount a : ℕ) : ℕ :=
  wakeReach source (wakeCount + if source = target then 0 else requeueCount) a

def wakeOpReach (uaddr uaddr2 count count2 encoded : ℕ) (M : Machine) (a : ℕ) : ℕ :=
  let encoded := encoded % 2 ^ 32
  match readI32 hal env uaddr2 M with
  | .error _ => 0
  | .ok old =>
    match wakeOpValue (encoded / 2 ^ 28 % 2 ^ 4) old (Int32.ofNat (encoded / 2 ^ 12 % 2 ^ 12)) with
    | none => 0
    | some value =>
      match (writeBytes hal uaddr2 (ByteFields.leBytes 4 value.toUInt32.toNat) M).1 with
      | .error _ => 0
      | .ok () =>
        wakeReach uaddr count a +
          match wakeOpCondition (encoded / 2 ^ 24 % 2 ^ 4) old (Int32.ofNat (encoded % 2 ^ 12)) with
          | some true => wakeReach uaddr2 count2 a
          | _ => 0

/-- How many waiters at the front of the queue of an address the call takes. -/
def futexReach (args : Fin 6 → ℕ) (M : Machine) (a : ℕ) : ℕ :=
  let op := args 1 &&& 0x7f
  let count := wakeCount (Int32.ofNat (args 2))
  if op = futexWakeOp ∨ op = futexWakeBitset then wakeReach (args 0) count a
  else if op = futexRequeueOp then requeueReach (args 0) (args 4) count (args 3) a
  else if op = futexCmpRequeueOp then
    match readI32 hal env (args 0) M with
    | .error _ => 0
    | .ok word =>
      if word ≠ Int32.ofNat (args 5) then 0
      else requeueReach (args 0) (args 4) count (args 3) a
  else if op = futexWakeOpOp then
    wakeOpReach hal env (args 0) (args 4) count (args 5) (args 3) M a
  else 0

end Reach

theorem count_drop_lt {l : List ℕ} {n tid : ℕ} :
    (l.drop n).count tid < l.count tid ↔ tid ∈ l.take n := by
  have hsplit : l.count tid = (l.take n).count tid + (l.drop n).count tid := by
    rw [← count_append, take_append_drop]
  rw [← count_pos_iff]
  omega

def Drops (t u : Table) (reach : ℕ → ℕ) : Prop := ∀ a, queue u a = (queue t a).drop (reach a)

variable {args : Fin 6 → ℕ} {k l : KernelState} {p : Process} {t u v : Table} {reach : ℕ → ℕ}
  {e : ℕ}

theorem Drops.lost (h : Drops t u reach) (a tid : ℕ) :
    Lost t u a tid ↔ tid ∈ (queue t a).take (reach a) := by
  rw [Lost, h a]
  exact count_drop_lt

theorem Drops.length (h : Drops t u reach) (a : ℕ) :
    ((queue t a).take (reach a)).length = (queue t a).length - (queue u a).length := by
  rw [h a, length_take, length_drop]
  omega

theorem drops_of_queue (h : queue u = queue t) : Drops t u fun _ => 0 :=
  fun a => congrFun h a

theorem Drops.trans {r s : ℕ → ℕ} (h : Drops t u r) (h' : Drops u v s) :
    Drops t v fun a => r a + s a := fun a => by
  rw [h' a, h a, drop_drop]

theorem drops_wakeFutex (uaddr count : ℕ) (t : Table) :
    Drops t (t.wakeFutex uaddr count).2 (wakeReach uaddr count) := by
  intro a
  rw [(wakeFutex_queue uaddr count t).2, update_apply, wakeReach]
  split
  · next ha => rw [ha]
  · rw [drop_zero]

theorem woken_length (uaddr count : ℕ) (t : Table) : (t.wakeFutex uaddr count).1.length =
      (queue t uaddr).length - (queue (t.wakeFutex uaddr count).2 uaddr).length := by
  have hlen := (drops_wakeFutex uaddr count t).length uaddr
  rwa [wakeReach, if_pos rfl, ← (wakeFutex_queue uaddr count t).1] at hlen

theorem benchYield_table (env : FutexEnv) (woke : List ℕ) (k : KernelState) :
    (benchYield env woke k).table = k.table := by
  unfold benchYield
  split <;> rfl

def Counted (args : Fin 6 → ℕ) (t : Table) (out : KernelResult ℕ × KernelState) : Prop :=
  ∀ n, out.1 = .ok n →
    n ≤ ∑ a ∈ {args 0, args 4}, ((queue t a).length - (queue out.2.table a).length)

theorem counted_error : Counted args t (.error e, k) := fun n hn => by cases hn

theorem counted_first {r : KernelResult ℕ}
    (h : ∀ n, r = .ok n → n ≤ (queue t (args 0)).length - (queue k.table (args 0)).length) :
    Counted args t (r, k) := fun n hn =>
  (h n hn).trans (Finset.single_le_sum
    (f := fun a => (queue t a).length - (queue k.table a).length) (fun _ _ => Nat.zero_le _)
    (Finset.mem_insert_self _ _))

/-- What the theorem says of one call: who is lost, and how many are counted. -/
structure Reaches (args : Fin 6 → ℕ) (reach : ℕ → ℕ) (t : Table)
    (out : KernelResult ℕ × KernelState) : Prop where
  lost : ∀ a tid, Lost t out.2.table a tid ↔ tid ∈ (queue t a).take (reach a)
  counted : Counted args t out

theorem reaches_refused (h : queue l.table = queue k.table) :
    Reaches args (fun _ => 0) k.table (.error e, l) :=
  ⟨(drops_of_queue h).lost, counted_error⟩

theorem reaches_wake (env : FutexEnv) (args : Fin 6 → ℕ) (count : ℕ) (k : KernelState) :
    Reaches args (wakeReach (args 0) count) k.table (futexWake env (args 0) count k) := by
  have hdrops : Drops k.table (futexWake env (args 0) count k).2.table
      (wakeReach (args 0) count) := by
    simp only [futexWake, benchYield_table]
    exact drops_wakeFutex (args 0) count k.table
  refine ⟨hdrops.lost, counted_first fun n hn => ?_⟩
  simp only [benchYield_table] at hn ⊢
  exact (Except.ok.inj hn ▸ woken_length (args 0) count k.table).le

theorem requeueFutex_queue (source target wakeCount requeueCount : ℕ) (t : Table) :
    let rest := (queue t source).drop wakeCount
    let emptied := update (queue t) source (rest.drop requeueCount)
    (t.requeueFutex source target wakeCount requeueCount).1 = (queue t source).take wakeCount ∧
    queue (t.requeueFutex source target wakeCount requeueCount).2 =
      update emptied target (emptied target ++ rest.take requeueCount) := by
  obtain ⟨hwoke, hfirst⟩ := wakeFutex_queue source wakeCount t
  obtain ⟨hmoved, hsecond⟩ := wakeFutex_queue source requeueCount (t.wakeFutex source wakeCount).2
  rw [hfirst, update_self] at hmoved hsecond
  rw [update_idem] at hsecond
  unfold Table.requeueFutex
  simp only
  split
  · next hempty =>
    rw [List.isEmpty_iff.mp hempty] at hmoved
    refine ⟨hwoke, ?_⟩
    rw [← hmoved, append_nil, update_eq_self, hsecond]
  · refine ⟨hwoke, ?_⟩
    rw [FutexRuns.queue_append, hsecond, hmoved]

theorem reaches_requeue (args : Fin 6 → ℕ) (wakeCount requeueCount : ℕ) (k : KernelState) :
    Reaches args (requeueReach (args 0) (args 4) wakeCount requeueCount) k.table
      (futexRequeue (args 0) (args 4) wakeCount requeueCount k) := by
  obtain ⟨hwoke, hqueue⟩ := requeueFutex_queue (args 0) (args 4) wakeCount requeueCount k.table
  have htable : (futexRequeue (args 0) (args 4) wakeCount requeueCount k).2.table =
    (k.table.requeueFutex (args 0) (args 4) wakeCount requeueCount).2 := rfl
  have hcounted : (futexRequeue (args 0) (args 4) wakeCount requeueCount k).1 =
    .ok ((queue k.table (args 0)).take wakeCount).length := by rw [← hwoke]; rfl
  rw [← htable] at hqueue
  generalize futexRequeue (args 0) (args 4) wakeCount requeueCount k = out at hqueue hcounted ⊢
  obtain ⟨r, l⟩ := out
  -- the requeued waiters go behind the source itself or behind another queue
  rcases eq_or_ne (args 0) (args 4) with hsame | hother
  · rw [← hsame, update_self, update_idem] at hqueue
    have hturn : (queue l.table (args 0)).Perm ((queue k.table (args 0)).drop wakeCount) := by
      rw [hqueue, update_self]
      exact perm_append_comm.trans (by rw [take_append_drop])
    refine ⟨fun a tid => ?_, counted_first fun n hn => ?_⟩
    · rw [requeueReach, wakeReach, Lost]
      split
      · next ha =>
        rw [ha, hturn.count_eq]
        exact count_drop_lt
      · next ha =>
        rw [hqueue, update_of_ne ha]
        simp
    · rw [← Except.ok.inj (hcounted.symm.trans hn), hturn.length_eq, length_take, length_drop]
      omega
  · rw [update_of_ne hother.symm] at hqueue
    have hsource : queue l.table (args 0) =
        (queue k.table (args 0)).drop (wakeCount + requeueCount) := by
      rw [hqueue, update_of_ne hother, update_self, drop_drop]
    refine ⟨fun a tid => ?_, counted_first fun n hn => ?_⟩
    · rw [requeueReach, wakeReach, Lost]
      split
      · next ha =>
        rw [ha, hsource]
        exact count_drop_lt
      next ha =>
      rw [hqueue]
      refine ⟨fun hlt => absurd hlt ?_, fun h => by cases h⟩
      rw [update_apply]
      split
      · next htarget =>
        rw [htarget, count_append]
        omega
      · rw [update_of_ne ha]
        exact lt_irrefl _
    · rw [← Except.ok.inj (hcounted.symm.trans hn), hsource, length_take, length_drop]
      omega

theorem reaches_wakeOp (hal : HalMemory) (env : FutexEnv) (args : Fin 6 → ℕ)
    (count count2 encoded : ℕ) (hp : k.table.current = .ok p) :
    Reaches args (wakeOpReach hal env (args 0) (args 4) count count2 encoded (k.table.machine p))
      k.table (futexWakeOpCall hal env (args 0) (args 4) count count2 encoded k) := by
  unfold futexWakeOpCall wakeOpReach
  simp only [hp]
  generalize encoded % 2 ^ 32 = encoded
  generalize readI32 hal env (args 4) (k.table.machine p) = word
  rcases word with e | old
  · exact reaches_refused rfl
  simp only
  generalize wakeOpValue (encoded / 2 ^ 28 % 2 ^ 4) old
    (Int32.ofNat (encoded / 2 ^ 12 % 2 ^ 12)) = value
  rcases value with _ | value
  · exact reaches_refused rfl
  simp only
  generalize writeBytes hal (args 4) (ByteFields.leBytes 4 value.toUInt32.toNat)
    (k.table.machine p) = out
  obtain ⟨e | _, M⟩ := out
  · exact reaches_refused rfl
  have hwoke : _ = (queue k.table (args 0)).length - _ :=
    woken_length (args 0) count (k.table.putMachine p M)
  have hfirst : Drops k.table _ _ := drops_wakeFutex (args 0) count (k.table.putMachine p M)
  generalize wakeOpCondition (encoded / 2 ^ 24 % 2 ^ 4) old
    (Int32.ofNat (encoded % 2 ^ 12)) = condition
  obtain _ | _ | _ := condition
  · refine ⟨?_, counted_error⟩
    simp only [benchYield_table]
    exact hfirst.lost
  · refine ⟨?_, counted_first fun n hn => ?_⟩
    · simp only [benchYield_table]
      exact hfirst.lost
    · simp only [benchYield_table]
      rw [← Except.ok.inj hn, hwoke]
      rfl
  · simp only [wakeWaiters]
    have hwoke2 := woken_length (args 4) count2
      ((k.table.putMachine p M).wakeFutex (args 0) count).2
    have hsecond := drops_wakeFutex (args 4) count2
      ((k.table.putMachine p M).wakeFutex (args 0) count).2
    refine ⟨?_, fun n hn => ?_⟩
    · simp only [benchYield_table]
      exact (hfirst.trans hsecond).lost
    simp only [benchYield_table] at hn ⊢
    rw [← Except.ok.inj hn, hwoke, hwoke2]
    have hlen := fun a => congrArg List.length (hfirst a)
    have hlen2 := fun a => congrArg List.length (hsecond a)
    simp only [length_drop] at hlen hlen2
    rcases eq_or_ne (args 0) (args 4) with hsame | hother
    · rw [hsame] at hlen hlen2 ⊢
      rw [Finset.pair_eq_singleton, Finset.sum_singleton, hlen2, hlen]
      omega
    · have h0 : wakeReach (args 4) count2 (args 0) = 0 := if_neg hother
      have h4 : wakeReach (args 0) count (args 4) = 0 := if_neg hother.symm
      rw [Finset.sum_pair hother, hlen2 (args 0), hlen (args 4), h0, h4]
      rfl

theorem reaches_sysFutex (hal : HalMemory) (env : FutexEnv) (args : Fin 6 → ℕ)
    (hp : k.table.current = .ok p)
    (hwait : ¬ (args 1 &&& 0x7f = futexWaitOp ∨ args 1 &&& 0x7f = futexWaitBitset)) :
    Reaches args (futexReach hal env args (k.table.machine p)) k.table
      (sysFutex hal env args k) := by
  unfold sysFutex futexReach
  simp only [hp]
  split
  · exact reaches_wake env args _ k
  split
  · exact reaches_requeue args _ _ k
  split
  · generalize readI32 hal env (args 0) (k.table.machine p) = word
    rcases word with e | word
    · exact reaches_refused rfl
    simp only
    split
    · exact reaches_refused rfl
    · exact reaches_requeue args _ _ k
  split
  · exact reaches_wakeOp hal env args _ _ _ hp
  · exact reaches_refused rfl

section Exit

variable (hal : HalMemory) (heap : Heap) (code : Int32) {x : ThreadExit}

def exitRecord (group : Bool) (t : Table) : KernelResult ThreadExit × Table :=
  if group then t.exitCurrentProcessGroup hal heap code else t.exitCurrentThread hal heap code

def clearWake (x : ThreadExit) (t : Table) : Table :=
  match x.clearChildTid with
  | none => t
  | some a => (t.wakeFutex a MachineWord.usizeMax).2

def leaving (group : Bool) (p : Process) (t : Table) : List ℕ :=
  if group then t.groupTids p.tgid else [p.tid]

theorem queue_notifyParent (parent : Option ℕ) (t : Table) :
    queue (t.notifyParent parent) = queue t :=
  congrArg WaitBook.Book.queue (show book (t.notifyParent parent) = book t by
    unfold Table.notifyParent
    split
    · rfl
    · exact book_sendSignalTid _ _ t)

theorem queue_endGroup (tgid : ℕ) (t : Table) : queue (t.endGroup code tgid) = queue t := by
  unfold Table.endGroup
  generalize (t.values.filter fun p => p.tgid == tgid) = members
  have hfold : ∀ (members : List Process) (t : Table),
      queue (members.foldl (fun t p => t.clearSpace p) t) = queue t := by
    intro members
    induction members with
    | nil => exact fun t => rfl
    | cons p members ih => exact fun t => ih _
  exact hfold members _

theorem queue_exitCurrentThread (hp : t.current = .ok p)
    (hexit : t.exitCurrentThread hal heap code = (.ok x, u)) (a : ℕ) :
    x.clearChildTid = p.clearChildTid ∧ queue u a = (queue t a).filter (· ∉ [p.tid]) := by
  have hleave : queue (t.leaveThread hal heap code p).2 a = (queue t a).filter (· ≠ p.tid) :=
    congrFun (removeFutexWaiter_queue p.tid _) a
  simp only [Table.exitCurrentThread, hp] at hexit
  obtain ⟨rfl, rfl⟩ := hexit
  refine ⟨rfl, ?_⟩
  simp only [mem_singleton]
  split
  · exact hleave
  · rw [queue_notifyParent, queue_endGroup]
    exact hleave

theorem queue_exitEntries (tids : List ℕ) (found : List ℕ × Table) (a : ℕ) :
    queue (tids.foldl (Table.exitEntry hal heap code) found).2 a =
      (queue found.2 a).filter (· ∉ tids) := by
  induction tids generalizing found with
  | nil => simp
  | cons tid tids ih =>
    have hone : queue (Table.exitEntry hal heap code found tid).2 a =
        (queue found.2 a).filter (· ≠ tid) := by
      unfold Table.exitEntry
      split
      · exact congrFun (removeFutexWaiter_queue tid found.2) a
      · exact congrFun (removeFutexWaiter_queue tid _) a
    rw [foldl_cons, ih, hone, List.filter_filter]
    refine filter_congr fun i _ => ?_
    simp [Bool.and_comm]

theorem queue_exitRecord (group : Bool) (hp : t.current = .ok p)
    (hexit : exitRecord hal heap code group t = (.ok x, u)) (a : ℕ) :
    x.clearChildTid = p.clearChildTid ∧ queue u a = (queue t a).filter (· ∉ leaving group p t) := by
  rcases group with _ | _
  · exact queue_exitCurrentThread hal heap code hp hexit a
  simp only [exitRecord, Table.exitCurrentProcessGroup, hp] at hexit
  obtain ⟨rfl, rfl⟩ := hexit
  refine ⟨rfl, ?_⟩
  rw [queue_notifyParent]
  exact queue_exitEntries hal heap code (t.groupTids p.tgid) ([], t) a

theorem queue_tellParent (parent : Option ℕ) (k : KernelState) :
    queue (tellParent parent k).table = queue k.table := by
  cases parent with
  | none => rfl
  | some tgid => exact congrArg WaitBook.Book.queue (book_sendSignalTid tgid sigchld k.table)

end Exit

inductive Wake where
  | futex (env : FutexEnv) (args : Fin 6 → ℕ)
  | exit (group : Bool) (heap : Heap) (code : Int32)

def Wake.Wakes : Wake → Prop
  | futex _ args => ¬ (args 1 &&& 0x7f = futexWaitOp ∨ args 1 &&& 0x7f = futexWaitBitset)
  | exit _ _ _ => True

/-- Only those who wait on the word of the process leave a queue, and only those who leave are
counted. -/
def Wake.Separated (hal : HalMemory) (k : KernelState) (p : Process) : Wake → Prop
  | futex env args =>
    (∀ a tid, Lost k.table (sysFutex hal env args k).2.table a tid → SameWord k.table p tid a) ∧
      Counted args k.table (sysFutex hal env args k)
  | exit group heap code => ∀ x t, exitRecord hal heap code group k.table = (.ok x, t) →
    ∀ a tid, Lost t (clearWake x t) a tid → SameWord k.table p tid a

/-- The front of the queue of an address, as far as the step reaches. -/
def Wake.reached (hal : HalMemory) (t : Table) (p : Process) (a : ℕ) : Wake → List ℕ
  | futex env args => (queue t a).take (futexReach hal env args (t.machine p) a)
  | exit group _ _ =>
    if p.clearChildTid = some a then
      ((queue t a).filter (· ∉ leaving group p t)).take MachineWord.usizeMax
    else []

/-- A wake keeps to the waiters on the word of the process exactly if everybody at the front of
the queue of its virtual address, as far as it reaches, waits on that word. -/
theorem wake_separated_iff (hal : HalMemory) (k : KernelState) (p : Process) (w : Wake)
    (hp : k.table.current = .ok p) (hw : w.Wakes) :
    w.Separated hal k p ↔ ∀ a, ∀ tid ∈ w.reached hal k.table p a, SameWord k.table p tid a := by
  cases w with
  | futex env args =>
    have hreaches := reaches_sysFutex hal env args hp hw
    constructor
    · intro h a tid htid
      exact h.1 a tid ((hreaches.lost a tid).mpr htid)
    · intro h
      exact ⟨fun a tid hlost => h a tid ((hreaches.lost a tid).mp hlost), hreaches.counted⟩
  | exit group heap code =>
    have hlost : ∀ x t, exitRecord hal heap code group k.table = (.ok x, t) → ∀ a tid,
        Lost t (clearWake x t) a tid ↔ tid ∈ (Wake.exit group heap code).reached hal k.table p a := by
      intro x t hexit a tid
      obtain ⟨hclear, hqueue⟩ := queue_exitRecord hal heap code group hp hexit a
      simp only [clearWake, Wake.reached, hclear]
      rcases p.clearChildTid with _ | c
      · simp [Lost]
      simp only [Option.some.injEq]
      rw [(drops_wakeFutex c MachineWord.usizeMax t).lost a tid, wakeReach, hqueue]
      by_cases ha : a = c
      · simp [ha]
      · simp [ha, Ne.symm ha]
    obtain ⟨x, t, hexit⟩ : ∃ x t, exitRecord hal heap code group k.table = (.ok x, t) := by
      cases group with
      | false => exact ⟨_, _, by simp only [exitRecord, Table.exitCurrentThread, hp]; rfl⟩
      | true => exact ⟨_, _, by simp only [exitRecord, Table.exitCurrentProcessGroup, hp]; rfl⟩
    constructor
    · intro h a tid htid
      exact h x t hexit a tid ((hlost x t hexit a tid).mpr htid)
    · intro h x t hexit a tid hl
      exact h a tid ((hlost x t hexit a tid).mp hl)

open FutexRuns AgreementRuns

def wakeOne : Fin 6 → ℕ := ![0x10000, futexWakeOp, 1, 0, 0, 0]

def threadAsleep : Option State :=
  runOps start [mapPage, .cloneThread noHeap 0 0x1000 none, .setCurrent 2, sleepOnPage,
    .setCurrent 1]

theorem wake_separated_iff_thread : ∃ s p, threadAsleep = some s ∧ s.kernel.table.current = .ok p ∧
      queue s.kernel.table 0x10000 = [2] ∧
      (Wake.futex benchEnv wakeOne).Separated board s.kernel p := by
  have hrun : (threadAsleep.map fun s => (queue s.kernel.table 0x10000,
      s.kernel.table.current.toOption.map Process.addressSpace,
      s.kernel.table.processes[2]?.map Process.addressSpace)) = some ([2], some 0, some 0) := by
    decide +kernel
  obtain ⟨s, hs, hview⟩ := Option.map_eq_some_iff.mp hrun
  simp only [Prod.mk.injEq, Option.map_eq_some_iff, toOption_eq_some] at hview
  obtain ⟨hqueue, ⟨p, hp, hspace⟩, q, hq, hspace'⟩ := hview
  refine ⟨s, p, hs, hp, hqueue, ?_⟩
  have hwakes : (Wake.futex benchEnv wakeOne).Wakes := by
    simp only [Wake.Wakes]
    decide
  refine (wake_separated_iff board s.kernel p (.futex benchEnv wakeOne) hp
    hwakes).mpr fun a tid htid => ?_
  by_cases ha : a = 0x10000
  · subst ha
    have hmem := mem_of_mem_take htid
    rw [hqueue, mem_singleton] at hmem
    exact ⟨q, hmem ▸ hq, .inl (hspace'.trans hspace.symm)⟩
  · have hzero : futexReach board benchEnv wakeOne (s.kernel.table.machine p) a = 0 := if_neg ha
    simp only [Wake.reached, hzero] at htid
    cases htid

def childAsleep : Option State :=
  runOps start [mapPage, .fork boardHeap, .setCurrent 2, sleepOnPage, .setCurrent 1]

/-- The parent's wake at the same virtual address takes the child out of the queue and counts it,
though they have no memory in common. -/
theorem wake_reaches_other_process : (childAsleep.map fun s => s.kernel.table.values.map fun p =>
      (p.tgid, p.addressSpace, sharedWord (s.kernel.table.spaces p.addressSpace) 0x10000)) =
      some [(1, 0, none), (2, 1, none)] ∧
    (childAsleep.map fun s => (queue s.kernel.table 0x10000,
      answer (sysFutex board benchEnv wakeOne s.kernel).1,
      queue (sysFutex board benchEnv wakeOne s.kernel).2.table 0x10000)) =
      some ([2], some 1, []) := by
  decide +kernel

end FutexSeparation
