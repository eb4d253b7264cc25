import Mathlib.Tactic.IntervalCases
import Whuse.TableEffects

/-! What `wait` reports. A run records how each thread group ended; a wait must reap only
groups that have ended, and its status must say how. -/
namespace WaitReaping

open AddressSpace ProcessTable ProcessTable.Table TableEffects Function Option
open CallRuns (board)

/-- What ended a thread group. -/
inductive Death where
  | exit (arg : Int32)
  /-- The default action of the signal above this bit of the pending mask. -/
  | signal (bit : Fin 64)
  /-- An end imposed by the kernel, outside the two ways a program ends. -/
  | forced (code : Int32)

variable {d : Death} {q : Kin} {g j parent : ℕ}

namespace Death

def code : Death → Int32
  | exit arg => arg
  | signal bit => -Int32.ofNat (bit + 1)
  | forced code => code

/-- What a status must say. -/
def Reported : Death → Int32 → Prop
  | exit arg, status => status = (arg &&& 0xff) <<< 8
  | signal bit, status => status &&& 0x7f = Int32.ofNat (bit + 1) ∧ status &&& 0xff00 = 0
  | forced _, _ => True

/-- Exit arguments that the status can carry: not negative, and nothing in bits 8 to 23. -/
def Plain : Death → Prop
  | exit arg => 0 ≤ arg ∧ arg &&& 0xffff00 = 0
  | _ => True

instance : (d : Death) → Decidable d.Plain
  | exit _ => inferInstanceAs (Decidable (_ ∧ _))
  | signal _ => inferInstanceAs (Decidable True)
  | forced _ => inferInstanceAs (Decidable True)

/-- The shift by eight loses nothing that the mask would keep. -/
theorem shift_of_masked {n : BitVec 32} (h : n &&& 0xffff00#32 = 0#32) :
    n <<< 8 = (n &&& 0xff#32) <<< 8 := by
  have hbit : ∀ i, 8 ≤ i → i < 24 → n.getLsbD i = false := by
    intro i h8 h24
    have hi := congrArg (fun x => BitVec.getLsbD x i) h
    have hmask : (0xffff00#32).getLsbD i = true := by
      interval_cases i <;> rfl
    simpa [hmask] using hi
  apply BitVec.eq_of_getLsbD_eq
  intro i hi
  by_cases h8 : i < 8
  · simp [h8]
  by_cases h16 : i < 16
  · have hmask : (0xff#32).getLsbD (i - 8) = true := by
      have hlt : i - 8 < 8 := by omega
      generalize i - 8 = j at hlt
      interval_cases j <;> rfl
    simp [hmask]
  · simp [hbit (i - 8) (by omega) (by omega)]

theorem reported_of_plain (h : d.Plain) : d.Reported (waitStatus d.code) := by
  cases d with
  | exit arg =>
    obtain ⟨hpos, hmask⟩ := h
    have hneg : ¬ arg < 0 := Int32.not_lt.mpr hpos
    show waitStatus arg = _
    rw [waitStatus, if_neg hneg]
    apply Int32.toBitVec.inj
    exact shift_of_masked (congrArg Int32.toBitVec hmask)
  | signal bit =>
    revert bit
    unfold Reported
    decide +kernel
  | forced code => trivial

end Death

inductive Op where
  | setCurrent (tid : ℕ)
  | spawn (heap : Heap) (parent : Option ℕ) (entry : UInt64)
  | fork (heap : Heap)
  | forkShared
  | cloneThread (heap : Heap) (fuel stack : ℕ) (tls : Option ℕ)
  | execve (cloneHeap stackHeap : Heap) (entry : UInt64) (sp : Option UInt64)
  | exit (heap : Heap) (arg : Int32)
  | exitGroup (heap : Heap) (arg : Int32)
  | signalExit (heap : Heap) (bit : Fin 64)
  | forceExit (heap : Heap) (tgid : ℕ) (code : Int32)
  | wait (parent : ℕ) (selector : WaitSelector)

def Op.death : Op → Option Death
  | exit _ arg => some (.exit arg)
  | exitGroup _ arg => some (.exit arg)
  | signalExit _ bit => some (.signal bit)
  | forceExit _ _ code => some (.forced code)
  | _ => none

def Op.run (hal : HalMemory) (t : Table) : Op → Option Table
  | setCurrent tid => some (t.setCurrent tid).2
  | spawn heap parent entry => some (t.spawn hal heap parent entry).2
  | fork heap => some (t.forkProcessFromCurrent hal heap).2
  | forkShared => some t.forkProcessFromCurrentShared.2
  | cloneThread heap fuel stack tls =>
    (t.cloneThreadFromCurrent hal heap fuel stack tls).map Prod.snd
  | execve cloneHeap stackHeap entry sp =>
    some (t.execveCurrentImage hal cloneHeap stackHeap entry sp).2
  | exit heap arg => some (t.exitCurrentThread hal heap arg).2
  | exitGroup heap arg => some (t.exitCurrentProcessGroup hal heap arg).2
  | signalExit heap bit => some (t.exitCurrentThread hal heap (Death.signal bit).code).2
  | forceExit heap tgid code => some (t.forceExitGroup hal heap code tgid).2
  | wait parent selector => some (t.waitChild parent selector).2

def hasLive (g : ℕ) (t : Table) : Bool := !(t.liveTidsInTgid g).isEmpty

structure History where
  table : Table
  ended : ℕ → Option Death

/-- A group ends with the operation that leaves it without a live thread. -/
def record (op : Op) (s : History) (t : Table) : ℕ → Option Death := fun g =>
  if op.death.isSome && hasLive g s.table && !hasLive g t then op.death else s.ended g

def next (hal : HalMemory) (op : Op) (s : History) : Option History :=
  (op.run hal s.table).map fun t => ⟨t, record op s t⟩

def boot (spaces : ℕ → AddressSpaceInner) (mem : Memory) : History :=
  ⟨⟨1, 0, ∅, ∅, spaces, 0, mem⟩, fun _ => none⟩

/-- The first thread has exited while the second, of the same group, lives on. -/
def leftEarly (q r : Process) : Bool :=
  q.tgid == r.tgid && q.state == .exited && r.state != .exited

def deadChild (parent : ℕ) (p : Process) : Bool := p.state == .exited && p.parent == some parent

/-- No thread has exited early in a child group of the waiter, or in a child group of a dead
child. -/
def WaitSafe (parent : ℕ) (t : Table) : Prop :=
  ∀ q ∈ t.values, ∀ r ∈ t.values, leftEarly q r → q.parent ≠ some parent ∧
    ∀ z ∈ t.values, deadChild parent z → q.parent ≠ some z.tgid

instance (parent : ℕ) (t : Table) : Decidable (WaitSafe parent t) :=
  inferInstanceAs (Decidable (∀ q ∈ t.values, ∀ r ∈ t.values, leftEarly q r →
    q.parent ≠ some parent ∧ ∀ z ∈ t.values, deadChild parent z → q.parent ≠ some z.tgid))

def ofCurrent (t : Table) (ok : Process → Bool) : Bool :=
  match t.current with
  | .ok p => ok p
  | .error _ => true

/-- Threads are made and ended in groups that are alive; an exit that ends its group has a plain
argument; `execve` is called by the group leader; a wait meets no group that lost only some of
its threads. -/
def Orderly (t : Table) : Op → Prop
  | .cloneThread .. => ofCurrent t fun p => hasLive p.tgid t
  | .execve .. => ofCurrent t fun p => p.tid = p.tgid
  | .exit _ arg => ofCurrent t fun p =>
      hasLive p.tgid t && (t.groupAlive p.tgid p.tid || decide (Death.exit arg).Plain)
  | .exitGroup _ arg => ofCurrent t fun p => hasLive p.tgid t && decide (Death.exit arg).Plain
  | .signalExit .. => ofCurrent t fun p => hasLive p.tgid t
  | .forceExit _ tgid _ => hasLive tgid t
  | .wait parent _ => WaitSafe parent t
  | _ => True

instance (t : Table) : (op : Op) → Decidable (Orderly t op)
  | .setCurrent _ => inferInstanceAs (Decidable True)
  | .spawn .. => inferInstanceAs (Decidable True)
  | .fork _ => inferInstanceAs (Decidable True)
  | .forkShared => inferInstanceAs (Decidable True)
  | .cloneThread .. => inferInstanceAs (Decidable (_ = true))
  | .execve .. => inferInstanceAs (Decidable (_ = true))
  | .exit .. => inferInstanceAs (Decidable (_ = true))
  | .exitGroup .. => inferInstanceAs (Decidable (_ = true))
  | .signalExit .. => inferInstanceAs (Decidable (_ = true))
  | .forceExit .. => inferInstanceAs (Decidable (_ = true))
  | .wait .. => inferInstanceAs (Decidable (WaitSafe _ _))

inductive Reachable (hal : HalMemory) : History → Prop where
  | boot (spaces : ℕ → AddressSpaceInner) (mem : Memory) : Reachable hal (boot spaces mem)
  | step {s s' : History} {op : Op} (hs : Reachable hal s) (ho : Orderly s.table op)
      (hn : next hal op s = some s') : Reachable hal s'

abbrev Kinship := ℕ → Option Kin

def LiveIn (K : Kinship) (g : ℕ) : Prop := ∃ j q, K j = some q ∧ q.tgid = g ∧ q.Live

theorem hasLive_iff {t : Table} : hasLive g t = true ↔ LiveIn (kin t) g := by
  have hne : hasLive g t = true ↔ ∃ tid, tid ∈ t.liveTidsInTgid g := by
    rw [hasLive, Bool.not_eq_true', List.isEmpty_eq_false_iff_exists_mem]
  simp only [hne, liveTidsInTgid, List.mem_map, List.mem_filter, mem_values, Bool.and_eq_true,
    beq_iff_eq, bne_iff_ne]
  constructor
  · rintro ⟨_, p, ⟨⟨j, hj⟩, hg, hlive⟩, _⟩
    exact ⟨j, kinOf p, kin_of_entry hj, hg, hlive⟩
  · rintro ⟨j, q, hq, hg, hlive⟩
    obtain ⟨p, hp, rfl⟩ := kin_eq_some.mp hq
    exact ⟨p.tid, p, ⟨⟨j, hp⟩, hg, hlive⟩, rfl⟩

/-- Entries are filed under their tids; a group has its leader's entry and one parent; a group
without a live thread ended as recorded, and all its entries carry that exit code. -/
structure Sound (K : Kinship) (nextPid : ℕ) (ended : ℕ → Option Death) : Prop where
  keyed : ∀ {j q}, K j = some q → q.tid = j ∧ j < nextPid ∧ q.isThread = false
  leader : ∀ {j q}, K j = some q → ∃ l, K q.tgid = some l ∧ l.tgid = q.tgid
  family : ∀ {i j a b}, K i = some a → K j = some b → a.tgid = b.tgid → a.parent = b.parent
  dead : ∀ {j q}, K j = some q → ¬ LiveIn K q.tgid →
    ∃ d, ended q.tgid = some d ∧ d.Plain ∧ q.exitCode = some d.code

structure SamePlace (q q' : Kin) : Prop where
  tid : q'.tid = q.tid
  tgid : q'.tgid = q.tgid
  parent : q'.parent = q.parent
  isThread : q'.isThread = q.isThread

theorem samePlace_ite {c : Prop} [Decidable c] {code : Int32} (q : Kin) :
    SamePlace q (if c then q.ended code else q) := by
  split <;> exact ⟨rfl, rfl, rfl, rfl⟩

namespace Sound

variable {K : Kinship} {n : ℕ} {E : ℕ → Option Death}

section

variable (h : Sound K n E) {E' : ℕ → Option Death}
include h

theorem tgid_lt (hq : K j = some q) : q.tgid < n := by
  obtain ⟨l, hl, -⟩ := h.leader hq
  exact (h.keyed hl).2.1

theorem bump : Sound K (n + 1) E where
  keyed hq := ⟨(h.keyed hq).1, Nat.lt_succ_of_lt (h.keyed hq).2.1, (h.keyed hq).2.2⟩
  leader := h.leader
  family := h.family
  dead := h.dead

/-- A new entry: a group of its own, or one more thread of a group that is alive. -/
theorem insert {parent : Option ℕ}
    (hg : g = n ∨ LiveIn K g ∧ ∀ j q, K j = some q → q.tgid = g → q.parent = parent) :
    Sound (update K n (some (newborn n g parent))) (n + 1) E := by
  have hkeep : ∀ {j q}, K j = some q → update K n (some (newborn n g parent)) j = some q := by
    intro j q hq
    rwa [update_of_ne (ne_of_lt (h.keyed hq).2.1)]
  have hparent : ∀ {j q}, K j = some q → q.tgid = g → q.parent = parent := by
    intro j q hq hqg
    rcases hg with rfl | ⟨-, hg⟩
    · exact absurd (h.tgid_lt hq) (hqg ▸ lt_irrefl _)
    · exact hg j q hq hqg
  refine ⟨fun hq => ?_, fun hq => ?_, fun ha hb hab => ?_, fun hq hdead => ?_⟩
  · rcases update_eq_some.mp hq with ⟨rfl, rfl⟩ | ⟨-, hq⟩
    · exact ⟨rfl, Nat.lt_succ_self _, rfl⟩
    · exact h.bump.keyed hq
  · rcases update_eq_some.mp hq with ⟨-, rfl⟩ | ⟨-, hq⟩
    · rcases hg with rfl | ⟨⟨i, a, ha, rfl, -⟩, -⟩
      · exact ⟨_, update_self .., rfl⟩
      · obtain ⟨l, hl, hlg⟩ := h.leader ha
        exact ⟨l, hkeep hl, hlg⟩
    · obtain ⟨l, hl, hlg⟩ := h.leader hq
      exact ⟨l, hkeep hl, hlg⟩
  · rcases update_eq_some.mp ha with ⟨-, rfl⟩ | ⟨-, ha⟩ <;>
      rcases update_eq_some.mp hb with ⟨-, rfl⟩ | ⟨-, hb⟩
    · rfl
    · exact (hparent hb hab.symm).symm
    · exact hparent ha hab
    · exact h.family ha hb hab
  · rcases update_eq_some.mp hq with ⟨-, rfl⟩ | ⟨-, hq⟩
    · exact absurd ⟨n, _, update_self .., rfl, nofun⟩ hdead
    · refine h.dead hq fun ⟨i, a, ha, hag, hlive⟩ => hdead ⟨i, a, hkeep ha, hag, hlive⟩

/-- A change of the entries that leaves their place among the others alone: the exit of a thread
whose group lives on, and the end of a group. -/
theorem congr {K' : Kinship} {f : ℕ → Kin → Kin} (hK : ∀ j, K' j = (K j).map (f j))
    (hf : ∀ j q, SamePlace q (f j q))
    (hdead : ∀ j q, K j = some q → ¬ LiveIn K' q.tgid →
      ∃ d, E' q.tgid = some d ∧ d.Plain ∧ (f j q).exitCode = some d.code) : Sound K' n E' := by
  have hold : ∀ {j q'}, K' j = some q' → ∃ q, K j = some q ∧ f j q = q' := by
    intro j q' hq'
    rw [hK] at hq'
    exact map_eq_some_iff.mp hq'
  refine ⟨fun hq' => ?_, fun hq' => ?_, fun ha' hb' hab => ?_, fun hq' hlive => ?_⟩
  · obtain ⟨q, hq, rfl⟩ := hold hq'
    rw [(hf _ q).tid, (hf _ q).isThread]
    exact h.keyed hq
  · obtain ⟨q, hq, rfl⟩ := hold hq'
    obtain ⟨l, hl, hlg⟩ := h.leader hq
    rw [(hf _ q).tgid, hK, hl]
    exact ⟨_, rfl, (hf _ l).tgid.trans hlg⟩
  · obtain ⟨a, ha, rfl⟩ := hold ha'
    obtain ⟨b, hb, rfl⟩ := hold hb'
    rw [(hf _ a).tgid, (hf _ b).tgid] at hab
    rw [(hf _ a).parent, (hf _ b).parent]
    exact h.family ha hb hab
  · obtain ⟨q, hq, rfl⟩ := hold hq'
    rw [(hf _ q).tgid] at hlive ⊢
    exact hdead _ q hq hlive

theorem endGroup (hd : d.Plain) (hg : E' g = some d) (hother : ∀ k, k ≠ g → E' k = E k) :
    Sound (fun j => (K j).map (Kin.inGroup g (Kin.ended d.code))) n E' := by
  refine h.congr (f := fun _ => Kin.inGroup g (Kin.ended d.code)) (fun j => rfl)
    (fun _ q => samePlace_ite q) fun j q hq hdead => ?_
  by_cases hqg : q.tgid = g
  · rw [Kin.inGroup, if_pos hqg, hqg]
    exact ⟨d, hg, hd, rfl⟩
  · rw [Kin.inGroup, if_neg hqg, hother _ hqg]
    refine h.dead hq ?_
    rintro ⟨i, a, ha, hag, hlive⟩
    refine hdead ⟨i, a, ?_, hag, hlive⟩
    simp [ha, Kin.inGroup, if_neg (hag ▸ hqg)]

theorem leave {k : ℕ} {code : Int32} (hq : K k = some q)
    (hlive : ∃ j a, K j = some a ∧ a.tgid = q.tgid ∧ a.tid ≠ q.tid ∧ a.Live) :
    Sound (update K k (some (q.ended code))) n E := by
  have hsame : ∀ {b}, K k = some b → b = q := fun hb => some.inj (hb.symm.trans hq)
  refine h.congr (f := fun j a => if j = k then Kin.ended code a else a) (fun j => ?_)
    (fun _ a => samePlace_ite a) fun j a ha hdead => ?_
  · by_cases hj : j = k
    · subst hj
      rw [hq]
      simp
    · simp [hj]
  · obtain ⟨i, b, hb, hbg, hbtid, hblive⟩ := hlive
    -- the entry is of another group, since its group has no live thread left
    have hag : a.tgid ≠ q.tgid := by
      intro hag
      have hi : i ≠ k := fun hi => hbtid (congrArg Kin.tid (hsame (hi ▸ hb)))
      exact hdead ⟨i, b, (update_of_ne hi ..).trans hb, hbg.trans hag.symm, hblive⟩
    have hj : j ≠ k := fun hj => hag (congrArg Kin.tgid (hsame (hj ▸ ha)))
    simp only [hj]
    refine h.dead ha fun ⟨l, c, hc, hcg, hclive⟩ => hdead ⟨l, c, ?_, hcg, hclive⟩
    have hl : l ≠ k := fun hl => hag (hcg.symm.trans (congrArg Kin.tgid (hsame (hl ▸ hc))))
    rw [update_of_ne hl, hc]

/-- The leader of a group replaces its image and is the group's only entry from then on. -/
theorem execve (hq : K g = some q) (hg : q.tgid = g) :
    Sound (update (fun j => (K j).filter fun a => a.tgid != g) g (some q.reset)) n E := by
  have hkeep : ∀ {j a}, K j = some a → a.tgid ≠ g →
      update (fun j => (K j).filter fun a => a.tgid != g) g (some q.reset) j = some a := by
    intro j a ha hag
    refine replaced_eq_some.mpr (.inr ⟨?_, ha, hag⟩)
    rintro rfl
    rw [some.inj (ha.symm.trans hq)] at hag
    exact hag hg
  refine ⟨fun ha => ?_, fun ha => ?_, fun ha hb hab => ?_, fun ha hdead => ?_⟩
  · rcases replaced_eq_some.mp ha with ⟨rfl, rfl⟩ | ⟨-, ha, -⟩
    · exact ⟨(h.keyed hq).1, (h.keyed hq).2.1, rfl⟩
    · exact h.keyed ha
  · rcases replaced_eq_some.mp ha with ⟨rfl, rfl⟩ | ⟨-, ha, hag⟩
    · exact ⟨_, replaced_eq_some.mpr (.inl ⟨hg, rfl⟩), rfl⟩
    · obtain ⟨l, hl, hlg⟩ := h.leader ha
      exact ⟨l, hkeep hl (hlg.trans_ne hag), hlg⟩
  · rcases replaced_eq_some.mp ha with ⟨-, rfl⟩ | ⟨-, ha, hag⟩ <;>
      rcases replaced_eq_some.mp hb with ⟨-, rfl⟩ | ⟨-, hb, hbg⟩
    · rfl
    · exact absurd (hab.symm.trans hg) hbg
    · exact absurd (hab.trans hg) hag
    · exact h.family ha hb hab
  · rcases replaced_eq_some.mp ha with ⟨-, rfl⟩ | ⟨-, ha, hag⟩
    · exact absurd ⟨g, _, update_self .., rfl, nofun⟩ hdead
    · exact h.dead ha fun ⟨i, b, hb, hbg, hlive⟩ =>
        hdead ⟨i, b, hkeep hb (hbg.trans_ne hag), hbg, hlive⟩

/-- A group is reaped; its live children change their parent together with their groups. -/
theorem reap {c init : ℕ}
    (hwhole : ∀ {i j a b}, K i = some a → K j = some b → a.tgid = b.tgid → a.parent = some c →
      a.state = .exited → b.state = .exited) :
    Sound (fun j => ((K j).filter fun a => a.tgid != c).map (Kin.adopt c init)) n E := by
  refine ⟨fun ha' => ?_, fun ha' => ?_, fun ha' hb' hab => ?_, fun ha' hdead => ?_⟩
  · obtain ⟨a, ha, -, rfl⟩ := reaped_eq_some.mp ha'
    rw [Kin.adopt_tid, Kin.adopt_isThread]
    exact h.keyed ha
  · obtain ⟨a, ha, hac, rfl⟩ := reaped_eq_some.mp ha'
    obtain ⟨l, hl, hlg⟩ := h.leader ha
    rw [Kin.adopt_tgid]
    exact ⟨_, reaped_eq_some.mpr ⟨l, hl, hlg.trans_ne hac, rfl⟩, (Kin.adopt_tgid ..).trans hlg⟩
  · obtain ⟨a, ha, hac, rfl⟩ := reaped_eq_some.mp ha'
    obtain ⟨b, hb, hbc, rfl⟩ := reaped_eq_some.mp hb'
    rw [Kin.adopt_tgid, Kin.adopt_tgid] at hab
    have hpar := h.family ha hb hab
    have hthread := (h.keyed ha).2.2.trans (h.keyed hb).2.2.symm
    -- both entries are adopted, or neither is
    have hstate : a.parent = some c → (a.state = .exited ↔ b.state = .exited) := fun hc =>
      ⟨hwhole ha hb hab hc, hwhole hb ha hab.symm (hpar ▸ hc)⟩
    by_cases hc : a.parent = some c
    · have hlive : (a.state != .exited) = (b.state != .exited) := by
        rw [Bool.eq_iff_iff, bne_iff_ne, bne_iff_ne]
        exact not_congr (hstate hc)
      rw [Kin.adopt_parent, Kin.adopt_parent, hthread, hpar, hab, hlive]
    · rw [Kin.adopt_of_ne hc, Kin.adopt_of_ne (hpar ▸ hc), hpar]
  · obtain ⟨a, ha, hac, rfl⟩ := reaped_eq_some.mp ha'
    rw [Kin.adopt_tgid] at hdead ⊢
    rw [Kin.adopt_exitCode]
    refine h.dead ha fun ⟨i, b, hb, hbg, hlive⟩ =>
      hdead ⟨i, _, reaped_eq_some.mpr ⟨b, hb, hbg.trans_ne hac, rfl⟩, ?_, ?_⟩
    · rwa [Kin.adopt_tgid]
    · rwa [Kin.Live, Kin.adopt_state]

end

end Sound

section Steps

variable {hal : HalMemory} {s : History} {t u : Table} {op : Op}

abbrev Sound.of (s : History) : Prop := Sound (kin s.table) s.table.nextPid s.ended

/-- What an operation that ends nobody does to the entries and to the next number. -/
inductive KinStep (t : Table) : Op → Kinship → ℕ → Prop where
  | same {op : Op} : KinStep t op (kin t) t.nextPid
  | refused {op : Op} : KinStep t op (kin t) (t.nextPid + 1)
  | spawned {heap : Heap} {parent : Option ℕ} {entry : UInt64} : KinStep t (.spawn heap parent entry)
      (update (kin t) t.nextPid (some (newborn t.nextPid t.nextPid parent))) (t.nextPid + 1)
  | forked {op : Op} {p : Process} : t.current = .ok p → KinStep t op
      (update (kin t) t.nextPid (some (newborn t.nextPid t.nextPid (some p.tgid)))) (t.nextPid + 1)
  | joined {heap : Heap} {fuel stack : ℕ} {tls : Option ℕ} {p : Process} : t.current = .ok p →
      KinStep t (.cloneThread heap fuel stack tls)
        (update (kin t) t.nextPid (some (newborn t.nextPid p.tgid p.parent))) (t.nextPid + 1)
  | replaced {cloneHeap stackHeap : Heap} {entry : UInt64} {sp : Option UInt64} {p : Process} :
      t.current = .ok p → p.tid = t.currentTid → KinStep t (.execve cloneHeap stackHeap entry sp)
        (update (fun j => (kin t j).filter fun q => q.tgid != p.tgid) t.currentTid
          (some (kinOf p).reset)) t.nextPid
  | reaped {parent j : ℕ} {selector : WaitSelector} {z : Process} :
      t.find (fun p => (!p.isThread && p.parent == some parent && selectorMatches selector p) &&
        p.state == .exited) = some z →
      kin t j = some (kinOf z) → z.parent = some parent → z.state = .exited →
      KinStep t (.wait parent selector)
        (fun j => ((kin t j).filter fun q => q.tgid != z.tgid).map (Kin.adopt z.tgid t.initTgid))
        t.nextPid

theorem run_kinStep (hkeyed : ∀ {j q}, kin t j = some q → q.tid = j) (hd : op.death = none)
    (hrun : op.run hal t = some u) : KinStep t op (kin u) u.nextPid := by
  have hbegets : ∀ {made : Process → Process → Prop}, Begets t u made →
      (∀ p c, t.current = .ok p → made p c →
        KinStep t op (update (kin t) t.nextPid (some (kinOf c))) (t.nextPid + 1)) →
      KinStep t op (kin u) u.nextPid := by
    intro made hu hmade
    rw [show u.nextPid = t.nextPid + 1 from congrArg Prod.fst hu.counters]
    rcases hu.kin with hk | ⟨p, c, hp, hc, hk⟩
    · exact hk ▸ .refused
    · exact hk ▸ hmade p c hp hc
  cases op with
  | exit | exitGroup | signalExit | forceExit => cases hd
  | setCurrent tid =>
    cases hrun
    unfold setCurrent
    split <;> exact .same
  | spawn heap parent entry =>
    cases hrun
    obtain ⟨hkin, hn⟩ := spawn_kin hal heap parent entry t
    rw [hkin]
    exact .spawned
  | fork heap =>
    cases hrun
    exact hbegets (begets_fork hal heap t) fun p c hp hc => hc ▸ .forked hp
  | forkShared =>
    cases hrun
    exact hbegets (begets_forkShared t) fun p c hp hc => hc ▸ .forked hp
  | cloneThread heap fuel stack tls =>
    obtain ⟨⟨r, v⟩, hclone, rfl⟩ := map_eq_some_iff.mp hrun
    exact hbegets (begets_cloneThread hclone) fun p c hp hc => hc.1 ▸ .joined hp
  | execve cloneHeap stackHeap entry sp =>
    cases hrun
    rcases hp : t.current with e | p
    · rw [execveCurrentImage, hp]
      exact .same
    have hkey : p.tid = t.currentTid := hkeyed (current_kin hp)
    have hn : (t.execveCurrentImage hal cloneHeap stackHeap entry sp).2.nextPid = t.nextPid :=
      congrArg Prod.fst (execveCurrentImage_counters hal cloneHeap stackHeap entry sp t)
    rw [execveCurrentImage_kin hal cloneHeap stackHeap entry sp hp hkey, hn]
    exact .replaced hp hkey
  | wait parent selector =>
    cases hrun
    simp only [waitChild]
    split
    · split <;> exact .same
    next z hfind =>
    obtain ⟨⟨j, hj⟩, hz⟩ := find_some hfind
    simp only [Bool.and_eq_true, beq_iff_eq] at hz
    obtain ⟨hkin, hc⟩ := reapThreadGroup_kin z.tgid t
    rw [hkin, show (t.reapThreadGroup z.tgid).nextPid = t.nextPid from congrArg Prod.fst hc]
    exact .reaped hfind (kin_of_entry hj) hz.1.1.2 hz.2

theorem record_of_death_none (h : op.death = none) : record op s t = s.ended := by
  funext g
  rw [record, h]
  rfl

theorem record_of_live (h : ∀ g, LiveIn (kin s.table) g → LiveIn (kin t) g) :
    record op s t = s.ended := by
  funext g
  have himp := h g
  rw [← hasLive_iff, ← hasLive_iff] at himp
  unfold record
  cases hb : hasLive g s.table with
  | false => simp
  | true => simp [himp hb]

theorem record_endGroup (hd : op.death = some d) (hlive : hasLive g s.table = true)
    (ht : kin t = fun j => (kin s.table j).map (Kin.inGroup g (Kin.ended d.code))) :
    record op s t g = some d ∧ ∀ k, k ≠ g → record op s t k = s.ended k := by
  have hgone : hasLive g t = false := by
    rw [Bool.eq_false_iff, ne_eq, hasLive_iff, ht]
    rintro ⟨j, q, hq, hqg, hlive⟩
    obtain ⟨a, -, rfl⟩ := map_eq_some_iff.mp hq
    unfold Kin.inGroup at hqg hlive
    split at hlive
    · exact hlive rfl
    · next hag =>
      rw [if_neg hag] at hqg
      exact hag hqg
  refine ⟨by simp [record, hd, hlive, hgone], fun k hk => ?_⟩
  have hsame : hasLive k s.table = true → hasLive k t = true := by
    rw [hasLive_iff, hasLive_iff, ht]
    rintro ⟨j, q, hq, hqk, hlive⟩
    refine ⟨j, q, ?_, hqk, hlive⟩
    simp [hq, Kin.inGroup, if_neg (hqk.trans_ne hk)]
  unfold record
  cases hb : hasLive k s.table with
  | false => simp
  | true => simp [hsame hb]

theorem endGroup_sound (h : Sound.of s) (hd : op.death = some d) (hplain : d.Plain)
    (hlive : hasLive g s.table = true)
    (ht : kin t = fun j => (kin s.table j).map (Kin.inGroup g (Kin.ended d.code)))
    (hc : counters t = counters s.table) : Sound.of ⟨t, record op s t⟩ := by
  obtain ⟨hg, hother⟩ := record_endGroup hd hlive ht
  have hn : t.nextPid = s.table.nextPid := congrArg Prod.fst hc
  show Sound (kin t) t.nextPid (record op s t)
  rw [ht, hn]
  exact h.endGroup hplain hg hother

theorem ofCurrent_ok {p : Process} {ok : Process → Bool} (h : ofCurrent t ok = true)
    (hp : t.current = .ok p) : ok p = true := by
  rwa [ofCurrent, hp] at h

theorem exitThread_sound (hal : HalMemory) (heap : Heap) (h : Sound.of s) (hd : op.death = some d)
    (ho : ofCurrent s.table (fun p => hasLive p.tgid s.table &&
      (s.table.groupAlive p.tgid p.tid || decide d.Plain)) = true)
    (ht : t = (s.table.exitCurrentThread hal heap d.code).2) : Sound.of ⟨t, record op s t⟩ := by
  subst ht
  have hc := exitCurrentThread_counters hal heap d.code s.table
  rcases hp : s.table.current with e | p
  · have hsame : (s.table.exitCurrentThread hal heap d.code).2 = s.table := by
      rw [exitCurrentThread, hp]
    rw [hsame, record_of_live fun g hg => hg]
    exact h
  have ho := ofCurrent_ok ho hp
  rw [Bool.and_eq_true, Bool.or_eq_true, decide_eq_true_eq] at ho
  have hkin := exitCurrentThread_kin hal heap d.code hp
  by_cases halive : s.table.groupAlive p.tgid p.tid = true
  · rw [if_pos halive] at hkin
    have hcur := current_kin hp
    have hother := groupAlive_iff.mp halive
    have hrecord : record op s (s.table.exitCurrentThread hal heap d.code).2 = s.ended := by
      refine record_of_live fun g => ?_
      rintro ⟨j, q, hq, hqg, hlive⟩
      rw [hkin]
      by_cases hj : j = s.table.currentTid
      · -- the thread that left is replaced by the one that stays
        rw [hj, hcur] at hq
        obtain ⟨i, a, ha, hag, hatid, halive⟩ := hother
        refine ⟨i, a, ?_, ?_, halive⟩
        · rw [update_of_ne, ha]
          rintro rfl
          rw [hcur] at ha
          exact hatid (congrArg Kin.tid (some.inj ha)).symm
        · rw [hag, ← hqg, ← some.inj hq]
          rfl
      · exact ⟨j, q, by rw [update_of_ne hj, hq], hqg, hlive⟩
    rw [hrecord]
    show Sound (kin _) _ s.ended
    rw [hkin, show (s.table.exitCurrentThread hal heap d.code).2.nextPid = s.table.nextPid from
      congrArg Prod.fst hc]
    exact h.leave hcur hother
  · rw [if_neg halive] at hkin
    exact endGroup_sound h hd (ho.2.resolve_left halive) ho.1 hkin hc

theorem WaitSafe.kin (h : WaitSafe parent t) {i : ℕ} {a b : Kin} (ha : kin t i = some a)
    (hb : kin t j = some b) (hab : a.tgid = b.tgid) (hexited : a.state = .exited)
    (hlive : b.state ≠ .exited) :
    a.parent ≠ some parent ∧ ∀ {l z}, TableEffects.kin t l = some z → z.state = .exited →
      z.parent = some parent → a.parent ≠ some z.tgid := by
  obtain ⟨q, hq, rfl⟩ := kin_eq_some.mp ha
  obtain ⟨r, hr, rfl⟩ := kin_eq_some.mp hb
  have hleft : leftEarly q r = true := by
    simp only [leftEarly, Bool.and_eq_true, beq_iff_eq, bne_iff_ne]
    exact ⟨⟨hab, hexited⟩, hlive⟩
  obtain ⟨hparent, hchild⟩ := h q (mem_values.mpr ⟨i, hq⟩) r (mem_values.mpr ⟨j, hr⟩) hleft
  refine ⟨hparent, fun {l z} hz hzexited hzparent => ?_⟩
  obtain ⟨z, hentry, rfl⟩ := kin_eq_some.mp hz
  refine hchild z (mem_values.mpr ⟨l, hentry⟩) ?_
  simp only [deadChild, Bool.and_eq_true, beq_iff_eq]
  exact ⟨hzexited, hzparent⟩

/-- The group a safe wait picks has no live thread. -/
theorem WaitSafe.dead (h : WaitSafe parent t) (hq : TableEffects.kin t j = some q)
    (hparent : q.parent = some parent) (hexited : q.state = .exited) :
    ¬ LiveIn (TableEffects.kin t) q.tgid := by
  rintro ⟨i, a, ha, hag, hlive⟩
  exact (h.kin hq ha hag.symm hexited hlive).1 hparent

theorem run_sound (h : Sound.of s) (ho : Orderly s.table op) (hrun : op.run hal s.table = some t) :
    Sound.of ⟨t, record op s t⟩ := by
  cases hd : op.death with
  | none =>
    have hstep := run_kinStep (fun hq => (h.keyed hq).1) hd hrun
    rw [record_of_death_none hd]
    show Sound (kin t) t.nextPid s.ended
    generalize kin t = K, t.nextPid = n at hstep
    cases hstep with
    | same => exact h
    | refused => exact h.bump
    | spawned | forked => exact h.insert (.inl rfl)
    | joined hp =>
      refine h.insert (.inr ⟨hasLive_iff.mp (ofCurrent_ok ho hp), ?_⟩)
      exact fun j q hq hqg => h.family hq (current_kin hp) hqg
    | replaced hp hkey =>
      have hleader := of_decide_eq_true (ofCurrent_ok ho hp)
      rw [← hkey, hleader]
      refine h.execve ?_ rfl
      rw [← hleader, hkey, current_kin hp]
    | reaped _ hz hparent hexited =>
      refine h.reap fun ha hb hab hac hadead => ?_
      by_contra hlive
      exact (WaitSafe.kin ho ha hb hab hadead hlive).2 hz hexited hparent hac
  | some d =>
    cases op with
    | setCurrent | spawn | fork | forkShared | cloneThread | execve | wait => cases hd
    | exit heap arg => exact exitThread_sound hal heap h rfl ho (some.inj hrun).symm
    | exitGroup heap arg =>
      cases hrun
      rcases hp : s.table.current with e | p
      · rw [exitCurrentProcessGroup, hp, record_of_live fun g hg => hg]
        exact h
      have ho := ofCurrent_ok ho hp
      rw [Bool.and_eq_true, decide_eq_true_eq] at ho
      exact endGroup_sound h rfl ho.2 ho.1 (exitCurrentProcessGroup_kin hal heap arg hp)
        (exitCurrentProcessGroup_counters hal heap arg s.table)
    | signalExit heap bit =>
      refine exitThread_sound hal heap (d := .signal bit) h rfl ?_ (some.inj hrun).symm
      have hplain : decide (Death.signal bit).Plain = true := decide_eq_true trivial
      unfold ofCurrent
      rcases hp : s.table.current with e | p
      · rfl
      have hlive : hasLive p.tgid s.table = true := ofCurrent_ok ho hp
      simp [hlive, hplain]
    | forceExit heap tgid code =>
      cases hrun
      exact endGroup_sound (d := .forced code) h rfl trivial ho
        (forceExitGroup_kin hal heap code tgid s.table)
        (forceExitGroup_counters hal heap code tgid s.table)

theorem reachable_sound (h : Reachable hal s) : Sound.of s := by
  induction h with
  | boot spaces mem =>
    exact ⟨fun hq => (kin_empty hq).elim, fun hq => (kin_empty hq).elim,
      fun hq => (kin_empty hq).elim, fun hq => (kin_empty hq).elim⟩
  | step _ ho hn ih =>
    obtain ⟨t, hrun, rfl⟩ := map_eq_some_iff.mp hn
    exact run_sound ih ho hrun

end Steps

/-- In every orderly run, a wait that finds a dead child reaps a group all of whose threads had
exited and had the waiter for a parent, removes that group's entries and no others, and reports
how the group ended. -/
theorem wait_reaps_and_reports {hal : HalMemory} {s : History} (hs : Reachable hal s)
    {parent c : ℕ} {selector : WaitSelector} {status : Int32} {t : Table}
    (hsafe : WaitSafe parent s.table)
    (hw : s.table.waitChild parent selector = (.ok (c, status), t)) (hc : c ≠ 0) :
    (∀ (j : ℕ) (p : Process), s.table.processes[j]? = some p → p.tgid = c →
      p.state = .exited ∧ p.parent = some parent) ∧
    (∀ j : ℕ, j ∈ t.processes ↔ ∃ p, s.table.processes[j]? = some p ∧ p.tgid ≠ c) ∧
    ∃ d, s.ended c = some d ∧ d.Reported status := by
  have h := reachable_sound hs
  rcases waitChild_cases parent selector s.table with
    ⟨-, hr⟩ | ⟨j, q, hq, -, hqp, hexited, hr, hreap⟩
  · rw [hw] at hr
    rcases hr with hr | hr
    · simp only [Except.ok.injEq, Prod.mk.injEq] at hr
      exact absurd hr.1 hc
    · cases hr
  · rw [hw] at hr hreap
    simp only [Except.ok.injEq] at hr hreap
    obtain ⟨rfl, rfl⟩ := hr
    have hdead := hsafe.dead hq hqp hexited
    refine ⟨fun i p hp hpg => ?_, fun i => ?_, ?_⟩
    · have hpk := kin_of_entry hp
      refine ⟨?_, (h.family hpk hq hpg).trans hqp⟩
      by_contra hlive
      exact hdead ⟨i, kinOf p, hpk, hpg, hlive⟩
    · have hmem : i ∈ t.processes ↔ (kin t i).isSome := by
        rw [kin, isSome_map, Std.ExtTreeMap.mem_iff_isSome_getElem?]
      rw [hmem, hreap, (reapThreadGroup_kin q.tgid s.table).1]
      cases hp : s.table.processes[i]? with
      | none => simp [kin, hp]
      | some p => simp [kin, hp, kinOf]
    · obtain ⟨l, hl, hlg⟩ := h.leader hq
      obtain ⟨d, hd, hplain, hcode⟩ := h.dead hl (hlg ▸ hdead)
      refine ⟨d, hlg ▸ hd, ?_⟩
      rw [hl, bind_some, hcode]
      exact Death.reported_of_plain hplain

/-! Concrete runs, on a machine whose heap refuses: no user stack is ever mapped. -/

def emptyHandedHeap : Heap := ⟨fun _ => false, 0, id⟩

def bareBoot : History := boot (fun _ => newUser board) fun _ => 0

def runOps : List Op → History → Option History
  | [], s => some s
  | op :: ops, s => (next board op s).bind (runOps ops)

def orderlyRun : List Op → History → Bool
  | [], _ => true
  | op :: ops, s => decide (Orderly s.table op) &&
      ((next board op s).map (orderlyRun ops)).getD true

theorem reachable_runOps {ops : List Op} {s s' : History}
    (hs : Reachable board s) (ho : orderlyRun ops s = true)
    (hrun : runOps ops s = some s') : Reachable board s' := by
  induction ops generalizing s with
  | nil =>
    cases hrun
    exact hs
  | cons op ops ih =>
    obtain ⟨u, hu, hrest⟩ := bind_eq_some_iff.mp hrun
    rw [orderlyRun, hu, Bool.and_eq_true, decide_eq_true_eq] at ho
    exact ih (hs.step ho.1 hu) ho.2 hrest

def childRunning : List Op := [.spawn emptyHandedHeap none 0, .fork emptyHandedHeap, .setCurrent 2]

def threadRunning : List Op :=
  childRunning ++ [.cloneThread emptyHandedHeap 0 0x1000 none, .setCurrent 3]

def waitAfter (ops : List Op) : Option (Option (ℕ × Int32) × Option ProcessState) :=
  (runOps ops bareBoot).map fun s =>
    ((s.table.waitChild 1 .any).1.toOption, s.table.processes[2]?.map Process.state)

/-- A group is reaped while its leader runs, because another thread has exited; `exit(256)` is
reported as status 65536; `exit(-1)` is reported as a death by signal 1; and the status of a
group whose leader's entry was removed by another thread's `execve` is zero. -/
theorem wait_misreports :
    waitAfter (threadRunning ++ [.exit emptyHandedHeap 0]) = some (some (2, 0), some .ready) ∧
    waitAfter (childRunning ++ [.exitGroup emptyHandedHeap 256]) =
      some (some (2, 0x10000), some .exited) ∧
    waitAfter (childRunning ++ [.exitGroup emptyHandedHeap (-1)]) =
      some (some (2, 1), some .exited) ∧
    waitAfter (threadRunning ++ [.execve emptyHandedHeap emptyHandedHeap 0 none,
      .exitGroup emptyHandedHeap 7]) = some (some (2, 0), none) := by
  decide +kernel

/-- A child that exits with 3 is reaped with status `3 << 8`. -/
theorem wait_reaps_and_reports_exit_three :
    ∃ (s : History) (t : Table), s.table.waitChild 1 .any = (.ok (2, 0x300), t) ∧
      s.ended 2 = some (.exit 3) ∧
      (∀ (j : ℕ) (p : Process), s.table.processes[j]? = some p → p.tgid = 2 →
        p.state = .exited ∧ p.parent = some 1) ∧
      ∀ j : ℕ, j ∈ t.processes ↔ ∃ p, s.table.processes[j]? = some p ∧ p.tgid ≠ 2 := by
  set ops := childRunning ++ [.exitGroup emptyHandedHeap 3]
  have hsome : (runOps ops bareBoot).isSome = true := by decide +kernel
  obtain ⟨s, hs⟩ := isSome_iff_exists.mp hsome
  have hreach : Reachable board s :=
    reachable_runOps (.boot _ _) (by decide +kernel : orderlyRun ops bareBoot = true) hs
  have hfacts : (runOps ops bareBoot).map (fun s => (decide (WaitSafe 1 s.table),
      (s.table.waitChild 1 .any).1.toOption,
      (s.ended 2).any fun | .exit n => n == 3 | _ => false)) = some (true, some (2, 0x300), true) := by
    decide +kernel
  rw [hs, map_some, some.injEq, Prod.mk.injEq, Prod.mk.injEq, decide_eq_true_eq,
    toOption_eq_some] at hfacts
  obtain ⟨hsafe, hw, hended⟩ := hfacts
  have hwait : s.table.waitChild 1 .any = (.ok (2, 0x300), (s.table.waitChild 1 .any).2) :=
    Prod.ext hw rfl
  obtain ⟨hdead, hremoved, -⟩ := wait_reaps_and_reports hreach hsafe hwait (by decide)
  refine ⟨s, _, hwait, ?_, hdead, hremoved⟩
  match hd : s.ended 2, hended with
  | some (.exit n), hn => rw [beq_iff_eq.mp (show (n == 3) = true from hn)]
  | some (.signal _), hn => cases hn
  | some (.forced _), hn => cases hn

end WaitReaping
