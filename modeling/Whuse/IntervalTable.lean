import Mathlib.Data.Finset.Basic
import Mathlib.Data.List.Find
import Mathlib.Tactic.Common

/-! Ordered tables of half-open address intervals, keyed by their first address.
A rewriting pass takes a snapshot of the keys, removes each entry and puts back pieces of
it. The pass is described by the pieces alone: no piece leaves the interval it came from,
so a key that is still to be visited is never overwritten. -/
namespace IntervalTable

open List Option Std.ExtTreeMap
open Std (ExtTreeMap)

variable {σ : Type}

structure Extent (σ : Type) where
  start : σ → ℕ
  len : σ → ℕ

variable (E : Extent σ)

def Covers (s : σ) (a : ℕ) : Prop := E.start s ≤ a ∧ a < E.start s + E.len s

instance (s : σ) (a : ℕ) : Decidable (Covers E s a) := inferInstanceAs (Decidable (_ ∧ _))

def Fits (bound : ℕ) (s : σ) : Prop := 0 < E.len s ∧ E.start s + E.len s ≤ bound

/-- Keys are first addresses, entries are non-empty, end below `bound` and do not meet. -/
structure WellFormed (bound : ℕ) (m : ExtTreeMap ℕ σ) : Prop where
  key : ∀ (k : ℕ) s, m[k]? = some s → E.start s = k
  pos : ∀ (k : ℕ) s, m[k]? = some s → 0 < E.len s
  bounded : ∀ (k : ℕ) s, m[k]? = some s → E.start s + E.len s ≤ bound
  disjoint : ∀ (k l : ℕ) s t a, m[k]? = some s → m[l]? = some t →
    Covers E s a → Covers E t a → k = l

/-- The entry `s` of the table contains the address `a`. -/
def EntryAt (m : ExtTreeMap ℕ σ) (a : ℕ) (s : σ) : Prop :=
  ∃ k : ℕ, m[k]? = some s ∧ Covers E s a

/-- The entry that contains `a`, found by the ordered scan. -/
def entryAt (m : ExtTreeMap ℕ σ) (a : ℕ) : Option σ :=
  (m.toList.find? fun p => decide (Covers E p.2 a)).map Prod.snd

variable {E} {bound : ℕ} {m : ExtTreeMap ℕ σ}

theorem covers_start {s : σ} (h : 0 < E.len s) : Covers E s (E.start s) := ⟨le_rfl, by omega⟩

variable {a k : ℕ} {s : σ} {pieces : σ → List σ} {Q : σ → Prop}

theorem WellFormed.fits (h : WellFormed E bound m) (hs : m[k]? = some s) :
    Fits E bound s := ⟨h.pos k s hs, h.bounded k s hs⟩

theorem WellFormed.empty : WellFormed E bound (∅ : ExtTreeMap ℕ σ) := by
  constructor <;> simp

theorem WellFormed.entryAt_unique (h : WellFormed E bound m) {t : σ} (hs : EntryAt E m a s)
    (ht : EntryAt E m a t) : s = t := by
  obtain ⟨k, hk, hks⟩ := hs
  obtain ⟨l, hl, hlt⟩ := ht
  have hkl := h.disjoint k l s t a hk hl hks hlt
  subst hkl
  exact some.inj (hk.symm.trans hl)

theorem WellFormed.entryAt_iff (h : WellFormed E bound m) :
    entryAt E m a = some s ↔ EntryAt E m a s := by
  unfold entryAt
  constructor
  · intro he
    obtain ⟨⟨k, t⟩, hf, rfl⟩ := Option.map_eq_some_iff.mp he
    have hm := mem_of_find?_eq_some hf
    have hc := find?_some hf
    exact ⟨k, mem_toList_iff_getElem?_eq_some.mp hm, by simpa using hc⟩
  · rintro ⟨k, hk, hc⟩
    have hm : (k, s) ∈ m.toList := mem_toList_iff_getElem?_eq_some.mpr hk
    cases hf : m.toList.find? fun p => decide (Covers E p.2 a) with
    | none =>
      have := find?_eq_none.mp hf (k, s) hm
      simp [hc] at this
    | some p =>
      have hp : EntryAt E m a p.2 :=
        ⟨p.1, mem_toList_iff_getElem?_eq_some.mp (mem_of_find?_eq_some hf),
          by simpa using find?_some hf⟩
      exact congrArg some (h.entryAt_unique hp ⟨k, hk, hc⟩)

theorem entryAt_eq_find {test : ℕ × σ → Bool} (h : ∀ p ∈ m.toList, test p = decide (Covers E p.2 a))
    : (m.toList.find? test).map Prod.snd = entryAt E m a := by
  rw [entryAt, find?_congr h]

theorem WellFormed.entryAt_eq_none (h : WellFormed E bound m) :
    entryAt E m a = none ↔ ∀ s, ¬ EntryAt E m a s := by
  constructor
  · intro hn s hs
    rw [h.entryAt_iff.mpr hs] at hn
    cases hn
  · intro hn
    cases he : entryAt E m a with
    | none => rfl
    | some s => exact (hn s (h.entryAt_iff.mp he)).elim

def putAll (E : Extent σ) (m : ExtTreeMap ℕ σ) (ps : List σ) : ExtTreeMap ℕ σ :=
  ps.foldl (fun m p => m.insert (E.start p) p) m

def rewriteKey (E : Extent σ) (pieces : σ → List σ) (m : ExtTreeMap ℕ σ) (k : ℕ) :
    ExtTreeMap ℕ σ :=
  match m[k]? with
  | none => m
  | some s => putAll E (m.erase k) (pieces s)

def rewrite (E : Extent σ) (pieces : σ → List σ) (m : ExtTreeMap ℕ σ) : ExtTreeMap ℕ σ :=
  m.keys.foldl (rewriteKey E pieces) m

/-- The pieces of a non-empty entry below `bound` are non-empty, lie inside it and do not
meet. -/
structure Cuts (E : Extent σ) (bound : ℕ) (pieces : σ → List σ) : Prop where
  pos : ∀ s p, Fits E bound s → p ∈ pieces s → 0 < E.len p
  inside : ∀ s p a, Fits E bound s → p ∈ pieces s → Covers E p a → Covers E s a
  apart : ∀ s p q a, Fits E bound s → p ∈ pieces s → q ∈ pieces s →
    Covers E p a → Covers E q a → p = q

theorem Cuts.start_inj (hp : Cuts E bound pieces) {p q : σ} (hs : Fits E bound s)
    (hps : p ∈ pieces s) (hqs : q ∈ pieces s) (he : E.start p = E.start q) : p = q :=
  hp.apart s p q (E.start p) hs hps hqs (covers_start (hp.pos s p hs hps))
    (by rw [he]; exact covers_start (hp.pos s q hs hqs))

theorem putAll_get (ps : List σ) (m : ExtTreeMap ℕ σ) (k : ℕ)
    (hinj : ∀ p q, p ∈ ps → q ∈ ps → E.start p = E.start q → p = q) (t : σ) :
    (putAll E m ps)[k]? = some t ↔
      (t ∈ ps ∧ E.start t = k) ∨ ((∀ p ∈ ps, E.start p ≠ k) ∧ m[k]? = some t) := by
  induction ps generalizing m with
  | nil => simp [putAll]
  | cons p ps ih =>
    have hrest := ih (m.insert (E.start p) p)
      (fun a b ha hb => hinj a b (mem_cons_of_mem _ ha) (mem_cons_of_mem _ hb))
    have hput : putAll E m (p :: ps) = putAll E (m.insert (E.start p) p) ps := rfl
    rw [hput, hrest, ExtTreeMap.getElem?_insert]
    by_cases hk : E.start p = k
    · subst hk
      simp only [compare_eq_iff_eq, if_true, some.injEq, mem_cons]
      constructor
      · rintro (⟨ht, he⟩ | ⟨_, rfl⟩)
        · exact .inl ⟨.inr ht, he⟩
        · exact .inl ⟨.inl rfl, rfl⟩
      · rintro (⟨rfl | ht, he⟩ | ⟨hn, _⟩)
        · by_cases hmem : ∃ q ∈ ps, E.start q = E.start t
          · obtain ⟨q, hq, hqe⟩ := hmem
            have : q = t := hinj q t (mem_cons_of_mem _ hq) mem_cons_self hqe
            exact .inl ⟨this ▸ hq, rfl⟩
          · exact .inr ⟨fun q hq hqe => hmem ⟨q, hq, hqe⟩, rfl⟩
        · exact .inl ⟨ht, he⟩
        · exact (hn p (.inl rfl) rfl).elim
    · simp only [compare_eq_iff_eq, hk, mem_cons]
      constructor
      · rintro (⟨ht, he⟩ | ⟨hn, hm⟩)
        · exact .inl ⟨.inr ht, he⟩
        · exact .inr ⟨by rintro q (rfl | hq); exacts [hk, hn q hq], hm⟩
      · rintro (⟨rfl | ht, he⟩ | ⟨hn, hm⟩)
        · exact (hk he).elim
        · exact .inl ⟨ht, he⟩
        · exact .inr ⟨fun q hq => hn q (.inr hq), hm⟩

theorem putAll_forall {ps : List σ} (hps : ∀ p ∈ ps, Q p)
    (hm : ∀ (k : ℕ) (s : σ), m[k]? = some s → Q s) :
    ∀ (k : ℕ) (s : σ), (putAll E m ps)[k]? = some s → Q s := by
  induction ps generalizing m with
  | nil => exact hm
  | cons p ps ih =>
    refine ih (m := m.insert (E.start p) p) (fun q hq => hps q (mem_cons_of_mem _ hq)) ?_
    intro k s hs
    rw [ExtTreeMap.getElem?_insert] at hs
    split at hs
    · exact some.inj hs ▸ hps p mem_cons_self
    · exact hm k s hs

/-- A property of entries that pieces inherit is kept by a pass over any keys, whether or not
the table is well formed. -/
theorem foldl_rewriteKey_forall (hp : ∀ s p, Q s → p ∈ pieces s → Q p) (keys : List ℕ)
    (hm : ∀ (k : ℕ) (s : σ), m[k]? = some s → Q s) :
    ∀ (k : ℕ) (s : σ), (keys.foldl (rewriteKey E pieces) m)[k]? = some s → Q s := by
  induction keys generalizing m with
  | nil => exact hm
  | cons key keys ih =>
    refine ih ?_
    unfold rewriteKey
    rcases hk : m[key]? with _ | s
    · exact hm
    refine putAll_forall (fun p hps => hp s p (hm key s hk) hps) fun k t ht => ?_
    rw [getElem?_erase] at ht
    split at ht
    · cases ht
    · exact hm k t ht

section

variable {pieces : σ → List σ} {s : σ} {done : List ℕ} {n : ExtTreeMap ℕ σ}

theorem rewriteKey_some (h : m[k]? = some s) :
    rewriteKey E pieces m k = putAll E (m.erase k) (pieces s) := by
  simp [rewriteKey, h]

/-- What the pass has produced once the keys in `done` have been visited. -/
private def Partly (E : Extent σ) (pieces : σ → List σ) (m : ExtTreeMap ℕ σ) (done : List ℕ)
    (n : ExtTreeMap ℕ σ) : Prop :=
  ∀ (k : ℕ) t, n[k]? = some t ↔
    (∃ (l : ℕ) (s : σ), l ∈ done ∧ m[l]? = some s ∧ t ∈ pieces s ∧ E.start t = k) ∨
    (k ∉ done ∧ m[k]? = some t)

private theorem partly_step (hm : WellFormed E bound m) (hp : Cuts E bound pieces)
    (hn : Partly E pieces m done n) (hk : k ∉ done) (hs : m[k]? = some s) :
    Partly E pieces m (done ++ [k]) (rewriteKey E pieces n k) := by
  -- an unvisited key still holds the entry of the snapshot
  have hnk : n[k]? = some s := (hn k s).mpr (.inr ⟨hk, hs⟩)
  have cover : ∀ (l : ℕ) u t, m[l]? = some u → t ∈ pieces u → Covers E u (E.start t) :=
    fun l u t hu ht => hp.inside u t _ (hm.fits hu) ht (covers_start (hp.pos u t (hm.fits hu) ht))
  intro j t
  rw [rewriteKey_some hnk, putAll_get _ _ _ (fun p q => hp.start_inj (hm.fits hs)), getElem?_erase]
  constructor
  · rintro (⟨ht, he⟩ | ⟨hfree, hj⟩)
    · exact .inl ⟨k, s, by simp, hs, ht, he⟩
    · by_cases hkj : k = j
      · simp [hkj] at hj
      · simp only [compare_eq_iff_eq, hkj] at hj
        rcases (hn j t).mp hj with ⟨l, u, hl, hu, ht, he⟩ | ⟨hj', hmj⟩
        · exact .inl ⟨l, u, by simp [hl], hu, ht, he⟩
        · exact .inr ⟨by simp [hj', Ne.symm hkj], hmj⟩
  · rintro (⟨l, u, hl, hu, ht, he⟩ | ⟨hj, hmj⟩)
    · rcases mem_append.mp hl with hl | hl
      · -- a piece produced earlier lies in another entry, so it survives this visit
        have hlk : l ≠ k := fun h => hk (h ▸ hl)
        have hju : Covers E u j := he ▸ cover l u t hu ht
        refine .inr ⟨fun p hps hpe => hlk ?_, ?_⟩
        · exact hm.disjoint l k u s j hu hs hju (hpe ▸ cover k s p hs hps)
        · have hkj : k ≠ j := by
            intro hkj
            have hks := hm.key k s hs
            have hsk : Covers E s j := by
              rw [← hkj, ← hks]; exact covers_start (hm.pos k s hs)
            exact hlk (hm.disjoint l k u s j hu hs hju hsk)
          simp only [compare_eq_iff_eq, hkj]
          exact (hn j t).mpr (.inl ⟨l, u, hl, hu, ht, he⟩)
      · obtain rfl := mem_singleton.mp hl
        obtain rfl := some.inj (hs.symm.trans hu)
        exact .inl ⟨ht, he⟩
    · simp only [mem_append, mem_singleton, not_or] at hj
      refine .inr ⟨fun p hps hpe => hj.2 ?_, ?_⟩
      · have hjt : Covers E t j := by
          rw [← hm.key j t hmj]; exact covers_start (hm.pos j t hmj)
        exact hm.disjoint j k t s j hmj hs hjt (hpe ▸ cover k s p hs hps)
      · simp only [compare_eq_iff_eq, Ne.symm hj.2]
        exact (hn j t).mpr (.inr ⟨hj.1, hmj⟩)

private theorem partly_run (hm : WellFormed E bound m) (hp : Cuts E bound pieces) (todo : List ℕ)
    (hn : Partly E pieces m done n) (hnd : (done ++ todo).Nodup)
    (hmem : ∀ k ∈ todo, ∃ s : σ, m[k]? = some s) :
    Partly E pieces m (done ++ todo) (todo.foldl (rewriteKey E pieces) n) := by
  induction todo generalizing done n with
  | nil => simpa using hn
  | cons k todo ih =>
    obtain ⟨s, hs⟩ := hmem k mem_cons_self
    have hk : k ∉ done := by
      intro h
      exact (nodup_append.mp hnd).2.2 k h k mem_cons_self rfl
    have hstep := partly_step hm hp hn hk hs
    have := ih hstep (by simpa using hnd) (fun l hl => hmem l (mem_cons_of_mem _ hl))
    simpa using this

/-- The table after the pass holds exactly the pieces of the old entries. -/
theorem rewrite_get (hm : WellFormed E bound m) (hp : Cuts E bound pieces)
    (k : ℕ) (t : σ) :
    (rewrite E pieces m)[k]? = some t ↔
      ∃ (l : ℕ) (s : σ), m[l]? = some s ∧ t ∈ pieces s ∧ E.start t = k := by
  have hkeys : ∀ l, l ∈ m.keys ↔ ∃ s, m[l]? = some s := by
    intro l
    rw [ExtTreeMap.mem_keys, mem_iff_isSome_getElem?, Option.isSome_iff_exists]
  have hstart : Partly E pieces m [] m := by intro k t; simp
  have h := partly_run hm hp m.keys hstart (by simpa using nodup_keys)
    (fun l hl => (hkeys l).mp hl) k t
  rw [rewrite, h]
  constructor
  · rintro (⟨l, s, _, hs, ht, he⟩ | ⟨hk, hmk⟩)
    · exact ⟨l, s, hs, ht, he⟩
    · exact (hk ((hkeys k).mpr ⟨t, hmk⟩)).elim
  · rintro ⟨l, s, hs, ht, he⟩
    exact .inl ⟨l, s, (hkeys l).mpr ⟨s, hs⟩, hs, ht, he⟩

theorem rewrite_wellFormed (hm : WellFormed E bound m)
    (hp : Cuts E bound pieces) : WellFormed E bound (rewrite E pieces m) := by
  constructor
  · intro k t h
    obtain ⟨_, _, _, _, he⟩ := (rewrite_get hm hp k t).mp h
    exact he
  · intro k t h
    obtain ⟨_, s, hs, ht, _⟩ := (rewrite_get hm hp k t).mp h
    exact hp.pos s t (hm.fits hs) ht
  · intro k t h
    obtain ⟨l, s, hs, ht, _⟩ := (rewrite_get hm hp k t).mp h
    have hpos := hp.pos s t (hm.fits hs) ht
    have hlast : Covers E t (E.start t + E.len t - 1) := ⟨by omega, by omega⟩
    have hin := hp.inside s t _ (hm.fits hs) ht hlast
    have hb := hm.bounded l s hs
    have := hin.2
    omega
  · intro k l t u a hk hl ht hu
    obtain ⟨i, s, hs, hts, hke⟩ := (rewrite_get hm hp k t).mp hk
    obtain ⟨j, r, hr, hur, hle⟩ := (rewrite_get hm hp l u).mp hl
    have hij := hm.disjoint i j s r a hs hr (hp.inside s t a (hm.fits hs) hts ht)
      (hp.inside r u a (hm.fits hr) hur hu)
    subst hij
    obtain rfl := some.inj (hs.symm.trans hr)
    rw [← hke, ← hle, hp.apart s t u a (hm.fits hs) hts hur ht hu]

/-- The address view of the pass: an address is in the piece of its old entry that has it. -/
theorem entryAt_rewrite (hm : WellFormed E bound m) (hp : Cuts E bound pieces)
    (a : ℕ) (t : σ) :
    EntryAt E (rewrite E pieces m) a t ↔ ∃ s, EntryAt E m a s ∧ t ∈ pieces s ∧ Covers E t a := by
  constructor
  · rintro ⟨k, hk, hc⟩
    obtain ⟨l, s, hs, ht, _⟩ := (rewrite_get hm hp k t).mp hk
    exact ⟨s, ⟨l, hs, hp.inside s t a (hm.fits hs) ht hc⟩, ht, hc⟩
  · rintro ⟨s, ⟨l, hs, _⟩, ht, hc⟩
    exact ⟨E.start t, (rewrite_get hm hp _ t).mpr ⟨l, s, hs, ht, rfl⟩, hc⟩

end

theorem insert_get_of_free (hm : WellFormed E bound m)
    (hfree : ∀ a, Covers E s a → ∀ t, ¬ EntryAt E m a t) (k : ℕ) (t : σ) (hpos : 0 < E.len s) :
    (m.insert (E.start s) s)[k]? = some t ↔ (k = E.start s ∧ t = s) ∨ m[k]? = some t := by
  rw [ExtTreeMap.getElem?_insert]
  by_cases hk : E.start s = k
  · subst hk
    have hnone : m[E.start s]? ≠ some t := by
      intro h
      refine hfree _ (covers_start hpos) t ⟨_, h, ?_⟩
      have := covers_start (hm.pos _ t h)
      rwa [hm.key _ t h] at this
    simp [hnone, eq_comm]
  · simp [hk, Ne.symm hk]

theorem insert_wellFormed (hm : WellFormed E bound m) (hpos : 0 < E.len s)
    (hb : E.start s + E.len s ≤ bound) (hfree : ∀ a, Covers E s a → ∀ t, ¬ EntryAt E m a t) :
    WellFormed E bound (m.insert (E.start s) s) := by
  have get := fun k t => insert_get_of_free hm hfree k t hpos
  constructor
  · intro k t h
    rcases (get k t).mp h with ⟨rfl, rfl⟩ | h
    · rfl
    · exact hm.key k t h
  · intro k t h
    rcases (get k t).mp h with ⟨rfl, rfl⟩ | h
    · exact hpos
    · exact hm.pos k t h
  · intro k t h
    rcases (get k t).mp h with ⟨rfl, rfl⟩ | h
    · exact hb
    · exact hm.bounded k t h
  · intro k l t u a hk hl ht hu
    rcases (get k t).mp hk with ⟨hks, hts⟩ | hkm <;>
      rcases (get l u).mp hl with ⟨hls, hus⟩ | hlm
    · rw [hks, hls]
    · exact (hfree a (hts ▸ ht) u ⟨l, hlm, hu⟩).elim
    · exact (hfree a (hus ▸ hu) t ⟨k, hkm, ht⟩).elim
    · exact hm.disjoint k l t u a hkm hlm ht hu

theorem entryAt_insert (hm : WellFormed E bound m) (hpos : 0 < E.len s)
    (hfree : ∀ a, Covers E s a → ∀ t, ¬ EntryAt E m a t) (a : ℕ) (t : σ) :
    EntryAt E (m.insert (E.start s) s) a t ↔ (t = s ∧ Covers E s a) ∨ EntryAt E m a t := by
  constructor
  · rintro ⟨k, hk, hc⟩
    rcases (insert_get_of_free hm hfree k t hpos).mp hk with ⟨_, rfl⟩ | hk
    · exact .inl ⟨rfl, hc⟩
    · exact .inr ⟨k, hk, hc⟩
  · rintro (⟨rfl, hc⟩ | ⟨k, hk, hc⟩)
    · exact ⟨_, (insert_get_of_free hm hfree _ t hpos).mpr (.inl ⟨rfl, rfl⟩), hc⟩
    · exact ⟨k, (insert_get_of_free hm hfree k t hpos).mpr (.inr hk), hc⟩

section

variable {f : ℕ → σ → σ} (hstart : ∀ k s, E.start (f k s) = E.start s)
  (hlen : ∀ k s, E.len (f k s) = E.len s)
include hstart hlen

theorem map_wellFormed (hm : WellFormed E bound m) : WellFormed E bound (m.map f) := by
  have get : ∀ (k : ℕ) t, (m.map f)[k]? = some t → ∃ s, m[k]? = some s ∧ f k s = t := by
    intro k t h
    rw [ExtTreeMap.getElem?_map] at h
    exact Option.map_eq_some_iff.mp h
  constructor
  · intro k t h
    obtain ⟨s, hs, rfl⟩ := get k t h
    rw [hstart]; exact hm.key k s hs
  · intro k t h
    obtain ⟨s, hs, rfl⟩ := get k t h
    rw [hlen]; exact hm.pos k s hs
  · intro k t h
    obtain ⟨s, hs, rfl⟩ := get k t h
    rw [hstart, hlen]; exact hm.bounded k s hs
  · intro k l t u a hk hl ht hu
    obtain ⟨s, hs, rfl⟩ := get k t hk
    obtain ⟨r, hr, rfl⟩ := get l u hl
    simp only [Covers, hstart, hlen] at ht hu
    exact hm.disjoint k l s r a hs hr ht hu

theorem entryAt_map (a : ℕ) (t : σ) :
    EntryAt E (m.map f) a t ↔ ∃ (k : ℕ) (s : σ), m[k]? = some s ∧ Covers E s a ∧ f k s = t := by
  simp only [EntryAt, ExtTreeMap.getElem?_map, Option.map_eq_some_iff]
  constructor
  · rintro ⟨k, ⟨s, hs, rfl⟩, hc⟩
    exact ⟨k, s, hs, by simpa [Covers, hstart, hlen] using hc, rfl⟩
  · rintro ⟨k, s, hs, hc, rfl⟩
    exact ⟨k, ⟨s, hs, rfl⟩, by simpa [Covers, hstart, hlen] using hc⟩

end

end IntervalTable
