import Mathlib.Data.List.Range
import Mathlib.Tactic.Common
import Mathlib.Tactic.NormNum

/-! Address translation seen as a function from addresses to leaves, and what a builder of page
tables does to it. A large page replaces what was there; a small page is lost where a large one
stands. Everything said here follows from these two rules. -/
namespace PagedView

open List

@[irreducible] def large : ℕ := 2 ^ 21

@[irreducible] def small : ℕ := 2 ^ 12

theorem small_times : small * 512 = large := by
  unfold small large
  norm_num

theorem small_pos : 0 < small := by
  unfold small
  norm_num

theorem large_pos : 0 < large := by
  unfold large
  norm_num

theorem small_ne_large : small ≠ large := by
  have := small_times
  have := small_pos
  omega

structure Leaf where
  size : ℕ
  base : ℕ
  flags : ℕ
  deriving DecidableEq, Repr

def Leaf.translate (l : Leaf) (v : ℕ) : ℕ := l.base + v % l.size

def IsLarge (o : Option Leaf) : Prop := ∃ l, o = some l ∧ l.size = large

/-- A builder over tables `τ`. The flags of a leaf as read may differ from those asked for.
Tables fit as long as the memory for them lasted; what fits at the end fitted all along. -/
structure Paging (τ : Type) where
  bound : ℕ
  physBound : ℕ
  view : τ → ℕ → Option Leaf
  mapLarge : τ → ℕ → ℕ → ℕ → τ
  mapSmall : τ → ℕ → ℕ → ℕ → τ
  largeFlags : ℕ → ℕ
  smallFlags : ℕ → ℕ
  Good : τ → Prop
  Fits : τ → Prop
  LargeOk : ℕ → Prop
  SmallOk : ℕ → Prop
  large_fits : ∀ T v p fl, Fits (mapLarge T v p fl) → Fits T
  small_fits : ∀ T v p fl, Fits (mapSmall T v p fl) → Fits T
  large_spec : ∀ T v p fl, Good T → v % large = 0 → p % large = 0 → v < bound → p < physBound →
    LargeOk fl → Fits (mapLarge T v p fl) → Good (mapLarge T v p fl) ∧
      ∀ w < bound, view (mapLarge T v p fl) w =
        if w / large = v / large then some ⟨large, p, largeFlags fl⟩ else view T w
  small_spec : ∀ T v p fl, Good T → v % small = 0 → p % small = 0 → v < bound → p < physBound →
    SmallOk fl → Fits (mapSmall T v p fl) → Good (mapSmall T v p fl) ∧
      (IsLarge (view T v) → ∀ w < bound, view (mapSmall T v p fl) w = view T w) ∧
      (¬ IsLarge (view T v) → ∀ w < bound, view (mapSmall T v p fl) w =
        if w / small = v / small then some ⟨small, p, smallFlags fl⟩ else view T w)
  large_const : ∀ T v w, Good T → v < bound → w < bound → v / large = w / large →
    IsLarge (view T v) → IsLarge (view T w)

def steps (cursor limit step : ℕ) : List ℕ :=
  List.range' cursor ((limit - cursor + (step - 1)) / step) step

theorem mem_steps {cursor limit step a : ℕ} (hstep : 0 < step) :
    a ∈ steps cursor limit step ↔ ∃ k, a = cursor + step * k ∧ a < limit := by
  rw [steps, mem_range']
  constructor
  · rintro ⟨k, hk, rfl⟩
    refine ⟨k, rfl, ?_⟩
    have hlt := (Nat.lt_div_iff_mul_lt hstep).mp hk
    have hcomm := Nat.mul_comm step k
    omega
  · rintro ⟨k, rfl, hlt⟩
    refine ⟨k, (Nat.lt_div_iff_mul_lt hstep).mpr ?_, rfl⟩
    have hcomm := Nat.mul_comm step k
    omega

/-- A page is visited exactly when its base lies in the range. -/
theorem visits_iff {cursor limit step : ℕ} (hstep : 0 < step) (hc : cursor % step = 0)
    (hl : limit % step = 0) (w : ℕ) :
    (∃ a ∈ steps cursor limit step, w / step = a / step) ↔ cursor ≤ w ∧ w < limit := by
  obtain ⟨c, rfl⟩ := Nat.dvd_of_mod_eq_zero hc
  obtain ⟨l, rfl⟩ := Nat.dvd_of_mod_eq_zero hl
  have hbase := Nat.div_add_mod w step
  have hrem := Nat.mod_lt w hstep
  constructor
  · rintro ⟨a, ha, hw⟩
    obtain ⟨k, rfl, hlt⟩ := (mem_steps hstep).mp ha
    rw [← Nat.mul_add, Nat.mul_div_cancel_left _ hstep] at hw
    have hle : step * c ≤ step * (c + k) := Nat.mul_le_mul_left step (by omega)
    have hnext : c + k + 1 ≤ l := by
      rw [← Nat.mul_add] at hlt
      exact Nat.lt_of_mul_lt_mul_left hlt
    have hend : step * (c + k + 1) ≤ step * l := Nat.mul_le_mul_left step hnext
    rw [Nat.mul_succ] at hend
    rw [hw] at hbase
    omega
  · rintro ⟨hlo, hhi⟩
    have hge : c ≤ w / step := by
      rw [Nat.le_div_iff_mul_le hstep, Nat.mul_comm]
      exact hlo
    refine ⟨step * (w / step), (mem_steps hstep).mpr ⟨w / step - c, ?_, by omega⟩, ?_⟩
    · rw [← Nat.mul_add]
      congr 1
      omega
    · rw [Nat.mul_div_cancel_left _ hstep]

variable {fl w : ℕ}

section Loops

variable {τ : Type} (P : Paging τ)

def identityLoop (cursors : List ℕ) (fl : ℕ) (T : τ) : τ :=
  cursors.foldl (fun T c => P.mapLarge T c c fl) T

def pagesLoop (cursors : List ℕ) (target : ℕ → ℕ) (fl : ℕ) (T : τ) : τ :=
  cursors.foldl (fun T c => P.mapSmall T c (target c) fl) T

variable {P}

theorem identityLoop_fits (cursors : List ℕ) (T : τ) (h : P.Fits (identityLoop P cursors fl T)) :
    P.Fits T := by
  induction cursors generalizing T with
  | nil => exact h
  | cons c rest ih => exact P.large_fits T c c fl (ih _ h)

theorem pagesLoop_fits (target : ℕ → ℕ) (cursors : List ℕ) (T : τ)
    (h : P.Fits (pagesLoop P cursors target fl T)) : P.Fits T := by
  induction cursors generalizing T with
  | nil => exact h
  | cons c rest ih => exact P.small_fits T c (target c) fl (ih _ h)

theorem identityLoop_spec (hfl : P.LargeOk fl) (cursors : List ℕ) (T : τ) (hgood : P.Good T)
    (hfit : P.Fits (identityLoop P cursors fl T))
    (hc : ∀ c ∈ cursors, c % large = 0 ∧ c < P.bound ∧ c < P.physBound) :
    P.Good (identityLoop P cursors fl T) ∧ ∀ w < P.bound, P.view (identityLoop P cursors fl T) w =
        if ∃ c ∈ cursors, w / large = c / large then
          some ⟨large, w / large * large, P.largeFlags fl⟩ else P.view T w := by
  induction cursors generalizing T with
  | nil => exact ⟨hgood, fun w _ => by simp [identityLoop]⟩
  | cons c rest ih =>
    obtain ⟨hal, hb, hp⟩ := hc c mem_cons_self
    obtain ⟨hgood', hview⟩ := P.large_spec T c c fl hgood hal hal hb hp hfl
      (identityLoop_fits rest _ hfit)
    obtain ⟨h₁, h₂⟩ := ih _ hgood' hfit fun d hd => hc d (mem_cons_of_mem c hd)
    refine ⟨h₁, fun w hw => ?_⟩
    have hstep := h₂ w hw
    rw [hview w hw] at hstep
    refine hstep.trans ?_
    simp only [mem_cons, exists_eq_or_imp]
    by_cases hrest : ∃ d ∈ rest, w / large = d / large
    · rw [if_pos hrest, if_pos (.inr hrest)]
    by_cases hcw : w / large = c / large
    · rw [if_neg hrest, if_pos hcw, if_pos (.inl hcw), hcw,
        Nat.div_mul_cancel (Nat.dvd_of_mod_eq_zero hal)]
    · rw [if_neg hrest, if_neg hcw, if_neg (not_or.mpr ⟨hcw, hrest⟩)]

theorem isLarge_small {p : ℕ} : ¬ IsLarge (some ⟨small, p, fl⟩) := by
  rintro ⟨l, heq, hsize⟩
  cases heq
  exact absurd hsize small_ne_large

/-- Small pages change nothing where a large page stands. -/
theorem pagesLoop_spec (target : ℕ → ℕ) (hfl : P.SmallOk fl) (cursors : List ℕ) (T : τ)
    (hgood : P.Good T) (hfit : P.Fits (pagesLoop P cursors target fl T))
    (hc : ∀ c ∈ cursors, c % small = 0 ∧ c < P.bound ∧ target c % small = 0 ∧
      target c < P.physBound) :
    P.Good (pagesLoop P cursors target fl T) ∧ ∀ w < P.bound,
        (IsLarge (P.view T w) → P.view (pagesLoop P cursors target fl T) w = P.view T w) ∧
        (¬ IsLarge (P.view T w) → P.view (pagesLoop P cursors target fl T) w =
          if ∃ c ∈ cursors, w / small = c / small then
            some ⟨small, target (w / small * small), P.smallFlags fl⟩ else P.view T w) := by
  induction cursors generalizing T with
  | nil => exact ⟨hgood, fun w _ => by simp [pagesLoop]⟩
  | cons c rest ih =>
    obtain ⟨hal, hb, htal, htp⟩ := hc c mem_cons_self
    obtain ⟨hgood', hkeep, hput⟩ := P.small_spec T c (target c) fl hgood hal htal hb htp hfl
      (pagesLoop_fits target rest _ hfit)
    obtain ⟨h₁, h₂⟩ := ih _ hgood' hfit fun d hd => hc d (mem_cons_of_mem c hd)
    refine ⟨h₁, fun w hw => ?_⟩
    obtain ⟨hkeep', hput'⟩ := h₂ w hw
    have hsame : w / small = c / small → w / large = c / large := by
      intro h
      rw [← small_times, ← Nat.div_div_eq_div_mul, ← Nat.div_div_eq_div_mul, h]
    simp only [mem_cons, exists_eq_or_imp]
    by_cases hbig : IsLarge (P.view T c)
    · have hT := hkeep hbig w hw
      rw [hT] at hkeep' hput'
      refine ⟨fun h => hkeep' h, fun h => (hput' h).trans ?_⟩
      have hne : w / small ≠ c / small := fun heq =>
        h (P.large_const T c w hgood hb hw (hsame heq).symm hbig)
      simp [hne]
    · have hT := hput hbig w hw
      by_cases hcw : w / small = c / small
      · rw [if_pos hcw] at hT
        rw [hT] at hput'
        refine ⟨fun h => absurd (P.large_const T w c hgood hw hb (hsame hcw) h) hbig, fun _ => ?_⟩
        refine (hput' isLarge_small).trans ?_
        rw [hcw, Nat.div_mul_cancel (Nat.dvd_of_mod_eq_zero hal), ite_self]
        exact (if_pos (.inl rfl)).symm
      · rw [if_neg hcw] at hT
        rw [hT] at hkeep' hput'
        refine ⟨hkeep', fun h => (hput' h).trans ?_⟩
        simp [hcw]

end Loops

structure Window where
  lo : ℕ
  hi : ℕ
  flags : ℕ
  deriving DecidableEq, Repr

structure Region where
  lo : ℕ
  hi : ℕ
  base : ℕ
  flags : ℕ
  deriving DecidableEq, Repr

def lastCovering (lo hi : α → ℕ) (items : List α) (w : ℕ) : Option α :=
  items.reverse.find? fun r => decide (lo r ≤ w) && decide (w < hi r)

theorem lastCovering_snoc (lo hi : α → ℕ) (items : List α) (r : α) (w : ℕ) :
    lastCovering lo hi (items ++ [r]) w =
      if lo r ≤ w ∧ w < hi r then some r else lastCovering lo hi items w := by
  rw [lastCovering, reverse_append, reverse_singleton, singleton_append, find?_cons]
  by_cases h : lo r ≤ w ∧ w < hi r
  · simp [h]
  rw [if_neg h]
  have : (decide (lo r ≤ w) && decide (w < hi r)) = false := by
    simpa [Bool.and_eq_false_iff] using h
  rw [this]
  rfl

theorem lastCovering_some {lo hi : α → ℕ} {items : List α} {r : α}
    (h : lastCovering lo hi items w = some r) : r ∈ items ∧ lo r ≤ w ∧ w < hi r := by
  have hmem := mem_of_find?_eq_some h
  have hcov := find?_some h
  simp only [Bool.and_eq_true, decide_eq_true_eq] at hcov
  exact ⟨mem_reverse.mp hmem, hcov⟩

section Maps

variable {τ : Type} (P : Paging τ)

structure WindowOk (w : Window) : Prop where
  lo_aligned : w.lo % large = 0
  hi_aligned : w.hi % large = 0
  below : w.hi ≤ P.bound
  phys_below : w.hi ≤ P.physBound
  flags_ok : P.LargeOk w.flags

structure RegionOk (r : Region) : Prop where
  lo_aligned : r.lo % small = 0
  hi_aligned : r.hi % small = 0
  below : r.hi ≤ P.bound
  base_aligned : r.base % small = 0
  phys_below : r.base + (r.hi - r.lo) ≤ P.physBound
  flags_ok : P.SmallOk r.flags

def mapWindow (T : τ) (w : Window) : τ := identityLoop P (steps w.lo w.hi large) w.flags T

def mapRegion (T : τ) (r : Region) : τ :=
  pagesLoop P (steps r.lo r.hi small) (fun v => r.base + (v - r.lo)) r.flags T

def windowLeaf (w : Window) (v : ℕ) : Leaf := ⟨large, v / large * large, P.largeFlags w.flags⟩

def regionLeaf (r : Region) (v : ℕ) : Leaf :=
  ⟨small, r.base + (v / small * small - r.lo), P.smallFlags r.flags⟩

variable {P} {T : τ} {ws : List Window} {rs : List Region}

theorem mapWindow_spec {w : Window} (hw : WindowOk P w) (hgood : P.Good T)
    (hfit : P.Fits (mapWindow P T w)) :
    P.Good (mapWindow P T w) ∧ ∀ v < P.bound, P.view (mapWindow P T w) v =
        if w.lo ≤ v ∧ v < w.hi then some (windowLeaf P w v) else P.view T v := by
  have hpos := large_pos
  obtain ⟨hgood', hview⟩ := identityLoop_spec hw.flags_ok (steps w.lo w.hi large) T hgood hfit (by
    intro c hc
    obtain ⟨k, rfl, hlt⟩ := (mem_steps hpos).mp hc
    refine ⟨?_, hlt.trans_le hw.below, hlt.trans_le hw.phys_below⟩
    rw [Nat.add_mul_mod_self_left, hw.lo_aligned])
  refine ⟨hgood', fun v hv => (hview v hv).trans ?_⟩
  simp [visits_iff hpos hw.lo_aligned hw.hi_aligned, windowLeaf]

theorem mapRegion_spec {r : Region} (hr : RegionOk P r) (hgood : P.Good T)
    (hfit : P.Fits (mapRegion P T r)) :
    P.Good (mapRegion P T r) ∧ ∀ v < P.bound,
        (IsLarge (P.view T v) → P.view (mapRegion P T r) v = P.view T v) ∧
        (¬ IsLarge (P.view T v) → P.view (mapRegion P T r) v =
          if r.lo ≤ v ∧ v < r.hi then some (regionLeaf P r v) else P.view T v) := by
  have hpos := small_pos
  obtain ⟨hgood', hview⟩ := pagesLoop_spec (fun v => r.base + (v - r.lo)) hr.flags_ok
    (steps r.lo r.hi small) T hgood hfit (by
      intro c hc
      obtain ⟨k, rfl, hlt⟩ := (mem_steps hpos).mp hc
      have hphys := hr.phys_below
      refine ⟨?_, hlt.trans_le hr.below, ?_, by omega⟩
      · rw [Nat.add_mul_mod_self_left, hr.lo_aligned]
      · rw [Nat.add_sub_cancel_left, Nat.add_mul_mod_self_left, hr.base_aligned])
  refine ⟨hgood', fun v hv => ⟨(hview v hv).1, fun h => ((hview v hv).2 h).trans ?_⟩⟩
  simp [visits_iff hpos hr.lo_aligned hr.hi_aligned, regionLeaf]

theorem mapRegions_fits (rs : List Region) (h : P.Fits (rs.foldl (mapRegion P) T)) : P.Fits T := by
  induction rs generalizing T with
  | nil => exact h
  | cons r rest ih => exact pagesLoop_fits _ _ T (ih h)

theorem mapWindows_fits (ws : List Window) (h : P.Fits (ws.foldl (mapWindow P) T)) : P.Fits T := by
  induction ws generalizing T with
  | nil => exact h
  | cons w rest ih => exact identityLoop_fits _ T (ih h)

theorem mapWindows_spec (hws : ∀ w ∈ ws, WindowOk P w) (hgood : P.Good T)
    (hfit : P.Fits (ws.foldl (mapWindow P) T)) :
    P.Good (ws.foldl (mapWindow P) T) ∧ ∀ v < P.bound, P.view (ws.foldl (mapWindow P) T) v =
        ((lastCovering Window.lo Window.hi ws v).map (windowLeaf P · v)).or (P.view T v) := by
  induction ws using List.reverseRecOn with
  | nil => exact ⟨hgood, fun v _ => rfl⟩
  | append_singleton ws w ih =>
    rw [foldl_append, foldl_cons, foldl_nil] at hfit ⊢
    obtain ⟨hgood', hview⟩ := ih (fun x hx => hws x (mem_append_left _ hx))
      (identityLoop_fits _ _ hfit)
    obtain ⟨h₁, h₂⟩ := mapWindow_spec (hws w (by simp)) hgood' hfit
    refine ⟨h₁, fun v hv => (h₂ v hv).trans ?_⟩
    rw [lastCovering_snoc, hview v hv]
    by_cases hcov : w.lo ≤ v ∧ v < w.hi
    · rw [if_pos hcov, if_pos hcov]
      rfl
    · rw [if_neg hcov, if_neg hcov]

/-- Regions never change an address under a large page; elsewhere the last region counts. -/
theorem mapRegions_spec (hrs : ∀ r ∈ rs, RegionOk P r) (hgood : P.Good T)
    (hfit : P.Fits (rs.foldl (mapRegion P) T)) :
    P.Good (rs.foldl (mapRegion P) T) ∧ ∀ v < P.bound,
        (IsLarge (P.view T v) → P.view (rs.foldl (mapRegion P) T) v = P.view T v) ∧
        (¬ IsLarge (P.view T v) → P.view (rs.foldl (mapRegion P) T) v =
          ((lastCovering Region.lo Region.hi rs v).map (regionLeaf P · v)).or (P.view T v)) := by
  induction rs using List.reverseRecOn with
  | nil => exact ⟨hgood, fun v _ => ⟨fun _ => rfl, fun _ => rfl⟩⟩
  | append_singleton rs r ih =>
    rw [foldl_append, foldl_cons, foldl_nil] at hfit ⊢
    obtain ⟨hgood', hview⟩ := ih (fun x hx => hrs x (mem_append_left _ hx))
      (pagesLoop_fits _ _ _ hfit)
    obtain ⟨h₁, h₂⟩ := mapRegion_spec (hrs r (by simp)) hgood' hfit
    refine ⟨h₁, fun v hv => ?_⟩
    obtain ⟨hkeep, hput⟩ := h₂ v hv
    obtain ⟨hkeep', hput'⟩ := hview v hv
    refine ⟨fun h => ?_, fun h => ?_⟩
    · have hsame := hkeep' h
      rw [hsame] at hkeep
      exact hkeep h
    · have hsmall : ¬ IsLarge (P.view (rs.foldl (mapRegion P) T) v) := by
        rw [hput' h]
        cases lastCovering Region.lo Region.hi rs v with
        | none => exact h
        | some r => exact isLarge_small
      refine (hput hsmall).trans ?_
      rw [lastCovering_snoc, hput' h]
      by_cases hcov : r.lo ≤ v ∧ v < r.hi
      · rw [if_pos hcov, if_pos hcov]
        rfl
      · rw [if_neg hcov, if_neg hcov]

/-- Windows first, regions after them, over tables that translate nothing. -/
theorem built_view (hgood : P.Good T) (hws : ∀ w ∈ ws, WindowOk P w) (hrs : ∀ r ∈ rs, RegionOk P r)
    (hfit : P.Fits (rs.foldl (mapRegion P) (ws.foldl (mapWindow P) T)))
    (hnone : ∀ v < P.bound, P.view T v = none) {v : ℕ} (hv : v < P.bound) :
    P.view (rs.foldl (mapRegion P) (ws.foldl (mapWindow P) T)) v =
      ((lastCovering Window.lo Window.hi ws v).map (windowLeaf P · v)).or
        ((lastCovering Region.lo Region.hi rs v).map (regionLeaf P · v)) := by
  obtain ⟨hgood', hwindows⟩ := mapWindows_spec hws hgood (mapRegions_fits rs hfit)
  obtain ⟨hkeep, hput⟩ := (mapRegions_spec hrs hgood' hfit).2 v hv
  have hbefore := hwindows v hv
  rw [hnone v hv, Option.or_none] at hbefore
  cases hlast : lastCovering Window.lo Window.hi ws v with
  | some w =>
    rw [hlast] at hbefore
    rw [hkeep ⟨windowLeaf P w v, hbefore, rfl⟩, hbefore]
    rfl
  | none =>
    rw [hlast] at hbefore
    have hsmall : ¬ IsLarge (P.view (ws.foldl (mapWindow P) T) v) := by
      rw [hbefore]
      rintro ⟨l, h, -⟩
      cases h
    rw [hput hsmall, hbefore, Option.map_none, Option.or_none, Option.none_or]

end Maps

end PagedView
