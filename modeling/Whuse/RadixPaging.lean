import Mathlib.Data.Nat.Bitwise
import Mathlib.Tactic.Ring
import Whuse.PagedView
import Whuse.RadixTable

/-! Radix tables of 512 slots as page tables. The path of an address is its page number in base
512, most significant digit first; a large leaf stands one level above the small ones. -/
namespace RadixPaging

open RadixTable PagedView List

def digits : ℕ → ℕ → List ℕ
  | 0, _ => []
  | n + 1, x => x / 512 ^ n % 512 :: digits n x

@[simp] theorem digits_length (n x : ℕ) : (digits n x).length = n := by
  induction n with
  | zero => rfl
  | succ n ih => simp [digits, ih]

theorem digits_snoc (n x : ℕ) : digits (n + 1) x = digits n (x / 512) ++ [x % 512] := by
  induction n with
  | zero => simp [digits]
  | succ n ih =>
    have hhead : x / 512 ^ (n + 1) = x / 512 / 512 ^ n := by
      rw [Nat.div_div_eq_div_mul, pow_succ']
    rw [digits, ih, hhead]
    rfl

theorem digits_inj {n x y : ℕ} (hx : x < 512 ^ n) (hy : y < 512 ^ n)
    (h : digits n x = digits n y) : x = y := by
  induction n generalizing x y with
  | zero =>
    omega
  | succ n ih =>
    rw [digits_snoc, digits_snoc] at h
    obtain ⟨hinit, hlast⟩ := append_inj' h rfl
    have hlast : x % 512 = y % 512 := by simpa using hlast
    have := ih (Nat.div_lt_of_lt_mul (by omega)) (Nat.div_lt_of_lt_mul (by omega)) hinit
    omega

structure Codec (E : Type) (boxes : Supply) where
  format : Format E
  encodes : Encodes format boxes
  physBound : ℕ
  largeLeaf : ℕ → ℕ → E
  smallLeaf : ℕ → ℕ → E
  base : E → ℕ
  flags : E → ℕ
  largeFlags : ℕ → ℕ
  smallFlags : ℕ → ℕ
  LargeOk : ℕ → Prop
  SmallOk : ℕ → Prop
  large_read : ∀ p fl, p % large = 0 → p < physBound → LargeOk fl →
    format.classify (largeLeaf p fl) = .leaf ∧ base (largeLeaf p fl) = p ∧
      flags (largeLeaf p fl) = largeFlags fl
  small_read : ∀ p fl, p % small = 0 → p < physBound → SmallOk fl →
    format.classify (smallLeaf p fl) = .leaf ∧ base (smallLeaf p fl) = p ∧
      flags (smallLeaf p fl) = smallFlags fl

variable {v w : ℕ}

section Views

variable {E : Type} {boxes : Supply} (C : Codec E boxes) (m : ℕ)

/-- Large leaves stand at depth `m`, small ones at depth `m + 1`, and both were written as such. -/
def Shape (d : ℕ) (e : E) : Prop :=
  (d = m ∧ ∃ p fl, p % large = 0 ∧ p < C.physBound ∧ C.LargeOk fl ∧ e = C.largeLeaf p fl) ∨
  (d = m + 1 ∧ ∃ p fl, p % small = 0 ∧ p < C.physBound ∧ C.SmallOk fl ∧ e = C.smallLeaf p fl)

def decode (found : E × List ℕ) : Leaf :=
  ⟨small * 512 ^ found.2.length, C.base found.1, C.flags found.1⟩

def path (v : ℕ) : List ℕ := digits (m + 1) (v / small)

def largePath (v : ℕ) : List ℕ := digits m (v / large)

def view (T : Tables E) (v : ℕ) : Option Leaf :=
  (walk C.format T T.root (path m v)).map (decode C)

def bound : ℕ := small * 512 ^ (m + 1)

variable {m}

theorem path_eq (v : ℕ) : path m v = largePath m v ++ [v / small % 512] := by
  have hlarge : v / small / 512 = v / large := by rw [Nat.div_div_eq_div_mul, small_times]
  rw [path, digits_snoc, hlarge, largePath]

theorem page_lt (hv : v < bound m) : v / small < 512 ^ (m + 1) :=
  Nat.div_lt_of_lt_mul hv

theorem largePage_lt (hv : v < bound m) : v / large < 512 ^ m := by
  have hmul : bound m = large * 512 ^ m := by
    rw [bound, ← small_times]
    ring
  exact Nat.div_lt_of_lt_mul (hmul ▸ hv)

theorem path_prefix_iff (hv : v < bound m) (hw : w < bound m) :
    path m v <+: path m w ↔ w / small = v / small := by
  constructor
  · intro h
    have heq := h.eq_of_length (by simp [path])
    exact (digits_inj (page_lt hv) (page_lt hw) heq).symm
  · intro h
    rw [path, path, h]

theorem largePath_prefix_iff (hv : v < bound m) (hw : w < bound m) :
    largePath m v <+: path m w ↔ w / large = v / large := by
  constructor
  · intro h
    rw [path_eq] at h
    have hpre := prefix_of_prefix_length_le h (prefix_append _ _)
      (by simp [largePath])
    have heq := hpre.eq_of_length (by simp [largePath])
    exact (digits_inj (largePage_lt hv) (largePage_lt hw) heq).symm
  · intro h
    rw [path_eq, largePath, largePath, h]
    exact prefix_append _ _

variable {C} {T : Tables E}

/-- A leaf on a path before its end is a large one. -/
theorem blocked_iff (hgood : WellFormed C.format boxes (Shape C m) T) (v : ℕ) :
    Blocked C.format T [] (path m v) ↔ IsLarge (view C m T v) := by
  constructor
  · rintro ⟨q, r, d, hq, hr, hd⟩
    have hwalk := (walk_root_iff (path m v) d r).mpr ⟨q, hq, hd⟩
    refine ⟨decode C (d, r), by rw [view, hwalk]; rfl, ?_⟩
    have hlen := congrArg List.length hq
    rw [path, digits_length, length_append] at hlen
    have hpos := length_pos_iff.mpr hr
    have hrest : r.length = 1 := by
      rcases hgood.shaped q d hd with ⟨hdepth, -⟩ | ⟨hdepth, -⟩ <;> omega
    rw [decode, hrest, pow_one, small_times]
  · rintro ⟨l, hl, hsize⟩
    obtain ⟨⟨d, r⟩, hwalk, rfl⟩ := Option.map_eq_some_iff.mp hl
    obtain ⟨p, hp, hd⟩ := (walk_root_iff _ _ _).mp hwalk
    refine ⟨p, r, d, hp, ?_, hd⟩
    rintro rfl
    rw [decode, length_nil, pow_zero, Nat.mul_one] at hsize
    exact small_ne_large hsize

theorem largePath_free (hgood : WellFormed C.format boxes (Shape C m) T) (v : ℕ) :
    ¬ Blocked C.format T [] (largePath m v) := by
  rintro ⟨q, r, d, hq, hr, hd⟩
  have hlen := congrArg List.length hq
  rw [largePath, digits_length, length_append] at hlen
  have hpos := length_pos_iff.mpr hr
  rcases hgood.shaped q d hd with ⟨hdepth, -⟩ | ⟨hdepth, -⟩ <;> omega

theorem place_root {t : ℕ} (p : List ℕ) (e : E) : (place C.format boxes T t p e).root = T.root := by
  induction p generalizing T t with
  | nil => rfl
  | cons i rest ih =>
    rcases rest with _ | ⟨j, rest⟩
    · rfl
    have hensure : (ensure C.format boxes T t i).2.root = T.root := by
      cases h : C.format.classify (T.entry t i) <;> simp [ensure, h]
    simp only [place]
    split
    · exact hensure
    · exact ih.trans hensure

section

variable {p : List ℕ} {e : E} (hgood : WellFormed C.format boxes (Shape C m) T) (hne : p ≠ [])
  (he : C.format.classify e = .leaf) (hshape : Shape C m p.length e)
include hgood hne he hshape

theorem wellFormed_place (hfit : (place C.format boxes T T.root p e).pages.length ≤ boxes.limit) :
    WellFormed C.format boxes (Shape C m) (place C.format boxes T T.root p e) := by
  cases p with
  | nil => exact absurd rfl hne
  | cons i rest =>
    exact (place_spec i rest C.encodes hgood (show reach C.format T [] = some T.root from rfl) he
      (by simpa using hshape) hfit).1

theorem view_place (hfree : ¬ Blocked C.format T [] p)
    (hfit : (place C.format boxes T T.root p e).pages.length ≤ boxes.limit) (w : ℕ) :
    view C m (place C.format boxes T T.root p e) w =
      if p <+: path m w then some (decode C (e, (path m w).drop p.length)) else view C m T w := by
  cases p with
  | nil => exact absurd rfl hne
  | cons i rest =>
    rw [view, place_root, walk_place C.encodes hgood he (by simpa using hshape) hfree hfit]
    split <;> rfl

end

theorem place_large_spec (hm : 0 < m) (hgood : WellFormed C.format boxes (Shape C m) T) {p fl : ℕ}
    (hp : p % large = 0) (hv : v < bound m) (hphys : p < C.physBound) (hfl : C.LargeOk fl)
    (hfit : (place C.format boxes T T.root (largePath m v) (C.largeLeaf p fl)).pages.length ≤
      boxes.limit) :
    WellFormed C.format boxes (Shape C m)
        (place C.format boxes T T.root (largePath m v) (C.largeLeaf p fl)) ∧
      ∀ w < bound m, view C m (place C.format boxes T T.root (largePath m v) (C.largeLeaf p fl)) w =
          if w / large = v / large then some ⟨large, p, C.largeFlags fl⟩ else view C m T w := by
  obtain ⟨he, hbase, hflags⟩ := C.large_read p fl hp hphys hfl
  have hne : largePath m v ≠ [] := by
    rw [← length_pos_iff, largePath, digits_length]
    exact hm
  have hshape : Shape C m (largePath m v).length (C.largeLeaf p fl) :=
    .inl ⟨digits_length m _, p, fl, hp, hphys, hfl, rfl⟩
  refine ⟨wellFormed_place hgood hne he hshape hfit, fun w hw => ?_⟩
  rw [view_place hgood hne he hshape (largePath_free hgood v) hfit]
  simp only [largePath_prefix_iff hv hw]
  have hdrop : ((path m w).drop (largePath m v).length).length = 1 := by
    simp [path, largePath]
  rw [decode, hdrop, hbase, hflags, pow_one, small_times]

theorem place_small_spec (hgood : WellFormed C.format boxes (Shape C m) T) {p fl : ℕ}
    (hp : p % small = 0) (hv : v < bound m) (hphys : p < C.physBound) (hfl : C.SmallOk fl)
    (hfit : (place C.format boxes T T.root (path m v) (C.smallLeaf p fl)).pages.length ≤
      boxes.limit) :
    WellFormed C.format boxes (Shape C m)
        (place C.format boxes T T.root (path m v) (C.smallLeaf p fl)) ∧
      (IsLarge (view C m T v) → ∀ w < bound m,
        view C m (place C.format boxes T T.root (path m v) (C.smallLeaf p fl)) w = view C m T w) ∧
      (¬ IsLarge (view C m T v) → ∀ w < bound m,
        view C m (place C.format boxes T T.root (path m v) (C.smallLeaf p fl)) w =
          if w / small = v / small then some ⟨small, p, C.smallFlags fl⟩ else view C m T w) := by
  obtain ⟨he, hbase, hflags⟩ := C.small_read p fl hp hphys hfl
  have hne : path m v ≠ [] := by
    rw [← length_pos_iff, path, digits_length]
    omega
  have hshape : Shape C m (path m v).length (C.smallLeaf p fl) :=
    .inr ⟨digits_length (m + 1) _, p, fl, hp, hphys, hfl, rfl⟩
  refine ⟨wellFormed_place hgood hne he hshape hfit, fun hbig w _ => ?_, fun hsmall w hw => ?_⟩
  · have hblocked := (blocked_iff hgood v).mpr hbig
    cases hpath : path m v with
    | nil => exact absurd hpath hne
    | cons i rest =>
      rw [hpath] at hblocked hshape hfit
      rw [view, place_root, walk_place_blocked C.encodes hgood he (by simpa using hshape) hblocked
        hfit, view]
  · rw [view_place hgood hne he hshape (fun h => hsmall ((blocked_iff hgood v).mp h)) hfit]
    simp only [path_prefix_iff hv hw]
    have hdrop : ((path m w).drop (path m v).length).length = 0 := by simp [path]
    rw [decode, hdrop, hbase, hflags, pow_zero, Nat.mul_one]

theorem isLarge_const (hgood : WellFormed C.format boxes (Shape C m) T)
    (hsame : v / large = w / large) (hbig : IsLarge (view C m T v)) : IsLarge (view C m T w) := by
  obtain ⟨q, r, d, hq, hr, hd⟩ := (blocked_iff hgood v).mpr hbig
  refine (blocked_iff hgood w).mp ⟨q, [w / small % 512], d, ?_, by simp, hd⟩
  have hlen := congrArg List.length hq
  rw [path, digits_length, length_append] at hlen
  have hpos := length_pos_iff.mpr hr
  have hdepth : q.length = m := by
    rcases hgood.shaped q d hd with ⟨hdepth, -⟩ | ⟨hdepth, -⟩ <;> omega
  have hpre : q = largePath m v := by
    rw [path_eq] at hq
    exact (append_inj hq (by rw [hdepth, largePath, digits_length])).1.symm
  rw [path_eq, hpre, largePath, largePath, hsame]

end Views

section Builders

variable {E : Type} {boxes : Supply}

/-- A builder whose mapping functions place leaves on paths, under a walk that reads the tables
as the radix walk does. -/
structure Builder (C : Codec E boxes) (m : ℕ) where
  depth : 0 < m
  walk : Tables E → ℕ → Option Leaf
  map2m : Tables E → ℕ → ℕ → ℕ → Tables E
  map4k : Tables E → ℕ → ℕ → ℕ → Tables E
  map2m_pages : ∀ T v p fl, T.pages.length ≤ (map2m T v p fl).pages.length ∧
    (map2m T v p fl).pages.length ≤ T.pages.length + (m + 1)
  map4k_pages : ∀ T v p fl, T.pages.length ≤ (map4k T v p fl).pages.length ∧
    (map4k T v p fl).pages.length ≤ T.pages.length + (m + 1)
  walk_eq : ∀ T v, WellFormed C.format boxes (Shape C m) T → walk T v = view C m T v
  map2m_eq : ∀ T v p fl, WellFormed C.format boxes (Shape C m) T → v % large = 0 →
    p % large = 0 → (map2m T v p fl).pages.length ≤ boxes.limit →
    map2m T v p fl = place C.format boxes T T.root (largePath m v) (C.largeLeaf p fl)
  map4k_eq : ∀ T v p fl, v % small = 0 → p % small = 0 →
    map4k T v p fl = place C.format boxes T T.root (path m v) (C.smallLeaf p fl)

def Builder.paging {C : Codec E boxes} {m : ℕ} (B : Builder C m) : Paging (Tables E) where
  bound := bound m
  physBound := C.physBound
  view := B.walk
  mapLarge := B.map2m
  mapSmall := B.map4k
  largeFlags := C.largeFlags
  smallFlags := C.smallFlags
  Good := WellFormed C.format boxes (Shape C m)
  Fits T := T.pages.length ≤ boxes.limit
  LargeOk := C.LargeOk
  SmallOk := C.SmallOk
  large_fits T v p fl h := (B.map2m_pages T v p fl).1.trans h
  small_fits T v p fl h := (B.map4k_pages T v p fl).1.trans h
  large_spec T v p fl hgood hv hp hbound hphys hfl hfit := by
    have heq := B.map2m_eq T v p fl hgood hv hp hfit
    rw [heq] at hfit ⊢
    obtain ⟨hgood', hview⟩ := place_large_spec B.depth hgood hp hbound hphys hfl hfit
    refine ⟨hgood', fun w hw => ?_⟩
    rw [B.walk_eq _ w hgood', B.walk_eq T w hgood]
    exact hview w hw
  small_spec T v p fl hgood hv hp hbound hphys hfl hfit := by
    rw [B.map4k_eq T v p fl hv hp] at hfit ⊢
    obtain ⟨hgood', hkeep, hput⟩ := place_small_spec hgood hp hbound hphys hfl hfit
    rw [B.walk_eq T v hgood]
    refine ⟨hgood', fun hbig w hw => ?_, fun hsmall w hw => ?_⟩
    · rw [B.walk_eq _ w hgood', B.walk_eq T w hgood]
      exact hkeep hbig w hw
    · rw [B.walk_eq _ w hgood', B.walk_eq T w hgood]
      exact hput hsmall w hw
  large_const T v w hgood _ _ hsame hbig := by
    rw [B.walk_eq T v hgood] at hbig
    rw [B.walk_eq T w hgood]
    exact isLarge_const hgood hsame hbig

theorem Builder.start_spec {C : Codec E boxes} {m : ℕ} (B : Builder C m)
    (hlimit : 0 < boxes.limit) :
    B.paging.Good (start C.format boxes) ∧ ∀ v, B.walk (start C.format boxes) v = none := by
  have hgood : WellFormed C.format boxes (Shape C m) (start C.format boxes) :=
    wellFormed_start C.encodes hlimit
  refine ⟨hgood, fun v => ?_⟩
  rw [B.walk_eq _ v hgood, view, walk_start C.encodes, Option.map_none]

end Builders

end RadixPaging
