import Mathlib.Algebra.Group.Nat.Defs
import Mathlib.Tactic.Common

/-! Fields of a byte record. A record is filled by writing fields at offsets into a buffer; a
field reads back as what the last write over it put there. Words are stored lowest byte first. -/
namespace ByteFields

open List

variable {α : Type*}

def put (buf : List α) (off : ℕ) (bytes : List α) : List α :=
  buf.take off ++ (bytes ++ buf.drop (off + bytes.length))

def field (buf : List α) (off len : ℕ) : List α := (buf.drop off).take len

abbrev Write (α : Type*) := ℕ × List α

namespace Write

def Fits (size : ℕ) (w : Write α) : Prop := w.1 + w.2.length ≤ size

def Apart (w : Write α) (off len : ℕ) : Prop := w.1 + w.2.length ≤ off ∨ off + len ≤ w.1

end Write

def putAll (buf : List α) (writes : List (Write α)) : List α :=
  writes.foldl (fun buf w => put buf w.1 w.2) buf

variable {w : Write α} {buf : List α}

theorem put_length (h : w.Fits buf.length) : (put buf w.1 w.2).length = buf.length := by
  unfold Write.Fits at h
  simp only [put, length_append, length_take, length_drop]
  omega

theorem field_put_same (h : w.Fits buf.length) : field (put buf w.1 w.2) w.1 w.2.length = w.2 := by
  have htake : (buf.take w.1).length = w.1 := by
    unfold Write.Fits at h
    rw [length_take]
    omega
  rw [field, put, drop_left' htake, take_left]

theorem field_getElem? (buf : List α) (off len i : ℕ) :
    (field buf off len)[i]? = if i < len then buf[off + i]? else none := by
  rw [field, getElem?_take, getElem?_drop]

theorem put_getElem? (h : w.Fits buf.length) {i : ℕ}
    (hi : i < w.1 ∨ w.1 + w.2.length ≤ i) : (put buf w.1 w.2)[i]? = buf[i]? := by
  unfold Write.Fits at h
  have htake : (buf.take w.1).length = w.1 := by
    rw [length_take]
    omega
  rcases hi with hlt | hge
  · rw [put, getElem?_append_left (by omega), getElem?_take, if_pos hlt]
  rw [put, getElem?_append_right (by omega), getElem?_append_right (by omega), getElem?_drop]
  congr 1
  omega

theorem field_put_apart (h : w.Fits buf.length) {off len : ℕ}
    (hapart : w.Apart off len) : field (put buf w.1 w.2) off len = field buf off len := by
  apply ext_getElem?
  intro i
  rw [field_getElem?, field_getElem?]
  split
  · unfold Write.Apart at hapart
    exact put_getElem? h (by omega)
  · rfl

section PutAll
variable {buf : List α} {writes before after : List (Write α)}

theorem putAll_length (h : ∀ w ∈ writes, w.Fits buf.length) :
    (putAll buf writes).length = buf.length := by
  induction writes generalizing buf with
  | nil => rfl
  | cons w writes ih =>
    have hlen := put_length (h w mem_cons_self)
    have hrest : ∀ v ∈ writes, v.Fits (put buf w.1 w.2).length := by
      intro v hv
      rw [hlen]
      exact h v (mem_cons_of_mem _ hv)
    exact (ih hrest).trans hlen

theorem field_putAll_apart (h : ∀ w ∈ writes, w.Fits buf.length) {off len : ℕ}
    (hapart : ∀ w ∈ writes, w.Apart off len) :
    field (putAll buf writes) off len = field buf off len := by
  induction writes generalizing buf with
  | nil => rfl
  | cons w writes ih =>
    have hw := h w mem_cons_self
    have hrest : ∀ v ∈ writes, v.Fits (put buf w.1 w.2).length := by
      intro v hv
      rw [put_length hw]
      exact h v (mem_cons_of_mem _ hv)
    have hfirst := field_put_apart hw (hapart w mem_cons_self)
    exact (ih hrest fun v hv => hapart v (mem_cons_of_mem _ hv)).trans hfirst

theorem field_putAll (h : ∀ v ∈ before ++ w :: after, v.Fits buf.length)
    (hafter : ∀ v ∈ after, v.Apart w.1 w.2.length) :
    field (putAll buf (before ++ w :: after)) w.1 w.2.length = w.2 := by
  have hbefore : (putAll buf before).length = buf.length :=
    putAll_length fun v hv => h v (mem_append_left _ hv)
  have hw : w.Fits (putAll buf before).length := by
    rw [hbefore]
    exact h w (mem_append_right _ mem_cons_self)
  have hrest : ∀ v ∈ after, v.Fits (put (putAll buf before) w.1 w.2).length := by
    intro v hv
    rw [put_length hw, hbefore]
    exact h v (mem_append_right _ (mem_cons_of_mem _ hv))
  have hsplit : putAll buf (before ++ w :: after) =
      putAll (put (putAll buf before) w.1 w.2) after := by
    rw [putAll, foldl_append]
    rfl
  rw [hsplit, field_putAll_apart hrest hafter, field_put_same hw]

theorem field_putAll_group {group : List (Write α)}
    (h : ∀ v ∈ before ++ group ++ after, v.Fits buf.length) (hw : w ∈ group)
    (hgroup : group.Pairwise fun v v' => v'.Apart v.1 v.2.length)
    (hafter : ∀ v ∈ after, v.Apart w.1 w.2.length) :
    field (putAll buf (before ++ group ++ after)) w.1 w.2.length = w.2 := by
  obtain ⟨first, last, rfl⟩ := append_of_mem hw
  have hsplit : before ++ (first ++ w :: last) ++ after =
      (before ++ first) ++ w :: (last ++ after) := by simp
  rw [hsplit] at h ⊢
  refine field_putAll h fun v hv => ?_
  rcases mem_append.mp hv with hv | hv
  · exact (pairwise_cons.mp (pairwise_append.mp hgroup).2.1).1 v hv
  · exact hafter v hv

end PutAll

def leBytes (width n : ℕ) : List UInt8 := (List.range width).map fun i => UInt8.ofNat (n / 256 ^ i)

@[simp] theorem leBytes_length (width n : ℕ) : (leBytes width n).length = width := by
  simp [leBytes]

theorem leBytes_succ (width n : ℕ) :
    leBytes (width + 1) n = UInt8.ofNat n :: leBytes width (n / 256) := by
  simp only [leBytes, range_succ_eq_map, map_cons, List.map_map, Nat.pow_zero, Nat.div_one,
    List.cons.injEq, true_and]
  refine map_congr_left fun i _ => ?_
  simp [Nat.div_div_eq_div_mul, Nat.pow_succ']

theorem foldr_leBytes (width n : ℕ) :
    (leBytes width n).foldr (fun b n => b.toNat + 256 * n) 0 = n % 256 ^ width := by
  induction width generalizing n with
  | zero => simp [leBytes, Nat.mod_one]
  | succ width ih =>
    rw [leBytes_succ, foldr_cons, ih, Nat.pow_succ', Nat.mod_mul]
    simp

end ByteFields
