import Mathlib.Data.Int.ModEq
import Mathlib.Data.UInt
import Mathlib.Tactic.Ring
import Mathlib.Tactic.Common

/-!
# Little-endian arrays in a buffer

* `encode`, `decode`: natural numbers as a given number of bytes, `decode_encode`;
* `encodeInt`, `decodeInt`: integers in two's complement, `decodeInt_encodeInt`;
* `items`: a number of items of one size; `frombuffer`: the items behind an offset of a buffer,
  `frombuffer_append`, `frombuffer_flatten`.
-/

namespace LittleEndian

/-- The lowest bytes of a number. -/
def encode : ℕ → ℕ → List UInt8
  | 0, _ => []
  | width + 1, n => UInt8.ofNat n :: encode width (n / 256)

def decode : List UInt8 → ℕ
  | [] => 0
  | b :: bytes => b.toNat + 256 * decode bytes

@[simp] theorem length_encode (width n : ℕ) : (encode width n).length = width := by
  induction width generalizing n with
  | zero => rfl
  | succ width ih => rw [encode, List.length_cons, ih]

theorem decode_encode (width n : ℕ) : decode (encode width n) = n % 256 ^ width := by
  induction width generalizing n with
  | zero => rw [encode, decode, pow_zero, Nat.mod_one]
  | succ width ih =>
    rw [encode, decode, ih, pow_succ', Nat.mod_mul, UInt8.toNat_ofNat']

theorem decode_encode_of_lt {width n : ℕ} (h : n < 256 ^ width) :
    decode (encode width n) = n := by
  rw [decode_encode, Nat.mod_eq_of_lt h]

/-- An integer in two's complement; what does not fit is cut off. -/
def encodeInt (width : ℕ) (z : ℤ) : List UInt8 := encode width (z % (256 ^ width : ℕ)).toNat

def decodeInt (bytes : List UInt8) : ℤ := Int.bmod (decode bytes) (256 ^ bytes.length)

/-- The integers of a width. -/
def Fits (width : ℕ) (z : ℤ) : Prop :=
  -(256 ^ width / 2 : ℕ) ≤ z ∧ z < ((256 ^ width + 1) / 2 : ℕ)

instance (width : ℕ) (z : ℤ) : Decidable (Fits width z) :=
  inferInstanceAs (Decidable (_ ∧ _))

@[simp] theorem length_encodeInt (width : ℕ) (z : ℤ) : (encodeInt width z).length = width :=
  length_encode width _

theorem decodeInt_encodeInt {width : ℕ} {z : ℤ} (h : Fits width z) :
    decodeInt (encodeInt width z) = z := by
  have hpos : 0 < 256 ^ width := Nat.pow_pos (by decide)
  have hnonneg : 0 ≤ z % (256 ^ width : ℕ) := Int.emod_nonneg _ (by omega)
  have hlt : z % (256 ^ width : ℕ) < (256 ^ width : ℕ) := Int.emod_lt_of_pos _ (by omega)
  rw [decodeInt, length_encodeInt, encodeInt, decode_encode_of_lt (by omega),
    Int.toNat_of_nonneg hnonneg, Int.emod_bmod]
  exact Int.bmod_eq_of_le h.1 h.2

theorem map_decodeInt {width : ℕ} {l : List ℤ} (h : ∀ z ∈ l, Fits width z) :
    (l.map (encodeInt width)).map decodeInt = l := by
  rw [List.map_map]
  exact (List.map_congr_left fun z hz => decodeInt_encodeInt (h z hz)).trans (List.map_id l)

/-! ### Arrays -/

variable {α : Type*}

/-- The first items of a size. -/
def items (size : ℕ) : ℕ → List α → List (List α)
  | 0, _ => []
  | count + 1, buffer => buffer.take size :: items size count (buffer.drop size)

/-- The items behind an offset, where the buffer holds that many. -/
def frombuffer (size count offset : ℕ) (buffer : List α) : Option (List (List α)) :=
  if offset + count * size ≤ buffer.length then some (items size count (buffer.drop offset))
  else none

variable {size : ℕ} {l : List (List α)}

theorem length_flatten_of_length (hsize : ∀ x ∈ l, x.length = size) :
    l.flatten.length = l.length * size := by
  induction l with
  | nil => rw [List.flatten_nil, List.length_nil, List.length_nil, Nat.zero_mul]
  | cons x l ih =>
    rw [List.forall_mem_cons] at hsize
    rw [List.flatten_cons, List.length_append, hsize.1, ih hsize.2, List.length_cons]
    ring

theorem items_flatten (hsize : ∀ x ∈ l, x.length = size) (back : List α) :
    items size l.length (l.flatten ++ back) = l := by
  induction l with
  | nil => rfl
  | cons x l ih =>
    rw [List.forall_mem_cons] at hsize
    rw [List.flatten_cons, List.append_assoc, List.length_cons, items, List.take_left' hsize.1,
      List.drop_left' hsize.1, ih hsize.2]

/-- An array between other data. -/
theorem frombuffer_append (hsize : ∀ x ∈ l, x.length = size) {front : List α} {offset : ℕ}
    (hfront : front.length = offset) (back : List α) :
    frombuffer size l.length offset (front ++ (l.flatten ++ back)) = some l := by
  rw [frombuffer, if_pos, List.drop_left' hfront, items_flatten hsize]
  rw [List.length_append, List.length_append, hfront, length_flatten_of_length hsize]
  omega

theorem drop_flatten (hsize : ∀ x ∈ l, x.length = size) {k : ℕ} (hk : k ≤ l.length) :
    l.flatten.drop (k * size) = (l.drop k).flatten := by
  have hlength : (l.take k).flatten.length = k * size := by
    rw [length_flatten_of_length fun x hx => hsize x (List.mem_of_mem_take hx), List.length_take,
      min_eq_left hk]
  conv_lhs => rw [← List.take_append_drop k l, List.flatten_append]
  exact List.drop_left' hlength

theorem take_flatten (hsize : ∀ x ∈ l, x.length = size) {k : ℕ} (hk : k ≤ l.length) :
    l.flatten.take (k * size) = (l.take k).flatten := by
  have hlength : (l.take k).flatten.length = k * size := by
    rw [length_flatten_of_length fun x hx => hsize x (List.mem_of_mem_take hx), List.length_take,
      min_eq_left hk]
  conv_lhs => rw [← List.take_append_drop k l, List.flatten_append]
  exact List.take_left' hlength

theorem items_take (hsize : ∀ x ∈ l, x.length = size) {k : ℕ} (hk : k ≤ l.length) :
    items size k l.flatten = l.take k := by
  have hitems := items_flatten (l := l.take k) (fun x hx => hsize x (List.mem_of_mem_take hx))
    (l.drop k).flatten
  rwa [← List.flatten_append, List.take_append_drop, List.length_take, min_eq_left hk] at hitems

/-- A part of an array. -/
theorem frombuffer_flatten (hsize : ∀ x ∈ l, x.length = size) {start count : ℕ}
    (h : start + count ≤ l.length) :
    frombuffer size count (start * size) l.flatten = some ((l.drop start).take count) := by
  have hlength : (l.drop start).length = l.length - start := List.length_drop
  rw [frombuffer, if_pos, drop_flatten hsize (by omega),
    items_take (fun x hx => hsize x (List.mem_of_mem_drop hx)) (by omega)]
  rw [length_flatten_of_length hsize, ← Nat.add_mul]
  exact Nat.mul_le_mul_right size h

end LittleEndian
