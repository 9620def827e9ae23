import Mathlib.Algebra.Ring.Nat
import Mathlib.Tactic.Common

/-!
# Images of 32-bit words

Bytes written as little-endian words and read back at byte offsets of 32 bits.

* `encode`, `read`: words to bytes, and one word back; `read_encode`;
* `At image pos ws`: the words `ws` stand in the image from a byte offset on;
* `Reader`: a cursor over an image; `Decodes r x ws`: on the words `ws` the reader gives `x` and ends
  behind them;
* `Decodes.pure`, `Decodes.bind`, `decodes_next`, `decodes_many`: the rules.
-/

namespace WordImage

/-- A `uint32_t` result. -/
def uint32 (n : ℕ) : ℕ := n % 2 ^ 32

theorem uint32_of_lt {n : ℕ} (h : n < 2 ^ 32) : uint32 n = n := Nat.mod_eq_of_lt h

/-- The bytes of a word. -/
def bytes (w : UInt32) : List UInt8 :=
  [UInt8.ofNat w.toNat, UInt8.ofNat (w.toNat / 2 ^ 8), UInt8.ofNat (w.toNat / 2 ^ 16),
    UInt8.ofNat (w.toNat / 2 ^ 24)]

/-- The word of four bytes. -/
def word (b₀ b₁ b₂ b₃ : UInt8) : UInt32 :=
  UInt32.ofNat (b₀.toNat + 2 ^ 8 * b₁.toNat + 2 ^ 16 * b₂.toNat + 2 ^ 24 * b₃.toNat)

def encode (ws : List UInt32) : List UInt8 := ws.flatMap bytes

/-- The word at a byte offset. -/
def read (image : List UInt8) (offset : ℕ) : Option UInt32 :=
  match image.drop offset with
  | b₀ :: b₁ :: b₂ :: b₃ :: _ => some (word b₀ b₁ b₂ b₃)
  | _ => none

theorem word_bytes (w : UInt32) : word (UInt8.ofNat w.toNat) (UInt8.ofNat (w.toNat / 2 ^ 8))
    (UInt8.ofNat (w.toNat / 2 ^ 16)) (UInt8.ofNat (w.toNat / 2 ^ 24)) = w := by
  have hw := w.toNat_lt
  rw [word, ← UInt32.toNat_inj]
  simp only [UInt8.toNat_ofNat', UInt32.toNat_ofNat']
  omega

@[simp] theorem encode_nil : encode [] = [] := rfl

@[simp] theorem encode_cons (w : UInt32) (ws : List UInt32) :
    encode (w :: ws) = bytes w ++ encode ws := rfl

@[simp] theorem length_encode (ws : List UInt32) : (encode ws).length = 4 * ws.length := by
  induction ws with
  | nil => rfl
  | cons w ws ih =>
    rw [encode_cons, List.length_append, ih, List.length_cons]
    show 4 + _ = _
    omega

theorem drop_encode (ws : List UInt32) (i : ℕ) :
    (encode ws).drop (4 * i) = encode (ws.drop i) := by
  induction ws generalizing i with
  | nil => simp
  | cons w ws ih =>
    cases i with
    | zero => rfl
    | succ i =>
      rw [List.drop_succ_cons, ← ih, encode_cons, Nat.mul_succ]
      rfl

theorem read_encode (ws : List UInt32) (i : ℕ) : read (encode ws) (4 * i) = ws[i]? := by
  rw [read, drop_encode]
  cases h : ws.drop i with
  | nil => rw [List.getElem?_eq_none (List.drop_eq_nil_iff.1 h), encode_nil]
  | cons w rest =>
    rw [encode_cons]
    show some (word _ _ _ _) = _
    rw [word_bytes, ← List.head?_drop, h]
    rfl

/-- Bytes behind a word do not matter to it. -/
theorem read_take {image : List UInt8} {offset n : ℕ} (h : offset + 4 ≤ n) :
    read (image.take n) offset = read image offset := by
  rw [read, read, List.drop_take]
  obtain ⟨m, hm⟩ := Nat.exists_eq_add_of_le (show 4 ≤ n - offset by omega)
  rw [hm, Nat.add_comm]
  rcases image.drop offset with _ | ⟨b₀, _ | ⟨b₁, _ | ⟨b₂, _ | ⟨b₃, rest⟩⟩⟩⟩ <;> rfl

/-- The words `ws` stand in the image from a byte offset on, within 32-bit offsets. -/
def At (image : List UInt8) (pos : ℕ) (ws : List UInt32) : Prop :=
  (∀ i (h : i < ws.length), read image (pos + 4 * i) = some ws[i]) ∧ pos + 4 * ws.length < 2 ^ 32

theorem At.cast {image : List UInt8} {pos pos' : ℕ} {ws : List UInt32} (h : At image pos ws)
    (hpos : pos = pos') : At image pos' ws := hpos ▸ h

theorem at_encode {ws : List UInt32} (h : 4 * ws.length < 2 ^ 32) : At (encode ws) 0 ws := by
  refine ⟨fun i hi => ?_, by omega⟩
  rw [Nat.zero_add, read_encode, List.getElem?_eq_getElem hi]

theorem At.left {image : List UInt8} {pos : ℕ} {ws ws' : List UInt32}
    (h : At image pos (ws ++ ws')) : At image pos ws := by
  refine ⟨fun i hi => ?_, ?_⟩
  · rw [h.1 i (by rw [List.length_append]; omega), List.getElem_append_left hi]
  · have := h.2
    rw [List.length_append] at this
    omega

theorem At.right {image : List UInt8} {pos : ℕ} {ws ws' : List UInt32}
    (h : At image pos (ws ++ ws')) : At image (pos + 4 * ws.length) ws' := by
  have hsize := h.2
  rw [List.length_append] at hsize
  refine ⟨fun i hi => ?_, by omega⟩
  have := h.1 (ws.length + i) (by rw [List.length_append]; omega)
  rw [List.getElem_append_right (Nat.le_add_right _ _)] at this
  simp only [Nat.add_sub_cancel_left] at this
  rw [← this]
  congr 1
  omega

/-- One item of an array of items of `k` words. -/
theorem At.item {α : Type} {image : List UInt8} {words : α → List UInt32} {k : ℕ} {l : List α}
    {pos : ℕ} (hk : ∀ x ∈ l, (words x).length = k) (h : At image pos (l.flatMap words)) {i : ℕ}
    (hi : i < l.length) : At image (pos + 4 * k * i) (words l[i]) := by
  induction l generalizing pos i with
  | nil => exact absurd hi (Nat.not_lt_zero i)
  | cons x l ih =>
    rw [List.flatMap_cons] at h
    cases i with
    | zero => exact h.left
    | succ i =>
      have hrest := h.right
      rw [hk x List.mem_cons_self] at hrest
      have hitem := ih (fun y hy => hk y (List.mem_cons_of_mem _ hy)) hrest
        (Nat.lt_of_succ_lt_succ hi)
      refine hitem.cast ?_
      rw [Nat.mul_succ]
      omega

/-! ### Readers -/

/-- A cursor over an image. -/
abbrev Reader (α : Type) := ReaderT (List UInt8) (StateT ℕ Option) α

/-- The word under the cursor, which goes on by four bytes. -/
def next : Reader UInt32 := fun image pos =>
  (read image pos).map fun w => (w, uint32 (pos + 4))

/-- The same thing, a number of times. -/
def many {α : Type} (r : Reader α) : ℕ → Reader (List α)
  | 0 => pure []
  | n + 1 => do
      let x ← r
      let xs ← many r n
      return x :: xs

/-- On the words `ws` the reader gives `x`, and the cursor ends behind them. -/
def Decodes {α : Type} (r : Reader α) (x : α) (ws : List UInt32) : Prop :=
  ∀ image pos, At image pos ws → r image pos = some (x, pos + 4 * ws.length)

variable {α β : Type} {r : Reader α} {f : α → Reader β} {x : α} {y : β} {ws ws' : List UInt32}

theorem Decodes.pure (x : α) : Decodes (pure x) x [] := fun _ _ _ => rfl

theorem Decodes.bind (h : Decodes r x ws) (h' : Decodes (f x) y ws') :
    Decodes (r >>= f) y (ws ++ ws') := by
  intro image pos hat
  show ((r image pos).bind fun p => f p.1 image p.2) = _
  rw [h image pos hat.left, Option.bind_some, h' image _ hat.right, List.length_append,
    Nat.mul_add, Nat.add_assoc]

theorem decodes_next (w : UInt32) : Decodes next w [w] := by
  intro image pos hat
  have hread := hat.1 0 Nat.zero_lt_one
  have hsize := hat.2
  simp only [List.length_singleton, Nat.mul_one, Nat.mul_zero, Nat.add_zero,
    List.getElem_cons_zero] at hread hsize
  rw [next, hread, Option.map_some, uint32_of_lt hsize]
  rfl

theorem Decodes.next (w : UInt32) {f : UInt32 → Reader β} (h : Decodes (f w) y ws) :
    Decodes (next >>= f) y (w :: ws) :=
  (decodes_next w).bind h

theorem decodes_many {words : α → List UInt32} {l : List α} (h : ∀ x ∈ l, Decodes r x (words x)) :
    Decodes (many r l.length) l (l.flatMap words) := by
  induction l with
  | nil => exact Decodes.pure []
  | cons x l ih =>
    rw [List.flatMap_cons]
    refine (h x List.mem_cons_self).bind ?_
    have htail := (ih fun y hy => h y (List.mem_cons_of_mem _ hy)).bind
      (f := fun xs => Pure.pure (x :: xs)) (Decodes.pure (x :: l))
    rwa [List.append_nil] at htail

end WordImage
