import HyperParallel.Lib.MixedRadix
import Mathlib.Algebra.Ring.Nat
import Mathlib.Data.List.Forall2
import Mathlib.Data.List.GetD
import Mathlib.Tactic.Common

/-!
# Tensors

A tensor has a shape and an entry for every index within it.

* `Valid`: indices within a shape;
* `Tensor`, `Tensor.ofEntries`, `Tensor.ext`;
* `Tensor.reshape`, `reshape_split`, `reshape_merge`: the same entries in row-major order;
* `Tensor.permute`, `permute_front`, `permute_back`: the axes in another order.
-/

open MixedRadix

/-- An index lies within a shape. -/
def Valid (shape idx : List ℕ) : Prop := List.Forall₂ (· < ·) idx shape

instance decidableValid : ∀ shape idx, Decidable (Valid shape idx)
  | [], [] => .isTrue .nil
  | [], _ :: _ => .isFalse nofun
  | _ :: _, [] => .isFalse nofun
  | n :: shape, i :: idx =>
    have : Decidable (Valid shape idx) := decidableValid shape idx
    decidable_of_iff (i < n ∧ Valid shape idx) List.forall₂_cons.symm

/-- A tensor, with nothing outside its shape. -/
structure Tensor (α : Type*) [Zero α] where
  shape : List ℕ
  entry : List ℕ → α
  outside : ∀ idx, ¬ Valid shape idx → entry idx = 0

namespace Tensor

variable {α : Type*} [Zero α]

/-- The tensor with the given entries. -/
def ofEntries (shape : List ℕ) (f : List ℕ → α) : Tensor α where
  shape := shape
  entry := fun idx => if Valid shape idx then f idx else 0
  outside := fun _ h => if_neg h

instance : Inhabited (Tensor α) := ⟨ofEntries [] fun _ => 0⟩

@[simp] theorem shape_ofEntries (shape : List ℕ) (f : List ℕ → α) :
    (ofEntries shape f).shape = shape := rfl

theorem entry_ofEntries {shape idx : List ℕ} (f : List ℕ → α) (h : Valid shape idx) :
    (ofEntries shape f).entry idx = f idx := if_pos h

theorem ext_entry {t t' : Tensor α} (hshape : t.shape = t'.shape)
    (hentry : ∀ idx, Valid t.shape idx → t.entry idx = t'.entry idx) : t = t' := by
  cases t with
  | mk shape entry outside =>
    cases t' with
    | mk shape' entry' outside' =>
      dsimp only at hshape hentry
      subst hshape
      congr 1
      funext idx
      by_cases h : Valid shape idx
      · exact hentry idx h
      · rw [outside idx h, outside' idx h]

theorem ofEntries_congr {shape : List ℕ} {f g : List ℕ → α}
    (h : ∀ idx, Valid shape idx → f idx = g idx) : ofEntries shape f = ofEntries shape g :=
  ext_entry rfl fun idx (hidx : Valid shape idx) => by
    rw [entry_ofEntries f hidx, entry_ofEntries g hidx, h idx hidx]

theorem eq_ofEntries {t : Tensor α} {shape : List ℕ} {f : List ℕ → α} (hshape : t.shape = shape)
    (hentry : ∀ idx, Valid shape idx → t.entry idx = f idx) : t = ofEntries shape f := by
  subst hshape
  exact ext_entry rfl fun idx hidx => by rw [hentry idx hidx, entry_ofEntries f hidx]

end Tensor

/-! ### Indices in row-major order -/

/-- A number with two digits is below the product of their bases. -/
theorem mul_add_lt {a b n m : ℕ} (ha : a < n) (hb : b < m) : a * m + b < n * m :=
  calc a * m + b < a * m + m := by omega
    _ = (a + 1) * m := (Nat.succ_mul _ _).symm
    _ ≤ n * m := Nat.mul_le_mul_right _ ha

variable {base base' idx idx' : List ℕ}

theorem Valid.length_eq (h : Valid base idx) : idx.length = base.length := List.Forall₂.length_eq h

theorem Valid.append (h : Valid base idx) (h' : Valid base' idx') :
    Valid (base ++ base') (idx ++ idx') := List.rel_append h h'

theorem Valid.of_append (hlength : idx.length = base.length)
    (h : Valid (base ++ base') (idx ++ idx')) : Valid base idx ∧ Valid base' idx' := by
  induction base generalizing idx with
  | nil =>
    rw [List.length_nil, List.length_eq_zero_iff] at hlength
    subst hlength
    exact ⟨.nil, h⟩
  | cons n base ih =>
    cases idx with
    | nil => simp at hlength
    | cons i idx =>
      obtain ⟨hi, hrest⟩ := List.forall₂_cons.1 h
      obtain ⟨hleft, hright⟩ := ih (Nat.succ.inj hlength) hrest
      exact ⟨.cons hi hleft, hright⟩

theorem ofDigits_lt (h : Valid base idx) : ofDigits base idx < base.prod := by
  induction h with
  | nil => exact Nat.one_pos
  | @cons i n idx base hi _ ih =>
    rw [ofDigits, Nat.mod_eq_of_lt hi, List.prod_cons]
    exact mul_add_lt hi ih

theorem digits_ofDigits (h : Valid base idx) : digits base (ofDigits base idx) = idx := by
  induction h with
  | nil => rfl
  | @cons i n idx base hi hidx ih =>
    rw [ofDigits, Nat.mod_eq_of_lt hi, digits_mul_add hi (ofDigits_lt hidx), ih]

theorem ofDigits_append (h : Valid base idx) :
    ofDigits (base ++ base') (idx ++ idx') = ofDigits base idx * base'.prod +
      ofDigits base' idx' := by
  induction h with
  | nil => simp [ofDigits]
  | @cons i n idx base hi _ ih =>
    rw [List.cons_append, List.cons_append, ofDigits, ih, ofDigits, List.prod_append, Nat.add_mul,
      Nat.mul_assoc, Nat.add_assoc]

/-- Two digits next to each other are one digit in the product of their bases. -/
theorem ofDigits_merge {xs ys : List ℕ} {a b n m : ℕ} {before after : List ℕ}
    (hxs : Valid before xs) (ha : a < n) (hb : b < m) :
    ofDigits (before ++ n :: m :: after) (xs ++ a :: b :: ys) =
      ofDigits (before ++ n * m :: after) (xs ++ (a * m + b) :: ys) := by
  have hab : a * m + b < n * m := mul_add_lt ha hb
  rw [ofDigits_append hxs, ofDigits_append hxs]
  simp only [ofDigits, List.prod_cons, Nat.mod_eq_of_lt ha, Nat.mod_eq_of_lt hb,
    Nat.mod_eq_of_lt hab, Nat.mul_assoc, Nat.add_mul, Nat.add_assoc]

/-! ### One place of an index -/

/-- A list around one of its places. -/
theorem split_getD {l : List ℕ} {d : ℕ} (hd : d < l.length) :
    l = l.take d ++ l.getD d 0 :: l.drop (d + 1) := by
  rw [List.getD_eq_getElem _ _ hd, ← List.drop_eq_getElem_cons hd, List.take_append_drop]

/-- An index around one of its places. -/
theorem Valid.split {shape idx : List ℕ} {d : ℕ} (h : Valid shape idx) (hd : d < shape.length) :
    idx = idx.take d ++ idx.getD d 0 :: idx.drop (d + 1) ∧ Valid (shape.take d) (idx.take d) ∧
      idx.getD d 0 < shape.getD d 0 ∧ Valid (shape.drop (d + 1)) (idx.drop (d + 1)) := by
  have hidx : d < idx.length := h.length_eq ▸ hd
  have hsplit := split_getD hidx
  have hvalid := h
  rw [hsplit, split_getD hd] at hvalid
  obtain ⟨hbefore, hrest⟩ := hvalid.of_append (by simp [h.length_eq])
  obtain ⟨hat, hafter⟩ := List.forall₂_cons.1 hrest
  exact ⟨hsplit, hbefore, hat, hafter⟩

theorem set_eq {l : List ℕ} {d v : ℕ} (hd : d < l.length) :
    l.set d v = l.take d ++ v :: l.drop (d + 1) := by
  rw [List.set_eq_take_append_cons_drop, if_pos hd]

theorem getD_set_of_ne {l : List ℕ} {i j v : ℕ} (h : i ≠ j) :
    (l.set i v).getD j 0 = l.getD j 0 := by
  rw [List.getD_eq_getElem?_getD, List.getElem?_set_ne h, List.getD_eq_getElem?_getD]

theorem getD_set_self {l : List ℕ} {i v : ℕ} (h : i < l.length) : (l.set i v).getD i 0 = v := by
  rw [List.getD_eq_getElem _ _ (by simpa using h), List.getElem_set_self]

/-- An index within a shape with one size changed. -/
theorem Valid.split_set {shape idx : List ℕ} {d v : ℕ} (h : Valid (shape.set d v) idx)
    (hd : d < shape.length) :
    idx = idx.take d ++ idx.getD d 0 :: idx.drop (d + 1) ∧ Valid (shape.take d) (idx.take d) ∧
      idx.getD d 0 < v ∧ Valid (shape.drop (d + 1)) (idx.drop (d + 1)) := by
  obtain ⟨hsplit, hbefore, hat, hafter⟩ := h.split (by simpa using hd)
  rw [List.take_set_of_le (Nat.le_refl d)] at hbefore
  rw [List.drop_set_of_lt (Nat.lt_succ_self d)] at hafter
  rw [getD_set_self hd] at hat
  exact ⟨hsplit, hbefore, hat, hafter⟩

theorem Valid.set_index {shape idx : List ℕ} {d v b : ℕ} (h : Valid (shape.set d v) idx)
    (hd : d < shape.length) (hb : b < shape.getD d 0) : Valid shape (idx.set d b) := by
  obtain ⟨-, hxs, -, hys⟩ := h.split_set hd
  have hidx : d < idx.length := by
    have := h.length_eq
    simp only [List.length_set] at this
    omega
  rw [set_eq hidx, split_getD hd]
  exact hxs.append (.cons hb hys)

theorem Valid.set_both {shape idx : List ℕ} {d v b : ℕ} (h : Valid shape idx) (hb : b < v) :
    Valid (shape.set d v) (idx.set d b) := by
  induction h generalizing d with
  | nil => exact .nil
  | @cons i n idx shape hi hidx ih =>
    cases d with
    | zero => exact .cons hb hidx
    | succ d => exact .cons hi ih

theorem set_getD_self {l : List ℕ} {i : ℕ} (h : i < l.length) : l.set i (l.getD i 0) = l := by
  rw [List.getD_eq_getElem _ _ h, List.set_getElem_self]

/-- Two places set and set back. -/
theorem set_restore {l : List ℕ} {i j a b : ℕ} (hne : i ≠ j) (hi : i < l.length)
    (hj : j < l.length) :
    (((l.set i a).set j b).set j (l.getD j 0)).set i (l.getD i 0) = l := by
  rw [List.set_set, List.set_comm _ _ hne.symm, List.set_set, set_getD_self hi,
    set_getD_self hj]

/-- The two digits of an index below a product. -/
theorem div_mod_lt {i n m : ℕ} (h : i < n * m) : i / m < n ∧ i % m < m := by
  have hpos : 0 < m := by
    rcases Nat.eq_zero_or_pos m with rfl | hpos
    · omega
    · exact hpos
  exact ⟨Nat.div_lt_of_lt_mul (by rwa [Nat.mul_comm]), Nat.mod_lt _ hpos⟩

/-- A number below a product from its two digits. -/
theorem mul_add_div_mod (a : ℕ) {b m : ℕ} (hb : b < m) :
    (a * m + b) / m = a ∧ (a * m + b) % m = b := by
  have hm : 0 < m := Nat.zero_lt_of_lt hb
  constructor
  · rw [Nat.mul_comm, Nat.mul_add_div hm, Nat.div_eq_of_lt hb, Nat.add_zero]
  · rw [Nat.mul_comm, Nat.mul_add_mod, Nat.mod_eq_of_lt hb]

theorem ceil_div_mul {n : ℕ} (q : ℕ) (hn : 0 < n) : (n * q + n - 1) / n = q := by
  rw [Nat.add_sub_assoc hn, Nat.mul_add_div hn, Nat.div_eq_of_lt (Nat.sub_lt hn Nat.one_pos),
    Nat.add_zero]

/-- The place of an index of part `a`, where `n` parts of one shape lie side by side. -/
theorem Valid.beside {shape idx : List ℕ} {d n a : ℕ} (h : Valid shape idx)
    (hd : d < shape.length) (ha : a < n) :
    Valid (shape.set d (n * shape.getD d 0)) (idx.set d (a * shape.getD d 0 + idx.getD d 0)) ∧
      (idx.set d (a * shape.getD d 0 + idx.getD d 0)).getD d 0 / shape.getD d 0 = a ∧
      (idx.set d (a * shape.getD d 0 + idx.getD d 0)).set d
        ((idx.set d (a * shape.getD d 0 + idx.getD d 0)).getD d 0 % shape.getD d 0) = idx := by
  obtain ⟨-, -, hlt, -⟩ := h.split hd
  have hlength : d < idx.length := h.length_eq ▸ hd
  obtain ⟨hdiv, hmod⟩ := mul_add_div_mod a hlt
  rw [getD_set_self hlength, hdiv, hmod, List.set_set, set_getD_self hlength]
  exact ⟨h.set_both (mul_add_lt ha hlt), rfl, rfl⟩

namespace Tensor

variable {α : Type*} [Zero α]

/-- `t.reshape(shape)`: the same entries in row-major order. -/
def reshape (t : Tensor α) (shape : List ℕ) : Option (Tensor α) :=
  if shape.prod = t.shape.prod then
    some (ofEntries shape fun idx => t.entry (digits t.shape (ofDigits shape idx)))
  else none

/-- `t.permute(perm)`: axis `i` of the result is axis `perm[i]` of `t`. -/
def permute (t : Tensor α) (perm : List ℕ) : Tensor α :=
  ofEntries (perm.map fun axis => t.shape.getD axis 0) fun idx =>
    t.entry ((List.range t.shape.length).map fun axis => idx.getD (perm.idxOf axis) 0)

theorem permute_entry (t : Tensor α) (perm idx : List ℕ)
    (hperm : ∀ axis < t.shape.length, axis ∈ perm) (hlength : idx.length = t.shape.length)
    (hvalid : Valid (perm.map fun axis => t.shape.getD axis 0)
      (perm.map fun axis => idx.getD axis 0)) :
    (t.permute perm).entry (perm.map fun axis => idx.getD axis 0) = t.entry idx := by
  rw [permute, entry_ofEntries _ hvalid]
  congr 1
  apply List.ext_getElem
  · simp [hlength]
  · intro axis haxis haxis'
    have hmem := hperm axis (by simpa using haxis)
    have hlt := List.idxOf_lt_length_of_mem hmem
    rw [List.getElem_map, List.getElem_range, List.getD_eq_getElem _ _ (by simpa using hlt),
      List.getElem_map, List.getElem_idxOf hlt, List.getD_eq_getElem _ _ haxis']

/-- One axis in two, the outer one first. -/
theorem reshape_split {t : Tensor α} {before after : List ℕ} {n m : ℕ}
    (hshape : t.shape = before ++ n * m :: after) :
    ∃ t', t.reshape (before ++ n :: m :: after) = some t' ∧
      t'.shape = before ++ n :: m :: after ∧
      ∀ xs ys a b, Valid before xs → Valid after ys → a < n → b < m →
        t'.entry (xs ++ a :: b :: ys) = t.entry (xs ++ (a * m + b) :: ys) := by
  have hprod : (before ++ n :: m :: after).prod = t.shape.prod := by
    rw [hshape]
    simp [Nat.mul_assoc]
  refine ⟨_, if_pos hprod, rfl, ?_⟩
  intro xs ys a b hxs hys ha hb
  have hvalid : Valid (before ++ n :: m :: after) (xs ++ a :: b :: ys) :=
    hxs.append (.cons ha (.cons hb hys))
  have hab : a * m + b < n * m := mul_add_lt ha hb
  have hmerged : Valid t.shape (xs ++ (a * m + b) :: ys) := by
    rw [hshape]
    exact hxs.append (.cons hab hys)
  rw [entry_ofEntries _ hvalid, ofDigits_merge hxs ha hb, ← hshape, digits_ofDigits hmerged]

/-- Two axes next to each other in one. -/
theorem reshape_merge {t : Tensor α} {before after : List ℕ} {n m : ℕ}
    (hshape : t.shape = before ++ n :: m :: after) :
    ∃ t', t.reshape (before ++ n * m :: after) = some t' ∧
      t'.shape = before ++ n * m :: after ∧
      ∀ xs ys a b, Valid before xs → Valid after ys → a < n → b < m →
        t'.entry (xs ++ (a * m + b) :: ys) = t.entry (xs ++ a :: b :: ys) := by
  have hprod : (before ++ n * m :: after).prod = t.shape.prod := by
    rw [hshape]
    simp [Nat.mul_assoc]
  refine ⟨_, if_pos hprod, rfl, ?_⟩
  intro xs ys a b hxs hys ha hb
  have hvalid : Valid t.shape (xs ++ a :: b :: ys) := by
    rw [hshape]
    exact hxs.append (.cons ha (.cons hb hys))
  have hab : a * m + b < n * m := mul_add_lt ha hb
  have hmerged : Valid (before ++ n * m :: after) (xs ++ (a * m + b) :: ys) :=
    hxs.append (.cons hab hys)
  rw [entry_ofEntries _ hmerged, ← ofDigits_merge hxs ha hb, ← hshape, digits_ofDigits hvalid]

/-! ### One axis in front -/

/-- The axes with axis `d` of `n` in front, and with the front axis moved to `d`. -/
def frontPerm (d n : ℕ) : List ℕ := d :: (List.range d ++ List.range' (d + 1) (n - (d + 1)))

def backPerm (d n : ℕ) : List ℕ := List.range' 1 d ++ 0 :: List.range' (d + 1) (n - (d + 1))

theorem map_getD_range' (xs ys zs : List ℕ) :
    (List.range' xs.length ys.length).map (fun i => (xs ++ (ys ++ zs)).getD i 0) = ys := by
  apply List.ext_getElem
  · simp
  · intro i hi hi'
    rw [List.getElem_map, List.getElem_range', Nat.one_mul, List.getD_eq_getElem?_getD,
      List.getElem?_append_right (Nat.le_add_right _ _), Nat.add_sub_cancel_left,
      List.getElem?_append_left hi', List.getElem?_eq_getElem hi', Option.getD_some]

theorem frontPerm_map (xs ys : List ℕ) (a : ℕ) :
    (frontPerm xs.length (xs.length + (ys.length + 1))).map
        (fun i => (xs ++ a :: ys).getD i 0) = a :: (xs ++ ys) := by
  have hfront := map_getD_range' [] xs (a :: ys)
  have hback := map_getD_range' (xs ++ [a]) ys []
  simp only [List.length_nil, List.nil_append, List.append_nil, List.append_assoc,
    List.singleton_append, List.length_append, List.length_singleton, ← List.range_eq_range']
    at hfront hback
  have hlength : xs.length + (ys.length + 1) - (xs.length + 1) = ys.length := by omega
  rw [frontPerm, List.map_cons, List.map_append, hfront, hlength, hback]
  simp

theorem backPerm_map (xs ys : List ℕ) (a : ℕ) :
    (backPerm xs.length (xs.length + (ys.length + 1))).map
        (fun i => (a :: (xs ++ ys)).getD i 0) = xs ++ a :: ys := by
  have hfront := map_getD_range' [a] xs ys
  have hback := map_getD_range' (a :: xs) ys []
  simp only [List.length_cons, List.length_nil, List.append_nil, List.cons_append,
    List.nil_append, Nat.zero_add] at hfront hback
  have hlength : xs.length + (ys.length + 1) - (xs.length + 1) = ys.length := by omega
  rw [backPerm, List.map_append, List.map_cons, hfront, hlength, hback]
  simp

theorem mem_frontPerm {d n i : ℕ} (hi : i < n) : i ∈ frontPerm d n := by
  simp only [frontPerm, List.mem_cons, List.mem_append, List.mem_range, List.mem_range'_1]
  omega

theorem mem_backPerm {d n i : ℕ} (hi : i < n) : i ∈ backPerm d n := by
  simp only [backPerm, List.mem_cons, List.mem_append, List.mem_range'_1]
  omega

variable {t : Tensor α} {before after xs ys : List ℕ} {n a : ℕ}

/-- Moving an axis to the front. -/
theorem permute_front (hshape : t.shape = before ++ n :: after) :
    (t.permute (frontPerm before.length (before.length + (after.length + 1)))).shape =
        n :: (before ++ after) ∧
      ∀ xs ys a, Valid before xs → Valid after ys → a < n →
        (t.permute (frontPerm before.length (before.length + (after.length + 1)))).entry
          (a :: (xs ++ ys)) = t.entry (xs ++ a :: ys) := by
  have hperm : (frontPerm before.length (before.length + (after.length + 1))).map
      (fun axis => t.shape.getD axis 0) = n :: (before ++ after) := by
    rw [hshape]
    exact frontPerm_map before after n
  refine ⟨hperm, ?_⟩
  intro xs ys a hxs hys ha
  have hidx := frontPerm_map xs ys a
  rw [hxs.length_eq, hys.length_eq] at hidx
  have hentry := permute_entry t
    (frontPerm before.length (before.length + (after.length + 1))) (xs ++ a :: ys)
    (fun axis haxis => mem_frontPerm (by rw [hshape] at haxis; simpa using haxis))
    (by rw [hshape]; simp [hxs.length_eq, hys.length_eq])
    (by rw [hperm, hidx]; exact .cons ha (hxs.append hys))
  rwa [hidx] at hentry

/-- Moving the front axis back to its place. -/
theorem permute_back (hshape : t.shape = n :: (before ++ after)) :
    (t.permute (backPerm before.length (before.length + (after.length + 1)))).shape =
        before ++ n :: after ∧
      ∀ xs ys a, Valid before xs → Valid after ys → a < n →
        (t.permute (backPerm before.length (before.length + (after.length + 1)))).entry
          (xs ++ a :: ys) = t.entry (a :: (xs ++ ys)) := by
  have hperm : (backPerm before.length (before.length + (after.length + 1))).map
      (fun axis => t.shape.getD axis 0) = before ++ n :: after := by
    rw [hshape]
    exact backPerm_map before after n
  refine ⟨hperm, ?_⟩
  intro xs ys a hxs hys ha
  have hidx := backPerm_map xs ys a
  rw [hxs.length_eq, hys.length_eq] at hidx
  have hentry := permute_entry t
    (backPerm before.length (before.length + (after.length + 1))) (a :: (xs ++ ys))
    (fun axis haxis => mem_backPerm (by rw [hshape] at haxis; simp at haxis; omega))
    (by rw [hshape]; simp [hxs.length_eq, hys.length_eq])
    (by rw [hperm, hidx]; exact hxs.append (.cons ha hys))
  rwa [hidx] at hentry

end Tensor
