import HyperParallel.Lib.Intervals

/-!
# Flat buffers

* `FlatBuffer.write`, `FlatBuffer.writeAll`: copies into a buffer, one after the other;
* `FlatBuffer.narrow`: a view of a buffer; `narrow_write_self`, `narrow_write_before`: after a copy;
* `FlatBuffer.map_narrow_offsets`: the views of all pieces.
-/

namespace FlatBuffer

variable {α : Type*}

/-- `buffer.narrow(0, offset, length)` -/
def narrow (buffer : List α) (offset length : ℕ) : List α := (buffer.drop offset).take length

/-- `buffer.narrow(0, offset, data.numel()).copy_(data)` -/
def write (buffer : List α) (offset : ℕ) (data : List α) : List α :=
  buffer.take offset ++ (data ++ buffer.drop (offset + data.length))

/-- Pieces one behind the other. -/
def writeAll (buffer : List α) (offset : ℕ) : List (List α) → List α
  | [] => buffer
  | piece :: pieces => writeAll (write buffer offset piece) (offset + piece.length) pieces

/-- The offsets of pieces of the given lengths. -/
def offsets (offset : ℕ) : List ℕ → List ℕ
  | [] => []
  | length :: lengths => offset :: offsets (offset + length) lengths

variable {buffer : List α} {offset : ℕ} {piece : List α} {pieces : List (List α)}

theorem length_narrow {length : ℕ} (h : offset + length ≤ buffer.length) :
    (narrow buffer offset length).length = length := by
  rw [narrow, List.length_take, List.length_drop]
  omega

theorem narrow_add (buffer : List α) (offset m n : ℕ) :
    narrow buffer offset (m + n) = narrow buffer offset m ++ narrow buffer (offset + m) n := by
  rw [narrow, narrow, narrow, List.take_add, List.drop_drop]

/-- A view inside a view. -/
theorem narrow_narrow {start m n : ℕ} (h : start + m ≤ n) :
    narrow (narrow buffer offset n) start m = narrow buffer (offset + start) m := by
  rw [narrow, narrow, narrow, List.drop_take, List.take_take, List.drop_drop,
    min_eq_left (by omega)]

theorem write_append {front back : List α} (hfront : front.length = offset) :
    write (front ++ back) offset piece = front ++ (piece ++ back.drop piece.length) := by
  rw [write, List.take_left' hfront, ← List.drop_drop, List.drop_left' hfront]

theorem writeAll_append {front back : List α} (hfront : front.length = offset) :
    writeAll (front ++ back) offset pieces =
      front ++ (pieces.flatten ++ back.drop pieces.flatten.length) := by
  induction pieces generalizing front back offset with
  | nil => simp [writeAll]
  | cons piece pieces ih =>
    rw [writeAll, write_append hfront, ← List.append_assoc, ih (by rw [List.length_append, hfront]),
      List.flatten_cons, List.drop_drop, List.length_append, List.append_assoc, List.append_assoc]

theorem narrow_append {front back : List α} (hfront : front.length = offset) :
    narrow (front ++ (piece ++ back)) offset piece.length = piece := by
  rw [narrow, List.drop_left' hfront, List.take_left' rfl]

/-- A block of several of one length. -/
theorem narrow_flatMap_range {f : ℕ → List α} {s n r : ℕ} (hf : ∀ i < n, (f i).length = s)
    (hr : r < n) : narrow ((List.range n).flatMap f) (r * s) s = f r := by
  have hslice := Intervals.slice_flatMap_range (o := 0) (m := s) hf hr (by omega)
  rw [Nat.add_zero, List.drop_zero, List.take_of_length_le (Nat.le_of_eq (hf r hr))] at hslice
  exact hslice

section Write

variable {data : List α}

theorem length_write (h : offset + data.length ≤ buffer.length) :
    (write buffer offset data).length = buffer.length := by
  rw [write, List.length_append, List.length_append, List.length_take, List.length_drop]
  omega

theorem narrow_write_self (h : offset ≤ buffer.length) :
    narrow (write buffer offset data) offset data.length = data := by
  rw [narrow, write, List.drop_left' (List.length_take_of_le h), List.take_left' rfl]

/-- A copy changes nothing before its offset. -/
theorem narrow_write_before {start length : ℕ} (h : start + length ≤ offset)
    (hoffset : offset ≤ buffer.length) :
    narrow (write buffer offset data) start length = narrow buffer start length := by
  have htake := List.length_take_of_le hoffset
  rw [narrow, narrow, write, List.drop_append_of_le_length (by omega),
    List.take_append_of_le_length (by rw [List.length_drop]; omega), List.drop_take,
    List.take_take, min_eq_left (by omega)]

end Write

/-- The views of a buffer at the offsets of its pieces. -/
theorem map_narrow_offsets (front : List α) (offset : ℕ) (hfront : front.length = offset) :
    ((offsets offset (pieces.map List.length)).zip (pieces.map List.length)).map
        (fun place => narrow (front ++ pieces.flatten) place.1 place.2) = pieces := by
  induction pieces generalizing front offset with
  | nil => rfl
  | cons piece pieces ih =>
    have hrest := ih (front ++ piece) (offset + piece.length)
      (by rw [List.length_append, hfront])
    rw [List.append_assoc] at hrest
    rw [List.map_cons, offsets, List.zip_cons_cons, List.map_cons, List.flatten_cons,
      narrow_append hfront, hrest]

end FlatBuffer
