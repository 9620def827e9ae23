import HyperParallel.Data.IndexedFormat
import HyperParallel.Lib.ExceptList
import Mathlib.Algebra.Order.BigOperators.Group.List
import Mathlib.Algebra.Order.Ring.Int

/-!
# What the files of an indexed dataset hold

* `Contents`: sequences with their modes, and the document boundaries; `Contents.index` is what an
  index of them has to say;
* `readIndex_layout`: the index that is read from the fields in the order of the writer;
* `run_encodes`: the files of a builder after any operations;
* `reads_back`: what both readers return on such files.
-/

open LittleEndian

namespace HyperParallel.Data.IndexedFormat

variable {dtype : DType}

/-! ### Pointers -/

/-- The byte offsets of sequences of the given lengths. -/
def pointersFrom (itemsize : ℕ) (ptr : ℤ) : List ℤ → List ℤ
  | [] => []
  | length :: lengths => ptr :: pointersFrom itemsize (ptr + length * itemsize) lengths

theorem length_pointersFrom (itemsize : ℕ) (ptr : ℤ) (lengths : List ℤ) :
    (pointersFrom itemsize ptr lengths).length = lengths.length := by
  induction lengths generalizing ptr with
  | nil => rfl
  | cons length lengths ih => rw [pointersFrom, List.length_cons, ih, List.length_cons]

theorem getElem?_pointersFrom {itemsize k : ℕ} {ptr : ℤ} {lengths : List ℤ}
    (hk : k < lengths.length) :
    (pointersFrom itemsize ptr lengths)[k]? = some (ptr + (lengths.take k).sum * itemsize) := by
  induction lengths generalizing ptr k with
  | nil => exact absurd hk (Nat.not_lt_zero k)
  | cons length lengths ih =>
    cases k with
    | zero => simp [pointersFrom]
    | succ k =>
      rw [pointersFrom, List.getElem?_cons_succ, ih (Nat.lt_of_succ_lt_succ hk),
        List.take_succ_cons, List.sum_cons]
      congr 1
      ring

namespace Scalar

theorem wrap_of_lt {n : ℤ} (hn : 0 ≤ n) (h : n < 2 ^ 31) : wrap n = n :=
  Int.bmod_eq_of_le (by omega) (by omega)

theorem fits_of_lt {n : ℤ} (hn : 0 ≤ n) (h : n < 2 ^ 31) : Fits 4 n := by
  constructor <;> norm_num <;> omega

@[simp] theorem val_python (n : ℤ) : (python n).val = n := rfl

@[simp] theorem val_int32 (n : ℤ) : (int32 n).val = n := rfl

/-- No NumPy scalar wraps below `2^31`. -/
theorem add_mulItemsize {ptr length : Scalar} (itemsize : ℕ) (hptr : 0 ≤ ptr.val)
    (hlength : 0 ≤ length.val) (hlt : ptr.val + length.val * itemsize < 2 ^ 31) :
    ∃ next, ptr.add (length.mulItemsize itemsize) = .ok next ∧
      next.val = ptr.val + length.val * itemsize := by
  have hmul : 0 ≤ length.val * (itemsize : ℤ) := Int.mul_nonneg hlength (by omega)
  have hwrap : wrap (length.val * itemsize) = length.val * itemsize :=
    wrap_of_lt hmul (by omega)
  have hsum : wrap (ptr.val + length.val * itemsize) = ptr.val + length.val * itemsize :=
    wrap_of_lt (by omega) hlt
  cases ptr with
  | python a =>
    cases length with
    | python b => exact ⟨_, rfl, rfl⟩
    | int32 b =>
      simp only [val_python, val_int32] at *
      refine ⟨int32 (wrap (a + b * itemsize)), ?_, hsum⟩
      rw [mulItemsize, hwrap, add, add.mixed, if_pos (fits_of_lt hptr (by omega))]
  | int32 a =>
    cases length with
    | python b =>
      simp only [val_python, val_int32] at *
      refine ⟨int32 (wrap (a + b * itemsize)), ?_, hsum⟩
      rw [mulItemsize, add, add.mixed, if_pos (fits_of_lt hmul (by omega)), Int.add_comm]
    | int32 b =>
      simp only [val_int32] at *
      refine ⟨int32 (wrap (a + b * itemsize)), ?_, hsum⟩
      rw [mulItemsize, hwrap, add]

end Scalar

theorem sequencePointers_python (itemsize : ℕ) (ptr : ℤ) (lengths : List ℤ) :
    sequencePointers itemsize (.python ptr) (lengths.map Scalar.python) =
      .ok (pointersFrom itemsize ptr lengths) := by
  induction lengths generalizing ptr with
  | nil => rfl
  | cons length lengths ih =>
    rw [List.map_cons, sequencePointers, Scalar.mulItemsize, Scalar.add]
    show (do let pointers ← sequencePointers itemsize _ _; return _) = _
    rw [ih]
    rfl

theorem sequencePointers_of_lt {itemsize : ℕ} {ptr : Scalar} {lengths : List Scalar}
    (hptr : 0 ≤ ptr.val) (hlengths : ∀ length ∈ lengths, 0 ≤ length.val)
    (hlt : ptr.val + (lengths.map Scalar.val).sum * itemsize < 2 ^ 31) :
    sequencePointers itemsize ptr lengths =
      .ok (pointersFrom itemsize ptr.val (lengths.map Scalar.val)) := by
  induction lengths generalizing ptr with
  | nil => rfl
  | cons length lengths ih =>
    rw [List.forall_mem_cons] at hlengths
    rw [List.map_cons, List.sum_cons, Int.add_mul] at hlt
    have hmul : 0 ≤ length.val * (itemsize : ℤ) := Int.mul_nonneg hlengths.1 (by omega)
    have hrest : 0 ≤ (lengths.map Scalar.val).sum * (itemsize : ℤ) :=
      Int.mul_nonneg (List.sum_nonneg (by simpa using hlengths.2)) (by omega)
    obtain ⟨next, hadd, hnext⟩ :=
      Scalar.add_mulItemsize itemsize hptr hlengths.1 (by omega)
    rw [sequencePointers, hadd]
    show (do let pointers ← sequencePointers itemsize next lengths; return _) = _
    rw [ih (by omega) hlengths.2 (by omega), hnext]
    rfl

/-! ### The layout of an index -/

section Layout

theorem npFrombuffer_append {width : ℕ} {l : List Bytes} (hsize : ∀ x ∈ l, x.length = width)
    {front : Bytes} {offset : ℕ} (hfront : front.length = offset) (back : Bytes) :
    npFrombuffer width l.length offset (front ++ (l.flatten ++ back)) = .ok l := by
  have hread := frombuffer_append hsize hfront back
  have hle : offset ≤ (front ++ (l.flatten ++ back)).length := by
    rw [List.length_append]
    omega
  rw [npFrombuffer, if_neg (by omega), if_neg (by omega), Int.toNat_natCast, Int.toNat_natCast,
    hread]

/-- The bytes of an array of integers. -/
def intBytes (width : ℕ) (l : List ℤ) : Bytes := (l.map (encodeInt width)).flatten

theorem arrayBytes_eq_ok {width : ℕ} {l : List ℤ} {bytes : Bytes} :
    arrayBytes width l = .ok bytes ↔ (∀ z ∈ l, Fits width z) ∧ bytes = intBytes width l := by
  rw [arrayBytes]
  split_ifs with h
  · exact ⟨fun heq => ⟨h, (Except.ok.inj heq).symm⟩, fun heq => congrArg _ heq.2.symm⟩
  · exact iff_of_false (fun heq => by cases heq) fun heq => h heq.1

theorem length_intBytes (width : ℕ) (l : List ℤ) :
    (intBytes width l).length = l.length * width := by
  have hsize : ∀ x ∈ l.map (encodeInt width), x.length = width := by simp
  rw [intBytes, length_flatten_of_length hsize, List.length_map]

theorem readInts_append {width : ℕ} {l : List ℤ} (hfits : ∀ z ∈ l, Fits width z)
    {front : Bytes} {offset : ℕ} (hfront : front.length = offset) (back : Bytes) :
    readInts width l.length offset (front ++ (intBytes width l ++ back)) = .ok l := by
  have hsize : ∀ x ∈ l.map (encodeInt width), x.length = width := by simp
  have hread := npFrombuffer_append hsize hfront back
  rw [List.length_map] at hread
  rw [readInts, intBytes, hread]
  exact congrArg Except.ok (map_decodeInt hfits)

theorem unpack_encode {width n : ℕ} (h : n < 256 ^ width) :
    unpack width (encode width n) = .ok n := by
  rw [unpack, if_pos (length_encode width n), decode_encode_of_lt h]

variable {lengths pointers documents modes : List ℤ} {tail : Bytes} {multimodal : Bool}

/-- The fields of an index file in the order of the writer. -/
def layout (dtype : DType) (lengths pointers documents : List ℤ) (tail : Bytes) : Bytes :=
  indexHeader ++ (encode 8 1 ++ (encode 1 dtype.code ++ (encode 8 lengths.length ++
    (encode 8 documents.length ++ (intBytes 4 lengths ++ (intBytes 8 pointers ++
      (intBytes 8 documents ++ tail)))))))

theorem exists_front (lengths pointers documents : List ℤ) (tail : Bytes) :
    ∃ front, layout dtype lengths pointers documents tail =
      front ++ (intBytes 4 lengths ++ (intBytes 8 pointers ++ (intBytes 8 documents ++ tail))) ∧
      front.length = 34 := by
  refine ⟨indexHeader ++ (encode 8 1 ++ (encode 1 dtype.code ++ (encode 8 lengths.length ++
    encode 8 documents.length))), ?_, ?_⟩
  · simp only [layout, List.append_assoc]
  · simp only [List.length_append, length_encode]
    rfl

/-- The index read from its fields. -/
theorem readIndex_layout (texts : IndexTexts) (hlengths : ∀ z ∈ lengths, Fits 4 z)
    (hpointers : ∀ z ∈ pointers, Fits 8 z) (hdocuments : ∀ z ∈ documents, Fits 8 z)
    (hcount : lengths.length < 256 ^ 8) (hdocumentCount : documents.length < 256 ^ 8)
    (hlength : pointers.length = lengths.length)
    (hmodes : multimodal = true → tail = intBytes 1 modes ∧ (∀ z ∈ modes, Fits 1 z) ∧
      modes.length = lengths.length) :
    readIndex texts multimodal (layout dtype lengths pointers documents tail) =
      match documents.getLast? with
      | none => .error texts.noDocuments
      | some last =>
        if last ≠ lengths.length then .error texts.badBoundaries
        else .ok ⟨dtype, lengths, pointers, documents, if multimodal then some modes else none⟩ := by
  obtain ⟨front, hlayout, hfront⟩ := exists_front lengths pointers documents tail
  have hlengthsRead : readInts 4 lengths.length 34
      (layout dtype lengths pointers documents tail) = .ok lengths := by
    rw [hlayout]
    exact readInts_append hlengths hfront _
  have hpointersRead : readInts 8 lengths.length (34 + lengths.length * 4)
      (layout dtype lengths pointers documents tail) = .ok pointers := by
    rw [hlayout, ← hlength, ← List.append_assoc]
    exact readInts_append hpointers (by rw [List.length_append, hfront, length_intBytes, hlength]) _
  have hdocumentsRead : readInts 8 documents.length (34 + lengths.length * 4 + pointers.length * 8)
      (layout dtype lengths pointers documents tail) = .ok documents := by
    rw [hlayout, ← List.append_assoc, ← List.append_assoc]
    refine readInts_append hdocuments ?_ _
    rw [List.length_append, List.length_append, hfront, length_intBytes, length_intBytes]
  have hmodesRead : multimodal = true → readInts 1 lengths.length
      (34 + lengths.length * 4 + pointers.length * 8 + documents.length * 8)
      (layout dtype lengths pointers documents tail) = .ok modes := by
    intro hm
    obtain ⟨rfl, hfits, hcount⟩ := hmodes hm
    rw [hlayout, ← hcount, ← List.append_assoc, ← List.append_assoc, ← List.append_assoc,
      ← List.append_nil (intBytes 1 modes)]
    refine readInts_append hfits ?_ _
    rw [List.length_append, List.length_append, List.length_append, hfront, length_intBytes,
      length_intBytes, length_intBytes, hcount]
  generalize hfile : layout dtype lengths pointers documents tail = file at *
  unfold readIndex
  rw [← hfile]
  simp only [layout, List.take_left' (show indexHeader.length = 9 from rfl),
    List.drop_left' (show indexHeader.length = 9 from rfl), List.take_left' (length_encode _ _),
    List.drop_left' (length_encode _ _), unpack_encode hcount, unpack_encode hdocumentCount,
    unpack_encode dtype.code_lt, unpack_encode (show 1 < 256 ^ 8 by norm_num)]
  rw [← layout, hfile]
  simp only [bind, Except.bind, ne_eq, not_true_eq_false, if_false, DType.ofCode_code,
    hlengthsRead, hpointersRead, hdocumentsRead]
  cases multimodal with
  | false => rfl
  | true =>
    rw [if_pos rfl, hmodesRead rfl]
    rfl

end Layout

/-! ### Contents -/

theorem sum_map_length {α : Type*} (parts : List (List α)) :
    (parts.map fun x => (x.length : ℤ)).sum = (parts.flatten.length : ℤ) := by
  induction parts with
  | nil => rfl
  | cons part parts ih =>
    rw [List.map_cons, List.sum_cons, ih, List.flatten_cons, List.length_append, Nat.cast_add]

/-- An element of a type, as its bytes. -/
abbrev Element (dtype : DType) := {bytes : Bytes // bytes.length = dtype.itemsize}

structure Sequence (dtype : DType) where
  tokens : List (Element dtype)
  mode : ℤ

/-- The array that holds a sequence. -/
def Sequence.array (s : Sequence dtype) : List Bytes := s.tokens.map Subtype.val

/-- Sequences with the ends of the documents. -/
structure Contents (dtype : DType) where
  sequences : List (Sequence dtype)
  ends : List ℤ

namespace Contents

variable (c : Contents dtype)

def documents : List ℤ := 0 :: c.ends

def lengths : List ℤ := c.sequences.map fun s => (s.tokens.length : ℤ)

def modes : List ℤ := c.sequences.map Sequence.mode

/-- All elements. -/
def array : List Bytes := (c.sequences.map Sequence.array).flatten

/-- The last sequence ends a document. -/
def Closed : Prop := c.documents.getLast? = some (c.sequences.length : ℤ)

instance : Decidable c.Closed := inferInstanceAs (Decidable (_ = _))

/-- What an index of the contents says. -/
def index (multimodal : Bool) : Index where
  dtype
  sequenceLengths := c.lengths
  sequencePointers := pointersFrom dtype.itemsize 0 c.lengths
  documentIndices := c.documents
  sequenceModes := if multimodal then some c.modes else none

theorem nonneg_of_mem_lengths {c : Contents dtype} {n : ℤ} (h : n ∈ c.lengths) : 0 ≤ n := by
  obtain ⟨s, _, rfl⟩ := List.mem_map.1 h
  exact Int.natCast_nonneg _

theorem length_of_mem_array {c : Contents dtype} {bytes : Bytes} (h : bytes ∈ c.array) :
    bytes.length = dtype.itemsize := by
  obtain ⟨_, hs, hbytes⟩ := List.mem_flatten.1 h
  obtain ⟨s, _, rfl⟩ := List.mem_map.1 hs
  obtain ⟨token, _, rfl⟩ := List.mem_map.1 hbytes
  exact token.2

theorem sum_lengths (sequences : List (Sequence dtype)) :
    (sequences.map fun s => (s.tokens.length : ℤ)).sum =
      ((sequences.map Sequence.array).flatten.length : ℤ) := by
  rw [← sum_map_length, List.map_map]
  congr 2
  exact funext fun s => congrArg Nat.cast (List.length_map _).symm

end Contents

/-- Files that hold contents; the modes can be left unread. -/
def Encodes (multimodal : Bool) (c : Contents dtype) (idx bin : Bytes) : Prop :=
  bin = c.array.flatten ∧ ∀ (texts : IndexTexts) (m : Bool), (m = true → multimodal = true) →
    readIndex texts m idx = .ok (c.index m)

/-- An operation of the builder, with what it is to add. -/
inductive Op (dtype : DType)
  | item (s : Sequence dtype)
  | document (sequences : List (Sequence dtype)) (withModes : Bool)
  | endDocument
  | index (c : Contents dtype) (idxPath : String) (idx bin : Bytes)

namespace Op

def apply (b : Builder) : Op dtype → Except String Builder
  | item s => .ok (b.addItem s.array s.mode)
  | document sequences withModes =>
    b.addDocument (sequences.map Sequence.array).flatten
      (sequences.map fun s => (s.tokens.length : ℤ))
      (if withModes then some (sequences.map Sequence.mode) else none)
  | endDocument => .ok b.endDocument
  | index _ idxPath idx bin => b.addIndex idxPath idx bin

/-- The contents after an operation. -/
def contents (c : Contents dtype) : Op dtype → Contents dtype
  | item s => ⟨c.sequences ++ [s], c.ends⟩
  | document sequences _ => ⟨c.sequences ++ sequences,
      c.ends ++ [((c.sequences ++ sequences).length : ℤ)]⟩
  | endDocument => ⟨c.sequences, c.ends ++ [(c.sequences.length : ℤ)]⟩
  | index c' _ _ _ => ⟨c.sequences ++ c'.sequences,
      c.ends ++ c'.ends.map fun i => (c.sequences.length : ℤ) + i⟩

/-- A merged index comes with the files of its contents. -/
def Stored (multimodal : Bool) : Op dtype → Prop
  | index c _ idx bin => Encodes multimodal c idx bin
  | _ => True

/-- No index is merged. -/
def Plain : Op dtype → Prop
  | index _ _ _ _ => False
  | _ => True

end Op

/-! ### The builder -/

/-- A builder that has added contents. -/
structure Holds (b : Builder) (c : Contents dtype) (multimodal : Bool) : Prop where
  dtype_eq : b.dtype = dtype
  dataFile_eq : b.dataFile = c.array.flatten
  lengths_eq : b.sequenceLengths.map Scalar.val = c.lengths
  documents_eq : b.documentIndices = c.documents
  modes_eq : b.sequenceModes = if multimodal then some c.modes else none

/-- All lengths are integers of Python. -/
def AllPython (b : Builder) : Prop :=
  ∃ lengths : List ℤ, b.sequenceLengths = lengths.map Scalar.python

section Run

variable {b b' : Builder} {c : Contents dtype} {multimodal : Bool} {op : Op dtype}

theorem holds_new (dtype : DType) (multimodal : Bool) :
    Holds (Builder.new dtype multimodal) ⟨([] : List (Sequence dtype)), []⟩ multimodal :=
  ⟨rfl, rfl, rfl, rfl, rfl⟩

theorem Holds.length_eq (h : Holds b c multimodal) :
    b.sequenceLengths.length = c.sequences.length := by
  have hlength := congrArg List.length h.lengths_eq
  rwa [List.length_map, Contents.lengths, List.length_map] at hlength

/-- Sequences behind the contents. -/
theorem array_append (c : Contents dtype) (sequences : List (Sequence dtype)) (ends : List ℤ) :
    (Contents.mk (c.sequences ++ sequences) ends).array =
      c.array ++ (sequences.map Sequence.array).flatten := by
  rw [Contents.array, List.map_append, List.flatten_append, Contents.array]

theorem extendModes_ite (multimodal : Bool) (own modes : List ℤ) (text : String) :
    Builder.extendModes (if multimodal then some own else none) (some modes) text =
      .ok (if multimodal then some (own ++ modes) else none) := by
  cases multimodal <;> rfl

theorem Op.holds (h : Holds b c multimodal) (hstored : op.Stored multimodal)
    (happly : op.apply b = .ok b') : Holds b' (op.contents c) multimodal := by
  obtain ⟨hdtype, hdata, hlengths, hdocuments, hmodes⟩ := h
  have hlength := Holds.length_eq ⟨hdtype, hdata, hlengths, hdocuments, hmodes⟩
  cases op with
  | item s =>
    obtain rfl := Except.ok.inj happly
    refine ⟨hdtype, ?_, ?_, hdocuments, ?_⟩
    · simp [Builder.addItem, Op.contents, array_append, hdata]
    · simp [Builder.addItem, Op.contents, Contents.lengths, hlengths, Sequence.array]
    · cases multimodal <;> simp [Builder.addItem, Op.contents, Contents.modes, hmodes]
  | document sequences withModes =>
    obtain ⟨modes, hm, hb⟩ := ExceptList.bind_eq_ok.1 (show b.addDocument _ _ _ = _ from happly)
    obtain rfl := Except.ok.inj hb
    refine ⟨hdtype, ?_, ?_, ?_, ?_⟩
    · simp [Op.contents, array_append, hdata]
    · simp [Op.contents, Contents.lengths, hlengths]
    · simp [Op.contents, Contents.documents, hdocuments, hlength]
    · rw [hmodes] at hm
      cases withModes with
      | false =>
        cases multimodal with
        | false => exact (Except.ok.inj hm).symm
        | true => cases hm
      | true =>
        rw [if_pos rfl, extendModes_ite] at hm
        obtain rfl := Except.ok.inj hm
        simp [Op.contents, Contents.modes]
  | endDocument =>
    obtain rfl := Except.ok.inj happly
    refine ⟨hdtype, hdata, hlengths, ?_, hmodes⟩
    simp [Builder.endDocument, Op.contents, Contents.documents, hdocuments, hlength]
  | index c' idxPath idx bin =>
    obtain ⟨rfl, hread⟩ := hstored
    have hsome : b.sequenceModes.isSome = multimodal := by
      rw [hmodes]
      cases multimodal <;> rfl
    rw [Op.apply, Builder.addIndex, hsome, hread (ioTexts idxPath) multimodal id, hmodes] at happly
    obtain ⟨_, hindex, happly⟩ := ExceptList.bind_eq_ok.1 happly
    obtain rfl := Except.ok.inj hindex
    simp only [Contents.index, hdtype, ne_eq, not_true_eq_false, if_false] at happly
    obtain ⟨modes, hm, hb⟩ := ExceptList.bind_eq_ok.1 happly
    obtain rfl := Except.ok.inj hb
    refine ⟨rfl, ?_, ?_, ?_, ?_⟩
    · simp [Op.contents, hdata, Contents.array]
    · simp [Op.contents, Contents.lengths, hlengths, Function.comp_def]
    · simp [Op.contents, Contents.documents, hdocuments, hlength]
    · cases multimodal with
      | false => exact (Except.ok.inj hm).symm
      | true =>
        obtain rfl := Except.ok.inj hm
        simp [Op.contents, Contents.modes]

theorem allPython_of_apply (h : AllPython b) (hplain : op.Plain) (happly : op.apply b = .ok b') :
    AllPython b' := by
  obtain ⟨lengths, hlengths⟩ := h
  cases op with
  | item s =>
    obtain rfl := Except.ok.inj happly
    exact ⟨lengths ++ [(s.array.length : ℤ)], by simp [Builder.addItem, hlengths]⟩
  | document sequences withModes =>
    obtain ⟨modes, _, hb⟩ := ExceptList.bind_eq_ok.1 (show b.addDocument _ _ _ = _ from happly)
    obtain rfl := Except.ok.inj hb
    exact ⟨lengths ++ sequences.map fun s => (s.tokens.length : ℤ), by simp [hlengths]⟩
  | endDocument =>
    obtain rfl := Except.ok.inj happly
    exact ⟨lengths, hlengths⟩
  | index c idxPath idx bin => exact hplain.elim

/-- A run of operations. -/
theorem holds_of_run {ops : List (Op dtype)} (h : Holds b c multimodal)
    (hstored : ∀ op ∈ ops, op.Stored multimodal)
    (hrun : ops.foldlM (fun b op => op.apply b) b = .ok b') :
    Holds b' (ops.foldl Op.contents c) multimodal ∧
      (AllPython b → (∀ op ∈ ops, op.Plain) → AllPython b') := by
  induction ops generalizing b c with
  | nil =>
    obtain rfl := Except.ok.inj hrun
    exact ⟨h, fun hpython _ => hpython⟩
  | cons op ops ih =>
    rw [List.forall_mem_cons] at hstored
    rw [List.foldlM_cons] at hrun
    obtain ⟨next, happly, hrun⟩ := ExceptList.bind_eq_ok.1 hrun
    obtain ⟨hholds, hpython⟩ := ih (op.holds h hstored.1 happly) hstored.2 hrun
    refine ⟨hholds, fun hb hplain => ?_⟩
    rw [List.forall_mem_cons] at hplain
    exact hpython (allPython_of_apply hb hplain.1 happly) hplain.2

/-- The pointers of a builder, where no NumPy scalar wraps. -/
theorem sequencePointers_of_holds (h : Holds b c multimodal)
    (hsize : AllPython b ∨ b.dataFile.length < 2 ^ 31) :
    sequencePointers dtype.itemsize (.python 0) b.sequenceLengths =
      .ok (pointersFrom dtype.itemsize 0 c.lengths) := by
  rcases hsize with ⟨lengths, hlengths⟩ | hsize
  · have hvals := h.lengths_eq
    rw [hlengths, List.map_map] at hvals
    rw [hlengths, sequencePointers_python, ← hvals]
    congr 2
    exact (List.map_id lengths).symm
  · rw [← h.lengths_eq]
    refine sequencePointers_of_lt le_rfl (fun length hlength => ?_) ?_
    · exact Contents.nonneg_of_mem_lengths (h.lengths_eq ▸ List.mem_map_of_mem hlength)
    · rw [h.lengths_eq, Scalar.val_python, zero_add, Contents.lengths, Contents.sum_lengths]
      rw [h.dataFile_eq, length_flatten_of_length fun _ => Contents.length_of_mem_array,
        Contents.array] at hsize
      exact_mod_cast hsize

theorem pack_eq_ok {width n : ℕ} {bytes : Bytes} :
    pack width n = .ok bytes ↔ n < 256 ^ width ∧ bytes = encode width n := by
  rw [pack]
  split_ifs with h
  · exact ⟨fun heq => ⟨h, (Except.ok.inj heq).symm⟩, fun heq => congrArg _ heq.2.symm⟩
  · exact iff_of_false (fun heq => by cases heq) fun heq => h heq.1

/-- The index that a builder writes. -/
theorem readIndex_finalize (h : Holds b c multimodal)
    (hsize : AllPython b ∨ b.dataFile.length < 2 ^ 31) {idx : Bytes} (hfinal : b.finalize = .ok idx)
    (texts : IndexTexts) {m : Bool} (hm : m = true → multimodal = true) :
    readIndex texts m idx =
      if c.Closed then .ok (c.index m) else .error texts.badBoundaries := by
  rw [Builder.finalize, writeIndex, h.dtype_eq, sequencePointers_of_holds h hsize, h.length_eq,
    h.lengths_eq, h.documents_eq, h.modes_eq] at hfinal
  obtain ⟨_, hpointers, hfinal⟩ := ExceptList.bind_eq_ok.1 hfinal
  obtain rfl := Except.ok.inj hpointers
  obtain ⟨_, hpack, hfinal⟩ := ExceptList.bind_eq_ok.1 hfinal
  obtain ⟨hcount, rfl⟩ := pack_eq_ok.1 hpack
  obtain ⟨_, hpack, hfinal⟩ := ExceptList.bind_eq_ok.1 hfinal
  obtain ⟨hdocumentCount, rfl⟩ := pack_eq_ok.1 hpack
  obtain ⟨_, harray, hfinal⟩ := ExceptList.bind_eq_ok.1 hfinal
  obtain ⟨hlengths, rfl⟩ := arrayBytes_eq_ok.1 harray
  obtain ⟨_, harray, hfinal⟩ := ExceptList.bind_eq_ok.1 hfinal
  obtain ⟨hpointers, rfl⟩ := arrayBytes_eq_ok.1 harray
  obtain ⟨_, harray, hfinal⟩ := ExceptList.bind_eq_ok.1 hfinal
  obtain ⟨hdocuments, rfl⟩ := arrayBytes_eq_ok.1 harray
  obtain ⟨tail, htail, hfinal⟩ := ExceptList.bind_eq_ok.1 hfinal
  obtain rfl := Except.ok.inj hfinal
  have hlength : c.sequences.length = c.lengths.length := (List.length_map _).symm
  rw [hlength] at hcount ⊢
  have hmodes : m = true → tail = intBytes 1 c.modes ∧ (∀ z ∈ c.modes, Fits 1 z) ∧
      c.modes.length = c.lengths.length := by
    intro hm'
    rw [hm hm', if_pos rfl, modesBytes] at htail
    obtain ⟨hfits, rfl⟩ := arrayBytes_eq_ok.1 htail
    exact ⟨rfl, hfits, by rw [Contents.modes, List.length_map, hlength]⟩
  refine (readIndex_layout texts hlengths hpointers hdocuments hcount
    hdocumentCount (length_pointersFrom _ _ _) hmodes).trans ?_
  have hclosed : c.Closed ↔ c.documents.getLast? = some (c.lengths.length : ℤ) := by
    rw [← hlength]
    rfl
  rw [Contents.documents, List.getLast?_cons] at hclosed ⊢
  simp only [hclosed, Option.some.injEq, ne_eq, ite_not]
  rfl

/-- The files of a builder after any operations. -/
theorem run_encodes {ops : List (Op dtype)} {idx : Bytes}
    (hstored : ∀ op ∈ ops, op.Stored multimodal)
    (hrun : ops.foldlM (fun b op => op.apply b) (Builder.new dtype multimodal) = .ok b)
    (hfinal : b.finalize = .ok idx)
    (hsize : (∀ op ∈ ops, op.Plain) ∨ b.dataFile.length < 2 ^ 31) :
    b.dataFile = (ops.foldl Op.contents ⟨[], []⟩).array.flatten ∧
      ∀ (texts : IndexTexts) (m : Bool), (m = true → multimodal = true) →
        readIndex texts m idx =
          if (ops.foldl Op.contents ⟨[], []⟩).Closed then
            .ok ((ops.foldl Op.contents ⟨[], []⟩).index m)
          else .error texts.badBoundaries := by
  obtain ⟨hholds, hpython⟩ := holds_of_run (holds_new dtype multimodal) hstored hrun
  refine ⟨hholds.dataFile_eq, fun texts m hm => ?_⟩
  exact readIndex_finalize hholds (hsize.imp_left (hpython ⟨[], rfl⟩)) hfinal texts hm

end Run

/-! A shard of one sequence, and a merge of it in front of a document. -/

def shard : Contents .uint16 := ⟨[⟨[⟨[1, 0], rfl⟩, ⟨[2, 0], rfl⟩], 4⟩], [1]⟩

def shardIdx : Bytes :=
  indexHeader ++ [1, 0, 0, 0, 0, 0, 0, 0, 8, 1, 0, 0, 0, 0, 0, 0, 0, 2, 0, 0, 0, 0, 0, 0, 0,
    2, 0, 0, 0, 0, 0, 0, 0, 0, 0, 0, 0, 0, 0, 0, 0, 0, 0, 0, 0, 1, 0, 0, 0, 0, 0, 0, 0, 4]

theorem encodes_shard : Encodes true shard shardIdx [1, 0, 2, 0] := by
  have hholds : Holds ⟨.uint16, [1, 0, 2, 0], [.python 2], [0, 1], some [4]⟩ shard true :=
    ⟨rfl, rfl, rfl, rfl, rfl⟩
  refine ⟨rfl, fun texts m hm => ?_⟩
  exact (readIndex_finalize hholds (.inl ⟨[2], rfl⟩) rfl texts hm).trans (if_pos (by decide))

def mergeOps : List (Op .uint16) :=
  [.index shard "shard.idx" shardIdx [1, 0, 2, 0],
    .document [⟨[⟨[7, 1], rfl⟩], -1⟩, ⟨[], 2⟩] true]

def merged : Builder :=
  ⟨.uint16, [1, 0, 2, 0, 7, 1], [.int32 2, .python 1, .python 0], [0, 1, 3], some [4, -1, 2]⟩

theorem run_encodes_merge :
    ∃ idx, mergeOps.foldlM (fun b op => op.apply b) (Builder.new .uint16 true) = .ok merged ∧
      merged.finalize = .ok idx ∧ readIndex (ioTexts "merged.idx") true idx =
        .ok ⟨.uint16, [2, 1, 0], [0, 4, 6], [0, 1, 3], some [4, -1, 2]⟩ := by
  have hstored : ∀ op ∈ mergeOps, op.Stored true := by
    rw [mergeOps, List.forall_mem_cons, List.forall_mem_singleton]
    exact ⟨encodes_shard, trivial⟩
  have hrun : mergeOps.foldlM (fun b op => op.apply b) (Builder.new .uint16 true) =
      .ok merged := by
    have hread : readIndex (ioTexts "shard.idx") (Builder.new .uint16 true).sequenceModes.isSome
        shardIdx = .ok (shard.index true) := encodes_shard.2 _ true id
    rw [mergeOps, List.foldlM_cons, Op.apply, Builder.addIndex, hread]
    rfl
  have hok : merged.finalize.toBool = true := by decide +kernel
  obtain ⟨idx, hfinal⟩ : ∃ idx, merged.finalize = .ok idx := by
    cases hfinal : merged.finalize with
    | error text => rw [hfinal] at hok; cases hok
    | ok idx => exact ⟨idx, rfl⟩
  refine ⟨idx, hrun, hfinal, ?_⟩
  exact (run_encodes hstored hrun hfinal (.inr (by decide))).2 (ioTexts "merged.idx") true id

/-! ### Splitting -/

section Split

variable {α : Type*} {parts : List (List α)}

theorem getLast?_cumsum (total : ℤ) {lengths : List ℤ} (hne : lengths ≠ []) :
    (cumsum total lengths).getLast? = some (total + lengths.sum) := by
  induction lengths generalizing total with
  | nil => exact absurd rfl hne
  | cons length lengths ih =>
    rw [cumsum, List.sum_cons, ← add_assoc]
    cases lengths with
    | nil => simp [cumsum]
    | cons next lengths =>
      rw [List.getLast?_cons, ih _ (List.cons_ne_nil _ _), Option.getD_some]

theorem sliceIndices_natCast {start stop length : ℕ} (hle : start ≤ stop) (hstop : stop ≤ length) :
    sliceIndices (some (start : ℤ)) (some (stop : ℤ)) length = (start, stop) := by
  simp only [sliceIndices, sliceIndices.clamp, Option.map_some, Option.getD_some]
  rw [if_neg (by omega), if_neg (by omega), Int.toNat_natCast, Int.toNat_natCast,
    min_eq_left (hle.trans hstop), min_eq_left hstop]

/-- The segment between two points. -/
def segment (array : List α) (start stop : ℤ) : List α :=
  let bounds := sliceIndices (some start) (some stop) array.length
  slice array bounds.1 bounds.2

theorem segment_append (front part back : List α) :
    segment (front ++ (part ++ back)) front.length (front.length + part.length : ℕ) = part := by
  rw [segment, sliceIndices_natCast (by omega)
    (by rw [List.length_append, List.length_append]; omega), slice, ← List.append_assoc,
    List.take_left' (List.length_append), List.drop_left' rfl]

theorem zipWith_segment (front : List α) (parts : List (List α)) :
    List.zipWith (segment (front ++ parts.flatten))
      (((front.length : ℤ) :: cumsum front.length (parts.map fun x => (x.length : ℤ))).dropLast)
      (cumsum front.length (parts.map fun x => (x.length : ℤ))) = parts := by
  induction parts generalizing front with
  | nil => rfl
  | cons part parts ih =>
    have hrest := ih (front ++ part)
    rw [List.length_append, List.append_assoc, Nat.cast_add] at hrest
    rw [List.map_cons, cumsum, List.dropLast_cons_cons, List.zipWith_cons_cons, List.flatten_cons,
      hrest, ← Nat.cast_add, segment_append]

theorem npSplit_flatten (hne : parts ≠ []) :
    npSplit parts.flatten (cumsum 0 (parts.map fun x => (x.length : ℤ))).dropLast = parts := by
  have hne' : (parts.map fun x => (x.length : ℤ)) ≠ [] := by simpa using hne
  have hlast := getLast?_cumsum 0 hne'
  have hsum : (0 : ℤ) + (parts.map fun x => (x.length : ℤ)).sum = parts.flatten.length := by
    rw [zero_add, sum_map_length]
  have hcumsum : cumsum 0 (parts.map fun x => (x.length : ℤ)) ≠ [] := by
    intro h
    rw [h] at hlast
    cases hlast
  have hsegments := zipWith_segment [] parts
  rw [List.length_nil, Nat.cast_zero, List.nil_append,
    List.dropLast_cons_of_ne_nil hcumsum] at hsegments
  rw [npSplit, ← hsum, ← Option.some.inj ((List.getLast?_eq_some_getLast hcumsum).symm.trans hlast),
    List.dropLast_append_getLast]
  exact hsegments

end Split

/-! ### The readers -/

section Read

theorem readBin_flatten {array : List Bytes} {itemsize : ℕ}
    (hsize : ∀ x ∈ array, x.length = itemsize) (start count : ℕ)
    (h : start + count ≤ array.length) (access : Access) :
    readBin access itemsize count ((start * itemsize : ℕ) : ℤ) array.flatten =
      .ok ((array.drop start).take count) := by
  have hlength := length_flatten_of_length hsize
  have hle : start * itemsize + count * itemsize ≤ array.length * itemsize := by
    rw [← Nat.add_mul]
    exact Nat.mul_le_mul_right itemsize h
  cases access with
  | mmap =>
    rw [readBin, npFrombuffer, if_neg (by omega), if_neg (by omega), Int.toNat_natCast,
      Int.toNat_natCast, frombuffer_flatten hsize h]
  | file =>
    have hsize' : ∀ x ∈ array.drop start, x.length = itemsize := fun x hx =>
      hsize x (List.mem_of_mem_drop hx)
    have hcount : count ≤ (array.drop start).length := by
      rw [List.length_drop]
      omega
    have htake : (((array.drop start).take count).flatten).length = count * itemsize := by
      rw [length_flatten_of_length fun x hx => hsize' x (List.mem_of_mem_take hx),
        List.length_take, min_eq_left hcount]
    rw [readBin, if_neg (by omega), if_neg (by omega), Int.toNat_natCast, Int.toNat_natCast,
      drop_flatten hsize (by omega), take_flatten hsize' hcount]
    show (if _ then _ else Except.ok (items itemsize count _)) = _
    rw [if_neg (not_not.2 htake), items_take (fun x hx => hsize' x (List.mem_of_mem_take hx))
      (by rw [List.length_take, min_eq_left hcount]), List.take_take, min_self]

/-- An index counted from the start, or a negative one counted from the end. -/
def Addresses (n : ℕ) (i : ℤ) (k : ℕ) : Prop := k < n ∧ (i = k ∨ i + n = k)

theorem atIndex_of_addresses {array : List ℤ} {n k : ℕ} {i z : ℤ} (hn : array.length = n)
    (h : Addresses n i k) (hz : array[k]? = some z) : atIndex array i = .ok z := by
  obtain ⟨hk, hi⟩ := h
  have hj : (if i < 0 then i + array.length else i) = (k : ℤ) := by
    rw [hn]
    split_ifs <;> omega
  rw [atIndex]
  simp only [hj]
  rw [if_neg (by omega), Int.toNat_natCast, hz]

variable {c : Contents dtype} {multimodal : Bool} {access : Access} {i : ℤ} {k : ℕ}
  {s : Sequence dtype}

/-- The elements in front of a sequence. -/
def Contents.before (c : Contents dtype) (k : ℕ) : ℕ :=
  ((c.sequences.take k).map Sequence.array).flatten.length

theorem atIndex_pointers (multimodal : Bool) (h : Addresses c.sequences.length i k) :
    atIndex (c.index multimodal).sequencePointers i =
      .ok ((c.before k * dtype.itemsize : ℕ) : ℤ) := by
  have hlength : c.lengths.length = c.sequences.length := List.length_map _
  refine atIndex_of_addresses ((length_pointersFrom _ _ _).trans hlength) h ?_
  refine (getElem?_pointersFrom (by rw [hlength]; exact h.1)).trans ?_
  rw [Contents.lengths, ← List.map_take, Contents.sum_lengths, zero_add, Nat.cast_mul]
  rfl

theorem atIndex_lengths (h : Addresses c.sequences.length i k) (hs : c.sequences[k]? = some s) :
    atIndex (c.index multimodal).sequenceLengths i = .ok (s.tokens.length : ℤ) := by
  refine atIndex_of_addresses (List.length_map _) h ?_
  show c.lengths[k]? = _
  rw [Contents.lengths, List.getElem?_map, hs]
  rfl

theorem mode_eq (h : Addresses c.sequences.length i k) (hs : c.sequences[k]? = some s) :
    IndexedDataset.mode ⟨c.index multimodal, access, c.array.flatten⟩ i =
      .ok (if multimodal then some s.mode else none) := by
  cases multimodal with
  | false => rfl
  | true =>
    have hmode : atIndex c.modes i = .ok s.mode := by
      refine atIndex_of_addresses (List.length_map _) h ?_
      rw [Contents.modes, List.getElem?_map, hs]
      rfl
    show some <$> atIndex c.modes i = _
    rw [hmode]
    rfl

/-- A part of a sequence among all elements. -/
theorem array_part (hs : c.sequences[k]? = some s) {offset length : ℕ}
    (hle : offset + length ≤ s.tokens.length) :
    c.before k + offset + length ≤ c.array.length ∧
      (c.array.drop (c.before k + offset)).take length = (s.array.drop offset).take length := by
  obtain ⟨hk, rfl⟩ := List.getElem?_eq_some_iff.1 hs
  have harray : c.array = ((c.sequences.take k).map Sequence.array).flatten ++
      (c.sequences[k].array ++ ((c.sequences.drop (k + 1)).map Sequence.array).flatten) := by
    rw [Contents.array]
    conv_lhs => rw [← List.take_append_drop k c.sequences, List.drop_eq_getElem_cons hk]
    rw [List.map_append, List.flatten_append, List.map_cons, List.flatten_cons]
  have hlength : c.sequences[k].array.length = c.sequences[k].tokens.length := List.length_map _
  constructor
  · rw [harray, List.length_append, List.length_append, hlength, Contents.before]
    omega
  · rw [harray, ← List.drop_drop, Contents.before, List.drop_left' rfl,
      List.drop_append_of_le_length (by omega),
      List.take_append_of_le_length (by rw [List.length_drop]; omega)]

theorem readBin_part (access : Access) (hs : c.sequences[k]? = some s) (offset length : ℕ)
    (hle : offset + length ≤ s.tokens.length) :
    readBin access dtype.itemsize length
        ((c.before k * dtype.itemsize : ℕ) + offset * dtype.itemsize) c.array.flatten =
      .ok ((s.array.drop offset).take length) := by
  obtain ⟨hbound, hpart⟩ := array_part hs hle
  rw [← hpart, ← readBin_flatten (fun _ => Contents.length_of_mem_array) _ _ hbound access]
  congr 1
  push_cast
  ring

theorem take_array (s : Sequence dtype) : s.array.take s.tokens.length = s.array :=
  List.take_of_length_le (List.length_map _).le

theorem readBin_sequence (access : Access) (hs : c.sequences[k]? = some s) :
    readBin access dtype.itemsize s.tokens.length ((c.before k * dtype.itemsize : ℕ) : ℤ)
      c.array.flatten = .ok s.array := by
  have hread := readBin_part access hs 0 s.tokens.length (by omega)
  rwa [Nat.cast_zero, zero_mul, add_zero, List.drop_zero, take_array] at hread

theorem getD_length {offset : ℕ} {length : Option ℕ} {n : ℕ}
    (hle : offset + length.getD (n - offset) ≤ n) :
    (length.map (Nat.cast : ℕ → ℤ)).getD ((n : ℤ) - offset) =
      ((length.getD (n - offset) : ℕ) : ℤ) := by
  cases length with
  | none =>
    simp only [Option.map_none, Option.getD_none] at hle ⊢
    omega
  | some length => rfl

/-- Part of a sequence, the rest of it without a length. -/
theorem IndexedDataset.get_eq (h : Addresses c.sequences.length i k)
    (hs : c.sequences[k]? = some s) {offset : ℕ} {length : Option ℕ}
    (hle : offset + length.getD (s.tokens.length - offset) ≤ s.tokens.length) :
    (IndexedDataset.mk (c.index multimodal) access c.array.flatten).get i offset
        (length.map Nat.cast) =
      .ok ((s.array.drop offset).take (length.getD (s.tokens.length - offset)),
        if multimodal then some s.mode else none) := by
  rw [IndexedDataset.get, atIndex_pointers _ h, atIndex_lengths h hs, mode_eq h hs]
  show (readBin access dtype.itemsize _ (_ + _ * (dtype.itemsize : ℤ)) c.array.flatten >>=
    fun seq => pure (seq, _)) = _
  rw [getD_length hle, readBin_part access hs _ _ hle]
  rfl

theorem IndexedDataset.getItem_eq (h : Addresses c.sequences.length i k)
    (hs : c.sequences[k]? = some s) :
    (IndexedDataset.mk (c.index multimodal) access c.array.flatten).getItem i =
      .ok (s.array, if multimodal then some s.mode else none) := by
  rw [IndexedDataset.getItem, atIndex_pointers _ h, atIndex_lengths h hs, mode_eq h hs]
  show (readBin access dtype.itemsize _ _ c.array.flatten >>= fun seq => pure (seq, _)) = _
  rw [readBin_sequence access hs]
  rfl

theorem IndexedDataReader.get_eq (access : Access) (h : Addresses c.sequences.length i k)
    (hs : c.sequences[k]? = some s) (offset : ℕ) (length : Option ℕ)
    (hle : offset + length.getD (s.tokens.length - offset) ≤ s.tokens.length) :
    (IndexedDataReader.mk (c.index false) access c.array.flatten).get i offset
        (length.map Nat.cast) =
      .ok ((s.array.drop offset).take (length.getD (s.tokens.length - offset))) := by
  rw [IndexedDataReader.get, atIndex_pointers _ h, atIndex_lengths h hs]
  simp only [bind, Except.bind]
  rw [getD_length hle, if_neg (by omega)]
  exact readBin_part access hs _ _ hle

theorem IndexedDataReader.getItem_eq (h : Addresses c.sequences.length i k)
    (hs : c.sequences[k]? = some s) :
    (IndexedDataReader.mk (c.index false) access c.array.flatten).getItem i = .ok s.array := by
  cases access with
  | mmap =>
    rw [IndexedDataReader.getItem, atIndex_pointers _ h, atIndex_lengths h hs]
    exact readBin_sequence .mmap hs
  | file =>
    have hget := IndexedDataReader.get_eq .file h hs 0 none (by simp)
    rw [Option.getD_none, Nat.sub_zero, List.drop_zero, take_array] at hget
    exact hget

theorem sliceIndices_le (start stop : Option ℤ) (length : ℕ) :
    (sliceIndices start stop length).2 ≤ length := by
  rw [sliceIndices]
  cases stop with
  | none => exact le_rfl
  | some stop => exact min_le_right _ _

theorem slice_map {α β : Type*} (f : α → β) (l : List α) (a b : ℕ) :
    slice (l.map f) a b = (slice l a b).map f := by
  rw [slice, slice, List.map_drop, List.map_take]

/-- The sequences of a slice, read at once. -/
theorem readBin_slice {a b : ℕ} (hab : a ≤ b) :
    readBin access dtype.itemsize (slice c.lengths a b).sum
        ((c.before a * dtype.itemsize : ℕ) : ℤ) c.array.flatten =
      .ok ((slice c.sequences a b).map Sequence.array).flatten := by
  have harray : c.array = ((c.sequences.take a).map Sequence.array).flatten ++
      (((slice c.sequences a b).map Sequence.array).flatten ++
        ((c.sequences.drop b).map Sequence.array).flatten) := by
    rw [← List.flatten_append, ← List.flatten_append, ← List.map_append, ← List.map_append, slice,
      ← List.append_assoc, Contents.array]
    congr 2
    conv_lhs => rw [← List.take_append_drop b c.sequences, ← List.take_append_drop a
      (c.sequences.take b), List.take_take, min_eq_left hab]
  have hread := readBin_flatten (fun _ => Contents.length_of_mem_array (c := c))
    (c.before a) ((slice c.sequences a b).map Sequence.array).flatten.length
    (by rw [harray, List.length_append, List.length_append, Contents.before]; omega) access
  rw [Contents.lengths, slice_map, Contents.sum_lengths, hread, harray, Contents.before,
    List.drop_left' rfl, List.take_left' rfl]

/-- What a slice with sequences in it is split into. -/
theorem npSplit_slice {a b : ℕ} (hab : a < b) (hb : b ≤ c.sequences.length) :
    npSplit ((slice c.sequences a b).map Sequence.array).flatten
        (cumsum 0 (slice c.lengths a b)).dropLast = (slice c.sequences a b).map Sequence.array := by
  have hne : (slice c.sequences a b).map Sequence.array ≠ [] := by
    rw [ne_eq, List.map_eq_nil_iff, slice, List.drop_eq_nil_iff, List.length_take, min_eq_left hb]
    omega
  have hlengths : slice c.lengths a b =
      ((slice c.sequences a b).map Sequence.array).map fun x => (x.length : ℤ) := by
    rw [Contents.lengths, slice_map, List.map_map]
    exact List.map_congr_left fun s _ => congrArg Nat.cast (List.length_map _).symm
  rw [hlengths, npSplit_flatten hne]

section Slice

variable {start stop : Option ℤ} {a b : ℕ}

theorem le_of_bounds {n : ℕ} (hbounds : sliceIndices start stop n = (a, b)) : b ≤ n := by
  have hle := sliceIndices_le start stop n
  rwa [hbounds] at hle

theorem getLast?_slice (hab : a < b) (hb : b ≤ c.sequences.length) :
    (cumsum 0 (slice c.lengths a b)).getLast?.getD 0 = (slice c.lengths a b).sum := by
  rw [getLast?_cumsum, zero_add, Option.getD_some]
  rw [ne_eq, slice, List.drop_eq_nil_iff, List.length_take, Contents.lengths, List.length_map]
  omega

theorem IndexedDataset.getSlice_eq
    (hbounds : sliceIndices start stop c.sequences.length = (a, b)) (hab : a < b) :
    (IndexedDataset.mk (c.index multimodal) access c.array.flatten).getSlice start stop 1 =
      .ok ((slice c.sequences a b).map Sequence.array,
        if multimodal then some (slice c.modes a b) else none) := by
  have hb := le_of_bounds hbounds
  have hlength : (c.index multimodal).sequenceLengths.length = c.sequences.length :=
    List.length_map _
  have hpointer := atIndex_pointers multimodal (i := a) (k := a)
    ⟨hab.trans_le hb, .inl rfl⟩
  rw [IndexedDataset.getSlice]
  simp only [hlength, hbounds, hpointer, one_ne_zero, ne_eq, not_true_eq_false, if_false, bind,
    Except.bind]
  show (readBin access dtype.itemsize ((cumsum 0 (slice c.lengths a b)).getLast?.getD 0) _
    c.array.flatten >>= fun buffer => pure (npSplit buffer _, _)) = _
  rw [getLast?_slice hab hb, readBin_slice hab.le]
  show Except.ok (npSplit _ (cumsum 0 (slice c.lengths a b)).dropLast, _) = _
  rw [npSplit_slice hab hb]
  cases multimodal <;> rfl

theorem IndexedDataReader.getSlice_eq
    (hbounds : sliceIndices start stop c.sequences.length = (a, b)) (hab : a < b) :
    (IndexedDataReader.mk (c.index false) .mmap c.array.flatten).getSlice start stop 1 =
      .ok ((slice c.sequences a b).map Sequence.array) := by
  have hb := le_of_bounds hbounds
  have hlength : (c.index false).sequenceLengths.length = c.sequences.length := List.length_map _
  have hpointer := atIndex_pointers false (i := a) (k := a)
    ⟨hab.trans_le hb, .inl rfl⟩
  rw [IndexedDataReader.getSlice]
  simp only [hlength, hbounds, hpointer, one_ne_zero, hab.ne, reduceCtorEq, ne_eq,
    not_true_eq_false, if_false, bind, Except.bind]
  show (readBin .mmap dtype.itemsize (slice c.lengths a b).sum _ c.array.flatten >>=
    fun buffer => pure (npSplit buffer (cumsum 0 (slice c.lengths a b)).dropLast)) = _
  rw [readBin_slice hab.le]
  exact congrArg Except.ok (npSplit_slice hab hb)

end Slice

/-- What both readers return on the files of some contents. -/
theorem reads_back {idx bin : Bytes} (h : Encodes multimodal c idx bin) (idxPath : String)
    (hopen : access = .mmap → c.array ≠ []) {m : Bool} (hm : m = true → multimodal = true) :
    ∃ d r, IndexedDataset.init idxPath m access idx bin = .ok d ∧
      IndexedDataReader.init idxPath access idx bin = .ok r ∧
      (∀ i k s, Addresses c.sequences.length i k → c.sequences[k]? = some s →
        d.getItem i = .ok (s.array, if m then some s.mode else none) ∧ r.getItem i = .ok s.array ∧
        ∀ (offset : ℕ) (length : Option ℕ),
          offset + length.getD (s.tokens.length - offset) ≤ s.tokens.length →
          d.get i offset (length.map Nat.cast) =
            .ok ((s.array.drop offset).take (length.getD (s.tokens.length - offset)),
              if m then some s.mode else none) ∧
          r.get i offset (length.map Nat.cast) =
            .ok ((s.array.drop offset).take (length.getD (s.tokens.length - offset)))) ∧
      ∀ start stop a b, sliceIndices start stop c.sequences.length = (a, b) → a < b →
        d.getSlice start stop 1 = .ok ((slice c.sequences a b).map Sequence.array,
          if m then some (slice c.modes a b) else none) ∧
        (access = .mmap →
          r.getSlice start stop 1 = .ok ((slice c.sequences a b).map Sequence.array)) := by
  obtain ⟨rfl, hread⟩ := h
  have hbin : openBin access c.array.flatten = .ok () := by
    refine if_neg fun hempty => hopen hempty.1 ?_
    have hlength := length_flatten_of_length fun x hx => Contents.length_of_mem_array (c := c) hx
    rw [hempty.2, List.length_nil] at hlength
    have hpos := dtype.itemsize_pos
    exact List.length_eq_zero_iff.1 ((Nat.mul_eq_zero.1 hlength.symm).resolve_right hpos.ne')
  refine ⟨⟨c.index m, access, c.array.flatten⟩, ⟨c.index false, access, c.array.flatten⟩,
    ?_, ?_, ?_, ?_⟩
  · rw [IndexedDataset.init, hbin, hread _ m hm]
    rfl
  · rw [IndexedDataReader.init, hread _ false (fun h => by cases h), hbin]
    rfl
  · intro i k s hi hs
    exact ⟨IndexedDataset.getItem_eq hi hs, IndexedDataReader.getItem_eq hi hs,
      fun offset length hle =>
        ⟨IndexedDataset.get_eq hi hs hle, IndexedDataReader.get_eq _ hi hs _ _ hle⟩⟩
  · intro start stop a b hbounds hab
    exact ⟨IndexedDataset.getSlice_eq hbounds hab,
      fun haccess => haccess ▸ IndexedDataReader.getSlice_eq hbounds hab⟩

theorem reads_back_shard :
    ∃ d r, IndexedDataset.init "shard.idx" true .mmap shardIdx [1, 0, 2, 0] = .ok d ∧
      IndexedDataReader.init "shard.idx" .mmap shardIdx [1, 0, 2, 0] = .ok r ∧
      d.getItem (-1) = .ok ([[1, 0], [2, 0]], some 4) ∧ r.get 0 1 none = .ok [[2, 0]] ∧
      d.getSlice none none 1 = .ok ([[[1, 0], [2, 0]]], some [4]) := by
  obtain ⟨d, r, hd, hr, hitem, hslice⟩ := reads_back encodes_shard "shard.idx"
    (fun _ : Access.mmap = .mmap => by decide) (m := true) id
  have hlast := hitem (-1) 0 _ ⟨by decide, .inr rfl⟩ rfl
  have hfirst := (hitem 0 0 _ ⟨by decide, .inl rfl⟩ rfl).2.2 1 none (by decide)
  exact ⟨d, r, hd, hr, hlast.1, hfirst.2, (hslice none none 0 1 rfl (by decide)).1⟩

end Read

end HyperParallel.Data.IndexedFormat
