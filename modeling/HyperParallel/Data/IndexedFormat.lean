import HyperParallel.Lib.LittleEndian

/-!
# The files of an indexed dataset

`data/tools/io.py` and `data/indexed/indexed_data_reader.py`: the `.idx` and `.bin` files as bytes.
An element is given as its bytes.

* `Builder`: `IndexedDatasetBuilder`, with `Builder.finalize` as `_IndexWriter` writes the index;
* `readIndex`: `_IndexReader` of both files, which differ in the texts of their errors;
* `IndexedDataset`, `IndexedDataReader`: the readers, with a memory map or a file.
-/

open LittleEndian

namespace HyperParallel.Data.IndexedFormat

abbrev Bytes := List UInt8

/-- `DType` -/
inductive DType
  | uint8 | int8 | int16 | int32 | int64 | float64 | float32 | uint16
  deriving DecidableEq, Repr

/-- `code_from_dtype` -/
def DType.code : DType → ℕ
  | .uint8 => 1
  | .int8 => 2
  | .int16 => 3
  | .int32 => 4
  | .int64 => 5
  | .float64 => 6
  | .float32 => 7
  | .uint16 => 8

/-- `dtype_from_code`, `_DTYPES` -/
def DType.ofCode : ℕ → Option DType
  | 1 => some .uint8
  | 2 => some .int8
  | 3 => some .int16
  | 4 => some .int32
  | 5 => some .int64
  | 6 => some .float64
  | 7 => some .float32
  | 8 => some .uint16
  | _ => none

/-- `DType.size` -/
def DType.itemsize : DType → ℕ
  | .uint8 | .int8 => 1
  | .int16 | .uint16 => 2
  | .int32 | .float32 => 4
  | .int64 | .float64 => 8

@[simp] theorem DType.ofCode_code (dtype : DType) : DType.ofCode dtype.code = some dtype := by
  cases dtype <;> rfl

theorem DType.code_lt (dtype : DType) : dtype.code < 256 ^ 1 := by cases dtype <;> decide

theorem DType.itemsize_pos (dtype : DType) : 0 < dtype.itemsize := by cases dtype <;> decide

/-- `_INDEX_HEADER` -/
def indexHeader : Bytes := [77, 77, 73, 68, 73, 68, 88, 0, 0]

/-! ### The integers of the builder -/

/-- A length: an integer of Python, or a NumPy scalar that comes from a merged index. -/
inductive Scalar
  | python (n : ℤ)
  | int32 (n : ℤ)
  deriving DecidableEq, Repr

namespace Scalar

def val : Scalar → ℤ
  | python n | int32 n => n

def wrap (n : ℤ) : ℤ := Int.bmod n (2 ^ 32)

/-- `length * itemsize` -/
def mulItemsize : Scalar → ℕ → Scalar
  | python n, itemsize => python (n * itemsize)
  | int32 n, itemsize => int32 (wrap (n * itemsize))

/-- `curr_ptr + ...`; beside a NumPy scalar a Python integer has to fit its type. -/
def add : Scalar → Scalar → Except String Scalar
  | python a, python b => .ok (python (a + b))
  | int32 a, int32 b => .ok (int32 (wrap (a + b)))
  | python a, int32 b => mixed a b
  | int32 a, python b => mixed b a
where
  /-- The Python integer first. -/
  mixed (a b : ℤ) : Except String Scalar :=
    if Fits 4 a then .ok (int32 (wrap (a + b)))
    else .error ("Python integer " ++ toString a ++ " out of bounds for int32")

end Scalar

/-! ### Writing -/

/-- `_sequence_pointers` from a pointer on -/
def sequencePointers (itemsize : ℕ) (currPtr : Scalar) : List Scalar → Except String (List ℤ)
  | [] => .ok []
  | length :: lengths => do
    let next ← currPtr.add (length.mulItemsize itemsize)
    let pointers ← sequencePointers itemsize next lengths
    return currPtr.val :: pointers

/-- `numpy.array(values, dtype).tobytes()` of a signed integer type -/
def arrayBytes (width : ℕ) (values : List ℤ) : Except String Bytes :=
  if ∀ z ∈ values, Fits width z then .ok (values.map (encodeInt width)).flatten
  else .error "Python integer out of bounds"

/-- `struct.pack` of one unsigned field -/
def pack (width n : ℕ) : Except String Bytes :=
  if n < 256 ^ width then .ok (encode width n) else .error "argument out of range"

/-- The mode of each sequence, where there are modes. -/
def modesBytes : Option (List ℤ) → Except String Bytes
  | none => .ok []
  | some modes => arrayBytes 1 modes

/-- `_IndexWriter`: the contents of the index file -/
def writeIndex (dtype : DType) (sequenceLengths : List Scalar) (sequenceModes : Option (List ℤ))
    (documentIndices : List ℤ) : Except String Bytes := do
  let pointers ← sequencePointers dtype.itemsize (.python 0) sequenceLengths
  let sequenceCount ← pack 8 sequenceLengths.length
  let documentCount ← pack 8 documentIndices.length
  let lengths ← arrayBytes 4 (sequenceLengths.map Scalar.val)
  let pointers ← arrayBytes 8 pointers
  let documents ← arrayBytes 8 documentIndices
  let modes ← modesBytes sequenceModes
  return indexHeader ++ (encode 8 1 ++ (encode 1 dtype.code ++ (sequenceCount ++ (documentCount ++
    (lengths ++ (pointers ++ (documents ++ modes)))))))

/-! ### Reading an index -/

/-- The errors of an `_IndexReader`. -/
structure IndexTexts where
  badHeader : String
  badVersion : ℕ → String
  badCode : ℕ → String
  noDocuments : String
  badBoundaries : String

/-- The texts of `data/tools/io.py`. -/
def ioTexts (idxPath : String) : IndexTexts where
  badHeader := "Bad header in " ++ idxPath
  badVersion version := "Unsupported index version " ++ toString version ++ " in " ++ idxPath
  badCode code := toString code ++ " is not a valid DType"
  noDocuments := "index -1 is out of bounds for axis 0 with size 0"
  badBoundaries := "Sequence length count does not match the final document index"

/-- The texts of `data/indexed/indexed_data_reader.py`. -/
def readerTexts (idxPath : String) : IndexTexts where
  badHeader := "Invalid indexed Dataset header in '" ++ idxPath ++ "'"
  badVersion version := "Unsupported indexed Dataset version " ++ toString version ++ "; expected 1"
  badCode code := toString code
  noDocuments := "Indexed Dataset document boundaries do not match its sequence count"
  badBoundaries := "Indexed Dataset document boundaries do not match its sequence count"

/-- `_IndexReader` -/
structure Index where
  dtype : DType
  sequenceLengths : List ℤ
  sequencePointers : List ℤ
  documentIndices : List ℤ
  sequenceModes : Option (List ℤ)
  deriving DecidableEq, Repr

/-- `struct.unpack` of one unsigned field -/
def unpack (width : ℕ) (buffer : Bytes) : Except String ℕ :=
  if buffer.length = width then .ok (decode buffer)
  else .error ("unpack requires a buffer of " ++ toString width ++ " bytes")

/-- `numpy.frombuffer` -/
def npFrombuffer (itemsize : ℕ) (count offset : ℤ) (buffer : Bytes) :
    Except String (List Bytes) :=
  if offset < 0 ∨ (buffer.length : ℤ) < offset then
    .error ("offset must be non-negative and no greater than buffer length (" ++
      toString buffer.length ++ ")")
  else if count < 0 then
    -- a negative count stands for all that is left
    if (buffer.length - offset.toNat) % itemsize = 0 then
      .ok (items itemsize ((buffer.length - offset.toNat) / itemsize) (buffer.drop offset.toNat))
    else .error "buffer size must be a multiple of element size"
  else match frombuffer itemsize count.toNat offset.toNat buffer with
    | some array => .ok array
    | none => .error "buffer is smaller than requested size"

/-- An array of integers of the index. -/
def readInts (width count offset : ℕ) (file : Bytes) : Except String (List ℤ) := do
  let array ← npFrombuffer width count offset file
  return array.map decodeInt

/-- `_IndexReader.__init__` -/
def readIndex (texts : IndexTexts) (multimodal : Bool) (file : Bytes) : Except String Index := do
  if file.take 9 ≠ indexHeader then throw texts.badHeader
  let rest := file.drop 9
  let version ← unpack 8 (rest.take 8)
  if version ≠ 1 then throw (texts.badVersion version)
  let rest := rest.drop 8
  let code ← unpack 1 (rest.take 1)
  let dtype ← match DType.ofCode code with
    | some dtype => .ok dtype
    | none => .error (texts.badCode code)
  let rest := rest.drop 1
  let sequenceCount ← unpack 8 (rest.take 8)
  let rest := rest.drop 8
  let documentCount ← unpack 8 (rest.take 8)
  let offset := 34
  let lengths ← readInts 4 sequenceCount offset file
  let offset := offset + lengths.length * 4
  let pointers ← readInts 8 sequenceCount offset file
  let offset := offset + pointers.length * 8
  let documents ← readInts 8 documentCount offset file
  let offset := offset + documents.length * 8
  let modes ← if multimodal then some <$> readInts 1 sequenceCount offset file else .ok none
  match documents.getLast? with
  | none => .error texts.noDocuments
  | some last =>
    if last ≠ lengths.length then .error texts.badBoundaries
    else return ⟨dtype, lengths, pointers, documents, modes⟩

/-! ### The builder -/

/-- `IndexedDatasetBuilder` with the contents of its data file. -/
structure Builder where
  dtype : DType
  dataFile : Bytes
  sequenceLengths : List Scalar
  documentIndices : List ℤ
  sequenceModes : Option (List ℤ)
  deriving DecidableEq, Repr

namespace Builder

/-- `__init__` -/
def new (dtype : DType) (multimodal : Bool) : Builder where
  dtype
  dataFile := []
  sequenceLengths := []
  documentIndices := [0]
  sequenceModes := if multimodal then some [] else none

/-- `add_item` with the elements of the array -/
def addItem (b : Builder) (array : List Bytes) (mode : ℤ) : Builder :=
  { b with
    dataFile := b.dataFile ++ array.flatten
    sequenceLengths := b.sequenceLengths ++ [.python array.length]
    sequenceModes := b.sequenceModes.map (· ++ [mode]) }

/-- The modes of a multimodal builder with those that come, or what is raised without them. -/
def extendModes (own modes : Option (List ℤ)) (text : String) :
    Except String (Option (List ℤ)) :=
  match own, modes with
  | none, _ => .ok none
  | some own, some modes => .ok (some (own ++ modes))
  | some _, none => .error text

/-- `add_document`; without modes a multimodal builder evaluates `[0] * lengths`. -/
def addDocument (b : Builder) (array : List Bytes) (lengths : List ℤ) (modes : Option (List ℤ)) :
    Except String Builder := do
  let sequenceLengths := b.sequenceLengths ++ lengths.map Scalar.python
  let sequenceModes ← extendModes b.sequenceModes modes
    "can't multiply sequence by non-int of type 'list'"
  return { b with
    dataFile := b.dataFile ++ array.flatten
    sequenceLengths
    documentIndices := b.documentIndices ++ [(sequenceLengths.length : ℤ)]
    sequenceModes }

/-- `end_document` -/
def endDocument (b : Builder) : Builder :=
  { b with documentIndices := b.documentIndices ++ [(b.sequenceLengths.length : ℤ)] }

/-- `add_index` with the contents of the two files -/
def addIndex (b : Builder) (idxPath : String) (idx bin : Bytes) : Except String Builder := do
  let index ← readIndex (ioTexts idxPath) b.sequenceModes.isSome idx
  if index.dtype ≠ b.dtype then throw "Index dtype does not match builder dtype"
  let sequenceModes ← extendModes b.sequenceModes index.sequenceModes
    "sequence_modes cannot be None for a multimodal dataset"
  return { b with
    dataFile := b.dataFile ++ bin
    sequenceLengths := b.sequenceLengths ++ index.sequenceLengths.map Scalar.int32
    documentIndices := b.documentIndices ++
      (index.documentIndices.map fun i => (b.sequenceLengths.length : ℤ) + i).tail
    sequenceModes }

/-- `finalize`: the contents of the index file -/
def finalize (b : Builder) : Except String Bytes :=
  writeIndex b.dtype b.sequenceLengths b.sequenceModes b.documentIndices

end Builder

/-! ### Reading the data -/

/-- How the data file is read. -/
inductive Access
  | mmap
  | file
  deriving DecidableEq, Repr

/-- A memory map of the data file cannot be empty. -/
def openBin (access : Access) (bin : Bytes) : Except String Unit :=
  if access = .mmap ∧ bin = [] then .error "cannot mmap an empty file" else .ok ()

/-- `_MMapBinReader.read`, `_FileBinReader.read` -/
def readBin (access : Access) (itemsize : ℕ) (count offset : ℤ) (bin : Bytes) :
    Except String (List Bytes) :=
  match access with
  | .mmap => npFrombuffer itemsize count offset bin
  | .file =>
    if count < 0 then .error "negative dimensions are not allowed"
    else if offset < 0 then .error "[Errno 22] Invalid argument"
    else
      let bytes := (bin.drop offset.toNat).take (count.toNat * itemsize)
      if bytes.length ≠ count.toNat * itemsize then .error "Short read"
      else .ok (items itemsize count.toNat bytes)

/-- `array[i]` -/
def atIndex (array : List ℤ) (i : ℤ) : Except String ℤ :=
  let j := if i < 0 then i + array.length else i
  match if j < 0 then none else array[j.toNat]? with
  | some z => .ok z
  | none => .error ("index " ++ toString i ++ " is out of bounds for axis 0 with size " ++
      toString array.length)

/-- `slice(start, stop).indices(length)` -/
def sliceIndices (start stop : Option ℤ) (length : ℕ) : ℕ × ℕ :=
  ((start.map clamp).getD 0, (stop.map clamp).getD length)
where
  /-- A bound of a slice, counted from the end where it is negative. -/
  clamp (i : ℤ) : ℕ := min (if i < 0 then i + length else i).toNat length

/-- `array[start:stop]` -/
def slice {α : Type*} (array : List α) (start stop : ℕ) : List α := (array.take stop).drop start

/-- `numpy.cumsum` -/
def cumsum (total : ℤ) : List ℤ → List ℤ
  | [] => []
  | length :: lengths => (total + length) :: cumsum (total + length) lengths

/-- `numpy.split` -/
def npSplit {α : Type*} (array : List α) (points : List ℤ) : List (List α) :=
  List.zipWith (fun start stop =>
    let bounds := sliceIndices (some start) (some stop) array.length
    slice array bounds.1 bounds.2) (0 :: points) (points ++ [(array.length : ℤ)])

/-- `IndexedDataset` -/
structure IndexedDataset where
  index : Index
  access : Access
  bin : Bytes

namespace IndexedDataset

/-- `__init__` with the contents of the two files -/
def init (idxPath : String) (multimodal : Bool) (access : Access) (idx bin : Bytes) :
    Except String IndexedDataset := do
  openBin access bin
  let index ← readIndex (ioTexts idxPath) multimodal idx
  return ⟨index, access, bin⟩

/-- The mode at an index. -/
def mode (d : IndexedDataset) (i : ℤ) : Except String (Option ℤ) :=
  match d.index.sequenceModes with
  | none => .ok none
  | some modes => some <$> atIndex modes i

/-- `__getitem__` for an integer -/
def getItem (d : IndexedDataset) (i : ℤ) : Except String (List Bytes × Option ℤ) := do
  let ptr ← atIndex d.index.sequencePointers i
  let length ← atIndex d.index.sequenceLengths i
  let mode ← d.mode i
  let seq ← readBin d.access d.index.dtype.itemsize length ptr d.bin
  return (seq, mode)

/-- `__getitem__` for a slice -/
def getSlice (d : IndexedDataset) (start stop : Option ℤ) (step : ℤ) :
    Except String (List (List Bytes) × Option (List ℤ)) := do
  if step = 0 then throw "slice step cannot be zero"
  let bounds := sliceIndices start stop d.index.sequenceLengths.length
  if step ≠ 1 then throw "Slices into IndexedDataset must be contiguous (step=1)"
  let lengths := slice d.index.sequenceLengths bounds.1 bounds.2
  let modes := d.index.sequenceModes.map fun modes => slice modes bounds.1 bounds.2
  let offsets := cumsum 0 lengths
  let tokenCount := offsets.getLast?.getD 0
  let ptr ← atIndex d.index.sequencePointers bounds.1
  let buffer ← readBin d.access d.index.dtype.itemsize tokenCount ptr d.bin
  return (npSplit buffer offsets.dropLast, modes)

/-- `get` -/
def get (d : IndexedDataset) (i offset : ℤ) (length : Option ℤ) :
    Except String (List Bytes × Option ℤ) := do
  let ptr ← atIndex d.index.sequencePointers i
  let seqLen ← atIndex d.index.sequenceLengths i
  let mode ← d.mode i
  let seq ← readBin d.access d.index.dtype.itemsize (length.getD (seqLen - offset))
    (ptr + offset * d.index.dtype.itemsize) d.bin
  return (seq, mode)

end IndexedDataset

/-- `IndexedDataReader` -/
structure IndexedDataReader where
  index : Index
  access : Access
  bin : Bytes

namespace IndexedDataReader

/-- `__init__` with the contents of the two files, without a reused index -/
def init (idxPath : String) (access : Access) (idx bin : Bytes) :
    Except String IndexedDataReader := do
  let index ← readIndex (readerTexts idxPath) false idx
  openBin access bin
  return ⟨index, access, bin⟩

/-- `get` -/
def get (r : IndexedDataReader) (i offset : ℤ) (length : Option ℤ) :
    Except String (List Bytes) := do
  let ptr ← atIndex r.index.sequencePointers i
  let seqLen ← atIndex r.index.sequenceLengths i
  let readLength := length.getD (seqLen - offset)
  if offset < 0 ∨ readLength < 0 ∨ offset + readLength > seqLen then
    throw ("Token range [" ++ toString offset ++ ", " ++ toString (offset + readLength) ++
      ") exceeds sequence length " ++ toString seqLen)
  readBin r.access r.index.dtype.itemsize readLength
    (ptr + offset * r.index.dtype.itemsize) r.bin

/-- `__getitem__` for an integer -/
def getItem (r : IndexedDataReader) (i : ℤ) : Except String (List Bytes) :=
  match r.access with
  | .mmap => do
    let ptr ← atIndex r.index.sequencePointers i
    let length ← atIndex r.index.sequenceLengths i
    npFrombuffer r.index.dtype.itemsize length ptr r.bin
  | .file => r.get i 0 none

/-- `__getitem__` for a slice -/
def getSlice (r : IndexedDataReader) (start stop : Option ℤ) (step : ℤ) :
    Except String (List (List Bytes)) := do
  if r.access = .file then throw "Slicing is not implemented when mmap is disabled"
  if step = 0 then throw "slice step cannot be zero"
  let bounds := sliceIndices start stop r.index.sequenceLengths.length
  if step ≠ 1 then throw "Slices into indexed Dataset must be contiguous"
  if bounds.1 = bounds.2 then return []
  let lengths := slice r.index.sequenceLengths bounds.1 bounds.2
  let offsets := cumsum 0 lengths
  let ptr ← atIndex r.index.sequencePointers bounds.1
  let buffer ← npFrombuffer r.index.dtype.itemsize lengths.sum ptr r.bin
  return npSplit buffer offsets.dropLast

end IndexedDataReader

end HyperParallel.Data.IndexedFormat
