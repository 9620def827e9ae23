import HyperParallel.Data.IndexedFormatCorrect
import HyperParallel.Lib.FlatBuffer

/-!
# The streaming reader of a data file

`_S3BinReader` of `data/tools/io.py`: reads go through one cached window of the object.

* `S3BinReader.read`: one read, with the window it leaves behind;
* `S3BinReader.Window`: the cached window is a part of the object, `window_read`;
* `reads_eq_direct`: in a row of reads each one inside the object returns what the file reader does.
-/

open FlatBuffer LittleEndian

namespace HyperParallel.Data.IndexedFormat

/-- `ObjectStorageConfig.bin_chunk_nbytes` as `_S3BinReader.__init__` checks it. -/
structure ChunkConfig where
  cacheNbytes : ℕ
  cacheNbytes_pos : 0 < cacheNbytes

/-- `_S3BinReader` -/
structure S3BinReader where
  cacheBytesStart : ℕ
  cacheBytesEnd : ℕ
  cache : Option Bytes
  deriving DecidableEq, Repr

namespace S3BinReader

def new : S3BinReader := ⟨0, 0, none⟩

/-- `_extract_from_cache` -/
def extractFromCache (s : S3BinReader) (offset size : ℕ) : Except String Bytes :=
  match s.cache with
  | none => .error "Cache is empty; cannot extract before first read"
  | some cache =>
    if offset < s.cacheBytesStart ∨ s.cacheBytesStart + cache.length < offset + size then
      .error ("Cache window [" ++ toString s.cacheBytesStart ++ ", " ++ toString s.cacheBytesEnd ++
        ") does not contain requested range [" ++ toString offset ++ ", " ++
        toString (offset + size) ++ ")")
    else .ok (narrow cache (offset - s.cacheBytesStart) size)

/-- The elements of the bytes that are extracted. -/
def extractItems (s : S3BinReader) (itemsize offset size : ℕ) : Except String (List Bytes) := do
  let buffer ← s.extractFromCache offset size
  npFrombuffer itemsize (-1) 0 buffer

section Read

variable (getObject : ℕ → ℕ → Except String Bytes) (config : ChunkConfig) (itemsize : ℕ)

/-- `read`; `getObject start stop` asks for the bytes from `start` to `stop`. -/
def read (s : S3BinReader) (count offset : ℕ) : Except String (List Bytes) × S3BinReader :=
  let size := count * itemsize
  if s.cache ≠ none ∧ s.cacheBytesStart ≤ offset ∧ offset + size ≤ s.cacheBytesEnd then
    (s.extractItems itemsize offset size, s)
  else
    let bytesStart := offset / config.cacheNbytes * config.cacheNbytes
    let bytesEnd := max (bytesStart + config.cacheNbytes) (offset + size)
    match getObject bytesStart bytesEnd with
    | .error text => (.error text, s)
    | .ok body =>
      let s' : S3BinReader := ⟨bytesStart, bytesStart + body.length, some body⟩
      (s'.extractItems itemsize offset size, s')

end Read

/-- Reads in a row, each with the type, the count and the offset that it asks for. -/
def reads (getObject : ℕ → ℕ → Except String Bytes) (config : ChunkConfig) (s : S3BinReader) :
    List (DType × ℕ × ℕ) → List (Except String (List Bytes))
  | [] => []
  | (dtype, count, offset) :: rest =>
    (s.read getObject config dtype.itemsize count offset).1 ::
      reads getObject config (s.read getObject config dtype.itemsize count offset).2 rest

/-- Ranged reads of an object: a range that starts inside it is cut at its end. -/
structure Serves (getObject : ℕ → ℕ → Except String Bytes) (bin : Bytes) : Prop where
  ok_of_lt : ∀ {start stop}, start < bin.length → start < stop →
    getObject start stop = .ok (narrow bin start (stop - start))
  sound : ∀ {start stop body}, getObject start stop = .ok body →
    body = narrow bin start (stop - start)

/-- What is cached is the part of the object at its place. -/
def Window (bin : Bytes) (s : S3BinReader) : Prop :=
  ∀ cache, s.cache = some cache →
    s.cacheBytesEnd = s.cacheBytesStart + cache.length ∧
      cache = narrow bin s.cacheBytesStart cache.length

theorem window_new (bin : Bytes) : Window bin new := fun _ h => by cases h

variable {getObject : ℕ → ℕ → Except String Bytes} {config : ChunkConfig} {bin : Bytes}
  {s : S3BinReader} {itemsize count offset : ℕ}

theorem narrow_length (buffer : Bytes) (start length : ℕ) :
    narrow buffer start length = narrow buffer start (narrow buffer start length).length := by
  rw [narrow, narrow, List.length_take, List.take_eq_take_min]

/-- Every read leaves a window of the object, also one that fails. -/
theorem window_read (hserves : Serves getObject bin) (hwindow : Window bin s) :
    Window bin (s.read getObject config itemsize count offset).2 := by
  rw [read]
  split_ifs with hhit
  · exact hwindow
  · dsimp only
    split
    · exact hwindow
    · next body hbody =>
      intro cache hcache
      obtain rfl := Option.some.inj hcache
      obtain rfl := hserves.sound hbody
      exact ⟨rfl, narrow_length bin _ _⟩

/-- What a window yields. -/
theorem extractItems_eq (hwindow : Window bin s) {cache : Bytes} (hcache : s.cache = some cache)
    (hsize : 0 < itemsize) (hstart : s.cacheBytesStart ≤ offset)
    (hstop : offset + count * itemsize ≤ s.cacheBytesStart + cache.length) :
    s.extractItems itemsize offset (count * itemsize) =
      .ok (items itemsize count (narrow bin offset (count * itemsize))) := by
  obtain ⟨-, hnarrow⟩ := hwindow cache hcache
  have hpart : narrow cache (offset - s.cacheBytesStart) (count * itemsize) =
      narrow bin offset (count * itemsize) := by
    rw [hnarrow, narrow_narrow (by omega), Nat.add_sub_cancel' hstart]
  have hlength : (narrow bin offset (count * itemsize)).length = count * itemsize := by
    rw [← hpart]
    exact length_narrow (by omega)
  rw [extractItems, extractFromCache, hcache]
  simp only [bind, Except.bind]
  rw [if_neg (by omega), hpart]
  show npFrombuffer itemsize (-1) 0 _ = _
  rw [npFrombuffer, if_neg (by omega), if_pos (by omega), Int.toNat_zero, Nat.sub_zero, hlength,
    Nat.mul_mod_left, if_pos rfl, Nat.mul_div_cancel _ hsize, List.drop_zero]

/-- The window that is fetched holds the range that is asked for. -/
theorem read_eq_direct (hserves : Serves getObject bin) (hwindow : Window bin s)
    (hsize : 0 < itemsize) (hcount : 0 < count)
    (hbound : offset + count * itemsize ≤ bin.length) :
    (s.read getObject config itemsize count offset).1 =
      readBin .file itemsize count offset bin := by
  have hpos : 0 < count * itemsize := Nat.mul_pos hcount hsize
  have hlength : (narrow bin offset (count * itemsize)).length = count * itemsize :=
    length_narrow hbound
  have hdirect : readBin .file itemsize count offset bin =
      .ok (items itemsize count (narrow bin offset (count * itemsize))) := by
    rw [readBin, if_neg (by omega), if_neg (by omega), Int.toNat_natCast, Int.toNat_natCast]
    exact if_neg (not_not.2 hlength)
  rw [hdirect, read]
  split_ifs with hhit
  · obtain ⟨hcached, hstart, hstop⟩ := hhit
    obtain ⟨cache, hcache⟩ := Option.ne_none_iff_exists'.1 hcached
    rw [(hwindow cache hcache).1] at hstop
    exact extractItems_eq hwindow hcache hsize hstart hstop
  · have hchunk : offset / config.cacheNbytes * config.cacheNbytes ≤ offset :=
      Nat.div_mul_le_self offset config.cacheNbytes
    dsimp only
    have hlt : offset / config.cacheNbytes * config.cacheNbytes <
        max (offset / config.cacheNbytes * config.cacheNbytes + config.cacheNbytes)
          (offset + count * itemsize) := by omega
    have hbody := hserves.ok_of_lt (by omega) hlt
    rw [hbody]
    refine extractItems_eq (fun cache hcache => ?_) rfl hsize hchunk ?_
    · obtain rfl := Option.some.inj hcache
      exact ⟨rfl, narrow_length bin _ _⟩
    · show _ ≤ offset / config.cacheNbytes * config.cacheNbytes + _
      rw [narrow, List.length_take, List.length_drop]
      omega

theorem forall₂_reads (hserves : Serves getObject bin) (hwindow : Window bin s)
    (requests : List (DType × ℕ × ℕ)) :
    List.Forall₂ (fun request result =>
        0 < request.2.1 → request.2.2 + request.2.1 * request.1.itemsize ≤ bin.length →
          result = readBin .file request.1.itemsize request.2.1 request.2.2 bin)
      requests (s.reads getObject config requests) := by
  induction requests generalizing s with
  | nil => exact .nil
  | cons request requests ih =>
    exact .cons (fun hcount hbound => read_eq_direct hserves hwindow request.1.itemsize_pos hcount
      hbound) (ih (window_read hserves hwindow))

/-- Reads through the window return what the file reader returns, in every order. -/
theorem reads_eq_direct (hserves : Serves getObject bin) (config : ChunkConfig)
    (requests : List (DType × ℕ × ℕ)) :
    List.Forall₂ (fun request result =>
        0 < request.2.1 → request.2.2 + request.2.1 * request.1.itemsize ≤ bin.length →
          result = readBin .file request.1.itemsize request.2.1 request.2.2 bin)
      requests (new.reads getObject config requests) :=
  forall₂_reads hserves (window_new bin) requests

/-- Ranged reads of an object that is held in memory. -/
def rangedGet (bin : Bytes) (start stop : ℕ) : Except String Bytes :=
  if start < bin.length ∧ start < stop then .ok (narrow bin start (stop - start))
  else .error "InvalidRange"

theorem serves_rangedGet (bin : Bytes) : Serves (rangedGet bin) bin := by
  constructor
  · intro start stop hstart hstop
    exact if_pos ⟨hstart, hstop⟩
  · intro start stop body hbody
    rw [rangedGet] at hbody
    split_ifs at hbody
    exact (Except.ok.inj hbody).symm

theorem reads_eq_direct_chunks :
    new.reads (rangedGet [1, 0, 2, 0, 3, 0]) ⟨4, by decide⟩
        [(.uint16, 1, 2), (.uint16, 2, 2), (.uint8, 2, 1), (.uint16, 9, 4)] =
        [.ok [[2, 0]], .ok [[2, 0], [3, 0]], .ok [[0], [2]],
          .error "Cache window [4, 6) does not contain requested range [4, 22)"] ∧
      readBin .file 2 2 2 [1, 0, 2, 0, 3, 0] = .ok [[2, 0], [3, 0]] := by
  have hreads := reads_eq_direct (serves_rangedGet [1, 0, 2, 0, 3, 0]) ⟨4, by decide⟩
    [(.uint16, 1, 2), (.uint16, 2, 2), (.uint8, 2, 1), (.uint16, 9, 4)]
  cases hreads with
  | cons _ hreads =>
    cases hreads with
    | cons hsecond _ => exact ⟨by decide +kernel, (hsecond (by decide) (by decide)).symm.trans rfl⟩

end S3BinReader

end HyperParallel.Data.IndexedFormat
