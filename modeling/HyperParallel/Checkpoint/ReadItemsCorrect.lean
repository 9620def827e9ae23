import HyperParallel.Checkpoint.ReadItems
import HyperParallel.Lib.ExceptList
import Mathlib.Data.List.Nodup

/-!
# When a tensor is read back as it was saved

A chunk is looked up by the name of its tensor and its start offsets alone, so of several chunks
saved at the same offsets every read gets the one written last (`storedTensor_eq`).  The reads
of a local chunk therefore restore the tensor exactly when every overlap with a saved chunk lies
in the chunk its lookup arrives at (`SavedTensor.loadsCorrectly_iff`).
-/

namespace HyperParallel.Checkpoint

variable {α : Type*}

/-! ### The items -/

section Items

variable {fqn : String} {b : Bool} {shape : List ℕ}
  {savedChunks localChunks : List ChunkStorageMetadata} {l c : ChunkStorageMetadata}

instance (r : List (ℕ × ℕ)) : Decidable (Box.Nondegenerate r) :=
  inferInstanceAs (Decidable (∀ i ∈ r, i.1 < i.2))

/-- `infer_intersection` gives the intersection when it has a point. -/
theorem intersectRanges_eq {a b : List (ℕ × ℕ)} (h : a.length = b.length) :
    intersectRanges a b =
      if Box.Nondegenerate (Box.inter a b) then some (Box.inter a b) else none := by
  induction a generalizing b with
  | nil =>
    obtain rfl := List.length_eq_zero_iff.1 h.symm
    simp [intersectRanges, Box.Nondegenerate]
  | cons i a ih =>
    obtain ⟨j, b, rfl⟩ := List.exists_cons_of_length_eq_add_one h.symm
    have hcons : Box.Nondegenerate (Box.inter (i :: a) (j :: b)) ↔
        max i.1 j.1 < min i.2 j.2 ∧ Box.Nondegenerate (Box.inter a b) := by
      simp [Box.Nondegenerate]
    rw [intersectRanges, ih (by simpa using h)]
    split_ifs <;> simp_all; omega

theorem length_area (hl : l.IsChunkOf shape) : (chunkToArea l).length = shape.length := by
  rw [chunkToArea, Box.length_ofSizes (hl.length_sizes.trans hl.length_offsets.symm),
    hl.length_offsets]

/-- The read items: one for every local and saved chunk that share a point. -/
def readItems (fqn : String) (savedChunks localChunks : List ChunkStorageMetadata) (b : Bool) :
    List ReadItem :=
  localChunks.zipIdx.flatMap fun l => savedChunks.zipIdx.filterMap fun c =>
    if Box.Nondegenerate (Box.inter (chunkToArea l.1) (chunkToArea c.1)) then
      some (readItem fqn b l.2 l.1 c.2 c.1 (Box.inter (chunkToArea l.1) (chunkToArea c.1)))
    else none

theorem createReadItemsForChunkList_eq (hs : ∀ c ∈ savedChunks, c.IsChunkOf shape)
    (hl : ∀ l ∈ localChunks, l.IsChunkOf shape) :
    createReadItemsForChunkList fqn savedChunks localChunks b =
      .ok (readItems fqn savedChunks localChunks b) := by
  rw [createReadItemsForChunkList]
  split_ifs with hempty
  · rcases hempty with rfl | rfl <;> simp [readItems]
  · rw [ExceptList.mapM_of_forall (g := fun l : ChunkStorageMetadata × ℕ =>
      savedChunks.zipIdx.map fun c : ChunkStorageMetadata × ℕ =>
        if Box.Nondegenerate (Box.inter (chunkToArea l.1) (chunkToArea c.1)) then
          some (readItem fqn b l.2 l.1 c.2 c.1 (Box.inter (chunkToArea l.1) (chunkToArea c.1)))
        else none)]
    · simp only [readItems, List.flatMap_def, bind, Except.bind, pure,
        Except.pure]
      simp [List.filterMap_flatten, List.filterMap_map, Function.comp_def]
    · rintro ⟨l, i⟩ hli
      refine ExceptList.mapM_of_forall ?_
      rintro ⟨c, j⟩ hcj
      have hlen : (chunkToArea l).length = (chunkToArea c).length := by
        rw [length_area (hl l (List.fst_mem_of_mem_zipIdx hli)),
          length_area (hs c (List.fst_mem_of_mem_zipIdx hcj))]
      simp only [inferIntersection, hlen, ne_eq, not_true_eq_false, if_false,
        intersectRanges_eq hlen, bind, Except.bind, pure, Except.pure]
      split_ifs <;> rfl

theorem mem_readItems {req : ReadItem} :
    req ∈ readItems fqn savedChunks localChunks b ↔ ∃ i l j c, localChunks[i]? = some l ∧
      savedChunks[j]? = some c ∧ Box.Nondegenerate (Box.inter (chunkToArea l) (chunkToArea c)) ∧
      req = readItem fqn b i l j c (Box.inter (chunkToArea l) (chunkToArea c)) := by
  simp only [readItems, List.mem_flatMap, List.mem_filterMap, Option.ite_none_right_eq_some,
    Option.some.injEq, Prod.exists, List.mem_zipIdx_iff_getElem?]
  constructor
  · rintro ⟨l, i, hl, c, j, hc, hne, rfl⟩
    exact ⟨i, l, j, c, hl, hc, hne, rfl⟩
  · rintro ⟨i, l, j, c, hl, hc, hne, rfl⟩
    exact ⟨l, i, hl, c, j, hc, hne, rfl⟩

end Items

/-! ### The lookup -/

section Lookup

variable (saved : SavedTensor α) {offsets : List ℕ} {ordinal : Option ℕ} {d : SavedChunk α}

theorem foldl_overwrite {β γ : Type*} {p : β → Prop} [DecidablePred p] {f : β → γ}
    {xs : List β} {init : Option γ} :
    xs.foldl (fun acc x => if p x then some (f x) else acc) init =
      ((xs.reverse.find? (p ·)).map f).or init := by
  induction xs generalizing init with
  | nil => simp
  | cons x xs ih =>
    rw [List.foldl_cons, ih, List.reverse_cons, List.find?_append, Option.map_or, Option.or_assoc]
    by_cases hx : p x <;> simp [hx]

theorem reverse_find?_zipIdx {β : Type*} {p : β → Prop} [DecidablePred p] {xs : List β} :
    (xs.zipIdx.reverse.find? fun x => p x.1).map Prod.fst = xs.reverse.find? (p ·) := by
  conv_rhs => rw [← List.zipIdx_map_fst 0 xs, ← List.map_reverse, List.find?_map]
  rfl

/-- The metadata looks a chunk up by its start offsets, and finds the one written last. -/
theorem finalizeCheckpoint_writeResults :
    finalizeCheckpoint saved.writeResults ⟨saved.fqn, offsets, ordinal⟩ =
      (saved.lastAt offsets).map SavedChunk.storageData := by
  rw [finalizeCheckpoint, SavedTensor.writeResults, List.foldl_map, SavedTensor.lastAt,
    ← reverse_find?_zipIdx, Option.map_map]
  simp only [MetadataIndex.key, Prod.mk.injEq, true_and]
  rw [foldl_overwrite (f := fun x : SavedChunk α × ℕ => x.1.storageData), Option.or_none]
  rfl

theorem file_of_mem (hd : d ∈ saved.chunks) :
    saved.file d.storageData.relativePath (tensorKey d.storageData saved.fqn) = some d.tensor := by
  have hsome : (saved.chunks.find? fun c =>
      c.storageData.relativePath = d.storageData.relativePath ∧
        tensorKey c.storageData saved.fqn = tensorKey d.storageData saved.fqn).isSome := by
    rw [List.find?_isSome]
    exact ⟨d, hd, by simp⟩
  obtain ⟨c, hc⟩ := Option.isSome_iff_exists.1 hsome
  have hplace := List.find?_some hc
  rw [decide_eq_true_eq] at hplace
  have hcd : c = d := List.inj_on_of_nodup_map saved.nodup (List.mem_of_find?_eq_some hc) hd
    (Prod.ext hplace.1 hplace.2)
  rw [SavedTensor.file, hc, hcd]
  rfl

theorem lastAt_mem (h : saved.lastAt offsets = some d) :
    d ∈ saved.chunks ∧ d.chunk.offsets = offsets :=
  ⟨List.mem_reverse.1 (List.mem_of_find?_eq_some h), by simpa using List.find?_some h⟩

theorem exists_lastAt {c : SavedChunk α} (hc : c ∈ saved.chunks) :
    ∃ d, saved.lastAt c.chunk.offsets = some d := by
  refine Option.isSome_iff_exists.1 (List.find?_isSome.2 ⟨c, List.mem_reverse.2 hc, ?_⟩)
  exact decide_eq_true rfl

/-- A read gets the tensor of the chunk written last at the offsets it asks for. -/
theorem storedTensor_eq (h : saved.lastAt offsets = some d) :
    saved.storedTensor ⟨saved.fqn, offsets, ordinal⟩ = .ok d.tensor := by
  rw [SavedTensor.storedTensor, finalizeCheckpoint_writeResults, h]
  simp only [Option.map_some]
  rw [file_of_mem saved (lastAt_mem saved h).1]

end Lookup

/-! ### The regions -/

section Regions

open Box

variable {r : List (ℕ × ℕ)} {o p s x : List ℕ}

/-- A slice inside its tensor has the lengths that were asked for. -/
theorem narrowShape_relative_iff (h : Above r o) (hr : Nondegenerate r) (hs : s.length = o.length) :
    narrowShape s (relative r o) (lengths r) = lengths r ↔ SubBox r (ofSizes o s) := by
  induction h generalizing s with
  | nil =>
    obtain rfl := List.length_eq_zero_iff.1 hs
    exact iff_of_true rfl List.Forall₂.nil
  | @cons i k r o hik _ ih =>
    obtain ⟨n, s, rfl⟩ := List.exists_cons_of_length_eq_add_one hs
    have hi := hr i List.mem_cons_self
    have hr' : Nondegenerate r := fun j hj => hr j (List.mem_cons_of_mem _ hj)
    rw [relative_cons, lengths_cons, narrowShape, ofSizes_cons, List.cons.injEq, SubBox,
      List.forall₂_cons]
    exact and_congr (by simp only; omega) (ih hr' (by simpa using hs))

/-- What a read finds at a coordinate of its destination is the stored element of the same
global coordinate. -/
theorem shift_narrowIndex (ho : Above r o) (hp : Above r p) (hx : x.length = o.length)
    (hmem : shift o x ∈ points r) :
    shift p (narrowIndex (relative r p) (List.zipWith (· - ·) x (relative r o))) = shift o x := by
  induction ho generalizing p x with
  | nil =>
    obtain rfl := List.length_eq_zero_iff.1 hx
    obtain rfl := List.forall₂_nil_left_iff.1 hp
    rfl
  | @cons i k r o hik _ ih =>
    obtain ⟨t, x, rfl⟩ := List.exists_cons_of_length_eq_add_one hx
    obtain ⟨m, p, him, hp', rfl⟩ := List.forall₂_cons_left_iff.1 hp
    rw [shift_cons, mem_points_cons] at hmem
    simp only [relative_cons, List.zipWith_cons_cons, narrowIndex, shift_cons,
      ih hp' (by simpa using hx) hmem.2]
    congr 1
    omega

theorem length_narrowIndex (h : x.length = o.length) : (narrowIndex o x).length = o.length := by
  induction o generalizing x with
  | nil => simpa [narrowIndex] using h
  | cons k o ih =>
    obtain ⟨t, x, rfl⟩ := List.exists_cons_of_length_eq_add_one h
    simp [narrowIndex, ih (by simpa using h)]

/-- Without dimensions there is one coordinate, and the whole tensor is its slice. -/
theorem narrow_eq (tensor : FetchedTensor α) (h : tensor.shape.length = o.length) {k : List ℕ}
    (hk : k.length = o.length) :
    tensor.narrow o k = ⟨narrowShape tensor.shape o k, fun y => tensor.get (narrowIndex o y)⟩ := by
  rw [FetchedTensor.narrow]
  split_ifs with hempty
  · have hnil : o = [] := by
      rcases hempty with ho | rfl
      · exact ho
      · exact List.length_eq_zero_iff.1 hk.symm
    subst hnil
    obtain rfl := List.length_eq_zero_iff.1 hk
    simp [narrowShape, narrowIndex]
  · rfl

end Regions

/-! ### Carrying out the reads -/

namespace SavedTensor

/-- Every element a local chunk shares with a saved one is in the chunk written last at the
offsets of the saved one. -/
def HoldsOverlaps (saved : SavedTensor α) (localChunks : List ChunkStorageMetadata) : Prop :=
  ∀ l ∈ localChunks, ∀ c ∈ saved.chunks, ∀ d, saved.lastAt c.chunk.offsets = some d →
    Box.points (chunkToArea l) ∩ Box.points (chunkToArea c.chunk) ⊆
      Box.points (chunkToArea d.chunk)

section Run

variable {saved : SavedTensor α} {shape : List ℕ} {localChunks : List ChunkStorageMetadata}
  {G : List ℕ → α} {req : ReadItem} {k : ℕ} {x : List ℕ}

/-- The read writes to this element. -/
def Hits (req : ReadItem) (k : ℕ) (x : List ℕ) : Prop :=
  req.destIndex.index = some k ∧ x ∈ Box.points (Box.ofSizes req.destOffsets req.lengths)

instance : Decidable (Hits req k x) := inferInstanceAs (Decidable (_ ∧ _))

/-- What an element of a local chunk has to become. -/
def target (localChunks : List ChunkStorageMetadata) (G : List ℕ → α) (k : ℕ) (x : List ℕ) :
    Option α :=
  (localChunks[k]?).map fun l => G (Box.shift l.offsets x)

/-- A read item, with the saved chunk it was made for and the one its lookup arrives at. -/
theorem exists_of_mem_readItems (hs : ∀ c ∈ saved.chunks, c.chunk.IsChunkOf shape)
    (hl : ∀ l ∈ localChunks, l.IsChunkOf shape)
    (hreq : req ∈ readItems saved.fqn saved.metadataChunks localChunks true) :
    ∃ i l j c d r, localChunks[i]? = some l ∧ c ∈ saved.chunks ∧ d ∈ saved.chunks ∧
      saved.lastAt c.chunk.offsets = some d ∧ d.chunk.offsets = c.chunk.offsets ∧
      Box.Above r l.offsets ∧ Box.Above r c.chunk.offsets ∧ Box.Nondegenerate r ∧
      Box.SubBox r (chunkToArea l) ∧
      Box.points r = Box.points (chunkToArea l) ∩ Box.points (chunkToArea c.chunk) ∧
      req = readItem saved.fqn true i l j c.chunk r := by
  obtain ⟨i, l, j, c, hli, hcj, hne, rfl⟩ := mem_readItems.1 hreq
  obtain ⟨c, hc, rfl⟩ := List.mem_map.1 (List.mem_of_getElem? hcj)
  obtain ⟨d, hd⟩ := exists_lastAt saved hc
  have hlmem := hl l (List.mem_of_getElem? hli)
  have hcmem := hs c hc
  have hlen : (chunkToArea l).length = (chunkToArea c.chunk).length := by
    rw [length_area hlmem, length_area hcmem]
  have hpoints := Box.points_inter hlen
  have hsl := hlmem.length_sizes.trans hlmem.length_offsets.symm
  have hsc := hcmem.length_sizes.trans hcmem.length_offsets.symm
  have hol := hlmem.length_offsets.trans hcmem.length_offsets.symm
  refine ⟨i, l, j, c, d, Box.inter (chunkToArea l) (chunkToArea c.chunk), hli, hc, (lastAt_mem saved hd).1, hd,
    (lastAt_mem saved hd).2, Box.above_inter_left hsl hol.symm (hsc.trans hol.symm), ?_, hne, ?_, hpoints, rfl⟩
  · rw [Box.inter_comm_of_length hlen]
    exact Box.above_inter_left hsc hol (hsl.trans hol)
  · rw [← Box.points_subset_iff (Box.length_inter hlen) hne, hpoints]
    exact Set.inter_subset_left

/-- One read: it writes the right values to its destination and nothing else. -/
theorem applyFetched_fetchTensor (hs : ∀ c ∈ saved.chunks, c.chunk.IsChunkOf shape)
    (hl : ∀ l ∈ localChunks, l.IsChunkOf shape)
    (hdata : ∀ c ∈ saved.chunks, ∀ x ∈ Box.localPoints c.chunk.sizes,
      c.tensor.get x = G (Box.shift c.chunk.offsets x))
    (hholds : saved.HoldsOverlaps localChunks)
    (hreq : req ∈ readItems saved.fqn saved.metadataChunks localChunks true)
    (buffers : Buffers α) :
    (saved.fetchTensor req >>= fun tensor => applyFetched localChunks req tensor buffers) =
      .ok fun k x => if Hits req k x then target localChunks G k x else buffers k x := by
  obtain ⟨i, l, j, c, d, r, hli, hc, hd, hlast, hoff, hrl, hrc, hne, hsub, hpoints, rfl⟩ :=
    exists_of_mem_readItems hs hl hreq
  have hlmem := hl l (List.mem_of_getElem? hli)
  have hdmem := hs d hd
  have hsl := hlmem.length_sizes.trans hlmem.length_offsets.symm
  have hsd := hdmem.length_sizes.trans hdmem.length_offsets.symm
  have hlenr : r.length = d.chunk.offsets.length := hoff ▸ hrc.length_eq
  -- the overlap lies in the chunk that is read
  have hrd : Box.points r ⊆ Box.points (chunkToArea d.chunk) :=
    hpoints ▸ hholds l (List.mem_of_getElem? hli) c hc d hlast
  have hsubd : Box.SubBox r (chunkToArea d.chunk) :=
    (Box.points_subset_iff (by rw [length_area hdmem, hlenr, hdmem.length_offsets]) hne).1 hrd
  have hread : narrowShape d.tensor.shape (Box.relative r c.chunk.offsets) (Box.lengths r) =
      Box.lengths r := by
    rw [d.shape_eq, ← hoff]
    exact (narrowShape_relative_iff (hoff ▸ hrc) hne hsd).2 hsubd
  have hdest : narrowShape l.sizes (Box.relative r l.offsets) (Box.lengths r) = Box.lengths r :=
    (narrowShape_relative_iff hrl hne hsl).2 hsub
  have hrel : (Box.relative r c.chunk.offsets).length = d.chunk.offsets.length := by
    simp [Box.relative, hlenr, hoff]
  simp only [readItem, fetchTensor, storedTensor_eq saved hlast, bind, Except.bind, pure,
    Except.pure]
  rw [narrow_eq d.tensor (by rw [d.shape_eq, hsd, hrel]) (by rw [hrel, ← hlenr]; simp [Box.lengths]),
    hread]
  simp only [applyFetched, Option.bind_some, hli, Option.map_some, hdest, ne_eq,
    not_true_eq_false, if_false]
  congr 1
  funext k x
  simp only [Hits, Option.some.injEq, eq_comm (b := k)]
  split_ifs with h
  · obtain ⟨rfl, hx⟩ := h
    obtain ⟨hxlen, hxr⟩ := (Box.mem_points_relative hrl hne).1 hx
    have hylen : (narrowIndex (Box.relative r c.chunk.offsets)
        (List.zipWith (· - ·) x (Box.relative r l.offsets))).length = d.chunk.offsets.length := by
      rw [length_narrowIndex, hrel]
      simp [Box.relative, hxlen, hrl.length_eq, hrc.length_eq.symm]
    have hglobal := shift_narrowIndex hrl hrc hxlen hxr
    rw [← hoff] at hglobal hylen ⊢
    have hy := hrd hxr
    rw [← hglobal, chunkToArea, Box.shift_mem_ofSizes hsd hylen] at hy
    rw [target, hli, Option.map_some, hdata d hd _ hy, hglobal]
  · rfl

/-- A run of the reads, in any order. -/
theorem executeRead_eq (hs : ∀ c ∈ saved.chunks, c.chunk.IsChunkOf shape)
    (hl : ∀ l ∈ localChunks, l.IsChunkOf shape)
    (hdata : ∀ c ∈ saved.chunks, ∀ x ∈ Box.localPoints c.chunk.sizes,
      c.tensor.get x = G (Box.shift c.chunk.offsets x))
    (hholds : saved.HoldsOverlaps localChunks) (reqs : List ReadItem)
    (hreqs : ∀ req ∈ reqs, req ∈ readItems saved.fqn saved.metadataChunks localChunks true)
    (buffers : Buffers α) :
    reqs.foldlM (fun buffers req => do
        let tensor ← saved.fetchTensor req
        applyFetched localChunks req tensor buffers) buffers =
      .ok fun k x => if ∃ req ∈ reqs, Hits req k x then target localChunks G k x
        else buffers k x := by
  induction reqs generalizing buffers with
  | nil => simp [pure, Except.pure]
  | cons req reqs ih =>
    rw [List.foldlM_cons, applyFetched_fetchTensor hs hl hdata hholds
      (hreqs req List.mem_cons_self)]
    refine (ih (fun r hr => hreqs r (List.mem_cons_of_mem _ hr)) _).trans ?_
    congr 1
    funext k x
    by_cases hreq : Hits req k x <;> by_cases hrest : ∃ r ∈ reqs, Hits r k x <;>
      simp only [List.exists_mem_cons_iff, hreq, hrest, or_self, or_true, true_or, if_true,
        if_false]

/-- The reads write every element of the local chunks and nothing else. -/
theorem exists_hits_iff (hs : ∀ c ∈ saved.chunks, c.chunk.IsChunkOf shape)
    (hl : ∀ l ∈ localChunks, l.IsChunkOf shape)
    (hcover : ∀ g ∈ Box.localPoints shape, ∃ c ∈ saved.chunks,
      g ∈ Box.points (chunkToArea c.chunk)) :
    (∃ req ∈ readItems saved.fqn saved.metadataChunks localChunks true, Hits req k x) ↔
      ∃ l, localChunks[k]? = some l ∧ x ∈ Box.localPoints l.sizes := by
  constructor
  · rintro ⟨req, hreq, hk, hx⟩
    obtain ⟨i, l, j, c, d, r, hli, _, _, _, _, hrl, _, hne, hsub, _, rfl⟩ :=
      exists_of_mem_readItems hs hl hreq
    have hlmem := hl l (List.mem_of_getElem? hli)
    obtain ⟨hxlen, hxr⟩ := (Box.mem_points_relative hrl hne).1 hx
    obtain rfl := Option.some.inj hk
    exact ⟨l, hli, (Box.shift_mem_ofSizes (hlmem.length_sizes.trans hlmem.length_offsets.symm)
      hxlen).1 (hsub.subset hxr)⟩
  · rintro ⟨l, hli, hx⟩
    have hlmem := hl l (List.mem_of_getElem? hli)
    have hsl := hlmem.length_sizes.trans hlmem.length_offsets.symm
    have hxlen : x.length = l.offsets.length := hx.length_eq.trans hsl
    have hxl : Box.shift l.offsets x ∈ Box.points (chunkToArea l) :=
      (Box.shift_mem_ofSizes hsl hxlen).2 hx
    obtain ⟨c, hc, hxc⟩ := hcover _ (Box.mem_localPoints_of_within hlmem.within hxl)
    obtain ⟨j, hj⟩ := List.mem_iff_getElem?.1 (List.mem_map_of_mem (f := SavedChunk.chunk) hc)
    have hlen : (chunkToArea l).length = (chunkToArea c.chunk).length := by
      rw [length_area hlmem, length_area (hs c hc)]
    have hxr : Box.shift l.offsets x ∈
        Box.points (Box.inter (chunkToArea l) (chunkToArea c.chunk)) :=
      (Box.points_inter hlen) ▸ ⟨hxl, hxc⟩
    have hne := Box.nondegenerate_of_mem hxr
    refine ⟨_, mem_readItems.2 ⟨k, l, j, c.chunk, hli, hj, hne, rfl⟩, rfl, ?_⟩
    refine (Box.mem_points_relative (Box.above_inter_left hsl ?_ ?_) hne).2 ⟨hxlen, hxr⟩
    · rw [(hs c hc).length_offsets, hlmem.length_offsets]
    · rw [(hs c hc).length_sizes, hlmem.length_offsets]

/-- The overlaps lie in the chunks the lookups arrive at when no read leaves its tensor. -/
theorem holdsOverlaps_of_inside (hs : ∀ c ∈ saved.chunks, c.chunk.IsChunkOf shape)
    (hl : ∀ l ∈ localChunks, l.IsChunkOf shape)
    (h : ∀ req ∈ readItems saved.fqn saved.metadataChunks localChunks true,
      ∃ tensor, saved.storedTensor req.storageIndex = .ok tensor ∧
        Box.Within (Box.ofSizes req.storageOffsets req.lengths) tensor.shape) :
    saved.HoldsOverlaps localChunks := by
  intro l hlmem c hc d hd
  rw [← Box.points_inter (by rw [length_area (hl l hlmem), length_area (hs c hc)])]
  intro g hg
  have hne := Box.nondegenerate_of_mem hg
  obtain ⟨i, hi⟩ := List.mem_iff_getElem?.1 hlmem
  obtain ⟨j, hj⟩ := List.mem_iff_getElem?.1 (List.mem_map_of_mem (f := SavedChunk.chunk) hc)
  obtain ⟨tensor, htensor, hin⟩ := h _ (mem_readItems.2 ⟨i, l, j, c.chunk, hi, hj, hne, rfl⟩)
  rw [readItem, storedTensor_eq saved hd, Except.ok.injEq] at htensor
  obtain ⟨hdmem, hoff⟩ := lastAt_mem saved hd
  have hlc := hl l hlmem
  have hcc := hs c hc
  have hdc := hs d hdmem
  have habove : Box.Above (Box.inter (chunkToArea l) (chunkToArea c.chunk)) d.chunk.offsets := by
    rw [hoff, Box.inter_comm_of_length (by rw [length_area hlc, length_area hcc])]
    refine Box.above_inter_left (hcc.length_sizes.trans hcc.length_offsets.symm) ?_ ?_
    · rw [hcc.length_offsets, hlc.length_offsets]
    · rw [hcc.length_offsets, hlc.length_sizes]
  rw [← htensor, d.shape_eq, readItem, ← hoff,
    Box.within_relative_iff habove hne (hdc.length_sizes.trans hdc.length_offsets.symm)] at hin
  exact hin.subset hg

/-- The slices of every read stay inside the local and the stored chunk. -/
theorem inside_of_holdsOverlaps (hs : ∀ c ∈ saved.chunks, c.chunk.IsChunkOf shape)
    (hl : ∀ l ∈ localChunks, l.IsChunkOf shape) (hholds : saved.HoldsOverlaps localChunks)
    (hreq : req ∈ readItems saved.fqn saved.metadataChunks localChunks true) :
    (∃ tensor, saved.storedTensor req.storageIndex = .ok tensor ∧
        Box.Within (Box.ofSizes req.storageOffsets req.lengths) tensor.shape) ∧
      ∃ k localChunk, req.destIndex.index = some k ∧ localChunks[k]? = some localChunk ∧
        Box.Within (Box.ofSizes req.destOffsets req.lengths) localChunk.sizes := by
  obtain ⟨i, l, j, c, d, r, hli, hc, hd, hlast, hoff, hrl, hrc, hne, hsub, hpoints, rfl⟩ :=
    exists_of_mem_readItems hs hl hreq
  have hlmem := hl l (List.mem_of_getElem? hli)
  have hdmem := hs d hd
  have hlenr : r.length = d.chunk.offsets.length := hoff ▸ hrc.length_eq
  refine ⟨⟨d.tensor, storedTensor_eq saved hlast, ?_⟩, i, l, rfl, hli, ?_⟩
  · rw [readItem, d.shape_eq, ← hoff, Box.within_relative_iff (hoff ▸ hrc) hne
      (hdmem.length_sizes.trans hdmem.length_offsets.symm),
      ← Box.points_subset_iff _ hne, hpoints]
    · exact hholds l (List.mem_of_getElem? hli) c hc d hlast
    · exact (hlenr.trans hdmem.length_offsets).trans (length_area hdmem).symm
  · exact (Box.within_relative_iff hrl hne
      (hlmem.length_sizes.trans hlmem.length_offsets.symm)).2 hsub

end Run

/-- Reading a tensor back restores it exactly when every element a local chunk shares with a saved
chunk is in the chunk written last at the start offsets of the saved one. -/
theorem loadsCorrectly_iff (saved : SavedTensor α) (shape : List ℕ)
    (localChunks : List ChunkStorageMetadata) (G : List ℕ → α)
    (hs : ∀ c ∈ saved.chunks, c.chunk.IsChunkOf shape)
    (hl : ∀ l ∈ localChunks, l.IsChunkOf shape)
    (hcover : ∀ g ∈ Box.localPoints shape, ∃ c ∈ saved.chunks,
      g ∈ Box.points (chunkToArea c.chunk))
    (hdata : ∀ c ∈ saved.chunks, ∀ x ∈ Box.localPoints c.chunk.sizes,
      c.tensor.get x = G (Box.shift c.chunk.offsets x)) :
    saved.LoadsCorrectly localChunks G ↔ saved.HoldsOverlaps localChunks := by
  have hmeta : ∀ c ∈ saved.metadataChunks, c.IsChunkOf shape := fun c hc => by
    obtain ⟨d, hd, rfl⟩ := List.mem_map.1 hc
    exact hs d hd
  have hitems : createReadItemsForChunkList saved.fqn saved.metadataChunks localChunks =
      .ok (readItems saved.fqn saved.metadataChunks localChunks true) :=
    createReadItemsForChunkList_eq hmeta hl
  constructor
  · intro h
    exact holdsOverlaps_of_inside hs hl fun req hreq => (h.inside _ hitems req hreq).1
  · intro hholds
    refine ⟨fun reqs hreqs req hreq => ?_, _, hitems, fun order hperm => ?_⟩
    · obtain rfl := Except.ok.inj (hitems.symm.trans hreqs)
      exact inside_of_holdsOverlaps hs hl hholds hreq
    · refine ⟨_, executeRead_eq hs hl hdata hholds order (fun r hr => hperm.mem_iff.1 hr) _, ?_⟩
      intro k x
      have hhits := exists_hits_iff (k := k) (x := x) hs hl hcover
      simp only [hperm.mem_iff]
      split_ifs with h
      · obtain ⟨l, hli, hx⟩ := hhits.1 h
        simp [target, hli, hx]
      · cases hli : localChunks[k]? with
        | none => rfl
        | some l =>
          have hx : x ∉ Box.localPoints l.sizes := fun hx => h (hhits.2 ⟨l, hli, hx⟩)
          simp [hx]

/-- A tensor of five elements whose element `i` is `i`, saved in one piece for each rank: `o` and
`n` are the start and the size of a rank's piece. -/
def ofPieces (pieces : List (ℕ × ℕ))
    (h : (pieces.zipIdx.map fun p => (s!"_rank{p.2}_.safetensors", "w")).Nodup) :
    SavedTensor ℕ where
  fqn := "w"
  chunks := pieces.zipIdx.map fun p =>
    ⟨⟨[p.1.1], [p.1.2]⟩, ⟨s!"_rank{p.2}_.safetensors", 0, -1, some "w"⟩,
      ⟨[p.1.2], fun x => p.1.1 + x.headD 0⟩, rfl⟩
  nodup := by simpa [Function.comp_def, tensorKey] using h

theorem ofPieces_isChunkOf {pieces : List (ℕ × ℕ)} {h} (hp : ∀ p ∈ pieces, p.1 + p.2 ≤ 5) :
    ∀ c ∈ (ofPieces pieces h).chunks, c.chunk.IsChunkOf [5] := by
  intro c hc
  obtain ⟨⟨p, i⟩, hpi, rfl⟩ := List.mem_map.1 hc
  exact ⟨rfl, rfl, List.Forall₂.cons (hp p (List.fst_mem_of_mem_zipIdx hpi)) List.Forall₂.nil⟩

theorem ofPieces_data {pieces : List (ℕ × ℕ)} {h} :
    ∀ c ∈ (ofPieces pieces h).chunks, ∀ x ∈ Box.localPoints c.chunk.sizes,
      c.tensor.get x = (Box.shift c.chunk.offsets x).headD 0 := by
  intro c hc x hx
  obtain ⟨⟨p, i⟩, hpi, rfl⟩ := List.mem_map.1 hc
  cases x with
  | nil => exact absurd hx Box.nil_mem_localPoints_cons
  | cons t x => rfl

theorem ofPieces_cover {pieces : List (ℕ × ℕ)} {h}
    (hp : ∀ t < 5, ∃ p ∈ pieces, p.1 ≤ t ∧ t < p.1 + p.2) :
    ∀ g ∈ Box.localPoints [5], ∃ c ∈ (ofPieces pieces h).chunks,
      g ∈ Box.points (chunkToArea c.chunk) := by
  intro g hg
  obtain ⟨t, g', ht, hg', rfl⟩ := List.forall₂_cons_right_iff.1 hg
  obtain rfl := List.forall₂_nil_right_iff.1 hg'
  obtain ⟨p, hp, hlo, hhi⟩ := hp t ht
  obtain ⟨i, hi⟩ := List.mem_iff_getElem?.1 hp
  refine ⟨_, List.mem_map.2 ⟨(p, i), List.mem_zipIdx_iff_getElem?.2 hi, rfl⟩, ?_⟩
  exact List.Forall₂.cons ⟨hlo, hhi⟩ List.Forall₂.nil

/-- Two pieces read back across their border. -/
theorem loadsCorrectly_iff_two_pieces :
    (ofPieces [(0, 3), (3, 2)] (by decide)).LoadsCorrectly [⟨[2], [2]⟩] (·.headD 0) ↔
      (ofPieces [(0, 3), (3, 2)] (by decide)).HoldsOverlaps [⟨[2], [2]⟩] :=
  loadsCorrectly_iff _ [5] _ _ (ofPieces_isChunkOf (by decide))
    (by simpa using ⟨rfl, rfl, by decide⟩) (ofPieces_cover (by decide)) ofPieces_data

/-- Five elements split in two and each part in four by ceil chunks: the empty last piece of the
first part starts where the first piece of the second part does, and is written later. -/
theorem not_loadsCorrectly_eight_pieces :
    ¬ ∀ (saved : SavedTensor ℕ) (localChunks : List ChunkStorageMetadata) (G : List ℕ → ℕ),
      (∀ c ∈ saved.chunks, c.chunk.IsChunkOf [5]) → (∀ l ∈ localChunks, l.IsChunkOf [5]) →
      (∀ g ∈ Box.localPoints [5], ∃ c ∈ saved.chunks, g ∈ Box.points (chunkToArea c.chunk)) →
      (∀ c ∈ saved.chunks, ∀ x ∈ Box.localPoints c.chunk.sizes,
        c.tensor.get x = G (Box.shift c.chunk.offsets x)) →
      saved.LoadsCorrectly localChunks G := by
  intro h
  obtain ⟨reqs, hreqs, hrun⟩ := (h
    (ofPieces [(0, 1), (3, 1), (1, 1), (4, 1), (2, 1), (5, 0), (3, 0), (5, 0)] (by decide))
    [⟨[3], [1]⟩] (·.headD 0) (ofPieces_isChunkOf (by decide)) (by simpa using ⟨rfl, rfl, by decide⟩)
    (ofPieces_cover (by decide)) ofPieces_data).loaded
  obtain rfl := Except.ok.inj hreqs
  obtain ⟨buffers, hbuffers, -⟩ := hrun _ (List.Perm.refl _)
  cases hbuffers

end SavedTensor

end HyperParallel.Checkpoint
