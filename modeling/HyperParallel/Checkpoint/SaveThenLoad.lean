import HyperParallel.Checkpoint.ReadItemsCorrect
import HyperParallel.Checkpoint.SaveTensor

/-!
# Saved under one layout, loaded under another

The write plans of the ranks of one mesh and the reads of the ranks of another, for one distributed
tensor.

* `ShardedTensor.Stores`: the files hold the chunks that the ranks write, with their data;
* `Stores.holdsOverlaps`: no lookup of the reader arrives at another chunk;
* `Stores.restores`: every rank of the other mesh ends with its part of the tensor.
-/

namespace HyperParallel.Checkpoint

variable {α : Type*}

/-- The reads restore the local chunks when no lookup arrives at a chunk without the overlap. -/
theorem loads_of_holdsOverlaps {saved : SavedTensor α} {shape : List ℕ}
    {localChunks : List ChunkStorageMetadata} {G : List ℕ → α}
    (hs : ∀ c ∈ saved.chunks, c.chunk.IsChunkOf shape) (hl : ∀ l ∈ localChunks, l.IsChunkOf shape)
    (hcover : ∀ g ∈ Box.localPoints shape, ∃ c ∈ saved.chunks, g ∈ Box.points (chunkToArea c.chunk))
    (hdata : ∀ c ∈ saved.chunks, ∀ x ∈ Box.localPoints c.chunk.sizes,
      c.tensor.get x = G (Box.shift c.chunk.offsets x))
    (hholds : saved.HoldsOverlaps localChunks) : saved.LoadsCorrectly localChunks G := by
  have hmeta : ∀ c ∈ saved.metadataChunks, c.IsChunkOf shape :=
    List.forall_mem_map.2 hs
  have hitems := @createReadItemsForChunkList_eq saved.fqn true _ _ _ hmeta hl
  refine ⟨fun reqs hreqs req hreq => ?_, _, hitems, fun order hperm => ⟨_,
    SavedTensor.executeRead_eq hs hl hdata hholds order (fun r hr => hperm.mem_iff.1 hr) _, ?_⟩⟩
  · obtain rfl := Except.ok.inj (hitems.symm.trans hreqs)
    exact SavedTensor.inside_of_holdsOverlaps hs hl hholds hreq
  · intro k x
    have hhits := SavedTensor.exists_hits_iff (k := k) (x := x) hs hl hcover
    simp only [hperm.mem_iff]
    split_ifs with h
    · obtain ⟨l, hli, hx⟩ := hhits.1 h
      rw [SavedTensor.target, hli, Option.map_some, Option.bind_some, if_pos hx]
    · cases hli : localChunks[k]? with
      | none => rfl
      | some l => exact (if_neg fun hx => h (hhits.2 ⟨l, hli, hx⟩)).symm

namespace ShardedTensor

/-- The files after a save: the chunks that the ranks write, with their parts of the tensor. -/
structure Stores (t : ShardedTensor) (results : ℕ → SavePlan × SaveMetadata)
    (saved : SavedTensor α) (G : List ℕ → α) : Prop where
  fqn_eq : saved.fqn = t.fqn
  chunks_eq : saved.metadataChunks = t.chunksWritten results
  data : ∀ c ∈ saved.chunks, ∀ x ∈ Box.localPoints c.chunk.sizes,
    c.tensor.get x = G (Box.shift c.chunk.offsets x)

section Chunks

variable {t : ShardedTensor}

theorem isChunkOf_localChunk (t : ShardedTensor) (rank : ℕ) :
    (t.localChunk rank).IsChunkOf t.shape := by
  have hwithin := (slice_within (t := t) rank).1
  have hlength : (t.slice rank).length = t.shape.length := hwithin.length_eq
  refine ⟨?_, ?_, ?_⟩
  · rw [localChunk, List.length_map, hlength]
  · rw [localChunk, Box.lengths, List.length_map, hlength]
  · rwa [chunkToArea_localChunk]

variable {rest : t.Rest} {nameMapping : ℕ → Option NameMapping}
  {saveToMinimumRank flattened : Bool} {results : ℕ → SavePlan × SaveMetadata}

/-- What is written is the chunk of some rank. -/
theorem exists_rank_of_mem_chunksWritten
    (hsaves : rest.Saves nameMapping saveToMinimumRank flattened results)
    {chunk : ChunkStorageMetadata} (h : chunk ∈ t.chunksWritten results) :
    ∃ rank < t.worldSize, chunk = t.localChunk rank := by
  obtain ⟨plans, hmapM, hglobal⟩ := hsaves
  have hplans := plans_of_mapM hmapM
  rw [(chunksWritten_eq hplans hglobal).1, writtenChunks, List.mem_filterMap] at h
  obtain ⟨item, hitem, hchunk⟩ := h
  have hfqn : item.index.fqn = t.fqn := by
    unfold chunkOf at hchunk
    split at hchunk
    · split_ifs at hchunk with hname
      exact hname
    · cases hchunk
  obtain ⟨slot, hslot⟩ := exists_itemAt_of_kept hitem
  obtain ⟨hlt, rfl⟩ := eq_localItem hplans hslot hfqn
  rw [chunkOf_localItem, Option.some.injEq] at hchunk
  exact ⟨slot.1, hlt, hchunk.symm⟩

end Chunks

namespace Stores

variable {t : ShardedTensor} {rest : t.Rest} {nameMapping : ℕ → Option NameMapping}
  {saveToMinimumRank flattened : Bool} {results : ℕ → SavePlan × SaveMetadata}
  {saved : SavedTensor α} {G : List ℕ → α}

theorem exists_rank (h : t.Stores results saved G)
    (hsaves : rest.Saves nameMapping saveToMinimumRank flattened results)
    {c : SavedChunk α} (hc : c ∈ saved.chunks) :
    ∃ rank < t.worldSize, c.chunk = t.localChunk rank :=
  exists_rank_of_mem_chunksWritten hsaves (h.chunks_eq ▸ List.mem_map_of_mem hc)

theorem isChunkOf (h : t.Stores results saved G)
    (hsaves : rest.Saves nameMapping saveToMinimumRank flattened results) :
    ∀ c ∈ saved.chunks, c.chunk.IsChunkOf t.shape := by
  intro c hc
  obtain ⟨rank, -, hchunk⟩ := h.exists_rank hsaves hc
  exact hchunk ▸ isChunkOf_localChunk t rank

theorem cover (h : t.Stores results saved G) (hwritten : t.WrittenOnce results) :
    ∀ g ∈ Box.localPoints t.shape, ∃ c ∈ saved.chunks, g ∈ Box.points (chunkToArea c.chunk) := by
  intro g hg
  obtain ⟨chunk, hchunk, hmem⟩ := hwritten.cover g hg
  rw [← h.chunks_eq] at hchunk
  obtain ⟨c, hc, rfl⟩ := List.mem_map.1 hchunk
  exact ⟨c, hc, hmem⟩

/-- Chunks with one start that hold elements are the same chunk. -/
theorem holdsOverlaps (h : t.Stores results saved G)
    (hsaves : rest.Saves nameMapping saveToMinimumRank flattened results)
    (hapart : t.EmptyShardsApart) (localChunks : List ChunkStorageMetadata) :
    saved.HoldsOverlaps localChunks := by
  rintro l - c hc d hlast g ⟨-, hg⟩
  obtain ⟨hd, hoffsets⟩ := lastAt_mem saved hlast
  obtain ⟨rank, hrank, hcrank⟩ := h.exists_rank hsaves hc
  obtain ⟨rank', hrank', hdrank⟩ := h.exists_rank hsaves hd
  rw [hcrank] at hg hoffsets
  rw [hdrank] at hoffsets ⊢
  have hne' := hapart rank hrank rank' hrank' hoffsets.symm ⟨g, hg⟩
  have hne : (Box.points (chunkToArea (t.localChunk rank))).Nonempty := ⟨g, hg⟩
  rw [chunkToArea_localChunk] at hne hne'
  rwa [← localChunk_eq_of_offsets hoffsets.symm hne hne']

/-- A tensor that is saved under one layout and loaded under another is restored on every rank. -/
theorem restores (h : t.Stores results saved G)
    (hsaves : rest.Saves nameMapping saveToMinimumRank flattened results)
    (hapart : t.EmptyShardsApart) (destination : ShardedTensor)
    (hshape : destination.shape = t.shape) (rank : ℕ) :
    saved.LoadsCorrectly [destination.localChunk rank] G := by
  have hs := h.isChunkOf hsaves
  have hl : ∀ l ∈ [destination.localChunk rank], l.IsChunkOf t.shape := by
    rw [List.forall_mem_singleton, ← hshape]
    exact isChunkOf_localChunk destination rank
  have hcover := h.cover (writtenOnce_of_emptyShardsApart hapart hsaves)
  have hholds := h.holdsOverlaps hsaves hapart [destination.localChunk rank]
  exact loads_of_holdsOverlaps hs hl hcover h.data hholds

end Stores

/-- Four elements over a mesh of the given size. -/
def weightOn (n : ℕ) (hn : 0 < n) : ShardedTensor where
  fqn := "w"
  dtype := "float32"
  shape := [4]
  layout := ⟨[n], [.axes [0]], [], List.range n⟩
  mesh_pos := by simpa using hn
  isTensorMap := ⟨by simp [DTensor.TensorMapping.mappedDims],
    by simp [DTensor.TensorMapping.mappedDims]⟩
  length_tensorMap := rfl
  rankList := by simp

/-- Halves of the weight in two files. -/
def halves : SavedTensor ℕ where
  fqn := "w"
  chunks := [⟨⟨[0], [2]⟩, ⟨"_rank0_.safetensors", 0, -1, some "w"⟩, ⟨[2], fun x => 0 + x.headD 0⟩, rfl⟩,
    ⟨⟨[2], [2]⟩, ⟨"_rank1_.safetensors", 0, -1, some "w"⟩, ⟨[2], fun x => 2 + x.headD 0⟩, rfl⟩]
  nodup := by decide

def weightAlone : (weightOn 2 two_pos).Rest := ⟨fun _ => [], fun _ => [], by simp, by simp⟩

/-- What the planners of the two ranks return. -/
def weightResults (rank : ℕ) : SavePlan × SaveMetadata :=
  ((StandardSavePlanner.buildGlobalPlan rank ⟨true, false⟩ false ((List.range 2).map fun rank =>
    ⟨[(weightOn 2 two_pos).localItem rank], none⟩)).toOption).getD ⟨⟨[], none⟩, [], none, none⟩

/-- Saved by two ranks, loaded by four. -/
theorem restores_halves :
    weightAlone.Saves (fun _ => none) false false weightResults ∧
      (weightOn 2 two_pos).Stores weightResults halves (·.headD 0) ∧
      halves.LoadsCorrectly [(weightOn 4 four_pos).localChunk 3] (·.headD 0) := by
  have hsaves : weightAlone.Saves (fun _ => none) false false weightResults :=
    ⟨_, rfl, by decide +kernel⟩
  have hstores : (weightOn 2 two_pos).Stores weightResults halves (·.headD 0) := by
    refine ⟨rfl, by decide +kernel, ?_⟩
    intro c hc x hx
    rw [halves, List.mem_cons, List.mem_singleton] at hc
    rcases hc with rfl | rfl
    all_goals
      cases x with
      | nil => exact absurd hx Box.nil_mem_localPoints_cons
      | cons t x => rfl
  have hapart : (weightOn 2 two_pos).EmptyShardsApart := by
    have hnondegenerate : ∀ rank' < 2,
        Box.Nondegenerate ((weightOn 2 two_pos).slice rank') := by decide
    intro rank _ rank' hrank' _ _
    rw [chunkToArea_localChunk, Box.nonempty_iff]
    exact hnondegenerate rank' hrank'
  exact ⟨hsaves, hstores, hstores.restores hsaves hapart (weightOn 4 four_pos) rfl 3⟩

end ShardedTensor

end HyperParallel.Checkpoint
