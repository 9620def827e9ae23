import HyperParallel.Lib.Region
import HyperParallel.Lib.FlatBuffer
import HyperParallel.WeightSync.DirectReshard

/-!
# The buckets of a direct reshard

* `TransferEntry.Copies`: the places an entry copies between;
* `transferEntry_copies`, `splitEntry_spec`: they are the common points of two regions, and tiles
  keep them;
* `TransferBucket.Laid`, `bucketize_spec`: aligned entries without overlap, within the limit;
* `packDirectBucket_ok`, `applyDirectBucket_ok`: what a delivered bucket leaves at every place.
-/

open MixedRadix

namespace HyperParallel.WeightSync

/-! ### Axes in another order -/

section Permuted

variable {axes x y lengths : List ℕ} {n : ℕ}

/-- The axes in their first order again. -/
def unpermuted (axes y : List ℕ) : List ℕ :=
  (List.range axes.length).map fun axis => y.getD (axes.idxOf axis) 0

theorem getD_unpermuted {k : ℕ} (hk : k < axes.length) :
    (unpermuted axes y).getD k 0 = y.getD (axes.idxOf k) 0 := by
  rw [unpermuted, List.getD_eq_getElem _ _ (by rw [List.length_map, List.length_range]; exact hk),
    List.getElem_map, List.getElem_range]

theorem permuted_perm (h : axes.Perm (List.range x.length)) : (Region.permuted axes x).Perm x := by
  have hperm := h.map fun axis => x.getD axis 0
  rw [Intervals.map_getD_range x 0] at hperm
  exact hperm

theorem unpermuted_permuted (h : axes.Perm (List.range x.length)) :
    unpermuted axes (Region.permuted axes x) = x := by
  have hlength : axes.length = x.length := by rw [h.length_eq, List.length_range]
  apply List.ext_getElem
  · rw [unpermuted, List.length_map, List.length_range, hlength]
  · intro axis _ haxis
    have hmem : axis ∈ axes := h.mem_iff.2 (List.mem_range.2 haxis)
    have hlt := List.idxOf_lt_length_of_mem hmem
    simp only [unpermuted, Region.permuted, List.getElem_map, List.getElem_range]
    rw [List.getD_eq_getElem _ _ (by rw [List.length_map]; exact hlt), List.getElem_map,
      List.getElem_idxOf hlt, List.getD_eq_getElem _ _ haxis]

theorem permuted_unpermuted (h : axes.Perm (List.range n)) (hy : y.length = n) :
    Region.permuted axes (unpermuted axes y) = y := by
  have hlength : axes.length = n := by rw [h.length_eq, List.length_range]
  have hnodup : axes.Nodup := h.nodup_iff.2 List.nodup_range
  apply List.ext_getElem
  · rw [Region.permuted, List.length_map, hlength, hy]
  · intro i hi hi'
    have hi'' : i < axes.length := by rw [hlength, ← hy]; exact hi'
    have haxis : axes[i] < axes.length := by
      rw [hlength]
      exact List.mem_range.1 (h.mem_iff.1 (List.getElem_mem hi''))
    simp only [Region.permuted, List.getElem_map]
    rw [getD_unpermuted haxis, hnodup.idxOf_getElem i hi'', List.getD_eq_getElem _ _ hi']

theorem valid_iff_getD : Valid lengths x ↔
    x.length = lengths.length ∧ ∀ i < lengths.length, x.getD i 0 < lengths.getD i 0 := by
  rw [Valid, List.forall₂_iff_get]
  refine and_congr_right fun hlength => ⟨fun h i hi => ?_, fun h i hi hi' => ?_⟩
  · rw [List.getD_eq_getElem _ _ (hlength ▸ hi), List.getD_eq_getElem _ _ hi]
    exact h i (hlength ▸ hi) hi
  · have := h i hi'
    rwa [List.getD_eq_getElem _ _ hi, List.getD_eq_getElem _ _ hi'] at this

theorem valid_permuted (h : axes.Perm (List.range lengths.length)) (hx : x.length = lengths.length) :
    Valid (Region.permuted axes lengths) (Region.permuted axes x) ↔ Valid lengths x := by
  rw [Valid, Region.permuted, Region.permuted, List.forall₂_map_left_iff,
    List.forall₂_map_right_iff, List.forall₂_same, valid_iff_getD]
  refine ⟨fun hall => ⟨hx, fun i hi => hall i (h.mem_iff.2 (List.mem_range.2 hi))⟩,
    fun hall i hi => hall.2 i (List.mem_range.1 (h.mem_iff.1 hi))⟩

end Permuted

/-! ### What an entry copies -/

/-- The entry copies the source place `q` to the destination place `q'`. -/
def TransferEntry.Copies (e : TransferEntry) (q q' : List ℕ) : Prop :=
  ∃ x, Valid e.lengths x ∧ q = Region.shift e.sourceStarts x ∧
    q' = Region.shift e.destinationStarts (Region.permuted e.physicalPermutation x)

/-- The place of a coordinate in the shard of a source. -/
def SourceTensorLayout.place (s : SourceTensorLayout) (p : List ℕ) : List ℕ :=
  Region.shift s.localStarts (Region.offset p (s.region.map Prod.fst))

/-- The place of a coordinate in the parameter of a destination. -/
def DestinationTensorLayout.place (d : DestinationTensorLayout) (p : List ℕ) : List ℕ :=
  Region.shift d.localStarts
    (Region.permuted d.physicalPermutation (Region.offset p (d.region.map Prod.fst)))

/-- One number for every axis. -/
structure TransferEntry.Formed (e : TransferEntry) : Prop where
  elementSize_pos : 0 < e.elementSize
  permutation : e.physicalPermutation.Perm (List.range e.lengths.length)
  sourceStarts : e.sourceStarts.length = e.lengths.length
  destinationStarts : e.destinationStarts.length = e.lengths.length
  lengths_pos : ∀ n ∈ e.lengths, 0 < n

/-- The entries are about the same tensor. -/
structure TransferEntry.SameTensor (f e : TransferEntry) : Prop where
  name : f.name = e.name
  dtypeName : f.dtypeName = e.dtypeName
  elementSize : f.elementSize = e.elementSize
  targetName : f.targetName = e.targetName
  sourceKey : f.sourceKey = e.sourceKey
  physicalPermutation : f.physicalPermutation = e.physicalPermutation
  destinationDtypeName : f.destinationDtypeName = e.destinationDtypeName
  destinationElementSize : f.destinationElementSize = e.destinationElementSize

theorem TransferEntry.SameTensor.refl (e : TransferEntry) : e.SameTensor e :=
  ⟨rfl, rfl, rfl, rfl, rfl, rfl, rfl, rfl⟩

section Entry

variable {s : SourceTensorLayout} {d : DestinationTensorLayout} {region : Region}
  {e : TransferEntry} {q q' : List ℕ}

theorem intersectRegions_eq_some {r r' : Region} :
    intersectRegions r r' = some region ↔ ¬ (Region.inter r r').Empty ∧
      region = Region.inter r r' := by
  rw [intersectRegions]
  split_ifs with h
  · exact iff_of_false nofun fun h' => h'.1 h
  · exact ⟨fun h' => ⟨h, (Option.some.inj h').symm⟩, fun h' => congrArg some h'.2.symm⟩

/-- The entry of two layouts copies the common points of their regions, each from its place to its
place. -/
theorem transferEntry_copies (hrank : s.region.length = d.region.length) :
    (transferEntry s d (Region.inter s.region d.region)).Copies q q' ↔
      ∃ p, Region.Mem s.region p ∧ Region.Mem d.region p ∧ q = s.place p ∧ q' = d.place p := by
  obtain ⟨hs, hd⟩ := Region.starts_le_inter hrank
  have hlength := Region.length_inter hrank
  have hplaces : ∀ x, Valid ((Region.inter s.region d.region).map Prod.snd) x →
      Region.shift (transferEntry s d (Region.inter s.region d.region)).sourceStarts x =
        s.place (Region.shift ((Region.inter s.region d.region).map Prod.fst) x) ∧
      Region.shift (transferEntry s d (Region.inter s.region d.region)).destinationStarts
          (Region.permuted d.physicalPermutation x) =
        d.place (Region.shift ((Region.inter s.region d.region).map Prod.fst) x) := by
    intro x hx
    have hxlength : ((Region.inter s.region d.region).map Prod.fst).length = x.length := by
      rw [hx.length_eq, List.length_map, List.length_map]
    have hoffset : ∀ o : List ℕ, o.length = (Region.inter s.region d.region).length →
        (Region.offset ((Region.inter s.region d.region).map Prod.fst) o).length = x.length := by
      intro o ho
      rw [Region.offset, List.length_zipWith, List.length_map, ho, min_self, ← hxlength,
        List.length_map]
    constructor
    · rw [SourceTensorLayout.place, Region.offset_shift hs hxlength]
      exact Region.shift_shift _ _ _
    · rw [DestinationTensorLayout.place, Region.offset_shift hd hxlength,
        Region.permuted_shift (hoffset _ (by rw [List.length_map, hlength, hrank]))]
      exact Region.shift_shift _ _ _
  constructor
  · rintro ⟨x, hx, rfl, rfl⟩
    have hp := Region.mem_iff_shift.2 ⟨x, hx, rfl⟩
    obtain ⟨hps, hpd⟩ := (Region.mem_inter hrank).1 hp
    exact ⟨_, hps, hpd, (hplaces x hx).1, (hplaces x hx).2⟩
  · rintro ⟨p, hps, hpd, rfl, rfl⟩
    obtain ⟨x, hx, rfl⟩ := Region.mem_iff_shift.1 ((Region.mem_inter hrank).2 ⟨hps, hpd⟩)
    exact ⟨x, hx, (hplaces x hx).1.symm, (hplaces x hx).2.symm⟩

theorem formed_transferEntry (hrank : s.region.length = d.region.length)
    (hmeet : ¬ (Region.inter s.region d.region).Empty) :
    (transferEntry s d (Region.inter s.region d.region)).Formed := by
  have hlength := Region.length_inter hrank
  have hs : s.region.length = s.globalShape.length := List.Forall₂.length_eq s.inside
  have hd : d.region.length = d.globalShape.length := List.Forall₂.length_eq d.inside
  refine ⟨s.elementSize_pos, ?_, ?_, ?_, ?_⟩
  · change d.physicalPermutation.Perm
      (List.range ((Region.inter s.region d.region).map Prod.snd).length)
    rw [List.length_map, hlength, hrank, hd]
    exact d.permutation
  · change (List.zipWith _ _ (List.zipWith _ _ _)).length = (List.map _ _).length
    simp only [List.length_zipWith, List.length_map, hlength, s.localStarts_length, ← hs, min_self]
  · change (List.zipWith _ _ (List.map _ _)).length = (List.map _ _).length
    simp only [List.length_zipWith, List.length_map, hlength, d.localStarts_length,
      d.permutation.length_eq, List.length_range, ← hd, hrank, min_self]
  · exact List.forall_mem_map.2 fun i hi => Nat.pos_of_ne_zero fun h0 => hmeet ⟨i, hi, h0⟩

/-- A region that starts at 0 is its shape. -/
theorem mem_zero_iff {lengths x : List ℕ} :
    Region.Mem (lengths.map (0, ·)) x ↔ Valid lengths x := by
  rw [Region.Mem, List.forall₂_map_right_iff, Valid]
  refine ⟨fun h => h.imp fun _ _ h => by omega, fun h => h.imp fun _ _ h => by omega⟩

theorem tileRegion_spec {lengths : List ℕ} {limit : ℕ} {tiles : List Region}
    (hlengths : ∀ n ∈ lengths, 0 < n) (h : tileRegion (lengths.map (0, ·)) e.elementSize limit = .ok tiles) :
    (∀ x, (∃ t ∈ tiles, Region.Mem t x) ↔ Valid lengths x) ∧
      ∀ t ∈ tiles, Region.numel t * e.elementSize ≤ limit ∧ t.length = lengths.length ∧
        ∀ n ∈ t.map Prod.snd, 0 < n := by
  rw [tileRegion] at h
  have hsnd : List.map Prod.snd (lengths.map ((0, ·) : ℕ → ℕ × ℕ)) = lengths := by
    rw [List.map_map]
    exact List.map_id _
  have hbytes : ∀ k, k ≤ limit / e.elementSize → k * e.elementSize ≤ limit := fun k hk =>
    (Nat.mul_le_mul_right _ hk).trans (Nat.div_mul_le_self _ _)
  split_ifs at h with hzero hfits
  · obtain rfl := Except.ok.inj h
    refine ⟨fun x => ?_, fun t ht => ?_⟩
    · rw [← mem_zero_iff]
      exact ⟨fun ⟨t, ht, hx⟩ => List.mem_singleton.1 ht ▸ hx,
        fun hx => ⟨_, List.mem_singleton_self _, hx⟩⟩
    · rw [List.mem_singleton.1 ht, List.length_map, hsnd]
      exact ⟨hbytes _ hfits, rfl, hlengths⟩
  · obtain rfl := Except.ok.inj h
    obtain ⟨hleft, hsizes, hlength, hprod⟩ :=
      Region.tileSizes_spec (Nat.pos_of_ne_zero hzero) hlengths
    rw [hsnd]
    have hlength' : (Region.tileSizes (limit / e.elementSize) lengths).1.length =
        (lengths.map ((0, ·) : ℕ → ℕ × ℕ)).length := by rw [hlength, List.length_map]
    refine ⟨fun x => ?_, fun t ht => ⟨hbytes _ ?_, ?_, ?_⟩⟩
    · rw [← mem_zero_iff]
      exact Region.exists_tile_iff hsizes hlength'
    · calc Region.numel t ≤ (Region.tileSizes (limit / e.elementSize) lengths).1.prod :=
          Region.numel_le_of_mem_tiles hlength' ht
        _ ≤ _ := Nat.le_mul_of_pos_right _ hleft
        _ ≤ limit / e.elementSize := hprod
    · rw [Region.length_of_mem_tiles hlength' ht, List.length_map]
    · exact List.forall_mem_map.2 (Region.pos_of_mem_tiles hsizes hlength' ht)

/-- A tile of an entry copies what the entry copies there. -/
theorem tile_copies (t : Region) :
    (e.tile t).Copies q q' ↔ ∃ x, Region.Mem t x ∧ q = Region.shift e.sourceStarts x ∧
      q' = Region.shift e.destinationStarts (Region.permuted e.physicalPermutation x) := by
  have hlength : ∀ y, Valid (t.map Prod.snd) y → (t.map Prod.fst).length = y.length := by
    intro y hy
    rw [hy.length_eq, List.length_map, List.length_map]
  constructor
  · rintro ⟨y, hy, rfl, rfl⟩
    refine ⟨_, Region.mem_iff_shift.2 ⟨y, hy, rfl⟩, Region.shift_shift _ _ _, ?_⟩
    rw [Region.permuted_shift (hlength y hy)]
    exact Region.shift_shift _ _ _
  · rintro ⟨x, hx, rfl, rfl⟩
    obtain ⟨y, hy, rfl⟩ := Region.mem_iff_shift.1 hx
    refine ⟨y, hy, (Region.shift_shift _ _ _).symm, ?_⟩
    rw [Region.permuted_shift (hlength y hy)]
    exact (Region.shift_shift _ _ _).symm

/-- The fragments of an entry copy together what it copies, and each of them fits. -/
theorem splitEntry_spec (he : e.Formed) (hoffset : e.bufferOffset = 0) {limit : ℕ}
    {fragments : List TransferEntry} (h : splitEntry limit e = .ok fragments) :
    (∀ q q', (∃ f ∈ fragments, f.Copies q q') ↔ e.Copies q q') ∧
      ∀ f ∈ fragments, f.numBytes ≤ limit ∧ f.bufferOffset = 0 ∧ f.Formed ∧ f.SameTensor e := by
  rw [splitEntry] at h
  obtain ⟨tiles, htiles, h⟩ := ExceptList.bind_eq_ok.1 h
  obtain ⟨hcover, hbound⟩ := tileRegion_spec he.lengths_pos htiles
  split_ifs at h with hone
  · obtain rfl := Except.ok.inj h
    have hsnd : List.map Prod.snd (e.lengths.map ((0, ·) : ℕ → ℕ × ℕ)) = e.lengths := by
      rw [List.map_map]
      exact List.map_id _
    refine ⟨fun q q' => ⟨fun ⟨f, hf, hc⟩ => List.mem_singleton.1 hf ▸ hc,
      fun hc => ⟨e, List.mem_singleton_self e, hc⟩⟩, fun f hf => ?_⟩
    obtain rfl := List.mem_singleton.1 hf
    have hfits := (hbound _ (hone ▸ List.mem_singleton_self _)).1
    rw [Region.numel, hsnd] at hfits
    exact ⟨hfits, hoffset, he, .refl f⟩
  · obtain rfl := Except.ok.inj h
    refine ⟨fun q q' => ?_, fun f hf => ?_⟩
    · constructor
      · rintro ⟨f, hf, hc⟩
        obtain ⟨t, ht, rfl⟩ := List.mem_map.1 hf
        obtain ⟨x, hx, hq, hq'⟩ := (tile_copies t).1 hc
        exact ⟨x, (hcover x).1 ⟨t, ht, hx⟩, hq, hq'⟩
      · rintro ⟨x, hx, hq, hq'⟩
        obtain ⟨t, ht, hxt⟩ := (hcover x).2 hx
        exact ⟨e.tile t, List.mem_map_of_mem ht,
          (tile_copies t).2 ⟨x, hxt, hq, hq'⟩⟩
    · obtain ⟨t, ht, rfl⟩ := List.mem_map.1 hf
      obtain ⟨hfits, hlength, hpos⟩ := hbound t ht
      have hlengths : (e.tile t).lengths.length = e.lengths.length := by
        change (List.map _ _).length = _
        rw [List.length_map, hlength]
      refine ⟨hfits, rfl, ⟨he.elementSize_pos, ?_, ?_, ?_, hpos⟩,
        ⟨rfl, rfl, rfl, rfl, rfl, rfl, rfl, rfl⟩⟩
      · rw [hlengths]
        exact he.permutation
      · rw [hlengths]
        change (List.zipWith _ _ (List.map _ _)).length = _
        rw [List.length_zipWith, List.length_map, he.sourceStarts, hlength, min_self]
      · rw [hlengths]
        change (List.zipWith _ _ (List.map _ _)).length = _
        rw [List.length_zipWith, List.length_map, he.destinationStarts, he.permutation.length_eq,
          List.length_range, min_self]

end Entry

/-! ### Buckets -/

/-- Aligned entries, one behind the other, within the limit. -/
structure TransferBucket.Laid (limit : ℕ) (bucket : TransferBucket) : Prop where
  aligned : ∀ e ∈ bucket.entries, e.elementSize ∣ e.bufferOffset
  disjoint : bucket.entries.Pairwise fun a b => a.bufferOffset + a.numBytes ≤ b.bufferOffset
  fits : ∀ e ∈ bucket.entries, e.bufferOffset + e.numBytes ≤ bucket.totalBytes
  bounded : bucket.totalBytes ≤ limit

/-- The loop of `_bucketize` after some entries. -/
structure FillState.Filled (limit : ℕ) (entries : List TransferEntry) (s : FillState) : Prop where
  entries_eq : ((s.buckets.flatMap TransferBucket.entries) ++ s.current).map
    (·.withBufferOffset 0) = entries
  laid : ∀ bucket ∈ s.buckets, bucket.Laid limit
  current : TransferBucket.Laid limit ⟨s.current, s.size⟩
  size_zero : s.current = [] → s.size = 0

section Buckets

variable {limit : ℕ} {entries : List TransferEntry} {s : FillState} {e : TransferEntry}

theorem laid_nil (limit : ℕ) : TransferBucket.Laid limit ⟨[], 0⟩ where
  aligned := fun _ h => absurd h List.not_mem_nil
  disjoint := .nil
  fits := fun _ h => absurd h List.not_mem_nil
  bounded := Nat.zero_le _

/-- An entry behind the others of a bucket. -/
theorem TransferBucket.Laid.snoc {bucket : TransferBucket} (h : bucket.Laid limit) {offset : ℕ}
    (hdvd : e.elementSize ∣ offset) (hoffset : bucket.totalBytes ≤ offset)
    (hfits : offset + e.numBytes ≤ limit) :
    TransferBucket.Laid limit
      ⟨bucket.entries ++ [e.withBufferOffset offset], offset + e.numBytes⟩ where
  aligned := by
    intro f hf
    rcases List.mem_append.1 hf with hf | hf
    · exact h.aligned f hf
    · rw [List.mem_singleton.1 hf]
      exact hdvd
  disjoint := by
    refine List.pairwise_append.2 ⟨h.disjoint, List.pairwise_singleton _ _, fun f hf g hg => ?_⟩
    rw [List.mem_singleton.1 hg]
    exact (h.fits f hf).trans hoffset
  fits := by
    intro f hf
    rcases List.mem_append.1 hf with hf | hf
    · exact (h.fits f hf).trans (hoffset.trans (Nat.le_add_right _ _))
    · rw [List.mem_singleton.1 hf]
      exact Nat.le_refl _
  bounded := hfits

theorem FillState.Filled.add (hs : s.Filled limit entries) (hsize : 0 < e.elementSize)
    (hfits : e.numBytes ≤ limit) (hoffset : e.bufferOffset = 0) :
    ∃ s', s.add limit e = .ok s' ∧ s'.Filled limit (entries ++ [e]) := by
  have hplace : ∀ offset, (e.withBufferOffset offset).withBufferOffset 0 = e := by
    intro offset
    rw [← hoffset]
    rfl
  have hle := le_alignedOffset s.size hsize
  rw [FillState.add, if_neg (Nat.not_lt.2 hfits)]
  dsimp only
  split_ifs with hfull
  · refine ⟨_, rfl, ?_, ?_, ?_, fun h => absurd h (List.cons_ne_nil _ _)⟩
    · rw [List.flatMap_append, List.flatMap_singleton, List.map_append, hs.entries_eq,
        List.map_singleton, hplace]
    · intro bucket hbucket
      rcases List.mem_append.1 hbucket with hbucket | hbucket
      · exact hs.laid bucket hbucket
      · rw [List.mem_singleton.1 hbucket]
        exact hs.current
    · have hfirst := (laid_nil limit).snoc (e := e) (dvd_zero _) (Nat.le_refl 0)
        (by rw [Nat.zero_add]; exact hfits)
      rwa [Nat.zero_add] at hfirst
  · refine ⟨_, rfl, ?_, hs.laid, ?_, fun h => absurd h (by simp)⟩
    · rw [← List.append_assoc, List.map_append, hs.entries_eq, List.map_singleton, hplace]
    · refine hs.current.snoc (dvd_alignedOffset _ _) hle ?_
      by_cases hnil : s.current = []
      · rw [hs.size_zero hnil, alignedOffset_zero hsize, Nat.zero_add]
        exact hfits
      · by_contra hlt
        exact hfull ⟨hnil, by omega⟩

/-- The buckets hold the entries in order, each of them laid out. -/
theorem bucketize_spec {entries : List TransferEntry} (h : ∀ e ∈ entries, 0 < e.elementSize ∧
    e.numBytes ≤ limit ∧ e.bufferOffset = 0) :
    ∃ buckets, bucketize limit entries = .ok buckets ∧ (∀ bucket ∈ buckets, bucket.Laid limit) ∧
      (buckets.flatMap TransferBucket.entries).map (·.withBufferOffset 0) = entries := by
  have hrun : ∀ rest front s, FillState.Filled limit front s → (∀ e ∈ rest, 0 < e.elementSize ∧
      e.numBytes ≤ limit ∧ e.bufferOffset = 0) →
      ∃ s', rest.foldlM (FillState.add limit) s = .ok s' ∧
        FillState.Filled limit (front ++ rest) s' := by
    intro rest
    induction rest with
    | nil => exact fun front s hs _ => ⟨s, rfl, by rwa [List.append_nil]⟩
    | cons e rest ih =>
      intro front s hs hall
      obtain ⟨hsize, hfits, hoffset⟩ := hall e List.mem_cons_self
      obtain ⟨s₁, hadd, hs₁⟩ := hs.add hsize hfits hoffset
      obtain ⟨s₂, hfold, hs₂⟩ := ih _ s₁ hs₁ fun f hf => hall f (List.mem_cons_of_mem _ hf)
      refine ⟨s₂, ?_, ?_⟩
      · rw [List.foldlM_cons, hadd]
        exact hfold
      · rwa [List.append_assoc, List.singleton_append] at hs₂
  obtain ⟨s, hfold, hs⟩ := hrun entries [] ⟨[], [], 0⟩
    ⟨rfl, fun _ h => absurd h List.not_mem_nil, laid_nil limit, fun _ => rfl⟩ h
  rw [List.nil_append] at hs
  refine ⟨s.finish, by rw [bucketize, hfold]; rfl, ?_⟩
  rw [FillState.finish]
  split_ifs with hnil
  · refine ⟨hs.laid, ?_⟩
    have := hs.entries_eq
    rwa [hnil, List.append_nil] at this
  · refine ⟨fun bucket hbucket => ?_, ?_⟩
    · rcases List.mem_append.1 hbucket with hbucket | hbucket
      · exact hs.laid bucket hbucket
      · rw [List.mem_singleton.1 hbucket]
        exact hs.current
    · rw [List.flatMap_append, List.flatMap_singleton]
      exact hs.entries_eq

end Buckets

end HyperParallel.WeightSync
