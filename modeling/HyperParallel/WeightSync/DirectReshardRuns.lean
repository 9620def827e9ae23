import HyperParallel.WeightSync.DirectReshardBuckets

/-!
# Delivering the buckets of a direct reshard

* `fragmentBytes_eq`, `packDirectBucket_ok`: every fragment is in the packed buffer, element by
  element;
* `Parameters.After`: what a worker holds when some places have been written;
* `applyEntry_ok`, `applyDirectBucket_ok`, `deliver_ok`, `deliver_run`: one entry, one bucket, one
  delivery, any sequence of deliveries.
-/

open MixedRadix

namespace HyperParallel.WeightSync

/-! ### Packing -/

section Pack

variable {e : TransferEntry} {tensor : LocalTensor}

/-- The last index of a fragment. -/
theorem valid_last (h : ∀ n ∈ e.lengths, 0 < n) : Valid e.lengths (e.lengths.map (· - 1)) := by
  rw [Valid, List.forall₂_map_left_iff, List.forall₂_same]
  exact fun n hn => Nat.sub_lt (h n hn) Nat.one_pos

/-- A slice whose last element lies in a tensor has the lengths it asks for. -/
theorem sliceLengths_eq {starts lengths shape : List ℕ} (hpos : ∀ n ∈ lengths, 0 < n)
    (hlength : starts.length = lengths.length)
    (h : Valid shape (Region.shift starts (lengths.map (· - 1)))) :
    sliceLengths starts lengths shape = lengths := by
  induction lengths generalizing starts shape with
  | nil =>
    obtain rfl := List.length_eq_zero_iff.1 hlength
    rfl
  | cons n lengths ih =>
    obtain ⟨a, starts, rfl⟩ := List.exists_cons_of_length_eq_add_one hlength
    obtain ⟨m, shape, ham, hrest, rfl⟩ := List.forall₂_cons_left_iff.1 h
    have hn := hpos n List.mem_cons_self
    change a + (n - 1) < m at ham
    have htail := ih (fun k hk => hpos k (List.mem_cons_of_mem _ hk)) (by simpa using hlength) hrest
    change (min (a + n) m - min a m) :: sliceLengths starts lengths shape = n :: lengths
    rw [htail, show min (a + n) m - min a m = n by omega]

/-- The tensor has what the entry reads. -/
structure TransferEntry.Reads (e : TransferEntry) (tensor : LocalTensor) : Prop where
  elementSize : tensor.elementSize = e.elementSize
  inside : ∀ q q', e.Copies q q' → Valid tensor.shape q

theorem length_destinationLengths (he : e.Formed) :
    e.destinationLengths.length = e.lengths.length := by
  rw [TransferEntry.destinationLengths, Region.permuted, List.length_map,
    he.permutation.length_eq, List.length_range]

theorem prod_destinationLengths (he : e.Formed) : e.destinationLengths.prod = e.lengths.prod :=
  (permuted_perm he.permutation).prod_eq

/-- The bytes of a fragment are its elements in the order of the destination axes. -/
theorem fragmentBytes_eq (he : e.Formed) (hr : e.Reads tensor) :
    (fragmentBytes tensor e).length = e.numBytes ∧ ∀ x, Valid e.lengths x →
      FlatBuffer.narrow (fragmentBytes tensor e)
        (ofDigits e.destinationLengths (Region.permuted e.physicalPermutation x) * e.elementSize)
        e.elementSize = tensor.entry (Region.shift e.sourceStarts x) := by
  have hslice : sliceLengths e.sourceStarts e.lengths tensor.shape = e.lengths :=
    sliceLengths_eq he.lengths_pos he.sourceStarts
      (hr.inside _ _ ⟨_, valid_last he.lengths_pos, rfl, rfl⟩)
  have hsize : ∀ idx, (tensor.entry idx).length = e.elementSize := fun idx =>
    (tensor.entry_length idx).trans hr.elementSize
  have haxes : e.physicalPermutation.length = e.lengths.length := by
    rw [he.permutation.length_eq, List.length_range]
  have hbytes : fragmentBytes tensor e = (List.range e.destinationLengths.prod).flatMap fun k =>
      tensor.entry (Region.shift e.sourceStarts
        (unpermuted e.physicalPermutation (digits e.destinationLengths k))) := by
    rw [fragmentBytes, hslice]
    change (rowMajor e.destinationLengths).flatMap _ = _
    rw [rowMajor, List.flatMap_map]
    simp only [unpermuted, haxes]
  constructor
  · rw [hbytes, Intervals.length_flatMap_range fun k _ => hsize _, prod_destinationLengths he]
    rfl
  · intro x hx
    have hvalid : Valid e.destinationLengths (Region.permuted e.physicalPermutation x) :=
      (valid_permuted he.permutation hx.length_eq).2 hx
    rw [hbytes, FlatBuffer.narrow_flatMap_range (fun k _ => hsize _) (ofDigits_lt hvalid),
      digits_ofDigits hvalid, unpermuted_permuted (hx.length_eq ▸ he.permutation)]

variable {stateDict : String → Option LocalTensor} {entries : List TransferEntry}

/-- Every fragment is in the buffer at its offset, and nothing before the first of them has
changed. -/
theorem packEntries_ok (packed : List UInt8)
    (hsource : ∀ e ∈ entries, ∃ tensor, stateDict e.sourceKey = some tensor ∧
      e.ViewsAsBytes tensor ∧ (fragmentBytes tensor e).length = e.numBytes)
    (hfits : ∀ e ∈ entries, e.bufferOffset + e.numBytes ≤ packed.length)
    (hdisjoint : entries.Pairwise fun a b => a.bufferOffset + a.numBytes ≤ b.bufferOffset) :
    ∃ result, entries.foldlM (packEntry stateDict) packed = .ok result ∧
      result.length = packed.length ∧
      (∀ e ∈ entries, ∀ tensor, stateDict e.sourceKey = some tensor →
        FlatBuffer.narrow result e.bufferOffset e.numBytes = fragmentBytes tensor e) ∧
      ∀ start length, (∀ e ∈ entries, start + length ≤ e.bufferOffset) →
        FlatBuffer.narrow result start length = FlatBuffer.narrow packed start length := by
  induction entries generalizing packed with
  | nil => exact ⟨packed, rfl, rfl, fun _ h => absurd h List.not_mem_nil, fun _ _ _ => rfl⟩
  | cons e entries ih =>
    obtain ⟨hfirst, hrest⟩ := List.pairwise_cons.1 hdisjoint
    obtain ⟨tensor, htensor, hviews, hlength⟩ := hsource e List.mem_cons_self
    have hfit := hfits e List.mem_cons_self
    have hcopy : (FlatBuffer.write packed e.bufferOffset (fragmentBytes tensor e)).length =
        packed.length := FlatBuffer.length_write (by omega)
    obtain ⟨result, hresult, hsize, hslices, hbefore⟩ :=
      ih (FlatBuffer.write packed e.bufferOffset (fragmentBytes tensor e))
        (fun f hf => hsource f (List.mem_cons_of_mem _ hf))
        (fun f hf => hcopy ▸ hfits f (List.mem_cons_of_mem _ hf)) hrest
    have hstep : packEntry stateDict packed e =
        .ok (FlatBuffer.write packed e.bufferOffset (fragmentBytes tensor e)) := by
      rw [packEntry, htensor]
      dsimp only
      rw [if_neg (not_not.2 hviews), if_neg (not_not.2 hlength), if_neg (Nat.not_lt.2 hfit)]
    refine ⟨result, ?_, hsize.trans hcopy, ?_, ?_⟩
    · rw [List.foldlM_cons, hstep]
      exact hresult
    · intro f hf tensor' htensor'
      rcases List.mem_cons.1 hf with rfl | hf
      · obtain rfl := Option.some.inj (htensor.symm.trans htensor')
        rw [hbefore f.bufferOffset f.numBytes fun g hg => hfirst g hg, ← hlength]
        exact FlatBuffer.narrow_write_self (by omega)
      · exact hslices f hf tensor' htensor'
    · intro start length hstart
      rw [hbefore start length fun f hf => hstart f (List.mem_cons_of_mem _ hf)]
      exact FlatBuffer.narrow_write_before (hstart _ List.mem_cons_self) (by omega)

/-- The element an entry copies, read back from the packed buffer. -/
def packedElement (packed : List UInt8) (e : TransferEntry) (x : List ℕ) : List UInt8 :=
  FlatBuffer.narrow packed (e.bufferOffset +
    ofDigits e.destinationLengths (Region.permuted e.physicalPermutation x) * e.elementSize)
    e.elementSize

/-- A packed bucket holds every element its entries copy. -/
theorem packDirectBucket_ok {limit : ℕ} {bucket : TransferBucket} (empty : ℕ → UInt8)
    (hlaid : bucket.Laid limit) (hentries : ∀ e ∈ bucket.entries, e.Formed ∧
      ∃ tensor, stateDict e.sourceKey = some tensor ∧ e.ViewsAsBytes tensor ∧ e.Reads tensor) :
    ∃ packed, packDirectBucket stateDict bucket empty = .ok packed ∧
      packed.length = bucket.totalBytes ∧
      ∀ e ∈ bucket.entries, ∀ tensor, stateDict e.sourceKey = some tensor →
        ∀ x, Valid e.lengths x →
          packedElement packed e x = tensor.entry (Region.shift e.sourceStarts x) := by
  have hsize : ((List.range bucket.totalBytes).map empty).length = bucket.totalBytes := by
    rw [List.length_map, List.length_range]
  obtain ⟨packed, hpacked, hlength, hslices, -⟩ :=
    packEntries_ok ((List.range bucket.totalBytes).map empty)
      (fun e he => by
        obtain ⟨hformed, tensor, htensor, hviews, hreads⟩ := hentries e he
        exact ⟨tensor, htensor, hviews, (fragmentBytes_eq hformed hreads).1⟩)
      (fun e he => by
        rw [hsize]
        exact hlaid.fits e he) hlaid.disjoint
  refine ⟨packed, hpacked, hlength.trans hsize, fun e he tensor htensor x hx => ?_⟩
  obtain ⟨hformed, tensor', htensor', -, hreads⟩ := hentries e he
  obtain rfl := Option.some.inj (htensor.symm.trans htensor')
  have hvalid : Valid e.destinationLengths (Region.permuted e.physicalPermutation x) :=
    (valid_permuted hformed.permutation hx.length_eq).2 hx
  have hlast := ofDigits_lt hvalid
  rw [prod_destinationLengths hformed] at hlast
  have hbound : ofDigits e.destinationLengths (Region.permuted e.physicalPermutation x) *
      e.elementSize + e.elementSize ≤ e.numBytes := by
    rw [← Nat.succ_mul]
    exact Nat.mul_le_mul_right _ hlast
  rw [packedElement, ← FlatBuffer.narrow_narrow hbound, hslices e he tensor htensor,
    (fragmentBytes_eq hformed hreads).2 x hx]

end Pack

/-! ### Writing -/

/-- The parameters agree but for their values. -/
structure Parameter.Like (a b : Parameter) : Prop where
  dtypeName : a.dtypeName = b.dtypeName
  elementSize : a.elementSize = b.elementSize
  shape : a.shape = b.shape

/-- What a worker that started with `init` holds after the written places got their value. -/
def Parameters.After (init : String → Option Parameter) (right : String → List ℕ → List UInt8)
    (written : String → List ℕ → Prop) (parameters : String → Option Parameter) : Prop :=
  ∀ name parameter, init name = some parameter → ∃ parameter', parameters name = some parameter' ∧
    parameter'.Like parameter ∧ ∀ idx, (written name idx → parameter'.entry idx = right name idx) ∧
      (¬ written name idx → parameter'.entry idx = parameter.entry idx)

theorem Parameters.after_refl (init : String → Option Parameter)
    (right : String → List ℕ → List UInt8) :
    Parameters.After init right (fun _ _ => False) init :=
  fun _ parameter h => ⟨parameter, h, ⟨rfl, rfl, rfl⟩, fun _ => ⟨False.elim, fun _ => rfl⟩⟩

/-- The parameter takes what the entry writes. -/
structure TransferEntry.Writes (e : TransferEntry) (parameter : Parameter) : Prop where
  dtypeName : parameter.dtypeName = e.destinationDtypeName
  elementSize : parameter.elementSize = e.destinationElementSize
  inside : ∀ q q', e.Copies q q' → Valid parameter.shape q'

section Apply

variable {e : TransferEntry} {packed : List UInt8}
  {convert : String → String → List UInt8 → List UInt8} {init : String → Option Parameter}
  {right : String → List ℕ → List UInt8} {written : String → List ℕ → Prop}
  {parameters : String → Option Parameter}

/-- The places an entry writes to are its destination slice. -/
theorem mem_destination_iff (he : e.Formed) {idx : List ℕ} :
    Region.Mem (e.destinationStarts.zip e.destinationLengths) idx ↔ ∃ q, e.Copies q idx := by
  have hlength : e.destinationStarts.length = e.destinationLengths.length := by
    rw [he.destinationStarts, length_destinationLengths he]
  rw [Region.mem_iff_shift, List.map_fst_zip (Nat.le_of_eq hlength),
    List.map_snd_zip (Nat.le_of_eq hlength.symm)]
  constructor
  · rintro ⟨y, hy, rfl⟩
    have hylength : y.length = e.lengths.length := by
      rw [hy.length_eq, length_destinationLengths he]
    have hxlength : (unpermuted e.physicalPermutation y).length = e.lengths.length := by
      rw [unpermuted, List.length_map, List.length_range, he.permutation.length_eq,
        List.length_range]
    have hpermuted := permuted_unpermuted he.permutation hylength
    refine ⟨_, unpermuted e.physicalPermutation y, ?_, rfl, by rw [hpermuted]⟩
    refine (valid_permuted he.permutation hxlength).1 ?_
    rw [hpermuted]
    exact hy
  · rintro ⟨q, x, hx, -, rfl⟩
    exact ⟨_, (valid_permuted he.permutation hx.length_eq).2 hx, rfl⟩

/-- One entry writes the places it copies to and nothing else. -/
theorem applyEntry_ok (he : e.Formed)
    (hwrites : ∃ parameter, init e.targetName = some parameter ∧ e.Writes parameter)
    (hfits : e.bufferOffset + e.numBytes ≤ packed.length) (haligned : e.elementSize ∣ e.bufferOffset)
    (hright : ∀ x, Valid e.lengths x →
      convert e.dtypeName e.destinationDtypeName (packedElement packed e x) =
        right e.targetName (Region.shift e.destinationStarts
          (Region.permuted e.physicalPermutation x)))
    (hparameters : Parameters.After init right written parameters) :
    ∃ parameters', applyEntry convert packed parameters e = .ok parameters' ∧
      Parameters.After init right
        (fun name idx => written name idx ∨ name = e.targetName ∧ ∃ q, e.Copies q idx)
        parameters' := by
  obtain ⟨parameter, hinit, hw⟩ := hwrites
  obtain ⟨current, hcurrent, hlike, hentries⟩ := hparameters _ _ hinit
  have hslice : sliceLengths e.destinationStarts e.destinationLengths current.shape =
      e.destinationLengths := by
    have hpos : ∀ n ∈ e.destinationLengths, 0 < n := fun n hn =>
      he.lengths_pos n ((permuted_perm he.permutation).mem_iff.1 hn)
    refine sliceLengths_eq hpos (by rw [he.destinationStarts, length_destinationLengths he]) ?_
    have hlast : e.destinationLengths.map (· - 1) =
        Region.permuted e.physicalPermutation (e.lengths.map (· - 1)) := by
      rw [TransferEntry.destinationLengths, Region.permuted, Region.permuted, List.map_map]
      refine List.map_congr_left fun axis _ => ?_
      exact (List.getD_map e.lengths 0 (· - 1)).symm
    rw [hlike.shape, hlast]
    exact hw.inside _ _ ⟨_, valid_last he.lengths_pos, rfl, rfl⟩
  refine ⟨Function.update parameters e.targetName (some (current.copySlice convert e packed)),
    ?_, ?_⟩
  · rw [applyEntry, hcurrent]
    dsimp only
    rw [if_neg, if_neg, if_neg (not_not.2 hslice)]
    · rintro (hlt | hmod)
      · omega
      · exact hmod (Nat.mod_eq_zero_of_dvd haligned)
    · rintro (hne | hne)
      · exact hne (hlike.elementSize.trans hw.elementSize)
      · exact hne (hlike.dtypeName.trans hw.dtypeName)
  · intro name parameter' hparameter'
    by_cases hname : name = e.targetName
    · subst hname
      obtain rfl := Option.some.inj (hinit.symm.trans hparameter')
      refine ⟨_, Function.update_self .., ⟨hlike.dtypeName, hlike.elementSize, hlike.shape⟩,
        fun idx => ?_⟩
      change ((_ ∨ _) → (if _ then _ else _) = _) ∧ (_ → (if _ then _ else _) = _)
      by_cases hidx : ∃ q, e.Copies q idx
      · rw [if_pos ((mem_destination_iff he).2 hidx)]
        refine ⟨fun _ => ?_, fun h => absurd (Or.inr ⟨rfl, hidx⟩) h⟩
        obtain ⟨q, x, hx, -, rfl⟩ := hidx
        have hplace : (Region.permuted e.physicalPermutation x).length =
            e.destinationStarts.length := by
          rw [Region.permuted, List.length_map, he.permutation.length_eq, List.length_range,
            he.destinationStarts]
        rw [Region.offset_self_shift hplace.symm]
        exact hright x hx
      · rw [if_neg fun h => hidx ((mem_destination_iff he).1 h)]
        refine ⟨fun h => (hentries idx).1 ?_, fun h => (hentries idx).2 fun hw => h (Or.inl hw)⟩
        exact h.resolve_right fun h => hidx h.2
    · obtain ⟨other, hother, hlike', hentries'⟩ := hparameters _ _ hparameter'
      refine ⟨other, by rw [Function.update_of_ne hname]; exact hother, hlike', fun idx => ?_⟩
      exact ⟨fun h => (hentries' idx).1 (h.resolve_right fun h => hname h.1),
        fun h => (hentries' idx).2 fun hw => h (Or.inl hw)⟩

/-- The entries of a bucket, one after the other. -/
theorem applyEntries_ok {entries : List TransferEntry}
    (hentries : ∀ e ∈ entries, e.Formed ∧
      (∃ parameter, init e.targetName = some parameter ∧ e.Writes parameter) ∧
      e.bufferOffset + e.numBytes ≤ packed.length ∧ e.elementSize ∣ e.bufferOffset ∧
      ∀ x, Valid e.lengths x →
        convert e.dtypeName e.destinationDtypeName (packedElement packed e x) =
          right e.targetName (Region.shift e.destinationStarts
            (Region.permuted e.physicalPermutation x)))
    (hparameters : Parameters.After init right written parameters) :
    ∃ parameters', entries.foldlM (applyEntry convert packed) parameters = .ok parameters' ∧
      Parameters.After init right
        (fun name idx => written name idx ∨
          ∃ e ∈ entries, name = e.targetName ∧ ∃ q, e.Copies q idx)
        parameters' := by
  induction entries generalizing written parameters with
  | nil =>
    refine ⟨parameters, rfl, fun name parameter h => ?_⟩
    obtain ⟨current, hcurrent, hlike, hall⟩ := hparameters name parameter h
    refine ⟨current, hcurrent, hlike, fun idx => ⟨fun h => (hall idx).1 ?_,
      fun h => (hall idx).2 fun hw => h (Or.inl hw)⟩⟩
    exact h.resolve_right fun ⟨e, he, _⟩ => List.not_mem_nil he
  | cons e entries ih =>
    obtain ⟨hformed, hwrites, hfits, haligned, hright⟩ := hentries e List.mem_cons_self
    obtain ⟨p₁, hp₁, hafter₁⟩ := applyEntry_ok hformed hwrites hfits haligned hright hparameters
    obtain ⟨p₂, hp₂, hafter₂⟩ := ih (fun f hf => hentries f (List.mem_cons_of_mem _ hf)) hafter₁
    refine ⟨p₂, by rw [List.foldlM_cons, hp₁]; exact hp₂, fun name parameter h => ?_⟩
    obtain ⟨current, hcurrent, hlike, hall⟩ := hafter₂ name parameter h
    refine ⟨current, hcurrent, hlike, fun idx => ⟨fun h => (hall idx).1 ?_,
      fun h => (hall idx).2 fun hw => h ?_⟩⟩
    · rcases h with h | ⟨f, hf, h⟩
      · exact Or.inl (Or.inl h)
      · rcases List.mem_cons.1 hf with rfl | hf
        · exact Or.inl (Or.inr h)
        · exact Or.inr ⟨f, hf, h⟩
    · rcases hw with (hw | hw) | ⟨f, hf, hw⟩
      · exact Or.inl hw
      · exact Or.inr ⟨e, List.mem_cons_self, hw⟩
      · exact Or.inr ⟨f, List.mem_cons_of_mem _ hf, hw⟩

end Apply

/-! ### Deliveries -/

/-- What the workers hold, started with `init`, after some places of them got their value. -/
def Workers.After (init : ℕ → String → Option Parameter)
    (right : ℕ → String → List ℕ → List UInt8) (written : ℕ → String → List ℕ → Prop)
    (workers : ℕ → String → Option Parameter) : Prop :=
  ∀ tpRank, Parameters.After (init tpRank) (right tpRank) (written tpRank) (workers tpRank)

/-- The bucket writes the place. -/
def Reaches (item : Route × TransferBucket) (tpRank : ℕ) (name : String) (idx : List ℕ) : Prop :=
  item.1.2 = tpRank ∧ ∃ e ∈ item.2.entries, name = e.targetName ∧ ∃ q, e.Copies q idx

/-- A bucket whose entries are all read and written within bounds, and bring every place they write
the right value. -/
structure Sound (run : ReshardRun) (init : ℕ → String → Option Parameter)
    (right : ℕ → String → List ℕ → List UInt8) (limit : ℕ) (item : Route × TransferBucket) :
    Prop where
  laid : item.2.Laid limit
  formed : ∀ e ∈ item.2.entries, e.Formed
  reads : ∀ e ∈ item.2.entries, ∃ tensor, run.stateDicts item.1.1 e.sourceKey = some tensor ∧
    e.ViewsAsBytes tensor ∧ e.Reads tensor ∧ ∀ q q', e.Copies q q' →
      run.convert e.dtypeName e.destinationDtypeName (tensor.entry q) =
        right item.1.2 e.targetName q'
  writes : ∀ e ∈ item.2.entries, ∃ parameter, init item.1.2 e.targetName = some parameter ∧
    e.Writes parameter

section Deliver

variable {run : ReshardRun} {init workers : ℕ → String → Option Parameter}
  {right : ℕ → String → List ℕ → List UInt8} {written : ℕ → String → List ℕ → Prop} {limit : ℕ}

/-- One bucket brings the places it writes their value and changes nothing else. -/
theorem deliver_ok {item : Route × TransferBucket} (hitem : Sound run init right limit item)
    (hworkers : Workers.After init right written workers) :
    ∃ workers', run.deliver workers item = .ok workers' ∧
      Workers.After init right
        (fun tpRank name idx => written tpRank name idx ∨ Reaches item tpRank name idx)
        workers' := by
  obtain ⟨packed, hpacked, hlength, helements⟩ :=
    packDirectBucket_ok run.empty hitem.laid
      fun e he => ⟨hitem.formed e he, (hitem.reads e he).imp fun _ h => ⟨h.1, h.2.1, h.2.2.1⟩⟩
  obtain ⟨parameters, hparameters, hafter⟩ :=
    applyEntries_ok (fun e he => by
        obtain ⟨tensor, htensor, -, -, hright⟩ := hitem.reads e he
        refine ⟨hitem.formed e he, hitem.writes e he, ?_, hitem.laid.aligned e he, fun x hx => ?_⟩
        · rw [hlength]
          exact hitem.laid.fits e he
        · rw [helements e he tensor htensor x hx]
          exact hright _ _ ⟨x, hx, rfl, rfl⟩)
      (hworkers item.1.2)
  refine ⟨Function.update workers item.1.2 parameters, ?_, fun tpRank => ?_⟩
  · rw [ReshardRun.deliver, hpacked]
    change (applyDirectBucket run.convert (workers item.1.2) packed item.2 >>= _) = _
    rw [applyDirectBucket, hparameters]
    rfl
  · by_cases htp : tpRank = item.1.2
    · subst htp
      rw [Function.update_self]
      intro name parameter h
      obtain ⟨current, hcurrent, hlike, hall⟩ := hafter name parameter h
      refine ⟨current, hcurrent, hlike, fun idx => ⟨fun h => (hall idx).1 (h.imp_right And.right),
        fun h => (hall idx).2 fun hw => h (hw.imp_right fun hw => ⟨rfl, hw⟩)⟩⟩
    · rw [Function.update_of_ne htp]
      intro name parameter h
      obtain ⟨current, hcurrent, hlike, hall⟩ := hworkers tpRank name parameter h
      exact ⟨current, hcurrent, hlike, fun idx =>
        ⟨fun h => (hall idx).1 (h.resolve_right fun h => htp h.1.symm),
          fun h => (hall idx).2 fun hw => h (Or.inl hw)⟩⟩

/-- Buckets delivered in any order bring every place that one of them writes its value, and change
nothing else. -/
theorem deliver_run {items : List (Route × TransferBucket)}
    (hitems : ∀ item ∈ items, Sound run init right limit item)
    (hworkers : Workers.After init right written workers) :
    ∃ workers', items.foldlM run.deliver workers = .ok workers' ∧
      Workers.After init right
        (fun tpRank name idx => written tpRank name idx ∨
          ∃ item ∈ items, Reaches item tpRank name idx)
        workers' := by
  induction items generalizing written workers with
  | nil =>
    refine ⟨workers, rfl, fun tpRank name parameter h => ?_⟩
    obtain ⟨current, hcurrent, hlike, hall⟩ := hworkers tpRank name parameter h
    refine ⟨current, hcurrent, hlike, fun idx => ⟨fun h => (hall idx).1 ?_,
      fun h => (hall idx).2 fun hw => h (Or.inl hw)⟩⟩
    exact h.resolve_right fun ⟨item, hitem, _⟩ => List.not_mem_nil hitem
  | cons item items ih =>
    obtain ⟨w₁, hw₁, hafter₁⟩ := deliver_ok (hitems item List.mem_cons_self) hworkers
    obtain ⟨w₂, hw₂, hafter₂⟩ := ih (fun i hi => hitems i (List.mem_cons_of_mem _ hi)) hafter₁
    refine ⟨w₂, by rw [List.foldlM_cons, hw₁]; exact hw₂, fun tpRank name parameter h => ?_⟩
    obtain ⟨current, hcurrent, hlike, hall⟩ := hafter₂ tpRank name parameter h
    refine ⟨current, hcurrent, hlike, fun idx => ⟨fun h => (hall idx).1 ?_,
      fun h => (hall idx).2 fun hw => h ?_⟩⟩
    · rcases h with h | ⟨i, hi, h⟩
      · exact Or.inl (Or.inl h)
      · rcases List.mem_cons.1 hi with rfl | hi
        · exact Or.inl (Or.inr h)
        · exact Or.inr ⟨i, hi, h⟩
    · rcases hw with (hw | hw) | ⟨i, hi, hw⟩
      · exact Or.inl hw
      · exact Or.inr ⟨item, List.mem_cons_self, hw⟩
      · exact Or.inr ⟨i, List.mem_cons_of_mem _ hi, hw⟩

end Deliver

end HyperParallel.WeightSync
