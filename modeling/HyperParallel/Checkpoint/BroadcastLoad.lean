import HyperParallel.Checkpoint.LoadPlan
import HyperParallel.Checkpoint.ReadItemsCorrect
import HyperParallel.Lib.Dict
import Mathlib.Data.List.GetD

/-!
# Broadcast loads

`build_global_plan` decides from the identities of the plans alone (`sources_map_identity`), so all
ranks decide alike.  A shard is known by its name and start offsets only; the load does what the
ranks' own reads would do exactly when these settle the sizes as well
together with what the dtypes and the elements that nothing is read into have to agree on
(`LoadWorld.broadcastsCorrectly_iff`).
-/

namespace HyperParallel.Checkpoint

open ExceptList

/-! ### The decision -/

section Decision

variable {elementSize : String → ℕ} {plans plans' : List (List ReadItem)} {key : ShardKey}
  {loadBytes : ℕ → ℕ} {group : List ℕ} {source : BroadcastSource}

@[simp] theorem names_identity {item : ReadItem} : item.identity.Names key ↔ item.Names key :=
  Iff.rfl

@[simp] theorem identity_identity (plan : List ReadItem) :
    identity (identity plan) = identity plan := by
  simp [identity, Function.comp_def, ReadItem.identity]

theorem flatten_map_identity : (plans.map identity).flatten = identity plans.flatten := by
  induction plans with
  | nil => rfl
  | cons plan plans ih => simp [identity, ih]

theorem getD_map_identity (rank : ℕ) :
    (plans.map identity).getD rank [] = identity (plans.getD rank []) := by
  simp only [List.getD_eq_getElem?_getD, List.getElem?_map]
  cases plans[rank]? <;> rfl

theorem replicaKeys_map_identity : replicaKeys (plans.map identity) = replicaKeys plans := by
  rw [replicaKeys, flatten_map_identity, identity, List.filter_map, List.foldl_map]
  rfl

theorem groupRanks_map_identity : groupRanks (plans.map identity) key = groupRanks plans key := by
  rw [groupRanks, groupRanks, List.length_map]
  refine List.filter_congr fun rank _ => ?_
  rw [getD_map_identity]
  simp [identity]

theorem groupElements_map_identity :
    groupElements (plans.map identity) key = groupElements plans key := by
  rw [groupElements, flatten_map_identity, identity, List.filter_map, List.map_map]
  rfl

theorem unsendable_map_identity : Unsendable (plans.map identity) key ↔ Unsendable plans key := by
  rw [Unsendable, flatten_map_identity]
  simp only [identity, List.mem_map, exists_exists_and_eq_and]
  rfl

/-- The decision does not depend on where the reads are in the checkpoint. -/
theorem sources_map_identity :
    sources elementSize (plans.map identity) = sources elementSize plans := by
  unfold sources shards
  simp only [replicaKeys_map_identity, groupRanks_map_identity, groupElements_map_identity,
    unsendable_map_identity]

theorem map_identity_gathered (rank : ℕ) :
    (gathered plans rank).map identity = plans.map identity := by
  rw [gathered, List.map_set, List.map_map]
  refine List.ext_getElem (by simp) fun i h1 h2 => ?_
  rw [List.getElem_set]
  have hi : i < plans.length := by simpa using h2
  split_ifs with h
  · subst h
    simp [List.getElem?_eq_getElem hi]
  · simp

theorem sources_gathered (rank : ℕ) :
    sources elementSize (gathered plans rank) = sources elementSize plans := by
  rw [← sources_map_identity, map_identity_gathered, sources_map_identity]

theorem mem_replicaKeys :
    key ∈ replicaKeys plans ↔ ∃ item ∈ plans.flatten, item.Names key := by
  have hfirst : replicaKeys plans = Dict.firstKeys (fun item => item.destIndex.key)
      (plans.flatten.filter fun item => item.type = .tensor) := by
    unfold replicaKeys Dict.firstKeys
    congr 1
    funext keys item
    congr 1
  rw [hfirst, Dict.mem_firstKeys]
  simp only [List.mem_filter, decide_eq_true_eq]
  exact exists_congr fun item => and_assoc

theorem mem_groupRanks {rank : ℕ} : rank ∈ groupRanks plans key ↔
    rank < plans.length ∧ ∃ item ∈ plans.getD rank [], item.Names key := by
  simp [groupRanks]

theorem lightestRank_mem (h : group ≠ []) : lightestRank loadBytes group ∈ group := by
  cases group with
  | nil => exact absurd rfl h
  | cons rank ranks =>
    exact Dict.foldl_choice_mem (fun rank best =>
      loadBytes rank < loadBytes best ∨ (loadBytes rank = loadBytes best ∧ rank < best)) ranks rank

theorem lookup_assignSources {assigned : List Shard}
    (h : (assignSources loadBytes assigned).lookup key = some source) :
    ∃ shard ∈ assigned, shard.key = key ∧ source.groupRanks = shard.groupRanks ∧
      (shard.groupRanks ≠ [] → source.srcRank ∈ shard.groupRanks) := by
  induction assigned generalizing loadBytes with
  | nil => cases h
  | cons shard rest ih =>
    rw [assignSources, List.lookup_cons] at h
    by_cases hkey : key = shard.key
    · simp only [hkey, beq_self_eq_true, Option.some.injEq] at h
      exact ⟨shard, List.mem_cons_self, hkey.symm, h ▸ rfl, fun hne => h ▸ lightestRank_mem hne⟩
    · rw [beq_eq_false_iff_ne.2 hkey] at h
      obtain ⟨shard', hmem, hrest⟩ := ih h
      exact ⟨shard', List.mem_cons_of_mem _ hmem, hrest⟩

theorem exists_lookup_assignSources {assigned : List Shard} {shard : Shard}
    (h : shard ∈ assigned) : ∃ source, (assignSources loadBytes assigned).lookup shard.key =
      some source := by
  induction assigned generalizing loadBytes with
  | nil => cases h
  | cons first rest ih =>
    rw [assignSources, List.lookup_cons]
    by_cases hkey : shard.key = first.key
    · rw [hkey, beq_self_eq_true]
      exact ⟨_, rfl⟩
    · rw [beq_eq_false_iff_ne.2 hkey]
      rcases List.mem_cons.1 h with rfl | h
      · exact absurd rfl hkey
      · exact ih h

theorem mem_shards {shard : Shard} (h : shard ∈ shards elementSize plans) :
    shard.groupRanks = groupRanks plans shard.key ∧
      1 < (groupRanks plans shard.key).length ∧ ¬ Unsendable plans shard.key := by
  rw [shards, List.mem_insertionSort, List.mem_map] at h
  obtain ⟨key, hkey, rfl⟩ := h
  have := (List.mem_filter.1 hkey).2
  rw [decide_eq_true_eq] at this
  exact ⟨rfl, this⟩

/-- A shard with a source: the group are the ranks that read it, and the source is one of them. -/
theorem lookup_sources (h : (sources elementSize plans).lookup key = some source) :
    source.groupRanks = groupRanks plans key ∧ source.srcRank ∈ groupRanks plans key ∧
      ¬ Unsendable plans key := by
  obtain ⟨shard, hmem, rfl, hgroup, hsrc⟩ := lookup_assignSources h
  obtain ⟨hranks, hlen, hsend⟩ := mem_shards hmem
  have hne : groupRanks plans shard.key ≠ [] := List.ne_nil_of_length_pos (by omega)
  exact ⟨hgroup.trans hranks, hranks ▸ hsrc (hranks ▸ hne), hsend⟩

/-- A sendable shard that two ranks read has a source. -/
theorem exists_source (elementSize : String → ℕ) (hlen : 1 < (groupRanks plans key).length)
    (hsend : ¬ Unsendable plans key) :
    ∃ source, (sources elementSize plans).lookup key = some source := by
  obtain ⟨rank, hrank⟩ := List.exists_mem_of_length_pos (by omega : 0 < (groupRanks plans key).length)
  obtain ⟨hlt, item, hitem, hnames⟩ := mem_groupRanks.1 hrank
  have hkey : key ∈ replicaKeys plans := by
    rw [List.getD_eq_getElem _ _ hlt] at hitem
    exact mem_replicaKeys.2 ⟨item, List.mem_flatten.2 ⟨_, List.getElem_mem hlt, hitem⟩, hnames⟩
  have hshard : (⟨elementSize key.1 * groupElements plans key / (groupRanks plans key).length, key,
      groupRanks plans key⟩ : Shard) ∈ shards elementSize plans :=
    (List.mem_insertionSort _).2 (List.mem_map.2
      ⟨key, List.mem_filter.2 ⟨hkey, decide_eq_true ⟨hlen, hsend⟩⟩, rfl⟩)
  exact exists_lookup_assignSources hshard

end Decision

/-! ### The reads of a rank for a shard -/

/-- The reads of one chunk. -/
def chunkReads (fqn : String) (savedChunks : List ChunkStorageMetadata) (broadcastable : Bool)
    (chunk : ChunkStorageMetadata) (index : ℕ) : List ReadItem :=
  savedChunks.zipIdx.filterMap fun c =>
    if Box.Nondegenerate (Box.inter (chunkToArea chunk) (chunkToArea c.1)) then
      some (readItem fqn broadcastable index chunk c.2 c.1
        (Box.inter (chunkToArea chunk) (chunkToArea c.1)))
    else none

/-- What a read asks for depends on the offsets and sizes of its chunk alone. -/
theorem request_chunkReads (fqn : String) (savedChunks : List ChunkStorageMetadata)
    (b b' : Bool) (chunk : ChunkStorageMetadata) (i i' : ℕ) :
    (chunkReads fqn savedChunks b chunk i).map ReadItem.request =
      (chunkReads fqn savedChunks b' chunk i').map ReadItem.request := by
  rw [chunkReads, chunkReads, List.map_filterMap, List.map_filterMap]
  congr 1
  funext c
  split_ifs <;> rfl

theorem destIndex_of_mem_chunkReads {fqn : String} {savedChunks : List ChunkStorageMetadata}
    {b : Bool} {chunk : ChunkStorageMetadata} {i : ℕ} {item : ReadItem}
    (h : item ∈ chunkReads fqn savedChunks b chunk i) :
    item.type = .tensor ∧ item.destIndex.key = (fqn, chunk.offsets) ∧ item.broadcastable = b ∧
      item.source = none := by
  obtain ⟨c, -, hc⟩ := List.mem_filterMap.1 h
  split_ifs at hc
  obtain rfl := Option.some.inj hc
  exact ⟨rfl, rfl, rfl, rfl⟩

/-- Of lists under different keys, a filter that asks for one key keeps one list. -/
theorem filter_flatMap_of_key {β γ κ : Type*} [DecidableEq κ] {l : List β} {f : β → List γ}
    {p : γ → Bool} {key : β → κ} {k : κ} (hnodup : (l.map key).Nodup)
    (hother : ∀ b ∈ l, key b ≠ k → (f b).filter p = []) :
    (l.flatMap f).filter p =
      ((l.find? fun b => key b = k).map fun b => (f b).filter p).getD [] := by
  induction l with
  | nil => rfl
  | cons b l ih =>
    rw [List.map_cons, List.nodup_cons] at hnodup
    have hrest := ih hnodup.2 fun b hb => hother b (List.mem_cons_of_mem _ hb)
    rw [List.flatMap_cons, List.filter_append, hrest, List.find?_cons]
    by_cases hkey : key b = k
    · have hnone : l.find? (fun b => decide (key b = k)) = none :=
        List.find?_eq_none.2 fun c hc hck => hnodup.1
          (List.mem_map.2 ⟨c, hc, (of_decide_eq_true hck).trans hkey.symm⟩)
      simp [hkey, hnone]
    · simp [hkey, hother b List.mem_cons_self hkey]

namespace LoadWorld

variable {α : Type*} {w : LoadWorld α} {rank : ℕ} {key : ShardKey}

theorem length_plans : w.plans.length = w.destinations.length :=
  w.planned.length_eq.symm

/-- The reads of one entry that name a shard: those of the chunk with that name. -/
theorem filter_destinationReads {dest : Destination} {items : List ReadItem}
    (h : destinationReads w.checkpoint w.allowPartialLoad dest = .ok items)
    (hchunks : ∀ chunk ∈ dest.chunks, chunk.IsChunkOf dest.size)
    (hnodup : (dest.chunks.map ChunkStorageMetadata.offsets).Nodup) :
    (items.filter fun item => item.Names key) = [] ∨ dest.fqn = key.1 ∧ ∃ t chunk b i,
      w.checkpoint key.1 = some (.tensor t) ∧
      (dest.chunks.find? fun chunk => chunk.offsets = key.2) = some chunk ∧
      chunk.offsets = key.2 ∧ chunk.IsChunkOf t.size ∧
      (items.filter fun item => item.Names key) =
        chunkReads key.1 t.metadataChunks b chunk i := by
  unfold destinationReads at h
  cases hentry : w.checkpoint dest.fqn with
  | none =>
    rw [hentry] at h
    simp only at h
    split_ifs at h <;> exact Or.inl (by rw [← Except.ok.inj h]; rfl)
  | some stored =>
    rw [hentry] at h
    cases stored with
    | bytes =>
      refine Or.inl ?_
      rw [← Except.ok.inj h]
      rfl
    | tensor t =>
      simp only at h
      split_ifs at h with hsize
      have hsize := not_not.1 hsize
      rw [← hsize] at hchunks
      have hsaved : ∀ c ∈ t.metadataChunks, c.IsChunkOf t.size := by
        intro c hc
        obtain ⟨saved, hmem, rfl⟩ := List.mem_map.1 hc
        exact t.isChunkOf saved hmem
      rw [createReadItemsForChunkList_eq hsaved hchunks] at h
      obtain rfl := Except.ok.inj h
      -- the reads of each chunk name that chunk
      have hreads : readItems dest.fqn t.metadataChunks dest.chunks (!dest.onHost) =
          dest.chunks.zipIdx.flatMap fun l =>
            chunkReads dest.fqn t.metadataChunks (!dest.onHost) l.1 l.2 := rfl
      have hkeys : (dest.chunks.zipIdx.map fun l => l.1.offsets).Nodup := by
        have := hnodup
        rwa [← List.zipIdx_map_fst 0 dest.chunks, List.map_map] at this
      have hfilter := filter_flatMap_of_key (p := fun item : ReadItem => item.Names key)
        (f := fun l : ChunkStorageMetadata × ℕ =>
          chunkReads dest.fqn t.metadataChunks (!dest.onHost) l.1 l.2) (k := key.2) hkeys
        fun l _ hne => List.filter_eq_nil_iff.2 fun item hitem hnames => by
          have hkey := (of_decide_eq_true hnames).2
          rw [(destIndex_of_mem_chunkReads hitem).2.1] at hkey
          exact hne (hkey ▸ rfl)
      rw [hreads, hfilter]
      have hfind : (dest.chunks.find? fun chunk => chunk.offsets = key.2) =
          (dest.chunks.zipIdx.find? fun l => l.1.offsets = key.2).map Prod.fst := by
        conv_lhs => rw [← List.zipIdx_map_fst 0 dest.chunks, List.find?_map]
        rfl
      cases hchunk : dest.chunks.zipIdx.find? fun l => l.1.offsets = key.2 with
      | none => exact Or.inl rfl
      | some l =>
        have hoffsets : l.1.offsets = key.2 := by simpa using List.find?_some hchunk
        have hmem : l.1 ∈ dest.chunks := by
          have := List.mem_map_of_mem (f := Prod.fst) (List.mem_of_find?_eq_some hchunk)
          rwa [List.zipIdx_map_fst] at this
        by_cases hfqn : dest.fqn = key.1
        · refine Or.inr ⟨hfqn, t, l.1, !dest.onHost, l.2, hfqn ▸ hentry, ?_, hoffsets,
            hchunks l.1 hmem, ?_⟩
          · rw [hfind, hchunk]
            rfl
          · rw [Option.map_some, Option.getD_some, hfqn]
            refine List.filter_eq_self.2 fun item hitem => decide_eq_true ?_
            obtain ⟨htype, hkey, -⟩ := destIndex_of_mem_chunkReads hitem
            exact ⟨htype, hkey.trans (Prod.ext rfl hoffsets)⟩
        · refine Or.inl (List.filter_eq_nil_iff.2 fun item hitem hnames => hfqn ?_)
          have hkey := (of_decide_eq_true hnames).2
          rw [(destIndex_of_mem_chunkReads hitem).2.1] at hkey
          exact hkey ▸ rfl

/-- The plan of a rank, entry by entry. -/
theorem exists_plan (hrank : rank < w.plans.length) : ∃ dests reads,
    w.destinations[rank]? = some dests ∧ dests ∈ w.destinations ∧
    List.Forall₂ (fun dest items => destinationReads w.checkpoint w.allowPartialLoad dest =
      .ok items) dests reads ∧ w.plans.getD rank [] = reads.flatten := by
  have hlt : rank < w.destinations.length := length_plans (w := w) ▸ hrank
  have hplan := (List.forall₂_iff_get.1 w.planned).2 rank hlt hrank
  simp only [List.get_eq_getElem] at hplan
  unfold buildLocalPlan at hplan
  cases hmap : (w.destinations[rank]).mapM
      (destinationReads w.checkpoint w.allowPartialLoad) with
  | error e => simp [hmap, bind, Except.bind] at hplan
  | ok reads =>
    simp only [hmap, bind, Except.bind, pure, Except.pure, Except.ok.injEq] at hplan
    exact ⟨_, reads, List.getElem?_eq_getElem hlt, List.getElem_mem hlt, forall₂_of_mapM hmap,
      by rw [List.getD_eq_getElem _ _ hrank, hplan]⟩

/-- The reads of a rank for a shard are those of the chunk that the key names. -/
theorem reads_eq (hrank : rank < w.plans.length) : w.reads rank key = [] ∨ ∃ t chunk b i,
    w.checkpoint key.1 = some (.tensor t) ∧ w.chunk? rank key = some chunk ∧
    chunk.offsets = key.2 ∧ chunk.IsChunkOf t.size ∧
    w.reads rank key = chunkReads key.1 t.metadataChunks b chunk i := by
  obtain ⟨dests, reads, hdests, hmem, hreads, hplan⟩ := exists_plan hrank
  have hnodup := w.nodup_fqns dests hmem
  have hoffsets := w.nodup_offsets dests hmem
  have hchunks := w.isChunkOf dests hmem
  unfold LoadWorld.reads LoadWorld.chunk? destination?
  rw [hplan, List.getD_eq_getElem?_getD, hdests, Option.getD_some]
  clear hplan hdests hmem
  induction hreads with
  | nil => exact Or.inl rfl
  | @cons dest items dests reads hitems _ ih =>
    rw [List.map_cons, List.nodup_cons] at hnodup
    have hrest := ih hnodup.2 (fun d hd => hoffsets d (List.mem_cons_of_mem _ hd))
      fun d hd => hchunks d (List.mem_cons_of_mem _ hd)
    have hfirst := @filter_destinationReads _ w key _ _ hitems (hchunks dest List.mem_cons_self)
      (hoffsets dest List.mem_cons_self)
    rw [List.flatten_cons, List.filter_append, List.find?_cons]
    by_cases hfqn : dest.fqn = key.1
    · have hnone : dests.find? (fun dest => decide (dest.fqn = key.1)) = none :=
        List.find?_eq_none.2 fun d hd hdk => hnodup.1
          (List.mem_map.2 ⟨d, hd, (of_decide_eq_true hdk).trans hfqn.symm⟩)
      have hempty : (reads.flatten.filter fun item => item.Names key) = [] := by
        rcases hrest with h | ⟨t, chunk, b, i, -, hchunk, -⟩
        · exact h
        · rw [hnone] at hchunk
          cases hchunk
      rw [hempty, List.append_nil, decide_eq_true hfqn]
      exact hfirst.imp_right fun h => h.2
    · have hempty : (items.filter fun item => item.Names key) = [] :=
        hfirst.resolve_right fun h => hfqn h.1
      rw [hempty, List.nil_append, decide_eq_false hfqn]
      exact hrest

end LoadWorld

/-! ### Reading a chunk -/

section ReadInto

variable {α : Type*} {cast : α → α} {saved : SavedTensor α} {sizes x : List ℕ}
  {reqs reqs' : List ReadItem}

/-- What reads write, over what was held. -/
def overlay (written : List ℕ → Option α) (data : List ℕ → α) (x : List ℕ) : α :=
  (written x).getD (data x)

/-- What the reads of a chunk write does not depend on what it held, and fills their slices. -/
theorem exists_written (cast : α → α) (saved : SavedTensor α) (sizes : List ℕ)
    (reqs : List ReadItem) : (∃ e, ∀ data, readInto cast saved sizes reqs data = .error e) ∨
    ∃ written, (∀ data, readInto cast saved sizes reqs data = .ok (overlay written data)) ∧
      ∀ x, written x = none ↔ ∀ req ∈ reqs, x ∉ slice sizes req := by
  induction reqs with
  | nil => exact Or.inr ⟨fun _ => none, fun _ => rfl, by simp⟩
  | cons req reqs ih =>
    have hcons : ∀ data, readInto cast saved sizes (req :: reqs) data =
        ((saved.fetchTensor req >>= fun tensor => copyInto cast sizes req tensor data) >>=
          readInto cast saved sizes reqs) := fun data => rfl
    cases hfetch : saved.fetchTensor req with
    | error e => exact Or.inl ⟨e, fun data => by rw [hcons, hfetch]; rfl⟩
    | ok tensor =>
      by_cases hshape : narrowShape sizes req.destOffsets req.lengths ≠ tensor.shape
      · refine Or.inl ⟨.mismatchSizes req.storageIndex
          (narrowShape sizes req.destOffsets req.lengths) tensor.shape, fun data => ?_⟩
        rw [hcons, hfetch]
        simp only [bind, Except.bind, copyInto, if_pos hshape]
      · have hcopy : ∀ data, copyInto cast sizes req tensor data = .ok (overlay (fun x =>
            if x ∈ slice sizes req then some (cast (tensor.get (List.zipWith (· - ·) x req.destOffsets)))
            else none) data) := by
          intro data
          unfold copyInto
          rw [if_neg hshape]
          refine congrArg Except.ok (funext fun x => ?_)
          by_cases hx : x ∈ slice sizes req
          · exact (if_pos hx).trans (by simp [overlay, hx])
          · exact (if_neg hx).trans (by simp [overlay, hx])
        rcases ih with ⟨e, he⟩ | ⟨written, hwritten, hslices⟩
        · refine Or.inl ⟨e, fun data => ?_⟩
          rw [hcons, hfetch]
          simp only [bind, Except.bind, hcopy, he]
        · refine Or.inr ⟨fun x => (written x).or (if x ∈ slice sizes req then
            some (cast (tensor.get (List.zipWith (· - ·) x req.destOffsets))) else none), ?_, ?_⟩
          · intro data
            rw [hcons, hfetch]
            simp only [bind, Except.bind, hcopy, hwritten]
            refine congrArg Except.ok (funext fun x => ?_)
            simp only [overlay]
            cases written x <;> simp
          · intro x
            rw [List.forall_mem_cons, Option.or_eq_none_iff, hslices, and_comm]
            simp

/-- A read acts through what it asks for. -/
theorem readInto_congr (h : reqs.map ReadItem.request = reqs'.map ReadItem.request) :
    readInto cast saved sizes reqs = readInto cast saved sizes reqs' := by
  induction reqs generalizing reqs' with
  | nil =>
    obtain rfl := List.map_eq_nil_iff.1 h.symm
    rfl
  | cons req reqs ih =>
    cases reqs' with
    | nil => cases h
    | cons req' reqs' =>
      obtain ⟨hreq, hrest⟩ := List.cons.inj h
      simp only [ReadItem.request, Prod.mk.injEq] at hreq
      obtain ⟨hdest, hindex, hstorage, hlengths⟩ := hreq
      have hfetch : saved.fetchTensor req = saved.fetchTensor req' := by
        simp only [SavedTensor.fetchTensor, hindex, hstorage, hlengths]
      have hcopy : ∀ tensor data, copyInto cast sizes req tensor data =
          copyInto cast sizes req' tensor data := by
        intro tensor data
        simp only [copyInto, hdest, hindex, hlengths]
      funext data
      have hstep : ∀ r rs, readInto cast saved sizes (r :: rs) data =
        ((saved.fetchTensor r >>= fun tensor => copyInto cast sizes r tensor data) >>=
          readInto cast saved sizes rs) := fun r rs => rfl
      rw [hstep, hstep, hfetch, ih hrest]
      simp only [hcopy]

/-- Whether a chunk can be read depends on neither its dtype nor what it held. -/
theorem readInto_ok {cast' : α → α} {data data' out : List ℕ → α}
    (h : readInto cast saved sizes reqs data = .ok out) :
    ∃ out', readInto cast' saved sizes reqs data' = .ok out' := by
  have hcons : ∀ (cast : α → α) req reqs data, readInto cast saved sizes (req :: reqs) data =
      ((saved.fetchTensor req >>= fun tensor => copyInto cast sizes req tensor data) >>=
        readInto cast saved sizes reqs) := fun _ _ _ _ => rfl
  induction reqs generalizing data data' with
  | nil => exact ⟨_, rfl⟩
  | cons req reqs ih =>
    rw [hcons] at h ⊢
    cases hfetch : saved.fetchTensor req with
    | error e =>
      rw [hfetch] at h
      cases h
    | ok tensor =>
      rw [hfetch] at h
      change (copyInto cast sizes req tensor data >>= readInto cast saved sizes reqs) = _ at h
      change ∃ out', (copyInto cast' sizes req tensor data' >>=
        readInto cast' saved sizes reqs) = .ok out'
      unfold copyInto at h ⊢
      by_cases hshape : narrowShape sizes req.destOffsets req.lengths ≠ tensor.shape
      · rw [if_pos hshape] at h
        cases h
      · rw [if_neg hshape] at h ⊢
        exact ih h

/-- A sent buffer of the same shape arrives as it is. -/
theorem received_self {data : List ℕ → α} (hx : x ∈ Box.localPoints sizes) :
    received sizes sizes data x = data x := by
  suffices h : ∀ {sizes x : List ℕ}, x ∈ Box.localPoints sizes →
      MixedRadix.ofDigits sizes x < sizes.prod ∧
        MixedRadix.digits sizes (MixedRadix.ofDigits sizes x) = x by
    rw [received, (h hx).2]
  intro sizes x hx
  induction sizes generalizing x with
  | nil =>
    obtain rfl := List.forall₂_nil_right_iff.1 hx
    exact ⟨Nat.zero_lt_one, rfl⟩
  | cons n sizes ih =>
    obtain ⟨t, y, ht, hy, rfl⟩ := List.forall₂_cons_right_iff.1 hx
    obtain ⟨hlt, hdigits⟩ := ih hy
    rw [MixedRadix.ofDigits, Nat.mod_eq_of_lt ht, MixedRadix.digits_mul_add ht hlt, hdigits]
    refine ⟨?_, rfl⟩
    rw [List.prod_cons]
    calc t * sizes.prod + MixedRadix.ofDigits sizes y
        < t * sizes.prod + sizes.prod := Nat.add_lt_add_left hlt _
      _ = (t + 1) * sizes.prod := (Nat.succ_mul t _).symm
      _ ≤ n * sizes.prod := Nat.mul_le_mul_right _ ht

end ReadInto

/-! ### The broadcast load -/

namespace LoadWorld

variable {α : Type*} {w : LoadWorld α} {rank member : ℕ} {key : ShardKey}
  {source : BroadcastSource}

theorem decision_eq (rank : ℕ) : w.decision rank = sources w.elementSize w.plans :=
  sources_gathered rank

theorem reads_ne_nil_iff : w.reads rank key ≠ [] ↔
    ∃ item ∈ w.plans.getD rank [], item.Names key := by
  unfold LoadWorld.reads
  rw [Ne, List.filter_eq_nil_iff]
  simp

theorem member_reads (h : (w.decision rank).lookup key = some source)
    (hmember : member ∈ source.groupRanks) :
    member < w.plans.length ∧ w.reads member key ≠ [] := by
  rw [decision_eq] at h
  rw [(lookup_sources h).1] at hmember
  obtain ⟨hlt, hread⟩ := mem_groupRanks.1 hmember
  exact ⟨hlt, reads_ne_nil_iff.2 hread⟩

/-- The chunk and the reads of a rank that reads a shard. -/
theorem exists_chunk (hrank : rank < w.plans.length) (h : w.reads rank key ≠ []) :
    ∃ t chunk b i, w.checkpoint key.1 = some (.tensor t) ∧ w.chunk? rank key = some chunk ∧
      chunk.offsets = key.2 ∧ chunk.IsChunkOf t.size ∧
      w.reads rank key = chunkReads key.1 t.metadataChunks b chunk i :=
  (reads_eq hrank).resolve_left h

/-- Chunks of one key and one size ask for the same. -/
theorem requests_eq {rank' : ℕ} (hrank : rank < w.plans.length) (hrank' : rank' < w.plans.length)
    (hreads : w.reads rank key ≠ []) (hreads' : w.reads rank' key ≠ [])
    (hsizes : (w.chunk? rank key).map ChunkStorageMetadata.sizes =
      (w.chunk? rank' key).map ChunkStorageMetadata.sizes) :
    w.chunk? rank key = w.chunk? rank' key ∧
      (w.reads rank key).map ReadItem.request = (w.reads rank' key).map ReadItem.request := by
  obtain ⟨t, chunk, b, i, ht, hchunk, hoff, -, hr⟩ := exists_chunk hrank hreads
  obtain ⟨t', chunk', b', i', ht', hchunk', hoff', -, hr'⟩ := exists_chunk hrank' hreads'
  have hteq : t = t' := by
    rw [ht, Option.some.injEq, Stored.tensor.injEq] at ht'
    exact ht'
  rw [hchunk, hchunk', Option.map_some, Option.map_some, Option.some.injEq] at hsizes
  have hceq : chunk = chunk' := by
    cases chunk
    cases chunk'
    simp only at hoff hoff' hsizes
    rw [hoff, hoff', hsizes]
  subst hteq hceq
  refine ⟨by rw [hchunk, hchunk'], ?_⟩
  rw [hr, hr']
  exact request_chunkReads _ _ _ _ _ _ _

/-- The source of a shard is that of the first of its reads, as the decision marks it. -/
theorem source?_eq_bind (hrank : rank < w.plans.length) :
    w.source? rank key = (w.reads rank key).head?.bind fun item =>
      if w.plans.length < 2 then item.source else (item.mark (w.decision rank)).source := by
  have hown : (gathered w.plans rank).getD rank [] = w.plans.getD rank [] := by
    rw [gathered, List.getD_eq_getElem?_getD, List.getElem?_set_self (by simpa using hrank),
      Option.getD_some]
  have hlen : (gathered w.plans rank).length = w.plans.length := by simp [gathered]
  have hnames : ∀ item : ReadItem, (item.mark (w.decision rank)).Names key ↔ item.Names key := by
    intro item
    unfold ReadItem.mark
    split <;> rfl
  unfold source? finalPlan buildGlobalPlan
  rw [hown, hlen]
  by_cases hsmall : w.plans.length < 2
  · simp only [hsmall, or_true, if_true]
    rfl
  · simp only [hsmall, Bool.not_true, Bool.false_eq_true, or_self, if_false]
    rw [List.filter_map, List.head?_map]
    simp only [Function.comp_def]
    have hfilter : ((w.plans.getD rank []).filter fun item =>
        decide ((item.mark (sources w.elementSize (gathered w.plans rank))).Names key)) =
          w.reads rank key := List.filter_congr fun item _ => by
      rw [decide_eq_decide]
      exact hnames item
    rw [hfilter]
    cases (w.reads rank key).head? <;> rfl

/-- The source that a rank finds in its plan is the one decided for the shard. -/
theorem lookup_of_source? (hrank : rank < w.plans.length)
    (h : w.source? rank key = some source) :
    (w.decision rank).lookup key = some source ∧ w.reads rank key ≠ [] := by
  rw [source?_eq_bind hrank] at h
  cases hhead : (w.reads rank key).head? with
  | none => simp [hhead] at h
  | some item =>
    have hitem : item ∈ w.reads rank key := List.mem_of_mem_head? hhead
    have hne : w.reads rank key ≠ [] := List.ne_nil_of_mem hitem
    obtain ⟨t, chunk, b, i, -, -, -, -, hr⟩ := exists_chunk hrank hne
    obtain ⟨-, hkey⟩ : item.Names key := of_decide_eq_true (List.mem_filter.1 hitem).2
    have hunmarked : item.source = none := by
      rw [hr] at hitem
      exact (destIndex_of_mem_chunkReads hitem).2.2.2
    refine ⟨?_, hne⟩
    rw [hhead, Option.bind_some, hunmarked] at h
    split_ifs at h
    rw [ReadItem.mark, hkey] at h
    cases hlookup : (w.decision rank).lookup key with
    | none => simp [hlookup, hunmarked] at h
    | some decided => simpa [hlookup] using h

/-- A rank of a group with a source finds it in its plan. -/
theorem source?_of_lookup (hrank : rank < w.plans.length) (hsmall : ¬ w.plans.length < 2)
    (hreads : w.reads rank key ≠ []) (h : (w.decision rank).lookup key = some source) :
    w.source? rank key = some source := by
  obtain ⟨item, items, hitems⟩ := List.exists_cons_of_ne_nil hreads
  have hitem : item ∈ w.reads rank key := by rw [hitems]; exact List.mem_cons_self
  obtain ⟨-, hkey⟩ : item.Names key := of_decide_eq_true (List.mem_filter.1 hitem).2
  rw [source?_eq_bind hrank, hitems, List.head?_cons, Option.bind_some, if_neg hsmall,
    ReadItem.mark, hkey, h]

/-- Every member of a group takes part with a shard like the source's. -/
theorem shards_eq_source (h : w.SameShards) (hlookup : (w.decision rank).lookup key = some source)
    (hmember : member ∈ source.groupRanks) :
    (w.chunk? member key).map ChunkStorageMetadata.sizes =
        (w.chunk? source.srcRank key).map ChunkStorageMetadata.sizes ∧
      ∀ chunk, w.chunk? member key = some chunk → (∃ data, w.ownRead member key = .ok data) →
        w.dtype? member key.1 = w.dtype? source.srcRank key.1 ∧
        ∀ x ∈ Box.localPoints chunk.sizes, (∀ req ∈ w.reads member key, x ∉ slice chunk.sizes req) →
          w.held member key x = w.held source.srcRank key x := by
  have hdecided := hlookup
  rw [decision_eq] at hdecided
  obtain ⟨hgroup, hsrc, hsend⟩ := lookup_sources hdecided
  obtain ⟨hlt, hreads⟩ := member_reads hlookup hmember
  obtain ⟨hsrclt, hsrcreads⟩ := member_reads hlookup (hgroup ▸ hsrc)
  refine h key ?_ member hlt source.srcRank hsrclt (reads_ne_nil_iff.1 hreads)
    (reads_ne_nil_iff.1 hsrcreads)
  intro plan hplan item hitem hnames
  by_contra hfalse
  exact hsend ⟨item, List.mem_flatten.2 ⟨plan, hplan, hitem⟩, hnames, by simpa using hfalse⟩

/-- The own reads of a rank and of one with the same chunk, of the same dtype. -/
theorem ownRead_eq {rank' : ℕ} (hrank : rank < w.plans.length) (hrank' : rank' < w.plans.length)
    (hreads : w.reads rank key ≠ []) (hreads' : w.reads rank' key ≠ [])
    (hsizes : (w.chunk? rank key).map ChunkStorageMetadata.sizes =
      (w.chunk? rank' key).map ChunkStorageMetadata.sizes) :
    ∃ (saved : SavedTensor α) (chunk : ChunkStorageMetadata), w.chunk? rank key = some chunk ∧
      w.chunk? rank' key = some chunk ∧
      w.ownRead rank key = readInto (w.copied rank key.1) saved chunk.sizes (w.reads rank key)
        (w.held rank key) ∧
      w.ownRead rank' key = readInto (w.copied rank' key.1) saved chunk.sizes (w.reads rank key)
        (w.held rank' key) := by
  obtain ⟨hsame, hrequests⟩ := requests_eq hrank hrank' hreads hreads' hsizes
  obtain ⟨t, chunk, -, -, ht, hchunk, -⟩ := exists_chunk hrank hreads
  refine ⟨t.toSavedTensor, chunk, hchunk, hsame ▸ hchunk, ?_, ?_⟩
  · simp only [ownRead, ht, hchunk]
  · simp only [ownRead, ht, ← hsame, hchunk, readInto_congr hrequests]

theorem broadcastsCorrectly_of_sameShards (h : w.SameShards) : w.BroadcastsCorrectly where
  sameDecision rank _ rank' _ := by rw [decision_eq, decision_eq]
  sourceInGroup rank _ key source hlookup := by
    rw [decision_eq] at hlookup
    obtain ⟨hgroup, hsrc, -⟩ := lookup_sources hlookup
    exact hgroup ▸ hsrc
  sameRequests rank _ key source hlookup member hmember := by
    have hsizes := (shards_eq_source h hlookup hmember).1
    have hdecided := hlookup
    rw [decision_eq] at hdecided
    obtain ⟨hgroup, hsrc, -⟩ := lookup_sources hdecided
    obtain ⟨hlt, hreads⟩ := member_reads hlookup hmember
    obtain ⟨hsrclt, hsrcreads⟩ := member_reads hlookup (hgroup ▸ hsrc)
    exact ⟨hsizes, (requests_eq hlt hsrclt hreads hsrcreads hsizes).2⟩
  sameData rank hrank key chunk data hchunk hown := by
    cases hsource : w.source? rank key with
    | none => exact ⟨data, by rw [loaded, hsource]; exact hown, fun _ _ => rfl⟩
    | some source =>
      obtain ⟨hlookup, hreads⟩ := lookup_of_source? hrank hsource
      have hdecided := hlookup
      rw [decision_eq] at hdecided
      obtain ⟨hgroup, hsrc, -⟩ := lookup_sources hdecided
      by_cases hself : source.srcRank = rank
      · exact ⟨data, by simp only [loaded, hsource, if_pos hself]; exact hown, fun _ _ => rfl⟩
      · obtain ⟨hsrclt, hsrcreads⟩ := member_reads hlookup (hgroup ▸ hsrc)
        have hmember : rank ∈ source.groupRanks :=
          hgroup ▸ mem_groupRanks.2 ⟨hrank, reads_ne_nil_iff.1 hreads⟩
        obtain ⟨hsizes, hrest⟩ := shards_eq_source h hlookup hmember
        obtain ⟨hdtype, hholes⟩ := hrest chunk hchunk ⟨data, hown⟩
        obtain ⟨saved, own, hown', hsent, hownRead, hsrcRead⟩ :=
          ownRead_eq hrank hsrclt hreads hsrcreads hsizes
        obtain rfl : own = chunk := Option.some.inj (hown'.symm.trans hchunk)
        have hcopied : w.copied source.srcRank key.1 = w.copied rank key.1 := by
          rw [copied, copied, hdtype]
        -- both ranks write the same elements
        rw [hcopied] at hsrcRead
        rcases exists_written (w.copied rank key.1) saved own.sizes (w.reads rank key) with
          ⟨e, he⟩ | ⟨written, hwritten, hslices⟩
        · rw [hownRead, he] at hown
          cases hown
        · rw [hownRead, hwritten, Except.ok.injEq] at hown
          refine ⟨received own.sizes own.sizes (overlay written (w.held source.srcRank key)), ?_,
            fun x hx => ?_⟩
          · simp only [loaded, hsource, if_neg hself, hsrcRead, hwritten, bind, Except.bind,
              hsent, hchunk]
            rw [if_neg fun hne => hne hdtype.symm]
            rfl
          · rw [received_self hx, ← hown]
            unfold overlay
            cases hx' : written x with
            | none => exact (hholes x hx ((hslices x).1 hx')).symm
            | some a => rfl

/-- What a broadcast load that is correct says of a rank of a group and its source. -/
theorem BroadcastsCorrectly.held_eq (h : w.BroadcastsCorrectly) (hrank : rank < w.plans.length)
    (hlookup : (w.decision rank).lookup key = some source) (hmember : rank ∈ source.groupRanks)
    {chunk : ChunkStorageMetadata} (hchunk : w.chunk? rank key = some chunk)
    (hread : ∃ data, w.ownRead rank key = .ok data) :
    w.dtype? rank key.1 = w.dtype? source.srcRank key.1 ∧
      ∀ x ∈ Box.localPoints chunk.sizes, (∀ req ∈ w.reads rank key, x ∉ slice chunk.sizes req) →
        w.held rank key x = w.held source.srcRank key x := by
  by_cases hself : source.srcRank = rank
  · rw [hself]
    exact ⟨rfl, fun _ _ _ => rfl⟩
  obtain ⟨data, hown⟩ := hread
  obtain ⟨data', hloaded, hdata⟩ := h.sameData rank hrank key chunk data hchunk hown
  have hsrc := h.sourceInGroup rank hrank key source hlookup
  obtain ⟨-, hreads⟩ := member_reads hlookup hmember
  obtain ⟨hsrclt, hsrcreads⟩ := member_reads hlookup hsrc
  have hsource := source?_of_lookup hrank (by omega) hreads hlookup
  obtain ⟨saved, own, hown', hsent, hownRead, hsrcRead⟩ := ownRead_eq hrank hsrclt hreads hsrcreads
    (h.sameRequests rank hrank key source hlookup rank hmember).1
  obtain rfl : own = chunk := Option.some.inj (hown'.symm.trans hchunk)
  simp only [loaded, hsource, if_neg hself, hsent, hchunk] at hloaded
  cases hsrcOk : w.ownRead source.srcRank key with
  | error e => simp [hsrcOk, bind, Except.bind] at hloaded
  | ok sent =>
    rw [hsrcOk] at hloaded
    simp only [bind, Except.bind] at hloaded
    split_ifs at hloaded with hne
    have hdtype := (not_not.1 hne).symm
    refine ⟨hdtype, fun x hx hholes => ?_⟩
    have hcopied : w.copied source.srcRank key.1 = w.copied rank key.1 := by
      rw [copied, copied, hdtype]
    rw [hcopied] at hsrcRead
    have hsame := hdata x hx
    rw [← Except.ok.inj hloaded, received_self hx] at hsame
    rcases exists_written (w.copied rank key.1) saved own.sizes (w.reads rank key) with
      ⟨e, he⟩ | ⟨written, hwritten, hslices⟩
    · rw [hownRead, he] at hown
      cases hown
    · have hnone := (hslices x).2 hholes
      rw [hownRead, hwritten, Except.ok.injEq] at hown
      rw [hsrcRead, hwritten, Except.ok.injEq] at hsrcOk
      rw [← hown, ← hsrcOk, overlay, overlay, hnone] at hsame
      exact hsame.symm

/-- A shard that two ranks read, every rank as broadcastable, has a source for both. -/
theorem exists_shared {rank' : ℕ}
    (hsend : ∀ plan ∈ w.plans, ∀ item ∈ plan, item.Names key → item.broadcastable = true)
    (hrank : rank < w.plans.length) (hrank' : rank' < w.plans.length) (hne : rank ≠ rank')
    (hread : ∃ item ∈ w.plans.getD rank [], item.Names key)
    (hread' : ∃ item ∈ w.plans.getD rank' [], item.Names key) :
    ∃ source, (w.decision rank).lookup key = some source ∧ rank ∈ source.groupRanks ∧
      rank' ∈ source.groupRanks := by
  have hsendable : ¬ Unsendable w.plans key := by
    rintro ⟨item, hitem, hnames, hfalse⟩
    obtain ⟨plan, hplan, hitem⟩ := List.mem_flatten.1 hitem
    exact Bool.false_ne_true (hfalse ▸ hsend plan hplan item hitem hnames)
  have hmem := mem_groupRanks.2 ⟨hrank, hread⟩
  have hmem' := mem_groupRanks.2 ⟨hrank', hread'⟩
  have hlen : 1 < (groupRanks w.plans key).length := by
    by_contra hle
    obtain ⟨a, ha⟩ := List.length_eq_one_iff.1 (by
      have := List.length_pos_of_mem hmem
      omega : (groupRanks w.plans key).length = 1)
    rw [ha, List.mem_singleton] at hmem hmem'
    exact hne (hmem.trans hmem'.symm)
  obtain ⟨source, hsource⟩ := exists_source w.elementSize hlen hsendable
  have hgroup := (lookup_sources hsource).1
  rw [← decision_eq rank] at hsource
  exact ⟨source, hsource, hgroup ▸ hmem, hgroup ▸ hmem'⟩

/-- Two ranks load a tensor of four elements saved in one piece: the first the whole of it, the
second its first half. -/
def wholeAndHalf : LoadWorld ℕ where
  checkpoint fqn := if fqn = "w" then some (.tensor {
    fqn := "w"
    chunks := [⟨⟨[0], [4]⟩, ⟨"_rank0_.safetensors", 0, -1, some "w"⟩, ⟨[4], (·.headD 0)⟩, rfl⟩]
    nodup := by simp
    properties := ⟨"torch.float32", false, none⟩
    size := [4]
    isChunkOf := by simpa using ⟨rfl, rfl, by decide⟩ }) else none
  allowPartialLoad := false
  destinations := [[⟨"w", [4], [⟨[0], [4]⟩], false, "torch.float32"⟩],
    [⟨"w", [4], [⟨[0], [2]⟩], false, "torch.float32"⟩]]
  plans := [[readItem "w" true 0 ⟨[0], [4]⟩ 0 ⟨[0], [4]⟩ [(0, 4)]],
    [readItem "w" true 0 ⟨[0], [2]⟩ 0 ⟨[0], [4]⟩ [(0, 2)]]]
  held _ _ _ := 0
  cast _ := id
  fqn_eq fqn t h := by
    split_ifs at h with hfqn
    rw [Option.some.injEq, Stored.tensor.injEq] at h
    exact h ▸ hfqn.symm
  nodup_fqns := by decide
  nodup_offsets := by decide
  isChunkOf := by simpa using ⟨⟨rfl, rfl, by decide⟩, ⟨rfl, rfl, by decide⟩⟩
  planned := .cons rfl (.cons rfl .nil)

end LoadWorld

end HyperParallel.Checkpoint
