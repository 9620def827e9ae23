import HyperParallel.Checkpoint.BroadcastBatcher
import HyperParallel.Checkpoint.BroadcastLoad
import Mathlib.Data.Fintype.EquivFin
import Mathlib.Data.List.TakeWhile

/-!
# The broadcasts of all ranks fit together

Each broadcast carries a stamp: the shard at which it was started, or its first shard when the
flush starts it.  The stamps increase along a rank (`pairwise_stamped`), and what a rank starts in
one group is what the batcher makes of the shards of that group alone (`stamped_filter`).  So ranks
whose shared shards have the same buffers start the same broadcasts
(`LoadWorld.inStep_iff`).
-/

namespace HyperParallel.Checkpoint

/-! ### What one shard does -/

section Batcher

variable {batchBytes : ℕ} {elementSize : String → ℕ} {batches batches' : List Batch}
  {shard : SharedShard} {shards : List SharedShard} {sent : Option Broadcast} {group : List ℕ}

/-- The four things `add` can do. -/
inductive AddStep (batchBytes : ℕ) (elementSize : String → ℕ) (batches : List Batch)
    (shard : SharedShard) : Option Broadcast × List Batch → Prop
  /-- The shard is sent on its own. -/
  | alone (h : batchBytes ≤ shard.nbytes elementSize) :
      AddStep batchBytes elementSize batches shard
        (some (Batch.single shard (shard.nbytes elementSize)).send, batches)
  /-- No batch takes the shard. -/
  | opens (h : shard.nbytes elementSize < batchBytes) (hnone : ∀ b ∈ batches, ¬ b.Accepts shard) :
      AddStep batchBytes elementSize batches shard
        (none, batches ++ [.single shard (shard.nbytes elementSize)])
  /-- The batch that takes it is sent first. -/
  | overflows (before after : List Batch) (batch : Batch)
      (h : shard.nbytes elementSize < batchBytes) (hsplit : batches = before ++ batch :: after)
      (hbefore : ∀ b ∈ before, ¬ b.Accepts shard) (haccepts : batch.Accepts shard)
      (hfull : batchBytes < batch.pendingBytes + shard.nbytes elementSize) :
      AddStep batchBytes elementSize batches shard
        (some batch.send, before ++ after ++ [.single shard (shard.nbytes elementSize)])
  /-- It joins the batch that takes it. -/
  | joins (before after : List Batch) (batch : Batch)
      (h : shard.nbytes elementSize < batchBytes) (hsplit : batches = before ++ batch :: after)
      (hbefore : ∀ b ∈ before, ¬ b.Accepts shard) (haccepts : batch.Accepts shard)
      (hroom : ¬ batchBytes < batch.pendingBytes + shard.nbytes elementSize) :
      AddStep batchBytes elementSize batches shard
        (none, before ++ batch.push shard (shard.nbytes elementSize) :: after)

theorem add_eq_of_split {before after : List Batch} {batch : Batch}
    (h : shard.nbytes elementSize < batchBytes)
    (hbefore : ∀ b ∈ before, ¬ b.Accepts shard) (haccepts : batch.Accepts shard) :
    add batchBytes elementSize (before ++ batch :: after) shard =
      if batchBytes < batch.pendingBytes + shard.nbytes elementSize then
        (some batch.send, before ++ after ++ [.single shard (shard.nbytes elementSize)])
      else (none, before ++ batch.push shard (shard.nbytes elementSize) :: after) := by
  have hspan : (before ++ batch :: after).span (fun b => decide (¬ b.Accepts shard)) =
      (before, batch :: after) := by
    rw [List.span_eq_takeWhile_dropWhile, List.takeWhile_append_of_pos (by simpa using hbefore),
      List.dropWhile_append_of_pos (by simpa using hbefore)]
    simp [haccepts]
  unfold add
  rw [if_neg (not_le.2 h), hspan]

theorem add_eq_of_none (h : shard.nbytes elementSize < batchBytes)
    (hnone : ∀ b ∈ batches, ¬ b.Accepts shard) :
    add batchBytes elementSize batches shard =
      (none, batches ++ [.single shard (shard.nbytes elementSize)]) := by
  have hspan : batches.span (fun b => decide (¬ b.Accepts shard)) = (batches, []) := by
    rw [List.span_eq_takeWhile_dropWhile, List.takeWhile_eq_self_iff.2 (by simpa using hnone),
      List.dropWhile_eq_nil_iff.2 (by simpa using hnone)]
  unfold add
  rw [if_neg (not_le.2 h), hspan]

theorem add_eq_of_le (h : batchBytes ≤ shard.nbytes elementSize) :
    add batchBytes elementSize batches shard =
      (some (Batch.single shard (shard.nbytes elementSize)).send, batches) :=
  if_pos h

theorem addStep (batchBytes : ℕ) (elementSize : String → ℕ) (batches : List Batch)
    (shard : SharedShard) :
    AddStep batchBytes elementSize batches shard (add batchBytes elementSize batches shard) := by
  by_cases h : batchBytes ≤ shard.nbytes elementSize
  · rw [add_eq_of_le h]
    exact .alone h
  · rw [not_le] at h
    by_cases hany : ∃ b ∈ batches, b.Accepts shard
    · obtain ⟨before, batch, after, rfl, haccepts, hbefore⟩ :
          ∃ before batch after, batches = before ++ batch :: after ∧ batch.Accepts shard ∧
            ∀ b ∈ before, ¬ b.Accepts shard := by
        induction batches with
        | nil => simp at hany
        | cons c batches ih =>
          by_cases hc : c.Accepts shard
          · exact ⟨[], c, batches, rfl, hc, by simp⟩
          · obtain ⟨before, batch, after, rfl, haccepts, hbefore⟩ :=
              ih (by simpa [hc] using hany)
            exact ⟨c :: before, batch, after, rfl, haccepts,
              List.forall_mem_cons.2 ⟨hc, hbefore⟩⟩
      rw [add_eq_of_split h hbefore haccepts]
      split_ifs with hfull
      · exact .overflows before after batch h rfl hbefore haccepts hfull
      · exact .joins before after batch h rfl hbefore haccepts hfull
    · have hnone : ∀ b ∈ batches, ¬ b.Accepts shard := fun b hb hacc => hany ⟨b, hb, hacc⟩
      rw [add_eq_of_none h hnone]
      exact .opens h hnone

/-! ### Stamps -/

/-- Before the flush or in it, and the shard. -/
abbrev Stamp := ℕ ×ₗ (String ×ₗ List ℕ)

/-- The stamp of a broadcast that a shard starts. -/
def stampAt (key : ShardKey) : Stamp := toLex (0, toLex key)

/-- The stamp of a broadcast that the flush starts. -/
def stampFlush (key : ShardKey) : Stamp := toLex (1, toLex key)

theorem stampAt_lt_iff {key key' : ShardKey} :
    stampAt key < stampAt key' ↔ toLex key < toLex key' := by
  simp [stampAt, Prod.Lex.toLex_lt_toLex]

theorem stampFlush_lt_iff {key key' : ShardKey} :
    stampFlush key < stampFlush key' ↔ toLex key < toLex key' := by
  simp [stampFlush, Prod.Lex.toLex_lt_toLex]

theorem stampAt_lt_stampFlush (key key' : ShardKey) : stampAt key < stampFlush key' := by
  simp [stampAt, stampFlush, Prod.Lex.toLex_lt_toLex]

/-- `issued`, with the stamps. -/
def stamped (batchBytes : ℕ) (elementSize : String → ℕ) :
    List Batch → List SharedShard → List (Stamp × Broadcast)
  | batches, [] => batches.map fun b => (stampFlush b.first.key, b.send)
  | batches, shard :: shards =>
      ((add batchBytes elementSize batches shard).1.map fun b => (stampAt shard.key, b)).toList ++
        stamped batchBytes elementSize (add batchBytes elementSize batches shard).2 shards

theorem map_snd_stamped : (stamped batchBytes elementSize batches shards).map Prod.snd =
    issued batchBytes elementSize batches shards := by
  induction shards generalizing batches with
  | nil => simp [stamped, issued, flush, Function.comp_def]
  | cons shard shards ih =>
    rw [stamped, issued, List.map_append, ih]
    generalize add batchBytes elementSize batches shard = result
    obtain ⟨sent, batches⟩ := result
    cases sent <;> rfl

/-- The batches of one group. -/
def ofGroup (group : List ℕ) (batches : List Batch) : List Batch :=
  batches.filter fun b => b.first.source.groupRanks = group

theorem ofGroup_append {l l' : List Batch} :
    ofGroup group (l ++ l') = ofGroup group l ++ ofGroup group l' :=
  List.filter_append ..

theorem ofGroup_cons_of_eq {b : Batch} (h : b.first.source.groupRanks = group) :
    ofGroup group (b :: batches) = b :: ofGroup group batches := by
  simp [ofGroup, h]

theorem ofGroup_cons_of_ne {b : Batch} (h : b.first.source.groupRanks ≠ group) :
    ofGroup group (b :: batches) = ofGroup group batches := by
  simp [ofGroup, h]

theorem group_of_accepts {b : Batch} (h : b.Accepts shard) :
    b.first.source.groupRanks = shard.source.groupRanks := by
  rw [h.1]

/-- A shard of another group leaves the batches of a group alone. -/
theorem add_ofGroup_of_ne (batchBytes : ℕ) (elementSize : String → ℕ) (batches : List Batch)
    (h : shard.source.groupRanks ≠ group) :
    (∀ b, (add batchBytes elementSize batches shard).1 = some b →
      b.source.groupRanks ≠ group) ∧
    ofGroup group (add batchBytes elementSize batches shard).2 = ofGroup group batches := by
  have hstep := addStep batchBytes elementSize batches shard
  generalize add batchBytes elementSize batches shard = result at hstep
  cases hstep with
  | alone hle =>
    refine ⟨fun b hb => ?_, rfl⟩
    obtain rfl := Option.some.inj hb
    exact h
  | opens hlt hnone =>
    refine ⟨fun b hb => (by cases hb), ?_⟩
    rw [ofGroup_append, ofGroup_cons_of_ne h]
    exact List.append_nil _
  | overflows before after batch hlt hsplit hbefore haccepts hfull =>
    have hbatch : batch.first.source.groupRanks ≠ group := group_of_accepts haccepts ▸ h
    refine ⟨fun b hb => ?_, ?_⟩
    · obtain rfl := Option.some.inj hb
      exact hbatch
    · rw [hsplit, ofGroup_append, ofGroup_append, ofGroup_append, ofGroup_cons_of_ne h,
        ofGroup_cons_of_ne hbatch]
      exact List.append_nil _
  | joins before after batch hlt hsplit hbefore haccepts hroom =>
    have hbatch : batch.first.source.groupRanks ≠ group := group_of_accepts haccepts ▸ h
    refine ⟨fun b hb => (by cases hb), ?_⟩
    rw [hsplit, ofGroup_append, ofGroup_append, ofGroup_cons_of_ne hbatch]
    exact congrArg _ (ofGroup_cons_of_ne hbatch)

/-- A shard of a group meets the batches of its group only. -/
theorem add_ofGroup_of_eq (batchBytes : ℕ) (elementSize : String → ℕ) (batches : List Batch)
    (h : shard.source.groupRanks = group) :
    add batchBytes elementSize (ofGroup group batches) shard =
      ((add batchBytes elementSize batches shard).1,
        ofGroup group (add batchBytes elementSize batches shard).2) ∧
    ∀ b, (add batchBytes elementSize batches shard).1 = some b → b.source.groupRanks = group := by
  have hstep := addStep batchBytes elementSize batches shard
  generalize add batchBytes elementSize batches shard = result at hstep
  have hrest : ∀ l : List Batch, (∀ b ∈ l, ¬ b.Accepts shard) →
      ∀ b ∈ ofGroup group l, ¬ b.Accepts shard := fun l hl b hb => hl b (List.mem_of_mem_filter hb)
  cases hstep with
  | alone hle =>
    refine ⟨add_eq_of_le hle, fun b hb => ?_⟩
    obtain rfl := Option.some.inj hb
    exact h
  | opens hlt hnone =>
    refine ⟨?_, fun b hb => by cases hb⟩
    rw [add_eq_of_none hlt (hrest batches hnone), ofGroup_append, ofGroup_cons_of_eq h]
    rfl
  | overflows before after batch hlt hsplit hbefore haccepts hfull =>
    have hbatch : batch.first.source.groupRanks = group := (group_of_accepts haccepts).trans h
    refine ⟨?_, fun b hb => ?_⟩
    · rw [hsplit, ofGroup_append, ofGroup_cons_of_eq hbatch,
        add_eq_of_split hlt (hrest before hbefore) haccepts, if_pos hfull, ofGroup_append,
        ofGroup_append, ofGroup_cons_of_eq h]
      rfl
    · obtain rfl := Option.some.inj hb
      exact hbatch
  | joins before after batch hlt hsplit hbefore haccepts hroom =>
    have hbatch : batch.first.source.groupRanks = group := (group_of_accepts haccepts).trans h
    refine ⟨?_, fun b hb => by cases hb⟩
    rw [hsplit, ofGroup_append, ofGroup_cons_of_eq hbatch,
      add_eq_of_split hlt (hrest before hbefore) haccepts, if_neg hroom, ofGroup_append]
    exact congrArg _ (congrArg _ (ofGroup_cons_of_eq (b := batch.push shard _) hbatch).symm)

/-- The broadcasts of a group are what the batcher makes of the shards of the group. -/
theorem stamped_filter :
    (stamped batchBytes elementSize batches shards).filter (·.2.source.groupRanks = group) =
      stamped batchBytes elementSize (ofGroup group batches)
        (shards.filter (·.source.groupRanks = group)) := by
  induction shards generalizing batches with
  | nil =>
    simp only [stamped, List.filter_nil, List.filter_map]
    rfl
  | cons shard shards ih =>
    rw [stamped, List.filter_append, ih]
    by_cases h : shard.source.groupRanks = group
    · obtain ⟨hadd, hsent⟩ := add_ofGroup_of_eq batchBytes elementSize batches h
      rw [List.filter_cons_of_pos (by simpa using h), stamped, hadd]
      congr 1
      cases hb : (add batchBytes elementSize batches shard).1 with
      | none => rfl
      | some b => simp [hsent b hb]
    · obtain ⟨hsent, hbatches⟩ := add_ofGroup_of_ne batchBytes elementSize batches h
      rw [List.filter_cons_of_neg (by simpa using h), hbatches]
      cases hb : (add batchBytes elementSize batches shard).1 with
      | none => rfl
      | some b => simp [hsent b hb]

/-! ### The stamps increase -/

/-- Where the batches come from: their first shards are older ones, or the one that is added. -/
theorem first_add_sublist (batchBytes : ℕ) (elementSize : String → ℕ) (batches : List Batch)
    (shard : SharedShard) :
    ((add batchBytes elementSize batches shard).2.map Batch.first).Sublist
      (batches.map Batch.first ++ [shard]) := by
  have hstep := addStep batchBytes elementSize batches shard
  generalize add batchBytes elementSize batches shard = result at hstep
  cases hstep with
  | alone hle => exact List.sublist_append_left _ _
  | opens hlt hnone =>
    rw [List.map_append]
    exact List.Sublist.refl _
  | overflows before after batch hlt hsplit hbefore haccepts hfull =>
    rw [hsplit, List.map_append, List.map_append, List.map_append]
    apply List.Sublist.append _ (List.Sublist.refl _)
    exact (List.Sublist.refl _).append (List.sublist_cons_self _ _)
  | joins before after batch hlt hsplit hbefore haccepts hroom =>
    rw [hsplit, List.map_append, List.map_append]
    exact List.sublist_append_left _ _

/-- A stamp names the shard that starts the broadcast, or the first one of it, and either shard
has the source of the broadcast. -/
theorem mem_stamped {p : Stamp × Broadcast} (hp : p ∈ stamped batchBytes elementSize batches shards) :
    (∃ shard ∈ shards, p.1 = stampAt shard.key ∧ p.2.source = shard.source) ∨
      ∃ shard ∈ batches.map Batch.first ++ shards,
        p.1 = stampFlush shard.key ∧ p.2.source = shard.source := by
  induction shards generalizing batches with
  | nil =>
    obtain ⟨b, hb, rfl⟩ := List.mem_map.1 hp
    exact Or.inr ⟨b.first, List.mem_append_left _ (List.mem_map_of_mem hb), rfl, rfl⟩
  | cons shard shards ih =>
    rw [stamped, List.mem_append] at hp
    rcases hp with hp | hp
    · refine Or.inl ⟨shard, List.mem_cons_self, ?_⟩
      have hstep := addStep batchBytes elementSize batches shard
      generalize add batchBytes elementSize batches shard = result at hstep hp
      cases hstep with
      | alone hle =>
        obtain rfl := List.mem_singleton.1 hp
        exact ⟨rfl, rfl⟩
      | opens hlt hnone => cases hp
      | overflows before after batch hlt hsplit hbefore haccepts hfull =>
        obtain rfl := List.mem_singleton.1 hp
        exact ⟨rfl, haccepts.1⟩
      | joins before after batch hlt hsplit hbefore haccepts hroom => cases hp
    · rcases ih hp with ⟨shard', hmem, h⟩ | ⟨shard', hmem, h⟩
      · exact Or.inl ⟨shard', List.mem_cons_of_mem _ hmem, h⟩
      · refine Or.inr ⟨shard', ?_, h⟩
        rw [← List.singleton_append, ← List.append_assoc]
        exact ((first_add_sublist batchBytes elementSize batches shard).append
          (List.Sublist.refl _)).subset hmem

/-- Along shards in the order of their names the stamps increase. -/
theorem pairwise_stamped (h : (batches.map Batch.first ++ shards).Pairwise fun a b =>
    toLex a.key < toLex b.key) :
    (stamped batchBytes elementSize batches shards).Pairwise fun p q => p.1 < q.1 := by
  induction shards generalizing batches with
  | nil =>
    rw [List.append_nil, List.pairwise_map] at h
    rw [stamped, List.pairwise_map]
    exact h.imp fun hab => stampFlush_lt_iff.2 hab
  | cons shard shards ih =>
    have hcons := (List.pairwise_append.1 h).2.1
    rw [stamped, List.pairwise_append]
    refine ⟨?_, ih ?_, fun p hp q hq => ?_⟩
    · cases (add batchBytes elementSize batches shard).1 with
      | none => exact .nil
      | some b => exact List.pairwise_singleton _ _
    · rw [← List.singleton_append, ← List.append_assoc] at h
      exact h.sublist ((first_add_sublist batchBytes elementSize batches shard).append
        (List.Sublist.refl _))
    · obtain ⟨b, -, rfl⟩ := Option.mem_map.1 (Option.mem_toList.1 hp)
      rcases mem_stamped hq with ⟨shard', hmem, hstamp, -⟩ | ⟨shard', -, hstamp, -⟩
      · rw [hstamp, stampAt_lt_iff]
        exact (List.pairwise_cons.1 hcons).1 shard' hmem
      · rw [hstamp]
        exact stampAt_lt_stampFlush _ _

/-! ### Every shard is sent once -/

/-- The shards that a broadcast fills. -/
def Broadcast.contents (b : Broadcast) : List SharedShard :=
  b.buffers.map fun buffer => ⟨buffer.1, b.source, buffer.2, b.dtype⟩

/-- All shards of a batch have the key of the first one. -/
def Batch.Uniform (b : Batch) : Prop := ∀ shard ∈ b.rest, b.Accepts shard

theorem Batch.Uniform.contents_send {b : Batch} (h : b.Uniform) : b.send.contents = b.shards := by
  unfold Broadcast.contents send
  rw [List.map_map]
  refine List.map_congr_left (g := id) (fun shard hshard => ?_) |>.trans (List.map_id _)
  have haccepts : b.Accepts shard := by
    rcases List.mem_cons.1 hshard with rfl | hrest
    · exact ⟨rfl, rfl⟩
    · exact h shard hrest
  cases shard
  simp only [Function.comp_apply, id_eq, SharedShard.mk.injEq, true_and]
  exact haccepts

theorem Batch.uniform_single (shard : SharedShard) (nbytes : ℕ) :
    (Batch.single shard nbytes).Uniform := fun _ h => by cases h

theorem Batch.Uniform.push {b : Batch} (h : b.Uniform) (haccepts : b.Accepts shard)
    (nbytes : ℕ) : (b.push shard nbytes).Uniform := by
  intro other hother
  rcases List.mem_append.1 hother with hrest | hlast
  · exact h other hrest
  · obtain rfl := List.mem_singleton.1 hlast
    exact haccepts

/-- One shard more is sent or kept. -/
theorem perm_add (batchBytes : ℕ) (elementSize : String → ℕ) (shard : SharedShard)
    (h : ∀ b ∈ batches, b.Uniform) :
    (∀ b ∈ (add batchBytes elementSize batches shard).2, b.Uniform) ∧
    ((add batchBytes elementSize batches shard).1.toList.flatMap Broadcast.contents ++
      (add batchBytes elementSize batches shard).2.flatMap Batch.shards).Perm
      (batches.flatMap Batch.shards ++ [shard]) := by
  have hstep := addStep batchBytes elementSize batches shard
  generalize add batchBytes elementSize batches shard = result at hstep
  have hsingle := Batch.uniform_single shard (shard.nbytes elementSize)
  have hshards : (Batch.single shard (shard.nbytes elementSize)).shards = [shard] := rfl
  cases hstep with
  | alone hle =>
    refine ⟨h, ?_⟩
    simp only [Option.toList_some, List.flatMap_singleton, hsingle.contents_send, hshards]
    exact List.perm_append_comm
  | opens hlt hnone =>
    refine ⟨fun b hb => ?_, ?_⟩
    · rcases List.mem_append.1 hb with hb | hb
      · exact h b hb
      · exact List.mem_singleton.1 hb ▸ hsingle
    · simp only [Option.toList_none, List.flatMap_nil, List.nil_append, List.flatMap_append,
        List.flatMap_singleton, hshards]
      exact .refl _
  | overflows before after batch hlt hsplit hbefore haccepts hfull =>
    subst hsplit
    refine ⟨fun b hb => ?_, ?_⟩
    · rcases List.mem_append.1 hb with hb | hb
      · apply h
        rcases List.mem_append.1 hb with hb | hb
        · exact List.mem_append_left _ hb
        · exact List.mem_append_right _ (List.mem_cons_of_mem _ hb)
      · exact List.mem_singleton.1 hb ▸ hsingle
    · have hbatch := (h batch (List.mem_append_right _ List.mem_cons_self)).contents_send
      simp only [Option.toList_some, List.flatMap_append,
        List.flatMap_cons, List.flatMap_nil, List.append_nil, hbatch, hshards]
      rw [List.perm_iff_count]
      intro other
      simp only [List.count_append]
      omega
  | joins before after batch hlt hsplit hbefore haccepts hroom =>
    subst hsplit
    have hbatch := h batch (List.mem_append_right _ List.mem_cons_self)
    refine ⟨fun b hb => ?_, ?_⟩
    · rcases List.mem_append.1 hb with hb | hb
      · exact h b (List.mem_append_left _ hb)
      · rcases List.mem_cons.1 hb with rfl | hb
        · exact hbatch.push haccepts _
        · exact h b (List.mem_append_right _ (List.mem_cons_of_mem _ hb))
    · have hpush : (batch.push shard (shard.nbytes elementSize)).shards =
          batch.shards ++ [shard] := rfl
      simp only [Option.toList_none, List.flatMap_nil, List.nil_append, List.flatMap_append,
        List.flatMap_cons, hpush]
      rw [List.perm_iff_count]
      intro other
      simp only [List.count_append]
      omega

/-- The broadcasts fill every shard once. -/
theorem perm_issued (h : ∀ b ∈ batches, b.Uniform) :
    ((issued batchBytes elementSize batches shards).flatMap Broadcast.contents).Perm
      (batches.flatMap Batch.shards ++ shards) := by
  induction shards generalizing batches with
  | nil =>
    rw [issued, flush, List.flatMap_map, List.append_nil]
    exact .of_eq (List.flatMap_congr fun b hb => (h b hb).contents_send)
  | cons shard shards ih =>
    obtain ⟨huniform, hperm⟩ := perm_add batchBytes elementSize shard h
    rw [issued, List.flatMap_append]
    refine ((ih huniform).append_left _).trans ?_
    rw [← List.append_assoc, ← List.singleton_append, ← List.append_assoc]
    exact hperm.append_right _

theorem contents_ne_nil {b : Broadcast} (hb : b ∈ issued batchBytes elementSize batches shards) :
    b.contents ≠ [] := by
  induction shards generalizing batches with
  | nil =>
    obtain ⟨batch, -, rfl⟩ := List.mem_map.1 hb
    exact List.cons_ne_nil _ _
  | cons shard shards ih =>
    rw [issued, List.mem_append] at hb
    rcases hb with hb | hb
    · have hstep := addStep batchBytes elementSize batches shard
      generalize add batchBytes elementSize batches shard = result at hstep hb
      cases hstep with
      | alone hle =>
        obtain rfl := List.mem_singleton.1 hb
        exact List.cons_ne_nil _ _
      | opens hlt hnone => cases hb
      | overflows before after batch hlt hsplit hbefore haccepts hfull =>
        obtain rfl := List.mem_singleton.1 hb
        exact List.cons_ne_nil _ _
      | joins before after batch hlt hsplit hbefore haccepts hroom => cases hb
    · exact ih hb

/-- No broadcast is started twice. -/
theorem nodup_issued (h : shards.Nodup) : (issued batchBytes elementSize [] shards).Nodup := by
  have hperm : ((issued batchBytes elementSize [] shards).flatMap Broadcast.contents).Perm shards :=
    perm_issued fun b hb => by cases hb
  have hdisjoint := (List.nodup_flatMap.1 (hperm.nodup_iff.2 h)).2
  rw [List.Nodup]
  refine hdisjoint.imp_of_mem fun {b b'} hb _ hdis heq => ?_
  subst heq
  obtain ⟨shard, hshard⟩ := List.exists_mem_of_ne_nil _ (contents_ne_nil hb)
  exact hdis hshard hshard

end Batcher

/-! ### The shared shards of a rank -/

namespace LoadWorld

variable {α : Type*} {w : LoadWorld α} {dtype : ℕ → String → String} {batchBytes : ℕ}
  {elementSize : String → ℕ} {rank rank' : ℕ} {key : ShardKey} {source : BroadcastSource}
  {shard : SharedShard} {group : List ℕ}

/-- A rank finds the decided source in its plan if it is of the group. -/
theorem source?_eq_some_iff (hrank : rank < w.plans.length) :
    w.source? rank key = some source ↔
      (w.decision rank).lookup key = some source ∧ rank ∈ source.groupRanks := by
  constructor
  · intro h
    obtain ⟨hlookup, hreads⟩ := lookup_of_source? hrank h
    have hdecided := hlookup
    rw [decision_eq] at hdecided
    refine ⟨hlookup, ?_⟩
    rw [(lookup_sources hdecided).1]
    exact mem_groupRanks.2 ⟨hrank, reads_ne_nil_iff.1 hreads⟩
  · rintro ⟨hlookup, hmember⟩
    have hdecided := hlookup
    rw [decision_eq] at hdecided
    obtain ⟨item, rest, hreads⟩ := List.exists_cons_of_ne_nil (member_reads hlookup hmember).2
    have hitem : item ∈ w.reads rank key := hreads ▸ List.mem_cons_self
    obtain ⟨-, hkey⟩ : item.Names key := of_decide_eq_true (List.mem_filter.1 hitem).2
    have hlen : ¬ w.plans.length < 2 := by
      obtain ⟨shard, hshard, rfl, -⟩ := lookup_assignSources hdecided
      have hlt := (mem_shards hshard).2.1
      have hle := List.length_filter_le (fun rank => decide (∃ item ∈ w.plans.getD rank [],
        ReadItem.Names item shard.key)) (List.range w.plans.length)
      rw [List.length_range] at hle
      exact not_lt.2 (hlt.trans_le hle)
    rw [source?_eq_bind hrank, hreads, List.head?_cons, Option.bind_some, if_neg hlen,
      ReadItem.mark, hkey, hlookup]

theorem mem_sharedShards :
    shard ∈ w.sharedShards dtype rank ↔ w.source? rank shard.key = some shard.source ∧
      shard.numel = w.numel rank shard.key ∧ shard.dtype = dtype rank shard.key.1 := by
  constructor
  · intro h
    obtain ⟨key, -, hshard⟩ := List.mem_filterMap.1 h
    obtain ⟨source, hsource, rfl⟩ := Option.map_eq_some_iff.1 hshard
    exact ⟨hsource, rfl, rfl⟩
  · rintro ⟨hsource, hnumel, hdtype⟩
    refine List.mem_filterMap.2 ⟨shard.key, ?_, Option.map_eq_some_iff.2 ⟨_, hsource, ?_⟩⟩
    · rw [List.mem_insertionSort, List.mem_dedup, List.mem_map]
      obtain ⟨item, hhead, -⟩ := Option.bind_eq_some_iff.1 hsource
      have hitem := List.mem_filter.1 (List.mem_of_mem_head? hhead)
      exact ⟨item, hitem.1, (of_decide_eq_true hitem.2).2⟩
    · cases shard
      simp only [SharedShard.mk.injEq, true_and]
      exact ⟨hnumel.symm, hdtype.symm⟩

/-- The shared shards stand in the order of their names. -/
theorem pairwise_sharedShards (w : LoadWorld α) (dtype : ℕ → String → String) (rank : ℕ) :
    (w.sharedShards dtype rank).Pairwise fun a b => toLex a.key < toLex b.key := by
  let before : ShardKey → ShardKey → Prop := fun a b => toLex a ≤ toLex b
  have : Std.Total before := ⟨fun a b => le_total (toLex a) (toLex b)⟩
  have : IsTrans ShardKey before := ⟨fun _ _ _ => le_trans⟩
  have hsorted := (List.pairwise_insertionSort before
    (((w.finalPlan rank).map fun item => item.destIndex.key).dedup)).and
      ((List.perm_insertionSort before _).nodup_iff.2 (List.nodup_dedup _))
  refine hsorted.filterMap _ fun a a' h b hb b' hb' => ?_
  obtain ⟨_, -, rfl⟩ := Option.map_eq_some_iff.1 hb
  obtain ⟨_, -, rfl⟩ := Option.map_eq_some_iff.1 hb'
  exact lt_of_le_of_ne h.1 fun heq => h.2 (toLex.injective heq)

/-- The members of a group share the same shards in it. -/
theorem sharedShards_filter_eq (h : w.SameBuffers dtype) (hrank : rank < w.plans.length)
    (hrank' : rank' < w.plans.length) (hmember : rank ∈ group) (hmember' : rank' ∈ group) :
    (w.sharedShards dtype rank).filter (·.source.groupRanks = group) =
      (w.sharedShards dtype rank').filter (·.source.groupRanks = group) := by
  have : Std.Irrefl fun a b : SharedShard => toLex a.key < toLex b.key := ⟨fun _ => lt_irrefl _⟩
  have : Std.Antisymm fun a b : SharedShard => toLex a.key < toLex b.key :=
    ⟨fun _ _ hab hba => absurd hab hba.not_gt⟩
  -- what one member shares, the other does
  have hsame : ∀ {a b : ℕ}, a < w.plans.length → b < w.plans.length → a ∈ group → b ∈ group →
      ∀ shard ∈ (w.sharedShards dtype a).filter (·.source.groupRanks = group),
        shard ∈ (w.sharedShards dtype b).filter (·.source.groupRanks = group) := by
    intro a b ha hb hagroup hbgroup shard hshard
    rw [List.mem_filter, mem_sharedShards, source?_eq_some_iff ha] at hshard
    obtain ⟨⟨⟨hlookup, hmem⟩, hnumel, hdtype⟩, hgroup⟩ := hshard
    have hgroup' := of_decide_eq_true hgroup
    have hbmem : b ∈ shard.source.groupRanks := hgroup'.symm ▸ hbgroup
    have hsend := by
      have hdecided := hlookup
      rw [decision_eq] at hdecided
      exact (lookup_sources hdecided).2.2
    obtain ⟨hn, hd⟩ := h shard.key (fun plan hplan item hitem hnames => by
        by_contra hfalse
        exact hsend ⟨item, List.mem_flatten.2 ⟨plan, hplan, hitem⟩, hnames, by simpa using hfalse⟩)
      a ha b hb (reads_ne_nil_iff.1 (member_reads hlookup hmem).2)
      (reads_ne_nil_iff.1 (member_reads hlookup hbmem).2)
    rw [List.mem_filter, mem_sharedShards, source?_eq_some_iff hb]
    rw [decision_eq] at hlookup ⊢
    exact ⟨⟨⟨hlookup, hbmem⟩, hnumel.trans hn, hdtype.trans hd⟩, hgroup⟩
  exact List.Pairwise.eq_of_mem_iff ((pairwise_sharedShards w dtype rank).filter _)
    ((pairwise_sharedShards w dtype rank').filter _) fun shard =>
      ⟨hsame hrank hrank' hmember hmember' shard, hsame hrank' hrank hmember' hmember shard⟩

/-! ### The broadcasts of all ranks -/

/-- The broadcasts of a rank, with the stamps. -/
def stampedBroadcasts (w : LoadWorld α) (dtype : ℕ → String → String) (batchBytes : ℕ)
    (elementSize : String → ℕ) (rank : ℕ) : List (Stamp × Broadcast) :=
  stamped batchBytes elementSize [] (w.sharedShards dtype rank)

theorem map_snd_stampedBroadcasts :
    (w.stampedBroadcasts dtype batchBytes elementSize rank).map Prod.snd =
      w.broadcasts dtype batchBytes elementSize rank :=
  map_snd_stamped

theorem pairwise_stampedBroadcasts :
    (w.stampedBroadcasts dtype batchBytes elementSize rank).Pairwise fun p q => p.1 < q.1 :=
  pairwise_stamped (pairwise_sharedShards w dtype rank)

theorem nodup_broadcasts : (w.broadcasts dtype batchBytes elementSize rank).Nodup :=
  nodup_issued ((pairwise_sharedShards w dtype rank).imp fun h heq =>
    absurd (heq ▸ h) (lt_irrefl _))

theorem stampedBroadcasts_filter_eq (h : w.SameBuffers dtype) (hrank : rank < w.plans.length)
    (hrank' : rank' < w.plans.length) (hmember : rank ∈ group) (hmember' : rank' ∈ group) :
    (w.stampedBroadcasts dtype batchBytes elementSize rank).filter
        (·.2.source.groupRanks = group) =
      (w.stampedBroadcasts dtype batchBytes elementSize rank').filter
        (·.2.source.groupRanks = group) := by
  unfold stampedBroadcasts
  rw [stamped_filter, stamped_filter, sharedShards_filter_eq h hrank hrank' hmember hmember']

/-- The shard that a stamp names is one of the rank, and has the source of the broadcast. -/
theorem exists_of_mem_stampedBroadcasts (hrank : rank < w.plans.length) {p : Stamp × Broadcast}
    (hp : p ∈ w.stampedBroadcasts dtype batchBytes elementSize rank) :
    ∃ key, (w.decision rank).lookup key = some p.2.source ∧ rank ∈ p.2.source.groupRanks ∧
      (p.1 = stampAt key ∨ p.1 = stampFlush key) := by
  rcases mem_stamped hp with ⟨shard, hshard, hstamp, hsource⟩ | ⟨shard, hshard, hstamp, hsource⟩
  · obtain ⟨hlookup, hmember⟩ := (source?_eq_some_iff hrank).1
      (mem_sharedShards.1 hshard).1
    exact ⟨shard.key, hsource ▸ hlookup, hsource ▸ hmember, Or.inl hstamp⟩
  · obtain ⟨hlookup, hmember⟩ := (source?_eq_some_iff hrank).1
      (mem_sharedShards.1 hshard).1
    exact ⟨shard.key, hsource ▸ hlookup, hsource ▸ hmember, Or.inr hstamp⟩

/-- A broadcast of one member is one of the other, under the same stamp. -/
theorem mem_stampedBroadcasts (h : w.SameBuffers dtype) (hrank : rank < w.plans.length)
    (hrank' : rank' < w.plans.length) {p : Stamp × Broadcast}
    (hp : p ∈ w.stampedBroadcasts dtype batchBytes elementSize rank)
    (hmember' : rank' ∈ p.2.source.groupRanks) :
    p ∈ w.stampedBroadcasts dtype batchBytes elementSize rank' := by
  obtain ⟨key, -, hmember, -⟩ := exists_of_mem_stampedBroadcasts hrank hp
  have hfilter : p ∈ (w.stampedBroadcasts dtype batchBytes elementSize rank).filter
      (·.2.source.groupRanks = p.2.source.groupRanks) := List.mem_filter.2 ⟨hp, by simp⟩
  rw [stampedBroadcasts_filter_eq h hrank hrank' hmember hmember'] at hfilter
  exact List.mem_of_mem_filter hfilter

/-- A stamp stands for one broadcast in all ranks. -/
theorem eq_of_stamp_eq (h : w.SameBuffers dtype) (hrank : rank < w.plans.length)
    (hrank' : rank' < w.plans.length) {p q : Stamp × Broadcast}
    (hp : p ∈ w.stampedBroadcasts dtype batchBytes elementSize rank)
    (hq : q ∈ w.stampedBroadcasts dtype batchBytes elementSize rank') (heq : p.1 = q.1) :
    p = q := by
  obtain ⟨key, hlookup, -, hstamp⟩ := exists_of_mem_stampedBroadcasts hrank hp
  obtain ⟨key', hlookup', hmember', hstamp'⟩ := exists_of_mem_stampedBroadcasts hrank' hq
  have hkey : key = key' := by
    rw [heq] at hstamp
    rcases hstamp with hs | hs <;> rcases hstamp' with hs' | hs' <;>
      simpa [stampAt, stampFlush] using hs.symm.trans hs'
  subst hkey
  rw [decision_eq] at hlookup hlookup'
  have hsource : p.2.source = q.2.source := Option.some.inj (hlookup.symm.trans hlookup')
  have hp' := mem_stampedBroadcasts h hrank hrank' hp (hsource ▸ hmember')
  have hnodup : ((w.stampedBroadcasts dtype batchBytes elementSize rank').map Prod.fst).Nodup :=
    List.pairwise_map.2 (pairwise_stampedBroadcasts.imp ne_of_lt)
  exact List.inj_on_of_nodup_map hnodup hp' hq heq

/-- A broadcast has one stamp in all ranks. -/
theorem eq_of_broadcast_eq (h : w.SameBuffers dtype) (hrank : rank < w.plans.length)
    (hrank' : rank' < w.plans.length) {p q : Stamp × Broadcast}
    (hp : p ∈ w.stampedBroadcasts dtype batchBytes elementSize rank)
    (hq : q ∈ w.stampedBroadcasts dtype batchBytes elementSize rank') (heq : p.2 = q.2) :
    p = q := by
  obtain ⟨-, -, hmember', -⟩ := exists_of_mem_stampedBroadcasts hrank' hq
  have hp' := mem_stampedBroadcasts h hrank hrank' hp (heq ▸ hmember')
  have hnodup : ((w.stampedBroadcasts dtype batchBytes elementSize rank').map Prod.snd).Nodup := by
    rw [map_snd_stampedBroadcasts]
    exact nodup_broadcasts
  exact List.inj_on_of_nodup_map hnodup hp' hq heq

theorem filter_broadcasts : (w.broadcasts dtype batchBytes elementSize rank).filter
      (·.source.groupRanks = group) =
    ((w.stampedBroadcasts dtype batchBytes elementSize rank).filter
      (·.2.source.groupRanks = group)).map Prod.snd := by
  rw [← map_snd_stampedBroadcasts, List.filter_map]
  rfl

/-- Ranks whose shared shards have the same buffers broadcast in step. -/
theorem inStep_of_sameBuffers (h : w.SameBuffers dtype) (batchBytes : ℕ)
    (elementSize : String → ℕ) : w.InStep dtype batchBytes elementSize := by
  obtain ⟨order, hnodup, hsub⟩ := Collectives.exists_order
    ((List.range w.plans.length).map (w.stampedBroadcasts dtype batchBytes elementSize))
    (by
      simp only [List.forall_mem_map]
      exact fun _ _ => pairwise_stampedBroadcasts)
    (by
      simp only [List.forall_mem_map, List.mem_range]
      exact fun _ hr _ hr' _ hp _ hq => eq_of_stamp_eq h hr hr' hp hq)
    (by
      simp only [List.forall_mem_map, List.mem_range]
      exact fun _ hr _ hr' _ hp _ hq => eq_of_broadcast_eq h hr hr' hp hq)
  simp only [List.forall_mem_map, List.mem_range, map_snd_stampedBroadcasts] at hsub
  refine ⟨fun group rank hr rank' hr' hmember hmember' => ?_, ⟨order, hnodup, hsub⟩,
    fun window hwindow s hs => ?_⟩
  · rw [filter_broadcasts, filter_broadcasts,
      stampedBroadcasts_filter_eq h hr hr' hmember hmember']
  · have hordered : Collectives.Ordered (w.allBroadcasts dtype batchBytes elementSize) w.TakesPart
        order.idxOf := by
      refine .of_sublist hnodup (fun r => hsub r r.2) fun r b hb q hmember => ?_
      rw [allBroadcasts, ← map_snd_stampedBroadcasts] at hb ⊢
      obtain ⟨p, hp, rfl⟩ := List.mem_map.1 hb
      exact List.mem_map_of_mem (mem_stampedBroadcasts h r.2 q.2 hp hmember)
    exact hordered.never_stuck hwindow hs

/-- The shards that the broadcasts of a rank fill are its shared shards. -/
theorem exists_broadcast_iff :
    (∃ b ∈ w.broadcasts dtype batchBytes elementSize rank, shard ∈ b.contents) ↔
      shard ∈ w.sharedShards dtype rank := by
  have hperm : ((w.broadcasts dtype batchBytes elementSize rank).flatMap
      Broadcast.contents).Perm (w.sharedShards dtype rank) := perm_issued fun b hb => by cases hb
  rw [← List.mem_flatMap, hperm.mem_iff]

end LoadWorld

end HyperParallel.Checkpoint
