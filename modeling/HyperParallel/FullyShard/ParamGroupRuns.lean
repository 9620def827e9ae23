import HyperParallel.FullyShard.ParamGroup
import Mathlib.Algebra.Field.Rat

/-!
# Runs of fused gradient reduction

* `reduceScatterOutput_eq`, `allReduce_packSlots`: a fused reduction is that of every slot;
* `Inv`, `inv_step`, `inv_stateAfter`: what is parked, along a steady run;
* `outputs_of_steady`: what its synchronizing steps expose.
-/

namespace HyperParallel.FullyShard.ParamGroup

variable {α : Type} [Field α] {Rank : Type} [DecidableEq Rank] {n : ℕ}
  {g : ParamGroup α Rank n} {s : MicroStep α Rank n} {hist : List (MicroStep α Rank n)}
  {parked : Parked α Rank} {key : BucketKey} {l : List (Fin n)} {p q : Fin n}

/-! ### Buckets -/

omit [DecidableEq Rank] in
theorem mem_bucket : p ∈ g.bucket s key ↔ g.active s p = true ∧ g.bucketKey p = key := by
  simp [bucket]

omit [DecidableEq Rank] in
theorem mem_of_bucket_eq {ps : List (Fin n)} (hbucket : g.bucket s key = ps) :
    ∀ p ∈ ps, g.active s p = true ∧ g.bucketKey p = key := by
  intro p hp
  rw [← hbucket] at hp
  exact mem_bucket.1 hp

omit [DecidableEq Rank] in
theorem mem_bucket_self (h : g.active s p = true) : p ∈ g.bucket s (g.bucketKey p) :=
  mem_bucket.2 ⟨h, rfl⟩

omit [DecidableEq Rank] in
theorem not_active_of_bucket (h : p ∉ g.bucket s (g.bucketKey p)) : g.active s p = false := by
  cases hactive : g.active s p with
  | false => rfl
  | true => exact absurd (mem_bucket_self hactive) h

/-! ### Reductions place by place -/

theorem reduceScatter_zero (p : Fin n) (r : Rank) : g.reduceScatter p (fun _ _ => 0) r = 0 := by
  simp [reduceScatter]

theorem reduceScatter_congr (hgroup : (g.hsdpParams p).shardGroup = (g.hsdpParams q).shardGroup)
    (hsize : (g.hsdpParams p).shardWorldSize = (g.hsdpParams q).shardWorldSize)
    (x : Rank → ℕ → α) (r : Rank) : g.reduceScatter p x r = g.reduceScatter q x r := by
  rw [reduceScatter, reduceScatter, usesCollective, usesCollective, hgroup, hsize]

omit [DecidableEq Rank] in
theorem allReduce_congr (hgroup : (g.hsdpParams p).replicateGroup = (g.hsdpParams q).replicateGroup)
    (hsize : (g.hsdpParams p).replicateGroup.isSome = true →
      (g.hsdpParams p).replicateWorldSize = (g.hsdpParams q).replicateWorldSize)
    (x : Rank → α) (r : Rank) : g.allReduce p x r = g.allReduce q x r := by
  rw [allReduce, allReduce, ← hgroup]
  cases h : (g.hsdpParams p).replicateGroup with
  | none => rfl
  | some group => simp only [hsize (by rw [h]; rfl)]

omit [DecidableEq Rank] in
theorem allReduce_zero (p : Fin n) (r : Rank) : g.allReduce p (fun _ => 0) r = 0 := by
  rw [allReduce]
  cases (g.hsdpParams p).replicateGroup <;> simp

omit [DecidableEq Rank] in
theorem allReduce_add (p : Fin n) (x y : Rank → α) (r : Rank) :
    g.allReduce p (fun u => x u + y u) r = g.allReduce p x r + g.allReduce p y r := by
  rw [allReduce, allReduce, allReduce]
  cases (g.hsdpParams p).replicateGroup with
  | none => rfl
  | some group =>
    simp only
    split_ifs <;> simp [List.sum_map_add, add_div]

omit [DecidableEq Rank] in
theorem allReduce_sum {β : Type} (p : Fin n) (steps : List β) (x : β → Rank → α) (r : Rank) :
    g.allReduce p (fun u => (steps.map fun b => x b u).sum) r =
      (steps.map fun b => g.allReduce p (x b) r).sum := by
  induction steps with
  | nil => exact allReduce_zero p r
  | cons b steps ih =>
    simp only [List.map_cons, List.sum_cons]
    rw [allReduce_add, ih]

/-- The fused reduce-scatter of a bucket is that of every slot. -/
theorem reduceScatterOutput_eq (huniform : g.Uniform s) {first : Fin n} {rest : List (Fin n)}
    (hbucket : g.bucket s key = first :: rest) :
    g.reduceScatterOutput s first (first :: rest) =
      ⟨g.totalNumel (first :: rest), fun r i =>
        g.packSlots (fun p i => g.gradShard s p r i) (first :: rest) i⟩ := by
  obtain ⟨hactive, hkey⟩ := mem_of_bucket_eq hbucket first List.mem_cons_self
  rw [reduceScatterOutput]
  congr 1
  funext r i
  have hcomp := packSlots_comp (g := g)
    (fun x : Rank × ℕ → α => g.reduceScatter first (fun t row => x (t, row)) r)
    (reduceScatter_zero first r) (fun t p i => g.rows s p t.1 t.2 i) (first :: rest) i
  refine hcomp.trans (packSlots_congr ?_)
  intro p hp i
  obtain ⟨hactive', hkey'⟩ := mem_of_bucket_eq hbucket p hp
  obtain ⟨hsize, -, -⟩ := huniform first p hactive hactive' (hkey.trans hkey'.symm)
  rw [gradShard, if_pos hactive']
  exact reduceScatter_congr (congrArg Prod.fst (hkey.trans hkey'.symm)) hsize _ r

omit [DecidableEq Rank] in
/-- So is the fused all-reduce. -/
theorem allReduce_packSlots (huniform : g.Uniform s) {first : Fin n} {rest : List (Fin n)}
    (hbucket : g.bucket s key = first :: rest) (f : Rank → Fin n → ℕ → α) (r : Rank) (i : ℕ) :
    g.allReduce first (fun u => g.packSlots (f u) (first :: rest) i) r =
      g.packSlots (fun p i => g.allReduce p (fun u => f u p i) r) (first :: rest) i := by
  obtain ⟨hactive, hkey⟩ := mem_of_bucket_eq hbucket first List.mem_cons_self
  have hcomp := packSlots_comp (g := g) (fun x : Rank → α => g.allReduce first x r)
    (allReduce_zero first r) f (first :: rest) i
  refine hcomp.trans (packSlots_congr ?_)
  intro p hp i
  obtain ⟨hactive', hkey'⟩ := mem_of_bucket_eq hbucket p hp
  obtain ⟨-, hgroup, hsize⟩ := huniform first p hactive hactive' (hkey.trans hkey'.symm)
  exact allReduce_congr hgroup hsize _ r

/-! ### What is parked -/

/-- The sum of the shards of a parameter since the last synchronizing step. -/
def pendingShard (g : ParamGroup α Rank n) (hist : List (MicroStep α Rank n)) (p : Fin n) (r : Rank)
    (i : ℕ) : α :=
  ((sinceSync hist).map fun s => g.gradShard s p r i).sum

/-- A parked buffer holds the pending shards of its parameters, and other parameters of its key have
had no gradient. -/
def Inv (g : ParamGroup α Rank n) (hist : List (MicroStep α Rank n)) (parked : Parked α Rank) :
    Prop :=
  ∀ key, match g.parkedParams key hist with
    | none => parked key = none ∧
      ∀ p, g.bucketKey p = key → ∀ s ∈ sinceSync hist, g.active s p = false
    | some l => parked key = some ⟨g.totalNumel l, fun r i =>
        g.packSlots (fun p i => g.pendingShard hist p r i) l i⟩ ∧
      ∀ p, g.bucketKey p = key → p ∉ l → ∀ s ∈ sinceSync hist, g.active s p = false

theorem Inv.of_none (h : Inv g hist parked) (hnone : g.parkedParams key hist = none) :
    parked key = none ∧ ∀ p, g.bucketKey p = key → ∀ s ∈ sinceSync hist, g.active s p = false := by
  have hkey := h key
  rwa [hnone] at hkey

theorem Inv.of_some (h : Inv g hist parked) (hsome : g.parkedParams key hist = some l) :
    parked key = some ⟨g.totalNumel l, fun r i =>
        g.packSlots (fun p i => g.pendingShard hist p r i) l i⟩ ∧
      ∀ p, g.bucketKey p = key → p ∉ l → ∀ s ∈ sinceSync hist, g.active s p = false := by
  have hkey := h key
  rwa [hsome] at hkey

theorem pendingShard_eq_zero (h : ∀ s ∈ sinceSync hist, g.active s p = false) (r : Rank) (i : ℕ) :
    g.pendingShard hist p r i = 0 := by
  rw [pendingShard]
  refine List.sum_eq_zero ?_
  intro x hx
  obtain ⟨s, hs, rfl⟩ := List.mem_map.1 hx
  rw [gradShard, h s hs]
  rfl

theorem pendingShard_cons (hs : s.requiresAllReduce = false) (r : Rank) (i : ℕ) :
    g.pendingShard (s :: hist) p r i = g.gradShard s p r i + g.pendingShard hist p r i := by
  simp [pendingShard, sinceSync, hs]

omit [DecidableEq Rank] in
theorem bucketKey_of_parkedParams (h : g.parkedParams key hist = some l) :
    ∀ p ∈ l, g.bucketKey p = key := by
  induction hist generalizing l with
  | nil => cases h
  | cons s hist ih =>
    rw [parkedParams] at h
    by_cases hsync : s.requiresAllReduce = true
    · rw [if_pos hsync] at h
      split_ifs at h
      exact ih h
    · rw [if_neg hsync] at h
      cases hrest : g.parkedParams key hist with
      | some l' =>
        rw [hrest] at h
        cases h
        exact ih hrest
      | none =>
        rw [hrest] at h
        simp only at h
        split_ifs at h
        cases h
        exact fun p hp => (mem_bucket.1 hp).2

/-- One key in a step that does not synchronize. -/
theorem inv_park (hs : s.requiresAllReduce = false) (huniform : g.Uniform s)
    (hsteady : g.SteadyStep s hist) (h : Inv g hist parked) (key : BucketKey) :
    ∃ buffer, g.parkBucket s parked key = some buffer ∧
      match g.parkedParams key (s :: hist) with
      | none => buffer = none ∧
        ∀ p, g.bucketKey p = key → ∀ s' ∈ sinceSync (s :: hist), g.active s' p = false
      | some l => buffer = some ⟨g.totalNumel l, fun r i =>
          g.packSlots (fun p i => g.pendingShard (s :: hist) p r i) l i⟩ ∧
        ∀ p, g.bucketKey p = key → p ∉ l →
          ∀ s' ∈ sinceSync (s :: hist), g.active s' p = false := by
  have hsince : sinceSync (s :: hist) = s :: sinceSync hist := by simp [sinceSync, hs]
  have hsync : ¬ s.requiresAllReduce = true := by simp [hs]
  have hinactive : ∀ p, g.bucketKey p = key → p ∉ g.bucket s key → g.active s p = false := by
    rintro p rfl hp
    exact not_active_of_bucket hp
  rw [parkedParams, if_neg hsync]
  cases hbucket : g.bucket s key with
  | nil =>
    -- no gradient under this key: everything stays
    rw [hbucket] at hinactive
    refine ⟨parked key, by rw [parkBucket, hbucket], ?_⟩
    cases hparked : g.parkedParams key hist with
    | none =>
      obtain ⟨hnone, hquiet⟩ := h.of_none hparked
      refine ⟨hnone, ?_⟩
      intro p hp
      rw [hsince]
      exact List.forall_mem_cons.2 ⟨hinactive p hp (by simp), hquiet p hp⟩
    | some l =>
      obtain ⟨hsome, hquiet⟩ := h.of_some hparked
      constructor
      · rw [hsome]
        congr 2
        funext r i
        refine packSlots_congr ?_
        intro p hp i
        have hp' := hinactive p (bucketKey_of_parkedParams hparked p hp) (by simp)
        rw [pendingShard_cons hs, gradShard, hp', if_neg Bool.false_ne_true, zero_add]
      · intro p hp hpl
        rw [hsince]
        exact List.forall_mem_cons.2 ⟨hinactive p hp (by simp), hquiet p hp hpl⟩
  | cons first rest =>
    rw [hbucket] at hinactive
    have houtput := reduceScatterOutput_eq huniform hbucket
    cases hparked : g.parkedParams key hist with
    | none =>
      -- the first buffer under this key
      obtain ⟨hnone, hquiet⟩ := h.of_none hparked
      refine ⟨_, by rw [parkBucket, hbucket, hnone], ?_⟩
      simp only [List.cons_ne_nil, if_false]
      constructor
      · rw [houtput]
        congr 2
        funext r i
        refine packSlots_congr ?_
        intro p hp i
        rw [← hbucket] at hp
        rw [pendingShard_cons hs, pendingShard_eq_zero (hquiet p (mem_bucket.1 hp).2), add_zero]
      · intro p hp hpl
        rw [hsince]
        exact List.forall_mem_cons.2 ⟨hinactive p hp hpl, hquiet p hp⟩
    | some l =>
      -- on top of the buffer of the same parameters
      obtain ⟨hsome, hquiet⟩ := h.of_some hparked
      have hsame : first :: rest = l := by
        rw [← hbucket]
        exact (hsteady key l hparked).1 (by rw [hbucket]; exact List.cons_ne_nil _ _)
      subst hsame
      have hpark : g.parkBucket s parked key = some (some ⟨g.totalNumel (first :: rest), fun r i =>
          g.packSlots (fun p i => g.pendingShard hist p r i) (first :: rest) i +
            g.packSlots (fun p i => g.gradShard s p r i) (first :: rest) i⟩) := by
        rw [parkBucket, hbucket, hsome]
        simp only [houtput, RankBuffers.add, if_true, Option.map_some]
      refine ⟨_, hpark, ?_⟩
      constructor
      · congr 2
        funext r i
        refine (packSlots_add _ _ _ _).trans (packSlots_congr ?_)
        intro p hp i
        rw [pendingShard_cons hs, add_comm]
      · intro p hp hpl
        rw [hsince]
        exact List.forall_mem_cons.2 ⟨hinactive p hp hpl, hquiet p hp hpl⟩

/-- One key in a step that synchronizes. -/
theorem inv_flush (hs : s.requiresAllReduce = true) (huniform : g.Uniform s)
    (hsteady : g.SteadyStep s hist) (h : Inv g hist parked) {first : Fin n} {rest : List (Fin n)}
    (hbucket : g.bucket s key = first :: rest) :
    g.flushBucket s parked key = some ⟨g.totalNumel (first :: rest), fun r i =>
      g.packSlots (fun p i => g.allReduce p (fun u =>
        g.gradShard s p u i + g.pendingShard hist p u i) r) (first :: rest) i⟩ := by
  have houtput := reduceScatterOutput_eq huniform hbucket
  have htotal : addPartial (g.reduceScatterOutput s first (first :: rest)) (parked key) =
      some ⟨g.totalNumel (first :: rest), fun u i => g.packSlots (fun p i =>
        g.gradShard s p u i + g.pendingShard hist p u i) (first :: rest) i⟩ := by
    cases hparked : g.parkedParams key hist with
    | none =>
      obtain ⟨hnone, hquiet⟩ := h.of_none hparked
      rw [hnone, houtput, addPartial]
      congr 2
      funext r i
      refine packSlots_congr ?_
      intro p hp i
      rw [← hbucket] at hp
      rw [pendingShard_eq_zero (hquiet p (mem_bucket.1 hp).2), add_zero]
    | some l =>
      obtain ⟨hsome, hquiet⟩ := h.of_some hparked
      have hsame : first :: rest = l := by
        rw [← hbucket]
        exact (hsteady key l hparked).1 ((hsteady key l hparked).2 hs)
      subst hsame
      rw [hsome, houtput]
      simp only [addPartial, RankBuffers.add, if_true]
      congr 2
      funext r i
      exact packSlots_add _ _ _ _
  rw [flushBucket, hbucket]
  simp only [htotal, Option.bind_eq_bind, Option.bind_some]
  change some _ = some _
  congr 2
  funext r i
  exact allReduce_packSlots huniform hbucket
    (fun u p i => g.gradShard s p u i + g.pendingShard hist p u i) r i

/-! ### Runs -/

/-- A parameter with a pending gradient has one in a steady step that synchronizes. -/
theorem active_of_pending (hs : s.requiresAllReduce = true) (hsteady : g.SteadyStep s hist)
    (h : Inv g hist parked) {s' : MicroStep α Rank n} (hs' : s' ∈ sinceSync hist)
    (hactive : g.active s' p = true) : g.active s p = true := by
  cases hparked : g.parkedParams (g.bucketKey p) hist with
  | none =>
    have := (h.of_none hparked).2 p rfl s' hs'
    rw [hactive] at this
    cases this
  | some l =>
    obtain ⟨hsame, hbucket⟩ := hsteady _ l hparked
    by_cases hp : p ∈ l
    · rw [← hsame (hbucket hs)] at hp
      exact (mem_bucket.1 hp).1
    · have := (h.of_some hparked).2 p rfl hp s' hs'
      rw [hactive] at this
      cases this

/-- A step that does not synchronize keeps the invariant. -/
theorem inv_step_of_not_sync (hs : s.requiresAllReduce = false) (huniform : g.Uniform s)
    (hsteady : g.SteadyStep s hist) (h : Inv g hist parked) :
    ∃ parked' out, g.step s parked = some (parked', out) ∧ Inv g (s :: hist) parked' := by
  have hsync : ¬ s.requiresAllReduce = true := by simp [hs]
  have hall : ∀ p, g.active s p = true → (g.parkBucket s parked (g.bucketKey p)).isSome = true := by
    intro p _
    obtain ⟨buffer, hbuffer, -⟩ := inv_park hs huniform hsteady h (g.bucketKey p)
    rw [hbuffer]
    rfl
  refine ⟨_, _, by rw [step, if_neg (not_not.2 huniform), if_neg hsync, if_pos hall], ?_⟩
  intro key
  obtain ⟨buffer, hbuffer, hkey⟩ := inv_park hs huniform hsteady h key
  simp only [hbuffer, Option.getD_some]
  exact hkey

/-- A step that synchronizes keeps it, and exposes the sums. -/
theorem inv_step_of_sync (hs : s.requiresAllReduce = true) (huniform : g.Uniform s)
    (hsteady : g.SteadyStep s hist) (h : Inv g hist parked) :
    ∃ parked' out, g.step s parked = some (parked', out) ∧ Inv g (s :: hist) parked' ∧
      ∀ p, g.Exposed s hist out p := by
  have hflush : ∀ p, g.active s p = true → g.flushBucket s parked (g.bucketKey p) =
      some ⟨g.totalNumel (g.bucket s (g.bucketKey p)), fun r i => g.packSlots (fun q i =>
        g.allReduce q (fun u => g.gradShard s q u i + g.pendingShard hist q u i) r)
          (g.bucket s (g.bucketKey p)) i⟩ := by
    intro p hp
    have hmem := mem_bucket_self hp
    cases hbucket : g.bucket s (g.bucketKey p) with
    | nil =>
      rw [hbucket] at hmem
      cases hmem
    | cons first rest => exact inv_flush hs huniform hsteady h hbucket
  have hall : ∀ p, g.active s p = true →
      (g.flushBucket s parked (g.bucketKey p)).isSome = true := by
    intro p hp
    rw [hflush p hp]
    rfl
  refine ⟨_, _, by rw [step, if_neg (not_not.2 huniform), if_pos hs, if_pos hall], ?_, ?_⟩
  · intro key
    have hsince : sinceSync (s :: hist) = [] := by simp [sinceSync, hs]
    have hnone : g.parkedParams key (s :: hist) = none := by
      rw [parkedParams, if_pos hs]
      split_ifs with hbucket
      · cases hparked : g.parkedParams key hist with
        | none => rfl
        | some l => exact absurd hbucket ((hsteady key l hparked).2 hs)
      · rfl
    rw [hnone, hsince]
    refine ⟨?_, by simp⟩
    by_cases hbucket : g.bucket s key = []
    · simp only [hbucket, if_true]
      cases hparked : g.parkedParams key hist with
      | none => exact (h.of_none hparked).1
      | some l => exact absurd hbucket ((hsteady key l hparked).2 hs)
    · simp only [hbucket, if_false]
  · intro p
    constructor
    · rintro ⟨s', hs', hactive⟩
      have hp : g.active s p = true := by
        rcases List.mem_cons.1 hs' with rfl | hs'
        · exact hactive
        · exact active_of_pending hs hsteady h hs' hactive
      refine ⟨_, (if_pos hp).trans (congrArg (Option.map _) (hflush p hp)), ?_⟩
      intro r i hi
      refine (narrow_packSlots (mem_bucket_self hp) hi).trans ?_
      rw [allReduce_add, List.map_cons, List.sum_cons]
      exact congrArg _ (allReduce_sum p (sinceSync hist) (fun s u => g.gradShard s p u i) r)
    · intro hquiet
      have hp := hquiet s List.mem_cons_self
      simp only [hp, if_neg Bool.false_ne_true]

theorem inv_stateAfter (hsteady : g.Steady hist) (huniform : ∀ s ∈ hist, g.Uniform s) :
    ∃ parked, g.stateAfter hist = some parked ∧ Inv g hist parked := by
  induction hist with
  | nil => exact ⟨_, rfl, fun key => ⟨rfl, by simp [sinceSync]⟩⟩
  | cons s hist ih =>
    obtain ⟨hstep, hrest⟩ := hsteady
    obtain ⟨hs, huniform⟩ := List.forall_mem_cons.1 huniform
    obtain ⟨parked, hparked, hinv⟩ := ih hrest huniform
    have hnext : ∃ parked' out, g.step s parked = some (parked', out) ∧
        Inv g (s :: hist) parked' := by
      cases hsync : s.requiresAllReduce with
      | false => exact inv_step_of_not_sync hsync hs hstep hinv
      | true =>
        obtain ⟨parked', out, hout, hinv', -⟩ := inv_step_of_sync hsync hs hstep hinv
        exact ⟨parked', out, hout, hinv'⟩
    obtain ⟨parked', out, hout, hinv'⟩ := hnext
    exact ⟨parked', by simp [stateAfter, hparked, hout], hinv'⟩

/-- In a run whose steps are all steady, a synchronizing step exposes for every parameter the sum of
its gradients since the last one, averaged over its groups. -/
theorem outputs_of_steady (g : ParamGroup α Rank n) (hist : List (MicroStep α Rank n))
    (s : MicroStep α Rank n) (hsteady : g.Steady (s :: hist))
    (huniform : ∀ s' ∈ s :: hist, g.Uniform s') (hs : s.requiresAllReduce = true) :
    ∃ parked parked' out, g.stateAfter hist = some parked ∧
      g.step s parked = some (parked', out) ∧ ∀ p, g.Exposed s hist out p := by
  obtain ⟨hstep, hrest⟩ := hsteady
  obtain ⟨hlast, huniform⟩ := List.forall_mem_cons.1 huniform
  obtain ⟨parked, hparked, hinv⟩ := inv_stateAfter hrest huniform
  obtain ⟨parked', out, hout, -, hexposed⟩ := inv_step_of_sync hs hlast hstep hinv
  exact ⟨parked, parked', out, hparked, hout, hexposed⟩

/-- Two parameters of two elements each, in one bucket of two ranks. -/
def twoParams : ParamGroup ℚ (Fin 2) 2 where
  hsdpParams _ := ⟨true, some 0, 2, none, 1, 0, 0, [1]⟩
  shardRanks _ _ := [0, 1]
  replicateRanks _ r := [r]
  gradientScalingFactor := 1
  needsAvgDiv := true

/-- A step in which the given parameters have a gradient of ones. -/
def onesStep (l : List (Fin 2)) (sync : Bool) : MicroStep ℚ (Fin 2) 2 where
  grads p := if p ∈ l then some fun _ => Tensor.ofEntries [2] fun _ => 1 else none
  requiresAllReduce := sync

theorem outputs_of_steady_two_params : ∃ parked parked' out,
    twoParams.stateAfter [onesStep [0, 1] false] = some parked ∧
      twoParams.step (onesStep [0, 1] true) parked = some (parked', out) ∧
      ∀ p, twoParams.Exposed (onesStep [0, 1] true) [onesStep [0, 1] false] out p := by
  refine outputs_of_steady twoParams [onesStep [0, 1] false] (onesStep [0, 1] true) ?_ ?_ rfl
  · refine ⟨?_, ?_, trivial⟩
    · intro key l hl
      have hparked : (if twoParams.bucket (onesStep [0, 1] true) key = [] then none
        else some (twoParams.bucket (onesStep [0, 1] true) key)) = some l := hl
      split_ifs at hparked with hne
      cases hparked
      exact ⟨fun _ => rfl, fun _ => hne⟩
    · intro key l hl
      cases hl
  · decide

/-- The first parameter alone has a gradient, then the second alone when the step synchronizes: the
first exposes nothing. -/
theorem not_exposed_other_bucket : ∃ parked parked' out,
    twoParams.stateAfter [onesStep [0] false] = some parked ∧
      twoParams.step (onesStep [1] true) parked = some (parked', out) ∧
      ¬ twoParams.Exposed (onesStep [1] true) [onesStep [0] false] out 0 := by
  refine ⟨_, _, _, rfl, rfl, ?_⟩
  intro h
  obtain ⟨v, hv, -⟩ := h.1 ⟨onesStep [0] false, by simp [sinceSync, onesStep], by decide⟩
  cases hv

end HyperParallel.FullyShard.ParamGroup
