import HyperParallel.WeightSync.DirectReshardRuns
import Mathlib.Data.List.ReduceOption

/-!
# What a direct reshard delivers

* `Resolved`: what the resolvers promise of the layouts;
* `mem_planEntries`, `mem_items`, `exists_item`: the entries of a plan, and the buckets they are in;
* `directReshard_delivers`: after all buckets of a plan, in any order, every worker holds the Actor's
  values;
* `buildDirectReshardPlan_total`: the plan of resolved layouts is never refused for its coverage.
-/

open MixedRadix

namespace HyperParallel.WeightSync

/-! ### The layouts -/

/-- What `resolve_source_layouts` and `resolve_destination_layouts` promise: the regions of a tensor
pass `_validate_source_coverage`, its metadata is the same on all ranks, and a worker has one region
of it. -/
structure Resolved (sources : List SourceTensorLayout)
    (destinations : List DestinationTensorLayout) : Prop where
  coverage : ∀ s ∈ sources, validateSourceCoverage s.name
    ((sources.filter (·.name = s.name)).map SourceTensorLayout.region) s.globalShape = .ok ()
  globalShape : ∀ s ∈ sources, ∀ s' ∈ sources, s'.name = s.name → s'.globalShape = s.globalShape
  region : destinations.Pairwise fun d d' => ¬ (d.name = d'.name ∧ d.tpRank = d'.tpRank)

section Layouts

variable {sources : List SourceTensorLayout} {destinations : List DestinationTensorLayout}
  {s : SourceTensorLayout} {d : DestinationTensorLayout} {p p' : List ℕ}

/-- The points of a shape. -/
theorem mem_of_inside {region : Region} {shape : List ℕ} (h : Inside region shape)
    (hp : Region.Mem region p) : Region.Mem (shape.map (0, ·)) p := by
  rw [mem_zero_iff]
  induction h generalizing p with
  | nil =>
    rw [Region.mem_nil.1 hp]
    exact .nil
  | @cons i n region shape hin _ ih =>
    obtain ⟨x, q, hx, hq, rfl⟩ := Region.mem_cons_iff.1 hp
    exact .cons (by omega) (ih hq)

theorem numel_zero (shape : List ℕ) : Region.numel (shape.map (0, ·)) = shape.prod := by
  rw [Region.numel, List.map_map]
  exact congrArg List.prod (List.map_id _)

/-- The regions of a tensor on the source ranks are apart and fill its shape. -/
theorem Resolved.sources_fill (h : Resolved sources destinations) (hs : s ∈ sources) :
    ((sources.filter (·.name = s.name)).map SourceTensorLayout.region).Pairwise Region.Apart ∧
      ∀ p, Region.Mem (s.globalShape.map (0, ·)) p →
        ∃ s' ∈ sources, s'.name = s.name ∧ Region.Mem s'.region p := by
  have hok := h.coverage s hs
  rw [validateSourceCoverage] at hok
  split_ifs at hok with hpair hnumel
  have hmem : ∀ r ∈ (sources.filter (·.name = s.name)).map SourceTensorLayout.region,
      ∃ s' ∈ sources, s'.name = s.name ∧ s'.region = r := by
    intro r hr
    obtain ⟨s', hs', rfl⟩ := List.mem_map.1 hr
    exact ⟨s', (List.mem_filter.1 hs').1, of_decide_eq_true (List.mem_filter.1 hs').2, rfl⟩
  have hinside : ∀ r ∈ (sources.filter (·.name = s.name)).map SourceTensorLayout.region,
      Inside r s.globalShape := by
    intro r hr
    obtain ⟨s', hs', hname, rfl⟩ := hmem r hr
    exact h.globalShape s hs s' hs' hname ▸ s'.inside
  have hapart := hpair.imp_of_mem fun {r r'} hr hr' hempty =>
    Region.apart_of_inter_empty ((List.Forall₂.length_eq (hinside r hr)).trans
      (List.Forall₂.length_eq (hinside r' hr')).symm) hempty
  refine ⟨hapart, fun p hp => ?_⟩
  obtain ⟨r, hr, hpr⟩ := Region.covers_of_numel
    (fun r hr p hp => mem_of_inside (hinside r hr) hp) hapart
    (by rw [numel_zero]; exact not_not.1 hnumel) hp
  obtain ⟨s', hs', hname, rfl⟩ := hmem r hr
  exact ⟨s', hs', hname, hpr⟩

/-- The place of a coordinate tells the coordinate. -/
theorem DestinationTensorLayout.place_injective (hp : Region.Mem d.region p)
    (hp' : Region.Mem d.region p') (h : d.place p = d.place p') : p = p' := by
  obtain ⟨x, hx, rfl⟩ := Region.mem_iff_shift.1 hp
  obtain ⟨x', hx', rfl⟩ := Region.mem_iff_shift.1 hp'
  have hrank : d.region.length = d.globalShape.length := List.Forall₂.length_eq d.inside
  have hlength : ∀ y, Valid (d.region.map Prod.snd) y → y.length = d.globalShape.length := by
    intro y hy
    rw [hy.length_eq, List.length_map, hrank]
  have hstarts : ∀ y, Valid (d.region.map Prod.snd) y →
      (d.region.map Prod.fst).length = y.length := by
    intro y hy
    rw [hlength y hy, List.length_map, hrank]
  have hpermuted : ∀ y, d.localStarts.length =
      (Region.permuted d.physicalPermutation y).length := by
    intro y
    rw [Region.permuted, List.length_map, d.permutation.length_eq, List.length_range,
      d.localStarts_length]
  rw [place, place, Region.offset_self_shift (hstarts x hx),
    Region.offset_self_shift (hstarts x' hx')] at h
  have hsame := Region.shift_injective (hpermuted x) (hpermuted x') h
  have hback := congrArg (unpermuted d.physicalPermutation) hsame
  rw [unpermuted_permuted ((hlength x hx).symm ▸ d.permutation),
    unpermuted_permuted ((hlength x' hx').symm ▸ d.permutation)] at hback
  rw [hback]

end Layouts

/-! ### The entries of a plan -/

section Plan

variable {sources : List SourceTensorLayout} {destinations : List DestinationTensorLayout}
  {worldSize : ℕ} {limit : ℤ} {plan : DirectReshardPlan}

/-- The source feeds the destination on this route. -/
def Feeds (sources : List SourceTensorLayout) (destinations : List DestinationTensorLayout)
    (route : Route) (s : SourceTensorLayout) (d : DestinationTensorLayout) : Prop :=
  s ∈ sources ∧ d ∈ destinations ∧ s.name = d.name ∧ Compatible s d ∧
    ¬ (Region.inter s.region d.region).Empty ∧ route = (s.sourceRank, d.tpRank)

/-- The plan in its parts. -/
theorem build_eq_ok (h : buildDirectReshardPlan sources destinations worldSize limit = .ok plan) :
    ∃ entries : List (List (Route × TransferEntry)),
      ((Dict.firstKeys SourceTensorLayout.name sources).insertionSort (· ≤ ·)).mapM
        (tensorEntries sources destinations) = .ok entries ∧
      (Dict.firstKeys Prod.fst entries.flatten).mapM (routeBuckets limit.toNat entries.flatten) =
        .ok plan.buckets ∧
      ∀ d ∈ destinations, ∃ s ∈ sources, s.name = d.name := by
  rw [buildDirectReshardPlan] at h
  split_ifs at h with hlimit hnames
  obtain ⟨entries, hentries, h⟩ := ExceptList.bind_eq_ok.1 h
  refine ⟨entries, hentries, ?_, hnames.2⟩
  split at h
  · obtain ⟨buckets, hbuckets, h⟩ := ExceptList.bind_eq_ok.1 h
    obtain rfl := Except.ok.inj h
    exact hbuckets
  · exact absurd h nofun

/-- The entries of a plan are the intersections of the regions of a source and a destination. -/
theorem mem_tensorEntries {name : String} {entries : List (Route × TransferEntry)}
    (h : tensorEntries sources destinations name = .ok entries) {e : Route × TransferEntry} :
    e ∈ entries ↔ ∃ s d, Feeds sources destinations e.1 s d ∧ s.name = name ∧
      e.2 = transferEntry s d (Region.inter s.region d.region) := by
  rw [tensorEntries] at h
  obtain ⟨options, hoptions, h⟩ := ExceptList.bind_eq_ok.1 h
  obtain ⟨-, -, h⟩ := ExceptList.bind_eq_ok.1 h
  obtain rfl := Except.ok.inj h
  rw [List.reduceOption_mem_iff, ExceptList.mem_of_mapM hoptions]
  constructor
  · rintro ⟨⟨s, d⟩, hsd, hroute⟩
    obtain ⟨hs, hd⟩ := List.mem_product.1 hsd
    obtain ⟨hs, hsname⟩ := List.mem_filter.1 hs
    obtain ⟨hd, hdname⟩ := List.mem_filter.1 hd
    rw [routeEntry] at hroute
    split_ifs at hroute with hcompatible
    obtain ⟨region, hregion, rfl⟩ := Option.map_eq_some_iff.1 (Except.ok.inj hroute)
    obtain ⟨hmeet, rfl⟩ := intersectRegions_eq_some.1 hregion
    refine ⟨s, d, ⟨hs, hd, ?_, hcompatible, hmeet, rfl⟩, of_decide_eq_true hsname, rfl⟩
    rw [of_decide_eq_true hsname, of_decide_eq_true hdname]
  · rintro ⟨s, d, ⟨hs, hd, hname, hcompatible, hmeet, hroute⟩, hsname, hentry⟩
    refine ⟨(s, d), List.mem_product.2 ⟨List.mem_filter.2 ⟨hs, decide_eq_true hsname⟩,
      List.mem_filter.2 ⟨hd, decide_eq_true (hname.symm.trans hsname)⟩⟩, ?_⟩
    have hsome := intersectRegions_eq_some.2 ⟨hmeet, rfl⟩
    rw [routeEntry, if_neg (not_not.2 hcompatible)]
    dsimp only
    rw [hsome, Option.map_some, ← hroute, ← hentry]

theorem mem_planEntries {entries : List (List (Route × TransferEntry))}
    (h : ((Dict.firstKeys SourceTensorLayout.name sources).insertionSort (· ≤ ·)).mapM
      (tensorEntries sources destinations) = .ok entries) {e : Route × TransferEntry} :
    e ∈ entries.flatten ↔ ∃ s d, Feeds sources destinations e.1 s d ∧
      e.2 = transferEntry s d (Region.inter s.region d.region) := by
  have hnames : ∀ name, name ∈ (Dict.firstKeys SourceTensorLayout.name sources).insertionSort
      (· ≤ ·) ↔ ∃ s ∈ sources, s.name = name := fun name => by
    rw [(List.perm_insertionSort _ _).mem_iff, Dict.mem_firstKeys]
  rw [List.mem_flatten]
  constructor
  · rintro ⟨l, hl, he⟩
    obtain ⟨name, -, hl⟩ := (ExceptList.mem_of_mapM h).1 hl
    obtain ⟨s, d, hfeeds, -, hentry⟩ := (mem_tensorEntries hl).1 he
    exact ⟨s, d, hfeeds, hentry⟩
  · rintro ⟨s, d, hfeeds, hentry⟩
    obtain ⟨l, hl⟩ := ExceptList.exists_of_forall₂ (ExceptList.forall₂_of_mapM h)
      ((hnames s.name).2 ⟨s, hfeeds.1, rfl⟩)
    exact ⟨l, (ExceptList.mem_of_mapM h).2 ⟨s.name, (hnames s.name).2 ⟨s, hfeeds.1, rfl⟩, hl⟩,
      (mem_tensorEntries hl).2 ⟨s, d, hfeeds, rfl, hentry⟩⟩

/-- A plan is only built for compatible layouts. -/
theorem compatible_of_build
    (h : buildDirectReshardPlan sources destinations worldSize limit = .ok plan)
    {s : SourceTensorLayout} {d : DestinationTensorLayout} (hs : s ∈ sources)
    (hd : d ∈ destinations) (hname : s.name = d.name) : Compatible s d := by
  obtain ⟨entries, hentries, -, -⟩ := build_eq_ok h
  have hin : s.name ∈ (Dict.firstKeys SourceTensorLayout.name sources).insertionSort (· ≤ ·) := by
    rw [(List.perm_insertionSort _ _).mem_iff, Dict.mem_firstKeys]
    exact ⟨s, hs, rfl⟩
  obtain ⟨l, hl⟩ := ExceptList.exists_of_forall₂ (ExceptList.forall₂_of_mapM hentries) hin
  rw [tensorEntries] at hl
  obtain ⟨options, hoptions, -⟩ := ExceptList.bind_eq_ok.1 hl
  obtain ⟨option, hoption⟩ := ExceptList.exists_of_forall₂ (ExceptList.forall₂_of_mapM hoptions)
    (List.mem_product.2 ⟨List.mem_filter.2 ⟨hs, decide_eq_true rfl⟩,
      List.mem_filter.2 ⟨hd, decide_eq_true hname.symm⟩⟩)
  rw [routeEntry] at hoption
  split_ifs at hoption with hcompatible
  exact hcompatible

theorem Feeds.rank {route : Route} {s : SourceTensorLayout} {d : DestinationTensorLayout}
    (h : Feeds sources destinations route s d) : s.region.length = d.region.length := by
  rw [List.Forall₂.length_eq s.inside, List.Forall₂.length_eq d.inside, h.2.2.2.1.1]

/-- The buckets of a route hold the fragments of its entries. -/
theorem routeBuckets_spec {entries : List (Route × TransferEntry)} {route : Route} {size : ℕ}
    {result : Route × List TransferBucket}
    (hentries : ∀ e ∈ entries, e.2.Formed ∧ e.2.bufferOffset = 0)
    (h : routeBuckets size entries route = .ok result) :
    result.1 = route ∧ (∀ bucket ∈ result.2, bucket.Laid size) ∧
      ∀ f, f ∈ (result.2.flatMap TransferBucket.entries).map (·.withBufferOffset 0) ↔
        ∃ e, (route, e) ∈ entries ∧ ∃ fragments, splitEntry size e = .ok fragments ∧
          f ∈ fragments := by
  rw [routeBuckets] at h
  obtain ⟨fragments, hfragments, h⟩ := ExceptList.bind_eq_ok.1 h
  obtain ⟨buckets, hbuckets, h⟩ := ExceptList.bind_eq_ok.1 h
  obtain rfl := Except.ok.inj h
  have hroute : ∀ e, e ∈ (entries.filter (·.1 = route)).map Prod.snd ↔ (route, e) ∈ entries := by
    intro e
    rw [List.mem_map]
    constructor
    · rintro ⟨⟨route', e'⟩, he, rfl⟩
      obtain ⟨he, hroute⟩ := List.mem_filter.1 he
      rw [← show route' = route from of_decide_eq_true hroute]
      exact he
    · exact fun he => ⟨(route, e), List.mem_filter.2 ⟨he, decide_eq_true rfl⟩, rfl⟩
  have hmem : ∀ f, f ∈ fragments.flatten ↔ ∃ e, (route, e) ∈ entries ∧
      ∃ parts, splitEntry size e = .ok parts ∧ f ∈ parts := by
    intro f
    rw [List.mem_flatten]
    constructor
    · rintro ⟨parts, hparts, hf⟩
      obtain ⟨e, he, hsplit⟩ := (ExceptList.mem_of_mapM hfragments).1 hparts
      exact ⟨e, (hroute e).1 he, parts, hsplit, hf⟩
    · rintro ⟨e, he, parts, hsplit, hf⟩
      exact ⟨parts, (ExceptList.mem_of_mapM hfragments).2 ⟨e, (hroute e).2 he, hsplit⟩, hf⟩
  obtain ⟨buckets', hbuckets', hlaid, heq⟩ := bucketize_spec fun f hf => by
      obtain ⟨e, he, parts, hsplit, hf⟩ := (hmem f).1 hf
      obtain ⟨hformed, hoffset⟩ := hentries _ he
      obtain ⟨hbytes, hzero, hf', -⟩ := (splitEntry_spec hformed hoffset hsplit).2 f hf
      exact ⟨hf'.elementSize_pos, hbytes, hzero⟩
  obtain rfl := Except.ok.inj (hbuckets.symm.trans hbuckets')
  exact ⟨rfl, hlaid, fun f => heq ▸ hmem f⟩

theorem planEntries_formed {entries : List (List (Route × TransferEntry))}
    (h : ((Dict.firstKeys SourceTensorLayout.name sources).insertionSort (· ≤ ·)).mapM
      (tensorEntries sources destinations) = .ok entries) :
    ∀ e ∈ entries.flatten, e.2.Formed ∧ e.2.bufferOffset = 0 := by
  intro e he
  obtain ⟨s, d, hfeeds, hentry⟩ := (mem_planEntries h).1 he
  rw [hentry]
  exact ⟨formed_transferEntry hfeeds.rank hfeeds.2.2.2.2.1, rfl⟩

/-- The fragment belongs to the entry of a source and a destination. -/
def FragmentOf (size : ℕ) (s : SourceTensorLayout) (d : DestinationTensorLayout)
    (f : TransferEntry) : Prop :=
  ∃ fragments, splitEntry size (transferEntry s d (Region.inter s.region d.region)) =
    .ok fragments ∧ f.withBufferOffset 0 ∈ fragments

/-- Every bucket of a plan is laid out, and its entries are fragments of what a source feeds a
destination on its route. -/
theorem mem_items (h : buildDirectReshardPlan sources destinations worldSize limit = .ok plan)
    {item : Route × TransferBucket} (hitem : item ∈ plan.items) :
    item.2.Laid limit.toNat ∧ ∀ f ∈ item.2.entries, ∃ s d,
      Feeds sources destinations item.1 s d ∧ FragmentOf limit.toNat s d f := by
  obtain ⟨entries, hentries, hbuckets, -⟩ := build_eq_ok h
  obtain ⟨route, hroute, hitem⟩ := List.mem_flatMap.1 hitem
  obtain ⟨bucket, hbucket, rfl⟩ := List.mem_map.1 hitem
  obtain ⟨key, -, hkey⟩ := (ExceptList.mem_of_mapM hbuckets).1 hroute
  obtain ⟨rfl, hlaid, hmem⟩ := routeBuckets_spec (planEntries_formed hentries) hkey
  refine ⟨hlaid bucket hbucket, fun f hf => ?_⟩
  obtain ⟨e, he, fragments, hsplit, hfragment⟩ := (hmem (f.withBufferOffset 0)).1
    (List.mem_map_of_mem (List.mem_flatMap.2 ⟨bucket, hbucket, hf⟩))
  obtain ⟨s, d, hfeeds, rfl⟩ := (mem_planEntries hentries).1 he
  exact ⟨s, d, hfeeds, fragments, hsplit, hfragment⟩

/-- Every fragment of what a source feeds a destination is in a bucket of their route. -/
theorem exists_item (h : buildDirectReshardPlan sources destinations worldSize limit = .ok plan)
    {s : SourceTensorLayout} {d : DestinationTensorLayout} {route : Route}
    (hfeeds : Feeds sources destinations route s d) :
    ∃ fragments, splitEntry limit.toNat (transferEntry s d (Region.inter s.region d.region)) =
      .ok fragments ∧ ∀ f ∈ fragments, ∃ item ∈ plan.items, item.1 = route ∧
        ∃ e ∈ item.2.entries, e.withBufferOffset 0 = f := by
  obtain ⟨entries, hentries, hbuckets, -⟩ := build_eq_ok h
  have he : (route, transferEntry s d (Region.inter s.region d.region)) ∈ entries.flatten :=
    (mem_planEntries hentries).2 ⟨s, d, hfeeds, rfl⟩
  have hkey : route ∈ Dict.firstKeys Prod.fst entries.flatten := Dict.mem_firstKeys.2 ⟨_, he, rfl⟩
  obtain ⟨result, hresult⟩ := ExceptList.exists_of_forall₂ (ExceptList.forall₂_of_mapM hbuckets) hkey
  obtain ⟨hroute, -, hmem⟩ := routeBuckets_spec (planEntries_formed hentries) hresult
  have hin : result ∈ plan.buckets := (ExceptList.mem_of_mapM hbuckets).2 ⟨route, hkey, hresult⟩
  -- the entries of a route were all split when its buckets were built
  obtain ⟨fragments, hsplit⟩ : ∃ fragments, splitEntry limit.toNat
      (transferEntry s d (Region.inter s.region d.region)) = .ok fragments := by
    rw [routeBuckets] at hresult
    obtain ⟨parts, hparts, -⟩ := ExceptList.bind_eq_ok.1 hresult
    exact ExceptList.exists_of_forall₂ (ExceptList.forall₂_of_mapM hparts)
      (List.mem_map.2 ⟨_, List.mem_filter.2 ⟨he, decide_eq_true rfl⟩, rfl⟩)
  refine ⟨fragments, hsplit, fun f hf => ?_⟩
  obtain ⟨e, he', rfl⟩ := List.mem_map.1 ((hmem f).2 ⟨_, he, fragments, hsplit, hf⟩)
  obtain ⟨bucket, hbucket, he'⟩ := List.mem_flatMap.1 he'
  exact ⟨(result.1, bucket), List.mem_flatMap.2 ⟨result, hin, List.mem_map_of_mem hbucket⟩, hroute,
    e, he', rfl⟩

end Plan

/-! ### Plans are not refused -/

section Total

variable {sources : List SourceTensorLayout} {destinations : List DestinationTensorLayout}

theorem sum_map_ite {δ : Type} {key : δ → ℕ} {g : δ → ℕ} {l : List δ} {d : δ}
    (hl : l.Pairwise fun a b => key a ≠ key b) (hd : d ∈ l) :
    (l.map fun a => if key a = key d then g a else 0).sum = g d := by
  induction l with
  | nil => exact absurd hd List.not_mem_nil
  | cons a l ih =>
    obtain ⟨hhead, hrest⟩ := List.pairwise_cons.1 hl
    rw [List.map_cons, List.sum_cons]
    rcases List.mem_cons.1 hd with rfl | hd
    · have hzero : ∀ k ∈ l.map fun b => if key b = key d then g b else 0, k = 0 := by
        intro k hk
        obtain ⟨b, hb, rfl⟩ := List.mem_map.1 hk
        exact if_neg (hhead b hb).symm
      rw [if_pos rfl, List.sum_eq_zero hzero, Nat.add_zero]
    · rw [if_neg (hhead d hd), Nat.zero_add, ih hrest hd]

/-- The body of the two loops, for layouts that are compatible. -/
def routeOption (pair : SourceTensorLayout × DestinationTensorLayout) :
    Option (Route × TransferEntry) :=
  (intersectRegions pair.1.region pair.2.region).map fun intersection =>
    ((pair.1.sourceRank, pair.2.tpRank), transferEntry pair.1 pair.2 intersection)

/-- What one pair brings a TP rank. -/
theorem coverage_routeOption (pairs : List (SourceTensorLayout × DestinationTensorLayout))
    (tpRank : ℕ) : coverage (pairs.map routeOption).reduceOption tpRank =
      (pairs.map fun pair => if pair.2.tpRank = tpRank then
        Region.numel (Region.inter pair.1.region pair.2.region) else 0).sum := by
  induction pairs with
  | nil => rfl
  | cons pair pairs ih =>
    rw [List.map_cons, List.map_cons, List.sum_cons, ← ih]
    by_cases hmeet : (Region.inter pair.1.region pair.2.region).Empty
    · have hzero : Region.numel (Region.inter pair.1.region pair.2.region) = 0 := by
        obtain ⟨i, hi, h0⟩ := hmeet
        exact List.prod_eq_zero (h0 ▸ List.mem_map_of_mem hi)
      have hnone : routeOption pair = none := by
        rw [routeOption, intersectRegions, if_pos hmeet, Option.map_none]
      rw [hnone, List.reduceOption_cons_of_none, hzero, ite_self, Nat.zero_add]
    · have hsome : routeOption pair = some ((pair.1.sourceRank, pair.2.tpRank),
          transferEntry pair.1 pair.2 (Region.inter pair.1.region pair.2.region)) := by
        rw [routeOption, intersectRegions, if_neg hmeet, Option.map_some]
      rw [hsome, List.reduceOption_cons_of_some, coverage, List.filter_cons]
      by_cases htp : pair.2.tpRank = tpRank
      · rw [if_pos (decide_eq_true htp), if_pos htp, List.map_cons, List.sum_cons]
        rfl
      · rw [if_neg (by simpa using htp), if_neg htp, Nat.zero_add]
        rfl

theorem sum_product {δ ε : Type} (l : List δ) (l' : List ε) (g : δ × ε → ℕ) :
    ((l.product l').map g).sum = (l.map fun a => (l'.map fun b => g (a, b)).sum).sum := by
  induction l with
  | nil => rfl
  | cons a l ih =>
    change (((l'.map (a, ·)) ++ l.product l').map g).sum = _
    rw [List.map_append, List.sum_append, ih, List.map_map, List.map_cons, List.sum_cons]
    rfl

/-- The regions of the sources count up to the region of every destination. -/
theorem coverage_of_resolved (h : Resolved sources destinations) {name : String}
    (hcompatible : ∀ s ∈ sources, ∀ d ∈ destinations, s.name = d.name → Compatible s d)
    {s₀ : SourceTensorLayout} (hs₀ : s₀ ∈ sources) (hname₀ : s₀.name = name)
    {d : DestinationTensorLayout} (hd : d ∈ destinations.filter (·.name = name)) :
    coverage ((((sources.filter (·.name = name)).product
        (destinations.filter (·.name = name))).map routeOption).reduceOption) d.tpRank =
      Region.numel d.region := by
  subst hname₀
  obtain ⟨hd', hdname⟩ := List.mem_filter.1 hd
  have hdname : d.name = s₀.name := of_decide_eq_true hdname
  have hunique : (destinations.filter (·.name = s₀.name)).Pairwise fun a b =>
      a.tpRank ≠ b.tpRank := by
    refine (List.Pairwise.filter _ h.region).imp_of_mem fun {a b} ha hb hab htp => hab ⟨?_, htp⟩
    rw [of_decide_eq_true (List.mem_filter.1 ha).2, of_decide_eq_true (List.mem_filter.1 hb).2]
  have hinner : ∀ s : SourceTensorLayout, ((destinations.filter (·.name = s₀.name)).map fun b =>
      if b.tpRank = d.tpRank then Region.numel (Region.inter s.region b.region) else 0).sum =
      Region.numel (Region.inter s.region d.region) := fun s =>
    sum_map_ite (g := fun b => Region.numel (Region.inter s.region b.region)) hunique hd
  obtain ⟨hapart, hfill⟩ := h.sources_fill hs₀
  have hshape := (hcompatible s₀ hs₀ d hd' hdname.symm).1
  have hsum := Region.sum_numel_of_covers (b := d.region)
    (fun r hr => by
      obtain ⟨s, hs, rfl⟩ := List.mem_map.1 hr
      obtain ⟨hs, hname⟩ := List.mem_filter.1 hs
      rw [List.Forall₂.length_eq s.inside, List.Forall₂.length_eq d.inside,
        h.globalShape s₀ hs₀ s hs (of_decide_eq_true hname), hshape])
    hapart (fun p hp => by
      obtain ⟨s, hs, hname, hps⟩ := hfill p (hshape ▸ mem_of_inside d.inside hp)
      exact ⟨s.region, List.mem_map.2 ⟨s, List.mem_filter.2 ⟨hs, decide_eq_true hname⟩, rfl⟩, hps⟩)
  rw [coverage_routeOption, sum_product, ← hsum, List.map_map]
  exact congrArg List.sum (List.map_congr_left fun s _ => hinner s)

theorem tensorEntries_ok (h : Resolved sources destinations) {name : String}
    (hcompatible : ∀ s ∈ sources, ∀ d ∈ destinations, s.name = d.name → Compatible s d)
    {s₀ : SourceTensorLayout} (hs₀ : s₀ ∈ sources) (hname₀ : s₀.name = name) :
    ∃ entries, tensorEntries sources destinations name = .ok entries := by
  have hpairs : ((sources.filter (·.name = name)).product
      (destinations.filter (·.name = name))).mapM routeEntry =
      .ok (((sources.filter (·.name = name)).product
        (destinations.filter (·.name = name))).map routeOption) := by
    refine ExceptList.mapM_of_forall fun pair hpair => ?_
    obtain ⟨hs, hd⟩ := List.mem_product.1 hpair
    obtain ⟨hs, hsname⟩ := List.mem_filter.1 hs
    obtain ⟨hd, hdname⟩ := List.mem_filter.1 hd
    rw [routeEntry, if_neg (not_not.2 (hcompatible _ hs _ hd
      ((of_decide_eq_true hsname).trans (of_decide_eq_true hdname).symm)))]
    rfl
  have hvalidate : validateCoverage name (destinations.filter (·.name = name))
      (((sources.filter (·.name = name)).product
        (destinations.filter (·.name = name))).map routeOption).reduceOption = .ok () := by
    refine ExceptList.forM_eq_ok.2 fun d hd => ?_
    exact if_neg (not_not.2 (coverage_of_resolved h hcompatible hs₀ hname₀ hd))
  refine ⟨(((sources.filter (·.name = name)).product
    (destinations.filter (·.name = name))).map routeOption).reduceOption, ?_⟩
  rw [tensorEntries, hpairs]
  change (validateCoverage _ _ _ >>= _) = _
  rw [hvalidate]
  rfl

theorem splitEntry_ok {size : ℕ} {e : TransferEntry} (hsize : 0 < e.elementSize)
    (hfits : e.elementSize ≤ size) : ∃ fragments, splitEntry size e = .ok fragments := by
  have hmax : size / e.elementSize ≠ 0 := Nat.pos_iff_ne_zero.1 (Nat.div_pos hfits hsize)
  obtain ⟨tiles, htiles⟩ : ∃ tiles,
      tileRegion (e.lengths.map (0, ·)) e.elementSize size = .ok tiles := by
    rw [tileRegion, if_neg hmax]
    split_ifs
    · exact ⟨_, rfl⟩
    · exact ⟨_, rfl⟩
  rw [splitEntry, htiles]
  change ∃ fragments, (if tiles = e.lengths.map (0, ·) :: [] then _ else _) = _
  split_ifs
  · exact ⟨_, rfl⟩
  · exact ⟨_, rfl⟩

theorem routeBuckets_ok {entries : List (Route × TransferEntry)} {size : ℕ} (route : Route)
    (hentries : ∀ e ∈ entries, e.2.Formed ∧ e.2.bufferOffset = 0 ∧ e.2.elementSize ≤ size) :
    ∃ result, routeBuckets size entries route = .ok result := by
  have hroute : ∀ e ∈ (entries.filter (·.1 = route)).map Prod.snd,
      e.Formed ∧ e.bufferOffset = 0 ∧ e.elementSize ≤ size := by
    intro e he
    obtain ⟨pair, hpair, rfl⟩ := List.mem_map.1 he
    exact hentries pair (List.mem_filter.1 hpair).1
  obtain ⟨fragments, hfragments⟩ := ExceptList.forall₂_of_exists
    (R := fun e parts => splitEntry size e = .ok parts) fun e he =>
      splitEntry_ok (hroute e he).1.elementSize_pos (hroute e he).2.2
  have hmapM := ExceptList.mapM_of_forall₂ hfragments
  obtain ⟨buckets, hbuckets, -, -⟩ := bucketize_spec fun f hf => by
      obtain ⟨parts, hparts, hf⟩ := List.mem_flatten.1 hf
      obtain ⟨e, he, hsplit⟩ := (ExceptList.mem_of_mapM hmapM).1 hparts
      obtain ⟨hformed, hoffset, -⟩ := hroute e he
      obtain ⟨hbytes, hzero, hf', -⟩ := (splitEntry_spec hformed hoffset hsplit).2 f hf
      exact ⟨hf'.elementSize_pos, hbytes, hzero⟩
  refine ⟨(route, buckets), ?_⟩
  rw [routeBuckets, hmapM]
  change (bucketize size fragments.flatten >>= _) = _
  rw [hbuckets]
  rfl

/-- Resolved layouts of the same tensors, with compatible dtypes and one TP size, have a plan for
every bucket size that holds an element: the coverage check never fires.  In every bucket the entries
are aligned, one behind the other, and end within the bucket size. -/
theorem buildDirectReshardPlan_total (h : Resolved sources destinations)
    (hcompatible : ∀ s ∈ sources, ∀ d ∈ destinations, s.name = d.name → Compatible s d)
    (hsources : ∀ s ∈ sources, ∃ d ∈ destinations, d.name = s.name)
    (hdestinations : ∀ d ∈ destinations, ∃ s ∈ sources, s.name = d.name) {tpSize : ℕ}
    (htpSize : ∀ d ∈ destinations, d.tpSize = tpSize) (hne : destinations ≠ []) {limit : ℕ}
    (hlimit : 0 < limit) (hfits : ∀ s ∈ sources, s.elementSize ≤ limit) (worldSize : ℕ) :
    ∃ plan, buildDirectReshardPlan sources destinations worldSize limit = .ok plan ∧
      ∀ item ∈ plan.items, item.2.Laid limit := by
  obtain ⟨entries, hentries⟩ : ∃ entries,
      ((Dict.firstKeys SourceTensorLayout.name sources).insertionSort (· ≤ ·)).mapM
        (tensorEntries sources destinations) = .ok entries := by
    obtain ⟨entries, hall⟩ := ExceptList.forall₂_of_exists
      (R := fun name l => tensorEntries sources destinations name = .ok l)
      (l := (Dict.firstKeys SourceTensorLayout.name sources).insertionSort (· ≤ ·))
      fun name hname => by
        rw [(List.perm_insertionSort _ _).mem_iff, Dict.mem_firstKeys] at hname
        obtain ⟨s, hs, hname⟩ := hname
        exact tensorEntries_ok h hcompatible hs hname
    exact ⟨entries, ExceptList.mapM_of_forall₂ hall⟩
  have hsizes : ∀ e ∈ entries.flatten, e.2.elementSize ≤ limit := by
    intro e he
    obtain ⟨s, d, hfeeds, hentry⟩ := (mem_planEntries hentries).1 he
    rw [hentry]
    exact hfits s hfeeds.1
  obtain ⟨buckets, hbuckets⟩ := ExceptList.forall₂_of_exists
    (R := fun route result => routeBuckets limit entries.flatten route = .ok result)
    (l := Dict.firstKeys Prod.fst entries.flatten) fun route _ =>
      routeBuckets_ok route fun e he =>
        ⟨(planEntries_formed hentries e he).1, (planEntries_formed hentries e he).2, hsizes e he⟩
  have htp : Dict.firstKeys DestinationTensorLayout.tpSize destinations = [tpSize] := by
    obtain ⟨d, rest, rfl⟩ := List.exists_cons_of_ne_nil hne
    have hfirst : Dict.firstKeys DestinationTensorLayout.tpSize [d] = [tpSize] := by
      rw [← htpSize d List.mem_cons_self]
      rfl
    have hmet : ∀ e ∈ rest, e.tpSize ∈ Dict.firstKeys DestinationTensorLayout.tpSize [d] := by
      intro e he
      rw [hfirst, List.mem_singleton]
      exact htpSize e (List.mem_cons_of_mem _ he)
    exact (Dict.firstKeys_append hmet).trans hfirst
  have hbuild : buildDirectReshardPlan sources destinations worldSize limit =
      .ok ⟨worldSize, tpSize, limit, buckets⟩ := by
    rw [buildDirectReshardPlan, if_neg (by omega), if_neg (not_not.2 ⟨hsources, hdestinations⟩), hentries, htp,
      Int.toNat_natCast]
    change ((Dict.firstKeys Prod.fst entries.flatten).mapM
      (routeBuckets limit entries.flatten) >>= fun buckets =>
        Except.ok (⟨worldSize, tpSize, limit, buckets⟩ : DirectReshardPlan)) = _
    rw [ExceptList.mapM_of_forall₂ hbuckets]
    rfl
  exact ⟨_, hbuild, fun item hitem => (mem_items hbuild hitem).1⟩

end Total

/-- One of two rows of a vector of two bytes, on the rank of its row. -/
def rowShard (rank : Fin 2) : SourceTensorLayout :=
  ⟨"w", "uint8", 1, [2], rank, [(rank, 1)], "w", [0], Nat.one_pos, .cons rank.isLt .nil, rfl⟩

/-- The vector as a whole on one worker. -/
def wholeVector : DestinationTensorLayout :=
  ⟨"w", "uint8", 1, [2], 0, 1, [(0, 2)], "w", [0], [0], [], .cons (Nat.le_refl 2) .nil, rfl,
    .refl _⟩

theorem resolved_rowShard : Resolved [rowShard 0, rowShard 1] [wholeVector] where
  coverage := by
    intro s hs
    rcases List.mem_cons.1 hs with rfl | hs
    · rfl
    · rw [List.mem_singleton.1 hs]
      rfl
  globalShape := by
    have hshape : ∀ s ∈ [rowShard 0, rowShard 1], s.globalShape = [2] := by
      intro s hs
      rcases List.mem_cons.1 hs with rfl | hs
      · rfl
      · rw [List.mem_singleton.1 hs]
        rfl
    exact fun s hs s' hs' _ => (hshape s' hs').trans (hshape s hs).symm
  region := List.pairwise_singleton _ _

theorem buildDirectReshardPlan_total_rows :
    ∃ plan, buildDirectReshardPlan [rowShard 0, rowShard 1] [wholeVector] 2 (1 : ℕ) = .ok plan ∧
      ∀ item ∈ plan.items, item.2.Laid 1 :=
  buildDirectReshardPlan_total resolved_rowShard (by decide) (by decide) (by decide)
    (show ∀ d ∈ [wholeVector], d.tpSize = 1 by decide) (List.cons_ne_nil _ _) Nat.one_pos (by decide) 2

/-! ### The update -/

/-- The Actor ranks hold their regions of the values, under the dtype of each tensor. -/
def HoldsShards (run : ReshardRun) (sources : List SourceTensorLayout) (dtype : String → String)
    (value : String → List ℕ → List UInt8) : Prop :=
  ∀ s ∈ sources, s.dtypeName = dtype s.name ∧
    ∃ tensor, run.stateDicts s.sourceRank s.sourceKey = some tensor ∧
      tensor.elementSize = s.elementSize ∧ ∀ p, Region.Mem s.region p →
        Valid tensor.shape (s.place p) ∧ tensor.entry (s.place p) = value s.name p

/-- Every fragment of the plan can be viewed as bytes on its source rank. -/
def DirectReshardPlan.ViewsAsBytes (plan : DirectReshardPlan) (run : ReshardRun) : Prop :=
  ∀ item ∈ plan.items, ∀ e ∈ item.2.entries, ∀ tensor,
    run.stateDicts item.1.1 e.sourceKey = some tensor → e.ViewsAsBytes tensor

/-- The workers have room for their regions, and the places of two regions differ. -/
structure TakesShards (init : ℕ → String → Option Parameter)
    (destinations : List DestinationTensorLayout) : Prop where
  room : ∀ d ∈ destinations, ∃ parameter, init d.tpRank d.targetName = some parameter ∧
    parameter.dtypeName = d.dtypeName ∧ parameter.elementSize = d.elementSize ∧
    ∀ p, Region.Mem d.region p → Valid parameter.shape (d.place p)
  apart : ∀ d ∈ destinations, ∀ d' ∈ destinations, d.tpRank = d'.tpRank →
    d.targetName = d'.targetName → ∀ p p', Region.Mem d.region p → Region.Mem d'.region p' →
    d.place p = d'.place p' → d = d'

/-- The coordinate `p` of the destination `d` belongs at this place of a worker. -/
structure BelongsAt (destinations : List DestinationTensorLayout) (tpRank : ℕ) (name : String)
    (idx : List ℕ) (d : DestinationTensorLayout) (p : List ℕ) : Prop where
  mem : d ∈ destinations
  tpRank : d.tpRank = tpRank
  targetName : d.targetName = name
  inRegion : Region.Mem d.region p
  place : d.place p = idx

section Update

variable {run : ReshardRun} {sources : List SourceTensorLayout}
  {destinations : List DestinationTensorLayout} {dtype : String → String}
  {value : String → List ℕ → List UInt8} {init : ℕ → String → Option Parameter}
  {worldSize : ℕ} {limit : ℤ} {plan : DirectReshardPlan}

theorem BelongsAt.unique (h : TakesShards init destinations) {tpRank : ℕ} {name : String}
    {idx p p' : List ℕ} {d d' : DestinationTensorLayout}
    (hd : BelongsAt destinations tpRank name idx d p)
    (hd' : BelongsAt destinations tpRank name idx d' p') : d = d' ∧ p = p' := by
  have hplace := hd.place.trans hd'.place.symm
  obtain rfl := h.apart d hd.mem d' hd'.mem (hd.tpRank.trans hd'.tpRank.symm)
    (hd.targetName.trans hd'.targetName.symm) p p' hd.inRegion hd'.inRegion hplace
  exact ⟨rfl, DestinationTensorLayout.place_injective hd.inRegion hd'.inRegion hplace⟩

open Classical in
/-- What belongs at a place of a worker. -/
noncomputable def rightValue (run : ReshardRun) (destinations : List DestinationTensorLayout)
    (dtype : String → String) (value : String → List ℕ → List UInt8) (tpRank : ℕ) (name : String)
    (idx : List ℕ) : List UInt8 :=
  if h : ∃ d p, BelongsAt destinations tpRank name idx d p then
    run.convert (dtype h.choose.name) h.choose.dtypeName
      (value h.choose.name h.choose_spec.choose)
  else []

theorem rightValue_eq (h : TakesShards init destinations) {tpRank : ℕ} {name : String}
    {idx p : List ℕ} {d : DestinationTensorLayout}
    (hd : BelongsAt destinations tpRank name idx d p) :
    rightValue run destinations dtype value tpRank name idx =
      run.convert (dtype d.name) d.dtypeName (value d.name p) := by
  have hex : ∃ d p, BelongsAt destinations tpRank name idx d p := ⟨d, p, hd⟩
  obtain ⟨hd', hp'⟩ := BelongsAt.unique h hex.choose_spec.choose_spec hd
  rw [rightValue, dif_pos hex, hp', hd']

/-- What a fragment copies is a coordinate of both regions, between its two places. -/
theorem FragmentOf.copies {route : Route} {s : SourceTensorLayout} {d : DestinationTensorLayout}
    {f : TransferEntry} (hfeeds : Feeds sources destinations route s d) {size : ℕ}
    (hf : FragmentOf size s d f) : f.Formed ∧
      f.SameTensor (transferEntry s d (Region.inter s.region d.region)) ∧
      ∀ q q', f.Copies q q' → ∃ p, Region.Mem s.region p ∧ Region.Mem d.region p ∧
        q = s.place p ∧ q' = d.place p := by
  obtain ⟨fragments, hsplit, hmem⟩ := hf
  obtain ⟨hcopies, hall⟩ :=
    splitEntry_spec (formed_transferEntry hfeeds.rank hfeeds.2.2.2.2.1) rfl hsplit
  obtain ⟨-, -, hformed, hsame⟩ := hall _ hmem
  refine ⟨⟨hformed.1, hformed.2, hformed.3, hformed.4, hformed.5⟩,
    ⟨hsame.1, hsame.2, hsame.3, hsame.4, hsame.5, hsame.6, hsame.7, hsame.8⟩, fun q q' hc => ?_⟩
  exact (transferEntry_copies hfeeds.rank).1 ((hcopies q q').1 ⟨_, hmem, hc⟩)

/-- Every bucket of the plan is read and written within bounds and brings the right values. -/
theorem sound_items (h : buildDirectReshardPlan sources destinations worldSize limit = .ok plan)
    (hviews : plan.ViewsAsBytes run) (hholds : HoldsShards run sources dtype value)
    (htakes : TakesShards init destinations) {item : Route × TransferBucket}
    (hitem : item ∈ plan.items) :
    Sound run init (rightValue run destinations dtype value) limit.toNat item := by
  obtain ⟨hlaid, hentries⟩ := mem_items h hitem
  refine ⟨hlaid, fun f hf => ?_, fun f hf => ?_, fun f hf => ?_⟩
  · obtain ⟨s, d, hfeeds, hfragment⟩ := hentries f hf
    exact (hfragment.copies hfeeds).1
  · obtain ⟨s, d, hfeeds, hfragment⟩ := hentries f hf
    obtain ⟨-, hsame, hcopies⟩ := hfragment.copies hfeeds
    obtain ⟨hs, hd, hname, -, -, hroute⟩ := hfeeds
    obtain ⟨hdtype, tensor, htensor, hsize, hplaces⟩ := hholds s hs
    have hfound : run.stateDicts item.1.1 f.sourceKey = some tensor := by
      rw [hroute, hsame.sourceKey]
      exact htensor
    refine ⟨tensor, hfound, hviews item hitem f hf tensor hfound,
      ⟨hsize.trans hsame.elementSize.symm, fun q q' hc => ?_⟩, fun q q' hc => ?_⟩
    · obtain ⟨p, hp, -, rfl, -⟩ := hcopies q q' hc
      exact (hplaces p hp).1
    · obtain ⟨p, hps, hpd, rfl, rfl⟩ := hcopies q q' hc
      have hbelongs : BelongsAt destinations item.1.2 f.targetName (d.place p) d p :=
        ⟨hd, by rw [hroute], hsame.targetName.symm, hpd, rfl⟩
      rw [rightValue_eq htakes hbelongs, (hplaces p hps).2, hsame.dtypeName,
        hsame.destinationDtypeName, ← hname, ← hdtype]
      rfl
  · obtain ⟨s, d, hfeeds, hfragment⟩ := hentries f hf
    obtain ⟨-, hsame, hcopies⟩ := hfragment.copies hfeeds
    obtain ⟨-, hd, -, -, -, hroute⟩ := hfeeds
    obtain ⟨parameter, hparameter, hdtype, hsize, hplaces⟩ := htakes.room d hd
    refine ⟨parameter, ?_, ⟨hdtype.trans hsame.destinationDtypeName.symm,
      hsize.trans hsame.destinationElementSize.symm, fun q q' hc => ?_⟩⟩
    · rw [hroute, hsame.targetName]
      exact hparameter
    · obtain ⟨p, -, hp, -, rfl⟩ := hcopies q q' hc
      exact hplaces p hp

/-- Every coordinate of a destination is written by some bucket. -/
theorem exists_delivers (hresolved : Resolved sources destinations)
    (h : buildDirectReshardPlan sources destinations worldSize limit = .ok plan)
    {d : DestinationTensorLayout} (hd : d ∈ destinations) {p : List ℕ}
    (hp : Region.Mem d.region p) :
    ∃ item ∈ plan.items, Reaches item d.tpRank d.targetName (d.place p) := by
  obtain ⟨s₀, hs₀, hname₀⟩ := (build_eq_ok h).choose_spec.2.2 d hd
  have hshape := (compatible_of_build h hs₀ hd hname₀).1
  obtain ⟨s, hs, hname, hps⟩ := (hresolved.sources_fill hs₀).2 p
    (hshape ▸ mem_of_inside d.inside hp)
  have hsd := compatible_of_build h hs hd (hname.trans hname₀)
  have hrank : s.region.length = d.region.length := by
    rw [List.Forall₂.length_eq s.inside, List.Forall₂.length_eq d.inside, hsd.1]
  have hfeeds : Feeds sources destinations (s.sourceRank, d.tpRank) s d :=
    ⟨hs, hd, hname.trans hname₀, hsd,
      fun hempty => Region.not_mem_of_empty hempty ((Region.mem_inter hrank).2 ⟨hps, hp⟩), rfl⟩
  obtain ⟨fragments, hsplit, hitems⟩ := exists_item h hfeeds
  have hformed := formed_transferEntry hrank hfeeds.2.2.2.2.1
  obtain ⟨hcopies, hall⟩ := splitEntry_spec hformed rfl hsplit
  obtain ⟨f, hf, hc⟩ := (hcopies (s.place p) (d.place p)).2
    ((transferEntry_copies hrank).2 ⟨p, hps, hp, rfl, rfl⟩)
  obtain ⟨item, hitem, hroute, e, he, rfl⟩ := hitems f hf
  refine ⟨item, hitem, by rw [hroute], e, he, (hall _ hf).2.2.2.targetName.symm, s.place p, hc⟩

/-- After all buckets of a plan whose fragments can be viewed as bytes have been delivered, in any
order, every worker holds the Actor's value, converted to its dtype, at the place of every coordinate of its regions, and what it held
before everywhere else. -/
theorem directReshard_delivers (hresolved : Resolved sources destinations)
    (h : buildDirectReshardPlan sources destinations worldSize limit = .ok plan)
    (hviews : plan.ViewsAsBytes run) (hholds : HoldsShards run sources dtype value)
    (htakes : TakesShards init destinations) {items : List (Route × TransferBucket)} (hitems : items.Perm plan.items) :
    ∃ workers, items.foldlM run.deliver init = .ok workers ∧
      ∀ tpRank name parameter, init tpRank name = some parameter →
        ∃ parameter', workers tpRank name = some parameter' ∧ parameter'.Like parameter ∧
          (∀ idx d p, BelongsAt destinations tpRank name idx d p →
            parameter'.entry idx = run.convert (dtype d.name) d.dtypeName (value d.name p)) ∧
          ∀ idx, (∀ d p, ¬ BelongsAt destinations tpRank name idx d p) →
            parameter'.entry idx = parameter.entry idx := by
  obtain ⟨workers, hworkers, hafter⟩ := deliver_run
    (fun item hitem => sound_items h hviews hholds htakes (hitems.mem_iff.1 hitem))
    (fun tpRank => Parameters.after_refl (init tpRank) _)
  refine ⟨workers, hworkers, fun tpRank name parameter hparameter => ?_⟩
  obtain ⟨parameter', hparameter', hlike, hentries⟩ := hafter tpRank name parameter hparameter
  refine ⟨parameter', hparameter', hlike, fun idx d p hd => ?_, fun idx hidx => ?_⟩
  · obtain ⟨item, hitem, hdelivers⟩ := exists_delivers hresolved h hd.mem hd.inRegion
    rw [hd.tpRank, hd.targetName, hd.place] at hdelivers
    rw [(hentries idx).1 (Or.inr ⟨item, hitems.mem_iff.2 hitem, hdelivers⟩)]
    exact rightValue_eq htakes hd
  · refine (hentries idx).2 ?_
    rintro (hfalse | ⟨item, hitem, htp, f, hf, rfl, q, hc⟩)
    · exact hfalse
    · obtain ⟨-, hall⟩ := mem_items h (hitems.mem_iff.1 hitem)
      obtain ⟨s, d, hfeeds, hfragment⟩ := hall f hf
      obtain ⟨-, hsame, hcopies⟩ := hfragment.copies hfeeds
      obtain ⟨p, -, hp, -, rfl⟩ := hcopies q idx hc
      exact hidx d p ⟨hfeeds.2.1, (congrArg Prod.snd hfeeds.2.2.2.2.2).symm.trans htp,
        hsame.targetName.symm, hp, rfl⟩

end Update

/-- A vector of two bytes, by the coordinate. -/
def vectorValue (_ : String) (p : List ℕ) : List UInt8 := [UInt8.ofNat (p.headD 0 + 7)]

/-- The Actor ranks with a row each. -/
def rowRun : ReshardRun where
  stateDicts := fun rank _ => some ⟨1, [1], [1], fun idx => [UInt8.ofNat (idx.headD 0 + rank + 7)],
    fun _ => rfl⟩
  empty := fun _ => 0
  convert := fun _ _ bytes => bytes

/-- The worker with an empty vector. -/
def vectorWorker (_ : ℕ) (_ : String) : Option Parameter := some ⟨"uint8", 1, [2], fun _ => [0]⟩

theorem directReshard_delivers_rows :
    ∃ plan workers parameter,
      buildDirectReshardPlan [rowShard 0, rowShard 1] [wholeVector] 2 1 = .ok plan ∧
      plan.items.foldlM rowRun.deliver vectorWorker = .ok workers ∧
      workers 0 "w" = some parameter ∧ parameter.entry [0] = [7] ∧ parameter.entry [1] = [8] := by
  obtain ⟨plan, hplan⟩ : ∃ plan,
      buildDirectReshardPlan [rowShard 0, rowShard 1] [wholeVector] 2 1 = .ok plan := ⟨_, rfl⟩
  have hrow : ∀ k n p, Region.Mem [(k, n)] p → ∃ x, (k ≤ x ∧ x < k + n) ∧ p = [x] := by
    intro k n p hp
    obtain ⟨x, q, hx, hq, rfl⟩ := Region.mem_cons_iff.1 hp
    rw [Region.mem_nil.1 hq]
    exact ⟨x, hx, rfl⟩
  have hholds : HoldsShards rowRun [rowShard 0, rowShard 1] (fun _ => "uint8") vectorValue := by
    have hshard : ∀ rank : Fin 2, (rowShard rank).dtypeName = "uint8" ∧
        ∃ tensor, rowRun.stateDicts (rowShard rank).sourceRank (rowShard rank).sourceKey =
          some tensor ∧ tensor.elementSize = (rowShard rank).elementSize ∧
          ∀ p, Region.Mem (rowShard rank).region p →
            Valid tensor.shape ((rowShard rank).place p) ∧
              tensor.entry ((rowShard rank).place p) = vectorValue (rowShard rank).name p := by
      refine fun rank => ⟨rfl, _, rfl, rfl, fun p hp => ?_⟩
      obtain ⟨x, hx, rfl⟩ := hrow _ _ p hp
      obtain rfl : x = rank := by omega
      have hplace : (rowShard rank).place [(rank : ℕ)] = [0] := by
        change [0 + ((rank : ℕ) - rank)] = [0]
        rw [Nat.sub_self]
      rw [hplace]
      exact ⟨.cons Nat.one_pos .nil, by
        change [UInt8.ofNat (0 + (rank : ℕ) + 7)] = [UInt8.ofNat ((rank : ℕ) + 7)]
        rw [Nat.zero_add]⟩
    intro s hs
    rcases List.mem_cons.1 hs with rfl | hs
    · exact hshard 0
    · rw [List.mem_singleton.1 hs]
      exact hshard 1
  have htakes : TakesShards vectorWorker [wholeVector] := by
    refine ⟨fun d hd => ?_, fun d hd d' hd' _ _ _ _ _ _ _ => ?_⟩
    · rw [List.mem_singleton.1 hd]
      refine ⟨_, rfl, rfl, rfl, fun p hp => ?_⟩
      obtain ⟨x, hx, rfl⟩ := hrow _ _ p hp
      exact .cons (by change 0 + (x - 0) < 2; omega) .nil
    · rw [List.mem_singleton.1 hd, List.mem_singleton.1 hd']
  have hviews : plan.ViewsAsBytes rowRun := fun _ _ _ _ tensor htensor =>
    .inl (by rw [← Option.some.inj htensor])
  obtain ⟨workers, hworkers, hall⟩ :=
    directReshard_delivers resolved_rowShard hplan hviews hholds htakes (.refl plan.items)
  obtain ⟨parameter, hparameter, -, hplaces, -⟩ := hall 0 "w" _ rfl
  have hbelongs : ∀ x, x < 2 → BelongsAt [wholeVector] 0 "w" [x] wholeVector [x] := fun x hx =>
    ⟨List.mem_singleton_self _, rfl, rfl, Region.mem_cons.2 ⟨⟨Nat.zero_le x, by omega⟩, .nil⟩, by
      change [0 + (x - 0)] = [x]
      rw [Nat.sub_zero, Nat.zero_add]⟩
  exact ⟨plan, workers, parameter, hplan, hworkers, hparameter,
    hplaces _ _ _ (hbelongs 0 (by omega)), hplaces _ _ _ (hbelongs 1 (by omega))⟩

end HyperParallel.WeightSync
