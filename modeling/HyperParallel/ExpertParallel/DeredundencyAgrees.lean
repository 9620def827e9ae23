import HyperParallel.ExpertParallel.DeredundencyFlow

/-!
# The two dispatchers agree

Expert weights are placed by `Shard(0)` over the flattened mesh: the rank that stands at `r` there
holds the experts from `r * L` on.

* `HoldsTokens`, `ReturnsRows`, `Agrees`: every rank gets the tokens of its experts, and the rows
  that the dispatcher over one group returns;
* `MeshInfo.Aligned`: the ranks stand in their groups as they stand in the flattened mesh;
* `agrees_iff`: the dispatchers agree exactly then.
-/

namespace HyperParallel.ExpertParallel

open Blocks Exchange

variable {α κ : Type} {L : ℕ} {info : MeshInfo}

/-- A row-wise expert computation, without probs. -/
def rowExpert (f : ℕ → α → α) : ℕ → α → Option κ → α := fun e x _ => f e x

/-- The experts of a rank on what it received. -/
def localOutput (L : ℕ) (f : ℕ → α → α) (x : info.OnRanks (Deredundency.Result α κ)) :
    info.OnRanks (List α) := fun o i =>
  expertOutput (rowExpert (κ := κ) f) (info.flatRank o i * L)
    ⟨(x o i).permuted, (x o i).localCounts, none, (x o i).ctx.toDispatchContext⟩

/-- Every rank has the tokens of the experts whose weights it holds, each once, expert by expert. -/
def HoldsTokens (inputs : info.OnRanks (RoutedInput α κ (info.oepSize * info.iepSize * L)))
    (out : info.OnRanks (Deredundency.Result α κ)) : Prop :=
  ∀ o i, ∃ T : Fin L → List (RoutedToken α κ),
    (out o i).permuted = (concat T).map (·.row) ∧
      (out o i).localCounts = List.ofFn (fun e => (T e).length) ∧
      ∀ e, (T e).Perm (concat fun i' => concat fun o' =>
        (inputs o' i').ofExpert (info.flatRank o i * L + e.val))

/-- `combine`, and `combine_start` with `combine_wait`, return the rows that the dispatcher over the
flattened mesh returns, scaled if there are coefficients. The group of the flattened mesh has its
members by global rank, and each computes with the experts that its place in the mesh gives it. -/
def ReturnsRows [AddCommMonoid α] [SMul κ α]
    (inputs : info.OnRanks (RoutedInput α κ (info.oepSize * info.iepSize * L))) (useCoeff : Bool)
    (out : info.OnRanks (Deredundency.Result α κ)) : Prop :=
  ∀ f : ℕ → α → α,
    ∃ (flatOut : Fin (info.oepSize * info.iepSize) → Dispatched α κ) (flatRows : _ → List α)
      (rows : info.OnRanks (List α)),
      dispatch (fun p => (info.epGroup inputs p).routedInput)
          (fun p => (info.epGroup inputs p).numTokensPerExpert) none = some flatOut ∧
        combine (fun p => expertOutput (rowExpert f) (info.epGroup info.flatRank p * L) (flatOut p))
          (fun p => (flatOut p).ctx) = some flatRows ∧
        Deredundency.combine info (localOutput L f out) (fun o i => (out o i).ctx) = some rows ∧
        (∃ handles handles', Deredundency.combineStart info (localOutput L f out)
            (fun o i => (out o i).ctx) = some handles ∧
          Deredundency.combineWait info handles = some (rows, handles') ∧
          Deredundency.combineWait info handles' = some (rows, handles')) ∧
        ∀ o i, rows o i =
          if useCoeff then
            List.zipWith (· • ·) (inputs o i).permutedProbs (flatRows (info.epPosition o i))
          else flatRows (info.epPosition o i)

/-- The dispatcher over two dimensions agrees with the one over the flattened mesh, for inputs with
equal totals in every oep group. -/
def Agrees (info : MeshInfo) (L : ℕ) : Prop :=
  ∀ (α κ : Type) [AddCommMonoid α] [SMul κ α]
    (inputs : info.OnRanks (RoutedInput α κ (info.oepSize * info.iepSize * L))) (useCoeff : Bool),
    (∀ i o o', (inputs o i).tokens.length = (inputs o' i).tokens.length) →
    ∃ out, Deredundency.dispatch info (fun o i => (inputs o i).routedInput)
        (fun o i => (inputs o i).numTokensPerExpert)
        (Deredundency.coefficients inputs useCoeff) = some out ∧
      HoldsTokens inputs out ∧ ReturnsRows inputs useCoeff out

/-- By its outer rank and its place in its iep group, every rank stands where it stands in the
flattened mesh. -/
def MeshInfo.IepAligned (info : MeshInfo) : Prop :=
  ∀ o i, o.val * info.iepSize + ((info.iepOrder o).symm i).val = info.flatRank o i

/-- In its group, every rank stands where it stands in the flattened mesh. -/
def MeshInfo.EpAligned (info : MeshInfo) : Prop :=
  ∀ o i, (info.epPosition o i).val = info.flatRank o i

def MeshInfo.Aligned (info : MeshInfo) : Prop := info.IepAligned ∧ info.EpAligned

/-! ### The dispatcher over the flattened mesh -/

section Flattened

variable {inputs : info.OnRanks (RoutedInput α κ (info.oepSize * info.iepSize * L))}

/-- The expert whose weights meet the tokens of an expert: a position computes with the experts of
the member that stands there. -/
def MeshInfo.heldExpert (info : MeshInfo) (L expert : ℕ) : ℕ :=
  if h : expert / L < info.oepSize * info.iepSize then
    info.epGroup info.flatRank ⟨expert / L, h⟩ * L + expert % L
  else expert

theorem heldExpert_eq (p : Fin (info.oepSize * info.iepSize)) {e : ℕ} (he : e < L) :
    info.heldExpert L (p.val * L + e) = info.epGroup info.flatRank p * L + e := by
  have hdiv : (p.val * L + e) / L = p.val := by
    rw [Nat.mul_comm, Nat.mul_add_div (by omega), Nat.div_eq_of_lt he, Nat.add_zero]
  have hmod : (p.val * L + e) % L = e := by
    rw [Nat.mul_comm, Nat.mul_add_mod, Nat.mod_eq_of_lt he]
  unfold MeshInfo.heldExpert
  rw [dif_pos (hdiv.symm ▸ p.isLt), hmod]
  simp only [hdiv]

/-- Experts that are numbered otherwise. -/
theorem expertOutput_renumbered {π : Type} (f : ℕ → α → Option π → α) (g : ℕ → ℕ)
    {first first' : ℕ} {x : Dispatched α π}
    (h : ∀ e < x.localCounts.length, g (first + e) = first' + e) :
    expertOutput f first' x = expertOutput (fun e => f (g e)) first x := by
  have hexperts : (List.ofFn fun e : Fin x.localCounts.length => first' + e.val) =
      (List.ofFn fun e : Fin x.localCounts.length => first + e.val).map g := by
    rw [List.map_ofFn]
    exact congrArg List.ofFn (funext fun e => (h e e.isLt).symm)
  rw [expertOutput, hexperts, ← map_repeatInterleave, List.zipWith_map_left, expertOutput]

variable (inputs) in
/-- What the dispatcher over the flattened mesh returns: every token meets the weights of the rank
at the position of its expert. -/
theorem flattened_combine [Zero α] (f : ℕ → α → α) :
    ∃ flatOut : Fin (info.oepSize * info.iepSize) → Dispatched α κ,
      dispatch (fun p => (info.epGroup inputs p).routedInput)
          (fun p => (info.epGroup inputs p).numTokensPerExpert) none = some flatOut ∧
        combine (fun p => expertOutput (rowExpert f) (info.epGroup info.flatRank p * L) (flatOut p))
          (fun p => (flatOut p).ctx) =
            some fun p => (info.epGroup inputs p).tokens.map fun t =>
              f (info.heldExpert L t.expert) t.row := by
  obtain ⟨flatOut, hdispatch, hdelivered⟩ := dispatch_delivers (info.epGroup inputs) false
  refine ⟨flatOut, hdispatch, ?_⟩
  have hrenumbered : ∀ p, expertOutput (rowExpert f) (info.epGroup info.flatRank p * L)
      (flatOut p) = expertOutput (rowExpert fun e => f (info.heldExpert L e)) (p.val * L)
        (flatOut p) := fun p =>
    expertOutput_renumbered (rowExpert f) (info.heldExpert L) fun e he =>
      heldExpert_eq p (by rwa [hdelivered.localCounts p, List.length_ofFn] at he)
  simp only [hrenumbered]
  exact hdelivered.combine_eq (rowExpert fun e => f (info.heldExpert L e))

end Flattened

/-! ### Aligned meshes -/

section Aligned

variable {inputs : info.OnRanks (RoutedInput α κ (info.oepSize * info.iepSize * L))}
  {useCoeff : Bool} {out : info.OnRanks (Deredundency.Result α κ)}

theorem holdsTokens_of_aligned
    (hexpert : ∀ o i (e : Fin L),
      (expertOf o ((info.iepOrder o).symm i) e).val = info.flatRank o i * L + e.val)
    (h : Deredundency.Delivered inputs useCoeff out) : HoldsTokens inputs out := by
  intro o i
  refine ⟨arriving inputs o i, h.permuted o i, h.localCounts o i, ?_⟩
  intro e
  rw [← hexpert]
  exact arriving_perm inputs o i e

/-- Where the tokens are those of the experts, `combine` returns what the experts make of them. -/
theorem combine_localOutput [AddCommMonoid α] [SMul κ α]
    (hexpert : ∀ o i (e : Fin L),
      (expertOf o ((info.iepOrder o).symm i) e).val = info.flatRank o i * L + e.val)
    (htotals : ∀ i o o', (inputs o i).tokens.length = (inputs o' i).tokens.length)
    (h : Deredundency.Delivered inputs useCoeff out) (f : ℕ → α → α) :
    let rows : info.OnRanks (List α) := fun o i =>
      (inputs o i).tokens.map (Deredundency.scaled useCoeff fun t => f t.expert t.row)
    Deredundency.combine info (localOutput L f out) (fun o i => (out o i).ctx) = some rows ∧
      ∃ handles handles', Deredundency.combineStart info (localOutput L f out)
          (fun o i => (out o i).ctx) = some handles ∧
        Deredundency.combineWait info handles = some (rows, handles') ∧
        Deredundency.combineWait info handles' = some (rows, handles') := by
  have houtput : localOutput L f out = fun o i =>
      (concat (arriving inputs o i)).map fun t => f t.expert t.row := by
    funext o i
    have hmem : ∀ e, ∀ t ∈ arriving inputs o i e,
        t.expert = info.flatRank o i * L + e.val := by
      intro e t ht
      rw [expert_of_mem_arriving inputs ht]
      exact hexpert o i e
    exact expertOutput_eq (rowExpert f) hmem false (h.permuted o i) (h.localCounts o i) rfl
  rw [houtput]
  exact ⟨h.combine_eq htotals _, h.combineStart_eq htotals _⟩

theorem returnsRows_of_aligned [AddCommMonoid α] [SMul κ α]
    (hexpert : ∀ o i (e : Fin L),
      (expertOf o ((info.iepOrder o).symm i) e).val = info.flatRank o i * L + e.val)
    (hheld : ∀ expert < info.oepSize * info.iepSize * L, info.heldExpert L expert = expert)
    (htotals : ∀ i o o', (inputs o i).tokens.length = (inputs o' i).tokens.length)
    (h : Deredundency.Delivered inputs useCoeff out) : ReturnsRows inputs useCoeff out := by
  intro f
  obtain ⟨flatOut, hdispatch, hflat⟩ := flattened_combine inputs f
  obtain ⟨hcombine, hstart⟩ := combine_localOutput hexpert htotals h f
  refine ⟨flatOut, _, _, hdispatch, hflat, hcombine, hstart, ?_⟩
  intro o i
  have hrows : (inputs o i).tokens.map (fun t => f (info.heldExpert L t.expert) t.row) =
      (inputs o i).tokens.map fun t => f t.expert t.row :=
    List.map_congr_left fun t ht => by rw [hheld _ ((inputs o i).expert_lt t ht)]
  simp only [MeshInfo.epGroup_epPosition, hrows, RoutedInput.permutedProbs]
  cases useCoeff
  · rfl
  · rw [if_pos rfl, List.zipWith_map]
    simp [Deredundency.scaled]

end Aligned

theorem heldExpert_of_epAligned (h : info.EpAligned) {expert : ℕ}
    (hlt : expert < info.oepSize * info.iepSize * L) : info.heldExpert L expert = expert := by
  have hL : 0 < L := Nat.pos_of_ne_zero fun hL => by simp [hL] at hlt
  have hdiv : expert / L < info.oepSize * info.iepSize := Nat.div_lt_of_lt_mul (by
    rwa [Nat.mul_comm])
  unfold MeshInfo.heldExpert
  rw [dif_pos hdiv]
  set p : Fin (info.oepSize * info.iepSize) := ⟨expert / L, hdiv⟩ with hp
  have hposition : info.epPosition (info.epOrder p).divNat (info.epOrder p).modNat = p := by
    unfold MeshInfo.epPosition
    rw [Equiv.symm_apply_eq]
    apply Fin.ext
    simpa [Fin.divNat, Fin.modNat] using Nat.div_add_mod' (info.epOrder p).val info.iepSize
  have hrank : info.epGroup info.flatRank p = expert / L := by
    rw [MeshInfo.epGroup, ← h, hposition]
  rw [hrank, Nat.div_add_mod']

theorem agrees_of_aligned (h : L = 0 ∨ info.Aligned) : Agrees info L := by
  intro α κ _ _ inputs useCoeff htotals
  have hexpert : ∀ o i (e : Fin L),
      (expertOf o ((info.iepOrder o).symm i) e).val = info.flatRank o i * L + e.val := by
    intro o i e
    rcases h with rfl | h
    · exact e.elim0
    · rw [← h.1 o i]
      rfl
  have hheld : ∀ expert < info.oepSize * info.iepSize * L, info.heldExpert L expert = expert := by
    intro expert hlt
    rcases h with rfl | h
    · exact absurd hlt (by simp)
    · exact heldExpert_of_epAligned h.2 hlt
  obtain ⟨out, hdispatch, hdelivered⟩ :=
    Deredundency.dispatch_delivers inputs htotals useCoeff
  exact ⟨out, hdispatch, holdsTokens_of_aligned hexpert hdelivered,
    returnsRows_of_aligned hexpert hheld htotals hdelivered⟩

/-! ### Meshes that are not aligned -/

/-- One token, routed to the given expert. -/
def oneToken {E : ℕ} (expert : Fin E) : RoutedInput ℕ ℕ E where
  tokens := [⟨expert, 0, 0⟩]
  sorted := List.pairwise_singleton _ _
  expert_lt := by
    intro t ht
    rw [List.mem_singleton.1 ht]
    exact expert.isLt

theorem oneToken_ofExpert {E : ℕ} (expert : Fin E) (e : ℕ) :
    (oneToken expert).ofExpert e = if expert.val = e then [⟨expert, 0, 0⟩] else [] := by
  rw [oneToken, RoutedInput.ofExpert, List.filter_singleton]
  simp only [Bool.cond_decide]

/-- Where the position of a rank is another than its rank in the flattened mesh, it gets tokens of
experts that it does not hold. -/
theorem not_agrees {o : Fin info.oepSize} {i : Fin info.iepSize} (hL : L ≠ 0)
    (h : o.val * info.iepSize + ((info.iepOrder o).symm i).val ≠ info.flatRank o i) :
    ¬ Agrees info L := by
  intro hagrees
  have hpos : 0 < L := Nat.pos_of_ne_zero hL
  let expert := expertOf o ((info.iepOrder o).symm i) (⟨0, hpos⟩ : Fin L)
  let inputs : info.OnRanks (RoutedInput ℕ ℕ (info.oepSize * info.iepSize * L)) :=
    fun _ _ => oneToken expert
  have htotals : ∀ i o o', (inputs o i).tokens.length = (inputs o' i).tokens.length :=
    fun _ _ _ => rfl
  obtain ⟨out, hout, hholds, -⟩ := hagrees ℕ ℕ inputs false htotals
  obtain ⟨out', hout', hdelivered⟩ := Deredundency.dispatch_delivers inputs htotals false
  obtain rfl : out = out' := Option.some.inj (hout.symm.trans hout')
  obtain ⟨T, hrows, -, hperm⟩ := hholds o i
  -- no token is routed to an expert of the rank
  have hempty : concat T = [] := by
    rw [List.eq_nil_iff_forall_not_mem]
    intro t ht
    obtain ⟨e, he⟩ := mem_concat.1 ht
    obtain ⟨i', hi'⟩ := mem_concat.1 ((hperm e).mem_iff.1 he)
    obtain ⟨o', ho'⟩ := mem_concat.1 hi'
    rw [oneToken_ofExpert] at ho'
    split_ifs at ho' with heq
    · have hval : (o.val * info.iepSize + ((info.iepOrder o).symm i).val) * L =
        info.flatRank o i * L + e.val := heq
      have hdiv : (info.flatRank o i * L + e.val) / L = info.flatRank o i := by
        rw [Nat.mul_comm, Nat.mul_add_div hpos, Nat.div_eq_of_lt e.isLt, Nat.add_zero]
      rw [← hval, Nat.mul_div_cancel _ hpos] at hdiv
      exact h hdiv
    · exact absurd ho' List.not_mem_nil
  -- but one arrives
  have harrives : (⟨expert, 0, 0⟩ : RoutedToken ℕ ℕ) ∈ concat (arriving inputs o i) := by
    refine mem_concat.2 ⟨⟨0, hpos⟩, ?_⟩
    rw [(arriving_perm inputs o i ⟨0, hpos⟩).mem_iff]
    refine mem_concat.2 ⟨i, mem_concat.2 ⟨o, ?_⟩⟩
    rw [oneToken_ofExpert, if_pos rfl]
    exact List.mem_singleton_self _
  have hlength := congrArg List.length ((hdelivered.permuted o i).symm.trans hrows)
  rw [hempty, List.length_map, List.map_nil, List.length_nil] at hlength
  exact absurd harrives (by rw [List.eq_nil_of_length_eq_zero hlength]; exact List.not_mem_nil)

/-- Where a rank stands elsewhere in its group than in the flattened mesh, the dispatcher over the
flattened mesh sends the tokens of an expert to a rank that does not hold it. -/
theorem not_agrees_of_position {o : Fin info.oepSize} {i : Fin info.iepSize} (hL : L ≠ 0)
    (haligned : info.IepAligned) (h : (info.epPosition o i).val ≠ info.flatRank o i) :
    ¬ Agrees info L := by
  intro hagrees
  have hpos : 0 < L := Nat.pos_of_ne_zero hL
  let p := info.epPosition o i
  let expert : Fin (info.oepSize * info.iepSize * L) :=
    ⟨p.val * L, Nat.mul_lt_mul_of_pos_right p.isLt hpos⟩
  let inputs : info.OnRanks (RoutedInput ℕ ℕ (info.oepSize * info.iepSize * L)) :=
    fun _ _ => oneToken expert
  have htotals : ∀ i o o', (inputs o i).tokens.length = (inputs o' i).tokens.length :=
    fun _ _ _ => rfl
  have hexpert : ∀ o i (e : Fin L),
      (expertOf o ((info.iepOrder o).symm i) e).val = info.flatRank o i * L + e.val :=
    fun o i e => by rw [← haligned o i]; rfl
  obtain ⟨out, hout, -, hreturns⟩ := hagrees ℕ ℕ inputs false htotals
  obtain ⟨out', hout', hdelivered⟩ := Deredundency.dispatch_delivers inputs htotals false
  obtain rfl : out = out' := Option.some.inj (hout.symm.trans hout')
  -- the rows tell which expert has made them
  obtain ⟨flatOut, flatRows, rows, hdispatch, hflat, hcombine, -, hrows⟩ := hreturns fun e _ => e
  obtain ⟨flatOut', hdispatch', hflat'⟩ := flattened_combine inputs fun e _ => e
  obtain rfl : flatOut = flatOut' := Option.some.inj (hdispatch.symm.trans hdispatch')
  obtain rfl := Option.some.inj (hflat.symm.trans hflat')
  obtain rfl := Option.some.inj (hcombine.symm.trans
    (combine_localOutput hexpert htotals hdelivered fun e _ => e).1)
  have hheld := heldExpert_eq (L := L) p (e := 0) hpos
  rw [Nat.add_zero, Nat.add_zero, MeshInfo.epGroup_epPosition] at hheld
  have hrow := hrows o i
  simp only [Bool.false_eq_true, if_false, MeshInfo.epGroup_epPosition] at hrow
  have hone : [p.val * L] = [info.heldExpert L (p.val * L)] := hrow
  rw [hheld] at hone
  exact h (Nat.eq_of_mul_eq_mul_right hpos (List.cons.inj hone).1)

/-- The two dispatchers agree on the mesh that the names of its dimensions describe. -/
def EPMesh.Agrees (mesh : EPMesh) (L : ℕ) : Prop :=
  ∃ info, getDeredundencyMeshInfo mesh = some info ∧ ExpertParallel.Agrees info L

def EPMesh.Aligned (mesh : EPMesh) : Prop :=
  ∃ info, getDeredundencyMeshInfo mesh = some info ∧ info.Aligned

theorem exists_info {mesh : EPMesh} (h : mesh.Flattens) :
    ∃ info, getDeredundencyMeshInfo mesh = some info := by
  rcases h with h | h
  · exact ⟨_, by simp only [getDeredundencyMeshInfo, EPMesh.dimOf, h]; rfl⟩
  · exact ⟨_, by simp only [getDeredundencyMeshInfo, EPMesh.dimOf, h]; rfl⟩

/-- The two dispatchers agree exactly where no rank holds an expert or the mesh is aligned. -/
theorem agrees_iff {mesh : EPMesh} (hflattens : mesh.Flattens) (L : ℕ) :
    mesh.Agrees L ↔ L = 0 ∨ mesh.Aligned := by
  obtain ⟨info, hinfo⟩ := exists_info hflattens
  constructor
  · rintro ⟨info', hinfo', hagrees⟩
    by_contra hnot
    rw [not_or] at hnot
    by_cases haligned : info'.IepAligned
    · have hposition : ¬ info'.EpAligned := fun h => hnot.2 ⟨info', hinfo', haligned, h⟩
      obtain ⟨o, ho⟩ := not_forall.1 hposition
      obtain ⟨i, hi⟩ := not_forall.1 ho
      exact not_agrees_of_position hnot.1 haligned hi hagrees
    · obtain ⟨o, ho⟩ := not_forall.1 haligned
      obtain ⟨i, hi⟩ := not_forall.1 ho
      exact not_agrees hnot.1 hi hagrees
  · rintro (hL | ⟨info', hinfo', haligned⟩)
    · exact ⟨info, hinfo, agrees_of_aligned (Or.inl hL)⟩
    · exact ⟨info', hinfo', agrees_of_aligned (Or.inr haligned)⟩

/-- A mesh over ascending ranks, with the given names. -/
def ascendingMesh (names : String × String) (rows columns : ℕ) : EPMesh where
  meshDimNames := names
  meshShape := (rows, columns)
  rank := fun a b => a.val * columns + b.val
  distinct := by
    intro a b a' b' h
    have hindex : (⟨a.val * columns + b.val, index_lt a b⟩ : Fin (rows * columns)) =
        ⟨a'.val * columns + b'.val, index_lt a' b'⟩ := Fin.ext h
    have ha := congrArg Fin.divNat hindex
    have hb := congrArg Fin.modNat hindex
    rw [divNat_index, divNat_index] at ha
    rw [modNat_index, modNat_index] at hb
    exact ⟨ha, hb⟩

theorem agrees_iff_two_by_two :
    (ascendingMesh ("oep", "iep") 2 2).Agrees 1 ↔
      1 = 0 ∨ (ascendingMesh ("oep", "iep") 2 2).Aligned :=
  agrees_iff (Or.inl rfl) 1

/-- Four ranks with the inner dimension first. -/
def swappedInfo : MeshInfo where
  oepSize := 2
  iepSize := 2
  rank := fun o i => i.val * 2 + o.val
  flatRank := fun o i => i.val * 2 + o.val

/-- There, inner rank 1 of outer rank 0 stands at 2 in the flattened mesh. -/
theorem not_agrees_swapped : ¬ (ascendingMesh ("iep", "oep") 2 2).Agrees 1 := by
  rintro ⟨info, hinfo, hagrees⟩
  have hswapped : getDeredundencyMeshInfo (ascendingMesh ("iep", "oep") 2 2) =
      some swappedInfo := rfl
  obtain rfl := Option.some.inj (hswapped.symm.trans hinfo)
  let o : Fin swappedInfo.oepSize := (0 : Fin 2)
  let i : Fin swappedInfo.iepSize := (1 : Fin 2)
  have hlt : ((swappedInfo.iepOrder o).symm i).val < 2 :=
    ((swappedInfo.iepOrder o).symm i).isLt
  refine not_agrees (o := o) (i := i) one_ne_zero ?_ hagrees
  change 0 * 2 + ((swappedInfo.iepOrder o).symm i).val ≠ 1 * 2 + 0
  omega

end HyperParallel.ExpertParallel
