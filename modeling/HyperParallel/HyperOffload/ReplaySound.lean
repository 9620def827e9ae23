import HyperParallel.HyperOffload.Gaps

/-!
# The replay of a plan

* `hold d h v`: a storage with contents `v` and what its two sides hold;
* `along_copyH2d`, `along_accesses`, `along_evictions`: the three parts of an op on one storage;
* `SlotInv`: between two ops; `slotInv_op`, `along_slot`;
* `served_of_fresh`: where no copy finds a stale host buffer, every event is served.
-/

namespace HyperParallel.HyperOffload

open KeyedRun

/-- A storage that was accessed, with the contents of its sides. -/
def hold (d h : Option ℕ) (v : ℕ) : Slot := ⟨some ⟨d, h⟩, true, v⟩

/-! ### The parts of an op -/

theorem along_true {P : Slot → Event → Prop} {es : List Event} {s : Slot}
    (h : ∀ s, ∀ e ∈ es, P s e) : Along Slot.step P s es := by
  induction es generalizing s with
  | nil => trivial
  | cons e es ih =>
    exact ⟨h s e List.mem_cons_self, ih fun s e he => h s e (List.mem_cons_of_mem _ he)⟩

/-- The storage is on the device already. -/
theorem along_copyH2d_resident {es : List Event} {h : Option ℕ} {v : ℕ}
    (hes : ∀ e ∈ es, ∃ k sid, e = .action ⟨k, sid, .copyH2d⟩) :
    Along Slot.step Slot.Served (hold (some v) h v) es ∧
      es.foldl Slot.step (hold (some v) h v) = hold (some v) h v := by
  induction es with
  | nil => exact ⟨trivial, rfl⟩
  | cons e es ih =>
    obtain ⟨k, sid, rfl⟩ := hes e List.mem_cons_self
    obtain ⟨hserved, hfold⟩ := ih fun e he => hes e (List.mem_cons_of_mem _ he)
    exact ⟨⟨Option.some_ne_none _, hserved⟩, hfold⟩

/-- The storage comes back from the host. -/
theorem along_copyH2d {es : List Event} {v : ℕ} (hne : es ≠ [])
    (hes : ∀ e ∈ es, ∃ k sid, e = .action ⟨k, sid, .copyH2d⟩) :
    Along Slot.step Slot.Served (hold none (some v) v) es ∧
      es.foldl Slot.step (hold none (some v) v) = hold (some v) (some v) v := by
  cases es with
  | nil => exact absurd rfl hne
  | cons e es =>
    obtain ⟨k, sid, rfl⟩ := hes e List.mem_cons_self
    obtain ⟨hserved, hfold⟩ := along_copyH2d_resident (h := some v) (v := v)
      fun e he => hes e (List.mem_cons_of_mem _ he)
    exact ⟨⟨Option.some_ne_none _, hserved⟩, hfold⟩

/-- The accesses of an op to a storage on the device. -/
theorem along_accesses {l : List StorageAccess} {h : Option ℕ} {v : ℕ} :
    Along Slot.step Slot.Served (hold (some v) h v) (l.map .access) ∧
      ∃ v', (l.map Event.access).foldl Slot.step (hold (some v) h v) = hold (some v') h v' ∧
        ((∀ a ∈ l, a.kind ≠ .write) → v' = v) := by
  induction l generalizing v with
  | nil => exact ⟨trivial, v, rfl, fun _ => rfl⟩
  | cons a l ih =>
    obtain ⟨k, sid, kind⟩ := a
    cases kind with
    | read =>
      obtain ⟨hserved, v', hfold, hv⟩ := ih (v := v)
      exact ⟨⟨rfl, hserved⟩, v', hfold, fun hread =>
        hv fun a ha => hread a (List.mem_cons_of_mem _ ha)⟩
    | write =>
      obtain ⟨hserved, v', hfold, -⟩ := ih (v := v + 1)
      exact ⟨⟨rfl, hserved⟩, v', hfold, fun hread => absurd rfl (hread _ List.mem_cons_self)⟩

/-- The first access of a storage makes its device buffer. -/
theorem along_firstAccesses {l : List StorageAccess} (hne : l ≠ []) :
    Along Slot.step Slot.Served Slot.init (l.map .access) ∧
      ∃ v', (l.map Event.access).foldl Slot.step Slot.init = hold (some v') none v' := by
  cases l with
  | nil => exact absurd rfl hne
  | cons a l =>
    obtain ⟨hserved, v', hfold, -⟩ := along_accesses (l := a :: l) (h := none) (v := 0)
    obtain ⟨k, sid, kind⟩ := a
    cases kind <;> exact ⟨⟨rfl, hserved.2⟩, v', hfold⟩

/-- The post-actions of a candidate at an op. -/
def EvictionCandidate.evictAt (c : EvictionCandidate) (k : ℕ) : List Event :=
  (c.postActions.filter (·.opId = k)).map .action

/-- A copy leaves the contents on the host, whether it copies or not. -/
theorem copyD2h_hold {k sid v : ℕ} {d h : Option ℕ} (hd : d = some v ∨ d = none ∧ h = some v)
    (hfresh : (hold d h v).Fresh (.action ⟨k, sid, .copyD2h⟩)) :
    (hold d h v).Served (.action ⟨k, sid, .copyD2h⟩) ∧
      (hold d h v).step (.action ⟨k, sid, .copyD2h⟩) = hold d (some v) v := by
  cases h with
  | none =>
    rcases hd with rfl | ⟨-, hhost⟩
    · exact ⟨Option.some_ne_none _, rfl⟩
    · exact absurd hhost (Option.some_ne_none v).symm
  | some w =>
    -- the early return of `copy_d2h`: what it finds on the host is fresh
    have hw : w = v := by
      rcases hd with rfl | ⟨-, hhost⟩
      · exact hfresh rfl w rfl v rfl
      · exact Option.some.inj hhost
    subst hw
    exact ⟨Option.some_ne_none _, rfl⟩

theorem releaseDevice_hold {k sid v : ℕ} {d : Option ℕ} :
    (hold d (some v) v).step (.action ⟨k, sid, .releaseDevice⟩) = hold none (some v) v := by
  cases d <;> rfl

theorem evictAt_eq (c : EvictionCandidate) (k : ℕ) : c.evictAt k =
    (if c.copyStart.opId = k then
      [.action ⟨c.copyStart.opId, c.copyStart.storageId, .copyD2h⟩] else []) ++
    (if c.releaseStart.opId = k then
      [.action ⟨c.releaseStart.opId, c.releaseStart.storageId, .releaseDevice⟩] else []) := by
  simp only [EvictionCandidate.evictAt, EvictionCandidate.postActions, List.filter_cons,
    List.filter_nil, decide_eq_true_eq]
  split_ifs <;> rfl

/-- One candidate at an op: the copy comes before the release that needs it. -/
theorem along_evictAt {k v : ℕ} {c : EvictionCandidate} {d h : Option ℕ}
    (hd : d = some v ∨ d = none ∧ h = some v)
    (hrelease : c.releaseStart.opId = k → c.copyStart.opId = k ∨ h = some v)
    (hfresh : Along Slot.step Slot.Fresh (hold d h v) (c.evictAt k)) :
    Along Slot.step Slot.Served (hold d h v) (c.evictAt k) ∧
      ∃ d' h', (c.evictAt k).foldl Slot.step (hold d h v) = hold d' h' v ∧
        (d' = some v ∨ d' = none ∧ h' = some v) ∧ (h = some v → h' = some v) ∧
        (c.copyStart.opId = k → h' = some v) ∧
        (d' = none ↔ d = none ∨ c.releaseStart.opId = k) := by
  rw [evictAt_eq] at hfresh ⊢
  by_cases hc : c.copyStart.opId = k
  · rw [if_pos hc] at hfresh ⊢
    obtain ⟨hserved, hstep⟩ := copyD2h_hold hd hfresh.1
    have hd' : d = some v ∨ d = none ∧ some v = some v := hd.imp_right fun h => ⟨h.1, rfl⟩
    by_cases hr : c.releaseStart.opId = k
    · rw [if_pos hr]
      refine ⟨⟨hserved, trivial, trivial⟩, none, some v, ?_, .inr ⟨rfl, rfl⟩, fun _ => rfl,
        fun _ => rfl, fun _ => .inr hr, fun _ => rfl⟩
      simp only [List.foldl_append, List.foldl_cons, List.foldl_nil, hstep]
      exact releaseDevice_hold
    · rw [if_neg hr]
      exact ⟨⟨hserved, trivial⟩, d, some v, hstep, hd', fun _ => rfl, fun _ => rfl,
        ⟨.inl, fun h => h.resolve_right hr⟩⟩
  · rw [if_neg hc]
    by_cases hr : c.releaseStart.opId = k
    · rw [if_pos hr]
      obtain rfl := (hrelease hr).resolve_left hc
      refine ⟨⟨trivial, trivial⟩, none, some v, ?_, .inr ⟨rfl, rfl⟩, fun _ => rfl,
        fun _ => rfl, fun _ => .inr hr, fun _ => rfl⟩
      simp only [List.nil_append, List.foldl_cons, List.foldl_nil]
      exact releaseDevice_hold
    · rw [if_neg hr]
      exact ⟨trivial, d, h, rfl, hd, id, fun h => absurd h hc,
        ⟨.inl, fun h => h.resolve_right hr⟩⟩

/-- All the evictions at an op. -/
theorem along_evictions {k v : ℕ} {L : List EvictionCandidate} {d h : Option ℕ}
    (hd : d = some v ∨ d = none ∧ h = some v)
    (hrelease : ∀ c ∈ L, c.releaseStart.opId = k → c.copyStart.opId = k ∨ h = some v)
    (hfresh : Along Slot.step Slot.Fresh (hold d h v) (L.flatMap fun c => c.evictAt k)) :
    Along Slot.step Slot.Served (hold d h v) (L.flatMap fun c => c.evictAt k) ∧
      ∃ d' h', (L.flatMap fun c => c.evictAt k).foldl Slot.step (hold d h v) = hold d' h' v ∧
        (d' = some v ∨ d' = none ∧ h' = some v) ∧ (h = some v → h' = some v) ∧
        (∀ c ∈ L, c.copyStart.opId = k → h' = some v) ∧
        (d' = none ↔ d = none ∨ ∃ c ∈ L, c.releaseStart.opId = k) := by
  induction L generalizing d h with
  | nil =>
    exact ⟨trivial, d, h, rfl, hd, id, fun c hc => absurd hc List.not_mem_nil,
      ⟨.inl, fun h => h.resolve_right fun ⟨c, hc, _⟩ => List.not_mem_nil hc⟩⟩
  | cons c L ih =>
    rw [List.flatMap_cons, along_append] at hfresh
    obtain ⟨hserved, d₁, h₁, hfold, hd₁, hkeep₁, hcopy₁, hnone₁⟩ :=
      along_evictAt hd (hrelease c List.mem_cons_self) hfresh.1
    rw [hfold] at hfresh
    -- what one candidate leaves on the host serves the releases of the others
    obtain ⟨hserved', d₂, h₂, hfold', hd₂, hkeep₂, hcopy₂, hnone₂⟩ := ih hd₁ (fun c' hc' hr =>
      (hrelease c' (List.mem_cons_of_mem _ hc') hr).imp_right hkeep₁) hfresh.2
    rw [List.flatMap_cons, along_append, List.foldl_append, hfold]
    refine ⟨⟨hserved, hserved'⟩, d₂, h₂, hfold', hd₂, fun h => hkeep₂ (hkeep₁ h), ?_, ?_⟩
    · intro c' hc' hk
      rcases List.mem_cons.1 hc' with rfl | hc'
      · exact hkeep₂ (hcopy₁ hk)
      · exact hcopy₂ c' hc' hk
    · rw [hnone₂, hnone₁, or_assoc]
      simp only [List.mem_cons, exists_eq_or_imp]

/-! ### One op -/

section Op

variable {trace : ActivationTrace} {sid : ℕ} {G : List EvictionCandidate}

/-- A storage before op `k`: not accessed yet, in use, or not accessed any more. -/
inductive SlotInv (trace : ActivationTrace) (sid : ℕ) (G : List EvictionCandidate) (k : ℕ)
    (s : Slot) : Prop
  | unseen (before : ∀ j < k, ¬trace.Accessed sid j) (init : s = Slot.init)
  | live (d h : Option ℕ) (v : ℕ) (hold_eq : s = hold d h v) (device : d = some v ∨ d = none)
      (evicted : d = none ↔ ∃ c ∈ G, c.releaseStart.opId < k ∧ k ≤ c.fin.opId)
      (copied : ∀ c ∈ G, c.copyStart.opId < k → k ≤ c.fin.opId → h = some v)
  | finished (after : ∀ j, k ≤ j → ¬trace.Accessed sid j)

/-- The parts of an op on a storage. -/
structure OpEvents (trace : ActivationTrace) (sid : ℕ) (G : List EvictionCandidate) (k : ℕ)
    (es : List Event) : Prop where
  split : ∃ pre acc rel, es = pre ++ acc.map .access ++ (G.flatMap fun c => c.evictAt k) ++ rel ∧
    (∀ e ∈ pre, ∃ k sid, e = .action ⟨k, sid, .copyH2d⟩) ∧
    (pre = [] ↔ ∀ c ∈ G, c.fin.opId ≠ k) ∧
    (acc = [] ↔ ¬trace.Accessed sid k) ∧
    ((∃ a ∈ acc, a.kind = .write) → trace.Written sid k) ∧
    (∀ s, ∀ e ∈ rel, Slot.Served s e) ∧
    (rel ≠ [] → trace.Accessed sid k ∧ ∀ j, k < j → ¬trace.Accessed sid j)

/-- The pre-actions and the accesses of an op that accesses the storage. -/
theorem along_begin {k : ℕ} {s : Slot} {pre : List Event} {acc : List StorageAccess}
    (hgaps : ∀ c ∈ G, Gap trace c ∧ c.storageId = sid) (hk : trace.Accessed sid k)
    (hpre : ∀ e ∈ pre, ∃ k sid, e = .action ⟨k, sid, .copyH2d⟩)
    (hpreNil : pre = [] ↔ ∀ c ∈ G, c.fin.opId ≠ k) (hacc : acc ≠ [])
    (hwrite : (∃ a ∈ acc, a.kind = .write) → trace.Written sid k)
    (hinv : SlotInv trace sid G k s) :
    Along Slot.step Slot.Served s (pre ++ acc.map .access) ∧
      ∃ h v, (pre ++ acc.map Event.access).foldl Slot.step s = hold (some v) h v ∧
        ∀ c ∈ G, c.copyStart.opId < k → k ≤ c.releaseStart.opId → h = some v := by
  -- a copy that is waiting for its release sees no write
  have hquiet : ∀ c ∈ G, c.copyStart.opId < k → k ≤ c.releaseStart.opId →
      ∀ a ∈ acc, a.kind ≠ .write := by
    intro c hc hcopy hrelease a ha hkind
    obtain ⟨hgap, rfl⟩ := hgaps c hc
    have := hgap.unwritten k (hwrite ⟨a, ha, hkind⟩)
    omega
  rw [along_append, List.foldl_append]
  cases hinv with
  | unseen before init =>
    have hnil : pre = [] := hpreNil.2 fun c hc hfin => by
      obtain ⟨hgap, rfl⟩ := hgaps c hc
      have hwide := hgap.wide
      exact before _ (by omega) hgap.releaseAccessed
    subst hnil init
    obtain ⟨hserved, v, hfold⟩ := along_firstAccesses hacc
    refine ⟨⟨trivial, hserved⟩, none, v, hfold, fun c hc hcopy _ => ?_⟩
    obtain ⟨hgap, rfl⟩ := hgaps c hc
    exact absurd hgap.copyAccessed (before _ hcopy)
  | live d h v hold_eq device evicted copied =>
    subst hold_eq
    -- a gap ends here, or the storage never left the device
    by_cases hfin : ∃ c ∈ G, c.fin.opId = k
    · obtain ⟨c, hc, rfl⟩ := hfin
      have hgap := (hgaps c hc).1
      have hwide := hgap.wide
      have hcopyLe := hgap.copy_le
      obtain rfl := evicted.2 ⟨c, hc, by omega, Nat.le_refl _⟩
      obtain rfl := copied c hc (by omega) (Nat.le_refl _)
      have hne : pre ≠ [] := fun hnil => hpreNil.1 hnil c hc rfl
      obtain ⟨hserved, hfold⟩ := along_copyH2d (v := v) hne hpre
      rw [hfold]
      obtain ⟨hserved', v', hfold', hv⟩ := along_accesses (l := acc) (h := some v) (v := v)
      refine ⟨⟨hserved, hserved'⟩, some v, v', hfold', fun c' hc' hcopy hrelease => ?_⟩
      rw [hv (hquiet c' hc' hcopy hrelease)]
    · have hnil : pre = [] := hpreNil.2 fun c hc hk => hfin ⟨c, hc, hk⟩
      have hd : d = some v := by
        refine device.resolve_right fun hnone => ?_
        obtain ⟨c, hc, hrelease, hle⟩ := evicted.1 hnone
        obtain ⟨hgap, rfl⟩ := hgaps c hc
        have hinside := hgap.inside k hk
        exact hfin ⟨c, hc, by omega⟩
      subst hnil hd
      obtain ⟨hserved, v', hfold, hv⟩ := along_accesses (l := acc) (h := h) (v := v)
      refine ⟨⟨trivial, hserved⟩, h, v', hfold, fun c hc hcopy hrelease => ?_⟩
      have hwide := (hgaps c hc).1.wide
      rw [hv (hquiet c hc hcopy hrelease)]
      exact copied c hc hcopy (by omega)
  | finished after => exact absurd hk (after k (Nat.le_refl _))

/-- Nothing happens to a storage at an op that does not access it. -/
theorem slotInv_idle {k : ℕ} {s : Slot} (hgaps : ∀ c ∈ G, Gap trace c ∧ c.storageId = sid)
    (hk : ¬trace.Accessed sid k) (hinv : SlotInv trace sid G k s) :
    SlotInv trace sid G (k + 1) s := by
  cases hinv with
  | unseen before init =>
    refine .unseen (fun j hj => ?_) init
    rcases Nat.lt_succ_iff_lt_or_eq.1 hj with hj | rfl
    · exact before j hj
    · exact hk
  | live d h v hold_eq device evicted copied =>
    refine .live d h v hold_eq device ?_ ?_
    · rw [evicted]
      refine exists_congr fun c => and_congr_right fun hc => ?_
      obtain ⟨hgap, rfl⟩ := hgaps c hc
      have hrelease : c.releaseStart.opId ≠ k := fun h => hk (h ▸ hgap.releaseAccessed)
      have hfin : c.fin.opId ≠ k := fun h => hk (h ▸ hgap.finAccessed)
      omega
    · intro c hc hcopy hfin
      obtain ⟨hgap, rfl⟩ := hgaps c hc
      have hne : c.copyStart.opId ≠ k := fun h => hk (h ▸ hgap.copyAccessed)
      exact copied c hc (by omega) (by omega)
  | finished after => exact .finished fun j hj => after j (by omega)

theorem evictions_idle {k : ℕ} (hgaps : ∀ c ∈ G, Gap trace c ∧ c.storageId = sid)
    (hk : ¬trace.Accessed sid k) : (G.flatMap fun c => c.evictAt k) = [] := by
  refine List.flatMap_eq_nil_iff.2 fun c hc => ?_
  obtain ⟨hgap, rfl⟩ := hgaps c hc
  have hcopy : c.copyStart.opId ≠ k := fun h => hk (h ▸ hgap.copyAccessed)
  have hrelease : c.releaseStart.opId ≠ k := fun h => hk (h ▸ hgap.releaseAccessed)
  rw [evictAt_eq, if_neg hcopy, if_neg hrelease]
  rfl

/-- Every action of the plan stands at an access of its storage. -/
theorem OpEvents.eq_nil {k : ℕ} {es : List Event}
    (hgaps : ∀ c ∈ G, Gap trace c ∧ c.storageId = sid) (hes : OpEvents trace sid G k es)
    (hk : ¬trace.Accessed sid k) : es = [] := by
  obtain ⟨pre, acc, rel, rfl, hpre, hpreNil, haccNil, hwrite, hrel, hlast⟩ := hes.split
  have hpre' : pre = [] := hpreNil.2 fun c hc hfin => by
    obtain ⟨hgap, rfl⟩ := hgaps c hc
    exact hk (hfin ▸ hgap.finAccessed)
  have hrel' : rel = [] := by
    by_contra hne
    exact hk (hlast hne).1
  rw [hpre', haccNil.2 hk, evictions_idle hgaps hk, hrel']
  rfl

/-- One op on a storage. -/
theorem slotInv_op {k : ℕ} {s : Slot} {es : List Event}
    (hgaps : ∀ c ∈ G, Gap trace c ∧ c.storageId = sid) (hes : OpEvents trace sid G k es)
    (hinv : SlotInv trace sid G k s) (hfresh : Along Slot.step Slot.Fresh s es) :
    Along Slot.step Slot.Served s es ∧ SlotInv trace sid G (k + 1) (es.foldl Slot.step s) := by
  by_cases hk : trace.Accessed sid k
  · obtain ⟨pre, acc, rel, rfl, hpre, hpreNil, haccNil, hwrite, hrel, hlast⟩ := hes.split
    have hacc : acc ≠ [] := fun hnil => haccNil.1 hnil hk
    obtain ⟨hbegin, h, v, hfold, hcopied⟩ := along_begin hgaps hk hpre hpreNil hacc hwrite hinv
    rw [along_append, along_append, hfold] at hfresh
    -- a gap that opens here is copied here, or its copy waits on the host
    have hrelease : ∀ c ∈ G, c.releaseStart.opId = k → c.copyStart.opId = k ∨ h = some v := by
      intro c hc hr
      have hle := (hgaps c hc).1.copy_le
      rcases Nat.eq_or_lt_of_le hle with heq | hlt
      · exact .inl (heq.trans hr)
      · exact .inr (hcopied c hc (by omega) (by omega))
    obtain ⟨hevict, d', h', hfold', hd', hkeep, hcopy, hnone⟩ :=
      along_evictions (.inl rfl) hrelease hfresh.1.2
    have hstate : (pre ++ acc.map Event.access ++ G.flatMap fun c => c.evictAt k).foldl
        Slot.step s = hold d' h' v := by
      rw [List.foldl_append, hfold, hfold']
    rw [along_append, hstate, along_append, hfold, List.foldl_append, hstate]
    refine ⟨⟨⟨hbegin, hevict⟩, along_true hrel⟩, ?_⟩
    by_cases hnil : rel = []
    · subst hnil
      refine .live d' h' v rfl (hd'.imp_right And.left) ?_ ?_
      · rw [hnone]
        simp only [reduceCtorEq, false_or]
        refine exists_congr fun c => and_congr_right fun hc => ?_
        obtain ⟨hgap, rfl⟩ := hgaps c hc
        have hinside := hgap.inside k hk
        have hwide := hgap.wide
        omega
      · intro c hc hcopyLt hfin
        obtain ⟨hgap, rfl⟩ := hgaps c hc
        have hinside := hgap.inside k hk
        rcases Nat.lt_succ_iff_lt_or_eq.1 hcopyLt with hlt | heq
        · exact hkeep (hcopied c hc hlt (by omega))
        · exact hcopy c hc heq
    -- the release actions stand at the last access
    · exact .finished fun j hj => (hlast hnil).2 j hj
  · rw [hes.eq_nil hgaps hk]
    exact ⟨trivial, slotInv_idle hgaps hk hinv⟩

/-- The whole replay of a storage. -/
theorem along_slot {n : ℕ} {opEvents : ℕ → List Event}
    (hgaps : ∀ c ∈ G, Gap trace c ∧ c.storageId = sid)
    (hes : ∀ k < n, OpEvents trace sid G k (opEvents k))
    (hfresh : Along Slot.step Slot.Fresh Slot.init ((List.range n).flatMap opEvents)) :
    Along Slot.step Slot.Served Slot.init ((List.range n).flatMap opEvents) ∧
      SlotInv trace sid G n (((List.range n).flatMap opEvents).foldl Slot.step Slot.init) := by
  induction n with
  | zero => exact ⟨trivial, .unseen (fun j hj => absurd hj (Nat.not_lt_zero j)) rfl⟩
  | succ n ih =>
    rw [List.range_succ, List.flatMap_append, List.flatMap_singleton, along_append] at hfresh
    obtain ⟨hserved, hinv⟩ := ih (fun k hk => hes k (Nat.lt_succ_of_lt hk)) hfresh.1
    obtain ⟨hop, hinv'⟩ := slotInv_op hgaps (hes n (Nat.lt_succ_self n)) hinv hfresh.2
    rw [List.range_succ, List.flatMap_append, List.flatMap_singleton, along_append,
      List.foldl_append]
    exact ⟨⟨hserved, hop⟩, hinv'⟩

end Op

/-! ### The plan -/

section Plan

variable {trace : ActivationTrace} {selected : List EvictionCandidate}

/-- The events of one op. -/
def opEvents (trace : ActivationTrace) (schedule : ResidencySchedule) (opId : ℕ) : List Event :=
  (schedule.preActions opId).map .action ++ (trace.ops[opId]?.getD []).map .access ++
    (schedule.postActions opId).map .action

/-- The evictions of the plan that are about a storage. -/
theorem filter_evictions (hgaps : ∀ c ∈ selected, Gap trace c) (sid k : ℕ) :
    (((selected.flatMap EvictionCandidate.postActions).filter (·.opId = k)).map Event.action).filter
        (·.storageId = sid) =
      (selected.filter (·.storageId = sid)).flatMap fun c => c.evictAt k := by
  induction selected with
  | nil => rfl
  | cons c selected ih =>
    have hrest := ih fun c' hc' => hgaps c' (List.mem_cons_of_mem _ hc')
    have hc := hgaps c List.mem_cons_self
    rw [List.flatMap_cons, List.filter_append, List.map_append, List.filter_append, hrest]
    have hsids : ∀ e ∈ c.evictAt k, e.storageId = c.storageId := by
      intro e he
      obtain ⟨a, ha, rfl⟩ := List.mem_map.1 he
      have hmem := List.mem_of_mem_filter ha
      rw [EvictionCandidate.postActions, List.mem_pair] at hmem
      rcases hmem with rfl | rfl
      · exact hc.copySid
      · exact hc.releaseSid
    show (c.evictAt k).filter _ ++ _ = _
    by_cases hsid : c.storageId = sid
    · rw [List.filter_cons_of_pos (by simpa using hsid), List.flatMap_cons,
        List.filter_eq_self.2 fun e he => by simpa using (hsids e he).trans hsid]
    · rw [List.filter_cons_of_neg (by simpa using hsid),
        List.filter_eq_nil_iff.2 fun e he => by simpa using fun h => hsid ((hsids e he).symm.trans h),
        List.nil_append]

theorem filter_accesses (l : List StorageAccess) (sid : ℕ) :
    (l.map Event.access).filter (·.storageId = sid) =
      (l.filter (·.storageId = sid)).map Event.access := by
  rw [List.filter_map]
  rfl

/-- The release actions do not raise. -/
theorem served_of_mem_releaseActions {releasable : List (ℕ × StorageAccess)} {retainedSids : List ℕ}
    {a : ResidencyAction} (h : a ∈ releaseActions selected retainedSids releasable) (s : Slot) :
    s.Served (.action a) ∧ ∃ access, (a.storageId, access) ∈ releasable ∧ access.opId = a.opId := by
  obtain ⟨entry, hentry, ha⟩ := List.mem_flatMap.1 h
  split_ifs at ha with hretained hevicted
  · exact absurd ha List.not_mem_nil
  · rw [List.mem_pair] at ha
    rcases ha with rfl | rfl
    · exact ⟨trivial, entry.2, hentry, rfl⟩
    · exact ⟨trivial, entry.2, hentry, rfl⟩
  · obtain rfl := List.mem_singleton.1 ha
    exact ⟨trivial, entry.2, hentry, rfl⟩

theorem accessed_of_mem_releasable {sid : ℕ} {a : StorageAccess}
    (h : (sid, a) ∈ trace.releasable) : trace.Accessed sid a.opId := by
  obtain ⟨f, hf, hlast⟩ := List.mem_filterMap.1 h
  obtain ⟨last, hget, heq⟩ := Option.map_eq_some_iff.1 hlast
  obtain ⟨rfl, rfl⟩ := Prod.mk.inj heq
  obtain ⟨hmem, hsid⟩ := (mem_footprint_iff hf).1 (List.mem_of_getLast? hget)
  exact ⟨last, hmem, hsid, rfl⟩

theorem accesses_eq_nil_iff {sid k : ℕ} :
    (trace.ops[k]?.getD []).filter (·.storageId = sid) = [] ↔ ¬trace.Accessed sid k := by
  rw [List.filter_eq_nil_iff]
  constructor
  · rintro h ⟨a, ha, hsid, hk⟩
    exact h a (mem_op_iff.2 ⟨ha, hk⟩) (decide_eq_true hsid)
  · intro h a ha hsid
    obtain ⟨ha, hk⟩ := mem_op_iff.1 ha
    exact h ⟨a, ha, of_decide_eq_true hsid, hk⟩

theorem written_of_access {sid k : ℕ} {a : StorageAccess}
    (ha : a ∈ (trace.ops[k]?.getD []).filter (·.storageId = sid)) (hkind : a.kind = .write) :
    trace.Written sid k := by
  rw [List.mem_filter, mem_op_iff] at ha
  exact ⟨a, ha.1.1, of_decide_eq_true ha.2, ha.1.2, hkind⟩

theorem copyH2d_of_mem_preActions {sid k : ℕ} : ∀ e ∈
    (((scheduleOf selected trace).preActions k).map Event.action).filter (·.storageId = sid),
    ∃ k sid, e = .action ⟨k, sid, .copyH2d⟩ := by
  intro e he
  obtain ⟨a, ha, rfl⟩ := List.mem_map.1 (List.mem_of_mem_filter he)
  obtain ⟨c, -, rfl⟩ := List.mem_map.1 (List.mem_of_mem_filter ha)
  exact ⟨_, _, rfl⟩

/-- The copies back stand at the ends of the gaps. -/
theorem preActions_eq_nil_iff (hgaps : ∀ c ∈ selected, Gap trace c) {sid k : ℕ} :
    (((scheduleOf selected trace).preActions k).map Event.action).filter (·.storageId = sid) = [] ↔
      ∀ c ∈ selected.filter (·.storageId = sid), c.fin.opId ≠ k := by
  rw [List.filter_eq_nil_iff]
  constructor
  · intro h c hc hfin
    obtain ⟨hc, hsid⟩ := List.mem_filter.1 hc
    have hmem : c.preAction ∈ (scheduleOf selected trace).preActions k :=
      List.mem_filter.2 ⟨List.mem_map_of_mem hc, decide_eq_true hfin⟩
    have hfinSid : c.fin.storageId = sid := (hgaps c hc).finSid.trans (of_decide_eq_true hsid)
    exact h _ (List.mem_map_of_mem hmem) (decide_eq_true hfinSid)
  · intro h e he hsid
    obtain ⟨a, ha, rfl⟩ := List.mem_map.1 he
    obtain ⟨ha, hk⟩ := List.mem_filter.1 ha
    obtain ⟨c, hc, rfl⟩ := List.mem_map.1 ha
    have hcSid : c.storageId = sid := (hgaps c hc).finSid.symm.trans (of_decide_eq_true hsid)
    exact h c (List.mem_filter.2 ⟨hc, decide_eq_true hcSid⟩) (of_decide_eq_true hk)

/-- A plan for some of the candidates, on one storage at one op. -/
theorem opEvents_scheduleOf (hgaps : ∀ c ∈ selected, Gap trace c) (sid k : ℕ) :
    OpEvents trace sid (selected.filter (·.storageId = sid)) k
      ((opEvents trace (scheduleOf selected trace) k).filter (·.storageId = sid)) := by
  refine ⟨(((scheduleOf selected trace).preActions k).map Event.action).filter (·.storageId = sid),
    (trace.ops[k]?.getD []).filter (·.storageId = sid),
    (((releaseActions selected trace.retainedSids trace.releasable).filter (·.opId = k)).map
      Event.action).filter (·.storageId = sid), ?_, ?_, ?_, ?_, ?_, ?_, ?_⟩
  · rw [opEvents, ResidencySchedule.postActions, scheduleOf, List.filter_append, List.filter_append,
      List.filter_append, List.map_append, List.filter_append, filter_evictions hgaps,
      filter_accesses, ← List.append_assoc]
  · exact copyH2d_of_mem_preActions
  · exact preActions_eq_nil_iff hgaps
  · exact accesses_eq_nil_iff
  · exact fun ⟨a, ha, hkind⟩ => written_of_access ha hkind
  · intro s e he
    obtain ⟨a, ha, rfl⟩ := List.mem_map.1 (List.mem_of_mem_filter he)
    exact (served_of_mem_releaseActions (List.mem_of_mem_filter ha) s).1
  · intro hne
    obtain ⟨e, he⟩ := List.exists_mem_of_ne_nil _ hne
    rw [List.mem_filter] at he
    obtain ⟨a, ha, rfl⟩ := List.mem_map.1 he.1
    rw [List.mem_filter] at ha
    obtain ⟨-, access, hreleasable, hop⟩ := served_of_mem_releaseActions ha.1 Slot.init
    have hsid : a.storageId = sid := of_decide_eq_true he.2
    have hk : a.opId = k := by simpa using ha.2
    subst hsid hk
    rw [← hop]
    refine ⟨accessed_of_mem_releasable hreleasable, fun j hj hacc => ?_⟩
    exact absurd (last_of_mem_releasable hreleasable j hacc) (Nat.not_le.2 hj)

/-- A plan for any of the candidates is sound where no copy finds a stale host buffer. -/
theorem along_scheduleOf (hgaps : ∀ c ∈ selected, Gap trace c) (sid : ℕ)
    (hfresh : Along Slot.step Slot.Fresh Slot.init
      ((replayEvents trace (scheduleOf selected trace)).filter (·.storageId = sid))) :
    Along Slot.step Slot.Served Slot.init
      ((replayEvents trace (scheduleOf selected trace)).filter (·.storageId = sid)) := by
  have hsplit : (replayEvents trace (scheduleOf selected trace)).filter (·.storageId = sid) =
      (List.range trace.ops.length).flatMap fun k =>
        (opEvents trace (scheduleOf selected trace) k).filter (·.storageId = sid) :=
    List.filter_flatMap
  rw [hsplit] at hfresh ⊢
  refine (along_slot (G := selected.filter (·.storageId = sid)) (fun c hc => ?_)
    (fun k _ => opEvents_scheduleOf hgaps sid k) hfresh).1
  obtain ⟨hc, hsid⟩ := List.mem_filter.1 hc
  exact ⟨hgaps c hc, of_decide_eq_true hsid⟩

/-- An op without actions. -/
theorem opEvents_noActions (trace : ActivationTrace) (sid k : ℕ) :
    OpEvents trace sid [] k ((opEvents trace ⟨[], []⟩ k).filter (·.storageId = sid)) := by
  refine ⟨[], (trace.ops[k]?.getD []).filter (·.storageId = sid), [], ?_, ?_, ?_,
    accesses_eq_nil_iff, fun ⟨a, ha, hkind⟩ => written_of_access ha hkind, ?_, ?_⟩
  · rw [← filter_accesses]
    simp [opEvents, ResidencySchedule.preActions, ResidencySchedule.postActions]
  · exact fun e he => absurd he List.not_mem_nil
  · exact ⟨fun _ c hc => absurd hc List.not_mem_nil, fun _ => rfl⟩
  · exact fun s e he => absurd he List.not_mem_nil
  · exact fun h => absurd rfl h

/-- Without a limit nothing is planned. -/
theorem along_noActions (trace : ActivationTrace) (sid : ℕ) :
    Along Slot.step Slot.Served Slot.init
      ((replayEvents trace ⟨[], []⟩).filter (·.storageId = sid)) := by
  have hsplit : (replayEvents trace ⟨[], []⟩).filter (·.storageId = sid) =
      (List.range trace.ops.length).flatMap fun k =>
        (opEvents trace ⟨[], []⟩ k).filter (·.storageId = sid) :=
    List.filter_flatMap
  rw [hsplit]
  refine (along_slot (G := []) (fun c hc => absurd hc List.not_mem_nil)
    (fun k _ => opEvents_noActions trace sid k) (along_true fun s e he => ?_)).1
  obtain ⟨k, -, he⟩ := List.mem_flatMap.1 he
  have hmem := List.mem_of_mem_filter he
  simp only [opEvents, ResidencySchedule.preActions, ResidencySchedule.postActions, List.filter_nil,
    List.map_nil, List.nil_append, List.append_nil] at hmem
  obtain ⟨a, -, rfl⟩ := List.mem_map.1 hmem
  trivial

end Plan

/-- Every event of a replay of the plan is served, where no copy to the host finds stale contents
there. -/
theorem served_of_fresh (trace : ActivationTrace) (hfresh : AlongReplay Slot.Fresh trace) :
    AlongReplay Slot.Served trace := by
  rw [AlongReplay, along_lift_iff] at hfresh ⊢
  intro sid
  have hsid := hfresh sid
  rw [GreedyResidencyPlanner.build] at hsid ⊢
  split at hsid
  next => exact along_noActions trace sid
  next limit hlimit =>
    split_ifs at hsid ⊢ with hops
    · exact along_noActions trace sid
    · exact along_scheduleOf (fun c hc => gap_of_mem_candidates (mem_of_mem_greedySelect hc)) sid hsid

/-! ### Two gaps of one storage -/

/-- A storage with two gaps, and the access between them. -/
def twoGaps (kind : AccessKind) : ActivationTrace where
  ops := [[⟨0, 0, .write⟩], [], [⟨2, 0, kind⟩], [], [⟨4, 0, .read⟩]]
  storageSizes := fun _ => some 100
  retainedSids := []
  memoryLimitBytes := some 0
  opId_eq := by
    intro k op h a ha
    rcases k with _ | _ | _ | _ | _ | k <;> simp at h <;> subst h <;> simp at ha <;> subst ha <;> rfl

/-- The two candidates of the storage, the earlier gap first. -/
def twoCandidates (kind : AccessKind) (copyStart : StorageAccess) : List EvictionCandidate :=
  [⟨0, 100, ⟨0, 0, .write⟩, ⟨0, 0, .write⟩, ⟨2, 0, kind⟩⟩,
    ⟨0, 100, copyStart, ⟨2, 0, kind⟩, ⟨4, 0, .read⟩⟩]

theorem twoGaps_build {kind : AccessKind} (copyStart : StorageAccess)
    (h : (twoGaps kind).footprints.flatMap (fun f => candidacies f.1 f.2.1 f.2.2) =
      twoCandidates kind copyStart)
    (hresident : (twoGaps kind).residentBytes = List.replicate 5 100) :
    GreedyResidencyPlanner.build (twoGaps kind) =
      scheduleOf (twoCandidates kind copyStart) (twoGaps kind) := by
  have hsorted : (twoGaps kind).candidates = twoCandidates kind copyStart := by
    rw [ActivationTrace.candidates, h]
    exact List.mergeSort_of_pairwise (List.pairwise_pair.2 rfl)
  rw [GreedyResidencyPlanner.build, hsorted, hresident]
  rfl

/-- Read between the gaps: the host buffer is kept. -/
theorem served_of_fresh_twoGaps : AlongReplay Slot.Served (twoGaps .read) := by
  refine served_of_fresh (twoGaps .read) ?_
  rw [AlongReplay, twoGaps_build ⟨0, 0, .write⟩ rfl (by decide)]
  decide

/-- Written between the gaps: the second copy is skipped, and the last read finds the first write. -/
theorem not_served_writtenBetween : ¬AlongReplay Slot.Served (twoGaps .write) := by
  rw [AlongReplay, twoGaps_build ⟨2, 0, .write⟩ rfl (by decide)]
  decide

end HyperParallel.HyperOffload
