import HyperParallel.HyperOffload.ReplaySound

/-!
# Where the storages of a replay are

* `Presence`: which sides of a storage are there, whatever they hold; `presence_step`;
* `Placed`: between two ops; `placed_op`, `placed_run`;
* `running`: the storages while an op runs; `device_running_iff`: those on the device.
-/

namespace HyperParallel.HyperOffload

open KeyedRun

/-- The sides of a storage that are there, and whether it was accessed. -/
structure Presence where
  device : Bool
  host : Bool
  seen : Bool
  deriving DecidableEq, Repr

namespace Presence

def init : Presence := ⟨false, false, false⟩

def step (p : Presence) : Event → Presence
  | .action a =>
    match a.kind with
    | .copyD2h => { p with host := p.host || p.device }
    | .copyH2d => { p with device := p.device || p.host }
    | .releaseDevice => { p with device := false }
    | .releaseHost => { p with host := false }
  | .access _ => if p.seen then p else ⟨true, false, true⟩

end Presence

def Slot.presence (s : Slot) : Presence := ⟨s.device.isSome, s.host.isSome, s.seen⟩

/-- What an event does to the sides does not depend on what they hold. -/
theorem presence_step (s : Slot) (e : Event) : (s.step e).presence = s.presence.step e := by
  obtain ⟨buffer, seen, latest⟩ := s
  cases e with
  | action a =>
    obtain ⟨k, sid, kind⟩ := a
    rcases buffer with _ | ⟨_ | d, _ | h⟩ <;> cases kind <;> rfl
  | access a =>
    obtain ⟨k, sid, kind⟩ := a
    rcases buffer with _ | ⟨_ | d, _ | h⟩ <;> cases kind <;> cases seen <;> rfl

theorem presence_foldl (s : Slot) (es : List Event) :
    (es.foldl Slot.step s).presence = es.foldl Presence.step s.presence := by
  induction es generalizing s with
  | nil => rfl
  | cons e es ih => rw [List.foldl_cons, List.foldl_cons, ih, presence_step]

/-! ### The parts of an op -/

section Parts

variable {p : Presence} {k : ℕ}

theorem foldl_copyH2d {es : List Event} (hes : ∀ e ∈ es, ∃ k sid, e = .action ⟨k, sid, .copyH2d⟩) :
    es.foldl Presence.step p =
      { p with device := p.device || (!es.isEmpty && p.host) } := by
  induction es generalizing p with
  | nil => cases p; simp
  | cons e es ih =>
    obtain ⟨k, sid, rfl⟩ := hes e List.mem_cons_self
    rw [List.foldl_cons, ih fun e he => hes e (List.mem_cons_of_mem _ he)]
    obtain ⟨device, host, seen⟩ := p
    cases device <;> cases host <;> simp [Presence.step]

theorem foldl_access_seen (l : List StorageAccess) (hp : p.seen = true) :
    (l.map Event.access).foldl Presence.step p = p := by
  induction l with
  | nil => rfl
  | cons a l ih =>
    have hstep : p.step (.access a) = p := if_pos hp
    rw [List.map_cons, List.foldl_cons, hstep, ih]

/-- The first access makes the device buffer. -/
theorem foldl_access_init {l : List StorageAccess} (hl : l ≠ []) :
    (l.map Event.access).foldl Presence.step Presence.init = ⟨true, false, true⟩ := by
  cases l with
  | nil => exact absurd rfl hl
  | cons a l => exact foldl_access_seen l rfl

/-- The evictions at an op: a release finds a copy on the host. -/
theorem foldl_evictions {L : List EvictionCandidate} (hp : p.device = true ∨ p.host = true)
    (hrelease : ∀ c ∈ L, c.releaseStart.opId = k → c.copyStart.opId = k ∨ p.host = true) :
    (L.flatMap fun c => c.evictAt k).foldl Presence.step p =
      ⟨p.device && !L.any (·.releaseStart.opId = k), p.host || L.any (·.copyStart.opId = k),
        p.seen⟩ := by
  induction L generalizing p with
  | nil => cases p; simp
  | cons c L ih =>
    have hone : (c.evictAt k).foldl Presence.step p =
        ⟨p.device && !decide (c.releaseStart.opId = k), p.host || decide (c.copyStart.opId = k),
          p.seen⟩ := by
      have hc := hrelease c List.mem_cons_self
      have hp' := hp.symm
      obtain ⟨device, host, seen⟩ := p
      rw [evictAt_eq]
      by_cases hcopy : c.copyStart.opId = k <;> by_cases hrel : c.releaseStart.opId = k <;>
        simp_all [Presence.step]
    rw [List.flatMap_cons, List.foldl_append, hone, ih]
    · simp [Bool.and_assoc, Bool.or_assoc, Bool.not_or]
    · rcases hp with hp | hp
      · by_cases hrel : c.releaseStart.opId = k
        · rcases hrelease c List.mem_cons_self hrel with h | h
          · simp [h]
          · simp [h]
        · simp [hp, hrel]
      · simp [hp]
    · intro c' hc' hrel
      refine (hrelease c' (List.mem_cons_of_mem _ hc') hrel).imp_right fun h => ?_
      simp [h]

/-- Copies back and accesses take nothing off the device. -/
theorem device_of_begin {es : List Event}
    (hes : ∀ e ∈ es, (∃ k sid, e = .action ⟨k, sid, .copyH2d⟩) ∨ ∃ a, e = .access a)
    (hp : p.device = true) : (es.foldl Presence.step p).device = true := by
  induction es generalizing p with
  | nil => exact hp
  | cons e es ih =>
    refine ih (fun e he => hes e (List.mem_cons_of_mem _ he)) ?_
    obtain ⟨k, sid, rfl⟩ | ⟨a, rfl⟩ := hes e List.mem_cons_self
    · simp [Presence.step, hp]
    · by_cases hseen : p.seen = true
      · simp [Presence.step, hseen, hp]
      · simp [Presence.step, hseen]

/-- Post-actions put nothing on the device. -/
theorem device_of_post {es : List Event}
    (hes : ∀ e ∈ es, ∃ a, e = .action a ∧ a.kind ≠ .copyH2d)
    (hp : (es.foldl Presence.step p).device = true) : p.device = true := by
  induction es generalizing p with
  | nil => exact hp
  | cons e es ih =>
    have hstep := ih (fun e he => hes e (List.mem_cons_of_mem _ he)) hp
    obtain ⟨⟨k, sid, kind⟩, rfl, hkind⟩ := hes e List.mem_cons_self
    cases kind with
    | copyD2h => exact hstep
    | copyH2d => exact absurd rfl hkind
    | releaseDevice => cases hstep
    | releaseHost => exact hstep

/-- The releases at the last access leave nothing on the device. -/
theorem foldl_releases {es : List Event}
    (hes : ∀ e ∈ es, ∃ k sid, e = .action ⟨k, sid, .releaseDevice⟩ ∨
      e = .action ⟨k, sid, .releaseHost⟩)
    (hp : p.device = false ∨ ∃ k sid, .action ⟨k, sid, .releaseDevice⟩ ∈ es) :
    (es.foldl Presence.step p).device = false := by
  induction es generalizing p with
  | nil => exact hp.resolve_right fun ⟨_, _, h⟩ => List.not_mem_nil h
  | cons e es ih =>
    rw [List.foldl_cons]
    refine ih (fun e he => hes e (List.mem_cons_of_mem _ he)) ?_
    obtain ⟨k, sid, rfl | rfl⟩ := hes e List.mem_cons_self
    · exact .inl rfl
    · refine hp.imp_right ?_
      rintro ⟨k', sid', h⟩
      rcases List.mem_cons.1 h with h | h
      · cases h
      · exact ⟨k', sid', h⟩

end Parts

/-! ### One op -/

section Op

variable {trace : ActivationTrace} {sid : ℕ} {retained : Prop} {G : List EvictionCandidate}

/-- The storage is on the device while op `k` runs: it was accessed, is not done with, and no gap
is open. -/
def Runs (trace : ActivationTrace) (sid : ℕ) (retained : Prop) (G : List EvictionCandidate)
    (k : ℕ) : Prop :=
  (∃ j ≤ k, trace.Accessed sid j) ∧ (retained ∨ ∃ j, k ≤ j ∧ trace.Accessed sid j) ∧
    ¬∃ c ∈ G, c.releaseStart.opId < k ∧ k < c.fin.opId

/-- A storage before op `k`. -/
inductive Placed (trace : ActivationTrace) (sid : ℕ) (retained : Prop)
    (G : List EvictionCandidate) (k : ℕ) (p : Presence) : Prop
  | unseen (before : ∀ j < k, ¬trace.Accessed sid j) (init : p = Presence.init)
  | live (before : ∃ j < k, trace.Accessed sid j) (seen : p.seen = true)
      (after : retained ∨ ∃ j, k ≤ j ∧ trace.Accessed sid j)
      (evicted : p.device = false ↔ ∃ c ∈ G, c.releaseStart.opId < k ∧ k ≤ c.fin.opId)
      (copied : ∀ c ∈ G, c.copyStart.opId < k → k ≤ c.fin.opId → p.host = true)
  | finished (released : ¬retained) (after : ∀ j, k ≤ j → ¬trace.Accessed sid j)
      (device : p.device = false)

/-- The events of an op on a storage whose size is known: pre-actions, accesses, evictions and
releases. -/
structure OpParts (trace : ActivationTrace) (sid : ℕ) (retained : Prop)
    (G : List EvictionCandidate) (k : ℕ) (pre : List Event) (acc : List StorageAccess)
    (rel : List Event) : Prop where
  copies : ∀ e ∈ pre, ∃ k sid, e = .action ⟨k, sid, .copyH2d⟩
  pre_nil : pre = [] ↔ ∀ c ∈ G, c.fin.opId ≠ k
  acc_nil : acc = [] ↔ ¬trace.Accessed sid k
  releases : ∀ e ∈ rel, ∃ k sid, e = .action ⟨k, sid, .releaseDevice⟩ ∨
    e = .action ⟨k, sid, .releaseHost⟩
  rel_nil : rel = [] ∨ ∃ k sid, .action ⟨k, sid, .releaseDevice⟩ ∈ rel
  rel_iff : rel ≠ [] ↔ ¬retained ∧ trace.Accessed sid k ∧ ∀ j, k < j → ¬trace.Accessed sid j

variable {k : ℕ} {p : Presence} {pre rel : List Event} {acc : List StorageAccess}

/-- An op that does not access the storage. -/
theorem placed_idle (hgaps : ∀ c ∈ G, Gap trace c ∧ c.storageId = sid)
    (hk : ¬trace.Accessed sid k) (hinv : Placed trace sid retained G k p) :
    (p.device = true ↔ Runs trace sid retained G k) ∧ Placed trace sid retained G (k + 1) p := by
  -- no gap opens or ends here
  have hends : ∀ c ∈ G, c.releaseStart.opId ≠ k ∧ c.fin.opId ≠ k ∧ c.copyStart.opId ≠ k := by
    intro c hc
    obtain ⟨hgap, rfl⟩ := hgaps c hc
    exact ⟨fun h => hk (h ▸ hgap.releaseAccessed), fun h => hk (h ▸ hgap.finAccessed),
      fun h => hk (h ▸ hgap.copyAccessed)⟩
  have hsucc : (∃ j, k ≤ j ∧ trace.Accessed sid j) → ∃ j, k + 1 ≤ j ∧ trace.Accessed sid j := by
    rintro ⟨j, hj, hacc⟩
    rcases Nat.eq_or_lt_of_le hj with rfl | hlt
    · exact absurd hacc hk
    · exact ⟨j, hlt, hacc⟩
  cases hinv with
  | unseen before init =>
    have hbefore : ∀ j < k + 1, ¬trace.Accessed sid j := by
      intro j hj
      rcases Nat.lt_succ_iff_lt_or_eq.1 hj with hj | rfl
      · exact before j hj
      · exact hk
    refine ⟨⟨fun h => ?_, ?_⟩, .unseen hbefore init⟩
    · rw [init] at h
      cases h
    · rintro ⟨⟨j, hj, hacc⟩, -⟩
      exact absurd hacc (hbefore j (by omega))
  | live before seen after evicted copied =>
    obtain ⟨j, hj, hacc⟩ := before
    constructor
    · rw [← Bool.not_eq_false, evicted, Runs]
      constructor
      · refine fun h => ⟨⟨j, by omega, hacc⟩, after, fun ⟨c, hc, hlt, hfin⟩ => ?_⟩
        exact h ⟨c, hc, hlt, hfin.le⟩
      · rintro ⟨-, -, h⟩ ⟨c, hc, hlt, hfin⟩
        exact h ⟨c, hc, hlt, by have := (hends c hc).2.1; omega⟩
    · refine .live ⟨j, by omega, hacc⟩ seen (after.imp_right hsucc) ?_ fun c hc hcopy hfin => ?_
      · rw [evicted]
        refine exists_congr fun c => and_congr_right fun hc => ?_
        have := hends c hc
        omega
      · have := hends c hc
        exact copied c hc (by omega) (by omega)
  | finished released after device =>
    refine ⟨⟨fun h => ?_, ?_⟩, .finished released (fun j hj => after j (by omega)) device⟩
    · rw [device] at h
      cases h
    · rintro ⟨-, h, -⟩
      obtain ⟨j, hj, hacc⟩ := h.resolve_left released
      exact absurd hacc (after j hj)

/-- The pre-actions and the accesses of an op that accesses the storage leave it on the device. -/
theorem placed_begin (hgaps : ∀ c ∈ G, Gap trace c ∧ c.storageId = sid)
    (hparts : OpParts trace sid retained G k pre acc rel) (hk : trace.Accessed sid k)
    (hinv : Placed trace sid retained G k p) :
    ∃ host, (pre ++ acc.map Event.access).foldl Presence.step p = ⟨true, host, true⟩ ∧
      ∀ c ∈ G, c.copyStart.opId < k → k ≤ c.fin.opId → host = true := by
  have hacc : acc ≠ [] := fun hnil => hparts.acc_nil.1 hnil hk
  rw [List.foldl_append]
  cases hinv with
  | unseen before init =>
    have hnil : pre = [] := hparts.pre_nil.2 fun c hc hfin => by
      obtain ⟨hgap, rfl⟩ := hgaps c hc
      have hwide := hgap.wide
      exact before _ (by omega) hgap.releaseAccessed
    subst hnil init
    refine ⟨false, foldl_access_init hacc, fun c hc hcopy _ => ?_⟩
    obtain ⟨hgap, rfl⟩ := hgaps c hc
    exact absurd hgap.copyAccessed (before _ hcopy)
  | live before seen after evicted copied =>
    obtain ⟨device, host, seen'⟩ := p
    dsimp only at seen evicted copied
    subst seen
    refine ⟨host, ?_, copied⟩
    rw [foldl_copyH2d hparts.copies, foldl_access_seen _ rfl]
    cases device with
    | true => rfl
    | false =>
      -- the gap that is open ends here
      obtain ⟨c, hc, hrelease, hle⟩ := evicted.1 rfl
      obtain ⟨hgap, rfl⟩ := hgaps c hc
      have hinside := hgap.inside k hk
      have hcopyLe := hgap.copy_le
      have hne : pre ≠ [] := fun hnil => hparts.pre_nil.1 hnil c hc (by omega)
      have hhost := copied c hc (by omega) hle
      subst hhost
      simp [hne]
  | finished released after device => exact absurd hk (after k (Nat.le_refl _))

/-- One op on a storage: where it is while the op runs, and where the op leaves it. -/
theorem placed_op (hgaps : ∀ c ∈ G, Gap trace c ∧ c.storageId = sid)
    (hparts : OpParts trace sid retained G k pre acc rel)
    (hinv : Placed trace sid retained G k p) :
    (((pre ++ acc.map Event.access).foldl Presence.step p).device = true ↔
        Runs trace sid retained G k) ∧
      Placed trace sid retained G (k + 1) ((pre ++ acc.map Event.access ++
        ((G.flatMap fun c => c.evictAt k) ++ rel)).foldl Presence.step p) := by
  by_cases hk : trace.Accessed sid k
  · obtain ⟨host, hbegin, hcopied⟩ := placed_begin hgaps hparts hk hinv
    rw [hbegin, List.foldl_append, hbegin, List.foldl_append]
    have hrelease : ∀ c ∈ G, c.releaseStart.opId = k → c.copyStart.opId = k ∨ host = true := by
      intro c hc hr
      have hgap := (hgaps c hc).1
      have hwide := hgap.wide
      rcases Nat.eq_or_lt_of_le hgap.copy_le with heq | hlt
      · exact .inl (heq.trans hr)
      · exact .inr (hcopied c hc (by omega) (by omega))
    rw [foldl_evictions (.inl rfl) hrelease]
    constructor
    · refine ⟨fun _ => ⟨⟨k, Nat.le_refl k, hk⟩, .inr ⟨k, Nat.le_refl k, hk⟩, ?_⟩, fun _ => rfl⟩
      rintro ⟨c, hc, hlt, hfin⟩
      obtain ⟨hgap, rfl⟩ := hgaps c hc
      have := hgap.inside k hk
      omega
    by_cases hrel : rel = []
    · subst hrel
      have hafter : retained ∨ ∃ j, k + 1 ≤ j ∧ trace.Accessed sid j := by
        by_contra hnone
        rw [not_or] at hnone
        exact hparts.rel_iff.2 ⟨hnone.1, hk, fun j hj hacc => hnone.2 ⟨j, hj, hacc⟩⟩ rfl
      refine .live ⟨k, Nat.lt_succ_self k, hk⟩ rfl hafter ?_ fun c hc hcopy hfin => ?_
      · simp only [List.foldl_nil, Bool.true_and, Bool.not_eq_false', List.any_eq_true,
          decide_eq_true_eq]
        refine exists_congr fun c => and_congr_right fun hc => ?_
        obtain ⟨hgap, rfl⟩ := hgaps c hc
        have hinside := hgap.inside k hk
        have hwide := hgap.wide
        omega
      · simp only [List.foldl_nil, Bool.or_eq_true, List.any_eq_true, decide_eq_true_eq]
        rcases Nat.lt_succ_iff_lt_or_eq.1 hcopy with hlt | heq
        · exact .inl (hcopied c hc hlt (by omega))
        · exact .inr ⟨c, hc, heq⟩
    · obtain ⟨hretained, -, hlast⟩ := hparts.rel_iff.1 hrel
      exact .finished hretained (fun j hj => hlast j hj)
        (foldl_releases hparts.releases (.inr (hparts.rel_nil.resolve_left hrel)))
  · have hpre : pre = [] := hparts.pre_nil.2 fun c hc hfin => by
      obtain ⟨hgap, rfl⟩ := hgaps c hc
      exact hk (hfin ▸ hgap.finAccessed)
    have hrel : rel = [] := by
      by_contra hne
      exact hk (hparts.rel_iff.1 hne).2.1
    rw [hpre, hparts.acc_nil.2 hk, evictions_idle hgaps hk, hrel]
    exact placed_idle hgaps hk hinv

end Op

/-! ### The plan -/

section Plan

variable {trace : ActivationTrace} {selected : List EvictionCandidate} {sid k : ℕ}

theorem mem_releaseActions_iff {retainedSids : List ℕ} {releasable : List (ℕ × StorageAccess)}
    {a : ResidencyAction} : a ∈ releaseActions selected retainedSids releasable ↔
      ∃ entry ∈ releasable, entry.1 ∉ retainedSids ∧
        (a = ⟨entry.2.opId, entry.1, .releaseDevice⟩ ∨
          entry.1 ∈ selected.map EvictionCandidate.storageId ∧
            a = ⟨entry.2.opId, entry.1, .releaseHost⟩) := by
  rw [releaseActions, List.mem_flatMap]
  refine exists_congr fun entry => and_congr_right fun _ => ?_
  by_cases hretained : entry.1 ∈ retainedSids
  · simp [hretained]
  · by_cases hevicted : entry.1 ∈ selected.map EvictionCandidate.storageId
    · rw [if_neg hretained, if_pos hevicted, List.mem_pair]
      simp only [hretained, hevicted, not_false_eq_true, true_and]
    · rw [if_neg hretained, if_neg hevicted, List.mem_singleton]
      simp only [hretained, hevicted, not_false_eq_true, true_and, false_and, or_false]

/-- A storage with a size has a last access. -/
theorem exists_last_of_mem_footprints {f : ℕ × ℕ × List StorageAccess}
    (hf : f ∈ trace.footprints) : ∃ last, (f.1, last) ∈ trace.releasable := by
  have hne : f.2.2 ≠ [] := by
    rw [of_mem_footprints hf]
    obtain ⟨entry, hentry, hsize⟩ := List.mem_filterMap.1 hf
    obtain ⟨size, -, rfl⟩ := Option.map_eq_some_iff.1 hsize
    obtain ⟨sid, hsid, rfl⟩ := List.mem_map.1 hentry
    obtain ⟨a, ha, rfl⟩ := Dict.mem_firstKeys.1 hsid
    exact List.ne_nil_of_mem (List.mem_filter.2 ⟨ha, decide_eq_true rfl⟩)
  exact ⟨_, List.mem_filterMap.2 ⟨f, hf, by rw [List.getLast?_eq_some_getLast hne]; rfl⟩⟩

/-- The events of the plan on a storage with a size. -/
theorem opParts_scheduleOf (hgaps : ∀ c ∈ selected, Gap trace c)
    {f : ℕ × ℕ × List StorageAccess} (hf : f ∈ trace.footprints) (k : ℕ) :
    OpParts trace f.1 (f.1 ∈ trace.retainedSids) (selected.filter (·.storageId = f.1)) k
      ((((scheduleOf selected trace).preActions k).map Event.action).filter (·.storageId = f.1))
      ((trace.ops[k]?.getD []).filter (·.storageId = f.1))
      ((((releaseActions selected trace.retainedSids trace.releasable).filter (·.opId = k)).map
        Event.action).filter (·.storageId = f.1)) := by
  have hmem : ∀ e, e ∈ (((releaseActions selected trace.retainedSids trace.releasable).filter
      (·.opId = k)).map Event.action).filter (·.storageId = f.1) ↔
      ∃ a, (∃ access, (f.1, access) ∈ trace.releasable ∧ f.1 ∉ trace.retainedSids ∧
        access.opId = k ∧ (a = ⟨k, f.1, .releaseDevice⟩ ∨
          f.1 ∈ selected.map EvictionCandidate.storageId ∧ a = ⟨k, f.1, .releaseHost⟩)) ∧
        e = .action a := by
    intro e
    rw [List.mem_filter, List.mem_map]
    constructor
    · rintro ⟨⟨a, ha, rfl⟩, hsid⟩
      obtain ⟨ha, hk⟩ := List.mem_filter.1 ha
      obtain ⟨⟨sid, access⟩, hentry, hretained, hkind⟩ := mem_releaseActions_iff.1 ha
      rcases hkind with rfl | ⟨hevicted, rfl⟩
      · obtain rfl : sid = f.1 := of_decide_eq_true hsid
        obtain rfl : access.opId = k := of_decide_eq_true hk
        exact ⟨_, ⟨access, hentry, hretained, rfl, .inl rfl⟩, rfl⟩
      · obtain rfl : sid = f.1 := of_decide_eq_true hsid
        obtain rfl : access.opId = k := of_decide_eq_true hk
        exact ⟨_, ⟨access, hentry, hretained, rfl, .inr ⟨hevicted, rfl⟩⟩, rfl⟩
    · rintro ⟨a, ⟨access, hentry, hretained, rfl, hkind⟩, rfl⟩
      have ha := mem_releaseActions_iff.2 ⟨_, hentry, hretained, hkind⟩
      have hboth : a.opId = access.opId ∧ a.storageId = f.1 := by
        rcases hkind with rfl | ⟨-, rfl⟩
        · exact ⟨rfl, rfl⟩
        · exact ⟨rfl, rfl⟩
      exact ⟨⟨a, List.mem_filter.2 ⟨ha, decide_eq_true hboth.1⟩, rfl⟩, decide_eq_true hboth.2⟩
  obtain ⟨last, hlast⟩ := exists_last_of_mem_footprints hf
  refine ⟨copyH2d_of_mem_preActions, preActions_eq_nil_iff hgaps, accesses_eq_nil_iff, ?_, ?_, ?_⟩
  · intro e he
    obtain ⟨a, ⟨access, -, -, -, rfl | ⟨-, rfl⟩⟩, rfl⟩ := (hmem e).1 he
    · exact ⟨k, f.1, .inl rfl⟩
    · exact ⟨k, f.1, .inr rfl⟩
  · rw [or_iff_not_imp_left]
    intro hne
    obtain ⟨e, he⟩ := List.exists_mem_of_ne_nil _ hne
    obtain ⟨a, ⟨access, hentry, hretained, hk, -⟩, -⟩ := (hmem e).1 he
    exact ⟨k, f.1, (hmem _).2 ⟨_, ⟨access, hentry, hretained, hk, .inl rfl⟩, rfl⟩⟩
  · constructor
    · intro hne
      obtain ⟨e, he⟩ := List.exists_mem_of_ne_nil _ hne
      obtain ⟨a, ⟨access, hentry, hretained, rfl, -⟩, -⟩ := (hmem e).1 he
      exact ⟨hretained, accessed_of_mem_releasable hentry, fun j hj hacc =>
        Nat.not_le.2 hj (last_of_mem_releasable hentry j hacc)⟩
    · rintro ⟨hretained, hk, hafter⟩
      have hle := last_of_mem_releasable hlast k hk
      have hge : ¬k < last.opId := fun h => hafter _ h (accessed_of_mem_releasable hlast)
      exact List.ne_nil_of_mem ((hmem _).2
        ⟨_, ⟨last, hlast, hretained, by omega, .inl rfl⟩, rfl⟩)

/-- What happens before an op has run. -/
def beginEvents (trace : ActivationTrace) (schedule : ResidencySchedule) (opId : ℕ) :
    List Event :=
  (schedule.preActions opId).map .action ++ (trace.ops[opId]?.getD []).map .access

/-- The storages after some events. -/
def replayState (events : List Event) : ℕ → Slot :=
  events.foldl (lift Event.storageId Slot.step) fun _ => Slot.init

/-- The storages while an op runs. -/
def running (trace : ActivationTrace) (schedule : ResidencySchedule) (opId : ℕ) : ℕ → Slot :=
  replayState ((List.range opId).flatMap (opEvents trace schedule) ++
    beginEvents trace schedule opId)

theorem filter_beginEvents (schedule : ResidencySchedule) (sid k : ℕ) :
    (beginEvents trace schedule k).filter (·.storageId = sid) =
      ((schedule.preActions k).map Event.action).filter (·.storageId = sid) ++
        ((trace.ops[k]?.getD []).filter (·.storageId = sid)).map Event.access := by
  rw [beginEvents, List.filter_append, filter_accesses]

theorem filter_opEvents (hgaps : ∀ c ∈ selected, Gap trace c) (sid k : ℕ) :
    (opEvents trace (scheduleOf selected trace) k).filter (·.storageId = sid) =
      (beginEvents trace (scheduleOf selected trace) k).filter (·.storageId = sid) ++
        (((selected.filter (·.storageId = sid)).flatMap fun c => c.evictAt k) ++
          (((releaseActions selected trace.retainedSids trace.releasable).filter
            (·.opId = k)).map Event.action).filter (·.storageId = sid)) := by
  rw [opEvents, ← beginEvents, List.filter_append, ResidencySchedule.postActions]
  congr 1
  rw [scheduleOf, List.filter_append, List.map_append, List.filter_append,
    filter_evictions hgaps]

/-- Before every op of the replay. -/
theorem placed_run (hgaps : ∀ c ∈ selected, Gap trace c) {f : ℕ × ℕ × List StorageAccess}
    (hf : f ∈ trace.footprints) (k : ℕ) :
    Placed trace f.1 (f.1 ∈ trace.retainedSids) (selected.filter (·.storageId = f.1)) k
      (replayState ((List.range k).flatMap (opEvents trace (scheduleOf selected trace)))
        f.1).presence := by
  induction k with
  | zero => exact .unseen (fun j hj => absurd hj (Nat.not_lt_zero j)) rfl
  | succ k ih =>
    rw [replayState, foldl_lift, presence_foldl] at ih ⊢
    rw [List.range_succ, List.flatMap_append, List.flatMap_singleton, List.filter_append,
      List.foldl_append, filter_opEvents hgaps, filter_beginEvents]
    refine (placed_op (fun c hc => ?_) (opParts_scheduleOf hgaps hf k) ih).2
    obtain ⟨hc, hsid⟩ := List.mem_filter.1 hc
    exact ⟨hgaps c hc, of_decide_eq_true hsid⟩

/-- The storages with a size that are on the device while an op runs. -/
theorem device_running_iff (hgaps : ∀ c ∈ selected, Gap trace c)
    {f : ℕ × ℕ × List StorageAccess} (hf : f ∈ trace.footprints) (k : ℕ) :
    (running trace (scheduleOf selected trace) k f.1).device.isSome = true ↔
      Runs trace f.1 (f.1 ∈ trace.retainedSids) (selected.filter (·.storageId = f.1)) k := by
  have hplaced := placed_run hgaps hf k
  rw [replayState, foldl_lift, presence_foldl] at hplaced
  have hop := (placed_op (fun c hc => by
    obtain ⟨hc, hsid⟩ := List.mem_filter.1 hc
    exact ⟨hgaps c hc, of_decide_eq_true hsid⟩) (opParts_scheduleOf hgaps hf k) hplaced).1
  rw [← hop, ← List.foldl_append, ← filter_beginEvents, ← List.filter_append]
  have hpresence := presence_foldl Slot.init
    (((List.range k).flatMap (opEvents trace (scheduleOf selected trace)) ++
      beginEvents trace (scheduleOf selected trace) k).filter (·.storageId = f.1))
  rw [running, replayState, foldl_lift]
  exact iff_of_eq (congrArg (fun p => p.device = true) hpresence)

end Plan

end HyperParallel.HyperOffload
