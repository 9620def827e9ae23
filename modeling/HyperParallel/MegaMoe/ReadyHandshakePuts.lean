import HyperParallel.MegaMoe.ReadyHandshakeBarrier

/-!
# The puts between the ranks

* `Puts`: the invariant of the puts: they are issued between publishing and the end of the tasks,
  and the counters of a rank hold those of its own call;
* `Puts.le_entered`: a put is never ahead of the zeroing of its target;
* `Puts.step`: every step keeps it.
-/

namespace HyperParallel.MegaMoe

/-- The ready event of the call is published. -/
def Pc.AfterPublish (pc : Pc) : Prop := pc = .ready ∨ pc = .draining ∨ pc = .idle ∨ pc = .zeroed

/-- The tasks of the call have made their puts. -/
def Pc.AfterTasks (pc : Pc) : Prop := pc = .draining ∨ pc = .idle ∨ pc = .zeroed

/-- The call is finished. -/
def Pc.AfterFinish (pc : Pc) : Prop := pc = .idle ∨ pc = .zeroed

/-- The counters are zeroed for the next call. -/
def Pc.BeforeEnter (pc : Pc) : Prop := pc = .hostBarrier ∨ pc = .zeroed

instance (pc : Pc) : Decidable pc.BeforeEnter := inferInstanceAs (Decidable (_ ∨ _))

namespace Handshake

variable {ep : ℕ} {puts : ℕ → ℕ → ℕ → ℕ} {s s' : Handshake} {a : HandshakeAction}
  {rank round r t u n : ℕ}

/-- The call that the counters of a rank are zeroed for. -/
def call (s : Handshake) (rank : ℕ) : ℕ :=
  if (s.pc rank).BeforeEnter then s.entered rank + 1 else s.entered rank

/-- The invariant of the puts. -/
structure Puts (ep : ℕ) (puts : ℕ → ℕ → ℕ → ℕ) (s : Handshake) : Prop where
  issuer : ∀ n u t, 0 < s.issued n u t → (0 < n ∧ u < ep ∧ t < ep) ∧ n ≤ s.entered u ∧
    (n = s.entered u → (s.pc u).AfterPublish)
  issued_le : ∀ n u t, s.issued n u t ≤ puts n u t
  all_issued : ∀ n u, 0 < n → u < ep → n < s.entered u ∨ n = s.entered u ∧ (s.pc u).AfterTasks →
    ∀ t < ep, s.issued n u t = puts n u t
  delivered_le : ∀ n u t, s.delivered n u t ≤ s.issued n u t
  counted : ∀ t < ep, s.pc t ≠ .fresh →
    s.counter t = ∑ u ∈ Finset.range ep, s.delivered (s.call t) u t
  arrived : ∀ n t, 0 < n → t < ep → n < s.entered t ∨ n = s.entered t ∧ (s.pc t).AfterFinish →
    ∀ u < ep, s.delivered n u t = puts n u t

/-- No rank makes puts in a call that another has not entered. -/
theorem Puts.le_entered (hp : Puts ep puts s) (hs : Barrier ep s) (h : 0 < s.issued n u t)
    (hr : r < ep) : n ≤ s.entered r := by
  obtain ⟨⟨-, hu, -⟩, hle, hpublished⟩ := hp.issuer n u t h
  rcases hle.lt_or_eq with hlt | rfl
  · have := hs.near u hu r hr
    omega
  · refine hs.le_of_reach hu hr ?_
    rcases hpublished rfl with hpc | hpc | hpc | hpc <;> rw [hpc] <;> exact le_rfl

theorem Puts.not_delivered (hp : Puts ep puts s) (hs : Barrier ep s) (hr : r < ep)
    (hn : s.entered r < n) (u t : ℕ) : s.delivered n u t = 0 := by
  by_contra h
  have hissued := (Nat.pos_of_ne_zero h).trans_le (hp.delivered_le n u t)
  exact absurd (hp.le_entered hs hissued hr) (not_le.2 hn)

/-- A rank that goes on and zeroes nothing. -/
theorem Puts.goTo (hp : Puts ep puts s) {pc : Pc} (hold : s.pc rank ≠ .fresh)
    (hpublish : (s.pc rank).AfterPublish → pc.AfterPublish)
    (htasks : pc.AfterTasks → (s.pc rank).AfterTasks ∨ s.entered rank = 0 ∨
      ∀ t < ep, s.issued (s.entered rank) rank t = puts (s.entered rank) rank t)
    (hfinish : pc.AfterFinish → (s.pc rank).AfterFinish ∨ s.entered rank = 0 ∨
      ∀ u < ep, s.delivered (s.entered rank) u rank = puts (s.entered rank) u rank)
    (henter : pc.BeforeEnter ↔ (s.pc rank).BeforeEnter) : Puts ep puts (s.goTo rank pc) := by
  have hself : (s.goTo rank pc).pc rank = pc := Function.update_self _ _ _
  have hother : ∀ r ≠ rank, (s.goTo rank pc).pc r = s.pc r := fun r hr =>
    Function.update_of_ne hr _ _
  refine ⟨fun n u t h => ?_, hp.issued_le, fun n u hn hu h => ?_, hp.delivered_le,
    fun t ht hf => ?_, fun n t hn ht h => ?_⟩
  · obtain ⟨hu, hle, hpublished⟩ := hp.issuer n u t h
    refine ⟨hu, hle, fun heq => ?_⟩
    by_cases hur : u = rank
    · subst hur
      rw [hself]
      exact hpublish (hpublished heq)
    · rw [hother u hur]
      exact hpublished heq
  · rcases h with hlt | ⟨heq, hpc⟩
    · exact hp.all_issued n u hn hu (Or.inl hlt)
    · by_cases hur : u = rank
      · subst hur
        rw [hself] at hpc
        rcases htasks hpc with hpc | hzero | hall
        · exact hp.all_issued n u hn hu (Or.inr ⟨heq, hpc⟩)
        · exact absurd (heq.trans hzero) hn.ne'
        · rw [heq]
          exact hall
      · rw [hother u hur] at hpc
        exact hp.all_issued n u hn hu (Or.inr ⟨heq, hpc⟩)
  · have hcall : (s.goTo rank pc).call t = s.call t := by
      rw [call, call]
      by_cases htr : t = rank
      · subst htr
        simp only [hself, henter]
        rfl
      · rw [hother t htr]
        rfl
    rw [hcall]
    refine hp.counted t ht fun hfresh => hf ?_
    by_cases htr : t = rank
    · exact absurd (htr ▸ hfresh) hold
    · rw [hother t htr, hfresh]
  · rcases h with hlt | ⟨heq, hpc⟩
    · exact hp.arrived n t hn ht (Or.inl hlt)
    · by_cases htr : t = rank
      · subst htr
        rw [hself] at hpc
        rcases hfinish hpc with hpc | hzero | hall
        · exact hp.arrived n t hn ht (Or.inr ⟨heq, hpc⟩)
        · exact absurd (heq.trans hzero) hn.ne'
        · rw [heq]
          exact hall
      · rw [hother t htr] at hpc
        exact hp.arrived n t hn ht (Or.inr ⟨heq, hpc⟩)

/-- The counters of a rank are zeroed for a call of which no put has arrived. -/
theorem Puts.zeroCounter (hp : Puts ep puts s) {pc : Pc} {ready : ℕ → ℕ → ℤ}
    (hpc : pc.BeforeEnter) (hnone : ∀ u, s.delivered (s.entered rank + 1) u rank = 0)
    (hpublish : (s.pc rank).AfterPublish → pc.AfterPublish)
    (htasks : (s.pc rank).AfterTasks ∨ s.entered rank = 0)
    (hfinish : (s.pc rank).AfterFinish ∨ s.entered rank = 0) :
    Puts ep puts ({ s with
      counter := Function.update s.counter rank 0
      ready := ready }.goTo rank pc) := by
  set s' := ({ s with counter := Function.update s.counter rank 0, ready := ready }.goTo rank pc)
    with hs'
  have hself : s'.pc rank = pc := Function.update_self _ _ _
  have hother : ∀ r ≠ rank, s'.pc r = s.pc r := fun r hr => Function.update_of_ne hr _ _
  refine ⟨fun n u t h => ?_, hp.issued_le, fun n u hn hu h => ?_, hp.delivered_le,
    fun t ht hf => ?_, fun n t hn ht h => ?_⟩
  · obtain ⟨hu, hle, hpublished⟩ := hp.issuer n u t h
    refine ⟨hu, hle, fun heq => ?_⟩
    by_cases hur : u = rank
    · subst hur
      rw [hself]
      exact hpublish (hpublished heq)
    · rw [hother u hur]
      exact hpublished heq
  · refine hp.all_issued n u hn hu (h.imp_right fun ⟨heq, hpc⟩ => ⟨heq, ?_⟩)
    by_cases hur : u = rank
    · subst hur
      exact htasks.resolve_right fun hzero => hn.ne' (heq.trans hzero)
    · rwa [hother u hur] at hpc
  · by_cases htr : t = rank
    · subst htr
      have hcall : s'.call t = s.entered t + 1 := by
        rw [call, hself, if_pos hpc]
        rfl
      rw [hcall]
      refine (Function.update_self _ _ _).trans (Finset.sum_eq_zero fun u _ => hnone u).symm
    · have hcall : s'.call t = s.call t := by
        rw [call, call, hother t htr]
        rfl
      rw [hcall]
      refine (Function.update_of_ne htr _ _).trans (hp.counted t ht ?_)
      rwa [hother t htr] at hf
  · refine hp.arrived n t hn ht (h.imp_right fun ⟨heq, hpc⟩ => ⟨heq, ?_⟩)
    by_cases htr : t = rank
    · subst htr
      exact hfinish.resolve_right fun hzero => hn.ne' (heq.trans hzero)
    · rwa [hother t htr] at hpc

theorem Puts.enter (hp : Puts ep puts s) (hpc : s.pc rank = .zeroed) {generation : ℕ → ℤ}
    {ready : ℕ → ℕ → ℤ} :
    Puts ep puts ({ s with
      entered := Function.update s.entered rank (s.entered rank + 1)
      generation := generation
      ready := ready }.goTo rank (.signalling 0)) := by
  set s' := ({ s with
      entered := Function.update s.entered rank (s.entered rank + 1)
      generation := generation
      ready := ready }.goTo rank (.signalling 0)) with hs'
  have hself : s'.pc rank = .signalling 0 := Function.update_self _ _ _
  have hentered : s'.entered rank = s.entered rank + 1 := Function.update_self _ _ _
  have hother : ∀ r ≠ rank, s'.pc r = s.pc r ∧ s'.entered r = s.entered r := fun r hr =>
    ⟨Function.update_of_ne hr _ _, Function.update_of_ne hr _ _⟩
  refine ⟨fun n u t h => ?_, hp.issued_le, fun n u hn hu h => ?_, hp.delivered_le,
    fun t ht hf => ?_, fun n t hn ht h => ?_⟩
  · obtain ⟨hu, hle, hpublished⟩ := hp.issuer n u t h
    by_cases hur : u = rank
    · subst hur
      rw [hentered]
      exact ⟨hu, hle.trans (Nat.le_succ _), fun heq => absurd hle (heq ▸ Nat.not_succ_le_self _)⟩
    · rw [(hother u hur).1, (hother u hur).2]
      exact ⟨hu, hle, hpublished⟩
  · refine hp.all_issued n u hn hu ?_
    by_cases hur : u = rank
    · subst hur
      rw [hentered, hself] at h
      rcases h with hlt | ⟨-, hpc⟩
      · rcases (Nat.lt_succ_iff.1 hlt).lt_or_eq with hlt | heq
        · exact Or.inl hlt
        · exact Or.inr ⟨heq, Or.inr (Or.inr hpc)⟩
      · simp [Pc.AfterTasks] at hpc
    · rwa [(hother u hur).1, (hother u hur).2] at h
  · have hcall : s'.call t = s.call t := by
      by_cases htr : t = rank
      · subst htr
        simp [call, hself, hentered, hpc, Pc.BeforeEnter]
      · rw [call, call, (hother t htr).1, (hother t htr).2]
    rw [hcall]
    refine hp.counted t ht fun hfresh => ?_
    by_cases htr : t = rank
    · rw [htr, hpc] at hfresh
      cases hfresh
    · exact hf ((hother t htr).1.trans hfresh)
  · refine hp.arrived n t hn ht ?_
    by_cases htr : t = rank
    · subst htr
      rw [hentered, hself] at h
      rcases h with hlt | ⟨-, hpc⟩
      · rcases (Nat.lt_succ_iff.1 hlt).lt_or_eq with hlt | heq
        · exact Or.inl hlt
        · exact Or.inr ⟨heq, Or.inr hpc⟩
      · simp [Pc.AfterFinish] at hpc
    · rwa [(hother t htr).1, (hother t htr).2] at h

theorem le_bump (f : ℕ → ℕ → ℕ → ℕ) (call source target n u t : ℕ) :
    f n u t ≤ bump f call source target n u t := by
  rw [bump]
  split_ifs
  · exact Nat.le_succ _
  · exact le_rfl

theorem bump_of_ne {f : ℕ → ℕ → ℕ → ℕ} {call source target : ℕ}
    (h : ¬(n = call ∧ u = source ∧ t = target)) : bump f call source target n u t = f n u t :=
  if_neg h

theorem Puts.put (hp : Puts ep puts s) (hn : 0 < s.entered u) (hu : u < ep) (ht : t < ep) (hpc : s.pc u = .ready)
    (hleft : s.issued (s.entered u) u t < puts (s.entered u) u t) :
    Puts ep puts { s with issued := bump s.issued (s.entered u) u t } := by
  refine ⟨fun n v w h => ?_, fun n v w => ?_, fun n v hn hv h w hw => ?_, fun n v w => ?_,
    hp.counted, hp.arrived⟩
  · by_cases hx : n = s.entered u ∧ v = u ∧ w = t
    · obtain ⟨rfl, rfl, rfl⟩ := hx
      exact ⟨⟨hn, hu, ht⟩, le_rfl, fun _ => Or.inl hpc⟩
    · have h : 0 < bump s.issued (s.entered u) u t n v w := h
      rw [bump_of_ne hx] at h
      exact hp.issuer n v w h
  · by_cases hx : n = s.entered u ∧ v = u ∧ w = t
    · obtain ⟨rfl, rfl, rfl⟩ := hx
      show bump s.issued _ _ _ _ _ _ ≤ _
      rw [bump, if_pos ⟨rfl, rfl, rfl⟩]
      exact hleft
    · show bump s.issued _ _ _ _ _ _ ≤ _
      rw [bump_of_ne hx]
      exact hp.issued_le n v w
  · show bump s.issued _ _ _ _ _ _ = _
    rw [bump_of_ne]
    · exact hp.all_issued n v hn hv h w hw
    · rintro ⟨rfl, rfl, rfl⟩
      rcases h with hlt | ⟨-, htasks⟩
      · exact absurd hlt (lt_irrefl _)
      · have htasks : (s.pc v).AfterTasks := htasks
        simp [hpc, Pc.AfterTasks] at htasks
  · exact (hp.delivered_le n v w).trans (le_bump _ _ _ _ _ _ _)

/-- A put arrives in the call that its target is in. -/
theorem Puts.call_eq (hp : Puts ep puts s) (hs : Barrier ep s)
    (hflying : s.delivered n u t < s.issued n u t) : s.call t = n := by
  have hissued : 0 < s.issued n u t := (Nat.zero_le _).trans_lt hflying
  obtain ⟨⟨hn, hu, ht⟩, -, -⟩ := hp.issuer n u t hissued
  have hle := hp.le_entered hs hissued ht
  have hopen : ¬(n < s.entered t ∨ n = s.entered t ∧ (s.pc t).AfterFinish) := by
    intro h
    have := hp.arrived n t hn ht h u hu
    have := hp.issued_le n u t
    omega
  rw [not_or, not_lt, not_and] at hopen
  obtain rfl := le_antisymm hle hopen.1
  rw [call, if_neg]
  rintro (hpc | hpc)
  · exact hn.ne' (hs.unstarted t ht (Or.inr hpc))
  · exact hopen.2 rfl (Or.inr hpc)

theorem Puts.deliver (hp : Puts ep puts s) (hs : Barrier ep s)
    (hflying : s.delivered n u t < s.issued n u t) :
    Puts ep puts { s with
      delivered := bump s.delivered n u t
      counter := Function.update s.counter t (s.counter t + 1) } := by
  have hcall := hp.call_eq hs hflying
  obtain ⟨⟨hn, hu, ht⟩, -, -⟩ := hp.issuer n u t ((Nat.zero_le _).trans_lt hflying)
  refine ⟨hp.issuer, hp.issued_le, hp.all_issued, fun m v w => ?_, fun w hw hf => ?_,
    fun m w hm hw h v hv => ?_⟩
  · show bump s.delivered n u t m v w ≤ s.issued m v w
    by_cases hx : m = n ∧ v = u ∧ w = t
    · rw [bump, if_pos hx]
      obtain ⟨rfl, rfl, rfl⟩ := hx
      exact hflying
    · rw [bump_of_ne hx]
      exact hp.delivered_le m v w
  · show Function.update s.counter t (s.counter t + 1) w =
      ∑ v ∈ Finset.range ep, bump s.delivered n u t (s.call w) v w
    have hcounted := hp.counted w hw hf
    by_cases hwt : w = t
    · subst hwt
      rw [Function.update_self, hcounted, hcall, ← Finset.add_sum_erase _ _ (Finset.mem_range.2 hu),
        ← Finset.add_sum_erase _ (fun v => bump s.delivered n u w n v w) (Finset.mem_range.2 hu),
        show bump s.delivered n u w n u w = s.delivered n u w + 1 from if_pos ⟨rfl, rfl, rfl⟩,
        Finset.sum_congr rfl fun v hv => (bump_of_ne fun hx =>
          Finset.ne_of_mem_erase hv hx.2.1 : bump s.delivered n u w n v w = s.delivered n v w)]
      omega
    · rw [Function.update_of_ne hwt, hcounted]
      exact Finset.sum_congr rfl fun v _ => (bump_of_ne fun hx => hwt hx.2.2).symm
  · show bump s.delivered n u t m v w = puts m v w
    have harrived := hp.arrived m w hm hw h v hv
    rw [bump_of_ne, harrived]
    rintro ⟨rfl, rfl, rfl⟩
    have := hp.issued_le m v w
    omega

/-- A rank whose counters hold every put of its call has them all. -/
theorem Puts.all_arrived (hp : Puts ep puts s) (hr : r < ep) (hpc : s.pc r = .draining)
    (hcounted : ∑ u ∈ Finset.range ep, puts (s.entered r) u r ≤ s.counter r) :
    ∀ u < ep, s.delivered (s.entered r) u r = puts (s.entered r) u r := by
  have hcall : s.call r = s.entered r := by simp [call, hpc, Pc.BeforeEnter]
  rw [hp.counted r hr (by simp [hpc]), hcall] at hcounted
  have hle : ∀ u ∈ Finset.range ep, s.delivered (s.entered r) u r ≤ puts (s.entered r) u r :=
    fun u _ => (hp.delivered_le _ u r).trans (hp.issued_le _ u r)
  have heq := (Finset.sum_eq_sum_iff_of_le hle).1 (le_antisymm (Finset.sum_le_sum hle) hcounted)
  exact fun u hu => heq u (Finset.mem_range.2 hu)

/-- Every step keeps the puts in their calls. -/
theorem Puts.step (hp : Puts ep puts s) (hs : Barrier ep s) (h : Step ep puts s a s') :
    Puts ep puts s' := by
  cases h with
  | @zeroAll rank hrank hpc =>
    have hzero := hs.unstarted rank hrank (Or.inl hpc)
    exact hp.zeroCounter (Or.inl rfl) (fun u => hp.not_delivered hs hrank (by omega) u rank)
      (by simp [hpc, Pc.AfterPublish]) (Or.inr hzero) (Or.inr hzero)
  | @passHostBarrier rank hrank hpc hall =>
    have hzero := hs.unstarted rank hrank (Or.inr hpc)
    exact hp.goTo (by simp [hpc]) (by simp [hpc, Pc.AfterPublish]) (fun _ => Or.inr (Or.inl hzero))
      (fun _ => Or.inr (Or.inl hzero)) (by simp [hpc, Pc.BeforeEnter])
  | @zero rank hrank hpc =>
    exact hp.zeroCounter (Or.inr rfl) (fun u => hp.not_delivered hs hrank (Nat.lt_succ_self _) u rank)
      (fun _ => by simp [Pc.AfterPublish]) (Or.inl (by simp [hpc, Pc.AfterTasks]))
      (Or.inl (by simp [hpc, Pc.AfterFinish]))
  | enter hrank hpc => exact hp.enter hpc
  | @signal rank round hrank hpc hround =>
    exact Puts.goTo (s := s.write _ _ _) ⟨hp.issuer, hp.issued_le, hp.all_issued, hp.delivered_le,
      hp.counted, hp.arrived⟩ (by simp [write, hpc]) (by simp [write, hpc, Pc.AfterPublish])
      (by simp [Pc.AfterTasks]) (by simp [Pc.AfterFinish]) (by simp [write, hpc, Pc.BeforeEnter])
  | wait hrank hpc hge =>
    exact hp.goTo (by simp [hpc]) (by simp [hpc, Pc.AfterPublish]) (by simp [Pc.AfterTasks])
      (by simp [Pc.AfterFinish]) (by simp [hpc, Pc.BeforeEnter])
  | publish hrank hpc hround =>
    exact hp.goTo (by simp [hpc]) (by simp [hpc, Pc.AfterPublish]) (by simp [Pc.AfterTasks])
      (by simp [Pc.AfterFinish]) (by simp [hpc, Pc.BeforeEnter])
  | @put u t hu ht hpc hleft =>
    exact hp.put (hs.started u hu (by simp [hpc]) (by simp [hpc]) (by simp [hpc])).1 hu ht hpc hleft
  | finishTasks hrank hpc hall =>
    exact hp.goTo (by simp [hpc]) (by simp [Pc.AfterPublish]) (fun _ => Or.inr (Or.inr hall))
      (by simp [Pc.AfterFinish]) (by simp [hpc, Pc.BeforeEnter])
  | deliver hflying => exact hp.deliver hs hflying
  | finish hrank hpc hcounted =>
    exact hp.goTo (by simp [hpc]) (by simp [Pc.AfterPublish])
      (fun _ => Or.inl (by simp [hpc, Pc.AfterTasks]))
      (fun _ => Or.inr (Or.inr (hp.all_arrived hrank hpc hcounted)))
      (by simp [hpc, Pc.BeforeEnter])

theorem puts_initial (ep : ℕ) (puts : ℕ → ℕ → ℕ → ℕ) (generation : ℕ → ℤ) (ready : ℕ → ℕ → ℤ)
    (counter : ℕ → ℕ) : Puts ep puts (initial generation ready counter) where
  issuer _ _ _ h := absurd h (lt_irrefl 0)
  issued_le _ _ _ := Nat.zero_le _
  all_issued n u hn _ h := by
    rcases h with h | ⟨rfl, -⟩
    · exact absurd h (Nat.not_lt_zero _)
    · exact absurd hn (lt_irrefl 0)
  delivered_le _ _ _ := le_rfl
  counted t _ h := absurd rfl h
  arrived n t hn _ h := by
    rcases h with h | ⟨rfl, -⟩
    · exact absurd h (Nat.not_lt_zero _)
    · exact absurd hn (lt_irrefl 0)

/-- The two invariants make every state safe. -/
theorem safe_of_invariants (hs : Barrier ep s) (hp : Puts ep puts s) : Safe ep puts s where
  barrier r hr h t ht := by
    refine hs.le_of_reach hr ht ?_
    rcases h with hpc | hpc | hpc <;> rw [hpc] <;> exact le_rfl
  counted t ht hpos hpc := by
    have hhost : s.pc t ≠ .hostBarrier := fun h => hpos.ne' (hs.unstarted t ht (Or.inr h))
    have hfresh : s.pc t ≠ .fresh := fun h => hpos.ne' (hs.unstarted t ht (Or.inl h))
    have hcall : s.call t = s.entered t := if_neg fun h => h.elim hhost hpc
    rw [hp.counted t ht hfresh, hcall]
  zeroedFirst t ht n u hn := hp.not_delivered hs ht hn u t
  arrived t ht n u hn hu h := hp.arrived n t hn ht h u hu
  ascending r hr round hpc hround := by
    have ht := Nat.mod_lt (r + 2 ^ round) ((Nat.zero_le _).trans_lt hr)
    have hfresh := hs.host r hr (by simp [hpc]) (by simp [hpc]) _ ht
    rw [hs.slot _ ht hfresh round hround r hr rfl,
      (hs.started r hr (by simp [hpc]) (by simp [hpc]) (by simp [hpc])).2, Nat.cast_le, lastSignal]
    split_ifs
    · exact le_rfl
    · exact Nat.sub_le _ _
  inside r hr round h eventCapacity := by
    have hround : 2 ^ round < ep := h.elim (fun hpc => hs.rounds r hr round (Or.inl hpc)) And.right
    refine ⟨?_, roundIndex_ne_generationIndex hround⟩
    have hlt : round < ep := Nat.lt_two_pow_self.trans hround
    have hone : ¬ep ≤ 1 := not_le.2 (lt_of_le_of_lt Nat.one_le_two_pow hround)
    rw [eventWorkspaceBytes, if_neg hone]
    simp only [roundIndex, readyStride, readyCacheLineBytes, int32Size]
    omega

end Handshake

end HyperParallel.MegaMoe
