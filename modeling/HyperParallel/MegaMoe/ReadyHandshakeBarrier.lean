import HyperParallel.MegaMoe.ReadyHandshake
import Mathlib.Data.Nat.ModEq

/-!
# The rounds of the ready handshake

* `Pc.reach`, `Pc.sent`: how many predecessors a rank has heard of, and the rounds it has signalled;
* `Barrier`: the invariant of the rounds, that a rank which has heard of `2 ^ k` predecessors is not
  ahead of them, and that a slot holds the last generation its one writer has signalled;
* `Barrier.wait`: how two ranges of predecessors join in one wait;
* `Barrier.step`: every step that does not wrap the generation keeps it.
-/

namespace HyperParallel.MegaMoe

/-- How many ranks, going back from itself, a rank knows to have entered its call. -/
def Pc.reach (ep : ℕ) : Pc → ℕ
  | .signalling round | .waiting round => 2 ^ round
  | _ => ep

/-- How many rounds of its call a rank has signalled. -/
def Pc.sent (ep : ℕ) : Pc → ℕ
  | .signalling round => round
  | .waiting round => round + 1
  | _ => ep

namespace Handshake

variable {ep : ℕ} {puts : ℕ → ℕ → ℕ → ℕ} {s s' : Handshake} {a : HandshakeAction}
  {rank round r t d : ℕ}

/-- The last call in which a rank has signalled a round. -/
def lastSignal (ep : ℕ) (s : Handshake) (round rank : ℕ) : ℕ :=
  if round < (s.pc rank).sent ep then s.entered rank else s.entered rank - 1

/-- The invariant of the rounds. -/
structure Barrier (ep : ℕ) (s : Handshake) : Prop where
  host : ∀ r < ep, s.pc r ≠ .fresh → s.pc r ≠ .hostBarrier → ∀ t < ep, s.pc t ≠ .fresh
  unstarted : ∀ r < ep, s.pc r = .fresh ∨ s.pc r = .hostBarrier → s.entered r = 0
  started : ∀ r < ep, s.pc r ≠ .fresh → s.pc r ≠ .hostBarrier → s.pc r ≠ .zeroed →
    0 < s.entered r ∧ s.generation r = s.entered r
  fits : ∀ r < ep, s.entered r < 2 ^ 31
  word : ∀ r < ep, s.pc r ≠ .fresh → s.ready r (generationIndex ep) = s.entered r
  slot : ∀ t < ep, s.pc t ≠ .fresh → ∀ round, 2 ^ round < ep → ∀ r < ep,
    (r + 2 ^ round) % ep = t → s.ready t (roundIndex round) = s.lastSignal ep round r
  known : ∀ r < ep, ∀ d < (s.pc r).reach ep, ∀ t < ep, (t + d) % ep = r →
    s.entered r ≤ s.entered t
  near : ∀ r < ep, ∀ t < ep, s.entered r ≤ s.entered t + 1
  rounds : ∀ r < ep, ∀ round, s.pc r = .waiting round ∨ s.pc r = .signalling (round + 1) →
    2 ^ round < ep

theorem roundIndex_injective : Function.Injective roundIndex := fun a b h =>
  Nat.eq_of_mul_eq_mul_right (show 0 < readyStride by decide) h

theorem roundIndex_ne_generationIndex (h : 2 ^ round < ep) :
    roundIndex round ≠ generationIndex ep := fun heq =>
  absurd (roundIndex_injective (show roundIndex round = roundIndex ep from heq))
    (Nat.lt_two_pow_self.trans h).ne

/-- Every rank is some distance behind every other. -/
theorem exists_distance (hr : r < ep) (ht : t < ep) : ∃ d < ep, (t + d) % ep = r := by
  rcases le_or_gt t r with hle | hlt
  · exact ⟨r - t, by omega, by rw [Nat.add_sub_cancel' hle, Nat.mod_eq_of_lt hr]⟩
  · refine ⟨r + ep - t, by omega, ?_⟩
    rw [show t + (r + ep - t) = r + ep by omega, Nat.add_mod_right, Nat.mod_eq_of_lt hr]

theorem eq_of_add_mod_eq (hr : r < ep) (ht : t < ep) (h : (r + d) % ep = (t + d) % ep) : r = t := by
  have h : r ≡ t [MOD ep] := Nat.ModEq.add_right_cancel' d h
  rwa [Nat.ModEq, Nat.mod_eq_of_lt hr, Nat.mod_eq_of_lt ht] at h

/-- A rank that has heard of all others is not ahead of any. -/
theorem Barrier.le_of_reach (hs : Barrier ep s) (hr : r < ep) (ht : t < ep)
    (hreach : ep ≤ (s.pc r).reach ep) : s.entered r ≤ s.entered t := by
  obtain ⟨d, hd, hdist⟩ := exists_distance hr ht
  exact hs.known r hr d (hd.trans_le hreach) t ht hdist

/-- A rank that goes on without signalling, knowing no more than it did. -/
theorem Barrier.goTo (hs : Barrier ep s) {pc : Pc} (hold : s.pc rank ≠ .fresh)
    (hnew : pc ≠ .fresh) (hhost : pc = .hostBarrier → s.pc rank = .hostBarrier)
    (hall : s.pc rank = .hostBarrier → ∀ t < ep, s.pc t ≠ .fresh)
    (hzeroed : s.pc rank = .hostBarrier ∨ s.pc rank = .zeroed → pc = .hostBarrier ∨ pc = .zeroed)
    (hsent : rank < ep → ∀ round, 2 ^ round < ep →
      (round < pc.sent ep ↔ round < (s.pc rank).sent ep))
    (hreach : rank < ep → ∀ d < pc.reach ep, ∀ t < ep, (t + d) % ep = rank →
      s.entered rank ≤ s.entered t)
    (hrounds : rank < ep → ∀ round, pc = .waiting round ∨ pc = .signalling (round + 1) →
      2 ^ round < ep) :
    Barrier ep (s.goTo rank pc) := by
  have hself : (s.goTo rank pc).pc rank = pc := Function.update_self _ _ _
  have hother : ∀ r ≠ rank, (s.goTo rank pc).pc r = s.pc r := fun r hr =>
    Function.update_of_ne hr _ _
  have hfresh : ∀ r, (s.goTo rank pc).pc r ≠ .fresh → s.pc r ≠ .fresh := by
    intro r hr
    by_cases heq : r = rank
    · rwa [heq]
    · rwa [hother r heq] at hr
  refine ⟨fun r hr hf hh t ht => ?_, fun r hr hpc => ?_, fun r hr hf hh hz => ?_, hs.fits,
    fun r hr hf => hs.word r hr (hfresh r hf), fun t ht hf round hround r hr hdist => ?_,
    fun r hr d hd t ht hdist => ?_, hs.near, fun r hr round hpc => ?_⟩
  · have hold' : s.pc t ≠ .fresh := by
      by_cases heq : r = rank
      · subst heq
        by_cases hb : s.pc r = .hostBarrier
        · exact hall hb t ht
        · exact hs.host r hr hold hb t ht
      · rw [hother r heq] at hf hh
        exact hs.host r hr hf hh t ht
    by_cases heq : t = rank
    · rwa [heq, hself]
    · rwa [hother t heq]
  · by_cases heq : r = rank
    · subst heq
      rw [hself] at hpc
      exact hs.unstarted r hr (Or.inr (hhost (hpc.resolve_left hnew)))
    · rw [hother r heq] at hpc
      exact hs.unstarted r hr hpc
  · by_cases heq : r = rank
    · subst heq
      rw [hself] at hh hz
      refine hs.started r hr hold (fun h => ?_) (fun h => ?_)
      · exact (hzeroed (Or.inl h)).elim hh hz
      · exact (hzeroed (Or.inr h)).elim hh hz
    · rw [hother r heq] at hf hh hz
      exact hs.started r hr hf hh hz
  · refine (hs.slot t ht (hfresh t hf) round hround r hr hdist).trans ?_
    by_cases heq : r = rank
    · subst heq
      simp only [lastSignal, hself, hsent hr round hround]
      rfl
    · rw [lastSignal, lastSignal, hother r heq]
      rfl
  · by_cases heq : r = rank
    · subst heq
      rw [hself] at hd
      exact hreach hr d hd t ht hdist
    · rw [hother r heq] at hd
      exact hs.known r hr d hd t ht hdist
  · by_cases heq : r = rank
    · subst heq
      rw [hself] at hpc
      exact hrounds hr round hpc
    · rw [hother r heq] at hpc
      exact hs.rounds r hr round hpc

/-- A wait joins the predecessors a rank has heard of with those of the rank that signalled. -/
theorem Barrier.wait (hs : Barrier ep s) (hr : r < ep) (hpc : s.pc r = .waiting round)
    (hge : s.generation r ≤ s.ready r (roundIndex round)) (hd : d < 2 ^ (round + 1)) (ht : t < ep)
    (hdist : (t + d) % ep = r) : s.entered r ≤ s.entered t := by
  have hround := hs.rounds r hr round (Or.inl hpc)
  have hknown := hs.known r hr
  rw [hpc] at hknown
  rcases lt_or_ge d (2 ^ round) with hlt | hle
  · exact hknown d hlt t ht hdist
  -- the rank at distance `2 ^ round` has heard of the ranks behind it
  obtain ⟨hpos, hgeneration⟩ := hs.started r hr (by simp [hpc]) (by simp [hpc]) (by simp [hpc])
  set q := (t + (d - 2 ^ round)) % ep with hq
  have hqep : q < ep := Nat.mod_lt _ (by omega)
  have hqr : (q + 2 ^ round) % ep = r := by
    rw [hq, Nat.mod_add_mod, ← hdist]
    congr 1
    omega
  have hslot := hs.slot r hr (by simp [hpc]) round hround q hqep hqr
  rw [hslot, hgeneration, Nat.cast_le, lastSignal] at hge
  have hnear := hs.near q hqep t ht
  by_cases hahead : s.entered r < s.entered q
  · omega
  · split_ifs at hge with hsent
    · have hreach : d - 2 ^ round < (s.pc q).reach ep := by
        rw [pow_succ] at hd
        cases hqpc : s.pc q with
        | signalling j =>
          rw [hqpc] at hsent
          exact lt_of_lt_of_le (by omega) (Nat.pow_le_pow_right two_pos (show round ≤ j from hsent.le))
        | waiting j =>
          rw [hqpc] at hsent
          exact lt_of_lt_of_le (by omega)
            (Nat.pow_le_pow_right two_pos (show round ≤ j from Nat.lt_succ_iff.1 hsent))
        | _ =>
          show d - 2 ^ round < ep
          omega
      exact hge.trans (hs.known q hqep _ hreach t ht hq.symm)
    · omega

theorem Barrier.congr (hs : Barrier ep s) (hpc : s'.pc = s.pc) (hentered : s'.entered = s.entered)
    (hgeneration : s'.generation = s.generation) (hready : s'.ready = s.ready) :
    Barrier ep s' := by
  obtain ⟨h₁, h₂, h₃, h₄, h₅, h₆, h₇, h₈, h₉⟩ := hs
  simp only [lastSignal, ← hpc, ← hentered, ← hgeneration, ← hready] at *
  exact ⟨h₁, h₂, h₃, h₄, h₅, h₆, h₇, h₈, h₉⟩

/-- Before the host barrier, no rank has entered a call. -/
theorem Barrier.unentered (hs : Barrier ep s) (hr : r < ep) (hpc : s.pc r = .fresh) (ht : t < ep) :
    s.entered t = 0 := by
  by_cases hfresh : s.pc t = .fresh
  · exact hs.unstarted t ht (Or.inl hfresh)
  by_cases hhost : s.pc t = .hostBarrier
  · exact hs.unstarted t ht (Or.inr hhost)
  · exact absurd hpc (hs.host t ht hfresh hhost r hr)

theorem Barrier.zeroAll (hs : Barrier ep s) (hrank : rank < ep) (hpc : s.pc rank = .fresh) :
    Barrier ep ({ s with
      counter := Function.update s.counter rank 0
      ready := Function.update s.ready rank fun _ => 0 }.goTo rank .hostBarrier) := by
  have hzero : ∀ t < ep, s.entered t = 0 := fun t ht => hs.unentered hrank hpc ht
  have hstart : ∀ r < ep, s.pc r = .fresh ∨ s.pc r = .hostBarrier := by
    intro r hr
    by_contra hnot
    rw [not_or] at hnot
    exact hs.host r hr hnot.1 hnot.2 rank hrank hpc
  have hstart' : ∀ r < ep, Function.update s.pc rank Pc.hostBarrier r = .fresh ∨
      Function.update s.pc rank Pc.hostBarrier r = .hostBarrier := by
    intro r hr
    by_cases heq : r = rank
    · rw [heq, Function.update_self]
      exact Or.inr rfl
    · rw [Function.update_of_ne heq]
      exact hstart r hr
  refine ⟨fun r hr hf hh => ((hstart' r hr).elim hf hh).elim, fun r hr _ => hzero r hr,
    fun r hr hf hh => ((hstart' r hr).elim hf hh).elim, hs.fits, fun r hr hf => ?_,
    fun t ht hf round hround r hr hdist => ?_, fun r hr d _ t ht _ => ?_, fun r hr t ht => ?_,
    fun r hr round hround => ?_⟩
  · show Function.update s.ready rank (fun _ => 0) r _ = (s.entered r : ℤ)
    by_cases heq : r = rank
    · rw [heq, Function.update_self, hzero rank hrank]
      rfl
    · rw [Function.update_of_ne heq]
      refine hs.word r hr fun hfresh => hf ?_
      show Function.update s.pc rank Pc.hostBarrier r = _
      rw [Function.update_of_ne heq, hfresh]
  · have hnew : ∀ s' : Handshake, s'.entered = s.entered → s'.lastSignal ep round r = 0 := by
      intro s' hentered
      rw [lastSignal, hentered, hzero r hr]
      split_ifs <;> rfl
    refine Eq.trans ?_ (congrArg (Nat.cast : ℕ → ℤ)
      (hnew (Handshake.goTo _ rank .hostBarrier) rfl).symm)
    show Function.update s.ready rank (fun _ => 0) t _ = _
    by_cases heq : t = rank
    · rw [heq, Function.update_self]
      rfl
    · rw [Function.update_of_ne heq, ← hnew s rfl]
      refine hs.slot t ht (fun hfresh => hf ?_) round hround r hr hdist
      show Function.update s.pc rank Pc.hostBarrier t = _
      rw [Function.update_of_ne heq, hfresh]
  · exact (hzero r hr).trans_le (Nat.zero_le _)
  · exact (hzero r hr).trans_le (Nat.zero_le _)
  · have hpc := hstart' r hr
    rcases hround with hround | hround
    all_goals
      rw [show Function.update s.pc rank Pc.hostBarrier r = _ from hround] at hpc
      simp at hpc

theorem toInt32_of_lt {n : ℕ} (h : n < 2 ^ 31) : toInt32 n = n := by
  rw [toInt32, Int.bmod_eq_of_le (by omega) (by omega)]

theorem Barrier.enter (hs : Barrier ep s) (hrank : rank < ep) (hpc : s.pc rank = .zeroed)
    (hfits : s.entered rank + 1 < 2 ^ 31) :
    Barrier ep (({ s with
        entered := Function.update s.entered rank (s.entered rank + 1)
        generation := Function.update s.generation rank
          (toInt32 (s.ready rank (generationIndex ep) + 1)) }.write rank (generationIndex ep)
        (toInt32 (s.ready rank (generationIndex ep) + 1))).goTo rank (.signalling 0)) := by
  have hword : toInt32 (s.ready rank (generationIndex ep) + 1) = (s.entered rank + 1 : ℕ) := by
    rw [hs.word rank hrank (by simp [hpc]), ← toInt32_of_lt hfits, Nat.cast_succ]
  rw [hword]
  set s' := (({ s with
      entered := Function.update s.entered rank (s.entered rank + 1)
      generation := Function.update s.generation rank ((s.entered rank + 1 : ℕ) : ℤ) }.write rank
        (generationIndex ep) (s.entered rank + 1 : ℕ)).goTo rank (.signalling 0)) with hs'
  have hpc' : s'.pc rank = .signalling 0 := Function.update_self _ _ _
  have hentered' : s'.entered rank = s.entered rank + 1 := Function.update_self _ _ _
  have hother : ∀ r ≠ rank, s'.pc r = s.pc r ∧ s'.entered r = s.entered r ∧
      s'.generation r = s.generation r := fun r hr =>
    ⟨Function.update_of_ne hr _ _, Function.update_of_ne hr _ _, Function.update_of_ne hr _ _⟩
  have hready : ∀ t index, index ≠ generationIndex ep → s'.ready t index = s.ready t index := by
    intro t index hindex
    show Function.update s.ready rank _ t index = _
    by_cases heq : t = rank
    · rw [heq, Function.update_self, Function.update_of_ne hindex]
    · rw [Function.update_of_ne heq]
  have hmono : ∀ t, s.entered t ≤ s'.entered t := by
    intro t
    by_cases heq : t = rank
    · rw [heq, hentered']
      exact Nat.le_succ _
    · rw [(hother t heq).2.1]
  have hnotFresh : ∀ t < ep, s.pc t ≠ .fresh := hs.host rank hrank (by simp [hpc]) (by simp [hpc])
  have hleast : ∀ t < ep, s.entered rank ≤ s.entered t := fun t ht =>
    hs.le_of_reach hrank ht (by rw [hpc]; exact le_rfl)
  refine ⟨fun r hr _ _ t ht => ?_, fun r hr h => ?_, fun r hr hf hh hz => ?_, fun r hr => ?_,
    fun r hr _ => ?_, fun t ht _ round hround r hr hdist => ?_, fun r hr d hd t ht hdist => ?_,
    fun r hr t ht => ?_, fun r hr round h => ?_⟩
  · by_cases heq : t = rank
    · rw [heq, hpc']
      simp
    · rw [(hother t heq).1]
      exact hnotFresh t ht
  · by_cases heq : r = rank
    · rw [heq, hpc'] at h
      simp at h
    · rw [(hother r heq).1] at h
      rw [(hother r heq).2.1]
      exact hs.unstarted r hr h
  · by_cases heq : r = rank
    · rw [heq, hentered']
      exact ⟨Nat.succ_pos _, Function.update_self _ _ _⟩
    · obtain ⟨h₁, h₂, h₃⟩ := hother r heq
      rw [h₁] at hf hh hz
      rw [h₂, h₃]
      exact hs.started r hr hf hh hz
  · by_cases heq : r = rank
    · rw [heq, hentered']
      exact hfits
    · rw [(hother r heq).2.1]
      exact hs.fits r hr
  · by_cases heq : r = rank
    · rw [heq, hentered']
      show Function.update s.ready rank _ rank _ = _
      rw [Function.update_self, Function.update_self]
    · rw [(hother r heq).2.1, ← hs.word r hr (hnotFresh r hr)]
      show Function.update s.ready rank _ r _ = _
      rw [Function.update_of_ne heq]
  · rw [hready t _ (roundIndex_ne_generationIndex hround),
      hs.slot t ht (hnotFresh t ht) round hround r hr hdist]
    congr 1
    by_cases heq : r = rank
    · subst heq
      have hlt : round < ep := Nat.lt_two_pow_self.trans hround
      simp [lastSignal, hpc, hpc', hentered', Pc.sent, hlt]
    · rw [lastSignal, lastSignal, (hother r heq).1, (hother r heq).2.1]
  · by_cases heq : r = rank
    · rw [heq, hpc'] at hd
      obtain rfl : d = 0 := Nat.lt_one_iff.1 hd
      rw [Nat.add_zero, Nat.mod_eq_of_lt ht] at hdist
      rw [hdist]
    · rw [(hother r heq).1] at hd
      rw [(hother r heq).2.1]
      exact (hs.known r hr d hd t ht hdist).trans (hmono t)
  · by_cases heq : r = rank
    · rw [heq, hentered']
      exact Nat.succ_le_succ ((hleast t ht).trans (hmono t))
    · rw [(hother r heq).2.1]
      exact (hs.near r hr t ht).trans (Nat.succ_le_succ (hmono t))
  · by_cases heq : r = rank
    · rw [heq, hpc'] at h
      simp at h
    · rw [(hother r heq).1] at h
      exact hs.rounds r hr round h

theorem Barrier.signal (hs : Barrier ep s) (hrank : rank < ep) (hpc : s.pc rank = .signalling round)
    (hround : 2 ^ round < ep) :
    Barrier ep ((s.write ((rank + 2 ^ round) % ep) (roundIndex round)
      (s.generation rank)).goTo rank (.waiting round)) := by
  set s' := (s.write ((rank + 2 ^ round) % ep) (roundIndex round)
    (s.generation rank)).goTo rank (.waiting round) with hs'
  have hpc' : s'.pc rank = .waiting round := Function.update_self _ _ _
  have hother : ∀ r ≠ rank, s'.pc r = s.pc r := fun r hr => Function.update_of_ne hr _ _
  have hgeneration := (hs.started rank hrank (by simp [hpc]) (by simp [hpc]) (by simp [hpc])).2
  have hnotFresh : ∀ t < ep, s.pc t ≠ .fresh := hs.host rank hrank (by simp [hpc]) (by simp [hpc])
  have hready : ∀ t index, index ≠ roundIndex round ∨ t ≠ (rank + 2 ^ round) % ep →
      s'.ready t index = s.ready t index := by
    intro t index h
    show Function.update s.ready ((rank + 2 ^ round) % ep) _ t index = _
    by_cases heq : t = (rank + 2 ^ round) % ep
    · rw [← heq, Function.update_self, Function.update_of_ne (h.resolve_right (not_not.2 heq))]
    · rw [Function.update_of_ne heq]
  have hlast : ∀ r < ep, ∀ j, j ≠ round ∨ r ≠ rank →
      s'.lastSignal ep j r = s.lastSignal ep j r := by
    intro r hr j h
    by_cases heq : r = rank
    · subst heq
      have hj : j < round + 1 ↔ j < round :=
        ⟨fun hlt => lt_of_le_of_ne (Nat.lt_succ_iff.1 hlt) (h.resolve_right (not_not.2 rfl)),
          Nat.lt_succ_of_lt⟩
      simp only [lastSignal, hpc, hpc', Pc.sent, hj]
      rfl
    · rw [lastSignal, lastSignal, hother r heq]
      rfl
  refine ⟨fun r hr _ _ t ht => ?_, fun r hr h => ?_, fun r hr hf hh hz => ?_, hs.fits,
    fun r hr hf => ?_, fun t ht _ j hj r hr hdist => ?_, fun r hr d hd t ht hdist => ?_, hs.near,
    fun r hr j h => ?_⟩
  · by_cases heq : t = rank
    · rw [heq, hpc']
      simp
    · rw [hother t heq]
      exact hnotFresh t ht
  · by_cases heq : r = rank
    · rw [heq, hpc'] at h
      simp at h
    · rw [hother r heq] at h
      exact hs.unstarted r hr h
  · by_cases heq : r = rank
    · subst heq
      exact hs.started r hr (by simp [hpc]) (by simp [hpc]) (by simp [hpc])
    · rw [hother r heq] at hf hh hz
      exact hs.started r hr hf hh hz
  · rw [hready r _ (Or.inl (roundIndex_ne_generationIndex hround).symm)]
    exact hs.word r hr (hnotFresh r hr)
  · have hold := hs.slot t ht (hnotFresh t ht) j hj r hr hdist
    by_cases hj' : j = round
    · subst hj'
      by_cases heq : r = rank
      · -- the slot that is written
        subst heq
        show Function.update s.ready ((r + 2 ^ j) % ep) _ t _ = _
        rw [hdist, Function.update_self, Function.update_self, hgeneration]
        rw [lastSignal, hpc', Pc.sent, if_pos (Nat.lt_succ_self j)]
        rfl
      · rw [hlast r hr j (Or.inr heq), hready t _ (Or.inr ?_)]
        · exact hold
        · rintro rfl
          exact heq (eq_of_add_mod_eq hr hrank hdist)
    · rw [hlast r hr j (Or.inl hj'), hready t _ (Or.inl fun h => hj' (roundIndex_injective h))]
      exact hold
  · by_cases heq : r = rank
    · subst heq
      rw [hpc'] at hd
      exact hs.known r hr d (by rwa [hpc]) t ht hdist
    · rw [hother r heq] at hd
      exact hs.known r hr d hd t ht hdist
  · by_cases heq : r = rank
    · rw [heq, hpc'] at h
      obtain rfl : round = j := by simpa using h
      exact hround
    · rw [hother r heq] at h
      exact hs.rounds r hr j h

/-- Every step that does not wrap the generation keeps the rounds in order. -/
theorem Barrier.step (hs : Barrier ep s) (hfits : s.Fits a) (h : Step ep puts s a s') :
    Barrier ep s' := by
  cases h with
  | zeroAll hrank hpc => exact hs.zeroAll hrank hpc
  | @passHostBarrier rank hrank hpc hall =>
    refine hs.goTo (by simp [hpc]) (by simp) (by simp) (fun _ => hall) (fun _ => Or.inr rfl)
      (fun _ round _ => by rw [hpc]; rfl) (fun _ d hd t ht hdist => ?_) (by simp)
    exact hs.known rank hrank d (by rw [hpc]; exact hd) t ht hdist
  | @zero rank hrank hpc =>
    have hs' : Barrier ep { s with counter := Function.update s.counter rank 0 } :=
      hs.congr rfl rfl rfl rfl
    refine hs'.goTo (by simp [hpc]) (by simp) (by simp) (by simp [hpc]) (by simp)
      (fun _ round _ => by simp [hpc, Pc.sent]) (fun _ d hd t ht hdist => ?_) (by simp)
    exact hs.known rank hrank d (by rw [hpc]; exact hd) t ht hdist
  | @enter rank hrank hpc => exact hs.enter hrank hpc (hfits rank rfl)
  | signal hrank hpc hround => exact hs.signal hrank hpc hround
  | @wait rank round hrank hpc hge =>
    refine hs.goTo (by simp [hpc]) (by simp) (by simp) (by simp [hpc]) (by simp [hpc])
      (fun _ j _ => by simp [hpc, Pc.sent]) (fun _ d hd t ht hdist => ?_) (fun _ j hj => ?_)
    · exact hs.wait hrank hpc hge hd ht hdist
    · obtain rfl : round = j := by simpa using hj
      exact hs.rounds rank hrank round (Or.inl hpc)
  | @publish rank round hrank hpc hround =>
    refine hs.goTo (by simp [hpc]) (by simp) (by simp) (by simp [hpc]) (by simp [hpc])
      (fun _ j hj => ?_) (fun _ d hd t ht hdist => ?_) (by simp)
    · rw [hpc]
      have hlt : j < round := by
        by_contra hle
        exact hround ((Nat.pow_le_pow_right two_pos (not_lt.1 hle)).trans_lt hj)
      exact iff_of_true (Nat.lt_two_pow_self.trans hj) hlt
    · refine hs.known rank hrank d ?_ t ht hdist
      rw [hpc]
      exact lt_of_lt_of_le hd (not_lt.1 hround)
  | put => exact hs.congr rfl rfl rfl rfl
  | @finishTasks rank hrank hpc =>
    refine hs.goTo (by simp [hpc]) (by simp) (by simp) (by simp [hpc]) (by simp [hpc])
      (fun _ round _ => by simp [hpc, Pc.sent]) (fun _ d hd t ht hdist => ?_) (by simp)
    exact hs.known rank hrank d (by rw [hpc]; exact hd) t ht hdist
  | deliver => exact hs.congr rfl rfl rfl rfl
  | @finish rank hrank hpc =>
    refine hs.goTo (by simp [hpc]) (by simp) (by simp) (by simp [hpc]) (by simp [hpc])
      (fun _ round _ => by simp [hpc, Pc.sent]) (fun _ d hd t ht hdist => ?_) (by simp)
    exact hs.known rank hrank d (by rw [hpc]; exact hd) t ht hdist

theorem barrier_initial (ep : ℕ) (generation : ℕ → ℤ) (ready : ℕ → ℕ → ℤ) (counter : ℕ → ℕ) :
    Barrier ep (initial generation ready counter) where
  host r _ h := absurd rfl h
  unstarted _ _ _ := rfl
  started r _ h := absurd rfl h
  fits _ _ := by
    show 0 < 2 ^ 31
    decide
  word r _ h := absurd rfl h
  slot t _ h := absurd rfl h
  known _ _ _ _ _ _ _ := le_rfl
  near _ _ _ _ := Nat.zero_le _
  rounds r _ round h := by simp [initial] at h

end Handshake

end HyperParallel.MegaMoe
