import Mathlib.Logic.Relation
import Mathlib.Order.Lattice.Nat
import Mathlib.Algebra.BigOperators.Group.Finset.Basic
import Mathlib.Algebra.Order.BigOperators.Group.Finset
import Mathlib.Data.List.Sort
import Mathlib.Tactic.Common

/-!
# Networks of sequential parties with rendezvous communication

Every party runs a straight-line program of local work, sends and receives.  A send and a
receive finish together, when each of the two parties has reached its own half: this is the
blocking point-to-point semantics, with the operations between two parties matched in order.

* `Op`, `Net`, `Step`: the programs left to run, and one step of the network;
* `Timed`: every communication carries a time, times increase along a program, and the two
  halves of one transfer carry the same time;
* `Timed.progress`, `Timed.step`, `Timed.matched`: a timed network is never stuck, stays timed,
  and only ever pairs the two halves of one transfer;
* `Timed.sendsTo_eq_recvsFrom`: what one party sends another is what the other receives, in order;
* `acc_of_support`: no run is infinite;
* `FailStep`, `completesDespite_iff`: local work may fail, and its party then never moves again;
* `Timed.of_comms_eq`: local work can be added and moved freely;
* `timed_ofTrace`: programs cut out of one global trace are timed.
-/

namespace Rendezvous

variable {P M C : Type*}

/-- One operation of a party: local work, or one half of a transfer. -/
inductive Op (P M C : Type*)
  | work (c : C)
  | send (peer : P) (msg : M)
  | recv (peer : P) (msg : M)
  deriving DecidableEq

/-- The operation needs another party. -/
def Op.IsComm : Op P M C → Prop
  | .work _ => False
  | .send _ _ => True
  | .recv _ _ => True

instance : DecidablePred (Op.IsComm : Op P M C → Prop)
  | .work _ => inferInstanceAs (Decidable False)
  | .send _ _ => inferInstanceAs (Decidable True)
  | .recv _ _ => inferInstanceAs (Decidable True)

@[simp] theorem isComm_work (c : C) : ¬ (Op.work c : Op P M C).IsComm := id
@[simp] theorem isComm_send (q : P) (m : M) : (Op.send q m : Op P M C).IsComm := trivial
@[simp] theorem isComm_recv (q : P) (m : M) : (Op.recv q m : Op P M C).IsComm := trivial

/-- What every party has left to run. -/
abbrev Net (P M C : Type*) := P → List (Op P M C)

/-- Every party has run to the end of its program. -/
def Done (s : Net P M C) : Prop := ∀ p, s p = []

variable [DecidableEq P]

/-- One step: a party does local work, or two parties at the two ends of a transfer finish it
together.  The messages are not compared: who meets whom is settled by the peers alone. -/
inductive Step : Net P M C → Net P M C → Prop
  | work {s : Net P M C} {p : P} {c : C} {l : List (Op P M C)} (h : s p = .work c :: l) :
      Step s (Function.update s p l)
  | sync {s : Net P M C} {p q : P} {m m' : M} {l l' : List (Op P M C)} (hpq : p ≠ q)
      (hp : s p = .send q m :: l) (hq : s q = .recv p m' :: l') :
      Step s (Function.update (Function.update s p l) q l')

/-- The states a network can reach. -/
abbrev Reaches : Net P M C → Net P M C → Prop := Relation.ReflTransGen Step

/-- Every transfer that can finish in some reachable state pairs equal messages. -/
def Matched (s : Net P M C) : Prop :=
  ∀ t, Reaches s t → ∀ p q m m' l l', t p = .send q m :: l → t q = .recv p m' :: l' → m = m'

/-- Every interleaving runs to the end: no reachable state is stuck before the end, and no
run goes on forever. -/
def Completes (s : Net P M C) : Prop :=
  (∀ t, Reaches s t → Done t ∨ ∃ u, Step t u) ∧ Acc (fun t u => Step u t) s

/-! ### Timed networks -/

/-- Programs whose operations carry times. -/
abbrev TimedNet (P M C : Type*) := P → List (ℕ × Op P M C)

/-- Forget the times. -/
def erase (s : TimedNet P M C) : Net P M C := fun p => (s p).map Prod.snd

/-- Times increase from one communication of a program to the next, and the two halves of a
transfer carry the same time. -/
structure Timed (s : TimedNet P M C) : Prop where
  increasing : ∀ p, (s p).Pairwise fun a b => a.2.IsComm → b.2.IsComm → a.1 < b.1
  send_recv : ∀ p q t m, (t, .send q m) ∈ s p → (t, .recv p m) ∈ s q
  recv_send : ∀ p q t m, (t, .recv p m) ∈ s q → (t, .send q m) ∈ s p

omit [DecidableEq P] in
theorem erase_eq_cons {s : TimedNet P M C} {p : P} {o : Op P M C} {l : List (Op P M C)}
    (h : erase s p = o :: l) : ∃ t l', s p = (t, o) :: l' ∧ l'.map Prod.snd = l := by
  unfold erase at h
  cases hs : s p with
  | nil => simp [hs] at h
  | cons x l' =>
    simp only [hs, List.map_cons, List.cons.injEq] at h
    exact ⟨x.1, l', by rw [← h.1], h.2⟩

theorem erase_update (s : TimedNet P M C) (p : P) (l : List (ℕ × Op P M C)) :
    erase (Function.update s p l) = Function.update (erase s) p (l.map Prod.snd) := by
  funext q
  by_cases hq : q = p
  · subst hq; simp [erase]
  · simp [erase, Function.update_of_ne hq]

section Timed

variable {s : TimedNet P M C}

omit [DecidableEq P] in
/-- A communication at the head of a program is the earliest one left in it. -/
theorem Timed.head_le (hs : Timed s) {p : P} {x y : ℕ × Op P M C} {l : List (ℕ × Op P M C)}
    (hp : s p = x :: l) (hx : x.2.IsComm) (hy : y ∈ s p) (hyc : y.2.IsComm) :
    x.1 < y.1 ∨ y = x := by
  have hinc := hs.increasing p
  rw [hp] at hinc hy
  rcases List.mem_cons.1 hy with rfl | hy
  · exact Or.inr rfl
  · exact Or.inl ((List.pairwise_cons.1 hinc).1 y hy hx hyc)

omit [DecidableEq P] in
/-- Two heads that face each other are the two halves of one transfer. -/
theorem Timed.heads_match (hs : Timed s) {p q : P} {t t' : ℕ} {m m' : M}
    {l l' : List (ℕ × Op P M C)} (hp : s p = (t, .send q m) :: l)
    (hq : s q = (t', .recv p m') :: l') : t = t' ∧ m = m' := by
  have hr : (t, Op.recv p m) ∈ s q := hs.send_recv p q t m (by simp [hp])
  have hsd : (t', Op.send q m') ∈ s p := hs.recv_send p q t' m' (by simp [hq])
  have h1 := hs.head_le hq (by simp) hr (by simp)
  have h2 := hs.head_le hp (by simp) hsd (by simp)
  rcases h1 with h1 | h1
  · rcases h2 with h2 | h2
    · simp only at h1 h2; omega
    · simp only [Prod.mk.injEq, Op.send.injEq, true_and] at h2
      exact ⟨h2.1.symm, h2.2.symm⟩
  · simp only [Prod.mk.injEq, Op.recv.injEq, true_and] at h1
    exact h1

/-- Dropping local work keeps a network timed. -/
theorem Timed.update_work (hs : Timed s) {p : P} {t : ℕ} {c : C} {l : List (ℕ × Op P M C)}
    (hp : s p = (t, .work c) :: l) : Timed (Function.update s p l : TimedNet P M C) := by
  have hmem : ∀ q x, x.2.IsComm →
      (x ∈ (Function.update s p l : TimedNet P M C) q ↔ x ∈ s q) := by
    intro q x hx
    by_cases hq : q = p
    · subst hq
      rw [Function.update_self, hp, List.mem_cons]
      refine ⟨Or.inr, fun h => h.resolve_left ?_⟩
      rintro rfl
      exact hx
    · rw [Function.update_of_ne hq]
  refine ⟨fun q => ?_, fun a b u m h => ?_, fun a b u m h => ?_⟩
  · by_cases hq : q = p
    · subst hq
      have := hs.increasing q
      rw [hp] at this
      rw [Function.update_self]
      exact (List.pairwise_cons.1 this).2
    · rw [Function.update_of_ne hq]
      exact hs.increasing q
  · rw [hmem _ _ (by simp)] at h ⊢
    exact hs.send_recv a b u m h
  · rw [hmem _ _ (by simp)] at h ⊢
    exact hs.recv_send a b u m h

/-- Dropping both halves of a transfer keeps a network timed. -/
theorem Timed.update_sync (hs : Timed s) {p q : P} {t : ℕ} {m : M}
    {l l' : List (ℕ × Op P M C)} (hpq : p ≠ q) (hp : s p = (t, .send q m) :: l)
    (hq : s q = (t, .recv p m) :: l') :
    Timed (Function.update (Function.update s p l) q l' : TimedNet P M C) := by
  -- what is left at `p` and `q` is later than the transfer that just finished
  have hlp : ∀ x ∈ l, x.2.IsComm → t < x.1 := by
    have := hs.increasing p
    rw [hp] at this
    exact fun x hx hxc => (List.pairwise_cons.1 this).1 x hx (by simp) hxc
  have hlq : ∀ x ∈ l', x.2.IsComm → t < x.1 := by
    have := hs.increasing q
    rw [hq] at this
    exact fun x hx hxc => (List.pairwise_cons.1 this).1 x hx (by simp) hxc
  have hmem : ∀ r x, x ∈ (Function.update (Function.update s p l) q l' : TimedNet P M C) r ↔
      (x ∈ s r ∧ (r = p → x ∈ l) ∧ (r = q → x ∈ l')) := by
    intro r x
    by_cases h2 : r = q
    · subst h2
      rw [Function.update_self, hq]
      exact ⟨fun h => ⟨List.mem_cons_of_mem _ h, fun h' => absurd h'.symm hpq, fun _ => h⟩,
        fun h => h.2.2 rfl⟩
    · rw [Function.update_of_ne h2]
      by_cases h1 : r = p
      · subst h1
        rw [Function.update_self, hp]
        exact ⟨fun h => ⟨List.mem_cons_of_mem _ h, fun _ => h, fun h' => absurd h' hpq⟩,
          fun h => h.2.1 rfl⟩
      · rw [Function.update_of_ne h1]
        exact ⟨fun h => ⟨h, fun h' => absurd h' h1, fun h' => absurd h' h2⟩, fun h => h.1⟩
  refine ⟨fun r => ?_, fun a b u m' h => ?_, fun a b u m' h => ?_⟩
  · by_cases h2 : r = q
    · subst h2
      have := hs.increasing r
      rw [hq] at this
      rw [Function.update_self]
      exact (List.pairwise_cons.1 this).2
    · rw [Function.update_of_ne h2]
      by_cases h1 : r = p
      · subst h1
        have := hs.increasing r
        rw [hp] at this
        rw [Function.update_self]
        exact (List.pairwise_cons.1 this).2
      · rw [Function.update_of_ne h1]
        exact hs.increasing r
  · rw [hmem] at h ⊢
    have hr := hs.send_recv a b u m' h.1
    refine ⟨hr, fun hb => ?_, fun hb => ?_⟩
    · subst hb
      rw [hp, List.mem_cons] at hr
      exact hr.resolve_left (by simp)
    · subst hb
      rw [hq, List.mem_cons] at hr
      refine hr.resolve_left fun heq => ?_
      simp only [Prod.mk.injEq, Op.recv.injEq] at heq
      obtain ⟨rfl, rfl, rfl⟩ := heq
      exact absurd (hlp _ (h.2.1 rfl) (by simp)) (lt_irrefl _)
  · rw [hmem] at h ⊢
    have hr := hs.recv_send a b u m' h.1
    refine ⟨hr, fun ha => ?_, fun ha => ?_⟩
    · subst ha
      rw [hp, List.mem_cons] at hr
      refine hr.resolve_left fun heq => ?_
      simp only [Prod.mk.injEq, Op.send.injEq] at heq
      obtain ⟨rfl, rfl, rfl⟩ := heq
      exact absurd (hlq _ (h.2.2 rfl) (by simp)) (lt_irrefl _)
    · subst ha
      rw [hq, List.mem_cons] at hr
      exact hr.resolve_left (by simp)

end Timed

/-! ### Runs of a timed network -/

/-- A step of a timed network ends in a timed network. -/
theorem Timed.step {s : TimedNet P M C} (hs : Timed s) {u : Net P M C} (h : Step (erase s) u) :
    ∃ s', Timed s' ∧ erase s' = u := by
  cases h with
  | work hp =>
    obtain ⟨t, l', hl, rfl⟩ := erase_eq_cons hp
    exact ⟨_, hs.update_work hl, erase_update s _ l'⟩
  | sync hpq hp hq =>
    obtain ⟨t, l₁, hl₁, rfl⟩ := erase_eq_cons hp
    obtain ⟨t', l₂, hl₂, rfl⟩ := erase_eq_cons hq
    obtain ⟨rfl, rfl⟩ := hs.heads_match hl₁ hl₂
    exact ⟨_, hs.update_sync hpq hl₁ hl₂, by rw [erase_update, erase_update]⟩

theorem Timed.reaches {s : TimedNet P M C} (hs : Timed s) {u : Net P M C}
    (h : Reaches (erase s) u) : ∃ s', Timed s' ∧ erase s' = u := by
  induction h with
  | refl => exact ⟨s, hs, rfl⟩
  | tail _ hstep ih =>
    obtain ⟨s', hs', rfl⟩ := ih
    exact hs'.step hstep

/-- A timed network that has not reached the end can move: the earliest communication at the
head of a program is facing its other half. -/
theorem Timed.progress {s : TimedNet P M C} (hs : Timed s) :
    Done (erase s) ∨ ∃ u, Step (erase s) u := by
  classical
  by_cases hdone : ∀ p, s p = []
  · exact Or.inl fun p => by simp [erase, hdone p]
  right
  push Not at hdone
  obtain ⟨p₀, hp₀⟩ := hdone
  by_cases hwork : ∃ p c l, erase s p = .work c :: l
  · obtain ⟨p, c, l, hp⟩ := hwork
    exact ⟨_, .work hp⟩
  have hcomm : ∀ p x l, s p = x :: l → x.2.IsComm := by
    rintro p ⟨t, o⟩ l hp
    cases o with
    | work c => exact absurd ⟨p, c, l.map Prod.snd, by simp [erase, hp]⟩ hwork
    | send q m => simp
    | recv q m => simp
  -- the times of the heads, and a party whose head is earliest
  let heads : Set ℕ := {t | ∃ p x l, s p = x :: l ∧ x.1 = t}
  have hne : heads.Nonempty := by
    obtain ⟨x, l, hx⟩ := List.exists_cons_of_ne_nil hp₀
    exact ⟨x.1, p₀, x, l, hx, rfl⟩
  obtain ⟨p, x, l, hp, hx⟩ := Nat.sInf_mem hne
  have hmin : ∀ q y l', s q = y :: l' → x.1 ≤ y.1 := fun q y l' hq => by
    rw [hx]; exact Nat.sInf_le ⟨q, y, l', hq, rfl⟩
  -- the other half of the earliest head is itself a head
  have hhead : ∀ q o, (x.1, o) ∈ s q → o.IsComm → ∃ l', s q = (x.1, o) :: l' := by
    intro q o ho hoc
    obtain ⟨y, l', hq⟩ := List.exists_cons_of_ne_nil (List.ne_nil_of_mem ho)
    rcases hs.head_le hq (hcomm q y l' hq) ho hoc with h | h
    · exact absurd h (not_lt.2 (hmin q y l' hq))
    · exact ⟨l', by rw [hq, h]⟩
  obtain ⟨t, o⟩ := x
  cases o with
  | work c => exact absurd (hcomm p _ l hp) (by simp)
  | send q m =>
    have hr : (t, Op.recv p m) ∈ s q := hs.send_recv p q t m (by simp [hp])
    obtain ⟨l', hq⟩ := hhead q _ hr (by simp)
    have hpq : p ≠ q := by
      rintro rfl
      rw [hp] at hq
      simp at hq
    exact ⟨_, .sync hpq (show erase s p = .send q m :: l.map Prod.snd by simp [erase, hp])
      (show erase s q = .recv p m :: l'.map Prod.snd by simp [erase, hq])⟩
  | recv q m =>
    have hr : (t, Op.send p m) ∈ s q := hs.recv_send q p t m (by simp [hp])
    obtain ⟨l', hq⟩ := hhead q _ hr (by simp)
    have hpq : q ≠ p := by
      rintro rfl
      rw [hp] at hq
      simp at hq
    exact ⟨_, .sync hpq (show erase s q = .send p m :: l'.map Prod.snd by simp [erase, hq])
      (show erase s p = .recv q m :: l.map Prod.snd by simp [erase, hp])⟩

/-- A timed network only ever pairs the two halves of one transfer. -/
theorem Timed.matched {s : TimedNet P M C} (hs : Timed s) : Matched (erase s) := by
  intro t ht p q m m' l l' hp hq
  obtain ⟨s', hs', rfl⟩ := hs.reaches ht
  obtain ⟨t₁, l₁, hl₁, -⟩ := erase_eq_cons hp
  obtain ⟨t₂, l₂, hl₂, -⟩ := erase_eq_cons hq
  exact (hs'.heads_match hl₁ hl₂).2

/-! ### The messages on one channel -/

/-- The message of a send to `q`. -/
def Op.sendTo (q : P) : Op P M C → Option M
  | .send r m => if r = q then some m else none
  | _ => none

/-- The message of a receive from `q`. -/
def Op.recvFrom (q : P) : Op P M C → Option M
  | .recv r m => if r = q then some m else none
  | _ => none

theorem sendTo_eq_some {q : P} {o : Op P M C} {m : M} : o.sendTo q = some m ↔ o = .send q m := by
  cases o with
  | work c => simp [Op.sendTo]
  | send r m' => by_cases hr : r = q <;> simp [Op.sendTo, hr]
  | recv r m' => simp [Op.sendTo]

theorem recvFrom_eq_some {q : P} {o : Op P M C} {m : M} :
    o.recvFrom q = some m ↔ o = .recv q m := by
  cases o with
  | work c => simp [Op.recvFrom]
  | send r m' => simp [Op.recvFrom]
  | recv r m' => by_cases hr : r = q <;> simp [Op.recvFrom, hr]

/-- The messages a program sends to `q`, in order. -/
def sendsTo (q : P) (l : List (Op P M C)) : List M := l.filterMap (Op.sendTo q)

/-- The messages a program receives from `q`, in order. -/
def recvsFrom (q : P) (l : List (Op P M C)) : List M := l.filterMap (Op.recvFrom q)

omit [DecidableEq P] in
/-- The times of the communications that `f` picks out of a program are increasing. -/
theorem increasing_filterMap {l : List (ℕ × Op P M C)} {f : Op P M C → Option M}
    (hf : ∀ o m, f o = some m → o.IsComm)
    (hl : l.Pairwise fun a b => a.2.IsComm → b.2.IsComm → a.1 < b.1) :
    (l.filterMap fun x => (f x.2).map (x.1, ·)).Pairwise fun a b => a.1 < b.1 := by
  refine hl.filterMap _ fun x y hxy a ha b hb => ?_
  obtain ⟨m, hm, rfl⟩ := Option.map_eq_some_iff.1 ha
  obtain ⟨m', hm', rfl⟩ := Option.map_eq_some_iff.1 hb
  exact hxy (hf _ _ hm) (hf _ _ hm')

/-- In a timed network, what `p` sends to `q` is what `q` receives from `p`, in order. -/
theorem Timed.sendsTo_eq_recvsFrom {s : TimedNet P M C} (hs : Timed s) (p q : P) :
    sendsTo q (erase s p) = recvsFrom p (erase s q) := by
  have hsend := increasing_filterMap (f := Op.sendTo q)
    (fun o m h => by rw [sendTo_eq_some.1 h]; simp) (hs.increasing p)
  have hrecv := increasing_filterMap (f := Op.recvFrom p)
    (fun o m h => by rw [recvFrom_eq_some.1 h]; simp) (hs.increasing q)
  -- the two timed channels are increasing and have the same entries
  have heq : ((s p).filterMap fun x => (x.2.sendTo q).map (x.1, ·)) =
      (s q).filterMap fun x => (x.2.recvFrom p).map (x.1, ·) := by
    have : Std.Irrefl fun a b : ℕ × M => a.1 < b.1 := ⟨fun a => lt_irrefl a.1⟩
    have : Std.Antisymm fun a b : ℕ × M => a.1 < b.1 := ⟨fun a b h h' => by omega⟩
    refine List.Pairwise.eq_of_mem_iff hsend hrecv fun ⟨t, m⟩ => ?_
    simp only [List.mem_filterMap, Option.map_eq_some_iff, Prod.mk.injEq, Prod.exists,
      sendTo_eq_some, recvFrom_eq_some]
    constructor
    · rintro ⟨t', o, ho, m', rfl, rfl, rfl⟩
      exact ⟨t', _, hs.send_recv p q t' m' ho, m', rfl, rfl, rfl⟩
    · rintro ⟨t', o, ho, m', rfl, rfl, rfl⟩
      exact ⟨t', _, hs.recv_send p q t' m' ho, m', rfl, rfl, rfl⟩
  have := congrArg (List.map Prod.snd) heq
  simpa [sendsTo, recvsFrom, erase, List.map_filterMap, List.filterMap_map, Function.comp_def,
    Option.map_map] using this

/-! ### Every run is finite -/

/-- One step shortens what is left to run. -/
theorem sum_length_lt {s t : Net P M C} (F : Finset P) (hF : ∀ p ∉ F, s p = [])
    (h : Step s t) :
    (∀ p ∉ F, t p = []) ∧ ∑ p ∈ F, (t p).length < ∑ p ∈ F, (s p).length := by
  have key : ∀ p o l, s p = o :: l → ∀ t : Net P M C, t p = l →
      (∀ q, (t q).length ≤ (s q).length) →
      ∑ q ∈ F, (t q).length < ∑ q ∈ F, (s q).length := by
    intro p o l hp t ht hle
    have hpF : p ∈ F := by
      by_contra hpF
      simp [hF p hpF] at hp
    exact Finset.sum_lt_sum (fun q _ => hle q) ⟨p, hpF, by simp [hp, ht]⟩
  have hnil : (∀ q, (t q).length ≤ (s q).length) → ∀ q ∉ F, t q = [] := by
    intro hle q hq
    have := hle q
    rw [hF q hq] at this
    exact List.length_eq_zero_iff.1 (by simpa using this)
  cases h with
  | @work p c l hp =>
    have hle : ∀ q, (Function.update s p l q).length ≤ (s q).length := by
      intro q
      by_cases hq : q = p
      · subst hq; simp [hp]
      · rw [Function.update_of_ne hq]
    exact ⟨hnil hle, key p _ l hp _ (Function.update_self ..) hle⟩
  | @sync p q m m' l l' hpq hp hq =>
    have hle : ∀ r, (Function.update (Function.update s p l) q l' r).length ≤ (s r).length := by
      intro r
      by_cases hrq : r = q
      · subst hrq; simp [hq]
      · rw [Function.update_of_ne hrq]
        by_cases hrp : r = p
        · subst hrp; simp [hp]
        · rw [Function.update_of_ne hrp]
    exact ⟨hnil hle, key q _ l' hq _ (Function.update_self ..) hle⟩

/-- A network with finitely many programs left to run has no infinite run. -/
theorem acc_of_support (F : Finset P) (s : Net P M C) (hF : ∀ p ∉ F, s p = []) :
    Acc (fun t u => Step u t) s := by
  induction hn : ∑ p ∈ F, (s p).length using Nat.strong_induction_on generalizing s with
  | _ n ih =>
    refine ⟨_, fun t ht => ?_⟩
    obtain ⟨hF', hlt⟩ := sum_length_lt F hF ht
    exact ih _ (hn ▸ hlt) t hF' rfl

/-- A timed network with finitely many programs runs to the end from every interleaving. -/
theorem Timed.completes {s : TimedNet P M C} (hs : Timed s) (F : Finset P)
    (hF : ∀ p ∉ F, s p = []) : Completes (erase s) := by
  refine ⟨fun t ht => ?_, acc_of_support F _ fun p hp => by simp [erase, hF p hp]⟩
  obtain ⟨s', hs', rfl⟩ := hs.reaches ht
  exact hs'.progress

/-! ### Work that fails -/

section Fails

variable (fails : C → Prop)

/-- One step when some local work fails: a party that has come to such work never moves again. -/
inductive FailStep : Net P M C → Net P M C → Prop
  | work {s : Net P M C} {p : P} {c : C} {l : List (Op P M C)} (h : s p = .work c :: l)
      (hc : ¬ fails c) : FailStep s (Function.update s p l)
  | sync {s : Net P M C} {p q : P} {m m' : M} {l l' : List (Op P M C)} (hpq : p ≠ q)
      (hp : s p = .send q m :: l) (hq : s q = .recv p m' :: l') :
      FailStep s (Function.update (Function.update s p l) q l')

/-- Every interleaving runs to the end although work may fail. -/
def CompletesDespite (s : Net P M C) : Prop :=
  (∀ t, Relation.ReflTransGen (FailStep fails) s t → Done t ∨ ∃ u, FailStep fails t u) ∧
    Acc (fun t u => FailStep fails u t) s

variable {fails} {s t : Net P M C}

theorem FailStep.step (h : FailStep fails s t) : Step s t := by
  cases h with
  | work h _ => exact .work h
  | sync hpq hp hq => exact .sync hpq hp hq

/-- A step only shortens the programs. -/
theorem Step.subset (h : Step s t) (p : P) : t p ⊆ s p := by
  cases h with
  | @work q c l hq =>
    by_cases hp : p = q
    · subst hp; simp [hq]
    · rw [Function.update_of_ne hp]; exact List.Subset.refl _
  | @sync q r m m' l l' hqr hq hr =>
    by_cases hpr : p = r
    · subst hpr; simp [hr]
    · rw [Function.update_of_ne hpr]
      by_cases hpq : p = q
      · subst hpq; simp [hq]
      · rw [Function.update_of_ne hpq]; exact List.Subset.refl _

/-- Where no work fails, a step is a step. -/
theorem Step.failStep (hs : ∀ p c, .work c ∈ s p → ¬ fails c) (h : Step s t) :
    FailStep fails s t := by
  cases h with
  | work h => exact .work h (hs _ _ (h ▸ List.mem_cons_self))
  | sync hpq hp hq => exact .sync hpq hp hq

/-- Failing work stays where it is. -/
theorem FailStep.mem {p : P} {c : C} (hc : fails c) (h : FailStep fails s t)
    (hmem : .work c ∈ s p) : .work c ∈ t p := by
  cases h with
  | @work q d l hq hd =>
    by_cases hp : p = q
    · subst hp
      rw [hq, List.mem_cons] at hmem
      rw [Function.update_self]
      exact hmem.resolve_left fun heq => hd (Op.work.inj heq ▸ hc)
    · rwa [Function.update_of_ne hp]
  | @sync q r m m' l l' hqr hq hr =>
    by_cases hpr : p = r
    · subst hpr
      rw [hr, List.mem_cons] at hmem
      rw [Function.update_self]
      exact hmem.resolve_left (by simp)
    · rw [Function.update_of_ne hpr]
      by_cases hpq : p = q
      · subst hpq
        rw [hq, List.mem_cons] at hmem
        rw [Function.update_self]
        exact hmem.resolve_left (by simp)
      · rwa [Function.update_of_ne hpq]

/-- A network that completes when all work succeeds completes exactly if no party comes to work
that fails. -/
theorem completesDespite_iff (hs : Completes s) :
    CompletesDespite fails s ↔ ∀ p c, .work c ∈ s p → ¬ fails c := by
  constructor
  · rintro ⟨hstuck, hacc⟩ p c hmem hc
    -- every run ends, and at its end the failing work is still to be done
    have hend : ∀ t, Acc (fun t u => FailStep fails u t) t →
        Relation.ReflTransGen (FailStep fails) s t → .work c ∈ t p → False := by
      intro t ht
      induction ht with
      | intro t _ ih =>
        intro hreach hmem
        rcases hstuck t hreach with hdone | ⟨u, hu⟩
        · simp [hdone p] at hmem
        · exact ih u hu (hreach.tail hu) (hu.mem hc hmem)
    exact hend s hacc .refl hmem
  · intro hgood
    have hreach : ∀ t, Relation.ReflTransGen (FailStep fails) s t → Reaches s t ∧
        ∀ p c, .work c ∈ t p → ¬ fails c := by
      intro t ht
      induction ht with
      | refl => exact ⟨.refl, hgood⟩
      | tail _ hstep ih =>
        exact ⟨ih.1.tail hstep.step, fun p c hmem => ih.2 p c (hstep.step.subset p hmem)⟩
    refine ⟨fun t ht => ?_, Subrelation.accessible FailStep.step hs.2⟩
    obtain ⟨ht, hwork⟩ := hreach t ht
    exact (hs.1 t ht).imp id fun ⟨u, hu⟩ => ⟨u, hu.failStep hwork⟩

end Fails

/-! ### Local work does not matter -/

/-- The communications of a program. -/
def comms (l : List (Op P M C)) : List (Op P M C) := l.filter (Op.IsComm ·)

omit [DecidableEq P] in
/-- Times for the communications of a program are times for the program. -/
theorem exists_times (l : List (Op P M C)) (T : List (ℕ × Op P M C))
    (hT : T.map Prod.snd = comms l) :
    ∃ L : List (ℕ × Op P M C), L.map Prod.snd = l ∧ L.filter (·.2.IsComm) = T := by
  induction l generalizing T with
  | nil =>
    obtain rfl := List.map_eq_nil_iff.1 hT
    exact ⟨[], rfl, rfl⟩
  | cons o l ih =>
    by_cases ho : o.IsComm
    · have hcons : comms (o :: l) = o :: comms l := by simp [comms, ho]
      rw [hcons] at hT
      obtain ⟨x, T', rfl, rfl, hT'⟩ := List.map_eq_cons_iff.1 hT
      obtain ⟨L, hL, hf⟩ := ih T' hT'
      exact ⟨x :: L, by simp [hL], by simp [ho, hf]⟩
    · have hcons : comms (o :: l) = comms l := by simp [comms, ho]
      rw [hcons] at hT
      obtain ⟨L, hL, hf⟩ := ih T hT
      exact ⟨(0, o) :: L, by simp [hL], by simp [ho, hf]⟩

omit [DecidableEq P] in
/-- A network with the communications of a timed network is timed itself. -/
theorem Timed.of_comms_eq {ts : TimedNet P M C} (hts : Timed ts) {s : Net P M C}
    (h : ∀ p, comms (s p) = comms (erase ts p)) : ∃ ts', Timed ts' ∧ erase ts' = s := by
  have hex : ∀ p, ∃ L : List (ℕ × Op P M C), L.map Prod.snd = s p ∧
      L.filter (·.2.IsComm) = (ts p).filter (·.2.IsComm) := fun p => by
    refine exists_times _ _ ?_
    rw [h p]
    simp [comms, erase, List.filter_map, Function.comp_def]
  choose L hL hf using hex
  have hmem : ∀ p x, x.2.IsComm → (x ∈ L p ↔ x ∈ ts p) := fun p x hx => by
    have := congrArg (x ∈ ·) (hf p)
    simpa [List.mem_filter, hx] using this
  refine ⟨L, ⟨fun p => ?_, fun p q t m hp => ?_, fun p q t m hq => ?_⟩, funext hL⟩
  · have hinc := hts.increasing p
    have hfilter : ∀ l : List (ℕ × Op P M C),
        (l.Pairwise fun a b => a.2.IsComm → b.2.IsComm → a.1 < b.1) ↔
          (l.filter (·.2.IsComm)).Pairwise fun a b => a.1 < b.1 := fun l => by
      rw [List.pairwise_filter]
      simp
    rw [hfilter, hf, ← hfilter]
    exact hinc
  · rw [hmem _ _ (by simp)] at hp ⊢
    exact hts.send_recv p q t m hp
  · rw [hmem _ _ (by simp)] at hq ⊢
    exact hts.recv_send p q t m hq

/-! ### Programs cut out of one global trace -/

/-- One event of a global trace: local work of a party, or a whole transfer. -/
inductive Event (P M C : Type*)
  | work (p : P) (c : C)
  | transfer (p q : P) (m : M)

/-- The part of an event a party takes. -/
def Event.at (p : P) : Event P M C → List (Op P M C)
  | .work q c => if q = p then [.work c] else []
  | .transfer q r m => (if q = p then [.send r m] else []) ++ (if r = p then [.recv q m] else [])

/-- The program of every party in a global trace. -/
def ofTrace (tr : List (Event P M C)) : Net P M C := fun p => tr.flatMap (Event.at p)

/-- The programs of a global trace, timed by the position of the event. -/
def timedOfTrace (tr : List (Event P M C)) : TimedNet P M C := fun p =>
  tr.zipIdx.flatMap fun e => (Event.at p e.1).map (e.2, ·)

theorem erase_timedOfTrace (tr : List (Event P M C)) : erase (timedOfTrace tr) = ofTrace tr := by
  funext p
  have : ∀ n, ((tr.zipIdx n).flatMap fun e => (Event.at p e.1).map (e.2, ·)).map Prod.snd =
      tr.flatMap (Event.at p) := by
    intro n
    induction tr generalizing n with
    | nil => rfl
    | cons e tr ih => simp [List.zipIdx_cons, ih, Function.comp_def]
  exact this 0

theorem mem_timedOfTrace {tr : List (Event P M C)} {p : P} {t : ℕ} {o : Op P M C} :
    (t, o) ∈ timedOfTrace tr p ↔ ∃ e, tr[t]? = some e ∧ o ∈ Event.at p e := by
  simp only [timedOfTrace, List.mem_flatMap, List.mem_map, Prod.mk.injEq, Prod.exists,
    List.mem_zipIdx_iff_getElem?]
  constructor
  · rintro ⟨e, n, he, o', ho', rfl, rfl⟩
    exact ⟨e, he, ho'⟩
  · rintro ⟨e, he, ho⟩
    exact ⟨e, t, he, o, ho, rfl, rfl⟩

/-- Programs cut out of a global trace without self-transfers are timed by the trace. -/
theorem timed_ofTrace (tr : List (Event P M C))
    (hne : ∀ p q m, Event.transfer p q m ∈ tr → p ≠ q) : Timed (timedOfTrace tr) := by
  refine ⟨fun p => ?_, fun p q t m h => ?_, fun p q t m h => ?_⟩
  · have hmem : ∀ e ∈ tr.zipIdx, ∀ q r m, e.1 = .transfer q r m → q ≠ r := by
      intro e he q r m h
      exact hne q r m (h ▸ (List.mem_zipIdx' he).2 ▸ List.getElem_mem _)
    unfold timedOfTrace
    rw [List.pairwise_flatMap]
    constructor
    · intro e he
      obtain ⟨e, n⟩ := e
      cases e with
      | work q c =>
        by_cases hq : q = p <;> simp [Event.at, hq]
      | transfer q r m =>
        have := hmem _ he q r m rfl
        by_cases hq : q = p <;> by_cases hr : r = p <;> simp [Event.at, hq, hr]
        exact this (hq.trans hr.symm)
    · have hlt : tr.zipIdx.Pairwise fun a b => a.2 < b.2 := by
        rw [List.pairwise_iff_getElem]
        intro i j hi hj hij
        simpa using hij
      refine hlt.imp fun {a b} hab x hx y hy _ _ => ?_
      obtain ⟨o, -, rfl⟩ := List.mem_map.1 hx
      obtain ⟨o', -, rfl⟩ := List.mem_map.1 hy
      exact hab
  · rw [mem_timedOfTrace] at h ⊢
    obtain ⟨e, he, ho⟩ := h
    refine ⟨e, he, ?_⟩
    cases e with
    | work r c => by_cases hr : r = p <;> simp [Event.at, hr] at ho
    | transfer a b m' =>
      simp only [Event.at, List.mem_append] at ho ⊢
      rcases ho with ho | ho
      · by_cases ha : a = p
        · simp only [ha, if_true, List.mem_singleton, Op.send.injEq] at ho
          right; simp [ha, ho.1, ho.2]
        · simp [ha] at ho
      · by_cases hb : b = p <;> simp [hb] at ho
  · rw [mem_timedOfTrace] at h ⊢
    obtain ⟨e, he, ho⟩ := h
    refine ⟨e, he, ?_⟩
    cases e with
    | work r c => by_cases hr : r = q <;> simp [Event.at, hr] at ho
    | transfer a b m' =>
      simp only [Event.at, List.mem_append] at ho ⊢
      rcases ho with ho | ho
      · by_cases ha : a = q <;> simp [ha] at ho
      · by_cases hb : b = q
        · simp only [hb, if_true, List.mem_singleton, Op.recv.injEq] at ho
          left; simp [hb, ho.1, ho.2]
        · simp [hb] at ho

/-- A network with the communications of one global trace runs to the end from every
interleaving, pairs only the two halves of one transfer, and what one party sends another is what
the other receives. -/
theorem ofTrace_completes (tr : List (Event P M C))
    (hne : ∀ p q m, Event.transfer p q m ∈ tr → p ≠ q) {s : Net P M C}
    (hs : ∀ p, comms (s p) = comms (ofTrace tr p)) (F : Finset P) (hF : ∀ p ∉ F, s p = []) :
    Completes s ∧ Matched s ∧ ∀ p q, sendsTo q (s p) = recvsFrom p (s q) := by
  rw [← erase_timedOfTrace] at hs
  obtain ⟨ts, hts, rfl⟩ := (timed_ofTrace tr hne).of_comms_eq hs
  exact ⟨hts.completes F fun p hp => List.map_eq_nil_iff.1 (hF p hp), hts.matched,
    hts.sendsTo_eq_recvsFrom⟩

/-! ### Other messages and other work -/

section Map

variable {M' C' : Type*} (f : M → M') (g : C → C')

/-- The operation with its message or its work renamed. -/
def Op.map : Op P M C → Op P M' C'
  | .work c => .work (g c)
  | .send q m => .send q (f m)
  | .recv q m => .recv q (f m)

def Event.map : Event P M C → Event P M' C'
  | .work p c => .work p (g c)
  | .transfer p q m => .transfer p q (f m)

omit [DecidableEq P] in
theorem comms_map (l : List (Op P M C)) :
    comms (l.map (Op.map f g)) = (comms l).map (Op.map f g) := by
  rw [comms, comms, List.filter_map]
  congr 2
  funext o
  cases o <;> rfl

theorem ofTrace_map (tr : List (Event P M C)) (p : P) :
    ofTrace (tr.map (Event.map f g)) p = (ofTrace tr p).map (Op.map f g) := by
  rw [ofTrace, ofTrace, List.flatMap_map, List.map_flatMap]
  refine List.flatMap_congr fun e _ => ?_
  cases e with
  | work q c => by_cases hq : q = p <;> simp [Event.map, Event.at, hq, Op.map]
  | transfer q r m =>
    by_cases hq : q = p <;> by_cases hr : r = p <;> simp [Event.map, Event.at, hq, hr, Op.map]

end Map

end Rendezvous
