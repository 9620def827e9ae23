import Mathlib.Logic.Function.Basic
import Mathlib.Logic.Relation
import Mathlib.Data.List.Pairwise
import Mathlib.Order.Basic
import Mathlib.Order.Fin.Basic
import Mathlib.Tactic.Common
import Mathlib.Data.Fintype.Basic
import Mathlib.Data.Finset.Max
import Mathlib.Data.List.Sort

/-!
# Ordered collective operations

Every rank issues a list of collective operations, in order and without waiting for the others,
but with at most a fixed number in flight; it waits on its oldest operation, which finishes once
every member has issued it.

* `Progress`, `Step`: how far every rank is, and one step of one rank;
* `Ordered`: all ranks issue their operations along one order;
* `Ordered.progress`: then no state is stuck before the end, whatever the number in flight;
* `exists_order`: lists whose entries carry increasing stamps run along one order.
-/

namespace Collectives

variable {ι Op : Type*} [DecidableEq ι]

/-- How many operations every rank has issued, and how many of these it has waited on. -/
structure Progress (ι : Type*) where
  issued : ι → ℕ
  finished : ι → ℕ

/-- Nothing is issued yet. -/
def Progress.start : Progress ι := ⟨fun _ => 0, fun _ => 0⟩

/-- The rank has issued this operation. -/
def HasIssued (ops : ι → List Op) (s : Progress ι) (r : ι) (op : Op) : Prop :=
  ∃ k < s.issued r, (ops r)[k]? = some op

/-- A rank issues its next operation, if fewer than `window` are in flight, or its oldest one in
flight finishes, if every member has issued it. -/
inductive Step (ops : ι → List Op) (members : Op → ι → Prop) (window : ℕ) :
    Progress ι → Progress ι → Prop
  | issue {s : Progress ι} (r : ι) (h : s.issued r < (ops r).length)
      (hwindow : s.issued r - s.finished r < window) :
      Step ops members window s ⟨Function.update s.issued r (s.issued r + 1), s.finished⟩
  | finish {s : Progress ι} (r : ι) {op : Op} (h : s.finished r < s.issued r)
      (hop : (ops r)[s.finished r]? = some op) (hall : ∀ q, members op q → HasIssued ops s q op) :
      Step ops members window s ⟨s.issued, Function.update s.finished r (s.finished r + 1)⟩

/-- Every operation is issued and finished. -/
def Done (ops : ι → List Op) (s : Progress ι) : Prop := ∀ r, s.finished r = (ops r).length

/-- The ranks issue their operations along one order, and an operation of one rank is one of every
member. -/
structure Ordered (ops : ι → List Op) (members : Op → ι → Prop) (position : Op → ℕ) : Prop where
  increasing : ∀ r, (ops r).Pairwise fun a b => position a < position b
  shared : ∀ r op, op ∈ ops r → ∀ q, members op q → op ∈ ops q

/-- What holds in every state: a rank finishes what it has issued, and issues what it has. -/
structure Bounded (ops : ι → List Op) (s : Progress ι) : Prop where
  finished_le : ∀ r, s.finished r ≤ s.issued r
  issued_le : ∀ r, s.issued r ≤ (ops r).length

variable {ops : ι → List Op} {members : Op → ι → Prop} {position : Op → ℕ} {window : ℕ}
  {s s' : Progress ι}

omit [DecidableEq ι] in
theorem Bounded.start : Bounded ops (Progress.start : Progress ι) :=
  ⟨fun _ => le_rfl, fun _ => Nat.zero_le _⟩

theorem Bounded.step (hs : Bounded ops s) (h : Step ops members window s s') :
    Bounded ops s' := by
  cases h with
  | issue r hlt _ =>
    constructor
    · intro q
      have := hs.finished_le q
      by_cases hq : q = r
      · subst hq
        simp only [Function.update_self]
        omega
      · simpa [Function.update_of_ne hq] using this
    · intro q
      have := hs.issued_le q
      by_cases hq : q = r
      · subst hq
        simp only [Function.update_self]
        omega
      · simpa [Function.update_of_ne hq] using this
  | finish r hlt _ _ =>
    refine ⟨fun q => ?_, hs.issued_le⟩
    have := hs.finished_le q
    by_cases hq : q = r
    · subst hq
      simp only [Function.update_self]
      omega
    · simpa [Function.update_of_ne hq] using this

theorem Bounded.reaches (h : Relation.ReflTransGen (Step ops members window) Progress.start s) :
    Bounded ops s := by
  induction h with
  | refl => exact .start
  | tail _ hstep ih => exact ih.step hstep

omit [DecidableEq ι] in
/-- An operation that is not issued yet stands at or behind the next one to issue. -/
theorem issued_le_of_not_hasIssued {r : ι} {k : ℕ} {op : Op} (hk : (ops r)[k]? = some op)
    (h : ¬ HasIssued ops s r op) : s.issued r ≤ k := by
  by_contra hlt
  exact h ⟨k, by omega, hk⟩

/-- Ranks that issue along one order are never stuck. -/
theorem Ordered.progress [Finite ι] (ho : Ordered ops members position) (hs : Bounded ops s)
    (hwindow : 0 < window) : Done ops s ∨ ∃ s', Step ops members window s s' := by
  by_cases hdone : Done ops s
  · exact Or.inl hdone
  · obtain ⟨r₀, hr₀⟩ := not_forall.1 hdone
    cases nonempty_fintype ι
    -- the rank whose oldest unfinished operation comes first in the order
    have hlt : ∀ r, s.finished r ≠ (ops r).length → s.finished r < (ops r).length := fun r hr =>
      lt_of_le_of_ne ((hs.finished_le r).trans (hs.issued_le r)) hr
    let key : ι → ℕ := fun r => ((ops r)[s.finished r]?.map position).getD 0
    obtain ⟨r, hr, hmin⟩ := Finset.exists_min_image
      (Finset.univ.filter fun r => s.finished r ≠ (ops r).length) key ⟨r₀, by simpa using hr₀⟩
    simp only [Finset.mem_filter, Finset.mem_univ, true_and] at hr hmin
    have hrlt := hlt r hr
    have hop : (ops r)[s.finished r]? = some (ops r)[s.finished r] := List.getElem?_eq_getElem hrlt
    refine Or.inr ?_
    by_cases hissued : s.finished r < s.issued r
    · by_cases hall : ∀ q, members (ops r)[s.finished r] q → HasIssued ops s q (ops r)[s.finished r]
      · exact ⟨_, .finish r hissued hop hall⟩
      · -- a member has not issued it: that member has nothing in flight
        obtain ⟨q, hq⟩ := not_forall.1 hall
        obtain ⟨hmember, hnot⟩ := Classical.not_imp.1 hq
        obtain ⟨k, hk⟩ := List.mem_iff_getElem?.1
          (ho.shared r _ (List.getElem_mem hrlt) q hmember)
        have hqk := issued_le_of_not_hasIssued hk hnot
        have hklt := (List.getElem?_eq_some_iff.1 hk).1
        have hfin := hs.finished_le q
        have hqne : s.finished q ≠ (ops q).length := by omega
        have hqlt := hlt q hqne
        have hle := hmin q hqne
        simp only [key, hop, List.getElem?_eq_getElem hqlt, Option.map_some,
          Option.getD_some] at hle
        have hkq : s.finished q = k := by
          by_contra hne
          have hpos := List.pairwise_iff_getElem.1 (ho.increasing q) _ _ hqlt hklt (by omega)
          rw [(List.getElem?_eq_some_iff.1 hk).2] at hpos
          omega
        exact ⟨_, .issue q (by omega) (by omega)⟩
    · exact ⟨_, .issue r (by have := hs.finished_le r; omega) (by omega)⟩

/-- No reachable state is stuck before the end. -/
theorem Ordered.never_stuck [Finite ι] (ho : Ordered ops members position) (hwindow : 0 < window)
    (h : Relation.ReflTransGen (Step ops members window) Progress.start s) :
    Done ops s ∨ ∃ s', Step ops members window s s' :=
  ho.progress (Bounded.reaches h) hwindow

/-! ### One order for several lists -/

section Order

variable {κ β : Type*} [LinearOrder κ]

/-- Lists along increasing stamps, in which a stamp stands for one entry and an entry for one
stamp, are parts of one order. -/
theorem exists_order (lists : List (List (κ × β)))
    (hsorted : ∀ l ∈ lists, l.Pairwise fun p q => p.1 < q.1)
    (hfst : ∀ l ∈ lists, ∀ l' ∈ lists, ∀ p ∈ l, ∀ q ∈ l', p.1 = q.1 → p = q)
    (hsnd : ∀ l ∈ lists, ∀ l' ∈ lists, ∀ p ∈ l, ∀ q ∈ l', p.2 = q.2 → p = q) :
    ∃ order : List β, order.Nodup ∧ ∀ l ∈ lists, (l.map Prod.snd).Sublist order := by
  classical
  let before : κ × β → κ × β → Prop := fun p q => p.1 ≤ q.1
  have : Std.Total before := ⟨fun p q => le_total p.1 q.1⟩
  have : IsTrans (κ × β) before := ⟨fun _ _ _ => le_trans⟩
  have : Std.Antisymm fun p q : κ × β => p.1 < q.1 := ⟨fun _ _ h h' => absurd h h'.not_gt⟩
  let all := lists.flatten.dedup.insertionSort before
  have hmem : ∀ p, p ∈ all ↔ ∃ l ∈ lists, p ∈ l := fun p => by
    rw [List.mem_insertionSort, List.mem_dedup, List.mem_flatten]
  have hnodup : all.Nodup := (List.perm_insertionSort before _).nodup_iff.2 (List.nodup_dedup _)
  have hlt : all.Pairwise fun p q => p.1 < q.1 := by
    refine ((List.pairwise_insertionSort before _).and hnodup).imp_of_mem fun {p q} hp hq h => ?_
    obtain ⟨l, hl, hpl⟩ := (hmem p).1 hp
    obtain ⟨l', hl', hql⟩ := (hmem q).1 hq
    exact lt_of_le_of_ne h.1 fun heq => h.2 (hfst l hl l' hl' p hpl q hql heq)
  refine ⟨all.map Prod.snd, ?_, fun l hl => ?_⟩
  · refine List.Nodup.map_on (fun p hp q hq heq => ?_) hnodup
    obtain ⟨l, hl, hpl⟩ := (hmem p).1 hp
    obtain ⟨l', hl', hql⟩ := (hmem q).1 hq
    exact hsnd l hl l' hl' p hpl q hql heq
  · apply List.Sublist.map
    have hldup : l.Nodup := (hsorted l hl).imp fun h heq => absurd (heq ▸ h) (lt_irrefl _)
    have hsub : l ⊆ all := fun p hp => (hmem p).2 ⟨l, hl, hp⟩
    exact List.sublist_of_subperm_of_pairwise (List.subperm_of_subset hldup hsub)
      (hsorted l hl) hlt

omit [DecidableEq ι] in
/-- Lists that are parts of one order issue their operations along it. -/
theorem Ordered.of_sublist [DecidableEq β] {order : List β} {ops : ι → List β}
    {members : β → ι → Prop} (hnodup : order.Nodup) (hsub : ∀ r, (ops r).Sublist order)
    (hshared : ∀ r op, op ∈ ops r → ∀ q, members op q → op ∈ ops q) :
    Ordered ops members order.idxOf where
  increasing r := by
    refine List.Pairwise.sublist (hsub r) (List.pairwise_iff_getElem.2 fun i j hi hj hij => ?_)
    rwa [hnodup.idxOf_getElem, hnodup.idxOf_getElem]
  shared := hshared

end Order

end Collectives
