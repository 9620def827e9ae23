import Mathlib.Logic.Relation
import Mathlib.Tactic.Common

/-!
# Parties that meet in every call

* `Prog`: a program that makes calls, and goes on with what they reply;
* `Together`: the parties meet in every call, whatever is replied, and what they end with satisfies
  a postcondition;
* `Step`: every party makes its next call.
-/

namespace HyperParallel.Lockstep

universe u v w

/-- A program with calls `c` that are replied to in `Reply c`. -/
inductive Prog (Call : Type u) (Reply : Call → Type v) (α : Type w)
  | done (value : α)
  | call (c : Call) (next : Reply c → Prog Call Reply α)

variable {Call : Type u} {Reply : Call → Type v} {α β : Type w} {ι : Type*}

namespace Prog

def bind : Prog Call Reply α → (α → Prog Call Reply β) → Prog Call Reply β
  | .done value, f => f value
  | .call c next, f => .call c fun reply => (next reply).bind f

end Prog

/-- The parties meet in every call they make, and end with `post`. -/
inductive Together (meets : (ι → Call) → Prop)
    (answers : (c : ι → Call) → (∀ i, Reply (c i)) → Prop) (post : (ι → α) → Prop) :
    (ι → Prog Call Reply α) → Prop
  | done (value : ι → α) (hpost : post value) :
      Together meets answers post fun i => .done (value i)
  | call (c : ι → Call) (next : ∀ i, Reply (c i) → Prog Call Reply α) (hmeets : meets c)
      (hnext : ∀ reply, answers c reply → Together meets answers post fun i => next i (reply i)) :
      Together meets answers post fun i => .call (c i) (next i)

variable {meets : (ι → Call) → Prop} {answers : (c : ι → Call) → (∀ i, Reply (c i)) → Prop}
  {mid post : (ι → α) → Prop} {p q : ι → Prog Call Reply α}

theorem Together.bind {post : (ι → β) → Prop} {f : ι → α → Prog Call Reply β}
    (h : Together meets answers mid p)
    (hf : ∀ value, mid value → Together meets answers post fun i => f i (value i)) :
    Together meets answers post fun i => (p i).bind (f i) := by
  induction h with
  | done value hmid => exact hf value hmid
  | call c next hmeets _ ih => exact .call c (fun i reply => (next i reply).bind (f i)) hmeets ih

theorem Together.mono (h : Together meets answers mid p)
    (himp : ∀ value, mid value → post value) : Together meets answers post p := by
  induction h with
  | done value hmid => exact .done value (himp value hmid)
  | call c next hmeets _ ih => exact .call c next hmeets ih

theorem Together.congr (h : Together meets answers post q) (hpq : ∀ i, p i = q i) :
    Together meets answers post p := by
  obtain rfl : p = q := funext hpq
  exact h

/-! ### Runs -/

/-- Every party makes its next call. -/
inductive Step (answers : (c : ι → Call) → (∀ i, Reply (c i)) → Prop) :
    (ι → Prog Call Reply α) → (ι → Prog Call Reply α) → Prop
  | call (c : ι → Call) (next : ∀ i, Reply (c i) → Prog Call Reply α) (reply : ∀ i, Reply (c i))
      (hreply : answers c reply) :
      Step answers (fun i => .call (c i) (next i)) fun i => next i (reply i)

theorem not_step_done [Nonempty ι] (value : ι → α) :
    ¬ Step answers (fun i => (.done (value i) : Prog Call Reply α)) q := by
  intro hstep
  obtain ⟨i⟩ := ‹Nonempty ι›
  generalize hp : (fun i => (.done (value i) : Prog Call Reply α)) = p at hstep
  cases hstep with
  | call c next reply hreply =>
    have hi := congrFun hp i
    cases hi

/-- A step from a family of calls goes on with the replies. -/
theorem step_call {c : ι → Call} {next : ∀ i, Reply (c i) → Prog Call Reply α}
    (hstep : Step answers (fun i => .call (c i) (next i)) q) :
    ∃ reply, answers c reply ∧ q = fun i => next i (reply i) := by
  generalize hp : (fun i => (.call (c i) (next i) : Prog Call Reply α)) = p at hstep
  cases hstep with
  | call c' next' reply hreply =>
    have hcall : c' = c := by
      funext i
      have hi := congrFun hp i
      injection hi with hc
      exact hc.symm
    subst hcall
    have hnext : next' = next := by
      funext i
      have hi := congrFun hp i
      injection hi with _ hn
      exact hn.symm
    subst hnext
    exact ⟨reply, hreply, rfl⟩

variable [Nonempty ι]

theorem Together.step (h : Together meets answers post p) (hstep : Step answers p q) :
    Together meets answers post q := by
  cases h with
  | done value hpost => exact absurd hstep (not_step_done value)
  | call c next hmeets hnext =>
    obtain ⟨reply, hreply, rfl⟩ := step_call hstep
    exact hnext reply hreply

theorem Together.run (h : Together meets answers post p)
    (hrun : Relation.ReflTransGen (Step answers) p q) : Together meets answers post q := by
  induction hrun with
  | refl => exact h
  | tail _ hstep ih => exact ih.step hstep

/-- No run goes on forever. -/
theorem Together.acc (h : Together meets answers post p) :
    Acc (fun q p => Step answers p q) p := by
  induction h with
  | done value hpost => exact ⟨_, fun q hstep => absurd hstep (not_step_done value)⟩
  | call c next hmeets _ ih =>
    constructor
    intro q hstep
    obtain ⟨reply, hreply, rfl⟩ := step_call hstep
    exact ih reply hreply

omit [Nonempty ι] in
/-- Either every party has ended, or all are at calls that meet. -/
theorem Together.ended_or_meet (h : Together meets answers post p) :
    (∃ value, (∀ i, p i = .done (value i)) ∧ post value) ∨
      ∃ (c : ι → Call) (next : ∀ i, Reply (c i) → Prog Call Reply α),
        (p = fun i => .call (c i) (next i)) ∧ meets c := by
  cases h with
  | done value hpost => exact .inl ⟨value, fun _ => rfl, hpost⟩
  | call c next hmeets hnext => exact .inr ⟨c, next, rfl, hmeets⟩

end HyperParallel.Lockstep
