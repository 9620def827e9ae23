import Mathlib.Tactic.Common

/-!
# Programs that may be interrupted

A program is a list of acts, each of which changes a state or raises; the world may interrupt it
between any two acts.

* `perform`: the state a program leaves, and whether it ran to its end;
* `Triple P acts Q R`: from `P`, the program leaves `Q` where it ends and `R` where it is cut short;
* `Triple.nil`, `Triple.cons`, `Triple.append`, `Triple.flatten`: the rules.
-/

namespace Interrupted

variable {σ : Type*}

/-- A change of the state, `none` where it raises. -/
abbrev Act (σ : Type*) := σ → Option σ

/-- The state that the acts leave when the world interrupts them after `fault` of them, and
whether all of them were done. -/
def perform : List (Act σ) → ℕ → σ → σ × Bool
  | [], _, s => (s, true)
  | _ :: _, 0, s => (s, false)
  | act :: acts, fault + 1, s =>
      match act s with
      | none => (s, false)
      | some s' => perform acts fault s'

/-- From `P`, the acts leave `Q` where they end and `R` where they are cut short. -/
def Triple (P : σ → Prop) (acts : List (Act σ)) (Q R : σ → Prop) : Prop :=
  ∀ s fault, P s → if (perform acts fault s).2 then Q (perform acts fault s).1
    else R (perform acts fault s).1

variable {P P' Q Q' R R' M : σ → Prop} {act : Act σ} {acts acts' : List (Act σ)}

theorem Triple.nil (h : ∀ s, P s → Q s) : Triple P [] Q R := fun s _ hs => h s hs

/-- One act, then the others. -/
theorem Triple.cons (h : ∀ s, P s → R s) (hact : ∀ s s', P s → act s = some s' → M s')
    (hacts : Triple M acts Q R) : Triple P (act :: acts) Q R := by
  intro s fault hs
  cases fault with
  | zero => exact h s hs
  | succ fault =>
    rw [perform]
    cases hs' : act s with
    | none => exact h s hs
    | some s' => exact hacts s' fault (hact s s' hs hs')

/-- An act that changes nothing the assertions speak of. -/
theorem Triple.skip (h : ∀ s, P s → R s) (hacts : Triple P acts Q R) :
    Triple P (some :: acts) Q R :=
  Triple.cons h (fun s s' hs hs' => by
    obtain rfl := Option.some.inj hs'
    exact hs) hacts

theorem perform_append (fault : ℕ) (s : σ) : perform (acts ++ acts') fault s =
    if (perform acts fault s).2 then perform acts' (fault - acts.length) (perform acts fault s).1
    else perform acts fault s := by
  induction acts generalizing fault s with
  | nil => rfl
  | cons act acts ih =>
    cases fault with
    | zero => rfl
    | succ fault =>
      rw [List.cons_append, perform, perform]
      cases act s with
      | none => rfl
      | some s' =>
        rw [List.length_cons, Nat.add_sub_add_right]
        exact ih fault s'

/-- One program, then another. -/
theorem Triple.append (h : Triple P acts M R) (h' : Triple M acts' Q R) :
    Triple P (acts ++ acts') Q R := by
  intro s fault hs
  have h := h s fault hs
  rw [perform_append]
  cases hend : (perform acts fault s).2 with
  | false =>
    rw [hend] at h
    rw [if_neg Bool.false_ne_true, hend]
    exact h
  | true =>
    rw [hend] at h
    rw [if_pos rfl]
    exact h' _ _ h

/-- A loop, with an assertion about the rounds that are done. -/
theorem Triple.flatten {α : Type*} {f : α → List (Act σ)} {I : List α → σ → Prop} {l : List α}
    (h : ∀ done x, Triple (I done) (f x) (I (done ++ [x])) R) (done : List α) :
    Triple (I done) (l.flatMap f) (I (done ++ l)) R := by
  induction l generalizing done with
  | nil => exact Triple.nil fun s hs => by rwa [List.append_nil]
  | cons x l ih =>
    rw [List.flatMap_cons]
    have := ih (done ++ [x])
    rw [List.append_assoc] at this
    exact (h done x).append this

end Interrupted
