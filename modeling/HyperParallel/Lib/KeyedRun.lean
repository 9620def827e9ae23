import Mathlib.Tactic.Common
import Mathlib.Logic.Function.Basic

/-!
# Runs over slots

Events that each touch one slot of a state.

* `Along step P s es`: the property holds of every event of the run in the state before it;
* `lift`: a step of a slot as a step of the state;
* `foldl_lift`: a run of the state is the run of each slot;
* `along_lift_iff`: along a run of the state, or along the run of each slot.
-/

namespace KeyedRun

variable {K E S : Type}

def Along (step : S → E → S) (P : S → E → Prop) : S → List E → Prop
  | _, [] => True
  | s, e :: es => P s e ∧ Along step P (step s e) es

variable {step : S → E → S} {P : S → E → Prop}

instance decidableAlong [∀ s e, Decidable (P s e)] :
    (s : S) → (es : List E) → Decidable (Along step P s es)
  | _, [] => .isTrue trivial
  | s, e :: es => @instDecidableAnd _ _ _ (decidableAlong (step s e) es)

theorem along_append {s : S} {es es' : List E} :
    Along step P s (es ++ es') ↔ Along step P s es ∧ Along step P (es.foldl step s) es' := by
  induction es generalizing s with
  | nil => exact ⟨fun h => ⟨trivial, h⟩, fun h => h.2⟩
  | cons e es ih =>
    rw [List.cons_append, Along, Along, ih, and_assoc]
    rfl

variable [DecidableEq K] {key : E → K}

/-- The slot of the event makes the step. -/
def lift (key : E → K) (step : S → E → S) (st : K → S) (e : E) : K → S :=
  Function.update st (key e) (step (st (key e)) e)

theorem foldl_lift (st : K → S) (es : List E) (k : K) :
    es.foldl (lift key step) st k = (es.filter (key · = k)).foldl step (st k) := by
  induction es generalizing st with
  | nil => rfl
  | cons e es ih =>
    rw [List.foldl_cons, ih, lift]
    by_cases hkey : key e = k
    · subst hkey
      rw [Function.update_self, List.filter_cons_of_pos (by simp), List.foldl_cons]
    · rw [Function.update_of_ne (Ne.symm hkey), List.filter_cons_of_neg (by simpa using hkey)]

theorem along_lift_iff {st : K → S} {es : List E} :
    Along (lift key step) (fun st e => P (st (key e)) e) st es ↔
      ∀ k, Along step P (st k) (es.filter (key · = k)) := by
  induction es generalizing st with
  | nil => exact ⟨fun _ _ => trivial, fun _ => trivial⟩
  | cons e es ih =>
    rw [Along, ih]
    constructor
    · rintro ⟨he, hrest⟩ k
      have hk := hrest k
      rw [lift] at hk
      by_cases hkey : key e = k
      · subst hkey
        rw [Function.update_self] at hk
        rw [List.filter_cons_of_pos (by simp)]
        exact ⟨he, hk⟩
      · rw [Function.update_of_ne (Ne.symm hkey)] at hk
        rwa [List.filter_cons_of_neg (by simpa using hkey)]
    · intro h
      have hself := h (key e)
      rw [List.filter_cons_of_pos (by simp)] at hself
      refine ⟨hself.1, fun k => ?_⟩
      rw [lift]
      by_cases hkey : key e = k
      · subst hkey
        rw [Function.update_self]
        exact hself.2
      · have hk := h k
        rw [List.filter_cons_of_neg (by simpa using hkey)] at hk
        rwa [Function.update_of_ne (Ne.symm hkey)]

end KeyedRun
