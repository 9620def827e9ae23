import Mathlib.Data.List.Forall2

/-!
# Lists of fallible steps

`mapM` and `forM` over `Except`: a run that succeeds is a list of steps that succeed
(`forall₂_of_mapM`, `mapM_of_forall₂`, `mapM_of_forall`, `forM_eq_ok`), and what is collected from
the results (`flatMap_of_forall₂`, `exists_parts_of_forall₂`); `bind_eq_ok` takes two steps apart.
-/

namespace ExceptList

variable {β γ δ ε : Type*}

theorem forall₂_of_mapM {f : β → Except ε γ} {l : List β} {ys : List γ}
    (h : l.mapM f = .ok ys) : List.Forall₂ (fun x y => f x = .ok y) l ys := by
  induction l generalizing ys with
  | nil =>
    obtain rfl := Except.ok.inj h
    exact .nil
  | cons x l ih =>
    rw [List.mapM_cons] at h
    cases hx : f x with
    | error e => simp [hx, bind, Except.bind] at h
    | ok y =>
      cases hl : l.mapM f with
      | error e => simp [hx, hl, bind, Except.bind] at h
      | ok rest =>
        simp only [hx, hl, bind, Except.bind, pure, Except.pure, Except.ok.injEq] at h
        exact h ▸ .cons hx (ih hl)

theorem mapM_of_forall₂ {f : β → Except ε γ} {l : List β} {ys : List γ}
    (h : List.Forall₂ (fun x y => f x = .ok y) l ys) : l.mapM f = .ok ys := by
  induction h with
  | nil => rfl
  | cons hxy _ ih =>
    rw [List.mapM_cons, hxy, ih]
    rfl

/-- The results are those of the elements. -/
theorem mem_of_mapM {f : β → Except ε γ} {l : List β} {ys : List γ} (h : l.mapM f = .ok ys)
    {y : γ} : y ∈ ys ↔ ∃ x ∈ l, f x = .ok y := by
  induction forall₂_of_mapM h with
  | nil => simp
  | @cons x y' l ys hxy hrest ih =>
    have hys := ih (mapM_of_forall₂ hrest)
    have hy : y = y' ↔ f x = .ok y := by
      rw [hxy]
      exact ⟨fun h => congrArg _ h.symm, fun h => (Except.ok.inj h).symm⟩
    rw [List.mem_cons, List.exists_mem_cons_iff]
    exact or_congr hy hys

theorem mapM_of_forall {f : β → Except ε γ} {g : β → γ} {l : List β}
    (h : ∀ x ∈ l, f x = .ok (g x)) : l.mapM f = .ok (l.map g) := by
  induction l with
  | nil => rfl
  | cons x l ih =>
    rw [List.mapM_cons, h x List.mem_cons_self, ih fun y hy => h y (List.mem_cons_of_mem _ hy)]
    rfl

theorem mapM_congr {f g : β → Except ε γ} {l : List β} (h : ∀ x ∈ l, f x = g x) :
    l.mapM f = l.mapM g := by
  induction l with
  | nil => rfl
  | cons x l ih =>
    rw [List.mapM_cons, List.mapM_cons, h x List.mem_cons_self,
      ih fun y hy => h y (List.mem_cons_of_mem _ hy)]

theorem flatMap_of_forall₂ {R : β → γ → Prop} {f : β → List δ} {g : γ → List δ}
    {l : List β} {ys : List γ} (h : List.Forall₂ R l ys)
    (hR : ∀ x ∈ l, ∀ y, R x y → g y = f x) : ys.flatMap g = l.flatMap f := by
  induction h with
  | nil => rfl
  | cons hxy _ ih =>
    rw [List.flatMap_cons, List.flatMap_cons, hR _ List.mem_cons_self _ hxy,
      ih fun x hx => hR x (List.mem_cons_of_mem _ hx)]

theorem exists_of_forall₂ {R : β → γ → Prop} {l : List β} {ys : List γ}
    (h : List.Forall₂ R l ys) {x : β} (hx : x ∈ l) : ∃ y, R x y := by
  induction h with
  | nil => cases hx
  | cons hxy _ ih =>
    rcases List.mem_cons.1 hx with rfl | hx
    · exact ⟨_, hxy⟩
    · exact ih hx

theorem forall₂_of_exists {R : β → γ → Prop} {l : List β} (h : ∀ x ∈ l, ∃ y, R x y) :
    ∃ ys, List.Forall₂ R l ys := by
  induction l with
  | nil => exact ⟨[], .nil⟩
  | cons x l ih =>
    obtain ⟨y, hy⟩ := h x List.mem_cons_self
    obtain ⟨ys, hys⟩ := ih fun x hx => h x (List.mem_cons_of_mem _ hx)
    exact ⟨y :: ys, .cons hy hys⟩

/-- What belongs to the lists of several parts, part by part. -/
theorem exists_parts_of_forall₂ {R : β → γ → Prop} {parts : List δ} {f : δ → List β} {ys : List γ}
    (h : List.Forall₂ R (parts.flatMap f) ys) :
    ∃ yss : List (List γ), List.Forall₂ (fun part ys => List.Forall₂ R (f part) ys) parts yss ∧
      yss.flatten = ys := by
  induction parts generalizing ys with
  | nil =>
    rw [List.flatMap_nil, List.forall₂_nil_left_iff] at h
    exact ⟨[], .nil, h.symm⟩
  | cons part parts ih =>
    rw [List.flatMap_cons] at h
    have htake := List.forall₂_take_append _ _ _ h.flip
    have hdrop := List.forall₂_drop_append _ _ _ h.flip
    obtain ⟨yss, hyss, hflatten⟩ := ih hdrop.flip
    refine ⟨ys.take (f part).length :: yss, .cons htake.flip hyss, ?_⟩
    rw [List.flatten_cons, hflatten, List.take_append_drop]

theorem forM_eq_ok {ε : Type} {l : List β} {f : β → Except ε Unit} :
    l.forM f = .ok () ↔ ∀ a ∈ l, f a = .ok () := by
  induction l with
  | nil => simp [pure, Except.pure]
  | cons a l ih =>
    rw [List.forall_mem_cons, ← ih]
    change (f a >>= fun _ => l.forM f) = .ok () ↔ _
    cases f a with
    | error e => simp [bind, Except.bind]
    | ok u => simp [bind, Except.bind]

theorem ite_error_eq_ok {p : Prop} [Decidable p] {e : ε} :
    (if p then .error e else .ok () : Except ε Unit) = .ok () ↔ ¬ p := by
  split_ifs with hp
  · exact iff_of_false (fun h => by cases h) (not_not.2 hp)
  · exact iff_of_true rfl hp

theorem bind_eq_ok {β γ : Type} {x : Except ε β} {f : β → Except ε γ} {y : γ} :
    x >>= f = .ok y ↔ ∃ b, x = .ok b ∧ f b = .ok y := by
  cases x with
  | error e => simp [bind, Except.bind]
  | ok b => simp [bind, Except.bind]

end ExceptList
