import Mathlib.Data.List.Nodup
import Mathlib.Data.List.Forall2
import Mathlib.Tactic.Common

/-!
# Dicts in insertion order

A dict as the list of its entries in insertion order, and loops over one.

* `set`, `update`, with `lookup_set` and `lookup_update`;
* `firstKeys`: the keys of a list of entries in the order in which they are first met;
* `foldl_choice_mem`: a loop that keeps the best entry keeps one of them;
* `exists_unique_choice`: one entry chosen from each of several disjoint lists.
-/

namespace Dict

variable {κ β γ : Type*} [DecidableEq κ]

/-- `d[key] = value`. -/
def set : List (κ × β) → κ → β → List (κ × β)
  | [], key, value => [(key, value)]
  | (key', value') :: rest, key, value =>
      if key' = key then (key, value) :: rest else (key', value') :: set rest key value

/-- `d.update(other)`. -/
def update (d other : List (κ × β)) : List (κ × β) :=
  other.foldl (fun d entry => set d entry.1 entry.2) d

variable {d other : List (κ × β)} {key key' : κ} {value : β}

theorem lookup_set : (set d key value).lookup key' =
    if key' = key then some value else d.lookup key' := by
  induction d with
  | nil =>
    rw [set, List.lookup_cons, List.lookup_nil]
    by_cases h : key' = key
    · rw [if_pos h, h, beq_self_eq_true]
    · rw [if_neg h, beq_false_of_ne h]
  | cons entry d ih =>
    obtain ⟨key₀, value₀⟩ := entry
    rw [set]
    by_cases h₀ : key₀ = key
    · subst h₀
      rw [if_pos rfl, List.lookup_cons, List.lookup_cons]
      by_cases h : key' = key₀
      · rw [if_pos h, h, beq_self_eq_true]
      · rw [if_neg h, beq_false_of_ne h]
    · rw [if_neg h₀, List.lookup_cons, List.lookup_cons, ih]
      by_cases h : key' = key₀
      · subst h
        simp [h₀]
      · rw [beq_false_of_ne h]

theorem mem_of_lookup (h : d.lookup key = some value) : (key, value) ∈ d := by
  induction d with
  | nil => cases h
  | cons entry d ih =>
    obtain ⟨key₀, value₀⟩ := entry
    rw [List.lookup_cons] at h
    by_cases h₀ : key = key₀
    · subst h₀
      rw [beq_self_eq_true] at h
      exact Option.some.inj h ▸ List.mem_cons_self
    · rw [beq_false_of_ne h₀] at h
      exact List.mem_cons_of_mem _ (ih h)

/-- With distinct keys the entries are what is looked up. -/
theorem lookup_eq_some_iff (h : (d.map Prod.fst).Nodup) :
    d.lookup key = some value ↔ (key, value) ∈ d := by
  refine ⟨mem_of_lookup, fun hmem => ?_⟩
  induction d with
  | nil => cases hmem
  | cons entry d ih =>
    rw [List.map_cons, List.nodup_cons] at h
    rw [List.lookup_cons]
    rcases List.mem_cons.1 hmem with rfl | hmem
    · rw [beq_self_eq_true]
    · have hne : key ≠ entry.1 := by
        intro heq
        exact h.1 (List.mem_map.2 ⟨_, hmem, heq⟩)
      rw [beq_false_of_ne hne]
      exact ih h.2 hmem

theorem lookup_map (g : κ → β → γ) :
    (d.map fun entry => (entry.1, g entry.1 entry.2)).lookup key =
      (d.lookup key).map (g key) := by
  induction d with
  | nil => rfl
  | cons entry d ih =>
    rw [List.map_cons, List.lookup_cons, List.lookup_cons, ih]
    cases hkey : key == entry.1 with
    | false => rfl
    | true => rw [eq_of_beq hkey, Option.map_some]

theorem lookup_filter (p : κ → Bool) :
    (d.filter fun entry => p entry.1).lookup key =
      if p key then d.lookup key else none := by
  induction d with
  | nil => simp
  | cons entry d ih =>
    rw [List.filter_cons, List.lookup_cons]
    cases hkey : key == entry.1 with
    | true =>
      rw [eq_of_beq hkey] at ih ⊢
      split_ifs with hp
      · rw [List.lookup_cons, beq_self_eq_true]
      · rw [ih, if_neg hp]
    | false =>
      split_ifs at ih ⊢ with hp hp' hp'
      · rw [List.lookup_cons, hkey]
        exact ih
      · rw [List.lookup_cons, hkey]
        exact ih
      · exact ih
      · exact ih

theorem map_fst_set : (set d key value).map Prod.fst =
    if key ∈ d.map Prod.fst then d.map Prod.fst else d.map Prod.fst ++ [key] := by
  induction d with
  | nil => rfl
  | cons entry d ih =>
    obtain ⟨key₀, value₀⟩ := entry
    rw [set]
    by_cases h₀ : key₀ = key
    · subst h₀
      simp
    · rw [if_neg h₀, List.map_cons, ih, List.map_cons]
      have hmem : key ∈ key₀ :: d.map Prod.fst ↔ key ∈ d.map Prod.fst := by
        rw [List.mem_cons]
        exact or_iff_right fun h => h₀ h.symm
      by_cases h : key ∈ d.map Prod.fst
      · rw [if_pos h, if_pos (hmem.2 h)]
      · rw [if_neg h, if_neg fun hin => h (hmem.1 hin), List.cons_append]

theorem nodup_set (h : (d.map Prod.fst).Nodup) : ((set d key value).map Prod.fst).Nodup := by
  rw [map_fst_set]
  split_ifs with hmem
  · exact h
  · exact List.Nodup.append h (List.nodup_singleton key) (by simpa using hmem)

theorem lookup_update_of_notMem (h : key ∉ other.map Prod.fst) :
    (update d other).lookup key = d.lookup key := by
  induction other generalizing d with
  | nil => rfl
  | cons entry other ih =>
    rw [List.map_cons, List.mem_cons, not_or] at h
    rw [update, List.foldl_cons]
    refine (ih h.2).trans ?_
    rw [lookup_set, if_neg h.1]

/-- An update with distinct keys takes its values. -/
theorem lookup_update (hother : (other.map Prod.fst).Nodup) (h : (key, value) ∈ other) :
    (update d other).lookup key = some value := by
  induction other generalizing d with
  | nil => cases h
  | cons entry other ih =>
    rw [List.map_cons, List.nodup_cons] at hother
    rw [update, List.foldl_cons]
    rcases List.mem_cons.1 h with rfl | h
    · refine (lookup_update_of_notMem hother.1).trans ?_
      rw [lookup_set, if_pos rfl]
    · exact ih hother.2 h

theorem set_of_notMem (h : key ∉ d.map Prod.fst) : set d key value = d ++ [(key, value)] := by
  induction d with
  | nil => rfl
  | cons entry d ih =>
    rw [List.map_cons, List.mem_cons, not_or] at h
    rw [set, if_neg fun heq => h.1 heq.symm, ih h.2, List.cons_append]

/-- An update with new, distinct keys adds its entries. -/
theorem update_of_nodup (h : ((d ++ other).map Prod.fst).Nodup) : update d other = d ++ other := by
  induction other generalizing d with
  | nil => rw [List.append_nil]; rfl
  | cons entry other ih =>
    have hnot : entry.1 ∉ d.map Prod.fst := by
      rw [List.map_append, List.nodup_append] at h
      exact fun hmem => h.2.2 _ hmem _ List.mem_cons_self rfl
    rw [List.append_cons] at h
    rw [update, List.foldl_cons, set_of_notMem hnot]
    exact (ih h).trans (List.append_cons ..).symm

/-! ### Keys -/

section Keys

variable {f : γ → κ} {l : List γ}

/-- The keys of a list in the order in which they are first met. -/
def firstKeys (f : γ → κ) (l : List γ) : List κ :=
  l.foldl (fun keys entry => if f entry ∈ keys then keys else keys ++ [f entry]) []

theorem mem_foldl_insert (keys : List κ) :
    key ∈ l.foldl (fun keys entry => if f entry ∈ keys then keys else keys ++ [f entry]) keys ↔
      key ∈ keys ∨ ∃ entry ∈ l, f entry = key := by
  induction l generalizing keys with
  | nil => simp
  | cons entry l ih =>
    rw [List.foldl_cons, ih, List.exists_mem_cons_iff]
    by_cases hin : f entry ∈ keys
    · rw [if_pos hin]
      constructor
      · exact fun h => h.imp_right Or.inr
      · rintro (h | rfl | h)
        · exact Or.inl h
        · exact Or.inl hin
        · exact Or.inr h
    · rw [if_neg hin, List.mem_append, List.mem_singleton, eq_comm (a := key), or_assoc]

theorem mem_firstKeys : key ∈ firstKeys f l ↔ ∃ entry ∈ l, f entry = key := by
  rw [firstKeys, mem_foldl_insert]
  simp

/-- Keys that were all met already add nothing. -/
theorem firstKeys_append {l' : List γ} (h : ∀ entry ∈ l', f entry ∈ firstKeys f l) :
    firstKeys f (l ++ l') = firstKeys f l := by
  have hkeep : ∀ (l' : List γ) (keys : List κ), (∀ entry ∈ l', f entry ∈ keys) →
      l'.foldl (fun keys entry => if f entry ∈ keys then keys else keys ++ [f entry]) keys =
        keys := by
    intro l' keys h
    induction l' with
    | nil => rfl
    | cons entry l' ih =>
      rw [List.foldl_cons, if_pos (h entry List.mem_cons_self)]
      exact ih fun entry' hentry' => h entry' (List.mem_cons_of_mem _ hentry')
  rw [firstKeys, List.foldl_append]
  exact hkeep l' _ h

theorem nodup_firstKeys : (firstKeys f l).Nodup := by
  have h : ∀ (l : List γ) (keys : List κ), keys.Nodup → (l.foldl (fun keys entry =>
      if f entry ∈ keys then keys else keys ++ [f entry]) keys).Nodup := by
    intro l
    induction l with
    | nil => exact fun _ hkeys => hkeys
    | cons entry l ih =>
      intro keys hkeys
      rw [List.foldl_cons]
      apply ih
      split_ifs with hin
      · exact hkeys
      · exact List.Nodup.append hkeys (List.nodup_singleton _) (by simpa using hin)
  exact h l [] List.nodup_nil

end Keys

/-! ### Choices -/

/-- A loop that keeps an entry or takes the next one ends with one of them. -/
theorem foldl_choice_mem (better : γ → γ → Prop) [DecidableRel better] (l : List γ) (best : γ) :
    l.foldl (fun best entry => if better entry best then entry else best) best ∈ best :: l := by
  induction l generalizing best with
  | nil => exact List.mem_singleton_self best
  | cons entry l ih =>
    rw [List.foldl_cons]
    split_ifs with h
    · exact List.mem_cons_of_mem best (ih entry)
    · rcases List.mem_cons.1 (ih best) with heq | hmem
      · rw [heq]
        exact List.mem_cons_self
      · exact List.mem_cons_of_mem _ (List.mem_cons_of_mem _ hmem)

/-- One entry chosen from each of several disjoint lists: exactly one is of a given list. -/
theorem exists_unique_choice {lists : List (List γ)} {chosen : List γ}
    (h : List.Forall₂ (fun l entry => entry ∈ l) lists chosen)
    (hdisjoint : lists.Pairwise List.Disjoint) {l : List γ} (hl : l ∈ lists) :
    ∃ entry ∈ chosen, entry ∈ l ∧ ∀ other ∈ chosen, other ∈ l → other = entry := by
  induction h with
  | nil => cases hl
  | @cons first entry lists chosen hentry hrest ih =>
    rw [List.pairwise_cons] at hdisjoint
    -- what is chosen later is of a later list
    have hlater : ∀ other ∈ chosen, ∃ l' ∈ lists, other ∈ l' := by
      intro other hother
      obtain ⟨i, hi, rfl⟩ := List.getElem_of_mem hother
      exact ⟨_, List.getElem_mem (hrest.length_eq ▸ hi), hrest.get _ hi⟩
    rcases List.mem_cons.1 hl with rfl | hl
    · refine ⟨entry, List.mem_cons_self, hentry, fun other hother hin => ?_⟩
      rcases List.mem_cons.1 hother with rfl | hother
      · rfl
      · obtain ⟨l', hl', hin'⟩ := hlater other hother
        exact absurd hin' (hdisjoint.1 l' hl' hin)
    · obtain ⟨found, hfound, hin, hunique⟩ := ih hdisjoint.2 hl
      refine ⟨found, List.mem_cons_of_mem _ hfound, hin, fun other hother hotherin => ?_⟩
      rcases List.mem_cons.1 hother with rfl | hother
      · exact absurd hotherin (hdisjoint.1 l hl hentry)
      · exact hunique other hother hotherin

end Dict
