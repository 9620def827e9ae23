import HyperParallel.Data.DynamicBatch
import HyperParallel.Lib.ExceptList
import Mathlib.Data.List.Perm.Basic
import Mathlib.Tactic.Common

/-!
# Dynamic batches lose nothing and resume anywhere

* `Entry`, `pick`, `advance`: the buffer as one list of entries, and what the next batch takes
  from it;
* `Represents`: the batcher holds a list of entries;
* `Yields`: the batches an iterator still has to yield, from what is buffered and what is left in
  the source; it never looks at how the iterator came to stand there;
* `yields_batchDataGenerator`: the three phases of the generator yield exactly that;
* `restore_getBufferState`: a saved buffer is restored as it was.
-/

namespace HyperParallel.Data

universe u

variable {α κ : Type u}

/-! ### The buffer as a list of entries -/

/-- A buffered sample with its length and its replay key. -/
structure Entry (α κ : Type u) where
  sample : α
  length : ℕ
  outputIndex : Option (κ × ℕ)

/-- The tokens of a list of entries. -/
def tokens (E : List (Entry α κ)) : ℕ := (E.map Entry.length).sum

@[simp] theorem tokens_nil : tokens ([] : List (Entry α κ)) = 0 := rfl

@[simp] theorem tokens_cons (e : Entry α κ) (E : List (Entry α κ)) :
    tokens (e :: E) = e.length + tokens E := by
  simp [tokens]

@[simp] theorem tokens_append (E F : List (Entry α κ)) : tokens (E ++ F) = tokens E + tokens F := by
  simp [tokens]

/-- The entries a batch takes and those it leaves, when it already holds `count` tokens. -/
def pick (tokenBudget : ℕ) : ℕ → List (Entry α κ) → List (Entry α κ) × List (Entry α κ)
  | _, [] => ([], [])
  | count, e :: E =>
      if count = 0 ∨ count + e.length ≤ tokenBudget then
        let p := pick tokenBudget (count + e.length) E
        (e :: p.1, p.2)
      else
        let p := pick tokenBudget count E
        (p.1, e :: p.2)

section Pick

variable {tokenBudget count : ℕ} {e : Entry α κ} {E : List (Entry α κ)}

theorem pick_cons_of_fits (h : count = 0 ∨ count + e.length ≤ tokenBudget) :
    pick tokenBudget count (e :: E) =
      (e :: (pick tokenBudget (count + e.length) E).1,
        (pick tokenBudget (count + e.length) E).2) := by
  rw [pick, if_pos h]

theorem pick_cons_of_not_fits (h : ¬ (count = 0 ∨ count + e.length ≤ tokenBudget)) :
    pick tokenBudget count (e :: E) =
      ((pick tokenBudget count E).1, e :: (pick tokenBudget count E).2) := by
  rw [pick, if_neg h]

/-- Every entry is taken or left. -/
theorem pick_perm (tokenBudget count : ℕ) (E : List (Entry α κ)) :
    ((pick tokenBudget count E).1 ++ (pick tokenBudget count E).2).Perm E := by
  induction E generalizing count with
  | nil => exact List.Perm.refl _
  | cons e E ih =>
    by_cases h : count = 0 ∨ count + e.length ≤ tokenBudget
    · rw [pick_cons_of_fits h]
      exact (ih _).cons e
    · rw [pick_cons_of_not_fits h]
      exact List.perm_middle.trans ((ih _).cons e)

theorem tokens_pick (tokenBudget count : ℕ) (E : List (Entry α κ)) :
    tokens (pick tokenBudget count E).1 + tokens (pick tokenBudget count E).2 = tokens E := by
  rw [← tokens_append]
  exact ((pick_perm tokenBudget count E).map Entry.length).sum_eq

theorem length_pick (tokenBudget count : ℕ) (E : List (Entry α κ)) :
    (pick tokenBudget count E).1.length + (pick tokenBudget count E).2.length = E.length := by
  rw [← List.length_append]
  exact (pick_perm tokenBudget count E).length_eq

/-- A batch that holds tokens already stays within its budget. -/
theorem tokens_pick_le (hcount : count ≠ 0) (hle : count ≤ tokenBudget) :
    count + tokens (pick tokenBudget count E).1 ≤ tokenBudget := by
  induction E generalizing count with
  | nil => simpa [pick] using hle
  | cons e E ih =>
    by_cases h : count = 0 ∨ count + e.length ≤ tokenBudget
    · have hfit := h.resolve_left hcount
      rw [pick_cons_of_fits h, tokens_cons, ← Nat.add_assoc]
      exact ih (by omega) hfit
    · rw [pick_cons_of_not_fits h]
      exact ih hcount hle

/-- A batch that is over its budget takes nothing more. -/
theorem pick_of_over (hcount : count ≠ 0) (hover : tokenBudget < count) :
    (pick tokenBudget count E).1 = [] := by
  induction E with
  | nil => rfl
  | cons e E ih =>
    rw [pick_cons_of_not_fits (not_or.2 ⟨hcount, by omega⟩)]
    exact ih

/-- The oldest entry is always taken. -/
theorem pick_head (tokenBudget : ℕ) (e : Entry α κ) (E : List (Entry α κ)) :
    ∃ F, (pick tokenBudget 0 (e :: E)).1 = e :: F :=
  ⟨_, by rw [pick_cons_of_fits (Or.inl rfl)]⟩

/-- A batch is within its budget, unless its first sample alone is over it and is all it has. -/
theorem pick_within (tokenBudget : ℕ) (hpos : ∀ x ∈ E, 0 < x.length) :
    tokens (pick tokenBudget 0 E).1 ≤ tokenBudget ∨
      ∃ x, (pick tokenBudget 0 E).1 = [x] ∧ tokenBudget < x.length := by
  cases E with
  | nil => exact Or.inl (Nat.zero_le _)
  | cons e E =>
    have he : 0 + e.length ≠ 0 := by
      have := hpos e List.mem_cons_self
      omega
    rw [pick_cons_of_fits (Or.inl rfl)]
    by_cases h : e.length ≤ tokenBudget
    · have hle := tokens_pick_le (E := E) he (by omega : 0 + e.length ≤ tokenBudget)
      refine Or.inl ?_
      rw [tokens_cons]
      omega
    · refine Or.inr ⟨e, ?_, by omega⟩
      rw [pick_of_over he (by omega)]

theorem mem_of_mem_pick {x : Entry α κ} (h : x ∈ (pick tokenBudget count E).2) : x ∈ E :=
  (pick_perm tokenBudget count E).mem_iff.1 (List.mem_append_right _ h)

end Pick

/-! ### The batcher holds a list of entries -/

/-- The batcher with the given entries buffered. -/
def batcherOf (tokenBudget minBufferedSamples : ℕ) (E : List (Entry α κ)) :
    TextTokenBatcher α κ where
  tokenBudget := tokenBudget
  minBufferedSamples := minBufferedSamples
  buffer := E.map fun e => (e.sample, e.length)
  bufferOutputIndices := E.map Entry.outputIndex
  bufferTokenCount := tokens E

section BatcherOf

variable {tokenBudget minBufferedSamples : ℕ} {E : List (Entry α κ)} {len : α → ℕ}

theorem putItem_batcherOf {sample : α} (hpos : 0 < len sample) (outputIndex : Option (κ × ℕ)) :
    (batcherOf tokenBudget minBufferedSamples E).putItem len sample outputIndex =
      .ok (batcherOf tokenBudget minBufferedSamples (E ++ [⟨sample, len sample, outputIndex⟩])) := by
  rw [TextTokenBatcher.putItem, if_neg (by omega)]
  simp [batcherOf]

/-- The loop of `get_micro_batch`, from any selection on. -/
theorem foldl_selectStep (s : TextTokenBatcher.Selection α κ) (E : List (Entry α κ)) :
    ((E.map fun e => (e.sample, e.length)).zip (E.map Entry.outputIndex)).foldl
        (TextTokenBatcher.selectStep tokenBudget) s =
      { selectedSamples := s.selectedSamples ++
          (pick tokenBudget s.selectedTokenCount E).1.map Entry.sample
        remainingBuffer := s.remainingBuffer ++
          (pick tokenBudget s.selectedTokenCount E).2.map fun e => (e.sample, e.length)
        remainingBufferOutputIndices := s.remainingBufferOutputIndices ++
          (pick tokenBudget s.selectedTokenCount E).2.map Entry.outputIndex
        selectedTokenCount := s.selectedTokenCount +
          tokens (pick tokenBudget s.selectedTokenCount E).1 } := by
  induction E generalizing s with
  | nil => simp [pick]
  | cons e E ih =>
    rw [List.map_cons, List.map_cons, List.zip_cons_cons, List.foldl_cons, ih]
    by_cases h : s.selectedTokenCount = 0 ∨ s.selectedTokenCount + e.length ≤ tokenBudget
    · rw [pick_cons_of_fits h, TextTokenBatcher.selectStep, if_pos h]
      simp [Nat.add_assoc]
    · rw [pick_cons_of_not_fits h, TextTokenBatcher.selectStep, if_neg h]
      simp

theorem getMicroBatch_batcherOf (hE : E ≠ []) :
    (batcherOf tokenBudget minBufferedSamples E).getMicroBatch =
      .ok ((pick tokenBudget 0 E).1.map Entry.sample,
        batcherOf tokenBudget minBufferedSamples (pick tokenBudget 0 E).2) := by
  have hcount : tokens E - tokens (pick tokenBudget 0 E).1 = tokens (pick tokenBudget 0 E).2 := by
    have := tokens_pick tokenBudget 0 E
    omega
  rw [TextTokenBatcher.getMicroBatch, if_neg (by simpa [batcherOf] using hE)]
  simp only [batcherOf, foldl_selectStep]
  simp [hcount]

/-- Both thresholds are met. -/
def Ready (tokenBudget minBufferedSamples : ℕ) (E : List (Entry α κ)) : Prop :=
  minBufferedSamples ≤ E.length ∧ tokenBudget ≤ tokens E

instance : Decidable (Ready tokenBudget minBufferedSamples E) :=
  inferInstanceAs (Decidable (_ ∧ _))

theorem isReady_batcherOf :
    (batcherOf tokenBudget minBufferedSamples E).isReadyForMicroBatch =
      decide (Ready tokenBudget minBufferedSamples E) := by
  show (decide (minBufferedSamples ≤ (E.map fun e => (e.sample, e.length)).length) &&
    decide (tokenBudget ≤ tokens E)) = _
  rw [List.length_map, ← Bool.decide_and]
  rfl

theorem empty_batcherOf : (batcherOf tokenBudget minBufferedSamples E).empty = E.isEmpty := by
  simp [TextTokenBatcher.empty, batcherOf]

theorem Ready.ne_nil (hmin : 0 < minBufferedSamples)
    (h : Ready tokenBudget minBufferedSamples E) : E ≠ [] := by
  rintro rfl
  have := h.1
  simp at this
  omega

end BatcherOf

/-! ### What is still to be yielded -/

/-- Pull source batches until the buffer is ready or the source has no more. -/
def advance (tokenBudget minBufferedSamples : ℕ) :
    List (List (Entry α κ)) → List (Entry α κ) → List (List (Entry α κ)) × List (Entry α κ)
  | [], E => ([], E)
  | S :: src, E =>
      if Ready tokenBudget minBufferedSamples E then (S :: src, E)
      else advance tokenBudget minBufferedSamples src (E ++ S)

section Yields

variable {tokenBudget minBufferedSamples : ℕ} {src : List (List (Entry α κ))}
  {E : List (Entry α κ)} {ys zs : List (Yielded α κ)} {y : Yielded α κ}

theorem advance_of_ready (h : Ready tokenBudget minBufferedSamples E) :
    advance tokenBudget minBufferedSamples src E = (src, E) := by
  cases src with
  | nil => rfl
  | cons S src => rw [advance, if_pos h]

theorem advance_of_not_ready {S : List (Entry α κ)}
    (h : ¬ Ready tokenBudget minBufferedSamples E) :
    advance tokenBudget minBufferedSamples (S :: src) E =
      advance tokenBudget minBufferedSamples src (E ++ S) := by
  rw [advance, if_neg h]

/-- Nothing is lost while the buffer fills. -/
theorem advance_flatten (tokenBudget minBufferedSamples : ℕ) (src : List (List (Entry α κ))) (E : List (Entry α κ)) :
    (advance tokenBudget minBufferedSamples src E).2 ++
      (advance tokenBudget minBufferedSamples src E).1.flatten = E ++ src.flatten := by
  induction src generalizing E with
  | nil => rfl
  | cons S src ih =>
    by_cases h : Ready tokenBudget minBufferedSamples E
    · rw [advance_of_ready h]
    · rw [advance_of_not_ready h, ih, List.flatten_cons, List.append_assoc]

/-- The batches still to be yielded when `E` is buffered and `src` is left in the source.  A
source of `total` batches is left with as many as its cursor has not passed. -/
inductive Yields (tokenBudget minBufferedSamples total : ℕ) :
    List (List (Entry α κ)) → List (Entry α κ) → List (Yielded α κ) → Prop
  | done {src : List (List (Entry α κ))} {E : List (Entry α κ)}
      (h : (advance tokenBudget minBufferedSamples src E).2 = []) :
      Yields tokenBudget minBufferedSamples total src E []
  | yield {src src' : List (List (Entry α κ))} {E E' : List (Entry α κ)}
      {ys : List (Yielded α κ)} (h : advance tokenBudget minBufferedSamples src E = (src', E'))
      (hE : E' ≠ []) (rest : Yields tokenBudget minBufferedSamples total src'
        (pick tokenBudget 0 E').2 ys) :
      Yields tokenBudget minBufferedSamples total src E
        (⟨(pick tokenBudget 0 E').1.map Entry.sample,
          batcherOf tokenBudget minBufferedSamples (pick tokenBudget 0 E').2,
          total - src'.length⟩ :: ys)

variable {total : ℕ}

/-- What is still to be yielded is determined. -/
theorem Yields.unique (h : Yields tokenBudget minBufferedSamples total src E ys)
    (h' : Yields tokenBudget minBufferedSamples total src E zs) : ys = zs := by
  induction h generalizing zs with
  | done h =>
    cases h' with
    | done _ => rfl
    | yield heq hE _ =>
      rw [heq] at h
      exact absurd h hE
  | yield heq hE _ ih =>
    cases h' with
    | done h =>
      rw [heq] at h
      exact absurd h hE
    | yield heq' _ rest' =>
      obtain ⟨rfl, rfl⟩ := Prod.mk.inj (heq.symm.trans heq')
      rw [ih rest']

/-- Two places from which the buffer fills alike have the same batches to come. -/
theorem Yields.of_advance_eq {src' : List (List (Entry α κ))} {E' : List (Entry α κ)}
    (h : Yields tokenBudget minBufferedSamples total src' E' ys)
    (heq : advance tokenBudget minBufferedSamples src E =
      advance tokenBudget minBufferedSamples src' E') :
    Yields tokenBudget minBufferedSamples total src E ys := by
  cases h with
  | done h => exact .done (by rw [heq]; exact h)
  | yield h hE rest => exact .yield (heq.trans h) hE rest

theorem advance_suffix (tokenBudget minBufferedSamples : ℕ) (src : List (List (Entry α κ))) (E : List (Entry α κ)) :
    (advance tokenBudget minBufferedSamples src E).1 <:+ src := by
  induction src generalizing E with
  | nil => exact List.suffix_rfl
  | cons S src ih =>
    by_cases h : Ready tokenBudget minBufferedSamples E
    · exact ⟨[], by rw [advance_of_ready h, List.nil_append]⟩
    · rw [advance_of_not_ready h]
      exact (ih _).trans (List.suffix_cons S src)

/-- An empty buffer that no source batch filled: the source has no more. -/
theorem advance_nil (hmin : 0 < minBufferedSamples)
    (h : (advance tokenBudget minBufferedSamples src E).2 = []) :
    (advance tokenBudget minBufferedSamples src E).1 = [] := by
  induction src generalizing E with
  | nil => rfl
  | cons S src ih =>
    by_cases hready : Ready tokenBudget minBufferedSamples E
    · rw [advance_of_ready hready] at h
      exact absurd h (hready.ne_nil hmin)
    · rw [advance_of_not_ready hready] at h ⊢
      exact ih h

/-- Where the iterator stands after one of its batches. -/
structure StandsAt (tokenBudget minBufferedSamples total : ℕ) (src : List (List (Entry α κ)))
    (E : List (Entry α κ)) (y : Yielded α κ) (src' : List (List (Entry α κ)))
    (E' : List (Entry α κ)) : Prop where
  source : src' <:+ src
  buffered : ∀ e ∈ E', e ∈ E ++ src.flatten
  batcher : y.batcher = batcherOf tokenBudget minBufferedSamples E'
  cursor : y.cursor = total - src'.length

theorem mem_of_mem_advance {src' : List (List (Entry α κ))} {E' : List (Entry α κ)}
    {e : Entry α κ} (h : advance tokenBudget minBufferedSamples src E = (src', E'))
    (he : e ∈ E' ++ src'.flatten) : e ∈ E ++ src.flatten := by
  have := advance_flatten tokenBudget minBufferedSamples src E
  rw [h] at this
  exact this ▸ he

/-- After any of the batches, the rest is what is still to be yielded from there. -/
theorem Yields.suffix {pre post : List (Yielded α κ)}
    (h : Yields tokenBudget minBufferedSamples total src E (pre ++ y :: post)) :
    ∃ src' E', StandsAt tokenBudget minBufferedSamples total src E y src' E' ∧
      Yields tokenBudget minBufferedSamples total src' E' post := by
  induction pre generalizing src E with
  | nil =>
    cases h with
    | @yield _ src' _ E' _ heq hE rest =>
      refine ⟨src', _, ⟨?_, fun e he => ?_, rfl, rfl⟩, rest⟩
      · have := advance_suffix tokenBudget minBufferedSamples src E
        rwa [heq] at this
      · exact mem_of_mem_advance heq (List.mem_append_left _ (mem_of_mem_pick he))
  | cons x pre ih =>
    cases h with
    | @yield _ src₁ _ E₁ _ heq hE rest =>
      obtain ⟨src', E', hstands, hrest⟩ := ih rest
      have hsource : src₁ <:+ src := by
        have := advance_suffix tokenBudget minBufferedSamples src E
        rwa [heq] at this
      refine ⟨src', E', ⟨hstands.source.trans hsource, fun e he => ?_, hstands.batcher,
        hstands.cursor⟩, hrest⟩
      refine mem_of_mem_advance heq ?_
      rcases List.mem_append.1 (hstands.buffered e he) with he | he
      · exact List.mem_append_left _ (mem_of_mem_pick he)
      · exact List.mem_append_right _ he

/-- Every sample is in exactly one batch. -/
theorem Yields.perm (hmin : 0 < minBufferedSamples)
    (h : Yields tokenBudget minBufferedSamples total src E ys) :
    (ys.flatMap Yielded.modelSamples).Perm ((E ++ src.flatten).map Entry.sample) := by
  induction h with
  | @done src E h =>
    have hflat := advance_flatten tokenBudget minBufferedSamples src E
    rw [h, advance_nil hmin h] at hflat
    rw [← hflat]
    exact List.Perm.refl _
  | @yield src src' E E' ys heq hE rest ih =>
    have hflat := advance_flatten tokenBudget minBufferedSamples src E
    rw [heq] at hflat
    rw [List.flatMap_cons, ← hflat, List.map_append]
    refine (ih.append_left _).trans ?_
    rw [List.map_append, ← List.append_assoc, ← List.map_append]
    exact ((pick_perm tokenBudget 0 E').map _).append_right _

/-- The next batch begins with the oldest sample that is buffered or still to come. -/
theorem Yields.head {e : Entry α κ} (hmin : 0 < minBufferedSamples)
    (h : Yields tokenBudget minBufferedSamples total src E ys)
    (he : (E ++ src.flatten).head? = some e) :
    ∃ y post, ys = y :: post ∧ y.modelSamples.head? = some e.sample := by
  have hflat := advance_flatten tokenBudget minBufferedSamples src E
  rw [← hflat] at he
  cases h with
  | done h =>
    rw [h, advance_nil hmin h] at he
    cases he
  | @yield _ src' _ E' ys heq hE rest =>
    obtain ⟨x, F, rfl⟩ := List.exists_cons_of_ne_nil hE
    rw [heq] at he
    obtain rfl := Option.some.inj he
    obtain ⟨G, hG⟩ := pick_head tokenBudget x F
    exact ⟨_, ys, rfl, by rw [hG]; rfl⟩

/-- The lengths of the entries are those of their samples, and none is zero. -/
def Sized (len : α → ℕ) (E : List (Entry α κ)) : Prop :=
  ∀ e ∈ E, e.length = len e.sample ∧ 0 < e.length

theorem Sized.tokens {len : α → ℕ} (h : Sized len E) :
    tokens E = ((E.map Entry.sample).map len).sum := by
  rw [HyperParallel.Data.tokens, List.map_map]
  exact congrArg List.sum (List.map_congr_left fun e he => (h e he).1)

/-- Every batch is within the budget, or is one sample that alone is over it. -/
theorem Yields.within {len : α → ℕ} (h : Yields tokenBudget minBufferedSamples total src E ys)
    (hsized : Sized len (E ++ src.flatten)) : ∀ y ∈ ys,
      (y.modelSamples.map len).sum ≤ tokenBudget ∨
        ∃ s, y.modelSamples = [s] ∧ tokenBudget < len s := by
  induction h with
  | done _ => simp
  | @yield src src' E E' ys heq hE rest ih =>
    have hE' : Sized len E' := fun e he =>
      hsized e (mem_of_mem_advance heq (List.mem_append_left _ he))
    have hpicked : Sized len (pick tokenBudget 0 E').1 := fun e he =>
      hE' e ((pick_perm tokenBudget 0 E').mem_iff.1 (List.mem_append_left _ he))
    refine List.forall_mem_cons.2 ⟨?_, ih fun e he => hsized e (mem_of_mem_advance heq ?_)⟩
    · rw [← hpicked.tokens]
      rcases pick_within tokenBudget fun e he => (hE' e he).2 with hle | ⟨x, hx, hlt⟩
      · exact Or.inl hle
      · refine Or.inr ⟨x.sample, by rw [hx]; rfl, ?_⟩
        rwa [← (hpicked x (by rw [hx]; exact List.mem_singleton_self x)).1]
    · rcases List.mem_append.1 he with he | he
      · exact List.mem_append_left _ (mem_of_mem_pick he)
      · exact List.mem_append_right _ he

end Yields

/-! ### The generator yields exactly these batches -/

section Generator

variable {tokenBudget minBufferedSamples total : ℕ} {src : List (List (Entry α κ))}
  {E : List (Entry α κ)} {len : α → ℕ} {runtime : Runtime α κ}

theorem pick_length_lt (tokenBudget : ℕ) (hE : E ≠ []) : (pick tokenBudget 0 E).2.length < E.length := by
  obtain ⟨e, F, rfl⟩ := List.exists_cons_of_ne_nil hE
  obtain ⟨G, hG⟩ := pick_head tokenBudget e F
  have := length_pick tokenBudget 0 (e :: F)
  rw [hG, List.length_cons] at this
  omega

/-- The loop over a ready buffer. -/
theorem yields_yieldReady (tokenBudget total : ℕ) (hmin : 0 < minBufferedSamples) (src : List (List (Entry α κ)))
    (rounds : ℕ) (E : List (Entry α κ)) (hrounds : E.length ≤ rounds) :
    ∃ E', ¬ Ready tokenBudget minBufferedSamples E' ∧
      (yieldWhile TextTokenBatcher.isReadyForMicroBatch (total - src.length) rounds
        (batcherOf tokenBudget minBufferedSamples E)).2 =
          .ok (batcherOf tokenBudget minBufferedSamples E') ∧
      ∀ zs, Yields tokenBudget minBufferedSamples total src E' zs →
        Yields tokenBudget minBufferedSamples total src E
          ((yieldWhile TextTokenBatcher.isReadyForMicroBatch (total - src.length) rounds
            (batcherOf tokenBudget minBufferedSamples E)).1 ++ zs) := by
  induction rounds generalizing E with
  | zero =>
    obtain rfl := List.length_eq_zero_iff.1 (Nat.le_zero.1 hrounds)
    exact ⟨[], fun h => h.ne_nil hmin rfl, rfl, fun zs hzs => hzs⟩
  | succ rounds ih =>
    by_cases hready : Ready tokenBudget minBufferedSamples E
    · have hE := hready.ne_nil hmin
      have hlt := pick_length_lt tokenBudget hE
      obtain ⟨E', hnot, hok, hys⟩ := ih (pick tokenBudget 0 E).2 (by omega)
      have hcond : (batcherOf tokenBudget minBufferedSamples E).isReadyForMicroBatch = true := by
        rw [isReady_batcherOf, decide_eq_true hready]
      simp only [yieldWhile, if_pos hcond, getMicroBatch_batcherOf hE]
      exact ⟨E', hnot, hok, fun zs hzs => .yield (advance_of_ready hready) hE (hys zs hzs)⟩
    · have hcond : ¬ (batcherOf tokenBudget minBufferedSamples E).isReadyForMicroBatch = true := by
        rw [isReady_batcherOf, decide_eq_true_eq]
        exact hready
      simp only [yieldWhile, if_neg hcond]
      exact ⟨E, hready, rfl, fun zs hzs => hzs⟩

/-- The last loop empties the buffer. -/
theorem yields_yieldTail (tokenBudget minBufferedSamples total : ℕ) (rounds : ℕ) (E : List (Entry α κ)) (hrounds : E.length ≤ rounds) :
    (yieldWhile (fun b => !b.empty) total rounds
      (batcherOf tokenBudget minBufferedSamples E)).2 =
        .ok (batcherOf tokenBudget minBufferedSamples []) ∧
      Yields tokenBudget minBufferedSamples total [] E
        (yieldWhile (fun b => !b.empty) total rounds
          (batcherOf tokenBudget minBufferedSamples E)).1 := by
  induction rounds generalizing E with
  | zero =>
    obtain rfl := List.length_eq_zero_iff.1 (Nat.le_zero.1 hrounds)
    exact ⟨rfl, .done rfl⟩
  | succ rounds ih =>
    by_cases hE : E = []
    · subst hE
      exact ⟨rfl, .done rfl⟩
    · have hlt := pick_length_lt tokenBudget hE
      obtain ⟨hok, hys⟩ := ih (pick tokenBudget 0 E).2 (by omega)
      have hcond : (!(batcherOf tokenBudget minBufferedSamples E).empty) = true := by
        rw [empty_batcherOf, List.isEmpty_eq_false_iff.2 hE]
        rfl
      simp only [yieldWhile, hcond, if_true, getMicroBatch_batcherOf hE]
      exact ⟨hok, .yield (show advance _ _ [] E = ([], E) from rfl) hE hys⟩

/-- The entries a source item is buffered as. -/
def Runtime.entries (len : α → ℕ) (runtime : Runtime α κ) (x : SourceItem α × κ) :
    List (Entry α κ) :=
  (runtime.sourceEntries x).map fun s => ⟨s.1, len s.1, s.2⟩

/-- The entries the batches of a source are buffered as. -/
def Runtime.sourceOf (len : α → ℕ) (runtime : Runtime α κ)
    (source : List (List (SourceItem α × κ))) : List (List (Entry α κ)) :=
  source.map fun sourceSamples => sourceSamples.flatMap (runtime.entries len)

theorem map_sample_entries (len : α → ℕ) (runtime : Runtime α κ) (x : SourceItem α × κ) :
    (runtime.entries len x).map Entry.sample = x.1.normalize := by
  cases runtime with
  | index getItem => simp [Runtime.entries, Runtime.sourceEntries, Function.comp_def]
  | full replayDataset => simp [Runtime.entries, Runtime.sourceEntries, Function.comp_def]

theorem foldlM_putItem (samples : List (α × Option (κ × ℕ))) (E : List (Entry α κ))
    (hpos : ∀ s ∈ samples, 0 < len s.1) :
    samples.foldlM (fun b s => TextTokenBatcher.putItem len b s.1 s.2)
        (batcherOf tokenBudget minBufferedSamples E) =
      .ok (batcherOf tokenBudget minBufferedSamples
        (E ++ samples.map fun s => ⟨s.1, len s.1, s.2⟩)) := by
  induction samples generalizing E with
  | nil => simp [pure, Except.pure]
  | cons s samples ih =>
    rw [List.foldlM_cons, putItem_batcherOf (hpos s List.mem_cons_self)]
    show List.foldlM _ _ samples = _
    rw [ih _ fun x hx => hpos x (List.mem_cons_of_mem _ hx)]
    simp

/-- All samples of the items have tokens. -/
def Positive (len : α → ℕ) (items : List (SourceItem α × κ)) : Prop :=
  ∀ x ∈ items, ∀ s ∈ x.1.normalize, 0 < len s

theorem foldlM_putSourceItem (items : List (SourceItem α × κ)) (E : List (Entry α κ))
    (hpos : Positive len items) :
    items.foldlM (runtime.putSourceItem len) (batcherOf tokenBudget minBufferedSamples E) =
      .ok (batcherOf tokenBudget minBufferedSamples (E ++ items.flatMap (runtime.entries len))) := by
  induction items generalizing E with
  | nil => simp [pure, Except.pure]
  | cons x items ih =>
    have hx : ∀ s ∈ runtime.sourceEntries x, 0 < len s.1 := by
      intro s hs
      refine hpos x List.mem_cons_self s.1 ?_
      rw [← map_sample_entries len runtime]
      exact List.mem_map_of_mem (List.mem_map_of_mem hs)
    rw [List.foldlM_cons, Runtime.putSourceItem, foldlM_putItem _ _ hx]
    show List.foldlM _ _ items = _
    rw [ih _ fun y hy => hpos y (List.mem_cons_of_mem _ hy), List.append_assoc]
    rfl

/-- The loop over the source. -/
theorem yields_fillFromSource (runtime : Runtime α κ) (hmin : 0 < minBufferedSamples)
    (source : List (List (SourceItem α × κ))) (cursor : ℕ) (E : List (Entry α κ))
    (hcursor : cursor + source.length = total) (hpos : Positive len source.flatten)
    (hE : ¬ Ready tokenBudget minBufferedSamples E) :
    ∃ E', (fillFromSource len runtime cursor source
        (batcherOf tokenBudget minBufferedSamples E)).2 =
          .ok (batcherOf tokenBudget minBufferedSamples E') ∧
      ∀ zs, Yields tokenBudget minBufferedSamples total [] E' zs →
        Yields tokenBudget minBufferedSamples total (runtime.sourceOf len source) E
          ((fillFromSource len runtime cursor source
            (batcherOf tokenBudget minBufferedSamples E)).1 ++ zs) := by
  induction source generalizing cursor E with
  | nil => exact ⟨E, rfl, fun zs hzs => hzs⟩
  | cons items source ih =>
    have hitems : Positive len items := fun x hx => hpos x (by simp [hx])
    have hrest : Positive len source.flatten := fun x hx => hpos x (by
      rw [List.flatten_cons]
      exact List.mem_append_right _ hx)
    rw [List.length_cons] at hcursor
    have hlength : total - (runtime.sourceOf len source).length = cursor + 1 := by
      rw [Runtime.sourceOf, List.length_map]
      omega
    obtain ⟨E₁, hnot, hok, hys⟩ := yields_yieldReady tokenBudget total
      hmin (runtime.sourceOf len source) _ (E ++ items.flatMap (runtime.entries len)) le_rfl
    rw [hlength] at hok hys
    obtain ⟨E', hok', hys'⟩ := ih (cursor + 1) E₁ (by omega) hrest hnot
    have hlen : (batcherOf tokenBudget minBufferedSamples
        (E ++ items.flatMap (runtime.entries len))).buffer.length =
          (E ++ items.flatMap (runtime.entries len)).length := by
      simp [batcherOf]
    have heq : fillFromSource len runtime cursor (items :: source)
        (batcherOf tokenBudget minBufferedSamples E) =
          ((yieldReady (cursor + 1) (batcherOf tokenBudget minBufferedSamples
              (E ++ items.flatMap (runtime.entries len)))).1 ++
            (fillFromSource len runtime (cursor + 1) source
              (batcherOf tokenBudget minBufferedSamples E₁)).1,
            (fillFromSource len runtime (cursor + 1) source
              (batcherOf tokenBudget minBufferedSamples E₁)).2) := by
      rw [fillFromSource, foldlM_putSourceItem _ _ hitems]
      show Generated.andThen _ _ = _
      rw [Generated.andThen, yieldReady, hlen, hok]
    refine ⟨E', by rw [heq]; exact hok', fun zs hzs => ?_⟩
    rw [heq, List.append_assoc, yieldReady, hlen]
    exact (hys _ (hys' zs hzs)).of_advance_eq (advance_of_not_ready hE)

/-- The generator, from any buffer, yields what is still to be yielded and ends with an empty
buffer. -/
theorem yields_batchDataGenerator (len : α → ℕ) (runtime : Runtime α κ) (tokenBudget : ℕ) (hmin : 0 < minBufferedSamples)
    (source : List (List (SourceItem α × κ))) (cursor : ℕ) (E : List (Entry α κ))
    (hcursor : cursor + source.length = total) (hpos : Positive len source.flatten) :
    (batchDataGenerator len runtime cursor source
      (batcherOf tokenBudget minBufferedSamples E)).2 =
        .ok (batcherOf tokenBudget minBufferedSamples []) ∧
    Yields tokenBudget minBufferedSamples total (runtime.sourceOf len source) E
      (batchDataGenerator len runtime cursor source
        (batcherOf tokenBudget minBufferedSamples E)).1 := by
  have hlength : total - (runtime.sourceOf len source).length = cursor := by
    rw [Runtime.sourceOf, List.length_map]
    omega
  have hbuffer : ∀ F : List (Entry α κ),
      (batcherOf tokenBudget minBufferedSamples F).buffer.length = F.length := fun F => by
    simp [batcherOf]
  obtain ⟨E₁, hnot, hok, hys⟩ := yields_yieldReady tokenBudget total
    hmin (runtime.sourceOf len source) _ E le_rfl
  rw [hlength] at hok hys
  obtain ⟨E₂, hok₂, hys₂⟩ := yields_fillFromSource runtime hmin source cursor E₁
    hcursor hpos hnot
  obtain ⟨hok₃, hys₃⟩ := yields_yieldTail tokenBudget minBufferedSamples total _ E₂ le_rfl
  have heq : batchDataGenerator len runtime cursor source
      (batcherOf tokenBudget minBufferedSamples E) =
        ((yieldReady cursor (batcherOf tokenBudget minBufferedSamples E)).1 ++
          ((fillFromSource len runtime cursor source
            (batcherOf tokenBudget minBufferedSamples E₁)).1 ++
            (yieldTail total (batcherOf tokenBudget minBufferedSamples E₂)).1),
          (yieldTail total (batcherOf tokenBudget minBufferedSamples E₂)).2) := by
    simp only [batchDataGenerator, Generated.andThen, yieldReady, hbuffer, hok, hok₂, hcursor]
  rw [heq]
  simp only [yieldReady, yieldTail, hbuffer]
  exact ⟨hok₃, hys _ (hys₂ _ hys₃)⟩

end Generator

/-! ### A saved buffer is restored as it was -/

section Restore

variable {E : List (Entry α κ)} {len : α → ℕ}
  {runtime : Runtime α κ}

/-- An index rebuilds the item it came with. -/
def Runtime.Replays : Runtime α κ → List (SourceItem α × κ) → Prop
  | .index getItem, items => ∀ x ∈ items, (getItem x.2).normalize = x.1.normalize
  | .full _, _ => True

/-- The entry can be rebuilt from a checkpoint. -/
def Runtime.Restorable : Runtime α κ → Entry α κ → Prop
  | .index getItem, e => ∃ k i, e.outputIndex = some (k, i) ∧
      (getItem k).normalize[i]? = some e.sample
  | .full _, e => e.outputIndex = none

theorem restorable_of_mem_entries {items : List (SourceItem α × κ)} {e : Entry α κ}
    (hreplay : runtime.Replays items) (he : e ∈ items.flatMap (runtime.entries len)) :
    runtime.Restorable e := by
  obtain ⟨x, hx, he⟩ := List.mem_flatMap.1 he
  obtain ⟨s, hs, rfl⟩ := List.mem_map.1 he
  cases runtime with
  | index getItem =>
    obtain ⟨z, hz, rfl⟩ := List.mem_map.1 hs
    refine ⟨x.2, z.2, rfl, ?_⟩
    rw [hreplay x hx]
    exact List.mem_zipIdx_iff_getElem?.1 hz
  | full replayDataset =>
    obtain ⟨z, hz, rfl⟩ := List.mem_map.1 hs
    rfl

theorem sized_of_mem_entries {items : List (SourceItem α × κ)} {e : Entry α κ}
    (hpos : Positive len items) (he : e ∈ items.flatMap (runtime.entries len)) :
    e.length = len e.sample ∧ 0 < e.length := by
  obtain ⟨x, hx, he⟩ := List.mem_flatMap.1 he
  have hsample : e.sample ∈ x.1.normalize := by
    rw [← map_sample_entries len runtime]
    exact List.mem_map_of_mem he
  obtain ⟨s, -, rfl⟩ := List.mem_map.1 he
  exact ⟨rfl, hpos x hx _ hsample⟩

/-- The replay keys of entries that are all replayed by index. -/
theorem exists_keys {getItem : κ → SourceItem α}
    (h : ∀ e ∈ E, (Runtime.index getItem).Restorable e) :
    ∃ keys : List (κ × ℕ), E.map Entry.outputIndex = keys.map some ∧
      List.Forall₂ (fun e k => (getItem k.1).normalize[k.2]? = some e.sample) E keys := by
  induction E with
  | nil => exact ⟨[], rfl, .nil⟩
  | cons e E ih =>
    obtain ⟨k, i, hk, hsample⟩ := h e List.mem_cons_self
    obtain ⟨keys, hkeys, hall⟩ := ih fun x hx => h x (List.mem_cons_of_mem _ hx)
    exact ⟨(k, i) :: keys, by rw [List.map_cons, List.map_cons, hk, hkeys], .cons hsample hall⟩

theorem mapM_id_map_some {γ : Type u} (l : List γ) : (l.map some).mapM id = some l := by
  induction l with
  | nil => rfl
  | cons x l ih => simp [ih]

theorem samplesAt_eq [DecidableEq κ] {getItem : κ → SourceItem α} {cached : Option (κ × List α)}
    (hcached : ∀ c ∈ cached, c.2 = (getItem c.1).normalize) (k : κ) :
    Runtime.samplesAt getItem cached k = (getItem k).normalize := by
  cases cached with
  | none => rfl
  | some c =>
    rw [Runtime.samplesAt]
    split_ifs with hk
    · rw [hk]
      exact hcached c rfl
    · rfl

/-- The loop of `_restore_index_buffer`: the item it has cached is the one its index rebuilds. -/
theorem restoreIndexBuffer_eq [DecidableEq κ] {getItem : κ → SourceItem α}
    {cached : Option (κ × List α)} (hcached : ∀ c ∈ cached, c.2 = (getItem c.1).normalize)
    {keys : List (κ × ℕ)}
    (h : List.Forall₂ (fun e k => (getItem k.1).normalize[k.2]? = some e.sample) E keys)
    (hsized : Sized len E) :
    Runtime.restoreIndexBuffer len getItem cached keys =
      .ok (E.map fun e => (e.sample, e.length)) := by
  induction h generalizing cached with
  | nil => rfl
  | @cons e k E keys hk _ ih =>
    obtain ⟨hlen, hpos⟩ := hsized e List.mem_cons_self
    rw [Runtime.restoreIndexBuffer]
    simp only [samplesAt_eq hcached, hk]
    rw [if_neg (by omega), ih (fun c hc => by
        obtain rfl := Option.mem_some.1 hc
        rfl)
      fun x hx => hsized x (List.mem_cons_of_mem _ hx), ← hlen]
    rfl

/-- What `get_buffer_state` saves, `restore_buffer` gives back. -/
theorem restore_getBufferState [DecidableEq κ] (tokenBudget minBufferedSamples : ℕ)
    (h : ∀ e ∈ E, runtime.Restorable e)
    (hsized : Sized len E) :
    ∃ saved, runtime.getBufferState (batcherOf tokenBudget minBufferedSamples E) = .ok saved ∧
      runtime.restoreBuffer len saved =
        .ok (E.map fun e => (e.sample, e.length), E.map Entry.outputIndex) := by
  have hlen : ¬ (batcherOf tokenBudget minBufferedSamples E).buffer.length ≠
      (batcherOf tokenBudget minBufferedSamples E).bufferOutputIndices.length := by
    simp [batcherOf]
  cases runtime with
  | index getItem =>
    obtain ⟨keys, hkeys, hall⟩ := exists_keys h
    refine ⟨.byIdx keys, ?_, ?_⟩
    · rw [Runtime.getBufferState, if_neg hlen]
      simp only [batcherOf, hkeys, mapM_id_map_some]
    · rw [Runtime.restoreBuffer, restoreIndexBuffer_eq (by simp) hall hsized, hkeys]
      rfl
  | full replayDataset =>
    refine ⟨.full (E.map fun e => (e.sample, e.length)), ?_, ?_⟩
    · rw [Runtime.getBufferState, if_neg hlen]
      rfl
    · have hnone : E.map Entry.outputIndex =
          List.replicate (E.map fun e => (e.sample, e.length)).length none := by
        rw [List.length_map, List.eq_replicate_iff, List.length_map]
        refine ⟨rfl, fun o ho => ?_⟩
        obtain ⟨e, he, rfl⟩ := List.mem_map.1 ho
        exact h e he
      rw [hnone]
      cases replayDataset <;> rfl

end Restore

/-! ### The loader -/

/-- A run of the loader: the batches hold every sample of the source exactly once, each is within
the budget or is one oversized sample, each begins with the oldest sample still held, and a loader
restored from a checkpoint taken at any batch goes on with exactly the batches that follow. -/
theorem dynamicBatch_resumes [DecidableEq κ] (len : α → ℕ) (loader : DynamicBatchDataLoader α κ)
    {tokenBudget minBufferedSamples : ℕ}
    (hbatcher : TextTokenBatcher.init tokenBudget minBufferedSamples = .ok loader.batcher)
    (hcursor : loader.cursor = 0) (hpos : Positive len loader.source.flatten)
    (hreplay : loader.runtime.Replays loader.source.flatten) :
    (∃ b, (loader.iter len).2 = .ok b ∧ b.buffer = []) ∧
    ((loader.iter len).1.flatMap Yielded.modelSamples).Perm
      (loader.source.flatten.flatMap fun x => x.1.normalize) ∧
    (∀ y ∈ (loader.iter len).1, (y.modelSamples.map len).sum ≤ tokenBudget ∨
      ∃ s, y.modelSamples = [s] ∧ tokenBudget < len s) ∧
    (∀ s, (loader.source.flatten.flatMap fun x => x.1.normalize).head? = some s →
      ∃ y post, (loader.iter len).1 = y :: post ∧ y.modelSamples.head? = some s) ∧
    ∀ pre y post, (loader.iter len).1 = pre ++ y :: post →
      (∀ x ∈ y.batcher.buffer.head?, ∃ y' post', post = y' :: post' ∧
        y'.modelSamples.head? = some x.1) ∧
      ∃ state restored, (loader.at_ y).stateDict = .ok state ∧
        loader.loadStateDict len state = .ok restored ∧
        restored.iter len = (post, (loader.iter len).2) := by
  have hmin : 0 < minBufferedSamples := by
    by_contra h
    simp [TextTokenBatcher.init, Nat.eq_zero_of_not_pos h] at hbatcher
    split at hbatcher <;> cases hbatcher
  have hinit : loader.batcher = batcherOf tokenBudget minBufferedSamples [] := by
    rw [TextTokenBatcher.init] at hbatcher
    split_ifs at hbatcher
    exact (Except.ok.inj hbatcher).symm
  have hclear : (if loader.resumePending then loader.batcher
      else { loader.batcher with
        buffer := [], bufferOutputIndices := [], bufferTokenCount := 0 }) =
      batcherOf tokenBudget minBufferedSamples [] := by
    rw [hinit]
    cases loader.resumePending <;> rfl
  have hiter : loader.iter len = batchDataGenerator len loader.runtime 0 loader.source
      (batcherOf tokenBudget minBufferedSamples []) := by
    rw [DynamicBatchDataLoader.iter, hcursor, hclear, List.drop_zero]
  obtain ⟨hok, hys⟩ := yields_batchDataGenerator len loader.runtime tokenBudget hmin
    loader.source 0 [] (Nat.zero_add _) hpos
  rw [← hiter] at hok hys
  have hflatten : (loader.runtime.sourceOf len loader.source).flatten =
      loader.source.flatten.flatMap (loader.runtime.entries len) := by
    rw [Runtime.sourceOf]
    generalize loader.source = source
    induction source with
    | nil => rfl
    | cons items source ih => simp [ih]
  have hsamples : ((loader.runtime.sourceOf len loader.source).flatten).map Entry.sample =
      loader.source.flatten.flatMap fun x => x.1.normalize := by
    rw [hflatten, List.map_flatMap]
    exact List.flatMap_congr fun x _ => map_sample_entries len loader.runtime x
  have hsized : Sized len ([] ++ (loader.runtime.sourceOf len loader.source).flatten) := by
    intro e he
    rw [List.nil_append, hflatten] at he
    exact sized_of_mem_entries hpos he
  have hsource : ∀ n, loader.runtime.sourceOf len (loader.source.drop n) =
      (loader.runtime.sourceOf len loader.source).drop n := fun n => List.map_drop
  have htotal : (loader.runtime.sourceOf len loader.source).length = loader.source.length :=
    List.length_map _
  refine ⟨⟨_, hok, rfl⟩, ?_, hys.within hsized, fun s hs => ?_, fun pre y post hsplit => ?_⟩
  · rw [← hsamples]
    exact hys.perm hmin
  · rw [← hsamples, List.head?_map] at hs
    obtain ⟨e, he, rfl⟩ := Option.map_eq_some_iff.1 hs
    exact hys.head hmin he
  · rw [hsplit] at hys
    obtain ⟨src', E', hstands, hrest⟩ := hys.suffix
    refine ⟨fun x hx => ?_, ?_⟩
    · obtain ⟨e, F, rfl⟩ : ∃ e F, E' = e :: F := by
        refine List.exists_cons_of_ne_nil ?_
        rintro rfl
        rw [hstands.batcher] at hx
        cases hx
      rw [hstands.batcher] at hx
      obtain rfl := Option.mem_some.1 hx
      exact hrest.head hmin rfl
    · have hrestorable : ∀ e ∈ E', loader.runtime.Restorable e := fun e he => by
        have := hstands.buffered e he
        rw [List.nil_append, hflatten] at this
        exact restorable_of_mem_entries hreplay this
      have hsized' : Sized len E' := fun e he => hsized e (hstands.buffered e he)
      obtain ⟨saved, hsaved, hrestored⟩ := restore_getBufferState
        tokenBudget minBufferedSamples hrestorable hsized'
      have hsum : ((E'.map fun e => (e.sample, e.length)).map Prod.snd).sum = tokens E' := by
        rw [tokens, List.map_map]
        rfl
      refine ⟨⟨loader.dpWorldSize, y.cursor, saved, tokens E'⟩, { loader with
        cursor := y.cursor, batcher := y.batcher, resumePending := true }, ?_, ?_, ?_⟩
      · rw [DynamicBatchDataLoader.stateDict, DynamicBatchDataLoader.at_, hstands.batcher, hsaved]
        rfl
      · rw [DynamicBatchDataLoader.loadStateDict, if_neg (not_not.2 rfl), hrestored]
        show (if _ then _ else _) = _
        rw [if_neg (not_not.2 hsum), hinit, hstands.batcher, hsum]
        rfl
      · have hdrop : src' = loader.runtime.sourceOf len (loader.source.drop y.cursor) := by
          rw [hsource, hstands.cursor, ← htotal]
          exact List.suffix_iff_eq_drop.1 hstands.source
        have hle : y.cursor ≤ loader.source.length := by
          rw [hstands.cursor]
          exact Nat.sub_le _ _
        obtain ⟨hok', hys'⟩ := yields_batchDataGenerator len loader.runtime tokenBudget hmin
          (loader.source.drop y.cursor) y.cursor E'
          (show y.cursor + (loader.source.drop y.cursor).length = loader.source.length by
            rw [List.length_drop]
            omega)
          fun x hx => by
            obtain ⟨items, hitems, hx⟩ := List.mem_flatten.1 hx
            exact hpos x (List.mem_flatten.2 ⟨items, List.mem_of_mem_drop hitems, hx⟩)
        rw [DynamicBatchDataLoader.iter]
        simp only [if_true]
        rw [hstands.batcher, hok, ← hok']
        refine Prod.ext ?_ rfl
        rw [← hdrop] at hys'
        exact hys'.unique hrest

/-- Two items replayed by index, the second of two samples, under a budget of four tokens. -/
theorem dynamicBatch_resumes_twoItems :
    let loader : DynamicBatchDataLoader ℕ ℕ :=
      { dpWorldSize := 1
        runtime := .index fun k => if k = 0 then .mapping 5 else .sequence [3, 2]
        batcher := { tokenBudget := 4, minBufferedSamples := 2 }
        source := [[(.mapping 5, 0)], [(.sequence [3, 2], 1)]] }
    ((loader.iter id).1.flatMap Yielded.modelSamples).Perm [5, 3, 2] :=
  (dynamicBatch_resumes id
    { dpWorldSize := 1
      runtime := .index fun k => if k = 0 then .mapping 5 else .sequence [3, 2]
      batcher := { tokenBudget := 4, minBufferedSamples := 2 }
      source := [[(.mapping 5, 0)], [(.sequence [3, 2], 1)]] }
    (show TextTokenBatcher.init 4 2 = _ from rfl) rfl
    (by simp [Positive, SourceItem.normalize])
    (by simp [Runtime.Replays, SourceItem.normalize])).2.1

end HyperParallel.Data
