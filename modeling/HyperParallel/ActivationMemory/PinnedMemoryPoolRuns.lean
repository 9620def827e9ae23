import HyperParallel.ActivationMemory.PinnedMemoryPool
import Mathlib.Data.Nat.Size
import Mathlib.Tactic.Common

/-!
# Runs of the pinned memory pool

* `Ok`: what holds of a block in each place; `Inv`: every block is in one place and is as it has to
  be there;
* `Inv.move`: blocks that change places keep the invariant.
-/

namespace HyperParallel.ActivationMemory

theorem le_alignedSize (alignLimit size : ℕ) : size ≤ alignedSize alignLimit size := by
  unfold alignedSize
  split_ifs
  · exact le_rfl
  · exact le_max_right _ _

namespace PoolState

variable {s s' : PoolState}

/-- What holds of a block in a place. -/
def Ok (s : PoolState) (block : ℕ) : Place → Prop
  | .handedOut view => view.block = block ∧ (s.blocks block).state = .inUse ∧
      (s.blocks block).storageKey = some view.key ∧ view.length = view.requested ∧
      view.length ≤ (s.blocks block).capacity ∧ s.Settled block
  | .available capacity => (s.blocks block).capacity = capacity ∧
      (s.blocks block).state = .available ∧ (s.blocks block).storageKey ≠ none ∧ s.Settled block
  | .pending capacity => (s.blocks block).capacity = capacity ∧
      (s.blocks block).state = .pending ∧ (s.blocks block).storageKey ≠ none ∧
      (s.blocks block).event ≠ none ∧ (s.blocks block).event = s.lastEvent block
  | .acquiring (.created _ size) => (s.blocks block).state = .inUse ∧
      (s.blocks block).storageKey = none ∧
      (s.blocks block).capacity = alignedSize s.alignLimit size ∧ s.Settled block
  | .acquiring (.waiting _ size event) => (s.blocks block).state = .inUse ∧
      (s.blocks block).storageKey ≠ none ∧ size ≤ (s.blocks block).capacity ∧ event ≠ none ∧
      event = s.lastEvent block
  | .acquiring (.restorePending _ event) => (s.blocks block).state = .inUse ∧
      (s.blocks block).storageKey ≠ none ∧ event ≠ none ∧ event = s.lastEvent block
  | .acquiring (.synced _ size) => (s.blocks block).state = .inUse ∧
      (s.blocks block).storageKey ≠ none ∧ size ≤ (s.blocks block).capacity ∧ s.Settled block
  | .acquiring (.restoreAvailable _) => (s.blocks block).state = .inUse ∧
      (s.blocks block).storageKey ≠ none ∧ s.Settled block
  | .acquiring _ => False

/-- The invariant of the pool. -/
structure Inv (s : PoolState) : Prop where
  availableKeys : (s.available.map Prod.fst).Nodup
  pendingKeys : (s.pending.map Prod.fst).Nodup
  once : (s.located.map Prod.fst).Nodup
  known : ∀ x ∈ s.located, x.1 < s.nextBlock
  fresh : ∀ block, s.nextBlock ≤ block → s.lastEvent block = none
  ok : ∀ x ∈ s.located, s.Ok x.1 x.2
  kept : ∀ block, (s.blocks block).storageKey ≠ none → block ∈ s.located.map Prod.fst
  table : ∀ key block, s.table key = some block ↔ (s.blocks block).storageKey = some key
  counted : s.totalAllocated = (s.located.map fun x => (s.blocks x.1).capacity).sum +
    (s.acquiring.map (Acquiring.reserved s.alignLimit)).sum
  bounded : s.totalAllocated ≤ s.maxHostBytes

/-- The blocks a move does not touch are as they were. -/
structure Untouched (s s' : PoolState) (moved : List ℕ) : Prop where
  blocks : ∀ block ∉ moved, s'.blocks block = s.blocks block
  lastEvent : ∀ block ∉ moved, s'.lastEvent block = s.lastEvent block
  capacity : ∀ block, (s'.blocks block).capacity = (s.blocks block).capacity
  completed : s'.completed = s.completed
  nextBlock : s'.nextBlock = s.nextBlock
  alignLimit : s'.alignLimit = s.alignLimit
  maxHostBytes : s'.maxHostBytes = s.maxHostBytes

theorem Ok.untouched {block : ℕ} {place : Place} {moved : List ℕ} (h : s.Ok block place)
    (hu : Untouched s s' moved) (hblock : block ∉ moved) : s'.Ok block place := by
  have hb := hu.blocks block hblock
  have hl := hu.lastEvent block hblock
  unfold Ok Settled at *
  rw [hb, hl, hu.completed, hu.alignLimit]
  exact h

/-- Blocks change places. -/
theorem Inv.move (hs : Inv s) (moves : List (ℕ × Place × Place)) {L : List (ℕ × Place)}
    (hu : Untouched s s' (moves.map Prod.fst))
    (hfrom : s.located.Perm (moves.map (fun m => (m.1, m.2.1)) ++ L))
    (hto : s'.located.Perm (moves.map (fun m => (m.1, m.2.2)) ++ L))
    (havailable : (s'.available.map Prod.fst).Nodup) (hpending : (s'.pending.map Prod.fst).Nodup)
    (htable : ∀ key block, s'.table key = some block ↔ (s'.blocks block).storageKey = some key)
    (htotal : s'.totalAllocated + (s.acquiring.map (Acquiring.reserved s.alignLimit)).sum =
      s.totalAllocated + (s'.acquiring.map (Acquiring.reserved s.alignLimit)).sum)
    (hbounded : s'.totalAllocated ≤ s.maxHostBytes)
    (hok : ∀ m ∈ moves, s'.Ok m.1 m.2.2) : Inv s' := by
  have hfst : (s'.located.map Prod.fst).Perm (s.located.map Prod.fst) := by
    refine (hto.map _).trans (List.Perm.trans ?_ (hfrom.map _).symm)
    rw [List.map_append, List.map_append, List.map_map, List.map_map]
    exact List.Perm.refl _
  have honce := hs.once
  rw [(hfrom.map Prod.fst).nodup_iff, List.map_append, List.map_map] at honce
  have hsplit : ∀ x ∈ s'.located, (∃ m ∈ moves, x = (m.1, m.2.2)) ∨
      (x ∈ s.located ∧ x.1 ∉ moves.map Prod.fst) := by
    intro x hx
    rcases List.mem_append.1 (hto.mem_iff.1 hx) with hx | hx
    · obtain ⟨m, hm, rfl⟩ := List.mem_map.1 hx
      exact Or.inl ⟨m, hm, rfl⟩
    · refine Or.inr ⟨hfrom.mem_iff.2 (List.mem_append_right _ hx), fun hmem => ?_⟩
      exact (List.disjoint_of_nodup_append honce) hmem (List.mem_map_of_mem hx)
  have hmem : ∀ m ∈ moves, m.1 ∈ s.located.map Prod.fst := fun m hm =>
    (hfrom.map Prod.fst).mem_iff.2 (by
      rw [List.map_append, List.map_map]
      exact List.mem_append_left _ (List.mem_map_of_mem (f := Prod.fst) hm))
  refine ⟨havailable, hpending, hfst.nodup_iff.2 hs.once, fun x hx => ?_, fun block hblock => ?_,
    fun x hx => ?_, fun block hblock => ?_, htable, ?_, ?_⟩
  · rw [hu.nextBlock]
    obtain ⟨y, hy, hyx⟩ := List.mem_map.1 (hfst.mem_iff.1 (List.mem_map_of_mem hx))
    rw [← hyx]
    exact hs.known y hy
  · rw [hu.nextBlock] at hblock
    rw [hu.lastEvent block fun hmoved => ?_, hs.fresh block hblock]
    obtain ⟨m, hm, rfl⟩ := List.mem_map.1 hmoved
    obtain ⟨y, hy, hym⟩ := List.mem_map.1 (hmem m hm)
    exact absurd (hs.known y hy) (hym ▸ not_lt_of_ge hblock)
  · rcases hsplit x hx with ⟨m, hm, rfl⟩ | ⟨hx, hnot⟩
    · exact hok m hm
    · exact (hs.ok x hx).untouched hu hnot
  · rw [hfst.mem_iff]
    by_cases hmoved : block ∈ moves.map Prod.fst
    · obtain ⟨m, hm, rfl⟩ := List.mem_map.1 hmoved
      exact hmem m hm
    · rw [hu.blocks block hmoved] at hblock
      exact hs.kept block hblock
  · have hsum : (s'.located.map fun x => (s'.blocks x.1).capacity).sum =
        (s.located.map fun x => (s.blocks x.1).capacity).sum := by
      have h := (hfst.map fun block => (s.blocks block).capacity).sum_eq
      rw [List.map_map, List.map_map] at h
      rw [show (fun x : ℕ × Place => (s'.blocks x.1).capacity) =
        fun x => (s.blocks x.1).capacity from funext fun x => hu.capacity x.1]
      exact h
    have := hs.counted
    rw [hsum, hu.alignLimit]
    omega
  · rw [hu.maxHostBytes]
    exact hbounded

/-- One block changes places. -/
theorem Inv.move_one (hs : Inv s) {block : ℕ} (place place' : Place) {L : List (ℕ × Place)}
    (hu : Untouched s s' [block])
    (hfrom : s.located.Perm ((block, place) :: L)) (hto : s'.located.Perm ((block, place') :: L))
    (havailable : (s'.available.map Prod.fst).Nodup) (hpending : (s'.pending.map Prod.fst).Nodup)
    (htable : ∀ key block, s'.table key = some block ↔ (s'.blocks block).storageKey = some key)
    (htotal : s'.totalAllocated = s.totalAllocated)
    (hreserved : (s'.acquiring.map (Acquiring.reserved s.alignLimit)).sum =
      (s.acquiring.map (Acquiring.reserved s.alignLimit)).sum)
    (hok : s'.Ok block place') : Inv s' :=
  hs.move [(block, place, place')] hu hfrom hto havailable hpending htable
    (by omega) (htotal ▸ hs.bounded) fun m hm => by
      rw [List.mem_singleton.1 hm]
      exact hok

/-! ### Taking a block out of its place -/

section Locate

variable {V V' : List View} {A A' P P' : List (ℕ × List ℕ)} {T T' : List Acquiring}

/-- The blocks in the given places. -/
def locate (V : List View) (A P : List (ℕ × List ℕ)) (T : List Acquiring) : List (ℕ × Place) :=
  V.map (fun view => (view.block, .handedOut view)) ++
    (Buckets.items A).map (fun x => (x.2, .available x.1)) ++
    (Buckets.items P).map (fun x => (x.2, .pending x.1)) ++
    T.filterMap fun thread => thread.block?.map (·, .acquiring thread)

theorem locate_view {view : View} (h : V.Perm (view :: V')) :
    (locate V A P T).Perm ((view.block, .handedOut view) :: locate V' A P T) :=
  (((h.map _).append_right _).append_right _).append_right _

theorem locate_available {capacity : ℕ} {blocks : List ℕ}
    (h : (Buckets.items A).Perm (blocks.map (capacity, ·) ++ Buckets.items A')) :
    (locate V A P T).Perm (blocks.map (·, .available capacity) ++ locate V A' P T) := by
  refine ((((h.map _).append_left _).append_right _).append_right _).trans ?_
  rw [List.map_append, List.map_map, ← List.append_assoc]
  refine ((((List.perm_append_comm).append_right _).append_right _).append_right _).trans ?_
  simp only [locate, List.append_assoc]
  exact List.Perm.refl _

theorem locate_pending {capacity : ℕ} {blocks : List ℕ}
    (h : (Buckets.items P).Perm (blocks.map (capacity, ·) ++ Buckets.items P')) :
    (locate V A P T).Perm (blocks.map (·, .pending capacity) ++ locate V A P' T) := by
  refine (((h.map _).append_left _).append_right _).trans ?_
  rw [List.map_append, List.map_map, ← List.append_assoc]
  refine (((List.perm_append_comm).append_right _).append_right _).trans ?_
  simp only [locate, List.append_assoc]
  exact List.Perm.refl _

theorem locate_acquiring {t : Acquiring} {block : ℕ} (h : T.Perm (t :: T'))
    (hblock : t.block? = some block) :
    (locate V A P T).Perm ((block, .acquiring t) :: locate V A P T') := by
  refine ((h.filterMap _).append_left _).trans ?_
  rw [List.filterMap_cons, hblock]
  exact List.perm_middle

theorem locate_acquiring_none {t : Acquiring} (h : T.Perm (t :: T')) (hblock : t.block? = none) :
    (locate V A P T).Perm (locate V A P T') := by
  refine ((h.filterMap _).append_left _).trans ?_
  rw [List.filterMap_cons, hblock]
  exact List.Perm.refl _

theorem acquiring_perm {thread : ℕ} {t : Acquiring} (h : T[thread]? = some t) :
    T.Perm (t :: T.eraseIdx thread) := by
  obtain ⟨hlt, rfl⟩ := List.getElem?_eq_some_iff.1 h
  exact (List.getElem_cons_eraseIdx_perm hlt).symm

theorem reserved_perm {t : Acquiring} (h : T.Perm (t :: T')) (alignLimit : ℕ) :
    (T.map (Acquiring.reserved alignLimit)).sum =
      t.reserved alignLimit + (T'.map (Acquiring.reserved alignLimit)).sum := by
  have := (h.map (Acquiring.reserved alignLimit)).sum_eq
  rwa [List.map_cons, List.sum_cons] at this

end Locate

/-- A changed block leaves the others untouched. -/
theorem untouched_setBlock {block : ℕ} {f : Block → Block}
    (hblocks : s'.blocks = Function.update s.blocks block (f (s.blocks block)))
    (hf : (f (s.blocks block)).capacity = (s.blocks block).capacity)
    (hlast : ∀ b ≠ block, s'.lastEvent b = s.lastEvent b) (hcompleted : s'.completed = s.completed)
    (hnext : s'.nextBlock = s.nextBlock) (halign : s'.alignLimit = s.alignLimit)
    (hmax : s'.maxHostBytes = s.maxHostBytes) : Untouched s s' [block] where
  blocks b hb := by
    rw [hblocks, Function.update_of_ne (fun h => hb (List.mem_singleton.2 h))]
  lastEvent b hb := hlast b fun h => hb (List.mem_singleton.2 h)
  capacity b := by
    rw [hblocks]
    by_cases hb : b = block
    · rw [hb, Function.update_self, hf]
    · rw [Function.update_of_ne hb]
  completed := hcompleted
  nextBlock := hnext
  alignLimit := halign
  maxHostBytes := hmax

/-- The table still names the registered keys when a changed block keeps its key. -/
theorem table_setBlock {block : ℕ} {f : Block → Block} (hs : Inv s)
    (hblocks : s'.blocks = Function.update s.blocks block (f (s.blocks block)))
    (hf : (f (s.blocks block)).storageKey = (s.blocks block).storageKey)
    (htable : s'.table = s.table) (key b : ℕ) :
    s'.table key = some b ↔ (s'.blocks b).storageKey = some key := by
  rw [htable, hs.table, hblocks]
  by_cases hb : b = block
  · rw [hb, Function.update_self, hf]
  · rw [Function.update_of_ne hb]

/-! ### The steps that move a block -/

section Moves

variable {thread block size : ℕ} {t : Acquiring}

/-- The block an acquire in progress holds. -/
theorem located_thread (h : s.acquiring[thread]? = some t) (hblock : t.block? = some block) :
    s.located.Perm ((block, .acquiring t) ::
      locate s.views s.available s.pending (s.acquiring.eraseIdx thread)) :=
  locate_acquiring (acquiring_perm h) hblock

theorem ok_thread (hs : Inv s) (h : s.acquiring[thread]? = some t)
    (hblock : t.block? = some block) : s.Ok block (.acquiring t) :=
  hs.ok _ ((located_thread h hblock).mem_iff.2 List.mem_cons_self)

theorem inv_synchronize {ok : Bool} (hs : Inv s) : Inv (s.step (.synchronize thread ok)) := by
  rw [step]
  split
  case h_2 => exact hs
  case h_1 block size event h =>
    obtain ⟨hstate, hkey, hsize, hevent, hlast⟩ := ok_thread hs h rfl
    have hreserved := reserved_perm (acquiring_perm h) s.alignLimit
    cases ok with
    | false =>
      rw [if_neg Bool.false_ne_true]
      exact hs.move_one _ (.acquiring (.restorePending block event))
        (untouched_setBlock (f := id) (Function.update_eq_self _ _).symm rfl (fun _ _ => rfl)
          rfl rfl rfl rfl)
        (located_thread h rfl) (locate_acquiring (.refl _) rfl) hs.availableKeys hs.pendingKeys
        hs.table rfl hreserved.symm ⟨hstate, hkey, hevent, hlast⟩
    | true =>
      rw [if_pos rfl]
      split_ifs with hcompleted
      · have hsettled : s.Settled block := fun e he => by
          obtain rfl : event = some e := hlast.trans he
          exact hcompleted
        refine hs.move_one _ (.acquiring (.synced block size))
          (untouched_setBlock (f := fun b => { b with event := none }) rfl rfl (fun _ _ => rfl)
            rfl rfl rfl rfl)
          (located_thread h rfl) (locate_acquiring (.refl _) rfl) hs.availableKeys hs.pendingKeys
          (table_setBlock (f := fun b => { b with event := none }) hs rfl rfl rfl) rfl
          hreserved.symm ?_
        simpa [Ok, goOn, setBlock] using ⟨hstate, hkey, hsize, hsettled⟩
      · exact hs

/-- A block filed as available, once it is out of its place. -/
theorem Inv.file_available (hs : Inv s) {place : Place} {L : List View} {T : List Acquiring}
    (hu : s'.blocks = Function.update s.blocks block
      { s.blocks block with state := .available })
    (hfrom : s.located.Perm ((block, place) :: locate L s.available s.pending T))
    (hviews : s'.views = L) (hacquiring : s'.acquiring = T) (hpending : s'.pending = s.pending)
    (havailable : s'.available = Buckets.put s.available (s.blocks block).capacity
      (Buckets.get s.available (s.blocks block).capacity ++ [block]))
    (htable : s'.table = s.table) (hlast : ∀ b ≠ block, s'.lastEvent b = s.lastEvent b)
    (hcompleted : s'.completed = s.completed) (hnext : s'.nextBlock = s.nextBlock)
    (halign : s'.alignLimit = s.alignLimit) (hmax : s'.maxHostBytes = s.maxHostBytes)
    (htotal : s'.totalAllocated = s.totalAllocated)
    (hreserved : (T.map (Acquiring.reserved s.alignLimit)).sum =
      (s.acquiring.map (Acquiring.reserved s.alignLimit)).sum)
    (hkey : (s.blocks block).storageKey ≠ none) (hsettled : s'.Settled block) : Inv s' := by
  have hitems : (Buckets.items s'.available).Perm
      ([block].map ((s.blocks block).capacity, ·) ++ Buckets.items s.available) := by
    rw [havailable]
    exact Buckets.items_put_of_perm hs.availableKeys List.perm_append_comm
  refine hs.move_one place (.available (s.blocks block).capacity)
    (untouched_setBlock (f := fun b => { b with state := .available }) hu rfl hlast hcompleted
      hnext halign hmax) hfrom ?_ ?_ (hpending ▸ hs.pendingKeys)
    (table_setBlock (f := fun b => { b with state := .available }) hs hu rfl htable) htotal
    (hacquiring ▸ hreserved) ?_
  · have := locate_available (V := s'.views) (P := s'.pending) (T := s'.acquiring) hitems
    rw [hviews, hacquiring, hpending] at this
    rw [show s'.located = locate s'.views s'.available s'.pending s'.acquiring from rfl, hviews,
      hacquiring, hpending]
    exact this
  · rw [havailable]
    exact Buckets.nodup_put hs.availableKeys
  · simp only [Ok, hu, Function.update_self]
    exact ⟨trivial, trivial, hkey, hsettled⟩

/-- A block filed as pending, once it is out of its place. -/
theorem Inv.file_pending (hs : Inv s) {place : Place} {L : List View} {T : List Acquiring}
    {event : Option ℕ} {bucket : List ℕ}
    (hu : s'.blocks = Function.update s.blocks block
      { s.blocks block with state := .pending, event := event })
    (hfrom : s.located.Perm ((block, place) :: locate L s.available s.pending T))
    (hviews : s'.views = L) (hacquiring : s'.acquiring = T)
    (havailable : s'.available = s.available)
    (hpending : s'.pending = Buckets.put s.pending (s.blocks block).capacity bucket)
    (hbucket : bucket.Perm (block :: Buckets.get s.pending (s.blocks block).capacity))
    (htable : s'.table = s.table) (hlast : ∀ b ≠ block, s'.lastEvent b = s.lastEvent b)
    (hcompleted : s'.completed = s.completed) (hnext : s'.nextBlock = s.nextBlock)
    (halign : s'.alignLimit = s.alignLimit) (hmax : s'.maxHostBytes = s.maxHostBytes)
    (htotal : s'.totalAllocated = s.totalAllocated)
    (hreserved : (T.map (Acquiring.reserved s.alignLimit)).sum =
      (s.acquiring.map (Acquiring.reserved s.alignLimit)).sum)
    (hkey : (s.blocks block).storageKey ≠ none) (hevent : event ≠ none)
    (heq : event = s'.lastEvent block) : Inv s' := by
  have hitems : (Buckets.items s'.pending).Perm
      ([block].map ((s.blocks block).capacity, ·) ++ Buckets.items s.pending) := by
    rw [hpending]
    exact Buckets.items_put_of_perm hs.pendingKeys hbucket
  refine hs.move_one place (.pending (s.blocks block).capacity)
    (untouched_setBlock (f := fun b => { b with state := .pending, event := event }) hu rfl hlast
      hcompleted hnext halign hmax) hfrom ?_ (havailable ▸ hs.availableKeys) ?_
    (table_setBlock (f := fun b => { b with state := .pending, event := event }) hs hu rfl htable)
    htotal (hacquiring ▸ hreserved) ?_
  · have := locate_pending (V := s'.views) (A := s'.available) (T := s'.acquiring) hitems
    rw [hviews, hacquiring, havailable] at this
    rw [show s'.located = locate s'.views s'.available s'.pending s'.acquiring from rfl, hviews,
      hacquiring, havailable]
    exact this
  · rw [hpending]
    exact Buckets.nodup_put hs.pendingKeys
  · simp only [Ok, hu, Function.update_self]
    exact ⟨trivial, trivial, hkey, hevent, heq⟩

theorem inv_release {view : View} {event : Option ℕ} (hs : Inv s)
    (hcontract : s.Contract (.release view event)) : Inv (s.step (.release view event)) := by
  rw [step, release]
  split
  case h_1 => exact hs
  case h_2 block htable =>
    split_ifs with hstate
    · exact hs
    rw [not_not] at hstate
    have hview : view ∈ s.views := hcontract.resolve_right fun h => h block htable hstate
    have hfrom := locate_view (A := s.available) (P := s.pending) (T := s.acquiring)
      (List.perm_cons_erase hview)
    obtain ⟨-, -, hkey, -⟩ := hs.ok _ (hfrom.mem_iff.2 List.mem_cons_self)
    obtain rfl : view.block = block :=
      Option.some.inj (((hs.table _ _).2 hkey).symm.trans htable)
    have hlast : ∀ b ≠ view.block,
        Function.update s.lastEvent view.block event b = s.lastEvent b := fun b hb =>
      Function.update_of_ne hb _ _
    cases event with
    | none =>
      refine hs.file_available rfl hfrom rfl rfl rfl rfl rfl hlast rfl rfl rfl rfl rfl rfl
        (by simp [hkey]) ?_
      simp [Settled, fileAvailable, setBlock]
    | some event =>
      exact hs.file_pending rfl hfrom rfl rfl rfl rfl List.perm_append_comm rfl hlast rfl rfl rfl
        rfl rfl rfl (by simp [hkey]) (by simp) (by simp [setBlock])

theorem inv_rollBack (hs : Inv s) : Inv (s.step (.rollBack thread)) := by
  rw [step]
  split
  case h_2 => exact hs
  case h_1 t h =>
    have hperm := acquiring_perm h
    have hreserved := reserved_perm hperm s.alignLimit
    cases t with
    | allocating size => exact hs
    | created block size => exact hs
    | waiting block size event => exact hs
    | synced block size => exact hs
    | unreserving aligned =>
      have hlocated : s.located.Perm
          (locate s.views s.available s.pending (s.acquiring.eraseIdx thread)) :=
        locate_acquiring_none hperm rfl
      have hcounted := hs.counted
      rw [hreserved] at hcounted
      simp only [Acquiring.reserved] at hcounted hreserved
      refine hs.move [] ⟨fun _ _ => rfl, fun _ _ => rfl, fun _ => rfl, rfl, rfl, rfl, rfl⟩
        hlocated (.refl _) hs.availableKeys hs.pendingKeys hs.table ?_ ?_ (by simp)
      · show s.totalAllocated - aligned + _ = s.totalAllocated + ((s.acquiring.eraseIdx thread).map
          (Acquiring.reserved s.alignLimit)).sum
        omega
      · exact (Nat.sub_le _ _).trans hs.bounded
    | restorePending block event =>
      obtain ⟨-, hkey, hevent, hlast⟩ := ok_thread hs h rfl
      exact hs.file_pending rfl (located_thread h rfl) rfl rfl rfl rfl (.refl _) rfl
        (fun _ _ => rfl) rfl rfl rfl rfl rfl ((Nat.zero_add _).symm.trans hreserved.symm) hkey
        hevent hlast
    | restoreAvailable block =>
      obtain ⟨-, hkey, hsettled⟩ := ok_thread hs h rfl
      exact hs.file_available rfl (located_thread h rfl) rfl rfl rfl rfl rfl (fun _ _ => rfl)
        rfl rfl rfl rfl rfl ((Nat.zero_add _).symm.trans hreserved.symm) hkey hsettled

theorem viewLength_of_le {capacity : ℕ} (h : size ≤ capacity) : viewLength capacity size = size := by
  unfold viewLength
  split_ifs with heq
  · exact heq.symm
  · exact min_eq_left h

/-- What a checkout that succeeds does. -/
theorem checkout_eq_some {key : Option ℕ} (h : s.checkout block size key = some s') :
    ∃ k, (∀ owner ∈ s.table k, owner = block) ∧ s' = { s.registered block k with
      views := s.views ++ [⟨block, k, size, viewLength (s.blocks block).capacity size⟩] } := by
  obtain ⟨k, -, h⟩ := Option.bind_eq_some_iff.1 h
  obtain ⟨t, ht, rfl⟩ := Option.map_eq_some_iff.1 h
  refine ⟨k, ?_⟩
  rw [registerView] at ht
  cases howner : s.table k with
  | none =>
    rw [howner] at ht
    obtain rfl := Option.some.inj ht
    exact ⟨fun owner ho => (by cases ho), rfl⟩
  | some owner =>
    rw [howner] at ht
    simp only at ht
    split_ifs at ht with heq
    · obtain rfl := Option.some.inj ht
      exact ⟨fun o ho => (Option.some.inj ho).symm.trans heq, rfl⟩

/-- Off the new key, exactly the old key of the block is gone. -/
theorem withoutOldKey_of_ne (htable : ∀ key b, s.table key = some b ↔
      (s.blocks b).storageKey = some key) {k key : ℕ} (hne : key ≠ k) :
    s.withoutOldKey block k key = if s.table key = some block then none else s.table key := by
  rw [withoutOldKey]
  cases hkey : (s.blocks block).storageKey with
  | none =>
    have hother : s.table key ≠ some block := by
      rw [Ne, htable, hkey]
      simp
    rw [if_neg hother]
  | some oldKey =>
    have hblock : s.table oldKey = some block := (htable _ _).2 hkey
    by_cases heq : key = oldKey
    · subst heq
      simp [hne, hblock]
    · have hother : s.table key ≠ some block := by
        rw [Ne, htable, hkey]
        simpa using fun h => heq h.symm
      rw [if_neg hother]
      by_cases hk : oldKey = k
      · simp [hk]
      · simp [hk, hblock, Function.update_of_ne heq]

/-- The table after a view is registered. -/
theorem table_registered (htable : ∀ key b, s.table key = some b ↔
      (s.blocks b).storageKey = some key) {k : ℕ} (howner : ∀ owner ∈ s.table k, owner = block)
    (key b : ℕ) : (s.registered block k).table key = some b ↔
      ((s.registered block k).blocks b).storageKey = some key := by
  simp only [registered, setBlock]
  by_cases hkey : key = k
  · subst hkey
    rw [Function.update_self]
    by_cases hb : b = block
    · simp [hb]
    · rw [Function.update_of_ne hb, ← htable]
      exact ⟨fun h => absurd (Option.some.inj h).symm hb, fun h => absurd (howner b h) hb⟩
  · rw [Function.update_of_ne hkey, withoutOldKey_of_ne htable hkey]
    by_cases hb : b = block
    · rw [hb, Function.update_self]
      simp only [Option.some.injEq, Ne.symm hkey, iff_false]
      split_ifs with h
      · simp
      · exact h
    · rw [Function.update_of_ne hb, ← htable]
      split_ifs with h
      · rw [h]
        simp [Ne.symm hb]
      · rfl

/-- A block checked out, once it is out of its place. -/
theorem Inv.check_out (hs : Inv s) {key : Option ℕ} {place : Place} {A : List (ℕ × List ℕ)}
    {T : List Acquiring} {t : PoolState} (hcheckout : t.checkout block size key = some s')
    (ht : t = { s with
      available := A
      blocks := Function.update s.blocks block { s.blocks block with state := .inUse } })
    (hfrom : s.located.Perm ((block, place) :: locate s.views A s.pending T))
    (hA : (A.map Prod.fst).Nodup)
    (hreserved : (T.map (Acquiring.reserved s.alignLimit)).sum =
      (s.acquiring.map (Acquiring.reserved s.alignLimit)).sum)
    (hsize : size ≤ (s.blocks block).capacity) (hsettled : s.Settled block) :
    Inv { s' with acquiring := T } := by
  obtain ⟨k, howner, rfl⟩ := checkout_eq_some hcheckout
  have htable := table_registered (s := t) (table_setBlock
    (f := fun b => { b with state := .inUse }) hs (by rw [ht]) rfl (by rw [ht])) howner
  have hblocks : (t.registered block k).blocks = Function.update s.blocks block
      { s.blocks block with state := .inUse, storageKey := some k } := by
    rw [ht]
    simp [registered, setBlock]
  have hcapacity : (t.blocks block).capacity = (s.blocks block).capacity := by
    rw [ht]
    simp
  refine hs.move_one place (.handedOut ⟨block, k, size, viewLength (t.blocks block).capacity size⟩)
    (untouched_setBlock (f := fun b => { b with state := .inUse, storageKey := some k }) hblocks
      rfl (fun b _ => ?_) ?_ ?_ ?_ ?_) hfrom ?_ ?_ ?_ htable ?_ hreserved ?_
  · rw [ht]; rfl
  · rw [ht]; rfl
  · rw [ht]; rfl
  · rw [ht]; rfl
  · rw [ht]; rfl
  · rw [ht]
    exact locate_view (List.perm_append_singleton _ _)
  · rw [ht]
    exact hA
  · rw [ht]
    exact hs.pendingKeys
  · rw [ht]; rfl
  · simp only [Ok, hblocks, Function.update_self, hcapacity, viewLength_of_le hsize]
    refine ⟨trivial, trivial, trivial, trivial, hsize, ?_⟩
    rw [ht]
    exact hsettled

theorem checkout_acquiring {key : Option ℕ} (h : s.checkout block size key = some s') :
    s'.acquiring = s.acquiring := by
  obtain ⟨k, -, rfl⟩ := checkout_eq_some h
  rfl

/-- An acquire in progress that checks its block out. -/
theorem inv_checkOut_thread {key : Option ℕ} (hs : Inv s) (h : s.acquiring[thread]? = some t)
    (hblock : t.block? = some block) (hreserved : t.reserved s.alignLimit = 0)
    (hcheckout : s.checkout block size key = some s') (hstate : (s.blocks block).state = .inUse)
    (hsize : size ≤ (s.blocks block).capacity) (hsettled : s.Settled block) :
    Inv (s'.goOn thread []) := by
  have hsum := reserved_perm (acquiring_perm h) s.alignLimit
  have hgoOn : s'.goOn thread [] = { s' with acquiring := s.acquiring.eraseIdx thread } := by
    rw [goOn, checkout_acquiring hcheckout]
    rfl
  have hblocks : Function.update s.blocks block { s.blocks block with state := .inUse } =
      s.blocks := by
    rw [← hstate]
    exact Function.update_eq_self _ _
  rw [hgoOn]
  exact hs.check_out (A := s.available) hcheckout (by rw [hblocks]) (located_thread h hblock)
    hs.availableKeys (by omega) hsize hsettled

theorem inv_checkout {key : Option ℕ} (hs : Inv s) : Inv (s.step (.checkout thread key)) := by
  rw [step]
  split
  case h_3 => exact hs
  case h_1 block size h =>
    obtain ⟨hstate, hkey, hcapacity, hsettled⟩ := ok_thread hs h rfl
    split
    case h_1 s' hcheckout =>
      exact inv_checkOut_thread hs h rfl rfl hcheckout hstate
        (hcapacity ▸ le_alignedSize _ _) hsettled
    case h_2 hcheckout =>
      -- the block is dropped and its capacity becomes a reservation again
      have hfrom := located_thread h (t := .created block size) rfl
      have hsum := reserved_perm (acquiring_perm h) s.alignLimit
      have hto : (s.goOn thread [.unreserving (alignedSize s.alignLimit size)]).located.Perm
          (locate s.views s.available s.pending (s.acquiring.eraseIdx thread)) :=
        locate_acquiring_none (.refl _) rfl
      have hmem : ∀ x ∈ locate s.views s.available s.pending (s.acquiring.eraseIdx thread),
          x ∈ s.located := fun x hx => hfrom.mem_iff.2 (List.mem_cons_of_mem _ hx)
      have honce := hs.once
      rw [(hfrom.map Prod.fst).nodup_iff, List.map_cons, List.nodup_cons] at honce
      refine ⟨hs.availableKeys, hs.pendingKeys, ?_, fun x hx => ?_, hs.fresh, fun x hx => ?_,
        fun b hb => ?_, hs.table, ?_, hs.bounded⟩
      · rw [(hto.map Prod.fst).nodup_iff]
        exact honce.2
      · exact hs.known x (hmem x (hto.mem_iff.1 hx))
      · exact hs.ok x (hmem x (hto.mem_iff.1 hx))
      · rw [(hto.map Prod.fst).mem_iff]
        have := (hfrom.map Prod.fst).mem_iff.1 (hs.kept b hb)
        rw [List.map_cons, List.mem_cons] at this
        refine this.resolve_left ?_
        rintro rfl
        exact hb hkey
      · have hcounted := hs.counted
        rw [(hfrom.map fun x => (s.blocks x.1).capacity).sum_eq, List.map_cons, List.sum_cons,
          hsum, hcapacity] at hcounted
        refine hcounted.trans ?_
        rw [show (s.goOn thread [.unreserving (alignedSize s.alignLimit size)]).blocks = s.blocks
          from rfl, (hto.map fun x => (s.blocks x.1).capacity).sum_eq]
        simp only [goOn, List.singleton_append, List.map_cons, List.sum_cons, Acquiring.reserved]
        omega
  case h_2 block size h =>
    obtain ⟨hstate, hkey, hsize, hsettled⟩ := ok_thread hs h rfl
    split
    case h_1 s' hcheckout =>
      exact inv_checkOut_thread hs h rfl rfl hcheckout hstate hsize hsettled
    case h_2 hcheckout =>
      exact hs.move_one _ (.acquiring (.restoreAvailable block))
        (untouched_setBlock (f := id) (Function.update_eq_self _ _).symm rfl (fun _ _ => rfl)
          rfl rfl rfl rfl)
        (located_thread h rfl) (locate_acquiring (.refl _) rfl) hs.availableKeys hs.pendingKeys
        hs.table rfl (reserved_perm (acquiring_perm h) s.alignLimit).symm ⟨hstate, hkey, hsettled⟩

theorem inv_complete {event : ℕ} (hs : Inv s) : Inv (s.step (.complete event)) := by
  have hsettled : ∀ block, s.Settled block → (s.step (.complete event)).Settled block := by
    intro block h e he
    show Function.update s.completed event true e = true
    by_cases heq : e = event
    · rw [heq, Function.update_self]
    · rw [Function.update_of_ne heq]
      exact h e he
  refine ⟨hs.availableKeys, hs.pendingKeys, hs.once, hs.known, hs.fresh, fun x hx => ?_, hs.kept,
    hs.table, hs.counted, hs.bounded⟩
  have hx := hs.ok x hx
  obtain ⟨block, place⟩ := x
  match place with
  | .handedOut view => exact ⟨hx.1, hx.2.1, hx.2.2.1, hx.2.2.2.1, hx.2.2.2.2.1, hsettled _ hx.2.2.2.2.2⟩
  | .available capacity => exact ⟨hx.1, hx.2.1, hx.2.2.1, hsettled _ hx.2.2.2⟩
  | .pending capacity => exact hx
  | .acquiring (.allocating _) => exact hx
  | .acquiring (.created _ _) => exact ⟨hx.1, hx.2.1, hx.2.2.1, hsettled _ hx.2.2.2⟩
  | .acquiring (.unreserving _) => exact hx
  | .acquiring (.waiting _ _ _) => exact hx
  | .acquiring (.restorePending _ _) => exact hx
  | .acquiring (.synced _ _) => exact ⟨hx.1, hx.2.1, hx.2.2.1, hsettled _ hx.2.2.2⟩
  | .acquiring (.restoreAvailable _) => exact ⟨hx.1, hx.2.1, hsettled _ hx.2.2⟩

end Moves

end PoolState

end HyperParallel.ActivationMemory
