import HyperParallel.Checkpoint.StorageExchange
import HyperParallel.Lib.Shares
import Mathlib.Data.List.Range

/-!
# Runs of the exchange

In a run in which every call begins alone, each reader gathers what the ranks produced for its save
(`ExchangeState.gathersOwn_of_cleanRun`).  The invariant is that all files of a type are of the save
that some rank is exchanging (`ExchangeState.Inv.alone`).  Nothing deletes the local plans, and a
second save gathers those of the first (`ExchangeState.not_gathersOwn_staleLocalPlan`).
-/

namespace HyperParallel.Checkpoint

variable {R : Type}

/-! ### Batches -/

section Batches

variable {n maxWorkers : ℕ} {batch : List ℕ}

/-- The batches are the file list. -/
theorem flatten_constructFileBatches (l : List ℕ) (h : 0 < maxWorkers) :
    (constructFileBatches l maxWorkers).flatten = l := by
  unfold constructFileBatches
  dsimp only
  rw [List.flatten_filter_ne_nil, Shares.flatten_slices]
  apply List.take_of_length_le
  rcases Nat.eq_zero_or_pos l.length with hzero | hpos
  · omega
  have hk : 0 < min maxWorkers l.length := by omega
  generalize min maxWorkers l.length = k at hk ⊢
  have hdiv := Nat.div_add_mod (l.length + k - 1) k
  have hmod := Nat.mod_lt (l.length + k - 1) hk
  omega

/-- A batch is a range of files. -/
theorem batch_eq_range (h : batch ∈ constructFileBatches (List.range n) maxWorkers) :
    batch = List.range' (batch.headD 0) batch.length := by
  unfold constructFileBatches at h
  obtain ⟨i, -, rfl⟩ := List.mem_map.1 (List.mem_of_mem_filter h)
  generalize (i + 1) * _ = stop
  generalize i * _ = start
  rw [List.take_range, List.range_eq_range', List.drop_range']
  cases min stop n - start with
  | zero => rfl
  | succ length => simp [List.range'_succ]

end Batches

/-! ### The threads -/

section Workers

variable {produced : FileType → ℕ → ℕ → R} {files : ExchangeFiles R} {fileType : FileType}
  {save n : ℕ} {w w' : BatchReadWorker R}

/-- The files of the batch of a thread. -/
def BatchReadWorker.batch (w : BatchReadWorker R) : List ℕ :=
  List.range' w.firstFileId w.results.length

/-- Every file of the batch is read, and was that of the save, or is still to be read. -/
structure BatchReadWorker.Ok (produced : FileType → ℕ → ℕ → R) (fileType : FileType) (save : ℕ)
    (w : BatchReadWorker R) : Prop where
  ids : ∀ id ∈ w.fileToRead ++ w.fileNotRead, id ∈ w.batch
  own : ∀ (i : ℕ) (h : i < w.results.length),
    w.results[i] = some (produced fileType save (w.firstFileId + i)) ∨
      (w.results[i] = none ∧ w.firstFileId + i ∈ w.fileToRead ++ w.fileNotRead)

theorem batch_start {batch : List ℕ} (h : batch = List.range' (batch.headD 0) batch.length) :
    (BatchReadWorker.start batch : BatchReadWorker R).batch = batch := by
  rw [BatchReadWorker.batch, BatchReadWorker.start, List.length_map]
  exact h.symm

theorem start_ok {batch : List ℕ} (h : batch = List.range' (batch.headD 0) batch.length) :
    (BatchReadWorker.start batch : BatchReadWorker R).Ok produced fileType save := by
  constructor
  · rw [batch_start h]
    intro id hid
    simpa [BatchReadWorker.start] using hid
  · intro i hi
    right
    constructor
    · simp [BatchReadWorker.start]
    · simp only [BatchReadWorker.start, List.length_map] at hi
      simp only [BatchReadWorker.start, List.append_nil]
      rw [h, List.mem_range'_1]
      have hhead : (List.range' (batch.headD 0) batch.length).headD 0 = batch.headD 0 := by
        rw [← h]
      rw [← h]
      omega

/-- A thread reads the files of the save when there are no others. -/
theorem read_ok (hw : w.Ok produced fileType save)
    (hfiles : ∀ id ∈ w.batch, ∀ ret, loadFile files fileType id = some ret →
      ret = produced fileType save id)
    (h : w.read files fileType = some w') :
    w'.Ok produced fileType save ∧ w'.batch = w.batch := by
  unfold BatchReadWorker.read at h
  split at h
  · cases h
  split at h
  · cases h
  · next fileId rest hread =>
    have hid : fileId ∈ w.batch := hw.ids _ (by rw [hread]; exact List.mem_cons_self)
    split at h
    · obtain rfl := Option.some.inj h
      refine ⟨⟨fun id hmem => hw.ids id ?_, fun i hi => ?_⟩, rfl⟩
      · rw [hread]
        simp only [List.mem_append, List.mem_cons, List.not_mem_nil, or_false] at hmem ⊢
        tauto
      · refine (hw.own i hi).imp_right fun hnone => ⟨hnone.1, ?_⟩
        have hmem := hnone.2
        rw [hread] at hmem
        simp only [List.mem_append, List.mem_cons, List.not_mem_nil, or_false] at hmem ⊢
        tauto
    · next ret hret =>
      obtain rfl := Option.some.inj h
      obtain rfl := hfiles _ hid _ hret
      have hbatch : List.range' w.firstFileId (w.results.set (fileId - w.firstFileId)
          (some (produced fileType save fileId))).length = w.batch := by
        rw [List.length_set]
        rfl
      rw [BatchReadWorker.batch, List.mem_range'_1] at hid
      refine ⟨⟨fun id hmem => ?_, fun i hi => ?_⟩, hbatch⟩
      · show id ∈ List.range' w.firstFileId _
        rw [hbatch]
        apply hw.ids
        rw [hread]
        exact List.mem_cons_of_mem _ hmem
      · simp only [List.length_set] at hi
        simp only [List.getElem_set]
        by_cases heq : fileId - w.firstFileId = i
        · left
          rw [if_pos heq, ← heq, Nat.add_sub_cancel' hid.1]
        · rw [if_neg heq]
          refine (hw.own i hi).imp_right fun hnone => ⟨hnone.1, ?_⟩
          have hmem := hnone.2
          rw [hread, List.cons_append, List.mem_cons] at hmem
          exact hmem.resolve_left (by omega)

theorem nextRound_ok (hw : w.Ok produced fileType save) (h : w.nextRound = some w') :
    w'.Ok produced fileType save ∧ w'.batch = w.batch := by
  unfold BatchReadWorker.nextRound at h
  split_ifs at h with hdone
  obtain rfl := Option.some.inj h
  have hempty : w.fileToRead = [] := by
    simp only [BatchReadWorker.roundDone, Bool.and_eq_true, List.isEmpty_iff] at hdone
    exact hdone.1.1.1
  refine ⟨⟨fun id hmem => hw.ids id ?_, fun i hi => ?_⟩, rfl⟩
  · rw [hempty]
    simpa using hmem
  · have hown := hw.own i hi
    rw [hempty] at hown
    simpa using hown

theorem timeOut_ok (hw : w.Ok produced fileType save) (h : w.timeOut = some w') :
    w'.Ok produced fileType save ∧ w'.batch = w.batch := by
  unfold BatchReadWorker.timeOut at h
  split_ifs at h
  obtain rfl := Option.some.inj h
  exact ⟨⟨hw.ids, hw.own⟩, rfl⟩

/-- A thread that ends without a timeout has read its batch. -/
theorem results_eq (hw : w.Ok produced fileType save) (hfinished : w.finished)
    (htime : w.timedOut = false) :
    w.results = w.batch.map fun id => some (produced fileType save id) := by
  simp only [BatchReadWorker.finished, BatchReadWorker.roundDone, htime, Bool.false_or,
    Bool.and_eq_true, List.isEmpty_iff] at hfinished
  apply List.ext_getElem
  · rw [List.length_map, BatchReadWorker.batch, List.length_range']
  intro i hi hi'
  rw [List.getElem_map]
  simp only [BatchReadWorker.batch, List.getElem_range', Nat.one_mul]
  refine (hw.own i hi).resolve_right fun hnone => ?_
  have hmem := hnone.2
  rw [hfinished.1.1.1, hfinished.2] at hmem
  cases hmem

end Workers

/-! ### The invariant -/

namespace ExchangeState

variable {n rank worker : ℕ} {produced : FileType → ℕ → ℕ → R} {s s' : ExchangeState R}
  {fileType : FileType} {save : ℕ} {workers : List (BatchReadWorker R)}

/-- What holds while every call begins alone. -/
structure Inv (n : ℕ) (produced : FileType → ℕ → ℕ → R) (s : ExchangeState R) : Prop where
  content : ∀ t id file, s.files t id = some file → file.complete = true →
    file.payload = some (produced t file.save id)
  writing : ∀ r t save dumped, s.phase r = .writing t save dumped →
    ∀ file, s.files t r = some file →
      file.save = save ∧ (dumped = true → file.payload = some (produced t save r))
  alone : ∀ r < n, ∀ t save, (s.phase r).saveOf t = some save →
    ∀ r' < n, ∀ file, s.files t r' = some file → file.save = save
  reading : ∀ r t save workers, s.phase r = .reading t save workers →
    (∀ w ∈ workers, w.Ok produced t save) ∧
      workers.flatMap BatchReadWorker.batch = List.range n
  bounded : ∀ r, s.phase r ≠ .idle → r < n
  gathered : s.GathersOwn n produced

theorem inv_initial : Inv n produced initial where
  content _ _ _ h := by cases h
  writing _ _ _ _ h := by cases h
  alone _ _ _ _ h := by cases h
  reading _ _ _ _ h := by cases h
  bounded _ h := absurd rfl h
  gathered _ h := by cases h

@[simp] theorem put_self (files : ExchangeFiles R) (file : Option (ExchangeFile R)) :
    files.put fileType rank file fileType rank = file :=
  if_pos ⟨rfl, rfl⟩

theorem put_of_ne {files : ExchangeFiles R} {file : Option (ExchangeFile R)} {t : FileType} {id : ℕ}
    (h : ¬(t = fileType ∧ id = rank)) : files.put fileType rank file t id = files t id :=
  if_neg h

@[simp] theorem saveOf_writing {dumped : Bool} {t : FileType} :
    (Phase.writing fileType save dumped : Phase R).saveOf t = some s₁ ↔
      fileType = t ∧ save = s₁ := by
  simp [Phase.saveOf]

@[simp] theorem saveOf_reading {t : FileType} :
    (Phase.reading fileType save workers).saveOf t = some s₁ ↔ fileType = t ∧ save = s₁ := by
  simp [Phase.saveOf]

/-- A step that begins no call keeps the files of other saves out. -/
theorem alone_of (hi : Inv n produced s)
    (hfiles : ∀ t id file', s'.files t id = some file' →
      ∃ file, s.files t id = some file ∧ file.save = file'.save)
    (hphase : ∀ r t save, (s'.phase r).saveOf t = some save → (s.phase r).saveOf t = some save) :
    ∀ r < n, ∀ t save, (s'.phase r).saveOf t = some save →
      ∀ r' < n, ∀ file, s'.files t r' = some file → file.save = save := by
  intro r hr t save hsave r' hr' file' hfile'
  obtain ⟨file, hfile, heq⟩ := hfiles t r' file' hfile'
  rw [← heq]
  exact hi.alone r hr t save (hphase r t save hsave) r' hr' file hfile

/-- The files that a rank can read are those of its save. -/
theorem loadFile_eq (hi : Inv n produced s) (hphase : s.phase rank = .reading fileType save workers)
    {id : ℕ} (hid : id < n) {ret : R} (h : loadFile s.files fileType id = some ret) :
    ret = produced fileType save id := by
  unfold loadFile at h
  split at h
  · cases h
  · next file hfile =>
    split_ifs at h with hcomplete
    have hrank : rank < n := hi.bounded rank (by rw [hphase]; exact nofun)
    have hsave : file.save = save :=
      hi.alone rank hrank fileType save (by rw [hphase]; simp) id hid file hfile
    rw [hi.content _ _ _ hfile hcomplete, hsave] at h
    exact (Option.some.inj h).symm

/-- A call that begins alone. -/
theorem inv_start (hi : Inv n produced s) (hclean : s.Clean n (.start rank fileType save))
    (h : s.step n produced (.start rank fileType save) = some s') : Inv n produced s' := by
  simp only [step] at h
  split at h
  · next hidle =>
    split_ifs at h with hguard
    obtain rfl := Option.some.inj h
    constructor
    · intro t id file hfile hcomplete
      by_cases hat : t = fileType ∧ id = rank
      · obtain ⟨rfl, rfl⟩ := hat
        simp only [put_self, Option.some.injEq] at hfile
        subst hfile
        cases hcomplete
      · simp only [put_of_ne hat] at hfile
        exact hi.content t id file hfile hcomplete
    · intro r t save' dumped hphase file hfile
      by_cases hr : r = rank
      · subst hr
        simp only [Function.update_self, Phase.writing.injEq] at hphase
        obtain ⟨rfl, rfl, rfl⟩ := hphase
        simp only [put_self, Option.some.injEq] at hfile
        subst hfile
        exact ⟨rfl, fun hdumped => by cases hdumped⟩
      · simp only [Function.update_of_ne hr] at hphase
        have hne : ¬(t = fileType ∧ r = rank) := fun hat => hr hat.2
        simp only [put_of_ne hne] at hfile
        exact hi.writing r t save' dumped hphase file hfile
    · intro r hr t save' hsave r' hr' file hfile
      have hsaves : (t = fileType ∧ save' = save) ∨ (s.phase r).saveOf t = some save' := by
        by_cases hrank : r = rank
        · subst hrank
          simp only [Function.update_self, saveOf_writing] at hsave
          exact .inl ⟨hsave.1.symm, hsave.2.symm⟩
        · simp only [Function.update_of_ne hrank] at hsave
          exact .inr hsave
      by_cases hat : t = fileType ∧ r' = rank
      · obtain ⟨rfl, rfl⟩ := hat
        simp only [put_self, Option.some.injEq] at hfile
        subst hfile
        rcases hsaves with ⟨-, rfl⟩ | hsave
        · rfl
        · exact ((hclean r hr).2 save' hsave).symm
      · simp only [put_of_ne hat] at hfile
        rcases hsaves with ⟨rfl, rfl⟩ | hsave
        · exact (hclean r' hr').1 (fun heq => hat ⟨rfl, heq⟩) file hfile
        · exact hi.alone r hr t save' hsave r' hr' file hfile
    · intro r t save' workers hphase
      by_cases hr : r = rank
      · subst hr
        simp only [Function.update_self] at hphase
        cases hphase
      · simp only [Function.update_of_ne hr] at hphase
        exact hi.reading r t save' workers hphase
    · intro r hphase
      by_cases hr : r = rank
      · exact hr ▸ hguard.1
      · simp only [Function.update_of_ne hr] at hphase
        exact hi.bounded r hphase
    · exact hi.gathered
  · cases h

/-- A step of one rank on its own file, in a call. -/
theorem inv_write (hi : Inv n produced s) {dumped : Bool} {phase : Phase R}
    {f : ExchangeFile R → ExchangeFile R}
    (hphase : s.phase rank = .writing fileType save dumped) (hsave : ∀ file, (f file).save = file.save)
    (hpayload : ∀ file, s.files fileType rank = some file →
      (f file).payload = some (produced fileType save rank))
    (hwriting : ∀ t save' dumped', phase = .writing t save' dumped' → t = fileType ∧ save' = save)
    (hreading : ∀ t save' workers, phase = .reading t save' workers →
      t = fileType ∧ save' = save ∧ (∀ w ∈ workers, w.Ok produced t save') ∧
        workers.flatMap BatchReadWorker.batch = List.range n) :
    Inv n produced { s with
      files := s.files.put fileType rank ((s.files fileType rank).map f)
      phase := Function.update s.phase rank phase } := by
  constructor
  · intro t id file' hfile hcomplete
    by_cases hat : t = fileType ∧ id = rank
    · obtain ⟨rfl, rfl⟩ := hat
      simp only [put_self, Option.map_eq_some_iff] at hfile
      obtain ⟨file, hfile, rfl⟩ := hfile
      rw [hpayload file hfile, hsave, (hi.writing _ _ _ _ hphase file hfile).1]
    · simp only [put_of_ne hat] at hfile
      exact hi.content t id file' hfile hcomplete
  · intro r t save' dumped' hphase' file' hfile
    by_cases hr : r = rank
    · subst hr
      simp only [Function.update_self] at hphase'
      obtain ⟨rfl, rfl⟩ := hwriting t save' dumped' hphase'
      simp only [put_self, Option.map_eq_some_iff] at hfile
      obtain ⟨file, hfile, rfl⟩ := hfile
      rw [hsave]
      exact ⟨(hi.writing _ _ _ _ hphase file hfile).1, fun _ => hpayload file hfile⟩
    · simp only [Function.update_of_ne hr] at hphase'
      have hne : ¬(t = fileType ∧ r = rank) := fun hat => hr hat.2
      simp only [put_of_ne hne] at hfile
      exact hi.writing r t save' dumped' hphase' file' hfile
  · apply alone_of hi
    · intro t id file' hfile
      by_cases hat : t = fileType ∧ id = rank
      · obtain ⟨rfl, rfl⟩ := hat
        simp only [put_self, Option.map_eq_some_iff] at hfile
        obtain ⟨file, hfile, rfl⟩ := hfile
        exact ⟨file, hfile, (hsave file).symm⟩
      · simp only [put_of_ne hat] at hfile
        exact ⟨file', hfile, rfl⟩
    · intro r t save' hsaveOf
      by_cases hr : r = rank
      · subst hr
        simp only [Function.update_self] at hsaveOf
        rw [hphase, saveOf_writing]
        cases phase with
        | idle => cases hsaveOf
        | writing t' save₁ dumped' =>
          obtain ⟨rfl, rfl⟩ := hwriting _ _ _ rfl
          exact saveOf_writing.1 hsaveOf
        | reading t' save₁ workers =>
          obtain ⟨rfl, rfl, -⟩ := hreading _ _ _ rfl
          exact saveOf_reading.1 hsaveOf
      · simp only [Function.update_of_ne hr] at hsaveOf
        exact hsaveOf
  · intro r t save' workers hphase'
    by_cases hr : r = rank
    · subst hr
      simp only [Function.update_self] at hphase'
      exact (hreading t save' workers hphase').2.2
    · simp only [Function.update_of_ne hr] at hphase'
      exact hi.reading r t save' workers hphase'
  · intro r hphase'
    by_cases hr : r = rank
    · exact hr ▸ hi.bounded rank (by rw [hphase]; exact nofun)
    · simp only [Function.update_of_ne hr] at hphase'
      exact hi.bounded r hphase'
  · exact hi.gathered

/-- A step of a reader: deletions, other threads for its threads, or the end of the call. -/
theorem inv_read (hi : Inv n produced s) {files : ExchangeFiles R} {phase : Phase R}
    {gathered : List (Gathered R)}
    (hphase : s.phase rank = .reading fileType save workers)
    (hfiles : ∀ t id file, files t id = some file → s.files t id = some file)
    (hnext : phase = .idle ∨ ∃ workers', phase = .reading fileType save workers' ∧
      (∀ w ∈ workers', w.Ok produced fileType save) ∧
        workers'.flatMap BatchReadWorker.batch = List.range n)
    (hgathered : ∀ g ∈ gathered, g.results =
      (List.range n).map fun r => some (produced g.fileType g.save r)) :
    Inv n produced ⟨files, Function.update s.phase rank phase, s.position, gathered⟩ := by
  constructor
  · intro t id file hfile hcomplete
    exact hi.content t id file (hfiles t id file hfile) hcomplete
  · intro r t save' dumped hphase' file hfile
    by_cases hr : r = rank
    · subst hr
      simp only [Function.update_self] at hphase'
      rcases hnext with rfl | ⟨workers', rfl, -⟩ <;> cases hphase'
    · simp only [Function.update_of_ne hr] at hphase'
      exact hi.writing r t save' dumped hphase' file (hfiles t r file hfile)
  · apply alone_of hi
    · intro t id file hfile
      exact ⟨file, hfiles t id file hfile, rfl⟩
    · intro r t save' hsaveOf
      by_cases hr : r = rank
      · subst hr
        simp only [Function.update_self] at hsaveOf
        rw [hphase, saveOf_reading]
        rcases hnext with rfl | ⟨workers', rfl, -⟩
        · cases hsaveOf
        · exact saveOf_reading.1 hsaveOf
      · simp only [Function.update_of_ne hr] at hsaveOf
        exact hsaveOf
  · intro r t save' workers' hphase'
    by_cases hr : r = rank
    · subst hr
      simp only [Function.update_self] at hphase'
      rcases hnext with rfl | ⟨workers₁, rfl, hok⟩
      · cases hphase'
      · obtain ⟨rfl, rfl, rfl⟩ := Phase.reading.inj hphase'
        exact hok
    · simp only [Function.update_of_ne hr] at hphase'
      exact hi.reading r t save' workers' hphase'
  · intro r hphase'
    by_cases hr : r = rank
    · exact hr ▸ hi.bounded rank (by rw [hphase]; exact nofun)
    · simp only [Function.update_of_ne hr] at hphase'
      exact hi.bounded r hphase'
  · exact hgathered

/-! ### Every step -/

/-- A thread in the place of one with the same batch. -/
theorem setWorker_ok {w w' : BatchReadWorker R}
    (hi : Inv n produced s) (hphase : s.phase rank = .reading fileType save workers)
    (hw : workers[worker]? = some w) (hok : w'.Ok produced fileType save)
    (hbatch : w'.batch = w.batch) :
    (∀ v ∈ workers.set worker w', v.Ok produced fileType save) ∧
      (workers.set worker w').flatMap BatchReadWorker.batch = List.range n := by
  obtain ⟨hall, hflat⟩ := hi.reading rank fileType save workers hphase
  constructor
  · intro v hv
    rcases List.mem_or_eq_of_mem_set hv with hv | rfl
    · exact hall v hv
    · exact hok
  · rw [← hflat, List.flatMap_def, List.flatMap_def, List.map_set, hbatch]
    congr 1
    obtain ⟨hlt, rfl⟩ := List.getElem?_eq_some_iff.1 hw
    apply List.ext_getElem
    · rw [List.length_set]
    intro i hi hi'
    rw [List.getElem_set]
    split_ifs with heq
    · subst heq
      rw [List.getElem_map]
    · rfl

theorem inv_workerStep {f : FileType → BatchReadWorker R → Option (BatchReadWorker R)}
    (hi : Inv n produced s)
    (hf : ∀ fileType save workers, s.phase rank = .reading fileType save workers →
      ∀ w ∈ workers, ∀ w', f fileType w = some w' →
        w'.Ok produced fileType save ∧ w'.batch = w.batch)
    (h : s.workerStep rank worker f = some s') : Inv n produced s' := by
  unfold workerStep at h
  split at h
  · next fileType save workers hphase =>
    simp only [Option.bind_eq_bind, Option.bind_eq_some_iff, Option.pure_def,
      Option.some.injEq] at h
    obtain ⟨w, hw, w', hw', rfl⟩ := h
    obtain ⟨hok, hbatch⟩ := hf _ _ _ hphase w (List.mem_of_getElem? hw) w' hw'
    exact inv_read hi hphase (fun _ _ _ hfile => hfile)
      (.inr ⟨_, rfl, setWorker_ok hi hphase hw hok hbatch⟩) hi.gathered
  · cases h

/-- A step at which a call, if one begins, begins alone. -/
theorem inv_step (hi : Inv n produced s) {action : ExchangeAction} (hclean : s.Clean n action)
    (h : s.step n produced action = some s') : Inv n produced s' := by
  cases action with
  | start rank fileType save => exact inv_start hi hclean h
  | dump rank =>
    simp only [step] at h
    split at h
    · next fileType save hphase =>
      obtain rfl := Option.some.inj h
      refine inv_write hi hphase (fun _ => rfl) (fun _ _ => rfl) ?_ ?_
      · intro t save' dumped heq
        cases heq
        exact ⟨rfl, rfl⟩
      · intro t save' workers heq
        cases heq
    · cases h
  | flag rank maxWorkers =>
    simp only [step] at h
    split at h
    · next fileType save hphase =>
      obtain rfl := Option.some.inj h
      refine inv_write hi hphase (fun _ => rfl)
        (fun file hfile => (hi.writing _ _ _ _ hphase file hfile).2 rfl) ?_ ?_
      · intro t save' dumped heq
        split_ifs at heq
      · intro t save' workers heq
        split_ifs at heq
        obtain ⟨rfl, rfl, rfl⟩ := Phase.reading.inj heq
        refine ⟨rfl, rfl, fun w hw => ?_, ?_⟩
        · obtain ⟨batch, hbatch, rfl⟩ := List.mem_map.1 hw
          exact start_ok (batch_eq_range hbatch)
        · rw [List.flatMap_map]
          have hsame : ∀ batch ∈ constructFileBatches (List.range n) (max maxWorkers 1),
              (BatchReadWorker.start batch : BatchReadWorker R).batch = id batch :=
            fun batch hbatch => batch_start (batch_eq_range hbatch)
          rw [List.flatMap_congr hsame, List.flatMap_id]
          exact flatten_constructFileBatches _ (by omega)
    · cases h
  | read rank worker =>
    refine inv_workerStep hi ?_ h
    intro fileType save workers hphase w hw w' hread
    obtain ⟨hall, hflat⟩ := hi.reading rank fileType save workers hphase
    refine read_ok (hall w hw) (fun id hid ret hret => ?_) hread
    have hlt : id ∈ List.range n := hflat ▸ List.mem_flatMap.2 ⟨w, hw, hid⟩
    exact loadFile_eq hi hphase (List.mem_range.1 hlt) hret
  | remove rank worker removed =>
    simp only [step] at h
    split at h
    · next fileType save workers hphase =>
      simp only [Option.bind_eq_bind, Option.bind_eq_some_iff, Option.pure_def,
        Option.some.injEq] at h
      obtain ⟨w, hw, fileId, -, rfl⟩ := h
      have hok := (hi.reading rank fileType save workers hphase).1 w (List.mem_of_getElem? hw)
      refine inv_read hi hphase ?_
        (.inr ⟨_, rfl, setWorker_ok hi hphase hw ⟨hok.ids, hok.own⟩ rfl⟩) hi.gathered
      intro t id file hfile
      split_ifs at hfile
      · by_cases hat : t = fileType ∧ id = fileId
        · obtain ⟨rfl, rfl⟩ := hat
          rw [put_self] at hfile
          cases hfile
        · rwa [put_of_ne hat] at hfile
      · exact hfile
    · cases h
  | nextRound rank worker =>
    refine inv_workerStep hi ?_ h
    intro fileType save workers hphase w hw w'
    exact nextRound_ok ((hi.reading rank fileType save workers hphase).1 w hw)
  | timeOut rank worker =>
    refine inv_workerStep hi ?_ h
    intro fileType save workers hphase w hw w'
    exact timeOut_ok ((hi.reading rank fileType save workers hphase).1 w hw)
  | finish rank =>
    simp only [step] at h
    split at h
    · next fileType save workers hphase =>
      split_ifs at h with hfinished htime
      · obtain rfl := Option.some.inj h
        exact inv_read hi hphase (fun _ _ _ hfile => hfile) (.inl rfl) hi.gathered
      · obtain rfl := Option.some.inj h
        refine inv_read hi hphase (fun _ _ _ hfile => hfile) (.inl rfl) ?_
        intro g hg
        rcases List.mem_append.1 hg with hg | hg
        · exact hi.gathered g hg
        obtain rfl := List.mem_singleton.1 hg
        obtain ⟨hall, hflat⟩ := hi.reading rank fileType save workers hphase
        show workers.flatMap BatchReadWorker.results = _
        rw [← hflat, List.map_flatMap]
        refine List.flatMap_congr fun w hw => results_eq (hall w hw) ?_ ?_
        · exact List.all_eq_true.1 hfinished w hw
        · by_contra htimedOut
          exact htime (List.any_eq_true.2 ⟨w, hw, by simpa using htimedOut⟩)
    · cases h

theorem inv_run {actions : List ExchangeAction} (hi : Inv n produced s)
    (hclean : s.CleanRun n produced actions) (h : s.run n produced actions = some s') :
    Inv n produced s' := by
  induction actions generalizing s with
  | nil =>
    obtain rfl := Option.some.inj h
    exact hi
  | cons action actions ih =>
    obtain ⟨middle, hstep, hrun⟩ := Option.bind_eq_some_iff.1 h
    exact ih (inv_step hi hclean.1 hstep) (hclean.2 middle hstep) hrun

/-- When every call of a run begins alone, every reader gathers what the ranks produced for its
save. -/
theorem gathersOwn_of_cleanRun {actions : List ExchangeAction}
    (hclean : initial.CleanRun n produced actions) (h : initial.run n produced actions = some s) :
    s.GathersOwn n produced :=
  (inv_run inv_initial hclean h).gathered

/-! ### Two saves -/

/-- What a rank produces, told apart by exchange and rank. -/
def tagged (fileType : FileType) (save rank : ℕ) : FileType × ℕ × ℕ := (fileType, save, rank)

/-- Two ranks exchange the storage data of a save: rank 0 reads both files and deletes them. -/
def storageSave (save : ℕ) : List ExchangeAction :=
  [.start 0 .storageData save, .start 1 .storageData save, .dump 0, .flag 0 1, .dump 1, .flag 1 1,
    .read 0 0, .remove 0 0 true, .read 0 0, .remove 0 0 true, .finish 0]

/-- Two saves whose files are deleted in between. -/
theorem gathersOwn_storageSaves : ∃ s,
    initial.run 2 tagged (storageSave 0 ++ storageSave 1) = some s ∧ s.GathersOwn 2 tagged ∧
      s.gathered.length = 2 :=
  ⟨_, rfl, gathersOwn_of_cleanRun
    (by decide : initial.CleanRun 2 tagged (storageSave 0 ++ storageSave 1)) rfl, rfl⟩

/-- Two ranks exchange the local plans of the first save. -/
def firstSave : List ExchangeAction :=
  [.start 0 .localPlan 0, .dump 0, .flag 0 1, .start 1 .localPlan 0, .dump 1, .flag 1 1,
    .read 0 0, .read 0 0, .finish 0, .read 1 0, .read 1 0, .finish 1]

/-- Rank 0 exchanges its local plan of the second save before rank 1 writes its own. -/
def staleLocalPlan : List ExchangeAction :=
  firstSave ++ [.start 0 .localPlan 1, .dump 0, .flag 0 1, .read 0 0, .read 0 0, .finish 0]

theorem not_gathersOwn_staleLocalPlan : ∃ s, initial.run 2 tagged staleLocalPlan = some s ∧
    ¬s.GathersOwn 2 tagged := by
  refine ⟨_, rfl, fun h => ?_⟩
  have hlast := h ⟨.localPlan, 1, 0, [some (.localPlan, 1, 0), some (.localPlan, 0, 1)]⟩ (by decide)
  revert hlast
  decide

end ExchangeState

end HyperParallel.Checkpoint
