import Mathlib.Data.List.Basic
import Mathlib.Logic.Function.Basic

/-!
# The exchange through the storage

`gather_all_results_from_storage`, `parallel_read_files`, `batch_read_worker`, `load_file` and
`write_file` of `async_persist.py`, as steps of the ranks on one checkpoint directory.

* `constructFileBatches`: the batches of the reading threads;
* `loadFile`, `BatchReadWorker`: what a thread does with its batch;
* `Phase`, `ExchangeState`: where every rank is, the files, and the lists gathered so far;
* `ExchangeState.step`: one step of one rank, `ExchangeState.run`: a run.

A write is a truncation, the payload and the flag; a read and the deletion that follows it are two
steps.
-/

namespace HyperParallel.Checkpoint

/-- `FileType`. -/
inductive FileType
  | localPlan
  | storageData
  deriving DecidableEq, Repr

variable {R : Type}

/-- A file: the pickle once it is dumped, and whether `_COMPLETE_FLAG` stands at the end.  The save
that wrote it is not in the file, and no step reads it. -/
structure ExchangeFile (R : Type) where
  save : ℕ
  payload : Option R
  complete : Bool
  deriving DecidableEq

/-- The files of a directory: `{file_type.name}_{file_id}.pkl`. -/
abbrev ExchangeFiles (R : Type) := FileType → ℕ → Option (ExchangeFile R)

/-- Another file at a path, or none. -/
def ExchangeFiles.put (files : ExchangeFiles R) (fileType : FileType) (fileId : ℕ)
    (file : Option (ExchangeFile R)) : ExchangeFiles R :=
  fun t id => if t = fileType ∧ id = fileId then file else files t id

/-- `load_file`, but for the deletion. -/
def loadFile (files : ExchangeFiles R) (fileType : FileType) (fileId : ℕ) : Option R :=
  match files fileType fileId with
  | none => none
  | some file => if file.complete then file.payload else none

/-! ### The reading threads -/

/-- `construct_file_batches`. -/
def constructFileBatches (fileList : List ℕ) (maxWorkers : ℕ) : List (List ℕ) :=
  let n := fileList.length
  let maxWorkers := min maxWorkers n
  let batchSize := (n + maxWorkers - 1) / maxWorkers
  ((List.range maxWorkers).map fun i =>
    (fileList.take ((i + 1) * batchSize)).drop (i * batchSize)).filter (· ≠ [])

/-- A thread in `batch_read_worker`: `file_to_read` is what is left of the round, `removing` a file
that is read and not yet deleted. -/
structure BatchReadWorker (R : Type) where
  firstFileId : ℕ
  results : List (Option R)
  fileToRead : List ℕ
  fileNotRead : List ℕ
  removing : Option ℕ
  timedOut : Bool
  deriving DecidableEq

namespace BatchReadWorker

/-- A thread at its first file. -/
def start (fileBatch : List ℕ) : BatchReadWorker R :=
  ⟨fileBatch.headD 0, fileBatch.map fun _ => none, fileBatch, [], none, false⟩

/-- The round is over. -/
def roundDone (w : BatchReadWorker R) : Bool :=
  w.fileToRead.isEmpty && w.removing.isNone && !w.timedOut

/-- The thread is at its end. -/
def finished (w : BatchReadWorker R) : Bool :=
  w.timedOut || (w.roundDone && w.fileNotRead.isEmpty)

/-- The next file of the round. -/
def read (files : ExchangeFiles R) (fileType : FileType) (w : BatchReadWorker R) :
    Option (BatchReadWorker R) :=
  if w.removing.isSome || w.timedOut then none
  else
    match w.fileToRead with
    | [] => none
    | fileId :: rest =>
        match loadFile files fileType fileId with
        | none => some { w with fileToRead := rest, fileNotRead := w.fileNotRead ++ [fileId] }
        | some ret => some { w with
            results := w.results.set (fileId - w.firstFileId) (some ret)
            fileToRead := rest
            removing := if fileType = .storageData then some fileId else none }

/-- A round more for the files that were not there. -/
def nextRound (w : BatchReadWorker R) : Option (BatchReadWorker R) :=
  if w.roundDone && !w.fileNotRead.isEmpty then
    some { w with fileToRead := w.fileNotRead, fileNotRead := [] }
  else none

/-- `TimeoutError`, between two rounds. -/
def timeOut (w : BatchReadWorker R) : Option (BatchReadWorker R) :=
  if w.roundDone && !w.fileNotRead.isEmpty then some { w with timedOut := true } else none

end BatchReadWorker

/-! ### The ranks -/

/-- Where a rank is in `gather_all_results_from_storage`: before or between calls, in `write_file`
after the truncation, or in `parallel_read_files`. -/
inductive Phase (R : Type)
  | idle
  | writing (fileType : FileType) (save : ℕ) (dumped : Bool)
  | reading (fileType : FileType) (save : ℕ) (workers : List (BatchReadWorker R))
  deriving DecidableEq

/-- The save for which a rank exchanges files of a type. -/
def Phase.saveOf (fileType : FileType) : Phase R → Option ℕ
  | .idle => none
  | .writing t save _ => if t = fileType then some save else none
  | .reading t save _ => if t = fileType then some save else none

/-- A list that `gather_all_results_from_storage` returned to a reader. -/
structure Gathered (R : Type) where
  fileType : FileType
  save : ℕ
  rank : ℕ
  results : List (Option R)
  deriving DecidableEq

/-- The ranks and the directory.  Every rank goes through its saves in order, the local plan before
the storage data: `position` is the first exchange that is left. -/
structure ExchangeState (R : Type) where
  files : ExchangeFiles R
  phase : ℕ → Phase R
  position : ℕ → ℕ
  gathered : List (Gathered R)

/-- The place of an exchange in the order of a rank. -/
def exchangePosition (fileType : FileType) (save : ℕ) : ℕ :=
  match fileType with
  | .localPlan => 2 * save
  | .storageData => 2 * save + 1

/-- The steps: a call begins with the truncation, the payload is dumped, the flag is appended and
threads are started; a thread reads, deletes, begins a new round or times out; a call ends. -/
inductive ExchangeAction
  | start (rank : ℕ) (fileType : FileType) (save : ℕ)
  | dump (rank : ℕ)
  | flag (rank maxWorkers : ℕ)
  | read (rank worker : ℕ)
  | remove (rank worker : ℕ) (removed : Bool)
  | nextRound (rank worker : ℕ)
  | timeOut (rank worker : ℕ)
  | finish (rank : ℕ)
  deriving DecidableEq, Repr

namespace ExchangeState

variable (worldSize : ℕ) (produced : FileType → ℕ → ℕ → R)

/-- An empty directory. -/
def initial : ExchangeState R := ⟨fun _ _ => none, fun _ => .idle, fun _ => 0, []⟩

/-- A rank in another phase. -/
def goTo (s : ExchangeState R) (rank : ℕ) (phase : Phase R) : ExchangeState R :=
  { s with phase := Function.update s.phase rank phase }

/-- A rank with another thread in the place of one. -/
def setWorker (s : ExchangeState R) (rank : ℕ) (fileType : FileType) (save : ℕ)
    (workers : List (BatchReadWorker R)) (worker : ℕ) (w : BatchReadWorker R) :
    ExchangeState R :=
  s.goTo rank (.reading fileType save (workers.set worker w))

/-- The step of a thread. -/
def workerStep (s : ExchangeState R) (rank worker : ℕ)
    (f : FileType → BatchReadWorker R → Option (BatchReadWorker R)) : Option (ExchangeState R) :=
  match s.phase rank with
  | .reading fileType save workers => do
      let w ← workers[worker]?
      let w' ← f fileType w
      return s.setWorker rank fileType save workers worker w'
  | _ => none

/-- One step: `produced` is what every rank gives to the exchange of a save.  A file that was
deleted after its owner opened it takes no more bytes. -/
def step (s : ExchangeState R) : ExchangeAction → Option (ExchangeState R)
  | .start rank fileType save =>
      match s.phase rank with
      | .idle =>
          if rank < worldSize ∧ s.position rank ≤ exchangePosition fileType save then
            some { s with
              files := s.files.put fileType rank (some ⟨save, none, false⟩)
              phase := Function.update s.phase rank (.writing fileType save false)
              position := Function.update s.position rank (exchangePosition fileType save + 1) }
          else none
      | _ => none
  | .dump rank =>
      match s.phase rank with
      | .writing fileType save false =>
          some { s with
            files := s.files.put fileType rank ((s.files fileType rank).map fun file =>
              { file with payload := some (produced fileType save rank) })
            phase := Function.update s.phase rank (.writing fileType save true) }
      | _ => none
  | .flag rank maxWorkers =>
      match s.phase rank with
      | .writing fileType save true =>
          let phase := if rank ≠ 0 ∧ fileType ≠ .localPlan then .idle
            else .reading fileType save ((constructFileBatches (List.range worldSize)
              (max maxWorkers 1)).map BatchReadWorker.start)
          some { s with
            files := s.files.put fileType rank ((s.files fileType rank).map fun file =>
              { file with complete := true })
            phase := Function.update s.phase rank phase }
      | _ => none
  | .read rank worker => s.workerStep rank worker fun fileType w => w.read s.files fileType
  | .remove rank worker removed =>
      match s.phase rank with
      | .reading fileType save workers => do
          let w ← workers[worker]?
          let fileId ← w.removing
          return { s.setWorker rank fileType save workers worker { w with removing := none } with
            files := if removed then s.files.put fileType fileId none else s.files }
      | _ => none
  | .nextRound rank worker => s.workerStep rank worker fun _ w => w.nextRound
  | .timeOut rank worker => s.workerStep rank worker fun _ w => w.timeOut
  | .finish rank =>
      match s.phase rank with
      | .reading fileType save workers =>
          if workers.all BatchReadWorker.finished then
            -- a thread that timed out makes the call raise
            if workers.any BatchReadWorker.timedOut then some (s.goTo rank .idle)
            else some { s.goTo rank .idle with
              gathered := s.gathered ++
                [⟨fileType, save, rank, workers.flatMap BatchReadWorker.results⟩] }
          else none
      | _ => none

/-- A run. -/
def run (s : ExchangeState R) : List ExchangeAction → Option (ExchangeState R)
  | [] => some s
  | action :: actions => (s.step worldSize produced action).bind fun s' => run s' actions

/-- Every list gathered for a save is what the ranks produced for that save. -/
def GathersOwn (s : ExchangeState R) : Prop :=
  ∀ g ∈ s.gathered, g.results =
    (List.range worldSize).map fun rank => some (produced g.fileType g.save rank)

/-- A call begins alone: no other rank has a file of the type from another save, and no rank is in
the exchange of another save. -/
def Clean (s : ExchangeState R) : ExchangeAction → Prop
  | .start rank fileType save => ∀ r < worldSize,
      (r ≠ rank → ∀ file ∈ s.files fileType r, file.save = save) ∧
        ∀ other ∈ (s.phase r).saveOf fileType, other = save
  | _ => True

instance (s : ExchangeState R) (action : ExchangeAction) : Decidable (s.Clean worldSize action) := by
  cases action <;> unfold Clean <;> infer_instance

/-- Every step of a run is clean. -/
def CleanRun (s : ExchangeState R) : List ExchangeAction → Prop
  | [] => True
  | action :: actions => s.Clean worldSize action ∧
      ∀ s' ∈ s.step worldSize produced action, CleanRun s' actions

instance decidableCleanRun : (s : ExchangeState R) → (actions : List ExchangeAction) →
    Decidable (s.CleanRun worldSize produced actions)
  | _, [] => isTrue trivial
  | s, action :: actions =>
      have : ∀ s', Decidable (CleanRun worldSize produced s' actions) :=
        fun s' => decidableCleanRun s' actions
      inferInstanceAs (Decidable (_ ∧ _))

end ExchangeState

end HyperParallel.Checkpoint
