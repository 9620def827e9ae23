import HyperParallel.MegaMoe.RuntimeConfig

/-!
# The sections of the runtime image

* `decodes_tensorDesc`, `decodes_taskDesc`: the readers of the structures;
* `Sections`: where the sections of the image stand; `sections_of_serialize`;
* `serialize_eq`: an allocated configuration of a capacity that fits is serialized.
-/

namespace HyperParallel.MegaMoe

open WordImage

/-! ### The structures -/

theorem decodes_words (l : List UInt32) : Decodes (many next l.length) l l := by
  have h : Decodes (many next l.length) l (l.flatMap fun w => [w]) :=
    decodes_many fun w _ => decodes_next w
  rwa [← List.map_eq_flatMap, List.map_id'] at h

theorem decodes_tensorDesc {t : TensorDesc} (h : t.Sized) : Decodes readTensorDesc t t.words := by
  obtain ⟨hdim, hstride⟩ := h
  have hdims := decodes_words t.dim
  have hstrides := decodes_words t.stride
  rw [hdim] at hdims
  rw [hstride] at hstrides
  rw [TensorDesc.words, List.append_assoc, List.append_assoc]
  exact .next _ (.next _ (hdims.bind (hstrides.bind (.next _ (.next _ (.next _ (.next _ (.next _
    (.next _ (.pure t))))))))))

theorem decodes_taskDesc {t : TaskDesc} (h : t.Sized) : Decodes readTaskDesc t t.words := by
  obtain ⟨hinputs, houtputs, hin, hout⟩ := h
  have hins := decodes_many fun x hx => decodes_tensorDesc (hin x hx)
  have houts := decodes_many fun x hx => decodes_tensorDesc (hout x hx)
  rw [hinputs] at hins
  rw [houtputs] at houts
  rw [TaskDesc.words, List.append_assoc, List.append_assoc]
  exact .next _ (.next _ (.next _ (.next _ (.next _ (.next _ (hins.bind (houts.bind (.next _
    (.next _ (.next _ (.next _ (.next _ (.next _ (.next _ (.next _ (.next _ (.next _
    (.pure t))))))))))))))))))

theorem decodes_eventDesc (e : EventDesc) : Decodes readEventDesc e e.words :=
  .next _ (.next _ (.next _ (.next _ (.pure e))))

theorem decodes_dynamicData (d : DynamicData) : Decodes readDynamicData d d.words :=
  .next _ (.next _ (.next _ (.next _ (.pure d))))

theorem length_tensorWords {t : TensorDesc} (h : t.Sized) : t.words.length = 16 := by
  simp [TensorDesc.words, h.1, h.2, maxTensorDims]

theorem length_flatMap_words {α : Type} {f : α → List UInt32} {k : ℕ} {l : List α}
    (h : ∀ x ∈ l, (f x).length = k) : (l.flatMap f).length = k * l.length := by
  induction l with
  | nil => rfl
  | cons x l ih =>
    rw [List.flatMap_cons, List.length_append, h x List.mem_cons_self,
      ih fun y hy => h y (List.mem_cons_of_mem _ hy), List.length_cons, Nat.mul_succ, Nat.add_comm]

theorem length_taskWords {t : TaskDesc} (h : t.Sized) : t.words.length = 144 := by
  obtain ⟨hinputs, houtputs, hin, hout⟩ := h
  have hins := length_flatMap_words fun x hx => length_tensorWords (hin x hx)
  have houts := length_flatMap_words fun x hx => length_tensorWords (hout x hx)
  rw [hinputs] at hins
  rw [houtputs] at houts
  rw [TaskDesc.words, List.length_append, List.length_append, List.length_append, hins, houts]
  rfl

/-! ### The sections -/

/-- The sections of an image of the given capacities. -/
structure Sections (cfg : RuntimeConfig) (image : List UInt8) (C E : ℕ) : Prop where
  size : image.length = 4224 + 20 * E + 588 * C
  fits : 4224 + 20 * E + 588 * C < 2 ^ 32
  taskCount : C ≤ cfg.allTasks.length
  taskSized : ∀ x ∈ cfg.allTasks, x.Sized
  cubeCount : C ≤ cfg.cubeTaskIndices.length
  vectorCount : C ≤ cfg.vectorTaskIndices.length
  mixCount : C ≤ cfg.mixTaskIndices.length
  triggerCount : cfg.allEventNumTriggers.length = E
  eventCount : cfg.allEvents.length = E
  countCount : cfg.taskIndexNum.length = 4
  atomicCount : cfg.atomicAddValues.length = 8
  header : At image 0 (headerWords cfg C E)
  triggers : At image 64 (cfg.allEventNumTriggers.map Int32.toUInt32)
  tasks : At image (64 + 4 * E) ((cfg.allTasks.take C).flatMap TaskDesc.words)
  events : At image (64 + 4 * E + 576 * C) (cfg.allEvents.flatMap EventDesc.words)
  counts : At image (64 + 20 * E + 576 * C) (cfg.taskIndexNum.map Int32.toUInt32)
  cube : At image (80 + 20 * E + 576 * C) ((cfg.cubeTaskIndices.take C).map Int32.toUInt32)
  vector : At image (80 + 20 * E + 580 * C) ((cfg.vectorTaskIndices.take C).map Int32.toUInt32)
  mix : At image (80 + 20 * E + 584 * C) ((cfg.mixTaskIndices.take C).map Int32.toUInt32)
  dynamicData : At image (80 + 20 * E + 588 * C) cfg.dynamicData.words
  atomic : At image (4192 + 20 * E + 588 * C) (cfg.atomicAddValues.map Int32.toUInt32)

/-- The guards of `runtime_config_task_capacity` about the sizes. -/
theorem le_of_taskCapacity {cfg : RuntimeConfig} {C : ℕ}
    (h : runtimeConfigTaskCapacity cfg = some C) :
    C ≤ cfg.allTasks.length ∧ C ≤ cfg.cubeTaskIndices.length ∧
      C ≤ cfg.vectorTaskIndices.length ∧ C ≤ cfg.mixTaskIndices.length := by
  rw [runtimeConfigTaskCapacity] at h
  obtain ⟨required, -, hcap⟩ := Option.bind_eq_some_iff.1 h
  dsimp only at hcap
  split_ifs at hcap with hmin
  have hC : aligned16 required = C := Option.some.inj hcap
  rw [hC, not_lt, le_min_iff, le_min_iff, le_min_iff] at hmin
  exact hmin

/-- What the guards of `runtime_config_serialized_size` say. -/
theorem of_serializedSize {C E size : ℕ} (h : runtimeConfigSerializedSize C E = some size) :
    C % 16 = 0 ∧ minEventCapacity ≤ E ∧ E % 16 = 0 ∧ size = 4224 + 20 * E + 588 * C ∧
      size < 2 ^ 32 := by
  have htotal : runtimeFixedBytes + E * 20 + C * (taskDescSize + 12) = 4224 + 20 * E + 588 * C := by
    simp only [runtimeFixedBytes, maxGroupList, atomicAddValueLen, taskDescSize]
    omega
  rw [runtimeConfigSerializedSize, htotal] at h
  dsimp only at h
  split_ifs at h with hmod hevent hsize
  obtain rfl := Option.some.inj h
  omega

/-! The lengths of the sections, in words. -/

theorem length_tasksSection {cfg : RuntimeConfig} {taskCapacity E C : ℕ}
    (hcfg : cfg.Allocated taskCapacity E) (htask : C ≤ cfg.allTasks.length) :
    ((cfg.allTasks.take C).flatMap TaskDesc.words).length = 144 * C := by
  rw [length_flatMap_words fun x hx =>
    length_taskWords (hcfg.tasksSized x (List.mem_of_mem_take hx)),
    List.length_take_of_le htask]

theorem length_eventsSection {cfg : RuntimeConfig} {taskCapacity E : ℕ}
    (hcfg : cfg.Allocated taskCapacity E) :
    (cfg.allEvents.flatMap EventDesc.words).length = 4 * E := by
  rw [length_flatMap_words (f := EventDesc.words) (k := 4) fun _ _ => rfl, hcfg.events]

theorem length_groupSection {cfg : RuntimeConfig} {taskCapacity E : ℕ}
    (hcfg : cfg.Allocated taskCapacity E) :
    (cfg.groupedMatmulGroupList.flatMap int64Words).length = 1024 := by
  rw [length_flatMap_words (f := int64Words) (k := 2) fun _ _ => rfl, hcfg.groupList]
  rfl

theorem length_headerWords (cfg : RuntimeConfig) (C E : ℕ) : (headerWords cfg C E).length = 16 :=
  rfl

theorem DynamicData.length_words (d : DynamicData) : d.words.length = 4 := rfl

/-- The size that `serialize_runtime_config` expects. -/
theorem length_imageWords {cfg : RuntimeConfig} {taskCapacity E C : ℕ}
    (hcfg : cfg.Allocated taskCapacity E) (hC : runtimeConfigTaskCapacity cfg = some C) :
    4 * (imageWords cfg C).length = 4224 + 20 * E + 588 * C := by
  obtain ⟨htask, hcube, hvector, hmix⟩ := le_of_taskCapacity hC
  simp only [imageWords, List.length_append, List.length_map, List.length_take_of_le hcube,
    List.length_take_of_le hvector, List.length_take_of_le hmix, length_headerWords,
    length_tasksSection hcfg htask, length_eventsSection hcfg, length_groupSection hcfg,
    DynamicData.length_words, hcfg.triggers, hcfg.counts, hcfg.atomic, atomicAddValueLen]
  omega

/-- The image is the sections one after the other. -/
theorem sections_of_imageWords {cfg : RuntimeConfig} {taskCapacity E C : ℕ}
    (hcfg : cfg.Allocated taskCapacity E) (hC : runtimeConfigTaskCapacity cfg = some C)
    (hsize : 4224 + 20 * E + 588 * C < 2 ^ 32) :
    Sections cfg (encode (imageWords cfg C)) C E := by
  obtain ⟨htask, hcube, hvector, hmix⟩ := le_of_taskCapacity hC
  have hlength := length_imageWords hcfg hC
  have hall : At (encode (imageWords cfg C)) 0 (imageWords cfg C) :=
    at_encode (by rw [hlength]; exact hsize)
  have hsizeBytes := length_encode (imageWords cfg C)
  rw [hlength] at hsizeBytes
  generalize encode (imageWords cfg C) = image at hall hsizeBytes ⊢
  rw [imageWords, hcfg.triggers] at hall
  -- the sections, from the last to the first
  have hatomic := hall.right
  replace hall := hall.left.left
  have hdynamic := hall.right
  replace hall := hall.left
  have hmixAt := hall.right
  replace hall := hall.left
  have hvectorAt := hall.right
  replace hall := hall.left
  have hcubeAt := hall.right
  replace hall := hall.left
  have hcounts := hall.right
  replace hall := hall.left
  have heventsAt := hall.right
  replace hall := hall.left
  have htasksAt := hall.right
  have htriggers := hall.left.right
  have hheaderAt := hall.left.left
  simp only [List.length_append, List.length_map, List.length_take_of_le hcube,
    List.length_take_of_le hvector, List.length_take_of_le hmix, length_headerWords,
    length_tasksSection hcfg htask, length_eventsSection hcfg, length_groupSection hcfg,
    DynamicData.length_words, hcfg.triggers, hcfg.counts] at hatomic hdynamic hmixAt
  simp only [List.length_append, List.length_map, List.length_take_of_le hcube,
    length_headerWords, length_tasksSection hcfg htask, length_eventsSection hcfg, hcfg.triggers,
    hcfg.counts] at hvectorAt hcubeAt hcounts
  simp only [List.length_append, List.length_map, length_headerWords,
    length_tasksSection hcfg htask, hcfg.triggers] at heventsAt
  simp only [List.length_append, List.length_map, length_headerWords, hcfg.triggers] at htasksAt
  rw [length_headerWords] at htriggers
  exact {
    size := hsizeBytes
    fits := hsize
    taskCount := htask
    taskSized := hcfg.tasksSized
    cubeCount := hcube
    vectorCount := hvector
    mixCount := hmix
    triggerCount := hcfg.triggers
    eventCount := hcfg.events
    countCount := hcfg.counts
    atomicCount := hcfg.atomic
    header := hheaderAt
    triggers := htriggers.cast (by omega)
    tasks := htasksAt.cast (by omega)
    events := heventsAt.cast (by omega)
    counts := hcounts.cast (by omega)
    cube := hcubeAt.cast (by omega)
    vector := hvectorAt.cast (by omega)
    mix := hmixAt.cast (by omega)
    dynamicData := hdynamic.cast (by omega)
    atomic := hatomic.cast (by omega) }

theorem sections_of_serialize {cfg : RuntimeConfig} {taskCapacity E : ℕ} {image : List UInt8}
    (hcfg : cfg.Allocated taskCapacity E) (h : serializeRuntimeConfig cfg = some image) :
    ∃ C, runtimeConfigTaskCapacity cfg = some C ∧ C % 16 = 0 ∧ minEventCapacity ≤ E ∧
      E % 16 = 0 ∧ Sections cfg image C E := by
  rw [serializeRuntimeConfig] at h
  obtain ⟨C, hC, hrest⟩ := Option.bind_eq_some_iff.1 h
  dsimp only at hrest
  split_ifs at hrest with hevents
  obtain ⟨expected, hexpected, hdata⟩ := Option.bind_eq_some_iff.1 hrest
  split_ifs at hdata with hlength
  obtain rfl := Option.some.inj hdata
  rw [hcfg.triggers] at hexpected
  obtain ⟨hmod, hmin, hemod, rfl, hsize⟩ := of_serializedSize hexpected
  exact ⟨C, hC, hmod, hmin, hemod, sections_of_imageWords hcfg hC hsize⟩

/-- The last check of `serialize_runtime_config` never fails. -/
theorem serialize_eq {cfg : RuntimeConfig} {taskCapacity E C size : ℕ}
    (hcfg : cfg.Allocated taskCapacity E) (hC : runtimeConfigTaskCapacity cfg = some C)
    (hsize : runtimeConfigSerializedSize C E = some size) :
    serializeRuntimeConfig cfg = some (encode (imageWords cfg C)) := by
  obtain ⟨-, -, -, hexpected, -⟩ := of_serializedSize hsize
  have hlength : (encode (imageWords cfg C)).length = size := by
    rw [length_encode, length_imageWords hcfg hC, hexpected]
  rw [serializeRuntimeConfig, hC, Option.bind_eq_bind, Option.bind_some,
    if_neg (not_not.2 (hcfg.events.trans hcfg.triggers.symm)), hcfg.triggers, hsize,
    Option.bind_some]
  exact if_neg (not_not.2 hlength)

end HyperParallel.MegaMoe
