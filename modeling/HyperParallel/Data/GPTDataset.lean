import Mathlib.Algebra.Ring.Nat
import Mathlib.Data.Int.Notation
import Mathlib.Data.List.Basic

/-!
# The indices of a GPT dataset

`GPTDataset` of `data/indexed/indexed_pretrain_dataset.py` and `build_sample_idx` of
`csrc/indexed_helpers.cpp`: a token stream is cut into samples of one length.

* `nextCursor`, `buildSampleIdx`: the cursors into the documents at which the samples start;
* `buildDocumentSampleShuffleIndices`: the three indices of a dataset;
* `readSample`, `query`: the text between two cursors;
* `IndicesCorrect`: what the indices have to be.

A low-level dataset is the list of its sequences; `RandomState.shuffle` is the parameter `shuffle`.
-/

namespace HyperParallel.Data

/-- What building the indices or reading a sample raises. -/
inductive IndexError
  /-- `Sequence length must be positive and token/epoch counts nonnegative` -/
  | sequenceLengthNotPositive
  /-- `Token count must cover the extra token` -/
  | tokenCount
  /-- `Document index must not be empty when building samples` -/
  | emptyDocumentIndex
  /-- `Document ID is outside sequence_lengths` -/
  | documentId
  /-- `The final partial sample was reached before the last sample index` -/
  | earlyPartialSample
  /-- `The selected indexed split must contain at least two tokens` -/
  | fewTokens
  /-- `Token range [{offset}, {end}) exceeds sequence length {sequence_length}` -/
  | tokenRange (offset stop : ℤ) (sequenceLength : ℕ)
  /-- An index past the end of an array. -/
  | outOfBounds
  deriving DecidableEq, Repr

/-! ### The sample index -/

/-- A position in the document index and a token offset in that document. -/
abbrev Cursor := ℕ × ℤ

section SampleIndex

variable (lengths : List ℕ) (extraToken : ℕ) (last : Bool)

/-- The inner loop, over the document index from `position` on. -/
def nextCursor : List ℕ → ℕ → ℤ → ℤ → Except IndexError Cursor
  | [], _, _, _ => .error .outOfBounds
  | documentId :: rest, position, offset, remaining =>
      let documentLength := lengths.getD documentId 0 - offset
      let remaining := remaining - documentLength
      if remaining ≤ 0 then .ok (position, offset + (remaining + documentLength - extraToken))
      else if rest ≠ [] then nextCursor rest (position + 1) 0 remaining
      else if last then .ok (position, lengths.getD documentId 0 - extraToken)
      else .error .earlyPartialSample

end SampleIndex

/-- The outer loop: the cursors behind the next `count` samples. -/
def cursors (lengths documentIndex : List ℕ) (sequenceLength extraToken : ℕ) :
    ℕ → Cursor → Except IndexError (List Cursor)
  | 0, _ => .ok []
  | count + 1, (position, offset) => do
      let cursor ← nextCursor lengths extraToken (count = 0) (documentIndex.drop position) position
        offset (sequenceLength + extraToken)
      let rest ← cursors lengths documentIndex sequenceLength extraToken count cursor
      return cursor :: rest

/-- `num_samples` of `build_sample_idx`. -/
def sampleCount (availableTokens sequenceLength : ℕ) (dropLast : Bool) : ℕ :=
  if dropLast then availableTokens / sequenceLength
  else (availableTokens + sequenceLength - 1) / sequenceLength

/-- `build_sample_idx`. -/
def buildSampleIdx (lengths documentIndex : List ℕ)
    (sequenceLength numEpochs numTokensPerEpoch : ℕ) (dropLast : Bool) (extraToken : ℕ) :
    Except IndexError (List Cursor) :=
  if sequenceLength = 0 then .error .sequenceLengthNotPositive
  else if numEpochs * numTokensPerEpoch < extraToken then .error .tokenCount
  else
    let numSamples :=
      sampleCount (numEpochs * numTokensPerEpoch - extraToken) sequenceLength dropLast
    if 0 < numSamples ∧ documentIndex = [] then .error .emptyDocumentIndex
    else if ∃ documentId ∈ documentIndex, lengths.length ≤ documentId then .error .documentId
    else do
      let rest ← cursors lengths documentIndex sequenceLength extraToken numSamples (0, 0)
      return (0, 0) :: rest

/-! ### The dataset -/

/-- The fields of `GPTDatasetConfig` that the indices depend on. -/
structure GPTDatasetConfig where
  sequenceLength : ℕ
  randomSeed : ℕ
  addExtraTokenToSequence : Bool
  dropLastPartialValidationSequence : Bool
  deriving DecidableEq, Repr

/-- `extra_token`. -/
def GPTDatasetConfig.extraToken (config : GPTDatasetConfig) : ℕ :=
  config.addExtraTokenToSequence.toNat

/-- `index_split`. -/
inductive Split
  | train
  | valid
  | test
  deriving DecidableEq, Repr

/-- `drop_last_partial_sequence`. -/
def dropLastPartialSequence (config : GPTDatasetConfig) : Split → Bool
  | .valid => config.dropLastPartialValidationSequence
  | _ => true

/-- The three indices. -/
structure Indices where
  documentIndex : List ℕ
  sampleIndex : List Cursor
  shuffleIndex : List ℕ
  deriving DecidableEq, Repr

/-- `__len__`. -/
def Indices.numSamples (idx : Indices) : ℕ := idx.sampleIndex.length - 1

/-- The `while` loop over `num_epochs` and `accumulated_tokens`; every turn adds a token at least,
so `fuel` need not exceed the requested ones. -/
def countEpochs (numTokensPerEpoch requestedTokens : ℕ) : ℕ → ℕ → ℕ → ℕ
  | 0, numEpochs, _ => numEpochs
  | fuel + 1, numEpochs, accumulatedTokens =>
      if accumulatedTokens < requestedTokens then
        countEpochs numTokensPerEpoch requestedTokens fuel (numEpochs + 1)
          (accumulatedTokens + numTokensPerEpoch)
      else numEpochs

section Dataset

variable (config : GPTDatasetConfig) (numTokensPerEpoch numSamples : ℕ)

/-- `requested_tokens`. -/
def requestedTokens : ℕ := numSamples * config.sequenceLength + config.extraToken

/-- `num_epochs`. -/
def numEpochs : ℕ :=
  countEpochs numTokensPerEpoch (requestedTokens config numSamples)
    (requestedTokens config numSamples) 0 0

/-- `samples_without_final_epoch`. -/
def samplesWithoutFinalEpoch : ℤ :=
  if numEpochs config numTokensPerEpoch numSamples = 1 then 0
  else (((numEpochs config numTokensPerEpoch numSamples : ℤ) - 1) * numTokensPerEpoch -
    config.extraToken) / config.sequenceLength

/-- `separate_final_epoch`.  `int(0.80 * n)` in double precision is `4 * n / 5` for every `n` below
`2 ^ 50`. -/
def separateFinalEpoch : Bool :=
  if numEpochs config numTokensPerEpoch numSamples = 1 then false
  else
    let samplesFromFinalEpoch :=
      (numSamples : ℤ) - samplesWithoutFinalEpoch config numTokensPerEpoch numSamples
    let samplesPerEpoch := ((numTokensPerEpoch : ℤ) - config.extraToken) / config.sequenceLength
    samplesFromFinalEpoch < 4 * samplesPerEpoch / 5

end Dataset

section Shuffled

variable {σ : Type*} (shuffle : σ → List ℕ → List ℕ × σ)

/-- `_build_document_index`, with the state of the generator afterwards. -/
def buildDocumentIndex (documents : List ℕ) (numEpochs : ℕ) (state : σ)
    (separateFinalEpoch : Bool) : List ℕ × σ :=
  if !separateFinalEpoch ∨ numEpochs = 1 then
    shuffle state (List.replicate numEpochs documents).flatten
  else
    let (firstEpochs, state) := shuffle state (List.replicate (numEpochs - 1) documents).flatten
    let (finalEpoch, state) := shuffle state documents
    (firstEpochs ++ finalEpoch, state)

/-- `_build_shuffle_index`. -/
def buildShuffleIndex (numSamples totalSize : ℕ) (state : σ) : List ℕ :=
  let (firstRange, state) := shuffle state (List.range numSamples)
  if numSamples = totalSize then firstRange
  else firstRange ++ (shuffle state (List.range' numSamples (totalSize - numSamples))).1

variable {τ : Type*} (sequences : List (List τ))

/-- `sequence_lengths`. -/
def sequenceLengths : List ℕ := sequences.map List.length

/-- `num_tokens_per_epoch`. -/
def tokensPerEpoch (documents : List ℕ) : ℕ :=
  (documents.map fun document => (sequenceLengths sequences).getD document 0).sum

/-- `_build_document_sample_shuffle_indices`, without the cache. -/
def buildDocumentSampleShuffleIndices (seeded : ℕ → σ) (config : GPTDatasetConfig) (split : Split)
    (documents : List ℕ) (numSamples : ℕ) : Except IndexError Indices :=
  let numTokensPerEpoch := tokensPerEpoch sequences documents
  if numTokensPerEpoch ≤ 1 then .error .fewTokens
  else
    let epochs := numEpochs config numTokensPerEpoch numSamples
    let separate := separateFinalEpoch config numTokensPerEpoch numSamples
    let (documentIndex, state) :=
      buildDocumentIndex shuffle documents epochs (seeded config.randomSeed) separate
    do
      let sampleIndex ← buildSampleIdx (sequenceLengths sequences) documentIndex
        config.sequenceLength epochs numTokensPerEpoch (dropLastPartialSequence config split)
        config.extraToken
      let total := sampleIndex.length - 1
      let first :=
        if separate then (samplesWithoutFinalEpoch config numTokensPerEpoch numSamples).toNat
        else total
      return ⟨documentIndex, sampleIndex, buildShuffleIndex shuffle first total state⟩

/-! ### Reading a sample -/

/-- `get` of the low-level dataset. -/
def get (index : ℕ) (offset : ℤ) (length : Option ℤ) : Except IndexError (List τ) :=
  let sequence := sequences.getD index []
  let readLength := length.getD (sequence.length - offset)
  if offset < 0 ∨ readLength < 0 ∨ sequence.length < offset + readLength then
    .error (.tokenRange offset (offset + readLength) sequence.length)
  else .ok ((sequence.drop offset.toNat).take readLength.toNat)

/-- The slices of a sample that crosses document boundaries: the document index from `position`
on, up to `endPosition`. -/
def crossingParts (extraToken : ℕ) (beginPosition : ℕ) (beginOffset : ℤ) (endPosition : ℕ)
    (endOffset : ℤ) : List ℕ → ℕ → Except IndexError (List (ℕ × List τ))
  | [], _ => .ok []
  | documentId :: rest, position => do
      let offset := if beginPosition < position then 0 else beginOffset
      let length := if position < endPosition then none else some (endOffset + extraToken)
      let part ← get sequences documentId offset length
      let parts ← crossingParts extraToken beginPosition beginOffset endPosition endOffset rest
        (position + 1)
      return (documentId, part) :: parts

/-- The slices between two cursors. -/
def sampleParts (extraToken : ℕ) (documentIndex : List ℕ) :
    Cursor → Cursor → Except IndexError (List (ℕ × List τ))
  | (beginPosition, beginOffset), (endPosition, endOffset) =>
      if beginPosition = endPosition then do
        let documentId := documentIndex.getD beginPosition 0
        let part ← get sequences documentId beginOffset
          (some (endOffset - beginOffset + extraToken))
        return [(documentId, part)]
      else
        crossingParts sequences extraToken beginPosition beginOffset endPosition endOffset
          ((documentIndex.drop beginPosition).take (endPosition + 1 - beginPosition)) beginPosition

/-- What `_query_document_sample_shuffle_indices` returns: the text, the documents it is from and
the tokens of each. -/
structure Sample (τ : Type*) where
  text : List τ
  documentIds : List ℕ
  documentLengths : List ℕ
  deriving DecidableEq, Repr

/-- The sample at a position of the sample index. -/
def readSample (config : GPTDatasetConfig) (pad : τ) (idx : Indices) (sample : ℕ) :
    Except IndexError (Sample τ) :=
  match idx.sampleIndex[sample]?, idx.sampleIndex[sample + 1]? with
  | some cursor, some cursor' => do
      let parts ← sampleParts sequences config.extraToken idx.documentIndex cursor cursor'
      let text := (parts.map Prod.snd).flatten
      return ⟨text ++
          List.replicate (config.sequenceLength + config.extraToken - text.length) pad,
        parts.map Prod.fst, parts.map fun part => part.2.length⟩
  | _, _ => .error .outOfBounds

/-- `_query_document_sample_shuffle_indices`. -/
def query (config : GPTDatasetConfig) (pad : τ) (idx : Indices) (index : ℕ) :
    Except IndexError (Sample τ) :=
  match idx.shuffleIndex[index]? with
  | some sample => readSample sequences config pad idx sample
  | none => .error .outOfBounds

/-! ### What the indices have to be -/

/-- The tokens of documents, one after the other. -/
def stream (documentIndex : List ℕ) : List τ :=
  documentIndex.flatMap fun document => sequences.getD document []

/-- The tokens of a sample: `sequence_length` of them from `sample * sequence_length` on, and the
extra one. -/
def window (config : GPTDatasetConfig) (documentIndex : List ℕ) (sample : ℕ) : List τ :=
  ((stream sequences documentIndex).drop (sample * config.sequenceLength)).take
    (config.sequenceLength + config.extraToken)

/-- The indices of a dataset are as they should be. -/
structure IndicesCorrect (config : GPTDatasetConfig) (split : Split) (documents : List ℕ)
    (numSamples : ℕ) (idx : Indices) : Prop where
  repeated : idx.documentIndex.Perm (List.replicate
    (numEpochs config (tokensPerEpoch sequences documents) numSamples) documents).flatten
  reads : ∀ pad, ∀ sample < idx.numSamples, ∃ documentIds documentLengths,
    readSample sequences config pad idx sample = .ok
      ⟨window sequences config idx.documentIndex sample ++ List.replicate
          (config.sequenceLength + config.extraToken -
            (window sequences config idx.documentIndex sample).length) pad,
        documentIds, documentLengths⟩
  full : ∀ sample < idx.numSamples,
    (window sequences config idx.documentIndex sample).length =
        config.sequenceLength + config.extraToken ∨
      dropLastPartialSequence config split = false ∧ sample + 1 = idx.numSamples
  shuffled : idx.shuffleIndex.Perm (List.range idx.numSamples)
  enough : dropLastPartialSequence config split = true → numSamples ≤ idx.numSamples
  separated : separateFinalEpoch config (tokensPerEpoch sequences documents) numSamples = true →
    ∃ firstEpochs finalEpoch, idx.documentIndex = firstEpochs ++ finalEpoch ∧
      firstEpochs.Perm (List.replicate
        (numEpochs config (tokensPerEpoch sequences documents) numSamples - 1) documents).flatten ∧
      finalEpoch.Perm documents ∧
      ∀ index : ℕ, (index : ℤ) < samplesWithoutFinalEpoch config
          (tokensPerEpoch sequences documents) numSamples →
        ∃ sample, idx.shuffleIndex[index]? = some sample ∧
          (sample + 1) * config.sequenceLength + config.extraToken ≤
            (stream sequences firstEpochs).length

end Shuffled

end HyperParallel.Data
