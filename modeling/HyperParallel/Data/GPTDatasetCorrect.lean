import HyperParallel.Data.GPTDataset
import Mathlib.Data.List.GetD
import Mathlib.Algebra.BigOperators.Group.List.Basic
import Mathlib.Tactic.Ring
import Mathlib.Tactic.Linarith

/-!
# The indices of a GPT dataset are as they should be

A cursor of the sample index stands at a token of the stream.  `nextCursor_spec` says how far one
turn of the loop moves it, `readSample_of_spans` what is read between two cursors, and
`buildDocumentSampleShuffleIndices_spec` puts them together.
-/

namespace HyperParallel.Data

variable {τ : Type*} {sequences : List (List τ)}

/-! ### Streams -/

section Stream

variable {documents documents' : List ℕ} {document : ℕ}

@[simp] theorem getD_sequenceLengths (sequences : List (List τ)) (document : ℕ) :
    (sequenceLengths sequences).getD document 0 = (sequences.getD document []).length := by
  rw [sequenceLengths, ← List.length_nil (α := τ), List.getD_map]

@[simp] theorem stream_nil : stream sequences [] = [] := rfl

@[simp] theorem stream_cons : stream sequences (document :: documents) =
    sequences.getD document [] ++ stream sequences documents := rfl

@[simp] theorem stream_append : stream sequences (documents ++ documents') =
    stream sequences documents ++ stream sequences documents' :=
  List.flatMap_append ..

theorem length_stream (sequences : List (List τ)) (documents : List ℕ) :
    (stream sequences documents).length = tokensPerEpoch sequences documents := by
  rw [stream, List.length_flatMap, tokensPerEpoch]
  simp only [getD_sequenceLengths]

theorem length_stream_perm (h : documents.Perm documents') :
    (stream sequences documents).length = (stream sequences documents').length := by
  rw [length_stream, length_stream, tokensPerEpoch, tokensPerEpoch]
  exact (h.map _).sum_eq

theorem length_stream_replicate (sequences : List (List τ)) (epochs : ℕ) (documents : List ℕ) :
    (stream sequences (List.replicate epochs documents).flatten).length =
      epochs * tokensPerEpoch sequences documents := by
  induction epochs with
  | zero => simp
  | succ epochs ih =>
    rw [List.replicate_succ, List.flatten_cons, stream_append, List.length_append, ih,
      length_stream]
    ring

end Stream

/-! ### One sample -/

/-- The inner loop ends in the document that holds the last token of the sample, or of the stream
when the sample is the last one. -/
theorem nextCursor_spec (extraToken : ℕ) (last : Bool) {documents : List ℕ} (hne : documents ≠ [])
    (position offset remaining : ℕ)
    (hoffset : offset ≤ (sequences.getD (documents.headD 0) []).length) (hpos : 0 < remaining)
    (hlast : last = true ∨ offset + remaining ≤ (stream sequences documents).length) :
    ∃ (pre : List ℕ) (document : ℕ) (post : List ℕ) (stop : ℕ),
      documents = pre ++ document :: post ∧
      nextCursor (sequenceLengths sequences) extraToken last documents position offset remaining =
        .ok (position + pre.length, (stop : ℤ) - extraToken) ∧
      stop ≤ (sequences.getD document []).length ∧
      (stream sequences pre).length + stop =
        min (offset + remaining) (stream sequences documents).length ∧
      (offset + remaining ≤ (stream sequences documents).length → 0 < stop) := by
  induction documents generalizing position offset remaining with
  | nil => exact absurd rfl hne
  | cons document rest ih =>
    rw [List.headD_cons] at hoffset
    rw [stream_cons, List.length_append] at hlast ⊢
    rw [nextCursor, getD_sequenceLengths]
    by_cases hend : offset + remaining ≤ (sequences.getD document []).length
    · refine ⟨[], document, rest, offset + remaining, rfl, ?_, hend, ?_, fun _ => by omega⟩
      · rw [if_pos (by omega)]
        simp only [List.length_nil, Nat.add_zero, Except.ok.injEq, Prod.mk.injEq, true_and]
        omega
      · simp only [stream_nil, List.length_nil]
        omega
    · rw [if_neg (by omega)]
      by_cases hrest : rest = []
      · -- the stream ends in this document
        subst hrest
        have hlast : last = true := hlast.resolve_right (by
          simp only [stream_nil, List.length_nil]
          omega)
        refine ⟨[], document, [], (sequences.getD document []).length, rfl, ?_, le_rfl, ?_, ?_⟩
        · simp [hlast]
        · simp only [stream_nil, List.length_nil]
          omega
        · simp only [stream_nil, List.length_nil]
          omega
      · obtain ⟨pre, d, post, stop, hsplit, hcursor, hstop, htotal, hfull⟩ := ih hrest (position + 1) 0
          (offset + remaining - (sequences.getD document []).length) (Nat.zero_le _) (by omega)
          (hlast.imp_right fun h => by omega)
        refine ⟨document :: pre, d, post, stop, by rw [hsplit, List.cons_append], ?_, hstop, ?_,
          fun h => hfull (by omega)⟩
        · have hremaining : (remaining : ℤ) - ((sequences.getD document []).length - offset) =
              ((offset + remaining - (sequences.getD document []).length : ℕ) : ℤ) := by omega
          rw [if_pos hrest, hremaining, ← Nat.cast_zero, hcursor, List.length_cons]
          congr 2
          omega
        · rw [stream_cons, List.length_append]
          omega

/-! ### Reading a slice -/

section Get

variable {document offset stop : ℕ}

theorem get_some (hoffset : offset ≤ stop) (hstop : stop ≤ (sequences.getD document []).length) :
    get sequences document offset (some ((stop : ℤ) - offset)) =
      .ok (((sequences.getD document []).take stop).drop offset) := by
  unfold get
  simp only [Option.getD_some]
  rw [if_neg (by omega), Int.toNat_natCast, List.drop_take]
  congr 2
  omega

theorem get_none (hoffset : offset ≤ (sequences.getD document []).length) :
    get sequences document offset none = .ok ((sequences.getD document []).drop offset) := by
  unfold get
  simp only [Option.getD_none]
  rw [if_neg (by omega), Int.toNat_natCast, List.take_of_length_le]
  rw [List.length_drop]
  omega

/-- The slices behind the first one. -/
theorem crossingParts_spec {extraToken beginPosition endPosition : ℕ} {beginOffset endOffset : ℤ}
    {pre : List ℕ} (position : ℕ) (hposition : beginPosition < position)
    (hend : position + pre.length = endPosition) (hstop : endOffset + extraToken = stop)
    (hle : stop ≤ (sequences.getD document []).length) :
    ∃ parts, crossingParts sequences extraToken beginPosition beginOffset endPosition endOffset
        (pre ++ [document]) position = .ok parts ∧
      (parts.map Prod.snd).flatten =
        stream sequences pre ++ (sequences.getD document []).take stop := by
  induction pre generalizing position with
  | nil =>
    rw [List.length_nil, Nat.add_zero] at hend
    have hget := get_some (Nat.zero_le stop) hle
    rw [List.drop_zero, Nat.cast_zero, sub_zero] at hget
    refine ⟨[(document, (sequences.getD document []).take stop)], ?_, by simp⟩
    rw [List.nil_append, crossingParts, if_pos hposition, if_neg (by omega), hstop, hget]
    rfl
  | cons first pre ih =>
    rw [List.length_cons] at hend
    obtain ⟨parts, hparts, htext⟩ := ih (position + 1) (by omega) (by omega)
    have hget := @get_none _ sequences first 0 (Nat.zero_le _)
    rw [List.drop_zero, Nat.cast_zero] at hget
    refine ⟨(first, sequences.getD first []) :: parts, ?_, ?_⟩
    · rw [List.cons_append, crossingParts, if_pos hposition, if_pos (by omega), hget, hparts]
      rfl
    · rw [List.map_cons, List.flatten_cons, htext, stream_cons, List.append_assoc]

end Get

/-! ### Samples between cursors -/

/-- Two cursors of a document index enclose the tokens from `start` to `stop`. -/
structure Spans (sequences : List (List τ)) (documentIndex : List ℕ) (extraToken : ℕ)
    (cursor cursor' : Cursor) (start stop : ℕ) : Prop where
  le : start ≤ stop
  split : ∃ (before pre : List ℕ) (document : ℕ) (post : List ℕ) (offset localStop : ℕ),
    documentIndex = before ++ (pre ++ document :: post) ∧
    cursor = (before.length, (offset : ℤ)) ∧
    cursor' = (before.length + pre.length, (localStop : ℤ) - extraToken) ∧
    offset ≤ (sequences.getD ((pre ++ document :: post).headD 0) []).length ∧
    localStop ≤ (sequences.getD document []).length ∧
    start = (stream sequences before).length + offset ∧
    stop = (stream sequences (before ++ pre)).length + localStop

/-- The slices between two cursors are the tokens they enclose. -/
theorem sampleParts_of_spans {documentIndex : List ℕ} {extraToken : ℕ} {cursor cursor' : Cursor}
    {start stop : ℕ} (h : Spans sequences documentIndex extraToken cursor cursor' start stop) :
    ∃ parts, sampleParts sequences extraToken documentIndex cursor cursor' = .ok parts ∧
      (parts.map Prod.snd).flatten = ((stream sequences documentIndex).take stop).drop start := by
  obtain ⟨hle, before, pre, document, post, offset, localStop, rfl, rfl, rfl, hoffset, hstop,
    rfl, rfl⟩ := h
  have hslice : ((stream sequences (before ++ (pre ++ document :: post))).take
      ((stream sequences (before ++ pre)).length + localStop)).drop
        ((stream sequences before).length + offset) =
      (stream sequences pre ++ (sequences.getD document []).take localStop).drop offset := by
    rw [stream_append, stream_append, List.length_append, Nat.add_assoc,
      List.take_length_add_append, List.drop_length_add_append, stream_append,
      List.take_length_add_append, stream_cons, List.take_append_of_le_length hstop]
  rw [hslice]
  unfold sampleParts
  cases pre with
  | nil =>
    simp only [List.append_nil, List.nil_append, List.headD_cons] at hle hoffset ⊢
    have hdocument : (before ++ document :: post).getD before.length 0 = document := by
      rw [List.getD_append_right _ _ _ _ le_rfl, Nat.sub_self]
      rfl
    have hget := @get_some _ sequences document offset localStop (by omega) hstop
    have hlength : (localStop : ℤ) - extraToken - offset + extraToken = localStop - offset := by
      ring
    refine ⟨[(document, ((sequences.getD document []).take localStop).drop offset)], ?_, ?_⟩
    · rw [if_pos (by simp), hdocument, hlength, hget]
      rfl
    · simp
  | cons first pre =>
    have htake : ((before ++ (first :: pre ++ document :: post)).drop before.length).take
        (before.length + (first :: pre).length + 1 - before.length) =
          first :: (pre ++ [document]) := by
      have hlength : before.length + (first :: pre).length + 1 - before.length =
          (first :: (pre ++ [document])).length := by
        simp only [List.length_cons, List.length_append, List.length_nil]
        omega
      rw [List.drop_left, List.append_cons, hlength]
      exact List.take_left
    obtain ⟨parts, hparts, htext⟩ := @crossingParts_spec _ sequences document localStop
      extraToken before.length _ offset ((localStop : ℤ) - extraToken) pre (before.length + 1) (Nat.lt_succ_self before.length) rfl (by ring) hstop
    rw [List.cons_append, List.headD_cons] at hoffset
    refine ⟨(first, (sequences.getD first []).drop offset) :: parts, ?_, ?_⟩
    · dsimp only
      rw [if_neg (by simp), htake, crossingParts, if_neg (lt_irrefl _), if_pos (by simp),
        get_none hoffset, List.length_cons, Nat.add_comm pre.length 1, ← Nat.add_assoc, hparts]
      rfl
    · rw [List.map_cons, List.flatten_cons, htext, stream_cons, List.append_assoc,
        List.drop_append_of_le_length hoffset]

/-- What is read between two cursors. -/
theorem readSample_of_spans (config : GPTDatasetConfig) (pad : τ) (idx : Indices) {sample : ℕ}
    {cursor cursor' : Cursor} {start stop : ℕ}
    (hcursor : idx.sampleIndex[sample]? = some cursor)
    (hcursor' : idx.sampleIndex[sample + 1]? = some cursor')
    (h : Spans sequences idx.documentIndex config.extraToken cursor cursor' start stop) :
    ∃ documentIds documentLengths, readSample sequences config pad idx sample = .ok
      ⟨((stream sequences idx.documentIndex).take stop).drop start ++ List.replicate
          (config.sequenceLength + config.extraToken -
            (((stream sequences idx.documentIndex).take stop).drop start).length) pad,
        documentIds, documentLengths⟩ := by
  obtain ⟨parts, hparts, htext⟩ := sampleParts_of_spans h
  refine ⟨parts.map Prod.fst, parts.map fun part => part.2.length, ?_⟩
  unfold readSample
  simp only [hcursor, hcursor', hparts, ← htext]
  rfl

/-! ### The loop over the samples -/

/-- A cursor stands at a token of the stream, or behind the last one. -/
def Stands (sequences : List (List τ)) (documentIndex : List ℕ) (cursor : Cursor) (start : ℕ) :
    Prop :=
  ∃ (before rest : List ℕ) (offset : ℕ), documentIndex = before ++ rest ∧ rest ≠ [] ∧
    cursor = (before.length, (offset : ℤ)) ∧
    offset ≤ (sequences.getD (rest.headD 0) []).length ∧
    start = (stream sequences before).length + offset

section Loop

variable {documentIndex : List ℕ} {sequenceLength extraToken start : ℕ} {cursor : Cursor}

theorem Stands.zero (hne : documentIndex ≠ []) : Stands sequences documentIndex (0, 0) 0 :=
  ⟨[], documentIndex, 0, rfl, hne, rfl, Nat.zero_le _, rfl⟩

/-- One turn of the outer loop. -/
theorem Stands.next (h : Stands sequences documentIndex cursor start) (hpos : 0 < sequenceLength)
    (hextra : extraToken ≤ 1) (last : Bool)
    (hlast : last = true ∨
      start + (sequenceLength + extraToken) ≤ (stream sequences documentIndex).length) :
    ∃ cursor', nextCursor (sequenceLengths sequences) extraToken last
        (documentIndex.drop cursor.1) cursor.1 cursor.2 (sequenceLength + extraToken) =
          .ok cursor' ∧
      Spans sequences documentIndex extraToken cursor cursor' start
        (min (start + (sequenceLength + extraToken)) (stream sequences documentIndex).length) ∧
      (start + (sequenceLength + extraToken) ≤ (stream sequences documentIndex).length →
        Stands sequences documentIndex cursor' (start + sequenceLength)) := by
  obtain ⟨before, rest, offset, rfl, hne, rfl, hoffset, rfl⟩ := h
  rw [stream_append, List.length_append] at hlast ⊢
  have hhead : offset ≤ (stream sequences rest).length := by
    obtain ⟨first, rest, rfl⟩ := List.exists_cons_of_ne_nil hne
    rw [List.headD_cons] at hoffset
    rw [stream_cons, List.length_append]
    omega
  obtain ⟨pre, document, post, stop, rfl, hcursor, hstop, htotal, hfull⟩ :=
    nextCursor_spec extraToken last hne before.length offset (sequenceLength + extraToken) hoffset
      (by omega) (hlast.imp_right fun h => by omega)
  rw [Nat.cast_add] at hcursor
  have hbefore : (stream sequences (before ++ pre)).length =
      (stream sequences before).length + (stream sequences pre).length := by
    rw [stream_append, List.length_append]
  refine ⟨_, by rw [List.drop_left]; exact hcursor, ⟨by omega, before, pre, document, post, offset,
    stop, rfl, rfl, rfl, hoffset, hstop, rfl, by omega⟩, fun hlt => ?_⟩
  -- the next sample begins at the extra token, which is of this document
  have hstop' := hfull (by omega)
  refine ⟨before ++ pre, document :: post, stop - extraToken, (List.append_assoc ..).symm,
    List.cons_ne_nil _ _, ?_, (Nat.sub_le _ _).trans hstop, by omega⟩
  rw [List.length_append, Prod.mk.injEq]
  exact ⟨rfl, by omega⟩

/-- The loop runs to its end when every sample but the last is full. -/
theorem cursors_spec (hpos : 0 < sequenceLength) (hextra : extraToken ≤ 1) (count : ℕ)
    (h : Stands sequences documentIndex cursor start)
    (hfull : 1 < count → start + (count - 1) * sequenceLength + extraToken ≤
      (stream sequences documentIndex).length) :
    ∃ rest, cursors (sequenceLengths sequences) documentIndex sequenceLength extraToken count
        cursor = .ok rest ∧ rest.length = count ∧
      ∀ j < count, ∃ c c', (cursor :: rest)[j]? = some c ∧ (cursor :: rest)[j + 1]? = some c' ∧
        Spans sequences documentIndex extraToken c c' (start + j * sequenceLength)
          (min (start + j * sequenceLength + (sequenceLength + extraToken))
            (stream sequences documentIndex).length) := by
  induction count generalizing cursor start with
  | zero => exact ⟨[], rfl, rfl, fun j hj => absurd hj (Nat.not_lt_zero j)⟩
  | succ count ih =>
    have hsize : 0 < count → start + (sequenceLength + extraToken) ≤
        (stream sequences documentIndex).length := fun hcount => by
      have hle := hfull (by omega)
      have : sequenceLength ≤ count * sequenceLength := Nat.le_mul_of_pos_left _ hcount
      rw [Nat.add_sub_cancel] at hle
      omega
    obtain ⟨cursor', hnext, hspans, hstands⟩ := h.next hpos hextra (count = 0)
      (by
        by_cases hzero : count = 0
        · exact Or.inl (decide_eq_true hzero)
        · exact Or.inr (hsize (by omega)))
    obtain ⟨rest, hrest, hlength, hall⟩ : ∃ rest, cursors (sequenceLengths sequences) documentIndex
        sequenceLength extraToken count cursor' = .ok rest ∧ rest.length = count ∧
      ∀ j < count, ∃ c c', (cursor' :: rest)[j]? = some c ∧ (cursor' :: rest)[j + 1]? = some c' ∧
        Spans sequences documentIndex extraToken c c'
          (start + sequenceLength + j * sequenceLength)
          (min (start + sequenceLength + j * sequenceLength + (sequenceLength + extraToken))
            (stream sequences documentIndex).length) := by
      by_cases hzero : count = 0
      · subst hzero
        exact ⟨[], rfl, rfl, fun j hj => absurd hj (Nat.not_lt_zero j)⟩
      · refine ih (hstands (hsize (by omega))) fun hcount => ?_
        have hle := hfull (by omega)
        obtain ⟨n, rfl⟩ := Nat.exists_eq_succ_of_ne_zero hzero
        rw [Nat.succ_eq_add_one, Nat.add_sub_cancel] at hle ⊢
        rw [Nat.succ_mul] at hle
        omega
    refine ⟨cursor' :: rest, ?_, by rw [List.length_cons, hlength], fun j hj => ?_⟩
    · obtain ⟨position, offset⟩ := cursor
      rw [cursors, hnext]
      simp only [bind, Except.bind, hrest]
      rfl
    · cases j with
      | zero => exact ⟨cursor, cursor', rfl, rfl, by simpa using hspans⟩
      | succ j =>
        obtain ⟨c, c', hc, hc', hspan⟩ := hall j (by omega)
        have hadd : start + (j + 1) * sequenceLength =
            start + sequenceLength + j * sequenceLength := by ring
        exact ⟨c, c', hc, hc', hadd ▸ hspan⟩

end Loop

/-! ### The sample index -/

section SampleCount

variable {availableTokens sequenceLength : ℕ} {dropLast : Bool}

theorem sampleCount_true_mul_le :
    sampleCount availableTokens sequenceLength true * sequenceLength ≤ availableTokens :=
  Nat.div_mul_le_self _ _

/-- The samples but the last are full. -/
theorem sampleCount_sub_one_mul_le :
    (sampleCount availableTokens sequenceLength dropLast - 1) * sequenceLength ≤
      availableTokens := by
  unfold sampleCount
  split_ifs with h
  · exact (Nat.mul_le_mul_right _ (Nat.sub_le _ _)).trans (Nat.div_mul_le_self _ _)
  · have hle := Nat.div_mul_le_self (availableTokens + sequenceLength - 1) sequenceLength
    rw [Nat.sub_mul, one_mul]
    omega

theorem div_le_sampleCount (hpos : 0 < sequenceLength) :
    availableTokens / sequenceLength ≤ sampleCount availableTokens sequenceLength dropLast := by
  unfold sampleCount
  split_ifs with h
  · exact le_rfl
  · exact Nat.div_le_div_right (by omega)

theorem sampleCount_zero (hpos : 0 < sequenceLength) :
    sampleCount 0 sequenceLength dropLast = 0 := by
  unfold sampleCount
  split_ifs with h
  · exact Nat.zero_div _
  · exact Nat.div_eq_of_lt (by omega)

end SampleCount

/-- The sample index encloses the samples of the stream. -/
theorem buildSampleIdx_spec {documentIndex : List ℕ} {sequenceLength numEpochs numTokensPerEpoch : ℕ}
    (dropLast : Bool) {extraToken : ℕ} (hpos : 0 < sequenceLength) (hextra : extraToken ≤ 1)
    (hdocuments : ∀ document ∈ documentIndex, document < sequences.length)
    (htokens : (stream sequences documentIndex).length = numEpochs * numTokensPerEpoch)
    (hle : extraToken ≤ numEpochs * numTokensPerEpoch) :
    ∃ sampleIndex, buildSampleIdx (sequenceLengths sequences) documentIndex sequenceLength numEpochs
        numTokensPerEpoch dropLast extraToken = .ok sampleIndex ∧
      sampleIndex.length =
        sampleCount (numEpochs * numTokensPerEpoch - extraToken) sequenceLength dropLast + 1 ∧
      ∀ j < sampleCount (numEpochs * numTokensPerEpoch - extraToken) sequenceLength dropLast,
        ∃ c c', sampleIndex[j]? = some c ∧ sampleIndex[j + 1]? = some c' ∧
          Spans sequences documentIndex extraToken c c' (j * sequenceLength)
            (min (j * sequenceLength + (sequenceLength + extraToken))
              (stream sequences documentIndex).length) := by
  have hbound := @sampleCount_sub_one_mul_le (numEpochs * numTokensPerEpoch - extraToken)
    sequenceLength dropLast
  have hzero := @sampleCount_zero sequenceLength dropLast hpos
  unfold buildSampleIdx
  rw [if_neg (by omega), if_neg (by omega)]
  generalize hcount : sampleCount (numEpochs * numTokensPerEpoch - extraToken) sequenceLength
    dropLast = count at hbound
  have hids : ¬ ∃ document ∈ documentIndex, (sequenceLengths sequences).length ≤ document := by
    rintro ⟨document, hmem, hge⟩
    rw [sequenceLengths, List.length_map] at hge
    exact absurd (hdocuments document hmem) (not_lt.2 hge)
  by_cases hne : documentIndex = []
  · -- no documents, no samples
    have hcount0 : count = 0 := by
      subst hne
      rw [stream_nil, List.length_nil] at htokens
      rw [← hcount, ← htokens, Nat.zero_sub, hzero]
    subst hcount0
    refine ⟨[(0, 0)], ?_, rfl, fun j hj => absurd hj (Nat.not_lt_zero j)⟩
    simp only [lt_irrefl, false_and, if_false, if_neg hids]
    rfl
  · obtain ⟨rest, hrest, hlength, hall⟩ := cursors_spec hpos hextra count
      (@Stands.zero _ sequences _ hne) fun _ => by omega
    refine ⟨(0, 0) :: rest, ?_, by rw [List.length_cons, hlength], ?_⟩
    · simp only [hne, and_false, if_false, if_neg hids, hrest]
      rfl
    · simpa using hall

/-! ### The epochs -/

theorem countEpochs_spec {numTokensPerEpoch requestedTokens : ℕ} (hpos : 0 < numTokensPerEpoch)
    (fuel epochs : ℕ) (h : requestedTokens ≤ epochs * numTokensPerEpoch + fuel) :
    requestedTokens ≤ countEpochs numTokensPerEpoch requestedTokens fuel epochs
      (epochs * numTokensPerEpoch) * numTokensPerEpoch := by
  induction fuel generalizing epochs with
  | zero => exact h
  | succ fuel ih =>
    rw [countEpochs]
    split_ifs with hlt
    · rw [← Nat.succ_mul]
      apply ih
      rw [Nat.succ_mul]
      omega
    · exact not_lt.1 hlt

section Epochs

variable {config : GPTDatasetConfig} {numTokensPerEpoch numSamples : ℕ}

/-- The epochs hold the requested tokens. -/
theorem requestedTokens_le (hpos : 0 < numTokensPerEpoch) :
    requestedTokens config numSamples ≤
      numEpochs config numTokensPerEpoch numSamples * numTokensPerEpoch := by
  have h := @countEpochs_spec _ (requestedTokens config numSamples) hpos
    (requestedTokens config numSamples) 0 (by omega)
  rwa [Nat.zero_mul] at h

theorem extraToken_le_one : config.extraToken ≤ 1 := Bool.toNat_le _

/-- A final epoch is separated from at least one more. -/
theorem two_le_numEpochs (hsequence : 0 < config.sequenceLength) (hpos : 1 < numTokensPerEpoch)
    (h : separateFinalEpoch config numTokensPerEpoch numSamples = true) :
    2 ≤ numEpochs config numTokensPerEpoch numSamples := by
  by_contra hlt
  unfold separateFinalEpoch at h
  split_ifs at h with hone
  have hzero : numEpochs config numTokensPerEpoch numSamples = 0 := by omega
  have hrequested := @requestedTokens_le config numTokensPerEpoch numSamples (by omega)
  rw [hzero, Nat.zero_mul, requestedTokens] at hrequested
  have hextra : config.extraToken = 0 := by omega
  have hsamples : numSamples = 0 := by
    rcases Nat.mul_eq_zero.1 (by omega : numSamples * config.sequenceLength = 0) with h0 | h0
    · exact h0
    · omega
  rw [decide_eq_true_eq, samplesWithoutFinalEpoch, if_neg hone, hzero, hextra, hsamples] at h
  simp only [Nat.cast_zero, sub_zero, zero_sub, neg_mul, one_mul] at h
  -- the negative quotient is at most the negated one
  have hquot : (-(numTokensPerEpoch : ℤ)) / config.sequenceLength ≤
      -((numTokensPerEpoch : ℤ) / config.sequenceLength) := by
    have hle := Int.ediv_mul_le (numTokensPerEpoch : ℤ)
      (by omega : (config.sequenceLength : ℤ) ≠ 0)
    have hcancel := Int.mul_ediv_cancel (-((numTokensPerEpoch : ℤ) / config.sequenceLength))
      (by omega : (config.sequenceLength : ℤ) ≠ 0)
    rw [← hcancel]
    apply Int.ediv_le_ediv (by omega)
    rw [neg_mul]
    omega
  have hnonneg : 0 ≤ (numTokensPerEpoch : ℤ) / config.sequenceLength :=
    Int.ediv_nonneg (by omega) (by omega)
  omega

/-- The separated samples lie in the first epochs. -/
theorem samplesWithoutFinalEpoch_mul_le
    (hpos : 1 < numTokensPerEpoch) (htwo : 2 ≤ numEpochs config numTokensPerEpoch numSamples) :
    ∃ samples : ℕ, samplesWithoutFinalEpoch config numTokensPerEpoch numSamples = samples ∧
      samples * config.sequenceLength + config.extraToken ≤
        (numEpochs config numTokensPerEpoch numSamples - 1) * numTokensPerEpoch := by
  have hextra := @extraToken_le_one config
  have hle : numTokensPerEpoch ≤
      (numEpochs config numTokensPerEpoch numSamples - 1) * numTokensPerEpoch :=
    Nat.le_mul_of_pos_left _ (by omega)
  refine ⟨((numEpochs config numTokensPerEpoch numSamples - 1) * numTokensPerEpoch -
    config.extraToken) / config.sequenceLength, ?_, ?_⟩
  · rw [samplesWithoutFinalEpoch, if_neg (by omega)]
    push_cast [Nat.cast_sub (by omega : config.extraToken ≤
      (numEpochs config numTokensPerEpoch numSamples - 1) * numTokensPerEpoch),
      Nat.cast_sub (by omega : 1 ≤ numEpochs config numTokensPerEpoch numSamples)]
    rfl
  · have := Nat.div_mul_le_self ((numEpochs config numTokensPerEpoch numSamples - 1) *
      numTokensPerEpoch - config.extraToken) config.sequenceLength
    omega

end Epochs

/-! ### Shuffling -/

section Shuffled

variable {σ : Type*} {shuffle : σ → List ℕ → List ℕ × σ}

theorem buildDocumentIndex_perm (hshuffle : ∀ state l, (shuffle state l).1.Perm l)
    (documents : List ℕ) {epochs : ℕ} (state : σ) {separate : Bool}
    (htwo : separate = true → 2 ≤ epochs) :
    (buildDocumentIndex shuffle documents epochs state separate).1.Perm
      (List.replicate epochs documents).flatten := by
  unfold buildDocumentIndex
  split_ifs with h
  · exact hshuffle _ _
  · have hseparate : separate = true := by
      by_contra hfalse
      exact h (Or.inl (by simpa using hfalse))
    obtain ⟨n, rfl⟩ : ∃ n, epochs = n + 1 := ⟨epochs - 1, by have := htwo hseparate; omega⟩
    refine ((hshuffle _ _).append (hshuffle _ _)).trans (.of_eq ?_)
    rw [Nat.add_sub_cancel, List.replicate_succ', List.flatten_append, List.flatten_singleton]

theorem buildDocumentIndex_separate (hshuffle : ∀ state l, (shuffle state l).1.Perm l)
    (documents : List ℕ) {epochs : ℕ} (state : σ) (htwo : 2 ≤ epochs) :
    ∃ firstEpochs finalEpoch,
      (buildDocumentIndex shuffle documents epochs state true).1 = firstEpochs ++ finalEpoch ∧
      firstEpochs.Perm (List.replicate (epochs - 1) documents).flatten ∧
      finalEpoch.Perm documents := by
  unfold buildDocumentIndex
  rw [if_neg (by simp; omega)]
  exact ⟨_, _, rfl, hshuffle _ _, hshuffle _ _⟩

theorem buildShuffleIndex_perm (hshuffle : ∀ state l, (shuffle state l).1.Perm l)
    {numSamples totalSize : ℕ} (state : σ) (hle : numSamples ≤ totalSize) :
    (buildShuffleIndex shuffle numSamples totalSize state).Perm (List.range totalSize) := by
  unfold buildShuffleIndex
  dsimp only
  split_ifs with h
  · exact h ▸ hshuffle _ _
  · refine ((hshuffle _ _).append (hshuffle _ _)).trans (.of_eq ?_)
    have happend := @List.range'_append_1 0 numSamples (totalSize - numSamples)
    rwa [Nat.zero_add, Nat.add_sub_cancel' hle, ← List.range_eq_range',
      ← List.range_eq_range'] at happend

/-- The first samples stay in front. -/
theorem buildShuffleIndex_first (hshuffle : ∀ state l, (shuffle state l).1.Perm l)
    {numSamples : ℕ} (totalSize : ℕ) (state : σ) {index : ℕ} (hindex : index < numSamples) :
    ∃ sample < numSamples,
      (buildShuffleIndex shuffle numSamples totalSize state)[index]? = some sample := by
  have hperm := hshuffle state (List.range numSamples)
  have hlength : index < (shuffle state (List.range numSamples)).1.length := by
    rw [hperm.length_eq, List.length_range]
    exact hindex
  refine ⟨(shuffle state (List.range numSamples)).1[index],
    List.mem_range.1 (hperm.subset (List.getElem_mem hlength)), ?_⟩
  unfold buildShuffleIndex
  dsimp only
  split_ifs with h
  · exact List.getElem?_eq_getElem hlength
  · rw [List.getElem?_append_left hlength]
    exact List.getElem?_eq_getElem hlength

/-! ### The indices of a dataset -/

theorem window_eq (config : GPTDatasetConfig) (documentIndex : List ℕ) (sample : ℕ) :
    ((stream sequences documentIndex).take (min (sample * config.sequenceLength +
        (config.sequenceLength + config.extraToken)) (stream sequences documentIndex).length)).drop
        (sample * config.sequenceLength) = window sequences config documentIndex sample := by
  rw [window, ← List.take_eq_take_min, List.drop_take, Nat.add_sub_cancel_left]

/-- A dataset of two tokens at least has the indices that it should have, and a smaller one is
refused. -/
theorem buildDocumentSampleShuffleIndices_correct {σ τ : Type*} (shuffle : σ → List ℕ → List ℕ × σ)
    (seeded : ℕ → σ) (sequences : List (List τ)) (config : GPTDatasetConfig) (split : Split)
    (documents : List ℕ) (numSamples : ℕ) (hsequence : 0 < config.sequenceLength)
    (hdocuments : ∀ document ∈ documents, document < sequences.length)
    (hshuffle : ∀ state l, (shuffle state l).1.Perm l) :
    tokensPerEpoch sequences documents ≤ 1 ∧
        buildDocumentSampleShuffleIndices shuffle sequences seeded config split documents
          numSamples = .error .fewTokens ∨
      ∃ idx, buildDocumentSampleShuffleIndices shuffle sequences seeded config split documents
          numSamples = .ok idx ∧
        IndicesCorrect sequences config split documents numSamples idx := by
  by_cases htokens : tokensPerEpoch sequences documents ≤ 1
  · refine Or.inl ⟨htokens, ?_⟩
    unfold buildDocumentSampleShuffleIndices
    exact if_pos htokens
  · refine Or.inr ?_
    have hpos : 1 < tokensPerEpoch sequences documents := by omega
    have htwo := @two_le_numEpochs config (tokensPerEpoch sequences documents) numSamples hsequence
      hpos
    have hrequested := @requestedTokens_le config (tokensPerEpoch sequences documents) numSamples
      (by omega)
    have hextra := @extraToken_le_one config
    unfold buildDocumentSampleShuffleIndices
    rw [if_neg htokens]
    dsimp only
    have hperm := buildDocumentIndex_perm hshuffle documents (seeded config.randomSeed) htwo
    have hseparate : separateFinalEpoch config (tokensPerEpoch sequences documents) numSamples =
        true → _ := fun h =>
      buildDocumentIndex_separate hshuffle documents (seeded config.randomSeed) (htwo h)
    have hfirst : separateFinalEpoch config (tokensPerEpoch sequences documents) numSamples =
        true → _ := fun h => samplesWithoutFinalEpoch_mul_le hpos (htwo h)
    generalize hepochs : numEpochs config (tokensPerEpoch sequences documents) numSamples = epochs
      at hperm hseparate hfirst hrequested htwo ⊢
    generalize hsep : separateFinalEpoch config (tokensPerEpoch sequences documents) numSamples =
      separate at hperm hseparate hfirst htwo ⊢
    generalize hresult : buildDocumentIndex shuffle documents epochs (seeded config.randomSeed)
      separate = result at hperm ⊢
    obtain ⟨documentIndex, state⟩ := result
    have hmem : ∀ document ∈ documentIndex, document < sequences.length := by
      intro document hdocument
      obtain ⟨l, hl, hin⟩ := List.mem_flatten.1 (hperm.subset hdocument)
      exact hdocuments document (List.eq_of_mem_replicate hl ▸ hin)
    have hlength : (stream sequences documentIndex).length =
        epochs * tokensPerEpoch sequences documents := by
      rw [length_stream_perm hperm, length_stream_replicate]
    rw [requestedTokens] at hrequested
    obtain ⟨sampleIndex, hbuild, hcount, hspans⟩ := buildSampleIdx_spec
      (dropLastPartialSequence config split) hsequence hextra hmem hlength (by omega)
    simp only [hbuild]
    refine ⟨_, rfl, ?_⟩
    have htotal : sampleIndex.length - 1 =
        sampleCount (epochs * tokensPerEpoch sequences documents - config.extraToken)
          config.sequenceLength (dropLastPartialSequence config split) := by omega
    -- the samples that are shuffled first
    have hfirstle : (if separate then
        (samplesWithoutFinalEpoch config (tokensPerEpoch sequences documents) numSamples).toNat
          else sampleIndex.length - 1) ≤ sampleIndex.length - 1 := by
      split_ifs with h
      · obtain ⟨samples, hsamples, hle⟩ := hfirst h
        rw [hsamples, Int.toNat_natCast, htotal]
        refine le_trans ?_ (div_le_sampleCount hsequence)
        rw [Nat.le_div_iff_mul_le hsequence]
        have := Nat.mul_le_mul_right (tokensPerEpoch sequences documents) (Nat.sub_le epochs 1)
        omega
      · exact le_rfl
    have hwindow : ∀ sample, (window sequences config documentIndex sample).length =
        min (config.sequenceLength + config.extraToken)
          (epochs * tokensPerEpoch sequences documents - sample * config.sequenceLength) := by
      intro sample
      rw [window, List.length_take, List.length_drop, hlength]
    constructor
    · rw [hepochs]
      exact hperm
    · intro pad sample hsample
      obtain ⟨c, c', hc, hc', hspan⟩ := hspans sample (htotal ▸ hsample)
      simp only [← window_eq]
      exact readSample_of_spans config pad _ hc hc' hspan
    · intro sample hsample
      change sample < sampleIndex.length - 1 at hsample
      change (window sequences config documentIndex sample).length = _ ∨
        _ ∧ sample + 1 = sampleIndex.length - 1
      rw [hwindow]
      by_cases hlast : sample + 1 = sampleIndex.length - 1
      · cases hdrop : dropLastPartialSequence config split with
        | false => exact Or.inr ⟨rfl, hlast⟩
        | true =>
          left
          have hle := @sampleCount_true_mul_le
            (epochs * tokensPerEpoch sequences documents - config.extraToken) config.sequenceLength
          rw [← hdrop, ← htotal, ← hlast, Nat.succ_mul] at hle
          omega
      · left
        have hle := @sampleCount_sub_one_mul_le
          (epochs * tokensPerEpoch sequences documents - config.extraToken) config.sequenceLength
          (dropLastPartialSequence config split)
        have hmul : (sample + 1) * config.sequenceLength ≤
            (sampleIndex.length - 1 - 1) * config.sequenceLength :=
          Nat.mul_le_mul_right _ (by omega)
        rw [← htotal] at hle
        rw [Nat.succ_mul] at hmul
        omega
    · exact buildShuffleIndex_perm hshuffle state hfirstle
    · intro hdrop
      change numSamples ≤ sampleIndex.length - 1
      rw [htotal, hdrop]
      refine (Nat.le_div_iff_mul_le hsequence).2 ?_
      omega
    · intro h
      rw [hsep] at h
      subst h
      obtain ⟨firstEpochs, finalEpoch, hsplit, hfirstPerm, hfinalPerm⟩ := hseparate rfl
      obtain ⟨samples, hsamples, hle⟩ := hfirst rfl
      rw [hresult] at hsplit
      refine ⟨firstEpochs, finalEpoch, hsplit, hepochs ▸ hfirstPerm, hfinalPerm,
        fun index hindex => ?_⟩
      rw [hsamples, Nat.cast_lt] at hindex
      obtain ⟨sample, hsample, hget⟩ :=
        buildShuffleIndex_first hshuffle (sampleIndex.length - 1) state hindex
      rw [length_stream_perm hfirstPerm, length_stream_replicate]
      refine ⟨sample, ?_, ?_⟩
      · rw [if_pos rfl, hsamples, Int.toNat_natCast]
        exact hget
      · have := Nat.mul_le_mul_right config.sequenceLength (Nat.succ_le_of_lt hsample)
        rw [Nat.succ_eq_add_one] at this
        omega

/-- Five documents, two of them empty, in samples of three tokens and a kept partial one. -/
theorem buildDocumentSampleShuffleIndices_correct_five :
    ∃ idx, buildDocumentSampleShuffleIndices (fun state l => (l.reverse, state))
        [[1, 2, 3], [], [4], [5, 6, 7, 8, 9], []] (fun seed => seed) ⟨3, 0, true, false⟩ .valid
        [0, 1, 2, 3, 4] 4 = .ok idx ∧
      IndicesCorrect [[1, 2, 3], [], [4], [5, 6, 7, 8, 9], []] ⟨3, 0, true, false⟩ .valid
        [0, 1, 2, 3, 4] 4 idx :=
  (buildDocumentSampleShuffleIndices_correct (fun state l => (l.reverse, state)) (fun seed => seed)
    [[1, 2, 3], [], [4], [5, 6, 7, 8, 9], []] ⟨3, 0, true, false⟩ .valid [0, 1, 2, 3, 4] 4
    (by decide) (by decide) fun _ l => List.reverse_perm l).resolve_left fun h =>
      absurd h.1 (by decide)

end Shuffled

end HyperParallel.Data
