import Mathlib.Algebra.BigOperators.Group.Finset.Basic
import Mathlib.Algebra.Order.BigOperators.Group.Finset
import Mathlib.Algebra.Order.Ring.Int
import Mathlib.Algebra.Ring.Nat
import Mathlib.Tactic.Common

/-!
# The device ready handshake

`core/multicore/ops/runtime/worker_kernel.h`, `PublishDeviceReady`, with `prepare_event_counters` of
`modules/mega_moe/workspace.py` and `event_workspace_bytes` of `scheduler/config.py`: the ranks of
an expert-parallel group meet in every call before any of them puts into another's buffers.

* `Pc`: where a rank is in a call;
* `Handshake`: the ranks, the ready words of each, the puts that are under way;
* `Handshake.Step`: one step of one rank, or the arrival of one put;
* `Handshake.Safe`: what the handshake promises of a state.

Generations are the `int32_t` of the device.  `puts call source target` is the number of puts that
the tasks of a call make from one rank to another.
-/

namespace HyperParallel.MegaMoe

/-- `DATA_CACHE_LINE_SIZE` and `READY_CACHE_LINE_BYTES`. -/
def readyCacheLineBytes : ℕ := 64

/-- `INT32_T_SIZE`. -/
def int32Size : ℕ := 4

/-- `ready_stride`. -/
def readyStride : ℕ := readyCacheLineBytes / int32Size

/-- An addition in `int32_t`. -/
def toInt32 (x : ℤ) : ℤ := Int.bmod x (2 ^ 32)

/-- `event_workspace_bytes` on top of the counters, for more than one rank. -/
def eventWorkspaceBytes (eventCapacity ep : ℕ) : ℕ :=
  let counterBytes := eventCapacity * int32Size
  if ep ≤ 1 then counterBytes else counterBytes + (ep + 1) * readyCacheLineBytes

/-- Where a rank is. -/
inductive Pc
  /-- before its first call, nothing is initialized -/
  | fresh
  /-- everything is zeroed, the rank is at the host barrier of the first call -/
  | hostBarrier
  /-- the event counters are zeroed -/
  | zeroed
  /-- at the head of the loop over the rounds -/
  | signalling (round : ℕ)
  /-- the signal of the round is sent -/
  | waiting (round : ℕ)
  /-- the ready event is published, the tasks run -/
  | ready
  /-- the tasks have made their puts -/
  | draining
  /-- the call is finished -/
  | idle
  deriving DecidableEq, Repr

/-- The places of a call in their order. -/
def Pc.phase (ep : ℕ) : Pc → ℕ
  | .fresh => 0
  | .hostBarrier => 1
  | .signalling round => 2 + 2 * round
  | .waiting round => 3 + 2 * round
  | .ready => 2 * ep + 2
  | .draining => 2 * ep + 3
  | .idle => 2 * ep + 4
  | .zeroed => 2 * ep + 5

/-- The ranks.  `entered` counts the calls a rank has entered, `ready` are the words behind the event
counters, `counter` are the puts that the event counters have counted, `issued` and `delivered` the
puts of each call from one rank to another. -/
structure Handshake where
  pc : ℕ → Pc
  entered : ℕ → ℕ
  generation : ℕ → ℤ
  ready : ℕ → ℕ → ℤ
  counter : ℕ → ℕ
  issued : ℕ → ℕ → ℕ → ℕ
  delivered : ℕ → ℕ → ℕ → ℕ

/-- What happens next. -/
inductive HandshakeAction
  | zeroAll (rank : ℕ)
  | passHostBarrier (rank : ℕ)
  | zero (rank : ℕ)
  | enter (rank : ℕ)
  | signal (rank : ℕ)
  | wait (rank : ℕ)
  | publish (rank : ℕ)
  | put (source target : ℕ)
  | finishTasks (rank : ℕ)
  | deliver (call source target : ℕ)
  | finish (rank : ℕ)
  deriving DecidableEq, Repr

/-- The word of a round, and the word of the generation. -/
def roundIndex (round : ℕ) : ℕ := round * readyStride

def generationIndex (ep : ℕ) : ℕ := ep * readyStride

namespace Handshake

/-- One entry of a table of counts goes up by one. -/
def bump (f : ℕ → ℕ → ℕ → ℕ) (call source target : ℕ) : ℕ → ℕ → ℕ → ℕ := fun n s t =>
  if n = call ∧ s = source ∧ t = target then f n s t + 1 else f n s t

variable (ep : ℕ) (puts : ℕ → ℕ → ℕ → ℕ)

/-- A rank goes on. -/
def goTo (s : Handshake) (rank : ℕ) (pc : Pc) : Handshake :=
  { s with pc := Function.update s.pc rank pc }

/-- A word of a rank is written. -/
def write (s : Handshake) (rank index : ℕ) (value : ℤ) : Handshake :=
  { s with ready := Function.update s.ready rank (Function.update (s.ready rank) index value) }

/-- One step. -/
inductive Step : Handshake → HandshakeAction → Handshake → Prop
  /-- `events[...].zero_()`, before the first call -/
  | zeroAll {s rank} (hrank : rank < ep) (hpc : s.pc rank = .fresh) : Step s (.zeroAll rank)
      ({ s with
        counter := Function.update s.counter rank 0
        ready := Function.update s.ready rank fun _ => 0 }.goTo rank .hostBarrier)
  /-- `shmem.host_barrier()` -/
  | passHostBarrier {s rank} (hrank : rank < ep) (hpc : s.pc rank = .hostBarrier)
      (hall : ∀ t < ep, s.pc t ≠ .fresh) : Step s (.passHostBarrier rank) (s.goTo rank .zeroed)
  /-- `events[: self.event_counter_bytes].zero_()` -/
  | zero {s rank} (hrank : rank < ep) (hpc : s.pc rank = .idle) : Step s (.zero rank)
      ({ s with counter := Function.update s.counter rank 0 }.goTo rank .zeroed)
  /-- the generation is incremented -/
  | enter {s rank} (hrank : rank < ep) (hpc : s.pc rank = .zeroed) : Step s (.enter rank)
      (({ s with
        entered := Function.update s.entered rank (s.entered rank + 1)
        generation := Function.update s.generation rank
          (toInt32 (s.ready rank (generationIndex ep) + 1)) }.write rank (generationIndex ep)
        (toInt32 (s.ready rank (generationIndex ep) + 1))).goTo rank (.signalling 0))
  /-- `aclshmemx_signal_op`, `ACLSHMEM_SIGNAL_SET` -/
  | signal {s rank round} (hrank : rank < ep) (hpc : s.pc rank = .signalling round)
      (hround : 2 ^ round < ep) : Step s (.signal rank)
      ((s.write ((rank + 2 ^ round) % ep) (roundIndex round) (s.generation rank)).goTo rank
        (.waiting round))
  /-- `aclshmem_signal_wait_until`, `ACLSHMEM_CMP_GE` -/
  | wait {s rank round} (hrank : rank < ep) (hpc : s.pc rank = .waiting round)
      (hge : s.generation rank ≤ s.ready rank (roundIndex round)) : Step s (.wait rank)
      (s.goTo rank (.signalling (round + 1)))
  /-- `TriggerEvent(meta.ready_event)` -/
  | publish {s rank round} (hrank : rank < ep) (hpc : s.pc rank = .signalling round)
      (hround : ¬ 2 ^ round < ep) : Step s (.publish rank) (s.goTo rank .ready)
  /-- a task makes a put -/
  | put {s source target} (hsource : source < ep) (htarget : target < ep)
      (hpc : s.pc source = .ready) (hleft : s.issued (s.entered source) source target <
        puts (s.entered source) source target) : Step s (.put source target)
      { s with issued := bump s.issued (s.entered source) source target }
  /-- the tasks are done -/
  | finishTasks {s rank} (hrank : rank < ep) (hpc : s.pc rank = .ready)
      (hall : ∀ t < ep, s.issued (s.entered rank) rank t = puts (s.entered rank) rank t) :
      Step s (.finishTasks rank) (s.goTo rank .draining)
  /-- a put arrives and is counted -/
  | deliver {s call source target}
      (hflying : s.delivered call source target < s.issued call source target) :
      Step s (.deliver call source target)
      { s with
        delivered := bump s.delivered call source target
        counter := Function.update s.counter target (s.counter target + 1) }
  /-- every put to the rank in this call is counted -/
  | finish {s rank} (hrank : rank < ep) (hpc : s.pc rank = .draining)
      (hcounted : ∑ source ∈ Finset.range ep, puts (s.entered rank) source rank ≤
        s.counter rank) : Step s (.finish rank) (s.goTo rank .idle)

/-- Nothing is initialized: the words and the counters are what the memory held. -/
def initial (generation : ℕ → ℤ) (ready : ℕ → ℕ → ℤ) (counter : ℕ → ℕ) : Handshake where
  pc _ := .fresh
  entered _ := 0
  generation := generation
  ready := ready
  counter := counter
  issued _ _ _ := 0
  delivered _ _ _ := 0

/-- A run in which every step meets a condition on the state before it. -/
inductive Run (clean : Handshake → HandshakeAction → Prop) : Handshake → Handshake → Prop
  | refl {s} : Run clean s s
  | step {s s' s'' a} (h : Run clean s s') (hclean : clean s' a) (hstep : Step ep puts s' a s'') :
      Run clean s s''

/-- A rank that enters a call has made fewer than `2 ^ 31 - 1` calls before. -/
def Fits (s : Handshake) (a : HandshakeAction) : Prop :=
  ∀ rank, a = .enter rank → s.entered rank + 1 < 2 ^ 31

/-- How far a rank is: the calls it has entered, then where it is in the call. -/
def progress (s : Handshake) (rank : ℕ) : ℕ :=
  s.entered rank * (2 * ep + 6) + (s.pc rank).phase ep

/-- Some run from the state takes the rank further. -/
def CanProceed (s : Handshake) (rank : ℕ) : Prop :=
  ∃ s', Run ep puts (fun _ _ => True) s s' ∧ s.progress ep rank < s'.progress ep rank

/-- The ready event of the current call is published. -/
def HasPublished (s : Handshake) (rank : ℕ) : Prop :=
  s.pc rank = .ready ∨ s.pc rank = .draining ∨ s.pc rank = .idle

/-- What the handshake promises. -/
structure Safe (s : Handshake) : Prop where
  /-- no rank is ready in a call that another has not zeroed its counters for and entered -/
  barrier : ∀ r < ep, s.HasPublished r → ∀ t < ep, s.entered r ≤ s.entered t
  /-- the counters of a rank in a call hold every put of the call that has arrived, and no other -/
  counted : ∀ t < ep, 0 < s.entered t → s.pc t ≠ .zeroed →
    s.counter t = ∑ source ∈ Finset.range ep, s.delivered (s.entered t) source t
  /-- counters are zeroed before any put of the call arrives -/
  zeroedFirst : ∀ t < ep, ∀ n source, s.entered t < n → s.delivered n source t = 0
  /-- a rank that has finished a call has every put of it -/
  arrived : ∀ t < ep, ∀ n source, 0 < n → source < ep →
    n < s.entered t ∨ n = s.entered t ∧ (s.pc t = .idle ∨ s.pc t = .zeroed) →
    s.delivered n source t = puts n source t
  /-- a signal does not overwrite its slot with a smaller generation -/
  ascending : ∀ r < ep, ∀ round, s.pc r = .signalling round → 2 ^ round < ep →
    s.ready ((r + 2 ^ round) % ep) (roundIndex round) ≤ s.generation r
  /-- the slots are inside the workspace, and apart from the generation -/
  inside : ∀ r < ep, ∀ round, s.pc r = .waiting round ∨
      s.pc r = .signalling round ∧ 2 ^ round < ep → ∀ eventCapacity,
    eventCapacity * int32Size + (roundIndex round + 1) * int32Size ≤
      eventWorkspaceBytes eventCapacity ep ∧ roundIndex round ≠ generationIndex ep

end Handshake

end HyperParallel.MegaMoe
