/-
The batch loop of the block processor.

`block_processor::process_batch` takes the queue lock, and then, while a block is
ready and neither the batch bound (count and deadline together) nor the store's
write bound is reached, dequeues one block — the front of `forced` if there is one,
else the front of `blocks` — drops the lock, rolls back a competitor for a forced
block, hands the block to `process_one`, records `(result, block)`, and takes the
lock again.  While the lock is free, `force`, `add_impl` and
`process_verified_state_blocks` on other threads append to the two queues.

The other threads, the timer and the ledger are a `BatchEnv`, indexed by the loop's
count at each check of the condition.  The loop recurses on a fuel that
`processBatch` sets to the store's bound, which the count can never pass; the
loop therefore stops only when its condition fails (`loop_inv`).

A ghost log, `taken`, records each dequeue: the block, its `force` flag, and how
many forced blocks were waiting when it was taken.  Everything the loop hands out —
the calls on the ledger and the list for `batch_processed` — is a function of it,
and the two queues are FIFO with respect to it.

`block_processor::process_blocks` runs one batch after another on the processing
thread; over its whole life the queues stay FIFO and `batch_processed` sees every
dequeued block once, in order (`processBlocks_inv`).
-/
import NanoConsensus.Types

namespace Nano

namespace BlockProcessor

/-- `nano::process_result`: the code of the `process_return` that `ledger.process`
gives `process_one`, and `process_one` gives the batch loop. -/
inductive ProcessCode
  | progress | badSignature | old | negativeSpend | fork | unreceivable | gapPrevious | gapSource
  | gapEpochOpenPending | openedBurnAccount | balanceMismatch | representativeMismatch
  | blockPosition | insufficientWork
deriving DecidableEq, Repr

/-- The two queues of `nano::block_processor`. -/
structure Queues where
  forced : List Block
  blocks : List Block
deriving DecidableEq, Repr

namespace Queues

/-- `block_processor::have_blocks_ready`. -/
def ready (q : Queues) : Bool := !q.blocks.isEmpty || !q.forced.isEmpty

/-- What other threads append while the lock is free: `force` to `forced`,
`add_impl` and `process_verified_state_blocks` to `blocks`. -/
def enqueue (q a : Queues) : Queues := ⟨q.forced ++ a.forced, q.blocks ++ a.blocks⟩

/-- The dequeue of one turn of `process_batch`: the front of `forced`, with `force`
set, or else the front of `blocks`. -/
def pop (q : Queues) : Option (Block × Bool × Queues) :=
  match q.forced, q.blocks with
  | b :: rest, _ => some (b, true, { q with forced := rest })
  | [], b :: rest => some (b, false, { q with blocks := rest })
  | [], [] => none

@[simp] theorem enqueue_forced (q a : Queues) : (q.enqueue a).forced = q.forced ++ a.forced := rfl
@[simp] theorem enqueue_blocks (q a : Queues) : (q.enqueue a).blocks = q.blocks ++ a.blocks := rfl

theorem ready_enqueue {q : Queues} (h : q.ready = true) (a : Queues) : (q.enqueue a).ready = true := by
  cases q with
  | mk f b => cases f <;> cases b <;> simp_all [ready, enqueue]

/-- **What one dequeue does.**  It takes the front of `forced` when `forced` is not
empty, and the front of `blocks` otherwise. -/
theorem pop_cases {q q' : Queues} {b : Block} {f : Bool} (h : q.pop = some (b, f, q')) :
    (f = true ∧ q.forced = b :: q'.forced ∧ q'.blocks = q.blocks) ∨
      (f = false ∧ q.forced = [] ∧ q'.forced = [] ∧ q.blocks = b :: q'.blocks) := by
  cases q with
  | mk fs bs =>
    cases fs with
    | cons x rest => simp only [pop, Option.some.injEq, Prod.mk.injEq] at h; obtain ⟨rfl, rfl, rfl⟩ := h; simp
    | nil =>
      cases bs with
      | cons x rest => simp only [pop, Option.some.injEq, Prod.mk.injEq] at h; obtain ⟨rfl, rfl, rfl⟩ := h; simp
      | nil => cases h

theorem pop_of_ready {q : Queues} (h : q.ready = true) : ∃ b f q', q.pop = some (b, f, q') :=
  match q, h with
  | ⟨b :: _, _⟩, _ => ⟨b, true, _, rfl⟩
  | ⟨[], b :: _⟩, _ => ⟨b, false, _, rfl⟩
  | ⟨[], []⟩, h => absurd h Bool.false_ne_true

end Queues

/-- A call `process_batch` makes inside its write transaction. -/
inductive LedgerCall
  /-- `rollback_competitor (transaction, block)` -/
  | rollbackCompetitor (b : Block)
  /-- `process_one (transaction, block, force)` -/
  | processOne (b : Block) (forced : Bool)
deriving DecidableEq, Repr

/-- The configuration `process_batch` reads. -/
structure BatchConfig where
  /-- `flags.block_processor_batch_size ()` -/
  batchSize : Nat
  /-- `store.max_block_write_batch_num ()` -/
  storeMax : Nat
deriving DecidableEq, Repr

/-- What the rest of the node does during one `process_batch`, at the check of the
loop condition made when `n` blocks have been processed. -/
structure BatchEnv where
  /-- What other threads enqueued since the previous check. -/
  arrivals : Nat → Queues
  /-- `deadline_reached ()` -/
  deadline : Nat → Bool
  /-- What `process_one` returns for the block processed `n`-th. -/
  result : Nat → Block → Bool → ProcessCode

/-- One dequeue of the loop, as the ghost log keeps it. -/
structure Turn where
  block : Block
  forced : Bool
  /-- How many blocks `forced` held when this one was dequeued. -/
  waiting : Nat
deriving DecidableEq, Repr

/-- The calls on the ledger for one dequeued block. -/
def Turn.calls (t : Turn) : List LedgerCall :=
  if t.forced then [.rollbackCompetitor t.block, .processOne t.block true] else [.processOne t.block false]

/-- The locals of `process_batch`, and the ghost log. -/
structure Batch where
  queues : Queues
  /-- `number_of_blocks_processed` -/
  count : Nat
  /-- `processed`, which the call returns for `batch_processed`. -/
  processed : List (ProcessCode × Block)
  /-- The calls on the ledger, in order. -/
  calls : List LedgerCall
  /-- Ghost: every dequeue, in order. -/
  taken : List Turn

/-- The loop condition: a block is ready, the batch bound (the deadline and the
batch size together) is not reached, and the store's bound is not reached. -/
def BatchConfig.goOn (c : BatchConfig) (env : BatchEnv) (q : Queues) (n : Nat) : Bool :=
  q.ready && (!env.deadline n || !decide (c.batchSize ≤ n)) && !decide (c.storeMax ≤ n)

/-- The body of the loop once it dequeued `b` from `q`, leaving `q'`. -/
def Batch.turn (env : BatchEnv) (st : Batch) (q : Queues) (b : Block) (f : Bool) (q' : Queues) : Batch where
  queues := q'
  count := st.count + 1
  processed := st.processed ++ [(env.result st.count b f, b)]
  calls := st.calls ++ (Turn.mk b f q.forced.length).calls
  taken := st.taken ++ [⟨b, f, q.forced.length⟩]

/-- The loop of `process_batch`: other threads enqueue while the lock is free, and
the condition is checked under the lock.  The fuel counts the turns left before the
store's bound; at 0 the count has reached the bound and the condition is false
(`loop_inv`). -/
def loop (c : BatchConfig) (env : BatchEnv) : Nat → Batch → Batch
  | 0, st => { st with queues := st.queues.enqueue (env.arrivals st.count) }
  | fuel + 1, st =>
    let q := st.queues.enqueue (env.arrivals st.count)
    if c.goOn env q st.count then
      match q.pop with
      | some (b, f, q') => loop c env fuel (st.turn env q b f q')
      | none => { st with queues := q }
    else { st with queues := q }

/-- `block_processor::process_batch` on the queues `q` it finds. -/
def processBatch (c : BatchConfig) (env : BatchEnv) (q : Queues) : Batch :=
  loop c env c.storeMax ⟨q, 0, [], [], []⟩

/-! ### The loop's invariant -/

/-- Everything enqueued at the first `n` checks, in order. -/
def enqueued (env : BatchEnv) : Nat → Queues
  | 0 => ⟨[], []⟩
  | n + 1 => (enqueued env n).enqueue (env.arrivals n)

/-- The blocks taken from `forced`, in order. -/
def forcedTaken (ts : List Turn) : List Block := (ts.filter (·.forced)).map (·.block)

/-- The blocks taken from `blocks`, in order. -/
def blocksTaken (ts : List Turn) : List Block := (ts.filter (!·.forced)).map (·.block)

/-- What the loop keeps, from the queues `q₀` and with what was enqueued at the
first `k` checks. -/
structure Batch.Inv (env : BatchEnv) (q₀ : Queues) (k : Nat) (st : Batch) : Prop where
  /-- `forced` is FIFO: what was taken from it, then what it holds, is what was put in. -/
  forced : forcedTaken st.taken ++ st.queues.forced = q₀.forced ++ (enqueued env k).forced
  /-- `blocks` is FIFO. -/
  blocks : blocksTaken st.taken ++ st.queues.blocks = q₀.blocks ++ (enqueued env k).blocks
  /-- Only an empty `forced` lets a block of `blocks` through. -/
  forcedFirst : ∀ t ∈ st.taken, t.forced = false → t.waiting = 0
  length : st.taken.length = st.count
  /-- The list for `batch_processed`: each block with what `process_one` returned. -/
  processed : st.processed = st.taken.enum.map fun x => (env.result x.1 x.2.block x.2.forced, x.2.block)
  calls : st.calls = st.taken.flatMap Turn.calls

section Inv

variable {env : BatchEnv} {q₀ : Queues} {st : Batch}

theorem Batch.Inv.init (env : BatchEnv) (q₀ : Queues) : Batch.Inv env q₀ 0 ⟨q₀, 0, [], [], []⟩ :=
  ⟨by simp [forcedTaken, enqueued], by simp [blocksTaken, enqueued], by simp, rfl, rfl, rfl⟩

theorem Batch.Inv.enqueue {k : Nat} (h : Batch.Inv env q₀ k st) :
    Batch.Inv env q₀ (k + 1) { st with queues := st.queues.enqueue (env.arrivals k) } :=
  ⟨by simp [enqueued, ← List.append_assoc, h.forced], by simp [enqueued, ← List.append_assoc, h.blocks],
    h.forcedFirst, h.length, h.processed, h.calls⟩

theorem Batch.Inv.turn {k : Nat} {b : Block} {f : Bool} {q' : Queues} (h : Batch.Inv env q₀ k st)
    (hp : st.queues.pop = some (b, f, q')) :
    Batch.Inv env q₀ k (st.turn env st.queues b f q') := by
  have hlen := h.length
  rcases Queues.pop_cases hp with ⟨rfl, hf, hb⟩ | ⟨rfl, hf, hf', hb⟩
  · refine ⟨?_, ?_, ?_, ?_, ?_, ?_⟩
    · simpa [Batch.turn, forcedTaken, hf] using h.forced
    · simpa [Batch.turn, blocksTaken, hb] using h.blocks
    · intro t ht htf
      rcases List.mem_append.mp ht with ht | ht
      · exact h.forcedFirst t ht htf
      · rw [List.mem_singleton] at ht; subst ht; cases htf
    · simp [Batch.turn, hlen]
    · simp [Batch.turn, h.processed, List.enum_append, hlen]
    · simp [Batch.turn, h.calls]
  · refine ⟨?_, ?_, ?_, ?_, ?_, ?_⟩
    · simpa [Batch.turn, forcedTaken, hf, hf'] using h.forced
    · simpa [Batch.turn, blocksTaken, hb] using h.blocks
    · intro t ht htf
      rcases List.mem_append.mp ht with ht | ht
      · exact h.forcedFirst t ht htf
      · rw [List.mem_singleton] at ht; subst ht; simp [hf]
    · simp [Batch.turn, hlen]
    · simp [Batch.turn, h.processed, List.enum_append, hlen]
    · simp [Batch.turn, h.calls]

end Inv

theorem le_loop_count (c : BatchConfig) (env : BatchEnv) :
    ∀ (fuel : Nat) (st : Batch), st.count ≤ (loop c env fuel st).count
  | 0, st => le_refl _
  | fuel + 1, st => by
    simp only [loop]
    split
    · split
      · exact Nat.le_trans (Nat.le_succ _) (le_loop_count c env fuel (st.turn env _ _ _ _))
      · exact le_refl _
    · exact le_refl _

/-- **The loop keeps its invariant and stops only on its condition.**  Started with
`fuel` turns left before the store's bound, it ends with what was enqueued at
every check it made, within the bound, and with the condition false. -/
theorem loop_inv (c : BatchConfig) (env : BatchEnv) (q₀ : Queues) :
    ∀ (fuel : Nat) (st : Batch), Batch.Inv env q₀ st.count st → st.count + fuel = c.storeMax →
      Batch.Inv env q₀ ((loop c env fuel st).count + 1) (loop c env fuel st) ∧
        c.goOn env (loop c env fuel st).queues (loop c env fuel st).count = false ∧
        (loop c env fuel st).count ≤ c.storeMax
  | 0, st, h, hfuel => ⟨h.enqueue, by simp [loop, BatchConfig.goOn, ← hfuel], by simp [loop]; omega⟩
  | fuel + 1, st, h, hfuel => by
    simp only [loop]
    split
    · rename_i hgo
      have hready : (st.queues.enqueue (env.arrivals st.count)).ready = true := by
        simp only [BatchConfig.goOn, Bool.and_eq_true] at hgo; exact hgo.1.1
      obtain ⟨b, f, q', hp⟩ := Queues.pop_of_ready hready
      rw [hp]
      exact loop_inv c env q₀ fuel _ (h.enqueue.turn hp) (by simp only [Batch.turn]; omega)
    · rename_i hgo
      exact ⟨h.enqueue, by simpa using hgo, by simp only; omega⟩

/-- The loop's invariant and stopping condition for a whole `process_batch` call. -/
theorem processBatch_inv (c : BatchConfig) (env : BatchEnv) (q : Queues) :
    Batch.Inv env q ((processBatch c env q).count + 1) (processBatch c env q) ∧
      c.goOn env (processBatch c env q).queues (processBatch c env q).count = false ∧
      (processBatch c env q).count ≤ c.storeMax :=
  loop_inv c env q c.storeMax ⟨q, 0, [], [], []⟩ (Batch.Inv.init env q) (Nat.zero_add _)

/-- **The batch loop of the block processor.**  (a) A block of `blocks` is dequeued
only when `forced` is empty, and each queue is served first in, first out: what the
batch took from a queue, followed by what the queue still holds, is what the queue
held at the start followed by what other threads enqueued during the batch.  (b)
The batch processes at most `max_block_write_batch_num` blocks, and at least one
when that bound is at least 1, a block is ready, and either the batch size is at
least 1 or the deadline has not passed at the first check.  (c) Every dequeued
block goes to `process_one` once, a forced one after one `rollback_competitor`.
(d) The list for `batch_processed` holds every dequeued block once, in dequeue
order, with what `process_one` returned for it.  The loop stops only when its
condition fails. -/
theorem processBatch_spec (c : BatchConfig) (env : BatchEnv) (q : Queues) :
    (∀ t ∈ (processBatch c env q).taken, t.forced = false → t.waiting = 0) ∧
    forcedTaken (processBatch c env q).taken ++ (processBatch c env q).queues.forced =
      q.forced ++ (enqueued env ((processBatch c env q).count + 1)).forced ∧
    blocksTaken (processBatch c env q).taken ++ (processBatch c env q).queues.blocks =
      q.blocks ++ (enqueued env ((processBatch c env q).count + 1)).blocks ∧
    (processBatch c env q).count ≤ c.storeMax ∧
    (1 ≤ c.storeMax → q.ready = true → (env.deadline 0 = false ∨ 1 ≤ c.batchSize) →
      1 ≤ (processBatch c env q).count) ∧
    (processBatch c env q).taken.length = (processBatch c env q).count ∧
    (processBatch c env q).calls = (processBatch c env q).taken.flatMap Turn.calls ∧
    (processBatch c env q).processed = (processBatch c env q).taken.enum.map
      (fun x => (env.result x.1 x.2.block x.2.forced, x.2.block)) ∧
    c.goOn env (processBatch c env q).queues (processBatch c env q).count = false := by
  obtain ⟨h, hgo, hle⟩ := processBatch_inv c env q
  refine ⟨h.forcedFirst, h.forced, h.blocks, hle, fun hs hq hd => ?_, h.length, h.calls, h.processed, hgo⟩
  obtain ⟨k, hk⟩ : ∃ k, c.storeMax = k + 1 := ⟨c.storeMax - 1, by omega⟩
  have hready := Queues.ready_enqueue hq (env.arrivals 0)
  have hgo0 : c.goOn env (q.enqueue (env.arrivals 0)) 0 = true := by
    rcases hd with hd | hd <;> simp [BatchConfig.goOn, hready, hd, hk]
    omega
  obtain ⟨b, f, q', hp⟩ := Queues.pop_of_ready hready
  unfold processBatch
  rw [hk]
  simp only [loop, hgo0, if_true, hp]
  exact le_loop_count c env k (Batch.turn env ⟨q, 0, [], [], []⟩ _ _ _ _)

/-- With a batch size of 0 and the deadline past at the first check, a batch takes
nothing, though a block is ready and the store allows one. -/
theorem processBatch_takes_none :
    Queues.ready ⟨[], [⟨1, 0⟩]⟩ = true ∧
      (processBatch ⟨0, 1⟩ ⟨fun _ => ⟨[], []⟩, fun _ => true, fun _ _ _ => .progress⟩ ⟨[], [⟨1, 0⟩]⟩).count = 0 := by
  decide

/-! ### The processing thread -/

/-- What happens around one pass of the loop of `block_processor::process_blocks`:
what other threads enqueue while the thread holds no batch (it waits, or runs the
`batch_processed` observers), and what they and the ledger do during the batch. -/
structure Round where
  arrivals : Queues
  env : BatchEnv

/-- The processing thread between two passes: its queues, and ghost logs of every
dequeue, of every `batch_processed` notification, and of everything other threads
enqueued. -/
structure Thread where
  queues : Queues
  taken : List Turn
  notified : List (List (ProcessCode × Block))
  received : Queues

/-- One pass of the `while (!stopped)` loop of `block_processor::process_blocks`: a
batch when a block is ready, and otherwise a wait. -/
def Thread.pass (c : BatchConfig) (th : Thread) (r : Round) : Thread :=
  let q := th.queues.enqueue r.arrivals
  if q.ready then
    let st := processBatch c r.env q
    ⟨st.queues, th.taken ++ st.taken, th.notified ++ [st.processed],
      (th.received.enqueue r.arrivals).enqueue (enqueued r.env (st.count + 1))⟩
  else ⟨q, th.taken, th.notified, th.received.enqueue r.arrivals⟩

/-- `block_processor::process_blocks` from the queues `q`, one pass per round, until
`stopped`. -/
def processBlocks (c : BatchConfig) (q : Queues) (rs : List Round) : Thread :=
  rs.foldl (Thread.pass c) ⟨q, [], [], ⟨[], []⟩⟩

@[simp] theorem forcedTaken_append (ts ts' : List Turn) :
    forcedTaken (ts ++ ts') = forcedTaken ts ++ forcedTaken ts' := by
  simp [forcedTaken]

@[simp] theorem blocksTaken_append (ts ts' : List Turn) :
    blocksTaken (ts ++ ts') = blocksTaken ts ++ blocksTaken ts' := by
  simp [blocksTaken]

/-- What the processing thread keeps over its whole life, from the queues `q₀`. -/
structure Thread.Inv (c : BatchConfig) (q₀ : Queues) (th : Thread) : Prop where
  /-- `forced` is FIFO over every batch. -/
  forced : forcedTaken th.taken ++ th.queues.forced = q₀.forced ++ th.received.forced
  /-- `blocks` is FIFO over every batch. -/
  blocks : blocksTaken th.taken ++ th.queues.blocks = q₀.blocks ++ th.received.blocks
  /-- Only an empty `forced` lets a block of `blocks` through. -/
  forcedFirst : ∀ t ∈ th.taken, t.forced = false → t.waiting = 0
  /-- The observers of `batch_processed` see every dequeued block once, in order. -/
  notified : (th.notified.map fun n => n.map Prod.snd).flatten = th.taken.map Turn.block
  /-- No notification lists more blocks than the store's bound. -/
  bounded : ∀ n ∈ th.notified, n.length ≤ c.storeMax

theorem Batch.Inv.processed_blocks {env : BatchEnv} {q₀ : Queues} {k : Nat} {st : Batch}
    (h : Batch.Inv env q₀ k st) : st.processed.map Prod.snd = st.taken.map Turn.block := by
  rw [h.processed, List.map_map]
  exact (List.map_map Turn.block Prod.snd st.taken.enum).symm.trans
    (congrArg (List.map Turn.block) (List.enum_map_snd _))

theorem Thread.Inv.pass {c : BatchConfig} {q₀ : Queues} {th : Thread} (h : Thread.Inv c q₀ th)
    (r : Round) : Thread.Inv c q₀ (th.pass c r) := by
  dsimp only [Thread.pass]
  split
  · obtain ⟨hb, -, hle⟩ := processBatch_inv c r.env (th.queues.enqueue r.arrivals)
    refine ⟨?_, ?_, ?_, ?_, ?_⟩
    · simp only [forcedTaken_append, List.append_assoc, hb.forced, Queues.enqueue_forced]
      simp only [← List.append_assoc, h.forced]
    · simp only [blocksTaken_append, List.append_assoc, hb.blocks, Queues.enqueue_blocks]
      simp only [← List.append_assoc, h.blocks]
    · intro t ht
      rcases List.mem_append.mp ht with ht | ht
      · exact h.forcedFirst t ht
      · exact hb.forcedFirst t ht
    · simp [h.notified, hb.processed_blocks]
    · intro n hn
      rcases List.mem_append.mp hn with hn | hn
      · exact h.bounded n hn
      · rw [List.mem_singleton.mp hn, hb.processed, List.length_map, List.enum_length, hb.length]
        exact hle
  · exact ⟨by simp [← List.append_assoc, h.forced], by simp [← List.append_assoc, h.blocks],
      h.forcedFirst, h.notified, h.bounded⟩

theorem Thread.Inv.init (c : BatchConfig) (q₀ : Queues) : Thread.Inv c q₀ ⟨q₀, [], [], ⟨[], []⟩⟩ :=
  ⟨by simp [forcedTaken], by simp [blocksTaken], by simp, rfl, by simp⟩

theorem Thread.Inv.foldl {c : BatchConfig} {q₀ : Queues} :
    ∀ (rs : List Round) {th : Thread}, Thread.Inv c q₀ th → Thread.Inv c q₀ (rs.foldl (Thread.pass c) th)
  | [], _, h => h
  | r :: rs, _, h => Thread.Inv.foldl rs (h.pass r)

/-- **The processing thread over its whole life.**  Whatever other threads enqueue
and whatever each batch's timer and ledger do: each queue is first in, first out
across all batches (what was taken from it, followed by what it still holds, is what
it held at the start followed by everything enqueued since); a block of `blocks` is
dequeued only when `forced` is empty; the observers of `batch_processed` see every
dequeued block once, in dequeue order; and no batch holds more blocks than
`max_block_write_batch_num`. -/
theorem processBlocks_inv (c : BatchConfig) (q : Queues) (rs : List Round) :
    Thread.Inv c q (processBlocks c q rs) :=
  Thread.Inv.foldl rs (Thread.Inv.init c q)

end BlockProcessor

end Nano
