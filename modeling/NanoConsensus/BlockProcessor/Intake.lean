/-
How blocks reach the block processor's queues.

`block_processor::add` drops a block when the processor is full or the block's work
is invalid, and otherwise hands it to `add_impl`.  `add_impl` sends state and open
blocks to the state block signature verification stage, and queues every other
block on `blocks` at once.  The verification stage checks signatures in batches and
hands each batch back to `process_verified_state_blocks`, which queues on `blocks`
the blocks whose signature verified, and also every block with an epoch link,
whatever its check said (the source's comment: epoch blocks, or regular state
blocks of the send subtype with an epoch link); it drops the rest.  `add_blocking`
goes to `add_impl` without `add`'s checks, and `force` queues on `forced`.  The
processing thread dequeues as `process_batch` does (`Queues.pop`).

`add` reads `size ()` under the processor's lock and takes the lock again in
`add_impl`, so other threads may run between its checks and its enqueue: `adding`
holds the calls that are in between.  The verification stage is not part of the
sources.  It is modelled from its use here as a queue whose batches come back in
order, each block with its own check.  What the path reads of a block (its type,
work, link and signature checks) is `BlockFacts`.  Ghost logs record what
`add_blocking` and `add_impl` were given, what the verification stage dropped, and
what the processing thread took from `blocks`.

Over every interleaving of these threads (`Reachable.inv`):
* every block the processing thread takes from `blocks` is a legacy block, or its
  signature verified, or it has an epoch link; and its work was checked unless it
  came through `add_blocking` (`pop_admitted`);
* no block handed to `add_impl` is lost or duplicated: each one was taken, or waits
  on `blocks` or in the verification stage, or was dropped by
  `process_verified_state_blocks` for a bad signature and no epoch link
  (`handed_conserved`).

`full ()` is only a check, not a bound: calls of `add` that all pass it before any
of them enqueues all enqueue (`adds_overfill`).  With no producer, one batch of the
verification stage and one dequeue per ready block empty the intake, so `flush`'s
wait on `have_blocks ()` ends, with every block handed to `add_impl` taken or dropped
(`intake_drains`).
-/
import NanoConsensus.BlockProcessor

namespace Nano

namespace BlockProcessor

/-- What the intake path reads of a block. -/
structure BlockFacts where
  /-- `block->type () == state || block->type () == open` -/
  stateOrOpen : Bool
  /-- `!network_params.work.validate_entry (*block)` -/
  workValid : Bool
  /-- `!block->link ().is_zero () && ledger.is_epoch_link (block->link ())` -/
  epochLink : Bool
  /-- The verification stage's check of the block's signature. -/
  signatureValid : Bool

/-- The block processor as the intake path sees it. -/
structure Intake where
  queues : Queues
  /-- Modelled from the spec: the queue of `state_block_signature_verification`, which
  is not in the sources. -/
  verifying : List Block
  /-- The `add` calls past their checks and not yet in `add_impl`. -/
  adding : List Block
  /-- Ghost: every block given to `add_blocking`. -/
  blocking : List Block
  /-- Ghost: every block given to `add_impl`. -/
  handed : List Block
  /-- Ghost: every block `process_verified_state_blocks` dropped. -/
  dropped : List Block
  /-- Ghost: every block the processing thread took from `blocks`. -/
  taken : List Block

namespace Intake

/-- The empty processor, as constructed. -/
def init : Intake := ⟨⟨[], []⟩, [], [], [], [], [], []⟩

/-- What may happen next, on any thread. -/
inductive Action
  /-- A thread calls `add (block)` and makes its checks. -/
  | add (b : Block)
  /-- The `i`-th `add` past its checks calls `add_impl`. -/
  | addImpl (i : Nat)
  | addBlocking (b : Block)
  | force (b : Block)
  /-- The verification stage hands its first `n` blocks back. -/
  | verify (n : Nat)
  /-- The processing thread dequeues one block. -/
  | take
deriving DecidableEq, Repr

section Model

variable (facts : Block → BlockFacts) (fullSize : Nat)

/-- `block_processor::size ()`. -/
def size (s : Intake) : Nat := s.queues.blocks.length + s.verifying.length + s.queues.forced.length

/-- `block_processor::full ()`, against `flags.block_processor_full_size ()`. -/
def full (s : Intake) : Bool := size s ≥ fullSize

/-- `block_processor::have_blocks`: a block is ready, or the verification stage holds
one.  `flush` waits while it holds. -/
def haveBlocks (s : Intake) : Bool := s.queues.ready || s.verifying.length != 0

/-- `block_processor::add_impl`. -/
def addImpl (s : Intake) (b : Block) : Intake :=
  if (facts b).stateOrOpen then { s with verifying := s.verifying ++ [b] }
  else { s with queues := { s.queues with blocks := s.queues.blocks ++ [b] } }

/-- The checks of `block_processor::add`: a full processor or invalid work drops the
block; otherwise the call goes on to `add_impl`. -/
def add (s : Intake) (b : Block) : Intake :=
  if full fullSize s then s
  else if !(facts b).workValid then s
  else { s with adding := s.adding ++ [b] }

/-- The loop of `block_processor::process_verified_state_blocks`: for each item, with
its verification, the blocks it queues on `blocks`. -/
def verifiedBlocks : List Block → List Bool → List Block
  | b :: items, v :: vs =>
    (if (facts b).epochLink then (if v then [b] else [b])
      else if v then [b] else []) ++ verifiedBlocks items vs
  | _, _ => []

/-- `add_impl`, with the ghost log of what it was given. -/
def handOver (s : Intake) (b : Block) : Intake := { addImpl facts s b with handed := s.handed ++ [b] }

/-- Whether the signature check let a block through or its epoch link did. -/
def passes (b : Block) : Bool := (facts b).epochLink || (facts b).signatureValid

/-- Modelled from the spec: the verification stage, which is not in the sources,
checks its first `n` blocks and hands them to `process_verified_state_blocks`; the
ghost log keeps the blocks it drops. -/
def verify (s : Intake) (n : Nat) : Intake :=
  let items := s.verifying.take n
  let queued := verifiedBlocks facts items (items.map fun b => (facts b).signatureValid)
  { s with
    verifying := s.verifying.drop n
    queues := { s.queues with blocks := s.queues.blocks ++ queued }
    dropped := s.dropped ++ items.filter fun b => !passes facts b }

/-- One dequeue of the processing thread (`Queues.pop`), with the ghost log of the
blocks it takes from `blocks`. -/
def take (s : Intake) : Option (Intake × Block × Bool) :=
  s.queues.pop.map fun r =>
    ({ s with queues := r.2.2, taken := if r.2.1 then s.taken else s.taken ++ [r.1] }, r.1, r.2.1)

/-- One atomic step, and the block the processing thread dequeued, with its `force`
flag.  `none` when the action cannot happen. -/
def step (s : Intake) : Action → Option (Intake × Option (Block × Bool))
  | .add b => some (add facts fullSize s b, none)
  | .addImpl i => (s.adding.get? i).map fun b => (handOver facts { s with adding := s.adding.eraseIdx i } b, none)
  | .addBlocking b => some (handOver facts { s with blocking := s.blocking ++ [b] } b, none)
  | .force b => some ({ s with queues := { s.queues with forced := s.queues.forced ++ [b] } }, none)
  | .verify n => some (verify facts s n, none)
  | .take => (take s).map fun r => (r.1, some r.2)

/-- The actions in order. -/
def exec (s : Intake) : List Action → Option Intake
  | [] => some s
  | a :: xs => (step facts fullSize s a).bind fun r => exec r.1 xs

/-- The states some interleaving of steps reaches from the empty processor. -/
inductive Reachable : Intake → Prop
  | init : Reachable init
  | step {s : Intake} {a : Action} {r : Intake × Option (Block × Bool)} :
      Reachable s → step facts fullSize s a = some r → Reachable r.1

/-- What the processing thread may rely on for a block of `blocks`: it is a legacy
block, its signature verified, or it has an epoch link. -/
def Admitted (b : Block) : Prop :=
  (facts b).stateOrOpen = false ∨ (facts b).epochLink = true ∨ (facts b).signatureValid = true

/-- Its work was checked, unless it came through `add_blocking`. -/
def WorkChecked (s : Intake) (b : Block) : Prop := (facts b).workValid = true ∨ b ∈ s.blocking

/-- What every reachable state keeps. -/
structure Inv (s : Intake) : Prop where
  /-- Only state and open blocks wait for verification. -/
  verifying : ∀ b ∈ s.verifying, (facts b).stateOrOpen = true ∧ WorkChecked facts s b
  /-- An `add` past its checks holds a block with valid work. -/
  adding : ∀ b ∈ s.adding, (facts b).workValid = true
  /-- Every block of `blocks`, and every block taken from it, is admitted, and its
  work was checked. -/
  blocks : ∀ b ∈ s.queues.blocks ++ s.taken, Admitted facts b ∧ WorkChecked facts s b
  /-- The verification stage drops only state and open blocks that fail their check
  and have no epoch link. -/
  dropped : ∀ b ∈ s.dropped, (facts b).stateOrOpen = true ∧ passes facts b = false
  /-- Every block given to `add_impl` is in exactly one place. -/
  count : ∀ b, s.handed.count b = s.taken.count b + s.queues.blocks.count b + s.verifying.count b + s.dropped.count b

end Model

/-! ### Each step keeps the invariant -/

section Invariant

variable {facts : Block → BlockFacts} {fullSize : Nat} {s : Intake}

/-- The queueing loop of `process_verified_state_blocks`, on a batch checked by the
verification stage: it keeps the blocks that pass, in order. -/
theorem verifiedBlocks_map (items : List Block) :
    verifiedBlocks facts items (items.map fun b => (facts b).signatureValid) = items.filter (passes facts) := by
  induction items with
  | nil => rfl
  | cons b items ih =>
    simp only [List.map_cons, verifiedBlocks, ih, List.filter_cons, passes]
    by_cases h₁ : (facts b).epochLink <;> by_cases h₂ : (facts b).signatureValid <;> simp [h₁, h₂]

theorem admitted_of_passes {b : Block} (h : passes facts b = true) : Admitted facts b := by
  simp only [passes, Bool.or_eq_true] at h
  exact .inr h

theorem Inv.init : Inv facts init :=
  ⟨nofun, nofun, nofun, nofun, fun _ => rfl⟩

theorem Inv.add (hi : Inv facts s) (b : Block) : Inv facts (Intake.add facts fullSize s b) := by
  unfold Intake.add
  split_ifs with hf hw
  · exact hi
  · exact hi
  · refine ⟨hi.verifying, fun x hx => ?_, hi.blocks, hi.dropped, hi.count⟩
    rcases List.mem_append.mp hx with hx | hx
    · exact hi.adding x hx
    · rw [List.mem_singleton.mp hx]
      simpa using hw

theorem Inv.handOver {b : Block} (hi : Inv facts s) (hw : WorkChecked facts s b) :
    Inv facts (Intake.handOver facts s b) := by
  unfold Intake.handOver addImpl
  split_ifs with hb
  · -- a state or open block waits for verification
    refine ⟨fun x hx => ?_, hi.adding, hi.blocks, hi.dropped, fun x => ?_⟩
    · rcases List.mem_append.mp hx with hx | hx
      · exact hi.verifying x hx
      · rw [List.mem_singleton.mp hx]
        exact ⟨hb, hw⟩
    · simp only [List.count_append, hi.count x]
      omega
  · -- any other block is queued on `blocks`
    refine ⟨hi.verifying, hi.adding, fun x hx => ?_, hi.dropped, fun x => ?_⟩
    · simp only [List.mem_append, List.mem_singleton] at hx
      rcases hx with (hx | rfl) | hx
      · exact hi.blocks x (List.mem_append_left _ hx)
      · exact ⟨.inl (Bool.eq_false_iff.mpr hb), hw⟩
      · exact hi.blocks x (List.mem_append_right _ hx)
    · simp only [List.count_append, hi.count x]
      omega

theorem Inv.addImpl {i : Nat} {b : Block} (hi : Inv facts s) (h : s.adding.get? i = some b) :
    Inv facts (Intake.handOver facts { s with adding := s.adding.eraseIdx i } b) :=
  Inv.handOver ⟨hi.verifying, fun x hx => hi.adding x (List.mem_of_mem_eraseIdx hx), hi.blocks, hi.dropped, hi.count⟩
    (.inl (hi.adding b (List.get?_mem h)))

theorem Inv.addBlocking (hi : Inv facts s) (b : Block) :
    Inv facts (Intake.handOver facts { s with blocking := s.blocking ++ [b] } b) := by
  have mono : ∀ {x}, WorkChecked facts s x → WorkChecked facts { s with blocking := s.blocking ++ [b] } x :=
    fun h => h.imp_right (List.mem_append_left _)
  exact Inv.handOver ⟨fun x hx => (hi.verifying x hx).imp_right mono, hi.adding,
    fun x hx => (hi.blocks x hx).imp_right mono, hi.dropped, hi.count⟩ (.inr (List.mem_append_right _ (List.mem_singleton_self b)))

theorem Inv.verify (hi : Inv facts s) (n : Nat) : Inv facts (Intake.verify facts s n) := by
  have hv : ∀ x ∈ s.verifying.take n, (facts x).stateOrOpen = true ∧ WorkChecked facts s x :=
    fun x hx => hi.verifying x (List.mem_of_mem_take hx)
  refine ⟨fun x hx => hi.verifying x (List.mem_of_mem_drop hx), hi.adding, fun x hx => ?_, fun x hx => ?_, fun x => ?_⟩
  · simp only [Intake.verify, verifiedBlocks_map, List.mem_append, List.mem_filter] at hx
    rcases hx with (hx | ⟨hx, hp⟩) | hx
    · exact hi.blocks x (List.mem_append_left _ hx)
    · exact ⟨admitted_of_passes hp, (hv x hx).2⟩
    · exact hi.blocks x (List.mem_append_right _ hx)
  · simp only [Intake.verify, List.mem_append, List.mem_filter, Bool.not_eq_true'] at hx
    rcases hx with hx | ⟨hx, hp⟩
    · exact hi.dropped x hx
    · exact ⟨(hv x hx).1, hp⟩
  · have hsplit := (List.filter_append_perm (passes facts) (s.verifying.take n)).count_eq x
    have htd := congrArg (List.count x) (List.take_append_drop n s.verifying)
    simp only [List.count_append] at hsplit htd
    simp only [Intake.verify, verifiedBlocks_map, List.count_append, hi.count x]
    omega

theorem Inv.take {s' : Intake} {b : Block} {f : Bool} (hi : Inv facts s) (h : Intake.take s = some (s', b, f)) :
    Inv facts s' := by
  obtain ⟨⟨b', f', q⟩, hp, he⟩ := Option.map_eq_some'.mp h
  simp only [Prod.mk.injEq] at he
  obtain ⟨rfl, rfl, rfl⟩ := he
  rcases Queues.pop_cases hp with ⟨rfl, -, hq⟩ | ⟨rfl, -, -, hq⟩
  · -- a forced block: `blocks` is as it was
    exact ⟨hi.verifying, hi.adding, by simpa only [hq] using hi.blocks, hi.dropped,
      fun x => by simpa only [hq] using hi.count x⟩
  · -- the front of `blocks` moves to the ghost log
    refine ⟨hi.verifying, hi.adding, fun x hx => hi.blocks x ?_, hi.dropped, fun x => ?_⟩
    · simp only [if_false, Bool.false_eq_true, List.mem_append, List.mem_singleton] at hx
      rw [hq]
      simp only [List.mem_append, List.mem_cons]
      tauto
    · simp only [if_false, Bool.false_eq_true, List.count_append, hi.count x, hq, List.count_cons,
        List.count_nil]
      omega

theorem Inv.step {a : Action} {r : Intake × Option (Block × Bool)} (hi : Inv facts s)
    (h : Intake.step facts fullSize s a = some r) : Inv facts r.1 := by
  cases a with
  | add b => cases h; exact hi.add b
  | addImpl i =>
    obtain ⟨b, hb, rfl⟩ := Option.map_eq_some'.mp h
    exact hi.addImpl hb
  | addBlocking b => cases h; exact hi.addBlocking b
  | force b => cases h; exact ⟨hi.verifying, hi.adding, hi.blocks, hi.dropped, hi.count⟩
  | verify n => cases h; exact hi.verify n
  | take =>
    obtain ⟨⟨s', b, f⟩, hb, rfl⟩ := Option.map_eq_some'.mp h
    exact hi.take hb

theorem Reachable.inv (h : Reachable facts fullSize s) : Inv facts s := by
  induction h with
  | init => exact Inv.init
  | step _ hst ih => exact ih.step hst

theorem Reachable.exec : ∀ {s : Intake} {xs : List Action} {s' : Intake},
    Reachable facts fullSize s → exec facts fullSize s xs = some s' → Reachable facts fullSize s'
  | _, [], _, hs, h => by cases h; exact hs
  | _, _ :: _, _, hs, h => by
    obtain ⟨r, hr, h⟩ := Option.bind_eq_some.mp h
    exact Reachable.exec (hs.step hr) h

end Invariant

/-! ### An intake at work -/

/-- Blocks of body 0 are legacy blocks and the others state blocks, all with valid
work; a state block's signature verifies for body 1, and it has an epoch link for
body 3. -/
def sampleFacts (b : Block) : BlockFacts := ⟨b.body != 0, true, b.body == 3, b.body == 1⟩

/-- Three state blocks through `add_blocking` (a good signature, a bad one, and a bad
one with an epoch link), a legacy block's `add` checked in between, the verification
stage's batch of the three, the legacy block's `add_impl`, and one dequeue. -/
def sampleRun : List Action :=
  [.addBlocking ⟨1, 1⟩, .addBlocking ⟨3, 2⟩, .add ⟨2, 0⟩, .addBlocking ⟨4, 3⟩, .verify 3, .addImpl 0, .take]

/-- Where `sampleRun` ends, with a full size of 4. -/
def sampleState : Intake :=
  ⟨⟨[], [⟨4, 3⟩, ⟨2, 0⟩]⟩, [], [], [⟨1, 1⟩, ⟨3, 2⟩, ⟨4, 3⟩], [⟨1, 1⟩, ⟨3, 2⟩, ⟨4, 3⟩, ⟨2, 0⟩],
    [⟨3, 2⟩], [⟨1, 1⟩]⟩

theorem sampleState_reachable : Reachable sampleFacts 4 sampleState :=
  Reachable.init.exec (rfl : exec sampleFacts 4 init sampleRun = some sampleState)

/-! ### What every run keeps -/

section Runs

variable {facts : Block → BlockFacts} {fullSize : Nat} {s : Intake}

/-- **What the processing thread dequeues from `blocks`.**  In any state some
interleaving of the intake's threads reaches, the block `process_batch` takes from
`blocks` is a legacy block, or its signature verified, or it has an epoch link; and
its work was checked, unless it came through `add_blocking`. -/
theorem pop_admitted (hs : Reachable facts fullSize s) {b : Block} {q : Queues}
    (h : s.queues.pop = some (b, false, q)) :
    ((facts b).stateOrOpen = false ∨ (facts b).epochLink = true ∨ (facts b).signatureValid = true) ∧
      ((facts b).workValid = true ∨ b ∈ s.blocking) := by
  rcases Queues.pop_cases h with ⟨hf, -⟩ | ⟨-, -, -, hb⟩
  · cases hf
  · exact hs.inv.blocks b (List.mem_append_left _ (hb ▸ List.mem_cons_self b _))

theorem sampleState_pop :
    ((sampleFacts ⟨4, 3⟩).stateOrOpen = false ∨ (sampleFacts ⟨4, 3⟩).epochLink = true ∨
      (sampleFacts ⟨4, 3⟩).signatureValid = true) ∧
      ((sampleFacts ⟨4, 3⟩).workValid = true ∨ ⟨4, 3⟩ ∈ sampleState.blocking) :=
  pop_admitted sampleState_reachable rfl

/-- **No block handed to `add_impl` is lost or duplicated.**  In any reachable state,
the blocks given to `add_impl` are, counted with repeats, those the processing thread
took from `blocks`, those on `blocks`, those in the verification stage, and those
`process_verified_state_blocks` dropped; and it drops only state and open blocks
whose signature failed and which have no epoch link. -/
theorem handed_conserved (hs : Reachable facts fullSize s) :
    List.Perm s.handed (s.taken ++ s.queues.blocks ++ s.verifying ++ s.dropped) ∧
      ∀ b ∈ s.dropped, (facts b).stateOrOpen = true ∧ (facts b).epochLink = false ∧
        (facts b).signatureValid = false := by
  have hi := hs.inv
  refine ⟨List.perm_iff_count.mpr fun b => by simp only [List.count_append, hi.count b], fun b hb => ?_⟩
  obtain ⟨ho, hp⟩ := hi.dropped b hb
  simp only [passes, Bool.or_eq_false_iff] at hp
  exact ⟨ho, hp⟩

theorem sampleState_conserved :
    List.Perm sampleState.handed
        (sampleState.taken ++ sampleState.queues.blocks ++ sampleState.verifying ++ sampleState.dropped) ∧
      ∀ b ∈ sampleState.dropped, (sampleFacts b).stateOrOpen = true ∧ (sampleFacts b).epochLink = false ∧
        (sampleFacts b).signatureValid = false :=
  handed_conserved sampleState_reachable

end Runs

/-! ### What `full ()` bounds -/

section Overfill

variable {facts : Block → BlockFacts} {fullSize : Nat}

theorem exec_append (s : Intake) (xs ys : List Action) :
    exec facts fullSize s (xs ++ ys) = (exec facts fullSize s xs).bind fun s' => exec facts fullSize s' ys := by
  induction xs generalizing s with
  | nil => rfl
  | cons a xs ih =>
    rw [List.cons_append, exec, exec, Option.bind_assoc]
    simp only [ih]

@[simp] theorem handOver_adding (s : Intake) (b : Block) : (handOver facts s b).adding = s.adding := by
  unfold handOver addImpl
  split_ifs <;> rfl

@[simp] theorem size_handOver (s : Intake) (b : Block) : size (handOver facts s b) = size s + 1 := by
  unfold handOver addImpl size
  split_ifs <;> simp only [List.length_append, List.length_singleton] <;> omega

/-- Calls of `add` that pass their checks one after another, none yet in `add_impl`. -/
theorem exec_adds {b : Block} (hw : (facts b).workValid = true) :
    ∀ (n : Nat) (s : Intake), size s < fullSize →
      exec facts fullSize s (List.replicate n (.add b)) = some { s with adding := s.adding ++ List.replicate n b }
  | 0, s, _ => by simp [exec]
  | n + 1, s, hs => by
    have hadd : Intake.add facts fullSize s b = { s with adding := s.adding ++ [b] } := by
      simp [Intake.add, full, Nat.not_le.mpr hs, hw]
    rw [List.replicate_succ, exec, step, Option.some_bind, hadd]
    refine (exec_adds hw n { s with adding := s.adding ++ [b] } hs).trans ?_
    simp [List.replicate_succ]

/-- The waiting calls go on to `add_impl`, each adding one block to `size ()`. -/
theorem exec_addImpls : ∀ (n : Nat) (s : Intake), n ≤ s.adding.length →
    ∃ s', exec facts fullSize s (List.replicate n (.addImpl 0)) = some s' ∧ size s' = size s + n
  | 0, s, _ => ⟨s, rfl, rfl⟩
  | n + 1, s, h => by
    obtain ⟨b, rest, hs⟩ := List.exists_cons_of_length_pos (Nat.lt_of_lt_of_le (Nat.succ_pos n) h)
    have hstep : step facts fullSize s (.addImpl 0) = some (handOver facts { s with adding := rest } b, none) := by
      simp only [step, hs, List.get?_cons_zero, Option.map_some', List.eraseIdx_cons_zero]
    obtain ⟨s', he, hsize⟩ := exec_addImpls n (handOver facts { s with adding := rest } b)
      (by rw [handOver_adding]; rw [hs] at h; exact Nat.le_of_succ_le_succ h)
    refine ⟨s', by rw [List.replicate_succ, exec, hstep, Option.some_bind, he], ?_⟩
    rw [hsize, size_handOver]
    show size s + 1 + n = size s + (n + 1)
    omega

/-- **`full ()` does not bound the queues.**  `add` reads `full ()` under the lock and
enqueues in `add_impl` under the lock again.  So calls that all pass the check before
any of them enqueues all enqueue: from any state below `block_processor_full_size`,
`n` such calls of `add` for a block with valid work add `n` blocks to `size ()`,
however large `n` is. -/
theorem adds_overfill (s : Intake) {b : Block} (hw : (facts b).workValid = true) (hs : size s < fullSize)
    (n : Nat) :
    ∃ s', exec facts fullSize s (List.replicate n (.add b) ++ List.replicate n (.addImpl 0)) = some s' ∧
      size s' = size s + n := by
  rw [exec_append, exec_adds hw n s hs, Option.some_bind]
  exact exec_addImpls n _ (by rw [List.length_append, List.length_replicate]; exact Nat.le_add_left n _)

/-- Six calls racing past the check of a processor that holds four. -/
theorem sixAdds_overfill :
    ∃ s', exec sampleFacts 4 init (List.replicate 6 (.add ⟨9, 0⟩) ++ List.replicate 6 (.addImpl 0)) = some s' ∧
      size s' = size init + 6 :=
  adds_overfill init (by decide) (by decide) 6

end Overfill

/-! ### Draining -/

section Drain

variable {facts : Block → BlockFacts} {fullSize : Nat} {s : Intake}

/-- The processing thread takes the forced blocks first, and logs none of them. -/
theorem exec_takeForced (bs v a bl h d t : List Block) : ∀ fs : List Block,
    exec facts fullSize ⟨⟨fs, bs⟩, v, a, bl, h, d, t⟩ (List.replicate fs.length .take) =
      some ⟨⟨[], bs⟩, v, a, bl, h, d, t⟩
  | [] => rfl
  | _ :: fs => exec_takeForced bs v a bl h d t fs

/-- Then it takes `blocks` in order, into the ghost log. -/
theorem exec_takeBlocks (v a bl h d : List Block) : ∀ bs t : List Block,
    exec facts fullSize ⟨⟨[], bs⟩, v, a, bl, h, d, t⟩ (List.replicate bs.length .take) =
      some ⟨⟨[], []⟩, v, a, bl, h, d, t ++ bs⟩
  | [], t => by rw [List.append_nil]; rfl
  | b :: bs, t => by
    show exec facts fullSize ⟨⟨[], bs⟩, v, a, bl, h, d, t ++ [b]⟩ _ = _
    rw [exec_takeBlocks, List.append_assoc, List.singleton_append]

/-- **With no producer, the intake drains.**  From any reachable state, one batch of
the verification stage over everything it holds, and one dequeue of the processing
thread for each block then ready, all succeed and leave `have_blocks ()` false, so
`flush` stops waiting.  The processing thread has taken `blocks` in order, and after
them the blocks that passed verification, in the stage's order; and every block given
to `add_impl` has been taken or dropped. -/
theorem intake_drains (hs : Reachable facts fullSize s) :
    ∃ s', exec facts fullSize s (.verify s.verifying.length :: List.replicate
        (s.queues.forced.length + (s.queues.blocks ++ s.verifying.filter (passes facts)).length) .take) = some s' ∧
      haveBlocks s' = false ∧ s'.taken = s.taken ++ s.queues.blocks ++ s.verifying.filter (passes facts) ∧
      List.Perm s'.handed (s'.taken ++ s'.dropped) := by
  obtain ⟨⟨fs, bs⟩, v, a, bl, h, d, t⟩ := s
  have hv : verify facts ⟨⟨fs, bs⟩, v, a, bl, h, d, t⟩ v.length =
      ⟨⟨fs, bs ++ v.filter (passes facts)⟩, [], a, bl, h, d ++ v.filter (fun b => !passes facts b), t⟩ := by
    simp only [verify, List.take_length, List.drop_length, verifiedBlocks_map]
  have hrun : exec facts fullSize ⟨⟨fs, bs⟩, v, a, bl, h, d, t⟩ (.verify v.length :: List.replicate
      (fs.length + (bs ++ v.filter (passes facts)).length) .take) =
      some ⟨⟨[], []⟩, [], a, bl, h, d ++ v.filter (fun b => !passes facts b), t ++ (bs ++ v.filter (passes facts))⟩ := by
    show exec facts fullSize (verify facts _ v.length) _ = _
    rw [hv, List.replicate_add, exec_append, exec_takeForced, Option.some_bind, exec_takeBlocks]
  refine ⟨_, hrun, rfl, (List.append_assoc _ _ _).symm, List.perm_iff_count.mpr fun x => ?_⟩
  have hc := (hs.exec hrun).inv.count x
  simp only [List.count_append, List.count_nil] at hc ⊢
  omega

theorem sampleState_drains :
    ∃ s', exec sampleFacts 4 sampleState (.verify sampleState.verifying.length :: List.replicate
        (sampleState.queues.forced.length +
          (sampleState.queues.blocks ++ sampleState.verifying.filter (passes sampleFacts)).length) .take) = some s' ∧
      haveBlocks s' = false ∧
      s'.taken = sampleState.taken ++ sampleState.queues.blocks ++ sampleState.verifying.filter (passes sampleFacts) ∧
      List.Perm s'.handed (s'.taken ++ s'.dropped) :=
  intake_drains sampleState_reachable

end Drain

end Intake

end BlockProcessor

end Nano
