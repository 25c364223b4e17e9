/-
The optimistic election scheduler, `nano::scheduler::optimistic`.

Other threads call `activate` for accounts whose chain runs well ahead of its
confirmation height, or has nothing confirmed.  An account that passes is queued
as a candidate with the time it was activated: at most once, and no more than
`max_size` candidates at a time.  The scheduler's own thread (`run`) waits until
the active elections container has room for an optimistic election and the front
candidate has waited longer than `optimistic_activation_delay`.  It then pops
candidates one at a time and, with the lock dropped, asks the container for an
election on the account's head block, unless that block is confirmed or being
confirmed (`run_one`).

Every step here is one section under the scheduler's mutex: an `activate` call
(its checks before the lock read only its arguments and the configuration),
`start`, `stop`, the clock moving on, or one pass of the thread from taking the
lock to dropping it.  The thread drops the lock in two places: in
`condition.wait_for`, and around `run_one`.  So `Place` names where it is, and the
`run_one` of a popped candidate runs at the start of the thread's next step.  It
reads nothing of the scheduler, so running it there loses no interleaving.  `Env`
is what one step reads from the rest of the node.  `Reachable` is everything some
interleaving of steps produces from a new scheduler.

`Inv` is what every reachable state keeps.  The candidates hold distinct accounts,
no more than `max_size` of them, in the order they were activated and none later
than the clock.  The candidate the thread has popped had waited longer than the
delay.  A disabled scheduler holds nothing and runs no thread.  From it:
* every election the scheduler asks for is on the head block of an account that
  waited longer than the delay (`insert_waited`);
* a pass of the loop that nothing disturbs runs exactly the candidates that have
  waited long enough, oldest first, and leaves the others in order
  (`run_drain`); checking only the front is enough because the candidates are
  sorted.
-/
import NanoConsensus.Types

namespace Nano

namespace Scheduler

/-- `nano::scheduler::optimistic_config`. -/
structure OptimisticConfig where
  enabled : Bool
  gapThreshold : UInt64
  maxSize : Nat
deriving DecidableEq, Repr

/-- The part of `nano::account_info` the scheduler reads. -/
structure AccountInfo where
  blockCount : UInt64
deriving DecidableEq, Repr

/-- The part of `nano::confirmation_height_info` the scheduler reads. -/
structure ConfirmationHeightInfo where
  height : UInt64
deriving DecidableEq, Repr

namespace Optimistic

/-- A candidate, `optimistic::entry`: the account and the `nano::clock` time it was
activated. -/
structure Entry where
  account : Account
  timestamp : Int
deriving DecidableEq, Repr

/-- Where the scheduler's thread is, each time it holds no lock. -/
inductive Place
  /-- No thread runs: `start` has not started one. -/
  | idle
  /-- About to take the lock at the head of the `while (!stopped)` loop: at the start
  of `run`, or in `condition.wait_for`. -/
  | top
  /-- In `run_one` for the candidate it popped. -/
  | runOne (c : Entry)
  /-- Returned from `run`. -/
  | exited
deriving DecidableEq, Repr

end Optimistic

/-- The optimistic scheduler, and the steady clock `nano::clock::now ()`. -/
structure Optimistic where
  candidates : List Optimistic.Entry
  stopped : Bool
  thread : Optimistic.Place
  now : Int
deriving DecidableEq, Repr

namespace Optimistic

/-- What a step reads from the rest of the node. -/
structure Env where
  /-- `active.vacancy (election_behavior::optimistic)` -/
  vacancy : Int
  /-- `ledger.head_block (transaction, account)` -/
  headBlock : Account → Option Block
  /-- `node.block_confirmed_or_being_confirmed (hash)` -/
  confirmedOrBeingConfirmed : BlockHash → Bool

/-- A call the scheduler makes on the rest of the node. -/
inductive Event
  /-- `node.active.insert (block, election_behavior::optimistic)` -/
  | insert (b : Block)
deriving DecidableEq, Repr

/-- What may happen next. -/
inductive Action
  /-- Another thread calls `activate (account, account_info, conf_info)`. -/
  | activate (account : Account) (info : AccountInfo) (conf : ConfirmationHeightInfo)
  | start
  | stop
  /-- The scheduler's thread takes its next step. -/
  | run
  /-- The steady clock moves on. -/
  | tick (d : Nat)
deriving DecidableEq, Repr

/-- A new scheduler, with the clock at `now`. -/
def init (now : Int) : Optimistic := ⟨[], false, .idle, now⟩

/-- `nano::elapsed (last, duration, now)`: more than `duration` has passed since `last`. -/
def elapsed (last duration now : Int) : Bool := last + duration < now

section Model

variable (config : OptimisticConfig) (delay : Int)

/-- `optimistic::activate_predicate`. -/
def activatePredicate (info : AccountInfo) (conf : ConfirmationHeightInfo) : Bool :=
  if info.blockCount - conf.height > config.gapThreshold then true
  else if conf.height = 0 then true
  else false

/-- `optimistic::activate`: the scheduler after the call, and whether the account was
activated. -/
def activate (s : Optimistic) (account : Account) (info : AccountInfo)
    (conf : ConfirmationHeightInfo) : Optimistic × Bool :=
  if !config.enabled then (s, false)
  else if activatePredicate config info conf then
    if s.candidates.any (·.account == account) then (s, false)
    else if s.candidates.length ≥ config.maxSize then (s, false)
    else ({ s with candidates := s.candidates ++ [⟨account, s.now⟩] }, true)
  else (s, false)

/-- `optimistic::predicate`: there is room for an optimistic election, and the front
candidate has waited longer than `optimistic_activation_delay`. -/
def predicate (e : Env) (s : Optimistic) : Bool :=
  if e.vacancy ≤ 0 then false
  else match s.candidates with
    | [] => false
    | c :: _ => elapsed c.timestamp delay s.now

/-- `optimistic::run_one`. -/
def runOne (e : Env) (c : Entry) : List Event :=
  match e.headBlock c.account with
  | some b => if !e.confirmedOrBeingConfirmed b.hash then [.insert b] else []
  | none => []

/-- The loop from `while (predicate ())` on, holding the lock: while the predicate
holds (so there is a front candidate) pop the front for `run_one`, else wait. -/
def next (e : Env) (s : Optimistic) : Optimistic :=
  match s.candidates, predicate delay e s with
  | c :: rest, true => { s with candidates := rest, thread := .runOne c }
  | _, _ => { s with thread := .top }

/-- One step of the thread in `optimistic::run`: at the head of the loop it leaves
when stopped, else goes into the loop; after `run_one` it retakes the lock at
`while (predicate ())`.  `none` when no thread runs. -/
def runStep (e : Env) (s : Optimistic) : Option (Optimistic × List Event) :=
  match s.thread with
  | .top => some (if s.stopped then { s with thread := .exited } else next delay e s, [])
  | .runOne c => some (next delay e s, runOne e c)
  | .idle | .exited => none

/-- `optimistic::start`: a disabled scheduler starts no thread.  `none` where the
code starts a second thread over a running one (`std::terminate`). -/
def start (s : Optimistic) : Option Optimistic :=
  if !config.enabled then some s
  else match s.thread with
    | .idle => some { s with thread := .top }
    | _ => none

/-- One atomic step: the scheduler after it, the calls it makes, and what
`activate` returns.  `none` when the action cannot happen. -/
def step (e : Env) (s : Optimistic) : Action → Option (Optimistic × List Event × Option Bool)
  | .activate a info conf =>
    some ((activate config s a info conf).1, [], some (activate config s a info conf).2)
  | .start => (start config s).map fun s' => (s', [], none)
  | .stop => some ({ s with stopped := true }, [], none)
  | .run => (runStep delay e s).map fun r => (r.1, r.2, none)
  | .tick d => some ({ s with now := s.now + d }, [], none)

/-- The actions in order, each under its own environment. -/
def exec : Optimistic → List (Env × Action) → Option (Optimistic × List Event)
  | s, [] => some (s, [])
  | s, (e, a) :: xs =>
    (step config delay e s a).bind fun r => (exec r.1 xs).map fun r' => (r'.1, r.2.1 ++ r'.2)

/-- The states some interleaving of steps reaches from a new scheduler. -/
inductive Reachable : Optimistic → Prop
  | init (now : Int) : Reachable (init now)
  | step {s : Optimistic} {e : Env} {a : Action} {r : Optimistic × List Event × Option Bool} :
      Reachable s → step config delay e s a = some r → Reachable r.1

theorem Reachable.exec {s : Optimistic} :
    ∀ {xs : List (Env × Action)} {r : Optimistic × List Event},
      Reachable config delay s → exec config delay s xs = some r → Reachable config delay r.1
  | [], r, hs, h => by cases h; exact hs
  | (e, a) :: xs, r, hs, h => by
    simp only [Optimistic.exec, Option.bind_eq_some, Option.map_eq_some'] at h
    obtain ⟨r₁, h₁, r₂, h₂, rfl⟩ := h
    exact Reachable.exec (r := r₂) (hs.step h₁) h₂

end Model

/-! ### A scheduler at work -/

/-- Enabled, with a gap threshold of 2 and room for two candidates. -/
def smallConfig : OptimisticConfig := ⟨true, 2, 2⟩

/-- A container with room, where each account's head block is unconfirmed. -/
def roomyEnv : Env := ⟨1, fun a => some ⟨a, 0⟩, fun _ => false⟩

/-- Account 1, five blocks with one confirmed, is activated at time 0; account 2, with
nothing confirmed, at time 3; the thread starts, and the clock reaches 6. -/
def twoActivations : List (Env × Action) :=
  [(roomyEnv, .activate 1 ⟨5⟩ ⟨1⟩), (roomyEnv, .tick 3), (roomyEnv, .activate 2 ⟨0⟩ ⟨0⟩),
    (roomyEnv, .start), (roomyEnv, .tick 3)]

/-- Where `twoActivations` leads. -/
def twoQueued : Optimistic := ⟨[⟨1, 0⟩, ⟨2, 3⟩], false, .top, 6⟩

theorem twoActivations_exec : exec smallConfig 4 (init 0) twoActivations = some (twoQueued, []) := rfl

theorem twoQueued_reachable : Reachable smallConfig 4 twoQueued :=
  Reachable.exec smallConfig 4 (.init 0) twoActivations_exec

/-! ### What each operation does to the candidates -/

section Ops

variable {config : OptimisticConfig} {delay : Int}

theorem elapsed_mono {a a' d n n' : Int} (ha : a' ≤ a) (hn : n ≤ n') (h : elapsed a d n = true) :
    elapsed a' d n' = true := by
  simp only [elapsed, decide_eq_true_eq] at *
  omega

/-- `activate` either changes nothing, or, when enabled and the account is new and there
is room, appends the account with the current time. -/
theorem activate_cases (s : Optimistic) (a : Account) (info : AccountInfo)
    (conf : ConfirmationHeightInfo) :
    activate config s a info conf = (s, false) ∨
    (config.enabled = true ∧ a ∉ s.candidates.map Entry.account ∧
      s.candidates.length < config.maxSize ∧
      activate config s a info conf = ({ s with candidates := s.candidates ++ [⟨a, s.now⟩] }, true)) := by
  unfold activate
  split_ifs with h₁ h₂ h₃ h₄
  · exact .inl rfl
  · exact .inl rfl
  · exact .inl rfl
  · refine .inr ⟨by simpa using h₁, fun hm => h₃ ?_, Nat.lt_of_not_le h₄, rfl⟩
    obtain ⟨c, hc, rfl⟩ := List.mem_map.mp hm
    exact List.any_eq_true.mpr ⟨c, hc, beq_self_eq_true _⟩
  · exact .inl rfl

/-- The loop either waits, or pops a front candidate that has waited long enough while
the container has room. -/
theorem next_cases (e : Env) (s : Optimistic) :
    next delay e s = { s with thread := .top } ∨
    ∃ c rest, s.candidates = c :: rest ∧ 0 < e.vacancy ∧ elapsed c.timestamp delay s.now = true ∧
      next delay e s = { s with candidates := rest, thread := .runOne c } := by
  unfold next
  split
  · rename_i c rest hc hp
    simp only [predicate, hc] at hp
    split_ifs at hp with hv
    exact .inr ⟨c, rest, hc, by omega, hp, rfl⟩
  · exact .inl rfl

end Ops

/-! ### The invariant -/

section Invariant

variable (config : OptimisticConfig) (delay : Int)

/-- What every reachable state of the scheduler keeps. -/
structure Inv (s : Optimistic) : Prop where
  /-- No account is queued twice. -/
  nodup : (s.candidates.map Entry.account).Nodup
  /-- No more than `max_size` candidates. -/
  bounded : s.candidates.length ≤ config.maxSize
  /-- Candidates are queued in the order they were activated... -/
  sorted : s.candidates.Pairwise fun a b => a.timestamp ≤ b.timestamp
  /-- ...and none of them after the clock's time. -/
  past : ∀ c ∈ s.candidates, c.timestamp ≤ s.now
  /-- The candidate in `run_one` had waited longer than the delay. -/
  running : ∀ c, s.thread = .runOne c → elapsed c.timestamp delay s.now = true
  /-- A disabled scheduler holds nothing and runs no thread. -/
  disabled : config.enabled = false → s.candidates = [] ∧ s.thread = .idle

variable {config delay} {s : Optimistic}

theorem Inv.init (now : Int) : Inv config delay (init now) :=
  ⟨List.nodup_nil, Nat.zero_le _, List.Pairwise.nil, fun _ h => (nomatch h), fun _ h => (nomatch h),
    fun _ => ⟨rfl, rfl⟩⟩

/-- A thread runs only in an enabled scheduler. -/
theorem Inv.enabled (hi : Inv config delay s) (ht : s.thread ≠ .idle) : config.enabled = true := by
  cases h : config.enabled
  · exact absurd (hi.disabled h).2 ht
  · rfl

theorem Inv.activate (hi : Inv config delay s) (a : Account) (info : AccountInfo)
    (conf : ConfirmationHeightInfo) : Inv config delay (activate config s a info conf).1 := by
  rcases activate_cases s a info conf with h | ⟨hen, hnew, hroom, h⟩ <;> rw [h]
  · exact hi
  · refine ⟨?_, ?_, ?_, ?_, hi.running, fun hd => Bool.noConfusion (hen.symm.trans hd)⟩
    · rw [List.map_append, List.map_singleton]
      exact List.nodup_append.mpr ⟨hi.nodup, List.nodup_singleton _, List.disjoint_singleton.mpr hnew⟩
    · simp only [List.length_append, List.length_singleton]
      omega
    · exact List.pairwise_append.mpr ⟨hi.sorted, List.pairwise_singleton _ _,
        fun c hc _ hd => by rw [List.mem_singleton.mp hd]; exact hi.past c hc⟩
    · intro c hc
      rcases List.mem_append.mp hc with hc | hc
      · exact hi.past c hc
      · rw [List.mem_singleton.mp hc]

theorem Inv.next (hi : Inv config delay s) (hen : config.enabled = true) (e : Env) :
    Inv config delay (next delay e s) := by
  have hd : config.enabled = false → False := fun hd => Bool.noConfusion (hen.symm.trans hd)
  rcases next_cases e s with h | ⟨c, rest, hc, -, hel, h⟩ <;> rw [h]
  · exact ⟨hi.nodup, hi.bounded, hi.sorted, hi.past, fun _ h => (nomatch h), fun h => (hd h).elim⟩
  · have hn := hi.nodup
    have hb := hi.bounded
    have hs := hi.sorted
    rw [hc] at hn hb hs
    refine ⟨(List.nodup_cons.mp hn).2, ?_, hs.of_cons, fun x hx => hi.past x (hc ▸ .tail _ hx),
      fun c' h => ?_, fun h => (hd h).elim⟩
    · exact (Nat.le_succ _).trans hb
    · cases h
      exact hel

theorem Inv.runStep (hi : Inv config delay s) {e : Env} {r : Optimistic × List Event}
    (h : runStep delay e s = some r) : Inv config delay r.1 := by
  unfold Optimistic.runStep at h
  split at h <;> cases h
  · have hen := hi.enabled (by simp_all)
    split
    · exact ⟨hi.nodup, hi.bounded, hi.sorted, hi.past, fun _ h => (nomatch h),
        fun h => Bool.noConfusion (hen.symm.trans h)⟩
    · exact hi.next hen e
  · exact hi.next (hi.enabled (by simp_all)) e

theorem Inv.step (hi : Inv config delay s) {e : Env} {a : Action}
    {r : Optimistic × List Event × Option Bool} (h : step config delay e s a = some r) :
    Inv config delay r.1 := by
  cases a with
  | activate a info conf => cases h; exact hi.activate a info conf
  | start =>
    obtain ⟨s', hs', rfl⟩ := Option.map_eq_some'.mp h
    unfold Optimistic.start at hs'
    split_ifs at hs' with hen
    · cases hs'; exact hi
    · split at hs' <;> cases hs'
      exact { hi with running := fun _ h => (nomatch h), disabled := fun h => absurd h (by simpa using hen) }
  | stop => cases h; exact { hi with }
  | run =>
    obtain ⟨r', hr', rfl⟩ := Option.map_eq_some'.mp h
    exact hi.runStep hr'
  | tick d =>
    cases h
    refine { hi with past := fun c hc => ?_, running := fun c hc => ?_ }
    · have := hi.past c hc
      simp only
      omega
    · exact elapsed_mono le_rfl (by simp only; omega) (hi.running c hc)

theorem Reachable.inv (hs : Reachable config delay s) : Inv config delay s := by
  induction hs with
  | init now => exact Inv.init now
  | step _ h ih => exact ih.step h

/-- **The scheduler over every run.**  In every state that some interleaving of
`activate`, `start`, `stop`, the clock and the thread's steps reaches: no account is
queued twice; there are at most `max_size` candidates; they are queued in order of
activation time, none later than the clock, so that when any candidate has waited
longer than `optimistic_activation_delay` the front one has too; the candidate in
`run_one` had waited longer than the delay; and a disabled scheduler holds no candidate
and runs no thread. -/
theorem reachable_candidates (hs : Reachable config delay s) :
    (s.candidates.map Entry.account).Nodup ∧ s.candidates.length ≤ config.maxSize ∧
    s.candidates.Pairwise (fun a b => a.timestamp ≤ b.timestamp) ∧
    (∀ c ∈ s.candidates, c.timestamp ≤ s.now) ∧
    (∀ c rest, s.candidates = c :: rest → ∀ c' ∈ rest,
      elapsed c'.timestamp delay s.now = true → elapsed c.timestamp delay s.now = true) ∧
    (∀ c, s.thread = .runOne c → elapsed c.timestamp delay s.now = true) ∧
    (config.enabled = false → s.candidates = [] ∧ s.thread = .idle) := by
  have hi := hs.inv
  refine ⟨hi.nodup, hi.bounded, hi.sorted, hi.past, fun c rest hc c' hc' => ?_, hi.running, hi.disabled⟩
  have hs := hi.sorted
  rw [hc] at hs
  exact elapsed_mono (List.rel_of_pairwise_cons hs hc') le_rfl

theorem twoQueued_candidates :
    (twoQueued.candidates.map Entry.account).Nodup ∧ twoQueued.candidates.length ≤ smallConfig.maxSize ∧
    twoQueued.candidates.Pairwise (fun a b => a.timestamp ≤ b.timestamp) ∧
    (∀ c ∈ twoQueued.candidates, c.timestamp ≤ twoQueued.now) ∧
    (∀ c rest, twoQueued.candidates = c :: rest → ∀ c' ∈ rest,
      elapsed c'.timestamp 4 twoQueued.now = true → elapsed c.timestamp 4 twoQueued.now = true) ∧
    (∀ c, twoQueued.thread = .runOne c → elapsed c.timestamp 4 twoQueued.now = true) ∧
    (smallConfig.enabled = false → twoQueued.candidates = [] ∧ twoQueued.thread = .idle) :=
  reachable_candidates twoQueued_reachable

end Invariant

/-! ### What the thread does -/

section Thread

variable {config : OptimisticConfig} {delay : Int} {s : Optimistic}

theorem mem_runOne {e : Env} {c : Entry} {b : Block} :
    Event.insert b ∈ runOne e c ↔
      e.headBlock c.account = some b ∧ e.confirmedOrBeingConfirmed b.hash = false := by
  unfold runOne
  split <;> rename_i h
  · simp only [h, Option.some.injEq]
    split <;> rename_i hc
    · simp only [List.mem_singleton, Event.insert.injEq]
      constructor
      · rintro rfl
        exact ⟨rfl, by simpa using hc⟩
      · rintro ⟨rfl, -⟩
        rfl
    · simp only [List.not_mem_nil, false_iff, not_and]
      rintro rfl
      simpa using hc
  · simp [h]

/-- Only the thread's step after `run_one` calls anything: it makes `run_one`'s calls
for the candidate it popped. -/
theorem step_events {e : Env} {a : Action} {r : Optimistic × List Event × Option Bool}
    (h : step config delay e s a = some r) :
    r.2.1 = [] ∨ ∃ c, s.thread = .runOne c ∧ r.2.1 = runOne e c := by
  cases a with
  | run =>
    obtain ⟨r', hr', rfl⟩ := Option.map_eq_some'.mp h
    unfold Optimistic.runStep at hr'
    split at hr' <;> cases hr'
    · exact .inl rfl
    · exact .inr ⟨_, ‹_›, rfl⟩
  | start => obtain ⟨_, -, rfl⟩ := Option.map_eq_some'.mp h; exact .inl rfl
  | activate | stop | tick => cases h; exact .inl rfl

/-- **What the scheduler asks of the active elections container.**  In any reachable
state, every election a step asks for is on the head block of the account of the
candidate the thread popped; that block is neither confirmed nor being confirmed; the
candidate was activated more than `optimistic_activation_delay` before; and the
scheduler is enabled. -/
theorem insert_waited (hs : Reachable config delay s) {e : Env} {a : Action}
    {r : Optimistic × List Event × Option Bool} (h : step config delay e s a = some r)
    {b : Block} (hb : Event.insert b ∈ r.2.1) :
    config.enabled = true ∧ ∃ c, s.thread = .runOne c ∧ e.headBlock c.account = some b ∧
      e.confirmedOrBeingConfirmed b.hash = false ∧ c.timestamp + delay < s.now := by
  rcases step_events h with he | ⟨c, hc, he⟩
  · rw [he] at hb
    exact absurd hb (List.not_mem_nil _)
  · rw [he, mem_runOne] at hb
    have hw := hs.inv.running c hc
    simp only [elapsed, decide_eq_true_eq] at hw
    exact ⟨hs.inv.enabled (by simp [hc]), c, hc, hb.1, hb.2, hw⟩

theorem twoQueued_insert :
    smallConfig.enabled = true ∧ ∃ c, (Optimistic.mk [⟨2, 3⟩] false (.runOne ⟨1, 0⟩) 6).thread = .runOne c ∧
      roomyEnv.headBlock c.account = some ⟨1, 0⟩ ∧ roomyEnv.confirmedOrBeingConfirmed 1 = false ∧
      c.timestamp + 4 < 6 :=
  insert_waited (Reachable.step (e := roomyEnv) (a := .run) twoQueued_reachable rfl)
    (e := roomyEnv) (a := .run) (r := (⟨[⟨2, 3⟩], false, .top, 6⟩, [.insert ⟨1, 0⟩], none)) rfl
    (List.mem_singleton_self _)

theorem exec_run_cons {e : Env} {p : Optimistic × List Event} (h : runStep delay e s = some p)
    (xs : List (Env × Action)) :
    exec config delay s ((e, .run) :: xs) = (exec config delay p.1 xs).map fun r => (r.1, p.2 ++ r.2) := by
  simp [exec, step, h]

/-- The `while (predicate ())` loop with nothing else running and the container's room
held.  From where it takes the lock, with sorted candidates `cs`, it pops in order
exactly the candidates that have waited long enough, one step each, and then waits. -/
theorem exec_next_drain {e : Env} (hv : 0 < e.vacancy) (st : Bool) (th : Place) (now : Int) :
    ∀ cs : List Entry, cs.Pairwise (fun a b => a.timestamp ≤ b.timestamp) →
      exec config delay (next delay e ⟨cs, st, th, now⟩)
          (List.replicate (cs.filter fun c => elapsed c.timestamp delay now).length (e, .run)) =
        some (⟨cs.filter fun c => !elapsed c.timestamp delay now, st, .top, now⟩,
          (cs.filter fun c => elapsed c.timestamp delay now).flatMap (runOne e))
  | [], _ => rfl
  | c :: cs, hs => by
    have hp : predicate delay e ⟨c :: cs, st, th, now⟩ = elapsed c.timestamp delay now := by
      simp [predicate, Int.not_le.mpr hv]
    by_cases hc : elapsed c.timestamp delay now = true
    · have hn : next delay e ⟨c :: cs, st, th, now⟩ = ⟨cs, st, .runOne c, now⟩ := by
        simp only [next, hp, hc]
      rw [hn, List.filter_cons_of_pos (p := fun c : Entry => elapsed c.timestamp delay now) hc,
        List.filter_cons_of_neg (p := fun c : Entry => !elapsed c.timestamp delay now) (by simp [hc]),
        List.length_cons, List.replicate_succ,
        exec_run_cons (s := ⟨cs, st, .runOne c, now⟩) (e := e)
          (p := (next delay e ⟨cs, st, .runOne c, now⟩, runOne e c)) rfl,
        exec_next_drain hv st _ now cs hs.of_cons]
      rfl
    · -- the candidates behind `c` are no older, so none of them has waited long enough
      have hall : ∀ x ∈ c :: cs, elapsed x.timestamp delay now = false := by
        intro x hx
        rcases List.mem_cons.mp hx with rfl | hx
        · simpa using hc
        · exact Bool.eq_false_iff.mpr fun h =>
            hc (elapsed_mono (List.rel_of_pairwise_cons hs hx) le_rfl h)
      have hn : next delay e ⟨c :: cs, st, th, now⟩ = ⟨c :: cs, st, .top, now⟩ := by
        simp only [next, hp, Bool.eq_false_iff.mpr hc]
      rw [hn, List.filter_eq_nil_iff.mpr fun x hx => by simp [hall x hx],
        List.filter_eq_self.mpr fun x hx => by simp [hall x hx]]
      rfl

/-- **A pass of the scheduler's loop.**  When the thread, not stopped, takes the lock at
the head of its loop in any reachable state, and nothing else runs while the
container keeps room for optimistic elections, the thread hands `run_one` exactly the
candidates that have waited longer than `optimistic_activation_delay`, oldest first,
one step each, and then waits with the others still queued in order. -/
theorem run_drain (hs : Reachable config delay s) (ht : s.thread = .top) (hst : s.stopped = false)
    {e : Env} (hv : 0 < e.vacancy) :
    exec config delay s (List.replicate
        ((s.candidates.filter fun c => elapsed c.timestamp delay s.now).length + 1) (e, .run)) =
      some ({ s with candidates := s.candidates.filter fun c => !elapsed c.timestamp delay s.now },
        (s.candidates.filter fun c => elapsed c.timestamp delay s.now).flatMap (runOne e)) := by
  have hsorted := hs.inv.sorted
  obtain ⟨cs, st, th, now⟩ := s
  dsimp only at ht hst hsorted ⊢
  subst ht hst
  rw [List.replicate_succ, exec_run_cons (s := ⟨cs, false, .top, now⟩) (e := e)
      (p := (next delay e ⟨cs, false, .top, now⟩, [])) rfl,
    exec_next_drain hv false .top now cs hsorted]
  rfl

/-- With a delay of 4, account 1 is due at time 6 and account 2 is not: one pass asks for
an election on account 1's head block and leaves account 2 queued. -/
theorem twoQueued_drain :
    exec smallConfig 4 twoQueued [(roomyEnv, .run), (roomyEnv, .run)] =
      some (⟨[⟨2, 3⟩], false, .top, 6⟩, [.insert ⟨1, 0⟩]) :=
  run_drain twoQueued_reachable rfl rfl (show (0 : Int) < 1 by decide)

end Thread

end Optimistic

end Scheduler

end Nano
