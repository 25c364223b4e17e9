/-
One election under concurrent calls.

The node calls an election from many threads.  Each call runs in atomic steps:
a section under the election's lock, an atomic read or write of `state_m`, or the
part of `replace_by_weight` that runs with the lock dropped.  Between two steps of
one call any step of any other call may run, and the rest of the node may change
anything the election reads; so every step takes its own `Env`.

A `Sys` is the election together with the calls that have started and not yet
returned, each at the place it waits.  `Sys.step` starts a call or lets a waiting
one take its next step; `Reachable` is everything some order of such steps
produces from a freshly constructed election.
-/
import NanoConsensus.Election.Timer

namespace Nano

/-- A call the node makes on an election. -/
inductive Call
  | vote (rep : Account) (timestamp : UInt64) (hash : BlockHash) (source : VoteSource)
  | publish (b : Block)
  | transitionTime
  | transitionActive
  | forceConfirm (type : StatusType)
deriving DecidableEq, Repr

/-- A call that has taken some of its steps and waits for the next. -/
inductive Pending
  /-- `vote`, in the final-vote window of `confirm_if_quorum`. -/
  | vote
  /-- `publish`, in `replace_by_weight` with the lock dropped. -/
  | replacePick (b : Block) (winnerHash : BlockHash) (sorted : List (BlockHash × Nat))
  /-- `publish`, waiting to retake the lock with the block it picked. -/
  | replaceRelock (b : Block) (replaced : BlockHash)
  /-- `transition_time`. -/
  | time (p : TimeStep)
deriving DecidableEq, Repr

/-- What a call returns. -/
inductive Ret
  | vote (r : VoteResult)
  | publish (result : Bool)
  | transitionTime (result : Bool)
deriving DecidableEq, Repr

/-- What one step of a call does: the election after it, the calls it makes on the
node, and either where the call waits next or what it returns. -/
structure Outcome where
  election : Election
  events : List Event
  next : Option Pending
  ret : Option Ret

/-- The first step of a call. -/
def Call.start (e : Env) (s : Election) : Call → Option Outcome
  | .vote rep t h src => (s.vote e rep t h src).map fun r =>
    ⟨r.1, r.2.1, if r.2.2 then some .vote else none,
      if r.2.2 then none else some (.vote (s.voteResult e rep t h src))⟩
  | .publish b =>
    match s.publishLocked e b with
    | (.done result, s', ev) => some ⟨s', ev, none, some (.publish result)⟩
    | (.unlocked w sorted, s', ev) => some ⟨s', ev, some (.replacePick b w sorted), none⟩
  | .transitionTime => some ⟨s, [], some (.time (.switch s.state)), none⟩
  | .transitionActive => some ⟨s.transitionActive e, [], none, none⟩
  | .forceConfirm type => (s.forceConfirm e type).map fun r => ⟨r.1, r.2, none, none⟩

/-- The next step of a waiting call. -/
def Pending.resume (e : Env) (s : Election) : Pending → Option Outcome
  | .vote => some ⟨(s.quorumTail e).1, (s.quorumTail e).2, none, some (.vote ⟨false, true⟩)⟩
  | .replacePick b w sorted =>
    some ⟨s, (s.replacePick e b w sorted).2, some (.replaceRelock b (s.replacePick e b w sorted).1), none⟩
  | .replaceRelock b replaced =>
    let r := s.replaceRelock b replaced
    some ⟨r.2.1, r.2.2, none, some (.publish r.1)⟩
  | .time p => (s.timeStep e p).map fun r =>
    match r.2.2 with
    | .inl p' => ⟨r.1, r.2.1, some (.time p'), none⟩
    | .inr result => ⟨r.1, r.2.1, none, some (.transitionTime result)⟩

/-- An election and the calls in flight on it. -/
structure Sys where
  election : Election
  pending : List Pending

/-- What may happen next: a new call starts, or the `i`-th waiting call steps. -/
inductive Action
  | call (c : Call)
  | resume (i : Nat)
deriving DecidableEq, Repr

namespace Sys

/-- A freshly constructed election with nothing in flight. -/
def init (e : Env) (b : Block) (behavior : ElectionBehavior) : Sys :=
  ⟨Election.new e b behavior, []⟩

/-- A step's outcome, filed into the system. -/
def apply (pending : List Pending) (o : Outcome) : Sys × List Event × Option Ret :=
  (⟨o.election, pending ++ o.next.toList⟩, o.events, o.ret)

/-- One atomic step. `none` when the action names no waiting call, or the step is
undefined behaviour in the code. -/
def step (e : Env) (s : Sys) : Action → Option (Sys × List Event × Option Ret)
  | .call c => (c.start e s.election).map (apply s.pending)
  | .resume i => (s.pending.get? i).bind fun p =>
    (p.resume e s.election).map (apply (s.pending.eraseIdx i))

/-- The actions in order, all under one environment. -/
def run (e : Env) : Sys → List Action → Option (Sys × List Event)
  | s, [] => some (s, [])
  | s, a :: as => (s.step e a).bind fun r => (run e r.1 as).map fun r' => (r'.1, r.2.1 ++ r'.2)

end Sys

/-! ### What a step can be -/

section Cases

variable {e : Env} {s : Election} {o : Outcome}

/-- The first step of a call, by the call. -/
theorem Call.start_cases {c : Call} (h : c.start e s = some o) :
    (∃ rep t hh src r, c = .vote rep t hh src ∧ s.vote e rep t hh src = some r ∧
      o.election = r.1 ∧ o.events = r.2.1) ∨
    (∃ b, c = .publish b ∧ o.election = (s.publishLocked e b).2.1 ∧
      o.events = (s.publishLocked e b).2.2) ∨
    (o.election = s ∧ o.events = []) ∨
    (o.election = s.transitionActive e ∧ o.events = []) ∨
    (∃ type, o.election = (s.confirmOnce e type).1 ∧ o.events = (s.confirmOnce e type).2) := by
  cases c with
  | vote rep t hh src =>
    obtain ⟨r, hr, rfl⟩ := Option.map_eq_some'.mp h
    exact .inl ⟨rep, t, hh, src, r, rfl, hr, rfl, rfl⟩
  | publish b =>
    simp only [Call.start] at h
    refine .inr (.inl ⟨b, rfl, ?_⟩)
    split at h <;> cases h <;> rename_i heq <;> rw [heq] <;> exact ⟨rfl, rfl⟩
  | transitionTime => cases h; exact .inr (.inr (.inl ⟨rfl, rfl⟩))
  | transitionActive => cases h; exact .inr (.inr (.inr (.inl ⟨rfl, rfl⟩)))
  | forceConfirm type =>
    simp only [Call.start, Election.forceConfirm] at h
    split at h
    · obtain ⟨r, hr, rfl⟩ := Option.map_eq_some'.mp h
      cases hr; exact .inr (.inr (.inr (.inr ⟨type, rfl, rfl⟩)))
    · cases h

/-- A later step of a call, by where the call waited. -/
theorem Pending.resume_cases {p : Pending} (h : p.resume e s = some o) :
    (o.election = (s.quorumTail e).1 ∧ o.events = (s.quorumTail e).2) ∨
    (∃ b w sorted, o.election = s ∧ o.events = (s.replacePick e b w sorted).2) ∨
    (∃ b x, p = .replaceRelock b x ∧ o.election = (s.replaceRelock b x).2.1 ∧
      o.events = (s.replaceRelock b x).2.2) ∨
    (∃ q r, s.timeStep e q = some r ∧ o.election = r.1 ∧ o.events = r.2.1) := by
  cases p with
  | vote => cases h; exact .inl ⟨rfl, rfl⟩
  | replacePick b w sorted => cases h; exact .inr (.inl ⟨b, w, sorted, rfl, rfl⟩)
  | replaceRelock b x => cases h; exact .inr (.inr (.inl ⟨b, x, rfl, rfl, rfl⟩))
  | time q =>
    obtain ⟨r, hr, rfl⟩ := Option.map_eq_some'.mp h
    refine .inr (.inr (.inr ⟨q, r, hr, ?_⟩))
    split <;> exact ⟨rfl, rfl⟩

/-- A step of the system: a call starts, or a waiting call takes its next step. -/
theorem Sys.step_cases {s : Sys} {a : Action} {r : Sys × List Event × Option Ret}
    (h : s.step e a = some r) :
    (∃ c o, a = .call c ∧ c.start e s.election = some o ∧ r.1.election = o.election ∧
      r.2.1 = o.events) ∨
    (∃ i p o, a = .resume i ∧ s.pending.get? i = some p ∧ p.resume e s.election = some o ∧
      r.1.election = o.election ∧ r.2.1 = o.events) := by
  cases a with
  | call c =>
    obtain ⟨o, ho, rfl⟩ := Option.map_eq_some'.mp h
    exact .inl ⟨c, o, rfl, ho, rfl, rfl⟩
  | resume i =>
    obtain ⟨p, hp, h'⟩ := Option.bind_eq_some.mp h
    obtain ⟨o, ho, rfl⟩ := Option.map_eq_some'.mp h'
    exact .inr ⟨i, p, o, rfl, hp, ho, rfl, rfl⟩

end Cases

/-- The systems some order of steps reaches from a new election. -/
inductive Reachable : Sys → Prop
  | init (e : Env) (b : Block) (behavior : ElectionBehavior) : Reachable (Sys.init e b behavior)
  | step {s : Sys} {e : Env} {a : Action} {r : Sys × List Event × Option Ret} :
      Reachable s → s.step e a = some r → Reachable r.1

/-- Steps one after another, each under its own environment, each allowed by `keep`,
which sees the environment, the action, and the system before and after. -/
inductive Steps (keep : Env → Action → Sys → Sys → Prop) : Sys → Sys → Prop
  | refl (s : Sys) : Steps keep s s
  | tail {s s₁ : Sys} {e : Env} {a : Action} {r : Sys × List Event × Option Ret} :
      Steps keep s s₁ → s₁.step e a = some r → keep e a s₁ r.1 → Steps keep s r.1

theorem Reachable.steps {keep : Env → Action → Sys → Sys → Prop} {s s' : Sys} (hs : Reachable s)
    (h : Steps keep s s') : Reachable s' := by
  induction h with
  | refl => exact hs
  | tail _ h₁ _ ih => exact ih.step h₁

theorem Reachable.run {e : Env} :
    ∀ {s : Sys} {as : List Action} {r : Sys × List Event}, Reachable s → s.run e as = some r →
      Reachable r.1
  | s, [], r, hs, h => by simp only [Sys.run, Option.some.injEq] at h; subst h; exact hs
  | s, a :: as, r, hs, h => by
    simp only [Sys.run, Option.bind_eq_some, Option.map_eq_some'] at h
    obtain ⟨r₁, h₁, r₂, h₂, rfl⟩ := h
    exact Reachable.run (r := r₂) (hs.step h₁) h₂

/-- A run from a new election that ends where `P` holds shows a reachable system
where it holds. -/
theorem Reachable.exists_of_run (e₀ : Env) (b : Block) (behavior : ElectionBehavior) (e : Env)
    (as : List Action) {P : Sys → Prop} [DecidablePred P]
    (h : ((Sys.init e₀ b behavior).run e as).any (fun r => decide (P r.1)) = true) :
    ∃ s, Reachable s ∧ P s := by
  cases hr : (Sys.init e₀ b behavior).run e as with
  | none => rw [hr] at h; cases h
  | some r => rw [hr] at h; exact ⟨r.1, (Reachable.init e₀ b behavior).run hr, of_decide_eq_true h⟩

end Nano
