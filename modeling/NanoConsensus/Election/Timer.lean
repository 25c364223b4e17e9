/-
The periodic tick: `transition_time` and what it calls.

`transition_time` reads `state_m` once and acts on what it read: a passive election
becomes active when its passive time is over, an active one rebroadcasts its
winner, votes and asks for confirmations, and a confirmed one moves to
`expired_confirmed`.  Whatever it read, it then asks the ledger whether the winner
is confirmed and, if not and the election is past its time to live, takes the
lock and moves `state_m` to `expired_unconfirmed` from wherever it is.

The read, each locked section, and each write of `state_m` are steps of their own,
so `TimeStep` names the places between them.  The last section reads and writes
`state_m` under the lock, and is one step.
-/
import NanoConsensus.Election.Publish

namespace Nano

namespace Election

/-- `election::broadcast_vote_impl`: a node that votes asks for a final vote once the
winner is confirmed or has quorum, and for a normal vote otherwise.  `none` is
`have_quorum` on an empty tally. -/
def broadcastVoteImpl (e : Env) (s : Election) : Option (Election × List Event) :=
  if e.enableVoting ∧ 0 < e.votingReps then
    if s.confirmed e then some (s, [.finalVote s.status.winner.hash])
    else match (s.tallyImpl e).1.entries with
      | [] => none
      | _ =>
        if haveQuorum (s.tallyImpl e).1 e.delta then
          some ((s.tallyImpl e).2, [.finalVote s.status.winner.hash])
        else some ((s.tallyImpl e).2, [.normalVote s.status.winner.hash])
  else some (s, [])

/-- `election::broadcast_vote`. -/
def broadcastVote (e : Env) (s : Election) : Option (Election × List Event) :=
  if s.lastVote + e.voteBroadcastInterval < e.now then
    (broadcastVoteImpl e s).map fun r => ({ r.1 with lastVote := e.now }, r.2)
  else some (s, [])

/-- `election::broadcast_block`. -/
def broadcastBlock (e : Env) (s : Election) : Election × List Event :=
  if baseLatency e * 15 < e.now - s.lastBlock then
    (if e.solicitorBroadcast then s else { s with lastBlock := e.now }, [.broadcastWinner])
  else (s, [])

/-- `election::send_confirm_req`. -/
def sendConfirmReq (e : Env) (s : Election) : Election × List Event :=
  if confirmReqTime e s < e.now - s.lastReq then
    (if e.solicitorAdd then s
      else { s with lastReq := e.now, confirmationRequestCount := s.confirmationRequestCount + 1 },
      [.confirmReq])
  else (s, [])

/-- `election::transition_active ()`. -/
def transitionActive (e : Env) (s : Election) : Election := (s.stateChange e .passive .active).2

/-- `election::force_confirm (type)`, which only a dev network may call. -/
def forceConfirm (e : Env) (s : Election) (type : StatusType) : Option (Election × List Event) :=
  if e.isDevNetwork then some (s.confirmOnce e type) else none

end Election

/-- Where a `transition_time` call stands between two of its steps. -/
inductive TimeStep
  /-- `switch (state_m)` read this state. -/
  | switch (seen : ElectionState)
  /-- Active: `broadcast_vote` is done, `broadcast_block` is next. -/
  | broadcastBlock
  /-- Active: `send_confirm_req` is next. -/
  | confirmReq
  /-- The switch is over, with this `result`; the expiry check is next. -/
  | expiry (result : Bool)
  /-- The expiry check passed; the locked `state_change` to `expired_unconfirmed` is next. -/
  | expire (result : Bool)
deriving DecidableEq, Repr

namespace Election

/-- One step of `transition_time` from `p`: the next place, or the value it returns. -/
def timeStep (e : Env) (s : Election) : TimeStep → Option (Election × List Event × (TimeStep ⊕ Bool))
  | .switch .passive =>
    let s := if baseLatency e * e.passiveDurationFactor < e.now - s.stateStart
      then (s.stateChange e .passive .active).2 else s
    some (s, [], .inl (.expiry false))
  | .switch .active => (broadcastVote e s).map fun r => (r.1, r.2, .inl .broadcastBlock)
  | .switch .confirmed => some ((s.stateChange e .confirmed .expiredConfirmed).2, [], .inl (.expiry true))
  | .switch .expiredUnconfirmed | .switch .expiredConfirmed => some (s, [], .inl (.expiry false))
  | .broadcastBlock => some ((broadcastBlock e s).1, (broadcastBlock e s).2, .inl .confirmReq)
  | .confirmReq => some ((sendConfirmReq e s).1, (sendConfirmReq e s).2, .inl (.expiry false))
  | .expiry result =>
    if !s.confirmed e && decide (s.timeToLive < e.now - s.electionStart)
    then some (s, [], .inl (.expire result))
    else some (s, [], .inr result)
  | .expire result =>
    match s.stateChange e s.state .expiredUnconfirmed with
    | (false, s) =>
      let s := if e.expirationTallyLogging then (s.tallyImpl e).2 else s
      some ({ s with status := { s.status with statusType := .stopped } }, [], .inr true)
    | (true, s) => some (s, [], .inr result)

/-! ### What each step changes -/

section Frame

variable {e : Env} {s : Election}

/-- The fields of the record a step of `transition_time` keeps. -/
structure KeepsCore (s s' : Election) : Prop where
  lastBlocks : s'.lastBlocks = s.lastBlocks
  winner : s'.status.winner = s.status.winner
  lastVotes : s'.lastVotes = s.lastVotes

theorem KeepsCore.refl (s : Election) : KeepsCore s s := ⟨rfl, rfl, rfl⟩

theorem KeepsCore.stateChange (a b : ElectionState) : KeepsCore s (s.stateChange e a b).2 :=
  ⟨by simp, by simp, by simp⟩

@[simp] theorem broadcastBlock_state : (broadcastBlock e s).1.state = s.state := by
  unfold broadcastBlock; split <;> (try split) <;> rfl

@[simp] theorem sendConfirmReq_state : (sendConfirmReq e s).1.state = s.state := by
  unfold sendConfirmReq; split <;> (try split) <;> rfl

theorem broadcastVote_frame {r : Election × List Event} (h : broadcastVote e s = some r) :
    KeepsCore s r.1 ∧ r.1.state = s.state ∧ ∀ st, Event.confirmed st ∉ r.2 := by
  unfold broadcastVote broadcastVoteImpl at h
  split at h
  · obtain ⟨r', h', rfl⟩ := Option.map_eq_some'.mp h
    split at h' <;> (try split at h') <;> (try split at h' <;> (try split at h')) <;>
      cases h' <;> exact ⟨⟨rfl, rfl, rfl⟩, rfl, by simp⟩
  · cases h; exact ⟨KeepsCore.refl s, rfl, by simp⟩

/-- A step of `transition_time` keeps the candidates, the winner and the votes, moves
`state_m` only by a valid change, and confirms nothing. -/
theorem timeStep_frame {p : TimeStep} {r : Election × List Event × (TimeStep ⊕ Bool)}
    (h : timeStep e s p = some r) :
    KeepsCore s r.1 ∧ (r.1.state = s.state ∨ validChange s.state r.1.state) ∧
      ∀ st, Event.confirmed st ∉ r.2.1 := by
  have hsc := stateChange_valid e s
  cases p with
  | switch seen =>
    cases seen <;> simp only [timeStep, Option.some.injEq] at h
    · subst h; split
      · exact ⟨.stateChange _ _, hsc _ _, by simp⟩
      · exact ⟨.refl s, .inl rfl, by simp⟩
    · obtain ⟨r', h', rfl⟩ := Option.map_eq_some'.mp h
      obtain ⟨hk, hs, hc⟩ := broadcastVote_frame h'
      exact ⟨hk, .inl hs, hc⟩
    · subst h; exact ⟨.stateChange _ _, hsc _ _, by simp⟩
    all_goals subst h; exact ⟨.refl s, .inl rfl, by simp⟩
  | broadcastBlock =>
    simp only [timeStep, Option.some.injEq] at h; subst h
    unfold broadcastBlock; split <;> (try split) <;> exact ⟨⟨rfl, rfl, rfl⟩, .inl rfl, by simp⟩
  | confirmReq =>
    simp only [timeStep, Option.some.injEq] at h; subst h
    unfold sendConfirmReq; split <;> (try split) <;> exact ⟨⟨rfl, rfl, rfl⟩, .inl rfl, by simp⟩
  | expiry result =>
    simp only [timeStep] at h
    split at h <;> cases h <;> exact ⟨.refl s, .inl rfl, by simp⟩
  | expire result =>
    obtain ⟨c, s', hs'⟩ : ∃ c s', stateChange e s s.state .expiredUnconfirmed = (c, s') := ⟨_, _, rfl⟩
    have hv := hsc s.state .expiredUnconfirmed
    have hk : KeepsCore s s' := by simpa [hs'] using KeepsCore.stateChange (e := e) (s := s) s.state .expiredUnconfirmed
    rw [hs'] at hv
    simp only [timeStep, hs'] at h
    cases c <;> simp only [Option.some.injEq] at h <;> subst h
    · refine ⟨⟨?_, ?_, ?_⟩, ?_, by simp⟩ <;> split <;> simp [hk.lastBlocks, hk.winner, hk.lastVotes, hv]
    · exact ⟨hk, hv, by simp⟩

theorem transitionActive_frame :
    KeepsCore s (s.transitionActive e) ∧
      ((s.transitionActive e).state = s.state ∨ validChange s.state (s.transitionActive e).state) :=
  ⟨.stateChange _ _, stateChange_valid e s _ _⟩

end Frame

end Election

end Nano
