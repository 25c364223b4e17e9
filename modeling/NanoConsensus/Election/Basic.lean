/-
An election as a record, and the node around it.

`nano::election` keeps its state in member fields guarded by one mutex, with
`state_m` an atomic that some paths write without it.  `Election` holds the
fields the modelled functions read or write.  What the election reads from the
rest of the node — the ledger, the online weight, the clocks, the vote history,
the inactive vote cache — is an `Env`, supplied afresh at every step: between two
steps of an election anything else in the node may have run.  What it hands to
the rest of the node — forced blocks, confirmation callbacks, vote requests — is
an `Event`.

Times are milliseconds of `steady_clock` (and, for `election_end`, of
`system_clock`).
-/
import NanoConsensus.Types

namespace Nano

/-- `nano::election::state_t`. -/
inductive ElectionState
  | passive
  | active
  | confirmed
  | expiredConfirmed
  | expiredUnconfirmed
deriving DecidableEq, Repr

/-- `election::valid_change`: the six transitions the state machine allows. -/
def validChange : ElectionState → ElectionState → Bool
  | .passive, .active => true
  | .passive, .confirmed => true
  | .passive, .expiredUnconfirmed => true
  | .active, .confirmed => true
  | .active, .expiredUnconfirmed => true
  | .confirmed, .expiredConfirmed => true
  | _, _ => false

/-- The two states `valid_change` never leaves. -/
def ElectionState.terminal : ElectionState → Bool
  | .expiredConfirmed | .expiredUnconfirmed => true
  | _ => false

theorem validChange_not_terminal {a b : ElectionState} (h : validChange a b = true) :
    a.terminal = false := by
  cases a <;> cases b <;> simp_all [validChange, ElectionState.terminal]

/-- `nano::election_behavior`. -/
inductive ElectionBehavior
  | normal
  | hinted
  | optimistic
deriving DecidableEq, Repr

/-- The values of `nano::election_status_type` the election itself writes. -/
inductive StatusType
  | ongoing
  | activeConfirmedQuorum
  | stopped
deriving DecidableEq, Repr

/-- `nano::election_status`, the summary handed to `process_confirmed`. -/
structure ElectionStatus where
  winner : Block
  tally : Nat
  finalTally : Nat
  electionEnd : Int
  electionDuration : Int
  confirmationRequestCount : Nat
  blockCount : Nat
  voterCount : Nat
  statusType : StatusType
deriving DecidableEq, Repr

/-- The fields of `nano::election` that its modelled functions use. -/
structure Election where
  /-- `state_m` -/
  state : ElectionState
  stateStart : Int
  status : ElectionStatus
  lastVotes : VoteMap
  lastBlocks : BlockMap
  lastTally : WeightMap
  finalWeight : Nat
  isQuorum : Bool
  confirmationRequestCount : Nat
  electionStart : Int
  /-- When `broadcast_vote` last voted. -/
  lastVote : Int
  /-- When `broadcast_block` last flooded the winner. -/
  lastBlock : Int
  lastReq : Int
  behavior : ElectionBehavior

/-- What the election reads from the node during one step. -/
structure Env where
  now : Int
  systemNow : Int
  isDevNetwork : Bool
  /-- `ledger.weight (account)` -/
  weight : Account → Nat
  /-- `node.block_confirmed (hash)` -/
  blockConfirmed : BlockHash → Bool
  /-- `ledger.cache.final_votes_confirmation_canary ()` -/
  canary : Bool
  /-- `online_reps.delta ()` -/
  delta : Nat
  /-- `online_reps.trended ()` -/
  trended : Nat
  minimumPrincipalWeight : Nat
  /-- `config.enable_voting` -/
  enableVoting : Bool
  /-- `wallets.reps ().voting` -/
  votingReps : Nat
  /-- Whether `active.election_winner_details` has an entry for the hash. -/
  winnerDetails : BlockHash → Bool
  /-- The voters of `history.votes (root, hash)`, the node's own votes. -/
  history : BlockHash → List Account
  /-- The tally of `inactive_vote_cache.find (hash)`, 0 when there is none. -/
  inactiveTally : BlockHash → Nat
  /-- `network.vote_broadcast_interval` -/
  voteBroadcastInterval : Int
  /-- `election::passive_duration_factor`, a constant of the header. -/
  passiveDurationFactor : Nat
  /-- What `solicitor.broadcast (*this)` returns (true on failure). -/
  solicitorBroadcast : Bool
  /-- What `solicitor.add (*this)` returns (true on failure). -/
  solicitorAdd : Bool
  /-- `logging.election_expiration_tally_logging ()`, under which expiry tallies. -/
  expirationTallyLogging : Bool

/-- A call the election makes on the rest of the node. -/
inductive Event
  /-- `block_processor.force (block)` -/
  | force (b : Block)
  /-- `node.background (...)`: `process_confirmed (status)`, then `confirmation_action`. -/
  | confirmed (status : ElectionStatus)
  /-- `election_winner_details.emplace (hash, ...)` -/
  | winnerDetails (h : BlockHash)
  /-- `final_generator.add (root, hash)` -/
  | finalVote (h : BlockHash)
  /-- `generator.add (root, hash)` -/
  | normalVote (h : BlockHash)
  /-- `live_vote_action (rep)` -/
  | liveVote (rep : Account)
  /-- `history.erase (root)` -/
  | historyErase
  /-- `network.flood_block (block)` -/
  | floodBlock (b : Block)
  /-- `publish_filter->clear (block)` -/
  | filterClear (b : Block)
  /-- `active.erase_hash (hash)` -/
  | eraseHash (h : BlockHash)
  /-- `solicitor.broadcast (*this)` -/
  | broadcastWinner
  /-- `solicitor.add (*this)` -/
  | confirmReq
deriving DecidableEq, Repr

/-- The call that announces a confirmation. -/
def Event.isConfirmed : Event → Bool
  | .confirmed _ => true
  | _ => false

namespace Election

/-- Modelled from the spec: the member initialisers of `election.hpp`, which is not
in the sources; the constructor's body is `election::election (node, block, ...)`.
The state starts `passive`, as the spec's lifecycle has it, the clocks at the time of
construction and the counters at 0. -/
def new (e : Env) (b : Block) (behavior : ElectionBehavior) : Election where
  state := .passive
  stateStart := e.now
  status :=
    { winner := b, tally := 0, finalTally := 0, electionEnd := e.systemNow,
      electionDuration := 0, confirmationRequestCount := 0, blockCount := 1,
      voterCount := 0, statusType := .ongoing }
  lastVotes := (∅ : VoteMap).insert 0 ⟨e.now, 0, b.hash⟩
  lastBlocks := BlockMap.single b
  lastTally := ∅
  finalWeight := 0
  isQuorum := false
  confirmationRequestCount := 0
  electionStart := e.now
  lastVote := e.now
  lastBlock := e.now
  lastReq := e.now
  behavior := behavior

/-- `election::state_change`: `false` when `state_m` moved from `expected` to
`desired`, `true` when the change was refused or `state_m` was elsewhere. -/
def stateChange (e : Env) (s : Election) (expected desired : ElectionState) :
    Bool × Election :=
  if validChange expected desired ∧ s.state = expected then
    (false, { s with state := desired, stateStart := e.now })
  else (true, s)

/-- `election::confirmed (lock)`: the ledger's word on the current winner. -/
def confirmed (e : Env) (s : Election) : Bool := e.blockConfirmed s.status.winner.hash

/-- `election::status_confirmed ()`. -/
def statusConfirmed (s : Election) : Bool :=
  s.state = .confirmed || s.state = .expiredConfirmed

/-- `election::failed ()`. -/
def failed (s : Election) : Bool := s.state = .expiredUnconfirmed

/-- `election::base_latency ()`. -/
def baseLatency (e : Env) : Int := if e.isDevNetwork then 25 else 1000

/-- `election::confirm_req_time ()`. -/
def confirmReqTime (e : Env) (s : Election) : Int :=
  match s.behavior with
  | .normal | .hinted => baseLatency e * 5
  | .optimistic => baseLatency e * 2

/-- `election::time_to_live ()`. -/
def timeToLive (s : Election) : Int :=
  match s.behavior with
  | .normal => 5 * 60 * 1000
  | .hinted | .optimistic => 30 * 1000

/-- `election::cooldown_time (weight)`, in milliseconds. -/
def cooldownTime (e : Env) (weight : Nat) : Int :=
  if weight > e.trended / 20 then 1000
  else if weight > e.trended / 100 then 5000
  else 15000

/-- The winner is one of the candidates, the very block filed under its hash. -/
def WinnerStored (s : Election) : Prop := s.lastBlocks.find s.status.winner.hash = some s.status.winner

theorem stateChange_state (e : Env) (s : Election) (a b : ElectionState) :
    (stateChange e s a b).2.state =
      if validChange a b ∧ s.state = a then b else s.state := by
  unfold stateChange; split <;> rfl

/-- A `state_change` that moves `state_m` makes one of the six valid changes. -/
theorem stateChange_valid (e : Env) (s : Election) (a b : ElectionState) :
    (stateChange e s a b).2.state = s.state ∨ validChange s.state (stateChange e s a b).2.state := by
  rw [stateChange_state]
  split
  · rename_i h; exact .inr (h.2 ▸ h.1)
  · exact .inl rfl

@[simp] theorem stateChange_lastBlocks (e : Env) (s : Election) (a b : ElectionState) :
    (stateChange e s a b).2.lastBlocks = s.lastBlocks := by
  unfold stateChange; split <;> rfl

@[simp] theorem stateChange_lastVotes (e : Env) (s : Election) (a b : ElectionState) :
    (stateChange e s a b).2.lastVotes = s.lastVotes := by
  unfold stateChange; split <;> rfl

@[simp] theorem stateChange_status (e : Env) (s : Election) (a b : ElectionState) :
    (stateChange e s a b).2.status = s.status := by
  unfold stateChange; split <;> rfl

end Election

end Nano
