/-
What holds of an election over every interleaving of calls.

Every atomic step of every call is summed up once, by `Election.StepOK`: the winner
stays the candidate filed under its hash, `state_m` stays put, makes one of the six
valid changes or is set to `confirmed` (the exchange in `confirm_once`), and a
confirmation is announced only by a step that moves `state_m` to `confirmed` from
another state.  `Sys.step_ok` proves it of every step; the invariants over runs
follow by induction on `Reachable` or on `Steps`.

The entries of `last_votes` get a step lemma of their own, `Sys.step_votes`: an
entry stays, is erased, or is replaced by an accepted vote of its voter.
-/
import NanoConsensus.Election.System

namespace Nano

namespace Election

variable {e : Env} {s s' : Election} {events : List Event}

/-- What one step does to the record, as far as the invariants go. -/
structure StepOK (s s' : Election) (events : List Event) : Prop where
  /-- The winner stays the block filed under its hash. -/
  winnerStored : s.WinnerStored → s'.WinnerStored
  /-- `state_m` stays, makes a valid change, or is set to `confirmed`. -/
  state : s'.state = s.state ∨ validChange s.state s'.state ∨ s'.state = .confirmed
  /-- Only a step that moves `state_m` to `confirmed` from elsewhere announces a
  confirmation. -/
  confirmedEvent : ∀ st, Event.confirmed st ∈ events → s.state ≠ .confirmed ∧ s'.state = .confirmed
  /-- A step that changes the winner's hash forces the new winner. -/
  winner : s'.status.winner.hash = s.status.winner.hash ∨ Event.force s'.status.winner ∈ events

theorem StepOK.of_frame (hw : s.WinnerStored → s'.WinnerStored)
    (hs : s'.state = s.state ∨ validChange s.state s'.state) (hc : ∀ st, Event.confirmed st ∉ events)
    (hwin : s'.status.winner.hash = s.status.winner.hash) : StepOK s s' events :=
  ⟨hw, hs.imp_right .inl, fun st h => absurd h (hc st), .inl hwin⟩

theorem StepOK.refl (s : Election) : StepOK s s [] := .of_frame id (.inl rfl) (by simp) rfl

theorem winnerStored_of_keeps (h : KeepsCore s s') (hw : s.WinnerStored) : s'.WinnerStored := by
  unfold WinnerStored; rw [h.lastBlocks, h.winner]; exact hw

theorem confirmOnce_ok (type : StatusType) : StepOK s (s.confirmOnce e type).1 (s.confirmOnce e type).2 :=
  ⟨fun hw => by unfold WinnerStored; simpa using hw, .inr (.inr (confirmOnce_state _)),
    fun _ h => ⟨confirmOnce_confirmedEvent h, confirmOnce_state _⟩, .inl (by simp)⟩

theorem quorumTail_ok : StepOK s (quorumTail e s).1 (quorumTail e s).2 :=
  ⟨fun hw => by unfold WinnerStored; simpa using hw, quorumTail_state.imp_right .inr,
    fun _ h => quorumTail_confirmedEvent h, .inl (by simp)⟩

theorem confirmIfQuorum_ok {r : Election × List Event × Bool} (h : confirmIfQuorum e s = some r) :
    StepOK s r.1 r.2.1 := by
  obtain ⟨-, hb, hw, hs⟩ := confirmIfQuorum_frame h
  refine ⟨fun hws => ?_, hs.imp_right .inr, fun _ hc => confirmIfQuorum_confirmedEvent h hc,
    (confirmIfQuorum_force h).imp_left (congrArg Block.hash)⟩
  unfold WinnerStored at *
  rw [hb]
  rcases hw with hw | hw
  · rw [hw]; exact hws
  · exact hw

theorem vote_ok {rep : Account} {t : UInt64} {h : BlockHash} {src : VoteSource}
    {r : Election × List Event × Bool} (hr : s.vote e rep t h src = some r) : StepOK s r.1 r.2.1 := by
  by_cases ha : Accepts e s rep t h src
  · have hev : ∀ st, Event.confirmed st ∉ (match src with
        | .live => [Event.liveVote rep]
        | .cache => []) := by cases src <;> simp
    simp only [vote, voteCheck_eq_none.mpr ha] at hr
    split at hr
    · cases hr; exact .of_frame id (.inl rfl) hev rfl
    · obtain ⟨r', h', rfl⟩ := Option.map_eq_some'.mp hr
      have hok := confirmIfQuorum_ok h'
      refine ⟨hok.winnerStored, hok.state, fun st hc => ?_, hok.winner.imp_right (List.mem_append_right _)⟩
      rcases List.mem_append.mp hc with hc | hc
      · exact absurd hc (hev st)
      · exact hok.confirmedEvent st hc
  · rw [vote_rejected ha] at hr; cases hr; exact StepOK.refl s

end Election

open Election

variable {e : Env} {s : Election} {o : Outcome}

/-- The first step of any call. -/
theorem Call.start_ok {c : Call} (h : c.start e s = some o) : s.StepOK o.election o.events := by
  rcases Call.start_cases h with ⟨_, _, _, _, r, -, hr, h₁, h₂⟩ | ⟨b, -, h₁, h₂⟩ | ⟨h₁, h₂⟩ | ⟨h₁, h₂⟩ |
      ⟨type, h₁, h₂⟩ <;> rw [h₁, h₂]
  · exact vote_ok hr
  · obtain ⟨hwin, -, hs, hw⟩ := publishLocked_frame (e := e) (s := s) (b := b) rfl
    exact .of_frame hw (.inl hs) publishLocked_noConfirm hwin
  · exact StepOK.refl s
  · exact .of_frame (winnerStored_of_keeps transitionActive_frame.1) transitionActive_frame.2 (by simp)
      (by rw [transitionActive_frame.1.winner])
  · exact confirmOnce_ok type

/-- A later step of any call. -/
theorem Pending.resume_ok {p : Pending} (h : p.resume e s = some o) : s.StepOK o.election o.events := by
  rcases Pending.resume_cases h with ⟨h₁, h₂⟩ | ⟨b, w, sorted, h₁, h₂⟩ | ⟨b, x, -, h₁, h₂⟩ |
      ⟨q, r, hr, h₁, h₂⟩ <;> rw [h₁, h₂]
  · exact quorumTail_ok
  · exact .of_frame id (.inl rfl) (replacePick_noConfirm w sorted) rfl
  · obtain ⟨hwin, -, hs, hw⟩ := replaceRelock_frame (s := s) (b := b) x
    exact .of_frame hw (.inl hs) (replaceRelock_noConfirm x) hwin
  · obtain ⟨hk, hs, hc⟩ := timeStep_frame hr
    exact .of_frame (winnerStored_of_keeps hk) hs hc (by rw [hk.winner])

/-- **Every step is a `StepOK` step.** -/
theorem Sys.step_ok {s : Sys} {a : Action} {r : Sys × List Event × Option Ret}
    (h : s.step e a = some r) : s.election.StepOK r.1.election r.2.1 := by
  rcases Sys.step_cases h with ⟨c, o, -, ho, h₁, h₂⟩ | ⟨i, p, o, -, -, ho, h₁, h₂⟩ <;> rw [h₁, h₂]
  · exact Call.start_ok ho
  · exact Pending.resume_ok ho

/-! ### The winner among the candidates -/

theorem Reachable.winnerStored {s : Sys} (h : Reachable s) : s.election.WinnerStored := by
  induction h with
  | init e b behavior => simp [Sys.init, Election.new, WinnerStored, BlockMap.single]
  | step _ hs ih => exact (Sys.step_ok hs).winnerStored ih

/-- **The winner is always a candidate.**  Whatever the calls and their order, the
winner's hash is a key of `last_blocks`. -/
theorem winner_mem_lastBlocks {s : Sys} (h : Reachable s) :
    s.election.status.winner.hash ∈ s.election.lastBlocks :=
  BlockMap.mem_iff_find.mpr ⟨_, h.winnerStored⟩

/-- A voting node with no vote history of its own, where voter `a` weighs `10 a` and
every new block has an inactive-cache tally of 1000. -/
def revoteEnv (now : Int) : Env where
  now := now
  systemNow := 0
  isDevNetwork := false
  weight a := a * 10
  blockConfirmed _ := false
  canary := false
  delta := 50
  trended := 1000
  minimumPrincipalWeight := 0
  enableVoting := true
  votingReps := 1
  winnerDetails _ := false
  history _ := []
  inactiveTally _ := 1000
  voteBroadcastInterval := 0
  passiveDurationFactor := 5
  solicitorBroadcast := false
  solicitorAdd := false
  expirationTallyLogging := false

/-- Blocks 2 to 10 fill the set, and voter `i` votes for block `i`, each vote moving the
winner up, to block 10.  Block 11's `replace_by_weight` picks block 1, the lightest, and
drops the lock.  In that window voters 10 down to 2 vote again, from the cache, for
hash 99, which is no candidate: the winner moves down to block 3.  The relock removes
block 1, and the constructor's placeholder vote with it, and adds block 11. -/
def revoteRun : List Action :=
  (List.range 9).map (fun i => Action.call (.publish ⟨i + 2, 0⟩)) ++
    (List.range 9).map (fun i => Action.call (.vote (i + 2) 1 (i + 2) .live)) ++
    [.call (.publish ⟨11, 0⟩)] ++
    (List.range 9).map (fun i => Action.call (.vote (10 - i) 2 99 .cache)) ++ [.resume 0, .resume 0]

/-- After winner switches up to block 10 and down to block 3, and the replacement of
block 1, the winner is a candidate. -/
theorem winner_mem_afterRevotes :
    ∃ s, Reachable s ∧ s.election.status.winner.hash = 3 ∧ 1 ∉ s.election.lastBlocks ∧
      11 ∈ s.election.lastBlocks ∧ s.election.status.winner.hash ∈ s.election.lastBlocks := by
  obtain ⟨s, hs, h3, h1, h11⟩ := Reachable.exists_of_run (revoteEnv 0) ⟨1, 0⟩ .normal (revoteEnv 0) revoteRun
    (P := fun s => s.election.status.winner.hash = 3 ∧ 1 ∉ s.election.lastBlocks ∧ 11 ∈ s.election.lastBlocks)
    (by decide)
  exact ⟨s, hs, h3, h1, h11, winner_mem_lastBlocks hs⟩

/-! ### A voter's entry -/

theorem Call.start_votes {c : Call} (h : c.start e s = some o) (x : Account) :
    o.election.lastVotes.lookup x = s.lastVotes.lookup x ∨ o.election.lastVotes.lookup x = none ∨
      ∃ t hh src, c = .vote x t hh src ∧ s.Accepts e x t hh src ∧
        o.election.lastVotes.lookup x = some ⟨e.now, t, hh⟩ := by
  rcases Call.start_cases h with ⟨rep, t, hh, src, r, rfl, hr, h₁, -⟩ | ⟨b, -, h₁, -⟩ | ⟨h₁, -⟩ |
      ⟨h₁, -⟩ | ⟨type, h₁, -⟩ <;> rw [h₁]
  · by_cases ha : s.Accepts e rep t hh src
    · rcases vote_shrinks ha hr x with hx | hx
      · rw [hx, storeVote_lookup]
        split
        · subst x; exact .inr (.inr ⟨t, hh, src, rfl, ha, rfl⟩)
        · exact .inl rfl
      · exact .inr (.inl hx)
    · rw [vote_rejected ha] at hr; cases hr; exact .inl rfl
  · exact .inl (by rw [(publishLocked_frame (e := e) (s := s) (b := b) rfl).2.1])
  · exact .inl rfl
  · exact .inl (by rw [transitionActive_frame.1.lastVotes])
  · exact .inl (by simp)

theorem Pending.resume_votes {p : Pending} (h : p.resume e s = some o) :
    Shrinks s.lastVotes o.election.lastVotes := by
  rcases Pending.resume_cases h with ⟨h₁, -⟩ | ⟨_, _, _, h₁, -⟩ | ⟨b, x, -, h₁, -⟩ | ⟨q, r, hr, h₁, -⟩ <;>
    rw [h₁]
  · simpa using Shrinks.refl _
  · exact Shrinks.refl _
  · exact (replaceRelock_frame x).2.1
  · rw [(timeStep_frame hr).1.lastVotes]; exact Shrinks.refl _

/-- **A voter's entry, step by step.**  Each step keeps it, erases it, or replaces it
with an accepted vote of that voter. -/
theorem Sys.step_votes {s : Sys} {a : Action} {r : Sys × List Event × Option Ret}
    (h : s.step e a = some r) (x : Account) :
    r.1.election.lastVotes.lookup x = s.election.lastVotes.lookup x ∨
      r.1.election.lastVotes.lookup x = none ∨
      ∃ t hh src, a = .call (.vote x t hh src) ∧ s.election.Accepts e x t hh src ∧
        r.1.election.lastVotes.lookup x = some ⟨e.now, t, hh⟩ := by
  rcases Sys.step_cases h with ⟨c, o, rfl, ho, h₁, -⟩ | ⟨i, p, o, -, -, ho, h₁, -⟩ <;> rw [h₁]
  · rcases Call.start_votes ho x with h' | h' | ⟨t, hh, src, rfl, ha, h'⟩
    · exact .inl h'
    · exact .inr (.inl h')
    · exact .inr (.inr ⟨t, hh, src, rfl, ha, h'⟩)
  · exact (Pending.resume_votes ho x).imp id .inl

section Voter

variable {rep : Account}

/-- The steps after which `rep` still has an entry. -/
def KeepsEntry (rep : Account) (_ : Env) (_ : Action) (_ s' : Sys) : Prop :=
  (s'.election.lastVotes.lookup rep).isSome

/-- The steps that are not an accepted vote of `rep`. -/
def NoVoteOf (rep : Account) (e : Env) (a : Action) (s _ : Sys) : Prop :=
  ∀ t h src, a = .call (.vote rep t h src) → ¬s.election.Accepts e rep t h src

/-- An accepted vote of `rep` that is still there after the step is what the step
stored, and it comes after the entry it replaced, past the voter's cooldown unless
it is final or replayed from the cache. -/
theorem Sys.step_vote_accepted {s : Sys} {t : UInt64} {hh : BlockHash} {src : VoteSource}
    {r : Sys × List Event × Option Ret} (h : s.step e (.call (.vote rep t hh src)) = some r)
    (ha : s.election.Accepts e rep t hh src) (hk : r.1.election.lastVotes.lookup rep ≠ none) :
    r.1.election.lastVotes.lookup rep = some ⟨e.now, t, hh⟩ ∧
      ∀ last, s.election.lastVotes.lookup rep = some last →
        Precedes last.timestamp last.hash t hh ∧
          (src = .live → t ≠ finalTimestamp → last.time ≤ e.now - cooldownTime e (e.weight rep)) := by
  refine ⟨?_, fun last hl => ⟨(ha.2 last hl).1, fun hsrc ht => ?_⟩⟩
  · obtain ⟨o, ho, rfl⟩ := Option.map_eq_some'.mp h
    obtain ⟨r', hr', rfl⟩ := Option.map_eq_some'.mp ho
    rcases vote_shrinks ha hr' rep with h' | h'
    · exact h'.trans (by rw [storeVote_lookup, if_pos rfl])
    · exact absurd h' hk
  · rcases (ha.2 last hl).2 with ⟨hf, -⟩ | hc | hc
    · exact absurd hf ht
    · rw [hsrc] at hc; cases hc
    · exact hc

/-- Along steps with no accepted vote of `rep`, its entry stays or is erased. -/
theorem Steps.votes_of_noVote {s s' : Sys} (h : Steps (NoVoteOf rep) s s') :
    s'.election.lastVotes.lookup rep = s.election.lastVotes.lookup rep ∨
      s'.election.lastVotes.lookup rep = none := by
  induction h with
  | refl => exact .inl rfl
  | tail _ hs hk ih =>
    rcases Sys.step_votes hs rep with h' | h' | ⟨t, hh, src, rfl, ha, -⟩
    · rw [h']; exact ih
    · exact .inr h'
    · exact absurd ha (hk t hh src rfl)

/-- While `rep` keeps an entry, its `(timestamp, hash)` only moves forward. -/
theorem Steps.votes_precede {s s' : Sys} (h : Steps (KeepsEntry rep) s s') {v : VoteInfo}
    (hv : s.election.lastVotes.lookup rep = some v) :
    ∃ v', s'.election.lastVotes.lookup rep = some v' ∧
      (v' = v ∨ Precedes v.timestamp v.hash v'.timestamp v'.hash) := by
  induction h with
  | refl => exact ⟨v, hv, .inl rfl⟩
  | tail _ hs hk ih =>
    obtain ⟨v₁, h₁, hv₁⟩ := ih
    rcases Sys.step_votes hs rep with h' | h' | ⟨t, hh, src, -, ha, h'⟩
    · exact ⟨v₁, h'.trans h₁, hv₁⟩
    · simp [KeepsEntry, h'] at hk
    · refine ⟨_, h', .inr ?_⟩
      have hp := (ha.2 v₁ h₁).1
      rcases hv₁ with rfl | hv₁
      · exact hp
      · exact hv₁.trans hp

/-- A final entry stays final while its voter keeps one, and its hash only grows: on
equal timestamps `election::vote` takes the larger hash, final or not. -/
theorem Steps.final_hash_le {s s' : Sys} (h : Steps (KeepsEntry rep) s s') {v : VoteInfo}
    (hv : s.election.lastVotes.lookup rep = some v) (hf : v.timestamp = finalTimestamp) :
    ∃ v', s'.election.lastVotes.lookup rep = some v' ∧ v'.timestamp = finalTimestamp ∧
      v.hash ≤ v'.hash := by
  obtain ⟨v', h', rfl | hp⟩ := h.votes_precede hv
  · exact ⟨_, h', hf, le_rfl⟩
  · rw [hf] at hp
    exact ⟨v', h', hp.final.1, hp.final.2.le⟩

/-- Voter 1's final vote for block 1, then its final vote for block 2 from the cache:
the entry stays final, and its hash grows. -/
theorem finalVote_hash_grows :
    ∃ s s' : Sys, Steps (KeepsEntry 1) s s' ∧ s.election.lastVotes.lookup 1 = some ⟨0, finalTimestamp, 1⟩ ∧
      s'.election.lastVotes.lookup 1 = some ⟨0, finalTimestamp, 2⟩ ∧
      ∃ v', s'.election.lastVotes.lookup 1 = some v' ∧ v'.timestamp = finalTimestamp ∧ (1 : BlockHash) ≤ v'.hash := by
  obtain ⟨s, -, hv, hstep⟩ := Reachable.exists_of_run tieEnv ⟨1, 0⟩ .normal tieEnv
    [.call (.vote 1 finalTimestamp 1 .live)]
    (P := fun s => s.election.lastVotes.lookup 1 = some ⟨0, finalTimestamp, 1⟩ ∧
      (s.step tieEnv (.call (.vote 1 finalTimestamp 2 .cache))).map (·.1.election.lastVotes.lookup 1) =
        some (some ⟨0, finalTimestamp, 2⟩)) (by decide)
  obtain ⟨r, hr, hl⟩ := Option.map_eq_some'.mp hstep
  have hsteps : Steps (KeepsEntry 1) s r.1 := .tail (.refl s) hr (by simp [KeepsEntry, hl])
  exact ⟨s, r.1, hsteps, hv, hl, Steps.final_hash_le hsteps hv rfl⟩

/-- Voter 1 votes final for block 1; its final vote for block 2, replayed from the
cache, then takes the entry's place. -/
theorem finalVote_superseded :
    ∃ s, Reachable s ∧ s.election.lastVotes.lookup 1 = some ⟨0, finalTimestamp, 1⟩ ∧
      (s.step tieEnv (.call (.vote 1 finalTimestamp 2 .cache))).map (·.1.election.lastVotes.lookup 1) =
        some (some ⟨0, finalTimestamp, 2⟩) :=
  Reachable.exists_of_run tieEnv ⟨1, 0⟩ .normal tieEnv [.call (.vote 1 finalTimestamp 1 .live)] (by decide)

end Voter

/-! ### How `state_m`, the winner and the announcements move

`Sys.step_ok` says how every step moves `state_m`, the winner and the announcements.
The runs below show what it leaves open: a ledger that has not yet cemented the
confirmed winner lets `vote` run `confirm_if_quorum` again, which switches the winner,
forces it, and confirms a second time, moving `state_m` from `expired_confirmed`
back to `confirmed`, a change `valid_change` refuses. -/

/-- A node whose ledger has not caught up: it reports no block confirmed, and holds
no winner details. -/
def lagEnv : Env where
  now := 0
  systemNow := 0
  isDevNetwork := false
  weight a := if a = 1 then 100 else if a = 2 then 200 else 0
  blockConfirmed _ := false
  canary := false
  delta := 50
  trended := 1000
  minimumPrincipalWeight := 0
  enableVoting := false
  votingReps := 0
  winnerDetails _ := false
  history _ := []
  inactiveTally _ := 0
  voteBroadcastInterval := 0
  passiveDurationFactor := 5
  solicitorBroadcast := false
  solicitorAdd := false
  expirationTallyLogging := false

/-- Voter 1 confirms the election's block; `transition_time` moves the election to
`expired_confirmed`; a second block is published. -/
def lagRun : Option (Sys × List Event) :=
  Sys.run lagEnv (Sys.init lagEnv ⟨1, 0⟩ .normal)
    [.call (.vote 1 1 1 .live), .call .transitionTime, .resume 0, .resume 0, .call (.publish ⟨2, 0⟩)]

/-- Then voter 2, heavier, votes for the second block. -/
def lagSwitch : Option (Sys × List Event × Option Ret) :=
  lagRun.bind fun r => r.1.step lagEnv (.call (.vote 2 1 2 .live))

theorem lagSwitch_reconfirms :
    lagRun.map (·.1.election.state) = some .expiredConfirmed ∧
      lagSwitch.map (·.1.election.state) = some .confirmed := by
  decide

theorem lagSwitch_confirms_twice :
    lagRun.map (fun r => r.2.countP Event.isConfirmed) = some 1 ∧
      lagSwitch.map (fun r => r.2.1.countP Event.isConfirmed) = some 1 := by
  decide

theorem lagSwitch_switches_winner :
    lagRun.map (fun r => (r.1.election.state, r.1.election.status.winner.hash)) =
        some (.expiredConfirmed, 1) ∧
      lagSwitch.map (fun r => (r.1.election.status.winner.hash, r.2.1.contains (.force ⟨2, 0⟩))) =
        some (2, true) := by
  decide

/-! ### The size of the candidate set

Every step but one keeps `last_blocks` within `max_blocks`: the relock of
`replace_by_weight` adds the new block after `remove_block`, whether or not the block
it picked was still there to remove (`Election.replaceRelock_size`).  It picks from a
copy of `last_tally`, which only `tally_impl` refreshes, so after one replacement and
no vote the copy still names the block just removed. -/

theorem Call.start_size {c : Call} (h : c.start e s = some o) (hs : s.lastBlocks.size ≤ maxBlocks) :
    o.election.lastBlocks.size ≤ maxBlocks := by
  rcases Call.start_cases h with ⟨_, _, _, _, r, -, hr, h₁, -⟩ | ⟨b, -, h₁, -⟩ | ⟨h₁, -⟩ | ⟨h₁, -⟩ |
      ⟨type, h₁, -⟩ <;> rw [h₁]
  · rw [vote_lastBlocks hr]; exact hs
  · exact publishLocked_size hs
  · exact hs
  · rw [transitionActive_frame.1.lastBlocks]; exact hs
  · simpa using hs

/-- **Only the relock of `replace_by_weight` fills the set past `max_blocks`.** -/
theorem Sys.step_size {s : Sys} {a : Action} {r : Sys × List Event × Option Ret}
    (h : s.step e a = some r) (hs : s.election.lastBlocks.size ≤ maxBlocks)
    (hrelock : ∀ i b x, a = .resume i → s.pending.get? i ≠ some (.replaceRelock b x)) :
    r.1.election.lastBlocks.size ≤ maxBlocks := by
  rcases Sys.step_cases h with ⟨c, o, -, ho, h₁, -⟩ | ⟨i, p, o, rfl, hp, ho, h₁, -⟩ <;> rw [h₁]
  · exact Call.start_size ho hs
  · rcases Pending.resume_cases ho with ⟨h₂, -⟩ | ⟨_, _, _, h₂, -⟩ | ⟨b, x, rfl, -⟩ | ⟨q, r', hr, h₂, -⟩
    · rw [h₂]; simpa using hs
    · rw [h₂]; exact hs
    · exact absurd hp (hrelock i b x rfl)
    · rw [h₂, (timeStep_frame hr).1.lastBlocks]; exact hs

/-- The steps other than the relock of `replace_by_weight`. -/
def NotRelock (_ : Env) (a : Action) (s _ : Sys) : Prop :=
  ∀ i b x, a = .resume i → s.pending.get? i ≠ some (.replaceRelock b x)

/-- **Only the relock of `replace_by_weight` overfills the candidate set.**  Over any
steps of any calls, in any order and under any node, none of which is that relock,
an election with at most `max_blocks` candidates keeps at most `max_blocks`. -/
theorem Steps.size_le {s s' : Sys} (h : Steps NotRelock s s') (hs : s.election.lastBlocks.size ≤ maxBlocks) :
    s'.election.lastBlocks.size ≤ maxBlocks := by
  induction h with
  | refl => exact hs
  | tail _ hst hk ih => exact Sys.step_size hst ih hk

/-- With the set full, the first step of `publish` for an eleventh block drops the
lock for `replace_by_weight` and adds nothing. -/
theorem fullSet_publish_size :
    ∃ s s' : Sys, Steps NotRelock s s' ∧ s.election.lastBlocks.size ≤ maxBlocks ∧
      s.election.lastBlocks.size = maxBlocks ∧ s'.pending.length = 1 ∧
      s'.election.lastBlocks.size ≤ maxBlocks := by
  obtain ⟨s, -, hsize, hstep⟩ := Reachable.exists_of_run (revoteEnv 0) ⟨1, 0⟩ .normal (revoteEnv 0)
    ((List.range 9).map fun i => Action.call (.publish ⟨i + 2, 0⟩))
    (P := fun s => s.election.lastBlocks.size = maxBlocks ∧
      (s.step (revoteEnv 0) (.call (.publish ⟨11, 0⟩))).map (·.1.pending.length) = some 1) (by decide)
  obtain ⟨r, hr, hlen⟩ := Option.map_eq_some'.mp hstep
  have hsteps : Steps NotRelock s r.1 := .tail (.refl s) hr fun _ _ _ h => by cases h
  exact ⟨s, r.1, hsteps, hsize.le, hsize, hlen, hsteps.size_le hsize.le⟩

/-- A node where every new block has an inactive-cache tally of 1000, above any of
the election's own. -/
def staleTallyEnv : Env where
  now := 0
  systemNow := 0
  isDevNetwork := false
  weight a := a * 10
  blockConfirmed _ := false
  canary := false
  delta := 1000000
  trended := 1000
  minimumPrincipalWeight := 0
  enableVoting := false
  votingReps := 0
  winnerDetails _ := false
  history _ := []
  inactiveTally _ := 1000
  voteBroadcastInterval := 0
  passiveDurationFactor := 5
  solicitorBroadcast := false
  solicitorAdd := false
  expirationTallyLogging := false

/-- Blocks 2 to 10 fill the set; voter `i` votes for block `i`, which fills
`last_tally`; block 11 replaces block 2; block 12 picks block 2 again from the
unrefreshed `last_tally`, removes nothing, and is added all the same. -/
def staleTallyRun : Option (Sys × List Event) :=
  Sys.run staleTallyEnv (Sys.init staleTallyEnv ⟨1, 0⟩ .normal)
    ((List.range 9).map (fun i => Action.call (.publish ⟨i + 2, 0⟩)) ++
      (List.range 10).map (fun i => Action.call (.vote (i + 1) 1 (i + 1) .live)) ++
      [.call (.publish ⟨11, 0⟩), .resume 0, .resume 0, .call (.publish ⟨12, 0⟩), .resume 0, .resume 0])

theorem staleTallyRun_overfills : staleTallyRun.map (·.1.election.lastBlocks.size) = some 11 := by
  decide

/-- The run up to the last relock: block 12's replacement has picked block 2, which is
no longer a candidate, while block 11, a candidate nobody voted for, has tally 0.
`replace_by_weight` then reports success, removes nothing, and block 12 joins the full
set. -/
theorem replaceByWeight_removes_nothing :
    ∃ s, Reachable s ∧ s.pending = [.replaceRelock ⟨12, 0⟩ 2] ∧ s.election.lastBlocks.size = maxBlocks ∧
      2 ∉ s.election.lastBlocks ∧ 11 ∈ s.election.lastBlocks ∧ s.election.weightFor staleTallyEnv 11 = 0 ∧
      (s.step staleTallyEnv (.resume 0)).map (fun r => (r.1.election.lastBlocks.size, r.2.2)) =
        some (maxBlocks + 1, some (Ret.publish false)) := by
  obtain ⟨s, hs, hp, hsize, h2, h11, hw, h12, hret⟩ := Reachable.exists_of_run staleTallyEnv ⟨1, 0⟩ .normal
    staleTallyEnv
    ((List.range 9).map (fun i => Action.call (.publish ⟨i + 2, 0⟩)) ++
      (List.range 10).map (fun i => Action.call (.vote (i + 1) 1 (i + 1) .live)) ++
      [.call (.publish ⟨11, 0⟩), .resume 0, .resume 0, .call (.publish ⟨12, 0⟩), .resume 0])
    (P := fun s => s.pending = [.replaceRelock ⟨12, 0⟩ 2] ∧ s.election.lastBlocks.size = maxBlocks ∧
      2 ∉ s.election.lastBlocks ∧ 11 ∈ s.election.lastBlocks ∧ s.election.weightFor staleTallyEnv 11 = 0 ∧
      12 ∉ s.election.lastBlocks ∧ (s.election.replaceRelock ⟨12, 0⟩ 2).1 = false) (by decide)
  -- the pick is gone, so the relock removes nothing and adds block 12
  have hcount := replaceRelock_size (s := s.election) (b := ⟨12, 0⟩) (by decide : (2 : BlockHash) ≠ 0) h12
  rw [if_neg fun h => h2 h.2, hsize, Nat.add_zero] at hcount
  refine ⟨s, hs, hp, hsize, h2, h11, hw, ?_⟩
  simp only [Sys.step, hp, List.get?, Option.some_bind, Pending.resume, Option.map_some', Sys.apply, hret, hcount]

/-! ### The final-vote gate

With the canary up, a vote confirms only when `final_weight` has reached `delta`.
But `tally_impl` sets `final_weight` only when the tally's first block has final
votes, so the value can be left from another block. -/

/-- A node with the final-votes canary up. -/
def staleFinalEnv : Env where
  now := 0
  systemNow := 0
  isDevNetwork := false
  weight a := if a = 1 then 150 else if a = 2 then 200 else if a = 3 then 90 else 0
  blockConfirmed _ := false
  canary := true
  delta := 100
  trended := 1000
  minimumPrincipalWeight := 0
  enableVoting := false
  votingReps := 0
  winnerDetails _ := false
  history _ := []
  inactiveTally _ := 0
  voteBroadcastInterval := 0
  passiveDurationFactor := 5
  solicitorBroadcast := false
  solicitorAdd := false
  expirationTallyLogging := false

/-- Block 2 is published; voter 3 votes for it; voter 1 votes final for block 1,
which sets `final_weight` to 150; voter 2 votes for block 2, which takes the lead
with no final vote, so `final_weight` stays 150. -/
def staleFinalRun : Option (Sys × List Event) :=
  Sys.run staleFinalEnv (Sys.init staleFinalEnv ⟨1, 0⟩ .normal)
    [.call (.publish ⟨2, 0⟩), .call (.vote 3 1 2 .live), .call (.vote 1 finalTimestamp 1 .live),
      .call (.vote 2 1 2 .live)]

theorem staleFinalRun_confirms_without_final_votes :
    staleFinalRun.map (fun r => (r.1.election.state, r.1.election.status.winner.hash,
      r.1.election.finalWeight, (finalWeights staleFinalEnv.weight r.1.election.lastVotes).lookup 2,
      r.2.countP Event.isConfirmed)) = some (.confirmed, 2, 150, none, 1) := by
  decide

/-! ### Confirming without the margin

`confirm_if_quorum` decides on `tally_l`, the tally it takes first: `have_quorum` on
its first two entries, and `tally_t` files blocks by weight, so two blocks of equal
weight share one entry.  The winner it confirms is then counted against `last_votes`
as it stands after the call's own `remove_votes`, or, when the call dropped its lock
around `final_generator.add`, after whatever ran in that window.  Each run below ends
with a step that announces a confirmation, after which blocks 1 and 2 are both
candidates and the winner does not lead the other by `delta`. -/

/-- What a step shows of an election with candidates 1 and 2. -/
structure QuorumView where
  /-- The confirmations the step announces. -/
  confirmations : Nat
  winner : BlockHash
  /-- Blocks 1 and 2 are both candidates after the step. -/
  bothCandidates : Bool
  /-- The voted weight of block 1 after the step. -/
  weight1 : Nat
  /-- The voted weight of block 2 after the step. -/
  weight2 : Nat
  delta : Nat
deriving DecidableEq, Repr

def quorumView (e : Env) (r : Sys × List Event × Option Ret) : QuorumView :=
  ⟨r.2.1.countP Event.isConfirmed, r.1.election.status.winner.hash,
    decide (1 ∈ r.1.election.lastBlocks ∧ 2 ∈ r.1.election.lastBlocks),
    r.1.election.weightFor e 1, r.1.election.weightFor e 2, e.delta⟩

/-- `tieEnv` on a voting node whose representative, voter 1, weighs 150 and has voted
for block 1. -/
def removeVotesEnv : Env :=
  { tieEnv with
    weight := fun a => if a = 1 then 150 else 0
    enableVoting := true
    votingReps := 1
    history := fun h => if h = 1 then [1] else [] }

/-- `staleFinalEnv` on a voting node. -/
def windowEnv : Env := { staleFinalEnv with enableVoting := true, votingReps := 1 }

/-- **When a vote step is undefined**: the vote is accepted, the ledger does not call
the winner confirmed, and the tally with the vote stored is empty. -/
theorem Sys.step_vote_eq_none {s : Sys} {rep : Account} {t : UInt64} {hh : BlockHash} {src : VoteSource} :
    s.step e (.call (.vote rep t hh src)) = none ↔
      s.election.Accepts e rep t hh src ∧ (s.election.storeVote e rep t hh).confirmed e = false ∧
        ((s.election.storeVote e rep t hh).tallyImpl e).1.entries = [] := by
  simp only [Sys.step, Call.start, Option.map_eq_none', vote_eq_none]

/-- A voting node whose vote history names the null account. -/
def emptyTallyEnv : Env where
  now := 0
  systemNow := 0
  isDevNetwork := false
  weight a := if a = 1 then 100 else 0
  blockConfirmed _ := false
  canary := false
  delta := 50
  trended := 1000
  minimumPrincipalWeight := 0
  enableVoting := true
  votingReps := 1
  winnerDetails _ := false
  history _ := [0]
  inactiveTally _ := 0
  voteBroadcastInterval := 0
  passiveDurationFactor := 5
  solicitorBroadcast := false
  solicitorAdd := false
  expirationTallyLogging := false

/-- **Two empty tallies.**  With a vote history that names the null account, block 2 is
published and voter 1 votes for it: the winner switches to block 2, and `remove_votes`
erases the placeholder vote; when voter 1 then votes, from the cache, for a hash that
is no candidate, `confirm_if_quorum` gets an empty tally.  With no vote history at all,
the revotes of `revoteRun` leave no vote on a candidate once the relock has removed
block 1; the election is made active, and the next `transition_time` runs
`broadcast_vote_impl`, whose `have_quorum` gets the empty tally. -/
theorem vote_emptyTally :
    (∃ s, Reachable s ∧ s.election.voteCheck emptyTallyEnv 1 2 3 .cache = none ∧
      (s.election.storeVote emptyTallyEnv 1 2 3).confirmed emptyTallyEnv = false ∧
      ((s.election.storeVote emptyTallyEnv 1 2 3).tallyImpl emptyTallyEnv).1.entries = [] ∧
      s.step emptyTallyEnv (.call (.vote 1 2 3 .cache)) = none) ∧
    (∃ s, Reachable s ∧ (∀ h, (revoteEnv 1).history h = []) ∧ s.pending = [.time (.switch .active)] ∧
      s.election.state = .active ∧ (s.election.tallyImpl (revoteEnv 1)).1.entries = [] ∧
      s.step (revoteEnv 1) (.resume 0) = none) := by
  refine ⟨?_, ?_⟩
  · obtain ⟨s, hs, h₁, h₂, h₃⟩ := Reachable.exists_of_run emptyTallyEnv ⟨1, 0⟩ .normal emptyTallyEnv
      [.call (.publish ⟨2, 0⟩), .call (.vote 1 1 2 .live)]
      (P := fun s => s.election.voteCheck emptyTallyEnv 1 2 3 .cache = none ∧
        (s.election.storeVote emptyTallyEnv 1 2 3).confirmed emptyTallyEnv = false ∧
        ((s.election.storeVote emptyTallyEnv 1 2 3).tallyImpl emptyTallyEnv).1.entries = []) (by decide)
    exact ⟨s, hs, h₁, h₂, h₃, Sys.step_vote_eq_none.mpr ⟨voteCheck_eq_none.mp h₁, h₂, h₃⟩⟩
  · obtain ⟨s, hs, h₁, h₂, h₃, h₄⟩ := Reachable.exists_of_run (revoteEnv 0) ⟨1, 0⟩ .normal (revoteEnv 0)
      (revoteRun ++ [.call .transitionActive, .call .transitionTime])
      (P := fun s => s.pending = [.time (.switch .active)] ∧ s.election.state = .active ∧
        (s.election.tallyImpl (revoteEnv 1)).1.entries = [] ∧ (s.step (revoteEnv 1) (.resume 0)).isNone)
      (by decide)
    exact ⟨s, hs, fun _ => rfl, h₁, h₂, h₃, Option.isNone_iff_eq_none.mp h₄⟩

end Nano
