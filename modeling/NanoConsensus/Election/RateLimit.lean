/-
How often an election asks for a normal vote.

`broadcast_vote` calls `broadcast_vote_impl` only when `last_vote` is more than
`vote_broadcast_interval` behind the clock, and then sets `last_vote` to the clock.
No other code of the election writes `last_vote`, and only `broadcast_vote_impl`
calls `generator.add`.  So a step either leaves `last_vote` alone and asks for no
normal vote, or is a `broadcast_vote` that passed its check (`Sys.step_lastVote`).
`last_vote` therefore never goes back over a run while the interval is not negative
(`Steps.lastVote_le`), and over any interleaving of the calls on an election two
requests for a normal vote are more than `vote_broadcast_interval` apart, however
the clock moves between steps (`normalVote_spaced`).
-/
import NanoConsensus.Election.System

namespace Nano

namespace Election

/-- A step that leaves `last_vote` as it was and does not call `generator.add`. -/
structure Quiet (s s' : Election) (ev : List Event) : Prop where
  lastVote : s'.lastVote = s.lastVote
  noNormalVote : ∀ h, Event.normalVote h ∉ ev

theorem Quiet.refl (s : Election) : Quiet s s [] := ⟨rfl, fun _ => List.not_mem_nil _⟩

theorem Quiet.trans {s₁ s₂ s₃ : Election} {ev₁ ev₂ : List Event} (h₁ : Quiet s₁ s₂ ev₁)
    (h₂ : Quiet s₂ s₃ ev₂) : Quiet s₁ s₃ (ev₁ ++ ev₂) :=
  ⟨h₂.lastVote.trans h₁.lastVote, fun h hm =>
    (List.mem_append.mp hm).elim (h₁.noNormalVote h) (h₂.noNormalVote h)⟩

/-- A record change that keeps `last_vote`, before a quiet step. -/
theorem Quiet.pre {s s' s'' : Election} {ev : List Event} (h : Quiet s' s'' ev)
    (hl : s'.lastVote = s.lastVote) : Quiet s s'' ev :=
  ⟨h.lastVote.trans hl, h.noNormalVote⟩

/-- Other calls than `generator.add`, on a record with `last_vote` kept. -/
theorem Quiet.of_events {s s' : Election} {ev : List Event} (hl : s'.lastVote = s.lastVote)
    (hev : ∀ x ∈ ev, ∀ h, x ≠ .normalVote h) : Quiet s s' ev :=
  ⟨hl, fun h hm => hev _ hm h rfl⟩

section Quiet

variable {e : Env} {s : Election}

theorem confirmOnce_quiet (type : StatusType) : Quiet s (s.confirmOnce e type).1 (s.confirmOnce e type).2 := by
  unfold confirmOnce
  split <;> exact .of_events rfl (by simp)

theorem quorumTail_quiet : Quiet s (s.quorumTail e).1 (s.quorumTail e).2 := by
  unfold quorumTail
  split
  · exact confirmOnce_quiet _
  · exact .refl s

theorem maybeSwitch_quiet (t : Tally) (b : Block) : Quiet s (maybeSwitch e t s b).1 (maybeSwitch e t s b).2 := by
  unfold maybeSwitch switchWinner removeVotes
  split
  · split <;> exact .of_events rfl (by simp)
  · exact .refl s

theorem afterQuorum_quiet : Quiet s (afterQuorum e s).1 (afterQuorum e s).2.1 := by
  obtain ⟨q, h | h⟩ := afterQuorum_cases (e := e) (s := s) <;> rw [h]
  · exact .of_events rfl (by simp)
  · exact quorumTail_quiet.pre rfl

theorem confirmIfQuorum_quiet {r : Election × List Event × Bool} (h : confirmIfQuorum e s = some r) :
    Quiet s r.1 r.2.1 := by
  unfold confirmIfQuorum at h
  split at h
  · cases h
  · rename_i w b _ _
    have hm := maybeSwitch_quiet (e := e) (s := tallied e s w) (s.tallyImpl e).1 b
    split at h <;> cases h
    · exact (hm.trans afterQuorum_quiet).pre rfl
    · exact hm.pre rfl

theorem storeVote_quiet {rep : Account} {t : UInt64} {h : BlockHash} {ev : List Event}
    (hev : ∀ x ∈ ev, ∀ h, x ≠ .normalVote h) : Quiet s (storeVote e s rep t h) ev :=
  .of_events rfl hev

theorem vote_quiet {rep : Account} {t : UInt64} {h : BlockHash} {src : VoteSource}
    {r : Election × List Event × Bool} (hv : s.vote e rep t h src = some r) : Quiet s r.1 r.2.1 := by
  cases hc : voteCheck e s rep t h src with
  | some v =>
    simp only [vote, hc, Option.some.injEq] at hv
    subst hv
    exact .refl s
  | none =>
    cases src <;> simp only [vote, hc] at hv <;> split at hv <;>
      first
      | (cases hv; exact .of_events rfl (by simp))
      | (obtain ⟨r', hr', rfl⟩ := Option.map_eq_some'.mp hv
         exact (storeVote_quiet (by simp)).trans (confirmIfQuorum_quiet hr'))

theorem removeBlock_quiet (h : BlockHash) : Quiet s (s.removeBlock h).1 (s.removeBlock h).2 := by
  unfold removeBlock
  split
  · split <;> exact .of_events rfl (by simp)
  · exact .refl s

theorem publishTail_quiet (b : Block) (result : Bool) :
    Quiet s (s.publishTail b result).2.1 (s.publishTail b result).2.2 := by
  unfold publishTail
  split
  · exact .refl s
  · split
    · exact .of_events rfl (by simp)
    · split <;> exact .of_events rfl (by simp)

theorem publishLocked_quiet (b : Block) : Quiet s (s.publishLocked e b).2.1 (s.publishLocked e b).2.2 := by
  unfold publishLocked
  split
  · exact .refl s
  · exact publishTail_quiet _ _

theorem replacePick_quiet (b : Block) (w : BlockHash) (sorted : List (BlockHash × Nat)) :
    Quiet s s (s.replacePick e b w sorted).2 :=
  .of_events rfl (by unfold replacePick; dsimp only; split <;> simp)

theorem replaceRelock_quiet (b : Block) (x : BlockHash) :
    Quiet s (s.replaceRelock b x).2.1 (s.replaceRelock b x).2.2 := by
  unfold replaceRelock
  have hr : Quiet s (if x = 0 then (s, []) else removeBlock s x).1 (if x = 0 then (s, []) else removeBlock s x).2 := by
    split
    · exact .refl s
    · exact removeBlock_quiet x
  exact (hr.trans (.of_events rfl (by split <;> simp))).trans (publishTail_quiet _ _)

theorem stateChange_quiet (a b : ElectionState) : Quiet s (s.stateChange e a b).2 [] :=
  .of_events (by unfold stateChange; split <;> rfl) (by simp)

/-- A step of `transition_time` is quiet, or it is `broadcast_vote` passing its check:
`last_vote` was more than `vote_broadcast_interval` behind the clock, and is now the
clock. -/
theorem timeStep_lastVote {p : TimeStep} {r : Election × List Event × (TimeStep ⊕ Bool)}
    (h : s.timeStep e p = some r) :
    Quiet s r.1 r.2.1 ∨ (s.lastVote + e.voteBroadcastInterval < e.now ∧ r.1.lastVote = e.now) := by
  cases p with
  | switch seen =>
    cases seen <;> simp only [timeStep, Option.some.injEq] at h
    · subst h
      split
      · exact .inl (stateChange_quiet _ _)
      · exact .inl (.refl s)
    · obtain ⟨r', h', rfl⟩ := Option.map_eq_some'.mp h
      unfold broadcastVote at h'
      split at h'
      · obtain ⟨r'', -, rfl⟩ := Option.map_eq_some'.mp h'
        exact .inr ⟨‹_›, rfl⟩
      · cases h'
        exact .inl (.refl s)
    · subst h
      exact .inl (stateChange_quiet _ _)
    all_goals subst h; exact .inl (.refl s)
  | broadcastBlock =>
    simp only [timeStep, Option.some.injEq] at h
    subst h
    unfold broadcastBlock
    split <;> (try split) <;> exact .inl (.of_events rfl (by simp))
  | confirmReq =>
    simp only [timeStep, Option.some.injEq] at h
    subst h
    unfold sendConfirmReq
    split <;> (try split) <;> exact .inl (.of_events rfl (by simp))
  | expiry result =>
    simp only [timeStep] at h
    split at h <;> cases h <;> exact .inl (.refl s)
  | expire result =>
    obtain ⟨c, s', hs'⟩ : ∃ c s', stateChange e s s.state .expiredUnconfirmed = (c, s') := ⟨_, _, rfl⟩
    have hl : s'.lastVote = s.lastVote := by
      simpa only [hs'] using (stateChange_quiet (e := e) (s := s) s.state .expiredUnconfirmed).lastVote
    simp only [timeStep, hs'] at h
    cases c <;> simp only [Option.some.injEq] at h <;> subst h
    · exact .inl (.of_events (by dsimp only; split <;> exact hl) (by simp))
    · exact .inl (.of_events hl (by simp))

end Quiet

end Election

/-! ### Over a run -/

section Run

variable {e : Env}

/-- **What a step does to `last_vote`.**  Whatever the call and wherever it stands,
a step is quiet, or it is a `broadcast_vote` that passed its check and set
`last_vote` to the clock. -/
theorem Sys.step_lastVote {s : Sys} {a : Action} {r : Sys × List Event × Option Ret}
    (h : s.step e a = some r) :
    Election.Quiet s.election r.1.election r.2.1 ∨
      (s.election.lastVote + e.voteBroadcastInterval < e.now ∧ r.1.election.lastVote = e.now) := by
  rcases Sys.step_cases h with ⟨c, o, -, hc, he, hev⟩ | ⟨i, p, o, -, -, hp, he, hev⟩ <;> rw [he, hev]
  · rcases Call.start_cases hc with ⟨rep, t, hh, src, r', -, hv, he', hev'⟩ | ⟨b, -, he', hev'⟩ |
      ⟨he', hev'⟩ | ⟨he', hev'⟩ | ⟨type, he', hev'⟩ <;> rw [he', hev']
    · exact .inl (Election.vote_quiet hv)
    · exact .inl (Election.publishLocked_quiet b)
    · exact .inl (.refl _)
    · exact .inl (Election.stateChange_quiet _ _)
    · exact .inl (Election.confirmOnce_quiet type)
  · rcases Pending.resume_cases hp with ⟨he', hev'⟩ | ⟨b, w, sorted, he', hev'⟩ |
      ⟨b, x, -, he', hev'⟩ | ⟨q, r', hq, he', hev'⟩ <;> rw [he', hev']
    · exact .inl Election.quorumTail_quiet
    · exact .inl (Election.replacePick_quiet b w sorted)
    · exact .inl (Election.replaceRelock_quiet b x)
    · exact Election.timeStep_lastVote hq

/-- While `vote_broadcast_interval` is not negative, no step moves `last_vote` back. -/
theorem Steps.lastVote_le {s s' : Sys} (h : Steps (fun e _ _ _ => 0 ≤ e.voteBroadcastInterval) s s') :
    s.election.lastVote ≤ s'.election.lastVote := by
  induction h with
  | refl => exact le_refl _
  | tail _ hst hI ih =>
    refine ih.trans ?_
    rcases Sys.step_lastVote hst with hq | ⟨hlt, heq⟩
    · exact hq.lastVote.ge
    · omega

/-- **Normal votes are rate limited.**  Over any interleaving of the calls on an
election, from any state and however the clock moves between steps: when a step
calls `generator.add`, and a later step calls it again, with
`vote_broadcast_interval` not negative in between, the later step runs more than
`vote_broadcast_interval` after the first. -/
theorem normalVote_spaced {s₀ s₂ : Sys} {e₁ e₂ : Env} {a₁ a₂ : Action}
    {r₁ r₂ : Sys × List Event × Option Ret} {h₁ h₂ : BlockHash}
    (hs₁ : s₀.step e₁ a₁ = some r₁) (hv₁ : Event.normalVote h₁ ∈ r₁.2.1)
    (hrun : Steps (fun e _ _ _ => 0 ≤ e.voteBroadcastInterval) r₁.1 s₂)
    (hs₂ : s₂.step e₂ a₂ = some r₂) (hv₂ : Event.normalVote h₂ ∈ r₂.2.1) :
    e₁.now + e₂.voteBroadcastInterval < e₂.now := by
  have hfirst := ((Sys.step_lastVote hs₁).resolve_left fun hq => hq.noNormalVote h₁ hv₁).2
  have hsecond := ((Sys.step_lastVote hs₂).resolve_left fun hq => hq.noNormalVote h₂ hv₂).1
  have hmono := hrun.lastVote_le
  omega

/-- A voting node that has not seen a quorum, at time `now`, with an interval of 5. -/
def tickEnv (now : Int) : Env :=
  { Election.tieEnv with now := now, enableVoting := true, votingReps := 1, delta := 500, voteBroadcastInterval := 5 }

/-- The tie election, active, with two `transition_time` calls at their switch. -/
def twoTicks : Sys :=
  ⟨{ Election.tieElection with state := .active, lastVote := 0 }, [.time (.switch .active), .time (.switch .active)]⟩

/-- The two calls ask for a normal vote at times 10 and 20. -/
theorem twoTicks_spaced : (tickEnv 10).now + (tickEnv 20).voteBroadcastInterval < (tickEnv 20).now :=
  normalVote_spaced (rfl : twoTicks.step (tickEnv 10) (.resume 0) = some _) (List.mem_singleton_self _) (.refl _)
    (by show Sys.step _ _ (.resume 0) = _; rfl) (by exact List.mem_singleton_self _)

end Run

end Nano
