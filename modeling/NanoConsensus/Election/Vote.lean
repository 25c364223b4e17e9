/-
Votes, quorum and confirmation.

`election::vote` decides under the election's lock whether to record a vote, and
then, unless the ledger already calls the winner confirmed, runs
`confirm_if_quorum`.  That function tallies, may switch the winner to the heaviest
candidate (forcing it through the block processor), and, under `have_quorum`,
confirms.  On the first quorum with the final-votes canary up it drops the lock to
ask the final vote generator for a vote, and finishes after taking the lock back;
`vote` then stops with its flag set, and `quorumTail` is what runs once the lock is
retaken, maybe after other calls have run.

The empty tally is the one place the code has no defined behaviour
(`tally_l.begin ()` is dereferenced, past a `debug_assert`); `confirmIfQuorum`
returns `none` there.
-/
import NanoConsensus.Election.Tally

namespace Nano

/-- `nano::election::vote_source`. -/
inductive VoteSource
  | live
  | cache
deriving DecidableEq, Repr

/-- `nano::election_vote_result`. -/
structure VoteResult where
  replay : Bool
  processed : Bool
deriving DecidableEq, Repr

namespace Election

/-- `election::confirm_once`.  `state_m.exchange (confirmed)` runs whatever the
outcome; the one-time effects follow when it returned another state and
`election_winner_details` has no entry for the winner. -/
def confirmOnce (e : Env) (s : Election) (type : StatusType) : Election × List Event :=
  if s.state ≠ .confirmed ∧ e.winnerDetails s.status.winner.hash = false then
    let status := { s.status with
      electionEnd := e.systemNow
      electionDuration := e.now - s.electionStart
      confirmationRequestCount := s.confirmationRequestCount
      blockCount := s.lastBlocks.size
      voterCount := s.lastVotes.keys.length
      statusType := type }
    ({ s with state := .confirmed, status := status },
      [.winnerDetails s.status.winner.hash, .confirmed status])
  else ({ s with state := .confirmed }, [])

/-- `election::remove_votes (hash)`: a node that votes drops the entries of the
voters it holds a generated vote for on `hash`, and clears its vote history. -/
def removeVotes (e : Env) (s : Election) (h : BlockHash) : Election × List Event :=
  if e.enableVoting ∧ 0 < e.votingReps then
    ({ s with lastVotes := (e.history h).foldl (fun m a => m.erase a) s.lastVotes },
      [.historyErase])
  else (s, [])

/-- The end of `confirm_if_quorum`, once any final-vote window is over: confirm
unless the canary asks for final votes that are not there. -/
def quorumTail (e : Env) (s : Election) : Election × List Event :=
  if !e.canary || decide (e.delta ≤ s.finalWeight) then s.confirmOnce e .activeConfirmedQuorum
  else (s, [])

/-- A winner switch of `confirm_if_quorum`: the tally's first block becomes the
winner, the old winner's generated votes go, and the new winner is forced. -/
def switchWinner (e : Env) (s : Election) (b : Block) : Election × List Event :=
  let old := s.status.winner.hash
  let r := removeVotes e { s with status := { s.status with winner := b } } old
  (r.1, r.2 ++ [.force b])

/-- The election `confirm_if_quorum` works on after tallying: `last_tally` and
`final_weight` from `tally_impl`, and the status's two tallies set. -/
def tallied (e : Env) (s : Election) (w : Nat) : Election :=
  { (s.tallyImpl e).2 with
    status := { s.status with tally := w, finalTally := (s.tallyImpl e).2.finalWeight } }

/-- The switch test of `confirm_if_quorum`: the whole tally weighs at least `delta`
and its first block `b` is not the winner. -/
def maybeSwitch (e : Env) (t : Tally) (s : Election) (b : Block) : Election × List Event :=
  if e.delta ≤ t.sum ∧ b.hash ≠ s.status.winner.hash then switchWinner e s b else (s, [])

/-- `confirm_if_quorum` once `have_quorum` holds: with the canary up,
`is_quorum.exchange (true)`, and on its first time on a voting node the final-vote
window (the `Bool`); otherwise the tail. -/
def afterQuorum (e : Env) (s : Election) : Election × List Event × Bool :=
  let window := e.canary && !s.isQuorum && e.enableVoting && decide (0 < e.votingReps)
  let s' := if e.canary then { s with isQuorum := true } else s
  if window then (s', [.finalVote s'.status.winner.hash], true)
  else ((quorumTail e s').1, (quorumTail e s').2, false)

/-- `election::confirm_if_quorum`, up to its return or to the unlock around
`final_generator.add` (the `Bool` is `true` there).  `none` is the empty tally. -/
def confirmIfQuorum (e : Env) (s : Election) : Option (Election × List Event × Bool) :=
  match (s.tallyImpl e).1.entries with
  | [] => none
  | (w, b) :: _ =>
    let r := maybeSwitch e (s.tallyImpl e).1 (tallied e s w) b
    if haveQuorum (s.tallyImpl e).1 e.delta then
      some ((afterQuorum e r.1).1, r.2 ++ (afterQuorum e r.1).2.1, (afterQuorum e r.1).2.2)
    else some (r.1, r.2, false)

/-- The checks of `election::vote` before it records the vote: `some result`
returns early, `none` goes on. -/
def voteCheck (e : Env) (s : Election) (rep : Account) (t : UInt64) (h : BlockHash)
    (src : VoteSource) : Option VoteResult :=
  if !e.isDevNetwork && e.weight rep ≤ e.minimumPrincipalWeight then some ⟨false, false⟩
  else match s.lastVotes.lookup rep with
    | none => none
    | some last =>
      if t < last.timestamp then some ⟨true, false⟩
      else if last.timestamp = t ∧ ¬last.hash < h then some ⟨true, false⟩
      else
        let maxVote := decide (t = finalTimestamp) && decide (last.timestamp < t)
        let pastCooldown := match src with
          | .live => decide (last.time ≤ e.now - cooldownTime e (e.weight rep))
          | .cache => true
        if !maxVote && !pastCooldown then some ⟨false, false⟩ else none

/-- `last_votes[rep] = { now, timestamp, hash }`. -/
def storeVote (e : Env) (s : Election) (rep : Account) (t : UInt64) (h : BlockHash) : Election :=
  { s with lastVotes := s.lastVotes.insert rep ⟨e.now, t, h⟩ }

/-- What `election::vote` returns: its early result, or `processed`. -/
def voteResult (e : Env) (s : Election) (rep : Account) (t : UInt64) (h : BlockHash)
    (src : VoteSource) : VoteResult :=
  (voteCheck e s rep t h src).getD ⟨false, true⟩

/-- `election::vote`, up to its return or to the final-vote window (the `Bool`). -/
def vote (e : Env) (s : Election) (rep : Account) (t : UInt64) (h : BlockHash)
    (src : VoteSource) : Option (Election × List Event × Bool) :=
  match voteCheck e s rep t h src with
  | some _ => some (s, [], false)
  | none =>
    let s1 := storeVote e s rep t h
    let ev : List Event := match src with
      | .live => [.liveVote rep]
      | .cache => []
    if s1.confirmed e then some (s1, ev, false)
    else (confirmIfQuorum e s1).map fun r => (r.1, ev ++ r.2.1, r.2.2)

/-! ### What each part changes -/

section Frame

variable {e : Env} {s : Election}

@[simp] theorem tallyImpl_lastBlocks : (s.tallyImpl e).2.lastBlocks = s.lastBlocks := rfl
@[simp] theorem tallyImpl_lastVotes : (s.tallyImpl e).2.lastVotes = s.lastVotes := rfl
@[simp] theorem tallyImpl_status : (s.tallyImpl e).2.status = s.status := rfl
@[simp] theorem tallyImpl_state : (s.tallyImpl e).2.state = s.state := rfl

@[simp] theorem confirmOnce_lastBlocks (type : StatusType) :
    (s.confirmOnce e type).1.lastBlocks = s.lastBlocks := by
  unfold confirmOnce; split <;> rfl

@[simp] theorem confirmOnce_lastVotes (type : StatusType) :
    (s.confirmOnce e type).1.lastVotes = s.lastVotes := by
  unfold confirmOnce; split <;> rfl

@[simp] theorem confirmOnce_winner (type : StatusType) :
    (s.confirmOnce e type).1.status.winner = s.status.winner := by
  unfold confirmOnce; split <;> rfl

@[simp] theorem confirmOnce_state (type : StatusType) :
    (s.confirmOnce e type).1.state = .confirmed := by
  unfold confirmOnce; split <;> rfl

@[simp] theorem removeVotes_lastBlocks (h : BlockHash) :
    (removeVotes e s h).1.lastBlocks = s.lastBlocks := by
  unfold removeVotes; split <;> rfl

@[simp] theorem removeVotes_status (h : BlockHash) : (removeVotes e s h).1.status = s.status := by
  unfold removeVotes; split <;> rfl

@[simp] theorem removeVotes_state (h : BlockHash) : (removeVotes e s h).1.state = s.state := by
  unfold removeVotes; split <;> rfl

@[simp] theorem confirmOnce_finalWeight (type : StatusType) :
    (s.confirmOnce e type).1.finalWeight = s.finalWeight := by
  unfold confirmOnce; split <;> rfl

theorem lookup_foldl_erase (a : Account) :
    ∀ (l : List Account) (m : VoteMap),
      (l.foldl (fun m x => m.erase x) m).lookup a = if a ∈ l then none else m.lookup a
  | [], m => by simp
  | x :: l, m => by
    rw [List.foldl_cons, lookup_foldl_erase a l]
    by_cases hx : a = x
    · subst hx; simp [AList.lookup_erase]
    · simp [hx, AList.lookup_erase_ne hx]

/-- `remove_votes` only ever drops entries. -/
theorem removeVotes_shrinks (h : BlockHash) : Shrinks s.lastVotes (removeVotes e s h).1.lastVotes := by
  intro a
  unfold removeVotes
  split
  · simp only [lookup_foldl_erase]
    split
    · exact .inr rfl
    · exact .inl rfl
  · exact .inl rfl

@[simp] theorem switchWinner_lastBlocks (b : Block) :
    (switchWinner e s b).1.lastBlocks = s.lastBlocks := by simp [switchWinner]

@[simp] theorem switchWinner_winner (b : Block) : (switchWinner e s b).1.status.winner = b := by
  simp [switchWinner]

@[simp] theorem switchWinner_state (b : Block) : (switchWinner e s b).1.state = s.state := by
  simp [switchWinner]

theorem switchWinner_shrinks (b : Block) : Shrinks s.lastVotes (switchWinner e s b).1.lastVotes :=
  removeVotes_shrinks (s := { s with status := { s.status with winner := b } }) _

@[simp] theorem quorumTail_lastBlocks : (quorumTail e s).1.lastBlocks = s.lastBlocks := by
  unfold quorumTail; split <;> simp

@[simp] theorem quorumTail_lastVotes : (quorumTail e s).1.lastVotes = s.lastVotes := by
  unfold quorumTail; split <;> simp

@[simp] theorem quorumTail_winner : (quorumTail e s).1.status.winner = s.status.winner := by
  unfold quorumTail; split <;> simp

theorem quorumTail_state : (quorumTail e s).1.state = s.state ∨ (quorumTail e s).1.state = .confirmed := by
  unfold quorumTail; split <;> simp

@[simp] theorem tallied_lastBlocks (w : Nat) : (tallied e s w).lastBlocks = s.lastBlocks := rfl
@[simp] theorem tallied_lastVotes (w : Nat) : (tallied e s w).lastVotes = s.lastVotes := rfl
@[simp] theorem tallied_winner (w : Nat) : (tallied e s w).status.winner = s.status.winner := rfl
@[simp] theorem tallied_state (w : Nat) : (tallied e s w).state = s.state := rfl

theorem maybeSwitch_eq (t : Tally) (b : Block) :
    (maybeSwitch e t s b).1 = s ∨ (maybeSwitch e t s b).1 = (switchWinner e s b).1 := by
  unfold maybeSwitch; split
  · exact .inr rfl
  · exact .inl rfl

theorem afterQuorum_cases : ∃ q : Bool,
    afterQuorum e s = ({ s with isQuorum := q }, [.finalVote s.status.winner.hash], true) ∨
      afterQuorum e s =
        ((quorumTail e { s with isQuorum := q }).1, (quorumTail e { s with isQuorum := q }).2, false) := by
  unfold afterQuorum
  by_cases hc : e.canary = true
  · refine ⟨true, ?_⟩
    simp only [hc, if_true]
    split
    · exact .inl rfl
    · exact .inr rfl
  · refine ⟨s.isQuorum, .inr ?_⟩
    simp [hc]

theorem afterQuorum_eq :
    ∃ q : Bool, (afterQuorum e s).1 = { s with isQuorum := q } ∨
      (afterQuorum e s).1 = (quorumTail e { s with isQuorum := q }).1 := by
  obtain ⟨q, h | h⟩ := afterQuorum_cases (e := e) (s := s) <;> rw [h]
  · exact ⟨q, .inl rfl⟩
  · exact ⟨q, .inr rfl⟩

@[simp] theorem afterQuorum_winner : (afterQuorum e s).1.status.winner = s.status.winner := by
  obtain ⟨q, h | h⟩ := afterQuorum_eq (e := e) (s := s)
  · rw [h]
  · rw [h, quorumTail_winner]

@[simp] theorem maybeSwitch_state (t : Tally) (b : Block) : (maybeSwitch e t s b).1.state = s.state := by
  unfold maybeSwitch; split <;> simp

theorem maybeSwitch_winner (t : Tally) (b : Block) :
    (maybeSwitch e t s b).1.status.winner =
      if e.delta ≤ t.sum ∧ b.hash ≠ s.status.winner.hash then b else s.status.winner := by
  unfold maybeSwitch; split <;> simp

/-- **Everything `confirm_if_quorum` can do.**  It tallies; it may switch the winner
to a block of the tally; it may set `is_quorum`; and it may run `quorum_tail`. -/
theorem confirmIfQuorum_inv {r : Election × List Event × Bool} (h : confirmIfQuorum e s = some r) :
    ∃ x ∈ (s.tallyImpl e).1.entries, ∃ s₁, (s₁ = tallied e s x.1 ∨
      s₁ = (switchWinner e (tallied e s x.1) x.2).1) ∧ ∃ q : Bool,
        r.1 = { s₁ with isQuorum := q } ∨ r.1 = (quorumTail e { s₁ with isQuorum := q }).1 := by
  unfold confirmIfQuorum at h
  split at h
  · cases h
  · rename_i w b rest hx
    refine ⟨(w, b), by rw [hx]; exact List.mem_cons_self _ _, _,
      maybeSwitch_eq (s := tallied e s w) (e := e) (t := (s.tallyImpl e).1) b, ?_⟩
    split at h <;> simp only [Option.some.injEq] at h <;> subst h
    · exact afterQuorum_eq
    · exact ⟨_, .inl rfl⟩

/-! Which parts announce a confirmation: only `confirm_once`, and only when it moves
`state_m` from another state. -/

theorem confirmOnce_confirmedEvent {type : StatusType} {st : ElectionStatus}
    (h : Event.confirmed st ∈ (s.confirmOnce e type).2) : s.state ≠ .confirmed := by
  unfold confirmOnce at h
  split at h
  · exact ‹_ ∧ _›.1
  · cases h

theorem quorumTail_confirmedEvent {st : ElectionStatus} (h : Event.confirmed st ∈ (quorumTail e s).2) :
    s.state ≠ .confirmed ∧ (quorumTail e s).1.state = .confirmed := by
  unfold quorumTail at h ⊢
  split at h
  · rw [if_pos ‹_›]; exact ⟨confirmOnce_confirmedEvent h, confirmOnce_state _⟩
  · cases h

theorem maybeSwitch_confirmedEvent (t : Tally) (b : Block) (st : ElectionStatus) :
    Event.confirmed st ∉ (maybeSwitch e t s b).2 := by
  unfold maybeSwitch switchWinner removeVotes
  split <;> (try split) <;> simp

theorem afterQuorum_confirmedEvent {st : ElectionStatus} (h : Event.confirmed st ∈ (afterQuorum e s).2.1) :
    s.state ≠ .confirmed ∧ (afterQuorum e s).1.state = .confirmed := by
  obtain ⟨q, h' | h'⟩ := afterQuorum_cases (e := e) (s := s) <;> rw [h'] at h ⊢
  · simp at h
  · exact quorumTail_confirmedEvent h

theorem confirmIfQuorum_confirmedEvent {r : Election × List Event × Bool} {st : ElectionStatus}
    (h : confirmIfQuorum e s = some r) (hc : Event.confirmed st ∈ r.2.1) :
    s.state ≠ .confirmed ∧ r.1.state = .confirmed := by
  unfold confirmIfQuorum at h
  split at h
  · cases h
  · rename_i w b _ _
    split at h <;> cases h
    · rcases List.mem_append.mp hc with hc | hc
      · exact absurd hc (maybeSwitch_confirmedEvent _ _ _)
      · simpa using afterQuorum_confirmedEvent hc
    · exact absurd hc (maybeSwitch_confirmedEvent _ _ _)

theorem maybeSwitch_force (t : Tally) (b : Block) :
    (maybeSwitch e t s b).1.status.winner = s.status.winner ∨
      Event.force (maybeSwitch e t s b).1.status.winner ∈ (maybeSwitch e t s b).2 := by
  unfold maybeSwitch; split
  · exact .inr (by simp [switchWinner])
  · exact .inl rfl

/-- A winner switch in `confirm_if_quorum` forces the new winner through the block
processor. -/
theorem confirmIfQuorum_force {r : Election × List Event × Bool} (h : confirmIfQuorum e s = some r) :
    r.1.status.winner = s.status.winner ∨ Event.force r.1.status.winner ∈ r.2.1 := by
  unfold confirmIfQuorum at h
  split at h
  · cases h
  · rename_i w b _ _
    have hm := maybeSwitch_force (e := e) (s := tallied e s w) (s.tallyImpl e).1 b
    split at h <;> cases h <;> simp only [afterQuorum_winner, tallied_winner] at hm ⊢
    · exact hm.imp_right (List.mem_append_left _)
    · exact hm

/-! With the canary up, `confirm_if_quorum` confirms only past the final-vote gate. -/

/-- What `confirm_if_quorum` does to the record: it erases entries of `last_votes` at
most, keeps the candidates, switches the winner to a candidate if at all, and moves
`state_m` only to `confirmed`. -/
theorem confirmIfQuorum_frame {r : Election × List Event × Bool} (h : confirmIfQuorum e s = some r) :
    Shrinks s.lastVotes r.1.lastVotes ∧ r.1.lastBlocks = s.lastBlocks ∧
      (r.1.status.winner = s.status.winner ∨
        s.lastBlocks.find r.1.status.winner.hash = some r.1.status.winner) ∧
      (r.1.state = s.state ∨ r.1.state = .confirmed) := by
  obtain ⟨x, hx, s₁, hs₁, q, hr⟩ := confirmIfQuorum_inv h
  have h₁ : Shrinks s.lastVotes s₁.lastVotes ∧ s₁.lastBlocks = s.lastBlocks ∧
      (s₁.status.winner = s.status.winner ∨ s₁.status.winner = x.2) ∧ s₁.state = s.state := by
    rcases hs₁ with rfl | rfl
    · exact ⟨Shrinks.refl _, rfl, .inl rfl, rfl⟩
    · exact ⟨switchWinner_shrinks _, by simp, .inr (by simp), by simp⟩
  obtain ⟨hv, hb, hw, hst⟩ := h₁
  have hw' : s₁.status.winner = s.status.winner ∨
      s.lastBlocks.find s₁.status.winner.hash = some s₁.status.winner := by
    rcases hw with hw | hw
    · exact .inl hw
    · rw [hw]; exact .inr (mem_tallyImpl hx).1
  rcases hr with hr | hr <;> rw [hr]
  · exact ⟨hv, hb, hw', .inl hst⟩
  · simp only [quorumTail_lastVotes, quorumTail_lastBlocks, quorumTail_winner]
    exact ⟨hv, hb, hw', hst ▸ quorumTail_state⟩

end Frame

/-! ### Quorum -/

/-- Under `have_quorum`, `confirm_if_quorum` goes on with the tally's first block as
the winner. -/
theorem confirmIfQuorum_of_quorum {e : Env} {s : Election} {w : Nat} {b : Block}
    {rest : List (Nat × Block)} (ht : (s.tallyImpl e).1.entries = (w, b) :: rest)
    (hq : haveQuorum (s.tallyImpl e).1 e.delta = true) :
    confirmIfQuorum e s = some
      ((afterQuorum e (maybeSwitch e (s.tallyImpl e).1 (tallied e s w) b).1).1,
        (maybeSwitch e (s.tallyImpl e).1 (tallied e s w) b).2 ++
          (afterQuorum e (maybeSwitch e (s.tallyImpl e).1 (tallied e s w) b).1).2.1,
        (afterQuorum e (maybeSwitch e (s.tallyImpl e).1 (tallied e s w) b).1).2.2) := by
  unfold confirmIfQuorum
  rw [ht]
  simp only [hq, if_true]

/-- `(t₀, h₀)` comes before `(t, h)` in the lexicographic order `election::vote` asks
of a voter's successive votes. -/
def Precedes (t₀ : UInt64) (h₀ : BlockHash) (t : UInt64) (h : BlockHash) : Prop :=
  t₀ < t ∨ (t₀ = t ∧ h₀ < h)

theorem Precedes.trans {t₁ t₂ t₃ : UInt64} {h₁ h₂ h₃ : BlockHash} (h₁₂ : Precedes t₁ h₁ t₂ h₂)
    (h₂₃ : Precedes t₂ h₂ t₃ h₃) : Precedes t₁ h₁ t₃ h₃ := by
  rcases h₁₂ with h | ⟨rfl, h⟩ <;> rcases h₂₃ with h' | ⟨rfl, h'⟩
  · exact .inl (UInt64.lt_trans h h')
  · exact .inl h
  · exact .inl h'
  · exact .inr ⟨rfl, Nat.lt_trans h h'⟩

/-- Nothing comes after a final vote but a final vote for a larger hash. -/
theorem Precedes.final {h₀ h : BlockHash} {t : UInt64} (hp : Precedes finalTimestamp h₀ t h) :
    t = finalTimestamp ∧ h₀ < h := by
  rcases hp with hp | ⟨rfl, hp⟩
  · rw [UInt64.lt_def, BitVec.lt_def] at hp
    exact absurd hp (Nat.not_lt.mpr (Nat.le_pred_of_lt t.toBitVec.isLt))
  · exact ⟨rfl, hp⟩

/-- When `election::vote` records a vote: the voter weighs more than the minimum (or
the network is a dev network), and if it has an entry, the vote is
lexicographically newer in (timestamp, hash) and either final over a non-final
entry, replayed from the cache, or past the voter's cooldown. -/
def Accepts (e : Env) (s : Election) (rep : Account) (t : UInt64) (h : BlockHash)
    (src : VoteSource) : Prop :=
  (e.isDevNetwork = true ∨ e.minimumPrincipalWeight < e.weight rep) ∧
  ∀ last, s.lastVotes.lookup rep = some last →
    Precedes last.timestamp last.hash t h ∧
    ((t = finalTimestamp ∧ last.timestamp < t) ∨ src = .cache ∨
      last.time ≤ e.now - cooldownTime e (e.weight rep))

/-- When `election::vote` answers `replay`: the voter weighs enough, and its entry is
not older than the vote in (timestamp, hash). -/
def Replays (e : Env) (s : Election) (rep : Account) (t : UInt64) (h : BlockHash) : Prop :=
  (e.isDevNetwork = true ∨ e.minimumPrincipalWeight < e.weight rep) ∧
  ∃ last, s.lastVotes.lookup rep = some last ∧
    (t < last.timestamp ∨ (last.timestamp = t ∧ ¬last.hash < h))

section VoteCheck

variable {e : Env} {s : Election} {rep : Account} {t : UInt64} {h : BlockHash} {src : VoteSource}

theorem weight_ok_iff :
    ¬(!e.isDevNetwork && decide (e.weight rep ≤ e.minimumPrincipalWeight)) = true ↔
      (e.isDevNetwork = true ∨ e.minimumPrincipalWeight < e.weight rep) := by
  cases e.isDevNetwork <;> simp

theorem voteCheck_eq_none : voteCheck e s rep t h src = none ↔ Accepts e s rep t h src := by
  unfold voteCheck Accepts Precedes
  split
  · rename_i hw
    simp only [reduceCtorEq, false_iff, not_and]
    exact fun hw' => absurd hw (weight_ok_iff.mpr hw')
  · rename_i hw
    simp only [weight_ok_iff.mp hw, true_and]
    split
    · rename_i hl; simp [hl]
    · rename_i last hl
      simp only [hl, Option.some.injEq, forall_eq']
      by_cases h1 : t < last.timestamp
      · simp only [h1, if_true, reduceCtorEq, false_iff, not_and]
        rintro (h2 | ⟨rfl, -⟩)
        · exact absurd h1 (timestamp_lt_asymm h2)
        · exact absurd h1 (UInt64.lt_irrefl _)
      by_cases h2 : last.timestamp = t ∧ ¬last.hash < h
      · rw [if_neg h1, if_pos h2]
        simp only [reduceCtorEq, false_iff, not_and]
        rintro (h3 | ⟨-, h3⟩)
        · rw [h2.1] at h3; exact absurd h3 (timestamp_lt_asymm h3)
        · exact absurd h3 h2.2
      have hnew : last.timestamp < t ∨ (last.timestamp = t ∧ last.hash < h) := by
        rcases timestamp_lt_or_eq h1 with h3 | h3
        · exact .inl h3
        · exact .inr ⟨h3, by simpa [h3] using h2⟩
      rw [if_neg h1, if_neg h2]
      simp only [hnew, true_and]
      cases src
      · by_cases hm : t = finalTimestamp ∧ last.timestamp < t <;>
          by_cases hc : last.time ≤ e.now - cooldownTime e (e.weight rep) <;> simp [hm, hc]
      · simp

theorem voteCheck_processed {r : VoteResult} (hr : voteCheck e s rep t h src = some r) :
    r.processed = false := by
  cases hl : s.lastVotes.lookup rep <;>
    simp only [voteCheck, hl] at hr <;> split_ifs at hr <;> cases hr <;> rfl

theorem voteResult_processed :
    (s.voteResult e rep t h src).processed = true ↔ Accepts e s rep t h src := by
  rw [← voteCheck_eq_none, voteResult]
  cases hc : voteCheck e s rep t h src with
  | none => simp
  | some r => simp [voteCheck_processed hc]

theorem voteResult_replay : (s.voteResult e rep t h src).replay = true ↔ Replays e s rep t h := by
  unfold voteResult voteCheck Replays
  split
  · rename_i hw
    simp only [Option.getD_some, Bool.false_eq_true, false_iff, not_and]
    exact fun hw' => absurd hw (weight_ok_iff.mpr hw')
  · rename_i hw
    simp only [weight_ok_iff.mp hw, true_and]
    split
    · rename_i hl
      simp only [hl, Option.getD_none, reduceCtorEq, false_and, exists_false, Bool.false_eq_true]
    · rename_i last hl
      simp only [hl, Option.some.injEq, exists_eq_left']
      by_cases h1 : t < last.timestamp
      · simp [h1]
      by_cases h2 : last.timestamp = t ∧ ¬last.hash < h
      · simp [h1, h2]
      simp only [h1, h2, if_false, false_or, iff_false]
      split_ifs <;> simp

/-- A vote `election::vote` turns down leaves the election as it was, and calls nothing. -/
theorem vote_rejected (hn : ¬Accepts e s rep t h src) : s.vote e rep t h src = some (s, [], false) := by
  obtain ⟨r, hr⟩ := Option.ne_none_iff_exists'.mp (mt voteCheck_eq_none.mp hn)
  simp only [vote, hr]

@[simp] theorem storeVote_lookup (x : Account) :
    (storeVote e s rep t h).lastVotes.lookup x =
      if x = rep then some ⟨e.now, t, h⟩ else s.lastVotes.lookup x := by
  split
  · subst x; exact AList.lookup_insert _
  · exact AList.lookup_insert_ne ‹_›

@[simp] theorem storeVote_lastBlocks : (storeVote e s rep t h).lastBlocks = s.lastBlocks := rfl
@[simp] theorem storeVote_status : (storeVote e s rep t h).status = s.status := rfl
@[simp] theorem storeVote_state : (storeVote e s rep t h).state = s.state := rfl

/-- What an accepted vote leads to: the vote stored, then, unless the ledger calls the
winner confirmed, `confirm_if_quorum` on the election with it. -/
theorem vote_accepted {r : Election × List Event × Bool} (ha : Accepts e s rep t h src)
    (hr : s.vote e rep t h src = some r) :
    r.1 = storeVote e s rep t h ∨ ∃ r', confirmIfQuorum e (storeVote e s rep t h) = some r' ∧ r.1 = r'.1 := by
  simp only [vote, voteCheck_eq_none.mpr ha] at hr
  split at hr
  · exact .inl (Option.some.inj hr ▸ rfl)
  · obtain ⟨r', h', rfl⟩ := Option.map_eq_some'.mp hr
    exact .inr ⟨r', h', rfl⟩

/-- `confirm_if_quorum` is undefined exactly on an empty tally. -/
theorem confirmIfQuorum_eq_none : confirmIfQuorum e s = none ↔ (s.tallyImpl e).1.entries = [] := by
  unfold confirmIfQuorum
  split
  · simp_all
  · simp_all only [reduceCtorEq, iff_false, not_false_eq_true]
    split <;> simp

/-- **When `vote` has no defined behaviour.**  Exactly when it accepts the vote, the
ledger does not call the winner confirmed, and the tally with the vote stored is
empty: `confirm_if_quorum` then dereferences `tally_l.begin ()`. -/
theorem vote_eq_none : s.vote e rep t h src = none ↔
    Accepts e s rep t h src ∧ (s.storeVote e rep t h).confirmed e = false ∧
      ((s.storeVote e rep t h).tallyImpl e).1.entries = [] := by
  rw [← voteCheck_eq_none, ← confirmIfQuorum_eq_none]
  unfold vote
  split
  · simp_all
  · by_cases hc : (storeVote e s rep t h).confirmed e <;> cases src <;> simp_all

/-- An accepted vote is stored; `confirm_if_quorum` may then erase entries, and changes
or adds none. -/
theorem vote_shrinks {r : Election × List Event × Bool} (ha : Accepts e s rep t h src)
    (hr : s.vote e rep t h src = some r) : Shrinks (storeVote e s rep t h).lastVotes r.1.lastVotes := by
  rcases vote_accepted ha hr with h' | ⟨r', h', h''⟩
  · rw [h']; exact Shrinks.refl _
  · rw [h'']; exact (confirmIfQuorum_frame h').1

theorem vote_lastBlocks {r : Election × List Event × Bool} (hr : s.vote e rep t h src = some r) :
    r.1.lastBlocks = s.lastBlocks := by
  by_cases ha : Accepts e s rep t h src
  · rcases vote_accepted ha hr with h' | ⟨r', h', h''⟩
    · rw [h']; rfl
    · rw [h'', (confirmIfQuorum_frame h').2.1]; rfl
  · rw [vote_rejected ha] at hr; cases hr; rfl

/-- `vote` moves `state_m` only to `confirmed`, through `confirm_once`. -/
theorem vote_state {r : Election × List Event × Bool} (hr : s.vote e rep t h src = some r) :
    r.1.state = s.state ∨ r.1.state = .confirmed := by
  by_cases ha : Accepts e s rep t h src
  · rcases vote_accepted ha hr with h' | ⟨r', h', h''⟩
    · exact .inl (by rw [h']; rfl)
    · rw [h'']; exact (confirmIfQuorum_frame h').2.2.2
  · rw [vote_rejected ha] at hr; cases hr; exact .inl rfl

end VoteCheck

/-! ### `fill_from_cache` -/

/-- `nano::vote_cache::entry` as `fill_from_cache` reads it: the block hash, and the
cached votes for it as `(representative, timestamp)` pairs. -/
structure VoteCacheEntry where
  hash : BlockHash
  voters : List (Account × UInt64)
deriving DecidableEq, Repr

/-- One call `vote (rep, timestamp, hash, source)` run to its return with no other call
on the election in between, not even while `confirm_if_quorum` has the lock dropped
around `final_generator.add`: a call that stops for that final-vote window goes on at
once with `quorum_tail`, on the election as the window found it.  A call run in the
window can change the winner before the tail confirms; `Sys` has those runs. -/
def voteCall (e : Env) (s : Election) (rep : Account) (t : UInt64) (h : BlockHash)
    (src : VoteSource) : Option (Election × List Event × VoteResult) :=
  (s.vote e rep t h src).map fun r =>
    if r.2.2 then ((quorumTail e r.1).1, r.2.1 ++ (quorumTail e r.1).2, ⟨false, true⟩)
    else (r.1, r.2.1, s.voteResult e rep t h src)

/-- The `for` loop of `election::fill_from_cache` over the voters left: the cached vote
of each, one call after another, counting those processed. -/
def fillLoop (e : Env) (h : BlockHash) :
    Election → List (Account × UInt64) → Option (Election × List Event × Nat)
  | s, [] => some (s, [], 0)
  | s, (rep, t) :: vs => (voteCall e s rep t h .cache).bind fun r =>
    (fillLoop e h r.1 vs).map fun r' =>
      (r'.1, r.2.1 ++ r'.2.1, (if r.2.2.processed then 1 else 0) + r'.2.2)

/-- `election::fill_from_cache`, with no other call on the election between its votes
or inside any vote's final-vote window, and the node unchanged while it runs: the
election after it, the calls it made, and `inserted`. -/
def fillFromCache (e : Env) (s : Election) (entry : VoteCacheEntry) :
    Option (Election × List Event × Nat) :=
  fillLoop e entry.hash s entry.voters

section FillFromCache

variable {e : Env} {s : Election} {rep : Account} {t : UInt64} {h : BlockHash} {src : VoteSource}

/-- Once a vote for a candidate block is stored, the tally holds that block. -/
theorem tallyImpl_storeVote_ne_nil (hb : h ∈ s.lastBlocks) :
    ((storeVote e s rep t h).tallyImpl e).1.entries ≠ [] := by
  obtain ⟨b, hf⟩ := BlockMap.mem_iff_find.mp hb
  have hh := BlockMap.hash_of_find hf
  have hv : (storeVote e s rep t h).VotedFor b.hash :=
    ⟨⟨rep, ⟨e.now, t, h⟩⟩, AList.mem_lookup_iff.mp (by simp), hh.symm⟩
  obtain ⟨x, hx, -⟩ := exists_mem_tallyImpl (e := e) (by rw [hh]; exact hf) hv
  exact List.ne_nil_of_mem hx

/-- A vote for a candidate block has a defined outcome: `confirm_if_quorum` never meets
an empty tally. -/
theorem vote_isSome (hb : h ∈ s.lastBlocks) : (s.vote e rep t h src).isSome := by
  rw [Option.isSome_iff_ne_none, Ne, vote_eq_none]
  exact fun hn => tallyImpl_storeVote_ne_nil hb hn.2.2

/-- An accepted vote for a candidate block, run to its return, is processed; it keeps
the candidates, and leaves `last_votes` as the vote stored, less what
`confirm_if_quorum` erased. -/
theorem voteCall_accepted (ha : Accepts e s rep t h src) (hb : h ∈ s.lastBlocks) :
    ∃ r, voteCall e s rep t h src = some r ∧ r.2.2.processed = true ∧
      r.1.lastBlocks = s.lastBlocks ∧ Shrinks (storeVote e s rep t h).lastVotes r.1.lastVotes := by
  obtain ⟨r, hr⟩ := Option.isSome_iff_exists.mp
    (vote_isSome hb : (s.vote e rep t h src).isSome)
  have hs := vote_shrinks ha hr
  have hl := vote_lastBlocks hr
  cases hw : r.2.2
  · exact ⟨(r.1, r.2.1, s.voteResult e rep t h src),
      by simp only [voteCall, hr, hw, Option.map_some', if_false, Bool.false_eq_true],
      voteResult_processed.mpr ha, hl, hs⟩
  · exact ⟨((quorumTail e r.1).1, r.2.1 ++ (quorumTail e r.1).2, ⟨false, true⟩),
      by simp only [voteCall, hr, hw, Option.map_some', if_true], rfl,
      by rw [quorumTail_lastBlocks, hl], by rwa [quorumTail_lastVotes]⟩

/-- The loop over cached votes for a candidate block, from distinct voters who weigh
enough and are each newer than their entry: every vote is processed, each voter ends
with its cached vote or no entry, and other accounts' entries are kept or erased. -/
theorem fillLoop_all :
    ∀ (s : Election) (vs : List (Account × UInt64)), h ∈ s.lastBlocks → (vs.map Prod.fst).Nodup →
      (∀ v ∈ vs, e.isDevNetwork = true ∨ e.minimumPrincipalWeight < e.weight v.1) →
      (∀ v ∈ vs, ∀ last, s.lastVotes.lookup v.1 = some last → Precedes last.timestamp last.hash v.2 h) →
      ∃ s' ev, fillLoop e h s vs = some (s', ev, vs.length) ∧
        (∀ v ∈ vs, s'.lastVotes.lookup v.1 = some ⟨e.now, v.2, h⟩ ∨ s'.lastVotes.lookup v.1 = none) ∧
        (∀ a ∉ vs.map Prod.fst, s'.lastVotes.lookup a = s.lastVotes.lookup a ∨
          s'.lastVotes.lookup a = none)
  | s, [], _, _, _, _ => ⟨s, [], rfl, fun _ h => (nomatch h), fun _ _ => .inl rfl⟩
  | s, (rep, t) :: vs, hb, hd, hw, hn => by
    rw [List.map_cons, List.nodup_cons] at hd
    have ha : Accepts e s rep t h .cache := ⟨hw _ (List.mem_cons_self _ _),
      fun last hl => ⟨hn _ (List.mem_cons_self _ _) last hl, .inr (.inl rfl)⟩⟩
    obtain ⟨r, hr, hp, hl, hs⟩ := voteCall_accepted ha hb
    -- after the call: the voter's entry is its vote or gone, the others kept or gone
    have hr1 : ∀ a, r.1.lastVotes.lookup a = (if a = rep then some ⟨e.now, t, h⟩ else s.lastVotes.lookup a) ∨
        r.1.lastVotes.lookup a = none := fun a => by simpa only [storeVote_lookup] using hs a
    have hkeep : ∀ a, a ≠ rep → r.1.lastVotes.lookup a = s.lastVotes.lookup a ∨ r.1.lastVotes.lookup a = none :=
      fun a ha => by simpa only [if_neg ha] using hr1 a
    obtain ⟨s', ev, hf, hv, ho⟩ := fillLoop_all r.1 vs (hl ▸ hb) hd.2
      (fun v hv => hw v (.tail _ hv)) fun v hv last hlast => by
        have hne : v.1 ≠ rep := fun hh => hd.1 (List.mem_map.mpr ⟨v, hv, hh⟩)
        rcases hkeep v.1 hne with hk | hk <;> rw [hk] at hlast
        · exact hn v (.tail _ hv) last hlast
        · cases hlast
    refine ⟨s', r.2.1 ++ ev, ?_, fun v hv' => ?_, fun a ha' => ?_⟩
    · simp only [fillLoop, hr, hf, hp, Option.some_bind, Option.map_some', if_true, List.length_cons,
        Nat.add_comm]
    · rcases List.mem_cons.mp hv' with rfl | hv'
      · dsimp only
        rcases ho rep hd.1 with h' | h' <;> rw [h']
        · simpa only [if_pos rfl] using hr1 rep
        · exact .inr rfl
      · exact hv v hv'
    · rw [List.map_cons, List.mem_cons, not_or] at ha'
      rcases ho a ha'.2 with h' | h' <;> rw [h']
      · exact hkeep a ha'.1
      · exact .inr rfl

/-- **Filling an election from the vote cache.**  Take a cache entry for a block the
election holds, whose voters are distinct and each weigh more than the minimum
principal weight (or the network is a dev network), none with a recorded vote at
least as new in (timestamp, hash).  With no other call between its votes or inside
their final-vote windows, `fill_from_cache` has a defined outcome and processes every cached vote, since cached
votes skip the cooldown: it returns the number of voters.  Each voter's entry is then
its cached vote, unless the node's own vote removal erased it. -/
theorem fillFromCache_inserts_all {entry : VoteCacheEntry} (hb : entry.hash ∈ s.lastBlocks)
    (hd : (entry.voters.map Prod.fst).Nodup)
    (hw : ∀ v ∈ entry.voters, e.isDevNetwork = true ∨ e.minimumPrincipalWeight < e.weight v.1)
    (hn : ∀ v ∈ entry.voters, ∀ last, s.lastVotes.lookup v.1 = some last →
      Precedes last.timestamp last.hash v.2 entry.hash) :
    ∃ s' ev, fillFromCache e s entry = some (s', ev, entry.voters.length) ∧
      ∀ v ∈ entry.voters, s'.lastVotes.lookup v.1 = some ⟨e.now, v.2, entry.hash⟩ ∨
        s'.lastVotes.lookup v.1 = none := by
  obtain ⟨s', ev, hf, hv, -⟩ := fillLoop_all s entry.voters hb hd hw hn
  exact ⟨s', ev, hf, hv⟩

/-- Representatives 1 and 3 send block 1 newer cached votes than those recorded. -/
theorem tieElection_fillFromCache :
    (⟨1, [(1, 5), (3, 7)]⟩ : VoteCacheEntry).hash ∈ tieElection.lastBlocks ∧
    ((⟨1, [(1, 5), (3, 7)]⟩ : VoteCacheEntry).voters.map Prod.fst).Nodup ∧
    (∀ v ∈ (⟨1, [(1, 5), (3, 7)]⟩ : VoteCacheEntry).voters,
      tieEnv.isDevNetwork = true ∨ tieEnv.minimumPrincipalWeight < tieEnv.weight v.1) ∧
    (∀ v ∈ (⟨1, [(1, 5), (3, 7)]⟩ : VoteCacheEntry).voters, ∀ last,
      tieElection.lastVotes.lookup v.1 = some last → Precedes last.timestamp last.hash v.2 1) ∧
    ∃ s' ev, fillFromCache tieEnv tieElection ⟨1, [(1, 5), (3, 7)]⟩ = some (s', ev, 2) ∧
      ∀ v ∈ [((1 : Account), (5 : UInt64)), (3, 7)], s'.lastVotes.lookup v.1 = some ⟨tieEnv.now, v.2, 1⟩ ∨
        s'.lastVotes.lookup v.1 = none := by
  have hb : (1 : BlockHash) ∈ tieElection.lastBlocks := by decide
  have hd : ([(1, 5), (3, 7)].map Prod.fst : List Account).Nodup := by decide
  have hw : ∀ v ∈ [((1 : Account), (5 : UInt64)), (3, 7)],
      tieEnv.isDevNetwork = true ∨ tieEnv.minimumPrincipalWeight < tieEnv.weight v.1 := by decide
  have hn : ∀ v ∈ [((1 : Account), (5 : UInt64)), (3, 7)], ∀ last,
      tieElection.lastVotes.lookup v.1 = some last → Precedes last.timestamp last.hash v.2 1 := by
    intro v hv last hl
    simp only [List.mem_cons, List.mem_singleton, List.not_mem_nil, or_false] at hv
    rcases hv with rfl | rfl
    · obtain rfl := Option.some.inj (hl.symm.trans (by decide : tieElection.lastVotes.lookup 1 = some ⟨0, 1, 1⟩))
      exact .inl (by decide)
    · obtain rfl := Option.some.inj (hl.symm.trans (by decide : tieElection.lastVotes.lookup 3 = some ⟨0, 1, 1⟩))
      exact .inl (by decide)
  exact ⟨hb, hd, hw, hn, fillFromCache_inserts_all hb hd hw hn⟩

end FillFromCache

/-! ### Confirmation on quorum -/

section Quorum

variable {e : Env} {s : Election} {rep : Account} {t : UInt64} {h : BlockHash} {src : VoteSource}

theorem quorumTail_confirms (hf : e.canary = false ∨ e.delta ≤ s.finalWeight) :
    (quorumTail e s).1.state = .confirmed := by
  unfold quorumTail
  rw [if_pos (by rcases hf with hf | hf <;> simp [hf])]
  exact confirmOnce_state _

@[simp] theorem tallied_finalWeight (w : Nat) :
    (tallied e s w).finalWeight = (s.tallyImpl e).2.finalWeight := rfl

@[simp] theorem maybeSwitch_finalWeight (t : Tally) (b : Block) :
    (maybeSwitch e t s b).1.finalWeight = s.finalWeight := by
  unfold maybeSwitch switchWinner removeVotes
  split_ifs <;> rfl

/-- Within the supply, a tally with `have_quorum` sums to `delta` at least, so
`confirm_if_quorum` switches to its first block whenever that is not the winner. -/
theorem delta_le_sum (hsup : SupplyBound e.weight) (hq : haveQuorum (s.tallyImpl e).1 e.delta = true) :
    e.delta ≤ (s.tallyImpl e).1.sum := by
  rw [tallyImpl_sum hsup]
  have := Tally.first_le_sum (s.tallyImpl e).1
  simp only [haveQuorum, decide_eq_true_eq] at hq
  omega

/-- **A quorum confirms.**  Take a vote the election accepts, for one of its candidates,
while the ledger has not confirmed the winner.  When the tally with the vote stored has
`have_quorum`, and the canary is down or the final votes weigh `delta`, the call run to
its return with no other call in between, also none in the final-vote window if it
opens one, confirms the election.  Within the supply, the winner it confirms is the
tally's leader. -/
theorem voteCall_confirms (hsup : SupplyBound e.weight) (ha : Accepts e s rep t h src)
    (hb : h ∈ s.lastBlocks) (hnc : (storeVote e s rep t h).confirmed e = false)
    (hq : haveQuorum ((storeVote e s rep t h).tallyImpl e).1 e.delta = true)
    (hf : e.canary = false ∨ e.delta ≤ ((storeVote e s rep t h).tallyImpl e).2.finalWeight) :
    ∃ r, voteCall e s rep t h src = some r ∧ r.2.2.processed = true ∧ r.1.state = .confirmed ∧
      ∃ x ∈ ((storeVote e s rep t h).tallyImpl e).1.entries.head?, r.1.status.winner.hash = x.2.hash := by
  obtain ⟨⟨w, b⟩, rest, ht⟩ := List.exists_cons_of_ne_nil (tallyImpl_storeVote_ne_nil (e := e) (t := t) hb)
  -- `confirm_if_quorum` goes on from the tally's first block, and ends in `quorum_tail`
  set s₂ := (maybeSwitch e ((storeVote e s rep t h).tallyImpl e).1 (tallied e (storeVote e s rep t h) w) b).1
  have hv : ∃ ev, s.vote e rep t h src = some ((afterQuorum e s₂).1, ev, (afterQuorum e s₂).2.2) := by
    simp only [vote, voteCheck_eq_none.mpr ha, hnc, confirmIfQuorum_of_quorum ht hq, Option.map_some',
      Bool.false_eq_true, if_false]
    exact ⟨_, rfl⟩
  obtain ⟨ev, hv⟩ := hv
  -- whatever `is_quorum` becomes, `quorum_tail` confirms, on the tally's first block
  have hstate : ∀ q : Bool, (quorumTail e { s₂ with isQuorum := q }).1.state = .confirmed := fun q =>
    quorumTail_confirms (by simpa only [s₂, maybeSwitch_finalWeight, tallied_finalWeight] using hf)
  have hwin : ∀ q : Bool, ∃ x ∈ ((storeVote e s rep t h).tallyImpl e).1.entries.head?,
      (quorumTail e { s₂ with isQuorum := q }).1.status.winner.hash = x.2.hash := by
    refine fun q => ⟨(w, b), by rw [ht]; rfl, ?_⟩
    rw [quorumTail_winner]
    show s₂.status.winner.hash = b.hash
    rw [maybeSwitch_winner]
    split_ifs with hs
    · rfl
    · exact by_contra fun hne => hs ⟨delta_le_sum hsup hq, fun h' => hne h'.symm⟩
  obtain ⟨q, hq' | hq'⟩ := afterQuorum_cases (e := e) (s := s₂) <;> rw [hq'] at hv
  · -- the final-vote window opened; the call goes on with `quorum_tail`
    exact ⟨_, by simp only [voteCall, hv, Option.map_some', if_true]; rfl, rfl, hstate q, hwin q⟩
  · exact ⟨_, by simp only [voteCall, hv, Option.map_some', Bool.false_eq_true, if_false]; rfl,
      voteResult_processed.mpr ha, hstate q, hwin q⟩

/-- Representative 1 holds 150 of the weight, against a `delta` of 100. -/
def quorumEnv : Env := { tieEnv with weight := fun a => if a = 1 then 150 else 0 }

/-- Its first vote on a new election confirms it. -/
theorem quorumEnv_confirms :
    ∃ r, voteCall quorumEnv (Election.new quorumEnv ⟨1, 0⟩ .normal) 1 1 1 .live = some r ∧
      r.2.2.processed = true ∧ r.1.state = .confirmed ∧
      ∃ x ∈ ((storeVote quorumEnv (Election.new quorumEnv ⟨1, 0⟩ .normal) 1 1 1).tallyImpl
        quorumEnv).1.entries.head?, r.1.status.winner.hash = x.2.hash :=
  voteCall_confirms
    (supplyBound_of_holders [1] (by decide) (fun a ha => if_neg (by simpa using ha)) (by decide))
    (voteCheck_eq_none.mp (by decide)) (by decide) (by decide) (by decide) (.inl rfl)

end Quorum

end Election

end Nano
