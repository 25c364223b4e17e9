/-
Candidate blocks: `publish`, `replace_by_weight` and `remove_block`.

`publish` takes a new fork into the candidate set.  When the set is full it calls
`replace_by_weight`, which reads the winner's hash and a copy of `last_tally` under
the lock, drops the lock to sort that copy and consult the inactive vote cache,
and takes the lock back to `remove_block` the block it picked.  So a publish is
three atomic steps: `publishLocked` up to the unlock, `replacePick` while the lock
is free, and `replaceRelock` once it is taken again.  Between them any other call
may run.

`replace_by_weight` reports success as soon as it picked a block, whether or not
`remove_block` then removed one.
-/
import NanoConsensus.Election.Vote

namespace Nano

/-- `election::max_blocks`.  Modelled from the spec: the constant is declared in
`election.hpp`, outside the sources; the spec gives the candidate set a default
cap of 10. -/
def maxBlocks : Nat := 10

namespace Election

/-- The entries of `last_votes` that vote for `h`, erased. -/
def eraseVotesFor (votes : VoteMap) (h : BlockHash) : VoteMap :=
  ⟨votes.entries.filter (fun v => v.2.hash ≠ h), votes.nodupKeys.sublist (List.filter_sublist _)⟩

/-- `election::remove_block (hash)`: a candidate other than the winner leaves the
election with the votes for it. -/
def removeBlock (s : Election) (h : BlockHash) : Election × List Event :=
  if s.status.winner.hash ≠ h then
    match s.lastBlocks.find h with
    | some b =>
      ({ s with lastVotes := eraseVotesFor s.lastVotes h, lastBlocks := s.lastBlocks.erase h },
        [.filterClear b])
    | none => (s, [])
  else (s, [])

/-- The end of `publish`, after any replacement: a new hash joins the candidates, and
a known one has its block replaced in place (the winner's, also in the status, with
a re-broadcast).  The `Bool` is `publish`'s result. -/
def publishTail (s : Election) (b : Block) (result : Bool) : Bool × Election × List Event :=
  if result then (true, s, [])
  else match s.lastBlocks.find b.hash with
    | none => (false, { s with lastBlocks := s.lastBlocks.put b }, [])
    | some _ =>
      if s.status.winner.hash = b.hash then
        (true, { s with lastBlocks := s.lastBlocks.put b, status := { s.status with winner := b } },
          [.floodBlock b])
      else (true, { s with lastBlocks := s.lastBlocks.put b }, [])

/-- Where the first locked step of `publish` leaves it. -/
inductive PublishStep
  /-- It returned this result. -/
  | done (result : Bool)
  /-- It is in `replace_by_weight` with the lock dropped, holding the winner's hash
  and the copy of `last_tally` it read. -/
  | unlocked (winnerHash : BlockHash) (sorted : List (BlockHash × Nat))

/-- `election::publish` up to the unlock in `replace_by_weight`. -/
def publishLocked (e : Env) (s : Election) (b : Block) : PublishStep × Election × List Event :=
  if !s.confirmed e && decide (maxBlocks ≤ s.lastBlocks.size) && decide (b.hash ∉ s.lastBlocks) then
    (.unlocked s.status.winner.hash (s.lastTally.entries.map fun x => (x.1, x.2)), s, [])
  else
    let r := publishTail s b (s.confirmed e)
    (.done r.1, r.2.1, r.2.2)

/-- The choice `replace_by_weight` makes with the lock dropped: a block to replace,
or 0.  `sorted` is the copy of `last_tally`, `blocks` what `blocks ()` returns. -/
def replaceChoice (winnerHash : BlockHash) (sorted : List (BlockHash × Nat)) (inactive : Nat)
    (blocks : List BlockHash) : BlockHash :=
  if inactive > 0 ∧ sorted.length < maxBlocks then
    ((blocks.find? fun h => decide (h ∉ sorted.map (·.1)) && decide (h ≠ winnerHash))).getD 0
  else
    -- `sorted` has at least `max_blocks` entries here, so `front ()` and `[1]` exist.
    let front := sorted.headD (0, 0)
    let next := sorted.getD 1 (0, 0)
    if inactive > 0 ∧ inactive > front.2 then
      if front.1 ≠ winnerHash then front.1
      else if inactive > next.2 then next.1
      else 0
    else 0

/-- `replace_by_weight` with the lock dropped: it sorts its copy of the tally, looks
the new block up in the inactive vote cache, and picks.  `std::sort` leaves entries of
equal tally in an unspecified order; the model takes the stable order (an insertion
sort), so among equal tallies it keeps the order of `last_tally`.  It reads `last_blocks` through `blocks ()`, which
takes the lock for the copy. -/
def replacePick (e : Env) (s : Election) (b : Block) (winnerHash : BlockHash)
    (sorted : List (BlockHash × Nat)) : BlockHash × List Event :=
  let sorted := sorted.insertionSort fun x y => x.2 ≤ y.2
  let replaced := replaceChoice winnerHash sorted (e.inactiveTally b.hash) s.lastBlocks.map.keys
  (replaced, if replaced = 0 then [] else [.eraseHash replaced])

/-- `replace_by_weight` after retaking the lock, and the rest of `publish`. -/
def replaceRelock (s : Election) (b : Block) (replaced : BlockHash) :
    Bool × Election × List Event :=
  let r : Election × List Event := if replaced = 0 then (s, []) else removeBlock s replaced
  let clear : List Event := if replaced = 0 then [.filterClear b] else []
  let t := publishTail r.1 b (replaced = 0)
  (t.1, t.2.1, r.2 ++ clear ++ t.2.2)

/-! ### What each part changes -/

section Frame

variable {e : Env} {s : Election} {b : Block}

theorem eraseVotesFor_shrinks (votes : VoteMap) (h : BlockHash) : Shrinks votes (eraseVotesFor votes h) := by
  intro a
  cases hv : (eraseVotesFor votes h).lookup a with
  | none => exact .inr rfl
  | some v => exact .inl (Eq.symm (AList.mem_lookup_iff.mpr (List.mem_filter.mp (AList.mem_lookup_iff.mp hv)).1))

@[simp] theorem removeBlock_status (h : BlockHash) : (removeBlock s h).1.status = s.status := by
  unfold removeBlock; split <;> (try split) <;> rfl

@[simp] theorem removeBlock_state (h : BlockHash) : (removeBlock s h).1.state = s.state := by
  unfold removeBlock; split <;> (try split) <;> rfl

/-- `remove_block` takes the block out exactly when it is a candidate other than the
winner. -/
theorem removeBlock_lastBlocks (h : BlockHash) :
    (removeBlock s h).1.lastBlocks =
      if s.status.winner.hash ≠ h ∧ h ∈ s.lastBlocks then s.lastBlocks.erase h else s.lastBlocks := by
  unfold removeBlock
  split
  · rename_i hw
    split <;> rename_i hf
    · rw [if_pos ⟨hw, BlockMap.mem_iff_find.mpr ⟨_, hf⟩⟩]
    · rw [if_neg fun hc => BlockMap.find_eq_none.mp hf hc.2]
  · rw [if_neg fun hc => ‹¬_› hc.1]

theorem removeBlock_shrinks (h : BlockHash) : Shrinks s.lastVotes (removeBlock s h).1.lastVotes := by
  unfold removeBlock; split <;> (try split)
  · exact eraseVotesFor_shrinks _ _
  · exact Shrinks.refl _
  · exact Shrinks.refl _

/-- `remove_block` never removes the winner. -/
theorem removeBlock_winnerStored (h : BlockHash) (hw : s.WinnerStored) : (removeBlock s h).1.WinnerStored := by
  unfold removeBlock; split <;> (try split)
  · simpa [WinnerStored, ‹s.status.winner.hash ≠ h›] using hw
  · exact hw
  · exact hw

@[simp] theorem publishTail_winner_hash (result : Bool) :
    (publishTail s b result).2.1.status.winner.hash = s.status.winner.hash := by
  unfold publishTail; split <;> (try split) <;> (try split) <;> simp_all

@[simp] theorem publishTail_lastVotes (result : Bool) :
    (publishTail s b result).2.1.lastVotes = s.lastVotes := by
  unfold publishTail; split <;> (try split) <;> (try split) <;> rfl

@[simp] theorem publishTail_state (result : Bool) : (publishTail s b result).2.1.state = s.state := by
  unfold publishTail; split <;> (try split) <;> (try split) <;> rfl

/-- `publish` stores a new fork, or replaces a block in place, the winner with it. -/
theorem publishTail_winnerStored (result : Bool) (hw : s.WinnerStored) :
    (publishTail s b result).2.1.WinnerStored := by
  unfold publishTail WinnerStored at *
  split
  · exact hw
  · split
    · rename_i hb
      have : s.status.winner.hash ≠ b.hash := fun heq => by rw [heq, hb] at hw; cases hw
      simpa [this] using hw
    · split <;> simp [*]

theorem publishLocked_frame {r : PublishStep × Election × List Event} (hr : publishLocked e s b = r) :
    r.2.1.status.winner.hash = s.status.winner.hash ∧ r.2.1.lastVotes = s.lastVotes ∧
      r.2.1.state = s.state ∧ (s.WinnerStored → r.2.1.WinnerStored) := by
  subst hr; unfold publishLocked
  split
  · exact ⟨rfl, rfl, rfl, id⟩
  · exact ⟨by simp, by simp, by simp, publishTail_winnerStored _⟩

theorem replaceRelock_frame (replaced : BlockHash) :
    (replaceRelock s b replaced).2.1.status.winner.hash = s.status.winner.hash ∧
      Shrinks s.lastVotes (replaceRelock s b replaced).2.1.lastVotes ∧
      (replaceRelock s b replaced).2.1.state = s.state ∧
      (s.WinnerStored → (replaceRelock s b replaced).2.1.WinnerStored) := by
  unfold replaceRelock
  split
  · exact ⟨by simp, by simp [Shrinks.refl], by simp, publishTail_winnerStored _⟩
  · exact ⟨by simp, by simpa using removeBlock_shrinks _, by simp,
      fun hw => publishTail_winnerStored _ (removeBlock_winnerStored _ hw)⟩

/-- **What the relock does to the candidate count.**  Once `replace_by_weight` has
picked a block (`replaced ≠ 0`) for a new one, the new block joins, and the pick
leaves only if it is still a candidate other than the winner: a pick that is gone
removes nothing. -/
theorem replaceRelock_size {x : BlockHash} (hx : x ≠ 0) (hb : b.hash ∉ s.lastBlocks) :
    (s.replaceRelock b x).2.1.lastBlocks.size +
        (if s.status.winner.hash ≠ x ∧ x ∈ s.lastBlocks then 1 else 0) = s.lastBlocks.size + 1 := by
  have hb' : b.hash ∉ (removeBlock s x).1.lastBlocks := by
    rw [removeBlock_lastBlocks]
    split
    · exact fun hm => hb (BlockMap.mem_erase.mp hm).2
    · exact hb
  have ht : (s.replaceRelock b x).2.1.lastBlocks = (removeBlock s x).1.lastBlocks.put b := by
    simp only [replaceRelock, hx, publishTail, decide_False, Bool.false_eq_true, if_false,
      BlockMap.find_eq_none.mpr hb']
  rw [ht, BlockMap.size_put_of_not_mem hb', removeBlock_lastBlocks]
  split
  · rename_i hc
    have := BlockMap.size_erase_of_mem hc.2
    omega
  · rfl

theorem publishTail_noConfirm (result : Bool) (st : ElectionStatus) :
    Event.confirmed st ∉ (publishTail s b result).2.2 := by
  unfold publishTail; split <;> (try split) <;> (try split) <;> simp

theorem removeBlock_noConfirm (h : BlockHash) (st : ElectionStatus) :
    Event.confirmed st ∉ (removeBlock s h).2 := by
  unfold removeBlock; split <;> (try split) <;> simp

theorem publishLocked_noConfirm (st : ElectionStatus) : Event.confirmed st ∉ (publishLocked e s b).2.2 := by
  unfold publishLocked; split
  · simp
  · exact publishTail_noConfirm _ st

theorem replacePick_noConfirm (w : BlockHash) (sorted : List (BlockHash × Nat)) (st : ElectionStatus) :
    Event.confirmed st ∉ (replacePick e s b w sorted).2 := by
  simp only [replacePick]; split <;> simp

theorem replaceRelock_noConfirm (replaced : BlockHash) (st : ElectionStatus) :
    Event.confirmed st ∉ (replaceRelock s b replaced).2.2 := by
  intro hc
  rcases List.mem_append.mp hc with hc | hc
  · rcases List.mem_append.mp hc with hc | hc
    · split at hc
      · cases hc
      · exact removeBlock_noConfirm _ st hc
    · split at hc <;> simp at hc
  · exact publishTail_noConfirm _ st hc

/-- The first locked step of `publish` adds a block only to a set with room for it. -/
theorem publishLocked_size (hs : s.lastBlocks.size ≤ maxBlocks) :
    (publishLocked e s b).2.1.lastBlocks.size ≤ maxBlocks := by
  unfold publishLocked
  split
  · exact hs
  · rename_i hn
    unfold publishTail
    split
    · exact hs
    · rename_i hc
      split
      · rename_i hf
        have hb : b.hash ∉ s.lastBlocks := fun hm => by
          obtain ⟨_, hb⟩ := BlockMap.mem_iff_find.mp hm; rw [hf] at hb; cases hb
        have : s.lastBlocks.size < maxBlocks := by
          by_contra hle
          exact hn (by simp [hc, hb, Nat.le_of_not_lt hle])
        rw [BlockMap.size_put_of_not_mem hb]; omega
      · rename_i hf
        have := BlockMap.size_put_of_mem (BlockMap.mem_iff_find.mpr ⟨_, hf⟩)
        split <;> simpa [this] using hs

end Frame

end Election

end Nano
