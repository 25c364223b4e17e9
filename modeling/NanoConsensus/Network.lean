/-
The rescheduled broadcasts of `nano::network`.

`flood_block_many`, `broadcast_confirm_req_base` and
`broadcast_confirm_req_batched_many` each send a bounded share of their work and
leave the rest to a copy of themselves that `node.workers` runs after a delay, as
long as the node still exists; the copy that finds nothing left runs the callback.
One call is a function from what it is given to what it sends and what it leaves
to its copy (`none`: no copy is scheduled).  The chain of calls, the first one and
the copies the workers run, is `chain`, one unit of `calls` per call: a node that
goes away stops the chain early.  The model is for a positive `delay_a`, as every
caller's default `broadcast_interval_ms` (10) is: then the delays only decide when a
copy runs, and are left out.  With `delay_a = 0` and a second block left,
`flood_block_many` computes `std::rand () % delay_a`, a division by zero, after its
first flood and before it schedules a copy.

For `broadcast_confirm_req_batched_many` the requests a channel's deque makes are
`batches`: its pairs in order, `confirm_req_hashes_max` at a time.  Over the chain a
channel gets exactly the first of them, one per call (`sentTo_chain`), and the
callback runs once, last, when the calls cover every channel's requests
(`chain_callback_last`, `callback_mem_chain`).  With `Bundle.rounds`, the most
requests any channel makes, the whole broadcast in one statement is
`broadcastConfirmReqBatchedMany_chain`.
-/
import NanoConsensus.Types

namespace Nano

namespace Network

/-- A `nano::transport::channel`, by identity. -/
abbrev Channel := Nat

/-- `nano::root`. -/
abbrev Root := Nat

/-- `network::confirm_req_hashes_max`: the pairs one batched `confirm_req` carries
at most. -/
def confirmReqHashesMax : Nat := 7

/-- `max_reps` of `broadcast_confirm_req_base`: the representatives one call asks. -/
def maxReps : Nat := 10

/-- What the broadcasts hand to the network and to the caller, in order. -/
inductive Sent
  /-- `channel->send (confirm_req { roots_hashes })` -/
  | confirmReq (c : Channel) (rootsHashes : List (BlockHash × Root))
  /-- `flood_block (block)` -/
  | floodBlock (b : Block)
  /-- `callback_a ()` -/
  | callback
deriving DecidableEq, Repr

/-- The calls `node.workers` runs for one broadcast: the first call and each copy it
schedules, `calls` of them at most. -/
def chain {σ : Type} (call : σ → List Sent × Option σ) : Nat → σ → List Sent
  | 0, _ => []
  | n + 1, s =>
    match call s with
    | (sent, none) => sent
    | (sent, some s') => sent ++ chain call n s'

theorem chain_succ {σ : Type} (call : σ → List Sent × Option σ) (n : Nat) (s : σ) :
    chain call (n + 1) s = (call s).1 ++ ((call s).2.map (chain call n)).getD [] := by
  simp only [chain]
  split <;> simp_all

/-! ### `flood_block_many` -/

/-- One call of `network::flood_block_many`, for a positive `delay_a`: it floods the
front block, and leaves the rest to its copy, or runs the callback when that was the
last block.  An empty deque does nothing, the callback included. -/
def floodBlockMany : List Block → List Sent × Option (List Block)
  | [] => ([], none)
  | [b] => ([.floodBlock b, .callback], none)
  | b :: bs => ([.floodBlock b], some bs)

/-- **The chain of `flood_block_many`.**  Each call floods one block, in deque
order; the callback runs once, after the last block, when the workers ran a call
for every block, and never for an empty deque. -/
theorem chain_floodBlockMany :
    ∀ (n : Nat) (bs : List Block), chain floodBlockMany n bs =
      (bs.take n).map .floodBlock ++ if bs ≠ [] ∧ bs.length ≤ n then [.callback] else []
  | 0, bs => by cases bs <;> simp [chain]
  | n + 1, [] => by simp [chain, floodBlockMany]
  | n + 1, [b] => by simp [chain, floodBlockMany]
  | n + 1, b :: b' :: bs => by
    simp only [chain_succ, floodBlockMany, Option.map_some', Option.getD_some,
      chain_floodBlockMany n (b' :: bs)]
    simp

/-! ### `broadcast_confirm_req_base` -/

/-- The `while` loop of `network::broadcast_confirm_req_base`, with `n` sends left
before `max_reps`: it asks the representative at the back of `endpoints` and pops
it, until none is left. -/
def sendToBack (p : BlockHash × Root) : Nat → List Channel → List Sent × List Channel
  | 0, es => ([], es)
  | n + 1, es =>
    match es.getLast? with
    | none => ([], es)
    | some c => ((Sent.confirmReq c [p]) :: (sendToBack p n es.dropLast).1, (sendToBack p n es.dropLast).2)

/-- The loop asks the last `n` representatives, from the back, and leaves the others. -/
theorem sendToBack_eq (p : BlockHash × Root) :
    ∀ (n : Nat) (es : List Channel),
      sendToBack p n es = ((es.reverse.take n).map (.confirmReq · [p]), es.take (es.length - n))
  | 0, es => by simp [sendToBack]
  | n + 1, es => by
    rcases List.eq_nil_or_concat es with rfl | ⟨ys, c, rfl⟩
    · simp [sendToBack]
    · simp [sendToBack, sendToBack_eq p n ys, List.take_append_of_le_length (Nat.sub_le _ _)]

/-- One call of `network::broadcast_confirm_req_base` for the `(hash, root)` pair `p`
of a block: it asks up to `max_reps` representatives from the back of `endpoints`,
and leaves the rest to its copy. -/
def broadcastConfirmReqBase (p : BlockHash × Root) (endpoints : List Channel) :
    List Sent × Option (List Channel) :=
  let r := sendToBack p maxReps endpoints
  (r.1, if r.2 = [] then none else some r.2)

/-- **The chain of `broadcast_confirm_req_base`.**  The calls the workers run ask
every representative once, from the back of the vector, `max_reps` per call; the
chain ends once all are asked. -/
theorem chain_broadcastConfirmReqBase (p : BlockHash × Root) :
    ∀ (n : Nat) (es : List Channel),
      chain (broadcastConfirmReqBase p) n es = (es.reverse.take (maxReps * n)).map (.confirmReq · [p])
  | 0, es => by simp [chain]
  | n + 1, es => by
    rw [chain_succ]
    simp only [broadcastConfirmReqBase, sendToBack_eq]
    split
    · rename_i h
      have hle : es.length ≤ maxReps := by
        have := congrArg List.length h
        simp only [List.length_take, List.length_nil] at this
        omega
      have hle' : es.length ≤ maxReps * (n + 1) :=
        hle.trans (Nat.le_mul_of_pos_right _ (Nat.succ_pos n))
      simp [List.take_of_length_le (by simpa using hle' : es.reverse.length ≤ maxReps * (n + 1)),
        List.take_of_length_le (by simpa using hle : es.reverse.length ≤ maxReps)]
    · simp only [Option.map_some', Option.getD_some, chain_broadcastConfirmReqBase p n,
        ← List.drop_reverse, ← List.map_append, Nat.mul_succ, Nat.add_comm _ maxReps, List.take_add]

/-! ### `broadcast_confirm_req_batched_many` -/

/-- An entry of the request bundle: a channel and its deque of `(hash, root)` pairs. -/
abbrev Request := Σ _ : Channel, List (BlockHash × Root)

/-- `request_bundle_a`: one deque per channel, in the map's iteration order. -/
abbrev Bundle := AList fun _ : Channel => List (BlockHash × Root)

/-- The `for` loop of `network::broadcast_confirm_req_batched_many` over the entries
from `i` on: one `confirm_req` per entry with the first `confirm_req_hashes_max`
pairs of its deque, which it pops; the entry is erased once its deque is empty. -/
def sendBatches : List Request → List Sent × List Request
  | [] => ([], [])
  | e :: es =>
    (Sent.confirmReq e.1 (e.2.take confirmReqHashesMax) :: (sendBatches es).1,
      if e.2.drop confirmReqHashesMax = [] then (sendBatches es).2
      else ⟨e.1, e.2.drop confirmReqHashesMax⟩ :: (sendBatches es).2)

theorem keys_sendBatches_sublist : ∀ es : List Request, List.Sublist (sendBatches es).2.keys es.keys
  | [] => List.Sublist.slnil
  | e :: es => by
    simp only [sendBatches]
    split
    · exact (keys_sendBatches_sublist es).cons _
    · exact (keys_sendBatches_sublist es).cons₂ _

/-- The bundle left after the loop. -/
def Bundle.rest (b : Bundle) : Bundle :=
  ⟨(sendBatches b.entries).2, (keys_sendBatches_sublist b.entries).nodup b.nodupKeys⟩

/-- One call of `network::broadcast_confirm_req_batched_many`: the loop, then the
rest to a copy, or the callback when nothing is left. -/
def broadcastConfirmReqBatchedMany (b : Bundle) : List Sent × Option Bundle :=
  if b.rest.entries = [] then ((sendBatches b.entries).1 ++ [.callback], none)
  else ((sendBatches b.entries).1, some b.rest)

/-- The loop sends each entry's first pairs to its channel, in the map's order. -/
theorem sendBatches_fst (es : List Request) :
    (sendBatches es).1 = es.map fun e => .confirmReq e.1 (e.2.take confirmReqHashesMax) := by
  induction es with
  | nil => rfl
  | cons e es ih => simp [sendBatches, ih]

theorem dlookup_sendBatches (c : Channel) : ∀ es : List Request, es.NodupKeys →
    (sendBatches es).2.dlookup c = (es.dlookup c).bind fun q =>
      if q.drop confirmReqHashesMax = [] then none else some (q.drop confirmReqHashesMax)
  | [], _ => rfl
  | ⟨c', q⟩ :: es, h => by
    rw [List.nodupKeys_cons] at h
    have ih := dlookup_sendBatches c es h.2
    simp only [sendBatches]
    by_cases hc : c = c'
    · subst hc
      rw [List.dlookup_cons_eq, Option.some_bind]
      split
      · rw [ih, List.dlookup_eq_none.mpr h.1, Option.none_bind]
      · exact List.dlookup_cons_eq _ _ _
    · rw [List.dlookup_cons_ne es ⟨c', q⟩ hc]
      split
      · exact ih
      · rw [List.dlookup_cons_ne _ ⟨c', _⟩ hc, ih]

/-- After the loop, a channel keeps what its deque held past the first
`confirm_req_hashes_max` pairs, and is gone when nothing was. -/
theorem lookup_rest (b : Bundle) (c : Channel) :
    b.rest.lookup c = (b.lookup c).bind fun q =>
      if q.drop confirmReqHashesMax = [] then none else some (q.drop confirmReqHashesMax) :=
  dlookup_sendBatches c b.entries b.nodupKeys

/-- The bundle's copy holds a channel exactly when its deque had more than
`confirm_req_hashes_max` pairs, with what lay past them. -/
theorem lookup_rest_eq_some {b : Bundle} {c : Channel} {q' : List (BlockHash × Root)} :
    b.rest.lookup c = some q' ↔
      ∃ q, b.lookup c = some q ∧ q.drop confirmReqHashesMax ≠ [] ∧ q' = q.drop confirmReqHashesMax := by
  rw [lookup_rest]
  cases b.lookup c with
  | none => simp
  | some q =>
    simp only [Option.some_bind, Option.some.injEq, exists_eq_left']
    split
    · simp_all
    · simp_all [eq_comm]

theorem chain_batchedMany_succ (n : Nat) (b : Bundle) :
    chain broadcastConfirmReqBatchedMany (n + 1) b = (sendBatches b.entries).1 ++
      if b.rest.entries = [] then [.callback] else chain broadcastConfirmReqBatchedMany n b.rest := by
  rw [chain_succ]
  unfold broadcastConfirmReqBatchedMany
  split <;> simp

/-! ### What each channel receives -/

/-- The requests one channel's deque makes over the chain: its first
`confirm_req_hashes_max` pairs, then the rest in the same way; an empty deque makes
one empty request. -/
def batches (q : List (BlockHash × Root)) : List (List (BlockHash × Root)) :=
  if q.drop confirmReqHashesMax = [] then [q.take confirmReqHashesMax]
  else q.take confirmReqHashesMax :: batches (q.drop confirmReqHashesMax)
termination_by q.length
decreasing_by
  simp only [List.length_drop]
  have : 0 < q.length := List.length_pos.mpr fun hq => by simp_all
  simp only [confirmReqHashesMax]
  omega

theorem batches_eq (q : List (BlockHash × Root)) :
    batches q = q.take confirmReqHashesMax ::
      if q.drop confirmReqHashesMax = [] then [] else batches (q.drop confirmReqHashesMax) := by
  rw [batches]
  split <;> simp_all

theorem batches_length (q : List (BlockHash × Root)) :
    (batches q).length = if q.drop confirmReqHashesMax = [] then 1
      else (batches (q.drop confirmReqHashesMax)).length + 1 := by
  rw [batches_eq q]
  split <;> rfl

theorem batches_length_pos (q : List (BlockHash × Root)) : 0 < (batches q).length := by
  rw [batches_eq q]
  exact Nat.succ_pos _

theorem take_batch (q : List (BlockHash × Root)) :
    (q.take confirmReqHashesMax).length ≤ confirmReqHashesMax ∧
      (q ≠ [] → q.take confirmReqHashesMax ≠ []) :=
  ⟨List.length_take_le _ _, fun hq => by simp [hq, confirmReqHashesMax]⟩

/-- The requests a deque makes carry its pairs once each, in order, at most
`confirm_req_hashes_max` at a time, and none is empty unless the deque was. -/
theorem batches_spec (q : List (BlockHash × Root)) :
    (batches q).flatten = q ∧
      ∀ xs ∈ batches q, xs.length ≤ confirmReqHashesMax ∧ (q ≠ [] → xs ≠ []) := by
  induction q using batches.induct with
  | case1 q hd =>
    rw [batches_eq, if_pos hd]
    refine ⟨by simpa [hd] using List.take_append_drop confirmReqHashesMax q, fun xs hx => ?_⟩
    rw [List.mem_singleton.mp hx]
    exact take_batch q
  | case2 q hd ih =>
    rw [batches_eq, if_neg hd]
    refine ⟨by rw [List.flatten_cons, ih.1, List.take_append_drop], fun xs hx => ?_⟩
    rcases List.mem_cons.mp hx with rfl | hx
    · exact take_batch q
    · exact ⟨(ih.2 xs hx).1, fun _ => (ih.2 xs hx).2 hd⟩

/-- The pairs of each `confirm_req` sent to channel `c`, in order. -/
def sentTo (c : Channel) (out : List Sent) : List (List (BlockHash × Root)) :=
  out.filterMap fun
    | .confirmReq c' xs => if c' = c then some xs else none
    | _ => none

@[simp] theorem sentTo_append (c : Channel) (o o' : List Sent) :
    sentTo c (o ++ o') = sentTo c o ++ sentTo c o' := List.filterMap_append _ _ _

theorem sentTo_sendBatches (c : Channel) : ∀ es : List Request, es.NodupKeys →
    sentTo c (sendBatches es).1 = ((es.dlookup c).map (·.take confirmReqHashesMax)).toList
  | [], _ => rfl
  | ⟨c', q⟩ :: es, h => by
    rw [List.nodupKeys_cons] at h
    have ih := sentTo_sendBatches c es h.2
    simp only [sentTo] at ih ⊢
    simp only [sendBatches, List.filterMap_cons]
    by_cases hc : c = c'
    · subst hc
      simp only [if_pos rfl, ih, List.dlookup_eq_none.mpr h.1, List.dlookup_cons_eq]
      rfl
    · simp only [if_neg (Ne.symm hc), ih, List.dlookup_cons_ne es ⟨c', q⟩ hc]

/-- **What `broadcast_confirm_req_batched_many` sends each channel.**  Over the calls
the workers run, channel `c` gets the requests its deque makes, in order: the
first `n` of them after `n` calls. -/
theorem sentTo_chain (c : Channel) : ∀ (n : Nat) (b : Bundle),
    sentTo c (chain broadcastConfirmReqBatchedMany n b) = (((b.lookup c).map batches).getD []).take n
  | 0, b => by simp [chain, sentTo]
  | n + 1, b => by
    have hs : sentTo c (sendBatches b.entries).1 =
        ((b.lookup c).map (·.take confirmReqHashesMax)).toList :=
      sentTo_sendBatches c b.entries b.nodupKeys
    have hrest : sentTo c (if b.rest.entries = [] then [Sent.callback]
        else chain broadcastConfirmReqBatchedMany n b.rest) =
        (((b.rest.lookup c).map batches).getD []).take n := by
      split
      · rename_i he
        simp [sentTo, AList.lookup, he]
      · exact sentTo_chain c n b.rest
    rw [chain_batchedMany_succ, sentTo_append, hs, hrest, lookup_rest]
    cases b.lookup c with
    | none => simp
    | some q =>
      simp only [Option.map_some', Option.getD_some, Option.bind_some, Option.toList_some]
      rw [batches_eq q]
      by_cases hd : q.length ≤ confirmReqHashesMax <;> simp [hd]

/-- The callback runs at most once, as the last thing the chain does. -/
theorem chain_callback_last : ∀ (n : Nat) (b : Bundle), ∃ msgs, Sent.callback ∉ msgs ∧
    (chain broadcastConfirmReqBatchedMany n b = msgs ∨
      chain broadcastConfirmReqBatchedMany n b = msgs ++ [.callback])
  | 0, _ => ⟨[], List.not_mem_nil _, .inl rfl⟩
  | n + 1, b => by
    have hs : Sent.callback ∉ (sendBatches b.entries).1 := by simp [sendBatches_fst]
    rw [chain_batchedMany_succ]
    split
    · exact ⟨_, hs, .inr rfl⟩
    · obtain ⟨m, hm, h⟩ := chain_callback_last n b.rest
      refine ⟨(sendBatches b.entries).1 ++ m, by simp [hs, hm], ?_⟩
      rcases h with h | h <;> simp [h]

/-- **When the chain ends.**  The callback runs exactly when the workers ran at
least one call, and at least as many calls as any channel's deque makes requests. -/
theorem callback_mem_chain : ∀ (n : Nat) (b : Bundle),
    Sent.callback ∈ chain broadcastConfirmReqBatchedMany n b ↔
      0 < n ∧ ∀ c q, b.lookup c = some q → (batches q).length ≤ n
  | 0, _ => by simp [chain]
  | n + 1, b => by
    have hs : Sent.callback ∉ (sendBatches b.entries).1 := by simp [sendBatches_fst]
    rw [chain_batchedMany_succ, List.mem_append, or_iff_right hs]
    split
    · rename_i he
      refine iff_of_true (List.mem_singleton_self _) ⟨Nat.succ_pos n, fun c q hq => ?_⟩
      have hn : b.rest.lookup c = none := by simp [AList.lookup, he]
      rw [lookup_rest, hq, Option.some_bind] at hn
      split at hn
      · rw [batches_length, if_pos ‹_›]
        omega
      · cases hn
    · rename_i he
      rw [callback_mem_chain n b.rest]
      obtain ⟨⟨c₀, q₀⟩, he₀⟩ := List.exists_mem_of_ne_nil _ he
      obtain ⟨q₁, hq₁, hd₁, rfl⟩ := lookup_rest_eq_some.mp (List.mem_dlookup b.rest.nodupKeys he₀)
      constructor
      · rintro ⟨-, H⟩
        refine ⟨Nat.succ_pos n, fun c q hq => ?_⟩
        rw [batches_length]
        split
        · omega
        · have := H c _ (lookup_rest_eq_some.mpr ⟨q, hq, ‹_›, rfl⟩)
          omega
      · rintro ⟨-, H⟩
        have h₁ := H c₀ q₁ hq₁
        rw [batches_length, if_neg hd₁] at h₁
        have := batches_length_pos (q₁.drop confirmReqHashesMax)
        refine ⟨by omega, fun c q' hq' => ?_⟩
        obtain ⟨q, hq, hd, rfl⟩ := lookup_rest_eq_some.mp hq'
        have := H c q hq
        rw [batches_length, if_neg hd] at this
        omega

/-- A non-empty deque makes `⌈|q| / confirm_req_hashes_max⌉` requests. -/
theorem batches_length_of_ne_nil {q : List (BlockHash × Root)} (hq : q ≠ []) :
    (batches q).length = (q.length + confirmReqHashesMax - 1) / confirmReqHashesMax := by
  induction q using batches.induct with
  | case1 q hd =>
    rw [batches_eq, if_pos hd, List.length_cons, List.length_nil]
    have h1 := List.drop_eq_nil_iff.mp hd
    have h2 := List.length_pos.mpr hq
    simp only [confirmReqHashesMax] at h1 ⊢
    omega
  | case2 q hd ih =>
    rw [batches_length, if_neg hd, ih hd, List.length_drop]
    have h1 : ¬q.length ≤ confirmReqHashesMax := fun h => hd (List.drop_eq_nil_iff.mpr h)
    simp only [confirmReqHashesMax] at h1 ⊢
    omega

/-- The number of calls the broadcast needs: the most requests any channel's deque
makes, `⌈|deque| / confirm_req_hashes_max⌉` at its largest over the bundle. -/
def Bundle.rounds (b : Bundle) : Nat :=
  (b.entries.map fun e => (e.2.length + confirmReqHashesMax - 1) / confirmReqHashesMax).foldr max 0

theorem foldr_max_le_iff {l : List Nat} {n : Nat} : l.foldr max 0 ≤ n ↔ ∀ x ∈ l, x ≤ n := by
  induction l with
  | nil => simp
  | cons x xs ih => simp [ih]

/-- With non-empty deques, the chain's calls cover every channel's requests exactly
when they are at least `rounds`. -/
theorem rounds_le_iff {b : Bundle} (hb : ∀ c q, b.lookup c = some q → q ≠ []) (n : Nat) :
    b.rounds ≤ n ↔ ∀ c q, b.lookup c = some q → (batches q).length ≤ n := by
  rw [Bundle.rounds, foldr_max_le_iff]
  constructor
  · intro h c q hq
    rw [batches_length_of_ne_nil (hb c q hq)]
    exact h _ (List.mem_map.mpr ⟨⟨c, q⟩, AList.mem_lookup_iff.mp hq, rfl⟩)
  · intro h x hx
    obtain ⟨⟨c, q⟩, he, rfl⟩ := List.mem_map.mp hx
    have hq : b.lookup c = some q := AList.mem_lookup_iff.mpr he
    rw [← batches_length_of_ne_nil (hb c q hq)]
    exact h c q hq

/-- Once the callback ran, more calls add nothing: the chain has ended. -/
theorem chain_stable : ∀ (n : Nat) (b : Bundle), Sent.callback ∈ chain broadcastConfirmReqBatchedMany n b →
    ∀ m, n ≤ m → chain broadcastConfirmReqBatchedMany m b = chain broadcastConfirmReqBatchedMany n b
  | 0, _, h, _, _ => by simp [chain] at h
  | n + 1, b, h, m + 1, hm => by
    have hs : Sent.callback ∉ (sendBatches b.entries).1 := by simp [sendBatches_fst]
    rw [chain_batchedMany_succ] at h ⊢
    rw [chain_batchedMany_succ]
    split
    · rfl
    · rename_i he
      rw [if_neg he, List.mem_append, or_iff_right hs] at h
      rw [chain_stable n b.rest h m (Nat.le_of_succ_le_succ hm)]

/-- **The chain of `broadcast_confirm_req_batched_many`.**  For a bundle of non-empty
deques, with `N` the larger of 1 and the most requests any deque makes: each channel
gets exactly the pairs of its deque, once each and in order, in requests of 1 to
`confirm_req_hashes_max` pairs, and a channel outside the bundle gets nothing; the
callback runs exactly when the workers ran `N` calls, once, as the last thing the
chain does; and calls past the `N`-th add nothing. -/
theorem broadcastConfirmReqBatchedMany_chain (b : Bundle) (hb : ∀ c q, b.lookup c = some q → q ≠ []) :
    (∀ c q, b.lookup c = some q →
      (sentTo c (chain broadcastConfirmReqBatchedMany (max 1 b.rounds) b)).flatten = q ∧
      ∀ xs ∈ sentTo c (chain broadcastConfirmReqBatchedMany (max 1 b.rounds) b),
        1 ≤ xs.length ∧ xs.length ≤ confirmReqHashesMax) ∧
    (∀ c, b.lookup c = none → sentTo c (chain broadcastConfirmReqBatchedMany (max 1 b.rounds) b) = []) ∧
    (∀ n, Sent.callback ∈ chain broadcastConfirmReqBatchedMany n b ↔ max 1 b.rounds ≤ n) ∧
    (∃ msgs, Sent.callback ∉ msgs ∧
      chain broadcastConfirmReqBatchedMany (max 1 b.rounds) b = msgs ++ [.callback]) ∧
    (∀ n, max 1 b.rounds ≤ n →
      chain broadcastConfirmReqBatchedMany n b = chain broadcastConfirmReqBatchedMany (max 1 b.rounds) b) := by
  have hend : ∀ n, Sent.callback ∈ chain broadcastConfirmReqBatchedMany n b ↔ max 1 b.rounds ≤ n := by
    intro n
    rw [callback_mem_chain, ← rounds_le_iff hb, max_le_iff]
    omega
  have hcb := (hend _).mpr (le_refl _)
  refine ⟨fun c q hq => ?_, fun c hc => by simp [sentTo_chain, hc], hend, ?_,
    fun n hn => chain_stable _ b hcb n hn⟩
  · have hle : (batches q).length ≤ max 1 b.rounds :=
      ((rounds_le_iff hb _).mp (le_max_right 1 b.rounds)) c q hq
    rw [sentTo_chain, hq, Option.map_some', Option.getD_some, List.take_of_length_le hle]
    refine ⟨(batches_spec q).1, fun xs hx => ?_⟩
    obtain ⟨hlen, hne⟩ := (batches_spec q).2 xs hx
    exact ⟨List.length_pos.mpr (hne (hb c q hq)), hlen⟩
  · obtain ⟨msgs, hm, h⟩ := chain_callback_last (max 1 b.rounds) b
    rcases h with h | h
    · rw [h] at hcb; exact absurd hcb hm
    · exact ⟨msgs, hm, h⟩

/-- Channel 1 with nine pairs, channel 2 with two. -/
def twoChannels : Bundle :=
  ⟨[⟨1, (List.range 9).map fun i => (i, i)⟩, ⟨2, [(9, 9), (10, 10)]⟩], show List.Nodup [1, 2] by decide⟩

theorem twoChannels_chain : (∀ c q, twoChannels.lookup c = some q → q ≠ []) ∧
    ((∀ c q, twoChannels.lookup c = some q →
      (sentTo c (chain broadcastConfirmReqBatchedMany (max 1 twoChannels.rounds) twoChannels)).flatten = q ∧
      ∀ xs ∈ sentTo c (chain broadcastConfirmReqBatchedMany (max 1 twoChannels.rounds) twoChannels),
        1 ≤ xs.length ∧ xs.length ≤ confirmReqHashesMax) ∧
    (∀ c, twoChannels.lookup c = none →
      sentTo c (chain broadcastConfirmReqBatchedMany (max 1 twoChannels.rounds) twoChannels) = []) ∧
    (∀ n, Sent.callback ∈ chain broadcastConfirmReqBatchedMany n twoChannels ↔ max 1 twoChannels.rounds ≤ n) ∧
    (∃ msgs, Sent.callback ∉ msgs ∧
      chain broadcastConfirmReqBatchedMany (max 1 twoChannels.rounds) twoChannels = msgs ++ [.callback]) ∧
    (∀ n, max 1 twoChannels.rounds ≤ n →
      chain broadcastConfirmReqBatchedMany n twoChannels =
        chain broadcastConfirmReqBatchedMany (max 1 twoChannels.rounds) twoChannels)) := by
  have hne : ∀ c q, twoChannels.lookup c = some q → q ≠ [] := by
    intro c q hq
    simp only [twoChannels, AList.lookup, List.dlookup] at hq
    split_ifs at hq <;> cases hq <;> simp
  exact ⟨hne, broadcastConfirmReqBatchedMany_chain twoChannels hne⟩

end Network

end Nano
