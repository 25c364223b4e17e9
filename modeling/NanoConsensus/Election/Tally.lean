/-
The tally of an election, without the election around it.

`tally_impl` makes two passes.  The first adds, for every entry of `last_votes`,
the voter's ledger weight to the bucket of the block the entry votes for (and,
for final votes, to a second bucket).  The second files every bucket whose hash
is still a candidate in a `tally_t` under its weight.

A `tally_t` is keyed by weight.  Two candidates with equal sums therefore share
one entry, and the one filed first keeps it.  Everything `have_quorum` and
`confirm_if_quorum` conclude is about that map: its first key is the heaviest
sum, and its second key is the heaviest sum strictly below the first.

The statements here are over the buckets' exact contents, `votedWeight`, so that
the election-level results say in the source's words which voters count where.
-/
import NanoConsensus.Election.Basic

namespace Nano

/-! ### `tally_t` -/

/-- `std::map::emplace` into a list kept heaviest first: a weight already present
keeps the block it has. -/
def emplaceDesc (w : Nat) (b : Block) : List (Nat × Block) → List (Nat × Block)
  | [] => [(w, b)]
  | e :: es =>
    if e.1 < w then (w, b) :: e :: es
    else if e.1 = w then e :: es
    else e :: emplaceDesc w b es

theorem mem_emplaceDesc_of_mem {w : Nat} {b : Block} {x : Nat × Block} :
    ∀ {l : List (Nat × Block)}, x ∈ l → x ∈ emplaceDesc w b l
  | [], h => by cases h
  | e :: es, h => by
    unfold emplaceDesc
    split
    · exact List.mem_cons_of_mem _ h
    · split
      · exact h
      · rcases List.mem_cons.mp h with rfl | h
        · exact List.mem_cons_self _ _
        · exact List.mem_cons_of_mem _ (mem_emplaceDesc_of_mem h)

theorem mem_of_mem_emplaceDesc {w : Nat} {b : Block} {x : Nat × Block} :
    ∀ {l : List (Nat × Block)}, x ∈ emplaceDesc w b l → x ∈ l ∨ x = (w, b)
  | [], h => by simp_all [emplaceDesc]
  | e :: es, h => by
    unfold emplaceDesc at h
    split at h
    · rcases List.mem_cons.mp h with rfl | h
      · exact .inr rfl
      · exact .inl h
    · split at h
      · exact .inl h
      · rcases List.mem_cons.mp h with rfl | h
        · exact .inl (List.mem_cons_self _ _)
        · rcases mem_of_mem_emplaceDesc h with h | h
          · exact .inl (List.mem_cons_of_mem _ h)
          · exact .inr h

/-- After `emplace`, the weight is a key, whether it was one before or not. -/
theorem exists_weight_emplaceDesc (w : Nat) (b : Block) :
    ∀ l : List (Nat × Block), ∃ e ∈ emplaceDesc w b l, e.1 = w
  | [] => ⟨(w, b), List.mem_singleton_self _, rfl⟩
  | e :: es => by
    unfold emplaceDesc
    split
    · exact ⟨(w, b), List.mem_cons_self _ _, rfl⟩
    · split
      · exact ⟨e, List.mem_cons_self _ _, ‹_›⟩
      · obtain ⟨x, hx, hw⟩ := exists_weight_emplaceDesc w b es
        exact ⟨x, List.mem_cons_of_mem _ hx, hw⟩

theorem pairwise_emplaceDesc {w : Nat} {b : Block} :
    ∀ {l : List (Nat × Block)}, l.Pairwise (fun a c => c.1 < a.1) →
      (emplaceDesc w b l).Pairwise (fun a c => c.1 < a.1)
  | [], _ => List.pairwise_singleton _ _
  | e :: es, hs => by
    obtain ⟨he, hes⟩ := List.pairwise_cons.mp hs
    unfold emplaceDesc
    split
    · refine List.pairwise_cons.mpr ⟨?_, hs⟩
      intro x hx
      rcases List.mem_cons.mp hx with rfl | hx
      · assumption
      · exact Nat.lt_trans (he x hx) ‹_›
    · split
      · exact hs
      · refine List.pairwise_cons.mpr ⟨?_, pairwise_emplaceDesc hes⟩
        intro x hx
        rcases mem_of_mem_emplaceDesc hx with hx | rfl
        · exact he x hx
        · show w < e.1
          omega

/-- `nano::tally_t`, the candidate blocks keyed by weight, heaviest first.

Modelled from the spec: `tally_t` is declared in `election.hpp`, which is not among
the sources.  The spec calls it an ordered structure keyed descending by
accumulated weight; as the ordered map `std::map<uint128_t, block, greater>` its
keys are unique, and `emplace` on a key already present changes nothing. -/
structure Tally where
  entries : List (Nat × Block)
  sorted : entries.Pairwise fun a c => c.1 < a.1

namespace Tally

/-- An empty `tally_t`. -/
def empty : Tally := ⟨[], List.Pairwise.nil⟩

/-- `tally.emplace (amount, block)`. -/
def emplace (t : Tally) (w : Nat) (b : Block) : Tally :=
  ⟨emplaceDesc w b t.entries, pairwise_emplaceDesc t.sorted⟩

/-- `tally.begin ()->first`: the heaviest weight.  It is read only on a tally with
an entry; an empty one gives 0. -/
def first (t : Tally) : Nat :=
  match t.entries with
  | [] => 0
  | e :: _ => e.1

/-- The second key of `have_quorum`: the next weight after the first, or 0. -/
def second (t : Tally) : Nat :=
  match t.entries with
  | _ :: e :: _ => e.1
  | _ => 0

/-- The sum `confirm_if_quorum` takes over the tally, in `uint128_t`. -/
def sum (t : Tally) : Nat := t.entries.foldl (fun acc e => add128 acc e.1) 0

theorem le_first {t : Tally} {e : Nat × Block} (he : e ∈ t.entries) : e.1 ≤ t.first := by
  rcases t with ⟨_ | ⟨x, xs⟩, hs⟩
  · cases he
  · rcases List.mem_cons.mp he with rfl | he
    · exact Nat.le_refl _
    · exact Nat.le_of_lt ((List.pairwise_cons.mp hs).1 e he)

/-- The key `have_quorum` subtracts is never above the first: its `release_assert`
always holds. -/
theorem second_le_first (t : Tally) : t.second ≤ t.first := by
  rcases t with ⟨_ | ⟨x, _ | ⟨y, ys⟩⟩, hs⟩
  · exact Nat.le_refl _
  · exact Nat.zero_le _
  · exact Nat.le_of_lt ((List.pairwise_cons.mp hs).1 y (List.mem_cons_self _ _))

/-- Every weight strictly below the first is at most the second. -/
theorem le_second {t : Tally} {e : Nat × Block} (he : e ∈ t.entries) (hlt : e.1 < t.first) :
    e.1 ≤ t.second := by
  rcases t with ⟨_ | ⟨x, _ | ⟨y, ys⟩⟩, hs⟩
  · cases he
  · simp only [List.mem_singleton] at he
    subst he
    exact absurd hlt (Nat.lt_irrefl _)
  · simp only [List.mem_cons] at he
    rcases he with rfl | rfl | he
    · exact absurd hlt (Nat.lt_irrefl _)
    · exact Nat.le_refl _
    · exact Nat.le_of_lt ((List.pairwise_cons.mp (List.pairwise_cons.mp hs).2).1 e he)

theorem foldl_add128 : ∀ (l : List (Nat × Block)) {a : Nat}, a < 2 ^ 128 →
    l.foldl (fun acc e => add128 acc e.1) a = (a + (l.map (·.1)).sum) % 2 ^ 128
  | [], a, ha => by rw [List.foldl_nil, List.map_nil, List.sum_nil, Nat.add_zero, Nat.mod_eq_of_lt ha]
  | x :: xs, a, _ => by
    rw [List.foldl_cons, foldl_add128 xs (a := add128 a x.1) (Nat.mod_lt _ (Nat.two_pow_pos 128))]
    simp only [add128, Nat.mod_add_mod, List.map_cons, List.sum_cons, Nat.add_assoc]

/-- Below `2 ^ 128` the `uint128_t` sum is the sum. -/
theorem sum_eq_of_lt {t : Tally} (h : (t.entries.map (·.1)).sum < 2 ^ 128) :
    t.sum = (t.entries.map (·.1)).sum := by
  rw [sum, foldl_add128 _ (Nat.two_pow_pos 128), Nat.zero_add, Nat.mod_eq_of_lt h]

/-- The sum of `confirm_if_quorum` with every addition checked: `none` at the first
one that would wrap. -/
def sum? (t : Tally) : Option Nat := t.entries.foldlM (fun acc e => add128? acc e.1) 0

theorem foldlM_add128? : ∀ (l : List (Nat × Block)) (a : Nat), a + (l.map (·.1)).sum < 2 ^ 128 →
    l.foldlM (fun acc e => add128? acc e.1) a = some (l.foldl (fun acc e => add128 acc e.1) a)
  | [], _, _ => rfl
  | x :: xs, a, h => by
    rw [List.map_cons, List.sum_cons, ← Nat.add_assoc] at h
    have hx : a + x.1 < 2 ^ 128 := lt_of_le_of_lt (Nat.le_add_right _ _) h
    rw [List.foldlM_cons, add128?_of_lt hx, Option.bind_eq_bind, Option.some_bind, List.foldl_cons]
    exact foldlM_add128? xs _ (by rwa [add128, Nat.mod_eq_of_lt hx])

/-- Below `2 ^ 128` the checked sum succeeds. -/
theorem sum?_of_lt {t : Tally} (h : (t.entries.map (·.1)).sum < 2 ^ 128) : t.sum? = some t.sum :=
  foldlM_add128? _ 0 (by rwa [Nat.zero_add])

theorem first_le_sum (t : Tally) : t.first ≤ (t.entries.map (·.1)).sum := by
  rcases t with ⟨_ | ⟨x, xs⟩, _⟩
  · exact Nat.zero_le _
  · exact Nat.le_add_right _ _

end Tally

/-- `election::have_quorum`: the first weight leads the second by at least `delta`. -/
def haveQuorum (t : Tally) (delta : Nat) : Bool := delta ≤ t.first - t.second

/-- Under `have_quorum`, the first weight leads every lighter entry by `delta`. -/
theorem haveQuorum_margin {t : Tally} {delta : Nat} (hq : haveQuorum t delta = true)
    {x : Nat × Block} (hx : x ∈ t.entries) (hlt : x.1 < t.first) : delta ≤ t.first - x.1 := by
  have := Tally.le_second hx hlt
  simp only [haveQuorum, decide_eq_true_eq] at hq
  omega

/-! ### The buckets of `tally_impl` -/

/-- `map[hash] += amount` on a `uint128_t`-valued map. -/
def addWeight (m : WeightMap) (h : BlockHash) (w : Nat) : WeightMap :=
  m.insert h (add128 ((m.lookup h).getD 0) w)

/-- `block_weights`: every voter's weight in the bucket of the block it votes for. -/
def blockWeights (weight : Account → Nat) (votes : VoteMap) : WeightMap :=
  votes.entries.foldl (fun m v => addWeight m v.2.hash (weight v.1)) ∅

/-- `final_weights_l`: the same for the final votes alone. -/
def finalWeights (weight : Account → Nat) (votes : VoteMap) : WeightMap :=
  votes.entries.foldl
    (fun m v => if v.2.timestamp = finalTimestamp then addWeight m v.2.hash (weight v.1) else m) ∅

/-- One bucket of the second pass of `tally_impl`: filed under its weight when its
hash is still a candidate. -/
def fileBucket (blocks : BlockMap) (t : Tally) (e : Σ _ : BlockHash, Nat) : Tally :=
  match blocks.find e.1 with
  | some b => t.emplace e.2 b
  | none => t

/-- The second pass of `tally_impl`. -/
def tallyOf (weights : WeightMap) (blocks : BlockMap) : Tally :=
  weights.entries.foldl (fileBucket blocks) Tally.empty

/-- The last step of `tally_impl`: `final_weight` becomes the final-vote weight of
the tally's first block when it has one, and keeps its old value otherwise. -/
def finalWeightOf (finals : WeightMap) (t : Tally) (old : Nat) : Nat :=
  if finals.entries = [] then old
  else match t.entries with
    | [] => old
    | e :: _ => (finals.lookup e.2.hash).getD old

/-- The weight behind `h`: the sum, over the voters whose entry votes for `h`, of
their weight. -/
def votedWeight (weight : Account → Nat) (votes : List (Σ _ : Account, VoteInfo))
    (h : BlockHash) : Nat :=
  ((votes.filter fun v => v.2.hash = h).map fun v => weight v.1).sum

theorem lookup_addWeight (m : WeightMap) (h h' : BlockHash) (w : Nat) :
    (addWeight m h w).lookup h' =
      if h' = h then some (add128 ((m.lookup h).getD 0) w) else m.lookup h' := by
  by_cases hh : h' = h
  · subst hh; simp [addWeight, AList.lookup_insert]
  · simp [addWeight, hh, AList.lookup_insert_ne hh]

theorem votedWeight_cons (weight : Account → Nat) (v : Σ _ : Account, VoteInfo)
    (vs : List (Σ _ : Account, VoteInfo)) (h : BlockHash) :
    votedWeight weight (v :: vs) h =
      (if v.2.hash = h then weight v.1 else 0) + votedWeight weight vs h := by
  by_cases hv : v.2.hash = h <;> simp [votedWeight, List.filter_cons, hv]

theorem votedWeight_eq_zero {weight : Account → Nat} {vs : List (Σ _ : Account, VoteInfo)}
    {h : BlockHash} (hn : ¬∃ v ∈ vs, v.2.hash = h) : votedWeight weight vs h = 0 := by
  have : vs.filter (fun v => v.2.hash = h) = [] :=
    List.filter_eq_nil_iff.mpr fun v hv hh => hn ⟨v, hv, of_decide_eq_true hh⟩
  simp [votedWeight, this]

/-- The first pass, from any starting buckets: a hash someone votes for gains their
summed weight, and every other bucket is left alone. -/
theorem lookup_foldl_addWeight (weight : Account → Nat) (h : BlockHash) :
    ∀ (vs : List (Σ _ : Account, VoteInfo)) (m : WeightMap),
      (vs.foldl (fun m v => addWeight m v.2.hash (weight v.1)) m).lookup h =
        if ∃ v ∈ vs, v.2.hash = h then
          some (add128 ((m.lookup h).getD 0) (votedWeight weight vs h))
        else m.lookup h
  | [], m => by simp only [List.foldl_nil, List.not_mem_nil, false_and, exists_false, if_false]
  | v :: vs, m => by
    rw [List.foldl_cons, lookup_foldl_addWeight weight h vs, votedWeight_cons,
      lookup_addWeight]
    by_cases hv : v.2.hash = h
    · subst hv
      have hm : ∃ v' ∈ v :: vs, v'.2.hash = v.2.hash := ⟨v, List.mem_cons_self _ _, rfl⟩
      by_cases hr : ∃ v' ∈ vs, v'.2.hash = v.2.hash
      · simp only [if_pos hr, if_pos hm, if_true, Option.getD_some, add128_add128]
      · simp only [if_neg hr, if_pos hm, if_true, votedWeight_eq_zero hr, Nat.add_zero]
    · have hr : (∃ v' ∈ v :: vs, v'.2.hash = h) ↔ ∃ v' ∈ vs, v'.2.hash = h := by
        simp only [List.mem_cons, or_and_right, exists_or, exists_eq_left, hv, false_or]
      simp only [hv, Ne.symm hv, if_false, Nat.zero_add, if_congr hr rfl rfl]

/-- `block_weights` maps exactly the hashes someone votes for, each to its voters'
summed weight in `uint128_t`. -/
theorem lookup_blockWeights (weight : Account → Nat) (votes : VoteMap) (h : BlockHash) :
    (blockWeights weight votes).lookup h =
      if ∃ v ∈ votes.entries, v.2.hash = h then
        some (votedWeight weight votes.entries h % 2 ^ 128)
      else none := by
  simp only [blockWeights, lookup_foldl_addWeight, AList.lookup_empty, Option.getD_none,
    add128, Nat.zero_add]

/-! ### The second pass -/

section SecondPass

variable {blocks : BlockMap} {x : Nat × Block}

theorem mem_fileBucket_of_mem {t : Tally} (e : Σ _ : BlockHash, Nat) (hx : x ∈ t.entries) :
    x ∈ (fileBucket blocks t e).entries := by
  unfold fileBucket
  split
  · exact mem_emplaceDesc_of_mem hx
  · exact hx

theorem mem_of_mem_fileBucket {t : Tally} {e : Σ _ : BlockHash, Nat}
    (hx : x ∈ (fileBucket blocks t e).entries) :
    x ∈ t.entries ∨ (x.1 = e.2 ∧ blocks.find e.1 = some x.2) := by
  unfold fileBucket at hx
  split at hx
  · rcases mem_of_mem_emplaceDesc hx with hx | rfl
    · exact .inl hx
    · exact .inr ⟨rfl, ‹_›⟩
  · exact .inl hx

theorem mem_foldl_fileBucket :
    ∀ {l : List (Σ _ : BlockHash, Nat)} {t : Tally},
      x ∈ (l.foldl (fileBucket blocks) t).entries →
        x ∈ t.entries ∨ ∃ e ∈ l, x.1 = e.2 ∧ blocks.find e.1 = some x.2
  | [], _, hx => .inl hx
  | e :: l, t, hx => by
    rcases mem_foldl_fileBucket (l := l) (t := fileBucket blocks t e) hx with hx | ⟨e', he', hw⟩
    · rcases mem_of_mem_fileBucket hx with hx | hw
      · exact .inl hx
      · exact .inr ⟨e, List.mem_cons_self _ _, hw⟩
    · exact .inr ⟨e', List.mem_cons_of_mem _ he', hw⟩

theorem mem_foldl_fileBucket_of_mem :
    ∀ {l : List (Σ _ : BlockHash, Nat)} {t : Tally},
      x ∈ t.entries → x ∈ (l.foldl (fileBucket blocks) t).entries
  | [], _, hx => hx
  | e :: l, t, hx =>
    mem_foldl_fileBucket_of_mem (l := l) (t := fileBucket blocks t e) (mem_fileBucket_of_mem e hx)

theorem exists_foldl_fileBucket {b : Block} :
    ∀ {l : List (Σ _ : BlockHash, Nat)} {t : Tally} {e : Σ _ : BlockHash, Nat},
      e ∈ l → blocks.find e.1 = some b →
        ∃ y ∈ (l.foldl (fileBucket blocks) t).entries, y.1 = e.2
  | e' :: l, t, e, he, hb => by
    rcases List.mem_cons.mp he with rfl | he
    · have : ∃ y ∈ (fileBucket blocks t e).entries, y.1 = e.2 := by
        unfold fileBucket
        rw [hb]
        exact exists_weight_emplaceDesc _ _ _
      obtain ⟨y, hy, hw⟩ := this
      exact ⟨y, mem_foldl_fileBucket_of_mem (l := l) hy, hw⟩
    · exact exists_foldl_fileBucket (l := l) (t := fileBucket blocks t e') he hb

/-- Every entry of the tally is a candidate filed under its bucket. -/
theorem mem_tallyOf {ws : WeightMap} (hx : x ∈ (tallyOf ws blocks).entries) :
    ws.lookup x.2.hash = some x.1 ∧ blocks.find x.2.hash = some x.2 := by
  rcases mem_foldl_fileBucket hx with hx | ⟨e, he, hw, hb⟩
  · cases hx
  · rw [BlockMap.hash_of_find hb, hw]
    exact ⟨AList.mem_lookup_iff.mpr he, hb⟩

/-- Every candidate's bucket has its weight as a key of the tally. -/
theorem exists_mem_tallyOf {ws : WeightMap} {h : BlockHash} {w : Nat} {b : Block}
    (hw : ws.lookup h = some w) (hb : blocks.find h = some b) :
    ∃ y ∈ (tallyOf ws blocks).entries, y.1 = w :=
  exists_foldl_fileBucket (e := ⟨h, w⟩) (AList.mem_lookup_iff.mp hw) hb

end SecondPass

/-! ### Counting each voter once -/

/-- Summing the buckets over any list of distinct hashes that holds every voted
hash gives every voter's weight exactly once. -/
theorem sum_votedWeight (weight : Account → Nat) {K : List BlockHash} (hK : K.Nodup) :
    ∀ vs : List (Σ _ : Account, VoteInfo), (∀ v ∈ vs, v.2.hash ∈ K) →
      (K.map (votedWeight weight vs)).sum = (vs.map fun v => weight v.1).sum
  | [], _ => by
    have : votedWeight weight [] = fun _ => 0 := rfl
    simp [this]
  | v :: vs, hsub => by
    have hv : (K.map fun h => if v.2.hash = h then weight v.1 else 0).sum = weight v.1 := by
      rw [← List.sum_toFinset _ hK, Finset.sum_ite_eq, if_pos (List.mem_toFinset.mpr
        (hsub v (List.mem_cons_self _ _)))]
    have hcons : votedWeight weight (v :: vs) =
        fun h => (if v.2.hash = h then weight v.1 else 0) + votedWeight weight vs h :=
      funext (votedWeight_cons weight v vs)
    rw [hcons, List.sum_map_add, hv, List.map_cons, List.sum_cons,
      sum_votedWeight weight hK vs fun v' hv' => hsub v' (List.mem_cons_of_mem _ hv')]

/-- The ledger's weights of distinct accounts sum to less than `2 ^ 128`: the supply
is fixed and fits a `uint128_t`. -/
def SupplyBound (weight : Account → Nat) : Prop :=
  ∀ l : List Account, l.Nodup → (l.map weight).sum < 2 ^ 128

/-- Weights held only by the accounts of `holders`, together below the supply, fit it. -/
theorem supplyBound_of_holders {weight : Account → Nat} (holders : List Account)
    (hn : holders.Nodup) (hz : ∀ a, a ∉ holders → weight a = 0)
    (hs : (holders.map weight).sum < 2 ^ 128) : SupplyBound weight := fun l hl =>
  calc (l.map weight).sum
      = ∑ a in l.toFinset.filter (· ∈ holders), weight a := by
        rw [Finset.sum_filter_of_ne fun a _ h => by_contra fun ha => h (hz a ha),
          List.sum_toFinset _ hl]
    _ ≤ ∑ a in holders.toFinset, weight a :=
        Finset.sum_le_sum_of_subset fun a ha => List.mem_toFinset.mpr (Finset.mem_filter.mp ha).2
    _ = (holders.map weight).sum := List.sum_toFinset _ hn
    _ < 2 ^ 128 := hs

/-! ### Additions that do not wrap

The loop of `tally_impl` over `last_votes`, with each `+=` checked as `add128?`
checks it: it fails at the first addition that would wrap.  While every bucket
holds at most what the voters seen so far weigh, and that with the voters still to
come stays below `2 ^ 128`, no addition fails. -/

/-- `map[hash] += amount`, or `none` where the addition would wrap. -/
def addWeight? (m : WeightMap) (h : BlockHash) (w : Nat) : Option WeightMap :=
  (add128? ((m.lookup h).getD 0) w).map fun x => m.insert h x

/-- One turn of the loop of `tally_impl`, checked: the voter's weight into its
block's bucket of `block_weights`, and of `final_weights_l` for a final vote. -/
def firstPassStep? (weight : Account → Nat) (p : WeightMap × WeightMap)
    (v : Σ _ : Account, VoteInfo) : Option (WeightMap × WeightMap) := do
  let bw ← addWeight? p.1 v.2.hash (weight v.1)
  let fw ← if v.2.timestamp = finalTimestamp then addWeight? p.2 v.2.hash (weight v.1) else some p.2
  pure (bw, fw)

/-- The loop of `tally_impl` over `last_votes`, every addition checked. -/
def firstPass? (weight : Account → Nat) (votes : VoteMap) : Option (WeightMap × WeightMap) :=
  votes.entries.foldlM (firstPassStep? weight) (∅, ∅)

/-- An addition into buckets that each hold at most `S`, with `S + w` below
`2 ^ 128`, does not wrap, and leaves each bucket at most `S + w`. -/
theorem addWeight?_of_le {m : WeightMap} {S w : Nat} (hm : ∀ h, (m.lookup h).getD 0 ≤ S)
    (hS : S + w < 2 ^ 128) (h : BlockHash) :
    addWeight? m h w = some (addWeight m h w) ∧ ∀ h', ((addWeight m h w).lookup h').getD 0 ≤ S + w := by
  have hlt : (m.lookup h).getD 0 + w < 2 ^ 128 := lt_of_le_of_lt (Nat.add_le_add_right (hm h) w) hS
  refine ⟨by rw [addWeight?, add128?_of_lt hlt]; rfl, fun h' => ?_⟩
  rw [lookup_addWeight]
  split
  · rw [Option.getD_some, add128, Nat.mod_eq_of_lt hlt]
    exact Nat.add_le_add_right (hm h) w
  · exact (hm h').trans (Nat.le_add_right S w)

theorem foldlM_firstPassStep? (weight : Account → Nat) :
    ∀ (vs : List (Σ _ : Account, VoteInfo)) (m₁ m₂ : WeightMap) (S : Nat),
      (∀ h, (m₁.lookup h).getD 0 ≤ S) → (∀ h, (m₂.lookup h).getD 0 ≤ S) →
      S + (vs.map fun v => weight v.1).sum < 2 ^ 128 →
      vs.foldlM (firstPassStep? weight) (m₁, m₂) =
        some (vs.foldl (fun m v => addWeight m v.2.hash (weight v.1)) m₁,
          vs.foldl (fun m v => if v.2.timestamp = finalTimestamp
            then addWeight m v.2.hash (weight v.1) else m) m₂)
  | [], _, _, _, _, _, _ => rfl
  | v :: vs, m₁, m₂, S, h₁, h₂, hS => by
    rw [List.map_cons, List.sum_cons, ← Nat.add_assoc] at hS
    have hw : S + weight v.1 < 2 ^ 128 := lt_of_le_of_lt (Nat.le_add_right _ _) hS
    obtain ⟨e₁, b₁⟩ := addWeight?_of_le h₁ hw v.2.hash
    obtain ⟨e₂, b₂⟩ := addWeight?_of_le h₂ hw v.2.hash
    have b₂' : ∀ h, (((if v.2.timestamp = finalTimestamp then addWeight m₂ v.2.hash (weight v.1)
        else m₂) : WeightMap).lookup h).getD 0 ≤ S + weight v.1 := by
      split
      · exact b₂
      · exact fun h => (h₂ h).trans (Nat.le_add_right _ _)
    have hstep : firstPassStep? weight (m₁, m₂) v =
        some (addWeight m₁ v.2.hash (weight v.1), if v.2.timestamp = finalTimestamp
          then addWeight m₂ v.2.hash (weight v.1) else m₂) := by
      unfold firstPassStep?
      split <;> simp [e₁, e₂]
    rw [List.foldlM_cons, hstep, Option.bind_eq_bind, Option.some_bind]
    exact foldlM_firstPassStep? weight vs _ _ _ b₁ b₂' hS

/-- The weights of `last_votes`'s voters sum below the supply. -/
theorem SupplyBound.sum_lt {weight : Account → Nat} (hsup : SupplyBound weight) (votes : VoteMap) :
    (votes.entries.map fun v => weight v.1).sum < 2 ^ 128 := by
  have := hsup votes.keys (AList.keys_nodup _)
  rwa [AList.keys, List.keys, List.map_map] at this

/-- Within the supply the checked loop succeeds, with `block_weights` and
`final_weights_l`. -/
theorem firstPass?_eq {weight : Account → Nat} (hsup : SupplyBound weight) (votes : VoteMap) :
    firstPass? weight votes = some (blockWeights weight votes, finalWeights weight votes) :=
  foldlM_firstPassStep? weight votes.entries ∅ ∅ 0 (fun _ => Nat.zero_le _) (fun _ => Nat.zero_le _)
    (by rw [Nat.zero_add]; exact hsup.sum_lt votes)

namespace Election

/-- Someone's entry in `last_votes` votes for `h`. -/
def VotedFor (s : Election) (h : BlockHash) : Prop := ∃ v ∈ s.lastVotes.entries, v.2.hash = h

instance (s : Election) (h : BlockHash) : Decidable (s.VotedFor h) :=
  inferInstanceAs (Decidable (∃ v ∈ s.lastVotes.entries, v.2.hash = h))

/-- The ledger weight of the voters whose entry votes for `h`. -/
def weightFor (e : Env) (s : Election) (h : BlockHash) : Nat :=
  votedWeight e.weight s.lastVotes.entries h

/-- `election::tally_impl`.  It is `const`, but writes the mutable `last_tally` and
`final_weight`. -/
def tallyImpl (e : Env) (s : Election) : Tally × Election :=
  let weights := blockWeights e.weight s.lastVotes
  let result := tallyOf weights s.lastBlocks
  (result, { s with
    lastTally := weights
    finalWeight := finalWeightOf (finalWeights e.weight s.lastVotes) result s.finalWeight })

@[simp] theorem tallyImpl_fst (e : Env) (s : Election) :
    (s.tallyImpl e).1 = tallyOf (blockWeights e.weight s.lastVotes) s.lastBlocks := rfl

/-- Each entry of `tally_impl`'s result is a candidate someone votes for, filed
under its voters' summed weight. -/
theorem mem_tallyImpl {e : Env} {s : Election} {x : Nat × Block} (hx : x ∈ (s.tallyImpl e).1.entries) :
    s.lastBlocks.find x.2.hash = some x.2 ∧ s.VotedFor x.2.hash ∧
      x.1 = s.weightFor e x.2.hash % 2 ^ 128 := by
  obtain ⟨hw, hb⟩ := mem_tallyOf hx
  rw [lookup_blockWeights] at hw
  split at hw
  · exact ⟨hb, ‹_›, (Option.some.inj hw).symm⟩
  · cases hw

/-- Each candidate someone votes for has its summed weight as a key of the result. -/
theorem exists_mem_tallyImpl {e : Env} {s : Election} {b : Block}
    (hb : s.lastBlocks.find b.hash = some b) (hv : s.VotedFor b.hash) :
    ∃ x ∈ (s.tallyImpl e).1.entries, x.1 = s.weightFor e b.hash % 2 ^ 128 :=
  exists_mem_tallyOf (by rw [lookup_blockWeights, if_pos (show ∃ v ∈ _, _ from hv)]; rfl) hb

theorem mem_keys_blockWeights {weight : Account → Nat} {votes : VoteMap} {h : BlockHash} :
    h ∈ (blockWeights weight votes).keys ↔ ∃ v ∈ votes.entries, v.2.hash = h := by
  rw [← AList.mem_keys, ← AList.lookup_isSome, lookup_blockWeights]
  split <;> rename_i hv
  · exact iff_of_true rfl hv
  · exact iff_of_false Bool.false_ne_true hv

/-- The buckets of `last_tally` hold every voter's weight exactly once. -/
theorem sum_weightFor_keys (e : Env) (s : Election) :
    ((blockWeights e.weight s.lastVotes).keys.map (s.weightFor e)).sum =
      (s.lastVotes.entries.map fun v => e.weight v.1).sum :=
  sum_votedWeight _ (AList.keys_nodup _) _ fun v hv => mem_keys_blockWeights.mpr ⟨v, hv, rfl⟩

/-- **What `tally_impl` computes.**  Every entry is a voted candidate filed under
its voters' summed weight; every voted candidate's sum is a key; the keys are
strictly decreasing, so candidates with equal sums share one entry; `last_tally`
maps exactly the voted hashes to their sums; and the buckets count every voter
once. -/
theorem tallyImpl_buckets (e : Env) (s : Election) :
    (∀ x ∈ (s.tallyImpl e).1.entries, s.lastBlocks.find x.2.hash = some x.2 ∧
      s.VotedFor x.2.hash ∧ x.1 = s.weightFor e x.2.hash % 2 ^ 128) ∧
    (∀ b, s.lastBlocks.find b.hash = some b → s.VotedFor b.hash →
      ∃ x ∈ (s.tallyImpl e).1.entries, x.1 = s.weightFor e b.hash % 2 ^ 128) ∧
    (s.tallyImpl e).1.entries.Pairwise (fun a c => c.1 < a.1) ∧
    (∀ h, (s.tallyImpl e).2.lastTally.lookup h =
      if s.VotedFor h then some (s.weightFor e h % 2 ^ 128) else none) ∧
    ((s.tallyImpl e).2.lastTally.keys.map (s.weightFor e)).sum =
      (s.lastVotes.entries.map fun v => e.weight v.1).sum :=
  ⟨fun _ hx => mem_tallyImpl hx, fun _ hb hv => exists_mem_tallyImpl hb hv,
    (s.tallyImpl e).1.sorted, lookup_blockWeights _ _, sum_weightFor_keys e s⟩

/-- A node where voters 1 and 2 weigh 60 and voters 3 and 4 weigh 50, with `delta`
at 100. -/
def tieEnv : Env where
  now := 0
  systemNow := 0
  isDevNetwork := false
  weight a := if a = 1 ∨ a = 2 then 60 else if a = 3 ∨ a = 4 then 50 else 0
  blockConfirmed _ := false
  canary := false
  delta := 100
  trended := 1000
  minimumPrincipalWeight := 0
  enableVoting := false
  votingReps := 0
  winnerDetails _ := false
  history _ := []
  inactiveTally _ := 0
  voteBroadcastInterval := 0
  passiveDurationFactor := 5
  solicitorBroadcast := false
  solicitorAdd := false
  expirationTallyLogging := false

/-- The election on block `1` once block `2` is published and voters 1 and 3 have
voted for `1`, voters 2 and 4 for `2`: two forks of 110 each. -/
def tieElection : Election :=
  let s := Election.new tieEnv ⟨1, 0⟩ .normal
  { s with
    lastBlocks := s.lastBlocks.put ⟨2, 0⟩
    lastVotes := (((s.lastVotes.insert 1 ⟨0, 1, 1⟩).insert 2 ⟨0, 1, 2⟩).insert 3 ⟨0, 1, 1⟩).insert 4
      ⟨0, 1, 2⟩ }

theorem tieElection_drops_fork :
    tieElection.lastBlocks.find 2 = some ⟨2, 0⟩ ∧ tieElection.VotedFor 2 ∧
      tieElection.weightFor tieEnv 1 = 110 ∧ tieElection.weightFor tieEnv 2 = 110 ∧
      (tieElection.tallyImpl tieEnv).1.entries.map (fun x => (x.1, x.2.hash)) = [(110, 1)] := by
  decide

theorem tieEnv_supplyBound : SupplyBound tieEnv.weight :=
  supplyBound_of_holders [1, 2, 3, 4] (by decide)
    (fun a ha => by simp only [List.mem_cons, List.mem_singleton, not_or] at ha; simp [tieEnv, ha])
    (by decide)

/-! ### Within the supply -/

section Supply

variable {e : Env} {s : Election}

theorem sum_weights_lt (hsup : SupplyBound e.weight) :
    (s.lastVotes.entries.map fun v => e.weight v.1).sum < 2 ^ 128 :=
  hsup.sum_lt s.lastVotes

theorem weightFor_le_sum (h : BlockHash) :
    s.weightFor e h ≤ (s.lastVotes.entries.map fun v => e.weight v.1).sum :=
  ((List.filter_sublist _).map _).sum_le_sum fun _ _ => Nat.zero_le _

theorem weightFor_lt (hsup : SupplyBound e.weight) (h : BlockHash) : s.weightFor e h < 2 ^ 128 :=
  lt_of_le_of_lt (weightFor_le_sum h) (sum_weights_lt hsup)

/-- No two entries of the tally hold one block: their buckets differ. -/
theorem nodup_tallyImpl_hashes : ((s.tallyImpl e).1.entries.map (·.2.hash)).Nodup := by
  rw [List.Nodup, List.pairwise_map]
  refine (s.tallyImpl e).1.sorted.imp_of_mem fun ha hc hlt heq => ?_
  have h1 := (mem_tallyOf ha).1
  have h2 := (mem_tallyOf hc).1
  rw [heq, h2] at h1
  exact absurd (Option.some.inj h1) (Nat.ne_of_lt hlt)

/-- The tally's weights together are at most the weight of all voters. -/
theorem sum_tallyImpl_le :
    ((s.tallyImpl e).1.entries.map (·.1)).sum ≤ (s.lastVotes.entries.map fun v => e.weight v.1).sum := by
  have hk : ∀ h ∈ ((s.tallyImpl e).1.entries.map (·.2.hash)).toFinset,
      h ∈ (blockWeights e.weight s.lastVotes).keys.toFinset := by
    intro h hh
    obtain ⟨x, hx, rfl⟩ := List.mem_map.mp (List.mem_toFinset.mp hh)
    exact List.mem_toFinset.mpr (mem_keys_blockWeights.mpr (mem_tallyImpl hx).2.1)
  calc ((s.tallyImpl e).1.entries.map (·.1)).sum
      ≤ ((s.tallyImpl e).1.entries.map fun x => s.weightFor e x.2.hash).sum :=
        List.sum_le_sum fun x hx => by rw [(mem_tallyImpl hx).2.2]; exact Nat.mod_le _ _
    _ = (((s.tallyImpl e).1.entries.map (·.2.hash)).map (s.weightFor e)).sum := by
        rw [List.map_map]; rfl
    _ ≤ ((blockWeights e.weight s.lastVotes).keys.map (s.weightFor e)).sum := by
        rw [← List.sum_toFinset _ nodup_tallyImpl_hashes, ← List.sum_toFinset _ (AList.keys_nodup _)]
        exact Finset.sum_le_sum_of_subset hk
    _ = (s.lastVotes.entries.map fun v => e.weight v.1).sum := sum_weightFor_keys e s

/-- Within the supply, each entry's key is its candidate's sum, unwrapped. -/
theorem weight_of_mem_tallyImpl (hsup : SupplyBound e.weight) {x : Nat × Block}
    (hx : x ∈ (s.tallyImpl e).1.entries) : x.1 = s.weightFor e x.2.hash := by
  rw [(mem_tallyImpl hx).2.2, Nat.mod_eq_of_lt (weightFor_lt hsup _)]

/-- Within the supply, a voted candidate's sum is at most the first key, and under
`have_quorum` it is `delta` below it when it is below it at all. -/
theorem weightFor_le_first (hsup : SupplyBound e.weight) {c : Block}
    (hc : s.lastBlocks.find c.hash = some c) (hv : s.VotedFor c.hash) :
    s.weightFor e c.hash ≤ (s.tallyImpl e).1.first ∧
      (haveQuorum (s.tallyImpl e).1 e.delta = true → s.weightFor e c.hash < (s.tallyImpl e).1.first →
        e.delta ≤ (s.tallyImpl e).1.first - s.weightFor e c.hash) := by
  obtain ⟨x, hx, hxw⟩ := exists_mem_tallyImpl (e := e) hc hv
  rw [Nat.mod_eq_of_lt (weightFor_lt hsup _)] at hxw
  rw [← hxw]
  exact ⟨Tally.le_first hx, fun hq hlt => haveQuorum_margin hq hx hlt⟩

/-- Within the supply, the sum `confirm_if_quorum` takes does not wrap. -/
theorem tallyImpl_sum (hsup : SupplyBound e.weight) :
    (s.tallyImpl e).1.sum = ((s.tallyImpl e).1.entries.map (·.1)).sum :=
  Tally.sum_eq_of_lt (lt_of_le_of_lt sum_tallyImpl_le (sum_weights_lt hsup))

end Supply

/-- **No `uint128_t` arithmetic of the tally wraps.**  Within the supply: the loop of
`tally_impl` over `last_votes`, with every `+=` into `block_weights` and
`final_weights_l` checked, never fails and gives the two maps the code computes;
the sum `confirm_if_quorum` takes over the tally, checked, never fails; and the
tally's second weight is at most its first, so `top - second` in `have_quorum` does
not underflow.  Each voter's weight goes into one bucket, so no bucket and no sum
of buckets exceeds the weight of all voters. -/
theorem tallyImpl_noWrap (e : Env) (s : Election) (hsup : SupplyBound e.weight) :
    firstPass? e.weight s.lastVotes =
      some (blockWeights e.weight s.lastVotes, finalWeights e.weight s.lastVotes) ∧
    (s.tallyImpl e).1.sum? = some (s.tallyImpl e).1.sum ∧
    (s.tallyImpl e).1.second ≤ (s.tallyImpl e).1.first :=
  ⟨firstPass?_eq hsup s.lastVotes,
    Tally.sum?_of_lt (lt_of_le_of_lt sum_tallyImpl_le (sum_weights_lt hsup)), Tally.second_le_first _⟩

theorem tieElection_noWrap : SupplyBound tieEnv.weight ∧
    (firstPass? tieEnv.weight tieElection.lastVotes =
      some (blockWeights tieEnv.weight tieElection.lastVotes, finalWeights tieEnv.weight tieElection.lastVotes) ∧
    (tieElection.tallyImpl tieEnv).1.sum? = some (tieElection.tallyImpl tieEnv).1.sum ∧
    (tieElection.tallyImpl tieEnv).1.second ≤ (tieElection.tallyImpl tieEnv).1.first) :=
  ⟨tieEnv_supplyBound, tallyImpl_noWrap tieEnv tieElection tieEnv_supplyBound⟩

/-! ### `votes_with_weight` -/

section VotesWithWeight

/-- `nano::vote_with_weight_info`. -/
structure VoteWithWeightInfo where
  representative : Account
  time : Int
  timestamp : UInt64
  hash : BlockHash
  weight : Nat
deriving DecidableEq, Repr

/-- The entry `votes_with_weight` makes for a vote of `last_votes`, with
`ledger.cache.rep_weights ().representation_get` as `repWeight`. -/
def withWeight (repWeight : Account → Nat) (v : Sigma fun _ : Account => VoteInfo) : VoteWithWeightInfo :=
  ⟨v.1, v.2.time, v.2.timestamp, v.2.hash, repWeight v.1⟩

/-- `std::multimap::emplace` into a list kept heaviest first (`std::greater`): the new
entry goes after every entry at least as heavy. -/
def emplaceMulti (x : VoteWithWeightInfo) : List VoteWithWeightInfo → List VoteWithWeightInfo
  | [] => [x]
  | y :: ys => if y.weight < x.weight then x :: y :: ys else y :: emplaceMulti x ys

/-- One turn of the loop of `votes_with_weight`: the entry filed under the zero
account is skipped. -/
def fileVote (repWeight : Account → Nat) (sorted : List VoteWithWeightInfo)
    (v : Sigma fun _ : Account => VoteInfo) : List VoteWithWeightInfo :=
  if v.1 ≠ 0 then emplaceMulti (withWeight repWeight v) sorted else sorted

/-- `election::votes_with_weight`: the loop over `votes ()` into the multimap
`sorted_votes`, read back in order. -/
def votesWithWeight (repWeight : Account → Nat) (s : Election) : List VoteWithWeightInfo :=
  s.lastVotes.entries.foldl (fileVote repWeight) []

theorem emplaceMulti_perm (x : VoteWithWeightInfo) :
    ∀ l : List VoteWithWeightInfo, List.Perm (emplaceMulti x l) (x :: l)
  | [] => .refl _
  | y :: ys => by
    unfold emplaceMulti
    split
    · exact .refl _
    · exact ((emplaceMulti_perm x ys).cons y).trans (.swap x y ys)

theorem pairwise_emplaceMulti {x : VoteWithWeightInfo} : ∀ {l : List VoteWithWeightInfo},
    l.Pairwise (fun a b => b.weight ≤ a.weight) →
      (emplaceMulti x l).Pairwise fun a b => b.weight ≤ a.weight
  | [], _ => List.pairwise_singleton _ _
  | y :: ys, h => by
    obtain ⟨hy, hys⟩ := List.pairwise_cons.mp h
    unfold emplaceMulti
    split
    · refine List.pairwise_cons.mpr ⟨fun z hz => ?_, h⟩
      rcases List.mem_cons.mp hz with rfl | hz
      · omega
      · exact (hy z hz).trans (Nat.le_of_lt ‹_›)
    · refine List.pairwise_cons.mpr ⟨fun z hz => ?_, pairwise_emplaceMulti hys⟩
      rcases List.mem_cons.mp ((emplaceMulti_perm x ys).mem_iff.mp hz) with rfl | hz
      · omega
      · exact hy z hz

/-- The multimap is stable: among the entries of one weight, the new one comes last. -/
theorem filter_emplaceMulti {x : VoteWithWeightInfo} (w : Nat) : ∀ {l : List VoteWithWeightInfo},
    l.Pairwise (fun a b => b.weight ≤ a.weight) →
      (emplaceMulti x l).filter (·.weight == w) = l.filter (·.weight == w) ++ [x].filter (·.weight == w)
  | [], _ => rfl
  | y :: ys, h => by
    obtain ⟨hy, hys⟩ := List.pairwise_cons.mp h
    unfold emplaceMulti
    split
    · by_cases hx : x.weight = w
      · -- every entry is lighter than the new one
        have hnil : (y :: ys).filter (·.weight == w) = [] :=
          List.filter_eq_nil_iff.mpr fun z hz => by
            rcases List.mem_cons.mp hz with rfl | hz
            · simp only [beq_iff_eq]; omega
            · have := hy z hz
              simp only [beq_iff_eq]; omega
        rw [List.filter_cons_of_pos (by simpa using hx), hnil, List.filter_singleton]
        simp [hx]
      · rw [List.filter_cons_of_neg (by simpa using hx), List.filter_singleton,
          beq_eq_false_iff_ne.mpr hx]
        exact (List.append_nil _).symm
    · rw [List.filter_cons, List.filter_cons, filter_emplaceMulti w hys]
      split <;> simp

theorem foldl_fileVote (repWeight : Account → Nat) :
    ∀ (vs : List (Sigma fun _ : Account => VoteInfo)) {acc : List VoteWithWeightInfo},
      acc.Pairwise (fun a b => b.weight ≤ a.weight) →
      List.Perm (vs.foldl (fileVote repWeight) acc) (acc ++ (vs.filter fun v => v.1 ≠ 0).map (withWeight repWeight)) ∧
      (vs.foldl (fileVote repWeight) acc).Pairwise (fun a b => b.weight ≤ a.weight) ∧
      ∀ w, (vs.foldl (fileVote repWeight) acc).filter (·.weight == w) =
        (acc ++ (vs.filter fun v => v.1 ≠ 0).map (withWeight repWeight)).filter (·.weight == w)
  | [], acc, h => by simpa using h
  | v :: vs, acc, h => by
    rw [List.foldl_cons]
    by_cases hv : v.1 ≠ 0
    · rw [show fileVote repWeight acc v = emplaceMulti (withWeight repWeight v) acc from if_pos hv,
        List.filter_cons_of_pos (by simpa using hv), List.map_cons, ← List.singleton_append, ← List.append_assoc]
      obtain ⟨hp, hs, hf⟩ := foldl_fileVote repWeight vs (pairwise_emplaceMulti h)
      refine ⟨hp.trans ?_, hs, fun w => ?_⟩
      · exact ((emplaceMulti_perm _ acc).trans (List.perm_append_singleton _ acc).symm).append_right _
      · rw [hf w, List.filter_append, filter_emplaceMulti w h, List.filter_append, List.filter_append]
    · rw [show fileVote repWeight acc v = acc from if_neg hv, List.filter_cons_of_neg (by simpa using hv)]
      exact foldl_fileVote repWeight vs h

/-- **`votes_with_weight` lists every vote once, heaviest first, and stably.**  Its
result holds, each once, the entries of `last_votes` but the one filed under the zero
account, each with its representative's weight; the heavier come first; and entries
of equal weight keep the order of `last_votes`.  The multimap keeps entries of equal
weight, where the map of `tally_t` keeps only the first. -/
theorem votesWithWeight_sorted_stable (repWeight : Account → Nat) (s : Election) :
    List.Perm (votesWithWeight repWeight s)
        ((s.lastVotes.entries.filter fun v => v.1 ≠ 0).map (withWeight repWeight)) ∧
      (votesWithWeight repWeight s).Pairwise (fun a b => b.weight ≤ a.weight) ∧
      ∀ w, (votesWithWeight repWeight s).filter (·.weight == w) =
        ((s.lastVotes.entries.filter fun v => v.1 ≠ 0).map (withWeight repWeight)).filter (·.weight == w) := by
  simpa using foldl_fileVote repWeight s.lastVotes.entries List.Pairwise.nil

end VotesWithWeight

end Election

end Nano
