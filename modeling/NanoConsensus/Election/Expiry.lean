/-
The end of an election: what `transition_time` returns, and what `publish` still
takes.

The result of `transition_time` is the election table's signal to erase the
election.  The node ticks its elections from one loop, so one `transition_time`
call runs at a time; between its steps any other call may take steps, and of those
only `confirm_once` (which sets `confirmed`) and `transition_active` (passive to
active) touch `state_m`: `Interferes`.  `TickRun` is the run of one call among such
steps.  `TickInv` is what holds at each place the call waits; it is carried over the
call's own steps (`TickInv.next`) and over the others' (`TickInv.interfere`), and at
the step that returns it gives `TickDone`.

`publish` asks the ledger whether the winner is confirmed, and never reads
`state_m`: an election that expired unconfirmed still takes new candidates.
-/
import NanoConsensus.Election.Invariants

namespace Nano

open Election

/-- A `transition_time` call waiting for its next step. -/
def Pending.isTime : Pending → Bool
  | .time _ => true
  | _ => false

/-- Whether an action is a step of a `transition_time` call: a new one, or the next step
of one in flight. -/
def Action.ticks (s : Sys) : Action → Bool
  | .call c => decide (c = .transitionTime)
  | .resume i => (s.pending.get? i).any Pending.isTime

/-- How the steps of other calls move `state_m`: `confirm_once` sets `confirmed`, and
`transition_active` moves a passive election to active. -/
def Interferes (st st' : ElectionState) : Prop :=
  st' = st ∨ st' = .confirmed ∨ (st = .passive ∧ st' = .active)

/-- Some step moved `state_m` from a non-terminal state into a terminal one. -/
def Expires (moves : List (ElectionState × ElectionState)) : Prop :=
  ∃ m ∈ moves, m.1.terminal = false ∧ m.2.terminal = true

theorem expires_append {moves : List (ElectionState × ElectionState)} {m : ElectionState × ElectionState} :
    Expires (moves ++ [m]) ↔ Expires moves ∨ (m.1.terminal = false ∧ m.2.terminal = true) := by
  simp only [Expires, List.mem_append, List.mem_singleton, or_and_right, exists_or, exists_eq_left]

/-- The result a `transition_time` call holds at `p`. -/
def TimeStep.result : TimeStep → Bool
  | .expiry r | .expire r => r
  | _ => false

/-- What holds of a `transition_time` call that read `st₀`, waits at `p`, and made the
changes `moves` to `state_m`, when `state_m` is `st`. -/
structure TickInv (st₀ : ElectionState) (moves : List (ElectionState × ElectionState))
    (st : ElectionState) (p : TimeStep) : Prop where
  /-- The result it holds is whether it moved `state_m` into a terminal state. -/
  result : p.result = true ↔ Expires moves
  /-- Before its first step it has read `st₀` and moved nothing. -/
  switch : ∀ seen, p = .switch seen → seen = st₀ ∧ moves = []
  /-- A call that read `confirmed`: before the switch `state_m` is still `confirmed`,
  and after it, the first move went to `expired_confirmed`. -/
  confirmed : st₀ = .confirmed → (p = .switch .confirmed ∧ st = .confirmed) ∨
    (p.result = true ∧ moves.head? = some (.confirmed, .expiredConfirmed))
  /-- Until it expires the election, `state_m` is non-terminal or as it was read. -/
  stays : ¬Expires moves → st.terminal = false ∨ st = st₀

/-- What holds once a call that read `st₀` returned `ret`, having made the changes
`moves` to `state_m` and left it at `st`. -/
structure TickDone (st₀ : ElectionState) (moves : List (ElectionState × ElectionState))
    (st : ElectionState) (ret : Bool) : Prop where
  /-- It returns `true` exactly when it moved `state_m` into a terminal state. -/
  result : ret = true ↔ Expires moves
  /-- A call that read `confirmed` first moved it to `expired_confirmed`, and returns
  `true`. -/
  confirmed : st₀ = .confirmed → ret = true ∧ moves.head? = some (.confirmed, .expiredConfirmed)
  /-- A call that returns `false` leaves `state_m` non-terminal or as it read it. -/
  stays : ret = false → st.terminal = false ∨ st = st₀

section Tick

variable {st₀ st st' : ElectionState} {moves : List (ElectionState × ElectionState)} {p : TimeStep}

theorem TickInv.interfere (h : TickInv st₀ moves st p) (hi : Interferes st st') : TickInv st₀ moves st' p := by
  refine ⟨h.result, h.switch, fun hc => ?_, fun hn => ?_⟩
  · rcases h.confirmed hc with ⟨hp, rfl⟩ | h'
    · rcases hi with rfl | rfl | ⟨h', -⟩
      · exact .inl ⟨hp, rfl⟩
      · exact .inl ⟨hp, rfl⟩
      · cases h'
    · exact .inr h'
  · rcases hi with rfl | rfl | ⟨-, rfl⟩
    · exact h.stays hn
    · exact .inl rfl
    · exact .inl rfl

/-- After the switch, a call that read `confirmed` holds `true`. -/
theorem TickInv.result_of_confirmed (h : TickInv st₀ moves st p) (hs : ∀ seen, p ≠ .switch seen)
    (h₀ : st₀ = .confirmed) : p.result = true := by
  rcases h.confirmed h₀ with ⟨h', -⟩ | ⟨h', -⟩
  · exact absurd h' (hs _)
  · exact h'

/-- A step after the switch that moves `state_m` to no terminal state it was not in
already, and keeps the result. -/
theorem TickInv.move {p' : TimeStep} (h : TickInv st₀ moves st p) (hst : st' = st ∨ st'.terminal = false)
    (hr : p'.result = p.result) (hs : ∀ seen, p' ≠ .switch seen) (hc : st₀ = .confirmed → p.result = true) :
    TickInv st₀ (moves ++ [(st, st')]) st' p' := by
  have hm : Expires (moves ++ [(st, st')]) ↔ Expires moves := by
    rw [expires_append, or_iff_left]
    rcases hst with rfl | hst
    · cases st' <;> simp [ElectionState.terminal]
    · simp [hst]
  refine ⟨by rw [hr, hm]; exact h.result, fun seen h' => absurd h' (hs seen), fun h₀ => ?_,
    fun hn => ?_⟩
  · rcases h.confirmed h₀ with ⟨rfl, -⟩ | ⟨-, h'⟩
    · cases hc h₀
    · exact .inr ⟨hr ▸ hc h₀, by simp [h']⟩
  · rcases hst with rfl | hst
    · exact h.stays (mt hm.mpr hn)
    · exact .inl hst

theorem TickInv.done (h : TickInv st₀ moves st p) (hs : ∀ seen, p ≠ .switch seen) :
    TickDone st₀ moves st p.result := by
  refine ⟨h.result, fun h₀ => ?_, fun hf => h.stays (fun he => by simp [h.result.mpr he] at hf)⟩
  rcases h.confirmed h₀ with ⟨h', -⟩ | h'
  · exact absurd h' (hs _)
  · exact h'

variable {e : Env} {s : Election} {r : Election × List Event × (TimeStep ⊕ Bool)}

/-- **One step of the call.**  A step to the next place keeps `TickInv`, and the step
that returns gives `TickDone`, with the change the step made to `state_m` logged. -/
theorem TickInv.next (h : TickInv st₀ moves s.state p) (hs : s.timeStep e p = some r) :
    match r.2.2 with
    | .inl p' => TickInv st₀ (moves ++ [(s.state, r.1.state)]) r.1.state p'
    | .inr ret => TickDone st₀ (moves ++ [(s.state, r.1.state)]) r.1.state ret := by
  cases p with
  | switch seen =>
    obtain ⟨rfl, rfl⟩ := h.switch seen rfl
    cases seen with
    | passive =>
      simp only [timeStep, Option.some.injEq] at hs; subst hs
      refine h.move ?_ rfl (by simp) (by simp)
      split
      · rw [stateChange_state]; split
        · exact .inr rfl
        · exact .inl rfl
      · exact .inl rfl
    | active =>
      obtain ⟨r', h', rfl⟩ := Option.map_eq_some'.mp hs
      exact h.move (.inl (broadcastVote_frame h').2.1) rfl (by simp) (by simp)
    | confirmed =>
      simp only [timeStep, Option.some.injEq] at hs; subst hs
      obtain ⟨-, hst⟩ | ⟨h', -⟩ := h.confirmed rfl
      · have : (s.stateChange e .confirmed .expiredConfirmed).2.state = .expiredConfirmed := by
          rw [stateChange_state, if_pos ⟨rfl, hst⟩]
        dsimp only
        rw [this, hst]
        exact ⟨iff_of_true rfl ⟨_, List.mem_singleton_self _, rfl, rfl⟩, by simp, fun _ => .inr ⟨rfl, rfl⟩,
          fun hn => absurd ⟨_, List.mem_singleton_self _, rfl, rfl⟩ hn⟩
      · cases h'
    | expiredConfirmed | expiredUnconfirmed =>
      simp only [timeStep, Option.some.injEq] at hs; subst hs
      exact h.move (.inl rfl) rfl (by simp) (by simp)
  | broadcastBlock | confirmReq =>
    simp only [timeStep, Option.some.injEq] at hs; subst hs
    exact h.move (.inl (by simp)) rfl (by simp) (h.result_of_confirmed (by simp))
  | expiry res =>
    have hc := h.result_of_confirmed (by simp)
    simp only [timeStep] at hs
    split at hs <;> simp only [Option.some.injEq] at hs <;> subst hs
    · exact h.move (.inl rfl) rfl (by simp) hc
    · exact TickInv.done (p := .expiry res) (h.move (.inl rfl) rfl (by simp) hc) (by simp)
  | expire res =>
    have hc := h.result_of_confirmed (by simp)
    simp only [timeStep, stateChange] at hs
    by_cases hv : validChange s.state .expiredUnconfirmed = true
    · rw [if_pos ⟨hv, trivial⟩] at hs
      dsimp only at hs
      cases hs
      dsimp only
      split <;>
      · refine ⟨iff_of_true rfl (expires_append.mpr (.inr ⟨validChange_not_terminal hv, rfl⟩)),
          fun h₀ => ⟨rfl, ?_⟩, fun hf => by cases hf⟩
        rcases h.confirmed h₀ with ⟨h', -⟩ | ⟨-, h'⟩
        · cases h'
        · simp [h']
    · rw [if_neg fun h' => hv h'.1] at hs
      dsimp only at hs
      cases hs
      exact TickInv.done (p := .expire res) (h.move (.inl rfl) rfl (by simp) hc) (by simp)

end Tick

/-! ### The call among the others -/

section Others

variable {e : Env} {s : Election} {o : Outcome}

/-- The first step of a call other than `transition_time`. -/
theorem Call.start_other {c : Call} (hc : c ≠ .transitionTime) (h : c.start e s = some o) :
    Interferes s.state o.election.state ∧ ∀ q ∈ o.next, q.isTime = false := by
  cases c with
  | vote rep t hh src =>
    obtain ⟨r, hr, rfl⟩ := Option.map_eq_some'.mp h
    refine ⟨(vote_state hr).elim .inl (.inr ∘ .inl), fun q hq => ?_⟩
    rw [Option.mem_def] at hq
    split at hq <;> cases hq; rfl
  | publish b =>
    simp only [Call.start] at h
    split at h <;> cases h <;> rename_i heq <;>
      refine ⟨.inl (by simpa using (publishLocked_frame heq).2.2.1), fun q hq => ?_⟩
    · simp at hq
    · rw [Option.mem_def, Option.some.injEq] at hq; subst hq; rfl
  | transitionTime => exact absurd rfl hc
  | transitionActive =>
    cases h
    refine ⟨?_, by simp⟩
    simp only [Election.transitionActive, stateChange_state]
    split
    · exact .inr (.inr ⟨‹_ ∧ _›.2, rfl⟩)
    · exact .inl rfl
  | forceConfirm type =>
    simp only [Call.start, Election.forceConfirm] at h
    split at h
    · obtain ⟨r, hr, rfl⟩ := Option.map_eq_some'.mp h
      cases hr
      exact ⟨.inr (.inl (confirmOnce_state _)), by simp⟩
    · cases h

/-- A later step of a call other than `transition_time`. -/
theorem Pending.resume_other {p : Pending} (hp : p.isTime = false) (h : p.resume e s = some o) :
    Interferes s.state o.election.state ∧ ∀ q ∈ o.next, q.isTime = false := by
  cases p with
  | vote => cases h; exact ⟨quorumTail_state.elim .inl (.inr ∘ .inl), by simp⟩
  | replacePick b w sorted => cases h; exact ⟨.inl rfl, fun q hq => by cases hq; rfl⟩
  | replaceRelock b x => cases h; exact ⟨.inl (replaceRelock_frame x).2.2.1, by simp⟩
  | time q => cases hp

theorem countP_eraseIdx {α : Type} {l : List α} {i : Nat} {x : α} (h : l.get? i = some x) (f : α → Bool) :
    (l.eraseIdx i).countP f + (if f x then 1 else 0) = l.countP f := by
  rw [List.get?_eq_getElem?, List.getElem?_eq_some_iff] at h
  obtain ⟨hi, rfl⟩ := h
  conv_rhs => rw [← List.take_append_drop i l, List.drop_eq_getElem_cons hi]
  rw [List.eraseIdx_eq_take_drop_succ, List.countP_append, List.countP_append, List.countP_cons]
  omega

theorem countP_append_next (l : List Pending) {n : Option Pending} (hn : ∀ q ∈ n, q.isTime = false) :
    (l ++ n.toList).countP Pending.isTime = l.countP Pending.isTime ∧
      ∀ p, Pending.time p ∈ l ++ n.toList → Pending.time p ∈ l :=
  ⟨by
    rw [List.countP_append, (List.countP_eq_zero (l := n.toList)).mpr fun q hq h' => absurd h' (by
      rw [hn q (Option.mem_toList.mp hq)]; exact Bool.false_ne_true), Nat.add_zero],
    fun p hp => (List.mem_append.mp hp).resolve_right fun hp' => nomatch hn _ (Option.mem_toList.mp hp')⟩

/-- **A step of another call** moves `state_m` only as `Interferes` allows, and keeps the
`transition_time` calls in flight. -/
theorem Sys.step_other {s : Sys} {a : Action} {r : Sys × List Event × Option Ret}
    (h : s.step e a = some r) (ha : a.ticks s = false) :
    Interferes s.election.state r.1.election.state ∧
      r.1.pending.countP Pending.isTime = s.pending.countP Pending.isTime ∧
      ∀ p, Pending.time p ∈ r.1.pending → Pending.time p ∈ s.pending := by
  cases a with
  | call c =>
    obtain ⟨o, ho, rfl⟩ := Option.map_eq_some'.mp h
    obtain ⟨hi, hn⟩ := Call.start_other (by simpa [Action.ticks] using ha) ho
    exact ⟨hi, countP_append_next _ hn⟩
  | resume i =>
    obtain ⟨q, hq, h'⟩ := Option.bind_eq_some.mp h
    obtain ⟨o, ho, rfl⟩ := Option.map_eq_some'.mp h'
    have hqt : q.isTime = false := by simpa only [Action.ticks, hq, Option.any_some] using ha
    obtain ⟨hi, hn⟩ := Pending.resume_other hqt ho
    obtain ⟨h₁, h₂⟩ := countP_append_next (s.pending.eraseIdx i) hn
    have := countP_eraseIdx hq Pending.isTime
    rw [hqt, if_neg Bool.false_ne_true] at this
    exact ⟨hi, h₁.trans (by omega), fun p hp => List.mem_of_mem_eraseIdx (h₂ p hp)⟩

/-- The step of the `transition_time` call waiting at `i`. -/
theorem Sys.step_tick {s : Sys} {i : Nat} {p : TimeStep} {r : Sys × List Event × Option Ret}
    (hp : s.pending.get? i = some (.time p)) (h : s.step e (.resume i) = some r) :
    ∃ r', s.election.timeStep e p = some r' ∧ r.1.election = r'.1 ∧
      ((∃ p', r'.2.2 = .inl p' ∧ r.1.pending = s.pending.eraseIdx i ++ [.time p'] ∧ r.2.2 = none) ∨
        (∃ ret, r'.2.2 = .inr ret ∧ r.1.pending = s.pending.eraseIdx i ∧
          r.2.2 = some (.transitionTime ret))) := by
  simp only [Sys.step, hp, Option.some_bind] at h
  obtain ⟨o, ho, rfl⟩ := Option.map_eq_some'.mp h
  obtain ⟨r', hr', rfl⟩ := Option.map_eq_some'.mp ho
  refine ⟨r', hr', ?_⟩
  rcases hx : r'.2.2 with p' | ret <;> simp only [Sys.apply, hx, Option.toList]
  · exact ⟨trivial, .inl ⟨p', rfl, rfl, trivial⟩⟩
  · exact ⟨trivial, .inr ⟨ret, rfl, List.append_nil _, rfl⟩⟩

end Others

/-! ### The run of one call -/

/-- The call is in flight: it is the one `transition_time` call waiting, and `TickInv`
holds of where it waits. -/
structure InFlight (st₀ : ElectionState) (moves : List (ElectionState × ElectionState)) (s : Sys) : Prop where
  one : s.pending.countP Pending.isTime = 1
  inv : ∀ p, Pending.time p ∈ s.pending → TickInv st₀ moves s.election.state p

/-- The steps after a `transition_time` call started, while it is in flight: steps of
other calls, none of them a `transition_time` call, and the call's own steps that do
not return, whose changes to `state_m` are logged in `moves`. -/
inductive TickRun : Sys → List (ElectionState × ElectionState) → Sys → Prop
  | refl (s : Sys) : TickRun s [] s
  | other {s s₁ : Sys} {moves : List (ElectionState × ElectionState)} {e : Env} {a : Action}
      {r : Sys × List Event × Option Ret} :
      TickRun s moves s₁ → s₁.step e a = some r → a.ticks s₁ = false → TickRun s moves r.1
  | tick {s s₁ : Sys} {moves : List (ElectionState × ElectionState)} {e : Env} {i : Nat} {p : TimeStep}
      {r : Sys × List Event × Option Ret} :
      TickRun s moves s₁ → s₁.pending.get? i = some (.time p) → s₁.step e (.resume i) = some r →
      r.2.2 = none → TickRun s (moves ++ [(s₁.election.state, r.1.election.state)]) r.1

section Run

variable {e : Env} {st₀ : ElectionState} {moves : List (ElectionState × ElectionState)} {s : Sys}
  {r : Sys × List Event × Option Ret}

theorem InFlight.start {s₀ : Sys} (hidle : ∀ p, Pending.time p ∉ s₀.pending)
    (h : s₀.step e (.call .transitionTime) = some r) : InFlight s₀.election.state [] r.1 := by
  simp only [Sys.step, Call.start, Option.map_some', Option.some.injEq] at h
  subst h
  have hzero : s₀.pending.countP Pending.isTime = 0 :=
    List.countP_eq_zero.mpr fun q hq ht => by
      cases q with
      | time p => exact hidle p hq
      | _ => cases ht
  refine ⟨by simp [Sys.apply, hzero, Pending.isTime], fun p hp => ?_⟩
  simp only [Sys.apply, Option.toList, List.mem_append, List.mem_singleton] at hp
  rcases hp with hp | hp
  · exact absurd hp (hidle p)
  · cases hp
    exact ⟨iff_of_false Bool.false_ne_true fun ⟨_, h, _⟩ => List.not_mem_nil _ h,
      fun seen h => ⟨(TimeStep.switch.inj h).symm, rfl⟩,
      fun hc => .inl ⟨hc ▸ rfl, hc⟩, fun _ => .inr rfl⟩

theorem InFlight.other {a : Action} (h : InFlight st₀ moves s) (hs : s.step e a = some r)
    (ha : a.ticks s = false) : InFlight st₀ moves r.1 := by
  obtain ⟨hi, hc, hm⟩ := Sys.step_other hs ha
  exact ⟨hc.trans h.one, fun p hp => (h.inv p (hm p hp)).interfere hi⟩

theorem InFlight.tick {i : Nat} {p : TimeStep} (h : InFlight st₀ moves s)
    (hp : s.pending.get? i = some (.time p)) (hs : s.step e (.resume i) = some r) (hn : r.2.2 = none) :
    InFlight st₀ (moves ++ [(s.election.state, r.1.election.state)]) r.1 := by
  obtain ⟨r', hr', he, ⟨p', hp', hpend, -⟩ | ⟨ret, -, -, hret⟩⟩ := Sys.step_tick hp hs
  · have hzero : (s.pending.eraseIdx i).countP Pending.isTime = 0 := by
      have := countP_eraseIdx hp Pending.isTime
      simp only [Pending.isTime, if_true] at this
      have := h.one
      omega
    refine ⟨by simp [hpend, hzero, Pending.isTime], fun q hq => ?_⟩
    rw [hpend] at hq
    rcases List.mem_append.mp hq with hq | hq
    · exact absurd ((List.countP_pos_iff (p := Pending.isTime)).mpr ⟨_, hq, rfl⟩) (by omega)
    · obtain rfl : q = p' := by simpa using hq
      have := (h.inv p (List.get?_mem hp)).next hr'
      rw [hp'] at this
      rwa [he]
  · rw [hn] at hret; cases hret

theorem TickRun.inFlight {s' : Sys} (hrun : TickRun s moves s') (h : InFlight st₀ [] s) :
    InFlight st₀ moves s' := by
  induction hrun with
  | refl => exact h
  | other _ hs ha ih => exact ih.other hs ha
  | tick _ hp hs hn ih => exact ih.tick hp hs hn

end Run

/-- **What `transition_time` returns.**  Take a call that starts where no other
`transition_time` call is in flight, and runs while other calls take any steps but
start no `transition_time` call, each step under its own environment.  When it
returns `ret`, with `moves` the changes its own steps made to `state_m`:
`ret` is `true` exactly when one of them moved `state_m` from a non-terminal state
into a terminal one; a call that read `confirmed` moved it to `expired_confirmed`
first and returns `true`; and a call that returns `false` leaves `state_m`
non-terminal or as it read it. -/
theorem transitionTime_result {s₀ s : Sys} {e₀ e : Env} {o r : Sys × List Event × Option Ret}
    {moves : List (ElectionState × ElectionState)} {i : Nat} {p : TimeStep} {ret : Bool}
    (hidle : ∀ q, Pending.time q ∉ s₀.pending) (hstart : s₀.step e₀ (.call .transitionTime) = some o)
    (hrun : TickRun o.1 moves s) (hp : s.pending.get? i = some (.time p))
    (hr : s.step e (.resume i) = some r) (hret : r.2.2 = some (.transitionTime ret)) :
    TickDone s₀.election.state (moves ++ [(s.election.state, r.1.election.state)]) r.1.election.state ret := by
  have h := (hrun.inFlight (InFlight.start hidle hstart)).inv p (List.get?_mem hp)
  obtain ⟨r', hr', he, ⟨p', -, -, hn⟩ | ⟨ret', hret', -, hret''⟩⟩ := Sys.step_tick hp hr
  · rw [hn] at hret; cases hret
  · rw [hret''] at hret
    cases hret
    have := h.next hr'
    rw [hret'] at this
    rwa [he]

/-- The election of `lagRun` once voter 1 has confirmed it, and the first two steps of a
tick on it. -/
def lagConfirmed : Sys :=
  ((Sys.run lagEnv (Sys.init lagEnv ⟨1, 0⟩ .normal) [.call (.vote 1 1 1 .live)]).get (by decide)).1

def lagTick : Sys × List Event × Option Ret :=
  (lagConfirmed.step lagEnv (.call .transitionTime)).get (by decide)

def lagTickSwitch : Sys × List Event × Option Ret :=
  (lagTick.1.step lagEnv (.resume 0)).get (by decide)

theorem lagTick_result :
    TickDone .confirmed [(.confirmed, .expiredConfirmed), (.expiredConfirmed, .expiredConfirmed)]
      .expiredConfirmed true :=
  transitionTime_result (i := 0) (p := .expiry true)
    (fun q => by rw [show lagConfirmed.pending = [] by decide]; exact List.not_mem_nil _)
    (show lagConfirmed.step lagEnv (.call .transitionTime) = some lagTick from (Option.some_get _).symm)
    (.tick (i := 0) (p := .switch .confirmed) (.refl _) (by decide)
      (show lagTick.1.step lagEnv (.resume 0) = some lagTickSwitch from (Option.some_get _).symm) (by decide))
    (by decide) (show lagTickSwitch.1.step lagEnv (.resume 0) = some _ from (Option.some_get (by decide)).symm)
    (by decide)

/-! ### Publishing to a settled election

`publish` gates on `confirmed (lock)`, the ledger's word on the winner, not on
`state_m`: an election that expired with its winner unconfirmed still takes blocks. -/

/-- The node of `tieEnv`, past a normal election's time to live. -/
def lateEnv : Env := { tieEnv with now := 400000 }

/-- A tick on the late node expires a new election unconfirmed; a block published
after that joins the candidates, and `publish` returns `false`. -/
theorem expired_publishes :
    ∃ s, Reachable s ∧ s.election.state = .expiredUnconfirmed ∧
      (s.step lateEnv (.call (.publish ⟨2, 0⟩))).map (fun r => (r.2.2, r.1.election.lastBlocks.find 2)) =
        some (some (Ret.publish false), some ⟨2, 0⟩) :=
  Reachable.exists_of_run tieEnv ⟨1, 0⟩ .normal lateEnv
    [.call .transitionTime, .resume 0, .resume 0, .resume 0] (by decide)

end Nano
