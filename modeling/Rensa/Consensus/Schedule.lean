import Rensa.Consensus.Model.Schedule
/-!
# One leader for every slot

The stream has three counters: the slot it yielded last, the latest one
that was published, and how many validators were drawn. Either nothing was
drawn and nothing yielded, or one more was drawn than the slot that was
yielded last (`InSync`). So catching up with a published slot ends at the
validator of exactly this slot, whatever slots were skipped before
(`leaders_agree`).
-/

namespace Rensa

namespace Consensus

variable {G H : Type} {genesis : Genesis H} {R : Sampler G} {sch : ValidatorSchedule G genesis}

namespace ValidatorSchedule

/-- The schedule after some validators were drawn. -/
def after (R : Sampler G) (sch : ValidatorSchedule G genesis) : ℕ → ValidatorSchedule G genesis
  | 0 => sch
  | n + 1 => ((after R sch n).next R).2

theorem after_next (n : ℕ) : after R (sch.next R).2 n = after R sch (n + 1) := by
  induction n with
  | zero => rfl
  | succ n ih =>
    show ((after R (sch.next R).2 n).next R).2 = _
    rw [ih]
    rfl

theorem item_eq (n : ℕ) : sch.item R n = ((after R sch n).next R).1 := by
  induction n generalizing sch with
  | zero => rfl
  | succ n ih =>
    show item R (sch.next R).2 n = _
    rw [ih, after_next]

/-- A schedule never ends. -/
theorem next_isSome (s : ValidatorSchedule G genesis) : (s.next R).1.isSome := by
  have hne : genesis.eligible.map Prod.snd ≠ [] := by simpa using s.nonempty
  have hlt := R.sample_lt (genesis.eligible.map Prod.snd) s.rng hne
  rw [List.length_map] at hlt
  show (genesis.eligible[(R.sample (genesis.eligible.map Prod.snd) s.rng).1]?).isSome
  rw [List.getElem?_eq_getElem hlt]
  rfl

end ValidatorSchedule

open ValidatorSchedule (after item_eq next_isSome)

/-- An enumeration that drew as many validators as it counts. -/
def Enumerate.Of (R : Sampler G) (sch : ValidatorSchedule G genesis) (e : Enumerate G genesis) :
    Prop := e.iter = after R sch e.count

/-- The next one of an enumeration is the item of its count. -/
theorem Enumerate.Of.next {e : Enumerate G genesis} (he : e.Of R sch) :
    ∃ v, sch.item R e.count = some v ∧
      e.next R = (some (e.count, v), ⟨after R sch (e.count + 1), e.count + 1⟩) := by
  obtain ⟨v, hv⟩ := Option.isSome_iff_exists.1 (next_isSome (R := R) (after R sch e.count))
  refine ⟨v, by rw [item_eq, hv], ?_⟩
  unfold Enumerate.next
  rw [show e.iter = after R sch e.count from he, ← Prod.mk.eta (p := (after R sch e.count).next R),
    hv]
  rfl

namespace ValidatorScheduleStream

/-- **Catching up ends at the validator of the slot.** -/
theorem catchUp_spec {slot : ℕ} {e : Enumerate G genesis} (he : e.Of R sch)
    (hle : e.count ≤ slot) : ∃ v, sch.item R slot = some v ∧
      loop (catchUpRound R slot) _ (shrinks_catchUpRound R slot) e =
        (.reached slot v, ⟨after R sch (slot + 1), slot + 1⟩) := by
  refine loop_rule (I := fun e : Enumerate G genesis => e.Of R sch ∧ e.count ≤ slot)
    (Q := fun r : Turn × Enumerate G genesis => ∃ v, sch.item R slot = some v ∧
      r = (.reached slot v, ⟨after R sch (slot + 1), slot + 1⟩)) ⟨he, hle⟩ ?_ ?_
  · -- a round that draws a validator of an earlier slot
    rintro e e' ⟨he, hle⟩ hround
    obtain ⟨v, -, hnext⟩ := he.next
    unfold catchUpRound at hround
    rw [hnext] at hround
    dsimp only at hround
    split at hround
    next hlt =>
      cases hround
      exact ⟨rfl, hlt⟩
    · split at hround <;> cases hround
  · -- the count has not passed the slot, so the round has reached it
    rintro e r ⟨he, hle⟩ hround
    obtain ⟨v, hv, hnext⟩ := he.next
    unfold catchUpRound at hround
    rw [hnext] at hround
    dsimp only at hround
    split at hround
    · cases hround
    next hge =>
      have heq : e.count = slot := by omega
      rw [if_pos heq] at hround
      cases hround
      exact ⟨v, heq ▸ hv, by rw [heq]⟩

/-- The counters of a stream: what was drawn goes as far as what was
yielded, and that no further than what was published. -/
structure InSync (R : Sampler G) (sch : ValidatorSchedule G genesis)
    (s : ValidatorScheduleStream G genesis) : Prop where
  drawn : s.schedule.Of R sch
  count_le : s.schedule.count ≤ s.pos + 1
  start : s.pos = 0 → s.schedule.count = 0
  pos_le : s.pos ≤ s.notif

/-- **What a poll does**: it yields the slot that was published last, with
its validator, or nothing where that slot was yielded already. -/
theorem pollNext_spec {s : ValidatorScheduleStream G genesis} (hs : s.InSync R sch) :
    ∃ item s', s.pollNext R = some (item, s') ∧ s'.InSync R sch ∧ s'.notif = s.notif ∧
      ((item = none ∧ s'.pos = s.pos) ∨ ∃ v, item = some (s.notif, v) ∧
        sch.item R s.notif = some v ∧ s.pos < s.notif ∧ s'.pos = s.notif) := by
  unfold pollNext
  split
  next hlt =>
    have hle : s.schedule.count ≤ s.notif := by
      have := hs.count_le
      omega
    obtain ⟨v, hv, hloop⟩ := catchUp_spec hs.drawn hle
    rw [hloop]
    refine ⟨_, _, rfl, ⟨rfl, Nat.le_refl _, fun hzero => ?_, Nat.le_refl _⟩, rfl,
      .inr ⟨v, rfl, hv, hlt, rfl⟩⟩
    have hzero : s.notif = 0 := hzero
    omega
  · exact ⟨none, s, rfl, hs, rfl, .inl ⟨rfl, rfl⟩⟩

/-! ## Runs -/

/-- What a stream yields: slots that go up, each with its validator. -/
structure Leads (R : Sampler G) (sch : ValidatorSchedule G genesis)
    (items : List (ℕ × (Pubkey × ℕ))) : Prop where
  increasing : (items.map Prod.fst).Pairwise (· < ·)
  leader : ∀ x ∈ items, sch.item R x.1 = some x.2

/-- **Along a run** in which the published slots go up: nothing
unreachable is reached, and what is yielded is above what was before. -/
theorem run_spec {inputs : List Input} {s : ValidatorScheduleStream G genesis}
    (hs : s.InSync R sch) (hinputs : (published inputs).Pairwise (· < ·))
    (habove : ∀ slot ∈ published inputs, s.notif ≤ slot) :
    ∃ items s', run R inputs s = some (items, s') ∧ Leads R sch items ∧
      ∀ x ∈ items, s.pos < x.1 := by
  induction inputs generalizing s with
  | nil => exact ⟨[], s, rfl, ⟨.nil, nofun⟩, nofun⟩
  | cons i inputs ih =>
    cases i with
    | publish slot =>
      obtain ⟨hfirst, hrest⟩ := List.pairwise_cons.1 hinputs
      have hslot : s.notif ≤ slot := habove slot List.mem_cons_self
      have hpublished : ({ s with notif := slot } : ValidatorScheduleStream G genesis).InSync R sch :=
        ⟨hs.drawn, hs.count_le, hs.start, hs.pos_le.trans hslot⟩
      exact ih hpublished hrest fun slot' hslot' => (hfirst slot' hslot').le
    | poll =>
      obtain ⟨item, s₁, hpoll, hs₁, hnotif, hitem⟩ := pollNext_spec hs
      obtain ⟨items, s', hrun, hleads, hpos⟩ := ih hs₁ hinputs (hnotif ▸ habove)
      have hrun' : run R (.poll :: inputs) s = some (item.toList ++ items, s') := by
        simp only [run, hpoll, hrun, Option.map_some]
      refine ⟨_, _, hrun', ?_⟩
      rcases hitem with ⟨rfl, hpos₁⟩ | ⟨v, rfl, hv, hlt, hpos₁⟩
      · exact ⟨hleads, fun x hx => hpos₁ ▸ hpos x hx⟩
      · -- whatever is yielded later is above the slot that is yielded now
        rw [hpos₁] at hpos
        refine ⟨⟨List.pairwise_cons.2 ⟨fun slot hslot => ?_, hleads.increasing⟩, ?_⟩, ?_⟩
        · obtain ⟨x, hx, rfl⟩ := List.mem_map.1 hslot
          exact hpos x hx
        · rintro x (_ | ⟨_, hx⟩)
          · exact hv
          · exact hleads.leader x hx
        · rintro x (_ | ⟨_, hx⟩)
          · exact hlt
          · exact hlt.trans (hpos x hx)

theorem inSync_new : (new sch).InSync R sch :=
  ⟨rfl, Nat.zero_le _, fun _ => rfl, Nat.le_refl _⟩

/-- **Nodes agree about the leaders.** Two nodes with one seed and one
genesis, in whatever order slots are published to them and they are polled:
neither reaches anything unreachable, each yields slots that go up, with the
items of the schedule at these places, and so the same leader for a slot
that both yield. -/
theorem leaders_agree (R : Sampler G) (seed : Bytes) (genesis : Genesis H)
    (sch sch' : ValidatorSchedule G genesis) (hsch : ValidatorSchedule.new R seed genesis = .ok sch)
    (hsch' : ValidatorSchedule.new R seed genesis = .ok sch') (inputs inputs' : List Input)
    (hinputs : (published inputs).Pairwise (· < ·))
    (hinputs' : (published inputs').Pairwise (· < ·)) :
    ∃ items s items' s', run R inputs (new sch) = some (items, s) ∧
      run R inputs' (new sch') = some (items', s') ∧ Leads R sch items ∧ Leads R sch' items' ∧
      ∀ x ∈ items, ∀ x' ∈ items', x.1 = x'.1 → x.2 = x'.2 := by
  obtain rfl : sch = sch' := Except.ok.inj (hsch.symm.trans hsch')
  obtain ⟨items, s, hrun, hleads, -⟩ :=
    run_spec (s := new sch) (R := R) inSync_new hinputs fun _ _ => Nat.zero_le _
  obtain ⟨items', s', hrun', hleads', -⟩ :=
    run_spec (s := new sch) (R := R) inSync_new hinputs' fun _ _ => Nat.zero_le _
  refine ⟨items, s, items', s', hrun, hrun', hleads, hleads', fun x hx x' hx' hslot => ?_⟩
  have hleader := hleads.leader x hx
  rw [hslot, hleads'.leader x' hx', Option.some.injEq] at hleader
  exact hleader.symm

/-- A generator that counts. -/
def counter : Sampler ℕ where
  fromSeed seed := seed.length
  sample weights n := (n % weights.length, n + 1)
  sample_lt _ n h := Nat.mod_lt n (List.length_pos_of_ne_nil h)

/-- Two validators that have enough stake, and one that has not. -/
def threeValidators : Genesis Unit where
  hash := ()
  epochBlocks := 32
  slotInterval := 2000000000
  limits := Machine.Sample.limits
  validators := [(1, 500), (2, 5), (3, 100)]

/-- Their schedule. -/
def twoLeaders : ValidatorSchedule ℕ threeValidators := ⟨0, by decide⟩

/-- A node that misses slots, and one that starts late. -/
theorem leaders_agree_twoLeaders :
    (run counter [.poll, .publish 2, .poll, .publish 3, .publish 5, .poll, .poll]
        (new twoLeaders)).map Prod.fst = some [(2, (1, 500)), (5, (3, 100))] ∧
      ∃ items s items' s',
        run counter [.poll, .publish 2, .poll, .publish 3, .publish 5, .poll, .poll]
          (new twoLeaders) = some (items, s) ∧
        run counter [.publish 5, .poll] (new twoLeaders) = some (items', s') ∧
        Leads counter twoLeaders items ∧ Leads counter twoLeaders items' ∧
        ∀ x ∈ items, ∀ x' ∈ items', x.1 = x'.1 → x.2 = x'.2 :=
  ⟨by decide, leaders_agree counter [] threeValidators twoLeaders twoLeaders rfl rfl
    [.poll, .publish 2, .poll, .publish 3, .publish 5, .poll, .poll] [.publish 5, .poll]
    (by decide) (by decide)⟩

end ValidatorScheduleStream

end Consensus

end Rensa
