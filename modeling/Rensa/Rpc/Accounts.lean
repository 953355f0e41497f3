import Rensa.Rpc.Model
import Rensa.Storage.Lookup
/-!
# The lookup of a confirmed account

`get_confirmed_account` walks from the latest confirmed height down to the
latest finalized one and stops at the first block that sets the account. A
height it cannot read keeps it where it is, so the walk ends exactly where
it meets no such height before it stops (`lookup_ends_iff`). The account it
returns is the one that block sets, read back from disk: the right one
unless it is executable (`lookup_iff`).
-/

namespace Rensa

open Consensus

namespace BlockStore

variable {H D : Type} {s : BlockStore H D} {h : ℕ} {account : Pubkey}

/-- The blocks on disk are under their own heights. -/
def OwnHeights (s : BlockStore H D) : Prop := ∀ h b, s.Retains h b → b.height = h

/-- Whatever was consumed, the blocks on disk are under their own heights. -/
theorem ownHeights_consumeAll [DecidableEq H] (K : Config H D) (txs : D → List H)
    (detailed : Bool) (historyLen : ℕ) (inputs : List (Executed H D × Commitment)) :
    (consumeAll K txs { detailed, historyLen } inputs).OwnHeights :=
  fun _ _ hb => hb.of_consumeAll.1

/-- A block is stored at a height, and its output. -/
def Readable (s : BlockStore H D) (h : ℕ) : Prop :=
  (∃ b, s.Retains h b) ∧ (s.outputs.get h).isSome = true

/-- The diff of the block stored at a height sets the account. -/
def SetsAt (s : BlockStore H D) (account : Pubkey) (h : ℕ) (acc : Account) : Prop :=
  (∃ b, s.Retains h b) ∧ ∃ o, s.outputs.get h = some o ∧ o.state.get account = some acc

/-- **The confirmed value of an account**: the one set by the diff of the
highest block stored above the latest finalized height whose diff sets the
account. -/
def Highest (s : BlockStore H D) (account : Pubkey) (acc : Account) : Prop :=
  ∃ h, s.latestHeight < h ∧ s.SetsAt account h acc ∧ ∀ k acc', h < k → ¬ s.SetsAt account k acc'

/-- Each height the walk comes to can be read: each one above the latest
finalized block and not above the latest confirmed one can, or lies below
one at which the account is set. -/
def Unbroken (s : BlockStore H D) (account : Pubkey) : Prop :=
  ∀ f c, s.latest .finalized = some f → s.latest .confirmed = some c →
    ∀ k, f.height < k → k ≤ c.height →
      s.Readable k ∨ ∃ h acc, k < h ∧ h ≤ c.height ∧ s.SetsAt account h acc

/-- Where the node has a finalized and a confirmed block to begin with, the
confirmed value of the account is not that of a contract. -/
def Plain (s : BlockStore H D) (account : Pubkey) : Prop :=
  ∀ f c acc, s.latest .finalized = some f → s.latest .confirmed = some c →
    s.Highest account acc → acc.executable = false

theorem SetsAt.unique {acc acc' : Account} (hset : s.SetsAt account h acc)
    (hset' : s.SetsAt account h acc') : acc = acc' := by
  obtain ⟨-, o, ho, hacc⟩ := hset
  obtain ⟨-, o', ho', hacc'⟩ := hset'
  obtain rfl : o = o' := Option.some.inj (ho.symm.trans ho')
  exact Option.some.inj (hacc.symm.trans hacc')

/-- What all outputs on disk set the account to. -/
theorem SetsAt.all {acc : Account} {p : Account → Bool} (hset : s.SetsAt account h acc)
    (hall : s.outputs.entries.all fun e => (e.2.state.get account).all p) : p acc = true := by
  obtain ⟨-, o, ho, hacc⟩ := hset
  have hp := List.all_eq_true.1 hall _ (Tree.get_eq_some_iff.1 ho)
  rwa [hacc, Option.all_some] at hp

theorem Highest.unique {acc acc' : Account} (hacc : s.Highest account acc)
    (hacc' : s.Highest account acc') : acc = acc' := by
  obtain ⟨h, -, hset, hmax⟩ := hacc
  obtain ⟨h', -, hset', hmax'⟩ := hacc'
  rcases lt_trichotomy h h' with hlt | rfl | hlt
  · exact absurd hset' (hmax h' acc' hlt)
  · exact hset.unique hset'
  · exact absurd hset (hmax' h acc hlt)

/-- What `get_by_height` finds at a height that can be read. -/
theorem Readable.getByHeight (hread : s.Readable h) :
    ∃ x commitment, s.getByHeight h = some (x, commitment) := by
  obtain ⟨⟨b, hb⟩, hout⟩ := hread
  obtain ⟨o, ho⟩ := Option.isSome_iff_exists.1 hout
  have hvisible : ∃ b', s.visible h = some b' := by
    unfold visible
    rcases hb with hb | hb
    · exact ⟨b, by rw [hb, Option.some_or]⟩
    · cases hconf : s.confirmed.get h with
      | some b' => exact ⟨b', rfl⟩
      | none => exact ⟨b, hb⟩
  obtain ⟨b', hb'⟩ := hvisible
  obtain ⟨commitment, hget⟩ := getByHeight_of_visible (x := ⟨b', o⟩) hb' ho
  exact ⟨_, commitment, hget⟩

/-- `get_by_height` returns what is stored at the height, read back. -/
theorem retains_of_getByHeight {x : Executed H D} {commitment : Commitment}
    (hx : s.getByHeight h = some (x, commitment)) :
    (∃ b, s.Retains h b) ∧ ∃ o, s.outputs.get h = some o ∧ x.output = o.readBack := by
  obtain ⟨hvisible, hout⟩ := getByHeight_some hx
  refine ⟨⟨x.underlying, ?_⟩, hout⟩
  unfold visible at hvisible
  cases hconf : s.confirmed.get h with
  | some b =>
    rw [hconf, Option.some_or] at hvisible
    exact .inl (hconf.trans hvisible)
  | none =>
    rw [hconf, Option.none_or] at hvisible
    exact .inr hvisible

/-- Where a block is found, its diff has what was set, read back. -/
theorem get_of_getByHeight {x : Executed H D} {commitment : Commitment} {acc : Account}
    (hx : s.getByHeight h = some (x, commitment)) :
    x.output.state.get account = some acc ↔
      ∃ acc', s.SetsAt account h acc' ∧ acc = acc'.persisted := by
  obtain ⟨hb, o, ho, hout⟩ := retains_of_getByHeight hx
  have hread : x.output.state.get account = (o.state.get account).map Account.persisted := by
    rw [hout]
    exact StateDiff.get_readBack
  rw [hread, Option.map_eq_some_iff]
  constructor
  · rintro ⟨acc', hacc', rfl⟩
    exact ⟨acc', ⟨hb, o, ho, hacc'⟩, rfl⟩
  · rintro ⟨acc', ⟨-, o', ho', hacc'⟩, rfl⟩
    obtain rfl : o = o' := Option.some.inj (ho.symm.trans ho')
    exact ⟨acc', hacc', rfl⟩

/-- Where a block is found whose diff does not have the account, none was
set. -/
theorem not_setsAt {x : Executed H D} {commitment : Commitment} {acc : Account}
    (hx : s.getByHeight h = some (x, commitment)) (hnone : x.output.state.get account = none) :
    ¬ s.SetsAt account h acc := by
  intro hset
  have hsome := (get_of_getByHeight hx).2 ⟨acc, hset, rfl⟩
  rw [hnone] at hsome
  cases hsome

/-- No block is stored above both the latest confirmed and the latest
finalized one. -/
theorem OwnHeights.le_latest (hown : s.OwnHeights) {f c b : Produced H D}
    (hf : s.latest .finalized = some f) (hc : s.latest .confirmed = some c)
    (hb : s.Retains h b) : h ≤ f.height ∨ h ≤ c.height := by
  obtain ⟨ef, hef, rfl⟩ := Option.map_eq_some_iff.1 hf
  obtain ⟨ec, hec, rfl⟩ := Option.map_eq_some_iff.1 hc
  have hfh : ef.2.height = ef.1 :=
    hown _ _ (.inr (Tree.get_eq_some_iff.2 (List.mem_of_getLast? hef)))
  have hch : ec.2.height = ec.1 :=
    hown _ _ (.inl (Tree.get_eq_some_iff.2 (List.mem_of_getLast? hec)))
  rcases hb with hb | hb
  · have hle := Tree.le_last hec (Tree.get_eq_some_iff.1 hb)
    exact .inr (by rw [hch]; exact hle)
  · have hle := Tree.le_last hef (Tree.get_eq_some_iff.1 hb)
    exact .inl (by rw [hfh]; exact hle)

end BlockStore

namespace Rpc

namespace ServiceSharedState

variable {H : Type} {s : ServiceSharedState H} {account : Pubkey} {low fuel cursor : ℕ}

/-- The heights from `low` up to the cursor that the walk can come to can
be read. -/
def Passable (s : ServiceSharedState H) (account : Pubkey) (low cursor : ℕ) : Prop :=
  ∀ k, low < k → k ≤ cursor →
    s.blocks.Readable k ∨ ∃ h acc, k < h ∧ h ≤ cursor ∧ s.blocks.SetsAt account h acc

/-- The walk stops at the first block below the cursor that sets the
account. -/
theorem walk_eq_some {acc : Account}
    (hwalk : s.walkConfirmed account low fuel cursor = some (some acc)) :
    ∃ h acc', low < h ∧ h ≤ cursor ∧ s.blocks.SetsAt account h acc' ∧ acc = acc'.persisted ∧
      ∀ k acc', h < k → k ≤ cursor → ¬ s.blocks.SetsAt account k acc' := by
  induction fuel generalizing cursor with
  | zero => cases hwalk
  | succ fuel ih =>
    rw [walkConfirmed] at hwalk
    split at hwalk
    case isFalse => cases Option.some.inj hwalk
    case isTrue hlow =>
      cases hget : s.blocks.getByHeight cursor with
      | none =>
        simp only [hget] at hwalk
        exact ih hwalk
      | some y =>
        obtain ⟨x, commitment⟩ := y
        cases hacc : x.output.state.get account with
        | some acc' =>
          simp only [hget, hacc, Option.some.injEq] at hwalk
          obtain rfl := hwalk
          obtain ⟨set, hset, hread⟩ := (BlockStore.get_of_getByHeight hget).1 hacc
          refine ⟨cursor, set, hlow, le_rfl, hset, hread, ?_⟩
          intro k acc' hlt hle
          omega
        | none =>
          simp only [hget, hacc] at hwalk
          obtain ⟨h, set, hh, hle, hset, hread, hmax⟩ := ih hwalk
          refine ⟨h, set, hh, by omega, hset, hread, fun k acc' hlt hle' => ?_⟩
          rcases Nat.lt_or_ge (cursor - 1) k with hk | hk
          · -- the cursor itself, where the account is not set
            obtain rfl : k = cursor := by omega
            exact BlockStore.not_setsAt hget hacc
          · exact hmax k acc' hlt hk

/-- A walk that has ended without an account came to no block that sets
it. -/
theorem walk_eq_none (hwalk : s.walkConfirmed account low fuel cursor = some none) :
    ∀ k acc, low < k → k ≤ cursor → ¬ s.blocks.SetsAt account k acc := by
  induction fuel generalizing cursor with
  | zero => cases hwalk
  | succ fuel ih =>
    intro k acc hlow hle
    rw [walkConfirmed, if_pos (by omega)] at hwalk
    cases hget : s.blocks.getByHeight cursor with
    | none =>
      simp only [hget] at hwalk
      exact ih hwalk k acc hlow hle
    | some y =>
      obtain ⟨x, commitment⟩ := y
      cases hacc : x.output.state.get account with
      | some acc' =>
        simp only [hget, hacc, Option.some.injEq] at hwalk
        cases hwalk
      | none =>
        simp only [hget, hacc] at hwalk
        rcases Nat.lt_or_eq_of_le hle with hlt | rfl
        · exact ih hwalk k acc hlow (by omega)
        · exact BlockStore.not_setsAt hget hacc

/-- A walk that has ended came to no height it could not read. -/
theorem passable_of_walk {r : Option Account}
    (hwalk : s.walkConfirmed account low fuel cursor = some r) :
    s.Passable account low cursor := by
  induction fuel generalizing cursor with
  | zero => cases hwalk
  | succ fuel ih =>
    intro k hlow hle
    rw [walkConfirmed, if_pos (by omega)] at hwalk
    cases hget : s.blocks.getByHeight cursor with
    | none =>
      simp only [hget] at hwalk
      exact ih hwalk k hlow hle
    | some y =>
      obtain ⟨x, commitment⟩ := y
      obtain ⟨hb, o, ho, -⟩ := BlockStore.retains_of_getByHeight hget
      have hread : s.blocks.Readable cursor := ⟨hb, by rw [ho]; rfl⟩
      rcases Nat.lt_or_eq_of_le hle with hlt | rfl
      · cases hacc : x.output.state.get account with
        | some acc =>
          obtain ⟨set, hset, -⟩ := (BlockStore.get_of_getByHeight hget).1 hacc
          exact .inr ⟨cursor, set, hlt, le_rfl, hset⟩
        | none =>
          simp only [hget, hacc] at hwalk
          rcases ih hwalk k hlow (by omega) with hk | ⟨h, acc, hkh, hh, hset⟩
          · exact .inl hk
          · exact .inr ⟨h, acc, hkh, by omega, hset⟩
      · exact .inl hread

/-- A walk that comes to readable heights only ends, in as many steps as
there are heights. -/
theorem walk_of_passable (hpass : s.Passable account low cursor) :
    ∃ r, s.walkConfirmed account low (cursor + 1) cursor = some r := by
  induction cursor with
  | zero => exact ⟨none, by rw [walkConfirmed, if_neg (by omega)]⟩
  | succ cursor ih =>
    rw [walkConfirmed]
    split
    case isFalse => exact ⟨none, rfl⟩
    case isTrue hlow =>
      rcases hpass (cursor + 1) hlow le_rfl with hread | ⟨h, acc, hlt, hle, -⟩
      · obtain ⟨x, commitment, hget⟩ := hread.getByHeight
        cases hacc : x.output.state.get account with
        | some acc => exact ⟨some acc, by simp only [hget, hacc]⟩
        | none =>
          obtain ⟨r, hr⟩ := ih fun k hk hle => by
            rcases hpass k hk (by omega) with hread | ⟨h, acc, hkh, hh, hset⟩
            · exact .inl hread
            · rcases Nat.lt_or_ge cursor h with hlt | hge
              · -- the account is not set at the cursor
                obtain rfl : h = cursor + 1 := by omega
                exact absurd hset (BlockStore.not_setsAt hget hacc)
              · exact .inr ⟨h, acc, hkh, hge, hset⟩
          exact ⟨r, by simp only [hget, hacc, Nat.add_sub_cancel]; exact hr⟩
      · omega

/-- The lookup ends. -/
def Ends (s : ServiceSharedState H) (account : Pubkey) : Prop :=
  ∃ fuel r, s.getConfirmedAccount fuel account = some r

/-- As many steps as a walk takes that ends. -/
def enough (s : ServiceSharedState H) : ℕ :=
  ((s.blocks.latest .confirmed).map Produced.height).getD 0 + 1

theorem unbroken_of_lookup {r : Option Account} (hr : s.getConfirmedAccount fuel account = some r) :
    s.blocks.Unbroken account := by
  intro f c hf hc
  unfold getConfirmedAccount at hr
  simp only [hf, hc] at hr
  exact passable_of_walk hr

theorem lookup_of_unbroken (h : s.blocks.Unbroken account) :
    ∃ r, s.getConfirmedAccount s.enough account = some r := by
  unfold getConfirmedAccount enough
  cases hf : s.blocks.latest .finalized with
  | none => exact ⟨none, rfl⟩
  | some f =>
    cases hc : s.blocks.latest .confirmed with
    | none => exact ⟨none, rfl⟩
    | some c => exact walk_of_passable (h f c hf hc)

/-- **The lookup ends** exactly where it can read each height it comes
to. -/
theorem lookup_ends_iff : s.Ends account ↔ s.blocks.Unbroken account := by
  constructor
  · rintro ⟨fuel, r, hr⟩
    exact unbroken_of_lookup hr
  · intro h
    exact ⟨s.enough, lookup_of_unbroken h⟩

/-- **An account that is returned is the right one**, read back. -/
theorem highest_of_lookup (hown : s.blocks.OwnHeights) {acc : Account}
    (hacc : s.getConfirmedAccount fuel account = some (some acc)) :
    ∃ acc', s.blocks.Highest account acc' ∧ acc = acc'.persisted := by
  unfold getConfirmedAccount at hacc
  cases hf : s.blocks.latest .finalized with
  | none =>
    simp only [hf] at hacc
    cases Option.some.inj hacc
  | some f =>
    cases hc : s.blocks.latest .confirmed with
    | none =>
      simp only [hf, hc] at hacc
      cases Option.some.inj hacc
    | some c =>
      simp only [hf, hc] at hacc
      obtain ⟨h, set, hlow, -, hset, hread, hmax⟩ := walk_eq_some hacc
      have hlatest : s.blocks.latestHeight = f.height := by
        rw [BlockStore.latestHeight, hf]
        rfl
      refine ⟨set, ⟨h, by omega, hset, fun k acc' hlt hset' => ?_⟩, hread⟩
      obtain ⟨b, hb⟩ := hset'.1
      -- nothing is stored above the block the walk began with
      rcases hown.le_latest hf hc hb with hle | hle
      · omega
      · exact hmax k acc' hlt hle hset'

/-- **A lookup that ends finds the confirmed value** where there is one. -/
theorem lookup_of_highest (hown : s.blocks.OwnHeights) {f c : Produced H (List Transaction)}
    {acc : Account} (hf : s.blocks.latest .finalized = some f)
    (hc : s.blocks.latest .confirmed = some c) (hacc : s.blocks.Highest account acc)
    {r : Option Account} (hr : s.getConfirmedAccount fuel account = some r) :
    r = some acc.persisted := by
  cases r with
  | some acc' =>
    obtain ⟨set, hset, rfl⟩ := highest_of_lookup hown hr
    rw [hset.unique hacc]
  | none =>
    obtain ⟨h, hlow, hset, -⟩ := hacc
    have hlatest : s.blocks.latestHeight = f.height := by
      rw [BlockStore.latestHeight, hf]
      rfl
    unfold getConfirmedAccount at hr
    simp only [hf, hc] at hr
    obtain ⟨b, hb⟩ := hset.1
    rcases hown.le_latest hf hc hb with hle | hle
    · omega
    · exact absurd hset (walk_eq_none hr h acc (by omega) hle)

/-- **The lookup of a confirmed account.** It ends, and what it returns is
the value the highest confirmed block gives the account, exactly where the
heights it walks through can be read and that value is not a contract's. -/
theorem lookup_iff (s : ServiceSharedState H) (hown : s.blocks.OwnHeights) (account : Pubkey) :
    (s.Ends account ∧ ∀ fuel acc, s.getConfirmedAccount fuel account = some (some acc) →
      s.blocks.Highest account acc) ↔ s.blocks.Unbroken account ∧ s.blocks.Plain account := by
  rw [lookup_ends_iff]
  refine and_congr_right fun hunbroken => ?_
  constructor
  · intro hright f c acc hf hc hacc
    obtain ⟨r, hr⟩ := lookup_of_unbroken hunbroken
    obtain rfl := lookup_of_highest hown hf hc hacc hr
    exact Account.persisted_eq_iff.1 ((hright _ _ hr).unique hacc)
  · intro hplain fuel acc hacc
    obtain ⟨set, hset, rfl⟩ := highest_of_lookup hown hacc
    obtain ⟨f, c, hf, hc⟩ : ∃ f c, s.blocks.latest .finalized = some f ∧
        s.blocks.latest .confirmed = some c := by
      unfold getConfirmedAccount at hacc
      cases hf : s.blocks.latest .finalized with
      | none => simp [hf] at hacc
      | some f =>
        cases hc : s.blocks.latest .confirmed with
        | none => simp [hf, hc] at hacc
        | some c => exact ⟨f, c, rfl, rfl⟩
    rwa [Account.persisted_eq_iff.2 (hplain f c set hf hc hset)]

namespace Sample

/-- A block of a height, that sets account 5 if told to. -/
def block (height : ℕ) (sets : Bool) : Executed ℕ (List Transaction) where
  underlying := Chain.Sample.produce TransactionStore.Sample.payments 7 0 height [] []
  output := { state := if sets then ({} : StateDiff).set 5 { nonce := height } else {} }

/-- A block of height 2 that deploys a contract at account 5. -/
def deploying : Executed ℕ (List Transaction) where
  underlying := Chain.Sample.produce TransactionStore.Sample.payments 7 0 2 [] []
  output := { state := ({} : StateDiff).set 5 { executable := true, data := some [1] } }

/-- What is on disk after some blocks. -/
def disk (detailed : Bool) (inputs : List (Executed ℕ (List Transaction) × Commitment)) :
    BlockStore ℕ (List Transaction) :=
  BlockStore.consumeAll TransactionStore.Sample.payments
    (List.map (Transaction.hash TransactionStore.Sample.payments.crypto))
    { detailed, historyLen := 10 } inputs

/-- A service on these blocks, with its details on. -/
def service (blocks : BlockStore ℕ (List Transaction)) : ServiceSharedState ℕ where
  state := fun _ => none
  blocks := { blocks with detailed := true }
  limits := Machine.Sample.limits
  sender := fun _ => true

/-- The first block is final, and the others are confirmed. -/
def row (detailed : Bool) (heights : List ℕ) : ServiceSharedState ℕ :=
  service (disk detailed ((block 1 false, .finalized) ::
    heights.map fun h => (block h (h == 2), .confirmed)))

/-- The first block is final, and the one that deploys is confirmed. -/
def deployed : ServiceSharedState ℕ :=
  service (disk true [(block 1 false, .finalized), (deploying, .confirmed)])

theorem ownHeights (detailed : Bool) (heights : List ℕ) :
    (row detailed heights).blocks.OwnHeights :=
  BlockStore.ownHeights_consumeAll _ _ _ _ _

end Sample

/-- **Two stores on which the lookup does not end, and one on which it loses
a flag.** In the first, no block is stored between the final one and the
confirmed one; in the second, the blocks were stored while no details were
kept. In the third the account is a contract, and what is returned is not. -/
theorem lookup_runs_on :
    (Sample.row true [3]).blocks.OwnHeights ∧ ¬ (Sample.row true [3]).Ends 5 ∧
      (Sample.row false [2]).blocks.OwnHeights ∧ ¬ (Sample.row false [2]).Ends 5 ∧
      Sample.deployed.getConfirmedAccount 1 5 = some (some { data := some [1] }) ∧
      ¬ Sample.deployed.blocks.Highest 5 { data := some [1] } := by
  have hnone : ∀ {t : ServiceSharedState ℕ} {c : ℕ},
      (t.blocks.latest .finalized).map Produced.height = some 1 →
      (t.blocks.latest .confirmed).map Produced.height = some c → 1 < c →
      (t.blocks.outputs.get 2).isSome = false →
      (∀ h, 2 < h → h ≤ c → (t.blocks.outputs.get h).bind (fun o => o.state.get 5) = none) →
      ¬ t.Ends 5 := by
    intro t c hf hc hlt hout hset hends
    obtain ⟨f, hf, hfh⟩ := Option.map_eq_some_iff.1 hf
    obtain ⟨b, hb, hbh⟩ := Option.map_eq_some_iff.1 hc
    rcases lookup_ends_iff.1 hends f b hf hb 2 (by omega) (by omega) with ⟨-, hread⟩ | hex
    · rw [hout] at hread
      cases hread
    · obtain ⟨h, acc, hh, hle, -, o, ho, hacc⟩ := hex
      have hnone := hset h hh (by omega)
      rw [ho, Option.bind_some, hacc] at hnone
      cases hnone
  refine ⟨Sample.ownHeights _ _, hnone (c := 3) (by decide) (by decide) (by omega)
    (by decide) ?_, Sample.ownHeights _ _, hnone (c := 2) (by decide)
    (by decide) (by omega) (by decide) (fun h hlt hle => by omega),
    by decide, ?_⟩
  · intro h hlt hle
    obtain rfl : h = 3 := by omega
    decide
  · rintro ⟨h, -, hset, -⟩
    cases hset.all (p := Account.executable) (by decide)

/-- With blocks 2 and 3 confirmed the lookup of account 5 ends at block 2,
which does not make it a contract. -/
theorem lookup_row :
    ((Sample.row true [2, 3]).Ends 5 ∧ ∀ fuel acc,
      (Sample.row true [2, 3]).getConfirmedAccount fuel 5 = some (some acc) →
        (Sample.row true [2, 3]).blocks.Highest 5 acc) ∧
      (Sample.row true [2, 3]).getConfirmedAccount 2 5 = some (some { nonce := 2 }) := by
  refine ⟨(lookup_iff _ (Sample.ownHeights _ _) 5).2 ⟨?_, ?_⟩, by decide⟩
  case refine_2 =>
    rintro f c acc - - ⟨h, -, hset, -⟩
    exact Bool.not_eq_true' _ ▸ hset.all (p := fun a => !a.executable) (by decide)
  intro f c hf hc k hlow hle
  have hfh : (Sample.row true [2, 3]).blocks.latestHeight = 1 := by decide
  have hch : ((Sample.row true [2, 3]).blocks.latest .confirmed).map Produced.height = some 3 := by
    decide
  rw [BlockStore.latestHeight, hf] at hfh
  rw [hc] at hch
  have hfh' : f.height = 1 := hfh
  have hch' : c.height = 3 := Option.some.inj hch
  have hread : ∀ h, h = 2 ∨ h = 3 → (Sample.row true [2, 3]).blocks.Readable h := by
    have hstored : ∀ h, ((Sample.row true [2, 3]).blocks.confirmed.get h).isSome = true →
        ∃ b, (Sample.row true [2, 3]).blocks.Retains h b := by
      intro h hsome
      obtain ⟨b, hb⟩ := Option.isSome_iff_exists.1 hsome
      exact ⟨b, .inl hb⟩
    rintro h (rfl | rfl)
    · exact ⟨hstored 2 (by decide), by decide⟩
    · exact ⟨hstored 3 (by decide), by decide⟩
  exact .inl (hread k (by omega))

end ServiceSharedState

end Rpc

end Rensa
