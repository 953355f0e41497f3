import Rensa.Node.Model
import Rensa.Storage.Pruning
import Rensa.Consensus.Issued
/-!
# What a node that stops leaves on disk

The diff of a block goes to disk when the block is made final, and the
block itself when its event has been taken and the consumers come to it.
In between the accounts on disk are ahead of the last block on disk, by the
diffs of the blocks that are still on their way (`Ahead`). A node stopped
there and started again pairs the block with the accounts of a later one,
unless the blocks on their way change nothing (`Settled`).
-/

namespace Rensa

open Consensus

variable {H D : Type}

/-- The block a `BlockFinalized` event makes final. -/
@[simp] def Consensus.ChainEvent.finalization : ChainEvent H D → Option (Executed H D)
  | .blockFinalized x _ => some x
  | _ => none

open ChainEvent (finalization)

/-- The store after the diffs of some blocks, in order. -/
def PersistentState.applyBlocks (s : PersistentState) (l : List (Executed H D)) : PersistentState :=
  l.foldl (fun s x => s.apply x.output.state) s

@[simp] theorem PersistentState.applyBlocks_nil (s : PersistentState) :
    s.applyBlocks ([] : List (Executed H D)) = s := rfl

theorem PersistentState.applyBlocks_append (s : PersistentState) (l l' : List (Executed H D)) :
    s.applyBlocks (l ++ l') = (s.applyBlocks l).applyBlocks l' :=
  List.foldl_append

theorem PersistentState.isEmpty_iff {s : PersistentState} :
    s.isEmpty = true ↔ ∀ v : Fin (2 ^ 256), s.db ⟨v⟩ = none := by
  unfold isEmpty
  exact decide_eq_true_iff

/-- A store that is not empty is opened as it is. -/
theorem PersistentState.new_eq_self {accounts : List (Pubkey × Account)} {s : PersistentState}
    {k : Pubkey} (h : s.db k ≠ none) : PersistentState.new accounts s = s := by
  rw [PersistentState.new, if_neg]
  rw [isEmpty_iff]
  exact fun hempty => h (hempty k.val)

namespace Consensus.Chain

variable [DecidableEq H] {K : Config H D} {B : Set (Produced H D)} {Q : Chain H D → Deed H D → Prop}
  {c c' c'' : Chain H D} {es e : List (ChainEvent H D)}

omit [DecidableEq H] in
/-- The final blocks whose events wait to be taken, the next one first. -/
def queued (c : Chain H D) : List (Executed H D) := c.events.reverse.filterMap finalization

omit [DecidableEq H] in
theorem queued_eq {l r : List (ChainEvent H D)} (hevents : c'.events = l ++ c.events ++ r)
    (hr : ∀ ev ∈ r, finalization ev = none) :
    c'.queued = c.queued ++ l.reverse.filterMap finalization := by
  have hquiet : r.reverse.filterMap finalization = [] :=
    List.filterMap_eq_nil_iff.2 fun ev hev => hr ev (List.mem_reverse.1 hev)
  rw [queued, hevents, List.reverse_append, List.reverse_append, List.filterMap_append,
    List.filterMap_append, hquiet, List.nil_append, queued]

omit [DecidableEq H] in
/-- **What a chain has made final on the way to a later state**, `es` being
the events it returned meanwhile: blocks of the next heights, whose events
are behind all others and whose diffs are in the store. -/
structure Finals (c : Chain H D) (es : List (ChainEvent H D)) (c' : Chain H D)
    (new : List (Executed H D)) : Prop where
  queue : es.filterMap finalization ++ c'.queued = c.queued ++ new
  store : c'.finalized.store = c.finalized.store.applyBlocks new
  height : c'.finalized.height = c.finalized.height + new.length
  consecutive : Consecutive (c.finalized.height + 1) new

namespace Finals

variable {new new' : List (Executed H D)}

omit [DecidableEq H] in
theorem refl (c : Chain H D) : Finals c [] c [] :=
  ⟨by simp, rfl, rfl, rfl⟩

omit [DecidableEq H] in
theorem trans (h : Finals c es c' new) (h' : Finals c' e c'' new') :
    Finals c (es ++ e) c'' (new ++ new') := by
  refine ⟨?_, ?_, ?_, h.consecutive.append ?_⟩
  · rw [List.filterMap_append, List.append_assoc, h'.queue, ← List.append_assoc, h.queue,
      List.append_assoc]
  · rw [h'.store, h.store, PersistentState.applyBlocks_append]
  · rw [h'.height, h.height, List.length_append, Nat.add_assoc]
  · have hstart : c.finalized.height + 1 + new.length = c'.finalized.height + 1 := by
      rw [h.height]
      omega
    rw [hstart]
    exact h'.consecutive

omit [DecidableEq H] in
/-- Nothing was made final. -/
theorem idle (hqueue : e.filterMap finalization ++ c'.queued = c.queued)
    (hfin : c'.finalized = c.finalized) : Finals c e c' [] := by
  refine ⟨?_, ?_, ?_, rfl⟩
  · rw [hqueue, List.append_nil]
  · rw [hfin]
    rfl
  · rw [hfin]
    rfl

omit [DecidableEq H] in
/-- Other events, behind those that wait and before them. -/
theorem silent {l r : List (ChainEvent H D)} (hevents : c'.events = l ++ c.events ++ r)
    (hl : ∀ ev ∈ l, finalization ev = none) (hr : ∀ ev ∈ r, finalization ev = none)
    (hfin : c'.finalized = c.finalized) : Finals c [] c' [] := by
  refine idle ?_ hfin
  have hquiet : l.reverse.filterMap finalization = [] :=
    List.filterMap_eq_nil_iff.2 fun ev hev => hl ev (List.mem_reverse.1 hev)
  rw [queued_eq hevents hr, hquiet]
  simp

end Finals

/-- **What one act makes final.** -/
theorem Act.finals (hact : Act K B Q c e c') (hc : Standing K B c) :
    ∃ new, Finals c e c' new := by
  cases hact with
  | wait | record => exact ⟨[], .idle rfl rfl⟩
  | root | child =>
    exact ⟨[], .silent (l := [.blockIncluded _]) (List.append_nil _).symm (by simp) (by simp) rfl⟩
  | cast =>
    exact ⟨[], .silent (l := [.vote _ _]) (List.append_nil _).symm (by simp) (by simp) rfl⟩
  | @count v stake target =>
    refine ⟨[], .silent (l := []) rfl (by simp) (fun ev hev => ?_) rfl⟩
    obtain ⟨x, votes, rfl⟩ := mem_confirmations hev
    rfl
  | @finalize before after root hQ hsplit =>
    have hevents := events_finalizeNext hc.formed hsplit
    rw [← List.cons_append, ← List.append_nil (_ ++ c.events)] at hevents
    have hroot : root ∈ c.forktrees := by
      rw [(splitRoots_some hsplit).1]
      exact List.mem_append_right _ List.mem_cons_self
    refine ⟨[root.label.value.block], ?_, rfl, (hc.formed.roots root hroot).2, ?_⟩
    · have hdiscards : ((Rose.nodesL (before ++ after)).map fun n =>
          ChainEvent.blockDiscarded (TreeNode.block n)).filterMap finalization =
            ([] : List (Executed H D)) := by
        refine List.filterMap_eq_nil_iff.2 fun ev hev => ?_
        obtain ⟨n, -, rfl⟩ := List.mem_map.1 hev
        rfl
      rw [queued_eq hevents (by simp), List.reverse_cons, List.filterMap_append,
        List.reverse_reverse, hdiscards]
      simp
    · exact congrArg (fun h => [h]) (hc.formed.roots root hroot).2
  | miss missing =>
    refine ⟨[], .silent (l := (missing.map .blockMissing).reverse) (r := []) ?_ ?_ (by simp) rfl⟩
    · rw [List.append_nil]
      exact foldl_push _ _ _
    · intro ev hev
      obtain ⟨h, -, rfl⟩ := List.mem_map.1 (List.mem_reverse.1 hev)
      rfl
  | @pop event hlast =>
    have hsplit : c.events.dropLast ++ [event] = c.events :=
      List.dropLast_append_getLast? event hlast
    refine ⟨[], .idle ?_ rfl⟩
    conv_rhs => rw [queued, ← hsplit, List.reverse_append, List.filterMap_append]
    rfl

/-- **What a sequence of acts makes final.** -/
theorem Acts.finals (hacts : Acts K B Q c es c') (hc : Standing K B c) :
    Standing K B c' ∧ ∃ new, Finals c es c' new := by
  refine hacts.1.rule (P := fun es c' => Standing K B c' ∧ ∃ new, Finals c es c' new)
    ⟨hc, [], .refl c⟩ fun es c₁ e c₂ hact h => ?_
  obtain ⟨hc₁, new, hnew⟩ := h
  obtain ⟨new', hnew'⟩ := hact.finals hc₁
  exact ⟨hc₁.of_act hact, _, hnew.trans hnew'⟩

end Consensus.Chain

/-! ## Where disk and chain stand -/

namespace Node

/-- The final blocks on their way to disk, the next one first. -/
def waiting (n : Node H D) : List (Executed H D) :=
  n.channel.filterMap final ++ n.chain.queued

variable (accounts : List (Pubkey × Account)) (n : Node H D)

/-- The accounts of the genesis block with the diffs of the blocks up to
the latest final one on disk. -/
def replayed : PersistentState :=
  (PersistentState.new accounts ⟨fun _ => none⟩).applyBlocks
    ((n.archive.upTo n.blocks.latestHeight).entries.map Prod.snd)

/-- **The disk is consistent**: the accounts on it are those the latest
final block on it produced, and a node started from it pairs the two. -/
def Consistent : Prop :=
  n.chain.finalized.store = n.replayed accounts ∧
    (n.restart accounts).chain.finalized =
      { underlying := n.blocks.latest .finalized, store := n.replayed accounts }

/-- **Nothing is under way that matters**: the final blocks on their way to
disk leave the accounts as they are, and these are not so few that `main`
would put those of the genesis block back. -/
def Settled : Prop :=
  (n.replayed accounts).applyBlocks n.waiting = n.replayed accounts ∧
    PersistentState.new accounts (n.replayed accounts) = n.replayed accounts

variable (K : Config H D) (txs : D → List H) [DecidableEq H]

/-- What is asked of what happens: a confirmed block comes to disk only
where the blocks that are pruned for it are below the latest final one, and
the node stops only where nothing is under way that matters. -/
def Careful : Input H D → Prop
  | .call _ => True
  | .consume => ∀ x, n.channel.head? = some (x, .confirmed) → n.blocks.Spares txs x
  | .crash i k => ((n.points K i)[k]?.getD n).Settled accounts

/-- Everything that happens is as asked. -/
def CarefulRun : Node H D → List (Input H D) → Prop
  | _, [] => True
  | n, i :: inputs => n.Careful accounts K txs i ∧ CarefulRun (n.step K txs accounts i) inputs

omit [DecidableEq H] in
/-- **The accounts on disk are ahead of the blocks on disk by the blocks on
their way.** -/
structure Ahead (accounts : List (Pubkey × Account)) (n : Node H D) (K : Config H D) : Prop where
  within : Chain.Within Set.univ n.chain
  standing : Chain.Standing K Set.univ n.chain
  store : n.chain.finalized.store = (n.replayed accounts).applyBlocks n.waiting
  height : n.chain.finalized.height = n.blocks.latestHeight + n.waiting.length
  consecutive : Consecutive (n.blocks.latestHeight + 1) n.waiting
  archived : ∀ e ∈ n.archive.entries, e.1 ≤ n.blocks.latestHeight
  keyed : n.blocks.Keyed

variable {accounts n K txs}

/-! ## One thing that happens -/

omit [DecidableEq H] in
theorem filterMap_message (es : List (ChainEvent H D)) :
    (es.filterMap message).filterMap final = es.filterMap finalization := by
  rw [List.filterMap_filterMap]
  refine List.filterMap_congr fun ev _ => ?_
  cases ev <;> rfl

/-- The chain goes on. -/
theorem Ahead.of_acts {Q : Chain H D → Chain.Deed H D → Prop} {c : Chain H D}
    {es : List (ChainEvent H D)} {channel : List (Executed H D × Commitment)}
    (h : n.Ahead accounts K) (hacts : Chain.Acts K Set.univ Q n.chain es c)
    (hchannel : channel.filterMap final = n.channel.filterMap final ++ es.filterMap finalization) :
    Ahead accounts { n with chain := c, channel } K := by
  obtain ⟨hstanding, new, hnew⟩ := hacts.finals h.standing
  have hwaiting : waiting { n with chain := c, channel } = n.waiting ++ new := by
    rw [waiting, hchannel, List.append_assoc, hnew.queue, ← List.append_assoc, waiting]
  refine ⟨hacts.2, hstanding, ?_, ?_, ?_, h.archived, h.keyed⟩
  · rw [hwaiting, PersistentState.applyBlocks_append]
    show c.finalized.store = ((n.replayed accounts).applyBlocks n.waiting).applyBlocks new
    rw [hnew.store, h.store]
  · rw [hwaiting, List.length_append, ← Nat.add_assoc]
    show c.finalized.height = n.blocks.latestHeight + n.waiting.length + new.length
    rw [hnew.height, h.height]
  · rw [hwaiting]
    refine h.consecutive.append ?_
    have hstart : n.blocks.latestHeight + 1 + n.waiting.length = n.chain.finalized.height + 1 := by
      rw [h.height]
      omega
    show Consecutive (n.blocks.latestHeight + 1 + n.waiting.length) new
    rw [hstart]
    exact hnew.consecutive

theorem Ahead.call (h : n.Ahead accounts K) (i : Chain.Input H D) :
    (n.call K i).Ahead accounts K := by
  have hacts : Chain.Acts K Set.univ (Chain.Calm True) n.chain (n.chain.returned K i)
      (n.chain.step K i) :=
    Chain.step_acts h.within (fun _ _ _ => trivial) fun p _ => Chain.calm_true p.2
  refine h.of_acts hacts ?_
  rw [List.filterMap_append, filterMap_message]

theorem acts_rounds {fuel : ℕ} {c c' : Chain H D} (h : Chain.Within Set.univ c)
    (hc' : c' ∈ rounds K fuel c) : Chain.Acts K Set.univ (Chain.Calm True) c [] c' := by
  induction fuel generalizing c with
  | zero =>
    rw [rounds, List.mem_singleton] at hc'
    rw [hc']
    exact .refl h
  | succ fuel ih =>
    rw [rounds, List.mem_cons] at hc'
    rcases hc' with rfl | hc'
    · exact .refl h
    · split at hc'
      · cases hc'
      · rename_i d hd
        obtain ⟨before, after, root, hsplit, rfl⟩ := Chain.tryFinalizeRoots_some hd
        have hfin : Chain.Acts K Set.univ (Chain.Calm True) c [] _ :=
          Chain.finalizeNext_acts h trivial hsplit
        exact hfin.trans_silent (ih hfin.2 hc')

theorem mem_points_self {i : Chain.Input H D} : n ∈ n.points K i := by
  cases i with
  | «include» => exact List.mem_cons_self
  | pollNext => exact List.mem_cons_self

/-- **Every point of a call.** -/
theorem Ahead.points (h : n.Ahead accounts K) {i : Chain.Input H D} {m : Node H D}
    (hm : m ∈ n.points K i) : m.Ahead accounts K := by
  obtain ⟨c, hc, rfl⟩ := List.mem_map.1 hm
  cases i with
  | «include» now b =>
    rw [midway, List.mem_singleton] at hc
    rw [hc]
    exact h
  | pollNext now =>
    rw [midway, List.mem_cons] at hc
    rcases hc with rfl | hc
    · exact h
    · split at hc
      · rename_i b hlast
        have hpop : Chain.Acts K Set.univ (Chain.Calm True) n.chain [.blockIncluded b]
            n.chain.pop :=
          .single (.pop hlast) ⟨h.within.orphans, h.within.votes,
            fun x hx => h.within.events x (List.dropLast_subset _ hx)⟩
        have hcount : Chain.Acts K Set.univ (Chain.Calm True) n.chain.pop []
            (n.chain.pop.countAll K b.underlying) :=
          Chain.countAll_acts hpop.2 trivial fun p _ => Chain.calm_true p.2
        exact h.of_acts (hpop.trans (hcount.trans_silent (acts_rounds hcount.2 hc))) (by simp)
      · cases hc

omit [DecidableEq H] in
theorem replayed_eq (h : ∀ e ∈ n.archive.entries, e.1 ≤ n.blocks.latestHeight) :
    n.replayed accounts =
      (PersistentState.new accounts ⟨fun _ => none⟩).applyBlocks
        (n.archive.entries.map Prod.snd) := by
  rw [replayed, Tree.upTo_eq_self h]

/-- The next final block comes to disk. -/
theorem consume_final (txs : D → List H) (accounts : List (Pubkey × Account)) {b : Executed H D}
    {channel : List (Executed H D × Commitment)}
    (hchannel : n.channel = (b, .finalized) :: channel) (hkeyed : n.blocks.Keyed)
    (harchived : ∀ e ∈ n.archive.entries, e.1 ≤ n.blocks.latestHeight)
    (hb : b.underlying.height = n.blocks.latestHeight + 1) :
    (n.consume K txs).blocks.Keyed ∧
      (n.consume K txs).blocks.latestHeight = n.blocks.latestHeight + 1 ∧
      (∀ e ∈ (n.consume K txs).archive.entries, e.1 ≤ n.blocks.latestHeight + 1) ∧
      (n.consume K txs).replayed accounts = (n.replayed accounts).apply b.output.state := by
  have hblocks : (n.consume K txs).blocks = (n.blocks.consume K txs b .finalized).1 := by
    rw [consume, hchannel]
  have hstored : n.blocks.storeRawBlock b.underlying .finalized ≠ none := by
    simp [BlockStore.storeRawBlock, hb]
  have harchive : (n.consume K txs).archive.entries =
      n.archive.entries ++ [(n.blocks.latestHeight + 1, b)] := by
    have hinsert : (n.consume K txs).archive = n.archive.insert b.underlying.height b := by
      rw [consume, hchannel]
      show n.archived b .finalized = _
      rw [archived]
      split
      · contradiction
      · rfl
    rw [hinsert, hb]
    exact Tree.entries_insert fun e he => Nat.lt_succ_of_le (harchived e he)
  have hheight : (n.consume K txs).blocks.latestHeight = n.blocks.latestHeight + 1 := by
    rw [hblocks, BlockStore.latestHeight, hkeyed.latest_finalized hb]
    exact hb
  have hbelow : ∀ e ∈ (n.consume K txs).archive.entries, e.1 ≤ n.blocks.latestHeight + 1 := by
    intro e he
    rw [harchive] at he
    rcases List.mem_append.1 he with he | he
    · exact (harchived e he).trans (Nat.le_succ _)
    · rw [List.mem_singleton.1 he]
  refine ⟨hblocks ▸ hkeyed.consume, hheight, hbelow, ?_⟩
  rw [replayed_eq (hheight.symm ▸ hbelow), replayed_eq harchived, harchive, List.map_append,
    PersistentState.applyBlocks_append]
  rfl

omit [DecidableEq H] in
/-- A block that is not final comes to disk, or none does. -/
theorem Ahead.of_same {m : Node H D} (h : n.Ahead accounts K) (hchain : m.chain = n.chain)
    (harchive : m.archive = n.archive) (hwaiting : m.waiting = n.waiting)
    (hlatest : m.blocks.latest .finalized = n.blocks.latest .finalized)
    (hkeyed : m.blocks.Keyed) : m.Ahead accounts K := by
  have hheight : m.blocks.latestHeight = n.blocks.latestHeight := by
    rw [BlockStore.latestHeight, hlatest, BlockStore.latestHeight]
  have hreplayed : m.replayed accounts = n.replayed accounts := by
    rw [replayed, harchive, hheight, replayed]
  refine ⟨?_, ?_, ?_, ?_, ?_, ?_, hkeyed⟩
  · rw [hchain]
    exact h.within
  · rw [hchain]
    exact h.standing
  · rw [hchain, hreplayed, hwaiting]
    exact h.store
  · rw [hchain, hheight, hwaiting]
    exact h.height
  · rw [hheight, hwaiting]
    exact h.consecutive
  · rw [harchive, hheight]
    exact h.archived

theorem Ahead.consume (h : n.Ahead accounts K) (hcareful : n.Careful accounts K txs .consume) :
    (n.consume K txs).Ahead accounts K := by
  rcases hchannel : n.channel with - | ⟨⟨b, commitment⟩, channel⟩
  · rw [Node.consume, hchannel]
    exact h
  have hchain : (n.consume K txs).chain = n.chain := by
    rw [Node.consume, hchannel]
  have hsent : (n.consume K txs).channel = channel := by
    rw [Node.consume, hchannel]
  have hblocks : (n.consume K txs).blocks = (n.blocks.consume K txs b commitment).1 := by
    rw [Node.consume, hchannel]
  have harchive : (n.consume K txs).archive = n.archived b commitment := by
    rw [Node.consume, hchannel]
  cases commitment with
  | included =>
    refine h.of_same hchain harchive ?_ ?_ ?_
    · rw [waiting, hsent, hchain, waiting, hchannel]
      rfl
    · rw [hblocks]
      rfl
    · rw [hblocks]
      exact h.keyed
  | confirmed =>
    refine h.of_same hchain harchive ?_ ?_ ?_
    · rw [waiting, hsent, hchain, waiting, hchannel]
      rfl
    · rw [hblocks]
      exact h.keyed.latest_confirmed_iff.2 (hcareful b (by rw [hchannel]; rfl))
    · rw [hblocks]
      exact h.keyed.consume
  | finalized =>
    have hwaiting : n.waiting = b :: (n.consume K txs).waiting := by
      rw [waiting, hchannel, waiting, hsent, hchain]
      rfl
    have hconsecutive := h.consecutive
    rw [hwaiting] at hconsecutive
    obtain ⟨hb, hrest⟩ := hconsecutive.of_cons
    obtain ⟨hkeyed, hheight, hbelow, hreplayed⟩ :=
      consume_final (K := K) txs accounts hchannel h.keyed h.archived hb
    refine ⟨hchain ▸ h.within, hchain ▸ h.standing, ?_, ?_, ?_, ?_, hkeyed⟩
    · rw [hchain, h.store, hwaiting, hreplayed]
      rfl
    · rw [hchain, h.height, hwaiting, hheight, List.length_cons]
      omega
    · rw [hheight]
      exact hrest
    · rw [hheight]
      exact hbelow

omit [DecidableEq H] in
/-- **The disk is consistent exactly where nothing is under way that
matters.** -/
theorem Ahead.consistent_iff (h : n.Ahead accounts K) :
    n.Consistent accounts ↔ n.Settled accounts := by
  constructor
  · rintro ⟨hstore, hpaired⟩
    have hreopened : PersistentState.new accounts n.chain.finalized.store = n.replayed accounts :=
      congrArg Finalized.store hpaired
    rw [hstore] at hreopened
    exact ⟨h.store.symm.trans hstore, hreopened⟩
  · rintro ⟨hwaiting, hreopened⟩
    have hstore : n.chain.finalized.store = n.replayed accounts := h.store.trans hwaiting
    refine ⟨hstore, ?_⟩
    show Finalized.mk (n.blocks.latest .finalized)
      (PersistentState.new accounts n.chain.finalized.store) = _
    rw [hstore, hreopened]

omit [DecidableEq H] in
theorem height_restart : (n.restart accounts).chain.finalized.height = n.blocks.latestHeight := by
  show Finalized.height ⟨n.blocks.latest .finalized, _⟩ = _
  rw [Finalized.height, BlockStore.latestHeight]
  cases n.blocks.latest .finalized <;> rfl

omit [DecidableEq H] in
/-- A node that stopped where nothing was under way. -/
theorem Ahead.restart (h : n.Ahead accounts K) (hsettled : n.Settled accounts) :
    (n.restart accounts).Ahead accounts K := by
  have hpaired := (h.consistent_iff.2 hsettled).2
  refine ⟨Chain.within_new _, Chain.standing_new _, ?_, ?_, rfl, h.archived, h.keyed⟩
  · rw [hpaired]
    rfl
  · rw [height_restart]
    rfl

theorem Ahead.step (h : n.Ahead accounts K) {i : Input H D}
    (hcareful : n.Careful accounts K txs i) : (n.step K txs accounts i).Ahead accounts K := by
  cases i with
  | call i => exact h.call i
  | consume => exact h.consume hcareful
  | crash i k =>
    have hpoint : ((n.points K i)[k]?.getD n).Ahead accounts K := by
      cases hk : (n.points K i)[k]? with
      | none => exact h
      | some m => exact h.points (List.mem_of_getElem? hk)
    exact hpoint.restart hcareful

/-! ## Runs -/

omit [DecidableEq H] in
theorem replayed_boot (detailed : Bool) (historyLen : ℕ) :
    (boot accounts detailed historyLen : Node H D).replayed accounts =
    PersistentState.new accounts ⟨fun _ => none⟩ := by
  have hnone : ((boot accounts detailed historyLen : Node H D).archive.upTo
      (boot accounts detailed historyLen : Node H D).blocks.latestHeight).entries = [] := rfl
  rw [replayed, hnone, List.map_nil, PersistentState.applyBlocks_nil]

omit [DecidableEq H] in
theorem ahead_boot (detailed : Bool) (historyLen : ℕ) :
    (boot accounts detailed historyLen).Ahead accounts K := by
  refine ⟨Chain.within_new _, Chain.standing_new _, ?_, rfl, rfl, by simp [boot, Tree.empty],
    fun _ he => absurd he List.not_mem_nil⟩
  have hwaiting : (boot accounts detailed historyLen : Node H D).waiting = [] := rfl
  rw [replayed_boot, hwaiting, PersistentState.applyBlocks_nil]
  rfl

theorem Ahead.run (h : n.Ahead accounts K) {inputs : List (Input H D)}
    (hcareful : n.CarefulRun accounts K txs inputs) :
    (n.run K txs accounts inputs).Ahead accounts K := by
  induction inputs generalizing n with
  | nil => exact h
  | cons i inputs ih => exact ih (h.step hcareful.1) hcareful.2

/-- **Crash consistency.** At every point of every run in which no pruning
reaches the latest final block and the node stops only where nothing is
under way that matters, the disk is consistent exactly where nothing is
under way that matters. -/
theorem consistent_iff_settled (detailed : Bool) (historyLen : ℕ) (inputs : List (Input H D))
    (hcareful : (boot accounts detailed historyLen).CarefulRun accounts K txs inputs)
    (i : Chain.Input H D) {m : Node H D}
    (hm : m ∈ ((boot accounts detailed historyLen).run K txs accounts inputs).points K i) :
    m.Consistent accounts ↔ m.Settled accounts :=
  (((ahead_boot detailed historyLen).run hcareful).points hm).consistent_iff

/-! ## A run -/

/-- Nothing is pruned for blocks that are not above the length of the
history. -/
theorem carefulRun_consume {k : ℕ}
    (h : ∀ p ∈ n.channel, p.1.underlying.height ≤ n.blocks.historyLen) :
    n.CarefulRun accounts K txs (List.replicate k .consume) := by
  induction k generalizing n with
  | zero => trivial
  | succ k ih =>
    refine ⟨fun b hb _ l _ => ?_, ih ?_⟩
    · have hle : b.underlying.height ≤ n.blocks.historyLen := h _ (List.mem_of_mem_head? hb)
      omega
    · rcases hchannel : n.channel with - | ⟨⟨b, commitment⟩, channel⟩
      · have hsame : n.consume K txs = n := by rw [Node.consume, hchannel]
        rw [step, hsame]
        exact h
      · rw [step, Node.consume, hchannel]
        intro p hp
        show p.1.underlying.height ≤ (n.blocks.consume K txs b commitment).1.historyLen
        rw [BlockStore.settings_consume.2]
        exact h p (hchannel ▸ List.mem_cons_of_mem _ hp)

theorem carefulRun_append {l r : List (Input H D)} (hl : n.CarefulRun accounts K txs l)
    (hr : (n.run K txs accounts l).CarefulRun accounts K txs r) :
    n.CarefulRun accounts K txs (l ++ r) := by
  induction l generalizing n with
  | nil => exact hr
  | cons i l ih => exact ⟨hl.1, ih hl.2 hr⟩

theorem carefulRun_call (l : List (Chain.Input H D)) :
    n.CarefulRun accounts K txs (l.map .call) := by
  induction l generalizing n with
  | nil => trivial
  | cons i l ih => exact ⟨trivial, ih⟩

namespace Sample

/-- One account. -/
def ledger : List (Pubkey × Account) := [(200, {})]

/-- One validator, and blocks that change the account. -/
def counting : Config ℕ Unit := Chain.Sample.config .inPlace [(7, 1000)] fun _ _ =>
  .ok { state := ({} : StateDiff).set 200 { nonce := 1 } }

/-- The first of three blocks is made final. -/
def threeBlocks : List (Input ℕ Unit) := Chain.Sample.threeBlocks.map .call

/-- Its event is taken, with those before it. -/
def taken : List (Input ℕ Unit) :=
  (Chain.Sample.threeBlocks ++ List.replicate 6 (Chain.Input.pollNext 0)).map .call

/-- And it comes to disk. -/
def stored : List (Input ℕ Unit) := taken ++ List.replicate 6 .consume

/-- The node at the start. -/
def start : Node ℕ Unit := boot ledger true 100

/-- The node after some of it. -/
def after (inputs : List (Input ℕ Unit)) : Node ℕ Unit :=
  start.run counting (fun _ => []) ledger inputs

theorem db_new : (PersistentState.new ledger ⟨fun _ => none⟩).db 200 =
    some { nonce := 0, owner := none, data := none } := by
  rw [PersistentState.new, if_pos (PersistentState.isEmpty_iff.2 fun _ => rfl)]
  decide

end Sample

/-- The node has made the first of three blocks final, and its event waits:
the account is changed on disk, the block is not there. -/
theorem not_consistent_threeBlocks :
    ¬ ∀ (inputs : List (Input ℕ Unit)) (i : Chain.Input ℕ Unit),
      ∀ m ∈ (Sample.after inputs).points Sample.counting i,
        m.Consistent Sample.ledger := by
  intro h
  have hstore := (h Sample.threeBlocks (.pollNext 0) _ mem_points_self).1
  have hnone : ((Sample.after Sample.threeBlocks).archive.upTo
      (Sample.after Sample.threeBlocks).blocks.latestHeight).entries = [] :=
    List.eq_nil_of_length_eq_zero (by decide)
  rw [replayed, hnone, List.map_nil, PersistentState.applyBlocks_nil] at hstore
  have hdisk : (Sample.after Sample.threeBlocks).chain.finalized.store.db 200 =
        some { nonce := 1, owner := none, data := none } := by
    decide +kernel
  rw [hstore, Sample.db_new] at hdisk
  simp at hdisk

/-- Once the events are taken and the consumers are done, the disk is
consistent. -/
theorem consistent_stored :
    (Sample.after Sample.stored).Consistent Sample.ledger ∧
      (Sample.after Sample.stored).blocks.latestHeight = 1 := by
  have hcareful : Sample.start.CarefulRun Sample.ledger Sample.counting (fun _ => [])
      Sample.stored :=
    carefulRun_append (carefulRun_call _) (carefulRun_consume (by decide +kernel))
  have hwaiting : (Sample.after Sample.stored).waiting = [] :=
    List.eq_nil_of_length_eq_zero (by decide +kernel)
  have hkept : ((Sample.after Sample.stored).replayed Sample.ledger).db 200 =
        some { nonce := 1, owner := none, data := none } := by
    decide +kernel
  have hsettled : (Sample.after Sample.stored).Settled
      Sample.ledger := by
    refine ⟨by rw [hwaiting, PersistentState.applyBlocks_nil],
      PersistentState.new_eq_self (k := 200) ?_⟩
    rw [hkept]
    simp
  exact ⟨(consistent_iff_settled true 100 Sample.stored hcareful (.pollNext 0) mem_points_self).2
    hsettled, by decide +kernel⟩

end Node

end Rensa
