import Rensa.Storage.Replayable
import Rensa.Vm.Model.Output
/-!
# The transactions a node can look up

Blocks are pruned by height and transactions are kept under their hashes
alone, so a block that goes takes the record of a transaction with it also
where a block that stays has the transaction too. The transactions of the
blocks on disk are found after every block that is consumed exactly where
no block that was pruned had a transaction in common with one that stayed
(`found_iff`).
-/

namespace Rensa

open Consensus

namespace Machine

variable {H : Type} [DecidableEq H]

/-- A transaction has a log or an error. -/
def Told (out : BlockOutput H) (t : H) : Prop :=
  t ∈ out.errors.map Prod.fst ∨ t ∈ out.logs.map Prod.fst

variable {vm : Machine H} {fuel : ℕ} {s : State} {acc acc' : BlockOutput H}

theorem told_executeNext {tx : Transaction} (h : vm.executeNext fuel s acc tx = some acc') {t : H}
    (ht : Told acc t ∨ t = tx.hash vm.crypto) : Told acc' t := by
  unfold executeNext at h
  dsimp only at h
  split at h
  · cases h
  · obtain rfl := Option.some.inj h
    rcases ht with (ht | ht) | rfl
    · exact Or.inl ht
    · exact Or.inr (mem_keys_indexInsert.2 (Or.inl ht))
    · exact Or.inr (mem_keys_indexInsert.2 (Or.inr rfl))
  · obtain rfl := Option.some.inj h
    rcases ht with (ht | ht) | rfl
    · exact Or.inl (mem_keys_indexInsert.2 (Or.inl ht))
    · exact Or.inr ht
    · exact Or.inl (mem_keys_indexInsert.2 (Or.inr rfl))

theorem told_foldlM {txs : List Transaction}
    (h : txs.foldlM (vm.executeNext fuel s) acc = some acc') {t : H}
    (ht : Told acc t ∨ t ∈ txs.map (Transaction.hash vm.crypto)) : Told acc' t := by
  induction txs generalizing acc with
  | nil =>
    obtain rfl : acc = acc' := by simpa using h
    exact ht.resolve_right List.not_mem_nil
  | cons tx txs ih =>
    rw [List.foldlM_cons, Option.bind_eq_bind, Option.bind_eq_some_iff] at h
    obtain ⟨mid, hnext, hrest⟩ := h
    refine ih hrest ?_
    rw [List.map_cons, List.mem_cons, ← or_assoc] at ht
    exact ht.imp_left (told_executeNext hnext)

/-- **What is executed is recorded**: every transaction of a block has a log
or an error in its output. -/
theorem recorded_executeBlock [Ord H] {x : Executed H (List Transaction)}
    (h : vm.executeBlock fuel x.underlying.data s = some (.ok x.output)) :
    BlockStore.recorded (List.map (Transaction.hash vm.crypto)) x = true := by
  have hfold : x.underlying.data.foldlM (vm.executeNext fuel s) {} = some x.output := by
    unfold executeBlock at h
    split at h
    · simpa using h
    · simp at h
  refine List.all_eq_true.2 fun t ht => ?_
  rcases told_foldlM hfold (Or.inr ht) with hin | hin
  · obtain ⟨p, hp, rfl⟩ := List.mem_map.1 hin
    simp only [Bool.or_eq_true, List.lookup_isSome_iff]
    exact Or.inl ⟨p, hp, beq_self_eq_true _⟩
  · obtain ⟨p, hp, rfl⟩ := List.mem_map.1 hin
    simp only [Bool.or_eq_true, List.lookup_isSome_iff]
    exact Or.inr ⟨p, hp, beq_self_eq_true _⟩

end Machine

namespace BlockStore

variable {H D : Type} {s s' : BlockStore H D} {b : Produced H D} {h k : ℕ}
  {commitment : Commitment}

/-- **What is on disk once a block is stored**, where no other block of its
height is. -/
theorem retains_storeRawBlock {b' : Produced H D} (hc : commitment ≠ .included)
    (hother : ∀ b', s.Retains b.height b' → b' = b)
    (hs' : s.storeRawBlock b commitment = some s') :
    s'.Retains h b' ↔ s.Retains h b' ∨ h = b.height ∧ b' = b := by
  refine ⟨fun h' => (Retains.of_storeRawBlock hs' h').symm, fun h' => ?_⟩
  by_cases hh : h = b.height
  · subst hh
    obtain rfl : b' = b := h'.elim (hother b') And.right
    cases commitment with
    | included => contradiction
    | confirmed =>
      obtain rfl := Option.some.inj hs'
      exact Or.inl (by rw [Tree.get_insert, if_pos rfl])
    | finalized =>
      simp only [storeRawBlock] at hs'
      split at hs'
      · cases hs'
      obtain rfl := Option.some.inj hs'
      exact Or.inr (by rw [Tree.get_insert, if_pos rfl])
  · have hold : s.Retains h b' := h'.resolve_right fun hx => hh hx.1
    cases commitment with
    | included => contradiction
    | confirmed =>
      obtain rfl := Option.some.inj hs'
      simpa only [Retains, Tree.get_insert, if_neg hh] using hold
    | finalized =>
      simp only [storeRawBlock] at hs'
      split at hs'
      · cases hs'
      obtain rfl := Option.some.inj hs'
      simpa only [Retains, Tree.get_insert, Tree.get_remove, if_neg hh] using hold

variable {K : Config H D} [DecidableEq H] {txs : D → List H} {x : Executed H D}

theorem Retains.of_storeRest (h' : (s.storeRest K txs x).1.Retains h b) : s.Retains h b := by
  obtain ⟨t, ht⟩ : ∃ t, t = if s.detailed then s.storeOutputs x else s := ⟨_, rfl⟩
  have hsame : t.Retains h b → s.Retains h b := by
    rw [ht]
    split <;> exact id
  unfold storeRest at h'
  rw [← ht] at h'
  dsimp only at h'
  split at h'
  · exact hsame h'
  · exact hsame (retains_pruneOlderThan.1 h').2

/-- What is on disk after a block is consumed was there, or is the block. -/
theorem Retains.of_consume (h' : (s.consume K txs x commitment).1.Retains h b) :
    s.Retains h b ∨ commitment ≠ .included ∧ h = x.underlying.height ∧ b = x.underlying := by
  unfold consume at h'
  split at h'
  · exact Or.inl h'
  rename_i hc
  cases hs' : s.storeRawBlock x.underlying commitment with
  | none =>
    rw [hs'] at h'
    exact Or.inl h'
  | some s' =>
    rw [hs'] at h'
    rcases Retains.of_storeRawBlock hs' h'.of_storeRest with hnew | hold
    · exact Or.inr ⟨hc, hnew⟩
    · exact Or.inl hold

/-- **The blocks on disk were consumed**, and are under their heights. -/
theorem Retains.of_consumeAll {detailed : Bool} {historyLen : ℕ}
    {inputs : List (Executed H D × Commitment)}
    (h' : (consumeAll K txs { detailed, historyLen } inputs).Retains h b) :
    b.height = h ∧ ∃ x ∈ stored inputs, x.underlying = b := by
  induction inputs using List.reverseRecOn with
  | nil => rcases h' with h' | h' <;> cases h'
  | append_singleton pre i ih =>
    rw [consumeAll_concat] at h'
    rcases h'.of_consume with hold | ⟨hc, rfl, rfl⟩
    · obtain ⟨hheight, y, hy, hyb⟩ := ih hold
      refine ⟨hheight, y, ?_, hyb⟩
      rw [stored, List.filterMap_append]
      exact List.mem_append_left _ hy
    · exact ⟨rfl, i.1, mem_stored.2 ⟨i.2, hc, by simp⟩, rfl⟩

end BlockStore

namespace TransactionStore

variable {H : Type} {s : TransactionStore H} {K : Config H (List Transaction)}
  [DecidableEq H] {x : Executed H (List Transaction)} {commitment : Commitment} {h k : ℕ} {t : H}

/-! ## The records of transactions -/

/-- The record of a transaction holds what the output of the block stores
of it. -/
theorem executedTransaction_eq (tx : Transaction) :
    executedTransaction K x tx = (x.output.stored (tx.hash K.crypto)).map fun output =>
      { block := x.underlying.height, transaction := tx, output } :=
  rfl

/-- What is kept of a transaction carries the height of the block. -/
theorem executedTransaction_block {tx : Transaction} {entry : ExecutedTransaction}
    (hentry : executedTransaction K x tx = some entry) : entry.block = x.underlying.height := by
  rw [executedTransaction_eq] at hentry
  obtain ⟨output, -, rfl⟩ := Option.map_eq_some_iff.1 hentry
  rfl

theorem executedTransaction_isSome {tx : Transaction} :
    (executedTransaction K x tx).isSome =
      ((x.output.errors.lookup (tx.hash K.crypto)).isSome ||
        (x.output.logs.lookup (tx.hash K.crypto)).isSome) := by
  simp only [executedTransaction_eq, BlockOutput.stored, Option.isSome_map, Option.isSome_or]

/-- The batch has a record of each transaction where all of them are
recorded, and there is none elsewhere. -/
theorem batch_cases (K : Config H (List Transaction)) (x : Executed H (List Transaction)) :
    (BlockStore.recorded (List.map (Transaction.hash K.crypto)) x = false ∧ batch K x = none) ∨
      BlockStore.recorded (List.map (Transaction.hash K.crypto)) x = true ∧
        ∃ l, batch K x = some l ∧
        l.map Prod.fst = x.underlying.data.map (Transaction.hash K.crypto) ∧
        ∀ e ∈ l, ∃ entry, e.2 = some entry ∧ entry.block = x.underlying.height := by
  unfold BlockStore.recorded batch
  induction x.underlying.data with
  | nil => exact Or.inr ⟨rfl, [], rfl, rfl, fun e he => absurd he List.not_mem_nil⟩
  | cons tx txs ih =>
    rw [List.map_cons, List.all_cons, List.mapM_cons, ← executedTransaction_isSome]
    cases hentry : executedTransaction K x tx with
    | none => exact Or.inl ⟨rfl, rfl⟩
    | some entry =>
      rcases ih with ⟨hfalse, hnone⟩ | ⟨htrue, l, hl, hkeys, hblocks⟩
      · rw [hfalse, hnone]
        exact Or.inl ⟨rfl, rfl⟩
      · rw [htrue, hl]
        refine Or.inr ⟨rfl, _, rfl, congrArg (_ :: ·) hkeys, fun e he => ?_⟩
        rcases List.mem_cons.1 he with rfl | he
        · exact ⟨entry, rfl, executedTransaction_block hentry⟩
        · exact hblocks e he

/-- **The blocks on disk do not depend on the transactions.** -/
theorem blocks_consume : (s.consume K x commitment).1.blocks =
    (s.blocks.consume K (List.map (Transaction.hash K.crypto)) x commitment).1 := by
  unfold consume BlockStore.consume
  split
  · rfl
  cases s.blocks.storeRawBlock x.underlying commitment with
  | none => rfl
  | some s' =>
    unfold storeRest BlockStore.storeRest storeOutputs
    dsimp only
    cases hd : s'.detailed with
    | false => simp [hd, pruneOlderThan]
    | true =>
      have hd' : (s'.storeOutputs x).detailed = true := hd
      rcases batch_cases K x with ⟨hfalse, hnone⟩ | ⟨htrue, l, hl, -⟩
      · simp [hd', hfalse, hnone]
      · simp [hd', htrue, hl, pruneOlderThan]

/-- A block that is pruned has the transaction. -/
def Pruned (K : Config H (List Transaction)) (s : BlockStore H (List Transaction)) (k : ℕ)
    (t : H) : Prop :=
  ∃ h b, s.Retains h b ∧ h < k ∧ t ∈ b.data.map (Transaction.hash K.crypto)

/-- **What pruning leaves of the transactions.** -/
theorem transactions_pruneOlderThan (hd : s.blocks.detailed = true) :
    (Pruned K s.blocks k t ∧ (s.pruneOlderThan K k).transactions t = none) ∨
      ¬ Pruned K s.blocks k t ∧
        (s.pruneOlderThan K k).transactions t = s.transactions t := by
  have hiff : Pruned K s.blocks k t ↔
      t ∈ ((s.blocks.pruned k).flatMap fun e => e.2.data).map (Transaction.hash K.crypto) := by
    rw [List.map_flatMap, List.mem_flatMap]
    constructor
    · rintro ⟨h, b, hb, hlt, ht⟩
      exact ⟨(h, b), BlockStore.mem_pruned.2 ⟨hb, hlt⟩, ht⟩
    · rintro ⟨⟨h, b⟩, he, ht⟩
      obtain ⟨hb, hlt⟩ := BlockStore.mem_pruned.1 he
      exact ⟨h, b, hb, hlt, ht⟩
  have heq : (s.pruneOlderThan K k).transactions t =
      if t ∈ ((s.blocks.pruned k).flatMap fun e => e.2.data).map (Transaction.hash K.crypto) then
        none
      else s.transactions t := by
    rw [← applyBatch_remove, List.map_flatMap, ← applyBatch_flatMap]
    unfold pruneOlderThan
    dsimp only
    split
    · rfl
    · -- nothing is below the height zero
      rename_i hk
      obtain rfl : k = 0 := by
        by_contra hne
        exact hk ⟨Nat.pos_of_ne_zero hne, hd⟩
      rw [BlockStore.pruned_zero, List.foldl_nil]
  rw [heq]
  by_cases h : Pruned K s.blocks k t
  · exact Or.inl ⟨h, if_pos (hiff.1 h)⟩
  · exact Or.inr ⟨h, if_neg fun hin => h (hiff.2 hin)⟩

/-- **What consuming a block leaves of the transactions**, once it is
stored: those of the block are recorded with its height, and those of the
blocks that are pruned go. -/
theorem transactions_consume {s' : BlockStore H (List Transaction)}
    (hd : s.blocks.detailed = true) (hc : commitment ≠ .included)
    (hrec : BlockStore.recorded (List.map (Transaction.hash K.crypto)) x = true)
    (hs' : s.blocks.storeRawBlock x.underlying commitment = some s') :
    (Pruned K s' (x.underlying.height - s'.historyLen) t ∧
        (s.consume K x commitment).1.transactions t = none) ∨
      ¬ Pruned K s' (x.underlying.height - s'.historyLen) t ∧
        ((t ∈ x.underlying.data.map (Transaction.hash K.crypto) ∧
          ∃ entry, (s.consume K x commitment).1.transactions t = some entry ∧
            entry.block = x.underlying.height) ∨
        t ∉ x.underlying.data.map (Transaction.hash K.crypto) ∧
          (s.consume K x commitment).1.transactions t = s.transactions t) := by
  have hd' : s'.detailed = true := (BlockStore.storeRawBlock_settings hs').1.trans hd
  rcases batch_cases K x with ⟨hfalse, -⟩ | ⟨-, l, hl, hkeys, hblocks⟩
  · rw [hrec] at hfalse
    cases hfalse
  obtain ⟨u, hu⟩ : ∃ u : TransactionStore H,
      u = ⟨s'.storeOutputs x, applyBatch s.transactions l⟩ := ⟨_, rfl⟩
  have hconsume : (s.consume K x commitment).1.transactions =
      (u.pruneOlderThan K (x.underlying.height - s'.historyLen)).transactions := by
    rw [hu]
    simp [consume, hc, hs', storeRest, storeOutputs, hd', hl, BlockStore.storeOutputs]
  have hud : u.blocks.detailed = true := by
    rw [hu]
    exact hd'
  rw [hconsume]
  rcases transactions_pruneOlderThan (K := K) (s := u) (t := t)
    (k := x.underlying.height - s'.historyLen) hud with ⟨hp, hnone⟩ | ⟨hp, heq⟩
  · rw [hu] at hp
    exact Or.inl ⟨hp, hnone⟩
  · refine Or.inr ⟨by rw [hu] at hp; exact hp, ?_⟩
    rw [heq, hu]
    dsimp only
    by_cases ht : t ∈ x.underlying.data.map (Transaction.hash K.crypto)
    · obtain ⟨entry, hentry, hblock⟩ := hblocks _ (applyBatch_of_mem (m := s.transactions)
        (hkeys ▸ ht))
      exact Or.inl ⟨ht, entry, hentry, hblock⟩
    · exact Or.inr ⟨ht, applyBatch_of_not_mem (hkeys ▸ ht)⟩

/-! ## One block -/

variable (K) in
/-- **The transactions of the blocks on disk are found**, each with the
height of a block on disk that has it. -/
def Found (s : TransactionStore H) : Prop :=
  ∀ h b, s.blocks.Retains h b → ∀ t ∈ b.data.map (Transaction.hash K.crypto),
    ∃ entry, s.getTransaction t = some (some entry) ∧ ∃ b', s.blocks.Retains entry.block b' ∧
      b'.height = entry.block ∧ t ∈ b'.data.map (Transaction.hash K.crypto)

/-- The block is on disk, or is the one that is consumed. -/
def Stands (s : BlockStore H (List Transaction)) (x : Executed H (List Transaction)) (h : ℕ)
    (b : Produced H (List Transaction)) : Prop :=
  s.Retains h b ∨ h = x.underlying.height ∧ b = x.underlying

variable (K) in
/-- **What is pruned shares nothing with what stays**: where the block is
stored, no block below the height to which it prunes has a transaction in
common with a block from that height on. -/
def Apart (s : BlockStore H (List Transaction)) (x : Executed H (List Transaction))
    (commitment : Commitment) : Prop :=
  commitment ≠ .included → (s.storeRawBlock x.underlying commitment).isSome = true →
    ∀ h b h' b', Stands s x h b → Stands s x h' b' →
      h < x.underlying.height - s.historyLen → x.underlying.height - s.historyLen ≤ h' →
      ∀ t ∈ b.data.map (Transaction.hash K.crypto), t ∉ b'.data.map (Transaction.hash K.crypto)

/-- **The blocks on disk after a block is consumed.** -/
theorem retains_consume {s' : BlockStore H (List Transaction)} {b : Produced H (List Transaction)}
    (hd : s.blocks.detailed = true) (hc : commitment ≠ .included)
    (hrec : BlockStore.recorded (List.map (Transaction.hash K.crypto)) x = true)
    (hother : ∀ b', s.blocks.Retains x.underlying.height b' → b' = x.underlying)
    (hs' : s.blocks.storeRawBlock x.underlying commitment = some s') :
    (s.consume K x commitment).1.blocks.Retains h b ↔
      x.underlying.height - s.blocks.historyLen ≤ h ∧ Stands s.blocks x h b := by
  obtain ⟨hdetailed, hlen⟩ := BlockStore.storeRawBlock_settings hs'
  rw [blocks_consume, BlockStore.consume, if_neg hc, hs', ← hlen, Stands,
    ← BlockStore.retains_storeRawBlock hc hother hs']
  show (s'.storeRest K _ x).1.Retains h b ↔ _
  rw [BlockStore.storeRest_of_recorded (hdetailed.trans hd) hrec]
  exact BlockStore.retains_pruneOlderThan

omit [DecidableEq H] in
/-- What a consumed block prunes: the transactions of the blocks that stand
with it and are too old. -/
theorem pruned_iff {s' : BlockStore H (List Transaction)} (hc : commitment ≠ .included)
    (hother : ∀ b', s.blocks.Retains x.underlying.height b' → b' = x.underlying)
    (hs' : s.blocks.storeRawBlock x.underlying commitment = some s') (t : H) :
    Pruned K s' (x.underlying.height - s'.historyLen) t ↔
      ∃ h b, Stands s.blocks x h b ∧ h < x.underlying.height - s.blocks.historyLen ∧
        t ∈ b.data.map (Transaction.hash K.crypto) := by
  rw [Pruned, (BlockStore.storeRawBlock_settings hs').2]
  simp only [BlockStore.retains_storeRawBlock hc hother hs', Stands]

/-- **One block.** Where the transactions of the blocks on disk are found,
they are found after the next block if and only if what it prunes shares
nothing with what stays. -/
theorem found_consume (hfound : s.Found K) (hd : s.blocks.detailed = true)
    (hrec : BlockStore.recorded (List.map (Transaction.hash K.crypto)) x = true)
    (hother : commitment ≠ .included →
      ∀ b', s.blocks.Retains x.underlying.height b' → b' = x.underlying) :
    (s.consume K x commitment).1.Found K ↔ Apart K s.blocks x commitment := by
  by_cases hc : commitment = .included
  · rw [consume, if_pos hc]
    exact iff_of_true hfound fun hne => absurd hc hne
  cases hs' : s.blocks.storeRawBlock x.underlying commitment with
  | none =>
    rw [consume, if_neg hc, hs']
    refine iff_of_true hfound fun _ hsome => ?_
    rw [hs'] at hsome
    cases hsome
  | some s' =>
    have hretains : ∀ h b, (s.consume K x commitment).1.blocks.Retains h b ↔
        x.underlying.height - s.blocks.historyLen ≤ h ∧ Stands s.blocks x h b := fun h b =>
      retains_consume hd hc hrec (hother hc) hs'
    have hpruned := pruned_iff (K := K) hc (hother hc) hs'
    have hdetailed : (s.consume K x commitment).1.blocks.detailed = true := by
      rw [blocks_consume]
      exact BlockStore.settings_consume.1.trans hd
    have hread : ∀ t, (s.consume K x commitment).1.getTransaction t =
        some ((s.consume K x commitment).1.transactions t) := fun t => by
      rw [getTransaction, if_pos hdetailed]
    constructor
    · -- a transaction that is pruned with a block is not found for another
      intro hafter _ _ h b h' b' hb hb' hlt hle t ht ht'
      obtain ⟨entry, hentry, -⟩ := hafter h' b' ((hretains h' b').2 ⟨hle, hb'⟩) t ht'
      rw [hread, Option.some_inj] at hentry
      rcases transactions_consume (K := K) (t := t) hd hc hrec hs' with ⟨-, hnone⟩ | ⟨hnot, -⟩
      · rw [hnone] at hentry
        cases hentry
      · exact hnot ((hpruned t).2 ⟨h, b, hb, hlt, ht⟩)
    · intro hapart h b hb t ht
      obtain ⟨hle, hstands⟩ := (hretains h b).1 hb
      have hnot : ¬ ∃ h b, Stands s.blocks x h b ∧
          h < x.underlying.height - s.blocks.historyLen ∧
            t ∈ b.data.map (Transaction.hash K.crypto) := by
        rintro ⟨h₁, b₁, hb₁, hlt, ht₁⟩
        exact hapart hc (by rw [hs']; rfl) h₁ b₁ h b hb₁ hstands hlt hle t ht₁ ht
      rw [hread]
      rcases transactions_consume (K := K) (t := t) hd hc hrec hs' with
        ⟨hp, -⟩ | ⟨-, ⟨hin, entry, hentry, hblock⟩ | ⟨hnin, heq⟩⟩
      · exact absurd ((hpruned t).1 hp) hnot
      · refine ⟨entry, congrArg some hentry, x.underlying, (hretains _ _).2 ⟨?_, Or.inr ?_⟩,
          hblock.symm, hin⟩
        · rw [hblock]
          exact Nat.sub_le _ _
        · exact ⟨hblock, rfl⟩
      · -- the record is that of another block, which stays
        have hold : s.blocks.Retains h b := by
          rcases hstands with hold | ⟨-, rfl⟩
          · exact hold
          · exact absurd ht hnin
        obtain ⟨entry, hentry, b', hb', hheight, ht'⟩ := hfound h b hold t ht
        rw [getTransaction, if_pos hd, Option.some_inj] at hentry
        refine ⟨entry, congrArg some (heq.trans hentry), b', (hretains _ _).2 ⟨?_, Or.inl hb'⟩,
          hheight, ht'⟩
        by_contra hlt
        exact hnot ⟨entry.block, b', Or.inl hb', by omega, ht'⟩

/-! ## Runs -/

variable (K) in
/-- Any sequence of calls of `consume`. -/
def consumeAll (s : TransactionStore H)
    (inputs : List (Executed H (List Transaction) × Commitment)) : TransactionStore H :=
  inputs.foldl (fun s i => (s.consume K i.1 i.2).1) s

theorem consumeAll_append (pre post : List (Executed H (List Transaction) × Commitment)) :
    s.consumeAll K (pre ++ post) = (s.consumeAll K pre).consumeAll K post :=
  List.foldl_append

theorem blocks_consumeAll (inputs : List (Executed H (List Transaction) × Commitment)) :
    (s.consumeAll K inputs).blocks =
      s.blocks.consumeAll K (List.map (Transaction.hash K.crypto)) inputs := by
  induction inputs generalizing s with
  | nil => rfl
  | cons i inputs ih => exact ih.trans (by rw [blocks_consume]; rfl)

/-- **When transactions are found.** Of any blocks that are consumed, one of
each height and with any transactions: after every one of them the
transactions of the blocks on disk are found, each with the height of a
block on disk that has it, if and only if no block that was pruned on the
way had a transaction in common with a block that stayed. -/
theorem found_iff (K : Config H (List Transaction)) (historyLen : ℕ)
    (inputs : List (Executed H (List Transaction) × Commitment))
    (hheights : ∀ x ∈ stored inputs, ∀ y ∈ stored inputs,
      x.underlying.height = y.underlying.height → x = y)
    (hrec : ∀ i ∈ inputs,
      BlockStore.recorded (List.map (Transaction.hash K.crypto)) i.1 = true) :
    (∀ pre post, inputs = pre ++ post →
        (consumeAll K { blocks := { detailed := true, historyLen } } pre).Found K) ↔
      ∀ pre x commitment post, inputs = pre ++ (x, commitment) :: post →
        Apart K (consumeAll K { blocks := { detailed := true, historyLen } } pre).blocks x
          commitment := by
  have hstep : ∀ pre x commitment post, inputs = pre ++ (x, commitment) :: post →
      (consumeAll K { blocks := { detailed := true, historyLen } } pre).Found K →
      ((consumeAll K { blocks := { detailed := true, historyLen } }
          (pre ++ [(x, commitment)])).Found K ↔
        Apart K (consumeAll K { blocks := { detailed := true, historyLen } } pre).blocks x
          commitment) := by
    intro pre x commitment post hsplit hfound
    have hmem : (x, commitment) ∈ inputs := by
      rw [hsplit]
      exact List.mem_append_right _ List.mem_cons_self
    obtain ⟨s, hs⟩ : ∃ s, s = consumeAll K ({ blocks := { detailed := true, historyLen } } :
      TransactionStore H) pre := ⟨_, rfl⟩
    have hblocks := (congrArg blocks hs).trans (blocks_consumeAll pre)
    have hd : s.blocks.detailed = true := by
      rw [hblocks]
      exact (BlockStore.settings_consumeAll pre).1
    rw [consumeAll_append, ← hs]
    rw [← hs] at hfound
    refine found_consume hfound hd (hrec _ hmem) fun hc b' hb' => ?_
    -- a block of its height is the block itself
    rw [hblocks] at hb'
    obtain ⟨hheight, y, hy, rfl⟩ := BlockStore.Retains.of_consumeAll hb'
    have hyin : y ∈ stored inputs := by
      rw [hsplit, stored, List.filterMap_append]
      exact List.mem_append_left _ hy
    rw [hheights y hyin x (mem_stored.2 ⟨commitment, hc, hmem⟩) hheight]
  constructor
  · intro hfound pre x commitment post hsplit
    refine (hstep pre x commitment post hsplit (hfound pre _ hsplit)).1 ?_
    exact hfound (pre ++ [(x, commitment)]) post (by rw [hsplit]; simp)
  · intro hapart pre
    induction pre using List.reverseRecOn with
    | nil =>
      intro post _ h b hb
      rcases hb with hb | hb <;> cases hb
    | append_singleton pre i ih =>
      intro post hsplit
      rw [List.append_assoc] at hsplit
      exact (hstep pre i.1 i.2 post hsplit (ih _ hsplit)).2 (hapart pre i.1 i.2 post hsplit)

namespace Sample

/-- One validator, and blocks of transactions. -/
def payments : Config ℕ (List Transaction) :=
  Chain.Sample.config .inPlace [(7, 1000)] fun _ _ => .ok {}

/-- A transaction. -/
def payment : Transaction where
  contract := 1
  nonce := 1
  payer := 7
  accounts := []
  params := []
  signatures := []

/-- A block of a height, whose transactions failed. -/
def block (height : ℕ) (txs : List Transaction) : Executed ℕ (List Transaction) where
  underlying := Chain.Sample.produce payments 7 0 height txs []
  output := { errors := txs.map fun tx => (tx.hash payments.crypto, .invalidTransactionNonce) }

/-- Three confirmed blocks, of which the first has a transaction and the
last has some as well. -/
def threeBlocks (last : List Transaction) : List (Executed ℕ (List Transaction) × Commitment) :=
  [(block 1 [payment], .confirmed), (block 2 [], .confirmed), (block 3 last, .confirmed)]

/-- They have heights of their own. -/
theorem eq_of_height {last : List Transaction} : ∀ x ∈ stored (threeBlocks last),
    ∀ y ∈ stored (threeBlocks last), x.underlying.height = y.underlying.height → x = y := by
  have hstored : stored (threeBlocks last) = [block 1 [payment], block 2 [], block 3 last] := rfl
  have hheight : ∀ h txs, (block h txs).underlying.height = h := fun h txs => rfl
  rw [hstored]
  intro x hx y hy heq
  simp only [List.mem_cons, List.not_mem_nil, or_false] at hx hy
  rcases hx with rfl | rfl | rfl <;> rcases hy with rfl | rfl | rfl <;>
    simp_all

end Sample

/-- With a history of one block and no transaction in the last one, the
transactions on disk are always found. -/
theorem found_threeBlocks :
    (∀ pre post, Sample.threeBlocks [] = pre ++ post →
      (consumeAll Sample.payments { blocks := { detailed := true, historyLen := 1 } } pre).Found
        Sample.payments) ∧
      ((consumeAll Sample.payments { blocks := { detailed := true, historyLen := 1 } }
        ((Sample.threeBlocks []).take 2)).transactions
          (Sample.payment.hash Sample.payments.crypto)).isSome = true := by
  refine ⟨(found_iff Sample.payments 1 (Sample.threeBlocks []) Sample.eq_of_height
    (by decide +kernel)).2 ?_, by decide +kernel⟩
  -- a block with a transaction is the first one, so no two of them differ in height
  have hfirst : ∀ y ∈ stored (Sample.threeBlocks []), y.underlying.data ≠ [] →
      y.underlying.height = 1 := by
    intro y hy hdata
    have hstored : stored (Sample.threeBlocks []) =
        [Sample.block 1 [Sample.payment], Sample.block 2 [], Sample.block 3 []] := rfl
    rw [hstored] at hy
    simp only [List.mem_cons, List.not_mem_nil, or_false] at hy
    rcases hy with rfl | rfl | rfl
    · rfl
    · exact absurd rfl hdata
    · exact absurd rfl hdata
  intro pre x commitment post hsplit hc _
  have hone : ∀ h b, Stands (consumeAll Sample.payments
      { blocks := { detailed := true, historyLen := 1 } } pre).blocks x h b →
      b.data ≠ [] → h = 1 := by
    rintro h b (hb | ⟨rfl, rfl⟩) hdata
    · rw [blocks_consumeAll] at hb
      obtain ⟨rfl, y, hy, rfl⟩ := hb.of_consumeAll
      refine hfirst y ?_ hdata
      rw [hsplit, stored, List.filterMap_append]
      exact List.mem_append_left _ hy
    · refine hfirst x (mem_stored.2 ⟨commitment, hc, ?_⟩) hdata
      rw [hsplit]
      exact List.mem_append_right _ List.mem_cons_self
  intro h b h' b' hb hb' hlt hle t ht ht'
  have hh := hone h b hb fun hnil => by simp [hnil] at ht
  have hh' := hone h' b' hb' fun hnil => by simp [hnil] at ht'
  omega

/-- With the same transaction in the first and the last of three blocks it
is not found once the first is pruned. -/
theorem not_found_threeBlocks :
    (Sample.threeBlocks [Sample.payment]).map (fun i => i.1.underlying.height) = [1, 2, 3] ∧
      (∀ i ∈ Sample.threeBlocks [Sample.payment], BlockStore.recorded
        (List.map (Transaction.hash Sample.payments.crypto)) i.1 = true) ∧
      ¬ (consumeAll Sample.payments { blocks := { detailed := true, historyLen := 1 } }
        (Sample.threeBlocks [Sample.payment])).Found Sample.payments := by
  refine ⟨by decide +kernel, by decide +kernel, fun hfound => ?_⟩
  obtain ⟨s, hs⟩ : ∃ s, s = consumeAll Sample.payments
    { blocks := { detailed := true, historyLen := 1 } }
    (Sample.threeBlocks [Sample.payment]) := ⟨_, rfl⟩
  have hlast : (s.blocks.confirmed.get 3).map Produced.data = some [Sample.payment] := by
    rw [hs]
    decide +kernel
  have hnone : (s.getTransaction (Sample.payment.hash Sample.payments.crypto)).map
      Option.isSome = some false := by
    rw [hs]
    decide +kernel
  obtain ⟨b, hb, hdata⟩ := Option.map_eq_some_iff.1 hlast
  rw [← hs] at hfound
  obtain ⟨entry, hentry, -⟩ := hfound 3 b (Or.inl hb)
    (Sample.payment.hash Sample.payments.crypto) (by simp [hdata])
  rw [hentry] at hnone
  cases hnone

end TransactionStore

end Rensa
