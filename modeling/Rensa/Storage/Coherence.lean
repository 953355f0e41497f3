import Rensa.Storage.Pruning
import Rensa.Vm.State
/-!
# What the blocks on disk answer

A block, its output and the height under its hash are kept apart, and a
second block of a height takes the place of the first while the output and
the hash of the first stay. As long as that does not happen (`Fresh`), a
block that is found by its hash has that hash, and a block that is found by
its height comes with its own output, as it is read back.
-/

namespace Rensa

open Consensus

/-- What a read gives of an account of the diff. -/
@[simp] theorem StateDiff.get_readBack {d : StateDiff} {a : Pubkey} :
    d.readBack.get a = (d.get a).map Account.persisted :=
  Std.ExtTreeMap.getElem?_map

example : (({} : StateDiff).set 200 { executable := true, nonce := 3 }).readBack.get 200 =
    some { nonce := 3 } := by decide +kernel

/-- A block after its records were written and read. -/
def Consensus.Executed.readBack {H D : Type} (x : Executed H D) : Executed H D :=
  { x with output := x.output.readBack }

namespace BlockStore

variable {H D : Type} {s : BlockStore H D} {b : Produced H D} {h k : ℕ}

/-- The block `get_by_height` looks at. -/
def visible (s : BlockStore H D) (height : ℕ) : Option (Produced H D) :=
  (s.confirmed.get height).or (s.finalized.get height)

/-- What `get_by_height` returns. -/
theorem getByHeight_some {y : Executed H D × Commitment} (hy : s.getByHeight h = some y) :
    s.visible h = some y.1.underlying ∧
      ∃ o, s.outputs.get h = some o ∧ y.1.output = o.readBack := by
  unfold getByHeight at hy
  unfold visible
  cases hconf : s.confirmed.get h with
  | some b =>
    simp only [hconf, Option.map_eq_some_iff] at hy
    obtain ⟨o, ho, rfl⟩ := hy
    exact ⟨rfl, o, ho, rfl⟩
  | none =>
    cases hfin : s.finalized.get h with
    | none => simp [hconf, hfin] at hy
    | some b =>
      simp only [hconf, hfin, Option.map_some, Option.map_eq_some_iff] at hy
      obtain ⟨o, ho, rfl⟩ := hy
      exact ⟨rfl, o, ho, rfl⟩

/-- **Storing a block shows it at its height** and changes no other. -/
theorem visible_storeRawBlock {s' : BlockStore H D} {commitment : Commitment}
    (hc : commitment ≠ .included) (hs' : s.storeRawBlock b commitment = some s') :
    s'.visible h = (if h = b.height then some b else s.visible h) ∧ s'.outputs = s.outputs ∧
      s'.hashes = s.hashes := by
  cases commitment with
  | included => contradiction
  | confirmed =>
    obtain rfl := Option.some.inj hs'
    refine ⟨?_, rfl, rfl⟩
    simp only [visible, Tree.get_insert]
    split <;> rfl
  | finalized =>
    simp only [storeRawBlock] at hs'
    split at hs'
    · cases hs'
    · obtain rfl := Option.some.inj hs'
      refine ⟨?_, rfl, rfl⟩
      simp only [visible, Tree.get_insert, Tree.get_remove]
      split <;> rfl

variable {K : Config H D} {x : Executed H D} {seen : List (Executed H D)}

variable (K) in
/-- **The records on disk agree**: a hash leads to a block that has it, an
output belongs to the block of its height, and a block is under its own
height. -/
structure Agrees (s : BlockStore H D) (seen : List (Executed H D)) : Prop where
  hashes : ∀ t h b, s.hashes t = some h → s.visible h = some b → K.hash b = t
  outputs : ∀ h o b, s.outputs.get h = some o → s.visible h = some b →
    ∃ x ∈ seen, x.underlying = b ∧ x.output = o
  heights : ∀ h b, s.visible h = some b → b.height = h

variable (K) in
/-- **No record of another block is under the height of a block**: every
hash that leads to it is the block's, and its output, if there is one, is
the output of the block. -/
def Fresh (s : BlockStore H D) (seen : List (Executed H D)) (x : Executed H D) : Prop :=
  (∀ t, s.hashes t = some x.underlying.height → t = K.hash x.underlying) ∧
    ∀ o, s.outputs.get x.underlying.height = some o →
      ∃ y ∈ x :: seen, y.underlying = x.underlying ∧ y.output = o

/-- Some of the records. -/
theorem Agrees.sub {s' : BlockStore H D} (h : s.Agrees K seen)
    (hvisible : ∀ h b, s'.visible h = some b → s.visible h = some b)
    (houtputs : ∀ h o, s'.outputs.get h = some o → s.outputs.get h = some o)
    (hhashes : ∀ t h, s'.hashes t = some h → s.hashes t = some h) : s'.Agrees K seen where
  hashes t k b ht hb := h.hashes t k b (hhashes t k ht) (hvisible k b hb)
  outputs k o b ho hb := h.outputs k o b (houtputs k o ho) (hvisible k b hb)
  heights k b hb := h.heights k b (hvisible k b hb)

/-- The block and its output are stored. -/
theorem Agrees.store {s' : BlockStore H D} (hs : s.Agrees K seen) (hfresh : s.Fresh K seen x)
    (hvisible : ∀ h, s'.visible h =
      if h = x.underlying.height then some x.underlying else s.visible h)
    (houtputs : ∀ h o, s'.outputs.get h = some o → s.outputs.get h = some o ∨
      h = x.underlying.height ∧ o = x.output)
    (hhashes : s'.hashes = s.hashes) : s'.Agrees K (x :: seen) := by
  have hother : ∀ h b, s'.visible h = some b → h = x.underlying.height ∧ b = x.underlying ∨
      h ≠ x.underlying.height ∧ s.visible h = some b := by
    intro h b hb
    rw [hvisible h] at hb
    split at hb
    · exact Or.inl ⟨‹_›, (Option.some.inj hb).symm⟩
    · exact Or.inr ⟨‹_›, hb⟩
  refine ⟨fun t h b ht hb => ?_, fun h o b ho hb => ?_, fun h b hb => ?_⟩
  · rw [hhashes] at ht
    rcases hother h b hb with ⟨rfl, rfl⟩ | ⟨-, hb⟩
    · exact (hfresh.1 t ht).symm
    · exact hs.hashes t h b ht hb
  · rcases hother h b hb with ⟨rfl, rfl⟩ | ⟨hne, hb⟩
    · rcases houtputs _ o ho with ho | ⟨-, rfl⟩
      · exact hfresh.2 o ho
      · exact ⟨x, List.mem_cons_self, rfl, rfl⟩
    · rcases houtputs h o ho with ho | ⟨rfl, -⟩
      · obtain ⟨y, hy, hyb, hyo⟩ := hs.outputs h o b ho hb
        exact ⟨y, List.mem_cons_of_mem _ hy, hyb, hyo⟩
      · contradiction
  · rcases hother h b hb with ⟨rfl, rfl⟩ | ⟨-, hb⟩
    · rfl
    · exact hs.heights h b hb

theorem Agrees.mono {seen' : List (Executed H D)} (h : s.Agrees K seen)
    (hseen : ∀ y ∈ seen, y ∈ seen') : s.Agrees K seen' := by
  refine ⟨h.hashes, fun k o b ho hb => ?_, h.heights⟩
  obtain ⟨y, hy, hyb, hyo⟩ := h.outputs k o b ho hb
  exact ⟨y, hseen y hy, hyb, hyo⟩

variable [DecidableEq H] {txs : D → List H} {commitment : Commitment}

/-! ## Pruning -/

/-- The blocks that are pruned, with their heights. -/
def pruned (s : BlockStore H D) (k : ℕ) : List (ℕ × Produced H D) :=
  (s.confirmed.below k).entries ++ (s.finalized.below k).entries

omit [DecidableEq H] in
theorem mem_pruned : (h, b) ∈ s.pruned k ↔
    (s.confirmed.get h = some b ∨ s.finalized.get h = some b) ∧ h < k := by
  rw [pruned, List.mem_append, ← Tree.get_eq_some_iff, ← Tree.get_eq_some_iff, Tree.get_below,
    Tree.get_below]
  split
  · rename_i hlt
    exact (and_iff_left hlt).symm
  · rename_i hle
    simp [hle]

omit [DecidableEq H] in
theorem pruned_zero : s.pruned 0 = [] := by
  rw [List.eq_nil_iff_forall_not_mem]
  intro e he
  have := (mem_pruned.1 he).2
  omega

/-- **What pruning leaves of the hashes.** -/
theorem hashes_pruneOlderThan {t : H} : (s.pruneOlderThan K k).hashes t =
    if t ∈ (s.pruned k).map (fun e => K.hash e.2) then none else s.hashes t := by
  rw [← applyBatch_remove, applyBatch, List.foldl_map]
  unfold pruneOlderThan
  split
  · rfl
  · obtain rfl : k = 0 := by omega
    rw [pruned_zero, List.foldl_nil]

/-- A hash that is still there after pruning was there. -/
theorem hashes_of_pruneOlderThan {t : H} (ht : (s.pruneOlderThan K k).hashes t = some h) :
    s.hashes t = some h := by
  rw [hashes_pruneOlderThan] at ht
  split at ht
  · cases ht
  · exact ht

/-- An output that is still there after pruning was there. -/
theorem outputs_of_pruneOlderThan {o : BlockOutput H}
    (ho : (s.pruneOlderThan K k).outputs.get h = some o) : s.outputs.get h = some o := by
  unfold pruneOlderThan at ho
  split at ho
  · split at ho
    · rw [Tree.get_above] at ho
      split at ho
      · exact ho
      · cases ho
    · exact ho
  · exact ho

theorem visible_pruneOlderThan :
    (s.pruneOlderThan K k).visible h = if k ≤ h then s.visible h else none := by
  unfold pruneOlderThan
  split
  · simp only [visible, Tree.get_above]
    split <;> rfl
  · rw [if_pos (by omega)]

theorem Agrees.prune (hs : s.Agrees K seen) : (s.pruneOlderThan K k).Agrees K seen := by
  refine hs.sub (fun h b hb => ?_) (fun h o ho => ?_) fun t h ht => ?_
  · rw [visible_pruneOlderThan] at hb
    split at hb
    · exact hb
    · cases hb
  · exact outputs_of_pruneOlderThan ho
  · exact hashes_of_pruneOlderThan ht

/-- The height under the hash of the block that is there. -/
theorem Agrees.storeHash (hs : s.Agrees K seen) (hb : s.visible b.height = some b) :
    (s.storeHash K b).Agrees K seen := by
  refine ⟨fun t k c ht hc => ?_, hs.outputs, hs.heights⟩
  change s.visible k = some c at hc
  simp only [BlockStore.storeHash] at ht
  split at ht
  · exact hs.hashes t k c ht hc
  · by_cases heq : t = K.hash b
    · rw [heq, Function.update_self] at ht
      obtain rfl := Option.some.inj ht
      rw [hb] at hc
      rw [heq, Option.some.inj hc]
    · rw [Function.update_of_ne heq] at ht
      exact hs.hashes t k c ht hc

/-! ## One block -/

omit [DecidableEq H] in
/-- An output that is there after one is stored was there, or is the one. -/
theorem outputs_of_storeOutputs {o : BlockOutput H}
    (ho : (s.storeOutputs x).outputs.get h = some o) :
    s.outputs.get h = some o ∨ h = x.underlying.height ∧ o = x.output := by
  simp only [storeOutputs] at ho
  split at ho
  · exact Or.inl ho
  · rw [Tree.get_insert] at ho
    split at ho
    · exact Or.inr ⟨‹_›, (Option.some.inj ho).symm⟩
    · exact Or.inl ho

variable (K txs s x commitment) in
/-- **What consuming a block does**: nothing; or it stores the block, and
its output, and ends there, or prunes and keeps the height under the hash. -/
theorem consume_cases : (s.consume K txs x commitment).1 = s ∨ ∃ t : BlockStore H D,
    (∀ h, t.visible h = if h = x.underlying.height then some x.underlying else s.visible h) ∧
    (∀ h o, t.outputs.get h = some o → s.outputs.get h = some o ∨
      h = x.underlying.height ∧ o = x.output) ∧
    t.hashes = s.hashes ∧
    ((s.consume K txs x commitment).1 = t ∨ ∃ k ≤ x.underlying.height,
      (s.consume K txs x commitment).1 = (t.pruneOlderThan K k).storeHash K x.underlying) := by
  unfold BlockStore.consume
  split
  · exact Or.inl rfl
  rename_i hc
  split
  · exact Or.inl rfl
  rename_i s' hs'
  have hraw := fun h => visible_storeRawBlock (h := h) hc hs'
  -- the block and, where details are kept, its output
  obtain ⟨t, ht⟩ : ∃ t, t = if s'.detailed then s'.storeOutputs x else s' := ⟨_, rfl⟩
  refine Or.inr ⟨t, fun h => ?_, fun h o ho => ?_, ?_, ?_⟩
  · rw [← (hraw h).1, ht]
    split <;> rfl
  · rw [← (hraw h).2.1]
    rw [ht] at ho
    split at ho
    · exact outputs_of_storeOutputs ho
    · exact Or.inl ho
  · rw [← (hraw 0).2.2, ht]
    split <;> rfl
  · unfold storeRest
    rw [← ht]
    dsimp only
    split
    · exact Or.inl rfl
    · exact Or.inr ⟨_, Nat.sub_le _ _, rfl⟩

/-- **Consuming a block keeps the records in agreement** where no record of
another is under its height. -/
theorem Agrees.consume (hs : s.Agrees K seen) (hfresh : s.Fresh K seen x) :
    (s.consume K txs x commitment).1.Agrees K (x :: seen) := by
  rcases consume_cases s K x txs commitment with heq | ⟨t, hvisible, houtputs, hhashes, hend⟩
  · rw [heq]
    exact hs.mono fun y hy => List.mem_cons_of_mem _ hy
  have hstored : t.Agrees K (x :: seen) := hs.store hfresh hvisible houtputs hhashes
  rcases hend with heq | ⟨k, hk, heq⟩
  · rw [heq]
    exact hstored
  · rw [heq]
    refine hstored.prune.storeHash ?_
    rw [visible_pruneOlderThan, if_pos hk, hvisible, if_pos rfl]

/-! ## Runs -/

variable (K) in
/-- **The answers are coherent**: a block found by a hash has it, and a
block found by a height is one that was consumed, of that height and with
its own output, read back. -/
def Coherent (s : BlockStore H D) (seen : List (Executed H D)) : Prop :=
  (∀ t y, s.getByHash t = some y → K.hash y.1.underlying = t) ∧
    ∀ h y, s.getByHeight h = some y → ∃ x ∈ seen, x.underlying.height = h ∧ y.1 = x.readBack

omit [DecidableEq H] in
theorem Agrees.coherent (hs : s.Agrees K seen) : s.Coherent K seen := by
  refine ⟨fun t y hy => ?_, fun h y hy => ?_⟩
  · unfold getByHash at hy
    split at hy
    · cases hy
    · rename_i h hh
      exact hs.hashes t h _ hh (getByHeight_some hy).1
  · obtain ⟨hvisible, o, ho, houtput⟩ := getByHeight_some hy
    obtain ⟨x, hx, hblock, rfl⟩ := hs.outputs h _ _ ho hvisible
    refine ⟨x, hx, hblock ▸ hs.heights h _ hvisible, ?_⟩
    show Executed.mk y.1.underlying y.1.output = Executed.mk x.underlying x.output.readBack
    rw [hblock, houtput]

/-- **Blocks on disk are answered for.** Where a block is consumed only
while no record of another block is under its height, what is found by a
hash has it, and what is found by a height is one block of that height with
its own output. -/
theorem coherent_consumeAll (K : Config H D) (txs : D → List H) (historyLen : ℕ)
    (inputs : List (Executed H D × Commitment))
    (hfresh : ∀ pre x commitment post, inputs = pre ++ (x, commitment) :: post →
      Fresh K (consumeAll K txs { detailed := true, historyLen } pre) (pre.map Prod.fst) x) :
    Coherent K (consumeAll K txs { detailed := true, historyLen } inputs)
      (inputs.map Prod.fst) := by
  refine Agrees.coherent ?_
  -- the records agree after every first part of the run
  induction inputs using List.reverseRecOn with
  | nil =>
    refine ⟨fun t h b ht _ => ?_, fun h o b ho _ => ?_, fun h b hb => ?_⟩
    · exact absurd ht (Option.some_ne_none _).symm
    · exact absurd ho (Option.some_ne_none _).symm
    · exact absurd hb (Option.some_ne_none _).symm
  | append_singleton pre i ih =>
    have hbefore := ih fun pre' x c post hsplit =>
      hfresh pre' x c (post ++ [i]) (by rw [hsplit]; simp)
    rw [consumeAll_concat]
    refine (hbefore.consume (hfresh pre i.1 i.2 [] rfl)).mono fun y hy => ?_
    rw [List.map_append]
    rcases List.mem_cons.1 hy with rfl | hy
    · exact List.mem_append_right _ List.mem_cons_self
    · exact List.mem_append_left _ hy

/-! ## A single branch -/

variable (K) in
/-- **Every record on disk is of a block that was consumed.** -/
structure Logged (s : BlockStore H D) (seen : List (Executed H D)) : Prop where
  hashes : ∀ t h, s.hashes t = some h →
    ∃ y ∈ seen, K.hash y.underlying = t ∧ y.underlying.height = h
  outputs : ∀ h o, s.outputs.get h = some o → ∃ y ∈ seen, y.underlying.height = h ∧ y.output = o

omit [DecidableEq H] in
theorem Logged.mono {seen' : List (Executed H D)} (hs : s.Logged K seen)
    (hseen : ∀ y ∈ seen, y ∈ seen') : s.Logged K seen' := by
  refine ⟨fun t k ht => ?_, fun k o ho => ?_⟩
  · obtain ⟨y, hy, hyt⟩ := hs.hashes t k ht
    exact ⟨y, hseen y hy, hyt⟩
  · obtain ⟨y, hy, hyo⟩ := hs.outputs k o ho
    exact ⟨y, hseen y hy, hyo⟩

/-- Whatever is consumed, the records are of the blocks so far. -/
theorem Logged.consume (hs : s.Logged K seen) :
    (s.consume K txs x commitment).1.Logged K (x :: seen) := by
  have hold := hs.mono fun y hy => List.mem_cons_of_mem x hy
  rcases consume_cases s K x txs commitment with heq | ⟨t, -, houtputs, hhashes, hend⟩
  · rw [heq]
    exact hold
  have hstored : t.Logged K (x :: seen) := by
    refine ⟨fun u k hu => hold.hashes u k (hhashes ▸ hu), fun k o ho => ?_⟩
    rcases houtputs k o ho with ho | ⟨rfl, rfl⟩
    · exact hold.outputs k o ho
    · exact ⟨x, List.mem_cons_self, rfl, rfl⟩
  rcases hend with heq | ⟨k, -, heq⟩
  · rw [heq]
    exact hstored
  · rw [heq]
    refine ⟨fun u j hu => ?_, fun j o ho => hstored.outputs j o (outputs_of_pruneOlderThan ho)⟩
    simp only [BlockStore.storeHash] at hu
    split at hu
    · exact hstored.hashes u j (hashes_of_pruneOlderThan hu)
    · by_cases heq : u = K.hash x.underlying
      · rw [heq, Function.update_self] at hu
        exact ⟨x, List.mem_cons_self, heq.symm, Option.some.inj hu⟩
      · rw [Function.update_of_ne heq] at hu
        exact hstored.hashes u j (hashes_of_pruneOlderThan hu)

theorem logged_consumeAll {detailed : Bool} {historyLen : ℕ}
    (inputs : List (Executed H D × Commitment)) :
    Logged K (consumeAll K txs { detailed, historyLen } inputs) (inputs.map Prod.fst) := by
  induction inputs using List.reverseRecOn with
  | nil =>
    exact ⟨fun t k ht => absurd ht (Option.some_ne_none _).symm,
      fun k o ho => absurd ho (Option.some_ne_none _).symm⟩
  | append_singleton pre i ih =>
    rw [consumeAll_concat, List.map_append]
    refine ih.consume.mono fun y hy => ?_
    rw [List.mem_append, or_comm]
    exact (List.mem_cons.1 hy).imp_left fun heq => by rw [heq]; exact List.mem_singleton_self _

/-- **On a branch nothing is in the way**: where the blocks consumed before
have other heights, no record is under the height of the next. -/
theorem fresh_consumeAll {detailed : Bool} {historyLen : ℕ}
    {inputs : List (Executed H D × Commitment)}
    (hheights : ∀ y ∈ inputs.map Prod.fst, y.underlying.height = x.underlying.height → y = x) :
    Fresh K (consumeAll K txs { detailed, historyLen } inputs) (inputs.map Prod.fst) x := by
  have hlogged : Logged K (consumeAll K txs { detailed, historyLen } inputs)
      (inputs.map Prod.fst) := logged_consumeAll inputs
  refine ⟨fun t ht => ?_, fun o ho => ?_⟩
  · obtain ⟨y, hy, rfl, hheight⟩ := hlogged.hashes t _ ht
    rw [hheights y hy hheight]
  · obtain ⟨y, hy, hheight, rfl⟩ := hlogged.outputs _ o ho
    exact ⟨y, List.mem_cons_of_mem _ hy, by rw [hheights y hy hheight], rfl⟩

namespace Sample

/-- A block of height 1 with a validator's signature and an output of its
own. -/
def signed (key : Pubkey) : Executed ℕ Unit where
  underlying := Chain.Sample.produce (Chain.Sample.single .inPlace) key 1 1 () []
  output := { logs := [(key.val, [])] }

/-- The disk after some blocks. -/
def disk (inputs : List (Executed ℕ Unit × Commitment)) : BlockStore ℕ Unit :=
  consumeAll (Chain.Sample.single .inPlace) (fun _ => []) { detailed := true, historyLen := 9 }
    inputs

/-- A block of height 2 that deploys a contract. -/
def deploying : Executed ℕ Unit where
  underlying := Chain.Sample.produce (Chain.Sample.single .inPlace) 7 1 2 () []
  output := { state := ({} : StateDiff).set 5 { executable := true, data := some [1] } }

/-- Two blocks of a branch, the first of which is finalized. -/
def deployed : List (Executed ℕ Unit × Commitment) :=
  [(signed 7, .confirmed), (signed 7, .finalized), (deploying, .confirmed)]

end Sample

/-- Both blocks are found, and the contract is read back as an account that
is not executable. -/
theorem coherent_deployed :
    Coherent (Chain.Sample.single .inPlace) (Sample.disk Sample.deployed)
        (Sample.deployed.map Prod.fst) ∧
      ((Sample.disk Sample.deployed).getByHash ((Chain.Sample.single .inPlace).hash
        (Sample.signed 7).underlying)).map (fun y => (y.1.output.logs, y.2)) =
          some ([(7, [])], .finalized) ∧
      ((Sample.disk Sample.deployed).getByHeight 2).map (fun y => (y.1.output.state.get 5, y.2)) =
        some (some { data := some [1] }, .confirmed) := by
  refine ⟨coherent_consumeAll (Chain.Sample.single .inPlace) (fun _ => []) 9 Sample.deployed ?_,
    by decide +kernel, by decide +kernel⟩
  intro pre x commitment post hsplit
  refine fresh_consumeAll fun y hy heq => ?_
  have hmem : ∀ z ∈ Sample.deployed.map Prod.fst, z = Sample.signed 7 ∨ z = Sample.deploying := by
    simp [Sample.deployed]
  have hx := hmem x (by rw [hsplit]; simp)
  have hy := hmem y (by rw [hsplit, List.map_append]; exact List.mem_append_left _ hy)
  rcases hx with rfl | rfl <;> rcases hy with rfl | rfl
  · rfl
  · exact absurd heq (by decide)
  · exact absurd heq (by decide)
  · rfl

/-- Of two blocks of one height that are confirmed, the second is found by
the hash of the first, and with the output of the first. -/
theorem not_coherent_signed :
    ¬ ∀ inputs : List (Executed ℕ Unit × Commitment),
      (∀ pre x commitment post, inputs = pre ++ (x, commitment) :: post →
        ((Sample.disk pre).storeRawBlock x.underlying commitment).isSome = true) →
      Coherent (Chain.Sample.single .inPlace) (Sample.disk inputs) (inputs.map Prod.fst) := by
  intro h
  have hcoherent := (h [(Sample.signed 7, .confirmed), (Sample.signed 8, .confirmed)]
    fun pre x commitment post hsplit => ?_).1
  · have hother : ((Sample.disk [(Sample.signed 7, .confirmed),
        (Sample.signed 8, .confirmed)]).getByHash
          ((Chain.Sample.single .inPlace).hash (Sample.signed 7).underlying)).map
            (fun y => (Chain.Sample.single .inPlace).hash y.1.underlying) =
        some ((Chain.Sample.single .inPlace).hash (Sample.signed 8).underlying) := by
      decide +kernel
    obtain ⟨y, hy, hhash⟩ := Option.map_eq_some_iff.1 hother
    have hsame := (hcoherent _ y hy).symm.trans hhash
    revert hsame
    decide +kernel
  · -- a confirmed block is always stored
    have hmem : (x, commitment) ∈ [(Sample.signed 7, Commitment.confirmed),
        (Sample.signed 8, .confirmed)] := by
      rw [hsplit]
      exact List.mem_append_right _ List.mem_cons_self
    have hconf : commitment = .confirmed := by
      rcases List.mem_cons.1 hmem with heq | hmem
      · exact congrArg Prod.snd heq
      · exact congrArg Prod.snd (List.mem_singleton.1 hmem)
    rw [hconf]
    rfl

end BlockStore

end Rensa
