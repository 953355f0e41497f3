import Rensa.Consensus.Links
import Rensa.Vm.Unit
/-!
# The limits of the genesis on a block

A producer takes up a transaction only within the limits, and takes no
more of them into a block than a block may carry. A validator that gets the
block counts the accounts of each transaction before it is executed, and
nothing else: the number of transactions and the size of their parameters
are as whoever signed the block chose (`keepsLimits_run`).
-/

namespace Rensa

open Machine (bumpNonce)

namespace Transaction

variable {tx : Transaction} {limits : Limits}

theorem verifyLimits_eq_paramsTooBig : tx.verifyLimits limits = .error .paramsTooBig ↔
    tx.accounts.length ≤ limits.maxInputAccounts ∧
      limits.maxTransactionParamsSize < tx.params.length := by
  unfold verifyLimits
  split
  · simp; omega
  · split
    · simp; omega
    · simp; omega

end Transaction

/-! ## What a validator checks -/

namespace Machine

variable {H : Type} [DecidableEq H]

/-- The transaction succeeds at some place of the block, executed on the
state after the transactions before it, its payer counted. -/
def SucceedsIn (vm : Machine H) (fuel : ℕ) (s : State) (txs : List Transaction)
    (tx : Transaction) : Prop :=
  ∃ pre post acc out, txs = pre ++ tx :: post ∧
    pre.foldlM (vm.executeNext fuel s) {} = some acc ∧
    vm.executeTransaction fuel tx (overlayed s (bumpNonce s acc.state tx.payer).get) =
      some (.ok out)

/-- A transaction that succeeds had its accounts counted, and its signatures
verified. -/
theorem SucceedsIn.checked {vm : Machine H} {fuel : ℕ} {s : State} {txs : List Transaction}
    {tx : Transaction} (h : vm.SucceedsIn fuel s txs tx) :
    tx ∈ txs ∧ tx.accounts.length ≤ vm.limits.maxInputAccounts ∧
      tx.verifySignatures vm.crypto = .ok () := by
  obtain ⟨pre, post, acc, out, rfl, -, hrun⟩ := h
  obtain ⟨u, hu, -⟩ := executeTransaction_ok hrun
  obtain ⟨haccounts, hsigned, -⟩ := newUnit_ok hu
  exact ⟨by simp, haccounts, hsigned⟩

end Machine

namespace Consensus

variable {H : Type} [DecidableEq H] [Ord H]

/-- The payload of a block is executed by the machine, which is set up
from the genesis. -/
structure Config.RunsOn (K : Config H (List Transaction)) (vm : Machine H) (fuel : ℕ) :
    Prop where
  crypto : vm.crypto = K.crypto
  limits : vm.limits = K.genesis.limits
  execute : ∀ s txs r, vm.executeBlock fuel txs s = some r → K.execute s txs = r

/-- **A block is within the limits of the genesis**: it has no more
transactions than a block may have, and on a state it executes on with the
outcome it has, no transaction succeeds that has too many accounts or too
many parameters. -/
structure KeepsLimits (K : Config H (List Transaction)) (vm : Machine H) (fuel : ℕ)
    (x : Executed H (List Transaction)) : Prop where
  transactions : x.underlying.data.length ≤ K.genesis.limits.maxBlockTransactions
  succeeding : ∀ s tx, K.newExecuted s x.underlying = .ok x →
    vm.SucceedsIn fuel s x.underlying.data tx →
      tx.accounts.length ≤ K.genesis.limits.maxInputAccounts ∧
        tx.params.length ≤ K.genesis.limits.maxTransactionParamsSize

/-- A payload as a producer makes it: no more transactions than a block may
have, and none that is signed and has parameters that are too big. -/
def Moderate (C : Crypto H) (limits : Limits) (txs : List Transaction) : Prop :=
  txs.length ≤ limits.maxBlockTransactions ∧
    ∀ tx ∈ txs, tx.verifySignatures C = .ok () → tx.verifyLimits limits ≠ .error .paramsTooBig

namespace Chain

open Rose (nodesL)
open TreeNode (block)

/-- **Genesis limits.** In a run over blocks that are as a producer makes
them, every block of the forest is within the limits; and whatever blocks
arrive, no transaction of the forest succeeds that has too many
accounts. -/
theorem keepsLimits_run (K : Config H (List Transaction)) (vm : Machine H) (fuel : ℕ)
    (hK : K.RunsOn vm fuel) (fin : Finalized H (List Transaction))
    (inputs : List (Input H (List Transaction))) :
    ((∀ b ∈ inputBlocks inputs, ValidlySigned K b → Moderate K.crypto K.genesis.limits b.data) →
      ∀ n ∈ nodesL ((Chain.new fin).run K inputs).forktrees,
        KeepsLimits K vm fuel n.label.value.block) ∧
    ∀ n ∈ nodesL ((Chain.new fin).run K inputs).forktrees, ∀ s tx,
      vm.SucceedsIn fuel s (block n).data tx →
        tx.accounts.length ≤ K.genesis.limits.maxInputAccounts := by
  refine ⟨fun hinputs n hn => ?_, fun n _ s tx hok => hK.limits ▸ hok.checked.2.1⟩
  obtain ⟨hlen, hparams⟩ := hinputs (block n) (forest_inputs K fin inputs n hn)
    ((wellFormed_run K fin inputs).signed n hn)
  refine ⟨hlen, fun s tx _ hok => ?_⟩
  obtain ⟨hmem, haccounts, hsigned⟩ := hok.checked
  rw [hK.limits] at haccounts
  rw [hK.crypto] at hsigned
  -- with the accounts within their limit, the check of a producer comes to
  -- the parameters
  have hnot := mt Transaction.verifyLimits_eq_paramsTooBig.2 (hparams tx hmem hsigned)
  exact ⟨haccounts, by omega⟩

namespace Sample

/-- A contract at address 200 that accepts every call. -/
def accepting : Machine ℕ where
  crypto := crypto
  limits := Machine.Sample.limits
  builtin k := if k = 200 then some fun _ _ => .ok [] else none
  runtime _ := .error .accountIsNotExecutable

/-- One validator, and blocks of transactions. -/
def payloads : Config ℕ (List Transaction) :=
  config .inPlace [(7, 1000)] fun s txs =>
    (accepting.executeBlock 1 txs s).getD (.error .invalidTransactionsOrder)

theorem runsOn_payloads : payloads.RunsOn accepting 1 where
  crypto := rfl
  limits := rfl
  execute s txs r h := by
    change (accepting.executeBlock 1 txs s).getD _ = r
    rw [h]
    rfl

/-- A call of the contract by payer 1, with `size` bytes of parameters. -/
def padded (size : ℕ) : Transaction :=
  { contract := 200, nonce := 1, payer := 1, params := List.replicate size 0, accounts := []
    signatures := [(1 : Pubkey).bytes ++ List.replicate 32 255] }

/-- A block with `count` such calls. -/
def padding (count size : ℕ) : Produced ℕ (List Transaction) :=
  produce payloads 7 1 1 (List.replicate count (padded size)) []

end Sample

/-- A block with two transactions, their parameters as big as they may
be. -/
theorem padding_kept :
    (((Chain.new Sample.genesis).run Sample.payloads
      [.include 0 (Sample.padding 2 2048)]).forktrees.length = 1) ∧
    ∀ n ∈ nodesL ((Chain.new Sample.genesis).run Sample.payloads
        [.include 0 (Sample.padding 2 2048)]).forktrees,
      KeepsLimits Sample.payloads Sample.accepting 1 n.label.value.block := by
  refine ⟨by decide +kernel, (keepsLimits_run _ _ _ Sample.runsOn_payloads _ _).1 ?_⟩
  rintro b ⟨now, hb⟩ -
  obtain ⟨rfl, rfl⟩ : now = 0 ∧ b = Sample.padding 2 2048 := by simpa using hb
  refine ⟨by decide, fun tx htx _ => ?_⟩
  obtain rfl := List.eq_of_mem_replicate htx
  decide +kernel

omit [Ord H] in
/-- A block on the final one becomes a root, with nothing waiting for it. -/
private theorem forktrees_include_root {D : Type} {K : Config H D} {c : Chain H D} {now : ℕ}
    {b : Produced H D} {x : Executed H D} (hadm : c.admits K b = true)
    (hnew : c.knows K (K.hash b) = false) (hparent : b.parent = c.finalized.hash K)
    (hheight : b.height = c.finalized.height + 1)
    (hx : K.newExecuted c.finalized.store.get b = .ok x) (horphans : c.orphans = {}) :
    (c.include K now b).forktrees = (c.addRoot x).forktrees := by
  have htry : c.tryInclude K b = .ok (some (c.addRoot x)) := by
    unfold tryInclude
    rw [hnew, if_neg Bool.false_ne_true, if_pos hparent, if_neg (not_not.2 hheight), hx]
  obtain ⟨hsame, hkept⟩ := sameForest_voteIfHead (K := K) (c := c.addRoot x) (K.hash b)
  have hempty : (c.addRoot x).orphans = {} := horphans
  unfold «include»
  simp only [includeFrom, if_pos hadm, htry, hkept, hempty]
  exact hsame.forktrees

private theorem exists_ok {ε α : Type} {r : Except ε α} (h : r.toOption.isSome = true) :
    ∃ a, r = .ok a := by
  obtain e | a := r
  · exact absurd h Bool.false_ne_true
  · exact ⟨a, rfl⟩

/-- **A block past the limits is included**: one with 2049 bytes of
parameters, where 2048 are allowed, in a transaction that succeeds, and one
of 2001 transactions, where 2000 are. -/
theorem padding_not_kept :
    (∃ n ∈ nodesL ((Chain.new Sample.genesis).run Sample.payloads
        [.include 0 (Sample.padding 1 2049)]).forktrees,
      ¬ KeepsLimits Sample.payloads Sample.accepting 1 n.label.value.block) ∧
    ∃ n ∈ nodesL ((Chain.new Sample.genesis).run Sample.payloads
        [.include 0 (Sample.padding 2001 0)]).forktrees,
      ¬ KeepsLimits Sample.payloads Sample.accepting 1 n.label.value.block := by
  constructor
  · have hexecuted : (Sample.payloads.newExecuted
        (Sample.genesis (D := List Transaction)).store.get
        (Sample.padding 1 2049)).toOption.isSome = true := by
      decide
    obtain ⟨x, hx⟩ := exists_ok hexecuted
    have hforest : ((Chain.new Sample.genesis).run Sample.payloads
        [.include 0 (Sample.padding 1 2049)]).forktrees = [TreeNode.leaf 0 x none] := by
      simp only [run, List.foldl_cons, List.foldl_nil, step]
      exact forktrees_include_root (by decide +kernel) (by decide +kernel) (by decide +kernel)
        (by decide +kernel) hx rfl
    refine ⟨TreeNode.leaf 0 x none, ?_, fun hkeeps => ?_⟩
    · rw [hforest]
      exact Rose.mem_nodesL_of_mem List.mem_cons_self
    · have hx' : x.underlying = Sample.padding 1 2049 := (newExecuted_ok hx).1
      have hok := (hkeeps.succeeding _ (Sample.padded 2049) (hx'.symm ▸ hx) ?_).2
      · exact absurd hok (by decide +kernel)
      · have hrun : ((Sample.accepting.executeTransaction 1 (Sample.padded 2049)
            (overlayed (Sample.genesis (D := List Transaction)).store.get
              (bumpNonce (Sample.genesis (D := List Transaction)).store.get {} 1).get)).getD
                (.error .tooManyLogs)).toOption.isSome = true := by
          decide
        obtain ⟨out, hout⟩ := exists_ok hrun
        refine ⟨[], [], {}, out, congrArg Produced.data hx', rfl, ?_⟩
        exact (Option.getD_eq_iff.1 hout).resolve_right fun h => by cases h.2
  · have hmem : ∃ n ∈ nodesL ((Chain.new Sample.genesis).run Sample.payloads
        [.include 0 (Sample.padding 2001 0)]).forktrees, (block n).data.length = 2001 := by
      decide +kernel
    obtain ⟨n, hn, hlen⟩ := hmem
    refine ⟨n, hn, fun hkeeps => ?_⟩
    exact absurd (hlen ▸ hkeeps.transactions) (by decide)

end Chain

end Consensus

end Rensa
