import Rensa.Producer.Model
import Rensa.Storage.Model
/-!
# A block producer and what it is called with

`BlockProducer` with both parts of its mempool: the transactions, and the
votes, in a map keyed by the bytes of their signatures. The order in which
that map is walked is not specified either, so the votes are a list in that
order. The block under construction is left out.
-/

namespace Rensa

namespace Producer

open Consensus

variable {H : Type}

/-- The votes of the mempool, as the map is walked: one per signature. -/
structure VotePool (H : Type) where
  votes : List (Vote H) := []
  distinct : (votes.map Vote.signature).Nodup := by exact .nil

/-- `self.votes.remove`. -/
def VotePool.remove (p : VotePool H) (signature : Signature) : VotePool H where
  votes := p.votes.filter fun v => v.signature ≠ signature
  distinct := p.distinct.sublist (List.filter_sublist.map _)

/-- `self.votes.insert`, under the signature of the vote, in the place of
one that has it. -/
def VotePool.insert (p : VotePool H) (v : Vote H) : VotePool H where
  votes := v :: (p.remove v.signature).votes
  distinct := by
    rw [List.map_cons, List.nodup_cons]
    refine ⟨fun hmem => ?_, (p.remove v.signature).distinct⟩
    obtain ⟨w, hw, hsig⟩ := List.mem_map.1 hmem
    have := (List.mem_filter.1 hw).2
    simp [hsig] at this

/-- `BlockProducer`, with the validators and the votes of its
`MempoolState`. -/
structure BlockProducer (C : Crypto H) where
  limits : Limits
  validators : List Pubkey
  votes : VotePool H := {}
  txs : MempoolState C := ⟨[], .nil⟩

namespace BlockProducer

/-- `BlockProducer::new`. -/
def new (C : Crypto H) (genesis : Genesis H) : BlockProducer C where
  limits := genesis.limits
  validators := genesis.validators.map Prod.fst

variable {C : Crypto H} (p : BlockProducer C)

/-- `record_vote`. -/
def recordVote (v : Vote H) : BlockProducer C :=
  if v.validator ∈ p.validators then { p with votes := p.votes.insert v } else p

/-- `take_votes`. -/
def takeVotes : List (Vote H) × BlockProducer C := (p.votes.votes, { p with votes := {} })

variable [DecidableEq H]

/-- `record_transaction`. -/
def recordTransaction (tx : Transaction) : BlockProducer C :=
  { p with txs := p.txs.recordTransaction p.limits tx }

/-- `reuse_discarded`. -/
def reuseDiscarded (block : Produced H (List Transaction)) : BlockProducer C :=
  block.data.foldl (fun p tx => p.recordTransaction tx)
    (block.votes.foldl (fun p v => p.recordVote v) p)

/-- `consume`. -/
def consume (block : Executed H (List Transaction)) : Commitment → BlockProducer C
  | .included =>
    { p with
      votes := block.underlying.votes.foldl (fun votes v => votes.remove v.signature) p.votes
      txs := p.txs.remove block.underlying.data }
  | _ => p

end BlockProducer

end Producer

end Rensa
