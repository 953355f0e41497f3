import Rensa.Vm.Model.Output
import Rensa.Vm.Model.Contract
/-!
# The genesis block

All that a genesis file sets, and its hash, the fingerprint of the chain.
Times are nanoseconds, as `DateTime` and `Duration` keep them; the hash
takes them in milliseconds.
-/

namespace Rensa

namespace Consensus

/-- `Genesis`. `limits` has all limits but `max_block_size`. -/
structure GenesisBlock where
  chainId : String
  genesisTime : ℤ
  slotInterval : ℕ
  epochBlocks : ℕ
  maxBlockSize : ℕ
  limits : Limits
  builtins : List Pubkey
  validators : List (Pubkey × ℕ)
  systemCoin : Pubkey
  state : Std.ExtTreeMap Pubkey Account

namespace GenesisBlock

variable (g : GenesisBlock)

/-- `timestamp_millis` of the genesis time. -/
def timestampMillis : ℤ := g.genesisTime / 10 ^ 6

/-- `as_millis` of the slot interval. -/
def slotMillis : ℕ := g.slotInterval / 10 ^ 6

/-- The limits that are hashed, in order. -/
def hashedLimits : List ℕ :=
  [g.maxBlockSize, g.limits.maxJustificationAge, g.limits.minimumStake, g.limits.maxLogSize,
    g.limits.maxLogsCount, g.limits.maxAccountSize, g.limits.maxInputAccounts,
    g.limits.maxBlockTransactions, g.limits.maxContractSize]

/-- The numbers that are hashed: `to_le_bytes` of an `i64`, a `u128`, and
`u64`s. -/
def header : Bytes :=
  leBytes 8 (g.timestampMillis % 2 ^ 64).toNat ++ leBytes 16 g.slotMillis ++
    leBytes 8 g.epochBlocks ++ g.hashedLimits.flatMap (leBytes 8)

/-- The bytes of a validator. -/
def validatorBytes (v : Pubkey × ℕ) : Bytes := v.1.bytes ++ leBytes 8 v.2

/-- The bytes of an account: a missing owner, and missing data, is one
zero. -/
def accountBytes (p : Pubkey × Account) : Bytes :=
  p.1.bytes ++ (p.2.owner.map Pubkey.bytes).getD [0] ++ p.2.data.getD [0]

/-- What `Genesis::hash` feeds to SHA3. -/
def preimage : Bytes :=
  textBytes g.chainId ++ g.header ++ g.builtins.flatMap Pubkey.bytes ++
    g.validators.flatMap validatorBytes ++ g.state.toList.flatMap accountBytes

/-- `Genesis::hash`. -/
def hash {H : Type} (C : Crypto H) : H := C.sha3 g.preimage

end GenesisBlock

end Consensus

end Rensa
