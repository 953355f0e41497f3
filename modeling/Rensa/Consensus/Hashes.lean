import Rensa.Common.SelfDelimiting
import Rensa.Consensus.Ancestry
/-!
# What hashes of blocks and votes determine

The bytes that are hashed are put together without separators: addresses
and heights have one width, a multihash says itself where it ends, and the
list of votes comes last. So the bytes determine all of it but the
signature of the block, which they leave out, and a signature of a vote is
one of one target and one justification (`hashes_determine`).
-/

namespace Rensa

namespace Consensus

variable {H D : Type}

/-- What `Vote::hash` feeds to SHA3. -/
def Config.votePreimage (K : Config H D) (v : Vote H) : Bytes :=
  v.validator.bytes ++ K.toBytes v.target ++ K.toBytes v.justification ++ v.signature

/-- The two blocks agree in everything their hash covers. -/
structure SameContents (K : Config H D) (b b' : Produced H D) : Prop where
  producer : b.signature.1 = b'.signature.1
  parent : b.parent = b'.parent
  stateHash : b.stateHash = b'.stateHash
  height : b.height = b'.height
  payload : K.hashData b.data = K.hashData b'.data
  votes : b.votes.map K.hashVote = b'.votes.map K.hashVote

section Preimages

variable {K : Config H D} (hdelim : SelfDelimiting K.toBytes)
include hdelim

/-- The bytes of a block, taken apart from the front. -/
theorem sameContents_of_preimage {b b' : Produced H D} (hb : b.height < 2 ^ 64)
    (hb' : b'.height < 2 ^ 64) (h : K.preimage b = K.preimage b') : SameContents K b b' := by
  simp only [Config.preimage, List.append_assoc] at h
  obtain ⟨hproducer, h⟩ := List.append_inj h (by simp)
  obtain ⟨hparent, h⟩ := hdelim.unique h
  obtain ⟨hstate, h⟩ := hdelim.unique h
  obtain ⟨hheight, h⟩ := List.append_inj h (by simp)
  obtain ⟨hpayload, hvotes⟩ := hdelim.unique h
  refine ⟨Pubkey.bytes_injective hproducer, hparent, hstate,
    leBytes_inj (by omega) (by omega) hheight, hpayload, ?_⟩
  -- the votes are a list of multihashes to the end
  refine hdelim.flatMap_inj ?_
  rw [List.flatMap_map, List.flatMap_map]
  exact hvotes

/-- The bytes of a vote, taken apart from the front. -/
theorem eq_of_votePreimage {v v' : Vote H} (h : K.votePreimage v = K.votePreimage v') :
    v = v' := by
  obtain ⟨validator, target, justification, signature⟩ := v
  obtain ⟨validator', target', justification', signature'⟩ := v'
  simp only [Config.votePreimage, List.append_assoc] at h
  obtain ⟨hvalidator, h⟩ := List.append_inj h (by simp)
  obtain ⟨htarget, h⟩ := hdelim.unique h
  obtain ⟨hjustification, hsignature⟩ := hdelim.unique h
  rw [Pubkey.bytes_injective hvalidator, htarget, hjustification, hsignature]

/-- The signed bytes of a vote. -/
theorem target_of_message {t t' j j' : H}
    (h : K.toBytes t ++ K.toBytes j = K.toBytes t' ++ K.toBytes j') : t = t' ∧ j = j' := by
  obtain ⟨htarget, h⟩ := hdelim.unique h
  have happ : K.toBytes j ++ [] = K.toBytes j' ++ [] := by rw [h]
  exact ⟨htarget, (hdelim.unique happ).1⟩

end Preimages

/-- **Block and vote hashes determine their contents.** Where SHA3-256 does
not collide on the two blocks or the two votes, and multihashes are
written self-delimiting: blocks with one hash agree in their producer, in
their parent, state hash, height and payload, and in their votes; votes
with one hash are one vote; and a signature that verifies for two votes of
a validator, whose key verifies it for one message at most, is of one
target and one justification. -/
theorem hashes_determine (K : Config H D) (hdelim : SelfDelimiting K.toBytes) :
    (∀ b b' : Produced H D,
      (K.crypto.sha3 (K.preimage b) = K.crypto.sha3 (K.preimage b') →
        K.preimage b = K.preimage b') →
      b.height < 2 ^ 64 → b'.height < 2 ^ 64 → K.hash b = K.hash b' → SameContents K b b') ∧
    (∀ v v' : Vote H,
      (K.crypto.sha3 (K.votePreimage v) = K.crypto.sha3 (K.votePreimage v') →
        K.votePreimage v = K.votePreimage v') →
      K.hashVote v = K.hashVote v' → v = v') ∧
    ∀ v v' : Vote H, v.validator = v'.validator → v.signature = v'.signature →
      (∀ m m', K.crypto.verifies v.validator m v.signature = true →
        K.crypto.verifies v.validator m' v.signature = true → m = m') →
      K.verifyVote v = true → K.verifyVote v' = true →
        v.target = v'.target ∧ v.justification = v'.justification := by
  refine ⟨?_, ?_, ?_⟩
  · intro b b' hfree hb hb' heq
    exact sameContents_of_preimage hdelim hb hb' (hfree heq)
  · intro v v' hfree heq
    exact eq_of_votePreimage hdelim (hfree heq)
  · intro v v' hvalidator hsignature hbinds hv hv'
    rw [Config.verifyVote, ← hvalidator, ← hsignature] at hv'
    exact target_of_message hdelim (hbinds _ _ hv hv')

/-! ## Multihashes -/

/-- A multihash: the code of the hash function, and a digest of any size. -/
structure Multihash where
  code : ℕ
  digest : Bytes
deriving DecidableEq

/-- The encoding of a multihash: its code, the length of the digest, and
the digest. -/
def Multihash.toBytes (h : Multihash) : Bytes :=
  uvarint h.code ++ (uvarint h.digest.length ++ h.digest)

/-- Whatever its code and its size, a multihash is self-delimiting. -/
theorem Multihash.selfDelimiting : SelfDelimiting Multihash.toBytes := by
  refine selfDelimiting_uvarint.cons ?_
  rintro ⟨code, digest⟩ ⟨code', digest'⟩ r s rfl h
  obtain ⟨rfl, hrest⟩ := selfDelimiting_prefixed.unique h
  exact ⟨rfl, hrest⟩

namespace HashSample

/-- SHA3-256 is code 0x16; the sample digest is the message itself. -/
def crypto : Crypto Multihash where
  sha3 bs := ⟨0x16, bs⟩
  digest := Multihash.digest
  hasPrivateKey := sampleCrypto.hasPrivateKey
  verify := sampleCrypto.verify
  toBase58 := sampleCrypto.toBase58
  bump_ends := sampleCrypto.bump_ends

/-- A setting with these multihashes. -/
def config : Config Multihash Unit where
  crypto := crypto
  toBytes := Multihash.toBytes
  hashData _ := ⟨0x16, [1]⟩
  execute _ _ := .ok {}
  hashOutput _ := ⟨0x16, [2]⟩
  genesis :=
    { hash := ⟨0x16, []⟩, epochBlocks := 1, slotInterval := 1, limits := Machine.Sample.limits
      validators := [] }
  alloc := .inPlace
  order := id
  order_perm _ := .refl _

/-- A block with one vote, and some signature. -/
def block (signature : Signature) : Produced Multihash Unit where
  parent := ⟨0x16, [3]⟩
  stateHash := ⟨0x12, [4, 5]⟩
  height := 1
  signature := (7, signature)
  data := ()
  votes := [⟨8, ⟨0x16, [3]⟩, ⟨0x16, []⟩, [9]⟩]

end HashSample

/-- Two blocks that differ in their signature only: one hash, and the same
contents. -/
theorem hashes_determine_block :
    HashSample.config.hash (HashSample.block [1]) = HashSample.config.hash (HashSample.block [2]) ∧
      HashSample.block [1] ≠ HashSample.block [2] ∧
      SameContents HashSample.config (HashSample.block [1]) (HashSample.block [2]) :=
  ⟨rfl, by decide, (hashes_determine HashSample.config Multihash.selfDelimiting).1 _ _
    (fun h => congrArg Multihash.digest h) (by decide) (by decide) rfl⟩

end Consensus

end Rensa
