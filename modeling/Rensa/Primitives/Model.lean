import Rensa.Common.Bytes
/-!
# Addresses, keys and accounts

`Pubkey` is a 32-byte address, ordered as its bytes are. What the node
takes from outside its own source — SHA3-256, the Ed25519 curve test,
signature verification and the base58 text of an address — is the
structure `Crypto`; `derive` is the node's own search for an address off
the curve.
-/

namespace Rensa

/-- An address: 32 bytes, read as one big-endian integer, so that the
order of addresses is the lexicographic order of their bytes. -/
structure Pubkey where
  /-- The bytes, as an integer. -/
  val : Fin (2 ^ 256)
deriving DecidableEq

namespace Pubkey

theorem val_injective : Function.Injective Pubkey.val := by
  rintro ⟨a⟩ ⟨b⟩ h
  exact congrArg _ h

instance : LinearOrder Pubkey := LinearOrder.lift' Pubkey.val val_injective

instance : Std.LawfulEqCmp (compare : Pubkey → Pubkey → Ordering) where
  compare_self := compare_eq_iff_eq.2 rfl
  eq_of_compare h := compare_eq_iff_eq.1 h

instance : Std.TransCmp (compare : Pubkey → Pubkey → Ordering) := inferInstance

instance : NeZero (2 ^ 256) := inferInstance

instance (n : ℕ) : OfNat Pubkey n := ⟨⟨Fin.ofNat _ n⟩⟩

instance : Inhabited Pubkey := ⟨0⟩

/-- The 32 bytes of an address. -/
def bytes (k : Pubkey) : Bytes := (leBytes 32 k.val).reverse

/-- The address 32 bytes spell. -/
def ofBytes (bs : Bytes) : Pubkey := ⟨Fin.ofNat _ (leNat bs.reverse)⟩

@[simp] theorem length_bytes (k : Pubkey) : k.bytes.length = 32 := by
  simp [bytes]

@[simp] theorem ofBytes_bytes (k : Pubkey) : ofBytes k.bytes = k := by
  apply val_injective
  have hk : (k.val : ℕ) < 256 ^ 32 := lt_of_lt_of_eq k.val.isLt (by norm_num)
  simp only [ofBytes, bytes, List.reverse_reverse, leNat_leBytes hk]
  exact Fin.ext (Nat.mod_eq_of_lt k.val.isLt)

/-- Reading 32 bytes and writing them back changes nothing. -/
theorem bytes_ofBytes {bs : Bytes} (h : bs.length = 32) : (ofBytes bs).bytes = bs := by
  have hlt : leNat bs.reverse < 2 ^ 256 := by
    have := leNat_lt bs.reverse
    rwa [List.length_reverse, h, show (256 : ℕ) ^ 32 = 2 ^ 256 by norm_num] at this
  have hval : ((ofBytes bs).val : ℕ) = leNat bs.reverse := Nat.mod_eq_of_lt hlt
  rw [bytes, hval, leBytes_leNat (by simpa using h), List.reverse_reverse]

theorem bytes_injective : Function.Injective bytes := by
  intro a b h
  rw [← ofBytes_bytes a, h, ofBytes_bytes]

end Pubkey

/-- An Ed25519 signature. -/
abbrev Signature := Bytes

/-- What the node takes from its cryptographic libraries. `H` is the type
of multihashes. -/
structure Crypto (H : Type) where
  /-- SHA3-256, wrapped as a multihash. -/
  sha3 : Bytes → H
  /-- The digest a multihash carries. -/
  digest : H → Bytes
  /-- Whether an address decompresses to a point of the curve. -/
  hasPrivateKey : Pubkey → Bool
  /-- `PublicKey::verify`: the key, the message, the signature. -/
  verify : Pubkey → Bytes → Signature → Bool
  /-- The text of an address. -/
  toBase58 : Pubkey → String
  /-- Every search for an address off the curve ends before the bump
  wraps. -/
  bump_ends : ∀ (key : Pubkey) (seeds : List Bytes), ∃ bump < 2 ^ 64,
    hasPrivateKey (Pubkey.ofBytes (digest
      (sha3 (key.bytes ++ seeds.flatten ++ leBytes 8 bump)))) = false

/-- `PublicKey::from_bytes` followed by `verify`: an address off the curve
is no key and verifies nothing. -/
def Crypto.verifies {H : Type} (C : Crypto H) (key : Pubkey) (message : Bytes)
    (signature : Signature) : Bool :=
  C.hasPrivateKey key && C.verify key message signature

namespace Pubkey

variable {H : Type} (C : Crypto H)

/-- The address one bump value gives. -/
def candidate (key : Pubkey) (seeds : List Bytes) (bump : ℕ) : Pubkey :=
  ofBytes (C.digest (C.sha3 (key.bytes ++ seeds.flatten ++ leBytes 8 bump)))

/-- The loop of `derive`: try bump values upward until an address is off
the curve. -/
def deriveFrom (key : Pubkey) (seeds : List Bytes) : ℕ → ℕ → Option Pubkey
  | 0, _ => none
  | fuel + 1, bump =>
    let k := candidate C key seeds bump
    if C.hasPrivateKey k then deriveFrom key seeds fuel (bump + 1) else some k

variable {C} {key : Pubkey} {seeds : List Bytes}

theorem deriveFrom_isSome {fuel bump b : ℕ} (hle : bump ≤ b) (hlt : b < bump + fuel)
    (hb : C.hasPrivateKey (candidate C key seeds b) = false) :
    (deriveFrom C key seeds fuel bump).isSome := by
  induction fuel generalizing bump with
  | zero => omega
  | succ fuel ih =>
    simp only [deriveFrom]
    split
    · rename_i hk
      refine ih ?_ (by omega)
      rcases Nat.lt_or_ge bump b with h | h
      · exact h
      · obtain rfl : bump = b := by omega
        rw [hk] at hb
        cases hb
    · rfl

theorem deriveFrom_offCurve {fuel bump : ℕ} {k : Pubkey}
    (h : deriveFrom C key seeds fuel bump = some k) : C.hasPrivateKey k = false := by
  induction fuel generalizing bump with
  | zero => cases h
  | succ fuel ih =>
    simp only [deriveFrom] at h
    split at h
    · exact ih h
    · rename_i hk
      obtain rfl := Option.some.inj h
      simpa using hk

variable (C key seeds)

/-- **`Pubkey::derive`**: the first address off the curve, over bump
values from zero. -/
def derive : Pubkey :=
  (deriveFrom C key seeds (2 ^ 64) 0).get (by
    obtain ⟨b, hb, hoff⟩ := C.bump_ends key seeds
    exact deriveFrom_isSome (Nat.zero_le b) (by simpa using hb) hoff)

/-- A derived address is off the curve. -/
@[simp] theorem hasPrivateKey_derive : C.hasPrivateKey (derive C key seeds) = false :=
  deriveFrom_offCurve (Option.some_get _).symm

end Pubkey

/-! ## A concrete instance

The assumptions `Crypto` makes are met by the identity as hash, the
addresses below 100 as the curve, and the key followed by the message as
signature. -/

private theorem sample_bump_ends (key : Pubkey) (seeds : List Bytes) : ∃ bump < 2 ^ 64,
    decide ((Pubkey.ofBytes (key.bytes ++ seeds.flatten ++ leBytes 8 bump)).val.val < 100) =
      false := by
  refine ⟨2 ^ 64 - 1, by norm_num, ?_⟩
  have htail : leNat (leBytes 8 (2 ^ 64 - 1)).reverse = 2 ^ 64 - 1 := by decide
  have hval : leNat (key.bytes ++ seeds.flatten ++ leBytes 8 (2 ^ 64 - 1)).reverse =
      2 ^ 64 - 1 + 256 ^ 8 * leNat (key.bytes ++ seeds.flatten).reverse := by
    rw [List.reverse_append, leNat_append, htail, List.length_reverse, length_leBytes]
  rw [decide_eq_false_iff_not]
  change ¬ leNat (key.bytes ++ seeds.flatten ++ leBytes 8 (2 ^ 64 - 1)).reverse % 2 ^ 256 < 100
  rw [hval]
  omega

/-- A `Crypto` to run the model on. -/
def sampleCrypto : Crypto Bytes where
  sha3 := id
  digest := id
  hasPrivateKey k := decide (k.val.val < 100)
  verify k message signature := signature == k.bytes ++ message
  toBase58 k := toString k.val.val
  bump_ends := sample_bump_ends

/-- An account of the ledger. -/
structure Account where
  executable : Bool := false
  nonce : ℕ := 0
  owner : Option Pubkey := none
  data : Option Bytes := none
deriving DecidableEq, Inhabited

end Rensa
