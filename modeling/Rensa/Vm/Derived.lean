import Rensa.Vm.Authorization
import Rensa.Vm.Deploy
/-!
# The addresses that the builtin contracts derive

The contracts derive the addresses of their accounts from their own one: of
a coin account from the mint and the wallet, of a mint or of a contract from
its seed, and of bytecode from a seed and a word. What is hashed is the
plain concatenation, followed by the bump. The three kinds hash messages of
three lengths, so without a collision of SHA3-256 no two of these addresses
are the same (`derive_injective`): coins are apart from mints as the
Currency contract needs it (`apart_of_collisionFree`), and contracts from
the buffers of bytecode (`contractAddr_ne_bufferAddr`).
-/

namespace Rensa

open Borsh (FixedBytes)

namespace Pubkey

variable {H : Type} {C : Crypto H} {key : Pubkey} {seeds : List Bytes}

theorem exists_candidate_of_deriveFrom {fuel bump : ℕ} {k : Pubkey}
    (h : deriveFrom C key seeds fuel bump = some k) :
    ∃ b, b < bump + fuel ∧ k = candidate C key seeds b := by
  induction fuel generalizing bump with
  | zero => cases h
  | succ fuel ih =>
    simp only [deriveFrom] at h
    split at h
    · obtain ⟨b, hb, hk⟩ := ih h
      exact ⟨b, by omega, hk⟩
    · exact ⟨bump, by omega, (Option.some.inj h).symm⟩

/-- A derived address is that of some bump. -/
theorem exists_candidate (C : Crypto H) (key : Pubkey) (seeds : List Bytes) :
    ∃ bump < 2 ^ 64, derive C key seeds = candidate C key seeds bump := by
  obtain ⟨b, hb, hk⟩ := exists_candidate_of_deriveFrom (Option.some_get _).symm
  exact ⟨b, by simpa using hb, hk⟩

end Pubkey

/-- An address that a contract derives: of a coin account, of a mint or a
contract, and of the bytecode of a contract. -/
inductive Derived
  | coin (mint wallet : Pubkey)
  | seeded (seed : FixedBytes 32)
  | bytecode (seed : FixedBytes 32)

namespace Derived

/-- The seeds of the derivation. -/
def seeds : Derived → List Bytes
  | .coin mint wallet => [mint.bytes, wallet.bytes]
  | .seeded seed => [seed.1]
  | .bytecode seed => [seed.1, textBytes "bytecode"]

variable {d d' : Derived} {S T : Set Derived} {key : Pubkey}

/-- **The seeds can be read back from their concatenation**: its length
says which kind it is. -/
theorem eq_of_flatten_eq (h : d.seeds.flatten = d'.seeds.flatten) : d = d' := by
  have hword : (textBytes "bytecode").length = 8 := by decide
  have hlength := congrArg List.length h
  cases d with
  | coin mint wallet =>
    cases d' with
    | coin mint' wallet' =>
      simp only [seeds, List.flatten_cons, List.flatten_nil, List.append_nil] at h
      obtain ⟨hmint, hwallet⟩ := List.append_inj h (by simp)
      rw [Pubkey.bytes_injective hmint, Pubkey.bytes_injective hwallet]
    | seeded seed => simp [seeds, seed.2] at hlength
    | bytecode seed => simp [seeds, seed.2, hword] at hlength
  | seeded seed =>
    cases d' with
    | coin => simp [seeds, seed.2] at hlength
    | seeded seed' =>
      simp only [seeds, List.flatten_cons, List.flatten_nil, List.append_nil] at h
      rw [Subtype.ext h]
    | bytecode seed' => simp [seeds, seed.2, seed'.2, hword] at hlength
  | bytecode seed =>
    cases d' with
    | coin => simp [seeds, seed.2, hword] at hlength
    | seeded seed' => simp [seeds, seed.2, seed'.2, hword] at hlength
    | bytecode seed' =>
      simp only [seeds, List.flatten_cons, List.flatten_nil, List.append_nil] at h
      rw [Subtype.ext (List.append_cancel_right h)]

/-- What is hashed for some addresses of a contract, with any bump. -/
def messages (key : Pubkey) (S : Set Derived) : Set Bytes :=
  {m | ∃ d ∈ S, ∃ bump < 2 ^ 64, m = key.bytes ++ d.seeds.flatten ++ leBytes 8 bump}

variable {H : Type} {C : Crypto H}

/-- **SHA3-256 has no collision** among these messages. -/
def CollisionFree (C : Crypto H) (key : Pubkey) (S : Set Derived) : Prop :=
  ∀ m ∈ messages key S, ∀ m' ∈ messages key S,
    C.digest (C.sha3 m) = C.digest (C.sha3 m') → m = m'

/-- Two addresses that are the same were derived from the same message. -/
theorem eq_of_derive_eq (hwidth : ∀ m, (C.digest (C.sha3 m)).length = 32)
    (hfree : CollisionFree C key S) (hd : d ∈ S) (hd' : d' ∈ S)
    (h : key.derive C d.seeds = key.derive C d'.seeds) : d = d' := by
  obtain ⟨bump, hbump, hcandidate⟩ := Pubkey.exists_candidate C key d.seeds
  obtain ⟨bump', hbump', hcandidate'⟩ := Pubkey.exists_candidate C key d'.seeds
  rw [hcandidate, hcandidate'] at h
  have hdigest := congrArg Pubkey.bytes h
  unfold Pubkey.candidate at hdigest
  rw [Pubkey.bytes_ofBytes (hwidth _), Pubkey.bytes_ofBytes (hwidth _)] at hdigest
  have hmessage := hfree _ ⟨d, hd, bump, hbump, rfl⟩ _ ⟨d', hd', bump', hbump', rfl⟩ hdigest
  -- the bump has eight bytes in both
  have hprefix := (List.append_inj' hmessage (by simp)).1
  exact eq_of_flatten_eq (List.append_cancel_left hprefix)

/-- **Derived addresses do not collide**, and none of them has a private
key. -/
theorem derive_injective (C : Crypto H) (hwidth : ∀ m, (C.digest (C.sha3 m)).length = 32)
    (key : Pubkey) (S : Set Derived) (hfree : CollisionFree C key S) :
    (∀ d ∈ S, ∀ d' ∈ S, key.derive C d.seeds = key.derive C d'.seeds → d = d') ∧
      ∀ seeds, C.hasPrivateKey (key.derive C seeds) = false :=
  ⟨fun _ hd _ hd' h => eq_of_derive_eq hwidth hfree hd hd' h,
    fun seeds => Pubkey.hasPrivateKey_derive C key seeds⟩

/-! ## One address of each kind -/

private theorem tag_bump_ends : Pubkey → List Bytes → ∃ bump < 2 ^ 64, false = false :=
  fun _ _ => ⟨0, Nat.two_pow_pos 64, rfl⟩

/-- A digest of 32 bytes: the last eight bytes of what is hashed and its
length. -/
def tagCrypto : Crypto Bytes where
  sha3 := id
  digest bs := leBytes 8 (leNat (bs.drop (bs.length - 8))) ++ leBytes 24 bs.length
  hasPrivateKey _ := false
  verify k message signature := signature == k.bytes ++ message
  toBase58 k := toString k.val.val
  bump_ends := tag_bump_ends

/-- A coin account, a mint and bytecode. -/
def three : Set Derived :=
  {.coin 1 2, .seeded ⟨leBytes 32 1, length_leBytes 32 1⟩,
    .bytecode ⟨leBytes 32 1, length_leBytes 32 1⟩}

/-- The digest of the message says both its length and its bump. -/
theorem digest_message (key : Pubkey) (d : Derived) (bump : ℕ) :
    tagCrypto.digest (tagCrypto.sha3 (key.bytes ++ d.seeds.flatten ++ leBytes 8 bump)) =
      leBytes 8 bump ++ leBytes 24 (40 + d.seeds.flatten.length) := by
  have hlength : (key.bytes ++ d.seeds.flatten ++ leBytes 8 bump).length =
      (key.bytes ++ d.seeds.flatten).length + 8 := by
    rw [List.length_append, length_leBytes]
  have hbump : leBytes 8 (leNat (leBytes 8 bump)) = leBytes 8 bump :=
    leBytes_leNat (length_leBytes 8 bump)
  simp only [tagCrypto, id_eq]
  rw [hlength, Nat.add_sub_cancel, List.drop_left, hbump, List.length_append,
    Pubkey.length_bytes]
  congr 2
  omega

theorem collisionFree_three (key : Pubkey) : CollisionFree tagCrypto key three := by
  have hword : (textBytes "bytecode").length = 8 := by decide
  rintro _ ⟨d, hd, bump, -, rfl⟩ _ ⟨d', hd', bump', -, rfl⟩ h
  rw [digest_message, digest_message] at h
  obtain ⟨hbump, hlength⟩ := List.append_inj h (by simp)
  have hsize : ∀ d ∈ three, 40 + d.seeds.flatten.length < 256 ^ 24 := by
    rintro d (rfl | rfl | rfl) <;> simp [seeds, hword]
  have hlength := leBytes_inj (hsize d hd) (hsize d' hd') hlength
  have heq : d = d' := by
    rcases hd with rfl | rfl | rfl <;> rcases hd' with rfl | rfl | rfl <;>
      first | rfl | simp [seeds, hword] at hlength
  rw [heq, hbump]

/-- A coin account, a mint and bytecode at three addresses. -/
theorem derive_injective_three :
    Currency.address.derive tagCrypto [Pubkey.bytes 1, Pubkey.bytes 2] ≠
        Currency.address.derive tagCrypto [leBytes 32 1] ∧
      Currency.address.derive tagCrypto [leBytes 32 1] ≠
        Currency.address.derive tagCrypto [leBytes 32 1, textBytes "bytecode"] := by
  have hinj := (derive_injective tagCrypto (fun _ => by simp [tagCrypto]) Currency.address three
    (collisionFree_three _)).1
  constructor
  · intro h
    cases hinj (.coin 1 2) (.inl rfl) (.seeded _) (.inr (.inl rfl)) h
  · intro h
    cases hinj (.seeded _) (.inr (.inl rfl)) (.bytecode _) (.inr (.inr rfl)) h

end Derived

/-! ## The addresses of the two contracts -/

namespace Currency

variable {H : Type} {C : Crypto H} {N : Names}

/-- What the Currency contract may derive from the names of a run. -/
def Names.derived (C : Crypto H) (N : Names) : Set Derived :=
  {d | (∃ seed ∈ N.seeds, d = .seeded seed) ∨
    ∃ m, (m ∈ N.addresses ∨ N.Mint C m) ∧ ∃ wallet ∈ N.addresses, d = .coin m wallet}

/-- **Coins are apart from mints** where SHA3-256 has no collision. -/
theorem Names.apart_of_collisionFree (hwidth : ∀ m, (C.digest (C.sha3 m)).length = 32)
    (hfree : Derived.CollisionFree C address (N.derived C)) : N.Apart C := by
  rintro m hm wallet hwallet ⟨seed, hseed, heq⟩
  have hcoin : .coin m wallet ∈ N.derived C := .inr ⟨m, hm, wallet, hwallet, rfl⟩
  have hmint : .seeded seed ∈ N.derived C := .inl ⟨seed, hseed, rfl⟩
  cases Derived.eq_of_derive_eq hwidth hfree hcoin hmint heq

end Currency

namespace WasmVM

variable {H : Type} {C : Crypto H} {S : Set Derived}

/-- **Contracts are apart from the bytecode** that is uploaded for any of
them. -/
theorem Package.contractAddr_ne_bufferAddr (hwidth : ∀ m, (C.digest (C.sha3 m)).length = 32)
    (hfree : Derived.CollisionFree C wasmVmBuiltinAddr S) {p q : Package}
    (hp : .seeded p.seed ∈ S) (hq : .bytecode q.seed ∈ S) :
    p.contractAddr C ≠ q.bufferAddr C := by
  intro h
  cases Derived.eq_of_derive_eq hwidth hfree hp hq h

end WasmVM

end Rensa
