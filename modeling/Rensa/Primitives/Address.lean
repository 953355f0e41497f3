import Rensa.Common.Base58
import Rensa.Primitives.Model
/-!
# The text of an address

An address is written in base 58, and read into a buffer of 32 zeros. A
text of fewer bytes leaves zeros at the end of the buffer, and its length
is not looked at: such a text is read, but is not what the address is
written as, and the client refuses it. All others are canonical
(`canonical_iff`).
-/

namespace Rensa

/-- `bs58::decode(s).into`, a buffer of `n` zeros: `none` also where the
bytes do not fit. -/
def Base58.decodeInto (n : ℕ) (s : String) : Option Bytes :=
  (decode s).bind fun bs =>
    if bs.length ≤ n then some (bs ++ List.replicate (n - bs.length) 0) else none

namespace Pubkey

open Base58 (encode decode decodeInto)

variable {k : Pubkey} {s : String} {bs : Bytes}

/-- `Display for Pubkey`. -/
def toText (k : Pubkey) : String := encode k.bytes

/-- `FromStr for Pubkey`. -/
def fromStr (s : String) : Option Pubkey := (decodeInto 32 s).map ofBytes

/-- The constructor of the client's `Pubkey`, for a text. -/
def clientPubkey (s : String) : Option Bytes :=
  (decode s).bind fun bs => if bs.length ≠ 32 then none else some bs

/-- What a text is read as: zeros fill up the buffer. -/
theorem fromStr_of_decode (h : decode s = some bs) (hlen : bs.length ≤ 32) :
    ∃ k, fromStr s = some k ∧ k.bytes = bs ++ List.replicate (32 - bs.length) 0 := by
  refine ⟨ofBytes (bs ++ List.replicate (32 - bs.length) 0), ?_, bytes_ofBytes ?_⟩
  · unfold fromStr decodeInto
    rw [h, Option.bind_some, if_pos hlen]
    rfl
  · rw [List.length_append, List.length_replicate]
    omega

/-- A text that is read has at most 32 bytes. -/
theorem decode_of_fromStr (h : fromStr s = some k) :
    ∃ bs, decode s = some bs ∧ bs.length ≤ 32 ∧
      k.bytes = bs ++ List.replicate (32 - bs.length) 0 := by
  obtain ⟨buffer, hbuffer, rfl⟩ := Option.map_eq_some_iff.1 h
  obtain ⟨bs, hbs, hfits⟩ := Option.bind_eq_some_iff.1 hbuffer
  split at hfits
  next hlen =>
    cases hfits
    refine ⟨bs, hbs, hlen, bytes_ofBytes ?_⟩
    rw [List.length_append, List.length_replicate]
    omega
  · cases hfits

/-- **An address is read from its text.** -/
theorem fromStr_toText (k : Pubkey) : fromStr k.toText = some k := by
  have hlen := k.length_bytes
  obtain ⟨k', hk', hbytes⟩ := fromStr_of_decode (s := k.toText) (Base58.decode_encode k.bytes) hlen.le
  rw [hlen, Nat.sub_self, List.replicate_zero, List.append_nil] at hbytes
  rw [hk', bytes_injective hbytes]

/-- A text is canonical: the address that is read from it, if there is one,
is written as this text, and it is read where the client takes it. -/
structure Canonical (s : String) : Prop where
  written : ∀ k, fromStr s = some k → k.toText = s
  client : (fromStr s).isSome ↔ (clientPubkey s).isSome

/-- Two canonical texts of one address are the same. -/
theorem Canonical.unique {s' : String} (hs : Canonical s) (hs' : Canonical s')
    (h : fromStr s = some k) (h' : fromStr s' = some k) : s = s' :=
  (hs.written k h).symm.trans (hs'.written k h')

/-- The client takes the texts of 32 bytes. -/
theorem clientPubkey_isSome_iff :
    (clientPubkey s).isSome ↔ ∃ bs, decode s = some bs ∧ bs.length = 32 := by
  unfold clientPubkey
  cases decode s with
  | none => simp
  | some bs => simp [Option.isSome_iff_exists]

/-- A text of fewer bytes is read, and not taken by the client. -/
theorem Canonical.length_le (h : Canonical s) (hbs : decode s = some bs) : 32 ≤ bs.length := by
  by_contra hlen
  obtain ⟨k, hk, -⟩ := fromStr_of_decode hbs (by omega)
  obtain ⟨bs', hbs', hlen'⟩ := clientPubkey_isSome_iff.1 (h.client.1 (by rw [hk]; rfl))
  rw [hbs, Option.some.injEq] at hbs'
  exact hlen (by rw [hbs', hlen'])

/-- **Which texts are canonical**: every address is read from its text, and
a text is canonical exactly where it does not decode to fewer than 32
bytes. -/
theorem canonical_iff (k : Pubkey) (s : String) : fromStr (toText k) = some k ∧
    (Canonical s ↔ ∀ bs, decode s = some bs → 32 ≤ bs.length) := by
  refine ⟨fromStr_toText k, fun h _ => h.length_le, fun h => ⟨fun k hk => ?_, ?_⟩⟩
  · -- the bytes fill the buffer, and no zero is added
    obtain ⟨bs, hbs, hlen, hbytes⟩ := decode_of_fromStr hk
    have hfull : bs.length = 32 := Nat.le_antisymm hlen (h bs hbs)
    rw [hfull, Nat.sub_self, List.replicate_zero, List.append_nil] at hbytes
    unfold toText
    rw [hbytes, Base58.encode_decode hbs]
  · rw [clientPubkey_isSome_iff]
    constructor
    · intro hread
      obtain ⟨k, hk⟩ := Option.isSome_iff_exists.1 hread
      obtain ⟨bs, hbs, hlen, -⟩ := decode_of_fromStr hk
      exact ⟨bs, hbs, Nat.le_antisymm hlen (h bs hbs)⟩
    · rintro ⟨bs, hbs, hlen⟩
      obtain ⟨k, hk, -⟩ := fromStr_of_decode hbs hlen.le
      rw [hk]
      rfl

/-- Two short texts are read as the address of zeros, and are not canonical. -/
theorem short_texts_not_canonical :
    fromStr "" = some 0 ∧ fromStr "1" = some 0 ∧ ¬ Canonical "" ∧ ¬ Canonical "1" := by
  have hempty : decode "" = some [] := by decide
  have hone : decode "1" = some [0] := by decide
  have hzero : (0 : Pubkey).bytes = List.replicate 32 0 := by decide
  obtain ⟨k, hk, hbytes⟩ := fromStr_of_decode hempty (by decide)
  obtain ⟨k', hk', hbytes'⟩ := fromStr_of_decode hone (by decide)
  refine ⟨?_, ?_, fun h => absurd (h.length_le hempty) (by decide),
    fun h => absurd (h.length_le hone) (by decide)⟩
  · rw [hk, bytes_injective (hbytes.trans hzero.symm)]
  · rw [hk', bytes_injective (hbytes'.trans hzero.symm)]

end Pubkey

end Rensa
