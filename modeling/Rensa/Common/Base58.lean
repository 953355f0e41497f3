import Rensa.Common.Bytes
import Rensa.Common.Numeral
/-!
# Base 58

Bytes are a numeral in base 256, and their text is the same numeral in base
58, with its leading zeros. So the text of some bytes is decoded as these
bytes (`decode_encode`), and no other text is (`encode_decode`).
-/

namespace Rensa

namespace Base58

/-- The alphabet: no zero, no capital o or i, no small l. -/
def alphabet : List Char := "123456789ABCDEFGHJKLMNPQRSTUVWXYZabcdefghijkmnopqrstuvwxyz".toList

/-- `bs58::encode`. -/
def encode (bs : Bytes) : String :=
  String.ofList (spell alphabet (Numeral.rebase 256 58 (bs.map UInt8.toNat)))

/-- `bs58::decode`: `none` for a character that is not of the alphabet. -/
def decode (s : String) : Option Bytes :=
  (unspell alphabet s.toList).map fun ds => (Numeral.rebase 58 256 ds).map UInt8.ofNat

theorem alphabet_nodup : alphabet.Nodup := by decide

theorem length_alphabet : alphabet.length = 58 := by decide

theorem toNat_lt (bs : Bytes) : ∀ d ∈ bs.map UInt8.toNat, d < 256 := by
  intro d hd
  obtain ⟨b, -, rfl⟩ := List.mem_map.1 hd
  exact b.toNat_lt

/-- **What was encoded is decoded again.** -/
theorem decode_encode (bs : Bytes) : decode (encode bs) = some bs := by
  have hlt : ∀ d ∈ Numeral.rebase 256 58 (bs.map UInt8.toNat), d < alphabet.length := by
    rw [length_alphabet]
    exact Numeral.join_lt (by decide) _
  unfold decode encode
  rw [String.toList_ofList, unspell_spell alphabet_nodup hlt, Option.map_some,
    Numeral.rebase_rebase (by decide) (toNat_lt bs), List.map_map]
  exact congrArg some (List.map_id'' (fun b => UInt8.ofNat_toNat) bs)

/-- **What was decoded is encoded as the same text.** -/
theorem encode_decode {s : String} {bs : Bytes} (h : decode s = some bs) : encode bs = s := by
  obtain ⟨ds, hds, rfl⟩ := Option.map_eq_some_iff.1 h
  have hlt : ∀ d ∈ ds, d < 58 := length_alphabet ▸ unspell_lt hds
  have hbytes : ((Numeral.rebase 58 256 ds).map UInt8.ofNat).map UInt8.toNat =
      Numeral.rebase 58 256 ds := by
    rw [List.map_map]
    refine (List.map_congr_left fun d hd => ?_).trans (List.map_id _)
    have hd : d < 256 := Numeral.join_lt (by decide) _ d hd
    show (UInt8.ofNat d).toNat = d
    rw [UInt8.toNat_ofNat']
    omega
  unfold encode
  rw [hbytes, Numeral.rebase_rebase (by decide) hlt, spell_unspell hds, String.ofList_toList]

/-- The text of some bytes has only characters of the alphabet. -/
theorem mem_encode {bs : Bytes} {c : Char} (hc : c ∈ (encode bs).toList) : c ∈ alphabet := by
  unfold encode at hc
  rw [String.toList_ofList] at hc
  obtain ⟨d, -, hd⟩ := List.mem_filterMap.1 hc
  exact List.mem_of_getElem? hd

end Base58

end Rensa
