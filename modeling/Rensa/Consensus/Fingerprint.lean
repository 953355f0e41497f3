import Rensa.Consensus.Model.Genesis
/-!
# What the hash of the genesis block determines

The hash leaves out one limit, the system coin and the nonces of the
initial accounts, and it writes the parts of variable length one after
another: the name of the chain, the builtins, the validators, the owners
and the data. Two genesis blocks of one hash are the same configuration
exactly when they agree in what is left out and do not cut the same bytes
into different parts (`fingerprint_iff`).
-/

namespace Rensa

namespace Consensus

namespace GenesisBlock

variable {g g' : GenesisBlock}

/-- The numbers have the sizes of their types. -/
structure Fits (g : GenesisBlock) : Prop where
  time : -2 ^ 63 ≤ g.timestampMillis ∧ g.timestampMillis < 2 ^ 63
  slot : g.slotMillis < 2 ^ 128
  epoch : g.epochBlocks < 2 ^ 64
  limits : ∀ n ∈ g.hashedLimits, n < 2 ^ 64
  stakes : ∀ v ∈ g.validators, v.2 < 2 ^ 64

/-- What is hashed of an account: its address, its owner and its data. -/
def entry (p : Pubkey × Account) : Pubkey × Option Pubkey × Option Bytes :=
  (p.1, p.2.owner, p.2.data)

/-- The parts of an account that are there, and the length of its data. -/
def shape (p : Pubkey × Account) : Bool × Option ℕ := (p.2.owner.isSome, p.2.data.map List.length)

/-- The two configurations agree in everything that is hashed. -/
structure SameHashed (g g' : GenesisBlock) : Prop where
  chainId : g.chainId = g'.chainId
  genesisTime : g.timestampMillis = g'.timestampMillis
  slotInterval : g.slotMillis = g'.slotMillis
  epochBlocks : g.epochBlocks = g'.epochBlocks
  limits : g.hashedLimits = g'.hashedLimits
  builtins : g.builtins = g'.builtins
  validators : g.validators = g'.validators
  accounts : g.state.toList.map entry = g'.state.toList.map entry

/-- They agree in the rest of the configuration: one limit, the system
coin, and the nonces of the accounts, in the order of their addresses. -/
structure SameUnhashed (g g' : GenesisBlock) : Prop where
  maxTransactionParamsSize :
    g.limits.maxTransactionParamsSize = g'.limits.maxTransactionParamsSize
  systemCoin : g.systemCoin = g'.systemCoin
  nonces : (g.state.toList.map fun p => p.2.nonce) = g'.state.toList.map fun p => p.2.nonce

/-- **The same configuration.** -/
def Agree (g g' : GenesisBlock) : Prop := SameHashed g g' ∧ SameUnhashed g g'

/-- The parts of variable length have the same lengths. -/
structure SameShape (g g' : GenesisBlock) : Prop where
  chainId : (textBytes g.chainId).length = (textBytes g'.chainId).length
  builtins : g.builtins.length = g'.builtins.length
  validators : g.validators.length = g'.validators.length
  accounts : g.state.toList.map shape = g'.state.toList.map shape

/-- The parts of a configuration, each as bytes. -/
def parts (g : GenesisBlock) : List Bytes :=
  textBytes g.chainId :: g.header :: (g.builtins.map Pubkey.bytes ++
    g.validators.map validatorBytes ++ g.state.toList.map accountBytes)

/-- **The same bytes, cut into other parts**: the parts of variable length
differ in their lengths, and read one after another they are the same. -/
def Recut (g g' : GenesisBlock) : Prop :=
  ¬ SameShape g g' ∧ g.parts.flatten = g'.parts.flatten

theorem flatten_parts (g : GenesisBlock) : g.parts.flatten = g.preimage := by
  simp only [parts, preimage, List.flatten_cons, List.flatten_append, List.flatMap_def,
    List.append_assoc]

theorem textBytes_injective : Function.Injective textBytes := by
  intro s t h
  have harray : s.toByteArray.data = t.toByteArray.data := Array.toList_inj.1 h
  exact String.toByteArray_inj.1 (ByteArray.ext harray)

theorem SameHashed.sameShape (h : SameHashed g g') : SameShape g g' := by
  refine ⟨by rw [h.chainId], by rw [h.builtins], by rw [h.validators], ?_⟩
  have hshape : shape = (fun e => (e.2.1.isSome, e.2.2.map List.length)) ∘ entry := rfl
  rw [hshape, ← List.map_map, h.accounts, List.map_map]

theorem SameHashed.preimage_eq (h : SameHashed g g') : g.preimage = g'.preimage := by
  have hbytes : accountBytes =
      (fun e => e.1.bytes ++ (e.2.1.map Pubkey.bytes).getD [0] ++ e.2.2.getD [0]) ∘ entry := rfl
  have haccounts : g.state.toList.flatMap accountBytes = g'.state.toList.flatMap accountBytes := by
    rw [hbytes, List.flatMap_def, List.flatMap_def, ← List.map_map, h.accounts, List.map_map]
  rw [preimage, preimage, header, header, h.chainId, h.genesisTime, h.slotInterval, h.epochBlocks,
    h.limits, h.builtins, h.validators, haccounts]

/-- The numbers of the header are read off it. -/
theorem header_inj (hfits : Fits g) (hfits' : Fits g') (h : g.header = g'.header) :
    g.timestampMillis = g'.timestampMillis ∧ g.slotMillis = g'.slotMillis ∧
      g.epochBlocks = g'.epochBlocks ∧ g.hashedLimits = g'.hashedLimits := by
  simp only [header, List.append_assoc] at h
  obtain ⟨htime, h⟩ := List.append_inj h (by simp)
  obtain ⟨hslot, h⟩ := List.append_inj h (by simp)
  obtain ⟨hepoch, hlimits⟩ := List.append_inj h (by simp)
  obtain ⟨hlow, hhigh⟩ := hfits.time
  obtain ⟨hlow', hhigh'⟩ := hfits'.time
  refine ⟨?_, ?_, ?_, ?_⟩
  · have := leBytes_inj (by omega) (by omega) htime
    omega
  · exact leBytes_inj (lt_of_lt_of_eq hfits.slot (by norm_num))
      (lt_of_lt_of_eq hfits'.slot (by norm_num)) hslot
  · exact leBytes_inj (lt_of_lt_of_eq hfits.epoch (by norm_num))
      (lt_of_lt_of_eq hfits'.epoch (by norm_num)) hepoch
  · refine flatMap_inj_of_width (by omega) (fun _ => length_leBytes 8 _) ?_ hlimits
    intro m hm n hn
    exact leBytes_inj (lt_of_lt_of_eq (hfits.limits m hm) (by norm_num))
      (lt_of_lt_of_eq (hfits'.limits n hn) (by norm_num))

@[simp] theorem length_validatorBytes (v : Pubkey × ℕ) : (validatorBytes v).length = 40 := by
  simp [validatorBytes]

/-- The key and the stake of a validator are read off its bytes. -/
theorem validatorBytes_inj {v v' : Pubkey × ℕ} (hv : v.2 < 2 ^ 64) (hv' : v'.2 < 2 ^ 64)
    (h : validatorBytes v = validatorBytes v') : v = v' := by
  obtain ⟨hkey, hstake⟩ := List.append_inj h (by simp)
  have hnum : v.2 = v'.2 := leBytes_inj (lt_of_lt_of_eq hv (by norm_num))
    (lt_of_lt_of_eq hv' (by norm_num)) hstake
  exact Prod.ext (Pubkey.bytes_injective hkey) hnum

/-- A part that may be missing is read off the bytes that stand for it, if
it is known whether it is there. -/
theorem getD_inj {α β : Type*} {f : α → List β} (hf : Function.Injective f) {o o' : Option α}
    {d : List β} (hsome : o.isSome = o'.isSome) (h : (o.map f).getD d = (o'.map f).getD d) :
    o = o' := by
  cases o with
  | none =>
    cases o' with
    | none => rfl
    | some b' => cases hsome
  | some b =>
    cases o' with
    | none => cases hsome
    | some b' => exact congrArg some (hf h)

/-- An account of a known shape is read off the front of some bytes. -/
theorem accountBytes_inj {p q : Pubkey × Account} {r s : Bytes} (hshape : shape p = shape q)
    (h : accountBytes p ++ r = accountBytes q ++ s) : entry p = entry q ∧ r = s := by
  obtain ⟨howner, hdata⟩ := Prod.mk.inj hshape
  have hlen : ((p.2.owner.map Pubkey.bytes).getD [0]).length =
      ((q.2.owner.map Pubkey.bytes).getD [0]).length := by
    cases hp : p.2.owner <;> cases hq : q.2.owner <;> simp_all
  have hlenData : (p.2.data.getD [0]).length = (q.2.data.getD [0]).length := by
    cases hp : p.2.data <;> cases hq : q.2.data <;> simp_all
  have hsome : p.2.data.isSome = q.2.data.isSome := by
    rw [← Option.isSome_map (f := List.length), hdata, Option.isSome_map]
  -- the parts are taken off the front, each with the length the shape gives it
  simp only [accountBytes, List.append_assoc] at h
  obtain ⟨hkey, h⟩ := List.append_inj h (by simp)
  obtain ⟨ho, h⟩ := List.append_inj h hlen
  obtain ⟨hd, hrest⟩ := List.append_inj h hlenData
  have hd' : (p.2.data.map id).getD [0] = (q.2.data.map id).getD [0] := by
    rw [Option.map_id_fun, id, id, hd]
  refine ⟨?_, hrest⟩
  rw [entry, entry, Pubkey.bytes_injective hkey, getD_inj Pubkey.bytes_injective howner ho,
    getD_inj Function.injective_id hsome hd']

/-- Accounts of the same shapes are read off their bytes. -/
theorem entries_inj {l l' : List (Pubkey × Account)} (hshape : l.map shape = l'.map shape)
    (h : l.flatMap accountBytes = l'.flatMap accountBytes) : l.map entry = l'.map entry := by
  induction l generalizing l' with
  | nil =>
    cases l' with
    | nil => rfl
    | cons q l' => cases hshape
  | cons p l ih =>
    cases l' with
    | nil => cases hshape
    | cons q l' =>
      obtain ⟨hpq, hshapes⟩ := List.cons.inj hshape
      rw [List.flatMap_cons, List.flatMap_cons] at h
      obtain ⟨hentry, hrest⟩ := accountBytes_inj hpq h
      rw [List.map_cons, List.map_cons, hentry, ih hshapes hrest]

/-- **Configurations of one shape are read off the bytes.** -/
theorem sameHashed_of_preimage (hfits : Fits g) (hfits' : Fits g') (hshape : SameShape g g')
    (h : g.preimage = g'.preimage) : SameHashed g g' := by
  -- only the header has a length of its own; the others come from the shape
  simp only [preimage, List.append_assoc] at h
  have hbuiltins : (g.builtins.flatMap Pubkey.bytes).length =
      (g'.builtins.flatMap Pubkey.bytes).length := by
    simp [List.length_flatMap, hshape.builtins]
  have hvalidators : (g.validators.flatMap validatorBytes).length =
      (g'.validators.flatMap validatorBytes).length := by
    simp [List.length_flatMap, hshape.validators]
  obtain ⟨hchain, h⟩ := List.append_inj h hshape.chainId
  obtain ⟨hheader, h⟩ := List.append_inj h (by simp [header, hashedLimits])
  obtain ⟨hbuilt, h⟩ := List.append_inj h hbuiltins
  obtain ⟨hvals, haccounts⟩ := List.append_inj h hvalidators
  obtain ⟨htime, hslot, hepoch, hlimits⟩ := header_inj hfits hfits' hheader
  refine ⟨textBytes_injective hchain, htime, hslot, hepoch, hlimits, ?_, ?_,
    entries_inj hshape.accounts haccounts⟩
  · exact flatMap_inj_of_width (w := 32) (by omega) (fun k => by simp)
      (fun a _ b _ hab => Pubkey.bytes_injective hab) hbuilt
  · exact flatMap_inj_of_width (w := 40) (by omega) (fun v => by simp)
      (fun a ha b hb hab => validatorBytes_inj (hfits.stakes a ha) (hfits'.stakes b hb) hab) hvals

/-- **The fingerprint of a configuration.** Where SHA3 has no collision on
the two, one hash makes them the same configuration exactly when they are
not the same bytes cut into other parts, and not two configurations that
differ only in what is not hashed. -/
theorem fingerprint_iff {H : Type} (C : Crypto H) (hfits : Fits g) (hfits' : Fits g')
    (hfree : C.sha3 g.preimage = C.sha3 g'.preimage → g.preimage = g'.preimage) :
    (g.hash C = g'.hash C → Agree g g') ↔
      ¬ Recut g g' ∧ (SameHashed g g' → SameUnhashed g g') := by
  constructor
  · intro hagree
    constructor
    · rintro ⟨hshape, hsame⟩
      rw [flatten_parts, flatten_parts] at hsame
      exact hshape (hagree (congrArg C.sha3 hsame)).1.sameShape
    · intro hsame
      exact (hagree (congrArg C.sha3 hsame.preimage_eq)).2
  · rintro ⟨hcut, hrest⟩ hhash
    have hpre : g.preimage = g'.preimage := hfree hhash
    have hshape : SameShape g g' := by
      by_contra hshape
      exact hcut ⟨hshape, by rw [flatten_parts, flatten_parts, hpre]⟩
    have hsame : SameHashed g g' := sameHashed_of_preimage hfits hfits' hshape hpre
    exact ⟨hsame, hrest hsame⟩

namespace Sample

/-- A configuration without accounts. -/
def empty : GenesisBlock where
  chainId := "1"
  genesisTime := 0
  slotInterval := 10 ^ 9
  epochBlocks := 32
  maxBlockSize := 1000
  limits :=
    { maxJustificationAge := 100, minimumStake := 10, maxInputAccounts := 8
      maxAccountSize := 100, maxLogSize := 32, maxLogsCount := 8, maxBlockTransactions := 10
      maxContractSize := 100, maxTransactionParamsSize := 100 }
  builtins := [3, 4]
  validators := [(1, 100), (2, 50)]
  systemCoin := 300
  state := ∅

/-- It has some coin, and one account. -/
def genesis (coin : Pubkey) (account : Account) : GenesisBlock :=
  { empty with systemCoin := coin, state := .ofList [((200 : Pubkey), account)] }

theorem fits_empty : Fits empty where
  time := by decide
  slot := by decide
  epoch := by decide
  limits := by decide
  stakes := by decide

theorem fits (coin : Pubkey) (account : Account) : Fits (genesis coin account) :=
  ⟨fits_empty.time, fits_empty.slot, fits_empty.epoch, fits_empty.limits, fits_empty.stakes⟩

end Sample

/-- **Three configurations of one hash.** Another coin is another
configuration, and so is an account with one zero byte of data in place of
an account without data; the hash tells neither from the first one. -/
theorem fingerprint_shared :
    let g := Sample.genesis 300 {}
    let coin := Sample.genesis 301 {}
    let data := Sample.genesis 300 { data := some [0] }
    Function.Injective sampleCrypto.sha3 ∧ (Fits g ∧ Fits coin ∧ Fits data) ∧
      (g.hash sampleCrypto = coin.hash sampleCrypto ∧ ¬ Agree g coin) ∧
      g.hash sampleCrypto = data.hash sampleCrypto ∧ ¬ Agree g data := by
  refine ⟨Function.injective_id, ⟨Sample.fits _ _, Sample.fits _ _, Sample.fits _ _⟩,
    ⟨rfl, ?_⟩, by decide +kernel, ?_⟩
  · intro h
    exact absurd h.2.systemCoin (by decide)
  · intro h
    exact absurd h.1.accounts (by decide)

/-- The two configurations that differ in the coin: not every pair with one
hash is one configuration. -/
theorem fingerprint_coins :
    ¬ Recut (Sample.genesis 300 {}) (Sample.genesis 301 {}) ∧
      ¬ (SameHashed (Sample.genesis 300 {}) (Sample.genesis 301 {}) →
        SameUnhashed (Sample.genesis 300 {}) (Sample.genesis 301 {})) := by
  have hshape : SameShape (Sample.genesis 300 {}) (Sample.genesis 301 {}) := ⟨rfl, rfl, rfl, rfl⟩
  have hcut : ¬ Recut (Sample.genesis 300 {}) (Sample.genesis 301 {}) := fun h => h.1 hshape
  refine ⟨hcut, fun hrest => ?_⟩
  have hagree := (fingerprint_iff sampleCrypto (Sample.fits 300 {}) (Sample.fits 301 {}) id).2
    ⟨hcut, hrest⟩ rfl
  exact absurd hagree.2.systemCoin (by decide)

end GenesisBlock

end Consensus

end Rensa
