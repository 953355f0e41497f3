import Rensa.Vm.Model.Output
import Rensa.Vm.State
/-!
# What the state hash of a block commits to

Validators accept a block when the hash of its output is the one the
block declares. For SHA3-256 without collisions that hash fixes the
addresses the diff sets and the bytes hashed for each account there, and
nothing else: not the addresses it deletes, not whether bytes are an
owner or data, not whether there is data at all, not the executable
flag. Two outputs of one hash have the same effect on every store exactly
when they agree on these.
-/

namespace Rensa

namespace Account

variable {a b : Account}

/-- The two accounts agree on which of their optional fields are there. -/
def SameShape (a b : Account) : Prop :=
  a.owner.isSome = b.owner.isSome ∧ a.data.isSome = b.data.isSome

/-- **The hashed bytes and the shape of an account determine what is
stored of it.** -/
theorem serialize_eq_of_message_eq (ha : a.nonce < 2 ^ 64) (hb : b.nonce < 2 ^ 64)
    (h : a.message = b.message) (hshape : SameShape a b) : a.serialize = b.serialize := by
  simp only [message, List.append_assoc] at h
  obtain ⟨hnonce, h⟩ := List.append_inj h (by simp)
  have hn : a.nonce = b.nonce := leBytes_inj (by omega) (by omega) hnonce
  obtain ⟨howner, hdata⟩ := hshape
  -- the owners have the same width, since both are there or neither is
  have hwidth : ((a.owner.map Pubkey.bytes).getD []).length =
      ((b.owner.map Pubkey.bytes).getD []).length := by
    cases hao : a.owner <;> cases hbo : b.owner <;> simp_all
  obtain ⟨ho, hd⟩ := List.append_inj h hwidth
  have hown : a.owner = b.owner := by
    cases hao : a.owner <;> cases hbo : b.owner <;> simp_all [Pubkey.bytes_injective.eq_iff]
  have hdat : a.data = b.data := by
    cases had : a.data <;> cases hbd : b.data <;> simp_all
  simp only [serialize, hn, hown, hdat]

/-- For accounts of one message, being stored alike is having the same
shape. -/
theorem serialize_eq_iff (ha : a.nonce < 2 ^ 64) (hb : b.nonce < 2 ^ 64)
    (h : a.message = b.message) : a.serialize = b.serialize ↔ SameShape a b := by
  refine ⟨fun hser => ?_, serialize_eq_of_message_eq ha hb h⟩
  have howner : a.serialize.owner = b.serialize.owner := by rw [hser]
  have hdata : a.serialize.data = b.serialize.data := by rw [hser]
  exact ⟨congrArg Option.isSome howner, congrArg Option.isSome hdata⟩

theorem eq_iff_serialize : a = b ↔ a.serialize = b.serialize ∧ a.executable = b.executable := by
  constructor
  · rintro rfl
    exact ⟨rfl, rfl⟩
  · rintro ⟨h, hex⟩
    simp only [serialize, StoredAccount.mk.injEq] at h
    obtain ⟨hn, ho, hd⟩ := h
    cases a
    cases b
    simp_all

end Account

/-- Nothing stored is lost when it is read. -/
theorem StoredAccount.deserialize_injective : Function.Injective StoredAccount.deserialize := by
  rintro ⟨nonce, owner, data⟩ ⟨nonce', owner', data'⟩ h
  simpa [deserialize] using h

namespace StateDiff

variable {d e : StateDiff}

/-- Every nonce fits the type it has in the source. -/
def Fits (d : StateDiff) : Prop := ∀ k a, d.get k = some a → a.nonce < 2 ^ 64

/-- The two diffs delete the same addresses. -/
def SameDeletes (d e : StateDiff) : Prop := ∀ k, k ∈ d.deletes ↔ k ∈ e.deletes

/-- Wherever both leave an account, `R` relates the two. -/
def Agree (R : Account → Account → Prop) (d e : StateDiff) : Prop :=
  ∀ k, k ∉ d.deletes → ∀ a b, d.get k = some a → e.get k = some b → R a b

theorem agree_congr {R R' : Account → Account → Prop}
    (h : ∀ k a b, d.get k = some a → e.get k = some b → (R a b ↔ R' a b)) :
    Agree R d e ↔ Agree R' d e := by
  constructor
  · intro hR k hk a b ha hb
    exact (h k a b ha hb).1 (hR k hk a b ha hb)
  · intro hR k hk a b ha hb
    exact (h k a b ha hb).2 (hR k hk a b ha hb)

/-- **Two diffs that set the same addresses have one effect** on every
store that keeps accounts through `f`, exactly when they delete the same
addresses and what they leave is kept alike. -/
theorem forall_batch_eq_iff {β : Type} [Inhabited β] (f : Account → β)
    (hkeys : ∀ k, (d.get k).isSome = (e.get k).isSome) :
    (∀ db : Pubkey → Option β,
      d.iter.foldl (fun db p => Function.update db p.1 (p.2.map f)) db =
        e.iter.foldl (fun db p => Function.update db p.1 (p.2.map f)) db) ↔
      SameDeletes d e ∧ Agree (fun a b => f a = f b) d e := by
  simp only [funext_iff, foldl_iter]
  constructor
  · intro h
    -- over a store with something everywhere, only a deletion leaves nothing
    have hdel : SameDeletes d e := by
      intro k
      have hk := h (fun _ => some default) k
      by_cases hd : k ∈ d.deletes <;> by_cases he : k ∈ e.deletes <;>
        cases hdk : d.get k <;> cases hek : e.get k <;> simp_all
    refine ⟨hdel, ?_⟩
    intro k hk a b ha hb
    have hval := h (fun _ => none) k
    rw [if_neg hk, if_neg ((hdel k).not.1 hk), ha, hb] at hval
    exact Option.some.inj hval
  · rintro ⟨hdel, hagree⟩ db k
    by_cases hk : k ∈ d.deletes
    · rw [if_pos hk, if_pos ((hdel k).1 hk)]
    · rw [if_neg hk, if_neg ((hdel k).not.1 hk)]
      have hsome := hkeys k
      cases ha : d.get k with
      | none =>
        rw [ha, Option.isSome_none, eq_comm, Option.isSome_eq_false_iff, Option.isNone_iff_eq_none]
          at hsome
        rw [hsome]
      | some a =>
        rw [ha, Option.isSome_some, eq_comm, Option.isSome_iff_exists] at hsome
        obtain ⟨b, hb⟩ := hsome
        rw [hb]
        exact congrArg some (hagree k hk a b ha hb)

variable {H : Type} {C : Crypto H} {toBytes : H → Bytes}

/-- **The hashed bytes of a diff** fix the addresses it sets and the hash
of the account at each of them. -/
theorem exists_get_of_message_eq (hwidth : ∀ m, (toBytes (C.sha3 m)).length = 34)
    (h : d.message C toBytes = e.message C toBytes) {k : Pubkey} {a : Account}
    (ha : d.get k = some a) :
    ∃ b, e.get k = some b ∧ toBytes (a.hash C) = toBytes (b.hash C) := by
  rw [message, message, List.flatMap_def, List.flatMap_def] at h
  have hword : ∀ m : Std.ExtTreeMap Pubkey Account,
      ∀ x ∈ m.toList.map (fun p => p.1.bytes ++ toBytes (p.2.hash C)), x.length = 66 := by
    intro m x hx
    obtain ⟨p, -, rfl⟩ := List.mem_map.1 hx
    rw [List.length_append, Pubkey.length_bytes, Account.hash, hwidth]
  have hwords := flatten_inj_of_width (by omega) (hword _) (hword _) h
  have hmem : k.bytes ++ toBytes (a.hash C) ∈
      e.data.toList.map fun p => p.1.bytes ++ toBytes (p.2.hash C) := by
    rw [← hwords]
    exact List.mem_map.2 ⟨(k, a), Std.ExtTreeMap.mem_toList_iff_getElem?_eq_some.2 ha, rfl⟩
  obtain ⟨⟨k', b⟩, hp, heq⟩ := List.mem_map.1 hmem
  obtain ⟨hk, hhash⟩ := List.append_inj heq (by simp)
  obtain rfl := Pubkey.bytes_injective hk
  exact ⟨b, Std.ExtTreeMap.mem_toList_iff_getElem?_eq_some.1 hp, hhash.symm⟩

/-- The messages hashed for the accounts of a diff. -/
def accountMessages (d : StateDiff) : List Bytes := d.data.toList.map fun p => p.2.message

theorem message_mem_accountMessages {k : Pubkey} {a : Account} (ha : d.get k = some a) :
    a.message ∈ d.accountMessages :=
  List.mem_map.2 ⟨(k, a), Std.ExtTreeMap.mem_toList_iff_getElem?_eq_some.2 ha, rfl⟩

end StateDiff

section Stores

variable {d e : StateDiff}

/-- Two diffs of the same addresses, applied to every persistent store. -/
theorem PersistentState.forall_apply_eq_iff
    (hkeys : ∀ k, (d.get k).isSome = (e.get k).isSome) :
    (∀ s : PersistentState, (s.apply d).get = (s.apply e).get) ↔
      StateDiff.SameDeletes d e ∧ StateDiff.Agree (fun a b => a.serialize = b.serialize) d e := by
  have : Inhabited StoredAccount := ⟨(default : Account).serialize⟩
  rw [← StateDiff.forall_batch_eq_iff Account.serialize hkeys]
  constructor
  · intro h db
    funext k
    have hk := congrFun (h ⟨db⟩) k
    exact Option.map_injective StoredAccount.deserialize_injective hk
  · intro h s
    funext k
    exact congrArg (Option.map StoredAccount.deserialize) (congrFun (h s.db) k)

/-- Two diffs of the same addresses, applied to every store of the tests. -/
theorem InMemState.forall_apply_eq_iff
    (hkeys : ∀ k, (d.get k).isSome = (e.get k).isSome) :
    (∀ s : InMemState, (s.apply d).db = (s.apply e).db) ↔
      StateDiff.SameDeletes d e ∧ StateDiff.Agree (fun a b => a = b) d e := by
  have h := StateDiff.forall_batch_eq_iff id hkeys
  simp only [Option.map_id_fun, id_eq] at h
  rw [← h]
  exact ⟨fun hs db => hs ⟨db⟩, fun hdb s => hdb s.db⟩

end Stores

namespace BlockOutput

variable {H : Type} {C : Crypto H} {toBytes : H → Bytes} {o o' : BlockOutput H}

/-- The messages SHA3-256 is given on the way to the hash of an output,
down to its accounts. -/
def messages (C : Crypto H) (toBytes : H → Bytes) (o : BlockOutput H) : List Bytes :=
  o.message C toBytes :: o.state.message C toBytes :: o.state.accountMessages

/-- **SHA3-256 has no collision** among some messages. -/
def CollisionFree (C : Crypto H) (toBytes : H → Bytes) (ms : List Bytes) : Prop :=
  ∀ m ∈ ms, ∀ m' ∈ ms, toBytes (C.sha3 m) = toBytes (C.sha3 m') → m = m'

theorem CollisionFree.mono {ms ms' : List Bytes} (h : CollisionFree C toBytes ms)
    (hsub : ∀ m, m ∈ ms' → m ∈ ms) : CollisionFree C toBytes ms' :=
  fun m hm m' hm' => h m (hsub m hm) m' (hsub m' hm')

/-- What equal hashes say about the two diffs: they set the same
addresses, and the accounts there have the same hashed bytes. -/
theorem accounts_of_hash_eq (hwidth : ∀ m, (toBytes (C.sha3 m)).length = 34)
    (hfree : CollisionFree C toBytes (o.messages C toBytes ++ o'.messages C toBytes))
    (heq : o.hash C toBytes = o'.hash C toBytes) {k : Pubkey} {a : Account}
    (ha : o.state.get k = some a) :
    ∃ b, o'.state.get k = some b ∧ a.message = b.message := by
  have hout : o.message C toBytes = o'.message C toBytes :=
    hfree _ (by simp [messages]) _ (by simp [messages]) (congrArg toBytes heq)
  simp only [message, List.append_assoc] at hout
  obtain ⟨hstate, -⟩ := List.append_inj hout (by
    rw [StateDiff.hash, StateDiff.hash, hwidth, hwidth])
  have hmsg : o.state.message C toBytes = o'.state.message C toBytes :=
    hfree _ (by simp [messages]) _ (by simp [messages]) hstate
  obtain ⟨b, hb, hhash⟩ := StateDiff.exists_get_of_message_eq hwidth hmsg ha
  refine ⟨b, hb, hfree _ ?_ _ ?_ hhash⟩
  · have := StateDiff.message_mem_accountMessages ha
    simp [messages, this]
  · have := StateDiff.message_mem_accountMessages hb
    simp [messages, this]

/-- **The state hash commits to the effect of a block, but for what it
leaves out.** Two outputs of one hash leave every persistent store the
same exactly when they delete the same addresses and the accounts they
leave at an address agree on having an owner and on having data; on a
store that keeps the executable flag, exactly when the accounts agree on
the flag too. -/
theorem hash_commits_iff (hwidth : ∀ m, (toBytes (C.sha3 m)).length = 34)
    (hfit : o.state.Fits) (hfit' : o'.state.Fits)
    (hfree : CollisionFree C toBytes (o.messages C toBytes ++ o'.messages C toBytes))
    (heq : o.hash C toBytes = o'.hash C toBytes) :
    ((∀ s : PersistentState, (s.apply o.state).get = (s.apply o'.state).get) ↔
      StateDiff.SameDeletes o.state o'.state ∧
        StateDiff.Agree Account.SameShape o.state o'.state) ∧
    ((∀ s : InMemState, (s.apply o.state).db = (s.apply o'.state).db) ↔
      StateDiff.SameDeletes o.state o'.state ∧
        StateDiff.Agree (fun a b => Account.SameShape a b ∧ a.executable = b.executable)
          o.state o'.state) := by
  have hmsg : ∀ {k a}, o.state.get k = some a →
      ∃ b, o'.state.get k = some b ∧ a.message = b.message :=
    accounts_of_hash_eq hwidth hfree heq
  have hmsg' : ∀ {k a}, o'.state.get k = some a →
      ∃ b, o.state.get k = some b ∧ a.message = b.message :=
    accounts_of_hash_eq hwidth
      (hfree.mono fun m => by simp only [List.mem_append, or_comm, imp_self]) heq.symm
  have hkeys : ∀ k, (o.state.get k).isSome = (o'.state.get k).isSome := by
    intro k
    rw [Bool.eq_iff_iff, Option.isSome_iff_exists, Option.isSome_iff_exists]
    constructor
    · rintro ⟨a, ha⟩
      obtain ⟨b, hb, -⟩ := hmsg ha
      exact ⟨b, hb⟩
    · rintro ⟨a, ha⟩
      obtain ⟨b, hb, -⟩ := hmsg' ha
      exact ⟨b, hb⟩
  have hshape : ∀ k a b, o.state.get k = some a → o'.state.get k = some b →
      (a.serialize = b.serialize ↔ Account.SameShape a b) := by
    intro k a b ha hb
    obtain ⟨b', hb', heq'⟩ := hmsg ha
    obtain rfl : b' = b := Option.some.inj (hb'.symm.trans hb)
    exact Account.serialize_eq_iff (hfit k a ha) (hfit' k b' hb) heq'
  constructor
  · rw [PersistentState.forall_apply_eq_iff hkeys]
    exact and_congr_right fun _ => StateDiff.agree_congr hshape
  · rw [InMemState.forall_apply_eq_iff hkeys]
    refine and_congr_right fun _ => StateDiff.agree_congr fun k a b ha hb => ?_
    rw [Account.eq_iff_serialize, hshape k a b ha hb]

namespace Sample

/-- A polynomial in the bytes, in the place of SHA3-256. -/
def sha3 (bs : Bytes) : Fin (2 ^ 256) :=
  Fin.ofNat _ (bs.foldl (fun acc b => acc * 257 + b.toNat + 1) 0)

/-- A `Crypto` with 32-byte digests, in which nothing is on the curve. -/
def crypto : Crypto (Fin (2 ^ 256)) where
  sha3 := sha3
  digest h := leBytes 32 h
  hasPrivateKey _ := false
  verify _ _ _ := false
  toBase58 k := toString k.val.val
  bump_ends _ _ := ⟨0, by norm_num, rfl⟩

/-- The multihash of a SHA3-256 digest: the code, the size, the digest. -/
def wire (h : Fin (2 ^ 256)) : Bytes := 0x16 :: 0x20 :: leBytes 32 h

/-- A block that sets one account. -/
def setting : BlockOutput (Fin (2 ^ 256)) :=
  { state := ({} : StateDiff).set 200 { nonce := 1, owner := some 150, data := some [1, 2] } }

/-- A block that sets it and deletes another one. -/
def deleting : BlockOutput (Fin (2 ^ 256)) :=
  { setting with state := setting.state.remove 300 }

theorem fits_setting : setting.state.Fits := by
  intro k a ha
  rw [setting, StateDiff.get_set, StateDiff.get_empty] at ha
  split at ha
  · obtain rfl := Option.some.inj ha
    norm_num
  · cases ha

theorem collisionFree : CollisionFree crypto wire
    (setting.messages crypto wire ++ deleting.messages crypto wire) := by
  unfold CollisionFree
  decide +kernel

end Sample

/-- The equivalence for the two sample outputs, whose hashes agree. -/
theorem hash_commits_sample :
    Sample.setting.hash Sample.crypto Sample.wire =
      Sample.deleting.hash Sample.crypto Sample.wire ∧
    ((∀ s : PersistentState, (s.apply Sample.setting.state).get =
        (s.apply Sample.deleting.state).get) ↔
      StateDiff.SameDeletes Sample.setting.state Sample.deleting.state ∧
        StateDiff.Agree Account.SameShape Sample.setting.state Sample.deleting.state) :=
  ⟨rfl, (@hash_commits_iff _ Sample.crypto Sample.wire Sample.setting Sample.deleting
    (fun _ => by simp [Sample.wire]) Sample.fits_setting Sample.fits_setting
    Sample.collisionFree rfl).1⟩

/-- **A deletion is not in the hash**: the second block deletes an account
the first one leaves, and both have one state hash. -/
theorem hash_omits_deletion :
    CollisionFree Sample.crypto Sample.wire (Sample.setting.messages Sample.crypto Sample.wire ++
        Sample.deleting.messages Sample.crypto Sample.wire) ∧
      Sample.setting.hash Sample.crypto Sample.wire =
        Sample.deleting.hash Sample.crypto Sample.wire ∧
      (PersistentState.apply ⟨fun _ => some ⟨0, none, none⟩⟩ Sample.setting.state).get 300 ≠
        (PersistentState.apply ⟨fun _ => some ⟨0, none, none⟩⟩ Sample.deleting.state).get 300 :=
  ⟨Sample.collisionFree, rfl, by decide⟩

end BlockOutput

end Rensa
