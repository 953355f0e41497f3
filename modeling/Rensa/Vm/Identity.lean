import Rensa.Vm.Signing
/-!
# What the id of a transaction binds

`Transaction::hash` covers other bytes than the signed message does: it
leaves out which accounts sign, and it ends with all signatures of the
transaction, the ones `verify_signatures` looks at and any that follow. So
a signature that nobody checks makes another id of the same transaction,
and as nothing marks where the parameters end, their last bytes are as
good as a signature in front of the others (`Absorbs`). Everything else
about a verified transaction follows from its id.
-/

namespace Rensa

namespace Transaction

variable {H : Type} (C : Crypto H) {tx tx' : Transaction}

/-- The bytes of one account reference in the id. -/
def idRefBytes (r : AccountRef) : Bytes := r.address.bytes ++ [flag r.writable]

/-- The accounts and the parameters in the id. -/
def idBody (tx : Transaction) : Bytes := (tx.accounts.map idRefBytes).flatten ++ tx.params

/-- The bytes the id is the hash of. -/
def idBytes (tx : Transaction) : Bytes :=
  tx.contract.bytes ++ leBytes 8 tx.nonce ++ tx.payer.bytes ++ tx.idBody ++ tx.signatures.flatten

/-- The number of signatures that `verify_signatures` looks at. -/
def required (tx : Transaction) : ℕ := 1 + (tx.accounts.filter AccountRef.signer).length

/-- The signatures of the payer and of the signer accounts. -/
def checked (tx : Transaction) : List Signature := tx.signatures.take tx.required

/-- The signatures that follow them. -/
def extra (tx : Transaction) : List Signature := tx.signatures.drop tx.required

/-- `tx'` carries one or more signatures in front of those of `tx`, which has
their bytes at the end of its parameters instead. -/
def Absorbs (tx tx' : Transaction) : Prop :=
  tx.contract = tx'.contract ∧ tx.nonce = tx'.nonce ∧ tx.payer = tx'.payer ∧
    ∃ front, front ≠ [] ∧ tx'.signatures = front ++ tx.signatures ∧
      tx.idBody = tx'.idBody ++ front.flatten

/-- The signatures of a transaction that verifies. -/
def Verified (tx : Transaction) : Prop := tx.verifySignatures C = .ok ()

instance : Decidable (Verified C tx) :=
  inferInstanceAs (Decidable (tx.verifySignatures C = .ok ()))

/-- Signatures of 64 bytes, and a nonce of 64 bits. -/
structure WellFormed (tx : Transaction) : Prop where
  width : ∀ s ∈ tx.signatures, s.length = 64
  nonce : tx.nonce < 2 ^ 64

theorem hash_eq : tx.hash C = C.sha3 tx.idBytes := by
  rw [hash, idBytes, idBody, List.flatMap_def]
  simp only [List.append_assoc]
  rfl

@[simp] theorem length_idRefBytes (r : AccountRef) : (idRefBytes r).length = 33 := by
  simp [idRefBytes]

theorem length_idBody (tx : Transaction) :
    tx.idBody.length = 33 * tx.accounts.length + tx.params.length := by
  have hwidth : ∀ x ∈ tx.accounts.map idRefBytes, x.length = 33 := by
    intro x hx
    obtain ⟨r, -, rfl⟩ := List.mem_map.1 hx
    exact length_idRefBytes r
  rw [idBody, List.length_append, length_flatten_of_width hwidth, List.length_map, Nat.mul_comm]

variable {C}

/-- The first signature of a verified transaction is its payer's. -/
theorem Verified.payer (h : Verified C tx) : ∃ first rest, tx.signatures = first :: rest ∧
    C.verifies tx.payer (C.digest (tx.hashFields C)) first = true := by
  unfold Verified verifySignatures at h
  cases hs : tx.signatures with
  | nil =>
    rw [hs] at h
    cases h
  | cons first rest =>
    refine ⟨first, rest, rfl, ?_⟩
    simp only [hs] at h
    split at h
    · assumption
    · cases h

/-- **What equal ids share**: all of both transactions, unless one absorbs
a signature of the other. -/
theorem idBytes_cases (hwf : WellFormed tx) (hwf' : WellFormed tx')
    (h : tx.idBytes = tx'.idBytes) :
    (tx.contract = tx'.contract ∧ tx.nonce = tx'.nonce ∧ tx.payer = tx'.payer ∧
      tx.idBody = tx'.idBody ∧ tx.signatures = tx'.signatures) ∨
    Absorbs tx tx' ∨ Absorbs tx' tx := by
  simp only [idBytes, List.append_assoc] at h
  obtain ⟨hc, hn, hp, h⟩ := front_inj hwf.nonce hwf'.nonce h
  rcases append_flatten_cases (by omega) hwf.width hwf'.width h with
    ⟨front, hsigs, hbody⟩ | ⟨front, hsigs, hbody⟩
  · by_cases hnil : front = []
    · subst hnil
      exact .inl ⟨hc, hn, hp, by simpa using hbody, by simpa using hsigs.symm⟩
    · exact .inr (.inl ⟨hc, hn, hp, front, hnil, hsigs, hbody⟩)
  · by_cases hnil : front = []
    · subst hnil
      exact .inl ⟨hc, hn, hp, by simpa using hbody.symm, by simpa using hsigs⟩
    · exact .inr (.inr ⟨hc.symm, hn.symm, hp.symm, front, hnil, hsigs, hbody⟩)

theorem Absorbs.idBytes_eq (h : Absorbs tx tx') : tx.idBytes = tx'.idBytes := by
  obtain ⟨hc, hn, hp, front, -, hsigs, hbody⟩ := h
  rw [idBytes, idBytes, hc, hn, hp, hsigs, hbody]
  simp

/-- The transaction that absorbs a signature has longer parameters or more
accounts. -/
theorem Absorbs.not_sameFields (hwf' : WellFormed tx') (h : Absorbs tx tx') :
    ¬ SameFields tx tx' := by
  rintro ⟨-, -, -, haccounts, hparams⟩
  obtain ⟨-, -, -, front, hne, hsigs, hbody⟩ := h
  have hflat : front.flatten = [] := by
    rw [idBody, idBody, haccounts, hparams] at hbody
    exact List.append_right_eq_self.1 hbody.symm
  refine hne (eq_nil_of_flatten (w := 64) (by omega) (fun s hs => hwf'.width s ?_) hflat)
  rw [hsigs]
  exact List.mem_append_left _ hs

/-- A shift of accounts changes the id: a reference takes one byte less
there than in the message. -/
theorem Shifts.idBody_ne (h : Shifts tx tx') : tx.idBody ≠ tx'.idBody := by
  intro hbody
  obtain ⟨-, -, -, refs, hne, haccounts, hparams⟩ := h
  have hlen := congrArg List.length hbody
  have hwidth : ∀ x ∈ refs.map refBytes, x.length = 34 := by
    intro x hx
    obtain ⟨r, -, rfl⟩ := List.mem_map.1 hx
    exact length_refBytes r
  rw [length_idBody, length_idBody, haccounts, hparams, List.length_append, List.length_append,
    length_flatten_of_width hwidth, List.length_map] at hlen
  have hpos : 0 < refs.length := List.length_pos_of_ne_nil hne
  omega

/-- A signature that binds its message binds the fields of two transactions
that share it, and the accounts and parameters in their ids. -/
theorem sameFields_of_shared (hwf : WellFormed tx) (hwf' : WellFormed tx')
    (hfree : C.digest (C.sha3 tx.fieldBytes) = C.digest (C.sha3 tx'.fieldBytes) →
      tx.fieldBytes = tx'.fieldBytes)
    (hbinds : ∀ m m' s, C.verifies tx.payer m s = true → C.verifies tx.payer m' s = true →
      m = m')
    (hv : Verified C tx) (hv' : Verified C tx') (hpayer : tx.payer = tx'.payer)
    (hbody : tx.idBody = tx'.idBody) (hsigs : tx.signatures = tx'.signatures) :
    SameFields tx tx' := by
  obtain ⟨first, rest, hfirst, hverifies⟩ := hv.payer
  obtain ⟨first', rest', hfirst', hverifies'⟩ := hv'.payer
  obtain ⟨rfl, -⟩ := List.cons.inj (hfirst.symm.trans (hsigs.trans hfirst'))
  rw [← hpayer] at hverifies'
  have hmessage := hbinds _ _ _ hverifies hverifies'
  rw [hashFields_eq, hashFields_eq] at hmessage
  rcases sameFields_of_fieldBytes_eq hwf.nonce hwf'.nonce (hfree hmessage) with h | h | h
  · exact h
  · exact absurd hbody h.idBody_ne
  · exact absurd hbody.symm h.idBody_ne

/-- The id of two transactions that agree on all that is checked. -/
theorem hash_eq_iff_extra (hwf : WellFormed tx) (hwf' : WellFormed tx')
    (hfree : C.sha3 tx.idBytes = C.sha3 tx'.idBytes → tx.idBytes = tx'.idBytes)
    (hsame : SameFields tx tx') (hchecked : tx.checked = tx'.checked) :
    tx.hash C = tx'.hash C ↔ tx.extra = tx'.extra := by
  obtain ⟨hc, hn, hp, haccounts, hparams⟩ := hsame
  have hbody : tx.idBody = tx'.idBody := by rw [idBody, idBody, haccounts, hparams]
  have hsplit : ∀ tx : Transaction,
      tx.signatures.flatten = tx.checked.flatten ++ tx.extra.flatten :=
    fun tx => by rw [← List.flatten_append, checked, extra, List.take_append_drop]
  rw [hash_eq, hash_eq]
  constructor
  · intro h
    have hbytes := hfree h
    rw [idBytes, idBytes, hc, hn, hp, hbody, hsplit tx, hsplit tx', hchecked] at hbytes
    have hflat := List.append_cancel_left (List.append_cancel_left hbytes)
    exact flatten_inj_of_width (by omega) (fun s hs => hwf.width s (List.mem_of_mem_drop hs))
      (fun s hs => hwf'.width s (List.mem_of_mem_drop hs)) hflat
  · intro h
    rw [idBytes, idBytes, hc, hn, hp, hbody, hsplit tx, hsplit tx', hchecked, h]

/-- **When an id is not malleable.** For SHA3-256 without a collision on the
two transactions, and signatures of the payer that verify one message at
most: two verified transactions with the same fields and the same checked
signatures have one id exactly when they carry the same further
signatures; and two verified transactions with one id agree in everything
exactly when neither absorbs signatures of the other. -/
theorem id_binds_iff (hwf : WellFormed tx) (hwf' : WellFormed tx')
    (hfree : C.sha3 tx.idBytes = C.sha3 tx'.idBytes → tx.idBytes = tx'.idBytes)
    (hfree' : C.digest (C.sha3 tx.fieldBytes) = C.digest (C.sha3 tx'.fieldBytes) →
      tx.fieldBytes = tx'.fieldBytes)
    (hbinds : ∀ m m' s, C.verifies tx.payer m s = true → C.verifies tx.payer m' s = true →
      m = m') :
    ((SameFields tx tx' → Verified C tx → Verified C tx' → tx.checked = tx'.checked →
        tx.hash C = tx'.hash C) ↔
      (SameFields tx tx' → Verified C tx → Verified C tx' → tx.checked = tx'.checked →
        tx.extra = tx'.extra)) ∧
    ((Verified C tx → Verified C tx' → tx.hash C = tx'.hash C →
        SameFields tx tx' ∧ tx.signatures = tx'.signatures) ↔
      ¬ (Verified C tx ∧ Verified C tx' ∧ (Absorbs tx tx' ∨ Absorbs tx' tx))) := by
  refine ⟨?_, ?_, ?_⟩
  · have hiff := fun hsame hchecked => hash_eq_iff_extra hwf hwf' hfree hsame hchecked
    exact ⟨fun h hsame hv hv' hchecked => (hiff hsame hchecked).1 (h hsame hv hv' hchecked),
      fun h hsame hv hv' hchecked => (hiff hsame hchecked).2 (h hsame hv hv' hchecked)⟩
  · rintro h ⟨hv, hv', habsorbs | habsorbs⟩
    · have heq : tx.hash C = tx'.hash C := by rw [hash_eq, hash_eq, habsorbs.idBytes_eq]
      exact habsorbs.not_sameFields hwf' (h hv hv' heq).1
    · have heq : tx.hash C = tx'.hash C := by rw [hash_eq, hash_eq, habsorbs.idBytes_eq]
      exact habsorbs.not_sameFields hwf (h hv hv' heq).1.symm
  · intro hnone hv hv' heq
    rw [hash_eq, hash_eq] at heq
    rcases idBytes_cases hwf hwf' (hfree heq) with ⟨-, -, hpayer, hbody, hsigs⟩ | habsorbs
    · exact ⟨sameFields_of_shared hwf hwf' hfree' hbinds hv hv' hpayer hbody hsigs, hsigs⟩
    · exact absurd ⟨hv, hv', habsorbs⟩ hnone

namespace IdSample

/-- 32 bytes of which the first is 255. -/
def digest (bs : Bytes) : Bytes := 255 :: leBytes 31 (leNat bs % (256 ^ 31 - 1))

/-- The address that such bytes spell. -/
theorem offCurve (bs : Bytes) : ¬ (Pubkey.ofBytes (digest bs)).val.val < 100 := by
  have hval : leNat (digest bs).reverse =
      leNat (leBytes 31 (leNat bs % (256 ^ 31 - 1))).reverse + 256 ^ 31 * 255 := by
    rw [digest, List.reverse_cons, leNat_append, List.length_reverse, length_leBytes]
    rfl
  have hlt := leNat_lt (leBytes 31 (leNat bs % (256 ^ 31 - 1))).reverse
  rw [List.length_reverse, length_leBytes] at hlt
  change ¬ leNat (digest bs).reverse % 2 ^ 256 < 100
  rw [hval]
  omega

/-- Signatures of 64 bytes: a key of 32 and a message of 32. -/
def crypto : Crypto Bytes where
  sha3 := id
  digest := digest
  hasPrivateKey k := decide (k.val.val < 100)
  verify k message signature := signature == k.bytes ++ message
  toBase58 k := toString k.val.val
  bump_ends _ _ := ⟨0, by norm_num, decide_eq_false (offCurve _)⟩

theorem verifies_iff {key : Pubkey} {m : Bytes} {s : Signature} :
    crypto.verifies key m s = true → s = key.bytes ++ m := by
  simp [Crypto.verifies, crypto]

theorem binds (key : Pubkey) (m m' : Bytes) (s : Signature) (h : crypto.verifies key m s = true)
    (h' : crypto.verifies key m' s = true) : m = m' :=
  List.append_cancel_left ((verifies_iff h).symm.trans (verifies_iff h'))

/-- The signature of key 7. -/
def sign (tx : Transaction) : Signature := (7 : Pubkey).bytes ++ digest (tx.hashFields crypto)

/-- A transaction without accounts, before it is signed. -/
def unsigned (params : Bytes) : Transaction :=
  { contract := 150, nonce := 3, payer := 7, accounts := [], params, signatures := [] }

/-- The transaction as its payer signs it. -/
def signed (params : Bytes) : Transaction :=
  { unsigned params with signatures := [sign (unsigned params)] }

/-- The same transaction with a signature that nobody checks. -/
def padded : Transaction :=
  { signed [9] with signatures := [sign (unsigned [9]), List.replicate 64 0] }

/-- A transaction with another one's signature as the end of its
parameters. -/
def longer : Transaction := signed ([9] ++ sign (unsigned [9]))

/-- The other one, with the signature of the first after its own. -/
def shorter : Transaction :=
  { unsigned [9] with
    signatures := sign (unsigned [9]) :: (signed ([9] ++ sign (unsigned [9]))).signatures }

end IdSample

/-- **Two ids of one transaction, one id of two**: a signature is appended
to a signed transaction, which still verifies, and has another id; and the
payer signs two transactions with different parameters and one id. -/
theorem id_malleable :
    (SameFields (IdSample.signed [9]) IdSample.padded ∧
      Verified IdSample.crypto (IdSample.signed [9]) ∧
      Verified IdSample.crypto IdSample.padded ∧
      (IdSample.signed [9]).checked = IdSample.padded.checked ∧
      (IdSample.signed [9]).hash IdSample.crypto ≠ IdSample.padded.hash IdSample.crypto) ∧
    Verified IdSample.crypto IdSample.longer ∧ Verified IdSample.crypto IdSample.shorter ∧
      IdSample.longer.hash IdSample.crypto = IdSample.shorter.hash IdSample.crypto ∧
      ¬ SameFields IdSample.longer IdSample.shorter := by
  refine ⟨⟨⟨rfl, rfl, rfl, rfl, rfl⟩, by decide +kernel, by decide +kernel, by decide +kernel,
    by decide +kernel⟩, by decide +kernel, by decide +kernel, by decide +kernel, ?_⟩
  intro h
  exact absurd h.2.2.2.2 (by decide +kernel)

/-- The equivalences for a signed transaction and its successor. -/
theorem id_binds_successor :
    let tx := IdSample.signed [9]
    let tx' := IdSample.signed [10]
    WellFormed tx ∧ WellFormed tx' ∧
    ((Verified IdSample.crypto tx → Verified IdSample.crypto tx' →
        tx.hash IdSample.crypto = tx'.hash IdSample.crypto →
        SameFields tx tx' ∧ tx.signatures = tx'.signatures) ↔
      ¬ (Verified IdSample.crypto tx ∧ Verified IdSample.crypto tx' ∧
        (Absorbs tx tx' ∨ Absorbs tx' tx))) := by
  intro tx tx'
  have hwf : WellFormed tx := ⟨by decide, by decide⟩
  have hwf' : WellFormed tx' := ⟨by decide, by decide⟩
  exact ⟨hwf, hwf', (id_binds_iff (C := IdSample.crypto) hwf hwf' id
    (fun h => absurd h (by decide +kernel)) (IdSample.binds 7)).2⟩

end Transaction

end Rensa
