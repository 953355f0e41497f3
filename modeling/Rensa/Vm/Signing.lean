import Rensa.Vm.Model.Unit
/-!
# What a transaction's signature binds

`hash_fields` hashes the contract, the nonce, the payer, 34 bytes per
account reference and the parameters one after another, and writes
neither how many references there are nor where the parameters start.
The bytes of a reference at the end of the list are as good as the first
bytes of the parameters: this is the only way two transactions share a
signed message.
-/

namespace Rensa

namespace Transaction

variable {H : Type} {C : Crypto H} {tx tx' : Transaction}

/-- The bytes of one account reference in the signed message. -/
def refBytes (r : AccountRef) : Bytes := r.address.bytes ++ [flag r.writable] ++ [flag r.signer]

/-- The bytes `hash_fields` hashes. -/
def fieldBytes (tx : Transaction) : Bytes :=
  tx.contract.bytes ++ leBytes 8 tx.nonce ++ tx.payer.bytes ++
    (tx.accounts.map refBytes).flatten ++ tx.params

/-- The two transactions agree on everything but their signatures. -/
def SameFields (tx tx' : Transaction) : Prop :=
  tx.contract = tx'.contract ∧ tx.nonce = tx'.nonce ∧ tx.payer = tx'.payer ∧
    tx.accounts = tx'.accounts ∧ tx.params = tx'.params

/-- `tx'` lists one or more accounts after those of `tx`, and `tx` has
their bytes at the front of its parameters instead. -/
def Shifts (tx tx' : Transaction) : Prop :=
  tx.contract = tx'.contract ∧ tx.nonce = tx'.nonce ∧ tx.payer = tx'.payer ∧
    ∃ refs, refs ≠ [] ∧ tx'.accounts = tx.accounts ++ refs ∧
      tx.params = (refs.map refBytes).flatten ++ tx'.params

theorem hashFields_eq : tx.hashFields C = C.sha3 tx.fieldBytes := by
  rw [hashFields, fieldBytes, List.flatMap_def]
  rfl

@[simp] theorem length_refBytes (r : AccountRef) : (refBytes r).length = 34 := by
  simp [refBytes]

theorem flag_injective : Function.Injective flag := by
  intro a b h
  cases a <;> cases b <;> simp_all [flag]

theorem refBytes_injective : Function.Injective refBytes := by
  rintro ⟨address, writable, signer⟩ ⟨address', writable', signer'⟩ h
  simp only [refBytes, List.append_assoc] at h
  obtain ⟨haddr, hflags⟩ := List.append_inj h (by simp)
  obtain ⟨hw, hs⟩ : flag writable = flag writable' ∧ flag signer = flag signer' := by
    simpa using hflags
  rw [Pubkey.bytes_injective haddr, flag_injective hw, flag_injective hs]

/-- A shift leaves the signed bytes as they are. -/
theorem Shifts.fieldBytes_eq (h : Shifts tx tx') : tx.fieldBytes = tx'.fieldBytes := by
  obtain ⟨hc, hn, hp, refs, -, hacc, hparams⟩ := h
  rw [fieldBytes, fieldBytes, hc, hn, hp, hacc, hparams]
  simp

theorem Shifts.not_sameFields (h : Shifts tx tx') : ¬ SameFields tx tx' := by
  rintro ⟨-, -, -, hsame, -⟩
  obtain ⟨-, -, -, refs, hne, hacc, -⟩ := h
  rw [hsame] at hacc
  exact hne (List.append_right_eq_self.1 hacc.symm)

theorem SameFields.symm (h : SameFields tx tx') : SameFields tx' tx :=
  ⟨h.1.symm, h.2.1.symm, h.2.2.1.symm, h.2.2.2.1.symm, h.2.2.2.2.symm⟩

/-- One list of references against a longer one: a shift, unless nothing
is left over. -/
private theorem sameFields_or_shifts (hc : tx.contract = tx'.contract) (hn : tx.nonce = tx'.nonce)
    (hp : tx.payer = tx'.payer) {rs : List Bytes}
    (hacc : tx'.accounts.map refBytes = tx.accounts.map refBytes ++ rs)
    (hparams : tx.params = rs.flatten ++ tx'.params) : SameFields tx tx' ∨ Shifts tx tx' := by
  obtain ⟨same, refs, hsplit, hsame, hrefs⟩ := List.map_eq_append_iff.1 hacc
  obtain rfl : same = tx.accounts := refBytes_injective.list_map hsame
  by_cases hnil : refs = []
  · refine .inl ⟨hc, hn, hp, by rw [hsplit, hnil, List.append_nil], ?_⟩
    rw [hparams, ← hrefs, hnil]
    rfl
  · exact .inr ⟨hc, hn, hp, refs, hnil, hsplit, by rw [hparams, hrefs]⟩

/-- Three fields of fixed width are at the front of the signed bytes, and
of the id. -/
theorem front_inj (hn : tx.nonce < 2 ^ 64) (hn' : tx'.nonce < 2 ^ 64) {body body' : Bytes}
    (h : tx.contract.bytes ++ (leBytes 8 tx.nonce ++ (tx.payer.bytes ++ body)) =
      tx'.contract.bytes ++ (leBytes 8 tx'.nonce ++ (tx'.payer.bytes ++ body'))) :
    tx.contract = tx'.contract ∧ tx.nonce = tx'.nonce ∧ tx.payer = tx'.payer ∧ body = body' := by
  obtain ⟨hcontract, h⟩ := List.append_inj h (by simp)
  obtain ⟨hnonce, h⟩ := List.append_inj h (by simp)
  obtain ⟨hpayer, h⟩ := List.append_inj h (by simp)
  exact ⟨Pubkey.bytes_injective hcontract, leBytes_inj (by omega) (by omega) hnonce,
    Pubkey.bytes_injective hpayer, h⟩

/-- **The signed bytes determine the fields up to a shift.** -/
theorem sameFields_of_fieldBytes_eq (hn : tx.nonce < 2 ^ 64) (hn' : tx'.nonce < 2 ^ 64)
    (h : tx.fieldBytes = tx'.fieldBytes) :
    SameFields tx tx' ∨ Shifts tx tx' ∨ Shifts tx' tx := by
  simp only [fieldBytes, List.append_assoc] at h
  -- three fields of fixed width, then the references against each other
  obtain ⟨hc, hnn, hp, h⟩ := front_inj hn hn' h
  have hwidth : ∀ l : List AccountRef, ∀ x ∈ l.map refBytes, x.length = 34 := by
    intro l x hx
    obtain ⟨r, -, rfl⟩ := List.mem_map.1 hx
    exact length_refBytes r
  rcases flatten_append_cases (hwidth _) (hwidth _) h with ⟨rs, hacc, hparams⟩ | ⟨rs, hacc, hparams⟩
  · exact (sameFields_or_shifts hc hnn hp hacc hparams).imp_right .inl
  · exact (sameFields_or_shifts hc.symm hnn.symm hp.symm hacc hparams).imp SameFields.symm .inr

/-- **When a signature binds one transaction.** For SHA3-256 without a
collision on the two messages, equal messages mean equal fields exactly
when neither transaction is a shift of the other. A signature that binds
its message then never verifies for both; across a shift, a signature of
the payer verifies for both or for neither. -/
theorem signed_message_binds_iff (hn : tx.nonce < 2 ^ 64) (hn' : tx'.nonce < 2 ^ 64)
    (hfree : C.digest (C.sha3 tx.fieldBytes) = C.digest (C.sha3 tx'.fieldBytes) →
      tx.fieldBytes = tx'.fieldBytes) :
    ((C.digest (tx.hashFields C) = C.digest (tx'.hashFields C) → SameFields tx tx') ↔
      ¬ Shifts tx tx' ∧ ¬ Shifts tx' tx) ∧
    (¬ Shifts tx tx' ∧ ¬ Shifts tx' tx → ∀ signature,
      (∀ key m m', C.verifies key m signature = true → C.verifies key m' signature = true →
        m = m') →
      tx.payer = tx'.payer →
      C.verifies tx.payer (C.digest (tx.hashFields C)) signature = true →
      C.verifies tx'.payer (C.digest (tx'.hashFields C)) signature = true → SameFields tx tx') ∧
    (Shifts tx tx' ∨ Shifts tx' tx → ∀ signature,
      C.verifies tx.payer (C.digest (tx.hashFields C)) signature =
        C.verifies tx'.payer (C.digest (tx'.hashFields C)) signature) := by
  simp only [hashFields_eq]
  have hbinds : ¬ Shifts tx tx' ∧ ¬ Shifts tx' tx →
      C.digest (C.sha3 tx.fieldBytes) = C.digest (C.sha3 tx'.fieldBytes) → SameFields tx tx' := by
    rintro ⟨hs, hs'⟩ heq
    rcases sameFields_of_fieldBytes_eq hn hn' (hfree heq) with h | h | h
    · exact h
    · exact absurd h hs
    · exact absurd h hs'
  refine ⟨⟨?_, hbinds⟩, ?_, ?_⟩
  · intro h
    constructor
    · intro hs
      exact hs.not_sameFields (h (by rw [hs.fieldBytes_eq]))
    · intro hs
      exact hs.not_sameFields (h (by rw [hs.fieldBytes_eq])).symm
  · intro hs signature hone hpayer hv hv'
    rw [← hpayer] at hv'
    exact hbinds hs (hone _ _ _ hv hv')
  · rintro (hs | hs) signature
    · rw [hs.fieldBytes_eq, hs.2.2.1]
    · rw [hs.fieldBytes_eq, hs.2.2.1]

namespace Sample

/-- A writable reference nobody has to sign for. -/
def ref : AccountRef := { address := 200, writable := true, signer := false }

/-- The fields of a transaction that lists no account, and has the bytes
of `ref` and one byte more as parameters. -/
def unsigned : Transaction :=
  { contract := 150, nonce := 3, payer := 7, accounts := [], params := refBytes ref ++ [9],
    signatures := [] }

/-- The transaction as its payer signs it. -/
def signed : Transaction :=
  { unsigned with signatures := [Machine.Sample.sign 7 unsigned] }

/-- The same signature under a transaction that lists the account. -/
def moved : Transaction :=
  { signed with accounts := [ref], params := [9] }

end Sample

/-- The equivalence for a transaction and its successor. -/
theorem signed_message_binds_successor :
    Sample.signed.nonce < 2 ^ 64 ∧
    ((sampleCrypto.digest (Sample.signed.hashFields sampleCrypto) =
        sampleCrypto.digest
          (Transaction.hashFields sampleCrypto { Sample.signed with nonce := 4 }) →
      SameFields Sample.signed { Sample.signed with nonce := 4 }) ↔
    ¬ Shifts Sample.signed { Sample.signed with nonce := 4 } ∧
      ¬ Shifts { Sample.signed with nonce := 4 } Sample.signed) :=
  ⟨by decide, (signed_message_binds_iff (C := sampleCrypto) (by decide) (by decide) id).1⟩

/-- **One signature, two transactions**: a writable account is added to
what the payer signed, and every signature still verifies. -/
theorem signed_message_shared :
    Sample.signed.hashFields sampleCrypto = Sample.moved.hashFields sampleCrypto ∧
      Sample.signed.signatures = Sample.moved.signatures ∧
      Sample.signed.verifySignatures sampleCrypto = .ok () ∧
      Sample.moved.verifySignatures sampleCrypto = .ok () ∧
      Sample.signed.accounts ≠ Sample.moved.accounts ∧
      ¬ SameFields Sample.signed Sample.moved := by
  refine ⟨by decide, rfl, by rfl, by rfl, by decide, ?_⟩
  intro h
  exact absurd h.2.2.2.1 (by decide)

end Transaction

end Rensa
