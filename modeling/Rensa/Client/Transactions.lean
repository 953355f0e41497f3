import Rensa.Client.Model
import Rensa.Rpc.Nonces
/-!
# Transactions of the client

What the client posts is read by the node as the transaction the node's own
constructor builds of the same fields, and its signatures verify. A batch is
numbered by the client as the node expects it: both ask for the nonce of a
payer once and count on from there, so that the node takes all of a batch, in
its order (`accepted_createManyTransactions`).
-/

namespace Rensa

open Client (TransactionCreationParams Many createTransaction createManyTransactions
  getNextAccountNonce number)

variable {H : Type} {C : Crypto H} {takes : Bytes → Bool}

/-! ## The JSON of a transaction -/

/-- Texts that are read one by one are read together. -/
theorem mapM_map_eq_some {α β γ : Type} {f : α → β} {g : β → Option γ} {e : α → γ} {l : List α}
    (h : ∀ x ∈ l, g (f x) = some (e x)) : (l.map f).mapM g = some (l.map e) := by
  induction l with
  | nil => rfl
  | cons x l ih =>
    rw [List.map_cons, List.mapM_cons, h x List.mem_cons_self,
      ih fun y hy => h y (List.mem_cons_of_mem x hy)]
    rfl

theorem Pubkey.toText_injective : Function.Injective Pubkey.toText := by
  intro k k' h
  have hread := congrArg Pubkey.fromStr h
  rw [Pubkey.fromStr_toText, Pubkey.fromStr_toText] at hread
  exact Option.some.inj hread

namespace Rpc

theorem readAccountRef_write (r : AccountRef) : readAccountRef (writeAccountRef r) = some r := by
  unfold readAccountRef writeAccountRef Client.accountOf
  rw [Pubkey.fromStr_toText]
  rfl

theorem readSignature_encode {signature : Signature} (h : takes signature = true) :
    readSignature takes (Base58.encode signature) = some signature := by
  unfold readSignature
  rw [Base58.decode_encode, Option.bind_some, if_pos h]

/-- **A transaction is read from its JSON.** -/
theorem readTransaction_write {tx : Transaction} (hnonce : tx.nonce < 2 ^ 64)
    (htakes : ∀ signature ∈ tx.signatures, takes signature = true) :
    readTransaction takes (writeTransaction tx) = some tx := by
  have haccounts := mapM_map_eq_some (l := tx.accounts) fun r _ => readAccountRef_write r
  have hsignatures := mapM_map_eq_some (l := tx.signatures) fun x hx =>
    readSignature_encode (htakes x hx)
  rw [List.map_id'] at haccounts hsignatures
  simp only [readTransaction, writeTransaction, Pubkey.fromStr_toText, haccounts,
    Base58.decode_encode, hsignatures]
  exact if_pos hnonce

end Rpc

/-! ## One transaction -/

namespace Transaction

variable {contract : Pubkey} {nonce : ℕ} {payer : Keypair} {refs : List AccountRef}
variable {params : Bytes} {signers : List Keypair}

/-- Each account is paired with the signature of its key. -/
theorem mem_zip_signers {keys : List Pubkey} (m : Bytes)
    (hkeys : keys <+: signers.map Keypair.pubkey) {p : Pubkey × Signature}
    (hp : p ∈ keys.zip (signers.map fun k => k.sign m)) :
    ∃ k ∈ signers, p = (k.pubkey, k.sign m) := by
  induction signers generalizing keys with
  | nil => exact absurd hp (by simp)
  | cons k signers ih =>
    cases keys with
    | nil => exact absurd hp (by simp)
    | cons key keys =>
      obtain ⟨rfl, hrest⟩ := List.cons_prefix_cons.1 hkeys
      rcases List.mem_cons.1 hp with rfl | hp
      · exact ⟨k, List.mem_cons_self, rfl⟩
      · obtain ⟨k', hk', heq⟩ := ih hrest hp
        exact ⟨k', List.mem_cons_of_mem k hk', heq⟩

/-- **The signatures of the constructor verify** where the accounts that have
to sign are, in their order, the first of the signers. -/
theorem verifySignatures_new
    (hrefs : (refs.filter AccountRef.signer).map AccountRef.address <+:
      signers.map Keypair.pubkey)
    (hsign : ∀ k ∈ payer :: signers, ∀ m, C.verifies k.pubkey m (k.sign m) = true) :
    (Transaction.new C contract nonce payer refs params signers).verifySignatures C = .ok () := by
  set tx := Transaction.new C contract nonce payer refs params signers
  have hpayer : C.verifies tx.payer (C.digest (tx.hashFields C))
      (payer.sign (C.digest (tx.hashFields C))) = true := hsign payer List.mem_cons_self _
  have hlen : (((tx.accounts.filter AccountRef.signer).map AccountRef.address).zip
      (signers.map fun k => k.sign (C.digest (tx.hashFields C)))).length =
      ((tx.accounts.filter AccountRef.signer).map AccountRef.address).length := by
    have hle := hrefs.length_le
    rw [List.length_map, List.length_map] at hle
    rw [List.length_zip, List.length_map, List.length_map]
    exact Nat.min_eq_left hle
  have hall : (((tx.accounts.filter AccountRef.signer).map AccountRef.address).zip
      (signers.map fun k => k.sign (C.digest (tx.hashFields C)))).all
      (fun p => C.verifies p.1 (C.digest (tx.hashFields C)) p.2) = true := by
    refine List.all_eq_true.2 fun p hp => ?_
    obtain ⟨k, hk, rfl⟩ := mem_zip_signers _ hrefs hp
    exact hsign k (List.mem_cons_of_mem payer hk) _
  have hsignatures : tx.signatures =
      (payer :: signers).map fun k => k.sign (C.digest (tx.hashFields C)) := rfl
  simp only [verifySignatures, hsignatures, List.map_cons, hpayer, hlen, hall, if_true,
    ne_eq, not_true_eq_false, if_false]

end Transaction

namespace Rpc

variable {limits : Limits} {input : TransactionCreationParams} {refs : List AccountRef}
variable {nonce : ℕ}

/-- What the client is given: accounts under their texts, of which those that
have to sign are the first of the signers, keys that sign, and no more than the
limits allow. -/
structure Ready (C : Crypto H) (takes : Bytes → Bool) (limits : Limits)
    (input : TransactionCreationParams) (refs : List AccountRef) : Prop where
  accounts : input.accounts = refs.map writeAccountRef
  signers : (refs.filter AccountRef.signer).map AccountRef.address <+:
    input.signers.map Keypair.pubkey
  verifies : ∀ k ∈ input.payer :: input.signers, ∀ m, C.verifies k.pubkey m (k.sign m) = true
  takes : ∀ k ∈ input.payer :: input.signers, ∀ m, takes (k.sign m) = true
  maxInputAccounts : refs.length ≤ limits.maxInputAccounts
  maxTransactionParamsSize : input.params.length ≤ limits.maxTransactionParamsSize

/-- What the node's own constructor makes of the same fields. -/
def transactionOf (C : Crypto H) (input : TransactionCreationParams) (refs : List AccountRef)
    (nonce : ℕ) : Transaction :=
  .new C input.contract nonce input.payer refs input.params input.signers

/-- **The client builds the JSON of that transaction.** -/
theorem createTransaction_eq (haccounts : input.accounts = refs.map writeAccountRef) :
    createTransaction C nonce input =
      some (writeTransaction (transactionOf C input refs nonce)) := by
  have hhashed : ∀ r ∈ refs, (writeAccountRef r).hashed =
      some (r.address.bytes ++ [Transaction.flag r.writable] ++ [Transaction.flag r.signer]) :=
    fun r _ => by
      unfold Client.AccountRef.hashed writeAccountRef Client.accountOf Pubkey.toText
      rw [Base58.decode_encode]
      rfl
  unfold createTransaction
  rw [haccounts, mapM_map_eq_some hhashed, Option.map_some, ← List.flatMap_def]
  simp only [writeTransaction, transactionOf, Transaction.new,
    Transaction.hashFields, List.map_map, Function.comp_def]

theorem Ready.readTransaction (h : Ready C takes limits input refs)
    (hnonce : nonce < 2 ^ 64) :
    readTransaction takes (writeTransaction (transactionOf C input refs nonce)) =
      some (transactionOf C input refs nonce) := by
  refine Rpc.readTransaction_write hnonce fun signature hsignature => ?_
  obtain ⟨k, hk, rfl⟩ := List.mem_map.1 hsignature
  exact h.takes k hk _

theorem Ready.verifySignatures (h : Ready C takes limits input refs) :
    (transactionOf C input refs nonce).verifySignatures C = .ok () :=
  Transaction.verifySignatures_new h.signers h.verifies

theorem Ready.verifyLimits (h : Ready C takes limits input refs) :
    (transactionOf C input refs nonce).verifyLimits limits = .ok () := by
  unfold Transaction.verifyLimits
  exact (if_neg (Nat.not_lt.2 h.maxInputAccounts)).trans
    (if_neg (Nat.not_lt.2 h.maxTransactionParamsSize))

/-! ## A batch -/

variable {s : ServiceSharedState H} {fuel : ℕ} {n : Pubkey → ℕ} {p : Pubkey}
variable {inputs : List TransactionCreationParams} {m : Many} {b : Batch H} {tx : Transaction}

/-- The client begins with the nonce that the node expects first. -/
theorem next_of_accountNonce {k : ℕ} (h : s.accountNonce fuel p = some k) :
    (s.serveAccount fuel p).bind getNextAccountNonce = number (k + 1) := by
  obtain ⟨acc, hacc, rfl⟩ := ServiceSharedState.accountNonce_eq_some_iff.1 h
  unfold ServiceSharedState.serveAccount
  rw [hacc, Option.map_some, Option.bind_some]
  cases acc.or (s.state p) <;> rfl

theorem number_of_lt {k : ℕ} (h : k < 2 ^ 53) : number k = some k := if_pos h

/-- **A transaction that has the expected nonce is sent.** -/
theorem serve_expected (hopen : ∀ i, s.sender i = true) (h : s.Checked C tx)
    (hexp : s.expectedNonce fuel b tx.payer = some tx.nonce) :
    s.serveTransaction C fuel b tx = .ok
      { outputs := b.outputs ++ [(tx.hash C, .ok)]
        nonces := Function.update b.nonces tx.payer (some tx.nonce)
        sent := b.sent ++ [tx] } := by
  simp only [ServiceSharedState.serveTransaction, h.1, h.2, hexp, hopen, if_true, ne_eq,
    not_true_eq_false, if_false]

/-- The transactions of a payer. -/
def paidBy (p : Pubkey) (txs : List Transaction) : List Transaction :=
  txs.filter fun tx => tx.payer = p

theorem paidBy_concat (p : Pubkey) (txs : List Transaction) (tx : Transaction) :
    paidBy p (txs ++ [tx]) = if tx.payer = p then paidBy p txs ++ [tx] else paidBy p txs := by
  unfold paidBy
  rw [List.filter_append]
  split <;> simp [*]

variable (s C takes n) in
/-- **The client and the node in step**: what the client has built is what the
node has sent on, both expect the same nonces, and those of a payer follow the
one in the state. -/
structure Together (inputs : List TransactionCreationParams) (m : Many) (b : Batch H) :
    Prop where
  nonces : ∀ p, m.nonces p.toText = b.nonces p
  known : ∀ p, b.nonces p =
    if paidBy p b.sent = [] then none else some (n p + (paidBy p b.sent).length)
  sequence : ∀ p, (paidBy p b.sent).map Transaction.nonce =
    List.range' (n p + 1) (paidBy p b.sent).length
  transactions : m.transactions = b.sent.map writeTransaction
  readable : ∀ tx ∈ b.sent, readTransaction takes (writeTransaction tx) = some tx
  outputs : b.outputs = b.sent.map fun tx => (tx.hash C, .ok)
  carried : List.Forall₂ (fun input tx => ∃ refs, input.accounts = refs.map writeAccountRef ∧
    tx = transactionOf C input refs tx.nonce) inputs b.sent

theorem Together.empty : Together C takes n [] {} ({} : Batch H) where
  nonces _ := rfl
  known _ := rfl
  sequence _ := rfl
  transactions := rfl
  readable _ h := absurd h List.not_mem_nil
  outputs := rfl
  carried := .nil

namespace Together

variable {input : TransactionCreationParams} {refs : List AccountRef}

/-- Both number the next transaction of a payer alike. -/
theorem next_nonce (h : Together C takes n inputs m b)
    (hnonce : s.accountNonce fuel p = some (n p)) (hsmall : n p + inputs.length + 1 < 2 ^ 53) :
    let nonce := n p + (paidBy p b.sent).length + 1
    nonce < 2 ^ 53 ∧ s.expectedNonce fuel b p = some nonce ∧
      m.nonce (s.serveAccount fuel) p = some nonce := by
  intro nonce
  have hle : (paidBy p b.sent).length ≤ inputs.length := by
    rw [h.carried.length_eq]
    exact List.length_filter_le _ _
  have hlt : nonce < 2 ^ 53 := by omega
  have hmod : nonce % 2 ^ 64 = nonce := Nat.mod_eq_of_lt (by omega)
  refine ⟨hlt, ?_, ?_⟩
  · unfold ServiceSharedState.expectedNonce
    rw [h.known p]
    split_ifs with hnil
    · simp only [hnonce, Option.map_some]
      rw [← hmod]
      simp only [nonce, hnil, List.length_nil, Nat.add_zero]
    · exact congrArg some hmod
  · unfold Many.nonce
    rw [h.nonces p, h.known p]
    split_ifs with hnil
    · dsimp only
      rw [next_of_accountNonce hnonce]
      simp only [nonce, hnil, List.length_nil, Nat.add_zero] at hlt ⊢
      exact number_of_lt hlt
    · exact number_of_lt hlt

/-- A transaction of the next nonce of its payer keeps them in step. -/
theorem snoc (h : Together C takes n inputs m b)
    (hnonce : tx.nonce = n tx.payer + (paidBy tx.payer b.sent).length + 1)
    (hread : readTransaction takes (writeTransaction tx) = some tx)
    (hcarried : ∃ refs, input.accounts = refs.map writeAccountRef ∧
      tx = transactionOf C input refs tx.nonce) :
    Together C takes n (inputs ++ [input])
      { transactions := m.transactions ++ [writeTransaction tx]
        nonces := Function.update m.nonces tx.payer.toText (some tx.nonce) }
      { outputs := b.outputs ++ [(tx.hash C, .ok)]
        nonces := Function.update b.nonces tx.payer (some tx.nonce)
        sent := b.sent ++ [tx] } where
  nonces p := by
    dsimp only
    by_cases hp : p = tx.payer
    · rw [hp, Function.update_self, Function.update_self]
    · rw [Function.update_of_ne hp, ← h.nonces p,
        Function.update_of_ne fun heq => hp (Pubkey.toText_injective heq)]
  known p := by
    dsimp only
    rw [paidBy_concat]
    by_cases hp : tx.payer = p
    · subst hp
      rw [Function.update_self, if_pos rfl, if_neg (List.append_ne_nil_of_right_ne_nil _ (by simp)),
        hnonce, List.length_append, List.length_singleton, Nat.add_assoc]
    · rw [Function.update_of_ne (Ne.symm hp), if_neg hp, h.known p]
  sequence p := by
    dsimp only
    rw [paidBy_concat]
    by_cases hp : tx.payer = p
    · subst hp
      have hlast : tx.nonce = n tx.payer + 1 + 1 * (paidBy tx.payer b.sent).length := by omega
      rw [if_pos rfl, List.map_append, h.sequence, List.length_append, List.length_singleton,
        List.range'_concat, List.map_singleton, hlast]
    · rw [if_neg hp, h.sequence p]
  transactions := by rw [h.transactions, List.map_append, List.map_singleton]
  readable t ht := by
    rcases List.mem_append.1 ht with ht | ht
    · exact h.readable t ht
    · exact List.mem_singleton.1 ht ▸ hread
  outputs := by rw [h.outputs, List.map_append, List.map_singleton]
  carried := List.rel_append h.carried (.cons hcarried .nil)

/-- **One transaction**: the client builds it, and the node sends it on. -/
theorem step (hopen : ∀ i, s.sender i = true) (h : Together C takes n inputs m b)
    (hready : Ready C takes s.limits input refs)
    (hnonce : s.accountNonce fuel input.payer.pubkey = some (n input.payer.pubkey))
    (hsmall : n input.payer.pubkey + inputs.length + 1 < 2 ^ 53) :
    ∃ m' b' tx, Many.next C (s.serveAccount fuel) m input = some m' ∧
      s.serveTransaction C fuel b tx = .ok b' ∧ b'.sent = b.sent ++ [tx] ∧
      Together C takes n (inputs ++ [input]) m' b' := by
  obtain ⟨hlt, hexp, hnext⟩ := h.next_nonce hnonce hsmall
  let nonce := n input.payer.pubkey + (paidBy input.payer.pubkey b.sent).length + 1
  let tx := transactionOf C input refs nonce
  have hchecked : s.Checked C tx := ⟨hready.verifyLimits, hready.verifySignatures⟩
  have hread : readTransaction takes (writeTransaction tx) = some tx :=
    hready.readTransaction (by omega)
  refine ⟨{ transactions := m.transactions ++ [writeTransaction tx]
            nonces := Function.update m.nonces tx.payer.toText (some tx.nonce) }, _, tx, ?_,
    serve_expected hopen hchecked hexp, rfl, h.snoc rfl hread ⟨refs, hready.accounts, rfl⟩⟩
  simp only [Many.next, hnext, createTransaction_eq hready.accounts, Option.map_some]
  rfl

/-- **A batch**: the client builds it to its end, and the node sends all of it
on. -/
theorem run (hopen : ∀ i, s.sender i = true) {rest : List TransactionCreationParams}
    (hready : ∀ input ∈ rest, ∃ refs, Ready C takes s.limits input refs)
    (hnonce : ∀ input ∈ rest, s.accountNonce fuel input.payer.pubkey =
      some (n input.payer.pubkey) ∧
      n input.payer.pubkey + (inputs.length + rest.length) < 2 ^ 53)
    (h : Together C takes n inputs m b) :
    ∃ m' b' txs, rest.foldlM (Many.next C (s.serveAccount fuel)) m = some m' ∧
      txs.foldlM (s.serveTransaction C fuel) b = .ok b' ∧ b'.sent = b.sent ++ txs ∧
      Together C takes n (inputs ++ rest) m' b' := by
  induction rest generalizing inputs m b with
  | nil => exact ⟨m, b, [], rfl, rfl, by simp, by simpa using h⟩
  | cons input rest ih =>
    obtain ⟨refs, hinput⟩ := hready input List.mem_cons_self
    obtain ⟨hfirst, hsmall⟩ := hnonce input List.mem_cons_self
    rw [List.length_cons] at hsmall
    obtain ⟨m₁, b₁, tx, hnext, hserve, hsent, hstep⟩ := h.step hopen hinput hfirst (by omega)
    obtain ⟨m', b', txs, hfold, hserved, hall, htogether⟩ :=
      ih (fun i hi => hready i (List.mem_cons_of_mem input hi)) (fun i hi => by
        obtain ⟨hi, hlt⟩ := hnonce i (List.mem_cons_of_mem input hi)
        rw [List.length_append, List.length_singleton]
        rw [List.length_cons] at hlt
        exact ⟨hi, by omega⟩) hstep
    refine ⟨m', b', tx :: txs, ?_, ?_, ?_, ?_⟩
    · rw [List.foldlM_cons, hnext]
      exact hfold
    · rw [List.foldlM_cons, hserve]
      exact hserved
    · rw [hall, hsent, List.append_assoc, List.singleton_append]
    · rwa [List.append_assoc, List.singleton_append] at htogether

end Together

/-- **A batch of the client is accepted.** Let the client ask a service for the
nonces of its payers, and let the lookups end. Then it builds a batch, whose
texts the node reads as the transactions its own constructor makes of the same
fields, numbered for each payer from the nonce after the one in the state; and
where the batch is posted to the same service, every transaction of it is
answered "ok" and sent on to the node, in order. -/
theorem accepted_createManyTransactions (C : Crypto H) (takes : Bytes → Bool)
    (s : ServiceSharedState H) (hopen : ∀ i, s.sender i = true) (fuel : ℕ) (n : Pubkey → ℕ)
    (inputs : List TransactionCreationParams)
    (hready : ∀ input ∈ inputs, ∃ refs, Ready C takes s.limits input refs)
    (hnonce : ∀ input ∈ inputs, s.accountNonce fuel input.payer.pubkey =
      some (n input.payer.pubkey) ∧ n input.payer.pubkey + inputs.length < 2 ^ 53) :
    ∃ txs posted, createManyTransactions C (s.serveAccount fuel) inputs = some txs ∧
      txs.mapM (readTransaction takes) = some posted ∧
      s.serveSendTransactions C fuel posted =
        some (.accepted (posted.map fun tx => (tx.hash C, "ok")), posted) ∧
      List.Forall₂ (fun input tx => ∃ refs, input.accounts = refs.map writeAccountRef ∧
        tx = transactionOf C input refs tx.nonce) inputs posted ∧
      ∀ p, (paidBy p posted).map Transaction.nonce =
        List.range' (n p + 1) (paidBy p posted).length := by
  have hempty : Together C takes n [] {} ({} : Batch H) := .empty
  obtain ⟨m, b, posted, hfold, hserved, hsent, h⟩ := hempty.run hopen hready
    fun input hi => by simpa using hnonce input hi
  obtain rfl : b.sent = posted := by simpa using hsent
  refine ⟨m.transactions, b.sent, ?_, ?_, ?_, h.carried, h.sequence⟩
  · unfold createManyTransactions
    rw [hfold, Option.map_some]
  · rw [h.transactions, mapM_map_eq_some (e := id) h.readable, List.map_id]
  · unfold ServiceSharedState.serveSendTransactions
    rw [hserved]
    simp only [h.outputs, List.map_map]
    rfl

namespace Sample

open ServiceSharedState.Sample (nonceService inState)

/-- A key on the curve of `sampleCrypto`. -/
def key (k : Pubkey) : Keypair := { pubkey := k, sign := fun m => k.bytes ++ m }

/-- Account 2 has to sign a call that account 1 pays for. -/
def called : AccountRef := { address := 2, writable := false, signer := true }

/-- The call, as the client is given it. -/
def call : TransactionCreationParams where
  contract := 200
  payer := key 1
  accounts := [writeAccountRef called]
  signers := [key 2]
  params := [9]

/-- A signature starts with the address of its key. -/
def signatureFits (bs : Bytes) : Bool := 32 ≤ bs.length

theorem ready_call : Ready sampleCrypto signatureFits nonceService.limits call [called] where
  accounts := rfl
  signers := List.prefix_rfl
  verifies := by simp [call, key, Crypto.verifies, sampleCrypto]; decide
  takes := by simp [call, key, signatureFits]
  maxInputAccounts := by decide
  maxTransactionParamsSize := by decide

end Sample

/-- Two calls of one payer, whose nonce is 4. -/
theorem accepted_two_calls :
    ∃ txs posted, createManyTransactions sampleCrypto
        (ServiceSharedState.Sample.nonceService.serveAccount 0) [Sample.call, Sample.call] =
          some txs ∧
      txs.mapM (readTransaction Sample.signatureFits) = some posted ∧
      ServiceSharedState.Sample.nonceService.serveSendTransactions sampleCrypto 0 posted =
        some (.accepted (posted.map fun tx => (tx.hash sampleCrypto, "ok")), posted) ∧
      posted.map Transaction.nonce = [5, 6] := by
  have hnonce : ServiceSharedState.Sample.nonceService.accountNonce 0 1 = some 4 := by decide
  obtain ⟨txs, posted, htxs, hread, hserve, hcarried, hsequence⟩ :=
    accepted_createManyTransactions sampleCrypto Sample.signatureFits
      ServiceSharedState.Sample.nonceService (fun _ => rfl) 0
      ServiceSharedState.Sample.inState [Sample.call, Sample.call]
      (by simp only [List.forall_mem_cons]; exact ⟨⟨_, Sample.ready_call⟩, ⟨_, Sample.ready_call⟩,
        nofun⟩)
      (by simp only [List.forall_mem_cons]; exact ⟨⟨hnonce, by decide⟩, ⟨hnonce, by decide⟩,
        nofun⟩)
  refine ⟨txs, posted, htxs, hread, hserve, ?_⟩
  -- both are paid for by account 1
  have hpaid : paidBy 1 posted = posted := by
    cases hcarried with
    | cons h rest =>
      cases rest with
      | cons h' rest =>
        cases rest
        obtain ⟨refs, -, h⟩ := h
        obtain ⟨refs', -, h'⟩ := h'
        rw [h, h']
        rfl
  have hlen : posted.length = 2 := hcarried.length_eq.symm
  have hnonces := hsequence 1
  rw [hpaid, hlen] at hnonces
  exact hnonces

end Rpc

end Rensa
