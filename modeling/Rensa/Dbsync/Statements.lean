import Rensa.Dbsync.Model
import Rensa.Storage.Lookup
import Rensa.Vm.Model.Currency
/-!
# What the database reads

A statement is read back as what it was built from where no text of it has
a quote. Hashes, addresses, signatures, parameters and data are in base 58,
and only what contracts say is put into a row as it is: so a block is copied
as it is, exactly where no log and no error of its transactions has a quote
(`readBack_iff`).
-/

namespace Rensa

open Consensus

/-! ## Texts without quotes -/

theorem quote_notMem_decimal (n : ℕ) : Sql.quote ∉ decimal n := by
  intro h
  exact absurd (mem_decimal h) (by decide)

/-- Base 58 has no quote. -/
@[simp] theorem Base58.quoteless (bs : Bytes) : Sql.quote ∉ (encode bs).toList := by
  intro h
  exact absurd (mem_encode h) (by decide)

theorem UtcTime.quote_notMem_padded (width n : ℕ) : Sql.quote ∉ padded width n := by
  intro h
  rcases List.mem_append.1 h with hzero | hdigit
  · exact absurd (List.eq_of_mem_replicate hzero) (by decide)
  · exact quote_notMem_decimal n hdigit

@[simp] theorem UtcTime.quoteless (t : UtcTime) : Sql.quote ∉ t.format.toList := by
  have hsign : Sql.quote ∉ (if 9999 < t.year then ['+'] else []) := by
    split
    · decide
    · exact List.not_mem_nil
  have hsep : Sql.quote ≠ '-' ∧ Sql.quote ≠ ' ' ∧ Sql.quote ≠ ':' := by decide
  unfold format
  simp [hsign, hsep, quote_notMem_padded]

@[simp] theorem Commitment.quoteless (c : Commitment) : Sql.quote ∉ c.debug.toList := by
  cases c <;> decide

namespace DatabaseSync

variable {H : Type} {K : Config H (List Transaction)} {now : UtcTime}
variable {block : Executed H (List Transaction)} {tx : Transaction} {pos : ℕ}

/-- A statement is read back as what it was built from. -/
def ReadBack (s : Sql.Statement) : Prop := Sql.read s.format = some s

/-! ## The builders -/

@[simp] theorem quoteless_flag (b : Bool) : (flag b).Quoteless := trivial

@[simp] theorem quoteless_b58 (hash : H) : (b58 K hash).Quoteless := Base58.quoteless _

@[simp] theorem quoteless_txHash (tx : Transaction) : (txHash K tx).Quoteless := quoteless_b58 _

@[simp] theorem quote_notMem_toText (k : Pubkey) : Sql.quote ∉ k.toText.toList :=
  Base58.quoteless _

/-- A row without quotes is read back. -/
theorem readBack_insert {table : String} {values : List Sql.Value} (htable : Sql.IsName table)
    (hne : values ≠ []) (hvalues : ∀ v ∈ values, v.Quoteless) :
    ReadBack (.insert table values) :=
  (Sql.read_insert_iff htable hne).2 hvalues

example : Sql.read "INSERT INTO vote VALUES ('a b', 1)" =
    some (.insert "vote" [.text "a b", .num 1]) := by decide +kernel

theorem readBack_header {commitment : Commitment} :
    ∀ s ∈ blockHeaderStmt K now block commitment, ReadBack s := by
  intro s hs
  cases commitment with
  | included => cases hs
  | confirmed =>
    cases hs
    refine readBack_insert (by decide) (by simp) ?_
    simp
  | finalized =>
    cases hs
    exact Sql.read_update (by decide) (by decide) (by decide) (Commitment.quoteless _) trivial

theorem readBack_transaction : ReadBack (transactionStmt K block tx pos) := by
  refine readBack_insert (by decide) (by simp) ?_
  simp

theorem readBack_account {acc : AccountRef} : ReadBack (transactionAccountStmt K tx acc pos) := by
  refine readBack_insert (by decide) (by simp) ?_
  simp

theorem readBack_signature {signature : Signature} :
    ReadBack (transactionSignatureStmt K tx signature pos) := by
  refine readBack_insert (by decide) (by simp) ?_
  simp

theorem readBack_vote {vote : Vote H} : ReadBack (voteStmt K block vote pos) := by
  refine readBack_insert (by decide) (by simp) ?_
  simp

theorem readBack_stateDiff {account : Pubkey} {data : Option Account} :
    ReadBack (stateDiffStmt block account data pos) := by
  cases data with
  | none =>
    refine readBack_insert (by decide) (by simp) ?_
    simp
  | some acc =>
    obtain ⟨executable, nonce, owner, data⟩ := acc
    refine readBack_insert (by decide) (by simp) ?_
    cases data <;> cases owner <;> simp

/-- **A log is read back** exactly where neither its key nor its value has a
quote. -/
theorem readBack_output_iff {output : String × String} :
    ReadBack (transactionOutputStmt K tx output pos) ↔
      Sql.quote ∉ output.1.toList ∧ Sql.quote ∉ output.2.toList := by
  refine (Sql.read_insert_iff (by decide) (by simp)).trans ?_
  simp

/-- **An error is read back** exactly where its text has no quote. -/
theorem readBack_error_iff {error : String} :
    ReadBack (transactionErrorStmt K tx error) ↔ Sql.quote ∉ error.toList := by
  refine (Sql.read_insert_iff (by decide) (by simp)).trans ?_
  simp

/-! ## A block -/

/-- No log key, no log value and no error text has a quote. -/
def Quoteless : Except ContractError (List (String × String)) → Prop
  | .ok outputs => ∀ output ∈ outputs, Sql.quote ∉ output.1.toList ∧ Sql.quote ∉ output.2.toList
  | .error error => Sql.quote ∉ error.text.toList

/-- The rows of a list are read back, where each of them is in whatever
place. -/
theorem readBack_zipIdx {α : Type} (stmt : α → ℕ → Sql.Statement)
    (h : ∀ a pos, ReadBack (stmt a pos)) (l : List α) :
    ∀ s ∈ l.zipIdx.map fun p => stmt p.1 p.2, ReadBack s := by
  intro s hs
  obtain ⟨p, -, rfl⟩ := List.mem_map.1 hs
  exact h p.1 p.2

theorem exists_mem_zipIdx {α : Type} {l : List α} {a : α} (ha : a ∈ l) :
    ∃ i, (a, i) ∈ l.zipIdx := by
  rw [← List.zipIdx_map_fst 0 l] at ha
  obtain ⟨p, hp, rfl⟩ := List.mem_map.1 ha
  exact ⟨p.2, hp⟩

variable [DecidableEq H]

/-- What is written of the outcome of a transaction has no quote. -/
def PlainOutput (K : Config H (List Transaction)) (block : Executed H (List Transaction))
    (tx : Transaction) : Prop :=
  ∀ output ∈ block.output.synced (tx.hash K.crypto), Quoteless output

theorem readBack_syncOutput_iff :
    (∀ s ∈ syncOutput K block tx, ReadBack s) ↔ PlainOutput K block tx := by
  unfold syncOutput PlainOutput
  rcases block.output.synced (tx.hash K.crypto) with _ | (error | outputs)
  · exact iff_of_true nofun nofun
  · refine List.forall_mem_singleton.trans (readBack_error_iff.trans ?_)
    simp [Quoteless]
  · constructor
    · intro hall output houtput
      cases houtput
      intro entry hentry
      obtain ⟨i, hi⟩ := exists_mem_zipIdx hentry
      exact readBack_output_iff.1 (hall _ (List.mem_map.2 ⟨_, hi, rfl⟩))
    · intro hplain s hs
      obtain ⟨p, hp, rfl⟩ := List.mem_map.1 hs
      exact readBack_output_iff.2 (hplain _ rfl p.1 (List.fst_mem_of_mem_zipIdx hp))

/-- **The rows of a transaction**: only those of its outcome can go wrong. -/
theorem readBack_syncTransaction_iff :
    (∀ s ∈ syncTransaction K block tx pos, ReadBack s) ↔ PlainOutput K block tx := by
  have haccounts := readBack_zipIdx (transactionAccountStmt K tx) (fun _ _ => readBack_account)
    tx.accounts
  have hsignatures := readBack_zipIdx (transactionSignatureStmt K tx)
    (fun _ _ => readBack_signature) tx.signatures
  unfold syncTransaction
  rw [List.forall_mem_cons, and_iff_right readBack_transaction, List.forall_mem_append,
    List.forall_mem_append, and_iff_right ⟨haccounts, hsignatures⟩, readBack_syncOutput_iff]

/-- **What the database reads.** The statements of a block are read back as
what they were built from, exactly where the block is not being confirmed
or no log and no error of its transactions has a quote. -/
theorem readBack_iff (K : Config H (List Transaction)) (now : UtcTime)
    (block : Executed H (List Transaction)) (commitment : Commitment) :
    (∀ s ∈ syncBlock K now block commitment, ReadBack s) ↔
      (commitment = .confirmed → ∀ tx ∈ block.underlying.data, PlainOutput K block tx) := by
  have hheader : ∀ s ∈ (blockHeaderStmt K now block commitment).toList, ReadBack s :=
    fun s hs => readBack_header s (Option.mem_toList.1 hs)
  unfold syncBlock
  cases commitment with
  | included => exact iff_of_true nofun nofun
  | finalized =>
    -- only the commitment of the block is written, which has no quote
    refine iff_of_true ?_ nofun
    rw [if_neg nofun, if_neg nofun, List.append_nil]
    exact hheader
  | confirmed =>
    have hvotes := readBack_zipIdx (voteStmt K block) (fun _ _ => readBack_vote)
      block.underlying.votes
    have hdiffs := readBack_zipIdx (fun d : Pubkey × Option Account => stateDiffStmt block d.1 d.2)
      (fun _ _ => readBack_stateDiff) block.output.state.iter
    rw [if_neg nofun, if_pos rfl, List.forall_mem_append, and_iff_right hheader,
      List.forall_mem_append, and_iff_left hdiffs, List.forall_mem_append, and_iff_left hvotes,
      forall_prop_of_true rfl]
    -- what is left are the rows of the transactions
    constructor
    · intro hall tx htx
      obtain ⟨i, hi⟩ := exists_mem_zipIdx htx
      exact readBack_syncTransaction_iff.1 fun s hs => hall s (List.mem_flatMap.2 ⟨_, hi, hs⟩)
    · intro hplain s hs
      obtain ⟨p, hp, hs⟩ := List.mem_flatMap.1 hs
      exact readBack_syncTransaction_iff.2 (hplain p.1 (List.fst_mem_of_mem_zipIdx hp)) s hs

/-! ## A coin with a quote in its name -/

namespace Sample

/-- A name with an apostrophe. -/
def apostrophe : Borsh.Text := ⟨"Bob" ++ String.singleton Sql.quote ++ "s coin", by decide⟩

/-- A name that ends its literal and the row, and goes on with a statement
of its own. -/
def injection : Borsh.Text :=
  ⟨"x" ++ String.singleton Sql.quote ++ ", 0); DELETE FROM vote --", by decide⟩

/-- A block with a transaction that creates a coin of some name. -/
def coinBlock (name : Borsh.Text) : Executed ℕ (List Transaction) where
  underlying := Chain.Sample.produce TransactionStore.Sample.payments 7 0 1
    [TransactionStore.Sample.payment] []
  output := { logs := [(TransactionStore.Sample.payment.hash
    TransactionStore.Sample.payments.crypto, [("action", "create"),
      ("address", TransactionStore.Sample.payments.crypto.toBase58 5), ("name", name.1),
      ("symbol", ""), ("decimals", "0")])] }

/-- When the block is copied. -/
def morning : UtcTime := ⟨2022, 7, 3, 10, 4, 59⟩

end Sample

/-- **Two names of coins that end their literals.** Both can be given to a
coin. With the first one the row is no statement; with the second one there
is another statement after it. -/
theorem coin_names_break_rows :
    Currency.textFits 64 (some Sample.apostrophe) = true ∧
      ¬ (∀ s ∈ syncBlock TransactionStore.Sample.payments Sample.morning
        (Sample.coinBlock Sample.apostrophe) .confirmed, ReadBack s) ∧
      Currency.textFits 64 (some Sample.injection) = true ∧
      ((Sql.lex .gap (transactionOutputStmt TransactionStore.Sample.payments
        TransactionStore.Sample.payment ("name", Sample.injection.1) 2).format.toList).map
          fun ts => ts.drop 13) = some [.symbol ';', .word "DELETE".toList, .word "FROM".toList,
            .word "vote".toList] := by
  refine ⟨by decide, fun hall => ?_, by decide, by decide +kernel⟩
  have hmem : transactionOutputStmt TransactionStore.Sample.payments
      TransactionStore.Sample.payment ("name", Sample.apostrophe.1) 2 ∈
      syncBlock TransactionStore.Sample.payments Sample.morning
        (Sample.coinBlock Sample.apostrophe) .confirmed := by
    decide +kernel
  exact (readBack_output_iff.1 (hall _ hmem)).2 (by decide)

end DatabaseSync

end Rensa
