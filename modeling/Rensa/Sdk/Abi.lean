import Rensa.Vm.Model.Abi
import Rensa.Sdk.Model
/-!
# The SDK and the machine agree, but for two types

The SDK and the machine each keep a copy of the types that cross the
boundary of a contract. `abi_iff` says exactly on which values the two
copies agree: every environment, every list of outputs whose nested calls
name no accounts, and every error but the one about a nonce. The SDK
writes the whole view of an account where the machine reads an account
reference, and a nonce where it reads nothing; a reader takes exactly as
many bytes as the value it returns is written with (`length_read`), so
whatever follows cannot make up for it.
-/

namespace Rensa

open Borsh (Text Vec)

namespace Sdk

/-! ## Corresponding values -/

/-- The machine's copy of a `SignatureError`. -/
def SignatureError.toVm : SignatureError → Rensa.SignatureError
  | .invalidSignature => .invalidSignature
  | .missingSigners => .missingSigners

/-- The machine's copy of a `ContractError`. -/
def ContractError.toVm : ContractError → Rensa.ContractError
  | .invalidTransactionNonce _ => .invalidTransactionNonce
  | .accountAlreadyExists => .accountAlreadyExists
  | .accountDoesNotExist => .accountDoesNotExist
  | .tooManyInputAccounts => .tooManyInputAccounts
  | .accountTooLarge => .accountTooLarge
  | .logTooLarge => .logTooLarge
  | .tooManyLogs => .tooManyLogs
  | .invalidInputAccounts => .invalidInputAccounts
  | .invalidAccountOwner => .invalidAccountOwner
  | .invalidOutputAccount => .invalidOutputAccount
  | .accountNotWritable => .accountNotWritable
  | .contractDoesNotExit => .contractDoesNotExit
  | .accountIsNotExecutable => .accountIsNotExecutable
  | .signatureError e => .signatureError e.toVm
  | .invalidInputParameters => .invalidInputParameters
  | .unauthorizedOperation => .unauthorizedOperation
  | .runtime message => .runtime message.1
  | .other message => .other message.1
  | .computationalBudgetExhausted => .computationalBudgetExhausted

/-- The reference an account of a nested call stands for. -/
def AccountView.toRef (k : Pubkey) (v : AccountView) : AccountRef :=
  { address := k, writable := v.writable, signer := v.signer }

/-- The machine's copy of an `Output`. -/
def Output.toVm : Output → Rensa.Output
  | .logEntry key value => .logEntry key.1 value.1
  | .createOwnedAccount address data => .createOwnedAccount address (data.map Subtype.val)
  | .writeAccountData address data => .writeAccountData address (data.map Subtype.val)
  | .deleteOwnedAccount address => .deleteOwnedAccount address
  | .contractInvoke contract accounts params =>
    .contractInvoke contract (accounts.1.map fun p => p.2.toRef p.1) params.1
  | .createExecutableAccount address bytecode => .createExecutableAccount address bytecode.1

/-- The machine's copy of an `AccountView`. -/
def AccountView.toVm (v : AccountView) : Rensa.AccountView :=
  { signer := v.signer, writable := v.writable, executable := v.executable, owner := v.owner
    data := v.data.map Subtype.val }

/-- The machine's copy of an `Environment`. -/
def Environment.toVm (env : Environment) : Rensa.Environment :=
  { caller := env.caller, address := env.address
    accounts := env.accounts.1.map fun p => (p.1, p.2.toVm) }

/-- The output names no accounts of a nested call. -/
def Output.NoAccounts : Output → Prop
  | .contractInvoke _ accounts _ => accounts.1 = []
  | _ => True

/-- The error carries no nonce. -/
def ContractError.NoNonce : ContractError → Prop
  | .invalidTransactionNonce _ => False
  | _ => True

end Sdk

/-! ## What is read back -/

theorem readSlice_eq_some {α : Type} {read : Bytes → Option (α × Bytes)} {bs : Bytes} {a : α} :
    readSlice read bs = some a ↔ read bs = some (a, []) := by
  rw [readSlice]
  constructor
  · intro h
    split at h
    · rename_i hread
      rw [hread, Option.some.inj h]
    · cases h
  · intro h
    rw [h]

namespace Sdk

theorem read_serialize_error {e : ContractError} (h : e.NoNonce) :
    ContractError.read e.serialize = some (e.toVm, []) := by
  have htext : ∀ message : Text, (Borsh.deserialize (Borsh.serialize message) :
      Option (Text × Bytes)) = some (message, []) := by
    intro message
    have := Borsh.deserialize_serialize message []
    rwa [List.append_nil] at this
  cases e with
  | invalidTransactionNonce => exact h.elim
  | signatureError e => cases e <;> rfl
  | runtime message => simp [ContractError.serialize, ContractError.read, htext, ContractError.toVm]
  | other message => simp [ContractError.serialize, ContractError.read, htext, ContractError.toVm]
  | _ => rfl

/-- **Exactly the errors without a nonce are understood.** -/
theorem tryFromSlice_error_iff (e : ContractError) :
    ContractError.tryFromSlice e.serialize = some e.toVm ↔ e.NoNonce := by
  rw [ContractError.tryFromSlice, readSlice_eq_some]
  constructor
  · intro h
    cases e with
    | invalidTransactionNonce nonce =>
      -- the nonce is left over
      have hlen := congrArg (fun r => (r.map fun p => p.2.length).getD 0) h
      simp [ContractError.serialize, ContractError.read, Borsh.serialize] at hlen
    | _ => trivial
  · exact read_serialize_error

end Sdk

/-! ## Outputs -/

namespace Output

/-- The bytes that some data takes. -/
def dataSize : Option Bytes → ℕ
  | none => 1
  | some data => 5 + data.length

/-- The bytes that the machine reads an output from. -/
def size : Output → ℕ
  | .logEntry key value => 9 + key.utf8ByteSize + value.utf8ByteSize
  | .createOwnedAccount _ data => 33 + dataSize data
  | .writeAccountData _ data => 33 + dataSize data
  | .deleteOwnedAccount _ => 33
  | .contractInvoke _ accounts params => 41 + 34 * accounts.length + params.length
  | .createExecutableAccount _ bytecode => 37 + bytecode.length

end Output

instance : Borsh.Canonical AccountRef := Borsh.canonical_ofEquiv AccountRef.fields

section Lengths

@[simp] theorem length_serialize_pubkey (k : Pubkey) : (Borsh.serialize k).length = 32 :=
  Pubkey.length_bytes k

@[simp] theorem length_serialize_text (t : Text) :
    (Borsh.serialize t).length = 4 + t.1.utf8ByteSize := by
  simp [Borsh.serialize]

@[simp] theorem length_serialize_pair {α β : Type} [Borsh α] [Borsh β] (p : α × β) :
    (Borsh.serialize p).length = (Borsh.serialize p.1).length + (Borsh.serialize p.2).length :=
  List.length_append

@[simp] theorem length_serialize_bytes (v : Vec UInt8) :
    (Borsh.serialize v).length = 4 + v.1.length := by
  simp [Borsh.serialize]

@[simp] theorem length_serialize_data (d : Option (Vec UInt8)) :
    (Borsh.serialize d).length = Output.dataSize (d.map Subtype.val) := by
  cases d with
  | none => rfl
  | some v =>
    change (1 :: Borsh.serialize v).length = 5 + v.1.length
    rw [List.length_cons, length_serialize_bytes]
    omega

@[simp] theorem length_serialize_refs (v : Vec AccountRef) :
    (Borsh.serialize v).length = 4 + 34 * v.1.length := by
  have hone : ∀ r : AccountRef, (Borsh.serialize r).length = 34 := by
    intro r
    change (Borsh.serialize (r.address, r.writable, r.signer)).length = 34
    simp [Borsh.serialize]
  change (leBytes 4 v.1.length ++ v.1.flatMap Borsh.serialize).length = 4 + 34 * v.1.length
  rw [List.length_append, length_leBytes, List.length_flatMap,
    List.map_congr_left (fun r _ => hone r), List.map_const', List.sum_replicate, smul_eq_mul,
    Nat.mul_comm]

end Lengths

/-- The bytes of a variant with its fields. -/
private theorem length_fields {α : Type} [Borsh α] [Borsh.Exact α] {bs rest : Bytes}
    {f : α → Output} {o : Output}
    (h : ((Borsh.deserialize bs : Option (α × Bytes)).map fun p => (f p.1, p.2)) =
      some (o, rest)) : ∃ a, o = f a ∧ bs.length = (Borsh.serialize a).length + rest.length := by
  obtain ⟨p, hp, heq⟩ := Option.map_eq_some_iff.1 h
  obtain ⟨rfl, rfl⟩ := Prod.mk.inj heq
  exact ⟨p.1, rfl, Borsh.length_deserialize hp⟩

/-- **A reader takes what the value it returns is written with.** -/
theorem Output.length_read {bs rest : Bytes} {o : Output} (h : Output.read bs = some (o, rest)) :
    bs.length = o.size + rest.length := by
  simp only [Output.read] at h
  split at h
  · obtain ⟨a, rfl, hlen⟩ := length_fields (α := Text × Text)
      (f := fun a => .logEntry a.1.1 a.2.1) h
    simp only [length_serialize_pair, length_serialize_text] at hlen
    simp only [List.length_cons, Output.size]
    omega
  · obtain ⟨a, rfl, hlen⟩ := length_fields (α := Pubkey × Option (Vec UInt8))
      (f := fun a => .createOwnedAccount a.1 (a.2.map Subtype.val)) h
    simp only [length_serialize_pair, length_serialize_pubkey, length_serialize_data] at hlen
    simp only [List.length_cons, Output.size]
    omega
  · obtain ⟨a, rfl, hlen⟩ := length_fields (α := Pubkey × Option (Vec UInt8))
      (f := fun a => .writeAccountData a.1 (a.2.map Subtype.val)) h
    simp only [length_serialize_pair, length_serialize_pubkey, length_serialize_data] at hlen
    simp only [List.length_cons, Output.size]
    omega
  · obtain ⟨a, rfl, hlen⟩ := length_fields (α := Pubkey) (f := fun a => .deleteOwnedAccount a) h
    simp only [length_serialize_pubkey] at hlen
    simp only [List.length_cons, Output.size]
    omega
  · obtain ⟨a, rfl, hlen⟩ := length_fields (α := Pubkey × Vec AccountRef × Vec UInt8)
      (f := fun a => .contractInvoke a.1 a.2.1.1 a.2.2.1) h
    simp only [length_serialize_pair, length_serialize_pubkey, length_serialize_refs,
      length_serialize_bytes] at hlen
    simp only [List.length_cons, Output.size]
    omega
  · obtain ⟨a, rfl, hlen⟩ := length_fields (α := Pubkey × Vec UInt8)
      (f := fun a => .createExecutableAccount a.1 a.2.1) h
    simp only [length_serialize_pair, length_serialize_pubkey, length_serialize_bytes] at hlen
    simp only [List.length_cons, Output.size]
    omega
  · cases h

namespace Sdk

/-- The bytes of an account view that an account reference has no place
for. -/
def AccountView.extra (v : AccountView) : ℕ := (Borsh.serialize v).length - 2

theorem AccountView.length_serialize (v : AccountView) :
    (Borsh.serialize v).length =
      3 + (Borsh.serialize v.owner).length + (Borsh.serialize v.data).length := by
  change (Borsh.serialize (v.signer, v.writable, v.executable, v.owner, v.data)).length = _
  simp only [length_serialize_pair, length_serialize_data]
  simp only [Borsh.serialize, List.length_cons, List.length_nil]
  omega

theorem AccountView.length_eq (v : AccountView) : (Borsh.serialize v).length = 2 + v.extra := by
  have := v.length_serialize
  rw [AccountView.extra]
  omega

theorem AccountView.extra_pos (v : AccountView) : 0 < v.extra := by
  have := v.length_serialize
  rw [AccountView.extra]
  omega

/-- The bytes of an output that the machine does not expect. -/
def Output.extra : Output → ℕ
  | .contractInvoke _ accounts _ => (accounts.1.map fun p => p.2.extra).sum
  | _ => 0

private theorem sum_length_views (l : List (Pubkey × AccountView)) :
    (l.map fun p => (Borsh.serialize p).length).sum =
      34 * l.length + (l.map fun p => p.2.extra).sum := by
  induction l with
  | nil => rfl
  | cons p l ih =>
    rw [List.map_cons, List.sum_cons, ih, length_serialize_pair, length_serialize_pubkey,
      AccountView.length_eq, List.map_cons, List.sum_cons, List.length_cons]
    omega

/-- The accounts of a nested call, and what they have too much. -/
theorem length_serialize_views (v : Vec (Pubkey × AccountView)) :
    (Borsh.serialize v).length = 4 + 34 * v.1.length + (v.1.map fun p => p.2.extra).sum := by
  change (leBytes 4 v.1.length ++ v.1.flatMap Borsh.serialize).length = _
  rw [List.length_append, length_leBytes, List.length_flatMap, sum_length_views, Nat.add_assoc]

theorem Output.length_serialize (o : Output) : o.serialize.length = o.toVm.size + o.extra := by
  cases o with
  | logEntry key value =>
    simp only [Output.serialize, Output.toVm, Output.size, Output.extra, List.length_cons,
      length_serialize_pair, length_serialize_text]
    omega
  | createOwnedAccount address data =>
    simp only [Output.serialize, Output.toVm, Output.size, Output.extra, List.length_cons,
      length_serialize_pair, length_serialize_pubkey, length_serialize_data]
    omega
  | writeAccountData address data =>
    simp only [Output.serialize, Output.toVm, Output.size, Output.extra, List.length_cons,
      length_serialize_pair, length_serialize_pubkey, length_serialize_data]
    omega
  | deleteOwnedAccount address =>
    simp only [Output.serialize, Output.toVm, Output.size, Output.extra, List.length_cons,
      length_serialize_pubkey]
  | contractInvoke contract accounts params =>
    simp only [Output.serialize, Output.toVm, Output.size, Output.extra, List.length_cons,
      length_serialize_pair, length_serialize_pubkey, length_serialize_views,
      length_serialize_bytes, List.length_map]
    omega
  | createExecutableAccount address bytecode =>
    simp only [Output.serialize, Output.toVm, Output.size, Output.extra, List.length_cons,
      length_serialize_pair, length_serialize_pubkey, length_serialize_bytes]
    omega

theorem Output.noAccounts_of_extra {o : Output} (h : o.extra = 0) : o.NoAccounts := by
  cases o with
  | contractInvoke contract accounts params =>
    obtain ⟨l, hl⟩ := accounts
    cases l with
    | nil => rfl
    | cons p l =>
      have := p.2.extra_pos
      simp only [Output.extra, List.map_cons, List.sum_cons] at h
      omega
  | _ => trivial

/-- An output without accounts is read back. -/
theorem Output.read_serialize {o : Output} (h : o.NoAccounts) (rest : Bytes) :
    Output.read (o.serialize ++ rest) = some (o.toVm, rest) := by
  cases o with
  | contractInvoke contract accounts params =>
    obtain ⟨l, hl⟩ := accounts
    obtain rfl : l = [] := h
    have hread := Borsh.deserialize_serialize
      (contract, (⟨[], by decide⟩ : Vec AccountRef), params) rest
    change Output.read (4 :: (Borsh.serialize
      (contract, (⟨[], by decide⟩ : Vec AccountRef), params) ++ rest)) = _
    simp only [Output.read, hread, Option.map_some]
    rfl
  | _ =>
    simp only [Output.serialize, List.cons_append, Output.read, Borsh.deserialize_serialize,
      Option.map_some]
    rfl

/-- **Exactly the outputs without accounts are understood.** -/
theorem tryFromSlice_outputs_iff (os : Vec Output) :
    Output.tryFromSlice (Output.toVec os) = some (os.1.map Output.toVm) ↔
      ∀ o ∈ os.1, o.NoAccounts := by
  rw [Output.tryFromSlice, readSlice_eq_some]
  constructor
  · intro h o ho
    have hread := Borsh.length_readVec Output.size
      (fun _ _ _ hr => Output.length_read hr) h
    have hwritten : (Output.toVec os).length =
        4 + ((os.1.map Output.toVm).map Output.size).sum + (os.1.map Output.extra).sum := by
      rw [Output.toVec, List.length_append, length_leBytes, List.length_flatMap,
        List.map_congr_left (fun o _ => Output.length_serialize o), List.sum_map_add,
        List.map_map]
      simp only [Function.comp_def]
      omega
    have hzero : (os.1.map Output.extra).sum = 0 := by
      rw [List.length_nil] at hread
      omega
    exact Output.noAccounts_of_extra (List.sum_eq_zero_iff.1 hzero _ (List.mem_map_of_mem ho))
  · intro h
    have hread := Borsh.readVec_flatMap os.2
      (fun o ho rest => Output.read_serialize (h o ho) rest) []
    rw [List.append_nil] at hread
    exact hread


/-! ## Environments -/

/-- The SDK's copy of an account view that the machine can write. -/
theorem exists_view {v : Rensa.AccountView} (h : v.fits = true) :
    ∃ w : AccountView, w.toVm = v ∧ Borsh.serialize w = v.serialize := by
  obtain ⟨signer, writable, executable, owner, data⟩ := v
  cases data with
  | none => exact ⟨⟨signer, writable, executable, owner, none⟩, rfl, by
      change _ ++ (_ ++ (_ ++ (_ ++ _))) = _ ++ _ ++ _ ++ _ ++ _
      simp only [List.append_assoc]
      rfl⟩
  | some data =>
    have hlen : data.length < 2 ^ 32 := by simpa [AccountView.fits] using h
    refine ⟨⟨signer, writable, executable, owner, some ⟨data, hlen⟩⟩, rfl, ?_⟩
    change _ ++ (_ ++ (_ ++ (_ ++ 1 :: (leBytes 4 data.length ++ data.flatMap Borsh.serialize)))) =
      _ ++ _ ++ _ ++ _ ++ _
    have hdata : data.flatMap Borsh.serialize = data := by simp [Borsh.serialize]
    rw [hdata]
    simp only [List.append_assoc]
    rfl

theorem exists_accounts (l : List (Pubkey × Rensa.AccountView))
    (h : ∀ p ∈ l, p.2.fits = true) :
    ∃ l' : List (Pubkey × AccountView), l'.map (fun p => (p.1, p.2.toVm)) = l ∧
      l'.flatMap Borsh.serialize =
        l.flatMap fun p => Borsh.serialize p.1 ++ p.2.serialize := by
  induction l with
  | nil => exact ⟨[], rfl, rfl⟩
  | cons p l ih =>
    obtain ⟨w, hw, hbytes⟩ := exists_view (h p List.mem_cons_self)
    obtain ⟨l', hl', hrest⟩ := ih fun q hq => h q (List.mem_cons_of_mem _ hq)
    refine ⟨(p.1, w) :: l', by rw [List.map_cons, hw, hl'], ?_⟩
    rw [List.flatMap_cons, List.flatMap_cons, hrest, ← hbytes]
    rfl

/-- **Every environment is understood.** -/
theorem tryFromSlice_environment {env : Rensa.Environment} {bytes : Bytes}
    (h : env.tryToVec = some bytes) :
    (Borsh.tryFromSlice Environment bytes).map Environment.toVm = some env := by
  rw [Environment.tryToVec] at h
  split at h
  · rename_i hfits
    obtain rfl := Option.some.inj h
    obtain ⟨l, hl, hbytes⟩ := exists_accounts env.accounts
      (fun p hp => List.all_eq_true.1 hfits.2 p hp)
    have hlen : l.length = env.accounts.length := by rw [← hl, List.length_map]
    have hcopy : Borsh.serialize (⟨env.caller, env.address, ⟨l, hlen ▸ hfits.1⟩⟩ : Environment) =
        Borsh.serialize env.caller ++ Borsh.serialize env.address ++
          leBytes 4 env.accounts.length ++
          env.accounts.flatMap fun p => Borsh.serialize p.1 ++ p.2.serialize := by
      change Borsh.serialize env.caller ++ (Borsh.serialize env.address ++
        (leBytes 4 l.length ++ l.flatMap Borsh.serialize)) = _
      rw [hlen, hbytes]
      simp only [List.append_assoc]
    rw [← hcopy, Borsh.tryFromSlice_serialize, Option.map_some]
    refine congrArg some ?_
    change Rensa.Environment.mk env.caller env.address (l.map fun p => (p.1, p.2.toVm)) = env
    rw [hl]
  · cases h

/-- **Where the SDK and the machine speak the same ABI**: exactly on the
lists of outputs whose nested calls name no accounts, exactly on the
errors without a nonce, and on every environment the machine writes. -/
theorem abi_iff (os : Vec Output) (e : ContractError) (env : Rensa.Environment) (bytes : Bytes) :
    (Output.tryFromSlice (Output.toVec os) = some (os.1.map Output.toVm) ↔
      ∀ o ∈ os.1, o.NoAccounts) ∧
    (ContractError.tryFromSlice e.serialize = some e.toVm ↔ e.NoNonce) ∧
    (env.tryToVec = some bytes →
      (Borsh.tryFromSlice Environment bytes).map Environment.toVm = some env) :=
  ⟨tryFromSlice_outputs_iff os, tryFromSlice_error_iff e, tryFromSlice_environment⟩

/-- A call of the contract at 150 with one account, and the error about
nonce 7: the machine understands neither. -/
theorem abi_fails :
    Output.tryFromSlice (Output.toVec ⟨[.contractInvoke 150
      ⟨[(1, ⟨true, false, false, none, none⟩)], by decide⟩ ⟨[], by decide⟩], by decide⟩) = none ∧
    ContractError.tryFromSlice (ContractError.invalidTransactionNonce 7).serialize = none := by
  decide

end Sdk

end Rensa
