import Rensa.Vm.Panics
import Rensa.Vm.Model.Ledger
/-!
# Deploying bytecode

What the instructions of the WasmVM contract are for: bytecode that is
allocated, uploaded slot by slot and installed becomes an executable
account, and nothing is installed that was not checked. Neither holds of
the contract. It compares the length of its address with a number of
accounts and so refuses every allocation and upload, and in every
environment a machine builds it refuses every installation too
(`WasmVM.contract_refuses`); an installation that an environment built
otherwise would get through has no check of the size, the checksum or the
owner (`WasmVM.checksInstall_iff`).
-/

namespace Rensa

open Borsh (FixedBytes Vec)

namespace Ledger

variable {H : Type} (vm : Machine H)

/-- The state a transaction of that payer is executed on. -/
def stateFor (l : Ledger H) (payer : Pubkey) : State :=
  overlayed l.store.get (Machine.bumpNonce l.store.get l.block.state payer).get

/-- The checks on a transaction that its payer and its signers see to: the
signatures and the nonce. -/
structure Admits (l : Ledger H) (tx : Transaction) : Prop where
  signed : tx.verifySignatures vm.crypto = .ok ()
  nonce : tx.nonce = ((l.stateFor tx.payer tx.payer).map Account.nonce).getD 0

/-- The transaction succeeds. -/
def Succeeds (fuel : ℕ) (l : Ledger H) (tx : Transaction) : Prop :=
  ∃ out, vm.executeTransaction fuel tx (l.stateFor tx.payer) = some (.ok out)

variable [DecidableEq H]

/-- Every transaction among the steps meets a condition, on the ledger it
comes to. -/
def Each (fuel : ℕ) (P : Ledger H → Transaction → Prop) : Ledger H → List LedgerStep → Prop
  | _, [] => True
  | l, s :: steps =>
    (∀ tx, s = .execute tx → P l tx) ∧ ∀ m, l.step vm fuel s = some m → Each fuel P m steps

end Ledger

/-- The transactions among the steps. -/
def transactions (steps : List LedgerStep) : List Transaction :=
  steps.filterMap fun
    | .execute tx => some tx
    | .finalize => none

namespace WasmVM

section Deployment

variable {H : Type} (vm : Machine H)

/-- The machine runs the contract at its address, as far as the contract
does not panic. -/
def Hosts : Prop :=
  ∃ e, vm.builtin wasmVmBuiltinAddr = some e ∧
    ∀ env params r, contract vm.crypto vm.limits env params = some r → e env params = r

/-- The transaction calls the contract with an instruction. -/
def Carries (tx : Transaction) (i : Instruction) : Prop :=
  tx.contract = wasmVmBuiltinAddr ∧ ∃ rest, Instruction.read tx.params = some (i, rest)

/-- The number of slots of bytecode of that size. -/
def slots (size : ℕ) : ℕ := (size + (maxSlotSize - 1)) / maxSlotSize

/-- The bytes of one slot; the last one may be shorter. -/
def slot (bytecode : Bytes) (i : ℕ) : Bytes := (bytecode.drop (i * maxSlotSize)).take maxSlotSize

/-- What is deployed, under which seed, and by whom. -/
structure Package where
  bytecode : Bytes
  seed : FixedBytes 32
  authority : Pubkey

namespace Package

variable (C : Crypto H) (p : Package)

/-- `Wasm.derive(seed)`. -/
def contractAddr : Pubkey := wasmVmBuiltinAddr.derive C [p.seed.1]

/-- `Wasm.derive(seed, b"bytecode")`. -/
def bufferAddr : Pubkey := wasmVmBuiltinAddr.derive C [p.seed.1, textBytes "bytecode"]

/-- The accounts the instructions expect. -/
def accounts : List AccountRef :=
  [⟨p.contractAddr C, true, false⟩, ⟨p.bufferAddr C, true, false⟩]

/-- The accounts of an upload or an installation: the authority signs. -/
def signedAccounts : List AccountRef := p.accounts C ++ [⟨p.authority, false, true⟩]

/-- The allocation, with the size and the checksum of the bytecode. -/
structure Allocates (tx : Transaction) : Prop where
  accounts : tx.accounts = p.accounts C
  carries : ∃ checksum size, Carries tx (.allocate p.seed checksum p.authority size) ∧
    checksum.1 = C.digest (C.sha3 p.bytecode) ∧ size.toNat = p.bytecode.length

/-- The upload of one slot. -/
structure Uploads (tx : Transaction) (i : ℕ) : Prop where
  accounts : tx.accounts = p.signedAccounts C
  carries : ∃ index bytes, Carries tx (.upload p.seed index bytes) ∧ index.toNat = i ∧
    bytes.1 = slot p.bytecode i

/-- The installation, without an initial call. -/
structure Installs (tx : Transaction) : Prop where
  accounts : ∃ more, tx.accounts = p.signedAccounts C ++ more
  carries : Carries tx (.install p.seed none)

end Package

variable [DecidableEq H]

/-- **A deployment**: from a ledger where the two addresses are free, an
allocation, the upload of every slot once, in any order, and an
installation, each signed and numbered as it has to be; blocks may be
finalized in between. -/
structure Deployment (fuel : ℕ) (p : Package) (l : Ledger H) (steps : List LedgerStep) : Prop where
  nonempty : p.bytecode ≠ []
  fits : p.bytecode.length ≤ vm.limits.maxContractSize
  /-- The buffer has five fields, three of them with the lengths 32, 4 and
  32, and two with a length of four bytes before them. -/
  buffered : 32 + 4 + 32 + (4 + slots p.bytecode.length) + (4 + p.bytecode.length) ≤
    vm.limits.maxAccountSize
  onCurve : vm.crypto.hasPrivateKey p.authority = true
  free : l.view (p.contractAddr vm.crypto) = none ∧ l.view (p.bufferAddr vm.crypto) = none
  runs : ∃ (allocate : Transaction) (uploads : List (ℕ × Transaction)) (install : Transaction),
    transactions steps = allocate :: uploads.map Prod.snd ++ [install] ∧
      p.Allocates vm.crypto allocate ∧
      (uploads.map Prod.fst).Perm (List.range (slots p.bytecode.length)) ∧
      (∀ u ∈ uploads, p.Uploads vm.crypto u.2 u.1) ∧ p.Installs vm.crypto install ∧
      steps.getLast? = some (.execute install)
  admits : l.Each vm fuel (fun m tx => m.Admits vm tx) steps

/-- **What the deployment is for**: every transaction succeeds, the
bytecode is an executable account at the end, and the block that is
finalized next leaves no buffer. -/
structure Deployed (fuel : ℕ) (p : Package) (l : Ledger H) (steps : List LedgerStep) : Prop where
  succeeds : l.Each vm fuel (fun m tx => m.Succeeds vm fuel tx) steps
  installed : ∃ m, l.run vm fuel steps = some m ∧
    m.view (p.contractAddr vm.crypto) =
      some { executable := true, owner := some wasmVmBuiltinAddr, data := some p.bytecode } ∧
    (m.store.apply m.block.state).get (p.bufferAddr vm.crypto) = none

variable {vm}

omit [DecidableEq H] in
/-- A transaction of the contract never succeeds. -/
theorem not_succeeds (h : Hosts vm) {fuel : ℕ} {l : Ledger H} {tx : Transaction}
    (htx : tx.contract = wasmVmBuiltinAddr) : ¬ l.Succeeds vm fuel tx := by
  rintro ⟨out, hout⟩
  obtain ⟨e, hbuiltin, hagrees⟩ := h
  obtain ⟨u, hu, hrun⟩ := Machine.executeTransaction_ok hout
  obtain ⟨-, -, -, hentry, -, -, -, henv⟩ := Machine.newUnit_ok hu
  have hue : u.entrypoint = e := by
    simp only [Machine.entrypoint, htx, hbuiltin] at hentry
    exact (Except.ok.inj hentry).symm
  obtain ⟨err, herr⟩ : ∃ err, contract vm.crypto vm.limits u.env u.params = some (.error err) := by
    rw [henv]
    exact contract_refuses _
  cases fuel with
  | zero => cases hrun
  | succ fuel =>
    simp only [Machine.execute, hue, hagrees _ _ _ herr] at hrun
    cases hrun

/-- Such a transaction changes the nonce of its payer and nothing else. -/
theorem step_execute (h : Hosts vm) {fuel : ℕ} {l m : Ledger H} {tx : Transaction}
    (htx : tx.contract = wasmVmBuiltinAddr) (hm : l.step vm fuel (.execute tx) = some m) :
    m.store = l.store ∧
      m.block.state = Machine.bumpNonce l.store.get l.block.state tx.payer := by
  obtain ⟨block, hblock, rfl⟩ := Option.map_eq_some_iff.1 hm
  simp only [Machine.executeNext] at hblock
  split at hblock
  · cases hblock
  · rename_i out hout
    exact absurd ⟨out, hout⟩ (not_succeeds h htx)
  · obtain rfl := Option.some.inj hblock
    exact ⟨rfl, rfl⟩

/-- A run all of whose transactions meet a condition starts with one that
does, on a ledger with the accounts finalized in between. -/
theorem exists_of_each {fuel : ℕ} {P : Ledger H → Transaction → Prop} {tx : Transaction}
    {txs : List Transaction} {l : Ledger H} {steps : List LedgerStep} (h : l.Each vm fuel P steps)
    (htxs : transactions steps = tx :: txs) : ∃ m, P m tx := by
  induction steps generalizing l with
  | nil => cases htxs
  | cons s steps ih =>
    cases s with
    | execute tx' =>
      simp only [transactions, List.filterMap_cons] at htxs
      obtain ⟨rfl, -⟩ := List.cons.inj htxs
      exact ⟨l, h.1 _ rfl⟩
    | finalize => exact ih (h.2 _ rfl) htxs

/-- **No deployment succeeds**: its first transaction, the allocation,
fails already. -/
theorem not_deployed (hhosts : Hosts vm) {fuel : ℕ} {p : Package} {l : Ledger H}
    {steps : List LedgerStep} (h : Deployment vm fuel p l steps) :
    ¬ Deployed vm fuel p l steps := by
  intro hdone
  obtain ⟨allocate, uploads, install, htxs, hallocate, -⟩ := h.runs
  obtain ⟨m, hm⟩ := exists_of_each hdone.succeeds htxs
  obtain ⟨_, _, hcarries, -⟩ := hallocate.carries
  exact not_succeeds hhosts hcarries.1 hm

end Deployment

namespace Sample

/-- A machine with the contract at its address. -/
def machine : Machine Bytes where
  crypto := sampleCrypto
  limits := Machine.Sample.limits
  builtin k :=
    if k = wasmVmBuiltinAddr then
      some fun env params => (contract sampleCrypto Machine.Sample.limits env params).getD (.ok [])
    else none
  runtime _ := .error .accountIsNotExecutable

/-- A ledger without accounts. -/
def empty : Ledger Bytes := { store := { db := fun _ => none } }

/-- Bytecode of one slot, which is its own checksum. -/
def package : Package where
  bytecode := List.replicate 32 1
  seed := ⟨List.replicate 32 1, by decide⟩
  authority := 7

/-- A call of the contract that the authority pays and signs for. -/
def call (nonce : ℕ) (accounts : List AccountRef) (params : Bytes) : Transaction :=
  let tx : Transaction :=
    { contract := wasmVmBuiltinAddr, nonce, payer := 7, accounts, params, signatures := [] }
  { tx with signatures := List.replicate 2 (Machine.Sample.sign 7 tx) }

/-- The allocation. -/
def allocate : Transaction :=
  call 1 (package.accounts sampleCrypto)
    (0 :: Borsh.serialize (package.seed, package.seed, package.authority, (32 : UInt32)))

/-- The upload of the only slot. -/
def upload : Transaction :=
  call 2 (package.signedAccounts sampleCrypto)
    (1 :: Borsh.serialize
      (package.seed, (0 : UInt16), (⟨package.bytecode, by decide⟩ : Vec UInt8)))

/-- The installation. -/
def install : Transaction :=
  call 3 (package.signedAccounts sampleCrypto)
    (2 :: Borsh.serialize (package.seed, (none : Option (Vec UInt8))))

/-- The whole run, in one block. -/
def steps : List LedgerStep := [.execute allocate, .execute upload, .execute install]

theorem hosts : Hosts machine := by
  refine ⟨fun env params => (contract sampleCrypto Machine.Sample.limits env params).getD (.ok []),
    by simp only [machine, if_true], ?_⟩
  intro env params r hr
  show (contract sampleCrypto Machine.Sample.limits env params).getD (.ok []) = r
  rw [show contract sampleCrypto Machine.Sample.limits env params = some r from hr]
  rfl

/-- What the contract reads in each of the three calls. -/
theorem read_allocate : Instruction.read allocate.params =
    some (.allocate package.seed package.seed package.authority 32, []) := by
  have h := Borsh.deserialize_serialize
    (package.seed, package.seed, package.authority, (32 : UInt32)) []
  rw [List.append_nil] at h
  simp only [allocate, call, Instruction.read, h, Option.map_some]

theorem read_upload : Instruction.read upload.params =
    some (.upload package.seed 0 ⟨package.bytecode, by decide⟩, []) := by
  have h := Borsh.deserialize_serialize
    (package.seed, (0 : UInt16), (⟨package.bytecode, by decide⟩ : Vec UInt8)) []
  rw [List.append_nil] at h
  simp only [upload, call, Instruction.read, h, Option.map_some]

theorem read_install : Instruction.read install.params =
    some (.install package.seed none, []) := by
  have h := Borsh.deserialize_serialize (package.seed, (none : Option (Vec UInt8))) []
  rw [List.append_nil] at h
  simp only [install, call, Instruction.read, h, Option.map_some]

theorem deployment : Deployment machine 1 package empty steps where
  nonempty := by decide
  fits := by decide
  buffered := by decide
  onCurve := by decide
  free := ⟨rfl, rfl⟩
  runs := by
    refine ⟨allocate, [(0, upload)], install, rfl,
      ⟨rfl, package.seed, 32, ⟨rfl, [], read_allocate⟩, rfl, by decide⟩, by decide, ?_,
      ⟨⟨[], rfl⟩, rfl, [], read_install⟩, rfl⟩
    intro u hu
    obtain rfl := List.mem_singleton.1 hu
    exact ⟨rfl, 0, _, ⟨rfl, [], read_upload⟩, rfl, by decide⟩
  admits := by
    refine ⟨?_, fun m hm => ?_⟩
    · rintro tx ⟨⟩
      exact ⟨by decide +kernel, by decide +kernel⟩
    obtain ⟨hstore, hblock⟩ := step_execute hosts rfl hm
    refine ⟨?_, fun m' hm' => ?_⟩
    · rintro tx ⟨⟩
      refine ⟨by decide +kernel, ?_⟩
      rw [Ledger.stateFor, hstore, hblock]
      decide
    obtain ⟨hstore', hblock'⟩ := step_execute hosts rfl hm'
    refine ⟨?_, fun _ _ => trivial⟩
    rintro tx ⟨⟩
    refine ⟨by decide +kernel, ?_⟩
    rw [Ledger.stateFor, hstore', hblock', hstore, hblock]
    decide

end Sample

/-- **One slot of bytecode that is not deployed**: each transaction of the
run is signed and numbered as it has to be, and the allocation is
refused. -/
theorem sample_not_deployed :
    Hosts Sample.machine ∧
      Deployment Sample.machine 1 Sample.package Sample.empty Sample.steps ∧
      ¬ Deployed Sample.machine 1 Sample.package Sample.empty Sample.steps := by
  refine ⟨Sample.hosts, Sample.deployment, fun h => ?_⟩
  exact not_succeeds Sample.hosts rfl (h.succeeds.1 _ rfl)

/-- The run, through the theorem on all deployments. -/
theorem not_deployed_sample :
    ¬ Deployed Sample.machine 1 Sample.package Sample.empty Sample.steps :=
  not_deployed Sample.hosts Sample.deployment

/-! ## What an installation checks -/

section Install

variable {H : Type} (C : Crypto H) (env : Environment) (seed : FixedBytes 32)

/-- **Complete and checked bytecode**: what is to hold of the second
account of an installation and of what it contains. -/
structure Checked (buffer : Pubkey × AccountView) (content : BytecodeAccount) : Prop where
  second : env.accounts[1]? = some buffer
  read : readBytecode buffer.2 = .ok content
  slots : content.mask.1.length = slots content.size.toNat
  complete : ∀ s ∈ content.mask.1, s = true
  size : content.bytecode.1.length = content.size.toNat
  checksum : C.digest (C.sha3 content.bytecode.1) = content.checksum.1
  owner : buffer.2.owner = some env.address
  signed : ∃ a ∈ env.accounts, a.1 = content.authority ∧ a.2.signer = true

/-- The tests of `process_install`: the two derived addresses, both
writable, the second not owned by the contract and readable, and the
signature of the authority. -/
structure Passes (contract buffer signer : Pubkey × AccountView)
    (content : BytecodeAccount) : Prop where
  first : env.accounts[0]? = some contract
  second : env.accounts[1]? = some buffer
  third : env.accounts[2]? = some signer
  contractAddr : contract.1 = env.address.derive C [seed.1]
  bufferAddr : buffer.1 = env.address.derive C [seed.1, textBytes "bytecode"]
  writable : contract.2.writable = true ∧ buffer.2.writable = true
  foreign : buffer.2.owner ≠ some env.address
  read : readBytecode buffer.2 = .ok content
  authority : content.authority = signer.1
  signed : signer.2.signer = true
  complete : ∀ s ∈ content.mask.1, s = true

variable {C env seed} {init : Option (Vec UInt8)}

/-- What a successful installation passed. -/
theorem passes_of_processInstall {outputs : List Output}
    (h : processInstall C env seed init = some (.ok outputs)) :
    ∃ contract buffer signer content, Passes C env seed contract buffer signer content := by
  unfold processInstall at h
  split at h
  · cases h
  split at h
  · cases h
  rename_i hcontract
  split at h
  · cases h
  rename_i hcw
  split at h
  · cases h
  rename_i hbuffer
  split at h
  · cases h
  rename_i hbw
  split at h
  · cases h
  rename_i howner
  split at h
  · cases h
  rename_i content hread
  split at h
  · cases h
  rename_i hthird
  split at h
  · cases h
  rename_i hauth
  split at h
  · cases h
  rename_i hsigned
  split at h
  · cases h
  rename_i hmask
  obtain ⟨hfirst, hcaddr⟩ := contractAccount_eq_ok.1 hcontract
  obtain ⟨hsecond, hbaddr⟩ := bytecodeAccount_eq_ok.1 hbuffer
  exact ⟨_, _, _, content,
    { first := hfirst
      second := hsecond
      third := hthird
      contractAddr := hcaddr
      bufferAddr := hbaddr
      writable := ⟨by simpa using hcw, by simpa using hbw⟩
      foreign := by simpa using howner
      read := hread
      authority := not_not.1 hauth
      signed := by simpa using hsigned
      complete := by simpa using hmask }⟩

/-- Whatever passes the tests is installed. -/
theorem processInstall_of_passes (init : Option (Vec UInt8))
    {contract buffer signer : Pubkey × AccountView} {content : BytecodeAccount}
    (h : Passes C env seed contract buffer signer content) :
    ∃ outputs, processInstall C env seed init = some (.ok outputs) := by
  have hlen : ¬ env.address.bytes.length < 3 := by
    rw [Pubkey.length_bytes]
    omega
  have howner : ¬ (buffer.2.owner == some env.address) = true := by
    simpa using h.foreign
  have hmask : ¬ (content.mask.1.any fun s => !s) = true := by
    simpa using h.complete
  refine ⟨[.logEntry "action" "install", .logEntry "contract" (C.toBase58 contract.1),
    .deleteOwnedAccount buffer.1, .createExecutableAccount contract.1 content.bytecode.1] ++
      initCall env contract.1 init, ?_⟩
  rw [processInstall, if_neg hlen]
  simp only [contractAccount_eq_ok.2 ⟨h.first, h.contractAddr⟩,
    bytecodeAccount_eq_ok.2 ⟨h.second, h.bufferAddr⟩, h.writable.1, h.writable.2, h.read, h.third,
    h.authority, h.signed, if_neg howner, if_neg hmask, Bool.not_true, ne_eq, not_true_eq_false,
    Bool.false_eq_true, if_false]

/-- **An installation is checked only where it is refused**: in every
environment, whatever is installed is complete and checked exactly when
nothing passes the tests, because none of them compares the owner of the
buffer with the contract for equality. -/
theorem checksInstall_iff (C : Crypto H) (env : Environment) (seed : FixedBytes 32)
    (init : Option (Vec UInt8)) :
    (∀ outputs, processInstall C env seed init = some (.ok outputs) →
      ∃ buffer content, Checked C env buffer content) ↔
    ¬ ∃ contract buffer signer content, Passes C env seed contract buffer signer content := by
  constructor
  · rintro h ⟨contract, buffer, signer, content, hpass⟩
    obtain ⟨outputs, hout⟩ := processInstall_of_passes init hpass
    obtain ⟨buffer', content', hchecked⟩ := h outputs hout
    obtain rfl : buffer = buffer' := Option.some.inj (hpass.second.symm.trans hchecked.second)
    exact hpass.foreign hchecked.owner
  · intro h outputs hout
    exact absurd (passes_of_processInstall hout) h

end Install

namespace Sample

/-- A buffer as an allocation leaves it: nothing was uploaded. -/
def unfilled : BytecodeAccount where
  authority := 7
  size := 5
  checksum := package.seed
  mask := ⟨[], Borsh.length_nil_lt⟩
  bytecode := ⟨[], Borsh.length_nil_lt⟩

/-- An environment that shows that buffer as an account without owner. -/
def foreignEnv : Environment where
  caller := none
  address := wasmVmBuiltinAddr
  accounts :=
    [(package.contractAddr sampleCrypto, ⟨false, true, false, none, none⟩),
      (package.bufferAddr sampleCrypto,
        ⟨false, true, false, none, some (Borsh.serialize unfilled)⟩),
      (7, ⟨true, false, false, none, none⟩)]

end Sample

/-- **Bytecode that was never uploaded is installed**: the size is not five
bytes, the checksum is not compared, and the contract does not own the
buffer. -/
theorem unfilled_installed :
    (∃ outputs, processInstall sampleCrypto Sample.foreignEnv Sample.package.seed none =
      some (.ok outputs)) ∧
    ¬ ∃ buffer content, Checked sampleCrypto Sample.foreignEnv buffer content := by
  constructor
  · have hpass : Passes sampleCrypto Sample.foreignEnv Sample.package.seed
        (Sample.package.contractAddr sampleCrypto, ⟨false, true, false, none, none⟩)
        (Sample.package.bufferAddr sampleCrypto,
          ⟨false, true, false, none, some (Borsh.serialize Sample.unfilled)⟩)
        (7, ⟨true, false, false, none, none⟩) Sample.unfilled :=
      { first := rfl, second := rfl, third := rfl
        contractAddr := by simp only [Sample.foreignEnv, Package.contractAddr]
        bufferAddr := by simp only [Sample.foreignEnv, Package.bufferAddr]
        writable := ⟨rfl, rfl⟩, foreign := nofun, authority := rfl, signed := rfl
        read := by simp only [readBytecode, Borsh.tryFromSlice_serialize]
        complete := by decide }
    exact processInstall_of_passes none hpass
  · rintro ⟨buffer, content, h⟩
    obtain rfl := Option.some.inj h.second
    exact nomatch h.owner

end WasmVM

end Rensa
