import Rensa.Vm.Model.Runtime
/-!
# What a contract can do to its host

The host takes three kinds of slices of a module's memory. Regions are
checked before they are sliced, though with one byte too many: a region
that ends where the memory does is refused. The two copies into the module
are not checked at all, so the host panics exactly where a pointer that
`allocate` returns leaves no room for what is copied there
(`Runtime.invoke_returns_iff`).
-/

namespace Rensa

namespace Runtime

variable {σ α β γ : Type} {m : ModuleState σ}

/-! ## Regions -/

theorem regionStart_le (region : UInt64) : regionStart region ≤ regionEnd region :=
  Nat.le_add_right _ _

/-- A slice inside of the bytes is taken. -/
theorem slice_eq_some {bytes : Bytes} {start stop : ℕ} (hle : start ≤ stop)
    (hstop : stop ≤ bytes.length) :
    slice bytes start stop = some ((bytes.drop start).take (stop - start)) :=
  if_pos ⟨hle, hstop⟩

/-- **No slice of a region is out of range.** -/
theorem isSome_regionBytes (refusal : String) (memory : Bytes) (region : UInt64) :
    (regionBytes refusal memory region).isSome = true := by
  unfold regionBytes
  split
  · rfl
  · rename_i hend
    rw [slice_eq_some (regionStart_le region) (by omega)]
    rfl

/-- **Which regions are decoded**: those that end before the memory
does. -/
theorem regionBytes_eq_ok_iff {refusal : String} {memory : Bytes} {region : UInt64} :
    regionBytes refusal memory region =
        some (.ok ((memory.drop (regionStart region)).take
          (regionEnd region - regionStart region))) ↔
      regionEnd region < memory.length := by
  unfold regionBytes
  constructor
  · intro h
    split at h
    · cases h
    · omega
  · intro h
    rw [if_neg (by omega), slice_eq_some (regionStart_le region) (by omega)]
    rfl

/-! ## Steps of the host -/

/-- What has to hold for a step not to panic. -/
theorem isSome_andThen {x : Hosted σ α} {next : α → ModuleState σ → Hosted σ β} :
    (andThen x next).isSome = true ↔
      x.isSome = true ∧ ∀ a m, x = some (.ok (a, m)) → (next a m).isSome = true := by
  rcases x with _ | e | ⟨a, m⟩
  · simp [andThen]
  · simp [andThen]
  · simp [andThen]

theorem isSome_lookup {export? : Except String γ} {next : γ → Hosted σ β} :
    (lookup export? next).isSome = true ↔ ∀ f, export? = .ok f → (next f).isSome = true := by
  cases export? with
  | error message => simp [lookup]
  | ok f => simp [lookup]

variable {inst : Instance σ}

theorem isSome_abort {memory : Option Bytes} {region : UInt64} :
    (abort inst memory region).isSome = true := by
  cases memory with
  | none => rfl
  | some memory => simp only [abort, Option.isSome_map, isSome_regionBytes]

/-- Whatever a call into the module comes to, the host goes on. -/
theorem isSome_finish (c : Call σ α) : (finish inst c).isSome = true := by
  cases c with
  | returns value m => rfl
  | traps message => rfl
  | aborts region m => simp only [finish, Option.isSome_map, isSome_abort]

theorem finish_eq_ok {c : Call σ α} {a : α} {m' : ModuleState σ} :
    finish inst c = some (.ok (a, m')) ↔ c = .returns a m' := by
  cases c with
  | returns value m => simp [finish]
  | traps message => simp [finish]
  | aborts region m => simp [finish]

theorem isSome_allocate {n : ℕ} : (allocate inst n m).isSome = true :=
  isSome_lookup.2 fun _ _ => isSome_finish _

theorem lookup_eq_ok {export? : Except String γ} {next : γ → Hosted σ β} {r : β × ModuleState σ} :
    lookup export? next = some (.ok r) ↔ ∃ f, export? = .ok f ∧ next f = some (.ok r) := by
  cases export? with
  | error message => simp [lookup]
  | ok f => simp [lookup]

theorem andThen_eq_ok {x : Hosted σ α} {next : α → ModuleState σ → Hosted σ β}
    {r : β × ModuleState σ} :
    andThen x next = some (.ok r) ↔ ∃ a m, x = some (.ok (a, m)) ∧ next a m = some (.ok r) := by
  rcases x with _ | e | ⟨a, m⟩
  · simp [andThen]
  · simp [andThen]
  · simp [andThen]

/-- What `allocate` returns is what the module computes. -/
theorem allocate_eq_ok {n : ℕ} {ptr : UInt32} {m' : ModuleState σ} :
    allocate inst n m = some (.ok (ptr, m')) ↔
      ∃ f, inst.allocate = .ok f ∧ f m (UInt32.ofNat n) = .returns ptr m' := by
  rw [allocate, lookup_eq_ok]
  simp only [finish_eq_ok]

/-- A copy does not panic where its bytes fit. -/
theorem isSome_copy {dst : UInt32} {src : Bytes} :
    (copyToContractMemory inst dst src m).isSome = true ↔
      (inst.memory = .ok () → dst.toNat + src.length ≤ m.memory.length) := by
  rw [copyToContractMemory, isSome_lookup]
  constructor
  · intro h hmem
    have := h () hmem
    by_contra hlt
    rw [if_neg hlt] at this
    cases this
  · intro h _ hmem
    rw [if_pos (h hmem)]
    rfl

theorem copy_eq_ok {dst : UInt32} {src : Bytes} {m' : ModuleState σ} {u : Unit} :
    copyToContractMemory inst dst src m = some (.ok (u, m')) ↔
      inst.memory = .ok () ∧ dst.toNat + src.length ≤ m.memory.length ∧
        m' = written m dst src := by
  rw [copyToContractMemory, lookup_eq_ok]
  constructor
  · rintro ⟨_, hmem, h⟩
    split at h
    · rename_i hle
      exact ⟨hmem, hle, (Prod.mk.inj (Except.ok.inj (Option.some.inj h))).2.symm⟩
    · cases h
  · rintro ⟨hmem, hle, rfl⟩
    exact ⟨(), hmem, by rw [if_pos hle]⟩

theorem isSome_collectOutput {ptr : UInt32} : (collectOutput inst ptr m).isSome = true := by
  rw [collectOutput, isSome_lookup]
  intro f _
  rw [isSome_andThen]
  refine ⟨isSome_finish _, fun region m' _ => ?_⟩
  rw [isSome_lookup]
  intro _ _
  rw [Option.isSome_map, isSome_regionBytes]

/-! ## When an invocation returns -/

/-- Wherever `allocate` puts `n` bytes, there is room for them. -/
def Fits (inst : Instance σ) (m : ModuleState σ) (n : ℕ) : Prop :=
  inst.memory = .ok () → ∀ f ptr m', inst.allocate = .ok f →
    f m (UInt32.ofNat n) = .returns ptr m' → ptr.toNat + n ≤ m'.memory.length

/-- **The room an invocation needs**: where the module exports `main` and
the environment can be written, its bytes fit where `allocate` puts them;
and where the module then takes the environment, and the parameters can be
written, theirs fit where `allocate` puts them next. -/
def Room (inst : Instance σ) (m : ModuleState σ) (env : Environment) (params : Bytes) : Prop :=
  (∃ f, inst.main = .ok f) → ∀ bytes, env.tryToVec = some bytes →
    Fits inst m bytes.length ∧
    ((∃ f, inst.params = .ok f) → params.length < 2 ^ 32 → inst.memory = .ok () →
      ∀ allocate ptr m₁, inst.allocate = .ok allocate →
        allocate m (UInt32.ofNat bytes.length) = .returns ptr m₁ →
      ∀ environment envPtr m₂, inst.environment = .ok environment →
        environment (written m₁ ptr bytes) ptr (UInt32.ofNat bytes.length) = .returns envPtr m₂ →
      Fits inst m₂ (4 + params.length))

/-- Allocating and copying, for any step that follows. -/
theorem isSome_deliver {bytes : Bytes} {next : UInt32 → ModuleState σ → Hosted σ β}
    (hnext : ∀ ptr m, (next ptr m).isSome = true) :
    (andThen (allocate inst bytes.length m) fun ptr m =>
      andThen (copyToContractMemory inst ptr bytes m) fun _ m => next ptr m).isSome = true ↔
    Fits inst m bytes.length := by
  simp only [isSome_andThen, isSome_allocate, true_and, allocate_eq_ok, isSome_copy, hnext,
    implies_true, and_true, Fits]
  constructor
  · intro h hmem f ptr m' hf hret
    exact h ptr m' ⟨f, hf, hret⟩ hmem
  · rintro h ptr m' ⟨f, hf, hret⟩ hmem
    exact h hmem f ptr m' hf hret

theorem isSome_deliverEnvironment {env : Environment} :
    (deliverEnvironment inst env m).isSome = true ↔
      ∀ bytes, env.tryToVec = some bytes → Fits inst m bytes.length := by
  rw [deliverEnvironment]
  cases env.tryToVec with
  | none => simp
  | some bytes =>
    simp only [Option.some.injEq, forall_eq']
    exact isSome_deliver fun ptr m => isSome_lookup.2 fun _ _ => isSome_finish _

theorem isSome_deliverParams {params : Bytes} :
    (deliverParams inst params m).isSome = true ↔
      ((∃ f, inst.params = .ok f) → params.length < 2 ^ 32 →
        Fits inst m (4 + params.length)) := by
  have hlen : (leBytes 4 params.length ++ params).length = 4 + params.length := by simp
  rw [deliverParams, isSome_lookup]
  constructor
  · rintro h ⟨f, hf⟩ hlt
    have := h f hf
    rw [if_neg (by omega)] at this
    exact hlen ▸ (isSome_deliver fun _ _ => isSome_finish _).1 this
  · intro h f hf
    split
    · rfl
    · rename_i hle
      refine (isSome_deliver fun _ _ => isSome_finish _).2 ?_
      rw [hlen]
      exact h ⟨f, hf⟩ (by omega)

theorem deliverEnvironment_eq_ok {env : Environment} {envPtr : UInt32} {m₂ : ModuleState σ} :
    deliverEnvironment inst env m = some (.ok (envPtr, m₂)) ↔
      ∃ bytes allocate ptr m₁ environment, env.tryToVec = some bytes ∧
        inst.allocate = .ok allocate ∧
        allocate m (UInt32.ofNat bytes.length) = .returns ptr m₁ ∧ inst.memory = .ok () ∧
        ptr.toNat + bytes.length ≤ m₁.memory.length ∧ inst.environment = .ok environment ∧
        environment (written m₁ ptr bytes) ptr (UInt32.ofNat bytes.length) =
          .returns envPtr m₂ := by
  rw [deliverEnvironment]
  cases env.tryToVec with
  | none => simp
  | some bytes =>
    simp only [andThen_eq_ok, lookup_eq_ok, allocate_eq_ok, finish_eq_ok, copy_eq_ok]
    constructor
    · rintro ⟨ptr, m₁, ⟨f, hf, hret⟩, _, _, ⟨hmem, hle, rfl⟩, g, hg, hcall⟩
      exact ⟨bytes, f, ptr, m₁, g, rfl, hf, hret, hmem, hle, hg, hcall⟩
    · rintro ⟨_, f, ptr, m₁, g, ⟨⟩, hf, hret, hmem, hle, hg, hcall⟩
      exact ⟨ptr, m₁, ⟨f, hf, hret⟩, (), _, ⟨hmem, hle, rfl⟩, g, hg, hcall⟩

/-- **When an invocation returns.** -/
theorem isSome_invoke {env : Environment} {params : Bytes} :
    (invoke inst m env params).isSome = true ↔ Room inst m env params := by
  rw [invoke]
  simp only [Option.isSome_map, isSome_lookup, isSome_andThen, isSome_finish,
    isSome_collectOutput, implies_true, and_true, isSome_deliverEnvironment,
    isSome_deliverParams, deliverEnvironment_eq_ok]
  constructor
  · rintro h ⟨f, hf⟩ bytes hbytes
    obtain ⟨hfirst, hsecond⟩ := h f hf
    refine ⟨hfirst bytes hbytes, ?_⟩
    intro hparams hlt hmem allocate ptr m₁ hallocate hret environment envPtr m₂ hcalled hcall
    exact hsecond envPtr m₂ ⟨bytes, allocate, ptr, m₁, environment, hbytes, hallocate, hret, hmem,
      hfirst bytes hbytes hmem allocate ptr m₁ hallocate hret, hcalled, hcall⟩ hparams hlt
  · intro h f hf
    refine ⟨fun bytes hbytes => (h ⟨f, hf⟩ bytes hbytes).1, ?_⟩
    rintro envPtr m₂ ⟨bytes, allocate, ptr, m₁, environment, hbytes, hallocate, hret, hmem, -,
      hcalled, hcall⟩ hparams hlt
    exact (h ⟨f, hf⟩ bytes hbytes).2 hparams hlt hmem allocate ptr m₁ hallocate hret environment
      envPtr m₂ hcalled hcall

/-- **A contract and its host**: for every module, state of its memory and
input, `invoke` does not panic exactly where there is room for what is
copied; no slice of a region is ever out of range; and for every memory and
region, a region inside of the memory is taken for decoding exactly where
it does not end with the memory. -/
theorem invoke_returns_iff (inst : Instance σ) (m : ModuleState σ) (env : Environment)
    (params : Bytes) :
    ((invoke inst m env params).isSome = true ↔ Room inst m env params) ∧
      ∀ refusal memory region, (regionBytes refusal memory region).isSome = true ∧
        ((regionEnd region ≤ memory.length →
            regionBytes refusal memory region =
              some (.ok ((memory.drop (regionStart region)).take
                (regionEnd region - regionStart region)))) ↔
          regionEnd region ≠ memory.length) := by
  refine ⟨isSome_invoke, fun refusal memory region => ⟨isSome_regionBytes _ _ _, ?_⟩⟩
  rw [regionBytes_eq_ok_iff]
  omega

namespace Sample

/-- A page of memory. -/
def page : ModuleState Unit := { memory := List.replicate 65536 0, rest := () }

/-- A module whose `allocate` returns the address of the last byte of its
memory, whatever the size. -/
def careless : Instance Unit where
  memory := .ok ()
  allocate := .ok fun m _ => .returns 65535 m
  environment := .ok fun m ptr _ => .returns ptr m
  params := .ok fun m ptr _ => .returns ptr m
  main := .ok fun m _ _ => .returns 0 m
  output := .ok fun m _ => .returns 0 m
  trapText _ := "trap"
  readText _ := "read"
  writeText := "write"

/-- An environment without accounts. -/
def env : Environment := { caller := none, address := 200, accounts := [] }

end Sample

/-- **A contract that crashes its host**, and a region that is refused
though it lies inside of the memory: it is all of it. -/
theorem careless_panics :
    invoke Sample.careless Sample.page Sample.env [] = none ∧
      regionEnd 65536 = Sample.page.memory.length ∧
      regionBytes "Invalid outputs format" Sample.page.memory 65536 =
        some (.error (.runtime "Invalid outputs format")) := by
  have hend : regionEnd 65536 = Sample.page.memory.length := by
    rw [Sample.page, List.length_replicate]
    decide
  refine ⟨?_, hend, if_pos hend.ge⟩
  rw [← Option.not_isSome_iff_eq_none, isSome_invoke]
  intro hroom
  obtain ⟨hfits, -⟩ := hroom ⟨_, rfl⟩ _ rfl
  have hle := hfits rfl _ _ _ rfl rfl
  rw [Sample.page, List.length_replicate] at hle
  revert hle
  decide

end Runtime

end Rensa
