import Rensa.Vm.Model.Machine
/-!
# A ledger over many blocks

`Ledger` is the store of finalized accounts with the block that is being
executed on it: a transaction runs on the store overlaid with what the
block changed so far, and a finalized block is applied to the store.
-/

namespace Rensa

/-- The finalized accounts, and the outcome of the block under way. -/
structure Ledger (H : Type) where
  store : PersistentState
  block : BlockOutput H := {}

/-- What happens to a ledger. -/
inductive LedgerStep
  | execute (tx : Transaction)
  | finalize
deriving DecidableEq

namespace Ledger

variable {H : Type}

/-- The state the next transaction is executed on, but for the nonce of
its payer. -/
def view (l : Ledger H) : State := overlayed l.store.get l.block.state.get

variable (vm : Machine H)

/-- The environment of a transaction of the block. -/
def environment (l : Ledger H) (tx : Transaction) : Environment :=
  vm.createEnvironment
    (overlayed l.store.get (Machine.bumpNonce l.store.get l.block.state tx.payer).get)
    tx.accounts tx.contract none

variable [DecidableEq H]

/-- One step: a transaction of the block, or the end of the block. -/
def step (fuel : ℕ) (l : Ledger H) : LedgerStep → Option (Ledger H)
  | .execute tx =>
    (vm.executeNext fuel l.store.get l.block tx).map fun block => { l with block }
  | .finalize => some { store := l.store.apply l.block.state }

/-- Steps one after another. -/
def run (fuel : ℕ) (l : Ledger H) (steps : List LedgerStep) : Option (Ledger H) :=
  steps.foldlM (step vm fuel) l

end Ledger

end Rensa
