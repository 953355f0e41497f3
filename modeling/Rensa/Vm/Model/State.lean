import Rensa.Primitives.Model
/-!
# The ledger state

A `State` is what the `State` trait lets a reader see: the account at an
address. `StateDiff` is the change a transaction or a block makes, kept
as accounts set and addresses deleted; `overlayed` is the view of one
state over another; `PersistentState` is the store of finalized
accounts.
-/

namespace Rensa

/-- A readable state: the account at every address. -/
abbrev State := Pubkey → Option Account

/-- The change a transaction or a block makes to the state. -/
@[ext] structure StateDiff where
  data : Std.ExtTreeMap Pubkey Account := ∅
  deletes : Std.ExtTreeSet Pubkey := ∅

namespace StateDiff

/-- `StateDiff::get`: the account the diff sets. -/
def get (d : StateDiff) : State := fun k => d.data[k]?

/-- `StateDiff::set`. -/
def set (d : StateDiff) (k : Pubkey) (a : Account) : StateDiff :=
  { data := d.data.insert k a, deletes := d.deletes.erase k }

/-- `StateDiff::remove`: the account set before, if any, stays in
`data`. -/
def remove (d : StateDiff) (k : Pubkey) : StateDiff :=
  { d with deletes := d.deletes.insert k }

/-- `StateDiff::merge`: `newer` on top of `d`. -/
def merge (d newer : StateDiff) : StateDiff :=
  let d := newer.data.toList.foldl (fun d p => d.set p.1 p.2) d
  newer.deletes.toList.foldl (fun d k => d.remove k) d

/-- `StateDiff::iter`: the accounts set, then the addresses deleted. -/
def iter (d : StateDiff) : List (Pubkey × Option Account) :=
  d.data.toList.map (fun p => (p.1, some p.2)) ++ d.deletes.toList.map fun k => (k, none)

end StateDiff

/-- `Overlayed::get`: the overlay first, then the base. -/
def overlayed (base overlay : State) : State := fun k =>
  match overlay k with
  | none => base k
  | some a => some a

/-- The fields of an account that its encoding on disk keeps: `executable`
is marked `serde(skip)`. -/
structure StoredAccount where
  nonce : ℕ
  owner : Option Pubkey
  data : Option Bytes
deriving DecidableEq

/-- `bincode::serialize` of an account. -/
def Account.serialize (a : Account) : StoredAccount :=
  { nonce := a.nonce, owner := a.owner, data := a.data }

/-- `bincode::deserialize`: the skipped field takes its default. -/
def StoredAccount.deserialize (a : StoredAccount) : Account :=
  { executable := false, nonce := a.nonce, owner := a.owner, data := a.data }

/-- The store of finalized accounts. -/
structure PersistentState where
  db : Pubkey → Option StoredAccount

namespace PersistentState

/-- `PersistentState::get`. -/
def get (s : PersistentState) : State := fun k => (s.db k).map StoredAccount.deserialize

/-- `PersistentState::apply`: one batch with the operations of `iter` in
order, the last one of a key winning. -/
def apply (s : PersistentState) (d : StateDiff) : PersistentState :=
  { db := d.iter.foldl (fun db p => Function.update db p.1 (p.2.map Account.serialize)) s.db }

end PersistentState

end Rensa
