import Mathlib.Algebra.BigOperators.Group.Finset.Piecewise
import Mathlib.Algebra.Order.BigOperators.Group.Finset
/-!
# An account book

A book keeps the coins of its owners and how many of them there are. An entry
mints coins, moves them or burns them, and is refused where it is for nothing,
where somebody else than the authority mints, or where the coins are not
there. A book whose balances add up stays so (`Balanced.post`), so that two
accounts never have more together than there are coins.
-/

namespace Rensa

/-- What is entered into a book. -/
inductive Entry (W : Type*)
  | mint (authority recipient : W) (amount : ℕ)
  | transfer (sender recipient : W) (amount : ℕ)
  | burn (owner : W) (amount : ℕ)

/-- The coins of a mint. -/
structure Book (W : Type*) where
  authority : W
  supply : ℕ := 0
  balance : W → ℕ := fun _ => 0

namespace Entry

variable {W : Type*}

/-- The owners of an entry. -/
def Within (S : Finset W) : Entry W → Prop
  | .mint _ recipient _ => recipient ∈ S
  | .transfer sender recipient _ => sender ∈ S ∧ recipient ∈ S
  | .burn owner _ => owner ∈ S

/-- The coins an entry mints. -/
def minted : Entry W → ℕ
  | .mint _ _ amount => amount
  | _ => 0

end Entry

namespace Book

variable {W : Type*} [DecidableEq W] {b : Book W} {S : Finset W} {e : Entry W} {w w' : W}
variable {n : ℕ}

/-- The entry is not refused. -/
def Allows (b : Book W) : Entry W → Prop
  | .mint authority _ amount => 0 < amount ∧ authority = b.authority
  | .transfer sender _ amount => 0 < amount ∧ amount ≤ b.balance sender
  | .burn owner amount => 0 < amount ∧ amount ≤ b.balance owner

instance (b : Book W) (e : Entry W) : Decidable (b.Allows e) := by
  cases e <;> exact inferInstanceAs (Decidable (_ ∧ _))

/-- Coins for an owner. -/
def credit (f : W → ℕ) (w : W) (n : ℕ) : W → ℕ := Function.update f w (f w + n)

/-- Coins of an owner. -/
def debit (f : W → ℕ) (w : W) (n : ℕ) : W → ℕ := Function.update f w (f w - n)

@[simp] theorem credit_self (f : W → ℕ) (w : W) (n : ℕ) : credit f w n w = f w + n :=
  Function.update_self _ _ _

@[simp] theorem debit_self (f : W → ℕ) (w : W) (n : ℕ) : debit f w n w = f w - n :=
  Function.update_self _ _ _

theorem credit_of_ne (f : W → ℕ) (h : w' ≠ w) : credit f w n w' = f w' :=
  Function.update_of_ne h _ _

theorem debit_of_ne (f : W → ℕ) (h : w' ≠ w) : debit f w n w' = f w' :=
  Function.update_of_ne h _ _

/-- What an entry makes of the book. -/
def enter (b : Book W) : Entry W → Book W
  | .mint _ recipient amount =>
    { b with supply := b.supply + amount, balance := credit b.balance recipient amount }
  | .transfer sender recipient amount =>
    { b with balance := credit (debit b.balance sender amount) recipient amount }
  | .burn owner amount =>
    { b with supply := b.supply - amount, balance := debit b.balance owner amount }

/-- The book after an entry, or after its refusal. -/
def post (b : Book W) (e : Entry W) : Book W := if b.Allows e then b.enter e else b

/-- The book after some entries. -/
def run (b : Book W) (es : List (Entry W)) : Book W := es.foldl post b

/-- The balances of the owners are all the coins there are. -/
def Balanced (S : Finset W) (b : Book W) : Prop := ∑ w ∈ S, b.balance w = b.supply

omit [DecidableEq W] in
theorem Balanced.le (h : b.Balanced S) (hw : w ∈ S) : b.balance w ≤ b.supply :=
  h ▸ Finset.single_le_sum (fun _ _ => Nat.zero_le _) hw

/-- **Two accounts have no more together than there are coins.** -/
theorem Balanced.add_le (h : b.Balanced S) (hw : w ∈ S) (hw' : w' ∈ S) (hne : w ≠ w') :
    b.balance w + b.balance w' ≤ b.supply := by
  rw [← h, ← Finset.add_sum_erase S b.balance hw]
  exact Nat.add_le_add_left (Finset.single_le_sum (fun _ _ => Nat.zero_le _)
    (Finset.mem_erase.2 ⟨Ne.symm hne, hw'⟩)) _

theorem sum_credit {f : W → ℕ} (hw : w ∈ S) : ∑ i ∈ S, credit f w n i = ∑ i ∈ S, f i + n := by
  have hnew := Finset.sum_update_of_mem hw f (f w + n)
  have hold := Finset.add_sum_erase S f hw
  rw [Finset.sdiff_singleton_eq_erase] at hnew
  rw [credit, hnew]
  omega

theorem sum_debit {f : W → ℕ} (hw : w ∈ S) (hle : n ≤ f w) :
    ∑ i ∈ S, debit f w n i + n = ∑ i ∈ S, f i := by
  have hnew := Finset.sum_update_of_mem hw f (f w - n)
  have hold := Finset.add_sum_erase S f hw
  rw [Finset.sdiff_singleton_eq_erase] at hnew
  rw [debit, hnew]
  omega

/-- **An entry keeps the book balanced.** -/
theorem Balanced.post (h : b.Balanced S) (he : e.Within S) : (b.post e).Balanced S := by
  unfold Book.post
  split
  case isFalse => exact h
  case isTrue hallowed =>
    unfold Balanced at h ⊢
    cases e with
    | mint authority recipient amount =>
      exact (sum_credit he).trans (congrArg (· + amount) h)
    | transfer sender recipient amount =>
      have hdebit := sum_debit he.1 hallowed.2
      have hcredit := sum_credit (f := debit b.balance sender amount) (n := amount) he.2
      exact hcredit.trans (hdebit.trans h)
    | burn owner amount =>
      have hdebit := sum_debit he hallowed.2
      simp only [enter]
      omega

/-- The coins there are, with those an entry mints. -/
theorem supply_post_le : (b.post e).supply ≤ b.supply + e.minted := by
  unfold post
  split
  · cases e with
    | mint => exact le_rfl
    | transfer => exact le_rfl
    | burn => exact Nat.sub_le _ _
  · exact Nat.le_add_right _ _

end Book

end Rensa
