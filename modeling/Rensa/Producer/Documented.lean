import Mathlib.Data.List.SplitBy
import Rensa.Producer.Order
/-!
# The documented order

Transactions are to be sorted by hash, those of one payer with rising
nonces counting as one group under the hash of the first (`Documented`).
`verify_transactions_order` looks for falling nonces instead, and it starts
a group with the transaction it is about to compare. So it accepts most
lists whose groups are out of order, and refuses some lists in order: those
where a payer's nonces go up and down again and the hash goes down with
them (`Zigzag`). `verifyTransactionsOrder_documented_iff` says when it is
right.
-/

namespace Rensa

open Machine (withinPayerGroup)

namespace Producer

variable {H : Type} [Ord H] {C : Crypto H}

/-- `b` goes on with the group of `a`: the same payer and the next nonce. -/
def follows (a b : Transaction) : Bool := a.payer == b.payer && b.nonce == a.nonce + 1

omit [Ord H] in
/-- The hashes of the first transactions of the maximal groups. -/
def groupHeads (C : Crypto H) (txs : List Transaction) : List H :=
  (txs.splitBy follows).filterMap (leadHash C)

/-- **The documented order**: the hashes of the first transactions of the
maximal groups do not go down. -/
def Documented (C : Crypto H) (txs : List Transaction) : Prop :=
  (groupHeads C txs).Pairwise fun x y => compare y x ≠ .lt

instance (C : Crypto H) (txs : List Transaction) : Decidable (Documented C txs) :=
  inferInstanceAs (Decidable (List.Pairwise _ _))

/-- The first transaction of a group has a hash above that of a later one. -/
def Misplaced (C : Crypto H) (txs : List Transaction) : Prop :=
  ∃ x y, [x, y].Sublist (groupHeads C txs) ∧ compare y x = .lt

/-- A descending run that is not at the front holds a hash below that of
its first transaction. -/
def LateInversion (C : Crypto H) (txs : List Transaction) : Prop :=
  ∃ pre p x post, txs = pre ++ p :: x :: post ∧ withinPayerGroup x p = false ∧
    ∃ y ∈ descent x post, compare (y.hash C) (x.hash C) = .lt

/-- Three neighbours of one payer whose nonces go up by one and down by one
again, the last with a hash below that of the one before it. -/
def Zigzag (C : Crypto H) (txs : List Transaction) : Prop :=
  ∃ pre p x y post, txs = pre ++ p :: x :: y :: post ∧ follows p x = true ∧
    withinPayerGroup y x = true ∧ compare (y.hash C) (x.hash C) = .lt

/-! ## Groups -/

/-- **What the documented order asks**: the list falls into groups, in each
of them one payer and each nonce one above the one before, the last of a
group and the first of the next not so, and the hashes of the first
transactions do not go down. -/
theorem documented_iff_groups {txs : List Transaction} :
    Documented C txs ↔ ∃ gs : List (List Transaction), txs = gs.flatten ∧ [] ∉ gs ∧
      (∀ g ∈ gs, g.IsChain fun a b => a.payer = b.payer ∧ b.nonce = a.nonce + 1) ∧
      (gs.IsChain fun g g' => ∃ hg hg', ¬ ((g.getLast hg).payer = (g'.head hg').payer ∧
        (g'.head hg').nonce = (g.getLast hg).nonce + 1)) ∧
      (gs.filterMap (leadHash C)).Pairwise fun x y => compare y x ≠ .lt := by
  -- the maximal groups are those `splitBy` finds
  have hsplit : ∀ gs : List (List Transaction), txs.splitBy follows = gs ↔ txs = gs.flatten ∧
      [] ∉ gs ∧ (∀ g ∈ gs, g.IsChain fun a b => a.payer = b.payer ∧ b.nonce = a.nonce + 1) ∧
      gs.IsChain fun g g' => ∃ hg hg', ¬ ((g.getLast hg).payer = (g'.head hg').payer ∧
        (g'.head hg').nonce = (g.getLast hg).nonce + 1) := by
    intro gs
    rw [List.splitBy_eq_iff]
    simp only [follows, Bool.and_eq_true, beq_iff_eq, Bool.and_eq_false_iff, beq_eq_false_iff_ne,
      not_and_or, ne_eq]
  constructor
  · intro h
    obtain ⟨hflat, hnil, hchain, hmax⟩ := (hsplit _).1 rfl
    exact ⟨_, hflat, hnil, hchain, hmax, h⟩
  · rintro ⟨gs, hflat, hnil, hchain, hmax, h⟩
    rw [Documented, groupHeads, (hsplit gs).2 ⟨hflat, hnil, hchain, hmax⟩]
    exact h

theorem documented_iff_not_misplaced {txs : List Transaction} :
    Documented C txs ↔ ¬ Misplaced C txs := by
  rw [Documented, List.pairwise_iff_forall_sublist]
  constructor
  · rintro h ⟨x, y, hsub, hlt⟩
    exact h hsub hlt
  · intro h x y hsub hlt
    exact h ⟨x, y, hsub, hlt⟩

theorem orderedRuns_iff_not_lateInversion {txs : List Transaction} :
    OrderedRuns C txs ↔ ¬ LateInversion C txs := by
  constructor
  · rintro h ⟨pre, p, x, post, rfl, hw, y, hy, hlt⟩
    exact h pre p x post rfl hw y hy hlt
  · intro h pre p x post hsplit hw y hy hlt
    exact h ⟨pre, p, x, post, hsplit, hw, y, hy, hlt⟩

/-- No transaction goes both on and back. -/
theorem not_follows_of_within {x y : Transaction} (h : withinPayerGroup y x = true) :
    follows x y = false := by
  simp only [withinPayerGroup, Bool.and_eq_true, beq_iff_eq] at h
  rw [follows, Bool.and_eq_false_iff]
  right
  rw [beq_eq_false_iff_ne]
  omega

theorem not_within_of_follows {x y : Transaction} (h : follows x y = true) :
    withinPayerGroup y x = false := by
  by_contra hw
  rw [not_follows_of_within (by simpa using hw)] at h
  cases h

/-- A transaction that does not go on with the group before it starts
one. -/
theorem documented_of_append {pre : List Transaction} {p x : Transaction} {post : List Transaction}
    (h : Documented C (pre ++ p :: x :: post)) (hx : follows p x = false) :
    Documented C (x :: post) := by
  have hsplit : (pre ++ p :: x :: post).splitBy follows =
      (pre ++ [p]).splitBy follows ++ (x :: post).splitBy follows := by
    rw [List.append_cons]
    exact List.splitBy_append_cons post (by simpa using hx)
  rw [Documented, groupHeads, hsplit, List.filterMap_append] at h
  exact (List.pairwise_append.1 h).2.1

omit [Ord H] in
theorem groupHeads_cons_of_not {x y : Transaction} {l : List Transaction}
    (h : follows x y = false) :
    groupHeads C (x :: y :: l) = x.hash C :: groupHeads C (y :: l) := by
  have hsplit : (x :: y :: l).splitBy follows = [x] :: (y :: l).splitBy follows :=
    List.splitBy_append_cons (l := [x]) l (by simpa using h)
  rw [groupHeads, hsplit, List.filterMap_cons]
  rfl

omit [Ord H] in
theorem groupHeads_cons (x : Transaction) (l : List Transaction) :
    ∃ hs, groupHeads C (x :: l) = x.hash C :: hs := by
  have hne : (x :: l).splitBy follows ≠ [] := List.splitBy_ne_nil.2 (List.cons_ne_nil x l)
  have hfirst := List.head_head_splitBy follows (List.cons_ne_nil x l)
  have hgroup := List.ne_nil_of_mem_splitBy (List.head_mem hne)
  obtain ⟨g, gs, hgs⟩ := List.exists_cons_of_ne_nil hne
  simp only [hgs, List.head_cons] at hfirst hgroup
  obtain ⟨a, g, rfl⟩ := List.exists_cons_of_ne_nil hgroup
  obtain rfl : a = x := hfirst
  exact ⟨gs.filterMap (leadHash C), by rw [groupHeads, hgs, List.filterMap_cons]; rfl⟩

/-- **In documented order, a descending run at the start of a group goes up
in hashes.** -/
theorem descent_of_documented [Std.TransOrd H] {x : Transaction} {l : List Transaction}
    (h : Documented C (x :: l)) : ∀ y ∈ descent x l, compare (y.hash C) (x.hash C) ≠ .lt := by
  induction l generalizing x with
  | nil => simp [descent]
  | cons z l ih =>
    intro y hy
    by_cases hw : withinPayerGroup z x = true
    · have hz := not_follows_of_within hw
      obtain ⟨hs, hhs⟩ := groupHeads_cons (C := C) z l
      rw [Documented, groupHeads_cons_of_not hz, List.pairwise_cons] at h
      have hzx : compare (z.hash C) (x.hash C) ≠ .lt :=
        h.1 _ (by rw [hhs]; exact List.mem_cons_self)
      rw [descent, if_pos hw, List.mem_cons] at hy
      rcases hy with rfl | hy
      · exact hzx
      · have hyz := ih h.2 y hy
        rw [ne_eq, ← Ordering.isGE_iff_ne_lt] at hzx hyz ⊢
        exact Std.TransCmp.isGE_trans hyz hzx
    · rw [descent, if_neg hw] at hy
      exact absurd hy List.not_mem_nil

/-! ## Where the verifier is right -/

/-- **In documented order, what the verifier stumbles over is a zigzag.** A
run whose first transaction starts a group is in order; any other run goes
back from the second transaction of a group or a later one. -/
theorem lateInversion_iff_zigzag [Std.TransOrd H] {txs : List Transaction}
    (h : Documented C txs) : LateInversion C txs ↔ Zigzag C txs := by
  constructor
  · rintro ⟨pre, p, x, post, rfl, -, y, hy, hlt⟩
    have hpx : follows p x = true := by
      by_contra hpx
      exact descent_of_documented (documented_of_append h (by simpa using hpx)) y hy hlt
    obtain - | ⟨z, post⟩ := post
    · exact absurd hy List.not_mem_nil
    · by_cases hw : withinPayerGroup z x = true
      · refine ⟨pre, p, x, z, post, rfl, hpx, hw, ?_⟩
        have hz : Documented C (z :: post) := by
          rw [List.append_cons] at h
          exact documented_of_append h (not_follows_of_within hw)
        -- the run goes up in hashes after its second transaction
        rw [descent, if_pos hw, List.mem_cons] at hy
        rcases hy with rfl | hy
        · exact hlt
        · have hyz := descent_of_documented hz y hy
          rw [ne_eq, ← Ordering.isGE_iff_ne_lt] at hyz
          by_contra hzx
          rw [← Ordering.isGE_iff_ne_lt] at hzx
          have hyx := Std.TransCmp.isGE_trans hyz hzx
          rw [hlt] at hyx
          cases hyx
      · rw [descent, if_neg hw] at hy
        exact absurd hy List.not_mem_nil
  · rintro ⟨pre, p, x, y, post, rfl, hpx, hw, hlt⟩
    refine ⟨pre, p, x, y :: post, rfl, not_within_of_follows hpx, y, ?_, hlt⟩
    rw [descent, if_pos hw]
    exact List.mem_cons_self

/-- **When the verifier accepts exactly the documented order.** On a list
whose groups are in order it is right unless nonces of one payer go up and
down again with a lower hash; on any other list it is right only where some
descending run, not the one at the front, holds a hash below its first. -/
theorem verifyTransactionsOrder_documented_iff [Std.TransOrd H] (vm : Machine H)
    (txs : List Transaction) :
    (vm.verifyTransactionsOrder txs = true ↔ Documented vm.crypto txs) ↔
      ¬ Misplaced vm.crypto txs ∧ ¬ Zigzag vm.crypto txs ∨
        Misplaced vm.crypto txs ∧ LateInversion vm.crypto txs := by
  rw [verifyTransactionsOrder_iff, orderedRuns_iff_not_lateInversion]
  by_cases hdoc : Documented vm.crypto txs
  · have hplaced := documented_iff_not_misplaced.1 hdoc
    rw [lateInversion_iff_zigzag hdoc]
    simp only [hdoc, iff_true, hplaced, not_false_eq_true, true_and, false_and, or_false]
  · have hmis : Misplaced vm.crypto txs := by
      by_contra hmis
      exact hdoc (documented_iff_not_misplaced.2 hmis)
    simp only [hdoc, iff_false, not_not, hmis, not_true_eq_false, false_and, true_and, false_or]

/-- Two transactions of different payers, the higher hash first: the groups
are out of order and no run is. -/
theorem verifyTransactionsOrder_swapped :
    Sample.vm.verifyTransactionsOrder [Sample.tx 140 0 8, Sample.tx 110 0 7] = true ∧
      ¬ Documented sampleCrypto [Sample.tx 140 0 8, Sample.tx 110 0 7] := by
  decide

/-- In the other order the verifier is right, and the condition holds. -/
theorem verifyTransactionsOrder_sorted :
    Documented sampleCrypto [Sample.tx 110 0 7, Sample.tx 140 0 8] ∧
      (¬ Misplaced sampleCrypto [Sample.tx 110 0 7, Sample.tx 140 0 8] ∧
          ¬ Zigzag sampleCrypto [Sample.tx 110 0 7, Sample.tx 140 0 8] ∨
        Misplaced sampleCrypto [Sample.tx 110 0 7, Sample.tx 140 0 8] ∧
          LateInversion sampleCrypto [Sample.tx 110 0 7, Sample.tx 140 0 8]) := by
  have hdoc : Documented sampleCrypto [Sample.tx 110 0 7, Sample.tx 140 0 8] := by decide
  have haccept : Sample.vm.verifyTransactionsOrder
      [Sample.tx 110 0 7, Sample.tx 140 0 8] = true := by
    decide
  exact ⟨hdoc, (verifyTransactionsOrder_documented_iff Sample.vm _).1
    ⟨fun _ => hdoc, fun _ => haccept⟩⟩

end Producer

end Rensa
