import Rensa.Producer.Order
/-!
# The transactions of one payer

A block is to hold the transactions of a payer side by side, their nonces
going up (`Together`). `take_transactions` groups neighbours of one payer as
the map of the mempool is walked, so a payer whose transactions the map does
not keep side by side has several groups, which are then laid out by the
hashes of their first transactions. `together_takeTransactions_iff` says
when that is harmless: the groups of a payer that the block reaches are next
to each other in the layout, and their nonces go on from one to the next
(`Adjoining`).
-/

namespace Rensa

namespace Producer

/-- **The transactions of each payer are side by side**, with nonces that go
up. -/
structure Together (l : List Transaction) : Prop where
  ascending : l.Pairwise fun x y => x.payer = y.payer → x.nonce ≤ y.nonce
  between : ∀ x z y, [x, z, y].Sublist l → x.payer = y.payer → z.payer = x.payer

/-- **Groups of one payer are next to each other**, as far as they start
among the first `count` transactions: no transaction of another payer is
between them, and none of the earlier group has a nonce above the first of
the later one. -/
def Adjoining (gs : List (List Transaction)) (count : ℕ) : Prop :=
  ∀ before a mid b after x y, gs = before ++ a :: (mid ++ (y :: b) :: after) →
    (before ++ a :: mid).flatten.length < count → x ∈ a → x.payer = y.payer →
      x.nonce ≤ y.nonce ∧ ∀ g ∈ mid, ∀ z ∈ g, z.payer = x.payer

/-- What `take_transactions` makes a group of: transactions of one payer,
with nonces that go up. -/
structure IsGroup (g : List Transaction) : Prop where
  nonempty : g ≠ []
  ascending : g.Pairwise fun x y => x.nonce ≤ y.nonce
  payer : ∀ x ∈ g, ∀ y ∈ g, x.payer = y.payer

theorem isGroup_of_mem_payerGroups {txs g : List Transaction} (h : g ∈ payerGroups txs) :
    IsGroup g := by
  refine ⟨ne_nil_of_mem_payerGroups h, nonces_of_mem_payerGroups h, ?_⟩
  obtain ⟨s, hs, rfl⟩ := List.mem_map.1 h
  have hchain : s.IsChain fun x y => x.payer = y.payer := by
    refine (List.isChain_of_mem_splitBy hs).imp fun x y hxy => ?_
    simpa using hxy
  have : IsTrans Transaction fun x y => x.payer = y.payer := ⟨fun _ _ _ => Eq.trans⟩
  have : Std.Symm fun x y : Transaction => x.payer = y.payer := ⟨fun _ _ => Eq.symm⟩
  have hpairs : s.Pairwise fun x y => x.payer = y.payer := List.isChain_iff_pairwise.1 hchain
  intro x hx y hy
  rw [List.mem_insertionSort] at hx hy
  exact List.Pairwise.forall_of_forall (R := fun x y => x.payer = y.payer) (fun _ _ => rfl)
    hpairs hx hy

section Layout

variable {gs : List (List Transaction)} {count : ℕ}

/-- What comes after the first group adjoins as well. -/
theorem Adjoining.tail {g : List Transaction} (h : Adjoining (g :: gs) count) :
    Adjoining gs (count - g.length) := by
  rintro before a mid b after x y rfl hlen hx hxy
  refine h (g :: before) a mid b after x y rfl ?_ hx hxy
  rw [List.cons_append, List.flatten_cons, List.length_append]
  omega

/-- A transaction of the block is in a group that starts in the block. -/
theorem exists_group_of_mem_take {y : Transaction} (h : y ∈ gs.flatten.take count) :
    ∃ before b after, gs = before ++ b :: after ∧ y ∈ b ∧ before.flatten.length < count := by
  induction gs generalizing count with
  | nil => simp at h
  | cons g gs ih =>
    rw [List.flatten_cons, List.take_append, List.mem_append] at h
    rcases h with h | h
    · refine ⟨[], g, gs, rfl, List.mem_of_mem_take h, ?_⟩
      exact (List.length_pos_of_mem h).trans_le (by simp)
    · obtain ⟨before, b, after, rfl, hy, hlen⟩ := ih h
      refine ⟨g :: before, b, after, rfl, hy, ?_⟩
      rw [List.flatten_cons, List.length_append]
      omega

/-- **A group and what the block holds after it.** -/
theorem Adjoining.first {g : List Transaction} (h : Adjoining (g :: gs) count)
    (hgs : ∀ g ∈ gs, IsGroup g) {x y : Transaction} (hx : x ∈ g)
    (hy : y ∈ gs.flatten.take (count - g.length)) (hxy : x.payer = y.payer) :
    x.nonce ≤ y.nonce := by
  obtain ⟨mid, b, after, rfl, hyb, hlen⟩ := exists_group_of_mem_take hy
  have hb := hgs b (by simp)
  obtain ⟨w, b, rfl⟩ := List.exists_cons_of_ne_nil hb.nonempty
  have hwy : w.nonce ≤ y.nonce := by
    rcases List.mem_cons.1 hyb with rfl | hyb
    · exact le_rfl
    · exact (List.pairwise_cons.1 hb.ascending).1 y hyb
  have hpayer : x.payer = w.payer := hxy.trans (hb.payer y hyb w List.mem_cons_self)
  have hcount : (g :: mid).flatten.length < count := by
    rw [List.flatten_cons, List.length_append]
    omega
  exact ((h [] g mid b after x w rfl hcount hx hpayer).1).trans hwy

/-- Two transactions of the block are of one payer, or the first is in a
group before the one of the second. -/
theorem group_before_of_sublist (hgs : ∀ g ∈ gs, IsGroup g) {z y : Transaction}
    (h : [z, y].Sublist (gs.flatten.take count)) :
    z.payer = y.payer ∨ ∃ mid b after, gs = mid ++ b :: after ∧ y ∈ b ∧
      mid.flatten.length < count ∧ ∃ g ∈ mid, z ∈ g := by
  induction gs generalizing count with
  | nil => simp at h
  | cons g gs ih =>
    have hgs' : ∀ g' ∈ gs, IsGroup g' := fun g' hg' => hgs g' (List.mem_cons_of_mem _ hg')
    rw [List.flatten_cons, List.take_append, List.sublist_append_iff] at h
    obtain ⟨l₁, l₂, hl, h₁, h₂⟩ := h
    obtain - | ⟨u, l₁⟩ := l₁
    · -- both after the first group
      obtain rfl : l₂ = [z, y] := by simpa using hl.symm
      rcases ih hgs' h₂ with hzy | ⟨mid, b, after, rfl, hy, hlen, g', hg', hz⟩
      · exact Or.inl hzy
      · refine Or.inr ⟨g :: mid, b, after, rfl, hy, ?_, g', List.mem_cons_of_mem _ hg', hz⟩
        rw [List.flatten_cons, List.length_append]
        omega
    · rw [List.cons_append, List.cons.injEq] at hl
      obtain ⟨rfl, hl⟩ := hl
      have hz : z ∈ g := List.mem_of_mem_take (h₁.subset List.mem_cons_self)
      obtain - | ⟨v, l₁⟩ := l₁
      · obtain rfl : l₂ = [y] := by simpa using hl.symm
        have hy : y ∈ gs.flatten.take (count - g.length) := h₂.subset List.mem_cons_self
        obtain ⟨mid, b, after, rfl, hyb, hlen⟩ := exists_group_of_mem_take hy
        refine Or.inr ⟨g :: mid, b, after, rfl, hyb, ?_, g, List.mem_cons_self, hz⟩
        rw [List.flatten_cons, List.length_append]
        omega
      · rw [List.cons_append, List.cons.injEq] at hl
        obtain ⟨rfl, -⟩ := hl
        have hy : y ∈ g := List.mem_of_mem_take (h₁.subset (by simp))
        exact Or.inl ((hgs g List.mem_cons_self).payer z hz y hy)

/-- Nothing is between a group and a later one of its payer. -/
theorem Adjoining.first_between {g : List Transaction} (h : Adjoining (g :: gs) count)
    (hgs : ∀ g ∈ gs, IsGroup g) {x z y : Transaction} (hx : x ∈ g)
    (hzy : [z, y].Sublist (gs.flatten.take (count - g.length))) (hxy : x.payer = y.payer) :
    z.payer = x.payer := by
  rcases group_before_of_sublist hgs hzy with hpayer | ⟨mid, b, after, rfl, hyb, hlen, g', hg', hz⟩
  · exact hpayer.trans hxy.symm
  · have hb := hgs b (by simp)
    obtain ⟨w, b, rfl⟩ := List.exists_cons_of_ne_nil hb.nonempty
    have hpayer : x.payer = w.payer := hxy.trans (hb.payer y hyb w List.mem_cons_self)
    have hcount : (g :: mid).flatten.length < count := by
      rw [List.flatten_cons, List.length_append]
      omega
    exact (h [] g mid b after x w rfl hcount hx hpayer).2 g' hg' z hz

/-- **A layout whose groups adjoin keeps payers together.** -/
theorem together_of_adjoining (hgs : ∀ g ∈ gs, IsGroup g) (h : Adjoining gs count) :
    Together (gs.flatten.take count) := by
  induction gs generalizing count with
  | nil => exact ⟨by simp, by simp⟩
  | cons g gs ih =>
    have hg : IsGroup g := hgs g List.mem_cons_self
    have hgs' : ∀ g' ∈ gs, IsGroup g' := fun g' hg' => hgs g' (List.mem_cons_of_mem _ hg')
    have hrest := ih hgs' h.tail
    rw [List.flatten_cons, List.take_append]
    constructor
    · refine List.pairwise_append.2 ⟨?_, hrest.ascending, fun x hx y hy hxy => ?_⟩
      · exact (hg.ascending.sublist (List.take_sublist _ _)).imp
          fun {x y} (hle : x.nonce ≤ y.nonce) (_ : x.payer = y.payer) => hle
      · exact h.first hgs' (List.mem_of_mem_take hx) hy hxy
    · intro x z y hsub hxy
      rw [List.sublist_append_iff] at hsub
      obtain ⟨l₁, l₂, hl, h₁, h₂⟩ := hsub
      obtain - | ⟨u, l₁⟩ := l₁
      · obtain rfl : l₂ = [x, z, y] := by simpa using hl.symm
        exact hrest.between x z y h₂ hxy
      · rw [List.cons_append, List.cons.injEq] at hl
        obtain ⟨rfl, hl⟩ := hl
        have hx : x ∈ g := List.mem_of_mem_take (h₁.subset List.mem_cons_self)
        obtain - | ⟨v, l₁⟩ := l₁
        · obtain rfl : l₂ = [z, y] := by simpa using hl.symm
          exact h.first_between hgs' hx h₂ hxy
        · rw [List.cons_append, List.cons.injEq] at hl
          obtain ⟨rfl, -⟩ := hl
          exact hg.payer z (List.mem_of_mem_take (h₁.subset (by simp))) x hx

/-- And only such a layout does. -/
theorem adjoining_of_together (h : Together (gs.flatten.take count)) : Adjoining gs count := by
  rintro before a mid b after x y rfl hlen hx hxy
  -- the block holds all before the later group, and its first transaction
  have hprefix : (before ++ a :: mid).flatten ++ [y] <+:
      (before ++ a :: (mid ++ (y :: b) :: after)).flatten.take count := by
    refine List.prefix_take_iff.2 ⟨⟨b ++ after.flatten, by simp⟩, ?_⟩
    rw [List.length_append, List.length_singleton]
    omega
  have hxa : [x].Sublist (before.flatten ++ a) :=
    List.singleton_sublist.2 (List.mem_append_right _ hx)
  refine ⟨?_, fun g hg z hz => ?_⟩
  · have hsub : [x, y].Sublist ((before ++ a :: mid).flatten ++ [y]) := by
      rw [List.flatten_append, List.flatten_cons, ← List.append_assoc]
      exact (hxa.trans (List.sublist_append_left _ _)).append (.refl [y])
    have hpair := h.ascending.sublist (hsub.trans hprefix.sublist)
    exact (List.pairwise_cons.1 hpair).1 y (by simp) hxy
  · have hz' : [z].Sublist mid.flatten :=
      List.singleton_sublist.2 (List.mem_flatten.2 ⟨g, hg, hz⟩)
    have hsub : [x, z, y].Sublist ((before ++ a :: mid).flatten ++ [y]) := by
      rw [List.flatten_append, List.flatten_cons, ← List.append_assoc]
      exact (hxa.append hz').append (.refl [y])
    exact h.between x z y (hsub.trans hprefix.sublist) hxy

end Layout

section Taken

variable {H : Type} [DecidableEq H] [Ord H] [Std.TransOrd H] [Std.LawfulEqOrd H] {C : Crypto H}

/-- **When `take_transactions` keeps payers together.** Lay the groups of
the mempool, as the map is walked, out by the hash of their first
transaction. What `take_transactions` returns has the transactions of every
payer side by side and in the order of their nonces exactly when the groups
of a payer that start among the first `count` transactions adjoin. -/
theorem together_takeTransactions_iff (m : MempoolState C) (count : ℕ) :
    (∃ gs, Arranges C m.txs gs) ∧ ∀ gs, Arranges C m.txs gs →
      (Together (m.takeTransactions count).1 ↔ Adjoining gs count) := by
  refine ⟨⟨_, arranges_sortedGroups m.distinct⟩, fun gs hgs => ?_⟩
  rw [takeTransactions_eq hgs count]
  exact ⟨adjoining_of_together, together_of_adjoining fun g hg =>
    isGroup_of_mem_payerGroups (hgs.perm.subset hg)⟩

end Taken

namespace Sample

/-- A mempool that is walked as: a transaction of payer 7 with nonce 5, one
of payer 8, and one of payer 7 with nonce 6 and the lowest hash. -/
def parted : MempoolState sampleCrypto where
  txs := [tx 140 5 7, tx 120 0 8, tx 110 6 7]
  distinct := by decide

end Sample

/-- The equivalence for that mempool. -/
theorem together_takeTransactions_sample :
    ∃ gs, Arranges sampleCrypto Sample.parted.txs gs ∧
      (Together (Sample.parted.takeTransactions 3).1 ↔ Adjoining gs 3) := by
  obtain ⟨⟨gs, hgs⟩, hall⟩ := together_takeTransactions_iff Sample.parted 3
  exact ⟨gs, hgs, hall gs hgs⟩

/-- The two transactions of payer 7 come in the order of their hashes, with
the one of payer 8 between them. -/
theorem takeTransactions_parted :
    (Sample.parted.takeTransactions 3).1 =
        [Sample.tx 110 6 7, Sample.tx 120 0 8, Sample.tx 140 5 7] ∧
      ¬ Together (Sample.parted.takeTransactions 3).1 := by
  have htaken : (Sample.parted.takeTransactions 3).1 =
      [Sample.tx 110 6 7, Sample.tx 120 0 8, Sample.tx 140 5 7] := by decide
  refine ⟨htaken, fun h => ?_⟩
  rw [htaken] at h
  have hnonce := (List.pairwise_cons.1 h.ascending).1 (Sample.tx 140 5 7) (by simp) rfl
  exact absurd hnonce (by decide)

end Producer

end Rensa
