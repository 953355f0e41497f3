import Rensa.Producer.Model
/-!
# The order of the transactions in a block

The producer groups its transactions by payer and lays the groups out by
the hash of their first transaction, nonces going up inside a group. The
verifier, which has only the list, takes two neighbours for one group
when the payer is the same and the nonce goes *down* by one. It therefore
compares a transaction with the one that starts such a descending run,
and the producer's list is refused exactly when a run other than the one
at the front of the block holds a hash below that of its start.
-/

namespace Rensa

open Machine (withinPayerGroup)

namespace Producer

variable {H : Type} [Ord H]

/-! ## What the verifier accepts -/

/-- The descending run of a list that starts at `x`, without `x`: one
payer, each nonce one below the one before it. -/
def descent : Transaction → List Transaction → List Transaction
  | _, [] => []
  | x, y :: l => if withinPayerGroup y x then y :: descent y l else []

/-- No run, other than the one the list starts with, holds a hash below
that of its first transaction. -/
def OrderedRuns (C : Crypto H) (l : List Transaction) : Prop :=
  ∀ pre p x post, l = pre ++ p :: x :: post → withinPayerGroup x p = false →
    ∀ y ∈ descent x post, compare (y.hash C) (x.hash C) ≠ .lt

section Verifier

variable {vm : Machine H} {C : Crypto H}

theorem orderedRuns_cons {p x : Transaction} {post : List Transaction} :
    OrderedRuns C (p :: x :: post) ↔
      (withinPayerGroup x p = false →
        ∀ y ∈ descent x post, compare (y.hash C) (x.hash C) ≠ .lt) ∧
      OrderedRuns C (x :: post) := by
  constructor
  · intro h
    refine ⟨h [] p x post rfl, ?_⟩
    intro pre q z rest hsplit
    exact h (p :: pre) q z rest (by rw [hsplit]; rfl)
  · rintro ⟨hfirst, hrest⟩ pre q z rest hsplit
    obtain - | ⟨r, pre⟩ := pre
    · simp only [List.nil_append, List.cons.injEq] at hsplit
      obtain ⟨rfl, rfl, rfl⟩ := hsplit
      exact hfirst
    · simp only [List.cons_append, List.cons.injEq] at hsplit
      exact hrest pre q z rest hsplit.2

theorem orderedRuns_singleton (x : Transaction) : OrderedRuns C [x] := by
  intro pre p z post hsplit
  have hlen := congrArg List.length hsplit
  simp only [List.length_append, List.length_cons, List.length_nil] at hlen
  omega

/-- The loop of the verifier, inside a run that is compared with `head`. -/
theorem orderFrom_some [Std.ReflOrd H] {head prev : Transaction} {txs : List Transaction} :
    vm.orderFrom prev (some head) txs = true ↔
      (∀ y ∈ descent prev txs, compare (y.hash vm.crypto) (head.hash vm.crypto) ≠ .lt) ∧
        OrderedRuns vm.crypto (prev :: txs) := by
  induction txs generalizing prev head with
  | nil => simp [Machine.orderFrom, descent, orderedRuns_singleton]
  | cons y txs ih =>
    rw [orderedRuns_cons]
    by_cases hw : withinPayerGroup y prev = true
    · simp only [Machine.orderFrom, descent, hw, if_true, List.forall_mem_cons, Bool.true_eq_false,
        false_implies, true_and]
      split
      · rename_i hlt
        simp [hlt]
      · rename_i hge
        simp only [hge, ne_eq, not_false_eq_true, true_and]
        exact ih
    · simp only [Machine.orderFrom, descent, hw, Bool.false_eq_true, if_false,
        List.not_mem_nil, false_implies, implies_true, true_and]
      rw [if_neg (by simp [Std.ReflOrd.compare_self])]
      simp only [forall_const]
      exact ih

/-- The loop of the verifier, inside the run the block starts with. -/
theorem orderFrom_none [Std.ReflOrd H] {prev : Transaction} {txs : List Transaction} :
    vm.orderFrom prev none txs = true ↔ OrderedRuns vm.crypto (prev :: txs) := by
  induction txs generalizing prev with
  | nil => simp [Machine.orderFrom, orderedRuns_singleton]
  | cons y txs ih =>
    rw [orderedRuns_cons]
    by_cases hw : withinPayerGroup y prev = true
    · simp only [Machine.orderFrom, hw, if_true, ih, Bool.true_eq_false, false_implies, true_and]
    · simp only [Machine.orderFrom, hw, Bool.false_eq_true, if_false]
      rw [if_neg (by simp [Std.ReflOrd.compare_self])]
      simp only [forall_const]
      exact orderFrom_some

/-- **What `verify_transactions_order` accepts.** -/
theorem verifyTransactionsOrder_iff [Std.ReflOrd H] {txs : List Transaction} :
    vm.verifyTransactionsOrder txs = true ↔ OrderedRuns vm.crypto txs := by
  obtain - | ⟨first, txs⟩ := txs
  · simp [Machine.verifyTransactionsOrder, OrderedRuns]
  · exact orderFrom_none

end Verifier

/-! ## What the producer lays out -/

section Groups

variable {C : Crypto H} {txs : List Transaction} {g : List Transaction}

/-- The hash a group is sorted by. -/
def leadHash (C : Crypto H) (g : List Transaction) : Option H := g.head?.map (Transaction.hash C)

omit [Ord H] in
theorem heads_sublist (gs : List (List Transaction)) :
    (gs.filterMap (leadHash C)).Sublist (gs.flatten.map (Transaction.hash C)) := by
  induction gs with
  | nil => exact List.Sublist.slnil
  | cons g gs ih =>
    obtain - | ⟨x, g⟩ := g
    · exact ih
    · simp only [leadHash, List.head?_cons, Option.map_some, List.filterMap_cons, List.flatten_cons,
        List.cons_append, List.map_cons, List.map_append]
      exact (ih.trans (List.sublist_append_right _ _)).cons_cons _

theorem flatten_map_insertionSort_perm (gs : List (List Transaction)) :
    (gs.map (List.insertionSort fun a b => a.nonce ≤ b.nonce)).flatten.Perm gs.flatten := by
  induction gs with
  | nil => exact List.Perm.nil
  | cons g gs ih =>
    rw [List.map_cons, List.flatten_cons, List.flatten_cons]
    exact (List.perm_insertionSort _ g).append ih

/-- The groups hold the transactions of the mempool. -/
theorem flatten_payerGroups_perm (txs : List Transaction) :
    (payerGroups txs).flatten.Perm txs := by
  have h := flatten_map_insertionSort_perm (txs.splitBy fun a b => a.payer == b.payer)
  rwa [List.flatten_splitBy] at h

theorem ne_nil_of_mem_payerGroups (h : g ∈ payerGroups txs) : g ≠ [] := by
  obtain ⟨s, hs, rfl⟩ := List.mem_map.1 h
  intro hnil
  have hlen := (List.perm_insertionSort (fun a b => a.nonce ≤ b.nonce) s).length_eq
  rw [hnil, List.length_nil] at hlen
  exact List.ne_nil_of_mem_splitBy hs (List.length_eq_zero_iff.1 hlen.symm)

/-- Nonces go up inside a group. -/
theorem nonces_of_mem_payerGroups (h : g ∈ payerGroups txs) :
    g.Pairwise fun a b => a.nonce ≤ b.nonce := by
  obtain ⟨s, -, rfl⟩ := List.mem_map.1 h
  have : Std.Total fun a b : Transaction => a.nonce ≤ b.nonce := ⟨fun a b => le_total _ _⟩
  have : IsTrans Transaction fun a b => a.nonce ≤ b.nonce := ⟨fun _ _ _ => le_trans⟩
  exact List.pairwise_insertionSort _ s

end Groups

section Arranged

variable [Std.TransOrd H] [Std.LawfulEqOrd H] {C : Crypto H}

/-- The map after the groups are inserted: a group is under the hash of
its first transaction. -/
theorem getElem?_insert_groups {gs : List (List Transaction)} (hne : ∀ g ∈ gs, g ≠ [])
    (hnodup : (gs.filterMap (leadHash C)).Nodup) (output : Std.ExtTreeMap H (List Transaction))
    (k : H) (g : List Transaction) :
    (gs.foldl (insertGroup C) output)[k]? = some g ↔
    (g ∈ gs ∧ leadHash C g = some k) ∨
      ((∀ g' ∈ gs, leadHash C g' ≠ some k) ∧ output[k]? = some g) := by
  induction gs generalizing output with
  | nil => simp
  | cons h gs ih =>
    obtain - | ⟨x, h⟩ := h
    · exact absurd rfl (hne [] List.mem_cons_self)
    · simp only [leadHash, List.filterMap_cons, List.head?_cons, Option.map_some,
        List.nodup_cons] at hnodup
      have hstep : insertGroup C output (x :: h) = output.insert (x.hash C) (x :: h) := rfl
      rw [List.foldl_cons, hstep, ih (fun g' hg' => hne g' (List.mem_cons_of_mem _ hg'))
        hnodup.2, Std.ExtTreeMap.getElem?_insert]
      have hlead : leadHash C (x :: h) = some (x.hash C) := rfl
      -- no later group has the hash of this one
      have hfresh : ∀ g' ∈ gs, leadHash C g' ≠ some (x.hash C) := by
        intro g' hg' heq
        exact hnodup.1 (List.mem_filterMap.2 ⟨g', hg', heq⟩)
      by_cases hk : x.hash C = k
      · subst hk
        rw [if_pos Std.ReflCmp.compare_self]
        simp only [List.mem_cons, forall_eq_or_imp, hlead]
        constructor
        · rintro (⟨hg, heq⟩ | ⟨-, hg⟩)
          · exact absurd heq (hfresh g hg)
          · exact .inl ⟨.inl (Option.some.inj hg).symm, by rw [← Option.some.inj hg]; rfl⟩
        · rintro (⟨rfl | hg, heq⟩ | ⟨⟨hne, -⟩, -⟩)
          · exact .inr ⟨hfresh, rfl⟩
          · exact absurd heq (hfresh g hg)
          · exact absurd rfl hne
      · rw [if_neg fun hcmp => hk (Std.LawfulEqCmp.eq_of_compare hcmp)]
        simp only [List.mem_cons, forall_eq_or_imp, hlead, ne_eq, Option.some.injEq, hk,
          not_false_eq_true, true_and]
        constructor
        · rintro (⟨hg, heq⟩ | h')
          · exact .inl ⟨.inr hg, heq⟩
          · exact .inr h'
        · rintro (⟨rfl | hg, heq⟩ | h')
          · exact absurd (Option.some.inj (hlead.symm.trans heq)) hk
          · exact .inl ⟨hg, heq⟩
          · exact .inr h'

/-- **The layout of a block**: `gs` are the payer groups of the mempool, in
the order of the hashes of their first transactions. -/
structure Arranges (C : Crypto H) (txs : List Transaction) (gs : List (List Transaction)) :
    Prop where
  perm : gs.Perm (payerGroups txs)
  sorted : gs.Pairwise fun a b =>
    ∀ x ∈ leadHash C a, ∀ y ∈ leadHash C b, compare x y = .lt

omit [Ord H] [Std.TransOrd H] [Std.LawfulEqOrd H] in
theorem exists_leadHash {g : List Transaction} (h : g ≠ []) : ∃ x, leadHash C g = some x := by
  obtain - | ⟨x, g⟩ := g
  · exact absurd rfl h
  · exact ⟨_, rfl⟩

omit [Std.LawfulEqOrd H] in
/-- There is one layout. -/
theorem Arranges.unique {txs : List Transaction} {gs gs' : List (List Transaction)}
    (h : Arranges C txs gs) (h' : Arranges C txs gs') : gs = gs' := by
  refine List.Perm.eq_of_pairwise ?_ h.sorted h'.sorted (h.perm.trans h'.perm.symm)
  intro a b ha hb hab hba
  obtain ⟨x, hx⟩ := exists_leadHash (C := C) (ne_nil_of_mem_payerGroups (h.perm.subset ha))
  obtain ⟨y, hy⟩ := exists_leadHash (C := C) (ne_nil_of_mem_payerGroups (h'.perm.subset hb))
  have hlt := hab x hx y hy
  rw [Std.OrientedCmp.gt_of_lt (hba y hy x hx)] at hlt
  cases hlt

/-- **The map of groups is the layout.** -/
theorem arranges_sortedGroups {txs : List Transaction}
    (hdistinct : (txs.map (Transaction.hash C)).Nodup) :
    Arranges C txs ((sortedGroups C txs).toList.map Prod.snd) := by
  have hperm := (flatten_payerGroups_perm txs).map (Transaction.hash C)
  have hleads : ((payerGroups txs).filterMap (leadHash C)).Nodup :=
    (hperm.nodup_iff.2 hdistinct).sublist (heads_sublist _)
  have hget : ∀ k g, (k, g) ∈ (sortedGroups C txs).toList ↔
      g ∈ payerGroups txs ∧ leadHash C g = some k := by
    intro k g
    rw [Std.ExtTreeMap.mem_toList_iff_getElem?_eq_some, sortedGroups,
      getElem?_insert_groups (fun g hg => ne_nil_of_mem_payerGroups hg) hleads]
    simp
  have hordered := Std.ExtTreeMap.ordered_keys_toList (t := sortedGroups C txs)
  constructor
  · refine (List.perm_ext_iff_of_nodup ?_ ?_).2 ?_
    · rw [List.Nodup, List.pairwise_map]
      refine hordered.imp_of_mem ?_
      rintro ⟨k, g⟩ ⟨k', g'⟩ hmem hmem' hlt heq
      obtain rfl : g = g' := heq
      obtain rfl : k = k' :=
        Option.some.inj (((hget k g).1 hmem).2.symm.trans ((hget k' g).1 hmem').2)
      exact absurd (Std.ReflCmp.compare_self.symm.trans hlt) (by decide)
    · refine (List.pairwise_filterMap.1 hleads).imp_of_mem ?_
      rintro g g' hg - hne rfl
      obtain ⟨k, hk⟩ := exists_leadHash (C := C) (ne_nil_of_mem_payerGroups hg)
      exact hne k hk k hk rfl
    · intro g
      rw [List.mem_map]
      constructor
      · rintro ⟨⟨k, g'⟩, hmem, rfl⟩
        exact ((hget k g').1 hmem).1
      · intro hg
        obtain ⟨k, hk⟩ := exists_leadHash (C := C) (ne_nil_of_mem_payerGroups hg)
        exact ⟨(k, g), (hget k g).2 ⟨hg, hk⟩, rfl⟩
  · rw [List.pairwise_map]
    refine hordered.imp_of_mem ?_
    rintro ⟨k, g⟩ ⟨k', g'⟩ hmem hmem' hlt x hx y hy
    rw [((hget k g).1 hmem).2, Option.mem_some_iff] at hx
    rw [((hget k' g').1 hmem').2, Option.mem_some_iff] at hy
    rw [← hx, ← hy]
    exact hlt

omit [Std.TransOrd H] [Std.LawfulEqOrd H] in
/-- A layout holds the transactions of the mempool. -/
theorem Arranges.flatten_perm {txs : List Transaction} {gs : List (List Transaction)}
    (h : Arranges C txs gs) : gs.flatten.Perm txs :=
  h.perm.flatten.trans (flatten_payerGroups_perm txs)

/-- **What `take_transactions` returns** is the front of the layout. -/
theorem takeTransactions_eq [DecidableEq H] {m : MempoolState C} {gs : List (List Transaction)}
    (h : Arranges C m.txs gs) (count : ℕ) :
    (m.takeTransactions count).1 = gs.flatten.take count := by
  rw [h.unique (arranges_sortedGroups m.distinct), MempoolState.takeTransactions,
    List.flatMap_def]

end Arranged

/-! ## Where the two part -/

section Neighbours

variable {C : Crypto H}

/-- The verifier takes `y` for the successor of `x` in a group, and `y` has
the lower hash. -/
def Inverted (C : Crypto H) (x y : Transaction) : Prop :=
  withinPayerGroup y x = true ∧ compare (y.hash C) (x.hash C) = .lt

/-- Along a run without inverted neighbours, no hash is below the first. -/
theorem descent_ordered [Std.TransOrd H] {x : Transaction} {l : List Transaction}
    (h : (x :: l).IsChain fun a b => ¬ Inverted C a b) :
    ∀ y ∈ descent x l, compare (y.hash C) (x.hash C) ≠ .lt := by
  induction l generalizing x with
  | nil => simp [descent]
  | cons z l ih =>
    intro y hy
    obtain ⟨hxz, hrest⟩ := List.isChain_cons_cons.1 h
    by_cases hw : withinPayerGroup z x = true
    · have hz : compare (z.hash C) (x.hash C) ≠ .lt := fun hlt => hxz ⟨hw, hlt⟩
      rw [descent, if_pos hw, List.mem_cons] at hy
      rcases hy with rfl | hy
      · exact hz
      · have hyz := ih hrest y hy
        rw [ne_eq, ← Ordering.isGE_iff_ne_lt] at hz hyz ⊢
        exact Std.TransCmp.isGE_trans hyz hz
    · rw [descent, if_neg hw] at hy
      exact absurd hy List.not_mem_nil

/-- A list without inverted neighbours is accepted. -/
theorem orderedRuns_of_isChain [Std.TransOrd H] {l : List Transaction}
    (h : l.IsChain fun a b => ¬ Inverted C a b) : OrderedRuns C l := by
  intro pre p x post hsplit _
  subst hsplit
  have hx := (List.isChain_append.1 h).2.1
  exact descent_ordered (List.isChain_cons_cons.1 hx).2

/-- Two neighbours of the layout are neighbours of one group, or the last
of a group and the first of the next. -/
theorem neighbours_flatten {gs : List (List Transaction)} {pre post : List Transaction}
    {x y : Transaction} (hne : ∀ g ∈ gs, g ≠ []) (h : gs.flatten = pre ++ x :: y :: post) :
    (∃ g ∈ gs, [x, y].Sublist g) ∨
      ∃ gp a b gq, gs = gp ++ (a ++ [x]) :: (y :: b) :: gq ∧ pre = gp.flatten ++ a := by
  induction gs generalizing pre with
  | nil => simp at h
  | cons g gs ih =>
    have hne' : ∀ g' ∈ gs, g' ≠ [] := fun g' hg' => hne g' (List.mem_cons_of_mem _ hg')
    -- both neighbours after the group, as they are in the rest of the layout
    have hlater : ∀ c, gs.flatten = c ++ x :: y :: post → pre = g ++ c →
        (∃ g' ∈ g :: gs, [x, y].Sublist g') ∨
          ∃ gp a b gq, g :: gs = gp ++ (a ++ [x]) :: (y :: b) :: gq ∧ pre = gp.flatten ++ a := by
      intro c hc hpre
      rcases ih hne' hc with ⟨g', hg', hsub⟩ | ⟨gp, a, b, gq, hgs, hca⟩
      · exact .inl ⟨g', List.mem_cons_of_mem _ hg', hsub⟩
      · refine .inr ⟨g :: gp, a, b, gq, by rw [hgs]; rfl, ?_⟩
        rw [hpre, hca, List.flatten_cons, List.append_assoc]
    rw [List.flatten_cons, List.append_eq_append_iff] at h
    rcases h with ⟨c, hpre, hrest⟩ | ⟨c, hg, hrest⟩
    · exact hlater c hrest hpre
    · obtain - | ⟨x', c⟩ := c
      · exact hlater [] hrest.symm (by simpa using hg.symm)
      · obtain ⟨rfl, htail⟩ := List.cons.inj hrest
        obtain - | ⟨y', c⟩ := c
        · -- the group ends with `x`, and the next one starts with `y`
          obtain - | ⟨g', gs⟩ := gs
          · simp at htail
          · obtain - | ⟨z, b⟩ := g'
            · exact absurd rfl (hne' [] List.mem_cons_self)
            · obtain ⟨rfl, -⟩ := List.cons.inj htail
              exact .inr ⟨[], pre, b, gs, by rw [hg]; rfl, by simp⟩
        · obtain ⟨rfl, -⟩ := List.cons.inj htail
          refine .inl ⟨g, List.mem_cons_self, ?_⟩
          rw [hg]
          exact ((List.nil_sublist c).cons_cons _ |>.cons_cons _).trans
            (List.sublist_append_right _ _)

/-- Where nonces go up, the verifier sees no successor, unless they wrap. -/
theorem withinPayerGroup_of_le {x y : Transaction} (hx : x.nonce < 2 ^ 64 - 1)
    (hy : y.nonce < 2 ^ 64 - 1) (h : x.nonce ≤ y.nonce) : withinPayerGroup y x = false := by
  rw [withinPayerGroup, Bool.and_eq_false_iff]
  right
  rw [beq_eq_false_iff_ne]
  omega

/-- **In a layout without the largest nonce, every inverted pair is
refused**: its first transaction starts a run that is not the first of
the block. -/
theorem isChain_of_orderedRuns [Std.TransOrd H] {txs : List Transaction}
    {gs : List (List Transaction)} {count : ℕ} (hgs : Arranges C txs gs)
    (hmax : ∀ tx ∈ txs, tx.nonce < 2 ^ 64 - 1) (h : OrderedRuns C (gs.flatten.take count)) :
    (gs.flatten.take count).IsChain fun a b => ¬ Inverted C a b := by
  have hperm : gs.flatten.Perm txs := hgs.flatten_perm
  have hnonce : ∀ g ∈ gs, ∀ a b, [a, b].Sublist g → withinPayerGroup b a = false := by
    intro g hg a b hsub
    have hsorted := nonces_of_mem_payerGroups (hgs.perm.subset hg)
    have hle : a.nonce ≤ b.nonce := by simpa using hsorted.sublist hsub
    have hmem : ∀ c ∈ [a, b], c.nonce < 2 ^ 64 - 1 := fun c hc =>
      hmax c (hperm.subset (List.mem_flatten.2 ⟨g, hg, hsub.subset hc⟩))
    exact withinPayerGroup_of_le (hmem a (by simp)) (hmem b (by simp)) hle
  rw [List.isChain_iff_forall_rel_of_append_cons_cons]
  rintro x y pre post hsplit ⟨hw, hlt⟩
  have hfull : gs.flatten = pre ++ x :: y :: (post ++ gs.flatten.drop count) := by
    have happ := List.take_append_drop count gs.flatten
    rw [hsplit] at happ
    simpa using happ.symm
  rcases neighbours_flatten (fun g hg => ne_nil_of_mem_payerGroups (hgs.perm.subset hg)) hfull
    with ⟨g, hg, hsub⟩ | ⟨gp, a, b, gq, rfl, rfl⟩
  · rw [hnonce g hg x y hsub] at hw
    cases hw
  · -- `x` is not the first of its group, whose hash is below that of `y`
    have hpair := (List.pairwise_append.1 hgs.sorted).2.1
    have hlead := (List.pairwise_cons.1 hpair).1 (y :: b) List.mem_cons_self
    rcases a.eq_nil_or_concat with rfl | ⟨a, w, rfl⟩
    · have hxy := hlead (x.hash C) rfl (y.hash C) rfl
      rw [Std.OrientedCmp.gt_of_lt hlt] at hxy
      cases hxy
    · have hwx : withinPayerGroup x w = false := by
        refine hnonce (a ++ [w] ++ [x]) (by simp) w x ?_
        rw [List.append_assoc]
        exact List.sublist_append_right _ _
      refine h (gp.flatten ++ a) w x (y :: post) (by rw [hsplit]; simp) hwx y ?_ hlt
      rw [descent, if_pos hw]
      exact List.mem_cons_self

end Neighbours

section Agreement

variable [DecidableEq H] [Std.TransOrd H] [Std.LawfulEqOrd H]

/-- **When producer and verifier agree on the order.** Lay the payer groups
of the mempool out by the hash of their first transaction and cut after
`count`. The verifier accepts what `take_transactions` returns exactly
when in that list no descending run, but for one at its front, holds a
hash below its first; and, where no nonce is the largest one, exactly
when no transaction is followed by one of the same payer with the nonce
below and a lower hash. Otherwise executing the block fails, for the
producer as for every validator. -/
theorem takeTransactions_accepted_iff (vm : Machine H) (m : MempoolState vm.crypto) (count : ℕ) :
    (∃ gs, Arranges vm.crypto m.txs gs) ∧ ∀ gs, Arranges vm.crypto m.txs gs →
      (vm.verifyTransactionsOrder (m.takeTransactions count).1 = true ↔
        OrderedRuns vm.crypto (gs.flatten.take count)) ∧
      ((∀ tx ∈ m.txs, tx.nonce < 2 ^ 64 - 1) →
        (vm.verifyTransactionsOrder (m.takeTransactions count).1 = true ↔
          (gs.flatten.take count).IsChain fun x y => ¬ Inverted vm.crypto x y)) ∧
      ∀ fuel state,
        vm.executeBlock fuel (m.takeTransactions count).1 state =
            some (.error .invalidTransactionsOrder) ↔
          ¬ OrderedRuns vm.crypto (gs.flatten.take count) := by
  refine ⟨⟨_, arranges_sortedGroups m.distinct⟩, ?_⟩
  intro gs hgs
  rw [takeTransactions_eq hgs count]
  have haccepts : vm.verifyTransactionsOrder (gs.flatten.take count) = true ↔
      OrderedRuns vm.crypto (gs.flatten.take count) := verifyTransactionsOrder_iff
  refine ⟨haccepts, ?_, ?_⟩
  · intro hmax
    rw [haccepts]
    exact ⟨isChain_of_orderedRuns hgs hmax, orderedRuns_of_isChain⟩
  · intro fuel state
    rw [← haccepts, Machine.executeBlock]
    split
    · rename_i haccept
      rw [haccept]
      simp
    · rename_i hrefuse
      simp [hrefuse]

end Agreement

namespace Sample

/-- A transaction that calls `contract`, whose address decides where its
hash is, without its signature. -/
def unsigned (contract : Pubkey) (nonce : ℕ) (payer : Pubkey) : Transaction :=
  { contract, nonce, payer, accounts := [], params := [], signatures := [] }

/-- The transaction signed by its payer. -/
def tx (contract : Pubkey) (nonce : ℕ) (payer : Pubkey) : Transaction :=
  { unsigned contract nonce payer with
    signatures := [Machine.Sample.sign payer (unsigned contract nonce payer)] }

/-- A machine without contracts. -/
def vm : Machine Bytes where
  crypto := sampleCrypto
  limits := Machine.Sample.limits
  builtin _ := none
  runtime _ := .error .accountIsNotExecutable

/-- A mempool that is walked as: two transactions of payer 7 with nonces 5
and 6, one of payer 8, and another one of payer 7 with nonce 5. -/
def mempool : MempoolState sampleCrypto where
  txs := [tx 110 5 7, tx 130 6 7, tx 140 0 8, tx 120 5 7]
  distinct := by decide

end Sample

/-- The equivalence for the sample mempool. -/
theorem takeTransactions_accepted_sample :
    ∃ gs, Arranges sampleCrypto Sample.mempool.txs gs ∧
      (Sample.vm.verifyTransactionsOrder (Sample.mempool.takeTransactions 4).1 = true ↔
        OrderedRuns sampleCrypto (gs.flatten.take 4)) := by
  obtain ⟨⟨gs, hgs⟩, hall⟩ := takeTransactions_accepted_iff Sample.vm Sample.mempool 4
  exact ⟨gs, hgs, (hall gs hgs).1⟩

/-- The transaction with nonce 6 is followed by the second one with nonce
5, whose hash lies between those of the two before it: the block is
refused, though every transaction is signed. -/
theorem takeTransactions_refused :
    (Sample.mempool.txs.all fun tx => tx.verifySignatures sampleCrypto == .ok ()) = true ∧
      (Sample.mempool.takeTransactions 4).1 =
        [Sample.tx 110 5 7, Sample.tx 130 6 7, Sample.tx 120 5 7, Sample.tx 140 0 8] ∧
      Sample.vm.verifyTransactionsOrder (Sample.mempool.takeTransactions 4).1 = false ∧
      Sample.vm.executeBlock 1 (Sample.mempool.takeTransactions 4).1 (fun _ => none) matches
        some (.error .invalidTransactionsOrder) := by
  decide

end Producer

end Rensa
