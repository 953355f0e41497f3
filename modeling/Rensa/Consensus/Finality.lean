import Rensa.Consensus.Deeds
/-!
# The finalization rule

`find_finalizable_root` goes back from the head of a tree to the start of
its epoch, to the start of the epoch before and to the start of the one
before that. Heights go up by one from a block to the next, so what it
finds are the first blocks of the two epochs before that of the head, and
they are on the way from the root to the head (`justified_of_finalizable`).
A root that is finalized takes itself out of the forest, so the loop that
finalizes roots comes to an end.
-/

namespace Rensa

namespace Consensus

open Rose (nodes nodesL labels Path)
open TreeNode (block hash votes path)

variable {H D : Type}

/-- A block and the next one are in one epoch, or in one and the next. -/
theorem Config.epoch_succ (K : Config H D) {h h' : ℕ} (hh : h' = h + 1) :
    K.epoch h' = K.epoch h ∨ K.epoch h' = K.epoch h + 1 := by
  subst hh
  unfold Config.epoch
  rcases Nat.eq_zero_or_pos K.genesis.epochBlocks with h0 | hpos
  · rw [h0, Nat.div_zero, Nat.div_zero]
    exact Or.inl rfl
  · rw [Nat.succ_div]
    split
    · exact Or.inr rfl
    · exact Or.inl rfl

theorem Config.epoch_mono (K : Config H D) {h h' : ℕ} (hh : h ≤ h') : K.epoch h ≤ K.epoch h' :=
  Nat.div_le_div_right hh

namespace Chain

variable {K : Config H D} {c : Chain H D}

/-! ## The first block of an epoch -/

/-- **The first block of its epoch** on the way from `r` to `h`: it is on
the way, and every other block of the epoch there is above it. -/
structure Checkpoint (K : Config H D) (r h n : TreeNode H D) : Prop where
  onRoot : n ∈ nodes r
  underHead : h ∈ nodes n
  first : ∀ m ∈ nodes r, h ∈ nodes m → K.epoch (block m).height = K.epoch (block n).height →
    m ∈ nodes n

/-- Heights fall along a path, one at a time. -/
theorem WellFormed.path_height [DecidableEq H] (hc : WellFormed K c) {n m : TreeNode H D}
    {l : List (TreeNode H D)} (hl : Path c.forktrees (n :: m :: l)) :
    (block n).height = (block m).height + 1 :=
  (hc.children m (hl.tail.mem_nodesL m List.mem_cons_self) n hl.mem_children).2

variable [DecidableEq H]

/-- What `epoch_start` returns, the path of the node being known. -/
theorem epochStart_eq (hc : WellFormed K c) (hloc : Located c.forktrees)
    (hlinked : Linked c.forktrees) {n : TreeNode H D} {l : List (TreeNode H D)}
    (hl : Path c.forktrees (n :: l)) : TreeNode.epochStart K c.forktrees n =
      ((l.takeWhile fun m =>
        K.epoch (block m).height = K.epoch (block n).height).getLast?).getD n := by
  unfold TreeNode.epochStart
  rw [path_eq hloc hlinked _ _ hl, List.tail_cons]
  dsimp only
  split
  · rfl
  · -- a block with the hash of the node is the node
    rename_i heq
    refine (hc.hashed.eq ?_ (hl.mem_nodesL n List.mem_cons_self) (not_not.1 heq)).symm
    cases hlast : (l.takeWhile fun m =>
        K.epoch (block m).height = K.epoch (block n).height).getLast? with
    | none => exact hl.mem_nodesL n List.mem_cons_self
    | some m =>
      have hm := (List.takeWhile_sublist _).subset (List.mem_of_getLast? hlast)
      exact hl.mem_nodesL m (List.mem_cons_of_mem _ hm)

/-- **`epoch_start` cuts the path** where the epoch changes: what is up to
it is of the epoch, what is beyond of earlier ones. -/
theorem epochStart_split (hc : WellFormed K c) (hloc : Located c.forktrees)
    (hlinked : Linked c.forktrees) {n : TreeNode H D} {l : List (TreeNode H D)}
    (hl : Path c.forktrees (n :: l)) :
    ∃ l₁ l₂, n :: l = l₁ ++ TreeNode.epochStart K c.forktrees n :: l₂ ∧
      (∀ m ∈ l₁ ++ [TreeNode.epochStart K c.forktrees n],
        K.epoch (block m).height = K.epoch (block n).height) ∧
      ∀ m ∈ l₂, K.epoch (block m).height < K.epoch (block n).height := by
  obtain ⟨tw, htw⟩ : ∃ tw, tw = l.takeWhile fun m =>
    K.epoch (block m).height = K.epoch (block n).height := ⟨_, rfl⟩
  obtain ⟨dw, hdw⟩ : ∃ dw, dw = l.dropWhile fun m =>
    K.epoch (block m).height = K.epoch (block n).height := ⟨_, rfl⟩
  have hcut : l = tw ++ dw := by rw [htw, hdw, List.takeWhile_append_dropWhile]
  have hsame : ∀ m ∈ tw, K.epoch (block m).height = K.epoch (block n).height := by
    intro m hm
    rw [htw] at hm
    simpa using List.mem_takeWhile_imp hm
  -- the first block beyond is of another epoch, which is an earlier one
  have hless : ∀ m ∈ dw, K.epoch (block m).height < K.epoch (block n).height := by
    cases dw with
    | nil => exact fun m hm => absurd hm List.not_mem_nil
    | cons d dw =>
      have hd : K.epoch (block d).height ≠ K.epoch (block n).height := by
        have hhead := List.head?_dropWhile_not (fun m : TreeNode H D =>
          decide (K.epoch (block m).height = K.epoch (block n).height)) l
        rw [← hdw] at hhead
        simpa using hhead
      have hpath : Path c.forktrees (d :: dw) := by
        refine hl.suffix ⟨n :: tw, ?_⟩ (List.cons_ne_nil _ _)
        rw [hcut, List.cons_append]
      have hd : d ∈ n :: l := by simp [hcut]
      have hle : K.epoch (block d).height ≤ K.epoch (block n).height :=
        K.epoch_mono (hc.height_le (hl.mem_nodesL d hd) (hl.mem_nodes d hd))
      intro m hm
      have hm' := K.epoch_mono (hc.height_le (hpath.mem_nodesL m hm) (hpath.mem_nodes m hm))
      omega
  rw [epochStart_eq hc hloc hlinked hl, ← htw]
  cases hlast : tw.getLast? with
  | none =>
    obtain rfl := List.getLast?_eq_none_iff.1 hlast
    exact ⟨[], dw, by rw [hcut]; rfl, by simp, hless⟩
  | some s =>
    obtain ⟨tw', rfl⟩ := List.getLast?_eq_some_iff.1 hlast
    refine ⟨n :: tw', dw, by rw [hcut]; simp, fun m hm => ?_, hless⟩
    rw [List.cons_append, List.mem_cons] at hm
    rcases hm with rfl | hm
    · rfl
    · exact hsame m hm

/-- One epoch back: the first block of the epoch of `n`, and what is beyond
it on the path. -/
theorem epochStart_path (hc : WellFormed K c) (hloc : Located c.forktrees)
    (hlinked : Linked c.forktrees) {n m : TreeNode H D} {l : List (TreeNode H D)}
    (hl : Path c.forktrees (n :: l))
    (hm : (path c.forktrees (TreeNode.epochStart K c.forktrees n))[1]? = some m) :
    ∃ l₁ l₂, n :: l = l₁ ++ TreeNode.epochStart K c.forktrees n :: m :: l₂ ∧
      (∀ k ∈ l₁ ++ [TreeNode.epochStart K c.forktrees n],
        K.epoch (block k).height = K.epoch (block n).height) ∧
      (∀ k ∈ m :: l₂, K.epoch (block k).height < K.epoch (block n).height) ∧
      K.epoch (block m).height + 1 = K.epoch (block n).height := by
  obtain ⟨l₁, l₂, hsplit, hsame, hless⟩ := epochStart_split hc hloc hlinked hl
  have hpath : Path c.forktrees (TreeNode.epochStart K c.forktrees n :: l₂) :=
    hl.suffix ⟨l₁, hsplit.symm⟩ (List.cons_ne_nil _ _)
  rw [path_eq hloc hlinked _ _ hpath] at hm
  obtain ⟨l₃, rfl⟩ : ∃ l₃, l₂ = m :: l₃ := by
    cases l₂ with
    | nil => simp at hm
    | cons k l₃ =>
      obtain rfl : k = m := by simpa using hm
      exact ⟨l₃, rfl⟩
  refine ⟨l₁, l₃, hsplit, hsame, hless, ?_⟩
  have hstart := hsame _ (List.mem_append_right l₁ List.mem_cons_self)
  have hbefore := hless m List.mem_cons_self
  rcases K.epoch_succ (hc.path_height hpath) with heq | heq
  · omega
  · omega

/-! ## The rule -/

/-- **The finalization rule**: the root is confirmed, and so are the first
blocks of the two epochs before that of the head of its tree, which are on
the way from the root to the head. -/
def Justified (K : Config H D) (c : Chain H D) (r : TreeNode H D) : Prop :=
  ∃ c₁ c₂, Checkpoint K r (TreeNode.head c.forktrees r) c₁ ∧
    Checkpoint K r (TreeNode.head c.forktrees r) c₂ ∧
    K.epoch (block c₁).height + 1 = K.epoch (block (TreeNode.head c.forktrees r)).height ∧
    K.epoch (block c₂).height + 2 = K.epoch (block (TreeNode.head c.forktrees r)).height ∧
    K.minimumMajorityStake ≤ votes r ∧ K.minimumMajorityStake ≤ votes c₁ ∧
    K.minimumMajorityStake ≤ votes c₂

omit [DecidableEq H] in
/-- A block of a path that is the last one of its epoch there is the first
block of the epoch on the way from the root. -/
theorem checkpoint_of_path (hloc : Located c.forktrees) {r h n : TreeNode H D}
    {l₀ l₁ l₂ : List (TreeNode H D)} (hr : r ∈ c.forktrees) (hh : h ∈ nodes r)
    (hpath : Path c.forktrees (l₀ ++ (l₁ ++ n :: l₂)))
    (hhead : (l₀ ++ (l₁ ++ n :: l₂)).head? = some h)
    (hother : ∀ m ∈ l₀ ++ l₂, K.epoch (block m).height ≠ K.epoch (block n).height) :
    Checkpoint K r h n := by
  obtain ⟨l, hl⟩ : ∃ l, l₀ ++ (l₁ ++ n :: l₂) = h :: l := by
    cases hlist : l₀ ++ (l₁ ++ n :: l₂) with
    | nil => simp at hlist
    | cons k l =>
      rw [hlist, List.head?_cons, Option.some_inj] at hhead
      exact ⟨l, by rw [hhead]⟩
  rw [hl] at hpath
  have hn : n ∈ nodesL c.forktrees := hpath.mem_nodesL n (by rw [← hl]; simp)
  have hnh : h ∈ nodes n := hpath.mem_nodes n (by rw [← hl]; simp)
  have hnr : n ∈ nodes r := by
    obtain ⟨t, ht, hnt⟩ := Rose.mem_nodesL.1 hn
    rwa [Rose.eq_of_mem_nodes_of_nodup hloc.nodup hr ht hh (Rose.mem_nodes_trans hnh hnt)]
  refine ⟨hnr, hnh, fun m hm hmh hepoch => ?_⟩
  have hon : m ∈ h :: l := (hpath.mem_iff hloc.nodup (Rose.mem_nodesL.2 ⟨r, hr, hm⟩)).2 hmh
  rw [← hl, List.mem_append, List.mem_append, List.mem_cons] at hon
  rcases hon with hon | hon | rfl | hon
  · exact absurd hepoch (hother m (List.mem_append_left _ hon))
  · -- a block before it on the path is above it
    obtain ⟨k₁, k₂, rfl⟩ := List.append_of_mem hon
    have hsuffix : Path c.forktrees (m :: (k₂ ++ n :: l₂)) := by
      refine hpath.suffix ⟨l₀ ++ k₁, ?_⟩ (List.cons_ne_nil _ _)
      rw [← hl]
      simp
    exact hsuffix.mem_nodes n (by simp)
  · exact Rose.mem_nodes_self _
  · exact absurd hepoch (hother m (List.mem_append_right _ hon))

/-- **What can be finalized keeps to the rule**, where the links lead to the
parents. -/
theorem justified_of_finalizable (hc : WellFormed K c) (hloc : Located c.forktrees)
    (hlinked : Linked c.forktrees) {r : TreeNode H D} (hr : r ∈ c.forktrees)
    (hfin : c.finalizable K r = true) : Justified K c r := by
  obtain ⟨hroot, n, m, hn, hm, hfirst, hsecond⟩ := finalizable_some hfin
  have hhead : TreeNode.head c.forktrees r ∈ nodes r := head_mem_nodes r
  generalize hh : TreeNode.head c.forktrees r = h at hn hhead
  obtain ⟨l, hl⟩ := Rose.exists_path (Rose.mem_nodesL.2 ⟨r, hr, hhead⟩)
  -- the way back from the head, cut at the first blocks of its epoch and of the two before it
  obtain ⟨l₁, l₂, hsplit, hsame, hless, hepoch⟩ := epochStart_path hc hloc hlinked hl hn
  have hnpath : Path c.forktrees (n :: l₂) :=
    hl.suffix ⟨l₁ ++ [TreeNode.epochStart K c.forktrees h], by rw [hsplit]; simp⟩
      (List.cons_ne_nil _ _)
  obtain ⟨k₁, k₂, hsplit', hsame', hless', hepoch'⟩ := epochStart_path hc hloc hlinked hnpath hm
  have hmpath : Path c.forktrees (m :: k₂) :=
    hnpath.suffix ⟨k₁ ++ [TreeNode.epochStart K c.forktrees n], by rw [hsplit']; simp⟩
      (List.cons_ne_nil _ _)
  obtain ⟨j₁, j₂, hsplit'', hsame'', hless''⟩ := epochStart_split hc hloc hlinked hmpath
  have hn' := hsame' _ (List.mem_append_right k₁ List.mem_cons_self)
  have hm' := hsame'' _ (List.mem_append_right j₁ List.mem_cons_self)
  refine ⟨TreeNode.epochStart K c.forktrees n, TreeNode.epochStart K c.forktrees m, ?_, ?_,
    by rw [hh]; omega, by rw [hh]; omega, by simpa [confirmed] using hroot,
    by simpa [confirmed] using hfirst, by simpa [confirmed] using hsecond⟩
  · rw [hh]
    have hall : l₁ ++ [TreeNode.epochStart K c.forktrees h] ++
        (k₁ ++ TreeNode.epochStart K c.forktrees n :: m :: k₂) = h :: l := by
      rw [← hsplit', hsplit]
      simp
    refine checkpoint_of_path hloc hr hhead (hall ▸ hl) (by rw [hall]; rfl) fun k hk => ?_
    rcases List.mem_append.1 hk with hk | hk
    · have := hsame k hk
      omega
    · have := hless' k hk
      omega
  · rw [hh]
    have hall : l₁ ++ [TreeNode.epochStart K c.forktrees h] ++
        (k₁ ++ [TreeNode.epochStart K c.forktrees n]) ++
        (j₁ ++ TreeNode.epochStart K c.forktrees m :: j₂) = h :: l := by
      rw [← hsplit'', hsplit]
      simp [hsplit']
    refine checkpoint_of_path hloc hr hhead (hall ▸ hl) (by rw [hall]; rfl) fun k hk => ?_
    rcases List.mem_append.1 hk with hk | hk
    · rcases List.mem_append.1 hk with hk | hk
      · have := hsame k hk
        omega
      · have := hsame' k hk
        omega
    · have := hless'' k hk
      omega

/-! ## The loop -/

/-- A root that is finalized leaves the forest. -/
theorem length_finalizeNext {before after : List (TreeNode H D)} {root : TreeNode H D}
    (hsplit : splitRoots (c.finalizable K) c.forktrees = some (before, root, after)) :
    (nodesL (c.finalizeNext K (before ++ after) root).forktrees).length <
      (nodesL c.forktrees).length := by
  have hmoved : (nodesL (moveRoots K.alloc c.nextLoc root.children)).length =
      (nodesL root.children).length := by
    have hvalues := congrArg List.length
      (TreeNode.map_value_moveRoots K.alloc c.nextLoc root.children)
    simpa [labels] using hvalues
  change (nodesL (moveRoots K.alloc c.nextLoc root.children)).length < _
  rw [hmoved, (splitRoots_some hsplit).1,
    (Rose.perm_nodesL_middle before after root).length_eq, List.length_cons, List.length_append]
  omega

/-- **The loop ends**: when it has gone round as often as there are blocks
there is nothing left to finalize. -/
theorem finalizeLoop_ends {fuel : ℕ} (hfuel : (nodesL c.forktrees).length ≤ fuel) :
    (finalizeLoop K fuel c).tryFinalizeRoots K = none := by
  induction fuel generalizing c with
  | zero =>
    have hnil : c.forktrees = [] := by
      cases hf : c.forktrees with
      | nil => rfl
      | cons t ts => simp [hf, Rose.nodes_eq] at hfuel
    simp [finalizeLoop, tryFinalizeRoots, hnil, splitRoots]
  | succ fuel ih =>
    rw [finalizeLoop]
    cases hnext : c.tryFinalizeRoots K with
    | none => exact hnext
    | some c' =>
      obtain ⟨before, after, root, hsplit, rfl⟩ := tryFinalizeRoots_some hnext
      have hless := length_finalizeNext hsplit
      exact ih (by omega)

/-! ## Runs -/

/-- **Finalization is sound.** Whenever a call of a run finalizes a root, in
a state in which the links lead to the parents, the root keeps to the
finalization rule; so does any root `try_finalize_roots` would finalize in
a state of the run; and the loop that calls it ends. -/
theorem finality_run (K : Config H D) (fin : Finalized H D) (inputs : List (Input H D)) :
    (∀ pre i post, inputs = pre ++ i :: post → ∀ s root,
      (s, .finalize root) ∈ ((Chain.new fin).run K pre).deeds K i → Linked s.forktrees →
        root ∈ s.forktrees ∧ Justified K s root) ∧
      (∀ before root after, Linked ((Chain.new fin).run K inputs).forktrees →
        splitRoots (((Chain.new fin).run K inputs).finalizable K)
          ((Chain.new fin).run K inputs).forktrees = some (before, root, after) →
        Justified K ((Chain.new fin).run K inputs) root) ∧
      ∀ (c : Chain H D) (fuel : ℕ), (nodesL c.forktrees).length ≤ fuel →
        (finalizeLoop K fuel c).tryFinalizeRoots K = none := by
  refine ⟨fun pre i post hsplit s root hp hlinked => ?_, fun before root after hlinked hsplit => ?_,
    fun c fuel hfuel => finalizeLoop_ends hfuel⟩
  · obtain ⟨hs, -, before, after, hroot⟩ := deed_rule
      (P := fun _ c => Standing K (inputBlocks inputs) c) (fun p _ => calm_true p.2)
      (standing_new fin) (fun _ _ _ _ hact h => h.of_act hact) hsplit hp
    obtain ⟨hmem, hfin⟩ : root ∈ s.forktrees ∧ s.finalizable K root = true :=
      ⟨(sublist_splitRoots hroot).1, (splitRoots_some hroot).2⟩
    exact ⟨hmem, justified_of_finalizable hs.formed hs.allocated.located hlinked hmem hfin⟩
  · obtain ⟨halloc, hformed⟩ := run_forest K fin inputs
    exact justified_of_finalizable hformed halloc.located hlinked (sublist_splitRoots hsplit).1
      (splitRoots_some hsplit).2

namespace Sample

/-- Whether a deed makes a root final. -/
def finalizing : Deed ℕ Unit → Bool
  | .finalize _ => true
  | _ => false

end Sample

/-- With moved nodes staying in place, the first of three blocks is made
final by the rule. -/
theorem justified_threeBlocks :
    ∃ s root, (s, Deed.finalize root) ∈
        ((Chain.new Sample.genesis).run (Sample.single .inPlace) (Sample.threeBlocks.take 7)).deeds
          (Sample.single .inPlace) (.pollNext 0) ∧
      Justified (Sample.single .inPlace) s root := by
  have hdeed : ∃ p ∈ ((Chain.new Sample.genesis).run (Sample.single .inPlace)
      (Sample.threeBlocks.take 7)).deeds (Sample.single .inPlace) (.pollNext 0),
      Sample.finalizing p.2 = true ∧ Linked p.1.forktrees := by
    decide +kernel
  obtain ⟨⟨s, deed⟩, hp, hfinal, hlinked⟩ := hdeed
  cases deed with
  | vote | count => cases hfinal
  | finalize root =>
    exact ⟨s, root, hp, ((finality_run (Sample.single .inPlace) Sample.genesis
      Sample.threeBlocks).1 (Sample.threeBlocks.take 7) (.pollNext 0) [] rfl s root hp
        hlinked).2⟩

end Chain

end Consensus

end Rensa
