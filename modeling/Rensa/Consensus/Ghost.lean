import Rensa.Common.Descent
import Rensa.Consensus.Links
/-!
# The head of the chain

`head` goes down a tree by the most voted child and `with_head` chooses
among the heads of the trees. Where children are equally voted the source
compares how deep they are, which for siblings says nothing about the
chains below them; and the heads of the trees are compared by their own
votes and not by those of the trees they are the heads of. What either
selects is the heaviest subtree exactly where that makes no difference
(`ghost_head_iff`, `ghost_headNode_iff`).
-/

namespace Rensa

namespace Consensus

open Rose (nodes nodesL Descent)

variable {H D : Type}

namespace TreeNode

variable {f : List (TreeNode H D)}

/-- **The heaviest of some trees**: none has more votes, and none with as
many votes has a longer chain. -/
def Heaviest (ts : List (TreeNode H D)) (t : TreeNode H D) : Prop :=
  ∀ u ∈ ts, u.votes ≤ t.votes ∧ (u.votes = t.votes → Rose.height u ≤ Rose.height t)

instance (ts : List (TreeNode H D)) (t : TreeNode H D) : Decidable (Heaviest ts t) :=
  inferInstanceAs (Decidable (∀ u ∈ ts, _ ∧ (_ → _)))

/-- What the source compares nodes by: their votes, then their depths. -/
def weight (f : List (TreeNode H D)) (n : TreeNode H D) : ℕ ×ₗ ℕ := toLex (n.votes, depth f n)

theorem weight_lt {n m : TreeNode H D} :
    weight f n < weight f m ↔ n.votes < m.votes ∨ n.votes = m.votes ∧ depth f n < depth f m :=
  Prod.Lex.toLex_lt_toLex

/-- The loop of `head` goes from a child to one that weighs more. -/
theorem loop_step (p q : TreeNode H D × TreeNode H D) :
    (if q.1.votes < p.1.votes then (p.1.votes, p)
      else if q.1.votes = p.1.votes then
        if depth f p.1 < depth f q.1 then (p.1.votes, q) else (p.1.votes, p)
      else (q.1.votes, q)) =
      if weight f p.1 < weight f q.1 then (q.1.votes, q) else (p.1.votes, p) := by
  rcases lt_trichotomy q.1.votes p.1.votes with hlt | heq | hgt
  · rw [if_pos hlt, if_neg]
    rw [weight_lt]
    omega
  · rw [if_neg (by omega), if_pos heq]
    by_cases hd : depth f p.1 < depth f q.1
    · rw [if_pos hd, if_pos (weight_lt.2 (Or.inr ⟨heq.symm, hd⟩)), heq]
    · rw [if_neg hd, if_neg]
      rw [weight_lt]
      omega
  · rw [if_neg (by omega), if_neg (by omega), if_pos (weight_lt.2 (Or.inl hgt))]

/-- **The loop of `head` ends with the first child of the greatest
weight.** -/
theorem topSubtree_eq (p : TreeNode H D × TreeNode H D)
    (ps : List (TreeNode H D × TreeNode H D)) :
    (p :: ps).argmax (fun q => weight f q.1) = some (topSubtree f p ps) := by
  have hfold : ∀ (ps pre : List (TreeNode H D × TreeNode H D)) (p : TreeNode H D × TreeNode H D),
      pre.argmax (fun q => weight f q.1) = some p →
      (pre ++ ps).argmax (fun q => weight f q.1) = some (ps.foldl (fun best q =>
        if q.1.votes < best.1 then best
        else if q.1.votes = best.1 then
          if depth f best.2.1 < depth f q.1 then (best.1, q) else best
        else (q.1.votes, q)) (p.1.votes, p)).2 := by
    intro ps
    induction ps with
    | nil =>
      intro pre p hp
      rwa [List.append_nil]
    | cons q ps ih =>
      intro pre p hp
      have hnext : (pre ++ [q]).argmax (fun q => weight f q.1) =
          if weight f p.1 < weight f q.1 then some q else some p := by
        rw [List.argmax_concat, hp]
      rw [List.append_cons, List.foldl_cons]
      dsimp only
      rw [loop_step]
      split
      · rename_i hlt
        exact ih (pre ++ [q]) q (hnext.trans (if_pos hlt))
      · rename_i hlt
        exact ih (pre ++ [q]) p (hnext.trans (if_neg hlt))
  -- the first child is taken whatever its votes
  have hfirst : topSubtree f p ps = (ps.foldl (fun best q =>
        if q.1.votes < best.1 then best
        else if q.1.votes = best.1 then
          if depth f best.2.1 < depth f q.1 then (best.1, q) else best
        else (q.1.votes, q)) (p.1.votes, p)).2 := by
    unfold topSubtree
    rw [List.foldl_cons]
    congr 2
    by_cases h0 : p.1.votes = 0
    · simp [h0]
    · simp [h0]
  rw [hfirst]
  exact hfold ps [p] p List.argmax_singleton

/-- **`head` goes down by the first child of the greatest weight.** -/
theorem descent_head (t : TreeNode H D) :
    Descent (fun cs u => cs.argmax (weight f) = some u) t (head f t) := by
  induction t using Rose.induction with
  | node a cs ih =>
    rw [head, Chain.withHeads_eq]
    cases cs with
    | nil => exact .leaf a
    | cons t ts =>
      have htop := topSubtree_eq (f := f) (t, head f t) (ts.map fun t => (t, head f t))
      rw [← List.map_cons (f := fun t => (t, head f t)), argmax_map] at htop
      obtain ⟨u, hu, heq⟩ := Option.map_eq_some_iff.1 htop
      have hmem : u ∈ t :: ts := List.argmax_mem hu
      rw [List.map_cons]
      dsimp only
      rw [← heq]
      exact .down hmem hu (ih u hmem)

/-- **When `head` finds the heaviest chain.** In every tree of a forest:
`head` goes down to a leaf by a most voted child at each node, of equally
voted ones by one with the longest chain, if and only if there is a way
down on which the first of the most voted children, of those with the
greatest depth, has the longest chain of the most voted ones. -/
theorem ghost_head_iff (f : List (TreeNode H D)) (hf : Located f) (t : TreeNode H D)
    (ht : t ∈ nodesL f) :
    Descent Heaviest t (head f t) ↔
      ∃ l, Descent (fun cs u => cs.argmax (weight f) = some u ∧ Heaviest cs u) t l :=
  Descent.iff_and (fun _ _ _ hu hv => Option.some.inj (hu.symm.trans hv))
    (Rose.nodup_of_mem_nodesL hf.nodup ht) (descent_head t)

end TreeNode

namespace Chain

namespace Sample

/-- Two validators. -/
def pair : Config ℕ Unit := config .inPlace [(7, 600), (8, 400)] fun _ _ => .ok {}

/-- A block of a validator above another. -/
def above (key : Pubkey) (parent : Produced ℕ Unit) (votes : List (Vote ℕ)) : Produced ℕ Unit :=
  produce pair key (pair.hash parent) (parent.height + 1) () votes

def left : Produced ℕ Unit := produce pair 7 1 1 () []

def right : Produced ℕ Unit := produce pair 8 1 1 () []

/-- A node for a block without an output. -/
def limb (b : Produced ℕ Unit) (votes loc parent : ℕ) (children : List (TreeNode ℕ Unit)) :
    TreeNode ℕ Unit :=
  .node { value := { block := ⟨b, {}⟩, votes }, loc, parent := some parent } children

/-- The end of the longest chain. -/
def crown : TreeNode ℕ Unit := limb (above 7 (above 7 (above 7 left []) []) []) 0 5 3 []

/-- The more voted of two siblings, with two blocks without votes above it,
the first of which has another above it. -/
def bough : TreeNode ℕ Unit :=
  limb (above 7 left []) 600 2 0 [limb (above 7 (above 7 left []) []) 0 3 2 [crown],
    limb (above 8 (above 7 left []) []) 0 4 2 []]

/-- A tree with siblings that differ in their votes, and siblings that do
not. -/
def bushy : TreeNode ℕ Unit :=
  .node { value := { block := ⟨left, {}⟩, votes := 1000 }, loc := 0, parent := none }
    [limb (above 8 left []) 400 1 0 [], bough]

/-- Two blocks above one, and a third above the second of them. -/
def fork : List (Input ℕ Unit) :=
  [.include 0 left, .include 0 (above 7 left []), .include 0 (above 8 left []),
    .include 0 (above 7 (above 8 left []) [])]

end Sample

end Chain

namespace TreeNode

open Chain.Sample in
/-- The first of the siblings without votes has the longer chain. -/
theorem ghost_head_bushy : (head [bushy] bushy).label.loc = crown.label.loc ∧
    Descent Heaviest bushy (head [bushy] bushy) := by
  have hmem : bushy ∈ nodesL [bushy] := Rose.mem_nodesL_of_mem List.mem_cons_self
  have hlocated : ((Rose.labels [bushy]).map TreeCell.loc).Nodup := by decide
  have hbough : bushy.children.argmax (weight [bushy]) = some bough :=
    argmax_eq_some_iff_append.2 ⟨[limb (above 8 left []) 400 1 0 []], [], rfl,
      by decide, by decide⟩
  have htwig : bough.children.argmax (weight [bushy]) =
      some (limb (above 7 (above 7 left []) []) 0 3 2 [crown]) :=
    argmax_eq_some_iff_append.2 ⟨[], [limb (above 8 (above 7 left []) []) 0 4 2 []], rfl,
      by decide, by decide⟩
  refine ⟨by decide, (ghost_head_iff [bushy] hlocated bushy hmem).2 ⟨crown, ?_⟩⟩
  exact .down (by simp) ⟨hbough, by decide⟩
    (.down (by simp) ⟨htwig, by decide⟩
      (.down List.mem_cons_self ⟨List.argmax_singleton, by decide⟩ (.leaf _)))

/-- Of two blocks without votes the first is the head, and the second has
another above it. -/
theorem not_ghost_head_fork : ∃ t ∈ ((Chain.new Chain.Sample.genesis).run Chain.Sample.pair
      Chain.Sample.fork).forktrees,
    ¬ Descent Heaviest t (head ((Chain.new Chain.Sample.genesis).run Chain.Sample.pair
      Chain.Sample.fork).forktrees t) := by
  obtain ⟨f, hf⟩ : ∃ f, f = ((Chain.new Chain.Sample.genesis).run Chain.Sample.pair
    Chain.Sample.fork).forktrees := ⟨_, rfl⟩
  have hnone : ∃ t ∈ f, t.children ≠ [] ∧ ∀ u ∈ t.children, Heaviest t.children u →
      (head f t).hash Chain.Sample.pair ∉ (nodes u).map (hash Chain.Sample.pair) := by
    rw [hf]
    decide +kernel
  rw [← hf]
  obtain ⟨t, ht, hne, hnone⟩ := hnone
  refine ⟨t, ht, fun h => ?_⟩
  obtain ⟨u, hu, hheavy, hmem⟩ := h.exists_child hne
  exact hnone u hu hheavy (List.mem_map_of_mem hmem)

end TreeNode

namespace Chain

variable {c : Chain H D}

theorem headLe_iff (c : Chain H D) (a b : TreeNode H D) :
    c.headLe a b = true ↔ TreeNode.weight c.forktrees a ≤ TreeNode.weight c.forktrees b := by
  rw [← not_lt, TreeNode.weight_lt, headLe]
  split
  · rename_i heq
    simp only [decide_eq_true_eq]
    omega
  · rename_i hne
    simp only [decide_eq_true_eq]
    omega

/-- **`with_head` takes the last of the heads with the greatest weight.** -/
theorem headNode_eq : c.headNode =
    (c.forktrees.reverse.argmax fun t =>
      TreeNode.weight c.forktrees (TreeNode.head c.forktrees t)).map
        (TreeNode.head c.forktrees) := by
  rw [headNode, getLast?_insertionSort c.headLe_iff, ← List.map_reverse, argmax_map]
  rfl

/-- **The head is the head of the heaviest tree.** -/
def GhostHead (c : Chain H D) : Prop :=
  ∃ r ∈ c.forktrees, TreeNode.Heaviest c.forktrees r ∧
    c.headNode = some (TreeNode.head c.forktrees r)

/-- **The head of the tree outweighs those of the others**: by its votes
and then its depth it is not below the head of a tree before it, and above
that of a tree after it. -/
def Outweighs (c : Chain H D) (before : List (TreeNode H D)) (r : TreeNode H D)
    (after : List (TreeNode H D)) : Prop :=
  (∀ u ∈ before, TreeNode.weight c.forktrees (TreeNode.head c.forktrees u) ≤
      TreeNode.weight c.forktrees (TreeNode.head c.forktrees r)) ∧
    ∀ u ∈ after, TreeNode.weight c.forktrees (TreeNode.head c.forktrees u) <
      TreeNode.weight c.forktrees (TreeNode.head c.forktrees r)

/-- The tree whose head is selected. -/
theorem argmax_head_iff {r : TreeNode H D} : (c.forktrees.reverse.argmax fun t =>
      TreeNode.weight c.forktrees (TreeNode.head c.forktrees t)) = some r ↔
    ∃ before after, c.forktrees = before ++ r :: after ∧ c.Outweighs before r after := by
  rw [argmax_eq_some_iff_append]
  constructor
  · rintro ⟨after, before, hrev, hafter, hbefore⟩
    refine ⟨before.reverse, after.reverse, ?_, fun u hu => hbefore u (List.mem_reverse.1 hu),
      fun u hu => hafter u (List.mem_reverse.1 hu)⟩
    rw [← List.reverse_reverse c.forktrees, hrev]
    simp
  · rintro ⟨before, after, heq, hbefore, hafter⟩
    refine ⟨after.reverse, before.reverse, ?_, fun u hu => hafter u (List.mem_reverse.1 hu),
      fun u hu => hbefore u (List.mem_reverse.1 hu)⟩
    rw [heq]
    simp

theorem ghostHead_iff (hc : Located c.forktrees) : c.GhostHead ↔
    ∃ before r after, c.forktrees = before ++ r :: after ∧ TreeNode.Heaviest c.forktrees r ∧
      c.Outweighs before r after := by
  constructor
  · rintro ⟨r, hr, hheavy, hhead⟩
    rw [headNode_eq] at hhead
    obtain ⟨s, hs, heq⟩ := Option.map_eq_some_iff.1 hhead
    -- the two trees share their head
    have hsr : s = r := Rose.eq_of_mem_nodes_of_nodup hc.nodup
      (List.mem_reverse.1 (List.argmax_mem hs)) hr (head_mem_nodes s) (heq ▸ head_mem_nodes r)
    subst hsr
    obtain ⟨before, after, heq, hout⟩ := argmax_head_iff.1 hs
    exact ⟨before, s, after, heq, hheavy, hout⟩
  · rintro ⟨before, r, after, heq, hheavy, hout⟩
    refine ⟨r, by simp [heq], hheavy, ?_⟩
    rw [headNode_eq, argmax_head_iff.2 ⟨before, after, heq, hout⟩]
    rfl

/-- **When `with_head` finds the heaviest tree.** In every state of every
run: what `with_head` selects is the head of a tree whose root has the most
votes and, of those with as many, the longest chain, if and only if there
is such a tree and its head outweighs the heads of the other trees. -/
theorem ghost_headNode_iff [DecidableEq H] (K : Config H D) (fin : Finalized H D)
    (inputs : List (Input H D)) :
    ((Chain.new fin).run K inputs).GhostHead ↔ ∃ before r after,
      ((Chain.new fin).run K inputs).forktrees = before ++ r :: after ∧
      TreeNode.Heaviest ((Chain.new fin).run K inputs).forktrees r ∧
      ((Chain.new fin).run K inputs).Outweighs before r after :=
  ghostHead_iff (run_links K fin inputs).1.located

namespace Sample

/-- Two roots with a vote each, and a block without votes above the one
with more of them. -/
def twoRoots : List (Input ℕ Unit) :=
  [.include 0 left, .include 0 right,
    .include 0 (above 7 left [vote 7 (pair.hash left), vote 8 (pair.hash right)])] ++
    List.replicate 8 (.pollNext 0)

end Sample

/-- Of two roots the one with fewer votes has the head. -/
theorem not_ghostHead_twoRoots :
    ((Chain.new Sample.genesis).run Sample.pair Sample.twoRoots).forktrees ≠ [] ∧
      ¬ ((Chain.new Sample.genesis).run Sample.pair Sample.twoRoots).GhostHead := by
  obtain ⟨c, hc⟩ : ∃ c, c = (Chain.new Sample.genesis).run Sample.pair Sample.twoRoots := ⟨_, rfl⟩
  have hnone : ∀ r ∈ c.forktrees, TreeNode.Heaviest c.forktrees r →
      c.headNode.map (TreeNode.hash Sample.pair) ≠
        some ((TreeNode.head c.forktrees r).hash Sample.pair) := by
    rw [hc]
    decide +kernel
  rw [← hc]
  constructor
  · rw [hc]
    decide +kernel
  · rintro ⟨r, hr, hheavy, hhead⟩
    exact hnone r hr hheavy (by rw [hhead]; rfl)

end Chain

end Consensus

end Rensa
