import Rensa.Consensus.Model.Chain
/-!
# What the operations do to a forest

One lemma per operation: a new root, a new child (`mem_addChild`,
`labels_addChild`), a vote (`nodesL_addVotes`) and the roots that are left
after a finalization (`mem_moveRoots`). Locations tell nodes apart where
the forest is `Located`.
-/

namespace Rensa

namespace Consensus

open Rose (nodes nodesL labels Keyed)

variable {H D : Type}

/-- The hash of the block in a cell. -/
def TreeCell.hash (K : Config H D) (c : TreeCell H D) : H := K.hash c.value.block.underlying

/-- No two nodes of the forest are at one location. -/
abbrev Located (f : List (TreeNode H D)) : Prop := Keyed TreeCell.loc f

/-- No block is in the forest twice. -/
abbrev Hashed (K : Config H D) (f : List (TreeNode H D)) : Prop := Keyed (TreeCell.hash K) f

/-- Under a permutation of its labels a forest keeps its keys apart. -/
theorem keyed_of_perm {κ α : Type*} {key : α → κ} {f : List (Rose α)} {l : List α}
    (h : (labels f).Perm l) (hl : (l.map key).Nodup) : Keyed key f :=
  (h.map key).nodup_iff.2 hl

private theorem filter_key_eq {κ α : Type*} [DecidableEq κ] {key : α → κ} {l : List α} {a : α}
    (h : (l.map key).Nodup) (ha : a ∈ l) : l.filter (fun x => key x = key a) = [a] := by
  induction l with
  | nil => cases ha
  | cons x l ih =>
    rw [List.map_cons, List.nodup_cons] at h
    rcases List.mem_cons.1 ha with rfl | ha
    · have hnil : l.filter (fun x => key x = key a) = [] := by
        rw [List.filter_eq_nil_iff]
        intro y hy heq
        exact h.1 (List.mem_map.2 ⟨y, hy, by simpa using heq⟩)
      simp [hnil]
    · have hx : key x ≠ key a := fun heq => h.1 (List.mem_map.2 ⟨a, ha, heq.symm⟩)
      simp [hx, ih h.2 ha]

namespace TreeNode

variable {K : Config H D} [DecidableEq H] {f : List (TreeNode H D)} {n p : TreeNode H D} {h : H}

/-! ## Finding nodes -/

theorem get_some (hn : get K f h = some n) : n ∈ nodesL f ∧ n.hash K = h :=
  ⟨List.mem_of_find?_eq_some hn, by simpa using List.find?_some hn⟩

theorem get_none : get K f h = none ↔ ∀ n ∈ nodesL f, hash K n ≠ h := by
  simp [get, List.find?_eq_none]

/-- In a forest without repetition, a node is found by its hash. -/
theorem get_of_mem (hf : Hashed K f) (hn : n ∈ nodesL f) : get K f (n.hash K) = some n := by
  cases hget : get K f (n.hash K) with
  | none => exact absurd rfl (get_none.1 hget n hn)
  | some m =>
    obtain ⟨hm, hhash⟩ := get_some hget
    rw [hf.eq hm hn hhash]

omit [DecidableEq H] in
theorem deref_some {l : ℕ} (hn : deref f l = some n) : n ∈ nodesL f ∧ n.label.loc = l :=
  ⟨List.mem_of_find?_eq_some hn, by simpa using List.find?_some hn⟩

omit [DecidableEq H] in
theorem deref_none {l : ℕ} : deref f l = none ↔ ∀ n ∈ nodesL f, n.label.loc ≠ l := by
  simp [deref, List.find?_eq_none]

omit [DecidableEq H] in
theorem deref_of_mem (hf : Located f) (hn : n ∈ nodesL f) : deref f n.label.loc = some n := by
  cases hget : deref f n.label.loc with
  | none => exact absurd rfl (deref_none.1 hget n hn)
  | some m =>
    obtain ⟨hm, hloc⟩ := deref_some hget
    rw [hf.eq hm hn hloc]

/-! ## A new child -/

/-- The node `add_child` hangs under another. -/
def leaf (loc : ℕ) (b : Executed H D) (parent : Option ℕ) : TreeNode H D :=
  .node { value := { block := b }, loc, parent } []

/-- What `add_child` makes of a node of the forest. -/
def grown (loc : ℕ) (b : Executed H D) (p n : TreeNode H D) : TreeNode H D :=
  Rose.graft (fun c => c.loc = p.label.loc) (leaf loc b (some p.label.loc)) n

variable {loc : ℕ} {b : Executed H D}

omit [DecidableEq H] in
@[simp] theorem label_grown : (grown loc b p n).label = n.label := Rose.label_graft n

omit [DecidableEq H] in
@[simp] theorem hash_grown : (grown loc b p n).hash K = n.hash K := by
  simp [hash, block]

omit [DecidableEq H] in
@[simp] theorem block_grown : (grown loc b p n).block = n.block := by
  simp [block]

omit [DecidableEq H] in
/-- **The nodes after a new child**: the old ones, and the child. -/
theorem mem_addChild (hp : p ∈ nodesL f) {m : TreeNode H D} :
    m ∈ nodesL (addChild f loc b p) ↔
      (∃ n ∈ nodesL f, grown loc b p n = m) ∨ m = leaf loc b (some p.label.loc) := by
  have hex : ∃ n ∈ nodesL f, decide (n.label.loc = p.label.loc) = true := ⟨p, hp, by simp⟩
  rw [addChild, Rose.mem_nodesL_graft]
  refine or_congr Iff.rfl ⟨fun hm => ?_, fun hm => ⟨?_, hex⟩⟩
  · simpa [Rose.nodes_node, leaf] using hm.1
  · rw [hm]
    exact Rose.mem_nodes_self _

omit [DecidableEq H] in
/-- The children of an old node are its old children, and the new one if
it hangs there. -/
theorem mem_children_grown {m : TreeNode H D} :
    m ∈ (grown loc b p n).children ↔ (∃ x ∈ n.children, grown loc b p x = m) ∨
      (n.label.loc = p.label.loc ∧ m = leaf loc b (some p.label.loc)) := by
  rw [grown, Rose.children_graft, List.mem_append, List.mem_map]
  refine or_congr Iff.rfl ?_
  by_cases h : n.label.loc = p.label.loc <;> simp [h]

omit [DecidableEq H] in
/-- The labels after a new child, up to order. -/
theorem labels_addChild (hf : Located f) (hp : p ∈ nodesL f) :
    (labels (addChild f loc b p)).Perm
      ((leaf loc b (some p.label.loc)).label :: labels f) := by
  have hfilter : (labels f).filter (fun c => decide (c.loc = p.label.loc)) = [p.label] := by
    exact filter_key_eq hf (Rose.mem_labels.2 ⟨p, hp, rfl⟩)
  have hperm := Rose.labels_graft_perm (p := fun c : TreeCell H D => c.loc = p.label.loc)
    (c := leaf loc b (some p.label.loc)) f
  rw [hfilter] at hperm
  refine hperm.trans ?_
  simp only [List.flatMap_cons, List.flatMap_nil, List.append_nil, Rose.labels_cons, leaf,
    Rose.label_node, Rose.children_node, Rose.labels_nil]
  exact List.perm_append_singleton _ _

/-! ## Votes -/

omit [DecidableEq H] in
/-- What a vote changes in a cell: neither the block, nor where the node
is, nor its link. -/
theorem addVote_fixed (stake : ℕ) (voter : Pubkey) (c : TreeCell H D) :
    (c.addVote stake voter).value.block = c.value.block ∧
      (c.addVote stake voter).loc = c.loc ∧ (c.addVote stake voter).parent = c.parent := by
  unfold TreeCell.addVote
  split
  · exact ⟨rfl, rfl, rfl⟩
  · exact ⟨rfl, rfl, rfl⟩

/-- What `add_votes` makes of a cell. -/
def voted (f : List (TreeNode H D)) (stake : ℕ) (voter : Pubkey) (t : TreeNode H D)
    (c : TreeCell H D) : TreeCell H D :=
  if c.loc ∈ (path f t).map fun m => m.label.loc then c.addVote stake voter else c

variable {stake : ℕ} {voter : Pubkey} {t : TreeNode H D}

omit [DecidableEq H] in
theorem voted_fixed (c : TreeCell H D) : (voted f stake voter t c).value.block = c.value.block ∧
    (voted f stake voter t c).loc = c.loc ∧ (voted f stake voter t c).parent = c.parent := by
  unfold voted
  split
  · exact addVote_fixed stake voter c
  · exact ⟨rfl, rfl, rfl⟩

omit [DecidableEq H] in
@[simp] theorem block_voted (n : TreeNode H D) :
    block (Rose.map (voted f stake voter t) n) = block n := by
  unfold block
  rw [Rose.label_map, (voted_fixed n.label).1]

omit [DecidableEq H] in
@[simp] theorem hash_voted (n : TreeNode H D) :
    hash K (Rose.map (voted f stake voter t) n) = hash K n := by
  unfold hash
  rw [block_voted]

/-! ## New roots -/

/-- Where a moved node may be, `next` or a later location being the first
that was never used. -/
def Placed (next old l : ℕ) : Alloc → Prop
  | .fresh => next ≤ l
  | .inPlace => l = old

theorem placed_place (next old : ℕ) (alloc : Alloc) :
    Placed next old (alloc.place next old) alloc := by
  cases alloc
  · exact le_rfl
  · rfl

theorem Placed.of_succ {next old l : ℕ} {alloc : Alloc} (h : Placed (next + 1) old l alloc) :
    Placed next old l alloc := by
  cases alloc
  · exact Nat.le_of_succ_le h
  · exact h

omit [DecidableEq H] in
/-- **The nodes after a finalization**: the children of the finalized root
as roots, and what was below them. -/
theorem mem_moveRoots {alloc : Alloc} {next : ℕ} {ts : List (TreeNode H D)} {m : TreeNode H D} :
    m ∈ nodesL (Chain.moveRoots alloc next ts) →
      (∃ t ∈ ts, ∃ l, Placed next t.label.loc l alloc ∧ m = Chain.asRoot l t) ∨
        ∃ t ∈ ts, m ∈ nodesL t.children := by
  induction ts generalizing next with
  | nil => simp [Chain.moveRoots]
  | cons t ts ih =>
    intro hm
    rw [Chain.moveRoots, Rose.nodesL_cons, List.mem_append, Rose.nodes_eq, List.mem_cons] at hm
    rcases hm with (rfl | hm) | hm
    · exact Or.inl ⟨t, List.mem_cons_self, _, placed_place _ _ _, rfl⟩
    · exact Or.inr ⟨t, List.mem_cons_self, hm⟩
    · rcases ih hm with ⟨s, hs, l, hl, rfl⟩ | ⟨s, hs, hms⟩
      · exact Or.inl ⟨s, List.mem_cons_of_mem _ hs, l, hl.of_succ, rfl⟩
      · exact Or.inr ⟨s, List.mem_cons_of_mem _ hs, hms⟩

omit [DecidableEq H] in
/-- A node after a finalization has the block, the votes and the children
of an old one, and its location too where moved nodes stay in place. -/
theorem exists_of_mem_moveRoots {alloc : Alloc} {next : ℕ} {ts : List (TreeNode H D)}
    {n : TreeNode H D} (hn : n ∈ nodesL (Chain.moveRoots alloc next ts)) :
    ∃ m ∈ nodesL ts, n.label.value = m.label.value ∧ n.children = m.children ∧
      (alloc = .inPlace → n.label.loc = m.label.loc) := by
  rcases mem_moveRoots hn with ⟨t, ht, l, hl, rfl⟩ | ⟨t, ht, hnt⟩
  · refine ⟨t, Rose.mem_nodesL_of_mem ht, rfl, rfl, fun halloc => ?_⟩
    subst halloc
    exact hl
  · exact ⟨n, Rose.mem_nodesL_of_mem_below (Rose.mem_nodesL_of_mem ht) hnt, rfl, rfl,
      fun _ => rfl⟩

omit [DecidableEq H] in
theorem mem_of_mem_moveRoots {alloc : Alloc} {next : ℕ} {ts : List (TreeNode H D)}
    {r : TreeNode H D} (hr : r ∈ Chain.moveRoots alloc next ts) :
    ∃ t ∈ ts, ∃ l, r = Chain.asRoot l t := by
  induction ts generalizing next with
  | nil => simp [Chain.moveRoots] at hr
  | cons t ts ih =>
    rw [Chain.moveRoots, List.mem_cons] at hr
    rcases hr with rfl | hr
    · exact ⟨t, List.mem_cons_self, _, rfl⟩
    · obtain ⟨s, hs, l, rfl⟩ := ih hr
      exact ⟨s, List.mem_cons_of_mem _ hs, l, rfl⟩

omit [DecidableEq H] in
/-- Every child of the finalized root is a root. -/
theorem exists_mem_moveRoots {alloc : Alloc} {next : ℕ} {ts : List (TreeNode H D)}
    {t : TreeNode H D} (ht : t ∈ ts) :
    ∃ l, Placed next t.label.loc l alloc ∧ Chain.asRoot l t ∈ Chain.moveRoots alloc next ts := by
  induction ts generalizing next with
  | nil => cases ht
  | cons s ts ih =>
    rcases List.mem_cons.1 ht with rfl | ht
    · exact ⟨_, placed_place _ _ _, List.mem_cons_self⟩
    · obtain ⟨l, hl, hmem⟩ := @ih (next + 1) ht
      exact ⟨l, hl.of_succ, List.mem_cons_of_mem _ hmem⟩

omit [DecidableEq H] in
/-- The blocks of the new roots and below them are those of the trees
that were moved, in order. -/
theorem map_value_moveRoots (alloc : Alloc) (next : ℕ) (ts : List (TreeNode H D)) :
    (labels (Chain.moveRoots alloc next ts)).map TreeCell.value =
      (labels ts).map TreeCell.value := by
  induction ts generalizing next with
  | nil => rfl
  | cons t ts ih =>
    rw [Chain.moveRoots, Rose.labels_cons, Rose.labels_cons, List.map_cons, List.map_append,
      List.map_cons, List.map_append, ih]
    rfl

end TreeNode

namespace Chain

open TreeNode (path epochStart head) in
/-- A root that can be finalized is confirmed, and so are the first blocks
of two epochs, each found from the parent of the first block of the one
after it. -/
theorem finalizable_some [DecidableEq H] {K : Config H D} {c : Chain H D} {root : TreeNode H D}
    (h : c.finalizable K root = true) :
    confirmed K root.votes = true ∧ ∃ n m,
      (path c.forktrees (epochStart K c.forktrees (head c.forktrees root)))[1]? = some n ∧
        (path c.forktrees (epochStart K c.forktrees n))[1]? = some m ∧
        confirmed K (epochStart K c.forktrees n).votes = true ∧
        confirmed K (epochStart K c.forktrees m).votes = true := by
  unfold finalizable at h
  obtain ⟨hroot, h⟩ := Bool.and_eq_true_iff.1 h
  split at h
  · cases h
  rename_i n hn
  obtain ⟨hfirst, h⟩ := Bool.and_eq_true_iff.1 h
  split at h
  · cases h
  rename_i m hm
  exact ⟨hroot, n, m, hn, hm, hfirst, h⟩

/-- The root that is split off, and the roots around it. -/
theorem splitRoots_some {p : TreeNode H D → Bool} {f before after : List (TreeNode H D)}
    {root : TreeNode H D} (h : splitRoots p f = some (before, root, after)) :
    f = before ++ root :: after ∧ p root = true := by
  induction f generalizing before with
  | nil => cases h
  | cons t ts ih =>
    simp only [splitRoots] at h
    split at h
    · rename_i hp
      obtain ⟨rfl, rfl, rfl⟩ : [] = before ∧ t = root ∧ ts = after := by simpa using h
      exact ⟨rfl, hp⟩
    · obtain ⟨⟨b, r, a⟩, hs, heq⟩ := Option.map_eq_some_iff.1 h
      obtain ⟨rfl, rfl, rfl⟩ : t :: b = before ∧ r = root ∧ a = after := by simpa using heq
      obtain ⟨rfl, hp⟩ := ih hs
      exact ⟨rfl, hp⟩

end Chain

end Consensus

end Rensa
