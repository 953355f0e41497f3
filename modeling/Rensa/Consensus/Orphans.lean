import Rensa.Consensus.Model.Orphans
/-!
# What the orphan store keeps

Up to order, `addBlock` adds the block or nothing, `consumeBlocks` takes
one tree out and hands over its blocks, and no block is made up:
`insertL_spec`, `flatten_perm`. A block goes into a tree exactly where its
parent is (`insertL_none`, `insertL_isSome`), and a tree is flattened
parents first (`ready_flatten`).
-/

namespace Rensa

namespace Consensus

open Rose (nodes nodesL labels)

variable {H D : Type}

/-- The blocks of a forest of orphans. -/
def orphanBlocks (f : List (OrphanNode H D)) : List (Produced H D) :=
  (labels f).map OrphanCell.block

namespace OrphanNode

theorem orphanBlocks_perm {f g : List (OrphanNode H D)} (h : f.Perm g) :
    (orphanBlocks f).Perm (orphanBlocks g) := (Rose.labels_perm h).map _

theorem orphanBlocks_cons (t : OrphanNode H D) (ts : List (OrphanNode H D)) :
    orphanBlocks (t :: ts) = t.block :: (orphanBlocks t.children ++ orphanBlocks ts) := by
  simp [orphanBlocks, Rose.labels_cons, block]

@[simp] theorem orphanBlocks_append (f g : List (OrphanNode H D)) :
    orphanBlocks (f ++ g) = orphanBlocks f ++ orphanBlocks g := by
  simp [orphanBlocks]

@[simp] theorem orphanBlocks_nil : orphanBlocks ([] : List (OrphanNode H D)) = [] := rfl

theorem mem_orphanBlocks {f : List (OrphanNode H D)} {b : Produced H D} :
    b ∈ orphanBlocks f ↔ ∃ t ∈ f, b ∈ orphanBlocks [t] := by
  induction f with
  | nil => simp
  | cons t f ih =>
    rw [← List.singleton_append, orphanBlocks_append, List.mem_append, ih]
    simp

@[simp] theorem length_orphanBlocks (f : List (OrphanNode H D)) :
    (orphanBlocks f).length = (nodesL f).length := by
  simp [orphanBlocks, labels]

variable {K : Config H D} [DecidableEq H] {now : ℕ} {new : Produced H D}

private theorem insertL_spec_of {ts ts' : List (OrphanNode H D)}
    (hspec : ∀ t ∈ ts, ∀ t', insert K now new t = some t' → t'.label = t.label ∧
      ((orphanBlocks [t']).Perm (new :: orphanBlocks [t]) ∨
        t' = t ∧ K.hash new ∈ (orphanBlocks [t]).map K.hash))
    (h : insertL K now new ts = some ts') :
    ts'.map Rose.label = ts.map Rose.label ∧
      ((orphanBlocks ts').Perm (new :: orphanBlocks ts) ∨
        ts' = ts ∧ K.hash new ∈ (orphanBlocks ts).map K.hash) := by
  induction ts generalizing ts' with
  | nil => cases h
  | cons t ts ih =>
    simp only [insertL] at h
    split at h
    · rename_i t' ht'
      obtain rfl := Option.some.inj h
      obtain ⟨hlabel, hperm | ⟨rfl, hdup⟩⟩ := hspec t List.mem_cons_self t' ht'
      · refine ⟨by simp [hlabel], Or.inl ?_⟩
        rw [← List.singleton_append, orphanBlocks_append, ← List.singleton_append (l := ts),
          orphanBlocks_append]
        exact hperm.append_right _
      · refine ⟨rfl, Or.inr ⟨rfl, ?_⟩⟩
        rw [← List.singleton_append, orphanBlocks_append, List.map_append]
        exact List.mem_append_left _ hdup
    · obtain ⟨us, hus, rfl⟩ := Option.map_eq_some_iff.1 h
      obtain ⟨hlabel, hperm | ⟨rfl, hdup⟩⟩ :=
        ih (fun s hs => hspec s (List.mem_cons_of_mem _ hs)) hus
      · refine ⟨by simp [hlabel], Or.inl ?_⟩
        rw [← List.singleton_append, orphanBlocks_append, ← List.singleton_append (l := ts),
          orphanBlocks_append]
        exact (hperm.append_left _).trans List.perm_middle
      · refine ⟨rfl, Or.inr ⟨rfl, ?_⟩⟩
        rw [← List.singleton_append, orphanBlocks_append, List.map_append]
        exact List.mem_append_right _ hdup

/-- **A tree that takes a block** keeps its root, and holds one block more
or, where it had the block already, the same. -/
theorem insert_spec (t : OrphanNode H D) : ∀ t', insert K now new t = some t' →
    t'.label = t.label ∧ ((orphanBlocks [t']).Perm (new :: orphanBlocks [t]) ∨
      t' = t ∧ K.hash new ∈ (orphanBlocks [t]).map K.hash) := by
  induction t using Rose.induction with
  | node c cs ih =>
    intro t' h
    simp only [insert] at h
    split at h
    · cases h
    split at h
    · split at h
      · rename_i hany
        obtain rfl := Option.some.inj h
        refine ⟨rfl, Or.inr ⟨rfl, ?_⟩⟩
        obtain ⟨s, hs, hhash⟩ := List.any_eq_true.1 hany
        simp only [decide_eq_true_eq] at hhash
        rw [← hhash, orphanBlocks_cons]
        refine List.mem_map_of_mem (List.mem_cons_of_mem _ (List.mem_append_left _ ?_))
        refine mem_orphanBlocks.2 ⟨s, hs, ?_⟩
        rw [orphanBlocks_cons]
        exact List.mem_cons_self
      · obtain rfl := Option.some.inj h
        refine ⟨rfl, Or.inl ?_⟩
        have hperm := orphanBlocks_perm
          (K.order_perm (cs ++ [.node { arrived := now, block := new } []]))
        simp only [orphanBlocks_append, orphanBlocks_cons, orphanBlocks_nil, Rose.children_node,
          List.append_nil, block, Rose.label_node] at hperm ⊢
        exact ((hperm.cons _).trans (List.Perm.cons _ List.perm_append_comm)).trans
          (List.Perm.swap _ _ _)
    · obtain ⟨ds, hds, rfl⟩ := Option.map_eq_some_iff.1 h
      refine ⟨rfl, ?_⟩
      rcases (insertL_spec_of ih hds).2 with hperm | ⟨rfl, hdup⟩
      · left
        simp only [orphanBlocks_cons, orphanBlocks_nil, Rose.children_node, List.append_nil, block,
          Rose.label_node]
        exact (hperm.cons _).trans (List.Perm.swap _ _ _)
      · refine Or.inr ⟨rfl, ?_⟩
        rw [orphanBlocks_cons, List.map_cons, List.map_append]
        exact List.mem_cons_of_mem _ (List.mem_append_left _ hdup)

theorem insertL_spec {ts ts' : List (OrphanNode H D)} (h : insertL K now new ts = some ts') :
    ts'.map Rose.label = ts.map Rose.label ∧
      ((orphanBlocks ts').Perm (new :: orphanBlocks ts) ∨
        ts' = ts ∧ K.hash new ∈ (orphanBlocks ts).map K.hash) :=
  insertL_spec_of (fun t _ => insert_spec t) h

omit [DecidableEq H] in
private theorem flattenFrom_perm {fuel : ℕ} {queue : List (OrphanNode H D)}
    (h : (nodesL queue).length ≤ fuel) :
    (flattenFrom fuel queue).Perm (orphanBlocks queue) := by
  induction fuel generalizing queue with
  | zero =>
    have hnil : orphanBlocks queue = [] := by
      apply List.eq_nil_of_length_eq_zero
      rw [length_orphanBlocks]
      omega
    rw [hnil]
    exact List.Perm.nil
  | succ fuel ih =>
    obtain - | ⟨t, queue⟩ := queue
    · exact List.Perm.nil
    · have hlen : (nodesL (queue ++ t.children)).length ≤ fuel := by
        rw [Rose.nodesL_cons, Rose.nodes_eq] at h
        rw [Rose.nodesL_append]
        simp only [List.length_append, List.length_cons] at h ⊢
        omega
      rw [flattenFrom, orphanBlocks_cons]
      refine List.Perm.cons _ ((ih hlen).trans ?_)
      rw [orphanBlocks_append]
      exact List.perm_append_comm

omit [DecidableEq H] in
/-- **Flattening a tree** lists its blocks, each once. -/
theorem flatten_perm (t : OrphanNode H D) : t.flatten.Perm (orphanBlocks [t]) :=
  flattenFrom_perm (by simp)

/-! ## Where a block goes -/

omit [DecidableEq H] in
/-- Every block of the forest hangs under the block it names. -/
def Hung (K : Config H D) (f : List (OrphanNode H D)) : Prop :=
  ∀ t ∈ nodesL f, ∀ m ∈ t.children, (block m).parent = K.hash (block t)

omit [DecidableEq H] in
/-- A block of the forest is at one of its nodes. -/
theorem mem_orphanBlocks_iff {f : List (OrphanNode H D)} {b : Produced H D} :
    b ∈ orphanBlocks f ↔ ∃ t ∈ nodesL f, block t = b := by
  simp [orphanBlocks, labels, block]

private theorem insertL_none_of {ts : List (OrphanNode H D)}
    (h : ∀ t ∈ ts, insert K now new t = none) : insertL K now new ts = none := by
  induction ts with
  | nil => rfl
  | cons t ts ih =>
    rw [insertL, h t List.mem_cons_self, ih fun s hs => h s (List.mem_cons_of_mem _ hs)]
    rfl

/-- No tree takes a block whose parent it does not hold. -/
theorem insertL_none {ts : List (OrphanNode H D)}
    (h : ∀ t ∈ nodesL ts, new.parent ≠ K.hash (block t)) : insertL K now new ts = none := by
  refine insertL_none_of fun t ht => ?_
  have hnodes : ∀ n ∈ nodes t, new.parent ≠ K.hash (block n) :=
    fun n hn => h n (Rose.mem_nodesL.2 ⟨t, ht, hn⟩)
  clear h ht
  induction t using Rose.induction with
  | node c cs ih =>
    rw [insert]
    split
    · rfl
    · have hroot : new.parent ≠ K.hash c.block := hnodes (.node c cs) (Rose.mem_nodes_self _)
      rw [if_neg hroot, insertL_none_of fun s hs => ih s hs ?_]
      · rfl
      · intro n hn
        refine hnodes n ?_
        rw [Rose.nodes_node]
        exact List.mem_cons_of_mem _ (Rose.mem_nodesL.2 ⟨s, hs, hn⟩)

private theorem insertL_isSome_of {ts : List (OrphanNode H D)}
    (h : ∃ t ∈ ts, (insert K now new t).isSome = true) :
    (insertL K now new ts).isSome = true := by
  induction ts with
  | nil => simp at h
  | cons t ts ih =>
    rw [insertL]
    split
    · rfl
    · rename_i hnone
      obtain ⟨s, hs, hsome⟩ := h
      rcases List.mem_cons.1 hs with rfl | hs
      · rw [hnone] at hsome
        cases hsome
      · rw [Option.isSome_map]
        exact ih ⟨s, hs, hsome⟩

/-- **The tree that holds its parent takes a block**, where heights grow
from the root up to the new block. -/
theorem insertL_isSome {ts : List (OrphanNode H D)}
    (hgrow : ∀ n ∈ nodesL ts, ∀ m ∈ n.children, (block n).height ≤ (block m).height)
    (hnew : ∀ n ∈ nodesL ts, new.parent = K.hash (block n) → (block n).height < new.height)
    (h : ∃ n ∈ nodesL ts, new.parent = K.hash (block n)) :
    (insertL K now new ts).isSome = true := by
  obtain ⟨n, hn, hparent⟩ := h
  obtain ⟨t, ht, hn⟩ := Rose.mem_nodesL.1 hn
  have hsub : ∀ m ∈ nodes t, m ∈ nodesL ts := fun m hm => Rose.mem_nodesL.2 ⟨t, ht, hm⟩
  refine insertL_isSome_of ⟨t, ht, ?_⟩
  clear ht
  induction t using Rose.induction with
  | node c cs ih =>
    -- heights do not fall on the way down, so the root is below the new block
    have hroot : ∀ s : OrphanNode H D, (∀ m ∈ nodes s, m ∈ nodesL ts) → n ∈ nodes s →
        (block s).height < new.height := by
      intro s
      induction s using Rose.induction with
      | node d ds ihs =>
        intro hs hns
        rw [Rose.nodes_node] at hns
        rcases List.mem_cons.1 hns with rfl | hns
        · exact hnew _ (hs _ (Rose.mem_nodes_self _)) hparent
        · obtain ⟨u, hu, hnu⟩ := Rose.mem_nodesL.1 hns
          have hchild := hgrow _ (hs _ (Rose.mem_nodes_self _)) u hu
          have hlt := ihs u hu (fun m hm => hs m (Rose.mem_nodes_trans hm
            (Rose.mem_nodes_of_mem_children (t := .node d ds) hu))) hnu
          omega
    have hlt : c.block.height < new.height := hroot _ hsub hn
    rw [insert, if_neg (by omega)]
    split
    · split <;> rfl
    · rename_i hne
      rw [Option.isSome_map]
      rw [Rose.nodes_node] at hn
      rcases List.mem_cons.1 hn with rfl | hn
      · exact absurd hparent hne
      · obtain ⟨s, hs, hns⟩ := Rose.mem_nodesL.1 hn
        exact insertL_isSome_of ⟨s, hs, ih s hs hns fun m hm => hsub m (Rose.mem_nodes_trans hm
          (Rose.mem_nodes_of_mem_children (t := .node c cs) hs))⟩

private theorem hung_insertL_of {ts ts' : List (OrphanNode H D)}
    (hspec : ∀ t ∈ ts, ∀ t', insert K now new t = some t' → Hung K [t] → Hung K [t'])
    (h : insertL K now new ts = some ts') (hung : Hung K ts) : Hung K ts' := by
  induction ts generalizing ts' with
  | nil => cases h
  | cons t ts ih =>
    have hhead : Hung K [t] := fun n hn => hung n (by
      rw [Rose.nodesL_cons, List.mem_append]
      exact Or.inl (by simpa using hn))
    have htail : Hung K ts := fun n hn => hung n (by
      rw [Rose.nodesL_cons, List.mem_append]
      exact Or.inr hn)
    have hcons : ∀ (u : OrphanNode H D) (us : List (OrphanNode H D)), Hung K [u] → Hung K us →
        Hung K (u :: us) := by
      intro u us hu hus n hn
      rw [Rose.nodesL_cons, List.mem_append] at hn
      rcases hn with hn | hn
      · exact hu n (by simpa using hn)
      · exact hus n hn
    simp only [insertL] at h
    split at h
    · rename_i t' ht'
      obtain rfl := Option.some.inj h
      exact hcons _ _ (hspec t List.mem_cons_self t' ht' hhead) htail
    · obtain ⟨us, hus, rfl⟩ := Option.map_eq_some_iff.1 h
      exact hcons _ _ hhead (ih (fun s hs => hspec s (List.mem_cons_of_mem _ hs)) hus htail)

omit [DecidableEq H] in
private theorem hung_node {c : OrphanCell H D} {cs : List (OrphanNode H D)} :
    Hung K [.node c cs] ↔ (∀ m ∈ cs, (block m).parent = K.hash c.block) ∧ Hung K cs := by
  unfold Hung
  simp only [Rose.nodesL_cons, Rose.nodes_node, Rose.nodesL_nil, List.append_nil, List.mem_cons,
    forall_eq_or_imp]
  rfl

/-- Insertion into one tree hangs the block under its parent. -/
theorem hung_insert (t : OrphanNode H D) : ∀ t', insert K now new t = some t' →
    Hung K [t] → Hung K [t'] := by
  induction t using Rose.induction with
  | node c cs ih =>
    intro t' h hung
    simp only [insert] at h
    split at h
    · cases h
    split at h
    · rename_i hparent
      split at h
      · obtain rfl := Option.some.inj h
        exact hung
      · obtain rfl := Option.some.inj h
        rw [hung_node] at hung ⊢
        have hperm := K.order_perm (cs ++ [.node { arrived := now, block := new } []])
        refine ⟨fun m hm => ?_, fun n hn m hm => ?_⟩
        · rcases List.mem_append.1 (hperm.mem_iff.1 hm) with hm | hm
          · exact hung.1 m hm
          · rw [List.mem_singleton.1 hm]
            exact hparent
        · obtain ⟨s, hs, hns⟩ := Rose.mem_nodesL.1 hn
          rcases List.mem_append.1 (hperm.mem_iff.1 hs) with hs | hs
          · exact hung.2 n (Rose.mem_nodesL.2 ⟨s, hs, hns⟩) m hm
          · rw [List.mem_singleton.1 hs] at hns
            obtain rfl : n = .node { arrived := now, block := new } [] := by
              simpa [Rose.nodes_node] using hns
            cases hm
    · obtain ⟨ds, hds, rfl⟩ := Option.map_eq_some_iff.1 h
      rw [hung_node] at hung ⊢
      refine ⟨fun m hm => ?_, hung_insertL_of ih hds hung.2⟩
      -- the roots of the children are the same blocks
      have hlabels := (insertL_spec hds).1
      obtain ⟨s, hs, hlabel⟩ := List.mem_map.1 (hlabels ▸ List.mem_map_of_mem (f := Rose.label) hm)
      have := hung.1 s hs
      rwa [block, hlabel] at this

/-- And insertion into a forest. -/
theorem hung_insertL {ts ts' : List (OrphanNode H D)} (h : insertL K now new ts = some ts')
    (hung : Hung K ts) : Hung K ts' :=
  hung_insertL_of (fun t _ => hung_insert t) h hung

omit [DecidableEq H] in
theorem hung_append {f g : List (OrphanNode H D)} : Hung K (f ++ g) ↔ Hung K f ∧ Hung K g := by
  unfold Hung
  simp only [Rose.nodesL_append, List.mem_append, or_imp, forall_and]

omit [DecidableEq H] in
/-- Trees that hang as they should do so in any order, and without the
others. -/
theorem Hung.subset {f g : List (OrphanNode H D)} (h : Hung K f) (hsub : ∀ t ∈ g, t ∈ f) :
    Hung K g := by
  intro n hn
  obtain ⟨t, ht, hnt⟩ := Rose.mem_nodesL.1 hn
  exact h n (Rose.mem_nodesL.2 ⟨t, hsub t ht, hnt⟩)

omit [DecidableEq H] in
/-- A block of the forest is at a root, or names another block of it. -/
theorem Hung.root_or_parent {f : List (OrphanNode H D)} (h : Hung K f) {x : Produced H D}
    (hx : x ∈ orphanBlocks f) :
    (∃ t ∈ f, block t = x) ∨ ∃ z ∈ orphanBlocks f, x.parent = K.hash z := by
  obtain ⟨n, hn, rfl⟩ := mem_orphanBlocks_iff.1 hx
  rcases Rose.exists_parent_of_mem_nodesL hn with hroot | ⟨p, hp, hnp⟩
  · exact Or.inl ⟨n, hroot, rfl⟩
  · exact Or.inr ⟨block p, mem_orphanBlocks_iff.2 ⟨p, hp, rfl⟩, h p hp n hnp⟩

/-! ## The order of flattening -/

omit [DecidableEq H] in
/-- Every block of the list follows its parent, or its parent is in `S`. -/
inductive Ready (K : Config H D) : Set H → List (Produced H D) → Prop
  | nil {S : Set H} : Ready K S []
  | cons {S : Set H} {b : Produced H D} {bs : List (Produced H D)} (hparent : b.parent ∈ S)
      (hrest : Ready K (S ∪ {K.hash b}) bs) : Ready K S (b :: bs)

omit [DecidableEq H] in
theorem Ready.mono {S T : Set H} {bs : List (Produced H D)} (h : Ready K S bs) (hST : S ⊆ T) :
    Ready K T bs := by
  induction h generalizing T with
  | nil => exact .nil
  | cons hparent _ ih => exact .cons (hST hparent) (ih (Set.union_subset_union_left _ hST))

omit [DecidableEq H] in
/-- A queue is flattened parents first. -/
theorem ready_flattenFrom {fuel : ℕ} {queue : List (OrphanNode H D)} {S : Set H}
    (hung : Hung K queue) (hroots : ∀ t ∈ queue, (block t).parent ∈ S) :
    Ready K S (flattenFrom fuel queue) := by
  induction fuel generalizing queue S with
  | zero => exact .nil
  | succ fuel ih =>
    obtain - | ⟨t, queue⟩ := queue
    · exact .nil
    · refine .cons (hroots t List.mem_cons_self) (ih (fun n hn => hung n ?_) fun s hs => ?_)
      · rw [Rose.nodesL_append, List.mem_append] at hn
        rw [Rose.nodesL_cons, Rose.nodes_eq, List.cons_append, List.mem_cons, List.mem_append]
        exact Or.inr hn.symm
      · rcases List.mem_append.1 hs with hs | hs
        · exact Or.inl (hroots s (List.mem_cons_of_mem _ hs))
        · rw [hung t (Rose.mem_nodesL_of_mem List.mem_cons_self) s hs]
          exact Or.inr rfl

omit [DecidableEq H] in
/-- **A tree is flattened parents first.** -/
theorem ready_flatten {t : OrphanNode H D} (hung : Hung K [t]) :
    Ready K {(block t).parent} t.flatten :=
  ready_flattenFrom hung fun s hs => by
    rw [List.mem_singleton.1 hs]
    rfl

end OrphanNode

namespace Orphans

variable {K : Config H D} [DecidableEq H] {o : Orphans H D} {now : ℕ} {b x : Produced H D}

/-- A block added is the only one that can be new. -/
theorem mem_addBlock (h : x ∈ orphanBlocks (o.addBlock K now b).blocks) :
    x = b ∨ x ∈ orphanBlocks o.blocks := by
  unfold addBlock at h
  split at h
  · rename_i blocks hins
    rcases (OrphanNode.insertL_spec hins).2 with hperm | ⟨rfl, -⟩
    · exact List.mem_cons.1 (hperm.mem_iff.1 h)
    · exact Or.inr h
  · split at h
    · exact Or.inr h
    · rw [(OrphanNode.orphanBlocks_perm (K.order_perm _)).mem_iff] at h
      simp only [OrphanNode.orphanBlocks_append, List.mem_append] at h
      rcases h with h | h
      · exact Or.inr h
      · left
        simpa [OrphanNode.orphanBlocks_cons, OrphanNode.block] using h

theorem hung_addBlock (h : OrphanNode.Hung K o.blocks) :
    OrphanNode.Hung K (o.addBlock K now b).blocks := by
  unfold addBlock
  split
  · rename_i blocks hins
    exact OrphanNode.hung_insertL hins h
  · split
    · exact h
    · refine OrphanNode.Hung.subset (OrphanNode.hung_append.2 ⟨h, ?_⟩) fun t ht =>
        (K.order_perm _).mem_iff.1 ht
      intro n hn
      obtain rfl : n = .node { arrived := now, block := b } [] := by
        simpa [Rose.nodes_node] using hn
      exact fun m hm => absurd hm List.not_mem_nil

theorem votes_addBlock : (o.addBlock K now b).votes = o.votes := by
  unfold addBlock
  split
  · rfl
  · split <;> rfl

/-- What `consume_blocks` hands over, and what it leaves, was there. -/
theorem mem_consumeBlocks {h : H} :
    (∀ b ∈ (o.consumeBlocks h).1, b ∈ orphanBlocks o.blocks) ∧
      ∀ b ∈ orphanBlocks (o.consumeBlocks h).2.blocks, b ∈ orphanBlocks o.blocks := by
  unfold consumeBlocks
  split
  · exact ⟨by simp, fun b hb => hb⟩
  · rename_i t ht
    refine ⟨fun b hb => ?_, fun b hb => ?_⟩
    · exact OrphanNode.mem_orphanBlocks.2
        ⟨t, List.mem_of_find?_eq_some ht, t.flatten_perm.mem_iff.1 hb⟩
    · obtain ⟨s, hs, hbs⟩ := OrphanNode.mem_orphanBlocks.1 hb
      exact OrphanNode.mem_orphanBlocks.2 ⟨s, List.mem_of_mem_filter hs, hbs⟩

/-- The trees it leaves wait for other parents. -/
theorem mem_left_consumeBlocks {h : H} {t : OrphanNode H D} :
    t ∈ (o.consumeBlocks h).2.blocks ↔ t ∈ o.blocks ∧ (OrphanNode.block t).parent ≠ h := by
  unfold consumeBlocks
  split
  · rename_i hnone
    refine ⟨fun ht => ⟨ht, ?_⟩, And.left⟩
    simpa using List.find?_eq_none.1 hnone t ht
  · rw [List.mem_filter, decide_eq_true_iff]

/-- Where trees wait for different parents, `consume_blocks` takes one out
and leaves the others. -/
theorem consumeBlocks_perm {h : H} {t : OrphanNode H D}
    (hkeys : (o.blocks.map fun t => (OrphanNode.block t).parent).Nodup)
    (ht : o.blocks.find? (fun t => t.block.parent = h) = some t) :
    (o.consumeBlocks h).1 = t.flatten ∧ o.blocks.Perm (t :: (o.consumeBlocks h).2.blocks) := by
  unfold consumeBlocks
  rw [ht]
  refine ⟨rfl, ?_⟩
  dsimp only
  have hkey : t.block.parent = h := by simpa using List.find?_some ht
  have hmem := List.mem_of_find?_eq_some ht
  clear ht
  generalize o.blocks = l at hkeys hmem ⊢
  induction l with
  | nil => cases hmem
  | cons s l ih =>
    rw [List.map_cons, List.nodup_cons] at hkeys
    rcases List.mem_cons.1 hmem with rfl | hmem
    · have hrest : l.filter (fun t => t.block.parent ≠ h) = l := by
        rw [List.filter_eq_self]
        intro u hu
        simp only [decide_eq_true_eq]
        rintro rfl
        exact hkeys.1 (hkey ▸ List.mem_map_of_mem (f := fun t => (OrphanNode.block t).parent) hu)
      rw [List.filter_cons_of_neg (by simpa using hkey), hrest]
    · have hs : s.block.parent ≠ h := by
        rintro rfl
        exact hkeys.1 (hkey ▸ List.mem_map_of_mem (f := fun t => (OrphanNode.block t).parent) hmem)
      rw [List.filter_cons_of_pos (by simpa using hs)]
      exact ((ih hkeys.2 hmem).cons s).trans (List.Perm.swap _ _ _)

theorem votes_consumeBlocks {h : H} : (o.consumeBlocks h).2.votes = o.votes := by
  unfold consumeBlocks
  split <;> rfl

omit [DecidableEq H] in
theorem hung_missingBlocks {min : ℕ} (h : OrphanNode.Hung K o.blocks) :
    OrphanNode.Hung K (o.missingBlocks K now min).2.blocks := by
  intro n hn
  obtain ⟨s, hs, hns⟩ := Rose.mem_nodesL.1 hn
  obtain ⟨t, ht, rfl⟩ := List.mem_map.1 hs
  have htree : OrphanNode.Hung K [t] :=
    h.subset fun s hs => List.mem_singleton.1 hs ▸ List.mem_of_mem_filter ht
  split at hns
  · -- the timer is not in the block
    rw [resetTimer, Rose.nodes_node, List.mem_cons] at hns
    rcases hns with rfl | hns
    · exact htree t (by simp [Rose.mem_nodes_self])
    · exact htree n (by simp [Rose.nodes_eq, hns])
  · exact htree n (by simpa using hns)

omit [DecidableEq H] in
/-- `missing_blocks` drops trees and resets timers. -/
theorem mem_missingBlocks {min : ℕ} (h : x ∈ orphanBlocks (o.missingBlocks K now min).2.blocks) :
    x ∈ orphanBlocks o.blocks := by
  obtain ⟨s, hs, hx⟩ := OrphanNode.mem_orphanBlocks.1 h
  obtain ⟨t, ht, rfl⟩ := List.mem_map.1 hs
  refine OrphanNode.mem_orphanBlocks.2 ⟨t, List.mem_of_mem_filter ht, ?_⟩
  split at hx
  · simpa [resetTimer, OrphanNode.orphanBlocks_cons, OrphanNode.block] using hx
  · exact hx

end Orphans

end Consensus

end Rensa
