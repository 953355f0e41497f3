import Rensa.Consensus.Model.Block
/-!
# Orphans

Blocks that arrived before their parent are kept in trees, one per
missing parent, and votes that arrived before their target in lists, one
per target. The trees are the values of a hash map whose key is the
parent of the root, and the children of a node those of a map whose key
is the hash of the child, so neither key is stored here; the list order
is the order in which the map is walked.
-/

namespace Rensa

namespace Consensus

/-- `Orphans`. -/
structure Orphans (H D : Type) where
  blocks : List (OrphanNode H D) := []
  votes : H → List (Vote H) := fun _ => []

namespace OrphanNode

variable {H D : Type}

/-- The block of a node. -/
def block (t : OrphanNode H D) : Produced H D := t.label.block

mutual
/-- The recursion of `max_height`. -/
def traverse : OrphanNode H D → ℕ → ℕ
  | .node c cs, sofar => max (traverseL cs sofar) c.block.height
/-- Its loop over the children. -/
def traverseL : List (OrphanNode H D) → ℕ → ℕ
  | [], sofar => sofar
  | t :: ts, sofar => traverseL ts (max (traverse t sofar) sofar)
end

/-- `max_height`. -/
def maxHeight (t : OrphanNode H D) : ℕ := traverseL t.children t.block.height

variable (K : Config H D) [DecidableEq H]

mutual
/-- `Node::insert`; `none` gives the block back. -/
def insert (now : ℕ) (new : Produced H D) : OrphanNode H D → Option (OrphanNode H D)
  | .node c cs =>
    if new.height ≤ c.block.height then none
    else if new.parent = K.hash c.block then
      if cs.any fun t => K.hash t.label.block = K.hash new then some (.node c cs)
      else some (.node c (K.order (cs ++ [.node { arrived := now, block := new } []])))
    else (insertL now new cs).map fun cs => .node c cs
/-- The loop over the children, up to the first that takes the block. -/
def insertL (now : ℕ) (new : Produced H D) :
    List (OrphanNode H D) → Option (List (OrphanNode H D))
  | [] => none
  | t :: ts =>
    match insert now new t with
    | some t => some (t :: ts)
    | none => (insertL now new ts).map fun ts => t :: ts
end

/-- The loop of `flatten`, `queue` from the end the source pops. -/
def flattenFrom : ℕ → List (OrphanNode H D) → List (Produced H D)
  | 0, _ => []
  | _ + 1, [] => []
  | fuel + 1, t :: queue => t.block :: flattenFrom fuel (queue ++ t.children)

/-- `flatten`: the blocks of the tree, breadth first. -/
def flatten (t : OrphanNode H D) : List (Produced H D) := flattenFrom t.nodes.length [t]

end OrphanNode

namespace Orphans

variable {H D : Type} (K : Config H D) [DecidableEq H] (o : Orphans H D)

/-- The number of blocks waiting. -/
def size : ℕ := (Rose.nodesL o.blocks).length

/-- `add_vote`. -/
def addVote (v : Vote H) : Orphans H D :=
  { o with votes := Function.update o.votes v.target (o.votes v.target ++ [v]) }

/-- `consume_votes`. -/
def consumeVotes (h : H) : List (Vote H) × Orphans H D :=
  (o.votes h, { o with votes := Function.update o.votes h [] })

/-- `add_block`: into the first tree that takes the block, or else as a
tree of its own, where no other tree waits for the same parent. -/
def addBlock (now : ℕ) (b : Produced H D) : Orphans H D :=
  match OrphanNode.insertL K now b o.blocks with
  | some blocks => { o with blocks := blocks }
  | none =>
    if o.blocks.any fun t => t.block.parent = b.parent then o
    else { o with blocks := K.order (o.blocks ++ [.node { arrived := now, block := b } []]) }

/-- `consume_blocks`. -/
def consumeBlocks (h : H) : List (Produced H D) × Orphans H D :=
  match o.blocks.find? fun t => t.block.parent = h with
  | none => ([], o)
  | some t => (t.flatten, { o with blocks := o.blocks.filter fun t => t.block.parent ≠ h })

/-- `reset_timer`. -/
def resetTimer (now : ℕ) (t : OrphanNode H D) : OrphanNode H D :=
  .node { t.label with arrived := now } t.children

/-- `missing_blocks`: trees that are too low are dropped, and the parents
the others wait for too long are asked for. -/
def missingBlocks (now minRelevantHeight : ℕ) : List H × Orphans H D :=
  let timeout := K.genesis.slotInterval * K.genesis.epochBlocks
  let relevant := o.blocks.filter fun t => minRelevantHeight < t.maxHeight
  let expired (t : OrphanNode H D) : Bool := timeout ≤ now - t.label.arrived
  ((relevant.filter expired).map fun t => t.block.parent,
    { o with blocks := relevant.map fun t => if expired t then resetTimer now t else t })

end Orphans

end Consensus

end Rensa
