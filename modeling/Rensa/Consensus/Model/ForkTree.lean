import Rensa.Consensus.Model.Block
/-!
# The fork tree

A tree node holds a block, the location it has in memory and the location
its link to the parent points at. The walks of the source that go up the
tree (`path`, and with it `depth`, `epochStart` and the state of a block)
follow those links and nothing else, so they take the forest the links
point into.
-/

namespace Rensa

namespace Consensus

open Rose (nodesL)

/-- The contents of a tree node. -/
structure TreeCell (H D : Type) where
  value : VolatileBlock H D
  /-- Where the node is. -/
  loc : ℕ
  /-- Where it looks for its parent. -/
  parent : Option ℕ

/-- `TreeNode`. -/
abbrev TreeNode (H D : Type) := Rose (TreeCell H D)

namespace TreeNode

variable {H D : Type}

/-- The block of a node. -/
def block (n : TreeNode H D) : Produced H D := n.label.value.block.underlying

/-- The state change of the block of a node. -/
def diff (n : TreeNode H D) : StateDiff := n.label.value.block.output.state

/-- The votes counted for a node. -/
def votes (n : TreeNode H D) : ℕ := n.label.value.votes

variable (K : Config H D) [DecidableEq H] (f : List (TreeNode H D))

/-- The hash of the block of a node. -/
def hash (n : TreeNode H D) : H := K.hash n.block

/-- `get` and `get_mut`, over the roots in order: the first node in
preorder with that hash. -/
def get (h : H) : Option (TreeNode H D) := (nodesL f).find? fun n => n.hash K = h

/-- The node at a location. -/
def deref (l : ℕ) : Option (TreeNode H D) := (nodesL f).find? fun n => n.label.loc = l

/-- `PathIter`. A link to a location that holds no node ends the walk. -/
def pathFrom : ℕ → TreeNode H D → List (TreeNode H D)
  | 0, n => [n]
  | fuel + 1, n =>
    n :: match n.label.parent.bind (deref f) with
      | none => []
      | some p => pathFrom fuel p

/-- `path`: the node, then what its links lead to. -/
def path (n : TreeNode H D) : List (TreeNode H D) := pathFrom f (nodesL f).length n

/-- `depth`. -/
def depth (n : TreeNode H D) : ℕ := (path f n).length - 1

/-- `is_descendant_of`. -/
def isDescendantOf (n : TreeNode H D) (h : H) : Bool :=
  (path f n).tail.any fun m => m.hash K = h

/-- `epoch_start`: the last node of the walk that is still in the epoch of
the first. -/
def epochStart (n : TreeNode H D) : TreeNode H D :=
  let needle := (((path f n).tail.takeWhile fun m =>
    K.epoch m.block.height = K.epoch n.block.height).getLast?).getD n
  if needle.hash K ≠ n.hash K then needle else n

/-- `state`: the first block of the walk that sets the account. -/
def state (n : TreeNode H D) : State := fun k =>
  (path f n).findSome? fun m => m.diff.get k

/-- The loop of `head` over the children, each with its own head: the most
voted child, of equally voted ones the one with the deeper node. -/
def topSubtree (p : TreeNode H D × TreeNode H D) (ps : List (TreeNode H D × TreeNode H D)) :
    TreeNode H D × TreeNode H D :=
  ((p :: ps).foldl (fun best q =>
    if q.1.votes < best.1 then best
    else if q.1.votes = best.1 then
      if depth f best.2.1 < depth f q.1 then (best.1, q) else best
    else (q.1.votes, q)) (0, p)).2

mutual
/-- `head`: down the heaviest subtree to a leaf. -/
def head : TreeNode H D → TreeNode H D
  | .node a cs =>
    match withHeads cs with
    | [] => .node a cs
    | p :: ps => (topSubtree f p ps).2
/-- Every child with its head. -/
def withHeads : List (TreeNode H D) → List (TreeNode H D × TreeNode H D)
  | [] => []
  | t :: ts => (t, head t) :: withHeads ts
end

end TreeNode

namespace TreeCell

variable {H D : Type}

/-- The insertion of one voter: a known one changes nothing. -/
def addVote (stake : ℕ) (voter : Pubkey) (c : TreeCell H D) : TreeCell H D :=
  if voter ∈ c.value.voters then c
  else { c with value :=
    { c.value with
      votes := (c.value.votes + stake) % 2 ^ 64
      voters := insert voter c.value.voters } }

end TreeCell

namespace TreeNode

variable {H D : Type} (f : List (TreeNode H D))

/-- `add_votes`: the vote counts for every node of the walk. -/
def addVotes (stake : ℕ) (voter : Pubkey) (n : TreeNode H D) : List (TreeNode H D) :=
  let locs := (path f n).map fun m => m.label.loc
  f.map (Rose.map fun c => if c.loc ∈ locs then c.addVote stake voter else c)

/-- `add_child`, without its assertion: a leaf linked to the node it hangs
under. -/
def addChild (loc : ℕ) (block : Executed H D) (p : TreeNode H D) : List (TreeNode H D) :=
  f.map (Rose.graft (fun c => c.loc = p.label.loc)
    (.node { value := { block := block }, loc := loc, parent := some p.label.loc } []))

end TreeNode

end Consensus

end Rensa
