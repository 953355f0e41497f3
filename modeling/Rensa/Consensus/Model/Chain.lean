import Rensa.Consensus.Model.ForkTree
import Rensa.Consensus.Model.Orphans
/-!
# The chain of one validator

`Chain` is the state of the consensus protocol at one validator, and
`include` and `pollNext` are its two entry points. An event queue is kept
as a list from its front. `panicked` records that an assertion of the
source failed; `counted` is a history variable, which no function reads.
-/

namespace Rensa

namespace Consensus

/-- `ChainEvent`. -/
inductive ChainEvent (H D : Type)
  | vote (target justification : H)
  | blockDiscarded (block : Produced H D)
  | blockMissing (hash : H)
  | blockIncluded (block : Executed H D)
  | blockConfirmed (block : Executed H D) (votes : ℕ)
  | blockFinalized (block : Executed H D) (votes : ℕ)

/-- `Finalized`: the last final block, the genesis block if there is no
other, and the store of final accounts. -/
structure Finalized (H D : Type) where
  underlying : Option (Produced H D)
  store : PersistentState

namespace Finalized

variable {H D : Type} (K : Config H D) (s : Finalized H D)

/-- The hash of the final block. -/
def hash : H :=
  match s.underlying with
  | none => K.genesis.hash
  | some b => K.hash b

/-- The height of the final block. -/
def height : ℕ :=
  match s.underlying with
  | none => 0
  | some b => b.height

/-- `Finalized::apply`, without its assertion. -/
def apply (b : Executed H D) : Finalized H D :=
  { underlying := some b.underlying, store := s.store.apply b.output.state }

end Finalized

/-- `Chain`. -/
structure Chain (H D : Type) where
  finalized : Finalized H D
  forktrees : List (TreeNode H D) := []
  orphans : Orphans H D := {}
  /-- The own votes, by epoch: justification and target. -/
  ownvotes : ℕ → Option (H × H) := fun _ => none
  events : List (ChainEvent H D) := []
  finalizedHistory : List (ℕ × List H) := []
  /-- The first location no node was ever at. -/
  nextLoc : ℕ := 0
  panicked : Bool := false
  /-- The votes that were counted, each with the location of the node its
  target was found at. -/
  counted : List (Vote H × ℕ) := []

namespace Chain

variable {H D : Type} (K : Config H D) [DecidableEq H] (c : Chain H D)

/-- `Chain::new`. -/
def new (finalized : Finalized H D) : Chain H D := { finalized }

/-- The chain with other orphans. -/
def withOrphans (orphans : Orphans H D) : Chain H D := { c with orphans }

/-- The order of the heads in `with_head`. -/
def headLe (a b : TreeNode H D) : Bool :=
  if a.votes = b.votes then TreeNode.depth c.forktrees a ≤ TreeNode.depth c.forktrees b
  else a.votes < b.votes

/-- The head `with_head` selects: the last of the heads of the trees, in
the order of a stable sort. -/
def headNode : Option (TreeNode H D) :=
  ((c.forktrees.map (TreeNode.head c.forktrees)).insertionSort
    fun a b => c.headLe a b = true).getLast?

/-- The hash of the block `with_head` passes on. -/
def headHash : H :=
  match c.headNode with
  | some n => n.hash K
  | none => c.finalized.hash K

/-- The height of that block. -/
def headHeight : ℕ :=
  match c.headNode with
  | some n => n.block.height
  | none => c.finalized.height

/-- The state `with_head` passes on. -/
def headState : State :=
  match c.headNode with
  | some n => overlayed c.finalized.store.get (TreeNode.state c.forktrees n)
  | none => c.finalized.store.get

/-- `confirmed`. -/
def confirmed (votes : ℕ) : Bool := K.minimumMajorityStake ≤ votes

/-- Whether `get_block_node` finds a block. -/
def knows (h : H) : Bool := (TreeNode.get K c.forktrees h).isSome || c.finalized.hash K = h

/-- `in_finalized_history`. -/
def inFinalizedHistory (h : H) : Bool :=
  c.finalized.hash K = h || c.finalizedHistory.any (fun e => e.2.contains h) ||
    (c.finalizedHistory.length < K.genesis.limits.maxJustificationAge && h = K.genesis.hash)

/-- The events of a counted vote: the blocks of the walk that it confirmed. -/
def confirmations (stake : ℕ) (voter : Pubkey) (path : List (TreeNode H D)) :
    List (ChainEvent H D) :=
  ((path.filter fun n => !confirmed K n.votes).map fun n => n.label.addVote stake voter).filterMap
    fun cell =>
      if confirmed K cell.value.votes then
        some (.blockConfirmed cell.value.block cell.value.votes)
      else none

/-- The end of `injest_vote`: the vote is added to its target and the
nodes above it. -/
def count (stake : ℕ) (v : Vote H) (target : TreeNode H D) : Chain H D :=
  { c with
    forktrees := TreeNode.addVotes c.forktrees stake v.validator target
    events := c.events ++ confirmations K stake v.validator (TreeNode.path c.forktrees target)
    counted := (v, target.label.loc) :: c.counted }

/-- `injest_vote`. -/
def injestVote (v : Vote H) : Chain H D :=
  match K.stakeOf v.validator with
  | none => c
  | some stake =>
    if stake < K.genesis.limits.minimumStake then c
    else if !K.verifyVote v then c
    else match TreeNode.get K c.forktrees v.target with
    | none => c.withOrphans (c.orphans.addVote v)
    | some target =>
      if !c.inFinalizedHistory K v.justification &&
          !TreeNode.isDescendantOf K c.forktrees target v.justification then c
      else c.count K stake v target

/-- `count_votes`. -/
def countVotes (votes : List (Vote H)) : Chain H D := votes.foldl (fun c v => c.injestVote K v) c

/-- A block included as a root of the forest. -/
def addRoot (b : Executed H D) : Chain H D :=
  { c with
    forktrees := c.forktrees ++
      [.node { value := { block := b }, loc := c.nextLoc, parent := none } []]
    events := .blockIncluded b :: c.events
    nextLoc := c.nextLoc + 1 }

/-- A block included under a node, with the assertion of `add_child`. -/
def addUnder (p : TreeNode H D) (b : Executed H D) : Chain H D :=
  { c with
    forktrees := TreeNode.addChild c.forktrees c.nextLoc b p
    events := .blockIncluded b :: c.events
    nextLoc := c.nextLoc + 1
    panicked := c.panicked || !decide (b.underlying.parent = p.hash K) }

/-- `try_include`; `none` gives the block back. -/
def tryInclude (b : Produced H D) : Except MachineError (Option (Chain H D)) :=
  if c.knows K (K.hash b) then .ok (some c)
  else if b.parent = c.finalized.hash K then
    if b.height ≠ c.finalized.height + 1 then .error .invalidBlockHeight
    else match K.newExecuted c.finalized.store.get b with
    | .error e => .error e
    | .ok b => .ok (some (c.addRoot b))
  else match TreeNode.get K c.forktrees b.parent with
  | none => .ok none
  | some p =>
    if b.height ≠ p.block.height + 1 then .error .invalidBlockHeight
    else match K.newExecuted
        (overlayed c.finalized.store.get (TreeNode.state c.forktrees p)) b with
    | .error e => .error e
    | .ok b => .ok (some (c.addUnder K p b))

/-- The rules `commit_and_vote` keeps to where it has voted in the epoch:
the justification of that vote is still known to be final, and the node
is above its target. -/
def mayVote (n : TreeNode H D) : Bool :=
  match c.ownvotes (K.epoch n.block.height) with
  | none => true
  | some (j, t) =>
    (j = c.finalized.hash K || c.inFinalizedHistory K j) &&
      TreeNode.isDescendantOf K c.forktrees n t

/-- `commit_and_vote`. -/
def commitAndVote (target : H) : Chain H D :=
  match TreeNode.get K c.forktrees target with
  | none => c
  | some n =>
    if c.mayVote K n then
      { c with
        ownvotes := Function.update c.ownvotes (K.epoch n.block.height)
          (some (c.finalized.hash K, n.hash K))
        events := .vote (n.hash K) (c.finalized.hash K) :: c.events }
    else c

/-- The checks `include` makes before it looks for the parent. -/
def admits (b : Produced H D) : Bool :=
  match K.stakeOf b.signature.1 with
  | none => false
  | some stake =>
    K.genesis.limits.minimumStake ≤ stake && c.finalized.height < b.height && K.verifySignature b

/-- The vote of `include` for a block that became the head. -/
def voteIfHead (h : H) : Chain H D := if h = c.headHash K then c.commitAndVote K h else c

/-- The recursion of `include`: every nested call takes a tree off the
orphans, so their number bounds its depth. -/
def includeFrom (now : ℕ) : ℕ → Chain H D → Produced H D → Chain H D
  | 0, c, _ => c
  | fuel + 1, c, b =>
    if c.admits K b then
      match c.tryInclude K b with
      | .error _ => c
      | .ok none => c.withOrphans (c.orphans.addBlock K now b)
      | .ok (some c) =>
        let c := c.voteIfHead K (K.hash b)
        let (waiting, orphans) := c.orphans.consumeBlocks (K.hash b)
        waiting.foldl (includeFrom now fuel) (c.withOrphans orphans)
    else c

/-- `include`. -/
def «include» (now : ℕ) (b : Produced H D) : Chain H D :=
  includeFrom K now (c.orphans.size + 1) c b

/-- The test of `find_finalizable_root` on one root. -/
def finalizable (root : TreeNode H D) : Bool :=
  let f := c.forktrees
  confirmed K root.votes &&
    match (TreeNode.path f (TreeNode.epochStart K f (TreeNode.head f root)))[1]? with
    | none => false
    | some n =>
      let first := TreeNode.epochStart K f n
      confirmed K first.votes &&
        match (TreeNode.path f first)[1]? with
        | none => false
        | some n => confirmed K (TreeNode.epochStart K f n).votes

/-- A child of the finalized root, as the new root it becomes. -/
def asRoot (loc : ℕ) (t : TreeNode H D) : TreeNode H D :=
  .node { t.label with parent := none, loc := loc } t.children

/-- The children of the finalized root, moved into the list of roots. -/
def moveRoots (alloc : Alloc) : ℕ → List (TreeNode H D) → List (TreeNode H D)
  | _, [] => []
  | next, t :: ts =>
    asRoot (alloc.place next t.label.loc) t :: moveRoots alloc (next + 1) ts

/-- `finalize_root`, on the forest `rest` the root was taken from, with the
assertion of `Finalized::apply`. -/
def finalizeRoot (rest : List (TreeNode H D)) (root : TreeNode H D) : Chain H D :=
  let discarded := rest.filter fun t => t.hash K ≠ root.hash K
  { c with
    finalized := c.finalized.apply root.label.value.block
    forktrees := moveRoots K.alloc c.nextLoc root.children
    nextLoc := c.nextLoc + root.children.length
    events := (Rose.nodesL discarded).foldl
      (fun es n => .blockDiscarded (TreeNode.block n) :: es) c.events
    panicked := c.panicked || !decide (root.block.parent = c.finalized.hash K) }

/-- The first root that can be finalized, between those before and after
it. -/
def splitRoots (p : TreeNode H D → Bool) :
    List (TreeNode H D) → Option (List (TreeNode H D) × TreeNode H D × List (TreeNode H D))
  | [] => none
  | t :: ts =>
    if p t then some ([], t, ts)
    else (splitRoots p ts).map fun (before, root, after) => (t :: before, root, after)

/-- `try_finalize_roots`; `none` where there is nothing to finalize. -/
def tryFinalizeRoots : Option (Chain H D) :=
  match splitRoots (c.finalizable K) c.forktrees with
  | none => none
  | some (before, root, after) =>
    let c := c.finalizeRoot K (before ++ after) root
    some { c with
      ownvotes := Function.update c.ownvotes (K.epoch root.block.height) none
      events := .blockFinalized root.label.value.block root.votes :: c.events }

/-- `while try_finalize_roots`: every round takes a block off the
forest. -/
def finalizeLoop : ℕ → Chain H D → Chain H D
  | 0, c => c
  | fuel + 1, c =>
    match c.tryFinalizeRoots K with
    | none => c
    | some c => finalizeLoop fuel c

/-- The votes `post_block_included` counts: those in the block, and those
that waited for it. -/
def countAll (b : Produced H D) : Chain H D :=
  let c := c.countVotes K b.votes
  let (votes, orphans) := c.orphans.consumeVotes (K.hash b)
  (c.withOrphans orphans).countVotes K votes

/-- `post_block_included`. -/
def postBlockIncluded (now : ℕ) (b : Produced H D) : Chain H D :=
  let c := c.countAll K b
  let c := finalizeLoop K (Rose.nodesL c.forktrees).length c
  let (missing, orphans) := c.orphans.missingBlocks K now c.finalized.height
  { c.withOrphans orphans with
    events := missing.foldl (fun es h => .blockMissing h :: es) c.events }

/-- `post_block_finalized`. -/
def postBlockFinalized (b : Produced H D) : Chain H D :=
  let epoch := K.epoch c.finalized.height
  let history :=
    match c.finalizedHistory.lookup epoch with
    | none => c.finalizedHistory ++ [(epoch, [K.hash b])]
    | some hashes => indexInsert c.finalizedHistory epoch (hashes.insert (K.hash b))
  { c with finalizedHistory := history.filter fun e =>
      epoch - K.genesis.limits.maxJustificationAge ≤ e.1 }

/-- `poll_next`. -/
def pollNext (now : ℕ) : Option (ChainEvent H D) × Chain H D :=
  match c.events.getLast? with
  | none => (none, c)
  | some event =>
    let c := { c with events := c.events.dropLast }
    (some event,
      match event with
      | .blockIncluded b => c.postBlockIncluded K now b.underlying
      | .blockFinalized b _ => c.postBlockFinalized K b.underlying
      | _ => c)

/-- What can be done with a chain: a block arrives, or the next event is
taken. -/
inductive Input (H D : Type)
  | «include» (now : ℕ) (block : Produced H D)
  | pollNext (now : ℕ)

/-- One call. -/
def step (c : Chain H D) : Input H D → Chain H D
  | .include now b => c.include K now b
  | .pollNext now => (c.pollNext K now).2

/-- Any sequence of calls. -/
def run (c : Chain H D) (inputs : List (Input H D)) : Chain H D := inputs.foldl (step K) c

end Chain

end Consensus

end Rensa
