import Liquent.Dag.Types
import Liquent.Misc.Table

/-!
# The DAG in memory

`InMemDag` of `dag_store.rs` (cited by line): certified nodes by round and author, with the voting
power that links to them have gathered.  A row of the map has one place for each validator; a row is
made when the first node of its round is validated.

The rows are tables from authors to nodes, and going through a row means going through the
validators in their order.
-/

namespace Liquent.Dag

open Misc

/-- How an operation on the DAG fails: with an error for its caller, or with a panic. -/
inductive DagError where
  | error (message : String)
  | panic (message : String)
deriving DecidableEq

inductive NodeStatus where
  | unordered (node : CertifiedNode) (aggregatedWeakVotingPower aggregatedStrongVotingPower : Nat)
  | ordered (node : CertifiedNode)
deriving DecidableEq

namespace NodeStatus

/-- `as_node` (40). -/
def asNode : NodeStatus → CertifiedNode
  | .unordered node _ _ => node
  | .ordered node => node

/-- One more link to the node: a strong one from a certified node, else a weak one. -/
def addVotingPower (votingPower : Nat) (updateLinkPower : Bool) : NodeStatus → NodeStatus
  | .unordered node weak strong =>
    if updateLinkPower then .unordered node weak (strong + votingPower)
    else .unordered node (weak + votingPower) strong
  | .ordered node => .ordered node

end NodeStatus

structure InMemDag where
  nodesByRound : Table Nat (Table Author NodeStatus)
  startRound : Nat
  epochState : EpochState
  windowSize : Nat

/-- An operation on the DAG; what it has written before it fails stays written. -/
abbrev DagM := EStateM DagError InMemDag

namespace InMemDag

variable (dag : InMemDag)

/-- `new_empty` (64). -/
def newEmpty (epochState : EpochState) (startRound windowSize : Nat) : InMemDag :=
  ⟨[], startRound, epochState, windowSize⟩

/-- `lowest_round` (70). -/
def lowestRound : Nat := dag.startRound

/-- `highest_round` (74). -/
def highestRound : Nat := dag.nodesByRound.keys.foldr max dag.startRound

/-- The keys of `author_to_index`, in the order of the places of a row. -/
def authors : List Author := dag.epochState.verifier.getOrderedAccountAddresses

/-- The place of a node, if it has one; the place may be empty (219). -/
def getNodeRefMut (round : Nat) (author : Author) : Option (Option NodeStatus) :=
  if author ∈ dag.authors then (dag.nodesByRound.get round).map (·.get author) else none

/-- `get_node_ref` (213). -/
def getNodeRef (round : Nat) (author : Author) : Option NodeStatus :=
  (dag.getNodeRefMut round author).join

/-- Fills the place of a node. -/
def setNode (round : Nat) (author : Author) (status : NodeStatus) : InMemDag :=
  { dag with nodesByRound :=
      dag.nodesByRound.put round (((dag.nodesByRound.get round).getD []).put author status) }

/-- Whether there is a node in the slot; its digest is not compared (187). -/
def «exists» (metadata : NodeMetadata) : Bool :=
  (dag.getNodeRef metadata.round metadata.author).isSome

/-- `validate_new_node` (123), which makes the row of the node's round. -/
def validateNewNode (node : CertifiedNode) : Except DagError InMemDag := do
  ensure (node.node.epoch = dag.epochState.epoch) (.error "different epoch")
  ensure (node.node.author ∈ dag.authors) (.error "unknown author")
  ensure (dag.lowestRound ≤ node.node.round) (.error "round too low")
  ensure (node.node.round ≤ dag.highestRound + 1) (.error "round too high")
  ensure (dag.lowestRound < node.node.round →
    ∀ parent ∈ node.node.parents, dag.exists parent.metadata) (.error "parent not exist")
  let row := (dag.nodesByRound.get node.node.round).getD []
  ensure (row.get node.node.author = none) (.error "duplicate node")
  pure { dag with nodesByRound := dag.nodesByRound.put node.node.round row }

/-- The vote that one listed parent receives. -/
def addVote (votingPower : Nat) (updateLinkPower : Bool) (parent : NodeMetadata) : DagM Unit :=
  fun dag =>
    match dag.getNodeRefMut parent.round parent.author with
    | none => .error (.panic "must exist") dag
    | some none => .error (.panic "parents must exist before voting for a node") dag
    | some (some status) =>
      .ok () (dag.setNode parent.round parent.author
        (status.addVotingPower votingPower updateLinkPower))

/-- `update_votes` (158): every parent of the node, as it is listed, receives the voting power of
the node's author. -/
def updateVotes (node : Node) (updateLinkPower : Bool) : DagM Unit := fun dag =>
  if node.round ≤ dag.lowestRound then .ok () dag
  else
    match dag.epochState.verifier.getVotingPower node.author with
    | none => .error (.panic "must exist") dag
    | some votingPower => node.parentsMetadata.forM (addVote votingPower updateLinkPower) dag

/-- `add_validated_node` (99). -/
def addValidatedNode (node : CertifiedNode) : DagM Unit := fun dag =>
  if node.node.round < dag.lowestRound then .error (.error "dag was pruned") dag
  else
    match dag.getNodeRefMut node.node.round node.node.author with
    | none => .error (.panic "must be present") dag
    | some (some _) => .error (.error "race during insertion") dag
    | some none =>
      updateVotes node.node true
        (dag.setNode node.node.round node.node.author (.unordered node 0 0))

/-- `commit_callback` (400): the window moves forward and the rounds before it are pruned. -/
def commitCallback (commitRound : Nat) : InMemDag :=
  let newStartRound := commitRound - 3 * dag.windowSize
  if dag.startRound < newStartRound then
    { dag with
      startRound := newStartRound
      nodesByRound := dag.nodesByRound.retain (newStartRound ≤ ·) }
  else dag

/-- The node in a slot, whatever its status. -/
def nodeAt (round : Nat) (author : Author) : Option CertifiedNode :=
  (dag.getNodeRef round author).map (·.asNode)

variable {dag}

/-! ## The window and the nodes -/

theorem lowestRound_le_commitCallback (commitRound : Nat) :
    dag.lowestRound ≤ (dag.commitCallback commitRound).lowestRound := by
  simp only [commitCallback, lowestRound]
  split_ifs with h
  · exact h.le
  · exact le_rfl

theorem nodeAt_eq {round : Nat} {author : Author} : dag.nodeAt round author =
    if author ∈ dag.authors then
      ((dag.nodesByRound.get round).bind (·.get author)).map (·.asNode) else none := by
  cases hrow : dag.nodesByRound.get round <;> grind [nodeAt, getNodeRef, getNodeRefMut]

theorem nodeAt_setNode {round : Nat} {author : Author} (status : NodeStatus) (r : Nat)
    (a : Author) :
    (dag.setNode round author status).nodeAt r a =
      if r = round ∧ a = author ∧ author ∈ dag.authors then some status.asNode
      else dag.nodeAt r a := by
  cases hrow : dag.nodesByRound.get round <;>
    grind [nodeAt_eq, setNode, authors, Table.get_put, Table.get_nil]

/-- What votes leave as it is. -/
structure SameNodes (dag dag' : InMemDag) : Prop where
  startRound : dag'.startRound = dag.startRound
  nodes : dag'.nodeAt = dag.nodeAt

instance : IsPreorder InMemDag SameNodes where
  refl _ := ⟨rfl, rfl⟩
  trans _ _ _ h h' := ⟨h'.startRound.trans h.startRound, h'.nodes.trans h.nodes⟩

theorem addVote_moves (votingPower : Nat) (updateLinkPower : Bool) (parent : NodeMetadata) :
    Moves SameNodes (addVote votingPower updateLinkPower parent) := by
  intro dag
  unfold addVote
  split
  · exact refl_of SameNodes dag
  · exact refl_of SameNodes dag
  · rename_i status hplace
    have hnode : dag.nodeAt parent.round parent.author = some status.asNode := by
      simp [nodeAt, getNodeRef, hplace]
    have hsame : (status.addVotingPower votingPower updateLinkPower).asNode = status.asNode := by
      cases status <;> grind [NodeStatus.addVotingPower, NodeStatus.asNode]
    refine ⟨rfl, funext fun r => funext fun a => ?_⟩
    rw [finalState_ok, nodeAt_setNode, hsame]
    split_ifs with hslot
    · rw [hslot.1, hslot.2.1, hnode]
    · rfl

theorem updateVotes_moves (node : Node) (updateLinkPower : Bool) :
    Moves SameNodes (updateVotes node updateLinkPower) := by
  intro dag
  unfold updateVotes
  split_ifs
  · exact refl_of SameNodes dag
  · split
    · exact refl_of SameNodes dag
    · exact moves_forM (addVote_moves _ updateLinkPower) dag

variable {dag' : InMemDag}

theorem validateNewNode_sameNodes {node : CertifiedNode} (h : dag.validateNewNode node = .ok dag') :
    SameNodes dag dag' := by
  simp only [validateNewNode, except_seq_ok_iff, ensure_ok_iff, except_pure_ok_iff] at h
  obtain ⟨-, -, -, -, -, -, rfl⟩ := h
  refine ⟨rfl, funext fun r => funext fun a => ?_⟩
  cases hrow : dag.nodesByRound.get node.node.round <;>
    grind [nodeAt_eq, authors, Table.get_put, Table.get_nil]

/-- The node is written or nothing is, whatever becomes of its votes. -/
theorem addValidatedNode_cases (dag : InMemDag) (node : CertifiedNode) :
    finalState (addValidatedNode node dag) = dag ∨ dag.lowestRound ≤ node.node.round ∧
      SameNodes (dag.setNode node.node.round node.node.author (.unordered node 0 0))
        (finalState (addValidatedNode node dag)) := by
  unfold addValidatedNode
  split_ifs with hlow
  · exact .inl rfl
  · split
    · exact .inl rfl
    · exact .inl rfl
    · exact .inr ⟨not_lt.mp hlow, updateVotes_moves _ _ _⟩

theorem addValidatedNode_startRound (dag : InMemDag) (node : CertifiedNode) :
    (finalState (addValidatedNode node dag)).startRound = dag.startRound := by
  rcases addValidatedNode_cases dag node with hsame | ⟨-, hsame⟩
  · rw [hsame]
  · exact hsame.startRound

end InMemDag

end Liquent.Dag
