import Liquent.Dag.VoteOnce

/-!
# The DAG has no holes

In whatever order nodes are checked, inserted and voted for while the window moves, a node above the
first round of the window has its parents in the DAG.  `add_node` checks a node and inserts it in
another section; parents that were there at the check are still there, or the window has moved.
-/

namespace Liquent.Dag

open Misc

/-- The parents of a node that passes `Node::verify` are of the round before. -/
theorem Node.round_of_verify [DagApi] {n : Node} {sender : Author} {v : ValidatorVerifier}
    (h : n.verify sender v = .ok ()) {parent : NodeMetadata}
    (hparent : parent ∈ n.parentsMetadata) :
    parent.round + 1 = n.round := by
  obtain ⟨cert, hcert, rfl⟩ := List.mem_map.mp hparent
  simp only [verify, except_seq_ok_iff, ensure_ok_iff] at h
  obtain ⟨-, -, hpos, hrest⟩ := h
  split_ifs at hrest with hone
  · simp [List.isEmpty_iff.mp (ensure_ok_iff.mp hrest)] at hcert
  · have hround := (except_seq_ok_iff.mp hrest).1
    rw [ensure_ok_iff] at hround
    have hprevious := hround cert hcert
    omega

namespace InMemDag

variable {dag dag' : InMemDag} {n : CertifiedNode} {known : List CertifiedNode}

/-- The parents are of the round before, and in the DAG if the node is above the first round of the
window. -/
def Linked (dag : InMemDag) (n : CertifiedNode) : Prop :=
  ∀ parent ∈ n.node.parentsMetadata, parent.round + 1 = n.node.round ∧
    (dag.lowestRound < n.node.round → dag.nodeAt parent.round parent.author ≠ none)

/-- Nodes are in the window, in their own slots, and linked. -/
def NoHoles (dag : InMemDag) : Prop :=
  ∀ r a n, dag.nodeAt r a = some n →
    n.node.round = r ∧ n.node.author = a ∧ dag.lowestRound ≤ r ∧ dag.Linked n

/-- The window moves forward, the nodes in it stay, and new ones are among `known`. -/
structure Extends (known : List CertifiedNode) (dag dag' : InMemDag) : Prop where
  window : dag.lowestRound ≤ dag'.lowestRound
  kept : ∀ r a, dag'.lowestRound ≤ r → dag.nodeAt r a ≠ none → dag'.nodeAt r a ≠ none
  nodes : ∀ r a n, dag'.nodeAt r a = some n →
    (dag.nodeAt r a = some n ∧ (dag.lowestRound ≤ r → dag'.lowestRound ≤ r)) ∨
      (n ∈ known ∧ n.node.round = r ∧ n.node.author = a ∧ dag'.lowestRound ≤ r)

/-- Parents that the window has not left are still there. -/
theorem Extends.linked (h : Extends known dag dag') (hn : dag.Linked n) : dag'.Linked n := by
  intro parent hparent
  obtain ⟨hround, hexists⟩ := hn parent hparent
  refine ⟨hround, fun hlow => h.kept _ _ (by omega) (hexists (h.window.trans_lt hlow))⟩

theorem NoHoles.extends (h : dag.NoHoles) (hknown : ∀ n ∈ known, dag.Linked n)
    (hext : Extends known dag dag') : dag'.NoHoles := by
  intro r a n hn
  rcases hext.nodes r a n hn with ⟨hold, hwindow⟩ | ⟨hmem, hround, hauthor, hlow⟩
  · obtain ⟨hround, hauthor, hlow, hlinked⟩ := h r a n hold
    exact ⟨hround, hauthor, hwindow hlow, hext.linked hlinked⟩
  · exact ⟨hround, hauthor, hlow, hext.linked (hknown n hmem)⟩

theorem SameNodes.extends (h : SameNodes dag dag') : Extends known dag dag' where
  window := h.startRound.ge
  kept r a _ hnode := by rwa [h.nodes]
  nodes r a n hn := .inl ⟨h.nodes ▸ hn, fun hlow => h.startRound.trans_le hlow⟩

theorem extends_addValidatedNode (hn : n ∈ known) :
    Extends known dag (finalState (addValidatedNode n dag)) := by
  rcases addValidatedNode_cases dag n with hsame | ⟨hlow, hsame⟩
  · rw [hsame]
    exact (refl_of SameNodes dag).extends
  · have hwindow := addValidatedNode_startRound dag n
    generalize finalState (addValidatedNode n dag) = dag' at hsame hwindow
    refine ⟨hwindow.ge, fun r a _ hnode => ?_, fun r a n' hn' => ?_⟩
    · rw [hsame.nodes, nodeAt_setNode]
      split_ifs
      · simp
      · exact hnode
    · rw [hsame.nodes, nodeAt_setNode] at hn'
      split_ifs at hn' with hslot
      · obtain rfl := Option.some.inj hn'
        exact .inr ⟨hn, hslot.1.symm, hslot.2.1.symm, hslot.1 ▸ hwindow.trans_le hlow⟩
      · exact .inl ⟨hn', fun hr => hwindow.trans_le hr⟩

theorem extends_commitCallback (commitRound : Nat) :
    Extends known dag (dag.commitCallback commitRound) := by
  simp only [commitCallback]
  generalize commitRound - 3 * dag.windowSize = start
  split_ifs with hstart
  · have hnodes : ∀ r a, nodeAt { dag with
        startRound := start
        nodesByRound := dag.nodesByRound.retain (start ≤ ·) } r a =
          if start ≤ r then dag.nodeAt r a else none := by
      intro r a
      simp only [nodeAt_eq, authors, Table.get_retain]
      split_ifs <;> simp_all
    refine ⟨hstart.le, fun r a hr hnode => ?_, fun r a n hn => ?_⟩
    · have hin : start ≤ r := hr
      rwa [hnodes, if_pos hin]
    · rw [hnodes] at hn
      split_ifs at hn with hr
      exact .inl ⟨hn, fun _ => hr⟩
  · exact (refl_of SameNodes dag).extends

theorem linked_of_validate [DagApi] (h : dag.validateNewNode n = .ok dag')
    (hverify : ∃ sender v, n.node.verify sender v = .ok ()) : dag.Linked n := by
  obtain ⟨sender, v, hverify⟩ := hverify
  simp only [validateNewNode, except_seq_ok_iff, ensure_ok_iff] at h
  intro parent hparent
  refine ⟨Node.round_of_verify hverify hparent, fun hlow => ?_⟩
  obtain ⟨cert, hcert, rfl⟩ := List.mem_map.mp hparent
  have hexists := h.2.2.2.2.1 hlow cert hcert
  obtain ⟨status, hstatus⟩ := Option.isSome_iff_exists.mp hexists
  simp [nodeAt, hstatus]

end InMemDag

namespace NodeBroadcastHandler

open InMemDag

section

variable [DagApi] {known : List CertifiedNode}

/-- The nodes that have passed the check of `add_node`. -/
def checked (h : NodeBroadcastHandler) : Section → List CertifiedNode
  | .validateNewNode node => if (h.dag.validateNewNode node).isOk then [node] else []
  | _ => []

/-- A node to be checked has passed `Node::verify` at a voter, and one to be inserted the check. -/
def AddsChecked (known : List CertifiedNode) : Section → Prop
  | .validateNewNode node => ∃ sender v, node.node.verify sender v = .ok ()
  | .addValidatedNode node => node ∈ known
  | .restart _ => False
  | _ => True

theorem continueFrom_dag (h : NodeBroadcastHandler) (call : Nat) (node : Node) (storageOk : Bool)
    (stage : ProcessStage) :
    SameNodes h.dag (h.continueFrom call node storageOk stage).2.dag := by
  have hsame := refl_of SameNodes h.dag
  cases stage with
  | locked | validated | stored =>
    simp only [continueFrom]
    split <;> exact hsame
  | unanswered =>
    simp only [continueFrom]
    split
    · exact hsame
    · split <;> exact hsame
  | inserted vote =>
    have hvotes := updateVotes_moves node false h.dag
    simp only [continueFrom]
    split
    all_goals
      rename_i heq
      rwa [heq] at hvotes

/-- A section extends the DAG by nodes that were checked. -/
theorem extends_step {h : NodeBroadcastHandler} {i : Section} (hi : AddsChecked known i) :
    Extends known h.dag (h.step i).2.dag := by
  have hsame : Extends known h.dag h.dag := (refl_of SameNodes h.dag).extends
  cases i with
  | commitCallback commitRound => exact extends_commitCallback commitRound
  | addValidatedNode node => exact extends_addValidatedNode hi
  | restart dag => exact hi.elim
  | validateNewNode node =>
    simp only [step]
    split
    · rename_i hvalid
      exact (validateNewNode_sameNodes hvalid).extends
    · exact hsame
  | process call node stopVoting =>
    simp only [step, start]
    split_ifs <;> exact hsame
  | gc call =>
    simp only [step]
    split_ifs <;> exact hsame
  | resumeGc call storageOk =>
    simp only [step]
    split
    · exact hsame
    · rename_i stage _
      cases stage <;> exact hsame
  | resume call storageOk =>
    simp only [step]
    split
    · exact hsame
    · exact (continueFrom_dag ..).extends

end

/-- A node of round 11 over one of round 10. -/
def child : CertifiedNode :=
  ⟨⟨⟨⟨1, 11, 7⟩, 0, 1⟩, [], .directMempool [], [⟨(LateGc.node 0).metadata, ⟨[], none⟩⟩]⟩,
    ⟨[], none⟩⟩

def twoNodes : List Section :=
  [⟨LateGc.node 0, ⟨[], none⟩⟩, child].flatMap fun n => [.validateNewNode n, .addValidatedNode n]

end NodeBroadcastHandler

end Liquent.Dag
