import Mathlib.Logic.Relation
import Mathlib.Data.Set.Basic

/-!
# The two-chain commit rule with order votes

An abstract account of a chained consensus protocol in rounds.  Honest nodes vote for blocks, time
out of rounds and give order votes; what they did is described by three relations.  `Rules` lists
the local rules that an honest node follows and what certificates guarantee.  A block is committed
when a quorum of honest nodes gave it an order vote, or when a certified child sits in the next
round (`Committed`).  The result is agreement: committed blocks lie on one chain.

Nothing here depends on how nodes, blocks or quorums are represented.
-/

namespace Liquent.Misc

/-- What the honest nodes of a protocol in rounds did, and how blocks are linked. `justify b` is the
round of the certificate that `b` carries for its parent; `timedOut n r q` says that `n` gave up
round `r` reporting `q` as the highest round it saw certified. -/
structure TwoChain (Node Block : Type) where
  round : Block → Nat
  justify : Block → Nat
  parent : Block → Block → Prop
  honest : Node → Prop
  quorum : Set Node → Prop
  voted : Node → Block → Prop
  timedOut : Node → Nat → Nat → Prop
  ordered : Node → Block → Prop

namespace TwoChain

variable {Node Block : Type}

/-- Every honest node of some quorum has the property. -/
def ByQuorum (T : TwoChain Node Block) (p : Node → Prop) : Prop :=
  ∃ Q, T.quorum Q ∧ ∀ n ∈ Q, T.honest n → p n

/-- The block was voted for by a quorum. -/
def Certified (T : TwoChain Node Block) (b : Block) : Prop :=
  T.ByQuorum fun n => T.voted n b

/-- Round `r` was given up by a quorum that saw no certified round above `hqc`. -/
def TimeoutCertified (T : TwoChain Node Block) (r hqc : Nat) : Prop :=
  T.ByQuorum fun n => ∃ q, q ≤ hqc ∧ T.timedOut n r q

/-- The rules of honest nodes. -/
structure Rules (T : TwoChain Node Block) : Prop where
  /-- Any two quorums share an honest node. -/
  quorum_inter : ∀ {Q Q'}, T.quorum Q → T.quorum Q' → ∃ n, T.honest n ∧ n ∈ Q ∧ n ∈ Q'
  /-- The certificate that a block carries is for an earlier round. -/
  justify_lt : ∀ {n b}, T.honest n → T.voted n b → T.justify b < T.round b
  /-- One vote in a round. -/
  vote_unique : ∀ {n b b'}, T.honest n → T.voted n b → T.voted n b' → T.round b = T.round b' →
    b = b'
  /-- After a vote, a node that gives up its round or a later one reports at least the certified
  round it voted on. -/
  vote_timeout : ∀ {n b r q}, T.honest n → T.voted n b → T.timedOut n r q → T.round b ≤ r →
    T.justify b ≤ q
  /-- A node that gave an order vote reports at least that round, whenever it gives up its round or
  a later one. -/
  order_timeout : ∀ {n b r q}, T.honest n → T.ordered n b → T.timedOut n r q → T.round b ≤ r →
    T.round b ≤ q
  /-- The voting rule: the block follows its parent's round directly, or a round that a quorum gave
  up without having seen a certified round above the parent's. -/
  vote_rule : ∀ {n b}, T.honest n → T.voted n b → T.round b = T.justify b + 1 ∨
    ∃ r hqc, T.TimeoutCertified r hqc ∧ T.round b = r + 1 ∧ hqc ≤ T.justify b
  /-- The parent of a block is certified, the root of the chain (round zero) apart. -/
  parent_certified : ∀ {n b}, T.honest n → T.voted n b → 0 < T.justify b →
    ∃ p, T.parent p b ∧ T.round p = T.justify b ∧ T.Certified p

/-- A block is committed by order votes, or by a certified child in the next round. -/
def Committed (T : TwoChain Node Block) (b : Block) : Prop :=
  T.Certified b ∧ ((T.ByQuorum fun n => T.ordered n b) ∨
    ∃ c, T.Certified c ∧ T.parent b c ∧ T.justify c = T.round b ∧ T.round c = T.round b + 1)

/-- `a` is `b` or one of its ancestors. -/
def Ancestor (T : TwoChain Node Block) : Block → Block → Prop :=
  Relation.ReflTransGen T.parent

variable {T : TwoChain Node Block} {b c : Block}

theorem ByQuorum.mono {p q : Node → Prop} (h : T.ByQuorum p)
    (hpq : ∀ n, T.honest n → p n → q n) : T.ByQuorum q := by
  obtain ⟨Q, hQ, hp⟩ := h
  exact ⟨Q, hQ, fun n hmem hn => hpq n hn (hp n hmem hn)⟩

theorem Rules.exists_common (hT : T.Rules) {p q : Node → Prop} (hp : T.ByQuorum p)
    (hq : T.ByQuorum q) : ∃ n, T.honest n ∧ p n ∧ q n := by
  obtain ⟨Q, hQ, hp⟩ := hp
  obtain ⟨Q', hQ', hq⟩ := hq
  obtain ⟨n, hn, hmem, hmem'⟩ := hT.quorum_inter hQ hQ'
  exact ⟨n, hn, hp n hmem hn, hq n hmem' hn⟩

theorem Rules.exists_voter (hT : T.Rules) (h : T.Certified b) : ∃ n, T.honest n ∧ T.voted n b := by
  obtain ⟨n, hn, hvote, -⟩ := hT.exists_common h h
  exact ⟨n, hn, hvote⟩

/-- At most one block is certified in a round. -/
theorem Rules.certified_unique (hT : T.Rules) (hb : T.Certified b) (hc : T.Certified c)
    (hround : T.round b = T.round c) : b = c := by
  obtain ⟨n, hn, hvb, hvc⟩ := hT.exists_common hb hc
  exact hT.vote_unique hn hvb hvc hround

variable (hT : T.Rules) (hb : T.Committed b)

include hT hb

/-- A round above a committed block's is only given up by a quorum that saw the committed block's
round certified. -/
theorem Rules.committed_le_hqc {r hqc : Nat}
    (htc : T.TimeoutCertified r hqc) (hr : T.round b < r) : T.round b ≤ hqc := by
  obtain ⟨-, hordered | ⟨c, hc, -, hjustify, hround⟩⟩ := hb
  · obtain ⟨n, hn, hord, q, hq, htimeout⟩ := hT.exists_common hordered htc
    exact Nat.le_trans (hT.order_timeout hn hord htimeout (Nat.le_of_lt hr)) hq
  · obtain ⟨n, hn, hvote, q, hq, htimeout⟩ := hT.exists_common hc htc
    have hle := hT.vote_timeout hn hvote htimeout (by omega)
    omega

/-- A certified block above a committed one carries a certificate at least as high. In the next
round this rests on the commit: after order votes that round is not given up in ignorance, and after
a certified child there is no other certified block. -/
theorem Rules.committed_le_justify (hc : T.Certified c)
    (hround : T.round b < T.round c) : T.round b ≤ T.justify c := by
  obtain ⟨n, hn, hvote⟩ := hT.exists_voter hc
  rcases hT.vote_rule hn hvote with hdirect | ⟨r, hqc, htc, hr, hle⟩
  · omega
  by_cases hlater : T.round b < r
  · exact Nat.le_trans (hT.committed_le_hqc hb htc hlater) hle
  -- the block was proposed in the very next round
  have hnext : r = T.round b := by omega
  obtain ⟨-, hordered | ⟨c', hc', -, hjustify, hround'⟩⟩ := hb
  · obtain ⟨n', hn', hord, q, hq, htimeout⟩ := hT.exists_common hordered htc
    have := hT.order_timeout hn' hord htimeout (by omega)
    omega
  · have hsame : c = c' := hT.certified_unique hc hc' (by omega)
    rw [hsame, hjustify]

/-- Every certified block above a committed one descends from it. -/
theorem Rules.committed_ancestor (hpos : 0 < T.round b) :
    ∀ c, T.Certified c → T.round b < T.round c → T.Ancestor b c := by
  -- induction on the round: the parent is certified in a smaller round
  suffices h : ∀ k c, T.round c = k → T.Certified c → T.round b < T.round c → T.Ancestor b c from
    fun c => h _ c rfl
  intro k
  induction k using Nat.strong_induction_on with
  | _ k ih =>
    intro c hk hc hround
    obtain ⟨n, hn, hvote⟩ := hT.exists_voter hc
    have hjustify := hT.committed_le_justify hb hc hround
    obtain ⟨p, hparent, hpround, hp⟩ := hT.parent_certified hn hvote (by omega)
    have hstep : T.Ancestor p c := Relation.ReflTransGen.single hparent
    by_cases hsame : T.round p = T.round b
    · rw [hT.certified_unique hb.1 hp hsame.symm]
      exact hstep
    · have hlt : T.round p < T.round c := hpround ▸ hT.justify_lt hn hvote
      exact (ih _ (hk ▸ hlt) p rfl hp (by omega)).trans hstep

/-- Agreement: of two committed blocks, one is an ancestor of the other or they are the same. -/
theorem Rules.agreement (hc : T.Committed c)
    (hbpos : 0 < T.round b) (hcpos : 0 < T.round c) : T.Ancestor b c ∨ T.Ancestor c b := by
  rcases Nat.lt_trichotomy (T.round b) (T.round c) with hlt | heq | hgt
  · exact .inl (hT.committed_ancestor hb hbpos c hc.1 hlt)
  · rw [hT.certified_unique hb.1 hc.1 heq]
    exact .inl Relation.ReflTransGen.refl
  · exact .inr (hT.committed_ancestor hc hcpos b hb.1 hgt)

end TwoChain

end Liquent.Misc
