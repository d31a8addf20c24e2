import Liquent.Misc.TwoChain
import Liquent.SafetyRules.Network

/-!
# Agreement

The validators of an epoch, whatever the adversary does with messages and with less than a third of
the voting power, commit blocks of one chain only.  The run of the network is shown to be a run of
the abstract two-chain protocol (`Network.chain`, `Network.Sound.rules`): votes, timeouts and order
votes are those of the validators' histories, and certificates that pass the checks of the code are
certificates of the protocol.
-/

namespace Liquent.SafetyRules

open Misc

variable {net : Network} {li : LedgerInfo}

section Chain

variable [Crypto]

/-- What the honest validators did, as a run of the abstract protocol. -/
def Network.chain (E : EpochSetup) (net : Network) : TwoChain Author BlockData where
  round := BlockData.round
  justify b := b.quorumCert.certifiedBlock.round
  parent p b := b.parentId = p.hash
  honest := E.Honest
  quorum Q := ∃ S : Finset Author, E.verifier.IsQuorum S ∧ Q = ↑S
  voted a b := ∃ v ∈ votes (net.history a), v.voteData.proposed.id = b.hash
  timedOut a r q := ∃ e ∈ net.history a, ∃ t, timedOutIn e = some t ∧ t.round = r ∧ t.hqcRound = q
  ordered a b := ∃ e ∈ net.history a, ∃ p o, orderedIn e = some (p, o) ∧
    p.block.blockData = b ∧ p.blockInfo.round = b.round

/-! ## From signatures to votes -/

variable {a : Author}

omit [Crypto] in
/-- A signed ledger info is that of a vote or of an order vote. -/
theorem Network.Signed.ledgerInfo (h : net.Signed a (.ledgerInfo li)) :
    (∃ v ∈ votes (net.history a), v.ledgerInfo = li) ∨
      ∃ e ∈ net.history a, ∃ p o, orderedIn e = some (p, o) ∧ o.ledgerInfo = li := by
  obtain ⟨e, he, hout⟩ := h
  obtain ⟨⟨faults, call⟩, response⟩ := e
  cases response with
  | vote v =>
    cases hout
    exact .inl ⟨v, List.mem_filterMap.mpr ⟨_, he, rfl⟩, rfl⟩
  | orderVote o =>
    cases call with
    | constructAndSignOrderVote p =>
      cases hout
      exact .inr ⟨_, he, p, o, rfl, rfl⟩
    | _ => cases hout
  | signature sig => cases call <;> cases hout
  | _ => cases hout

variable {m : TimeoutSigningRepr}

omit [Crypto] in
theorem Network.Signed.timeout (h : net.Signed a (.timeout m)) :
    ∃ e ∈ net.history a, ∃ t, timedOutIn e = some t ∧ t.signingFormat = m := by
  obtain ⟨e, he, hout⟩ := h
  obtain ⟨⟨faults, call⟩, response⟩ := e
  cases response with
  | signature sig =>
    cases call with
    | signTimeoutWithQc timeout maybeTc =>
      cases hout
      exact ⟨_, he, timeout, rfl, rfl⟩
    | _ => cases hout
  | orderVote o => cases call <;> cases hout
  | _ => cases hout

section Assumptions

variable {E : EpochSetup} {net : Network} (hsound : net.Sound E) (hcollision : CollisionFree)
  (hsignatures : QuorumSignatures E.verifier) {b : BlockData}

include hsound hcollision in
theorem Network.Sound.voted (ha : E.Honest a)
    (h : (net.chain E).voted a b) : ∃ proposal maybeTc v, v ∈ votes (net.history a) ∧
      VoteRecord E net proposal maybeTc v ∧ proposal.block.blockData = b := by
  obtain ⟨v, hv, hid⟩ := h
  obtain ⟨proposal, maybeTc, hrecord⟩ := (hsound a ha).vote v hv
  refine ⟨proposal, maybeTc, v, hv, hrecord, hcollision.blockData ?_⟩
  rw [hrecord.voteData_eq] at hid
  exact hid

include hsound hcollision in
/-- Of the ledger infos that honest validators sign, those with the hash of some vote data belong to
votes for it. -/
theorem Network.Sound.vote_of_signed {d : VoteData}
    (ha : E.Honest a) (h : net.Signed a (.ledgerInfo li)) (hhash : li.consensusDataHash = d.hash) :
    ∃ v ∈ votes (net.history a), v.ledgerInfo = li ∧ v.voteData = d := by
  rcases h.ledgerInfo with ⟨v, hv, rfl⟩ | ⟨e, he, p, o, hp, rfl⟩
  · obtain ⟨proposal, maybeTc, hrecord⟩ := (hsound a ha).vote v hv
    refine ⟨v, hv, rfl, hrecord.voteData_eq.trans (hcollision.voteData ?_)⟩
    rw [hrecord.ledgerInfo_eq] at hhash
    exact hhash
  · -- an order vote has the zero hash
    rw [((hsound a ha).order e he p o hp).ledgerInfo_eq] at hhash
    exact absurd hhash.symm (hcollision.voteData_ne_zero d)

variable {li : LedgerInfoWithSignatures}

include hsignatures in
theorem Genuine.byQuorum (h : Genuine E net li)
    (hverify : li.verifySignatures E.verifier = .ok ()) :
    (net.chain E).ByQuorum fun a => net.Signed a (.ledgerInfo li.ledgerInfo) := by
  refine ⟨_, ⟨_, hsignatures.multi hverify, rfl⟩, fun a ha hhonest => ?_⟩
  exact h hverify a (List.mem_toFinset.mp ha) hhonest

variable (hbyzantine : 3 * E.verifier.powerOf E.byzantine < E.verifier.totalVotingPower)

include hbyzantine in
theorem quorum_inter {Q Q' : Set Author} (h : (net.chain E).quorum Q)
    (h' : (net.chain E).quorum Q') : ∃ a, (net.chain E).honest a ∧ a ∈ Q ∧ a ∈ Q' := by
  obtain ⟨S, hS, rfl⟩ := h
  obtain ⟨S', hS', rfl⟩ := h'
  have hweight : 3 * weightOf E.verifier.power E.byzantine <
      weightOf E.verifier.power E.verifier.members := hbyzantine
  obtain ⟨a, ha, ha', hfaulty⟩ := Misc.IsQuorum.exists_common hweight hS hS'
  exact ⟨a, ⟨hS.1 ha, hfaulty⟩, ha, ha'⟩

include hsound hcollision hsignatures hbyzantine in
/-- A verified certificate above round zero certifies the block whose identifier and round it names.
-/
theorem Network.Sound.certified {qc : QuorumCert} (hverify : qc.verify E.verifier = .ok ())
    (hgenuine : Genuine E net qc.ledgerInfo) (hround : 0 < qc.certifiedBlock.round) :
    ∃ b, qc.certifiedBlock.id = b.hash ∧ b.round = qc.certifiedBlock.round ∧
      (net.chain E).Certified b := by
  have hsigned := QuorumCert.signed_of_verify hverify (Nat.ne_of_gt hround)
  have hvotes := (hgenuine.byQuorum hsignatures hsigned.signatures).mono fun a ha h =>
    hsound.vote_of_signed hcollision ha h hsigned.hash_eq
  obtain ⟨Q, hQ, hmem⟩ := hvotes
  obtain ⟨a, ha, haQ, -⟩ := quorum_inter hbyzantine hQ hQ
  obtain ⟨v, hv, -, hdata⟩ := hmem a haQ ha
  obtain ⟨proposal, maybeTc, hrecord⟩ := (hsound a ha).vote v hv
  have hproposed : qc.voteData = voteDataOf proposal := hdata.symm.trans hrecord.voteData_eq
  refine ⟨proposal.block.blockData, ?_, ?_, Q, hQ, fun a' ha'Q ha' => ?_⟩
  · rw [QuorumCert.certifiedBlock, hproposed]
    rfl
  · rw [QuorumCert.certifiedBlock, hproposed]
    rfl
  · obtain ⟨v', hv', -, hdata'⟩ := hmem a' ha'Q ha'
    refine ⟨v', hv', ?_⟩
    rw [hdata', hproposed]
    rfl

variable {tc : TwoChainTimeoutCertificate}

omit [Crypto] in
/-- A message carries the certificate's round and one of its recorded rounds. -/
theorem mem_timeoutMessages {v : ValidatorVerifier} (h : m ∈ tc.timeoutMessages v) :
    m.round = tc.round ∧ m.hqcRound ∈ tc.signaturesWithRounds.rounds := by
  obtain ⟨⟨a, r⟩, hmem, rfl⟩ := List.mem_map.mp h
  exact ⟨rfl, (List.of_mem_zip hmem).2⟩

include hsignatures in
/-- A verified timeout certificate stands for a round given up by a quorum. -/
theorem timeoutCertified (hverify : tc.verify E.verifier = .ok ()) (hgenuine : GenuineTc E net tc) :
    (net.chain E).TimeoutCertified tc.round tc.highestHqcRound := by
  have hsigned := TwoChainTimeoutCertificate.signed_of_verify hverify
  obtain ⟨hquorum, hlength⟩ := hsignatures.aggregate hsigned.signatures
  refine ⟨_, ⟨_, hquorum, rfl⟩, fun a ha hhonest => ?_⟩
  -- the message at the signer's place in the certificate
  obtain ⟨i, hi, rfl⟩ := List.getElem_of_mem (List.mem_toFinset.mp ha)
  rw [List.length_map] at hlength
  have hi' : i < (tc.timeoutMessages E.verifier).length := hlength ▸ hi
  have hzip := List.getElem_mem (l := (E.verifier.signersOf tc.signaturesWithRounds.sig).zip
    (tc.timeoutMessages E.verifier)) (n := i) (by simp [hi, hi'])
  rw [List.getElem_zip] at hzip
  obtain ⟨hround, hrounds⟩ := mem_timeoutMessages (List.of_mem_zip hzip).2
  obtain ⟨e, he, t, ht, hformat⟩ := (hgenuine hsigned.signatures _ _ hzip hhonest).timeout
  have hle := (List.max?_eq_some_iff.mp hsigned.max_rounds).2 _ hrounds
  rw [← hformat] at hround hle
  exact ⟨t.hqcRound, hle, e, he, t, ht, hround, rfl⟩

include hsound hcollision hsignatures hbyzantine in
/-- The honest validators follow the rules of the two-chain protocol. -/
theorem Network.Sound.rules : (net.chain E).Rules where
  quorum_inter := quorum_inter hbyzantine
  justify_lt := by
    intro a b ha hb
    obtain ⟨proposal, maybeTc, v, -, hrecord, rfl⟩ := hsound.voted hcollision ha hb
    exact hrecord.accepted.parent_round_lt
  vote_unique := by
    intro a b b' ha hb hb' hround
    obtain ⟨proposal, maybeTc, v, hv, hrecord, rfl⟩ := hsound.voted hcollision ha hb
    obtain ⟨proposal', maybeTc', v', hv', hrecord', rfl⟩ := hsound.voted hcollision ha hb'
    have hepoch : v.epoch = v'.epoch := by
      rw [Vote.epoch, Vote.epoch, hrecord.voteData_eq, hrecord'.voteData_eq]
      exact hrecord.epoch_eq.trans hrecord'.epoch_eq.symm
    have hsame : v.round = v'.round := by
      rw [Vote.round, Vote.round, hrecord.voteData_eq, hrecord'.voteData_eq]
      exact hround
    have hvote := (hsound a ha).past.unique v hv v' hv' hepoch hsame
    have hdata : voteDataOf proposal = voteDataOf proposal' := by
      rw [← hrecord.voteData_eq, ← hrecord'.voteData_eq, hvote]
    exact hcollision.blockData (congrArg (·.proposed.id) hdata)
  vote_timeout := by
    rintro a b r q ha hb ⟨e, he, t, ht, hr, hq⟩ hround
    obtain ⟨proposal, maybeTc, v, hv, hrecord, rfl⟩ := hsound.voted hcollision ha hb
    have hle := (hsound a ha).localSound.vote_timeout v hv e he t ht
    rw [Vote.round, hrecord.voteData_eq] at hle
    rw [← hq]
    exact hle (hr ▸ hround)
  order_timeout := by
    rintro a b r q ha ⟨x, hx, p, o, hp, hb, hb'⟩ ⟨e, he, t, ht, hr, hq⟩ hround
    have hle := (hsound a ha).localSound.order_timeout x hx p o hp e he t ht
    rw [hb', hq] at hle
    refine hle ?_
    rw [hr, Block.round, hb]
    exact hround
  vote_rule := by
    intro a b ha hb
    obtain ⟨proposal, maybeTc, v, hv, hrecord, rfl⟩ := hsound.voted hcollision ha hb
    rcases hrecord.rule with hdirect | ⟨hround, hhqc⟩
    · exact .inl hdirect
    · cases maybeTc with
      | none =>
        -- without a timeout certificate the block is in round one, over the genesis
        have hlt := hrecord.accepted.parent_round_lt
        have hone : proposal.block.round = 0 + 1 := hround
        left
        change proposal.block.round = proposal.block.quorumCert.certifiedBlock.round + 1
        omega
      | some tc =>
        obtain ⟨hverify, hgenuine⟩ := hrecord.tc tc rfl
        exact .inr ⟨_, _, timeoutCertified hsignatures hverify hgenuine, hround, hhqc⟩
  parent_certified := by
    intro a b ha hb hpos
    obtain ⟨proposal, maybeTc, v, hv, hrecord, rfl⟩ := hsound.voted hcollision ha hb
    obtain ⟨p, hid, hround, hcertified⟩ := hsound.certified hcollision hsignatures hbyzantine
      hrecord.accepted.quorumCert hrecord.genuine hpos
    exact ⟨p, hrecord.accepted.parentId_eq.trans hid, hround, hcertified⟩

/-! ## Commits -/

/-- `p` is `b` or one of its ancestors: the parent of a block is the one whose hash it names. -/
def Ancestor : BlockData → BlockData → Prop :=
  Relation.ReflTransGen fun p b => b.parentId = p.hash

/-- The ledger info carries a quorum of signatures and commits the block; of round zero it commits
at most the genesis, since `BlockStore` acts on rounds after its root's only. -/
structure Commits (E : EpochSetup) (net : Network) (li : LedgerInfoWithSignatures)
    (b : BlockData) : Prop where
  signatures : li.verifySignatures E.verifier = .ok ()
  genuine : Genuine E net li
  epoch_eq : li.ledgerInfo.commitInfo.epoch = E.epoch
  nonempty : li.ledgerInfo.commitInfo ≠ BlockInfo.empty
  id_eq : li.ledgerInfo.commitInfo.id = b.hash
  round_zero : li.ledgerInfo.commitInfo.round = 0 → b.round = 0

variable {genesis : BlockData}

theorem InTree.ancestor (h : InTree genesis b) : Ancestor genesis b := by
  induction h with
  | root => exact Relation.ReflTransGen.refl
  | insert _ hparent _ ih => exact ih.tail hparent

theorem InTree.eq_genesis (h : InTree genesis b) (hround : b.round ≤ genesis.round) :
    b = genesis := by
  cases h with
  | root => rfl
  | insert _ _ hgt => omega

theorem InTree.of_parent (hcollision : CollisionFree) {p : BlockData}
    (h : InTree genesis b) (hgt : genesis.round < b.round) (hparent : b.parentId = p.hash) :
    InTree genesis p := by
  cases h with
  | root => omega
  | insert hmem hparent' =>
    cases hcollision.blockData (hparent'.symm.trans hparent)
    exact hmem

omit [Crypto] in
theorem commitInfoOf_of_ne_empty {block : Block} (h : commitInfoOf block ≠ BlockInfo.empty) :
    commitInfoOf block = block.quorumCert.certifiedBlock ∧
      block.quorumCert.certifiedBlock.round + 1 = block.round := by
  unfold commitInfoOf at h ⊢
  split
  · exact ⟨rfl, by assumption⟩
  · simp_all

include hsound hcollision hsignatures hbyzantine in
/-- A quorum of order votes commits the block in the sense of the protocol. -/
theorem Commits.of_order
    (h : Commits E net li b) (hhash : li.ledgerInfo.consensusDataHash = HashValue.zero) :
    0 < b.round ∧ (net.chain E).Committed b := by
  -- every honest signer gave an order vote
  have hordered : (net.chain E).ByQuorum fun a => ∃ e ∈ net.history a, ∃ p o,
      orderedIn e = some (p, o) ∧ OrderRecord E net p o ∧
        p.blockInfo = li.ledgerInfo.commitInfo ∧ p.block.blockData = b := by
    refine (h.genuine.byQuorum hsignatures h.signatures).mono fun a ha hsigned => ?_
    rcases hsigned.ledgerInfo with ⟨v, hv, hli⟩ | ⟨e, he, p, o, hp, hli⟩
    · obtain ⟨proposal, maybeTc, hrecord⟩ := (hsound a ha).vote v hv
      rw [← hli, hrecord.ledgerInfo_eq] at hhash
      exact absurd hhash (hcollision.voteData_ne_zero _)
    · have hrecord := (hsound a ha).order e he p o hp
      have hinfo : p.blockInfo = li.ledgerInfo.commitInfo := by
        rw [← hli, hrecord.ledgerInfo_eq]
        rfl
      refine ⟨e, he, p, o, hp, hrecord, hinfo, hcollision.blockData ?_⟩
      have hid := hrecord.id_eq
      rw [hrecord.certified_eq, hinfo, h.id_eq] at hid
      exact hid.symm
  obtain ⟨Q, hQ, hmem⟩ := hordered
  obtain ⟨a, ha, haQ, -⟩ := quorum_inter hbyzantine hQ hQ
  obtain ⟨e, -, p, o, -, hrecord, hinfo, hblock⟩ := hmem a haQ ha
  have hpos : 0 < b.round := by
    rw [← hblock]
    exact hrecord.round_pos
  have hcertround : 0 < p.quorumCert.certifiedBlock.round := by
    rw [hrecord.certified_eq, hinfo]
    refine Nat.pos_of_ne_zero fun hzero => ?_
    have := h.round_zero hzero
    omega
  obtain ⟨b', hid, hround, hcertified⟩ := hsound.certified hcollision hsignatures hbyzantine
    hrecord.qc_verify hrecord.genuine hcertround
  rw [hrecord.certified_eq, hinfo] at hid hround
  cases hcollision.blockData (h.id_eq.symm.trans hid)
  refine ⟨hpos, hcertified, .inl ⟨Q, hQ, fun a' ha'Q ha' => ?_⟩⟩
  obtain ⟨e', he', p', o', hp', -, hinfo', hblock'⟩ := hmem a' ha'Q ha'
  exact ⟨e', he', p', o', hp', hblock', by rw [hinfo', hround]⟩

include hsound hcollision hsignatures hbyzantine in
/-- A quorum of votes with a commit info commits the parent of the voted block, or the genesis. -/
theorem Commits.of_votes
    (h : Commits E net li b) (hhash : li.ledgerInfo.consensusDataHash ≠ HashValue.zero) :
    b = E.genesis ∨ (0 < b.round ∧ (net.chain E).Committed b) := by
  have hvotes : (net.chain E).ByQuorum fun a => ∃ v ∈ votes (net.history a), v.ledgerInfo =
      li.ledgerInfo ∧ ∃ proposal maybeTc, VoteRecord E net proposal maybeTc v := by
    refine (h.genuine.byQuorum hsignatures h.signatures).mono fun a ha hsigned => ?_
    rcases hsigned.ledgerInfo with ⟨v, hv, hli⟩ | ⟨e, he, p, o, hp, hli⟩
    · exact ⟨v, hv, hli, (hsound a ha).vote v hv⟩
    · rw [← hli, ((hsound a ha).order e he p o hp).ledgerInfo_eq] at hhash
      exact absurd rfl hhash
  obtain ⟨Q, hQ, hmem⟩ := hvotes
  obtain ⟨a, ha, haQ, -⟩ := quorum_inter hbyzantine hQ hQ
  obtain ⟨v, hv, hli, proposal, maybeTc, hrecord⟩ := hmem a haQ ha
  have hinfo : li.ledgerInfo.commitInfo = commitInfoOf proposal.block := by
    rw [← hli, hrecord.ledgerInfo_eq]
    rfl
  obtain ⟨hcommit, hnext⟩ := commitInfoOf_of_ne_empty (hinfo ▸ h.nonempty)
  have hparent : proposal.block.blockData.parentId = b.hash := by
    rw [← h.id_eq, hinfo, hcommit]
    exact hrecord.accepted.parentId_eq
  have hround : li.ledgerInfo.commitInfo.round =
    proposal.block.quorumCert.certifiedBlock.round := by
    rw [hinfo, hcommit]
  by_cases hzero : proposal.block.quorumCert.certifiedBlock.round = 0
  · left
    have hchild : E.genesis.round < proposal.block.blockData.round := by
      rw [E.genesis_round]
      exact Nat.lt_of_le_of_lt (Nat.zero_le _) hrecord.accepted.parent_round_lt
    refine (hrecord.inTree.of_parent hcollision hchild hparent).eq_genesis ?_
    rw [E.genesis_round, h.round_zero (hround.trans hzero)]
  · right
    obtain ⟨b', hid, hround', hcertified⟩ := hsound.certified hcollision hsignatures hbyzantine
      hrecord.accepted.quorumCert hrecord.genuine (Nat.pos_of_ne_zero hzero)
    have hb' : b' = b := by
      refine hcollision.blockData (hid.symm.trans ?_)
      rw [← hcommit, ← hinfo]
      exact h.id_eq
    subst hb'
    refine ⟨by omega, hcertified, .inr ⟨proposal.block.blockData, ⟨Q, hQ, ?_⟩, hparent, ?_, ?_⟩⟩
    · -- the signers agree on the hash of the vote data
      intro a' ha'Q ha'
      obtain ⟨v', hv', hli', -⟩ := hmem a' ha'Q ha'
      obtain ⟨proposal', maybeTc', hrecord'⟩ := (hsound a' ha').vote v' hv'
      have hdata : (voteDataOf proposal').hash = (voteDataOf proposal).hash := by
        have := congrArg LedgerInfo.consensusDataHash (hli'.trans hli.symm)
        rw [hrecord'.ledgerInfo_eq, hrecord.ledgerInfo_eq] at this
        exact this
      refine ⟨v', hv', ?_⟩
      rw [hrecord'.voteData_eq, hcollision.voteData hdata]
      rfl
    · exact hround'.symm
    · change proposal.block.round = b'.round + 1
      omega

include hsound hcollision hsignatures hbyzantine in
theorem Commits.committed (h : Commits E net li b) :
    b = E.genesis ∨ (0 < b.round ∧ (net.chain E).Committed b) := by
  by_cases hhash : li.ledgerInfo.consensusDataHash = HashValue.zero
  · exact .inr (h.of_order hsound hcollision hsignatures hbyzantine hhash)
  · exact h.of_votes hsound hcollision hsignatures hbyzantine hhash

include hsound hcollision hsignatures hbyzantine in
/-- Blocks committed in the sense of the protocol descend from the genesis. -/
theorem Network.Sound.genesis_ancestor (h : (net.chain E).Committed b) : Ancestor E.genesis b := by
  have hrules := hsound.rules hcollision hsignatures hbyzantine
  obtain ⟨a, ha, hvoted⟩ := hrules.exists_voter h.1
  obtain ⟨proposal, maybeTc, v, -, hrecord, rfl⟩ := hsound.voted hcollision ha hvoted
  exact hrecord.inTree.ancestor

/-- The certificate is accepted, above round zero, and names the block. -/
structure Certifies (E : EpochSetup) (net : Network) (qc : QuorumCert) (b : BlockData) : Prop where
  verify : qc.verify E.verifier = .ok ()
  genuine : Genuine E net qc.ledgerInfo
  round_pos : 0 < qc.certifiedBlock.round
  id_eq : qc.certifiedBlock.id = b.hash

include hcollision hsignatures hbyzantine in
/-- One block is certified in a round, and it extends what was committed up to that round. -/
theorem certified_on_one_branch [LedgerApi] (hreachable : net.Reachable E) {qc : QuorumCert}
    (h : Certifies E net qc b) :
    (∀ qc' b', Certifies E net qc' b' → b'.round = b.round → b' = b) ∧
      ∀ li c, Commits E net li c → c.round ≤ b.round → Ancestor c b := by
  have hsound := hreachable.sound
  have hrules := hsound.rules hcollision hsignatures hbyzantine
  have hcertified : ∀ qc b, Certifies E net qc b → (net.chain E).Certified b := by
    rintro qc b ⟨hverify, hgenuine, hpos, hid⟩
    obtain ⟨b', hid', -, hb'⟩ :=
      hsound.certified hcollision hsignatures hbyzantine hverify hgenuine hpos
    rwa [hcollision.blockData (hid.symm.trans hid')]
  have hb := hcertified qc b h
  refine ⟨fun qc' b' h' => hrules.certified_unique (hcertified qc' b' h') hb, ?_⟩
  intro li c hcommits hround
  rcases hcommits.committed hsound hcollision hsignatures hbyzantine with rfl | ⟨hpos, hc⟩
  · obtain ⟨a, ha, hvoted⟩ := hrules.exists_voter hb
    obtain ⟨proposal, maybeTc, v, -, hrecord, rfl⟩ := hsound.voted hcollision ha hvoted
    exact hrecord.inTree.ancestor
  · rcases hround.eq_or_lt with heq | hlt
    · rw [hrules.certified_unique hc.1 hb heq]
      exact .refl
    · exact hrules.committed_ancestor hc hpos b hb hlt

end Assumptions

/-- Agreement: in every run of an epoch in which Byzantine validators hold less than a third of the
voting power, of two blocks committed by quorums of votes or of order votes one is an ancestor of
the other, or they are the same. -/
theorem committed_blocks_on_one_chain [LedgerApi] (E : EpochSetup) (net : Network)
    (hcollision : CollisionFree) (hsignatures : QuorumSignatures E.verifier)
    (hbyzantine : 3 * E.verifier.powerOf E.byzantine < E.verifier.totalVotingPower)
    (hreachable : net.Reachable E) {li li' : LedgerInfoWithSignatures} {b b' : BlockData}
    (h : Commits E net li b) (h' : Commits E net li' b') : Ancestor b b' ∨ Ancestor b' b := by
  have hsound := hreachable.sound
  rcases h.committed hsound hcollision hsignatures hbyzantine with rfl | ⟨hpos, hb⟩
  · rcases h'.committed hsound hcollision hsignatures hbyzantine with rfl | ⟨-, hb'⟩
    · exact .inl Relation.ReflTransGen.refl
    · exact .inl (hsound.genesis_ancestor hcollision hsignatures hbyzantine hb')
  · rcases h'.committed hsound hcollision hsignatures hbyzantine with rfl | ⟨hpos', hb'⟩
    · exact .inr (hsound.genesis_ancestor hcollision hsignatures hbyzantine hb)
    · exact (hsound.rules hcollision hsignatures hbyzantine).agreement hb hb' hpos hpos'

end Chain

/-! ## Four validators, one of them Byzantine -/

namespace OneByzantine

def validators : ValidatorVerifier where
  validatorInfos := [⟨0, 7, 1⟩, ⟨1, 7, 1⟩, ⟨2, 7, 1⟩, ⟨3, 7, 1⟩]

/-- The block of a round hashes to the number after it. -/
def blockInfo (round : Nat) : BlockInfo :=
  { BlockInfo.empty with epoch := 1, round, id := round + 1 }

def voteData (round : Nat) : VoteData where
  proposed := blockInfo round
  parent := blockInfo (round - 1)

/-- Two honest validators and the Byzantine one. -/
def signatures : AggregateSignature := { signers := [0, 1, 3], sig := none }

/-- The certificate for the block of a round. -/
def certificate (round : Nat) : QuorumCert where
  voteData := voteData round
  signedLedgerInfo :=
    { ledgerInfo := LedgerInfo.new (blockInfo (round - 1)) (round + 1)
      signatures := if round = 0 then { signers := [], sig := none } else signatures }

def genesis : BlockData where
  epoch := 1
  round := 0
  timestampUsecs := 0
  quorumCert := certificate 0
  blockType := .genesis

/-- A nil block, which carries no signature of its own. -/
def proposal (round : Nat) : VoteProposal where
  block :=
    { blockData :=
        { epoch := 1, round, timestampUsecs := 0, quorumCert := certificate (round - 1)
          blockType := .nilBlock [] }
      signature := none }
  nextEpochState := none
  decoupledExecution := true

@[reducible] def crypto : Crypto :=
  Permissive.quorumCrypto (Permissive.hashOf [voteData 0, voteData 1, voteData 2])
    (Permissive.hashOf [genesis, (proposal 1).block.blockData, (proposal 2).block.blockData])

attribute [local instance] crypto Permissive.ledger

theorem collisionFree : CollisionFree where
  voteData := Permissive.hashOf_injective _
  voteData_ne_zero := Permissive.hashOf_ne_zero _
  blockData := Permissive.hashOf_injective _

theorem quorumSignatures : QuorumSignatures validators where
  multi h := Permissive.accept_ok_iff.mp h
  aggregate h := Permissive.accept_ok_iff.mp h

def setup : EpochSetup where
  epoch := 1
  verifier := validators
  byzantine := {3}
  genesis := genesis
  genesis_round := rfl

def state (a : Author) : SafetyRules where
  persistentStorage :=
    { enableCachedSafetyData := true
      cachedSafetyData := none
      internalStore :=
        { safetyData := SafetyData.start 1, waypoint := ⟨0, 0⟩, ownerAccount := some a
          consensusKey := some 7, explicitKeys := [] } }
  validatorSigner := some { author := a, privateKey := 7 }
  epochState := some { epoch := 1, verifier := validators }

/-- The first two validators answer the same call. -/
def both (net : Network) (call : Call) : Network := (net.act 0 ({}, call)).act 1 ({}, call)

def start : Network where
  rules := state
  history _ := []

def net1 : Network := both start (.constructAndSignVoteTwoChain 0 (proposal 1) none)

def net2 : Network := both net1 (.constructAndSignVoteTwoChain 0 (proposal 2) none)

/-- The two have voted for the blocks of rounds 1 and 2 and given an order vote for the latter. -/
def net3 : Network := both net2 (.constructAndSignOrderVote
  { block := (proposal 2).block, blockInfo := blockInfo 2, quorumCert := certificate 2 })

instance (net : Network) (a : Author) (m : Message) : Decidable (net.Signed a m) :=
  inferInstanceAs (Decidable (∃ e ∈ net.history a, handedOut e = some m))

variable {net : Network} {call : Call} {li : LedgerInfo}

theorem steps_both (h : Admissible setup net call) :
    Relation.ReflTransGen (Network.Step setup) net (both net call) :=
  (Relation.ReflTransGen.single (.act 0 ⟨by decide, by decide⟩ {} call h)).tail
    (.act 1 ⟨by decide, by decide⟩ {} call (h.extend (net.extends_act 0 _)))

/-- The signature of the Byzantine validator need not have been handed out. -/
theorem genuine_of_signed (h : ∀ a ∈ [0, 1], net.Signed a (.ledgerInfo li)) :
    Genuine setup net ⟨li, signatures⟩ := by
  intro _ a hmem hhonest
  have hsigner : a ∈ [0, 1] ++ [3] := hmem
  rcases List.mem_append.mp hsigner with ha | ha
  · exact h a ha
  · obtain rfl := List.mem_singleton.mp ha
    exact absurd (Finset.mem_singleton_self _) hhonest.2

theorem genuine_net3 : Genuine setup net3 (certificate 2).ledgerInfo :=
  genuine_of_signed (by decide +kernel)

/-- The quorum of order votes for the second block. -/
def orderedLedgerInfo : LedgerInfoWithSignatures where
  ledgerInfo := LedgerInfo.new (blockInfo 2) HashValue.zero
  signatures := signatures

theorem reachable : net3.Reachable setup := by
  have hinTree : InTree genesis (proposal 1).block.blockData := .insert .root rfl (by decide)
  have hsteps1 : Relation.ReflTransGen (Network.Step setup) start net1 := by
    refine steps_both ⟨hinTree, rfl, ?_, fun _ h => nomatch h⟩
    -- the certificate of the genesis has no signatures
    intro _ a ha
    cases ha
  have hsteps2 : Relation.ReflTransGen (Network.Step setup) net1 net2 :=
    steps_both ⟨.insert hinTree (by decide +kernel) (by decide), rfl,
      genuine_of_signed (by decide +kernel), fun _ h => nomatch h⟩
  have hsteps3 : Relation.ReflTransGen (Network.Step setup) net2 net3 :=
    steps_both ⟨rfl, genuine_of_signed (by decide +kernel)⟩
  refine ⟨start, ?_, (hsteps1.trans hsteps2).trans hsteps3⟩
  intro a _
  refine ⟨rfl, ?_, ⟨_, rfl, rfl⟩, rfl⟩
  intro data h
  cases h

end OneByzantine

open OneByzantine

attribute [local instance] crypto Permissive.ledger

/-- The votes for the second block commit the first one, the order votes commit the second. -/
theorem one_byzantine_commits : Commits setup net3 (certificate 2).ledgerInfo
    (proposal 1).block.blockData ∧
      Commits setup net3 orderedLedgerInfo (proposal 2).block.blockData ∧
      (Ancestor (proposal 1).block.blockData (proposal 2).block.blockData ∨
        Ancestor (proposal 2).block.blockData (proposal 1).block.blockData) := by
  have hfirst : Commits setup net3 (certificate 2).ledgerInfo (proposal 1).block.blockData :=
    ⟨by decide, genuine_net3, rfl, by decide, by decide +kernel, by decide⟩
  have hsecond : Commits setup net3 orderedLedgerInfo (proposal 2).block.blockData :=
    ⟨by decide, genuine_of_signed (by decide +kernel), rfl, by decide, by decide +kernel, by decide⟩
  exact ⟨hfirst, hsecond, committed_blocks_on_one_chain setup net3 collisionFree quorumSignatures
    (by decide) reachable hfirst hsecond⟩

/-- The block of round two extends all that is committed. -/
theorem round_two_certified : Certifies setup net3 (certificate 2) (proposal 2).block.blockData ∧
    ∀ li c, Commits setup net3 li c → c.round ≤ 2 → Ancestor c (proposal 2).block.blockData := by
  have hqc2 : Certifies setup net3 (certificate 2) (proposal 2).block.blockData :=
    ⟨by decide, genuine_net3, by decide, by decide +kernel⟩
  exact ⟨hqc2, (certified_on_one_branch collisionFree quorumSignatures
    (by decide) reachable hqc2).2⟩

end Liquent.SafetyRules
