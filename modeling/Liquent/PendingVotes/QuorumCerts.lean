import Liquent.PendingVotes.PendingVotes

/-!
# Quorum certificates from votes

A certificate is put together from the shares under one digest and the vote data of the vote that
came last.  The table of authors keeps each author under one digest, so two certificates share an
author and are for one ledger info; the vote data of a verified vote is fixed by its ledger info.
-/

namespace Liquent.PendingVotes

open Misc

/-! ## What is assumed of the crate -/

section Assumptions

variable [Crypto] [VotingApi]

/-- Sufficient voting power is a quorum, and a multi-signature aggregated from verified shares of
sufficient power verifies. -/
structure SharesAggregate (v : ValidatorVerifier) : Prop where
  quorum : ∀ {authors power}, authors.Nodup → VotingApi.checkVotingPower v authors = .ok power →
    v.IsQuorum authors.toFinset
  verifies : ∀ {shares aggregated power m},
    VotingApi.aggregateSignatures v shares = .ok aggregated →
    VotingApi.checkVotingPower v shares.keys = .ok power →
    (∀ e ∈ shares, Crypto.verify v e.1 m e.2 = .ok ()) →
    Crypto.verifyMultiSignatures v m aggregated = .ok ()

/-- Different ledger infos and different vote data have different hashes. -/
structure DigestsDiffer : Prop where
  ledgerInfo : Function.Injective VotingApi.hashLedgerInfo
  voteData : Function.Injective Crypto.hashVoteData

end Assumptions

/-! ## What each call does -/

variable {shares : LedgerInfoWithVerifiedSignatures} {qc : QuorumCert} {reply : VoteReceptionResult}

section Calls

variable [VotingApi] {v : ValidatorVerifier} {p : PendingVotes} {vote : Vote}

/-- The author has not voted, or has voted for the same ledger info and now times out. -/
def Accepts (p : PendingVotes) (vote : Vote) : Prop :=
  ∀ previous digest, p.authorToVote.get vote.author = some (previous, digest) →
    digest = VotingApi.hashLedgerInfo vote.ledgerInfo ∧ vote.isTimeout = true ∧
      previous.isTimeout = false

/-- The timeouts that are collected once the timeout of a vote has been added. -/
def withTimeout (p : PendingVotes) (author : Author) (timeout : TwoChainTimeout)
    (signature : Signature) : TwoChainTimeoutWithPartialSignatures :=
  (p.maybePartial2chainTc.getD (.new timeout)).add author timeout signature

/-- A timeout is echoed and remembered, or nothing is echoed and nothing forgotten. -/
inductive EchoStep (before after : Bool) (reply : Except String VoteReceptionResult) : Prop
  | echoed (power : Nat) (reply_eq : reply = .ok (.echoTimeout power)) (first : before = false)
      (remembered : after = true)
  | silent (reply_ne : ∀ power, reply ≠ .ok (.echoTimeout power)) (same : after = before)

/-- What the part of `insert_vote` about the timeout does. -/
structure TimeoutStep (v : ValidatorVerifier) (p : PendingVotes) (vote : Vote)
    (r : Except String VoteReceptionResult × PendingVotes) : Prop where
  tables : r.2.liDigestToVotes = p.liDigestToVotes ∧ r.2.authorToVote = p.authorToVote
  partialTc : r.2.maybePartial2chainTc = p.maybePartial2chainTc ∨
    ∃ timeout signature, vote.twoChainTimeout = some (timeout, signature) ∧
      r.2.maybePartial2chainTc = some (p.withTimeout vote.author timeout signature)
  echo : EchoStep p.echoTimeout r.2.echoTimeout r.1
  noQc : ∀ qc, r.1 ≠ .ok (.newQuorumCertificate qc)
  newTc : ∀ tc, r.1 = .ok (.new2ChainTimeoutCertificate tc) → ∃ timeout signature power,
    vote.twoChainTimeout = some (timeout, signature) ∧
      VotingApi.checkVotingPower v (p.withTimeout vote.author timeout signature).signers =
        .ok power ∧
      (p.withTimeout vote.author timeout signature).aggregateSignatures v = .ok (.ok tc)

/-- A vote is refused without a change, or stored; then it makes a certificate, or its timeout is
looked at. -/
inductive InsertStep (v : ValidatorVerifier) (p : PendingVotes) (vote : Vote) :
    Except String VoteReceptionResult × PendingVotes → Prop
  | refused {refusal : VoteReceptionResult} (reply : refusal = .duplicateVote ∨
      refusal = .equivocateVote) : InsertStep v p vote (.ok refusal, p)
  | aggregated {power : Nat} (accepts : p.Accepts vote)
      (enough : VotingApi.checkVotingPower v (p.sharesWith vote).partialSigs.authors = .ok power) :
      InsertStep v p vote (handleAggregatedQc v power vote (p.sharesWith vote), p.store vote)
  | timeout {r : Except String VoteReceptionResult × PendingVotes} (accepts : p.Accepts vote)
      (step : TimeoutStep v (p.store vote) vote r) : InsertStep v p vote r

theorem echo_cases (p : PendingVotes) (v : ValidatorVerifier) (votingPower tcVotingPower : Nat) :
    (∃ panic, p.echo v votingPower tcVotingPower = (.error panic, p)) ∨
      p.echo v votingPower tcVotingPower = (.ok (.voteAdded votingPower), p) ∨
      p.echoTimeout = false ∧ p.echo v votingPower tcVotingPower =
        (.ok (.echoTimeout tcVotingPower), { p with echoTimeout := true }) := by
  unfold echo
  split
  · exact .inr (.inl rfl)
  · rename_i hecho
    split
    · exact .inl ⟨_, rfl⟩
    · dsimp only
      split
      · exact .inr (.inr ⟨by simpa using hecho, rfl⟩)
      · exact .inr (.inl rfl)

theorem insertTimeout_step (p : PendingVotes) (vote : Vote) (v : ValidatorVerifier)
    (votingPower : Nat) : TimeoutStep v p vote (p.insertTimeout vote v votingPower) := by
  unfold insertTimeout
  cases htimeout : vote.twoChainTimeout with
  | none => refine ⟨⟨rfl, rfl⟩, .inl rfl, .silent ?_ rfl, ?_, ?_⟩ <;> rintro _ ⟨⟩
  | some entry =>
    obtain ⟨timeout, signature⟩ := entry
    dsimp only
    split
    · rename_i power hpower
      refine ⟨⟨rfl, rfl⟩, .inr ⟨_, _, htimeout, rfl⟩, .silent ?_ rfl, ?_, ?_⟩
      · intro power
        dsimp only
        split <;> nofun
      · intro qc
        dsimp only
        split <;> nofun
      · intro tc h
        refine ⟨timeout, signature, power, htimeout, hpower, ?_⟩
        dsimp only at h
        split at h
        · rename_i tc' htc
          obtain rfl := VoteReceptionResult.new2ChainTimeoutCertificate.inj (Except.ok.inj h)
          exact htc
        · cases h
        · cases h
    · rename_i tcVotingPower _ _
      rcases echo_cases { p with maybePartial2chainTc := _ } v votingPower tcVotingPower with
        ⟨panic, h⟩ | h | ⟨hfirst, h⟩
      · rw [h]
        refine ⟨⟨rfl, rfl⟩, .inr ⟨_, _, htimeout, rfl⟩, .silent ?_ rfl, ?_, ?_⟩ <;> rintro _ ⟨⟩
      · rw [h]
        refine ⟨⟨rfl, rfl⟩, .inr ⟨_, _, htimeout, rfl⟩, .silent ?_ rfl, ?_, ?_⟩ <;> rintro _ ⟨⟩
      · rw [h]
        refine ⟨⟨rfl, rfl⟩, .inr ⟨_, _, htimeout, rfl⟩, .echoed _ rfl hfirst rfl, ?_, ?_⟩ <;>
          rintro _ ⟨⟩
    · refine ⟨⟨rfl, rfl⟩, .inr ⟨_, _, htimeout, rfl⟩, .silent ?_ rfl, ?_, ?_⟩ <;> rintro _ ⟨⟩

theorem insertVote_step (p : PendingVotes) (vote : Vote) (v : ValidatorVerifier) :
    InsertStep v p vote (p.insertVote vote v) := by
  have hstore (haccepts : p.Accepts vote) : InsertStep v p vote (p.storeVote vote v) := by
    unfold storeVote
    dsimp only
    split
    · rename_i power hpower
      exact .aggregated haccepts hpower
    · exact .timeout haccepts (insertTimeout_step ..)
    · refine .timeout haccepts ⟨⟨rfl, rfl⟩, .inl rfl, .silent ?_ rfl, ?_, ?_⟩ <;> rintro _ ⟨⟩
  unfold insertVote
  cases hseen : p.authorToVote.get vote.author with
  | none =>
    apply hstore
    intro previous digest hget
    simp [hseen] at hget
  | some entry =>
    obtain ⟨previous, digest⟩ := entry
    by_cases hdigest : VotingApi.hashLedgerInfo vote.ledgerInfo = digest
    · by_cases htimeout : (vote.isTimeout && !previous.isTimeout) = true
      · simp only [if_pos hdigest, if_pos htimeout]
        apply hstore
        intro previous' digest' hget
        rw [hseen] at hget
        simp only [Option.some.injEq, Prod.mk.injEq] at hget
        obtain ⟨rfl, rfl⟩ := hget
        simp only [Bool.and_eq_true, Bool.not_eq_true'] at htimeout
        exact ⟨hdigest.symm, htimeout⟩
      · simp only [if_pos hdigest, if_neg htimeout]
        exact .refused (.inl rfl)
    · simp only [if_neg hdigest]
      exact .refused (.inr rfl)

/-- How a certificate is made from shares. -/
structure Assembled (v : ValidatorVerifier) (shares : LedgerInfoWithVerifiedSignatures)
    (voteData : VoteData) (qc : QuorumCert) : Prop where
  power : ∃ power, VotingApi.checkVotingPower v shares.partialSigs.authors = .ok power
  signatures : VotingApi.aggregateSignatures v shares.partialSigs.signatures =
    .ok qc.signedLedgerInfo.signatures
  ledgerInfo : qc.signedLedgerInfo.ledgerInfo = shares.ledgerInfo
  voteData : qc.voteData = voteData

theorem assembled_of_aggregateQcNow {voteData : VoteData} {power : Nat}
    (hpower : VotingApi.checkVotingPower v shares.partialSigs.authors = .ok power)
    (h : aggregateQcNow v shares voteData = .newQuorumCertificate qc) :
    Assembled v shares voteData qc := by
  unfold aggregateQcNow at h
  split at h
  · rename_i signatures hsignatures
    obtain rfl := VoteReceptionResult.newQuorumCertificate.inj h
    exact ⟨⟨power, hpower⟩, hsignatures, rfl, rfl⟩
  · cases h

theorem handleAggregatedQc_ok {power : Nat}
    (h : handleAggregatedQc v power vote shares = .ok reply) :
    aggregateQcNow v shares vote.voteData = reply := by
  unfold handleAggregatedQc at h
  split at h
  · exact Except.ok.inj h
  · cases h

theorem assembled_of_processDelayedQc (h : p.processDelayedQc v vote = .newQuorumCertificate qc) :
    ∃ shares, p.liDigestToVotes.get (VotingApi.hashLedgerInfo vote.ledgerInfo) = some shares ∧
      Assembled v shares vote.voteData qc := by
  unfold processDelayedQc at h
  split at h
  · cases h
  · rename_i shares hshares
    split at h
    · rename_i power hpower
      exact ⟨shares, hshares, assembled_of_aggregateQcNow hpower h⟩
    · cases h
    · cases h

/-! ## The echo of a timeout -/

theorem aggregateQcNow_ne_echo {voteData : VoteData}
    (power : Nat) : aggregateQcNow v shares voteData ≠ .echoTimeout power := by
  unfold aggregateQcNow
  split
  · nofun
  · nofun

theorem step_echoStep (p : PendingVotes) (v : ValidatorVerifier) (event : Event) :
    EchoStep p.echoTimeout (step v p event).2.echoTimeout (step v p event).1 := by
  cases event with
  | processDelayedQc vote =>
    refine .silent ?_ rfl
    intro power h
    have hreply := Except.ok.inj h
    unfold processDelayedQc at hreply
    split at hreply
    · cases hreply
    · split at hreply
      · exact aggregateQcNow_ne_echo power hreply
      · cases hreply
      · cases hreply
  | insertVote vote =>
    change EchoStep p.echoTimeout (p.insertVote vote v).2.echoTimeout (p.insertVote vote v).1
    have hstep := insertVote_step p vote v
    generalize p.insertVote vote v = r at hstep ⊢
    cases hstep with
    | refused hrefusal =>
      refine .silent ?_ rfl
      rcases hrefusal with rfl | rfl <;> nofun
    | aggregated _ _ =>
      exact .silent (fun power h => aggregateQcNow_ne_echo power (handleAggregatedQc_ok h)) rfl
    | timeout _ hstep => exact hstep.echo

end Calls

/-! ## The tables -/

variable {event : Event}

section Tables

variable [Crypto] [VotingApi] {v : ValidatorVerifier} {p : PendingVotes} {vote : Vote}

/-- What a verified vote guarantees. -/
structure Verified (v : ValidatorVerifier) (vote : Vote) : Prop where
  hash_eq : vote.ledgerInfo.consensusDataHash = vote.voteData.hash
  signature : Crypto.verify v vote.author (.ledgerInfo vote.ledgerInfo) vote.signature = .ok ()
  timeout : vote.verifyTimeout v = .ok ()
  wellFormed : vote.voteData.WellFormed

omit [VotingApi] in
theorem verified_of_verify (h : vote.verify v = .ok ()) : Verified v vote := by
  simp only [Vote.verify, except_seq_ok_iff, ensure_ok_iff, except_mapError_ok_iff,
    VoteData.verify_ok_iff] at h
  obtain ⟨hhash, hsignature, htimeout, hwellFormed⟩ := h
  exact ⟨hhash, hsignature, htimeout, hwellFormed⟩

/-- The shares under a digest are signatures of one ledger info with that digest, and their authors
are known to have voted for it. -/
structure TablesSound (v : ValidatorVerifier) (p : PendingVotes) : Prop where
  digest : ∀ d shares, p.liDigestToVotes.get d = some shares →
    VotingApi.hashLedgerInfo shares.ledgerInfo = d
  shares : ∀ d shares, p.liDigestToVotes.get d = some shares → ∀ e ∈ shares.partialSigs.signatures,
    Crypto.verify v e.1 (.ledgerInfo shares.ledgerInfo) e.2 = .ok ()
  authors : ∀ d shares, p.liDigestToVotes.get d = some shares → ∀ a ∈ shares.partialSigs.authors,
    ∃ vote, p.authorToVote.get a = some (vote, d)
  nodup : ∀ d shares, p.liDigestToVotes.get d = some shares → shares.partialSigs.authors.Nodup

theorem tablesSound_empty : TablesSound v {} := ⟨nofun, nofun, nofun, nofun⟩

/-- Each author's share is held under one digest. -/
theorem TablesSound.digest_unique (h : TablesSound v p) {d d' : HashValue}
    {shares' : LedgerInfoWithVerifiedSignatures} (hget : p.liDigestToVotes.get d = some shares)
    (hget' : p.liDigestToVotes.get d' = some shares') {a : Author}
    (ha : a ∈ shares.partialSigs.authors) (ha' : a ∈ shares'.partialSigs.authors) : d = d' := by
  obtain ⟨vote, hvote⟩ := h.authors d shares hget a ha
  obtain ⟨vote', hvote'⟩ := h.authors d' shares' hget' a ha'
  rw [hvote] at hvote'
  exact (Prod.mk.inj (Option.some.inj hvote')).2

theorem TablesSound.sharesWith (hdigests : DigestsDiffer) (h : TablesSound v p)
    (hvote : Verified v vote) :
    (p.sharesWith vote).ledgerInfo = vote.ledgerInfo ∧
      (∀ e ∈ (p.sharesWith vote).partialSigs.signatures,
        Crypto.verify v e.1 (.ledgerInfo vote.ledgerInfo) e.2 = .ok ()) ∧
      ∀ a, a ∈ (p.sharesWith vote).partialSigs.authors ↔ a = vote.author ∨
        ∃ shares, p.liDigestToVotes.get (VotingApi.hashLedgerInfo vote.ledgerInfo) = some shares ∧
          a ∈ shares.partialSigs.authors := by
  unfold PendingVotes.sharesWith
  cases hget : p.liDigestToVotes.get (VotingApi.hashLedgerInfo vote.ledgerInfo) with
  | none =>
    refine ⟨rfl, ?_, ?_⟩
    · exact Table.forall_mem_put (List.forall_mem_nil _) hvote.signature
    · intro a
      change a ∈ (Table.put [] vote.author vote.signature).keys ↔ _
      rw [Table.mem_keys_put]
      simp [Table.keys]
  | some shares =>
    have hsame : shares.ledgerInfo = vote.ledgerInfo := hdigests.ledgerInfo (h.digest _ _ hget)
    refine ⟨hsame, ?_, ?_⟩
    · refine Table.forall_mem_put ?_ hvote.signature
      rw [← hsame]
      exact h.shares _ _ hget
    · intro a
      change a ∈ (shares.partialSigs.signatures.put vote.author vote.signature).keys ↔ _
      rw [Table.mem_keys_put]
      simp only [Option.some.injEq, exists_eq_left']
      rfl

theorem TablesSound.nodup_sharesWith (h : TablesSound v p) (vote : Vote) :
    (p.sharesWith vote).partialSigs.authors.Nodup := by
  unfold PendingVotes.sharesWith
  cases hget : p.liDigestToVotes.get (VotingApi.hashLedgerInfo vote.ledgerInfo) with
  | none => exact Table.nodup_keys_put (t := []) List.nodup_nil _ _
  | some shares => exact Table.nodup_keys_put (h.nodup _ _ hget) _ _

theorem TablesSound.store (hdigests : DigestsDiffer) (h : TablesSound v p)
    (hvote : Verified v vote) (haccepts : p.Accepts vote) : TablesSound v (p.store vote) := by
  obtain ⟨hledgerInfo, hshares, hauthors⟩ := h.sharesWith hdigests hvote
  -- an author that is stored under another digest is not the author of the vote
  have hkept : ∀ d shares, p.liDigestToVotes.get d = some shares →
      ∀ a ∈ shares.partialSigs.authors, ∃ vote', (p.store vote).authorToVote.get a =
        some (vote', d) := by
    intro d shares hget a ha
    obtain ⟨previous, hprevious⟩ := h.authors d shares hget a ha
    change ∃ vote', (p.authorToVote.put vote.author (vote, VotingApi.hashLedgerInfo
      vote.ledgerInfo)).get a = some (vote', d)
    by_cases hauthor : a = vote.author
    · subst hauthor
      rw [Table.get_put_self, (haccepts previous d hprevious).1]
      exact ⟨vote, rfl⟩
    · rw [Table.get_put_of_ne hauthor]
      exact ⟨previous, hprevious⟩
  refine ⟨?_, ?_, ?_, Table.forall_get_put h.nodup (h.nodup_sharesWith vote)⟩
  · refine Table.forall_get_put h.digest ?_
    rw [hledgerInfo]
  · refine Table.forall_get_put h.shares ?_
    rw [hledgerInfo]
    exact hshares
  · intro d shares hget a ha
    rcases Table.of_get_put hget with ⟨rfl, rfl⟩ | hold
    · rcases (hauthors a).mp ha with rfl | ⟨stored, hstored, ha⟩
      · exact ⟨vote, Table.get_put_self⟩
      · exact hkept _ stored hstored a ha
    · exact hkept d shares hold a ha

theorem TablesSound.of_eq {p' : PendingVotes} (h : TablesSound v p)
    (htable : p'.liDigestToVotes = p.liDigestToVotes)
    (hauthors : p'.authorToVote = p.authorToVote) :
    TablesSound v p' := by
  cases p'
  subst htable hauthors
  exact { h with }

theorem TablesSound.step (hdigests : DigestsDiffer) (h : TablesSound v p)
    (hvote : Verified v event.vote) : TablesSound v (step v p event).2 := by
  cases event with
  | processDelayedQc vote => exact h
  | insertVote vote =>
    change TablesSound v (p.insertVote vote v).2
    have hstep := insertVote_step p vote v
    generalize p.insertVote vote v = r at hstep ⊢
    cases hstep with
    | refused _ => exact h
    | aggregated haccepts _ => exact h.store hdigests hvote haccepts
    | timeout haccepts hstep =>
      exact (h.store hdigests hvote haccepts).of_eq hstep.tables.1 hstep.tables.2

end Tables

/-! ## Certificates -/

section Certificates

variable [Crypto] [VotingApi] {v : ValidatorVerifier} {p : PendingVotes} {vote : Vote}

/-- The collection holds the shares of a quorum for the ledger info of a certificate. -/
def Backed (v : ValidatorVerifier) (p : PendingVotes) (qc : QuorumCert) : Prop :=
  ∃ shares quorum, p.liDigestToVotes.get
      (VotingApi.hashLedgerInfo qc.signedLedgerInfo.ledgerInfo) = some shares ∧
    quorum ⊆ shares.partialSigs.authors.toFinset ∧ v.IsQuorum quorum

/-- A certificate from verified shares and the data of a verified vote for the same ledger info
verifies. -/
theorem Assembled.verify (hshares : SharesAggregate v)
    (h : Assembled v shares vote.voteData qc) (hvote : Verified v vote)
    (hsame : shares.ledgerInfo = vote.ledgerInfo) (hverified : ∀ e ∈ shares.partialSigs.signatures,
      Crypto.verify v e.1 (.ledgerInfo vote.ledgerInfo) e.2 = .ok ()) :
    qc.verify v = .ok () := by
  obtain ⟨power, hpower⟩ := h.power
  have hround : qc.certifiedBlock.round ≠ 0 := by
    have hlt := hvote.wellFormed.round_lt
    change qc.voteData.proposed.round ≠ 0
    rw [h.voteData]
    omega
  refine QuorumCert.verify_ok_iff.mpr (.inr ⟨hround, ?_, ?_, ?_⟩)
  · change qc.signedLedgerInfo.ledgerInfo.consensusDataHash = qc.voteData.hash
    rw [h.ledgerInfo, h.voteData, hsame]
    exact hvote.hash_eq
  · change Crypto.verifyMultiSignatures v (.ledgerInfo qc.signedLedgerInfo.ledgerInfo)
      qc.signedLedgerInfo.signatures = .ok ()
    rw [h.ledgerInfo, hsame]
    exact hshares.verifies h.signatures hpower hverified
  · rw [h.voteData]
    exact hvote.wellFormed

/-- Two certificates with shares in the collection certify the same block. -/
theorem Backed.certifiedBlock_eq (hdigests : DigestsDiffer) (h : TablesSound v p)
    {qc' : QuorumCert} (hbacked : Backed v p qc) (hbacked' : Backed v p qc')
    (hverify : qc.verify v = .ok ()) (hverify' : qc'.verify v = .ok ()) :
    qc.certifiedBlock = qc'.certifiedBlock := by
  obtain ⟨shares, quorum, hget, hsub, hquorum⟩ := hbacked
  obtain ⟨shares', quorum', hget', hsub', hquorum'⟩ := hbacked'
  have hpositive : 3 * weightOf v.power (∅ : Finset Author) < weightOf v.power v.members := by
    have hle := weightOf_mono (w := v.power) hquorum.1
    have hmore := hquorum.2
    have hzero : weightOf v.power (∅ : Finset Author) = 0 := Finset.sum_empty
    omega
  obtain ⟨a, ha, ha', -⟩ := hquorum.exists_common hpositive hquorum'
  have hdigest := h.digest_unique hget hget' (List.mem_toFinset.mp (hsub ha))
    (List.mem_toFinset.mp (hsub' ha'))
  have hledgerInfo : qc.signedLedgerInfo.ledgerInfo = qc'.signedLedgerInfo.ledgerInfo :=
    hdigests.ledgerInfo hdigest
  have hhash : ∀ {qc : QuorumCert}, qc.verify v = .ok () →
      qc.signedLedgerInfo.ledgerInfo.consensusDataHash = qc.voteData.hash := by
    intro qc hqc
    rcases QuorumCert.verify_ok_iff.mp hqc with ⟨-, hunsigned⟩ | ⟨-, hsigned⟩
    · exact hunsigned.hash_eq
    · exact hsigned.hash_eq
  have hvoteData : qc.voteData = qc'.voteData := by
    apply hdigests.voteData
    change qc.voteData.hash = qc'.voteData.hash
    rw [← hhash hverify, ← hhash hverify', hledgerInfo]
  unfold QuorumCert.certifiedBlock
  rw [hvoteData]

theorem Backed.store (hdigests : DigestsDiffer) (h : TablesSound v p) (hvote : Verified v vote)
    (hbacked : Backed v p qc) : Backed v (p.store vote) qc := by
  obtain ⟨shares, quorum, hget, hsub, hquorum⟩ := hbacked
  by_cases hd : VotingApi.hashLedgerInfo qc.signedLedgerInfo.ledgerInfo =
      VotingApi.hashLedgerInfo vote.ledgerInfo
  · refine ⟨p.sharesWith vote, quorum, ?_, ?_, hquorum⟩
    · rw [hd]
      exact Table.get_put_self
    · intro a ha
      have hmem := List.mem_toFinset.mp (hsub ha)
      rw [hd] at hget
      exact List.mem_toFinset.mpr
        (((h.sharesWith hdigests hvote).2.2 a).mpr (.inr ⟨shares, hget, hmem⟩))
  · exact ⟨shares, quorum, (Table.get_put_of_ne hd).trans hget, hsub, hquorum⟩

omit [Crypto] in
theorem Backed.of_eq {p' : PendingVotes} (h : Backed v p qc)
    (htable : p'.liDigestToVotes = p.liDigestToVotes) : Backed v p' qc := by
  unfold Backed
  rw [htable]
  exact h

theorem Backed.step (hdigests : DigestsDiffer) (h : TablesSound v p)
    (hvote : Verified v event.vote) (hbacked : Backed v p qc) :
    Backed v (step v p event).2 qc := by
  cases event with
  | processDelayedQc vote => exact hbacked
  | insertVote vote =>
    change Backed v (p.insertVote vote v).2 qc
    have hstep := insertVote_step p vote v
    generalize p.insertVote vote v = r at hstep ⊢
    cases hstep with
    | refused _ => exact hbacked
    | aggregated _ _ => exact hbacked.store hdigests h hvote
    | timeout _ hstep => exact (hbacked.store hdigests h hvote).of_eq hstep.tables.1

/-- A certificate that a call returns verifies, and its shares are in the collection. -/
theorem newQc_step (hshares : SharesAggregate v) (hdigests : DigestsDiffer) (h : TablesSound v p)
    (hvote : Verified v event.vote) (hreply : (step v p event).1 = .ok (.newQuorumCertificate qc)) :
    qc.verify v = .ok () ∧ Backed v (step v p event).2 qc := by
  cases event with
  | processDelayedQc vote =>
    obtain ⟨shares, hget, hassembled⟩ := assembled_of_processDelayedQc (Except.ok.inj hreply)
    have hsame : shares.ledgerInfo = vote.ledgerInfo := hdigests.ledgerInfo (h.digest _ _ hget)
    have hverified := h.shares _ _ hget
    rw [hsame] at hverified
    refine ⟨hassembled.verify hshares hvote hsame hverified, shares, _, ?_,
      Finset.Subset.refl _, ?_⟩
    · rw [hassembled.ledgerInfo, hsame]
      exact hget
    · obtain ⟨power, hpower⟩ := hassembled.power
      exact hshares.quorum (h.nodup _ _ hget) hpower
  | insertVote vote =>
    change (p.insertVote vote v).1 = _ at hreply
    change _ ∧ Backed v (p.insertVote vote v).2 qc
    have hvote : Verified v vote := hvote
    have hstep := insertVote_step p vote v
    generalize p.insertVote vote v = r at hstep hreply ⊢
    cases hstep with
    | refused hrefusal => rcases hrefusal with rfl | rfl <;> cases hreply
    | timeout _ hstep => exact absurd hreply (hstep.noQc qc)
    | aggregated _ hpower =>
      have hassembled := assembled_of_aggregateQcNow hpower (handleAggregatedQc_ok hreply)
      obtain ⟨hsame, hverified, -⟩ := h.sharesWith hdigests hvote
      refine ⟨hassembled.verify hshares hvote hsame hverified, p.sharesWith vote, _, ?_,
        Finset.Subset.refl _, hshares.quorum (h.nodup_sharesWith vote) hpower⟩
      rw [hassembled.ledgerInfo, hsame]
      exact Table.get_put_self

/-! ## Whole runs -/

/-- The calls of a run and what they answer. -/
abbrev History := List (Event × Except String VoteReceptionResult)

def Returned (history : History) (reply : VoteReceptionResult) : Prop :=
  ∃ event, (event, .ok reply) ∈ history

def isEcho : Event × Except String VoteReceptionResult → Bool
  | (_, .ok (.echoTimeout _)) => true
  | _ => false

/-- What holds after every call. -/
structure Sound (v : ValidatorVerifier) (history : History) (p : PendingVotes) : Prop where
  tables : TablesSound v p
  certificates : ∀ qc, Returned history (.newQuorumCertificate qc) →
    qc.verify v = .ok () ∧ Backed v p qc
  echo : (history.filter isEcho).length = p.echoTimeout.toNat

omit [Crypto] [VotingApi] in
theorem returned_snoc {history : History} {answer : Except String VoteReceptionResult}
    (h : Returned (history ++ [(event, answer)]) reply) :
    Returned history reply ∨ answer = .ok reply := by
  obtain ⟨other, hmem⟩ := h
  rcases List.mem_append.mp hmem with hold | hnew
  · exact .inl ⟨other, hold⟩
  · exact .inr (Prod.mk.inj (List.mem_singleton.mp hnew)).2.symm

theorem Sound.step (hshares : SharesAggregate v) (hdigests : DigestsDiffer) {history : History}
    (h : Sound v history p) (hvote : Verified v event.vote) :
    Sound v (history ++ [(event, (step v p event).1)]) (step v p event).2 where
  tables := h.tables.step hdigests hvote
  certificates := by
    intro qc hqc
    rcases returned_snoc hqc with hold | hnew
    · obtain ⟨hverify, hbacked⟩ := h.certificates qc hold
      exact ⟨hverify, hbacked.step hdigests h.tables hvote⟩
    · exact newQc_step hshares hdigests h.tables hvote hnew
  echo := by
    have hecho := h.echo
    rw [List.filter_append, List.length_append]
    cases step_echoStep p v event with
    | echoed power hreply hfirst hremembered =>
      rw [hfirst] at hecho
      rw [hremembered, hreply, hecho]
      rfl
    | silent hreply hsame =>
      have hnone : [(event, (PendingVotes.step v p event).1)].filter isEcho = [] := by
        rw [List.filter_eq_nil_iff]
        intro entry hentry
        rw [List.mem_singleton.mp hentry]
        generalize (PendingVotes.step v p event).1 = reply at *
        cases reply with
        | error panic => simp [isEcho]
        | ok answer =>
          cases answer with
          | echoTimeout power => exact absurd rfl (hreply power)
          | _ => simp [isEcho]
      rw [hnone, hsame, hecho]
      rfl

/-- What one collection makes of the votes that it is given. -/
structure AggregatesVotes (v : ValidatorVerifier) (events : List Event) : Prop where
  oneDigest : ∀ pre post, events = pre ++ post → ∀ d d' shares shares' a,
    (run (step v) {} pre).2.liDigestToVotes.get d = some shares →
    (run (step v) {} pre).2.liDigestToVotes.get d' = some shares' →
    a ∈ shares.partialSigs.authors → a ∈ shares'.partialSigs.authors → d = d'
  verifies : ∀ qc, Returned (run (step v) {} events).1 (.newQuorumCertificate qc) →
    qc.verify v = .ok ()
  sameBlock : ∀ qc qc', Returned (run (step v) {} events).1 (.newQuorumCertificate qc) →
    Returned (run (step v) {} events).1 (.newQuorumCertificate qc') →
    qc.certifiedBlock = qc'.certifiedBlock
  echoOnce : ((run (step v) {} events).1.filter isEcho).length ≤ 1

theorem sound_run (hshares : SharesAggregate v) (hdigests : DigestsDiffer) {events : List Event}
    (hvotes : ∀ event ∈ events, event.vote.verify v = .ok ()) :
    Sound v (run (step v) {} events).1 (run (step v) {} events).2 := by
  have hstart : Sound v [] {} := by
    refine ⟨tablesSound_empty, ?_, rfl⟩
    intro qc hqc
    obtain ⟨event, hmem⟩ := hqc
    exact absurd hmem List.not_mem_nil
  have hstep : ∀ history p event, event.vote.verify v = .ok () → Sound v history p →
      Sound v (history ++ [(event, (step v p event).1)]) (step v p event).2 := by
    intro history p event hvote h
    exact h.step hshares hdigests (verified_of_verify hvote)
  have hrun := run_induction_of hstep hvotes hstart
  rwa [List.nil_append] at hrun

/-- For every sequence of votes that verify, each author's share is held under one digest, every
certificate that is returned verifies, all of them certify the same block, and a timeout is echoed
at most once. -/
theorem aggregates_votes (hshares : SharesAggregate v) (hdigests : DigestsDiffer)
    (events : List Event) (hvotes : ∀ event ∈ events, event.vote.verify v = .ok ()) :
    AggregatesVotes v events where
  oneDigest := by
    intro pre post hsplit d d' shares shares' a hget hget' ha ha'
    have hpre : ∀ event ∈ pre, event.vote.verify v = .ok () := by
      intro event hevent
      exact hvotes event (by rw [hsplit]; exact List.mem_append_left _ hevent)
    exact (sound_run hshares hdigests hpre).tables.digest_unique hget hget' ha ha'
  verifies := fun qc hqc => ((sound_run hshares hdigests hvotes).certificates qc hqc).1
  sameBlock := by
    intro qc qc' hqc hqc'
    have hsound := sound_run hshares hdigests hvotes
    obtain ⟨hverify, hbacked⟩ := hsound.certificates qc hqc
    obtain ⟨hverify', hbacked'⟩ := hsound.certificates qc' hqc'
    exact hbacked.certifiedBlock_eq hdigests hsound.tables hbacked' hverify hverify'
  echoOnce := by
    rw [(sound_run hshares hdigests hvotes).echo]
    exact Bool.toNat_le _

end Certificates

/-! ## Four validators, one of which holds a quorum -/

namespace Example

open Permissive

def blockInfo (round : Nat) : BlockInfo :=
  { BlockInfo.empty with epoch := 1, round := round, id := round }

def voteData : VoteData := { proposed := blockInfo 2, parent := blockInfo 1 }

/-- Signatures that are accepted from anyone, and multi-signatures from any quorum. -/
@[reducible] def crypto : Crypto := quorumCrypto (hashOf [voteData]) (·.round)

/-- The address of a validator is its position. -/
@[reducible] def votingApi : VotingApi where
  hashLedgerInfo := hashOf []
  checkVotingPower v authors :=
    if v.IsQuorum authors.toFinset then .ok (v.powerOf authors.toFinset)
    else .error (.tooLittleVotingPower (v.powerOf authors.toFinset) 0)
  aggregateSignatures v shares :=
    if shares.keys.toFinset ⊆ v.members ∧ v.signersOf { signers := shares.keys, sig := none } =
        shares.keys then
      .ok { signers := shares.keys, sig := none }
    else .error .emptySignature
  quorumVotingPower v := v.totalVotingPower * 2 / 3 + 1

def validators : ValidatorVerifier where
  validatorInfos := [⟨0, 0, 7⟩, ⟨1, 1, 1⟩, ⟨2, 2, 1⟩, ⟨3, 3, 1⟩]

attribute [local instance] crypto votingApi

theorem isQuorum_of_power {v : ValidatorVerifier} {authors : List Author} {power : Nat}
    (h : votingApi.checkVotingPower v authors = .ok power) : v.IsQuorum authors.toFinset := by
  change (if v.IsQuorum authors.toFinset then _ else _) = _ at h
  split at h
  · assumption
  · cases h

theorem sharesAggregate : SharesAggregate validators where
  quorum _ h := isQuorum_of_power h
  verifies := by
    intro shares aggregated power m haggregate hpower _
    change (if _ ∧ _ then _ else _) = _ at haggregate
    split at haggregate
    · rename_i hsigners
      obtain rfl := Except.ok.inj haggregate
      refine accept_ok_iff.mpr ?_
      rw [hsigners.2]
      exact isQuorum_of_power hpower
    · cases haggregate

theorem digestsDiffer : DigestsDiffer where
  ledgerInfo := hashOf_injective _
  voteData := hashOf_injective _

/-- A vote for the block of round 2. -/
def vote (author : Author) : Vote where
  voteData := voteData
  author := author
  ledgerInfo := .new .empty voteData.hash
  signature := 0
  twoChainTimeout := none

theorem vote_verify (author : Author) : (vote author).verify validators = .ok () := by
  simp only [Vote.verify, except_seq_ok_iff, ensure_ok_iff, VoteData.verify_ok_iff]
  refine ⟨rfl, rfl, rfl, ?_⟩
  exact ⟨rfl, Nat.one_lt_two, le_refl _, .inl rfl⟩

end Example

open Example

attribute [local instance] crypto votingApi

/-- The vote of the first validator makes a certificate. -/
theorem aggregates_votes_example :
    AggregatesVotes validators [.insertVote (vote 0), .insertVote (vote 1)] ∧
      ∃ qc, Returned (run (step validators) {} [.insertVote (vote 0)]).1
        (.newQuorumCertificate qc) ∧ qc.certifiedBlock.round = 2 := by
  refine ⟨aggregates_votes sharesAggregate digestsDiffer _ ?_, ?_⟩
  · intro event hevent
    simp only [List.mem_cons, List.not_mem_nil, or_false] at hevent
    rcases hevent with rfl | rfl
    · exact vote_verify 0
    · exact vote_verify 1
  · exact ⟨_, ⟨_, List.mem_singleton_self _⟩, rfl⟩

end Liquent.PendingVotes
