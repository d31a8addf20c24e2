import Liquent.Misc.Lists
import Liquent.PendingVotes.QuorumCerts

/-!
# Timeout certificates from votes

A timeout certificate carries the mask of its signers, a list of rounds and the timeout with the
highest certified round.  Each author adds its timeout once, so the three agree when the certificate
is put together here.  A certificate from the network need not have as many rounds as signers:
verification zips the two lists, and takes the maximum over all rounds.
-/

namespace Liquent

open Misc

/-! ## The signers of an aggregated signature -/

/-- The positions of the given validators, in order. -/
def ValidatorVerifier.maskOf (v : ValidatorVerifier) (authors : List Author) : List Nat :=
  (List.range v.validatorInfos.length).filter fun i =>
    authors.any fun author => v.addressToValidatorIndex author = some i

variable {authors : List Author}

namespace PendingVotes

section Assumptions

variable [Crypto] [VotingApi]

/-- Sufficient voting power is a quorum; an aggregated signature has the mask of its shares, and
verifies if each share of a quorum is a signature of its author's message. -/
structure TimeoutsAggregate (v : ValidatorVerifier) : Prop where
  quorum : ∀ {authors power}, authors.Nodup → VotingApi.checkVotingPower v authors = .ok power →
    v.IsQuorum authors.toFinset
  signers : ∀ {shares aggregated}, VotingApi.aggregateSignatures v shares = .ok aggregated →
    aggregated.signers = v.maskOf shares.keys
  verifies : ∀ {shares aggregated} (message : Author → Message),
    VotingApi.aggregateSignatures v shares = .ok aggregated → v.IsQuorum shares.keys.toFinset →
    (∀ e ∈ shares, Crypto.verify v e.1 (message e.1) e.2 = .ok ()) →
    Crypto.verifyAggregateSignatures v ((v.signersOf aggregated).map message) aggregated = .ok ()

end Assumptions

/-! ## Shares with rounds -/

section Shares

variable {v : ValidatorVerifier} {s : PartialSignaturesWithRound}

theorem getElem_of_addressToValidatorIndex {author : Author} {i : Nat}
    (h : v.addressToValidatorIndex author = some i) :
    v.getOrderedAccountAddresses[i]? = some author ∧ i < v.validatorInfos.length := by
  obtain ⟨hi, hget, -⟩ := List.idxOf?_eq_some_iff.mp h
  refine ⟨List.getElem?_eq_some_iff.mpr ⟨hi, hget⟩, ?_⟩
  simpa [ValidatorVerifier.getOrderedAccountAddresses] using hi

theorem addressToValidatorIndex_inj {a b : Author} {i : Nat}
    (ha : v.addressToValidatorIndex a = some i) (hb : v.addressToValidatorIndex b = some i) :
    a = b := by
  have hget := (getElem_of_addressToValidatorIndex ha).1
  rw [(getElem_of_addressToValidatorIndex hb).1] at hget
  exact (Option.some.inj hget).symm

theorem exists_index_of_mem {author : Author} (h : author ∈ v.members) :
    ∃ i, v.addressToValidatorIndex author = some i := by
  apply Option.ne_none_iff_exists'.mp
  intro hnone
  exact List.idxOf?_eq_none_iff.mp hnone (List.mem_toFinset.mp h)

/-- All shares are of validators. -/
def FromMembers (v : ValidatorVerifier) (s : PartialSignaturesWithRound) : Prop :=
  ∀ a ∈ s.signatures.keys, a ∈ v.members

theorem filter_known (h : FromMembers v s) :
    (s.signatures.filter fun e => (v.addressToValidatorIndex e.1).isSome) = s.signatures := by
  rw [List.filter_eq_self]
  intro e he
  obtain ⟨i, hi⟩ := exists_index_of_mem (h e.1 (List.mem_map_of_mem he))
  rw [hi]
  rfl

theorem partialSig_spec (h : FromMembers v s) :
    (∀ a, a ∈ (s.getPartialSigWithRounds v).1.signatures.keys ↔ a ∈ s.signatures.keys) ∧
      ∀ e ∈ (s.getPartialSigWithRounds v).1.signatures, ∃ round,
        (e.1, (round, e.2)) ∈ s.signatures := by
  have hfold : ∀ (entries : Table Author (Nat × Signature)) (p : PartialSignatures),
      (entries.foldl (fun p e => p.addSignature e.1 e.2.2) p).signatures =
        p.signatures.putAll (entries.map fun e => (e.1, e.2.2)) := by
    intro entries
    induction entries with
    | nil => exact fun _ => rfl
    | cons e rest ih => exact fun p => ih (p.addSignature e.1 e.2.2)
  have hsig : (s.getPartialSigWithRounds v).1.signatures =
      Table.putAll [] (s.signatures.map fun e => (e.1, e.2.2)) := by
    simp only [PartialSignaturesWithRound.getPartialSigWithRounds, filter_known h]
    exact hfold s.signatures {}
  rw [hsig]
  constructor
  · intro a
    rw [Table.mem_keys_putAll]
    simp [Table.keys]
  · exact Table.forall_mem_putAll (List.forall_mem_nil _)
      (List.forall_mem_map.mpr fun entry hentry => ⟨entry.2.1, hentry⟩)

/-- The rounds come in the order of the validators, one for each signer. -/
theorem orderedRounds_spec (h : FromMembers v s) (hnodup : s.signatures.keys.Nodup) :
    List.Forall₂ (fun i round => ∃ author signature, v.addressToValidatorIndex author = some i ∧
        (author, (round, signature)) ∈ s.signatures)
      (v.maskOf s.signatures.keys) (s.getPartialSigWithRounds v).2 := by
  let indexed := s.signatures.map fun e => ((v.addressToValidatorIndex e.1).getD 0, e.2.1)
  have hindex : ∀ e ∈ s.signatures,
      v.addressToValidatorIndex e.1 = some ((v.addressToValidatorIndex e.1).getD 0) := by
    intro e he
    obtain ⟨i, hi⟩ := exists_index_of_mem (h e.1 (List.mem_map_of_mem he))
    rw [hi]
    rfl
  let table : Table Nat Nat := .putAll [] indexed
  have hkeys : (indexed.map (·.1)).Nodup := by
    have hmap : indexed.map (·.1) =
        s.signatures.map fun e => (v.addressToValidatorIndex e.1).getD 0 := by
      simp [indexed]
    rw [hmap]
    refine List.Nodup.map_on ?_ (List.Nodup.of_map _ hnodup)
    intro a ha b hb heq
    have hauthor : a.1 = b.1 := by
      refine addressToValidatorIndex_inj (v := v) (hindex a ha) ?_
      rw [heq]
      exact hindex b hb
    exact List.inj_on_of_nodup_map hnodup ha hb hauthor
  have hrounds : (s.getPartialSigWithRounds v).2 =
      PartialSignaturesWithRound.valuesInOrder table := by
    simp only [PartialSignaturesWithRound.getPartialSigWithRounds, filter_known h, Table.putAll,
      table, indexed, List.foldl_map]
  have htable : table.keys.Nodup := Table.nodup_keys_putAll (t := []) List.nodup_nil indexed
  have hget : ∀ i round, table.get i = some round ↔
      ∃ author signature, v.addressToValidatorIndex author = some i ∧
        (author, (round, signature)) ∈ s.signatures := by
    intro i round
    rw [Table.get_putAll_nil hkeys]
    constructor
    · intro hmem
      obtain ⟨e, he, heq⟩ := List.mem_map.mp hmem
      obtain ⟨rfl, rfl⟩ := Prod.mk.inj heq
      exact ⟨e.1, e.2.2, hindex e he, he⟩
    · intro hmem
      obtain ⟨author, signature, hi, hmem⟩ := hmem
      refine List.mem_map.mpr ⟨_, hmem, ?_⟩
      rw [hi]
      rfl
  have hbound : ∀ k ∈ table.keys, k < v.validatorInfos.length := by
    intro k hk
    obtain ⟨round, hround⟩ := Table.mem_keys_iff_get.mp hk
    obtain ⟨author, signature, hi, -⟩ := (hget k round).mp hround
    exact (getElem_of_addressToValidatorIndex hi).2
  have hvalues : (s.getPartialSigWithRounds v).2 =
      (List.range v.validatorInfos.length).filterMap table.get := by
    rw [hrounds]
    unfold PartialSignaturesWithRound.valuesInOrder
    rw [Table.insertionSort_eq_range htable hbound, List.map_filterMap]
    congr 1
    funext k
    cases table.get k with
    | none | some round => rfl
  rw [hvalues]
  refine (forall₂_filter_filterMap ?_).imp fun i round hround => (hget i round).mp hround
  intro i _
  rw [Bool.eq_iff_iff, Option.isSome_iff_exists]
  simp only [List.any_eq_true, decide_eq_true_eq]
  constructor
  · intro hmask
    obtain ⟨author, hauthor, hi⟩ := hmask
    obtain ⟨e, he, rfl⟩ := List.mem_map.mp hauthor
    exact ⟨e.2.1, (hget i e.2.1).mpr ⟨e.1, e.2.2, hi, he⟩⟩
  · intro hround
    obtain ⟨round, hround⟩ := hround
    obtain ⟨author, signature, hi, hmem⟩ := (hget i round).mp hround
    exact ⟨author, List.mem_map_of_mem hmem, hi⟩

end Shares

/-! ## The timeouts of a round -/

section Collection

variable [Crypto] [VotingApi] {v : ValidatorVerifier} {p : PendingVotes} {vote : Vote}
  {events : List Event} {epoch round : Nat}

/-- The votes that are fed verify and are of one epoch and round. -/
def OfRound (v : ValidatorVerifier) (epoch round : Nat) (event : Event) : Prop :=
  event.vote.verify v = .ok () ∧ event.vote.epoch = epoch ∧ event.vote.round = round

instance (event : Event) : Decidable (OfRound v epoch round event) :=
  inferInstanceAs (Decidable (_ ∧ _ ∧ _))

/-- A share is the timeout of a vote that has been inserted. -/
def TimeoutOf (events : List Event) (author : Author) (hqcRound : Nat) (signature : Signature) :
    Prop :=
  ∃ vote timeout, .insertVote vote ∈ events ∧ vote.author = author ∧
    vote.twoChainTimeout = some (timeout, signature) ∧ timeout.hqcRound = hqcRound

/-- Each author has one timeout, and the one that is kept has the highest round. -/
structure Collected (events : List Event) (t : TwoChainTimeoutWithPartialSignatures) : Prop where
  nodup : t.signatures.signatures.keys.Nodup
  entries : ∀ e ∈ t.signatures.signatures, TimeoutOf events e.1 e.2.1 e.2.2
  timeout : ∃ vote signature, .insertVote vote ∈ events ∧
    vote.twoChainTimeout = some (t.timeout, signature)
  le : ∀ e ∈ t.signatures.signatures, e.2.1 ≤ t.timeout.hqcRound
  reached : ∃ e ∈ t.signatures.signatures, e.2.1 = t.timeout.hqcRound

/-- What a verified vote with a timeout guarantees. -/
structure TimeoutVerified (v : ValidatorVerifier) (vote : Vote) (timeout : TwoChainTimeout)
    (signature : Signature) : Prop where
  epoch : timeout.epoch = vote.epoch
  round : timeout.round = vote.round
  verifies : timeout.verify v = .ok ()
  signature : Crypto.verify v vote.author (.timeout timeout.signingFormat) signature = .ok ()

variable {timeout : TwoChainTimeout} {signature : Signature}

omit [VotingApi] in
theorem timeoutVerified_of_verify
    (h : vote.verify v = .ok ()) (htimeout : vote.twoChainTimeout = some (timeout, signature)) :
    TimeoutVerified v vote timeout signature := by
  have hverified := (verified_of_verify h).timeout
  simp only [Vote.verifyTimeout, htimeout, except_seq_ok_iff, ensure_ok_iff, except_mapError_ok_iff,
    Prod.mk.injEq] at hverified
  obtain ⟨⟨hepoch, hround⟩, hverifies, hsignature⟩ := hverified
  exact ⟨hepoch, hround, hverifies, hsignature⟩

variable {t : TwoChainTimeoutWithPartialSignatures}

omit [Crypto] [VotingApi] in
theorem collected_add (hvote : .insertVote vote ∈ events)
    (htimeout : vote.twoChainTimeout = some (timeout, signature))
    (hnew : vote.author ∉ t.signatures.signatures.keys)
    (h : t = .new timeout ∨ Collected events t) :
    Collected events (t.add vote.author timeout signature) := by
  have hnone : (t.signatures.signatures.get vote.author).isSome = false := by
    rw [Table.get_eq_none hnew]
    rfl
  have hput : (t.add vote.author timeout signature).signatures.signatures =
      t.signatures.signatures.put vote.author (timeout.hqcRound, signature) := by
    simp [TwoChainTimeoutWithPartialSignatures.add, PartialSignaturesWithRound.addSignature, hnone]
  have hself : (vote.author, (timeout.hqcRound, signature)) ∈
      (t.add vote.author timeout signature).signatures.signatures := by
    rw [hput]
    exact List.mem_cons_self
  have hkept : (t.add vote.author timeout signature).timeout =
      if t.timeout.hqcRound < timeout.hqcRound then timeout else t.timeout := rfl
  -- a collection that starts has no entries, and the timeout of the vote is the one that is kept
  obtain ⟨hnodup, hentries, hold, hreached⟩ : t.signatures.signatures.keys.Nodup ∧
      (∀ e ∈ t.signatures.signatures, TimeoutOf events e.1 e.2.1 e.2.2 ∧
        e.2.1 ≤ t.timeout.hqcRound) ∧
      (∃ vote signature, .insertVote vote ∈ events ∧
        vote.twoChainTimeout = some (t.timeout, signature)) ∧
      (t.timeout = timeout ∨ ∃ e ∈ t.signatures.signatures, e.2.1 = t.timeout.hqcRound) := by
    rcases h with rfl | h
    · exact ⟨List.nodup_nil, List.forall_mem_nil _, ⟨vote, signature, hvote, htimeout⟩, .inl rfl⟩
    · exact ⟨h.nodup, fun e he => ⟨h.entries e he, h.le e he⟩, h.timeout, .inr h.reached⟩
  refine ⟨?_, ?_, ?_, ?_, ?_⟩
  · rw [hput]
    exact Table.nodup_keys_put hnodup _ _
  · rw [hput]
    exact Table.forall_mem_put (fun e he => (hentries e he).1)
      ⟨vote, timeout, hvote, rfl, htimeout, rfl⟩
  · rw [hkept]
    split
    · exact ⟨vote, signature, hvote, htimeout⟩
    · exact hold
  · rw [hput, hkept]
    refine Table.forall_mem_put (fun e he => ?_) ?_
    · have hle := (hentries e he).2
      split <;> omega
    · dsimp only
      split <;> omega
  · rw [hkept]
    split
    · exact ⟨_, hself, rfl⟩
    · rcases hreached with hsame | ⟨e, he, hround⟩
      · exact ⟨_, hself, by rw [hsame]⟩
      · refine ⟨e, ?_, hround⟩
        rw [hput]
        refine List.mem_cons_of_mem _ (List.mem_filter.mpr ⟨he, ?_⟩)
        simp only [ne_eq, decide_not, Bool.not_eq_true', decide_eq_false_iff_not]
        intro hauthor
        exact hnew (hauthor ▸ List.mem_map_of_mem he)

/-- The timeouts of the collection, whose authors are known to have timed out. -/
structure TimeoutsSound (events : List Event) (p : PendingVotes) : Prop where
  collected : ∀ t, p.maybePartial2chainTc = some t → Collected events t
  known : ∀ t, p.maybePartial2chainTc = some t → ∀ a ∈ t.signatures.signatures.keys,
    ∃ vote digest, p.authorToVote.get a = some (vote, digest) ∧ vote.isTimeout = true

omit [Crypto] in
/-- The author of a vote that is accepted has not timed out. -/
theorem TimeoutsSound.author_new (h : TimeoutsSound events p) (haccepts : p.Accepts vote)
    (ht : p.maybePartial2chainTc = some t) :
    vote.author ∉ t.signatures.signatures.keys := by
  intro hauthor
  obtain ⟨previous, digest, hprevious, htimeout⟩ := h.known t ht _ hauthor
  simp [(haccepts previous digest hprevious).2.2] at htimeout

omit [Crypto] in
theorem TimeoutsSound.store (h : TimeoutsSound events p) (haccepts : p.Accepts vote) :
    TimeoutsSound events (p.store vote) := by
  refine ⟨h.collected, ?_⟩
  intro t ht a ha
  have hne : a ≠ vote.author := by
    intro heq
    exact h.author_new haccepts ht (heq ▸ ha)
  obtain ⟨previous, digest, hprevious, htimeout⟩ := h.known t ht a ha
  exact ⟨previous, digest, (Table.get_put_of_ne hne).trans hprevious, htimeout⟩

section

omit [Crypto]

theorem TimeoutsSound.withTimeout (h : TimeoutsSound events p) (haccepts : p.Accepts vote)
    (hvote : .insertVote vote ∈ events)
    (htimeout : vote.twoChainTimeout = some (timeout, signature)) :
    Collected events (p.withTimeout vote.author timeout signature) ∧
      ∀ a ∈ (p.withTimeout vote.author timeout signature).signatures.signatures.keys,
        a = vote.author ∨ ∃ t, p.maybePartial2chainTc = some t ∧
          a ∈ t.signatures.signatures.keys := by
  have hkeys : ∀ (t : TwoChainTimeoutWithPartialSignatures) a,
      a ∈ (t.add vote.author timeout signature).signatures.signatures.keys →
      a = vote.author ∨ a ∈ t.signatures.signatures.keys := by
    intro t a ha
    simp only [TwoChainTimeoutWithPartialSignatures.add, PartialSignaturesWithRound.addSignature]
      at ha
    split at ha
    · exact .inr ha
    · exact Table.mem_keys_put.mp ha
  unfold PendingVotes.withTimeout
  cases ht : p.maybePartial2chainTc with
  | none =>
    refine ⟨collected_add hvote htimeout List.not_mem_nil (.inl rfl), ?_⟩
    intro a ha
    rcases hkeys _ a ha with rfl | hold
    · exact .inl rfl
    · cases hold
  | some t =>
    refine ⟨collected_add hvote htimeout (h.author_new haccepts ht) (.inr (h.collected t ht)), ?_⟩
    intro a ha
    rcases hkeys _ a ha with rfl | hold
    · exact .inl rfl
    · exact .inr ⟨t, rfl, hold⟩

end

variable {event : Event}

omit [Crypto] in
theorem TimeoutsSound.step (h : TimeoutsSound events p) (hevent : event ∈ events) :
    TimeoutsSound events (step v p event).2 := by
  cases event with
  | processDelayedQc vote => exact h
  | insertVote vote =>
    change TimeoutsSound events (p.insertVote vote v).2
    have hstep := insertVote_step p vote v
    generalize p.insertVote vote v = r at hstep ⊢
    cases hstep with
    | refused _ => exact h
    | aggregated haccepts _ => exact h.store haccepts
    | timeout haccepts hstep =>
      have hauthors := hstep.tables.2
      have hstore := h.store haccepts
      rcases hstep.partialTc with hsame | ⟨timeout, signature, htimeout, hadded⟩
      · refine ⟨?_, ?_⟩
        · rw [hsame]
          exact h.collected
        · rw [hsame, hauthors]
          exact hstore.known
      · obtain ⟨hcollected, hkeys⟩ := h.withTimeout haccepts hevent htimeout
        refine ⟨?_, ?_⟩
        · rw [hadded]
          rintro _ ⟨⟩
          exact hcollected
        · rw [hadded, hauthors]
          rintro _ ⟨⟩ a ha
          rcases hkeys a ha with rfl | ⟨t, ht, hold⟩
          · refine ⟨vote, _, Table.get_put_self, ?_⟩
            unfold Vote.isTimeout
            rw [htimeout]
            rfl
          · exact hstore.known t ht a hold

/-! ## Certificates -/

variable {tc : TwoChainTimeoutCertificate}

omit [Crypto] in
theorem newTc_of_step (h : (step v p event).1 = .ok (.new2ChainTimeoutCertificate tc)) :
    ∃ vote timeout signature power, event = .insertVote vote ∧ p.Accepts vote ∧
      vote.twoChainTimeout = some (timeout, signature) ∧
      VotingApi.checkVotingPower v (p.withTimeout vote.author timeout signature).signers =
        .ok power ∧
      (p.withTimeout vote.author timeout signature).aggregateSignatures v = .ok (.ok tc) := by
  have hqc : ∀ {shares voteData},
      aggregateQcNow v shares voteData ≠ .new2ChainTimeoutCertificate tc := by
    intro shares voteData
    unfold aggregateQcNow
    split
    · nofun
    · nofun
  cases event with
  | processDelayedQc vote =>
    have hreply := Except.ok.inj h
    unfold processDelayedQc at hreply
    split at hreply
    · cases hreply
    · split at hreply
      · exact absurd hreply hqc
      · cases hreply
      · cases hreply
  | insertVote vote =>
    change (p.insertVote vote v).1 = _ at h
    have hstep := insertVote_step p vote v
    generalize p.insertVote vote v = r at hstep h
    cases hstep with
    | refused hrefusal => rcases hrefusal with rfl | rfl <;> cases h
    | aggregated _ _ => exact absurd (handleAggregatedQc_ok h) hqc
    | timeout haccepts hstep =>
      obtain ⟨timeout, signature, power, hnew⟩ := hstep.newTc tc h
      exact ⟨vote, timeout, signature, power, rfl, haccepts, hnew⟩

/-- A timeout certificate verifies, its signers come in the order of the validators, each with the
round it has signed, and the highest of these is its own. -/
structure Reports (v : ValidatorVerifier) (events : List Event) (tc : TwoChainTimeoutCertificate) :
    Prop where
  verifies : tc.verify v = .ok ()
  ordered : tc.signaturesWithRounds.sig.signers.Pairwise (· < ·)
  rounds : List.Forall₂ (fun i hqcRound => ∃ author signature,
      v.getOrderedAccountAddresses[i]? = some author ∧ TimeoutOf events author hqcRound signature)
    tc.signaturesWithRounds.sig.signers tc.signaturesWithRounds.rounds
  highest : tc.signaturesWithRounds.rounds.max? = some tc.highestHqcRound

omit [Crypto] [VotingApi] in
theorem maskOf_congr {a b : List Author} (h : ∀ author, author ∈ a ↔ author ∈ b) :
    v.maskOf a = v.maskOf b := by
  unfold ValidatorVerifier.maskOf
  congr 1
  funext i
  rw [Bool.eq_iff_iff]
  simp only [List.any_eq_true, h]

omit [Crypto] [VotingApi] in
/-- Zipping the signers with their rounds finds the round of each signer. -/
theorem zip_rounds {addresses : List Author} {mask rounds : List Nat} {roundOf : Author → Nat}
    {α : Type} (f : Nat → α)
    (h : List.Forall₂ (fun i r => ∃ author, addresses[i]? = some author ∧ roundOf author = r)
      mask rounds) :
    (((mask.filterMap (addresses[·]?)).zip rounds).map fun e => f e.2) =
      (mask.filterMap (addresses[·]?)).map fun author => f (roundOf author) := by
  induction h with
  | nil => rfl
  | cons hi _ ih =>
    obtain ⟨author, hauthor, rfl⟩ := hi
    rw [List.filterMap_cons_some hauthor, List.zip_cons_cons, List.map_cons, List.map_cons, ih]

omit [Crypto] in
theorem aggregateSignatures_ok (htc : t.aggregateSignatures v = .ok (.ok tc)) :
    ∃ aggregated, VotingApi.aggregateSignatures v
      (t.signatures.getPartialSigWithRounds v).1.signatures = .ok aggregated ∧ tc =
        ⟨t.timeout, aggregated, (t.signatures.getPartialSigWithRounds v).2⟩ := by
  unfold TwoChainTimeoutWithPartialSignatures.aggregateSignatures at htc
  dsimp only at htc
  split at htc
  · cases Except.ok.inj htc
  · rename_i aggregated hsig
    split at htc
    · exact ⟨aggregated, hsig, (Except.ok.inj (Except.ok.inj htc)).symm⟩
    · cases htc

omit [Crypto] [VotingApi] in
theorem Collected.max_rounds (h : Collected events t) (hmembers : FromMembers v t.signatures) :
    (t.signatures.getPartialSigWithRounds v).2.max? = some t.timeout.hqcRound := by
  have hrounds := orderedRounds_spec hmembers h.nodup
  rw [List.max?_eq_some_iff]
  constructor
  · obtain ⟨e, he, hround⟩ := h.reached
    obtain ⟨i, hi⟩ := exists_index_of_mem (hmembers e.1 (List.mem_map_of_mem he))
    have hmem : i ∈ v.maskOf t.signatures.signatures.keys := by
      refine List.mem_filter.mpr ⟨List.mem_range.mpr
        (getElem_of_addressToValidatorIndex hi).2, ?_⟩
      exact List.any_eq_true.mpr ⟨e.1, List.mem_map_of_mem he, decide_eq_true hi⟩
    obtain ⟨r, hr, author, signature, hauthor, hown⟩ := exists_forall₂_left hrounds hmem
    obtain rfl := addressToValidatorIndex_inj hauthor hi
    have hsame := Table.get_of_mem h.nodup hown
    rw [Table.get_of_mem h.nodup he] at hsame
    obtain rfl : e.2.1 = r := congrArg Prod.fst (Option.some.inj hsame)
    rwa [← hround]
  · intro r hr
    obtain ⟨i, -, author, signature, -, hmem⟩ := exists_forall₂_left hrounds.flip hr
    exact h.le _ hmem

/-- The timeouts of a quorum make a certificate that verifies. -/
theorem Collected.reports {power : Nat} (haggregate : TimeoutsAggregate v)
    (hvotes : ∀ event ∈ events, OfRound v epoch round event) (h : Collected events t)
    (hpower : VotingApi.checkVotingPower v t.signers = .ok power)
    (htc : t.aggregateSignatures v = .ok (.ok tc)) : Reports v events tc := by
  have hquorum : v.IsQuorum t.signatures.signatures.keys.toFinset :=
    haggregate.quorum h.nodup hpower
  have hmembers : FromMembers v t.signatures :=
    fun a ha => hquorum.1 (List.mem_toFinset.mpr ha)
  obtain ⟨hkeys, hshares⟩ := partialSig_spec hmembers
  have hrounds := orderedRounds_spec hmembers h.nodup
  obtain ⟨aggregated, hsig, rfl⟩ := aggregateSignatures_ok htc
  have hmask : aggregated.signers = v.maskOf t.signatures.signatures.keys :=
    (haggregate.signers hsig).trans (maskOf_congr hkeys)
  -- the timeouts are all of the epoch and round of the collection
  have hformat : ∀ {vote timeout signature}, .insertVote vote ∈ events →
      vote.twoChainTimeout = some (timeout, signature) →
      TimeoutVerified v vote timeout signature ∧ timeout.epoch = epoch ∧ timeout.round = round := by
    intro vote timeout signature hvote htimeout
    obtain ⟨hverify, hepoch, hround⟩ := hvotes _ hvote
    have hverified := timeoutVerified_of_verify hverify htimeout
    exact ⟨hverified, hverified.epoch.trans hepoch, hverified.round.trans hround⟩
  obtain ⟨top, topSignature, htop, htopTimeout⟩ := h.timeout
  obtain ⟨htopVerified, htopEpoch, htopRound⟩ := hformat htop htopTimeout
  let roundOf : Author → Nat := fun author =>
    ((t.signatures.signatures.get author).map (·.1)).getD 0
  let message : Author → Message := fun author =>
    .timeout { epoch := t.timeout.epoch, round := t.timeout.round, hqcRound := roundOf author }
  have hsigned : ∀ e ∈ (t.signatures.getPartialSigWithRounds v).1.signatures,
      Crypto.verify v e.1 (message e.1) e.2 = .ok () := by
    intro e he
    obtain ⟨r, hmem⟩ := hshares e he
    obtain ⟨vote, timeout, hvote, hauthor, htimeout, hround⟩ := h.entries _ hmem
    obtain ⟨hverified, hepoch', hround'⟩ := hformat hvote htimeout
    have hsignature := hverified.signature
    have hsame : message e.1 = .timeout timeout.signingFormat := by
      simp only [message, roundOf, Table.get_of_mem h.nodup hmem, TwoChainTimeout.signingFormat,
        hround, hepoch', hround', htopEpoch, htopRound, Option.map_some, Option.getD_some]
    rw [hsame]
    rwa [hauthor] at hsignature
  have hquorum' : v.IsQuorum
    (t.signatures.getPartialSigWithRounds v).1.signatures.keys.toFinset := by
    rwa [show (t.signatures.getPartialSigWithRounds v).1.signatures.keys.toFinset =
      t.signatures.signatures.keys.toFinset by ext a; simp only [List.mem_toFinset, hkeys]]
  have hverifies := haggregate.verifies message hsig hquorum' hsigned
  have hmax := h.max_rounds hmembers
  refine ⟨?_, ?_, ?_, hmax⟩
  · simp only [TwoChainTimeoutCertificate.verify, except_seq_ok_iff, hmax, ensure_ok_iff, and_true]
    refine ⟨htopVerified.verifies, ?_⟩
    have hmessages : (TwoChainTimeoutCertificate.timeoutMessages ⟨t.timeout, aggregated,
        (t.signatures.getPartialSigWithRounds v).2⟩ v).map Message.timeout =
          (v.signersOf aggregated).map message := by
      unfold TwoChainTimeoutCertificate.timeoutMessages ValidatorVerifier.signersOf
      rw [List.map_map]
      refine zip_rounds (fun r => Message.timeout ⟨t.timeout.epoch, t.timeout.round, r⟩) ?_
      rw [hmask]
      refine hrounds.imp ?_
      intro i r hown
      obtain ⟨author, signature, hi, hmem⟩ := hown
      refine ⟨author, (getElem_of_addressToValidatorIndex hi).1, ?_⟩
      simp only [roundOf, Table.get_of_mem h.nodup hmem, Option.map_some, Option.getD_some]
    rw [hmessages]
    exact hverifies
  · change aggregated.signers.Pairwise _
    rw [hmask]
    exact List.pairwise_lt_range.filter _
  · change List.Forall₂ _ aggregated.signers _
    rw [hmask]
    refine hrounds.imp ?_
    intro i r hown
    obtain ⟨author, signature, hi, hmem⟩ := hown
    exact ⟨author, signature, (getElem_of_addressToValidatorIndex hi).1, h.entries _ hmem⟩

/-- What holds after every call. -/
structure TimeoutsReported (v : ValidatorVerifier) (events : List Event) (history : History)
    (p : PendingVotes) : Prop where
  timeouts : TimeoutsSound events p
  certificates : ∀ tc, Returned history (.new2ChainTimeoutCertificate tc) → Reports v events tc

theorem TimeoutsReported.step (haggregate : TimeoutsAggregate v)
    (hvotes : ∀ event ∈ events, OfRound v epoch round event) {history : History}
    (h : TimeoutsReported v events history p) (hevent : event ∈ events) :
    TimeoutsReported v events (history ++ [(event, (step v p event).1)]) (step v p event).2 where
  timeouts := h.timeouts.step hevent
  certificates := by
    intro tc htc
    rcases returned_snoc htc with hold | hnew
    · exact h.certificates tc hold
    · obtain ⟨vote, timeout, signature, power, rfl, haccepts, htimeout, hpower, htc⟩ :=
        newTc_of_step hnew
      obtain ⟨hcollected, -⟩ := h.timeouts.withTimeout haccepts hevent htimeout
      exact hcollected.reports haggregate hvotes hpower htc

/-- For every sequence of verified votes of one epoch and round, every timeout certificate that is
returned verifies; it lists the rounds that its signers have signed in the order of the validators,
and its own round is the highest of them. -/
theorem timeouts_verify (haggregate : TimeoutsAggregate v) (events : List Event)
    (hvotes : ∀ event ∈ events, OfRound v epoch round event) (tc : TwoChainTimeoutCertificate)
    (htc : Returned (run (step v) {} events).1 (.new2ChainTimeoutCertificate tc)) :
    Reports v events tc := by
  have hstart : TimeoutsReported v events [] {} := by
    refine ⟨⟨fun t ht => absurd ht (Option.some_ne_none t).symm,
      fun t ht => absurd ht (Option.some_ne_none t).symm⟩, ?_⟩
    intro tc htc
    obtain ⟨event, hmem⟩ := htc
    exact absurd hmem List.not_mem_nil
  have hstep : ∀ history p event, event ∈ events → TimeoutsReported v events history p →
      TimeoutsReported v events (history ++ [(event, (step v p event).1)]) (step v p event).2 := by
    intro history p event hevent h
    exact h.step haggregate hvotes hevent
  have hrun := run_induction_of hstep (fun event hevent => hevent) hstart
  rw [List.nil_append] at hrun
  exact hrun.certificates tc htc

end Collection

/-! ## Four validators that time out -/

namespace Timeouts

open Permissive

@[reducible] def crypto : Crypto := quorumCrypto (·.proposed.id) (·.round)

@[reducible] def votingApi : VotingApi :=
  { Example.votingApi with
    hashLedgerInfo := LedgerInfo.consensusDataHash
    aggregateSignatures := fun v shares =>
      if shares.keys.toFinset ⊆ v.members then .ok { signers := v.maskOf shares.keys, sig := none }
      else .error .emptySignature }

def validators : ValidatorVerifier where
  validatorInfos := [⟨10, 0, 1⟩, ⟨11, 1, 1⟩, ⟨12, 2, 1⟩, ⟨13, 3, 1⟩]

attribute [local instance] crypto votingApi

theorem subset_signersOf_maskOf {v : ValidatorVerifier} (h : authors.toFinset ⊆ v.members) :
    authors.toFinset ⊆ (v.signersOf { signers := v.maskOf authors, sig := none }).toFinset := by
  intro author hauthor
  obtain ⟨i, hi⟩ := exists_index_of_mem (h hauthor)
  obtain ⟨hget, hlt⟩ := getElem_of_addressToValidatorIndex hi
  refine List.mem_toFinset.mpr (List.mem_filterMap.mpr ⟨i, ?_, hget⟩)
  refine List.mem_filter.mpr ⟨List.mem_range.mpr hlt, ?_⟩
  exact List.any_eq_true.mpr ⟨author, List.mem_toFinset.mp hauthor, decide_eq_true hi⟩

theorem timeoutsAggregate : TimeoutsAggregate validators where
  quorum _ h := Example.isQuorum_of_power h
  signers := by
    intro shares aggregated h
    change (if shares.keys.toFinset ⊆ validators.members then _ else _) = _ at h
    split at h
    · rw [← Except.ok.inj h]
    · cases h
  verifies := by
    intro shares aggregated message h hquorum _
    change (if shares.keys.toFinset ⊆ validators.members then _ else _) = _ at h
    split at h
    · rename_i hmembers
      rw [← Except.ok.inj h]
      refine accept_ok_iff.mpr ⟨?_, List.length_map _⟩
      exact hquorum.mono (subset_signersOf_maskOf hmembers)
        (ValidatorVerifier.signersOf_subset_members _ _)
    · cases h

def blockInfo (round id : Nat) : BlockInfo :=
  { BlockInfo.empty with epoch := 1, round := round, id := id }

/-- A certificate for a block of round `round + 1`, signed by the first three validators. -/
def certificate (round : Nat) : QuorumCert where
  voteData := { proposed := blockInfo (round + 1) 7, parent := blockInfo round 6 }
  signedLedgerInfo :=
    { ledgerInfo := .new .empty 7, signatures := { signers := [0, 1, 2], sig := none } }

/-- A vote in round 5 for a block, with a timeout that carries a certificate. -/
def vote (author : Author) (id qcRound : Nat) : Vote where
  voteData := { proposed := blockInfo 5 id, parent := blockInfo 4 6 }
  author := author
  ledgerInfo := .new .empty id
  signature := 0
  twoChainTimeout := some ({ epoch := 1, round := 5, quorumCert := certificate qcRound }, 0)

/-- Three validators time out with different certificates. -/
def events : List Event :=
  [.insertVote (vote 12 8 3), .insertVote (vote 10 9 1), .insertVote (vote 13 10 2)]

theorem events_ofRound : ∀ event ∈ events, OfRound validators 1 5 event := by
  decide

/-- The certificate of the three timeouts. -/
def timeoutCertificate : TwoChainTimeoutCertificate where
  timeout := { epoch := 1, round := 5, quorumCert := certificate 3 }
  signaturesWithRounds :=
    { sig := { signers := [0, 2, 3], sig := none }, rounds := [2, 4, 3] }

end Timeouts

open Timeouts

attribute [local instance] crypto votingApi

/-- Three validators time out, and their certificate lists the rounds in the order of the
validators. -/
theorem timeouts_verify_example :
    Returned (run (step validators) {} events).1 (.new2ChainTimeoutCertificate timeoutCertificate) ∧
      Reports validators events timeoutCertificate := by
  have hreturned : Returned (run (step validators) {} events).1
      (.new2ChainTimeoutCertificate timeoutCertificate) := by
    exact ⟨.insertVote (vote 13 10 2), by decide +kernel⟩
  exact ⟨hreturned, timeouts_verify timeoutsAggregate events events_ofRound _ hreturned⟩

end PendingVotes

/-! ## Certificates from the network -/

namespace TwoChainTimeoutCertificate

section Encoded

variable [Crypto] {v : ValidatorVerifier} {tc : TwoChainTimeoutCertificate}
  {signed : AggregateSignature → Author → Option Message}

/-- An aggregated signature verifies if and only if there are as many messages as signers and each
signer has signed its own. -/
def AggregateExact (signed : AggregateSignature → Author → Option Message) : Prop :=
  ∀ v messages s, Crypto.verifyAggregateSignatures v messages s = .ok () ↔
    List.Forall₂ (fun author message => signed s author = some message) (v.signersOf s) messages

/-- The rounds that the signers of a certificate have signed. -/
def signedRounds (signed : AggregateSignature → Author → Option Message) (v : ValidatorVerifier)
    (tc : TwoChainTimeoutCertificate) : List Nat :=
  (v.signersOf tc.signaturesWithRounds.sig).filterMap fun author =>
    match signed tc.signaturesWithRounds.sig author with
    | some (.timeout repr) => some repr.hqcRound
    | _ => none

/-- The certificate reports the highest round that was signed. -/
def ReportsHighest (signed : AggregateSignature → Author → Option Message) (v : ValidatorVerifier)
    (tc : TwoChainTimeoutCertificate) : Prop :=
  (tc.signedRounds signed v).max? = some tc.highestHqcRound ∧ tc.highestHqcRound < tc.round

instance : Decidable (tc.ReportsHighest signed v) :=
  inferInstanceAs (Decidable (_ ∧ _))

/-- No round listed past the signers is above all rounds listed for them. -/
def RoundsCovered (v : ValidatorVerifier) (tc : TwoChainTimeoutCertificate) : Prop :=
  let rounds := tc.signaturesWithRounds.rounds
  let voters := (v.signersOf tc.signaturesWithRounds.sig).length
  ∀ r ∈ rounds.drop voters, ∃ r' ∈ rounds.take voters, r ≤ r'

instance : Decidable (tc.RoundsCovered v) :=
  inferInstanceAs (Decidable (∀ r ∈ List.drop _ _, ∃ r' ∈ List.take _ _, r ≤ r'))

omit [Crypto] in
/-- The signers have signed the rounds that are listed for them. -/
theorem signedRounds_of_forall₂ {s : AggregateSignature} {epoch round : Nat} {rounds : List Nat}
    (h : List.Forall₂ (fun author message => signed s author = some message) authors
      (((authors.zip rounds).map fun e =>
        (⟨epoch, round, e.2⟩ : TimeoutSigningRepr)).map Message.timeout)) :
    (authors.filterMap fun author =>
      match signed s author with
      | some (.timeout repr) => some repr.hqcRound
      | _ => none) = rounds.take authors.length := by
  induction authors generalizing rounds with
  | nil => simp
  | cons author rest ih =>
    cases rounds with
    | nil =>
      have hlength := h.length_eq
      simp at hlength
    | cons r rounds =>
      cases h with
      | cons hauthor hrest =>
        rw [List.length_cons, List.take_succ_cons, ← ih hrest]
        refine List.filterMap_cons_some ?_
        rw [hauthor]

theorem signedRounds_eq_take (hexact : AggregateExact signed) (h : tc.Signed v) :
    tc.signedRounds signed v =
      tc.signaturesWithRounds.rounds.take (v.signersOf tc.signaturesWithRounds.sig).length :=
  signedRounds_of_forall₂ ((hexact _ _ _).mp h.signatures)

/-- A certificate that verifies reports the highest signed round exactly if its list of rounds has
no higher one past the signers. -/
theorem reportsHighest_iff (hexact : AggregateExact signed) (hverify : tc.verify v = .ok ()) :
    tc.ReportsHighest signed v ↔ tc.RoundsCovered v := by
  have hsigned := signed_of_verify hverify
  obtain ⟨hmem, hmax⟩ := List.max?_eq_some_iff.mp hsigned.max_rounds
  unfold ReportsHighest RoundsCovered
  dsimp only
  rw [signedRounds_eq_take hexact hsigned, and_iff_left hsigned.hqc_lt, List.max?_eq_some_iff]
  constructor
  · intro h r hr
    exact ⟨_, h.1, hmax r (List.mem_of_mem_drop hr)⟩
  · intro h
    refine ⟨?_, fun r hr => hmax r (List.mem_of_mem_take hr)⟩
    rw [← List.take_append_drop (v.signersOf tc.signaturesWithRounds.sig).length
      tc.signaturesWithRounds.rounds] at hmem
    rcases List.mem_append.mp hmem with htaken | hdropped
    · exact htaken
    · obtain ⟨r, hr, hle⟩ := h _ hdropped
      obtain rfl := le_antisymm hle (hmax r (List.mem_of_mem_take hr))
      exact hr

end Encoded

namespace Encoded

open PendingVotes.Timeouts (validators)

/-- The round that the signers have signed, read from an aggregated signature. -/
def signed (s : AggregateSignature) (_ : Author) : Option Message :=
  s.sig.map fun hqcRound => .timeout { epoch := 1, round := 7, hqcRound := hqcRound }

@[reducible] def crypto : Crypto :=
  { PendingVotes.Timeouts.crypto with
    verifyAggregateSignatures := fun v ms s =>
      Permissive.accept ((v.signersOf s).map (signed s) = ms.map some) }

attribute [local instance] crypto

theorem aggregateExact : AggregateExact signed := by
  intro v messages s
  refine Permissive.accept_ok_iff.trans ?_
  rw [← List.forall₂_eq_eq_eq, List.forall₂_map_left_iff, List.forall₂_map_right_iff]

/-- Three validators have signed round 1; what is listed and reported is up to the sender. -/
def certificate (rounds : List Nat) (hqcRound : Nat) : TwoChainTimeoutCertificate where
  timeout :=
    { epoch := 1
      round := 7
      quorumCert := PendingVotes.Timeouts.certificate (hqcRound - 1) }
  signaturesWithRounds := { sig := { signers := [0, 1, 2], sig := some 1 }, rounds := rounds }

end Encoded

open Encoded
open PendingVotes.Timeouts (validators)

attribute [local instance] crypto

/-- The round behind those of the signers is what the certificate reports. -/
theorem reports_unsigned_round :
    AggregateExact signed ∧ (certificate [1, 1, 1, 5] 5).verify validators = .ok () ∧
      (certificate [1, 1, 1, 5] 5).highestHqcRound = 5 ∧
      (certificate [1, 1, 1, 5] 5).signedRounds signed validators = [1, 1, 1] ∧
      ¬ (certificate [1, 1, 1, 5] 5).ReportsHighest signed validators := by
  exact ⟨aggregateExact, by decide, rfl, rfl, by decide⟩

theorem reportsHighest_iff_example : (certificate [1, 1, 1, 1] 1).ReportsHighest signed validators ∧
      ¬ (certificate [1, 1, 1, 5] 5).RoundsCovered validators := by
  constructor
  · exact (reportsHighest_iff aggregateExact (by decide)).mpr (by decide)
  · exact mt (reportsHighest_iff aggregateExact (by decide)).mpr (by decide)

end TwoChainTimeoutCertificate

end Liquent
