import Liquent.SafetyRules.Equivocation

/-!
# The validators of an epoch

Each honest validator of an epoch runs its own SafetyRules; the adversary chooses which call is made
next and with which arguments.  Byzantine validators have no state: they can sign anything.  The one
thing the adversary cannot do is to forge signatures of honest validators, so the certificates in
the arguments of a call may only contain signatures that honest validators handed out before
(`Genuine`, `GenuineTc`).

The invariant of such runs has a part about each validator's own history and safety data
(`LocalSound`) and a part about the certificates behind each vote (`VoteRecord`, `OrderRecord`).
-/

namespace Liquent.SafetyRules

open Misc

/-! ## The network -/

/-- The fixed data of an epoch: its number, its validators, the Byzantine ones among them, and the
genesis block. -/
structure EpochSetup where
  epoch : Nat
  verifier : ValidatorVerifier
  byzantine : Finset Author
  genesis : BlockData
  genesis_round : genesis.round = 0

def EpochSetup.Honest (E : EpochSetup) (a : Author) : Prop :=
  a ∈ E.verifier.members ∧ a ∉ E.byzantine

/-- The state of every honest validator and its exchanges so far. -/
structure Network where
  rules : Author → SafetyRules
  history : Author → List Exchange

/-- The message whose signature an exchange handed out. -/
def handedOut : Exchange → Option Message
  | (_, .vote vote) => some (.ledgerInfo vote.ledgerInfo)
  | ((_, .constructAndSignOrderVote _), .orderVote orderVote) =>
    some (.ledgerInfo orderVote.ledgerInfo)
  | ((_, .signTimeoutWithQc timeout _), .signature _) => some (.timeout timeout.signingFormat)
  | _ => none

/-- The order vote that an exchange handed out, with the proposal it is for. -/
def orderedIn : Exchange → Option (OrderVoteProposal × OrderVote)
  | ((_, .constructAndSignOrderVote proposal), .orderVote orderVote) => some (proposal, orderVote)
  | _ => none

/-- The validator has handed out a signature over the message. -/
def Network.Signed (net : Network) (a : Author) (m : Message) : Prop :=
  ∃ e ∈ net.history a, handedOut e = some m

section Genuine

variable [Crypto]

/-- If the signatures verify, then those of honest validators have been handed out. -/
def Genuine (E : EpochSetup) (net : Network) (li : LedgerInfoWithSignatures) : Prop :=
  li.verifySignatures E.verifier = .ok () →
    ∀ a ∈ E.verifier.signersOf li.signatures, E.Honest a →
      net.Signed a (.ledgerInfo li.ledgerInfo)

/-- If the signatures of a timeout certificate verify, then those of honest validators, each over
its own highest certified round, have been handed out. -/
def GenuineTc (E : EpochSetup) (net : Network) (tc : TwoChainTimeoutCertificate) : Prop :=
  Crypto.verifyAggregateSignatures E.verifier ((tc.timeoutMessages E.verifier).map .timeout)
      tc.signaturesWithRounds.sig = .ok () →
    ∀ a m, (a, m) ∈ (E.verifier.signersOf tc.signaturesWithRounds.sig).zip
        (tc.timeoutMessages E.verifier) →
      E.Honest a → net.Signed a (.timeout m)

/-- The block tree over the genesis: `BlockStore` inserts a block if its parent is in the tree and
its round is above the root's. -/
inductive InTree (genesis : BlockData) : BlockData → Prop
  | root : InTree genesis genesis
  | insert {p b : BlockData} (parent_mem : InTree genesis p) (parent_eq : b.parentId = p.hash)
      (round_gt : genesis.round < b.round) : InTree genesis b

/-- What the adversary may pass to the three signing calls: certificates of the epoch without forged
signatures, and blocks in the tree. -/
def Admissible (E : EpochSetup) (net : Network) : Call → Prop
  | .constructAndSignVoteTwoChain _ proposal maybeTc =>
    InTree E.genesis proposal.block.blockData ∧
      proposal.block.quorumCert.certifiedBlock.epoch = E.epoch ∧
      Genuine E net proposal.block.quorumCert.ledgerInfo ∧
      ∀ tc, maybeTc = some tc → tc.epoch = E.epoch ∧ GenuineTc E net tc
  | .signTimeoutWithQc timeout maybeTc =>
    timeout.quorumCert.certifiedBlock.epoch = E.epoch ∧
      Genuine E net timeout.quorumCert.ledgerInfo ∧
      ∀ tc, maybeTc = some tc → tc.epoch = E.epoch ∧ GenuineTc E net tc
  | .constructAndSignOrderVote proposal =>
    proposal.quorumCert.certifiedBlock.epoch = E.epoch ∧
      Genuine E net proposal.quorumCert.ledgerInfo
  | _ => False

end Genuine

variable [Crypto] [LedgerApi]

/-- One validator answers a call. -/
def Network.act (net : Network) (a : Author) (input : StorageFaults × Call) : Network where
  rules := Function.update net.rules a ((net.rules a).step input).2
  history := Function.update net.history a
    (net.history a ++ [(input, ((net.rules a).step input).1)])

theorem Network.act_rules_self (net : Network) (a : Author) (input : StorageFaults × Call) :
    (net.act a input).rules a = ((net.rules a).step input).2 :=
  Function.update_self ..

theorem Network.act_history_self (net : Network) (a : Author) (input : StorageFaults × Call) :
    (net.act a input).history a = net.history a ++ [(input, ((net.rules a).step input).1)] :=
  Function.update_self ..

variable {net : Network}

theorem Network.act_rules_of_ne {a b : Author} (h : b ≠ a)
    (input : StorageFaults × Call) : (net.act a input).rules b = net.rules b :=
  Function.update_of_ne h ..

theorem Network.act_history_of_ne {a b : Author} (h : b ≠ a)
    (input : StorageFaults × Call) : (net.act a input).history b = net.history b :=
  Function.update_of_ne h ..

/-- Any honest validator may receive any admissible call next. -/
inductive Network.Step (E : EpochSetup) : Network → Network → Prop
  | act {net : Network} (a : Author) (honest : E.Honest a) (faults : StorageFaults) (call : Call)
      (admissible : Admissible E net call) : Step E net (net.act a (faults, call))

/-- The validators at the start of the epoch: initialised for it, with nothing signed. -/
def Network.Initial (E : EpochSetup) (net : Network) : Prop :=
  ∀ a, E.Honest a → (net.rules a).stored = SafetyData.start E.epoch ∧ (net.rules a).CacheOk ∧
    (∃ es, (net.rules a).epochState = some es ∧ es.verifier = E.verifier) ∧ net.history a = []

/-- The networks that a run of the epoch can lead to. -/
def Network.Reachable (E : EpochSetup) (net : Network) : Prop :=
  ∃ net₀, Network.Initial E net₀ ∧ Relation.ReflTransGen (Network.Step E) net₀ net

/-! ## What one exchange establishes -/

variable {E : EpochSetup} {s : SafetyRules} {history : List Exchange} {net' : Network}

section Records

omit [LedgerApi]

/-- The proposal and the certificates behind a vote that was handed out. -/
structure VoteRecord (E : EpochSetup) (net : Network) (proposal : VoteProposal)
    (maybeTc : Option TwoChainTimeoutCertificate) (v : Vote) : Prop where
  voteData_eq : v.voteData = voteDataOf proposal
  ledgerInfo_eq : v.ledgerInfo =
    LedgerInfo.new (commitInfoOf proposal.block) (voteDataOf proposal).hash
  epoch_eq : proposal.block.epoch = E.epoch
  accepted : proposal.block.Accepted E.verifier
  rule : VoteRule proposal.block maybeTc
  inTree : InTree E.genesis proposal.block.blockData
  genuine : Genuine E net proposal.block.quorumCert.ledgerInfo
  tc : ∀ tc, maybeTc = some tc → tc.verify E.verifier = .ok () ∧ GenuineTc E net tc

/-- The certificate behind an order vote that was handed out. -/
structure OrderRecord (E : EpochSetup) (net : Network) (proposal : OrderVoteProposal)
    (orderVote : OrderVote) : Prop where
  ledgerInfo_eq : orderVote.ledgerInfo = LedgerInfo.new proposal.blockInfo HashValue.zero
  certified_eq : proposal.quorumCert.certifiedBlock = proposal.blockInfo
  id_eq : proposal.quorumCert.certifiedBlock.id = proposal.block.id
  qc_verify : proposal.quorumCert.verify E.verifier = .ok ()
  genuine : Genuine E net proposal.quorumCert.ledgerInfo
  round_pos : 0 < proposal.block.round

/-- What an exchange of an honest validator hands out, and how it moves the safety data. -/
structure Signs (E : EpochSetup) (net : Network) (d : SafetyData) (e : Exchange)
    (d' : SafetyData) : Prop where
  le : d.Le d'
  epoch_eq : d'.epoch = d.epoch
  /-- A vote is repeated or stands above all rounds voted or given up before. -/
  vote : ∀ v, votedIn e = some v → d.lastVote = some v ∨
    (d.lastVotedRound < v.round ∧ v.voteData.parent.round ≤ d'.oneChainRound ∧
      ∃ proposal maybeTc, VoteRecord E net proposal maybeTc v)
  order : ∀ p o, orderedIn e = some (p, o) → d.highestTimeoutRound < p.block.round ∧
    p.blockInfo.round ≤ d'.oneChainRound ∧ OrderRecord E net p o
  timeout : ∀ t, timedOutIn e = some t → d.oneChainRound ≤ t.hqcRound ∧
    t.round ≤ d'.lastVotedRound ∧ t.round ≤ d'.highestTimeoutRound

variable {e : Exchange}

theorem Signs.silent {d d' : SafetyData}
    (hle : d.Le d') (hepoch : d'.epoch = d.epoch) (hvote : votedIn e = none)
    (horder : orderedIn e = none) (htimeout : timedOutIn e = none) : Signs E net d e d' where
  le := hle
  epoch_eq := hepoch
  vote := by simp [hvote]
  order := by simp [horder]
  timeout := by simp [htimeout]

theorem Signs.unchanged {d d' : SafetyData}
    (h : d' = d) (hvote : votedIn e = none) (horder : orderedIn e = none)
    (htimeout : timedOutIn e = none) : Signs E net d e d' := by
  rw [h]
  exact .silent (SafetyData.Le.refl _) rfl hvote horder htimeout

/-- An honest validator that has been initialised for the epoch. -/
structure Ready (E : EpochSetup) (s : SafetyRules) : Prop where
  cache : s.CacheOk
  epoch_eq : s.stored.epoch = E.epoch
  verifier : ∃ es, s.epochState = some es ∧ es.verifier = E.verifier

omit [Crypto] in
theorem Ready.verifier_eq (h : Ready E s) {es : EpochState}
    (hes : s.epochState = some es) : es.verifier = E.verifier := by
  obtain ⟨es', hes', hverifier⟩ := h.verifier
  cases hes.symm.trans hes'
  exact hverifier

variable {maybeTc : Option TwoChainTimeoutCertificate} {faults : StorageFaults}

theorem VoteCall.signs {now : Nat} {proposal : VoteProposal}
    {r : EStateM.Result Error SafetyRules Vote} (h : VoteCall s proposal maybeTc r)
    (hready : Ready E s)
    (hadmissible : Admissible E net (.constructAndSignVoteTwoChain now proposal maybeTc)) :
    Signs E net s.stored
      ((faults, .constructAndSignVoteTwoChain now proposal maybeTc), (respond .vote r).1)
      (finalState r).stored := by
  obtain ⟨htree, -, hgenuine, htc⟩ := hadmissible
  cases h with
  | stopped reads | writeFailed reads => exact .unchanged reads.stored rfl rfl rfl
  | repeated reads last =>
    rw [finalState_ok, reads.stored]
    refine ⟨SafetyData.Le.refl _, rfl, ?_, by simp [orderedIn], by simp [timedOutIn]⟩
    rintro v ⟨⟩
    exact .inl last
  | issued reads fresh =>
    refine ⟨fresh.le, ?_, ?_, by simp [orderedIn], by simp [timedOutIn]⟩
    · rw [finalState_ok, setStored_stored, fresh.data_eq]
      rfl
    · rintro v ⟨⟩
      refine .inr ⟨?_, ?_, proposal, maybeTc, ?_⟩
      · rw [Vote.round, fresh.voteData_eq]
        exact fresh.round_gt
      · rw [finalState_ok, setStored_stored, fresh.data_eq, fresh.voteData_eq]
        exact Nat.le_max_right _ _
      · have hverifier := hready.verifier_eq fresh.epochState_eq
        exact
          { voteData_eq := fresh.voteData_eq
            ledgerInfo_eq := fresh.ledgerInfo_eq
            epoch_eq := fresh.epoch_eq.trans hready.epoch_eq
            accepted := hverifier ▸ fresh.accepted
            rule := fresh.rule
            inTree := htree
            genuine := hgenuine
            tc := fun tc h => ⟨hverifier ▸ fresh.tc_verify tc h, (htc tc h).2⟩ }

variable {r : EStateM.Result Error SafetyRules Signature} {timeout : TwoChainTimeout}

theorem TimeoutCall.signs (h : TimeoutCall s timeout maybeTc r) :
    Signs E net s.stored ((faults, .signTimeoutWithQc timeout maybeTc), (respond .signature r).1)
      (finalState r).stored := by
  cases h with
  | stopped reads | writeFailed reads => exact .unchanged reads.stored rfl rfl rfl
  | signFailed reads fresh =>
    refine .silent fresh.le ?_ rfl rfl rfl
    rw [finalState_error, setStored_stored, fresh.data_eq]
    rfl
  | issued reads fresh =>
    refine ⟨fresh.le, ?_, by simp [votedIn, respond], by simp [orderedIn], ?_⟩
    · rw [finalState_ok, setStored_stored, fresh.data_eq]
      rfl
    · rintro t ⟨⟩
      rw [finalState_ok, setStored_stored, fresh.data_eq]
      exact ⟨fresh.rule.2, Nat.le_refl _, Nat.le_max_right _ _⟩

variable {proposal : OrderVoteProposal}

theorem OrderVoteCall.signs
    {r : EStateM.Result Error SafetyRules OrderVote} (h : OrderVoteCall s proposal r)
    (hready : Ready E s) (hadmissible : Admissible E net (.constructAndSignOrderVote proposal)) :
    Signs E net s.stored ((faults, .constructAndSignOrderVote proposal), (respond .orderVote r).1)
      (finalState r).stored := by
  cases h with
  | stopped reads | writeFailed reads => exact .unchanged reads.stored rfl rfl rfl
  | issued reads fresh =>
    refine ⟨fresh.le, ?_, by simp [votedIn, respond], ?_, by simp [timedOutIn]⟩
    · rw [finalState_ok, setStored_stored, fresh.data_eq]
      rfl
    · rintro p o ⟨⟩
      refine ⟨fresh.round_gt, ?_, ?_⟩
      · rw [finalState_ok, setStored_stored, fresh.data_eq, ← fresh.certified_eq]
        exact Nat.le_max_right _ _
      · exact
          { ledgerInfo_eq := fresh.ledgerInfo_eq
            certified_eq := fresh.certified_eq
            id_eq := fresh.id_eq
            qc_verify := hready.verifier_eq fresh.epochState_eq ▸ fresh.qc_verify
            genuine := hadmissible.2
            round_pos := Nat.lt_of_le_of_lt (Nat.zero_le _) fresh.round_gt }

theorem VoteCall.epochState {proposal : VoteProposal} {r : EStateM.Result Error SafetyRules Vote}
    (h : VoteCall s proposal maybeTc r) : (finalState r).epochState = s.epochState := by
  cases h with
  | stopped reads | repeated reads | writeFailed reads | issued reads => exact reads.epochState

theorem TimeoutCall.epochState
    (h : TimeoutCall s timeout maybeTc r) : (finalState r).epochState = s.epochState := by
  cases h with
  | stopped reads | writeFailed reads | signFailed reads | issued reads => exact reads.epochState

theorem OrderVoteCall.epochState
    {r : EStateM.Result Error SafetyRules OrderVote} (h : OrderVoteCall s proposal r) :
    (finalState r).epochState = s.epochState := by
  cases h with
  | stopped reads | writeFailed reads | issued reads => exact reads.epochState

/-! ## The history of one validator -/

variable {t : TwoChainTimeout}

omit [Crypto] in
theorem votedIn_none_of_timedOut (h : timedOutIn e = some t) : votedIn e = none := by
  obtain ⟨⟨faults, call⟩, response⟩ := e
  cases call <;> cases response <;> first | rfl | cases h

omit [Crypto] in
theorem orderedIn_none_of_timedOut (h : timedOutIn e = some t) : orderedIn e = none := by
  obtain ⟨⟨faults, call⟩, response⟩ := e
  cases call <;> cases response <;> first | rfl | cases h

/-- A validator's votes, order votes and timeouts of one epoch: what it voted for or ordered is
covered by the one-chain round, and so by the highest certified round it reports when it gives up a
round. -/
structure LocalSound (history : List Exchange) (d : SafetyData) : Prop where
  vote_le : ∀ v ∈ votes history, v.voteData.parent.round ≤ d.oneChainRound
  order_le : ∀ e ∈ history, ∀ p o, orderedIn e = some (p, o) → p.blockInfo.round ≤ d.oneChainRound
  timeout_le : ∀ e ∈ history, ∀ t, timedOutIn e = some t →
    t.round ≤ d.lastVotedRound ∧ t.round ≤ d.highestTimeoutRound
  vote_timeout : ∀ v ∈ votes history, ∀ e ∈ history, ∀ t, timedOutIn e = some t →
    v.round ≤ t.round → v.voteData.parent.round ≤ t.hqcRound
  order_timeout : ∀ x ∈ history, ∀ p o, orderedIn x = some (p, o) →
    ∀ e ∈ history, ∀ t, timedOutIn e = some t →
      p.block.round ≤ t.round → p.blockInfo.round ≤ t.hqcRound

omit [Crypto] in
theorem LocalSound.start (epoch : Nat) : LocalSound [] (SafetyData.start epoch) := by
  constructor <;> simp [votes]

omit [Crypto] in
theorem mem_append_singleton {x : Exchange} (h : x ∈ history ++ [e]) : x ∈ history ∨ x = e := by
  simpa using h

omit [Crypto] in
theorem mem_votes_append {v : Vote}
    (h : v ∈ votes (history ++ [e])) : v ∈ votes history ∨ votedIn e = some v := by
  rw [votes_append, List.mem_append, mem_votes_singleton] at h
  exact h

theorem LocalSound.signs
    {d d' : SafetyData} (h : LocalSound history d) (hhistory : History history d)
    (hsigns : Signs E net d e d') : LocalSound (history ++ [e]) d' := by
  have hmono : d.lastVotedRound ≤ d'.lastVotedRound ∧ d.oneChainRound ≤ d'.oneChainRound ∧
      d.highestTimeoutRound ≤ d'.highestTimeoutRound := by
    have hle := hsigns.le
    have hepoch := hsigns.epoch_eq
    unfold SafetyData.Le at hle
    omega
  -- a vote handed out again is in the history already
  have hvote : ∀ v, v ∈ votes (history ++ [e]) → v ∈ votes history ∨
      (votedIn e = some v ∧ d.lastVotedRound < v.round ∧
        v.voteData.parent.round ≤ d'.oneChainRound) := by
    intro v hv
    rcases mem_votes_append hv with hv | hv
    · exact .inl hv
    · rcases hsigns.vote v hv with hlast | ⟨hround, hparent, -⟩
      · exact .inl (hhistory.last_mem v hlast).1
      · exact .inr ⟨hv, hround, hparent⟩
  refine ⟨?_, ?_, ?_, ?_, ?_⟩
  · intro v hv
    rcases hvote v hv with hv | ⟨-, -, hparent⟩
    · exact Nat.le_trans (h.vote_le v hv) hmono.2.1
    · exact hparent
  · intro x hx p o hp
    rcases mem_append_singleton hx with hx | rfl
    · exact Nat.le_trans (h.order_le x hx p o hp) hmono.2.1
    · exact (hsigns.order p o hp).2.1
  · intro x hx t ht
    rcases mem_append_singleton hx with hx | rfl
    · have := h.timeout_le x hx t ht
      omega
    · exact (hsigns.timeout t ht).2
  · intro v hv x hx t ht hround
    rcases mem_append_singleton hx with hx | rfl
    · rcases hvote v hv with hv | ⟨-, hgt, -⟩
      · exact h.vote_timeout v hv x hx t ht hround
      · have := h.timeout_le x hx t ht
        omega
    · rcases hvote v hv with hv | ⟨hv, -⟩
      · exact Nat.le_trans (h.vote_le v hv) (hsigns.timeout t ht).1
      · simp [votedIn_none_of_timedOut ht] at hv
  · intro x hx p o hp y hy t ht hround
    rcases mem_append_singleton hy with hold | rfl
    · rcases mem_append_singleton hx with hx | rfl
      · exact h.order_timeout x hx p o hp y hold t ht hround
      · have := (hsigns.order p o hp).1
        have := h.timeout_le y hold t ht
        omega
    · rcases mem_append_singleton hx with hx | rfl
      · exact Nat.le_trans (h.order_le x hx p o hp) (hsigns.timeout t ht).1
      · simp [orderedIn_none_of_timedOut ht] at hp

/-! ## The invariant -/

/-- Nothing that was signed is forgotten. -/
def Network.Extends (net net' : Network) : Prop := ∀ a m, net.Signed a m → net'.Signed a m

section

variable (hext : net.Extends net')

include hext

theorem Genuine.extend {li : LedgerInfoWithSignatures} (h : Genuine E net li) : Genuine E net' li :=
  fun hverify a ha hhonest => hext a _ (h hverify a ha hhonest)

theorem GenuineTc.extend {tc : TwoChainTimeoutCertificate}
    (h : GenuineTc E net tc) : GenuineTc E net' tc :=
  fun hverify a m ha hhonest => hext a _ (h hverify a m ha hhonest)

theorem Admissible.extend {call : Call} (h : Admissible E net call) : Admissible E net' call := by
  cases call with
  | constructAndSignVoteTwoChain now proposal maybeTc =>
    obtain ⟨htree, hepoch, hgenuine, htc⟩ := h
    exact ⟨htree, hepoch, hgenuine.extend hext, fun tc h =>
      ⟨(htc tc h).1, (htc tc h).2.extend hext⟩⟩
  | signTimeoutWithQc timeout maybeTc =>
    obtain ⟨hepoch, hgenuine, htc⟩ := h
    exact ⟨hepoch, hgenuine.extend hext, fun tc h => ⟨(htc tc h).1, (htc tc h).2.extend hext⟩⟩
  | constructAndSignOrderVote proposal => exact ⟨h.1, h.2.extend hext⟩
  | _ => exact h

theorem VoteRecord.extend {proposal : VoteProposal} {v : Vote}
    (h : VoteRecord E net proposal maybeTc v) : VoteRecord E net' proposal maybeTc v :=
  { h with
    genuine := h.genuine.extend hext
    tc := fun tc htc => ⟨(h.tc tc htc).1, (h.tc tc htc).2.extend hext⟩ }

theorem OrderRecord.extend {orderVote : OrderVote}
    (h : OrderRecord E net proposal orderVote) : OrderRecord E net' proposal orderVote :=
  { h with genuine := h.genuine.extend hext }

end

/-- The invariant of one validator of the network. -/
structure ValidatorSound (E : EpochSetup) (net : Network) (s : SafetyRules)
    (history : List Exchange) : Prop where
  ready : Ready E s
  past : History history s.stored
  localSound : LocalSound history s.stored
  vote : ∀ v ∈ votes history, ∃ proposal maybeTc, VoteRecord E net proposal maybeTc v
  order : ∀ e ∈ history, ∀ p o, orderedIn e = some (p, o) → OrderRecord E net p o

theorem ValidatorSound.extend (hext : net.Extends net') (h : ValidatorSound E net s history) :
    ValidatorSound E net' s history :=
  { h with
    vote := by
      intro v hv
      obtain ⟨proposal, maybeTc, hrecord⟩ := h.vote v hv
      exact ⟨proposal, maybeTc, hrecord.extend hext⟩
    order := fun e he p o hp => (h.order e he p o hp).extend hext }

end Records

/-- The invariant of the network: every honest validator is sound. -/
def Network.Sound (E : EpochSetup) (net : Network) : Prop :=
  ∀ a, E.Honest a → ValidatorSound E net (net.rules a) (net.history a)

omit [LedgerApi] in
theorem Network.Initial.sound (h : net.Initial E) :
    net.Sound E := by
  intro a ha
  obtain ⟨hstored, hcache, hverifier, hhistory⟩ := h a ha
  rw [hhistory]
  refine ⟨⟨hcache, by rw [hstored]; rfl, hverifier⟩, ?_, ?_, by simp [votes], by simp⟩
  · rw [hstored]
    exact History.start E.epoch
  · rw [hstored]
    exact LocalSound.start E.epoch

theorem Network.extends_act (net : Network) (a : Author) (input : StorageFaults × Call) :
    net.Extends (net.act a input) := by
  rintro b m ⟨e, he, hm⟩
  refine ⟨e, ?_, hm⟩
  by_cases hb : b = a
  · rw [hb, Network.act_history_self]
    exact List.mem_append_left _ (hb ▸ he)
  · rw [Network.act_history_of_ne hb]
    exact he

variable {call : Call}

/-- The three signing calls keep the epoch's validators. -/
theorem step_epochState (hcache : s.CacheOk)
    (faults : StorageFaults) (hadmissible : Admissible E net call) :
    (s.step (faults, call)).2.epochState = s.epochState := by
  cases call with
  | constructAndSignVoteTwoChain now proposal maybeTc =>
    rw [step, respond_snd]
    exact (voteCall hcache faults now proposal maybeTc).epochState
  | signTimeoutWithQc timeout maybeTc =>
    rw [step, respond_snd]
    exact (timeoutCall hcache faults timeout maybeTc).epochState
  | constructAndSignOrderVote proposal =>
    rw [step, respond_snd]
    exact (orderVoteCall hcache faults proposal).epochState
  | _ => exact hadmissible.elim

theorem step_signs (hready : Ready E s)
    (faults : StorageFaults) (hadmissible : Admissible E net call) :
    Signs E net s.stored ((faults, call), (s.step (faults, call)).1)
      (s.step (faults, call)).2.stored := by
  cases call with
  | constructAndSignVoteTwoChain now proposal maybeTc =>
    rw [step, respond_snd]
    exact (voteCall hready.cache faults now proposal maybeTc).signs hready hadmissible
  | signTimeoutWithQc timeout maybeTc =>
    rw [step, respond_snd]
    exact (timeoutCall hready.cache faults timeout maybeTc).signs
  | constructAndSignOrderVote proposal =>
    rw [step, respond_snd]
    exact (orderVoteCall hready.cache faults proposal).signs hready hadmissible
  | _ => exact hadmissible.elim

theorem ValidatorSound.step (h : ValidatorSound E net s history) (faults : StorageFaults)
    (hadmissible : Admissible E net call) :
    ValidatorSound E net (s.step (faults, call)).2
      (history ++ [((faults, call), (s.step (faults, call)).1)]) := by
  have hsigns := step_signs h.ready faults hadmissible
  refine ⟨⟨?_, ?_, ?_⟩, ?_, h.localSound.signs h.past hsigns, ?_, ?_⟩
  · exact (step_advances s (faults, call) h.ready.cache).1
  · exact hsigns.epoch_eq.trans h.ready.epoch_eq
  · rw [step_epochState h.ready.cache faults hadmissible]
    exact h.ready.verifier
  · exact h.past.effect (step_effect h.ready.cache (faults, call))
  · intro v hv
    rcases mem_votes_append hv with hv | hv
    · exact h.vote v hv
    · rcases hsigns.vote v hv with hlast | ⟨-, -, hrecord⟩
      · exact h.vote v (h.past.last_mem v hlast).1
      · exact hrecord
  · intro x hx p o hp
    rcases mem_append_singleton hx with hx | rfl
    · exact h.order x hx p o hp
    · exact (hsigns.order p o hp).2.2

theorem Network.Sound.step (h : net.Sound E) (hstep : Network.Step E net net') : net'.Sound E := by
  obtain ⟨a, hhonest, faults, call, hadmissible⟩ := hstep
  intro b hb
  have hext := net.extends_act a (faults, call)
  by_cases hba : b = a
  · subst hba
    rw [Network.act_rules_self, Network.act_history_self]
    exact ((h b hb).step faults hadmissible).extend hext
  · rw [Network.act_rules_of_ne hba, Network.act_history_of_ne hba]
    exact (h b hb).extend hext

theorem Network.Reachable.sound (h : net.Reachable E) :
    net.Sound E := by
  obtain ⟨net₀, hinitial, hsteps⟩ := h
  induction hsteps with
  | refl => exact hinitial.sound
  | tail _ hstep ih => exact ih.step hstep

end Liquent.SafetyRules
