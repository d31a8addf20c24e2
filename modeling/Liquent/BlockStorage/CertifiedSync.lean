import Liquent.BlockStorage.SyncManager

/-!
# What synchronisation stores

Every ledger info and certificate that a synchronisation stores should carry the signatures of a
quorum of its epoch.  The forward path checks this of each page.  The backward paths check the chain
of blocks, and with it the certificates inside them, but neither the ledger infos of a response nor,
when an epoch is fetched, its certificates; an answer to a request from the zero identifier is not
checked at all.  `Answers` says what peers must do on their own for the stored data to be certified.
-/

namespace Liquent

open Misc

namespace SyncManager

open BlockStore

variable {lis : List LedgerInfoWithSignatures} {quorumCerts : List QuorumCert}

section Certified

variable [Crypto] (validators : Nat → ValidatorVerifier)

/-- The signatures of a ledger info verify for the validators of its epoch. -/
def CertifiedLi (li : LedgerInfoWithSignatures) : Prop :=
  li.verifySignatures (validators li.ledgerInfo.commitInfo.epoch) = .ok ()

/-- A certificate is that of a genesis block, or its signatures verify for the validators of its
epoch: that of the certified block, since the commit info may be empty. -/
def CertifiedQc (qc : QuorumCert) : Prop :=
  qc.certifiedBlock.round ≠ 0 →
    qc.ledgerInfo.verifySignatures (validators qc.certifiedBlock.epoch) = .ok ()

/-- All that is stored is certified. -/
structure CertifiedDb (db : ConsensusDb) : Prop where
  ledgerInfos : ∀ e ∈ db.ledgerInfos, CertifiedLi validators e.2
  latest : ∀ li ∈ db.latestLedgerInfo, CertifiedLi validators li
  quorumCerts : ∀ e ∈ db.quorumCerts, CertifiedQc validators e.2

variable {validators} {db : ConsensusDb} (h : CertifiedDb validators db)

include h

theorem CertifiedDb.saveTree
    (hqcs : ∀ qc ∈ quorumCerts, CertifiedQc validators qc) (blocks : List Block)
    (numbers : List (Nat × Nat × HashValue)) :
    CertifiedDb validators (db.saveTree blocks quorumCerts numbers) :=
  { h with
    quorumCerts := Table.forall_mem_putAll h.quorumCerts (List.forall_mem_map.mpr hqcs) }

theorem CertifiedDb.putLedgerInfos [LedgerApi] (hlis : ∀ li ∈ lis, CertifiedLi validators li) :
    CertifiedDb validators (db.putLedgerInfos lis) := by
  induction lis generalizing db with
  | nil => exact h
  | cons li rest ih =>
    obtain ⟨hli, hrest⟩ := List.forall_mem_cons.mp hlis
    exact ih { h with ledgerInfos := Table.forall_mem_put h.ledgerInfos hli } hrest

theorem CertifiedDb.updateLatestLedgerInfo : CertifiedDb validators db.updateLatestLedgerInfo where
  ledgerInfos := h.ledgerInfos
  latest li hli := by
    obtain ⟨e, he, rfl⟩ := Option.map_eq_some_iff.mp hli
    exact h.ledgerInfos e (Table.mem_of_last he)
  quorumCerts := h.quorumCerts

theorem CertifiedDb.putRandomness
    (values : List (Nat × List UInt8)) : CertifiedDb validators (db.putRandomness values) :=
  { h with }

end Certified

/-! ## What peers answer -/

section Answers

variable [Crypto] (validators : Nat → ValidatorVerifier) (cfg : NodeConfig)

/-- What the node does not check of an answer that it keeps. -/
structure HonestResponse (request : BlockRetrievalRequest) (r : BlockRetrievalResponse) : Prop where
  ledgerInfos : ∀ li ∈ r.ledgerInfos, CertifiedLi validators li
  /-- The certificates beside the blocks are stored only when an epoch is fetched. -/
  quorumCerts : request.epoch ≠ none → ∀ qc ∈ r.quorumCerts, CertifiedQc validators qc
  epoch : request.epoch = none → ∀ b ∈ r.blocks, b.block.epoch = cfg.epoch
  unchecked : request.epoch = none → request.blockId = HashValue.zero →
    ∀ b ∈ r.blocks, CertifiedQc validators b.block.quorumCert

/-- What the node does not check of a page of a forward sync. -/
def HonestPage (batch : ForwardEpochSyncBatch) : Prop :=
  ∀ r ∈ batch.records, r.quorumCert.certifiedBlock.epoch = batch.epoch

/-- The answers are honest where they are not checked. -/
structure Answers (env : Environment) : Prop where
  retrieval : ∀ peer ∈ env.retrieval, ∀ request now r, peer request = some (now, r) →
    HonestResponse validators cfg request r
  forward : ∀ now batch, some (now, .batch batch) ∈ env.forward → HonestPage batch

/-- The invariant of a synchronisation. -/
structure Certified (s : NodeState) : Prop where
  db : CertifiedDb validators s.db
  answers : Answers validators cfg s.env

variable {validators cfg}

theorem Certified.of_sameCerts {s s' : NodeState} (h : Certified validators cfg s)
    (hsame : SameCerts s s') : Certified validators cfg s' where
  db := by
    refine ⟨?_, ?_, ?_⟩
    · rw [hsame.ledgerInfos]
      exact h.db.ledgerInfos
    · rw [hsame.latest]
      exact h.db.latest
    · rw [hsame.quorumCerts]
      exact h.db.quorumCerts
  answers := by
    refine ⟨?_, ?_⟩
    · rw [hsame.retrieval]
      exact h.answers.retrieval
    · rw [hsame.forward]
      exact h.answers.forward

theorem keeps_of_sameCerts {α : Type} {x : Sync α} (h : Moves SameCerts x) :
    Keeps (Certified validators cfg) x fun _ => True :=
  h.keeps fun _ _ hsame hs => hs.of_sameCerts hsame

theorem keeps_withDb {f : ConsensusDb → ConsensusDb}
    (h : ∀ db, CertifiedDb validators db → CertifiedDb validators (f db)) :
    Keeps (Certified validators cfg) (modify (·.withDb f) : Sync Unit) fun _ => True :=
  keeps_modify fun s hs => ⟨h s.db hs.db, hs.answers⟩

end Answers

/-! ## What the retriever returns -/

variable {v : ValidatorVerifier} {attempts now : Nat}

section Retriever

variable [Crypto] {validators : Nat → ValidatorVerifier} {cfg : NodeConfig}

theorem verifyChain_accepted {id : HashValue}
    {blocks : List RetrievedBlock} (h : verifyChain v now id blocks = .ok ()) :
    ∀ b ∈ blocks, b.block.Accepted v := by
  induction blocks generalizing id with
  | nil => exact List.forall_mem_nil _
  | cons head rest ih =>
    simp only [verifyChain, except_seq_ok_iff] at h
    obtain ⟨-, hsig, hform, hrest⟩ := h
    exact List.forall_mem_cons.mpr ⟨Block.accepted_of_verify hsig hform, ih hrest⟩

variable {request : BlockRetrievalRequest}

/-- A response that is kept comes unchanged from a peer, and its blocks were checked unless asked
for from the zero identifier. -/
theorem requestBlock_ok
    {r r' : BlockRetrievalResponse} (h : requestBlock v request now r = .ok r') :
    r' = r ∧ (request.blockId ≠ HashValue.zero → ∀ b ∈ r.blocks, b.block.Accepted v) := by
  unfold requestBlock at h
  by_cases hzero : request.blockId = HashValue.zero
  · simp only [hzero, ne_eq, not_true, if_false, except_pure_ok_iff] at h
    exact ⟨h.symm, fun hne => absurd hzero hne⟩
  · simp only [ne_eq, hzero, not_false_eq_true, if_true, except_seq_ok_iff,
      except_pure_ok_iff, BlockRetrievalResponse.verify] at h
    obtain ⟨⟨-, hchain⟩, heq⟩ := h
    exact ⟨heq.symm, fun _ => verifyChain_accepted hchain⟩

theorem firstAccepted_rest {peers : List Peer} :
    ∀ peer ∈ (firstAccepted v request attempts peers).2, peer ∈ peers := by
  fun_induction firstAccepted v request attempts peers with
  | case1 peers | case2 => exact fun _ h => h
  | case3 attempts peer rest hnone ih => exact fun q hq => List.mem_cons_of_mem _ (ih q hq)
  | case4 attempts peer rest now response hsome accepted hok =>
    exact fun q hq => List.mem_cons_of_mem _ hq
  | case5 attempts peer rest now response hsome e herr ih =>
    exact fun q hq => List.mem_cons_of_mem _ (ih q hq)

theorem firstAccepted_some {peers : List Peer} {r : BlockRetrievalResponse}
    (h : (firstAccepted v request attempts peers).1 = some r) :
    ∃ peer ∈ peers, ∃ now r₀, peer request = some (now, r₀) ∧
      requestBlock v request now r₀ = .ok r := by
  fun_induction firstAccepted v request attempts peers with
  | case1 peers | case2 => cases h
  | case3 attempts peer rest hnone ih | case5 attempts peer rest now response hsome e herr ih =>
    obtain ⟨q, hq, hanswer⟩ := ih h
    exact ⟨q, List.mem_cons_of_mem _ hq, hanswer⟩
  | case4 attempts peer rest now response hsome accepted hok =>
    obtain rfl : accepted = r := Option.some.inj h
    exact ⟨peer, List.mem_cons_self, now, response, hsome, hok⟩

/-- A block of the node's epoch that was checked carries a certified certificate. -/
theorem certifiedQc_of_accepted (hcfg : cfg.validators = validators cfg.epoch) {b : Block}
    (h : b.Accepted cfg.validators) (hepoch : b.epoch = cfg.epoch) :
    CertifiedQc validators b.quorumCert := by
  intro hround
  have hsigned := QuorumCert.signed_of_verify h.quorumCert hround
  rw [h.parent_epoch_eq, hepoch, ← hcfg]
  exact hsigned.signatures

variable (validators) in
/-- What is fetched, for a request that names an epoch or does not. -/
structure HonestRetrieved (epoch : Option Nat) (r : Retrieved) : Prop where
  ledgerInfos : ∀ li ∈ r.ledgerInfos, CertifiedLi validators li
  quorumCerts : epoch ≠ none → ∀ qc ∈ r.quorumCerts, CertifiedQc validators qc
  blocks : epoch = none → ∀ b ∈ r.blocks, CertifiedQc validators b.block.quorumCert

theorem HonestRetrieved.append {epoch : Option Nat} {a b : Retrieved}
    (ha : HonestRetrieved validators epoch a) (hb : HonestRetrieved validators epoch b) :
    HonestRetrieved validators epoch (a.append b) where
  ledgerInfos := List.forall_mem_append.mpr ⟨ha.ledgerInfos, hb.ledgerInfos⟩
  quorumCerts he := List.forall_mem_append.mpr ⟨ha.quorumCerts he, hb.quorumCerts he⟩
  blocks he := List.forall_mem_append.mpr ⟨ha.blocks he, hb.blocks he⟩

variable (hcfg : cfg.validators = validators cfg.epoch)

include hcfg

theorem retrieveChunk_keeps (request : BlockRetrievalRequest) :
    Keeps (Certified validators cfg) (retrieveChunk cfg request)
      fun r => HonestRetrieved validators request.epoch (Retrieved.ofResponse r) := by
  refine keeps_get.bind fun s hs => ?_
  have hmodify : Keeps (Certified validators cfg) (modify fun s => { s with env := { s.env with
      retrieval := (firstAccepted cfg.validators request numRetries s.env.retrieval).2 } } :
      Sync Unit) fun _ => True :=
    keeps_modify fun s hs => ⟨hs.db,
      fun peer hpeer => hs.answers.retrieval peer (firstAccepted_rest peer hpeer),
      hs.answers.forward⟩
  refine hmodify.bind fun _ _ => ?_
  cases hfirst : (firstAccepted cfg.validators request numRetries s.env.retrieval).1 with
  | none => exact keeps_throw _
  | some r =>
    obtain ⟨peer, hpeer, now, r₀, hanswer, hkept⟩ := firstAccepted_some hfirst
    obtain ⟨rfl, hchecked⟩ := requestBlock_ok hkept
    have hhonest := hs.answers.retrieval peer hpeer request now _ hanswer
    refine keeps_pure ⟨hhonest.ledgerInfos, hhonest.quorumCerts, fun hnone b hb => ?_⟩
    by_cases hzero : request.blockId = HashValue.zero
    · exact hhonest.unchecked hnone hzero b hb
    · exact certifiedQc_of_accepted hcfg (hchecked hzero b hb) (hhonest.epoch hnone b hb)

theorem retrieveLoop_keeps (start target : HashValue)
    (epoch : Option Nat) (fuel remaining : Nat) (lastId : HashValue) (batchSize : Nat) :
    Keeps (Certified validators cfg)
      (retrieveLoop cfg start target epoch fuel remaining lastId batchSize)
      (HonestRetrieved validators epoch) := by
  induction fuel generalizing remaining lastId batchSize with
  | zero => exact keeps_throw _
  | succ fuel ih =>
    unfold retrieveLoop
    split
    · exact keeps_pure ⟨by simp, by simp, by simp⟩
    · refine (retrieveChunk_keeps hcfg _).bind fun r hr => ?_
      cases r.status with
      | succeeded =>
        refine keeps_check.bind fun next _ => ?_
        exact (ih _ _ _).bind fun others hothers => keeps_pure (hr.append hothers)
      | succeededWithTarget => exact keeps_pure hr
      | idNotFound | notEnoughBlocks | quorumCertNotFound => exact keeps_throw _

theorem retrieveBlockForId_keeps (id target : HashValue) (numBlocks : Nat) (epoch : Option Nat) :
    Keeps (Certified validators cfg) (retrieveBlockForId cfg id target numBlocks epoch)
      (HonestRetrieved validators epoch) :=
  keeps_get.bind fun _ _ => retrieveLoop_keeps hcfg _ _ _ _ _ _ _

theorem retrieveBlockByEpoch_keeps (epoch : Nat) (target : HashValue) :
    Keeps (Certified validators cfg) (retrieveBlockByEpoch cfg epoch target)
      (HonestRetrieved validators (some epoch)) := by
  refine (retrieveChunk_keeps hcfg _).bind fun r hr => ?_
  cases r.status with
  | succeeded =>
    refine keeps_check.bind fun next _ => ?_
    exact (retrieveBlockForId_keeps hcfg _ _ _ _).bind fun others hothers =>
      keeps_pure (hr.append hothers)
  | succeededWithTarget => exact keeps_pure hr
  | idNotFound | notEnoughBlocks | quorumCertNotFound => exact keeps_throw _

end Retriever

/-! ## Each path keeps the invariant -/

section Paths

variable [Crypto] [LedgerApi] {validators : Nat → ValidatorVerifier} {cfg : NodeConfig}

omit [LedgerApi] in
theorem saveBlocks_keeps (blocks : List RetrievedBlock)
    (hqcs : ∀ qc ∈ quorumCerts, CertifiedQc validators qc) :
    Keeps (Certified validators cfg) (saveBlocks blocks quorumCerts) fun _ => True := by
  refine keeps_check.bind fun _ _ => ?_
  refine (keeps_withDb fun db h => h.saveTree hqcs _ _).bind fun _ _ => ?_
  refine keeps_check.bind fun values _ => ?_
  exact keeps_withDb fun db h => h.putRandomness values

theorem insertSingleQuorumCert_keeps {qc : QuorumCert} (hqc : CertifiedQc validators qc) :
    Keeps (Certified validators cfg) (insertSingleQuorumCert qc false) fun _ => True := by
  refine keeps_get.bind fun s _ => keeps_check.bind fun _ _ => ?_
  refine keeps_check.bind fun _ _ => ?_
  have hstore : Keeps (Certified validators cfg) (storeCert qc false) fun _ => True :=
    keeps_withDb fun db h => h.saveTree (by simpa using hqc) [] []
  exact hstore.bind fun _ _ => keeps_modify fun s hs => ⟨hs.db, hs.answers⟩

theorem putLedgerInfos_keeps (hlis : ∀ li ∈ lis, CertifiedLi validators li) :
    Keeps (Certified validators cfg) (putLedgerInfos lis) fun _ => True :=
  keeps_withDb fun _ h => h.putLedgerInfos hlis

section

omit [LedgerApi]

theorem updateLatestLedgerInfo_keeps :
    Keeps (Certified validators cfg) updateLatestLedgerInfo fun _ => True :=
  keeps_withDb fun _ h => h.updateLatestLedgerInfo

theorem fetchMissing_keeps (hcfg : cfg.validators = validators cfg.epoch) (fuel : Nat)
    (qc : QuorumCert) {pending : List RetrievedBlock}
    (hpending : ∀ b ∈ pending, CertifiedQc validators b.block.quorumCert) :
    Keeps (Certified validators cfg) (fetchMissing cfg fuel qc pending)
      fun bs => ∀ b ∈ bs, CertifiedQc validators b.block.quorumCert := by
  induction fuel generalizing qc pending with
  | zero => exact keeps_throw _
  | succ fuel ih =>
    refine keeps_get.bind fun s _ => ?_
    split
    · exact keeps_pure hpending
    · refine (retrieveBlockForId_keeps hcfg _ _ _ _).bind fun r hr => ?_
      refine (keeps_of_sameCerts await_sameCerts).bind fun _ _ => ?_
      cases hblocks : r.blocks with
      | nil => exact keeps_pure hpending
      | cons b rest =>
        have hb := hr.blocks rfl b (by rw [hblocks]; exact List.mem_cons_self)
        exact ih _ (List.forall_mem_cons.mpr ⟨hb, hpending⟩)

theorem keepRandomness_sameCerts (ref : BlockRef) (b : RetrievedBlock) :
    Moves SameCerts (keepRandomness ref b) := by
  unfold keepRandomness
  cases b.randomness with
  | none => exact moves_pure _
  | some value =>
    refine (moves_check _).bind fun number => (updateBlock_sameCerts ref _).bind fun _ => ?_
    exact moves_modify fun _ => ⟨rfl, rfl, rfl, rfl, rfl⟩

end

theorem fetchQuorumCert_keeps (hcfg : cfg.validators = validators cfg.epoch) {qc : QuorumCert}
    (hqc : CertifiedQc validators qc) :
    Keeps (Certified validators cfg) (fetchQuorumCert cfg qc) fun _ => True := by
  refine keeps_get.bind fun s _ => ?_
  refine (fetchMissing_keeps hcfg _ _ (by simp)).bind fun pending hpending => ?_
  refine (keeps_forM fun b hb => ?_).bind fun _ _ => insertSingleQuorumCert_keeps hqc
  refine (insertSingleQuorumCert_keeps (hpending b hb)).bind fun _ _ => ?_
  refine (keeps_of_sameCerts (insertBlock_sameCerts cfg _ _)).bind fun ref _ => ?_
  exact keeps_of_sameCerts (keepRandomness_sameCerts ref b)

theorem installLedgerInfos_keeps (blocks : List RetrievedBlock) (quorumCerts : List QuorumCert)
    (hlis : ∀ li ∈ lis, CertifiedLi validators li) (latest : LedgerInfoWithSignatures) :
    Keeps (Certified validators cfg) (installLedgerInfos cfg blocks quorumCerts lis latest)
      fun _ => True := by
  refine (putLedgerInfos_keeps hlis).bind fun _ _ => ?_
  refine updateLatestLedgerInfo_keeps.bind fun _ _ => ?_
  split
  · refine (keeps_of_sameCerts pipelineAnswers_sameCerts).bind fun _ _ => ?_
    refine keeps_check.bind fun _ _ => ?_
    refine (keeps_of_sameCerts (start_sameCerts _)).bind fun data _ => ?_
    refine updateLatestLedgerInfo_keeps.bind fun _ _ => ?_
    exact keeps_of_sameCerts (rebuild_sameCerts cfg _ _ _)
  · exact keeps_of_sameCerts (appendBlocksForSync_sameCerts cfg _ _)

theorem fastForwardSync_keeps (hcfg : cfg.validators = validators cfg.epoch) {highest : QuorumCert}
    (hqc : CertifiedQc validators highest) (commitCert : LedgerInfoWithSignatures) :
    Keeps (Certified validators cfg) (fastForwardSync cfg highest commitCert) fun _ => True := by
  refine keeps_check.bind fun _ _ => ?_
  refine keeps_check.bind fun _ _ => ?_
  refine (retrieveBlockForId_keeps hcfg _ _ _ _).bind fun r hr => ?_
  refine (keeps_of_sameCerts await_sameCerts).bind fun _ _ => ?_
  refine keeps_check.bind fun _ _ => ?_
  have hcerts : ∀ qc ∈ certsFor highest r.blocks, CertifiedQc validators qc := by
    refine List.forall_mem_cons.mpr ⟨hqc, List.forall_mem_map.mpr fun b hb => ?_⟩
    exact hr.blocks rfl b (List.dropLast_subset _ hb)
  refine (saveBlocks_keeps _ hcerts).bind fun _ _ => ?_
  cases hlis : r.ledgerInfos with
  | nil => exact keeps_pure trivial
  | cons latest rest =>
    refine installLedgerInfos_keeps _ _ (fun li hli => ?_) latest
    exact hr.ledgerInfos li (by rw [hlis]; exact List.mem_reverse.mp hli)

omit [Crypto] [LedgerApi] in
theorem sendCommittedEpochChange_sameCerts (li : LedgerInfoWithSignatures) :
    Moves SameCerts (sendCommittedEpochChange li) :=
  (moves_check _).bind fun _ => moves_get.bind fun _ => (moves_check _).bind fun _ => moves_check _

theorem fastForwardSyncByEpochLegacy_keeps (hcfg : cfg.validators = validators cfg.epoch)
    (epoch : Nat) :
    Keeps (Certified validators cfg) (fastForwardSyncByEpochLegacy cfg epoch) fun _ => True := by
  refine keeps_get.bind fun s _ => ?_
  refine (retrieveBlockByEpoch_keeps hcfg _ _).bind fun r hr => ?_
  refine (keeps_of_sameCerts await_sameCerts).bind fun _ _ => ?_
  dsimp only
  split
  · cases latestEpochEnding r.ledgerInfos with
    | some li => exact keeps_of_sameCerts (sendCommittedEpochChange_sameCerts li)
    | none => exact keeps_throw _
  · refine (saveBlocks_keeps _ fun qc hqc => ?_).bind fun _ _ => ?_
    · -- the certificates that are stored come from the response, beside the blocks
      obtain ⟨e, he, rfl⟩ := List.mem_map.mp hqc
      have hzip : (e.1, e.2) ∈ r.blocks.zip r.quorumCerts := List.mem_of_mem_filter he
      exact hr.quorumCerts (by simp) _ (List.of_mem_zip hzip).2
    cases hlis : r.ledgerInfos with
    | nil => exact keeps_pure trivial
    | cons latest rest =>
      refine (putLedgerInfos_keeps fun li hli => ?_).bind fun _ _ => ?_
      · exact hr.ledgerInfos li (by rw [hlis]; exact List.mem_reverse.mp hli)
      refine (keeps_of_sameCerts (start_sameCerts _)).bind fun data _ => ?_
      refine updateLatestLedgerInfo_keeps.bind fun _ _ => ?_
      refine (keeps_of_sameCerts (rebuild_sameCerts cfg _ _ _)).bind fun _ _ => ?_
      split
      · exact keeps_of_sameCerts (sendCommittedEpochChange_sameCerts latest)
      · exact keeps_pure trivial

/-! ### The forward path -/

variable {answers : List (Option (Nat × ForwardEpochSyncResponse))}

omit [Crypto] [LedgerApi] in
theorem firstForward_rest : ∀ a ∈ (firstForward attempts answers).2, a ∈ answers := by
  fun_induction firstForward attempts answers with
  | case1 | case2 => exact fun _ h => h
  | case3 attempts rest ih | case4 attempts rest now ih =>
    exact fun a ha => List.mem_cons_of_mem _ (ih a ha)
  | case5 => exact fun a ha => List.mem_cons_of_mem _ ha

omit [Crypto] [LedgerApi] in
theorem firstForward_some {a : Nat × ForwardEpochSyncResponse}
    (h : (firstForward attempts answers).1 = some a) : some a ∈ answers := by
  fun_induction firstForward attempts answers with
  | case1 | case2 => cases h
  | case3 attempts rest ih | case4 attempts rest now ih => exact List.mem_cons_of_mem _ (ih h)
  | case5 attempts answer rest hbusy =>
    obtain rfl : answer = a := Option.some.inj h
    exact List.mem_cons_self

omit [LedgerApi] in
theorem requestForward_keeps (attempts : Nat) :
    Keeps (Certified validators cfg) (requestForward attempts)
      fun a => ∀ now batch, a = some (now, .batch batch) → HonestPage batch := by
  refine keeps_get.bind fun s hs => ?_
  have hmodify : Keeps (Certified validators cfg) (modify fun s => { s with env := { s.env with
      forward := (firstForward attempts s.env.forward).2 } } : Sync Unit) fun _ => True :=
    keeps_modify fun s hs => ⟨hs.db, hs.answers.retrieval,
      fun now batch hmem => hs.answers.forward now batch (firstForward_rest _ hmem)⟩
  refine hmodify.bind fun _ _ => (keeps_of_sameCerts await_sameCerts).bind fun _ _ => ?_
  exact keeps_pure fun now batch heq => hs.answers.forward now batch (firstForward_some heq)

variable {records : List ForwardEpochSyncRecord}

omit [LedgerApi] in
/-- A verified page is of the requested epoch and carries verified certificates. -/
theorem verifyRecords_spec {epoch anchor number : Nat} {parent : HashValue}
    (h : verifyRecords v epoch now parent anchor records = .ok number) :
    ∀ r ∈ records, r.block.epoch = epoch ∧ r.quorumCert.verify v = .ok () := by
  induction records generalizing parent anchor with
  | nil => exact List.forall_mem_nil _
  | cons head rest ih =>
    cases hnumber : head.blockNumber with
    | some n | none =>
      simp only [verifyRecords, hnumber, except_seq_ok_iff, ensure_ok_iff] at h
      obtain ⟨hepoch, -, -, -, -, -, -, -, hqc, hrest⟩ := h
      exact List.forall_mem_cons.mpr ⟨⟨hepoch, hqc⟩, ih hrest⟩

omit [LedgerApi] in
theorem verifyLedgerInfos_signed {epoch : Nat}
    (h : verifyLedgerInfos v epoch records lis = .ok ()) :
    ∀ li ∈ lis, li.ledgerInfo.commitInfo.epoch = epoch ∧ li.verifySignatures v = .ok () := by
  induction lis with
  | nil => exact List.forall_mem_nil _
  | cons head rest ih =>
    simp only [verifyLedgerInfos, except_seq_ok_iff, ensure_ok_iff] at h
    obtain ⟨hepoch, hsig, -, hrest⟩ := h
    exact List.forall_mem_cons.mpr ⟨⟨hepoch, hsig⟩, ih hrest⟩

variable (validators) in
/-- A page whose ledger infos and certificates are certified. -/
structure CertifiedPage (batch : ForwardEpochSyncBatch) : Prop where
  ledgerInfos : ∀ li ∈ batch.ledgerInfos, CertifiedLi validators li
  quorumCerts : ∀ r ∈ batch.records, CertifiedQc validators r.quorumCert

variable {request : ForwardEpochSyncFetchRequest} {batch : ForwardEpochSyncBatch}

omit [LedgerApi] in
theorem certifiedPage_of_verify (hcfg : cfg.validators = validators cfg.epoch)
    (hepoch : request.epoch = cfg.epoch) (hpage : HonestPage batch)
    (h : batch.verify request cfg.validators now = .ok ()) : CertifiedPage validators batch := by
  simp only [ForwardEpochSyncBatch.verify, except_bind_ok_iff, ensure_ok_iff] at h
  obtain ⟨_, hbatch, _, -, _, -, _, -, _, -, number, hrecords, _, -, hlis⟩ := h
  refine ⟨fun li hli => ?_, fun r hr hround => ?_⟩
  · obtain ⟨hli_epoch, hsig⟩ := verifyLedgerInfos_signed hlis li hli
    unfold CertifiedLi
    rw [hli_epoch, hepoch, ← hcfg]
    exact hsig
  · have hsigned := QuorumCert.signed_of_verify (verifyRecords_spec hrecords r hr).2 hround
    rw [hpage r hr, hbatch, hepoch, ← hcfg]
    exact hsigned.signatures

variable {manifest : ForwardEpochSyncManifest}

section

variable (hcfg : cfg.validators = validators cfg.epoch)

include hcfg

theorem certifiedLi_of_manifest (h : manifest.verify cfg.epoch cfg.validators = .ok ()) :
    CertifiedLi validators manifest.targetLedgerInfo := by
  simp only [ForwardEpochSyncManifest.verify, except_seq_ok_iff, ensure_ok_iff] at h
  obtain ⟨-, hepoch, -, hsig, -⟩ := h
  unfold CertifiedLi
  rw [hepoch, ← hcfg]
  exact hsig

theorem tryPrepare_keeps : Keeps (Certified validators cfg) (tryPrepare cfg cfg.epoch)
      fun m => ∀ manifest ∈ m, CertifiedLi validators manifest.targetLedgerInfo := by
  refine (requestForward_keeps 2).bind fun answer _ => ?_
  rcases answer with - | ⟨now, response⟩
  · exact keeps_pure (by simp)
  · cases response with
    | prepared manifest =>
      refine keeps_check.bind fun _ h => keeps_pure ?_
      rintro _ ⟨⟩
      exact certifiedLi_of_manifest hcfg h
    | batch batch => exact keeps_throw _
    | error error => exact keeps_pure (by simp)

omit [LedgerApi] in
theorem fetchBatch_keeps (hepoch : request.epoch = cfg.epoch) :
    Keeps (Certified validators cfg) (fetchBatch cfg request)
      fun page => ∀ batch ∈ page, CertifiedPage validators batch := by
  refine (requestForward_keeps numRetries).bind fun answer hanswer => ?_
  rcases answer with - | ⟨now, response⟩
  · exact keeps_throw _
  · cases response with
    | prepared manifest => exact keeps_throw _
    | batch batch =>
      refine keeps_check.bind fun _ h => keeps_pure ?_
      rintro _ ⟨⟩
      exact certifiedPage_of_verify hcfg hepoch (hanswer now batch rfl) h
    | error error =>
      cases error with
      | batchBoundaryNotFound => exact keeps_pure (by simp)
      | _ => exact keeps_throw _

end

theorem persistLedgerInfos_keeps (hlis : ∀ li ∈ lis, CertifiedLi validators li) :
    Keeps (Certified validators cfg) (persistLedgerInfos lis) fun _ => True := by
  unfold persistLedgerInfos
  split
  · exact keeps_pure trivial
  · exact (putLedgerInfos_keeps hlis).bind fun _ _ => updateLatestLedgerInfo_keeps

theorem persistBatch_keeps (h : CertifiedPage validators batch) :
    Keeps (Certified validators cfg) (persistBatch cfg batch) fun _ => True := by
  have hqcs : ∀ qc ∈ batch.records.map (·.quorumCert), CertifiedQc validators qc :=
    List.forall_mem_map.mpr h.quorumCerts
  have hsave : Keeps (Certified validators cfg) (saveBatch batch) fun _ => True :=
    (keeps_withDb fun db hdb => hdb.saveTree hqcs _ _).bind fun _ _ =>
      keeps_withDb fun db hdb => hdb.putRandomness _
  refine hsave.bind fun _ _ => ?_
  refine (persistLedgerInfos_keeps h.ledgerInfos).bind fun _ _ => ?_
  exact keeps_of_sameCerts (appendBlocksForSyncChecked_sameCerts cfg _ _)

omit [Crypto] [LedgerApi] in
theorem numberedCommitRoot_sameCerts (missing : String) :
    Moves SameCerts (numberedCommitRoot missing) :=
  moves_get.bind fun _ => (moves_check _).bind fun _ => (moves_check _).bind fun _ => moves_pure _

omit [LedgerApi] in
theorem targetCommitted_sameCerts (manifest : ForwardEpochSyncManifest) :
    Moves SameCerts (targetCommitted manifest) :=
  (numberedCommitRoot_sameCerts _).bind fun _ => (moves_check _).bind fun _ => moves_pure _

omit [LedgerApi] in
theorem waitForTarget_sameCerts (manifest : ForwardEpochSyncManifest) :
    Moves SameCerts (waitForTarget manifest) := by
  refine await_sameCerts.bind fun _ => pipelineAnswers_sameCerts.bind fun inTime => ?_
  cases inTime with
  | true => exact targetCommitted_sameCerts manifest
  | false => exact moves_pure _

omit [Crypto] [LedgerApi] in
theorem ensureTargetFetched_sameCerts (manifest : ForwardEpochSyncManifest) :
    Moves SameCerts (ensureTargetFetched manifest) :=
  moves_get.bind fun _ => (moves_check _).bind fun _ => (moves_check _).bind fun _ => moves_check _

theorem commitTarget_keeps (hli : CertifiedLi validators manifest.targetLedgerInfo) :
    Keeps (Certified validators cfg) (commitTarget manifest) fun _ => True := by
  refine (persistLedgerInfos_keeps (by simpa using hli)).bind fun _ _ => ?_
  refine (keeps_of_sameCerts (waitForTarget_sameCerts manifest)).bind fun committed _ => ?_
  cases committed with
  | true =>
    exact (keeps_of_sameCerts (sendCommittedEpochChange_sameCerts _)).bind fun _ _ =>
      keeps_pure trivial
  | false => exact keeps_pure trivial

omit [LedgerApi] in
theorem finish_keeps (manifest : ForwardEpochSyncManifest) : Keeps (Certified validators cfg) (do
      sendCommittedEpochChange manifest.targetLedgerInfo
      pure true) fun _ => True :=
  (keeps_of_sameCerts (sendCommittedEpochChange_sameCerts _)).bind fun _ _ => keeps_pure trivial

variable (hcfg : cfg.validators = validators cfg.epoch)

include hcfg

theorem forwardLoop_keeps
    (hli : CertifiedLi validators manifest.targetLedgerInfo) (batchSize fuel anchorNumber : Nat)
    (anchorId : HashValue) :
    Keeps (Certified validators cfg)
      (forwardLoop cfg manifest cfg.epoch batchSize fuel anchorNumber anchorId) fun _ => True := by
  induction fuel generalizing anchorNumber anchorId with
  | zero => exact keeps_throw _
  | succ fuel ih =>
    refine (fetchBatch_keeps hcfg rfl).bind fun page hpage => ?_
    cases page with
    | none =>
      refine (keeps_of_sameCerts (targetCommitted_sameCerts manifest)).bind fun committed _ => ?_
      cases committed with
      | true => exact finish_keeps manifest
      | false =>
        refine (keeps_of_sameCerts (ensureTargetFetched_sameCerts manifest)).bind fun _ _ => ?_
        exact commitTarget_keeps hli
    | some batch =>
      refine (persistBatch_keeps (hpage batch rfl)).bind fun _ _ => ?_
      refine (keeps_of_sameCerts (numberedCommitRoot_sameCerts _)).bind fun _ _ => ?_
      refine (keeps_of_sameCerts (targetCommitted_sameCerts manifest)).bind fun committed _ => ?_
      cases committed with
      | true => exact finish_keeps manifest
      | false => exact ih _ _

theorem fastForwardSyncByEpochForward_keeps (batchSize : Nat) :
    Keeps (Certified validators cfg) (fastForwardSyncByEpochForward cfg cfg.epoch batchSize)
      fun _ => True := by
  refine keeps_get.bind fun s _ => keeps_check.bind fun root _ => ?_
  refine keeps_check.bind fun anchor _ => ?_
  refine (tryPrepare_keeps hcfg).bind fun prepared hprepared => ?_
  cases prepared with
  | none => exact keeps_pure trivial
  | some manifest =>
    have hli := hprepared manifest rfl
    refine (keeps_of_sameCerts (targetCommitted_sameCerts manifest)).bind fun committed _ => ?_
    cases committed with
    | true => exact finish_keeps manifest
    | false =>
      refine keeps_get.bind fun s' _ => ?_
      refine keeps_check.bind fun commitRoot _ => ?_
      cases proofTargetOrdered s' commitRoot manifest with
      | true => exact commitTarget_keeps hli
      | false => exact forwardLoop_keeps hcfg hli _ _ _ _

theorem fastForwardSyncByEpoch_keeps (batchSize : Nat) :
    Keeps (Certified validators cfg) (fastForwardSyncByEpoch cfg cfg.epoch batchSize)
      fun _ => True := by
  unfold fastForwardSyncByEpoch
  split
  · refine keeps_check.bind fun _ _ => ?_
    refine (fastForwardSyncByEpochForward_keeps hcfg batchSize).bind fun done _ => ?_
    cases done with
    | true => exact keeps_pure trivial
    | false => exact fastForwardSyncByEpochLegacy_keeps hcfg _
  · exact fastForwardSyncByEpochLegacy_keeps hcfg _

end Paths

/-! ## Runs -/

/-- A call of the sync manager. -/
inductive SyncCall where
  | fetchQuorumCert (qc : QuorumCert)
  | fastForwardSync (highest : QuorumCert) (commitCert : LedgerInfoWithSignatures)
  | fastForwardSyncByEpoch (batchSize : Nat)

/-- A call with the node and the environment that it meets. Memory is arbitrary at a call; only the
database is carried on. -/
structure SyncStep where
  cfg : NodeConfig
  heap : List PipelinedBlock
  tree : BlockTree
  env : Environment
  call : SyncCall

section Run

variable [Crypto] [LedgerApi]

/-- The computation of a call. A message that claims a higher epoch only makes the node complete its
own. -/
def SyncCall.run (cfg : NodeConfig) : SyncCall → Sync Unit
  | .fetchQuorumCert qc => SyncManager.fetchQuorumCert cfg qc
  | .fastForwardSync highest commitCert => SyncManager.fastForwardSync cfg highest commitCert
  | .fastForwardSyncByEpoch batchSize => SyncManager.fastForwardSyncByEpoch cfg cfg.epoch batchSize

/-- The database after a call, whether it fails or not. -/
def SyncStep.apply (db : ConsensusDb) (step : SyncStep) : ConsensusDb :=
  (finalState (step.call.run step.cfg
    { db, heap := step.heap, tree := step.tree, env := step.env })).db

/-- The database after a run of calls. -/
def syncRun (db : ConsensusDb) (steps : List SyncStep) : ConsensusDb :=
  steps.foldl SyncStep.apply db

/-- The certificate that a call is given has been verified (`SyncInfo::verify`). -/
def SyncCall.Verified (validators : Nat → ValidatorVerifier) : SyncCall → Prop
  | .fetchQuorumCert qc => CertifiedQc validators qc
  | .fastForwardSync highest _ => CertifiedQc validators highest
  | .fastForwardSyncByEpoch _ => True

/-- The callers provide the validators of the node's epoch, and a verified certificate. -/
structure SyncStep.Trusted (validators : Nat → ValidatorVerifier) (step : SyncStep) : Prop where
  validators_eq : step.cfg.validators = validators step.cfg.epoch
  verified : step.call.Verified validators

variable {validators : Nat → ValidatorVerifier}

theorem SyncCall.run_keeps {cfg : NodeConfig}
    (hcfg : cfg.validators = validators cfg.epoch) {call : SyncCall}
    (h : call.Verified validators) :
    Keeps (Certified validators cfg) (call.run cfg) fun _ => True := by
  cases call with
  | fetchQuorumCert qc => exact fetchQuorumCert_keeps hcfg h
  | fastForwardSync highest commitCert => exact fastForwardSync_keeps hcfg h commitCert
  | fastForwardSyncByEpoch batchSize => exact fastForwardSyncByEpoch_keeps hcfg batchSize

theorem SyncStep.apply_certified {step : SyncStep}
    (htrusted : step.Trusted validators) (hanswers : Answers validators step.cfg step.env)
    {db : ConsensusDb} (hdb : CertifiedDb validators db) :
    CertifiedDb validators (SyncStep.apply db step) :=
  ((SyncCall.run_keeps htrusted.validators_eq htrusted.verified).finalState
    (s := { db, heap := step.heap, tree := step.tree, env := step.env }) ⟨hdb, hanswers⟩).db

/-- In a run whose peers answer honestly where they are not checked, all that is stored is certified
after every call. -/
theorem sync_stores_certified (validators : Nat → ValidatorVerifier) {db : ConsensusDb}
    (hdb : CertifiedDb validators db) {steps : List SyncStep}
    (htrusted : ∀ step ∈ steps, step.Trusted validators)
    (hanswers : ∀ step ∈ steps, Answers validators step.cfg step.env) (n : Nat) :
    CertifiedDb validators (syncRun db (steps.take n)) := by
  unfold syncRun
  induction steps generalizing db n with
  | nil => simpa using hdb
  | cons step rest ih =>
    cases n with
    | zero => exact hdb
    | succ n =>
      have hstep := SyncStep.apply_certified (htrusted step List.mem_cons_self)
        (hanswers step List.mem_cons_self) hdb
      exact ih hstep (List.forall_mem_cons.mp htrusted).2 (List.forall_mem_cons.mp hanswers).2 n

end Run

/-! ## A dishonest peer -/

namespace DishonestPeer

open Permissive

/-- One validator, whose signature is needed and suffices. -/
@[reducible] def crypto : Crypto :=
  { Permissive.crypto (·.proposed.round + 10) (·.round + 100) with
    verifyMultiSignatures := fun _ _ s => accept (s.signers = [0])
    verifyAggregateSignatures := fun _ _ s => accept (s.signers = [0]) }

attribute [local instance] crypto Permissive.ledger

def validators : Nat → ValidatorVerifier := fun _ =>
  { validatorInfos := [{ address := 1, publicKey := 7, votingPower := 1 }] }

def info (round : Nat) : BlockInfo :=
  { BlockInfo.empty with epoch := 1, round, id := round + 100 }

/-- A certificate for a block that commits its parent, with the given signers. -/
def certificate (round : Nat) (signers : List Nat) : QuorumCert where
  voteData := { proposed := info round, parent := info (round - 1) }
  signedLedgerInfo :=
    { ledgerInfo := LedgerInfo.new (info (round - 1)) (round + 10)
      signatures := { signers, sig := none } }

/-- A nil block of the given round over that of the round before. -/
def block (round : Nat) : Block where
  blockData :=
    { epoch := 1, round, timestampUsecs := 0
      quorumCert := certificate (round - 1) (if round = 1 then [] else [0])
      blockType := .nilBlock [] }
  signature := none

/-- A ledger info that nobody signed. -/
def forged : LedgerInfoWithSignatures := ⟨.new (info 1) 0, { signers := [], sig := none }⟩

def cfg (genesisBlockId : HashValue) (forwardEpochSyncEnabled : Bool) : NodeConfig :=
  { epoch := 1, validators := validators 1, genesisBlockId, isValidator := false
    enableRandomness := false, requireBlockRandomness := false, forwardEpochSyncEnabled
    maxBlocksToRequest := 10 }

def step (answer : BlockRetrievalResponse) (call : SyncCall) : SyncStep where
  cfg := cfg 0 false
  heap := []
  tree :=
    { blocks := [], quorumCerts := [], orderedRootId := 0, commitRootId := 0
      highestCommitCert := (certificate 0 []).ledgerInfo }
  env := { retrieval := [fun _ => some (0, answer)] }
  call := call

def retrieved : RetrievedBlock := { block := block 1, blockNumber := none, randomness := none }

/-- The peer adds a ledger info that nobody signed to the block of a certificate. -/
def forgedLedgerInfo : SyncStep :=
  step
    { status := .succeededWithTarget, blocks := [retrieved], ledgerInfos := [forged]
      quorumCerts := [] }
    (.fastForwardSync (certificate 1 [0]) (certificate 0 []).ledgerInfo)

/-- The node completes its epoch; the peer's block has a certificate that nobody signed. -/
def forgedCertificate : SyncStep :=
  step
    { status := .succeededWithTarget, blocks := [retrieved], ledgerInfos := []
      quorumCerts := [certificate 1 []] }
    (.fastForwardSyncByEpoch 1)

/-- The same fetch from a peer whose ledger info is signed. -/
def signed : LedgerInfoWithSignatures := ⟨.new (info 1) 0, { signers := [0], sig := none }⟩

def signedLedgerInfo : SyncStep :=
  step
    { status := .succeededWithTarget, blocks := [retrieved], ledgerInfos := [signed]
      quorumCerts := [] }
    (.fastForwardSync (certificate 1 [0]) (certificate 0 []).ledgerInfo)

theorem empty_certified : CertifiedDb validators {} := ⟨by simp, by simp, by simp⟩

theorem fastForward_trusted (answer : BlockRetrievalResponse) :
    (step answer (.fastForwardSync (certificate 1 [0]) (certificate 0 []).ledgerInfo)).Trusted
      validators :=
  ⟨rfl, fun _ => rfl⟩

theorem signedLedgerInfo_answers :
    Answers validators signedLedgerInfo.cfg signedLedgerInfo.env where
  retrieval := by
    intro peer hpeer request now r hanswer
    obtain rfl := List.mem_singleton.mp hpeer
    obtain ⟨-, rfl⟩ := Prod.mk.inj (Option.some.inj hanswer)
    exact ⟨List.forall_mem_singleton.mpr rfl, fun _ => List.forall_mem_nil _,
      fun _ => List.forall_mem_singleton.mpr rfl,
      fun _ _ => List.forall_mem_singleton.mpr fun hround => absurd rfl hround⟩
  forward := by
    intro now batch hmem
    cases hmem

end DishonestPeer

open DishonestPeer

attribute [local instance] crypto Permissive.ledger

/-- A peer can have the node install a ledger info that nobody signed, and store a certificate that
nobody signed. -/
theorem unsigned_data_stored : CertifiedDb validators {} ∧ (forgedLedgerInfo.Trusted validators ∧
        (syncRun {} [forgedLedgerInfo]).latestLedgerInfo = some forged ∧
        ¬ CertifiedLi validators forged) ∧
      (forgedCertificate.Trusted validators ∧
        ((1, 101), certificate 1 []) ∈ (syncRun {} [forgedCertificate]).quorumCerts ∧
        ¬ CertifiedQc validators (certificate 1 [])) := by
  have hrejected : forged.verifySignatures (validators 1) = .error "rejected" := rfl
  have hli : ¬ CertifiedLi validators forged := by
    intro h
    have hok : forged.verifySignatures (validators 1) = .ok () := h
    simp [hrejected] at hok
  have hqc : ¬ CertifiedQc validators (certificate 1 []) := by
    intro h
    have hok : (.error "rejected" : Except String Unit) = .ok () := h (by decide)
    cases hok
  exact ⟨empty_certified, ⟨fastForward_trusted _, by decide, hli⟩, ⟨rfl, trivial⟩, by decide, hqc⟩

theorem signed_data_stored : CertifiedDb validators (syncRun {} ([signedLedgerInfo].take 1)) ∧
      (syncRun {} [signedLedgerInfo]).latestLedgerInfo = some signed := by
  exact ⟨sync_stores_certified validators empty_certified
    (List.forall_mem_singleton.mpr (fastForward_trusted _))
    (List.forall_mem_singleton.mpr signedLedgerInfo_answers) 1, by decide⟩

end SyncManager

end Liquent
