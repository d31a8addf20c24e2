import Liquent.Misc.Lists
import Liquent.QuorumStore.ProofManager

/-!
# Committed batches are not proposed again

The two queues of the proof manager forget a committed batch in different ways.  The queue of proofs
keeps a mark under its key until the batch has expired, and takes no expired proof; the queue of
batches only removes it.  A batch that is delivered again after its commit therefore comes back
through the second queue.

`proposals_fresh` is about all orders of events in which this does not happen and in which an author
and a batch identifier stand for one batch.
-/

namespace Liquent.QuorumStore

open Misc

/-- An author and a batch identifier stand for one batch. -/
def Canonical (canon : AuthorKey → BatchInfo) (info : BatchInfo) : Prop :=
  canon (.fromInfo info) = info

/-- The batches of a queue are stored under their own keys, each once. -/
structure BatchesSound (canon : AuthorKey → BatchInfo) (batches : AuthorBatches) : Prop where
  entries : ∀ e ∈ batches, e.1 = BatchSortKey.fromInfo e.2 ∧ Canonical canon e.2
  nodup : (batches.map (·.1)).Nodup

section Batches

variable {canon : AuthorKey → BatchInfo} {batches : AuthorBatches}

section

variable (h : BatchesSound canon batches)

include h

theorem BatchesSound.put {info : BatchInfo} (hinfo : Canonical canon info) :
    BatchesSound canon (Table.put batches (.fromInfo info) info) :=
  ⟨Table.forall_mem_put h.entries ⟨rfl, hinfo⟩, Table.nodup_keys_put h.nodup _ _⟩

theorem BatchesSound.filter (p : BatchSortKey × BatchInfo → Bool) :
    BatchesSound canon (batches.filter p) := by
  refine ⟨?_, h.nodup.sublist (List.Sublist.map _ List.filter_sublist)⟩
  intro e he
  exact h.entries e (List.mem_of_mem_filter he)

theorem BatchesSound.retain (p : BatchSortKey → Bool) :
    BatchesSound canon (Table.retain batches p) := h.filter _

/-- Under one batch for each key, the entries of a queue have different keys. -/
theorem BatchesSound.nodup_batchKey :
    (batches.map (·.1.batchKey)).Nodup := by
  have hmap : batches.map (·.1.batchKey) = (batches.map (·.1)).map (·.batchKey) := by
    rw [List.map_map]
    rfl
  rw [hmap]
  apply List.Nodup.map_on _ h.nodup
  intro a ha b hb heq
  obtain ⟨ea, hea, rfl⟩ := List.mem_map.mp ha
  obtain ⟨eb, heb, rfl⟩ := List.mem_map.mp hb
  obtain ⟨hakey, hacanon⟩ := h.entries ea hea
  obtain ⟨hbkey, hbcanon⟩ := h.entries eb heb
  have hinfo : ea.2 = eb.2 := by
    rw [hakey, hbkey] at heq
    rw [← hacanon, ← hbcanon]
    exact congrArg canon heq
  rw [hakey, hbkey, hinfo]

end

/-- The iterators go through entries of the queue. -/
theorem mem_of_mem_iterators {e : BatchSortKey × BatchInfo}
    (h : e ∈ batches.iterators.flatten) : e ∈ batches := by
  obtain ⟨iter, hiter, he⟩ := List.mem_flatten.mp h
  obtain ⟨author, -, rfl⟩ := List.mem_map.mp hiter
  rw [List.mem_insertionSort] at he
  exact List.mem_of_mem_filter he

/-- The iterators go through each key once. -/
theorem nodup_iterators (h : (batches.map (·.1.batchKey)).Nodup) :
    (batches.iterators.flatten.map (·.1.batchKey)).Nodup := by
  unfold AuthorBatches.iterators
  rw [List.map_flatten, List.map_map, List.nodup_flatten]
  constructor
  · intro keys hkeys
    obtain ⟨author, -, rfl⟩ := List.mem_map.mp hkeys
    have hperm := (List.perm_insertionSort (fun a b : BatchSortKey × BatchInfo =>
      a.1.visitedBefore b.1 = true) (batches.filter (·.1.batchKey.author = author))).map
      (·.1.batchKey)
    apply hperm.nodup_iff.mpr
    exact h.sublist (List.Sublist.map _ List.filter_sublist)
  · rw [List.pairwise_map]
    apply (List.nodup_dedup _).imp
    intro a b hne key ha hb
    obtain ⟨ea, hea, rfl⟩ := List.mem_map.mp ha
    obtain ⟨eb, heb, hkey⟩ := List.mem_map.mp hb
    rw [List.mem_insertionSort] at hea heb
    have hauthor := of_decide_eq_true (List.mem_filter.mp hea).2
    have hauthor' := of_decide_eq_true (List.mem_filter.mp heb).2
    apply hne
    rw [← hauthor, ← hauthor', hkey]

end Batches

/-! ## Pulling from the queues -/

/-- What a pull has taken so far, and what it has still to visit: each key is there once. -/
def PullOnce {β : Type} (key : β → AuthorKey) (taken : List β)
    (iters : List (List (BatchSortKey × BatchInfo))) : Prop :=
  (taken.map key ++ iters.flatten.map (·.1.batchKey)).Nodup

section Pull

variable {β : Type} {key : β → AuthorKey} {taken : List β}
  {iters iters' : List (List (BatchSortKey × BatchInfo))}
  {e : BatchSortKey × BatchInfo} {rest : List (BatchSortKey × BatchInfo)}

theorem PullOnce.perm (hperm : iters.Perm iters') (h : PullOnce key taken iters) :
    PullOnce key taken iters' := by
  unfold PullOnce at *
  have hflat : (iters.flatten.map (·.1.batchKey)).Perm (iters'.flatten.map (·.1.batchKey)) :=
    hperm.flatten.map _
  exact (hflat.append_left _).nodup_iff.mp h

theorem PullOnce.sublist (h : PullOnce key taken iters)
    (hsub : iters'.flatten.Sublist iters.flatten) : PullOnce key taken iters' := by
  unfold PullOnce at *
  exact h.sublist ((List.Sublist.refl _).append (hsub.map _))

theorem PullOnce.take (h : PullOnce key taken ((e :: rest) :: iters)) {b : β}
    (hkey : key b = e.1.batchKey) : PullOnce key (taken ++ [b]) (rest :: iters) := by
  unfold PullOnce at *
  simp only [List.flatten_cons, List.cons_append, List.map_cons, List.map_append,
    List.append_assoc, List.map_nil, List.nil_append] at h ⊢
  rw [hkey]
  exact h

end Pull

/-- A batch is neither committed nor excluded. -/
def Allowed (committed : List AuthorKey) (excluded : List BatchInfo) (key : AuthorKey) : Prop :=
  key ∉ committed ∧ key ∉ excluded.map AuthorKey.fromInfo

variable {excluded : List BatchInfo}

/-- An excluded key is excluded with its batch. -/
theorem mem_excluded {canon : AuthorKey → BatchInfo} {info : BatchInfo}
    (hexcluded : ∀ other ∈ excluded, Canonical canon other) (hinfo : Canonical canon info)
    (h : AuthorKey.fromInfo info ∈ excluded.map AuthorKey.fromInfo) : info ∈ excluded := by
  obtain ⟨other, hother, hkey⟩ := List.mem_map.mp h
  have hsame : other = info := by
    rw [← hexcluded other hother, ← hinfo, hkey]
  rw [← hsame]
  exact hother

/-! ## The queue of proofs -/

/-- The invariant of the queue of proofs: a committed batch has its mark, or it has expired and has
no proof. -/
structure ProofQueue.Sound (canon : AuthorKey → BatchInfo) (committed : List AuthorKey)
    (q : ProofQueue) : Prop where
  batches : BatchesSound canon q.authorToBatches
  proofs : ∀ key proof, q.batchToProof.get key = some (some proof) →
    AuthorKey.fromInfo proof.info = key ∧ Canonical canon proof.info
  expirations : ∀ e ∈ q.expirations, e.1 = (canon e.2.batchKey).expiration
  committed : ∀ key ∈ committed, q.batchToProof.get key = some none ∨
    (q.batchToProof.get key = none ∧ (canon key).expiration ≤ q.latestBlockTimestamp)

variable {iters : List (List (BatchSortKey × BatchInfo))} {iter : List (BatchSortKey × BatchInfo)}
  {iters' : List (List (BatchSortKey × BatchInfo))}

namespace ProofQueue

variable {canon : AuthorKey → BatchInfo} {committed : List AuthorKey} {q : ProofQueue}

section

variable (h : q.Sound canon committed)

include h

theorem Sound.push {proof : ProofOfStore}
    (hproof : Canonical canon proof.info) : (q.push proof).Sound canon committed := by
  unfold ProofQueue.push
  by_cases hexpired : proof.info.expiration ≤ q.latestBlockTimestamp
  · rw [if_pos hexpired]
    exact h
  · rw [if_neg hexpired]
    by_cases hknown : (q.batchToProof.get (.fromInfo proof.info)).isSome = true
    · rw [if_pos hknown]
      exact h
    · rw [if_neg hknown]
      have hnone : q.batchToProof.get (.fromInfo proof.info) = none := by simpa using hknown
      refine ⟨h.batches.put hproof, ?_, ?_, ?_⟩
      · intro key other hget
        rcases Table.of_get_put hget with ⟨rfl, heq⟩ | hget
        · obtain rfl := Option.some.inj heq
          exact ⟨rfl, hproof⟩
        · exact h.proofs key other hget
      · apply forall_mem_snoc h.expirations
        exact congrArg BatchInfo.expiration hproof.symm
      · -- the batch is not committed: its key would be marked, or it would have expired
        intro key hcommitted
        have hne : key ≠ .fromInfo proof.info := by
          rintro rfl
          rcases h.committed _ hcommitted with hmark | ⟨-, hpast⟩
          · simp [hmark] at hnone
          · rw [hproof] at hpast
            exact hexpired hpast
        rw [Table.get_put_of_ne hne]
        exact h.committed key hcommitted

theorem Sound.addBatchSummary (info : BatchInfo) (txnSummaries : List TxnSummaryWithExpiration) :
    (q.addBatchSummary info txnSummaries).Sound canon committed := by
  unfold ProofQueue.addBatchSummary
  by_cases hnew : ((q.batchSummaries.get (BatchSortKey.fromInfo info).batchKey).all
      (!·.added)) = true
  · simp only [if_pos hnew]
    exact ⟨h.batches, h.proofs, h.expirations, h.committed⟩
  · simp only [if_neg hnew]
    exact h

theorem Sound.gcExpiredBatchSummaries (now : Nat) :
    (q.gcExpiredBatchSummaries now).Sound canon committed :=
  ⟨h.batches, h.proofs, h.expirations, h.committed⟩

theorem Sound.markCommitted (batch : BatchInfo) : Ensures (q.markCommitted batch)
    (fun q' => q'.Sound canon (committed ++ [.fromInfo batch])) (fun _ => True) := by
  unfold ProofQueue.markCommitted
  apply (ensures_trivial _).bind
  intro remaining _ _
  refine ⟨h.batches, ?_, h.expirations, ?_⟩
  · intro key proof hget
    rcases Table.of_get_put hget with ⟨-, hnone⟩ | hget
    · cases hnone
    · exact h.proofs key proof hget
  · intro key hcommitted
    change (q.batchToProof.put (.fromInfo batch) none).get key = _ ∨
      (q.batchToProof.put (.fromInfo batch) none).get key = _ ∧ _
    by_cases hkey : key = .fromInfo batch
    · subst hkey
      exact .inl Table.get_put_self
    · rw [Table.get_put_of_ne hkey]
      rcases List.mem_append.mp hcommitted with hcommitted | hcommitted
      · exact h.committed key hcommitted
      · exact absurd (List.mem_singleton.mp hcommitted) hkey

theorem Sound.markCommitted_all (batches : List BatchInfo) :
    Ensures (batches.foldlM ProofQueue.markCommitted q)
      (fun q' => q'.Sound canon (committed ++ batches.map AuthorKey.fromInfo)) (fun _ => True) := by
  induction batches generalizing q committed with
  | nil =>
    rw [List.map_nil, List.append_nil]
    exact ensures_pure h
  | cons batch rest ih =>
    rw [List.foldlM_cons, List.map_cons, List.append_cons]
    exact (h.markCommitted batch).bind fun _ _ hmarked => ih hmarked

/-- An expired key loses its mark when its time has passed. -/
theorem Sound.expireKey {sortKey : BatchSortKey}
    (hpast : (canon sortKey.batchKey).expiration ≤ q.latestBlockTimestamp) :
    Ensures (q.expireKey sortKey) (fun q' => q'.Sound canon committed ∧
      q'.latestBlockTimestamp = q.latestBlockTimestamp) (fun _ => True) := by
  unfold ProofQueue.expireKey
  cases hget : q.authorToBatches.get sortKey with
  | none => exact ⟨h, rfl⟩
  | some batch =>
    apply (ensures_trivial _).bind
    intro proof _ _
    apply (ensures_trivial _).bind
    intro remaining _ _
    refine ⟨⟨h.batches.retain fun other => decide (other ≠ sortKey), ?_, h.expirations, ?_⟩, rfl⟩
    · intro key other hother
      exact h.proofs key other (Table.of_get_retain (p := (· ≠ sortKey.batchKey)) hother)
    · intro key hcommitted
      rw [Table.get_retain]
      by_cases hkey : key = sortKey.batchKey
      · right
        subst hkey
        exact ⟨by simp, hpast⟩
      · simp only [ne_eq, hkey, not_false_eq_true, decide_true, if_true]
        exact h.committed key hcommitted

theorem Sound.expireKeys {keys : List BatchSortKey}
    (hpast : ∀ sortKey ∈ keys, (canon sortKey.batchKey).expiration ≤ q.latestBlockTimestamp) :
    Ensures (keys.foldlM ProofQueue.expireKey q) (fun q' => q'.Sound canon committed)
      (fun _ => True) := by
  induction keys generalizing q with
  | nil => exact ensures_pure h
  | cons sortKey rest ih =>
    obtain ⟨hfirst, hrest⟩ := List.forall_mem_cons.mp hpast
    rw [List.foldlM_cons]
    apply (h.expireKey hfirst).bind
    rintro q' - ⟨hsound, hsame⟩
    apply ih hsound
    rw [hsame]
    exact hrest

theorem Sound.handleUpdatedBlockTimestamp (blockTimestamp : Nat) :
    Ensures (q.handleUpdatedBlockTimestamp blockTimestamp) (fun q' => q'.Sound canon committed)
      (fun _ => True) := by
  unfold ProofQueue.handleUpdatedBlockTimestamp
  by_cases htime : q.latestBlockTimestamp ≤ blockTimestamp
  · have hensure : ensure (q.latestBlockTimestamp ≤ blockTimestamp)
        "Decreasing block timestamp" = .ok () := ensure_ok_iff.mpr htime
    rw [hensure]
    apply Sound.expireKeys
    · refine ⟨h.batches, h.proofs, ?_, ?_⟩
      · intro e he
        exact h.expirations e (List.mem_of_mem_filter he)
      · intro key hcommitted
        rcases h.committed key hcommitted with hmark | ⟨hnone, hpast⟩
        · exact .inl hmark
        · exact .inr ⟨hnone, hpast.trans htime⟩
    · intro sortKey hkey
      rw [List.mem_dedup] at hkey
      obtain ⟨e, he, rfl⟩ := List.mem_map.mp hkey
      rw [List.mem_filter] at he
      rw [← h.expirations e he.1]
      exact of_decide_eq_true he.2
  · have hensure : ensure (q.latestBlockTimestamp ≤ blockTimestamp)
        "Decreasing block timestamp" = .error "Decreasing block timestamp" := if_neg htime
    rw [hensure]
    trivial

end

/-- The proof of a batch may be pulled: it is neither excluded nor committed. -/
def Eligible (q : ProofQueue) (excluded : List BatchInfo) (e : BatchSortKey × BatchInfo)
    (proof : ProofOfStore) : Prop :=
  e.2 ∉ excluded ∧ q.batchToProof.get e.1.batchKey = some (some proof)

/-- The next batch of an iterator whose proof may be pulled is within the hard limits. -/
def nextFits (q : ProofQueue) (excluded : List BatchInfo) (limits : PullLimits) (s : PullState) :
    List (BatchSortKey × BatchInfo) → Bool
  | [] => false
  | (sortKey, batch) :: rest =>
    if batch ∈ excluded then nextFits q excluded limits s rest
    else
      match q.batchToProof.get sortKey.batchKey with
      | some (some _) => !q.exceeds limits s sortKey batch
      | _ => nextFits q excluded limits s rest

/-- A visit passes over a batch or ends the iterator, and nothing that fits is lost, or it adds an
eligible batch that fits. -/
theorem pullVisit_cases (q : ProofQueue) (excluded : List BatchInfo) (limits : PullLimits)
    (s : PullState) (iter : List (BatchSortKey × BatchInfo)) :
    (∀ l ∈ (q.pullVisit excluded limits s iter).2, ∃ e, iter = e :: l) ∧
    ((∃ full kept, q.pullVisit excluded limits s iter = ({ s with full := full }, kept) ∧
      (q.nextFits excluded limits s iter = true →
        ∃ l ∈ kept, q.nextFits excluded limits s l = true)) ∨
    ∃ e rest proof next kept, iter = e :: rest ∧ q.Eligible excluded e proof ∧
      q.pullVisit excluded limits s iter = (next, kept) ∧ next.ret = s.ret ++ [proof] ∧
      q.nextFits excluded limits s iter = true) := by
  cases iter with
  | nil => exact ⟨by simp [pullVisit], .inl ⟨s.full, none, rfl, by simp [nextFits]⟩⟩
  | cons e rest =>
    obtain ⟨sortKey, batch⟩ := e
    simp only [pullVisit, nextFits]
    by_cases hbatch : batch ∈ excluded
    · simp only [if_pos hbatch]
      exact ⟨by simp, .inl ⟨s.full, some rest, rfl, fun h => ⟨rest, rfl, h⟩⟩⟩
    simp only [if_neg hbatch]
    rcases hproof : q.batchToProof.get sortKey.batchKey with _ | _ | proof
    · exact ⟨by simp, .inl ⟨s.full, some rest, rfl, fun h => ⟨rest, rfl, h⟩⟩⟩
    · exact ⟨by simp, .inl ⟨s.full, some rest, rfl, fun h => ⟨rest, rfl, h⟩⟩⟩
    · dsimp only
      split_ifs with hlimit hlast
      · exact ⟨by simp, .inl ⟨true, none, rfl, by simp [hlimit]⟩⟩
      · exact ⟨by simp, .inr ⟨_, rest, proof, _, _, rfl,
          ⟨hbatch, hproof⟩, rfl, rfl, by simpa using hlimit⟩⟩
      · exact ⟨by simp, .inr ⟨_, rest, proof, _, _, rfl,
          ⟨hbatch, hproof⟩, rfl, rfl, by simpa using hlimit⟩⟩

/-- What `pull_proofs` has taken is allowed, and each key is taken or still to be visited once. -/
structure Pulling (canon : AuthorKey → BatchInfo) (q : ProofQueue) (committed : List AuthorKey)
    (excluded : List BatchInfo) (s : PullState) (iters : List (List (BatchSortKey × BatchInfo))) :
    Prop where
  once : PullOnce (fun proof : ProofOfStore => AuthorKey.fromInfo proof.info) s.ret iters
  allowed : ∀ proof ∈ s.ret, Allowed committed excluded (.fromInfo proof.info) ∧
    Canonical canon proof.info
  entries : ∀ e ∈ iters.flatten, e ∈ q.authorToBatches

theorem Pulling.skip {s s' : PullState} (h : Pulling canon q committed excluded s iters)
    (hsub : iters'.flatten.Sublist iters.flatten) (hret : s'.ret = s.ret) :
    Pulling canon q committed excluded s' iters' := by
  constructor
  · rw [hret]
    exact h.once.sublist hsub
  · rw [hret]
    exact h.allowed
  · intro entry hentry
    exact h.entries entry (hsub.subset hentry)

variable (h : q.Sound canon committed) (hexcluded : ∀ info ∈ excluded, Canonical canon info)

include h hexcluded

theorem Pulling.visit (limits : PullLimits) {s : PullState}
    (hpull : Pulling canon q committed excluded s (iter :: iters)) :
    Pulling canon q committed excluded (q.pullVisit excluded limits s iter).1
      ((q.pullVisit excluded limits s iter).2.toList ++ iters) := by
  obtain ⟨hkept, ⟨full, kept, hvisit, -⟩ |
    ⟨e, rest, proof, next, kept, rfl, ⟨hbatch, hproof⟩, hvisit, hret, -⟩⟩ :=
      q.pullVisit_cases excluded limits s iter
  · rw [hvisit] at hkept ⊢
    refine hpull.skip ?_ rfl
    cases kept with
    | none => exact List.sublist_append_right ..
    | some l =>
      obtain ⟨e, rfl⟩ := hkept l rfl
      exact (List.sublist_cons_self e l).append_right _
  · have hentry := hpull.entries e (List.mem_append_left _ List.mem_cons_self)
    obtain ⟨hkey, hcanon⟩ := h.batches.entries _ hentry
    obtain ⟨hproofKey, hproofCanon⟩ := h.proofs _ _ hproof
    have hallowed : Allowed committed excluded (.fromInfo proof.info) := by
      rw [hproofKey]
      constructor
      · intro hcommitted
        rcases h.committed _ hcommitted with hmark | ⟨hnone, -⟩
        · simp [hproof] at hmark
        · simp [hproof] at hnone
      · intro hexcl
        apply hbatch
        apply mem_excluded hexcluded hcanon
        rw [hkey] at hexcl
        exact hexcl
    -- whatever the counters say, the proof is taken once
    have htake : Pulling canon q committed excluded next (rest :: iters) := by
      refine ⟨?_, ?_, ?_⟩
      · rw [hret]
        exact hpull.once.take hproofKey
      · rw [hret]
        apply forall_mem_snoc hpull.allowed
        exact ⟨hallowed, hproofCanon⟩
      · intro other hother
        exact hpull.entries other (List.mem_cons_of_mem _ hother)
    rw [hvisit] at hkept ⊢
    cases kept with
    | none => exact htake.skip (List.sublist_append_right ..) rfl
    | some l =>
      obtain ⟨_, heq⟩ := hkept l rfl
      obtain ⟨-, rfl⟩ := List.cons.inj heq
      exact htake

/-- The proofs that `pull_proofs` returns are allowed and distinct. -/
theorem Sound.pullProofs
    (shuffle : Shuffle (List (BatchSortKey × BatchInfo))) (limits : PullLimits) :
    (((q.pullProofs shuffle excluded limits).1.map fun p => AuthorKey.fromInfo p.info).Nodup) ∧
      ∀ proof ∈ (q.pullProofs shuffle excluded limits).1,
        Allowed committed excluded (.fromInfo proof.info) ∧ Canonical canon proof.info := by
  unfold ProofQueue.pullProofs
  simp only
  generalize excluded.flatMap _ = filtered
  have hstart : Pulling canon q committed excluded { filteredTxns := filtered }
      q.authorToBatches.iterators := by
    refine ⟨?_, ?_, ?_⟩
    · exact nodup_iterators h.batches.nodup_batchKey
    · intro proof hproof
      cases hproof
    · intro e he
      exact mem_of_mem_iterators he
  obtain ⟨left, hend⟩ := roundRobin_inv (I := Pulling canon q committed excluded) shuffle
    (roundFuel q.authorToBatches.iterators) 0
    (fun s l l' hperm hpull => ⟨hpull.once.perm hperm, hpull.allowed,
      fun e he => hpull.entries e (hperm.flatten.mem_iff.mpr he)⟩)
    (fun s iter rest hpull => Pulling.visit h hexcluded limits hpull) hstart
  generalize roundRobin shuffle (q.pullVisit excluded limits) _ 0 _ _ = s at hend ⊢
  split
  · have hperm := List.perm_insertionSort
      (fun a b : ProofOfStore => b.info.gasBucketStart ≤ a.info.gasBucketStart) s.ret
    constructor
    · apply (hperm.map _).nodup_iff.mpr
      exact (List.nodup_append.mp hend.once).1
    · intro proof hproof
      exact hend.allowed proof (hperm.mem_iff.mp hproof)
  · refine ⟨List.nodup_nil, ?_⟩
    intro proof hproof
    cases hproof

end ProofQueue

/-! ## The queue of batches -/

/-- The invariant of the queue of batches: no committed batch is in it. -/
structure QueueSound (canon : AuthorKey → BatchInfo) (committed : List AuthorKey)
    (queue : AuthorBatches) : Prop where
  batches : BatchesSound canon queue
  fresh : ∀ e ∈ queue, AuthorKey.fromInfo e.2 ∉ committed

section Queue

variable {canon : AuthorKey → BatchInfo} {committed : List AuthorKey} {batches : AuthorBatches}
  (h : QueueSound canon committed batches)

include h

theorem QueueSound.filter
    (p : BatchSortKey × BatchInfo → Bool) : QueueSound canon committed (batches.filter p) :=
  ⟨h.batches.filter p, fun e he => h.fresh e (List.mem_of_mem_filter he)⟩

theorem QueueSound.removeBatch (batch : BatchInfo) :
    QueueSound canon committed (BatchQueue.removeBatch batches batch) :=
  h.filter fun e => decide (e.1 ≠ BatchSortKey.fromInfo batch)

theorem QueueSound.commit {committedNow : List BatchInfo}
    (hcanon : ∀ info ∈ committedNow, Canonical canon info) :
    QueueSound canon (committed ++ committedNow.map AuthorKey.fromInfo)
      (committedNow.foldl BatchQueue.removeBatch batches) := by
  induction committedNow generalizing batches committed with
  | nil => simpa using h
  | cons batch rest ih =>
    obtain ⟨hbatch, hrest⟩ := List.forall_mem_cons.mp hcanon
    have hremoved : QueueSound canon (committed ++ [.fromInfo batch])
        (BatchQueue.removeBatch batches batch) := by
      refine ⟨(h.removeBatch batch).batches, ?_⟩
      intro e he hmem
      have hmem' : e ∈ batches := List.mem_of_mem_filter he
      rcases List.mem_append.mp hmem with hmem | hmem
      · exact h.fresh e hmem' hmem
      · -- an entry with the key of the batch is the batch itself
        obtain ⟨hkey, hecanon⟩ := h.batches.entries e hmem'
        have hinfo : e.2 = batch := by
          rw [← hecanon, ← hbatch, List.mem_singleton.mp hmem]
        have hne := of_decide_eq_true (List.mem_filter.mp he).2
        apply hne
        rw [hkey, hinfo]
    simpa using ih hremoved hrest

theorem QueueSound.addBatches {added : List BatchInfo}
    (hcanon : ∀ info ∈ added, Canonical canon info)
    (hfresh : ∀ info ∈ added, AuthorKey.fromInfo info ∉ committed) :
    QueueSound canon committed (BatchQueue.addBatches batches added) := by
  induction added generalizing batches with
  | nil => exact h
  | cons batch rest ih =>
    obtain ⟨hbatch, hcanonRest⟩ := List.forall_mem_cons.mp hcanon
    obtain ⟨hnew, hfreshRest⟩ := List.forall_mem_cons.mp hfresh
    exact ih ⟨h.batches.put hbatch, Table.forall_mem_put h.fresh hnew⟩ hcanonRest hfreshRest

end Queue

namespace BatchQueue

variable {canon : AuthorKey → BatchInfo} {batches : AuthorBatches}

/-- What `pull_batches` has taken is in the queue and not excluded, and each key is taken or still
to be visited once. -/
structure Inlining (batches : AuthorBatches) (excluded : List BatchInfo) (s : InlineState)
    (iters : List (List (BatchSortKey × BatchInfo))) : Prop where
  once : PullOnce (fun e : BatchInfo × List SignedTransaction => AuthorKey.fromInfo e.1) s.result
    iters
  taken : ∀ e ∈ s.result, (∃ key, (key, e.1) ∈ batches) ∧ e.1 ∉ excluded
  entries : ∀ e ∈ iters.flatten, e ∈ batches

theorem Inlining.skip {s s' : InlineState}
    (h : Inlining batches excluded s iters) (hsub : iters'.flatten.Sublist iters.flatten)
    (hresult : s'.result = s.result) :
    Inlining batches excluded s' iters' := by
  constructor
  · rw [hresult]
    exact h.once.sublist hsub
  · rw [hresult]
    exact h.taken
  · intro entry hentry
    exact h.entries entry (hsub.subset hentry)

theorem Inlining.visit (h : BatchesSound canon batches)
    (localPayload : BatchKey → Option (List SignedTransaction)) (maxTxns maxBytes : Nat)
    {s : InlineState} (hpull : Inlining batches excluded s (iter :: iters)) :
    Inlining batches excluded (pullVisit localPayload maxTxns maxBytes excluded s iter).1
      ((pullVisit localPayload maxTxns maxBytes excluded s iter).2.toList ++ iters) := by
  cases iter with
  | nil => exact ⟨hpull.once, hpull.taken, hpull.entries⟩
  | cons e rest =>
    obtain ⟨sortKey, batch⟩ := e
    have hdrop : iters.flatten.Sublist (((sortKey, batch) :: rest) :: iters).flatten :=
      List.sublist_append_right ..
    have hnext : (rest :: iters).flatten.Sublist (((sortKey, batch) :: rest) :: iters).flatten :=
      List.sublist_cons_self ..
    simp only [pullVisit]
    split_ifs with hfull hbatch hroom
    · exact hpull.skip hdrop rfl
    · exact hpull.skip hnext rfl
    · cases localPayload batch.key with
      | none => exact hpull.skip hnext rfl
      | some txns =>
        have hentry := hpull.entries (sortKey, batch)
          (List.mem_append_left _ List.mem_cons_self)
        have hkey := (h.entries _ hentry).1
        refine ⟨hpull.once.take (b := (batch, txns)) ?_, ?_, ?_⟩
        · simp only at hkey ⊢
          rw [hkey]
          rfl
        · apply forall_mem_snoc hpull.taken
          exact ⟨⟨sortKey, hentry⟩, hbatch⟩
        · intro other hother
          exact hpull.entries other (hnext.subset hother)
    · exact hpull.skip hdrop rfl

/-- The batches that `pull_batches` returns are distinct, in the queue and not excluded. -/
theorem pullBatches_sound (h : BatchesSound canon batches)
    (shuffle : Shuffle (List (BatchSortKey × BatchInfo)))
    (localPayload : BatchKey → Option (List SignedTransaction)) (maxTxns maxBytes : Nat)
    (excluded : List BatchInfo) :
    (((pullBatches batches shuffle localPayload maxTxns maxBytes excluded).map
      fun e => AuthorKey.fromInfo e.1).Nodup) ∧
      ∀ e ∈ pullBatches batches shuffle localPayload maxTxns maxBytes excluded,
        (∃ key, (key, e.1) ∈ batches) ∧ e.1 ∉ excluded := by
  have hstart : Inlining batches excluded {} batches.iterators := by
    refine ⟨?_, ?_, ?_⟩
    · exact nodup_iterators h.nodup_batchKey
    · intro e he
      cases he
    · intro e he
      exact mem_of_mem_iterators he
  obtain ⟨left, hend⟩ := roundRobin_inv (I := Inlining batches excluded) shuffle
    (roundFuel batches.iterators) 0
    (fun s l l' hperm hpull => ⟨hpull.once.perm hperm, hpull.taken,
      fun e he => hpull.entries e (hperm.flatten.mem_iff.mpr he)⟩)
    (fun s iter rest hpull => Inlining.visit h localPayload maxTxns maxBytes hpull) hstart
  exact ⟨(List.nodup_append.mp hend.once).1, hend.taken⟩

end BatchQueue

/-! ## Runs -/

/-- The batches that an event names. -/
def Event.infos : Event → List BatchInfo
  | .receiveProofs proofs => proofs.map (·.info)
  | .receiveBatches batches => batches.map (·.1)
  | .commitNotification _ _ batches => batches
  | .gcSummaries _ => []
  | .proposalRequest request => request.filter.excluded

/-- An author and a batch identifier stand for one batch, and where batches may be proposed inline
none is delivered after its commit. -/
def Event.Regular (canon : AuthorKey → BatchInfo) (w : Node) (event : Event) : Prop :=
  (∀ info ∈ event.infos, Canonical canon info) ∧
    match event with
    | .receiveBatches batches => w.manager.allowBatchesWithoutPosInProposal = true →
      ∀ batch ∈ batches, AuthorKey.fromInfo batch.1 ∉ w.committed
    | _ => True

/-- A payload has each batch once, and none that is committed or excluded. -/
def Fresh (committed : List AuthorKey) (excluded : List BatchInfo) (payload : Payload) : Prop :=
  (payload.proposed.map AuthorKey.fromInfo).Nodup ∧
    ∀ info ∈ payload.proposed, Allowed committed excluded (.fromInfo info)

structure ProofManager.Sound (canon : AuthorKey → BatchInfo) (committed : List AuthorKey)
    (m : ProofManager) : Prop where
  proofs : m.proofsForConsensus.Sound canon committed
  batches : QueueSound canon committed m.batchQueue

namespace ProofManager

variable {canon : AuthorKey → BatchInfo} {committed : List AuthorKey} {m : ProofManager}

theorem Sound.receiveProofs (h : m.Sound canon committed) {proofs : List ProofOfStore}
    (hcanon : ∀ proof ∈ proofs, Canonical canon proof.info) :
    (proofs.foldl ProofManager.receiveProof m).Sound canon committed := by
  induction proofs generalizing m with
  | nil => exact h
  | cons proof rest ih =>
    obtain ⟨hproof, hrest⟩ := List.forall_mem_cons.mp hcanon
    exact ih ⟨h.proofs.push hproof, h.batches.removeBatch proof.info⟩ hrest

theorem sound_addBatchSummaries {q : ProofQueue} (h : q.Sound canon committed)
    (batches : List (BatchInfo × List TxnSummaryWithExpiration)) :
    (batches.foldl (fun q batch => q.addBatchSummary batch.1 batch.2) q).Sound canon committed := by
  induction batches generalizing q with
  | nil => exact h
  | cons batch rest ih => exact ih (h.addBatchSummary batch.1 batch.2)

theorem Sound.receiveBatches (h : m.Sound canon committed)
    {batches : List (BatchInfo × List TxnSummaryWithExpiration)}
    (hcanon : ∀ info ∈ batches.map (·.1), Canonical canon info)
    (hfresh : m.allowBatchesWithoutPosInProposal = true →
      ∀ batch ∈ batches, AuthorKey.fromInfo batch.1 ∉ committed) :
    (m.receiveBatches batches).Sound canon committed := by
  refine ⟨sound_addBatchSummaries h.proofs batches, ?_⟩
  change QueueSound canon committed (if m.allowBatchesWithoutPosInProposal then _ else _)
  by_cases hallow : m.allowBatchesWithoutPosInProposal = true
  · rw [if_pos hallow]
    apply h.batches.addBatches hcanon
    intro info hinfo
    obtain ⟨batch, hbatch, rfl⟩ := List.mem_map.mp hinfo
    exact hfresh hallow batch hbatch
  · rw [if_neg hallow]
    exact h.batches

theorem Sound.handleCommitNotification (h : m.Sound canon committed) (now blockTimestamp : Nat)
    (batches : List BatchInfo) (hcanon : ∀ info ∈ batches, Canonical canon info) :
    Ensures (m.handleCommitNotification now blockTimestamp batches)
      (fun m' => m'.Sound canon (committed ++ batches.map AuthorKey.fromInfo))
      (fun _ => True) := by
  unfold ProofManager.handleCommitNotification
  apply (h.proofs.markCommitted_all batches).bind
  intro marked _ hmarked
  apply (hmarked.handleUpdatedBlockTimestamp blockTimestamp).bind
  intro proofs _ hproofs
  exact ensures_pure ⟨hproofs,
    (h.batches.filter fun e => !decide (e.2.expiration < now)).commit hcanon⟩

/-- Pulled proofs, and batches of the queue that are not among them, make a fresh payload. -/
theorem Sound.fresh_inline (h : m.Sound canon committed)
    (hexcluded : ∀ info ∈ excluded, Canonical canon info) {proofBlock : List ProofOfStore}
    (hproofsNodup : (proofBlock.map fun p => AuthorKey.fromInfo p.info).Nodup)
    (hproofs : ∀ p ∈ proofBlock, Allowed committed excluded (.fromInfo p.info) ∧
      Canonical canon p.info) {inlineBlock : List (BatchInfo × List SignedTransaction)}
    (hnodup : (inlineBlock.map fun e => AuthorKey.fromInfo e.1).Nodup)
    (htaken : ∀ e ∈ inlineBlock, (∃ key, (key, e.1) ∈ m.batchQueue) ∧
      e.1 ∉ excluded ++ proofBlock.map (·.info)) :
    Fresh committed excluded (.quorumStoreInlineHybrid inlineBlock proofBlock none) := by
  constructor
  · simp only [Payload.proposed, List.map_append, List.map_map]
    rw [List.nodup_append']
    refine ⟨hproofsNodup, hnodup, ?_⟩
    intro key hproofKey hinlineKey
    obtain ⟨proof, hproof, rfl⟩ := List.mem_map.mp hproofKey
    obtain ⟨e, he, hkey⟩ := List.mem_map.mp hinlineKey
    obtain ⟨⟨sortKey, hentry⟩, hnot⟩ := htaken e he
    have hcanon : Canonical canon e.1 := (h.batches.batches.entries _ hentry).2
    have hsame : e.1 = proof.info := by
      rw [← hcanon, ← (hproofs proof hproof).2]
      exact congrArg canon hkey
    apply hnot
    rw [hsame]
    exact List.mem_append_right _ (List.mem_map_of_mem hproof)
  · intro info hinfo
    rcases List.mem_append.mp hinfo with hinfo | hinfo
    · obtain ⟨proof, hproof, rfl⟩ := List.mem_map.mp hinfo
      exact (hproofs proof hproof).1
    · obtain ⟨e, he, rfl⟩ := List.mem_map.mp hinfo
      obtain ⟨⟨sortKey, hentry⟩, hnot⟩ := htaken e he
      refine ⟨h.batches.fresh _ hentry, ?_⟩
      intro hexcl
      apply hnot
      apply List.mem_append_left
      exact mem_excluded hexcluded (h.batches.batches.entries _ hentry).2 hexcl

theorem Sound.handleProposalRequest (h : m.Sound canon committed) {r : PayloadRequest}
    (hexcluded : ∀ info ∈ r.filter.excluded, Canonical canon info) {payload : Payload}
    (hpayload : m.handleProposalRequest r = .ok payload) :
    Fresh committed r.filter.excluded payload := by
  unfold ProofManager.handleProposalRequest at hpayload
  rw [except_seq_ok_iff] at hpayload
  obtain ⟨-, hpayload⟩ := hpayload
  simp only [except_pure_ok_iff] at hpayload
  obtain ⟨hproofsNodup, hproofs⟩ := h.proofs.pullProofs hexcluded r.proofOrder r.limits
  generalize m.proofsForConsensus.pullProofs r.proofOrder r.filter.excluded r.limits = pulled
    at hpayload hproofsNodup hproofs
  obtain ⟨proofBlock, curUniqueTxns, fullyUtilized⟩ := pulled
  simp only at hpayload hproofsNodup hproofs
  have hinlineBlock : ∀ maxTxns maxBytes, Fresh committed r.filter.excluded
      (.quorumStoreInlineHybrid (if m.allowBatchesWithoutPosInProposal && fullyUtilized then
        BatchQueue.pullBatches m.batchQueue r.batchOrder r.localPayload maxTxns maxBytes
          (r.filter.excluded ++ proofBlock.map (·.info)) else []) proofBlock none) := by
    intro maxTxns maxBytes
    split_ifs with hpull
    · obtain ⟨hnodup, htaken⟩ := BatchQueue.pullBatches_sound h.batches.batches r.batchOrder
        r.localPayload maxTxns maxBytes (r.filter.excluded ++ proofBlock.map (·.info))
      exact h.fresh_inline hexcluded hproofsNodup hproofs hnodup htaken
    · apply h.fresh_inline hexcluded hproofsNodup hproofs
      · exact List.nodup_nil
      · intro e he
        cases he
  have hresult := hinlineBlock
    (min (min (r.limits.maxTxns - (proofBlock.map (·.info.numTxns)).sum)
      (r.limits.maxTxnsAfterFiltering - curUniqueTxns)) r.maxInlineTxns)
    (min (r.limits.maxBytes - (proofBlock.map (·.info.numBytes)).sum) r.maxInlineBytes)
  generalize (if m.allowBatchesWithoutPosInProposal && fullyUtilized then
    BatchQueue.pullBatches m.batchQueue r.batchOrder r.localPayload _ _ _ else []) = inlineBlock
    at hresult hpayload
  subst hpayload
  split_ifs with hempty hallow hnoInline
  · exact ⟨List.nodup_nil, by intro info hinfo; cases hinfo⟩
  · exact ⟨List.nodup_nil, by intro info hinfo; cases hinfo⟩
  · rw [hnoInline] at hresult
    simpa [Fresh, Payload.proposed] using hresult
  · exact hresult

end ProofManager

/-- The invariant of a run: a manager that has not stopped is sound. -/
def Node.Sound (canon : AuthorKey → BatchInfo) (w : Node) : Prop :=
  w.stopped = true ∨ w.manager.Sound canon w.committed

theorem Node.Sound.step {canon : AuthorKey → BatchInfo} {w : Node} (h : w.Sound canon)
    {event : Event} (hregular : event.Regular canon w) : (w.step event).2.Sound canon := by
  obtain ⟨hcanon, hfresh⟩ := hregular
  unfold Node.step
  by_cases hstopped : w.stopped = true
  · rw [if_pos hstopped]
    exact h
  · rw [if_neg hstopped]
    have hsound : w.manager.Sound canon w.committed := by
      rcases h with h | h
      · exact absurd h hstopped
      · exact h
    cases event with
    | receiveProofs proofs =>
      refine .inr (hsound.receiveProofs ?_)
      intro proof hproof
      exact hcanon _ (List.mem_map_of_mem hproof)
    | receiveBatches batches => exact .inr (hsound.receiveBatches hcanon hfresh)
    | commitNotification now blockTimestamp batches =>
      have hcommit := hsound.handleCommitNotification now blockTimestamp batches hcanon
      simp only
      cases hresult : w.manager.handleCommitNotification now blockTimestamp batches with
      | ok manager =>
        rw [hresult] at hcommit
        exact .inr hcommit
      | error e => exact .inl rfl
    | gcSummaries now =>
      exact .inr ⟨hsound.proofs.gcExpiredBatchSummaries now, hsound.batches⟩
    | proposalRequest request =>
      simp only
      cases w.manager.handleProposalRequest request with
      | ok payload => exact h
      | error e => exact .inl rfl

/-- In every order of events that are regular, a payload has each batch once, and none that was in
an earlier commit notification or is excluded by the request. -/
theorem proposals_fresh (canon : AuthorKey → BatchInfo) (myPeerId : Author) (allow : Bool)
    (events : List Event)
    (h : AlongRun Node.step (Event.Regular canon) { manager := .new myPeerId allow } events) :
    ∀ before request after, events = before ++ .proposalRequest request :: after →
      ∀ w, w = (run Node.step { manager := .new myPeerId allow } before).2 → ∀ payload,
        (w.step (.proposalRequest request)).1 = some payload →
        Fresh w.committed request.filter.excluded payload := by
  intro before request after hsplit w hw payload hpayload
  rw [hsplit, alongRun_append] at h
  have hstart : Node.Sound canon { manager := .new myPeerId allow } := by
    refine .inr ⟨⟨⟨?_, List.nodup_nil⟩, ?_, ?_, ?_⟩, ⟨⟨?_, List.nodup_nil⟩, ?_⟩⟩
    · intro e he
      cases he
    · intro key proof hget
      cases hget
    · intro e he
      cases he
    · intro key hkey
      cases hkey
    · intro e he
      cases he
    · intro e he
      cases he
  have hsound : w.Sound canon := by
    rw [hw]
    exact AlongRun.invariant (I := Node.Sound canon) (fun s i hi hs => hs.step hi) h.1 hstart
  have hexcluded := h.2.1.1
  rw [Node.step] at hpayload
  by_cases hstopped : w.stopped = true
  · simp [if_pos hstopped] at hpayload
  · rw [if_neg hstopped] at hpayload
    rcases hsound with hsound | hsound
    · exact absurd hsound hstopped
    · cases hresult : w.manager.handleProposalRequest request with
      | error e => simp [hresult] at hpayload
      | ok answered =>
        simp only [hresult, Option.some.injEq] at hpayload
        subst hpayload
        exact hsound.handleProposalRequest hexcluded hresult

/-! ### A batch that is delivered again -/

namespace LateBatch

def info (author id : Nat) : BatchInfo where
  author := author
  batchId := { id := id, nonce := 0 }
  epoch := 1
  expiration := 100
  digest := id
  numTxns := 1
  numBytes := 1
  gasBucketStart := 0

/-- Every key stands for the batch that is made from it. -/
def canon (key : AuthorKey) : BatchInfo := info key.author key.batchId.id

def proof (author id : Nat) : ProofOfStore where
  info := info author id
  multiSignature := { signers := [], sig := none }

/-- A request with room for everything; every batch has an empty payload. -/
def request : Event := .proposalRequest
  { limits :=
      { maxTxns := 10, maxTxnsAfterFiltering := 10, softMaxTxnsAfterFiltering := 10, maxBytes := 10
        returnNonFull := true, blockTimestampSecs := 0 }
    maxInlineTxns := 10
    maxInlineBytes := 10
    filter := .inQuorumStore [info 1 3]
    localPayload := fun _ => some []
    proofOrder := Shuffle.none _
    batchOrder := Shuffle.none _ }

/-- A batch is committed with its proof, a second one is waiting for its proof, a third is
excluded. -/
def committedOnce : List Event :=
  [.receiveProofs [proof 1 1], .receiveBatches [(info 1 2, []), (info 1 3, [])],
    .commitNotification 5 5 [info 1 1]]

/-- The committed batch is delivered again. -/
def deliveredAgain : List Event := committedOnce ++ [.receiveBatches [(info 1 1, [])]]

def start : Node where
  manager := .new 0 true

theorem regular_committedOnce :
    AlongRun Node.step (Event.Regular canon) start (committedOnce ++ [request]) := by
  refine ⟨⟨?_, trivial⟩, ⟨?_, by rintro _ batch _ ⟨⟩⟩, ⟨?_, trivial⟩, ⟨?_, trivial⟩, trivial⟩ <;>
    unfold Canonical <;> decide

/-- Only the batch that waits for its proof is proposed. -/
theorem proposals_fresh_committedOnce : ∃ payload,
    ((run Node.step start committedOnce).2.step request).1 = some payload ∧
      payload.proposed = [info 1 2] ∧
      Fresh (run Node.step start committedOnce).2.committed [info 1 3] payload := by
  have hanswer : ((run Node.step start committedOnce).2.step request).1 =
      some (.quorumStoreInlineHybrid [(info 1 2, [])] [] none) := rfl
  exact ⟨_, hanswer, rfl, proposals_fresh canon 0 true _ regular_committedOnce committedOnce _ []
    rfl _ rfl _ hanswer⟩

/-- A batch that comes again after its commit is proposed again. -/
theorem proposals_repeat_deliveredAgain : ∃ payload,
    ((run Node.step start deliveredAgain).2.step request).1 = some payload ∧
      info 1 1 ∈ payload.proposed ∧
      AuthorKey.fromInfo (info 1 1) ∈ (run Node.step start deliveredAgain).2.committed := by
  have hanswer : ((run Node.step start deliveredAgain).2.step request).1 =
      some (.quorumStoreInlineHybrid [(info 1 1, []), (info 1 2, [])] [] none) := rfl
  exact ⟨_, hanswer, by decide, by decide⟩

end LateBatch

end Liquent.QuorumStore
