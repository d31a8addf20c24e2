import Liquent.QuorumStore.ProofManager

/-!
# Expired batches leave the queue of proofs

`push` puts every batch that it stores into the heap of expirations, and
`handle_updated_block_timestamp` takes what has expired out of both maps.  `mark_committed` writes
to `batch_to_proof` too, but never to the heap: a batch that is committed without a proof in the
queue, such as an inline batch, keeps its entry forever.
-/

namespace Liquent.QuorumStore

open Misc

/-- What calls lead to, with the batches that were pushed or committed; commits are those that
`Allowed` admits. -/
inductive ProofQueue.Reached (Allowed : ProofQueue → BatchInfo → Prop) :
    List BatchInfo → ProofQueue → Prop
  | new (myPeerId : Author) : Reached Allowed [] { myPeerId }
  | push {seen q} (proof : ProofOfStore) (h : Reached Allowed seen q) :
    Reached Allowed (proof.info :: seen) (q.push proof)
  | addBatchSummary {seen q} (info : BatchInfo) (txnSummaries : List TxnSummaryWithExpiration)
    (h : Reached Allowed seen q) : Reached Allowed seen (q.addBatchSummary info txnSummaries)
  | gcExpiredBatchSummaries {seen q} (now : Nat) (h : Reached Allowed seen q) :
    Reached Allowed seen (q.gcExpiredBatchSummaries now)
  | markCommitted {seen q q'} (batch : BatchInfo) (hbatch : Allowed q batch)
    (h : Reached Allowed seen q) (hq : q.markCommitted batch = .ok q') :
    Reached Allowed (batch :: seen) q'
  | handleUpdatedBlockTimestamp {seen q q'} {t : Nat} (h : Reached Allowed seen q)
    (hq : q.handleUpdatedBlockTimestamp t = .ok q') : Reached Allowed seen q'

/-- The batch has an entry in `batch_to_proof`: a proof of it is, or was, in the queue. -/
def ProofQueue.Known (q : ProofQueue) (batch : BatchInfo) : Prop :=
  AuthorKey.fromInfo batch ∈ q.batchToProof.keys

/-- At time `t` both maps only have entries for batches that have not expired. -/
structure ProofQueue.Forgets (t : Nat) (seen : List BatchInfo) (q : ProofQueue) : Prop where
  authorToBatches : ∀ e ∈ q.authorToBatches, t < e.2.expiration
  batchToProof : ∀ key ∈ q.batchToProof.keys,
    ∃ batch ∈ seen, AuthorKey.fromInfo batch = key ∧ t < batch.expiration
  authorToBatches_le : q.authorToBatches.length ≤ (seen.filter (t < ·.expiration)).dedup.length
  batchToProof_le : q.batchToProof.length ≤ (seen.filter (t < ·.expiration)).dedup.length

namespace ProofQueue

variable {seen : List BatchInfo} {q q' : ProofQueue} {expired : List BatchSortKey}

/-- Every batch of the queue is in the heap, or among the keys that are being expired. -/
structure Tracked (expired : List BatchSortKey) (seen : List BatchInfo) (q : ProofQueue) :
    Prop where
  batches : ∀ e ∈ q.authorToBatches, e.1 = BatchSortKey.fromInfo e.2 ∧ e.2 ∈ seen ∧
    ((e.2.expiration, e.1) ∈ q.expirations ∨ e.1 ∈ expired)
  proofs : ∀ key ∈ q.batchToProof.keys, ∃ sortKey ∈ q.authorToBatches.keys, sortKey.batchKey = key
  batches_nodup : q.authorToBatches.keys.Nodup
  proofs_nodup : q.batchToProof.keys.Nodup

theorem Tracked.see (h : Tracked expired seen q) (batch : BatchInfo) :
    Tracked expired (batch :: seen) q :=
  { h with
    batches := fun e he => (h.batches e he).imp_right (And.imp_left (List.mem_cons_of_mem _)) }

theorem Tracked.push (h : Tracked [] seen q) (proof : ProofOfStore) :
    Tracked [] (proof.info :: seen) (q.push proof) := by
  have hsame := h.see proof.info
  unfold ProofQueue.push
  simp only
  split
  · exact hsame
  split
  · exact hsame
  refine ⟨?_, ?_, Table.nodup_keys_put h.batches_nodup _ _, Table.nodup_keys_put h.proofs_nodup _ _⟩
  · refine Table.forall_mem_put (fun e he => ?_) (by simp)
    obtain ⟨hkey, hseen, hheap⟩ := hsame.batches e he
    exact ⟨hkey, hseen, hheap.imp_left (List.mem_append_left _)⟩
  · intro key hkey
    simp only [Table.mem_keys_put, exists_eq_or_imp] at hkey ⊢
    exact hkey.imp Eq.symm (h.proofs key)

theorem Tracked.markCommitted (h : Tracked [] seen q) {batch : BatchInfo} (hknown : q.Known batch)
    (hq : q.markCommitted batch = .ok q') : Tracked [] (batch :: seen) q' := by
  simp only [ProofQueue.markCommitted, except_bind_ok_iff, except_pure_ok_iff] at hq
  obtain ⟨remaining, -, rfl⟩ := hq
  refine { h.see batch with proofs := ?_, proofs_nodup := Table.nodup_keys_put h.proofs_nodup _ _ }
  intro key hkey
  rcases Table.mem_keys_put.mp hkey with rfl | hkey
  · exact h.proofs _ hknown
  · exact h.proofs key hkey

theorem Tracked.expireKey {sortKey : BatchSortKey} (h : Tracked (sortKey :: expired) seen q)
    (hq : q.expireKey sortKey = .ok q') :
    Tracked expired seen q' ∧ q'.expirations = q.expirations := by
  -- an entry that stays has another key
  have hother : ∀ e ∈ q.authorToBatches, e.1 ≠ sortKey → e.1 = BatchSortKey.fromInfo e.2 ∧
      e.2 ∈ seen ∧ ((e.2.expiration, e.1) ∈ q.expirations ∨ e.1 ∈ expired) := by
    intro e he hne
    simpa [hne] using h.batches e he
  unfold ProofQueue.expireKey at hq
  cases hget : q.authorToBatches.get sortKey with
  | none =>
    rw [hget] at hq
    obtain rfl := Except.ok.inj hq
    refine ⟨{ h with batches := fun e he => hother e he ?_ }, rfl⟩
    rintro rfl
    have hsome := Table.mem_keys_iff.mp (List.mem_map_of_mem he)
    simp [hget] at hsome
  | some info =>
    simp only [hget, except_bind_ok_iff, except_pure_ok_iff] at hq
    obtain ⟨proof, -, remaining, -, rfl⟩ := hq
    refine ⟨⟨?_, ?_, h.batches_nodup.sublist (List.filter_sublist.map _),
      h.proofs_nodup.sublist (List.filter_sublist.map _)⟩, rfl⟩
    · intro e he
      obtain ⟨he, hne⟩ := List.mem_filter.mp he
      exact hother e he (of_decide_eq_true hne)
    · intro key hkey
      simp only [Table.mem_keys_retain, decide_eq_true_eq] at hkey ⊢
      obtain ⟨other, hmem, rfl⟩ := h.proofs key hkey.1
      exact ⟨other, ⟨hmem, fun heq => hkey.2 (by rw [heq])⟩, rfl⟩

theorem Tracked.expireKeys (h : Tracked expired seen q)
    (hq : expired.foldlM ProofQueue.expireKey q = .ok q') :
    Tracked [] seen q' ∧ q'.expirations = q.expirations := by
  induction expired generalizing q with
  | nil =>
    obtain rfl := except_pure_ok_iff.mp hq
    exact ⟨h, rfl⟩
  | cons sortKey rest ih =>
    rw [List.foldlM_cons, except_bind_ok_iff] at hq
    obtain ⟨q₁, hfirst, hrest⟩ := hq
    obtain ⟨hnext, hsame⟩ := h.expireKey hfirst
    rw [← hsame]
    exact ih hnext hrest

/-- After the time has moved to `t`, nothing in the heap or the queue expires by then. -/
theorem Tracked.handleUpdatedBlockTimestamp {t : Nat} (h : Tracked [] seen q)
    (hq : q.handleUpdatedBlockTimestamp t = .ok q') :
    Tracked [] seen q' ∧ ∀ e ∈ q'.authorToBatches, t < e.2.expiration := by
  simp only [ProofQueue.handleUpdatedBlockTimestamp, except_seq_ok_iff] at hq
  have hstart : Tracked ((q.expirations.filter (·.1 ≤ t)).map (·.2)).dedup seen
      { q with latestBlockTimestamp := t, expirations := q.expirations.filter (t < ·.1) } := by
    refine { h with batches := fun e he => ?_ }
    obtain ⟨hkey, hseen, hheap⟩ := h.batches e he
    have hmem := hheap.resolve_right List.not_mem_nil
    refine ⟨hkey, hseen, ?_⟩
    by_cases hlate : t < e.2.expiration
    · exact .inl (by simp [hmem, hlate])
    · right
      simp only [List.mem_dedup, List.mem_map, List.mem_filter, decide_eq_true_eq]
      exact ⟨_, ⟨hmem, by omega⟩, rfl⟩
  obtain ⟨htracked, hexpirations⟩ := hstart.expireKeys hq.2
  refine ⟨htracked, fun e he => ?_⟩
  have hmem := (htracked.batches e he).2.2.resolve_right List.not_mem_nil
  rw [hexpirations] at hmem
  exact of_decide_eq_true (List.mem_filter.mp hmem).2

theorem Reached.tracked (h : Reached Known seen q) : Tracked [] seen q := by
  induction h with
  | new myPeerId => exact ⟨by simp, by simp [Table.keys], .nil, .nil⟩
  | push proof _ ih => exact ih.push proof
  | addBatchSummary info txnSummaries _ ih =>
    unfold ProofQueue.addBatchSummary
    simp only
    split
    · exact { ih with }
    · exact ih
  | gcExpiredBatchSummaries now _ ih => exact { ih with }
  | markCommitted batch hknown _ hq ih => exact ih.markCommitted hknown hq
  | handleUpdatedBlockTimestamp _ hq ih => exact (ih.handleUpdatedBlockTimestamp hq).1

/-- When every batch that is marked committed is known to the queue, the queue forgets batches as
they expire. -/
theorem forgets_expired (h : Reached Known seen q) {t : Nat}
    (hq : q.handleUpdatedBlockTimestamp t = .ok q') : q'.Forgets t seen := by
  obtain ⟨htracked, hlate⟩ := h.tracked.handleUpdatedBlockTimestamp hq
  have hbatches : ∀ sortKey ∈ q'.authorToBatches.keys,
      ∃ batch ∈ seen, BatchSortKey.fromInfo batch = sortKey ∧ t < batch.expiration := by
    intro sortKey hsortKey
    obtain ⟨e, he, rfl⟩ := List.mem_map.mp hsortKey
    obtain ⟨hsort, hseen, -⟩ := htracked.batches e he
    exact ⟨e.2, hseen, hsort.symm, hlate e he⟩
  have hproofs : ∀ key ∈ q'.batchToProof.keys,
      ∃ batch ∈ seen, AuthorKey.fromInfo batch = key ∧ t < batch.expiration := by
    intro key hkey
    obtain ⟨sortKey, hsortKey, rfl⟩ := htracked.proofs key hkey
    obtain ⟨batch, hseen, rfl, hlate⟩ := hbatches sortKey hsortKey
    exact ⟨batch, hseen, rfl, hlate⟩
  refine ⟨hlate, hproofs, ?_, ?_⟩
  · refine Table.length_le BatchSortKey.fromInfo htracked.batches_nodup fun key hkey => ?_
    obtain ⟨batch, hseen, hkey, hlate⟩ := hbatches key hkey
    exact ⟨batch, by simp [hseen, hlate], hkey⟩
  · refine Table.length_le AuthorKey.fromInfo htracked.proofs_nodup fun key hkey => ?_
    obtain ⟨batch, hseen, hkey, hlate⟩ := hproofs key hkey
    exact ⟨batch, by simp [hseen, hlate], hkey⟩

end ProofQueue

/-! ### An inline batch -/

namespace InlineBatch

def batch : BatchInfo where
  author := 1
  batchId := { id := 1, nonce := 0 }
  epoch := 1
  expiration := 5
  digest := 1
  numTxns := 1
  numBytes := 1
  gasBucketStart := 0

/-- A batch with a proof is pushed, committed and forgotten. -/
theorem forgets_proved :
    ProofQueue.Forgets 9 [batch, batch] { myPeerId := 0, latestBlockTimestamp := 9 } :=
  ProofQueue.forgets_expired
    (.markCommitted batch List.mem_cons_self (.push ⟨batch, ⟨[], none⟩⟩ (.new 0)) rfl) rfl

/-- An inline batch is committed; its entry stays. -/
theorem keeps_inline : ∃ q q', ProofQueue.Reached (fun _ _ => True) [batch] q ∧
    q.handleUpdatedBlockTimestamp 9 = .ok q' ∧ ¬ q'.Forgets 9 [batch] := by
  refine ⟨_, _, .markCommitted batch trivial (.new 0) rfl, rfl, ?_⟩
  intro hforgets
  obtain ⟨b, hb, -, hlate⟩ := hforgets.batchToProof (.fromInfo batch) (by decide)
  obtain rfl := List.mem_singleton.mp hb
  exact absurd hlate (by decide)

end InlineBatch

end Liquent.QuorumStore
