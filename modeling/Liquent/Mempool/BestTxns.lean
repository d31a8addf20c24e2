import Liquent.Misc.Lists
import Liquent.BlockBuffer.BlockBufferManager

/-!
# Transactions for a batch

How the transactions of a batch are taken from the pool: `Mempool::best_txns` of the node drains a
cached iterator over the best transactions, and `get_batch_inner` of the core mempool cuts what it
gets to the size of the batch.  The iterator and the last nonce seen of each sender stay for the
next call; a transaction that has been pulled never comes again while the iterator lives.

The transactions that a call looks at are compared with `admitted`, which knows nothing of limits:
those in nonce order that the caller does not exclude.
-/

namespace Liquent.Mempool

open Misc

open BlockBuffer (VerifiedTxn)

/-! ## The two functions -/

/-- A transaction in the pool, with its encoding. -/
structure PoolTransaction where
  sender : Author
  nonce : Nat
  hash : HashValue
  bytes : List UInt8
deriving DecidableEq

structure TransactionSummary where
  sender : Author
  sequenceNumber : Nat
  hash : HashValue
deriving DecidableEq

/-- The size of a signed transaction, which the `laptos` crate computes. -/
class TxnApi where
  rawTxnBytesLen : VerifiedTxn → Nat

def PoolTransaction.summary (txn : PoolTransaction) : TransactionSummary where
  sender := txn.sender
  sequenceNumber := txn.nonce
  hash := txn.hash

/-- `to_verified_txn` (`mempool.rs:176`). -/
def toVerifiedTxn (chainId : Nat) (txn : PoolTransaction) : VerifiedTxn where
  bytes := txn.bytes
  sender := txn.sender
  sequenceNumber := txn.nonce
  chainId := chainId

/-- The cached iterator, as the answers before it gives `None` for good (it may yield again after a
`None`), and the last nonce seen of each sender. -/
structure CachedBest where
  bestTxns : Option (List (Option PoolTransaction)) := none
  lastNonces : Table Author Nat := []
deriving DecidableEq

/-- Whether a transaction follows the last one of its sender. -/
def consecutive (lastNonces : Table Author Nat) (txn : PoolTransaction) : Bool :=
  (lastNonces.get txn.sender).all (txn.nonce = · + 1)

/-- The loop of `best_txns`. -/
def bestTxnsLoop (filter : TransactionSummary → Bool) (chainId limit maxBytes : Nat) :
    List (Option PoolTransaction) → Table Author Nat → List VerifiedTxn → Nat →
      List VerifiedTxn × CachedBest
  | [], lastNonces, result, _ => (result, { bestTxns := some [], lastNonces })
  | none :: rest, lastNonces, result, totalBytes =>
    let asked := result.length < limit ∧ totalBytes < maxBytes
    (result, { bestTxns := some (if asked then rest else none :: rest), lastNonces })
  | some txn :: rest, lastNonces, result, totalBytes =>
    if result.length < limit ∧ totalBytes < maxBytes then
      if !consecutive lastNonces txn then
        bestTxnsLoop filter chainId limit maxBytes rest lastNonces result totalBytes
      else
        -- the nonce is recorded before the filter is asked
        let lastNonces := lastNonces.put txn.sender txn.nonce
        if !filter txn.summary then
          bestTxnsLoop filter chainId limit maxBytes rest lastNonces result totalBytes
        else
          bestTxnsLoop filter chainId limit maxBytes rest lastNonces
            (result ++ [toVerifiedTxn chainId txn]) (totalBytes + txn.bytes.length)
    else (result, { bestTxns := some (some txn :: rest), lastNonces })

/-- The cache that a call works with: a new one where the old has expired or is missing. -/
def CachedBest.current (cache : CachedBest) (expired : Bool)
    (pool : List (Option PoolTransaction)) : CachedBest :=
  if expired || cache.bestTxns.isNone then { bestTxns := some pool } else cache

/-- `Mempool::best_txns` (`mempool.rs:207`); a call that returns nothing drops the iterator. -/
def bestTxns (cache : CachedBest) (filter : TransactionSummary → Bool)
    (chainId limit maxBytes : Nat) : List VerifiedTxn × CachedBest :=
  let (result, cache) := bestTxnsLoop filter chainId limit maxBytes (cache.bestTxns.getD [])
    cache.lastNonces [] 0
  (result, if result = [] then {} else cache)

section Functions

variable [TxnApi]

/-- The loop of `get_batch_inner`. -/
def fillBatch (maxTxns maxBytes : Nat) : List VerifiedTxn → Nat → Nat → List VerifiedTxn
  | [], _, _ => []
  | txn :: rest, count, totalBytes =>
    let txnBytes := TxnApi.rawTxnBytesLen txn
    if maxBytes < totalBytes + txnBytes then []
    else if maxTxns ≤ count + 1 then [txn]
    else txn :: fillBatch maxTxns maxBytes rest (count + 1) (totalBytes + txnBytes)

/-- `get_batch_inner` (`mempool.rs:496`). -/
def getBatchInner (cache : CachedBest) (chainId maxTxns maxBytes : Nat)
    (exclude : List TransactionSummary) : List VerifiedTxn × CachedBest :=
  let (candidates, cache) := bestTxns cache (fun summary => summary ∉ exclude) chainId maxTxns
    maxBytes
  (fillBatch maxTxns maxBytes candidates 0 0, cache)

end Functions

/-! ## What a call may return -/

/-- The nonces recorded after some transactions have been pulled. -/
def anchors : Table Author Nat → List PoolTransaction → Table Author Nat
  | lastNonces, [] => lastNonces
  | lastNonces, txn :: rest =>
    if consecutive lastNonces txn then anchors (lastNonces.put txn.sender txn.nonce) rest
    else anchors lastNonces rest

/-- The transactions in nonce order that pass a test. -/
def chosen (p : PoolTransaction → Bool) :
    Table Author Nat → List PoolTransaction → List PoolTransaction
  | _, [] => []
  | lastNonces, txn :: rest =>
    if consecutive lastNonces txn then
      if p txn then txn :: chosen p (lastNonces.put txn.sender txn.nonce) rest
      else chosen p (lastNonces.put txn.sender txn.nonce) rest
    else chosen p lastNonces rest

/-- The transactions in nonce order that the caller does not exclude. -/
def admitted (exclude : List TransactionSummary) :
    Table Author Nat → List PoolTransaction → List PoolTransaction :=
  chosen fun txn => txn.summary ∉ exclude

/-- The transactions that the iterator yields before its next `None`. -/
def upcoming : List (Option PoolTransaction) → List PoolTransaction
  | some txn :: rest => txn :: upcoming rest
  | _ => []

def payloadBytes (txns : List PoolTransaction) : Nat := (txns.map (·.bytes.length)).sum

def signedBytes [TxnApi] (chainId : Nat) (txns : List PoolTransaction) : Nat :=
  (txns.map fun txn => TxnApi.rawTxnBytesLen (toVerifiedTxn chainId txn)).sum

section Loop

variable {p : PoolTransaction → Bool} {last : Table Author Nat} {txn : PoolTransaction}

theorem chosen_append (pulled rest : List PoolTransaction) :
    chosen p last (pulled ++ rest) = chosen p last pulled ++ chosen p
      (anchors last pulled) rest := by
  induction pulled generalizing last with
  | nil => rfl
  | cons txn pulled ih =>
    simp only [List.cons_append, chosen, anchors]
    by_cases horder : consecutive last txn = true
    · by_cases hp : p txn = true
      · simp only [if_pos horder, if_pos hp, ih, List.cons_append]
      · simp only [if_pos horder, if_neg hp, ih]
    · simp only [if_neg horder, ih]

/-- What the loop of `best_txns` has taken from the iterator when it stops, and that it was within
its limits when it pulled the last transaction that it returns. -/
structure Pulled (filter : TransactionSummary → Bool) (chainId limit maxBytes : Nat)
    (iter : List (Option PoolTransaction)) (last : Table Author Nat) (result : List VerifiedTxn)
    (total : Nat) (answers rest : List (Option PoolTransaction)) : Prop where
  split : iter = answers ++ rest
  ready : answers.filterMap id <+: upcoming iter
  returns : bestTxnsLoop filter chainId limit maxBytes iter last result total =
    (result ++ (chosen (fun txn => filter txn.summary) last (answers.filterMap id)).map
        (toVerifiedTxn chainId),
      { bestTxns := some rest, lastNonces := anchors last (answers.filterMap id) })
  within : ∀ pre txn,
    chosen (fun txn => filter txn.summary) last (answers.filterMap id) = pre ++ [txn] →
      result.length + pre.length < limit ∧ total + payloadBytes pre < maxBytes

theorem exists_pulled (filter : TransactionSummary → Bool) (chainId limit maxBytes : Nat)
    (iter : List (Option PoolTransaction)) (last : Table Author Nat) (result : List VerifiedTxn)
    (total : Nat) : ∃ answers rest,
      Pulled filter chainId limit maxBytes iter last result total answers rest := by
  have hnothing (last pre txn) :
      chosen (fun txn => filter txn.summary) last [] ≠ pre ++ [txn] := by simp [chosen]
  induction iter generalizing last result total with
  | nil =>
    refine ⟨[], [], rfl, List.nil_prefix, ?_, fun pre txn h => (hnothing last pre txn h).elim⟩
    simp [bestTxnsLoop, chosen, anchors]
  | cons answer iter ih =>
    by_cases hlimits : result.length < limit ∧ total < maxBytes
    · cases answer with
      | none =>
        refine ⟨[none], iter, rfl, List.nil_prefix, ?_,
          fun pre txn h => (hnothing last pre txn h).elim⟩
        simp [bestTxnsLoop, hlimits, chosen, anchors]
      | some txn =>
        by_cases horder : consecutive last txn = true
        · by_cases hfilter : filter txn.summary = true
          · -- the transaction is returned
            obtain ⟨answers, rest, hsplit, hready, hreturns, hwithin⟩ :=
              ih (last.put txn.sender txn.nonce) (result ++ [toVerifiedTxn chainId txn])
                (total + txn.bytes.length)
            refine ⟨some txn :: answers, rest, by rw [hsplit]; rfl,
              List.cons_prefix_cons.mpr ⟨rfl, hready⟩, ?_, ?_⟩
            · simp [bestTxnsLoop, hlimits, horder, hfilter, hreturns, chosen, anchors]
            · intro pre last' h
              change chosen _ last (txn :: answers.filterMap id) = _ at h
              simp only [chosen, if_pos horder, if_pos hfilter] at h
              cases pre with
              | nil =>
                simp only [List.length_nil, Nat.add_zero, payloadBytes, List.map_nil, List.sum_nil]
                exact hlimits
              | cons first pre =>
                obtain ⟨rfl, htail⟩ := List.cons.inj h
                have hbound := hwithin pre last' htail
                simp only [List.length_append, List.length_singleton] at hbound
                simp only [List.length_cons, payloadBytes, List.map_cons, List.sum_cons]
                unfold payloadBytes at hbound
                omega
          · obtain ⟨answers, rest, hsplit, hready, hreturns, hwithin⟩ :=
              ih (last.put txn.sender txn.nonce) result total
            refine ⟨some txn :: answers, rest, by rw [hsplit]; rfl,
              List.cons_prefix_cons.mpr ⟨rfl, hready⟩, ?_, ?_⟩
            · simp [bestTxnsLoop, hlimits, horder, hfilter, hreturns, chosen, anchors]
            · intro pre last' h
              change chosen _ last (txn :: answers.filterMap id) = _ at h
              simp only [chosen, if_pos horder, if_neg hfilter] at h
              exact hwithin pre last' h
        · obtain ⟨answers, rest, hsplit, hready, hreturns, hwithin⟩ := ih last result total
          refine ⟨some txn :: answers, rest, by rw [hsplit]; rfl,
            List.cons_prefix_cons.mpr ⟨rfl, hready⟩, ?_, ?_⟩
          · simp [bestTxnsLoop, hlimits, horder, hreturns, chosen, anchors]
          · intro pre last' h
            change chosen _ last (txn :: answers.filterMap id) = _ at h
            simp only [chosen, if_neg horder] at h
            exact hwithin pre last' h
    · refine ⟨[], answer :: iter, rfl, List.nil_prefix, ?_,
        fun pre txn h => (hnothing last pre txn h).elim⟩
      cases answer <;> simp [bestTxnsLoop, hlimits, chosen, anchors]

end Loop

section Calls

variable [TxnApi]

/-- Nothing is cut from a list within both limits. -/
theorem fillBatch_eq {maxTxns maxBytes : Nat} {txns : List VerifiedTxn} {count total : Nat}
    (hcount : count + txns.length ≤ maxTxns)
    (hbytes : total + (txns.map TxnApi.rawTxnBytesLen).sum ≤ maxBytes) :
    fillBatch maxTxns maxBytes txns count total = txns := by
  induction txns generalizing count total with
  | nil => rfl
  | cons txn rest ih =>
    simp only [List.length_cons, List.map_cons, List.sum_cons] at hcount hbytes
    simp only [fillBatch]
    rw [if_neg (by omega)]
    by_cases hlast : maxTxns ≤ count + 1
    · have hnil : rest = [] := by
        apply List.length_eq_zero_iff.mp
        omega
      rw [if_pos hlast, hnil]
    · rw [if_neg hlast, ih (by omega) (by omega)]

/-- A call of `get_batch`: whether the cached iterator has expired, what a new one would yield, and
the caller's limits. -/
structure Request where
  expired : Bool
  pool : List (Option PoolTransaction)
  maxTxns : Nat
  maxBytes : Nat
  exclude : List TransactionSummary
deriving DecidableEq

/-- The transactions that a call has pulled, in view of which nonces, and what it has returned. -/
structure Call where
  exclude : List TransactionSummary
  lastNonces : Table Author Nat
  pulled : List PoolTransaction
  returned : List VerifiedTxn
deriving DecidableEq

/-- The cache, and the calls made with its iterator. -/
structure Pool where
  cache : CachedBest := {}
  calls : List Call := []
deriving DecidableEq

/-- The cache that a request works with. -/
def Pool.current (w : Pool) (r : Request) : CachedBest := w.cache.current r.expired r.pool

/-- The transactions that a request pulls from the iterator. -/
def Request.pulled (r : Request) (cache : CachedBest) (chainId : Nat) : List PoolTransaction :=
  let iter := cache.bestTxns.getD []
  let left := (bestTxnsLoop (fun summary => summary ∉ r.exclude) chainId r.maxTxns r.maxBytes iter
    cache.lastNonces [] 0).2.bestTxns.getD []
  (iter.take (iter.length - left.length)).filterMap id

/-- What a request does with a cache. -/
def Request.call (r : Request) (cache : CachedBest) (chainId : Nat) : Call where
  exclude := r.exclude
  lastNonces := cache.lastNonces
  pulled := r.pulled cache chainId
  returned := (getBatchInner cache chainId r.maxTxns r.maxBytes r.exclude).1

/-- One call of `get_batch`; the calls are counted anew with each iterator. -/
def Pool.step (chainId : Nat) (w : Pool) (r : Request) : List VerifiedTxn × Pool :=
  let (returned, left) := getBatchInner (w.current r) chainId r.maxTxns r.maxBytes r.exclude
  (returned,
    { cache := left
      calls := (if r.expired || w.cache.bestTxns.isNone then [] else w.calls) ++
        [r.call (w.current r) chainId] })

/-- Whenever the payloads of the first transactions that a call may return stay below the byte
limit, these and the next one stay within it as signed transactions. -/
def Request.FitsBudget (chainId : Nat) (w : Pool) (r : Request) : Prop :=
  let may := admitted r.exclude (w.current r).lastNonces
    (upcoming ((w.current r).bestTxns.getD []))
  ∀ k < may.length, k < r.maxTxns → payloadBytes (may.take k) < r.maxBytes →
    signedBytes chainId (may.take (k + 1)) ≤ r.maxBytes

instance (chainId : Nat) (w : Pool) (r : Request) : Decidable (r.FitsBudget chainId w) :=
  inferInstanceAs (Decidable (∀ k < (admitted r.exclude (w.current r).lastNonces
    (upcoming ((w.current r).bestTxns.getD []))).length, k < r.maxTxns → _ → _))

/-- For each sender the calls return increasing nonces, a nonce that is left out is one that its
call excluded, and nothing that may be returned is dropped. -/
structure InNonceOrder (chainId : Nat) (calls : List Call) : Prop where
  increasing : (calls.flatMap (·.returned)).Pairwise fun a b =>
    a.sender = b.sender → a.sequenceNumber < b.sequenceNumber
  skipped : ∀ a ∈ calls.flatMap (·.returned), ∀ b ∈ calls.flatMap (·.returned),
    a.sender = b.sender → ∀ n, a.sequenceNumber < n → n < b.sequenceNumber →
      (∃ c ∈ calls.flatMap (·.returned), c.sender = a.sender ∧ c.sequenceNumber = n) ∨
      ∃ call ∈ calls, ∃ txn ∈ call.pulled, txn.sender = a.sender ∧ txn.nonce = n ∧
        txn.summary ∈ call.exclude
  nothingDropped : ∀ call ∈ calls, call.returned =
    (admitted call.exclude call.lastNonces call.pulled).map (toVerifiedTxn chainId)

variable {w : Pool}

/-- A call that fits its budget returns what it may return of what it pulls. -/
theorem getBatchInner_eq {chainId : Nat} {r : Request} (h : r.FitsBudget chainId w) :
    (getBatchInner (w.current r) chainId r.maxTxns r.maxBytes r.exclude).1 =
        (admitted r.exclude (w.current r).lastNonces
          (r.pulled (w.current r) chainId)).map (toVerifiedTxn chainId) ∧
      ((getBatchInner (w.current r) chainId r.maxTxns r.maxBytes r.exclude).2.bestTxns.isSome →
        (getBatchInner (w.current r) chainId r.maxTxns r.maxBytes r.exclude).2.lastNonces =
          anchors (w.current r).lastNonces (r.pulled (w.current r) chainId)) := by
  unfold Request.FitsBudget at h
  unfold Request.pulled getBatchInner bestTxns
  generalize w.current r = cache at *
  generalize cache.bestTxns.getD [] = iter at *
  obtain ⟨answers, rest, hsplit, ⟨more, hready⟩, hreturns, hwithin⟩ := exists_pulled
    (fun summary => summary ∉ r.exclude) chainId r.maxTxns r.maxBytes iter cache.lastNonces [] 0
  have htake : iter.take (iter.length - rest.length) = answers := by
    rw [hsplit, List.length_append, Nat.add_sub_cancel]
    exact List.take_left
  simp only [hreturns, Option.getD_some, htake, List.nil_append]
  generalize answers.filterMap id = pulled at *
  have hmay : admitted r.exclude cache.lastNonces (upcoming iter) =
      admitted r.exclude cache.lastNonces pulled ++
        admitted r.exclude (anchors cache.lastNonces pulled) more := by
    rw [← hready]
    exact chosen_append pulled more
  constructor
  · change fillBatch r.maxTxns r.maxBytes
      ((admitted r.exclude cache.lastNonces pulled).map (toVerifiedTxn chainId)) 0 0 = _
    change ∀ pre txn, admitted r.exclude cache.lastNonces pulled = pre ++ [txn] → _ at hwithin
    generalize admitted r.exclude cache.lastNonces pulled = returned at *
    rcases List.eq_nil_or_concat' returned with rfl | ⟨pre, txn, rfl⟩
    · rfl
    · -- the last transaction was pulled within the limits, so the budget has room for it
      obtain ⟨hcount, hbytes⟩ := hwithin pre txn rfl
      simp only [List.length_nil, Nat.zero_add] at hcount hbytes
      have hpre : (admitted r.exclude cache.lastNonces (upcoming iter)).take pre.length = pre := by
        rw [hmay, List.append_assoc]
        exact List.take_left
      have hall : (admitted r.exclude cache.lastNonces (upcoming iter)).take
          (pre.length + 1) = pre ++ [txn] := by
        rw [hmay]
        apply List.take_left'
        simp
      have hlength : pre.length < (admitted r.exclude cache.lastNonces (upcoming iter)).length := by
        rw [hmay]
        simp
      have hfits := h pre.length hlength hcount (by rw [hpre]; exact hbytes)
      rw [hall] at hfits
      apply fillBatch_eq
      · simp
        omega
      · unfold signedBytes at hfits
        simpa [List.map_map, Function.comp_def] using hfits
  · intro hsome
    split at hsome
    · cases hsome
    · rename_i hne
      rw [if_neg hne]

end Calls

/-! ## Nonces over many calls -/

section Nonces

variable {p : PoolTransaction → Bool} {last : Table Author Nat} {txn : PoolTransaction}
  {seen returned : List PoolTransaction} {pulled : List PoolTransaction}

theorem mem_chosen (h : txn ∈ chosen p last pulled) : txn ∈ pulled ∧ p txn = true := by
  induction pulled generalizing last with
  | nil => cases h
  | cons first rest ih =>
    simp only [chosen] at h
    by_cases horder : consecutive last first = true
    · rw [if_pos horder] at h
      by_cases hp : p first = true
      · rw [if_pos hp] at h
        rcases List.mem_cons.mp h with rfl | h
        · exact ⟨List.mem_cons_self, hp⟩
        · exact ⟨List.mem_cons_of_mem _ (ih h).1, (ih h).2⟩
      · rw [if_neg hp] at h
        exact ⟨List.mem_cons_of_mem _ (ih h).1, (ih h).2⟩
    · rw [if_neg horder] at h
      exact ⟨List.mem_cons_of_mem _ (ih h).1, (ih h).2⟩

theorem mem_chosen_of_all (h : txn ∈ chosen (fun _ => true) last pulled) (hp : p txn = true) :
    txn ∈ chosen p last pulled := by
  induction pulled generalizing last with
  | nil => cases h
  | cons first rest ih =>
    simp only [chosen, if_true] at h ⊢
    by_cases horder : consecutive last first = true
    · rw [if_pos horder] at h ⊢
      rcases List.mem_cons.mp h with rfl | h
      · rw [if_pos hp]
        exact List.mem_cons_self
      · by_cases hfirst : p first = true
        · rw [if_pos hfirst]
          exact List.mem_cons_of_mem _ (ih h)
        · rw [if_neg hfirst]
          exact ih h
    · rw [if_neg horder] at h ⊢
      exact ih h

/-- From every transaction that was returned up to the last nonce recorded for its sender, all
nonces have been seen. -/
def Anchored (returned seen : List PoolTransaction) (last : Table Author Nat) : Prop :=
  ∀ txn ∈ returned, ∃ top, last.get txn.sender = some top ∧ txn.nonce ≤ top ∧
    ∀ n, txn.nonce < n → n ≤ top → ∃ other ∈ seen, other.sender = txn.sender ∧ other.nonce = n

/-- The nonces of each sender are increasing. -/
def Increasing (returned : List PoolTransaction) : Prop :=
  returned.Pairwise fun a b => a.sender = b.sender → a.nonce < b.nonce

/-- The next transaction of a sender extends the nonces seen. -/
theorem Anchored.put (h : Anchored returned seen last) (horder : consecutive last txn = true) :
    Anchored returned (seen ++ [txn]) (last.put txn.sender txn.nonce) := by
  intro a ha
  obtain ⟨top, hget, hle, hseen⟩ := h a ha
  by_cases hsender : a.sender = txn.sender
  · have hnext : txn.nonce = top + 1 := by
      unfold consecutive at horder
      rw [← hsender, hget] at horder
      simpa using horder
    refine ⟨txn.nonce, by rw [hsender]; exact Table.get_put_self, by omega, ?_⟩
    intro n hlt hle'
    by_cases hn : n ≤ top
    · obtain ⟨other, hother, hother'⟩ := hseen n hlt hn
      exact ⟨other, List.mem_append_left _ hother, hother'⟩
    · exact ⟨txn, List.mem_append_right _ (List.mem_singleton_self _), hsender.symm, by omega⟩
  · refine ⟨top, by rw [Table.get_put_of_ne hsender]; exact hget, hle, ?_⟩
    intro n hlt hle'
    obtain ⟨other, hother, hother'⟩ := hseen n hlt hle'
    exact ⟨other, List.mem_append_left _ hother, hother'⟩

theorem Anchored.append (h : Anchored returned seen (last.put txn.sender txn.nonce)) :
    Anchored (returned ++ [txn]) seen (last.put txn.sender txn.nonce) := by
  apply forall_mem_snoc h
  refine ⟨txn.nonce, Table.get_put_self, le_rfl, ?_⟩
  intro n hlt hle
  omega

theorem Increasing.append (h : Increasing returned) (hanchored : Anchored returned seen last)
    (horder : consecutive last txn = true) : Increasing (returned ++ [txn]) := by
  unfold Increasing
  rw [List.pairwise_append]
  refine ⟨h, List.pairwise_singleton .., ?_⟩
  intro a ha b hb hsender
  obtain rfl := List.mem_singleton.mp hb
  obtain ⟨top, hget, hle, -⟩ := hanchored a ha
  unfold consecutive at horder
  rw [← hsender, hget] at horder
  have hnext : b.nonce = top + 1 := by simpa using horder
  omega

theorem anchored_chosen (hanchored : Anchored returned seen last) (hinc : Increasing returned)
    (pulled : List PoolTransaction) :
    Anchored (returned ++ chosen p last pulled) (seen ++ chosen (fun _ => true) last pulled)
        (anchors last pulled) ∧
      Increasing (returned ++ chosen p last pulled) := by
  induction pulled generalizing last returned seen with
  | nil =>
    simp only [chosen, anchors, List.append_nil]
    exact ⟨hanchored, hinc⟩
  | cons txn rest ih =>
    simp only [chosen, anchors, if_true]
    by_cases horder : consecutive last txn = true
    · rw [if_pos horder, if_pos horder, if_pos horder]
      have hput := hanchored.put horder
      by_cases hp : p txn = true
      · rw [if_pos hp]
        have hnext := ih hput.append (hinc.append hanchored horder)
        simpa using hnext
      · rw [if_neg hp]
        have hnext := ih hput hinc
        simpa using hnext
    · rw [if_neg horder, if_neg horder, if_neg horder]
      exact ih hanchored hinc

end Nonces

section Runs

variable {w : Pool} {chainId : Nat}

/-- The transactions that some calls may have returned. -/
def admittedIn (calls : List Call) : List PoolTransaction :=
  calls.flatMap fun call => admitted call.exclude call.lastNonces call.pulled

/-- The transactions in nonce order that some calls have pulled. -/
def seenIn (calls : List Call) : List PoolTransaction :=
  calls.flatMap fun call => chosen (fun _ => true) call.lastNonces call.pulled

/-- The invariant of a sequence of calls. -/
structure Pool.Sound (chainId : Nat) (w : Pool) : Prop where
  complete : ∀ call ∈ w.calls, call.returned =
    (admitted call.exclude call.lastNonces call.pulled).map (toVerifiedTxn chainId)
  increasing : Increasing (admittedIn w.calls)
  gaps : ∀ a ∈ admittedIn w.calls, ∀ b ∈ admittedIn w.calls, a.sender = b.sender →
    ∀ n, a.nonce < n → n < b.nonce →
      ∃ other ∈ seenIn w.calls, other.sender = a.sender ∧ other.nonce = n
  anchored : w.cache.bestTxns.isSome →
    Anchored (admittedIn w.calls) (seenIn w.calls) w.cache.lastNonces

theorem Anchored.gaps {returned seen : List PoolTransaction} {last : Table Author Nat}
    (h : Anchored returned seen last) {a b : PoolTransaction} (ha : a ∈ returned)
    (hb : b ∈ returned) (hsender : a.sender = b.sender) {n : Nat} (hlt : a.nonce < n)
    (hlt' : n < b.nonce) : ∃ other ∈ seen, other.sender = a.sender ∧ other.nonce = n := by
  obtain ⟨top, hget, -, hseen⟩ := h a ha
  obtain ⟨top', hget', hle, -⟩ := h b hb
  rw [← hsender, hget] at hget'
  obtain rfl := Option.some.inj hget'
  exact hseen n hlt (by omega)

/-- The nonces that a call starts from are those of the calls made with its iterator. -/
theorem Pool.Sound.current (h : w.Sound chainId) (r : Request) :
    Anchored (admittedIn (if r.expired || w.cache.bestTxns.isNone then [] else w.calls))
        (seenIn (if r.expired || w.cache.bestTxns.isNone then [] else w.calls))
        (w.current r).lastNonces ∧
      Increasing (admittedIn (if r.expired || w.cache.bestTxns.isNone then [] else w.calls)) := by
  unfold Pool.current CachedBest.current
  by_cases hnew : (r.expired || w.cache.bestTxns.isNone) = true
  · simp only [if_pos hnew]
    refine ⟨?_, List.Pairwise.nil⟩
    intro txn htxn
    cases htxn
  · simp only [if_neg hnew]
    have hsome : w.cache.bestTxns.isSome := by
      simp only [Bool.or_eq_true, not_or, Bool.not_eq_true] at hnew
      simpa using hnew.2
    exact ⟨h.anchored hsome, h.increasing⟩

theorem Pool.Sound.step [TxnApi] (h : w.Sound chainId) {r : Request}
    (hfits : r.FitsBudget chainId w) : (w.step chainId r).2.Sound chainId := by
  obtain ⟨hanchored, hinc⟩ := h.current r
  obtain ⟨hreturned, hlast⟩ := getBatchInner_eq hfits
  have hcomplete : ∀ call ∈ if r.expired || w.cache.bestTxns.isNone then [] else w.calls,
      call.returned =
        (admitted call.exclude call.lastNonces call.pulled).map (toVerifiedTxn chainId) := by
    intro call hcall
    split at hcall
    · cases hcall
    · exact h.complete call hcall
  unfold Pool.step
  generalize (if r.expired || w.cache.bestTxns.isNone then [] else w.calls) = earlier at *
  generalize w.current r = cache at *
  obtain ⟨hanchored', hinc'⟩ := anchored_chosen (p := fun txn => txn.summary ∉ r.exclude)
    hanchored hinc (r.pulled cache chainId)
  have hadmitted : admittedIn (earlier ++ [r.call cache chainId]) =
      admittedIn earlier ++ admitted r.exclude cache.lastNonces (r.pulled cache chainId) := by
    simp [admittedIn, Request.call]
  have hseen : seenIn (earlier ++ [r.call cache chainId]) =
      seenIn earlier ++ chosen (fun _ => true) cache.lastNonces (r.pulled cache chainId) := by
    simp [seenIn, Request.call]
  constructor
  · apply forall_mem_snoc hcomplete
    exact hreturned
  · rw [hadmitted]
    exact hinc'
  · intro a ha b hb hsender n hlt hlt'
    rw [hadmitted] at ha hb
    rw [hseen]
    exact hanchored'.gaps ha hb hsender hlt hlt'
  · intro hsome
    rw [hadmitted, hseen]
    change Anchored _ _ (getBatchInner cache chainId r.maxTxns r.maxBytes r.exclude).2.lastNonces
    rw [hlast hsome]
    exact hanchored'

/-- What is in nonce order was returned or excluded. -/
theorem mem_seenIn {calls : List Call} {txn : PoolTransaction} (h : txn ∈ seenIn calls) :
    txn ∈ admittedIn calls ∨ ∃ call ∈ calls, txn ∈ call.pulled ∧ txn.summary ∈ call.exclude := by
  obtain ⟨call, hcall, hmem⟩ := List.mem_flatMap.mp h
  by_cases hexclude : txn.summary ∈ call.exclude
  · exact .inr ⟨call, hcall, (mem_chosen hmem).1, hexclude⟩
  · left
    apply List.mem_flatMap.mpr
    exact ⟨call, hcall, mem_chosen_of_all hmem (by simp [hexclude])⟩

/-- Sound calls return transactions in nonce order. -/
theorem Pool.Sound.inNonceOrder (h : w.Sound chainId) : InNonceOrder chainId w.calls := by
  have hreturned : w.calls.flatMap (·.returned) =
      (admittedIn w.calls).map (toVerifiedTxn chainId) := by
    unfold admittedIn
    rw [List.map_flatMap]
    apply List.flatMap_congr
    exact h.complete
  refine ⟨?_, ?_, h.complete⟩
  · rw [hreturned, List.pairwise_map]
    exact h.increasing
  · rw [hreturned]
    intro a ha b hb hsender n hlt hlt'
    obtain ⟨first, hfirst, rfl⟩ := List.mem_map.mp ha
    obtain ⟨second, hsecond, rfl⟩ := List.mem_map.mp hb
    obtain ⟨other, hother, hsame, hnonce⟩ :=
      h.gaps first hfirst second hsecond hsender n hlt hlt'
    rcases mem_seenIn hother with hmem | ⟨call, hcall, hpulled, hexclude⟩
    · exact .inl ⟨_, List.mem_map_of_mem hmem, hsame, hnonce⟩
    · exact .inr ⟨call, hcall, other, hpulled, hsame, hnonce, hexclude⟩

theorem sound_start : Pool.Sound chainId {} := by
  refine ⟨?_, List.Pairwise.nil, ?_, ?_⟩
  · intro call hcall
    cases hcall
  · intro a ha
    cases ha
  · intro hsome
    cases hsome

/-- The calls made with one iterator return transactions in nonce order and drop none, as long as
the byte limit of each has room for what it pulls. -/
theorem batches_inNonceOrder [TxnApi] (requests : List Request)
    (h : AlongRun (Pool.step chainId) (fun w r => r.FitsBudget chainId w) {} requests) :
    InNonceOrder chainId (run (Pool.step chainId) {} requests).2.calls := by
  have hsound : Pool.Sound chainId (run (Pool.step chainId) {} requests).2 := by
    apply AlongRun.invariant (I := Pool.Sound chainId) _ h sound_start
    intro w r hfits hw
    exact hw.step hfits
  exact hsound.inNonceOrder

end Runs

namespace SmallBudget

/-- A signed transaction is its payload with a signature. -/
@[reducible] def api : TxnApi where
  rawTxnBytesLen txn := txn.bytes.length + 1

local instance : TxnApi := api

/-- A transaction of the only sender, with four bytes. -/
def txn (nonce : Nat) : PoolTransaction where
  sender := 1
  nonce := nonce
  hash := nonce
  bytes := [0, 0, 0, 0]

/-- A call with the given byte limit, on a pool of three transactions. -/
def request (maxBytes : Nat) : Request where
  expired := false
  pool := [some (txn 0), some (txn 1), some (txn 2)]
  maxTxns := 2
  maxBytes := maxBytes
  exclude := []

/-- Two calls with room for two transactions each: the second returns what is left. -/
theorem batches_inNonceOrder_two :
    InNonceOrder 1 (run (Pool.step 1) {} [request 10, request 10]).2.calls ∧
      (run (Pool.step 1) {} [request 10, request 10]).2.calls.flatMap (·.returned) =
        [toVerifiedTxn 1 (txn 0), toVerifiedTxn 1 (txn 1), toVerifiedTxn 1 (txn 2)] :=
  ⟨batches_inNonceOrder _ (by decide), by decide⟩

/-- With a limit of eight bytes the first call pulls a second transaction that does not fit once it
is signed; the second call goes on after it. -/
theorem batches_skip_nonce :
    (run (Pool.step 1) {} [request 8, request 8]).2.calls.flatMap (·.returned) =
        [toVerifiedTxn 1 (txn 0), toVerifiedTxn 1 (txn 2)] ∧
      ¬ InNonceOrder 1 (run (Pool.step 1) {} [request 8, request 8]).2.calls := by
  refine ⟨by decide, ?_⟩
  intro horder
  have hall := horder.nothingDropped
  exact absurd hall (by decide)

end SmallBudget

end Liquent.Mempool
