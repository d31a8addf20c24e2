import Liquent.ConsensusTypes.Data
import Liquent.Misc.StateExcept

/-!
# The limits of a proposal

Under back pressure the proposal generator lowers the limits of the next block
(`calculate_max_block_sizes`).  `MixedPayloadClient::pull_payload` first pulls validator
transactions, as many as `max_block_txns` allows, and takes what it got off the lowered limits.
-/

namespace Liquent.Liveness

open Misc

/-! ## The sizes of the next block -/

/-- A row of the chain-health or the pipeline table. -/
structure BackoffValues where
  maxSendingBlockTxnsAfterFilteringOverride : Nat
  maxSendingBlockBytesOverride : Nat
  proposalDelay : Nat

/-- What the tables return when a proposal is generated. -/
structure BackPressure where
  chainHealth : Option BackoffValues
  pipeline : Option BackoffValues
  execution : Option Nat

namespace BackPressure

def rows (b : BackPressure) : List BackoffValues := b.chainHealth.toList ++ b.pipeline.toList

/-- The numbers of transactions that the tables put in place of the configured one. -/
def txnOverrides (b : BackPressure) : List Nat :=
  b.rows.map (·.maxSendingBlockTxnsAfterFilteringOverride) ++ b.execution.toList

end BackPressure

/-- The fields of the generator that a pull reads. -/
structure ProposalGenerator where
  quorumStorePollTime : Nat
  maxBlockTxns : Nat
  maxBlockTxnsAfterFiltering : Nat
  maxBlockBytes : Nat
  minMaxTxnsInBlockAfterFilteringFromBackpressure : Nat

structure BlockSizes where
  maxBlockTxnsAfterFiltering : Nat
  maxBlockBytes : Nat
  maxTxnsFromBlockToExecute : Option Nat
  proposalDelay : Nat

/-- The limits that `pull_payload` is called with, and those that it hands on. -/
structure PullLimits where
  maxPollTime : Nat
  maxItems : Nat
  maxItemsAfterFiltering : Nat
  softMaxItemsAfterFiltering : Nat
  maxBytes : Nat

namespace ProposalGenerator

variable (g : ProposalGenerator) (b : BackPressure)

/-- `calculate_max_block_sizes` (`proposal_generator.rs:514`). -/
def calculateMaxBlockSizes : BlockSizes :=
  let maxBlockTxnsAfterFiltering :=
    (g.maxBlockTxnsAfterFiltering :: b.txnOverrides).min (List.cons_ne_nil _ _)
  let maxBlockBytes :=
    (g.maxBlockBytes :: b.rows.map (·.maxSendingBlockBytesOverride)).min (List.cons_ne_nil _ _)
  let proposalDelay := (0 :: b.rows.map (·.proposalDelay)).max (List.cons_ne_nil _ _)
  if maxBlockTxnsAfterFiltering < g.minMaxTxnsInBlockAfterFilteringFromBackpressure then
    { maxBlockTxnsAfterFiltering := g.minMaxTxnsInBlockAfterFilteringFromBackpressure
      maxTxnsFromBlockToExecute := some maxBlockTxnsAfterFiltering
      maxBlockBytes, proposalDelay }
  else
    { maxBlockTxnsAfterFiltering, maxTxnsFromBlockToExecute := none, maxBlockBytes, proposalDelay }

/-- The limits of the call of `pull_payload`. -/
def pullLimits : PullLimits :=
  let sizes := g.calculateMaxBlockSizes b
  { maxPollTime := g.quorumStorePollTime - sizes.proposalDelay
    maxItems := g.maxBlockTxns
    maxItemsAfterFiltering := sizes.maxBlockTxnsAfterFiltering
    softMaxItemsAfterFiltering :=
      sizes.maxTxnsFromBlockToExecute.getD sizes.maxBlockTxnsAfterFiltering
    maxBytes := sizes.maxBlockBytes }

/-- The soft limit is the least of all numbers, and the hard limit is not below it. -/
theorem soft_pullLimits : (g.pullLimits b).softMaxItemsAfterFiltering =
      (g.maxBlockTxnsAfterFiltering :: b.txnOverrides).min (List.cons_ne_nil _ _) ∧
    (g.pullLimits b).softMaxItemsAfterFiltering ≤ (g.pullLimits b).maxItemsAfterFiltering := by
  simp only [pullLimits, calculateMaxBlockSizes]
  split
  · rename_i hless
    exact ⟨rfl, hless.le⟩
  · exact ⟨rfl, le_refl _⟩

end ProposalGenerator

/-! ## Pulling a payload -/

structure ValidatorTxnConfig where
  perBlockLimitTxnCount : Nat
  perBlockLimitTotalBytes : Nat

/-- The clients that transactions are pulled from; `elapsed` is the time of the first pull. -/
structure PayloadClients where
  pullValidatorTxns : (maxPollTime maxItems maxBytes : Nat) → List ValidatorTransaction
  sizeInBytes : ValidatorTransaction → Nat
  elapsed : Nat
  pullUserPayload : PullLimits → Except String Payload
  txnsAfterFiltering : Payload → Nat
  payloadSize : Payload → Nat

/-- The clients keep to the limits that they are given. -/
structure PayloadClients.Respect (clients : PayloadClients) : Prop where
  count : ∀ time items bytes, (clients.pullValidatorTxns time items bytes).length ≤ items
  bytes : ∀ time items bytes,
    ((clients.pullValidatorTxns time items bytes).map clients.sizeInBytes).sum ≤ bytes
  user : ∀ limits payload, clients.pullUserPayload limits = .ok payload →
    clients.txnsAfterFiltering payload ≤ limits.maxItemsAfterFiltering ∧
      clients.payloadSize payload ≤ limits.maxBytes

section Pull

variable (cfg : ValidatorTxnConfig) (clients : PayloadClients) (limits : PullLimits)

def validatorTxns : List ValidatorTransaction :=
  clients.pullValidatorTxns limits.maxPollTime (min limits.maxItems cfg.perBlockLimitTxnCount)
    (min limits.maxBytes cfg.perBlockLimitTotalBytes)

def validatorBytes : Nat := ((validatorTxns cfg clients limits).map clients.sizeInBytes).sum

/-- The limits left for user transactions; a subtraction that overflows panics, as in the release
profile. -/
def userLimits : Except String PullLimits := do
  let count := (validatorTxns cfg clients limits).length
  let bytes := validatorBytes cfg clients limits
  ensure (count ≤ limits.maxItems) "attempt to subtract with overflow"
  ensure (count ≤ limits.maxItemsAfterFiltering) "attempt to subtract with overflow"
  ensure (count ≤ limits.softMaxItemsAfterFiltering) "attempt to subtract with overflow"
  ensure (bytes ≤ limits.maxBytes) "attempt to subtract with overflow"
  pure
    { maxPollTime := limits.maxPollTime - clients.elapsed
      maxItems := limits.maxItems - count
      maxItemsAfterFiltering := limits.maxItemsAfterFiltering - count
      softMaxItemsAfterFiltering := limits.softMaxItemsAfterFiltering - count
      maxBytes := limits.maxBytes - bytes }

/-- `pull_payload` (`mixed.rs:64`). -/
def pullPayload : Except String (List ValidatorTransaction × Payload) := do
  let rest ← userLimits cfg clients limits
  let payload ← clients.pullUserPayload rest
  pure (validatorTxns cfg clients limits, payload)

/-- No subtraction overflows, no limit grows on the way to the user client, and the proposal keeps
to the limits of the call. -/
structure LimitsHold : Prop where
  subtracts : (userLimits cfg clients limits).isOk = true
  handsOn : ∀ rest, userLimits cfg clients limits = .ok rest →
    rest.maxPollTime ≤ limits.maxPollTime ∧ rest.maxItems ≤ limits.maxItems ∧
      rest.maxItemsAfterFiltering ≤ limits.maxItemsAfterFiltering ∧
      rest.softMaxItemsAfterFiltering ≤ limits.softMaxItemsAfterFiltering ∧
      rest.maxBytes ≤ limits.maxBytes
  fits : ∀ txns payload, pullPayload cfg clients limits = .ok (txns, payload) →
    txns.length + clients.txnsAfterFiltering payload ≤ limits.maxItemsAfterFiltering ∧
      (txns.map clients.sizeInBytes).sum + clients.payloadSize payload ≤ limits.maxBytes

/-- The limits hold exactly when as many validator transactions as are pulled fit the configured
number of transactions after filtering and every number that back pressure puts in its place. -/
theorem limits_hold_iff (g : ProposalGenerator) (b : BackPressure) (cfg : ValidatorTxnConfig)
    (clients : PayloadClients) (h : clients.Respect) :
    LimitsHold cfg clients (g.pullLimits b) ↔
      ∀ limit ∈ g.maxBlockTxnsAfterFiltering :: b.txnOverrides,
        (validatorTxns cfg clients (g.pullLimits b)).length ≤ limit := by
  obtain ⟨hsoft, hle⟩ := g.soft_pullLimits b
  rw [← List.le_min_iff (List.cons_ne_nil _ _), ← hsoft]
  generalize g.pullLimits b = limits at *
  constructor
  · intro hold
    obtain ⟨rest, hrest⟩ := except_isOk_iff.mp hold.subtracts
    simp only [userLimits, except_seq_ok_iff, ensure_ok_iff] at hrest
    exact hrest.2.2.1
  · intro hcount
    have hitems : (validatorTxns cfg clients limits).length ≤ limits.maxItems :=
      (h.count _ _ _).trans (min_le_left _ _)
    have hbytes : validatorBytes cfg clients limits ≤ limits.maxBytes :=
      (h.bytes _ _ _).trans (min_le_left _ _)
    refine ⟨?_, ?_, ?_⟩
    · simp only [userLimits, ensure, hitems, hcount.trans hle, hcount, hbytes, if_true]
      rfl
    · intro rest hrest
      simp only [userLimits, except_seq_ok_iff, ensure_ok_iff, except_pure_ok_iff] at hrest
      obtain ⟨-, -, -, -, rfl⟩ := hrest
      simp
    · intro txns payload hpull
      simp only [pullPayload, userLimits, except_bind_ok_iff, ensure_ok_iff, except_pure_ok_iff,
        Prod.mk.injEq] at hpull
      obtain ⟨_, ⟨-, -, -, -, -, -, -, -, rfl⟩, _, huser, rfl, rfl⟩ := hpull
      have hfits := h.user _ _ huser
      change (validatorTxns cfg clients limits).length + _ ≤ _ ∧
        validatorBytes cfg clients limits + _ ≤ _
      simp only at hfits
      omega

end Pull

namespace TwoTxns

/-- Two validator transactions of one byte, and no user transactions. -/
def clients : PayloadClients where
  pullValidatorTxns _ items bytes := if 2 ≤ items ∧ 2 ≤ bytes then [[1], [2]] else []
  sizeInBytes _ := 1
  elapsed := 0
  pullUserPayload _ := .ok (.directMempool [])
  txnsAfterFiltering _ := 0
  payloadSize _ := 0

theorem respect : clients.Respect where
  count time items bytes := by
    by_cases h : 2 ≤ items ∧ 2 ≤ bytes
    · simp [clients, h]
    · simp [clients, h]
  bytes time items bytes := by
    by_cases h : 2 ≤ items ∧ 2 ≤ bytes
    · simp [clients, h]
    · simp [clients, h]
  user := by simp [clients]

def config : ValidatorTxnConfig := ⟨2, 1000⟩

def generator : ProposalGenerator := ⟨100, 10, 10, 1000, 5⟩

/-- The chain-health table lowers the number of transactions. -/
def lowered (txns : Nat) : BackPressure := ⟨some ⟨txns, 1000, 0⟩, none, none⟩

end TwoTxns

open TwoTxns in
theorem limits_hold_two : LimitsHold config clients (generator.pullLimits (lowered 2)) :=
  (limits_hold_iff generator (lowered 2) config clients respect).mpr (by decide)

open TwoTxns in
/-- Two validator transactions do not fit a block that back pressure limits to one. -/
theorem soft_limit_overflows : ¬ LimitsHold config clients (generator.pullLimits (lowered 1)) := by
  intro h
  exact absurd h.subtracts (by decide)

end Liquent.Liveness
