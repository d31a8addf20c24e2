import Liquent.ConsensusTypes.PipelinedBlock
import Liquent.Misc.Table
import Liquent.Misc.StateExcept

/-!
# Randomness shares

How a node collects the shares from which the randomness of a round is derived (`rand_store.rs`,
cited by line, and the types of shares in `types.rs`).  Shares of a round are kept before the block
of the round is known; once it is, those for other metadata are dropped, and when the rest weighs
enough they are aggregated.  The aggregation itself runs in a task of its own: the store only notes
that it has been started.
-/

namespace Liquent

open Misc

namespace RandGen

/-- An operation on the store fails with an error for its caller, or with a panic that ends its
task. -/
inductive Fault where
  | error (message : String)
  | panic (message : String)
deriving DecidableEq

inductive PathType where
  | fast
  | slow
deriving DecidableEq

/-- An augmented public key, under which the shares of a validator verify. -/
abbrev Apk := Nat

/-- `RandConfig`: the weights of the validators and the weight that is needed, as set by the key
generation of the epoch, and the keys certified so far. -/
structure RandConfig where
  author : Author
  epoch : Nat
  weights : Table Author Nat
  threshold : Nat
  certifiedApks : Table Author Apk := []
deriving DecidableEq

/-- `RandConfig::get_peer_weight` (`types.rs:630`). -/
def RandConfig.getPeerWeight (cfg : RandConfig) (peer : Author) : Except Fault Nat :=
  match cfg.weights.get peer with
  | some weight => .ok weight
  | none => .error (.panic "Peer should be in the index!")

/-- The weight of a validator; an unknown one has none. -/
def RandConfig.weight (cfg : RandConfig) (peer : Author) : Nat := (cfg.weights.get peer).getD 0

structure RandShare (S : Type) where
  author : Author
  metadata : RandMetadata
  share : S
deriving DecidableEq

/-- `TShare`. Consensus uses the shares of a weighted verifiable unpredictable function of the
`laptos` crate, which is not part of the repository. -/
class TShare (S : Type) where
  verify : RandConfig → RandMetadata → Author → S → Except String Unit
  /-- The share that the owner of a configuration makes. -/
  create : RandConfig → RandMetadata → S
  /-- The bytes derived from shares. -/
  derive : List (RandShare S) → RandConfig → RandMetadata → Except String (List UInt8)

section Shares

variable {S : Type} [TShare S]

/-- `verify` (`types.rs:341`). -/
def RandShare.verify (share : RandShare S) (cfg : RandConfig) : Except String Unit :=
  TShare.verify cfg share.metadata share.author share.share

/-- `TShare::generate` (`types.rs:83`). -/
def RandShare.generate (cfg : RandConfig) (metadata : RandMetadata) : RandShare S where
  author := cfg.author
  metadata := metadata
  share := TShare.create cfg metadata

/-- `TShare::aggregate` (`types.rs:96`). -/
def RandShare.aggregate (shares : List (RandShare S)) (cfg : RandConfig) (metadata : RandMetadata) :
    Except String Randomness := do
  let randomness ← TShare.derive shares cfg metadata
  pure { metadata, randomness }

end Shares

/-! ## The shares of a round -/

/-- An aggregation that has been started, for one of the two paths. -/
structure Aggregation (S : Type) where
  shares : List (RandShare S)
  pathType : PathType
  metadata : RandMetadata
deriving DecidableEq

structure ShareAggregator (S : Type) where
  author : Author
  shares : Table Author (RandShare S)
  totalWeight : Nat
  pathType : PathType
deriving DecidableEq

namespace ShareAggregator

variable {S : Type}

/-- `new` (28). -/
def new (author : Author) (pathType : PathType) : ShareAggregator S where
  author := author
  shares := []
  totalWeight := 0
  pathType := pathType

/-- `ShareAggregator::add_share` (32): the last share of an author counts, its weight only once. -/
def addShare (aggr : ShareAggregator S) (weight : Nat) (share : RandShare S) : ShareAggregator S :=
  { aggr with
    shares := aggr.shares.put share.author share
    totalWeight :=
      if (aggr.shares.get share.author).isNone then aggr.totalWeight + weight
      else aggr.totalWeight }

/-- `get_self_share` (88). -/
def getSelfShare (aggr : ShareAggregator S) : Option (RandShare S) := aggr.shares.get aggr.author

/-- `ShareAggregator::try_aggregate` (38): nothing while the weight is short, else the node's own
share and the aggregation to be started. -/
def tryAggregate (aggr : ShareAggregator S) (cfg : RandConfig) (metadata : RandMetadata) :
    Except Fault (Option (RandShare S × Aggregation S)) :=
  if aggr.totalWeight < cfg.threshold then .ok none
  else
    match aggr.getSelfShare with
    | some selfShare =>
      .ok (some (selfShare,
        { shares := aggr.shares.map (·.2), pathType := aggr.pathType, metadata }))
    | none => .error (.panic "Aggregated item should have self share")

/-- `ShareAggregator::retain` (82): the shares for the metadata of the block, weighed again. -/
def retain (aggr : ShareAggregator S) (cfg : RandConfig) (metadata : RandMetadata) :
    Except Fault (ShareAggregator S) := do
  let shares := aggr.shares.filter fun e => e.2.metadata = metadata
  let weights ← shares.mapM fun e => cfg.getPeerWeight e.1
  pure { aggr with shares, totalWeight := weights.sum }

end ShareAggregator

inductive RandItem (S : Type) where
  | pendingMetadata (aggr : ShareAggregator S)
  | pendingDecision (metadata : RandMetadata) (aggr : ShareAggregator S)
  | decided (selfShare : RandShare S)
deriving DecidableEq

namespace RandItem

variable {S : Type}

/-- `new` (104). -/
def new (author : Author) (pathType : PathType) : RandItem S :=
  .pendingMetadata (ShareAggregator.new author pathType)

/-- `has_decision` (118). -/
def hasDecision : RandItem S → Bool
  | .decided _ => true
  | _ => false

/-- `RandItem::add_share` (122). -/
def addShare (share : RandShare S) (cfg : RandConfig) : RandItem S → Except Fault (RandItem S)
  | .pendingMetadata aggr => do
    let weight ← cfg.getPeerWeight share.author
    pure (.pendingMetadata (aggr.addShare weight share))
  | .pendingDecision metadata aggr => do
    let author := share.author
    ensure (metadata = share.metadata)
      (.error s!"[RandStore] RandShare metadata from {author} mismatch with block metadata!")
    let weight ← cfg.getPeerWeight share.author
    pure (.pendingDecision metadata (aggr.addShare weight share))
  | .decided selfShare => .ok (.decided selfShare)

/-- `RandItem::try_aggregate` (141), with the aggregation that it starts. -/
def tryAggregate (cfg : RandConfig) : RandItem S → Except Fault (RandItem S × List (Aggregation S))
  | .pendingDecision metadata aggr => do
    match ← aggr.tryAggregate cfg metadata with
    | none => pure (.pendingDecision metadata aggr, [])
    | some (selfShare, aggregation) => pure (.decided selfShare, [aggregation])
  | item => .ok (item, [])

/-- `RandItem::add_metadata` (157). -/
def addMetadata (cfg : RandConfig) (metadata : RandMetadata) :
    RandItem S → Except Fault (RandItem S)
  | .pendingMetadata aggr => do
    let aggr ← aggr.retain cfg metadata
    pure (.pendingDecision metadata aggr)
  | item => .ok item

/-- `RandItem::get_all_shares_authors` (169). -/
def getAllSharesAuthors : RandItem S → Except Fault (Option (List Author))
  | .pendingDecision _ aggr => .ok (some (aggr.shares.map (·.1)))
  | .decided _ => .ok none
  | .pendingMetadata _ => .error (.panic "Should only be called after block is added")

/-- `get_self_share` (181). -/
def getSelfShare : RandItem S → Option (RandShare S)
  | .pendingMetadata aggr => aggr.getSelfShare
  | .pendingDecision _ aggr => aggr.getSelfShare
  | .decided selfShare => some selfShare

end RandItem

/-! ## The store -/

/-- The items of one path, by round. -/
abbrev RandMap (S : Type) := Table Nat (RandItem S)

namespace RandMap

variable {S : Type}

/-- One path of `RandStore::add_rand_metadata`. -/
def addRandMetadata (map : RandMap S) (author : Author) (pathType : PathType) (cfg : RandConfig)
    (metadata : RandMetadata) : Except Fault (RandMap S × List (Aggregation S)) := do
  let item := (Table.get map metadata.round).getD (RandItem.new author pathType)
  let item ← item.addMetadata cfg metadata
  let (item, started) ← item.tryAggregate cfg
  pure (Table.put map metadata.round item, started)

/-- The end of `RandStore::add_share`, for one path: whether the round is now decided. -/
def addShare (map : RandMap S) (author : Author) (pathType : PathType) (cfg : RandConfig)
    (share : RandShare S) : Except Fault (Bool × RandMap S × List (Aggregation S)) := do
  let item := (Table.get map share.metadata.round).getD (RandItem.new author pathType)
  let item ← item.addShare share cfg
  let (item, started) ← item.tryAggregate cfg
  pure (item.hasDecision, Table.put map share.metadata.round item, started)

end RandMap

structure RandStore (S : Type) where
  epoch : Nat
  author : Author
  randConfig : RandConfig
  randMap : RandMap S
  fastRandConfig : Option RandConfig
  fastRandMap : Option (RandMap S)
  highestKnownRound : Nat
  /-- The aggregations that are running. -/
  aggregating : List (Aggregation S)
deriving DecidableEq

/-- `FUTURE_ROUNDS_TO_ACCEPT`. -/
def futureRoundsToAccept : Nat := 200

namespace RandStore

variable {S : Type}

/-- `new` (202). -/
def new (epoch : Nat) (author : Author) (randConfig : RandConfig)
    (fastRandConfig : Option RandConfig) : RandStore S where
  epoch := epoch
  author := author
  randConfig := randConfig
  randMap := []
  fastRandConfig := fastRandConfig
  fastRandMap := fastRandConfig.map fun _ => []
  highestKnownRound := 0
  aggregating := []

/-- `update_highest_known_round` (221). -/
def updateHighestKnownRound (store : RandStore S) (round : Nat) : RandStore S :=
  { store with highestKnownRound := max store.highestKnownRound round }

/-- `RandStore::reset_to_round` (225). -/
def resetToRound (store : RandStore S) (target : Nat) : RandStore S :=
  { store with
    randMap := store.randMap.filter (·.1 < target)
    fastRandMap := store.fastRandMap.map (List.filter (·.1 < target))
    highestKnownRound := max store.highestKnownRound target }

/-- `RandStore::add_rand_metadata` (233): the slow path, then the fast path if it is enabled. -/
def addRandMetadata (store : RandStore S) (metadata : RandMetadata) :
    Except Fault (RandStore S) := do
  let (map, started) ←
    RandMap.addRandMetadata store.randMap store.author .slow store.randConfig metadata
  let store := { store with randMap := map, aggregating := store.aggregating ++ started }
  match store.fastRandMap, store.fastRandConfig with
  | some fastMap, some fastConfig =>
    let (map, started) ←
      RandMap.addRandMetadata fastMap store.author .fast fastConfig metadata
    pure { store with fastRandMap := some map, aggregating := store.aggregating ++ started }
  | _, _ => pure store

/-- `RandStore::add_share` (252). -/
def addShare (store : RandStore S) (share : RandShare S) (path : PathType) :
    Except Fault (Bool × RandStore S) := do
  ensure (share.metadata.epoch = store.epoch) (.error "Share from different epoch")
  ensure (store.highestKnownRound + futureRoundsToAccept ≤ u64Max)
    (.panic "attempt to add with overflow")
  ensure (share.metadata.round ≤ store.highestKnownRound + futureRoundsToAccept)
    (.error "Share from future round")
  match path with
  | .fast =>
    match store.fastRandConfig, store.fastRandMap with
    | some fastConfig, some fastMap =>
      let (decided, map, started) ←
        RandMap.addShare fastMap store.author .fast fastConfig share
      pure (decided,
        { store with fastRandMap := some map, aggregating := store.aggregating ++ started })
    | _, _ => .error (.error "Fast path not enabled")
  | .slow =>
    let (decided, map, started) ←
      RandMap.addShare store.randMap store.author .slow store.randConfig share
    pure (decided, { store with randMap := map, aggregating := store.aggregating ++ started })

/-- `RandStore::get_all_shares_authors` (286). -/
def getAllSharesAuthors (store : RandStore S) (round : Nat) : Except Fault (Option (List Author)) :=
  match Table.get store.randMap round with
  | some item => item.getAllSharesAuthors
  | none => .ok none

/-- `RandStore::get_self_share` (290). -/
def getSelfShare (store : RandStore S) (metadata : RandMetadata) :
    Except Fault (Option (RandShare S)) := do
  let round := metadata.round
  let highest := store.highestKnownRound
  ensure (metadata.round ≤ store.highestKnownRound)
    (.error s!"Request share from future round {round}, highest known round {highest}")
  pure (((Table.get store.randMap metadata.round).bind RandItem.getSelfShare).filter
    fun share => share.metadata = metadata)

/-- The configuration of a path. -/
def config (store : RandStore S) : PathType → Option RandConfig
  | .slow => some store.randConfig
  | .fast => store.fastRandConfig

end RandStore

end RandGen

end Liquent
