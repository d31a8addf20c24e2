import Liquent.Misc.Lists
import Liquent.Rand.RandManager

/-!
# The shares in the store

What the store keeps is sound: the shares of a round are for the metadata of the round, one from
each author, and have been verified or made by the node itself; their weight is the one that is
noted.  A round whose block has been seen has the node's own share.  So an aggregation that is
started has enough weight behind it, and no operation on the store panics.
-/

namespace Liquent

open Misc

namespace RandGen

variable {S : Type} [TShare S]

/-- Two configurations of the same node in the same key generation; keys may have been certified in
between. -/
structure SameBase (cfg base : RandConfig) : Prop where
  author : cfg.author = base.author
  weights : cfg.weights = base.weights
  threshold : cfg.threshold = base.threshold

/-- A share that has been verified, or made by the node, under some state of the configuration. -/
def Valid (base : RandConfig) (share : RandShare S) : Prop :=
  ∃ cfg, SameBase cfg base ∧
    (share.verify cfg = .ok () ∨ share = RandShare.generate cfg share.metadata)

/-- Valid shares of different authors for the metadata, which together have enough weight. -/
structure Qualifying (base : RandConfig) (metadata : RandMetadata) (shares : List (RandShare S)) :
    Prop where
  authors : (shares.map (·.author)).Nodup
  metadata : ∀ share ∈ shares, share.metadata = metadata
  valid : ∀ share ∈ shares, Valid base share
  weight : base.threshold ≤ (shares.map fun share => base.weight share.author).sum

/-- Shares that verify are from validators, and all qualifying sets for some metadata from which
bytes are derived give the same ones. -/
structure Scheme (S : Type) [TShare S] (base : RandConfig) (value : RandMetadata → List UInt8) :
    Prop where
  ownWeight : (base.weights.get base.author).isSome = true
  verifiedWeight : ∀ cfg, SameBase cfg base → ∀ share : RandShare S, share.verify cfg = .ok () →
    (base.weights.get share.author).isSome = true
  derive : ∀ cfg, SameBase cfg base → ∀ metadata (shares : List (RandShare S)),
    Qualifying base metadata shares → ∀ bytes, TShare.derive shares cfg metadata = .ok bytes →
      bytes = value metadata

/-! ## The shares of a round -/

/-- The shares that an aggregator has collected for the metadata. -/
structure AggregatorOk (base : RandConfig) (path : PathType) (metadata : RandMetadata)
    (aggr : ShareAggregator S) : Prop where
  author : aggr.author = base.author
  pathType : aggr.pathType = path
  keys : aggr.shares.keys.Nodup
  shares : ∀ e ∈ aggr.shares, e.2.author = e.1 ∧ e.2.metadata = metadata ∧ Valid base e.2 ∧
    (base.weights.get e.1).isSome = true
  totalWeight : aggr.totalWeight = (aggr.shares.keys.map base.weight).sum

/-- The item of a round.  Once it waits for a decision, the node's own share is in it. -/
def ItemOk (base : RandConfig) (path : PathType) (metadata : RandMetadata) : RandItem S → Prop
  | .pendingMetadata aggr => AggregatorOk base path metadata aggr
  | .pendingDecision known aggr =>
    known = metadata ∧ AggregatorOk base path metadata aggr ∧ aggr.getSelfShare.isSome = true
  | .decided _ => True

/-- The item knows the metadata of the block. -/
def RandItem.HasMetadata : RandItem S → Prop
  | .pendingMetadata _ => False
  | _ => True

/-- The item has the node's own share. -/
def RandItem.HasSelfShare (item : RandItem S) : Prop := item.getSelfShare.isSome = true

/-- A share that may be added for the metadata. -/
structure ShareOk (base : RandConfig) (metadata : RandMetadata) (share : RandShare S) : Prop where
  metadata : share.metadata = metadata
  valid : Valid base share
  weight : (base.weights.get share.author).isSome = true

/-- An aggregation with enough weight behind it. -/
structure JobOk (base : RandConfig) (path : PathType) (metadata : RandMetadata)
    (job : Aggregation S) : Prop where
  pathType : job.pathType = path
  qualifying : Qualifying base metadata job.shares
  metadata : job.metadata = metadata

variable {base cfg : RandConfig} {path : PathType} {metadata : RandMetadata} {author : Author}

omit [TShare S] in
theorem SameBase.getPeerWeight (h : SameBase cfg base)
    (hweight : (base.weights.get author).isSome = true) :
    cfg.getPeerWeight author = .ok (base.weight author) := by
  obtain ⟨weight, hget⟩ := Option.isSome_iff_exists.mp hweight
  unfold RandConfig.getPeerWeight RandConfig.weight
  rw [h.weights, hget]
  rfl

variable {share : RandShare S}

namespace AggregatorOk

variable {aggr : ShareAggregator S}

theorem new (hauthor : author = base.author) :
    AggregatorOk base path metadata (ShareAggregator.new author path : ShareAggregator S) :=
  ⟨hauthor, rfl, List.nodup_nil, List.forall_mem_nil _, rfl⟩

section

variable (h : AggregatorOk base path metadata aggr)

include h

theorem addShare (hshare : ShareOk base metadata share) :
    AggregatorOk base path metadata (aggr.addShare (base.weight share.author) share) := by
  refine ⟨h.author, h.pathType, Table.nodup_keys_put h.keys _ _, ?_, ?_⟩
  · exact Table.forall_mem_put h.shares ⟨rfl, hshare.metadata, hshare.valid, hshare.weight⟩
  · unfold ShareAggregator.addShare
    by_cases hnew : share.author ∈ aggr.shares.keys
    · -- the weight of the author is counted already
      have hsome := Table.mem_keys_iff.mp hnew
      have hperm := Table.keys_put_perm (v := share) h.keys hnew
      simp only [Option.isNone_iff_eq_none, Option.ne_none_iff_isSome.mpr hsome, ↓reduceIte]
      rw [(hperm.map base.weight).sum_eq]
      exact h.totalWeight
    · have hnone := Table.get_eq_none hnew
      simp only [hnone, Option.isNone_none, ↓reduceIte]
      rw [Table.keys_put_new hnew, List.map_cons, List.sum_cons, h.totalWeight]
      omega

/-- Shares that are for the metadata all stay. -/
theorem retain (hcfg : SameBase cfg base) : aggr.retain cfg metadata = .ok aggr := by
  have hfilter : aggr.shares.filter (fun e => e.2.metadata = metadata) = aggr.shares := by
    apply List.filter_eq_self.mpr
    intro e he
    simpa using (h.shares e he).2.1
  have hweights : aggr.shares.mapM (fun e => cfg.getPeerWeight e.1) =
      .ok (aggr.shares.keys.map base.weight) := by
    have hall : ∀ l : List (Author × RandShare S), (∀ e ∈ l, (base.weights.get e.1).isSome = true) →
        l.mapM (fun e => cfg.getPeerWeight e.1) = .ok (l.map fun e => base.weight e.1) := by
      intro l hl
      induction l with
      | nil => rfl
      | cons e rest ih =>
        obtain ⟨hfirst, hrest⟩ := List.forall_mem_cons.mp hl
        rw [List.mapM_cons, hcfg.getPeerWeight hfirst, ih hrest]
        rfl
    rw [hall _ fun e he => (h.shares e he).2.2.2, Table.keys, List.map_map]
    rfl
  unfold ShareAggregator.retain
  simp only [hfilter, hweights]
  change (Except.ok _ : Except Fault (ShareAggregator S)) = _
  rw [← h.totalWeight]

/-- The shares that an aggregation is started with. -/
theorem qualifying (hweight : base.threshold ≤ aggr.totalWeight) :
    Qualifying base metadata (aggr.shares.map (·.2)) := by
  have hauthors : (aggr.shares.map (·.2)).map (·.author) = aggr.shares.keys := by
    rw [List.map_map]
    refine List.map_congr_left fun e he => (h.shares e he).1
  refine ⟨?_, ?_, ?_, ?_⟩
  · rw [hauthors]
    exact h.keys
  · refine List.forall_mem_map.mpr fun e he => ?_
    exact (h.shares e he).2.1
  · refine List.forall_mem_map.mpr fun e he => ?_
    exact (h.shares e he).2.2.1
  · have hsum : (aggr.shares.map (·.2)).map (fun share => base.weight share.author) =
        aggr.shares.keys.map base.weight := by
      rw [← hauthors, List.map_map, List.map_map, List.map_map]
      rfl
    rw [hsum, ← h.totalWeight]
    exact hweight

/-- An aggregator that has the node's own share does not panic. -/
theorem tryAggregate (hcfg : SameBase cfg base) (hself : aggr.getSelfShare.isSome = true) :
    Succeeds (aggr.tryAggregate cfg metadata)
      fun started => ∀ e, started = some e → JobOk base path metadata e.2 := by
  unfold ShareAggregator.tryAggregate
  by_cases hweight : aggr.totalWeight < cfg.threshold
  · rw [if_pos hweight]
    exact fun e hsome => by cases hsome
  · obtain ⟨selfShare, hshare⟩ := Option.isSome_iff_exists.mp hself
    rw [if_neg hweight, hshare]
    rintro e hsome
    obtain rfl := Option.some.inj hsome
    refine ⟨h.pathType, h.qualifying ?_, rfl⟩
    rw [← hcfg.threshold]
    omega

end

omit [TShare S] in
/-- The node's own share stays when other shares are added. -/
theorem getSelfShare_addShare {weight : Nat}
    (h : aggr.getSelfShare.isSome = true ∨ share.author = aggr.author) :
    (aggr.addShare weight share).getSelfShare.isSome = true := by
  change ((aggr.shares.put share.author share).get aggr.author).isSome = true
  rw [Table.get_put]
  by_cases hauthor : aggr.author = share.author
  · rw [if_pos hauthor]
    rfl
  · rw [if_neg hauthor]
    exact h.resolve_right fun heq => hauthor heq.symm

end AggregatorOk

/-! ## The item of a round -/

namespace ItemOk

variable {item : RandItem S}

theorem new (hauthor : author = base.author) :
    ItemOk base path metadata (RandItem.new author path : RandItem S) :=
  AggregatorOk.new hauthor

variable (h : ItemOk base path metadata item) (hcfg : SameBase cfg base)

include h hcfg

/-- A sound item that knows the metadata as before, and has the node's own share if it had or if
this was it. -/
theorem addShare (hshare : ShareOk base metadata share) :
    Succeeds (item.addShare share cfg) fun item' => ItemOk base path metadata item' ∧
      (item.HasMetadata → item'.HasMetadata) ∧
      (item.HasSelfShare ∨ share.author = base.author → item'.HasSelfShare) := by
  have hweight := hcfg.getPeerWeight hshare.weight
  cases item with
  | pendingMetadata aggr =>
    simp only [RandItem.addShare, hweight]
    refine ⟨AggregatorOk.addShare h hshare, fun hfalse => hfalse, fun hself => ?_⟩
    apply AggregatorOk.getSelfShare_addShare
    rw [AggregatorOk.author h]
    exact hself
  | pendingDecision known aggr =>
    obtain ⟨rfl, haggr, hself⟩ := h
    have hself' : (aggr.addShare (base.weight share.author) share).getSelfShare.isSome = true :=
      AggregatorOk.getSelfShare_addShare (.inl hself)
    simp only [RandItem.addShare, hshare.metadata, hweight]
    rw [(ensure_ok_iff (u := ⟨⟩)).mpr trivial]
    exact ⟨⟨rfl, haggr.addShare hshare, hself'⟩, fun _ => trivial, fun _ => hself'⟩
  | decided selfShare => exact ⟨trivial, fun _ => trivial, fun _ => rfl⟩

theorem tryAggregate : Succeeds (item.tryAggregate cfg) fun e => ItemOk base path metadata e.1 ∧
      (item.HasMetadata → e.1.HasMetadata) ∧ (item.HasSelfShare → e.1.HasSelfShare) ∧
      ∀ job ∈ e.2, JobOk base path metadata job := by
  cases item with
  | pendingMetadata aggr =>
    exact ⟨h, fun hmeta => hmeta, fun hself => hself, List.forall_mem_nil _⟩
  | pendingDecision known aggr =>
    obtain ⟨rfl, haggr, hself⟩ := h
    refine (haggr.tryAggregate hcfg hself).bind fun started _ hstarted => ?_
    cases started with
    | none => exact ⟨⟨rfl, haggr, hself⟩, fun hmeta => hmeta, fun hshare => hshare,
        List.forall_mem_nil _⟩
    | some e =>
      refine ⟨trivial, fun _ => trivial, fun _ => rfl, fun job hjob => ?_⟩
      obtain rfl := List.mem_singleton.mp hjob
      exact hstarted e rfl
  | decided selfShare =>
    exact ⟨trivial, fun hmeta => hmeta, fun hself => hself, List.forall_mem_nil _⟩

/-- The metadata of the block comes after the node's own share. -/
theorem addMetadata (hself : item.HasSelfShare) : Succeeds (item.addMetadata cfg metadata)
      fun item' => ItemOk base path metadata item' ∧ item'.HasMetadata ∧ item'.HasSelfShare := by
  cases item with
  | pendingMetadata aggr =>
    simp only [RandItem.addMetadata, AggregatorOk.retain h hcfg]
    exact ⟨⟨rfl, h, hself⟩, trivial, hself⟩
  | pendingDecision known aggr => exact ⟨h, trivial, hself⟩
  | decided selfShare => exact ⟨trivial, trivial, rfl⟩

end ItemOk

/-! ## The items of a path -/

def MapOk (base : RandConfig) (path : PathType) (epoch : Nat) (map : RandMap S) : Prop :=
  ∀ round item, Table.get map round = some item → ItemOk base path ⟨epoch, round⟩ item

/-- The metadata of the round's block is known. -/
def RandMap.Known (map : RandMap S) (round : Nat) : Prop :=
  ∃ item, Table.get map round = some item ∧ item.HasMetadata

def RandMap.HasSelf (map : RandMap S) (round : Nat) : Prop :=
  ∃ item, Table.get map round = some item ∧ item.HasSelfShare

/-- What an operation on the items of a path leaves. -/
structure MapGrows (map map' : RandMap S) : Prop where
  known : ∀ round, RandMap.Known map round → RandMap.Known map' round
  hasSelf : ∀ round, RandMap.HasSelf map round → RandMap.HasSelf map' round

variable {map : RandMap S} {epoch : Nat}

theorem MapOk.item (h : MapOk base path epoch map) (hauthor : author = base.author) (round : Nat) :
    ItemOk base path ⟨epoch, round⟩ ((Table.get map round).getD (RandItem.new author path)) := by
  cases hget : Table.get map round with
  | none => exact ItemOk.new hauthor
  | some item => exact h round item hget

variable {item : RandItem S} {round : Nat}

theorem MapOk.put (h : MapOk base path epoch map) (hitem : ItemOk base path ⟨epoch, round⟩ item) :
    MapOk base path epoch (Table.put map round item) := Table.forall_get_put h hitem

omit [TShare S] in
/-- A round's item is replaced by one that knows as much. -/
theorem mapGrows_put (hitem : ∀ old, Table.get map round = some old →
      (old.HasMetadata → item.HasMetadata) ∧ (old.HasSelfShare → item.HasSelfShare)) :
    MapGrows map (Table.put map round item) := by
  have hput : ∀ {P : RandItem S → Prop} {r}, (∃ old, Table.get map r = some old ∧ P old) →
      (∀ old, Table.get map round = some old → P old → P item) →
      ∃ new, Table.get (Table.put map round item) r = some new ∧ P new := by
    rintro P r ⟨old, hget, hold⟩ hnew
    rw [Table.get_put]
    by_cases hr : r = round
    · subst hr
      exact ⟨item, if_pos rfl, hnew old hget hold⟩
    · exact ⟨old, by rw [if_neg hr]; exact hget, hold⟩
  exact ⟨fun _ h => hput h fun old hold => (hitem old hold).1,
    fun _ h => hput h fun old hold => (hitem old hold).2⟩

/-- Aggregations of the path that have been started, for rounds of the epoch. -/
def JobsOk (base : RandConfig) (path : PathType) (epoch : Nat)
    (jobs : List (Aggregation S)) : Prop :=
  ∀ job ∈ jobs, JobOk base path job.metadata job ∧ job.metadata.epoch = epoch

section

variable (h : MapOk base path epoch map) (hcfg : SameBase cfg base)

include h hcfg

/-- A changed item is aggregated, if it can be, and put in its place. -/
theorem MapOk.putAggregated
    (hepoch : metadata.epoch = epoch) (hitem : ItemOk base path metadata item)
    (hold : ∀ old, Table.get map metadata.round = some old →
      (old.HasMetadata → item.HasMetadata) ∧ (old.HasSelfShare → item.HasSelfShare)) :
    Succeeds (item.tryAggregate cfg) fun e =>
      MapOk base path epoch (Table.put map metadata.round e.1) ∧
      MapGrows map (Table.put map metadata.round e.1) ∧
      (item.HasMetadata → e.1.HasMetadata) ∧ (item.HasSelfShare → e.1.HasSelfShare) ∧
      JobsOk base path epoch e.2 := by
  refine (hitem.tryAggregate hcfg).imp ?_
  rintro ⟨item', started⟩ ⟨hitem', hknown, hself, hjobs⟩
  refine ⟨h.put (hepoch ▸ hitem'), mapGrows_put fun old hget => ?_, hknown, hself,
    fun job hjob => ?_⟩
  · obtain ⟨hmeta, hshare⟩ := hold old hget
    exact ⟨fun hold => hknown (hmeta hold), fun hold => hself (hshare hold)⟩
  · have hok := hjobs job hjob
    rw [hok.metadata]
    exact ⟨hok, hepoch⟩

theorem MapOk.addShare (hauthor : author = base.author) (hepoch : share.metadata.epoch = epoch)
    (hshare : ShareOk base share.metadata share) :
    Succeeds (RandMap.addShare map author path cfg share) fun e =>
      MapOk base path epoch e.2.1 ∧ MapGrows map e.2.1 ∧
      (share.author = base.author → RandMap.HasSelf e.2.1 share.metadata.round) ∧
      JobsOk base path epoch e.2.2 := by
  have hitem := h.item hauthor share.metadata.round
  rw [← hepoch] at hitem
  refine (hitem.addShare hcfg hshare).bind ?_
  rintro item _ ⟨hitem', hknown, hself⟩
  refine (h.putAggregated hcfg hepoch hitem' fun old hold => ?_).bind ?_
  · rw [hold, Option.getD_some] at hknown hself
    exact ⟨hknown, fun hshare => hself (.inl hshare)⟩
  · rintro ⟨item', started⟩ _ ⟨hmap, hgrows, -, hself', hjobs⟩
    exact ⟨hmap, hgrows, fun hown => ⟨item', Table.get_put_self, hself' (hself (.inr hown))⟩, hjobs⟩

theorem MapOk.addRandMetadata (hauthor : author = base.author) (hepoch : metadata.epoch = epoch)
    (hself : RandMap.HasSelf map metadata.round) :
    Succeeds (RandMap.addRandMetadata map author path cfg metadata) fun e =>
      MapOk base path epoch e.1 ∧ MapGrows map e.1 ∧ RandMap.Known e.1 metadata.round ∧
      JobsOk base path epoch e.2 := by
  have hitem := h.item hauthor metadata.round
  rw [← hepoch] at hitem
  obtain ⟨old, hget, hshare⟩ := hself
  have hown : ((Table.get map metadata.round).getD (RandItem.new author path)).HasSelfShare := by
    rw [hget]
    exact hshare
  refine (hitem.addMetadata hcfg hown).bind ?_
  rintro item _ ⟨hitem', hknown, hself⟩
  refine (h.putAggregated hcfg hepoch hitem' fun _ _ => ⟨fun _ => hknown, fun _ => hself⟩).bind ?_
  rintro ⟨item', started⟩ _ ⟨hmap, hgrows, hknown', -, hjobs⟩
  exact ⟨hmap, hgrows, ⟨item', Table.get_put_self, hknown' hknown⟩, hjobs⟩

end

/-! ## The store -/

/-- The configurations of the two paths, as the key generation has set them. -/
structure Bases where
  slow : RandConfig
  fast : Option RandConfig
  author : ∀ base, fast = some base → base.author = slow.author

def Bases.get (bases : Bases) : PathType → Option RandConfig
  | .slow => some bases.slow
  | .fast => bases.fast

/-- The fast path of a store is off, or sound. -/
def FastOk (bases : Bases) (store : RandStore S) : Prop :=
  (bases.fast = none ∧ store.fastRandConfig = none ∧ store.fastRandMap = none) ∨
    ∃ base cfg map, bases.fast = some base ∧ store.fastRandConfig = some cfg ∧
      store.fastRandMap = some map ∧ SameBase cfg base ∧ MapOk base .fast store.epoch map

structure StoreOk (bases : Bases) (store : RandStore S) : Prop where
  author : ∀ path base, bases.get path = some base → store.author = base.author
  slowConfig : SameBase store.randConfig bases.slow
  slowMap : MapOk bases.slow .slow store.epoch store.randMap
  fast : FastOk bases store
  jobs : ∀ job ∈ store.aggregating, job.metadata.epoch = store.epoch ∧
    ∃ base, bases.get job.pathType = some base ∧ JobOk base job.pathType job.metadata job
  highest : store.highestKnownRound + futureRoundsToAccept ≤ u64Max

/-- What an operation on the store leaves alone. -/
structure StoreGrows (store store' : RandStore S) : Prop where
  epoch : store'.epoch = store.epoch
  author : store'.author = store.author
  randConfig : store'.randConfig = store.randConfig
  fastRandConfig : store'.fastRandConfig = store.fastRandConfig
  highest : store.highestKnownRound ≤ store'.highestKnownRound
  known : ∀ round, RandMap.Known store.randMap round → RandMap.Known store'.randMap round

variable {bases : Bases} {store : RandStore S}

omit [TShare S] in
theorem StoreGrows.refl (store : RandStore S) : StoreGrows store store :=
  ⟨rfl, rfl, rfl, rfl, Nat.le_refl _, fun _ h => h⟩

omit [TShare S] in
theorem StoreGrows.trans {store₁ store₂ store₃ : RandStore S} (h : StoreGrows store₁ store₂)
    (h' : StoreGrows store₂ store₃) : StoreGrows store₁ store₃ :=
  ⟨h'.epoch.trans h.epoch, h'.author.trans h.author, h'.randConfig.trans h.randConfig,
    h'.fastRandConfig.trans h.fastRandConfig, Nat.le_trans h.highest h'.highest,
    fun r hr => h'.known r (h.known r hr)⟩

/-- Aggregations that have just been started join those that run. -/
theorem StoreOk.jobs_append (h : StoreOk bases store) (path : PathType)
    (hbase : bases.get path = some base) {started : List (Aggregation S)}
    (hstarted : JobsOk base path store.epoch started) :
    ∀ job ∈ store.aggregating ++ started, job.metadata.epoch = store.epoch ∧
      ∃ base, bases.get job.pathType = some base ∧ JobOk base job.pathType job.metadata job := by
  intro job hjob
  rcases List.mem_append.mp hjob with hold | hnew
  · exact h.jobs job hold
  · obtain ⟨hok, hepoch⟩ := hstarted job hnew
    refine ⟨hepoch, base, ?_, ?_⟩
    · rw [hok.pathType]
      exact hbase
    · rw [hok.pathType]
      exact hok

/-- The part of a share's metadata that the store checks. -/
structure InReach (store : RandStore S) (metadata : RandMetadata) : Prop where
  epoch : metadata.epoch = store.epoch
  round : metadata.round ≤ store.highestKnownRound + futureRoundsToAccept

theorem StoreOk.fast_on (h : StoreOk bases store) (hbase : bases.fast = some base) :
    ∃ cfg map, store.fastRandConfig = some cfg ∧ store.fastRandMap = some map ∧
      SameBase cfg base ∧ MapOk base .fast store.epoch map := by
  rcases h.fast with ⟨hnone, -, -⟩ | ⟨base', cfg, map, hbase', hcfg, hmap, hsame, hok⟩
  · simp [hbase] at hnone
  · obtain rfl : base = base' := Option.some.inj (hbase.symm.trans hbase')
    exact ⟨cfg, map, hcfg, hmap, hsame, hok⟩

/-- The items of a path. -/
def RandStore.items (store : RandStore S) : PathType → Option (RandMap S)
  | .slow => some store.randMap
  | .fast => store.fastRandMap

variable {path : PathType}

theorem StoreOk.addShare (h : StoreOk bases store)
    (hbase : bases.get path = some base) (hreach : InReach store share.metadata)
    (hshare : ShareOk base share.metadata share) :
    Succeeds (store.addShare share path) fun e => StoreOk bases e.2 ∧ StoreGrows store e.2 ∧
      (∀ round, RandMap.HasSelf store.randMap round → RandMap.HasSelf e.2.randMap round) ∧
      (share.author = base.author → ∀ map, e.2.items path = some map →
        RandMap.HasSelf map share.metadata.round) := by
  simp only [RandStore.addShare, ensure, if_pos hreach.epoch, if_pos h.highest, if_pos hreach.round]
  cases path with
  | slow =>
    obtain rfl : bases.slow = base := Option.some.inj hbase
    refine (h.slowMap.addShare h.slowConfig (h.author .slow _ rfl) hreach.epoch hshare).bind ?_
    rintro ⟨decided, map, started⟩ _ ⟨hmap, hgrows, hself, hjobs⟩
    refine ⟨⟨h.author, h.slowConfig, hmap, h.fast, h.jobs_append .slow rfl hjobs, h.highest⟩,
      ⟨rfl, rfl, rfl, rfl, Nat.le_refl _, hgrows.known⟩, hgrows.hasSelf, fun hown map' hmap' => ?_⟩
    obtain rfl : map = map' := Option.some.inj hmap'
    exact hself hown
  | fast =>
    obtain ⟨cfg, map, hcfg, hmap, hsame, hok⟩ := h.fast_on hbase
    simp only [hcfg, hmap]
    refine (hok.addShare hsame (h.author .fast _ hbase) hreach.epoch hshare).bind ?_
    rintro ⟨decided, map', started⟩ _ ⟨hok', -, hself, hjobs⟩
    refine ⟨⟨h.author, h.slowConfig, h.slowMap, .inr
      ⟨base, cfg, map', hbase, rfl, rfl, hsame, hok'⟩, h.jobs_append .fast hbase hjobs, h.highest⟩,
      ⟨rfl, rfl, rfl, hcfg.symm, Nat.le_refl _, fun _ hr => hr⟩, fun _ hself => hself,
        fun hown map'' hmap'' => ?_⟩
    obtain rfl : map' = map'' := Option.some.inj hmap''
    exact hself hown

theorem StoreOk.addRandMetadata (h : StoreOk bases store) (hepoch : metadata.epoch = store.epoch)
    (hslow : RandMap.HasSelf store.randMap metadata.round)
    (hfast : ∀ map, store.fastRandMap = some map → RandMap.HasSelf map metadata.round) :
    Succeeds (store.addRandMetadata metadata) fun store' => StoreOk bases store' ∧
      StoreGrows store store' ∧ RandMap.Known store'.randMap metadata.round := by
  refine (h.slowMap.addRandMetadata h.slowConfig (h.author .slow _ rfl) hepoch hslow).bind ?_
  rintro ⟨map, started⟩ _ ⟨hmap, hgrows, hknown, hjobs⟩
  have hmid : StoreOk bases
      { store with randMap := map, aggregating := store.aggregating ++ started } :=
    ⟨h.author, h.slowConfig, hmap, h.fast, h.jobs_append .slow rfl hjobs, h.highest⟩
  rcases h.fast with ⟨hoff, hcfg, hnone⟩ | ⟨base, cfg, fastMap, hbase, hcfg, hfastMap, hsame, hok⟩
  · simp only [hcfg, hnone]
    exact ⟨⟨h.author, h.slowConfig, hmap, .inl ⟨hoff, rfl, rfl⟩, hmid.jobs, h.highest⟩,
      ⟨rfl, rfl, rfl, hcfg.symm, Nat.le_refl _, hgrows.known⟩, hknown⟩
  · simp only [hcfg, hfastMap]
    refine (hok.addRandMetadata hsame (h.author .fast _ hbase) hepoch (hfast _ hfastMap)).bind ?_
    rintro ⟨fastMap', started'⟩ _ ⟨hok', -, -, hjobs'⟩
    exact ⟨⟨h.author, h.slowConfig, hmap, .inr ⟨base, cfg, fastMap', hbase, rfl, rfl, hsame, hok'⟩,
      hmid.jobs_append .fast hbase hjobs', h.highest⟩,
      ⟨rfl, rfl, rfl, hcfg.symm, Nat.le_refl _, hgrows.known⟩, hknown⟩

/-- The assumptions about the shares of both paths. -/
structure Schemes (S : Type) [TShare S] (bases : Bases) (value : RandMetadata → List UInt8) :
    Prop where
  schemes : ∀ path base, bases.get path = some base → Scheme S base value

variable {value : RandMetadata → List UInt8}

theorem Scheme.generate_ok (h : Scheme S base value) (hcfg : SameBase cfg base)
    (metadata : RandMetadata) :
    ShareOk base metadata (RandShare.generate cfg metadata : RandShare S) := by
  refine ⟨rfl, ⟨cfg, hcfg, .inr rfl⟩, ?_⟩
  change (base.weights.get cfg.author).isSome = true
  rw [hcfg.author]
  exact h.ownWeight

theorem Scheme.verified_ok (h : Scheme S base value) (hcfg : SameBase cfg base)
    (hverify : share.verify cfg = .ok ()) :
    ShareOk base share.metadata share :=
  ⟨rfl, ⟨cfg, hcfg, .inl hverify⟩, h.verifiedWeight cfg hcfg share hverify⟩

namespace RandManager

theorem addSelfShare_ok (h : StoreOk bases store) (hs : Schemes S bases value)
    (hbase : bases.get path = some base) (hcfg : SameBase cfg base)
    (hreach : InReach store metadata) (expectation : String) :
    Succeeds (addSelfShare store cfg metadata path expectation) fun store' => StoreOk bases store' ∧
      StoreGrows store store' ∧
      (∀ round, RandMap.HasSelf store.randMap round → RandMap.HasSelf store'.randMap round) ∧
      ∀ map, store'.items path = some map → RandMap.HasSelf map metadata.round := by
  have hshare : ShareOk base (RandShare.generate cfg metadata : RandShare S).metadata
      (RandShare.generate cfg metadata) := (hs.schemes path _ hbase).generate_ok hcfg metadata
  refine (Ensures.mapError (h.addShare hbase hreach hshare)).bind ?_
  rintro ⟨decided, store'⟩ _ ⟨hok, hgrows, hkept, hself⟩
  exact ⟨hok, hgrows, hkept, hself hcfg.author⟩

theorem addSelfFastShare_ok (h : StoreOk bases store) (hs : Schemes S bases value)
    (hreach : InReach store metadata) :
    Succeeds (addSelfFastShare store metadata) fun store' => StoreOk bases store' ∧
      StoreGrows store store' ∧
      (∀ round, RandMap.HasSelf store.randMap round → RandMap.HasSelf store'.randMap round) ∧
      ∀ map, store'.fastRandMap = some map → RandMap.HasSelf map metadata.round := by
  unfold addSelfFastShare
  rcases h.fast with ⟨-, hcfg, hmap⟩ | ⟨base, cfg, map, hbase, hcfg, -, hsame, -⟩
  · rw [hcfg]
    refine ⟨h, StoreGrows.refl store, fun _ hself => hself, fun map hsome => ?_⟩
    simp [hmap] at hsome
  · rw [hcfg]
    exact addSelfShare_ok h hs (show bases.get .fast = _ from hbase) hsame hreach _

omit [TShare S] in
theorem highest_max {a b : Nat} (ha : a + futureRoundsToAccept ≤ u64Max)
    (hb : b + futureRoundsToAccept ≤ u64Max) : max a b + futureRoundsToAccept ≤ u64Max := by
  rw [← Nat.add_max_add_right]
  exact Nat.max_le.mpr ⟨ha, hb⟩

/-- A block of the epoch does not make it panic. -/
theorem processIncomingMetadata_ok (metadata : RandMetadata) (h : StoreOk bases store)
    (hs : Schemes S bases value) (hepoch : metadata.epoch = store.epoch)
    (hlimit : metadata.round + futureRoundsToAccept ≤ u64Max) :
    Succeeds (processIncomingMetadata store metadata) fun store' => StoreOk bases store' ∧
      StoreGrows store store' ∧ RandMap.Known store'.randMap metadata.round := by
  have hup : StoreOk bases (store.updateHighestKnownRound metadata.round) :=
    { h with highest := highest_max h.highest hlimit }
  have hgrows : StoreGrows store (store.updateHighestKnownRound metadata.round) :=
    ⟨rfl, rfl, rfl, rfl, Nat.le_max_left _ _, fun _ hr => hr⟩
  have hround : metadata.round ≤ (store.updateHighestKnownRound metadata.round).highestKnownRound :=
    Nat.le_max_right _ _
  have hreach : InReach (store.updateHighestKnownRound metadata.round) metadata :=
    ⟨hepoch, Nat.le_trans hround (Nat.le_add_right _ _)⟩
  refine (addSelfShare_ok hup hs (show bases.get .slow = _ from rfl) h.slowConfig hreach _).bind ?_
  rintro store₁ _ ⟨hok₁, hgrows₁, -, hself₁⟩
  have hreach₁ : InReach store₁ metadata :=
    ⟨hepoch.trans hgrows₁.epoch.symm,
      Nat.le_trans hround (Nat.le_trans hgrows₁.highest (Nat.le_add_right _ _))⟩
  refine (addSelfFastShare_ok hok₁ hs hreach₁).bind ?_
  rintro store₂ _ ⟨hok₂, hgrows₂, hkept, hself₂⟩
  refine (hok₂.addRandMetadata (hreach₁.epoch.trans hgrows₂.epoch.symm) (hkept _ (hself₁ _ rfl))
    hself₂).imp ?_
  rintro store₃ ⟨hok₃, hgrows₃, hknown⟩
  exact ⟨hok₃, ((hgrows.trans hgrows₁).trans hgrows₂).trans hgrows₃, hknown⟩

/-! ## Shares from peers -/

/-- An operation may be rejected, but does not panic. -/
abbrev NoPanic {α : Type} (x : Except Fault α) (Q : α → Prop) : Prop :=
  Ensures x Q fun fault => ∃ message, fault = .error message

section

variable (h : StoreOk bases store)
  (hshare : ∀ base, bases.get path = some base → ShareOk base share.metadata share)

include h hshare

/-- A sound share is added; one of another epoch or too far ahead is rejected. -/
theorem addShare_noPanic :
    NoPanic (store.addShare share path) fun e => StoreOk bases e.2 ∧ StoreGrows store e.2 := by
  by_cases hreach : InReach store share.metadata
  · cases hbase : bases.get path with
    | some base =>
      exact (h.addShare hbase hreach (hshare base hbase)).mono (fun _ he => ⟨he.1, he.2.1⟩)
        fun _ hfalse => hfalse.elim
    | none =>
      cases path with
      | slow => cases hbase
      | fast =>
        rcases h.fast with ⟨-, hcfg, -⟩ | ⟨base, -, -, hsome, -⟩
        · simp only [RandStore.addShare, ensure, if_pos hreach.epoch, if_pos h.highest,
            if_pos hreach.round, hcfg]
          exact ⟨_, rfl⟩
        · cases hbase.symm.trans hsome
  · refine (ensures_ensure fun _ => ⟨_, rfl⟩).bind fun _ _ hepoch => ?_
    refine (ensures_ensure fun hover => absurd h.highest hover).bind fun _ _ _ => ?_
    refine (ensures_ensure fun _ => ⟨_, rfl⟩).bind fun _ _ hround => ?_
    exact absurd ⟨hepoch, hround⟩ hreach

theorem offerShare_ok : Succeeds (offerShare store share path)
      fun store' => StoreOk bases store' ∧ StoreGrows store store' := by
  have hadd := addShare_noPanic h hshare
  unfold offerShare
  cases hstore : store.addShare share path with
  | ok e =>
    rw [hstore] at hadd
    exact hadd
  | error fault =>
    rw [hstore] at hadd
    obtain ⟨message, rfl⟩ := hadd
    exact ⟨h, StoreGrows.refl store⟩

end

/-- A verified message is processed without a panic. -/
theorem processMessage_ok (h : StoreOk bases store) (hs : Schemes S bases value)
    {message : RandMessage S} (hverify : verifyMessage store message = .ok ()) :
    Succeeds (processMessage store message)
      fun store' => StoreOk bases store' ∧ StoreGrows store store' := by
  cases message with
  | requestShare metadata =>
    have hepoch : metadata.epoch = store.epoch := ensure_ok_iff.mp hverify
    simp only [processMessage]
    cases hget : store.getSelfShare metadata with
    | error e => exact ⟨h, StoreGrows.refl store⟩
    | ok found =>
      cases found with
      | some share => exact ⟨h, StoreGrows.refl store⟩
      | none =>
        simp only [RandStore.getSelfShare, except_seq_ok_iff, ensure_ok_iff] at hget
        have hreach : InReach store metadata :=
          ⟨hepoch, Nat.le_trans hget.1 (Nat.le_add_right _ _)⟩
        exact (addSelfShare_ok h hs (show bases.get .slow = _ from rfl) h.slowConfig hreach _).mono
          (fun _ hstore => ⟨hstore.1, hstore.2.1⟩) fun _ hfalse => hfalse
  | share share =>
    simp only [verifyMessage, except_seq_ok_iff] at hverify
    refine offerShare_ok h fun base hbase => ?_
    obtain rfl : bases.slow = base := Option.some.inj hbase
    exact (hs.schemes .slow _ rfl).verified_ok h.slowConfig hverify.2
  | fastShare share =>
    simp only [verifyMessage, except_seq_ok_iff] at hverify
    refine offerShare_ok h fun base hbase => ?_
    obtain ⟨cfg, map, hcfg, -, hsame, -⟩ := h.fast_on hbase
    rw [hcfg] at hverify
    exact (hs.schemes .fast _ hbase).verified_ok hsame hverify.2

/-- The answer of a peer is added or rejected, without a panic. -/
theorem addShareResponse_noPanic (h : StoreOk bases store) (hs : Schemes S bases value)
    (peer : Author) (metadata : RandMetadata) (share : RandShare S) :
    NoPanic (addShareResponse store peer metadata share)
      fun store' => StoreOk bases store' ∧ StoreGrows store store' := by
  refine (ensures_ensure fun _ => ⟨_, rfl⟩).bind fun _ _ _ => ?_
  refine (ensures_ensure fun _ => ⟨_, rfl⟩).bind fun _ _ _ => ?_
  cases hverify : share.verify store.randConfig with
  | error e => exact ⟨e, rfl⟩
  | ok u =>
    refine (addShare_noPanic h fun base hbase => ?_).bind fun e _ he => he
    obtain rfl : bases.slow = base := Option.some.inj hbase
    exact (hs.schemes .slow _ rfl).verified_ok h.slowConfig hverify

/-! ## Resets, decisions and keys -/

theorem mapOk_retain (h : MapOk base path epoch map) (p : Nat → Bool) :
    MapOk base path epoch (Table.retain map p) :=
  fun _ _ hget => h _ _ (Table.of_get_retain hget)

theorem resetToRound_ok (h : StoreOk bases store) {target : Nat}
    (htarget : target + futureRoundsToAccept ≤ u64Max) :
    StoreOk bases (store.resetToRound target) := by
  refine ⟨h.author, h.slowConfig, mapOk_retain h.slowMap fun r => decide (r < target), ?_, h.jobs,
    highest_max h.highest htarget⟩
  rcases h.fast with ⟨hnone, hcfg, hmap⟩ | ⟨base, cfg, map, hbase, hcfg, hmap, hsame, hok⟩
  · refine .inl ⟨hnone, hcfg, ?_⟩
    change store.fastRandMap.map _ = none
    rw [hmap]
    rfl
  · refine .inr ⟨base, cfg, Table.retain map fun r => decide (r < target), hbase, hcfg, ?_, hsame,
      mapOk_retain hok _⟩
    change store.fastRandMap.map _ = _
    rw [hmap]
    rfl

/-- The randomness that the shares of a round determine. -/
def DecisionOk (value : RandMetadata → List UInt8) (epoch : Nat) (d : Randomness) : Prop :=
  d.randomness = value d.metadata ∧ d.metadata.epoch = epoch

theorem storeOk_config (h : StoreOk bases store) {base cfg : RandConfig}
    (hbase : bases.get path = some base) (hcfg : store.config path = some cfg) :
    SameBase cfg base := by
  cases path with
  | slow =>
    obtain rfl : bases.slow = base := Option.some.inj hbase
    obtain rfl : store.randConfig = cfg := Option.some.inj hcfg
    exact h.slowConfig
  | fast =>
    obtain ⟨cfg', map, hcfg', -, hsame, -⟩ := h.fast_on hbase
    obtain rfl : cfg' = cfg := Option.some.inj (hcfg'.symm.trans hcfg)
    exact hsame

/-- An aggregation that ends sends the randomness of its round. -/
theorem finishAggregation_ok {m : RandManager S} (h : StoreOk bases m.randStore)
    (hs : Schemes S bases value) (hd : ∀ d ∈ m.decisions, DecisionOk value m.randStore.epoch d)
    (index : Nat) :
    StoreOk bases (m.finishAggregation index).randStore ∧
      StoreGrows m.randStore (m.finishAggregation index).randStore ∧
      (∀ d ∈ (m.finishAggregation index).decisions, DecisionOk value m.randStore.epoch d) ∧
      (m.finishAggregation index).blockQueue = m.blockQueue := by
  unfold finishAggregation
  cases hjob : m.randStore.aggregating[index]? with
  | none => exact ⟨h, StoreGrows.refl _, hd, rfl⟩
  | some job =>
    have herase : StoreOk bases
        { m.randStore with aggregating := m.randStore.aggregating.eraseIdx index } :=
      { h with jobs := fun j hj => h.jobs j (List.mem_of_mem_eraseIdx hj) }
    have hgrows : StoreGrows m.randStore
        { m.randStore with aggregating := m.randStore.aggregating.eraseIdx index } :=
      ⟨rfl, rfl, rfl, rfl, Nat.le_refl _, fun _ hr => hr⟩
    obtain ⟨hepoch, base, hbase, hok⟩ := h.jobs job (List.mem_of_getElem? hjob)
    simp only
    cases hcfg : RandStore.config
        { m.randStore with aggregating := m.randStore.aggregating.eraseIdx index } job.pathType with
    | none => exact ⟨herase, hgrows, hd, rfl⟩
    | some cfg =>
      have hsame := storeOk_config herase hbase hcfg
      dsimp only
      cases haggregate : RandShare.aggregate job.shares cfg job.metadata with
      | error e => exact ⟨herase, hgrows, hd, rfl⟩
      | ok randomness =>
        simp only [RandShare.aggregate, except_bind_ok_iff, except_pure_ok_iff] at haggregate
        obtain ⟨bytes, hbytes, rfl⟩ := haggregate
        refine ⟨herase, hgrows, ?_, rfl⟩
        apply forall_mem_snoc hd
        exact ⟨(hs.schemes _ _ hbase).derive cfg hsame job.metadata job.shares hok.qualifying bytes
          hbytes, hepoch⟩

omit [TShare S] in
theorem sameBase_addCertifiedApk {cfg base : RandConfig} (h : SameBase cfg base) (author : Author)
    (apk : Apk) : SameBase (addCertifiedApk cfg author apk) base := by
  unfold addCertifiedApk
  split
  · exact h
  · exact ⟨h.author, h.weights, h.threshold⟩

/-- A certified key changes the configurations, not their base. -/
theorem addCertifiedData_ok {m : RandManager S} (h : StoreOk bases m.randStore) (author : Author)
    (apk : Apk) (fastApk : Option Apk) :
    StoreOk bases (m.addCertifiedData author apk fastApk).randStore ∧
      (m.addCertifiedData author apk fastApk).randStore.epoch = m.randStore.epoch ∧
      (m.addCertifiedData author apk fastApk).randStore.randMap = m.randStore.randMap ∧
      (m.addCertifiedData author apk fastApk).decisions = m.decisions ∧
      (m.addCertifiedData author apk fastApk).blockQueue = m.blockQueue := by
  unfold addCertifiedData
  split
  · exact ⟨h, rfl, rfl, rfl, rfl⟩
  · refine ⟨⟨h.author, sameBase_addCertifiedApk h.slowConfig author apk, h.slowMap, ?_, h.jobs,
      h.highest⟩, rfl, rfl, rfl, rfl⟩
    rcases h.fast with ⟨hnone, hcfg, hmap⟩ | ⟨base, cfg, map, hbase, hcfg, hmap, hsame, hok⟩
    · refine .inl ⟨hnone, ?_, hmap⟩
      simp only [hcfg]
    · cases fastApk with
      | none => exact .inr ⟨base, cfg, map, hbase, by simp only [hcfg], hmap, hsame, hok⟩
      | some key =>
        exact .inr ⟨base, addCertifiedApk cfg author key, map, hbase, by simp only [hcfg], hmap,
          sameBase_addCertifiedApk hsame author key, hok⟩

end RandManager

end RandGen

end Liquent
