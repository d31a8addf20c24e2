import Liquent.Rand.ShareInvariant
import Liquent.Misc.Run

/-!
# The randomness stage is transparent

Batches leave the randomness stage in the order in which they came, each once, and with the
randomness of their rounds: as long as the randomness that blocks already have when they arrive is
that of their round, whatever the order in which shares, decisions and resets come.
-/

namespace Liquent

open Misc

namespace RandGen

open RandManager

variable {S : Type}

/-! ## Batches -/

def roundsOf (batch : OrderedBlocks) : List Nat := batch.orderedBlocks.map (·.block.round)

/-- A batch without the randomness of its blocks. -/
def bare (batch : OrderedBlocks) : OrderedBlocks :=
  { batch with orderedBlocks := batch.orderedBlocks.map fun p => { p with randomness := none } }

/-- The batch of a queue item, with the randomness that has been set so far. -/
def QueueItem.batch (item : QueueItem) : OrderedBlocks where
  orderedBlocks := item.orderedBlocks
  orderedProof := item.orderedProof

theorem roundsOf_bare (batch : OrderedBlocks) : roundsOf (bare batch) = roundsOf batch := by
  simp [roundsOf, bare, Function.comp_def]

/-- The block has no randomness yet, or that of its round. -/
def BlockOk (value : RandMetadata → List UInt8) (epoch : Nat) (p : PipelinedBlock) : Prop :=
  p.block.epoch = epoch ∧ ∀ r, p.randomness = some r →
    r.metadata = p.metadata ∧ r.randomness = value p.metadata

/-! ## Items of the queue -/

/-- An item of the queue knows where its blocks are and how many wait. -/
structure ItemInv (value : RandMetadata → List UInt8) (epoch : Nat) (item : QueueItem) : Prop where
  rounds : (roundsOf item.batch).Pairwise (· < ·)
  offsets : ∀ round offset, item.offsetsByRound.get round = some offset ↔
    (roundsOf item.batch)[offset]? = some round
  undecided : item.numUndecidedBlocks = (item.orderedBlocks.filter fun p => !p.hasRandomness).length
  blocks : ∀ p ∈ item.orderedBlocks, BlockOk value epoch p

variable {value : RandMetadata → List UInt8} {epoch : Nat}

/-- A batch with increasing rounds makes a sound item. -/
theorem QueueItem.new_ok {batch : OrderedBlocks} (hne : batch.orderedBlocks ≠ [])
    (hrounds : (roundsOf batch).Pairwise (· < ·))
    (hblocks : ∀ p ∈ batch.orderedBlocks, BlockOk value epoch p) :
    ∃ item, QueueItem.new batch = .ok item ∧ ItemInv value epoch item ∧ item.batch = batch := by
  refine ⟨_, dif_pos hne, ⟨hrounds, ?_, rfl, hblocks⟩, rfl⟩
  intro round offset
  have hkeys : (batch.orderedBlocks.zipIdx.map fun e => (e.1.block.round, e.2)).map (·.1) =
      roundsOf batch := by
    unfold roundsOf
    rw [List.map_map, ← List.zipIdx_map_fst 0 batch.orderedBlocks, List.map_map]
    simp [Function.comp_def]
  have hnodup : (roundsOf batch).Nodup := hrounds.imp fun hlt => Nat.ne_of_lt hlt
  rw [Table.get_putAll_nil (by rw [hkeys]; exact hnodup)]
  simp only [List.mem_map, Prod.mk.injEq, Prod.exists, List.mem_zipIdx_iff_getElem?]
  constructor
  · rintro ⟨p, i, hp, rfl, rfl⟩
    simp [roundsOf, QueueItem.batch, hp]
  · intro hget
    have hget' : (batch.orderedBlocks[offset]?).map (·.block.round) = some round := by
      simpa [roundsOf, QueueItem.batch] using hget
    obtain ⟨p, hp, hround⟩ := Option.map_eq_some_iff.mp hget'
    exact ⟨p, offset, hp, hround, rfl⟩

theorem QueueItem.head?_rounds (item : QueueItem) :
    (roundsOf item.batch).head? = some item.firstRound := by
  unfold roundsOf QueueItem.firstRound QueueItem.batch
  rw [List.head?_map, List.head?_eq_some_head item.nonempty]
  rfl

theorem QueueItem.getLast?_rounds (item : QueueItem) :
    (roundsOf item.batch).getLast? = some item.lastRound := by
  unfold roundsOf QueueItem.lastRound QueueItem.batch
  rw [List.getLast?_map, List.getLast?_eq_some_getLast item.nonempty]
  rfl

variable {item : QueueItem}

/-- Items with the same rounds start with the same round. -/
theorem QueueItem.firstRound_congr {item' : QueueItem} (h : bare item'.batch = bare item.batch) :
    item'.firstRound = item.firstRound := by
  have hrounds : roundsOf item'.batch = roundsOf item.batch := by
    rw [← roundsOf_bare, h, roundsOf_bare]
  have hhead := item'.head?_rounds
  rw [hrounds, item.head?_rounds] at hhead
  exact (Option.some.inj hhead).symm

variable {d : Randomness}

/-- The metadata of a block is that of a decision for its round in the epoch. -/
theorem BlockOk.metadata_eq {p : PipelinedBlock} (h : BlockOk value epoch p)
    (hd : DecisionOk value epoch d) (hround : p.block.round = d.metadata.round) :
    p.metadata = d.metadata := by
  have hepoch : p.block.epoch = d.metadata.epoch := h.1.trans hd.2.symm
  calc p.metadata = ⟨p.block.epoch, p.block.round⟩ := rfl
    _ = d.metadata := by rw [hepoch, hround]

/-- A decision sets the randomness of its block and of no other. -/
theorem ItemInv.setRandomness (h : ItemInv value epoch item)
    (hd : DecisionOk value epoch d) {offset : Nat}
    (hoffset : item.offsetsByRound.get d.metadata.round = some offset) :
    ∃ item', item.setRandomness d.metadata.round d = .ok item' ∧ ItemInv value epoch item' ∧
      bare item'.batch = bare item.batch ∧
      ∀ p ∈ item'.orderedBlocks, p.hasRandomness = true ∨
        (p ∈ item.orderedBlocks ∧ p.block.round ≠ d.metadata.round) := by
  have hround := (h.offsets _ _).mp hoffset
  obtain ⟨p, hp, hpround⟩ : ∃ p, item.orderedBlocks[offset]? = some p ∧
      p.block.round = d.metadata.round := by
    simpa [roundsOf, QueueItem.batch] using hround
  have hblock := h.blocks p (List.mem_of_getElem? hp)
  have hmeta := hblock.metadata_eq hd hpround
  have hnodup : (item.orderedBlocks.map (·.block.round)).Nodup :=
    List.Pairwise.imp (fun hlt => Nat.ne_of_lt hlt) h.rounds
  -- another block of the item has another round
  have hother : ∀ q ∈ item.orderedBlocks, q.block.round = d.metadata.round → q = p := by
    intro q hq hqround
    exact List.inj_on_of_nodup_map hnodup hq (List.mem_of_getElem? hp) (hqround.trans hpround.symm)
  cases hrand : p.randomness with
  | some existing =>
    obtain ⟨-, hvalue⟩ := hblock.2 existing hrand
    have hsame : existing.randomness = d.randomness := by
      rw [hvalue, hmeta, hd.1]
    refine ⟨item, ?_, h, rfl, ?_⟩
    · simp only [QueueItem.setRandomness, hoffset, hp, hrand, ensure, if_pos hsame]
      rfl
    · intro q hq
      by_cases hqround : q.block.round = d.metadata.round
      · left
        rw [hother q hq hqround]
        simp [PipelinedBlock.hasRandomness, hrand]
      · exact .inr ⟨hq, hqround⟩
  | none =>
    obtain ⟨pre, post, hsplit, hmodify⟩ := modify_split hp (·.setRandomness d)
    have hset : p.setRandomness d = { p with randomness := some d } := by
      simp [PipelinedBlock.setRandomness, hrand]
    have hcount : item.numUndecidedBlocks = (pre.filter fun p => !p.hasRandomness).length +
          ((post.filter fun p => !p.hasRandomness).length + 1) := by
      rw [h.undecided, hsplit]
      simp [PipelinedBlock.hasRandomness, hrand]
    have hpos : 0 < item.numUndecidedBlocks := by omega
    have hbatch : bare (item.decide offset d).batch = bare item.batch := by
      simp only [bare, QueueItem.batch, QueueItem.decide, hmodify, hset]
      rw [hsplit]
      simp
    have hrounds : roundsOf (item.decide offset d).batch = roundsOf item.batch := by
      rw [← roundsOf_bare, hbatch, roundsOf_bare]
    have hblocks : (item.decide offset d).orderedBlocks = pre ++
      { p with randomness := some d } :: post := by
      rw [← hset]
      exact hmodify
    have hmem : ∀ q ∈ (item.decide offset d).orderedBlocks,
        q = { p with randomness := some d } ∨ (q ∈ item.orderedBlocks ∧ q ∈ pre ++ post) := by
      intro q hq
      rw [hblocks] at hq
      rw [hsplit]
      simp only [List.mem_append, List.mem_cons] at hq ⊢
      tauto
    refine ⟨item.decide offset d, ?_, ⟨?_, ?_, ?_, ?_⟩, hbatch, ?_⟩
    · simp only [QueueItem.setRandomness, hoffset, hp, hrand, ensure, if_pos hpos]
      rfl
    · rw [hrounds]
      exact h.rounds
    · rw [hrounds]
      exact h.offsets
    · rw [hblocks]
      change item.numUndecidedBlocks - 1 = _
      rw [hcount]
      simp [PipelinedBlock.hasRandomness]
    · intro q hq
      rcases hmem q hq with rfl | ⟨hold, -⟩
      · refine ⟨hblock.1, ?_⟩
        intro r hr
        obtain rfl := Option.some.inj hr
        exact ⟨hmeta.symm, by rw [hd.1, ← hmeta]; rfl⟩
      · exact h.blocks q hold
    · intro q hq
      rcases hmem q hq with rfl | ⟨hold, hrest⟩
      · exact .inl rfl
      · right
        refine ⟨hold, ?_⟩
        intro hqround
        obtain rfl := hother q hold hqround
        have hblocks := hnodup.of_map
        rw [hsplit, List.nodup_middle] at hblocks
        exact (List.nodup_cons.mp hblocks).1 hrest

/-! ## The queue -/

/-- The batches that wait in a queue. -/
def BlockQueue.batches (q : BlockQueue) : List OrderedBlocks := q.queue.map fun e => e.2.batch

structure QueueInv (value : RandMetadata → List UInt8) (epoch : Nat) (q : BlockQueue) : Prop where
  keys : ∀ e ∈ q.queue, e.1 = e.2.firstRound
  items : ∀ e ∈ q.queue, ItemInv value epoch e.2
  order : (q.batches.flatMap roundsOf).Pairwise (· < ·)

theorem QueueItem.firstRound_mem (item : QueueItem) : item.firstRound ∈ roundsOf item.batch :=
  List.mem_of_head? item.head?_rounds

theorem QueueItem.lastRound_mem (item : QueueItem) : item.lastRound ∈ roundsOf item.batch :=
  List.mem_of_getLast? item.getLast?_rounds

variable {e : Nat × QueueItem} {q : BlockQueue} {round : Nat}

theorem mem_rounds (he : e ∈ q.queue)
    (hround : round ∈ roundsOf e.2.batch) : round ∈ q.batches.flatMap roundsOf :=
  List.mem_flatMap.mpr ⟨e.2.batch, List.mem_map_of_mem he, hround⟩

/-- A queue around one of its items: the rounds before and after it. -/
theorem QueueInv.around (h : QueueInv value epoch q) (he : e ∈ q.queue) :
    ∃ pre post, q.queue = pre ++ e :: post ∧
      (∀ e' ∈ pre, ∀ r' ∈ roundsOf e'.2.batch, ∀ r ∈ roundsOf e.2.batch, r' < r) ∧
      ∀ e' ∈ post, ∀ r' ∈ roundsOf e'.2.batch, ∀ r ∈ roundsOf e.2.batch, r < r' := by
  obtain ⟨pre, post, hsplit⟩ := List.append_of_mem he
  have horder := h.order
  unfold BlockQueue.batches at horder
  rw [hsplit] at horder
  simp only [List.map_append, List.map_cons, List.flatMap_append, List.flatMap_cons,
    List.pairwise_append] at horder
  obtain ⟨-, ⟨-, -, hpost⟩, hpre⟩ := horder
  refine ⟨pre, post, hsplit, ?_, ?_⟩
  · intro e' he' r' hr' r hr
    apply hpre r' (List.mem_flatMap.mpr ⟨_, List.mem_map_of_mem he', hr'⟩)
    exact List.mem_append_left _ hr
  · intro e' he' r' hr' r hr
    exact hpost r hr r' (List.mem_flatMap.mpr ⟨_, List.mem_map_of_mem he', hr'⟩)

/-- Items with the same key are the same. -/
theorem QueueInv.key_unique (h : QueueInv value epoch q) {e' : Nat × QueueItem}
    (he : e ∈ q.queue) (he' : e' ∈ q.queue) (hkey : e'.1 = e.1) : e' = e := by
  obtain ⟨pre, post, hsplit, hpre, hpost⟩ := h.around he
  have hfirst : e'.2.firstRound = e.2.firstRound := by
    rw [← h.keys e' he', ← h.keys e he, hkey]
  rw [hsplit, List.mem_append, List.mem_cons] at he'
  rcases he' with hmem | heq | hmem
  · have hlt := hpre e' hmem _ e'.2.firstRound_mem _ e.2.firstRound_mem
    omega
  · exact heq
  · have hlt := hpost e' hmem _ e'.2.firstRound_mem _ e.2.firstRound_mem
    omega

/-- A batch that comes after all rounds so far is queued behind the others. -/
theorem QueueInv.pushBack (h : QueueInv value epoch q) (hitem : ItemInv value epoch item)
    (hdequeued : ∀ round, q.highestDequeuedRound = some round → round < item.firstRound)
    (hlast : ∀ r ∈ q.batches.flatMap roundsOf, ∀ r' ∈ roundsOf item.batch, r < r') :
    ∃ q', q.pushBack item = .ok q' ∧ QueueInv value epoch q' ∧
      q'.queue = q.queue ++ [(item.firstRound, item)] ∧
      q'.highestDequeuedRound = q.highestDequeuedRound := by
  have hkeys : ∀ e ∈ q.queue, e.1 < item.firstRound := by
    intro e he
    rw [h.keys e he]
    exact hlast _ (mem_rounds he e.2.firstRound_mem) _ item.firstRound_mem
  have hfresh : ¬ q.highestDequeuedRound.any (item.firstRound ≤ ·) = true := by
    cases hround : q.highestDequeuedRound with
    | none => simp
    | some round =>
      have hlt := hdequeued round hround
      simp only [Option.any_some, decide_eq_true_eq]
      omega
  have hnew : item.firstRound ∉ q.queue.map (·.1) := by
    intro hmem
    obtain ⟨e, he, hkey⟩ := List.mem_map.mp hmem
    have hlt := hkeys e he
    omega
  have hinsert : q.queue.orderedInsert (fun a b => a.1 ≤ b.1) (item.firstRound, item) =
      q.queue ++ [(item.firstRound, item)] := by
    apply orderedInsert_last
    intro e he hle
    have hlt := hkeys e he
    omega
  refine ⟨{ q with queue := q.queue ++ [(item.firstRound, item)] }, ?_, ⟨?_, ?_, ?_⟩, rfl, rfl⟩
  · unfold BlockQueue.pushBack
    rw [if_neg hfresh]
    simp only [ensure, if_pos hnew, hinsert]
    rfl
  · apply forall_mem_snoc h.keys
    rfl
  · apply forall_mem_snoc h.items
    exact hitem
  · simp only [BlockQueue.batches, List.map_append, List.map_cons, List.map_nil,
      List.flatMap_append, List.flatMap_cons, List.flatMap_nil, List.append_nil,
      List.pairwise_append]
    exact ⟨h.order, hitem.rounds, hlast⟩

/-- The item that is found for a round. -/
theorem itemMut_some (h : q.itemMut round = some e) :
    e ∈ q.queue ∧ (e.2.offsetsByRound.get round).isSome = true := by
  unfold BlockQueue.itemMut at h
  obtain ⟨hlast, hsome⟩ := Option.filter_eq_some_iff.mp h
  exact ⟨List.mem_of_mem_filter (List.mem_of_getLast? hlast), hsome⟩

/-- The item of a round that waits is found. -/
theorem QueueInv.itemMut_of_mem (h : QueueInv value epoch q)
    (he : e ∈ q.queue) (hround : round ∈ roundsOf e.2.batch) :
    q.itemMut round = some e := by
  obtain ⟨pre, post, hsplit, hpre, hpost⟩ := h.around he
  have hpostNone : post.filter (·.1 ≤ round) = [] := by
    apply List.filter_eq_nil_iff.mpr
    intro e' he' hle
    have hkey := h.keys e' (by rw [hsplit]; simp [he'])
    have hlt := hpost e' he' _ e'.2.firstRound_mem round hround
    simp only [decide_eq_true_eq] at hle
    omega
  have hself : e.1 ≤ round := by
    rw [h.keys e he]
    -- the first round of the item is its smallest
    have hrounds := (h.items e he).rounds
    have hhead := e.2.head?_rounds
    cases hlist : roundsOf e.2.batch with
    | nil => simp [hlist] at hround
    | cons first rest =>
      rw [hlist] at hhead hround hrounds
      obtain rfl := Option.some.inj hhead
      rcases List.mem_cons.mp hround with rfl | hmem
      · exact Nat.le_refl _
      · exact Nat.le_of_lt (List.rel_of_pairwise_cons hrounds hmem)
  obtain ⟨offset, hoffset⟩ := List.mem_iff_getElem?.mp hround
  have hsome := ((h.items e he).offsets round offset).mpr hoffset
  unfold BlockQueue.itemMut
  rw [hsplit, List.filter_append, List.filter_cons_of_pos (by simpa using hself), hpostNone,
    List.getLast?_append_of_ne_nil _ (by simp)]
  simp [hsome]

theorem mem_replace {e' : Nat × QueueItem} (h : e' ∈ (q.replace e.1 item).queue) :
    e' = (e.1, item) ∨ (e' ∈ q.queue ∧ e'.1 ≠ e.1) := by
  obtain ⟨e₀, he₀, rfl⟩ := List.mem_map.mp h
  by_cases hkey : e₀.1 = e.1
  · exact .inl (if_pos hkey)
  · rw [if_neg hkey]
    exact .inr ⟨he₀, hkey⟩

theorem QueueInv.replace (h : QueueInv value epoch q)
    (he : e ∈ q.queue) (hitem : ItemInv value epoch item)
    (hbare : bare item.batch = bare e.2.batch) :
    QueueInv value epoch (q.replace e.1 item) ∧
      (q.replace e.1 item).batches.map bare = q.batches.map bare := by
  have hentry : ∀ e' ∈ q.queue, bare (if e'.1 = e.1 then (e.1, item) else e').2.batch =
      bare e'.2.batch := by
    intro e' he'
    by_cases hkey : e'.1 = e.1
    · rw [if_pos hkey, h.key_unique he he' hkey]
      exact hbare
    · rw [if_neg hkey]
  have hbatches : (q.replace e.1 item).batches.map bare = q.batches.map bare := by
    simp only [BlockQueue.batches, BlockQueue.replace, List.map_map]
    exact List.map_congr_left hentry
  have hrounds : ∀ l : List OrderedBlocks, l.flatMap roundsOf = (l.map bare).flatMap roundsOf := by
    intro l
    rw [List.flatMap_map]
    simp only [roundsOf_bare]
  refine ⟨⟨?_, ?_, ?_⟩, hbatches⟩
  · intro e' hmem
    rcases mem_replace hmem with rfl | ⟨he', -⟩
    · exact (h.keys e he).trans (QueueItem.firstRound_congr hbare).symm
    · exact h.keys e' he'
  · intro e' hmem
    rcases mem_replace hmem with rfl | ⟨he', -⟩
    · exact hitem
    · exact h.items e' he'
  · rw [hrounds, hbatches, ← hrounds]
    exact h.order

variable {m : RandManager S}

/-- The block of the round gets the randomness, if it waits. -/
theorem processRandomness_ok (h : QueueInv value epoch m.blockQueue)
    (hd : DecisionOk value epoch d) :
    ∃ q, m.processRandomness d = .ok { m with blockQueue := q } ∧ QueueInv value epoch q ∧
      q.batches.map bare = m.blockQueue.batches.map bare ∧
      q.highestDequeuedRound = m.blockQueue.highestDequeuedRound ∧
      ∀ e ∈ q.queue, ∀ p ∈ e.2.orderedBlocks, p.hasRandomness = true ∨
        (∃ e₀ ∈ m.blockQueue.queue, p ∈ e₀.2.orderedBlocks) ∧ p.block.round ≠ d.metadata.round := by
  cases hitem : m.blockQueue.itemMut d.metadata.round with
  | none =>
    refine ⟨m.blockQueue, ?_, h, rfl, rfl, ?_⟩
    · unfold RandManager.processRandomness
      rw [hitem]
    · intro e he p hp
      right
      refine ⟨⟨e, he, hp⟩, ?_⟩
      intro hround
      have hfound := h.itemMut_of_mem he (List.mem_map_of_mem hp)
      simp [hround, hitem] at hfound
  | some e =>
    obtain ⟨he, hsome⟩ := itemMut_some hitem
    obtain ⟨offset, hoffset⟩ := Option.isSome_iff_exists.mp hsome
    obtain ⟨item, hset, hinv, hbare, hblocks⟩ := (h.items e he).setRandomness hd hoffset
    obtain ⟨hqueue, hbatches⟩ := h.replace he hinv hbare
    refine ⟨m.blockQueue.replace e.1 item, ?_, hqueue, hbatches, rfl, ?_⟩
    · simp only [RandManager.processRandomness, hitem, hset]
      rfl
    · intro e' he' p hp
      rcases mem_replace he' with rfl | ⟨he₀, hkey⟩
      · exact (hblocks p hp).imp_right fun hold => ⟨⟨e, he, hold.1⟩, hold.2⟩
      · right
        refine ⟨⟨e', he₀, hp⟩, ?_⟩
        intro hround
        have hfound := h.itemMut_of_mem he₀ (List.mem_map_of_mem hp)
        rw [hround, hitem] at hfound
        exact hkey (congrArg Prod.fst (Option.some.inj hfound)).symm

/-- The loop that takes ready items takes the longest prefix of them. -/
theorem dequeueLoop_spec (queue : List (Nat × QueueItem)) (highest : Option Nat) :
    queue.map (fun e => e.2.batch) = (BlockQueue.dequeueLoop queue highest).1 ++
          (BlockQueue.dequeueLoop queue highest).2.batches ∧
      (BlockQueue.dequeueLoop queue highest).2.queue <:+ queue ∧
      (∀ b ∈ (BlockQueue.dequeueLoop queue highest).1,
        ∃ e ∈ queue, b = e.2.batch ∧ e.2.numUndecidedBlocks = 0) ∧
      (∀ e, (BlockQueue.dequeueLoop queue highest).2.queue.head? = some e →
        e.2.numUndecidedBlocks ≠ 0) ∧
      ∀ r, (BlockQueue.dequeueLoop queue highest).2.highestDequeuedRound = some r →
        highest = some r ∨ r ∈ (BlockQueue.dequeueLoop queue highest).1.flatMap roundsOf := by
  induction queue generalizing highest with
  | nil =>
    refine ⟨rfl, List.suffix_refl _, ?_, ?_, ?_⟩
    · intro b hb
      cases hb
    · intro e he
      cases he
    · intro r hr
      exact .inl hr
  | cons first rest ih =>
    obtain ⟨round, item⟩ := first
    by_cases hready : item.numUndecidedBlocks = 0
    · obtain ⟨hbatches, hsuffix, hdone, hhead, hhighest⟩ :=
        ih (some (highest.elim item.lastRound (max · item.lastRound)))
      simp only [BlockQueue.dequeueLoop, if_pos hready]
      refine ⟨?_, ?_, ?_, hhead, ?_⟩
      · rw [List.map_cons, hbatches]
        rfl
      · exact hsuffix.trans (List.suffix_cons _ _)
      · intro b hb
        rcases List.mem_cons.mp hb with rfl | hb
        · exact ⟨(round, item), List.mem_cons_self, rfl, hready⟩
        · obtain ⟨e, he, hbatch, hundecided⟩ := hdone b hb
          exact ⟨e, List.mem_cons_of_mem _ he, hbatch, hundecided⟩
      · intro r hr
        rw [List.flatMap_cons]
        rcases hhighest r hr with hsome | hmem
        · -- the larger of the round before and the last round of the item
          have hlast := item.lastRound_mem
          cases highest with
          | none =>
            obtain rfl : item.lastRound = r := Option.some.inj hsome
            exact .inr (List.mem_append_left _ hlast)
          | some old =>
            have hmax : max old item.lastRound = r := Option.some.inj hsome
            by_cases hle : old ≤ item.lastRound
            · rw [Nat.max_eq_right hle] at hmax
              rw [← hmax]
              exact .inr (List.mem_append_left _ hlast)
            · rw [Nat.max_eq_left (by omega)] at hmax
              exact .inl (by rw [hmax])
        · exact .inr (List.mem_append_right _ hmem)
    · simp only [BlockQueue.dequeueLoop, if_neg hready]
      refine ⟨rfl, List.suffix_refl _, ?_, ?_, ?_⟩
      · intro b hb
        cases hb
      · intro e he
        obtain rfl := Option.some.inj he
        exact hready
      · intro r hr
        exact .inl hr

/-! ## The stage -/

variable [TShare S]

/-- The stage, with what it has received and sent since the last reset, and the received rounds for
which a decision has been delivered. -/
structure Stage (S : Type) where
  manager : RandManager S
  received : List OrderedBlocks := []
  outgoing : List OrderedBlocks := []
  delivered : List Nat := []
  panic : Option String := none

/-- What comes next: ordered blocks arrive in the channel, or an event is handled. -/
inductive Input (S : Type) where
  | ordered (batch : OrderedBlocks)
  | event (event : Event S)

namespace Stage

def receivedRounds (st : Stage S) : List Nat := st.received.flatMap roundsOf

/-- The batch that the manager takes next from the channel. -/
def nextBatch (m : RandManager S) : Option OrderedBlocks :=
  if m.randStore.author ∈ m.certifiedData then m.incoming.head? else none

/-- What an event means for the record of the stage. -/
def note (st : Stage S) : Event S → Stage S
  | .incomingBlocks =>
    match nextBatch st.manager with
    | some batch => { st with received := st.received ++ [batch] }
    | none => st
  | .reset _ => { st with received := [], outgoing := [], delivered := [] }
  | .decision =>
    match st.manager.decisions with
    | d :: _ =>
      if d.metadata.round ∈ st.receivedRounds then
        { st with delivered := d.metadata.round :: st.delivered }
      else st
    | [] => st
  | _ => st

/-- The panic that an event causes in the main loop or beside it. -/
def panicOf (m : RandManager S) (event : Event S) : Option String :=
  match m.turn event with
  | .error (.panic message) => some message
  | .error (.error message) => some message
  | .ok _ => m.taskPanic event

def step (st : Stage S) : Input S → Unit × Stage S
  | .ordered batch =>
    ((), { st with manager := { st.manager with incoming := st.manager.incoming ++ [batch] } })
  | .event event =>
    if st.manager.stop then ((), st)
    else
      let noted := st.note event
      ((), { noted with
        manager := (st.manager.handle event).2
        outgoing := noted.outgoing ++ (st.manager.handle event).1
        panic := st.panic <|> panicOf st.manager event })

/-- A fresh stage of an epoch. -/
def start (bases : Bases) (epoch highestKnownRound : Nat) (certifiedData : List Author) :
    Stage S where
  manager :=
    { randStore := (RandStore.new epoch bases.slow.author bases.slow
        bases.fast).updateHighestKnownRound highestKnownRound
      certifiedData }

/-- A round after which shares are accepted without an overflow. -/
def RoundOk (round : Nat) : Prop := round + futureRoundsToAccept ≤ u64Max

/-- The batches that the manager takes are not empty, of its epoch and with increasing rounds, and a
randomness that a block already has is that of its round.  A task that a reset has aborted does not
look up its round any more. -/
def Admissible (value : RandMetadata → List UInt8) (st : Stage S) : Input S → Prop
  | .event .incomingBlocks => ∀ batch, nextBatch st.manager = some batch →
    batch.orderedBlocks ≠ [] ∧ ((st.received ++ [batch]).flatMap roundsOf).Pairwise (· < ·) ∧
      ∀ p ∈ batch.orderedBlocks, BlockOk value st.manager.randStore.epoch p ∧ RoundOk p.block.round
  | .event (.reset (.targetRound round)) => RoundOk round
  | .event (.shareTimer round) => round ∈ st.receivedRounds
  | _ => True

/-- Batches leave in the order in which they came, with the randomness of their rounds, all of them
once every round has been decided, and nothing panics. -/
structure Transparent (st : Stage S) : Prop where
  panic : st.panic = none
  order : st.outgoing.map bare <+: st.received.map bare
  randomness : ∀ batch ∈ st.outgoing, ∀ p ∈ batch.orderedBlocks,
    ∃ r, p.randomness = some r ∧ r.metadata = p.metadata
  complete : (∀ round ∈ st.receivedRounds, round ∈ st.delivered) →
    st.outgoing.map bare = st.received.map bare

/-- The invariant of the stage while an event is handled. -/
structure Mid (bases : Bases) (value : RandMetadata → List UInt8) (st : Stage S) : Prop where
  store : StoreOk bases st.manager.randStore
  decisions : ∀ d ∈ st.manager.decisions, DecisionOk value st.manager.randStore.epoch d
  queue : QueueInv value st.manager.randStore.epoch st.manager.blockQueue
  split : st.received.map bare = st.outgoing.map bare ++ st.manager.blockQueue.batches.map bare
  increasing : st.receivedRounds.Pairwise (· < ·)
  dequeued : ∀ r, st.manager.blockQueue.highestDequeuedRound = some r → r ∈ st.receivedRounds
  known : ∀ r ∈ st.receivedRounds, RandMap.Known st.manager.randStore.randMap r
  delivered : ∀ r ∈ st.delivered, r ∈ st.receivedRounds
  decided : ∀ e ∈ st.manager.blockQueue.queue, ∀ p ∈ e.2.orderedBlocks,
    p.block.round ∈ st.delivered → p.hasRandomness = true
  outgoing : ∀ batch ∈ st.outgoing, ∀ p ∈ batch.orderedBlocks,
    ∃ r, p.randomness = some r ∧ r.metadata = p.metadata
  panic : st.panic = none

/-- The invariant of the stage between events: the first batch of the queue is not ready. -/
structure Ok (bases : Bases) (value : RandMetadata → List UInt8) (st : Stage S) : Prop
    extends Mid bases value st where
  head : ∀ e, st.manager.blockQueue.queue.head? = some e → e.2.numUndecidedBlocks ≠ 0

variable {bases : Bases} {value : RandMetadata → List UInt8} {st : Stage S}

/-- An item all of whose blocks have their randomness is ready. -/
theorem undecided_eq_zero {epoch : Nat} (h : ItemInv value epoch item)
    (hall : ∀ p ∈ item.orderedBlocks, p.hasRandomness = true) : item.numUndecidedBlocks = 0 := by
  rw [h.undecided, List.length_eq_zero_iff, List.filter_eq_nil_iff]
  intro p hp
  simp [hall p hp]

/-- The rounds that wait are rounds that have been received. -/
theorem Mid.round_mem (h : Mid bases value st) {r : Nat}
    (hr : r ∈ st.manager.blockQueue.batches.flatMap roundsOf) : r ∈ st.receivedRounds := by
  have hreceived : st.receivedRounds = (st.received.map bare).flatMap roundsOf := by
    simp only [receivedRounds, List.flatMap_map, roundsOf_bare]
  rw [hreceived, h.split, List.flatMap_append]
  apply List.mem_append_right
  simpa only [List.flatMap_map, roundsOf_bare] using hr

theorem Ok.transparent (h : Ok bases value st) : st.Transparent := by
  refine ⟨h.panic, ?_, h.outgoing, ?_⟩
  · rw [h.split]
    exact List.prefix_append _ _
  · intro hall
    -- the first item of the queue would be ready, so that there is none
    have hqueue : st.manager.blockQueue.queue = [] := by
      cases hq : st.manager.blockQueue.queue with
      | nil => rfl
      | cons e rest =>
        have hmem : e ∈ st.manager.blockQueue.queue := by simp [hq]
        refine absurd (undecided_eq_zero (h.queue.items e hmem) ?_) (h.head e (by simp [hq]))
        intro p hp
        apply h.decided e hmem p hp
        apply hall
        exact h.toMid.round_mem (mem_rounds hmem (List.mem_map_of_mem hp))
    rw [h.split]
    simp [BlockQueue.batches, hqueue]

/-- After an event the ready batches leave. -/
theorem Mid.dequeue (h : Mid bases value st) : Ok bases value { st with
      manager := { st.manager with blockQueue := st.manager.blockQueue.dequeueRandReadyPrefix.2 }
      outgoing := st.outgoing ++ st.manager.blockQueue.dequeueRandReadyPrefix.1 } := by
  obtain ⟨hbatches, hsuffix, hdone, hhead, hhighest⟩ := dequeueLoop_spec
    st.manager.blockQueue.queue st.manager.blockQueue.highestDequeuedRound
  change st.manager.blockQueue.batches = st.manager.blockQueue.dequeueRandReadyPrefix.1 ++
    st.manager.blockQueue.dequeueRandReadyPrefix.2.batches at hbatches
  refine ⟨⟨h.store, h.decisions, ⟨?_, ?_, ?_⟩, ?_, h.increasing, ?_, h.known, h.delivered, ?_, ?_,
    h.panic⟩, hhead⟩
  · exact fun e he => h.queue.keys e (hsuffix.subset he)
  · exact fun e he => h.queue.items e (hsuffix.subset he)
  · have horder := h.queue.order
    rw [hbatches, List.flatMap_append, List.pairwise_append] at horder
    exact horder.2.1
  · have hsplit := h.split
    rw [hbatches, List.map_append, ← List.append_assoc, ← List.map_append] at hsplit
    exact hsplit
  · intro r hr
    rcases hhighest r hr with hold | hnew
    · exact h.dequeued r hold
    · apply h.round_mem
      rw [hbatches, List.flatMap_append]
      exact List.mem_append_left _ hnew
  · exact fun e he => h.decided e (hsuffix.subset he)
  · intro batch hbatch p hp
    rcases List.mem_append.mp hbatch with hold | hnew
    · exact h.outgoing batch hold p hp
    · -- a ready item has no block without randomness
      obtain ⟨e, he, rfl, hundecided⟩ := hdone batch hnew
      have hinv := h.queue.items e he
      rw [hinv.undecided, List.length_eq_zero_iff, List.filter_eq_nil_iff] at hundecided
      have hsome : p.randomness ≠ none := by
        simpa [PipelinedBlock.hasRandomness] using hundecided p hp
      obtain ⟨r, hr⟩ := Option.ne_none_iff_exists'.mp hsome
      exact ⟨r, hr, ((hinv.blocks p hp).2 r hr).1⟩

theorem Mid.withManager (h : Mid bases value st) (hok : StoreOk bases m.randStore)
    (hepoch : m.randStore.epoch = st.manager.randStore.epoch)
    (hqueue : m.blockQueue = st.manager.blockQueue)
    (hknown : ∀ r, RandMap.Known st.manager.randStore.randMap r →
      RandMap.Known m.randStore.randMap r)
    (hdecisions : ∀ d ∈ m.decisions, DecisionOk value st.manager.randStore.epoch d) :
    Mid bases value { st with manager := m } := by
  cases m
  subst hqueue
  refine { h with
    store := hok, decisions := ?_, queue := ?_, known := fun r hr => hknown r (h.known r hr) }
  · rw [hepoch]
    exact hdecisions
  · rw [hepoch]
    exact h.queue

theorem Mid.withStore (h : Mid bases value st) {store : RandStore S} (hok : StoreOk bases store)
    (hgrows : StoreGrows st.manager.randStore store) :
    Mid bases value { st with manager := { st.manager with randStore := store } } :=
  h.withManager hok hgrows.epoch rfl hgrows.known h.decisions

theorem processMetadata_all {store : RandStore S} (h : StoreOk bases store)
    (hs : Schemes S bases value) {blocks : List PipelinedBlock}
    (hblocks : ∀ p ∈ blocks, p.block.epoch = store.epoch ∧ RoundOk p.block.round) :
    ∃ store', blocks.foldlM
      (fun store block => processIncomingMetadata store block.metadata) store =
        .ok store' ∧ StoreOk bases store' ∧ StoreGrows store store' ∧
      ∀ p ∈ blocks, RandMap.Known store'.randMap p.block.round := by
  induction blocks generalizing store with
  | nil => exact ⟨store, rfl, h, StoreGrows.refl store, List.forall_mem_nil _⟩
  | cons p rest ih =>
    obtain ⟨store₁, hrun, hok, hgrows, hknown⟩ :=
      (processIncomingMetadata_ok p.metadata h hs (hblocks p List.mem_cons_self).1
        (hblocks p List.mem_cons_self).2).exists_ok
    obtain ⟨store₂, hrun', hok', hgrows', hknown'⟩ := ih hok fun q hq => by
      rw [hgrows.epoch]
      exact hblocks q (List.mem_cons_of_mem _ hq)
    refine ⟨store₂, ?_, hok', hgrows.trans hgrows',
      List.forall_mem_cons.mpr ⟨hgrows'.known _ hknown, hknown'⟩⟩
    rw [List.foldlM_cons, hrun]
    exact hrun'

omit [TShare S] in
theorem nextBatch_some {batch : OrderedBlocks} (h : nextBatch m = some batch) :
    m.randStore.author ∈ m.certifiedData ∧ ∃ rest, m.incoming = batch :: rest := by
  unfold nextBatch at h
  split at h
  · refine ⟨by assumption, ?_⟩
    cases hincoming : m.incoming with
    | nil => simp [hincoming] at h
    | cons first rest =>
      rw [hincoming] at h
      obtain rfl := Option.some.inj h
      exact ⟨rest, rfl⟩
  · cases h

/-- A batch that may be taken goes to the end of the queue. -/
theorem Mid.processIncomingBlocks (h : Mid bases value st) (hs : Schemes S bases value)
    {batch : OrderedBlocks} (hne : batch.orderedBlocks ≠ [])
    (hincreasing : ((st.received ++ [batch]).flatMap roundsOf).Pairwise (· < ·))
    (hblocks : ∀ p ∈ batch.orderedBlocks,
      BlockOk value st.manager.randStore.epoch p ∧ RoundOk p.block.round) :
    ∃ m, st.manager.processIncomingBlocks batch = .ok m ∧
      Mid bases value { st with manager := m, received := st.received ++ [batch] } := by
  have hsplit : (st.received ++ [batch]).flatMap roundsOf =
    st.receivedRounds ++ roundsOf batch := by
    simp [receivedRounds]
  rw [hsplit, List.pairwise_append] at hincreasing
  obtain ⟨-, hrounds, hlater⟩ := hincreasing
  obtain ⟨store, hstore, hok, hgrows, hknown⟩ :=
    processMetadata_all h.store hs fun p hp => (hblocks p hp).imp_left And.left
  obtain ⟨item, hitem, hinv, hbatch⟩ := QueueItem.new_ok hne hrounds fun p hp => (hblocks p hp).1
  obtain ⟨queue, hqueue, hqinv, hpush, hhighest⟩ := h.queue.pushBack hinv
    (fun round hround => hlater _ (h.dequeued round hround) _ (hbatch ▸ item.firstRound_mem))
    (fun r hr r' hr' => hlater _ (h.round_mem hr) _ (hbatch ▸ hr'))
  have hmem : ∀ r, r ∈ (st.received ++ [batch]).flatMap roundsOf ↔
      r ∈ st.receivedRounds ∨ r ∈ roundsOf batch := by
    intro r
    rw [hsplit, List.mem_append]
  have hstored := h.withStore hok hgrows
  refine ⟨{ st.manager with randStore := store, blockQueue := queue }, ?_, hok,
    hstored.decisions, ?_, ?_, ?_, ?_, ?_, ?_, ?_, h.outgoing, h.panic⟩
  · unfold RandManager.processIncomingBlocks
    rw [hstore, hitem]
    simp only [bind, Except.bind, hqueue]
    rfl
  · change QueueInv value store.epoch queue
    rw [hgrows.epoch]
    exact hqinv
  · change (st.received ++ [batch]).map bare = st.outgoing.map bare ++ queue.batches.map bare
    simp only [BlockQueue.batches, hpush, List.map_append, List.map_cons, List.map_nil, hbatch]
    rw [h.split, List.append_assoc]
    rfl
  · change ((st.received ++ [batch]).flatMap roundsOf).Pairwise (· < ·)
    rw [hsplit, List.pairwise_append]
    exact ⟨h.increasing, hrounds, hlater⟩
  · intro r hr
    exact (hmem r).mpr (.inl (h.dequeued r (hhighest ▸ hr)))
  · intro r hr
    rcases (hmem r).mp hr with hold | hnew
    · exact hstored.known r hold
    · obtain ⟨p, hp, rfl⟩ := List.mem_map.mp hnew
      exact hknown p hp
  · exact fun r hr => (hmem r).mpr (.inl (h.delivered r hr))
  · intro e he p hp hround
    change e ∈ queue.queue at he
    rw [hpush] at he
    rcases List.mem_append.mp he with hold | hnew
    · exact h.decided e hold p hp hround
    · -- the rounds of a new batch are above those that have been delivered
      obtain rfl := List.mem_singleton.mp hnew
      have hp' : p ∈ item.batch.orderedBlocks := hp
      rw [hbatch] at hp'
      exact absurd (hlater _ (h.delivered _ hround) _ (List.mem_map_of_mem hp')) (Nat.lt_irrefl _)

theorem Mid.withIncoming (h : Mid bases value st) (incoming : List OrderedBlocks) :
    Mid bases value { st with manager := { st.manager with incoming } } :=
  h.withManager h.store rfl rfl (fun _ hr => hr) h.decisions

/-- What an event has to do for the stage to stay sound. -/
def Handled (bases : Bases) (value : RandMetadata → List UInt8) (st : Stage S) (event : Event S) :
    Prop :=
  ∃ m, st.manager.turn event = .ok m ∧ st.manager.taskPanic event = none ∧
    Mid bases value { st.note event with manager := m }

theorem Mid.handled_incomingBlocks (h : Mid bases value st) (hs : Schemes S bases value)
    (hadmissible : Admissible value st (.event .incomingBlocks)) :
    Handled bases value st .incomingBlocks := by
  cases hnext : nextBatch st.manager with
  | none =>
    refine ⟨st.manager, ?_, rfl, ?_⟩
    · unfold nextBatch at hnext
      unfold RandManager.turn
      cases hincoming : st.manager.incoming with
      | nil => rfl
      | cons batch rest =>
        rw [hincoming] at hnext
        split at hnext
        · cases hnext
        · rename_i hcert
          exact if_neg hcert
    · simpa only [note, hnext] using h
  | some batch =>
    obtain ⟨hne, hincreasing, hblocks⟩ := hadmissible batch hnext
    obtain ⟨hcert, rest, hincoming⟩ := nextBatch_some hnext
    obtain ⟨m, hrun, hmid⟩ := (h.withIncoming rest).processIncomingBlocks hs hne hincreasing hblocks
    refine ⟨m, ?_, rfl, ?_⟩
    · unfold RandManager.turn
      rw [hincoming]
      exact (if_pos hcert).trans hrun
    · simpa only [note, hnext] using hmid

theorem Mid.of_empty (hok : StoreOk bases st.manager.randStore)
    (hdecisions : ∀ d ∈ st.manager.decisions, DecisionOk value st.manager.randStore.epoch d)
    (hqueue : st.manager.blockQueue = {}) (hpanic : st.panic = none)
    (hempty : (st.received, st.outgoing, st.delivered) = ([], [], [])) : Mid bases value st := by
  obtain ⟨hreceived, houtgoing, hdelivered⟩ : _ ∧ _ ∧ _ := by
    simpa only [Prod.mk.injEq] using hempty
  refine ⟨hok, hdecisions, ?_, ?_, ?_, ?_, ?_, ?_, ?_, ?_, hpanic⟩
  · rw [hqueue]
    exact ⟨by simp, by simp, List.Pairwise.nil⟩
  all_goals simp [receivedRounds, hqueue, hreceived, houtgoing, hdelivered, BlockQueue.batches]

section

variable (h : Mid bases value st)

include h

/-- A reset forgets what has been received. -/
theorem Mid.handled_reset {signal : ResetSignal}
    (hadmissible : Admissible value st (.event (.reset signal))) :
    Handled bases value st (.reset signal) := by
  have hstore : StoreOk bases (st.manager.processReset signal).randStore := by
    cases signal with
    | stop => exact resetToRound_ok h.store (by decide)
    | targetRound round => exact resetToRound_ok h.store hadmissible
  exact ⟨st.manager.processReset signal, rfl, rfl, .of_empty hstore h.decisions rfl h.panic rfl⟩

/-- A decision reaches the block of its round. -/
theorem Mid.processRandomness
    (hd : DecisionOk value st.manager.randStore.epoch d) {delivered : List Nat}
    (hdelivered : ∀ r ∈ delivered, r ∈ st.receivedRounds)
    (hnew : ∀ r ∈ delivered, r = d.metadata.round ∨ r ∈ st.delivered) :
    ∃ m, st.manager.processRandomness d = .ok m ∧
      Mid bases value { st with manager := m, delivered } := by
  obtain ⟨q, hrun, hqueue, hbatches, hhighest, hblocks⟩ :=
    processRandomness_ok (m := st.manager) h.queue hd
  refine ⟨_, hrun, h.store, h.decisions, hqueue, ?_, h.increasing, ?_, h.known, hdelivered, ?_,
    h.outgoing, h.panic⟩
  · change st.received.map bare = st.outgoing.map bare ++ q.batches.map bare
    rw [hbatches]
    exact h.split
  · exact fun r hr => h.dequeued r (hhighest ▸ hr)
  · intro e he p hp hround
    rcases hblocks e he p hp with hhas | ⟨⟨e₀, he₀, hp₀⟩, hother⟩
    · exact hhas
    · rcases hnew _ hround with heq | hold
      · exact absurd heq hother
      · exact h.decided e₀ he₀ p hp₀ hold

theorem Mid.handled_decision : Handled bases value st .decision := by
  cases hdecisions : st.manager.decisions with
  | nil =>
    refine ⟨st.manager, ?_, rfl, ?_⟩
    · simp only [RandManager.turn, hdecisions]
    · simpa only [note, hdecisions] using h
  | cons d rest =>
    have hd : DecisionOk value st.manager.randStore.epoch d :=
      h.decisions d (by rw [hdecisions]; exact List.mem_cons_self)
    have hrest : Mid bases value { st with manager := { st.manager with decisions := rest } } := by
      refine h.withManager h.store rfl rfl (fun _ hr => hr) fun d' hd' => h.decisions d' ?_
      rw [hdecisions]
      exact List.mem_cons_of_mem _ hd'
    by_cases hround : d.metadata.round ∈ st.receivedRounds
    · have hdelivered : ∀ r ∈ d.metadata.round :: st.delivered, r ∈ st.receivedRounds :=
        List.forall_mem_cons.mpr ⟨hround, h.delivered⟩
      obtain ⟨m, hrun, hmid⟩ :=
        hrest.processRandomness hd hdelivered (fun r hr => List.mem_cons.mp hr)
      refine ⟨m, ?_, rfl, ?_⟩
      · simp only [RandManager.turn, hdecisions]
        exact hrun
      · simpa only [note, hdecisions, if_pos hround] using hmid
    · obtain ⟨m, hrun, hmid⟩ := hrest.processRandomness hd h.delivered (fun r hr => .inr hr)
      refine ⟨m, ?_, rfl, ?_⟩
      · simp only [RandManager.turn, hdecisions]
        exact hrun
      · simpa only [note, hdecisions, if_neg hround] using hmid

theorem Mid.handled_message (hs : Schemes S bases value)
    (message : RandMessage S) : Handled bases value st (.message message) := by
  cases hverify : verifyMessage st.manager.randStore message with
  | error e =>
    refine ⟨st.manager, ?_, rfl, h⟩
    simp only [RandManager.turn, hverify]
  | ok u =>
    obtain ⟨store, hrun, hok, hgrows⟩ := (processMessage_ok h.store hs hverify).exists_ok
    refine ⟨{ st.manager with randStore := store }, ?_, rfl, h.withStore hok hgrows⟩
    simp only [RandManager.turn, hverify, hrun]
    rfl

theorem Mid.handled_shareResponse (hs : Schemes S bases value)
    (peer : Author) (metadata : RandMetadata) (share : RandShare S) :
    Handled bases value st (.shareResponse peer metadata share) := by
  have hadd := addShareResponse_noPanic h.store hs peer metadata share
  cases hrun : addShareResponse st.manager.randStore peer metadata share with
  | ok store =>
    rw [hrun] at hadd
    refine ⟨{ st.manager with randStore := store }, ?_, ?_, h.withStore hadd.1 hadd.2⟩
    · simp only [RandManager.turn, hrun]
    · simp only [RandManager.taskPanic, hrun]
  | error fault =>
    rw [hrun] at hadd
    obtain ⟨message, rfl⟩ := hadd
    refine ⟨st.manager, ?_, ?_, h⟩
    · simp only [RandManager.turn, hrun]
    · simp only [RandManager.taskPanic, hrun]

theorem Mid.handled_certifiedAugData (author : Author) (apk : Apk)
    (fastApk : Option Apk) : Handled bases value st (.certifiedAugData author apk fastApk) := by
  obtain ⟨hok, hepoch, hmap, hdecisions, hqueue⟩ :=
    addCertifiedData_ok (m := st.manager) h.store author apk fastApk
  exact ⟨st.manager.addCertifiedData author apk fastApk, rfl, rfl,
    h.withManager hok hepoch hqueue (fun r hr => hmap ▸ hr) (hdecisions ▸ h.decisions)⟩

theorem Mid.handled_aggregated (hs : Schemes S bases value) (index : Nat) :
    Handled bases value st (.aggregated index) := by
  obtain ⟨hok, hgrows, hdecisions, hqueue⟩ := finishAggregation_ok h.store hs h.decisions index
  exact ⟨st.manager.finishAggregation index, rfl, rfl,
    h.withManager hok hgrows.epoch hqueue hgrows.known hdecisions⟩

/-- The task of a block that has been received finds the metadata of its round. -/
theorem Mid.handled_shareTimer {round : Nat} (hround : round ∈ st.receivedRounds) :
    Handled bases value st (.shareTimer round) := by
  refine ⟨st.manager, rfl, ?_, h⟩
  obtain ⟨item, hitem, hmetadata⟩ := h.known round hround
  simp only [RandManager.taskPanic, RandStore.getAllSharesAuthors]
  rw [hitem]
  cases item with
  | pendingMetadata aggr => exact hmetadata.elim
  | pendingDecision metadata aggr | decided selfShare => rfl

theorem Mid.handled (hs : Schemes S bases value) {event : Event S}
    (hadmissible : Admissible value st (.event event)) : Handled bases value st event := by
  cases event with
  | incomingBlocks => exact h.handled_incomingBlocks hs hadmissible
  | reset signal => exact h.handled_reset hadmissible
  | decision => exact h.handled_decision
  | message message => exact h.handled_message hs message
  | certifiedAugData author apk fastApk => exact h.handled_certifiedAugData author apk fastApk
  | shareResponse peer metadata share => exact h.handled_shareResponse hs peer metadata share
  | aggregated index => exact h.handled_aggregated hs index
  | shareTimer round => exact h.handled_shareTimer hadmissible

end

/-! ## Runs of the stage -/

theorem Ok.step (h : Ok bases value st) (hs : Schemes S bases value) {input : Input S}
    (hadmissible : Admissible value st input) : Ok bases value (st.step input).2 := by
  cases input with
  | ordered batch => exact ⟨h.toMid.withIncoming _, h.head⟩
  | event event =>
    by_cases hstop : st.manager.stop = true
    · simpa only [Stage.step, if_pos hstop] using h
    · obtain ⟨m, hturn, htask, hmid⟩ := h.toMid.handled hs hadmissible
      have hhandle : st.manager.handle event = (m.blockQueue.dequeueRandReadyPrefix.1,
          { m with blockQueue := m.blockQueue.dequeueRandReadyPrefix.2 }) := by
        simp only [RandManager.handle, if_neg hstop, hturn]
      have hpanic : (st.panic <|> panicOf st.manager event) = (st.note event).panic := by
        have hnoted : (st.note event).panic = none := hmid.panic
        simp only [panicOf, hturn, htask, h.panic, hnoted]
        rfl
      simp only [Stage.step, if_neg hstop, hhandle, hpanic]
      exact hmid.dequeue

theorem ok_start (bases : Bases) (value : RandMetadata → List UInt8) (epoch : Nat)
    {highestKnownRound : Nat} (hhighest : RoundOk highestKnownRound) (certifiedData : List Author) :
    Ok bases value (start bases epoch highestKnownRound certifiedData : Stage S) := by
  have hempty : ∀ (base : RandConfig) (path : PathType), MapOk (S := S) base path epoch [] := by
    intro base path round item hget
    cases hget
  refine ⟨.of_empty ⟨?_, ⟨rfl, rfl, rfl⟩, hempty _ _, ?_, ?_, ?_⟩ ?_ rfl rfl rfl, ?_⟩
  · intro path base hbase
    cases path with
    | slow =>
      obtain rfl := Option.some.inj hbase
      rfl
    | fast => exact (bases.author base hbase).symm
  · cases hfast : bases.fast with
    | none =>
      refine .inl ⟨hfast, hfast, ?_⟩
      simp [start, RandStore.new, RandStore.updateHighestKnownRound, hfast]
    | some base =>
      refine .inr ⟨base, base, [], hfast, hfast, ?_, ⟨rfl, rfl, rfl⟩, hempty _ _⟩
      simp [start, RandStore.new, RandStore.updateHighestKnownRound, hfast]
  · exact List.forall_mem_nil _
  · exact highest_max (a := 0) (by decide) hhighest
  · exact List.forall_mem_nil _
  · exact fun e he => absurd he (Option.some_ne_none e).symm

end Stage

/-! ## A block that brings another randomness -/

namespace PresetRandomness

instance (value : RandMetadata → List UInt8) (epoch : Nat) (p : PipelinedBlock) :
    Decidable (BlockOk value epoch p) :=
  inferInstanceAs (Decidable (p.block.epoch = epoch ∧ ∀ r ∈ p.randomness,
    r.metadata = p.metadata ∧ r.randomness = value p.metadata))

instance (round : Nat) : Decidable (Stage.RoundOk round) :=
  inferInstanceAs (Decidable (round + futureRoundsToAccept ≤ u64Max))

instance (value : RandMetadata → List UInt8) (st : Stage S) :
    (input : Input S) → Decidable (Stage.Admissible value st input)
  | .event .incomingBlocks =>
    inferInstanceAs (Decidable (∀ batch ∈ Stage.nextBatch st.manager,
      batch.orderedBlocks ≠ [] ∧ ((st.received ++ [batch]).flatMap roundsOf).Pairwise (· < ·) ∧
        ∀ p ∈ batch.orderedBlocks,
          BlockOk value st.manager.randStore.epoch p ∧ Stage.RoundOk p.block.round))
  | .event (.reset (.targetRound round)) => inferInstanceAs (Decidable (Stage.RoundOk round))
  | .event (.shareTimer round) => inferInstanceAs (Decidable (round ∈ st.receivedRounds))
  | .ordered _ => isTrue trivial
  | .event (.reset .stop) => isTrue trivial
  | .event .decision => isTrue trivial
  | .event (.message _) => isTrue trivial
  | .event (.certifiedAugData ..) => isTrue trivial
  | .event (.shareResponse ..) => isTrue trivial
  | .event (.aggregated _) => isTrue trivial

def roundBytes (metadata : RandMetadata) : List UInt8 := [UInt8.ofNat metadata.round]

/-- Shares of the one validator; the randomness is the round. -/
local instance unitShares : TShare Unit where
  verify cfg _ author _ := ensure ((cfg.weights.get author).isSome = true) "unknown validator"
  create _ _ := ()
  derive _ _ metadata := .ok (roundBytes metadata)

def config : RandConfig := { author := 0, epoch := 1, weights := [(0, 1)], threshold := 1 }

def bases : Bases := ⟨config, none, fun _ h => nomatch h⟩

theorem schemes : Schemes Unit bases roundBytes := by
  constructor
  intro path base hbase
  cases path with
  | fast => cases hbase
  | slow =>
    obtain rfl := Option.some.inj hbase
    refine ⟨rfl, ?_, fun _ _ _ _ _ _ hbytes => (Except.ok.inj hbytes).symm⟩
    intro cfg hcfg share hverify
    have hsome := ensure_ok_iff.mp hverify
    rwa [hcfg.weights] at hsome

def info (round : Nat) : BlockInfo :=
  { BlockInfo.empty with epoch := 1, round, id := round }

def proof : LedgerInfoWithSignatures := ⟨.new (info 2) 0, ⟨[], none⟩⟩

def blockAt (round : Nat) (randomness : Option Randomness) : PipelinedBlock where
  block := ⟨⟨1, round, 0, ⟨⟨info (round - 1), info (round - 2)⟩, proof⟩, .nilBlock []⟩, none, none⟩
  stateComputeResult := ⟨0, none, 0, none, []⟩
  randomness := randomness

/-- Two blocks of which the first has already some randomness. -/
def batch (preset : Option Randomness) : OrderedBlocks :=
    ⟨[blockAt 1 preset, blockAt 2 none], proof⟩

def initial : Stage Unit := Stage.start bases 1 0 [0]

/-- The randomness of the first block is sent before a reset and arrives after it. -/
def acrossReset : List (Input Unit) :=
  [.ordered (batch none), .event .incomingBlocks, .event (.aggregated 0),
    .event (.reset (.targetRound 1)), .ordered (batch none), .event .incomingBlocks,
    .event .decision, .event (.aggregated 0), .event (.aggregated 0), .event (.aggregated 0),
    .event .decision, .event .decision, .event .decision]

end PresetRandomness

end RandGen

end Liquent
