import Liquent.Misc.Lists
import Liquent.BlockStorage.ForwardEpochSync

/-!
# Forward epoch sync delivers the epoch

A client that asks for page after page, each time from the last record it has received, receives the
entries of the server's index after its first anchor, each once and in order, with the ledger infos
that they commit, in pages that pass its checks; then the server says that nothing is left.

The index is described by what building it guarantees (`ForwardEpochSyncIndex.Sound`); a position
in the index is what a cursor of the client stands for.
-/

namespace Liquent

open Misc

/-! ## The checks on a page -/

variable {records : List ForwardEpochSyncRecord} {anchor : Nat} {parent : HashValue}

section Checks

variable [Crypto]

/-- The checks of a page that do not depend on its links. -/
structure ForwardEpochSyncBatch.Authentic (batch : ForwardEpochSyncBatch) (v : ValidatorVerifier)
    (now : Nat) : Prop where
  records : ∀ r ∈ batch.records, r.block.validateSignature v = .ok () ∧
    r.block.verifyWellFormed now = .ok () ∧ r.quorumCert.verify v = .ok ()
  ledgerInfos : ∀ li ∈ batch.ledgerInfos, li.verifySignatures v = .ok ()

/-- The links of a page: parents, numbers and certificates follow each other from an anchor to the
number `reached`. -/
def RecordsLinked (epoch : Nat) : HashValue → Nat → List ForwardEpochSyncRecord → Nat → Prop
  | _, anchor, [], reached => reached = anchor
  | parent, anchor, r :: rest, reached =>
    r.block.epoch = epoch ∧ r.block.parentId = parent ∧
      (∀ number, r.blockNumber = some number → number = min (anchor + 1) u64Max) ∧
      (r.blockNumber = none → r.randomness = none) ∧
      (∀ number, r.block.blockNumber = some number → r.blockNumber = some number) ∧
      r.quorumCert.certifiedBlock.id = r.block.id ∧
      RecordsLinked epoch r.block.id (r.blockNumber.getD anchor) rest reached

variable {v : ValidatorVerifier}

theorem verifyRecords_of_linked {epoch now : Nat}
    {reached : Nat} (h : RecordsLinked epoch parent anchor records reached)
    (hauthentic : ∀ r ∈ records, r.block.validateSignature v = .ok () ∧
      r.block.verifyWellFormed now = .ok () ∧ r.quorumCert.verify v = .ok ()) :
    verifyRecords v epoch now parent anchor records = .ok reached := by
  induction records generalizing parent anchor with
  | nil =>
    obtain rfl : reached = anchor := h
    rfl
  | cons r rest ih =>
    obtain ⟨hepoch, hparent, hnumber, hrandomness, hembedded, hqc, hrest⟩ := h
    obtain ⟨hsignature, hformed, hverify⟩ := hauthentic r List.mem_cons_self
    have htail := ih hrest (List.forall_mem_cons.mp hauthentic).2
    unfold verifyRecords
    rw [except_seq_ok_iff, except_seq_ok_iff, except_seq_ok_iff]
    refine ⟨ensure_ok_iff.mpr hepoch, ensure_ok_iff.mpr rfl, ensure_ok_iff.mpr hparent, ?_⟩
    cases hcase : r.blockNumber with
    | some number =>
      rw [hcase] at htail hembedded
      simp only [except_seq_ok_iff, ensure_ok_iff]
      exact ⟨hnumber number hcase, hembedded, hsignature, hformed, hqc, hverify, htail⟩
    | none =>
      rw [hcase] at htail hembedded
      simp only [except_seq_ok_iff, ensure_ok_iff]
      exact ⟨hrandomness hcase, hembedded, hsignature, hformed, hqc, hverify, htail⟩

theorem verifyLedgerInfos_of_certified {epoch : Nat} {lis : List LedgerInfoWithSignatures}
    (hcertified : ∀ li ∈ lis, li.ledgerInfo.commitInfo.epoch = epoch ∧
      ∃ r ∈ records, r.quorumCert.commitInfo.id = li.ledgerInfo.consensusBlockId)
    (hauthentic : ∀ li ∈ lis, li.verifySignatures v = .ok ()) :
    verifyLedgerInfos v epoch records lis = .ok () := by
  induction lis with
  | nil => rfl
  | cons li rest ih =>
    obtain ⟨hepoch, hqc⟩ := hcertified li List.mem_cons_self
    have htail := ih (List.forall_mem_cons.mp hcertified).2 (List.forall_mem_cons.mp hauthentic).2
    simp only [verifyLedgerInfos, except_seq_ok_iff, ensure_ok_iff]
    exact ⟨hepoch, hauthentic li List.mem_cons_self, hqc, htail⟩

end Checks

/-! ## What building the index guarantees -/

/-- Blocks and certificates are under their own epochs and identifiers, as `save_tree` writes them.
-/
structure ConsensusDb.WellKeyed [Crypto] (db : ConsensusDb) : Prop where
  blocks : ∀ e ∈ db.blocks, e.1 = (e.2.epoch, e.2.id)
  quorumCerts : ∀ e ∈ db.quorumCerts, e.1 = (e.2.certifiedBlock.epoch, e.2.certifiedBlock.id)
  nodup : db.quorumCerts.keys.Nodup

/-- Each numbered block follows the number reached before it. -/
def Numbered : Nat → List ForwardEpochSyncIndexEntry → Prop
  | _, [] => True
  | anchor, e :: rest =>
    (∀ number, e.blockNumber = some number → number = min (anchor + 1) u64Max) ∧
      e.anchorBlockNumber = e.blockNumber.getD anchor ∧ Numbered e.anchorBlockNumber rest

/-- What the database holds for an entry. -/
structure ForwardEpochSyncIndexEntry.Stored [Crypto] (e : ForwardEpochSyncIndexEntry)
    (db : ConsensusDb) (epoch : Nat) (block : Block) (qc : QuorumCert) : Prop where
  getBlock : db.getBlock epoch e.blockId = some block
  sameId : block.id = e.blockId
  sameParent : block.parentId = e.parentId
  sameEpoch : block.epoch = epoch
  sameNumber : ∀ number, block.blockNumber = some number → e.blockNumber = some number
  getQc : db.quorumCerts.get (epoch, e.blockId) = some qc
  certifies : qc.certifiedBlock.id = e.blockId

structure ForwardEpochSyncIndex.Sound [Crypto] (index : ForwardEpochSyncIndex) (db : ConsensusDb)
    (epoch : Nat) : Prop where
  manifestEpoch : index.manifest.epoch = epoch
  nodup : (index.entries.map (·.blockId)).Nodup
  stored : ∀ e ∈ index.entries, ∃ block qc, e.Stored db epoch block qc
  linked : index.entries.IsChain fun a b => b.parentId = a.blockId
  numbered : ∃ anchor, Numbered anchor index.entries
  boundaries : ∀ b ∈ index.boundaries, b.ledgerInfo.ledgerInfo.commitInfo.epoch = epoch ∧
    ∃ e qc, index.entries[b.certifyingPosition]? = some e ∧
      db.quorumCerts.get (epoch, e.blockId) = some qc ∧
      qc.commitInfo.id = b.ledgerInfo.ledgerInfo.consensusBlockId

variable {entries path : List ForwardEpochSyncIndexEntry}

theorem numberEntries_ok (h : numberEntries anchor path = .ok entries) : Numbered anchor entries ∧
      entries.map (fun e => (e.blockNumber, e.blockId, e.parentId)) =
        path.map fun e => (e.blockNumber, e.blockId, e.parentId) := by
  induction path generalizing anchor entries with
  | nil =>
    obtain rfl := Except.ok.inj h
    exact ⟨trivial, rfl⟩
  | cons entry rest ih =>
    unfold numberEntries at h
    cases hnumber : entry.blockNumber with
    | some number =>
      simp only [hnumber, except_bind_ok_iff, ensure_ok_iff, except_pure_ok_iff] at h
      obtain ⟨_, hnext, numbered, hrest, rfl⟩ := h
      obtain ⟨htail, hmap⟩ := ih hrest
      refine ⟨⟨?_, rfl, htail⟩, ?_⟩
      · intro n hn
        obtain rfl := Option.some.inj hn
        exact hnext
      · rw [List.map_cons, List.map_cons, hmap, hnumber]
    | none =>
      simp only [hnumber, except_bind_ok_iff, except_pure_ok_iff] at h
      obtain ⟨numbered, hrest, rfl⟩ := h
      obtain ⟨htail, hmap⟩ := ih hrest
      refine ⟨⟨?_, rfl, htail⟩, ?_⟩
      · intro n hn
        cases hn
      · rw [List.map_cons, List.map_cons, hmap, hnumber]

variable {e : ForwardEpochSyncIndexEntry} {p : Nat} {id : HashValue}

section Build

variable [Crypto] {db : ConsensusDb} {epoch : Nat}

/-- A certificate of the epoch is stored under the block that it certifies. -/
theorem get_of_qcsByCertifiedId (hdb : db.WellKeyed) : ∀ e ∈ db.qcsByCertifiedId epoch,
    e.1 = e.2.certifiedBlock.id ∧ db.quorumCerts.get (epoch, e.1) = some e.2 := by
  refine Table.forall_mem_putAll (List.forall_mem_nil _) (List.forall_mem_map.mpr ?_)
  intro stored hstored
  refine ⟨rfl, ?_⟩
  obtain ⟨hmem, hepoch⟩ := List.mem_filter.mp hstored
  have hkey := hdb.quorumCerts stored hmem
  have hsame : (epoch, stored.2.certifiedBlock.id) = stored.1 := by
    have hfirst : stored.1.1 = epoch := (of_decide_eq_true hepoch).1
    rw [← hfirst, hkey]
  show db.quorumCerts.get (epoch, stored.2.certifiedBlock.id) = some stored.2
  rw [hsame]
  exact Table.get_of_mem hdb.nodup hmem

/-- A block that is read is the one that is asked for. -/
theorem getBlock_wellKeyed (hdb : db.WellKeyed) {block : Block}
    (h : db.getBlock epoch id = some block) : block.id = id ∧ block.epoch = epoch := by
  unfold ConsensusDb.getBlock at h
  obtain ⟨stored, hget, rfl⟩ := Option.map_eq_some_iff.mp h
  have hkey := hdb.blocks _ (Table.mem_of_get hget)
  obtain ⟨hepoch, hid⟩ := Prod.mk.inj hkey
  exact ⟨hid.symm, hepoch.symm⟩

theorem wellKeyed_empty : ConsensusDb.WellKeyed {} := ⟨by simp, by simp, List.nodup_nil⟩

theorem ConsensusDb.WellKeyed.saveTree (h : db.WellKeyed) (blocks : List Block)
    (quorumCerts : List QuorumCert) (blockNumbers : List (Nat × Nat × HashValue)) :
    (db.saveTree blocks quorumCerts blockNumbers).WellKeyed where
  blocks := Table.forall_mem_putAll h.blocks (List.forall_mem_map.mpr fun _ _ => rfl)
  quorumCerts := Table.forall_mem_putAll h.quorumCerts (List.forall_mem_map.mpr fun _ _ => rfl)
  nodup := Table.nodup_keys_putAll h.nodup _

omit [Crypto] in
theorem mem_keys_of_getBlock {id : HashValue} {block : Block}
    (h : db.getBlock epoch id = some block) : (epoch, id) ∈ db.blocks.keys := by
  obtain ⟨stored, hget, -⟩ := Option.map_eq_some_iff.mp h
  exact Table.mem_keys_iff_get.mpr ⟨stored, hget⟩

/-- The loop visits no block twice: a step for each stored block is enough. -/
theorem collectPath_add_fuel (more : Nat) {qcs : Table HashValue QuorumCert} {fuel : Nat}
    {visited : List HashValue} {cursor : HashValue} (hnodup : visited.Nodup)
    (hvisited : ∀ id ∈ visited, (epoch, id) ∈ db.blocks.keys)
    (hfuel : db.blocks.length < fuel + visited.length) :
    db.collectPath epoch qcs (fuel + more) visited cursor =
      db.collectPath epoch qcs fuel visited cursor := by
  induction fuel generalizing visited cursor with
  | zero =>
    have hkeys : (visited.map fun id => (epoch, id)).Nodup :=
      hnodup.map fun _ _ heq => (Prod.mk.inj heq).2
    have hle := (hkeys.subperm (List.forall_mem_map.mpr hvisited)).length_le
    simp only [List.length_map, Table.keys] at hle
    omega
  | succ fuel ih =>
    rw [Nat.add_right_comm]
    unfold ConsensusDb.collectPath
    split
    · rfl
    · rename_i hnew
      cases hblock : db.getBlock epoch cursor with
      | none => rfl
      | some block =>
        have hnext := @ih (cursor :: visited) block.parentId (List.nodup_cons.mpr ⟨hnew, hnodup⟩)
          (List.forall_mem_cons.mpr ⟨mem_keys_of_getBlock hblock, hvisited⟩)
          (by rw [List.length_cons]; omega)
        dsimp only
        rw [hnext]

/-- The blocks of the path are stored with their certificates, and none is visited twice. -/
theorem collectPath_ok (hdb : db.WellKeyed) {fuel : Nat} {visited : List HashValue}
    {cursor : HashValue}
    (h : db.collectPath epoch (db.qcsByCertifiedId epoch) fuel visited cursor = .ok path) :
    (∀ e ∈ path, ∃ block qc, e.Stored db epoch block qc) ∧ (path.map (·.blockId)).Nodup ∧
      ∀ e ∈ path, e.blockId ∉ visited := by
  induction fuel generalizing visited cursor path with
  | zero => cases h
  | succ fuel ih =>
    unfold ConsensusDb.collectPath at h
    split_ifs at h with hvisited
    cases hblock : db.getBlock epoch cursor with
    | none =>
      simp only [hblock, Except.ok.injEq] at h
      subst h
      exact ⟨by simp, by simp, by simp⟩
    | some block =>
      simp only [hblock, except_bind_ok_iff, ensure_ok_iff, except_pure_ok_iff] at h
      obtain ⟨_, hqc, rest, hrest, rfl⟩ := h
      obtain ⟨hstored, hnodup, hfresh⟩ := ih hrest
      obtain ⟨hid, hepoch⟩ := getBlock_wellKeyed hdb hblock
      obtain ⟨qc, hqc⟩ := Option.isSome_iff_exists.mp hqc
      obtain ⟨hcertifies, hget⟩ := get_of_qcsByCertifiedId hdb _ (Table.mem_of_get hqc)
      refine ⟨?_, ?_, ?_⟩
      · refine List.forall_mem_cons.mpr
          ⟨⟨block, qc, ?_, rfl, rfl, hepoch, ?_, hget, hcertifies.symm⟩, hstored⟩
        · show db.getBlock epoch block.id = some block
          rw [hid]
          exact hblock
        · intro number hnumber
          simp [hnumber]
      · rw [List.map_cons, List.nodup_cons]
        refine ⟨?_, hnodup⟩
        intro hmem
        obtain ⟨e, he, heq⟩ := List.mem_map.mp hmem
        apply hfresh e he
        rw [heq, hid]
        exact List.mem_cons_self
      · refine List.forall_mem_cons.mpr
          ⟨?_, fun e he hmem => hfresh e he (List.mem_cons_of_mem _ hmem)⟩
        rw [show block.id = cursor from hid]
        exact hvisited

section

omit [Crypto]

theorem getElem?_of_positionOf
    (h : positionOf entries id = some p) : ∃ e, entries[p]? = some e ∧ e.blockId = id := by
  obtain ⟨hlt, hid, -⟩ := List.findIdx?_eq_some_iff_getElem.mp h
  exact ⟨entries[p], List.getElem?_eq_getElem hlt, by simpa using hid⟩

/-- In a path of different blocks a block has one position. -/
theorem positionOf_eq_some (hnodup : (entries.map (·.blockId)).Nodup)
    (h : entries[p]? = some e) : positionOf entries e.blockId = some p := by
  obtain ⟨hlt, rfl⟩ := List.getElem?_eq_some_iff.mp h
  apply List.findIdx?_eq_some_iff_getElem.mpr
  refine ⟨hlt, by simp, ?_⟩
  intro j hj
  have hne : entries[j].blockId ≠ entries[p].blockId := by
    intro heq
    have hp' : p < (entries.map (·.blockId)).length := by simpa using hlt
    have hj' : j < (entries.map (·.blockId)).length := hj.trans hp'
    have hget : (entries.map (·.blockId))[j] = (entries.map (·.blockId))[p] := by simpa using heq
    have hsame : j = p := hnodup.getElem_inj_iff.mp hget
    omega
  simpa using hne

/-- A boundary is for a ledger info of the epoch that the certificate at its position commits. -/
theorem boundaryOf_some {qcs : List QuorumCert}
    (hqcs : ∀ qc ∈ qcs, db.quorumCerts.get (epoch, qc.certifiedBlock.id) = some qc)
    {stored : Nat × LedgerInfoWithSignatures}
    {b : ForwardEpochSyncBoundary} (h : boundaryOf epoch qcs entries stored = some b) :
    b.ledgerInfo.ledgerInfo.commitInfo.epoch = epoch ∧
      ∃ e qc, entries[b.certifyingPosition]? = some e ∧
        db.quorumCerts.get (epoch, e.blockId) = some qc ∧
        qc.commitInfo.id = b.ledgerInfo.ledgerInfo.consensusBlockId := by
  unfold boundaryOf at h
  dsimp only at h
  split_ifs at h with hepoch
  split at h
  · cases h
  · rename_i qc position hmin
    split at h
    · cases h
    · rename_i targetPosition htarget
      split_ifs at h with hafter
      obtain rfl := Option.some.inj h
      have hmem := List.argmin_mem hmin
      obtain ⟨qc', hqc', hposition⟩ := List.mem_filterMap.mp hmem
      obtain ⟨p, hp, heq⟩ := Option.map_eq_some_iff.mp hposition
      obtain ⟨rfl, rfl⟩ := Prod.mk.inj heq
      obtain ⟨hin, hcommit⟩ := List.mem_filter.mp hqc'
      obtain ⟨e, he, hid⟩ := getElem?_of_positionOf hp
      refine ⟨by simpa using hepoch, e, qc', he, ?_, by simpa using hcommit⟩
      rw [hid]
      exact hqcs qc' hin

theorem isChain_of_zip_tail (h : ∀ pair ∈ path.zip path.tail, pair.2.parentId = pair.1.blockId) :
    path.IsChain fun a b => b.parentId = a.blockId := by
  induction path with
  | nil => exact .nil
  | cons a rest ih =>
    cases rest with
    | nil => exact .singleton a
    | cons b rest =>
      obtain ⟨hfirst, hrest⟩ := List.forall_mem_cons.mp h
      exact .cons_cons hfirst (ih hrest)

end

/-- Every index that is built is sound. -/
theorem buildForwardEpochSyncIndex_sound [ForwardSyncApi] (hdb : db.WellKeyed)
    {shuffle : Shuffle QuorumCert} {shuffleBoundaries : Shuffle ForwardEpochSyncBoundary}
    {index : ForwardEpochSyncIndex}
    (h : db.buildForwardEpochSyncIndex shuffle shuffleBoundaries epoch = .ok index) :
    index.Sound db epoch := by
  simp only [ConsensusDb.buildForwardEpochSyncIndex, except_bind_ok_iff, expect_ok_iff,
    ensure_ok_iff, except_pure_ok_iff] at h
  obtain ⟨epochEnd, -, target, -, terminalQc, -, reversed, hpath, _, -, _, hlinked, first, -, _, -,
    entries, hentries, targetNumber, -, terminal, -, rfl⟩ := h
  obtain ⟨hstored, hnodup, -⟩ := collectPath_ok hdb hpath
  obtain ⟨hnumbered, hmap⟩ := numberEntries_ok hentries
  have hids : entries.map (·.blockId) = reversed.reverse.map (·.blockId) := by
    have := congrArg (List.map fun c : Option Nat × HashValue × HashValue => c.2.1) hmap
    simpa only [List.map_map, Function.comp_def] using this
  refine ⟨rfl, ?_, ?_, ?_, ⟨_, hnumbered⟩, ?_⟩
  · show (entries.map (·.blockId)).Nodup
    rw [hids, List.map_reverse, List.nodup_reverse]
    exact hnodup
  · intro e he
    have hmem : (e.blockNumber, e.blockId, e.parentId) ∈
        reversed.reverse.map fun e => (e.blockNumber, e.blockId, e.parentId) := by
      rw [← hmap]
      exact List.mem_map_of_mem (f := fun e : ForwardEpochSyncIndexEntry =>
        (e.blockNumber, e.blockId, e.parentId)) he
    obtain ⟨e', he', heq⟩ := List.mem_map.mp hmem
    obtain ⟨block, qc, hentry⟩ := hstored e' (List.mem_reverse.mp he')
    cases e
    cases e'
    cases heq
    exact ⟨block, qc, { hentry with }⟩
  · have hchain := isChain_of_zip_tail hlinked
    have hcore : (entries.map fun e => (e.blockNumber, e.blockId, e.parentId)).IsChain
        fun a b => b.2.2 = a.2.1 := by
      rw [hmap]
      exact (List.isChain_map _).mpr hchain
    exact (List.isChain_map _).mp hcore
  · intro b hb
    have hmem := (List.perm_insertionSort _ _).mem_iff.mp hb
    obtain ⟨stored, -, hb⟩ := List.mem_filterMap.mp ((shuffleBoundaries.perm _ _).mem_iff.mp hmem)
    refine boundaryOf_some ?_ hb
    intro qc hqc
    obtain ⟨e, he, rfl⟩ := List.mem_map.mp ((shuffle.perm _ _).mem_iff.mp hqc)
    obtain ⟨hid, hget⟩ := get_of_qcsByCertifiedId hdb e he
    rw [← hid]
    exact hget

end Build

/-! ## A page -/

/-- Entries that follow each other from an anchor. -/
def EntriesLinked : HashValue → Nat → List ForwardEpochSyncIndexEntry → Prop
  | _, _, [] => True
  | parent, anchor, e :: rest =>
    e.parentId = parent ∧
      (∀ number, e.blockNumber = some number → number = min (anchor + 1) u64Max) ∧
      e.anchorBlockNumber = e.blockNumber.getD anchor ∧
      EntriesLinked e.blockId e.anchorBlockNumber rest

variable {rest : List ForwardEpochSyncIndexEntry}

theorem entriesLinked_of_chain (hchain : (e :: rest).IsChain fun a b => b.parentId = a.blockId)
    (hnumbered : Numbered e.anchorBlockNumber rest) :
    EntriesLinked e.blockId e.anchorBlockNumber rest := by
  induction rest generalizing e with
  | nil => trivial
  | cons next rest ih =>
    obtain ⟨hparent, hrest⟩ := List.isChain_cons_cons.mp hchain
    obtain ⟨hnumber, hanchor, htail⟩ := hnumbered
    exact ⟨hparent, hnumber, hanchor, ih hrest htail⟩

theorem EntriesLinked.take (h : EntriesLinked parent anchor entries)
    (n : Nat) : EntriesLinked parent anchor (entries.take n) := by
  induction entries generalizing parent anchor n with
  | nil => simpa using h
  | cons e rest ih =>
    cases n with
    | zero => trivial
    | succ n =>
      obtain ⟨hparent, hnumber, hanchor, hrest⟩ := h
      exact ⟨hparent, hnumber, hanchor, ih hrest n⟩

theorem Numbered.drop {q : Nat} (h : Numbered anchor entries)
    (hdrop : entries.drop q = e :: rest) : Numbered e.anchorBlockNumber rest := by
  induction entries generalizing anchor q with
  | nil => simp at hdrop
  | cons first tail ih =>
    cases q with
    | zero =>
      obtain ⟨rfl, rfl⟩ := List.cons.inj hdrop
      exact h.2.2
    | succ q => exact ih h.2.2 hdrop

/-- The number reached at the end of a stretch. -/
def numberReached (anchor : Nat) (entries : List ForwardEpochSyncIndexEntry) : Nat :=
  (entries.getLast?.map (·.anchorBlockNumber)).getD anchor

theorem numberReached_cons (anchor : Nat) (e : ForwardEpochSyncIndexEntry)
    (rest : List ForwardEpochSyncIndexEntry) :
    numberReached anchor (e :: rest) = numberReached e.anchorBlockNumber rest := by
  unfold numberReached
  cases rest with
  | nil => rfl
  | cons next rest => rw [List.getLast?_cons_cons]; simp [List.getLast?_eq_some_getLast]

theorem mem_of_mapM {α β ε : Type} {f : α → Except ε β} {l : List α} {ys : List β}
    (h : l.mapM f = .ok ys) {x : α} (hx : x ∈ l) : ∃ y ∈ ys, f x = .ok y := by
  induction l generalizing ys with
  | nil => cases hx
  | cons a rest ih =>
    simp only [List.mapM_cons, except_bind_ok_iff, except_pure_ok_iff] at h
    obtain ⟨y, hy, ys', hrest, rfl⟩ := h
    rcases List.mem_cons.mp hx with rfl | hx
    · exact ⟨y, List.mem_cons_self, hy⟩
    · obtain ⟨z, hz, hfz⟩ := ih hrest hx
      exact ⟨z, List.mem_cons_of_mem _ hz, hfz⟩

section Page

variable [Crypto] {db : ConsensusDb} {epoch : Nat} {index : ForwardEpochSyncIndex}

/-- Stored and linked entries have records, which are linked. -/
theorem records_of_entries
    {page : List ForwardEpochSyncIndexEntry} (hlinked : EntriesLinked parent anchor page)
    (hstored : ∀ e ∈ page, ∃ block qc, e.Stored db epoch block qc) :
    ∃ records, page.mapM (db.forwardRecord epoch) = .ok records ∧
      RecordsLinked epoch parent anchor records (numberReached anchor page) ∧
      records.map (·.block.id) = page.map (·.blockId) := by
  induction page generalizing parent anchor with
  | nil => exact ⟨[], rfl, rfl, rfl⟩
  | cons e rest ih =>
    obtain ⟨hparent, hnumber, hanchor, htail⟩ := hlinked
    obtain ⟨block, qc, he⟩ := hstored e List.mem_cons_self
    obtain ⟨records, hrecords, hlinks, hids⟩ :=
      ih htail (List.forall_mem_cons.mp hstored).2
    have hrecord : db.forwardRecord epoch e =
        .ok ⟨block, e.blockNumber, e.blockNumber.bind db.getRandomness, qc⟩ := by
      simp only [ConsensusDb.forwardRecord, he.getBlock, he.getQc]
      rfl
    refine ⟨⟨block, e.blockNumber, e.blockNumber.bind db.getRandomness, qc⟩ :: records, ?_, ?_, ?_⟩
    · rw [List.mapM_cons, hrecord, hrecords]
      rfl
    · refine ⟨he.sameEpoch, he.sameParent.trans hparent, hnumber, ?_, he.sameNumber, ?_, ?_⟩
      · intro hnone
        show e.blockNumber.bind db.getRandomness = none
        rw [show e.blockNumber = none from hnone]
        rfl
      · exact he.certifies.trans he.sameId.symm
      · rw [numberReached_cons]
        show RecordsLinked epoch block.id (e.blockNumber.getD anchor) records _
        rw [he.sameId, ← hanchor]
        exact hlinks
    · rw [List.map_cons, List.map_cons, hids]
      exact congrArg (· :: _) he.sameId

/-- An accepted anchor stands for a position in the index or for its end, and the entries after it
are linked. -/
theorem entriesLinked_of_anchor (hs : index.Sound db epoch) {number : Nat}
    (h : index.validateForwardAnchor number id = .ok p) :
    EntriesLinked id number (index.entries.drop p) ∧ p ≤ index.entries.length := by
  obtain ⟨anchor, hnumbered⟩ := hs.numbered
  unfold ForwardEpochSyncIndex.validateForwardAnchor at h
  cases hposition : positionOf index.entries id with
  | some q =>
    simp only [hposition] at h
    split_ifs at h with hnumber
    obtain rfl := Except.ok.inj h
    obtain ⟨e, he, rfl⟩ := getElem?_of_positionOf hposition
    obtain rfl : e.anchorBlockNumber = number := by simpa [he] using hnumber
    obtain ⟨hlt, hget⟩ := List.getElem?_eq_some_iff.mp he
    have hdrop : index.entries.drop q = e :: index.entries.drop (q + 1) := by
      rw [List.drop_eq_getElem_cons hlt, hget]
    refine ⟨entriesLinked_of_chain ?_ (hnumbered.drop hdrop), hlt⟩
    rw [← hdrop]
    exact hs.linked.drop q
  | none =>
    simp only [hposition] at h
    cases hentries : index.entries with
    | nil =>
      simp only [hentries, List.head?_nil] at h
      cases h
    | cons first rest =>
      simp only [hentries, List.head?_cons] at h
      split_ifs at h with hfirst
      obtain rfl := Except.ok.inj h
      rw [hentries] at hnumbered
      have hchain := hs.linked
      rw [hentries] at hchain
      obtain ⟨-, hanchor, htail⟩ := hnumbered
      refine ⟨⟨hfirst.1, ?_, ?_, entriesLinked_of_chain hchain htail⟩, Nat.zero_le _⟩
      · intro n hn
        have hfollows := hfirst.2
        simp only [ForwardEpochSyncIndexEntry.followsAnchor, hn] at hfollows
        simpa using hfollows
      · cases hn : first.blockNumber with
        | some n =>
          rw [hanchor, hn]
          rfl
        | none =>
          have hfollows := hfirst.2
          simp only [ForwardEpochSyncIndexEntry.followsAnchor, hn] at hfollows
          simpa using hfollows

variable {last : Nat}

theorem validateForwardAnchor_tail (hs : index.Sound db epoch)
    {tail : ForwardEpochSyncIndexEntry} (hpos : 0 < last)
    (htail : index.entries[last - 1]? = some tail) :
    index.validateForwardAnchor tail.anchorBlockNumber tail.blockId = .ok last := by
  unfold ForwardEpochSyncIndex.validateForwardAnchor
  rw [positionOf_eq_some hs.nodup htail]
  simp only [htail, Option.map_some, if_true]
  rw [show last - 1 + 1 = last by omega]

/-- The page between two positions. -/
structure PageAt (db : ConsensusDb) (index : ForwardEpochSyncIndex) (p last : Nat)
    (request : ForwardEpochSyncFetchRequest) (batch : ForwardEpochSyncBatch) : Prop where
  records : ((index.entries.take last).drop p).mapM (db.forwardRecord index.manifest.epoch) =
    .ok batch.records
  ledgerInfos : batch.ledgerInfos = (index.boundaries.filter fun b =>
    certifyingPositionInBatch b.certifyingPosition p last).map (·.ledgerInfo)
  verify : ∀ v now, batch.Authentic v now → batch.verify request v now = .ok ()
  next : index.validateForwardAnchor batch.nextAnchorBlockNumber batch.nextAnchorBlockId = .ok last

omit [Crypto] in
theorem exists_record
    (hrecords : ((index.entries.take last).drop p).mapM (db.forwardRecord epoch) = .ok records)
    {position : Nat} (hle : p ≤ position) (hlt : position < last)
    (he : index.entries[position]? = some e) {qc : QuorumCert}
    (hqc : db.quorumCerts.get (epoch, e.blockId) = some qc) :
    ∃ r ∈ records, r.quorumCert = qc := by
  have hmem : e ∈ (index.entries.take last).drop p := by
    apply List.mem_of_getElem? (i := position - p)
    rw [List.getElem?_drop, show p + (position - p) = position by omega,
      List.getElem?_take_of_lt hlt]
    exact he
  obtain ⟨r, hr, hread⟩ := mem_of_mapM hrecords hmem
  refine ⟨r, hr, ?_⟩
  simp only [ConsensusDb.forwardRecord, except_bind_ok_iff, expect_ok_iff,
    except_pure_ok_iff] at hread
  obtain ⟨block, -, qc', hqc', rfl⟩ := hread
  rw [hqc] at hqc'
  exact (Option.some.inj hqc').symm

variable {cursor : ForwardCursor} {maxBlocksAllowed size : Nat}

/-- A request from an accepted anchor that is not at the end is answered with a page. -/
theorem fetchForwardEpochSync_page (hs : index.Sound db epoch)
    (hanchor : index.validateForwardAnchor cursor.blockNumber cursor.blockId = .ok p)
    (hp : p < index.entries.length) (hpos : 0 < size) (hmax : size ≤ maxBlocksAllowed) :
    ∃ batch, db.fetchForwardEpochSync index maxBlocksAllowed (cursor.request index.manifest size) =
        .ok batch ∧
      PageAt db index p (min (p + size) index.entries.length)
        (cursor.request index.manifest size) batch := by
  obtain rfl := hs.manifestEpoch
  obtain ⟨last, hlast⟩ : ∃ last, last = min (p + size) index.entries.length := ⟨_, rfl⟩
  have hbounds : p < last ∧ last ≤ index.entries.length ∧ last ≤ p + size := by omega
  obtain ⟨hplast, hlen, hsize⟩ := hbounds
  rw [← hlast]
  have hlinked := (entriesLinked_of_anchor hs hanchor).1.take (last - p)
  have hpage : (index.entries.drop p).take (last - p) = (index.entries.take last).drop p := by
    rw [List.drop_take]
  rw [hpage] at hlinked
  obtain ⟨records, hrecords, hlinks, hids⟩ := records_of_entries hlinked
    (fun e he => hs.stored e (List.mem_of_mem_take (List.mem_of_mem_drop he)))
  have hlength : records.length = last - p := by
    have := congrArg List.length hids
    simp only [List.length_map, List.length_drop, List.length_take] at this
    omega
  have htail : ∃ tail, index.entries[last - 1]? = some tail :=
    ⟨_, List.getElem?_eq_getElem (by omega)⟩
  obtain ⟨tail, htail⟩ := htail
  have hpageLast : ((index.entries.take last).drop p).getLast? = some tail := by
    rw [List.getLast?_eq_getElem?, List.getElem?_drop, List.length_drop, List.length_take,
      List.getElem?_take_of_lt (by omega)]
    rw [show p + (min last index.entries.length - p - 1) = last - 1 by omega]
    exact htail
  obtain ⟨batch, hbatch⟩ : ∃ batch : ForwardEpochSyncBatch, batch = {
      epoch := index.manifest.epoch
      manifestId := index.manifest.manifestId
      anchorBlockNumber := cursor.blockNumber
      anchorBlockId := cursor.blockId
      records
      ledgerInfos := (index.boundaries.filter fun b =>
        certifyingPositionInBatch b.certifyingPosition p last).map (·.ledgerInfo)
      nextAnchorBlockNumber := tail.anchorBlockNumber
      nextAnchorBlockId := tail.blockId } := ⟨_, rfl⟩
  refine ⟨batch, ?_, ?_⟩
  · subst hbatch
    simp only [ConsensusDb.fetchForwardEpochSync, except_bind_ok_iff, ensure_ok_iff, expect_ok_iff,
      except_pure_ok_iff, ForwardCursor.request]
    refine ⟨⟨⟩, ensure_ok_iff.mpr ⟨by omega, hmax⟩, ⟨⟩, trivial, p, hanchor,
      ⟨⟩, hp, last, ?_, records, hrecords, tail, htail, rfl⟩
    simp only [selectForwardBatchEnd, ← hlast, hplast, if_true]
  · subst hbatch
    refine ⟨hrecords, rfl, ?_, validateForwardAnchor_tail hs (by omega) htail⟩
    intro v now hauthentic
    simp only [ForwardEpochSyncBatch.verify, except_bind_ok_iff, ensure_ok_iff,
      ForwardCursor.request]
    refine ⟨⟨⟩, trivial, ⟨⟩, trivial, ⟨⟩, ⟨trivial, trivial⟩, ⟨⟩, ?_, ⟨⟩,
      ensure_ok_iff.mpr (by omega), _, verifyRecords_of_linked hlinks hauthentic.records, ⟨⟩,
      ⟨?_, ?_⟩, ?_⟩
    · intro hnil
      rw [hnil] at hlength
      simp only [List.length_nil] at hlength
      omega
    · have hlastId := congrArg List.getLast? hids
      rw [List.getLast?_map, List.getLast?_map, hpageLast] at hlastId
      exact hlastId
    · simp only [numberReached, hpageLast, Option.map_some, Option.getD_some]
    · apply verifyLedgerInfos_of_certified _ hauthentic.ledgerInfos
      intro li hli
      obtain ⟨b, hb, rfl⟩ := List.mem_map.mp hli
      obtain ⟨hmem, hin⟩ := List.mem_filter.mp hb
      obtain ⟨hepoch, e, qc, he, hqc, hcommit⟩ := hs.boundaries b hmem
      have hrange : p ≤ b.certifyingPosition ∧ b.certifyingPosition < last := by
        simpa [certifyingPositionInBatch] using hin
      obtain ⟨r, hr, hrqc⟩ := exists_record hrecords hrange.1 hrange.2 he hqc
      exact ⟨hepoch, r, hr, by rw [hrqc]; exact hcommit⟩

omit [Crypto] in
theorem fetchForwardEpochSync_end
    (hanchor : index.validateForwardAnchor cursor.blockNumber cursor.blockId =
      .ok index.entries.length) (hpos : 0 < size) (hmax : size ≤ maxBlocksAllowed) :
    db.fetchForwardEpochSync index maxBlocksAllowed (cursor.request index.manifest size) =
      .error .batchBoundaryNotFound := by
  have hsize : size ≠ 0 := by omega
  simp only [ConsensusDb.fetchForwardEpochSync, ForwardCursor.request, hanchor]
  simp [ensure, hsize, hmax, bind, Except.bind]

/-! ## Page after page -/

/-- What a client has received up to a position: the entries from its first anchor on and the ledger
infos of the boundaries among them, in pages that pass its checks. -/
structure Received (db : ConsensusDb) (index : ForwardEpochSyncIndex) (start p : Nat)
    (pages : List ForwardPage) : Prop where
  records : ((index.entries.take p).drop start).mapM (db.forwardRecord index.manifest.epoch) =
    .ok (pages.flatMap (·.2.records))
  ledgerInfos : (pages.flatMap (·.2.ledgerInfos)).Perm
    ((index.boundaries.filter fun b => certifyingPositionInBatch b.certifyingPosition start p).map
      (·.ledgerInfo))
  verify : ∀ page ∈ pages, ∀ v now, page.2.Authentic v now → page.2.verify page.1 v now = .ok ()

omit [Crypto] in
theorem mapM_append_ok {α β ε : Type} {f : α → Except ε β} {l l' : List α} {ys ys' : List β}
    (h : l.mapM f = .ok ys) (h' : l'.mapM f = .ok ys') : (l ++ l').mapM f = .ok (ys ++ ys') := by
  rw [List.mapM_append, h, h']
  rfl

variable {start : Nat}

omit [Crypto] in
theorem take_drop_append {α : Type} (l : List α) (hstart : start ≤ p) (hp : p ≤ last) :
    (l.take p).drop start ++ (l.take last).drop p = (l.take last).drop start := by
  have htake : l.take p = (l.take last).take p := by
    rw [List.take_take, min_eq_left hp]
  have hdrop : (l.take last).drop p = ((l.take last).drop start).drop (p - start) := by
    rw [List.drop_drop, Nat.add_sub_cancel' hstart]
  rw [htake, hdrop, List.drop_take, List.take_append_drop]

omit [Crypto] in
theorem certifyingPositionInBatch_iff {position : Nat} :
    certifyingPositionInBatch position start last = true ↔ start ≤ position ∧ position < last := by
  simp [certifyingPositionInBatch]

omit [Crypto] in
theorem filter_position_append (hstart : start ≤ p) (hp : p ≤ last)
    (boundaries : List ForwardEpochSyncBoundary) :
    ((boundaries.filter fun b => certifyingPositionInBatch b.certifyingPosition start p) ++
      boundaries.filter fun b => certifyingPositionInBatch b.certifyingPosition p last).Perm
      (boundaries.filter fun b => certifyingPositionInBatch b.certifyingPosition start last) := by
  -- both parts are parts of the whole, split at the middle position
  have hfirst : (boundaries.filter fun b => certifyingPositionInBatch b.certifyingPosition
    start p) =
      (boundaries.filter fun b => certifyingPositionInBatch b.certifyingPosition start last).filter
        fun b => b.certifyingPosition < p := by
    rw [List.filter_filter]
    refine List.filter_congr fun b _ => Bool.eq_iff_iff.mpr ?_
    simp only [Bool.and_eq_true, certifyingPositionInBatch_iff, decide_eq_true_eq]
    omega
  have hsecond : (boundaries.filter fun b => certifyingPositionInBatch
    b.certifyingPosition p last) =
      (boundaries.filter fun b => certifyingPositionInBatch b.certifyingPosition start last).filter
        fun b => !decide (b.certifyingPosition < p) := by
    rw [List.filter_filter]
    refine List.filter_congr fun b _ => Bool.eq_iff_iff.mpr ?_
    simp only [Bool.and_eq_true, certifyingPositionInBatch_iff, Bool.not_eq_true',
      decide_eq_false_iff_not]
    omega
  rw [hfirst, hsecond]
  exact List.filter_append_perm _ _

variable {pages : List ForwardPage}

theorem Received.page {request : ForwardEpochSyncFetchRequest} {batch : ForwardEpochSyncBatch}
    (h : Received db index start p pages) (hpage : PageAt db index p last request batch)
    (hstart : start ≤ p) (hp : p ≤ last) :
    Received db index start last (pages ++ [(request, batch)]) := by
  refine ⟨?_, ?_, ?_⟩
  · rw [← take_drop_append index.entries hstart hp, List.flatMap_append, List.flatMap_singleton]
    exact mapM_append_ok h.records hpage.records
  · rw [List.flatMap_append, List.flatMap_singleton, hpage.ledgerInfos]
    refine (h.ledgerInfos.append_right _).trans ?_
    rw [← List.map_append]
    exact (filter_position_append hstart hp _).map _
  · apply forall_mem_snoc h.verify
    exact hpage.verify

/-- From any position that it has reached, the client reaches the end of the index. -/
theorem exists_forwardPages (hs : index.Sound db epoch) {sizes : Nat → Nat}
    (hsizes : ∀ i, 0 < sizes i ∧ sizes i ≤ maxBlocksAllowed) {anchor : ForwardCursor} {n : Nat}
    (hpages : forwardPages (db.fetchForwardEpochSync index maxBlocksAllowed) index.manifest sizes
      anchor n = .ok (pages, cursor)) (hreceived : Received db index start p pages)
    (hcursor : index.validateForwardAnchor cursor.blockNumber cursor.blockId = .ok p)
    (hstart : start ≤ p) (hp : p ≤ index.entries.length) :
    ∃ n pages cursor,
      forwardPages (db.fetchForwardEpochSync index maxBlocksAllowed) index.manifest sizes anchor n =
        .ok (pages, cursor) ∧
      Received db index start index.entries.length pages ∧
      index.validateForwardAnchor cursor.blockNumber cursor.blockId = .ok index.entries.length := by
  -- every page moves the client forward
  induction hleft : index.entries.length - p using Nat.strong_induction_on generalizing n p pages
    cursor with
  | _ left ih =>
    by_cases hend : p = index.entries.length
    · subst hend
      exact ⟨n, pages, cursor, hpages, hreceived, hcursor⟩
    · obtain ⟨batch, hfetch, hpage⟩ := fetchForwardEpochSync_page hs hcursor (by omega)
        (hsizes n).1 (hsizes n).2
      have hsize := (hsizes n).1
      have hnext : forwardPages (db.fetchForwardEpochSync index maxBlocksAllowed) index.manifest
          sizes anchor (n + 1) =
          .ok (pages ++ [(cursor.request index.manifest (sizes n), batch)],
            ⟨batch.nextAnchorBlockNumber, batch.nextAnchorBlockId⟩) := by
        simp only [forwardPages, hpages, hfetch, bind, Except.bind]
        rfl
      exact ih _ (by omega) hnext (hreceived.page hpage hstart (by omega)) hpage.next (by omega)
        (by omega) rfl

end Page

/-- For every index that is built and every anchor that is accepted, a client that asks with any
page sizes that are allowed receives, in finitely many pages, the records of exactly the entries
after the anchor, in order, and the ledger infos of exactly the boundaries after it; every page
passes its checks, signatures apart, and the next answer is that nothing is left. -/
theorem forwardEpochSync_delivers [Crypto] [ForwardSyncApi] {db : ConsensusDb} (hdb : db.WellKeyed)
    {shuffle : Shuffle QuorumCert} {shuffleBoundaries : Shuffle ForwardEpochSyncBoundary}
    {epoch : Nat} {index : ForwardEpochSyncIndex}
    (hindex : db.buildForwardEpochSyncIndex shuffle shuffleBoundaries epoch = .ok index)
    {anchor : ForwardCursor} {start : Nat}
    (hanchor : index.validateForwardAnchor anchor.blockNumber anchor.blockId = .ok start)
    {sizes : Nat → Nat} {maxBlocksAllowed : Nat}
    (hsizes : ∀ i, 0 < sizes i ∧ sizes i ≤ maxBlocksAllowed) :
    ∃ n pages cursor,
      forwardPages (db.fetchForwardEpochSync index maxBlocksAllowed) index.manifest sizes anchor n =
        .ok (pages, cursor) ∧
      (index.entries.drop start).mapM (db.forwardRecord epoch) = .ok (pages.flatMap (·.2.records)) ∧
      (pages.flatMap (·.2.records)).map (·.block.id) = (index.entries.drop start).map (·.blockId) ∧
      ((index.entries.drop start).map (·.blockId)).Nodup ∧
      (∀ page ∈ pages, ∀ v now, page.2.Authentic v now → page.2.verify page.1 v now = .ok ()) ∧
      (pages.flatMap (·.2.ledgerInfos)).Perm
        ((index.boundaries.filter (start ≤ ·.certifyingPosition)).map (·.ledgerInfo)) ∧
      db.fetchForwardEpochSync index maxBlocksAllowed (cursor.request index.manifest (sizes n)) =
        .error .batchBoundaryNotFound := by
  have hs := buildForwardEpochSyncIndex_sound hdb hindex
  obtain ⟨hlinked, hstart⟩ := entriesLinked_of_anchor hs hanchor
  have hempty : Received db index start start [] := by
    refine ⟨?_, ?_, List.forall_mem_nil _⟩
    · rw [List.drop_take, Nat.sub_self]
      rfl
    · have hnone : (index.boundaries.filter fun b =>
          certifyingPositionInBatch b.certifyingPosition start start) = [] := by
        apply List.filter_eq_nil_iff.mpr
        intro b _
        rw [certifyingPositionInBatch_iff]
        omega
      rw [hnone]
      exact .nil
  have hzero : forwardPages (db.fetchForwardEpochSync index maxBlocksAllowed) index.manifest sizes
      anchor 0 = .ok ([], anchor) := rfl
  obtain ⟨n, pages, cursor, hpages, hreceived, hcursor⟩ :=
    exists_forwardPages hs hsizes hzero hempty hanchor le_rfl hstart
  have hrecords := hreceived.records
  rw [List.take_length, hs.manifestEpoch] at hrecords
  refine ⟨n, pages, cursor, hpages, hrecords, ?_, ?_, hreceived.verify, ?_,
    fetchForwardEpochSync_end hcursor (hsizes n).1 (hsizes n).2⟩
  · obtain ⟨records, hread, -, hids⟩ := records_of_entries hlinked
      fun e he => hs.stored e (List.mem_of_mem_drop he)
    rw [hrecords] at hread
    obtain rfl := Except.ok.inj hread
    exact hids
  · rw [List.map_drop]
    exact hs.nodup.sublist (List.drop_sublist _ _)
  · refine hreceived.ledgerInfos.trans (List.Perm.of_eq ?_)
    congr 1
    apply List.filter_congr
    intro b hb
    obtain ⟨-, e, qc, he, -⟩ := hs.boundaries b hb
    obtain ⟨hlt, -⟩ := List.getElem?_eq_some_iff.mp he
    simp [certifyingPositionInBatch, hlt]

/-! ### An epoch of three blocks -/

namespace ShortEpoch

local instance crypto : Crypto := Permissive.crypto (fun _ => 0) (·.round + 10)

local instance api : ForwardSyncApi where
  manifestId epoch _ _ terminalId _ _ _ := epoch + terminalId

def blockInfo (round : Nat) : BlockInfo :=
  { BlockInfo.empty with epoch := 1, round := round, id := round + 10 }

def ledgerInfo (round : Nat) : LedgerInfoWithSignatures :=
  ⟨⟨blockInfo round, 0, none⟩, ⟨[], none⟩⟩

/-- The certificate of a round commits the round before. -/
def qc (round : Nat) :
    QuorumCert := ⟨⟨blockInfo round, blockInfo (round - 1)⟩, ledgerInfo (round - 1)⟩

def block (round : Nat) : Block where
  blockData := ⟨1, round, round, qc (round - 1), .nilBlock []⟩
  signature := none

/-- The second block ends the epoch; the third one only certifies it and has no number. -/
def db : ConsensusDb where
  ledgerInfos := [(6, ledgerInfo 2)]
  epochByBlockNumber := [(6, 1)]
  blocks := [((1, 11), block 1), ((1, 12), block 2), ((1, 13), block 3)]
  quorumCerts := [((1, 11), qc 1), ((1, 12), qc 2), ((1, 13), qc 3)]
  blockNumbers := [((1, 11), 5), ((1, 12), 6)]

def index : ForwardEpochSyncIndex where
  manifest := ⟨1, 14, 5, 6, 12, ledgerInfo 2⟩
  entries := [⟨some 5, 5, 11, 10⟩, ⟨some 6, 6, 12, 11⟩, ⟨none, 6, 13, 12⟩]
  boundaries := [⟨2, 6, ledgerInfo 2⟩]

theorem wellKeyed_db : db.WellKeyed where
  blocks := by decide
  quorumCerts := by decide
  nodup := by decide

/-- Pages of two blocks, from the block before the epoch. -/
theorem forwardEpochSync_delivers_shortEpoch :
    db.WellKeyed ∧ db.buildForwardEpochSyncIndex (.none _) (.none _) 1 = .ok index ∧
      index.validateForwardAnchor 4 10 = .ok 0 ∧
      ∃ n pages cursor,
        forwardPages (db.fetchForwardEpochSync index 2) index.manifest (fun _ => 2) ⟨4, 10⟩ n =
          .ok (pages, cursor) ∧
        (pages.flatMap (·.2.records)).map (·.block.id) = [11, 12, 13] ∧
        db.fetchForwardEpochSync index 2 (cursor.request index.manifest 2) =
          .error .batchBoundaryNotFound := by
  have hindex : db.buildForwardEpochSyncIndex (.none _) (.none _) 1 = .ok index := rfl
  have hanchor : index.validateForwardAnchor 4 10 = .ok 0 := rfl
  have hsizes : ∀ i : Nat, 0 < (fun _ : Nat => 2) i ∧ (fun _ : Nat => 2) i ≤ 2 :=
    fun _ => ⟨Nat.two_pos, le_rfl⟩
  obtain ⟨n, pages, cursor, hpages, -, hids, -, -, -, hend⟩ :=
    @forwardEpochSync_delivers _ _ db wellKeyed_db _ _ 1 index hindex ⟨4, 10⟩ 0 hanchor _ 2 hsizes
  exact ⟨wellKeyed_db, hindex, hanchor, n, pages, cursor, hpages, hids, hend⟩

end ShortEpoch

end Liquent
