import Liquent.SafetyRules.Run

/-!
# SafetyRules never equivocates

The votes that the component hands out over a whole run, with failing writes, restarts and changes
of epoch in between.  The invariant (`History`) ties the history of votes and timeouts to the stored
safety data: a vote of the current epoch is not above the last voted round, the stored last vote has
been handed out, and it is the only vote of its round.
-/

namespace Liquent.SafetyRules

open Misc

/-- One exchange with the component: the call and its response. -/
abbrev Exchange := (StorageFaults × Call) × Response

/-- The vote that an exchange handed out. -/
def votedIn (e : Exchange) : Option Vote :=
  match e.2 with
  | .vote vote => some vote
  | _ => none

/-- The timeout that an exchange signed. -/
def timedOutIn (e : Exchange) : Option TwoChainTimeout :=
  match e with
  | ((_, .signTimeoutWithQc timeout _), .signature _) => some timeout
  | _ => none

/-- The votes handed out in a history. -/
def votes (history : List Exchange) : List Vote := history.filterMap votedIn

@[simp] theorem votes_append (h h' : List Exchange) : votes (h ++ h') = votes h ++ votes h' :=
  List.filterMap_append

variable {e : Exchange} {v : Vote}

theorem mem_votes_singleton : v ∈ votes [e] ↔ votedIn e = some v := by
  simp [votes]

/-- No two different votes for one round of one epoch. -/
def NoEquivocation (history : List Exchange) : Prop :=
  ∀ v ∈ votes history, ∀ v' ∈ votes history, v.epoch = v'.epoch → v.round = v'.round → v = v'

/-- After a timeout for a round, votes for rounds up to it are only repeated. -/
def TimeoutsSeal (history : List Exchange) : Prop :=
  ∀ before exchange after timeout, history = before ++ exchange :: after →
    timedOutIn exchange = some timeout →
    ∀ v ∈ votes after, v.epoch = timeout.epoch → v.round ≤ timeout.round → v ∈ votes before

/-! ## What one exchange does -/

/-- The stored safety data enter a later epoch, or keep the last vote of the current one. -/
def Quiet (d d' : SafetyData) : Prop :=
  (∃ e, d.epoch < e ∧ d' = SafetyData.start e) ∨
    (d'.epoch = d.epoch ∧ d'.lastVote = d.lastVote ∧ d.lastVotedRound ≤ d'.lastVotedRound)

theorem Quiet.refl (d : SafetyData) : Quiet d d := .inr ⟨rfl, rfl, Nat.le_refl _⟩

/-- The effects of an exchange on votes, timeouts and the stored safety data. -/
inductive Effect (d : SafetyData) (e : Exchange) (d' : SafetyData) : Prop
  /-- Neither a vote nor a timeout was handed out. -/
  | silent (vote : votedIn e = none) (timeout : timedOutIn e = none) (quiet : Quiet d d')
  /-- The last vote was handed out again. -/
  | repeated (v : Vote) (vote : votedIn e = some v) (timeout : timedOutIn e = none)
      (last : d.lastVote = some v) (stored : d' = d)
  /-- A fresh vote was handed out. -/
  | voted (v : Vote) (vote : votedIn e = some v) (timeout : timedOutIn e = none)
      (epoch_eq : v.epoch = d.epoch) (round_gt : d.lastVotedRound < v.round)
      (epoch_eq' : d'.epoch = d.epoch) (last : d'.lastVote = some v)
      (round_eq : d'.lastVotedRound = v.round)
  /-- A timeout was signed. -/
  | timedOut (t : TwoChainTimeout) (vote : votedIn e = none) (timeout : timedOutIn e = some t)
      (epoch_eq : t.epoch = d.epoch) (epoch_eq' : d'.epoch = d.epoch)
      (last : d'.lastVote = d.lastVote) (round_ge : d.lastVotedRound ≤ t.round)
      (round_eq : d'.lastVotedRound = t.round)

variable {s : SafetyRules}

theorem Restarts.quiet {s' : SafetyRules} (h : Restarts s s') (hcache : s.CacheOk) :
    Quiet s.stored s'.stored := by
  obtain ⟨-, hsame | hstart, -⟩ := h hcache
  · rw [hsame]
    exact Quiet.refl _
  · exact .inl hstart

theorem Reads.quiet {s' : SafetyRules} (h : Reads s s') : Quiet s.stored s'.stored := by
  rw [h.stored]
  exact Quiet.refl _

/-! ## The invariant -/

/-- The history of a run, tied to the stored safety data. -/
structure History (history : List Exchange) (d : SafetyData) : Prop where
  /-- Votes belong to the current epoch or an earlier one. -/
  vote_epoch : ∀ v ∈ votes history, v.epoch ≤ d.epoch
  /-- Votes of the current epoch are not above the last voted round. -/
  vote_round : ∀ v ∈ votes history, v.epoch = d.epoch → v.round ≤ d.lastVotedRound
  /-- The stored vote has been handed out in the current epoch. -/
  last_mem : ∀ v, d.lastVote = some v → v ∈ votes history ∧ v.epoch = d.epoch
  timeout_epoch : ∀ e ∈ history, ∀ t, timedOutIn e = some t → t.epoch ≤ d.epoch
  timeout_round : ∀ e ∈ history, ∀ t, timedOutIn e = some t → t.epoch = d.epoch →
    t.round ≤ d.lastVotedRound
  unique : NoEquivocation history
  sealed : TimeoutsSeal history

theorem History.start (epoch : Nat) : History [] (SafetyData.start epoch) where
  vote_epoch := by simp [votes]
  vote_round := by simp [votes]
  last_mem := by
    intro v h
    cases h
  timeout_epoch := by simp
  timeout_round := by simp
  unique := by
    intro v hv
    simp [votes] at hv
  sealed := by
    intro before e after t h
    simp at h

variable {history : List Exchange}

/-- The vote handed out last repeats one from before every timeout that covers it. -/
theorem TimeoutsSeal.append (h : TimeoutsSeal history)
    (hlast : ∀ v, votedIn e = some v → ∀ before x after t, history = before ++ x :: after →
      timedOutIn x = some t → v.epoch = t.epoch → v.round ≤ t.round → v ∈ votes before) :
    TimeoutsSeal (history ++ [e]) := by
  intro before x after t hsplit htimeout v hv hepoch hround
  rcases List.eq_nil_or_concat after with rfl | ⟨after', e', rfl⟩
  · simp [votes] at hv
  · have hparts : history ++ [e] = (before ++ x :: after') ++ [e'] := by simpa using hsplit
    obtain ⟨hhistory, he⟩ := List.append_inj' hparts rfl
    cases he
    rw [List.concat_eq_append, votes_append, List.mem_append] at hv
    rcases hv with hv | hv
    · exact h before x after' t hhistory htimeout v hv hepoch hround
    · exact hlast v (mem_votes_singleton.mp hv) before x after' t hhistory htimeout hepoch hround

theorem votes_append_silent (history : List Exchange) (h : votedIn e = none) :
    votes (history ++ [e]) = votes history := by
  simp [votes, h]

theorem votes_append_vote (history : List Exchange)
    (h : votedIn e = some v) : votes (history ++ [e]) = votes history ++ [v] := by
  simp [votes, h]

theorem timedOut_before (history : List Exchange) (h : timedOutIn e = none) :
    ∀ x ∈ history ++ [e], ∀ t, timedOutIn x = some t → x ∈ history := by
  intro x hx t ht
  rcases List.mem_append.mp hx with hx | hx
  · exact hx
  · cases List.mem_singleton.mp hx
    rw [h] at ht
    cases ht

/-- An exchange without a vote keeps the invariant if the safety data cover the timeout it may have
signed. -/
theorem History.silent {d d' : SafetyData}
    (h : History history d) (hvote : votedIn e = none) (hquiet : Quiet d d')
    (htimeout : ∀ t, timedOutIn e = some t → t.epoch ≤ d'.epoch ∧
      (t.epoch = d'.epoch → t.round ≤ d'.lastVotedRound)) : History (history ++ [e]) d' := by
  have hvotes := votes_append_silent history hvote
  have hepoch : d.epoch ≤ d'.epoch := by
    rcases hquiet with ⟨e', hlt, rfl⟩ | ⟨heq, -, -⟩
    · exact Nat.le_of_lt hlt
    · exact Nat.le_of_eq heq.symm
  have hround : ∀ epoch round, epoch ≤ d.epoch → (epoch = d.epoch → round ≤ d.lastVotedRound) →
      epoch = d'.epoch → round ≤ d'.lastVotedRound := by
    intro epoch round hle hold heq
    rcases hquiet with ⟨e', hlt, rfl⟩ | ⟨hsame, -, hmono⟩
    · have : epoch = e' := heq
      omega
    · exact Nat.le_trans (hold (heq.trans hsame)) hmono
  refine ⟨?_, ?_, ?_, ?_, ?_, ?_, ?_⟩
  · intro v hv
    rw [hvotes] at hv
    exact Nat.le_trans (h.vote_epoch v hv) hepoch
  · intro v hv
    rw [hvotes] at hv
    exact hround _ _ (h.vote_epoch v hv) (h.vote_round v hv)
  · intro v hlast
    rw [hvotes]
    rcases hquiet with ⟨e', hlt, rfl⟩ | ⟨hsame, hlast', -⟩
    · cases hlast
    · rw [hsame]
      exact h.last_mem v (hlast' ▸ hlast)
  · intro x hx t ht
    rcases List.mem_append.mp hx with hx | hx
    · exact Nat.le_trans (h.timeout_epoch x hx t ht) hepoch
    · cases List.mem_singleton.mp hx
      exact (htimeout t ht).1
  · intro x hx t ht
    rcases List.mem_append.mp hx with hx | hx
    · exact hround _ _ (h.timeout_epoch x hx t ht) (h.timeout_round x hx t ht)
    · cases List.mem_singleton.mp hx
      exact (htimeout t ht).2
  · intro v hv v' hv'
    rw [hvotes] at hv hv'
    exact h.unique v hv v' hv'
  · refine h.sealed.append fun v hv => ?_
    rw [hvote] at hv
    cases hv

/-- Handing out the last vote again keeps the invariant. -/
theorem History.repeated {d : SafetyData}
    (h : History history d) (hvote : votedIn e = some v) (htimeout : timedOutIn e = none)
    (hlast : d.lastVote = some v) : History (history ++ [e]) d := by
  obtain ⟨hmem, -⟩ := h.last_mem v hlast
  have hvotes : ∀ w, w ∈ votes (history ++ [e]) ↔ w ∈ votes history := by
    intro w
    rw [votes_append_vote history hvote, List.mem_append, List.mem_singleton]
    constructor
    · rintro (hw | rfl)
      · exact hw
      · exact hmem
    · exact .inl
  have htimeouts := timedOut_before history htimeout
  refine ⟨?_, ?_, ?_, ?_, ?_, ?_, ?_⟩
  · exact fun w hw => h.vote_epoch w ((hvotes w).mp hw)
  · exact fun w hw => h.vote_round w ((hvotes w).mp hw)
  · exact fun w hw => ⟨(hvotes w).mpr (h.last_mem w hw).1, (h.last_mem w hw).2⟩
  · exact fun x hx t ht => h.timeout_epoch x (htimeouts x hx t ht) t ht
  · exact fun x hx t ht => h.timeout_round x (htimeouts x hx t ht) t ht
  · exact fun w hw w' hw' => h.unique w ((hvotes w).mp hw) w' ((hvotes w').mp hw')
  · refine h.sealed.append fun w hw before x after t hsplit ht hepoch hround => ?_
    rw [hvote] at hw
    cases hw
    -- the vote was handed out before the timeout, or after it and then, again, before it
    have hparts : v ∈ votes before ∨ v ∈ votes after := by
      have hx : votedIn x = none := by
        obtain ⟨⟨faults, call⟩, response⟩ := x
        cases call <;> cases response <;> first | rfl | cases ht
      have hmem' := hmem
      rw [hsplit, ← List.singleton_append, votes_append, votes_append] at hmem'
      simpa [votes, hx] using hmem'
    rcases hparts with hbefore | hafter
    · exact hbefore
    · exact h.sealed before x after t hsplit ht v hafter hepoch hround

/-- A fresh vote keeps the invariant: it is above every vote and timeout of its epoch. -/
theorem History.voted {d d' : SafetyData}
    (h : History history d) (hvote : votedIn e = some v) (htimeout : timedOutIn e = none)
    (hepoch : v.epoch = d.epoch) (hgt : d.lastVotedRound < v.round) (hepoch' : d'.epoch = d.epoch)
    (hlast : d'.lastVote = some v) (hround : d'.lastVotedRound = v.round) :
    History (history ++ [e]) d' := by
  have hvotes := votes_append_vote history hvote
  have hmem : ∀ w, w ∈ votes (history ++ [e]) → w ∈ votes history ∨ w = v := by
    intro w hw
    rw [hvotes] at hw
    simpa using hw
  have hfresh : ∀ w ∈ votes history, w.epoch = v.epoch → w.round ≠ v.round := by
    intro w hw heq hsame
    have := h.vote_round w hw (heq.trans hepoch)
    omega
  have htimeouts := timedOut_before history htimeout
  refine ⟨?_, ?_, ?_, ?_, ?_, ?_, ?_⟩
  · intro w hw
    rcases hmem w hw with hw | rfl
    · exact hepoch' ▸ h.vote_epoch w hw
    · omega
  · intro w hw heq
    rcases hmem w hw with hw | rfl
    · have := h.vote_round w hw (heq.trans hepoch')
      omega
    · omega
  · intro w hw
    rw [hlast] at hw
    cases hw
    exact ⟨by rw [hvotes]; simp, hepoch.trans hepoch'.symm⟩
  · exact fun x hx t ht => hepoch' ▸ h.timeout_epoch x (htimeouts x hx t ht) t ht
  · intro x hx t ht heq
    have := h.timeout_round x (htimeouts x hx t ht) t ht (heq.trans hepoch')
    omega
  · intro w hw w' hw' heq hsame
    rcases hmem w hw with hw | rfl <;> rcases hmem w' hw' with hw' | rfl
    · exact h.unique w hw w' hw' heq hsame
    · exact absurd hsame (hfresh w hw heq)
    · exact absurd hsame.symm (hfresh w' hw' heq.symm)
    · rfl
  · refine h.sealed.append fun w hw before x after t hsplit ht heq hle => ?_
    rw [hvote] at hw
    cases hw
    have hx : x ∈ history := by
      rw [hsplit]
      simp
    have := h.timeout_round x hx t ht (heq.symm.trans hepoch)
    omega

theorem History.effect {d d' : SafetyData}
    (h : History history d) (heffect : Effect d e d') : History (history ++ [e]) d' := by
  cases heffect with
  | silent vote timeout quiet =>
    refine h.silent vote quiet fun t ht => ?_
    rw [timeout] at ht
    cases ht
  | repeated v vote timeout last stored =>
    rw [stored]
    exact h.repeated vote timeout last
  | voted v vote timeout epoch_eq round_gt epoch_eq' last round_eq =>
    exact h.voted vote timeout epoch_eq round_gt epoch_eq' last round_eq
  | timedOut t vote timeout epoch_eq epoch_eq' last round_ge round_eq =>
    refine h.silent vote (.inr ⟨epoch_eq', last, by omega⟩) fun t' ht' => ?_
    rw [timeout] at ht'
    cases ht'
    omega

/-! ## The calls -/

variable [Crypto] {maybeTc : Option TwoChainTimeoutCertificate} {faults : StorageFaults}

theorem VoteCall.effect {now : Nat} {proposal : VoteProposal}
    {r : EStateM.Result Error SafetyRules Vote} (h : VoteCall s proposal maybeTc r) :
    Effect s.stored
      ((faults, .constructAndSignVoteTwoChain now proposal maybeTc), (respond .vote r).1)
      (finalState r).stored := by
  cases h with
  | stopped reads | writeFailed reads => exact .silent rfl rfl reads.quiet
  | repeated reads last => exact .repeated _ rfl rfl last reads.stored
  | issued reads fresh =>
    -- the proposed block info carries the epoch and the round of the block
    refine .voted _ rfl rfl ?_ ?_ ?_ ?_ ?_
    · rw [Vote.epoch, fresh.voteData_eq]
      exact fresh.epoch_eq
    · rw [Vote.round, fresh.voteData_eq]
      exact fresh.round_gt
    · rw [finalState_ok, setStored_stored, fresh.data_eq]
      rfl
    · rw [finalState_ok, setStored_stored, fresh.data_eq]
      rfl
    · rw [finalState_ok, setStored_stored, fresh.data_eq, Vote.round, fresh.voteData_eq]
      rfl

theorem TimeoutCall.effect {timeout : TwoChainTimeout}
    {r : EStateM.Result Error SafetyRules Signature} (h : TimeoutCall s timeout maybeTc r) :
    Effect s.stored ((faults, .signTimeoutWithQc timeout maybeTc), (respond .signature r).1)
      (finalState r).stored := by
  cases h with
  | stopped reads | writeFailed reads => exact .silent rfl rfl reads.quiet
  | signFailed reads fresh =>
    refine .silent rfl rfl (.inr ?_)
    rw [finalState_error, setStored_stored, fresh.data_eq]
    exact ⟨rfl, rfl, fresh.round_ge⟩
  | issued reads fresh =>
    refine .timedOut timeout rfl rfl fresh.epoch_eq ?_ ?_ fresh.round_ge ?_
    all_goals
      rw [finalState_ok, setStored_stored, fresh.data_eq]
      rfl

theorem OrderVoteCall.effect
    {proposal : OrderVoteProposal} {r : EStateM.Result Error SafetyRules OrderVote}
    (h : OrderVoteCall s proposal r) :
    Effect s.stored ((faults, .constructAndSignOrderVote proposal), (respond .orderVote r).1)
      (finalState r).stored := by
  cases h with
  | stopped reads | writeFailed reads => exact .silent rfl rfl reads.quiet
  | issued reads fresh =>
    refine .silent rfl rfl (.inr ?_)
    rw [finalState_ok, setStored_stored, fresh.data_eq]
    exact ⟨rfl, rfl, Nat.le_refl _⟩

variable [LedgerApi]

theorem step_effect (hcache : s.CacheOk) (input : StorageFaults × Call) :
    Effect s.stored (input, (s.step input).1) (s.step input).2.stored := by
  obtain ⟨faults, call⟩ := input
  -- the calls that sign neither votes nor timeouts
  have hsilent {α : Type} {wrap : α → Response} {r : EStateM.Result Error SafetyRules α}
      (hvote : votedIn ((faults, call), (respond wrap r).1) = none)
      (htimeout : timedOutIn ((faults, call), (respond wrap r).1) = none)
      (hquiet : Quiet s.stored (finalState r).stored) :
      Effect s.stored ((faults, call), (respond wrap r).1) (respond wrap r).2.stored := by
    rw [respond_snd]
    exact .silent hvote htimeout hquiet
  cases call with
  | initializeFrom proof =>
    refine hsilent ?_ ?_ ((restarts_guardedInitialize faults proof s).quiet hcache)
    · cases guardedInitialize faults proof s <;> rfl
    · cases guardedInitialize faults proof s <;> rfl
  | signProposal blockData =>
    refine hsilent ?_ ?_ (Reads.quiet (moves_guardedSignProposal faults blockData s))
    · cases guardedSignProposal faults blockData s <;> rfl
    · cases guardedSignProposal faults blockData s <;> rfl
  | constructAndSignVoteTwoChain now proposal maybeTc =>
    rw [step, respond_snd]
    exact (voteCall hcache faults now proposal maybeTc).effect
  | signTimeoutWithQc timeout maybeTc =>
    rw [step, respond_snd]
    exact (timeoutCall hcache faults timeout maybeTc).effect
  | constructAndSignOrderVote proposal =>
    rw [step, respond_snd]
    exact (orderVoteCall hcache faults proposal).effect
  | signCommitVote li newLi =>
    refine hsilent ?_ ?_ (Reads.quiet (moves_guardedSignCommitVote li newLi s))
    · cases guardedSignCommitVote li newLi s <;> rfl
    · cases guardedSignCommitVote li newLi s <;> rfl
  | consensusState traced =>
    refine hsilent ?_ ?_ (Reads.quiet (moves_guardedConsensusState faults traced s))
    · cases guardedConsensusState faults traced s <;> rfl
    · cases guardedConsensusState faults traced s <;> rfl
  | restart => exact .silent rfl rfl ((restarts_restarted s).quiet hcache)

/-- In every run from a newly set up storage, the votes handed out never equivocate, and a timeout
seals the rounds up to its own. -/
theorem no_equivocation (enable : Bool) (author : Author) (consensusKey : PrivateKey)
    (explicitKeys : List (PublicKey × PrivateKey)) (waypoint : Waypoint) (warm : Bool)
    (inputs : List (StorageFaults × Call)) :
    let store := InternalStore.new author consensusKey explicitKeys waypoint
    let history := (run step (opened enable store warm) inputs).1
    NoEquivocation history ∧ TimeoutsSeal history := by
  intro store history
  let Inv : List Exchange → SafetyRules → Prop := fun h s => s.CacheOk ∧ History h s.stored
  have hstep : ∀ h s input, Inv h s → Inv (h ++ [(input, (s.step input).1)]) (s.step input).2 := by
    rintro h s input ⟨hcache, hhistory⟩
    exact ⟨(step_advances s input hcache).1, hhistory.effect (step_effect hcache input)⟩
  have hstart : Inv [] (opened enable store warm) :=
    ⟨cacheOk_opened enable store warm, History.start 1⟩
  have hinv := run_induction hstep inputs hstart
  exact ⟨hinv.2.unique, hinv.2.sealed⟩

end Liquent.SafetyRules
