import Senko.Cluster.GossipSteps
import Senko.Lib.Quorum
import Senko.Lib.Run

/-!
# Senko — elections of new primaries

A cluster of nodes that tick and receive the messages that were sent, in any order and any number of
times. A primary remembers only the last epoch it has voted in, so it can vote twice in an epoch if
a request with another epoch comes between. Where no request comes back to an epoch in which the
primary has voted for another node, before its last one, it votes once in an epoch, and the
majorities of two candidates with the same list of primaries share a voter.
-/

namespace Senko.Cluster

open List

variable {request : FailoverAuthRequest} {senderId v c : NodeId} {out out' : List Output}
  {s t u : GossipState} {draws : Draws} {nowMs : Nat} {listed : NodeId → Nat → Finset NodeId}

namespace GossipState

/-! ## Votes in a call -/

/-- **What a call does to votes** if none is given and none is counted: nothing, or the node
promotes itself. -/
inductive VoteEffect (s : GossipState) (out : List Output) (t : GossipState) : Prop where
  | quiet (hkeeps : KeepsVotes s t) (hplain : Plain out)
  | promoted (before : GossipState) (campaign : FailoverCampaign) (pre post : List Output)
      (hkeeps : KeepsVotes s before) (hout : out = pre ++ .promoted before :: post)
      (hpre : Plain pre) (hpost : Plain post) (hstarted : before.failover = some campaign)
      (helected : before.totalPrimaryCount ≤ 1 ∨ before.hasEnoughVotes = true)
      (hafter : KeepsVotes before t)

theorem Effect.voteEffect (h : Effect s out t) : VoteEffect s out t := by
  cases h with
  | calm hcalm hplain => exact .quiet hcalm.toKeepsVotes hplain
  | promoted before campaign pre post hcalm hout hpre hpost hafter =>
    refine .promoted before campaign pre post hcalm.toKeepsVotes hout hpre hpost hafter.started
      hafter.elected ⟨hafter.localNodeId, hafter.votedEpoch, ?_⟩
    rintro voter epoch ⟨campaign', hcampaign', -⟩
    rw [hafter.failover] at hcampaign'
    cases hcampaign'

theorem VoteEffect.after (h : VoteEffect t out u) (hkeeps : KeepsVotes s t) (hplain : Plain out') :
    VoteEffect s (out' ++ out) u := by
  cases h with
  | quiet hkeeps' hplain' => exact .quiet (hkeeps.trans hkeeps') (hplain.append hplain')
  | promoted before campaign pre post hkeeps' hout hpre hpost hstarted helected hafter =>
    subst hout
    exact .promoted before campaign (out' ++ pre) post (hkeeps.trans hkeeps')
      (append_assoc _ _ _).symm (hplain.append hpre) hpost hstarted helected hafter

theorem VoteEffect.before (h : VoteEffect s out t) (hkeeps : KeepsVotes t u) :
    VoteEffect s out u := by
  cases h with
  | quiet hkeeps' hplain' => exact .quiet (hkeeps'.trans hkeeps) hplain'
  | promoted before campaign pre post hkeeps' hout hpre hpost hstarted helected hafter =>
    exact .promoted before campaign pre post hkeeps' hout hpre hpost hstarted helected
      (hafter.trans hkeeps)

/-- Nothing is sent but plain messages, and promotions that had the votes. -/
theorem VoteEffect.outputs (h : VoteEffect s out t) : KeepsVotes s t ∧ ∀ o ∈ out, o.IsPlain ∨
    ∃ before, o = .promoted before ∧ ∃ campaign, before.failover = some campaign ∧
      KeepsVotes s before ∧ (before.totalPrimaryCount ≤ 1 ∨ before.hasEnoughVotes = true) := by
  cases h with
  | quiet hkeepsVotes hplain => exact ⟨hkeepsVotes, fun o ho => .inl (hplain o ho)⟩
  | promoted before campaign pre post hbefore hout hpre hpost hstarted helected hafter =>
    refine ⟨hbefore.trans hafter, fun o ho => ?_⟩
    rw [hout] at ho
    rcases mem_append.1 ho with ho | ho
    · exact .inl (hpre o ho)
    · rcases mem_cons.1 ho with rfl | ho
      · exact .inr ⟨before, rfl, campaign, hstarted, hbefore, helected⟩
      · exact .inl (hpost o ho)

theorem voteEffect_applyMeta {senderAddr : SocketAddr} {incoming : NodeMeta} :
    VoteEffect s (s.applyMeta draws senderId senderAddr incoming).1
      (s.applyMeta draws senderId senderAddr incoming).2 := by
  have hcheck : Calm s (s.checkUpdate draws incoming senderAddr).2.2 ∧ Plain _ := calm_checkUpdate
  obtain ⟨hcalm, hplain⟩ := hcheck
  unfold applyMeta
  dsimp only
  split
  · exact .quiet hcalm.toKeepsVotes hplain
  · generalize (s.checkUpdate draws incoming senderAddr).2.2 = t at hcalm
    have hfail : Effect (t.storeUpdate incoming)
        ((t.storeUpdate incoming).failUpdate draws incoming).1 _ := effect_failUpdate
    exact (hfail.voteEffect.after (hcalm.toKeepsVotes.trans keepsVotes_storeUpdate) hplain).before
      (calm_stepDown.trans calm_noteSender).toKeepsVotes

/-- A vote that is given. -/
structure Votes (s : GossipState) (senderId : NodeId) (request : FailoverAuthRequest)
    (out : List Output) (t : GossipState) : Prop where
  isNew : s.votedEpoch ≠ some request.configEpoch
  state : t = { s with votedEpoch := some request.configEpoch }
  out : ∃ addr, out = [.send ⟨.udp, addr, ⟨⟨.failoverAuthAck, s.localNodeId, s.localConfigEpoch⟩,
    .failoverAuthAck ⟨senderId, request.configEpoch⟩⟩⟩]

theorem votes_processFailoverAuth {sourceAddr : SocketAddr} :
    s.processFailoverAuth senderId request sourceAddr = ([], s) ∨
      Votes s senderId request (s.processFailoverAuth senderId request sourceAddr).1
        (s.processFailoverAuth senderId request sourceAddr).2 := by
  unfold processFailoverAuth
  split
  · exact .inl rfl
  split
  · exact .inl rfl
  rename_i hnew
  split
  · split
    · exact .inr ⟨hnew, rfl, sourceAddr, rfl⟩
    · exact .inl rfl
  · exact .inl rfl

/-- **Votes in a call**: a vote is given on a request, a vote is counted, or neither. -/
theorem votes_call (call : Call) : VoteEffect s (s.call call).1 (s.call call).2 ∨
      (∃ message sourceAddr nowMs draws request, call = .message message sourceAddr nowMs draws ∧
        message.body = .failoverAuth request ∧
        Votes s message.header.senderId request (s.call call).1 (s.call call).2) ∨
      ∃ message sourceAddr nowMs draws ack campaign,
        call = .message message sourceAddr nowMs draws ∧ message.body = .failoverAuthAck ack ∧
        s.failover = some campaign ∧ ack.requestingNodeId = s.localNodeId ∧
        ack.configEpoch = campaign.requestedEpoch ∧
        VoteEffect (s.countVote message.header.senderId campaign) (s.call call).1
          (s.call call).2 := by
  cases call with
  | tick nowMs draws => exact .inl effect_tick.voteEffect
  | message message sourceAddr nowMs draws =>
    obtain ⟨header, body⟩ := message
    cases body with
    | empty => exact .inl (.quiet (.refl s) plain_nil)
    | gossip entries =>
      left
      have hgossip : Calm s (s.handleGossip draws header entries sourceAddr nowMs).2 ∧ _ :=
        calm_handleGossip
      obtain ⟨hcalm, hplain⟩ := hgossip
      refine .quiet hcalm.toKeepsVotes ?_
      show Plain ((s.handleGossip draws header entries sourceAddr nowMs).1.toOption.getD [])
      cases hresult : (s.handleGossip draws header entries sourceAddr nowMs).1 with
      | error e => exact plain_nil
      | ok out => exact hplain out hresult
    | update update =>
      left
      rw [call_update]
      cases update.toMeta with
      | error e => exact .quiet (.refl s) plain_nil
      | ok incoming => exact voteEffect_applyMeta
    | fail failedNodeId => exact .inl effect_fail.voteEffect
    | failoverAuth request =>
      have hauth : s.processFailoverAuth header.senderId request sourceAddr = ([], s) ∨ _ :=
        votes_processFailoverAuth
      rcases hauth with hnone | hvotes
      · left
        have hcall : s.call (.message ⟨header, .failoverAuth request⟩ sourceAddr nowMs draws) =
            s.processFailoverAuth header.senderId request sourceAddr := rfl
        rw [hcall, hnone]
        exact .quiet (.refl s) plain_nil
      · exact .inr (.inl ⟨_, sourceAddr, nowMs, draws, request, rfl, rfl, hvotes⟩)
    | failoverAuthAck ack =>
      have hack : Effect s (s.processFailoverAck header.senderId ack).1 _ ∨ _ :=
        effect_processFailoverAck
      rcases hack with heffect | ⟨campaign, hcampaign, hself, hepoch, heffect⟩
      · exact .inl heffect.voteEffect
      · exact .inr (.inr ⟨_, sourceAddr, nowMs, draws, ack, campaign, rfl, rfl, hcampaign, hself,
          hepoch, heffect.voteEffect⟩)

/-- The primaries that a node lists. -/
def primaries (s : GossipState) : Finset NodeId :=
  ((s.cluster.iter.filter fun node => node.role = .primary).map NodeMeta.id).toFinset

theorem card_primaries : s.primaries.card = s.totalPrimaryCount := by
  have hnodup : ((s.cluster.iter.filter fun node => node.role = .primary).map NodeMeta.id).Nodup :=
    s.cluster.nodes.distinct.sublist (filter_sublist.map _)
  rw [primaries, toFinset_card_of_nodup hnodup, length_map, totalPrimaryCount,
    countP_eq_length_filter]

theorem votes_of_hasEnoughVotes {campaign : FailoverCampaign} (h : s.hasEnoughVotes = true)
    (hcampaign : s.failover = some campaign) (hmany : 2 ≤ s.totalPrimaryCount) :
    s.primaries.card / 2 + 1 ≤ campaign.votes.card := by
  have henough : s.requiredFailoverVotes ≤
      s.failoverVoteCount campaign.failedPrimary campaign.votes := by
    rw [hasEnoughVotes, hcampaign] at h
    simpa using h
  rw [requiredFailoverVotes, if_neg (by omega), failoverVoteCount, if_neg (by omega)] at henough
  rw [card_primaries]
  exact henough

end GossipState

/-! ## Clusters -/

open GossipState

variable {ι : Type}

/-- Nodes, the messages that were sent so far, and the states in which nodes have promoted
themselves. -/
structure System (ι : Type) where
  addr : ι → SocketAddr
  nodes : ι → GossipState
  sent : List OutboundEnvelope := []
  promotions : List (ι × GossipState) := []

/-- A node ticks, or a message that was sent is delivered. Messages stay, so that they can be
delivered late, in any order and more than once, or never. -/
inductive Action (ι : Type) where
  | tick (node : ι) (nowMs : Nat) (draws : Draws)
  | deliver (node : ι) (envelope : OutboundEnvelope) (sourceAddr : SocketAddr) (nowMs : Nat)
      (draws : Draws)

namespace Action

def node : Action ι → ι
  | tick node _ _ | deliver node _ _ _ _ => node

def call : Action ι → Call
  | tick _ nowMs draws => .tick nowMs draws
  | deliver _ envelope sourceAddr nowMs draws => .message envelope.message sourceAddr nowMs draws

end Action

def envelopes (out : List Output) : List OutboundEnvelope :=
  out.filterMap fun
    | .send envelope => some envelope
    | .promoted _ => none

def promotionsIn (out : List Output) : List GossipState :=
  out.filterMap fun
    | .send _ => none
    | .promoted before => some before

namespace System

def result (sys : System ι) (action : Action ι) : List Output × GossipState :=
  (sys.nodes action.node).call action.call

def act [DecidableEq ι] (sys : System ι) (action : Action ι) : System ι where
  addr := sys.addr
  nodes := Function.update sys.nodes action.node (sys.result action).2
  sent := sys.sent ++ envelopes (sys.result action).1
  promotions := sys.promotions ++
    (promotionsIn (sys.result action).1).map fun before => (action.node, before)

variable (sys : System ι)

/-- Only messages that were sent are delivered, and only where they were sent to. -/
def Enabled : Action ι → Prop
  | .tick _ _ _ => True
  | .deliver node envelope _ _ _ => envelope ∈ sys.sent ∧ envelope.addr = sys.addr node

/-- The membership is fixed and known to all, there are at least two primaries, and nothing has
happened yet. -/
structure Initial : Prop where
  distinct : Function.Injective fun i => (sys.nodes i).localNodeId
  members : ∀ i id, ((sys.nodes i).getNode id).isSome ↔ ∃ j, (sys.nodes j).localNodeId = id
  primaries : ∀ i, 2 ≤ (sys.nodes i).totalPrimaryCount
  votedEpoch : ∀ i, (sys.nodes i).votedEpoch = none
  failover : ∀ i, (sys.nodes i).failover = none
  sent : sys.sent = []
  promotions : sys.promotions = []

/-- A vote that was sent. -/
def Voted (voter : NodeId) (epoch : Nat) (candidate : NodeId) : Prop :=
  ∃ envelope ∈ sys.sent, envelope.message.header.senderId = voter ∧
    envelope.message.body = .failoverAuthAck ⟨candidate, epoch⟩

/-- **Elections are safe**: no voter votes for two candidates in one epoch, and no two nodes promote
themselves for the same failed primary with the same epoch. -/
structure ElectionSafe : Prop where
  votes : VotesOnce sys.Voted
  promotions : ∀ i a j b, (i, a) ∈ sys.promotions → (j, b) ∈ sys.promotions →
    a.failover.map FailoverCampaign.failedPrimary = b.failover.map FailoverCampaign.failedPrimary →
      a.nextEpoch = b.nextEpoch → i = j

/-- A request reaches a node that has not voted for another one in its epoch, unless this is the
last epoch it has voted in. -/
def Unvoted : Action ι → Prop
  | .tick _ _ _ => True
  | .deliver node envelope _ _ _ =>
    match envelope.message.body with
    | .failoverAuth request =>
      (sys.nodes node).votedEpoch ≠ some request.configEpoch → ∀ candidate,
        sys.Voted (sys.nodes node).localNodeId request.configEpoch candidate →
          candidate = envelope.message.header.senderId
    | _ => True

/-- A node that promotes itself still has the epoch from which it made its request, lists the
primaries that are `listed` for the failed one and the epoch, at least two, and has votes only of
them. -/
def ListsPrimaries (listed : NodeId → Nat → Finset NodeId) (before : GossipState) : Prop :=
  ∀ campaign ∈ before.failover, campaign.requestedEpoch = before.nextEpoch ∧
    before.primaries = listed campaign.failedPrimary before.nextEpoch ∧
      campaign.votes ⊆ before.primaries ∧ 2 ≤ before.totalPrimaryCount
deriving Decidable

/-- **The condition on an action.** -/
structure KeepsElection (listed : NodeId → Nat → Finset NodeId) (action : Action ι) : Prop where
  enabled : sys.Enabled action
  unvoted : sys.Unvoted action
  promotion : ∀ before ∈ promotionsIn (sys.result action).1, ListsPrimaries listed before

section Decidable

variable {sys} {action : Action ι}

/-- The vote that a message carries. -/
def voteIn (message : ClusterMessage) : Option FailoverAuthAck :=
  match message.body with
  | .failoverAuthAck ack => some ack
  | _ => none

theorem mem_voteIn {message : ClusterMessage} {ack : FailoverAuthAck} :
    ack ∈ voteIn message ↔ message.body = .failoverAuthAck ack := by
  obtain ⟨header, body⟩ := message
  cases body <;> simp [voteIn, eq_comm]

instance {v c : NodeId} {e : Nat} :
    Decidable (∀ candidate, sys.Voted v e candidate → candidate = c) :=
  decidable_of_iff (∀ envelope ∈ sys.sent, envelope.message.header.senderId = v →
      ∀ ack ∈ voteIn envelope.message, ack.configEpoch = e → ack.requestingNodeId = c)
    ⟨fun h candidate ⟨envelope, hsent, hsender, hbody⟩ =>
        h envelope hsent hsender ⟨candidate, e⟩ (mem_voteIn.2 hbody) rfl,
      fun h envelope hsent hsender _ hack hepoch =>
        h _ ⟨envelope, hsent, hsender, hepoch ▸ mem_voteIn.1 hack⟩⟩

instance [DecidableEq ι] : Decidable (sys.Enabled action) := by
  cases action <;> unfold Enabled <;> infer_instance

instance : Decidable (sys.Unvoted action) :=
  match action with
  | .tick _ _ _ => inferInstanceAs (Decidable True)
  | .deliver node ⟨_, _, ⟨header, .failoverAuth request⟩⟩ _ _ _ =>
    inferInstanceAs (Decidable ((sys.nodes node).votedEpoch ≠ some request.configEpoch →
      ∀ candidate, sys.Voted (sys.nodes node).localNodeId request.configEpoch candidate →
        candidate = header.senderId))
  | .deliver _ ⟨_, _, ⟨_, .empty⟩⟩ _ _ _ | .deliver _ ⟨_, _, ⟨_, .gossip _⟩⟩ _ _ _
  | .deliver _ ⟨_, _, ⟨_, .update _⟩⟩ _ _ _ | .deliver _ ⟨_, _, ⟨_, .fail _⟩⟩ _ _ _
  | .deliver _ ⟨_, _, ⟨_, .failoverAuthAck _⟩⟩ _ _ _ => inferInstanceAs (Decidable True)

instance [DecidableEq ι] : Decidable (sys.KeepsElection listed action) :=
  decidable_of_iff (sys.Enabled action ∧ sys.Unvoted action ∧
      ∀ before ∈ promotionsIn (sys.result action).1, ListsPrimaries listed before)
    ⟨fun ⟨h, h', h''⟩ => ⟨h, h', h''⟩, fun ⟨h, h', h''⟩ => ⟨h, h', h''⟩⟩

end Decidable

/-- The votes that were sent and counted. -/
structure Sound (ids : ι → NodeId) (listed : NodeId → Nat → Finset NodeId) : Prop where
  localNodeId : ∀ i, (sys.nodes i).localNodeId = ids i
  once : VotesOnce sys.Voted
  counted : ∀ i v e, (sys.nodes i).Counted v e → sys.Voted v e (ids i)
  winners : ∀ i before, (i, before) ∈ sys.promotions → ∃ campaign,
    before.failover = some campaign ∧
      Wins sys.Voted (listed campaign.failedPrimary before.nextEpoch) before.nextEpoch (ids i)

variable {sys} {ids : ι → NodeId} {action : Action ι}

theorem Initial.sound (h : sys.Initial) :
    sys.Sound (fun i => (sys.nodes i).localNodeId) listed := by
  have hnone : ∀ v e c, ¬ sys.Voted v e c := by
    rintro v e c ⟨envelope, hmem, -⟩
    rw [h.sent] at hmem
    cases hmem
  refine ⟨fun _ => rfl, fun v e c c' hv => absurd hv (hnone v e c), ?_, ?_⟩
  · rintro i v e ⟨campaign, hcampaign, -⟩
    rw [h.failover] at hcampaign
    cases hcampaign
  · intro i before hmem
    rw [h.promotions] at hmem
    cases hmem

theorem Sound.electionSafe (hsound : sys.Sound ids listed) (hdistinct : Function.Injective ids) :
    sys.ElectionSafe := by
  refine ⟨hsound.once, ?_⟩
  intro i a j b ha hb hfailed hepoch
  obtain ⟨campaign, hcampaign, hwins⟩ := hsound.winners i a ha
  obtain ⟨campaign', hcampaign', hwins'⟩ := hsound.winners j b hb
  rw [hcampaign, hcampaign'] at hfailed
  have hsame : campaign.failedPrimary = campaign'.failedPrimary := Option.some.inj hfailed
  rw [hsame, hepoch] at hwins
  exact hdistinct (hwins.unique hsound.once hwins')

/-- The vote that is counted now was delivered. -/
theorem voted_of_countVote {node : ι} {envelope : OutboundEnvelope} {campaign : FailoverCampaign}
    (hcounted : ∀ v e, (sys.nodes node).Counted v e → sys.Voted v e c)
    (hcampaign : (sys.nodes node).failover = some campaign) (hsent : envelope ∈ sys.sent)
    (hbody : envelope.message.body = .failoverAuthAck ⟨c, campaign.requestedEpoch⟩) (v : NodeId)
    (e : Nat)
    (h : ((sys.nodes node).countVote envelope.message.header.senderId campaign).Counted v e) :
    sys.Voted v e c := by
  obtain ⟨campaign', ⟨⟩, rfl, hv⟩ := h
  rcases Finset.mem_insert.1 hv with rfl | hv
  · exact ⟨envelope, hsent, rfl, hbody⟩
  · exact hcounted v _ ⟨campaign, hcampaign, rfl, hv⟩

/-! ## Steps -/

variable [DecidableEq ι]

theorem nodes_act (i : ι) :
    (sys.act action).nodes i = if i = action.node then (sys.result action).2 else sys.nodes i :=
  Function.update_apply ..

/-- What the node that acts keeps is kept everywhere. -/
theorem congr_nodes_act {β : Type} {f : GossipState → β}
    (h : f (sys.result action).2 = f (sys.nodes action.node)) (i : ι) :
    f ((sys.act action).nodes i) = f (sys.nodes i) := by
  rw [nodes_act]
  split
  · rename_i heq
    rw [h, heq]
  · rfl

theorem Voted.act {e : Nat} (h : sys.Voted v e c) : (sys.act action).Voted v e c := by
  obtain ⟨envelope, hmem, h⟩ := h
  exact ⟨envelope, mem_append_left _ hmem, h⟩

theorem mem_envelopes {envelope : OutboundEnvelope} :
    envelope ∈ envelopes out ↔ .send envelope ∈ out := by
  unfold envelopes
  rw [mem_filterMap]
  constructor
  · rintro ⟨envelope | before, ho, ⟨⟩⟩
    exact ho
  · exact fun h => ⟨_, h, rfl⟩

theorem mem_promotionsIn {before : GossipState} :
    before ∈ promotionsIn out ↔ .promoted before ∈ out := by
  unfold promotionsIn
  rw [mem_filterMap]
  constructor
  · rintro ⟨envelope | before, ho, ⟨⟩⟩
    exact ho
  · exact fun h => ⟨_, h, rfl⟩

/-- What is sent besides votes adds no vote. -/
theorem voted_act_iff {e : Nat}
    (hplain : ∀ o ∈ (sys.result action).1, o.IsPlain ∨ ∃ before, o = .promoted before) :
    (sys.act action).Voted v e c ↔ sys.Voted v e c := by
  refine ⟨?_, .act⟩
  rintro ⟨envelope, hmem, hsender, hbody⟩
  rcases mem_append.1 hmem with hold | hnew
  · exact ⟨envelope, hold, hsender, hbody⟩
  · rcases hplain _ (mem_envelopes.1 hnew) with hplain | ⟨before, h⟩
    · unfold Output.IsPlain at hplain
      simp only [hbody] at hplain
    · cases h

/-- No vote is given: what is counted in the state `s` was sent. -/
theorem Sound.act_of_voteEffect (hsound : sys.Sound ids listed) {s : GossipState}
    (hkeeps : sys.KeepsElection listed action)
    (hid : s.localNodeId = (sys.nodes action.node).localNodeId)
    (hcounted : ∀ v e, s.Counted v e → sys.Voted v e (ids action.node))
    (heffect : VoteEffect s (sys.result action).1 (sys.result action).2) :
    (sys.act action).Sound ids listed := by
  obtain ⟨hstate, hout⟩ := heffect.outputs
  have hiff : ∀ v e c, (sys.act action).Voted v e c ↔ sys.Voted v e c :=
    fun _ _ _ => voted_act_iff fun o ho => (hout o ho).imp_right fun ⟨before, h, _⟩ => ⟨before, h⟩
  refine ⟨?_, ?_, ?_, ?_⟩
  · intro i
    exact (congr_nodes_act (hstate.localNodeId.trans hid) i).trans (hsound.localNodeId i)
  · intro v e c c' hv hv'
    exact hsound.once v e c c' ((hiff v e c).1 hv) ((hiff v e c').1 hv')
  · intro i v e hv
    rw [hiff]
    rw [nodes_act] at hv
    split at hv
    · rename_i heq
      subst heq
      exact hcounted v e (hstate.counted v e hv)
    · exact hsound.counted i v e hv
  · intro i before hmem
    rcases mem_append.1 hmem with hold | hnew
    · obtain ⟨campaign, hcampaign, hwins⟩ := hsound.winners i before hold
      exact ⟨campaign, hcampaign, hwins.mono fun v hv => .act hv⟩
    -- a new promotion: the campaign had the votes of a majority before the node took over
    obtain ⟨before', hbefore', ⟨⟩⟩ := mem_map.1 hnew
    obtain ⟨before, ⟨⟩, campaign, hcampaign, hcounts, helected⟩ :=
      (hout _ (mem_promotionsIn.1 hbefore')).resolve_left id
    obtain ⟨hepoch, hlisted, hvotes, hmany⟩ := hkeeps.promotion before hbefore' campaign hcampaign
    refine ⟨campaign, hcampaign, campaign.votes, ?_, ?_, ?_⟩
    · rw [← hlisted]
      exact hvotes
    · rw [← hlisted]
      rcases helected with hfew | henough
      · omega
      · exact votes_of_hasEnoughVotes henough hcampaign hmany
    · intro v hv
      exact .act (hcounted v _ (hcounts.counted v _ ⟨campaign, hcampaign, hepoch, hv⟩))

/-- A vote is given: the voter has not voted for another node in this epoch. -/
theorem Sound.act_of_votes (hsound : sys.Sound ids listed) {candidate : NodeId}
    (hfirst : (sys.nodes action.node).votedEpoch ≠ some request.configEpoch →
      ∀ c, sys.Voted (ids action.node) request.configEpoch c → c = candidate)
    (hvotes : Votes (sys.nodes action.node) candidate request (sys.result action).1
      (sys.result action).2) : (sys.act action).Sound ids listed := by
  obtain ⟨hnew, hstate, addr, hout⟩ := hvotes
  have hearlier := hfirst hnew
  have hiff : ∀ v e c, (sys.act action).Voted v e c ↔
      sys.Voted v e c ∨ v = ids action.node ∧ e = request.configEpoch ∧ c = candidate := by
    intro v e c
    constructor
    · rintro ⟨envelope, hmem, hsender, hbody⟩
      rcases mem_append.1 hmem with hold | hnew
      · exact .inl ⟨envelope, hold, hsender, hbody⟩
      · rw [mem_envelopes, hout, mem_singleton] at hnew
        cases hnew
        cases hbody
        exact .inr ⟨hsender.symm.trans (hsound.localNodeId _), rfl, rfl⟩
    · rintro (hold | ⟨rfl, rfl, rfl⟩)
      · exact hold.act
      · have hmem : .send _ ∈ (sys.result action).1 := hout ▸ mem_singleton_self _
        exact ⟨_, mem_append_right _ (mem_envelopes.2 hmem), hsound.localNodeId _, rfl⟩
  refine ⟨?_, ?_, ?_, ?_⟩
  · intro i
    exact (congr_nodes_act (by rw [hstate]; rfl) i).trans (hsound.localNodeId i)
  · intro v e c c' hv hv'
    rcases (hiff v e c).1 hv with hold | ⟨rfl, rfl, rfl⟩
    · rcases (hiff v e c').1 hv' with hold' | ⟨rfl, rfl, rfl⟩
      · exact hsound.once v e c c' hold hold'
      · exact hearlier c hold
    · rcases (hiff _ _ c').1 hv' with hold' | ⟨-, -, rfl⟩
      · exact (hearlier c' hold').symm
      · rfl
  · intro i v e hv
    have hsame : ((sys.act action).nodes i).failover = (sys.nodes i).failover :=
      congr_nodes_act (by rw [hstate]) i
    rw [Counted, hsame] at hv
    exact (hsound.counted i v e hv).act
  · intro i before hmem
    have hnone : promotionsIn (sys.result action).1 = [] := by
      rw [hout]
      rfl
    have hold : (i, before) ∈ sys.promotions := by simpa [System.act, hnone] using hmem
    obtain ⟨campaign, hcampaign, hwins⟩ := hsound.winners i before hold
    exact ⟨campaign, hcampaign, hwins.mono fun v hv => .act hv⟩

theorem Sound.act (hsound : sys.Sound ids listed) (hkeeps : sys.KeepsElection listed action) :
    (sys.act action).Sound ids listed := by
  rcases votes_call (s := sys.nodes action.node) action.call with heffect |
    ⟨message, sourceAddr, nowMs, draws, request, hcall, hbody, hvotes⟩ |
    ⟨message, sourceAddr, nowMs, draws, ack, campaign, hcall, hbody, hcampaign, hself, hepoch,
      heffect⟩
  · exact hsound.act_of_voteEffect hkeeps rfl (fun v e => hsound.counted _ v e) heffect
  · -- a vote is given to the sender of a request
    cases action with
    | tick => cases hcall
    | deliver node envelope _ _ _ =>
      cases hcall
      apply hsound.act_of_votes _ hvotes
      have hunvoted := hkeeps.unvoted
      unfold Unvoted at hunvoted
      simp only [hbody, hsound.localNodeId] at hunvoted
      exact hunvoted
  · -- a vote that was given is counted, and may be the last that the campaign needs
    cases action with
    | tick => cases hcall
    | deliver node envelope _ _ _ =>
      cases hcall
      obtain ⟨requester, epoch⟩ := ack
      obtain rfl : requester = ids node := hself.trans (hsound.localNodeId node)
      obtain rfl : epoch = campaign.requestedEpoch := hepoch
      have hsent := voted_of_countVote (hsound.counted node) hcampaign hkeeps.enabled.1 hbody
      refine hsound.act_of_voteEffect hkeeps ?_ hsent heffect
      rfl

/-- **Failover elections are safe**: in every run of a cluster, whatever messages are lost, late,
reordered or delivered twice, if all actions meet the condition. -/
theorem failover_election_safe (listed : NodeId → Nat → Finset NodeId) (sys : System ι)
    (actions : List (Action ι)) (hinitial : sys.Initial)
    (hkeeps : RunAll act (fun sys => sys.KeepsElection listed) sys actions) :
    (actions.foldl act sys).ElectionSafe := by
  have hsound : (actions.foldl act sys).Sound (fun i => (sys.nodes i).localNodeId) listed := by
    apply RunAll.induction (P := fun reached => reached.Sound (fun i => (sys.nodes i).localNodeId)
      listed) _ hkeeps hinitial.sound
    intro sys' action hsound hsafe
    exact hsound.act hsafe
  exact hsound.electionSafe hinitial.distinct

/-! ## The votes behind a promotion -/

/-- Unless its node knew of one primary at most, a promotion rests on the votes of a majority, all
sent to the node for the epoch of its campaign. -/
def Elected (sys : System ι) (id : NodeId) (before : GossipState) : Prop :=
  before.totalPrimaryCount ≤ 1 ∨ ∃ campaign, before.failover = some campaign ∧
    before.totalPrimaryCount / 2 + 1 ≤ campaign.votes.card ∧
    ∀ v ∈ campaign.votes, sys.Voted v campaign.requestedEpoch id

/-- The votes that nodes count, and those that promoted a node, were sent. -/
structure Attributed (sys : System ι) (ids : ι → NodeId) : Prop where
  localNodeId : ∀ i, (sys.nodes i).localNodeId = ids i
  counted : ∀ i v e, (sys.nodes i).Counted v e → sys.Voted v e (ids i)
  promoted : ∀ i before, (i, before) ∈ sys.promotions → sys.Elected (ids i) before

theorem Elected.act {before : GossipState} (h : sys.Elected c before) :
    (sys.act action).Elected c before := by
  rcases h with hfew | ⟨campaign, hcampaign, hmany, hsent⟩
  · exact .inl hfew
  · exact .inr ⟨campaign, hcampaign, hmany, fun v hv => (hsent v hv).act⟩

theorem Attributed.act_of_voteEffect (h : sys.Attributed ids)
    (hcounted : ∀ v e, s.Counted v e → sys.Voted v e (ids action.node))
    (hid : s.localNodeId = (sys.nodes action.node).localNodeId)
    (heffect : VoteEffect s (sys.result action).1 (sys.result action).2) :
    (sys.act action).Attributed ids := by
  obtain ⟨hstate, hout⟩ := heffect.outputs
  refine ⟨fun i => ?_, fun i v e hv => ?_, fun i before hmem => ?_⟩
  · exact (congr_nodes_act (hstate.localNodeId.trans hid) i).trans (h.localNodeId i)
  · rw [nodes_act] at hv
    split at hv
    · rename_i heq
      subst heq
      exact (hcounted v e (hstate.counted v e hv)).act
    · exact (h.counted i v e hv).act
  · rcases mem_append.1 hmem with hold | hnew
    · exact (h.promoted i before hold).act
    obtain ⟨before', hbefore', ⟨⟩⟩ := mem_map.1 hnew
    obtain ⟨before, ⟨⟩, campaign, hcampaign, hcounts, helected⟩ :=
      (hout _ (mem_promotionsIn.1 hbefore')).resolve_left id
    by_cases hfew : before.totalPrimaryCount ≤ 1
    · exact .inl hfew
    refine .inr ⟨campaign, hcampaign, ?_, fun v hv => ?_⟩
    · rw [← card_primaries]
      exact votes_of_hasEnoughVotes (helected.resolve_left hfew) hcampaign (by omega)
    · exact (hcounted v _ (hcounts.counted v _ ⟨campaign, hcampaign, rfl, hv⟩)).act

theorem Attributed.act (h : sys.Attributed ids) (henabled : sys.Enabled action) :
    (sys.act action).Attributed ids := by
  rcases votes_call (s := sys.nodes action.node) action.call with heffect |
    ⟨message, sourceAddr, nowMs, draws, request, -, -, -, hstate, addr, hout⟩ |
    ⟨message, sourceAddr, nowMs, draws, ack, campaign, hcall, hbody, hcampaign, hself, hepoch,
      heffect⟩
  · exact h.act_of_voteEffect (h.counted _) rfl heffect
  · -- a vote is given: no campaign changes, and nobody is promoted
    have hfailover : ∀ i, ((sys.act action).nodes i).failover = (sys.nodes i).failover :=
      congr_nodes_act (by rw [result, hstate])
    refine ⟨fun i => ?_, fun i v e hv => ?_, fun i before hmem => ?_⟩
    · exact (congr_nodes_act (by rw [result, hstate]; rfl) i).trans (h.localNodeId i)
    · rw [Counted, hfailover] at hv
      exact (h.counted i v e hv).act
    · refine (h.promoted i before ?_).act
      simpa [System.act, result, hout, promotionsIn] using hmem
  · cases action with
    | tick => cases hcall
    | deliver node envelope _ _ _ =>
      cases hcall
      obtain ⟨requester, epoch⟩ := ack
      obtain rfl : requester = ids node := hself.trans (h.localNodeId node)
      obtain rfl : epoch = campaign.requestedEpoch := hepoch
      have hsent := voted_of_countVote (h.counted node) hcampaign henabled.1 hbody
      exact h.act_of_voteEffect hsent rfl heffect

/-- **No promotion without a quorum**: in every run, with any loss, delay, reordering and repetition
of messages, a node promotes itself on votes that a majority of the primaries it knows has sent. -/
theorem promotions_have_quorum (sys : System ι) (actions : List (Action ι)) (hinitial : sys.Initial)
    (henabled : RunAll act Enabled sys actions) :
    (actions.foldl act sys).Attributed fun i => (sys.nodes i).localNodeId := by
  have hstart : sys.Attributed fun i => (sys.nodes i).localNodeId := by
    have hsound : sys.Sound _ fun _ _ => ∅ := hinitial.sound
    refine ⟨hsound.localNodeId, hsound.counted, fun i before hmem => ?_⟩
    rw [hinitial.promotions] at hmem
    cases hmem
  exact RunAll.induction (P := fun reached => reached.Attributed fun i => (sys.nodes i).localNodeId)
    (fun _ _ h henabled => h.act henabled) henabled hstart

/-! ### Three primaries -/

/-- Node 1 has failed. It has the replicas 4, 5 and 6, and node 5 has a greater epoch. -/
def sampleMembers : List NodeMeta :=
  [sampleNode 1 10 .primary .failed 0, sampleNode 2 20 .primary .connected 0,
    sampleNode 3 30 .primary .connected 0, sampleNode 4 0 (.replica 1) .connected 0,
    sampleNode 5 0 (.replica 1) .connected 1, sampleNode 6 0 (.replica 1) .connected 0]

def sampleSystem : System (Fin 6) where
  addr := fun i => (sampleMembers.get i).clusterAddr
  nodes := fun i => sampleMembers.foldl GossipState.insertNode (.new (sampleMembers.get i))

def sampleSend (i j : Fin 6) (message : ClusterMessage) : Action (Fin 6) :=
  .deliver j ⟨.udp, (sampleMembers.get j).clusterAddr, message⟩
    (sampleMembers.get i).clusterAddr 600
    sampleDraws

/-- The request of node `i` is delivered to node `j`. -/
def sampleRequest (i j : Fin 6) (epoch : Nat) : Action (Fin 6) :=
  sampleSend i j ⟨⟨.failoverAuth, (sampleMembers.get i).id, epoch⟩,
    .failoverAuth ⟨(sampleMembers.get i).id, epoch, 0, ∅⟩⟩

/-- The vote of node `i` is delivered to node `j`. -/
def sampleVote (i j : Fin 6) (epoch : Nat) : Action (Fin 6) :=
  sampleSend i j ⟨⟨.failoverAuthAck, (sampleMembers.get i).id, 0⟩,
    .failoverAuthAck ⟨(sampleMembers.get j).id, epoch⟩⟩

/-- A replica begins its campaign and asks for votes. -/
def sampleCampaignOf (i : Fin 6) (epoch : Nat) : List (Action (Fin 6)) :=
  [.tick i 0 sampleDraws, .tick i 500 sampleDraws, sampleRequest i 1 epoch, sampleRequest i 2 epoch]

def sampleElection (i : Fin 6) (epoch : Nat) : List (Action (Fin 6)) :=
  sampleCampaignOf i epoch ++ [sampleVote 1 i epoch, sampleVote 2 i epoch]

theorem getNode_sampleSystem (i : Fin 6) (id : NodeId) :
    (sampleSystem.nodes i).getNode id = sampleMembers.find? fun node => node.id = id := by
  have hrows : ∀ i, ((sampleSystem.nodes i).cluster.iter).Perm sampleMembers := by decide
  have hdistinct : (sampleMembers.map NodeMeta.id).Nodup := by decide
  show _ = KeyedTable.get? ⟨sampleMembers, hdistinct⟩ id
  exact KeyedTable.get?_congr (hrows i)

theorem initial_sampleSystem : sampleSystem.Initial := by
  have hids : ∀ i, (sampleSystem.nodes i).localNodeId = (sampleMembers.get i).id := by decide
  refine ⟨fun i j => by revert i j; decide, ?_, by decide, by decide, fun i => ?_, rfl, rfl⟩
  · intro i id
    rw [getNode_sampleSystem, find?_isSome]
    constructor
    · rintro ⟨node, hmem, hnode⟩
      obtain ⟨j, rfl⟩ := mem_iff_get.1 hmem
      exact ⟨j, (hids j).trans (of_decide_eq_true hnode)⟩
    · rintro ⟨j, hj⟩
      exact ⟨sampleMembers.get j, get_mem sampleMembers j, decide_eq_true ((hids j).symm.trans hj)⟩
  · exact Option.isNone_iff_eq_none.1 (by revert i; decide)

/-- Node 4 is elected in epoch 1, after votes for node 5 in epoch 2. -/
theorem failover_election_safe_elected :
    let actions := sampleCampaignOf 4 2 ++ sampleElection 3 1
    ((actions.foldl act sampleSystem).promotions.map fun promotion => promotion.1) = [3] ∧
      (actions.foldl act sampleSystem).ElectionSafe :=
  ⟨by decide +kernel, failover_election_safe (fun _ _ => {1, 2, 3}) sampleSystem _
    initial_sampleSystem (by decide +kernel)⟩

theorem promotions_have_quorum_elected :
    ((sampleElection 3 1).foldl act sampleSystem).Attributed fun i =>
      (sampleSystem.nodes i).localNodeId :=
  promotions_have_quorum sampleSystem (sampleElection 3 1) initial_sampleSystem (by decide +kernel)

/-- **Two nodes are elected**: nodes 2 and 3 vote for node 4 in epoch 1, then for node 5 in epoch 2,
and then for node 6 in epoch 1 again, so that node 4 and node 6 promote themselves for node 1 with
epoch 1. -/
theorem failover_election_safe_fails : ¬ ∀ (n : Nat) (sys : System (Fin n))
    (actions : List (Action (Fin n))), sys.Initial →
    (∀ i j id, (sys.nodes i).getNode id = (sys.nodes j).getNode id) →
    RunAll act Enabled sys actions → (actions.foldl act sys).ElectionSafe := by
  intro h
  have hsafe := h 6 sampleSystem
    (sampleElection 3 1 ++ sampleCampaignOf 4 2 ++ sampleElection 5 1) initial_sampleSystem
    (fun i j id => by rw [getNode_sampleSystem, getNode_sampleSystem]) (by decide +kernel)
  generalize hreached : List.foldl act sampleSystem _ = reached at hsafe
  let summary : Fin 6 × GossipState → Fin 6 × Option NodeId × Nat := fun promotion =>
    (promotion.1, promotion.2.failover.map FailoverCampaign.failedPrimary, promotion.2.nextEpoch)
  have hpromoted : reached.promotions.map summary = [(3, some 1, 1), (5, some 1, 1)] := by
    rw [← hreached]
    decide +kernel
  have hmem : ∀ i, (i, some 1, 1) ∈ reached.promotions.map summary →
      ∃ before, (i, before) ∈ reached.promotions ∧ summary (i, before) = (i, some 1, 1) := by
    intro i hi
    obtain ⟨⟨j, before⟩, hbefore, hsummary⟩ := mem_map.1 hi
    obtain rfl : j = i := congrArg Prod.fst hsummary
    exact ⟨before, hbefore, hsummary⟩
  obtain ⟨a, ha, hsummary⟩ := hmem 3 (by rw [hpromoted]; decide)
  obtain ⟨b, hb, hsummary'⟩ := hmem 5 (by rw [hpromoted]; decide)
  have hprimary := (congrArg (·.2.1) hsummary).trans (congrArg (·.2.1) hsummary').symm
  have hepoch := (congrArg (·.2.2) hsummary).trans (congrArg (·.2.2) hsummary').symm
  exact absurd (hsafe.promotions 3 a 5 b ha hb hprimary hepoch) (by decide)

end System

end Senko.Cluster
