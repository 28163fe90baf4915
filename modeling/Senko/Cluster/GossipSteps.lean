import Senko.Cluster.Gossip

/-!
# Senko — what the calls of the gossip protocol can do

Most of what a call does touches neither the ownership of slots nor the votes that a node has given
and received: such a part is calm. What remains is small. An update can be stored and can make the
node step down, a vote can be given, a vote can be counted, and a node can promote itself.
-/

namespace Senko.Cluster

open List Function ClusterState

theorem slotSetsDisjoint_iff {left right : SlotSet} :
    slotSetsDisjoint left right = true ↔ Disjoint left right := by
  unfold slotSetsDisjoint
  split
  rename_i small large heq
  rw [decide_eq_true_iff, ← Finset.disjoint_left]
  split at heq <;> cases heq
  · rfl
  · exact disjoint_comm

/-- The slots that a record gives to the node. -/
def NodeMeta.owned (node : NodeMeta) : SlotSet := if node.role = .primary then node.slots else ∅

/-- Neither a vote nor a promotion. -/
def Output.IsPlain : Output → Prop
  | .promoted _ => False
  | .send envelope =>
    match envelope.message.body with
    | .failoverAuthAck _ => False
    | _ => True

/-- Nothing among the outputs is a vote or a promotion. -/
def Plain (out : List Output) : Prop := ∀ o ∈ out, o.IsPlain

theorem plain_nil : Plain [] := fun _ h => absurd h not_mem_nil

theorem Plain.append (h : Plain out) (h' : Plain out') :
    Plain (out ++ out') := fun o ho => (mem_append.1 ho).elim (h o) (h' o)

namespace GossipState

/-- The slots of a node, as this node sees it. -/
def owns (s : GossipState) (id : NodeId) : SlotSet := ((s.getNode id).map NodeMeta.owned).getD ∅

/-- A vote that counts in the campaign of this node. -/
def Counted (s : GossipState) (voter : NodeId) (epoch : Nat) : Prop :=
  ∃ campaign, s.failover = some campaign ∧ campaign.requestedEpoch = epoch ∧ voter ∈ campaign.votes

/-- No vote is given, and none is counted. -/
structure KeepsVotes (s t : GossipState) : Prop where
  localNodeId : t.localNodeId = s.localNodeId
  votedEpoch : t.votedEpoch = s.votedEpoch
  counted : ∀ voter epoch, t.Counted voter epoch → s.Counted voter epoch

/-- **No node gains slots either.** -/
structure Calm (s t : GossipState) : Prop extends KeepsVotes s t where
  owns : ∀ id, t.owns id ⊆ s.owns id

variable {s t u : GossipState} {id senderId : NodeId} {node incoming : NodeMeta} {draws : Draws}
  {nowMs : Nat} {sourceAddr senderClusterAddr senderAddr : SocketAddr} {entries : List GossipEntry}
  {header : ClusterMessageHeader} {out out' : List Output}

theorem KeepsVotes.refl (s : GossipState) : KeepsVotes s s := ⟨rfl, rfl, fun _ _ h => h⟩

theorem KeepsVotes.trans (h : KeepsVotes s t) (h' : KeepsVotes t u) : KeepsVotes s u :=
  ⟨h'.localNodeId.trans h.localNodeId, h'.votedEpoch.trans h.votedEpoch,
    fun voter epoch hcounted => h.counted voter epoch (h'.counted voter epoch hcounted)⟩

theorem KeepsVotes.calm (h : KeepsVotes s t) (howns : t.owns = s.owns) : Calm s t :=
  ⟨h, fun id => (congrFun howns id).subset⟩

theorem Calm.refl (s : GossipState) : Calm s s := (KeepsVotes.refl s).calm rfl

theorem Calm.trans (h : Calm s t) (h' : Calm t u) : Calm s u :=
  ⟨h.toKeepsVotes.trans h'.toKeepsVotes, fun id => (h'.owns id).trans (h.owns id)⟩

/-! ## Outputs -/

theorem plain_sendTo {transport : Transport} {message : ClusterMessage} {addrs : List SocketAddr}
    (h : ∀ ack, message.body ≠ .failoverAuthAck ack) : Plain (sendTo transport message addrs) := by
  intro o ho
  obtain ⟨addr, -, rfl⟩ := mem_map.1 ho
  show match message.body with
    | .failoverAuthAck _ => False
    | _ => True
  split
  · exact h _ ‹_›
  · trivial

theorem plain_correction (id : NodeId) (addr : SocketAddr) : Plain (s.correction id addr) := by
  unfold correction
  split
  · rename_i message hmessage
    obtain ⟨node, -, rfl⟩ := Option.map_eq_some_iff.1 hmessage
    exact plain_sendTo fun _ h => by cases h
  · exact plain_nil

theorem plain_broadcastUpdate (id : NodeId) : Plain (s.broadcastUpdate id) := by
  unfold broadcastUpdate
  split
  · rename_i message hmessage
    obtain ⟨node, -, rfl⟩ := Option.map_eq_some_iff.1 hmessage
    exact plain_sendTo fun _ h => by cases h
  · exact plain_nil

theorem plain_broadcastFail (id : NodeId) : Plain (s.broadcastFail id) :=
  plain_sendTo fun _ h => by cases h

/-! ## Records -/

variable (f : NodeMeta → NodeMeta) (ids : List NodeId) (newPrimary : NodeId)

theorem keepsVotes_modifyNode : KeepsVotes s (s.modifyNode id f) :=
  ⟨rfl, rfl, fun _ _ h => h⟩

theorem getNode_modifyNode {id' : NodeId} : (s.modifyNode id f).getNode id' =
      if id' = id then (s.getNode id).map (.change f) else s.getNode id' :=
  ClusterState.getNode_modifyNode f

theorem owns_modifyNode : (s.modifyNode id f).owns = update s.owns id
      (((s.getNode id).map fun node => (f node).owned).getD ∅) := by
  funext id'
  unfold owns
  rw [getNode_modifyNode, update_apply]
  split
  · rw [Option.map_map]
    rfl
  · rfl

/-- A change that leaves role and slots alone. -/
theorem calm_modifyNode {f : NodeMeta → NodeMeta} (h : ∀ node, (f node).owned = node.owned) :
    Calm s (s.modifyNode id f) := by
  apply (keepsVotes_modifyNode f).calm
  rw [owns_modifyNode]
  simp only [h]
  exact update_eq_self id s.owns

/-- The table of nodes, the campaign and the vote are left alone. -/
theorem calm_of_eq (hcluster : t.cluster = s.cluster) (hvoted : t.votedEpoch = s.votedEpoch)
    (hfailover : t.failover = s.failover) : Calm s t := by
  have hvotes : KeepsVotes s t := by
    refine ⟨?_, hvoted, ?_⟩
    · rw [localNodeId, hcluster]
      rfl
    · intro voter epoch h
      rw [Counted, hfailover] at h
      exact h
  apply hvotes.calm
  funext id
  unfold owns getNode
  rw [hcluster]

theorem calm_report (id reporter : NodeId) : Calm s (s.report id reporter) := calm_of_eq rfl rfl rfl

/-- A node that was not known comes without slots. -/
theorem calm_insertNode (hnew : s.getNode node.id = none) (hslots : node.slots = ∅) :
    Calm s (s.insertNode node) := by
  have hvotes : KeepsVotes s (s.insertNode node) := ⟨rfl, rfl, fun _ _ h => h⟩
  apply hvotes.calm
  funext id
  have hget : (s.insertNode node).getNode id = if id = node.id then some node else s.getNode id :=
    getNode_insertNode
  unfold owns
  rw [hget]
  split
  · rename_i heq
    rw [heq, hnew]
    show node.owned = ∅
    simp [NodeMeta.owned, hslots]
  · rfl

theorem calm_markFailed (id : NodeId) : Calm s (s.markFailed id).2 := by
  unfold markFailed
  split
  · exact .refl s
  · split
    · exact .refl s
    · exact calm_modifyNode fun _ => rfl

theorem calm_observePong (id : NodeId) : Calm s (s.observePong id nowMs) := by
  have hseen : Calm s (s.modifyNode id fun node =>
      { node with
        pongRecv := nowMs, state := if node.state = .pFail then .connected else node.state }) :=
    calm_modifyNode fun _ => rfl
  unfold observePong
  dsimp only
  split <;> exact hseen.trans (calm_of_eq rfl rfl rfl)

theorem calm_suspectNode (id : NodeId) : Calm s (s.suspectNode nowMs id) := by
  unfold suspectNode
  split
  · have hsuspect : Calm s (s.modifyNode id fun node => { node with state := .pFail }) :=
      calm_modifyNode fun _ => rfl
    exact hsuspect.trans (calm_report id _)
  · exact .refl s

theorem calm_detectFailure {majority : Nat} (id : NodeId) :
    Calm s (s.detectFailure nowMs majority id).2 := by
  unfold detectFailure
  dsimp only
  split
  · exact (calm_suspectNode id).trans (calm_markFailed id)
  · exact calm_suspectNode id

theorem calm_detectFailuresOf {majority : Nat} :
    Calm s (detectFailuresOf nowMs majority ids s).2 := by
  induction ids generalizing s with
  | nil => exact .refl s
  | cons id ids ih => exact (calm_detectFailure id).trans ih

theorem calm_detectFailures : Calm s (s.detectFailures nowMs).2 := calm_detectFailuresOf _

theorem calm_ensureSenderFromEntries
    (h : s.ensureSenderFromEntries senderId sourceAddr entries = .ok t) :
    Calm s t := by
  unfold ensureSenderFromEntries at h
  split at h
  · cases h
    exact .refl s
  rename_i hnone
  have hnew : s.getNode senderId = none := by simpa using hnone
  split at h
  · rename_i entry hentry
    have hid : entry.nodeId = senderId := by simpa using find?_some hentry
    rcases haddr : entry.addr with e | addr <;> rw [haddr] at h
    · cases h
    rcases hcluster : entry.clusterAddr with e | clusterAddr <;> rw [hcluster] at h
    · cases h
    cases h
    rw [← hid] at hnew
    exact calm_insertNode hnew rfl
  · cases h
    exact calm_insertNode hnew rfl

theorem calm_mergeRecord {addr clusterAddr : SocketAddr} {entry : GossipEntry} :
    Calm s (s.mergeRecord senderClusterAddr entry addr clusterAddr).2 ∧
      Plain (s.mergeRecord senderClusterAddr entry addr clusterAddr).1 := by
  unfold mergeRecord
  split
  · rename_i hnew
    exact ⟨calm_insertNode hnew rfl, plain_nil⟩
  split
  · exact ⟨calm_modifyNode fun _ => rfl, plain_nil⟩
  · split
    · split
      · exact ⟨calm_modifyNode fun _ => rfl, plain_nil⟩
      · exact ⟨.refl s, plain_nil⟩
    · exact ⟨.refl s, plain_correction _ _⟩

theorem calm_mergeGossipEntry {reporter : NodeId} {entry : GossipEntry}
    (h : s.mergeGossipEntry reporter senderClusterAddr entry = .ok (out, t)) :
    Calm s t ∧ Plain out := by
  unfold mergeGossipEntry at h
  rcases haddr : entry.addr with e | addr <;> rw [haddr] at h
  · cases h
  rcases hcluster : entry.clusterAddr with e | clusterAddr <;> rw [hcluster] at h
  · cases h
  have hrecord : Calm s (s.mergeRecord senderClusterAddr entry addr clusterAddr).2 ∧ _ :=
    calm_mergeRecord
  cases h
  refine ⟨?_, hrecord.2⟩
  split
  · exact hrecord.1.trans (calm_report _ _)
  · exact hrecord.1

theorem calm_mergeGossipEntries {reporter : NodeId} (entries : List GossipEntry) :
    Calm s (mergeGossipEntries reporter senderClusterAddr entries s).2 ∧
      ∀ out, (mergeGossipEntries reporter senderClusterAddr entries s).1 = .ok out → Plain out := by
  induction entries generalizing s with
  | nil => exact ⟨.refl s, fun out h => by cases h; exact plain_nil⟩
  | cons entry entries ih =>
    rw [mergeGossipEntries]
    split
    · exact ⟨.refl s, fun out h => by cases h⟩
    rename_i out t hentry
    obtain ⟨hcalm, hplain⟩ := calm_mergeGossipEntry hentry
    have hrest : Calm t (mergeGossipEntries reporter senderClusterAddr entries t).2 ∧ _ := ih
    refine ⟨hcalm.trans hrest.1, fun all hall => ?_⟩
    dsimp only at hall
    rcases hmerge : (mergeGossipEntries reporter senderClusterAddr entries t).1 with e | out' <;>
      rw [hmerge] at hall <;> cases hall
    exact hplain.append (hrest.2 out' hmerge)

theorem calm_notePing (target : NodeId) : Calm s (s.notePing nowMs target) :=
  have hping : Calm s { s with pingSent := update s.pingSent target (some nowMs) } :=
    calm_of_eq rfl rfl rfl
  hping.trans (calm_modifyNode fun _ => rfl)

theorem calm_sendPings (targets : List NodeId) :
    Calm s (sendPings nowMs entries targets s).2 ∧ Plain (sendPings nowMs entries targets s).1 ∧
      (sendPings nowMs entries targets s).2.failover = s.failover := by
  induction targets generalizing s with
  | nil => exact ⟨.refl s, plain_nil, rfl⟩
  | cons target targets ih =>
    rw [sendPings]
    split
    · exact ih
    · have hrest : Calm (s.notePing nowMs target) _ ∧ _ := ih
      exact ⟨(calm_notePing target).trans hrest.1,
        (plain_sendTo fun _ h => by cases h).append hrest.2.1, hrest.2.2⟩

/-! ## Updates -/

theorem calm_resolveConflicts {incomingId : NodeId} :
    Calm s (resolveConflicts incomingId senderAddr ids s).2.2 ∧
      Plain (resolveConflicts incomingId senderAddr ids s).1 := by
  induction ids generalizing s with
  | nil => exact ⟨.refl s, plain_nil⟩
  | cons conflictId ids ih =>
    rw [resolveConflicts]
    split
    · exact ⟨.refl s, plain_correction _ _⟩
    · split
      · have hbump : Calm s (s.modifyLocal fun node => { node with configEpoch := s.nextEpoch }) :=
          calm_modifyNode fun _ => rfl
        exact ⟨hbump.trans ih.1, (plain_broadcastUpdate _).append ih.2⟩
      · exact ih

theorem calm_adoptFailure {existing : NodeMeta} : Calm s (s.adoptFailure incoming existing) := by
  unfold adoptFailure
  split
  · exact calm_modifyNode fun _ => rfl
  · exact .refl s

theorem calm_checkUpdate : Calm s (s.checkUpdate draws incoming senderAddr).2.2 ∧
      Plain (s.checkUpdate draws incoming senderAddr).1 := by
  unfold checkUpdate
  split
  · exact ⟨.refl s, plain_nil⟩
  · split
    · exact ⟨.refl s, plain_correction _ _⟩
    · split
      · exact ⟨calm_adoptFailure.trans (calm_resolveConflicts _).1, (calm_resolveConflicts _).2⟩
      · exact ⟨.refl s, plain_nil⟩

/-- A node that steps down gives up its slots. -/
theorem owns_demoteLocal : (s.demoteLocal newPrimary).owns = update s.owns s.localNodeId ∅ := by
  unfold demoteLocal modifyLocal
  rw [owns_modifyNode]
  cases s.getNode s.localNodeId <;> rfl

theorem calm_demoteLocal : Calm s (s.demoteLocal newPrimary) := by
  refine ⟨keepsVotes_modifyNode _, fun id => ?_⟩
  rw [owns_demoteLocal, update_apply]
  split
  · exact Finset.empty_subset _
  · exact subset_rfl

theorem calm_stepDown : Calm s (s.stepDown incoming) := by
  unfold stepDown
  split
  · exact calm_demoteLocal _
  · exact .refl s

theorem calm_noteSender : Calm s (s.noteSender senderId senderAddr) := by
  unfold noteSender
  split
  · rename_i hnone
    exact calm_insertNode (Option.isNone_iff_eq_none.1 hnone) rfl
  · exact .refl s

/-- What is said of the node itself is not stored. -/
theorem storeUpdate_local (h : incoming.id = s.localNodeId) :
    s.storeUpdate incoming = s.stepDown incoming := if_neg (not_not.2 h)

/-- A record of another node replaces the one that was there. -/
theorem owns_storeUpdate (h : incoming.id ≠ s.localNodeId) :
    (s.storeUpdate incoming).owns = update s.owns incoming.id incoming.owned := by
  funext id
  unfold storeUpdate
  rw [if_pos h, update_apply]
  have hget : ({ s with cluster := s.cluster.insertNode incoming } : GossipState).getNode id =
      if id = incoming.id then some incoming else s.getNode id := getNode_insertNode
  unfold owns
  rw [hget]
  split <;> rfl

theorem keepsVotes_storeUpdate : KeepsVotes s (s.storeUpdate incoming) := by
  by_cases h : incoming.id = s.localNodeId
  · rw [storeUpdate_local h]
    exact calm_stepDown.toKeepsVotes
  · unfold storeUpdate
    rw [if_pos h]
    exact ⟨rfl, rfl, fun _ _ h => h⟩

/-! ## Promotions -/

/-- The owners of the slots after a promotion. -/
def ownsAfter (s : GossipState) (failedPrimary : NodeId) : NodeId → SlotSet :=
  Function.update (Function.update s.owns s.localNodeId (s.slotsOf failedPrimary)) failedPrimary ∅

/-- **A node has promoted itself.** -/
structure Promoted (before after : GossipState) (campaign : FailoverCampaign) : Prop where
  started : before.failover = some campaign
  elected : before.totalPrimaryCount ≤ 1 ∨ before.hasEnoughVotes = true
  failover : after.failover = none
  localNodeId : after.localNodeId = before.localNodeId
  votedEpoch : after.votedEpoch = before.votedEpoch
  owns : ∀ id, after.owns id ⊆ before.ownsAfter campaign.failedPrimary id

/-- **What a call does that gives no vote and stores no update**: it is calm, or the node promotes
itself. -/
inductive Effect (s : GossipState) (out : List Output) (t : GossipState) : Prop where
  | calm (hcalm : Calm s t) (hplain : Plain out)
  | promoted (before : GossipState) (campaign : FailoverCampaign) (pre post : List Output)
      (hcalm : Calm s before) (hout : out = pre ++ .promoted before :: post) (hpre : Plain pre)
      (hpost : Plain post) (hafter : Promoted before t campaign)

theorem Effect.refl (s : GossipState) : Effect s [] s := .calm (.refl s) plain_nil

/-- Calm steps before. -/
theorem Effect.after (h : Effect t out u) (hcalm : Calm s t) (hplain : Plain out') :
    Effect s (out' ++ out) u := by
  cases h with
  | calm hcalm' hplain' => exact .calm (hcalm.trans hcalm') (hplain.append hplain')
  | promoted before campaign pre post hcalm' hout hpre hpost hafter =>
    subst hout
    exact .promoted before campaign (out' ++ pre) post (hcalm.trans hcalm')
      (append_assoc _ _ _).symm (hplain.append hpre) hpost hafter

/-- Calm steps that keep the campaign after. -/
theorem Effect.before (h : Effect s out t) (hcalm : Calm t u) (hplain : Plain out')
    (hfailover : u.failover = t.failover) : Effect s (out ++ out') u := by
  cases h with
  | calm hcalm' hplain' => exact .calm (hcalm'.trans hcalm) (hplain'.append hplain)
  | promoted before campaign pre post hcalm' hout hpre hpost hafter =>
    subst hout
    refine .promoted before campaign pre (post ++ out') hcalm' (by simp) hpre (hpost.append hplain)
      ⟨hafter.started, hafter.elected, hfailover.trans hafter.failover,
        hcalm.localNodeId.trans hafter.localNodeId, hcalm.votedEpoch.trans hafter.votedEpoch,
        fun id => (hcalm.owns id).trans (hafter.owns id)⟩

theorem owns_takeOver (failedPrimary : NodeId) :
    (s.takeOver failedPrimary).owns = s.ownsAfter failedPrimary := by
  have hpromoted :
      ((s.modifyLocal (promotedMeta (s.slotsOf failedPrimary) s.nextEpoch)).resetOffset).owns
      = update s.owns s.localNodeId (s.slotsOf failedPrimary) := by
    show (s.modifyLocal (promotedMeta (s.slotsOf failedPrimary) s.nextEpoch)).owns = _
    rw [modifyLocal, owns_modifyNode, show s.getNode s.localNodeId = some s.localMeta from
      getNode_local]
    rfl
  unfold takeOver ownsAfter
  rw [owns_modifyNode, hpromoted]
  -- the record of the failed primary is that of a replica now
  congr 1
  cases GossipState.getNode _ failedPrimary <;> rfl

theorem effect_promoteLocal (helected : s.totalPrimaryCount ≤ 1 ∨ s.hasEnoughVotes = true) :
    Effect s s.promoteLocal.1 s.promoteLocal.2 := by
  unfold promoteLocal
  split
  · exact .refl s
  rename_i campaign hcampaign
  have hdropped : Calm s { s with failover := none } := by
    refine KeepsVotes.calm ⟨rfl, rfl, ?_⟩ rfl
    rintro voter epoch ⟨_, ⟨⟩, _⟩
  dsimp only
  split
  · refine .promoted s campaign [] _ (.refl s) rfl plain_nil
      ((plain_broadcastUpdate _).append (plain_broadcastUpdate _)) ?_
    exact ⟨hcampaign, helected, rfl, rfl, rfl, fun id => (congrFun (owns_takeOver _) id).subset⟩
  · exact .calm hdropped plain_nil

theorem calm_scheduleFailover {jitterMs : Nat} : Calm s (s.scheduleFailover nowMs jitterMs) := by
  unfold scheduleFailover
  split
  · exact .refl s
  · -- a new campaign has no votes
    refine KeepsVotes.calm ⟨rfl, rfl, ?_⟩ rfl
    rintro voter epoch ⟨campaign, ⟨⟩, -, hvoter⟩
    exact absurd hvoter (Finset.notMem_empty _)

theorem calm_noteAuthSent {campaign : FailoverCampaign} (h : s.failover = some campaign) :
    Calm s (s.noteAuthSent campaign) := by
  refine KeepsVotes.calm ⟨rfl, rfl, ?_⟩ rfl
  rintro voter epoch ⟨campaign', ⟨⟩, hepoch, hvoter⟩
  exact ⟨campaign, h, hepoch, hvoter⟩

theorem effect_campaignStep : Effect s (s.campaignStep nowMs).1 (s.campaignStep nowMs).2 := by
  unfold campaignStep
  split
  · exact .refl s
  rename_i campaign hcampaign
  split
  · dsimp only
    split
    · rename_i hfew
      exact (effect_promoteLocal (.inl hfew)).after (calm_noteAuthSent hcampaign) plain_nil
    · exact .calm (calm_noteAuthSent hcampaign) (plain_sendTo fun _ h => by cases h)
  · exact .refl s

theorem effect_handleFailedPrimary :
    Effect s (s.handleFailedPrimary draws nowMs).1 (s.handleFailedPrimary draws nowMs).2 := by
  unfold handleFailedPrimary
  split
  · exact .refl s
  split
  · exact .refl s
  · split
    · split
      · exact effect_campaignStep.after calm_scheduleFailover plain_nil
      · exact effect_campaignStep
    · exact .refl s

theorem effect_failUpdate :
    Effect s (s.failUpdate draws incoming).1 (s.failUpdate draws incoming).2 := by
  unfold failUpdate
  split
  · dsimp only
    split
    · exact effect_handleFailedPrimary.after (calm_markFailed _) plain_nil
    · exact .calm (calm_markFailed _) plain_nil
  · exact .refl s

theorem effect_finishCampaign : Effect s s.finishCampaign.1 s.finishCampaign.2 := by
  unfold finishCampaign
  split
  · exact .refl s
  · split
    · rename_i hready
      exact effect_promoteLocal (.inr hready.2.2)
    · exact .refl s

theorem effect_tick : Effect s (s.tick draws nowMs).1 (s.tick draws nowMs).2 := by
  generalize hdetect : s.detectFailures nowMs = detected
  generalize hfailed : detected.2.handleFailedPrimary draws nowMs = failed
  generalize hpings : sendPings nowMs (failed.2.buildGossipEntries draws)
    (failed.2.selectPingTargets draws) failed.2 = pinged
  have htick : s.tick draws nowMs = (detected.1.flatMap detected.2.broadcastFail ++ failed.1 ++
      pinged.1 ++ pinged.2.finishCampaign.1, pinged.2.finishCampaign.2) := by
    rw [tick, hdetect]
    dsimp only
    rw [hfailed, hpings]
  have hcalm : Calm s detected.2 := by
    rw [← hdetect]
    exact calm_detectFailures
  have hplain : Plain (detected.1.flatMap detected.2.broadcastFail) := by
    intro o ho
    obtain ⟨id, -, hid⟩ := mem_flatMap.1 ho
    exact plain_broadcastFail id o hid
  have heffect : Effect detected.2 failed.1 failed.2 := by
    rw [← hfailed]
    exact effect_handleFailedPrimary
  obtain ⟨hpingCalm, hpingPlain, hpingFailover⟩ : Calm failed.2 pinged.2 ∧ Plain pinged.1 ∧
      pinged.2.failover = failed.2.failover := by
    rw [← hpings]
    exact calm_sendPings _
  rw [htick, append_assoc, append_assoc]
  apply Effect.after _ hcalm hplain
  cases heffect with
  | calm hfailCalm hfailPlain =>
    apply Effect.after _ hfailCalm hfailPlain
    exact effect_finishCampaign.after hpingCalm hpingPlain
  | promoted before campaign pre post hbefore hout hpre hpost hafter =>
    -- the campaign is over
    have hover : pinged.2.finishCampaign = ([], pinged.2) := by
      rw [finishCampaign, hpingFailover, hafter.failover]
    rw [hover, append_nil]
    exact (Effect.promoted before campaign pre post hbefore hout hpre hpost hafter).before hpingCalm
      hpingPlain hpingFailover

theorem calm_notePong : Calm s (s.notePong header nowMs) := by
  unfold notePong
  split
  · exact calm_observePong _
  · exact .refl s

/-- Messages that only carry records. -/
theorem calm_handleGossip : Calm s (s.handleGossip draws header entries sourceAddr nowMs).2 ∧
      ∀ out, (s.handleGossip draws header entries sourceAddr nowMs).1 = .ok out → Plain out := by
  unfold handleGossip
  split
  · exact ⟨.refl s, fun out h => by cases h⟩
  rename_i t hsender
  have hstart : Calm s (t.notePong header nowMs) :=
    (calm_ensureSenderFromEntries hsender).trans calm_notePong
  dsimp only
  generalize ((t.getNode header.senderId).map NodeMeta.clusterAddr).getD sourceAddr = addr
  have hmerge :
      Calm (t.notePong header nowMs) (mergeGossipEntries header.senderId addr entries _).2 ∧
      _ := calm_mergeGossipEntries entries
  split
  · rename_i e u heq
    rw [heq] at hmerge
    exact ⟨hstart.trans hmerge.1, fun out h => by cases h⟩
  rename_i out u heq
  rw [heq] at hmerge
  have hplain : Plain out := hmerge.2 out rfl
  split
  · refine ⟨hstart.trans hmerge.1, fun all h => ?_⟩
    cases h
    exact hplain.append (plain_sendTo fun _ h => by cases h)
  · refine ⟨hstart.trans hmerge.1, fun all h => ?_⟩
    cases h
    exact hplain

/-- A message about a failed node. -/
theorem effect_fail {failedNodeId : NodeId} :
    Effect s (s.call (.message ⟨header, .fail failedNodeId⟩ sourceAddr nowMs draws)).1
      (s.call (.message ⟨header, .fail failedNodeId⟩ sourceAddr nowMs draws)).2 := by
  unfold call handleMessage
  dsimp only
  split
  · exact effect_handleFailedPrimary.after (calm_markFailed _) plain_nil
  · exact .calm (calm_markFailed _) plain_nil

/-- An update is dropped or applied. -/
theorem call_update {update : UpdateMessage} :
    s.call (.message ⟨header, .update update⟩ sourceAddr nowMs draws) = match update.toMeta with
      | .error _ => ([], s)
      | .ok incoming => s.applyMeta draws header.senderId sourceAddr incoming := by
  unfold call handleMessage applyUpdate
  dsimp only
  cases update.toMeta <;> rfl

/-- Giving a vote changes no record. -/
theorem cluster_processFailoverAuth {request : FailoverAuthRequest} :
    (s.processFailoverAuth senderId request sourceAddr).2.cluster = s.cluster := by
  unfold processFailoverAuth
  split
  · rfl
  · split
    · rfl
    · split
      · split <;> rfl
      · rfl

/-- A vote is ignored, or it counts. -/
theorem effect_processFailoverAck {ack : FailoverAuthAck} :
    Effect s (s.processFailoverAck senderId ack).1 (s.processFailoverAck senderId ack).2 ∨
      ∃ campaign, s.failover = some campaign ∧ ack.requestingNodeId = s.localNodeId ∧
        ack.configEpoch = campaign.requestedEpoch ∧
        Effect (s.countVote senderId campaign) (s.processFailoverAck senderId ack).1
          (s.processFailoverAck senderId ack).2 := by
  unfold processFailoverAck
  split
  · exact .inl (.refl s)
  rename_i hself
  split
  · exact .inl (.refl s)
  rename_i campaign hcampaign
  split
  · exact .inl (.refl s)
  rename_i hepoch
  right
  refine ⟨campaign, hcampaign, not_not.1 hself, not_not.1 hepoch, ?_⟩
  dsimp only
  split
  · rename_i henough
    exact effect_promoteLocal (.inr henough)
  · exact .refl _

end GossipState

end Senko.Cluster
