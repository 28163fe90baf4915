import Senko.Cluster.GossipSteps
import Senko.Lib.Run

/-!
# Senko — the owners of slots in the view of a node

A slot has one owner in the view of a node as long as updates bring no primary with slots of another
one, and replicas claim no slots that have moved on to another primary. The code checks neither: a
record is stored as it comes, and only the node itself steps down when it is outranked.
-/

namespace Senko.Cluster.GossipState

open List ClusterState

variable {s t u : GossipState} {incoming : NodeMeta} {draws : Draws} {nowMs : Nat}

/-- **Each slot has one owner**: the slots of two primaries are disjoint. -/
def OneOwner (s : GossipState) : Prop :=
  ∀ a ∈ s.cluster.iter, ∀ b ∈ s.cluster.iter, a.role = .primary → b.role = .primary → a.id ≠ b.id →
    Disjoint a.slots b.slots

/-- An update that is not stored: the record is newer, or a primary of the same epoch that has some
of the slots has a greater id. -/
def Refuses (s : GossipState) (incoming : NodeMeta) : Prop :=
  ∃ existing, s.getNode incoming.id = some existing ∧
    (incoming.configEpoch < existing.configEpoch ∨ incoming.configEpoch = existing.configEpoch ∧
      ∃ other ∈ s.cluster.iter, incoming.id < other.id ∧ other.role = .primary ∧
        other.configEpoch = incoming.configEpoch ∧ ¬ Disjoint other.slots incoming.slots)

/-- The slots that an update brings belong to no other primary, or to the node itself, which steps
down before the greater epoch. -/
def BringsFreeSlots (s : GossipState) (incoming : NodeMeta) : Prop :=
  ∀ other ∈ s.cluster.iter, other.role = .primary → other.id ≠ incoming.id →
    Disjoint other.slots incoming.slots ∨
      other.id = s.localNodeId ∧ other.configEpoch < incoming.configEpoch

/-- The slots of the primary that the node replaces belong to no third primary. -/
def ClaimsFreeSlots (before : GossipState) : Prop :=
  ∀ campaign, before.failover = some campaign → campaign.failedPrimary ≠ before.localNodeId →
    ∀ other ∈ before.cluster.iter, other.role = .primary → other.id ≠ campaign.failedPrimary →
      other.id ≠ before.localNodeId → Disjoint other.slots (before.slotsOf campaign.failedPrimary)

/-- **The condition on a call**: an update about another primary is refused or brings free slots,
and a promotion claims free slots. -/
structure KeepsOwners (s : GossipState) (call : Call) : Prop where
  update : ∀ message sourceAddr nowMs draws update incoming,
    call = .message message sourceAddr nowMs draws → message.body = .update update →
      update.toMeta = .ok incoming → incoming.id ≠ s.localNodeId → incoming.role = .primary →
        s.Refuses incoming ∨ s.BringsFreeSlots incoming
  promotion : ∀ before, .promoted before ∈ (s.call call).1 → before.ClaimsFreeSlots

/-! ## Owners -/

variable {id : NodeId} {senderAddr : SocketAddr}

theorem mem_owns {slot : Fin slotCount} : slot ∈ s.owns id ↔
    ∃ node ∈ s.cluster.iter, node.id = id ∧ node.role = .primary ∧ slot ∈ node.slots := by
  unfold owns
  constructor
  · intro hslot
    rcases hget : s.getNode id with _ | node
    · rw [hget] at hslot
      exact absurd hslot (Finset.notMem_empty _)
    rw [hget] at hslot
    have hid : node.id = id := id_of_getNode hget
    subst hid
    refine ⟨node, mem_iter.2 hget, rfl, ?_⟩
    have howned : slot ∈ node.owned := hslot
    unfold NodeMeta.owned at howned
    split at howned
    · exact ⟨‹_›, howned⟩
    · exact absurd howned (Finset.notMem_empty _)
  · rintro ⟨node, hmem, rfl, hrole, hslot⟩
    have hget : s.getNode node.id = some node := mem_iter.1 hmem
    rw [hget]
    simpa [NodeMeta.owned, hrole] using hslot

theorem oneOwner_iff : s.OneOwner ↔ ∀ a b, a ≠ b → Disjoint (s.owns a) (s.owns b) := by
  simp only [Finset.disjoint_left, mem_owns, OneOwner]
  constructor
  · rintro h a b hne slot ⟨node, hnode, rfl, hrole, hslot⟩ ⟨node', hnode', rfl, hrole', hslot'⟩
    exact h node hnode node' hnode' hrole hrole' hne hslot hslot'
  · intro h a ha b hb hrole hrole' hne slot hslot hslot'
    exact h a.id b.id hne ⟨a, ha, rfl, hrole, hslot⟩ ⟨b, hb, rfl, hrole', hslot'⟩

theorem Calm.oneOwner (h : Calm s t) (hone : s.OneOwner) : t.OneOwner := by
  rw [oneOwner_iff] at hone ⊢
  intro a b hne
  exact (hone a b hne).mono (h.owns a) (h.owns b)

theorem Promoted.oneOwner {campaign : FailoverCampaign} (h : Promoted s t campaign)
    (hone : s.OneOwner) (hclaims : s.ClaimsFreeSlots) : t.OneOwner := by
  rw [oneOwner_iff] at hone ⊢
  have hfree : ∀ id, id ≠ campaign.failedPrimary → id ≠ s.localNodeId →
      campaign.failedPrimary ≠ s.localNodeId →
        Disjoint (s.slotsOf campaign.failedPrimary) (s.owns id) := by
    intro id hfailed hlocal hself
    rw [Finset.disjoint_right]
    intro slot hslot
    obtain ⟨node, hnode, rfl, hrole, hslot⟩ := mem_owns.1 hslot
    exact Finset.disjoint_left.1 (hclaims campaign h.started hself node hnode hrole hfailed hlocal)
      hslot
  intro a b hne
  apply Disjoint.mono (h.owns a) (h.owns b)
  unfold ownsAfter
  simp only [Function.update_apply]
  by_cases ha : a = campaign.failedPrimary
  · rw [if_pos ha]
    exact Finset.disjoint_empty_left _
  by_cases hb : b = campaign.failedPrimary
  · rw [if_pos hb]
    exact Finset.disjoint_empty_right _
  rw [if_neg ha, if_neg hb]
  by_cases hlocal : a = s.localNodeId
  · rw [if_pos hlocal, if_neg (hlocal ▸ hne.symm)]
    exact hfree b hb (hlocal ▸ hne.symm) (hlocal ▸ Ne.symm ha)
  rw [if_neg hlocal]
  by_cases hlocal' : b = s.localNodeId
  · rw [if_pos hlocal']
    exact (hfree a ha hlocal (hlocal' ▸ Ne.symm hb)).symm
  · rw [if_neg hlocal']
    exact hone a b hne

/-- A call that is calm or promotes the node. -/
theorem Effect.oneOwner {out : List Output} (h : Effect s out t) (hone : s.OneOwner)
    (hclaims : ∀ before, .promoted before ∈ out → before.ClaimsFreeSlots) : t.OneOwner := by
  cases h with
  | calm hcalm => exact hcalm.oneOwner hone
  | promoted before campaign pre post hcalm hout hpre hpost hafter =>
    apply hafter.oneOwner (hcalm.oneOwner hone)
    apply hclaims
    rw [hout]
    exact mem_append_right _ mem_cons_self

/-! ## Updates -/

theorem resolveConflicts_refused {conflictId : NodeId} {ids : List NodeId}
    (hmem : conflictId ∈ ids) (hlt : incoming.id < conflictId) :
    (resolveConflicts incoming.id senderAddr ids s).2.1 = true := by
  induction ids generalizing s with
  | nil => cases hmem
  | cons id ids ih =>
    rw [resolveConflicts]
    split
    · rfl
    rename_i hge
    have hrest : conflictId ∈ ids := by
      rcases mem_cons.1 hmem with rfl | hrest
      · exact absurd hlt hge
      · exact hrest
    split
    · exact ih hrest
    · exact ih hrest

theorem mem_conflicts : id ∈ s.conflicts draws incoming ↔
    ∃ node ∈ s.cluster.iter, node.id = id ∧ node.id ≠ incoming.id ∧ node.role = .primary ∧
      ¬ Disjoint node.slots incoming.slots ∧ node.configEpoch = incoming.configEpoch := by
  unfold conflicts
  simp only [mem_map, mem_filter, (draws.order.perm _).mem_iff, decide_eq_true_eq,
    Bool.not_eq_true', ← Bool.not_eq_true, slotSetsDisjoint_iff]
  constructor
  · rintro ⟨node, ⟨hmem, h⟩, rfl⟩
    exact ⟨node, hmem, rfl, h⟩
  · rintro ⟨node, hmem, rfl, h⟩
    exact ⟨node, ⟨hmem, h⟩, rfl⟩

theorem getNode_adoptFailure {existing : NodeMeta} (h : id ≠ incoming.id) :
    (s.adoptFailure incoming existing).getNode id = s.getNode id := by
  unfold adoptFailure
  split
  · rw [getNode_modifyNode, if_neg h]
  · rfl

theorem Refuses.checkUpdate (h : s.Refuses incoming) :
    (s.checkUpdate draws incoming senderAddr).2.1 = true := by
  obtain ⟨existing, hexisting, h⟩ := h
  unfold GossipState.checkUpdate
  rw [hexisting]
  dsimp only
  rcases h with hlt | ⟨heq, other, hmem, hid, hrole, hepoch, hslots⟩
  · rw [if_pos hlt]
  rw [if_neg (by omega), if_pos heq]
  apply resolveConflicts_refused _ hid
  rw [mem_conflicts]
  have hget : s.getNode other.id = some other := mem_iter.1 hmem
  have hne : other.id ≠ incoming.id := (BitVec.ne_of_lt hid).symm
  rw [← getNode_adoptFailure hne] at hget
  exact ⟨other, mem_iter.2 hget, rfl, hne, hrole, hslots, hepoch⟩

theorem resolveConflicts_state {ids : List NodeId}
    (h : s.localNodeId ∉ ids) : (resolveConflicts incoming.id senderAddr ids s).2.2 = s := by
  induction ids with
  | nil => rfl
  | cons id ids ih =>
    rw [mem_cons, not_or] at h
    obtain ⟨hne, hrest⟩ := h
    rw [resolveConflicts]
    split
    · rfl
    · rw [if_neg (Ne.symm hne)]
      exact ih hrest

/-- The check of an update leaves the record of the node itself alone, unless there is a conflict
with it. -/
theorem getNode_checkUpdate (hid : incoming.id ≠ s.localNodeId)
    (hepoch : s.localConfigEpoch ≠ incoming.configEpoch) :
    (s.checkUpdate draws incoming senderAddr).2.2.getNode s.localNodeId =
      s.getNode s.localNodeId := by
  unfold checkUpdate
  split
  · rfl
  rename_i existing hexisting
  split
  · rfl
  split
  · have hlocal : (s.adoptFailure incoming existing).getNode s.localNodeId = some s.localMeta := by
      rw [getNode_adoptFailure hid.symm]
      exact getNode_local
    have hnot : s.localNodeId ∉ (s.adoptFailure incoming existing).conflicts draws incoming := by
      rw [mem_conflicts]
      rintro ⟨node, hmem, hnode, -, -, -, hsame⟩
      have hget : (s.adoptFailure incoming existing).getNode node.id = some node :=
        mem_iter.1 hmem
      rw [hnode, hlocal] at hget
      cases hget
      exact hepoch hsame
    have hsame : (s.adoptFailure incoming existing).localNodeId = s.localNodeId :=
      calm_adoptFailure.localNodeId
    rw [← hsame] at hnot
    rw [resolveConflicts_state hnot, getNode_adoptFailure hid.symm]
  · rfl

/-- A stored record is marked as failed already. -/
theorem failUpdate_storeUpdate (h : incoming.id ≠ s.localNodeId) :
    (s.storeUpdate incoming).failUpdate draws incoming = ([], s.storeUpdate incoming) := by
  have hget : (s.storeUpdate incoming).getNode incoming.id = some incoming := by
    unfold storeUpdate
    rw [if_pos h]
    exact getNode_insertNode.trans (if_pos rfl)
  unfold failUpdate
  split
  · rename_i hfailed
    have hmark : (s.storeUpdate incoming).markFailed incoming.id =
        (false, s.storeUpdate incoming) := by
      rw [markFailed, hget]
      exact if_pos hfailed
    rw [hmark]
    rfl
  · rfl

theorem localMeta_eq (hid : t.localNodeId = s.localNodeId)
    (h : t.getNode s.localNodeId = s.getNode s.localNodeId) : t.localMeta = s.localMeta := by
  have ht : t.getNode t.localNodeId = some t.localMeta := getNode_local
  have hs : s.getNode s.localNodeId = some s.localMeta := getNode_local
  rw [hid, h, hs] at ht
  exact (Option.some.inj ht).symm

theorem localMeta_storeUpdate (h : incoming.id ≠ s.localNodeId) :
    (s.storeUpdate incoming).localMeta = s.localMeta := by
  apply localMeta_eq keepsVotes_storeUpdate.localNodeId
  unfold storeUpdate
  rw [if_pos h]
  exact getNode_insertNode.trans (if_neg h.symm)

/-- The node steps down if the update takes slots of it. -/
theorem owns_stepDown {slot : Fin slotCount} (hrole : incoming.role = .primary)
    (hepoch : s.localConfigEpoch < incoming.configEpoch) (hlocal : s.localMeta.role = .primary)
    (hslot : slot ∈ s.localMeta.slots) (hslot' : slot ∈ incoming.slots) :
    (s.stepDown incoming).owns s.localNodeId = ∅ := by
  have hoverlap : slotSetsDisjoint incoming.slots s.localMeta.slots = false := by
    rw [← Bool.not_eq_true, slotSetsDisjoint_iff, Finset.disjoint_left]
    intro h
    exact h hslot' hslot
  have houtranks : s.outranksLocal incoming = true := by
    simp [outranksLocal, hrole, hepoch, hlocal, hoverlap]
  rw [stepDown, if_pos houtranks, owns_demoteLocal, Function.update_self]

theorem oneOwner_store (hone : s.OneOwner) (hcalm : Calm s t)
    (hlocal : s.localConfigEpoch < incoming.configEpoch → t.localMeta = s.localMeta)
    (hid : incoming.id ≠ s.localNodeId)
    (hfree : incoming.role = .primary → s.BringsFreeSlots incoming) :
    ((t.storeUpdate incoming).stepDown incoming).OneOwner := by
  have hid' : incoming.id ≠ t.localNodeId := by
    rw [hcalm.localNodeId]
    exact hid
  have hsub : ∀ b, ((t.storeUpdate incoming).stepDown incoming).owns b ⊆
      if b = incoming.id then incoming.owned else s.owns b := by
    intro b
    apply (calm_stepDown.owns b).trans
    rw [owns_storeUpdate hid', Function.update_apply]
    split
    · exact subset_rfl
    · exact hcalm.owns b
  have hnew : ∀ b, b ≠ incoming.id →
      Disjoint (((t.storeUpdate incoming).stepDown incoming).owns incoming.id)
        (((t.storeUpdate incoming).stepDown incoming).owns b) := by
    intro b hb
    rw [Finset.disjoint_left]
    intro slot hmine hother
    have hmine' := hsub _ hmine
    have hother' := hsub _ hother
    rw [if_pos rfl] at hmine'
    rw [if_neg hb] at hother'
    obtain ⟨hrole, hslot⟩ : incoming.role = .primary ∧ slot ∈ incoming.slots := by
      unfold NodeMeta.owned at hmine'
      split at hmine'
      · exact ⟨‹_›, hmine'⟩
      · exact absurd hmine' (Finset.notMem_empty _)
    obtain ⟨node, hnode, rfl, hnodeRole, hnodeSlot⟩ := mem_owns.1 hother'
    rcases hfree hrole node hnode hnodeRole hb with hdisjoint | ⟨hself, hepoch⟩
    · exact Finset.disjoint_left.1 hdisjoint hnodeSlot hslot
    -- the slot was the node's own, and the node has stepped down
    have hmeta : node = s.localMeta := by
      have hget : s.getNode node.id = some node := mem_iter.1 hnode
      rw [hself, show s.getNode s.localNodeId = some s.localMeta from
        getNode_local] at hget
      exact (Option.some.inj hget).symm
    have hsame : (t.storeUpdate incoming).localMeta = node := by
      rw [localMeta_storeUpdate hid', hmeta]
      apply hlocal
      rw [localConfigEpoch, ← hmeta]
      exact hepoch
    have hempty : ((t.storeUpdate incoming).stepDown incoming).owns
        (t.storeUpdate incoming).localNodeId = ∅ :=
      owns_stepDown hrole (by rw [localConfigEpoch, hsame]; exact hepoch)
        (by rw [hsame]; exact hnodeRole) (by rw [hsame]; exact hnodeSlot) hslot
    rw [keepsVotes_storeUpdate.localNodeId, hcalm.localNodeId, ← hself] at hempty
    rw [hempty] at hother
    exact absurd hother (Finset.notMem_empty _)
  rw [oneOwner_iff] at hone ⊢
  intro a b hne
  by_cases ha : a = incoming.id
  · subst ha
    exact hnew b hne.symm
  by_cases hb : b = incoming.id
  · subst hb
    exact (hnew a ha).symm
  · have hsa := hsub a
    have hsb := hsub b
    rw [if_neg ha] at hsa
    rw [if_neg hb] at hsb
    exact (hone a b hne).mono hsa hsb

/-- **An update keeps the owners apart** under the condition. -/
theorem oneOwner_applyMeta {senderId : NodeId} (hone : s.OneOwner)
    (hupdate : incoming.id ≠ s.localNodeId → incoming.role = .primary →
      s.Refuses incoming ∨ s.BringsFreeSlots incoming)
    (hclaims : ∀ before, .promoted before ∈ (s.applyMeta draws senderId senderAddr incoming).1 →
      before.ClaimsFreeSlots) :
    (s.applyMeta draws senderId senderAddr incoming).2.OneOwner := by
  have hcheck : Calm s (s.checkUpdate draws incoming senderAddr).2.2 ∧ _ := calm_checkUpdate
  obtain ⟨hcalm, -⟩ := hcheck
  unfold applyMeta at hclaims ⊢
  dsimp only at hclaims ⊢
  split at hclaims
  · rename_i hrefused
    rw [if_pos hrefused]
    exact hcalm.oneOwner hone
  rename_i hrefused
  rw [if_neg hrefused]
  generalize hchecked : (s.checkUpdate draws incoming senderAddr).2.2 = t at hcalm hclaims ⊢
  by_cases hid : incoming.id = s.localNodeId
  · -- the node itself can only step down, or take the place of its primary
    have hid' : incoming.id = t.localNodeId := hid.trans hcalm.localNodeId.symm
    rw [storeUpdate_local hid'] at hclaims ⊢
    have heffect : Effect (t.stepDown incoming) ((t.stepDown incoming).failUpdate draws incoming).1
        _ := effect_failUpdate
    apply (calm_stepDown.trans calm_noteSender).oneOwner
    apply heffect.oneOwner (calm_stepDown.oneOwner (hcalm.oneOwner hone))
    intro before hbefore
    exact hclaims before (mem_append_right _ hbefore)
  have hid' : incoming.id ≠ t.localNodeId := by
    rw [hcalm.localNodeId]
    exact hid
  rw [failUpdate_storeUpdate hid']
  apply calm_noteSender.oneOwner
  apply oneOwner_store hone hcalm _ hid
  · intro hrole
    rcases hupdate hid hrole with hrefuses | hfree
    · exact absurd hrefuses.checkUpdate hrefused
    · exact hfree
  · intro hepoch
    apply localMeta_eq hcalm.localNodeId
    rw [← hchecked]
    exact getNode_checkUpdate hid hepoch.ne

/-! ## Runs -/

/-- **A call keeps the owners apart** under the condition. -/
theorem oneOwner_call (call : Call) (hone : s.OneOwner) (hkeeps : s.KeepsOwners call) :
    (s.call call).2.OneOwner := by
  obtain ⟨hupdate, hclaims⟩ := hkeeps
  cases call with
  | tick nowMs draws => exact effect_tick.oneOwner hone hclaims
  | message message sourceAddr nowMs draws =>
    obtain ⟨header, body⟩ := message
    cases body with
    | empty => exact hone
    | gossip entries => exact calm_handleGossip.1.oneOwner hone
    | update update =>
      rw [call_update] at hclaims ⊢
      cases hmeta : update.toMeta with
      | error e => exact hone
      | ok incoming =>
        rw [hmeta] at hclaims
        exact oneOwner_applyMeta hone
          (hupdate _ sourceAddr nowMs draws update incoming rfl rfl hmeta) hclaims
    | fail failedNodeId => exact effect_fail.oneOwner hone hclaims
    | failoverAuth request =>
      show (s.processFailoverAuth header.senderId request sourceAddr).2.OneOwner
      rw [OneOwner, cluster_processFailoverAuth]
      exact hone
    | failoverAuthAck ack =>
      rcases effect_processFailoverAck with heffect | ⟨campaign, -, -, -, heffect⟩
      · exact heffect.oneOwner hone hclaims
      · exact heffect.oneOwner hone hclaims

/-- **Each slot has one owner in every view**: in every run of a node, whatever messages it
receives, if all calls meet the condition. -/
theorem one_owner_kept (s : GossipState) (calls : List Call) (hstart : s.OneOwner)
    (hkeeps : RunAll (fun s c => (call s c).2) KeepsOwners s calls) :
    (calls.foldl (fun s c => (call s c).2) s).OneOwner :=
  hkeeps.induction (fun _ call hone hsafe => oneOwner_call call hone hsafe) hstart

/-! ### A small cluster -/

section Sample

/-- Node 1 is a replica of node 2, which has failed; node 3 is a primary. -/
def sampleReplica : GossipState :=
  ((new (sampleNode 1 0 (.replica 2) .connected 0)).insertNode
    (sampleNode 2 20 .primary .failed 0)).insertNode (sampleNode 3 30 .primary .connected 0)

/-- An update about a primary. -/
def sampleUpdate (node : NodeMeta) : Call :=
  .message ⟨⟨.update, 3, 0⟩, .update (.fromMeta node)⟩ (sampleAddr 10003) 0 sampleDraws

/-- Node 3 votes for node 1. -/
def sampleAck : Call :=
  .message ⟨⟨.failoverAuthAck, 3, 0⟩, .failoverAuthAck ⟨1, 1⟩⟩ (sampleAddr 10003) 0 sampleDraws

/-- Node 1 asks for votes, and node 4 has given it. -/
def sampleCampaign : GossipState :=
  { sampleReplica with
    failover := some
      { failedPrimary := 2, requestedEpoch := 1, scheduledAtMs := 0, authSent := true,
        votes := {4} } }

/-- A new primary with a slot of its own is stored, and then the node takes the place of node 2. -/
theorem one_owner_kept_promoted :
    ([sampleUpdate (sampleNode 4 40 .primary .connected 0), sampleAck].foldl
      (fun s c => (call s c).2) sampleCampaign).OneOwner := by
  refine one_owner_kept sampleCampaign _ (by unfold OneOwner; decide) ⟨⟨?_, ?_⟩, ⟨?_, ?_⟩, trivial⟩
  · intro message sourceAddr nowMs draws update incoming hcall hbody hmeta _ _
    cases hcall
    cases hbody
    cases hmeta
    right
    unfold BringsFreeSlots
    decide
  · intro before hmem
    cases hmem
  · intro message sourceAddr nowMs draws update incoming hcall hbody
    cases hcall
    cases hbody
  · intro before hmem campaign hcampaign _
    rcases mem_cons.1 hmem with hbefore | hmem
    · cases hbefore
      cases hcampaign
      decide
    · exact (((plain_broadcastUpdate _).append (plain_broadcastUpdate _)) _ hmem).elim

/-- **An update gives a slot a second owner**: node 4 comes with the slot of node 3 and a greater
epoch, and the record of node 3 stays as it is. -/
theorem one_owner_kept_fails : ¬ ∀ (s : GossipState) (calls : List Call), s.OneOwner →
    (calls.foldl (fun s c => (call s c).2) s).OneOwner := by
  intro h
  have hone := h sampleReplica [sampleUpdate (sampleNode 4 30 .primary .connected 1)]
    (by unfold OneOwner; decide)
  unfold OneOwner at hone
  revert hone
  decide

end Sample

end Senko.Cluster.GossipState
