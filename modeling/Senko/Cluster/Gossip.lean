import Senko.Cluster.Node
import Mathlib.Data.Finset.Card
import Mathlib.Data.List.Sort

/-!
# Senko — gossip between the nodes of a cluster (`senko-net/src/cluster/gossip.rs`)

Every node keeps records of all nodes: their role, their state, their configuration epoch and the
slots they own. Nodes exchange their records, and the record with the greater epoch wins. When a
primary has failed, its replicas ask the other primaries for their votes, and one with enough votes
promotes itself to take over the slots.
-/

namespace Senko.Cluster

/-! ## Messages -/

def defaultNodeTimeoutMs : Nat := 15000
def failoverDelayMs : Nat := 500
def failoverJitterMs : Nat := 500

def rolePrimaryFlag : BitVec 16 := 1#16 <<< 8
def roleReplicaFlag : BitVec 16 := 1#16 <<< 9

inductive MessageType where
  | ping
  | pong
  | meet
  | update
  | fail
  | failoverAuth
  | failoverAuthAck
deriving DecidableEq, Repr

structure ClusterMessageHeader where
  msgType : MessageType
  senderId : NodeId
  configEpoch : Nat
deriving DecidableEq, Repr

inductive GossipProtocolError where
  | invalidIp (ip : BitVec 128)
deriving DecidableEq, Repr

/-- IPv4 addresses are mapped to IPv6 addresses. -/
def encodeIp : IpAddr → BitVec 128
  | .v4 octets => 0xffff#96 ++ octets
  | .v6 octets => octets

def decodeSocketAddr (ip : BitVec 128) (port : UInt16) : Except GossipProtocolError SocketAddr :=
  if ip.extractLsb' 32 96 = 0xffff#96 then .ok ⟨.v4 (ip.extractLsb' 0 32), port⟩
  else if ip = 0#128 then .error (.invalidIp ip)
  else .ok ⟨.v6 ip, port⟩

structure GossipEntry where
  nodeId : NodeId
  configEpoch : Nat
  ip : BitVec 128
  port : UInt16
  clusterPort : UInt16
  flags : BitVec 16
  pongReceived : Nat
deriving DecidableEq, Repr

def roleFlag : NodeRole → BitVec 16
  | .primary => rolePrimaryFlag
  | .replica _ => roleReplicaFlag

namespace GossipEntry

def fromMeta (node : NodeMeta) : GossipEntry where
  nodeId := node.id
  configEpoch := node.configEpoch
  ip := encodeIp node.addr.ip
  port := node.addr.port
  clusterPort := node.clusterAddr.port
  flags := node.state.toFlags ||| roleFlag node.role
  pongReceived := node.pongRecv

variable (entry : GossipEntry)

def addr : Except GossipProtocolError SocketAddr := decodeSocketAddr entry.ip entry.port
def clusterAddr : Except GossipProtocolError SocketAddr :=
  decodeSocketAddr entry.ip entry.clusterPort
def nodeState : NodeState := .fromFlags entry.flags

end GossipEntry

structure UpdateMessage where
  nodeId : NodeId
  configEpoch : Nat
  ip : BitVec 128
  port : UInt16
  clusterPort : UInt16
  stateFlags : BitVec 16
  roleFlags : BitVec 16
  primary : NodeId
  slotBitmap : SlotSet
  pongReceived : Nat
deriving DecidableEq

def encodeRole : NodeRole → BitVec 16 × NodeId
  | .primary => (rolePrimaryFlag, 0#160)
  | .replica primary => (roleReplicaFlag, primary)

def decodeRole (flags : BitVec 16) (primary : NodeId) : NodeRole :=
  if flags &&& roleReplicaFlag ≠ 0 then .replica primary else .primary

namespace UpdateMessage

def fromMeta (node : NodeMeta) : UpdateMessage where
  nodeId := node.id
  configEpoch := node.configEpoch
  ip := encodeIp node.addr.ip
  port := node.addr.port
  clusterPort := node.clusterAddr.port
  stateFlags := node.state.toFlags
  roleFlags := (encodeRole node.role).1
  primary := (encodeRole node.role).2
  slotBitmap := node.slots
  pongReceived := node.pongRecv

def toMeta (update : UpdateMessage) : Except GossipProtocolError NodeMeta := do
  let addr ← decodeSocketAddr update.ip update.port
  let clusterAddr ← decodeSocketAddr update.ip update.clusterPort
  .ok { id := update.nodeId, addr, clusterAddr, role := decodeRole update.roleFlags update.primary,
        state := .fromFlags update.stateFlags, pingSent := 0, pongRecv := update.pongReceived,
        configEpoch := update.configEpoch, slots := update.slotBitmap }

end UpdateMessage

structure FailoverAuthRequest where
  requestingNodeId : NodeId
  configEpoch : Nat
  replicationOffset : Nat
  slotBitmap : SlotSet
deriving DecidableEq

structure FailoverAuthAck where
  requestingNodeId : NodeId
  configEpoch : Nat
deriving DecidableEq, Repr

inductive ClusterMessageBody where
  | empty
  | gossip (entries : List GossipEntry)
  | update (update : UpdateMessage)
  | fail (failedNodeId : NodeId)
  | failoverAuth (request : FailoverAuthRequest)
  | failoverAuthAck (ack : FailoverAuthAck)
deriving DecidableEq

structure ClusterMessage where
  header : ClusterMessageHeader
  body : ClusterMessageBody
deriving DecidableEq

inductive Transport where
  | udp
  | tcp
deriving DecidableEq, Repr

structure OutboundEnvelope where
  transport : Transport
  addr : SocketAddr
  message : ClusterMessage
deriving DecidableEq

/-! ## State -/

structure ReplicationTracker where
  primaryReplOffset : Nat := 0
  rttMs : Option Nat := none
deriving DecidableEq, Repr

structure FailoverCampaign where
  failedPrimary : NodeId
  requestedEpoch : Nat
  scheduledAtMs : Nat
  authSent : Bool
  votes : Finset NodeId
deriving DecidableEq

/-- Nobody has reported a node that has no entry in the failure reports. -/
structure GossipState where
  cluster : ClusterState
  nodeTimeoutMs : Nat
  clusterReplicaNoFailover : Bool
  failureReports : NodeId → Finset NodeId
  pingSent : NodeId → Option Nat
  replication : NodeId → Option ReplicationTracker
  votedEpoch : Option Nat
  failover : Option FailoverCampaign

/-- A function that reorders lists. -/
structure Shuffle (α : Type) where
  apply : List α → List α
  perm : ∀ l, (apply l).Perm l

/-- What is not determined by the state and the arguments of a call: random numbers, and the order
in which the table of nodes is iterated. -/
structure Draws where
  order : Shuffle NodeMeta
  targets : Shuffle NodeId
  candidates : Shuffle NodeId
  jitterMs : Fin failoverJitterMs

/-- What a call leaves for the outside: the messages to send. The state in which a node promotes
itself is kept as well. -/
inductive Output where
  | send (envelope : OutboundEnvelope)
  | promoted (before : GossipState)

def slotSetsDisjoint (left right : SlotSet) : Bool :=
  let (small, large) := if left.card ≤ right.card then (left, right) else (right, left)
  decide (∀ slot ∈ small, slot ∉ large)

namespace GossipState

variable (s : GossipState)

def localNodeId : NodeId := s.cluster.localNodeId
def localMeta : NodeMeta := s.cluster.localMeta
def localConfigEpoch : Nat := s.localMeta.configEpoch
def getNode (id : NodeId) : Option NodeMeta := s.cluster.getNode id

def new (localMeta : NodeMeta) : GossipState where
  cluster :=
    { localNodeId := localMeta.id
      nodes := ⟨[{ localMeta with pongRecv := 0 }], List.nodup_singleton _⟩
      knowsLocal := by simp [KeyedTable.get?] }
  nodeTimeoutMs := defaultNodeTimeoutMs
  clusterReplicaNoFailover := false
  failureReports := fun _ => ∅
  pingSent := fun _ => none
  replication := Function.update (fun _ => none) localMeta.id (some {})
  votedEpoch := none
  failover := none

def modifyNode (id : NodeId) (f : NodeMeta → NodeMeta) : GossipState :=
  { s with cluster := s.cluster.modifyNode id f }

def modifyLocal (f : NodeMeta → NodeMeta) : GossipState := s.modifyNode s.localNodeId f

def ensureReplicationTracker (id : NodeId) : GossipState :=
  { s with replication := Function.update s.replication id (some ((s.replication id).getD {})) }

def insertNode (node : NodeMeta) : GossipState :=
  ensureReplicationTracker { s with cluster := s.cluster.insertNode node } node.id

/-- What is assumed of a node that is known only by a message from it. -/
def placeholder (id : NodeId) (addr : SocketAddr) : NodeMeta where
  id := id
  addr := addr
  clusterAddr := addr
  role := .primary
  state := .connected
  pingSent := 0
  pongRecv := 0
  configEpoch := 0
  slots := ∅

/-- What is recorded of a new node from a gossip entry: it owns no slots yet. -/
def metaOfEntry (entry : GossipEntry) (addr clusterAddr : SocketAddr) : NodeMeta where
  id := entry.nodeId
  addr := addr
  clusterAddr := clusterAddr
  role := .primary
  state := entry.nodeState
  pingSent := 0
  pongRecv := entry.pongReceived
  configEpoch := entry.configEpoch
  slots := ∅

/-! ## Sending -/

def makeUpdateFor (id : NodeId) : Option ClusterMessage :=
  (s.getNode id).map fun node =>
    ⟨⟨.update, s.localNodeId, s.localConfigEpoch⟩, .update (.fromMeta node)⟩

def broadcastTargets : List SocketAddr :=
  (s.cluster.iter.filter fun node => node.id ≠ s.localNodeId ∧ node.state ≠ .failed).map
    NodeMeta.clusterAddr

def primaryTargets (failedPrimary : NodeId) : List SocketAddr :=
  (s.cluster.iter.filter fun node => node.id ≠ failedPrimary ∧ node.id ≠ s.localNodeId ∧
    node.role = .primary ∧ node.state ≠ .failed).map NodeMeta.clusterAddr

def sendTo (transport : Transport) (message : ClusterMessage) (addrs : List SocketAddr) :
    List Output :=
  addrs.map fun addr => .send ⟨transport, addr, message⟩

/-- Send what is known of a node to one address. -/
def correction (id : NodeId) (addr : SocketAddr) : List Output :=
  match s.makeUpdateFor id with
  | some message => sendTo .tcp message [addr]
  | none => []

/-- Send what is known of a node to all nodes. -/
def broadcastUpdate (id : NodeId) : List Output :=
  match s.makeUpdateFor id with
  | some message => sendTo .tcp message s.broadcastTargets
  | none => []

def broadcastFail (failedNodeId : NodeId) : List Output :=
  sendTo .udp ⟨⟨.fail, s.localNodeId, s.localConfigEpoch⟩, .fail failedNodeId⟩ s.broadcastTargets

variable (draws : Draws)

def selectPingTargets : List NodeId :=
  let peers := ((draws.order.apply s.cluster.iter).filter fun node =>
    node.id ≠ s.localNodeId ∧ node.state ≠ .failed).map NodeMeta.id
  let targetCount := min (max 3 (Nat.sqrt (max s.cluster.iter.length 1))) peers.length
  (draws.targets.apply peers).take targetCount

/-- The records of the nodes that were not selected before. -/
def selectEntries : Finset NodeId → List NodeId → List GossipEntry × Finset NodeId
  | selected, [] => ([], selected)
  | selected, id :: ids =>
    if id ∈ selected then selectEntries selected ids
    else
      let (entries, selected) := selectEntries (insert id selected) ids
      (((s.getNode id).map GossipEntry.fromMeta).toList ++ entries, selected)

def buildGossipEntries : List GossipEntry :=
  let nodes := draws.order.apply s.cluster.iter
  let sampleSize := min 6 (nodes.length / 2)
  let suspected := (nodes.filter fun node => node.state = .pFail ∨ node.state = .failed).map
    NodeMeta.id
  let (suspects, selected) := s.selectEntries {s.localNodeId} suspected
  let candidates := draws.candidates.apply
    ((nodes.filter fun node => node.id ≠ s.localNodeId).map NodeMeta.id)
  .fromMeta s.localMeta :: suspects ++ (s.selectEntries selected (candidates.take sampleSize)).1

/-! ## Failover -/

def canPromoteFailover (failedPrimary : NodeId) : Bool :=
  (s.getNode failedPrimary).any fun node => node.state = .failed

def totalPrimaryCount : Nat := s.cluster.iter.countP fun node => node.role = .primary

def requiredFailoverVotes : Nat :=
  if s.totalPrimaryCount ≤ 1 then 1 else s.totalPrimaryCount / 2 + 1

def failoverVoteCount (failedPrimary : NodeId) (votes : Finset NodeId) : Nat :=
  if s.totalPrimaryCount ≤ 1 ∧ failedPrimary ≠ s.localNodeId then 1 else votes.card

/-- The epoch that a node takes when it promotes itself. -/
def nextEpoch : Nat := saturatingAdd s.localConfigEpoch 1

/-- The record of the node after its promotion. -/
def promotedMeta (claimedSlots : SlotSet) (newEpoch : Nat) (node : NodeMeta) : NodeMeta :=
  { node with
    role := .primary, configEpoch := newEpoch, state := .connected, slots := claimedSlots }

/-- The record of the primary that was replaced. -/
def replacedMeta (newPrimary : NodeId) (newEpoch : Nat) (node : NodeMeta) : NodeMeta :=
  { node with state := .failed, slots := ∅, role := .replica newPrimary, configEpoch := newEpoch }

/-- The slots that a replica claims when it replaces a primary. -/
def slotsOf (id : NodeId) : SlotSet := ((s.getNode id).map NodeMeta.slots).getD ∅

/-- The new primary follows nobody. -/
def resetOffset : GossipState :=
  { s with
    replication := Function.update s.replication s.localNodeId
      ((s.replication s.localNodeId).map fun tracker : ReplicationTracker =>
        { tracker with primaryReplOffset := 0 }) }

/-- The node takes the place of a primary. -/
def takeOver (failedPrimary : NodeId) : GossipState :=
  ((s.modifyLocal (promotedMeta (s.slotsOf failedPrimary) s.nextEpoch)).resetOffset).modifyNode
    failedPrimary (replacedMeta s.localNodeId s.nextEpoch)

def promoteLocal : List Output × GossipState :=
  match s.failover with
  | none => ([], s)
  | some campaign =>
    let t := { s with failover := none }
    if t.canPromoteFailover campaign.failedPrimary then
      let u := t.takeOver campaign.failedPrimary
      (.promoted s :: (u.broadcastUpdate s.localNodeId ++
        u.broadcastUpdate campaign.failedPrimary), u)
    else ([], t)

/-- The greatest offset of a replica of the primary. -/
def bestOffset (primary : NodeId) (localOffset : Nat) : Nat :=
  (((s.cluster.iter.filter fun node => node.role = .replica primary).map fun node =>
    ((s.replication node.id).map ReplicationTracker.primaryReplOffset).getD 0).max?).getD
      localOffset

def localOffset : Nat :=
  ((s.replication s.localNodeId).map ReplicationTracker.primaryReplOffset).getD 0

def scheduleFailover (nowMs jitterMs : Nat) : GossipState :=
  match s.localMeta.role with
  | .primary => s
  | .replica primary =>
    let extraDelay := min (s.bestOffset primary s.localOffset - s.localOffset) 2000
    { s with
      failover := some
        { failedPrimary := primary, requestedEpoch := s.nextEpoch,
          scheduledAtMs := (nowMs + failoverDelayMs + jitterMs + extraDelay) % 2 ^ 64,
          authSent := false, votes := ∅ } }

def authRequest (requestedEpoch : Nat) : ClusterMessage where
  header := ⟨.failoverAuth, s.localNodeId, requestedEpoch⟩
  body := .failoverAuth
    { requestingNodeId := s.localNodeId, configEpoch := requestedEpoch,
      replicationOffset := s.localOffset, slotBitmap := s.localMeta.slots }

def noteAuthSent (campaign : FailoverCampaign) : GossipState :=
  { s with failover := some { campaign with authSent := true } }

/-- Ask for votes once the time has come. -/
def campaignStep (nowMs : Nat) : List Output × GossipState :=
  match s.failover with
  | none => ([], s)
  | some campaign =>
    if !campaign.authSent ∧ campaign.scheduledAtMs ≤ nowMs then
      let t := s.noteAuthSent campaign
      if t.totalPrimaryCount ≤ 1 then t.promoteLocal
      else (sendTo .udp (t.authRequest campaign.requestedEpoch)
        (t.primaryTargets campaign.failedPrimary), t)
    else ([], s)

def handleFailedPrimary (nowMs : Nat) : List Output × GossipState :=
  match s.localMeta.role with
  | .primary => ([], s)
  | .replica primary =>
    if s.clusterReplicaNoFailover then ([], s)
    else if s.canPromoteFailover primary then
      let t := if s.failover.isNone then s.scheduleFailover nowMs draws.jitterMs else s
      t.campaignStep nowMs
    else ([], s)

/-- The vote of a node counts in the campaign. -/
def countVote (senderId : NodeId) (campaign : FailoverCampaign) : GossipState :=
  { s with failover := some { campaign with votes := insert senderId campaign.votes } }

/-- A primary gives its vote. -/
def processFailoverAuth (senderId : NodeId) (request : FailoverAuthRequest)
    (sourceAddr : SocketAddr) : List Output × GossipState :=
  if s.localMeta.role ≠ .primary ∨ s.localMeta.state.isFailLike then ([], s)
  else if s.votedEpoch = some request.configEpoch then ([], s)
  else
    match (s.getNode request.requestingNodeId).map NodeMeta.role with
    | some (.replica primary) =>
      if s.canPromoteFailover primary then
        (sendTo .udp ⟨⟨.failoverAuthAck, s.localNodeId, s.localConfigEpoch⟩,
            .failoverAuthAck ⟨senderId, request.configEpoch⟩⟩ [sourceAddr],
          { s with votedEpoch := some request.configEpoch })
      else ([], s)
    | _ => ([], s)

/-- The votes of the campaign are enough. -/
def hasEnoughVotes : Bool :=
  s.failover.any fun campaign =>
    s.requiredFailoverVotes ≤ s.failoverVoteCount campaign.failedPrimary campaign.votes

def processFailoverAck (senderId : NodeId) (ack : FailoverAuthAck) : List Output × GossipState :=
  if ack.requestingNodeId ≠ s.localNodeId then ([], s)
  else
    match s.failover with
    | none => ([], s)
    | some campaign =>
      if ack.configEpoch ≠ campaign.requestedEpoch then ([], s)
      else
        let t := s.countVote senderId campaign
        if t.hasEnoughVotes then t.promoteLocal else ([], t)

/-! ## Records -/

/-- The node, if it was not failed before, and whether that is so. -/
def markFailed (id : NodeId) : Bool × GossipState :=
  match s.getNode id with
  | none => (false, s)
  | some node =>
    if node.state = .failed then (false, s)
    else (true, s.modifyNode id fun node => { node with state := .failed })

def observePong (senderId : NodeId) (nowMs : Nat) : GossipState :=
  let seen := s.modifyNode senderId fun node =>
    { node with
      pongRecv := nowMs, state := if node.state = .pFail then .connected else node.state }
  let timed := match seen.pingSent senderId with
    | none => seen
    | some sentAt =>
      { seen with
        pingSent := Function.update seen.pingSent senderId none
        replication := Function.update seen.replication senderId
          (some { (seen.replication senderId).getD {} with rttMs := some (nowMs - sentAt) }) }
  { timed with
    failureReports := Function.update timed.failureReports senderId
      ((timed.failureReports senderId).erase s.localNodeId) }

def report (id reporter : NodeId) : GossipState :=
  { s with
    failureReports := Function.update s.failureReports id (insert reporter (s.failureReports id)) }

/-- A node that has not answered for too long is suspected. -/
def suspectNode (nowMs : Nat) (id : NodeId) : GossipState :=
  if (s.getNode id).any fun node =>
      node.state ≠ .failed ∧ s.nodeTimeoutMs < nowMs - node.pongRecv then
    (s.modifyNode id fun node => { node with state := .pFail }).report id s.localNodeId
  else s

def detectFailure (nowMs majority : Nat) (id : NodeId) : Bool × GossipState :=
  let t := s.suspectNode nowMs id
  if majority ≤ (t.failureReports id).card then t.markFailed id else (false, t)

def detectFailuresOf (nowMs majority : Nat) : List NodeId → GossipState → List NodeId × GossipState
  | [], s => ([], s)
  | id :: ids, s =>
    let (isNew, t) := s.detectFailure nowMs majority id
    let (newlyFailed, t) := detectFailuresOf nowMs majority ids t
    (if isNew then id :: newlyFailed else newlyFailed, t)

def detectFailures (nowMs : Nat) : List NodeId × GossipState :=
  let ids := ((s.cluster.iter.filter fun node => node.id ≠ s.localNodeId).map
    NodeMeta.id).insertionSort (· ≤ ·)
  detectFailuresOf nowMs (s.cluster.iter.length / 2 + 1) ids s

def ensureSenderFromEntries (senderId : NodeId) (sourceAddr : SocketAddr)
    (entries : List GossipEntry) : Except GossipProtocolError GossipState :=
  if (s.getNode senderId).isSome then .ok s
  else
    match entries.find? fun entry => entry.nodeId = senderId with
    | some entry => do
      let addr ← entry.addr
      let clusterAddr ← entry.clusterAddr
      .ok (s.insertNode (metaOfEntry entry addr clusterAddr))
    | none => .ok (s.insertNode (placeholder senderId sourceAddr))

/-- The record after a gossip entry with a greater epoch. -/
def adoptEntry (entry : GossipEntry) (addr clusterAddr : SocketAddr) (node : NodeMeta) : NodeMeta :=
  { node with
    addr, clusterAddr, state := entry.nodeState, pongRecv := entry.pongReceived,
    configEpoch := entry.configEpoch }

/-- The table of nodes after a gossip entry. -/
def mergeRecord (senderClusterAddr : SocketAddr) (entry : GossipEntry)
    (addr clusterAddr : SocketAddr) : List Output × GossipState :=
  match s.getNode entry.nodeId with
  | none => ([], s.insertNode (metaOfEntry entry addr clusterAddr))
  | some known =>
    if known.configEpoch < entry.configEpoch then
      ([], s.modifyNode entry.nodeId (adoptEntry entry addr clusterAddr))
    else if entry.configEpoch = known.configEpoch then
      if entry.nodeState = .failed ∧ known.state ≠ .failed then
        ([], s.modifyNode entry.nodeId fun node => { node with state := .failed })
      else ([], s)
    else (s.correction entry.nodeId senderClusterAddr, s)

def mergeGossipEntry (reporter : NodeId) (senderClusterAddr : SocketAddr) (entry : GossipEntry) :
    Except GossipProtocolError (List Output × GossipState) := do
  let addr ← entry.addr
  let clusterAddr ← entry.clusterAddr
  let (out, t) := s.mergeRecord senderClusterAddr entry addr clusterAddr
  .ok (out, if entry.nodeState.isFailLike then t.report entry.nodeId reporter else t)

/-- The entries before one that cannot be decoded have been merged. -/
def mergeGossipEntries (reporter : NodeId) (senderClusterAddr : SocketAddr) :
    List GossipEntry → GossipState → Except GossipProtocolError (List Output) × GossipState
  | [], s => (.ok [], s)
  | entry :: entries, s =>
    match s.mergeGossipEntry reporter senderClusterAddr entry with
    | .error e => (.error e, s)
    | .ok (out, t) =>
      let (rest, u) := mergeGossipEntries reporter senderClusterAddr entries t
      (rest.map (out ++ ·), u)

/-- The primaries other than the node itself that claim some of its slots in the same epoch. -/
def conflicts (incoming : NodeMeta) : List NodeId :=
  ((draws.order.apply s.cluster.iter).filter fun node =>
    node.id ≠ incoming.id ∧ node.role = .primary ∧
      !slotSetsDisjoint node.slots incoming.slots ∧ node.configEpoch = incoming.configEpoch).map
        NodeMeta.id

/-- A conflict with a greater id ends the update (`true`). In a conflict with the node itself the
node raises its own epoch. -/
def resolveConflicts (incomingId : NodeId) (senderAddr : SocketAddr) :
    List NodeId → GossipState → List Output × Bool × GossipState
  | [], s => ([], false, s)
  | conflictId :: rest, s =>
    if incomingId < conflictId then (s.correction conflictId senderAddr, true, s)
    else if conflictId = s.localNodeId then
      let t := s.modifyLocal fun node => { node with configEpoch := s.nextEpoch }
      let (out, refused, u) := resolveConflicts incomingId senderAddr rest t
      (t.broadcastUpdate s.localNodeId ++ out, refused, u)
    else resolveConflicts incomingId senderAddr rest s

/-- A failure is taken over also from a record of the same epoch. -/
def adoptFailure (incoming existing : NodeMeta) : GossipState :=
  if incoming.state = .failed ∧ existing.state ≠ .failed then
    s.modifyNode incoming.id fun node => { node with state := .failed }
  else s

/-- An update about a node that is known: whether it ends here. -/
def checkUpdate (incoming : NodeMeta) (senderAddr : SocketAddr) :
    List Output × Bool × GossipState :=
  match s.getNode incoming.id with
  | none => ([], false, s)
  | some existing =>
    if incoming.configEpoch < existing.configEpoch then
      (s.correction incoming.id senderAddr, true, s)
    else if incoming.configEpoch = existing.configEpoch then
      let t := s.adoptFailure incoming existing
      resolveConflicts incoming.id senderAddr (t.conflicts draws incoming) t
    else ([], false, s)

/-- A primary with a greater epoch that claims slots of this node. -/
def outranksLocal (incoming : NodeMeta) : Bool :=
  incoming.role = .primary ∧ s.localConfigEpoch < incoming.configEpoch ∧
    s.localMeta.role = .primary ∧ !slotSetsDisjoint incoming.slots s.localMeta.slots

def demoteLocal (newPrimary : NodeId) : GossipState :=
  s.modifyLocal fun node => { node with role := .replica newPrimary }

def stepDown (incoming : NodeMeta) : GossipState :=
  if s.outranksLocal incoming then s.demoteLocal incoming.id else s

/-- The record is replaced, unless it is that of the node itself, which only steps down. -/
def storeUpdate (incoming : NodeMeta) : GossipState :=
  if incoming.id ≠ s.localNodeId then { s with cluster := s.cluster.insertNode incoming }
  else s.stepDown incoming

/-- A failed node may be the primary of this one. Time and random numbers do not come from the
caller. -/
def failUpdate (incoming : NodeMeta) : List Output × GossipState :=
  if incoming.state = .failed then
    let (isNew, t) := s.markFailed incoming.id
    if isNew then t.handleFailedPrimary draws 0 else ([], t)
  else ([], s)

def noteSender (senderId : NodeId) (senderAddr : SocketAddr) : GossipState :=
  if (s.getNode senderId).isNone then s.insertNode (placeholder senderId senderAddr) else s

def applyMeta (senderId : NodeId) (senderAddr : SocketAddr) (incoming : NodeMeta) :
    List Output × GossipState :=
  let (out, refused, t) := s.checkUpdate draws incoming senderAddr
  if refused then (out, t)
  else
    let (failOut, u) := (t.storeUpdate incoming).failUpdate draws incoming
    (out ++ failOut, (u.stepDown incoming).noteSender senderId senderAddr)

def applyUpdate (senderId : NodeId) (senderAddr : SocketAddr) (update : UpdateMessage) :
    Except GossipProtocolError (List Output) × GossipState :=
  match update.toMeta with
  | .error e => (.error e, s)
  | .ok incoming =>
    let (out, t) := s.applyMeta draws senderId senderAddr incoming
    (.ok out, t)

/-! ## Calls -/

def pongMessage : ClusterMessage :=
  ⟨⟨.pong, s.localNodeId, s.localConfigEpoch⟩, .gossip (s.buildGossipEntries draws)⟩

def notePong (header : ClusterMessageHeader) (nowMs : Nat) : GossipState :=
  if header.msgType = .pong then s.observePong header.senderId nowMs else s

def handleGossip (header : ClusterMessageHeader) (entries : List GossipEntry)
    (sourceAddr : SocketAddr) (nowMs : Nat) :
    Except GossipProtocolError (List Output) × GossipState :=
  match s.ensureSenderFromEntries header.senderId sourceAddr entries with
  | .error e => (.error e, s)
  | .ok t =>
    let senderClusterAddr := ((t.getNode header.senderId).map NodeMeta.clusterAddr).getD sourceAddr
    match mergeGossipEntries header.senderId senderClusterAddr entries
      (t.notePong header nowMs) with
    | (.error e, u) => (.error e, u)
    | (.ok out, u) =>
      if header.msgType = .ping ∨ header.msgType = .meet then
        (.ok (out ++ sendTo .udp (u.pongMessage draws) [sourceAddr]), u)
      else (.ok out, u)

def handleMessage (message : ClusterMessage) (sourceAddr : SocketAddr) (nowMs : Nat) :
    Except GossipProtocolError (List Output) × GossipState :=
  match message.body with
  | .empty => (.ok [], s)
  | .gossip entries => s.handleGossip draws message.header entries sourceAddr nowMs
  | .update update => s.applyUpdate draws message.header.senderId sourceAddr update
  | .fail failedNodeId =>
    let (isNew, t) := s.markFailed failedNodeId
    if isNew then
      let (out, u) := t.handleFailedPrimary draws nowMs
      (.ok out, u)
    else (.ok [], t)
  | .failoverAuth request =>
    let (out, t) := s.processFailoverAuth message.header.senderId request sourceAddr
    (.ok out, t)
  | .failoverAuthAck ack =>
    let (out, t) := s.processFailoverAck message.header.senderId ack
    (.ok out, t)

def notePing (nowMs : Nat) (target : NodeId) : GossipState :=
  modifyNode
    { s with pingSent := Function.update s.pingSent target (some nowMs) } target fun node =>
    { node with pingSent := nowMs }

def sendPings (nowMs : Nat) (entries : List GossipEntry) :
    List NodeId → GossipState → List Output × GossipState
  | [], s => ([], s)
  | target :: targets, s =>
    match s.getNode target with
    | none => sendPings nowMs entries targets s
    | some node =>
      let t := s.notePing nowMs target
      let ping : ClusterMessage := ⟨⟨.ping, t.localNodeId, t.localConfigEpoch⟩, .gossip entries⟩
      let (out, u) := sendPings nowMs entries targets t
      (sendTo .udp ping [node.clusterAddr] ++ out, u)

/-- Promotion, if the votes are there. -/
def finishCampaign : List Output × GossipState :=
  match s.failover with
  | none => ([], s)
  | some campaign =>
    if campaign.authSent ∧ s.canPromoteFailover campaign.failedPrimary ∧ s.hasEnoughVotes then
      s.promoteLocal
    else ([], s)

def tick (nowMs : Nat) : List Output × GossipState :=
  let (newlyFailed, t) := s.detectFailures nowMs
  let failOut := newlyFailed.flatMap t.broadcastFail
  let (campaignOut, t) := t.handleFailedPrimary draws nowMs
  let (pingOut, t) :=
    sendPings nowMs (t.buildGossipEntries draws) (t.selectPingTargets draws) t
  let (promoteOut, t) := t.finishCampaign
  (failOut ++ campaignOut ++ pingOut ++ promoteOut, t)

/-- A call of a node from the outside. -/
inductive Call where
  | message (message : ClusterMessage) (sourceAddr : SocketAddr) (nowMs : Nat) (draws : Draws)
  | tick (nowMs : Nat) (draws : Draws)

/-- What a call puts out, and the state after it. A message that fails puts nothing out. -/
def call : Call → List Output × GossipState
  | .message message sourceAddr nowMs draws =>
    let (result, t) := s.handleMessage draws message sourceAddr nowMs
    (result.toOption.getD [], t)
  | .tick nowMs draws => s.tick draws nowMs

end GossipState

/-! ## Nodes for examples -/

def sampleAddr (port : UInt16) : SocketAddr := ⟨.v4 0x7f000001#32, port⟩

def sampleSlot (n : Nat) : Fin slotCount := ⟨n % slotCount, Nat.mod_lt _ (by decide)⟩

/-- A node that owns one slot if it is a primary. -/
def sampleNode (n slot : Nat) (role : NodeRole) (state : NodeState) (configEpoch : Nat) :
    NodeMeta where
  id := BitVec.ofNat 160 n
  addr := sampleAddr (.ofNat n)
  clusterAddr := sampleAddr (.ofNat (10000 + n))
  role := role
  state := state
  pingSent := 0
  pongRecv := 0
  configEpoch := configEpoch
  slots := if role = .primary then {sampleSlot slot} else ∅

def sampleDraws : Draws where
  order := ⟨id, fun _ => .refl _⟩
  targets := ⟨id, fun _ => .refl _⟩
  candidates := ⟨id, fun _ => .refl _⟩
  jitterMs := ⟨0, by decide⟩

end Senko.Cluster
