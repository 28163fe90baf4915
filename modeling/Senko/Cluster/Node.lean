import Senko.Cluster.Slot
import Senko.Lib.KeyedTable
import Mathlib.Data.Finset.Basic

/-!
# Senko — nodes of a cluster (`senko-cluster/src/node.rs`)

What a node knows of the nodes of its cluster, itself included.
-/

namespace Senko.Cluster

/-- 20 bytes, read as a big-endian number: the order of the bytes is the order of the numbers. -/
abbrev NodeId := BitVec 160

/-- A set of slots, also as a bitmap of `SLOT_BITMAP_BYTES` bytes. -/
abbrev SlotSet := Finset (Fin slotCount)

inductive IpAddr where
  | v4 (octets : BitVec 32)
  | v6 (octets : BitVec 128)
deriving DecidableEq, Repr

structure SocketAddr where
  ip : IpAddr
  port : UInt16
deriving DecidableEq, Repr

inductive NodeRole where
  | primary
  | replica (primary : NodeId)
deriving DecidableEq, Repr

inductive NodeState where
  | connected
  | disconnected
  | handshaking
  | pFail
  | failed
deriving DecidableEq, Repr

namespace NodeState

def connectedBit : BitVec 16 := 1#16 <<< 0
def disconnectedBit : BitVec 16 := 1#16 <<< 1
def handshakingBit : BitVec 16 := 1#16 <<< 2
def pfailBit : BitVec 16 := 1#16 <<< 3
def failBit : BitVec 16 := 1#16 <<< 4

def toFlags : NodeState → BitVec 16
  | connected => connectedBit
  | disconnected => disconnectedBit
  | handshaking => handshakingBit
  | pFail => pfailBit
  | failed => failBit

def fromFlags (flags : BitVec 16) : NodeState :=
  if flags &&& failBit ≠ 0 then failed
  else if flags &&& pfailBit ≠ 0 then pFail
  else if flags &&& handshakingBit ≠ 0 then handshaking
  else if flags &&& disconnectedBit ≠ 0 then disconnected
  else connected

def isFailLike : NodeState → Bool
  | pFail | failed => true
  | _ => false

end NodeState

structure NodeMeta where
  id : NodeId
  addr : SocketAddr
  clusterAddr : SocketAddr
  role : NodeRole
  state : NodeState
  pingSent : Nat
  pongRecv : Nat
  configEpoch : Nat
  slots : SlotSet
deriving DecidableEq

/-- Changing a record does not change whose record it is. -/
def NodeMeta.change (f : NodeMeta → NodeMeta) (node : NodeMeta) : NodeMeta :=
  { f node with id := node.id }

theorem NodeMeta.id_change (f : NodeMeta → NodeMeta) {id : NodeId} (node : NodeMeta)
    (h : node.id = id) : (node.change f).id = id := h

/-- A node knows itself. -/
structure ClusterState where
  localNodeId : NodeId
  nodes : KeyedTable NodeMeta.id
  knowsLocal : (nodes.get? localNodeId).isSome

namespace ClusterState

variable (c : ClusterState)

def getNode (id : NodeId) : Option NodeMeta := c.nodes.get? id

def insertNode (node : NodeMeta) : ClusterState where
  localNodeId := c.localNodeId
  nodes := c.nodes.insert node
  knowsLocal := by
    rw [KeyedTable.get?_insert]
    split
    · rfl
    · exact c.knowsLocal

/-- Change the record of a node through `get_node_mut`, if there is one. -/
def modifyNode (id : NodeId) (f : NodeMeta → NodeMeta) : ClusterState where
  localNodeId := c.localNodeId
  nodes := c.nodes.modify id (.change f) (NodeMeta.id_change f)
  knowsLocal := by
    rw [KeyedTable.get?_modify]
    split
    · rename_i heq
      rw [Option.isSome_map, ← heq]
      exact c.knowsLocal
    · exact c.knowsLocal

def localMeta : NodeMeta := (c.getNode c.localNodeId).get c.knowsLocal

/-- The records, in no order that a caller could rely on. -/
def iter : List NodeMeta := c.nodes.rows

variable {c} {id id' : NodeId} {node : NodeMeta}

theorem getNode_insertNode :
    (c.insertNode node).getNode id = if id = node.id then some node else c.getNode id :=
  KeyedTable.get?_insert

theorem getNode_modifyNode (f : NodeMeta → NodeMeta) : (c.modifyNode id f).getNode id' =
      if id' = id then (c.getNode id).map (.change f) else c.getNode id' :=
  KeyedTable.get?_modify (NodeMeta.change f) (NodeMeta.id_change f)

theorem id_of_getNode (h : c.getNode id = some node) :
    node.id = id := (KeyedTable.get?_eq_some.1 h).2

theorem mem_iter : node ∈ c.iter ↔ c.getNode node.id = some node := KeyedTable.mem_rows

theorem getNode_local : c.getNode c.localNodeId = some c.localMeta :=
  (Option.some_get c.knowsLocal).symm

end ClusterState

end Senko.Cluster
