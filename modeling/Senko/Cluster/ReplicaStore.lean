import Senko.Cluster.Replication
import Senko.Store.Commands
import Senko.Store.Dump
import Senko.Store.KeyCommands

/-!
# Senko — replication on stores

The stores of a replica: commands arrive on the wire and are dispatched, and snapshot records are
restored. The command table is a parameter.
-/

namespace Senko.Cluster

/-- An argument as the commands see it. -/
def commandArg : Resp.Frame → Frame
  | .simpleString value => .simpleString value
  | .simpleError value => .simpleError value
  | .integer value => .integer value
  | .bulkString value => .bulkString value
  | .array aggregate => .array ⟨aggregate.len, aggregate.data⟩
  | .null => .null
  | .boolean value => .boolean value
  | .double value => .double value
  | .bigNumber value => .bigNumber value
  | .blobError value => .blobError value
  | .verbatimString encoding data => .verbatimString encoding data
  | .map aggregate => .map ⟨aggregate.len, aggregate.data⟩
  | .set aggregate => .set ⟨aggregate.len, aggregate.data⟩
  | .push aggregate => .push ⟨aggregate.len, aggregate.data⟩

def unknownCommand (command : Bytes) : SenkoError :=
  let command := (String.fromUTF8? ⟨(fromUtf8Lossy command).toArray⟩).getD ""
  .protocolMessage ("ERR unknown command '" ++ command ++ "'")

/-- The command of a name, if the table has it, on the arguments of a frame. That the source asks
for `GET` and `SET` first, and hides two debugging commands, is a matter of the table. -/
def dispatch (table : Bytes → Option (List Frame → Command Response)) (command : Bytes)
    (args : List Resp.Frame) (store : Store) : Option (Except SenkoError Unit × Store) :=
  match table command with
  | none => some (.error (unknownCommand command), store)
  | some run =>
    (run (args.map commandArg) store).map fun (result, store) => (result.map fun _ => (), store)

section Store

variable (env : Env) (checksum : Bytes → UInt64) (now : Nat)

def applySnapshotRecord (store : Store) (record : SnapshotRecord) :
    Option (Except ReplError Unit × Store) :=
  match restoreValue env checksum record.dump with
  | none => none
  | some (.error e) => some (.error (.store (.inr e)), store)
  | some (.ok value) =>
    let (store, _) := store.set env now record.key value {}
    some (.ok (), match record.expiresAt with
      | some expiresAt => store.setExpiry env now record.key.bytes expiresAt
      | none => store.removeExpiry env now record.key.bytes)

def storeOps (table : Bytes → Option (List Frame → Command Response)) : StoreOps Store where
  execute := executeWireCommand env.std (dispatch table)
  applySnapshotRecord := applySnapshotRecord env checksum now

end Store

end Senko.Cluster
