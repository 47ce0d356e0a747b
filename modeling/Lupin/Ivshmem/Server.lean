import Mathlib.Data.List.FinRange
import Mathlib.Data.List.Nodup
import Mathlib.Logic.Function.Basic
import Lupin.Lib.Transition

/-!
# The ivshmem server and its clients

The server has one listener for each VM and tells every client which other clients there
are, one message for each interrupt vector. A client builds its list of peers from these
messages alone.
-/

namespace Lupin.Ivshmem

open Lupin.Transition

/-- A descriptor that is sent along: the shared memory, or an end of the notifier for a
vector of the connection with this number. -/
inductive Fd where
  | memory
  | read (connection vector : Nat)
  | write (connection vector : Nat)
deriving DecidableEq, Repr

/-- One message of the protocol. -/
structure Message where
  peerId : Option Nat
  fd : Option Fd
deriving DecidableEq, Repr

/-- `IVSHMEM_PROTOCOL_VERSION`. -/
def ivshmemProtocolVersion : Nat := 0

/-! ## The client -/

/-- A peer as a client knows it. -/
structure ClientPeer where
  id : Nat
  vectors : List Fd
deriving DecidableEq, Repr

structure Client where
  peerList : List ClientPeer
  self : ClientPeer
deriving DecidableEq, Repr

/-- `Client::new` on the messages that arrive: the client and the messages behind. -/
def Client.new : List Message → Option (Client × List Message)
  | ⟨some protocol, none⟩ :: ⟨some id, none⟩ :: ⟨none, some _⟩ :: rest =>
      if protocol = ivshmemProtocolVersion then some (⟨[], ⟨id, []⟩⟩, rest) else none
  | _ => none

/-- `Client::handle_server_msg`, `none` for an error. -/
def Client.handleServerMsg (client : Client) (message : Message) : Option Client :=
  match message.peerId with
  | none => none
  | some peerId =>
      match message.fd, client.peerList.findIdx? (·.id = peerId) with
      | none, none => none
      | none, some index => some { client with peerList := client.peerList.eraseIdx index }
      | some fd, some index =>
          some { client with
            peerList := client.peerList.modify index fun peer =>
              { peer with vectors := peer.vectors ++ [fd] } }
      | some fd, none =>
          if peerId = client.self.id then
            some { client with self := { client.self with vectors := client.self.vectors ++ [fd] } }
          else
            some { client with peerList := client.peerList ++ [⟨peerId, [fd]⟩] }

/-- The client once it has processed these messages. -/
def Client.after (messages : List Message) : Option Client := do
  let (client, rest) ← Client.new messages
  rest.foldlM Client.handleServerMsg client

/-! ## The server -/

/-- The server's view of a connection; `sent` is all that went to its socket. -/
structure Peer where
  connection : Nat
  vectors : List Nat
  sent : List Message
deriving DecidableEq

/-- The options of the server: `vm_count`, `vector_count`, `vm_offset`. -/
structure Config where
  vmCount : Nat
  vectorCount : Nat
  vmOffset : Bool

/-- `vectors` of the connections, and how many connections there were. -/
structure Server (config : Config) where
  peers : Fin config.vmCount → Option Peer
  connections : Nat

variable {config : Config}

/-- The id of the client at a listener: `index as u16 + vm_offset as u16`. -/
def Config.idOf (config : Config) (index : Fin config.vmCount) : Nat :=
  index + config.vmOffset.toNat

def Peer.send (peer : Peer) (messages : List Message) : Peer :=
  { peer with sent := peer.sent ++ messages }

/-- `Server::peers`: the ids are those of the listeners. -/
def Server.peerIter (server : Server config) : List (Nat × Peer) :=
  (List.finRange config.vmCount).filterMap fun id => (server.peers id).map (id.val, ·)

/-- Send to all peers that are there. -/
def Server.sendAll (server : Server config) (messages : List Message) : Server config :=
  { server with peers := fun index => (server.peers index).map (·.send messages) }

/-- One message for each of the first `count` vectors; a vector that is not there is a panic. -/
def vectorMessages (id count : Nat) (fd : Nat → Fd) (vectors : List Nat) :
    Option (List Message) :=
  (List.range count).mapM fun i => (vectors[i]?).map fun vector => ⟨some id, some (fd vector)⟩

/-- `Server::handle_new_conn`, `none` for a panic. -/
def Server.handleNewConn (server : Server config) (index : Fin config.vmCount) :
    Option (Server config) := do
  let vectors := List.range config.vectorCount
  let id := config.idOf index
  let greeting : List Message :=
    [⟨some ivshmemProtocolVersion, none⟩, ⟨some id, none⟩, ⟨none, some .memory⟩]
  -- advertise the new peer to others
  let toOthers ← vectorMessages id vectors.length (.write server.connections) vectors
  -- advertise the other peers to the new one
  let ofOthers ← server.peerIter.mapM fun (otherId, other) =>
    vectorMessages otherId vectors.length (.write other.connection) other.vectors
  -- advertise the new peer to itself
  let toItself ← vectorMessages id vectors.length (.read server.connections) vectors
  let others := server.sendAll toOthers
  match server.peers index with
  | some _ => none
  | none =>
      some
        { peers := Function.update others.peers index
            (some ⟨server.connections, vectors, greeting ++ ofOthers.flatten ++ toItself⟩)
          connections := server.connections + 1 }

/-- The branch of `poll_events` for a connection that was closed. -/
def Server.handleClose (server : Server config) (index : Fin config.vmCount) :
    Option (Server config) :=
  match server.peers index with
  | none => none
  | some _ =>
      let left := { server with peers := Function.update server.peers index none }
      some (left.sendAll [⟨some (config.idOf index), none⟩])

inductive Event (config : Config) where
  | connect (index : Fin config.vmCount)
  | close (index : Fin config.vmCount)

/-- `poll_events`, an event at a time; a listener has one live connection at most. -/
def serverMachine (config : Config) : Machine (Server config) (Event config) where
  initial := ⟨fun _ => none, 0⟩
  step server
    | .connect index => server.handleNewConn index
    | .close index => server.handleClose index

/-! ## What a client should know -/

/-- The connection at a listener. -/
def Server.connectionAt (server : Server config) (index : Fin config.vmCount) : Option Nat :=
  (server.peers index).map (·.connection)

/-- A peer with all its vectors, as other clients should know it. -/
def Config.shown (config : Config) (id connection : Nat) : ClientPeer :=
  ⟨id, (List.range config.vectorCount).map (.write connection)⟩

/-- The client at `index` knows itself and exactly the other clients, under the ids these
were given and with all their vectors. -/
structure Client.Knows (client : Client) (server : Server config) (index : Fin config.vmCount)
    (connection : Nat) : Prop where
  self : client.self = ⟨config.idOf index,
    (List.range config.vectorCount).map (.read connection)⟩
  mem_peerList : ∀ peer, peer ∈ client.peerList ↔
    ∃ other ≠ index, ∃ c, server.connectionAt other = some c ∧
      peer = config.shown (config.idOf other) c
  nodup : (client.peerList.map (·.id)).Nodup

/-- Every connected client has processed its messages without error and knows the others. -/
def SharedView (server : Server config) : Prop :=
  ∀ index peer, server.peers index = some peer →
    ∃ client, Client.after peer.sent = some client ∧ client.Knows server index peer.connection

end Lupin.Ivshmem
