import Lupin.Ivshmem.Server

/-!
# One view of the peers

What a client makes of the messages the server sends, and that the lists of all
connected clients agree with the server's.
-/

namespace Lupin.Ivshmem

open Lupin.Transition

/-! ## Processing messages -/

section Client

variable {client : Client} {id : Nat} {fds : List Fd}

/-- The messages for the vectors of one peer. -/
def advertise (id : Nat) (fds : List Fd) : List Message :=
  fds.map fun fd => ⟨some id, some fd⟩

theorem findIdx?_of_fresh {peers : List ClientPeer} (fresh : ∀ peer ∈ peers, peer.id ≠ id) :
    peers.findIdx? (fun peer => decide (peer.id = id)) = none :=
  List.findIdx?_eq_none_iff.mpr (by simpa using fresh)

theorem modify_concat (peers : List ClientPeer) (peer : ClientPeer)
    (change : ClientPeer → ClientPeer) :
    (peers ++ [peer]).modify peers.length change = peers ++ [change peer] := by
  induction peers with
  | nil => rfl
  | cons first rest inductionHypothesis => simpa using inductionHypothesis

/-- Further vectors of the peer at the end of the list. -/
theorem foldlM_advertise_last {peers : List ClientPeer} {vectors : List Fd}
    (fresh : ∀ peer ∈ peers, peer.id ≠ id)
    (last : client.peerList = peers ++ [⟨id, vectors⟩]) :
    (advertise id fds).foldlM Client.handleServerMsg client =
      some { client with peerList := peers ++ [⟨id, vectors ++ fds⟩] } := by
  induction fds generalizing client vectors with
  | nil =>
      rw [List.append_nil, ← last]
      rfl
  | cons fd rest inductionHypothesis =>
      have handled : client.handleServerMsg ⟨some id, some fd⟩ =
          some { client with peerList := peers ++ [⟨id, vectors ++ [fd]⟩] } := by
        simp [Client.handleServerMsg, last, List.findIdx?_append, findIdx?_of_fresh fresh,
          modify_concat]
      simp only [advertise, List.map_cons, List.foldlM_cons, handled, Option.bind_eq_bind,
        Option.bind_some]
      refine (inductionHypothesis rfl).trans ?_
      simp

/-- The vectors of a peer the client does not know yet. -/
theorem foldlM_advertise_new (fresh : ∀ peer ∈ client.peerList, peer.id ≠ id)
    (notSelf : id ≠ client.self.id) (some_ : fds ≠ []) :
    (advertise id fds).foldlM Client.handleServerMsg client =
      some { client with peerList := client.peerList ++ [⟨id, fds⟩] } := by
  cases fds with
  | nil => exact absurd rfl some_
  | cons fd rest =>
      have handled : client.handleServerMsg ⟨some id, some fd⟩ =
          some { client with peerList := client.peerList ++ [⟨id, [fd]⟩] } := by
        simp [Client.handleServerMsg, findIdx?_of_fresh fresh, notSelf]
      simp only [advertise, List.map_cons, List.foldlM_cons, handled, Option.bind_eq_bind,
        Option.bind_some]
      have last : (Client.mk (client.peerList ++ [⟨id, [fd]⟩]) client.self).peerList =
          client.peerList ++ [⟨id, [fd]⟩] := rfl
      exact foldlM_advertise_last fresh last

/-- The client's own vectors. -/
theorem foldlM_advertise_self (fresh : ∀ peer ∈ client.peerList, peer.id ≠ client.self.id) :
    (advertise client.self.id fds).foldlM Client.handleServerMsg client =
      some { client with self := { client.self with vectors := client.self.vectors ++ fds } } := by
  induction fds generalizing client with
  | nil => simp [advertise]
  | cons fd rest inductionHypothesis =>
      have handled : client.handleServerMsg ⟨some client.self.id, some fd⟩ =
          some { client with
            self := { client.self with vectors := client.self.vectors ++ [fd] } } := by
        simp [Client.handleServerMsg, findIdx?_of_fresh fresh]
      simp only [advertise, List.map_cons, List.foldlM_cons, handled, Option.bind_eq_bind,
        Option.bind_some]
      refine (inductionHypothesis (by exact fresh)).trans ?_
      simp

/-- The advertisements of several peers to a client that knows none of them. -/
theorem foldlM_advertise_all {others : List ClientPeer}
    (distinct : (others.map (·.id)).Nodup)
    (fresh : ∀ peer ∈ client.peerList, ∀ other ∈ others, peer.id ≠ other.id)
    (notSelf : ∀ other ∈ others, other.id ≠ client.self.id)
    (some_ : ∀ other ∈ others, other.vectors ≠ []) :
    (others.flatMap fun other => advertise other.id other.vectors).foldlM
        Client.handleServerMsg client =
      some { client with peerList := client.peerList ++ others } := by
  induction others generalizing client with
  | nil => simp
  | cons other rest inductionHypothesis =>
      rw [List.map_cons, List.nodup_cons] at distinct
      have first := foldlM_advertise_new
        (fun peer member => fresh peer member other List.mem_cons_self)
        (notSelf other List.mem_cons_self) (some_ other List.mem_cons_self)
      rw [List.flatMap_cons, List.foldlM_append, first, Option.bind_eq_bind, Option.bind_some]
      refine (inductionHypothesis distinct.2 ?_ ?_ ?_).trans (by simp)
      · intro peer member later inRest
        rcases List.mem_append.mp member with old | new
        · exact fresh peer old later (List.mem_cons_of_mem _ inRest)
        · rw [List.mem_singleton.mp new]
          exact fun same => distinct.1 (List.mem_map.mpr ⟨later, inRest, same.symm⟩)
      · exact fun later inRest => notSelf later (List.mem_cons_of_mem _ inRest)
      · exact fun later inRest => some_ later (List.mem_cons_of_mem _ inRest)

/-- A deletion takes out the peer with that id. -/
theorem handleServerMsg_delete (distinct : (client.peerList.map (·.id)).Nodup)
    {peer : ClientPeer} (member : peer ∈ client.peerList) :
    ∃ peerList, client.handleServerMsg ⟨some peer.id, none⟩ = some { client with peerList } ∧
      (peerList.map (·.id)).Nodup ∧
      ∀ other, other ∈ peerList ↔ other ∈ client.peerList ∧ other.id ≠ peer.id := by
  obtain ⟨front, back, split⟩ := List.append_of_mem member
  rw [split, List.map_append, List.map_cons, List.nodup_middle, List.nodup_cons] at distinct
  obtain ⟨absent, distinct⟩ := distinct
  rw [← List.map_append] at absent distinct
  have inFront : ∀ other ∈ front ++ back, other.id ≠ peer.id := fun other inRest same =>
    absent (List.mem_map.mpr ⟨other, inRest, same⟩)
  refine ⟨front ++ back, ?_, distinct, ?_⟩
  · have found : client.peerList.findIdx? (fun other => decide (other.id = peer.id)) =
        some front.length := by
      rw [split, List.findIdx?_append, findIdx?_of_fresh fun other inRest =>
        inFront other (List.mem_append_left _ inRest), List.findIdx?_cons]
      simp
    have erased : client.peerList.eraseIdx front.length = front ++ back := by
      rw [split, List.eraseIdx_append_of_length_le le_rfl]
      simp
    simp [Client.handleServerMsg, found, erased]
  · intro other
    rw [split]
    constructor
    · intro inRest
      refine ⟨?_, inFront other inRest⟩
      rcases List.mem_append.mp inRest with before | behind
      · exact List.mem_append_left _ before
      · exact List.mem_append_right _ (List.mem_cons_of_mem _ behind)
    · rintro ⟨inList, different⟩
      rcases List.mem_append.mp inList with before | here
      · exact List.mem_append_left _ before
      · rcases List.mem_cons.mp here with rfl | behind
        · exact absurd rfl different
        · exact List.mem_append_right _ behind

theorem Client.new_append {messages rest : List Message}
    (done : Client.new messages = some (client, rest)) (more : List Message) :
    Client.new (messages ++ more) = some (client, rest ++ more) := by
  unfold Client.new at done
  split at done
  · split at done
    next version =>
      obtain ⟨rfl, rfl⟩ := Prod.mk.inj (Option.some.inj done)
      simp only [List.cons_append, Client.new, if_pos version]
    · cases done
  · cases done

/-- Messages that arrive later are processed by the client as it is by then. -/
theorem Client.after_append {messages : List Message}
    (done : Client.after messages = some client) (more : List Message) :
    Client.after (messages ++ more) = more.foldlM Client.handleServerMsg client := by
  obtain ⟨⟨started, rest⟩, new, processed⟩ := Option.bind_eq_some_iff.mp done
  simp only at processed
  rw [Client.after, Client.new_append new more]
  exact (List.foldlM_append ..).trans (by rw [processed]; rfl)

end Client

/-! ## What the server sends -/

section Server

variable {config : Config} {server next : Server config} {index : Fin config.vmCount}

theorem mapM_eq_map {α β : Type} {l : List α} {f : α → Option β} {g : α → β}
    (returns : ∀ a ∈ l, f a = some (g a)) : l.mapM f = some (l.map g) := by
  induction l with
  | nil => rfl
  | cons a rest inductionHypothesis =>
      rw [List.mapM_cons, returns a List.mem_cons_self,
        inductionHypothesis fun b member => returns b (List.mem_cons_of_mem _ member)]
      rfl

theorem vectorMessages_range (id count : Nat) (fd : Nat → Fd) :
    vectorMessages id count fd (List.range count) =
      some (advertise id ((List.range count).map fd)) := by
  rw [vectorMessages, mapM_eq_map (g := fun vector => ⟨some id, some (fd vector)⟩)]
  · simp [advertise]
  · intro vector member
    rw [List.getElem?_range (List.mem_range.mp member)]
    rfl

theorem Config.idOf_injective : Function.Injective config.idOf := by
  intro first second same
  exact Fin.ext (Nat.add_right_cancel same)

theorem Server.mem_peerIter {id : Nat} {peer : Peer} :
    (id, peer) ∈ server.peerIter ↔
      ∃ other : Fin config.vmCount, server.peers other = some peer ∧ other.val = id := by
  simp [Server.peerIter, List.mem_filterMap, Option.map_eq_some_iff]

theorem Server.nodup_peerIter : (server.peerIter.map Prod.fst).Nodup := by
  rw [Server.peerIter, List.map_filterMap]
  refine (List.nodup_finRange _).filterMap fun first second id ofFirst ofSecond => ?_
  simp only [Option.map_map, Option.mem_def, Option.map_eq_some_iff, Function.comp_apply]
    at ofFirst ofSecond
  obtain ⟨_, _, rfl⟩ := ofFirst
  obtain ⟨_, _, same⟩ := ofSecond
  exact Fin.ext same.symm

/-- Every connected peer has all its vectors. -/
def Server.VectorsMade (server : Server config) : Prop :=
  ∀ other peer, server.peers other = some peer → peer.vectors = List.range config.vectorCount

/-- The messages to the others about a new connection. -/
def Server.announcement (server : Server config) (index : Fin config.vmCount) : List Message :=
  advertise (config.idOf index) ((List.range config.vectorCount).map (.write server.connections))

/-- The peers that are shown to a new client. -/
def Server.shownPeers (server : Server config) : List ClientPeer :=
  server.peerIter.map fun other => config.shown other.1 other.2.connection

/-- The messages to a new client, when the peers `others` are shown to it. -/
def welcome (config : Config) (index : Fin config.vmCount) (connection : Nat)
    (others : List ClientPeer) : List Message :=
  [⟨some ivshmemProtocolVersion, none⟩, ⟨some (config.idOf index), none⟩,
      ⟨none, some .memory⟩] ++
    (others.flatMap fun other => advertise other.id other.vectors) ++
    advertise (config.idOf index) ((List.range config.vectorCount).map (.read connection))

/-- With the vectors made, only a peer that is there already keeps a client out. -/
theorem Server.handleNewConn_eq (made : server.VectorsMade) :
    server.handleNewConn index =
      if (server.peers index).isSome then none
      else some
        { peers := Function.update (server.sendAll (server.announcement index)).peers index
            (some ⟨server.connections, List.range config.vectorCount,
              welcome config index server.connections server.shownPeers⟩)
          connections := server.connections + 1 } := by
  have ofOthers : (server.peerIter.mapM fun other => vectorMessages other.1 config.vectorCount
      (.write other.2.connection) other.2.vectors) =
      some (server.peerIter.map fun other => advertise other.1
        ((List.range config.vectorCount).map (.write other.2.connection))) := by
    refine mapM_eq_map fun other member => ?_
    obtain ⟨index, connected, _⟩ := Server.mem_peerIter.mp member
    rw [made index other.2 connected, vectorMessages_range]
  simp only [Server.handleNewConn, List.length_range, vectorMessages_range, ofOthers,
    Option.bind_eq_bind, Option.bind_some]
  cases server.peers index with
  | some peer => rfl
  | none =>
      simp only [welcome, Server.shownPeers, List.flatMap_map]
      rfl

theorem Server.handleNewConn_spec (made : server.VectorsMade)
    (transition : server.handleNewConn index = some next) :
    server.peers index = none ∧
      next.peers = Function.update (server.sendAll (server.announcement index)).peers index
        (some ⟨server.connections, List.range config.vectorCount,
          welcome config index server.connections server.shownPeers⟩) := by
  rw [Server.handleNewConn_eq made, Option.ite_none_left_eq_some] at transition
  obtain ⟨absent, same⟩ := transition
  exact ⟨by simpa using absent, by rw [← Option.some.inj same]⟩

theorem Server.VectorsMade.sendAll (made : server.VectorsMade) (messages : List Message) :
    (server.sendAll messages).VectorsMade := by
  intro other peer present
  obtain ⟨before, was, rfl⟩ := Option.map_eq_some_iff.mp present
  exact made other before was

theorem Server.VectorsMade.connect (made : server.VectorsMade)
    (transition : server.handleNewConn index = some next) : next.VectorsMade := by
  obtain ⟨_, peers⟩ := Server.handleNewConn_spec made transition
  intro other peer present
  rw [peers] at present
  rcases eq_or_ne other index with rfl | different
  · rw [Function.update_self] at present
    rw [← Option.some.inj present]
  · rw [Function.update_of_ne different] at present
    exact made.sendAll _ other peer present

theorem Server.VectorsMade.close (made : server.VectorsMade)
    (transition : server.handleClose index = some next) : next.VectorsMade := by
  unfold Server.handleClose at transition
  split at transition
  · cases transition
  · rw [← Option.some.inj transition]
    refine Server.VectorsMade.sendAll (fun other peer present => ?_) _
    rcases eq_or_ne other index with rfl | different
    · simp at present
    · exact made other peer (by simpa [Function.update_of_ne different] using present)

/-- A client connects while the listeners' numbers are the ids, or while it is alone. -/
def numbersAreIds : Guard (Server config) (Event config) := fun server event _ =>
  match event with
  | .connect _ => config.vmOffset = false ∨ ∀ other, server.peers other = none
  | .close _ => True

theorem Config.shown_vectors_ne_nil (positive : 0 < config.vectorCount) (id connection : Nat) :
    (config.shown id connection).vectors ≠ [] := by
  simpa [Config.shown] using positive.ne'

section Knows

variable {client : Client} {other : Fin config.vmCount} {connection fresh : Nat}

theorem Client.Knows.id_ne (knows : client.Knows server other connection)
    (absent : server.connectionAt index = none) :
    ∀ peer ∈ client.peerList, peer.id ≠ config.idOf index := by
  intro peer member same
  obtain ⟨third, _, c, connected, rfl⟩ := (knows.mem_peerList peer).mp member
  obtain rfl := Config.idOf_injective same
  exact absurd (connected.symm.trans absent) (by simp)

/-- A client that was there learns of the new one. -/
theorem Client.Knows.connect (positive : 0 < config.vectorCount)
    (knows : client.Knows server other connection) (different : other ≠ index)
    (absent : server.connectionAt index = none)
    (connected : next.connectionAt = Function.update server.connectionAt index (some fresh)) :
    ∃ later, (advertise (config.idOf index)
        ((List.range config.vectorCount).map (.write fresh))).foldlM
          Client.handleServerMsg client = some later ∧ later.Knows next other connection := by
  have notSelf : config.idOf index ≠ client.self.id := by
    rw [knows.self]
    exact fun same => different (Config.idOf_injective same).symm
  refine ⟨_, foldlM_advertise_new (knows.id_ne absent) notSelf
    (Config.shown_vectors_ne_nil positive 0 fresh), knows.self, ?_, ?_⟩
  · intro peer
    rw [List.mem_append, knows.mem_peerList, List.mem_singleton]
    constructor
    · rintro (⟨third, others, c, known, rfl⟩ | rfl)
      · have old : third ≠ index := by
          rintro rfl
          exact absurd (known.symm.trans absent) (by simp)
        exact ⟨third, others, c, by rw [connected, Function.update_of_ne old, known], rfl⟩
      · exact ⟨index, different.symm, fresh, by rw [connected, Function.update_self], rfl⟩
    · rintro ⟨third, others, c, known, rfl⟩
      rw [connected] at known
      rcases eq_or_ne third index with rfl | old
      · rw [Function.update_self] at known
        obtain rfl := Option.some.inj known
        exact Or.inr rfl
      · exact Or.inl ⟨third, others, c, by rwa [Function.update_of_ne old] at known, rfl⟩
  · rw [List.map_append, List.map_singleton, List.nodup_append]
    refine ⟨knows.nodup, List.nodup_singleton _, ?_⟩
    intro id old id' new same
    obtain ⟨peer, member, rfl⟩ := List.mem_map.mp old
    exact knows.id_ne absent peer member (same.trans (List.mem_singleton.mp new))

/-- A client that stays forgets the one that leaves. -/
theorem Client.Knows.close {gone : Nat} (knows : client.Knows server other connection)
    (different : other ≠ index) (present : server.connectionAt index = some gone)
    (connected : next.connectionAt = Function.update server.connectionAt index none) :
    ∃ later, client.handleServerMsg ⟨some (config.idOf index), none⟩ = some later ∧
      later.Knows next other connection := by
  have member : config.shown (config.idOf index) gone ∈ client.peerList :=
    (knows.mem_peerList _).mpr ⟨index, different.symm, gone, present, rfl⟩
  obtain ⟨peerList, handled, nodup, mem⟩ := handleServerMsg_delete knows.nodup member
  refine ⟨_, handled, knows.self, ?_, nodup⟩
  intro peer
  rw [mem, knows.mem_peerList]
  constructor
  · rintro ⟨⟨third, others, c, known, rfl⟩, remains⟩
    have stays : third ≠ index := by
      rintro rfl
      exact remains rfl
    exact ⟨third, others, c, by rw [connected, Function.update_of_ne stays, known], rfl⟩
  · rintro ⟨third, others, c, known, rfl⟩
    rw [connected] at known
    have stays : third ≠ index := by
      rintro rfl
      simp at known
    rw [Function.update_of_ne stays] at known
    exact ⟨⟨third, others, c, known, rfl⟩, fun same => stays (Config.idOf_injective same)⟩

end Knows

/-- The view of a new client, built from its greeting, the advertisements of the others and
its own. -/
theorem knows_of_welcome {others : List ClientPeer} (positive : 0 < config.vectorCount)
    (absent : server.connectionAt index = none)
    (connected : next.connectionAt =
      Function.update server.connectionAt index (some server.connections))
    (mem : ∀ peer, peer ∈ others ↔ ∃ other c, server.connectionAt other = some c ∧
      peer = config.shown (config.idOf other) c)
    (nodup : (others.map (·.id)).Nodup) :
    ∃ client, Client.after (welcome config index server.connections others) = some client ∧
      client.Knows next index server.connections := by
  have old : ∀ {other c}, server.connectionAt other = some c → other ≠ index := by
    rintro other c known rfl
    exact absurd (known.symm.trans absent) (by simp)
  have notSelf : ∀ peer ∈ others, peer.id ≠ config.idOf index := by
    intro peer member same
    obtain ⟨other, c, known, rfl⟩ := (mem peer).mp member
    exact old known (Config.idOf_injective same)
  have greeted : Client.after [⟨some ivshmemProtocolVersion, none⟩,
      ⟨some (config.idOf index), none⟩, ⟨none, some .memory⟩] =
        some ⟨[], ⟨config.idOf index, []⟩⟩ := by
    simp [Client.after, Client.new]
  have advertised := (Client.after_append greeted _).trans
    (foldlM_advertise_all nodup (by simp) notSelf fun peer member => by
      obtain ⟨other, c, _, rfl⟩ := (mem peer).mp member
      exact Config.shown_vectors_ne_nil positive _ c)
  have itself (fds : List Fd) : (advertise (config.idOf index) fds).foldlM
      Client.handleServerMsg ⟨others, ⟨config.idOf index, []⟩⟩ =
        some ⟨others, ⟨config.idOf index, fds⟩⟩ :=
    @foldlM_advertise_self ⟨others, ⟨config.idOf index, []⟩⟩ fds notSelf
  refine ⟨_, (Client.after_append advertised _).trans (itself _), rfl, ?_, nodup⟩
  · intro peer
    rw [mem]
    constructor
    · rintro ⟨other, c, known, rfl⟩
      exact ⟨other, old known, c, by rw [connected, Function.update_of_ne (old known), known], rfl⟩
    · rintro ⟨other, different, c, known, rfl⟩
      exact ⟨other, c, by rwa [connected, Function.update_of_ne different] at known, rfl⟩

/-! ## The view over a run -/

@[simp] theorem Server.connectionAt_sendAll (server : Server config) (messages : List Message) :
    (server.sendAll messages).connectionAt = server.connectionAt := by
  funext other
  simp [Server.connectionAt, Server.sendAll, Peer.send, Function.comp_def]

/-- The advertisements a new client gets carry the ids of the others. -/
theorem Server.mem_shownPeers (server : Server config)
    (ids : config.vmOffset = false ∨ ∀ other, server.peers other = none) (peer : ClientPeer) :
    peer ∈ server.shownPeers ↔
      ∃ other c, server.connectionAt other = some c ∧
        peer = config.shown (config.idOf other) c := by
  have numbered : ∀ other, server.peers other ≠ none → other.val = config.idOf other := by
    intro other connected
    rcases ids with noOffset | alone
    · simp [Config.idOf, noOffset]
    · exact absurd (alone other) connected
  rw [Server.shownPeers, List.mem_map]
  constructor
  · rintro ⟨⟨id, otherPeer⟩, member, rfl⟩
    obtain ⟨other, connected, rfl⟩ := Server.mem_peerIter.mp member
    refine ⟨other, otherPeer.connection, by simp [Server.connectionAt, connected], ?_⟩
    rw [← numbered other (by simp [connected])]
  · rintro ⟨other, c, known, rfl⟩
    obtain ⟨otherPeer, connected, rfl⟩ := Option.map_eq_some_iff.mp known
    refine ⟨(other.val, otherPeer), Server.mem_peerIter.mpr ⟨other, connected, rfl⟩, ?_⟩
    rw [← numbered other (by simp [connected])]

theorem Server.nodup_shownPeers (server : Server config) :
    (server.shownPeers.map (·.id)).Nodup := by
  rw [Server.shownPeers, List.map_map]
  exact server.nodup_peerIter

/-- What holds between the events of a run. -/
structure Consistent (server : Server config) : Prop where
  made : server.VectorsMade
  view : SharedView server

theorem Consistent.connect (positive : 0 < config.vectorCount) (inv : Consistent server)
    (transition : server.handleNewConn index = some next)
    (ids : config.vmOffset = false ∨ ∀ other, server.peers other = none) : Consistent next := by
  obtain ⟨absent, peers⟩ := Server.handleNewConn_spec inv.made transition
  have notConnected : server.connectionAt index = none := by simp [Server.connectionAt, absent]
  have connected : next.connectionAt =
      Function.update server.connectionAt index (some server.connections) := by
    funext other
    rcases eq_or_ne other index with rfl | different
    · simp [Server.connectionAt, peers]
    · rw [Function.update_of_ne different,
        ← server.connectionAt_sendAll (server.announcement index),
        Server.connectionAt, peers, Function.update_of_ne different, Server.connectionAt]
  have cases : ∀ other peer, next.peers other = some peer →
      (other = index ∧ peer = ⟨server.connections, List.range config.vectorCount,
        welcome config index server.connections server.shownPeers⟩) ∨
      (other ≠ index ∧ ∃ before, server.peers other = some before ∧
        peer = before.send (server.announcement index)) := by
    intro other peer present
    rw [peers] at present
    rcases eq_or_ne other index with rfl | different
    · rw [Function.update_self] at present
      exact Or.inl ⟨rfl, (Option.some.inj present).symm⟩
    · rw [Function.update_of_ne different] at present
      obtain ⟨before, was, rfl⟩ := Option.map_eq_some_iff.mp present
      exact Or.inr ⟨different, before, was, rfl⟩
  refine ⟨inv.made.connect transition, fun other peer present => ?_⟩
  rcases cases other peer present with ⟨rfl, rfl⟩ | ⟨different, before, was, rfl⟩
  · exact knows_of_welcome positive notConnected connected (server.mem_shownPeers ids)
      server.nodup_shownPeers
  · obtain ⟨client, processed, knows⟩ := inv.view other before was
    obtain ⟨later, handled, informed⟩ :=
      knows.connect positive different notConnected connected
    exact ⟨later, (Client.after_append processed _).trans handled, informed⟩

theorem Consistent.close (inv : Consistent server)
    (transition : server.handleClose index = some next) : Consistent next := by
  have made := inv.made.close transition
  unfold Server.handleClose at transition
  split at transition
  · cases transition
  next gone present =>
    have peers := congrArg Server.peers (Option.some.inj transition).symm
    have stays : ∀ other peer, next.peers other = some peer → other ≠ index ∧
        ∃ before, server.peers other = some before ∧
          peer = before.send [⟨some (config.idOf index), none⟩] := by
      intro other peer here
      rw [peers] at here
      obtain ⟨before, was, rfl⟩ := Option.map_eq_some_iff.mp here
      have different : other ≠ index := by
        rintro rfl
        simp at was
      exact ⟨different, before, by simpa [Function.update_of_ne different] using was, rfl⟩
    have connected : next.connectionAt = Function.update server.connectionAt index none := by
      rw [← Option.some.inj transition, Server.connectionAt_sendAll]
      funext other
      rcases eq_or_ne other index with rfl | different
      · simp [Server.connectionAt]
      · simp [Server.connectionAt, Function.update_of_ne different]
    refine ⟨made, fun other peer here => ?_⟩
    obtain ⟨different, before, was, rfl⟩ := stays other peer here
    obtain ⟨client, processed, knows⟩ := inv.view other before was
    have connectedBefore : server.connectionAt index = some gone.connection := by
      simp [Server.connectionAt, present]
    obtain ⟨later, handled, informed⟩ := knows.close different connectedBefore connected
    exact ⟨later, (Client.after_append processed _).trans (by simpa using handled), informed⟩

theorem consistent_of_reachable (positive : 0 < config.vectorCount)
    (reached : (serverMachine config).Reachable numbersAreIds server) : Consistent server := by
  induction reached with
  | initial =>
      refine ⟨?_, ?_⟩
      · intro other peer present
        cases present
      · intro other peer present
        cases present
  | @step state next event _ transition allowed inductionHypothesis =>
      cases event with
      | connect index => exact inductionHypothesis.connect positive transition allowed
      | close index => exact inductionHypothesis.close transition

end Server

/-- As long as a client that connects finds the listeners numbered by the ids of their
clients, or no client at all, every connected client knows exactly the others. -/
theorem peers_share_view {config : Config} (positive : 0 < config.vectorCount)
    {server : Server config}
    (reached : (serverMachine config).Reachable numbersAreIds server) : SharedView server :=
  (consistent_of_reachable positive reached).view

/-- Three clients without an offset, of which one leaves. -/
def threeClients : List (Event ⟨3, 2, false⟩) :=
  [.connect ⟨0, by decide⟩, .connect ⟨2, by decide⟩, .connect ⟨1, by decide⟩,
    .close ⟨0, by decide⟩]

theorem peers_share_view_threeClients :
    ((serverMachine ⟨3, 2, false⟩).runFrom (serverMachine ⟨3, 2, false⟩).initial
      threeClients).isSome = true ∧
    SharedView ((serverMachine ⟨3, 2, false⟩).final threeClients) := by
  refine ⟨by decide +kernel, peers_share_view (by decide) ?_⟩
  refine Machine.reachable_final (fun _ _ _ => true) ?_ threeClients (by decide +kernel)
  rintro server (index | index) next _
  · exact Or.inl rfl
  · trivial

/-- Two clients with an offset. -/
def twoClientsOffset : List (Event ⟨2, 1, true⟩) :=
  [.connect ⟨0, by decide⟩, .connect ⟨1, by decide⟩]

/-- With an offset the second client is told the listener's number of the first one, 0, which
was given the id 1. -/
theorem second_client_told_listener :
    let server := (serverMachine ⟨2, 1, true⟩).final twoClientsOffset
    ((server.peers ⟨1, by decide⟩).bind fun peer => Client.after peer.sent) =
        some ⟨[⟨0, [.write 0 0]⟩], ⟨2, [.read 1 0]⟩⟩ ∧
      Config.idOf ⟨2, 1, true⟩ ⟨0, by decide⟩ = 1 ∧ ¬ SharedView server := by
  intro server
  have told : ((server.peers ⟨1, by decide⟩).bind fun peer => Client.after peer.sent) =
      some ⟨[⟨0, [.write 0 0]⟩], ⟨2, [.read 1 0]⟩⟩ := by decide +kernel
  refine ⟨told, rfl, fun view => ?_⟩
  obtain ⟨peer, connected, after⟩ := Option.bind_eq_some_iff.mp told
  obtain ⟨client, processed, knows⟩ := view _ peer connected
  obtain rfl := Option.some.inj (processed.symm.trans after)
  obtain ⟨other, _, c, _, same⟩ := (knows.mem_peerList _).mp List.mem_cons_self
  exact absurd (congrArg ClientPeer.id same) (by simp [Config.shown, Config.idOf])

end Lupin.Ivshmem
