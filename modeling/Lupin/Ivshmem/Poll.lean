import Lupin.Ivshmem.View

/-!
# Readiness events

The sockets around the server. A client connects to its listener and closes its end when it
wants to; `poll` reports the connections that wait and the peers that are gone, in any order
among all sockets. What the server sends to a socket whose other end is closed is an error, and
`poll_events` returns it.
-/

namespace Lupin.Ivshmem

open Lupin.Transition

/-- The connections between one client and its listener, numbered as the client made them. -/
structure Sockets where
  made : Nat
  /-- The one that the client has not closed. -/
  held : Option Nat
  /-- Those that `accept` has not returned yet. -/
  backlog : List Nat
  /-- The accepted one that is registered with `poll`. -/
  registered : Option Nat

def Sockets.unused : Sockets := ⟨0, none, [], none⟩

/-- What `poll` watches. -/
inductive Source (config : Config) where
  | listener (index : Fin config.vmCount)
  | peer (index : Fin config.vmCount)

variable {config : Config}

/-- The token that a source is registered with. -/
def Source.token : Source config → Nat
  | .listener index => index
  | .peer index => index + config.vmCount

/-- The server runs, has returned an error from `poll_events`, or has panicked. -/
inductive Progress (config : Config) where
  | running (server : Server config)
  | failed
  | panicked

/-- All peers in the table can be sent to. -/
def Server.reaches (server : Server config) (isOpen : Fin config.vmCount → Bool) : Bool :=
  (List.finRange config.vmCount).all fun index => (server.peers index).isNone || isOpen index

/-- `handle_new_conn` with its sends: to the socket that was accepted, whose other end is open or
not, and one for each vector to every peer in the table. The table is looked at behind them. -/
def Server.welcome (server : Server config) (isOpen : Fin config.vmCount → Bool) (accepted : Bool)
    (index : Fin config.vmCount) : Progress config :=
  if accepted = false then .failed
  else if config.vectorCount ≠ 0 ∧ server.reaches isOpen = false then .failed
  else
    match server.handleNewConn index with
    | some next => .running next
    | none => .panicked

/-- The branch for a closed connection with its sends, one to every peer that is left. -/
def Server.dismiss (server : Server config) (isOpen : Fin config.vmCount → Bool)
    (index : Fin config.vmCount) : Progress config :=
  match server.handleClose index with
  | some next => if next.reaches isOpen then .running next else .failed
  | none => .panicked

/-- One turn of the loop over the events in `poll_events`. The token tells listeners from
peers. -/
def Server.pollEvent (server : Server config) (isOpen : Fin config.vmCount → Bool)
    (accepted : Bool) (token : Nat) : Progress config :=
  if isListener : token < config.vmCount then
    server.welcome isOpen accepted ⟨token, isListener⟩
  else if inRange : token - config.vmCount < config.vmCount then
    server.dismiss isOpen ⟨token - config.vmCount, inRange⟩
  else .panicked

/-- A new connection while the client has closed the one before. -/
def Sockets.connect (sockets : Sockets) : Option Sockets :=
  match sockets.held with
  | some _ => none
  | none => some { sockets with
      made := sockets.made + 1
      held := some sockets.made
      backlog := sockets.backlog ++ [sockets.made] }

def Sockets.close (sockets : Sockets) : Option Sockets :=
  match sockets.held with
  | none => none
  | some _ => some { sockets with held := none }

/-- A waiting connection makes the listener ready; `accept` takes it and the new socket is
registered. -/
def Sockets.accept (sockets : Sockets) : Option Sockets :=
  match sockets.backlog with
  | [] => none
  | first :: rest => some { sockets with backlog := rest, registered := some first }

/-- A registered socket is ready once its other end is closed, and deregistered then. -/
def Sockets.hangUp (sockets : Sockets) : Option Sockets :=
  match sockets.registered with
  | none => none
  | some connection =>
      if sockets.held = some connection then none else some { sockets with registered := none }

/-- The other end of the registered socket is open. -/
def Sockets.peerOpen (sockets : Sockets) : Bool :=
  match sockets.registered with
  | none => false
  | some connection => sockets.held == some connection

/-- The other end of the socket that `accept` returns is open. -/
def Sockets.nextOpen (sockets : Sockets) : Bool :=
  match sockets.backlog with
  | [] => false
  | first :: _ => sockets.held == some first

structure Polled (config : Config) where
  server : Progress config
  sockets : Fin config.vmCount → Sockets

inductive PollAction (config : Config) where
  | connect (index : Fin config.vmCount)
  | close (index : Fin config.vmCount)
  | ready (source : Source config)

/-- The listener whose sockets an action is about. -/
def PollAction.index : PollAction config → Fin config.vmCount
  | .connect index | .close index | .ready (.listener index) | .ready (.peer index) => index

/-- What an action does to the sockets, `none` where it is not possible. -/
def PollAction.onSockets : PollAction config → Sockets → Option Sockets
  | .connect _ => Sockets.connect
  | .close _ => Sockets.close
  | .ready (.listener _) => Sockets.accept
  | .ready (.peer _) => Sockets.hangUp

/-- What an action does to the server, with the sockets as they are before it. -/
def PollAction.onServer (sockets : Fin config.vmCount → Sockets) (server : Server config) :
    PollAction config → Progress config
  | .connect _ | .close _ => .running server
  | .ready (.listener index) => server.pollEvent (fun other => (sockets other).peerOpen)
      (sockets index).nextOpen (Source.listener index).token
  | .ready (.peer index) => server.pollEvent (fun other => (sockets other).peerOpen) false
      (Source.peer index).token

/-- Clients that connect and close, and `poll` that reports one readiness event at a time, until
the server has panicked or returned. -/
def pollMachine (config : Config) : Machine (Polled config) (PollAction config) where
  initial := ⟨.running ⟨fun _ => none, 0⟩, fun _ => .unused⟩
  step state action :=
    match state.server with
    | .running server => (action.onSockets (state.sockets action.index)).map fun sockets =>
        { server := action.onServer state.sockets server
          sockets := Function.update state.sockets action.index sockets }
    | .failed | .panicked => none

/-- Clients have vectors, or a new connection is only reported once no accepted peer of its
listener is left whose closure was not reported. -/
def vectorsOrClosureFirst : Guard (Polled config) (PollAction config) := fun state action _ =>
  match action with
  | .ready (.listener index) => 0 < config.vectorCount ∨ (state.sockets index).registered = none
  | _ => True

/-! ## The peer table and the registered sockets -/

section Invariant

variable {server next : Server config} {sockets : Fin config.vmCount → Sockets}
variable {index : Fin config.vmCount}

theorem Server.pollEvent_listener (isOpen : Fin config.vmCount → Bool) (accepted : Bool) :
    server.pollEvent isOpen accepted (Source.listener index).token =
      server.welcome isOpen accepted index := by
  simp [Server.pollEvent, Source.token]

theorem Server.pollEvent_peer (isOpen : Fin config.vmCount → Bool) (accepted : Bool) :
    server.pollEvent isOpen accepted (Source.peer index).token = server.dismiss isOpen index := by
  simp [Server.pollEvent, Source.token]

theorem Server.isSome_peers_connect (made : server.VectorsMade)
    (transition : server.handleNewConn index = some next) (other : Fin config.vmCount) :
    (next.peers other).isSome =
      Function.update (fun other => (server.peers other).isSome) index true other := by
  obtain ⟨_, peers⟩ := Server.handleNewConn_spec made transition
  rw [peers]
  rcases eq_or_ne other index with rfl | different
  · simp
  · simp [Function.update_of_ne different, Server.sendAll]

theorem Server.isSome_peers_close (transition : server.handleClose index = some next)
    (other : Fin config.vmCount) :
    (next.peers other).isSome =
      Function.update (fun other => (server.peers other).isSome) index false other := by
  unfold Server.handleClose at transition
  split at transition
  · cases transition
  · rw [← Option.some.inj transition]
    rcases eq_or_ne other index with rfl | different
    · simp [Server.sendAll]
    · simp [Function.update_of_ne different, Server.sendAll]

/-- Connections are numbered in the order of their making: the registered one is before those
that wait, and the client holds the last one at most. -/
structure Sockets.Ordered (sockets : Sockets) : Prop where
  held : ∀ connection, sockets.held = some connection → connection + 1 = sockets.made
  backlog : sockets.backlog.Pairwise (· < ·)
  waiting : ∀ connection ∈ sockets.backlog, connection < sockets.made
  registered : ∀ connection, sockets.registered = some connection →
    connection < sockets.made ∧ ∀ later ∈ sockets.backlog, connection < later

theorem Sockets.Ordered.connect {before after : Sockets} (ordered : before.Ordered)
    (done : before.connect = some after) : after.Ordered := by
  unfold Sockets.connect at done
  split at done
  · cases done
  obtain rfl := Option.some.inj done
  refine ⟨fun connection same => ?_, ?_, fun connection waits => ?_, fun connection same => ?_⟩
  · rw [← Option.some.inj same]
  · refine List.pairwise_append.mpr ⟨ordered.backlog, List.pairwise_singleton _ _, ?_⟩
    intro earlier waits last isLast
    rw [List.mem_singleton.mp isLast]
    exact ordered.waiting earlier waits
  · rcases List.mem_append.mp waits with old | new
    · exact (ordered.waiting connection old).trans (Nat.lt_succ_self _)
    · rw [List.mem_singleton.mp new]
      exact Nat.lt_succ_self _
  · obtain ⟨small, first⟩ := ordered.registered connection same
    refine ⟨small.trans (Nat.lt_succ_self _), fun later waits => ?_⟩
    rcases List.mem_append.mp waits with old | new
    · exact first later old
    · rwa [List.mem_singleton.mp new]

theorem Sockets.Ordered.close {before after : Sockets} (ordered : before.Ordered)
    (done : before.close = some after) : after.Ordered := by
  unfold Sockets.close at done
  split at done
  · cases done
  obtain rfl := Option.some.inj done
  exact ⟨nofun, ordered.backlog, ordered.waiting, ordered.registered⟩

theorem Sockets.Ordered.accept {before after : Sockets} (ordered : before.Ordered)
    (done : before.accept = some after) : after.Ordered := by
  unfold Sockets.accept at done
  split at done
  · cases done
  next first rest waits =>
    obtain rfl := Option.some.inj done
    have backlog := ordered.backlog
    have waiting := ordered.waiting
    rw [waits] at backlog waiting
    obtain ⟨early, sorted⟩ := List.pairwise_cons.mp backlog
    refine ⟨ordered.held, sorted, fun c later => waiting c (List.mem_cons_of_mem _ later), ?_⟩
    intro connection same
    rw [← Option.some.inj same]
    exact ⟨waiting first List.mem_cons_self, early⟩

theorem Sockets.Ordered.hangUp {before after : Sockets} (ordered : before.Ordered)
    (done : before.hangUp = some after) : after.Ordered := by
  unfold Sockets.hangUp at done
  split at done
  · cases done
  obtain ⟨_, same⟩ := Option.ite_none_left_eq_some.mp done
  obtain rfl := Option.some.inj same
  exact ⟨ordered.held, ordered.backlog, ordered.waiting, nofun⟩

/-- While another connection waits, the client has closed the registered one. -/
theorem Sockets.Ordered.not_peerOpen {before after : Sockets} (ordered : before.Ordered)
    (done : before.accept = some after) : before.peerOpen = false := by
  unfold Sockets.accept at done
  split at done
  · cases done
  next first rest waits =>
    unfold Sockets.peerOpen
    split
    · rfl
    next connection same =>
      obtain ⟨_, earlier⟩ := ordered.registered connection same
      have waiting : first ∈ before.backlog := by rw [waits]; exact List.mem_cons_self
      have := earlier first waiting
      have := ordered.waiting first waiting
      refine beq_eq_false_iff_ne.mpr fun held => ?_
      have := ordered.held connection held
      omega

/-- The table has a peer where a socket is registered. -/
structure Polled.Tracks (server : Server config) (sockets : Fin config.vmCount → Sockets) :
    Prop where
  made : server.VectorsMade
  isSome_peers : ∀ index, (server.peers index).isSome = (sockets index).registered.isSome
  ordered : ∀ index, (sockets index).Ordered

theorem Polled.Tracks.initial : Tracks (⟨fun _ => none, 0⟩ : Server config) fun _ => .unused where
  made := fun _ _ present => by cases present
  isSome_peers := fun _ => rfl
  ordered := fun _ => ⟨nofun, .nil, nofun, nofun⟩

theorem Sockets.ordered_update (ordered : ∀ index, (sockets index).Ordered) {changed : Sockets}
    (here : changed.Ordered) (other : Fin config.vmCount) :
    (Function.update sockets index changed other).Ordered := by
  rcases eq_or_ne other index with rfl | different
  · rwa [Function.update_self]
  · rw [Function.update_of_ne different]
    exact ordered other

/-- A client alone leaves the registered sockets as they are. -/
theorem Polled.Tracks.client (tracks : Tracks server sockets) {changed : Sockets}
    (same : changed.registered = (sockets index).registered) (ordered : changed.Ordered) :
    Tracks server (Function.update sockets index changed) := by
  refine ⟨tracks.made, fun other => ?_, Sockets.ordered_update tracks.ordered ordered⟩
  rw [tracks.isSome_peers]
  rcases eq_or_ne other index with rfl | different
  · rw [Function.update_self, same]
  · rw [Function.update_of_ne different]

/-- A new connection where no socket is registered. -/
theorem Polled.Tracks.accept (tracks : Tracks server sockets) {changed : Sockets}
    (accepted : (sockets index).accept = some changed)
    (free : (sockets index).registered.isSome = false) :
    ∃ next, server.handleNewConn index = some next ∧
      Tracks next (Function.update sockets index changed) := by
  have registered : changed.registered.isSome := by
    unfold Sockets.accept at accepted
    split at accepted
    · cases accepted
    · rw [← Option.some.inj accepted]
      rfl
  have outcome : server.handleNewConn index = _ := Server.handleNewConn_eq tracks.made
  rw [tracks.isSome_peers index, if_neg (Bool.eq_false_iff.mp free)] at outcome
  refine ⟨_, outcome, tracks.made.connect outcome, fun other => ?_,
    Sockets.ordered_update tracks.ordered ((tracks.ordered index).accept accepted)⟩
  rw [Server.isSome_peers_connect tracks.made outcome]
  rcases eq_or_ne other index with rfl | different
  · simp only [Function.update_self, registered]
  · simp only [Function.update_of_ne different, tracks.isSome_peers]

/-- A new connection while the one before it is still registered: what is advertised to that peer
cannot be sent. Without vectors nothing is, and the server panics. -/
theorem Polled.Tracks.accept_again (tracks : Tracks server sockets) {changed : Sockets}
    (accepted : (sockets index).accept = some changed)
    (busy : (sockets index).registered.isSome = true) (isOpen : Bool) :
    server.welcome (fun other => (sockets other).peerOpen) isOpen index =
      if isOpen = false ∨ 0 < config.vectorCount then .failed else .panicked := by
  have unreached : server.reaches (fun other => (sockets other).peerOpen) = false := by
    rw [Server.reaches, List.all_eq_false]
    refine ⟨index, List.mem_finRange index, ?_⟩
    have present : (server.peers index).isNone = false := by
      rw [Option.isNone_eq_false_iff, tracks.isSome_peers, busy]
    rw [present, (tracks.ordered index).not_peerOpen accepted]
    decide
  have panics : server.handleNewConn index = none := by
    rw [Server.handleNewConn_eq tracks.made, if_pos (by rw [tracks.isSome_peers, busy])]
  simp only [Server.welcome, unreached, panics, and_true]
  by_cases closed : isOpen = false
  · rw [if_pos closed, if_pos (.inl closed)]
  · rw [if_neg closed]
    by_cases vectors : config.vectorCount = 0
    · rw [if_neg (not_not.mpr vectors), if_neg (by simp [closed, vectors])]
    · rw [if_pos vectors, if_pos (.inr (Nat.pos_of_ne_zero vectors))]

/-- A closure that is reported finds its peer in the table. -/
theorem Polled.Tracks.hangUp (tracks : Tracks server sockets) {changed : Sockets}
    (gone : (sockets index).hangUp = some changed) :
    ∃ next, server.handleClose index = some next ∧
      Tracks next (Function.update sockets index changed) := by
  have ordered := (tracks.ordered index).hangUp gone
  unfold Sockets.hangUp at gone
  split at gone
  · cases gone
  next connection registered =>
    obtain ⟨_, same⟩ := Option.ite_none_left_eq_some.mp gone
    have cleared : changed.registered = none := by rw [← Option.some.inj same]
    obtain ⟨peer, present⟩ : ∃ peer, server.peers index = some peer := by
      rw [← Option.isSome_iff_exists, tracks.isSome_peers, registered]
      rfl
    obtain ⟨next, closed⟩ : ∃ next, server.handleClose index = some next := by
      simp [Server.handleClose, present]
    refine ⟨next, closed, tracks.made.close closed, fun other => ?_,
      Sockets.ordered_update tracks.ordered ordered⟩
    rw [Server.isSome_peers_close closed]
    rcases eq_or_ne other index with rfl | different
    · simp only [Function.update_self, cleared, Option.isSome_none]
    · simp only [Function.update_of_ne different, tracks.isSome_peers]

theorem Sockets.registered_connect {before after : Sockets} (done : before.connect = some after) :
    after.registered = before.registered := by
  unfold Sockets.connect at done
  split at done
  · cases done
  · rw [← Option.some.inj done]

theorem Sockets.registered_close {before after : Sockets} (done : before.close = some after) :
    after.registered = before.registered := by
  unfold Sockets.close at done
  split at done
  · cases done
  · rw [← Option.some.inj done]

/-- The server runs with its table as the sockets are, or has returned an error. -/
def Polled.Sane (state : Polled config) : Prop :=
  match state.server with
  | .running server => Tracks server state.sockets
  | .failed => True
  | .panicked => False

theorem Polled.Tracks.listener (tracks : Tracks server sockets) {changed : Sockets}
    (accepted : (sockets index).accept = some changed)
    (allowed : 0 < config.vectorCount ∨ (sockets index).registered = none) (isOpen : Bool) :
    Sane ⟨server.welcome (fun other => (sockets other).peerOpen) isOpen index,
      Function.update sockets index changed⟩ := by
  cases busy : (sockets index).registered.isSome with
  | true =>
      have vectors : 0 < config.vectorCount := allowed.resolve_right fun none => by
        rw [none] at busy
        cases busy
      rw [tracks.accept_again accepted busy, if_pos (.inr vectors)]
      trivial
  | false =>
      obtain ⟨next, welcomed, tracked⟩ := tracks.accept accepted busy
      simp only [Server.welcome, welcomed, Sane]
      split_ifs
      · trivial
      · trivial
      · exact tracked

theorem Polled.Tracks.peer (tracks : Tracks server sockets) {changed : Sockets}
    (gone : (sockets index).hangUp = some changed) :
    Sane ⟨server.dismiss (fun other => (sockets other).peerOpen) index,
      Function.update sockets index changed⟩ := by
  obtain ⟨next, closed, tracked⟩ := tracks.hangUp gone
  simp only [Server.dismiss, closed, Sane]
  split_ifs
  · exact tracked
  · trivial

/-- One action on a server that runs. -/
theorem Polled.Tracks.step (tracks : Tracks server sockets) {action : PollAction config}
    {changed : Sockets} (possible : action.onSockets (sockets action.index) = some changed)
    (allowed : ∀ index, action = .ready (.listener index) →
      0 < config.vectorCount ∨ (sockets index).registered = none) :
    Sane ⟨action.onServer sockets server, Function.update sockets action.index changed⟩ := by
  match action with
  | .connect index =>
      exact tracks.client (Sockets.registered_connect possible)
        ((tracks.ordered index).connect possible)
  | .close index =>
      exact tracks.client (Sockets.registered_close possible)
        ((tracks.ordered index).close possible)
  | .ready (.listener index) =>
      simp only [PollAction.onServer, Server.pollEvent_listener]
      exact tracks.listener possible (allowed index rfl) _
  | .ready (.peer index) =>
      simp only [PollAction.onServer, Server.pollEvent_peer]
      exact tracks.peer possible

end Invariant

/-- Whatever the clients do and in whatever order `poll` reports it, the server does not panic, if
clients have vectors or new connections are reported behind the closures of their
predecessors. -/
theorem poll_events_never_panics {config : Config} {state : Polled config}
    (reached : (pollMachine config).Reachable vectorsOrClosureFirst state) :
    state.server ≠ .panicked := by
  have sane : state.Sane := by
    refine reached.invariant Polled.Tracks.initial ?_
    rintro ⟨server | _ | _, sockets⟩ action next sane taken allowed
    · obtain ⟨changed, possible, rfl⟩ := Option.map_eq_some_iff.mp taken
      refine Polled.Tracks.step sane possible ?_
      rintro index rfl
      exact allowed
    · cases taken
    · cases taken
  intro panicked
  unfold Polled.Sane at sane
  rw [panicked] at sane
  exact sane

def Progress.isRunning : Progress config → Bool
  | .running _ => true
  | _ => false

def Progress.hasPanicked : Progress config → Bool
  | .panicked => true
  | _ => false

/-- Two clients, of which the first one comes back. -/
def closedThenBack : List (PollAction ⟨2, 0, false⟩) :=
  [.connect ⟨0, by decide⟩, .connect ⟨1, by decide⟩, .ready (.listener ⟨1, by decide⟩),
    .ready (.listener ⟨0, by decide⟩), .close ⟨0, by decide⟩, .connect ⟨0, by decide⟩,
    .ready (.peer ⟨0, by decide⟩), .ready (.listener ⟨0, by decide⟩)]

theorem poll_events_never_panics_closedThenBack :
    (((pollMachine ⟨2, 0, false⟩).final closedThenBack).sockets ⟨0, by decide⟩).registered =
        some 1 ∧
      ((pollMachine ⟨2, 0, false⟩).final closedThenBack).server.isRunning = true ∧
      ((pollMachine ⟨2, 0, false⟩).final closedThenBack).server ≠ .panicked := by
  refine ⟨by decide +kernel, by decide +kernel, poll_events_never_panics
    (Machine.reachable_final (fun state action _ => match action with
      | .ready (.listener index) => (state.sockets index).registered == none
      | _ => true) ?_ closedThenBack (by decide +kernel))⟩
  rintro state (index | index | (index | index)) next met
  · trivial
  · trivial
  · exact .inr (beq_iff_eq.mp met)
  · trivial

/-- The client comes back, and the event for its new connection is the first of the batch. -/
def backBeforeClosed (vectorCount : Nat) : List (PollAction ⟨1, vectorCount, false⟩) :=
  [.connect ⟨0, Nat.one_pos⟩, .ready (.listener ⟨0, Nat.one_pos⟩), .close ⟨0, Nat.one_pos⟩,
    .connect ⟨0, Nat.one_pos⟩, .ready (.listener ⟨0, Nat.one_pos⟩)]

/-- All actions are possible, no send fails, and the last action makes the server panic. -/
theorem reconnect_reported_first_panics :
    ((pollMachine ⟨1, 0, false⟩).runFrom (pollMachine ⟨1, 0, false⟩).initial
      (backBeforeClosed 0)).map (·.server.hasPanicked) = some true := by
  decide +kernel

/-- With a vector the new peer is advertised to the closed one first, which fails. -/
example : ((pollMachine ⟨1, 1, false⟩).runFrom (pollMachine ⟨1, 1, false⟩).initial
    (backBeforeClosed 1)).map (·.server.hasPanicked) = some false := by
  decide +kernel

end Lupin.Ivshmem
