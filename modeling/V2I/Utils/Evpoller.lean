import V2I.Lib.Machine

/-!
# V2I.Utils.Evpoller

Waiting for replies: threads submit events for a package id and a sequence id (`evpoller.cpp`), and
the event loop triggers them while it handles a package of that id (`handle_package` and
`triggered_pkgevent_queue_impl` in `evloop.cpp`).

The events are in two lists. A package looks through one and moves what it leaves to the other; then
the two are swapped. A step is what a thread does while it holds the mutex of the lists.

Packages are handled one after another, without a `handle_package` inside another one, and an event
that waits neither times out nor is destroyed. A triggered event may be submitted again here; the
source refuses that (`-ENOTAVAIL`) as long as it is in a list of its poller.
-/

namespace V2I.Evpoller

/-- `evpoller_pkgevent` of type `evp_evid_package_with_seqid`, with its address -/
structure Pkgevent where
  ptr : ℕ
  seqid : UInt32
  deriving DecidableEq

/-! ## `evp_pkgevent_list` -/

structure EvpPkgeventList where
  /-- `_specific[_id]` -/
  header : List Pkgevent
  /-- `_specific[1 - _id]` -/
  nextHdr : List Pkgevent

namespace EvpPkgeventList

/-- `append`, of an event that is in no list -/
def append (l : EvpPkgeventList) (ev : Pkgevent) : EvpPkgeventList :=
  { l with header := l.header ++ [ev] }

/-- The loop of `dequeue_specific`, up to the call of `trigger`. -/
def scan (seqid : UInt32) : List Pkgevent → List Pkgevent → Option Pkgevent × EvpPkgeventList
  | [], nextHdr => (none, ⟨[], nextHdr⟩)
  | ev :: header, nextHdr =>
      if seqid = ev.seqid then (some ev, ⟨header, nextHdr⟩)
      else scan seqid header (nextHdr ++ [ev])

def dequeueSpecific (l : EvpPkgeventList) (seqid : UInt32) : Option Pkgevent × EvpPkgeventList :=
  scan seqid l.header l.nextHdr

def finalize (l : EvpPkgeventList) : EvpPkgeventList := ⟨l.nextHdr, l.header⟩

/-- `listnode_del` of an event that may be in one of the lists -/
def unlink (l : EvpPkgeventList) (ev : Pkgevent) : EvpPkgeventList :=
  ⟨l.header.filter (· ≠ ev), l.nextHdr.filter (· ≠ ev)⟩

def events (l : EvpPkgeventList) : List Pkgevent := l.header ++ l.nextHdr

end EvpPkgeventList

/-! ## `handle_package` -/

/-- Where the event loop is in `handle_package`. -/
inductive Stage
  /-- before `_queue.dequeue_specific` -/
  | ready
  /-- an event has been taken out of its list and is not triggered yet -/
  | taken (ev : Pkgevent)
  /-- behind the loop of `finalize` -/
  | scanned

/-- `triggered_pkgevent_queue_impl` of the package in hand; whether `finalize` dequeues, and not the
notifier of the listener -/
structure Handling where
  seqid : UInt32
  final : Bool
  stage : Stage

structure State where
  pendings : EvpPkgeventList
  loop : Option Handling

def State.init : State := ⟨⟨[], []⟩, none⟩

/-- What a thread does in one go. -/
inductive Act
  /-- any thread: `evpoller_pkgevent::submit` -/
  | submit (ev : Pkgevent)
  /-- the event loop: a package of the id, with this sequence id -/
  | handlePackage (seqid : UInt32)
  | dequeueSpecific
  | trigger
  /-- the notifier returns -/
  | finalize
  | swap

inductive Reply
  | done
  | accepted (ev : Pkgevent)
  /-- `-ENOTAVAIL` -/
  | refused
  | triggered (ev : Pkgevent) (seqid : UInt32)
  /-- the list in use has no event for the sequence id -/
  | scanned
  | handled (seqid : UInt32)
  deriving DecidableEq

/-- The event that has been taken and is not triggered yet. -/
def State.takenEvents (s : State) : List Pkgevent :=
  match s.loop with
  | some ⟨_, _, .taken ev⟩ => [ev]
  | _ => []

/-- A step of one of the threads, where it is at that step. -/
def step (s : State) : Act → Option (State × Reply)
  | .submit ev =>
      if ev ∈ s.pendings.events then some (s, .refused)
      else some ({ s with pendings := s.pendings.append ev }, .accepted ev)
  | .handlePackage seqid =>
      match s.loop with
      | none => some ({ s with loop := some ⟨seqid, false, .ready⟩ }, .done)
      | some _ => none
  | .dequeueSpecific =>
      match s.loop with
      | some ⟨seqid, final, .ready⟩ =>
          match s.pendings.dequeueSpecific seqid with
          | (none, pendings) =>
              let stage := if final then .scanned else .ready
              some (⟨pendings, some ⟨seqid, final, stage⟩⟩, .scanned)
          | (some ev, pendings) => some (⟨pendings, some ⟨seqid, final, .taken ev⟩⟩, .done)
      | _ => none
  | .trigger =>
      match s.loop with
      | some ⟨seqid, final, .taken ev⟩ =>
          -- `trigger_event` takes it out of the list it is in
          some (⟨s.pendings.unlink ev, some ⟨seqid, final, .ready⟩⟩, .triggered ev seqid)
      | _ => none
  | .finalize =>
      match s.loop with
      | some ⟨seqid, false, .ready⟩ => some ({ s with loop := some ⟨seqid, true, .ready⟩ }, .done)
      | _ => none
  | .swap =>
      match s.loop with
      | some ⟨seqid, _, .scanned⟩ => some (⟨s.pendings.finalize, none⟩, .handled seqid)
      | _ => none

end V2I.Evpoller
