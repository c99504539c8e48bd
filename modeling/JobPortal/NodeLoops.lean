import JobPortal.ChannelSockets
import JobPortal.LazyQueue

/-! The goroutines of a node, from `Start` to `Stop`. `Receiver` takes packets out of the socket and
hands those for the node to `Processor` over a bounded channel. `Stop` tells the goroutines one
after another to leave their loops, and waits for each of them. -/
namespace JobPortal.Daemons

open Goroutines Runs Transport
open Gossip (LazyQueue LazyEvent resendQueueSize)

variable {M : Type}

def procQueueSize : ℕ := 1000

inductive ReceiverPC (M : Type)
  | polling
  /-- In `Recv`. -/
  | receiving
  /-- At the send to `procQueue`. -/
  | holding (pkt : Packet M)
  | relaying (pkt : Packet M)
  | stopped
  deriving DecidableEq

/-- A call that hangs does not return any more. -/
inductive ProcessorPC (M : Type)
  | polling
  | processing (pkt : Packet M) (hangs : Bool)
  | stopped
  deriving DecidableEq

inductive DaemonPC
  | polling
  | turning (hangs : Bool)
  | stopped
  deriving DecidableEq

inductive Daemon
  | sender
  | antiEntropy
  | heartbeat
  deriving DecidableEq

inductive Stopping
  | running
  | lazySender
  | processor
  | receiver
  | sender
  | regular
  | returned
  deriving DecidableEq

namespace Stopping

/-- How many of its waits `Stop` has come to. -/
def rank : Stopping → ℕ
  | .running => 0
  | .lazySender => 1
  | .processor => 2
  | .receiver => 3
  | .sender => 4
  | .regular => 5
  | .returned => 6

def procStop (s : Stopping) : Prop := 2 ≤ s.rank

def recvStop (s : Stopping) : Prop := 3 ≤ s.rank

def daemonStop (s : Stopping) : Daemon → Prop
  | .sender => 4 ≤ s.rank
  | .antiEntropy | .heartbeat => 5 ≤ s.rank

instance (s : Stopping) : Decidable s.procStop := inferInstanceAs (Decidable (_ ≤ _))

instance (s : Stopping) : Decidable s.recvStop := inferInstanceAs (Decidable (_ ≤ _))

instance (s : Stopping) : (d : Daemon) → Decidable (s.daemonStop d)
  | .sender => inferInstanceAs (Decidable (4 ≤ s.rank))
  | .antiEntropy | .heartbeat => inferInstanceAs (Decidable (5 ≤ s.rank))

end Stopping

/-- The durations are in nanoseconds. -/
structure LoopConfig where
  ackTimeout : ℤ
  antiEntropyInterval : ℤ
  heartbeatInterval : ℤ

/-- A node that was started. `processed` and `relayed` are for the statements only: the packets that
`Processor` and `Receiver` are done with. -/
structure NodeLoops (M : Type) where
  myAddr : String
  receiver : ReceiverPC M := .polling
  procQueue : List (Packet M) := []
  processor : ProcessorPC M := .polling
  lazyQueue : LazyQueue := {}
  daemons : Daemon → DaemonPC
  stopping : Stopping := .running
  processed : List (Packet M) := []
  relayed : List (Packet M) := []

inductive LoopEvent
  | recv
  /-- The call `j` of the transport returns to `Receiver`. -/
  | recvReturns (j : ℕ)
  | push
  | relayReturns
  | recvLeaves
  | take
  | handlerHangs
  | handlerReturns
  | procLeaves
  | lazyQueue (e : LazyEvent)
  | turn (d : Daemon)
  | turnHangs (d : Daemon)
  | turnReturns (d : Daemon)
  | daemonLeaves (d : Daemon)
  /-- `Stop` is called. -/
  | stop
  /-- A wait of `Stop` is over. -/
  | stopped
  deriving DecidableEq

/-- Nodes on the sockets of a transport. -/
structure LoopNetwork (M : Type) where
  transport : ChannelTransport M := {}
  nodes : ℕ → Option (NodeLoops M) := fun _ => none

inductive NetworkEvent (M : Type)
  | socket (e : SocketEvent M)
  | start (sock : ℕ) (conf : LoopConfig)
  | node (sock : ℕ) (e : LoopEvent)

namespace NodeLoops

/-- `Start` leaves out the goroutines that the configuration turns off. -/
def start (conf : LoopConfig) (myAddr : String) : NodeLoops M where
  myAddr := myAddr
  daemons
    | .sender => if 0 < conf.ackTimeout.tdiv 1000000 then .polling else .stopped
    | .antiEntropy => if conf.antiEntropyInterval ≠ 0 then .polling else .stopped
    | .heartbeat => if conf.heartbeatInterval ≠ 0 then .turning false else .stopped

variable (n : NodeLoops M)

def accept (pkt : Packet M) : NodeLoops M :=
  if pkt.header.destination = n.myAddr then { n with receiver := .holding pkt }
  else { n with receiver := .relaying pkt }

def turn (d : Daemon) (pc : DaemonPC) : NodeLoops M :=
  { n with daemons := Function.update n.daemons d pc }

/-- `Stop` closes the channel of the goroutines it waits for next. -/
def stopNext : Option (NodeLoops M) :=
  match n.stopping with
  | .running => (n.lazyQueue.step resendQueueSize .stop).map fun q =>
    { n with lazyQueue := q, stopping := .lazySender }
  | .lazySender =>
    if n.lazyQueue.sender = .stopped then some { n with stopping := .processor } else none
  | .processor =>
    match n.processor with
    | .stopped => some { n with stopping := .receiver }
    | _ => none
  | .receiver =>
    match n.receiver with
    | .stopped => some { n with stopping := .sender }
    | _ => none
  | .sender =>
    if n.daemons .sender = .stopped then some { n with stopping := .regular } else none
  | .regular =>
    if n.daemons .antiEntropy = .stopped ∧ n.daemons .heartbeat = .stopped then
      some { n with stopping := .returned }
    else none
  | .returned => none

def step : LoopEvent → Option (NodeLoops M)
  | .push =>
    match n.receiver with
    | .holding pkt =>
      if n.procQueue.length < procQueueSize then
        some { n with procQueue := n.procQueue ++ [pkt], receiver := .polling }
      else none
    | _ => none
  | .relayReturns =>
    match n.receiver with
    | .relaying pkt => some { n with receiver := .polling, relayed := n.relayed ++ [pkt] }
    | _ => none
  | .recvLeaves =>
    match n.receiver with
    | .polling => if n.stopping.recvStop then some { n with receiver := .stopped } else none
    | _ => none
  | .take =>
    match n.processor, n.procQueue with
    | .polling, pkt :: procQueue =>
      some { n with procQueue := procQueue, processor := .processing pkt false }
    | _, _ => none
  | .handlerHangs =>
    match n.processor with
    | .processing pkt _ => some { n with processor := .processing pkt true }
    | _ => none
  | .handlerReturns =>
    match n.processor with
    | .processing pkt false =>
      some { n with processor := .polling, processed := n.processed ++ [pkt] }
    | _ => none
  | .procLeaves =>
    match n.processor with
    | .polling => if n.stopping.procStop then some { n with processor := .stopped } else none
    | _ => none
  | .lazyQueue e =>
    if e = .stop then none
    else (n.lazyQueue.step resendQueueSize e).map fun q => { n with lazyQueue := q }
  | .turn d =>
    -- `Sender` begins no turn once it is told to stop, the others may still have their timer go off
    if n.daemons d = .polling ∧ ¬ (d = .sender ∧ n.stopping.daemonStop d) then
      some (n.turn d (.turning false))
    else none
  | .turnHangs d =>
    match n.daemons d with
    | .turning _ => some (n.turn d (.turning true))
    | _ => none
  | .turnReturns d =>
    if n.daemons d = .turning false then some (n.turn d .polling) else none
  | .daemonLeaves d =>
    if n.daemons d = .polling ∧ n.stopping.daemonStop d then some (n.turn d .stopped) else none
  | .stop => if n.stopping = .running then n.stopNext else none
  | .stopped => if n.stopping = .running then none else n.stopNext
  | .recv | .recvReturns _ => none

end NodeLoops

namespace LoopNetwork

variable (g : LoopNetwork M)

def put (sock : ℕ) (n : NodeLoops M) : LoopNetwork M :=
  { g with nodes := Function.update g.nodes sock (some n) }

def recvReturns (sock j : ℕ) (n : NodeLoops M) : Option (LoopNetwork M) :=
  match g.transport.calls[j]? with
  | some (.receiving k _) =>
    if k = sock then (g.transport.step (.timeout j)).map fun t =>
      ({ g with transport := t } : LoopNetwork M).put sock { n with receiver := .polling }
    else none
  | some (.received k pkt) =>
    if k = sock then (g.transport.step (.add j)).map fun t =>
      ({ g with transport := t } : LoopNetwork M).put sock (n.accept pkt)
    else none
  | _ => none

def OfReceiver : SocketCall M → Prop
  | .receiving sock _ | .received sock _ => (g.nodes sock).isSome
  | .sending .. | .sent .. => False

instance : DecidablePred g.OfReceiver
  | .receiving sock _ | .received sock _ => inferInstanceAs (Decidable ((g.nodes sock).isSome))
  | .sending .. | .sent .. => inferInstanceAs (Decidable False)

/-- What others do with the sockets: they do not call `Recv` on the socket of a node, and do not
return from its calls. -/
def Foreign : SocketEvent M → Prop
  | .recv sock => g.nodes sock = none
  | .timeout j | .add j => ∀ call ∈ g.transport.calls[j]?, ¬ g.OfReceiver call
  | _ => True

instance : DecidablePred g.Foreign
  | .recv sock => inferInstanceAs (Decidable (g.nodes sock = none))
  | .timeout j | .add j =>
    inferInstanceAs (Decidable (∀ call ∈ g.transport.calls[j]?, ¬ g.OfReceiver call))
  | .createSocket _ | .otherPort | .close _ | .send .. | .select _ =>
    inferInstanceAs (Decidable True)

def step : NetworkEvent M → Option (LoopNetwork M)
  | .socket e =>
    if g.Foreign e then (g.transport.step e).map fun t => { g with transport := t } else none
  | .start sock conf =>
    match g.nodes sock, g.transport.sockets[sock]? with
    | none, some s =>
      if s.ins = [] ∧ ∀ call ∈ g.transport.calls, ¬ call.RecvsOn sock then
        some (g.put sock (.start conf s.myAddr))
      else none
    | _, _ => none
  | .node sock e => (g.nodes sock).bind fun n =>
    match e, n.receiver with
    | .recv, .polling =>
      if n.stopping.recvStop then none
      else (g.transport.step (.recv sock)).map fun t =>
        ({ g with transport := t } : LoopNetwork M).put sock { n with receiver := .receiving }
    | .recvReturns j, .receiving => g.recvReturns sock j n
    | e, _ => (n.step e).map (g.put sock)

end LoopNetwork

namespace NodeLoops

inductive Effect (n : NodeLoops M) : LoopEvent → NodeLoops M → Prop
  | push {pkt : Packet M} (hreceiver : n.receiver = .holding pkt)
      (hroom : n.procQueue.length < procQueueSize) :
      Effect n .push { n with procQueue := n.procQueue ++ [pkt], receiver := .polling }
  | relayReturns {pkt : Packet M} (hreceiver : n.receiver = .relaying pkt) :
      Effect n .relayReturns { n with receiver := .polling, relayed := n.relayed ++ [pkt] }
  | recvLeaves (hreceiver : n.receiver = .polling) (hstop : n.stopping.recvStop) :
      Effect n .recvLeaves { n with receiver := .stopped }
  | take {pkt : Packet M} {procQueue : List (Packet M)} (hprocessor : n.processor = .polling)
      (hqueue : n.procQueue = pkt :: procQueue) :
      Effect n .take { n with procQueue := procQueue, processor := .processing pkt false }
  | handlerHangs {pkt : Packet M} {hangs : Bool}
      (hprocessor : n.processor = .processing pkt hangs) :
      Effect n .handlerHangs { n with processor := .processing pkt true }
  | handlerReturns {pkt : Packet M} (hprocessor : n.processor = .processing pkt false) :
      Effect n .handlerReturns { n with processor := .polling, processed := n.processed ++ [pkt] }
  | procLeaves (hprocessor : n.processor = .polling) (hstop : n.stopping.procStop) :
      Effect n .procLeaves { n with processor := .stopped }
  | lazyQueue {e : LazyEvent} {q : LazyQueue} (hother : e ≠ .stop)
      (hstep : n.lazyQueue.step resendQueueSize e = some q) :
      Effect n (.lazyQueue e) { n with lazyQueue := q }
  | daemon {e : LoopEvent} {d : Daemon} {pc : DaemonPC} (hon : n.daemons d ≠ .stopped)
      (hhangs : n.daemons d = .turning true → pc = .turning true)
      (hstop : pc = .stopped → n.stopping.daemonStop d) : Effect n e (n.turn d pc)
  | stop {e : LoopEvent} {m : NodeLoops M} (hnext : n.stopNext = some m) : Effect n e m

variable {n m : NodeLoops M} {e : LoopEvent}

theorem step_effect (h : n.step e = some m) : Effect n e m := by
  cases e with
  | push =>
    simp only [step] at h
    split at h
    · rename_i pkt hreceiver
      split_ifs at h with hroom
      obtain rfl := Option.some.inj h
      exact .push hreceiver hroom
    · cases h
  | relayReturns =>
    simp only [step] at h
    split at h
    · rename_i pkt hreceiver
      obtain rfl := Option.some.inj h
      exact .relayReturns hreceiver
    · cases h
  | recvLeaves =>
    simp only [step] at h
    split at h
    · rename_i hreceiver
      split_ifs at h with hstop
      obtain rfl := Option.some.inj h
      exact .recvLeaves hreceiver hstop
    · cases h
  | take =>
    simp only [step] at h
    split at h
    · rename_i pkt procQueue hprocessor hqueue
      obtain rfl := Option.some.inj h
      exact .take hprocessor hqueue
    · cases h
  | handlerHangs =>
    simp only [step] at h
    split at h
    · rename_i pkt hangs hprocessor
      obtain rfl := Option.some.inj h
      exact .handlerHangs hprocessor
    · cases h
  | handlerReturns =>
    simp only [step] at h
    split at h
    · rename_i pkt hprocessor
      obtain rfl := Option.some.inj h
      exact .handlerReturns hprocessor
    · cases h
  | procLeaves =>
    simp only [step] at h
    split at h
    · rename_i hprocessor
      split_ifs at h with hstop
      obtain rfl := Option.some.inj h
      exact .procLeaves hprocessor hstop
    · cases h
  | lazyQueue e =>
    simp only [step] at h
    split_ifs at h with hother
    obtain ⟨q, hq, rfl⟩ := Option.map_eq_some_iff.mp h
    exact .lazyQueue hother hq
  | turn d =>
    simp only [step] at h
    split_ifs at h with hd
    obtain rfl := Option.some.inj h
    exact .daemon (by simp [hd.1]) (by simp [hd.1]) nofun
  | turnHangs d =>
    simp only [step] at h
    split at h
    · rename_i hangs hd
      obtain rfl := Option.some.inj h
      exact .daemon (by simp [hd]) (fun _ => rfl) nofun
    · cases h
  | turnReturns d =>
    simp only [step] at h
    split_ifs at h with hd
    obtain rfl := Option.some.inj h
    exact .daemon (by simp [hd]) (by simp [hd]) nofun
  | daemonLeaves d =>
    simp only [step] at h
    split_ifs at h with hd
    obtain rfl := Option.some.inj h
    exact .daemon (by simp [hd.1]) (by simp [hd.1]) fun _ => hd.2
  | stop | stopped =>
    simp only [step] at h
    split_ifs at h
    exact .stop h
  | recv | recvReturns => cases h

end NodeLoops

/-- `Receiver` hands these packets to `Processor`, and relays the others. -/
def forAddr (addr : String) (pkt : Packet M) : Bool := pkt.header.destination = addr

namespace ReceiverPC

def calls : ReceiverPC M → ℕ
  | .receiving => 1
  | .polling | .holding _ | .relaying _ | .stopped => 0

def forNode : ReceiverPC M → List (Packet M)
  | .holding pkt => [pkt]
  | .polling | .receiving | .relaying _ | .stopped => []

def forOthers : ReceiverPC M → List (Packet M)
  | .relaying pkt => [pkt]
  | .polling | .receiving | .holding _ | .stopped => []

end ReceiverPC

def ProcessorPC.inHand : ProcessorPC M → List (Packet M)
  | .processing pkt _ => [pkt]
  | .polling | .stopped => []

namespace NodeLoops

/-- The packets for the node that have come out of its socket, in the order they are processed. -/
def mine (n : NodeLoops M) : List (Packet M) :=
  n.processed ++ n.processor.inHand ++ n.procQueue ++ n.receiver.forNode

def others (n : NodeLoops M) : List (Packet M) := n.relayed ++ n.receiver.forOthers

variable {n m : NodeLoops M} {e : LoopEvent}

/-- A wait of `Stop` does not change what the loops work on. -/
theorem stopNext_keeps (h : n.stopNext = some m) :
    ∃ stopping lazyQueue, m = { n with stopping := stopping, lazyQueue := lazyQueue } ∧
      lazyQueue.sender = n.lazyQueue.sender ∧ lazyQueue.queue = n.lazyQueue.queue := by
  unfold stopNext at h
  split at h
  · obtain ⟨q, hq, rfl⟩ := Option.map_eq_some_iff.mp h
    simp only [Gossip.LazyQueue.step] at hq
    split_ifs at hq
    obtain rfl := Option.some.inj hq
    exact ⟨_, _, rfl, rfl, rfl⟩
  · split_ifs at h
    obtain rfl := Option.some.inj h
    exact ⟨_, _, rfl, rfl, rfl⟩
  · split at h
    · obtain rfl := Option.some.inj h
      exact ⟨_, _, rfl, rfl, rfl⟩
    · cases h
  · split at h
    · obtain rfl := Option.some.inj h
      exact ⟨_, _, rfl, rfl, rfl⟩
    · cases h
  · split_ifs at h
    obtain rfl := Option.some.inj h
    exact ⟨_, _, rfl, rfl, rfl⟩
  · split_ifs at h
    obtain rfl := Option.some.inj h
    exact ⟨_, _, rfl, rfl, rfl⟩
  · cases h

theorem Effect.keeps (h : Effect n e m) : m.myAddr = n.myAddr ∧ m.mine = n.mine ∧
    m.others = n.others ∧ m.receiver.calls = n.receiver.calls := by
  cases h with
  | push hreceiver | relayReturns hreceiver | recvLeaves hreceiver =>
    simp [mine, others, ReceiverPC.forNode, ReceiverPC.forOthers, ReceiverPC.calls, hreceiver]
  | take hprocessor hqueue => simp [mine, others, ProcessorPC.inHand, hprocessor, hqueue]
  | handlerHangs hprocessor | handlerReturns hprocessor | procLeaves hprocessor =>
    simp [mine, others, ProcessorPC.inHand, hprocessor]
  | lazyQueue | daemon => exact ⟨rfl, rfl, rfl, rfl⟩
  | stop hnext =>
    obtain ⟨stopping, lazyQueue, rfl, _⟩ := stopNext_keeps hnext
    exact ⟨rfl, rfl, rfl, rfl⟩

end NodeLoops

namespace LoopNetwork

variable {g g' : LoopNetwork M} {s : ℕ} {n m : NodeLoops M} {e : NetworkEvent M}

inductive Touch (s : ℕ) (n : NodeLoops M) (g g' : LoopNetwork M) : Prop
  | apart {e : SocketEvent M} (hapart : ChannelTransport.Apart s g.transport e)
      (hstep : g.transport.step e = some g'.transport) (hnode : g'.nodes s = some n) :
      Touch s n g g'
  | still (htransport : g'.transport = g.transport) (hnode : g'.nodes s = some n) : Touch s n g g'
  | loop {e : LoopEvent} {m : NodeLoops M} (heffect : n.Effect e m)
      (htransport : g'.transport = g.transport) (hnode : g'.nodes s = some m) : Touch s n g g'
  | recv (hreceiver : n.receiver = .polling) (hrun : ¬ n.stopping.recvStop)
      (hstep : g.transport.step (.recv s) = some g'.transport)
      (hnode : g'.nodes s = some { n with receiver := .receiving }) : Touch s n g g'
  | timedOut {j : ℕ} {c : Option ℕ} (hreceiver : n.receiver = .receiving)
      (hj : g.transport.calls[j]? = some (.receiving s c))
      (hstep : g.transport.step (.timeout j) = some g'.transport)
      (hnode : g'.nodes s = some { n with receiver := .polling }) : Touch s n g g'
  | received {j : ℕ} {pkt : Packet M} (hreceiver : n.receiver = .receiving)
      (hj : g.transport.calls[j]? = some (.received s pkt))
      (hstep : g.transport.step (.add j) = some g'.transport)
      (hnode : g'.nodes s = some (n.accept pkt)) : Touch s n g g'

theorem nodes_put_self (g : LoopNetwork M) (s : ℕ) (n : NodeLoops M) :
    (g.put s n).nodes s = some n := Function.update_self ..

theorem nodes_put_of_ne {k : ℕ} (h : s ≠ k) (n : NodeLoops M) :
    (g.put k n).nodes s = g.nodes s := Function.update_of_ne h ..

theorem apart_of_foreign {e : SocketEvent M} (hn : g.nodes s = some n) (h : g.Foreign e) :
    ChannelTransport.Apart s g.transport e := by
  have hcall : ∀ call : SocketCall M, ¬ g.OfReceiver call → ¬ call.RecvsOn s := by
    intro call hcall hon
    cases call with
    | sending | sent => exact hon
    | receiving sock | received sock =>
      obtain rfl : sock = s := hon
      exact hcall (Option.isSome_iff_exists.mpr ⟨n, hn⟩)
  cases e with
  | recv sock =>
    rintro rfl
    cases hn.symm.trans h
  | timeout j | add j => exact fun call hj => hcall call (h call hj)
  | createSocket | otherPort | close | send | select => trivial

theorem recvReturns_touch {k j : ℕ} {m : NodeLoops M} (hm : g.nodes k = some m)
    (hreceiver : m.receiver = .receiving) (h : g.recvReturns k j m = some g')
    (hn : g.nodes s = some n) : Touch s n g g' := by
  unfold recvReturns at h
  split at h
  · rename_i k' c hj
    split_ifs at h with hk
    subst hk
    obtain ⟨t, ht, rfl⟩ := Option.map_eq_some_iff.mp h
    by_cases hs : s = k'
    · subst hs
      obtain rfl := Option.some.inj (hn.symm.trans hm)
      exact .timedOut hreceiver hj ht (nodes_put_self ..)
    · refine .apart (e := .timeout j) (fun call hcall hon => hs ?_) ht
        ((nodes_put_of_ne hs _).trans hn)
      obtain rfl := Option.some.inj (hj.symm.trans hcall)
      exact Eq.symm hon
  · rename_i k' pkt hj
    split_ifs at h with hk
    subst hk
    obtain ⟨t, ht, rfl⟩ := Option.map_eq_some_iff.mp h
    by_cases hs : s = k'
    · subst hs
      obtain rfl := Option.some.inj (hn.symm.trans hm)
      exact .received hreceiver hj ht (nodes_put_self ..)
    · refine .apart (e := .add j) (fun call hcall hon => hs ?_) ht
        ((nodes_put_of_ne hs _).trans hn)
      obtain rfl := Option.some.inj (hj.symm.trans hcall)
      exact Eq.symm hon
  · cases h

theorem step_touch (h : g.step e = some g') (hn : g.nodes s = some n) : Touch s n g g' := by
  cases e with
  | socket e =>
    simp only [step] at h
    split_ifs at h with hforeign
    obtain ⟨t, ht, rfl⟩ := Option.map_eq_some_iff.mp h
    exact .apart (apart_of_foreign hn hforeign) ht hn
  | start sock conf =>
    simp only [step] at h
    split at h
    · rename_i sk hnone hsk
      split_ifs at h
      obtain rfl := Option.some.inj h
      have hs : s ≠ sock := by
        rintro rfl
        cases hn.symm.trans hnone
      exact .still rfl ((nodes_put_of_ne hs _).trans hn)
    · cases h
  | node sock e =>
    obtain ⟨m, hm, hnext⟩ := Option.bind_eq_some_iff.mp h
    clear h
    split at hnext
    · rename_i hreceiver
      split_ifs at hnext with hrun
      obtain ⟨t, ht, rfl⟩ := Option.map_eq_some_iff.mp hnext
      by_cases hs : s = sock
      · subst hs
        obtain rfl := Option.some.inj (hn.symm.trans hm)
        exact .recv hreceiver hrun ht (nodes_put_self ..)
      · exact .apart (e := .recv sock) (Ne.symm hs) ht ((nodes_put_of_ne hs _).trans hn)
    · rename_i j hreceiver
      exact recvReturns_touch hm hreceiver hnext hn
    · obtain ⟨m', hm', rfl⟩ := Option.map_eq_some_iff.mp hnext
      by_cases hs : s = sock
      · subst hs
        obtain rfl := Option.some.inj (hn.symm.trans hm)
        exact .loop (NodeLoops.step_effect hm') rfl (nodes_put_self ..)
      · exact .still rfl ((nodes_put_of_ne hs _).trans hn)

/-- `Receiver` has called `Recv` at most once, and what came out of the socket is where the loops
have it. -/
structure Matched (s : ℕ) (g : LoopNetwork M) (n : NodeLoops M) : Prop where
  calls : g.transport.calls.countP (·.RecvsOn s) = n.receiver.calls
  socket : ∃ sk, g.transport.sockets[s]? = some sk ∧ sk.myAddr = n.myAddr ∧
    sk.ins.filter (forAddr n.myAddr) = n.mine ∧
    sk.ins.filter (! forAddr n.myAddr ·) = n.others

theorem countP_eraseIdx {calls : List (SocketCall M)} {j : ℕ} {call : SocketCall M}
    (hj : calls[j]? = some call) (hon : call.RecvsOn s)
    (hone : calls.countP (·.RecvsOn s) = 1) :
    (calls.eraseIdx j).countP (·.RecvsOn s) = 0 := by
  obtain ⟨l, r, hcalls, _, herase⟩ := exists_split hj
  rw [hcalls, List.countP_append, List.countP_cons_of_pos (by simpa using hon)] at hone
  rw [herase, List.countP_append]
  omega

theorem Matched.touch (h : Matched s g n) (htouch : Touch s n g g') (hm : g'.nodes s = some m) :
    Matched s g' m := by
  obtain ⟨hcalls, sk, hsk, haddr, hmine, hothers⟩ := h
  cases htouch with
  | apart hapart hstep hnode =>
    obtain rfl := Option.some.inj (hnode.symm.trans hm)
    have heffect := ChannelTransport.step_effect hstep
    obtain ⟨sk', hsk', hins, haddr'⟩ := heffect.ins hapart hsk
    exact ⟨(heffect.countP_recvs hapart).trans hcalls, sk', hsk', haddr'.trans haddr, hins ▸ hmine,
      hins ▸ hothers⟩
  | still htransport hnode =>
    obtain rfl := Option.some.inj (hnode.symm.trans hm)
    exact ⟨htransport ▸ hcalls, sk, htransport ▸ hsk, haddr, hmine, hothers⟩
  | loop heffect htransport hnode =>
    obtain rfl := Option.some.inj (hnode.symm.trans hm)
    obtain ⟨haddr', hmine', hothers', hcalls'⟩ := heffect.keeps
    exact ⟨by rw [htransport, hcalls, hcalls'], sk, htransport ▸ hsk, by rw [haddr, haddr'],
      by rw [haddr', hmine, hmine'], by rw [haddr', hothers, hothers']⟩
  | recv hreceiver _ hstep hnode =>
    obtain rfl := Option.some.inj (hnode.symm.trans hm)
    obtain ⟨sk', _, ht⟩ := Option.map_eq_some_iff.mp hstep
    have hone : (SocketCall.receiving (M := M) s
        (g.transport.incomings.lookup sk'.myAddr)).RecvsOn s := rfl
    refine ⟨?_, sk, ht ▸ hsk, haddr, ?_, ?_⟩
    · rw [← ht, List.countP_append, List.countP_singleton, hcalls, hreceiver,
        if_pos (by simpa using hone)]
      rfl
    · simpa [NodeLoops.mine, hreceiver, ReceiverPC.forNode] using hmine
    · simpa [NodeLoops.others, hreceiver, ReceiverPC.forOthers] using hothers
  | @timedOut j c hreceiver hj hstep hnode =>
    obtain rfl := Option.some.inj (hnode.symm.trans hm)
    rw [hreceiver] at hcalls
    obtain ⟨call, hcall, ht⟩ := Option.bind_eq_some_iff.mp hstep
    obtain rfl := Option.some.inj (hj.symm.trans hcall)
    obtain ht := Option.some.inj ht
    refine ⟨?_, sk, ht ▸ hsk, haddr, ?_, ?_⟩
    · rw [← ht]
      exact countP_eraseIdx hj rfl hcalls
    · simpa [NodeLoops.mine, hreceiver, ReceiverPC.forNode] using hmine
    · simpa [NodeLoops.others, hreceiver, ReceiverPC.forOthers] using hothers
  | @received j pkt hreceiver hj hstep hnode =>
    obtain rfl := Option.some.inj (hnode.symm.trans hm)
    rw [hreceiver] at hcalls
    obtain ⟨call, hcall, ht⟩ := Option.bind_eq_some_iff.mp hstep
    obtain rfl := Option.some.inj (hj.symm.trans hcall)
    obtain ⟨sk', hsk', ht⟩ := Option.map_eq_some_iff.mp ht
    obtain rfl := Option.some.inj (hsk.symm.trans hsk')
    have hnone := countP_eraseIdx hj rfl hcalls
    have hset : g'.transport.sockets[s]? = some (sk.addIn pkt) := by
      rw [← ht]
      exact (getElem?_set_eq_some hsk).mpr (.inl ⟨rfl, rfl⟩)
    unfold NodeLoops.accept
    split_ifs with hdest
    · have hfor : forAddr n.myAddr pkt = true := decide_eq_true hdest
      refine ⟨ht ▸ hnone, sk.addIn pkt, hset, haddr, ?_, ?_⟩
      · rw [Socket.addIn, List.filter_append, hmine, List.filter_cons_of_pos hfor]
        simp [NodeLoops.mine, hreceiver, ReceiverPC.forNode]
      · rw [Socket.addIn, List.filter_append, hothers,
          List.filter_cons_of_neg (by simpa using hfor)]
        simp [NodeLoops.others, hreceiver, ReceiverPC.forOthers]
    · have hfor : forAddr n.myAddr pkt = false := decide_eq_false hdest
      refine ⟨ht ▸ hnone, sk.addIn pkt, hset, haddr, ?_, ?_⟩
      · rw [Socket.addIn, List.filter_append, hmine, List.filter_cons_of_neg (by simpa using hfor)]
        simp [NodeLoops.mine, hreceiver, ReceiverPC.forNode]
      · rw [Socket.addIn, List.filter_append, hothers,
          List.filter_cons_of_pos (by simpa using hfor)]
        simp [NodeLoops.others, hreceiver, ReceiverPC.forOthers]

theorem nodes_of_recvReturns {k j : ℕ} (h : g.recvReturns k j m = some g') (hs : s ≠ k) :
    g'.nodes s = g.nodes s := by
  unfold recvReturns at h
  split at h
  · split_ifs at h
    obtain ⟨t, _, rfl⟩ := Option.map_eq_some_iff.mp h
    exact nodes_put_of_ne hs _
  · split_ifs at h
    obtain ⟨t, _, rfl⟩ := Option.map_eq_some_iff.mp h
    exact nodes_put_of_ne hs _
  · cases h

theorem start_of_step (h : g.step e = some g') (hn : g.nodes s = none)
    (hm : g'.nodes s = some m) :
    ∃ conf sk, g.transport.sockets[s]? = some sk ∧ sk.ins = [] ∧
      (∀ call ∈ g.transport.calls, ¬ call.RecvsOn s) ∧ g'.transport = g.transport ∧
      m = .start conf sk.myAddr := by
  cases e with
  | socket e =>
    simp only [step] at h
    split_ifs at h
    obtain ⟨t, ht, rfl⟩ := Option.map_eq_some_iff.mp h
    cases hn.symm.trans hm
  | start sock conf =>
    simp only [step] at h
    split at h
    · rename_i sk hnone hsk
      split_ifs at h with hfree
      obtain rfl := Option.some.inj h
      by_cases hs : s = sock
      · subst hs
        obtain rfl := Option.some.inj ((nodes_put_self ..).symm.trans hm)
        exact ⟨conf, sk, hsk, hfree.1, hfree.2, rfl, rfl⟩
      · cases hn.symm.trans ((nodes_put_of_ne hs _).symm.trans hm)
    · cases h
  | node sock e =>
    obtain ⟨k, hk, hnext⟩ := Option.bind_eq_some_iff.mp h
    clear h
    have hs : s ≠ sock := by
      rintro rfl
      cases hn.symm.trans hk
    split at hnext
    · split_ifs at hnext
      obtain ⟨t, _, rfl⟩ := Option.map_eq_some_iff.mp hnext
      cases hn.symm.trans ((nodes_put_of_ne hs _).symm.trans hm)
    · cases hn.symm.trans ((nodes_of_recvReturns hnext hs).symm.trans hm)
    · obtain ⟨k', _, rfl⟩ := Option.map_eq_some_iff.mp hnext
      cases hn.symm.trans ((nodes_put_of_ne hs _).symm.trans hm)

theorem matched_of_step (h : ∀ n, g.nodes s = some n → Matched s g n) (hstep : g.step e = some g')
    (hm : g'.nodes s = some m) : Matched s g' m := by
  cases hn : g.nodes s with
  | some n => exact (h n hn).touch (step_touch hstep hn) hm
  | none =>
    obtain ⟨conf, sk, hsk, hins, hfree, htransport, rfl⟩ := start_of_step hstep hn hm
    refine ⟨?_, sk, htransport ▸ hsk, rfl, hins ▸ rfl, hins ▸ rfl⟩
    rw [htransport]
    exact List.countP_eq_zero.mpr fun call hcall hon => hfree call hcall (of_decide_eq_true hon)

/-- No other socket gets the address of this one, and nobody else reads from it. -/
def Keeps (s : ℕ) (g : LoopNetwork M) : NetworkEvent M → Prop
  | .socket e => ChannelTransport.Owned s g.transport e
  | .start .. | .node .. => True

instance (s : ℕ) (g : LoopNetwork M) : DecidablePred (Keeps s g)
  | .socket e => inferInstanceAs (Decidable (ChannelTransport.Owned s g.transport e))
  | .start .. | .node .. => inferInstanceAs (Decidable True)

theorem ordered_of_step (h : ChannelTransport.Ordered s g.transport)
    (hmatched : ∀ n, g.nodes s = some n → Matched s g n) (hkeeps : Keeps s g e)
    (hstep : g.step e = some g') : ChannelTransport.Ordered s g'.transport := by
  cases e with
  | socket e =>
    simp only [step] at hstep
    split_ifs at hstep
    obtain ⟨t, ht, rfl⟩ := Option.map_eq_some_iff.mp hstep
    exact h.effect hkeeps (ChannelTransport.step_effect ht)
  | start sock conf =>
    simp only [step] at hstep
    split at hstep
    · split_ifs at hstep
      obtain rfl := Option.some.inj hstep
      exact h
    · cases hstep
  | node sock e =>
    obtain ⟨n, hn, hnext⟩ := Option.bind_eq_some_iff.mp hstep
    clear hstep
    split at hnext
    · rename_i hreceiver
      split_ifs at hnext
      obtain ⟨t, ht, rfl⟩ := Option.map_eq_some_iff.mp hnext
      refine h.effect (e := .recv sock) ?_ (ChannelTransport.step_effect ht)
      rintro rfl call hcall hon
      have hnone := (hmatched n hn).calls
      rw [hreceiver] at hnone
      exact List.countP_eq_zero.mp hnone call hcall (decide_eq_true hon)
    · unfold recvReturns at hnext
      split at hnext
      · split_ifs at hnext
        obtain ⟨t, ht, rfl⟩ := Option.map_eq_some_iff.mp hnext
        exact h.effect (by trivial) (ChannelTransport.step_effect ht)
      · split_ifs at hnext
        obtain ⟨t, ht, rfl⟩ := Option.map_eq_some_iff.mp hnext
        exact h.effect (by trivial) (ChannelTransport.step_effect ht)
      · cases hnext
    · obtain ⟨m, _, rfl⟩ := Option.map_eq_some_iff.mp hnext
      exact h

/-- The packets that have not come out of a socket. -/
def toCome (g : LoopNetwork M) (s : ℕ) (incoming : Incoming M) : List (Packet M) :=
  g.transport.calls.flatMap (SocketCall.heldBy s) ++ incoming.queue

/-- Whatever is put into the channel of a node's socket is processed if it is for the node and
relayed otherwise, once and in that order. What is not yet, waits on the way. -/
theorem handled_in_order {es : List (NetworkEvent M)}
    (h : Run step (Keeps s) ({} : LoopNetwork M) es g) (hn : g.nodes s = some n)
    {incoming : Incoming M} (hchan : g.transport.chans[s]? = some incoming) :
    incoming.accepted.filter (forAddr n.myAddr) =
        n.processed ++ n.processor.inHand ++ n.procQueue ++ n.receiver.forNode ++
          (g.toCome s incoming).filter (forAddr n.myAddr) ∧
      incoming.accepted.filter (! forAddr n.myAddr ·) =
        n.relayed ++ n.receiver.forOthers ++
          (g.toCome s incoming).filter (! forAddr n.myAddr ·) := by
  have hinv := h.invariant (I := fun g => ChannelTransport.Ordered s g.transport ∧
      ∀ n, g.nodes s = some n → Matched s g n)
    ⟨ChannelTransport.ordered_start s, fun n hn => by cases hn⟩ fun hinv hkeeps hstep =>
      ⟨ordered_of_step hinv.1 hinv.2 hkeeps hstep, fun n hn => matched_of_step hinv.2 hstep hn⟩
  obtain ⟨_, sk, hsk, _, hmine, hothers⟩ := hinv.2 n hn
  rw [hinv.1.ordered sk incoming hsk hchan, List.append_assoc]
  constructor
  · rw [List.filter_append, hmine]
    rfl
  · rw [List.filter_append, hothers]
    rfl

end LoopNetwork

namespace Sample

def conf : LoopConfig := ⟨0, 0, 0⟩

def delivery : List (NetworkEvent String) :=
  [.socket (.createSocket "A:1"), .start 0 conf, .socket (.createSocket "B:1"), .node 0 .recv,
    .socket (.send 1 "A:1" (Transport.Sample.hello "A:1")), .socket (.select 1),
    .socket (.select 0), .node 0 (.recvReturns 0), .node 0 .push, .node 0 .take,
    .node 0 .handlerReturns]

theorem delivery_isSome :
    (exec (guarded LoopNetwork.step (LoopNetwork.Keeps 0)) {} delivery).isSome := by decide

def delivered : LoopNetwork String :=
  (exec (guarded LoopNetwork.step (LoopNetwork.Keeps 0)) {} delivery).get delivery_isSome

theorem node_isSome : (delivered.nodes 0).isSome := by decide

theorem chan_isSome : (delivered.transport.chans[0]?).isSome := by decide

theorem handled_in_order_delivered :
    let n := (delivered.nodes 0).get node_isSome
    let incoming := (delivered.transport.chans[0]?).get chan_isSome
    incoming.accepted.filter (forAddr n.myAddr) =
        n.processed ++ n.processor.inHand ++ n.procQueue ++ n.receiver.forNode ++
          (delivered.toCome 0 incoming).filter (forAddr n.myAddr) ∧
      incoming.accepted.filter (! forAddr n.myAddr ·) =
        n.relayed ++ n.receiver.forOthers ++
          (delivered.toCome 0 incoming).filter (! forAddr n.myAddr ·) :=
  LoopNetwork.handled_in_order (run_of_guarded (run_exec_get delivery_isSome))
    (Option.some_get node_isSome).symm (Option.some_get chan_isSome).symm

example : ((delivered.nodes 0).get node_isSome).processed = [Transport.Sample.hello "A:1"] := by
  decide

end Sample

end JobPortal.Daemons
