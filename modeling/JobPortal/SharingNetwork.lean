import JobPortal.DataRequests
import JobPortal.Download
import JobPortal.GossipNetwork
import JobPortal.Relaying
import JobPortal.SearchFlood

/-! The nodes of one network with what they do about routes, rumors, searches and blobs. Routes are
learned from rumors and from search requests. A packet that was sent can get to the address it was
sent to any number of times and in any order, or never; a node that is not its destination relays
it. -/
namespace JobPortal.Sharing

open Gossip Hex Queues Runs Transport

inductive Parcel (M : Type)
  | rumors (rumors : List (Gossip.Rumor M))
  | status (status : StatusMessage)
  | searchRequest (msg : SearchRequestMessage)
  | searchReply (msg : SearchReplyMessage)
  | dataRequest (msg : DataRequestMessage)
  | dataReply (msg : DataReplyMessage)
  | encryptedChunk (msg : EncryptedChunkMessage)
  /-- A message whose handler leaves routes, rumors, names and blobs alone. -/
  | other (m : M)

/-- What is given to `SendMsg`. -/
structure Letter (M : Type) where
  dest : String
  nextAddr : String
  parcel : Parcel M

/-- A packet under way, and the nodes that relayed it. -/
structure Flight (M : Type) extends Arrival (Parcel M) where
  relays : List String := []

def Flight.header {M : Type} (f : Flight M) : Transport.Header := f.pkt.header

/-- What comes with the nodes: hashes, regular expressions, and the capacity that lists have to
spare. -/
structure SharingEnv (M : Type) where
  primitives : Primitives
  compile : String → Option (String → Bool)
  spare : SafeRumorTable M → String → ℕ

/-- What is left to chance in a handler: the order of the loop over a map, that of the neighbors
after a shuffle, and the neighbor that a status is passed on to. -/
structure Choice where
  order : List String := []
  shuffled : List String := []
  monger : Option String := none

structure SharingNode (M : Type) extends SearchNode where
  rumorTable : SafeRumorTable M
  catalog : GoMap Bytes (Finset String)
  /-- The rumors of the packet in hand that were not looked at yet, and who relayed it. -/
  handling : List (Gossip.Rumor M)
  relayedBy : String
  /-- The handler of a packet has not returned yet. -/
  busy : Bool

variable {M : Type}

namespace SharingNode

def newNode (myAddr : String) : SharingNode M where
  myAddr := myAddr
  routingTable := Finmap.singleton myAddr myAddr
  naming := ∅
  blob := ∅
  rumorTable := .new
  catalog := ∅
  handling := []
  relayedBy := ""
  busy := false

variable (n : SharingNode M)

def addPeer (addr : String) : SharingNode M :=
  { n with routingTable := n.routingTable.insert addr addr }

def setRoute (origin relayAddr : String) : SharingNode M :=
  if origin ∈ n.routingTable then n
  else { n with routingTable := n.routingTable.insert origin relayAddr }

def updateCatalog (key : Bytes) (peer : String) : SharingNode M :=
  { n with catalog := n.catalog.insert key (insert peer (n.catalog.at key ∅)) }

def setBlob (key : Bytes) (value : Option Bytes) : SharingNode M :=
  { n with blob := n.blob.set key value }

def setName (name : String) (metahash : Bytes) : SharingNode M :=
  { n with naming := n.naming.insert name metahash }

/-- A message goes by the routing table; the error for an unknown destination sends nothing. -/
def byRoute (dest : String) (parcel : Parcel M) : List (Letter M) :=
  ((n.routingTable.lookup dest).map fun nextAddr => ⟨dest, nextAddr, parcel⟩).toList

def direct (addr : String) (parcel : Parcel M) : Letter M := ⟨addr, addr, parcel⟩

/-- One file of a search reply: its name, and the keys its sender has. -/
def learn (source : String) (n : SharingNode M) (info : FileInfo) : SharingNode M :=
  (info.chunks.reduceOption).foldl (fun n chunk => n.updateCatalog chunk source)
    ((n.setName info.name info.metahash).updateCatalog info.metahash source)

def execSearchReplyMessage (source : String) (msg : SearchReplyMessage) : SharingNode M :=
  msg.responses.foldl (learn source) n

def answer (hdr : Transport.Header) (monger : Option String) : StatusReply M → List (Letter M)
  | .rumors rumors => [⟨hdr.source, hdr.relayedBy, .rumors rumors⟩]
  | .status status => [⟨hdr.source, hdr.relayedBy, .status status⟩]
  | .mongering status => monger.toList.map fun neighbor => direct neighbor (.status status)

variable (env : SharingEnv M)

/-- The handlers of packets for the node, with the letters they send. -/
def process (hdr : Transport.Header) (choice : Choice) :
    Parcel M → Option (SharingNode M × List (Letter M))
  | .rumors rumors =>
    some ({ n with handling := rumors, relayedBy := hdr.relayedBy, busy := true }, [])
  | .status status =>
    (execStatusMessage n.rumorTable (env.spare n.rumorTable) status choice.order
      choice.monger.isSome).map fun replies => (n, replies.flatMap (answer hdr choice.monger))
  | .searchRequest msg =>
    (n.execSearchRequestMessage msg hdr.relayedBy choice.shuffled).map fun (s, packets) =>
      ({ n with toSearchNode := s },
        packets.map (fun p => direct p.destination (.searchRequest p.msg)) ++
          (s.searchReply env.compile msg choice.order).toList.map fun reply =>
            ⟨msg.origin, hdr.relayedBy, .searchReply reply⟩)
  | .searchReply msg => some (n.execSearchReplyMessage hdr.source msg, [])
  | .dataRequest msg =>
    some (n, n.byRoute hdr.source (.dataReply ⟨msg.requestID, msg.key, n.blob.get msg.key⟩))
  | .dataReply msg => some (n.setBlob msg.key msg.value, [])
  | .encryptedChunk msg => some (n.setBlob msg.chunkKey msg.chunk, [])
  | .other _ => some ({ n with busy := true }, [])

/-- The handler looks at the next rumor of its packet. A rumor that is new, or was there already,
can be pushed to peers. The mutexes of the trees are left out: the handler goes on here where it
waits for one in the code, also where that is for ever. -/
def accept (peers : List String) : Option (SharingNode M × List (Letter M)) :=
  match n.handling with
  | [] => none
  | r :: rest =>
    let m := n.setRoute r.origin n.relayedBy
    match n.rumorTable.tryToAcceptOrigin r with
    | (t, .future) => some ({ m with rumorTable := t, handling := rest }, [])
    | (t, _) => some ({ m with rumorTable := t, handling := rest },
        peers.map fun peer => direct peer (.rumors [r]))

end SharingNode

inductive SharingAct (M : Type)
  | addPeer (addr : String)
  | setRoutingEntry (origin relayAddr : String)
  | broadcast (msg : M) (peers : List String)
  /-- A rumor of the table is sent again. -/
  | resend (origin : String) (i : ℕ) (peer : String)
  | graft (source : String) (seq : ℤ) (dest : String)
  | antiEntropy (neighbor : String)
  | unicast (dest : String) (m : M)
  /-- A chunk of an encrypted file gets to a peer, in a rumor. -/
  | sendChunk (peer : String) (msg : EncryptedChunkMessage)
  | upload (chunkSize : ℕ) (data : Bytes)
  /-- A name is decided. -/
  | tag (name : String) (metahash : Bytes)
  | updateCatalog (key : Bytes) (peer : String)
  | searchFile (requestID pattern : String) (budget : UInt64) (shuffled : List String)
  /-- `FetchFile` asks a peer of the catalog. -/
  | request (requestID : String) (key : Bytes) (dst : String)
  /-- `ReSendDataRequest` asks again. The queue does not keep the requests, so this one is empty. -/
  | reSendDataRequest (dst : String)
  | arrive (i : ℕ) (choice : Choice)
  | accept (peers : List String)
  /-- The handler returns, if it does so at all. With an error it leaves rumors out. -/
  | returned

structure SharingEvent (M : Type) where
  addr : String
  fresh : ℕ → Fresh
  act : SharingAct M

structure SharingNetwork (M : Type) where
  nodes : String → SharingNode M
  flights : List (Flight M)

namespace SharingNode

variable (n : SharingNode M) (env : SharingEnv M)

def act : SharingAct M → Option (SharingNode M × List (Letter M))
  | .addPeer addr => some (n.addPeer addr, [])
  | .setRoutingEntry origin relayAddr =>
    some ({ n with toSearchNode := n.toSearchNode.setRoutingEntry origin relayAddr }, [])
  | .broadcast msg peers =>
    let (t, rumors) := n.rumorTable.newRumorsMessage n.myAddr msg
    some ({ n with rumorTable := t }, peers.map fun peer => direct peer (.rumors rumors))
  | .resend origin i peer =>
    (n.rumorTable.list origin)[i]?.map fun r => (n, [direct peer (.rumors [r])])
  | .graft source seq dest =>
    (execGraftMessage n.rumorTable (env.spare n.rumorTable) source seq).map fun rumors =>
      (n, [direct dest (.rumors rumors)])
  | .antiEntropy neighbor => some (n, [direct neighbor (.status n.rumorTable.getStatusMsg)])
  | .unicast dest m => some (n, n.byRoute dest (.other m))
  | .sendChunk peer msg => some (n, [direct peer (.encryptedChunk msg)])
  | .upload chunkSize data =>
    (Sharing.upload env.primitives chunkSize data n.blob).map fun (blob, _) =>
      ({ n with blob := blob }, [])
  | .tag name metahash => some (n.setName name metahash, [])
  | .updateCatalog key peer => some (n.updateCatalog key peer, [])
  | .searchFile requestID pattern budget shuffled =>
    (n.searchFile ⟨requestID, n.myAddr, pattern, budget⟩ "" shuffled).map fun packets =>
      (n, packets.map fun p => direct p.destination (.searchRequest p.msg))
  | .request requestID key dst =>
    if dst ∈ n.catalog.at key ∅ then some (n, n.byRoute dst (.dataRequest ⟨requestID, key⟩))
    else none
  | .reSendDataRequest dst => some (n, n.byRoute dst (.dataRequest ⟨"", []⟩))
  | .accept peers => n.accept peers
  | .returned => some ({ n with handling := [], busy := false }, [])
  | .arrive .. => none

end SharingNode

namespace SharingNetwork

def start : SharingNetwork M := ⟨SharingNode.newNode, []⟩

def sendMsg (fresh : Fresh) (myAddr : String) (l : Letter M) : Flight M where
  addr := l.nextAddr
  pkt := ⟨newHeader fresh myAddr myAddr l.dest 0, l.parcel⟩

def put (g : SharingNetwork M) (n : String) (fresh : ℕ → Fresh)
    (result : SharingNode M × List (Letter M)) : SharingNetwork M where
  nodes := Function.update g.nodes n result.1
  flights := g.flights ++ result.2.mapIdx fun i l => sendMsg (fresh i) n l

variable (env : SharingEnv M)

/-- A step of one node. No socket has the empty address. Packets for the node are handled one at a
time. -/
def step (g : SharingNetwork M) (e : SharingEvent M) : Option (SharingNetwork M) :=
  let n := g.nodes e.addr
  if e.addr = "" then none
  else match e.act with
    | .arrive i choice =>
      g.flights[i]?.bind fun f =>
        if f.addr ≠ e.addr then none
        else if f.header.destination = e.addr then
          if n.busy then none
          else (n.process env f.header choice f.pkt.msg).map (g.put e.addr e.fresh)
        else (f.step ⟨e.fresh 0, n.routingTable⟩).map fun a =>
          { g with flights := g.flights ++ [⟨a, f.relays ++ [e.addr]⟩] }
    | act => (n.act env act).map (g.put e.addr e.fresh)

def next (g : SharingNetwork M) (d p : String) : Option String :=
  (g.nodes p).routingTable.lookup d

def passedOn (f : Flight M) (id : Fresh) (nextAddr : String) : Flight M where
  addr := nextAddr
  pkt := ⟨newHeader id f.header.source f.addr f.header.destination (f.header.ttl - 1), f.pkt.msg⟩
  relays := f.relays ++ [f.addr]

/-- What a step is: the node handles a packet for it, or does something on its own, or relays a
packet. -/
inductive Effect (g : SharingNetwork M) (e : SharingEvent M) : SharingNetwork M → Prop
  | process {f : Flight M} {i : ℕ} {choice : Choice} {result : SharingNode M × List (Letter M)}
      (arrives : e.act = .arrive i choice) (mem : f ∈ g.flights)
      (dest : f.header.destination = e.addr)
      (handled : (g.nodes e.addr).process env f.header choice f.pkt.msg = some result) :
      Effect g e (g.put e.addr e.fresh result)
  | act {result : SharingNode M × List (Letter M)}
      (acts : (g.nodes e.addr).act env e.act = some result) :
      Effect g e (g.put e.addr e.fresh result)
  | relay {f : Flight M} {i : ℕ} {choice : Choice} {nextAddr : String}
      (arrives : e.act = .arrive i choice) (mem : f ∈ g.flights) (addr : f.addr = e.addr)
      (away : f.addr ≠ f.header.destination)
      (known : g.next f.header.destination f.addr = some nextAddr) :
      Effect g e { g with flights := g.flights ++ [passedOn f (e.fresh 0) nextAddr] }

theorem step_effect {env : SharingEnv M} {g g' : SharingNetwork M} {e : SharingEvent M}
    (h : g.step env e = some g') : e.addr ≠ "" ∧ Effect env g e g' := by
  unfold step at h
  dsimp only at h
  by_cases hn : e.addr = ""
  · rw [if_pos hn] at h
    cases h
  rw [if_neg hn] at h
  refine ⟨hn, ?_⟩
  split at h
  · rename_i i choice hact
    obtain ⟨f, hf, h⟩ := Option.bind_eq_some_iff.mp h
    replace hf := List.mem_of_getElem? hf
    split_ifs at h with haddr hdest hbusy
    · obtain ⟨result, hresult, rfl⟩ := Option.map_eq_some_iff.mp h
      exact .process hact hf hdest hresult
    · obtain ⟨a, ha, rfl⟩ := Option.map_eq_some_iff.mp h
      replace haddr := not_not.mp haddr
      have haway : ¬ f.pkt.header.destination = f.addr := by
        rw [haddr]
        exact hdest
      rw [Arrival.step, if_neg haway] at ha
      obtain ⟨_, hrelay, rfl⟩ := Option.map_eq_some_iff.mp ha
      obtain ⟨nextAddr, hnext, rfl⟩ := Option.map_eq_some_iff.mp hrelay
      rw [← haddr] at hnext ⊢
      exact .relay hact hf haddr (Ne.symm haway) hnext
  · obtain ⟨result, hresult, rfl⟩ := Option.map_eq_some_iff.mp h
    exact .act hresult

section Put

variable {g : SharingNetwork M} {n p : String} {fresh : ℕ → Fresh}
  {result : SharingNode M × List (Letter M)}

theorem nodes_put_self : (g.put n fresh result).nodes n = result.1 := Function.update_self ..

theorem nodes_put_of_ne (h : p ≠ n) : (g.put n fresh result).nodes p = g.nodes p :=
  Function.update_of_ne h ..

theorem mem_flights_put {f : Flight M} (h : f ∈ (g.put n fresh result).flights) :
    f ∈ g.flights ∨ ∃ l ∈ result.2, ∃ id, f = sendMsg id n l := by
  refine (List.mem_append.mp h).imp_right fun hmem => ?_
  obtain ⟨i, hi, rfl⟩ := List.mem_mapIdx.mp hmem
  exact ⟨_, List.getElem_mem hi, _, rfl⟩

end Put

end SharingNetwork

end JobPortal.Sharing
