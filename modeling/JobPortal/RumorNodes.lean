import JobPortal.PlumTree
import JobPortal.TreeLocks

/-! The handlers of packets with all they do about rumors: accepted rumors are pushed along the
trees, and the packets they came in are acknowledged. What the mutexes do is as before. -/
namespace JobPortal.Gossip

variable {A S M : Type}

structure Header where
  packetID : String
  source : String
  relayedBy : String
  deriving DecidableEq, Repr

structure AckMessage where
  ackedPacketID : String
  status : StatusMessage

/-- What a node does with a rumor, and what it sends on account of rumors. -/
inductive Act (M : Type)
  | offer (r : Rumor M) (v : Verdict)
  | push (r : Rumor M) (peers : Finset String)
  | broadcast (r : Rumor M) (peers : Finset String)
  | answer (dest packetID : String) (rumors : List (Rumor M))
  | prune (dest msgHash : String)
  | ackIHave (dest packetID msgHash : String)
  | ack (dest : String) (msg : AckMessage)

def Rumor.msgHash (r : Rumor M) : String := r.origin ++ ";" ++ toString r.sequence

/-- A node with its trees. The log lists what it did, in order. -/
structure RumorNode (A S : Type) extends GossipState A S where
  routingTable : GoMap String String
  neighbors : List String
  trees : GoMap String PlumTree
  log : List (Act (Message A))

/-- The loop over the rumors of a packet: the trees that are locked, those that it unlocks in the
end, and whether a rumor was new. -/
structure RumorLoop (A S : Type) where
  node : RumorNode A S
  locked : List String
  deferred : List String := []
  hasNew : Bool := false

namespace RumorNode

def newNode (myAddr : String) (app : S) : RumorNode A S where
  rumorTable := .new
  app := app
  routingTable := Finmap.singleton myAddr myAddr
  neighbors := []
  trees := ∅
  log := []

variable (st : RumorNode A S)

def addPeer (myAddr addr : String) : RumorNode A S :=
  { st with
    routingTable := st.routingTable.insert addr addr
    neighbors := if myAddr = addr then st.neighbors else st.neighbors ++ [addr] }

def note (a : Act (Message A)) : RumorNode A S := { st with log := st.log ++ [a] }

/-- The tree of an origin, a new one of all neighbors where there is none yet. -/
def tree (addr : String) : PlumTree := st.trees.at addr (.newPlumTree st.neighbors)

def setTree (addr : String) (t : PlumTree) : RumorNode A S :=
  { st with trees := st.trees.insert addr t }

def setRoute (origin relayAddr : String) : RumorNode A S :=
  if origin ∈ st.routingTable then st
  else { st with routingTable := st.routingTable.insert origin relayAddr }

/-- The node learns where a rumor comes from, and its table answers. -/
def offer (hdr : Header) (r : Rumor (Message A)) : RumorNode A S × Verdict :=
  let (t, v) := st.rumorTable.tryToAcceptOrigin r
  ({ st.setRoute r.origin hdr.relayedBy with rumorTable := t }.note (.offer r v), v)

/-- The part of `ExecRumorMessage` with the tree locked. -/
def relay (source : String) (r : Rumor (Message A)) : RumorNode A S :=
  let old := st.tree r.origin
  let new := old.execRumor r.msgHash source
  (st.setTree r.origin new).note <|
    if (old.computeIfAbsent r.msgHash).receivedMsg then .prune source r.msgHash
    else .push r (new.peers.eagers.erase source)

/-- The part of `Broadcast` with the tree locked, up to the handler. -/
def relayOwn (myAddr : String) (r : Rumor (Message A)) : RumorNode A S :=
  let new := (st.tree myAddr).broadcast r.msgHash myAddr
  (st.setTree myAddr new).note (.broadcast r (new.peers.eagers.erase myAddr))

def sendAck (hdr : Header) : RumorNode A S :=
  st.note (.ack hdr.source ⟨hdr.packetID, st.rumorTable.getStatusMsg⟩)

def execPrune (hdr : Header) (msgHash : String) : RumorNode A S :=
  st.setTree (treeOf msgHash) ((st.tree (treeOf msgHash)).moveToLazy hdr.source)

def execIHave (hdr : Header) (msgHash : String) : RumorNode A S :=
  (st.setTree (treeOf msgHash) ((st.tree (treeOf msgHash)).execIHave msgHash hdr.source)).note
    (.ackIHave hdr.source hdr.packetID msgHash)

end RumorNode

/-- The rumors that answer a Graft, `none` where the handler panics. -/
def Host.graftAnswer (C : Host A S) (st : GossipState A S) (msgHash : String) :
    Option (List (Rumor (Message A))) :=
  match msgHash.splitOn ";" with
  | source :: seq :: _ => execGraftMessage st.rumorTable (C.spare st.rumorTable) source (atoi seq)
  | _ => none

namespace RumorNode

/-- The peer is moved before the rumor is looked up, so it is moved also where the handler
panics. -/
def execGraft (C : Host A S) (hdr : Header) (st : RumorNode A S) (msgHash : String) :
    RumorNode A S × Bool :=
  let st := st.setTree (treeOf msgHash) ((st.tree (treeOf msgHash)).moveToEager hdr.source)
  match C.graftAnswer st.toGossipState msgHash with
  | none => (st, false)
  | some [] => (st, true)
  | some rumors => (st.note (.answer hdr.source hdr.packetID rumors), true)

end RumorNode

def RumorLoop.relay (l : RumorLoop A S) (source : String) (r : Rumor (Message A)) :
    Option (RumorLoop A S) :=
  (lockTree l.locked r.origin).map fun locked =>
    { l with node := l.node.relay source r, locked := locked, deferred := r.origin :: l.deferred }

/-- On its way out the handler acknowledges the packet, if the loop got to its end and a rumor was
new. -/
def RumorLoop.finish (C : Host A S) (hdr : Header) (l : RumorLoop A S) (ok : Bool) :
    RumorNode A S :=
  if ok ∧ hdr.source ≠ C.myAddr ∧ l.hasNew then l.node.sendAck hdr else l.node

namespace RumorNode

variable (C : Host A S)

def broadcast (st : RumorNode A S) (locked : List String) (b : A) :
    Option (RumorNode A S × List String) :=
  let (t, rumors) := st.rumorTable.newRumorsMessage C.myAddr (.other b)
  (lockTree locked C.myAddr).bind fun locked =>
    let st := rumors.foldl (relayOwn · C.myAddr) { st with rumorTable := t }
    let r := C.exec C.myAddr st.app b
    if r.outcome = .blocked ∨ ¬ r.broadcasts.isEmpty then none
    else some ({ st with app := r.app }, locked.erase C.myAddr)

def broadcastAll : List A → RumorNode A S → List String → Option (RumorNode A S × List String)
  | [], st, locked => some (st, locked)
  | b :: bs, st, locked =>
    (broadcast C st locked b).bind fun (st, locked) => broadcastAll bs st locked

variable (hdr : Header)

mutual

/-- The handler of a message in a packet with the header `hdr`: what it leaves, the trees locked
then, and whether it returns without an error. It is `none` for a call that never returns. -/
def processPacket : Message A → RumorNode A S → List String →
    Option (RumorNode A S × List String × Bool)
  | .rumors rumors, st, locked =>
    (execRumors rumors ⟨st, locked, [], false⟩).map fun (l, ok) =>
      (l.finish C hdr ok, l.deferred.foldl List.erase l.locked, ok)
  | .privateMessage recipients none, st, locked =>
    some (st, locked, decide (C.myAddr ∉ recipients))
  | .privateMessage recipients (some m), st, locked =>
    if C.myAddr ∈ recipients then processPacket m st locked else some (st, locked, true)
  | .prune msgHash, st, locked =>
    (lockTree locked (treeOf msgHash)).map fun locked =>
      (st.execPrune hdr msgHash, locked.erase (treeOf msgHash), true)
  | .iHave msgHash, st, locked =>
    (lockTree locked (treeOf msgHash)).map fun locked =>
      (st.execIHave hdr msgHash, locked.erase (treeOf msgHash), true)
  | .graft msgHash, st, locked =>
    (lockTree locked (treeOf msgHash)).map fun locked =>
      ((execGraft C hdr st msgHash).1, locked.erase (treeOf msgHash),
        (execGraft C hdr st msgHash).2)
  | .other m, st, locked =>
    let r := C.exec hdr.source st.app m
    if r.outcome = .blocked then none
    else (broadcastAll C r.broadcasts { st with app := r.app } locked).map fun (st, locked) =>
      (st, locked, decide (r.outcome = .returned))

def execRumors : List (Rumor (Message A)) → RumorLoop A S → Option (RumorLoop A S × Bool)
  | [], l => some (l, true)
  | ⟨origin, sequence, msg⟩ :: rs, l =>
    let (node, v) := l.node.offer hdr ⟨origin, sequence, msg⟩
    match v with
    | .future => execRumors rs { l with node := node }
    | .prune =>
      ({ l with node := node }.relay hdr.source ⟨origin, sequence, msg⟩).bind fun l =>
        execRumors rs l
    | .process =>
      match msg with
      -- a packet without a message makes the handler panic
      | none => some ({ l with node := node, hasNew := true }, false)
      | some m =>
        (processPacket m node l.locked).bind fun (node, locked, ok) =>
          let l := { l with node := node, locked := locked, hasNew := true }
          if ok then
            (l.relay hdr.source ⟨origin, sequence, some m⟩).bind fun l => execRumors rs l
          -- the rumor stays in the table, but it is not pushed
          else some (l, false)

end

def execRumorMessage (rumors : List (Rumor (Message A))) :
    RumorNode A S → List String → Option (RumorNode A S × List String × Bool) :=
  processPacket C hdr (.rumors rumors)

section Core

/-! Apart from the trees and the log the handlers are those of `Host`. -/

variable (st : RumorNode A S) (source : String)

@[simp] theorem note_core (a : Act (Message A)) :
    (st.note a).toGossipState = st.toGossipState := rfl

@[simp] theorem setTree_core (addr : String) (t : PlumTree) :
    (st.setTree addr t).toGossipState = st.toGossipState := rfl

@[simp] theorem relay_core (r : Rumor (Message A)) :
    (st.relay source r).toGossipState = st.toGossipState := rfl

@[simp] theorem relayOwn_core (r : Rumor (Message A)) :
    (st.relayOwn source r).toGossipState = st.toGossipState := rfl

@[simp] theorem offer_core (r : Rumor (Message A)) :
    (st.offer hdr r).1.toGossipState =
      { st.toGossipState with rumorTable := (st.rumorTable.tryToAcceptOrigin r).1 } := by
  simp only [offer, note_core, setRoute]
  split_ifs
  · rfl
  · rfl

theorem execGraft_core (msgHash : String) :
    (execGraft C hdr st msgHash).1.toGossipState = st.toGossipState ∧
      (execGraft C hdr st msgHash).2 = C.answersGraft st.toGossipState msgHash := by
  have hanswers : C.answersGraft st.toGossipState msgHash =
      (C.graftAnswer st.toGossipState msgHash).isSome := by
    rw [Host.answersGraft, Host.graftAnswer]
    rcases msgHash.splitOn ";" with _ | ⟨_, _ | _⟩
    all_goals rfl
  rw [hanswers]
  simp only [execGraft, setTree_core]
  rcases C.graftAnswer st.toGossipState msgHash with _ | _ | ⟨r, rs⟩
  all_goals exact ⟨rfl, rfl⟩

theorem broadcast_core (locked : List String) (b : A) :
    (broadcast C st locked b).map (fun (st, locked) => (st.toGossipState, locked)) =
      C.broadcast st.toGossipState locked b := by
  simp only [broadcast, Host.broadcast, SafeRumorTable.newRumorsMessage, List.foldl_cons,
    List.foldl_nil, relayOwn_core, Option.map_bind]
  apply Option.bind_congr
  intro locked _
  exact apply_ite (Option.map _) _ _ _

theorem broadcastAll_core (bs : List A) (st : RumorNode A S) (locked : List String) :
    (broadcastAll C bs st locked).map (fun (st, locked) => (st.toGossipState, locked)) =
      C.broadcastAll bs st.toGossipState locked := by
  induction bs generalizing st locked with
  | nil => rfl
  | cons b bs ih =>
    rw [broadcastAll, Host.broadcastAll, ← broadcast_core, Option.map_bind, Option.bind_map]
    apply Option.bind_congr
    intro next _
    exact ih next.1 next.2

mutual

theorem processPacket_core : (m : Message A) → (st : RumorNode A S) → (locked : List String) →
    (processPacket C hdr m st locked).map (fun (st, locked, ok) => (st.toGossipState, locked, ok)) =
      C.processPacket hdr.source m st.toGossipState locked
  | .rumors rumors, st, locked => by
    rw [processPacket, Host.processPacket, ← execRumors_core rumors ⟨st, locked, [], false⟩,
      Option.map_map, Option.map_map]
    apply congrArg (Option.map · _)
    funext ⟨l, ok⟩
    dsimp only [Function.comp, RumorLoop.finish]
    split_ifs
    · rfl
    · rfl
  | .privateMessage recipients none, st, locked => by
    rw [processPacket, Host.processPacket]
    rfl
  | .privateMessage recipients (some m), st, locked => by
    rw [processPacket, Host.processPacket]
    split_ifs
    · exact processPacket_core m st locked
    · rfl
  | .prune msgHash, st, locked | .iHave msgHash, st, locked => by
    rw [processPacket, Host.processPacket, Option.map_map]
    rfl
  | .graft msgHash, st, locked => by
    obtain ⟨hcore, hok⟩ := execGraft_core C hdr st msgHash
    rw [processPacket, Host.processPacket, Option.map_map]
    apply congrArg (Option.map · _)
    funext locked
    simp only [Function.comp, hcore, hok]
  | .other m, st, locked => by
    rw [processPacket, Host.processPacket]
    dsimp only
    split_ifs
    · rfl
    · have hall := broadcastAll_core C (C.exec hdr.source st.app m).broadcasts
        { st with app := (C.exec hdr.source st.app m).app } locked
      rw [← hall, Option.map_map, Option.map_map]
      rfl

theorem execRumors_core : (rs : List (Rumor (Message A))) → (l : RumorLoop A S) →
    (execRumors C hdr rs l).map
        (fun (l, ok) => (l.node.toGossipState, l.locked, l.deferred, ok)) =
      C.execRumors hdr.source rs l.node.toGossipState l.locked l.deferred
  | [], l => by
    rw [execRumors, Host.execRumors]
    rfl
  | ⟨origin, sequence, msg⟩ :: rs, l => by
    have hoffer := offer_core hdr l.node ⟨origin, sequence, msg⟩
    have hrest : ∀ l : RumorLoop A S, (l.relay hdr.source ⟨origin, sequence, msg⟩).bind
          (fun l => (execRumors C hdr rs l).map
            fun (l, ok) => (l.node.toGossipState, l.locked, l.deferred, ok)) =
        (lockTree l.locked origin).bind fun locked =>
          C.execRumors hdr.source rs l.node.toGossipState locked (origin :: l.deferred) := by
      intro l
      rw [RumorLoop.relay, Option.bind_map]
      apply Option.bind_congr
      intro locked _
      exact execRumors_core rs _
    have hnode := offer_core hdr l.node ⟨origin, sequence, msg⟩
    rw [execRumors, Host.execRumors]
    rcases htry : l.node.rumorTable.tryToAcceptOrigin ⟨origin, sequence, msg⟩ with ⟨t, v⟩
    have hv : (l.node.offer hdr ⟨origin, sequence, msg⟩).2 = v := congrArg Prod.snd htry
    rw [htry] at hnode
    rcases hoffer : l.node.offer hdr ⟨origin, sequence, msg⟩ with ⟨node, v'⟩
    rw [hoffer] at hnode hv
    obtain rfl : v' = v := hv
    simp only [← hnode]
    cases v' with
    | future => exact execRumors_core rs _
    | prune =>
      rw [Option.map_bind]
      exact hrest { l with node := node }
    | process =>
      cases msg with
      | none => rfl
      | some m =>
        simp only
        rw [← processPacket_core m node l.locked, Option.map_bind, Option.bind_map]
        apply Option.bind_congr
        rintro ⟨node, locked, ok⟩ _
        cases ok with
        | false => rfl
        | true =>
          simp only [Function.comp, if_true]
          rw [Option.map_bind]
          exact hrest ⟨node, locked, l.deferred, true⟩

end

end Core

end RumorNode

end JobPortal.Gossip
