import JobPortal.LastWrites
import JobPortal.PaxosNames
import JobPortal.PbftTagged

/-! What Resolve finds of the names that Tag has bound. Tag looks at the HR naming store and Resolve
at the other one, which only TLC blocks and search replies write. -/
namespace JobPortal

open Hex Runs LastWrites

variable (P : Primitives) (Q : PaxosPrimitives)

/-- What appending a block of the TLC path writes to the naming store. -/
def PbftchainBlock.binding (b : PbftchainBlock) : String × Bytes :=
  (b.request.filename, utf8 b.request.metahash)

namespace Node

def pbftTLCBlocks : ℕ → SafePbft → ℕ → List PbftchainBlock
  | 0, _, _ => []
  | fuel + 1, s, step =>
    match s.getPbftBlockAndAdvance step with
    | none => []
    | some (block, s) => block :: pbftTLCBlocks fuel s (step + 1)

theorem pbftTLCProcess_naming (fuel : ℕ) (n : Node) (step : ℕ) (catchUp : Bool) :
    (pbftTLCProcess P fuel n step catchUp).1.storage.naming =
      writeAll n.storage.naming ((pbftTLCBlocks fuel n.pbft step).map (·.binding)) := by
  induction fuel generalizing n step catchUp with
  | zero => rfl
  | succ fuel ih =>
    rw [pbftTLCProcess, pbftTLCBlocks]
    cases hadv : n.pbft.getPbftBlockAndAdvance step with
    | none => rfl
    | some bt => exact ih (addTLCBlock P { n with pbft := bt.2 } bt.1) (step + 1) true

/-- What the handlers of the PBFT messages write to the naming store. -/
def namesBound (n : Node) : Message → List (String × Bytes)
  | .pbftTLC tlc =>
    if n.pbft.lock then []
    else
      let s := n.pbft.receivePbftTLC tlc (n.paxosThreshold n.totalPeers)
      (pbftTLCBlocks (s.consensus.keys.card + 1) s s.pbftID).map (·.binding)
  | _ => []

variable {P}

theorem execPbftTLCMessage_naming (n : Node) (tlc : PbftTLCMessage) :
    (n.execPbftTLCMessage P tlc).node.storage.naming =
      writeAll n.storage.naming (n.namesBound (.pbftTLC tlc)) := by
  rw [execPbftTLCMessage, namesBound]
  split_ifs
  · rfl
  · exact pbftTLCProcess_naming P _ _ _ _

theorem Effect.storage {n : Node} {m : Message} {r : Handled} (h : n.Effect P m r)
    (hm : ∀ tlc, m ≠ .pbftTLC tlc) : r.node.storage = n.storage := by
  cases h with
  | idle same => rw [same.node]
  | pbftTLC tlc => exact absurd rfl (hm tlc)
  | conflict => rfl
  | prePrepare => rfl
  | prepare => rfl
  | prepared => rfl
  | commit => rfl
  | noPeers => rfl
  | committed => rfl
  | checkpoint => rfl

theorem exec_naming (n : Node) (m : Message) :
    (n.exec P m).node.storage.naming = writeAll n.storage.naming (n.namesBound m) := by
  have hkept (hm : ∀ tlc, m ≠ .pbftTLC tlc) :
      (n.exec P m).node.storage.naming = writeAll n.storage.naming [] :=
    congrArg Storage.naming ((exec_effect P n m).storage hm)
  cases m with
  | pbftTLC tlc => exact n.execPbftTLCMessage_naming tlc
  | prePrepare => exact hkept nofun
  | prepare => exact hkept nofun
  | commit => exact hkept nofun
  | checkpoint => exact hkept nofun

theorem tagSection_naming (n : Node) (call : TagCall) :
    (n.tagSection P call).node.storage = n.storage := by
  unfold Node.tagSection
  split_ifs <;> rfl

end Node

namespace PaxosNode

def namesBound (n : PaxosNode) : PaxosMessage → List (String × Bytes)
  | .tlc tlc => (n.execTLCAppended Q tlc).map (·.2.binding)
  | _ => []

variable {Q}

theorem exec_naming (n : PaxosNode) (m : PaxosMessage) :
    (n.exec Q m).1.storage.naming = writeAll n.storage.naming (n.namesBound Q m) := by
  have hkept (hm : ∀ tlc, m ≠ .tlc tlc) :
      (n.exec Q m).1.storage.naming = writeAll n.storage.naming [] :=
    congrArg Storage.naming ((exec_effect Q n m).storage Q hm)
  cases m with
  | tlc tlc =>
    have hstorage := congrArg Storage.naming (n.execTLCMessage_storage Q tlc)
    rw [storageAfter_naming, List.map_map] at hstorage
    exact hstorage
  | prepare => exact hkept nofun
  | promise => exact hkept nofun
  | propose => exact hkept nofun
  | accept => exact hkept nofun

end PaxosNode

/-- The part of a `FileInfo` that goes to the naming store. -/
structure NameInfo where
  name : String
  metahash : String
  deriving DecidableEq, Repr

/-- A PBFT peer with the Paxos state next to it. Both write the stores of `peer.node.storage`.
`bound` lists what was written to the naming store. -/
structure ResolvingPeer where
  peer : Peer
  paxosID : ℕ
  paxos : SafePaxos
  bound : List (String × Bytes)

/-- The handlers of both protocols and of search replies are registered in every setting. -/
inductive ResolvingEvent
  | pbft (e : PeerEvent)
  | paxos (m : PaxosMessage)
  | searchReply (responses : List NameInfo)
  deriving DecidableEq, Repr

namespace ResolvingPeer

variable (p : ResolvingPeer)

def naming : GoMap String Bytes := p.peer.node.storage.naming

/-- The string that Resolve returns, as its bytes. -/
def resolve (name : String) : Bytes := (p.naming.lookup name).getD []

def paxosNode : PaxosNode where
  myAddr := p.peer.node.myAddr
  paxosID := p.paxosID
  totalPeers := p.peer.node.totalPeers
  paxosThreshold := p.peer.node.paxosThreshold
  paxos := p.paxos
  storage := p.peer.node.storage

def setStorage (s : Storage) : ResolvingPeer :=
  { p with peer := { p.peer with node := { p.peer.node with storage := s } } }

/-- The handler of a Paxos message, without what it broadcasts. -/
def execPaxos (m : PaxosMessage) : ResolvingPeer :=
  let n := (p.paxosNode.exec Q m).1
  { p.setStorage n.storage with paxos := n.paxos }

/-- The loop of `ExecSearchReplyMessage` as far as it writes the naming store. -/
def execSearchReply (responses : List NameInfo) : ResolvingPeer :=
  p.setStorage ⟨responses.foldl (fun m info => m.insert info.name (utf8 info.metahash)) p.naming,
    p.peer.node.storage.blockchain⟩

def namesBound : ResolvingEvent → List (String × Bytes)
  | .pbft (.receive m) => p.peer.node.namesBound m
  | .pbft _ => []
  | .paxos m => p.paxosNode.namesBound Q m
  | .searchReply responses => responses.map fun info => (info.name, utf8 info.metahash)

def step (e : ResolvingEvent) : Option ResolvingPeer :=
  let q := match e with
    | .pbft e => (p.peer.step P e).map fun peer => { p with peer := peer }
    | .paxos m => some (p.execPaxos Q m)
    | .searchReply responses => some (p.execSearchReply responses)
  q.map fun q => { q with bound := p.bound ++ p.namesBound Q e }

variable {P Q}

theorem tag_naming (p : Peer) (name mh : String) :
    (p.tag name mh).node.storage.naming = p.node.storage.naming := by
  unfold Peer.tag
  split_ifs <;> rfl

theorem peer_naming {e : PeerEvent} {peer : Peer} (h : p.peer.step P e = some peer) :
    peer.node.storage.naming = writeAll p.naming (p.namesBound Q (.pbft e)) := by
  cases e with
  | receive m =>
    obtain rfl := Option.some.inj h
    exact p.peer.node.exec_naming m
  | tag name mh =>
    obtain rfl := Option.some.inj h
    exact tag_naming p.peer name mh
  | verify => cases Peer.step_effect P h; rfl
  | propose =>
    cases Peer.step_effect P h with
    | propose => exact congrArg Storage.naming (Node.tagSection_naming _ _)

theorem step_naming {p q : ResolvingPeer} {e : ResolvingEvent} (h : p.step P Q e = some q) :
    q.naming = writeAll p.naming (p.namesBound Q e) ∧ q.bound = p.bound ++ p.namesBound Q e := by
  obtain ⟨r, hr, rfl⟩ := Option.map_eq_some_iff.mp h
  refine ⟨?_, rfl⟩
  cases e with
  | pbft e =>
    obtain ⟨peer, hpeer, rfl⟩ := Option.map_eq_some_iff.mp hr
    exact p.peer_naming hpeer
  | paxos m =>
    obtain rfl := Option.some.inj hr
    exact p.paxosNode.exec_naming m
  | searchReply responses =>
    obtain rfl := Option.some.inj hr
    change responses.foldl (fun m info => m.insert info.name (utf8 info.metahash)) p.naming = _
    rw [writeAll, namesBound, List.foldl_map]

end ResolvingPeer

def newResolvingPeer (conf : PeerConfig) : ResolvingPeer where
  peer := newPeer P conf
  paxosID := conf.paxosID
  paxos := newSafePaxos
  bound := []

namespace ResolvingPeer

variable (p : ResolvingPeer) {P Q}

/-- Resolve returns what the last write by a TLC block or a search reply has left. -/
theorem resolve_of_run {conf : PeerConfig} {es : List ResolvingEvent} {p : ResolvingPeer}
    (h : AnyRun (step P Q) (newResolvingPeer P conf) es p) (name : String) :
    p.resolve name = (lastTo name p.bound).getD [] := by
  have hnaming : p.naming = writeAll ∅ p.bound := by
    refine h.invariant (I := fun p => p.naming = writeAll ∅ p.bound) rfl fun hp _ hstep => ?_
    obtain ⟨hq, hbound⟩ := step_naming hstep
    rw [hq, hbound, writeAll_append, hp]
  rw [resolve, hnaming, lookup_writeAll, Finmap.lookup_empty, Option.or_none]

def tagAll (tags : List (String × String)) : ResolvingPeer :=
  { p with peer := tags.foldl (fun peer t => peer.tag t.1 t.2) p.peer }

theorem tagAll_naming (tags : List (String × String)) : (p.tagAll tags).naming = p.naming := by
  change (tags.foldl (fun (peer : Peer) t => peer.tag t.1 t.2) p.peer).node.storage.naming = _
  induction tags using List.reverseRecOn with
  | nil => rfl
  | append_singleton tags t ih =>
    rw [List.foldl_append]
    exact (tag_naming _ t.1 t.2).trans ih

def lastTag (name : String) (tags : List (String × String)) : String := (lastTo name tags).getD ""

/-- On a lone node Resolve returns what Tag was given only where that is empty. With others, it does
so where the last TLC block or search reply that gives the name gives the same metahash. -/
theorem resolve_iff (P : Primitives) (Q : PaxosPrimitives) (conf : PeerConfig) :
    (conf.totalPeers ≤ 1 → ∀ (tags : List (String × String)) (name : String),
      ((newResolvingPeer P conf).tagAll tags).resolve name = utf8 (lastTag name tags) ↔
        lastTag name tags = "") ∧
    (1 < conf.totalPeers → ∀ (es : List ResolvingEvent) (p q : ResolvingPeer) (i : ℕ)
      (call : TagCall), AnyRun (step P Q) (newResolvingPeer P conf) es p →
      p.peer.calls[i]? = some call → p.step P Q (.pbft (.verify i)) = some q →
      q.peer.calls[i]? = some { call with pc := .returned } →
      (q.resolve call.name = utf8 call.mh ↔
        (lastTo call.name p.bound).getD [] = utf8 call.mh)) := by
  constructor
  · intro _ tags name
    have hnone : ((newResolvingPeer P conf).tagAll tags).resolve name = [] := by
      rw [resolve, tagAll_naming]
      rfl
    rw [hnone]
    exact ⟨fun h => utf8_injective h.symm, fun h => by rw [h]; rfl⟩
  · intro _ es p q i call hrun _ hstep _
    have hq := resolve_of_run (.snoc hrun trivial hstep) call.name
    rw [(step_naming hstep).2] at hq
    rw [hq, show p.namesBound Q (.pbft (.verify i)) = [] from rfl, List.append_nil]

end ResolvingPeer

namespace Sample

def lone : PeerConfig := { myAddr := "A", paxosID := 1, totalPeers := 1 }

def resolvingStep : ResolvingPeer → ResolvingEvent → Option ResolvingPeer :=
  ResolvingPeer.step primitives PaxosSample.primitives

def resolvingOwn : List ResolvingEvent := taggingOwn.map .pbft

theorem resolvingOwn_isSome :
    (exec resolvingStep (newResolvingPeer primitives (conf "A" 1)) resolvingOwn).isSome := by
  decide

def resolvingTagged : ResolvingPeer :=
  (exec resolvingStep (newResolvingPeer primitives (conf "A" 1)) resolvingOwn).get
    resolvingOwn_isSome

theorem resolvingTagged_verifies : (resolvingStep resolvingTagged (.pbft (.verify 0))).isSome := by
  decide

/-- A name tagged on a lone node is not found, and neither is one that has got its block. -/
theorem resolve_counterexample :
    ((newResolvingPeer primitives lone).tagAll [("f", "m")]).resolve "f" ≠ utf8 "m" ∧
      let p := (resolvingStep resolvingTagged (.pbft (.verify 0))).get resolvingTagged_verifies
      p.peer.calls[0]? = some { name := "g", mh := "n", flag := true, pc := .returned } ∧
        p.resolve "g" ≠ utf8 "n" := by
  decide

/-- A peer announces the name in a search reply before Tag returns. -/
def announcedName : List ResolvingEvent :=
  resolvingOwn ++ [.searchReply [⟨"f", "m"⟩, ⟨"g", "n"⟩]]

theorem announcedName_isSome :
    (exec resolvingStep (newResolvingPeer primitives (conf "A" 1)) announcedName).isSome := by
  decide

def resolvingAnnounced : ResolvingPeer :=
  (exec resolvingStep (newResolvingPeer primitives (conf "A" 1)) announcedName).get
    announcedName_isSome

theorem resolvingAnnounced_verifies :
    (resolvingStep resolvingAnnounced (.pbft (.verify 0))).isSome := by
  decide

theorem resolve_iff_announced :
    (((newResolvingPeer primitives lone).tagAll [("f", "m"), ("f", "")]).resolve "f" =
        utf8 (ResolvingPeer.lastTag "f" [("f", "m"), ("f", "")]) ↔
      ResolvingPeer.lastTag "f" [("f", "m"), ("f", "")] = "") ∧
    (((resolvingStep resolvingAnnounced (.pbft (.verify 0))).get
        resolvingAnnounced_verifies).resolve "g" = utf8 "n" ↔
      (lastTo "g" resolvingAnnounced.bound).getD [] = utf8 "n") := by
  constructor
  · exact (ResolvingPeer.resolve_iff primitives PaxosSample.primitives lone).1 (by decide) _ "f"
  · have hcall : resolvingAnnounced.peer.calls[0]? =
        some { name := "g", mh := "n", flag := true } := by
      decide
    exact (ResolvingPeer.resolve_iff primitives PaxosSample.primitives (conf "A" 1)).2 (by decide)
      announcedName resolvingAnnounced _ 0 _ (run_exec_get announcedName_isSome) hcall
      (Option.some_get resolvingAnnounced_verifies).symm (by decide)

end Sample

end JobPortal
