import JobPortal.PbftTlc
import JobPortal.Runs

/-! A PBFT peer: the replica together with its Tag calls. Received messages, starts of
calls, and the two parts of a call's loop interleave freely; a run of the peer is any
sequence of these. -/
namespace JobPortal

open Hex

def checkpointInterval : ℕ := 1000

/-- Where a Tag call stands in its loop: before the naming store is consulted, before the
critical section, or out of the loop. -/
inductive TagPC
  | verifying
  | proposing
  | returned
  deriving DecidableEq, Repr

structure TagCall where
  name : String
  mh : String
  flag : Bool := false
  pc : TagPC := .verifying
  deriving DecidableEq, Repr

variable (P : Primitives)

namespace Node

def exec (n : Node) : Message → Handled
  | .prePrepare pp => n.execPrePrepareMessage P pp
  | .prepare pre => n.execPrepareMessage P pre
  | .commit c => n.execCommitMessage P c
  | .checkpoint cp => n.execCheckpointMessage P cp
  | .pbftTLC tlc => n.execPbftTLCMessage P tlc

inductive Effect (n : Node) : Message → Handled → Prop
  | idle {m : Message} {r : Handled} (same : Handled.Idle n r) : Effect n m r
  | conflict {pp : PrePrepareMessage}
      (admits : n.Admits P pp.srcAddr pp.digest pp.signature)
      (digest : P.getDigest pp.requestMessage = pp.digest) (conflicts : n.Conflicts pp) :
      Effect n (.prePrepare pp) { node := n.locked, outcome := .failed "correspondance fail" }
  | prePrepare {pp : PrePrepareMessage}
      (admits : n.Admits P pp.srcAddr pp.digest pp.signature)
      (digest : P.getDigest pp.requestMessage = pp.digest) (fresh : ¬ n.Conflicts pp) :
      Effect n (.prePrepare pp)
        { node := n.storePrePrepare pp, sent := [.prepare (n.prepareOf P pp)]
          signed := [decodeString pp.digest] }
  | prepare {pre : PrepareMessage}
      (admits : n.Admits P pre.srcAddr pre.digest pre.signature)
      (short : ¬ (n.storePrepare pre).Prepares pre.pbftID) :
      Effect n (.prepare pre) { node := n.storePrepare pre }
  | prepared {pre : PrepareMessage}
      (admits : n.Admits P pre.srcAddr pre.digest pre.signature)
      (enough : (n.storePrepare pre).Prepares pre.pbftID) :
      Effect n (.prepare pre)
        { node := (n.storePrepare pre).enterPrepared pre
          sent := [.commit ((n.storePrepare pre).commitOf P pre)]
          signed := [decodeString pre.digest] }
  | commit {c : CommitMessage}
      (admits : n.Admits P c.srcAddr c.digest c.signature)
      (short : ¬ (n.storeCommit c).Commits c.pbftID) :
      Effect n (.commit c) { node := n.storeCommit c }
  | noPeers {c : CommitMessage}
      (admits : n.Admits P c.srcAddr c.digest c.signature)
      (enough : (n.storeCommit c).Commits c.pbftID) (none : n.totalPeers = 0) :
      Effect n (.commit c)
        { node := ((n.storeCommit c).enterCommitted c.pbftID).locked, outcome := .panicked }
  | committed {c : CommitMessage}
      (admits : n.Admits P c.srcAddr c.digest c.signature)
      (enough : (n.storeCommit c).Commits c.pbftID) (some : n.totalPeers ≠ 0) :
      Effect n (.commit c)
        { node := ((n.storeCommit c).enterCommitted c.pbftID).appendBlock P (n.committedBlock P c)
          appended := [(c.pbftID, n.committedBlock P c)] }
  | checkpoint {cp : CheckpointMessage}
      (admits : n.Admits P cp.srcAddr cp.digest cp.signature) :
      Effect n (.checkpoint cp) { node := n.storeCheckpoint cp }
  | pbftTLC (tlc : PbftTLCMessage) : Effect n (.pbftTLC tlc) (n.execPbftTLCMessage P tlc)

theorem execPrePrepareMessage_effect (n : Node) (pp : PrePrepareMessage) :
    n.Effect P (.prePrepare pp) (n.execPrePrepareMessage P pp) := by
  unfold execPrePrepareMessage
  split_ifs with hself hdigest hsig hlock hconf
  · exact .idle ⟨rfl, rfl, rfl, rfl⟩
  · exact .idle ⟨rfl, rfl, rfl, rfl⟩
  · exact .idle ⟨rfl, rfl, rfl, rfl⟩
  · exact .idle ⟨rfl, rfl, rfl, rfl⟩
  · exact .conflict ⟨hself, by simpa using hsig, by simpa using hlock⟩ (by simpa using hdigest)
      hconf
  · exact .prePrepare ⟨hself, by simpa using hsig, by simpa using hlock⟩ (by simpa using hdigest)
      hconf

theorem execPrepareMessage_effect (n : Node) (pre : PrepareMessage) :
    n.Effect P (.prepare pre) (n.execPrepareMessage P pre) := by
  unfold execPrepareMessage
  by_cases h : n.Admits P pre.srcAddr pre.digest pre.signature
  · rw [checked_of_admits P n h]
    dsimp only
    split_ifs with hprep
    · exact .prepared h hprep
    · exact .prepare h hprep
  · exact .idle (checked_idle P n h)

theorem execCommitMessage_effect (n : Node) (c : CommitMessage) :
    n.Effect P (.commit c) (n.execCommitMessage P c) := by
  unfold execCommitMessage
  by_cases h : n.Admits P c.srcAddr c.digest c.signature
  · rw [checked_of_admits P n h]
    dsimp only
    split_ifs with hcom hzero
    · exact .noPeers h hcom hzero
    · exact .committed h hcom hzero
    · exact .commit h hcom
  · exact .idle (checked_idle P n h)

theorem execCheckpointMessage_effect (n : Node) (cp : CheckpointMessage) :
    n.Effect P (.checkpoint cp) (n.execCheckpointMessage P cp) := by
  unfold execCheckpointMessage
  by_cases h : n.Admits P cp.srcAddr cp.digest cp.signature
  · rw [checked_of_admits P n h]
    exact .checkpoint h
  · exact .idle (checked_idle P n h)

theorem exec_effect (n : Node) (m : Message) : n.Effect P m (n.exec P m) := by
  cases m with
  | prePrepare pp => exact execPrePrepareMessage_effect P n pp
  | prepare pre => exact execPrepareMessage_effect P n pre
  | commit c => exact execCommitMessage_effect P n c
  | checkpoint cp => exact execCheckpointMessage_effect P n cp
  | pbftTLC tlc => exact .pbftTLC tlc

/-- The request of a Tag call; its HR is always the node itself. -/
def tagRequest (n : Node) (call : TagCall) : PbftRequest := ⟨n.myAddr, call.name, call.mh⟩

/-- The PBFT state after the first part of the critical section: only the first pass of a
call is assigned a new ID, later passes use whatever the counter shows. -/
def tagAssigned (n : Node) (call : TagCall) : SafePbft :=
  if call.flag then n.pbft else n.pbft.assignPbftID n.totalPeers

theorem tagAssigned_logs (n : Node) (call : TagCall) :
    (n.tagAssigned call).logRequest = n.pbft.logRequest ∧
      (n.tagAssigned call).logPrePrepareMsg = n.pbft.logPrePrepareMsg := by
  unfold Node.tagAssigned
  split_ifs <;> exact ⟨rfl, rfl⟩

def tagPrePrepare (n : Node) (call : TagCall) : PrePrepareMessage where
  viewID := n.pbft.viewID
  requestMessage := n.tagRequest call
  digest := P.getDigest (n.tagRequest call)
  pbftID := (n.tagAssigned call).pbftID
  srcAddr := n.myAddr
  signature := P.signRSA (decodeString (P.getDigest (n.tagRequest call))) n.pbft.privateKeyRSA

def tagStored (n : Node) (call : TagCall) : Node :=
  { n with pbft := { n.tagAssigned call with
      logPrePrepareMsg := (n.tagAssigned call).logPrePrepareMsg.insert (n.tagAssigned call).pbftID
        (P.getDigest (n.tagRequest call))
      logRequest := (n.tagAssigned call).logRequest.insert (P.getDigest (n.tagRequest call))
        (n.tagRequest call) } }

/-- The Checkpoint that goes with every thousandth ID. -/
def tagCheckpoint (n : Node) (call : TagCall) : CheckpointMessage where
  digest := P.getDigest (n.tagRequest call)
  pbftID := (n.tagAssigned call).pbftID
  srcAddr := n.myAddr
  signature := P.signRSA (decodeString (P.getDigest (n.tagRequest call))) n.pbft.privateKeyRSA

def recordCheckpoint (n : Node) (cp : CheckpointMessage) : Node :=
  { n with pbft := { n.pbft with
      logCheckpointMsg := n.pbft.logCheckpointMsg.set₂ cp.pbftID n.pbft.addr cp.digest } }

def tagSection (n : Node) (call : TagCall) : Handled :=
  if call.flag = false ∧ (n.tagAssigned call).pbftID % checkpointInterval = 0 then
    { node := (n.tagStored P call).recordCheckpoint (n.tagCheckpoint P call)
      sent := [.prePrepare (n.tagPrePrepare P call), .checkpoint (n.tagCheckpoint P call)]
      signed := [decodeString (P.getDigest (n.tagRequest call))] }
  else
    { node := n.tagStored P call
      sent := [.prePrepare (n.tagPrePrepare P call)]
      signed := [decodeString (P.getDigest (n.tagRequest call))] }

theorem tagSection_tlcs (n : Node) (call : TagCall) :
    (n.tagSection P call).node.pbft.tlcs = n.pbft.tlcs ∧
      (n.tagSection P call).node.pbft.consensus = n.pbft.consensus := by
  have hassigned : (n.tagAssigned call).tlcs = n.pbft.tlcs ∧
      (n.tagAssigned call).consensus = n.pbft.consensus := by
    unfold tagAssigned
    split_ifs <;> exact ⟨rfl, rfl⟩
  unfold tagSection
  split_ifs <;> exact hassigned

/-- The test at the top of the loop: is the name bound to the metahash by now? -/
def tagDone (n : Node) (call : TagCall) : Prop :=
  (n.hrStorage.hrNaming.get n.myAddr call.name).getD [] = utf8 call.mh

instance (n : Node) (call : TagCall) : Decidable (n.tagDone call) :=
  inferInstanceAs (Decidable (_ = _))

end Node

/-- A node with its Tag calls, and what it has broadcast, signed and appended so far. -/
structure Peer where
  node : Node
  calls : List TagCall
  sent : List Message
  signed : List Bytes
  appended : List (ℕ × PbftchainBlock)

inductive PeerEvent
  | receive (m : Message)
  | tag (name mh : String)
  | verify (i : ℕ)
  | propose (i : ℕ)
  deriving DecidableEq, Repr

namespace Peer

def after (p : Peer) (r : Handled) : Peer :=
  { p with
    node := r.node
    sent := p.sent ++ r.sent
    signed := p.signed ++ r.signed
    appended := p.appended ++ r.appended }

/-- A Tag call up to its loop. A lone node binds the name without consensus. -/
def tag (p : Peer) (name mh : String) : Peer :=
  if p.node.totalPeers ≤ 1 then
    let naming := p.node.hrStorage.hrNaming.set p.node.myAddr name (utf8 mh)
    { p with node := { p.node with hrStorage := ⟨naming, p.node.hrStorage.hrBlockchain⟩ } }
  else if (p.node.hrStorage.hrNaming.get p.node.myAddr name).isSome then p
  else { p with calls := p.calls ++ [{ name := name, mh := mh }] }

theorem tag_pbft (p : Peer) (name mh : String) : (p.tag name mh).node.pbft = p.node.pbft := by
  unfold Peer.tag
  split_ifs <;> rfl

@[simp] theorem tag_sent (p : Peer) (name mh : String) : (p.tag name mh).sent = p.sent := by
  unfold Peer.tag
  split_ifs <;> rfl

@[simp] theorem tag_signed (p : Peer) (name mh : String) : (p.tag name mh).signed = p.signed := by
  unfold Peer.tag
  split_ifs <;> rfl

@[simp] theorem tag_appended (p : Peer) (name mh : String) :
    (p.tag name mh).appended = p.appended := by
  unfold Peer.tag
  split_ifs <;> rfl

def verify (p : Peer) (i : ℕ) (call : TagCall) : Peer :=
  let pc : TagPC := if p.node.tagDone call then .returned else .proposing
  { p with calls := p.calls.set i { call with pc := pc } }

def propose (p : Peer) (i : ℕ) (call : TagCall) : Peer :=
  { p with calls := p.calls.set i { call with flag := true, pc := .verifying } }.after
    (p.node.tagSection P call)

@[simp] theorem propose_appended (p : Peer) (i : ℕ) (call : TagCall) :
    (p.propose P i call).appended = p.appended := by
  change p.appended ++ (p.node.tagSection P call).appended = p.appended
  unfold Node.tagSection
  split_ifs <;> exact List.append_nil _

def step (p : Peer) : PeerEvent → Option Peer
  | .receive m => some (p.after (p.node.exec P m))
  | .tag name mh => some (p.tag name mh)
  | .verify i =>
    match p.calls[i]? with
    | some call => if call.pc = .verifying then some (p.verify i call) else none
    | none => none
  | .propose i =>
    match p.calls[i]? with
    | some call =>
      if call.pc = .proposing ∧ p.node.pbft.lock = false then some (p.propose P i call) else none
    | none => none

inductive Effect (p : Peer) : PeerEvent → Peer → Prop
  | receive (m : Message) {r : Handled} (effect : p.node.Effect P m r) :
      Effect p (.receive m) (p.after r)
  | tag (name mh : String) : Effect p (.tag name mh) (p.tag name mh)
  | verify {i : ℕ} {call : TagCall} (call_at : p.calls[i]? = some call)
      (pc : call.pc = .verifying) : Effect p (.verify i) (p.verify i call)
  | propose {i : ℕ} {call : TagCall} (call_at : p.calls[i]? = some call)
      (pc : call.pc = .proposing) (free : p.node.pbft.lock = false) :
      Effect p (.propose i) (p.propose P i call)

theorem step_effect {p q : Peer} {e : PeerEvent} (h : p.step P e = some q) : p.Effect P e q := by
  cases e with
  | receive m =>
    obtain rfl := Option.some.inj h
    exact .receive m (Node.exec_effect P p.node m)
  | tag name mh =>
    obtain rfl := Option.some.inj h
    exact .tag name mh
  | verify i =>
    simp only [step] at h
    split at h
    · rename_i call hcall
      split_ifs at h with hpc
      obtain rfl := Option.some.inj h
      exact .verify hcall hpc
    · cases h
  | propose i =>
    simp only [step] at h
    split at h
    · rename_i call hcall
      split_ifs at h with hpc
      obtain rfl := Option.some.inj h
      exact .propose hcall hpc.1 hpc.2
    · cases h

theorem Effect.histories {p q : Peer} {e : PeerEvent} (h : p.Effect P e q) :
    p.sent <+: q.sent ∧ p.signed <+: q.signed ∧ p.appended <+: q.appended := by
  cases h with
  | receive =>
    exact ⟨List.prefix_append _ _, List.prefix_append _ _, List.prefix_append _ _⟩
  | tag name mh =>
    rw [tag_sent, tag_signed, tag_appended]
    exact ⟨List.prefix_refl _, List.prefix_refl _, List.prefix_refl _⟩
  | verify => exact ⟨List.prefix_refl _, List.prefix_refl _, List.prefix_refl _⟩
  | propose =>
    exact ⟨List.prefix_append _ _, List.prefix_append _ _, List.prefix_append _ _⟩

end Peer

structure PeerConfig where
  myAddr : String
  paxosID : ℕ
  totalPeers : ℕ
  paxosThreshold : ℕ → ℕ := fun n => n / 2 + 1

def newPeer (conf : PeerConfig) : Peer where
  node :=
    { myAddr := conf.myAddr
      totalPeers := conf.totalPeers
      paxosThreshold := conf.paxosThreshold
      pbft := newSafePbft P conf.myAddr conf.paxosID
      hrStorage := ⟨∅, ∅⟩
      storage := ⟨∅, ∅⟩ }
  calls := []
  sent := []
  signed := []
  appended := []

structure Node.SameConfig (n m : Node) : Prop where
  myAddr : m.myAddr = n.myAddr
  totalPeers : m.totalPeers = n.totalPeers
  addr : m.pbft.addr = n.pbft.addr
  privateKeyRSA : m.pbft.privateKeyRSA = n.pbft.privateKeyRSA
  role : m.pbft.role = n.pbft.role

theorem Node.SameConfig.trans {n m l : Node} (h : n.SameConfig m) (g : m.SameConfig l) :
    n.SameConfig l where
  myAddr := g.myAddr.trans h.myAddr
  totalPeers := g.totalPeers.trans h.totalPeers
  addr := g.addr.trans h.addr
  privateKeyRSA := g.privateKeyRSA.trans h.privateKeyRSA
  role := g.role.trans h.role

theorem Node.Effect.sameConfig {n : Node} {m : Message} {r : Handled} (h : n.Effect P m r) :
    n.SameConfig r.node := by
  cases h with
  | idle same => rw [same.node]; constructor <;> rfl
  | pbftTLC tlc =>
    obtain ⟨hlogs, haddr, hpeers, _⟩ := Node.execPbftTLCMessage_frame P n tlc
    exact ⟨haddr, hpeers, hlogs.addr, hlogs.privateKeyRSA, hlogs.role⟩
  | conflict => constructor <;> rfl
  | prePrepare => constructor <;> rfl
  | prepare => constructor <;> rfl
  | prepared => constructor <;> rfl
  | commit => constructor <;> rfl
  | noPeers => constructor <;> rfl
  | committed => constructor <;> rfl
  | checkpoint => constructor <;> rfl

theorem Node.tagSection_sameConfig (n : Node) (call : TagCall) :
    n.SameConfig (n.tagSection P call).node := by
  have hassigned : n.SameConfig { n with pbft := n.tagAssigned call } := by
    unfold Node.tagAssigned
    split_ifs <;> constructor <;> rfl
  have hstored : n.SameConfig (n.tagStored P call) :=
    ⟨rfl, rfl, hassigned.addr, hassigned.privateKeyRSA, hassigned.role⟩
  unfold Node.tagSection
  split_ifs
  · exact ⟨rfl, rfl, hstored.addr, hstored.privateKeyRSA, hstored.role⟩
  · exact hstored

theorem Peer.Effect.sameConfig {p q : Peer} {e : PeerEvent} (h : p.Effect P e q) :
    p.node.SameConfig q.node := by
  cases h with
  | receive m effect => exact effect.sameConfig P
  | tag name mh => unfold Peer.tag; split_ifs <;> constructor <;> rfl
  | verify => constructor <;> rfl
  | propose => exact Node.tagSection_sameConfig P _ _

theorem sameConfig_of_run {ok : Peer → PeerEvent → Prop} {conf : PeerConfig}
    {es : List PeerEvent} {p : Peer} (h : Runs.Run (Peer.step P) ok (newPeer P conf) es p) :
    (newPeer P conf).node.SameConfig p.node :=
  h.invariant (I := fun p => (newPeer P conf).node.SameConfig p.node) (by constructor <;> rfl)
    fun hconf _ hstep => hconf.trans ((Peer.step_effect P hstep).sameConfig P)

end JobPortal
