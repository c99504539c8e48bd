import JobPortal.PbftTypes

/-! The Paxos node: proposer, acceptor and TLC state in one record, and the handlers of the
five messages. A handler is atomic. -/
namespace JobPortal

open Hex

structure PaxosValue where
  uniqID : String
  filename : String
  metahash : String
  deriving DecidableEq, Repr

def PaxosValue.zero : PaxosValue := ⟨"", "", ""⟩

structure PaxosPrepareMessage where
  step : ℕ
  id : ℕ
  source : String
  deriving DecidableEq, Repr

structure PaxosPromiseMessage where
  step : ℕ
  id : ℕ
  acceptedID : ℕ
  acceptedValue : Option PaxosValue
  deriving DecidableEq, Repr

structure PaxosProposeMessage where
  step : ℕ
  id : ℕ
  value : PaxosValue
  deriving DecidableEq, Repr

structure PaxosAcceptMessage where
  step : ℕ
  id : ℕ
  value : PaxosValue
  deriving DecidableEq, Repr

structure BlockchainBlock where
  index : ℕ
  hash : Bytes
  value : PaxosValue
  prevHash : Bytes
  deriving DecidableEq, Repr

structure TLCMessage where
  step : ℕ
  block : BlockchainBlock
  deriving DecidableEq, Repr

/-- A promise travels in a private message to the source of its Prepare. -/
inductive PaxosMessage
  | prepare (prepare : PaxosPrepareMessage)
  | promise (recipient : String) (promise : PaxosPromiseMessage)
  | propose (propose : PaxosProposeMessage)
  | accept (accept : PaxosAcceptMessage)
  | tlc (tlc : TLCMessage)
  deriving DecidableEq, Repr

structure SafePaxos where
  clock : ℕ
  maxID : ℕ
  acceptedValue : PaxosValue
  acceptedID : ℕ
  promises : List PaxosPromiseMessage
  accepts : GoMap PaxosValue ℕ
  tlcs : GoMap ℕ (List TLCMessage)
  consensus : GoMap ℕ PaxosValue
  preparedFlag : GoMap ℕ Bool
  proposedValue : PaxosValue
  acceptedMap : GoMap ℕ PaxosValue

def newSafePaxos : SafePaxos where
  clock := 0
  maxID := 0
  acceptedValue := .zero
  acceptedID := 0
  promises := []
  accepts := ∅
  tlcs := ∅
  consensus := ∅
  preparedFlag := ∅
  proposedValue := .zero
  acceptedMap := ∅

namespace SafePaxos

variable (s : SafePaxos)

/-- Before every round; the acceptor's part of the state goes with it. -/
def reset (val : PaxosValue) : SafePaxos :=
  { s with
    maxID := 0
    acceptedID := 0
    acceptedValue := .zero
    proposedValue := val
    promises := []
    accepts := ∅ }

def receivePrepare (prepare : PaxosPrepareMessage) : Option (PaxosValue × ℕ) × SafePaxos :=
  if prepare.step ≠ s.clock then (none, s)
  else if prepare.id ≤ s.maxID then (none, s)
  else (some (s.acceptedValue, s.acceptedID), { s with maxID := prepare.id })

def receivePropose (propose : PaxosProposeMessage) : Bool × SafePaxos :=
  if propose.step ≠ s.clock then (false, s)
  else if propose.id ≠ s.maxID then (false, s)
  else (true, { s with acceptedValue := propose.value, acceptedID := propose.id })

/-- The flag of the current step is never taken back, and no ID is looked at. -/
def receivePromise (promise : PaxosPromiseMessage) (threshold : ℕ) : SafePaxos :=
  if promise.step ≠ s.clock then s
  else
    let s := { s with promises := s.promises ++ [promise] }
    if s.preparedFlag.at s.clock false then s
    else if s.promises.length < threshold then s
    else { s with preparedFlag := s.preparedFlag.insert s.clock true }

/-- The value accepted in the current step, if there is one by now. Accepts are counted by value. -/
def receiveAccept (accept : PaxosAcceptMessage) (threshold : ℕ) : Option PaxosValue × SafePaxos :=
  if accept.step ≠ s.clock then (none, s)
  else
    match s.acceptedMap.lookup s.clock with
    | some val => (some val, s)
    | none =>
      let count := s.accepts.at accept.value 0 + 1
      let s := { s with accepts := s.accepts.insert accept.value count }
      if count < threshold then (none, s)
      else (some accept.value, { s with acceptedMap := s.acceptedMap.insert s.clock accept.value })

/-- The value of the promise with the highest accepted ID, or else the own one. -/
def pickValue (promises : List PaxosPromiseMessage) (own : PaxosValue) : ℕ × PaxosValue :=
  promises.foldl (fun best promise =>
    match promise.acceptedValue with
    | some val => if best.1 < promise.acceptedID then (promise.acceptedID, val) else best
    | none => best) (0, own)

def getPromiseValue (step : ℕ) : Option PaxosValue :=
  if s.preparedFlag.lookup step = none then none
  else if s.clock ≠ step then none
  else some (pickValue s.promises s.proposedValue).2

def checkAccept (step : ℕ) : Bool := (s.acceptedMap.lookup step).isSome

def receiveTLC (tlc : TLCMessage) (threshold : ℕ) : SafePaxos :=
  if s.clock ≤ tlc.step then
    let received := s.tlcs.at tlc.step [] ++ [tlc]
    let s := { s with tlcs := s.tlcs.insert tlc.step received }
    if threshold ≤ received.length then
      { s with consensus := s.consensus.insert tlc.step tlc.block.value }
    else s
  else s

/-- A step with consensus has received a TLC, so `head?` stands for the index 0 of the source. -/
def getBlockAndAdvance (step : ℕ) : Option (BlockchainBlock × SafePaxos) :=
  if step ≠ s.clock then none
  else if s.consensus.lookup step = none then none
  else (s.tlcs.at step []).head?.map fun tlc => (tlc.block,
    { s with
      clock := s.clock + 1
      maxID := 0
      acceptedID := 0
      acceptedValue := .zero
      proposedValue := .zero
      promises := []
      accepts := ∅ })

def getConsensus (step : ℕ) : Option PaxosValue := s.consensus.lookup step

def updateAcceptedMap (step : ℕ) (val : PaxosValue) : SafePaxos :=
  { s with acceptedMap := s.acceptedMap.insert step val }

def proposed : Bool := s.proposedValue ≠ .zero

end SafePaxos

/-- What the Paxos code takes from `crypto/sha256` and `encoding/json`. -/
structure PaxosPrimitives where
  sha256 : Bytes → Bytes
  marshalBlock : BlockchainBlock → Bytes

structure PaxosNode where
  myAddr : String
  paxosID : ℕ
  totalPeers : ℕ
  paxosThreshold : ℕ → ℕ
  paxos : SafePaxos
  storage : Storage

namespace PaxosNode

variable (P : PaxosPrimitives) (n : PaxosNode)

def threshold : ℕ := n.paxosThreshold n.totalPeers

def responsePrepare (prepare : PaxosPrepareMessage) (val : PaxosValue) (id : ℕ) : PaxosMessage :=
  .promise prepare.source
    { step := prepare.step, id := prepare.id, acceptedID := id,
      acceptedValue := if val = .zero then none else some val }

def execPaxosPrepareMessage (prepare : PaxosPrepareMessage) : PaxosNode × List PaxosMessage :=
  match n.paxos.receivePrepare prepare with
  | (none, s) => ({ n with paxos := s }, [])
  | (some (val, id), s) => ({ n with paxos := s }, [responsePrepare prepare val id])

def execPaxosProposeMessage (propose : PaxosProposeMessage) : PaxosNode × List PaxosMessage :=
  match n.paxos.receivePropose propose with
  | (false, s) => ({ n with paxos := s }, [])
  | (true, s) => ({ n with paxos := s }, [.accept ⟨propose.step, propose.id, propose.value⟩])

/-- A promise for somebody else is not executed. -/
def execPaxosPromiseMessage (recipient : String) (promise : PaxosPromiseMessage) :
    PaxosNode × List PaxosMessage :=
  if recipient = n.myAddr then ({ n with paxos := n.paxos.receivePromise promise n.threshold }, [])
  else (n, [])

def getBlock (consensus : PaxosValue) (step : ℕ) : BlockchainBlock :=
  let prevHash := (n.storage.blockchain.lookup lastBlockKey).getD zeroHash
  let hashBuf := utf8 (toString step) ++ utf8 consensus.uniqID ++ utf8 consensus.filename ++
    utf8 consensus.metahash ++ prevHash
  { index := step, value := consensus, prevHash := prevHash, hash := P.sha256 hashBuf }

def execPaxosAcceptMessage (accept : PaxosAcceptMessage) : PaxosNode × List PaxosMessage :=
  match n.paxos.receiveAccept accept n.threshold with
  | (none, s) => ({ n with paxos := s }, [])
  | (some val, s) =>
    let block := n.getBlock P val n.paxos.clock
    ({ n with paxos := s }, [.tlc ⟨block.index, block⟩])

def addBlock (block : BlockchainBlock) : PaxosNode :=
  { n with storage :=
    { blockchain := (n.storage.blockchain.insert (encodeToString block.hash)
          (P.marshalBlock block)).insert lastBlockKey block.hash
      naming := n.storage.naming.insert block.value.filename (utf8 block.value.metahash) } }

def tlcAdvance (step : ℕ) (catchUp : Bool) : Option (PaxosNode × List PaxosMessage) :=
  (n.paxos.getBlockAndAdvance step).map fun (block, s) =>
    let n := { n with paxos := s }.addBlock P block
    if catchUp || n.paxos.checkAccept step then (n, [])
    else ({ n with paxos := n.paxos.updateAcceptedMap step block.value }, [.tlc ⟨step, block⟩])

/-- The whole catch up. Every round uses up one step that has consensus. -/
def tlcProcess : ℕ → PaxosNode → ℕ → Bool → PaxosNode × List PaxosMessage
  | 0, n, _, _ => (n, [])
  | fuel + 1, n, step, catchUp =>
    match n.tlcAdvance P step catchUp with
    | none => (n, [])
    | some (m, sent) =>
      let r := tlcProcess fuel m (step + 1) true
      (r.1, sent ++ r.2)

def execTLCMessage (tlc : TLCMessage) : PaxosNode × List PaxosMessage :=
  let n := { n with paxos := n.paxos.receiveTLC tlc n.threshold }
  tlcProcess P (n.paxos.consensus.keys.card + 1) n n.paxos.clock false

def exec : PaxosMessage → PaxosNode × List PaxosMessage
  | .prepare m => n.execPaxosPrepareMessage m
  | .promise recipient m => n.execPaxosPromiseMessage recipient m
  | .propose m => n.execPaxosProposeMessage m
  | .accept m => n.execPaxosAcceptMessage P m
  | .tlc m => n.execTLCMessage P m

end PaxosNode

end JobPortal
