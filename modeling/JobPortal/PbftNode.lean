import JobPortal.PbftTypes

/-! The PBFT replica: its state, and what the handlers of the five registered messages make of it.
A handler is atomic here, and its broadcasts take no mutex. `lock` is true between two handlers only
if one of them returned without releasing it, and then every handler that needs it waits for
ever. -/
namespace JobPortal

open Hex

/-- The two-level logs: address, then PbftID, then digest. -/
abbrev DigestLog := GoMap String (GoMap ℕ String)

namespace DigestLog

def record (log : DigestLog) (addr : String) (pbftID : ℕ) (digest : String) : DigestLog :=
  GoMap.set₂ log addr pbftID digest

def recorded (log : DigestLog) (addr : String) (pbftID : ℕ) : Option String :=
  GoMap.get₂ log addr pbftID

theorem recorded_record (log : DigestLog) (a b : String) (k l : ℕ) (d : String) :
    (log.record a k d).recorded b l = if b = a ∧ l = k then some d else log.recorded b l :=
  GoMap.get₂_set₂ log a b k l d

@[simp] theorem recorded_record_self (log : DigestLog) (a : String) (k : ℕ) (d : String) :
    (log.record a k d).recorded a k = some d := by
  rw [recorded_record, if_pos ⟨rfl, rfl⟩]

theorem recorded_record_of_addr_ne (log : DigestLog) {a b : String} (h : b ≠ a) (k l : ℕ)
    (d : String) : (log.record a k d).recorded b l = log.recorded b l := by
  rw [recorded_record, if_neg fun hab => h hab.1]

end DigestLog

structure SafePbft where
  viewID : ℕ
  pbftID : ℕ
  state : GoMap ℕ ℕ
  addr : String
  lastCheckpoint : ℕ
  logRequest : GoMap String PbftRequest
  logPrePrepareMsg : GoMap ℕ String
  logPrepareMsg : DigestLog
  logCommitMsg : DigestLog
  logCheckpointMsg : GoMap ℕ (GoMap String String)
  tlcs : GoMap ℕ (List PbftTLCMessage)
  consensus : GoMap ℕ PbftRequest
  privateKeyRSA : Bytes
  role : ℕ
  lock : Bool

def newSafePbft (P : Primitives) (myAddr : String) (initID : ℕ) : SafePbft where
  viewID := 0
  pbftID := initID
  state := ∅
  addr := myAddr
  lastCheckpoint := 0
  logRequest := ∅
  logPrePrepareMsg := ∅
  logPrepareMsg := ∅
  logCommitMsg := ∅
  logCheckpointMsg := ∅
  tlcs := ∅
  consensus := ∅
  privateKeyRSA := P.getPrivateKey myAddr
  role := 0
  lock := false

namespace SafePbft

variable (s : SafePbft)

/-- The addresses whose entry for `pbftID` matches the pre-prepared digest. The loops of
the Prepare and Commit handlers count them; a missing entry reads as the empty text. -/
def matching (log : DigestLog) (pbftID : ℕ) : Finset String :=
  log.keys.filter fun addr =>
    s.logPrePrepareMsg.lookup pbftID = some ((log.at addr ∅).at pbftID "")

theorem mem_matching {log : DigestLog} {k : ℕ} {d a : String}
    (hd : s.logPrePrepareMsg.lookup k = some d) (hne : d ≠ "") :
    a ∈ s.matching log k ↔ log.recorded a k = some d := by
  simp only [matching, Finset.mem_filter, Finmap.mem_keys, Finmap.mem_iff, hd]
  constructor
  · rintro ⟨⟨m, hm⟩, hat⟩
    simp only [GoMap.at, hm, Option.getD_some, Option.some.injEq] at hat
    cases hl : m.lookup k with
    | none => simp [hl] at hat; exact absurd hat hne
    | some e => simp [hl] at hat; simp [DigestLog.recorded, GoMap.get₂, hm, hl, hat]
  · intro h
    obtain ⟨m, hm, hl⟩ := Option.bind_eq_some_iff.mp h
    exact ⟨⟨m, hm⟩, by simp [GoMap.at, hm, hl]⟩

theorem matching_eq_empty {log : DigestLog} {k : ℕ}
    (hd : s.logPrePrepareMsg.lookup k = none) : s.matching log k = ∅ := by
  simp [matching, hd]

def stateAt (pbftID : ℕ) : ℕ := s.state.at pbftID 0

def setState (pbftID phase : ℕ) : SafePbft := { s with state := s.state.insert pbftID phase }

@[simp] theorem stateAt_setState_self (k phase : ℕ) : (s.setState k phase).stateAt k = phase := by
  simp [stateAt, setState]

theorem stateAt_setState_of_ne {k l : ℕ} (h : l ≠ k) (phase : ℕ) :
    (s.setState k phase).stateAt l = s.stateAt l := GoMap.at_insert_of_ne h _ _ _

def assignPbftID (increase : ℕ) : SafePbft :=
  { s with pbftID := s.pbftID + increase }.setState (s.pbftID + increase) 0

end SafePbft

structure Node where
  myAddr : String
  totalPeers : ℕ
  paxosThreshold : ℕ → ℕ
  pbft : SafePbft
  hrStorage : HrStorage
  storage : Storage

/-- How a call ends. A panic is recovered by `ProcessPacket`; a blocked call never ends. -/
inductive Outcome
  | returned
  | failed (err : String)
  | panicked
  | blocked
  deriving DecidableEq, Repr

/-- What a call leaves behind: the node, its broadcasts, the data it signed, and the blocks
it appended with the PbftID each was appended for. -/
structure Handled where
  node : Node
  sent : List Message := []
  signed : List Bytes := []
  appended : List (ℕ × PbftchainBlock) := []
  outcome : Outcome := .returned

/-- Nothing but the outcome tells that the call was made. -/
structure Handled.Idle (n : Node) (r : Handled) : Prop where
  node : r.node = n
  sent : r.sent = []
  signed : r.signed = []
  appended : r.appended = []

variable (P : Primitives)

namespace Node

variable (n : Node)

/-- A signed message is let in if it comes from another node, verifies, and the lock is free. -/
def Admits (srcAddr digest : String) (signature : Bytes) : Prop :=
  srcAddr ≠ n.myAddr ∧ P.verifies srcAddr digest signature = true ∧ n.pbft.lock = false

instance (srcAddr digest : String) (signature : Bytes) :
    Decidable (n.Admits P srcAddr digest signature) :=
  inferInstanceAs (Decidable (_ ∧ _ ∧ _))

/-- The checks before the critical section of the Prepare, Commit and Checkpoint handlers. -/
def checked (srcAddr digest : String) (signature : Bytes) (body : Handled) : Handled :=
  if srcAddr = n.myAddr then { node := n }
  else if P.verifies srcAddr digest signature = false then { node := n, outcome := .panicked }
  else if n.pbft.lock then { node := n, outcome := .blocked }
  else body

theorem checked_of_admits {srcAddr digest : String} {signature : Bytes} {body : Handled}
    (h : n.Admits P srcAddr digest signature) :
    n.checked P srcAddr digest signature body = body := by
  simp [checked, h.1, h.2.1, h.2.2]

theorem checked_idle {srcAddr digest : String} {signature : Bytes} {body : Handled}
    (h : ¬ n.Admits P srcAddr digest signature) :
    Handled.Idle n (n.checked P srcAddr digest signature body) := by
  unfold checked
  split_ifs with h1 h2 h3
  · exact ⟨rfl, rfl, rfl, rfl⟩
  · exact ⟨rfl, rfl, rfl, rfl⟩
  · exact ⟨rfl, rfl, rfl, rfl⟩
  · exact absurd ⟨h1, by simpa using h2, by simpa using h3⟩ h

/-- A PrePrepare whose ID is already bound to another digest. -/
def Conflicts (pp : PrePrepareMessage) : Prop :=
  ∃ d, n.pbft.logPrePrepareMsg.lookup pp.pbftID = some d ∧ d ≠ pp.digest

instance (pp : PrePrepareMessage) : Decidable (n.Conflicts pp) :=
  decidable_of_iff (∃ d ∈ n.pbft.logPrePrepareMsg.lookup pp.pbftID, d ≠ pp.digest) <| by
    simp [Conflicts]

/-- The PBFT state with the lock left held. -/
def locked : Node := { n with pbft := { n.pbft with lock := true } }

/-- Record a PrePrepare and the node's own Prepare. -/
def storePrePrepare (pp : PrePrepareMessage) : Node :=
  { n with pbft := { n.pbft with
      logPrePrepareMsg := n.pbft.logPrePrepareMsg.insert pp.pbftID pp.digest
      logRequest := n.pbft.logRequest.insert pp.digest pp.requestMessage
      logPrepareMsg := n.pbft.logPrepareMsg.record n.pbft.addr pp.pbftID pp.digest } }

/-- The Prepare a node answers a PrePrepare with; a malicious node shifts the ID. -/
def prepareOf (pp : PrePrepareMessage) : PrepareMessage where
  viewID := pp.viewID
  digest := pp.digest
  pbftID := if n.pbft.role = 1 then pp.pbftID + 1 else pp.pbftID
  srcAddr := n.pbft.addr
  signature := P.signRSA (decodeString pp.digest) n.pbft.privateKeyRSA

def execPrePrepareMessage (pp : PrePrepareMessage) : Handled :=
  if pp.srcAddr = n.myAddr then { node := n }
  else if P.getDigest pp.requestMessage ≠ pp.digest then
    { node := n, outcome := .failed "digest fail" }
  else if P.verifies pp.srcAddr pp.digest pp.signature = false then
    { node := n, outcome := .panicked }
  else if n.pbft.lock then { node := n, outcome := .blocked }
  -- the early return of this branch skips the unlock
  else if n.Conflicts pp then { node := n.locked, outcome := .failed "correspondance fail" }
  else
    { node := n.storePrePrepare pp, sent := [.prepare (n.prepareOf P pp)]
      signed := [decodeString pp.digest] }

def storePrepare (pre : PrepareMessage) : Node :=
  { n with pbft := { n.pbft with
      logPrepareMsg := n.pbft.logPrepareMsg.record pre.srcAddr pre.pbftID pre.digest } }

/-- Enough matching Prepares, and the ID not yet prepared. -/
def Prepares (pbftID : ℕ) : Prop :=
  n.totalPeers / 3 * 2 ≤ (n.pbft.matching n.pbft.logPrepareMsg pbftID).card ∧
    n.pbft.stateAt pbftID = 0

instance (pbftID : ℕ) : Decidable (n.Prepares pbftID) := inferInstanceAs (Decidable (_ ∧ _))

/-- The Commit broadcast on a Prepare. It repeats the digest of that Prepare. -/
def commitOf (pre : PrepareMessage) : CommitMessage where
  viewID := pre.viewID
  digest := pre.digest
  pbftID := if n.pbft.role = 1 then pre.pbftID + 1 else pre.pbftID
  srcAddr := n.pbft.addr
  signature := P.signRSA (decodeString pre.digest) n.pbft.privateKeyRSA

/-- Move an ID to prepared and record the node's own Commit. -/
def enterPrepared (pre : PrepareMessage) : Node :=
  { n with pbft := { n.pbft.setState pre.pbftID 1 with
      logCommitMsg := n.pbft.logCommitMsg.record n.pbft.addr pre.pbftID pre.digest } }

def execPrepareMessage (pre : PrepareMessage) : Handled :=
  n.checked P pre.srcAddr pre.digest pre.signature <|
    let n := n.storePrepare pre
    if n.Prepares pre.pbftID then
      { node := n.enterPrepared pre, sent := [.commit (n.commitOf P pre)]
        signed := [decodeString pre.digest] }
    else { node := n }

def storeCommit (c : CommitMessage) : Node :=
  { n with pbft := { n.pbft with
      logCommitMsg := n.pbft.logCommitMsg.record c.srcAddr c.pbftID c.digest } }

/-- Enough matching Commits for a prepared ID. -/
def Commits (pbftID : ℕ) : Prop :=
  n.totalPeers / 3 * 2 < (n.pbft.matching n.pbft.logCommitMsg pbftID).card ∧
    n.pbft.state.lookup pbftID = some 1

instance (pbftID : ℕ) : Decidable (n.Commits pbftID) := inferInstanceAs (Decidable (_ ∧ _))

def getPbftBlock (request : PbftRequest) (index : ℕ) : PbftchainBlock :=
  let prevHash := (n.hrStorage.hrBlockchain.get request.idhr lastBlockKey).getD zeroHash
  let hashBuf := utf8 (toString index) ++ utf8 request.idhr ++ utf8 request.filename ++
    utf8 request.metahash ++ prevHash
  { index := index, hash := P.sha256 hashBuf, request := request, prevHash := prevHash }

def appendBlock (b : PbftchainBlock) : Node :=
  { n with hrStorage :=
    { hrBlockchain := (n.hrStorage.hrBlockchain.set b.request.idhr (encodeToString b.hash)
          (P.marshalBlock b)).set b.request.idhr lastBlockKey b.hash
      hrNaming := n.hrStorage.hrNaming.set b.request.idhr b.request.filename
          (utf8 b.request.metahash) } }

/-- The block a Commit appends: its request is looked up under the digest of that Commit. -/
def committedBlock (c : CommitMessage) : PbftchainBlock :=
  n.getPbftBlock P (n.pbft.logRequest.at c.digest .zero) (c.pbftID / n.totalPeers)

def enterCommitted (pbftID : ℕ) : Node := { n with pbft := n.pbft.setState pbftID 2 }

def execCommitMessage (c : CommitMessage) : Handled :=
  n.checked P c.srcAddr c.digest c.signature <|
    let n := n.storeCommit c
    if n.Commits c.pbftID then
      let n := n.enterCommitted c.pbftID
      -- the index is a division by the number of peers, inside the critical section
      if n.totalPeers = 0 then { node := n.locked, outcome := .panicked }
      else
        let pbftBlock := n.committedBlock P c
        { node := n.appendBlock P pbftBlock, appended := [(c.pbftID, pbftBlock)] }
    else { node := n }

/-- Record a Checkpoint and move `lastCheckpoint` once enough are there, whatever their digests. -/
def storeCheckpoint (cp : CheckpointMessage) : Node :=
  let log := n.pbft.logCheckpointMsg.set₂ cp.pbftID cp.srcAddr cp.digest
  { n with pbft := { n.pbft with
      logCheckpointMsg := log
      lastCheckpoint :=
        if n.totalPeers / 3 * 2 + 1 ≤ (log.at cp.pbftID ∅).keys.card then cp.pbftID
        else n.pbft.lastCheckpoint } }

def execCheckpointMessage (cp : CheckpointMessage) : Handled :=
  n.checked P cp.srcAddr cp.digest cp.signature { node := n.storeCheckpoint cp }

end Node

end JobPortal
