import JobPortal.PbftNode

/-! The leftover TLC path of the PBFT node. It moves the PbftID counter and writes the
stores that are not per HR; it touches none of the PBFT logs. -/
namespace JobPortal

open Hex

namespace SafePbft

def receivePbftTLC (s : SafePbft) (tlc : PbftTLCMessage) (threshold : ℕ) : SafePbft :=
  if s.pbftID ≤ tlc.step then
    let received := s.tlcs.at tlc.step [] ++ [tlc]
    let s := { s with tlcs := s.tlcs.insert tlc.step received }
    if threshold ≤ received.length ∧ s.consensus.lookup tlc.step = none then
      { s with consensus := s.consensus.insert tlc.step tlc.block.request }
    else s
  else s

/-- The block to add at `step`, and the state with the counter moved on. A step with
consensus has received a TLC, so `head?` stands for the index 0 of the source. -/
def getPbftBlockAndAdvance (s : SafePbft) (step : ℕ) : Option (PbftchainBlock × SafePbft) :=
  if step = s.pbftID ∧ (s.consensus.lookup step).isSome then
    (s.tlcs.at step []).head?.map fun tlc => (tlc.block, { s with pbftID := s.pbftID + 1 })
  else none

structure SameLogs (s t : SafePbft) : Prop where
  viewID : t.viewID = s.viewID
  lastCheckpoint : t.lastCheckpoint = s.lastCheckpoint
  state : t.state = s.state
  addr : t.addr = s.addr
  logRequest : t.logRequest = s.logRequest
  logPrePrepareMsg : t.logPrePrepareMsg = s.logPrePrepareMsg
  logPrepareMsg : t.logPrepareMsg = s.logPrepareMsg
  logCommitMsg : t.logCommitMsg = s.logCommitMsg
  logCheckpointMsg : t.logCheckpointMsg = s.logCheckpointMsg
  privateKeyRSA : t.privateKeyRSA = s.privateKeyRSA
  role : t.role = s.role
  lock : t.lock = s.lock

theorem SameLogs.refl (s : SafePbft) : SameLogs s s := by constructor <;> rfl

theorem SameLogs.trans {s t u : SafePbft} (h : SameLogs s t) (g : SameLogs t u) :
    SameLogs s u where
  viewID := g.viewID.trans h.viewID
  lastCheckpoint := g.lastCheckpoint.trans h.lastCheckpoint
  state := g.state.trans h.state
  addr := g.addr.trans h.addr
  logRequest := g.logRequest.trans h.logRequest
  logPrePrepareMsg := g.logPrePrepareMsg.trans h.logPrePrepareMsg
  logPrepareMsg := g.logPrepareMsg.trans h.logPrepareMsg
  logCommitMsg := g.logCommitMsg.trans h.logCommitMsg
  logCheckpointMsg := g.logCheckpointMsg.trans h.logCheckpointMsg
  privateKeyRSA := g.privateKeyRSA.trans h.privateKeyRSA
  role := g.role.trans h.role
  lock := g.lock.trans h.lock

theorem receivePbftTLC_sameLogs (s : SafePbft) (tlc : PbftTLCMessage) (threshold : ℕ) :
    SameLogs s (s.receivePbftTLC tlc threshold) := by
  unfold receivePbftTLC
  split_ifs with hstep
  · dsimp only
    split_ifs <;> constructor <;> rfl
  · exact .refl s

theorem getPbftBlockAndAdvance_eq_some {s t : SafePbft} {step : ℕ} {b : PbftchainBlock}
    (h : s.getPbftBlockAndAdvance step = some (b, t)) :
    step = s.pbftID ∧ (s.consensus.lookup step).isSome ∧ t = { s with pbftID := s.pbftID + 1 } := by
  unfold getPbftBlockAndAdvance at h
  split_ifs at h with hstep
  obtain ⟨tlc, _, htlc⟩ := Option.map_eq_some_iff.mp h
  exact ⟨hstep.1, hstep.2, (congrArg Prod.snd htlc).symm⟩

theorem getPbftBlockAndAdvance_sameLogs {s t : SafePbft} {step : ℕ} {b : PbftchainBlock}
    (h : s.getPbftBlockAndAdvance step = some (b, t)) : SameLogs s t := by
  obtain ⟨_, _, rfl⟩ := getPbftBlockAndAdvance_eq_some h
  constructor <;> rfl

@[simp] theorem receivePbftTLC_pbftID (s : SafePbft) (tlc : PbftTLCMessage) (threshold : ℕ) :
    (s.receivePbftTLC tlc threshold).pbftID = s.pbftID := by
  unfold receivePbftTLC
  split_ifs
  · dsimp only
    split_ifs <;> rfl
  · rfl

/-- A step with consensus has a TLC message to take the block from. -/
def TlcsSound (s : SafePbft) : Prop :=
  ∀ step, (s.consensus.lookup step).isSome → s.tlcs.at step [] ≠ []

theorem TlcsSound.congr {s t : SafePbft} (h : s.TlcsSound) (htlcs : t.tlcs = s.tlcs)
    (hcons : t.consensus = s.consensus) : t.TlcsSound := by
  rw [TlcsSound, htlcs, hcons]
  exact h

theorem TlcsSound.receive {s : SafePbft} (h : s.TlcsSound) (tlc : PbftTLCMessage) (threshold : ℕ) :
    (s.receivePbftTLC tlc threshold).TlcsSound := by
  -- the entry of a step that gets another message is not empty, whatever it was
  have hat (step : ℕ) (hne : (s.consensus.lookup step).isSome ∨ step = tlc.step) :
      GoMap.at (s.tlcs.insert tlc.step (s.tlcs.at tlc.step [] ++ [tlc])) step [] ≠ [] := by
    by_cases hstep : step = tlc.step
    · rw [hstep, GoMap.at_insert_self]
      simp
    · rw [GoMap.at_insert_of_ne hstep]
      exact h step (hne.resolve_right hstep)
  unfold receivePbftTLC
  split_ifs
  · dsimp only
    split_ifs
    · intro step hstep
      apply hat step
      by_cases heq : step = tlc.step
      · exact .inr heq
      · rw [Finmap.lookup_insert_of_ne _ heq] at hstep
        exact .inl hstep
    · exact fun step hstep => hat step (.inl hstep)
  · exact h

theorem TlcsSound.getPbftBlockAndAdvance_eq_none {s : SafePbft} (h : s.TlcsSound) {step : ℕ} :
    s.getPbftBlockAndAdvance step = none ↔
      ¬ (step = s.pbftID ∧ (s.consensus.lookup step).isSome) := by
  unfold getPbftBlockAndAdvance
  split_ifs with hstep
  · rw [Option.map_eq_none_iff, List.head?_eq_none_iff]
    exact iff_of_false (h step hstep.2) (not_not_intro hstep)
  · exact iff_of_true rfl hstep

end SafePbft

variable (P : Primitives)

namespace Node

def addTLCBlock (n : Node) (b : PbftchainBlock) : Node :=
  { n with storage :=
    { blockchain := (n.storage.blockchain.insert (encodeToString b.hash)
          (P.marshalBlock b)).insert lastBlockKey b.hash
      naming := n.storage.naming.insert b.request.filename (utf8 b.request.metahash) } }

def received (n : Node) (tlc : PbftTLCMessage) : SafePbft :=
  n.pbft.receivePbftTLC tlc (n.paxosThreshold n.totalPeers)

/-- TLC catch up. Every round uses up one step that has consensus. -/
def pbftTLCProcess : ℕ → Node → ℕ → Bool → Node × List Message
  | 0, n, _, _ => (n, [])
  | fuel + 1, n, step, catchUp =>
    match n.pbft.getPbftBlockAndAdvance step with
    | none => (n, [])
    | some (block, pbft) =>
      let n := { n with pbft := pbft }.addTLCBlock P block
      let r := pbftTLCProcess fuel n (step + 1) true
      (r.1, (if catchUp then [] else [.pbftTLC ⟨step, block⟩]) ++ r.2)

def execPbftTLCMessage (n : Node) (tlc : PbftTLCMessage) : Handled :=
  if n.pbft.lock then { node := n, outcome := .blocked }
  else
    let n := { n with pbft := n.pbft.receivePbftTLC tlc (n.paxosThreshold n.totalPeers) }
    let r := pbftTLCProcess P (n.pbft.consensus.keys.card + 1) n n.pbft.pbftID false
    { node := r.1, sent := r.2 }

/-- The fuel is enough: when the loop stops there is nothing left to advance over. -/
theorem pbftTLCProcess_settled (fuel : ℕ) (n : Node) (catchUp : Bool)
    (hfuel : (n.pbft.consensus.keys.filter (n.pbft.pbftID ≤ ·)).card < fuel) :
    let r := (pbftTLCProcess P fuel n n.pbft.pbftID catchUp).1
    r.pbft.getPbftBlockAndAdvance r.pbft.pbftID = none := by
  induction fuel generalizing n catchUp with
  | zero => omega
  | succ fuel ih =>
    unfold pbftTLCProcess
    cases hadv : n.pbft.getPbftBlockAndAdvance n.pbft.pbftID with
    | none => simpa using hadv
    | some bt =>
      obtain ⟨b, t⟩ := bt
      obtain ⟨_, hcons, rfl⟩ := SafePbft.getPbftBlockAndAdvance_eq_some hadv
      obtain ⟨r, hr⟩ := Option.isSome_iff_exists.mp hcons
      refine ih (addTLCBlock P { n with pbft := _ } b) true
        (lt_of_lt_of_le ?_ (Nat.lt_succ_iff.mp hfuel))
      -- the step just passed is a key that no longer counts
      refine Finset.card_lt_card ((Finset.ssubset_iff_of_subset ?_).mpr ⟨n.pbft.pbftID, ?_, ?_⟩)
      · intro k hk
        obtain ⟨hkey, hle⟩ := Finset.mem_filter.mp hk
        exact Finset.mem_filter.mpr ⟨hkey, Nat.le_of_succ_le hle⟩
      · exact Finset.mem_filter.mpr ⟨Finmap.mem_keys.mpr (Finmap.mem_iff.mpr ⟨r, hr⟩), le_rfl⟩
      · intro hk
        exact Nat.not_succ_le_self _ (Finset.mem_filter.mp hk).2

/-- A TLC message is worked off: the next step is left waiting for its consensus. -/
theorem execPbftTLCMessage_settled (n : Node) (tlc : PbftTLCMessage)
    (hfree : n.pbft.lock = false) :
    let m := (n.execPbftTLCMessage P tlc).node
    m.pbft.getPbftBlockAndAdvance m.pbft.pbftID = none := by
  rw [execPbftTLCMessage, hfree]
  apply pbftTLCProcess_settled
  exact Nat.lt_succ_of_le (Finset.card_le_card (Finset.filter_subset _ _))

theorem pbftTLCProcess_frame (fuel : ℕ) (n : Node) (step : ℕ) (catchUp : Bool) :
    let r := (pbftTLCProcess P fuel n step catchUp).1
    SafePbft.SameLogs n.pbft r.pbft ∧ r.myAddr = n.myAddr ∧ r.totalPeers = n.totalPeers ∧
      r.hrStorage = n.hrStorage := by
  induction fuel generalizing n step catchUp with
  | zero => exact ⟨.refl _, rfl, rfl, rfl⟩
  | succ fuel ih =>
    unfold pbftTLCProcess
    cases hadv : n.pbft.getPbftBlockAndAdvance step with
    | none => exact ⟨.refl _, rfl, rfl, rfl⟩
    | some bt =>
      obtain ⟨b, t⟩ := bt
      obtain ⟨hlogs, haddr, hpeers, hstore⟩ :=
        ih (addTLCBlock P { n with pbft := t } b) (step + 1) true
      exact ⟨(SafePbft.getPbftBlockAndAdvance_sameLogs hadv).trans hlogs, haddr, hpeers, hstore⟩

theorem pbftTLCProcess_sent (fuel : ℕ) (n : Node) (step : ℕ) (catchUp : Bool) :
    ∀ m ∈ (pbftTLCProcess P fuel n step catchUp).2, ∃ tlc, m = .pbftTLC tlc := by
  induction fuel generalizing n step catchUp with
  | zero => simp [pbftTLCProcess]
  | succ fuel ih =>
    unfold pbftTLCProcess
    cases hadv : n.pbft.getPbftBlockAndAdvance step with
    | none => simp
    | some bt =>
      intro m hm
      rcases List.mem_append.mp hm with hm | hm
      · cases catchUp with
        | true => simp at hm
        | false => exact ⟨_, by simpa using hm⟩
      · exact ih _ _ _ m hm

theorem execPbftTLCMessage_frame (n : Node) (tlc : PbftTLCMessage) :
    let r := n.execPbftTLCMessage P tlc
    SafePbft.SameLogs n.pbft r.node.pbft ∧ r.node.myAddr = n.myAddr ∧
      r.node.totalPeers = n.totalPeers ∧ r.node.hrStorage = n.hrStorage ∧
      r.appended = [] ∧ ∀ m ∈ r.sent, ∃ t, m = .pbftTLC t := by
  unfold execPbftTLCMessage
  split_ifs with hlock
  · exact ⟨.refl _, rfl, rfl, rfl, rfl, by simp⟩
  · let n' := { n with pbft := n.pbft.receivePbftTLC tlc (n.paxosThreshold n.totalPeers) }
    obtain ⟨hlogs, haddr, hpeers, hstore⟩ := pbftTLCProcess_frame P
      (n'.pbft.consensus.keys.card + 1) n' n'.pbft.pbftID false
    exact ⟨(SafePbft.receivePbftTLC_sameLogs _ _ _).trans hlogs, haddr, hpeers, hstore, rfl,
      pbftTLCProcess_sent P _ _ _ _⟩

end Node

end JobPortal
