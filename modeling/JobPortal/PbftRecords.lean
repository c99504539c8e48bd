import JobPortal.PbftNetwork

/-! Where the entries of the three logs come from: from a signed message of the node they are
filed under, or from the node itself. -/
namespace JobPortal

variable (P : Primitives)

inductive LogKind
  | prepare
  | commit
  | checkpoint
  deriving DecidableEq, Repr

def SafePbft.entry (s : SafePbft) : LogKind → String → ℕ → Option String
  | .prepare, a, k => s.logPrepareMsg.recorded a k
  | .commit, a, k => s.logCommitMsg.recorded a k
  | .checkpoint, a, k => s.logCheckpointMsg.get₂ k a

def Message.Logs : Message → LogKind → String → ℕ → String → Prop
  | .prepare pre, .prepare, a, k, d => pre.srcAddr = a ∧ pre.pbftID = k ∧ pre.digest = d
  | .commit c, .commit, a, k, d => c.srcAddr = a ∧ c.pbftID = k ∧ c.digest = d
  | .checkpoint cp, .checkpoint, a, k, d => cp.srcAddr = a ∧ cp.pbftID = k ∧ cp.digest = d
  | _, _, _, _, _ => False

theorem Message.Logs.names {m : Message} {kind : LogKind} {a d : String} {k : ℕ}
    (h : m.Logs kind a k d) : m.srcAddr = some a ∧ m.digest = some d := by
  cases m <;> cases kind <;> simp only [Message.Logs] at h <;>
    exact ⟨congrArg some h.1, congrArg some h.2.2⟩

theorem SafePbft.SameLogs.entry {s t : SafePbft} (h : s.SameLogs t) (kind : LogKind) (a : String)
    (k : ℕ) : t.entry kind a k = s.entry kind a k := by
  cases kind
  · simp only [SafePbft.entry, h.logPrepareMsg]
  · simp only [SafePbft.entry, h.logCommitMsg]
  · simp only [SafePbft.entry, h.logCheckpointMsg]

variable {P} {kind : LogKind} {a d : String} {k : ℕ}

theorem entry_record {s t : SafePbft} {log : LogKind} {addr digest : String} {pbftID : ℕ}
    (h : ∀ kind a k, t.entry kind a k =
      if kind = log ∧ a = addr ∧ k = pbftID then some digest else s.entry kind a k)
    (hrec : t.entry kind a k = some d) :
    s.entry kind a k = some d ∨ kind = log ∧ a = addr ∧ k = pbftID ∧ d = digest := by
  rw [h] at hrec
  split_ifs at hrec with hnew
  · exact .inr ⟨hnew.1, hnew.2.1, hnew.2.2, (Option.some.inj hrec).symm⟩
  · exact .inl hrec

theorem storePrePrepare_entry (n : Node) (pp : PrePrepareMessage) (kind : LogKind) (a : String)
    (k : ℕ) : (n.storePrePrepare pp).pbft.entry kind a k =
      if kind = .prepare ∧ a = n.pbft.addr ∧ k = pp.pbftID then some pp.digest
      else n.pbft.entry kind a k := by
  cases kind <;> simp [SafePbft.entry, Node.storePrePrepare, DigestLog.recorded_record]

theorem storePrepare_entry (n : Node) (pre : PrepareMessage) (kind : LogKind) (a : String)
    (k : ℕ) : (n.storePrepare pre).pbft.entry kind a k =
      if kind = .prepare ∧ a = pre.srcAddr ∧ k = pre.pbftID then some pre.digest
      else n.pbft.entry kind a k := by
  cases kind <;> simp [SafePbft.entry, Node.storePrepare, DigestLog.recorded_record]

theorem enterPrepared_entry (n : Node) (pre : PrepareMessage) (kind : LogKind) (a : String)
    (k : ℕ) : (n.enterPrepared pre).pbft.entry kind a k =
      if kind = .commit ∧ a = n.pbft.addr ∧ k = pre.pbftID then some pre.digest
      else n.pbft.entry kind a k := by
  cases kind <;>
    simp [SafePbft.entry, Node.enterPrepared, SafePbft.setState, DigestLog.recorded_record]

theorem storeCommit_entry (n : Node) (c : CommitMessage) (kind : LogKind) (a : String)
    (k : ℕ) : (n.storeCommit c).pbft.entry kind a k =
      if kind = .commit ∧ a = c.srcAddr ∧ k = c.pbftID then some c.digest
      else n.pbft.entry kind a k := by
  cases kind <;> simp [SafePbft.entry, Node.storeCommit, DigestLog.recorded_record]

theorem storeCheckpoint_entry (n : Node) (cp : CheckpointMessage) (kind : LogKind) (a : String)
    (k : ℕ) : (n.storeCheckpoint cp).pbft.entry kind a k =
      if kind = .checkpoint ∧ a = cp.srcAddr ∧ k = cp.pbftID then some cp.digest
      else n.pbft.entry kind a k := by
  cases kind <;> simp [SafePbft.entry, Node.storeCheckpoint, GoMap.get₂_set₂, and_comm]

/-- An own entry after a message: a Commit that is broadcast with it, unless it is in another
log. -/
def OwnEntry (n : Node) (r : Handled) (kind : LogKind) (a : String) (k : ℕ) (d : String) : Prop :=
  a = n.pbft.addr ∧ (kind = .commit → n.pbft.role = 0 →
    ∃ c, .commit c ∈ r.sent ∧ c.pbftID = k ∧ c.digest = d)

/-- What a message of another node says under a valid signature. -/
def SaidBy (P : Primitives) (n : Node) (m : Message) (kind : LogKind) (a : String) (k : ℕ)
    (d : String) : Prop :=
  m.Logs kind a k d ∧ a ≠ n.myAddr ∧ P.signed m = true ∧ n.pbft.lock = false

/-- An entry after a message was there before, or is the node's own, or is what the message says. -/
theorem Node.Effect.entry_origin {n : Node} {m : Message} {r : Handled} (h : n.Effect P m r)
    (kind : LogKind) (hrec : r.node.pbft.entry kind a k = some d) :
    n.pbft.entry kind a k = some d ∨ OwnEntry n r kind a k d ∨ SaidBy P n m kind a k d := by
  have stored_commit {c : CommitMessage} {r : Handled}
      (admits : n.Admits P c.srcAddr c.digest c.signature)
      (hrec : (n.storeCommit c).pbft.entry kind a k = some d) :
      n.pbft.entry kind a k = some d ∨ OwnEntry n r kind a k d ∨
        SaidBy P n (.commit c) kind a k d := by
    rcases entry_record (storeCommit_entry n c) hrec with hold | ⟨rfl, rfl, rfl, rfl⟩
    · exact .inl hold
    · exact .inr (.inr ⟨⟨rfl, rfl, rfl⟩, admits⟩)
  have stored_prepare {pre : PrepareMessage} {r : Handled}
      (admits : n.Admits P pre.srcAddr pre.digest pre.signature)
      (hrec : (n.storePrepare pre).pbft.entry kind a k = some d) :
      n.pbft.entry kind a k = some d ∨ OwnEntry n r kind a k d ∨
        SaidBy P n (.prepare pre) kind a k d := by
    rcases entry_record (storePrepare_entry n pre) hrec with hold | ⟨rfl, rfl, rfl, rfl⟩
    · exact .inl hold
    · exact .inr (.inr ⟨⟨rfl, rfl, rfl⟩, admits⟩)
  cases h with
  | idle same => rw [same.node] at hrec; exact .inl hrec
  | conflict => exact .inl hrec
  | pbftTLC tlc =>
    rw [(Node.execPbftTLCMessage_frame P n tlc).1.entry] at hrec
    exact .inl hrec
  | prePrepare =>
    rcases entry_record (storePrePrepare_entry n _) hrec with hold | ⟨rfl, rfl, _, _⟩
    · exact .inl hold
    · exact .inr (.inl ⟨rfl, by simp⟩)
  | prepare admits short => exact stored_prepare admits hrec
  | @prepared pre admits enough =>
    rcases entry_record (enterPrepared_entry (n.storePrepare _) _) hrec with
      hold | ⟨rfl, rfl, rfl, rfl⟩
    · exact stored_prepare admits hold
    · refine .inr (.inl ⟨rfl, fun _ hrole => ⟨(n.storePrepare pre).commitOf P pre, ?_, ?_, rfl⟩⟩)
      · exact List.mem_singleton_self _
      · have hrole' : (n.storePrepare pre).pbft.role ≠ 1 := by
          change n.pbft.role ≠ 1
          omega
        exact if_neg hrole'
  | commit admits short => exact stored_commit admits hrec
  | noPeers admits enough none => exact stored_commit admits hrec
  | committed admits enough some => exact stored_commit admits hrec
  | checkpoint admits =>
    rcases entry_record (storeCheckpoint_entry n _) hrec with hold | ⟨rfl, rfl, rfl, rfl⟩
    · exact .inl hold
    · exact .inr (.inr ⟨⟨rfl, rfl, rfl⟩, admits⟩)

theorem tagSection_entry (kind : LogKind) (n : Node) (call : TagCall)
    (hrec : (n.tagSection P call).node.pbft.entry kind a k = some d) :
    n.pbft.entry kind a k = some d ∨ kind = .checkpoint ∧ a = n.pbft.addr := by
  have hassigned : (n.tagAssigned call).entry kind a k = n.pbft.entry kind a k ∧
      (n.tagAssigned call).addr = n.pbft.addr := by
    unfold Node.tagAssigned
    split_ifs <;> cases kind <;> exact ⟨rfl, rfl⟩
  have hstored : (n.tagStored P call).pbft.entry kind a k = n.pbft.entry kind a k := by
    rw [← hassigned.1]
    cases kind <;> rfl
  unfold Node.tagSection at hrec
  split_ifs at hrec with hcheckpoint
  · cases kind with
    | prepare => exact .inl (hstored ▸ hrec)
    | commit => exact .inl (hstored ▸ hrec)
    | checkpoint =>
      simp only [SafePbft.entry, Node.recordCheckpoint, GoMap.get₂_set₂] at hrec
      split_ifs at hrec with hnew
      · exact .inr ⟨rfl, hnew.2.trans hassigned.2⟩
      · exact .inl (hstored ▸ hrec)
  · exact .inl (hstored ▸ hrec)

end JobPortal
