import JobPortal.PbftSample

/-! The certificate behind an appended block. The count of matching Commits is taken over
the pre-prepared digest, while the request is looked up under the digest of the Commit
that arrived last; the two agree exactly when that Commit carries the counted digest. -/
namespace JobPortal

open Runs

variable (P : Primitives)

/-- Requests are filed under their digests, and every pre-prepared digest has its request. -/
structure LogsSound (s : SafePbft) : Prop where
  digest : ∀ d r, s.logRequest.lookup d = some r → P.getDigest r = d
  request : ∀ k d, s.logPrePrepareMsg.lookup k = some d → ∃ r, s.logRequest.lookup d = some r

namespace LogsSound

variable {P} {s t : SafePbft}

theorem congr (h : LogsSound P s) (hreq : t.logRequest = s.logRequest)
    (hpp : t.logPrePrepareMsg = s.logPrePrepareMsg) : LogsSound P t where
  digest := by rw [hreq]; exact h.digest
  request := by rw [hreq, hpp]; exact h.request

theorem insert (h : LogsSound P s) {k : ℕ} {r : PbftRequest}
    (hreq : t.logRequest = s.logRequest.insert (P.getDigest r) r)
    (hpp : t.logPrePrepareMsg = s.logPrePrepareMsg.insert k (P.getDigest r)) :
    LogsSound P t where
  digest d r' hr := by
    rw [hreq] at hr
    by_cases hd : d = P.getDigest r
    · subst hd
      rw [Finmap.lookup_insert] at hr
      rw [Option.some.inj hr]
    · rw [Finmap.lookup_insert_of_ne _ hd] at hr
      exact h.digest d r' hr
  request l d hl := by
    rw [hreq]
    by_cases hd : d = P.getDigest r
    · exact ⟨r, by rw [hd, Finmap.lookup_insert]⟩
    · rw [Finmap.lookup_insert_of_ne _ hd]
      have hlk : l ≠ k := by
        rintro rfl
        rw [hpp, Finmap.lookup_insert] at hl
        exact hd (Option.some.inj hl).symm
      rw [hpp, Finmap.lookup_insert_of_ne _ hlk] at hl
      exact h.request l d hl

end LogsSound

theorem Node.Effect.logsSound {n : Node} {m : Message} {r : Handled} (h : n.Effect P m r)
    (hs : LogsSound P n.pbft) : LogsSound P r.node.pbft := by
  cases h with
  | idle same => rw [same.node]; exact hs
  | prePrepare admits digest fresh =>
    exact hs.insert (by rw [digest]; rfl) (by rw [digest]; rfl)
  | pbftTLC tlc =>
    obtain ⟨hlogs, _⟩ := Node.execPbftTLCMessage_frame P n tlc
    exact hs.congr hlogs.logRequest hlogs.logPrePrepareMsg
  | conflict => exact hs.congr rfl rfl
  | prepare => exact hs.congr rfl rfl
  | prepared => exact hs.congr rfl rfl
  | commit => exact hs.congr rfl rfl
  | noPeers => exact hs.congr rfl rfl
  | committed => exact hs.congr rfl rfl
  | checkpoint => exact hs.congr rfl rfl

theorem Node.tagSection_logsSound (n : Node) (call : TagCall) (hs : LogsSound P n.pbft) :
    LogsSound P (n.tagSection P call).node.pbft := by
  obtain ⟨hreq, hpp⟩ := n.tagAssigned_logs call
  have hstored : LogsSound P (n.tagStored P call).pbft :=
    hs.insert (by rw [← hreq]; rfl) (by rw [← hpp]; rfl)
  unfold Node.tagSection
  split_ifs
  · exact hstored.congr rfl rfl
  · exact hstored

theorem Peer.Effect.logsSound {p q : Peer} {e : PeerEvent} (h : p.Effect P e q)
    (hs : LogsSound P p.node.pbft) : LogsSound P q.node.pbft := by
  cases h with
  | receive m effect => exact effect.logsSound P hs
  | tag name mh => rw [Peer.tag_pbft]; exact hs
  | verify => exact hs
  | propose => exact p.node.tagSection_logsSound P _ hs

theorem newPeer_logsSound (conf : PeerConfig) : LogsSound P (newPeer P conf).node.pbft where
  digest d r h := by simp [newPeer, newSafePbft] at h
  request k d h := by simp [newPeer, newSafePbft] at h

/-- Every reachable state of a peer files its requests soundly. -/
theorem logsSound_of_run {conf : PeerConfig} {es : List PeerEvent} {p : Peer}
    (h : AnyRun (Peer.step P) (newPeer P conf) es p) : LogsSound P p.node.pbft :=
  h.invariant (newPeer_logsSound P conf) fun hs _ hstep => (Peer.step_effect P hstep).logsSound P hs

def SafePbft.committers (s : SafePbft) (pbftID : ℕ) (digest : String) : Finset String :=
  s.logCommitMsg.keys.filter fun addr => s.logCommitMsg.recorded addr pbftID = some digest

def Node.Appends (n : Node) (c : CommitMessage) (k : ℕ) (b : PbftchainBlock) : Prop :=
  (n.execCommitMessage P c).appended = [(k, b)]

instance (n : Node) (c : CommitMessage) (k : ℕ) (b : PbftchainBlock) :
    Decidable (n.Appends P c k b) := inferInstanceAs (Decidable (_ = _))

variable {P} in
theorem Node.Effect.appended {n : Node} {m : Message} {r : Handled} (h : n.Effect P m r) {k : ℕ}
    {b : PbftchainBlock} (hb : (k, b) ∈ r.appended) :
    ∃ c, m = .commit c ∧ n.Admits P c.srcAddr c.digest c.signature ∧
      (n.storeCommit c).Commits c.pbftID ∧ k = c.pbftID ∧ b = n.committedBlock P c ∧
      r.node = ((n.storeCommit c).enterCommitted c.pbftID).appendBlock P (n.committedBlock P c) := by
  cases h with
  | idle same => simp [same.appended] at hb
  | pbftTLC tlc => simp [(n.execPbftTLCMessage_frame P tlc).2.2.2.2.1] at hb
  | @committed c admits enough some =>
    obtain ⟨rfl, rfl⟩ := Prod.mk.inj (List.mem_singleton.mp hb)
    exact ⟨c, rfl, admits, enough, rfl, rfl, rfl⟩
  | conflict => simp at hb
  | prePrepare => simp at hb
  | prepare => simp at hb
  | prepared => simp at hb
  | commit => simp at hb
  | noPeers => simp at hb
  | checkpoint => simp at hb

variable {P} in
theorem Node.Appends.spec {n : Node} {c : CommitMessage} {k : ℕ} {b : PbftchainBlock}
    (h : n.Appends P c k b) :
    (n.storeCommit c).Commits c.pbftID ∧ k = c.pbftID ∧ b = n.committedBlock P c ∧
      (n.execCommitMessage P c).node =
        ((n.storeCommit c).enterCommitted c.pbftID).appendBlock P (n.committedBlock P c) := by
  have hb : (k, b) ∈ (n.execCommitMessage P c).appended := h ▸ List.mem_singleton_self _
  obtain ⟨c', hc, _, hspec⟩ := (Node.execCommitMessage_effect P n c).appended hb
  obtain rfl := Message.commit.inj hc
  exact hspec

/-- The commit certificate of a block: its request has the pre-prepared digest, and more
than two thirds of the peers have a recorded Commit for that digest. -/
def Certificate (n : Node) (k : ℕ) (b : PbftchainBlock) : Prop :=
  ∃ d, n.pbft.logPrePrepareMsg.lookup k = some d ∧ P.getDigest b.request = d ∧
    2 * (n.totalPeers / 3) + 1 ≤ (n.pbft.committers k d).card

/-- The counted half of the certificate always holds. -/
theorem committers_of_commits {n : Node} {k : ℕ} (hs : LogsSound P n.pbft) (h : n.Commits k) :
    ∃ d, n.pbft.logPrePrepareMsg.lookup k = some d ∧
      2 * (n.totalPeers / 3) + 1 ≤ (n.pbft.committers k d).card := by
  obtain ⟨hcount, _⟩ := h
  cases hd : n.pbft.logPrePrepareMsg.lookup k with
  | none =>
    rw [SafePbft.matching_eq_empty _ hd, Finset.card_empty] at hcount
    omega
  | some d =>
    obtain ⟨r, hr⟩ := hs.request k d hd
    have hne : d ≠ "" := hs.digest d r hr ▸ P.getDigest_ne_empty r
    refine ⟨d, rfl, ?_⟩
    have hsub : n.pbft.matching n.pbft.logCommitMsg k ⊆ n.pbft.committers k d := by
      intro a ha
      have hkey : a ∈ n.pbft.logCommitMsg.keys := (Finset.mem_filter.mp ha).1
      exact Finset.mem_filter.mpr ⟨hkey, (SafePbft.mem_matching _ hd hne).mp ha⟩
    have := Finset.card_le_card hsub
    omega

/-- In every reachable state, an appended block has its commit certificate exactly when the
Commit that triggers it carries the pre-prepared digest, or carries the digest of no known
request while the empty request was pre-prepared. -/
theorem certificate_iff {conf : PeerConfig} {es : List PeerEvent} {p : Peer}
    (hrun : AnyRun (Peer.step P) (newPeer P conf) es p) {c : CommitMessage} {k : ℕ}
    {b : PbftchainBlock} (happ : p.node.Appends P c k b) :
    Certificate P (p.node.execCommitMessage P c).node k b ↔
      p.node.pbft.logPrePrepareMsg.lookup k = some c.digest ∨
        p.node.pbft.logRequest.lookup c.digest = none ∧
          p.node.pbft.logPrePrepareMsg.lookup k = some (P.getDigest .zero) := by
  have hs := logsSound_of_run P hrun
  obtain ⟨henough, rfl, rfl, hnode⟩ := happ.spec
  have hstored : LogsSound P (p.node.storeCommit c).pbft := hs.congr rfl rfl
  obtain ⟨d, hd, hcount⟩ := committers_of_commits P hstored henough
  have hpp : p.node.pbft.logPrePrepareMsg.lookup c.pbftID = some d := hd
  have hrequest : (p.node.committedBlock P c).request
      = p.node.pbft.logRequest.at c.digest .zero := rfl
  -- everything in the certificate but the digest of the request is settled
  have hcert : Certificate P (p.node.execCommitMessage P c).node c.pbftID
      (p.node.committedBlock P c) ↔ P.getDigest (p.node.committedBlock P c).request = d := by
    rw [hnode]
    constructor
    · rintro ⟨d', hd', hdigest, _⟩
      rw [hdigest]
      exact Option.some.inj (hd'.symm.trans hpp)
    · intro hdigest
      exact ⟨d, hpp, hdigest, hcount⟩
  rw [hcert, hrequest, hpp]
  cases hreq : p.node.pbft.logRequest.lookup c.digest with
  | none =>
    have hne : d ≠ c.digest := by
      rintro rfl
      obtain ⟨r, hr⟩ := hs.request _ _ hpp
      simp [hreq] at hr
    simp [GoMap.at, hreq, hne, eq_comm]
  | some r =>
    simp [GoMap.at, hreq, hs.digest _ _ hreq, eq_comm]

namespace Sample

def request : PbftRequest := ⟨"B", "f", "m"⟩

def digest : String := primitives.getDigest request

def firstPrePrepare : List PeerEvent := [.receive (.prePrepare (prePrepareFrom "B" request 6))]

theorem firstPrePrepare_isSome :
    (exec (Peer.step primitives) (newPeer primitives (conf "A" 1)) firstPrePrepare).isSome := by
  decide

def bound : Peer :=
  (exec (Peer.step primitives) (newPeer primitives (conf "A" 1)) firstPrePrepare).get
    firstPrePrepare_isSome

def conflicting : Message := .prePrepare (prePrepareFrom "B" ⟨"B", "g", "m"⟩ 6)

/-- Two Commits overtake the Prepare that makes node A prepared. -/
def earlyCommits : List PeerEvent :=
  [.receive (.prePrepare (prePrepareFrom "B" request 6)),
    .receive (.commit (commitFrom "B" digest 6)), .receive (.commit (commitFrom "C" digest 6)),
    .receive (.prepare (prepareFrom "C" digest 6))]

theorem earlyCommits_isSome :
    (exec (Peer.step primitives) (newPeer primitives (conf "A" 1)) earlyCommits).isSome := by
  decide

def overtaken : Peer :=
  (exec (Peer.step primitives) (newPeer primitives (conf "A" 1)) earlyCommits).get
    earlyCommits_isSome

/-- A Commit of node D for a digest nobody pre-prepared. -/
def strayCommit : CommitMessage := commitFrom "D" (primitives.getDigest ⟨"B", "f", "x"⟩) 6

/-- The stray Commit makes node A append the empty request under the certificate of another. -/
theorem certificate_counterexample :
    AnyRun (Peer.step primitives) (newPeer primitives (conf "A" 1)) earlyCommits overtaken ∧
      overtaken.node.Appends primitives strayCommit 6
        (overtaken.node.committedBlock primitives strayCommit) ∧
      ¬ Certificate primitives (overtaken.node.execCommitMessage primitives strayCommit).node 6
        (overtaken.node.committedBlock primitives strayCommit) := by
  have happ : overtaken.node.Appends primitives strayCommit 6
      (overtaken.node.committedBlock primitives strayCommit) := by decide
  refine ⟨run_exec_get _, happ, ?_⟩
  rintro ⟨d, hd, hrequest, _⟩
  obtain ⟨_, _, _, hnode⟩ := happ.spec
  rw [hnode] at hd
  have hbound : overtaken.node.pbft.logPrePrepareMsg.lookup 6 = some digest := by decide
  have hd' : digest = d := Option.some.inj (hbound.symm.trans hd)
  have hzero : (overtaken.node.committedBlock primitives strayCommit).request = .zero := by
    decide
  rw [hzero, ← hd'] at hrequest
  revert hrequest
  decide

theorem certificate_iff_matching :
    Certificate primitives
      (overtaken.node.execCommitMessage primitives (commitFrom "D" digest 6)).node 6
      (overtaken.node.committedBlock primitives (commitFrom "D" digest 6)) :=
  (certificate_iff primitives (run_exec_get earlyCommits_isSome) (by decide)).mpr
    (.inl (by decide))

end Sample

end JobPortal
