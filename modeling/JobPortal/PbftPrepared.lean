import JobPortal.PbftCertificate
import JobPortal.Quorums

/-! What is behind a prepared ID. The Prepares are counted for the pre-prepared digest, the
proposer's own among them, while the Commit repeats the digest of the Prepare that came last. -/
namespace JobPortal

open Runs

variable (P : Primitives)

/-- A step that binds an ID to a digest, with the node whose PrePrepare it is: one that the peer
accepts, or its own. -/
def Peer.Binds (p : Peer) (a : String) (k : ℕ) (d : String) : PeerEvent → Prop
  | .receive (.prePrepare pp) => p.node.Admits P pp.srcAddr pp.digest pp.signature ∧
      P.getDigest pp.requestMessage = pp.digest ∧ ¬ p.node.Conflicts pp ∧
      pp.srcAddr = a ∧ pp.pbftID = k ∧ pp.digest = d
  | .propose i => ∃ call ∈ p.calls[i]?, p.node.myAddr = a ∧
      (p.node.tagAssigned call).pbftID = k ∧ P.getDigest (p.node.tagRequest call) = d
  | _ => False

/-- Some step on the way has bound the ID to the digest. -/
def SentPrePrepare (p : Peer) (es : List PeerEvent) (a : String) (k : ℕ) (d : String) : Prop :=
  ∃ es₁ e es₂ t, es = es₁ ++ e :: es₂ ∧ AnyRun (Peer.step P) p es₁ t ∧ t.Binds P a k d e

/-- The Commit a peer records with a prepared ID is for the pre-prepared digest, and enough nodes
are behind that digest. -/
def PreparedCertificate (start : Peer) (es : List PeerEvent) (n : Node) (k : ℕ) : Prop :=
  ∃ d, n.pbft.logPrePrepareMsg.lookup k = some d ∧
    n.pbft.logCommitMsg.recorded n.pbft.addr k = some d ∧
    ∃ Q : Finset String, 2 * (n.totalPeers / 3) + 1 ≤ Q.card ∧
      ∀ a ∈ Q, SentPrePrepare P start es a k d ∨ n.pbft.logPrepareMsg.recorded a k = some d

variable {P} in
theorem Node.Effect.commits {n : Node} {m : Message} {r : Handled} (h : n.Effect P m r)
    {c : CommitMessage} (hc : .commit c ∈ r.sent) :
    ∃ pre, m = .prepare pre ∧ (n.storePrepare pre).Prepares pre.pbftID ∧
      r.node = (n.storePrepare pre).enterPrepared pre := by
  cases h with
  | idle same => simp [same.sent] at hc
  | pbftTLC tlc =>
    obtain ⟨t, ht⟩ := (n.execPbftTLCMessage_frame P tlc).2.2.2.2.2 _ hc
    cases ht
  | @prepared pre admits enough => exact ⟨pre, rfl, enough, rfl⟩
  | conflict => simp at hc
  | prePrepare => simp at hc
  | prepare => simp at hc
  | commit => simp at hc
  | noPeers => simp at hc
  | committed => simp at hc
  | checkpoint => simp at hc

/-- The certificate is there exactly if the Prepare that comes last carries the pre-prepared digest,
and the matching Prepares are more than enough or leave out a sender of the PrePrepare. -/
theorem preparedCertificate_iff {start : Peer} {es : List PeerEvent} {n : Node}
    {pre : PrepareMessage} (hs : LogsSound P n.pbft)
    (henough : (n.storePrepare pre).Prepares pre.pbftID) :
    PreparedCertificate P start es ((n.storePrepare pre).enterPrepared pre) pre.pbftID ↔
      n.pbft.logPrePrepareMsg.lookup pre.pbftID = some pre.digest ∧
        let matching := n.pbft.matching (n.storePrepare pre).pbft.logPrepareMsg pre.pbftID
        (2 * (n.totalPeers / 3) < matching.card ∨
          ∃ a, SentPrePrepare P start es a pre.pbftID pre.digest ∧ a ∉ matching) := by
  have hown : ((n.storePrepare pre).enterPrepared pre).pbft.logCommitMsg.recorded
      ((n.storePrepare pre).enterPrepared pre).pbft.addr pre.pbftID = some pre.digest :=
    DigestLog.recorded_record_self _ _ _ _
  have hcount : 2 * (n.totalPeers / 3) ≤
      (n.pbft.matching (n.storePrepare pre).pbft.logPrepareMsg pre.pbftID).card := by
    rw [Nat.mul_comm]
    exact henough.1
  have hbackers (hd : n.pbft.logPrePrepareMsg.lookup pre.pbftID = some pre.digest) :
      (∃ Q : Finset String, 2 * (n.totalPeers / 3) + 1 ≤ Q.card ∧ ∀ a ∈ Q,
        SentPrePrepare P start es a pre.pbftID pre.digest ∨
          (n.storePrepare pre).pbft.logPrepareMsg.recorded a pre.pbftID = some pre.digest) ↔
      2 * (n.totalPeers / 3) <
          (n.pbft.matching (n.storePrepare pre).pbft.logPrepareMsg pre.pbftID).card ∨
        ∃ a, SentPrePrepare P start es a pre.pbftID pre.digest ∧
          a ∉ n.pbft.matching (n.storePrepare pre).pbft.logPrepareMsg pre.pbftID := by
    obtain ⟨r, hr⟩ := hs.request _ _ hd
    have hne : pre.digest ≠ "" := hs.digest _ r hr ▸ P.getDigest_ne_empty r
    rw [← Quorums.exists_backers_iff hcount]
    simp only [SafePbft.mem_matching _ hd hne]
  constructor
  · rintro ⟨d, hd, hcommit, hQ⟩
    obtain rfl : pre.digest = d := Option.some.inj (hown.symm.trans hcommit)
    exact ⟨hd, (hbackers hd).mp hQ⟩
  · rintro ⟨hd, hcases⟩
    exact ⟨pre.digest, hd, hown, (hbackers hd).mpr hcases⟩

/-- In every reachable state, an ID becomes prepared with its certificate exactly if the Prepare
that comes last carries the pre-prepared digest, and the matching Prepares are more than the
handler asks for or leave out a sender of the PrePrepare. -/
theorem prepared_certificate_iff {conf : PeerConfig} {es : List PeerEvent} {p : Peer}
    (hrun : AnyRun (Peer.step P) (newPeer P conf) es p) {pre : PrepareMessage} {c : CommitMessage}
    (hc : .commit c ∈ (p.node.execPrepareMessage P pre).sent) :
    PreparedCertificate P (newPeer P conf) es (p.node.execPrepareMessage P pre).node pre.pbftID ↔
      p.node.pbft.logPrePrepareMsg.lookup pre.pbftID = some pre.digest ∧
        let matching := p.node.pbft.matching (p.node.storePrepare pre).pbft.logPrepareMsg pre.pbftID
        (2 * (p.node.totalPeers / 3) < matching.card ∨
          ∃ a, SentPrePrepare P (newPeer P conf) es a pre.pbftID pre.digest ∧ a ∉ matching) := by
  obtain ⟨pre', heq, henough, hnode⟩ := (Node.execPrepareMessage_effect P p.node pre).commits hc
  obtain rfl := Message.prepare.inj heq
  rw [hnode]
  exact preparedCertificate_iff P (logsSound_of_run P hrun) henough

namespace Sample

def earlyPrepare : List PeerEvent :=
  [.receive (.prepare (prepareFrom "C" digest 6)),
    .receive (.prePrepare (prePrepareFrom "B" request 6))]

theorem earlyPrepare_isSome :
    (exec (Peer.step primitives) (newPeer primitives (conf "A" 1)) earlyPrepare).isSome := by
  decide

def preparing : Peer :=
  (exec (Peer.step primitives) (newPeer primitives (conf "A" 1)) earlyPrepare).get
    earlyPrepare_isSome

def strayPrepare : PrepareMessage :=
  prepareFrom "D" (primitives.getDigest ⟨"B", "f", "x"⟩) 6

def prePrepared : List PeerEvent := [.receive (.prePrepare (prePrepareFrom "B" request 6))]

theorem prePrepared_isSome :
    (exec (Peer.step primitives) (newPeer primitives (conf "A" 1)) prePrepared).isSome := by
  decide

def prePreparedPeer : Peer :=
  (exec (Peer.step primitives) (newPeer primitives (conf "A" 1)) prePrepared).get
    prePrepared_isSome

/-- A Prepare of the proposer itself counts, so that two nodes are behind the ID. -/
theorem proposer_prepare_uncertified : ¬ PreparedCertificate primitives
    (newPeer primitives (conf "A" 1)) prePrepared
    (prePreparedPeer.node.execPrepareMessage primitives (prepareFrom "B" digest 6)).node 6 := by
  rintro ⟨d, _, _, Q, hcard, hQ⟩
  have hkeys : ∀ a ∈ (prePreparedPeer.node.execPrepareMessage primitives
      (prepareFrom "B" digest 6)).node.pbft.logPrepareMsg.keys, a = "A" ∨ a = "B" := by
    decide
  have hsub : Q ⊆ {"A", "B"} := by
    intro a ha
    rw [Finset.mem_insert, Finset.mem_singleton]
    rcases hQ a ha with ⟨es₁, e, es₂, t, heq, _, hbinds⟩ | hrec
    · obtain ⟨_, rfl, _⟩ | ⟨_, hnil⟩ := List.singleton_eq_append_iff.mp heq
      · obtain ⟨_, _, _, rfl, _⟩ := hbinds
        exact .inr rfl
      · cases hnil
    · obtain ⟨m, hm, _⟩ := Option.bind_eq_some_iff.mp hrec
      exact hkeys a (Finmap.mem_keys.mpr (Finmap.mem_iff.mpr ⟨m, hm⟩))
  have hfew := Finset.card_le_card hsub
  have htwo : ({"A", "B"} : Finset String).card = 2 := by decide
  have hthree : 2 * ((prePreparedPeer.node.execPrepareMessage primitives
      (prepareFrom "B" digest 6)).node.totalPeers / 3) + 1 = 3 := by decide
  omega

/-- Node A commits to a digest that was not pre-prepared, or on the word of the proposer alone. -/
theorem prepared_counterexample :
    (AnyRun (Peer.step primitives) (newPeer primitives (conf "A" 1)) earlyPrepare preparing ∧
      (∃ c, .commit c ∈ (preparing.node.execPrepareMessage primitives strayPrepare).sent) ∧
      ¬ PreparedCertificate primitives (newPeer primitives (conf "A" 1)) earlyPrepare
        (preparing.node.execPrepareMessage primitives strayPrepare).node 6) ∧
    AnyRun (Peer.step primitives) (newPeer primitives (conf "A" 1)) prePrepared
        prePreparedPeer ∧
      (∃ c, .commit c ∈ (prePreparedPeer.node.execPrepareMessage primitives
        (prepareFrom "B" digest 6)).sent) ∧
      ¬ PreparedCertificate primitives (newPeer primitives (conf "A" 1)) prePrepared
        (prePreparedPeer.node.execPrepareMessage primitives (prepareFrom "B" digest 6)).node 6 := by
  refine ⟨⟨run_exec_get _, ?_, ?_⟩, run_exec_get _, ?_, proposer_prepare_uncertified⟩
  · exact ⟨(preparing.node.storePrepare strayPrepare).commitOf primitives strayPrepare,
      by decide⟩
  · rintro ⟨d, hd, hcommit, _⟩
    have hbound : (preparing.node.execPrepareMessage primitives
        strayPrepare).node.pbft.logPrePrepareMsg.lookup 6 = some digest := by decide
    have hown : (preparing.node.execPrepareMessage primitives
        strayPrepare).node.pbft.logCommitMsg.recorded (preparing.node.execPrepareMessage primitives
          strayPrepare).node.pbft.addr 6 = some strayPrepare.digest := by decide
    have heq : digest = strayPrepare.digest :=
      (Option.some.inj (hbound.symm.trans hd)).trans (Option.some.inj (hcommit.symm.trans hown))
    revert heq
    decide
  · exact ⟨(prePreparedPeer.node.storePrepare (prepareFrom "B" digest 6)).commitOf primitives
      (prepareFrom "B" digest 6), by decide⟩

theorem prepareOfC_commits :
    .commit ((prePreparedPeer.node.storePrepare (prepareFrom "C" digest 6)).commitOf primitives
      (prepareFrom "C" digest 6)) ∈
        (prePreparedPeer.node.execPrepareMessage primitives (prepareFrom "C" digest 6)).sent := by
  decide

theorem prepared_certificate_prepareOfC :
    PreparedCertificate primitives (newPeer primitives (conf "A" 1)) prePrepared
      (prePreparedPeer.node.execPrepareMessage primitives (prepareFrom "C" digest 6)).node 6 := by
  refine (prepared_certificate_iff primitives (run_exec_get prePrepared_isSome)
    prepareOfC_commits).mpr ⟨by decide, .inr ⟨"B", ?_, by decide⟩⟩
  refine ⟨[], _, [], _, rfl, .nil, ?_⟩
  exact ⟨by decide, by decide, by decide, rfl, rfl, rfl⟩

end Sample

end JobPortal
