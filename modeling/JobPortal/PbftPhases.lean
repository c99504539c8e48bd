import JobPortal.PbftAgreement

/-! The phase of an ID: fresh, prepared, committed. The handlers only move it forward, and append a
block as they do; Tag takes the ID it assigns back to fresh, whatever others have made of it. -/
namespace JobPortal

open Runs

variable {P : Primitives}

def PhasesLe (p q : Peer) : Prop := ∀ k, p.node.pbft.stateAt k ≤ q.node.pbft.stateAt k

/-- A handler moves an ID forward, and appends a block only with the move to the last phase. -/
theorem Node.Effect.phases {n : Node} {m : Message} {r : Handled} (h : n.Effect P m r) :
    (∀ k, n.pbft.stateAt k ≤ r.node.pbft.stateAt k) ∧
      (r.appended = [] ∨ ∃ k b, r.appended = [(k, b)] ∧ n.pbft.stateAt k = 1 ∧
        r.node.pbft.stateAt k = 2) := by
  have moved {s : SafePbft} {k phase : ℕ} (hs : ∀ l, s.stateAt l =
      if l = k then phase else n.pbft.stateAt l) (hle : n.pbft.stateAt k ≤ phase) (l : ℕ) :
      n.pbft.stateAt l ≤ s.stateAt l := by
    rw [hs]
    split_ifs with hl
    · rwa [hl]
    · exact le_rfl
  have one {k : ℕ} (hone : n.pbft.state.lookup k = some 1) : n.pbft.stateAt k = 1 := by
    rw [SafePbft.stateAt, GoMap.at, hone, Option.getD_some]
  cases h with
  | idle same => rw [same.node, same.appended]; exact ⟨fun _ => le_rfl, .inl rfl⟩
  | pbftTLC tlc =>
    obtain ⟨hlogs, _, _, _, hnone, _⟩ := n.execPbftTLCMessage_frame P tlc
    refine ⟨fun k => ?_, .inl hnone⟩
    rw [SafePbft.stateAt, SafePbft.stateAt, hlogs.state]
  | conflict => exact ⟨fun _ => le_rfl, .inl rfl⟩
  | prePrepare => exact ⟨fun _ => le_rfl, .inl rfl⟩
  | prepare => exact ⟨fun _ => le_rfl, .inl rfl⟩
  | commit => exact ⟨fun _ => le_rfl, .inl rfl⟩
  | checkpoint => exact ⟨fun _ => le_rfl, .inl rfl⟩
  | @prepared pre admits enough =>
    have hzero : n.pbft.stateAt pre.pbftID = 0 := enough.2
    exact ⟨moved (fun l => SafePbft.stateAt_setState n.pbft pre.pbftID l 1) (by omega), .inl rfl⟩
  | @noPeers c admits enough none =>
    have hone := one (k := c.pbftID) enough.2
    exact ⟨moved (fun l => SafePbft.stateAt_setState n.pbft c.pbftID l 2) (by omega), .inl rfl⟩
  | @committed c admits enough some =>
    have hone := one (k := c.pbftID) enough.2
    refine ⟨moved (fun l => SafePbft.stateAt_setState n.pbft c.pbftID l 2) (by omega), .inr ?_⟩
    exact ⟨c.pbftID, _, rfl, hone, SafePbft.stateAt_setState_self _ _ _⟩

/-- A step takes an ID back exactly if it assigns one that is in use. -/
theorem Peer.Effect.phasesLe_iff {p q : Peer} {e : PeerEvent} (h : p.Effect P e q) :
    PhasesLe p q ↔ p.AssignsFresh e := by
  cases h with
  | receive m effect => exact ⟨fun _ => trivial, fun _ => effect.phases.1⟩
  | tag name mh =>
    refine ⟨fun _ => trivial, fun _ k => ?_⟩
    rw [Peer.tag_pbft]
  | verify => exact ⟨fun _ => trivial, fun _ _ => le_rfl⟩
  | @propose i call call_at pc free =>
    have hstate (k : ℕ) : (p.propose P i call).node.pbft.stateAt k =
        if call.flag = false ∧ k = p.node.pbft.pbftID + p.node.totalPeers then 0
        else p.node.pbft.stateAt k := tagSection_state p.node call k
    constructor
    · intro hle call' hcall' hflag
      obtain rfl := Option.some.inj (call_at.symm.trans hcall')
      have hback := hle (p.node.pbft.pbftID + p.node.totalPeers)
      rw [hstate, if_pos ⟨hflag, rfl⟩] at hback
      exact Nat.le_zero.mp hback
    · intro hfresh k
      rw [hstate]
      split_ifs with hassigned
      · rw [hassigned.2, hfresh call call_at hassigned.1]
      · exact le_rfl

structure Peer.AppendsOnce (p : Peer) : Prop where
  once : (p.appended.map Prod.fst).Nodup
  last : ∀ k ∈ p.appended.map Prod.fst, 2 ≤ p.node.pbft.stateAt k

theorem Peer.AppendsOnce.append {p q : Peer} (hp : p.AppendsOnce) (hle : PhasesLe p q)
    {app : List (ℕ × PbftchainBlock)} (happ : q.appended = p.appended ++ app)
    (hnew : app = [] ∨ ∃ k b, app = [(k, b)] ∧ p.node.pbft.stateAt k = 1 ∧
      q.node.pbft.stateAt k = 2) : q.AppendsOnce := by
  have hlast : ∀ k ∈ p.appended.map Prod.fst, 2 ≤ q.node.pbft.stateAt k :=
    fun k hk => (hp.last k hk).trans (hle k)
  rcases hnew with rfl | ⟨k, b, rfl, hone, htwo⟩
  · rw [List.append_nil] at happ
    exact ⟨happ ▸ hp.once, happ ▸ hlast⟩
  · have hids : q.appended.map Prod.fst = p.appended.map Prod.fst ++ [k] := by
      rw [happ, List.map_append, List.map_singleton]
    constructor
    · rw [hids, List.nodup_append_comm, List.singleton_append, List.nodup_cons]
      refine ⟨fun hk => ?_, hp.once⟩
      have := hp.last k hk
      omega
    · intro l hl
      rw [hids] at hl
      rcases List.mem_append.mp hl with hold | hl
      · exact hlast l hold
      · obtain rfl := List.mem_singleton.mp hl
        exact htwo.ge

theorem Peer.Effect.appendsOnce {p q : Peer} {e : PeerEvent} (h : p.Effect P e q)
    (hfresh : p.AssignsFresh e) (hp : p.AppendsOnce) : q.AppendsOnce := by
  have hle := h.phasesLe_iff.mpr hfresh
  cases h with
  | receive m effect => exact hp.append hle rfl effect.phases.2
  | tag name mh =>
    have happ : (p.tag name mh).appended = p.appended ++ [] := by
      rw [Peer.tag_appended, List.append_nil]
    exact hp.append hle happ (.inl rfl)
  | verify => exact hp.append hle (List.append_nil _).symm (.inl rfl)
  | @propose i call call_at pc free =>
    have happ : (p.propose P i call).appended = p.appended ++ [] := by
      rw [Peer.propose_appended, List.append_nil]
    exact hp.append hle happ (.inl rfl)

/-- Phases only move forward and no ID gets two blocks, as long as Tag is never assigned an ID that
is in use: the handlers see to their part, and Tag does not look. -/
theorem phases_forward_iff {conf : PeerConfig} {es : List PeerEvent} {p : Peer}
    (h : AnyRun (Peer.step P) (newPeer P conf) es p) :
    (Throughout (Peer.step P) PhasesLe (newPeer P conf) es ∧
      (p.appended.map Prod.fst).Nodup) ↔
      Run (Peer.step P) Peer.AssignsFresh (newPeer P conf) es p := by
  rw [throughout_iff_run (R := PhasesLe) h (fun _ _ => le_rfl) (fun h g k => (h k).trans (g k))
    fun _ hstep => (Peer.step_effect P hstep).phasesLe_iff]
  refine and_iff_left_of_imp fun hrun => ?_
  have honce : p.AppendsOnce := hrun.invariant
    ⟨List.nodup_nil, by simp [newPeer]⟩
    fun hp hfresh hstep => (Peer.step_effect P hstep).appendsOnce hfresh hp
  exact honce.once

namespace Sample

/-- The request of node A that is assigned the ID B has used. -/
def ownDigest : String := primitives.getDigest ⟨"A", "g", "n"⟩

def foreignUse : List PeerEvent := committing ⟨"B", "f", "m"⟩ 5

def ownUse : List PeerEvent := [.tag "g" "n", .verify 0, .propose 0]

def secondCommit : List PeerEvent :=
  [.receive (.prepare (prepareFrom "C" ownDigest 5)),
    .receive (.prepare (prepareFrom "D" ownDigest 5)),
    .receive (.commit (commitFrom "C" ownDigest 5)),
    .receive (.commit (commitFrom "D" ownDigest 5))]

theorem foreignUse_isSome :
    (exec (Peer.step primitives) (newPeer primitives (conf "A" 1)) foreignUse).isSome := by
  decide

def committedPeer : Peer :=
  (exec (Peer.step primitives) (newPeer primitives (conf "A" 1)) foreignUse).get foreignUse_isSome

theorem ownUse_isSome : (exec (Peer.step primitives) committedPeer ownUse).isSome := by
  decide

def reassignedPeer : Peer :=
  (exec (Peer.step primitives) committedPeer ownUse).get ownUse_isSome

theorem secondCommit_isSome :
    (exec (Peer.step primitives) reassignedPeer secondCommit).isSome := by
  decide

def committedTwice : Peer :=
  (exec (Peer.step primitives) reassignedPeer secondCommit).get secondCommit_isSome

/-- The committed ID is fresh again once A has assigned it, and gets a second block. -/
theorem phases_counterexample :
    AnyRun (Peer.step primitives) (newPeer primitives (conf "A" 1))
        (foreignUse ++ ownUse ++ secondCommit) committedTwice ∧
      ¬ Throughout (Peer.step primitives) PhasesLe (newPeer primitives (conf "A" 1))
        (foreignUse ++ ownUse ++ secondCommit) ∧
      committedTwice.appended.map Prod.fst = [5, 5] := by
  have hforeign : AnyRun (Peer.step primitives) (newPeer primitives (conf "A" 1)) foreignUse
      committedPeer := run_exec_get _
  have hown : AnyRun (Peer.step primitives) committedPeer ownUse reassignedPeer := run_exec_get _
  refine ⟨(hforeign.append hown).append (run_exec_get secondCommit_isSome), fun hall => ?_,
    by decide⟩
  have hle := hall foreignUse ownUse secondCommit _ _ rfl hforeign hown 5
  revert hle
  decide

def otherID : List PeerEvent := committing ⟨"B", "f", "m"⟩ 6 ++ ownUse

theorem otherID_isSome :
    (exec (Peer.step primitives) (newPeer primitives (conf "A" 1)) otherID).isSome := by
  decide

theorem phases_forward_otherID :
    (Throughout (Peer.step primitives) PhasesLe (newPeer primitives (conf "A" 1)) otherID ∧
      (((exec (Peer.step primitives) (newPeer primitives (conf "A" 1)) otherID).get
        otherID_isSome).appended.map Prod.fst).Nodup) ↔
      Run (Peer.step primitives) Peer.AssignsFresh (newPeer primitives (conf "A" 1)) otherID
        ((exec (Peer.step primitives) (newPeer primitives (conf "A" 1)) otherID).get
          otherID_isSome) :=
  phases_forward_iff (run_exec_get otherID_isSome)

end Sample

end JobPortal
