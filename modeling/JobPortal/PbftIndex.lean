import JobPortal.PbftFifo

/-! The numbers of the blocks. A block's number is its PbftID divided by the number of peers, and
Tag adds that number to its counter before it uses an ID, so no chain starts at block 0. -/
namespace JobPortal

open Runs

variable {P : Primitives}

/-- Every block is numbered by the ID it was appended for. -/
def Peer.Indexed (p : Peer) : Prop :=
  ∀ k b, (k, b) ∈ p.appended → b.index = k / p.node.totalPeers

/-- The message is about an ID after the first round of the peers. -/
def Message.PastFirstRound (totalPeers : ℕ) : Message → Prop
  | .prePrepare pp => totalPeers ≤ pp.pbftID
  | .prepare pre => totalPeers ≤ pre.pbftID
  | .commit c => totalPeers ≤ c.pbftID
  | .checkpoint cp => totalPeers ≤ cp.pbftID
  | .pbftTLC _ => False

structure Peer.PastFirstRound (p : Peer) : Prop where
  sent : ∀ m ∈ p.sent, m.PastFirstRound p.node.totalPeers
  started : ∀ call ∈ p.calls, call.flag = true → p.node.totalPeers ≤ p.node.pbft.pbftID
  appended : ∀ k b, (k, b) ∈ p.appended → 0 < p.node.totalPeers ∧ p.node.totalPeers ≤ k

theorem Node.Effect.indexed {n : Node} {m : Message} {r : Handled} (h : n.Effect P m r) {k : ℕ}
    {b : PbftchainBlock} (hb : (k, b) ∈ r.appended) : b.index = k / n.totalPeers := by
  obtain ⟨c, _, _, _, rfl, rfl, _⟩ := h.appended hb
  rfl

/-- A handler answers a message with one about the same ID, or about the next. -/
theorem Node.Effect.pastFirstRound {n : Node} {m : Message} {r : Handled} (h : n.Effect P m r)
    (hm : m.PastFirstRound n.totalPeers) :
    (∀ m' ∈ r.sent, m'.PastFirstRound n.totalPeers) ∧
      ∀ k b, (k, b) ∈ r.appended → 0 < n.totalPeers ∧ n.totalPeers ≤ k := by
  cases h with
  | idle same =>
    rw [same.sent, same.appended]
    simp
  | conflict => simp
  | @prePrepare pp =>
    refine ⟨fun m' hm' => ?_, by simp⟩
    obtain rfl := List.mem_singleton.mp hm'
    change n.totalPeers ≤ pp.pbftID at hm
    change n.totalPeers ≤ if n.pbft.role = 1 then pp.pbftID + 1 else pp.pbftID
    split_ifs <;> omega
  | prepare => simp
  | @prepared pre =>
    refine ⟨fun m' hm' => ?_, by simp⟩
    obtain rfl := List.mem_singleton.mp hm'
    change n.totalPeers ≤ pre.pbftID at hm
    change n.totalPeers ≤ if n.pbft.role = 1 then pre.pbftID + 1 else pre.pbftID
    split_ifs <;> omega
  | commit => simp
  | noPeers => simp
  | committed admits enough some =>
    refine ⟨by simp, fun k b hb => ?_⟩
    obtain ⟨rfl, rfl⟩ := Prod.mk.inj (List.mem_singleton.mp hb)
    exact ⟨Nat.pos_of_ne_zero some, hm⟩
  | checkpoint => simp
  | pbftTLC => exact hm.elim

/-- A pass of Tag is for an ID past the first round: its own step takes it there. -/
theorem Peer.PastFirstRound.tagAssigned {p : Peer} (hp : p.PastFirstRound) {i : ℕ} {call : TagCall}
    (hcall : p.calls[i]? = some call) :
    p.node.totalPeers ≤ (p.node.tagAssigned call).pbftID := by
  rw [Node.tagAssigned_pbftID]
  cases hflag : call.flag with
  | true => exact hp.started call (List.mem_of_getElem? hcall) hflag
  | false => exact Nat.le_add_left _ _

theorem Node.tagSection_pastFirstRound {n : Node} {call : TagCall}
    (h : n.totalPeers ≤ (n.tagAssigned call).pbftID) :
    ∀ m ∈ (n.tagSection P call).sent, m.PastFirstRound n.totalPeers := by
  intro m hm
  unfold Node.tagSection at hm
  split_ifs at hm
  · rcases List.mem_pair.mp hm with rfl | rfl <;> exact h
  · obtain rfl := List.mem_singleton.mp hm
    exact h

theorem Peer.Effect.pastFirstRound {p q : Peer} {e : PeerEvent} (h : p.Effect P e q)
    (hm : ∀ m, e = .receive m → m.PastFirstRound p.node.totalPeers) (hp : p.PastFirstRound) :
    q.PastFirstRound := by
  have htotal := (h.sameConfig P).totalPeers
  cases h with
  | @receive m r effect =>
    obtain ⟨hsent, happ⟩ := effect.pastFirstRound (hm m rfl)
    have hno : ∀ tlc, m ≠ .pbftTLC tlc := by
      rintro tlc rfl
      exact hm _ rfl
    have hid : (p.after r).node.pbft.pbftID = p.node.pbft.pbftID := (effect.records P).2 hno
    refine ⟨fun m' hm' => ?_, ?_, fun k b hb => ?_⟩
    · rw [htotal]
      exact (List.mem_append.mp hm').elim (hp.sent m') (hsent m')
    · rw [htotal, hid]
      exact hp.started
    · rw [htotal]
      exact (List.mem_append.mp hb).elim (hp.appended k b) (happ k b)
  | tag name mh =>
    unfold Peer.tag
    split_ifs
    · exact ⟨hp.sent, hp.started, hp.appended⟩
    · exact hp
    · refine ⟨hp.sent, fun call hcall hflag => ?_, hp.appended⟩
      rcases List.mem_append.mp hcall with hold | hnew
      · exact hp.started call hold hflag
      · rw [List.mem_singleton.mp hnew] at hflag
        cases hflag
  | @verify i call call_at =>
    refine ⟨hp.sent, fun c hc hflag => ?_, hp.appended⟩
    rcases List.mem_or_eq_of_mem_set hc with hold | rfl
    · exact hp.started c hold hflag
    · exact hp.started call (List.mem_of_getElem? call_at) hflag
  | @propose i call call_at =>
    have hassigned := hp.tagAssigned call_at
    refine ⟨fun m hm' => ?_, fun _ _ _ => ?_, fun k b hb => ?_⟩
    · rw [htotal]
      exact (List.mem_append.mp hm').elim (hp.sent m)
        (Node.tagSection_pastFirstRound hassigned m)
    · rw [htotal, Peer.propose_pbftID]
      exact hassigned
    · rw [htotal]
      rw [Peer.propose_appended] at hb
      exact hp.appended k b hb

theorem Peer.Effect.indexed {p q : Peer} {e : PeerEvent} (h : p.Effect P e q) (hp : p.Indexed) :
    q.Indexed := by
  intro k b hb
  rw [(h.sameConfig P).totalPeers]
  cases h with
  | @receive m r effect =>
    exact (List.mem_append.mp hb).elim (hp k b) effect.indexed
  | tag name mh =>
    rw [Peer.tag_appended] at hb
    exact hp k b hb
  | verify => exact hp k b hb
  | propose =>
    rw [Peer.propose_appended] at hb
    exact hp k b hb

theorem indexed_of_run {conf : PeerConfig} {es : List PeerEvent} {p : Peer}
    (h : AnyRun (Peer.step P) (newPeer P conf) es p) : p.Indexed :=
  h.invariant (I := Peer.Indexed) (by simp [Peer.Indexed, newPeer])
    fun hp _ hstep => (Peer.step_effect P hstep).indexed hp

namespace Network

variable {D : Deployment P} {g : Network} {es : List (String × PeerEvent)}

/-- In a network of peers that get what their like have sent, nobody works in the first round. -/
theorem pastFirstRound_of_run (h : Run (step D) Delivers (start D) es g) :
    ∀ x, (g x).PastFirstRound := by
  induction h with
  | nil =>
    intro x
    constructor <;> simp [start, newPeer]
  | @snoc es g g' e prior delivers enabled ih =>
    obtain ⟨a, e⟩ := e
    have htotal (x : String) : (g x).node.totalPeers = D.members.card :=
      (sameConfig_of_run P (peer_run prior x)).totalPeers
    refine forall_step (I := fun _ q => q.PastFirstRound) enabled ih fun _ heff _ => ?_
    refine heff.pastFirstRound ?_ (ih a)
    rintro m rfl
    obtain ⟨o, ho⟩ := delivers
    rw [htotal a, ← htotal o]
    exact (ih o).sent m ho

/-- Where the IDs of an HR came without a gap, the block at a position is one or two ahead of it:
two for the proposer whose PaxosID is the number of peers. -/
theorem index_of_position {ok : Network → String × PeerEvent → Prop}
    (h : Run (step D) ok (start D) es g) {x a : String} {n : ℕ}
    (hids : idsFor a (g x).appended = firstIDs D a n) {i : ℕ} {b : PbftchainBlock}
    (hb : (blocksFor a (g x).blocks)[i]? = some b) :
    b.index = (D.paxosID a + (i + 1) * D.members.card) / D.members.card := by
  have htotal := (sameConfig_of_run P (peer_run h x)).totalPeers
  have hblocks : blocksFor a (g x).blocks =
      ((g x).appended.filter (·.2.request.idhr = a)).map (·.2) := by
    rw [blocksFor, Peer.blocks, List.filter_map]
    rfl
  rw [hblocks, List.getElem?_map, Option.map_eq_some_iff] at hb
  obtain ⟨⟨k, b'⟩, hkb, rfl⟩ := hb
  have hk : (firstIDs D a n)[i]? = some k := by
    rw [← hids, idsFor, List.getElem?_map, hkb]
    rfl
  obtain ⟨j, hj, rfl⟩ := Option.map_eq_some_iff.mp ((List.getElem?_map ..).symm.trans hk)
  obtain ⟨_, rfl⟩ := List.getElem?_eq_some_iff.mp hj
  have hmem := List.mem_of_mem_filter (List.mem_of_getElem? hkb)
  have hindex := indexed_of_run (peer_run h x) _ _ hmem
  rw [hindex, htotal, List.getElem_range]
  rfl

end Network

/-- No chain is numbered by position unless it is empty: in order and without a gap or not, its
first block is not number 0. -/
theorem numbered_by_position_iff {D : Deployment P} {es : List (String × PeerEvent)} {g : Network}
    (hrun : Run (Network.step D) Network.Delivers (Network.start D) es g) {x : String}
    (hhash : HashesSound P (g x).blocks)
    (hunmarshal : ∀ b ∈ (g x).blocks, P.unmarshalBlock (P.marshalBlock b) = some b) (h : String) :
    ∃ bs, (g x).node.hrStorage.hrBlockchain.chain P h = some bs ∧
      ((∀ (i : ℕ) (b : PbftchainBlock), bs[i]? = some b → b.index = i) ↔ bs = []) ∧
      ∀ n, Network.idsFor h (g x).appended = Network.firstIDs D h n → ∀ i b, bs[i]? = some b →
        b.index = (D.paxosID h + (i + 1) * D.members.card) / D.members.card := by
  refine ⟨_, chain_of_run (Network.peer_run hrun x) hhash hunmarshal h, ⟨fun hnum => ?_, ?_⟩,
    fun n hids i b hb => Network.index_of_position hrun hids hb⟩
  · by_contra hne
    obtain ⟨b, bs, hbs⟩ := List.exists_cons_of_ne_nil hne
    have hmem : b ∈ blocksFor h (g x).blocks := hbs ▸ List.mem_cons_self
    obtain ⟨⟨k, b'⟩, hkb, rfl⟩ := List.mem_map.mp (List.mem_of_mem_filter hmem)
    obtain ⟨hpos, hk⟩ := (Network.pastFirstRound_of_run hrun x).appended k b' hkb
    have hindex := indexed_of_run (Network.peer_run hrun x) k b' hkb
    have hzero := hnum 0 b' (by rw [hbs, List.getElem?_cons_zero])
    have := Nat.div_pos hk hpos
    omega
  · rintro hnil i b hb
    rw [hnil] at hb
    cases hb

namespace Sample

/-- B's chain for A has its only block under the number 1. -/
theorem index_counterexample :
    honestDeployment.AllHonest ∧
      Run (Fifo.step honestDeployment) (fun s e => s.TagsInTurn e ∧ s.InOrder primitives e)
        (Fifo.start honestDeployment) inTime consistent ∧
      Network.idsFor "A" (consistent.net "B").appended = Network.firstIDs honestDeployment "A" 1 ∧
      ((consistent.net "B").node.hrStorage.hrBlockchain.chain primitives "A").map
        (·.map (·.index)) = some [1] :=
  ⟨honestDeployment_allHonest, consistent_run, by decide +kernel,
    by decide +kernel⟩

theorem numbered_by_position_consistent :
    ∃ bs, (consistent.net "B").node.hrStorage.hrBlockchain.chain primitives "A" = some bs ∧
      ((∀ (i : ℕ) (b : PbftchainBlock), bs[i]? = some b → b.index = i) ↔ bs = []) ∧
      ∀ n, Network.idsFor "A" (consistent.net "B").appended =
        Network.firstIDs honestDeployment "A" n → ∀ i b, bs[i]? = some b →
          b.index = (honestDeployment.paxosID "A" + (i + 1) * honestDeployment.members.card) /
            honestDeployment.members.card := by
  obtain ⟨es, hrun⟩ := Fifo.network_run consistent_run
  have hhash : HashesSound primitives (consistent.net "B").blocks := by decide +kernel
  exact numbered_by_position_iff (hrun.imp fun _ _ horderly => horderly.1) hhash
    (fun b _ => unmarshalBlock_marshalBlock b) "A"

end Sample

end JobPortal
