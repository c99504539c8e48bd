import JobPortal.PbftGenuine
import JobPortal.PbftInTurn
import JobPortal.PbftChains
import JobPortal.Quorums

/-! Consistency of the chains between honest peers. Each peer proposes its requests under the
IDs of its own residue class; if every peer commits these IDs in order and without a gap, the
chains of two peers for one HR are prefixes of the same sequence. -/
namespace JobPortal

open Runs Quorums

variable {P : Primitives}

/-- All members honest, with distinct PaxosIDs in the range of their number. -/
structure Deployment.AllHonest (D : Deployment P) : Prop where
  faulty : D.faulty = ∅
  peers : 4 ≤ D.members.card
  range : ∀ a ∈ D.members, 1 ≤ D.paxosID a ∧ D.paxosID a ≤ D.members.card
  distinct : ∀ a ∈ D.members, ∀ b ∈ D.members, D.paxosID a = D.paxosID b → a = b

def Message.request : Message → Option PbftRequest
  | .prePrepare pp => some pp.requestMessage
  | _ => none

def Peer.TagsInTurn (p : Peer) : PeerEvent → Prop
  | .tag _ _ => ∀ call ∈ p.calls, call.pc = .returned
  | _ => True

instance (p : Peer) : (e : PeerEvent) → Decidable (p.TagsInTurn e)
  | .tag .. => by unfold Peer.TagsInTurn; infer_instance
  | .receive _ | .verify _ | .propose _ => isTrue trivial

namespace Network

variable {D : Deployment P} {g g' : Network} {es : List (String × PeerEvent)}

def Proposed (g : Network) (k : ℕ) (r : PbftRequest) : Prop :=
  ∃ h pp, .prePrepare pp ∈ (g h).sent ∧ pp.pbftID = k ∧ pp.requestMessage = r

theorem Proposed.mono {k : ℕ} {r : PbftRequest} (h : Proposed g k r)
    (hsent : ∀ a, (g a).sent <+: (g' a).sent) : Proposed g' k r := by
  obtain ⟨a, pp, hpp, hspec⟩ := h
  exact ⟨a, pp, (hsent a).subset hpp, hspec⟩

def Delivers (g : Network) : String × PeerEvent → Prop
  | (_, .receive m) => ∃ o, m ∈ (g o).sent
  | _ => True

/-- A Commit completes a quorum only for the first ID of a proposer or the one after an ID
that is committed. -/
def InOrder (g : Network) : String × PeerEvent → Prop
  | (x, .receive (.commit c)) => (g x).node.Admits P c.srcAddr c.digest c.signature →
      ((g x).node.storeCommit c).Commits c.pbftID →
      c.pbftID ≤ 2 * (g x).node.totalPeers ∨
        (g x).node.pbft.stateAt (c.pbftID - (g x).node.totalPeers) = 2
  | _ => True

instance (g : Network) : (e : String × PeerEvent) → Decidable (InOrder (P := P) g e)
  | (_, .receive (.commit _)) => by unfold InOrder; infer_instance
  | (_, .receive (.prePrepare _)) | (_, .receive (.prepare _)) | (_, .receive (.checkpoint _))
  | (_, .receive (.pbftTLC _)) | (_, .tag ..) | (_, .verify _) | (_, .propose _) => isTrue trivial

/-- What holds of the proposals in an honest network. -/
structure Good (D : Deployment P) (g : Network) : Prop where
  genuine : ∀ x, (g x).GenuineIn P (Proposed g)
  proposals : ∀ x, (g x).Proposals P (D.paxosID x)
  members : ∀ x, x ∉ D.members → (g x).sent = []
  config : ∀ x, (g x).node.myAddr = x ∧ (g x).node.totalPeers = D.members.card ∧
    (g x).node.pbft.role = 0

theorem Good.proposed_spec (h : Good D g) {k : ℕ} {r : PbftRequest} (hr : Proposed g k r) :
    r.idhr ∈ D.members ∧ k ≤ (g r.idhr).node.pbft.pbftID ∧
      (∃ j, k = D.paxosID r.idhr + (j + 1) * D.members.card) ∧
      ∃ pp, .prePrepare pp ∈ (g r.idhr).sent ∧ pp.pbftID = k ∧ pp.requestMessage = r := by
  obtain ⟨a, pp, hpp, rfl, rfl⟩ := hr
  obtain ⟨hmy, htotal, _⟩ := h.config a
  obtain ⟨_, hhr, hle, hj⟩ := (h.proposals a).proposal pp hpp
  rw [hmy] at hhr
  rw [htotal] at hj
  have ha : a ∈ D.members := by
    by_contra hno
    rw [h.members a hno] at hpp
    cases hpp
  rw [hhr]
  exact ⟨ha, hle, hj, pp, hpp, rfl, rfl⟩

/-- The proposer of an ID is fixed by its residue class, and proposes one request for it. -/
theorem Good.proposed_unique (h : Good D g) (hD : D.AllHonest) {k : ℕ} {r r' : PbftRequest}
    (hr : Proposed g k r) (hr' : Proposed g k r') : r = r' := by
  obtain ⟨hm, _, ⟨j, hj⟩, pp, hpp, hid, rfl⟩ := h.proposed_spec hr
  obtain ⟨hm', _, ⟨j', hj'⟩, pp', hpp', hid', rfl⟩ := h.proposed_spec hr'
  obtain ⟨hpaxos, _⟩ := offset_eq (hD.range _ hm) (hD.range _ hm') (hj.symm.trans hj')
  rw [← hD.distinct _ hm _ hm' hpaxos] at hpp'
  exact (h.proposals _).unique pp pp' hpp hpp' (hid.trans hid'.symm)

theorem Good.not_proposed (h : Good D g) (hD : D.AllHonest) {x : String} (hx : x ∈ D.members)
    (r : PbftRequest) :
    ¬ Proposed g ((g x).node.pbft.pbftID + (g x).node.totalPeers) r := by
  intro hr
  obtain ⟨hm, hle, ⟨j, hj⟩, _⟩ := h.proposed_spec hr
  obtain ⟨m, hm'⟩ := (h.proposals x).counter
  obtain ⟨_, htotal, _⟩ := h.config x
  have hpos := hD.peers
  rw [hm', htotal, Nat.add_assoc, ← Nat.succ_mul] at hj
  obtain ⟨hpaxos, _⟩ := offset_eq (hD.range _ hx) (hD.range _ hm) hj
  rw [← hD.distinct _ hx _ hm hpaxos] at hle
  omega

theorem start_good : Good D (start D) where
  genuine x := by
    refine ⟨⟨?_, ?_, ?_⟩, by simp [start, newPeer]⟩
    · simp [start, newPeer, newSafePbft]
    · simp [start, newPeer, newSafePbft]
    · simp [start, newPeer, newSafePbft, SafePbft.stateAt, GoMap.at]
  proposals x := newPeer_proposals (D.conf x)
  members _ _ := rfl
  config x := ⟨rfl, rfl, rfl⟩

theorem Good.step (h : Good D g) (hD : D.AllHonest) {x : String} {e : PeerEvent}
    (hdelivers : Delivers g (x, e)) (hturn : (g x).TagsInTurn e)
    (hstep : step D g (x, e) = some g') : Good D g' := by
  have hsent := fun a => (histories hstep a).1
  have hmono : ∀ k r, Proposed g k r → Proposed g' k r := fun k r hr => hr.mono hsent
  obtain ⟨hmy, htotal, hrole⟩ := h.config x
  have hpos : 0 < (g x).node.totalPeers := by
    have := hD.peers
    omega
  have hgenuine : ∀ m, e = .receive m → m.GenuineIn P (Proposed g) := by
    rintro m rfl
    obtain ⟨o, ho⟩ := hdelivers
    exact (h.genuine o).sent m ho
  have hturn' : (g x).InTurn e := by
    cases e with
    | receive m =>
      rintro tlc rfl
      exact hgenuine _ rfl
    | tag => exact hturn
    | verify => trivial
    | propose => trivial
  refine ⟨?_, ?_, ?_, ?_⟩
  · refine forall_step (I := fun _ q => q.GenuineIn P (Proposed g')) hstep
      (fun a => (h.genuine a).mono hmono) fun q heff hq => ?_
    exact heff.genuineIn hrole ((h.genuine x).mono hmono)
      (fun m hm => (hgenuine m hm).mono hmono) fun pp hpp => ⟨x, pp, hq ▸ hpp, rfl, rfl⟩
  · exact forall_step (I := fun a q => q.Proposals P (D.paxosID a)) hstep h.proposals
      fun _ heff _ => (h.proposals x).step hpos hturn' heff
  · refine forall_step (I := fun a q => a ∉ D.members → q.sent = []) hstep h.members
      fun _ _ _ hx => ?_
    exact absurd (Finset.mem_sdiff.mp (step_effect hstep).1).1 hx
  · refine forall_step (I := fun a q => q.node.myAddr = a ∧ q.node.totalPeers = D.members.card ∧
      q.node.pbft.role = 0) hstep h.config fun q heff _ => ?_
    have hconf := heff.sameConfig P
    exact ⟨hconf.myAddr.trans hmy, hconf.totalPeers.trans htotal, hconf.role.trans hrole⟩

end Network

/-- The IDs with a block are those in the last phase. -/
theorem Node.Effect.committed_iff {n : Node} {m : Message} {r : Handled} (h : n.Effect P m r)
    (hpeers : n.totalPeers ≠ 0) {app : List (ℕ × PbftchainBlock)}
    (happ : ∀ k, n.pbft.stateAt k = 2 ↔ ∃ b, (k, b) ∈ app) (k : ℕ) :
    r.node.pbft.stateAt k = 2 ↔ ∃ b, (k, b) ∈ app ++ r.appended := by
  have same {s : SafePbft} (hstate : s.state = n.pbft.state) :
      s.stateAt k = 2 ↔ ∃ b, (k, b) ∈ app ++ [] := by
    rw [SafePbft.stateAt, hstate, List.append_nil]
    exact happ k
  cases h with
  | idle same' => rw [same'.appended]; exact same (by rw [same'.node])
  | pbftTLC tlc =>
    obtain ⟨hlogs, _, _, _, hnone, _⟩ := n.execPbftTLCMessage_frame P tlc
    rw [hnone]
    exact same hlogs.state
  | conflict => exact same rfl
  | prePrepare => exact same rfl
  | prepare => exact same rfl
  | commit => exact same rfl
  | checkpoint => exact same rfl
  | noPeers admits enough none => exact absurd none hpeers
  | @prepared pre admits enough =>
    have hstate : ((n.storePrepare pre).enterPrepared pre).pbft.stateAt k =
        if k = pre.pbftID then 1 else n.pbft.stateAt k :=
      SafePbft.stateAt_setState n.pbft pre.pbftID k 1
    rw [List.append_nil, ← happ k, hstate]
    split_ifs with hk
    · have hzero : n.pbft.stateAt pre.pbftID = 0 := enough.2
      rw [hk, hzero]
      decide
    · rfl
  | @committed c admits enough some =>
    have hstate : (((n.storeCommit c).enterCommitted c.pbftID).appendBlock P
        (n.committedBlock P c)).pbft.stateAt k = if k = c.pbftID then 2 else n.pbft.stateAt k :=
      SafePbft.stateAt_setState n.pbft c.pbftID k 2
    rw [hstate]
    split_ifs with hk
    · simp [hk]
    · simp [happ k, hk]

namespace Network

variable {D : Deployment P} {g g' : Network} {es : List (String × PeerEvent)}

def idsFor (h : String) (app : List (ℕ × PbftchainBlock)) : List ℕ :=
  (app.filter (·.2.request.idhr = h)).map (·.1)

def firstIDs (D : Deployment P) (h : String) (n : ℕ) : List ℕ :=
  (List.range n).map fun j => D.paxosID h + (j + 1) * D.members.card

/-- What a peer has appended: blocks for proposed requests, without a gap for each proposer. -/
structure Ordered (D : Deployment P) (g : Network) (x : String) : Prop where
  committed : ∀ k, (g x).node.pbft.stateAt k = 2 ↔ ∃ b, (k, b) ∈ (g x).appended
  proposed : ∀ k b, (k, b) ∈ (g x).appended → Proposed g k b.request
  ids : ∀ h, ∃ n, idsFor h (g x).appended = firstIDs D h n

theorem start_ordered (x : String) : Ordered D (start D) x where
  committed := by simp [start, newPeer, newSafePbft, SafePbft.stateAt, GoMap.at]
  proposed := by simp [start, newPeer]
  ids h := ⟨0, rfl⟩

/-- Requests proposed in the network are told apart by their digests. -/
def DigestsSound (D : Deployment P) (g : Network) : Prop :=
  ∀ h ∈ D.members, ∀ h' ∈ D.members, ∀ m ∈ (g h).sent, ∀ m' ∈ (g h').sent,
    ∀ r ∈ m.request, ∀ r' ∈ m'.request, P.getDigest r = P.getDigest r' → r = r'

instance (g : Network) : Decidable (DigestsSound D g) := by
  unfold DigestsSound
  infer_instance

theorem DigestsSound.eq (hdigest : DigestsSound D g) (h : Good D g) {k k' : ℕ}
    {r r' : PbftRequest} (hr : Proposed g k r) (hr' : Proposed g k' r')
    (hsame : P.getDigest r = P.getDigest r') : r = r' := by
  obtain ⟨hm, _, _, pp, hpp, _, rfl⟩ := h.proposed_spec hr
  obtain ⟨hm', _, _, pp', hpp', _, rfl⟩ := h.proposed_spec hr'
  exact hdigest _ hm _ hm' _ hpp _ hpp' _ rfl _ rfl hsame

theorem DigestsSound.of_prefix (hdigest : DigestsSound D g')
    (hsent : ∀ a, (g a).sent <+: (g' a).sent) : DigestsSound D g :=
  fun h hh h' hh' m hm m' hm' =>
    hdigest h hh h' hh' m ((hsent h).subset hm) m' ((hsent h').subset hm')

theorem Good.committed_request (h : Good D g) (hD : D.AllHonest) (hdigest : DigestsSound D g)
    {x : String} (hs : LogsSound P (g x).node.pbft) {c : CommitMessage}
    (hc : Message.GenuineIn P (Proposed g) (.commit c))
    (henough : ((g x).node.storeCommit c).Commits c.pbftID) :
    Proposed g c.pbftID ((g x).node.committedBlock P c).request := by
  have hstored : LogsSound P ((g x).node.storeCommit c).pbft := hs.congr rfl rfl
  obtain ⟨d, hd, _⟩ := committers_of_commits P hstored henough
  have hbound : (g x).node.pbft.logPrePrepareMsg.lookup c.pbftID = some d := hd
  obtain ⟨r, hr, hrd⟩ := (h.genuine x).node.bound c.pbftID d hbound
  obtain ⟨r', hr', hrd'⟩ := hc
  obtain rfl := h.proposed_unique hD hr hr'
  -- the Commit has the pre-prepared digest, whose request is on file
  have hcd : c.digest = d := hrd'.symm.trans hrd
  obtain ⟨request, hrequest⟩ := hs.request c.pbftID d hbound
  obtain ⟨k', hk'⟩ := (h.genuine x).node.request d request hrequest
  have hsame : request = r :=
    hdigest.eq h hk' hr ((hs.digest d request hrequest).trans hrd.symm)
  have hblock : ((g x).node.committedBlock P c).request = request := by
    change (g x).node.pbft.logRequest.at c.digest .zero = request
    rw [GoMap.at, hcd, hrequest, Option.getD_some]
  rw [hblock, hsame]
  exact hr

theorem mem_idsFor {h : String} {app : List (ℕ × PbftchainBlock)} {k : ℕ} :
    k ∈ idsFor h app ↔ ∃ b, (k, b) ∈ app ∧ b.request.idhr = h := by
  simp [idsFor]

theorem mem_firstIDs {h : String} {n k : ℕ} :
    k ∈ firstIDs D h n ↔ ∃ j < n, D.paxosID h + (j + 1) * D.members.card = k := by
  simp [firstIDs]

theorem Ordered.next (h : Good D g) (hD : D.AllHonest) {x : String} (ho : Ordered D g x) {k : ℕ}
    {b : PbftchainBlock} (hproposed : Proposed g k b.request)
    (hstate : (g x).node.pbft.stateAt k ≠ 2)
    (horder : k ≤ 2 * D.members.card ∨ (g x).node.pbft.stateAt (k - D.members.card) = 2)
    (a : String) : ∃ n, idsFor a ((g x).appended ++ [(k, b)]) = firstIDs D a n := by
  obtain ⟨n, hn⟩ := ho.ids a
  by_cases ha : b.request.idhr = a
  · subst ha
    obtain ⟨hm, _, ⟨j, rfl⟩, _⟩ := h.proposed_spec hproposed
    have hrange := hD.range _ hm
    -- the ID is new, and the one before it is there
    have hge : n ≤ j := by
      by_contra hlt
      have hmem : D.paxosID b.request.idhr + (j + 1) * D.members.card ∈
          idsFor b.request.idhr (g x).appended := by
        rw [hn, mem_firstIDs]
        exact ⟨j, by omega, rfl⟩
      obtain ⟨b', hb', _⟩ := mem_idsFor.mp hmem
      exact hstate ((ho.committed _).mpr ⟨b', hb'⟩)
    have hle : j ≤ n := by
      rcases horder with hfirst | hprior
      · have hj : (j + 1) * D.members.card < 2 * D.members.card := by omega
        have := Nat.lt_of_mul_lt_mul_right hj
        omega
      · obtain ⟨b', hb'⟩ := (ho.committed _).mp hprior
        have hproposed' := ho.proposed _ b' hb'
        obtain ⟨hm', _, ⟨j', hj'⟩, _⟩ := h.proposed_spec hproposed'
        have hsub : D.paxosID b.request.idhr + (j + 1) * D.members.card - D.members.card =
            D.paxosID b.request.idhr + j * D.members.card := by
          rw [Nat.succ_mul]
          omega
        rw [hsub] at hj' hb'
        obtain ⟨hpaxos, rfl⟩ := offset_eq hrange (hD.range _ hm') hj'
        have hsame := hD.distinct _ hm _ hm' hpaxos
        have hmem := mem_idsFor.mpr ⟨b', hb', hsame.symm⟩
        rw [hn, mem_firstIDs] at hmem
        obtain ⟨i, hi, heq⟩ := hmem
        have := (offset_eq hrange hrange heq).2
        omega
    obtain rfl : j = n := by omega
    refine ⟨j + 1, ?_⟩
    have hsplit : idsFor b.request.idhr ((g x).appended ++
        [(D.paxosID b.request.idhr + (j + 1) * D.members.card, b)]) =
        idsFor b.request.idhr (g x).appended ++
          [D.paxosID b.request.idhr + (j + 1) * D.members.card] := by simp [idsFor]
    rw [hsplit, hn, firstIDs, firstIDs, List.range_succ, List.map_append, List.map_singleton]
  · refine ⟨n, ?_⟩
    rw [← hn]
    simp [idsFor, ha]

theorem Ordered.receive (h : Good D g) (hD : D.AllHonest) (hdigest : DigestsSound D g)
    {x : String} (hs : LogsSound P (g x).node.pbft) {m : Message} {r : Handled}
    (hdelivers : Delivers g (x, .receive m)) (horder : InOrder (P := P) g (x, .receive m))
    (effect : (g x).node.Effect P m r) (hg' : g' x = (g x).after r)
    (hmono : ∀ k r, Proposed g k r → Proposed g' k r) (ho : Ordered D g x) : Ordered D g' x := by
  obtain ⟨_, htotal, _⟩ := h.config x
  have hpeers : (g x).node.totalPeers ≠ 0 := by
    have := hD.peers
    omega
  have hnode : (g' x).node = r.node := by rw [hg']; rfl
  have happ : (g' x).appended = (g x).appended ++ r.appended := by rw [hg']; rfl
  have hcommitted := effect.committed_iff hpeers ho.committed
  rcases effect.chained with ⟨_, hnil⟩ | ⟨k, b, hone, _⟩
  · rw [hnil, List.append_nil] at happ
    refine ⟨fun k => ?_, fun k b hb => ?_, ?_⟩
    · rw [happ, hnode, hcommitted k, hnil, List.append_nil]
    · rw [happ] at hb
      exact hmono _ _ (ho.proposed k b hb)
    · rw [happ]
      exact ho.ids
  · have hb : (k, b) ∈ r.appended := by rw [hone]; exact List.mem_singleton_self _
    obtain ⟨c, rfl, admits, enough, rfl, rfl, _⟩ := effect.appended hb
    obtain ⟨o, hsent⟩ := hdelivers
    have hproposed := h.committed_request hD hdigest hs ((h.genuine o).sent _ hsent) enough
    have hstate : (g x).node.pbft.stateAt c.pbftID = 1 := by
      have hone : (g x).node.pbft.state.lookup c.pbftID = some 1 := enough.2
      rw [SafePbft.stateAt, GoMap.at, hone, Option.getD_some]
    have hnext := horder admits enough
    rw [htotal] at hnext
    refine ⟨fun k => ?_, fun k b hb => ?_, fun a => ?_⟩
    · rw [happ, hnode, hcommitted k]
    · rw [happ, hone] at hb
      rcases List.mem_append.mp hb with hold | hnew
      · exact hmono _ _ (ho.proposed k b hold)
      · obtain ⟨rfl, rfl⟩ := Prod.mk.inj (List.mem_singleton.mp hnew)
        exact hmono _ _ hproposed
    · rw [happ, hone]
      exact ho.next h hD hproposed (by rw [hstate]; decide) hnext a

theorem Ordered.step (h : Good D g) (hD : D.AllHonest) (hdigest : DigestsSound D g) {x a : String}
    {e : PeerEvent} (hs : LogsSound P (g x).node.pbft) (hdelivers : Delivers g (a, e))
    (horder : InOrder (P := P) g (a, e)) (hstep : Network.step D g (a, e) = some g')
    (ho : Ordered D g x) : Ordered D g' x := by
  have hsent := fun b => (histories hstep b).1
  have hmono : ∀ k r, Proposed g k r → Proposed g' k r := fun k r hr => hr.mono hsent
  obtain ⟨hactive, q, heff, rfl⟩ := step_effect hstep
  have unchanged {p : Peer} (hp : Function.update g a q x = p)
      (hstate : ∀ k, p.node.pbft.stateAt k = 2 ↔ (g x).node.pbft.stateAt k = 2)
      (happ : p.appended = (g x).appended) : Ordered D (Function.update g a q) x := by
    refine ⟨fun k => ?_, fun k b hb => ?_, ?_⟩
    · rw [hp, happ, hstate]
      exact ho.committed k
    · rw [hp, happ] at hb
      exact hmono _ _ (ho.proposed k b hb)
    · rw [hp, happ]
      exact ho.ids
  by_cases hxa : x = a
  · subst hxa
    have hx : x ∈ D.members := (Finset.mem_sdiff.mp hactive).1
    cases heff with
    | @receive m r effect =>
      exact ho.receive h hD hdigest hs hdelivers horder effect (Function.update_self ..) hmono
    | tag name mh =>
      exact unchanged (Function.update_self ..) (fun k => by rw [Peer.tag_pbft])
        (Peer.tag_appended ..)
    | verify => exact unchanged (Function.update_self ..) (fun _ => Iff.rfl) rfl
    | @propose i call call_at pc free =>
      refine unchanged (Function.update_self ..) (fun k => ?_) (Peer.propose_appended ..)
      change ((g x).node.tagSection P call).node.pbft.stateAt k = 2 ↔ _
      rw [tagSection_state]
      split_ifs with hnew
      · -- the assigned ID is new, so it is not committed either
        have hno : (g x).node.pbft.stateAt k = 0 := by
          by_contra hused
          obtain ⟨r, hr⟩ := (h.genuine x).node.used k hused
          exact h.not_proposed hD hx r (hnew.2 ▸ hr)
        simp [hno]
      · rfl
  · exact unchanged (Function.update_of_ne hxa ..) (fun _ => Iff.rfl) rfl

/-- The runs the results below are about. -/
def Orderly (P : Primitives) (g : Network) (e : String × PeerEvent) : Prop :=
  Delivers g e ∧ (g e.1).TagsInTurn e.2 ∧ InOrder (P := P) g e

theorem good_of_run (hD : D.AllHonest) (hrun : Run (step D) (Orderly P) (start D) es g) :
    Good D g :=
  hrun.invariant start_good fun h hok hstep => h.step hD hok.1 hok.2.1 hstep

theorem ordered_of_run (hD : D.AllHonest) (hrun : Run (step D) (Orderly P) (start D) es g)
    (hdigest : DigestsSound D g) (x : String) : Ordered D g x := by
  induction hrun with
  | nil => exact start_ordered x
  | @snoc es g g' e prior meets enabled ih =>
    obtain ⟨a, e⟩ := e
    have hsent := fun b => (histories enabled b).1
    have hdigest' := hdigest.of_prefix hsent
    exact (ih hdigest').step (good_of_run hD prior) hD hdigest'
      (logsSound_of_run P (peer_run prior x)) meets.1 meets.2.2 enabled

/-- The requests of one HR that two peers appended: those of one are the first of the other's. -/
theorem requests_prefix (hD : D.AllHonest) (hrun : Run (step D) (Orderly P) (start D) es g)
    (hdigest : DigestsSound D g) (x y h : String) :
    (blocksFor h (g x).blocks).map (·.request) <+: (blocksFor h (g y).blocks).map (·.request) ∨
      (blocksFor h (g y).blocks).map (·.request) <+: (blocksFor h (g x).blocks).map (·.request) := by
  classical
  have hgood := good_of_run hD hrun
  let requestOf (k : ℕ) : PbftRequest :=
    if hr : ∃ r, Proposed g k r then hr.choose else .zero
  have hrequests (x : String) :
      (blocksFor h (g x).blocks).map (·.request) = (idsFor h (g x).appended).map requestOf := by
    have ho := ordered_of_run hD hrun hdigest x
    have hof : ∀ z ∈ (g x).appended, z.2.request = requestOf z.1 := by
      rintro ⟨k, b⟩ hz
      have hr : ∃ r, Proposed g k r := ⟨_, ho.proposed k b hz⟩
      simp only [requestOf, dif_pos hr]
      exact hgood.proposed_unique hD (ho.proposed k b hz) hr.choose_spec
    simp only [blocksFor, Peer.blocks, idsFor, List.filter_map, List.map_map]
    apply List.map_congr_left
    intro z hz
    exact hof z (List.mem_of_mem_filter hz)
  obtain ⟨n, hn⟩ := (ordered_of_run hD hrun hdigest x).ids h
  obtain ⟨m, hm⟩ := (ordered_of_run hD hrun hdigest y).ids h
  have hfirst {n m : ℕ} (hle : n ≤ m) : firstIDs D h n <+: firstIDs D h m := by
    obtain ⟨d, rfl⟩ := Nat.exists_eq_add_of_le hle
    rw [firstIDs, firstIDs, List.range_add, List.map_append]
    exact List.prefix_append _ _
  rw [hrequests x, hrequests y, hn, hm]
  rcases Nat.le_total n m with hle | hle
  · exact .inl ((hfirst hle).map _)
  · exact .inr ((hfirst hle).map _)

end Network

end JobPortal
