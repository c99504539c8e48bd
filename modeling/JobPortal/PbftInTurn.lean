import JobPortal.PbftProposer

/-! A node whose Tag calls run one after another. Each call then keeps the ID it was assigned,
and the node's PrePrepares carry one request for each ID of its own residue class. -/
namespace JobPortal

variable (P : Primitives)

/-- A Tag call starts only when all earlier ones have returned, and no TLC message comes in. -/
def Peer.InTurn (p : Peer) : PeerEvent → Prop
  | .tag _ _ => ∀ call ∈ p.calls, call.pc = .returned
  | .receive m => ∀ tlc, m ≠ .pbftTLC tlc
  | _ => True

/-- The PrePrepares of a node whose counter started at `init`. -/
structure Peer.Proposals (init : ℕ) (p : Peer) : Prop where
  active : ∀ (i : ℕ) (call : TagCall), p.calls[i]? = some call → call.pc ≠ .returned →
    i + 1 = p.calls.length
  counter : ∃ m, p.node.pbft.pbftID = init + m * p.node.totalPeers
  started : ∀ (i : ℕ) (call : TagCall), p.calls[i]? = some call → call.pc ≠ .returned →
    call.flag = true → ∃ m, p.node.pbft.pbftID = init + (m + 1) * p.node.totalPeers
  proposal : ∀ pp, .prePrepare pp ∈ p.sent → pp.digest = P.getDigest pp.requestMessage ∧
    pp.requestMessage.idhr = p.node.myAddr ∧ pp.pbftID ≤ p.node.pbft.pbftID ∧
    ∃ j, pp.pbftID = init + (j + 1) * p.node.totalPeers
  unique : ∀ pp pp', .prePrepare pp ∈ p.sent → .prePrepare pp' ∈ p.sent →
    pp.pbftID = pp'.pbftID → pp.requestMessage = pp'.requestMessage
  current : ∀ pp, .prePrepare pp ∈ p.sent → pp.pbftID = p.node.pbft.pbftID →
    ∀ (i : ℕ) (call : TagCall), p.calls[i]? = some call → call.pc ≠ .returned →
      call.flag = true → pp.requestMessage = p.node.tagRequest call

variable {P} {init : ℕ} {p q : Peer} {e : PeerEvent}

theorem newPeer_proposals (conf : PeerConfig) :
    (newPeer P conf).Proposals P conf.paxosID where
  active := by simp [newPeer]
  counter := ⟨0, by simp [newPeer, newSafePbft]⟩
  started := by simp [newPeer]
  proposal := by simp [newPeer]
  unique := by simp [newPeer]
  current := by simp [newPeer]

theorem Peer.Effect.frame (h : p.Effect P e q) (hturn : p.InTurn e)
    (hno : ∀ i, e ≠ .propose i) :
    (∀ pp, .prePrepare pp ∈ q.sent → .prePrepare pp ∈ p.sent) ∧
      q.node.pbft.pbftID = p.node.pbft.pbftID := by
  constructor
  · intro pp hpp
    rcases h.prePrepare_sent P hpp with hold | ⟨i, _, rfl, _⟩
    · exact hold
    · exact absurd rfl (hno i)
  · cases h with
    | receive m effect => exact (effect.records P).2 hturn
    | tag name mh => rw [Peer.tag_pbft]
    | verify => rfl
    | propose => exact absurd rfl (hno _)

theorem mem_set_cases {calls : List TagCall} {i j : ℕ} {c call : TagCall}
    (h : (calls.set i c)[j]? = some call) : j = i ∧ call = c ∨ calls[j]? = some call := by
  rw [List.getElem?_set] at h
  split_ifs at h with hij hlt
  · exact .inl ⟨hij.symm, (Option.some.inj h).symm⟩
  · exact .inr h

theorem Peer.Proposals.of_frame (hp : p.Proposals P init) (h : p.Effect P e q)
    (hturn : p.InTurn e) (hno : ∀ i, e ≠ .propose i)
    (hcalls : ∀ (i : ℕ) (call : TagCall), q.calls[i]? = some call → call.pc ≠ .returned →
      i + 1 = q.calls.length ∧ (call.flag = true → ∃ call', p.calls[i]? = some call' ∧
        call'.pc ≠ .returned ∧ call'.flag = true ∧
          q.node.tagRequest call = p.node.tagRequest call')) :
    q.Proposals P init := by
  obtain ⟨hsent, hid⟩ := h.frame hturn hno
  have hconf := h.sameConfig P
  refine ⟨fun i call hi hpc => (hcalls i call hi hpc).1, ?_, ?_, fun pp hpp => ?_, ?_, ?_⟩
  · rw [hid, hconf.totalPeers]
    exact hp.counter
  · intro i call hi hpc hflag
    obtain ⟨call', hi', hpc', hflag', _⟩ := (hcalls i call hi hpc).2 hflag
    rw [hid, hconf.totalPeers]
    exact hp.started i call' hi' hpc' hflag'
  · rw [hid, hconf.totalPeers, hconf.myAddr]
    exact hp.proposal pp (hsent pp hpp)
  · exact fun pp pp' hpp hpp' => hp.unique pp pp' (hsent pp hpp) (hsent pp' hpp')
  · intro pp hpp hcur i call hi hpc hflag
    obtain ⟨call', hi', hpc', hflag', hreq⟩ := (hcalls i call hi hpc).2 hflag
    rw [hreq]
    exact hp.current pp (hsent pp hpp) (hcur.trans hid) i call' hi' hpc' hflag'

theorem Peer.Proposals.tag (hp : p.Proposals P init) {name mh : String}
    (hturn : p.InTurn (.tag name mh)) : (p.tag name mh).Proposals P init := by
  have heff : p.Effect P (.tag name mh) (p.tag name mh) := .tag name mh
  apply hp.of_frame heff hturn (by simp)
  intro i call hi hpc
  have hmy := (heff.sameConfig P).myAddr
  have hold (hi : p.calls[i]? = some call) : False :=
    hpc (hturn call (List.mem_of_getElem? hi))
  unfold Peer.tag at hi hmy ⊢
  split_ifs at hi hmy ⊢ with hlone hname
  · exact (hold hi).elim
  · exact (hold hi).elim
  · simp only at hi ⊢
    rw [List.getElem?_append] at hi
    split_ifs at hi with hlt
    · exact (hold hi).elim
    · obtain ⟨hzero, rfl⟩ := List.getElem?_eq_some_iff.mp hi
      simp only [List.length_singleton] at hzero
      refine ⟨?_, by simp⟩
      rw [List.length_append, List.length_singleton]
      omega

theorem Peer.Proposals.verify (hp : p.Proposals P init) {i : ℕ} {call : TagCall}
    (hcall : p.calls[i]? = some call) (hpc : call.pc = .verifying) :
    (p.verify i call).Proposals P init := by
  have heff : p.Effect P (.verify i) (p.verify i call) := .verify hcall hpc
  apply hp.of_frame heff trivial (by simp)
  intro j c hj hc
  have hlen : (p.verify i call).calls.length = p.calls.length := List.length_set
  rw [hlen]
  have hne : call.pc ≠ .returned := by rw [hpc]; decide
  rcases mem_set_cases hj with ⟨rfl, rfl⟩ | hold
  · exact ⟨hp.active j call hcall hne, fun hflag => ⟨call, hcall, hne, hflag, rfl⟩⟩
  · exact ⟨hp.active j c hold hc, fun hflag => ⟨c, hold, hc, hflag, rfl⟩⟩

theorem Peer.Proposals.active_propose (hp : p.Proposals P init) {i : ℕ} {call : TagCall}
    (hcall : p.calls[i]? = some call) (hpc : call.pc ≠ .returned) {j : ℕ} {c : TagCall}
    (hj : (p.propose P i call).calls[j]? = some c) (hc : c.pc ≠ .returned) :
    j = i ∧ c = { call with flag := true, pc := .verifying } := by
  have hlast := hp.active i call hcall hpc
  rcases mem_set_cases hj with hnew | hold
  · exact hnew
  · have hj' := hp.active j c hold hc
    obtain rfl : j = i := by omega
    have hlt : j < p.calls.length := by omega
    have hset : (p.propose P j call).calls[j]? =
        some { call with flag := true, pc := .verifying } := List.getElem?_set_self hlt
    exact ⟨rfl, Option.some.inj (hj.symm.trans hset)⟩

/-- A first pass moves the counter past every ID in use, a later one stays at the ID of its
call: all PrePrepares that the pass can meet there are for its own request. -/
theorem Peer.Proposals.assigned (hp : p.Proposals P init) (hpeers : 0 < p.node.totalPeers) {i : ℕ}
    {call : TagCall} (hcall : p.calls[i]? = some call) (hpc : call.pc ≠ .returned) :
    (∃ m, (p.node.tagAssigned call).pbftID = init + (m + 1) * p.node.totalPeers) ∧
      p.node.pbft.pbftID ≤ (p.node.tagAssigned call).pbftID ∧
      ∀ pp, .prePrepare pp ∈ p.sent → pp.pbftID = (p.node.tagAssigned call).pbftID →
        pp.requestMessage = p.node.tagRequest call := by
  rw [Node.tagAssigned_pbftID]
  cases hflag : call.flag with
  | true =>
    exact ⟨hp.started i call hcall hpc hflag, le_rfl,
      fun pp hpp hcur => hp.current pp hpp hcur i call hcall hpc hflag⟩
  | false =>
    obtain ⟨m, hm⟩ := hp.counter
    refine ⟨⟨m, by rw [hm, Nat.succ_mul, ← Nat.add_assoc]; rfl⟩, by simp, fun pp hpp hcur => ?_⟩
    have hle := (hp.proposal pp hpp).2.2.1
    simp only [Bool.false_eq_true, if_false] at hcur
    omega

theorem Peer.Proposals.propose (hp : p.Proposals P init) (hpeers : 0 < p.node.totalPeers) {i : ℕ}
    {call : TagCall} (hcall : p.calls[i]? = some call) (hpc : call.pc = .proposing) :
    (p.propose P i call).Proposals P init := by
  have hne : call.pc ≠ .returned := by rw [hpc]; decide
  have hlen : (p.propose P i call).calls.length = p.calls.length := List.length_set
  obtain ⟨hmy, htotal, _, _, _⟩ := p.node.tagSection_sameConfig P call
  have hsent := (p.node.tagSection_spec P call).2.2
  have hid := p.propose_pbftID P i call
  change (p.propose P i call).node.myAddr = _ at hmy
  change (p.propose P i call).node.totalPeers = _ at htotal
  obtain ⟨⟨m, hm⟩, hle, hmeets⟩ := hp.assigned hpeers hcall hne
  have hcases {pp : PrePrepareMessage} (hpp : .prePrepare pp ∈ (p.propose P i call).sent) :
      .prePrepare pp ∈ p.sent ∨ pp = p.node.tagPrePrepare P call := by
    rcases List.mem_append.mp hpp with hold | hnew
    · exact .inl hold
    · exact .inr ((hsent pp).mp hnew)
  have hreq (c : TagCall) : (p.propose P i call).node.tagRequest c = p.node.tagRequest c := by
    rw [Node.tagRequest, Node.tagRequest, hmy]
  refine ⟨?_, ⟨m + 1, by rw [hid, htotal, hm]⟩, ?_, ?_, ?_, ?_⟩
  · intro j c hj hc
    obtain ⟨rfl, rfl⟩ := hp.active_propose hcall hne hj hc
    rw [hlen]
    exact hp.active j call hcall hne
  · intro j c hj hc hflag
    exact ⟨m, by rw [hid, htotal, hm]⟩
  · intro pp hpp
    rw [hid, htotal, hmy]
    rcases hcases hpp with hold | rfl
    · obtain ⟨hdigest, hhr, hpple, hj⟩ := hp.proposal pp hold
      exact ⟨hdigest, hhr, hpple.trans hle, hj⟩
    · exact ⟨rfl, rfl, le_rfl, m, hm⟩
  · intro pp pp' hpp hpp' heq
    rcases hcases hpp with hold | rfl <;> rcases hcases hpp' with hold' | rfl
    · exact hp.unique pp pp' hold hold' heq
    · exact hmeets pp hold heq
    · exact (hmeets pp' hold' heq.symm).symm
    · rfl
  · intro pp hpp hcur j c hj hc hflag
    obtain ⟨rfl, rfl⟩ := hp.active_propose hcall hne hj hc
    rw [hid] at hcur
    rw [hreq]
    rcases hcases hpp with hold | rfl
    · exact hmeets pp hold hcur
    · rfl

theorem Peer.Proposals.step (hp : p.Proposals P init) (hpeers : 0 < p.node.totalPeers)
    (hturn : p.InTurn e) (h : p.Effect P e q) : q.Proposals P init := by
  cases h with
  | @receive m r effect =>
    apply hp.of_frame (.receive m effect) hturn (by simp)
    intro i call hi hpc
    have hmy : (p.after r).node.myAddr = p.node.myAddr := (effect.sameConfig P).myAddr
    exact ⟨hp.active i call hi hpc, fun hflag =>
      ⟨call, hi, hpc, hflag, by rw [Node.tagRequest, Node.tagRequest, hmy]⟩⟩
  | tag name mh => exact hp.tag hturn
  | verify call_at pc => exact hp.verify call_at pc
  | propose call_at pc free => exact hp.propose hpeers call_at pc

end JobPortal
