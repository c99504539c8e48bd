import JobPortal.PbftAgreement
import JobPortal.PbftProposer

/-! Runs in which all peers are honest. Every message and every entry about an ID then goes
back to a PrePrepare some peer broadcast for that ID, given here as a relation between IDs
and proposed requests. -/
namespace JobPortal

variable (P : Primitives) (K : ℕ → PbftRequest → Prop)

def DigestIn (k : ℕ) (d : String) : Prop := ∃ r, K k r ∧ P.getDigest r = d

def Message.GenuineIn : Message → Prop
  | .prePrepare pp => K pp.pbftID pp.requestMessage ∧ pp.digest = P.getDigest pp.requestMessage
  | .prepare pre => DigestIn P K pre.pbftID pre.digest
  | .commit c => DigestIn P K c.pbftID c.digest
  | .checkpoint _ => True
  | .pbftTLC _ => False

/-- A node all of whose entries are about proposed requests. -/
structure Node.GenuineIn (n : Node) : Prop where
  bound : ∀ k d, n.pbft.logPrePrepareMsg.lookup k = some d → DigestIn P K k d
  request : ∀ d r, n.pbft.logRequest.lookup d = some r → ∃ k, K k r
  used : ∀ k, n.pbft.stateAt k ≠ 0 → ∃ r, K k r

structure Peer.GenuineIn (p : Peer) : Prop where
  node : p.node.GenuineIn P K
  sent : ∀ m ∈ p.sent, m.GenuineIn P K

variable {P K} {K' : ℕ → PbftRequest → Prop} {n : Node} {p q : Peer} {m : Message} {r : Handled}

theorem DigestIn.mono (hK : ∀ k r, K k r → K' k r) {k : ℕ} {d : String} (h : DigestIn P K k d) :
    DigestIn P K' k d := by
  obtain ⟨r, hr, hd⟩ := h
  exact ⟨r, hK k r hr, hd⟩

theorem Message.GenuineIn.mono (hK : ∀ k r, K k r → K' k r) (h : m.GenuineIn P K) :
    m.GenuineIn P K' := by
  cases m with
  | prePrepare pp => exact ⟨hK _ _ h.1, h.2⟩
  | prepare pre => exact DigestIn.mono hK h
  | commit c => exact DigestIn.mono hK h
  | checkpoint cp => trivial
  | pbftTLC tlc => exact h.elim

theorem Peer.GenuineIn.mono (hK : ∀ k r, K k r → K' k r) (h : p.GenuineIn P K) :
    p.GenuineIn P K' where
  node :=
    { bound := fun k d hk => (h.node.bound k d hk).mono hK
      request := fun d r hr => (h.node.request d r hr).imp fun k hk => hK k r hk
      used := fun k hk => (h.node.used k hk).imp fun r hr => hK k r hr }
  sent m hm := (h.sent m hm).mono hK

theorem Node.GenuineIn.setState (h : n.GenuineIn P K) {n' : Node} {k phase : ℕ}
    (hpp : n'.pbft.logPrePrepareMsg = n.pbft.logPrePrepareMsg)
    (hreq : n'.pbft.logRequest = n.pbft.logRequest)
    (hstate : n'.pbft.state = n.pbft.state.insert k phase) (hk : ∃ r, K k r) :
    n'.GenuineIn P K where
  bound := by rw [hpp]; exact h.bound
  request := by rw [hreq]; exact h.request
  used l hl := by
    by_cases hlk : l = k
    · rw [hlk]
      exact hk
    · rw [SafePbft.stateAt, hstate, GoMap.at, Finmap.lookup_insert_of_ne _ hlk] at hl
      exact h.used l hl

theorem Node.GenuineIn.congr (h : n.GenuineIn P K) {n' : Node}
    (hpp : n'.pbft.logPrePrepareMsg = n.pbft.logPrePrepareMsg)
    (hreq : n'.pbft.logRequest = n.pbft.logRequest) (hstate : n'.pbft.state = n.pbft.state) :
    n'.GenuineIn P K where
  bound := by rw [hpp]; exact h.bound
  request := by rw [hreq]; exact h.request
  used := by simp only [SafePbft.stateAt, hstate]; exact h.used

theorem Node.GenuineIn.propose (h : n.GenuineIn P K) {n' : Node} {k : ℕ} {r : PbftRequest}
    {d : String} (hd : d = P.getDigest r) (hk : K k r)
    (hpp : n'.pbft.logPrePrepareMsg = n.pbft.logPrePrepareMsg.insert k d)
    (hreq : n'.pbft.logRequest = n.pbft.logRequest.insert d r)
    (hstate : ∀ l, n'.pbft.stateAt l ≠ 0 → n.pbft.stateAt l ≠ 0) : n'.GenuineIn P K where
  bound l e hl := by
    rw [hpp] at hl
    by_cases hlk : l = k
    · subst hlk
      rw [Finmap.lookup_insert] at hl
      exact ⟨r, hk, hd.symm.trans (Option.some.inj hl)⟩
    · rw [Finmap.lookup_insert_of_ne _ hlk] at hl
      exact h.bound l e hl
  request e r' hr := by
    rw [hreq] at hr
    by_cases hed : e = d
    · subst hed
      rw [Finmap.lookup_insert] at hr
      exact ⟨k, Option.some.inj hr ▸ hk⟩
    · rw [Finmap.lookup_insert_of_ne _ hed] at hr
      exact h.request e r' hr
  used l hl := h.used l (hstate l hl)

theorem Node.Effect.genuineIn (h : n.Effect P m r) (hrole : n.pbft.role = 0)
    (hn : n.GenuineIn P K) (hm : m.GenuineIn P K) :
    r.node.GenuineIn P K ∧ ∀ m' ∈ r.sent, m'.GenuineIn P K := by
  have hsame {k : ℕ} : (if n.pbft.role = 1 then k + 1 else k) = k := if_neg (by omega)
  cases h with
  | idle same => rw [same.node, same.sent]; exact ⟨hn, by simp⟩
  | pbftTLC tlc => exact hm.elim
  | conflict => exact ⟨hn.congr rfl rfl rfl, by simp⟩
  | @prePrepare pp admits digest fresh =>
    refine ⟨hn.propose digest.symm hm.1 rfl rfl fun _ hl => hl, ?_⟩
    intro m' hm'
    rw [List.mem_singleton.mp hm']
    change DigestIn P K (if n.pbft.role = 1 then pp.pbftID + 1 else pp.pbftID) pp.digest
    rw [hsame]
    exact ⟨_, hm.1, digest⟩
  | prepare => exact ⟨hn.congr rfl rfl rfl, by simp⟩
  | @prepared pre admits enough =>
    refine ⟨hn.setState rfl rfl rfl (hm.imp fun _ h => h.1), ?_⟩
    intro m' hm'
    rw [List.mem_singleton.mp hm']
    change DigestIn P K (if n.pbft.role = 1 then pre.pbftID + 1 else pre.pbftID) pre.digest
    rw [hsame]
    exact hm
  | commit => exact ⟨hn.congr rfl rfl rfl, by simp⟩
  | noPeers => exact ⟨hn.setState rfl rfl rfl (hm.imp fun _ h => h.1), by simp⟩
  | committed => exact ⟨hn.setState rfl rfl rfl (hm.imp fun _ h => h.1), by simp⟩
  | checkpoint => exact ⟨hn.congr rfl rfl rfl, by simp⟩

theorem Node.tagSection_genuineIn (n : Node) (call : TagCall) (hn : n.GenuineIn P K)
    (hk : K (n.tagAssigned call).pbftID (n.tagRequest call)) :
    (n.tagSection P call).node.GenuineIn P K ∧
      ∀ m' ∈ (n.tagSection P call).sent, m'.GenuineIn P K := by
  obtain ⟨hreq, hpp⟩ := n.tagAssigned_logs call
  have hstate (l : ℕ) (hl : (n.tagAssigned call).stateAt l ≠ 0) : n.pbft.stateAt l ≠ 0 := by
    rw [tagAssigned_state] at hl
    split_ifs at hl with hnew
    · exact absurd rfl hl
    · exact hl
  have hstored : (n.tagStored P call).GenuineIn P K :=
    hn.propose rfl hk (by rw [← hpp]; rfl) (by rw [← hreq]; rfl) hstate
  unfold Node.tagSection
  split_ifs
  · refine ⟨hstored.congr rfl rfl rfl, ?_⟩
    simp [Message.GenuineIn, Node.tagPrePrepare, hk]
  · refine ⟨hstored, ?_⟩
    simp [Message.GenuineIn, Node.tagPrePrepare, hk]

/-- A step keeps a peer genuine, with its new proposals added to the relation. -/
theorem Peer.Effect.genuineIn {e : PeerEvent} (h : p.Effect P e q) (hrole : p.node.pbft.role = 0)
    (hp : p.GenuineIn P K) (hm : ∀ m, e = .receive m → m.GenuineIn P K)
    (hnew : ∀ pp, .prePrepare pp ∈ q.sent → K pp.pbftID pp.requestMessage) : q.GenuineIn P K := by
  have hafter {p' : Peer} {r : Handled} (hsent : p'.sent = p.sent)
      (hr : r.node.GenuineIn P K ∧ ∀ m' ∈ r.sent, m'.GenuineIn P K) :
      (p'.after r).GenuineIn P K := by
    refine ⟨hr.1, fun m' hm' => ?_⟩
    rcases List.mem_append.mp hm' with hold | hnew
    · exact hp.sent m' (hsent ▸ hold)
    · exact hr.2 m' hnew
  cases h with
  | receive m effect => exact hafter rfl (effect.genuineIn hrole hp.node (hm m rfl))
  | tag name mh =>
    unfold Peer.tag
    split_ifs
    · exact ⟨hp.node.congr rfl rfl rfl, hp.sent⟩
    · exact hp
    · exact ⟨hp.node, hp.sent⟩
  | verify => exact ⟨hp.node, hp.sent⟩
  | @propose i call call_at pc free =>
    refine hafter rfl (p.node.tagSection_genuineIn call hp.node ?_)
    refine hnew (p.node.tagPrePrepare P call) (List.mem_append_right _ ?_)
    exact ((p.node.tagSection_spec P call).2.2 _).mpr rfl

end JobPortal
