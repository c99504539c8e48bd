import JobPortal.PbftPrefix
import JobPortal.PbftAuthenticity

/-! Progress of the PBFT part. Whatever faulty members have sent so far, the honest ones can
commit a new request of any of them on their own, as long as they are enough, no honest peer
was left with its lock held, and none has seen a PrePrepare for the ID yet. -/
namespace JobPortal

open Hex Runs

variable (P : Primitives)

/-- The key files of an address belong together. -/
def Primitives.KeyPair (addr : String) : Prop :=
  ∀ d, P.verifies addr d (P.signRSA (decodeString d) (P.getPrivateKey addr)) = true

def PrepareMessage.Backs (pre : PrepareMessage) (k : ℕ) (d : String) : Prop :=
  pre.pbftID = k ∧ pre.digest = d ∧ P.verifies pre.srcAddr pre.digest pre.signature = true

def CommitMessage.Backs (c : CommitMessage) (k : ℕ) (d : String) : Prop :=
  c.pbftID = k ∧ c.digest = d ∧ P.verifies c.srcAddr c.digest c.signature = true

namespace Peer

def receiveAll (p : Peer) (ms : List Message) : Peer :=
  ms.foldl (fun p m => p.after (p.node.exec P m)) p

theorem receiveAll_run (p : Peer) (ms : List Message) :
    Run (step P) (fun _ e => ∃ m ∈ ms, e = .receive m) p (ms.map .receive)
      (p.receiveAll P ms) := by
  induction ms using List.reverseRecOn with
  | nil => exact .nil
  | append_singleton ms m ih =>
    rw [List.map_append, receiveAll, List.foldl_append]
    refine .snoc (ih.imp ?_) ⟨m, by simp, rfl⟩ rfl
    rintro p e ⟨m', hm', rfl⟩
    exact ⟨m', List.mem_append_left _ hm', rfl⟩

/-- A peer that runs as `x` among `N` peers, with its lock free. -/
structure Ready (p : Peer) (x : String) (N : ℕ) : Prop where
  myAddr : p.node.myAddr = x
  addr : p.node.pbft.addr = x
  privateKeyRSA : p.node.pbft.privateKeyRSA = P.getPrivateKey x
  role : p.node.pbft.role = 0
  totalPeers : p.node.totalPeers = N
  free : p.node.pbft.lock = false

structure Holds (p : Peer) (k : ℕ) (r : PbftRequest) : Prop where
  bound : p.node.pbft.logPrePrepareMsg.lookup k = some (P.getDigest r)
  request : p.node.pbft.logRequest.lookup (P.getDigest r) = some r

structure Prepared (p : Peer) (x : String) (k : ℕ) (d : String) : Prop where
  state : p.node.pbft.state.lookup k = some 1
  own : p.node.pbft.logCommitMsg.recorded x k = some d
  sent : ∃ c, .commit c ∈ p.sent ∧ c.srcAddr = x ∧ c.Backs P k d

structure Stored (p : Peer) (bs : List (ℕ × PbftchainBlock)) (k : ℕ) (r : PbftRequest) :
    Prop where
  state : p.node.pbft.state.lookup k = some 2
  appended : ∃ b, p.appended = bs ++ [(k, b)] ∧ b.request = r
  bound : p.node.hrStorage.hrNaming.get r.idhr r.filename = some (utf8 r.metahash)

/-- A peer at work on an ID: it knows the request, the Prepares of `S` are in, and the ID is
prepared or not used yet. -/
structure Gathers (p : Peer) (x : String) (N k : ℕ) (r : PbftRequest) (S : Finset String)
    (bs : List (ℕ × PbftchainBlock)) : Prop where
  ready : p.Ready P x N
  holds : p.Holds P k r
  votes : ∀ z ∈ S, p.node.pbft.logPrepareMsg.recorded z k = some (P.getDigest r)
  phase : p.node.pbft.stateAt k = 0 ∨ p.Prepared P x k (P.getDigest r)
  appended : p.appended = bs

/-- The same for the Commits: the ID is prepared, or its block is there. -/
structure Confirms (p : Peer) (x : String) (N k : ℕ) (r : PbftRequest) (S : Finset String)
    (bs : List (ℕ × PbftchainBlock)) : Prop where
  ready : p.Ready P x N
  holds : p.Holds P k r
  votes : ∀ z ∈ S, p.node.pbft.logCommitMsg.recorded z k = some (P.getDigest r)
  phase : p.node.pbft.state.lookup k = some 1 ∧ p.appended = bs ∨ p.Stored bs k r

variable {P} {p : Peer} {x : String} {N k : ℕ} {r : PbftRequest} {S : Finset String}
  {bs : List (ℕ × PbftchainBlock)}

theorem Ready.after (h : p.Ready P x N) {m : Message} {r : Handled} (heff : p.node.Effect P m r)
    (hfree : r.node.pbft.lock = false) : (p.after r).Ready P x N := by
  have hconf := heff.sameConfig P
  exact ⟨hconf.myAddr.trans h.myAddr, hconf.addr.trans h.addr,
    hconf.privateKeyRSA.trans h.privateKeyRSA, hconf.role.trans h.role,
    hconf.totalPeers.trans h.totalPeers, hfree⟩

theorem Ready.admits (h : p.Ready P x N) {src d : String} {sig : Bytes} (hsrc : src ≠ x)
    (hsig : P.verifies src d sig = true) : p.node.Admits P src d sig :=
  ⟨by rw [h.myAddr]; exact hsrc, hsig, h.free⟩

theorem Holds.card_le (h : p.Holds P k r) {log : DigestLog}
    (hvotes : ∀ z ∈ S, log.recorded z k = some (P.getDigest r)) :
    S.card ≤ (p.node.pbft.matching log k).card := by
  apply Finset.card_le_card
  intro z hz
  rw [SafePbft.mem_matching _ h.bound (P.getDigest_ne_empty r)]
  exact hvotes z hz

/-- A vote more on record. -/
theorem recorded_insert {log : DigestLog} {d : String} (src : String)
    (hvotes : ∀ z ∈ S, log.recorded z k = some d) :
    ∀ z ∈ insert src S, (log.record src k d).recorded z k = some d := by
  intro z hz
  rw [DigestLog.recorded_record]
  split_ifs with hsrc
  · rfl
  · exact hvotes z (Finset.mem_of_mem_insert_of_ne hz fun h => hsrc ⟨h, rfl⟩)

theorem Ready.receive_prePrepare (h : p.Ready P x N) (hkey : P.KeyPair x)
    {pp : PrePrepareMessage} (hpp : pp.digest = P.getDigest pp.requestMessage)
    (hsrc : pp.srcAddr ≠ x) (hsig : P.verifies pp.srcAddr pp.digest pp.signature = true)
    (hnone : p.node.pbft.logPrePrepareMsg.lookup pp.pbftID = none)
    (hstate : p.node.pbft.stateAt pp.pbftID = 0) :
    let q := p.after (p.node.exec P (.prePrepare pp))
    q.Gathers P x N pp.pbftID pp.requestMessage {x} p.appended ∧
      ∃ pre, .prepare pre ∈ q.sent ∧ pre.srcAddr = x ∧ pre.Backs P pp.pbftID pp.digest := by
  have hconf : ¬ p.node.Conflicts pp := by
    rintro ⟨d, hd, _⟩
    rw [hnone] at hd
    cases hd
  have hexec : p.node.exec P (.prePrepare pp) =
      { node := p.node.storePrePrepare pp, sent := [.prepare (p.node.prepareOf P pp)]
        signed := [decodeString pp.digest] } := by
    change p.node.execPrePrepareMessage P pp = _
    rw [Node.execPrePrepareMessage, if_neg (by rw [h.myAddr]; exact hsrc),
      if_neg (by simp [hpp]), if_neg (by simp [hsig]), if_neg (by simp [h.free]), if_neg hconf]
  rw [hexec]
  have hready := h.after (.prePrepare (h.admits hsrc hsig) hpp.symm hconf) h.free
  refine ⟨⟨hready, ⟨?_, ?_⟩, ?_, .inl hstate, List.append_nil _⟩, p.node.prepareOf P pp,
    by simp [Peer.after], h.addr, ?_, rfl, ?_⟩
  · simp [Peer.after, Node.storePrePrepare, hpp]
  · simp [Peer.after, Node.storePrePrepare, hpp]
  · intro z hz
    obtain rfl := Finset.mem_singleton.mp hz
    simp [Peer.after, Node.storePrePrepare, h.addr, hpp]
  · exact if_neg (by rw [h.role]; decide)
  · simp only [Node.prepareOf, h.addr, h.privateKeyRSA]
    exact hkey pp.digest

/-- One Prepare more. Once they make a quorum the ID is prepared. -/
theorem Gathers.receive (h : p.Gathers P x N k r S bs) (hkey : P.KeyPair x)
    {pre : PrepareMessage} (hpre : pre.Backs P k (P.getDigest r)) (hsrc : pre.srcAddr ≠ x) :
    let q := p.after (p.node.exec P (.prepare pre))
    q.Gathers P x N k r (insert pre.srcAddr S) bs ∧
      (N / 3 * 2 ≤ (insert pre.srcAddr S).card → q.Prepared P x k (P.getDigest r)) := by
  obtain ⟨rfl, hdigest, hsig⟩ := hpre
  have hadmits := h.ready.admits hsrc hsig
  have hvotes := recorded_insert pre.srcAddr h.votes
  rw [← hdigest] at hvotes
  have hcard : (insert pre.srcAddr S).card ≤ ((p.node.storePrepare pre).pbft.matching
      (p.node.storePrepare pre).pbft.logPrepareMsg pre.pbftID).card := by
    have hholds : Holds P (p.after { node := p.node.storePrepare pre }) pre.pbftID r :=
      ⟨h.holds.bound, h.holds.request⟩
    exact hholds.card_le (by rw [← hdigest]; exact hvotes)
  by_cases henough : (p.node.storePrepare pre).Prepares pre.pbftID
  · have hexec : p.node.exec P (.prepare pre) =
        { node := (p.node.storePrepare pre).enterPrepared pre
          sent := [.commit ((p.node.storePrepare pre).commitOf P pre)]
          signed := [decodeString pre.digest] } := by
      change p.node.execPrepareMessage P pre = _
      rw [Node.execPrepareMessage, Node.checked_of_admits P _ hadmits]
      exact if_pos henough
    rw [hexec]
    have hready := h.ready.after (.prepared hadmits henough) h.ready.free
    have hprepared : Prepared P (p.after
        { node := (p.node.storePrepare pre).enterPrepared pre
          sent := [.commit ((p.node.storePrepare pre).commitOf P pre)]
          signed := [decodeString pre.digest] }) x pre.pbftID (P.getDigest r) := by
      refine ⟨Finmap.lookup_insert _, ?_, (p.node.storePrepare pre).commitOf P pre,
        by simp [Peer.after], h.ready.addr, ?_, hdigest, ?_⟩
      · simp [Peer.after, Node.enterPrepared, Node.storePrepare, h.ready.addr, hdigest]
      · exact if_neg (by
          change p.node.pbft.role ≠ 1
          rw [h.ready.role]
          decide)
      · have hpair := hkey pre.digest
        rw [← h.ready.privateKeyRSA] at hpair
        change P.verifies p.node.pbft.addr pre.digest _ = true
        rw [h.ready.addr]
        exact hpair
    exact ⟨⟨hready, ⟨h.holds.bound, h.holds.request⟩, by rw [← hdigest]; exact hvotes,
      .inr hprepared, (List.append_nil _).trans h.appended⟩, fun _ => hprepared⟩
  · have hexec : p.node.exec P (.prepare pre) = { node := p.node.storePrepare pre } := by
      change p.node.execPrepareMessage P pre = _
      rw [Node.execPrepareMessage, Node.checked_of_admits P _ hadmits]
      exact if_neg henough
    rw [hexec]
    have hready := h.ready.after (.prepare hadmits henough) h.ready.free
    have hkept (hold : p.Prepared P x pre.pbftID (P.getDigest r)) :
        Prepared P (p.after { node := p.node.storePrepare pre }) x pre.pbftID (P.getDigest r) := by
      obtain ⟨hstate, hown, c, hc, hspec⟩ := hold
      exact ⟨hstate, hown, c, List.mem_append_left _ hc, hspec⟩
    refine ⟨⟨hready, ⟨h.holds.bound, h.holds.request⟩, by rw [← hdigest]; exact hvotes,
      h.phase.imp_right hkept, (List.append_nil _).trans h.appended⟩, fun hquorum => ?_⟩
    rcases h.phase with hfresh | hold
    · have htotal : (p.node.storePrepare pre).totalPeers = N := h.ready.totalPeers
      exact absurd ⟨by rw [htotal]; exact hquorum.trans hcard, hfresh⟩ henough
    · exact hkept hold

theorem Gathers.receiveAll (h : p.Gathers P x N k r S bs) (hkey : P.KeyPair x)
    {pres : List PrepareMessage} (hpres : ∀ pre ∈ pres, pre.Backs P k (P.getDigest r))
    (hsrc : ∀ pre ∈ pres, pre.srcAddr ≠ x) :
    let q := p.receiveAll P (pres.map .prepare)
    q.Gathers P x N k r (S ∪ (pres.map (·.srcAddr)).toFinset) bs ∧
      (pres ≠ [] → N / 3 * 2 ≤ (S ∪ (pres.map (·.srcAddr)).toFinset).card →
        q.Prepared P x k (P.getDigest r)) := by
  induction pres using List.reverseRecOn with
  | nil => simpa [Peer.receiveAll] using h
  | append_singleton pres pre ih =>
    obtain ⟨hgathers, _⟩ := ih (fun pre hpre => hpres pre (List.mem_append_left _ hpre))
      fun pre hpre => hsrc pre (List.mem_append_left _ hpre)
    have hset : S ∪ ((pres ++ [pre]).map (·.srcAddr)).toFinset =
        insert pre.srcAddr (S ∪ (pres.map (·.srcAddr)).toFinset) := by
      ext z
      simp
    rw [hset]
    have hnext := hgathers.receive hkey (hpres pre (by simp)) (hsrc pre (by simp))
    simpa [Peer.receiveAll, List.foldl_append] using hnext

theorem Gathers.confirms (h : p.Gathers P x N k r S bs)
    (hprepared : p.Prepared P x k (P.getDigest r)) : p.Confirms P x N k r {x} bs where
  ready := h.ready
  holds := h.holds
  votes z hz := by
    obtain rfl := Finset.mem_singleton.mp hz
    exact hprepared.own
  phase := .inl ⟨hprepared.state, h.appended⟩

theorem Confirms.receive (h : p.Confirms P x N k r S bs) (hN : N ≠ 0) {c : CommitMessage}
    (hc : c.Backs P k (P.getDigest r)) (hsrc : c.srcAddr ≠ x) :
    let q := p.after (p.node.exec P (.commit c))
    q.Confirms P x N k r (insert c.srcAddr S) bs ∧
      (N / 3 * 2 < (insert c.srcAddr S).card → q.Stored bs k r) := by
  obtain ⟨rfl, hdigest, hsig⟩ := hc
  have hadmits := h.ready.admits hsrc hsig
  have hvotes := recorded_insert c.srcAddr h.votes
  rw [← hdigest] at hvotes
  have hcard : (insert c.srcAddr S).card ≤ ((p.node.storeCommit c).pbft.matching
      (p.node.storeCommit c).pbft.logCommitMsg c.pbftID).card := by
    have hholds : Holds P (p.after { node := p.node.storeCommit c }) c.pbftID r :=
      ⟨h.holds.bound, h.holds.request⟩
    exact hholds.card_le (by rw [← hdigest]; exact hvotes)
  by_cases henough : (p.node.storeCommit c).Commits c.pbftID
  · have htotal : (p.node.storeCommit c).totalPeers ≠ 0 := by
      change p.node.totalPeers ≠ 0
      rwa [h.ready.totalPeers]
    have hexec : p.node.exec P (.commit c) =
        { node := ((p.node.storeCommit c).enterCommitted c.pbftID).appendBlock P
            (((p.node.storeCommit c).enterCommitted c.pbftID).committedBlock P c)
          appended := [(c.pbftID,
            ((p.node.storeCommit c).enterCommitted c.pbftID).committedBlock P c)] } := by
      change p.node.execCommitMessage P c = _
      rw [Node.execCommitMessage, Node.checked_of_admits P _ hadmits]
      exact (if_pos henough).trans (if_neg htotal)
    have hrequest : (((p.node.storeCommit c).enterCommitted c.pbftID).committedBlock P c).request =
        r := by
      change p.node.pbft.logRequest.at c.digest .zero = r
      rw [hdigest, GoMap.at, h.holds.request, Option.getD_some]
    have hwaiting : p.appended = bs := by
      rcases h.phase with ⟨_, happ⟩ | hstored
      · exact happ
      · exact absurd (henough.2.symm.trans hstored.state) (by decide)
    have hready := h.ready.after (.committed hadmits henough htotal) h.ready.free
    rw [hexec]
    have hstored : Stored (p.after
        { node := ((p.node.storeCommit c).enterCommitted c.pbftID).appendBlock P
            (((p.node.storeCommit c).enterCommitted c.pbftID).committedBlock P c)
          appended := [(c.pbftID,
            ((p.node.storeCommit c).enterCommitted c.pbftID).committedBlock P c)] })
        bs c.pbftID r := by
      refine ⟨Finmap.lookup_insert _, ⟨_, ?_, hrequest⟩, ?_⟩
      · rw [← hwaiting]
        rfl
      · simp only [Peer.after, Node.appendBlock, HrStore.get_set, hrequest]
        simp
    exact ⟨⟨hready, ⟨h.holds.bound, h.holds.request⟩, by rw [← hdigest]; exact hvotes,
      .inr hstored⟩, fun _ => hstored⟩
  · have hexec : p.node.exec P (.commit c) = { node := p.node.storeCommit c } := by
      change p.node.execCommitMessage P c = _
      rw [Node.execCommitMessage, Node.checked_of_admits P _ hadmits]
      exact if_neg henough
    rw [hexec]
    have hready := h.ready.after (.commit hadmits henough) h.ready.free
    have hkept (hold : p.Stored bs c.pbftID r) :
        Stored (p.after { node := p.node.storeCommit c }) bs c.pbftID r := by
      obtain ⟨b, happ, hb⟩ := hold.appended
      exact ⟨hold.state, ⟨b, (List.append_nil _).trans happ, hb⟩, hold.bound⟩
    refine ⟨⟨hready, ⟨h.holds.bound, h.holds.request⟩, by rw [← hdigest]; exact hvotes,
      h.phase.imp (fun hold => ⟨hold.1, (List.append_nil _).trans hold.2⟩) hkept⟩,
      fun hquorum => ?_⟩
    rcases h.phase with ⟨hstate, _⟩ | hold
    · have htotal : (p.node.storeCommit c).totalPeers = N := h.ready.totalPeers
      exact absurd ⟨by rw [htotal]; exact hquorum.trans_le hcard, hstate⟩ henough
    · exact hkept hold

theorem Confirms.receiveAll (h : p.Confirms P x N k r S bs) (hN : N ≠ 0)
    {cs : List CommitMessage} (hcs : ∀ c ∈ cs, c.Backs P k (P.getDigest r))
    (hsrc : ∀ c ∈ cs, c.srcAddr ≠ x) :
    let q := p.receiveAll P (cs.map .commit)
    q.Confirms P x N k r (S ∪ (cs.map (·.srcAddr)).toFinset) bs ∧
      (cs ≠ [] → N / 3 * 2 < (S ∪ (cs.map (·.srcAddr)).toFinset).card → q.Stored bs k r) := by
  induction cs using List.reverseRecOn with
  | nil => simpa [Peer.receiveAll] using h
  | append_singleton cs c ih =>
    obtain ⟨hconfirms, _⟩ := ih (fun c hc => hcs c (List.mem_append_left _ hc))
      fun c hc => hsrc c (List.mem_append_left _ hc)
    have hset : S ∪ ((cs ++ [c]).map (·.srcAddr)).toFinset =
        insert c.srcAddr (S ∪ (cs.map (·.srcAddr)).toFinset) := by
      ext z
      simp
    rw [hset]
    have hnext := hconfirms.receive hN (hcs c (by simp)) (hsrc c (by simp))
    simpa [Peer.receiveAll, List.foldl_append] using hnext

theorem exists_votes {A : Type} {T : Finset String} (hT : T.Nonempty) (src : A → String)
    (ok : A → Prop) (h : ∀ z ∈ T, ∃ m, src m = z ∧ ok m) :
    ∃ ms : List A, ms ≠ [] ∧ (∀ m ∈ ms, src m ∈ T ∧ ok m) ∧ (ms.map src).toFinset = T := by
  obtain ⟨z₀, hz₀⟩ := hT
  have : Nonempty A := ⟨(h z₀ hz₀).choose⟩
  choose! vote hsrc hok using h
  refine ⟨T.toList.map vote, ?_, ?_, ?_⟩
  · intro hnil
    rw [List.map_eq_nil_iff, Finset.toList_eq_nil] at hnil
    simp [hnil] at hz₀
  · intro m hm
    obtain ⟨z, hz, rfl⟩ := List.mem_map.mp hm
    have hz := Finset.mem_toList.mp hz
    exact ⟨by rw [hsrc z hz]; exact hz, hok z hz⟩
  · ext z
    simp only [List.map_map, List.mem_toFinset, List.mem_map, Finset.mem_toList,
      Function.comp_apply]
    constructor
    · rintro ⟨y, hy, rfl⟩
      rwa [hsrc y hy]
    · exact fun hz => ⟨z, hz, hsrc z hz⟩

/-- The Prepares of a quorum are there to be received. -/
theorem Gathers.exists_prepared (h : p.Gathers P x N k r S bs) (hkey : P.KeyPair x)
    {T : Finset String} (hT : T.Nonempty) (hx : x ∉ T) (hquorum : N / 3 * 2 ≤ (S ∪ T).card)
    (ok : Message → Prop) (hpres : ∀ z ∈ T, ∃ pre : PrepareMessage, pre.srcAddr = z ∧
      pre.Backs P k (P.getDigest r) ∧ ok (.prepare pre)) :
    ∃ ms, (∀ m ∈ ms, ok m) ∧ (p.receiveAll P ms).Confirms P x N k r {x} bs ∧
      (p.receiveAll P ms).Prepared P x k (P.getDigest r) := by
  obtain ⟨pres, hne, hspec, hset⟩ := exists_votes hT PrepareMessage.srcAddr
    (fun pre => pre.Backs P k (P.getDigest r) ∧ ok (.prepare pre)) hpres
  obtain ⟨hgathers, hprepared⟩ := h.receiveAll hkey (fun pre hpre => (hspec pre hpre).2.1)
    fun pre hpre hsrc => hx (hsrc ▸ (hspec pre hpre).1)
  have hdone := hprepared hne (by rw [hset]; exact hquorum)
  exact ⟨pres.map .prepare, by simpa using fun pre hpre => (hspec pre hpre).2.2,
    hgathers.confirms hdone, hdone⟩

theorem Confirms.exists_stored (h : p.Confirms P x N k r S bs) (hN : N ≠ 0)
    {T : Finset String} (hT : T.Nonempty) (hx : x ∉ T) (hquorum : N / 3 * 2 < (S ∪ T).card)
    (ok : Message → Prop) (hcs : ∀ z ∈ T, ∃ c : CommitMessage, c.srcAddr = z ∧
      c.Backs P k (P.getDigest r) ∧ ok (.commit c)) :
    ∃ ms, (∀ m ∈ ms, ok m) ∧ (p.receiveAll P ms).Ready P x N ∧
      (p.receiveAll P ms).Stored bs k r := by
  obtain ⟨cs, hne, hspec, hset⟩ := exists_votes hT CommitMessage.srcAddr
    (fun c => c.Backs P k (P.getDigest r) ∧ ok (.commit c)) hcs
  obtain ⟨hconfirms, hstored⟩ := h.receiveAll hN (fun c hc => (hspec c hc).2.1)
    fun c hc hsrc => hx (hsrc ▸ (hspec c hc).1)
  exact ⟨cs.map .commit, by simpa using fun c hc => (hspec c hc).2.2, hconfirms.ready,
    hstored hne (by rw [hset]; exact hquorum)⟩

theorem tagSection_request (n : Node) (call : TagCall) :
    let r := n.tagSection P call
    r.node.pbft.lock = n.pbft.lock ∧ r.node.pbft.logRequest.lookup
      (P.getDigest (n.tagRequest call)) = some (n.tagRequest call) := by
  have hlock : (n.tagAssigned call).lock = n.pbft.lock := by
    unfold Node.tagAssigned
    split_ifs <;> rfl
  unfold Node.tagSection
  split_ifs <;> simp [Node.tagStored, Node.recordCheckpoint, hlock]

theorem Ready.propose (h : p.Ready P x N) (hN : 2 ≤ N) (hkey : P.KeyPair x) {name mh : String}
    (hname : p.node.hrStorage.hrNaming.get x name = none) (hmh : mh ≠ "") :
    ∃ es q, Run (step P) (fun _ e => ∀ m, e ≠ .receive m) p es q ∧
      q.Gathers P x N (p.node.pbft.pbftID + N) ⟨x, name, mh⟩ ∅ p.appended ∧
      q.calls = p.calls ++ [{ name := name, mh := mh, flag := true }] ∧
      ∃ pp, .prePrepare pp ∈ q.sent ∧ pp.srcAddr = x ∧ pp.pbftID = p.node.pbft.pbftID + N ∧
        pp.requestMessage = ⟨x, name, mh⟩ ∧ pp.digest = P.getDigest ⟨x, name, mh⟩ ∧
        P.verifies x pp.digest pp.signature = true := by
  let entered : Peer := { p with calls := p.calls ++ [{ name := name, mh := mh }] }
  have htag : p.step P (.tag name mh) = some entered := by
    simp only [step, Peer.tag, h.totalPeers, h.myAddr, hname]
    rw [if_neg (by omega)]
    rfl
  obtain ⟨call, hcall⟩ : ∃ call : TagCall, call = { name := name, mh := mh, pc := .proposing } :=
    ⟨_, rfl⟩
  let waiting : Peer := { p with calls := p.calls ++ [call] }
  have hverify : entered.step P (.verify p.calls.length) = some waiting := by
    have hundone : ¬ p.node.tagDone { name := name, mh := mh } := by
      intro hdone
      rw [Node.tagDone, h.myAddr, hname] at hdone
      exact hmh (utf8_injective hdone.symm)
    have hat : entered.calls[p.calls.length]? = some { name := name, mh := mh } := by
      simp [entered]
    simp only [step, hat]
    rw [if_pos trivial, Peer.verify, if_neg hundone]
    simp [entered, waiting, hcall]
  have hpropose : waiting.step P (.propose p.calls.length) =
      some (waiting.propose P p.calls.length call) := by
    have hat : waiting.calls[p.calls.length]? = some call := by simp [waiting]
    simp only [step, hat]
    exact if_pos ⟨by rw [hcall], h.free⟩
  have hrun : Run (step P) (fun _ e => ∀ m, e ≠ .receive m) p
      [.tag name mh, .verify p.calls.length, .propose p.calls.length]
      (waiting.propose P p.calls.length call) :=
    .snoc (.snoc (.one (by simp) htag) (by simp) hverify) (by simp) hpropose
  have hflag : call.flag = false := by rw [hcall]
  have hid : (p.node.tagAssigned call).pbftID = p.node.pbft.pbftID + N := by
    rw [Node.tagAssigned_pbftID, hflag, h.totalPeers]
    exact if_neg (by decide)
  have hrequest : p.node.tagRequest call = ⟨x, name, mh⟩ := by
    rw [Node.tagRequest, h.myAddr, hcall]
  have hconf := Node.tagSection_sameConfig P p.node call
  obtain ⟨hlog, _, hsent⟩ := p.node.tagSection_spec P call
  obtain ⟨hlock, hlogged⟩ := tagSection_request (P := P) p.node call
  have hstate := tagSection_state (P := P) p.node call (p.node.pbft.pbftID + N)
  rw [hid, hrequest] at hlog
  rw [hrequest] at hlogged
  rw [hflag, h.totalPeers, if_pos ⟨rfl, rfl⟩] at hstate
  have hready : (waiting.propose P p.calls.length call).Ready P x N :=
    ⟨hconf.myAddr.trans h.myAddr, hconf.addr.trans h.addr,
      hconf.privateKeyRSA.trans h.privateKeyRSA, hconf.role.trans h.role,
      hconf.totalPeers.trans h.totalPeers, hlock.trans h.free⟩
  have hbound : (waiting.propose P p.calls.length call).node.pbft.logPrePrepareMsg.lookup
      (p.node.pbft.pbftID + N) = some (P.getDigest ⟨x, name, mh⟩) := by
    change (p.node.tagSection P call).node.pbft.logPrePrepareMsg.lookup _ = _
    rw [hlog, Finmap.lookup_insert]
  have hcalls : (waiting.propose P p.calls.length call).calls =
      p.calls ++ [{ name := name, mh := mh, flag := true }] := by
    simp [Peer.propose, Peer.after, waiting, hcall]
  refine ⟨_, _, hrun, ⟨hready, ⟨hbound, hlogged⟩, by simp, .inl hstate,
    waiting.propose_appended P _ _⟩, hcalls, p.node.tagPrePrepare P call,
    List.mem_append_right _ ((hsent _).mpr rfl), h.myAddr, hid, hrequest,
    congrArg P.getDigest hrequest, ?_⟩
  simp only [Node.tagPrePrepare, h.privateKeyRSA]
  exact hkey _

theorem Stored.verify {q : Peer} {name mh : String} (hq : q.Stored bs k ⟨x, name, mh⟩)
    (haddr : q.node.myAddr = x) {calls : List TagCall}
    (hcalls : q.calls = calls ++ [{ name := name, mh := mh, flag := true }]) :
    q.step P (.verify calls.length) = some { q with
      calls := calls ++ [{ name := name, mh := mh, flag := true, pc := .returned }] } := by
  have hat : q.calls[calls.length]? = some { name := name, mh := mh, flag := true } := by
    simp [hcalls]
  have hdone : q.node.tagDone { name := name, mh := mh, flag := true } := by
    rw [Node.tagDone, haddr, hq.bound]
    rfl
  simp only [step, hat]
  rw [if_pos trivial, Peer.verify, if_pos hdone]
  simp [hcalls]

theorem receiveAll_calls (p : Peer) (ms : List Message) : (p.receiveAll P ms).calls = p.calls := by
  induction ms generalizing p with
  | nil => rfl
  | cons m ms ih => exact ih _

end Peer

/-- An ID leaves the fresh state only once it is bound to a digest. -/
def Node.UsedBound (n : Node) : Prop :=
  ∀ k, n.pbft.stateAt k ≠ 0 → n.pbft.logPrePrepareMsg.lookup k ≠ none

variable {P} {n : Node} {m : Message} {r : Handled}

theorem Node.UsedBound.setState (h : n.UsedBound) {k phase : ℕ}
    (hk : n.pbft.logPrePrepareMsg.lookup k ≠ none) :
    Node.UsedBound { n with pbft := n.pbft.setState k phase } := by
  intro l hl
  by_cases hlk : l = k
  · rw [hlk]
    exact hk
  · rw [SafePbft.stateAt_setState_of_ne _ hlk] at hl
    exact h l hl

theorem Node.UsedBound.insert (pbft : SafePbft) {k : ℕ} {d : String} (h : n.UsedBound)
    (hstate : ∀ l, l ≠ k → pbft.stateAt l ≠ 0 → n.pbft.stateAt l ≠ 0)
    (hlog : pbft.logPrePrepareMsg = n.pbft.logPrePrepareMsg.insert k d) :
    Node.UsedBound { n with pbft := pbft } := by
  intro l hl
  change pbft.logPrePrepareMsg.lookup l ≠ none
  rw [hlog]
  by_cases hlk : l = k
  · rw [hlk, Finmap.lookup_insert]
    simp
  · rw [Finmap.lookup_insert_of_ne _ hlk]
    exact h l (hstate l hlk hl)

theorem Node.Effect.usedBound (h : n.Effect P m r) (hpeers : 3 ≤ n.totalPeers)
    (hn : n.UsedBound) : r.node.UsedBound := by
  cases h with
  | idle same => rwa [same.node]
  | pbftTLC tlc =>
    obtain ⟨hlogs, _⟩ := n.execPbftTLCMessage_frame P tlc
    intro k hk
    rw [SafePbft.stateAt, hlogs.state] at hk
    rw [hlogs.logPrePrepareMsg]
    exact hn k hk
  | conflict => exact hn
  | @prePrepare pp =>
    exact hn.insert (n.storePrePrepare pp).pbft (fun _ _ hl => hl) rfl
  | prepare => exact hn
  | @prepared pre _ enough =>
    refine Node.UsedBound.setState (n := n) hn fun hnone => ?_
    have hempty : (n.storePrepare pre).pbft.matching (n.storePrepare pre).pbft.logPrepareMsg
        pre.pbftID = ∅ := SafePbft.matching_eq_empty _ hnone
    have hquorum := enough.1
    rw [hempty, Finset.card_empty] at hquorum
    have htotal : (n.storePrepare pre).totalPeers = n.totalPeers := rfl
    omega
  | commit => exact hn
  | noPeers _ _ hzero => omega
  | @committed c _ enough =>
    refine Node.UsedBound.setState (n := n) hn (hn c.pbftID ?_)
    have hstate : n.pbft.state.lookup c.pbftID = some 1 := enough.2
    rw [SafePbft.stateAt, GoMap.at, hstate]
    decide
  | checkpoint => exact hn

theorem Peer.Effect.usedBound {p q : Peer} {e : PeerEvent} (h : p.Effect P e q)
    (hpeers : 3 ≤ p.node.totalPeers) (hp : p.node.UsedBound) : q.node.UsedBound := by
  cases h with
  | receive m effect => exact effect.usedBound hpeers hp
  | tag name mh =>
    rw [Node.UsedBound, Peer.tag_pbft]
    exact hp
  | verify => exact hp
  | @propose i call =>
    have hspec := p.node.tagSection_spec P call
    refine hp.insert (p.node.tagSection P call).node.pbft (fun l hl hused => ?_) hspec.1
    rw [tagSection_state] at hused
    split_ifs at hused with hassign
    · exact absurd rfl hused
    · exact hused

/-- Whatever a peer has broadcast under an address it did under its own, with a signature. -/
def Peer.Vouches (p : Peer) : Prop :=
  ∀ m ∈ p.sent, ∀ src ∈ m.srcAddr, src = p.node.myAddr ∧
    ∀ d ∈ m.digest, decodeString d ∈ p.signed

theorem Node.Effect.vouches (h : n.Effect P m r) (haddr : n.pbft.addr = n.myAddr) :
    ∀ m' ∈ r.sent, ∀ src ∈ m'.srcAddr, src = n.myAddr ∧
      ∀ d ∈ m'.digest, decodeString d ∈ r.signed := by
  cases h with
  | idle same => simp [same.sent]
  | pbftTLC tlc =>
    obtain ⟨_, _, _, _, _, hsent⟩ := n.execPbftTLCMessage_frame P tlc
    intro m' hm'
    obtain ⟨t, rfl⟩ := hsent m' hm'
    simp [Message.srcAddr]
  | prePrepare => simp [Message.srcAddr, Message.digest, Node.prepareOf, haddr]
  | @prepared pre =>
    have hsrc : (n.storePrepare pre).pbft.addr = n.myAddr := haddr
    simp [Message.srcAddr, Message.digest, Node.commitOf, hsrc]
  | conflict => simp
  | prepare => simp
  | commit => simp
  | noPeers => simp
  | committed => simp
  | checkpoint => simp

theorem Node.tagSection_vouches (n : Node) (call : TagCall) :
    ∀ m' ∈ (n.tagSection P call).sent, ∀ src ∈ m'.srcAddr, src = n.myAddr ∧
      ∀ d ∈ m'.digest, decodeString d ∈ (n.tagSection P call).signed := by
  unfold Node.tagSection
  split_ifs <;>
    simp [Message.srcAddr, Message.digest, Node.tagPrePrepare, Node.tagCheckpoint]

theorem Peer.Vouches.after {p : Peer} (hp : p.Vouches) (calls : List TagCall) {r : Handled}
    (haddr : r.node.myAddr = p.node.myAddr)
    (hr : ∀ m' ∈ r.sent, ∀ src ∈ m'.srcAddr, src = p.node.myAddr ∧
      ∀ d ∈ m'.digest, decodeString d ∈ r.signed) :
    (Peer.after { p with calls := calls } r).Vouches := by
  intro m hm src hsrc
  change src = r.node.myAddr ∧ ∀ d ∈ m.digest, decodeString d ∈ p.signed ++ r.signed
  rw [haddr]
  rcases List.mem_append.mp hm with hold | hnew
  · obtain ⟨hme, hsigned⟩ := hp m hold src hsrc
    exact ⟨hme, fun d hd => List.mem_append_left _ (hsigned d hd)⟩
  · obtain ⟨hme, hsigned⟩ := hr m hnew src hsrc
    exact ⟨hme, fun d hd => List.mem_append_right _ (hsigned d hd)⟩

theorem Peer.Effect.vouches {p q : Peer} {e : PeerEvent} (h : p.Effect P e q)
    (haddr : p.node.pbft.addr = p.node.myAddr) (hp : p.Vouches) : q.Vouches := by
  cases h with
  | receive m effect =>
    exact hp.after p.calls (effect.sameConfig P).myAddr (effect.vouches haddr)
  | tag name mh =>
    unfold Peer.tag
    split_ifs <;> exact hp
  | verify => exact hp
  | propose =>
    exact hp.after _ (Node.tagSection_sameConfig P _ _).myAddr (Node.tagSection_vouches _ _)

namespace Network

variable {D : Deployment P} {g : Network} {es : List (String × PeerEvent)}

theorem configured_run (hrun : AnyRun (step D) (start D) es g) (x : String) :
    Run (Peer.step P) (fun p _ => (newPeer P (D.conf x)).node.SameConfig p.node)
      (newPeer P (D.conf x)) (eventsOf x es) (g x) :=
  ((peer_run hrun x).with_invariant
    (I := fun p => (newPeer P (D.conf x)).node.SameConfig p.node) (by constructor <;> rfl)
    fun hconf _ hstep => hconf.trans ((Peer.step_effect P hstep).sameConfig P)).imp
    fun _ _ h => h.2

theorem vouches_of_run (hrun : AnyRun (step D) (start D) es g) (x : String) : (g x).Vouches :=
  (configured_run hrun x).invariant (I := Peer.Vouches) (by simp [Peer.Vouches, newPeer])
    fun hp hconf hstep => (Peer.step_effect P hstep).vouches
      (hconf.addr.trans hconf.myAddr.symm) hp

theorem usedBound_of_run (hrun : AnyRun (step D) (start D) es g) (hpeers : 3 ≤ D.members.card)
    (x : String) : (g x).node.UsedBound :=
  (configured_run hrun x).invariant (I := fun p => p.node.UsedBound)
    (fun k hk => absurd (rfl : (newPeer P (D.conf x)).node.pbft.stateAt k = 0) hk)
    fun hp hconf hstep => (Peer.step_effect P hstep).usedBound
      (by rw [hconf.totalPeers]; exact hpeers) hp

/-- What was broadcast can be delivered: its signature, if any, is that of its sender. -/
theorem authentic_of_delivers (hrun : AnyRun (step D) (start D) es g)
    {e : String × PeerEvent} (h : Delivers g e) : Authentic D g e := by
  obtain ⟨x, e⟩ := e
  cases e with
  | receive m =>
    intro src hsrc d hd _ _
    obtain ⟨o, ho⟩ := h
    obtain ⟨rfl, hsigned⟩ := vouches_of_run hrun o m ho src hsrc
    rw [(config hrun o).1]
    exact hsigned d hd
  | tag => trivial
  | verify => trivial
  | propose => trivial

theorem authentic_run {g' : Network} {es' : List (String × PeerEvent)}
    (hrun : AnyRun (step D) (start D) es g) (h : Run (step D) Delivers g es' g') :
    Run (step D) (fun g e => Delivers g e ∧ Authentic D g e) g es' g' := by
  have hreach := h.with_invariant (I := fun g => ∃ es, AnyRun (step D) (start D) es g) ⟨es, hrun⟩
    fun ⟨es, hrun⟩ _ hstep => ⟨_, .snoc hrun trivial hstep⟩
  exact hreach.imp fun g e ⟨hdelivers, es, hrun⟩ =>
    ⟨hdelivers, authentic_of_delivers hrun hdelivers⟩

/-- Some honest peers each receive messages that are under way. -/
theorem exists_deliver {s : Finset String} (hs : s ⊆ D.honest) {Q : String → Peer → Prop}
    (h : ∀ x ∈ s, ∃ ms, (∀ m ∈ ms, ∃ o, m ∈ (g o).sent) ∧ Q x ((g x).receiveAll P ms)) :
    ∃ es' g', Run (step D) Delivers g es' g' ∧ (∀ x ∈ s, Q x (g' x)) ∧
      (∀ x ∉ s, g' x = g x) ∧ ∀ x, (g' x).calls = (g x).calls := by
  choose! ms hms hQ using h
  have hpeer : ∀ x ∈ s, x ∈ D.honest ∧ ∃ es, Run (Peer.step P)
      (fun _ e => ∃ m, e = .receive m ∧ ∃ o, m ∈ (g o).sent) (g x) es
      ((g x).receiveAll P (ms x)) := fun x hx =>
    ⟨hs hx, _, ((g x).receiveAll_run P (ms x)).imp fun _ _ ⟨m, hm, he⟩ => ⟨m, he, hms x hx m hm⟩⟩
  obtain ⟨es', hrun⟩ : ∃ es', Run (step D)
      (fun _ e => ∃ m, e.2 = .receive m ∧ ∃ o, m ∈ (g o).sent) g es'
      (s.piecewise (fun x => (g x).receiveAll P (ms x)) g) :=
    run_finset s hpeer fun _ _ _ h => h
  have hgrows := hrun.with_invariant (I := fun g' => ∀ x, (g x).sent <+: (g' x).sent)
    (fun _ => List.prefix_refl _)
    fun {t u e} hle _ hstep x => (hle x).trans (histories (a := e.1) (e := e.2) hstep x).1
  have hdelivers : Run (step D) Delivers g es' _ := hgrows.imp
    fun g' e ⟨⟨m, he, o, ho⟩, hle⟩ => by
      obtain ⟨x, e⟩ := e
      obtain rfl : e = .receive m := he
      exact ⟨o, (hle o).subset ho⟩
  refine ⟨es', _, hdelivers, fun x hx => ?_, fun x hx => ?_, fun x => ?_⟩
  · rw [Finset.piecewise_eq_of_mem _ _ _ hx]
    exact hQ x hx
  · exact Finset.piecewise_eq_of_notMem _ _ _ hx
  · by_cases hx : x ∈ s
    · rw [Finset.piecewise_eq_of_mem _ _ _ hx, Peer.receiveAll_calls]
    · rw [Finset.piecewise_eq_of_notMem _ _ _ hx]

section Phases

variable {N k : ℕ} {r : PbftRequest} {bs : String → List (ℕ × PbftchainBlock)}

/-- A PrePrepare that is under way reaches peers that do not use its ID yet. -/
theorem exists_gathers {s : Finset String} (hs : s ⊆ D.honest) {o : String}
    {pp : PrePrepareMessage} (hpp : .prePrepare pp ∈ (g o).sent)
    (hdigest : pp.digest = P.getDigest pp.requestMessage)
    (hsig : P.verifies pp.srcAddr pp.digest pp.signature = true)
    (hfresh : ∀ x ∈ s, pp.srcAddr ≠ x ∧ P.KeyPair x ∧ (g x).Ready P x N ∧
      (g x).node.pbft.logPrePrepareMsg.lookup pp.pbftID = none ∧
      (g x).node.pbft.stateAt pp.pbftID = 0) :
    ∃ es' g', Run (step D) Delivers g es' g' ∧
      (∀ x ∈ s, (g' x).Gathers P x N pp.pbftID pp.requestMessage {x} (g x).appended ∧
        ∃ pre, .prepare pre ∈ (g' x).sent ∧ pre.srcAddr = x ∧
          pre.Backs P pp.pbftID pp.digest) ∧
      (∀ x ∉ s, g' x = g x) ∧ ∀ x, (g' x).calls = (g x).calls := by
  obtain ⟨es', g', hrun, hat, hother, hcalls⟩ := exists_deliver hs
    (Q := fun x q => q.Gathers P x N pp.pbftID pp.requestMessage {x} (g x).appended ∧
      ∃ pre, .prepare pre ∈ q.sent ∧ pre.srcAddr = x ∧ pre.Backs P pp.pbftID pp.digest)
    fun x hx => by
      obtain ⟨hsrc, hkey, hready, hnone, hstate⟩ := hfresh x hx
      exact ⟨[.prePrepare pp], by simpa using ⟨o, hpp⟩,
        hready.receive_prePrepare hkey hdigest hsrc hsig hnone hstate⟩
  exact ⟨es', g', hrun, hat, hother, hcalls⟩

/-- The Prepares of the peers in `T` reach all honest peers. -/
theorem exists_prepared {S : String → Finset String} {T : Finset String}
    (hpres : ∀ z ∈ T, ∃ pre, .prepare pre ∈ (g z).sent ∧ pre.srcAddr = z ∧
      pre.Backs P k (P.getDigest r))
    (h : ∀ x ∈ D.honest, (g x).Gathers P x N k r (S x) (bs x))
    (hkeys : ∀ x ∈ D.honest, P.KeyPair x)
    (hquorum : ∀ x ∈ D.honest, (T.erase x).Nonempty ∧ N / 3 * 2 ≤ (S x ∪ T.erase x).card) :
    ∃ es' g', Run (step D) Delivers g es' g' ∧
      (∀ x ∈ D.honest, (g' x).Confirms P x N k r {x} (bs x) ∧
        (g' x).Prepared P x k (P.getDigest r)) ∧ ∀ x, (g' x).calls = (g x).calls := by
  obtain ⟨es', g', hrun, hat, _, hcalls⟩ := exists_deliver (Finset.Subset.refl D.honest)
    (Q := fun x q => q.Confirms P x N k r {x} (bs x) ∧ q.Prepared P x k (P.getDigest r))
    fun x hx => by
      obtain ⟨hne, hcard⟩ := hquorum x hx
      refine (h x hx).exists_prepared (hkeys x hx) hne (Finset.notMem_erase x T) hcard
        (fun m => ∃ o, m ∈ (g o).sent) fun z hz => ?_
      obtain ⟨pre, hsent, hsrc, hbacks⟩ := hpres z (Finset.mem_of_mem_erase hz)
      exact ⟨pre, hsrc, hbacks, z, hsent⟩
  exact ⟨es', g', hrun, hat, hcalls⟩

/-- The Commits of all honest peers reach all honest peers. -/
theorem exists_committed (h : ∀ x ∈ D.honest, (g x).Confirms P x N k r {x} (bs x) ∧
      (g x).Prepared P x k (P.getDigest r))
    (hN : N ≠ 0) (hquorum : N / 3 * 2 < D.honest.card) (htwo : 2 ≤ D.honest.card) :
    ∃ es' g', Run (step D) Delivers g es' g' ∧
      (∀ x ∈ D.honest, (g' x).Ready P x N ∧ (g' x).Stored (bs x) k r) ∧
      ∀ x, (g' x).calls = (g x).calls := by
  obtain ⟨es', g', hrun, hat, _, hcalls⟩ := exists_deliver (Finset.Subset.refl D.honest)
    (Q := fun x q => q.Ready P x N ∧ q.Stored (bs x) k r) fun x hx => by
      have hne : (D.honest.erase x).Nonempty := by
        rw [← Finset.card_pos, Finset.card_erase_of_mem hx]
        omega
      have hall : {x} ∪ D.honest.erase x = D.honest := by
        rw [← Finset.insert_eq, Finset.insert_erase hx]
      refine (h x hx).1.exists_stored hN hne (Finset.notMem_erase x _) (by rwa [hall])
        (fun m => ∃ o, m ∈ (g o).sent) fun z hz => ?_
      obtain ⟨c, hsent, hsrc, hbacks⟩ := (h z (Finset.mem_of_mem_erase hz)).2.sent
      exact ⟨c, hsrc, hbacks, z, hsent⟩
  exact ⟨es', g', hrun, hat, hcalls⟩

end Phases

/-- From any state the honest peers can get to, with any messages of faulty members on record,
a Tag of an honest peer can be brought to its end: every honest peer appends the request, bound
under its name, by messages of honest peers alone. This takes the handlers of the messages to come
to their ends. -/
theorem tag_completes (hrun : AnyRun (step D) (start D) es g)
    (hpeers : 3 ≤ D.members.card) (hquorum : D.members.card / 3 * 2 < D.honest.card)
    (hkeys : ∀ x ∈ D.honest, P.KeyPair x)
    (hfree : ∀ x ∈ D.honest, (g x).node.pbft.lock = false) {a name mh : String}
    (ha : a ∈ D.honest) (hname : (g a).node.hrStorage.hrNaming.get a name = none)
    (hmh : mh ≠ "")
    (hfresh : ∀ x ∈ D.honest.erase a, (g x).node.pbft.logPrePrepareMsg.lookup
      ((g a).node.pbft.pbftID + D.members.card) = none) :
    ∃ es' g', Run (step D) (fun g e => Delivers g e ∧ Authentic D g e) g es' g' ∧
      (∀ x ∈ D.honest, (g' x).node.pbft.lock = false ∧ (g' x).Stored (g x).appended
        ((g a).node.pbft.pbftID + D.members.card) ⟨a, name, mh⟩) ∧
      (g' a).calls =
        (g a).calls ++ [{ name := name, mh := mh, flag := true, pc := .returned }] := by
  have hready (x : String) (hx : x ∈ D.honest) : (g x).Ready P x D.members.card := by
    have hconf := sameConfig_of_run P (peer_run hrun x)
    exact ⟨hconf.myAddr, hconf.addr, hconf.privateKeyRSA, hconf.role, hconf.totalPeers,
      hfree x hx⟩
  have hthree : 3 ≤ D.honest.card := by omega
  obtain ⟨es₀, p, hrun₀, hgathers, hcalls, pp, hpp, hsrc, hid, hrequest, hdigest, hsig⟩ :=
    (hready a ha).propose (by omega) (hkeys a ha) hname hmh
  generalize (g a).node.pbft.pbftID + D.members.card = k at *
  -- the proposer broadcasts its PrePrepare
  obtain ⟨g₀, hg₀⟩ : ∃ g₀ : Network, g₀ = Function.update g a p := ⟨_, rfl⟩
  have hnet₀ : Run (step D) Delivers g (es₀.map fun e => (a, e)) g₀ := by
    rw [hg₀]
    refine hrun₀.lift ha fun g e he => ?_
    cases e with
    | receive m => exact absurd rfl (he m)
    | tag => trivial
    | verify => trivial
    | propose => trivial
  have hself : g₀ a = p := by rw [hg₀, Function.update_self]
  have hother (x : String) (hx : x ≠ a) : g₀ x = g x := by
    rw [hg₀, Function.update_of_ne hx]
  -- the others answer it
  obtain ⟨es₁, g₁, hnet₁, hanswer, hstay, hcalls₁⟩ := exists_gathers (g := g₀) (o := a)
    (N := D.members.card) (Finset.erase_subset a D.honest) (hself ▸ hpp)
    (by rw [hdigest, hrequest]) (by rw [hsrc]; exact hsig) fun x hx => by
      obtain ⟨hne, hx⟩ := Finset.mem_erase.mp hx
      have hnone := hfresh x (Finset.mem_erase.mpr ⟨hne, hx⟩)
      rw [hother x hne, hsrc, hid]
      refine ⟨hne.symm, hkeys x hx, hready x hx, hnone, ?_⟩
      by_contra hused
      exact usedBound_of_run hrun hpeers x k hused hnone
  rw [hid, hrequest, hdigest] at hanswer
  -- the Prepares make a quorum at every honest peer
  have hgathers₁ (x : String) (hx : x ∈ D.honest) : (g₁ x).Gathers P x D.members.card k
      ⟨a, name, mh⟩ (if x = a then ∅ else {x}) (g x).appended := by
    by_cases hxa : x = a
    · rw [if_pos hxa, hxa, hstay a (Finset.notMem_erase a _), hself]
      exact hgathers
    · rw [if_neg hxa, ← hother x hxa]
      exact (hanswer x (Finset.mem_erase.mpr ⟨hxa, hx⟩)).1
  obtain ⟨es₂, g₂, hnet₂, hprepared, hcalls₂⟩ := exists_prepared (g := g₁)
    (T := D.honest.erase a) (fun z hz => (hanswer z hz).2) hgathers₁ hkeys fun x hx => by
      have hcard := Finset.card_erase_of_mem ha
      have hless := Finset.pred_card_le_card_erase (s := D.honest.erase a) (a := x)
      refine ⟨Finset.card_pos.mp (by omega), ?_⟩
      have hvotes : (D.honest.erase a).card ≤
          ((if x = a then ∅ else {x}) ∪ (D.honest.erase a).erase x).card := by
        apply Finset.card_le_card
        intro z hz
        by_cases hzx : z = x
        · rw [hzx, if_neg (hzx ▸ Finset.ne_of_mem_erase hz)]
          exact Finset.mem_union_left _ (Finset.mem_singleton_self x)
        · exact Finset.mem_union_right _ (Finset.mem_erase.mpr ⟨hzx, hz⟩)
      omega
  obtain ⟨es₃, g₃, hnet₃, hstored, hcalls₃⟩ := exists_committed hprepared (by omega) hquorum
    (by omega)
  -- the call sees its name bound
  have hcallsₐ : (g₃ a).calls = (g a).calls ++ [{ name := name, mh := mh, flag := true }] := by
    rw [hcalls₃, hcalls₂, hcalls₁, hself, hcalls]
  obtain ⟨hlast, hbound⟩ := hstored a ha
  have hverify := Peer.Stored.verify (P := P) hbound hlast.myAddr hcallsₐ
  have hend : Run (step D) Delivers g₃ [(a, .verify (g a).calls.length)]
      (Function.update g₃ a { g₃ a with calls :=
        (g a).calls ++ [{ name := name, mh := mh, flag := true, pc := .returned }] }) :=
    .one trivial (by rw [step, each, if_pos ha, hverify, Option.map_some])
  refine ⟨_, _, authentic_run hrun
    ((((hnet₀.append hnet₁).append hnet₂).append hnet₃).append hend), fun x hx => ?_, ?_⟩
  · obtain ⟨hlast, hstored⟩ := hstored x hx
    by_cases hxa : x = a
    · subst hxa
      rw [Function.update_self]
      exact ⟨hlast.free, hstored.state, hstored.appended, hstored.bound⟩
    · rw [Function.update_of_ne hxa]
      exact ⟨hlast.free, hstored⟩
  · rw [Function.update_self]

end Network

namespace Sample

theorem keyPair_of_mem {x : String} (hx : x ∈ addrs) : primitives.KeyPair x := by
  intro d
  have hkey : primitives.getPublicKey x = some (utf8 x) := if_pos hx
  rw [Primitives.verifies, hkey]
  exact decide_eq_true rfl

/-- After D has misled A and B, these and C still complete a Tag of A. -/
theorem tag_completes_misled :
    ∃ es t, Run (Network.step deployment) (fun g e => Network.Delivers g e ∧
        Network.Authentic deployment g e) misled es t ∧
      (∀ x ∈ deployment.honest, (t x).node.pbft.lock = false ∧
        (t x).Stored (misled x).appended
          ((misled "A").node.pbft.pbftID + deployment.members.card) ⟨"A", "f", "m"⟩) ∧
      (t "A").calls =
        (misled "A").calls ++ [{ name := "f", mh := "m", flag := true, pc := .returned }] :=
  Network.tag_completes (run_of_guarded (run_exec_get copied_isSome)).forget (by decide) (by decide)
    (fun _ hx => keyPair_of_mem (Finset.mem_sdiff.mp hx).1) (by decide +kernel) (by decide)
    (by decide +kernel) (by decide) (by decide +kernel)

end Sample

end JobPortal
