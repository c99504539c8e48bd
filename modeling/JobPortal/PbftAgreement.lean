import JobPortal.PbftAuthenticity
import JobPortal.Quorums

/-! Agreement between honest peers. An honest peer broadcasts at most one Commit for each ID
as long as Tag never resets an ID in use; the Commits behind a block are then a certificate,
and two certificates share an honest peer. -/
namespace JobPortal

open Hex Runs Quorums

variable (P : Primitives)

def Peer.Committed (p : Peer) (k : ℕ) (d : String) : Prop :=
  ∃ c, .commit c ∈ p.sent ∧ c.pbftID = k ∧ c.digest = d

theorem Peer.Committed.mono {p q : Peer} {k : ℕ} {d : String} (h : p.Committed k d)
    (hsent : p.sent <+: q.sent) : q.Committed k d := by
  obtain ⟨c, hc, hid, hd⟩ := h
  exact ⟨c, hsent.subset hc, hid, hd⟩

instance (p : Peer) (k : ℕ) (d : String) : Decidable (p.Committed k d) :=
  decidable_of_iff (∃ m ∈ p.sent, (match m with
    | .commit c => decide (c.pbftID = k ∧ c.digest = d)
    | _ => false) = true) <| by
    constructor
    · rintro ⟨m, hm, hc⟩
      cases m with
      | commit c => exact ⟨c, hm, of_decide_eq_true hc⟩
      | _ => cases hc
    · rintro ⟨c, hc, hspec⟩
      exact ⟨.commit c, hc, decide_eq_true hspec⟩

/-- A first pass of Tag gets an ID that is not in use. -/
def Peer.AssignsFresh (p : Peer) : PeerEvent → Prop
  | .propose i => ∀ call ∈ p.calls[i]?, call.flag = false →
      p.node.pbft.stateAt (p.node.pbft.pbftID + p.node.totalPeers) = 0
  | _ => True

variable {P} {p q : Peer} {e : PeerEvent} {n : Node} {m : Message} {r : Handled}

theorem SafePbft.stateAt_setState (s : SafePbft) (k l phase : ℕ) :
    (s.setState k phase).stateAt l = if l = k then phase else s.stateAt l := by
  split_ifs with h
  · rw [h, SafePbft.stateAt_setState_self]
  · exact SafePbft.stateAt_setState_of_ne _ h _

/-- A handler takes no ID back to the fresh state, and sends a Commit only on leaving it. -/
theorem Node.Effect.commit_sent (h : n.Effect P m r) (hrole : n.pbft.role = 0) :
    (∀ k, r.node.pbft.stateAt k = 0 → n.pbft.stateAt k = 0) ∧
    (∀ c, .commit c ∈ r.sent → r.sent = [.commit c] ∧ n.pbft.stateAt c.pbftID = 0 ∧
      r.node.pbft.stateAt c.pbftID = 1) := by
  cases h with
  | idle same => rw [same.node, same.sent]; exact ⟨fun _ hk => hk, by simp⟩
  | pbftTLC tlc =>
    obtain ⟨hlogs, _, _, _, _, hsent⟩ := n.execPbftTLCMessage_frame P tlc
    refine ⟨fun k hk => ?_, fun c hc => ?_⟩
    · rwa [SafePbft.stateAt, hlogs.state] at hk
    · obtain ⟨t, ht⟩ := hsent _ hc
      cases ht
  | conflict => exact ⟨fun _ hk => hk, by simp⟩
  | prePrepare => exact ⟨fun _ hk => hk, by simp⟩
  | prepare => exact ⟨fun _ hk => hk, by simp⟩
  | commit => exact ⟨fun _ hk => hk, by simp⟩
  | checkpoint => exact ⟨fun _ hk => hk, by simp⟩
  | @prepared pre admits enough =>
    have hstate (l : ℕ) : ((n.storePrepare pre).enterPrepared pre).pbft.stateAt l =
        if l = pre.pbftID then 1 else n.pbft.stateAt l :=
      SafePbft.stateAt_setState n.pbft pre.pbftID l 1
    refine ⟨fun k hk => ?_, fun c hc => ?_⟩
    · rw [hstate] at hk
      split_ifs at hk
      exact hk
    · have hcommit : c = (n.storePrepare pre).commitOf P pre := by simpa using hc
      have hid : c.pbftID = pre.pbftID := by
        rw [hcommit]
        apply if_neg
        change n.pbft.role ≠ 1
        omega
      refine ⟨by rw [hcommit], ?_, by rw [hid, hstate, if_pos rfl]⟩
      rw [hid]
      exact enough.2
  | @noPeers c admits enough none =>
    refine ⟨fun k hk => ?_, by simp⟩
    have hstate : (if k = c.pbftID then 2 else n.pbft.stateAt k) = 0 :=
      (SafePbft.stateAt_setState n.pbft c.pbftID k 2).symm.trans hk
    split_ifs at hstate
    exact hstate
  | @committed c admits enough some =>
    refine ⟨fun k hk => ?_, by simp⟩
    have hstate : (if k = c.pbftID then 2 else n.pbft.stateAt k) = 0 :=
      (SafePbft.stateAt_setState n.pbft c.pbftID k 2).symm.trans hk
    split_ifs at hstate
    exact hstate

/-- The only state Tag touches is that of the ID it assigns. -/
theorem tagAssigned_state (n : Node) (call : TagCall) (k : ℕ) :
    (n.tagAssigned call).stateAt k =
      if call.flag = false ∧ k = n.pbft.pbftID + n.totalPeers then 0 else n.pbft.stateAt k := by
  rw [Node.tagAssigned]
  cases call.flag with
  | true => simp
  | false =>
    rw [if_neg (by simp), SafePbft.assignPbftID, SafePbft.stateAt_setState]
    simp [SafePbft.stateAt]

theorem tagSection_state (n : Node) (call : TagCall) (k : ℕ) :
    (n.tagSection P call).node.pbft.stateAt k =
      if call.flag = false ∧ k = n.pbft.pbftID + n.totalPeers then 0 else n.pbft.stateAt k := by
  rw [← tagAssigned_state]
  unfold Node.tagSection
  split_ifs <;> rfl

theorem tagSection_no_commit (n : Node) (call : TagCall) (c : CommitMessage) :
    .commit c ∉ (n.tagSection P call).sent := by
  unfold Node.tagSection
  split_ifs <;> simp

/-- An honest peer has broadcast at most one digest for each ID, and none for a fresh one. -/
structure Peer.CommitsOnce (p : Peer) : Prop where
  once : ∀ k d d', p.Committed k d → p.Committed k d' → d = d'
  used : ∀ k d, p.Committed k d → p.node.pbft.stateAt k ≠ 0

theorem Peer.committed_append {p : Peer} {q : Peer} {ms : List Message}
    (hsent : q.sent = p.sent ++ ms) {k : ℕ} {d : String} (h : q.Committed k d) :
    p.Committed k d ∨ ∃ c, .commit c ∈ ms ∧ c.pbftID = k ∧ c.digest = d := by
  obtain ⟨c, hc, hspec⟩ := h
  rw [hsent] at hc
  rcases List.mem_append.mp hc with hold | hnew
  · exact .inl ⟨c, hold, hspec⟩
  · exact .inr ⟨c, hnew, hspec⟩

theorem Peer.Effect.commitsOnce (h : p.Effect P e q) (hrole : p.node.pbft.role = 0)
    (hfresh : p.AssignsFresh e) (hp : p.CommitsOnce) : q.CommitsOnce := by
  cases h with
  | @receive m r effect =>
    obtain ⟨hstate, hcommit⟩ := effect.commit_sent hrole
    constructor
    · intro k d d' hd hd'
      rcases Peer.committed_append (p := p) rfl hd with hold | ⟨c, hc, rfl, rfl⟩ <;>
        rcases Peer.committed_append (p := p) rfl hd' with hold' | ⟨c', hc', hid', rfl⟩
      · exact hp.once k d d' hold hold'
      · obtain ⟨_, hzero, _⟩ := hcommit c' hc'
        exact absurd (hid' ▸ hzero) (hp.used _ d hold)
      · obtain ⟨_, hzero, _⟩ := hcommit c hc
        exact absurd hzero (hp.used _ d' hold')
      · obtain ⟨hsent, _⟩ := hcommit c hc
        rw [hsent, List.mem_singleton] at hc'
        rw [Message.commit.inj hc']
    · intro k d hd hzero
      rcases Peer.committed_append (p := p) rfl hd with hold | ⟨c, hc, rfl, rfl⟩
      · exact hp.used k d hold (hstate k hzero)
      · obtain ⟨_, _, hone⟩ := hcommit c hc
        exact absurd (hone.symm.trans hzero) (by decide)
  | tag name mh =>
    have hback {k : ℕ} {d : String} (h : (p.tag name mh).Committed k d) : p.Committed k d := by
      rwa [Peer.Committed, Peer.tag_sent] at h
    exact ⟨fun k d d' hd hd' => hp.once k d d' (hback hd) (hback hd'),
      fun k d hd => by rw [Peer.tag_pbft]; exact hp.used k d (hback hd)⟩
  | verify => exact ⟨hp.once, hp.used⟩
  | @propose i call call_at pc free =>
    have hback {k : ℕ} {d : String} (h : (p.propose P i call).Committed k d) :
        p.Committed k d := by
      rcases Peer.committed_append (p := p) rfl h with hold | ⟨c, hc, _⟩
      · exact hold
      · exact absurd hc (tagSection_no_commit _ _ c)
    refine ⟨fun k d d' hd hd' => hp.once k d d' (hback hd) (hback hd'), fun k d hd hzero => ?_⟩
    have hused := hp.used k d (hback hd)
    have hstate : (if call.flag = false ∧ k = p.node.pbft.pbftID + p.node.totalPeers then 0
        else p.node.pbft.stateAt k) = 0 := (tagSection_state p.node call k).symm.trans hzero
    split_ifs at hstate with hassign
    · exact hused (hassign.2 ▸ hfresh call call_at hassign.1)
    · exact hused hstate

namespace Network

variable {D : Deployment P} {g g' : Network} {es : List (String × PeerEvent)}

/-- What keeps agreement: the Commit that triggers an append carries the pre-prepared digest,
the Commits that count for it in the name of other honest peers were broadcast by these as such,
and Tag is never assigned an ID that is in use. -/
def Regular (D : Deployment P) (g : Network) : String × PeerEvent → Prop
  | (x, .receive (.commit c)) =>
    (g x).node.Admits P c.srcAddr c.digest c.signature →
      ((g x).node.storeCommit c).Commits c.pbftID →
      (g x).node.pbft.logPrePrepareMsg.lookup c.pbftID = some c.digest ∧
      ∀ a ∈ D.honest.erase x,
        a ∈ ((g x).node.storeCommit c).pbft.committers c.pbftID c.digest →
        (g a).Committed c.pbftID c.digest
  | (x, .propose i) => (g x).AssignsFresh (.propose i)
  | _ => True

/-- The recorded Commits are those of members, and the own ones were broadcast. -/
def Voted (D : Deployment P) (g : Network) (x : String) : Prop :=
  ∀ a k d, (g x).node.pbft.logCommitMsg.recorded a k = some d →
    a ∈ D.members ∧ (a = x → (g x).Committed k d)

/-- Every block has a certificate of Commits for the digest of its request. -/
def Certified (D : Deployment P) (g : Network) (x : String) : Prop :=
  ∀ k b, (k, b) ∈ (g x).appended →
    Quorums.Certified D.members D.faulty (2 * (D.members.card / 3) + 1)
      (fun a d => (g a).Committed k d) (P.getDigest b.request)

instance (g : Network) : (e : String × PeerEvent) → Decidable (Regular D g e)
  | (_, .receive (.commit _)) => by unfold Regular; infer_instance
  | (_, .propose _) => by unfold Regular Peer.AssignsFresh; infer_instance
  | (_, .receive (.prePrepare _)) | (_, .receive (.prepare _)) | (_, .receive (.checkpoint _))
  | (_, .receive (.pbftTLC _)) | (_, .tag ..) | (_, .verify _) => isTrue trivial

theorem mem_members_of_verifies {a d : String} {sig : Bytes} (h : P.verifies a d sig = true) :
    a ∈ D.members := by
  rw [Primitives.verifies] at h
  split at h
  · cases h
  · rename_i key hkey
    exact D.keys a key hkey

theorem commitsOnce (hrun : Run (step D) (Regular D) (start D) es g) (x : String) :
    (g x).CommitsOnce := by
  have hassigns : ∀ g a e, Regular D g (a, e) → (g a).AssignsFresh e := by
    intro g a e hok
    cases e with
    | propose i => exact hok
    | receive => trivial
    | tag => trivial
    | verify => trivial
  have hpeer : Run (Peer.step P) Peer.AssignsFresh (start D x) (eventsOf x es) (g x) :=
    hrun.component hassigns x
  refine (hpeer.invariant (I := fun p => p.node.pbft.role = 0 ∧ p.CommitsOnce) ⟨rfl, ?_⟩ ?_).2
  · constructor <;> simp [start, newPeer, Peer.Committed]
  · rintro p e q ⟨hrole, hp⟩ hfresh hstep
    have heff := Peer.step_effect P hstep
    exact ⟨(heff.sameConfig P).role.trans hrole, heff.commitsOnce hrole hfresh hp⟩

theorem voted (hrun : AnyRun (step D) (start D) es g) {x : String} (hx : x ∈ D.honest) :
    Voted D g x := by
  induction hrun with
  | nil => simp [Voted, start, newPeer, newSafePbft, DigestLog.recorded, GoMap.get₂]
  | @snoc es g g' e prior meets enabled ih =>
    obtain ⟨a, e⟩ := e
    intro b k d hrec
    have hsent := (histories enabled x).1
    suffices (g x).node.pbft.logCommitMsg.recorded b k = some d ∨
        b ∈ D.members ∧ (b = x → (g' x).Committed k d) by
      rcases this with hold | hnew
      · obtain ⟨hmem, hcommitted⟩ := ih b k d hold
        exact ⟨hmem, fun hb => (hcommitted hb).mono hsent⟩
      · exact hnew
    obtain ⟨_, q, heff, rfl⟩ := step_effect enabled
    by_cases hxa : x = a
    · subst hxa
      rw [Function.update_self] at hrec
      obtain ⟨hmy, haddr, hrole, _⟩ := config prior x
      cases heff with
      | @receive m r effect =>
        rcases effect.entry_origin .commit hrec with
          hold | ⟨hself, hown⟩ | ⟨hlogs, hother, hsigned, hfree⟩
        · exact .inl hold
        · -- the own entry goes out as a Commit in the same step
          rw [haddr] at hself
          subst hself
          obtain ⟨c, hc, hspec⟩ := hown rfl hrole
          refine .inr ⟨(Finset.mem_sdiff.mp hx).1, fun _ => ⟨c, ?_, hspec⟩⟩
          rw [Function.update_self]
          exact List.mem_append_right _ hc
        · cases m with
          | commit c =>
            obtain ⟨rfl, rfl, rfl⟩ := hlogs
            exact .inr ⟨mem_members_of_verifies hsigned, fun hb => absurd (hb.trans hmy.symm) hother⟩
          | prePrepare => exact hlogs.elim
          | prepare => exact hlogs.elim
          | checkpoint => exact hlogs.elim
          | pbftTLC => exact hlogs.elim
      | tag name mh => rw [Peer.tag_pbft] at hrec; exact .inl hrec
      | verify => exact .inl hrec
      | propose =>
        rcases tagSection_entry .commit _ _ hrec with hold | ⟨hno, _⟩
        · exact .inl hold
        · cases hno
    · rw [Function.update_of_ne hxa] at hrec
      exact .inl hrec

theorem Certified.mono {x : String} (h : Certified D g x)
    (hsent : ∀ a, (g a).sent <+: (g' a).sent) (happ : (g' x).appended = (g x).appended) :
    Certified D g' x := by
  intro k b hb
  rw [happ] at hb
  obtain ⟨A, hA, hcard, hvotes⟩ := h k b hb
  exact ⟨A, hA, hcard, fun a ha hok => (hvotes a ha hok).mono (hsent a)⟩

theorem certified_commit {x : String} {c : CommitMessage} {r : Handled}
    (hrun : AnyRun (step D) (start D) es g) (hvoted : Voted D g' x)
    (henough : ((g x).node.storeCommit c).Commits c.pbftID)
    (hmatches : (g x).node.pbft.logPrePrepareMsg.lookup c.pbftID = some c.digest)
    (hothers : ∀ a ∈ D.honest.erase x,
      a ∈ ((g x).node.storeCommit c).pbft.committers c.pbftID c.digest →
      (g' a).Committed c.pbftID c.digest)
    (hnode : r.node = (((g x).node.storeCommit c).enterCommitted c.pbftID).appendBlock P
      ((g x).node.committedBlock P c)) (hg' : (g' x).node = r.node) :
    Quorums.Certified D.members D.faulty (2 * (D.members.card / 3) + 1)
      (fun a d => (g' a).Committed c.pbftID d)
      (P.getDigest ((g x).node.committedBlock P c).request) := by
  have hs := logsSound_of_run P (peer_run hrun x)
  obtain ⟨_, _, _, hpeers⟩ := config hrun x
  have hstored : LogsSound P ((g x).node.storeCommit c).pbft := hs.congr rfl rfl
  obtain ⟨d, hd, hcard⟩ := committers_of_commits P hstored henough
  have hdc : d = c.digest := Option.some.inj (hd.symm.trans hmatches)
  obtain ⟨request, hrequest⟩ := hs.request c.pbftID _ hmatches
  have hblock : P.getDigest ((g x).node.committedBlock P c).request = d := by
    change P.getDigest ((g x).node.pbft.logRequest.at c.digest .zero) = d
    rw [GoMap.at, hrequest, Option.getD_some, hs.digest _ _ hrequest, hdc]
  have hlog : (g' x).node.pbft.logCommitMsg = ((g x).node.storeCommit c).pbft.logCommitMsg := by
    rw [hg', hnode]
    rfl
  have hvote {a : String} (ha : a ∈ ((g x).node.storeCommit c).pbft.committers c.pbftID d) :
      a ∈ D.members ∧ (a ∈ D.honest → (g' a).Committed c.pbftID d) := by
    obtain ⟨hmem, hown⟩ := hvoted a c.pbftID d (by rw [hlog]; exact (Finset.mem_filter.mp ha).2)
    refine ⟨hmem, fun hok => ?_⟩
    by_cases hax : a = x
    · exact hax ▸ hown hax
    · rw [hdc] at ha ⊢
      exact hothers a (Finset.mem_erase.mpr ⟨hax, hok⟩) ha
  have htotal : ((g x).node.storeCommit c).totalPeers = D.members.card := hpeers
  rw [hblock]
  rw [htotal] at hcard
  exact ⟨_, fun a ha => (hvote ha).1, hcard,
    fun a ha hok => (hvote ha).2 (Finset.mem_sdiff.mpr ⟨(hvote ha).1, hok⟩)⟩

theorem certified (hrun : Run (step D) (Regular D) (start D) es g) {x : String} (hx : x ∈ D.honest) :
    Certified D g x := by
  induction hrun with
  | nil => simp [Certified, start, newPeer]
  | @snoc es g g' e prior meets enabled ih =>
    have hvoted := voted (prior.snoc meets enabled).forget hx
    obtain ⟨a, e⟩ := e
    have hsent := fun b => (histories enabled b).1
    have hmono := fun happ => ih.mono hsent happ
    obtain ⟨_, q, heff, rfl⟩ := step_effect enabled
    by_cases hxa : x = a
    · subst hxa
      cases heff with
      | @receive m r effect =>
        intro k b hb
        rw [Function.update_self] at hb
        rcases List.mem_append.mp hb with hold | hnew
        · obtain ⟨A, hA, hcard, hvotes⟩ := ih k b hold
          exact ⟨A, hA, hcard, fun a ha hok => (hvotes a ha hok).mono (hsent a)⟩
        · obtain ⟨c, rfl, admits, enough, rfl, rfl, hnode⟩ := effect.appended hnew
          obtain ⟨hmatches, hothers⟩ := meets admits enough
          exact certified_commit prior.forget hvoted enough hmatches
            (fun a ha hin => (hothers a ha hin).mono (hsent a)) hnode
            (by rw [Function.update_self]; rfl)
      | tag name mh =>
        apply hmono
        rw [Function.update_self, Peer.tag_appended]
      | verify => exact hmono (by rw [Function.update_self]; rfl)
      | @propose i call call_at pc free =>
        apply hmono
        rw [Function.update_self, Peer.propose_appended]
    · exact hmono (by rw [Function.update_of_ne hxa])

end Network

/-- With `3f + 1` members of which at most `f` are faulty, in every run of regular steps all
blocks honest peers append for one ID carry the same request. -/
theorem appended_agree {D : Deployment P} {f : ℕ} (hmembers : D.members.card = 3 * f + 1)
    (hfaulty : D.faulty.card ≤ f) {es : List (String × PeerEvent)} {g : Network}
    (hrun : Run (Network.step D) (Network.Regular D) (Network.start D) es g)
    {x y : String} (hx : x ∈ D.honest) (hy : y ∈ D.honest) {k : ℕ} {b b' : PbftchainBlock}
    (hb : (k, b) ∈ (g x).appended) (hb' : (k, b') ∈ (g y).appended)
    (hdigest : P.getDigest b.request = P.getDigest b'.request → b.request = b'.request) :
    b.request = b'.request := by
  have honce : VotesOnce D.faulty fun a d => (g a).Committed k d :=
    fun a _ d d' hd hd' => (Network.commitsOnce hrun a).once k d d' hd hd'
  have hq : D.members.card + f < 2 * (2 * (D.members.card / 3) + 1) := by omega
  exact hdigest (Certified.agree hfaulty hq honce (Network.certified hrun hx k b hb)
    (Network.certified hrun hy k b' hb'))

namespace Sample

def fileDigest : String := primitives.getDigest ⟨"A", "f", "m"⟩

/-- A proposes under ID 5 and is prepared with the Prepares of B and C; B is prepared, too. -/
def prepared : List (String × PeerEvent) :=
  [("A", .tag "f" "m"), ("A", .verify 0), ("A", .propose 0),
    ("B", .receive (.prePrepare (prePrepareFrom "A" ⟨"A", "f", "m"⟩ 5))),
    ("C", .receive (.prePrepare (prePrepareFrom "A" ⟨"A", "f", "m"⟩ 5))),
    ("A", .receive (.prepare (prepareFrom "B" fileDigest 5))),
    ("A", .receive (.prepare (prepareFrom "C" fileDigest 5))),
    ("B", .receive (.prepare (prepareFrom "C" fileDigest 5)))]

/-- C gets the Commits of A and B before it is prepared, and a stray one of D after it. -/
def diverging : List (String × PeerEvent) :=
  prepared ++ [("C", .receive (.commit (commitFrom "A" fileDigest 5))),
    ("C", .receive (.commit (commitFrom "B" fileDigest 5))),
    ("C", .receive (.prepare (prepareFrom "B" fileDigest 5))),
    ("B", .receive (.commit (commitFrom "A" fileDigest 5))),
    ("B", .receive (.commit (commitFrom "C" fileDigest 5))),
    ("C", .receive (.commit (commitFrom "D" digest 5)))]

theorem diverging_isSome :
    (exec (guarded (Network.step deployment) (Network.Authentic deployment))
      (Network.start deployment) diverging).isSome := by
  decide

def diverged : Network :=
  (exec (guarded (Network.step deployment) (Network.Authentic deployment))
    (Network.start deployment) diverging).get diverging_isSome

/-- With one faulty member out of four, B and C append blocks for ID 5 with different requests. -/
theorem agreement_counterexample :
    Run (Network.step deployment) (Network.Authentic deployment) (Network.start deployment)
        diverging diverged ∧
      deployment.members.card = 3 * 1 + 1 ∧ deployment.faulty.card ≤ 1 ∧
      (diverged "B").appended.map (fun x => (x.1, x.2.request)) = [(5, ⟨"A", "f", "m"⟩)] ∧
      (diverged "C").appended.map (fun x => (x.1, x.2.request)) = [(5, .zero)] :=
  ⟨run_of_guarded (run_exec_get _), by decide, by decide, by decide, by decide⟩

def agreeing : List (String × PeerEvent) :=
  prepared ++ [("C", .receive (.prepare (prepareFrom "B" fileDigest 5))),
    ("B", .receive (.commit (commitFrom "A" fileDigest 5))),
    ("B", .receive (.commit (commitFrom "C" fileDigest 5))),
    ("C", .receive (.commit (commitFrom "A" fileDigest 5))),
    ("C", .receive (.commit (commitFrom "B" fileDigest 5)))]

theorem agreeing_isSome :
    (exec (guarded (Network.step deployment) (Network.Regular deployment))
      (Network.start deployment) agreeing).isSome := by
  decide

def agreed : Network :=
  (exec (guarded (Network.step deployment) (Network.Regular deployment))
    (Network.start deployment) agreeing).get agreeing_isSome

def firstBlock (x : String) : PbftchainBlock :=
  ((agreed x).appended.map (·.2)).headD ⟨0, [], .zero, []⟩

theorem appended_agree_commits : (firstBlock "B").request = (firstBlock "C").request :=
  appended_agree (D := deployment) (f := 1) (x := "B") (y := "C") (k := 5) (by decide) (by decide)
    (run_of_guarded (run_exec_get agreeing_isSome)) (by decide) (by decide)
    (by decide) (by decide) (by decide)

end Sample

end JobPortal
