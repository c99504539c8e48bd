import JobPortal.PbftNaming
import JobPortal.PbftCertificate

/-! Bindings that stay. Nothing but the test at the start of a Tag call keeps two requests for
one name apart. A binding to a metahash is kept as long as no request is committed while a
rival, a request for the same name with another metahash, is on record. -/
namespace JobPortal

open Hex Runs

variable (P : Primitives)

/-- No request on record gives the name of `r` another metahash. -/
def Node.Unrivalled (n : Node) (r : PbftRequest) : Prop :=
  ∀ d ∈ n.pbft.logRequest.keys, ∀ s ∈ n.pbft.logRequest.lookup d, s.idhr = r.idhr →
    s.filename = r.filename → s.metahash = "" ∨ s.metahash = r.metahash

instance (n : Node) (r : PbftRequest) : Decidable (n.Unrivalled r) :=
  inferInstanceAs (Decidable (∀ d ∈ n.pbft.logRequest.keys, _))

/-- A Commit that completes a quorum is for a request without a rival on record. -/
def Peer.CommitsUnrivalled (p : Peer) : PeerEvent → Prop
  | .receive (.commit c) =>
    p.node.Admits P c.srcAddr c.digest c.signature → (p.node.storeCommit c).Commits c.pbftID →
      p.node.Unrivalled (p.node.pbft.logRequest.at c.digest .zero)
  | _ => True

instance (p : Peer) : (e : PeerEvent) → Decidable (p.CommitsUnrivalled P e)
  | .receive (.commit _) => inferInstanceAs (Decidable (p.node.Admits P _ _ _ → _ → _))
  | .receive (.prePrepare _) => isTrue trivial
  | .receive (.prepare _) => isTrue trivial
  | .receive (.checkpoint _) => isTrue trivial
  | .receive (.pbftTLC _) => isTrue trivial
  | .tag _ _ => isTrue trivial
  | .verify _ => isTrue trivial
  | .propose _ => isTrue trivial

def PeerEvent.request (addr : String) : PeerEvent → Option PbftRequest
  | .receive (.prePrepare pp) => some pp.requestMessage
  | .tag name mh => some ⟨addr, name, mh⟩
  | _ => none

def requestsOf (addr : String) (es : List PeerEvent) : List PbftRequest :=
  es.filterMap (PeerEvent.request addr)

variable {P} {n : Node} {p q : Peer} {m : Message} {r : Handled} {e : PeerEvent}
  {rs : List PbftRequest}

theorem Node.Unrivalled.metahash {r s : PbftRequest} (h : n.Unrivalled r) {d : String}
    (hs : n.pbft.logRequest.lookup d = some s) (hhr : s.idhr = r.idhr)
    (hname : s.filename = r.filename) (hne : s.metahash ≠ "") : s.metahash = r.metahash := by
  have hkey : d ∈ n.pbft.logRequest.keys := Finmap.mem_keys.mpr (Finmap.mem_iff.mpr ⟨s, hs⟩)
  exact (h d hkey s hs hhr hname).resolve_left hne

/-- Only an accepted PrePrepare puts a request on record. -/
theorem Node.Effect.logRequest (h : n.Effect P m r) :
    r.node.pbft.logRequest = n.pbft.logRequest ∨
    ∃ pp, m = .prePrepare pp ∧ r.node.pbft.logRequest =
      n.pbft.logRequest.insert (P.getDigest pp.requestMessage) pp.requestMessage := by
  cases h with
  | idle same => rw [same.node]; exact .inl rfl
  | pbftTLC tlc => exact .inl (n.execPbftTLCMessage_frame P tlc).1.logRequest
  | @prePrepare pp admits digest fresh =>
    refine .inr ⟨pp, rfl, ?_⟩
    rw [digest]
    rfl
  | conflict => exact .inl rfl
  | prepare => exact .inl rfl
  | prepared => exact .inl rfl
  | commit => exact .inl rfl
  | noPeers => exact .inl rfl
  | committed => exact .inl rfl
  | checkpoint => exact .inl rfl

/-- Only a Commit that completes a quorum binds a name. -/
theorem Node.Effect.binding (h : n.Effect P m r) :
    r.node.hrStorage.hrNaming = n.hrStorage.hrNaming ∨
    ∃ c, m = .commit c ∧ n.Admits P c.srcAddr c.digest c.signature ∧
      (n.storeCommit c).Commits c.pbftID ∧
      r.node.hrStorage.hrNaming = n.hrStorage.hrNaming.bindName (n.committedBlock P c) := by
  rw [h.naming]
  cases happ : r.appended with
  | nil => exact .inl rfl
  | cons kb rest =>
    cases h with
    | idle same => rw [same.appended] at happ; cases happ
    | pbftTLC tlc => rw [(n.execPbftTLCMessage_frame P tlc).2.2.2.2.1] at happ; cases happ
    | @committed c admits enough some =>
      obtain ⟨rfl, rfl⟩ := List.cons.inj happ
      exact .inr ⟨c, rfl, admits, enough, rfl⟩
    | conflict => cases happ
    | prePrepare => cases happ
    | prepare => cases happ
    | prepared => cases happ
    | commit => cases happ
    | noPeers => cases happ
    | checkpoint => cases happ

/-- Every binding to a metahash goes back to a request that is still on record, and the
requests on record and under way are among `rs`. -/
structure Peer.Backed (P : Primitives) (rs : List PbftRequest) (p : Peer) : Prop where
  peers : 1 < p.node.totalPeers
  logs : LogsSound P p.node.pbft
  calls : ∀ call ∈ p.calls, p.node.tagRequest call ∈ rs
  requests : ∀ d s, p.node.pbft.logRequest.lookup d = some s → s ∈ rs
  bound : ∀ idhr name v, p.node.hrStorage.hrNaming.get idhr name = some v → v ≠ [] →
    ∃ d s, p.node.pbft.logRequest.lookup d = some s ∧ s.idhr = idhr ∧ s.filename = name ∧
      utf8 s.metahash = v

def DigestsDistinct (P : Primitives) (rs : List PbftRequest) : Prop :=
  ∀ r ∈ rs, ∀ s ∈ rs, P.getDigest r = P.getDigest s → r = s

instance (P : Primitives) (rs : List PbftRequest) : Decidable (DigestsDistinct P rs) :=
  inferInstanceAs (Decidable (∀ r ∈ rs, ∀ s ∈ rs, _ → _))

/-- With distinct digests no request pushes another one out of the record. -/
theorem Peer.Backed.lookup_insert (hp : p.Backed P rs) (hdigest : DigestsDistinct P rs)
    {r : PbftRequest} (hr : r ∈ rs) {d : String} {s : PbftRequest}
    (hs : p.node.pbft.logRequest.lookup d = some s) :
    (p.node.pbft.logRequest.insert (P.getDigest r) r).lookup d = some s := by
  by_cases hd : d = P.getDigest r
  · have hsame : s = r := by
      apply hdigest s (hp.requests d s hs) r hr
      rw [hp.logs.digest d s hs, hd]
    rw [hd, Finmap.lookup_insert, hsame]
  · rw [Finmap.lookup_insert_of_ne _ hd, hs]

theorem Peer.Backed.of_naming (hp : p.Backed P rs) (h : p.Effect P e q)
    (hnaming : q.node.hrStorage.hrNaming = p.node.hrStorage.hrNaming)
    (hcalls : ∀ call ∈ q.calls, q.node.tagRequest call ∈ rs)
    (hlog : q.node.pbft.logRequest = p.node.pbft.logRequest ∨
      ∃ r ∈ rs, q.node.pbft.logRequest = p.node.pbft.logRequest.insert (P.getDigest r) r)
    (hdigest : DigestsDistinct P rs) : q.Backed P rs := by
  have hkept : ∀ d s, p.node.pbft.logRequest.lookup d = some s →
      q.node.pbft.logRequest.lookup d = some s := by
    intro d s hs
    rcases hlog with hlog | ⟨r, hr, hlog⟩
    · rw [hlog, hs]
    · rw [hlog, hp.lookup_insert hdigest hr hs]
  have hpeers : 1 < q.node.totalPeers := by
    rw [(h.sameConfig P).totalPeers]
    exact hp.peers
  refine ⟨hpeers, h.logsSound P hp.logs, hcalls, ?_, ?_⟩
  · intro d s hs
    rcases hlog with hlog | ⟨r, hr, hlog⟩
    · exact hp.requests d s (hlog ▸ hs)
    · rw [hlog] at hs
      by_cases hd : d = P.getDigest r
      · rw [hd, Finmap.lookup_insert] at hs
        exact Option.some.inj hs ▸ hr
      · rw [Finmap.lookup_insert_of_ne _ hd] at hs
        exact hp.requests d s hs
  · intro idhr name v hv hne
    rw [hnaming] at hv
    obtain ⟨d, s, hs, hrest⟩ := hp.bound idhr name v hv hne
    exact ⟨d, s, hkept d s hs, hrest⟩

theorem Peer.Backed.get_bindName (hp : p.Backed P rs) {c : CommitMessage}
    (hfree : p.node.Unrivalled (p.node.pbft.logRequest.at c.digest .zero)) {idhr name : String}
    {v : Bytes} (hv : p.node.hrStorage.hrNaming.get idhr name = some v) (hne : v ≠ []) :
    (p.node.hrStorage.hrNaming.bindName (p.node.committedBlock P c)).get idhr name = some v := by
  rw [JobPortal.get_bindName]
  split_ifs with hnamed
  · obtain ⟨hhr, hname⟩ := hnamed
    obtain ⟨d, s, hs, hshr, hsname, rfl⟩ := hp.bound idhr name v hv hne
    have hmeta : s.metahash ≠ "" := by
      intro hempty
      rw [hempty] at hne
      exact hne rfl
    have hsame := hfree.metahash hs (hshr.trans hhr) (hsname.trans hname) hmeta
    rw [hsame]
    rfl
  · exact hv

/-- The request a non-empty binding of a new block comes from is on record. -/
theorem Peer.Backed.commit (hp : p.Backed P rs) (h : p.Effect P e q) {c : CommitMessage}
    (hnaming : q.node.hrStorage.hrNaming =
      p.node.hrStorage.hrNaming.bindName (p.node.committedBlock P c))
    (hlog : q.node.pbft.logRequest = p.node.pbft.logRequest) (hcalls : q.calls = p.calls) :
    q.Backed P rs := by
  have hconf := h.sameConfig P
  refine ⟨by rw [hconf.totalPeers]; exact hp.peers, h.logsSound P hp.logs, ?_, ?_, ?_⟩
  · rw [hcalls]
    intro call hcall
    rw [Node.tagRequest, hconf.myAddr]
    exact hp.calls call hcall
  · rw [hlog]
    exact hp.requests
  · intro idhr name v hv hne
    rw [hnaming, JobPortal.get_bindName] at hv
    rw [hlog]
    split_ifs at hv with hnamed
    · obtain ⟨rfl, rfl⟩ := hnamed
      obtain rfl := Option.some.inj hv
      -- an unknown digest stands for the empty request, whose metahash is empty
      cases hs : p.node.pbft.logRequest.lookup c.digest with
      | none =>
        have hzero : (p.node.committedBlock P c).request = .zero := by
          change p.node.pbft.logRequest.at c.digest .zero = .zero
          rw [GoMap.at, hs, Option.getD_none]
        rw [hzero] at hne
        exact absurd rfl hne
      | some s =>
        have hreq : (p.node.committedBlock P c).request = s := by
          change p.node.pbft.logRequest.at c.digest .zero = s
          rw [GoMap.at, hs, Option.getD_some]
        exact ⟨c.digest, s, hs, by rw [hreq], by rw [hreq], by rw [hreq]⟩
    · exact hp.bound idhr name v hv hne

theorem Peer.Effect.tagRequest (h : p.Effect P e q) (call : TagCall) :
    q.node.tagRequest call = p.node.tagRequest call := by
  rw [Node.tagRequest, Node.tagRequest, (h.sameConfig P).myAddr]

/-- A handler keeps what is behind the bindings. Only an appended block makes a new one. -/
theorem Peer.Backed.receive (hp : p.Backed P rs) (hdigest : DigestsDistinct P rs) {m : Message}
    {r : Handled} (hfree : p.CommitsUnrivalled P (.receive m))
    (hmem : ∀ s ∈ (PeerEvent.receive m).request p.node.myAddr, s ∈ rs)
    (effect : p.node.Effect P m r) :
    (p.after r).Backed P rs ∧ ∀ idhr name v,
      p.node.hrStorage.hrNaming.get idhr name = some v → v ≠ [] →
        (p.after r).node.hrStorage.hrNaming.get idhr name = some v := by
  have hcalls : ∀ call ∈ (p.after r).calls, (p.after r).node.tagRequest call ∈ rs := by
    intro call hcall
    rw [Peer.Effect.tagRequest (.receive m effect)]
    exact hp.calls call hcall
  rcases effect.binding with hnaming | ⟨c, rfl, admits, enough, hnaming⟩
  · refine ⟨hp.of_naming (.receive m effect) hnaming hcalls ?_ hdigest, fun _ _ _ hv _ => ?_⟩
    · rcases effect.logRequest with hlog | ⟨pp, rfl, hlog⟩
      · exact .inl hlog
      · exact .inr ⟨pp.requestMessage, hmem _ rfl, hlog⟩
    · change r.node.hrStorage.hrNaming.get _ _ = some _
      rwa [hnaming]
  · have hlog : r.node.pbft.logRequest = p.node.pbft.logRequest := by
      rcases effect.logRequest with hlog | ⟨pp, hpp, _⟩
      · exact hlog
      · cases hpp
    refine ⟨hp.commit (.receive _ effect) hnaming hlog rfl, fun idhr name v hv hne => ?_⟩
    change r.node.hrStorage.hrNaming.get idhr name = some v
    rw [hnaming]
    exact hp.get_bindName (hfree admits enough) hv hne

theorem Peer.Backed.tag (hp : p.Backed P rs) (hdigest : DigestsDistinct P rs) {name mh : String}
    (hmem : ∀ s ∈ (PeerEvent.tag name mh).request p.node.myAddr, s ∈ rs) :
    (p.tag name mh).Backed P rs ∧
      (p.tag name mh).node.hrStorage.hrNaming = p.node.hrStorage.hrNaming := by
  have hnaming : (p.tag name mh).node.hrStorage.hrNaming = p.node.hrStorage.hrNaming := by
    unfold Peer.tag
    split_ifs with hlone
    · exact absurd hp.peers (by omega)
    · rfl
    · rfl
  refine ⟨hp.of_naming (.tag name mh) hnaming ?_ (.inl (by rw [Peer.tag_pbft])) hdigest, hnaming⟩
  intro call hcall
  rw [Peer.Effect.tagRequest (P := P) (.tag name mh)]
  unfold Peer.tag at hcall
  split_ifs at hcall
  · exact hp.calls call hcall
  · exact hp.calls call hcall
  · rcases List.mem_append.mp hcall with hold | hnew
    · exact hp.calls call hold
    · rw [List.mem_singleton.mp hnew]
      exact hmem _ rfl

/-- The critical section puts the request of its call on record. -/
theorem Peer.Backed.propose (hp : p.Backed P rs) (hdigest : DigestsDistinct P rs) {i : ℕ}
    {call : TagCall} (call_at : p.calls[i]? = some call) (pc : call.pc = .proposing)
    (free : p.node.pbft.lock = false) :
    (p.propose P i call).Backed P rs ∧
      (p.propose P i call).node.hrStorage.hrNaming = p.node.hrStorage.hrNaming := by
  have hcall : p.node.tagRequest call ∈ rs := hp.calls call (List.mem_of_getElem? call_at)
  have hnaming := congrArg HrStorage.hrNaming (p.node.tagSection_storage (P := P) call)
  refine ⟨hp.of_naming (.propose call_at pc free) hnaming ?_ (.inr ⟨_, hcall, ?_⟩) hdigest, hnaming⟩
  · intro c hc
    rw [Peer.Effect.tagRequest (.propose call_at pc free)]
    rcases List.mem_or_eq_of_mem_set hc with hold | rfl
    · exact hp.calls c hold
    · exact hcall
  · rw [← (p.node.tagAssigned_logs call).1]
    change (p.node.tagSection P call).node.pbft.logRequest = _
    unfold Node.tagSection
    split_ifs <;> rfl

theorem Peer.Backed.step (hp : p.Backed P rs) (hdigest : DigestsDistinct P rs)
    (hfree : p.CommitsUnrivalled P e) (hmem : ∀ r ∈ e.request p.node.myAddr, r ∈ rs)
    (h : p.Effect P e q) :
    q.Backed P rs ∧ ∀ idhr name v, p.node.hrStorage.hrNaming.get idhr name = some v → v ≠ [] →
      q.node.hrStorage.hrNaming.get idhr name = some v := by
  have unchanged {n : HrStore} (hnaming : n = p.node.hrStorage.hrNaming) :
      ∀ idhr name v, p.node.hrStorage.hrNaming.get idhr name = some v → v ≠ [] →
        n.get idhr name = some v := by
    rw [hnaming]
    exact fun _ _ _ hv _ => hv
  cases h with
  | receive m effect => exact hp.receive hdigest hfree hmem effect
  | tag name mh =>
    obtain ⟨hbacked, hnaming⟩ := hp.tag hdigest hmem
    exact ⟨hbacked, unchanged hnaming⟩
  | @verify i call call_at pc =>
    refine ⟨hp.of_naming (.verify call_at pc) rfl ?_ (.inl rfl) hdigest, unchanged rfl⟩
    intro c hc
    rcases List.mem_or_eq_of_mem_set hc with hold | rfl
    · exact hp.calls c hold
    · exact hp.calls call (List.mem_of_getElem? call_at)
  | propose call_at pc free =>
    obtain ⟨hbacked, hnaming⟩ := hp.propose hdigest call_at pc free
    exact ⟨hbacked, unchanged hnaming⟩

theorem Peer.Backed.run (hp : p.Backed P rs) (hdigest : DigestsDistinct P rs)
    {es : List PeerEvent} (hmem : requestsOf p.node.myAddr es ⊆ rs)
    (h : Run (Peer.step P) (Peer.CommitsUnrivalled P) p es q) :
    q.Backed P rs ∧ ∀ idhr name v, p.node.hrStorage.hrNaming.get idhr name = some v → v ≠ [] →
      q.node.hrStorage.hrNaming.get idhr name = some v := by
  have hinv : q.node.myAddr = p.node.myAddr ∧ q.Backed P rs ∧
      ∀ idhr name v, p.node.hrStorage.hrNaming.get idhr name = some v → v ≠ [] →
        q.node.hrStorage.hrNaming.get idhr name = some v := by
    refine h.mem.invariant (I := fun q => q.node.myAddr = p.node.myAddr ∧ q.Backed P rs ∧
      ∀ idhr name v, p.node.hrStorage.hrNaming.get idhr name = some v → v ≠ [] →
        q.node.hrStorage.hrNaming.get idhr name = some v) ⟨rfl, hp, fun _ _ _ hv _ => hv⟩ ?_
    rintro t u e ⟨hmy, ht, hkept⟩ ⟨hfree, he⟩ hstep
    have heff := Peer.step_effect P hstep
    obtain ⟨hu, hkept'⟩ := ht.step hdigest hfree
      (fun r hr => hmem (List.mem_filterMap.mpr ⟨e, he, hmy ▸ hr⟩)) heff
    refine ⟨(heff.sameConfig P).myAddr.trans hmy, hu, fun idhr name v hv hne => ?_⟩
    exact hkept' idhr name v (hkept idhr name v hv hne) hne
  exact hinv.2

theorem newPeer_backed {conf : PeerConfig} (hpeers : 1 < conf.totalPeers)
    (rs : List PbftRequest) : (newPeer P conf).Backed P rs where
  peers := hpeers
  logs := newPeer_logsSound P conf
  calls := by simp [newPeer]
  requests d s h := by simp [newPeer, newSafePbft] at h
  bound idhr name v h := by simp [newPeer, HrStore.get, GoMap.get₂] at h

/-- In every run that commits no request with a rival on record, a name once bound to a
metahash stays bound to it. -/
theorem names_write_once {conf : PeerConfig} (hpeers : 1 < conf.totalPeers)
    {es fs : List PeerEvent}
    (hrun : Run (Peer.step P) (Peer.CommitsUnrivalled P) (newPeer P conf) es p)
    (hlater : Run (Peer.step P) (Peer.CommitsUnrivalled P) p fs q)
    (hdigest : DigestsDistinct P (requestsOf conf.myAddr (es ++ fs))) {idhr name : String}
    {v : Bytes} (hv : p.node.hrStorage.hrNaming.get idhr name = some v) (hne : v ≠ []) :
    q.node.hrStorage.hrNaming.get idhr name = some v := by
  have hrequests : requestsOf conf.myAddr (es ++ fs) =
      requestsOf conf.myAddr es ++ requestsOf conf.myAddr fs := List.filterMap_append
  have hp := ((newPeer_backed hpeers _).run hdigest
    (hrequests ▸ List.subset_append_left _ _) hrun).1
  have hmy : p.node.myAddr = conf.myAddr := (sameConfig_of_run P hrun).myAddr
  refine (hp.run hdigest ?_ hlater).2 idhr name v hv hne
  rw [hmy, hrequests]
  exact List.subset_append_right _ _

namespace Sample

/-- Two Tag calls for one name pass the test one right after the other. -/
def twoTags : List PeerEvent :=
  [.tag "f" "m", .tag "f" "n", .verify 0, .propose 0, .verify 1, .propose 1]

def consent (request : PbftRequest) (pbftID : ℕ) : List PeerEvent :=
  let digest := primitives.getDigest request
  [.receive (.prepare (prepareFrom "B" digest pbftID)),
    .receive (.prepare (prepareFrom "C" digest pbftID)),
    .receive (.commit (commitFrom "B" digest pbftID)),
    .receive (.commit (commitFrom "C" digest pbftID))]

theorem firstTag_isSome :
    (exec (Peer.step primitives) (newPeer primitives (conf "A" 1))
      (twoTags ++ consent ⟨"A", "f", "m"⟩ 5)).isSome := by
  decide

def firstTag : Peer :=
  (exec (Peer.step primitives) (newPeer primitives (conf "A" 1))
    (twoTags ++ consent ⟨"A", "f", "m"⟩ 5)).get firstTag_isSome

theorem secondTag_isSome :
    (exec (Peer.step primitives) firstTag (consent ⟨"A", "f", "n"⟩ 9)).isSome := by
  decide

def secondTag : Peer :=
  (exec (Peer.step primitives) firstTag (consent ⟨"A", "f", "n"⟩ 9)).get secondTag_isSome

/-- Both requests are committed, and the second one rebinds the name. -/
theorem rebinding_counterexample :
    1 < (conf "A" 1).totalPeers ∧
      AnyRun (Peer.step primitives) (newPeer primitives (conf "A" 1))
        (twoTags ++ consent ⟨"A", "f", "m"⟩ 5) firstTag ∧
      AnyRun (Peer.step primitives) firstTag (consent ⟨"A", "f", "n"⟩ 9) secondTag ∧
      firstTag.node.hrStorage.hrNaming.get "A" "f" = some (utf8 "m") ∧ utf8 "m" ≠ [] ∧
      secondTag.node.hrStorage.hrNaming.get "A" "f" = some (utf8 "n") ∧ utf8 "n" ≠ utf8 "m" :=
  ⟨by decide, run_exec_get _, run_exec_get _, by decide, by decide, by decide,
    by decide⟩

theorem oneName_isSome :
    (exec (guarded (Peer.step primitives) (Peer.CommitsUnrivalled primitives))
      (newPeer primitives (conf "A" 1)) (committing ⟨"B", "f", "m"⟩ 6)).isSome := by
  decide

def oneName : Peer :=
  (exec (guarded (Peer.step primitives) (Peer.CommitsUnrivalled primitives))
    (newPeer primitives (conf "A" 1)) (committing ⟨"B", "f", "m"⟩ 6)).get oneName_isSome

theorem otherName_isSome :
    (exec (guarded (Peer.step primitives) (Peer.CommitsUnrivalled primitives)) oneName
      (committing ⟨"B", "g", "n"⟩ 10)).isSome := by
  decide

theorem names_write_once_otherName :
    ((exec (guarded (Peer.step primitives) (Peer.CommitsUnrivalled primitives)) oneName
      (committing ⟨"B", "g", "n"⟩ 10)).get otherName_isSome).node.hrStorage.hrNaming.get "B" "f" =
      some (utf8 "m") :=
  names_write_once (by decide) (run_of_guarded (run_exec_get oneName_isSome))
    (run_of_guarded (run_exec_get otherName_isSome)) (by decide) (by decide)
    (by decide)

end Sample

end JobPortal
