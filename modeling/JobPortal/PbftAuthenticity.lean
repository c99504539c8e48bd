import JobPortal.FileRequests
import JobPortal.PbftRecords
import JobPortal.PbftCertificate

/-! What a signature vouches for. It is made over the bytes of a digest, so it shows neither which
kind of message its owner broadcast nor for which PbftID, and HRs sign their file requests with the
same key. -/
namespace JobPortal

open Cothority (RequestFileMessage)
open Hex Runs

variable (P : Primitives)

/-- The peer broadcast a message whose digest stands for the given bytes. -/
def Peer.Broadcast (p : Peer) (data : Bytes) : Prop :=
  ∃ m ∈ p.sent, ∃ d, m.digest = some d ∧ decodeString d = data

theorem Peer.Broadcast.mono {p q : Peer} {data : Bytes} (h : p.Broadcast data)
    (hsent : p.sent <+: q.sent) : q.Broadcast data := by
  obtain ⟨m, hm, hd⟩ := h
  exact ⟨m, hsent.subset hm, hd⟩

theorem Node.execPbftTLCMessage_signed (n : Node) (tlc : PbftTLCMessage) :
    (n.execPbftTLCMessage P tlc).signed = [] := by
  unfold Node.execPbftTLCMessage
  split_ifs <;> rfl

theorem Node.Effect.signed_sent {n : Node} {m : Message} {r : Handled} (h : n.Effect P m r) :
    ∀ data ∈ r.signed, ∃ m' ∈ r.sent, ∃ d, m'.digest = some d ∧ decodeString d = data := by
  cases h with
  | idle same => simp [same.signed]
  | pbftTLC tlc => simp [n.execPbftTLCMessage_signed P tlc]
  | prePrepare => simp [Node.prepareOf, Message.digest]
  | prepared => simp [Node.commitOf, Message.digest]
  | conflict => simp
  | prepare => simp
  | commit => simp
  | noPeers => simp
  | committed => simp
  | checkpoint => simp

theorem Node.tagSection_signed_sent (n : Node) (call : TagCall) :
    ∀ data ∈ (n.tagSection P call).signed, ∃ m' ∈ (n.tagSection P call).sent,
      ∃ d, m'.digest = some d ∧ decodeString d = data := by
  unfold Node.tagSection
  split_ifs <;> simp [Node.tagPrePrepare, Message.digest]

theorem Peer.Effect.signed_broadcast {p q : Peer} {e : PeerEvent} (h : p.Effect P e q)
    (hp : ∀ data ∈ p.signed, p.Broadcast data) : ∀ data ∈ q.signed, q.Broadcast data := by
  have after {p' : Peer} {r : Handled} (hsent : p'.sent = p.sent) (hsigned : p'.signed = p.signed)
      (hr : ∀ data ∈ r.signed, ∃ m' ∈ r.sent, ∃ d, m'.digest = some d ∧ decodeString d = data) :
      ∀ data ∈ (p'.after r).signed, (p'.after r).Broadcast data := by
    intro data hdata
    rcases List.mem_append.mp hdata with hold | hnew
    · rw [hsigned] at hold
      exact (hp data hold).mono (hsent ▸ List.prefix_append _ _)
    · obtain ⟨m, hm, hd⟩ := hr data hnew
      exact ⟨m, List.mem_append_right _ hm, hd⟩
  cases h with
  | receive m effect => exact after rfl rfl (effect.signed_sent P)
  | tag name mh =>
    unfold Peer.tag
    split_ifs <;> exact hp
  | verify => exact hp
  | propose => exact after rfl rfl (Node.tagSection_signed_sent P _ _)

theorem signed_broadcast_of_run {conf : PeerConfig} {es : List PeerEvent} {p : Peer}
    (h : AnyRun (Peer.step P) (newPeer P conf) es p) : ∀ data ∈ p.signed, p.Broadcast data :=
  h.invariant (I := fun p => ∀ data ∈ p.signed, p.Broadcast data) (by simp [newPeer])
    fun hp _ hstep => (Peer.step_effect P hstep).signed_broadcast P hp

/-- A PrePrepare that the handler records and answers. -/
def Node.Accepts (n : Node) (pp : PrePrepareMessage) : Prop :=
  n.Admits P pp.srcAddr pp.digest pp.signature ∧ P.getDigest pp.requestMessage = pp.digest ∧
    ¬ n.Conflicts pp

instance (n : Node) (pp : PrePrepareMessage) : Decidable (n.Accepts P pp) :=
  inferInstanceAs (Decidable (_ ∧ _ ∧ _))

theorem Network.config {P : Primitives} {D : Deployment P} {g : Network}
    {es : List (String × PeerEvent)} (hrun : AnyRun (Network.step D) (Network.start D) es g)
    (x : String) : (g x).node.myAddr = x ∧ (g x).node.pbft.addr = x ∧
      (g x).node.pbft.role = 0 ∧ (g x).node.totalPeers = D.members.card := by
  have hconf := sameConfig_of_run P (peer_run hrun x)
  exact ⟨hconf.myAddr, hconf.addr, hconf.role, hconf.totalPeers⟩

/-- A peer, and the file requests it has signed. -/
structure Signer where
  peer : Peer
  requests : List RequestFileMessage := []

inductive SignerEvent
  | peer (e : PeerEvent)
  /-- `RequestFile` of an HR at this address. -/
  | requestFile (hrid metaFileKey : String) (pubKey : Bytes) (serviceIndex : ℕ)
  deriving DecidableEq, Repr

namespace Signer

-- `json.Marshal` of a file request
variable (marshalRequestFile : RequestFileMessage → Bytes)

def requestFile (myAddr hrid metaFileKey : String) (pubKey : Bytes) (serviceIndex : ℕ) :
    RequestFileMessage :=
  let reqMsg : RequestFileMessage :=
    { hrid := hrid
      address := myAddr
      metaFileID := metaFileKey
      pubKey := pubKey
      mac := none
      serviceIndex := serviceIndex }
  { reqMsg with mac := some (P.signRSA (marshalRequestFile reqMsg) (P.getPrivateKey myAddr)) }

def step (s : Signer) : SignerEvent → Option Signer
  | .peer e => (s.peer.step P e).map fun p => { s with peer := p }
  | .requestFile hrid metaFileKey pubKey serviceIndex =>
    some { s with requests := s.requests ++ [requestFile P marshalRequestFile
      s.peer.node.myAddr hrid metaFileKey pubKey serviceIndex] }

/-- The bytes are those of a file request, which is signed without its MAC. -/
def Requested (s : Signer) (data : Bytes) : Prop :=
  ∃ m ∈ s.requests, marshalRequestFile { m with mac := none } = data

def Signed (s : Signer) (data : Bytes) : Prop :=
  data ∈ s.peer.signed ∨ s.Requested marshalRequestFile data

instance (s : Signer) (data : Bytes) : Decidable (s.Requested marshalRequestFile data) :=
  inferInstanceAs (Decidable (∃ m ∈ s.requests, _ = data))

instance (s : Signer) (data : Bytes) : Decidable (s.Signed marshalRequestFile data) :=
  inferInstanceAs (Decidable (_ ∨ _))

variable {P marshalRequestFile} {s t : Signer} {e : SignerEvent}

theorem step_peer (h : s.step P marshalRequestFile e = some t) :
    (∃ e', e = .peer e' ∧ s.peer.step P e' = some t.peer ∧ t.requests = s.requests) ∨
      t.peer = s.peer ∧ s.requests <+: t.requests := by
  cases e with
  | peer e =>
    obtain ⟨p, hp, rfl⟩ := Option.map_eq_some_iff.mp h
    exact .inl ⟨e, rfl, hp, rfl⟩
  | requestFile =>
    obtain rfl := Option.some.inj h
    exact .inr ⟨rfl, List.prefix_append _ _⟩

end Signer

abbrev Signers := String → Signer

namespace Signers

variable {P} (marshalRequestFile : RequestFileMessage → Bytes) (D : Deployment P)

def start : Signers := fun a => { peer := newPeer P (D.conf a) }

def step : Signers → String × SignerEvent → Option Signers :=
  each (Signer.step P marshalRequestFile) (· ∈ D.honest)

/-- RSA signatures are unforgeable: what verifies under the key of an honest node was signed with
it. The signature may stand in another message than the one it was made for. -/
def Authentic (g : Signers) : String × SignerEvent → Prop
  | (_, .peer (.receive m)) => ∀ src ∈ m.srcAddr, ∀ d ∈ m.digest, P.signed m = true →
      src ∈ D.honest → (g src).Signed marshalRequestFile (decodeString d)
  | _ => True

instance (g : Signers) : (e : String × SignerEvent) → Decidable (Authentic marshalRequestFile D g e)
  | (_, .peer (.receive _)) => by unfold Authentic; infer_instance
  | (_, .peer (.tag ..)) | (_, .peer (.verify _)) | (_, .peer (.propose _)) => isTrue trivial
  | (_, .requestFile ..) => isTrue trivial

def peers (g : Signers) : Network := fun a => (g a).peer

/-- A node of the PBFT has broadcast a message with these bytes, or has signed a file request of
them. -/
def Vouches (g : Signers) (p : String) (data : Bytes) : Prop :=
  (g p).peer.Broadcast data ∨ (g p).Requested marshalRequestFile data

variable {marshalRequestFile D} {g g' : Signers} {es : List (String × SignerEvent)}
  {ok : Signers → String × SignerEvent → Prop}

theorem step_effect {e : String × SignerEvent} (h : step marshalRequestFile D g e = some g') :
    (∃ e', e.2 = .peer e' ∧ Network.step D g.peers (e.1, e') = some g'.peers) ∨
      g'.peers = g.peers := by
  obtain ⟨a, e⟩ := e
  obtain ⟨ha, t, ht, rfl⟩ := each_eq_some h
  rcases Signer.step_peer ht with ⟨e', rfl, hpeer, _⟩ | ⟨hsame, _⟩
  · refine .inl ⟨e', rfl, ?_⟩
    have hupdate : peers (Function.update g a t) = Function.update g.peers a t.peer := by
      funext b
      exact Function.apply_update (fun _ (s : Signer) => s.peer) g a t b
    rw [Network.step, each, if_pos ha, hupdate]
    exact congrArg (Option.map _) hpeer
  · refine .inr (funext fun b => ?_)
    change (Function.update g a t b).peer = (g b).peer
    by_cases hb : b = a
    · rw [hb, Function.update_self, hsame]
    · rw [Function.update_of_ne hb]

/-- Without the file requests the nodes make up a network of peers. -/
theorem peers_run (h : Run (step marshalRequestFile D) ok (start D) es g) :
    ∃ es', AnyRun (Network.step D) (Network.start D) es' g.peers := by
  refine h.invariant (I := fun g => ∃ es', AnyRun (Network.step D) (Network.start D) es' g.peers)
    ⟨[], .nil⟩ fun {t u e} ⟨es', hrun⟩ _ hstep => ?_
  rcases step_effect hstep with ⟨e', _, hpeers⟩ | hsame
  · exact ⟨_, hrun.snoc trivial hpeers⟩
  · exact ⟨es', hsame ▸ hrun⟩

theorem Vouches.mono {e : String × SignerEvent} {p : String} {data : Bytes}
    (h : step marshalRequestFile D g e = some g') (hp : g.Vouches marshalRequestFile p data) :
    g'.Vouches marshalRequestFile p data := by
  obtain ⟨a, e⟩ := e
  refine each_forall (I := fun b t => (g b).peer.Broadcast data ∨
      (g b).Requested marshalRequestFile data → t.peer.Broadcast data ∨
      t.Requested marshalRequestFile data) h (fun _ => id) (fun t ht _ => ?_) p hp
  rcases Signer.step_peer ht with ⟨e', _, hpeer, hrequests⟩ | ⟨hsame, hprefix⟩
  · refine Or.imp (fun hbroadcast => ?_) fun ⟨m, hm, hdata⟩ => ⟨m, hrequests ▸ hm, hdata⟩
    exact hbroadcast.mono ((Peer.step_effect P hpeer).histories P).1
  · rw [hsame]
    exact Or.imp_right fun ⟨m, hm, hdata⟩ => ⟨m, hprefix.subset hm, hdata⟩

/-- What verifies under the key of an honest node is what this node vouched for. -/
theorem vouches_of_signed (hrun : Run (step marshalRequestFile D) ok (start D) es g) {x : String}
    {m : Message} (hauth : Authentic marshalRequestFile D g (x, .peer (.receive m))) {p d : String}
    (hsrc : m.srcAddr = some p) (hdigest : m.digest = some d) (hsigned : P.signed m = true)
    (hp : p ∈ D.honest) : g.Vouches marshalRequestFile p (decodeString d) := by
  obtain ⟨es', hpeers⟩ := peers_run hrun
  exact (hauth p hsrc d hdigest hsigned hp).imp_left
    (signed_broadcast_of_run P (Network.peer_run hpeers p) _)

theorem entry_vouches (hrun : Run (step marshalRequestFile D) (Authentic marshalRequestFile D)
    (start D) es g) {x p : String} (hp : p ∈ D.honest) (hne : p ≠ x) (kind : LogKind) {k : ℕ}
    {d : String} (hrec : (g x).peer.node.pbft.entry kind p k = some d) :
    g.Vouches marshalRequestFile p (decodeString d) := by
  induction hrun generalizing d with
  | nil =>
    cases kind <;> simp [start, newPeer, newSafePbft, SafePbft.entry, DigestLog.recorded,
      GoMap.get₂] at hrec
  | @snoc es g g' e prior meets enabled ih =>
    suffices (g x).peer.node.pbft.entry kind p k = some d ∨
        g.Vouches marshalRequestFile p (decodeString d) by
      rcases this with hold | hnew
      · exact Vouches.mono enabled (ih hold)
      · exact Vouches.mono enabled hnew
    obtain ⟨a, e⟩ := e
    rcases step_effect enabled with ⟨e', rfl, hpeers⟩ | hsame
    · obtain ⟨_, q, heff, hq⟩ := Network.step_effect hpeers
      change (g'.peers x).node.pbft.entry kind p k = some d at hrec
      rw [hq] at hrec
      by_cases hx : x = a
      · subst hx
        rw [Function.update_self] at hrec
        obtain ⟨_, hprior⟩ := peers_run prior
        obtain ⟨_, haddr, _, _⟩ := Network.config hprior x
        cases heff with
        | receive m effect =>
          rcases effect.entry_origin kind hrec with hold | hself | ⟨hlogs, _, hsigned, _⟩
          · exact .inl hold
          · exact absurd (hself.1.trans haddr) hne
          · obtain ⟨hsrc, hdigest⟩ := hlogs.names
            exact .inr (vouches_of_signed prior meets hsrc hdigest hsigned hp)
        | tag name mh => rw [Peer.tag_pbft] at hrec; exact .inl hrec
        | verify => exact .inl hrec
        | propose =>
          rcases tagSection_entry kind _ _ hrec with hold | ⟨_, hself⟩
          · exact .inl hold
          · exact absurd (hself.trans haddr) hne
      · rw [Function.update_of_ne hx] at hrec
        exact .inl hrec
    · have hpeer : (g' x).peer = (g x).peer := congrFun hsame x
      exact .inl (hpeer ▸ hrec)

end Signers

/-- What an honest node records of another honest node is about bytes that the other has broadcast
in some message of the PBFT or has signed as a file request. The digest of a PrePrepare it accepts
is too short for a request. -/
theorem recorded_vouched {marshalRequestFile : RequestFileMessage → Bytes}
    (hlong : ∀ m, 32 < (marshalRequestFile m).length) {D : Deployment P}
    {es : List (String × SignerEvent)} {g : Signers}
    (hrun : Run (Signers.step marshalRequestFile D) (Signers.Authentic marshalRequestFile D)
      (Signers.start D) es g) {x p : String} (hp : p ∈ D.honest) (hne : p ≠ x) :
    (∀ k d, (g x).peer.node.pbft.logPrepareMsg.recorded p k = some d ∨
        (g x).peer.node.pbft.logCommitMsg.recorded p k = some d ∨
        (g x).peer.node.pbft.logCheckpointMsg.get₂ k p = some d →
      g.Vouches marshalRequestFile p (decodeString d)) ∧
    (∀ pp, pp.srcAddr = p →
      Signers.Authentic marshalRequestFile D g (x, .peer (.receive (.prePrepare pp))) →
      (g x).peer.node.Accepts P pp → (g p).peer.Broadcast (decodeString pp.digest)) := by
  constructor
  · rintro k d (hprepare | hcommit | hcheckpoint)
    · exact Signers.entry_vouches hrun hp hne .prepare hprepare
    · exact Signers.entry_vouches hrun hp hne .commit hcommit
    · exact Signers.entry_vouches hrun hp hne .checkpoint hcheckpoint
  · rintro pp rfl hauth ⟨⟨_, hsigned, _⟩, hdigest, _⟩
    rcases Signers.vouches_of_signed hrun hauth rfl rfl hsigned hp with hbroadcast | ⟨m, _, hm⟩
    · exact hbroadcast
    · have hlength := P.sha256_length (P.marshalRequest pp.requestMessage)
      rw [← hdigest, Primitives.getDigest, decodeString_encode] at hm
      rw [← hm] at hlength
      exact absurd (hlong { m with mac := none }) (by omega)

namespace Sample

def deployment : Deployment primitives where
  members := addrs
  faulty := {"D"}
  paxosID a := if a = "A" then 1 else if a = "B" then 2 else if a = "C" then 3 else 4
  keys a key h := by
    simp only [primitives] at h
    split_ifs at h with ha
    exact ha

/-- D proposes a request to B, and copies the signature of B's Prepare into a Commit for another
ID, with the digest in upper case. -/
def copied : List (String × PeerEvent) :=
  [("B", .receive (.prePrepare (prePrepareFrom "D" request 8))),
    ("A", .receive (.commit { commitFrom "B" digest.toUpper 4 with
      signature := (prepareFrom "B" digest 8).signature }))]

theorem copied_isSome :
    (exec (guarded (Network.step deployment) (Network.Authentic deployment))
      (Network.start deployment) copied).isSome := by
  decide +kernel

def misled : Network :=
  (exec (guarded (Network.step deployment) (Network.Authentic deployment))
    (Network.start deployment) copied).get copied_isSome

def marshalRequestFile (m : RequestFileMessage) : Bytes :=
  utf8 "HRID Address MetaFileID PubKey MAC ServiceIndex" ++ text m.hrid ++ text m.address ++
    text m.metaFileID ++ field m.pubKey ++ field (m.mac.getD []) ++
    field (List.replicate m.serviceIndex 0)

theorem marshalRequestFile_length (m : RequestFileMessage) :
    32 < (marshalRequestFile m).length := by
  have hnames : (utf8 "HRID Address MetaFileID PubKey MAC ServiceIndex").length = 47 := by decide
  simp only [marshalRequestFile, List.length_append, hnames]
  omega

def requested : RequestFileMessage :=
  Signer.requestFile primitives marshalRequestFile "B" "1" "file" [5] 0

def requestDigest : String := encodeToString (marshalRequestFile { requested with mac := none })

/-- In between B signs a file request, and D makes another Commit of its MAC. -/
def vouched : List (String × SignerEvent) :=
  copied.map (fun e => (e.1, .peer e.2)) ++
    [("B", .requestFile "1" "file" [5] 0),
      ("A", .peer (.receive (.commit
        { viewID := 0
          digest := requestDigest
          pbftID := 5
          srcAddr := "B"
          signature := requested.mac.getD [] })))]

theorem vouched_isSome :
    (exec (guarded (Signers.step marshalRequestFile deployment)
      (Signers.Authentic marshalRequestFile deployment)) (Signers.start deployment)
      vouched).isSome := by
  decide +kernel

def vouching : Signers :=
  (exec (guarded (Signers.step marshalRequestFile deployment)
    (Signers.Authentic marshalRequestFile deployment)) (Signers.start deployment) vouched).get
    vouched_isSome

/-- A has two Commits of B on record, while B has broadcast a Prepare only, for another ID and with
another text. -/
theorem authenticity_counterexample :
    Run (Signers.step marshalRequestFile deployment)
        (Signers.Authentic marshalRequestFile deployment) (Signers.start deployment)
        vouched vouching ∧
      "A" ∈ deployment.honest ∧ "B" ∈ deployment.honest ∧
      (vouching "A").peer.node.pbft.logCommitMsg.recorded "B" 4 = some digest.toUpper ∧
      (vouching "A").peer.node.pbft.logCommitMsg.recorded "B" 5 = some requestDigest ∧
      (vouching "B").peer.sent = [.prepare (prepareFrom "B" digest 8)] ∧
      digest.toUpper ≠ digest ∧ requestDigest ≠ digest :=
  ⟨run_of_guarded (run_exec_get _), by decide, by decide, by decide +kernel, by decide +kernel,
    by decide +kernel, by decide +kernel, by decide +kernel⟩

theorem recorded_vouched_copied :
    vouching.Vouches marshalRequestFile "B" (decodeString digest.toUpper) ∧
      vouching.Vouches marshalRequestFile "B" (decodeString requestDigest) :=
  have h := (recorded_vouched primitives marshalRequestFile_length (x := "A") (p := "B")
    (run_of_guarded (run_exec_get vouched_isSome)) (by decide) (by decide)).1
  ⟨h 4 _ (.inr (.inl (by decide +kernel))), h 5 _ (.inr (.inl (by decide +kernel)))⟩

end Sample

end JobPortal
