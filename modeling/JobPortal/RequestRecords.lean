import JobPortal.FileRequests
import JobPortal.PbftBindings

/-! The records of the file requests. The node that a request indicates as its service node tags a
record of it before it answers, and the other nodes answer on their own. -/
namespace JobPortal

open Goroutines Hex Runs

variable {P : Primitives} {p q : Peer} {e : PeerEvent}

namespace Peer

def Tagged (p : Peer) (request : PbftRequest) : Prop := ∃ b ∈ p.blocks, b.request = request

/-- A call of `Tag` returns when its name is bound, or when there is nothing to be bound to. -/
def ReturnsTagged (p : Peer) : Prop :=
  ∀ call ∈ p.calls, call.pc = .returned →
    call.mh = "" ∨ p.Tagged ⟨p.node.myAddr, call.name, call.mh⟩

theorem Effect.tagged (h : p.Effect P e q) {request : PbftRequest} (ht : p.Tagged request) :
    q.Tagged request := by
  obtain ⟨b, hb, hrequest⟩ := ht
  have hprefix : p.blocks <+: q.blocks := (h.histories P).2.2.map _
  exact ⟨b, hprefix.subset hb, hrequest⟩

theorem tagged_of_done (hnaming : p.node.hrStorage.hrNaming = namingOf p.blocks) {call : TagCall}
    (h : p.node.tagDone call) (hmh : call.mh ≠ "") :
    p.Tagged ⟨p.node.myAddr, call.name, call.mh⟩ := by
  unfold Node.tagDone at h
  cases hget : p.node.hrStorage.hrNaming.get p.node.myAddr call.name with
  | none =>
    rw [hget] at h
    exact absurd (utf8_injective (show utf8 call.mh = utf8 "" from h.symm)) hmh
  | some value =>
    rw [hget, Option.getD_some] at h
    rw [hnaming, get_namingOf, Option.map_eq_some_iff] at hget
    obtain ⟨b, hb, hvalue⟩ := hget
    have hmem := List.mem_of_getLast? hb
    rw [List.mem_filter, blocksFor, List.mem_filter] at hmem
    obtain ⟨⟨hblock, hhr⟩, hname⟩ := hmem
    have hmetahash := utf8_injective (hvalue.trans h)
    refine ⟨b, hblock, ?_⟩
    rw [← of_decide_eq_true hhr, ← of_decide_eq_true hname, ← hmetahash]

theorem Effect.call_at (h : p.Effect P e q) {i : ℕ} {call : TagCall}
    (hi : p.calls[i]? = some call) :
    ∃ call', q.calls[i]? = some call' ∧ call'.name = call.name ∧ call'.mh = call.mh := by
  have hset {k : ℕ} {old new : TagCall} (hk : p.calls[k]? = some old) (hname : new.name = old.name)
      (hmh : new.mh = old.mh) : ∃ call', (p.calls.set k new)[i]? = some call' ∧
        call'.name = call.name ∧ call'.mh = call.mh := by
    by_cases hik : i = k
    · subst hik
      rw [hk] at hi
      cases hi
      exact ⟨new, (getElem?_set_eq_some hk).mpr (.inl ⟨rfl, rfl⟩), hname, hmh⟩
    · exact ⟨call, (getElem?_set_eq_some hk).mpr (.inr ⟨hik, hi⟩), rfl, rfl⟩
  cases h with
  | receive => exact ⟨call, hi, rfl, rfl⟩
  | tag name mh =>
    unfold Peer.tag
    split_ifs
    · exact ⟨call, hi, rfl, rfl⟩
    · exact ⟨call, hi, rfl, rfl⟩
    · exact ⟨call, getElem?_concat_eq_some.mpr (.inl hi), rfl, rfl⟩
  | verify call_at => exact hset call_at rfl rfl
  | propose call_at => exact hset call_at rfl rfl

theorem Effect.returnsTagged (h : p.Effect P e q) (hp : p.ReturnsTagged)
    (hnaming : p.node.hrStorage.hrNaming = namingOf p.blocks) : q.ReturnsTagged := by
  have haddr : q.node.myAddr = p.node.myAddr := (h.sameConfig P).myAddr
  have hkept : ∀ call ∈ p.calls, call.pc = .returned →
      call.mh = "" ∨ q.Tagged ⟨q.node.myAddr, call.name, call.mh⟩ := by
    intro call hcall hpc
    rw [haddr]
    exact (hp call hcall hpc).imp_right h.tagged
  intro call hcall hpc
  cases h with
  | receive => exact hkept call hcall hpc
  | tag name mh =>
    unfold Peer.tag at hcall
    split_ifs at hcall
    · exact hkept call hcall hpc
    · exact hkept call hcall hpc
    · rcases List.mem_append.mp hcall with hcall | hcall
      · exact hkept call hcall hpc
      · rw [List.mem_singleton.mp hcall] at hpc
        cases hpc
  | @verify i old call_at pc =>
    rcases List.mem_or_eq_of_mem_set hcall with hcall | rfl
    · exact hkept call hcall hpc
    · dsimp only at hpc
      split_ifs at hpc with hdone
      by_cases hmh : old.mh = ""
      · exact .inl hmh
      · exact .inr (tagged_of_done hnaming hdone hmh)
  | @propose i old call_at pc =>
    rcases List.mem_or_eq_of_mem_set hcall with hcall | rfl
    · exact hkept call hcall hpc
    · cases hpc

end Peer

namespace Cothority

structure RequestRecord where
  index : ℕ
  seenTime : String
  hrid : String
  hrAddress : String
  deriving DecidableEq, Repr

structure RecordPrimitives (S : Type) extends RequestPrimitives S where
  marshalRecord : RequestRecord → Bytes

/-- A cothority node with its part of the consensus. `tags` are the calls of `Tag` that requests
wait for. -/
structure ServiceNode (S : Type) where
  peer : Peer
  files : FileNode S
  tags : GoMap ℕ ℕ := ∅

inductive ServiceEvent
  | peer (e : PeerEvent)
  | files (e : FileEvent)
  /-- A request is checked and, at its service node, recorded with the time. -/
  | authenticate (j : ℕ) (seenTime : String)
  | recorded (j : ℕ)

namespace ServiceNode

variable {S : Type} (P : RecordPrimitives S)

def recordName (index : ℕ) (seenTime : String) (m : RequestFileMessage) : String :=
  encodeToString (P.marshalRecord ⟨index, seenTime, m.hrid, m.address⟩)

/-- The service node calls `Tag` for the request. A call that returns at once is not noted down. -/
def record (s : ServiceNode S) (j : ℕ) (seenTime : String) (m : RequestFileMessage) :
    ServiceNode S :=
  let peer := s.peer.tag (recordName P s.files.index seenTime m) m.metaFileID
  { s with
    peer := peer
    tags := if s.peer.calls.length < peer.calls.length then s.tags.insert j s.peer.calls.length
      else s.tags }

def TagReturned (s : ServiceNode S) (j : ℕ) : Prop :=
  match s.tags.lookup j with
  | some i => (s.peer.calls[i]?).map (·.pc) = some .returned
  | none => True

instance (s : ServiceNode S) (j : ℕ) : Decidable (s.TagReturned j) := by
  unfold TagReturned
  split <;> infer_instance

def step (s : ServiceNode S) : ServiceEvent → Option (ServiceNode S)
  | .peer e => (s.peer.step P.toPrimitives e).map fun peer => { s with peer := peer }
  | .files (.authenticate _) | .files (.recorded _) => none
  | .files e => (s.files.step P.toRequestPrimitives e).map fun files => { s with files := files }
  | .authenticate j seenTime =>
    (s.files.step P.toRequestPrimitives (.authenticate j)).map fun (files : FileNode S) =>
      match files.requests[j]? with
      | some (m, .recording) => { s.record P j seenTime m with files := files }
      | _ => { s with files := files }
  | .recorded j =>
    if s.TagReturned j then
      (s.files.step P.toRequestPrimitives (.recorded j)).map fun files => { s with files := files }
    else none

def Recorded (s : ServiceNode S) (m : RequestFileMessage) : Prop :=
  ∃ idhr index seenTime, s.peer.Tagged ⟨idhr, recordName P index seenTime m, m.metaFileID⟩

def Answered (s : ServiceNode S) (m : RequestFileMessage) : Prop :=
  ∃ (j : ℕ) (r : ResponseFileMessage), s.files.requests[j]? = some (m, .answered r)

/-- The time makes a name that the node has not used before. -/
def FreshRecord (s : ServiceNode S) : ServiceEvent → Prop
  | .authenticate j seenTime => ∀ m, s.files.requests[j]? = some (m, .received) →
      s.peer.node.hrStorage.hrNaming.get s.peer.node.myAddr
        (recordName P s.files.index seenTime m) = none
  | _ => True

instance (s : ServiceNode S) : DecidablePred (s.FreshRecord P)
  | .authenticate j seenTime =>
    decidable_of_iff (∀ task ∈ s.files.requests[j]?, task.2 = .received →
        s.peer.node.hrStorage.hrNaming.get s.peer.node.myAddr
          (recordName P s.files.index seenTime task.1) = none)
      ⟨fun h m hm => h (m, .received) hm rfl, fun h task htask hpc => h task.1 (hpc ▸ htask)⟩
  | .peer _ | .files _ | .recorded _ => isTrue trivial

/-- A service node that is on its way to the answer has recorded the request, unless the request
names no file. -/
structure Recording (s : ServiceNode S) : Prop where
  peers : 1 < s.peer.node.totalPeers
  naming : s.peer.node.hrStorage.hrNaming = namingOf s.peer.blocks
  returnsTagged : s.peer.ReturnsTagged
  tagging : ∀ (j : ℕ) (m : RequestFileMessage), s.files.requests[j]? = some (m, .recording) →
    ∃ (i : ℕ) (call : TagCall) (seenTime : String), s.tags.lookup j = some i ∧
      s.peer.calls[i]? = some call ∧ call.name = recordName P s.files.index seenTime m ∧
      call.mh = m.metaFileID
  served : ∀ (j : ℕ) (m : RequestFileMessage) (pc : RequestPC),
    s.files.requests[j]? = some (m, pc) → m.serviceIndex = s.files.index → FileNode.OnItsWay pc →
      m.metaFileID = "" ∨ s.Recorded P m

variable {P} {s t : ServiceNode S}

theorem Recording.peer (hs : s.Recording P) {e : PeerEvent} {q : Peer}
    (h : s.peer.Effect P.toPrimitives e q) :
    ({ s with peer := q } : ServiceNode S).Recording P where
  peers := by
    dsimp only
    rw [(h.sameConfig _).totalPeers]
    exact hs.peers
  naming := h.naming hs.peers hs.naming
  returnsTagged := h.returnsTagged hs.returnsTagged hs.naming
  tagging j m hj := by
    obtain ⟨i, call, seenTime, htag, hcall, hname, hmh⟩ := hs.tagging j m hj
    obtain ⟨call', hcall', hname', hmh'⟩ := h.call_at hcall
    exact ⟨i, call', seenTime, htag, hcall', hname'.trans hname, hmh'.trans hmh⟩
  served j m pc hj hservice hway := by
    apply (hs.served j m pc hj hservice hway).imp_right
    rintro ⟨idhr, index, seenTime, htagged⟩
    exact ⟨idhr, index, seenTime, h.tagged htagged⟩

/-- What a step of the files leaves of the record keeping. A request that comes out of the check at
its service node, or out of `Tag`, is accounted for by `hchecked` and `hrecorded`. -/
theorem Recording.files (hs : s.Recording P) {e : FileEvent} {n : FileNode S}
    (h : s.files.step P.toRequestPrimitives e = some n)
    (hchecked : ∀ j, e = .authenticate j → ∀ m, n.requests[j]? = some (m, .recording) →
      ∃ (i : ℕ) (call : TagCall) (seenTime : String), s.tags.lookup j = some i ∧
        s.peer.calls[i]? = some call ∧ call.name = recordName P s.files.index seenTime m ∧
        call.mh = m.metaFileID)
    (hrecorded : ∀ j, e = .recorded j → s.TagReturned j) :
    ({ s with files := n } : ServiceNode S).Recording P := by
  have hindex := (FileNode.config_of_step h).2
  refine { hs with tagging := ?_, served := ?_ }
  · intro j m hj
    change ∃ (i : ℕ) (call : TagCall) (seenTime : String), s.tags.lookup j = some i ∧
      s.peer.calls[i]? = some call ∧ call.name = recordName P n.index seenTime m ∧ _
    rw [hindex]
    have hmoved := FileNode.moved_of_step h hj
    generalize hpc : RequestPC.recording = pc at hmoved
    cases hmoved with
    | kept hold => exact hs.tagging j m (hpc ▸ hold)
    | onward _ _ hafter =>
      subst hpc
      simp [FileNode.OnItsWay] at hafter
    | checked event _ => exact hchecked j event m hj
    | received | dropped | recorded => cases hpc
  · intro j m pc hj hservice hway
    change m.serviceIndex = n.index at hservice
    rw [hindex] at hservice
    cases FileNode.moved_of_step h hj with
    | kept hold => exact hs.served j m pc hold hservice hway
    | onward hold hbefore _ => exact hs.served j m _ hold hservice hbefore
    | checked =>
      rw [if_pos hservice] at hway
      simp [FileNode.OnItsWay] at hway
    | received | dropped => simp [FileNode.OnItsWay] at hway
    | recorded event hold =>
      obtain ⟨i, call, seenTime, htag, hcall, hname, hmh⟩ := hs.tagging j m hold
      have hreturned := hrecorded j event
      rw [TagReturned, htag] at hreturned
      dsimp only at hreturned
      rw [hcall] at hreturned
      have htagged := hs.returnsTagged call (List.mem_of_getElem? hcall) (Option.some.inj hreturned)
      rw [hmh, hname] at htagged
      exact htagged.imp_right fun htagged => ⟨_, _, seenTime, htagged⟩

theorem record_eq (hpeers : 1 < s.peer.node.totalPeers) {j : ℕ} {seenTime : String}
    {m : RequestFileMessage}
    (hfresh : s.peer.node.hrStorage.hrNaming.get s.peer.node.myAddr
      (recordName P s.files.index seenTime m) = none) :
    s.record P j seenTime m =
      { s with
        peer := { s.peer with calls := s.peer.calls ++
          [{ name := recordName P s.files.index seenTime m, mh := m.metaFileID }] }
        tags := s.tags.insert j s.peer.calls.length } := by
  have htag : s.peer.tag (recordName P s.files.index seenTime m) m.metaFileID =
      { s.peer with calls := s.peer.calls ++
        [{ name := recordName P s.files.index seenTime m, mh := m.metaFileID }] } := by
    unfold Peer.tag
    rw [if_neg (Nat.not_le_of_lt hpeers), hfresh, if_neg (by simp)]
  simp [record, htag]

theorem Recording.record (hs : s.Recording P) {j : ℕ} {seenTime : String} {m : RequestFileMessage}
    (hfresh : s.peer.node.hrStorage.hrNaming.get s.peer.node.myAddr
      (recordName P s.files.index seenTime m) = none)
    (hj : s.files.requests[j]? = some (m, .received)) : (s.record P j seenTime m).Recording P := by
  have hpeer := hs.peer (.tag (recordName P s.files.index seenTime m) m.metaFileID)
  have heq := record_eq (j := j) hs.peers hfresh
  refine { hpeer with tagging := ?_ }
  intro k m' hk
  obtain ⟨i, call, seenTime', htag, hcall, hname⟩ := hs.tagging k m' hk
  have hold : s.files.requests[k]? = some (m', .recording) := hk
  have hne : k ≠ j := by
    rintro rfl
    rw [hj] at hold
    cases hold
  refine ⟨i, call, seenTime', ?_, ?_, hname⟩
  · rw [heq]
    exact (Finmap.lookup_insert_of_ne _ hne).trans htag
  · rw [heq]
    exact getElem?_concat_eq_some.mpr (.inl hcall)

theorem received_of_authenticate {j : ℕ} {n : FileNode S}
    (h : s.files.step P.toRequestPrimitives (.authenticate j) = some n) {m : RequestFileMessage}
    {pc : RequestPC} (hj : n.requests[j]? = some (m, pc)) :
    s.files.requests[j]? = some (m, .received) := by
  cases FileNode.step_effect h with
  | authenticate hold =>
    rcases (getElem?_set_eq_some hold).mp hj with ⟨_, heq⟩ | ⟨hne, _⟩
    · cases heq
      exact hold
    · exact absurd rfl hne

theorem Recording.step (hs : s.Recording P) {e : ServiceEvent} (he : s.FreshRecord P e)
    (h : s.step P e = some t) : t.Recording P := by
  cases e with
  | peer e =>
    obtain ⟨q, hq, rfl⟩ := Option.map_eq_some_iff.mp h
    exact hs.peer (Peer.step_effect _ hq)
  | files e =>
    cases e with
    | authenticate j | recorded j => cases h
    | _ =>
      simp only [ServiceNode.step] at h
      obtain ⟨n, hn, rfl⟩ := Option.map_eq_some_iff.mp h
      exact hs.files hn nofun nofun
  | authenticate j seenTime =>
    obtain ⟨n, hn, rfl⟩ := Option.map_eq_some_iff.mp h
    split
    · rename_i m hj
      have hreceived := received_of_authenticate hn hj
      have hfresh := he m hreceived
      have heq := record_eq (j := j) hs.peers hfresh
      apply (hs.record hfresh hreceived).files hn
      · rintro _ ⟨⟩ m' hm'
        rw [hj] at hm'
        cases hm'
        refine ⟨s.peer.calls.length,
          { name := recordName P s.files.index seenTime m, mh := m.metaFileID }, seenTime, ?_, ?_,
          rfl, rfl⟩
        · rw [heq]
          exact Finmap.lookup_insert _
        · rw [heq]
          exact getElem?_concat_eq_some.mpr (.inr ⟨rfl, rfl⟩)
      · exact nofun
    · rename_i hnot
      apply hs.files hn
      · rintro _ ⟨⟩ m hm
        exact absurd hm (hnot m)
      · exact nofun
  | recorded j =>
    simp only [ServiceNode.step] at h
    split_ifs at h with hreturned
    obtain ⟨n, hn, rfl⟩ := Option.map_eq_some_iff.mp h
    apply hs.files hn nofun
    rintro _ ⟨⟩
    exact hreturned

theorem index_of_step {e : ServiceEvent} (h : s.step P e = some t) :
    t.files.index = s.files.index := by
  cases e with
  | peer e =>
    obtain ⟨q, _, rfl⟩ := Option.map_eq_some_iff.mp h
    rfl
  | files e =>
    cases e with
    | authenticate j | recorded j => cases h
    | _ =>
      simp only [ServiceNode.step] at h
      obtain ⟨n, hn, rfl⟩ := Option.map_eq_some_iff.mp h
      exact (FileNode.config_of_step hn).2
  | authenticate j seenTime =>
    obtain ⟨n, hn, rfl⟩ := Option.map_eq_some_iff.mp h
    split <;> exact (FileNode.config_of_step hn).2
  | recorded j =>
    simp only [ServiceNode.step] at h
    split_ifs at h
    obtain ⟨n, hn, rfl⟩ := Option.map_eq_some_iff.mp h
    exact (FileNode.config_of_step hn).2

end ServiceNode

/-- The cothority nodes after the key generation. All of them are honest. -/
structure CothorityConfig (S : Type) where
  num : ℕ
  address : ℕ → String
  paxosID : ℕ → ℕ
  signMethod : ℕ
  hrSecretTable : GoMap ℕ String
  share : ℕ → S
  pubKey : Bytes

namespace CothorityConfig

variable {S : Type} (P : RecordPrimitives S) (C : CothorityConfig S)

def node (i : ℕ) : ServiceNode S where
  peer := newPeer P.toPrimitives
    { myAddr := C.address i, paxosID := C.paxosID i, totalPeers := C.num }
  files :=
    { index := i
      signMethod := C.signMethod
      hrSecretTable := C.hrSecretTable
      priShare := some (C.share i)
      pubKey := C.pubKey }

def step : (ℕ → ServiceNode S) → ℕ × ServiceEvent → Option (ℕ → ServiceNode S) :=
  each (ServiceNode.step P) (· < C.num)

def FreshRecords (g : ℕ → ServiceNode S) (e : ℕ × ServiceEvent) : Prop := (g e.1).FreshRecord P e.2

instance (g : ℕ → ServiceNode S) (e : ℕ × ServiceEvent) : Decidable (FreshRecords P g e) :=
  inferInstanceAs (Decidable ((g e.1).FreshRecord P e.2))

def Authentic (m : RequestFileMessage) : Prop :=
  ∀ i < C.num, (C.node P i).files.authenticate P.toRequestPrimitives m = .done true

/-- Enough nodes have answered for the HR to decrypt the file. -/
def Released (g : ℕ → ServiceNode S) (m : RequestFileMessage) : Prop :=
  ∃ nodes : Finset ℕ, (∀ i ∈ nodes, i < C.num ∧ (g i).Answered m) ∧
    shareThreshold C.num ≤ nodes.card

/-- Whatever is released is on record on the chain of a node. -/
def OnRecord (m : RequestFileMessage) : Prop :=
  ∀ es g, Run (C.step P) (FreshRecords P) (C.node P) es g → C.Released g m →
    ∃ i < C.num, (g i).Recorded P m

variable {P C} {m : RequestFileMessage}

theorem recording_node (hnum : 1 < C.num) (i : ℕ) : (C.node P i).Recording P where
  peers := hnum
  naming := rfl
  returnsTagged call hcall := by cases hcall
  tagging j m hj := by cases hj
  served j m pc hj := by cases hj

theorem recorded_of_answered (hnum : 1 < C.num) {es : List (ℕ × ServiceEvent)}
    {g : ℕ → ServiceNode S} (h : Run (C.step P) (FreshRecords P) (C.node P) es g)
    (hanswered : (g m.serviceIndex).Answered m) (hfile : m.metaFileID ≠ "") :
    (g m.serviceIndex).Recorded P m := by
  have hrun : Run (ServiceNode.step P) (ServiceNode.FreshRecord P) (C.node P m.serviceIndex)
      (eventsOf m.serviceIndex es) (g m.serviceIndex) := h.component (fun _ _ _ h => h) _
  have hrecording := hrun.invariant (recording_node hnum m.serviceIndex)
    fun hs he hstep => hs.step he hstep
  have hindex := hrun.invariant (I := fun s => s.files.index = m.serviceIndex) rfl
    fun hs _ hstep => (ServiceNode.index_of_step hstep).trans hs
  obtain ⟨j, r, hj⟩ := hanswered
  have hserved := hrecording.served j m _ hj hindex.symm (.inr (.inr (.inr (.inr ⟨r, rfl⟩))))
  exact hserved.resolve_left hfile

def holding (C : CothorityConfig S) (P : RecordPrimitives S) (m : RequestFileMessage) (i : ℕ)
    (pc : RequestPC) : FileNode S :=
  { (C.node P i).files with
    dataTable := (∅ : GoMap String Data).insert m.metaFileID ⟨none, []⟩
    requests := [(m, pc)]
    files := [(⟨m.metaFileID, none, []⟩, .finished)] }

theorem run_arriving (m : RequestFileMessage) (i : ℕ) :
    exec (ServiceNode.step P) (C.node P i)
      [.files (.encryptedFile ⟨m.metaFileID, none, []⟩), .files (.lock 0), .files (.acquire 0),
        .files (.write 0), .files (.unlock 0), .files (.request m)] =
      some { C.node P i with files := C.holding P m i .received } := rfl

theorem run_answering (m : RequestFileMessage) (i : ℕ) (peer : Peer) (tags : GoMap ℕ ℕ) :
    exec (ServiceNode.step P) ⟨peer, C.holding P m i .waiting, tags⟩
      [.files (.rLock 0), .files (.read 0), .files (.rUnlock 0), .files (.answer 0)] =
      some ⟨peer, C.holding P m i (.answered ((C.node P i).files.response P.toRequestPrimitives
        (C.share i) m ⟨none, []⟩)), tags⟩ := by
  have hread : (C.holding P m i .reading).step P.toRequestPrimitives (.read 0) =
      some (C.holding P m i (.found ⟨none, []⟩)) := by
    simp [FileNode.step, FileNode.act, holding, FileNode.goOn, Turn.toOption]
  have hlock : ServiceNode.step P ⟨peer, C.holding P m i .waiting, tags⟩ (.files (.rLock 0)) =
      some ⟨peer, C.holding P m i .reading, tags⟩ := rfl
  have hfound : ServiceNode.step P ⟨peer, C.holding P m i .reading, tags⟩ (.files (.read 0)) =
      some ⟨peer, C.holding P m i (.found ⟨none, []⟩), tags⟩ := by
    rw [ServiceNode.step, hread, Option.map_some]
    all_goals
      intro _ h
      cases h
  rw [exec, hlock, Option.bind_some, exec, hfound]
  rfl

theorem step_authenticate (hm : C.Authentic P m) {i : ℕ} (hi : i < C.num) :
    (C.holding P m i .received).step P.toRequestPrimitives (.authenticate 0) =
      some (C.holding P m i (if m.serviceIndex = i then .recording else .waiting)) := by
  have hvalid : (C.holding P m i .received).authenticate P.toRequestPrimitives m = .done true :=
    hm i hi
  simp only [FileNode.step, FileNode.act, holding, List.getElem?_cons_zero] at hvalid ⊢
  rw [hvalid]
  rfl

/-- Only the check of a request makes a record. -/
theorem run_of_exec_fresh {s t : ServiceNode S} {es : List ServiceEvent}
    (h : exec (ServiceNode.step P) s es = some t)
    (hes : ∀ j seenTime, .authenticate j seenTime ∉ es) :
    Run (ServiceNode.step P) (ServiceNode.FreshRecord P) s es t := by
  apply (run_of_exec h).mem.imp
  intro s e he
  cases e with
  | authenticate j seenTime => exact absurd he.2 (hes j seenTime)
  | _ => trivial

/-- A record of no file is no record: `Tag` returns at once. -/
theorem run_recording (hm : C.Authentic P m) (hnum : 1 < C.num) {i : ℕ} (hi : i < C.num)
    (hservice : m.serviceIndex = i) (hfile : m.metaFileID = "") :
    ∃ es peer tags, Run (ServiceNode.step P) (ServiceNode.FreshRecord P)
      { C.node P i with files := C.holding P m i .received } es
      ⟨peer, C.holding P m i .waiting, tags⟩ ∧ peer.appended = [] := by
  have hfresh : ServiceNode.FreshRecord P { C.node P i with files := C.holding P m i .received }
      (.authenticate 0 "") := fun _ _ => rfl
  have hunused : (C.node P i).peer.node.hrStorage.hrNaming.get (C.node P i).peer.node.myAddr
      (ServiceNode.recordName P i "" m) = none := rfl
  have hchecked := step_authenticate hm hi
  rw [if_pos hservice] at hchecked
  have hrecord := ServiceNode.record_eq (P := P) (j := 0)
    (s := { C.node P i with files := C.holding P m i .received }) hnum hunused
  let peer (pc : TagPC) : Peer := { (C.node P i).peer with calls :=
    [{ name := ServiceNode.recordName P i "" m, mh := m.metaFileID, pc := pc }] }
  let tags : GoMap ℕ ℕ := (∅ : GoMap ℕ ℕ).insert 0 0
  let recording (pc : TagPC) : ServiceNode S := ⟨peer pc, C.holding P m i .recording, tags⟩
  have htag : ServiceNode.step P { C.node P i with files := C.holding P m i .received }
      (.authenticate 0 "") = some (recording .verifying) := by
    rw [ServiceNode.step, hchecked]
    change some { ServiceNode.record P
      { C.node P i with files := C.holding P m i .received } 0 "" m with
      files := C.holding P m i .recording } = _
    rw [hrecord]
    rfl
  have hverify : ServiceNode.step P (recording .verifying) (.peer (.verify 0)) =
      some (recording .returned) := by
    have hdone : (peer .verifying).node.tagDone
        { name := ServiceNode.recordName P i "" m, mh := m.metaFileID } := by
      rw [hfile]
      rfl
    simp [ServiceNode.step, Peer.step, Peer.verify, recording, peer, hdone]
  have hreturned : ServiceNode.step P (recording .returned) (.recorded 0) =
      some ⟨peer .returned, C.holding P m i .waiting, tags⟩ := by
    have hready : (recording .returned).TagReturned 0 := by
      rw [ServiceNode.TagReturned, Finmap.lookup_insert]
      rfl
    rw [ServiceNode.step, if_pos hready]
    rfl
  have hfree₁ : ServiceNode.FreshRecord P (recording .verifying) (.peer (.verify 0)) := trivial
  have hfree₂ : ServiceNode.FreshRecord P (recording .returned) (.recorded 0) := trivial
  have hcalled := (Run.one hfresh htag).append (.one hfree₁ hverify)
  exact ⟨_, _, _, hcalled.append (.one hfree₂ hreturned), rfl⟩

theorem run_waiting (hm : C.Authentic P m) (hnum : 1 < C.num) {i : ℕ} (hi : i < C.num)
    (hfree : i ≠ m.serviceIndex ∨ m.metaFileID = "") :
    ∃ es peer tags, Run (ServiceNode.step P) (ServiceNode.FreshRecord P)
      { C.node P i with files := C.holding P m i .received } es
      ⟨peer, C.holding P m i .waiting, tags⟩ ∧ peer.appended = [] := by
  by_cases hservice : m.serviceIndex = i
  · exact run_recording hm hnum hi hservice (hfree.resolve_left fun hne => hne hservice.symm)
  · have hchecked := step_authenticate hm hi
    rw [if_neg hservice] at hchecked
    refine ⟨[.authenticate 0 ""], (C.node P i).peer, ∅, .one (fun _ _ => rfl) ?_, rfl⟩
    rw [ServiceNode.step, hchecked]
    rfl

/-- A node answers on its own, and nothing is on its chain. -/
theorem serves (hm : C.Authentic P m) (hnum : 1 < C.num) {i : ℕ} (hi : i < C.num)
    (hfree : i ≠ m.serviceIndex ∨ m.metaFileID = "") :
    ∃ s, (∃ es, Run (ServiceNode.step P) (ServiceNode.FreshRecord P) (C.node P i) es s) ∧
      s.Answered m ∧ s.peer.appended = [] := by
  obtain ⟨es, peer, tags, hrun, happended⟩ := run_waiting hm hnum hi hfree
  have harriving := run_of_exec_fresh (run_arriving (P := P) (C := C) m i) (by simp)
  have hanswering := run_of_exec_fresh (run_answering (P := P) (C := C) m i peer tags) (by simp)
  exact ⟨_, ⟨_, (harriving.append hrun).append hanswering⟩, ⟨0, _, rfl⟩, happended⟩

/-- A node that need not record the request answers, and the others do nothing. -/
theorem run_serving (hm : C.Authentic P m) (hnum : 1 < C.num) :
    ∃ es g, Run (C.step P) (FreshRecords P) (C.node P) es g ∧
      (∀ i < C.num, (i ≠ m.serviceIndex ∨ m.metaFileID = "") → (g i).Answered m) ∧
        ∀ i < C.num, (g i).peer.appended = [] := by
  have htarget : ∀ i, ∃ s : ServiceNode S, i < C.num →
      (∃ es, Run (ServiceNode.step P) (ServiceNode.FreshRecord P) (C.node P i) es s) ∧
        ((i ≠ m.serviceIndex ∨ m.metaFileID = "") → s.Answered m) ∧ s.peer.appended = [] := by
    intro i
    by_cases hfree : i < C.num ∧ (i ≠ m.serviceIndex ∨ m.metaFileID = "")
    · obtain ⟨s, hrun, hanswered, happended⟩ := serves hm hnum hfree.1 hfree.2
      exact ⟨s, fun _ => ⟨hrun, fun _ => hanswered, happended⟩⟩
    · exact ⟨C.node P i, fun hi => ⟨⟨[], .nil⟩, fun hfree' => absurd ⟨hi, hfree'⟩ hfree, rfl⟩⟩
  choose target htarget using htarget
  have hrun : ∃ es, Run (C.step P) (FreshRecords P) (C.node P) es
      fun i => if i < C.num then target i else C.node P i :=
    run_all C.num (fun i hi => ⟨hi, (htarget i hi).1⟩) fun _ _ _ h => h
  obtain ⟨es, hrun⟩ := hrun
  refine ⟨es, _, hrun, fun i hi hfree => ?_, fun i hi => ?_⟩
  · rw [if_pos hi]
    exact (htarget i hi).2.1 hfree
  · rw [if_pos hi]
    exact (htarget i hi).2.2

/-- The nodes that answer on their own are enough, except where all of three nodes are needed. -/
theorem enough_free (hnum : 3 ≤ C.num)
    (h : ¬ (C.num = 3 ∧ m.serviceIndex < C.num ∧ m.metaFileID ≠ "")) :
    shareThreshold C.num ≤ ((Finset.range C.num).filter fun i =>
      i ≠ m.serviceIndex ∨ m.metaFileID = "").card := by
  have hsub : (Finset.range C.num).erase m.serviceIndex ⊆ (Finset.range C.num).filter fun i =>
      i ≠ m.serviceIndex ∨ m.metaFileID = "" := by
    intro i hi
    obtain ⟨hne, hi⟩ := Finset.mem_erase.mp hi
    exact Finset.mem_filter.mpr ⟨hi, .inl hne⟩
  have hle := Finset.card_le_card hsub
  unfold shareThreshold
  by_cases hfile : m.metaFileID = ""
  · rw [Finset.filter_true_of_mem fun _ _ => .inr hfile, Finset.card_range]
    omega
  · by_cases hservice : m.serviceIndex < C.num
    · rw [Finset.card_erase_of_mem (Finset.mem_range.mpr hservice), Finset.card_range] at hle
      have hfour : C.num ≠ 3 := fun hthree => h ⟨hthree, hservice, hfile⟩
      omega
    · rw [Finset.erase_eq_of_notMem (mt Finset.mem_range.mp hservice), Finset.card_range] at hle
      omega

/-- Of four nodes, three answer on their own with nothing on record. Of three nodes all are needed,
and with them the service node. -/
theorem onRecord_iff (hnum : 3 ≤ C.num) (hm : C.Authentic P m) :
    C.OnRecord P m ↔ C.num = 3 ∧ m.serviceIndex < C.num ∧ m.metaFileID ≠ "" := by
  have hone : 1 < C.num := by omega
  constructor
  · intro hrecord
    by_contra hnot
    obtain ⟨es, g, hrun, hanswered, happended⟩ := run_serving hm hone
    have hreleased : C.Released g m := by
      refine ⟨_, fun i hi => ?_, enough_free hnum hnot⟩
      obtain ⟨hi, hfree⟩ := Finset.mem_filter.mp hi
      have hi := Finset.mem_range.mp hi
      exact ⟨hi, hanswered i hi hfree⟩
    obtain ⟨i, hi, idhr, index, seenTime, b, hb, _⟩ := hrecord es g hrun hreleased
    rw [Peer.blocks, happended i hi] at hb
    cases hb
  · rintro ⟨hthree, hservice, hfile⟩ es g hrun ⟨nodes, hnodes, henough⟩
    have hsub : nodes ⊆ Finset.range C.num := fun i hi => Finset.mem_range.mpr (hnodes i hi).1
    have hcard : (Finset.range C.num).card ≤ nodes.card := by
      rw [Finset.card_range, hthree]
      rw [hthree] at henough
      exact henough
    have hall := Finset.eq_of_subset_of_card_le hsub hcard
    have hmem : m.serviceIndex ∈ nodes := by
      rw [hall]
      exact Finset.mem_range.mpr hservice
    exact ⟨_, hservice, recorded_of_answered hone hrun (hnodes _ hmem).2 hfile⟩

/-- What the service node has answered is on record. Whatever is released is on record if and only
if there are three nodes, one of them is the service node, and the request names a file. -/
theorem released_on_record (hnum : 3 ≤ C.num) (hm : C.Authentic P m) :
    (m.metaFileID ≠ "" → ∀ es g, Run (C.step P) (FreshRecords P) (C.node P) es g →
      (g m.serviceIndex).Answered m → (g m.serviceIndex).Recorded P m) ∧
    (C.OnRecord P m ↔ C.num = 3 ∧ m.serviceIndex < C.num ∧ m.metaFileID ≠ "") := by
  have hone : 1 < C.num := by omega
  exact ⟨fun hfile es g hrun hanswered => recorded_of_answered hone hrun hanswered hfile,
    onRecord_iff hnum hm⟩

end CothorityConfig

namespace Sample

open JobPortal.Sample

def recordPrimitives : RecordPrimitives ℕ where
  __ := requestPrimitives
  marshalRecord r := UInt8.ofNat r.index :: utf8 r.hrid

def fourNodes : CothorityConfig ℕ where
  num := 4
  address i := ["A", "B", "C", "D"].getD i ""
  paxosID i := i + 1
  signMethod := 2
  hrSecretTable := ∅
  share i := i + 7
  pubKey := [9]

theorem fourNodes_authentic : fourNodes.Authentic recordPrimitives (requestFor "f" 0) := by
  unfold CothorityConfig.Authentic
  decide

/-- Three nodes answer a request on their own, and the service node is not one of them. -/
theorem record_counterexample :
    fourNodes.Authentic recordPrimitives (requestFor "f" 0) ∧
      ¬ fourNodes.OnRecord recordPrimitives (requestFor "f" 0) := by
  refine ⟨fourNodes_authentic, fun hrecord => ?_⟩
  obtain ⟨hthree, _⟩ := (CothorityConfig.onRecord_iff (by decide) fourNodes_authentic).mp hrecord
  exact absurd hthree (by decide)

def arriving : List (ℕ × ServiceEvent) :=
  [.encryptedFile ⟨"f", some [1], [2]⟩, .lock 0, .acquire 0, .write 0, .unlock 0,
    .request (requestFor "f" 0)].map fun e => (0, .files e)

def recordRequest : PbftRequest :=
  ⟨"A", ServiceNode.recordName recordPrimitives 0 "noon" (requestFor "f" 0), "f"⟩

def agreeing : List PeerEvent :=
  [.verify 0, .propose 0] ++ consent recordRequest 5 ++ [.verify 0]

def answering : List (ℕ × ServiceEvent) :=
  [(0, .recorded 0), (0, .files (.rLock 0)), (0, .files (.read 0)), (0, .files (.rUnlock 0)),
    (0, .files (.answer 0))]

def recording : List (ℕ × ServiceEvent) :=
  arriving ++ (0, .authenticate 0 "noon") :: agreeing.map (fun e => (0, .peer e)) ++ answering

theorem recording_isSome :
    (exec (guarded (fourNodes.step recordPrimitives)
      (CothorityConfig.FreshRecords recordPrimitives)) (fourNodes.node recordPrimitives)
      recording).isSome := by
  decide

def onRecord : ℕ → ServiceNode ℕ :=
  (exec (guarded (fourNodes.step recordPrimitives)
    (CothorityConfig.FreshRecords recordPrimitives)) (fourNodes.node recordPrimitives)
    recording).get recording_isSome

theorem released_on_record_fourNodes :
    (onRecord 0).Answered (requestFor "f" 0) ∧
      (onRecord 0).Recorded recordPrimitives (requestFor "f" 0) := by
  let response := (fourNodes.node recordPrimitives 0).files.response
    recordPrimitives.toRequestPrimitives 7 (requestFor "f" 0) ⟨some [1], [2]⟩
  have hanswered : (onRecord 0).files.requests[0]? =
      some (requestFor "f" 0, .answered response) := by
    decide
  exact ⟨⟨0, _, hanswered⟩, (CothorityConfig.released_on_record (by decide) fourNodes_authentic).1
    (by decide) _ _ (run_of_guarded (run_exec_get recording_isSome)) ⟨0, _, hanswered⟩⟩

end Sample

end Cothority

end JobPortal
