import JobPortal.PaxosAnnounce
import JobPortal.WriteOnce

/-! Tag over Paxos, and the names in the naming store. Tag looks a name up in the HR naming store,
which nothing writes in this setting, and blocks overwrite the entries of the naming store. -/
namespace JobPortal

open Runs Hex WriteOnce

variable (P : PaxosPrimitives)

def BlockchainBlock.binding (b : BlockchainBlock) : String × Bytes :=
  (b.value.filename, utf8 b.value.metahash)

namespace SafePaxos

/-- The blocks announced first for the decided steps from a step on. -/
def decidedFrom (s : SafePaxos) : ℕ → ℕ → List BlockchainBlock
  | 0, _ => []
  | fuel + 1, step =>
    match s.consensus.lookup step, (s.tlcs.at step []).head? with
    | some _, some tlc => tlc.block :: decidedFrom s fuel (step + 1)
    | _, _ => []

def decided (s : SafePaxos) : List BlockchainBlock :=
  s.decidedFrom (s.consensus.keys.card + 1) s.clock

theorem decidedFrom_congr {s t : SafePaxos} (htlcs : t.tlcs = s.tlcs)
    (hcons : t.consensus = s.consensus) (fuel step : ℕ) :
    t.decidedFrom fuel step = s.decidedFrom fuel step := by
  induction fuel generalizing step with
  | zero => rfl
  | succ fuel ih => simp only [decidedFrom, htlcs, hcons, ih]

/-- The catch up and the list of decided blocks agree on what comes next. -/
theorem decidedFrom_succ (s : SafePaxos) (fuel : ℕ) :
    s.decidedFrom (fuel + 1) s.clock =
      match s.getBlockAndAdvance s.clock with
      | none => []
      | some (block, _) => block :: s.decidedFrom fuel (s.clock + 1) := by
  rw [decidedFrom, getBlockAndAdvance]
  simp only [ne_eq, not_true_eq_false, if_false]
  cases hcons : s.consensus.lookup s.clock with
  | none => simp
  | some v => cases hhead : (s.tlcs.at s.clock []).head? <;> simp

end SafePaxos

namespace PaxosNode

/-- The blocks a call of TLCProcess appends, each with what its name is bound to at that moment. -/
def tlcAppended : ℕ → PaxosNode → ℕ → Bool → List (Option Bytes × BlockchainBlock)
  | 0, _, _, _ => []
  | fuel + 1, n, step, catchUp =>
    match n.paxos.getBlockAndAdvance step, n.tlcAdvance P step catchUp with
    | some (block, _), some (m, _) =>
      (n.storage.naming.lookup block.value.filename, block) :: tlcAppended fuel m (step + 1) true
    | _, _ => []

/-- What a block finds is left alone. -/
def Keeps (x : Option Bytes × BlockchainBlock) : Prop :=
  ∀ v, x.1 = some v → v = utf8 x.2.value.metahash

theorem tlcAppended_spec (fuel : ℕ) (n : PaxosNode) (catchUp : Bool) :
    (tlcAppended P fuel n n.paxos.clock catchUp).map (·.2) =
        n.paxos.decidedFrom fuel n.paxos.clock ∧
      ((∀ x ∈ tlcAppended P fuel n n.paxos.clock catchUp, Keeps x) ↔
        FitsInTurn n.storage.naming
          ((n.paxos.decidedFrom fuel n.paxos.clock).map BlockchainBlock.binding)) := by
  induction fuel generalizing n catchUp with
  | zero => simp [tlcAppended, SafePaxos.decidedFrom, FitsInTurn]
  | succ fuel ih =>
    rw [SafePaxos.decidedFrom_succ, tlcAppended]
    cases hadv : n.tlcAdvance P n.paxos.clock catchUp with
    | none =>
      rw [Option.map_eq_none_iff.mp hadv]
      simp [FitsInTurn]
    | some r =>
      obtain ⟨m, sent⟩ := r
      obtain ⟨block, s, hfound, hstorage, _, _⟩ := tlcAdvance_cases P hadv
      obtain ⟨hcaught, hclock⟩ := tlcAdvance_caughtUp P hadv
      dsimp only at hcaught hclock
      obtain ⟨hblocks, hkeeps⟩ := ih m true
      rw [SafePaxos.decidedFrom_congr hcaught.tlcs hcaught.consensus, hclock] at hblocks hkeeps
      rw [hfound]
      dsimp only
      refine ⟨by rw [List.map_cons, hblocks], ?_⟩
      rw [List.forall_mem_cons, hkeeps, hstorage]
      rfl

theorem tlcProcess_storage (fuel : ℕ) (n : PaxosNode) (catchUp : Bool) :
    (tlcProcess P fuel n n.paxos.clock catchUp).1.storage =
      n.storageAfter P ((tlcAppended P fuel n n.paxos.clock catchUp).map (·.2)) := by
  induction fuel generalizing n catchUp with
  | zero => rfl
  | succ fuel ih =>
    rw [tlcProcess, tlcAppended]
    cases hadv : n.tlcAdvance P n.paxos.clock catchUp with
    | none =>
      rw [Option.map_eq_none_iff.mp hadv]
      rfl
    | some r =>
      obtain ⟨m, sent⟩ := r
      obtain ⟨block, s, hfound, hstorage, _, _⟩ := tlcAdvance_cases P hadv
      have hrest := ih m true
      rw [(tlcAdvance_caughtUp P hadv).2] at hrest
      rw [hfound]
      exact hrest.trans (storageAfter_congr P hstorage _)

def execTLCAppended (n : PaxosNode) (tlc : TLCMessage) : List (Option Bytes × BlockchainBlock) :=
  let n := { n with paxos := n.paxos.receiveTLC tlc n.threshold }
  tlcAppended P (n.paxos.consensus.keys.card + 1) n n.paxos.clock false

theorem execTLCMessage_storage (n : PaxosNode) (tlc : TLCMessage) :
    (n.execTLCMessage P tlc).1.storage =
      n.storageAfter P ((n.execTLCAppended P tlc).map (·.2)) := by
  refine (tlcProcess_storage P _ _ false).trans ?_
  exact storageAfter_congr P (n := { n with paxos := n.paxos.receiveTLC tlc n.threshold }) (m := n)
    rfl _

/-- The blocks a TLC message leads to leave what they find alone, exactly if they fit the naming
store and agree among themselves. -/
theorem execTLCAppended_keeps_iff (n : PaxosNode) (tlc : TLCMessage) :
    (∀ x ∈ n.execTLCAppended P tlc, Keeps x) ↔
      (∀ b ∈ (n.paxos.receiveTLC tlc n.threshold).decided,
        Fits n.storage.naming b.binding) ∧
      (n.paxos.receiveTLC tlc n.threshold).decided.Pairwise fun b b' =>
        Agree b.binding b'.binding := by
  refine (tlcAppended_spec P _ _ false).2.trans (fitsInTurn_iff.trans ?_)
  rw [List.forall_mem_map, List.pairwise_map]
  rfl

theorem storageAfter_naming (n : PaxosNode) (blocks : List BlockchainBlock) :
    (n.storageAfter P blocks).naming =
      (blocks.map BlockchainBlock.binding).foldl (fun m w => m.insert w.1 w.2)
        n.storage.naming := by
  induction blocks generalizing n with
  | nil => rfl
  | cons block blocks ih => exact ih (n.addBlock P block)

theorem Effect.storage {n : PaxosNode} {m : PaxosMessage} {r : PaxosNode × List PaxosMessage}
    (h : n.Effect P m r) (hm : ∀ t, m ≠ .tlc t) : r.1.storage = n.storage := by
  cases h with
  | tlc => exact absurd rfl (hm _)
  | idle => rfl
  | prepare => rfl
  | propose => rfl
  | promise => rfl
  | prepared => rfl
  | acceptedBefore => rfl
  | accept => rfl
  | accepted => rfl

end PaxosNode

inductive PaxosTagPC
  | checked (step : ℕ)
  | waiting (step : ℕ)
  | proposing (i : ℕ)
  | failed
  | returned
  deriving DecidableEq, Repr

/-- A Tag call, with whether its name was in the naming store when the call was made. -/
structure PaxosTag where
  name : String
  mh : String
  bound : Bool
  pc : PaxosTagPC
  deriving DecidableEq, Repr

/-- A Paxos peer with the HR naming store and its Tag calls, and the blocks it has appended. -/
structure NamingPeer where
  peer : PaxosPeer
  hrNaming : HrStore
  tags : List PaxosTag
  appended : List (Option Bytes × BlockchainBlock)

inductive NamingEvent
  | paxos (e : PaxosEvent)
  | tag (name mh : String)
  | proposed (i : ℕ) (uniqID : String)
  | consensus (i : ℕ)
  | proposeReturned (i : ℕ)
  | searchReply (name mh : String)
  deriving DecidableEq, Repr

namespace NamingPeer

variable (p : NamingPeer)

def node : PaxosNode := p.peer.node

def naming : GoMap String Bytes := p.peer.node.storage.naming

/-- Tag up to GetStep. A lone node writes the HR naming store, and only then is it written. -/
def enter (name mh : String) : HrStore × PaxosTagPC :=
  if p.node.totalPeers ≤ 1 then (p.hrNaming.set p.node.myAddr name (utf8 mh), .returned)
  else if (p.hrNaming.get p.node.myAddr name).isSome then (p.hrNaming, .failed)
  else (p.hrNaming, .checked p.node.paxos.clock)

def setTag (i : ℕ) (call : PaxosTag) (pc : PaxosTagPC) : NamingPeer :=
  { p with tags := p.tags.set i { call with pc := pc } }

def enterAgain (i : ℕ) (call : PaxosTag) : NamingPeer :=
  { p.setTag i call (p.enter call.name call.mh).2 with
    hrNaming := (p.enter call.name call.mh).1 }

def tag (name mh : String) : NamingPeer :=
  { p with
    hrNaming := (p.enter name mh).1
    tags := p.tags ++ [⟨name, mh, (p.naming.lookup name).isSome, (p.enter name mh).2⟩] }

/-- Wait for the consensus of the step if there is a proposal, or else propose. -/
def proposed (i : ℕ) (call : PaxosTag) (uniqID : String) (step : ℕ) : Option NamingPeer :=
  if p.node.paxos.proposed then some (p.setTag i call (.waiting step))
  else (p.peer.tag uniqID call.name call.mh).map fun peer =>
    { p.setTag i call (.proposing p.peer.calls.length) with peer := peer }

/-- Propose is through: another value may have got the step. -/
def proposeReturned (i : ℕ) (call : PaxosTag) (propose : ProposeCall) : NamingPeer :=
  if p.node.paxos.getConsensus propose.curStep = some propose.proposedVal then
    p.setTag i call .returned
  else p.enterAgain i call

def searchReply (name mh : String) : NamingPeer :=
  { p with peer := { p.peer with node := { p.peer.node with storage :=
    { p.peer.node.storage with naming := p.naming.insert name (utf8 mh) } } } }

def appends : PaxosEvent → List (Option Bytes × BlockchainBlock)
  | .receive ⟨_, _, .tlc tlc⟩ => p.node.execTLCAppended P tlc
  | _ => []

def step (p : NamingPeer) : NamingEvent → Option NamingPeer
  | .paxos (.tag ..) => none
  | .paxos e => (p.peer.step P e).map fun peer =>
      { p with peer := peer, appended := p.appended ++ p.appends P e }
  | .tag name mh => some (p.tag name mh)
  | .proposed i uniqID => p.tags[i]?.bind fun call =>
      match call.pc with
      | .checked step => p.proposed i call uniqID step
      | _ => none
  | .consensus i => p.tags[i]?.bind fun call =>
      match call.pc with
      | .waiting step =>
        if (p.node.paxos.getConsensus step).isSome then some (p.enterAgain i call) else none
      | _ => none
  | .proposeReturned i => p.tags[i]?.bind fun call =>
      match call.pc with
      | .proposing j => p.peer.calls[j]?.bind fun propose =>
          if propose.pc = .returned then some (p.proposeReturned i call propose) else none
      | _ => none
  | .searchReply name mh => some (p.searchReply name mh)

inductive Effect (p : NamingPeer) : NamingEvent → NamingPeer → Prop
  | paxos {e : PaxosEvent} {peer : PaxosPeer} (step : p.peer.step P e = some peer) :
      Effect p (.paxos e) { p with peer := peer, appended := p.appended ++ p.appends P e }
  | tag (name mh : String) : Effect p (.tag name mh) (p.tag name mh)
  | waiting {i step : ℕ} {uniqID : String} {call : PaxosTag} (call_at : p.tags[i]? = some call) :
      Effect p (.proposed i uniqID) (p.setTag i call (.waiting step))
  | proposing {i : ℕ} {uniqID : String} {call : PaxosTag} {peer : PaxosPeer}
      (call_at : p.tags[i]? = some call)
      (step : p.peer.tag uniqID call.name call.mh = some peer) :
      Effect p (.proposed i uniqID)
        { p.setTag i call (.proposing p.peer.calls.length) with peer := peer }
  | consensus {i : ℕ} {call : PaxosTag} (call_at : p.tags[i]? = some call) :
      Effect p (.consensus i) (p.enterAgain i call)
  | returned {i : ℕ} {call : PaxosTag} (call_at : p.tags[i]? = some call) :
      Effect p (.proposeReturned i) (p.setTag i call .returned)
  | lost {i : ℕ} {call : PaxosTag} (call_at : p.tags[i]? = some call) :
      Effect p (.proposeReturned i) (p.enterAgain i call)
  | searchReply (name mh : String) : Effect p (.searchReply name mh) (p.searchReply name mh)

theorem step_effect {p q : NamingPeer} {e : NamingEvent} (h : p.step P e = some q) :
    p.Effect P e q := by
  unfold step at h
  split at h
  · cases h
  · obtain ⟨peer, hpeer, rfl⟩ := Option.map_eq_some_iff.mp h
    exact .paxos hpeer
  · obtain rfl := Option.some.inj h
    exact .tag _ _
  · obtain ⟨call, hcall, hline⟩ := Option.bind_eq_some_iff.mp h
    split at hline
    · unfold proposed at hline
      split_ifs at hline
      · obtain rfl := Option.some.inj hline
        exact .waiting hcall
      · obtain ⟨peer, hpeer, rfl⟩ := Option.map_eq_some_iff.mp hline
        exact .proposing hcall hpeer
    · cases hline
  · obtain ⟨call, hcall, hline⟩ := Option.bind_eq_some_iff.mp h
    split at hline
    · split_ifs at hline
      obtain rfl := Option.some.inj hline
      exact .consensus hcall
    · cases hline
  · obtain ⟨call, hcall, hline⟩ := Option.bind_eq_some_iff.mp h
    split at hline
    · obtain ⟨propose, _, hline⟩ := Option.bind_eq_some_iff.mp hline
      split_ifs at hline
      obtain rfl := Option.some.inj hline
      unfold proposeReturned
      split_ifs
      · exact .returned hcall
      · exact .lost hcall
    · cases hline
  · obtain rfl := Option.some.inj h
    exact .searchReply _ _

/-- The calls a step adds, told by whether their names were bound. -/
def newBounds : NamingEvent → List Bool
  | .tag name _ => [(p.naming.lookup name).isSome]
  | _ => []

def newAppended : NamingEvent → List (Option Bytes × BlockchainBlock)
  | .paxos e => p.appends P e
  | _ => []

theorem setTag_bounds {i : ℕ} {call : PaxosTag} (h : p.tags[i]? = some call) (pc : PaxosTagPC) :
    (p.setTag i call pc).tags.map (·.bound) = p.tags.map (·.bound) := by
  obtain ⟨hlt, rfl⟩ := List.getElem?_eq_some_iff.mp h
  have hlt' : i < (p.tags.map (·.bound)).length := by simpa using hlt
  have hsame : (p.tags.map (·.bound)).set i (p.tags.map (·.bound))[i] = p.tags.map (·.bound) :=
    List.set_getElem_self hlt'
  rw [List.getElem_map] at hsame
  rw [setTag, List.map_set]
  exact hsame

theorem Effect.histories {p q : NamingPeer} {e : NamingEvent} (h : p.Effect P e q) :
    q.tags.map (·.bound) = p.tags.map (·.bound) ++ p.newBounds e ∧
      q.appended = p.appended ++ p.newAppended P e := by
  have goesOn {i : ℕ} {call : PaxosTag} (call_at : p.tags[i]? = some call) (pc : PaxosTagPC) :
      (p.setTag i call pc).tags.map (·.bound) = p.tags.map (·.bound) ++ [] := by
    rw [p.setTag_bounds call_at, List.append_nil]
  cases h with
  | paxos => exact ⟨(List.append_nil _).symm, rfl⟩
  | tag name mh =>
    refine ⟨?_, (List.append_nil _).symm⟩
    simp [NamingPeer.tag, newBounds]
  | waiting call_at => exact ⟨goesOn call_at _, (List.append_nil _).symm⟩
  | proposing call_at => exact ⟨goesOn call_at _, (List.append_nil _).symm⟩
  | consensus call_at => exact ⟨goesOn call_at _, (List.append_nil _).symm⟩
  | returned call_at => exact ⟨goesOn call_at _, (List.append_nil _).symm⟩
  | lost call_at => exact ⟨goesOn call_at _, (List.append_nil _).symm⟩
  | searchReply => exact ⟨(List.append_nil _).symm, (List.append_nil _).symm⟩

/-- No Tag call has failed, for nothing has got into the HR naming store. -/
structure NeverFails (p : NamingPeer) : Prop where
  hrNaming : 1 < p.node.totalPeers → p.hrNaming = ∅
  tags : ∀ call ∈ p.tags, call.pc ≠ .failed

theorem NeverFails.enter {p : NamingPeer} (h : p.NeverFails) (name mh : String) :
    (1 < p.node.totalPeers → (p.enter name mh).1 = ∅) ∧ (p.enter name mh).2 ≠ .failed := by
  unfold NamingPeer.enter
  split_ifs with hlone hbound
  · exact ⟨fun hpeers => absurd hpeers (by omega), by simp⟩
  · rw [h.hrNaming (by omega)] at hbound
    simp [HrStore.get, GoMap.get₂] at hbound
  · exact ⟨h.hrNaming, by simp⟩

theorem NeverFails.setTag {p : NamingPeer} (h : p.NeverFails) {i : ℕ} {call : PaxosTag}
    {pc : PaxosTagPC} (hpc : pc ≠ .failed) : ∀ c ∈ (p.setTag i call pc).tags, c.pc ≠ .failed := by
  intro c hc
  rcases List.mem_or_eq_of_mem_set hc with hold | rfl
  · exact h.tags c hold
  · exact hpc

theorem Effect.neverFails {p q : NamingPeer} {e : NamingEvent} (h : p.Effect P e q)
    (hp : p.NeverFails) : q.NeverFails := by
  cases h with
  | @paxos e peer step =>
    have hpeers : peer.node.totalPeers = p.peer.node.totalPeers :=
      ((PaxosPeer.step_effect P step).sameConfig P).totalPeers
    exact ⟨fun h => hp.hrNaming (hpeers ▸ h), hp.tags⟩
  | tag name mh =>
    refine ⟨(hp.enter name mh).1, fun c hc => ?_⟩
    rcases List.mem_append.mp hc with hold | hnew
    · exact hp.tags c hold
    · obtain rfl := List.mem_singleton.mp hnew
      exact (hp.enter name mh).2
  | waiting => exact ⟨hp.hrNaming, hp.setTag (by simp)⟩
  | @proposing i uniqID call peer call_at step =>
    unfold PaxosPeer.tag at step
    split_ifs at step
    obtain rfl := Option.some.inj step
    exact ⟨hp.hrNaming, hp.setTag (by simp)⟩
  | consensus => exact ⟨(hp.enter _ _).1, hp.setTag (hp.enter _ _).2⟩
  | returned => exact ⟨hp.hrNaming, hp.setTag (by simp)⟩
  | lost => exact ⟨(hp.enter _ _).1, hp.setTag (hp.enter _ _).2⟩
  | searchReply => exact ⟨hp.hrNaming, hp.tags⟩

/-- Tag fails where the name is bound, and blocks leave the bindings alone. -/
structure WritesOnce (p : NamingPeer) : Prop where
  refused : ∀ call ∈ p.tags, call.bound = true → call.pc = .failed
  kept : ∀ x ∈ p.appended, ∀ v, x.1 = some v → v = utf8 x.2.value.metahash

/-- A new call is for a name that is not bound, and the blocks that are about to be appended fit
the naming store and agree among themselves. -/
def Unbound : NamingEvent → Prop
  | .tag name _ => p.naming.lookup name = none
  | .paxos (.receive ⟨_, _, .tlc tlc⟩) =>
    let decided := (p.node.paxos.receiveTLC tlc p.node.threshold).decided
    (∀ b ∈ decided, ∀ v, p.naming.lookup b.value.filename = some v →
      v = utf8 b.value.metahash) ∧
      decided.Pairwise fun b b' => b.value.filename = b'.value.filename →
        b.value.metahash = b'.value.metahash
  | _ => True

theorem unbound_iff (e : NamingEvent) :
    p.Unbound e ↔ (∀ bound ∈ p.newBounds e, bound = false) ∧
      ∀ x ∈ p.newAppended P e, PaxosNode.Keeps x := by
  have hnothing : True ↔ (∀ bound ∈ ([] : List Bool), bound = false) ∧
      ∀ x ∈ ([] : List (Option Bytes × BlockchainBlock)), PaxosNode.Keeps x := by simp
  cases e with
  | tag name mh =>
    have hbound : p.naming.lookup name = none ↔ (p.naming.lookup name).isSome = false := by
      rw [Option.isSome_eq_false_iff, Option.isNone_iff_eq_none]
    rw [newBounds, List.forall_mem_singleton, ← hbound]
    exact ⟨fun hnone => ⟨hnone, by simp [newAppended]⟩, And.left⟩
  | paxos e =>
    cases e with
    | receive r =>
      obtain ⟨origin, sequence, msg⟩ := r
      cases msg with
      | tlc tlc =>
        have hagree : ∀ b b' : BlockchainBlock, Agree b.binding b'.binding ↔
            (b.value.filename = b'.value.filename → b.value.metahash = b'.value.metahash) :=
          fun b b' => imp_congr_right fun _ => utf8_injective.eq_iff
        have hkeeps := PaxosNode.execTLCAppended_keeps_iff P p.node tlc
        simp only [hagree] at hkeeps
        exact hkeeps.symm.trans ⟨fun hall => ⟨by simp [newBounds], hall⟩, And.right⟩
      | prepare => exact hnothing
      | promise => exact hnothing
      | propose => exact hnothing
      | accept => exact hnothing
    | tag => exact hnothing
    | reset => exact hnothing
    | getStep => exact hnothing
    | promised => exact hnothing
    | accepted => exact hnothing
    | timeout => exact hnothing
    | consensus => exact hnothing
  | proposed => exact hnothing
  | consensus => exact hnothing
  | proposeReturned => exact hnothing
  | searchReply => exact hnothing

def bindings : NamingEvent → List (String × Bytes)
  | .searchReply name mh => [(name, utf8 mh)]
  | e => (p.newAppended P e).map (·.2.binding)

theorem paxos_naming {p : NamingPeer} {e : PaxosEvent} {peer : PaxosPeer}
    (h : p.peer.step P e = some peer) :
    peer.node.storage.naming =
      ((p.appends P e).map (·.2.binding)).foldl (fun m w => m.insert w.1 w.2) p.naming := by
  cases e with
  | receive r =>
    obtain ⟨origin, sequence, msg⟩ := r
    simp only [PaxosPeer.step] at h
    split_ifs at h
    obtain rfl := Option.some.inj h
    cases msg with
    | tlc tlc =>
      have hstorage := PaxosNode.execTLCMessage_storage P p.peer.node tlc
      exact (congrArg Storage.naming hstorage).trans
        ((PaxosNode.storageAfter_naming P _ _).trans (by rw [List.map_map]; rfl))
    | prepare m =>
      exact congrArg Storage.naming ((PaxosNode.exec_effect P _ _).storage P (by simp))
    | promise a m =>
      exact congrArg Storage.naming ((PaxosNode.exec_effect P _ _).storage P (by simp))
    | propose m =>
      exact congrArg Storage.naming ((PaxosNode.exec_effect P _ _).storage P (by simp))
    | accept m =>
      exact congrArg Storage.naming ((PaxosNode.exec_effect P _ _).storage P (by simp))
  | tag => cases PaxosPeer.step_effect P h; rfl
  | reset => cases PaxosPeer.step_effect P h; rfl
  | getStep => cases PaxosPeer.step_effect P h; rfl
  | promised => cases PaxosPeer.step_effect P h; rfl
  | accepted => cases PaxosPeer.step_effect P h; rfl
  | timeout => cases PaxosPeer.step_effect P h; rfl
  | consensus => cases PaxosPeer.step_effect P h; rfl

theorem Effect.naming {p q : NamingPeer} {e : NamingEvent} (h : p.Effect P e q) :
    q.naming = (p.bindings P e).foldl (fun m w => m.insert w.1 w.2) p.naming := by
  cases h with
  | paxos step => exact paxos_naming P step
  | @proposing i uniqID call peer call_at step =>
    unfold PaxosPeer.tag at step
    split_ifs at step
    obtain rfl := Option.some.inj step
    rfl
  | tag => rfl
  | waiting => rfl
  | consensus => rfl
  | returned => rfl
  | lost => rfl
  | searchReply => rfl

/-- As long as what is written fits, a name keeps its first binding. -/
theorem binding_of_run {p q : NamingPeer} {es : List NamingEvent}
    (h : Run (NamingPeer.step P) (fun p e => FitsInTurn p.naming (p.bindings P e)) p es q)
    {name : String} {v : Bytes} (hv : p.naming.lookup name = some v) :
    q.naming.lookup name = some v := by
  refine h.invariant (I := fun p => p.naming.lookup name = some v) hv ?_
  intro t u e hbound hfits hstep
  rw [(step_effect P hstep).naming P]
  exact hfits.lookup_foldl hbound

/-- As no call ever fails, Tag refuses all names it should only if it is given none. -/
theorem writesOnce_iff {p : NamingPeer} (h : p.NeverFails) :
    p.WritesOnce ↔ (∀ bound ∈ p.tags.map (·.bound), bound = false) ∧
      ∀ x ∈ p.appended, PaxosNode.Keeps x := by
  constructor
  · intro hp
    refine ⟨?_, hp.kept⟩
    rw [List.forall_mem_map]
    intro call hcall
    exact Bool.eq_false_iff.mpr fun hbound => h.tags call hcall (hp.refused call hcall hbound)
  · rintro ⟨hbounds, hkept⟩
    refine ⟨fun call hcall hbound => ?_, hkept⟩
    rw [hbounds call.bound (List.mem_map_of_mem hcall)] at hbound
    cases hbound

theorem Effect.writesOnce_iff {p q : NamingPeer} {e : NamingEvent} (h : p.Effect P e q)
    (hp : p.NeverFails) : q.WritesOnce ↔ p.WritesOnce ∧ p.Unbound e := by
  obtain ⟨hbounds, happended⟩ := h.histories P
  rw [NamingPeer.writesOnce_iff (h.neverFails P hp), NamingPeer.writesOnce_iff hp,
    p.unbound_iff P e, hbounds, happended, List.forall_mem_append, List.forall_mem_append]
  exact and_and_and_comm

end NamingPeer

def newNamingPeer (conf : PaxosConfig) : NamingPeer where
  peer := newPaxosPeer conf
  hrNaming := ∅
  tags := []
  appended := []

theorem neverFails_newNamingPeer (conf : PaxosConfig) : (newNamingPeer conf).NeverFails where
  hrNaming _ := rfl
  tags := by simp [newNamingPeer]

theorem writesOnce_newNamingPeer (conf : PaxosConfig) : (newNamingPeer conf).WritesOnce where
  refused := by simp [newNamingPeer]
  kept := by simp [newNamingPeer]

/-- The naming stores are write-once, as long as no Tag call is for a bound name and the decided
blocks fit the stores: nothing in the code sees to it. -/
theorem names_written_once_iff {D : PaxosDeployment} {es : List (String × NamingEvent)}
    {g : String → NamingPeer}
    (h : AnyRun (each (NamingPeer.step P) (· ∈ D.members)) (fun a => newNamingPeer (D.conf a))
      es g) :
    (∀ a, (g a).WritesOnce) ↔
      Run (each (NamingPeer.step P) (· ∈ D.members)) (fun g e => (g e.1).Unbound e.2)
        (fun a => newNamingPeer (D.conf a)) es g := by
  refine forall_iff_run (J := NamingPeer.NeverFails) h
    (fun a => writesOnce_newNamingPeer (D.conf a)) (fun a => neverFails_newNamingPeer (D.conf a))
    ?_ ?_
  · exact fun hp hstep => (NamingPeer.step_effect P hstep).neverFails P hp
  · exact fun hp hstep => (NamingPeer.step_effect P hstep).writesOnce_iff P hp

namespace PaxosSample

def bindsTo (mh : String) (step : ℕ) : List (String × NamingEvent) :=
  let block := (newPaxosPeer (conf "B" 2)).node.getBlock primitives ⟨"x", "f", mh⟩ step
  [("A", .paxos (.receive ⟨"B", step, .tlc ⟨step, block⟩⟩)),
    ("A", .paxos (.receive ⟨"C", step, .tlc ⟨step, block⟩⟩))]

def namingStart : String → NamingPeer := fun a => newNamingPeer (deployment.conf a)

/-- The name f is bound, node A is asked to tag it again, and the next step binds it anew. -/
def retagged : List (String × NamingEvent) :=
  bindsTo "m" 0 ++ [("A", .tag "f" "n")] ++ bindsTo "n" 1

theorem retagged_isSome : (exec (each (NamingPeer.step primitives) (· ∈ deployment.members))
    namingStart retagged).isSome := by
  decide

def retaggedPeers : String → NamingPeer :=
  (exec (each (NamingPeer.step primitives) (· ∈ deployment.members)) namingStart retagged).get
    retagged_isSome

/-- Tag goes on although the name is bound, and a block takes the binding away. -/
theorem names_counterexample :
    AnyRun (each (NamingPeer.step primitives) (· ∈ deployment.members)) namingStart retagged
        retaggedPeers ∧
      (retaggedPeers "A").tags = [⟨"f", "n", true, .checked 1⟩] ∧
      (retaggedPeers "A").appended.map (fun x => (x.1, x.2.value.metahash)) =
        [(none, "m"), (some (utf8 "m"), "n")] ∧
      ¬ ∀ a, (retaggedPeers a).WritesOnce := by
  have htags : (retaggedPeers "A").tags = [⟨"f", "n", true, .checked 1⟩] := by decide
  refine ⟨run_exec_get _, htags, by decide, fun hall => ?_⟩
  have hfailed := (hall "A").refused ⟨"f", "n", true, .checked 1⟩ (by rw [htags]; simp) rfl
  cases hfailed

def taggedOnce : List (String × NamingEvent) :=
  [("A", .tag "f" "m"), ("A", .proposed 0 "x"), ("A", .paxos (.reset 0))] ++ bindsTo "m" 0 ++
    [("A", .tag "g" "n")]

theorem taggedOnce_isSome : (exec (each (NamingPeer.step primitives) (· ∈ deployment.members))
    namingStart taggedOnce).isSome := by
  decide

theorem names_written_once_taggedOnce :
    (∀ a, ((exec (each (NamingPeer.step primitives) (· ∈ deployment.members)) namingStart
        taggedOnce).get taggedOnce_isSome a).WritesOnce) ↔
      Run (each (NamingPeer.step primitives) (· ∈ deployment.members))
        (fun g e => (g e.1).Unbound e.2) namingStart taggedOnce
        ((exec (each (NamingPeer.step primitives) (· ∈ deployment.members)) namingStart
          taggedOnce).get taggedOnce_isSome) :=
  names_written_once_iff primitives (run_exec_get taggedOnce_isSome)

end PaxosSample

end JobPortal
