import JobPortal.PbftProposer

/-! The last checkpoint. The handler counts whoever sent a Checkpoint for an ID, under whatever
digest, and takes the ID of the message that completes the count, however old it is. -/
namespace JobPortal

open Runs

variable {P : Primitives}

/-- The Checkpoints a node has on record: PbftID, then address, then digest. -/
abbrev CheckpointLog := GoMap ℕ (GoMap String String)

namespace CheckpointLog

def senders (log : CheckpointLog) (k : ℕ) : Finset String := (log.at k ∅).keys

/-- The senders for an ID that gave one digest. -/
def backers (log : CheckpointLog) (k : ℕ) (digest : String) : Finset String :=
  (log.senders k).filter fun a => GoMap.get₂ log k a = some digest

variable {log log' : CheckpointLog} {k l : ℕ} {a digest : String}

theorem mem_senders : a ∈ log.senders k ↔ ∃ d, GoMap.get₂ log k a = some d := by
  rw [senders, Finmap.mem_keys, Finmap.mem_iff]
  cases hrow : log.lookup k with
  | none => simp [GoMap.get₂, GoMap.at, hrow]
  | some row => simp [GoMap.get₂, GoMap.at, hrow]

theorem mem_backers : a ∈ log.backers k digest ↔ GoMap.get₂ log k a = some digest := by
  rw [backers, Finset.mem_filter, mem_senders, and_iff_right_iff_imp]
  exact fun h => ⟨digest, h⟩

theorem backers_subset_senders : log.backers k digest ⊆ log.senders k := Finset.filter_subset _ _

theorem backers_mono (h : ∀ a d, GoMap.get₂ log k a = some d → GoMap.get₂ log' k a = some d) :
    log.backers k digest ⊆ log'.backers k digest := by
  intro a ha
  rw [mem_backers] at *
  exact h a digest ha

theorem senders_subset_set₂ (a digest : String) (l : ℕ) :
    log.senders k ⊆ CheckpointLog.senders (log.set₂ l a digest) k := by
  intro b hb
  obtain ⟨d, hd⟩ := mem_senders.mp hb
  rw [mem_senders, GoMap.get₂_set₂]
  split_ifs
  · exact ⟨digest, rfl⟩
  · exact ⟨d, hd⟩

/-- Enough senders for an ID have given the same digest. -/
def Agrees (log : CheckpointLog) (q k : ℕ) : Prop := ∃ d, q ≤ (log.backers k d).card

instance (log : CheckpointLog) (q k : ℕ) : Decidable (log.Agrees q k) :=
  decidable_of_iff (q = 0 ∨ ∃ a ∈ log.senders k,
      q ≤ (log.backers k ((GoMap.get₂ log k a).getD "")).card) <| by
    constructor
    · rintro (rfl | ⟨a, _, ha⟩)
      · exact ⟨"", Nat.zero_le _⟩
      · exact ⟨_, ha⟩
    · rintro ⟨d, hd⟩
      rcases Nat.eq_zero_or_pos q with hq | hq
      · exact .inl hq
      · obtain ⟨a, ha⟩ := Finset.card_pos.mp (hq.trans_le hd)
        refine .inr ⟨a, backers_subset_senders ha, ?_⟩
        rwa [mem_backers.mp ha, Option.getD_some]

theorem Agrees.mono {q : ℕ} (h : log.Agrees q k)
    (hkept : ∀ a d, GoMap.get₂ log k a = some d → GoMap.get₂ log' k a = some d) :
    log'.Agrees q k := by
  obtain ⟨d, hd⟩ := h
  exact ⟨d, hd.trans (Finset.card_le_card (backers_mono hkept))⟩

theorem Agrees.senders {q : ℕ} (h : log.Agrees q k) : q ≤ (log.senders k).card := by
  obtain ⟨d, hd⟩ := h
  exact hd.trans (Finset.card_le_card backers_subset_senders)

end CheckpointLog

namespace Node

variable (n : Node)

def checkpointQuorum : ℕ := n.totalPeers / 3 * 2 + 1

def checkpointLog (cp : CheckpointMessage) : CheckpointLog :=
  n.pbft.logCheckpointMsg.set₂ cp.pbftID cp.srcAddr cp.digest

/-- A Checkpoint that is let in and finds enough senders on record, its own among them. -/
def Completes (P : Primitives) (cp : CheckpointMessage) : Prop :=
  n.Admits P cp.srcAddr cp.digest cp.signature ∧
    n.checkpointQuorum ≤ ((n.checkpointLog cp).senders cp.pbftID).card

instance (cp : CheckpointMessage) : Decidable (n.Completes P cp) :=
  inferInstanceAs (Decidable (_ ∧ _))

variable {n}

theorem execCheckpointMessage_spec (cp : CheckpointMessage) :
    (n.execCheckpointMessage P cp).node.pbft.lastCheckpoint =
        (if n.Completes P cp then cp.pbftID else n.pbft.lastCheckpoint) ∧
      (n.execCheckpointMessage P cp).node.pbft.logCheckpointMsg =
        if n.Admits P cp.srcAddr cp.digest cp.signature then n.checkpointLog cp
        else n.pbft.logCheckpointMsg := by
  by_cases hadmits : n.Admits P cp.srcAddr cp.digest cp.signature
  · have hcompletes : n.Completes P cp ↔
        n.checkpointQuorum ≤ ((n.checkpointLog cp).senders cp.pbftID).card :=
      and_iff_right hadmits
    rw [execCheckpointMessage, checked_of_admits P n hadmits, if_pos hadmits]
    simp only [hcompletes]
    exact ⟨rfl, rfl⟩
  · have hidle : (n.execCheckpointMessage P cp).node = n := (checked_idle P n hadmits).node
    rw [hidle, if_neg hadmits, if_neg fun h => hadmits h.1]
    exact ⟨rfl, rfl⟩

theorem Effect.checkpoints {m : Message} {r : Handled} (h : n.Effect P m r)
    (hno : ∀ cp, m ≠ .checkpoint cp) :
    r.node.pbft.lastCheckpoint = n.pbft.lastCheckpoint ∧
      r.node.pbft.logCheckpointMsg = n.pbft.logCheckpointMsg := by
  cases h with
  | idle same => rw [same.node]; exact ⟨rfl, rfl⟩
  | pbftTLC tlc =>
    obtain ⟨hlogs, _⟩ := n.execPbftTLCMessage_frame P tlc
    exact ⟨hlogs.lastCheckpoint, hlogs.logCheckpointMsg⟩
  | conflict => exact ⟨rfl, rfl⟩
  | prePrepare => exact ⟨rfl, rfl⟩
  | prepare => exact ⟨rfl, rfl⟩
  | prepared => exact ⟨rfl, rfl⟩
  | commit => exact ⟨rfl, rfl⟩
  | noPeers => exact ⟨rfl, rfl⟩
  | committed => exact ⟨rfl, rfl⟩
  | checkpoint => exact absurd rfl (hno _)

/-- A pass of Tag leaves the last checkpoint alone and records at most an entry of its own, for the
ID it moves the counter to. -/
theorem tagSection_checkpoints (call : TagCall) :
    let r := n.tagSection P call
    r.node.pbft.lastCheckpoint = n.pbft.lastCheckpoint ∧ n.pbft.pbftID ≤ r.node.pbft.pbftID ∧
      (r.node.pbft.logCheckpointMsg = n.pbft.logCheckpointMsg ∨
        r.node.pbft.pbftID = n.pbft.pbftID + n.totalPeers ∧
          ∃ d, r.node.pbft.logCheckpointMsg =
            n.pbft.logCheckpointMsg.set₂ (n.pbft.pbftID + n.totalPeers) n.pbft.addr d) := by
  have hassigned : (n.tagAssigned call).lastCheckpoint = n.pbft.lastCheckpoint ∧
      (n.tagAssigned call).logCheckpointMsg = n.pbft.logCheckpointMsg ∧
      (n.tagAssigned call).addr = n.pbft.addr := by
    unfold tagAssigned
    split_ifs <;> exact ⟨rfl, rfl, rfl⟩
  obtain ⟨hlast, hlog, haddr⟩ := hassigned
  have hid := (n.tagSection_spec P call).2.1
  have hle : n.pbft.pbftID ≤ (n.tagAssigned call).pbftID := by
    rw [tagAssigned_pbftID]
    split_ifs <;> omega
  dsimp only
  rw [hid]
  unfold tagSection
  split_ifs with hnew
  · have hnext : (n.tagAssigned call).pbftID = n.pbft.pbftID + n.totalPeers := by
      rw [tagAssigned_pbftID, hnew.1]
      rfl
    refine ⟨hlast, hle, .inr ⟨hnext, P.getDigest (n.tagRequest call), ?_⟩⟩
    rw [← hlog, ← haddr, ← hnext]
    rfl
  · exact ⟨hlast, hle, .inl hlog⟩

theorem pbftTLCProcess_pbftID_le (fuel : ℕ) (n : Node) (step : ℕ) (catchUp : Bool) :
    n.pbft.pbftID ≤ (pbftTLCProcess P fuel n step catchUp).1.pbft.pbftID := by
  induction fuel generalizing n step catchUp with
  | zero => exact le_rfl
  | succ fuel ih =>
    unfold pbftTLCProcess
    cases hadv : n.pbft.getPbftBlockAndAdvance step with
    | none => exact le_rfl
    | some bt =>
      obtain ⟨b, t⟩ := bt
      have ht : t.pbftID = n.pbft.pbftID + 1 := by
        obtain ⟨_, _, rfl⟩ := SafePbft.getPbftBlockAndAdvance_eq_some hadv
        rfl
      have hle := ih (addTLCBlock P { n with pbft := t } b) (step + 1) true
      change t.pbftID ≤ _ at hle
      rw [ht] at hle
      exact (Nat.le_succ _).trans hle

theorem Effect.pbftID_le {m : Message} {r : Handled} (h : n.Effect P m r) :
    n.pbft.pbftID ≤ r.node.pbft.pbftID := by
  by_cases hm : ∃ tlc, m = .pbftTLC tlc
  · obtain ⟨tlc, rfl⟩ := hm
    cases h with
    | idle same => rw [same.node]
    | pbftTLC =>
      unfold execPbftTLCMessage
      split_ifs
      · exact le_rfl
      · refine le_trans ?_ (pbftTLCProcess_pbftID_le _ _ _ _)
        rw [SafePbft.receivePbftTLC_pbftID]
  · rw [(h.records P).2 fun tlc heq => hm ⟨tlc, heq⟩]

end Node

/-- A node has recorded Checkpoints of its own only for IDs its counter has come to. -/
structure Peer.RecordsOwn (p : Peer) : Prop where
  addr : p.node.pbft.addr = p.node.myAddr
  own : ∀ k d, GoMap.get₂ p.node.pbft.logCheckpointMsg k p.node.myAddr = some d →
    k ≤ p.node.pbft.pbftID

/-- The last checkpoint has enough senders of one digest on record. -/
def Peer.CheckpointAgreed (p : Peer) : Prop :=
  0 < p.node.pbft.lastCheckpoint →
    CheckpointLog.Agrees p.node.pbft.logCheckpointMsg p.node.checkpointQuorum
      p.node.pbft.lastCheckpoint

def Peer.OnCheckpoint (P : Primitives) (p : Peer) (C : CheckpointMessage → Prop) :
    PeerEvent → Prop
  | .receive (.checkpoint cp) => p.node.Completes P cp → C cp
  | _ => True

instance (p : Peer) (C : CheckpointMessage → Prop) [DecidablePred C] :
    (e : PeerEvent) → Decidable (p.OnCheckpoint P C e)
  | .receive (.checkpoint _) => inferInstanceAs (Decidable (_ → _))
  | .receive (.prePrepare _) | .receive (.prepare _) | .receive (.commit _)
  | .receive (.pbftTLC _) | .tag .. | .verify _ | .propose _ => isTrue trivial

theorem Peer.OnCheckpoint.of_ne {p : Peer} {C : CheckpointMessage → Prop} {e : PeerEvent}
    (hno : ∀ cp, e ≠ .receive (.checkpoint cp)) : p.OnCheckpoint P C e := by
  cases e with
  | receive m =>
    cases m with
    | checkpoint cp => exact absurd rfl (hno cp)
    | prePrepare => trivial
    | prepare => trivial
    | commit => trivial
    | pbftTLC => trivial
  | tag => trivial
  | verify => trivial
  | propose => trivial

/-- A Checkpoint that completes a count is not for an older ID than the last one. -/
def Peer.CompletesForward (P : Primitives) (p : Peer) : PeerEvent → Prop :=
  p.OnCheckpoint P fun cp => p.node.pbft.lastCheckpoint ≤ cp.pbftID

/-- A Checkpoint that completes a count completes it for some digest. -/
def Peer.CompletesAgreed (P : Primitives) (p : Peer) : PeerEvent → Prop :=
  p.OnCheckpoint P fun cp => 0 < cp.pbftID →
    (p.node.checkpointLog cp).Agrees p.node.checkpointQuorum cp.pbftID

instance (p : Peer) (e : PeerEvent) : Decidable (p.CompletesForward P e) := by
  unfold Peer.CompletesForward
  infer_instance

instance (p : Peer) (e : PeerEvent) : Decidable (p.CompletesAgreed P e) := by
  unfold Peer.CompletesAgreed
  infer_instance

namespace Peer

variable {p q : Peer} {e : PeerEvent} {conf : PeerConfig} {es : List PeerEvent}

theorem Effect.recordsOwn (h : p.Effect P e q) (hp : p.RecordsOwn) : q.RecordsOwn := by
  have hconf := h.sameConfig P
  refine ⟨by rw [hconf.addr, hconf.myAddr, hp.addr], fun k d hk => ?_⟩
  rw [hconf.myAddr] at hk
  cases h with
  | @receive m r effect =>
    have hle : p.node.pbft.pbftID ≤ (p.after r).node.pbft.pbftID := effect.pbftID_le
    refine (hp.own k d ?_).trans hle
    by_cases hm : ∃ cp, m = .checkpoint cp
    · obtain ⟨cp, rfl⟩ := hm
      cases effect with
      | idle same =>
        change GoMap.get₂ r.node.pbft.logCheckpointMsg k p.node.myAddr = some d at hk
        rwa [same.node] at hk
      | checkpoint admits =>
        change GoMap.get₂ (p.node.checkpointLog cp) k p.node.myAddr = some d at hk
        rw [Node.checkpointLog, GoMap.get₂_set₂, if_neg fun hown => admits.1 hown.2.symm] at hk
        exact hk
    · have hlog := (effect.checkpoints fun cp heq => hm ⟨cp, heq⟩).2
      change GoMap.get₂ r.node.pbft.logCheckpointMsg k p.node.myAddr = some d at hk
      rwa [hlog] at hk
  | tag name mh =>
    rw [Peer.tag_pbft] at hk ⊢
    exact hp.own k d hk
  | verify => exact hp.own k d hk
  | @propose i call =>
    obtain ⟨_, hle, hlog⟩ := Node.tagSection_checkpoints (P := P) (n := p.node) call
    change GoMap.get₂ (p.node.tagSection P call).node.pbft.logCheckpointMsg k p.node.myAddr =
      some d at hk
    change k ≤ (p.node.tagSection P call).node.pbft.pbftID
    rcases hlog with hsame | ⟨hid, d', hset⟩
    · rw [hsame] at hk
      exact (hp.own k d hk).trans hle
    · rw [hset, GoMap.get₂_set₂] at hk
      split_ifs at hk with hnew
      · rw [hid, hnew.1]
      · exact (hp.own k d hk).trans hle

theorem recordsOwn_of_run (h : AnyRun (Peer.step P) (newPeer P conf) es p) : p.RecordsOwn :=
  h.invariant (I := Peer.RecordsOwn) ⟨rfl, by simp [newPeer, newSafePbft, GoMap.get₂]⟩
    fun hp _ hstep => (Peer.step_effect P hstep).recordsOwn hp

theorem Effect.checkpoints (h : p.Effect P e q) (hno : ∀ cp, e ≠ .receive (.checkpoint cp)) :
    q.node.pbft.lastCheckpoint = p.node.pbft.lastCheckpoint ∧
      (0 < p.node.totalPeers → p.RecordsOwn → ∀ k a d,
        GoMap.get₂ p.node.pbft.logCheckpointMsg k a = some d →
          GoMap.get₂ q.node.pbft.logCheckpointMsg k a = some d) := by
  cases h with
  | @receive m r effect =>
    obtain ⟨hlast, hlog⟩ := effect.checkpoints fun cp heq => hno cp (heq ▸ rfl)
    refine ⟨hlast, fun _ _ k a d hk => ?_⟩
    change GoMap.get₂ r.node.pbft.logCheckpointMsg k a = some d
    rwa [hlog]
  | tag name mh =>
    rw [Peer.tag_pbft]
    exact ⟨rfl, fun _ _ _ _ _ hk => hk⟩
  | verify => exact ⟨rfl, fun _ _ _ _ _ hk => hk⟩
  | @propose i call =>
    obtain ⟨hlast, _, hlog⟩ := Node.tagSection_checkpoints (P := P) (n := p.node) call
    refine ⟨hlast, fun hpeers hp k a d hk => ?_⟩
    change GoMap.get₂ (p.node.tagSection P call).node.pbft.logCheckpointMsg k a = some d
    rcases hlog with hsame | ⟨_, d', hset⟩
    · rwa [hsame]
    · rw [hset, GoMap.get₂_set₂, if_neg]
      · exact hk
      · -- the counter has not come to the new ID before
        rintro ⟨rfl, rfl⟩
        rw [hp.addr] at hk
        have := hp.own _ d hk
        omega

theorem lastCheckpoint_le_iff (h : p.step P e = some q) :
    p.node.pbft.lastCheckpoint ≤ q.node.pbft.lastCheckpoint ↔ p.CompletesForward P e := by
  by_cases he : ∃ cp, e = .receive (.checkpoint cp)
  · obtain ⟨cp, rfl⟩ := he
    obtain rfl := Option.some.inj h
    change _ ≤ (p.node.execCheckpointMessage P cp).node.pbft.lastCheckpoint ↔
      (p.node.Completes P cp → _)
    rw [(Node.execCheckpointMessage_spec cp).1]
    split_ifs with hcompletes
    · exact ⟨fun hle _ => hle, fun hle => hle hcompletes⟩
    · exact iff_of_true le_rfl fun hc => absurd hc hcompletes
  · have hno : ∀ cp, e ≠ .receive (.checkpoint cp) := fun cp heq => he ⟨cp, heq⟩
    rw [((Peer.step_effect P h).checkpoints hno).1]
    exact iff_of_true le_rfl (.of_ne hno)

theorem CheckpointAgreed.step_iff (hpeers : 0 < p.node.totalPeers) (hown : p.RecordsOwn)
    (hp : p.CheckpointAgreed) (h : p.step P e = some q) :
    q.CheckpointAgreed ↔ p.CompletesAgreed P e := by
  have hquorum : q.node.checkpointQuorum = p.node.checkpointQuorum := by
    rw [Node.checkpointQuorum, ((Peer.step_effect P h).sameConfig P).totalPeers]
    rfl
  unfold CheckpointAgreed at *
  rw [hquorum]
  by_cases he : ∃ cp, e = .receive (.checkpoint cp)
  · obtain ⟨cp, rfl⟩ := he
    obtain rfl := Option.some.inj h
    change (0 < (p.node.execCheckpointMessage P cp).node.pbft.lastCheckpoint →
      CheckpointLog.Agrees (p.node.execCheckpointMessage P cp).node.pbft.logCheckpointMsg _
        (p.node.execCheckpointMessage P cp).node.pbft.lastCheckpoint) ↔
      (p.node.Completes P cp → _)
    obtain ⟨hlast, hlog⟩ := Node.execCheckpointMessage_spec (P := P) (n := p.node) cp
    rw [hlast, hlog]
    by_cases hcompletes : p.node.Completes P cp
    · rw [if_pos hcompletes, if_pos hcompletes.1]
      exact ⟨fun hagreed _ => hagreed, fun hagreed => hagreed hcompletes⟩
    · rw [if_neg hcompletes]
      refine iff_of_true (fun hpos => ?_) fun hc => absurd hc hcompletes
      split_ifs with hadmits
      · refine (hp hpos).mono fun a d hd => ?_
        rw [Node.checkpointLog, GoMap.get₂_set₂, if_neg]
        · exact hd
        · -- a Checkpoint for the last checkpoint itself finds its senders there
          rintro ⟨hid, _⟩
          apply hcompletes
          refine ⟨hadmits, (hp hpos).senders.trans (Finset.card_le_card ?_)⟩
          rw [← hid]
          exact CheckpointLog.senders_subset_set₂ ..
      · exact hp hpos
  · have hno : ∀ cp, e ≠ .receive (.checkpoint cp) := fun cp heq => he ⟨cp, heq⟩
    obtain ⟨hlast, hkept⟩ := (Peer.step_effect P h).checkpoints hno
    rw [hlast]
    exact iff_of_true (fun hpos => (hp hpos).mono fun a d => hkept hpeers hown _ a d) (.of_ne hno)

end Peer

/-- The last checkpoint never goes back and always has its quorum for one digest, as long as no
Checkpoint completes a count for an older ID, or for senders that disagree: the handler does not
compare. -/
theorem checkpoints_stable_iff {conf : PeerConfig} (hpeers : 0 < conf.totalPeers)
    {es : List PeerEvent} {p : Peer} (h : AnyRun (Peer.step P) (newPeer P conf) es p) :
    (Throughout (Peer.step P)
        (fun p q => p.node.pbft.lastCheckpoint ≤ q.node.pbft.lastCheckpoint) (newPeer P conf) es ∧
      Always (Peer.step P) Peer.CheckpointAgreed (newPeer P conf) es) ↔
      Run (Peer.step P) (fun p e => p.CompletesForward P e ∧ p.CompletesAgreed P e)
        (newPeer P conf) es p := by
  rw [← run_and_iff h]
  refine and_congr ?_ ?_
  · exact throughout_iff_run h (fun _ => le_rfl) le_trans fun _ => Peer.lastCheckpoint_le_iff
  · refine always_iff_run h (fun hpos => absurd hpos (Nat.lt_irrefl 0)) fun prior hagreed hstep => ?_
    have htotal := (sameConfig_of_run P prior).totalPeers
    exact hagreed.step_iff (htotal ▸ hpeers) (Peer.recordsOwn_of_run prior) hstep

namespace Sample

def checkpointFrom (addr digest : String) (pbftID : ℕ) : CheckpointMessage :=
  { digest := digest, pbftID := pbftID, srcAddr := addr, signature := sign addr digest }

def checkpoints (pbftID : ℕ) (digests : List (String × String)) : List PeerEvent :=
  digests.map fun x => .receive (.checkpoint (checkpointFrom x.1 x.2 pbftID))

def disagreeing : List PeerEvent := checkpoints 2000 [("B", "aa"), ("C", "bb"), ("D", "cc")]

def belated : List PeerEvent := checkpoints 1000 [("B", "aa"), ("C", "aa"), ("D", "aa")]

theorem disagreeing_isSome :
    (exec (Peer.step primitives) (newPeer primitives (conf "A" 1)) disagreeing).isSome := by
  decide

def unagreed : Peer :=
  (exec (Peer.step primitives) (newPeer primitives (conf "A" 1)) disagreeing).get
    disagreeing_isSome

theorem belated_isSome : (exec (Peer.step primitives) unagreed belated).isSome := by
  decide

def takenBack : Peer := (exec (Peer.step primitives) unagreed belated).get belated_isSome

/-- Nobody agrees on the checkpoint 2000, and the older one replaces it. -/
theorem checkpoints_counterexample :
    AnyRun (Peer.step primitives) (newPeer primitives (conf "A" 1)) disagreeing unagreed ∧
      AnyRun (Peer.step primitives) unagreed belated takenBack ∧
      unagreed.node.pbft.lastCheckpoint = 2000 ∧ ¬ unagreed.CheckpointAgreed ∧
      takenBack.node.pbft.lastCheckpoint = 1000 := by
  have hlast : unagreed.node.pbft.lastCheckpoint = 2000 := by decide
  refine ⟨run_exec_get _, run_exec_get _, hlast, fun hagreed => ?_, by decide⟩
  have hno : ¬ CheckpointLog.Agrees unagreed.node.pbft.logCheckpointMsg
      unagreed.node.checkpointQuorum 2000 := by decide
  rw [Peer.CheckpointAgreed, hlast] at hagreed
  exact hno (hagreed (by decide))

def agreedCheckpoints : List PeerEvent :=
  belated ++ checkpoints 2000 [("B", "aa"), ("C", "bb"), ("B", "bb"), ("D", "bb")]

theorem agreedCheckpoints_isSome :
    (exec (guarded (Peer.step primitives) fun p e =>
      p.CompletesForward primitives e ∧ p.CompletesAgreed primitives e)
      (newPeer primitives (conf "A" 1)) agreedCheckpoints).isSome := by
  decide

theorem checkpoints_stable_agreed :
    Throughout (Peer.step primitives)
        (fun p q => p.node.pbft.lastCheckpoint ≤ q.node.pbft.lastCheckpoint)
        (newPeer primitives (conf "A" 1)) agreedCheckpoints ∧
      Always (Peer.step primitives) Peer.CheckpointAgreed (newPeer primitives (conf "A" 1))
        agreedCheckpoints :=
  have hrun := run_of_guarded (run_exec_get agreedCheckpoints_isSome)
  (checkpoints_stable_iff (by decide) hrun.forget).mpr hrun

end Sample

end JobPortal
