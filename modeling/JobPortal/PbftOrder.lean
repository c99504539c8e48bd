import JobPortal.PbftCertificate
import JobPortal.PbftTally

/-! Delivery order within one PbftID. What a replica records of an ID follows a tally, and
the tally depends on the order: the same messages make a block or leave the ID without one. -/
namespace JobPortal

open Hex Runs

variable (P : Primitives)

def Node.handleAll (n : Node) : List Message → Node × List (ℕ × PbftchainBlock)
  | [] => (n, [])
  | m :: ms =>
    let r := n.exec P m
    let rest := Node.handleAll r.node ms
    (rest.1, r.appended ++ rest.2)

def AppendsFor (n : Node) (k : ℕ) (ms : List Message) : Prop :=
  ∃ b, (k, b) ∈ (n.handleAll P ms).2

instance (n : Node) (k : ℕ) (ms : List Message) : Decidable (AppendsFor P n k ms) :=
  decidable_of_iff (∃ x ∈ (n.handleAll P ms).2, x.1 = k) <| by
    simp [AppendsFor]

/-- Nothing about `k` has reached the node yet. -/
structure Node.Unseen (n : Node) (k : ℕ) : Prop where
  prePrepare : n.pbft.logPrePrepareMsg.lookup k = none
  prepare : ∀ a, n.pbft.logPrepareMsg.recorded a k = none
  commit : ∀ a, n.pbft.logCommitMsg.recorded a k = none
  state : n.pbft.stateAt k = 0

/-- The messages of one ID that all carry one digest: a valid PrePrepare and some Prepares and
Commits, of each kind at most one from each other node. -/
structure Deliveries (n : Node) (k : ℕ) (d : String) where
  prePrepare : PrePrepareMessage
  prepares : List PrepareMessage
  commits : List CommitMessage
  prePrepare_for : prePrepare.pbftID = k ∧ prePrepare.digest = d
  prepares_for : ∀ pre ∈ prepares, pre.pbftID = k ∧ pre.digest = d
  commits_for : ∀ c ∈ commits, c.pbftID = k ∧ c.digest = d
  valid : P.getDigest prePrepare.requestMessage = prePrepare.digest ∧
    P.verifies prePrepare.srcAddr prePrepare.digest prePrepare.signature = true
  prePrepare_other : prePrepare.srcAddr ≠ n.myAddr
  prepares_other : ∀ pre ∈ prepares, pre.srcAddr ≠ n.myAddr
  commits_other : ∀ c ∈ commits, c.srcAddr ≠ n.myAddr
  prepares_nodup : (prepares.map (·.srcAddr)).Nodup
  commits_nodup : (commits.map (·.srcAddr)).Nodup

/-- What a message is counted as. A message whose signature fails is dropped. -/
def counted : Message → Option Kind
  | .prePrepare _ => some .prePrepare
  | .prepare pre => if P.verifies pre.srcAddr pre.digest pre.signature then some .prepare else none
  | .commit c => if P.verifies c.srcAddr c.digest c.signature then some .commit else none
  | _ => none

/-- The node's records of `k` are exactly what a tally says: `S` and `C` are the other nodes
whose Prepares and Commits are in. -/
structure Tracks (k : ℕ) (d : String) (S C : Finset String) (t : Tally) (n : Node) : Prop where
  addr : n.pbft.addr = n.myAddr
  free : n.pbft.lock = false
  others : n.myAddr ∉ S ∧ n.myAddr ∉ C
  prepares : S.card = t.prepares
  commits : C.card = t.commits
  bound : n.pbft.logPrePrepareMsg.lookup k = if t.bound then some d else none
  prepare : ∀ a, n.pbft.logPrepareMsg.recorded a k = some d ↔ a ∈ S ∨ a = n.myAddr ∧ t.bound
  commit : ∀ a, n.pbft.logCommitMsg.recorded a k = some d ↔ a ∈ C ∨ a = n.myAddr ∧ 1 ≤ t.phase
  state : n.pbft.stateAt k = t.phase
  prepared : 1 ≤ t.phase → t.bound = true

theorem Node.Unseen.tracks {n : Node} {k : ℕ} (h : n.Unseen k) (d : String)
    (haddr : n.pbft.addr = n.myAddr) (hfree : n.pbft.lock = false) :
    Tracks k d ∅ ∅ .start n where
  addr := haddr
  free := hfree
  others := by simp
  prepares := rfl
  commits := rfl
  bound := by simp [Tally.start, h.prePrepare]
  prepare a := by simp [Tally.start, h.prepare a]
  commit a := by simp [Tally.start, h.commit a]
  state := h.state
  prepared := by simp [Tally.start]

namespace Tracks

variable {P} {k : ℕ} {d : String} {S C : Finset String} {t : Tally} {n : Node}

theorem prepares_card (h : Tracks k d S C t n) (hd : d ≠ "") (hb : t.bound = true) :
    (n.pbft.matching n.pbft.logPrepareMsg k).card = t.prepares + 1 := by
  have hset : n.pbft.matching n.pbft.logPrepareMsg k = insert n.myAddr S := by
    ext a
    rw [SafePbft.mem_matching _ (by simpa [hb] using h.bound) hd, h.prepare a, Finset.mem_insert]
    simp [hb, or_comm]
  rw [hset, Finset.card_insert_of_notMem h.others.1, h.prepares]

theorem commits_card (h : Tracks k d S C t n) (hd : d ≠ "") (hphase : 1 ≤ t.phase) :
    (n.pbft.matching n.pbft.logCommitMsg k).card = t.commits + 1 := by
  have hb := h.prepared hphase
  have hset : n.pbft.matching n.pbft.logCommitMsg k = insert n.myAddr C := by
    ext a
    rw [SafePbft.mem_matching _ (by simpa [hb] using h.bound) hd, h.commit a, Finset.mem_insert]
    simp [hphase, or_comm]
  rw [hset, Finset.card_insert_of_notMem h.others.2, h.commits]

/-- The prepared switch of the node is that of the tally. -/
theorem prepares_iff (h : Tracks k d S C t n) (hd : d ≠ "") (hq : 0 < n.totalPeers / 3 * 2) :
    n.Prepares k ↔ t.phase = 0 ∧ t.bound = true ∧ n.totalPeers / 3 * 2 ≤ t.prepares + 1 := by
  unfold Node.Prepares
  rw [h.state]
  by_cases hb : t.bound = true
  · rw [h.prepares_card hd hb]
    simp [hb, and_comm]
  · have hnone : n.pbft.logPrePrepareMsg.lookup k = none := by simpa [hb] using h.bound
    rw [SafePbft.matching_eq_empty _ hnone]
    simp only [hb, Finset.card_empty, Bool.false_eq_true, false_and, and_false, iff_false]
    omega

theorem commits_iff (h : Tracks k d S C t n) (hd : d ≠ "") :
    n.Commits k ↔ t.phase = 1 ∧ n.totalPeers / 3 * 2 < t.commits + 1 := by
  have hstate : n.pbft.state.lookup k = some 1 ↔ t.phase = 1 := by
    rw [← h.state, SafePbft.stateAt, GoMap.at]
    cases n.pbft.state.lookup k <;> simp
  unfold Node.Commits
  rw [hstate]
  constructor
  · rintro ⟨hcard, hphase⟩
    rw [h.commits_card hd (by omega)] at hcard
    exact ⟨hphase, hcard⟩
  · rintro ⟨hphase, hcard⟩
    rw [h.commits_card hd (by omega)]
    exact ⟨hcard, hphase⟩

theorem storePrePrepare (h : Tracks k d S C t n) {pp : PrePrepareMessage}
    (hpp : pp.pbftID = k ∧ pp.digest = d) :
    Tracks k d S C { t with bound := true } (n.storePrePrepare pp) := by
  obtain ⟨rfl, rfl⟩ := hpp
  refine ⟨h.addr, h.free, h.others, h.prepares, h.commits, ?_, ?_, h.commit, h.state, fun _ => rfl⟩
  · simp [Node.storePrePrepare]
  · intro a
    change (n.pbft.logPrepareMsg.record n.pbft.addr pp.pbftID pp.digest).recorded a pp.pbftID
      = some pp.digest ↔ a ∈ S ∨ a = n.myAddr ∧ true
    rw [h.addr]
    by_cases ha : a = n.myAddr
    · subst ha
      simp
    · rw [DigestLog.recorded_record_of_addr_ne _ ha, h.prepare a]
      simp [ha]

theorem storePrepare (h : Tracks k d S C t n) {pre : PrepareMessage}
    (hpre : pre.pbftID = k ∧ pre.digest = d) (hother : pre.srcAddr ≠ n.myAddr)
    (hnew : pre.srcAddr ∉ S) :
    Tracks k d (insert pre.srcAddr S) C { t with prepares := t.prepares + 1 }
      (n.storePrepare pre) := by
  obtain ⟨rfl, rfl⟩ := hpre
  refine ⟨h.addr, h.free, ?_, ?_, h.commits, h.bound, ?_, h.commit, h.state, h.prepared⟩
  · have := h.others
    simp only [Node.storePrepare, Finset.mem_insert, not_or]
    exact ⟨⟨hother.symm, this.1⟩, this.2⟩
  · rw [Finset.card_insert_of_notMem hnew, h.prepares]
  · intro a
    change (n.pbft.logPrepareMsg.record pre.srcAddr pre.pbftID pre.digest).recorded a pre.pbftID
      = some pre.digest ↔ a ∈ insert pre.srcAddr S ∨ a = n.myAddr ∧ t.bound
    by_cases ha : a = pre.srcAddr
    · subst ha
      simp
    · rw [DigestLog.recorded_record_of_addr_ne _ ha, h.prepare a]
      simp [ha]

theorem storeCommit (h : Tracks k d S C t n) {c : CommitMessage}
    (hc : c.pbftID = k ∧ c.digest = d) (hother : c.srcAddr ≠ n.myAddr) (hnew : c.srcAddr ∉ C) :
    Tracks k d S (insert c.srcAddr C) { t with commits := t.commits + 1 } (n.storeCommit c) := by
  obtain ⟨rfl, rfl⟩ := hc
  refine ⟨h.addr, h.free, ?_, h.prepares, ?_, h.bound, h.prepare, ?_, h.state, h.prepared⟩
  · have := h.others
    simp only [Node.storeCommit, Finset.mem_insert, not_or]
    exact ⟨this.1, hother.symm, this.2⟩
  · rw [Finset.card_insert_of_notMem hnew, h.commits]
  · intro a
    change (n.pbft.logCommitMsg.record c.srcAddr c.pbftID c.digest).recorded a c.pbftID
      = some c.digest ↔ a ∈ insert c.srcAddr C ∨ a = n.myAddr ∧ 1 ≤ t.phase
    by_cases ha : a = c.srcAddr
    · subst ha
      simp
    · rw [DigestLog.recorded_record_of_addr_ne _ ha, h.commit a]
      simp [ha]

theorem enterPrepared (h : Tracks k d S C t n) {pre : PrepareMessage}
    (hpre : pre.pbftID = k ∧ pre.digest = d) (hb : t.bound = true) :
    Tracks k d S C { t with phase := 1 } (n.enterPrepared pre) := by
  obtain ⟨rfl, rfl⟩ := hpre
  refine ⟨h.addr, h.free, h.others, h.prepares, h.commits, h.bound, h.prepare, ?_,
    SafePbft.stateAt_setState_self _ _ _, fun _ => hb⟩
  intro a
  change (n.pbft.logCommitMsg.record n.pbft.addr pre.pbftID pre.digest).recorded a pre.pbftID
    = some pre.digest ↔ a ∈ C ∨ a = n.myAddr ∧ 1 ≤ 1
  rw [h.addr]
  by_cases ha : a = n.myAddr
  · subst ha
    simp
  · rw [DigestLog.recorded_record_of_addr_ne _ ha, h.commit a]
    simp [ha]

theorem enterCommitted (h : Tracks k d S C t n) (hphase : t.phase = 1) :
    Tracks k d S C { t with phase := 2 } (n.enterCommitted k) := by
  have hb := h.prepared (by omega)
  refine ⟨h.addr, h.free, h.others, h.prepares, h.commits, h.bound, h.prepare, ?_,
    SafePbft.stateAt_setState_self _ _ _, fun _ => hb⟩
  intro a
  exact (h.commit a).trans (by simp [hphase, Node.enterCommitted])

theorem appendBlock (h : Tracks k d S C t n) (b : PbftchainBlock) :
    Tracks k d S C t (n.appendBlock P b) :=
  ⟨h.addr, h.free, h.others, h.prepares, h.commits, h.bound, h.prepare, h.commit, h.state,
    h.prepared⟩

end Tracks

def Message.prepareSender : Message → Option String
  | .prepare pre => some pre.srcAddr
  | _ => none

def Message.commitSender : Message → Option String
  | .commit c => some c.srcAddr
  | _ => none

def Carries (me : String) (k : ℕ) (d : String) : Message → Prop
  | .prePrepare pp => (pp.pbftID = k ∧ pp.digest = d) ∧ pp.srcAddr ≠ me ∧
      P.getDigest pp.requestMessage = pp.digest ∧
      P.verifies pp.srcAddr pp.digest pp.signature = true
  | .prepare pre => (pre.pbftID = k ∧ pre.digest = d) ∧ pre.srcAddr ≠ me
  | .commit c => (c.pbftID = k ∧ c.digest = d) ∧ c.srcAddr ≠ me
  | _ => False

namespace Tracks

variable {P} {k : ℕ} {d : String} {S C : Finset String} {t : Tally} {n : Node}

theorem exec_prePrepare (h : Tracks k d S C t n) {pp : PrePrepareMessage}
    (hpp : Carries P n.myAddr k d (.prePrepare pp)) :
    Tracks k d S C { t with bound := true } (n.exec P (.prePrepare pp)).node ∧
      (n.exec P (.prePrepare pp)).appended = [] := by
  obtain ⟨⟨rfl, rfl⟩, hother, hdigest, hsig⟩ := hpp
  have hfresh : ¬ n.Conflicts pp := by
    rintro ⟨e, he, hne⟩
    rw [h.bound] at he
    split_ifs at he
    exact hne (Option.some.inj he).symm
  have hexec : n.exec P (.prePrepare pp) =
      { node := n.storePrePrepare pp, sent := [.prepare (n.prepareOf P pp)]
        signed := [decodeString pp.digest] } := by
    simp [Node.exec, Node.execPrePrepareMessage, hother, hdigest, hsig, h.free, hfresh]
  rw [hexec]
  exact ⟨h.storePrePrepare ⟨rfl, rfl⟩, rfl⟩

theorem exec_prepare (h : Tracks k d S C t n) (hd : d ≠ "") (hq : 0 < n.totalPeers / 3 * 2)
    {pre : PrepareMessage} (hpre : Carries P n.myAddr k d (.prepare pre))
    (hsig : P.verifies pre.srcAddr pre.digest pre.signature = true) (hnew : pre.srcAddr ∉ S) :
    Tracks k d (insert pre.srcAddr S) C (t.step (n.totalPeers / 3 * 2) .prepare)
        (n.exec P (.prepare pre)).node ∧
      (n.exec P (.prepare pre)).appended = [] := by
  obtain ⟨⟨rfl, rfl⟩, hother⟩ := hpre
  have hstored := h.storePrepare ⟨rfl, rfl⟩ hother hnew
  have hswitch : (n.storePrepare pre).Prepares pre.pbftID ↔
      t.phase = 0 ∧ t.bound = true ∧ n.totalPeers / 3 * 2 ≤ t.prepares + 2 :=
    hstored.prepares_iff hd hq
  have hexec : n.exec P (.prepare pre) =
      if (n.storePrepare pre).Prepares pre.pbftID then
        { node := (n.storePrepare pre).enterPrepared pre
          sent := [.commit ((n.storePrepare pre).commitOf P pre)]
          signed := [decodeString pre.digest] }
      else { node := n.storePrepare pre } :=
    Node.checked_of_admits P n ⟨hother, hsig, h.free⟩
  rw [hexec]
  by_cases hprep : (n.storePrepare pre).Prepares pre.pbftID
  · rw [if_pos hprep]
    obtain ⟨hphase, hb, hcount⟩ := hswitch.mp hprep
    have hstep : t.step (n.totalPeers / 3 * 2) .prepare =
        { t with prepares := t.prepares + 1, phase := 1 } := by
      rw [Tally.step, if_pos ⟨hphase, hb, hcount⟩]
    rw [hstep]
    exact ⟨hstored.enterPrepared ⟨rfl, rfl⟩ hb, rfl⟩
  · rw [if_neg hprep]
    have hstep : t.step (n.totalPeers / 3 * 2) .prepare =
        { t with prepares := t.prepares + 1 } := by
      rw [Tally.step, if_neg fun hstay => hprep (hswitch.mpr hstay)]
    rw [hstep]
    exact ⟨hstored, rfl⟩

/-- A block is appended exactly when the tally moves to its last phase. -/
theorem exec_commit (h : Tracks k d S C t n) (hd : d ≠ "") (hq : 0 < n.totalPeers / 3 * 2)
    {c : CommitMessage} (hc : Carries P n.myAddr k d (.commit c))
    (hsig : P.verifies c.srcAddr c.digest c.signature = true) (hnew : c.srcAddr ∉ C) :
    Tracks k d S (insert c.srcAddr C) (t.step (n.totalPeers / 3 * 2) .commit)
        (n.exec P (.commit c)).node ∧
      ((∃ b, (k, b) ∈ (n.exec P (.commit c)).appended) ↔
        t.phase ≠ 2 ∧ (t.step (n.totalPeers / 3 * 2) .commit).phase = 2) := by
  obtain ⟨⟨rfl, rfl⟩, hother⟩ := hc
  have hstored := h.storeCommit ⟨rfl, rfl⟩ hother hnew
  have hswitch : (n.storeCommit c).Commits c.pbftID ↔
      t.phase = 1 ∧ n.totalPeers / 3 * 2 < t.commits + 2 := hstored.commits_iff hd
  have hpeers : ¬ ((n.storeCommit c).enterCommitted c.pbftID).totalPeers = 0 := by
    change ¬ n.totalPeers = 0
    omega
  have hexec : n.exec P (.commit c) =
      if (n.storeCommit c).Commits c.pbftID then
        { node := ((n.storeCommit c).enterCommitted c.pbftID).appendBlock P
            (n.committedBlock P c)
          appended := [(c.pbftID, n.committedBlock P c)] }
      else { node := n.storeCommit c } := by
    apply (Node.checked_of_admits P n ⟨hother, hsig, h.free⟩).trans
    dsimp only
    rw [if_neg hpeers]
    rfl
  rw [hexec]
  by_cases hcom : (n.storeCommit c).Commits c.pbftID
  · rw [if_pos hcom]
    obtain ⟨hphase, hcount⟩ := hswitch.mp hcom
    have hstep : t.step (n.totalPeers / 3 * 2) .commit =
        { t with commits := t.commits + 1, phase := 2 } := by
      rw [Tally.step, if_pos ⟨hphase, hcount⟩]
    rw [hstep]
    refine ⟨(hstored.enterCommitted hphase).appendBlock _, ?_⟩
    simp [hphase]
  · rw [if_neg hcom]
    have hstep : t.step (n.totalPeers / 3 * 2) .commit =
        { t with commits := t.commits + 1 } := by
      rw [Tally.step, if_neg fun hstay => hcom (hswitch.mpr hstay)]
    rw [hstep]
    refine ⟨hstored, ?_⟩
    simp

/-- One message of `k` and `d`, dropped or counted. -/
theorem exec (h : Tracks k d S C t n) (hd : d ≠ "") (hq : 0 < n.totalPeers / 3 * 2)
    {m : Message} (hm : Carries P n.myAddr k d m) (hS : ∀ a ∈ m.prepareSender, a ∉ S)
    (hC : ∀ a ∈ m.commitSender, a ∉ C) :
    let t' := t.run (n.totalPeers / 3 * 2) (counted P m).toList
    ∃ S' ⊆ S ∪ m.prepareSender.toFinset, ∃ C' ⊆ C ∪ m.commitSender.toFinset,
      Tracks k d S' C' t' (n.exec P m).node ∧
      ((∃ b, (k, b) ∈ (n.exec P m).appended) ↔ t.phase ≠ 2 ∧ t'.phase = 2) := by
  have dropped {m : Message} (hidle : Handled.Idle n (n.exec P m)) (hm : counted P m = none) :
      let t' := t.run (n.totalPeers / 3 * 2) (counted P m).toList
      ∃ S' ⊆ S ∪ m.prepareSender.toFinset, ∃ C' ⊆ C ∪ m.commitSender.toFinset,
        Tracks k d S' C' t' (n.exec P m).node ∧
        ((∃ b, (k, b) ∈ (n.exec P m).appended) ↔ t.phase ≠ 2 ∧ t'.phase = 2) := by
    rw [hm, hidle.node, hidle.appended]
    exact ⟨S, Finset.subset_union_left, C, Finset.subset_union_left, h, by simp [Tally.run]⟩
  cases m with
  | prePrepare pp =>
    obtain ⟨htracks, happ⟩ := h.exec_prePrepare hm
    refine ⟨S, Finset.subset_union_left, C, Finset.subset_union_left, htracks, ?_⟩
    simp [happ, counted, Tally.run, Tally.step]
  | prepare pre =>
    by_cases hsig : P.verifies pre.srcAddr pre.digest pre.signature = true
    · obtain ⟨htracks, happ⟩ := h.exec_prepare hd hq hm hsig (hS _ rfl)
      have hcounted : counted P (.prepare pre) = some .prepare := if_pos hsig
      rw [hcounted]
      refine ⟨_, ?_, C, Finset.subset_union_left, htracks, ?_⟩
      · simp [Message.prepareSender]
      · simp only [happ, List.not_mem_nil, exists_false, false_iff, Option.toList, Tally.run,
          List.foldl_cons, List.foldl_nil, Tally.step]
        split_ifs <;> omega
    · exact dropped (Node.checked_idle P n fun hadmits => hsig hadmits.2.1) (if_neg hsig)
  | commit c =>
    by_cases hsig : P.verifies c.srcAddr c.digest c.signature = true
    · obtain ⟨htracks, happ⟩ := h.exec_commit hd hq hm hsig (hC _ rfl)
      have hcounted : counted P (.commit c) = some .commit := if_pos hsig
      rw [hcounted]
      refine ⟨S, Finset.subset_union_left, _, ?_, htracks, happ⟩
      simp [Message.commitSender]
    · exact dropped (Node.checked_idle P n fun hadmits => hsig hadmits.2.1) (if_neg hsig)
  | checkpoint cp => exact hm.elim
  | pbftTLC tlc => exact hm.elim

/-- The appends of a whole list are those of the tally. -/
theorem handleAll (h : Tracks k d S C t n) (hd : d ≠ "") (hq : 0 < n.totalPeers / 3 * 2)
    {ms : List Message} (hms : ∀ m ∈ ms, Carries P n.myAddr k d m)
    (hS : (ms.filterMap Message.prepareSender).Nodup)
    (hC : (ms.filterMap Message.commitSender).Nodup)
    (hSnew : ∀ m ∈ ms, ∀ a ∈ m.prepareSender, a ∉ S)
    (hCnew : ∀ m ∈ ms, ∀ a ∈ m.commitSender, a ∉ C) :
    AppendsFor P n k ms ↔
      t.phase ≠ 2 ∧ (t.run (n.totalPeers / 3 * 2) (ms.filterMap (counted P))).phase = 2 := by
  induction ms generalizing S C t n with
  | nil => simp [AppendsFor, Node.handleAll, Tally.run]
  | cons m ms ih =>
    have hm := hms m List.mem_cons_self
    obtain ⟨S', hS', C', hC', htracks, happ⟩ := h.exec hd hq hm (hSnew m List.mem_cons_self)
      (hCnew m List.mem_cons_self)
    have hconf := (Node.exec_effect P n m).sameConfig P
    have hlater {f : Message → Option String} {T T' : Finset String}
        (hT : T' ⊆ T ∪ (f m).toFinset) (hnodup : ((m :: ms).filterMap f).Nodup)
        (hnew : ∀ m' ∈ m :: ms, ∀ a ∈ f m', a ∉ T) : ∀ m' ∈ ms, ∀ a ∈ f m', a ∉ T' := by
      intro m' hm' a ha hmem
      rcases Finset.mem_union.mp (hT hmem) with hold | hsame
      · exact hnew m' (List.mem_cons_of_mem _ hm') a ha hold
      · have hfm : f m = some a := Option.mem_toFinset.mp hsame
        rw [List.filterMap_cons_some hfm] at hnodup
        exact (List.nodup_cons.mp hnodup).1 (List.mem_filterMap.mpr ⟨m', hm', ha⟩)
    have hrest {f : Message → Option String} (hnodup : ((m :: ms).filterMap f).Nodup) :
        (ms.filterMap f).Nodup := hnodup.sublist ((List.sublist_cons_self m ms).filterMap f)
    have htail := ih htracks (by rwa [hconf.totalPeers])
      (fun m' hm' => by rw [hconf.myAddr]; exact hms m' (List.mem_cons_of_mem _ hm'))
      (hrest hS) (hrest hC) (hlater hS' hS hSnew) (hlater hC' hC hCnew)
    rw [hconf.totalPeers] at htail
    have hsplit : AppendsFor P n k (m :: ms) ↔
        (∃ b, (k, b) ∈ (n.exec P m).appended) ∨ AppendsFor P (n.exec P m).node k ms := by
      simp [AppendsFor, Node.handleAll, exists_or]
    have hks : (m :: ms).filterMap (counted P) =
        (counted P m).toList ++ ms.filterMap (counted P) := by
      cases hc : counted P m <;> simp [hc]
    rw [hsplit, happ, htail, hks, Tally.run_append]
    -- the phase never leaves 2, so the switch happens in the first message or in the rest
    generalize hfst : t.run (n.totalPeers / 3 * 2) (counted P m).toList = t'
    have hstay : t.phase = 2 → t'.phase = 2 := fun h2 => hfst ▸ Tally.run_committed h2 _
    by_cases h2' : t'.phase = 2
    · have hlast : (t'.run (n.totalPeers / 3 * 2) (ms.filterMap (counted P))).phase = 2 :=
        Tally.run_committed h2' _
      simp [h2', hlast]
    · have h2 : t.phase ≠ 2 := fun h2 => h2' (hstay h2)
      simp [h2, h2']

end Tracks

theorem exec_locked {n : Node} (hlock : n.pbft.lock = true) (m : Message) :
    Handled.Idle n (n.exec P m) := by
  have hno {a d : String} {sig : Bytes} : ¬ n.Admits P a d sig := by
    intro h
    have hfree := h.2.2
    rw [hlock] at hfree
    cases hfree
  cases m with
  | prePrepare pp =>
    change Handled.Idle n (n.execPrePrepareMessage P pp)
    unfold Node.execPrePrepareMessage
    rw [if_pos hlock]
    split_ifs <;> exact ⟨rfl, rfl, rfl, rfl⟩
  | prepare pre => exact Node.checked_idle P n hno
  | commit c => exact Node.checked_idle P n hno
  | checkpoint cp => exact Node.checked_idle P n hno
  | pbftTLC tlc =>
    change Handled.Idle n (n.execPbftTLCMessage P tlc)
    rw [Node.execPbftTLCMessage, if_pos hlock]
    exact ⟨rfl, rfl, rfl, rfl⟩

theorem not_appendsFor_locked {n : Node} (hlock : n.pbft.lock = true) (k : ℕ)
    (ms : List Message) : ¬ AppendsFor P n k ms := by
  induction ms with
  | nil => simp [AppendsFor, Node.handleAll]
  | cons m ms ih =>
    obtain ⟨hnode, _, _, happ⟩ := exec_locked P hlock m
    simpa [AppendsFor, Node.handleAll, hnode, happ] using ih

namespace Deliveries

variable {P} {n : Node} {k : ℕ} {d : String} (D : Deliveries P n k d)

def messages : List Message :=
  .prePrepare D.prePrepare :: (D.prepares.map .prepare ++ D.commits.map .commit)

def late : List Message := D.messages.tail ++ [.prePrepare D.prePrepare]

theorem late_perm : D.late.Perm D.messages := List.perm_append_singleton _ _

def goodPrepares : ℕ :=
  (D.prepares.filter fun pre => P.verifies pre.srcAddr pre.digest pre.signature).length

def goodCommits : ℕ := (D.commits.filter fun c => P.verifies c.srcAddr c.digest c.signature).length

include D in
theorem digest_ne_empty : d ≠ "" := by
  obtain ⟨_, hd⟩ := D.prePrepare_for
  rw [← hd, ← D.valid.1]
  exact P.getDigest_ne_empty _

theorem carries : ∀ m ∈ D.messages, Carries P n.myAddr k d m := by
  intro m hm
  simp only [messages, List.mem_cons, List.mem_append, List.mem_map] at hm
  rcases hm with rfl | ⟨pre, hpre, rfl⟩ | ⟨c, hc, rfl⟩
  · exact ⟨D.prePrepare_for, D.prePrepare_other, D.valid⟩
  · exact ⟨D.prepares_for pre hpre, D.prepares_other pre hpre⟩
  · exact ⟨D.commits_for c hc, D.commits_other c hc⟩

theorem prepareSenders :
    D.messages.filterMap Message.prepareSender = D.prepares.map (·.srcAddr) := by
  have hprep (l : List PrepareMessage) :
      (l.map Message.prepare).filterMap Message.prepareSender = l.map (·.srcAddr) := by
    rw [List.filterMap_map]
    exact congrFun List.filterMap_eq_map l
  have hcom (l : List CommitMessage) :
      (l.map Message.commit).filterMap Message.prepareSender = [] :=
    List.filterMap_eq_nil_iff.mpr (List.forall_mem_map.mpr fun _ _ => rfl)
  rw [messages, List.filterMap_cons_none rfl, List.filterMap_append, hprep, hcom, List.append_nil]

theorem commitSenders :
    D.messages.filterMap Message.commitSender = D.commits.map (·.srcAddr) := by
  have hprep (l : List PrepareMessage) :
      (l.map Message.prepare).filterMap Message.commitSender = [] :=
    List.filterMap_eq_nil_iff.mpr (List.forall_mem_map.mpr fun _ _ => rfl)
  have hcom (l : List CommitMessage) :
      (l.map Message.commit).filterMap Message.commitSender = l.map (·.srcAddr) := by
    rw [List.filterMap_map]
    exact congrFun List.filterMap_eq_map l
  rw [messages, List.filterMap_cons_none rfl, List.filterMap_append, hprep, hcom, List.nil_append]

theorem counted_messages : D.messages.filterMap (counted P) =
    Kind.prePrepare :: (List.replicate D.goodPrepares Kind.prepare ++
      List.replicate D.goodCommits Kind.commit) := by
  have hprep (l : List PrepareMessage) : (l.map Message.prepare).filterMap (counted P) =
      List.replicate (l.filter fun pre => P.verifies pre.srcAddr pre.digest pre.signature).length
        .prepare := by
    induction l with
    | nil => rfl
    | cons pre l ih =>
      cases hsig : P.verifies pre.srcAddr pre.digest pre.signature <;>
        simp [counted, hsig, ih, List.replicate_succ]
  have hcom (l : List CommitMessage) : (l.map Message.commit).filterMap (counted P) =
      List.replicate (l.filter fun c => P.verifies c.srcAddr c.digest c.signature).length
        .commit := by
    induction l with
    | nil => rfl
    | cons c l ih =>
      cases hsig : P.verifies c.srcAddr c.digest c.signature <;>
        simp [counted, hsig, ih, List.replicate_succ]
  have hpp : counted P (.prePrepare D.prePrepare) = some .prePrepare := rfl
  rw [messages, List.filterMap_cons_some hpp, List.filterMap_append, hprep, hcom]
  rfl

theorem counted_late : D.late.filterMap (counted P) =
    (List.replicate D.goodPrepares Kind.prepare ++ List.replicate D.goodCommits Kind.commit) ++
      [Kind.prePrepare] := by
  have hpp : counted P (.prePrepare D.prePrepare) = some .prePrepare := rfl
  have hcounted := D.counted_messages
  rw [messages, List.filterMap_cons_some hpp] at hcounted
  rw [late, List.filterMap_append, messages, List.tail_cons, (List.cons.inj hcounted).2]
  rfl

end Deliveries

variable {P}

/-- For a node that has the lock free, an order of the messages appends the block exactly when
its tally ends committed. -/
theorem Deliveries.appendsFor_iff {n : Node} {k : ℕ} {d : String} (D : Deliveries P n k d)
    (hunseen : n.Unseen k) (haddr : n.pbft.addr = n.myAddr) (hfree : n.pbft.lock = false)
    (hq : 0 < n.totalPeers / 3 * 2) {ms : List Message} (hms : ms.Perm D.messages) :
    AppendsFor P n k ms ↔
      (Tally.start.run (n.totalPeers / 3 * 2) (ms.filterMap (counted P))).phase = 2 := by
  have htracks := hunseen.tracks d haddr hfree
  rw [htracks.handleAll D.digest_ne_empty hq (fun m hm => D.carries m (hms.mem_iff.mp hm))
    ((hms.filterMap _).nodup_iff.mpr (D.prepareSenders ▸ D.prepares_nodup))
    ((hms.filterMap _).nodup_iff.mpr (D.commitSenders ▸ D.commits_nodup))
    (by simp) (by simp)]
  simp [Tally.start]

theorem Deliveries.short_not_appendsFor {n : Node} {k : ℕ} {d : String} (D : Deliveries P n k d)
    (hunseen : n.Unseen k) (haddr : n.pbft.addr = n.myAddr) (hfree : n.pbft.lock = false)
    (hq : 0 < n.totalPeers / 3 * 2)
    (hshort : D.goodPrepares + 1 < n.totalPeers / 3 * 2 ∨ D.goodCommits < n.totalPeers / 3 * 2)
    {ms : List Message} (hms : ms.Perm D.messages) : ¬ AppendsFor P n k ms := by
  rw [D.appendsFor_iff hunseen haddr hfree hq hms]
  intro hphase
  obtain ⟨hp, hc⟩ := Tally.quorums_of_committed (le_of_eq hphase.symm)
  have hperm := hms.filterMap (counted P)
  rw [D.counted_messages] at hperm
  rw [hperm.count_eq] at hp hc
  simp [List.count_replicate] at hp hc
  omega

/-- At a node that has seen nothing of an ID, every order of its messages has the same outcome
exactly when no order appends the block: the node is locked, or a quorum is missing. -/
theorem order_independent_iff {conf : PeerConfig} {es : List PeerEvent} {p : Peer}
    (hrun : AnyRun (Peer.step P) (newPeer P conf) es p) (hpeers : 4 ≤ conf.totalPeers)
    {k : ℕ} {d : String} (hunseen : p.node.Unseen k) (D : Deliveries P p.node k d) :
    (∀ ms ms', ms.Perm D.messages → ms'.Perm D.messages →
      (AppendsFor P p.node k ms ↔ AppendsFor P p.node k ms')) ↔
    p.node.pbft.lock = true ∨ D.goodPrepares + 1 < conf.totalPeers / 3 * 2 ∨
      D.goodCommits < conf.totalPeers / 3 * 2 := by
  have hconf := sameConfig_of_run P hrun
  have haddr : p.node.pbft.addr = p.node.myAddr := hconf.addr.trans hconf.myAddr.symm
  have htotal : conf.totalPeers = p.node.totalPeers := hconf.totalPeers.symm
  rw [htotal] at hpeers ⊢
  have hq : 0 < p.node.totalPeers / 3 * 2 := by omega
  cases hlock : p.node.pbft.lock with
  | true =>
    refine ⟨fun _ => .inl rfl, fun _ ms ms' _ _ => ?_⟩
    simp only [not_appendsFor_locked P hlock]
  | false =>
    simp only [Bool.false_eq_true, false_or]
    constructor
    · intro hsame
      by_contra hquorums
      -- the protocol's own order makes the block, the PrePrepare at the end does not
      have hiff := hsame _ _ (List.Perm.refl _) D.late_perm
      rw [D.appendsFor_iff hunseen haddr hlock hq (List.Perm.refl _),
        D.appendsFor_iff hunseen haddr hlock hq D.late_perm, D.counted_messages,
        D.counted_late] at hiff
      have hordered : (Tally.start.run (p.node.totalPeers / 3 * 2) (Kind.prePrepare ::
          (List.replicate D.goodPrepares Kind.prepare ++
            List.replicate D.goodCommits Kind.commit))).phase = 2 :=
        Tally.ordered_commits (by omega) (by omega) (by omega)
      have hlate : (Tally.start.run (p.node.totalPeers / 3 * 2)
          (List.replicate D.goodPrepares Kind.prepare ++
            List.replicate D.goodCommits Kind.commit ++ [Kind.prePrepare])).phase = 0 :=
        Tally.late_prePrepare (by simp)
      exact absurd (hlate.symm.trans (hiff.mp hordered)) (by decide)
    · intro hshort ms ms' hms hms'
      have h := D.short_not_appendsFor hunseen haddr hlock hq hshort hms
      have h' := D.short_not_appendsFor hunseen haddr hlock hq hshort hms'
      simp only [h, h']

namespace Sample

def fresh : Peer := newPeer primitives (conf "A" 1)

theorem fresh_unseen : fresh.node.Unseen 6 := ⟨rfl, fun _ => rfl, fun _ => rfl, rfl⟩

def deliveries (committers : List String) (hin : ∀ a ∈ committers, a ≠ "A")
    (hnodup : committers.Nodup) : Deliveries primitives fresh.node 6 digest where
  prePrepare := prePrepareFrom "B" request 6
  prepares := [prepareFrom "C" digest 6, prepareFrom "D" digest 6]
  commits := committers.map (commitFrom · digest 6)
  prePrepare_for := by decide
  prepares_for := by decide
  commits_for := by simp [commitFrom]
  valid := by decide
  prePrepare_other := by decide
  prepares_other := by decide
  commits_other := by
    have hin' : ∀ a ∈ committers, a ≠ fresh.node.myAddr := hin
    simpa [commitFrom] using hin'
  prepares_nodup := by decide
  commits_nodup := by simpa [commitFrom, Function.comp_def] using hnodup

/-- With every message in, the block depends on whether the PrePrepare came first or last. -/
theorem order_counterexample :
    ¬ ∀ ms ms', ms.Perm (deliveries ["C", "D"] (by decide) (by decide)).messages →
      ms'.Perm (deliveries ["C", "D"] (by decide) (by decide)).messages →
      (AppendsFor primitives fresh.node 6 ms ↔ AppendsFor primitives fresh.node 6 ms') := by
  intro h
  have hlate := h _ _ (List.Perm.refl _) (Deliveries.late_perm _)
  revert hlate
  decide

theorem order_independent_iff_short :
    AppendsFor primitives fresh.node 6 (deliveries ["C"] (by decide) (by decide)).messages ↔
      AppendsFor primitives fresh.node 6 (deliveries ["C"] (by decide) (by decide)).late :=
  (order_independent_iff .nil (by decide) fresh_unseen
    (deliveries ["C"] (by decide) (by decide))).mpr (by decide) _ _ (List.Perm.refl _)
    (Deliveries.late_perm _)

end Sample

end JobPortal
