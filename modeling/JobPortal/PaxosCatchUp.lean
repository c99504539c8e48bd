import JobPortal.PaxosAcceptor

/-! The TLC catch up as a whole: the clock and the blocks are a function of the TLC messages
received so far, in whatever order their steps come. -/
namespace JobPortal

def tlcsOf (tlcs : List TLCMessage) (step : ℕ) : List TLCMessage := tlcs.filter (·.step = step)

def firstBlock (tlcs : List TLCMessage) (step : ℕ) : Option BlockchainBlock :=
  (tlcsOf tlcs step).head?.map (·.block)

theorem tlcsOf_concat_self (tlcs : List TLCMessage) (tlc : TLCMessage) :
    tlcsOf (tlcs ++ [tlc]) tlc.step = tlcsOf tlcs tlc.step ++ [tlc] := by
  simp [tlcsOf]

theorem tlcsOf_concat_of_ne (tlcs : List TLCMessage) {tlc : TLCMessage} {step : ℕ}
    (h : step ≠ tlc.step) : tlcsOf (tlcs ++ [tlc]) step = tlcsOf tlcs step := by
  simp [tlcsOf, Ne.symm h]

theorem tlcsOf_le_concat (tlcs : List TLCMessage) (tlc : TLCMessage) (step : ℕ) :
    tlcsOf tlcs step <+: tlcsOf (tlcs ++ [tlc]) step := by
  simp [tlcsOf]

/-- The first message for a step stays the first. -/
theorem firstBlock_concat {tlcs : List TLCMessage} {step : ℕ} (h : tlcsOf tlcs step ≠ [])
    (tlc : TLCMessage) : firstBlock (tlcs ++ [tlc]) step = firstBlock tlcs step := by
  obtain ⟨more, hmore⟩ := tlcsOf_le_concat tlcs tlc step
  rw [firstBlock, firstBlock, ← hmore, List.head?_append_of_ne_nil _ h]

namespace SafePaxos

/-- What is on file for the steps that the clock has not passed, for a list of received TLC
messages. -/
structure Files (s : SafePaxos) (threshold : ℕ) (tlcs : List TLCMessage) : Prop where
  filed : ∀ step, s.clock ≤ step → s.tlcs.at step [] = tlcsOf tlcs step
  decided : ∀ step, s.clock ≤ step →
    (s.consensus.lookup step ≠ none ↔ threshold ≤ (tlcsOf tlcs step).length)
  passed : ∀ step < s.clock, threshold ≤ (tlcsOf tlcs step).length

theorem files_newSafePaxos {threshold : ℕ} (h : 1 ≤ threshold) :
    newSafePaxos.Files threshold [] where
  filed _ _ := rfl
  decided step _ := by
    simp only [newSafePaxos, tlcsOf, List.filter_nil, List.length_nil, Finmap.lookup_empty]
    exact iff_of_false (fun hne => hne rfl) (by omega)
  passed step hstep := absurd hstep (Nat.not_lt_zero step)

theorem Files.receiveTLC {s : SafePaxos} {threshold : ℕ} {tlcs : List TLCMessage}
    (h : s.Files threshold tlcs) (tlc : TLCMessage) :
    (s.receiveTLC tlc threshold).Files threshold (tlcs ++ [tlc]) := by
  have hpassed : ∀ step < s.clock, threshold ≤ (tlcsOf (tlcs ++ [tlc]) step).length :=
    fun step hstep => (h.passed step hstep).trans (tlcsOf_le_concat tlcs tlc step).length_le
  unfold SafePaxos.receiveTLC
  by_cases hlate : s.clock ≤ tlc.step
  · have hfiled : s.tlcs.at tlc.step [] ++ [tlc] = tlcsOf (tlcs ++ [tlc]) tlc.step := by
      rw [tlcsOf_concat_self, h.filed _ hlate]
    rw [if_pos hlate]
    dsimp only
    rw [hfiled]
    have hstore : ∀ step, s.clock ≤ step →
        GoMap.at (s.tlcs.insert tlc.step (tlcsOf (tlcs ++ [tlc]) tlc.step)) step [] =
          tlcsOf (tlcs ++ [tlc]) step := by
      intro step hstep
      by_cases heq : step = tlc.step
      · subst heq
        rw [GoMap.at_insert_self]
      · rw [GoMap.at_insert_of_ne heq, tlcsOf_concat_of_ne tlcs heq]
        exact h.filed step hstep
    split_ifs with henough
    · refine ⟨hstore, fun step hstep => ?_, hpassed⟩
      by_cases heq : step = tlc.step
      · subst heq
        simpa using henough
      · simp only [Finmap.lookup_insert_of_ne _ heq, tlcsOf_concat_of_ne tlcs heq]
        exact h.decided step hstep
    · refine ⟨hstore, fun step hstep => ?_, hpassed⟩
      by_cases heq : step = tlc.step
      · subst heq
        have hshort : ¬ threshold ≤ (tlcsOf tlcs tlc.step).length := fun hle =>
          henough (hle.trans (tlcsOf_le_concat tlcs tlc tlc.step).length_le)
        exact iff_of_false (fun hne => hshort ((h.decided _ hstep).mp hne)) henough
      · rw [tlcsOf_concat_of_ne tlcs heq]
        exact h.decided step hstep
  · -- a message for a step already passed is dropped
    rw [if_neg hlate]
    refine ⟨fun step hstep => ?_, fun step hstep => ?_, hpassed⟩
    · rw [tlcsOf_concat_of_ne tlcs (by omega)]
      exact h.filed step hstep
    · rw [tlcsOf_concat_of_ne tlcs (by omega)]
      exact h.decided step hstep

/-- The clock moves over a step exactly if enough TLC messages for it are there, and the block is
that of the first one. -/
theorem Files.getBlockAndAdvance {s : SafePaxos} {threshold : ℕ} {tlcs : List TLCMessage}
    (h : s.Files threshold tlcs) (ht : 1 ≤ threshold) :
    match s.getBlockAndAdvance s.clock with
    | none => (tlcsOf tlcs s.clock).length < threshold
    | some (block, t) => firstBlock tlcs s.clock = some block ∧ t.clock = s.clock + 1 ∧
        t.Files threshold tlcs := by
  have hdecided := h.decided s.clock le_rfl
  have hfiled := h.filed s.clock le_rfl
  cases hadv : s.getBlockAndAdvance s.clock with
  | none =>
    simp only [SafePaxos.getBlockAndAdvance, ne_eq, not_true_eq_false, if_false] at hadv
    split_ifs at hadv with hnone
    · by_contra hle
      exact hdecided.mpr (by omega) hnone
    · have hhead := Option.map_eq_none_iff.mp hadv
      rw [hfiled, List.head?_eq_none_iff] at hhead
      rw [hhead]
      exact ht
  | some r =>
    obtain ⟨block, t⟩ := r
    simp only [SafePaxos.getBlockAndAdvance, ne_eq, not_true_eq_false, if_false] at hadv
    split_ifs at hadv with hnone
    rw [hfiled] at hadv
    obtain ⟨tlc, htlc, heq⟩ := Option.map_eq_some_iff.mp hadv
    obtain ⟨rfl, rfl⟩ := Prod.mk.inj heq
    refine ⟨by rw [firstBlock, htlc, Option.map_some], rfl, ?_⟩
    refine ⟨fun step hstep => h.filed step (Nat.le_of_succ_le hstep),
      fun step hstep => h.decided step (Nat.le_of_succ_le hstep), fun step hstep => ?_⟩
    rcases Nat.lt_succ_iff_lt_or_eq.mp hstep with hlt | rfl
    · exact h.passed step hlt
    · exact hdecided.mp hnone

end SafePaxos

variable (P : PaxosPrimitives)

namespace PaxosNode

/-- A call of TLCProcess that returns, with the node it leaves and the blocks it appends. -/
inductive Returns : PaxosNode → ℕ → Bool → PaxosNode → List BlockchainBlock → Prop
  | stop {n : PaxosNode} {step : ℕ} {catchUp : Bool} (stop : n.tlcAdvance P step catchUp = none) :
      Returns n step catchUp n []
  | next {n m r : PaxosNode} {step : ℕ} {catchUp : Bool} {s : SafePaxos} {sent : List PaxosMessage}
      {block : BlockchainBlock} {blocks : List BlockchainBlock}
      (found : n.paxos.getBlockAndAdvance step = some (block, s))
      (advance : n.tlcAdvance P step catchUp = some (m, sent))
      (rest : Returns m (step + 1) true r blocks) : Returns n step catchUp r (block :: blocks)

/-- TLCProcess terminates, and what it leaves is what the model computes. -/
theorem tlcProcess_returns (fuel : ℕ) (n : PaxosNode) (catchUp : Bool)
    (hfuel : n.ahead.card < fuel) :
    ∃ blocks, Returns P n n.paxos.clock catchUp (tlcProcess P fuel n n.paxos.clock catchUp).1
      blocks := by
  induction fuel generalizing n catchUp with
  | zero => omega
  | succ fuel ih =>
    unfold tlcProcess
    cases hadv : n.tlcAdvance P n.paxos.clock catchUp with
    | none => exact ⟨[], .stop hadv⟩
    | some r =>
      obtain ⟨m, sent⟩ := r
      obtain ⟨⟨block, s⟩, hfound, _⟩ := Option.map_eq_some_iff.mp hadv
      have hclock : m.paxos.clock = n.paxos.clock + 1 := (tlcAdvance_caughtUp P hadv).2
      have hless := tlcAdvance_ahead P hadv
      obtain ⟨blocks, hrest⟩ := ih m true (by omega)
      rw [hclock] at hrest
      exact ⟨block :: blocks, .next hfound hadv hrest⟩

/-- TLC messages handled one at a time, with the blocks that are appended on the way. -/
inductive Handles (n : PaxosNode) : List TLCMessage → PaxosNode → List BlockchainBlock → Prop
  | nil : Handles n [] n []
  | snoc {tlcs : List TLCMessage} {m r : PaxosNode} {tlc : TLCMessage}
      {blocks blocks' : List BlockchainBlock} (prior : Handles n tlcs m blocks)
      (call : Returns P { m with paxos := m.paxos.receiveTLC tlc m.threshold }
        (m.paxos.receiveTLC tlc m.threshold).clock false r blocks') :
      Handles n (tlcs ++ [tlc]) r (blocks ++ blocks')

theorem handles_execTLCMessage (n : PaxosNode) (tlcs : List TLCMessage) :
    ∃ blocks, Handles P n tlcs (tlcs.foldl (fun n tlc => (n.execTLCMessage P tlc).1) n) blocks := by
  induction tlcs using List.reverseRecOn with
  | nil => exact ⟨[], .nil⟩
  | append_singleton tlcs tlc ih =>
    obtain ⟨blocks, hprior⟩ := ih
    rw [List.foldl_append]
    obtain ⟨blocks', hcall⟩ := tlcProcess_returns P _ _ false (ahead_card_le _)
    exact ⟨blocks ++ blocks', .snoc hprior hcall⟩

def storageAfter (n : PaxosNode) (blocks : List BlockchainBlock) : Storage :=
  (blocks.foldl (fun n block => n.addBlock P block) n).storage

theorem storageAfter_congr {n m : PaxosNode} (h : n.storage = m.storage)
    (blocks : List BlockchainBlock) : n.storageAfter P blocks = m.storageAfter P blocks := by
  unfold storageAfter
  induction blocks generalizing n m with
  | nil => exact h
  | cons block blocks ih =>
    apply ih
    simp only [addBlock, h]

theorem storageAfter_concat {n m : PaxosNode} {blocks : List BlockchainBlock}
    (h : m.storage = n.storageAfter P blocks) (block : BlockchainBlock) :
    (m.addBlock P block).storage = n.storageAfter P (blocks ++ [block]) := by
  rw [storageAfter, List.foldl_append, List.foldl_cons, List.foldl_nil, addBlock, addBlock, h,
    storageAfter]

/-- What is true of a node that has got some TLC messages and appended some blocks. -/
structure CatchesUp (n₀ : PaxosNode) (tlcs : List TLCMessage) (n : PaxosNode)
    (blocks : List BlockchainBlock) : Prop where
  threshold : n.threshold = n₀.threshold
  files : n.paxos.Files n₀.threshold tlcs
  appended : blocks.map some = (List.range n.paxos.clock).map (firstBlock tlcs)
  storage : n.storage = n₀.storageAfter P blocks

theorem CatchesUp.receiveTLC {n₀ n : PaxosNode} {tlcs : List TLCMessage}
    {blocks : List BlockchainBlock} (ht : 1 ≤ n₀.threshold) (h : CatchesUp P n₀ tlcs n blocks)
    (tlc : TLCMessage) :
    CatchesUp P n₀ (tlcs ++ [tlc]) { n with paxos := n.paxos.receiveTLC tlc n.threshold }
      blocks where
  threshold := h.threshold
  files := by
    rw [h.threshold]
    exact h.files.receiveTLC tlc
  appended := by
    rw [h.appended]
    dsimp only
    rw [SafePaxos.receiveTLC_clock]
    refine List.map_congr_left fun step hstep => (firstBlock_concat ?_ tlc).symm
    have hpassed := h.files.passed step (List.mem_range.mp hstep)
    exact List.ne_nil_of_length_pos (by omega)
  storage := h.storage

theorem CatchesUp.returns {n₀ n m : PaxosNode} {tlcs : List TLCMessage} {step : ℕ} {catchUp : Bool}
    {blocks blocks' : List BlockchainBlock} (ht : 1 ≤ n₀.threshold)
    (h : CatchesUp P n₀ tlcs n blocks) (hstep : step = n.paxos.clock)
    (hcall : Returns P n step catchUp m blocks') :
    CatchesUp P n₀ tlcs m (blocks ++ blocks') ∧
      (tlcsOf tlcs m.paxos.clock).length < n₀.threshold := by
  induction hcall generalizing blocks with
  | stop stop =>
    subst hstep
    have hspec := h.files.getBlockAndAdvance ht
    rw [tlcAdvance, Option.map_eq_none_iff] at stop
    rw [stop] at hspec
    exact ⟨by rwa [List.append_nil], hspec⟩
  | @next n m r step catchUp s sent block blocks' found advance rest ih =>
    subst hstep
    have hspec := h.files.getBlockAndAdvance ht
    rw [found] at hspec
    obtain ⟨hfirst, hclock, hfiles⟩ := hspec
    obtain ⟨block', s', hfound, hstorage, hthreshold, hpaxos⟩ := tlcAdvance_cases P advance
    obtain ⟨rfl, rfl⟩ := Prod.mk.inj (Option.some.inj (found.symm.trans hfound))
    have hclock' : m.paxos.clock = n.paxos.clock + 1 := (tlcAdvance_caughtUp P advance).2
    have hcatch : CatchesUp P n₀ tlcs m (blocks ++ [block]) := by
      refine ⟨hthreshold.trans h.threshold, ?_, ?_, ?_⟩
      · rcases hpaxos with ⟨hpaxos, _⟩ | ⟨_, _, hpaxos, _⟩
        · exact hpaxos ▸ hfiles
        · exact hpaxos ▸ ⟨hfiles.filed, hfiles.decided, hfiles.passed⟩
      · rw [hclock', List.map_append, h.appended, List.range_succ, List.map_append,
          List.map_singleton, List.map_singleton, hfirst]
      · rw [hstorage, storageAfter_concat P h.storage]
    have hrest := ih hcatch hclock'.symm
    rwa [List.append_assoc, List.singleton_append] at hrest

theorem catchesUp_of_handles {n₀ n : PaxosNode} (hinit : n₀.paxos = newSafePaxos)
    (ht : 1 ≤ n₀.threshold) {tlcs : List TLCMessage} {blocks : List BlockchainBlock}
    (h : Handles P n₀ tlcs n blocks) :
    CatchesUp P n₀ tlcs n blocks ∧ (tlcsOf tlcs n.paxos.clock).length < n₀.threshold := by
  induction h with
  | nil =>
    refine ⟨⟨rfl, hinit ▸ SafePaxos.files_newSafePaxos ht, ?_, rfl⟩, ?_⟩
    · rw [hinit]
      rfl
    · exact ht
  | @snoc tlcs m r tlc blocks blocks' prior call ih =>
    exact (ih.1.receiveTLC P ht tlc).returns P ht rfl call

end PaxosNode

namespace PaxosSample

def announced (uniqID : String) (step : ℕ) : TLCMessage :=
  ⟨step, (newPaxosPeer (conf "A" 1)).node.getBlock primitives ⟨uniqID, "f", "m"⟩ step⟩

/-- Both messages for step 1 come before those for step 0. -/
def lateFirstStep : List TLCMessage :=
  [announced "x" 1, announced "y" 1, announced "z" 0, announced "z" 0, announced "x" 1]

/-- The clock passes both steps at once. -/
example : (lateFirstStep.foldl (fun n tlc => (n.execTLCMessage primitives tlc).1)
    (newPaxosPeer (conf "A" 1)).node).paxos.clock = 2 := by
  decide

end PaxosSample

end JobPortal
