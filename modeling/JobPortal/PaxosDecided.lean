import JobPortal.PaxosCatchUp

/-! The value a proposer reads for a step and the block the chain gets for it. The value is that of
the last TLC message that comes in time, and the block that of the first. -/
namespace JobPortal

/-- Those of the TLC messages `tlcs` for a step that come while a step up to it still lacks
messages. `past` came before them. -/
def inTimeAfter (threshold step : ℕ) : List TLCMessage → List TLCMessage → List TLCMessage
  | _, [] => []
  | past, tlc :: tlcs =>
    let rest := inTimeAfter threshold step (past ++ [tlc]) tlcs
    if tlc.step = step ∧ ∃ s ≤ step, (tlcsOf past s).length < threshold then tlc :: rest else rest

def inTime (threshold : ℕ) (tlcs : List TLCMessage) (step : ℕ) : List TLCMessage :=
  inTimeAfter threshold step [] tlcs

theorem inTimeAfter_concat (threshold step : ℕ) (past tlcs : List TLCMessage) (tlc : TLCMessage) :
    inTimeAfter threshold step past (tlcs ++ [tlc]) = inTimeAfter threshold step past tlcs ++
      if tlc.step = step ∧ ∃ s ≤ step, (tlcsOf (past ++ tlcs) s).length < threshold then [tlc]
      else [] := by
  induction tlcs generalizing past with
  | nil => simp [inTimeAfter]
  | cons head tlcs ih =>
    have hrest := ih (past ++ [head])
    rw [List.append_assoc, List.singleton_append] at hrest
    rw [List.cons_append, inTimeAfter, inTimeAfter, hrest]
    split_ifs
    all_goals simp

theorem inTime_concat_of_ne {threshold step : ℕ} {tlc : TLCMessage} (h : step ≠ tlc.step)
    (tlcs : List TLCMessage) :
    inTime threshold (tlcs ++ [tlc]) step = inTime threshold tlcs step := by
  rw [inTime, inTimeAfter_concat, if_neg fun hin => h hin.1.symm, List.append_nil, inTime]

theorem inTime_concat_self {threshold : ℕ} {tlcs : List TLCMessage} {tlc : TLCMessage}
    (h : ∃ s ≤ tlc.step, (tlcsOf tlcs s).length < threshold) :
    inTime threshold (tlcs ++ [tlc]) tlc.step = inTime threshold tlcs tlc.step ++ [tlc] := by
  rw [inTime, inTimeAfter_concat, List.nil_append, if_pos ⟨rfl, h⟩, inTime]

theorem inTime_concat_late {threshold : ℕ} {tlcs : List TLCMessage} {tlc : TLCMessage}
    (h : ∀ s ≤ tlc.step, threshold ≤ (tlcsOf tlcs s).length) :
    inTime threshold (tlcs ++ [tlc]) tlc.step = inTime threshold tlcs tlc.step := by
  rw [inTime, inTimeAfter_concat, List.nil_append, if_neg, List.append_nil, inTime]
  rintro ⟨_, s, hs, hlt⟩
  exact absurd (h s hs) (Nat.not_le.mpr hlt)

namespace SafePaxos

/-- Where a step has enough messages, the last one in time has left its value. -/
def Decides (s : SafePaxos) (threshold : ℕ) (tlcs : List TLCMessage) : Prop :=
  ∀ step, threshold ≤ (tlcsOf tlcs step).length →
    s.getConsensus step = (inTime threshold tlcs step).getLast?.map (·.block.value)

theorem decides_newSafePaxos {threshold : ℕ} (h : 1 ≤ threshold) :
    newSafePaxos.Decides threshold [] := by
  intro step hle
  exact absurd (h.trans hle) (by simp [tlcsOf])

theorem Decides.receiveTLC {s : SafePaxos} {threshold : ℕ} {tlcs : List TLCMessage}
    (h : s.Decides threshold tlcs) (hfiles : s.Files threshold tlcs)
    (hshort : (tlcsOf tlcs s.clock).length < threshold) (tlc : TLCMessage) :
    (s.receiveTLC tlc threshold).Decides threshold (tlcs ++ [tlc]) := by
  intro step henough
  have hother : step ≠ tlc.step →
      (s.receiveTLC tlc threshold).consensus.lookup step = s.consensus.lookup step := by
    intro hne
    unfold SafePaxos.receiveTLC
    split_ifs
    · dsimp only
      split_ifs
      · exact Finmap.lookup_insert_of_ne _ hne
      · rfl
    · rfl
  by_cases hstep : step = tlc.step
  · subst hstep
    by_cases hlate : s.clock ≤ tlc.step
    · have hfiled : s.tlcs.at tlc.step [] ++ [tlc] = tlcsOf (tlcs ++ [tlc]) tlc.step := by
        rw [tlcsOf_concat_self, hfiles.filed _ hlate]
      rw [inTime_concat_self ⟨s.clock, hlate, hshort⟩, List.getLast?_concat, Option.map_some]
      unfold SafePaxos.receiveTLC
      rw [if_pos hlate]
      dsimp only
      rw [hfiled, if_pos henough]
      exact Finmap.lookup_insert _
    · -- the clock has passed the step, so every step up to it had its messages before
      have hpassed : ∀ s' ≤ tlc.step, threshold ≤ (tlcsOf tlcs s').length := fun s' hs' =>
        hfiles.passed s' (by omega)
      rw [inTime_concat_late hpassed, SafePaxos.receiveTLC, if_neg hlate]
      exact h tlc.step (hpassed tlc.step le_rfl)
  · rw [tlcsOf_concat_of_ne tlcs hstep] at henough
    rw [inTime_concat_of_ne hstep, getConsensus, hother hstep]
    exact h step henough

end SafePaxos

variable (P : PaxosPrimitives)

namespace PaxosNode

theorem Returns.consensus {n m : PaxosNode} {step : ℕ} {catchUp : Bool}
    {blocks : List BlockchainBlock} (h : Returns P n step catchUp m blocks) :
    m.paxos.consensus = n.paxos.consensus := by
  induction h with
  | stop => rfl
  | next _ advance _ ih => exact ih.trans (tlcAdvance_caughtUp P advance).1.consensus

theorem decides_of_handles {n₀ n : PaxosNode} (hinit : n₀.paxos = newSafePaxos)
    (ht : 1 ≤ n₀.threshold) {tlcs : List TLCMessage} {blocks : List BlockchainBlock}
    (h : Handles P n₀ tlcs n blocks) : n.paxos.Decides n₀.threshold tlcs := by
  induction h with
  | nil =>
    rw [hinit]
    exact SafePaxos.decides_newSafePaxos ht
  | @snoc tlcs m r tlc blocks blocks' prior call ih =>
    obtain ⟨hcatch, hshort⟩ := catchesUp_of_handles P hinit ht prior
    have hreceived := ih.receiveTLC hcatch.files hshort tlc
    rw [← hcatch.threshold] at hreceived ⊢
    intro step henough
    rw [SafePaxos.getConsensus, call.consensus]
    exact hreceived step henough

/-- Of every step that has its messages, and so have the steps before it, the last message in time
has the value of the first. -/
def LastAgrees (threshold : ℕ) (tlcs : List TLCMessage) : Prop :=
  ∀ step, (∀ s ≤ step, threshold ≤ (tlcsOf tlcs s).length) →
    (inTime threshold tlcs step).getLast?.map (·.block.value) =
      (tlcsOf tlcs step).head?.map (·.block.value)

theorem CatchesUp.length_eq {n₀ n : PaxosNode} {tlcs : List TLCMessage}
    {blocks : List BlockchainBlock} (h : CatchesUp P n₀ tlcs n blocks) :
    blocks.length = n.paxos.clock := by
  have hlength := congrArg List.length h.appended
  rwa [List.length_map, List.length_map, List.length_range] at hlength

theorem CatchesUp.block {n₀ n : PaxosNode} {tlcs : List TLCMessage}
    {blocks : List BlockchainBlock} (h : CatchesUp P n₀ tlcs n blocks) {step : ℕ}
    (hstep : step < n.paxos.clock) : blocks[step]? = firstBlock tlcs step := by
  have hat := congrArg (fun l : List (Option BlockchainBlock) => l[step]?) h.appended
  rw [List.getElem?_map, List.getElem?_map, List.getElem?_range hstep] at hat
  rw [List.getElem?_eq_getElem (h.length_eq.symm ▸ hstep)] at hat ⊢
  exact Option.some.inj hat

theorem CatchesUp.lt_clock_iff {n₀ n : PaxosNode} {tlcs : List TLCMessage}
    {blocks : List BlockchainBlock} (h : CatchesUp P n₀ tlcs n blocks)
    (hshort : (tlcsOf tlcs n.paxos.clock).length < n₀.threshold) (step : ℕ) :
    step < n.paxos.clock ↔ ∀ s ≤ step, n₀.threshold ≤ (tlcsOf tlcs s).length := by
  constructor
  · exact fun hstep s hs => h.files.passed s (hs.trans_lt hstep)
  · intro hall
    by_contra hle
    exact absurd (hall n.paxos.clock (Nat.le_of_not_lt hle)) (Nat.not_le.mpr hshort)

theorem decided_iff_of_handles {n₀ n : PaxosNode} (hinit : n₀.paxos = newSafePaxos)
    (ht : 1 ≤ n₀.threshold) {tlcs : List TLCMessage} {blocks : List BlockchainBlock}
    (h : Handles P n₀ tlcs n blocks) :
    (∀ step < n.paxos.clock, n.paxos.getConsensus step = blocks[step]?.map (·.value)) ↔
      LastAgrees n₀.threshold tlcs := by
  obtain ⟨hcatch, hshort⟩ := catchesUp_of_handles P hinit ht h
  have hdecides := decides_of_handles P hinit ht h
  refine forall_congr' fun step => ?_
  rw [← hcatch.lt_clock_iff P hshort]
  refine imp_congr_right fun hstep => ?_
  have henough := hcatch.files.passed step hstep
  rw [hdecides step henough, hcatch.block P hstep, firstBlock, Option.map_map]
  exact Iff.rfl

/-- A proposer reads the value that the chain gets, for every step that is left, exactly if the
last message in time for it agrees with the first. -/
theorem decided_appended_iff (conf : PaxosConfig)
    (ht : 1 ≤ conf.paxosThreshold conf.totalPeers) (tlcs : List TLCMessage) :
    let n₀ := (newPaxosPeer conf).node
    let n := tlcs.foldl (fun n tlc => (n.execTLCMessage P tlc).1) n₀
    ∃ blocks, Handles P n₀ tlcs n blocks ∧ blocks.length = n.paxos.clock ∧
      ((∀ s < n.paxos.clock, n.paxos.getConsensus s = blocks[s]?.map (·.value)) ↔
        LastAgrees (conf.paxosThreshold conf.totalPeers) tlcs) := by
  intro n₀ n
  have hinit : n₀.paxos = newSafePaxos := rfl
  obtain ⟨blocks, hhandles⟩ := handles_execTLCMessage P n₀ tlcs
  obtain ⟨hcatch, _⟩ := catchesUp_of_handles P hinit ht hhandles
  exact ⟨blocks, hhandles, hcatch.length_eq, decided_iff_of_handles P hinit ht hhandles⟩

end PaxosNode

namespace PaxosSample

def twoBlocks : List TLCMessage := [announced "x" 0, announced "y" 0]

/-- The proposer reads the second value, and the chain has the block of the first. -/
theorem decided_counterexample :
    let n₀ := (newPaxosPeer (conf "A" 1)).node
    let n := twoBlocks.foldl (fun n tlc => (n.execTLCMessage primitives tlc).1) n₀
    ∃ blocks, PaxosNode.Handles primitives n₀ twoBlocks n blocks ∧
      ¬ ∀ s < n.paxos.clock, n.paxos.getConsensus s = blocks[s]?.map (·.value) := by
  intro n₀ n
  obtain ⟨blocks, hhandles⟩ := PaxosNode.handles_execTLCMessage primitives n₀ twoBlocks
  refine ⟨blocks, hhandles, fun hdecided => ?_⟩
  have hagrees := (PaxosNode.decided_iff_of_handles primitives rfl (by decide) hhandles).mp hdecided
  exact absurd (hagrees 0 (by decide)) (by decide)

/-- The messages for step 1 come first, and the last of them has the value of the first. -/
def agreedInTheEnd : List TLCMessage :=
  [announced "x" 1, announced "y" 1, announced "x" 1, announced "z" 0, announced "z" 0]

theorem decided_appended_iff_agreedInTheEnd :
    let n₀ := (newPaxosPeer (conf "A" 1)).node
    let n := agreedInTheEnd.foldl (fun n tlc => (n.execTLCMessage primitives tlc).1) n₀
    ∃ blocks, PaxosNode.Handles primitives n₀ agreedInTheEnd n blocks ∧
      blocks.length = n.paxos.clock ∧
      ((∀ s < n.paxos.clock, n.paxos.getConsensus s = blocks[s]?.map (·.value)) ↔
        PaxosNode.LastAgrees 2 agreedInTheEnd) :=
  PaxosNode.decided_appended_iff primitives (conf "A" 1) (by decide) agreedInTheEnd

end PaxosSample

end JobPortal
