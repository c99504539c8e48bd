import JobPortal.PbftPeer
import JobPortal.Quorums

/-! The size tests of the Prepare and Commit handlers. Both take two thirds from a truncated third,
and what that is worth depends on the number of peers modulo three. -/
namespace JobPortal

open Quorums

def prepareTest (totalPeers count : ℕ) : Prop := totalPeers / 3 * 2 ≤ count

def commitTest (totalPeers count : ℕ) : Prop := totalPeers / 3 * 2 < count

/-- The most faulty nodes that are less than one third. -/
def tolerated (totalPeers : ℕ) : ℕ := (totalPeers - 1) / 3

instance (totalPeers count : ℕ) : Decidable (commitTest totalPeers count) :=
  inferInstanceAs (Decidable (_ < _))

theorem Node.prepares_iff (n : Node) (k : ℕ) : n.Prepares k ↔
    prepareTest n.totalPeers (n.pbft.matching n.pbft.logPrepareMsg k).card ∧
      n.pbft.stateAt k = 0 := Iff.rfl

theorem Node.commits_iff (n : Node) (k : ℕ) : n.Commits k ↔
    commitTest n.totalPeers (n.pbft.matching n.pbft.logCommitMsg k).card ∧
      n.pbft.state.lookup k = some 1 := Iff.rfl

variable {U silent : Finset String} {proposer : String}

/-- The nodes that are not silent always pass the test for Prepares, without the proposer. -/
theorem prepareTest_of_silent (hU : U.Nonempty) (hsub : silent ⊆ U)
    (hsilent : silent.card ≤ tolerated U.card) (hproposer : proposer ∈ U \ silent) :
    prepareTest U.card ((U \ silent).erase proposer).card := by
  have hpos := hU.card_pos
  rw [Finset.card_erase_of_mem hproposer, Finset.card_sdiff_of_subset hsub]
  unfold prepareTest tolerated at *
  omega

theorem commitTest_of_silent (hU : U.Nonempty) (hsub : silent ⊆ U)
    (hsilent : silent.card ≤ tolerated U.card) : commitTest U.card (U \ silent).card := by
  have hpos := hU.card_pos
  rw [Finset.card_sdiff_of_subset hsub]
  unfold commitTest tolerated at *
  omega

theorem Node.prepares_of_silent {n : Node} {k : ℕ} (hpeers : n.totalPeers = U.card)
    (hU : U.Nonempty) (hsub : silent ⊆ U) (hsilent : silent.card ≤ tolerated U.card)
    (hproposer : proposer ∈ U \ silent)
    (hprepared : (U \ silent).erase proposer ⊆ n.pbft.matching n.pbft.logPrepareMsg k)
    (hfresh : n.pbft.stateAt k = 0) : n.Prepares k := by
  refine (n.prepares_iff k).mpr ⟨?_, hfresh⟩
  rw [hpeers]
  exact (prepareTest_of_silent hU hsub hsilent hproposer).trans (Finset.card_le_card hprepared)

theorem Node.commits_of_silent {n : Node} {k : ℕ} (hpeers : n.totalPeers = U.card)
    (hU : U.Nonempty) (hsub : silent ⊆ U) (hsilent : silent.card ≤ tolerated U.card)
    (hcommitted : U \ silent ⊆ n.pbft.matching n.pbft.logCommitMsg k)
    (hone : n.pbft.state.lookup k = some 1) : n.Commits k := by
  refine (n.commits_iff k).mpr ⟨?_, hone⟩
  rw [hpeers]
  exact (commitTest_of_silent hU hsub hsilent).trans_le (Finset.card_le_card hcommitted)

/-- The tests are worth what is promised unless the number of peers leaves two when divided by
three. -/
theorem commit_quorums_iff (hU : U.Nonempty) :
    ((∀ A ⊆ U, ∀ B ⊆ U, commitTest U.card A.card → commitTest U.card B.card →
        tolerated U.card < (A ∩ B).card) ∧
      ∀ silent ⊆ U, silent.card = tolerated U.card → ∀ proposer ∈ U \ silent,
        prepareTest U.card ((U \ silent).erase proposer).card ∧
          commitTest U.card (U \ silent).card) ↔
      U.card % 3 ≠ 2 := by
  have hpos := hU.card_pos
  have havailable : ∀ silent ⊆ U, silent.card = tolerated U.card → ∀ proposer ∈ U \ silent,
      prepareTest U.card ((U \ silent).erase proposer).card ∧
        commitTest U.card (U \ silent).card :=
    fun silent hsub hcard proposer hproposer =>
      ⟨prepareTest_of_silent hU hsub hcard.le hproposer, commitTest_of_silent hU hsub hcard.le⟩
  rw [and_iff_left havailable]
  refine (overlap_iff (by omega)).trans ?_
  unfold tolerated
  omega

namespace Sample

def fivePeers : Finset String := {"A", "B", "C", "D", "E"}

/-- Two commit quorums among five peers share one node, which may be the faulty one. -/
theorem quorums_counterexample :
    ({"A", "B", "C"} : Finset String) ⊆ fivePeers ∧ ({"C", "D", "E"} : Finset String) ⊆ fivePeers ∧
      commitTest fivePeers.card ({"A", "B", "C"} : Finset String).card ∧
      commitTest fivePeers.card ({"C", "D", "E"} : Finset String).card ∧
      ¬ tolerated fivePeers.card <
        (({"A", "B", "C"} : Finset String) ∩ {"C", "D", "E"}).card := by
  decide

theorem commit_quorums_addrs :
    ((∀ A ⊆ ({"A", "B", "C", "D"} : Finset String), ∀ B ⊆ ({"A", "B", "C", "D"} : Finset String),
        commitTest 4 A.card → commitTest 4 B.card → tolerated 4 < (A ∩ B).card) ∧
      ∀ silent ⊆ ({"A", "B", "C", "D"} : Finset String), silent.card = tolerated 4 →
        ∀ proposer ∈ ({"A", "B", "C", "D"} : Finset String) \ silent,
          prepareTest 4 ((({"A", "B", "C", "D"} : Finset String) \ silent).erase proposer).card ∧
            commitTest 4 (({"A", "B", "C", "D"} : Finset String) \ silent).card) ↔
      4 % 3 ≠ 2 :=
  commit_quorums_iff (U := {"A", "B", "C", "D"}) ⟨"A", by decide⟩

end Sample

end JobPortal
