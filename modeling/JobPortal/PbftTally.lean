import Mathlib.Data.List.Basic
import Mathlib.Tactic.SplitIfs

/-! The four things a replica keeps of one PbftID: whether the PrePrepare is there, how
many Prepares and Commits of others are, and the phase. Each number is compared with its
threshold only when a message of its own kind arrives. -/
namespace JobPortal

inductive Kind
  | prePrepare
  | prepare
  | commit
  deriving DecidableEq, Repr

/-- What a replica has counted for one ID. -/
structure Tally where
  bound : Bool
  prepares : ℕ
  commits : ℕ
  phase : ℕ
  deriving DecidableEq, Repr

namespace Tally

def start : Tally := ⟨false, 0, 0, 0⟩

/-- One message. The node's own Prepare counts once it is bound, its own Commit once it is
prepared. -/
def step (quorum : ℕ) (t : Tally) : Kind → Tally
  | .prePrepare => { t with bound := true }
  | .prepare =>
    { t with
      prepares := t.prepares + 1
      phase := if t.phase = 0 ∧ t.bound ∧ quorum ≤ t.prepares + 2 then 1 else t.phase }
  | .commit =>
    { t with
      commits := t.commits + 1
      phase := if t.phase = 1 ∧ quorum < t.commits + 2 then 2 else t.phase }

def run (quorum : ℕ) (t : Tally) (ks : List Kind) : Tally := ks.foldl (step quorum) t

variable {quorum : ℕ}

theorem run_append (t : Tally) (ks ls : List Kind) :
    t.run quorum (ks ++ ls) = (t.run quorum ks).run quorum ls := by
  simp [run, List.foldl_append]

/-- The phase vouches for the counts behind it. -/
structure Backed (quorum : ℕ) (t : Tally) : Prop where
  prepared : 1 ≤ t.phase → quorum ≤ t.prepares + 1
  committed : 2 ≤ t.phase → quorum ≤ t.commits

theorem Backed.step {t : Tally} (h : Backed quorum t) (k : Kind) :
    Backed quorum (t.step quorum k) := by
  obtain ⟨hprep, hcom⟩ := h
  cases k with
  | prePrepare => exact ⟨hprep, hcom⟩
  | prepare =>
    constructor
    · intro hphase
      simp only [Tally.step] at hphase ⊢
      split_ifs at hphase with henough
      · omega
      · have := hprep hphase
        omega
    · intro hphase
      simp only [Tally.step] at hphase ⊢
      split_ifs at hphase with henough
      · omega
      · exact hcom hphase
  | commit =>
    constructor
    · intro hphase
      simp only [Tally.step] at hphase ⊢
      split_ifs at hphase with henough
      · exact hprep (by omega)
      · exact hprep hphase
    · intro hphase
      simp only [Tally.step] at hphase ⊢
      split_ifs at hphase with henough
      · omega
      · have := hcom hphase
        omega

theorem Backed.run {t : Tally} (h : Backed quorum t) (ks : List Kind) :
    Backed quorum (t.run quorum ks) := by
  induction ks generalizing t with
  | nil => exact h
  | cons k ks ih => exact ih (h.step k)

theorem run_counts (quorum : ℕ) (t : Tally) (ks : List Kind) :
    (t.run quorum ks).prepares = t.prepares + ks.count .prepare ∧
      (t.run quorum ks).commits = t.commits + ks.count .commit := by
  induction ks generalizing t with
  | nil => simp [run]
  | cons k ks ih =>
    obtain ⟨hp, hc⟩ := ih (t.step quorum k)
    refine ⟨hp.trans ?_, hc.trans ?_⟩ <;> cases k <;> simp [step] <;> omega

/-- Whatever the order, a block takes both quorums. -/
theorem quorums_of_committed {ks : List Kind} (h : 2 ≤ (start.run quorum ks).phase) :
    quorum ≤ ks.count .prepare + 1 ∧ quorum ≤ ks.count .commit := by
  have hbacked : Backed quorum (start.run quorum ks) :=
    Backed.run ⟨by simp [start], by simp [start]⟩ ks
  obtain ⟨hp, hc⟩ := run_counts quorum start ks
  have hp' := hp.trans (Nat.zero_add _)
  have hc' := hc.trans (Nat.zero_add _)
  have h1 := hbacked.prepared (by omega)
  have h2 := hbacked.committed h
  omega

/-- Without the PrePrepare nothing happens, however many Prepares and Commits there are. -/
theorem phase_unbound {t : Tally} (hbound : t.bound = false) (hphase : t.phase = 0)
    {ks : List Kind} (hks : .prePrepare ∉ ks) :
    (t.run quorum ks).bound = false ∧ (t.run quorum ks).phase = 0 := by
  induction ks generalizing t with
  | nil => exact ⟨hbound, hphase⟩
  | cons k ks ih =>
    simp only [List.mem_cons, not_or] at hks
    cases k with
    | prePrepare => exact absurd rfl hks.1
    | prepare => exact ih (by simpa [step] using hbound) (by simp [step, hbound, hphase]) hks.2
    | commit => exact ih (by simpa [step] using hbound) (by simp [step, hphase]) hks.2

/-- A PrePrepare that comes last is too late. -/
theorem late_prePrepare {ks : List Kind} (hks : .prePrepare ∉ ks) :
    (start.run quorum (ks ++ [.prePrepare])).phase = 0 := by
  rw [run_append]
  exact (phase_unbound rfl rfl hks).2

theorem run_prepares (quorum n : ℕ) {t : Tally} (hbound : t.bound = true) (hphase : t.phase ≤ 1)
    (hn : 0 < n) (henough : quorum ≤ t.prepares + n + 1) :
    (t.run quorum (List.replicate n .prepare)).phase = 1 ∧
      (t.run quorum (List.replicate n .prepare)).commits = t.commits := by
  induction n generalizing t with
  | zero => omega
  | succ n ih =>
    rw [List.replicate_succ]
    change ((t.step quorum .prepare).run quorum _).phase = 1 ∧ _
    rcases Nat.eq_zero_or_pos n with rfl | hpos
    · refine ⟨?_, rfl⟩
      simp only [List.replicate_zero, run, List.foldl_nil, step, hbound, true_and]
      split_ifs with h
      · rfl
      · omega
    · refine ih (by simpa [step] using hbound) ?_ hpos (by simp only [step]; omega)
      simp only [step]
      split_ifs <;> omega

theorem run_commits (n : ℕ) {t : Tally} (hphase : t.phase = 1 ∨ t.phase = 2) (hn : 0 < n)
    (henough : quorum ≤ t.commits + n) :
    (t.run quorum (List.replicate n .commit)).phase = 2 := by
  induction n generalizing t with
  | zero => omega
  | succ n ih =>
    rw [List.replicate_succ]
    change ((t.step quorum .commit).run quorum _).phase = 2
    rcases Nat.eq_zero_or_pos n with rfl | hpos
    · simp only [List.replicate_zero, run, List.foldl_nil, step]
      split_ifs with h
      · rfl
      · omega
    · refine ih ?_ hpos (by simp only [step]; omega)
      simp only [step]
      split_ifs <;> omega

theorem run_committed {t : Tally} (h : t.phase = 2) (ks : List Kind) :
    (t.run quorum ks).phase = 2 := by
  induction ks generalizing t with
  | nil => exact h
  | cons k ks ih => exact ih (by cases k <;> simp [step, h])

/-- In the order of the protocol both quorums make a block. -/
theorem ordered_commits {p c : ℕ} (hq : 2 ≤ quorum) (hp : quorum ≤ p + 1) (hc : quorum ≤ c) :
    (start.run quorum
      (.prePrepare :: (List.replicate p .prepare ++ List.replicate c .commit))).phase = 2 := by
  change ((start.step quorum .prePrepare).run quorum _).phase = 2
  rw [run_append]
  obtain ⟨hphase, hcommits⟩ := run_prepares quorum p
    (t := start.step quorum .prePrepare) rfl (Nat.zero_le 1) (by omega)
    (by simp only [step, start]; omega)
  apply run_commits c (.inl hphase) (by omega)
  rw [hcommits]
  simp only [step, start]
  omega

end Tally

end JobPortal
