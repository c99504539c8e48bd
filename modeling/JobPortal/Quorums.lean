import Mathlib.Data.Finset.Card
import Mathlib.Tactic.Linarith

/-! Counting arguments on vote sets: proposers with numbers of their own, majorities,
certificates with faulty voters, and the safety of ballots that adopt the highest earlier vote. -/
namespace JobPortal.Quorums

theorem offset_eq {p q a b n : ℕ} (hp : 1 ≤ p ∧ p ≤ n) (hq : 1 ≤ q ∧ q ≤ n)
    (h : p + a * n = q + b * n) : p = q ∧ a = b := by
  have hmod : (p - 1 + a * n) % n = (q - 1 + b * n) % n := by
    congr 1
    omega
  rw [Nat.add_mul_mod_self_right, Nat.add_mul_mod_self_right, Nat.mod_eq_of_lt (by omega),
    Nat.mod_eq_of_lt (by omega)] at hmod
  obtain rfl : p = q := by omega
  exact ⟨rfl, Nat.eq_of_mul_eq_mul_right (by omega) (Nat.add_left_cancel h)⟩

/-- Votes sorted out of a list of messages, each with its voter. Where no voter has two votes
in the list, there are as many voters as votes. -/
theorem exists_voters {α β μ : Type*} (l : List μ) (vote : μ → Option β) (voter : μ → α)
    (hnodup : l.Nodup) (honce : ∀ x ∈ l, ∀ y ∈ l, (vote x).isSome → (vote y).isSome →
      voter x = voter y → x = y) :
    ∃ votes : List (α × β), (votes.map Prod.fst).Nodup ∧
      votes.map Prod.snd = l.filterMap vote ∧
      ∀ v ∈ votes, ∃ x ∈ l, voter x = v.1 ∧ vote x = some v.2 := by
  induction l with
  | nil => exact ⟨[], by simp⟩
  | cons x l ih =>
    obtain ⟨hx, hnodup⟩ := List.nodup_cons.mp hnodup
    obtain ⟨votes, hvoters, hvotes, hfrom⟩ := ih hnodup fun y hy z hz =>
      honce y (List.mem_cons_of_mem _ hy) z (List.mem_cons_of_mem _ hz)
    have hfrom' : ∀ v ∈ votes, ∃ y ∈ x :: l, voter y = v.1 ∧ vote y = some v.2 := fun v hv =>
      (hfrom v hv).imp fun y hy => ⟨List.mem_cons_of_mem _ hy.1, hy.2⟩
    cases hvote : vote x with
    | none => exact ⟨votes, hvoters, by rw [List.filterMap_cons_none hvote, hvotes], hfrom'⟩
    | some b =>
      refine ⟨(voter x, b) :: votes, List.nodup_cons.mpr ⟨?_, hvoters⟩, ?_, ?_⟩
      · intro hmem
        obtain ⟨v, hv, heq⟩ := List.mem_map.mp hmem
        obtain ⟨y, hy, hyv, hyvote⟩ := hfrom v hv
        apply hx
        rw [honce x (List.mem_cons_self ..) y (List.mem_cons_of_mem _ hy) (by simp [hvote])
          (by simp [hyvote]) (heq.symm.trans hyv.symm)]
        exact hy
      · rw [List.filterMap_cons_some hvote, List.map_cons, hvotes]
      · intro v hv
        rcases List.mem_cons.mp hv with rfl | hv
        · exact ⟨x, List.mem_cons_self .., rfl, hvote⟩
        · exact hfrom' v hv

variable {α V : Type*} [DecidableEq α]

/-- Backers on top of counted voters make one more than a quorum: the voters do by themselves, or
somebody backs who has not been counted. -/
theorem exists_backers_iff {M : Finset α} {backs : α → Prop} {q : ℕ} (hq : q ≤ M.card) :
    (∃ Q : Finset α, q + 1 ≤ Q.card ∧ ∀ a ∈ Q, backs a ∨ a ∈ M) ↔
      q < M.card ∨ ∃ a, backs a ∧ a ∉ M := by
  constructor
  · rintro ⟨Q, hcard, hQ⟩
    by_contra hnot
    rw [not_or, not_lt, not_exists] at hnot
    obtain ⟨hfew, hnone⟩ := hnot
    have hsub : Q ⊆ M := by
      intro a ha
      by_contra haM
      exact hnone a ⟨(hQ a ha).resolve_right haM, haM⟩
    have := Finset.card_le_card hsub
    omega
  · rintro (hmore | ⟨a, ha, haM⟩)
    · exact ⟨M, hmore, fun a ha => .inr ha⟩
    · refine ⟨insert a M, ?_, fun b hb => ?_⟩
      · rw [Finset.card_insert_of_notMem haM]
        omega
      · rcases Finset.mem_insert.mp hb with rfl | hbM
        · exact .inl ha
        · exact .inr hbM

/-- All sets of more than `q` members overlap in more than `f` exactly if twice `q + 1` is more than
the members and `f` together. -/
theorem overlap_iff {U : Finset α} {q f : ℕ} (hq : q < U.card) :
    (∀ A ⊆ U, ∀ B ⊆ U, q < A.card → q < B.card → f < (A ∩ B).card) ↔
      U.card + f < 2 * (q + 1) := by
  constructor
  · intro hall
    by_contra hle
    obtain ⟨A, hAU, hA⟩ := Finset.exists_subset_card_eq (Nat.succ_le_of_lt hq)
    have hrest : (U \ A).card = U.card - (q + 1) := by
      rw [Finset.card_sdiff_of_subset hAU, hA]
    rcases Nat.le_total (U.card - (q + 1)) (q + 1) with hfew | hmany
    · -- the rest of the members and some of the first set
      obtain ⟨B, hB, hBU, hcard⟩ := Finset.exists_subsuperset_card_eq (s := U \ A) (t := U)
        Finset.sdiff_subset (hrest ▸ hfew) (Nat.succ_le_of_lt hq)
      have hunion : U ⊆ A ∪ B := by
        intro a ha
        by_cases haA : a ∈ A
        · exact Finset.mem_union_left _ haA
        · exact Finset.mem_union_right _ (hB (Finset.mem_sdiff.mpr ⟨ha, haA⟩))
      have hsize := Finset.card_le_card hunion
      have hsum := Finset.card_union_add_card_inter A B
      have hmore := hall A hAU B hBU (by omega) (by omega)
      omega
    · -- the rest of the members are enough by themselves
      obtain ⟨B, hB, hcard⟩ := Finset.exists_subset_card_eq (hrest ▸ hmany)
      have hmore := hall A hAU B (hB.trans Finset.sdiff_subset) (by omega) (by omega)
      have hnone : A ∩ B = ∅ := by
        rw [← Finset.disjoint_iff_inter_eq_empty]
        exact Finset.disjoint_of_subset_right hB Finset.disjoint_sdiff
      rw [hnone, Finset.card_empty] at hmore
      omega
  · intro hlt A hA B hB hqA hqB
    have hsize := Finset.card_le_card (Finset.union_subset hA hB)
    have hsum := Finset.card_union_add_card_inter A B
    omega

theorem exists_mem_of_card {U A B : Finset α} (hA : A ⊆ U) (hB : B ⊆ U)
    (hcard : U.card < A.card + B.card) : ∃ a ∈ A, a ∈ B := by
  have hunion : (A ∪ B).card ≤ U.card := Finset.card_le_card (Finset.union_subset hA hB)
  have hsum := Finset.card_union_add_card_inter A B
  have hpos : 0 < (A ∩ B).card := by omega
  obtain ⟨a, ha⟩ := Finset.card_pos.mp hpos
  exact ⟨a, (Finset.mem_inter.mp ha).1, (Finset.mem_inter.mp ha).2⟩

theorem exists_correct_mem {U F A B : Finset α} {f : ℕ} (hA : A ⊆ U) (hB : B ⊆ U)
    (hF : F.card ≤ f) (hcard : U.card + f < A.card + B.card) :
    ∃ a ∈ A, a ∈ B ∧ a ∉ F := by
  have hsplit : A.card ≤ (A \ F).card + F.card := Finset.card_le_card_sdiff_add_card
  obtain ⟨a, ha, hb⟩ := exists_mem_of_card (A := A \ F) (B := B)
    (Finset.sdiff_subset.trans hA) hB (by omega)
  exact ⟨a, (Finset.mem_sdiff.mp ha).1, hb, (Finset.mem_sdiff.mp ha).2⟩

/-- Correct voters vote for at most one value, faulty ones for as many as they like. -/
def VotesOnce (F : Finset α) (vote : α → V → Prop) : Prop :=
  ∀ a ∉ F, ∀ v w, vote a v → vote a w → v = w

/-- A certificate of size `q` for `v`: that many voters, the correct ones among which
really voted for `v`. -/
def Certified (U F : Finset α) (q : ℕ) (vote : α → V → Prop) (v : V) : Prop :=
  ∃ A ⊆ U, q ≤ A.card ∧ ∀ a ∈ A, a ∉ F → vote a v

theorem Certified.agree {U F : Finset α} {f q : ℕ} {vote : α → V → Prop} {v w : V}
    (hF : F.card ≤ f) (hq : U.card + f < 2 * q) (honce : VotesOnce F vote)
    (hv : Certified U F q vote v) (hw : Certified U F q vote w) : v = w := by
  obtain ⟨A, hA, hAq, hAv⟩ := hv
  obtain ⟨B, hB, hBq, hBw⟩ := hw
  obtain ⟨a, ha, hb, hok⟩ := exists_correct_mem hA hB hF (by omega)
  exact honce a hok v w (hAv a ha hok) (hBw a hb hok)

/-- What acceptors and proposers have said in one instance of ballot voting. A promise
carries the highest vote its acceptor had cast, if any. -/
structure Ballots (α V : Type*) where
  proposed : ℕ → V → Prop
  accepted : α → ℕ → V → Prop
  promised : α → ℕ → Option (ℕ × V) → Prop

/-- The rules that make ballot voting safe: one value for each ballot, votes only for
proposed values, truthful promises that bar lower ballots, and proposals backed by a
majority of promises whose highest vote they adopt. -/
structure Ballots.Sound (S : Ballots α V) (U : Finset α) (q : ℕ) : Prop where
  proposed_unique : ∀ b v w, S.proposed b v → S.proposed b w → v = w
  accepted_proposed : ∀ a b v, S.accepted a b v → S.proposed b v
  promised_none : ∀ a b, S.promised a b none → ∀ c v, S.accepted a c v → b ≤ c
  promised_some : ∀ a b c v, S.promised a b (some (c, v)) →
    c < b ∧ S.accepted a c v ∧ ∀ d w, S.accepted a d w → d < b → d ≤ c
  backed : ∀ b v, S.proposed b v → ∃ Q ⊆ U, q ≤ Q.card ∧
    (∀ a ∈ Q, ∃ r, S.promised a b r) ∧
    ((∀ a ∈ Q, S.promised a b none) ∨
      ∃ a ∈ Q, ∃ c, S.promised a b (some (c, v)) ∧
        ∀ a' ∈ Q, ∀ c' w, S.promised a' b (some (c', w)) → c' ≤ c)

def Ballots.Chosen (S : Ballots α V) (U : Finset α) (q b : ℕ) (v : V) : Prop :=
  ∃ Q ⊆ U, q ≤ Q.card ∧ ∀ a ∈ Q, S.accepted a b v

variable {S : Ballots α V} {U : Finset α} {q : ℕ}

/-- Once a value is chosen, no ballot from there on proposes another one. -/
theorem Ballots.Sound.proposed_of_chosen (h : S.Sound U q) (hq : U.card < 2 * q)
    {b : ℕ} {v : V} (hch : S.Chosen U q b v) {c : ℕ} {w : V} (hbc : b ≤ c)
    (hw : S.proposed c w) : w = v := by
  obtain ⟨A, hA, hAq, hacc⟩ := hch
  induction c using Nat.strong_induction_on generalizing w with
  | _ c ih =>
    obtain ⟨Q, hQ, hQq, hprom, hval⟩ := h.backed c w hw
    obtain ⟨a, haA, haQ⟩ := exists_mem_of_card hA hQ (by omega)
    have hav := hacc a haA
    rcases Nat.eq_or_lt_of_le hbc with rfl | hlt
    · exact h.proposed_unique b w v hw (h.accepted_proposed a b v hav)
    rcases hval with hnone | ⟨a', ha', d, hd, hmax⟩
    · -- a voter of the chosen ballot is in the quorum, so it cannot report nothing
      have := h.promised_none a c (hnone a haQ) b v hav
      omega
    · obtain ⟨hdc, hdacc, _⟩ := h.promised_some a' c d w hd
      obtain ⟨r, hr⟩ := hprom a haQ
      have hbd : b ≤ d := by
        cases r with
        | none =>
          have := h.promised_none a c hr b v hav
          omega
        | some r =>
          obtain ⟨e, x⟩ := r
          have hbe := (h.promised_some a c e x hr).2.2 b v hav hlt
          exact hbe.trans (hmax a haQ e x hr)
      exact ih d hdc hbd (h.accepted_proposed a' d w hdacc)

/-- Ballot voting chooses at most one value. -/
theorem Ballots.Sound.agree (h : S.Sound U q) (hq : U.card < 2 * q)
    {b c : ℕ} {v w : V} (hv : S.Chosen U q b v) (hw : S.Chosen U q c w) : v = w := by
  have proposed_of {d : ℕ} {x : V} (hx : S.Chosen U q d x) : S.proposed d x := by
    obtain ⟨A, hA, hAq, hacc⟩ := hx
    have hpos : 0 < A.card := by omega
    obtain ⟨a, ha⟩ := Finset.card_pos.mp hpos
    exact h.accepted_proposed a d x (hacc a ha)
  rcases Nat.le_total b c with hbc | hcb
  · exact (h.proposed_of_chosen hq hv hbc (proposed_of hw)).symm
  · exact h.proposed_of_chosen hq hw hcb (proposed_of hv)

end JobPortal.Quorums
