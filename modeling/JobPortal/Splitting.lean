import JobPortal.Runs
import Mathlib.Algebra.Order.BigOperators.Group.Multiset
import Mathlib.Algebra.BigOperators.Group.Multiset.Basic
import Mathlib.Algebra.Order.Ring.Nat

/-! Tokens with a weight. A token that is used up is split into tokens that together weigh less,
so no more tokens are ever made than weight was granted. -/
namespace JobPortal.Splitting

open Runs

/-- Parts that weigh something each and `budget` at most together. -/
structure Parts (budget : ℕ) (parts : Multiset ℕ) : Prop where
  pos : ∀ w ∈ parts, 0 < w
  sum_le : parts.sum ≤ budget

instance (budget : ℕ) (parts : Multiset ℕ) : Decidable (Parts budget parts) :=
  decidable_of_iff ((∀ w ∈ parts, 0 < w) ∧ parts.sum ≤ budget)
    ⟨fun h => ⟨h.1, h.2⟩, fun h => ⟨h.pos, h.sum_le⟩⟩

theorem parts_zero (budget : ℕ) : Parts budget 0 :=
  ⟨fun _ hw => absurd hw (Multiset.notMem_zero _), by simp⟩

/-- The tokens there are, the weight that was granted, and how many tokens were made and used. -/
@[ext]
structure Tokens where
  live : Multiset ℕ := 0
  granted : ℕ := 0
  born : ℕ := 0
  spent : ℕ := 0

inductive TokenEvent
  | grant (budget : ℕ) (parts : Multiset ℕ)
  | split (weight : ℕ) (parts : Multiset ℕ)

namespace Tokens

def step (s : Tokens) : TokenEvent → Option Tokens
  | .grant budget parts =>
    if Parts budget parts then
      some { s with
        live := s.live + parts
        granted := s.granted + budget
        born := s.born + parts.card }
    else none
  | .split weight parts =>
    if weight ∈ s.live ∧ Parts (weight - 1) parts then
      some { s with
        live := s.live.erase weight + parts
        born := s.born + parts.card
        spent := s.spent + 1 }
    else none

/-- What is left of a token after its own unit pays for the tokens made of it. -/
structure Paid (s : Tokens) : Prop where
  pos : ∀ w ∈ s.live, 0 < w
  made : s.born = s.spent + s.live.card
  paid : s.born + s.live.sum ≤ s.granted + s.live.card

variable {s t : Tokens} {e : TokenEvent}

theorem Paid.step (h : s.Paid) (hstep : s.step e = some t) : t.Paid := by
  cases e with
  | grant budget parts =>
    simp only [Tokens.step] at hstep
    split_ifs at hstep with hparts
    obtain rfl := Option.some.inj hstep
    have hmade := h.made
    have hpaid := h.paid
    have hsum := hparts.sum_le
    constructor
    · intro w hw
      exact (Multiset.mem_add.mp hw).elim (h.pos w) (hparts.pos w)
    · dsimp only
      rw [Multiset.card_add]
      omega
    · dsimp only
      rw [Multiset.card_add, Multiset.sum_add]
      omega
  | split weight parts =>
    simp only [Tokens.step] at hstep
    split_ifs at hstep with hsplit
    obtain ⟨hlive, hparts⟩ := hsplit
    obtain rfl := Option.some.inj hstep
    have hmade := h.made
    have hpaid := h.paid
    have hsum := hparts.sum_le
    have hpos := h.pos weight hlive
    have herase := Multiset.sum_erase hlive
    have hcard := Multiset.card_erase_add_one hlive
    constructor
    · intro w hw
      exact (Multiset.mem_add.mp hw).elim (fun hw => h.pos w (Multiset.mem_of_mem_erase hw))
        (hparts.pos w)
    · dsimp only
      rw [Multiset.card_add]
      omega
    · dsimp only
      rw [Multiset.card_add, Multiset.sum_add]
      omega

theorem paid_of_run {es : List TokenEvent} (h : AnyRun Tokens.step {} es s) : s.Paid :=
  h.invariant (I := Paid) ⟨fun _ hw => absurd hw (Multiset.notMem_zero _), rfl, Nat.le_refl 0⟩
    fun hs _ hstep => hs.step hstep

theorem Paid.card_le_sum (h : s.Paid) : s.live.card ≤ s.live.sum := by
  have hle := Multiset.card_nsmul_le_sum (a := 1) fun w hw => h.pos w hw
  rwa [nsmul_eq_mul, Nat.cast_id, Nat.mul_one] at hle

theorem Paid.born_le (h : s.Paid) : s.born ≤ s.granted := by
  have hpaid := h.paid
  have hcard := h.card_le_sum
  omega

theorem Paid.spent_le (h : s.Paid) : s.spent ≤ s.granted := by
  have hborn := h.born_le
  have hmade := h.made
  omega

end Tokens

end JobPortal.Splitting
