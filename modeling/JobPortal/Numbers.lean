import JobPortal.Texts
import Mathlib.Tactic.SplitIfs
import Mathlib.Algebra.Order.Ring.Int

/-! Numbers read from texts, as `strconv` does it. -/
namespace JobPortal

def signAndDigits (s : String) : Bool × List Char :=
  match s.toList with
  | '-' :: ds => (true, ds)
  | '+' :: ds => (false, ds)
  | ds => (false, ds)

/-- The loop of `ParseUint`. It stops at a character that is no digit, and where the number does
not fit any more. -/
def parseUint (n : ℕ) : List Char → Option ℕ
  | [] => some n
  | c :: cs =>
    if c.isDigit then
      let n' := 10 * n + (c.toNat - '0'.toNat)
      if n' < 2 ^ 64 then parseUint n' cs else some (2 ^ 64 - 1)
    else none

/-- `Atoi`: 0 where the text is no number, and the nearest int where it is too large. -/
def atoi (s : String) : ℤ :=
  match parseUint 0 (signAndDigits s).2 with
  | none => 0
  | some n => if (signAndDigits s).1 then max (-n) (-2 ^ 63) else min n (2 ^ 63 - 1)

theorem atoi_mem_Ico (s : String) : -2 ^ 63 ≤ atoi s ∧ atoi s < 2 ^ 63 := by
  unfold atoi
  split
  · omega
  · split_ifs
    · omega
    · omega

theorem le_foldl_digits (digits : List Char) (n : ℕ) :
    n ≤ digits.foldl (fun n c => 10 * n + (c.toNat - '0'.toNat)) n := by
  induction digits generalizing n with
  | nil => exact Nat.le_refl n
  | cons c cs ih =>
    have hle : n ≤ 10 * n + (c.toNat - '0'.toNat) := by omega
    exact Nat.le_trans hle (ih _)

theorem parseUint_of_digits {digits : List Char} (h : ∀ c ∈ digits, c.isDigit = true) {n : ℕ}
    (hn : n < 2 ^ 64) : parseUint n digits =
      some (min (digits.foldl (fun n c => 10 * n + (c.toNat - '0'.toNat)) n) (2 ^ 64 - 1)) := by
  induction digits generalizing n with
  | nil =>
    rw [parseUint, List.foldl_nil, Nat.min_eq_left (by omega)]
  | cons c cs ih =>
    obtain ⟨hc, hcs⟩ := List.forall_mem_cons.mp h
    rw [parseUint, if_pos hc, List.foldl_cons]
    dsimp only
    split_ifs with hfits
    · exact ih hcs hfits
    · have hle := le_foldl_digits cs (10 * n + (c.toNat - '0'.toNat))
      rw [Nat.min_eq_right (by omega)]

theorem isDigit_of_mem_toDigits {n : ℕ} {c : Char} (h : c ∈ Nat.toDigits 10 n) :
    c.isDigit = true :=
  Nat.isDigit_of_mem_toDigits (by omega) (by omega) h

theorem signAndDigits_toString (n : ℕ) :
    signAndDigits (toString n) = (false, Nat.toDigits 10 n) := by
  have hdigits : (toString n).toList = Nat.toDigits 10 n := by simp
  unfold signAndDigits
  rw [hdigits]
  split
  · next cs hcs =>
    exact absurd (isDigit_of_mem_toDigits (hcs ▸ List.mem_cons_self)) (by decide)
  · next cs hcs =>
    exact absurd (isDigit_of_mem_toDigits (hcs ▸ List.mem_cons_self)) (by decide)
  · rfl

theorem atoi_toString {n : ℕ} (h : n < 2 ^ 63) : atoi (toString n) = n := by
  rw [atoi, signAndDigits_toString]
  dsimp only
  rw [parseUint_of_digits (fun _ => isDigit_of_mem_toDigits) (by omega), Texts.foldl_toDigits]
  dsimp only
  rw [if_neg Bool.false_ne_true]
  omega

end JobPortal
