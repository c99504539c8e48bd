import Mathlib.Data.Finmap

/-! Writes to a map that leave the bindings it has alone. -/
namespace JobPortal.WriteOnce

variable {K V : Type*} [DecidableEq K] {m : Finmap fun _ : K => V} {w w' : K × V}

/-- The key is unbound, or bound to the value already. -/
def Fits (m : Finmap fun _ : K => V) (w : K × V) : Prop := ∀ v, m.lookup w.1 = some v → v = w.2

/-- Writes that fit when their turn comes. -/
def FitsInTurn : (m : Finmap fun _ : K => V) → List (K × V) → Prop
  | _, [] => True
  | m, w :: ws => Fits m w ∧ FitsInTurn (m.insert w.1 w.2) ws

def Agree (w w' : K × V) : Prop := w.1 = w'.1 → w.2 = w'.2

theorem fits_insert_iff (h : Fits m w) :
    Fits (m.insert w.1 w.2) w' ↔ Fits m w' ∧ Agree w w' := by
  by_cases hkey : w'.1 = w.1
  · constructor
    · intro hfits
      have hvalue : w.2 = w'.2 := hfits w.2 (by rw [hkey, Finmap.lookup_insert])
      exact ⟨fun v hv => (h v (hkey ▸ hv)).trans hvalue, fun _ => hvalue⟩
    · rintro ⟨_, hagree⟩ v hv
      rw [hkey, Finmap.lookup_insert] at hv
      exact (Option.some.inj hv).symm.trans (hagree hkey.symm)
  · unfold Fits
    rw [Finmap.lookup_insert_of_ne _ hkey]
    exact ⟨fun hfits => ⟨hfits, fun heq => absurd heq.symm hkey⟩, And.left⟩

/-- Writes fit in turn if each fits from the start and no two undo each other. -/
theorem fitsInTurn_iff {ws : List (K × V)} :
    FitsInTurn m ws ↔ (∀ w ∈ ws, Fits m w) ∧ ws.Pairwise Agree := by
  induction ws generalizing m with
  | nil => simp [FitsInTurn]
  | cons w ws ih =>
    rw [FitsInTurn, ih, List.forall_mem_cons, List.pairwise_cons]
    constructor
    · rintro ⟨hw, hrest, hpair⟩
      have hsplit := fun w' hw' => (fits_insert_iff hw).mp (hrest w' hw')
      exact ⟨⟨hw, fun w' hw' => (hsplit w' hw').1⟩, fun w' hw' => (hsplit w' hw').2, hpair⟩
    · rintro ⟨⟨hw, hrest⟩, hagree, hpair⟩
      exact ⟨hw, fun w' hw' => (fits_insert_iff hw).mpr ⟨hrest w' hw', hagree w' hw'⟩, hpair⟩

theorem FitsInTurn.lookup_foldl {ws : List (K × V)} (h : FitsInTurn m ws) {k : K} {v : V}
    (hk : m.lookup k = some v) :
    (ws.foldl (fun m w => m.insert w.1 w.2) m).lookup k = some v := by
  induction ws generalizing m with
  | nil => exact hk
  | cons w ws ih =>
    refine ih h.2 ?_
    by_cases hkey : k = w.1
    · subst hkey
      rw [Finmap.lookup_insert, h.1 v hk]
    · rwa [Finmap.lookup_insert_of_ne _ hkey]

end JobPortal.WriteOnce
