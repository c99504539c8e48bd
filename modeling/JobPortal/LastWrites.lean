import Mathlib.Data.Finmap
import Mathlib.Data.List.Induction

/-! Writes to a map, one after the other. A key has the value of the last write to it. -/
namespace JobPortal.LastWrites

variable {K V : Type*} [DecidableEq K]

def writeAll (m : Finmap fun _ : K => V) (ws : List (K × V)) : Finmap fun _ : K => V :=
  ws.foldl (fun m w => m.insert w.1 w.2) m

def lastTo (k : K) (ws : List (K × V)) : Option V := (ws.filter (·.1 = k)).getLast?.map (·.2)

theorem lastTo_concat_self (ws : List (K × V)) (w : K × V) :
    lastTo w.1 (ws ++ [w]) = some w.2 := by
  simp [lastTo, List.filter_append]

theorem lastTo_concat_of_ne {k : K} {w : K × V} (h : w.1 ≠ k) (ws : List (K × V)) :
    lastTo k (ws ++ [w]) = lastTo k ws := by
  simp [lastTo, List.filter_append, h]

theorem writeAll_append (m : Finmap fun _ : K => V) (ws ws' : List (K × V)) :
    writeAll m (ws ++ ws') = writeAll (writeAll m ws) ws' :=
  List.foldl_append

theorem lookup_writeAll (m : Finmap fun _ : K => V) (ws : List (K × V)) (k : K) :
    (writeAll m ws).lookup k = (lastTo k ws).or (m.lookup k) := by
  induction ws using List.reverseRecOn with
  | nil => rfl
  | append_singleton ws w ih =>
    have hlast : writeAll m (ws ++ [w]) = (writeAll m ws).insert w.1 w.2 := writeAll_append m ws [w]
    rw [hlast]
    by_cases hkey : w.1 = k
    · subst hkey
      rw [Finmap.lookup_insert, lastTo_concat_self, Option.some_or]
    · rw [Finmap.lookup_insert_of_ne _ (Ne.symm hkey), lastTo_concat_of_ne hkey, ih]

theorem mem_of_lastTo {k : K} {v : V} {ws : List (K × V)} (h : lastTo k ws = some v) :
    (k, v) ∈ ws := by
  obtain ⟨w, hw, rfl⟩ := Option.map_eq_some_iff.mp h
  obtain ⟨hmem, hkey⟩ := List.mem_filter.mp (List.mem_of_getLast? hw)
  obtain rfl := of_decide_eq_true hkey
  exact hmem

/-- A key that is written has the value of one of the writes to it. -/
theorem exists_lookup_writeAll (m : Finmap fun _ : K => V) {ws : List (K × V)} {w : K × V}
    (hw : w ∈ ws) : ∃ v, (w.1, v) ∈ ws ∧ (writeAll m ws).lookup w.1 = some v := by
  have hmem : w ∈ ws.filter (·.1 = w.1) := List.mem_filter.mpr ⟨hw, decide_eq_true rfl⟩
  have hlast := List.getLast?_eq_some_getLast (List.ne_nil_of_mem hmem)
  have hto : lastTo w.1 ws =
      some ((ws.filter (·.1 = w.1)).getLast (List.ne_nil_of_mem hmem)).2 := by
    rw [lastTo, hlast, Option.map_some]
  refine ⟨_, mem_of_lastTo hto, ?_⟩
  rw [lookup_writeAll, hto, Option.some_or]

theorem mem_writeAll (m : Finmap fun _ : K => V) (ws : List (K × V)) (k : K) :
    k ∈ writeAll m ws ↔ k ∈ m ∨ k ∈ ws.map Prod.fst := by
  induction ws generalizing m with
  | nil => simp [writeAll]
  | cons w ws ih =>
    have hrest : writeAll m (w :: ws) = writeAll (m.insert w.1 w.2) ws := rfl
    rw [hrest, ih, Finmap.mem_insert, List.map_cons, List.mem_cons]
    tauto

theorem lookup_writeAll_of_nodup (m : Finmap fun _ : K => V) {ws : List (K × V)}
    (h : (ws.map Prod.fst).Nodup) {w : K × V} (hw : w ∈ ws) :
    (writeAll m ws).lookup w.1 = some w.2 := by
  obtain ⟨v, hv, hlookup⟩ := exists_lookup_writeAll m hw
  have hsame : (w.1, v) = w := List.inj_on_of_nodup_map h hv hw rfl
  rw [hlookup, ← congrArg Prod.snd hsame]

end JobPortal.LastWrites
