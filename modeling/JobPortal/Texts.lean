import Mathlib.Data.List.Basic
import Mathlib.Data.String.Basic

/-! Texts made of parts with a separator between them, and numbers written in decimals. -/
namespace JobPortal.Texts

theorem extract_append (l m r : List Char) :
    String.Pos.Raw.extract (.ofList (l ++ m ++ r)) ⟨String.utf8Len l⟩ ⟨String.utf8Len (l ++ m)⟩ =
      .ofList m := by
  rw [String.utf8Len_append]
  exact String.extract_of_valid l m r

/-- The current part starts behind `l`, and `m` is what there is of it. -/
theorem splitOnAux_singleton (c : Char) (l m r : List Char) (parts : List String) :
    String.splitOnAux (.ofList (l ++ m ++ r)) (.ofList [c]) ⟨String.utf8Len l⟩
        ⟨String.utf8Len (l ++ m)⟩ 0 parts =
      parts.reverse ++ (r.splitOnPPrepend (· == c) m.reverse).map String.ofList := by
  induction r generalizing l m parts with
  | nil =>
    have hend := (String.atEnd_of_valid (l ++ m) []).mpr rfl
    rw [String.splitOnAux, if_pos hend, extract_append]
    simp
  | cons d r ih =>
    have hend : ¬ String.Pos.Raw.atEnd (.ofList (l ++ m ++ d :: r))
        ⟨String.utf8Len (l ++ m)⟩ = true := fun h =>
      List.cons_ne_nil d r ((String.atEnd_of_valid (l ++ m) (d :: r)).mp h)
    have hget : String.Pos.Raw.get (.ofList (l ++ m ++ d :: r)) ⟨String.utf8Len (l ++ m)⟩ = d :=
      String.get_of_valid (l ++ m) (d :: r)
    have hnext : String.Pos.Raw.next (.ofList (l ++ m ++ d :: r)) ⟨String.utf8Len (l ++ m)⟩ =
        ⟨String.utf8Len (l ++ m ++ [d])⟩ := by
      rw [String.next_of_valid, String.utf8Len_append _ [d]]
      simp
    have hsep : String.Pos.Raw.get (.ofList [c]) 0 = c := String.get_of_valid [] [c]
    have hsepnext : String.Pos.Raw.next (.ofList [c]) 0 = ⟨c.utf8Size⟩ := by
      simpa using String.next_of_valid [] c []
    have hsepend : String.Pos.Raw.atEnd (.ofList [c]) ⟨c.utf8Size⟩ = true := by
      simpa using String.atEnd_of_valid [c] []
    rw [String.splitOnAux, if_neg hend, hget, hsep, hnext, List.splitOnPPrepend_cons_eq_if]
    by_cases hd : d = c
    · subst hd
      have hback : String.Pos.Raw.unoffsetBy ⟨String.utf8Len (l ++ m ++ [d])⟩ ⟨d.utf8Size⟩ =
          ⟨String.utf8Len (l ++ m)⟩ := by
        simp [String.Pos.Raw.unoffsetBy]
        omega
      have hrest := ih (l ++ m ++ [d]) [] (.ofList m :: parts)
      simp only [List.append_nil, List.append_assoc, List.singleton_append] at hrest
      simp only [beq_self_eq_true, if_true, hsepnext, hsepend, hback, extract_append]
      simpa using hrest
    · have hback : String.Pos.Raw.unoffsetBy ⟨String.utf8Len (l ++ m)⟩ 0 =
          ⟨String.utf8Len (l ++ m)⟩ := rfl
      have hrest := ih l (m ++ [d]) parts
      simp only [List.append_assoc, List.singleton_append] at hrest
      rw [if_neg (by simpa using hd), hback, hnext, if_neg (by simpa using hd)]
      simpa using hrest

theorem splitOn_singleton (s : String) (c : Char) :
    s.splitOn (.ofList [c]) = (s.toList.splitOn c).map .ofList := by
  have hsep : (String.ofList [c] == "") = false := by simp
  rw [String.splitOn, hsep, List.splitOn_eq_splitOnP]
  simpa using splitOnAux_singleton c [] [] s.toList []

theorem splitOn_append_append {c : Char} {a b : String} (ha : c ∉ a.toList) (hb : c ∉ b.toList) :
    (a ++ .ofList [c] ++ b).splitOn (.ofList [c]) = [a, b] := by
  have hparts : ([c].intercalate [a.toList, b.toList]).splitOn c = [a.toList, b.toList] :=
    List.splitOn_intercalate c (by simp [ha, hb]) (by simp)
  have htext : (a ++ .ofList [c] ++ b).toList = [c].intercalate [a.toList, b.toList] := by simp
  rw [splitOn_singleton, htext, hparts]
  simp

theorem foldl_toDigits (n : ℕ) :
    (Nat.toDigits 10 n).foldl (fun n c => 10 * n + (c.toNat - '0'.toNat)) 0 = n :=
  Nat.ofDigitChars_ten_toDigits

end JobPortal.Texts
