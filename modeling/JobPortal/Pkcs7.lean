import JobPortal.Hex

/-! PKCS#7 padding. What `pkcs7Unpad` takes off is bounded by the length of the text, while
`pkcs7Pad` never adds more than a block. -/
namespace JobPortal.Encryption

open Hex

def pkcs7Pad (b : Bytes) (blocksize : ℤ) : Except String Bytes :=
  if blocksize ≤ 0 then .error "invalid blocksize"
  else if b = [] then .error "invalid PKCS7 data (empty or not padded)"
  else
    let n := blocksize.toNat - b.length % blocksize.toNat
    .ok (b ++ List.replicate n (UInt8.ofNat n))

/-- The last byte tells how many bytes to take off. They all have to have its value. -/
def pkcs7Unpad (b : Bytes) (blocksize : ℤ) : Except String Bytes :=
  if blocksize ≤ 0 then .error "invalid blocksize"
  else
    match b.getLast? with
    | none => .error "invalid PKCS7 data (empty or not padded)"
    | some c =>
      if b.length % blocksize.toNat ≠ 0 then .error "invalid padding on input"
      else
        let n := c.toNat
        if n = 0 ∨ b.length < n then .error "invalid padding on input"
        else if ∃ i < n, b[b.length - n + i]? ≠ some c then .error "invalid padding on input"
        else .ok (b.take (b.length - n))

def EndsIn (n : ℕ) (c m : Bytes) : Prop :=
  1 ≤ n ∧ n ≤ 255 ∧ c = m ++ List.replicate n (UInt8.ofNat n)

def Padded (bs : ℕ) (c m : Bytes) : Prop := bs ∣ c.length ∧ ∃ n ≤ bs, EndsIn n c m

/-- What looks like padding is longer than a block. -/
def Overpadded (bs : ℕ) (c : Bytes) : Prop := bs ∣ c.length ∧ ∃ n m, bs < n ∧ EndsIn n c m

variable {n n' bs : ℕ} {b c m m' : Bytes}

theorem EndsIn.getLast? (h : EndsIn n c m) : c.getLast? = some (UInt8.ofNat n) := by
  obtain ⟨hn, _, rfl⟩ := h
  rw [List.getLast?_append_of_ne_nil _ (by simp; omega), List.getLast?_replicate,
    if_neg (by omega)]

theorem EndsIn.toNat (h : EndsIn n c m) : (UInt8.ofNat n).toNat = n := by
  rw [UInt8.toNat_ofNat']
  exact Nat.mod_eq_of_lt (by have := h.2.1; omega)

theorem EndsIn.unique (h : EndsIn n c m) (h' : EndsIn n' c m') : n = n' ∧ m = m' := by
  have hlast := Option.some.inj (h.getLast?.symm.trans h'.getLast?)
  have hn : n = n' := by rw [← h.toNat, hlast, h'.toNat]
  subst hn
  exact ⟨rfl, List.append_cancel_right (h.2.2.symm.trans h'.2.2)⟩

theorem endsIn_iff (hb : b.getLast? = some (UInt8.ofNat n)) (hn : n ≤ 255) : EndsIn n b m ↔
    1 ≤ n ∧ n ≤ b.length ∧ (∀ i < n, b[b.length - n + i]? = some (UInt8.ofNat n)) ∧
      m = b.take (b.length - n) := by
  constructor
  · rintro ⟨h1, _, rfl⟩
    refine ⟨h1, by simp, fun i hi => ?_, by simp⟩
    rw [List.length_append, List.length_replicate, Nat.add_sub_cancel,
      List.getElem?_append_right (Nat.le_add_right _ _), Nat.add_sub_cancel_left,
      List.getElem?_replicate, if_pos hi]
  · rintro ⟨h1, hle, hall, rfl⟩
    refine ⟨h1, hn, ?_⟩
    have hdrop : b.drop (b.length - n) = List.replicate n (UInt8.ofNat n) := by
      refine List.ext_getElem? fun i => ?_
      rw [List.getElem?_drop, List.getElem?_replicate]
      split_ifs with hi
      · exact hall i hi
      · exact List.getElem?_eq_none (by omega)
    rw [← hdrop, List.take_append_drop]

/-- What `pkcs7Unpad` accepts: any padding that is not longer than the text. -/
theorem pkcs7Unpad_eq_ok_iff (hbs : 1 ≤ bs) :
    pkcs7Unpad c bs = .ok m ↔ bs ∣ c.length ∧ ∃ n, EndsIn n c m := by
  rw [pkcs7Unpad, if_neg (by omega), Int.toNat_natCast]
  cases hlast : c.getLast? with
  | none =>
    refine iff_of_false (by simp) ?_
    rintro ⟨_, n, h⟩
    rw [h.getLast?] at hlast
    cases hlast
  | some x =>
    have hx : x = UInt8.ofNat x.toNat := UInt8.ofNat_toNat.symm
    have hle : x.toNat ≤ 255 := Nat.le_of_lt_succ x.toNat_lt
    have hends : (∃ n, EndsIn n c m) ↔ EndsIn x.toNat c m := by
      refine ⟨?_, fun h => ⟨_, h⟩⟩
      rintro ⟨n, h⟩
      have hn := Option.some.inj (hlast.symm.trans h.getLast?)
      rwa [hn, h.toNat]
    rw [hends, endsIn_iff (hx ▸ hlast) hle, Nat.dvd_iff_mod_eq_zero, ← hx]
    dsimp only
    split_ifs with hmod hlen hbytes
    · simp [hmod]
    · refine iff_of_false nofun ?_
      rintro ⟨_, h1, h2, _⟩
      omega
    · refine iff_of_false nofun ?_
      rintro ⟨_, _, _, hall, _⟩
      obtain ⟨i, hi, hne⟩ := hbytes
      exact hne (hall i hi)
    · rw [Except.ok.injEq]
      constructor
      · rintro rfl
        refine ⟨by omega, by omega, by omega, fun i hi => ?_, rfl⟩
        by_contra hne
        exact hbytes ⟨i, hi, hne⟩
      · exact fun h => h.2.2.2.2.symm

/-- What has to be added to get whole blocks, if it is at most one block and not nothing. -/
theorem dvd_add_iff (hbs : 1 ≤ bs) {l : ℕ} (h1 : 1 ≤ n) (hn : n ≤ bs) :
    bs ∣ l + n ↔ n = bs - l % bs := by
  have hmod : l % bs < bs := Nat.mod_lt _ hbs
  have hrest : bs ∣ l + n ↔ bs ∣ l % bs + n :=
    calc bs ∣ l + n ↔ bs ∣ bs * (l / bs) + (l % bs + n) := by
          rw [← Nat.add_assoc, Nat.div_add_mod]
      _ ↔ bs ∣ l % bs + n := Nat.dvd_add_right (Nat.dvd_mul_right _ _)
  rw [hrest]
  constructor
  · intro hdvd
    have hsum := Nat.eq_of_dvd_of_lt_two_mul (by omega) hdvd (by omega)
    omega
  · intro hsum
    rw [hsum, Nat.add_sub_cancel' hmod.le]

theorem pkcs7Pad_isOk (hbs : 1 ≤ bs) (hb : b ≠ []) : ∃ c, pkcs7Pad b bs = .ok c := by
  rw [pkcs7Pad, if_neg (by omega), if_neg hb]
  exact ⟨_, rfl⟩

/-- `pkcs7Pad` pads to whole blocks, in the only way there is. -/
theorem pkcs7Pad_eq_ok_iff (hbs : 1 ≤ bs) (h255 : bs ≤ 255) (hb : b ≠ []) :
    pkcs7Pad b bs = .ok c ↔ Padded bs c b := by
  have hmod : b.length % bs < bs := Nat.mod_lt _ hbs
  rw [pkcs7Pad, if_neg (by omega), if_neg hb, Int.toNat_natCast, Except.ok.injEq]
  constructor
  · rintro rfl
    refine ⟨?_, bs - b.length % bs, Nat.sub_le _ _, by omega, by omega, rfl⟩
    rw [List.length_append, List.length_replicate]
    exact (dvd_add_iff hbs (by omega) (Nat.sub_le _ _)).mpr rfl
  · rintro ⟨hdvd, n, hn, h1, _, rfl⟩
    rw [List.length_append, List.length_replicate] at hdvd
    rw [(dvd_add_iff hbs h1 hn).mp hdvd]

theorem pkcs7Unpad_of_pkcs7Pad (hbs : 1 ≤ bs) (h255 : bs ≤ 255) (hb : b ≠ [])
    (h : pkcs7Pad b bs = .ok c) : pkcs7Unpad c bs = .ok b := by
  obtain ⟨hdvd, n, _, hends⟩ := (pkcs7Pad_eq_ok_iff hbs h255 hb).mp h
  exact (pkcs7Unpad_eq_ok_iff hbs).mpr ⟨hdvd, n, hends⟩

/-- Exactly the padded texts are accepted, and padding what is left gives the text again. -/
structure Unpads (bs : ℕ) (c : Bytes) : Prop where
  accepts : ∀ m, pkcs7Unpad c bs = .ok m ↔ Padded bs c m
  repads : ∀ m, pkcs7Unpad c bs = .ok m → m ≠ [] → pkcs7Pad m bs = .ok c

/-- What `pkcs7Pad` returns is unpadded to what it was, and exactly the padded texts are accepted
but for those whose last byte is repeated more often than a block is long. -/
theorem pkcs7Unpad_iff (hbs : 1 ≤ bs) (h255 : bs ≤ 255) :
    (∀ b, b ≠ [] → ∃ c, pkcs7Pad b bs = .ok c ∧ pkcs7Unpad c bs = .ok b) ∧
      ∀ c, Unpads bs c ↔ ¬ Overpadded bs c := by
  refine ⟨fun b hb => ?_, fun c => ⟨fun h => ?_, fun h => ?_⟩⟩
  · obtain ⟨c, hc⟩ := pkcs7Pad_isOk hbs hb
    exact ⟨c, hc, pkcs7Unpad_of_pkcs7Pad hbs h255 hb hc⟩
  · rintro ⟨hdvd, n, m, hlong, hends⟩
    obtain ⟨_, n', hn', hends'⟩ :=
      (h.accepts m).mp ((pkcs7Unpad_eq_ok_iff hbs).mpr ⟨hdvd, n, hends⟩)
    obtain ⟨rfl, _⟩ := hends.unique hends'
    omega
  · have haccepts : ∀ m, pkcs7Unpad c bs = .ok m ↔ Padded bs c m := by
      intro m
      rw [pkcs7Unpad_eq_ok_iff hbs]
      refine and_congr_right fun hdvd => exists_congr fun n => ⟨fun hends => ⟨?_, hends⟩, And.right⟩
      by_contra hlong
      exact h ⟨hdvd, n, m, Nat.not_le.mp hlong, hends⟩
    exact ⟨haccepts, fun m hm hne => (pkcs7Pad_eq_ok_iff hbs h255 hne).mpr ((haccepts m).mp hm)⟩

namespace Sample

def overpadded : Bytes := List.replicate 15 0 ++ List.replicate 17 17

theorem pkcs7Unpad_counterexample :
    pkcs7Unpad overpadded 16 = .ok (List.replicate 15 0) ∧ ¬ Unpads 16 overpadded := by
  refine ⟨by decide, fun h => ?_⟩
  obtain ⟨_, n, hn, hends⟩ := (h.accepts (List.replicate 15 0)).mp (by decide)
  have hlast := hends.getLast?
  have hvalue : n = 17 := by
    rw [← hends.toNat, ← Option.some.inj hlast]
    decide
  omega

theorem pkcs7Unpad_iff_aes :
    (∀ b, b ≠ [] → ∃ c, pkcs7Pad b (16 : ℕ) = .ok c ∧ pkcs7Unpad c (16 : ℕ) = .ok b) ∧
      ∀ c, Unpads 16 c ↔ ¬ Overpadded 16 c :=
  pkcs7Unpad_iff (by decide) (by decide)

end Sample

end JobPortal.Encryption
