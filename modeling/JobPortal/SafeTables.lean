import JobPortal.PbftTypes

/-! The tables the cothority nodes and the HRs collect their messages in. -/
namespace JobPortal.Cothority

structure SafeIndexTable where
  indexTable : GoMap ℕ ℕ

namespace SafeIndexTable

def newSafeIndexTable : SafeIndexTable := ⟨∅⟩

def set (t : SafeIndexTable) (index : ℕ) : SafeIndexTable × Bool :=
  if index ∈ t.indexTable then (t, false) else (⟨t.indexTable.insert index 0⟩, true)

end SafeIndexTable

/-- Write the entries of a map into a slice. There is no result where a key is out of range. -/
def fill {α β : Type} (table : GoMap ℕ α) (f : ℕ → α → β) (slice : List (Option β)) :
    Option (List (Option β)) :=
  if ∀ i ∈ table.keys, i < slice.length then
    some (slice.mapIdx fun i old => ((table.lookup i).map (f i)).or old)
  else none

def shareThreshold (num : ℕ) : ℕ := (num + 1) / 2 + 1

structure SafePubKeyTable (E : Type) where
  num : ℕ
  keys : List (Option E)
  keyTable : GoMap ℕ E

namespace SafePubKeyTable

variable {E : Type}

def newSafePubKeyTable (num : ℕ) : SafePubKeyTable E := ⟨num, List.replicate num none, ∅⟩

/-- The first key of an index stays. There is no result where the code panics. -/
def set (t : SafePubKeyTable E) (index : ℕ) (key : E) : Option (SafePubKeyTable E) :=
  if index ∈ t.keyTable then some t
  else
    let table := t.keyTable.insert index key
    if table.keys.card = t.num then
      (fill table (fun _ key => key) t.keys).map fun keys =>
        { t with keyTable := table, keys := keys }
    else some { t with keyTable := table }

def getKeys (t : SafePubKeyTable E) : Option (List (Option E)) :=
  if t.keyTable.keys.card = t.num then some t.keys else none

end SafePubKeyTable

structure PubShare (E : Type) where
  i : ℕ
  v : E
  deriving DecidableEq, Repr

structure SafeShareTable (E : Type) where
  shareTable : GoMap ℕ Hex.Bytes
  threshold : ℕ
  shares : List (Option (PubShare E))
  num : ℕ

namespace SafeShareTable

variable {E : Type}

def newSafeShareTable (num : ℕ) : SafeShareTable E :=
  ⟨∅, shareThreshold num, List.replicate num none, num⟩

/-- The first share of an index stays, and none is taken in once there are enough. There is no
result where the code panics. -/
def set (unmarshal : Hex.Bytes → E) (t : SafeShareTable E) (i : ℕ) (v : Hex.Bytes) :
    Option (SafeShareTable E) :=
  if t.threshold ≤ t.shareTable.keys.card then some t
  else if i ∈ t.shareTable then some t
  else
    let table := t.shareTable.insert i v
    if t.threshold ≤ table.keys.card then
      (fill table (fun i v => ⟨i, unmarshal v⟩) t.shares).map fun shares =>
        { t with shareTable := table, shares := shares }
    else some { t with shareTable := table }

def get (t : SafeShareTable E) : Option (List (Option (PubShare E))) :=
  if t.threshold ≤ t.shareTable.keys.card then some t.shares else none

def clean (t : SafeShareTable E) : SafeShareTable E :=
  { t with shareTable := ∅, shares := List.replicate t.num none }

end SafeShareTable

theorem mem_keys_iff {α : Type} {table : GoMap ℕ α} {i : ℕ} :
    i ∈ table.keys ↔ ∃ v, table.lookup i = some v := by
  rw [Finmap.mem_keys, Finmap.mem_iff]

theorem keys_insert {α : Type} (table : GoMap ℕ α) (i : ℕ) (v : α) :
    (table.insert i v).keys = insert i table.keys := by
  ext j
  simp [Finmap.mem_keys]

theorem fill_eq_some {α β : Type} {table : GoMap ℕ α} {f : ℕ → α → β}
    {slice slice' : List (Option β)} (h : fill table f slice = some slice') :
    (∀ i ∈ table.keys, i < slice.length) ∧
      slice' = slice.mapIdx fun i old => ((table.lookup i).map (f i)).or old := by
  unfold fill at h
  split_ifs at h with hrange
  exact ⟨hrange, (Option.some.inj h).symm⟩

/-- An empty slice holds the entries of the map at their keys, and nothing else. -/
theorem fill_replicate {α β : Type} {table : GoMap ℕ α} (f : ℕ → α → β) {num : ℕ}
    (hrange : ∀ i ∈ table.keys, i < num) :
    fill table f (List.replicate num none) =
      some ((List.range num).map fun i => (table.lookup i).map (f i)) := by
  rw [fill, if_pos (by simpa using hrange)]
  congr 1
  apply List.ext_getElem
  · simp
  · intro i hi _
    rw [List.getElem_map, List.getElem_range, List.getElem_mapIdx, List.getElem_replicate,
      Option.or_none]

/-- What was written into a slice is an entry of the map or was there before. -/
theorem mem_of_fill {α β : Type} {table : GoMap ℕ α} {f : ℕ → α → β}
    {slice slice' : List (Option β)} (h : fill table f slice = some slice') {x : β}
    (hx : some x ∈ slice') :
    (∃ i a, table.lookup i = some a ∧ x = f i a) ∨ some x ∈ slice := by
  rw [(fill_eq_some h).2] at hx
  obtain ⟨i, hi, hget⟩ := List.mem_mapIdx.mp hx
  cases ha : table.lookup i with
  | none =>
    rw [ha, Option.map_none, Option.none_or] at hget
    exact .inr (hget ▸ List.getElem_mem hi)
  | some a =>
    rw [ha, Option.map_some, Option.some_or] at hget
    exact .inl ⟨i, a, ha, (Option.some.inj hget).symm⟩

theorem card_keys_insert {α : Type} {table : GoMap ℕ α} {i : ℕ} (hi : i ∉ table) (v : α) :
    (table.insert i v).keys.card = table.keys.card + 1 := by
  rw [keys_insert, Finset.card_insert_of_notMem (by rwa [Finmap.mem_keys])]

namespace SafePubKeyTable

variable {E : Type} {t t' : SafePubKeyTable E} {index : ℕ} {key : E}

/-- A key is dropped or is one more of the table, and the last one fills the slice. -/
theorem set_cases (h : t.set index key = some t') :
    (index ∈ t.keyTable ∧ t' = t) ∨
      (index ∉ t.keyTable ∧ t'.num = t.num ∧ t'.keyTable = t.keyTable.insert index key ∧
        (t'.keyTable.keys.card ≠ t.num ∧ t'.keys = t.keys ∨
          t'.keyTable.keys.card = t.num ∧
            fill t'.keyTable (fun _ key => key) t.keys = some t'.keys)) := by
  unfold set at h
  dsimp only at h
  split_ifs at h with hmem hfull
  · exact .inl ⟨hmem, (Option.some.inj h).symm⟩
  · obtain ⟨keys, hfill, rfl⟩ := Option.map_eq_some_iff.mp h
    exact .inr ⟨hmem, rfl, rfl, .inr ⟨hfull, hfill⟩⟩
  · obtain rfl := Option.some.inj h
    exact .inr ⟨hmem, rfl, rfl, .inl ⟨hfull, rfl⟩⟩

/-- The table takes the key without a panic: when the key completes the table, all indices are in
the range of the slice. -/
def Fits (t : SafePubKeyTable E) (index : ℕ) : Prop :=
  index ∉ t.keyTable → t.keyTable.keys.card + 1 = t.num →
    ∀ i ∈ insert index t.keyTable.keys, i < t.keys.length

theorem set_eq_none_iff : t.set index key = none ↔ ¬ t.Fits index := by
  unfold set Fits
  dsimp only
  split_ifs with hmem hfull
  · simp [hmem]
  · rw [card_keys_insert hmem] at hfull
    rw [Option.map_eq_none_iff, fill, keys_insert]
    simp [hmem, hfull]
  · rw [card_keys_insert hmem] at hfull
    simp [hfull]

end SafePubKeyTable

namespace SafeShareTable

variable {E : Type} {unmarshal : Hex.Bytes → E} {t t' : SafeShareTable E} {i : ℕ} {v : Hex.Bytes}

def Filled (unmarshal : Hex.Bytes → E) (t : SafeShareTable E) : Prop :=
  ∀ share, some share ∈ t.shares →
    ∃ (v : Hex.Bytes), t.shareTable.lookup share.i = some v ∧ share.v = unmarshal v

theorem set_cases (h : t.set unmarshal i v = some t') :
    ((t.threshold ≤ t.shareTable.keys.card ∨ i ∈ t.shareTable) ∧ t' = t) ∨
      (¬ (t.threshold ≤ t.shareTable.keys.card ∨ i ∈ t.shareTable) ∧
        t'.threshold = t.threshold ∧ t'.shareTable = t.shareTable.insert i v ∧
        (t'.shares = t.shares ∨
          fill t'.shareTable (fun i v => ⟨i, unmarshal v⟩) t.shares = some t'.shares)) := by
  unfold set at h
  dsimp only at h
  split_ifs at h with henough hmem
  · exact .inl ⟨.inl henough, (Option.some.inj h).symm⟩
  · exact .inl ⟨.inr hmem, (Option.some.inj h).symm⟩
  · obtain ⟨shares, hfill, rfl⟩ := Option.map_eq_some_iff.mp h
    exact .inr ⟨not_or.mpr ⟨henough, hmem⟩, rfl, rfl, .inr hfill⟩
  · obtain rfl := Option.some.inj h
    exact .inr ⟨not_or.mpr ⟨henough, hmem⟩, rfl, rfl, .inl rfl⟩

theorem Filled.set (ht : t.Filled unmarshal) (h : t.set unmarshal i v = some t') :
    t'.Filled unmarshal := by
  obtain ⟨_, rfl⟩ | ⟨hnew, _, htable, hshares⟩ := set_cases h
  · exact ht
  · have hkept : ∀ share, some share ∈ t.shares →
        ∃ (v : Hex.Bytes), t'.shareTable.lookup share.i = some v ∧ share.v = unmarshal v := by
      intro share hshare
      obtain ⟨w, hw, heq⟩ := ht share hshare
      have hne : share.i ≠ i := by
        rintro hi
        exact hnew (.inr (hi ▸ Finmap.mem_of_lookup_eq_some hw))
      exact ⟨w, by rw [htable, Finmap.lookup_insert_of_ne _ hne, hw], heq⟩
    intro share hshare
    rcases hshares with hshares | hfill
    · exact hkept share (hshares ▸ hshare)
    · obtain ⟨j, w, hw, rfl⟩ | hold := mem_of_fill hfill hshare
      · exact ⟨w, hw, rfl⟩
      · exact hkept share hold

/-- The table takes the share without a panic: when there are enough shares, all indices are in the
range of the slice. -/
def Fits (t : SafeShareTable E) (i : ℕ) : Prop :=
  t.shareTable.keys.card < t.threshold → i ∉ t.shareTable →
    t.threshold ≤ t.shareTable.keys.card + 1 →
      ∀ j ∈ insert i t.shareTable.keys, j < t.shares.length

theorem set_eq_none_iff : t.set unmarshal i v = none ↔ ¬ t.Fits i := by
  unfold set Fits
  dsimp only
  split_ifs with henough hmem hlast
  · simp [henough]
  · simp [hmem]
  · rw [card_keys_insert hmem] at hlast
    rw [Option.map_eq_none_iff, fill, keys_insert]
    simp [hmem, hlast, Nat.lt_of_not_le henough]
  · rw [card_keys_insert hmem] at hlast
    simp [hlast]

theorem get_eq_some {shares : List (Option (PubShare E))} (h : t.get = some shares) :
    t.threshold ≤ t.shareTable.keys.card ∧ shares = t.shares := by
  unfold get at h
  split_ifs at h with henough
  exact ⟨henough, (Option.some.inj h).symm⟩

theorem filled_of_none (h : ∀ share, some share ∉ t.shares) : t.Filled unmarshal :=
  fun share hshare => absurd hshare (h share)

end SafeShareTable

end JobPortal.Cothority
