import JobPortal.Download

/-! Files that a plain node uploads and downloads again. As long as all it looks for is in its own
store, Download asks no other node. -/
namespace JobPortal.Sharing

open Hex Runs

section Pieces

variable {chunkSize : ℕ}

theorem flatten_cut (h : 1 ≤ chunkSize) {fuel : ℕ} {buf : Bytes} (hfuel : buf.length ≤ fuel) :
    (cut chunkSize fuel buf).flatten = buf := by
  induction fuel generalizing buf with
  | zero =>
    rw [List.length_eq_zero_iff.mp (Nat.le_zero.mp hfuel)]
    rfl
  | succ fuel ih =>
    rw [cut]
    split_ifs with hbuf
    · rw [hbuf]
      rfl
    · have hrest : (buf.drop chunkSize).length ≤ fuel := by
        rw [List.length_drop]
        omega
      rw [List.flatten_cons, ih hrest, List.take_append_drop]

theorem flatten_chunks (h : 1 ≤ chunkSize) (data : Bytes) : (chunks chunkSize data).flatten = data :=
  flatten_cut h le_rfl

theorem chunks_eq_nil_iff (h : 1 ≤ chunkSize) {data : Bytes} :
    chunks chunkSize data = [] ↔ data = [] := by
  constructor
  · intro hnil
    rw [← flatten_chunks h data, hnil]
    rfl
  · rintro rfl
    rfl

end Pieces

/-- What Download returns if all of it is in the store. -/
def downloadLocal (store : BlobStore) (metahash : Bytes) : Option Bytes :=
  (store.get metahash).bind fun metafile =>
    ((splitKeys metafile).mapM store.get).map List.flatten

namespace Sharer

variable (P : Primitives)

/-- The download gets to its end by looking into the store only, and returns the file. -/
def ReturnsLocally (s : Sharer) (file : Bytes) : Prop :=
  ∃ k t listing got, exec (step P) s (List.replicate k .get) = some t ∧
    t.download = .done listing got file

variable {P} {s : Sharer} {file : Bytes}

theorem returnsLocally_iff : s.ReturnsLocally P file ↔
    (∃ listing got, s.download = .done listing got file) ∨
      ∃ t, s.step P .get = some t ∧ t.ReturnsLocally P file := by
  constructor
  · rintro ⟨k, t, listing, got, hexec, hdone⟩
    cases k with
    | zero =>
      obtain rfl := Option.some.inj hexec
      exact .inl ⟨listing, got, hdone⟩
    | succ k =>
      obtain ⟨u, hu, hrest⟩ := Option.bind_eq_some_iff.mp hexec
      exact .inr ⟨u, hu, k, t, listing, got, hrest, hdone⟩
  · rintro (⟨listing, got, hdone⟩ | ⟨u, hu, k, t, listing, got, hrest, hdone⟩)
    · exact ⟨0, s, listing, got, rfl, hdone⟩
    · exact ⟨k + 1, t, listing, got, Option.bind_eq_some_iff.mpr ⟨u, hu, hrest⟩, hdone⟩

theorem not_returnsLocally_asking (key : Bytes)
    (h : s.download.fetching s.metahash = some (key, .asking)) : ¬ s.ReturnsLocally P file := by
  rw [returnsLocally_iff]
  rintro (⟨listing, got, hdone⟩ | ⟨t, ht, _⟩)
  · rw [hdone] at h
    cases h
  · simp only [step, h] at ht
    cases ht

/-- One key of a local download: the store has it or the download is not local. -/
theorem returnsLocally_looking (key : Bytes)
    (h : s.download.fetching s.metahash = some (key, .looking)) : s.ReturnsLocally P file ↔
      ∃ value, s.store.get key = some value ∧ (s.accept (some value)).ReturnsLocally P file := by
  have hnot : ¬ ∃ listing got, s.download = .done listing got file := by
    rintro ⟨listing, got, hdone⟩
    rw [hdone] at h
    cases h
  rw [returnsLocally_iff, or_iff_right hnot]
  simp only [step, h]
  cases hget : s.store.get key with
  | some value => simp
  | none =>
    simp only [Option.some.injEq, exists_eq_left', reduceCtorEq, false_and, exists_false, iff_false]
    refine not_returnsLocally_asking key ?_
    cases hdownload : s.download with
    | metafile fetch =>
      rw [hdownload] at h
      obtain ⟨rfl, _⟩ := Prod.mk.inj (Option.some.inj h)
      rw [goOn, hdownload]
      rfl
    | chunk p fetch =>
      rw [hdownload] at h
      obtain ⟨rfl, _⟩ := Prod.mk.inj (Option.some.inj h)
      rw [goOn, hdownload]
      rfl
    | failed | done =>
      rw [hdownload] at h
      cases h

theorem returnsLocally_chunk {p : Progress} (h : s.download = .chunk p .looking) :
    s.ReturnsLocally P file ↔ ∃ values, (p.key :: p.rest).mapM s.store.get = some values ∧
      p.file ++ values.flatten = file := by
  generalize hrest : p.rest = rest
  induction rest generalizing s p with
  | nil =>
    rw [returnsLocally_looking p.key (by rw [h]; rfl)]
    cases hget : s.store.get p.key with
    | none => simp [hget]
    | some value =>
      have hdone : (s.accept (some value)).download =
          .done p.metafile (p.got ++ [(p.key, some value)]) (p.file ++ value) := by
        simp only [accept, h, Download.accept, hrest, Option.getD_some]
      have hreturns : (s.accept (some value)).ReturnsLocally P file ↔ p.file ++ value = file := by
        rw [returnsLocally_iff, hdone]
        simp only [step, hdone, Download.fetching, reduceCtorEq, false_and, exists_false, or_false]
        constructor
        · rintro ⟨listing, got, heq⟩
          exact (Download.done.inj heq).2.2
        · rintro rfl
          exact ⟨_, _, rfl⟩
      simp [hget, hreturns]
  | cons key rest ih =>
    rw [returnsLocally_looking p.key (by rw [h]; rfl), List.mapM_cons]
    cases hget : s.store.get p.key with
    | none => simp
    | some value =>
      have hnext : (s.accept (some value)).download =
          .chunk ⟨p.metafile, p.got ++ [(p.key, some value)], p.file ++ value, key, rest⟩
            .looking := by
        simp only [accept, h, Download.accept, hrest, Option.getD_some]
      have hstore : (s.accept (some value)).store = s.store := rfl
      have hreturns := ih hnext rfl
      rw [hstore] at hreturns
      simp only [Option.some.injEq, exists_eq_left', hreturns]
      cases hvalues : (key :: rest).mapM s.store.get with
      | none => simp
      | some values => simp [List.append_assoc]

/-- A download is local exactly if the metafile and all it lists are in the store. -/
theorem returnsLocally_iff_downloadLocal (h : s.download = .metafile .looking) :
    s.ReturnsLocally P file ↔ downloadLocal s.store s.metahash = some file := by
  rw [returnsLocally_looking s.metahash (by rw [h]; rfl), downloadLocal,
    Option.bind_eq_some_iff]
  refine exists_congr fun metafile => and_congr_right fun _ => ?_
  obtain ⟨key, rest, hsplit⟩ := List.exists_cons_of_ne_nil (Download.splitKeys_ne_nil metafile)
  have hnext : (s.accept (some metafile)).download =
      .chunk ⟨some metafile, [], [], key, rest⟩ .looking := by
    simp only [accept, h, Download.accept, Option.getD_some, hsplit]
  rw [returnsLocally_chunk hnext, hsplit, Option.map_eq_some_iff]
  rfl

end Sharer

end JobPortal.Sharing
