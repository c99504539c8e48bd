import Mathlib.Data.Finmap
import Mathlib.Data.List.ReduceOption

/-! Walks along the links of a finite store. What is visited is taken out, a link to nothing leads
on to one fixed key, and the walk is over once the store is empty. -/
namespace JobPortal.StoreWalks

variable {K B : Type*} [DecidableEq K] (next : B → K) (dead : K)

/-- What is visited from a key on, `none` where nothing is found. -/
def walk : ℕ → K → (Finmap fun _ : K => B) → Option (List (Option B))
  | 0, _, _ => none
  | fuel + 1, key, store =>
    if store.keys.card = 0 then some []
    else
      match store.lookup key with
      | some b => (walk fuel (next b) (store.erase key)).map (some b :: ·)
      | none => (walk fuel dead store).map (none :: ·)

/-- The entries of a path, each found under the link of the one before it, or under the fixed key
after a link to nothing. -/
inductive Follows : K → List (K × B) → Prop
  | nil {key : K} : Follows key []
  | link {key : K} {b : B} {path : List (K × B)} (rest : Follows (next b) path) :
      Follows key ((key, b) :: path)
  | gap {key : K} {b : B} {path : List (K × B)} (missing : key ∉ dead :: path.map Prod.fst)
      (rest : Follows (next b) path) : Follows key ((dead, b) :: path)

structure Lists (store : Finmap fun _ : K => B) (path : List (K × B)) : Prop where
  nodup : (path.map Prod.fst).Nodup
  mem : ∀ key b, store.lookup key = some b ↔ (key, b) ∈ path

def Links (next : B → K) : K → List (K × B) → Prop
  | _, [] => True
  | key, (key', b) :: path => key' = key ∧ Links next (next b) path

variable {next dead} {store : Finmap fun _ : K => B} {path : List (K × B)} {key : K} {b : B}

theorem card_keys_eq_zero : store.keys.card = 0 ↔ ∀ key, store.lookup key = none := by
  rw [Finset.card_eq_zero, Finset.eq_empty_iff_forall_notMem]
  exact forall_congr' fun key => by rw [Finmap.mem_keys, Finmap.lookup_eq_none]

theorem lists_nil_iff : Lists store [] ↔ store.keys.card = 0 := by
  rw [card_keys_eq_zero]
  constructor
  · intro h key
    exact Option.eq_none_iff_forall_ne_some.mpr fun b hb => by simpa using (h.mem key b).mp hb
  · intro h
    exact ⟨List.nodup_nil, fun key b => by simp [h key]⟩

theorem lists_cons_iff (hkey : store.lookup key = some b) :
    Lists store ((key, b) :: path) ↔ key ∉ path.map Prod.fst ∧ Lists (store.erase key) path := by
  have herase : ∀ key', key' ≠ key → (store.erase key).lookup key' = store.lookup key' :=
    fun key' hne => Finmap.lookup_erase_ne hne
  constructor
  · intro h
    obtain ⟨hnot, hnodup⟩ := List.nodup_cons.mp h.nodup
    refine ⟨hnot, hnodup, fun key' c => ?_⟩
    by_cases heq : key' = key
    · subst heq
      rw [Finmap.lookup_erase]
      exact iff_of_false nofun fun hmem => hnot (List.mem_map.mpr ⟨_, hmem, rfl⟩)
    · rw [herase key' heq, h.mem, List.mem_cons, or_iff_right]
      exact fun hpair => heq (Prod.mk.inj hpair).1
  · rintro ⟨hnot, h⟩
    refine ⟨List.nodup_cons.mpr ⟨hnot, h.nodup⟩, fun key' c => ?_⟩
    rw [List.mem_cons, Prod.mk.injEq]
    by_cases heq : key' = key
    · subst heq
      have hgone : (key', c) ∉ path := fun hmem => hnot (List.mem_map.mpr ⟨_, hmem, rfl⟩)
      rw [hkey, or_iff_left hgone, Option.some.injEq, eq_comm, and_iff_right rfl]
    · rw [← herase key' heq, h.mem, or_iff_right fun hpair => heq hpair.1]

theorem Lists.lookup_head (h : Lists store ((key, b) :: path)) : store.lookup key = some b :=
  (h.mem key b).mpr List.mem_cons_self

theorem Lists.card_keys (h : Lists store path) : store.keys.card = path.length := by
  have hkeys : store.keys = (path.map Prod.fst).toFinset := by
    ext key
    rw [Finmap.mem_keys, ← Finmap.lookup_isSome, Option.isSome_iff_exists, List.mem_toFinset,
      List.mem_map]
    constructor
    · rintro ⟨b, hb⟩
      exact ⟨(key, b), (h.mem key b).mp hb, rfl⟩
    · rintro ⟨⟨_, b⟩, hmem, rfl⟩
      exact ⟨b, (h.mem _ b).mpr hmem⟩
  rw [hkeys, List.toFinset_card_of_nodup h.nodup, List.length_map]

theorem walk_of_empty (hempty : store.keys.card = 0) {fuel : ℕ} {visits : List (Option B)}
    (h : walk next dead fuel key store = some visits) : visits = [] := by
  cases fuel with
  | zero => cases h
  | succ fuel =>
    rw [walk, if_pos hempty] at h
    exact (Option.some.inj h).symm

theorem walk_of_found (hne : store.keys.card ≠ 0) (hfound : store.lookup key = some b) (fuel : ℕ) :
    walk next dead (fuel + 1) key store =
      (walk next dead fuel (next b) (store.erase key)).map (some b :: ·) := by
  simp only [walk, if_neg hne, hfound]

theorem walk_of_missing (hne : store.keys.card ≠ 0) (hmissing : store.lookup key = none)
    (fuel : ℕ) :
    walk next dead (fuel + 1) key store = (walk next dead fuel dead store).map (none :: ·) := by
  simp only [walk, if_neg hne, hmissing]

/-- A walk that ends has gone along a path through the whole store. -/
theorem lists_of_walk {fuel : ℕ} {visits : List (Option B)}
    (h : walk next dead fuel key store = some visits) :
    ∃ path, Lists store path ∧ Follows next dead key path ∧
      visits.reduceOption = path.map Prod.snd := by
  induction fuel generalizing key store visits with
  | zero => cases h
  | succ fuel ih =>
    rw [walk] at h
    split_ifs at h with hempty
    · obtain rfl := Option.some.inj h
      exact ⟨[], lists_nil_iff.mpr hempty, .nil, rfl⟩
    · split at h
      · rename_i b hfound
        obtain ⟨rest, hrest, rfl⟩ := Option.map_eq_some_iff.mp h
        obtain ⟨path, hlists, hfollows, hvisits⟩ := ih hrest
        refine ⟨(key, b) :: path, (lists_cons_iff hfound).mpr ⟨fun hmem => ?_, hlists⟩,
          .link hfollows, ?_⟩
        · obtain ⟨⟨_, c⟩, hc, rfl⟩ := List.mem_map.mp hmem
          have := (hlists.mem _ c).mpr hc
          rw [Finmap.lookup_erase] at this
          cases this
        · rw [List.reduceOption_cons_of_some, hvisits, List.map_cons]
      · rename_i hmissing
        obtain ⟨rest, hrest, rfl⟩ := Option.map_eq_some_iff.mp h
        obtain ⟨path, hlists, hfollows, hvisits⟩ := ih hrest
        have hkey : key ∉ path.map Prod.fst := by
          intro hmem
          obtain ⟨⟨_, c⟩, hc, rfl⟩ := List.mem_map.mp hmem
          rw [(hlists.mem _ c).mpr hc] at hmissing
          cases hmissing
        rw [List.reduceOption_cons_of_none]
        cases hfollows with
        | nil => exact absurd (lists_nil_iff.mp hlists) hempty
        | link hnext => exact ⟨_, hlists, .gap hkey hnext, hvisits⟩
        | gap hdead _ => exact absurd List.mem_cons_self hdead

/-- Along a path through the whole store the walk comes to its end. -/
theorem Follows.walk (h : Follows next dead key path) (hlists : Lists store path) :
    ∃ fuel visits, StoreWalks.walk next dead fuel key store = some visits ∧
      visits.reduceOption = path.map Prod.snd := by
  induction h generalizing store with
  | nil => exact ⟨1, [], by rw [StoreWalks.walk, if_pos (lists_nil_iff.mp hlists)], rfl⟩
  | @link key b path _ ih =>
    have hfound := hlists.lookup_head
    have hne : store.keys.card ≠ 0 := by rw [hlists.card_keys]; exact Nat.succ_ne_zero _
    obtain ⟨fuel, visits, hwalk, hvisits⟩ := ih ((lists_cons_iff hfound).mp hlists).2
    refine ⟨fuel + 1, some b :: visits, ?_, ?_⟩
    · rw [walk_of_found hne hfound, hwalk, Option.map_some]
    · rw [List.reduceOption_cons_of_some, hvisits, List.map_cons]
  | @gap key b path missing _ ih =>
    have hfound := hlists.lookup_head
    have hne : store.keys.card ≠ 0 := by rw [hlists.card_keys]; exact Nat.succ_ne_zero _
    have hmissing : store.lookup key = none := by
      refine Option.eq_none_iff_forall_ne_some.mpr fun c hc => missing ?_
      have hin := (hlists.mem key c).mp hc
      exact List.mem_map_of_mem (f := Prod.fst) hin
    obtain ⟨fuel, visits, hwalk, hvisits⟩ := ih ((lists_cons_iff hfound).mp hlists).2
    refine ⟨fuel + 2, none :: some b :: visits, ?_, ?_⟩
    · rw [walk_of_missing hne hmissing, walk_of_found hne hfound, hwalk, Option.map_some,
        Option.map_some]
    · rw [List.reduceOption_cons_of_none, List.reduceOption_cons_of_some, hvisits, List.map_cons]

/-- Where no link is missing, the path itself is visited. -/
theorem Links.walk (h : Links next key path) (hlists : Lists store path) :
    StoreWalks.walk next dead (path.length + 1) key store = some (path.map fun e => some e.2) := by
  induction path generalizing key store with
  | nil => rw [List.length_nil, StoreWalks.walk, if_pos (lists_nil_iff.mp hlists), List.map_nil]
  | cons e path ih =>
    obtain ⟨key', b⟩ := e
    obtain ⟨rfl, hrest⟩ := h
    have hfound := hlists.lookup_head
    have hne : store.keys.card ≠ 0 := by rw [hlists.card_keys]; exact Nat.succ_ne_zero _
    rw [walk_of_found hne hfound, List.length_cons, List.map_cons,
      ih hrest ((lists_cons_iff hfound).mp hlists).2, Option.map_some]

end JobPortal.StoreWalks
