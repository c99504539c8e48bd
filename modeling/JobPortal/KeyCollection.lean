import JobPortal.Goroutines
import JobPortal.SafeTables

/-! The public keys that a cothority node collects before it starts the key generation. Every
message is handled in a goroutine of its own. -/
namespace JobPortal.Cothority

open Goroutines Hex Runs

structure PubKeyMessage where
  index : ℕ
  pubKey : Bytes
  deriving DecidableEq, Repr

inductive PubKeyPC
  | received
  | checked
  | stored
  | finished
  deriving DecidableEq, Repr

/-- The goroutine may still come to `GetKeys`. -/
def PubKeyPC.Live (pc : PubKeyPC) : Prop := pc = .checked ∨ pc = .stored

instance : DecidablePred PubKeyPC.Live := fun pc =>
  inferInstanceAs (Decidable (pc = .checked ∨ pc = .stored))

/-- The keys, with the goroutines that bring them. `received` are the keys in the order in which
they come to the table, and `inits` what `initDKG` was started with. -/
structure KeyCollection (E : Type) where
  pubKeyTable : SafePubKeyTable E
  dkgDone : Bool := false
  tasks : List (PubKeyMessage × PubKeyPC) := []
  received : List (ℕ × E) := []
  inits : List (List (Option E)) := []

inductive KeyEvent
  /-- `ExecPubKeyMessage`. -/
  | receive (m : PubKeyMessage)
  | check (j : ℕ)
  | set (j : ℕ)
  | getKeys (j : ℕ)
  /-- `CheckCertified` is done. -/
  | dkgDone
  deriving DecidableEq, Repr

namespace KeyCollection

variable {E : Type} (unmarshal : Bytes → E)

def newKeyCollection (num : ℕ) : KeyCollection E := { pubKeyTable := .newSafePubKeyTable num }

def act (s : KeyCollection E) : KeyEvent → Turn (KeyCollection E)
  | .receive m => .done { s with tasks := s.tasks ++ [(m, .received)] }
  | .check j =>
    match s.tasks[j]? with
    | some (m, .received) =>
      .done { s with tasks := s.tasks.set j (m, if s.dkgDone then .finished else .checked) }
    | _ => .blocked
  | .set j =>
    match s.tasks[j]? with
    | some (m, .checked) =>
      (Turn.orPanic (s.pubKeyTable.set m.index (unmarshal m.pubKey))).map fun table =>
        { s with
          pubKeyTable := table
          tasks := s.tasks.set j (m, .stored)
          received := s.received ++ [(m.index, unmarshal m.pubKey)] }
    | _ => .blocked
  | .getKeys j =>
    match s.tasks[j]? with
    | some (m, .stored) =>
      .done { s with
        tasks := s.tasks.set j (m, .finished)
        inits := s.inits ++ s.pubKeyTable.getKeys.toList }
    | _ => .blocked
  | .dkgDone => if s.inits = [] then .blocked else .done { s with dkgDone := true }

def step (s : KeyCollection E) (e : KeyEvent) : Option (KeyCollection E) :=
  (s.act unmarshal e).toOption

/-- The messages are for nodes below `num`. -/
def InRange (num : ℕ) (_ : KeyCollection E) : KeyEvent → Prop
  | .receive m => m.index < num
  | _ => True

instance (num : ℕ) (s : KeyCollection E) : DecidablePred (InRange num s)
  | .receive m => inferInstanceAs (Decidable (m.index < num))
  | .check _ | .set _ | .getKeys _ | .dkgDone => .isTrue trivial

def firstKey (received : List (ℕ × E)) (i : ℕ) : Option E :=
  (received.find? (·.1 = i)).map (·.2)

def Full (s : KeyCollection E) : Prop := s.pubKeyTable.keyTable.keys.card = s.pubKeyTable.num

instance (s : KeyCollection E) : Decidable s.Full := inferInstanceAs (Decidable (_ = _))

/-- The key of the last index is stored while no other goroutine may still come to `GetKeys`, and
from then on every other one finds the key generation done. -/
def Alone (s : KeyCollection E) : KeyEvent → Prop
  | .check _ => s.Full → s.dkgDone = true
  | .set j => ∀ m, s.tasks[j]? = some (m, .checked) → m.index ∉ s.pubKeyTable.keyTable →
      s.pubKeyTable.keyTable.keys.card + 1 = s.pubKeyTable.num →
        ∀ (k : ℕ) (task : PubKeyMessage × PubKeyPC), s.tasks[k]? = some task → k ≠ j →
          ¬ task.2.Live
  | _ => True

def liveWeight (task : PubKeyMessage × PubKeyPC) : ℕ := if task.2.Live then 1 else 0

def live (s : KeyCollection E) : ℕ := work liveWeight s.tasks

variable {unmarshal} {num : ℕ} {s t : KeyCollection E} {e : KeyEvent} {es : List KeyEvent}

inductive Effect (unmarshal : Bytes → E) (s : KeyCollection E) :
    KeyEvent → KeyCollection E → Prop
  | receive (m : PubKeyMessage) :
      Effect unmarshal s (.receive m) { s with tasks := s.tasks ++ [(m, .received)] }
  | check {j : ℕ} {m : PubKeyMessage} (hj : s.tasks[j]? = some (m, .received)) :
      Effect unmarshal s (.check j)
        { s with tasks := s.tasks.set j (m, if s.dkgDone then .finished else .checked) }
  | set {j : ℕ} {m : PubKeyMessage} {table : SafePubKeyTable E}
      (hj : s.tasks[j]? = some (m, .checked))
      (htable : s.pubKeyTable.set m.index (unmarshal m.pubKey) = some table) :
      Effect unmarshal s (.set j) { s with
        pubKeyTable := table
        tasks := s.tasks.set j (m, .stored)
        received := s.received ++ [(m.index, unmarshal m.pubKey)] }
  | getKeys {j : ℕ} {m : PubKeyMessage} (hj : s.tasks[j]? = some (m, .stored)) :
      Effect unmarshal s (.getKeys j) { s with
        tasks := s.tasks.set j (m, .finished)
        inits := s.inits ++ s.pubKeyTable.getKeys.toList }
  | dkgDone (hinits : s.inits ≠ []) : Effect unmarshal s .dkgDone { s with dkgDone := true }

theorem step_effect (h : s.step unmarshal e = some t) : s.Effect unmarshal e t := by
  have hact := Turn.toOption_eq_some.mp h
  cases e with
  | receive m =>
    cases hact
    exact .receive m
  | check j =>
    simp only [act] at hact
    split at hact
    · rename_i m hj
      cases hact
      exact .check hj
    · cases hact
  | set j =>
    simp only [act] at hact
    split at hact
    · rename_i m hj
      obtain ⟨table, htable, rfl⟩ := Turn.map_eq_done.mp hact
      exact .set hj (Turn.orPanic_eq_done.mp htable)
    · cases hact
  | getKeys j =>
    simp only [act] at hact
    split at hact
    · rename_i m hj
      cases hact
      exact .getKeys hj
    · cases hact
  | dkgDone =>
    simp only [act] at hact
    split_ifs at hact with hinits
    cases hact
    exact .dkgDone hinits

theorem liveWeight_of_live {task : PubKeyMessage × PubKeyPC} (h : task.2.Live) :
    liveWeight task = 1 := if_pos h

theorem liveWeight_eq_zero {task : PubKeyMessage × PubKeyPC} :
    liveWeight task = 0 ↔ ¬ task.2.Live := by
  simp [liveWeight]

theorem firstKey_concat (received : List (ℕ × E)) (index : ℕ) (key : E) (i : ℕ) :
    firstKey (received ++ [(index, key)]) i =
      (firstKey received i).or (if index = i then some key else none) := by
  unfold firstKey
  rw [List.find?_append, Option.map_or]
  congr 1
  by_cases h : index = i <;> simp [h]

/-- What the goroutines have brought together so far. -/
structure Gathered (num : ℕ) (s : KeyCollection E) : Prop where
  size : s.pubKeyTable.num = num
  tasks : ∀ task ∈ s.tasks, task.1.index < num
  inRange : ∀ i ∈ s.pubKeyTable.keyTable.keys, i < num
  first : ∀ i, s.pubKeyTable.keyTable.lookup i = firstKey s.received i
  keys : s.pubKeyTable.keys = if s.Full then (List.range num).map s.pubKeyTable.keyTable.lookup
    else List.replicate num none
  inits : ∀ keys ∈ s.inits, s.Full ∧ keys = s.pubKeyTable.keys
  done : s.dkgDone = true → s.Full
  stored : ∀ task ∈ s.tasks, task.2 = .stored ∨ task.2 = .finished →
    task.1.index ∈ s.pubKeyTable.keyTable ∨ s.Full

theorem gathered_new (num : ℕ) : (newKeyCollection (E := E) num).Gathered num where
  size := rfl
  tasks _ h := by cases h
  inRange i h := by cases h
  first i := Finmap.lookup_empty i
  keys := by
    split_ifs with h
    · obtain rfl : 0 = num := h
      rfl
    · rfl
  inits _ h := by cases h
  done h := by cases h
  stored _ h := by cases h

theorem Gathered.mem_of_full (hs : s.Gathered num) (hfull : s.Full) {i : ℕ} (hi : i < num) :
    i ∈ s.pubKeyTable.keyTable := by
  have hsub : s.pubKeyTable.keyTable.keys ⊆ Finset.range num := fun j hj =>
    Finset.mem_range.mpr (hs.inRange j hj)
  have hcard : (Finset.range num).card ≤ s.pubKeyTable.keyTable.keys.card := by
    rw [Finset.card_range, hfull, hs.size]
  have heq := Finset.eq_of_subset_of_card_le hsub hcard
  rw [← Finmap.mem_keys, heq]
  exact Finset.mem_range.mpr hi

/-- A goroutine goes on without touching the table. -/
theorem Gathered.move (hs : s.Gathered num) {j : ℕ} {m : PubKeyMessage} {pc : PubKeyPC}
    (pc' : PubKeyPC) (hj : s.tasks[j]? = some (m, pc)) (hpc : pc' = .stored ∨ pc' = .finished →
      m.index ∈ s.pubKeyTable.keyTable ∨ s.Full) :
    ({ s with tasks := s.tasks.set j (m, pc') } : KeyCollection E).Gathered num := by
  refine { hs with tasks := ?_, stored := ?_ }
  · intro task htask
    rcases List.mem_or_eq_of_mem_set htask with htask | rfl
    · exact hs.tasks task htask
    · exact hs.tasks (m, pc) (List.mem_of_getElem? hj)
  · intro task htask
    rcases List.mem_or_eq_of_mem_set htask with htask | rfl
    · exact hs.stored task htask
    · exact hpc

theorem firstKey_concat_of_mem (hs : s.Gathered num) {index : ℕ}
    (hmem : index ∈ s.pubKeyTable.keyTable) (key : E) (i : ℕ) :
    firstKey (s.received ++ [(index, key)]) i = firstKey s.received i := by
  rw [firstKey_concat]
  split_ifs with hi
  · subst hi
    obtain ⟨old, hold⟩ := Finmap.mem_iff.mp hmem
    rw [← hs.first, hold, Option.some_or]
  · exact Option.or_none

theorem Gathered.set (hs : s.Gathered num) {j : ℕ} {m : PubKeyMessage}
    (hj : s.tasks[j]? = some (m, .checked)) {table : SafePubKeyTable E}
    (h : s.pubKeyTable.set m.index (unmarshal m.pubKey) = some table) :
    ({ s with
      pubKeyTable := table
      tasks := s.tasks.set j (m, .stored)
      received := s.received ++ [(m.index, unmarshal m.pubKey)] } :
        KeyCollection E).Gathered num := by
  have hm : m.index < num := hs.tasks (m, .checked) (List.mem_of_getElem? hj)
  obtain ⟨hmem, rfl⟩ | ⟨hnew, hnum, htable, hkeys⟩ := SafePubKeyTable.set_cases h
  · have hmoved := hs.move .stored hj fun _ => .inl hmem
    refine { hmoved with first := fun i => ?_ }
    dsimp only
    rw [firstKey_concat_of_mem hs hmem, hs.first]
  · have hopen : ¬ s.Full := fun hfull => hnew (hs.mem_of_full hfull hm)
    have hrange : ∀ i ∈ table.keyTable.keys, i < num := by
      intro i hi
      rw [htable, keys_insert] at hi
      rcases Finset.mem_insert.mp hi with rfl | hi
      · exact hm
      · exact hs.inRange i hi
    refine
      { size := hnum.trans hs.size
        tasks := ?_
        inRange := hrange
        first := fun i => ?_
        keys := ?_
        inits := fun keys hk => absurd (hs.inits keys hk).1 hopen
        done := fun hdone => absurd (hs.done hdone) hopen
        stored := ?_ }
    · intro task htask
      rcases List.mem_or_eq_of_mem_set htask with htask | rfl
      · exact hs.tasks task htask
      · exact hm
    · dsimp only
      rw [htable, firstKey_concat, ← hs.first]
      by_cases hi : i = m.index
      · subst hi
        rw [Finmap.lookup_insert, if_pos rfl, Finmap.lookup_eq_none.mpr hnew, Option.none_or]
      · rw [Finmap.lookup_insert_of_ne _ hi, if_neg (Ne.symm hi), Option.or_none]
    · change table.keys = if table.keyTable.keys.card = table.num then _ else _
      have hold := hs.keys
      rw [if_neg hopen] at hold
      rw [hnum]
      rcases hkeys with ⟨hcard, hsame⟩ | ⟨hcard, hfill⟩
      · rw [if_neg hcard, hsame, hold]
      · rw [hold, fill_replicate _ hrange] at hfill
        rw [if_pos hcard, ← Option.some.inj hfill]
        exact List.map_congr_left fun i _ => Option.map_id'
    · intro task htask hpc
      left
      change task.1.index ∈ table.keyTable
      rw [htable, Finmap.mem_insert]
      rcases List.mem_or_eq_of_mem_set htask with htask | rfl
      · exact .inr ((hs.stored task htask hpc).resolve_right hopen)
      · exact .inl rfl

theorem Gathered.step (hs : s.Gathered num) (he : InRange num s e)
    (h : s.step unmarshal e = some t) : t.Gathered num := by
  cases step_effect h with
  | receive m =>
    refine { hs with tasks := ?_, stored := ?_ }
    · intro task htask
      rcases List.mem_append.mp htask with htask | htask
      · exact hs.tasks task htask
      · obtain rfl := List.mem_singleton.mp htask
        exact he
    · intro task htask hpc
      rcases List.mem_append.mp htask with htask | htask
      · exact hs.stored task htask hpc
      · obtain rfl := List.mem_singleton.mp htask
        simp at hpc
  | check hj =>
    apply hs.move _ hj
    intro hpc
    split_ifs at hpc with hdone
    · exact .inr (hs.done hdone)
    · simp at hpc
  | set hj htable => exact hs.set hj htable
  | getKeys hj =>
    have hstored := hs.stored _ (List.mem_of_getElem? hj) (.inl rfl)
    have hmoved := hs.move .finished hj fun _ => hstored
    refine { hmoved with inits := ?_ }
    intro keys hkeys
    rcases List.mem_append.mp hkeys with hkeys | hkeys
    · exact hs.inits keys hkeys
    · rw [Option.mem_toList, SafePubKeyTable.getKeys] at hkeys
      split_ifs at hkeys with hfull
      exact ⟨hfull, (Option.some.inj hkeys).symm⟩
  | dkgDone hinits =>
    obtain ⟨keys, hkeys⟩ := List.exists_mem_of_ne_nil _ hinits
    exact { hs with done := fun _ => (hs.inits keys hkeys).1 }

/-- A goroutine that reads the flag too early is one more that comes to `GetKeys`. -/
def late (s : KeyCollection E) : KeyEvent → ℕ
  | .check _ => if s.dkgDone then 0 else 1
  | _ => 0

/-- Once the table is full every goroutine that is still on its way starts the key generation. -/
theorem Gathered.total_of_full (hs : s.Gathered num) (hfull : s.Full)
    (h : s.step unmarshal e = some t) :
    t.Full ∧ t.inits.length + t.live = s.inits.length + s.live + s.late e := by
  cases step_effect h with
  | receive m =>
    refine ⟨hfull, ?_⟩
    simp only [live, late, work_append]
    rfl
  | @check j m hj =>
    refine ⟨hfull, ?_⟩
    have hset := work_set liveWeight hj (m, if s.dkgDone then PubKeyPC.finished else .checked)
    simp only [live, late]
    cases hdone : s.dkgDone <;> simp [hdone, liveWeight, PubKeyPC.Live] at hset ⊢ <;> omega
  | @set j m table hj htable =>
    have hm := hs.tasks (m, .checked) (List.mem_of_getElem? hj)
    have hset := work_set liveWeight hj (m, PubKeyPC.stored)
    obtain ⟨_, rfl⟩ | ⟨hnew, _⟩ := SafePubKeyTable.set_cases htable
    · refine ⟨hfull, ?_⟩
      simp [live, late, liveWeight, PubKeyPC.Live] at hset ⊢
      omega
    · exact absurd (hs.mem_of_full hfull hm) hnew
  | @getKeys j m hj =>
    refine ⟨hfull, ?_⟩
    have hset := work_set liveWeight hj (m, PubKeyPC.finished)
    have hkeys : s.pubKeyTable.getKeys = some s.pubKeyTable.keys := if_pos hfull
    simp [live, late, liveWeight, PubKeyPC.Live, hkeys] at hset ⊢
    omega
  | dkgDone => exact ⟨hfull, rfl⟩

def Completes (s : KeyCollection E) (j : ℕ) : Prop :=
  ∃ m, s.tasks[j]? = some (m, .checked) ∧ m.index ∉ s.pubKeyTable.keyTable ∧
    s.pubKeyTable.keyTable.keys.card + 1 = s.pubKeyTable.num

theorem Gathered.total_of_open (hs : s.Gathered num) (hopen : ¬ s.Full)
    (h : s.step unmarshal e = some t) :
    (¬ t.Full ∧ ∀ j, e = .set j → ¬ s.Completes j) ∨
      (t.Full ∧ t.inits = [] ∧ t.live = s.live ∧ ∃ j, e = .set j ∧ s.Completes j) := by
  cases step_effect h with
  | @set j m table hj htable =>
    have hsame : ∀ m', s.tasks[j]? = some (m', .checked) → m' = m := by
      intro m' hm'
      rw [hj] at hm'
      exact (congrArg Prod.fst (Option.some.inj hm')).symm
    obtain ⟨hmem, rfl⟩ | ⟨hnew, hnum, hkeyTable, _⟩ := SafePubKeyTable.set_cases htable
    · refine .inl ⟨hopen, ?_⟩
      rintro _ ⟨⟩ ⟨m', hm', hnew, _⟩
      exact hnew (hsame m' hm' ▸ hmem)
    · have hone := card_keys_insert hnew (unmarshal m.pubKey)
      by_cases hfull : s.pubKeyTable.keyTable.keys.card + 1 = s.pubKeyTable.num
      · right
        refine ⟨?_, ?_, ?_, j, rfl, m, hj, hnew, hfull⟩
        · rw [Full, hkeyTable, hone, hnum, hfull]
        · exact List.eq_nil_iff_forall_not_mem.mpr fun keys hkeys =>
            hopen (hs.inits keys hkeys).1
        · have hset := work_set liveWeight hj (m, PubKeyPC.stored)
          simp [live, liveWeight, PubKeyPC.Live] at hset ⊢
          omega
      · refine .inl ⟨?_, ?_⟩
        · rw [Full, hkeyTable, hone, hnum]
          exact hfull
        · rintro _ ⟨⟩ ⟨m', _, _, hfull'⟩
          exact hfull hfull'
  | receive | check | getKeys | dkgDone => exact .inl ⟨hopen, nofun⟩

def Once (s : KeyCollection E) : Prop := s.Full → s.inits.length + s.live = 1

theorem Completes.live_eq_one_iff {j : ℕ} (h : s.Completes j) :
    s.live = 1 ↔ s.Alone (.set j) := by
  obtain ⟨m, hj, hnew, hcard⟩ := h
  have hwork := work_eq_iff liveWeight hj
  rw [liveWeight_of_live (.inl rfl)] at hwork
  rw [live, hwork]
  constructor
  · intro hothers m' _ _ _ k task hk hne hlive
    exact liveWeight_eq_zero.mp (hothers k task hk hne) hlive
  · intro halone k task hk hne
    exact liveWeight_eq_zero.mpr (halone m hj hnew hcard k task hk hne)

theorem Completes.one_le_live {j : ℕ} (h : s.Completes j) : 1 ≤ s.live := by
  obtain ⟨m, hj, _, _⟩ := h
  have herase := work_eraseIdx liveWeight hj
  rw [liveWeight_of_live (.inl rfl)] at herase
  rw [live]
  omega

/-- The table is gathered, and once it is full there is a goroutine that starts the key
generation. -/
structure Started (num : ℕ) (s : KeyCollection E) : Prop extends Gathered num s where
  started : s.Full → 1 ≤ s.inits.length + s.live

theorem Started.step (hs : s.Started num) (he : InRange num s e)
    (h : s.step unmarshal e = some t) : t.Started num := by
  refine ⟨hs.toGathered.step he h, fun hfull' => ?_⟩
  by_cases hfull : s.Full
  · obtain ⟨_, htotal⟩ := hs.total_of_full hfull h
    have hone := hs.started hfull
    omega
  · obtain ⟨hopen, _⟩ | ⟨_, _, hlive, j, rfl, hcompletes⟩ := hs.total_of_open hfull h
    · exact absurd hfull' hopen
    · have hone := hcompletes.one_le_live
      omega

theorem alone_iff_late (hfull : s.Full) (e : KeyEvent) : s.Alone e ↔ s.late e = 0 := by
  cases e with
  | check j =>
    simp only [Alone, late]
    cases s.dkgDone <;> simp [hfull]
  | set j =>
    refine iff_of_true (fun m _ _ hcard => ?_) rfl
    rw [hfull] at hcard
    omega
  | receive | getKeys | dkgDone => exact iff_of_true trivial rfl

theorem alone_of_open (hopen : ¬ s.Full) (h : ∀ j, e = .set j → ¬ s.Completes j) :
    s.Alone e := by
  cases e with
  | check j => exact fun hfull => absurd hfull hopen
  | set j => exact fun m hj hnew hcard => absurd ⟨m, hj, hnew, hcard⟩ (h j rfl)
  | receive | getKeys | dkgDone => trivial

/-- What a step has to do with the key generation being started once. -/
theorem Started.once_iff (hs : s.Started num) (h : s.step unmarshal e = some t) :
    t.Once ↔ s.Once ∧ s.Alone e := by
  by_cases hfull : s.Full
  · obtain ⟨hfull', htotal⟩ := hs.total_of_full hfull h
    have hone := hs.started hfull
    rw [alone_iff_late hfull, Once, Once, htotal]
    constructor
    · intro honce
      have honce := honce hfull'
      exact ⟨fun _ => by omega, by omega⟩
    · rintro ⟨honce, hlate⟩ _
      rw [honce hfull, hlate]
  · have honce : s.Once := fun h => absurd h hfull
    obtain ⟨hopen', hnot⟩ | ⟨hfull', hinits, hlive, j, rfl, hcompletes⟩ :=
      hs.total_of_open hfull h
    · exact iff_of_true (fun h => absurd h hopen') ⟨honce, alone_of_open hfull hnot⟩
    · rw [← hcompletes.live_eq_one_iff, Once, hinits, hlive, List.length_nil, Nat.zero_add]
      exact ⟨fun h => ⟨honce, h hfull'⟩, fun h _ => h.2⟩

theorem started_new (hnum : 0 < num) : (newKeyCollection (E := E) num).Started num := by
  refine ⟨gathered_new num, fun hfull => ?_⟩
  have hzero : 0 = num := hfull
  omega

/-- Where every index came in and every goroutine is done, the table is full. -/
theorem Gathered.full_of_done (hs : s.Gathered num)
    (hdone : ∀ task ∈ s.tasks, task.2 = .finished)
    (hall : ∀ i < num, ∃ task ∈ s.tasks, task.1.index = i) : s.Full := by
  by_contra hopen
  have hsub : Finset.range num ⊆ s.pubKeyTable.keyTable.keys := by
    intro i hi
    obtain ⟨task, htask, rfl⟩ := hall i (Finset.mem_range.mp hi)
    rw [Finmap.mem_keys]
    exact (hs.stored task htask (.inr (hdone task htask))).resolve_right hopen
  have hle := Finset.card_le_card hsub
  have hge := Finset.card_le_card fun i hi => Finset.mem_range.mpr (hs.inRange i hi)
  rw [Finset.card_range] at hle hge
  exact hopen ((Nat.le_antisymm hge hle).trans hs.size.symm)

theorem Gathered.inits_of_zero (hs : s.Gathered 0) (hnil : s.inits = [])
    (h : s.step unmarshal e = some t) : t.inits = [] := by
  cases step_effect h with
  | @getKeys j m hj =>
    exact absurd (hs.tasks (m, .stored) (List.mem_of_getElem? hj)) (Nat.not_lt_zero _)
  | receive | check | set | dkgDone => exact hnil

/-- Once every index has come in and every goroutine is done, the key generation was started exactly
once, with the first key of each node, if and only if the last key came alone. -/
theorem initDKG_once_iff
    (h : Run (step unmarshal) (InRange num) (newKeyCollection num) es s)
    (hdone : ∀ task ∈ s.tasks, task.2 = .finished)
    (hall : ∀ i < num, ∃ task ∈ s.tasks, task.1.index = i) :
    s.inits = [(List.range num).map (firstKey s.received)] ↔
      0 < num ∧ Run (step unmarshal) Alone (newKeyCollection num) es s := by
  have hgathered : s.Gathered num :=
    h.invariant (gathered_new num) fun hs he hstep => hs.step he hstep
  rcases Nat.eq_zero_or_pos num with rfl | hnum
  · have hnil : s.inits = [] := by
      have hrun := h.with_invariant (gathered_new 0) fun hs he hstep => hs.step he hstep
      exact hrun.invariant (I := fun s => s.inits = []) rfl fun hnil he hstep =>
        he.2.inits_of_zero hnil hstep
    rw [hnil]
    exact iff_of_false nofun fun h => Nat.lt_irrefl 0 h.1
  · have hfull := hgathered.full_of_done hdone hall
    have hlive : s.live = 0 := by
      rw [live, work_eq_zero]
      intro task htask
      rw [liveWeight_eq_zero, hdone task htask]
      decide
    have honce : s.Once ↔ Run (step unmarshal) Alone (newKeyCollection num) es s := by
      have hrun := h.with_invariant (started_new hnum) fun hs he hstep => hs.step he hstep
      apply holds_iff_run (I := Once) (J := fun _ => True) hrun trivial
      · exact fun hfull => absurd hfull hnum.ne
      · exact fun _ _ => trivial
      · exact fun he hstep _ => he.2.once_iff hstep
    have hkeys : ∀ keys ∈ s.inits, keys = (List.range num).map (firstKey s.received) := by
      intro keys hmem
      rw [(hgathered.inits keys hmem).2, hgathered.keys, if_pos hfull]
      exact List.map_congr_left fun i _ => hgathered.first i
    rw [← honce, Once, hlive, Nat.add_zero, and_iff_right hnum]
    constructor
    · intro heq _
      rw [heq]
      rfl
    · intro hlen
      obtain ⟨keys, heq⟩ := List.length_eq_one_iff.mp (hlen hfull)
      rw [heq, hkeys keys (heq ▸ List.mem_singleton_self keys)]

end KeyCollection

namespace Sample

def together : List KeyEvent :=
  [.receive ⟨0, [1]⟩, .receive ⟨1, [2]⟩, .check 0, .check 1, .set 0, .set 1, .getKeys 0, .getKeys 1]

def inTurn : List KeyEvent :=
  [.receive ⟨0, [1]⟩, .check 0, .set 0, .getKeys 0, .receive ⟨1, [2]⟩, .check 1, .set 1, .getKeys 1]

/-- The keys that a node of two has collected. -/
def collect (es : List KeyEvent) : Option (KeyCollection Bytes) :=
  exec (guarded (KeyCollection.step id) (KeyCollection.InRange 2))
    (KeyCollection.newKeyCollection 2) es

theorem together_isSome : (collect together).isSome := by
  decide

/-- The key generation is started twice. -/
theorem initDKG_counterexample :
    ∃ s, Run (KeyCollection.step id) (KeyCollection.InRange 2) (KeyCollection.newKeyCollection 2)
        together s ∧ (∀ task ∈ s.tasks, task.2 = .finished) ∧
      (∀ i < 2, ∃ task ∈ s.tasks, task.1.index = i) ∧
        s.inits = [[some [1], some [2]], [some [1], some [2]]] :=
  ⟨_, run_of_guarded (run_exec_get together_isSome), by decide, by decide,
    by decide⟩

theorem inTurn_isSome : (collect inTurn).isSome := by
  decide

theorem initDKG_once_iff_inTurn :
    let s := (collect inTurn).get inTurn_isSome
    s.inits = [(List.range 2).map (KeyCollection.firstKey s.received)] ↔
      0 < 2 ∧ Run (KeyCollection.step id) KeyCollection.Alone (KeyCollection.newKeyCollection 2)
        inTurn s :=
  KeyCollection.initDKG_once_iff (run_of_guarded (run_exec_get inTurn_isSome)) (by decide)
    (by decide)

end Sample

end JobPortal.Cothority
