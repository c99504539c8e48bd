import JobPortal.NumberedLogs
import JobPortal.PbftTypes

/-! The rumors a node holds of every origin, and the exchange of status messages by which two
nodes bring each other up to date. -/
namespace JobPortal.Gossip

open NumberedLogs

variable {M : Type}

structure Rumor (M : Type) where
  origin : String
  sequence : ℕ
  msg : Option M
  deriving DecidableEq, Repr

def Rumor.zero : Rumor M := ⟨"", 0, none⟩

abbrev StatusMessage := GoMap String ℕ

/-- The order in which a loop goes through a map: any, each key once. -/
structure KeyOrder {V : Type} (m : GoMap String V) (order : List String) : Prop where
  nodup : order.Nodup
  mem : ∀ o, o ∈ order ↔ o ∈ m

inductive Verdict
  | process
  | prune
  | future
  deriving DecidableEq, Repr

/-- The list of an origin holds rumors of that origin only, numbered from one. -/
structure SafeRumorTable (M : Type) where
  rumorTable : GoMap String (List (Rumor M))
  origins : ∀ o, ∀ r ∈ rumorTable.at o [], r.origin = o
  numbered : ∀ o, Numbered Rumor.sequence (rumorTable.at o [])

namespace SafeRumorTable

def list (t : SafeRumorTable M) (o : String) : List (Rumor M) := t.rumorTable.at o []

def new : SafeRumorTable M where
  rumorTable := ∅
  origins o r hr := by simp [GoMap.at] at hr
  numbered o := numbered_nil

@[simp] theorem list_new (o : String) : (new : SafeRumorTable M).list o = [] := rfl

def append (t : SafeRumorTable M) (r : Rumor M) (h : r.sequence = (t.list r.origin).length + 1) :
    SafeRumorTable M where
  rumorTable := t.rumorTable.insert r.origin (t.list r.origin ++ [r])
  origins o q hq := by
    rw [GoMap.at_insert] at hq
    split_ifs at hq with ho
    · subst ho
      rcases List.mem_append.mp hq with hq | hq
      · exact t.origins r.origin q hq
      · rw [List.mem_singleton.mp hq]
    · exact t.origins o q hq
  numbered o := by
    rw [GoMap.at_insert]
    split_ifs
    · exact (t.numbered r.origin).concat h
    · exact t.numbered o

theorem list_append (t : SafeRumorTable M) (r : Rumor M)
    (h : r.sequence = (t.list r.origin).length + 1) (o : String) :
    (t.append r h).list o = if o = r.origin then t.list r.origin ++ [r] else t.list o :=
  GoMap.at_insert _ _ _ _ _

def tryToAcceptOrigin (t : SafeRumorTable M) (r : Rumor M) : SafeRumorTable M × Verdict :=
  if h : (t.list r.origin).length + 1 = r.sequence then (t.append r h.symm, .process)
  else if (t.list r.origin).length + 1 > r.sequence then (t, .prune)
  else (t, .future)

theorem list_tryToAcceptOrigin (t : SafeRumorTable M) (r : Rumor M) (o : String) :
    (t.tryToAcceptOrigin r).1.list o =
      if o = r.origin then offer Rumor.sequence (t.list r.origin) r else t.list o := by
  unfold tryToAcceptOrigin offer
  split_ifs with hnext hpast ho hseq hseq
  all_goals grind [list_append]

theorem tryToAcceptOrigin_process (t : SafeRumorTable M) (r : Rumor M) :
    (t.tryToAcceptOrigin r).2 = .process ↔ r.sequence = (t.list r.origin).length + 1 := by
  unfold tryToAcceptOrigin
  split_ifs with hnext hpast
  all_goals simp
  all_goals omega

theorem tryToAcceptOrigin_eq_self {t : SafeRumorTable M} {r : Rumor M}
    (h : (t.tryToAcceptOrigin r).2 ≠ .process) : (t.tryToAcceptOrigin r).1 = t := by
  unfold tryToAcceptOrigin at h ⊢
  split_ifs at h ⊢ with hnext hpast
  · exact absurd rfl h
  · rfl
  · rfl

theorem tryToAcceptOrigin_future (t : SafeRumorTable M) (r : Rumor M) :
    (t.tryToAcceptOrigin r).2 = .future ↔ (t.list r.origin).length + 1 < r.sequence := by
  unfold tryToAcceptOrigin
  split_ifs with hnext hpast
  all_goals simp
  all_goals omega

def getStatusMsg (t : SafeRumorTable M) : StatusMessage :=
  Finmap.keysLookupEquiv.symm
    ⟨(t.rumorTable.keys, fun o => (t.rumorTable.lookup o).map List.length), fun o => by
      rw [Option.isSome_map, Finmap.lookup_isSome, Finmap.mem_keys]⟩

@[simp] theorem lookup_getStatusMsg (t : SafeRumorTable M) (o : String) :
    t.getStatusMsg.lookup o = (t.rumorTable.lookup o).map List.length := by
  simp [getStatusMsg]

theorem mem_getStatusMsg (t : SafeRumorTable M) (o : String) :
    o ∈ t.getStatusMsg ↔ o ∈ t.rumorTable := by
  rw [← Finmap.lookup_isSome, lookup_getStatusMsg, Option.isSome_map, Finmap.lookup_isSome]

@[simp] theorem at_getStatusMsg (t : SafeRumorTable M) (o : String) :
    t.getStatusMsg.at o 0 = (t.list o).length := by
  rw [GoMap.at, lookup_getStatusMsg, list, GoMap.at]
  cases t.rumorTable.lookup o <;> rfl

/-- The rumors from position `lo` up to position `hi`, or `none` where the code panics. A slice
expression may reach into the spare capacity behind a list, where the rumors are zero. -/
def getInterval (t : SafeRumorTable M) (spare : String → ℕ) (origin : String) (lo hi : ℕ) :
    Option (List (Rumor M)) :=
  if lo ≤ hi ∧ hi ≤ (t.list origin).length + spare origin then
    some (((t.list origin ++ List.replicate (spare origin) Rumor.zero).take hi).drop lo)
  else none

/-- Up to the end of the list nothing of the spare capacity is read. -/
theorem getInterval_eq (t : SafeRumorTable M) (spare : String → ℕ) {o : String} {lo hi : ℕ}
    (hlo : lo ≤ hi) (hhi : hi ≤ (t.list o).length) :
    t.getInterval spare o lo hi = some (((t.list o).take hi).drop lo) := by
  rw [getInterval, if_pos ⟨hlo, by omega⟩, List.take_append_of_le_length hhi]

theorem mem_getInterval {t : SafeRumorTable M} {spare : String → ℕ} {o : String} {lo hi : ℕ}
    {rumors : List (Rumor M)} (h : t.getInterval spare o lo hi = some rumors) {r : Rumor M}
    (hr : r ∈ rumors) : r ∈ t.list o ∨ r = Rumor.zero := by
  unfold getInterval at h
  split_ifs at h
  obtain rfl := Option.some.inj h
  have hmem := List.mem_of_mem_take (List.mem_of_mem_drop hr)
  rcases List.mem_append.mp hmem with hlist | hspare
  · exact .inl hlist
  · exact .inr (List.eq_of_mem_replicate hspare)

/-- The rumor a broadcast sends, and the table that holds it. -/
def newRumorsMessage (t : SafeRumorTable M) (origin : String) (msg : M) :
    SafeRumorTable M × List (Rumor M) :=
  let rumor : Rumor M := ⟨origin, (t.list origin).length + 1, some msg⟩
  (t.append rumor rfl, [rumor])

theorem list_newRumorsMessage (t : SafeRumorTable M) (origin : String) (msg : M) (o : String) :
    (t.newRumorsMessage origin msg).1.list o =
      if o = origin then t.list origin ++ (t.newRumorsMessage origin msg).2 else t.list o :=
  t.list_append ⟨origin, (t.list origin).length + 1, some msg⟩ rfl o

/-- The rumors the status `myStatus` counts and `remoteStatus` does not. The loop goes through
the keys of `myStatus` in the order given by `order`. -/
def findMyNew (t : SafeRumorTable M) (spare : String → ℕ) (myStatus remoteStatus : StatusMessage)
    (order : List String) : Option (List (Rumor M)) :=
  order.foldlM (fun rumors origin =>
    let mySeq := myStatus.at origin 0
    let remoteSeq := remoteStatus.at origin 0
    if mySeq > remoteSeq then
      (t.getInterval spare origin remoteSeq mySeq).map (rumors ++ ·)
    else some rumors) []

def findRemoteNew (myStatus remoteStatus : StatusMessage) : Bool :=
  decide (∃ origin ∈ remoteStatus.keys, myStatus.at origin 0 < remoteStatus.at origin 0)

/-- For the status of its own table a node finds, of every origin, the rumors from the remote
count on. -/
theorem findMyNew_eq (t : SafeRumorTable M) (spare : String → ℕ) (S : StatusMessage)
    (order : List String) :
    t.findMyNew spare t.getStatusMsg S order =
      some (order.flatMap fun o => (t.list o).drop (S.at o 0)) := by
  suffices h : ∀ rumors : List (Rumor M), order.foldlM (fun rumors origin =>
      if t.getStatusMsg.at origin 0 > S.at origin 0 then
        (t.getInterval spare origin (S.at origin 0) (t.getStatusMsg.at origin 0)).map (rumors ++ ·)
      else some rumors) rumors =
      some (rumors ++ order.flatMap fun o => (t.list o).drop (S.at o 0)) from h []
  induction order with
  | nil =>
    intro rumors
    simp
  | cons o order ih =>
    intro rumors
    rw [List.foldlM_cons, at_getStatusMsg, List.flatMap_cons]
    split_ifs with hnew
    · rw [getInterval_eq t spare hnew.le (Nat.le_refl _), List.take_length, Option.map_some]
      exact (ih _).trans (by rw [List.append_assoc])
    · rw [List.drop_eq_nil_of_le (by omega), List.nil_append]
      exact ih rumors

theorem findRemoteNew_iff (myStatus remoteStatus : StatusMessage) :
    findRemoteNew myStatus remoteStatus = true ↔
      ∃ o, myStatus.at o 0 < remoteStatus.at o 0 := by
  unfold findRemoteNew
  rw [decide_eq_true_iff]
  constructor
  · rintro ⟨o, _, hlt⟩
    exact ⟨o, hlt⟩
  · rintro ⟨o, hlt⟩
    refine ⟨o, ?_, hlt⟩
    rw [Finmap.mem_keys, ← Finmap.lookup_isSome]
    by_contra hnone
    rw [GoMap.at, GoMap.at, Option.not_isSome_iff_eq_none.mp hnone] at hlt
    simp at hlt

/-- The table after a packet's rumors went through `TryToAcceptOrigin`, and its answers. -/
def acceptAll (t : SafeRumorTable M) : List (Rumor M) → SafeRumorTable M × List Verdict
  | [] => (t, [])
  | r :: rs =>
    let (t', v) := t.tryToAcceptOrigin r
    let (t'', vs) := t'.acceptAll rs
    (t'', v :: vs)

def taken (t : SafeRumorTable M) : List (Rumor M) → List (Rumor M)
  | [] => []
  | r :: rs =>
    match t.tryToAcceptOrigin r with
    | (t, .future) => t.taken rs
    | (t, _) => r :: t.taken rs

theorem list_acceptAll (t : SafeRumorTable M) (rs : List (Rumor M)) (o : String) :
    (t.acceptAll rs).1.list o =
      (rs.filter (·.origin = o)).foldl (offer Rumor.sequence) (t.list o) := by
  induction rs generalizing t with
  | nil => rfl
  | cons r rs ih =>
    rw [acceptAll, ih, list_tryToAcceptOrigin]
    by_cases ho : o = r.origin
    · subst ho
      simp
    · rw [if_neg ho, List.filter_cons_of_neg (by simpa using Ne.symm ho)]

theorem future_notMem_acceptAll (t : SafeRumorTable M) (rs : List (Rumor M))
    (h : ∀ o, Gapless Rumor.sequence (t.list o) (rs.filter (·.origin = o))) :
    Verdict.future ∉ (t.acceptAll rs).2 := by
  induction rs generalizing t with
  | nil => exact List.not_mem_nil
  | cons r rs ih =>
    have hr := h r.origin
    rw [List.filter_cons_of_pos (by simp)] at hr
    rw [acceptAll, List.mem_cons]
    rintro (hv | hvs)
    · have hgap := (tryToAcceptOrigin_future t r).mp hv.symm
      have := hr.1
      omega
    · refine ih _ (fun o => ?_) hvs
      rw [list_tryToAcceptOrigin]
      by_cases ho : o = r.origin
      · subst ho
        rw [if_pos rfl]
        exact hr.2
      · have hother := h o
        rw [List.filter_cons_of_neg (by simpa using Ne.symm ho)] at hother
        rw [if_neg ho]
        exact hother

end SafeRumorTable

inductive StatusReply (M : Type)
  | rumors (rumors : List (Rumor M))
  | status (myStatus : StatusMessage)
  | mongering (myStatus : StatusMessage)

/-- `mongers` tells whether the dice and the routing table let the node pass its status on. -/
def execStatusMessage (t : SafeRumorTable M) (spare : String → ℕ) (remoteStatus : StatusMessage)
    (order : List String) (mongers : Bool) : Option (List (StatusReply M)) :=
  let myStatus := t.getStatusMsg
  (t.findMyNew spare myStatus remoteStatus order).map fun rumors =>
    let myHasNew := !rumors.isEmpty
    let remoteHasNew := SafeRumorTable.findRemoteNew myStatus remoteStatus
    (if myHasNew then [.rumors rumors] else []) ++
      (if remoteHasNew then [.status myStatus] else []) ++
      if !myHasNew && !remoteHasNew && mongers then [.mongering myStatus] else []

/-- The conversion of a signed machine integer. -/
def uint (i : ℤ) : ℕ := (i % 2 ^ 64).toNat

def execGraftMessage (t : SafeRumorTable M) (spare : String → ℕ) (source : String) (seq : ℤ) :
    Option (List (Rumor M)) :=
  t.getInterval spare source (uint (seq - 1)) (uint seq)

section AntiEntropy

variable {A B : SafeRumorTable M} {S : StatusMessage} {order : List String}

/-- Of each origin the rumors found are those after the remote count. -/
theorem filter_found (h : KeyOrder A.getStatusMsg order) (S : StatusMessage) (o : String) :
    (order.flatMap fun a => (A.list a).drop (S.at a 0)).filter (·.origin = o) =
      (A.list o).drop (S.at o 0) := by
  have hone : ∀ a, ((A.list a).drop (S.at a 0)).filter (·.origin = o) =
      if a = o then (A.list o).drop (S.at o 0) else [] := by
    intro a
    have horigin : ∀ r ∈ (A.list a).drop (S.at a 0), r.origin = a := fun r hr =>
      A.origins a r (List.mem_of_mem_drop hr)
    split_ifs with ha
    · subst ha
      exact List.filter_eq_self.mpr fun r hr => by simpa using horigin r hr
    · exact List.filter_eq_nil_iff.mpr fun r hr => by simpa [horigin r hr] using ha
  have hpick : ∀ l : List String, l.Nodup → (l.flatMap fun a =>
      if a = o then (A.list o).drop (S.at o 0) else []) =
        if o ∈ l then (A.list o).drop (S.at o 0) else [] := by
    intro l hl
    induction l with
    | nil => rfl
    | cons a l ih =>
      obtain ⟨ha, hl⟩ := List.nodup_cons.mp hl
      rw [List.flatMap_cons, ih hl]
      by_cases hao : a = o
      · subst hao
        simp [ha]
      · simp [hao, Ne.symm hao]
  rw [List.filter_flatMap]
  simp only [hone]
  rw [hpick order h.nodup]
  split_ifs with ho
  · rfl
  · have hnone : A.list o = [] := by
      have hkey : o ∉ A.rumorTable := fun hmem =>
        ho ((h.mem o).mpr ((A.mem_getStatusMsg o).mpr hmem))
      rw [SafeRumorTable.list, GoMap.at, Finmap.lookup_eq_none.mpr hkey, Option.getD_none]
    rw [hnone, List.drop_nil]

theorem found_eq_nil_iff (h : KeyOrder A.getStatusMsg order) :
    (order.flatMap fun o => (A.list o).drop (S.at o 0)) = [] ↔
      ∀ o, (A.list o).length ≤ S.at o 0 := by
  constructor
  · intro hnil o
    have hdrop := filter_found h S o
    rw [hnil, List.filter_nil] at hdrop
    exact List.drop_eq_nil_iff.mp hdrop.symm
  · intro hle
    exact List.flatMap_eq_nil_iff.mpr fun o _ => List.drop_eq_nil_of_le (hle o)

/-- A status that calls for no answer comes from a node with the same rumors. -/
theorem settled_iff (hcomp : ∀ o, A.list o <+: B.list o ∨ B.list o <+: A.list o)
    (horder : KeyOrder A.getStatusMsg order) (spare : String → ℕ) :
    A.findMyNew spare A.getStatusMsg B.getStatusMsg order = some [] ∧
        SafeRumorTable.findRemoteNew A.getStatusMsg B.getStatusMsg = false ↔
      ∀ o, A.list o = B.list o := by
  rw [SafeRumorTable.findMyNew_eq, Option.some.injEq, found_eq_nil_iff horder,
    ← Bool.not_eq_true, SafeRumorTable.findRemoteNew_iff, not_exists]
  simp only [SafeRumorTable.at_getStatusMsg, not_lt]
  constructor
  · rintro ⟨hle, hge⟩ o
    rcases hcomp o with hpre | hpre
    · exact hpre.eq_of_length_le (hge o)
    · exact (hpre.eq_of_length_le (hle o)).symm
  · intro heq
    exact ⟨fun o => (congrArg List.length (heq o)).le, fun o => (congrArg List.length (heq o)).ge⟩

theorem list_acceptAll_found (hcomp : ∀ o, A.list o <+: B.list o ∨ B.list o <+: A.list o)
    (hS : ∀ o, S.at o 0 ≤ (B.list o).length) (horder : KeyOrder A.getStatusMsg order)
    (o : String) :
    (B.acceptAll (order.flatMap fun a => (A.list a).drop (S.at a 0))).1.list o =
      longer (A.list o) (B.list o) := by
  rw [SafeRumorTable.list_acceptAll, filter_found horder]
  exact (catch_up (A.numbered o) (hS o) (hcomp o)).2

/-- One status and its answer bring a node up to the join of two tables, however old the status
is and in whatever order the tables are gone through. -/
theorem antiEntropy_join (hcomp : ∀ o, A.list o <+: B.list o ∨ B.list o <+: A.list o)
    (hS : ∀ o, S.at o 0 ≤ (B.list o).length) (horder : KeyOrder A.getStatusMsg order)
    (spare : String → ℕ) :
    ∃ rumors, A.findMyNew spare A.getStatusMsg S order = some rumors ∧
      (∀ r ∈ rumors, r ∈ A.list r.origin) ∧
      Verdict.future ∉ (B.acceptAll rumors).2 ∧
      ∀ o, (B.acceptAll rumors).1.list o = longer (A.list o) (B.list o) := by
  refine ⟨_, A.findMyNew_eq spare S order, ?_, ?_, list_acceptAll_found hcomp hS horder⟩
  · intro r hr
    obtain ⟨a, _, hra⟩ := List.mem_flatMap.mp hr
    have hmem := List.mem_of_mem_drop hra
    rwa [A.origins a r hmem]
  · apply SafeRumorTable.future_notMem_acceptAll
    intro o
    rw [filter_found horder]
    exact (catch_up (A.numbered o) (hS o) (hcomp o)).1

/-- What the node has then is the least that both tables are part of. -/
theorem found_isLub (hcomp : ∀ o, A.list o <+: B.list o ∨ B.list o <+: A.list o)
    (hS : ∀ o, S.at o 0 ≤ (B.list o).length) (horder : KeyOrder A.getStatusMsg order)
    {spare : String → ℕ} {rumors : List (Rumor M)}
    (hfound : A.findMyNew spare A.getStatusMsg S order = some rumors) (o : String) :
    A.list o <+: (B.acceptAll rumors).1.list o ∧ B.list o <+: (B.acceptAll rumors).1.list o ∧
      ∀ l, A.list o <+: l → B.list o <+: l → (B.acceptAll rumors).1.list o <+: l := by
  obtain rfl := Option.some.inj (hfound.symm.trans (A.findMyNew_eq spare S order))
  rw [list_acceptAll_found hcomp hS horder]
  exact longer_isLub (hcomp o)

end AntiEntropy

namespace Sample

def tableA : SafeRumorTable String :=
  ((SafeRumorTable.new.newRumorsMessage "a" "x").1.newRumorsMessage "a" "y").1

def tableB : SafeRumorTable String :=
  ((SafeRumorTable.new.tryToAcceptOrigin ⟨"a", 1, some "x"⟩).1.newRumorsMessage "b" "z").1

theorem keyOrder_tableA : KeyOrder tableA.getStatusMsg ["a"] where
  nodup := List.nodup_singleton "a"
  mem o := by
    rw [SafeRumorTable.mem_getStatusMsg]
    simp [tableA, SafeRumorTable.newRumorsMessage, SafeRumorTable.append, SafeRumorTable.new,
      Finmap.notMem_empty]

theorem comparable_tables (o : String) :
    tableA.list o <+: tableB.list o ∨ tableB.list o <+: tableA.list o := by
  by_cases ha : o = "a"
  · subst ha
    exact .inr (by decide)
  · apply Or.inl
    have hnil : tableA.list o = [] := by simp [tableA, SafeRumorTable.list_newRumorsMessage, ha]
    rw [hnil]
    exact List.nil_prefix

/-- The answer to the status that was sent before anything was received. -/
theorem antiEntropy_join_stale :
    ∃ rumors, tableA.findMyNew (fun _ => 0) tableA.getStatusMsg ∅ ["a"] = some rumors ∧
      (∀ r ∈ rumors, r ∈ tableA.list r.origin) ∧
      Verdict.future ∉ (tableB.acceptAll rumors).2 ∧
      ∀ o, (tableB.acceptAll rumors).1.list o = longer (tableA.list o) (tableB.list o) :=
  antiEntropy_join comparable_tables (fun _ => Nat.zero_le _) keyOrder_tableA fun _ => 0

end Sample

end JobPortal.Gossip
