import JobPortal.Goroutines
import JobPortal.Numbers
import JobPortal.PbftSample
import JobPortal.SafeTables

/-! The files a cothority node knows of, and the requests for them. A request looks into the table
under a read lock, and a file is entered under the write lock. -/
namespace JobPortal.Cothority

open Goroutines Hex Runs

structure RequestFileMessage where
  hrid : String
  address : String
  metaFileID : String
  pubKey : Bytes
  mac : Option Bytes
  serviceIndex : ℕ
  deriving DecidableEq, Repr

/-- `A` and `C` are nil where a node has none. -/
structure ResponseFileMessage where
  metaFileID : String
  i : ℕ
  v : Bytes
  a : Option Bytes
  c : Option Bytes
  deriving DecidableEq, Repr

structure EncryptedFileMessage where
  id : String
  c : Option Bytes
  u : Bytes
  deriving DecidableEq, Repr

structure Data where
  c : Option Bytes
  u : Bytes
  deriving DecidableEq, Repr

/-- What a request is checked and answered with. `partialDecryption` takes the share of the node,
the point of the file and the key of the HR. -/
structure RequestPrimitives (S : Type) extends Primitives where
  marshalRequestFile : RequestFileMessage → Bytes
  hmacSha256 : Bytes → Bytes → Bytes
  partialDecryption : S → Bytes → Bytes → Bytes

/-- Where `recvRequestFileMessage` stands. While it is `recording` it is in the call of `Tag`, and
while it is `reading` or has `found` the file it holds the read lock. -/
inductive RequestPC
  | received
  | recording
  | waiting
  | reading
  | found (data : Data)
  | unlocked (data : Data)
  | answered (response : ResponseFileMessage)
  | dropped
  deriving DecidableEq, Repr

/-- Where `recvEncryptedFileMessage` stands. A goroutine that is `locking` waits for the readers to
leave. -/
inductive FilePC
  | arrived
  | locking
  | locked
  | written
  | finished
  deriving DecidableEq, Repr

def RequestPC.Reads : RequestPC → Prop
  | .reading | .found _ => True
  | _ => False

instance : DecidablePred RequestPC.Reads
  | .reading | .found _ => .isTrue trivial
  | .received | .recording | .waiting | .unlocked _ | .answered _ | .dropped => .isFalse id

def FilePC.Writes : FilePC → Prop
  | .locking | .locked | .written => True
  | _ => False

instance : DecidablePred FilePC.Writes
  | .locking | .locked | .written => .isTrue trivial
  | .arrived | .finished => .isFalse id

/-- The part of a cothority node that serves files, with its goroutines. -/
structure FileNode (S : Type) where
  index : ℕ
  signMethod : ℕ
  hrSecretTable : GoMap ℕ String
  priShare : Option S
  pubKey : Bytes
  dataTable : GoMap String Data := ∅
  requests : List (RequestFileMessage × RequestPC) := []
  files : List (EncryptedFileMessage × FilePC) := []

inductive FileEvent
  /-- `ExecRequestFileMessage`. -/
  | request (m : RequestFileMessage)
  | authenticate (j : ℕ)
  /-- `Tag` returns. -/
  | recorded (j : ℕ)
  | rLock (j : ℕ)
  | read (j : ℕ)
  | rUnlock (j : ℕ)
  | answer (j : ℕ)
  /-- `ExecEncryptedFileMessage`. -/
  | encryptedFile (m : EncryptedFileMessage)
  | lock (j : ℕ)
  | acquire (j : ℕ)
  | write (j : ℕ)
  | unlock (j : ℕ)
  deriving DecidableEq, Repr

def FileEvent.Internal : FileEvent → Prop
  | .request _ | .encryptedFile _ | .recorded _ => False
  | _ => True

namespace FileNode

variable {S : Type} (P : RequestPrimitives S)

def getHMAC (req : RequestFileMessage) (key : String) : Bytes :=
  P.hmacSha256 (utf8 key) (P.marshalRequestFile req)

/-- The check of the signature. With RSA a signature that does not fit panics. -/
def authenticate (n : FileNode S) (m : RequestFileMessage) : Turn Bool :=
  let unsigned := { m with mac := none }
  if n.signMethod = 1 then
    match n.hrSecretTable.lookup (atoi m.hrid % 2 ^ 64).toNat with
    | some secret => .done (m.mac.getD [] = getHMAC P unsigned secret)
    | none => .done false
  else
    match P.getPublicKey m.address with
    | some key =>
      if P.verifyRSA (P.marshalRequestFile unsigned) (m.mac.getD []) key then .done true
      else .panicked
    | none => .panicked

def ReadLocked (n : FileNode S) : Prop := ∃ r ∈ n.requests, r.2.Reads

def WriteLocked (n : FileNode S) : Prop := ∃ f ∈ n.files, f.2.Writes

instance (n : FileNode S) : Decidable n.ReadLocked := inferInstanceAs (Decidable (∃ r ∈ _, _))

instance (n : FileNode S) : Decidable n.WriteLocked := inferInstanceAs (Decidable (∃ f ∈ _, _))

def goOn (n : FileNode S) (j : ℕ) (m : RequestFileMessage) (pc : RequestPC) : FileNode S :=
  { n with requests := n.requests.set j (m, pc) }

def goOnFile (n : FileNode S) (j : ℕ) (m : EncryptedFileMessage) (pc : FilePC) : FileNode S :=
  { n with files := n.files.set j (m, pc) }

/-- A file comes in, and nobody has entered it yet. -/
def arrive (n : FileNode S) (m : EncryptedFileMessage) : FileNode S :=
  { n with files := n.files ++ [(m, .arrived)] }

def response (n : FileNode S) (share : S) (m : RequestFileMessage) (data : Data) :
    ResponseFileMessage where
  metaFileID := m.metaFileID
  i := n.index
  v := P.partialDecryption share data.u m.pubKey
  a := some n.pubKey
  c := data.c

def act (n : FileNode S) : FileEvent → Turn (FileNode S)
  | .request m => .done { n with requests := n.requests ++ [(m, .received)] }
  | .authenticate j =>
    match n.requests[j]? with
    | some (m, .received) =>
      (n.authenticate P m).map fun valid =>
        n.goOn j m <|
          if valid then if m.serviceIndex = n.index then .recording else .waiting else .dropped
    | _ => .blocked
  | .recorded j =>
    match n.requests[j]? with
    | some (m, .recording) => .done (n.goOn j m .waiting)
    | _ => .blocked
  | .rLock j =>
    match n.requests[j]? with
    | some (m, .waiting) => if n.WriteLocked then .blocked else .done (n.goOn j m .reading)
    | _ => .blocked
  | .read j =>
    match n.requests[j]? with
    | some (m, .reading) =>
      match n.dataTable.lookup m.metaFileID with
      | some data => .done (n.goOn j m (.found data))
      -- It sleeps and looks again, and keeps the read lock.
      | none => .done n
    | _ => .blocked
  | .rUnlock j =>
    match n.requests[j]? with
    | some (m, .found data) => .done (n.goOn j m (.unlocked data))
    | _ => .blocked
  | .answer j =>
    match n.requests[j]? with
    | some (m, .unlocked data) =>
      match n.priShare with
      | some share => .done (n.goOn j m (.answered (n.response P share m data)))
      | none => .panicked
    | _ => .blocked
  | .encryptedFile m => .done (n.arrive m)
  | .lock j =>
    match n.files[j]? with
    | some (m, .arrived) => if n.WriteLocked then .blocked else .done (n.goOnFile j m .locking)
    | _ => .blocked
  | .acquire j =>
    match n.files[j]? with
    | some (m, .locking) => if n.ReadLocked then .blocked else .done (n.goOnFile j m .locked)
    | _ => .blocked
  | .write j =>
    match n.files[j]? with
    | some (m, .locked) =>
      .done { n.goOnFile j m .written with dataTable := n.dataTable.insert m.id ⟨m.c, m.u⟩ }
    | _ => .blocked
  | .unlock j =>
    match n.files[j]? with
    | some (m, .written) => .done (n.goOnFile j m .finished)
    | _ => .blocked

def step (n : FileNode S) (e : FileEvent) : Option (FileNode S) := (n.act P e).toOption

variable {P} {n u : FileNode S} {e : FileEvent} {j : ℕ} {m : RequestFileMessage}

inductive Effect (P : RequestPrimitives S) (n : FileNode S) : FileEvent → FileNode S → Prop
  | request (m : RequestFileMessage) :
      Effect P n (.request m) { n with requests := n.requests ++ [(m, .received)] }
  | authenticate {j : ℕ} {m : RequestFileMessage} {valid : Bool}
      (hj : n.requests[j]? = some (m, .received)) (hvalid : n.authenticate P m = .done valid) :
      Effect P n (.authenticate j) (n.goOn j m <|
        if valid then if m.serviceIndex = n.index then .recording else .waiting else .dropped)
  | recorded {j : ℕ} {m : RequestFileMessage} (hj : n.requests[j]? = some (m, .recording)) :
      Effect P n (.recorded j) (n.goOn j m .waiting)
  | rLock {j : ℕ} {m : RequestFileMessage} (hj : n.requests[j]? = some (m, .waiting))
      (hfree : ¬ n.WriteLocked) : Effect P n (.rLock j) (n.goOn j m .reading)
  | read {j : ℕ} {m : RequestFileMessage} {data : Data}
      (hj : n.requests[j]? = some (m, .reading))
      (hdata : n.dataTable.lookup m.metaFileID = some data) :
      Effect P n (.read j) (n.goOn j m (.found data))
  | poll {j : ℕ} {m : RequestFileMessage} (hj : n.requests[j]? = some (m, .reading))
      (hdata : n.dataTable.lookup m.metaFileID = none) : Effect P n (.read j) n
  | rUnlock {j : ℕ} {m : RequestFileMessage} {data : Data}
      (hj : n.requests[j]? = some (m, .found data)) :
      Effect P n (.rUnlock j) (n.goOn j m (.unlocked data))
  | answer {j : ℕ} {m : RequestFileMessage} {data : Data} {share : S}
      (hj : n.requests[j]? = some (m, .unlocked data)) (hshare : n.priShare = some share) :
      Effect P n (.answer j) (n.goOn j m (.answered (n.response P share m data)))
  | encryptedFile (m : EncryptedFileMessage) : Effect P n (.encryptedFile m) (n.arrive m)
  | lock {j : ℕ} {m : EncryptedFileMessage} (hj : n.files[j]? = some (m, .arrived))
      (hfree : ¬ n.WriteLocked) : Effect P n (.lock j) (n.goOnFile j m .locking)
  | acquire {j : ℕ} {m : EncryptedFileMessage} (hj : n.files[j]? = some (m, .locking))
      (hfree : ¬ n.ReadLocked) : Effect P n (.acquire j) (n.goOnFile j m .locked)
  | write {j : ℕ} {m : EncryptedFileMessage} (hj : n.files[j]? = some (m, .locked)) :
      Effect P n (.write j)
        { n.goOnFile j m .written with dataTable := n.dataTable.insert m.id ⟨m.c, m.u⟩ }
  | unlock {j : ℕ} {m : EncryptedFileMessage} (hj : n.files[j]? = some (m, .written)) :
      Effect P n (.unlock j) (n.goOnFile j m .finished)

theorem step_effect (h : n.step P e = some u) : n.Effect P e u := by
  have hact := Turn.toOption_eq_some.mp h
  cases e with
  | request m =>
    cases hact
    exact .request m
  | authenticate j =>
    simp only [act] at hact
    split at hact
    · rename_i m hj
      obtain ⟨valid, hvalid, rfl⟩ := Turn.map_eq_done.mp hact
      exact .authenticate hj hvalid
    · cases hact
  | recorded j =>
    simp only [act] at hact
    split at hact
    · rename_i m hj
      cases hact
      exact .recorded hj
    · cases hact
  | rLock j =>
    simp only [act] at hact
    split at hact
    · rename_i m hj
      split_ifs at hact with hfree
      cases hact
      exact .rLock hj hfree
    · cases hact
  | read j =>
    simp only [act] at hact
    split at hact
    · rename_i m hj
      split at hact
      · rename_i data hdata
        cases hact
        exact .read hj hdata
      · rename_i hdata
        cases hact
        exact .poll hj hdata
    · cases hact
  | rUnlock j =>
    simp only [act] at hact
    split at hact
    · rename_i m data hj
      cases hact
      exact .rUnlock hj
    · cases hact
  | answer j =>
    simp only [act] at hact
    split at hact
    · rename_i m data hj
      split at hact
      · rename_i share hshare
        cases hact
        exact .answer hj hshare
      · cases hact
    · cases hact
  | encryptedFile m =>
    cases hact
    exact .encryptedFile m
  | lock j =>
    simp only [act] at hact
    split at hact
    · rename_i m hj
      split_ifs at hact with hfree
      cases hact
      exact .lock hj hfree
    · cases hact
  | acquire j =>
    simp only [act] at hact
    split at hact
    · rename_i m hj
      split_ifs at hact with hfree
      cases hact
      exact .acquire hj hfree
    · cases hact
  | write j =>
    simp only [act] at hact
    split at hact
    · rename_i m hj
      cases hact
      exact .write hj
    · cases hact
  | unlock j =>
    simp only [act] at hact
    split at hact
    · rename_i m hj
      cases hact
      exact .unlock hj
    · cases hact

/-- The lock keeps requests and files apart, and a file that was entered stays in the table. -/
structure Consistent (n : FileNode S) : Prop where
  excludes : n.ReadLocked → ∀ f ∈ n.files, f.2 ≠ .locked ∧ f.2 ≠ .written
  stored : ∀ f ∈ n.files, f.2 = .written ∨ f.2 = .finished → f.1.id ∈ n.dataTable

/-- A request goes on, and takes the read lock only if it had it or nobody writes. -/
theorem Consistent.goOn (hn : n.Consistent) {pc pc' : RequestPC}
    (hj : n.requests[j]? = some (m, pc)) (hpc : pc'.Reads → pc.Reads ∨ ¬ n.WriteLocked) :
    (n.goOn j m pc').Consistent := by
  refine { hn with excludes := ?_ }
  rintro ⟨r, hr, hreads⟩ f hf
  rcases List.mem_or_eq_of_mem_set hr with hr | rfl
  · exact hn.excludes ⟨r, hr, hreads⟩ f hf
  · rcases hpc hreads with hold | hfree
    · exact hn.excludes ⟨(m, pc), List.mem_of_getElem? hj, hold⟩ f hf
    · constructor
      · intro hlocked
        exact hfree ⟨f, hf, hlocked ▸ trivial⟩
      · intro hwritten
        exact hfree ⟨f, hf, hwritten ▸ trivial⟩

/-- A file goes on, and takes the write lock only if nobody reads. -/
theorem Consistent.goOnFile (hn : n.Consistent) {m : EncryptedFileMessage} {pc' : FilePC}
    (hlocked : pc' = .locked ∨ pc' = .written → ¬ n.ReadLocked)
    (hstored : pc' = .written ∨ pc' = .finished → m.id ∈ n.dataTable) :
    (n.goOnFile j m pc').Consistent := by
  constructor
  · intro hread f hf
    rcases List.mem_or_eq_of_mem_set hf with hf | rfl
    · exact hn.excludes hread f hf
    · exact ⟨fun hpc => hlocked (.inl hpc) hread, fun hpc => hlocked (.inr hpc) hread⟩
  · intro f hf hpc
    rcases List.mem_or_eq_of_mem_set hf with hf | rfl
    · exact hn.stored f hf hpc
    · exact hstored hpc

theorem Consistent.insert (hn : n.Consistent) (id : String) (data : Data) :
    ({ n with dataTable := n.dataTable.insert id data } : FileNode S).Consistent := by
  refine { hn with stored := fun f hf hpc => ?_ }
  rw [Finmap.mem_insert]
  exact .inr (hn.stored f hf hpc)

theorem Consistent.arrive (hn : n.Consistent) (m : EncryptedFileMessage) :
    (n.arrive m).Consistent := by
  constructor
  · intro hread f hf
    rcases List.mem_append.mp hf with hf | hf
    · exact hn.excludes hread f hf
    · obtain rfl := List.mem_singleton.mp hf
      exact ⟨nofun, nofun⟩
  · intro f hf hpc
    rcases List.mem_append.mp hf with hf | hf
    · exact hn.stored f hf hpc
    · obtain rfl := List.mem_singleton.mp hf
      simp at hpc

theorem Consistent.step (hn : n.Consistent) (h : n.step P e = some u) : u.Consistent := by
  cases step_effect h with
  | request m =>
    refine { hn with excludes := ?_ }
    rintro ⟨r, hr, hreads⟩ f hf
    rcases List.mem_append.mp hr with hr | hr
    · exact hn.excludes ⟨r, hr, hreads⟩ f hf
    · obtain rfl := List.mem_singleton.mp hr
      exact hreads.elim
  | authenticate hj hvalid =>
    apply hn.goOn hj
    intro hreads
    split_ifs at hreads <;> exact hreads.elim
  | recorded hj => exact hn.goOn hj False.elim
  | rLock hj hfree => exact hn.goOn hj fun _ => .inr hfree
  | read hj => exact hn.goOn hj fun _ => .inl trivial
  | poll => exact hn
  | rUnlock hj => exact hn.goOn hj False.elim
  | answer hj => exact hn.goOn hj False.elim
  | encryptedFile m => exact hn.arrive m
  | lock => exact hn.goOnFile nofun nofun
  | acquire _ hfree => exact hn.goOnFile (fun _ => hfree) nofun
  | @write j m hj =>
    have hinsert := hn.insert m.id ⟨m.c, m.u⟩
    apply hinsert.goOnFile
    · intro _ hread
      exact (hn.excludes hread (m, .locked) (List.mem_of_getElem? hj)).1 rfl
    · exact fun _ => Finmap.mem_insert.mpr (.inl rfl)
  | @unlock j m hj =>
    have hwritten := hn.stored (m, .written) (List.mem_of_getElem? hj) (.inl rfl)
    exact hn.goOnFile nofun fun _ => hwritten

/-- Every request that polls the table finds its file there. -/
def AllFound (n : FileNode S) : Prop :=
  ∀ r ∈ n.requests, r.2 = .reading → r.1.metaFileID ∈ n.dataTable

/-- A request takes the read lock only when its file is in the table already. -/
def FileFirst (n : FileNode S) : FileEvent → Prop
  | .rLock j => ∀ m, n.requests[j]? = some (m, .waiting) → m.metaFileID ∈ n.dataTable
  | _ => True

theorem allFound_goOn (hn : n.AllFound) {pc' : RequestPC}
    (hpc : pc' = .reading → m.metaFileID ∈ n.dataTable) : (n.goOn j m pc').AllFound := by
  intro r hr hreading
  rcases List.mem_or_eq_of_mem_set hr with hr | rfl
  · exact hn r hr hreading
  · exact hpc hreading

/-- Only the step in which a request takes the read lock decides whether it polls in vain. -/
theorem allFound_step (hn : n.AllFound) (h : n.step P e = some u) :
    u.AllFound ↔ n.FileFirst e := by
  cases step_effect h with
  | request m =>
    refine iff_of_true (fun r hr hreading => ?_) trivial
    rcases List.mem_append.mp hr with hr | hr
    · exact hn r hr hreading
    · obtain rfl := List.mem_singleton.mp hr
      cases hreading
  | authenticate =>
    refine iff_of_true (allFound_goOn hn fun hpc => ?_) trivial
    split_ifs at hpc
  | @rLock j m hj =>
    constructor
    · intro hu m' hm'
      rw [hj] at hm'
      cases hm'
      have hlen : j < n.requests.length := (List.getElem?_eq_some_iff.mp hj).1
      exact hu (m, .reading) (List.mem_of_getElem? (List.getElem?_set_self hlen)) rfl
    · exact fun hfirst => allFound_goOn hn fun _ => hfirst m hj
  | recorded | read | rUnlock | answer => exact iff_of_true (allFound_goOn hn nofun) trivial
  | write =>
    refine iff_of_true (fun r hr hreading => ?_) trivial
    exact Finmap.mem_insert.mpr (.inr (hn r hr hreading))
  | poll | encryptedFile | lock | acquire | unlock => exact iff_of_true hn trivial

/-- A request that waits for a file that has arrived can always be answered. -/
def NeverStuck (P : RequestPrimitives S) (n : FileNode S) : Prop :=
  ∀ (j : ℕ) (m : RequestFileMessage) (pc : RequestPC), n.requests[j]? = some (m, pc) →
    pc = .waiting ∨ pc = .reading → (∃ f ∈ n.files, f.1.id = m.metaFileID) →
      ∃ es u response, Run (step P) (fun _ e => e.Internal) n es u ∧
        u.requests[j]? = some (m, .answered response)

def OnItsWay (pc : RequestPC) : Prop :=
  pc = .waiting ∨ pc = .reading ∨ (∃ data, pc = .found data) ∨ (∃ data, pc = .unlocked data) ∨
    ∃ response, pc = .answered response

/-- Where a step leaves a request. It is on its way only if it was before, or if it has just come
through the check or out of `Tag`. -/
inductive Moved (n : FileNode S) (e : FileEvent) (j : ℕ) (m : RequestFileMessage) :
    RequestPC → Prop
  | kept {pc : RequestPC} (h : n.requests[j]? = some (m, pc)) : Moved n e j m pc
  | received : Moved n e j m .received
  | dropped : Moved n e j m .dropped
  | onward {pc pc' : RequestPC} (h : n.requests[j]? = some (m, pc)) (before : OnItsWay pc)
      (after : OnItsWay pc') : Moved n e j m pc'
  | checked (event : e = .authenticate j) (h : n.requests[j]? = some (m, .received)) :
      Moved n e j m (if m.serviceIndex = n.index then .recording else .waiting)
  | recorded (event : e = .recorded j) (h : n.requests[j]? = some (m, .recording)) :
      Moved n e j m .waiting

theorem moved_goOn {k : ℕ} {m' : RequestFileMessage} {pc pc₁ pc' : RequestPC}
    (hk : n.requests[k]? = some (m', pc)) (hj : (n.goOn k m' pc₁).requests[j]? = some (m, pc'))
    (h : n.Moved e k m' pc₁) : n.Moved e j m pc' := by
  rcases (getElem?_set_eq_some hk).mp hj with ⟨rfl, heq⟩ | ⟨_, hold⟩
  · cases heq
    exact h
  · exact .kept hold

theorem moved_of_step (h : n.step P e = some u) {pc' : RequestPC}
    (hj : u.requests[j]? = some (m, pc')) : n.Moved e j m pc' := by
  cases step_effect h with
  | request m' =>
    rcases getElem?_concat_eq_some.mp hj with hold | ⟨_, heq⟩
    · exact .kept hold
    · cases heq
      exact .received
  | @authenticate k m' valid hk =>
    apply moved_goOn hk hj
    cases valid with
    | true => exact .checked rfl hk
    | false => exact .dropped
  | recorded hk => exact moved_goOn hk hj (.recorded rfl hk)
  | rLock hk => exact moved_goOn hk hj (.onward hk (.inl rfl) (.inr (.inl rfl)))
  | read hk =>
    exact moved_goOn hk hj (.onward hk (.inr (.inl rfl)) (.inr (.inr (.inl ⟨_, rfl⟩))))
  | rUnlock hk =>
    exact moved_goOn hk hj (.onward hk (.inr (.inr (.inl ⟨_, rfl⟩)))
      (.inr (.inr (.inr (.inl ⟨_, rfl⟩)))))
  | answer hk =>
    exact moved_goOn hk hj (.onward hk (.inr (.inr (.inr (.inl ⟨_, rfl⟩))))
      (.inr (.inr (.inr (.inr ⟨_, rfl⟩)))))
  | poll | encryptedFile | lock | acquire | write | unlock => exact .kept hj

def requestWork : RequestPC → ℕ
  | .waiting => 4
  | .reading => 3
  | .found _ => 2
  | .unlocked _ => 1
  | _ => 0

def fileWork : FilePC → ℕ
  | .arrived => 4
  | .locking => 3
  | .locked => 2
  | .written => 1
  | .finished => 0

def left (n : FileNode S) : ℕ :=
  work (fun r => requestWork r.2) n.requests + work (fun f => fileWork f.2) n.files

/-- The request can still be answered: no request polls in vain, its file has arrived, and the node
has its share. -/
structure Answerable (j : ℕ) (m : RequestFileMessage) (n : FileNode S) : Prop where
  consistent : n.Consistent
  allFound : n.AllFound
  share : n.priShare.isSome
  request : ∃ pc, n.requests[j]? = some (m, pc) ∧ OnItsWay pc
  arrived : ∃ f ∈ n.files, f.1.id = m.metaFileID

/-- A request goes on towards its answer. -/
theorem Answerable.goOn (hn : n.Answerable j m) {k : ℕ} {m' : RequestFileMessage}
    {pc pc' : RequestPC} (hk : n.requests[k]? = some (m', pc)) (hpc : OnItsWay pc')
    (hlt : requestWork pc' < requestWork pc) (h : n.step P e = some (n.goOn k m' pc'))
    (hfirst : n.FileFirst e) :
    (n.goOn k m' pc').Answerable j m ∧ (n.goOn k m' pc').left < n.left := by
  refine ⟨⟨hn.consistent.step h, (allFound_step hn.allFound h).mpr hfirst, hn.share, ?_,
    hn.arrived⟩, Nat.add_lt_add_right (work_set_lt hk hlt) _⟩
  obtain ⟨old, hj, hold⟩ := hn.request
  by_cases hjk : j = k
  · subst hjk
    rw [hk] at hj
    cases hj
    exact ⟨pc', (getElem?_set_eq_some hk).mpr (.inl ⟨rfl, rfl⟩), hpc⟩
  · exact ⟨old, (getElem?_set_eq_some hk).mpr (.inr ⟨hjk, hj⟩), hold⟩

/-- A file goes on towards the table. -/
theorem Answerable.goOnFile (hn : n.Answerable j m) {k : ℕ} {f : EncryptedFileMessage}
    {pc pc' : FilePC} (hk : n.files[k]? = some (f, pc))
    (hlt : fileWork pc' < fileWork pc) {table : GoMap String Data}
    (h : n.step P e = some { n.goOnFile k f pc' with dataTable := table })
    (hfirst : n.FileFirst e) :
    ({ n.goOnFile k f pc' with dataTable := table } : FileNode S).Answerable j m ∧
      ({ n.goOnFile k f pc' with dataTable := table } : FileNode S).left < n.left := by
  refine ⟨⟨hn.consistent.step h, (allFound_step hn.allFound h).mpr hfirst, hn.share, hn.request,
    ?_⟩, Nat.add_lt_add_left (work_set_lt hk hlt) _⟩
  obtain ⟨g, hg, hid⟩ := hn.arrived
  obtain ⟨i, hi⟩ := List.mem_iff_getElem?.mp hg
  by_cases hik : i = k
  · subst hik
    rw [hk] at hi
    cases hi
    exact ⟨(f, pc'), List.mem_of_getElem? ((getElem?_set_eq_some hk).mpr (.inl ⟨rfl, rfl⟩)), hid⟩
  · exact ⟨g, List.mem_of_getElem? ((getElem?_set_eq_some hk).mpr (.inr ⟨hik, hi⟩)), hid⟩

/-- Whoever holds the lock can go on. -/
theorem Answerable.release (hn : n.Answerable j m)
    (hheld : n.ReadLocked ∨ n.WriteLocked) :
    ∃ e u, e.Internal ∧ n.step P e = some u ∧ u.Answerable j m ∧ u.left < n.left := by
  by_cases hread : n.ReadLocked
  · obtain ⟨⟨m', pc⟩, hr, hreads⟩ := hread
    obtain ⟨k, hk⟩ := List.mem_iff_getElem?.mp hr
    cases pc with
    | reading =>
      have hfound := hn.allFound _ hr rfl
      obtain ⟨data, hdata⟩ := Finmap.mem_iff.mp hfound
      have hstep : n.step P (.read k) = some (n.goOn k m' (.found data)) := by
        simp [step, act, hk, hdata, Turn.toOption]
      obtain ⟨ha, hlt⟩ := hn.goOn hk (.inr (.inr (.inl ⟨data, rfl⟩))) (by simp [requestWork])
        hstep trivial
      exact ⟨.read k, _, trivial, hstep, ha, hlt⟩
    | found data =>
      have hstep : n.step P (.rUnlock k) = some (n.goOn k m' (.unlocked data)) := by
        simp [step, act, hk, Turn.toOption]
      obtain ⟨ha, hlt⟩ := hn.goOn hk (.inr (.inr (.inr (.inl ⟨data, rfl⟩)))) (by simp [requestWork])
        hstep trivial
      exact ⟨.rUnlock k, _, trivial, hstep, ha, hlt⟩
    | _ => exact hreads.elim
  · obtain ⟨⟨f, pc⟩, hf, hwrites⟩ := hheld.resolve_left hread
    obtain ⟨k, hk⟩ := List.mem_iff_getElem?.mp hf
    cases pc with
    | locking =>
      have hstep : n.step P (.acquire k) = some (n.goOnFile k f .locked) := by
        simp [step, act, hk, hread, Turn.toOption]
      obtain ⟨ha, hlt⟩ := hn.goOnFile hk (by decide) hstep trivial
      exact ⟨.acquire k, _, trivial, hstep, ha, hlt⟩
    | locked =>
      have hstep : n.step P (.write k) = some { n.goOnFile k f .written with
          dataTable := n.dataTable.insert f.id ⟨f.c, f.u⟩ } := by
        simp [step, act, hk, Turn.toOption]
      obtain ⟨ha, hlt⟩ := hn.goOnFile hk (by decide) hstep trivial
      exact ⟨.write k, _, trivial, hstep, ha, hlt⟩
    | written =>
      have hstep : n.step P (.unlock k) = some (n.goOnFile k f .finished) := by
        simp [step, act, hk, Turn.toOption]
      obtain ⟨ha, hlt⟩ := hn.goOnFile hk (by decide) hstep trivial
      exact ⟨.unlock k, _, trivial, hstep, ha, hlt⟩
    | _ => exact hwrites.elim

/-- As long as the request is not answered there is a step that brings it closer. -/
theorem Answerable.progress (hn : n.Answerable j m)
    (hgoal : ¬ ∃ response, n.requests[j]? = some (m, .answered response)) :
    ∃ e u, e.Internal ∧ n.step P e = some u ∧ u.Answerable j m ∧ u.left < n.left := by
  by_cases hheld : n.ReadLocked ∨ n.WriteLocked
  · exact hn.release hheld
  obtain ⟨hread, hwrite⟩ := not_or.mp hheld
  obtain ⟨pc, hj, hpc⟩ := hn.request
  have hmem := List.mem_of_getElem? hj
  rcases hpc with rfl | rfl | ⟨data, rfl⟩ | ⟨data, rfl⟩ | ⟨response, rfl⟩
  · by_cases harrived : ∃ f ∈ n.files, f.2 = .arrived
    · obtain ⟨⟨f, _⟩, hf, rfl⟩ := harrived
      obtain ⟨k, hk⟩ := List.mem_iff_getElem?.mp hf
      have hstep : n.step P (.lock k) = some (n.goOnFile k f .locking) := by
        simp [step, act, hk, hwrite, Turn.toOption]
      obtain ⟨ha, hlt⟩ := hn.goOnFile hk (by decide) hstep trivial
      exact ⟨.lock k, _, trivial, hstep, ha, hlt⟩
    · obtain ⟨⟨f, pc⟩, hf, hid⟩ := hn.arrived
      have hfinished : pc = .finished := by
        cases pc with
        | arrived => exact absurd ⟨_, hf, rfl⟩ harrived
        | finished => rfl
        | _ => exact absurd ⟨_, hf, trivial⟩ hwrite
      have hstored := hn.consistent.stored _ hf (.inr hfinished)
      have hstep : n.step P (.rLock j) = some (n.goOn j m .reading) := by
        simp [step, act, hj, hwrite, Turn.toOption]
      have hfirst : n.FileFirst (.rLock j) := by
        intro m' hm'
        rw [hj] at hm'
        cases hm'
        exact hid ▸ hstored
      obtain ⟨ha, hlt⟩ := hn.goOn hj (.inr (.inl rfl)) (by decide) hstep hfirst
      exact ⟨.rLock j, _, trivial, hstep, ha, hlt⟩
  · exact absurd ⟨_, hmem, trivial⟩ hread
  · exact absurd ⟨_, hmem, trivial⟩ hread
  · obtain ⟨share, hshare⟩ := Option.isSome_iff_exists.mp hn.share
    have hstep : n.step P (.answer j) =
        some (n.goOn j m (.answered (n.response P share m data))) := by
      simp [step, act, hj, hshare, Turn.toOption]
    obtain ⟨ha, hlt⟩ := hn.goOn hj (.inr (.inr (.inr (.inr ⟨_, rfl⟩)))) (by simp [requestWork])
      hstep trivial
    exact ⟨.answer j, _, trivial, hstep, ha, hlt⟩
  · exact absurd ⟨response, hj⟩ hgoal

/-- Where no request polls in vain, every waiting request whose file has arrived can be answered. -/
theorem neverStuck_of_allFound (hn : n.Consistent) (hall : n.AllFound)
    (hshare : n.priShare.isSome) : n.NeverStuck P := by
  intro j m pc hj hpc harrived
  have hway : OnItsWay pc := hpc.elim .inl fun h => .inr (.inl h)
  have ha : n.Answerable j m := ⟨hn, hall, hshare, ⟨pc, hj, hway⟩, harrived⟩
  have hreaches : ∃ es u, Run (step P) (fun _ e => e.Internal) n es u ∧
      ∃ response, u.requests[j]? = some (m, .answered response) :=
    reaches_of_progress (I := Answerable j m) left (fun _ hn hgoal => hn.progress hgoal) ha
  obtain ⟨es, u, hrun, response, hu⟩ := hreaches
  exact ⟨es, u, response, hrun, hu⟩

/-- A request that polls in vain under the read lock, which no file can be entered under. -/
def Hanging (j : ℕ) (m : RequestFileMessage) (n : FileNode S) : Prop :=
  n.requests[j]? = some (m, .reading) ∧ m.metaFileID ∉ n.dataTable

theorem Hanging.goOn (hj : Hanging j m n) {k : ℕ} {m' : RequestFileMessage} {pc pc' : RequestPC}
    (hk : n.requests[k]? = some (m', pc)) (hpc : pc ≠ .reading) :
    Hanging j m (n.goOn k m' pc') := by
  refine ⟨(getElem?_set_eq_some hk).mpr (.inr ⟨?_, hj.1⟩), hj.2⟩
  rintro rfl
  rw [hj.1] at hk
  cases hk
  exact hpc rfl

theorem Hanging.step (hj : Hanging j m n) (hn : n.Consistent) (h : n.step P e = some u) :
    Hanging j m u := by
  cases step_effect h with
  | request => exact ⟨getElem?_concat_eq_some.mpr (.inl hj.1), hj.2⟩
  | authenticate hk => exact hj.goOn hk nofun
  | recorded hk => exact hj.goOn hk nofun
  | rLock hk => exact hj.goOn hk nofun
  | read hk hdata =>
    refine ⟨(getElem?_set_eq_some hk).mpr (.inr ⟨?_, hj.1⟩), hj.2⟩
    rintro rfl
    rw [hj.1] at hk
    cases hk
    exact hj.2 (Finmap.mem_of_lookup_eq_some hdata)
  | rUnlock hk => exact hj.goOn hk nofun
  | answer hk => exact hj.goOn hk nofun
  | write hk =>
    have hread : n.ReadLocked := ⟨_, List.mem_of_getElem? hj.1, trivial⟩
    exact absurd rfl (hn.excludes hread _ (List.mem_of_getElem? hk)).1
  | poll | encryptedFile | lock | acquire | unlock => exact hj

/-- No run gets a hanging request to its answer. -/
theorem Hanging.stuck (hj : Hanging j m n) (hn : n.Consistent) {f : EncryptedFileMessage}
    (hf : f ∈ n.files.map (·.1)) (hid : f.id = m.metaFileID) : ¬ n.NeverStuck P := by
  intro hnever
  obtain ⟨task, htask, rfl⟩ := List.mem_map.mp hf
  obtain ⟨es, u, response, hrun, hu⟩ := hnever j m .reading hj.1 (.inr rfl) ⟨task, htask, hid⟩
  have hkept : u.Consistent ∧ Hanging j m u :=
    hrun.invariant (I := fun u => u.Consistent ∧ Hanging j m u) ⟨hn, hj⟩
      fun hkept _ hstep => ⟨hkept.1.step hstep, hkept.2.step hkept.1 hstep⟩
  rw [hkept.2.1] at hu
  cases hu

def Fresh (n : FileNode S) : Prop := n.priShare.isSome ∧ n.requests = [] ∧ n.files = []

theorem config_of_step (h : n.step P e = some u) :
    u.priShare = n.priShare ∧ u.index = n.index := by
  cases step_effect h <;> exact ⟨rfl, rfl⟩

/-- No request is stuck, now or once one more file comes in, exactly where none polls in vain. -/
theorem neverStuck_iff_allFound (hn : n.Consistent) (hshare : n.priShare.isSome) :
    (n.NeverStuck P ∧ ∀ f, (n.arrive f).NeverStuck P) ↔ n.AllFound := by
  constructor
  · rintro ⟨_, harrive⟩ ⟨m, pc⟩ hr rfl
    by_contra hmissing
    obtain ⟨j, hj⟩ := List.mem_iff_getElem?.mp hr
    have hhanging : Hanging j m (n.arrive ⟨m.metaFileID, none, []⟩) := ⟨hj, hmissing⟩
    apply hhanging.stuck (P := P) (hn.arrive _) (f := ⟨m.metaFileID, none, []⟩) ?_ rfl (harrive _)
    simp [arrive]
  · intro hall
    refine ⟨neverStuck_of_allFound hn hall hshare, fun f => ?_⟩
    exact neverStuck_of_allFound (hn.arrive f) hall hshare

theorem Fresh.consistent (hn : n.Fresh) : n.Consistent := by
  obtain ⟨_, hrequests, hfiles⟩ := hn
  constructor
  · rintro ⟨r, hr, _⟩
    rw [hrequests] at hr
    cases hr
  · intro f hf
    rw [hfiles] at hf
    cases hf

theorem consistent_of_run (hn : n.Fresh) {es : List FileEvent} (h : AnyRun (step P) n es u) :
    u.Consistent ∧ u.priShare.isSome :=
  h.invariant (I := fun u => u.Consistent ∧ u.priShare.isSome) ⟨hn.consistent, hn.1⟩
    fun hu _ hstep => ⟨hu.1.step hstep, (config_of_step hstep).1 ▸ hu.2⟩

/-- In every state of a run, and once one more file comes in there, each waiting request whose file
has arrived can be answered, if and only if no request took the read lock before its file was in the
table. -/
theorem never_stuck_iff (hn : n.Fresh) {es : List FileEvent} (h : AnyRun (step P) n es u) :
    Always (step P) (fun n => n.NeverStuck P ∧ ∀ f, (n.arrive f).NeverStuck P) n es ↔
      Run (step P) FileFirst n es u := by
  apply always_iff_run h
  · rw [neverStuck_iff_allFound hn.consistent hn.1]
    intro r hr
    rw [hn.2.1] at hr
    cases hr
  · intro es t v e prior ht hstep
    obtain ⟨hconsistent, hshare⟩ := consistent_of_run hn prior
    obtain ⟨hconsistent', hshare'⟩ := consistent_of_run hn (.snoc prior trivial hstep)
    rw [neverStuck_iff_allFound hconsistent' hshare']
    exact allFound_step ((neverStuck_iff_allFound hconsistent hshare).mp ht) hstep

end FileNode

namespace Sample

def requestPrimitives : RequestPrimitives ℕ where
  __ := JobPortal.Sample.primitives
  marshalRequestFile m := utf8 m.metaFileID
  hmacSha256 key data := key ++ data
  partialDecryption share u q := UInt8.ofNat share :: (u ++ q)

def fileNode : FileNode ℕ where
  index := 0
  signMethod := 2
  hrSecretTable := ∅
  priShare := some 7
  pubKey := [9]

def requestFor (file : String) (serviceIndex : ℕ) : RequestFileMessage where
  hrid := "1"
  address := "A"
  metaFileID := file
  pubKey := [5]
  mac := some (utf8 "A" ++ 0 :: utf8 file)
  serviceIndex := serviceIndex

def requestFirst : List FileEvent :=
  [.request (requestFor "f" 3), .authenticate 0, .rLock 0, .encryptedFile ⟨"f", some [1], [2]⟩]

theorem requestFirst_isSome :
    (exec (FileNode.step requestPrimitives) fileNode requestFirst).isSome := by
  decide

/-- The file can never be entered, and the request is never answered. -/
theorem file_counterexample :
    ∃ n, AnyRun (FileNode.step requestPrimitives) fileNode requestFirst n ∧
      ¬ n.NeverStuck requestPrimitives := by
  have hrun := run_exec_get requestFirst_isSome
  refine ⟨_, hrun, ?_⟩
  have hfresh : fileNode.Fresh := ⟨rfl, rfl, rfl⟩
  have hhanging : FileNode.Hanging 0 (requestFor "f" 3)
      ((exec (FileNode.step requestPrimitives) fileNode requestFirst).get requestFirst_isSome) :=
    ⟨by decide, by decide⟩
  exact hhanging.stuck (FileNode.consistent_of_run hfresh hrun).1
    (f := ⟨"f", some [1], [2]⟩) (by decide) rfl

def fileFirst : List FileEvent :=
  [.encryptedFile ⟨"f", some [1], [2]⟩, .request (requestFor "f" 3), .authenticate 0, .lock 0,
    .acquire 0, .write 0, .unlock 0, .rLock 0, .read 0, .rUnlock 0, .answer 0]

theorem fileFirst_isSome :
    (exec (FileNode.step requestPrimitives) fileNode fileFirst).isSome := by
  decide

theorem never_stuck_iff_fileFirst :
    Always (FileNode.step requestPrimitives) (fun n => n.NeverStuck requestPrimitives ∧
        ∀ f, (n.arrive f).NeverStuck requestPrimitives) fileNode fileFirst ↔
      Run (FileNode.step requestPrimitives) FileNode.FileFirst fileNode fileFirst
        ((exec (FileNode.step requestPrimitives) fileNode fileFirst).get fileFirst_isSome) :=
  FileNode.never_stuck_iff ⟨rfl, rfl, rfl⟩ (run_exec_get fileFirst_isSome)

end Sample

end JobPortal.Cothority
