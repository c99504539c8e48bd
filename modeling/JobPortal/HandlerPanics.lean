import JobPortal.DealExchange
import JobPortal.HrDownload
import JobPortal.KeyCollection

/-! The handlers that run in goroutines of their own. Nothing recovers a panic there, so one message
can take down the whole process. -/
namespace JobPortal.Cothority

open Goroutines Hex Runs

namespace KeyCollection

variable {E : Type} {unmarshal : Bytes → E} {s : KeyCollection E} {e : KeyEvent}

/-- The table takes in every key that is brought to it. -/
def Harmless (s : KeyCollection E) : KeyEvent → Prop
  | .set j => ∀ m, s.tasks[j]? = some (m, .checked) → s.pubKeyTable.Fits m.index
  | _ => True

theorem act_eq_panicked_iff : s.act unmarshal e = .panicked ↔ ¬ s.Harmless e := by
  cases e with
  | set j =>
    simp only [act, Harmless]
    split
    · rename_i m hj
      rw [Turn.map_eq_panicked, Turn.orPanic_eq_panicked, SafePubKeyTable.set_eq_none_iff]
      simp [hj]
    · rename_i hj
      simpa using fun m hm => absurd hm (hj m)
  | _ =>
    simp only [act, Harmless]
    repeat' split
    all_goals simp

end KeyCollection

namespace DealExchange

variable {G : Type} {D : DistKeyGenerator G} {s : DealExchange G} {e : ExchangeEvent G}

/-- No message without a response comes to the table. -/
def Harmless (s : DealExchange G) : ExchangeEvent G → Prop
  | .markResponse j => ∀ m, s.responses[j]? = some (m, .checked) → m.res.isSome
  | _ => True

theorem act_eq_panicked_iff : s.act D e = .panicked ↔ ¬ s.Harmless e := by
  cases e with
  | markResponse j =>
    simp only [act, Harmless]
    split
    · rename_i m hj
      cases hres : m.res <;> simp [hj, hres]
    · rename_i hj
      simpa using fun m hm => absurd hm (hj m)
  | _ =>
    simp only [act, Harmless]
    repeat' split
    all_goals simp

end DealExchange

namespace FileNode

variable {S : Type} {P : RequestPrimitives S} {n : FileNode S} {e : FileEvent}

/-- A request is under HMAC, or it is signed with the key of the address that it names. -/
def Signed (P : RequestPrimitives S) (n : FileNode S) (m : RequestFileMessage) : Prop :=
  n.signMethod = 1 ∨ ∃ key ∈ P.getPublicKey m.address,
    P.verifyRSA (P.marshalRequestFile { m with mac := none }) (m.mac.getD []) key = true

/-- Requests are signed, and are only answered by a node that has its share. -/
def Harmless (P : RequestPrimitives S) (n : FileNode S) : FileEvent → Prop
  | .authenticate j => ∀ m, n.requests[j]? = some (m, .received) → n.Signed P m
  | .answer j => ∀ m data, n.requests[j]? = some (m, .unlocked data) → n.priShare.isSome
  | _ => True

theorem authenticate_eq_panicked_iff {m : RequestFileMessage} :
    n.authenticate P m = .panicked ↔ ¬ n.Signed P m := by
  unfold authenticate Signed
  dsimp only
  split_ifs with hmethod
  · split <;> simp [hmethod]
  · split
    · rename_i key hkey
      split_ifs with hverify <;> simp [hmethod, hkey, hverify]
    · rename_i hkey
      simp [hmethod, hkey]

theorem act_eq_panicked_iff : n.act P e = .panicked ↔ ¬ n.Harmless P e := by
  cases e with
  | authenticate j =>
    simp only [act, Harmless]
    split
    · rename_i m hj
      rw [Turn.map_eq_panicked, authenticate_eq_panicked_iff]
      simp [hj]
    · rename_i hj
      simpa using fun m hm => absurd hm (hj m)
  | answer j =>
    simp only [act, Harmless]
    split
    · rename_i m data hj
      cases hshare : n.priShare <;> simp [hj]
    · rename_i hj
      simpa using fun m data hm => absurd hm (hj m data)
  | _ =>
    simp only [act, Harmless]
    repeat' split
    all_goals simp

end FileNode

namespace HR

variable {E : Type} {unmarshal : Bytes → E} {h : HR E} {e : HREvent}

/-- The table takes in every share that is brought to it. -/
def Harmless (h : HR E) : HREvent → Prop
  | .takeShare i => ∀ m, h.responses[i]? = some ⟨m, true⟩ → h.shareTable.Fits m.i
  | _ => True

theorem act_eq_panicked_iff : h.act unmarshal e = .panicked ↔ ¬ h.Harmless e := by
  cases e with
  | takeShare i =>
    simp only [act, Harmless]
    split
    · rename_i m hi
      rw [Turn.map_eq_panicked, Turn.orPanic_eq_panicked, SafeShareTable.set_eq_none_iff]
      simp [hi]
    · rename_i hi
      simpa using fun m hm => absurd hm (hi m)
  | _ =>
    simp only [act, Harmless]
    repeat' split
    all_goals simp

end HR

/-- A process that is a cothority node and an HR. -/
structure Process (E G S : Type) where
  keys : KeyCollection E
  deals : DealExchange G
  files : FileNode S
  hr : HR E

inductive ProcessEvent (G S : Type)
  | keys (e : KeyEvent)
  | deals (e : ExchangeEvent G)
  | files (e : FileEvent)
  | hr (e : HREvent)
  /-- `CheckCertified` takes over the share and the common key. -/
  | certified (share : S) (pubKey : Bytes)
  /-- `CheckCertified` sets the flag. -/
  | dkgDone

namespace Process

variable {E G S : Type} (unmarshal : Bytes → E) (D : DistKeyGenerator G) (P : RequestPrimitives S)

/-- The key generation is started by the keys, and its end is the same for all. -/
def act (s : Process E G S) : ProcessEvent G S → Turn (Process E G S)
  | .keys .dkgDone | .deals .dkgDone => .blocked
  | .keys e => (s.keys.act unmarshal e).map fun keys => { s with keys := keys }
  | .deals (.initDKG dkg) =>
    if s.keys.inits = [] then .blocked
    else .done { s with deals := { s.deals with dkg := some dkg } }
  | .deals e => (s.deals.act D e).map fun deals => { s with deals := deals }
  | .files e => (s.files.act P e).map fun files => { s with files := files }
  | .hr e => (s.hr.act unmarshal e).map fun hr => { s with hr := hr }
  | .certified share pubKey =>
    if s.deals.dkg.isSome then
      .done { s with files := { s.files with priShare := some share, pubKey := pubKey } }
    else .blocked
  | .dkgDone =>
    if s.files.priShare.isSome then
      .done { s with
        keys := { s.keys with dkgDone := true }
        deals := { s.deals with dkgDone := true } }
    else .blocked

def Harmless (s : Process E G S) : ProcessEvent G S → Prop
  | .keys e => s.keys.Harmless e
  | .deals e => s.deals.Harmless e
  | .files e => s.files.Harmless P e
  | .hr e => s.hr.Harmless e
  | .certified .. | .dkgDone => True

variable {unmarshal D P} {s : Process E G S}

theorem act_eq_panicked_iff (e : ProcessEvent G S) :
    s.act unmarshal D P e = .panicked ↔ ¬ s.Harmless P e := by
  cases e with
  | keys e =>
    cases e with
    | dkgDone => simp [act, Harmless, KeyCollection.Harmless]
    | _ => simp only [act, Harmless, Turn.map_eq_panicked, KeyCollection.act_eq_panicked_iff]
  | deals e =>
    cases e with
    | dkgDone => simp [act, Harmless, DealExchange.Harmless]
    | initDKG dkg =>
      simp only [act, Harmless, DealExchange.Harmless]
      split <;> simp
    | _ => simp only [act, Harmless, Turn.map_eq_panicked, DealExchange.act_eq_panicked_iff]
  | files e => exact Turn.map_eq_panicked.trans FileNode.act_eq_panicked_iff
  | hr e => exact Turn.map_eq_panicked.trans HR.act_eq_panicked_iff
  | certified | dkgDone =>
    simp only [act, Harmless]
    split <;> simp

/-- A process stays up exactly as long as none of its handlers takes a step that is not harmless. -/
theorem no_panic_iff {es : List (ProcessEvent G S)} {t : Option (Process E G S)}
    (h : AnyRun (crashing (act unmarshal D P)) (some s) es t) :
    t.isSome ↔
      Run (crashing (act unmarshal D P)) (fun s e => ∀ s' ∈ s, s'.Harmless P e) (some s) es t :=
  survives_iff_run (fun _ e => act_eq_panicked_iff e) h

end Process

namespace Sample

def process : Process Bytes Unit ℕ where
  keys := .newKeyCollection 2
  deals := .newDealExchange 0 ["A", "B"]
  files := { fileNode with priShare := none }
  hr := .newHR 2

def broadcast (res : Option Response) : List (ProcessEvent Unit ℕ) :=
  [.deals (.receiveResponse ⟨1, res⟩), .deals (.checkResponse 0), .deals (.markResponse 0)]

theorem broadcast_isSome (res : Option Response) :
    (exec (crashing (Process.act id generator requestPrimitives)) (some process)
      (broadcast res)).isSome := by
  cases res <;> rfl

/-- A response that is nil takes the process down. -/
theorem panic_counterexample :
    AnyRun (crashing (Process.act id generator requestPrimitives)) (some process)
      (broadcast none) none :=
  run_exec_get (broadcast_isSome none)

theorem no_panic_iff_response :
    let t := (exec (crashing (Process.act id generator requestPrimitives)) (some process)
      (broadcast (some ⟨0, [2]⟩))).get (broadcast_isSome (some ⟨0, [2]⟩))
    t.isSome ↔
      Run (crashing (Process.act id generator requestPrimitives))
        (fun s e => ∀ s' ∈ s, s'.Harmless requestPrimitives e) (some process)
        (broadcast (some ⟨0, [2]⟩)) t :=
  Process.no_panic_iff (run_exec_get (broadcast_isSome (some ⟨0, [2]⟩)))

end Sample

end JobPortal.Cothority
