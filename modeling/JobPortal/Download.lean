import JobPortal.BlobStore
import JobPortal.PbftSample

/-! A download, and the messages that write the blob store while it goes on. A file is fetched chunk
by chunk, each from the node's own store or from a peer, and nothing that comes in is checked. -/
namespace JobPortal.Sharing

open Hex Runs

structure DataReplyMessage where
  requestID : String
  key : Bytes
  value : Option Bytes
  deriving DecidableEq, Repr

structure EncryptedChunkMessage where
  chunkKey : Bytes
  chunk : Option Bytes
  deriving DecidableEq, Repr

def chanSize : ℕ := 1000

/-- A message that was fed to a request. Replies to searches are fed by their request ID too. -/
inductive Fed
  | dataReply (m : DataReplyMessage)
  | searchReply
  deriving DecidableEq, Repr

/-- Where `FetchFile` stands: before it reads the store, before it asks a peer, or at its
channel. -/
inductive FetchPC
  | looking
  | asking
  | waiting (requestID : String) (channel : List Fed) (closed : Bool)
  deriving DecidableEq, Repr

/-- What a download has got: the metafile, the chunks by their keys, what was written to the buffer,
and the key it fetches now with those after it. -/
structure Progress where
  metafile : Option Bytes
  got : List (Bytes × Option Bytes)
  file : Bytes
  key : Bytes
  rest : List Bytes
  deriving DecidableEq, Repr

inductive Download
  | metafile (fetch : FetchPC)
  | chunk (progress : Progress) (fetch : FetchPC)
  | failed (err : String)
  | done (metafile : Option Bytes) (got : List (Bytes × Option Bytes)) (file : Bytes)
  deriving DecidableEq, Repr

/-- A node that downloads the file of one metahash. `replying` are the replies that were fed but not
stored yet. -/
structure Sharer where
  store : BlobStore
  catalog : GoMap Bytes (Finset String)
  routingTable : GoMap String String
  replying : List DataReplyMessage := []
  metahash : Bytes
  download : Download := .metafile .looking

inductive SharerEvent
  /-- `FetchFile` reads the store. -/
  | get
  /-- `FetchFile` turns to a peer of the catalog. -/
  | request (dst requestID : String)
  /-- `FetchFile` reads its channel. -/
  | take
  /-- A reply comes in and is fed to its request. -/
  | feed (m : DataReplyMessage)
  /-- A reply is stored. -/
  | set (i : ℕ)
  | searchReply (requestID : String)
  | encryptedChunk (m : EncryptedChunkMessage)
  /-- The retries of a request are used up. -/
  | close
  | upload (chunkSize : ℕ) (data : Bytes)
  | updateCatalog (key : Bytes) (peer : String)
  | setRoute (origin relayAddr : String)
  deriving DecidableEq, Repr

namespace Download

/-- The download once `FetchFile` has returned a value. The metafile is split into lines, of which
there is always one. -/
def accept (d : Download) (value : Option Bytes) : Download :=
  match d with
  | .metafile _ =>
    match splitKeys (value.getD []) with
    | key :: rest => .chunk ⟨value, [], [], key, rest⟩ .looking
    | [] => .done value [] []
  | .chunk p _ =>
    let got := p.got ++ [(p.key, value)]
    let file := p.file ++ value.getD []
    match p.rest with
    | key :: rest => .chunk ⟨p.metafile, got, file, key, rest⟩ .looking
    | [] => .done p.metafile got file
  | .failed _ | .done .. => d

def fetching (d : Download) (metahash : Bytes) : Option (Bytes × FetchPC) :=
  match d with
  | .metafile fetch => some (metahash, fetch)
  | .chunk p fetch => some (p.key, fetch)
  | .failed _ | .done .. => none

def goOn (d : Download) (fetch : FetchPC) : Download :=
  match d with
  | .metafile _ => .metafile fetch
  | .chunk p _ => .chunk p fetch
  | .failed _ | .done .. => d

end Download

namespace Sharer

variable (P : Primitives) (s : Sharer)

def accept (value : Option Bytes) : Sharer := { s with download := s.download.accept value }

def goOn (fetch : FetchPC) : Sharer := { s with download := s.download.goOn fetch }

def fail (err : String) : Sharer := { s with download := .failed err }

def feed (requestID : String) (m : Fed) : Option Sharer :=
  match s.download.fetching s.metahash with
  | some (_, .waiting id channel closed) =>
    if id = requestID ∧ closed = false then
      if channel.length < chanSize then some (s.goOn (.waiting id (channel ++ [m]) closed))
      else none
    else some s
  | _ => some s

def step (s : Sharer) : SharerEvent → Option Sharer
  | .get =>
    match s.download.fetching s.metahash with
    | some (key, .looking) =>
      match s.store.get key with
      | some value => some (s.accept (some value))
      | none => some (s.goOn .asking)
    | _ => none
  | .request dst requestID =>
    match s.download.fetching s.metahash with
    | some (key, .asking) =>
      match s.catalog.lookup key with
      | none => some (s.fail "could not find random pair to request data")
      | some peers =>
        if dst ∈ peers then
          if dst ∈ s.routingTable then some (s.goOn (.waiting requestID [] false))
          else some (s.fail "SendDataRequest could not find neighbor")
        else none
    | _ => none
  | .take =>
    match s.download.fetching s.metahash with
    | some (_, .waiting _ (.dataReply m :: _) _) => some (s.accept m.value)
    | some (_, .waiting _ (.searchReply :: _) _) => some (s.fail "message wrong type")
    | some (_, .waiting _ [] true) => some (s.fail "the channel is closed, retry fail")
    | _ => none
  | .feed m => (s.feed m.requestID (.dataReply m)).map fun s =>
      { s with replying := s.replying ++ [m] }
  | .set i => s.replying[i]?.map fun m =>
      { s with store := s.store.set m.key m.value, replying := s.replying.eraseIdx i }
  | .searchReply requestID => s.feed requestID .searchReply
  | .encryptedChunk m => some { s with store := s.store.set m.chunkKey m.chunk }
  | .close =>
    match s.download.fetching s.metahash with
    | some (_, .waiting id channel false) => some (s.goOn (.waiting id channel true))
    | _ => none
  | .upload chunkSize data =>
    (upload P chunkSize data s.store).map fun (store, _) => { s with store := store }
  | .updateCatalog key peer =>
    some { s with catalog := s.catalog.insert key (insert peer (s.catalog.at key ∅)) }
  | .setRoute origin relayAddr =>
    some { s with routingTable :=
      if relayAddr = "" then s.routingTable.erase origin
      else s.routingTable.insert origin relayAddr }

/-- What a step does to the download: a value is taken in, `FetchFile` goes on or fails, or the
download is not concerned. -/
inductive Effect (s t : Sharer) : SharerEvent → Prop
  | hit {key value : Bytes} (at_key : s.download.fetching s.metahash = some (key, .looking))
      (found : s.store.get key = some value)
      (download : t.download = s.download.accept (some value)) : Effect s t .get
  | reply {key : Bytes} {id : String} {m : DataReplyMessage} {channel : List Fed} {closed : Bool}
      (at_key : s.download.fetching s.metahash =
        some (key, .waiting id (.dataReply m :: channel) closed))
      (download : t.download = s.download.accept m.value) : Effect s t .take
  | goesOn {e : SharerEvent} {key : Bytes} {before : FetchPC} (after : FetchPC)
      (at_key : s.download.fetching s.metahash = some (key, before))
      (missed : e = .get → before = .looking → s.store.get key = none) (other : e ≠ .take)
      (download : t.download = s.download.goOn after) : Effect s t e
  | fails {e : SharerEvent} {key : Bytes} {before : FetchPC} (err : String)
      (at_key : s.download.fetching s.metahash = some (key, before))
      (download : t.download = .failed err) : Effect s t e
  | keeps {e : SharerEvent} (other : e ≠ .get ∧ e ≠ .take)
      (download : t.download = s.download) : Effect s t e

variable {P s} {t : Sharer} {e : SharerEvent}

theorem feed_effect {requestID : String} {m : Fed} (h : s.feed requestID m = some t)
    (he : e ≠ .get ∧ e ≠ .take) :
    Effect s t e ∧ t.metahash = s.metahash ∧ t.store = s.store := by
  unfold feed at h
  split at h
  · rename_i hfetch
    split_ifs at h
    · obtain rfl := Option.some.inj h
      exact ⟨.goesOn _ hfetch (fun hget => absurd hget he.1) he.2 rfl, rfl, rfl⟩
    · obtain rfl := Option.some.inj h
      exact ⟨.keeps he rfl, rfl, rfl⟩
  · obtain rfl := Option.some.inj h
    exact ⟨.keeps he rfl, rfl, rfl⟩

theorem step_effect (h : s.step P e = some t) : Effect s t e ∧ t.metahash = s.metahash := by
  cases e with
  | get =>
    simp only [step] at h
    split at h
    · rename_i key hfetch
      split at h
      · rename_i value hfound
        obtain rfl := Option.some.inj h
        exact ⟨.hit hfetch hfound rfl, rfl⟩
      · rename_i hmiss
        obtain rfl := Option.some.inj h
        exact ⟨.goesOn .asking hfetch (fun _ _ => hmiss) nofun rfl, rfl⟩
    · cases h
  | request dst requestID =>
    simp only [step] at h
    split at h
    · rename_i key hfetch
      split at h
      · obtain rfl := Option.some.inj h
        exact ⟨.fails _ hfetch rfl, rfl⟩
      · split_ifs at h
        · obtain rfl := Option.some.inj h
          exact ⟨.goesOn _ hfetch nofun nofun rfl, rfl⟩
        · obtain rfl := Option.some.inj h
          exact ⟨.fails _ hfetch rfl, rfl⟩
    · cases h
  | take =>
    simp only [step] at h
    split at h
    · rename_i hfetch
      obtain rfl := Option.some.inj h
      exact ⟨.reply hfetch rfl, rfl⟩
    · rename_i hfetch
      obtain rfl := Option.some.inj h
      exact ⟨.fails _ hfetch rfl, rfl⟩
    · rename_i hfetch
      obtain rfl := Option.some.inj h
      exact ⟨.fails _ hfetch rfl, rfl⟩
    · cases h
  | feed m =>
    obtain ⟨u, hu, rfl⟩ := Option.map_eq_some_iff.mp h
    obtain ⟨heff, hmh, _⟩ := feed_effect hu (e := .feed m) ⟨nofun, nofun⟩
    refine ⟨?_, hmh⟩
    cases heff with
    | goesOn after at_key missed other download =>
      exact .goesOn after at_key missed other download
    | fails err at_key download => exact .fails err at_key download
    | keeps other download => exact .keeps other download
  | set i =>
    obtain ⟨m, _, rfl⟩ := Option.map_eq_some_iff.mp h
    exact ⟨.keeps ⟨nofun, nofun⟩ rfl, rfl⟩
  | searchReply requestID =>
    obtain ⟨heff, hmh, _⟩ := feed_effect h (e := .searchReply requestID) ⟨nofun, nofun⟩
    exact ⟨heff, hmh⟩
  | close =>
    simp only [step] at h
    split at h
    · rename_i hfetch
      obtain rfl := Option.some.inj h
      exact ⟨.goesOn _ hfetch nofun nofun rfl, rfl⟩
    · cases h
  | upload chunkSize data =>
    obtain ⟨_, _, rfl⟩ := Option.map_eq_some_iff.mp h
    exact ⟨.keeps ⟨nofun, nofun⟩ rfl, rfl⟩
  | encryptedChunk | updateCatalog | setRoute =>
    obtain rfl := Option.some.inj h
    exact ⟨.keeps ⟨nofun, nofun⟩ rfl, rfl⟩

end Sharer

variable (P : Primitives)

/-- The metafile belongs to the metahash and every chunk to its key. -/
def Sound (metahash : Bytes) (metafile : Option Bytes) (got : List (Bytes × Option Bytes)) : Prop :=
  (∃ text ∈ metafile, IsMetafile P metahash text) ∧
    ∀ p ∈ got, ∃ chunk ∈ p.2, IsChunk P p.1 chunk

instance (metahash : Bytes) (metafile : Option Bytes) (got : List (Bytes × Option Bytes)) :
    Decidable (Sound P metahash metafile got) := inferInstanceAs (Decidable (_ ∧ _))

def MadeOf (metafile : Option Bytes) (got : List (Bytes × Option Bytes)) (file : Bytes) : Prop :=
  got.map (·.1) = splitKeys (metafile.getD []) ∧ file = (got.map fun p => p.2.getD []).flatten

namespace Download

def Belongs (d : Download) (metahash value : Bytes) : Prop :=
  match d with
  | .metafile _ => IsMetafile P metahash value
  | .chunk p _ => IsChunk P p.key value
  | .failed _ | .done .. => True

def SoFar (metahash : Bytes) (d : Download) : Prop :=
  match d with
  | .chunk p _ => Sound P metahash p.metafile p.got
  | .done listing got _ => Sound P metahash listing got
  | .metafile _ | .failed _ => True

/-- Where the download is in the list of the chunks. -/
def InOrder (d : Download) : Prop :=
  match d with
  | .chunk p _ =>
    p.got.map (·.1) ++ p.key :: p.rest = splitKeys (p.metafile.getD []) ∧
      p.file = (p.got.map fun q => q.2.getD []).flatten
  | .done listing got file => MadeOf listing got file
  | .metafile _ | .failed _ => True

def NotFailed (d : Download) : Prop := ∀ err, d ≠ .failed err

variable {P} {metahash : Bytes} {d : Download} {key : Bytes} {before : FetchPC}

theorem goOn_soFar (fetch : FetchPC) : (d.goOn fetch).SoFar P metahash ↔ d.SoFar P metahash := by
  cases d <;> rfl

theorem goOn_inOrder (fetch : FetchPC) : (d.goOn fetch).InOrder ↔ d.InOrder := by
  cases d <;> rfl

theorem splitKeys_ne_nil (text : Bytes) : splitKeys text ≠ [] :=
  List.splitOn_ne_nil metafileSep text

theorem accept_soFar (hfetch : d.fetching metahash = some (key, before)) (value : Option Bytes) :
    (d.accept value).SoFar P metahash ↔
      d.SoFar P metahash ∧ ∃ v ∈ value, d.Belongs P metahash v := by
  cases d with
  | metafile fetch =>
    have hsound : Sound P metahash value [] ↔ ∃ v ∈ value, IsMetafile P metahash v := by
      unfold Sound
      simp
    obtain ⟨key, rest, hsplit⟩ := List.exists_cons_of_ne_nil (splitKeys_ne_nil (value.getD []))
    simp only [accept, hsplit, SoFar, Belongs, true_and]
    exact hsound
  | chunk p fetch =>
    have hsound : Sound P metahash p.metafile (p.got ++ [(p.key, value)]) ↔
        Sound P metahash p.metafile p.got ∧ ∃ v ∈ value, IsChunk P p.key v := by
      simp only [Sound, List.mem_append, List.mem_singleton, or_imp, forall_and, forall_eq,
        and_assoc]
    simp only [accept, Belongs]
    split
    · exact hsound
    · exact hsound
  | failed => cases hfetch
  | done => cases hfetch

theorem accept_inOrder (h : d.InOrder) (value : Option Bytes) : (d.accept value).InOrder := by
  cases d with
  | metafile fetch =>
    obtain ⟨key, rest, hsplit⟩ := List.exists_cons_of_ne_nil (splitKeys_ne_nil (value.getD []))
    simp only [accept, hsplit]
    exact ⟨hsplit.symm, rfl⟩
  | chunk p fetch =>
    obtain ⟨hkeys, hfile⟩ := h
    simp only [accept]
    split
    · rename_i key rest hrest
      refine ⟨?_, by simp [hfile]⟩
      rw [List.map_append, List.append_assoc, ← hkeys, hrest]
      rfl
    · rename_i hrest
      refine ⟨?_, by simp [hfile]⟩
      rw [List.map_append, ← hkeys, hrest]
      rfl
  | failed => exact h
  | done => exact h

end Download

namespace Sharer

/-- What the download takes in belongs to the key it was looked up under: the value the store has,
or the value of the reply. -/
def Answered (s : Sharer) : SharerEvent → Prop
  | .get => ∀ key value, s.download.fetching s.metahash = some (key, .looking) →
      s.store.get key = some value → s.download.Belongs P s.metahash value
  | .take => ∀ key id m channel closed,
      s.download.fetching s.metahash = some (key, .waiting id (.dataReply m :: channel) closed) →
        ∃ value ∈ m.value, s.download.Belongs P s.metahash value
  | _ => True

variable {P} {s t : Sharer} {e : SharerEvent} {es : List SharerEvent}

theorem answered_of_other (h : e ≠ .get ∧ e ≠ .take) : s.Answered P e := by
  cases e with
  | get => exact absurd rfl h.1
  | take => exact absurd rfl h.2
  | _ => trivial

theorem notFailed_of_step (h : s.step P e = some t) (ht : t.download.NotFailed) :
    s.download.NotFailed := by
  rintro err hfailed
  have hnone : s.download.fetching s.metahash = none := by rw [hfailed]; rfl
  cases (step_effect h).1 with
  | hit at_key | reply at_key | goesOn _ at_key | fails _ at_key =>
    rw [hnone] at at_key
    cases at_key
  | keeps _ download => exact ht err (download.trans hfailed)

theorem soFar_of_step (h : s.step P e = some t) (ht : t.download.NotFailed) :
    t.download.SoFar P t.metahash ↔ s.download.SoFar P s.metahash ∧ s.Answered P e := by
  obtain ⟨heff, hmh⟩ := step_effect h
  rw [hmh]
  cases heff with
  | hit at_key found download =>
    rw [download, Download.accept_soFar at_key]
    apply and_congr_right
    intro _
    constructor
    · rintro ⟨v, hv, hbelongs⟩ key' value hkey hvalue
      obtain ⟨rfl, -⟩ := Prod.mk.inj (Option.some.inj (hkey.symm.trans at_key))
      obtain rfl := Option.some.inj (hvalue.symm.trans found)
      obtain rfl := Option.mem_some_iff.mp hv
      exact hbelongs
    · intro hanswered
      exact ⟨_, rfl, hanswered _ _ at_key found⟩
  | reply at_key download =>
    rw [download, Download.accept_soFar at_key]
    apply and_congr_right
    intro _
    constructor
    · intro hbelongs key' id' m' channel' closed' hkey
      have heq := Option.some.inj (hkey.symm.trans at_key)
      injection heq with _ heq
      injection heq with _ hchannel _
      injection hchannel with hm _
      injection hm with hm
      exact hm ▸ hbelongs
    · intro hanswered
      exact hanswered _ _ _ _ _ at_key
  | goesOn after at_key missed other download =>
    rw [download, Download.goOn_soFar]
    refine (and_iff_left ?_).symm
    cases e with
    | get =>
      intro key' value hkey hvalue
      obtain ⟨rfl, rfl⟩ := Prod.mk.inj (Option.some.inj (hkey.symm.trans at_key))
      rw [missed rfl rfl] at hvalue
      cases hvalue
    | take => exact absurd rfl other
    | _ => trivial
  | fails err _ download => exact absurd download (ht err)
  | keeps other download =>
    rw [download]
    exact (and_iff_left (answered_of_other other)).symm

theorem inOrder_of_step (hs : s.download.InOrder) (h : s.step P e = some t) :
    t.download.InOrder := by
  cases (step_effect h).1 with
  | hit _ _ download | reply _ download =>
    rw [download]
    exact Download.accept_inOrder hs _
  | goesOn after _ _ _ download =>
    rw [download]
    exact (Download.goOn_inOrder after).mpr hs
  | fails err _ download =>
    rw [download]
    trivial
  | keeps _ download => exact download ▸ hs

/-- A download returns what it was asked for exactly when everything it took in, from its own store
or from a peer, belongs to the key it was looked up under. -/
theorem download_sound_iff {metafile : Option Bytes} {got : List (Bytes × Option Bytes)}
    {file : Bytes} (h : AnyRun (step P) s es t) (hstart : s.download = .metafile .looking)
    (hdone : t.download = .done metafile got file) :
    Sound P t.metahash metafile got ∧ MadeOf metafile got file ↔
      Run (step P) (Answered P) s es t := by
  have horder : t.download.InOrder := by
    apply h.invariant (I := fun t => t.download.InOrder)
    · rw [hstart]
      trivial
    · exact fun ht _ hstep => inOrder_of_step ht hstep
  have hfailed : t.download.NotFailed := by
    rintro err herr
    rw [hdone] at herr
    cases herr
  have hiff : t.download.SoFar P t.metahash ↔ Run (step P) (Answered P) s es t := by
    apply holds_iff_run (I := fun t => t.download.SoFar P t.metahash)
      (J := fun t => t.download.NotFailed) h hfailed
    · rw [hstart]
      trivial
    · exact notFailed_of_step
    · exact fun _ hstep ht => soFar_of_step hstep ht
  rw [hdone] at horder
  rw [← hiff, hdone]
  exact and_iff_left horder

end Sharer

namespace Sample

/-- A hash that shows the length of the text, so that chunks and lists of hashes differ. -/
def primitives : Primitives where
  __ := JobPortal.Sample.primitives
  sha256 bs := (UInt8.ofNat bs.length :: bs ++ List.replicate 32 0).take 32
  sha256_length bs := by simp

def piece : Bytes := [1, 2, 3]

def oneChunk : Sharer where
  store := ∅
  catalog := (Finmap.insert (metahash primitives [piece]) {"B"} ∅).insert
    (hexKey (primitives.sha256 piece)) {"B"}
  routingTable := Finmap.insert "B" "B" ∅
  metahash := metahash primitives [piece]

def answers (value : Option Bytes) : List SharerEvent :=
  let text : DataReplyMessage :=
    ⟨"r1", metahash primitives [piece], some (metafile primitives [piece])⟩
  let chunk : DataReplyMessage := ⟨"r2", hexKey (primitives.sha256 piece), value⟩
  [.get, .request "B" "r1", .feed text, .set 0, .take, .get, .request "B" "r2", .feed chunk,
    .take, .set 0]

theorem answers_isSome (value : Option Bytes) :
    (exec (Sharer.step primitives) oneChunk (answers value)).isSome := by
  cases value <;> rfl

/-- `B` has lost the chunk, and the download returns an empty file without an error. -/
theorem download_counterexample :
    ∃ s, AnyRun (Sharer.step primitives) oneChunk (answers none) s ∧
      s.download = .done (some (metafile primitives [piece]))
        [(hexKey (primitives.sha256 piece), none)] [] ∧
      ¬ Sound primitives s.metahash (some (metafile primitives [piece]))
        [(hexKey (primitives.sha256 piece), none)] :=
  ⟨_, run_exec_get (answers_isSome none), by decide, by decide⟩

theorem download_sound_iff_honest :
    let s := (exec (Sharer.step primitives) oneChunk (answers (some piece))).get
      (answers_isSome (some piece))
    Sound primitives s.metahash (some (metafile primitives [piece]))
        [(hexKey (primitives.sha256 piece), some piece)] ∧
        MadeOf (some (metafile primitives [piece]))
          [(hexKey (primitives.sha256 piece), some piece)] piece ↔
      Run (Sharer.step primitives) (Sharer.Answered primitives) oneChunk (answers (some piece)) s :=
  Sharer.download_sound_iff (run_exec_get (answers_isSome (some piece))) rfl (by decide)

end Sample

end JobPortal.Sharing
