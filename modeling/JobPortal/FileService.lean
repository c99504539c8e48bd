import JobPortal.EncryptedUpload
import JobPortal.HrDownload
import JobPortal.ThresholdDecryption

/-! The service for encrypted files. Applicants announce the files they have uploaded, cothority
nodes enter them into their tables and answer requests, and HRs put the keys together. Broadcasts
and answers come in at any time, any number of times, or never. -/
namespace JobPortal.Cothority

open Encryption Goroutines Hex Runs

/-- What an HR is created with, and its private key. -/
structure HRConfig (l : ℕ) where
  id : ℕ
  secret : String
  priKey : ZMod l

/-- `embed` is given the random bytes that fill up a point, and `pointData` is what `Data` reads
from one. The nodes have generated their keys: `secret` is the common private key, and `share` is what
each node has of it. -/
structure ServiceEnv (l : ℕ) (E : Type) extends FilePrimitives where
  kyber : Kyber E
  embed : Bytes → Bytes → E
  pointData : E → Bytes
  marshalRequestFile : RequestFileMessage → Bytes
  hmacSha256 : Bytes → Bytes → Bytes
  num : ℕ
  secret : ZMod l
  share : ℕ → ZMod l
  signMethod : ℕ
  hrSecretTable : GoMap ℕ String
  hr : String → HRConfig l

abbrev FileKey : Type := {key : Bytes // key.length = 24}

/-- The nodes by their index, the HRs by their address, and what was broadcast. -/
structure FileService (l : ℕ) (E : Type) where
  nodes : ℕ → FileNode (ZMod l)
  hrs : String → HR E
  announced : List EncryptedFileMessage
  requested : List RequestFileMessage

inductive FileServiceEvent (l : ℕ)
  /-- An applicant uploads a file, and its ID is the text of the hash. -/
  | upload (id myAddr : String) (chunkSize : UInt64) (key : FileKey) (ivs : ℕ → IV) (data : Bytes)
      (r : ZMod l) (random : Bytes)
  /-- A node receives an announcement. -/
  | file (i k : ℕ)
  /-- A node receives a request. -/
  | request (i k : ℕ)
  | node (i : ℕ) (e : FileEvent)
  | download (addr metaFileKey : String) (serviceIndex : ℕ)
  /-- An HR receives what a node has answered to one of its requests. -/
  | response (addr : String) (i j : ℕ)
  | hr (addr : String) (e : HREvent)

namespace ServiceEnv

variable {l : ℕ} [Fact l.Prime] {E : Type} [AddCommGroup E] [Module (ZMod l) E]
  (env : ServiceEnv l E)

def requestPrimitives : RequestPrimitives (ZMod l) where
  __ := env.toPrimitives
  marshalRequestFile := env.marshalRequestFile
  hmacSha256 := env.hmacSha256
  partialDecryption := env.kyber.partialDecryption

def pubKey : Bytes := env.kyber.marshal (env.secret • env.kyber.base)

def hrKey (addr : String) : Bytes := env.kyber.marshal ((env.hr addr).priKey • env.kyber.base)

def requestFile (addr metaFileKey : String) (serviceIndex : ℕ) : RequestFileMessage :=
  let reqMsg : RequestFileMessage :=
    { hrid := toString (env.hr addr).id
      address := addr
      metaFileID := metaFileKey
      pubKey := env.hrKey addr
      mac := none
      serviceIndex := serviceIndex }
  if env.signMethod = 1 then
    { reqMsg with
      mac := some (FileNode.getHMAC env.requestPrimitives reqMsg (env.hr addr).secret) }
  else
    { reqMsg with
      mac := some (env.signRSA (env.marshalRequestFile reqMsg) (env.getPrivateKey addr)) }

/-- `BroadcastEncryptedFileMessage`, with the public key that the applicant was sent. -/
def encryptedFile (id : String) (key : FileKey) (r : ZMod l) (random : Bytes) :
    EncryptedFileMessage :=
  let (c, u) := env.kyber.encryptKey r (env.kyber.unmarshal env.pubKey) (env.embed key random)
  ⟨id, some c, u⟩

@[simp] theorem address_requestFile (addr metaFileKey : String) (serviceIndex : ℕ) :
    (env.requestFile addr metaFileKey serviceIndex).address = addr := by
  unfold requestFile
  split_ifs <;> rfl

@[simp] theorem metaFileID_requestFile (addr metaFileKey : String) (serviceIndex : ℕ) :
    (env.requestFile addr metaFileKey serviceIndex).metaFileID = metaFileKey := by
  unfold requestFile
  split_ifs <;> rfl

@[simp] theorem pubKey_requestFile (addr metaFileKey : String) (serviceIndex : ℕ) :
    (env.requestFile addr metaFileKey serviceIndex).pubKey = env.hrKey addr := by
  unfold requestFile
  split_ifs <;> rfl

def node (i : ℕ) : FileNode (ZMod l) where
  index := i
  signMethod := env.signMethod
  hrSecretTable := env.hrSecretTable
  priShare := some (env.share i)
  pubKey := env.pubKey

end ServiceEnv

namespace FileService

variable {l : ℕ} {E : Type}

/-- What a node has answered to the request `j` of an HR. -/
def answer (g : FileService l E) (addr : String) (i j : ℕ) : Option ResponseFileMessage :=
  match (g.nodes i).requests[j]? with
  | some (m, .answered response) => if m.address = addr then some response else none
  | _ => none

theorem answer_eq_some {g : FileService l E} {addr : String} {i j : ℕ}
    {response : ResponseFileMessage} (h : g.answer addr i j = some response) :
    ∃ m, (g.nodes i).requests[j]? = some (m, .answered response) ∧ m.address = addr := by
  rw [answer] at h
  split at h
  · rename_i m response' hj
    split_ifs at h with haddr
    obtain rfl := Option.some.inj h
    exact ⟨m, hj, haddr⟩
  · cases h

variable [Fact l.Prime] [AddCommGroup E] [Module (ZMod l) E]

def start (env : ServiceEnv l E) : FileService l E := ⟨env.node, fun _ => .newHR env.num, [], []⟩

def stepNode (env : ServiceEnv l E) (g : FileService l E) (i : ℕ) (e : FileEvent) :
    Option (FileService l E) :=
  ((g.nodes i).step env.requestPrimitives e).map fun n =>
    { g with nodes := Function.update g.nodes i n }

def stepHR (env : ServiceEnv l E) (g : FileService l E) (addr : String) (e : HREvent) :
    Option (FileService l E) :=
  ((g.hrs addr).step env.kyber.unmarshal e).map fun h =>
    { g with hrs := Function.update g.hrs addr h }

def step (env : ServiceEnv l E) (g : FileService l E) :
    FileServiceEvent l → Option (FileService l E)
  | .upload id myAddr chunkSize key ivs data r random =>
    match Applicant.upload env.toFilePrimitives myAddr chunkSize key ivs data with
    | .done (_, hash) =>
      if hash = utf8 id then
        some { g with announced := g.announced ++ [env.encryptedFile id key r random] }
      else none
    | _ => none
  | .file i k =>
    if i < env.num then g.announced[k]?.bind fun m => g.stepNode env i (.encryptedFile m) else none
  | .request i k =>
    if i < env.num then g.requested[k]?.bind fun m => g.stepNode env i (.request m) else none
  | .node _ (.request _) | .node _ (.encryptedFile _) => none
  | .node i e => if i < env.num then g.stepNode env i e else none
  | .download addr metaFileKey serviceIndex =>
    (g.stepHR env addr (.download metaFileKey)).map fun g =>
      { g with requested := g.requested ++ [env.requestFile addr metaFileKey serviceIndex] }
  | .response addr i j => (g.answer addr i j).bind fun m => g.stepHR env addr (.response m)
  | .hr _ (.download _) | .hr _ (.response _) => none
  | .hr addr e => g.stepHR env addr e

variable {env : ServiceEnv l E} {g g' : FileService l E} {e : FileServiceEvent l}

inductive Effect (env : ServiceEnv l E) (g : FileService l E) :
    FileServiceEvent l → FileService l E → Prop
  | upload {id myAddr : String} {chunkSize : UInt64} {key : FileKey} {ivs : ℕ → IV} {data : Bytes}
      {r : ZMod l} {random : Bytes} {sent : List Sharing.EncryptedChunkMessage}
      (hup : Applicant.upload env.toFilePrimitives myAddr chunkSize key ivs data =
        .done (sent, utf8 id)) :
      Effect env g (.upload id myAddr chunkSize key ivs data r random)
        { g with announced := g.announced ++ [env.encryptedFile id key r random] }
  | node {e : FileServiceEvent l} {i : ℕ} {event : FileEvent} {n : FileNode (ZMod l)}
      (hi : i < env.num) (hfile : ∀ m, event = .encryptedFile m → m ∈ g.announced)
      (hrequest : ∀ m, event = .request m → m ∈ g.requested)
      (hstep : (g.nodes i).step env.requestPrimitives event = some n) :
      Effect env g e { g with nodes := Function.update g.nodes i n }
  | download {addr metaFileKey : String} {serviceIndex : ℕ} {h : HR E}
      (hstep : (g.hrs addr).step env.kyber.unmarshal (.download metaFileKey) = some h) :
      Effect env g (.download addr metaFileKey serviceIndex)
        { g with
          hrs := Function.update g.hrs addr h
          requested := g.requested ++ [env.requestFile addr metaFileKey serviceIndex] }
  | hr {e : FileServiceEvent l} {addr : String} {event : HREvent} {h : HR E}
      (hresponse : ∀ m, event = .response m → ∃ i j, g.answer addr i j = some m)
      (hstep : (g.hrs addr).step env.kyber.unmarshal event = some h) :
      Effect env g e { g with hrs := Function.update g.hrs addr h }

theorem step_effect (h : g.step env e = some g') : g.Effect env e g' := by
  cases e with
  | upload id myAddr chunkSize key ivs data r random =>
    simp only [step] at h
    split at h
    · rename_i sent hash hup
      split_ifs at h with hid
      obtain rfl := Option.some.inj h
      subst hid
      exact .upload hup
    · cases h
  | file i k =>
    simp only [step] at h
    split_ifs at h with hi
    obtain ⟨m, hm, h⟩ := Option.bind_eq_some_iff.mp h
    obtain ⟨n, hn, rfl⟩ := Option.map_eq_some_iff.mp h
    refine .node hi ?_ (fun _ h => by cases h) hn
    rintro _ ⟨⟩
    exact List.mem_of_getElem? hm
  | request i k =>
    simp only [step] at h
    split_ifs at h with hi
    obtain ⟨m, hm, h⟩ := Option.bind_eq_some_iff.mp h
    obtain ⟨n, hn, rfl⟩ := Option.map_eq_some_iff.mp h
    refine .node hi (fun _ h => by cases h) ?_ hn
    rintro _ ⟨⟩
    exact List.mem_of_getElem? hm
  | node i event =>
    cases event with
    | request | encryptedFile => cases h
    | _ =>
      simp only [step] at h
      split_ifs at h with hi
      obtain ⟨n, hn, rfl⟩ := Option.map_eq_some_iff.mp h
      exact .node hi (fun _ h => by cases h) (fun _ h => by cases h) hn
  | download addr metaFileKey serviceIndex =>
    simp only [step] at h
    obtain ⟨_, hmoved, rfl⟩ := Option.map_eq_some_iff.mp h
    obtain ⟨n, hn, rfl⟩ := Option.map_eq_some_iff.mp hmoved
    exact .download hn
  | response addr i j =>
    simp only [step] at h
    obtain ⟨m, hm, h⟩ := Option.bind_eq_some_iff.mp h
    obtain ⟨n, hn, rfl⟩ := Option.map_eq_some_iff.mp h
    refine .hr ?_ hn
    rintro _ ⟨⟩
    exact ⟨i, j, hm⟩
  | hr addr event =>
    cases event with
    | download | response => cases h
    | _ =>
      simp only [step] at h
      obtain ⟨n, hn, rfl⟩ := Option.map_eq_some_iff.mp h
      exact .hr (fun _ h => by cases h) hn

end FileService

end JobPortal.Cothority
