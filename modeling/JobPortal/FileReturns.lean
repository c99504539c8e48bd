import JobPortal.FileAnswers
import JobPortal.SharedFiles

/-! The way of a file from its applicant to an HR. The key goes by the cothority nodes and the
pieces by the network of those that share files, and the HR gets the file that was uploaded, or an
error. -/
namespace JobPortal.Encryption

open Goroutines Hex Sharing

theorem chunkKey_ne_nil {P : FilePrimitives} {myAddr : String} {chunkSize : UInt64} {key : Bytes}
    {ivs : ℕ → IV} {data id : Bytes} {sent : List EncryptedChunkMessage}
    (hup : Applicant.upload P myAddr chunkSize key ivs data = .done (sent, id))
    {m : EncryptedChunkMessage} (hm : m ∈ sent) : m.chunkKey ≠ [] := by
  unfold Applicant.upload at hup
  split_ifs at hup
  obtain ⟨enChunks, _, hup⟩ := Option.bind_eq_some_iff.mp (Turn.orPanic_eq_done.mp hup)
  obtain ⟨enMetafile, _, hup⟩ := Option.bind_eq_some_iff.mp hup
  obtain ⟨enInfo, _, hup⟩ := Option.bind_eq_some_iff.mp hup
  obtain ⟨rfl, _⟩ := Prod.mk.inj (Option.some.inj hup)
  rcases List.mem_append.mp hm with hm | hm
  · obtain ⟨enChunk, _, rfl⟩ := List.mem_map.mp hm
    exact hexKey_sha256_ne_nil _ _
  · rcases List.mem_pair.mp hm with rfl | rfl
    · exact hexKey_sha256_ne_nil _ _
    · exact hexKey_sha256_ne_nil _ _

section Fetched

variable {P : FilePrimitives} {key : Bytes} {store : BlobStore}
  {ask : Bytes → Except String (Option Bytes)}

/-- A call ends with an error or with this value, and with the value if all pieces are fetched. -/
def Ends {α : Type} (store : BlobStore) (ask : Bytes → Except String (Option Bytes))
    (sent : List EncryptedChunkMessage) (call : Turn (Except String α)) (value : α) : Prop :=
  ∃ r, call = .done r ∧ (∀ a, r = .ok a → a = value) ∧
    ((∀ m ∈ sent, ∃ v, HR.fetchFile store ask m.chunkKey = .ok v) → r = .ok value)

/-- What is fetched for these messages is what they were sent with. -/
def Faithful (store : BlobStore) (ask : Bytes → Except String (Option Bytes))
    (sent : List EncryptedChunkMessage) : Prop :=
  ∀ m ∈ sent, ∀ v, HR.fetchFile store ask m.chunkKey = .ok v → v = m.chunk

variable {sent : List EncryptedChunkMessage} (hfaithful : Faithful store ask sent)
include hfaithful

theorem ends_fetchChunk {chunkKey c plaintext : Bytes} (hm : ⟨chunkKey, some c⟩ ∈ sent)
    (hdec : aesDecrypt P key c = some plaintext) :
    Ends store ask sent (HR.fetchChunk P store ask chunkKey key) plaintext := by
  unfold HR.fetchChunk
  cases hfetch : HR.fetchFile store ask chunkKey with
  | error err =>
    refine ⟨.error err, rfl, fun _ h => (by cases h), fun hall => ?_⟩
    obtain ⟨v, hv⟩ := hall _ hm
    dsimp only at hv
    rw [hfetch] at hv
    cases hv
  | ok v =>
    obtain rfl : v = some c := hfaithful _ hm v hfetch
    dsimp only
    rw [Option.getD_some, hdec]
    exact ⟨.ok plaintext, rfl, fun _ h => (Except.ok.inj h).symm, fun _ => rfl⟩

theorem ends_fetchChunks {enChunks pieces : List Bytes}
    (hm : ∀ c ∈ enChunks, ⟨hexKey (P.sha256 c), some c⟩ ∈ sent)
    (hdec : enChunks.mapM (aesDecrypt P key) = some pieces) (file : Bytes) :
    Ends store ask sent (HR.fetchChunks P store ask key
      (enChunks.map fun c => hexKey (P.sha256 c)) file) (file ++ pieces.flatten) := by
  induction enChunks generalizing pieces file with
  | nil =>
    obtain rfl : [] = pieces := Option.some.inj hdec
    refine ⟨.ok file, rfl, fun _ h => ?_, fun _ => ?_⟩
    · rw [← Except.ok.inj h, List.flatten_nil, List.append_nil]
    · rw [List.flatten_nil, List.append_nil]
  | cons c enChunks ih =>
    rw [List.mapM_cons] at hdec
    obtain ⟨piece, hpiece, hdec⟩ := Option.bind_eq_some_iff.mp hdec
    obtain ⟨rest, hrest, hcons⟩ := Option.bind_eq_some_iff.mp hdec
    obtain rfl := Option.some.inj hcons
    obtain ⟨hc, hchunks⟩ := List.forall_mem_cons.mp hm
    obtain ⟨r, hr, hvalue, hall⟩ := ends_fetchChunk hfaithful hc hpiece
    rw [List.map_cons, HR.fetchChunks, hr]
    cases r with
    | error err => exact ⟨.error err, rfl, fun _ h => (by cases h), fun h => (by cases hall h)⟩
    | ok chunk =>
      obtain rfl := hvalue chunk rfl
      rw [List.flatten_cons, ← List.append_assoc]
      exact ih hchunks hrest (file ++ chunk)

/-- An HR with the right key gets the file, or an error where it cannot fetch a piece. -/
theorem ends_reconstructFile (hcbc : Inverts P)
    (hjson : ∀ info, P.unmarshalInfo (P.marshalInfo info) = info) {myAddr : String}
    {chunkSize : UInt64} (hkey : key.length ∈ aesKeySizes) {ivs : ℕ → IV} {data id : Bytes}
    (hdata : data ≠ [])
    (hup : Applicant.upload P myAddr chunkSize key ivs data = .done (sent, id)) :
    Ends store ask sent (HR.reconstructFile P store ask id key) data := by
  have hsize : 1 ≤ chunkSize.toNat := by
    by_contra hzero
    rw [Applicant.upload, if_pos ⟨by omega, hdata⟩] at hup
    cases hup
  have hlt : chunkSize.toNat < 2 ^ 63 := by
    by_contra hle
    rw [upload_panics myAddr (Nat.not_lt.mp hle) ivs hdata] at hup
    cases hup
  obtain ⟨enChunks, enInfo, enMetafile, hpieces, hrecord, hlisted, hspec⟩ :=
    upload_spec hcbc hkey myAddr hsize ivs data
  rw [hspec hlt] at hup
  obtain ⟨rfl, rfl⟩ := Prod.mk.inj (Turn.done.inj hup)
  have hne : enChunks ≠ [] := by
    rintro rfl
    exact hdata ((chunks_eq_nil_iff hsize).mp (Option.some.inj hpieces).symm)
  have hinfo : ⟨hexKey (P.sha256 enInfo), some enInfo⟩ ∈
      Applicant.messages P enChunks enInfo enMetafile := by simp [Applicant.messages]
  have hlist : ⟨metahash P.toPrimitives enChunks, some enMetafile⟩ ∈
      Applicant.messages P enChunks enInfo enMetafile := by simp [Applicant.messages]
  have hchunks : ∀ c ∈ enChunks, ⟨hexKey (P.sha256 c), some c⟩ ∈
      Applicant.messages P enChunks enInfo enMetafile := fun c hc => by
    simp [Applicant.messages, hc]
  obtain ⟨r, hr, hvalue, hall⟩ := ends_fetchChunk hfaithful hinfo hrecord
  rw [HR.reconstructFile, hr]
  cases r with
  | error err => exact ⟨.error err, rfl, fun _ h => (by cases h), fun h => (by cases hall h)⟩
  | ok infoChunk =>
    obtain rfl := hvalue infoChunk rfl
    dsimp only
    rw [hjson, Applicant.fileInfo]
    obtain ⟨r, hr, hvalue, hall⟩ := ends_fetchChunk hfaithful hlist hlisted
    rw [hr]
    cases r with
    | error err => exact ⟨.error err, rfl, fun _ h => (by cases h), fun h => (by cases hall h)⟩
    | ok list =>
      obtain rfl := hvalue list rfl
      dsimp only
      rw [splitKeys_metafile P.toPrimitives hne]
      have hfile := ends_fetchChunks hfaithful hchunks hpieces []
      rwa [List.nil_append, flatten_chunks hsize] at hfile

end Fetched

end JobPortal.Encryption

namespace JobPortal.Cothority

open Encryption Goroutines Hex Runs Sharing

namespace FileService

variable {l : ℕ} [Fact l.Prime] {E : Type} [AddCommGroup E] [Module (ZMod l) E]
  {env : ServiceEnv l E} {g : FileService l E} {addr : String}

/-- What `Download` returns after a decryption. Without a point there is nothing to subtract. -/
def download (env : ServiceEnv l E) (g : FileService l E) (addr : String) (d : Decryption E)
    (store : BlobStore) (ask : Bytes → Except String (Option Bytes)) :
    Turn (Except String Bytes) :=
  match keyPoint env g addr d with
  | some M =>
    Encryption.HR.reconstructFile env.toFilePrimitives store ask (utf8 d.file) (env.pointData M)
  | none => .panicked

/-- An HR gets the file that the applicant has uploaded, whatever goes on among the nodes and in the
network that its pieces are fetched from. -/
theorem file_returned (hdealt : env.Dealt) (hround : env.kyber.RoundTrip)
    (hrecover : env.kyber.RecoversCommit l) (hcbc : Inverts env.toFilePrimitives)
    (hjson : ∀ info, env.unmarshalInfo (env.marshalInfo info) = info)
    {es : List (FileServiceEvent l)} (h : Run (step env) NewIDs (start env) es g)
    (hone : (g.hrs addr).OneFile) {id myAddr : String} {chunkSize : UInt64} {key : FileKey}
    {ivs : ℕ → IV} {data : Bytes} {r : ZMod l} {random : Bytes}
    (hup : .upload id myAddr chunkSize key ivs data r random ∈ es) (hdata : data ≠ [])
    (hread : env.pointData (env.embed key random) = key)
    {d : Decryption E} (hd : d ∈ (g.hrs addr).decryptions) (hfile : d.file = id)
    {sent : List EncryptedChunkMessage} {hash : Bytes}
    (hsends : Applicant.upload env.toFilePrimitives myAddr chunkSize key ivs data =
      .done (sent, hash))
    {M : Type} {senv : SharingEnv M} {μ : SharingNetwork.Meaning} {es' : List (SharingEvent M)}
    {net : SharingNetwork M}
    (hnet : Run (SharingNetwork.step senv) (SharingNetwork.WellUsed senv μ) .start es' net)
    (hsent : ∀ m ∈ sent, ∃ e ∈ es', ∃ peer, e.act = .sendChunk peer m) {n : String}
    {store : BlobStore} {ask : Bytes → Except String (Option Bytes)}
    (hfetch : ∀ key value, Encryption.HR.fetchFile store ask key = .ok value →
      SharingNetwork.Fetched senv μ es' n key value) :
    Ends store ask sent (download env g addr d store ask) data := by
  have hid : hash = utf8 id := by
    obtain ⟨u, v, _, hstep⟩ := h.exists_step hup
    simp only [step, hsends] at hstep
    split_ifs at hstep with hid
    exact hid
  -- what is fetched and what was sent under a key are both what belongs to it
  have hfaithful : Faithful store ask sent := by
    intro m hm v hv
    obtain ⟨e, he, peer, hact⟩ := hsent m hm
    obtain ⟨u, w, ⟨⟨_, hsome⟩, hfits⟩, _⟩ := hnet.exists_step he
    rw [hact] at hsome
    rw [SharingNetwork.Agreed, hact] at hfits
    obtain ⟨c, hc⟩ := Option.ne_none_iff_exists'.mp hsome
    rw [SharingNetwork.fetched_content hnet (chunkKey_ne_nil hsends hm) (hfetch _ _ hv), hc,
      hfits c hc]
  have hkey : key.val.length ∈ aesKeySizes := by
    rw [key.property]
    decide
  rw [download, keys_right hdealt hround hrecover h hone hup hd hfile]
  dsimp only
  rw [hread, hfile, ← hid]
  exact ends_reconstructFile hfaithful hcbc hjson hkey hdata hsends

end FileService

namespace Sample

open Encryption.Sample (filePrimitives aesKey ivs)
open Sharing.Sample (env does)

def pieces : List EncryptedChunkMessage :=
  match Applicant.upload filePrimitives "A" 2 aesKey ivs Sharing.Sample.piece with
  | .done (sent, _) => sent
  | _ => []

def sends : List (SharingEvent String) :=
  pieces.map (fun m => does "A" (.sendChunk "B" m)) ++
    (List.range 4).map fun i => does "B" (.arrive i {})

def piecesMean : SharingNetwork.Meaning where
  content key := ((pieces.find? (·.chunkKey = key)).bind (·.chunk)).getD []
  Named _ _ := True
  keyOf _ := []
  patternOf _ := ""

instance (name : String) (key : Bytes) : Decidable (piecesMean.Named name key) := .isTrue trivial

theorem sends_isSome : (exec (guarded (SharingNetwork.step env)
    (SharingNetwork.WellUsed env piecesMean)) .start sends).isSome := by decide +kernel

def piecesSent : SharingNetwork String :=
  (exec (guarded (SharingNetwork.step env) (SharingNetwork.WellUsed env piecesMean)) .start
    sends).get sends_isSome

theorem run_sends : Run (SharingNetwork.step env) (SharingNetwork.WellUsed env piecesMean) .start
    sends piecesSent :=
  run_of_guarded (run_exec_get sends_isSome)

theorem fetched_sends {key : Bytes} {value : Option Bytes}
    (h : Encryption.HR.fetchFile (piecesSent.nodes "B").blob (fun _ => .error "") key =
      .ok value) : SharingNetwork.Fetched env piecesMean sends "B" key value := by
  refine ⟨sends, [], piecesSent, (List.append_nil _).symm, run_sends.forget, .inl ?_⟩
  unfold Encryption.HR.fetchFile at h
  split at h
  · rename_i v hv
    obtain rfl := Except.ok.inj h
    exact ⟨nofun, hv⟩
  · cases h

theorem uploaded_pieces : ∃ hash,
    Applicant.upload filePrimitives "A" 2 aesKey ivs Sharing.Sample.piece =
      .done (pieces, hash) := by
  have hdone : ∃ sent hash, Applicant.upload filePrimitives "A" 2 aesKey ivs Sharing.Sample.piece =
      .done (sent, hash) := by
    have hkey : aesKey.length ∈ aesKeySizes := by decide
    have hsize : 1 ≤ (2 : UInt64).toNat := by decide
    obtain ⟨_, _, _, _, _, _, hup⟩ := upload_spec Encryption.Sample.inverts_filePrimitives
      hkey "A" hsize ivs Sharing.Sample.piece
    exact ⟨_, _, hup (by decide)⟩
  obtain ⟨sent, hash, hdone⟩ := hdone
  refine ⟨hash, ?_⟩
  rw [pieces, hdone]

theorem file_returned_service :
    ∃ d ∈ (service.hrs "B").decryptions,
      FileService.download serviceEnv service "B" d (piecesSent.nodes "B").blob
        (fun _ => .error "") = .done (.ok Sharing.Sample.piece) := by
  obtain ⟨d, hd, _⟩ := keys_right_service
  obtain ⟨hash, hup⟩ := uploaded_pieces
  have hone : (service.hrs "B").OneFile := fun d hd d' hd' =>
    (file_service hd).trans (file_service hd').symm
  have hsent : ∀ m ∈ pieces, ∃ e ∈ sends, ∃ peer, e.act = .sendChunk peer m := fun m hm =>
    ⟨_, List.mem_append_left _ (List.mem_map_of_mem hm), "B", rfl⟩
  obtain ⟨r, hr, _, hall⟩ := FileService.file_returned serviceEnv_dealt kyber_roundTrip
    kyber_recoversCommit Encryption.Sample.inverts_filePrimitives
    Encryption.Sample.unmarshalInfo_marshalInfo run_service hone List.mem_cons_self (by decide) rfl
    hd (file_service hd) hup run_sends hsent (fun _ _ h => fetched_sends h)
  have hheld : ∀ m ∈ pieces, (piecesSent.nodes "B").blob.get m.chunkKey = m.chunk ∧
      m.chunk.isSome := by decide +kernel
  refine ⟨d, hd, hr.trans (congrArg _ (hall fun m hm => ⟨m.chunk, ?_⟩))⟩
  obtain ⟨hget, hsome⟩ := hheld m hm
  obtain ⟨c, hc⟩ := Option.isSome_iff_exists.mp hsome
  rw [Encryption.HR.fetchFile, hget, hc]

end Sample

end JobPortal.Cothority
