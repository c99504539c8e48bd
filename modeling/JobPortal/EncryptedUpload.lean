import JobPortal.Goroutines
import JobPortal.Pkcs7
import JobPortal.Uploads

/-! Files that an applicant uploads, from the messages it sends to the file that an HR puts together
again. The chunks, their list and a record of the file are encrypted one by one and kept under
hashes of what was encrypted. -/
namespace JobPortal.Encryption

open Hex Goroutines Sharing LastWrites

structure AppFileInfo where
  userName : String
  fileName : String
  entryKey : Bytes
  deriving DecidableEq, Repr

/-- The block cipher in CBC mode is given the key, the IV and whole blocks. `unmarshalInfo` is what
the record has become when `Unmarshal` returns; its error is only printed. -/
structure FilePrimitives extends Primitives where
  encryptCBC : Bytes → Bytes → Bytes → Bytes
  decryptCBC : Bytes → Bytes → Bytes → Bytes
  marshalInfo : AppFileInfo → Bytes
  unmarshalInfo : Bytes → AppFileInfo

def aesBlockSize : ℕ := 16

/-- An IV is one block of random bytes. -/
abbrev IV : Type := {iv : Bytes // iv.length = aesBlockSize}

def aesKeySizes : List ℕ := [16, 24, 32]

variable (P : FilePrimitives)

/-- There is no result where `NewCipher` does not take the key and the call panics. The error of
`pkcs7Pad` is dropped, and nil is encrypted then. -/
def aesEncrypt (key plaintext : Bytes) (iv : IV) : Option Bytes :=
  if key.length ∈ aesKeySizes then
    some (iv ++ P.encryptCBC key iv ((pkcs7Pad plaintext aesBlockSize).toOption.getD []))
  else none

/-- The call panics as well where there is no IV or the blocks are not full. -/
def aesDecrypt (key ciphertext : Bytes) : Option Bytes :=
  if key.length ∈ aesKeySizes ∧ aesBlockSize ≤ ciphertext.length ∧
      (ciphertext.length - aesBlockSize) % aesBlockSize = 0 then
    let plaintext :=
      P.decryptCBC key (ciphertext.take aesBlockSize) (ciphertext.drop aesBlockSize)
    some ((pkcs7Unpad plaintext aesBlockSize).toOption.getD [])
  else none

namespace Applicant

def encryptChunks (key : Bytes) (ivs : ℕ → IV) (pieces : List Bytes) : Option (List Bytes) :=
  pieces.zipIdx.mapM fun p => aesEncrypt P key p.1 (ivs p.2)

def fileInfo (myAddr : String) (enChunks : List Bytes) : AppFileInfo :=
  ⟨myAddr, "UnKnown", metahash P.toPrimitives enChunks⟩

def messages (enChunks : List Bytes) (enInfo enMetafile : Bytes) : List EncryptedChunkMessage :=
  enChunks.map (fun enChunk => ⟨hexKey (P.sha256 enChunk), some enChunk⟩) ++
    [⟨hexKey (P.sha256 enInfo), some enInfo⟩, ⟨metahash P.toPrimitives enChunks, some enMetafile⟩]

/-- The chunks that are sent, and the ID that is returned. The IVs are used in turn. With a chunk
size of 0 the loop does not end, and one from 2^63 on is negative as an int. -/
def upload (myAddr : String) (chunkSize : UInt64) (key : Bytes) (ivs : ℕ → IV) (data : Bytes) :
    Turn (List EncryptedChunkMessage × Bytes) :=
  if chunkSize.toNat = 0 ∧ data ≠ [] then .blocked
  else if 2 ^ 63 ≤ chunkSize.toNat ∧ data ≠ [] then .panicked
  else
    let pieces := chunks chunkSize.toNat data
    .orPanic do
      let enChunks ← encryptChunks P key ivs pieces
      let enMetafile ← aesEncrypt P key (metafile P.toPrimitives enChunks) (ivs pieces.length)
      let enInfo ←
        aesEncrypt P key (P.marshalInfo (fileInfo P myAddr enChunks)) (ivs (pieces.length + 1))
      return (messages P enChunks enInfo enMetafile, hexKey (P.sha256 enInfo))

end Applicant

def recvEncryptedChunkMessage (store : BlobStore) (m : EncryptedChunkMessage) : BlobStore :=
  store.set m.chunkKey m.chunk

namespace HR

/-- What `FetchFile` returns. `ask` is what comes of asking a peer. -/
def fetchFile (store : BlobStore) (ask : Bytes → Except String (Option Bytes)) (key : Bytes) :
    Except String (Option Bytes) :=
  match store.get key with
  | some value => .ok (some value)
  | none => ask key

variable (store : BlobStore) (ask : Bytes → Except String (Option Bytes))

def fetchChunk (metaHash key : Bytes) : Turn (Except String Bytes) :=
  match fetchFile store ask metaHash with
  | .error err => .done (.error err)
  | .ok chunk => (Turn.orPanic (aesDecrypt P key (chunk.getD []))).map .ok

def fetchChunks (decKey : Bytes) : List Bytes → Bytes → Turn (Except String Bytes)
  | [], file => .done (.ok file)
  | chunkKey :: chunkKeys, file =>
    match fetchChunk P store ask chunkKey decKey with
    | .done (.ok chunk) => fetchChunks decKey chunkKeys (file ++ chunk)
    | r => r

def reconstructFile (metaFileKey decKey : Bytes) : Turn (Except String Bytes) :=
  match fetchChunk P store ask metaFileKey decKey with
  | .done (.ok infoChunk) =>
    match fetchChunk P store ask (P.unmarshalInfo infoChunk).entryKey decKey with
    | .done (.ok metafile) => fetchChunks P store ask decKey (splitKeys metafile) []
    | r => r
  | r => r

end HR

/-- Decryption is the inverse of encryption, and neither changes the length. -/
structure Inverts : Prop where
  length : ∀ key plaintext (iv : IV), key.length ∈ aesKeySizes →
    aesBlockSize ∣ plaintext.length → (P.encryptCBC key iv plaintext).length = plaintext.length
  decrypt : ∀ key plaintext (iv : IV), key.length ∈ aesKeySizes →
    aesBlockSize ∣ plaintext.length →
      P.decryptCBC key iv (P.encryptCBC key iv plaintext) = plaintext

variable {P} {key : Bytes}

/-- The empty text comes back too, as it is encrypted without padding. -/
theorem exists_aesEncrypt (hcbc : Inverts P) (hkey : key.length ∈ aesKeySizes) (plaintext : Bytes)
    (iv : IV) :
    ∃ c, aesEncrypt P key plaintext iv = some c ∧ aesDecrypt P key c = some plaintext := by
  obtain ⟨padded, hpadded, hdvd, hunpad⟩ : ∃ padded,
      (pkcs7Pad plaintext aesBlockSize).toOption.getD [] = padded ∧
        aesBlockSize ∣ padded.length ∧
        (pkcs7Unpad padded aesBlockSize).toOption.getD [] = plaintext := by
    by_cases hempty : plaintext = []
    · subst hempty
      exact ⟨[], rfl, Nat.dvd_zero _, rfl⟩
    · have hpads : ∃ c, pkcs7Pad plaintext aesBlockSize = .ok c :=
        pkcs7Pad_isOk (by decide) hempty
      obtain ⟨c, hc⟩ := hpads
      have hok := (pkcs7Pad_eq_ok_iff (by decide) (by decide) hempty).mp hc
      refine ⟨c, by rw [hc]; rfl, hok.1, ?_⟩
      rw [pkcs7Unpad_of_pkcs7Pad (by decide) (by decide) hempty hc]
      rfl
  have hlength := hcbc.length key padded iv hkey hdvd
  refine ⟨iv ++ P.encryptCBC key iv padded, by rw [aesEncrypt, if_pos hkey, hpadded], ?_⟩
  rw [aesDecrypt, if_pos]
  · dsimp only
    rw [List.take_left' iv.2, List.drop_left' iv.2, hcbc.decrypt key padded iv hkey hdvd, hunpad]
  · rw [List.length_append, iv.2, Nat.add_sub_cancel_left, hlength]
    exact ⟨hkey, Nat.le_add_right _ _, Nat.mod_eq_zero_of_dvd hdvd⟩

theorem exists_encryptChunks (hcbc : Inverts P) (hkey : key.length ∈ aesKeySizes) (ivs : ℕ → IV)
    (pieces : List Bytes) : ∃ enChunks, Applicant.encryptChunks P key ivs pieces = some enChunks ∧
      enChunks.mapM (aesDecrypt P key) = some pieces := by
  choose enc henc hdec using fun p : Bytes × ℕ => exists_aesEncrypt hcbc hkey p.1 (ivs p.2)
  refine ⟨pieces.zipIdx.map enc, mapM_eq_some_map fun p _ => henc p, ?_⟩
  have hall : ∀ p ∈ pieces.zipIdx, (aesDecrypt P key ∘ enc) p = some p.1 := fun p _ => hdec p
  rw [List.mapM_map, mapM_eq_some_map hall, List.zipIdx_map_fst]

section Received

variable {received : List EncryptedChunkMessage}
  (hkeys : ∀ m ∈ received, ∀ m' ∈ received, m.chunkKey = m'.chunkKey → m.chunk = m'.chunk)
  (store : BlobStore) (ask : Bytes → Except String (Option Bytes))
include hkeys

theorem get_received {m : EncryptedChunkMessage} (hm : m ∈ received) :
    BlobStore.get (received.foldl recvEncryptedChunkMessage store) m.chunkKey = m.chunk := by
  have hwrites : received.foldl recvEncryptedChunkMessage store =
      writeAll store (received.map fun m => (m.chunkKey, m.chunk)) := by
    rw [writeAll, List.foldl_map]
    rfl
  obtain ⟨v, hv, hget⟩ := exists_get_writeAll store
    (List.mem_map_of_mem (f := fun m : EncryptedChunkMessage => (m.chunkKey, m.chunk)) hm)
  obtain ⟨m', hm', heq⟩ := List.mem_map.mp hv
  obtain ⟨hkey, rfl⟩ := Prod.mk.inj heq
  rw [hwrites, hget]
  exact hkeys m' hm' m hm hkey

theorem fetchChunk_received {chunkKey c plaintext : Bytes} (hm : ⟨chunkKey, some c⟩ ∈ received)
    (hdec : aesDecrypt P key c = some plaintext) :
    HR.fetchChunk P (received.foldl recvEncryptedChunkMessage store) ask chunkKey key =
      .done (.ok plaintext) := by
  have hget := get_received hkeys store hm
  rw [HR.fetchChunk, HR.fetchFile, hget]
  dsimp only
  rw [Option.getD_some, hdec]
  rfl

theorem fetchChunks_received {enChunks pieces : List Bytes}
    (hm : ∀ c ∈ enChunks, ⟨hexKey (P.sha256 c), some c⟩ ∈ received)
    (hdec : enChunks.mapM (aesDecrypt P key) = some pieces) (file : Bytes) :
    HR.fetchChunks P (received.foldl recvEncryptedChunkMessage store) ask key
      (enChunks.map fun c => hexKey (P.sha256 c)) file = .done (.ok (file ++ pieces.flatten)) := by
  induction enChunks generalizing pieces file with
  | nil =>
    obtain rfl : [] = pieces := Option.some.inj hdec
    rw [List.map_nil, HR.fetchChunks, List.flatten_nil, List.append_nil]
  | cons c enChunks ih =>
    rw [List.mapM_cons] at hdec
    obtain ⟨piece, hpiece, hdec⟩ := Option.bind_eq_some_iff.mp hdec
    obtain ⟨rest, hrest, hcons⟩ := Option.bind_eq_some_iff.mp hdec
    obtain rfl := Option.some.inj hcons
    obtain ⟨hc, hchunks⟩ := List.forall_mem_cons.mp hm
    rw [List.map_cons, HR.fetchChunks, fetchChunk_received hkeys store ask hc hpiece]
    dsimp only
    rw [ih hchunks hrest, List.append_assoc, List.flatten_cons]

theorem reconstructFile_received {myAddr : String} {pieces enChunks : List Bytes}
    {enInfo enMetafile : Bytes} (hne : enChunks ≠ [])
    (hjson : P.unmarshalInfo (P.marshalInfo (Applicant.fileInfo P myAddr enChunks)) =
      Applicant.fileInfo P myAddr enChunks)
    (hpieces : enChunks.mapM (aesDecrypt P key) = some pieces)
    (hrecord : aesDecrypt P key enInfo =
      some (P.marshalInfo (Applicant.fileInfo P myAddr enChunks)))
    (hlisted : aesDecrypt P key enMetafile = some (metafile P.toPrimitives enChunks))
    (hreceived : ∀ m ∈ Applicant.messages P enChunks enInfo enMetafile, m ∈ received) :
    HR.reconstructFile P (received.foldl recvEncryptedChunkMessage store) ask
      (hexKey (P.sha256 enInfo)) key = .done (.ok pieces.flatten) := by
  have hinfo := hreceived ⟨hexKey (P.sha256 enInfo), some enInfo⟩ (by simp [Applicant.messages])
  have hlist := hreceived ⟨metahash P.toPrimitives enChunks, some enMetafile⟩
    (by simp [Applicant.messages])
  have hchunks : ∀ c ∈ enChunks, ⟨hexKey (P.sha256 c), some c⟩ ∈ received := fun c hc =>
    hreceived _ (by simp [Applicant.messages, hc])
  rw [HR.reconstructFile, fetchChunk_received hkeys store ask hinfo hrecord]
  dsimp only
  rw [hjson, Applicant.fileInfo, fetchChunk_received hkeys store ask hlist hlisted]
  dsimp only
  rw [splitKeys_metafile P.toPrimitives hne, fetchChunks_received hkeys store ask hchunks hpieces,
    List.nil_append]

end Received

theorem upload_panics (myAddr : String) {chunkSize : UInt64} (hsize : 2 ^ 63 ≤ chunkSize.toNat)
    (ivs : ℕ → IV) {data : Bytes} (hdata : data ≠ []) :
    Applicant.upload P myAddr chunkSize key ivs data = .panicked := by
  rw [Applicant.upload, if_neg fun h => absurd h.1 (by omega), if_pos ⟨hsize, hdata⟩]

/-- What is sent for a file is encrypted, and decrypted to its chunks, their list and the record. -/
theorem upload_spec (hcbc : Inverts P) (hkey : key.length ∈ aesKeySizes) (myAddr : String)
    {chunkSize : UInt64} (hsize : 1 ≤ chunkSize.toNat) (ivs : ℕ → IV) (data : Bytes) :
    ∃ enChunks enInfo enMetafile,
      enChunks.mapM (aesDecrypt P key) = some (chunks chunkSize.toNat data) ∧
        aesDecrypt P key enInfo = some (P.marshalInfo (Applicant.fileInfo P myAddr enChunks)) ∧
        aesDecrypt P key enMetafile = some (metafile P.toPrimitives enChunks) ∧
        (chunkSize.toNat < 2 ^ 63 → Applicant.upload P myAddr chunkSize key ivs data =
          .done (Applicant.messages P enChunks enInfo enMetafile, hexKey (P.sha256 enInfo))) := by
  obtain ⟨enChunks, hchunks, hpieces⟩ :=
    exists_encryptChunks hcbc hkey ivs (chunks chunkSize.toNat data)
  obtain ⟨enMetafile, hmetafile, hlisted⟩ := exists_aesEncrypt hcbc hkey
    (metafile P.toPrimitives enChunks) (ivs (chunks chunkSize.toNat data).length)
  obtain ⟨enInfo, hinfo, hrecord⟩ := exists_aesEncrypt hcbc hkey
    (P.marshalInfo (Applicant.fileInfo P myAddr enChunks))
    (ivs ((chunks chunkSize.toNat data).length + 1))
  refine ⟨enChunks, enInfo, enMetafile, hpieces, hrecord, hlisted, fun hlt => ?_⟩
  rw [Applicant.upload, if_neg fun h => absurd h.1 (by omega),
    if_neg fun h => absurd hlt (Nat.not_lt.mpr h.1)]
  simp only [hchunks, hmetafile, hinfo, Option.bind_eq_bind, Option.bind_some]
  rfl

/-- The node that has stored the chunks of an upload puts the file together again, in whatever order
they came and whatever was stored before. -/
theorem reconstructFile_upload (P : FilePrimitives) (hcbc : Inverts P) (myAddr : String)
    (hjson : ∀ hash, P.unmarshalInfo (P.marshalInfo ⟨myAddr, "UnKnown", hexKey hash⟩) =
      ⟨myAddr, "UnKnown", hexKey hash⟩)
    {chunkSize : UInt64} (hsize : 1 ≤ chunkSize.toNat) {key : Bytes} (hkey : key.length = 24)
    (ivs : ℕ → IV) {data : Bytes} (hdata : data ≠ []) :
    (chunkSize.toNat < 2 ^ 63 →
      ∃ sent id, Applicant.upload P myAddr chunkSize key ivs data = .done (sent, id)) ∧
    ∀ sent id, Applicant.upload P myAddr chunkSize key ivs data = .done (sent, id) →
      ∀ received : List EncryptedChunkMessage, (∀ m ∈ sent, m ∈ received) →
        (∀ m ∈ received, ∀ m' ∈ received, m.chunkKey = m'.chunkKey → m.chunk = m'.chunk) →
        ∀ (store : BlobStore) (ask : Bytes → Except String (Option Bytes)),
          HR.reconstructFile P (received.foldl recvEncryptedChunkMessage store) ask id key =
            .done (.ok data) := by
  have hkey : key.length ∈ aesKeySizes := by
    rw [hkey]
    decide
  obtain ⟨enChunks, enInfo, enMetafile, hpieces, hrecord, hlisted, hup⟩ :=
    upload_spec hcbc hkey myAddr hsize ivs data
  refine ⟨fun hlt => ⟨_, _, hup hlt⟩, ?_⟩
  intro sent id hsent received hreceived hkeys store ask
  have hlt : chunkSize.toNat < 2 ^ 63 := by
    by_contra hle
    rw [upload_panics myAddr (Nat.not_lt.mp hle) ivs hdata] at hsent
    cases hsent
  rw [hup hlt] at hsent
  obtain ⟨rfl, rfl⟩ := Prod.mk.inj (Turn.done.inj hsent)
  have hne : enChunks ≠ [] := by
    rintro rfl
    refine hdata ((chunks_eq_nil_iff hsize).mp ?_)
    exact (Option.some.inj hpieces).symm
  have hfile := reconstructFile_received hkeys store ask hne (hjson _) hpieces hrecord hlisted
    hreceived
  rw [hfile, flatten_chunks hsize]

namespace Sample

open JobPortal.Sample (field text readField readText)

def filePrimitives : FilePrimitives where
  toPrimitives := Sharing.Sample.primitives
  encryptCBC key _ plaintext := plaintext.map (· + key.headD 0)
  decryptCBC key _ ciphertext := ciphertext.map (· - key.headD 0)
  marshalInfo info := text info.userName ++ (text info.fileName ++ field info.entryKey)
  unmarshalInfo bs :=
    let (userName, bs) := readText bs
    let (fileName, bs) := readText bs
    ⟨userName, fileName, (readField bs).1⟩

theorem inverts_filePrimitives : Inverts filePrimitives where
  length key plaintext iv _ _ := by simp [filePrimitives]
  decrypt key plaintext iv _ _ := by simp [filePrimitives, Function.comp_def]

theorem unmarshalInfo_marshalInfo (info : AppFileInfo) :
    filePrimitives.unmarshalInfo (filePrimitives.marshalInfo info) = info := by
  have hlast := JobPortal.Sample.readField_field info.entryKey []
  rw [List.append_nil] at hlast
  simp [filePrimitives, hlast]

def aesKey : Bytes := List.replicate 24 5

def ivs (i : ℕ) : IV := ⟨List.replicate 16 (UInt8.ofNat i), List.length_replicate⟩

def sending : Turn (List EncryptedChunkMessage × Bytes) :=
  Applicant.upload filePrimitives "A" 2 aesKey ivs Sharing.Sample.piece

theorem reconstructFile_upload_sending :
    ∃ sent id, sending = .done (sent, id) ∧
      HR.reconstructFile filePrimitives (sent.reverse.foldl recvEncryptedChunkMessage ∅)
        (fun _ => .error "could not find random pair to request data") id aesKey =
          .done (.ok Sharing.Sample.piece) := by
  have hsize : 1 ≤ (2 : UInt64).toNat := by decide
  have hkey : aesKey.length = 24 := by decide
  have hdata : Sharing.Sample.piece ≠ [] := by decide
  have hboth := reconstructFile_upload filePrimitives inverts_filePrimitives "A"
    (fun hash => unmarshalInfo_marshalInfo _) hsize hkey ivs hdata
  obtain ⟨sent, id, hsent⟩ := hboth.1 (by decide)
  have hkeys : ∀ r ∈ sending.toOption, ∀ m ∈ r.1, ∀ m' ∈ r.1, m.chunkKey = m'.chunkKey →
      m.chunk = m'.chunk := by
    decide +kernel
  have hdistinct := hkeys (sent, id) (by rw [sending, hsent]; rfl)
  refine ⟨sent, id, hsent, hboth.2 sent id hsent sent.reverse (fun m hm => ?_)
    (fun m hm m' hm' => ?_) ∅ _⟩
  · exact List.mem_reverse.mpr hm
  · exact hdistinct m (List.mem_reverse.mp hm) m' (List.mem_reverse.mp hm')

end Sample

end JobPortal.Encryption
