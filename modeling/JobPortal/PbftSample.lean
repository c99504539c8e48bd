import JobPortal.PbftPeer

/-! A transparent instance of the primitives, on which runs can be evaluated. Digests
pad the text, signatures spell out the key and the data, and blocks are written field
by field with their lengths. -/
namespace JobPortal.Sample

open Hex

/-- A field preceded by its length in unary. -/
def field (bs : Bytes) : Bytes := List.replicate bs.length 1 ++ 0 :: bs

def readLength : Bytes → ℕ × Bytes
  | [] => (0, [])
  | b :: bs => if b = 1 then ((readLength bs).1 + 1, (readLength bs).2) else (0, bs)

def readField (bs : Bytes) : Bytes × Bytes :=
  ((readLength bs).2.take (readLength bs).1, (readLength bs).2.drop (readLength bs).1)

theorem readLength_replicate (n : ℕ) (bs : Bytes) :
    readLength (List.replicate n 1 ++ 0 :: bs) = (n, bs) := by
  induction n with
  | zero => simp [readLength]
  | succ n ih => simp [List.replicate_succ, readLength, ih]

@[simp] theorem readField_field (bs rest : Bytes) : readField (field bs ++ rest) = (bs, rest) := by
  simp [readField, field, readLength_replicate]

def charBytes (c : Char) : Bytes :=
  [UInt8.ofNat (c.toNat / 65536), UInt8.ofNat (c.toNat / 256), UInt8.ofNat c.toNat]

def readChars : Bytes → List Char
  | a :: b :: c :: bs => Char.ofNat (65536 * a.toNat + 256 * b.toNat + c.toNat) :: readChars bs
  | _ => []

theorem readChars_charBytes (cs : List Char) : readChars (cs.flatMap charBytes) = cs := by
  induction cs with
  | nil => rfl
  | cons c cs ih =>
    have hval : c.val.toNat < 1114112 := c.valid.elim (by omega) (by omega)
    have hc : c.toNat < 1114112 := hval
    have hsum : 65536 * (c.toNat / 65536 % 256) + 256 * (c.toNat / 256 % 256) + c.toNat % 256
        = c.toNat := by omega
    simp [charBytes, readChars, ih, hsum]

def text (s : String) : Bytes := field (s.toList.flatMap charBytes)

def readText (bs : Bytes) : String × Bytes :=
  (String.ofList (readChars (readField bs).1), (readField bs).2)

@[simp] theorem readText_text (s : String) (rest : Bytes) :
    readText (text s ++ rest) = (s, rest) := by
  simp [readText, text, readChars_charBytes]

def marshalBlock (b : PbftchainBlock) : Bytes :=
  field (List.replicate b.index 0) ++ (field b.hash ++ (text b.request.idhr ++
    (text b.request.filename ++ (text b.request.metahash ++ field b.prevHash))))

def unmarshalBlock (bs : Bytes) : Option PbftchainBlock :=
  let (index, bs) := readField bs
  let (hash, bs) := readField bs
  let (idhr, bs) := readText bs
  let (filename, bs) := readText bs
  let (metahash, bs) := readText bs
  let (prevHash, _) := readField bs
  some ⟨index.length, hash, ⟨idhr, filename, metahash⟩, prevHash⟩

theorem unmarshalBlock_marshalBlock (b : PbftchainBlock) :
    unmarshalBlock (marshalBlock b) = some b := by
  have hlast := readField_field b.prevHash []
  rw [List.append_nil] at hlast
  simp [unmarshalBlock, marshalBlock, hlast]

def addrs : Finset String := {"A", "B", "C", "D"}

def primitives : Primitives where
  sha256 bs := (bs ++ List.replicate 32 0).take 32
  sha256_length bs := by simp
  marshalRequest r := utf8 r.idhr ++ 0 :: (utf8 r.filename ++ 0 :: utf8 r.metahash)
  marshalBlock := marshalBlock
  unmarshalBlock := unmarshalBlock
  getPublicKey addr := if addr ∈ addrs then some (utf8 addr) else none
  getPrivateKey addr := utf8 addr
  signRSA data key := key ++ 0 :: data
  verifyRSA data signature key := signature = key ++ 0 :: data

def sign (addr digest : String) : Bytes :=
  primitives.signRSA (decodeString digest) (primitives.getPrivateKey addr)

def prePrepareFrom (addr : String) (request : PbftRequest) (pbftID : ℕ) : PrePrepareMessage :=
  { viewID := 0, requestMessage := request, digest := primitives.getDigest request,
    pbftID := pbftID, srcAddr := addr, signature := sign addr (primitives.getDigest request) }

def prepareFrom (addr digest : String) (pbftID : ℕ) : PrepareMessage :=
  { viewID := 0, digest := digest, pbftID := pbftID, srcAddr := addr,
    signature := sign addr digest }

def commitFrom (addr digest : String) (pbftID : ℕ) : CommitMessage :=
  { viewID := 0, digest := digest, pbftID := pbftID, srcAddr := addr,
    signature := sign addr digest }

def conf (addr : String) (paxosID : ℕ) : PeerConfig :=
  { myAddr := addr, paxosID := paxosID, totalPeers := 4 }

/-- What a replica other than B, C and D receives until it appends a request of B. -/
def committing (request : PbftRequest) (pbftID : ℕ) : List PeerEvent :=
  let digest := primitives.getDigest request
  [.receive (.prePrepare (prePrepareFrom "B" request pbftID)),
    .receive (.prepare (prepareFrom "C" digest pbftID)),
    .receive (.commit (commitFrom "B" digest pbftID)),
    .receive (.commit (commitFrom "C" digest pbftID))]

end JobPortal.Sample
