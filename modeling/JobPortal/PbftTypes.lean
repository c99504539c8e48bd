import JobPortal.Hex
import Mathlib.Data.Finmap

/-! The data of the PBFT part: messages, blocks, stores, and the primitives taken
from the standard library and the key files. -/
namespace JobPortal

open Hex

abbrev GoMap (K V : Type) := Finmap fun _ : K => V

/-- Reading a missing key of a Go map yields the zero value. -/
def GoMap.at {K V : Type} [DecidableEq K] (m : GoMap K V) (k : K) (zero : V) : V :=
  (m.lookup k).getD zero

namespace GoMap

variable {K L V : Type} [DecidableEq K] [DecidableEq L]

@[simp] theorem at_insert_self (m : GoMap K V) (k : K) (v zero : V) :
    GoMap.at (m.insert k v) k zero = v := by
  rw [GoMap.at, Finmap.lookup_insert, Option.getD_some]

theorem at_insert_of_ne {k l : K} (h : l ≠ k) (m : GoMap K V) (v zero : V) :
    GoMap.at (m.insert k v) l zero = m.at l zero := by
  rw [GoMap.at, Finmap.lookup_insert_of_ne _ h, GoMap.at]

theorem at_insert (m : GoMap K V) (k l : K) (v zero : V) :
    GoMap.at (m.insert k v) l zero = if l = k then v else m.at l zero := by
  split_ifs with h
  · rw [h, at_insert_self]
  · exact at_insert_of_ne h m v zero

/-- Reading and writing a map of maps; the inner map is made on the first write. -/
def get₂ (m : GoMap K (GoMap L V)) (a : K) (b : L) : Option V := (m.lookup a).bind (·.lookup b)

def set₂ (m : GoMap K (GoMap L V)) (a : K) (b : L) (v : V) : GoMap K (GoMap L V) :=
  m.insert a ((m.at a ∅).insert b v)

theorem get₂_set₂ (m : GoMap K (GoMap L V)) (a a' : K) (b b' : L) (v : V) :
    (m.set₂ a b v).get₂ a' b' = if a' = a ∧ b' = b then some v else m.get₂ a' b' := by
  by_cases ha : a' = a
  · subst ha
    by_cases hb : b' = b
    · subst hb
      simp [get₂, set₂]
    · cases hl : m.lookup a' <;>
        simp [get₂, set₂, GoMap.at, hl, hb, Finmap.lookup_insert_of_ne _ hb]
  · simp [get₂, set₂, ha, Finmap.lookup_insert_of_ne _ ha]

end GoMap

structure PbftRequest where
  idhr : String
  filename : String
  metahash : String
  deriving DecidableEq, Repr

def PbftRequest.zero : PbftRequest := ⟨"", "", ""⟩

structure PrePrepareMessage where
  viewID : ℕ
  requestMessage : PbftRequest
  digest : String
  pbftID : ℕ
  srcAddr : String
  signature : Bytes
  deriving DecidableEq, Repr

structure PrepareMessage where
  viewID : ℕ
  digest : String
  pbftID : ℕ
  srcAddr : String
  signature : Bytes
  deriving DecidableEq, Repr

structure CommitMessage where
  viewID : ℕ
  digest : String
  pbftID : ℕ
  srcAddr : String
  signature : Bytes
  deriving DecidableEq, Repr

structure CheckpointMessage where
  digest : String
  pbftID : ℕ
  srcAddr : String
  signature : Bytes
  deriving DecidableEq, Repr

structure PbftchainBlock where
  index : ℕ
  hash : Bytes
  request : PbftRequest
  prevHash : Bytes
  deriving DecidableEq, Repr

structure PbftTLCMessage where
  step : ℕ
  block : PbftchainBlock
  deriving DecidableEq, Repr

inductive Message
  | prePrepare (pp : PrePrepareMessage)
  | prepare (pre : PrepareMessage)
  | commit (c : CommitMessage)
  | checkpoint (cp : CheckpointMessage)
  | pbftTLC (tlc : PbftTLCMessage)
  deriving DecidableEq, Repr

/-- The address a signed message claims to come from. -/
def Message.srcAddr : Message → Option String
  | .prePrepare pp => some pp.srcAddr
  | .prepare pre => some pre.srcAddr
  | .commit c => some c.srcAddr
  | .checkpoint cp => some cp.srcAddr
  | .pbftTLC _ => none

def Message.digest : Message → Option String
  | .prePrepare pp => some pp.digest
  | .prepare pre => some pre.digest
  | .commit c => some c.digest
  | .checkpoint cp => some cp.digest
  | .pbftTLC _ => none

/-- Functions of `encoding/json`, `crypto/sha256` and `crypto/rsa`, and the key files.
`getPublicKey` is `none` where the file is missing and the caller panics; `verifyRSA`
is `false` where the source panics. -/
structure Primitives where
  sha256 : Bytes → Bytes
  sha256_length : ∀ b, (sha256 b).length = 32
  marshalRequest : PbftRequest → Bytes
  marshalBlock : PbftchainBlock → Bytes
  unmarshalBlock : Bytes → Option PbftchainBlock
  getPublicKey : String → Option Bytes
  getPrivateKey : String → Bytes
  signRSA : Bytes → Bytes → Bytes
  verifyRSA : Bytes → Bytes → Bytes → Bool

namespace Primitives

variable (P : Primitives)

def getDigest (request : PbftRequest) : String :=
  encodeToString (P.sha256 (P.marshalRequest request))

theorem getDigest_ne_empty (request : PbftRequest) : P.getDigest request ≠ "" := by
  intro h
  have hlen := P.sha256_length (P.marshalRequest request)
  have hdec := congrArg decodeString h
  rw [getDigest, decodeString_encode] at hdec
  rw [hdec] at hlen
  revert hlen
  decide

/-- The signature check the four handlers share. It covers the digest and nothing else. -/
def verifies (srcAddr digest : String) (signature : Bytes) : Bool :=
  match P.getPublicKey srcAddr with
  | none => false
  | some key => P.verifyRSA (decodeString digest) signature key

def signed : Message → Bool
  | .prePrepare pp => P.verifies pp.srcAddr pp.digest pp.signature
  | .prepare pre => P.verifies pre.srcAddr pre.digest pre.signature
  | .commit c => P.verifies c.srcAddr c.digest c.signature
  | .checkpoint cp => P.verifies cp.srcAddr cp.digest cp.signature
  | .pbftTLC _ => false

end Primitives

/-- A store that keeps one key space for each HR. -/
abbrev HrStore := GoMap String (GoMap String Bytes)

namespace HrStore

def get (hs : HrStore) (idhr key : String) : Option Bytes := GoMap.get₂ hs idhr key

def set (hs : HrStore) (idhr key : String) (val : Bytes) : HrStore := GoMap.set₂ hs idhr key val

theorem get_set (hs : HrStore) (idhr idhr' key key' : String) (val : Bytes) :
    (hs.set idhr key val).get idhr' key' =
      if idhr' = idhr ∧ key' = key then some val else hs.get idhr' key' :=
  GoMap.get₂_set₂ hs idhr idhr' key key' val

end HrStore

def lastBlockKey : String := "0000000000000000000000000000000000000000000000000000000000000000"

def zeroHash : Bytes := List.replicate 32 0

theorem encodeToString_zeroHash : encodeToString zeroHash = lastBlockKey := by decide

structure HrStorage where
  hrNaming : HrStore
  hrBlockchain : HrStore

/-- The two stores of the leftover TLC path. -/
structure Storage where
  naming : GoMap String Bytes
  blockchain : GoMap String Bytes

end JobPortal
