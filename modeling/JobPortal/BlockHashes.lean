import JobPortal.PbftChains
import JobPortal.PaxosAcceptor

/-! What a block hash pins down. The fields of a block are hashed one after another with nothing
between them: equal hashes give the same text, and the same block only where it is cut the same. -/
namespace JobPortal

open Hex

/-- The fields that a block hash is taken over; `id` is the HR's address in a PBFT block and the
unique ID in a Paxos block. -/
structure HashedFields where
  index : ℕ
  id : String
  filename : String
  metahash : String
  prevHash : Bytes
  deriving DecidableEq, Repr

def PbftchainBlock.hashed (b : PbftchainBlock) : HashedFields :=
  ⟨b.index, b.request.idhr, b.request.filename, b.request.metahash, b.prevHash⟩

def BlockchainBlock.hashed (b : BlockchainBlock) : HashedFields :=
  ⟨b.index, b.value.uniqID, b.value.filename, b.value.metahash, b.prevHash⟩

namespace HashedFields

def hashBuf (c : HashedFields) : Bytes :=
  utf8 (toString c.index) ++ utf8 c.id ++ utf8 c.filename ++ utf8 c.metahash ++ c.prevHash

def text (c : HashedFields) : String := toString c.index ++ c.id ++ c.filename ++ c.metahash

/-- The texts of two blocks are cut at the same places. -/
def SameCuts (c c' : HashedFields) : Prop :=
  (toString c.index).length = (toString c'.index).length ∧ c.id.length = c'.id.length ∧
    c.filename.length = c'.filename.length

instance (c c' : HashedFields) : Decidable (c.SameCuts c') := inferInstanceAs (Decidable (_ ∧ _))

variable {c c' : HashedFields}

theorem utf8_append (s t : String) : utf8 (s ++ t) = utf8 s ++ utf8 t := by
  simp [utf8]

theorem hashBuf_eq (c : HashedFields) : c.hashBuf = utf8 c.text ++ c.prevHash := by
  simp only [hashBuf, text, utf8_append]

theorem toString_injective {m n : ℕ} (h : toString m = toString n) : m = n := by
  have hdigits := congrArg String.toList h
  rw [Nat.toString_eq_repr, Nat.toString_eq_repr, Nat.toList_repr, Nat.toList_repr] at hdigits
  rw [← Nat.ofDigitChars_ten_toDigits (n := m), hdigits, Nat.ofDigitChars_ten_toDigits]

theorem append_inj {s s' t t' : String} (h : s ++ t = s' ++ t') (hlen : s.length = s'.length) :
    s = s' ∧ t = t' := by
  have hlists : s.toList ++ t.toList = s'.toList ++ t'.toList := by
    rw [← String.toList_append, ← String.toList_append, h]
  obtain ⟨hs, ht⟩ := List.append_inj hlists (by rwa [String.length_toList, String.length_toList])
  exact ⟨String.toList_inj.mp hs, String.toList_inj.mp ht⟩

/-- With previous hashes of one length, the hashed bytes are the text and the previous hash. -/
theorem hashBuf_eq_iff (hlen : c.prevHash.length = c'.prevHash.length) :
    c.hashBuf = c'.hashBuf ↔ c.text = c'.text ∧ c.prevHash = c'.prevHash := by
  rw [hashBuf_eq, hashBuf_eq]
  constructor
  · intro h
    obtain ⟨htext, hprev⟩ := List.append_inj' h hlen
    exact ⟨utf8_injective htext, hprev⟩
  · rintro ⟨htext, hprev⟩
    rw [htext, hprev]

theorem eq_iff_sameCuts (htext : c.text = c'.text) (hprev : c.prevHash = c'.prevHash) :
    c = c' ↔ c.SameCuts c' := by
  constructor
  · rintro rfl
    exact ⟨rfl, rfl, rfl⟩
  · rintro ⟨hindex, hid, hname⟩
    obtain ⟨index, id, filename, metahash, prevHash⟩ := c
    obtain ⟨index', id', filename', metahash', prevHash'⟩ := c'
    dsimp only [text] at *
    rw [String.append_assoc, String.append_assoc, String.append_assoc, String.append_assoc] at htext
    obtain ⟨hindex', hrest⟩ := append_inj htext hindex
    obtain ⟨rfl, hrest'⟩ := append_inj hrest hid
    obtain ⟨rfl, rfl⟩ := append_inj hrest' hname
    obtain rfl := toString_injective hindex'
    rw [hprev]

end HashedFields

/-- The blocks that GetPbftBlock and GetBlock build: their fields and their hash. -/
inductive BuiltBlock (sha256 : Bytes → Bytes) : HashedFields → Bytes → Prop
  | pbft (P : Primitives) (same : P.sha256 = sha256) (n : Node) (request : PbftRequest)
      (index : ℕ) : BuiltBlock sha256 (n.getPbftBlock P request index).hashed
        (n.getPbftBlock P request index).hash
  | paxos (P : PaxosPrimitives) (same : P.sha256 = sha256) (n : PaxosNode)
      (consensus : PaxosValue) (step : ℕ) : BuiltBlock sha256 (n.getBlock P consensus step).hashed
        (n.getBlock P consensus step).hash

theorem BuiltBlock.hash_eq {sha256 : Bytes → Bytes} {c : HashedFields} {hash : Bytes}
    (h : BuiltBlock sha256 c hash) : hash = sha256 c.hashBuf := by
  cases h with
  | pbft P same => rw [← same]; rfl
  | paxos P same => rw [← same]; rfl

/-- Two built blocks have one hash exactly if they have one text and one previous hash; they are
then one block exactly if the text is cut at the same places. -/
theorem hash_eq_iff {sha256 : Bytes → Bytes} {c c' : HashedFields} {hash hash' : Bytes}
    (h : BuiltBlock sha256 c hash) (h' : BuiltBlock sha256 c' hash')
    (hlen : c.prevHash.length = 32) (hlen' : c'.prevHash.length = 32)
    (hcollision : sha256 c.hashBuf = sha256 c'.hashBuf → c.hashBuf = c'.hashBuf) :
    (hash = hash' ↔ c.text = c'.text ∧ c.prevHash = c'.prevHash) ∧
      (hash = hash' → (c = c' ↔ c.SameCuts c')) := by
  have hhash : hash = hash' ↔ c.text = c'.text ∧ c.prevHash = c'.prevHash := by
    rw [h.hash_eq, h'.hash_eq, ← HashedFields.hashBuf_eq_iff (hlen.trans hlen'.symm)]
    exact ⟨hcollision, fun hbuf => by rw [hbuf]⟩
  refine ⟨hhash, fun heq => ?_⟩
  obtain ⟨htext, hprev⟩ := hhash.mp heq
  exact HashedFields.eq_iff_sameCuts htext hprev

namespace Sample

def pbftBlock (idhr filename metahash : String) (index : ℕ) : PbftchainBlock :=
  (newPeer primitives (conf "A" 1)).node.getPbftBlock primitives ⟨idhr, filename, metahash⟩ index

def paxosBlock (uniqID filename metahash : String) (step : ℕ) : BlockchainBlock :=
  (newPaxosPeer (PaxosSample.conf "A" 1)).node.getBlock PaxosSample.primitives
    ⟨uniqID, filename, metahash⟩ step

/-- The same bytes are hashed for blocks that differ in every field. -/
theorem hash_counterexample :
    (let b := pbftBlock "1A" "a" "b" 1
      let b' := pbftBlock "A" "ab" "" 11
      b.prevHash.length = 32 ∧ b'.prevHash.length = 32 ∧ b.hashed.hashBuf = b'.hashed.hashBuf ∧
        b.hash = b'.hash ∧ b.index ≠ b'.index ∧ b.request.idhr ≠ b'.request.idhr ∧
        b.request.filename ≠ b'.request.filename ∧ b.request.metahash ≠ b'.request.metahash) ∧
    (let b := paxosBlock "1A" "a" "b" 1
      let b' := paxosBlock "A" "ab" "" 11
      b.prevHash.length = 32 ∧ b'.prevHash.length = 32 ∧ b.hashed.hashBuf = b'.hashed.hashBuf ∧
        b.hash = b'.hash ∧ b.index ≠ b'.index ∧ b.value.uniqID ≠ b'.value.uniqID ∧
        b.value.filename ≠ b'.value.filename ∧ b.value.metahash ≠ b'.value.metahash) := by
  decide

theorem hash_eq_iff_shifted :
    ((pbftBlock "1A" "a" "b" 1).hash = (pbftBlock "A" "ab" "" 11).hash ↔
        (pbftBlock "1A" "a" "b" 1).hashed.text = (pbftBlock "A" "ab" "" 11).hashed.text ∧
          (pbftBlock "1A" "a" "b" 1).prevHash = (pbftBlock "A" "ab" "" 11).prevHash) ∧
      ((pbftBlock "1A" "a" "b" 1).hash = (pbftBlock "A" "ab" "" 11).hash →
        ((pbftBlock "1A" "a" "b" 1).hashed = (pbftBlock "A" "ab" "" 11).hashed ↔
          (pbftBlock "1A" "a" "b" 1).hashed.SameCuts (pbftBlock "A" "ab" "" 11).hashed)) :=
  hash_eq_iff (.pbft primitives rfl _ _ _) (.pbft primitives rfl _ _ _) (by decide)
    (by decide) (by decide)

end Sample

end JobPortal
