import JobPortal.SafeTables
import JobPortal.SecretSharing
import Mathlib.Algebra.Field.ZMod

/-! The key of an encrypted file. The applicant encrypts it under the common key of the cothority
nodes, each node contributes a share of the decryption, and the HR puts enough shares together. -/
namespace JobPortal.Cothority

open Hex Polynomial SecretSharing

/-- The group the keys are in. `unmarshal` is the point that `UnmarshalBinary` leaves behind,
whether or not it returns an error, and `recoverCommit` has no result where it returns one. -/
structure Kyber (E : Type) where
  base : E
  marshal : E → Bytes
  unmarshal : Bytes → E
  recoverCommit : List (Option (PubShare E)) → ℕ → ℕ → Option E

namespace Kyber

variable {l : ℕ} [Fact l.Prime] {E : Type} [AddCommGroup E] [Module (ZMod l) E] (K : Kyber E)

def RoundTrip : Prop := ∀ p, K.unmarshal (K.marshal p) = p

/-- `RecoverCommit` interpolates at 0, where the share of index `i` is the value at `i + 1`. -/
def RecoversCommit (l : ℕ) [Fact l.Prime] [Module (ZMod l) E] : Prop :=
  ∀ (s : Finset ℕ) (v : ℕ → E) (n : ℕ), (∀ i ∈ s, i < n) →
    K.recoverCommit ((List.range n).map fun i => if i ∈ s then some ⟨i, v i⟩ else none) s.card n =
      some (recover s (fun i => ((i + 1 : ℕ) : ZMod l)) v)

/-- `C` and `U` of the message in which the applicant announces a file. -/
def encryptKey (r : ZMod l) (A M : E) : Bytes × Bytes :=
  (K.marshal (r • A + M), K.marshal (r • K.base))

/-- What a node with the share `o` answers a request with the key `Q`. -/
def partialDecryption (o : ZMod l) (U Q : Bytes) : Bytes :=
  K.marshal (o • K.unmarshal U + o • K.unmarshal Q)

/-- The point `GetDecKey` takes the key from. -/
def decryptedPoint (t : SafeShareTable E) (shares : List (Option (PubShare E))) (priKey : ZMod l)
    (C A : Bytes) : Option E :=
  (K.recoverCommit shares t.threshold shares.length).map fun R =>
    K.unmarshal C - (R - priKey • K.unmarshal A)

end Kyber

namespace SafeShareTable

variable {E : Type}

def receiveAll (unmarshal : Bytes → E) (t : SafeShareTable E) (responses : List (ℕ × Bytes)) :
    Option (SafeShareTable E) :=
  responses.foldlM (fun t p => t.set unmarshal p.1 p.2) t

/-- A table of `num` nodes that only holds shares of them, each as the node sent it. -/
structure Holds (unmarshal : Bytes → E) (num : ℕ) (sent : ℕ → Bytes) (t : SafeShareTable E) :
    Prop where
  threshold : t.threshold = shareThreshold num
  entries : ∀ (i : ℕ) (v : Bytes), t.shareTable.lookup i = some v → i < num ∧ v = sent i
  card_le : t.shareTable.keys.card ≤ t.threshold
  shares : t.shares =
    if t.threshold ≤ t.shareTable.keys.card then
      (List.range num).map fun i => (t.shareTable.lookup i).map fun v => ⟨i, unmarshal v⟩
    else List.replicate num none

variable {unmarshal : Bytes → E} {num : ℕ} {sent : ℕ → Bytes} {t t' : SafeShareTable E}

theorem holds_new (unmarshal : Bytes → E) (num : ℕ) (sent : ℕ → Bytes) :
    Holds unmarshal num sent (newSafeShareTable num) where
  threshold := rfl
  entries i v h := by
    change (∅ : GoMap ℕ Bytes).lookup i = some v at h
    rw [Finmap.lookup_empty] at h
    cases h
  card_le := Nat.zero_le _
  shares := by
    rw [if_neg]
    · rfl
    · exact Nat.not_succ_le_zero _

theorem Holds.lt (h : Holds unmarshal num sent t) {i : ℕ} (hi : i ∈ t.shareTable.keys) :
    i < num := by
  obtain ⟨v, hv⟩ := mem_keys_iff.mp hi
  exact (h.entries i v hv).1

theorem Holds.set (h : Holds unmarshal num sent t) {i : ℕ} (hi : i < num) :
    ∃ t', t.set unmarshal i (sent i) = some t' ∧ Holds unmarshal num sent t' ∧
      (t.threshold ≤ t.shareTable.keys.card ∧ t' = t ∨
        t'.shareTable.keys = insert i t.shareTable.keys) := by
  unfold SafeShareTable.set
  split_ifs with henough hmem
  · exact ⟨t, rfl, h, .inl ⟨henough, rfl⟩⟩
  · refine ⟨t, rfl, h, .inr ?_⟩
    rw [Finset.insert_eq_of_mem (Finmap.mem_keys.mpr hmem)]
  · have hkeys := keys_insert t.shareTable i (sent i)
    have hcard := card_keys_insert hmem (sent i)
    have hentries : ∀ j v, (t.shareTable.insert i (sent i)).lookup j = some v →
        j < num ∧ v = sent j := by
      intro j v hj
      by_cases hji : j = i
      · subst hji
        rw [Finmap.lookup_insert] at hj
        exact ⟨hi, (Option.some.inj hj).symm⟩
      · rw [Finmap.lookup_insert_of_ne _ hji] at hj
        exact h.entries j v hj
    have hrange : ∀ j ∈ (t.shareTable.insert i (sent i)).keys, j < num := by
      intro j hj
      obtain ⟨v, hv⟩ := mem_keys_iff.mp hj
      exact (hentries j v hv).1
    have hold : t.shares = List.replicate num none := by rw [h.shares, if_neg henough]
    dsimp only
    rw [hcard]
    split_ifs with hlast
    · rw [hold, fill_replicate _ hrange]
      refine ⟨_, rfl, ⟨h.threshold, hentries, ?_, ?_⟩, .inr hkeys⟩
      · dsimp only
        omega
      · dsimp only
        rw [hcard, if_pos hlast]
    · refine ⟨_, rfl, ⟨h.threshold, hentries, ?_, ?_⟩, .inr hkeys⟩
      · dsimp only
        omega
      · dsimp only
        rw [hcard, if_neg hlast, hold]

/-- The table holds the share of every node that answered, until it has enough of them. -/
theorem receiveAll_holds (unmarshal : Bytes → E) (sent : ℕ → Bytes) {order : List ℕ}
    (hlt : ∀ i ∈ order, i < num) :
    ∃ t, receiveAll unmarshal (newSafeShareTable num) (order.map fun i => (i, sent i)) = some t ∧
      Holds unmarshal num sent t ∧
      (t.threshold ≤ t.shareTable.keys.card ∨ t.shareTable.keys = order.toFinset) := by
  induction order using List.reverseRecOn with
  | nil => exact ⟨_, rfl, holds_new unmarshal num sent, .inr rfl⟩
  | append_singleton order i ih =>
    obtain ⟨t, hrec, hholds, hkeys⟩ := ih fun j hj => hlt j (List.mem_append_left _ hj)
    obtain ⟨t', hset, hholds', hnew⟩ := hholds.set (hlt i (by simp))
    refine ⟨t', ?_, hholds', ?_⟩
    · unfold receiveAll at hrec ⊢
      rw [List.map_append, List.foldlM_append, hrec]
      change (t.set unmarshal i (sent i)).bind pure = some t'
      rw [hset]
      rfl
    · rcases hnew with ⟨henough, rfl⟩ | hinsert
      · exact .inl henough
      · rcases hkeys with henough | hkeys
        · left
          rw [hholds'.threshold, hinsert]
          rw [hholds.threshold] at henough
          exact Nat.le_trans henough (Finset.card_le_card (Finset.subset_insert i _))
        · right
          rw [hinsert, hkeys]
          ext j
          simp

end SafeShareTable

namespace Kyber

variable {l : ℕ} [Fact l.Prime] {E : Type} [AddCommGroup E] [Module (ZMod l) E] {K : Kyber E}

/-- The indices of the nodes stand for different scalars. -/
theorem injOn_succ {n : ℕ} (hn : n < l) {s : Finset ℕ} (hs : ∀ i ∈ s, i < n) :
    Set.InjOn (fun i : ℕ => ((i + 1 : ℕ) : ZMod l)) s := by
  intro i hi j hj heq
  have hmod := (ZMod.natCast_eq_natCast_iff' (i + 1) (j + 1) l).mp heq
  have hil := hs i hi
  have hjl := hs j hj
  rw [Nat.mod_eq_of_lt (by omega), Nat.mod_eq_of_lt (by omega)] at hmod
  exact Nat.succ.inj hmod

/-- What `RecoverCommit` makes of a table that has enough shares. -/
theorem recoverCommit_holds (hrecover : K.RecoversCommit l) {n : ℕ} {w : ℕ → E}
    (hround : K.RoundTrip) {t : SafeShareTable E}
    (h : t.Holds K.unmarshal n fun i => K.marshal (w i))
    (henough : t.threshold ≤ t.shareTable.keys.card) :
    K.recoverCommit t.shares t.threshold t.shares.length =
      some (recover t.shareTable.keys (fun i => ((i + 1 : ℕ) : ZMod l)) w) := by
  have hshares : t.shares =
      (List.range n).map fun i => if i ∈ t.shareTable.keys then some ⟨i, w i⟩ else none := by
    rw [h.shares, if_pos henough]
    apply List.map_congr_left
    intro i _
    cases hi : t.shareTable.lookup i with
    | none =>
      have hnone : i ∉ t.shareTable.keys := mt Finmap.mem_keys.mp (Finmap.lookup_eq_none.mp hi)
      rw [if_neg hnone]
      rfl
    | some v =>
      have hmem : i ∈ t.shareTable.keys := mem_keys_iff.mpr ⟨v, hi⟩
      rw [if_pos hmem, (h.entries i v hi).2]
      exact congrArg (fun p => some (PubShare.mk i p)) (hround (w i))
  have hrange : ∀ i ∈ t.shareTable.keys, i < n := fun i hi => h.lt hi
  have hlen : t.shares.length = n := by rw [hshares, List.length_map, List.length_range]
  rw [hlen, hshares, Nat.le_antisymm henough h.card_le]
  exact hrecover _ w n hrange

/-- Whichever nodes answer, and in whatever order, enough of them bring back the point the
applicant encrypted. -/
theorem threshold_decryption (hround : K.RoundTrip) (hrecover : K.RecoversCommit l) {n : ℕ}
    (hn : n < l) {f : (ZMod l)[X]} (hf : f.degree < shareThreshold n) (r p : ZMod l) (M : E)
    {order : List ℕ} (hlt : ∀ i ∈ order, i < n)
    (henough : shareThreshold n ≤ order.toFinset.card) :
    let A := f.eval 0 • K.base
    let C := (K.encryptKey r A M).1
    let U := (K.encryptKey r A M).2
    let Q := K.marshal (p • K.base)
    let sent := fun i : ℕ => K.partialDecryption (f.eval ((i + 1 : ℕ) : ZMod l)) U Q
    ∃ t shares, SafeShareTable.receiveAll K.unmarshal (.newSafeShareTable n)
        (order.map fun i => (i, sent i)) = some t ∧
      t.get = some shares ∧ K.decryptedPoint t shares p C (K.marshal A) = some M := by
  intro A C U Q sent
  obtain ⟨t, hrec, hholds, hkeys⟩ := SafeShareTable.receiveAll_holds K.unmarshal sent hlt
  have hready : t.threshold ≤ t.shareTable.keys.card := by
    rcases hkeys with hready | hkeys
    · exact hready
    · rw [hholds.threshold, hkeys]
      exact henough
  refine ⟨t, t.shares, hrec, if_pos hready, ?_⟩
  have hU : K.unmarshal U = r • K.base := hround _
  have hQ : K.unmarshal Q = p • K.base := hround _
  have hA : K.unmarshal (K.marshal A) = f.eval 0 • K.base := hround _
  have hC : K.unmarshal C = r • A + M := hround _
  have hdeg : f.degree < t.shareTable.keys.card := by
    rw [Nat.le_antisymm hholds.card_le hready, hholds.threshold]
    exact hf
  have hinj := injOn_succ hn fun i hi => hholds.lt hi
  have hR : recover t.shareTable.keys (fun i => ((i + 1 : ℕ) : ZMod l))
      (fun i => f.eval ((i + 1 : ℕ) : ZMod l) • K.unmarshal U +
        f.eval ((i + 1 : ℕ) : ZMod l) • K.unmarshal Q) =
      f.eval 0 • r • K.base + f.eval 0 • p • K.base := by
    have hadd := recover_add t.shareTable.keys (fun i => ((i + 1 : ℕ) : ZMod l))
      (fun i => f.eval ((i + 1 : ℕ) : ZMod l) • K.unmarshal U)
      (fun i => f.eval ((i + 1 : ℕ) : ZMod l) • K.unmarshal Q)
    rw [recover_smul hinj hdeg, recover_smul hinj hdeg] at hadd
    rw [← hU, ← hQ]
    exact hadd
  rw [decryptedPoint, recoverCommit_holds hrecover hround hholds hready, hR, Option.map_some, hA,
    hC, smul_comm (f.eval 0) r, smul_comm (f.eval 0) p, add_sub_cancel_right, add_sub_cancel_left]

end Kyber

namespace Sample

instance prime_seven : Fact (Nat.Prime 7) := ⟨by decide⟩

/-- The additive group of order 7. A share is looked up at its index. -/
def kyber : Kyber (ZMod 7) where
  base := 1
  marshal p := [UInt8.ofNat p.val]
  unmarshal bs := ((bs.headD 0).toNat : ZMod 7)
  recoverCommit shares _ _ :=
    some (recover ((shares.filterMap id).map (·.i)).toFinset (fun i => ((i + 1 : ℕ) : ZMod 7))
      fun i => (shares[i]?.join.map (·.v)).getD 0)

theorem kyber_roundTrip : kyber.RoundTrip := by
  intro p
  revert p
  decide

theorem kyber_recoversCommit : kyber.RecoversCommit 7 := by
  intro s v n hs
  have hset : ((((List.range n).map fun i =>
      if i ∈ s then some (PubShare.mk i (v i)) else none).filterMap id).map (·.i)).toFinset =
        s := by
    ext i
    simp only [List.filterMap_map, List.mem_toFinset, List.mem_map, List.mem_filterMap,
      Function.comp_apply, id_eq, List.mem_range]
    constructor
    · rintro ⟨share, ⟨j, _, hj⟩, rfl⟩
      split_ifs at hj with hmem
      obtain rfl := Option.some.inj hj
      exact hmem
    · intro hi
      exact ⟨⟨i, v i⟩, ⟨i, hs i hi, if_pos hi⟩, rfl⟩
  simp only [kyber, hset]
  congr 1
  apply recover_congr
  intro i hi
  simp [hs i hi, hi]

theorem threshold_decryption_two :
    let f : (ZMod 7)[X] := C 2 * X + C 3
    let A := f.eval 0 • kyber.base
    let C := (kyber.encryptKey (4 : ZMod 7) A 6).1
    let U := (kyber.encryptKey (4 : ZMod 7) A 6).2
    let Q := kyber.marshal ((5 : ZMod 7) • kyber.base)
    let sent := fun i : ℕ => kyber.partialDecryption (f.eval ((i + 1 : ℕ) : ZMod 7)) U Q
    ∃ t shares, SafeShareTable.receiveAll kyber.unmarshal (.newSafeShareTable 2)
        ([1, 0].map fun i => (i, sent i)) = some t ∧
      t.get = some shares ∧
        kyber.decryptedPoint t shares (5 : ZMod 7) C (kyber.marshal A) = some 6 :=
  Kyber.threshold_decryption kyber_roundTrip kyber_recoversCommit (by decide)
    degree_linear_lt 4 5 6 (by decide) (by decide)

end Sample

end JobPortal.Cothority
