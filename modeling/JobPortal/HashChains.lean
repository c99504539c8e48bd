import Mathlib.Data.List.Basic
import Mathlib.Data.List.Nodup
import Mathlib.Data.Option.Basic

/-! Lists of blocks linked by hashes. A block names the hash of the block before it, the
first one a fixed genesis key; whoever can find blocks by their hashes can walk from the
last one back to the start. -/
namespace JobPortal.HashChains

variable {K B : Type*} (hash prev : B → K) (genesis : K)

def tip (bs : List B) : K := bs.getLast?.elim genesis hash

@[simp] theorem tip_nil : tip hash genesis [] = genesis := rfl

@[simp] theorem tip_concat (bs : List B) (b : B) : tip hash genesis (bs ++ [b]) = hash b := by
  simp [tip]

inductive Linked : List B → Prop
  | nil : Linked []
  | snoc {bs : List B} {b : B} (linked : Linked bs) (link : prev b = tip hash genesis bs) :
      Linked (bs ++ [b])

/-- Follow the links from a key back to genesis; blocks are listed in the order of the chain. -/
def walk [DecidableEq K] (find : K → Option B) : ℕ → K → Option (List B)
  | 0, _ => none
  | fuel + 1, key =>
    if key = genesis then some []
    else (find key).bind fun b => (walk find fuel (prev b)).map (· ++ [b])

variable {hash prev genesis} {bs : List B}

theorem Linked.walk [DecidableEq K] {find : K → Option B} (h : Linked hash prev genesis bs)
    (hfind : ∀ b ∈ bs, find (hash b) = some b) (hgen : ∀ b ∈ bs, hash b ≠ genesis) {fuel : ℕ}
    (hfuel : bs.length < fuel) :
    HashChains.walk prev genesis find fuel (tip hash genesis bs) = some bs := by
  induction h generalizing fuel with
  | nil =>
    obtain ⟨fuel, rfl⟩ := Nat.exists_eq_add_one_of_ne_zero (Nat.ne_of_gt hfuel)
    simp [HashChains.walk]
  | @snoc bs b linked link ih =>
    rw [List.length_append, List.length_singleton] at hfuel
    obtain ⟨fuel, rfl⟩ := Nat.exists_eq_add_one_of_ne_zero (show fuel ≠ 0 by omega)
    have hb : b ∈ bs ++ [b] := List.mem_append_right _ (List.mem_singleton_self b)
    have hrest : HashChains.walk prev genesis find fuel (tip hash genesis bs) = some bs :=
      ih (fun c hc => hfind c (List.mem_append_left _ hc))
        (fun c hc => hgen c (List.mem_append_left _ hc)) (by omega)
    rw [tip_concat, HashChains.walk, if_neg (hgen b hb), hfind b hb, Option.bind_some, link, hrest]
    rfl

theorem Linked.link_of_eq (h : Linked hash prev genesis bs) {l r : List B} {c : B}
    (hbs : bs = l ++ c :: r) : prev c = tip hash genesis l := by
  induction h generalizing r with
  | nil => simp at hbs
  | @snoc bs b linked link ih =>
    rcases List.eq_nil_or_concat r with rfl | ⟨r, d, rfl⟩
    · obtain ⟨rfl, hc⟩ := List.append_inj' hbs rfl
      obtain rfl := List.singleton_inj.mp hc
      exact link
    · have hbs' : bs ++ [b] = (l ++ c :: r) ++ [d] := by simpa using hbs
      exact ih (List.append_inj' hbs' rfl).1

theorem Linked.nodup (h : Linked hash prev genesis bs)
    (hcoll : ∀ b ∈ bs, ∀ c ∈ bs, hash b = hash c → prev b = prev c)
    (hgen : ∀ b ∈ bs, hash b ≠ genesis) : (bs.map hash).Nodup := by
  induction h with
  | nil => exact List.nodup_nil
  | @snoc bs b linked link ih =>
    have hold {c : B} (hc : c ∈ bs) : c ∈ bs ++ [b] := List.mem_append_left _ hc
    have hnodup := ih (fun c hc d hd => hcoll c (hold hc) d (hold hd)) fun c hc => hgen c (hold hc)
    have hb : b ∈ bs ++ [b] := List.mem_append_right _ (List.mem_singleton_self b)
    rw [List.map_append, List.map_singleton, ← List.concat_eq_append]
    refine List.Nodup.concat ?_ hnodup
    intro hmem
    obtain ⟨c, hc, hcb⟩ := List.mem_map.mp hmem
    -- the predecessor of `c` would be the last block of the chain
    have hprev := (hcoll c (hold hc) b hb hcb).trans link
    obtain ⟨l, r, rfl⟩ := List.append_of_mem hc
    obtain ⟨m, e, hlast⟩ := (List.eq_nil_or_concat (c :: r)).resolve_left (by simp)
    have he : e ∈ c :: r := by rw [hlast]; simp
    rw [linked.link_of_eq rfl, hlast, List.concat_eq_append, ← List.append_assoc,
      tip_concat] at hprev
    rcases List.eq_nil_or_concat l with rfl | ⟨l, d, rfl⟩
    · exact hgen e (hold (List.mem_append_right _ he)) hprev.symm
    · rw [List.concat_eq_append, tip_concat] at hprev
      rw [List.map_append, List.nodup_append] at hnodup
      refine hnodup.2.2 (hash d) (List.mem_map_of_mem (by simp)) (hash e) (List.mem_map_of_mem he)
        hprev

end JobPortal.HashChains
