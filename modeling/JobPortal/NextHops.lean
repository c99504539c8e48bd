import Mathlib.Data.List.Nodup
import Mathlib.Data.Option.Basic
import Mathlib.Logic.Function.Basic

/-! Routes by next hops. For one destination every node knows at most one next hop. Where hops are
learned from nodes that know one already, routes have no loops, and neither has the way of a packet
that follows them while they change. -/
namespace JobPortal.NextHops

variable {α : Type*} {next : α → Option α} {d p q : α} {rank : α → ℕ} {trail : List α}

/-- The nodes that lie behind `p` on its way to `d`. -/
inductive Route (next : α → Option α) (d : α) : α → List α → Prop
  | here : Route next d d []
  | hop {p q : α} {ps : List α} (away : p ≠ d) (known : next p = some q)
      (rest : Route next d q ps) : Route next d p (q :: ps)

/-- A next hop is the destination, or knows one itself and ranks lower. -/
def Ranked (next : α → Option α) (d : α) (rank : α → ℕ) : Prop :=
  ∀ p q, p ≠ d → next p = some q → q = d ∨ (next q).isSome ∧ rank q < rank p

theorem Ranked.exists_route (h : Ranked next d rank) (hp : (next p).isSome) :
    ∃ ps, Route next d p ps ∧ (p :: ps).Nodup ∧ ∀ q ∈ ps, q = d ∨ rank q < rank p := by
  induction hn : rank p using Nat.strongRecOn generalizing p with
  | ind n ih =>
    subst hn
    by_cases hpd : p = d
    · subst hpd
      exact ⟨[], .here, List.nodup_singleton p, nofun⟩
    obtain ⟨q, hq⟩ := Option.isSome_iff_exists.mp hp
    rcases h p q hpd hq with rfl | ⟨hknown, hlower⟩
    · refine ⟨[q], .hop hpd hq .here, by simp [hpd], ?_⟩
      intro x hx
      exact .inl (List.mem_singleton.mp hx)
    · obtain ⟨ps, hroute, hnodup, hps⟩ := ih (rank q) hlower hknown rfl
      have hall : ∀ x ∈ q :: ps, x = d ∨ rank x < rank p := by
        intro x hx
        rcases List.mem_cons.mp hx with rfl | hx
        · exact .inr hlower
        · exact (hps x hx).imp_right fun hless => Nat.lt_trans hless hlower
      refine ⟨q :: ps, .hop hpd hq hroute, List.nodup_cons.mpr ⟨fun hmem => ?_, hnodup⟩, hall⟩
      rcases hall p hmem with hself | hless
      · exact hpd hself
      · exact Nat.lt_irrefl _ hless

/-- A packet on its way to `d`: the nodes that passed it on, and where it is. -/
structure OnCourse (next : α → Option α) (d : α) (rank : α → ℕ) (trail : List α) (p : α) :
    Prop where
  nodup : trail.Nodup
  ahead : p ≠ d → (next p).isSome ∧ ∀ x ∈ trail, (next x).isSome ∧ rank p < rank x

theorem OnCourse.notMem (h : OnCourse next d rank trail p) (hp : p ≠ d) : p ∉ trail :=
  fun hmem => Nat.lt_irrefl _ ((h.ahead hp).2 p hmem).2

/-- Packets under way, in a network where the nodes have ranks. -/
structure Charted (next : α → Option α) (d : α) (underWay : List α → α → Prop) : Prop where
  ranks : ∃ rank, Ranked next d rank ∧
    ∀ trail p, underWay trail p → OnCourse next d rank trail p

variable {underWay : List α → α → Prop}

theorem Charted.exists_route (h : Charted next d underWay) (hp : (next p).isSome) :
    ∃ ps, Route next d p ps ∧ (p :: ps).Nodup := by
  obtain ⟨rank, hranked, _⟩ := h.ranks
  obtain ⟨ps, hroute, hnodup, _⟩ := hranked.exists_route hp
  exact ⟨ps, hroute, hnodup⟩

theorem Charted.of_subset {underWay' : List α → α → Prop} (h : Charted next d underWay)
    (hsub : ∀ trail p, underWay' trail p → underWay trail p) : Charted next d underWay' := by
  obtain ⟨rank, hranked, hall⟩ := h.ranks
  exact ⟨rank, hranked, fun trail p hway => hall trail p (hsub trail p hway)⟩

theorem Charted.send (h : Charted next d underWay) (hq : q = d ∨ (next q).isSome) :
    Charted next d fun trail p => underWay trail p ∨ trail = [] ∧ p = q := by
  obtain ⟨rank, hranked, hall⟩ := h.ranks
  refine ⟨rank, hranked, ?_⟩
  rintro trail p (hway | ⟨rfl, rfl⟩)
  · exact hall trail p hway
  · exact ⟨List.nodup_nil, fun hp => ⟨hq.resolve_left hp, nofun⟩⟩

theorem Charted.pass (h : Charted next d underWay) (hway : underWay trail p) (hp : p ≠ d)
    (hq : next p = some q) :
    Charted next d fun trail' p' => underWay trail' p' ∨ trail' = trail ++ [p] ∧ p' = q := by
  obtain ⟨rank, hranked, hall⟩ := h.ranks
  refine ⟨rank, hranked, ?_⟩
  rintro trail' p' (hway' | ⟨rfl, rfl⟩)
  · exact hall trail' p' hway'
  · have hcourse := hall trail p hway
    obtain ⟨hknown, htrail⟩ := hcourse.ahead hp
    refine ⟨?_, fun hq' => ?_⟩
    · have hlast : [p].Nodup := List.nodup_singleton p
      refine hcourse.nodup.append hlast fun x hx hx' => ?_
      obtain rfl := List.mem_singleton.mp hx'
      exact hcourse.notMem hp hx
    · obtain ⟨hnext, hlower⟩ := (hranked p p' hp hq).resolve_left hq'
      refine ⟨hnext, fun x hx => ?_⟩
      rcases List.mem_append.mp hx with hx | hx
      · exact ⟨(htrail x hx).1, Nat.lt_trans hlower (htrail x hx).2⟩
      · obtain rfl := List.mem_singleton.mp hx
        exact ⟨hknown, hlower⟩

variable [DecidableEq α]

theorem isSome_update {x : α} (v : α) (h : (next x).isSome) :
    (Function.update next p (some v) x).isSome := by
  rw [Function.update_apply]
  split_ifs
  · rfl
  · exact h

/-- A node without a next hop learns one from a node that has one. It ranks above that node. -/
theorem Charted.learn (h : Charted next d underWay) (hp : next p = none)
    (hq : (next q).isSome) : Charted (Function.update next p (some q)) d underWay := by
  obtain ⟨rank, hranked, hall⟩ := h.ranks
  have hne : ∀ {x}, (next x).isSome → x ≠ p := by
    rintro x hx rfl
    rw [hp] at hx
    cases hx
  refine ⟨Function.update rank p (rank q + 1), ?_, ?_⟩
  · intro x y hx hy
    by_cases hxp : x = p
    · subst hxp
      rw [Function.update_self] at hy
      obtain rfl := Option.some.inj hy
      refine .inr ⟨isSome_update q hq, ?_⟩
      rw [Function.update_self, Function.update_of_ne (hne hq)]
      exact Nat.lt_succ_self _
    · rw [Function.update_of_ne hxp] at hy
      refine (hranked x y hx hy).imp_right fun ⟨hknown, hlower⟩ => ⟨isSome_update q hknown, ?_⟩
      rwa [Function.update_of_ne hxp, Function.update_of_ne (hne hknown)]
  · intro trail x hway
    obtain ⟨hnodup, hahead⟩ := hall trail x hway
    refine ⟨hnodup, fun hx => ?_⟩
    obtain ⟨hknown, htrail⟩ := hahead hx
    refine ⟨isSome_update q hknown, fun y hy => ?_⟩
    obtain ⟨hyknown, hlower⟩ := htrail y hy
    refine ⟨isSome_update q hyknown, ?_⟩
    rwa [Function.update_of_ne (hne hknown), Function.update_of_ne (hne hyknown)]

/-- The destination becomes the next hop, whatever it was before. -/
theorem Charted.direct (h : Charted next d underWay) (p : α) :
    Charted (Function.update next p (some d)) d underWay := by
  obtain ⟨rank, hranked, hall⟩ := h.ranks
  refine ⟨rank, ?_, ?_⟩
  · intro x y hx hy
    by_cases hxp : x = p
    · subst hxp
      rw [Function.update_self] at hy
      exact .inl (Option.some.inj hy).symm
    · rw [Function.update_of_ne hxp] at hy
      exact (hranked x y hx hy).imp_right fun ⟨hknown, hlower⟩ => ⟨isSome_update d hknown, hlower⟩
  · intro trail x hway
    obtain ⟨hnodup, hahead⟩ := hall trail x hway
    refine ⟨hnodup, fun hx => ?_⟩
    obtain ⟨hknown, htrail⟩ := hahead hx
    exact ⟨isSome_update d hknown, fun y hy => ⟨isSome_update d (htrail y hy).1, (htrail y hy).2⟩⟩

end JobPortal.NextHops
