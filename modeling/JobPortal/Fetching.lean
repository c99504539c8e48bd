import JobPortal.SharedFiles

/-! Getting a file that the catalog names. Requests and answers find their ways, and the answer
brings the blob, so a download can always be brought to its end. -/
namespace JobPortal.Sharing

open Gossip Hex LastWrites NextHops Queues Runs Transport

variable {M : Type}

namespace SharingNetwork

variable {env : SharingEnv M} {g g' : SharingNetwork M} {n p : String} {key : Bytes}
  {e : SharingEvent M} {es : List (SharingEvent M)} {μ : Meaning}

/-- The ids and times of packets do not matter here. -/
def anyFresh : ℕ → Fresh := fun _ => ⟨"", 0⟩

/-- What handlers and relays do is left to the nodes. -/
theorem wellUsed_arrive (addr : String) (i : ℕ) (choice : Choice) :
    WellUsed env μ g ⟨addr, anyFresh, .arrive i choice⟩ := ⟨⟨trivial, trivial⟩, trivial⟩

theorem Relays.wellUsed (h : Relays g e) : WellUsed env μ g e := by
  obtain ⟨i, choice, hact, _⟩ := h
  unfold WellUsed Honest Outward Agreed
  rw [hact]
  exact ⟨⟨trivial, trivial⟩, trivial⟩

theorem step_act (hn : e.addr ≠ "") {result : SharingNode M × List (Letter M)}
    (h : (g.nodes e.addr).act env e.act = some result) :
    g.step env e = some (g.put e.addr e.fresh result) := by
  unfold step
  dsimp only
  rw [if_neg hn]
  split
  · rename_i hact
    rw [hact] at h
    cases h
  · rw [h]
    rfl

theorem step_process (env : SharingEnv M) {f : Flight M} {i : ℕ} (hi : g.flights[i]? = some f)
    (hn : f.addr ≠ "") (hdest : f.header.destination = f.addr)
    (hidle : (g.nodes f.addr).busy = false) {choice : Choice}
    {result : SharingNode M × List (Letter M)}
    (h : (g.nodes f.addr).process env f.header choice f.pkt.msg = some result) :
    g.step env ⟨f.addr, anyFresh, .arrive i choice⟩ = some (g.put f.addr anyFresh result) := by
  unfold step
  dsimp only
  rw [if_neg hn, hi, Option.bind_some, if_neg (not_not.mpr rfl), if_pos hdest, hidle, h]
  rfl

structure Onward (env : SharingEnv M) (μ : Meaning) (g g' : SharingNetwork M) : Prop where
  run : ∃ es, Run (step env) (WellUsed env μ) g es g'
  catalog : ∀ q, (g'.nodes q).catalog = (g.nodes q).catalog
  busy : ∀ q, (g'.nodes q).busy = (g.nodes q).busy

theorem onward_refl (g : SharingNetwork M) : Onward env μ g g :=
  ⟨⟨[], .nil⟩, fun _ => rfl, fun _ => rfl⟩

theorem Onward.trans {g'' : SharingNetwork M} (h : Onward env μ g g') (h' : Onward env μ g' g'') :
    Onward env μ g g'' := by
  obtain ⟨⟨es, hrun⟩, hcatalog, hbusy⟩ := h
  obtain ⟨⟨es', hrun'⟩, hcatalog', hbusy'⟩ := h'
  exact ⟨⟨_, hrun.append hrun'⟩, fun q => (hcatalog' q).trans (hcatalog q),
    fun q => (hbusy' q).trans (hbusy q)⟩

structure Sound (env : SharingEnv M) (μ : Meaning) (g : SharingNetwork M) : Prop where
  mapped : g.Mapped
  truthful : g.Truthful
  genuine : g.Genuine env μ

theorem sound_start : Sound env μ (start : SharingNetwork M) :=
  ⟨mapped_start, truthful_start, genuine_start⟩

theorem Sound.step (h : Sound env μ g) (hok : WellUsed env μ g e)
    (hstep : g.step env e = some g') : Sound env μ g' :=
  ⟨h.mapped.step hok.1.1 hstep, h.truthful.step h.mapped hok.1 hstep, h.genuine.step hok.2 hstep⟩

theorem Sound.onward (h : Sound env μ g) (hon : Onward env μ g g') :
    Sound env μ g' ∧ (∀ p o, o ∈ (g.nodes p).routingTable → o ∈ (g'.nodes p).routingTable) ∧
      ∀ p key, key ≠ [] → (g.nodes p).blob.get key ≠ none →
        (g'.nodes p).blob.get key ≠ none := by
  obtain ⟨es, hrun⟩ := hon.run
  refine hrun.invariant (I := fun g' => Sound env μ g' ∧
    (∀ p o, o ∈ (g.nodes p).routingTable → o ∈ (g'.nodes p).routingTable) ∧
    ∀ p key, key ≠ [] → (g.nodes p).blob.get key ≠ none → (g'.nodes p).blob.get key ≠ none)
    ⟨h, fun _ _ ho => ho, fun _ _ _ hheld => hheld⟩ ?_
  rintro t u e ⟨hsound, htable, hheld⟩ hok hstep
  exact ⟨hsound.step hok hstep,
    fun p o ho => hsound.mapped.grows hok.1.1 hstep (htable p o ho),
    fun p key hne hkey => hsound.truthful.held hok.1 hstep hne (hheld p key hne hkey)⟩

theorem put_self_nodes (fresh : ℕ → Fresh) (letters : List (Letter M)) :
    (g.put n fresh (g.nodes n, letters)).nodes = g.nodes := Function.update_eq_self ..

/-- What is sent by the routing table gets to its destination, and nothing else happens. -/
theorem Sound.exists_delivery (h : Sound env μ g) (hp : p ≠ "")
    (hroute : p ∈ (g.nodes n).routingTable) {parcel : Parcel M} {g₁ : SharingNetwork M}
    (hok : WellUsed env μ g e) (hstep : g.step env e = some g₁)
    (hput : g₁ = g.put n e.fresh (g.nodes n, (g.nodes n).byRoute p parcel)) :
    ∃ g' f, Onward env μ g g' ∧ g'.nodes = g.nodes ∧ f ∈ g'.flights ∧ f.addr = p ∧
      f.header.destination = p ∧ f.header.source = n ∧ f.pkt.msg = parcel := by
  obtain ⟨q, hq⟩ := Option.isSome_iff_exists.mp (Finmap.lookup_isSome.mpr hroute)
  have hnodes : g₁.nodes = g.nodes := hput ▸ put_self_nodes _ _
  have hletters : (g.nodes n).byRoute p parcel = [⟨p, q, parcel⟩] := by
    rw [SharingNode.byRoute, hq]
    rfl
  have hmem : sendMsg (e.fresh 0) n ⟨p, q, parcel⟩ ∈ g₁.flights := by
    rw [hput, hletters]
    exact List.mem_append_right _ (List.mem_singleton_self _)
  have hsound := h.step hok hstep
  obtain ⟨ps, hway⟩ := hsound.mapped.exists_route hmem hp
  obtain ⟨es, g', f, hrun, hnodes', hf, haddr, hdest, hsource, hmsg, _⟩ :=
    hsound.mapped.exists_relays env hp hway hmem rfl rfl
  refine ⟨g', f, ⟨⟨_, (Run.one hok hstep).append (hrun.imp fun _ _ hrelay => hrelay.wellUsed)⟩,
    fun q => ?_, fun q => ?_⟩, hnodes'.trans hnodes, hf, haddr, hdest, hsource, hmsg⟩
  · rw [hnodes', hnodes]
  · rw [hnodes', hnodes]

/-- A blob that the catalog names can be got. -/
theorem Sound.exists_fetch (h : Sound env μ g) (hn : n ≠ "") (hp : p ≠ "") (hne : key ≠ [])
    (hcatalog : p ∈ (g.nodes n).catalog.at key ∅) (hroute : p ∈ (g.nodes n).routingTable)
    (hidle : (g.nodes n).busy = false) (hidle' : (g.nodes p).busy = false)
    (hid : ∃ id, μ.keyOf id = key) :
    ∃ g', Onward env μ g g' ∧ (g'.nodes n).blob.get key ≠ none := by
  obtain ⟨id, hid⟩ := hid
  -- the request
  obtain ⟨c, f, honc, hnodesc, hf, haddr, hdest, hsource, hmsg⟩ :=
    h.exists_delivery hp hroute (e := ⟨n, anyFresh, .request id key p⟩)
      ⟨⟨trivial, trivial⟩, hid.symm⟩ (step_act hn (if_pos hcatalog)) rfl
  obtain ⟨hsoundc, _, _⟩ := h.onward honc
  have hoffers := hsoundc.truthful.flights f hf
  rw [hmsg, hdest, hsource] at hoffers
  replace hoffers := hoffers hne
  obtain ⟨i, hi⟩ := List.mem_iff_getElem?.mp hf
  have hprocess : (c.nodes f.addr).process env f.header {} f.pkt.msg =
      some (c.nodes f.addr, (c.nodes f.addr).byRoute n
        (.dataReply ⟨id, key, (c.nodes f.addr).blob.get key⟩)) := by
    rw [hmsg, SharingNode.process, hsource]
  have hidlec : (c.nodes f.addr).busy = false := by
    rw [haddr, hnodesc]
    exact hidle'
  have hstepc := step_process env hi (haddr ▸ hp) (hdest.trans haddr.symm) hidlec hprocess
  rw [haddr] at hstepc
  -- the answer
  obtain ⟨d, f', hond, hnodesd, hf', haddr', hdest', _, hmsg'⟩ :=
    hsoundc.exists_delivery hn hoffers.2 (wellUsed_arrive p i {}) hstepc rfl
  obtain ⟨j, hj⟩ := List.mem_iff_getElem?.mp hf'
  have hprocess' : (d.nodes f'.addr).process env f'.header {} f'.pkt.msg =
      some ((d.nodes f'.addr).setBlob key ((c.nodes p).blob.get key), []) := by
    rw [hmsg', SharingNode.process]
  have hidled : (d.nodes f'.addr).busy = false := by
    rw [haddr', hnodesd, hnodesc]
    exact hidle
  have hstepd :=
    step_process env hj (haddr' ▸ hn) (hdest'.trans haddr'.symm) hidled hprocess'
  rw [haddr'] at hstepd
  have hfields : ∀ q, ((d.put n anyFresh ((d.nodes n).setBlob key ((c.nodes p).blob.get key),
      [])).nodes q).catalog = (d.nodes q).catalog ∧ ((d.put n anyFresh ((d.nodes n).setBlob key
      ((c.nodes p).blob.get key), [])).nodes q).busy = (d.nodes q).busy := by
    intro q
    by_cases hq : q = n
    · subst hq
      rw [nodes_put_self]
      exact ⟨rfl, rfl⟩
    · rw [nodes_put_of_ne hq]
      exact ⟨rfl, rfl⟩
  refine ⟨_, (honc.trans hond).trans ⟨⟨_, .one (wellUsed_arrive n j {}) hstepd⟩,
    fun q => (hfields q).1, fun q => (hfields q).2⟩, ?_⟩
  rw [nodes_put_self]
  have hset : ((d.nodes n).setBlob key ((c.nodes p).blob.get key)).blob.get key =
      (c.nodes p).blob.get key := BlobStore.get_set_self _ _ _
  rw [hset]
  exact hoffers.1

theorem Sound.exists_fetch_all (h : Sound env μ g) (hn : n ≠ "")
    (hidle : (g.nodes n).busy = false) {keys : List Bytes}
    (hids : ∀ key ∈ keys, key ≠ [] ∧ ∃ id, μ.keyOf id = key)
    (hkeys : ∀ key ∈ keys, (g.nodes n).blob.get key ≠ none ∨
      ∃ p ∈ (g.nodes n).catalog.at key ∅, p ≠ "" ∧ p ∈ (g.nodes n).routingTable ∧
        (g.nodes p).busy = false) :
    ∃ g', Onward env μ g g' ∧ ∀ key ∈ keys, (g'.nodes n).blob.get key ≠ none := by
  induction keys with
  | nil => exact ⟨g, onward_refl g, nofun⟩
  | cons key keys ih =>
    obtain ⟨a, hona, hall⟩ := ih (fun k hk => hids k (List.mem_cons_of_mem _ hk))
      fun k hk => hkeys k (List.mem_cons_of_mem _ hk)
    obtain ⟨hsound, htable, hheld⟩ := h.onward hona
    obtain ⟨hne, hid⟩ := hids key List.mem_cons_self
    have hfirst : ∃ b, Onward env μ a b ∧ (b.nodes n).blob.get key ≠ none := by
      rcases hkeys key List.mem_cons_self with hhere | ⟨p, hcatalog, hp, hroute, hidle'⟩
      · exact ⟨a, onward_refl a, hheld n key hne hhere⟩
      · rw [← hona.catalog n] at hcatalog
        exact hsound.exists_fetch hn hp hne hcatalog (htable n p hroute)
          ((hona.busy n).trans hidle) ((hona.busy p).trans hidle') hid
    obtain ⟨b, honb, hkey⟩ := hfirst
    refine ⟨b, hona.trans honb, fun k hk => ?_⟩
    rcases List.mem_cons.mp hk with rfl | hk
    · exact hkey
    · exact (hsound.onward honb).2.2 n k (hids k (List.mem_cons_of_mem _ hk)).1 (hall k hk)

theorem sound_of_run (h : Run (step env) (WellUsed env μ) start es g) : Sound env μ g :=
  h.invariant (I := Sound env μ) sound_start fun hg hok hstep => hg.step hok hstep

/-- A file can be downloaded by every node that is between packets and whose catalog names, for each
of the blobs that are not there already, somebody who is so, too, and whom the node has a route
to. What waits in a queue in front of a handler counts as under way here, and need not arrive. -/
theorem catalog_downloads (h : Run (step env) (WellUsed env μ) start es g) (hn : n ≠ "")
    (hidle : (g.nodes n).busy = false) {chunkSize : ℕ} {data : Bytes}
    (huploaded : ∃ e ∈ es, e.act = .upload chunkSize data)
    (hids : ∀ w ∈ uploadWrites env.primitives (chunks chunkSize data), ∃ id, μ.keyOf id = w.1)
    (hkeys : ∀ w ∈ uploadWrites env.primitives (chunks chunkSize data),
      (g.nodes n).blob.get w.1 ≠ none ∨
        ∃ p ∈ (g.nodes n).catalog.at w.1 ∅, p ≠ "" ∧ p ∈ (g.nodes n).routingTable ∧
          (g.nodes p).busy = false) :
    ∃ es' g', Run (step env) (WellUsed env μ) g es' g' ∧
      Downloads env μ (es ++ es') n (metahash env.primitives (chunks chunkSize data)) data := by
  obtain ⟨hsize, hne, hfits⟩ := content_of_upload h huploaded
  have hget : ∃ g', Onward env μ g g' ∧
      ∀ key ∈ (uploadWrites env.primitives (chunks chunkSize data)).map Prod.fst,
        (g'.nodes n).blob.get key ≠ none :=
    (sound_of_run h).exists_fetch_all hn hidle
      (List.forall_mem_map.mpr fun w hw => ⟨uploadWrites_ne_nil hw, hids w hw⟩)
      (List.forall_mem_map.mpr hkeys)
  obtain ⟨g', hon, hall⟩ := hget
  obtain ⟨es', hrun⟩ := hon.run
  have hboth := h.append hrun
  have hfetched : ∀ key ∈ (uploadWrites env.primitives (chunks chunkSize data)).map Prod.fst,
      Fetched env μ (es ++ es') n key ((g'.nodes n).blob.get key) := fun key hkey =>
    ⟨es ++ es', [], g', (List.append_nil _).symm, hboth.forget, .inl ⟨hall key hkey, rfl⟩⟩
  rw [List.forall_mem_map] at hfetched
  have hmeta := hfetched _ (List.mem_append_right _ (List.mem_singleton_self _))
  have hkey : metahash env.primitives (chunks chunkSize data) ≠ [] := hexKey_sha256_ne_nil _ _
  have hlines : splitKeys (((g'.nodes n).blob.get
        (metahash env.primitives (chunks chunkSize data))).getD []) =
      (chunks chunkSize data).map fun piece => hexKey (env.primitives.sha256 piece) := by
    have hlast := hfits _ (List.mem_append_right _ (List.mem_singleton_self _))
    dsimp only at hlast
    rw [if_neg hne] at hlast
    rw [fetched_content hboth hkey hmeta, ← hlast _ rfl, Option.getD_some,
      splitKeys_metafile env.primitives hne]
  have hvalues : List.Forall₂ (Fetched env μ (es ++ es') n)
      ((chunks chunkSize data).map fun piece => hexKey (env.primitives.sha256 piece))
      (((chunks chunkSize data).map fun piece => hexKey (env.primitives.sha256 piece)).map
        (g'.nodes n).blob.get) := by
    rw [List.forall₂_map_right_iff, List.forall₂_same, List.forall_mem_map]
    intro piece hpiece
    exact hfetched (hexKey (env.primitives.sha256 piece), some piece)
      (List.mem_append_left _ (List.mem_map_of_mem hpiece))
  rw [← hlines] at hvalues
  have hdownloads : Downloads env μ (es ++ es') n
      (metahash env.primitives (chunks chunkSize data)) _ := ⟨_, _, hmeta, hvalues, rfl⟩
  obtain ⟨e, he, hact⟩ := huploaded
  have hsame := downloads_uploaded hboth ⟨e, List.mem_append_left _ he, hact⟩ hdownloads
  rw [hsame] at hdownloads
  exact ⟨es', g', hrun, hdownloads⟩

end SharingNetwork

namespace Sample

open SharingNetwork

theorem catalog_downloads_found :
    ∃ es' g', Run (step env) (WellUsed env meaning) agreed es' g' ∧
      Downloads env meaning (found ++ es') "A" (metahash env.primitives (chunks 3 piece))
        piece := by
  have hids : ∀ w ∈ uploadWrites env.primitives (chunks 3 piece),
      meaning.keyOf "s" = w.1 ∨ meaning.keyOf "t" = w.1 := by decide
  refine catalog_downloads run_agreed (by decide) (by decide) ⟨_, List.mem_cons_self, rfl⟩
    (fun w hw => ?_) (by decide)
  rcases hids w hw with hs | ht
  · exact ⟨"s", hs⟩
  · exact ⟨"t", ht⟩

end Sample

end JobPortal.Sharing
