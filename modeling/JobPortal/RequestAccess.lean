import JobPortal.FileRequests

/-! Who gets a partial decryption. With HMAC the HRID is read as an int whatever it is and the
secret under that number is used. With RSA the HRID is not looked at, and the key of the address is
used. -/
namespace JobPortal.Cothority

open Goroutines Hex Runs

def NoNumber (digits : List Char) : Prop := digits = [] ∨ digits.any fun c => !c.isDigit

instance (digits : List Char) : Decidable (NoNumber digits) :=
  inferInstanceAs (Decidable (_ ∨ _))

def readDigits (digits : List Char) : ℕ :=
  digits.foldl (fun n c => 10 * n + (c.toNat - '0'.toNat)) 0

def parseInt (s : String) : Option ℤ :=
  let (neg, digits) := signAndDigits s
  if NoNumber digits then none
  else some (if neg then -(readDigits digits : ℤ) else readDigits digits)

theorem atoi_of_parseInt {s : String} {id : ℕ} (h : parseInt s = some (id : ℤ)) :
    atoi s = min (id : ℤ) (2 ^ 63 - 1) := by
  rw [parseInt] at h
  rw [atoi]
  generalize signAndDigits s = r at h ⊢
  obtain ⟨neg, digits⟩ := r
  dsimp only at h ⊢
  by_cases hdigits : NoNumber digits
  · rw [if_pos hdigits] at h
    cases h
  rw [if_neg hdigits] at h
  have hvalue := Option.some.inj h
  have hall : ∀ c ∈ digits, c.isDigit = true := by
    simpa [NoNumber] using fun h => hdigits (.inr h)
  rw [parseUint_of_digits hall (by omega)]
  change _ = min (id : ℤ) _
  rw [readDigits] at hvalue
  dsimp only
  cases neg with
  | true =>
    rw [if_pos rfl] at hvalue ⊢
    omega
  | false =>
    rw [if_neg Bool.false_ne_true] at hvalue ⊢
    omega

def secretKey (hrid : String) : ℕ := (atoi hrid % 2 ^ 64).toNat

theorem secretKey_of_parseInt {hrid : String} {id : ℕ} (h : parseInt hrid = some (id : ℤ)) :
    secretKey hrid = min id (2 ^ 63 - 1) := by
  rw [secretKey, atoi_of_parseInt h]
  omega

namespace FileNode

variable {S : Type} (P : RequestPrimitives S) (hrAddr : ℕ → String)

def unsigned (m : RequestFileMessage) : RequestFileMessage := { m with mac := none }

/-- The MAC was made with the credential of an HR: its secret, or the key of its address. -/
def ValidFor (n : FileNode S) (m : RequestFileMessage) (id : ℕ) : Prop :=
  if n.signMethod = 1 then
    ∃ secret, n.hrSecretTable.lookup id = some secret ∧
      m.mac.getD [] = getHMAC P (unsigned m) secret
  else
    ∃ key, P.getPublicKey (hrAddr id) = some key ∧
      P.verifyRSA (P.marshalRequestFile (unsigned m)) (m.mac.getD []) key = true

/-- The HRID is that of an HR in the table, with whose credential the request is authenticated. -/
def Registered (n : FileNode S) (m : RequestFileMessage) : Prop :=
  ∃ id : ℕ, parseInt m.hrid = some (id : ℤ) ∧ id ∈ n.hrSecretTable ∧
    n.ValidFor P hrAddr m id

/-- With HMAC the HRID has to be a number from 0 on that fits an int. With RSA it has to be a number
of the table, and the address that of this HR. -/
def Accountable (n : FileNode S) (m : RequestFileMessage) : Prop :=
  if n.signMethod = 1 then ∃ id : ℕ, parseInt m.hrid = some (id : ℤ) ∧ id < 2 ^ 63
  else ∃ id : ℕ, parseInt m.hrid = some (id : ℤ) ∧ id ∈ n.hrSecretTable ∧
    m.address = hrAddr id

/-- A MAC is good for one credential only. -/
structure Exclusive (n : FileNode S) : Prop where
  hmac : ∀ m id id' secret secret', n.hrSecretTable.lookup id = some secret →
    n.hrSecretTable.lookup id' = some secret' → getHMAC P m secret = getHMAC P m secret' →
      id = id'
  rsa : ∀ data signature addr addr' key key', P.getPublicKey addr = some key →
    P.getPublicKey addr' = some key' → P.verifyRSA data signature key = true →
      P.verifyRSA data signature key' = true → addr = addr'

variable {P hrAddr} {n u : FileNode S} {m : RequestFileMessage}

theorem registered_of_accountable (hauth : n.authenticate P m = .done true)
    (h : n.Accountable hrAddr m) : n.Registered P hrAddr m := by
  unfold authenticate at hauth
  unfold Accountable at h
  dsimp only at hauth
  split_ifs at hauth h with hmethod
  · obtain ⟨id, hid, hlt⟩ := h
    have hkey : secretKey m.hrid = id := by
      rw [secretKey_of_parseInt hid]
      omega
    rw [← secretKey, hkey] at hauth
    split at hauth
    · rename_i secret hsecret
      refine ⟨id, hid, Finmap.mem_of_lookup_eq_some hsecret, ?_⟩
      rw [ValidFor, if_pos hmethod]
      exact ⟨secret, hsecret, of_decide_eq_true (Turn.done.inj hauth)⟩
    · cases hauth
  · obtain ⟨id, hid, hmem, haddr⟩ := h
    refine ⟨id, hid, hmem, ?_⟩
    rw [ValidFor, if_neg hmethod, ← haddr]
    split at hauth
    · rename_i key hkey
      split_ifs at hauth with hverify
      exact ⟨key, hkey, hverify⟩
    · cases hauth

theorem accountable_of_registered (hexcl : n.Exclusive P) (hauth : n.authenticate P m = .done true)
    (h : n.Registered P hrAddr m) : n.Accountable hrAddr m := by
  obtain ⟨id, hid, hmem, hvalid⟩ := h
  unfold authenticate at hauth
  unfold ValidFor at hvalid
  unfold Accountable
  dsimp only at hauth
  split_ifs at hauth hvalid ⊢ with hmethod
  · refine ⟨id, hid, ?_⟩
    obtain ⟨secret, hsecret, hmac⟩ := hvalid
    rw [← secretKey] at hauth
    split at hauth
    · rename_i secret' hsecret'
      have hmac' := of_decide_eq_true (Turn.done.inj hauth)
      have hkey := hexcl.hmac _ _ _ _ _ hsecret hsecret' (hmac.symm.trans hmac')
      rw [secretKey_of_parseInt hid] at hkey
      omega
    · cases hauth
  · refine ⟨id, hid, hmem, ?_⟩
    obtain ⟨key, hkey, hverify⟩ := hvalid
    split at hauth
    · rename_i key' hkey'
      split_ifs at hauth with hverify'
      exact hexcl.rsa _ _ _ _ _ _ hkey' hkey hverify' hverify
    · cases hauth

def Passed (pc : RequestPC) : Prop := pc ≠ .received ∧ pc ≠ .dropped

def Checked (P : RequestPrimitives S) (n : FileNode S) : Prop :=
  ∀ r ∈ n.requests, Passed r.2 → n.authenticate P r.1 = .done true

theorem Checked.goOn (hn : n.Checked P) {j : ℕ} {pc pc' : RequestPC}
    (hj : n.requests[j]? = some (m, pc))
    (hpc : Passed pc' → Passed pc ∨ n.authenticate P m = .done true) :
    (n.goOn j m pc').Checked P := by
  intro r hr hpassed
  rcases List.mem_or_eq_of_mem_set hr with hr | rfl
  · exact hn r hr hpassed
  · exact (hpc hpassed).elim (hn (m, pc) (List.mem_of_getElem? hj)) id

theorem Checked.step (hn : n.Checked P) {e : FileEvent} (h : n.step P e = some u) :
    u.Checked P := by
  cases step_effect h with
  | request m =>
    intro r hr hpassed
    rcases List.mem_append.mp hr with hr | hr
    · exact hn r hr hpassed
    · obtain rfl := List.mem_singleton.mp hr
      exact absurd rfl hpassed.1
  | @authenticate j m valid hj hvalid =>
    refine hn.goOn hj fun hpassed => .inr ?_
    cases valid with
    | true => exact hvalid
    | false => exact absurd rfl hpassed.2
  | recorded hj => exact hn.goOn hj fun _ => .inl ⟨nofun, nofun⟩
  | rLock hj => exact hn.goOn hj fun _ => .inl ⟨nofun, nofun⟩
  | read hj => exact hn.goOn hj fun _ => .inl ⟨nofun, nofun⟩
  | rUnlock hj => exact hn.goOn hj fun _ => .inl ⟨nofun, nofun⟩
  | answer hj => exact hn.goOn hj fun _ => .inl ⟨nofun, nofun⟩
  | poll | encryptedFile | lock | acquire | write | unlock => exact hn

theorem access_of_step {e : FileEvent} (h : n.step P e = some u) :
    u.signMethod = n.signMethod ∧ u.hrSecretTable = n.hrSecretTable := by
  cases step_effect h <;> exact ⟨rfl, rfl⟩

theorem access_of_run {es : List FileEvent} (h : AnyRun (step P) n es u) :
    u.signMethod = n.signMethod ∧ u.hrSecretTable = n.hrSecretTable := by
  refine h.invariant (I := fun m => m.signMethod = n.signMethod ∧
    m.hrSecretTable = n.hrSecretTable) ⟨rfl, rfl⟩ fun hm _ hstep => ?_
  obtain ⟨hmethod, htable⟩ := access_of_step hstep
  exact ⟨hmethod.trans hm.1, htable.trans hm.2⟩

/-- A request that is answered comes from a registered HR if it names the one whose credential it is
authenticated with, and where a MAC is good for one credential only, not otherwise. -/
theorem answered_registered (P : RequestPrimitives S) (hrAddr : ℕ → String) {n u : FileNode S}
    (hstart : n.requests = []) {es : List FileEvent} (h : AnyRun (step P) n es u) {j : ℕ}
    {m : RequestFileMessage} {response : ResponseFileMessage}
    (hanswered : u.requests[j]? = some (m, .answered response)) :
    (u.Accountable hrAddr m → u.Registered P hrAddr m) ∧
      (u.Exclusive P → u.Registered P hrAddr m → u.Accountable hrAddr m) := by
  have hchecked : u.Checked P := by
    refine h.invariant (I := Checked P) (fun r hr => ?_) fun hn _ hstep => hn.step hstep
    rw [hstart] at hr
    cases hr
  have hauth := hchecked _ (List.mem_of_getElem? hanswered) ⟨nofun, nofun⟩
  exact ⟨registered_of_accountable hauth, fun hexcl => accountable_of_registered hexcl hauth⟩

end FileNode

namespace Sample

def hmacNode (table : GoMap ℕ String) : FileNode ℕ :=
  { fileNode with signMethod := 1, hrSecretTable := table }

def hmacRequest (hrid secret : String) : RequestFileMessage :=
  { requestFor "f" 3 with hrid := hrid, mac := some (utf8 secret ++ utf8 "f") }

def serving (m : RequestFileMessage) : List FileEvent :=
  [.encryptedFile ⟨"f", some [1], [2]⟩, .request m, .authenticate 0, .lock 0, .acquire 0, .write 0,
    .unlock 0, .rLock 0, .read 0, .rUnlock 0, .answer 0]

def sent (n : FileNode ℕ) (m : RequestFileMessage) : ResponseFileMessage :=
  n.response requestPrimitives 7 m ⟨some [1], [2]⟩

def Answers (n : FileNode ℕ) (m : RequestFileMessage) : Prop :=
  ∃ u ∈ exec (FileNode.step requestPrimitives) n (serving m),
    u.requests[0]? = some (m, .answered (sent n m)) ∧ u.signMethod = n.signMethod ∧
      u.hrSecretTable = n.hrSecretTable

instance (n : FileNode ℕ) (m : RequestFileMessage) : Decidable (Answers n m) :=
  inferInstanceAs (Decidable (∃ u ∈ exec _ n (serving m), _))

def hrTable : GoMap ℕ String := (Finmap.singleton 1 "t").insert 0 "s"

/-- With RSA a node that is no HR is answered, and with HMAC one whose HRID is no number. -/
theorem registered_counterexample :
    (∃ u, AnyRun (FileNode.step requestPrimitives) fileNode (serving (requestFor "f" 3)) u ∧
        u.requests[0]? =
          some (requestFor "f" 3, .answered (sent fileNode (requestFor "f" 3))) ∧
        ∀ hrAddr, ¬ u.Registered requestPrimitives hrAddr (requestFor "f" 3)) ∧
      ∃ u, AnyRun (FileNode.step requestPrimitives) (hmacNode hrTable)
          (serving (hmacRequest "x" "s")) u ∧
        u.requests[0]? = some (hmacRequest "x" "s",
          .answered (sent (hmacNode hrTable) (hmacRequest "x" "s"))) ∧
        ∀ hrAddr, ¬ u.Registered requestPrimitives hrAddr (hmacRequest "x" "s") := by
  constructor
  · have hanswers : Answers fileNode (requestFor "f" 3) := by decide
    obtain ⟨u, hu, hanswered, _, htable⟩ := hanswers
    refine ⟨u, run_of_exec hu, hanswered, fun hrAddr => ?_⟩
    rintro ⟨id, _, hmem, _⟩
    rw [htable] at hmem
    exact Finmap.notMem_empty hmem
  · have hanswers : Answers (hmacNode hrTable) (hmacRequest "x" "s") := by decide
    obtain ⟨u, hu, hanswered, _⟩ := hanswers
    refine ⟨u, run_of_exec hu, hanswered, fun hrAddr => ?_⟩
    rintro ⟨id, hid, _⟩
    have hnone : parseInt (hmacRequest "x" "s").hrid = none := by decide
    rw [hnone] at hid
    cases hid

theorem lookup_hrTable {id : ℕ} {secret : String} (h : hrTable.lookup id = some secret) :
    id = 0 ∧ secret = "s" ∨ id = 1 ∧ secret = "t" := by
  by_cases hzero : id = 0
  · subst hzero
    rw [hrTable, Finmap.lookup_insert] at h
    exact .inl ⟨rfl, (Option.some.inj h).symm⟩
  · rw [hrTable, Finmap.lookup_insert_of_ne _ hzero] at h
    have hone : id = 1 := (Finmap.mem_singleton ..).mp (Finmap.mem_of_lookup_eq_some h)
    subst hone
    rw [Finmap.lookup_singleton_eq] at h
    exact .inr ⟨rfl, (Option.some.inj h).symm⟩

theorem getPublicKey_eq_some {addr : String} {key : Bytes}
    (h : requestPrimitives.getPublicKey addr = some key) : key = utf8 addr := by
  change (if addr ∈ JobPortal.Sample.addrs then some (utf8 addr) else none) = some key at h
  split_ifs at h
  exact (Option.some.inj h).symm

theorem exclusive_hmacNode {n : FileNode ℕ} (h : n.hrSecretTable = hrTable) :
    n.Exclusive requestPrimitives where
  hmac m id id' secret secret' hsecret hsecret' hmac := by
    have heq : secret = secret' := utf8_injective (List.append_cancel_right hmac)
    rw [h] at hsecret hsecret'
    rcases lookup_hrTable hsecret with ⟨rfl, rfl⟩ | ⟨rfl, rfl⟩
    · exact ((lookup_hrTable hsecret').resolve_right fun h => absurd (heq.trans h.2)
        (by decide)).1.symm
    · exact ((lookup_hrTable hsecret').resolve_left fun h => absurd (heq.trans h.2)
        (by decide)).1.symm
  rsa data signature addr addr' key key' hkey hkey' hverify hverify' := by
    have hsig : signature = key ++ 0 :: data := of_decide_eq_true hverify
    have hsig' : signature = key' ++ 0 :: data := of_decide_eq_true hverify'
    have heq : key = key' := List.append_cancel_right (hsig.symm.trans hsig')
    rw [getPublicKey_eq_some hkey, getPublicKey_eq_some hkey'] at heq
    exact utf8_injective heq

theorem answered_registered_first :
    ∃ u, AnyRun (FileNode.step requestPrimitives) (hmacNode hrTable)
        (serving (hmacRequest "1" "t")) u ∧
      u.Registered requestPrimitives (fun _ => "A") (hmacRequest "1" "t") ∧
      u.Accountable (fun _ => "A") (hmacRequest "1" "t") := by
  have hanswers : Answers (hmacNode hrTable) (hmacRequest "1" "t") := by decide
  obtain ⟨u, hu, hanswered, hmethod, htable⟩ := hanswers
  have hboth := FileNode.answered_registered requestPrimitives (fun _ => "A") rfl
    (run_of_exec hu) hanswered
  have hid : parseInt (hmacRequest "1" "t").hrid = some ((1 : ℕ) : ℤ) := by decide
  have hregistered := hboth.1 <| by
    rw [FileNode.Accountable, if_pos (show u.signMethod = 1 from hmethod)]
    exact ⟨1, hid, by decide⟩
  exact ⟨u, run_of_exec hu, hregistered, hboth.2 (exclusive_hmacNode htable) hregistered⟩

end Sample

end JobPortal.Cothority
