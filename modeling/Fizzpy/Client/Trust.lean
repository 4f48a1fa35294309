import Fizzpy.Client.Conversation

/-!
# Whom the client trusts

The verifier that a connection is set up with, over what Fizz and OpenSSL make of certificates
(`Authority`). A connect succeeds only when the verifier accepts what the peer shows, for the host that
the client names; this is all that is asked of Fizz. With `verify` the peer of every connection on which
something was written was vouched for, by its chain and by the name in its leaf, for the host of every
request that went there (`requests_vouched`), however the threads share the pool.
-/

namespace Fizzpy

open Foundation

/-! ## The verifier -/

/-- What a verification fails with. -/
structure FizzError where
  text : Str
  alert : Str
  ofVerifier : Bool
  deriving DecidableEq

/-- What Fizz and OpenSSL make of certificates, under a CA file (the default store, if that is empty). -/
structure Authority (Cert X509 : Type) where
  /-- `DefaultCertificateVerifier::create` or `createFromCAFile`. -/
  create : Str → Bool
  /-- `verify` of that verifier, with the certificate it returns. -/
  chain : Str → List Cert → Except FizzError Cert
  getDER : Cert → Option Bytes
  d2iX509 : Bytes → Option X509
  checkHost : X509 → Str → ℤ
  checkIpAsc : X509 → Str → ℤ

/-- What C makes of a text: it ends at the first NUL. -/
def cString (s : Str) : Str := s.takeWhile fun c => c ≠ Char.ofNat 0

/-- What `HostnameVerifier` itself refuses with. -/
def refusal (text : Str) : FizzError := ⟨text, str "bad_certificate", true⟩

structure HostnameVerifier where
  caFile : Str
  host : Str
  deriving DecidableEq

inductive CertificateVerifier
  | hostname (v : HostnameVerifier)
  | insecureAcceptAnyCertificate
  deriving DecidableEq

section

variable {Cert X509 : Type} (ca : Authority Cert X509)

/-- The match of the leaf against the host. -/
def HostnameVerifier.matchLeaf (v : HostnameVerifier) (leaf : Cert) : Except FizzError Unit :=
  match ca.getDER leaf with
  | none => .error (refusal (str "peer certificate has no DER encoding for hostname check"))
  | some der =>
    match ca.d2iX509 der with
    | none => .error (refusal (str "could not parse peer certificate"))
    | some x509 =>
      let rc := ca.checkHost x509 v.host
      let rc := if rc ≠ 1 ∧ ca.checkIpAsc x509 (cString v.host) = 1 then 1 else rc
      if rc ≠ 1 then
        .error (refusal (str "certificate does not match hostname '" ++ v.host ++ str "'"))
      else .ok ()

def HostnameVerifier.verify (v : HostnameVerifier) (certs : List Cert) : Except FizzError Cert := do
  let ret ← ca.chain v.caFile certs
  match certs with
  | [] => throw (refusal (str "no peer certificate to match against hostname"))
  | leaf :: _ =>
    v.matchLeaf ca leaf
    return ret

/-- The part of `buildSetup` that makes the verifier, or the text that it throws. -/
def buildVerifier (verify : Bool) (caFile sni : Str) : Except Str CertificateVerifier :=
  if verify then
    if ca.create caFile then .ok (.hostname ⟨caFile, sni⟩)
    else .error (str "failed to build certificate verifier")
  else .ok .insecureAcceptAnyCertificate

/-- Whether a handshake can succeed with a peer that shows these certificates. -/
def admits (verify : Bool) (caFile sni : Str) (certs : List Cert) : Bool :=
  match buildVerifier ca verify caFile sni with
  | .error _ => false
  | .ok (.hostname v) => (v.verify ca certs).isOk
  | .ok .insecureAcceptAnyCertificate => true

/-- The leaf is for the host, by name or by address. -/
def Names (leaf : Cert) (host : Str) : Prop :=
  ∃ der x509, ca.getDER leaf = some der ∧ ca.d2iX509 der = some x509 ∧
    (ca.checkHost x509 host = 1 ∨ ca.checkIpAsc x509 (cString host) = 1)

/-- The certificates are good under the CA file, and the leaf is for the host. -/
def Vouched (caFile host : Str) (certs : List Cert) : Prop :=
  ca.create caFile = true ∧ (∃ ret, ca.chain caFile certs = .ok ret) ∧
    ∃ leaf rest, certs = leaf :: rest ∧ Names ca leaf host

variable {ca}

theorem HostnameVerifier.matchLeaf_iff {v : HostnameVerifier} {leaf : Cert} :
    v.matchLeaf ca leaf = .ok () ↔ Names ca leaf v.host := by
  unfold matchLeaf Names
  cases hder : ca.getDER leaf with
  | none => exact iff_of_false nofun (by rintro ⟨_, _, h, -⟩; cases h)
  | some der =>
    cases hx : ca.d2iX509 der with
    | none =>
      refine iff_of_false (by simp only [hx]; nofun) ?_
      rintro ⟨_, _, hd, h, -⟩
      cases hd
      cases hx.symm.trans h
    | some x509 =>
      have hnames : (∃ der' x509', some der = some der' ∧ ca.d2iX509 der' = some x509' ∧
          (ca.checkHost x509' v.host = 1 ∨ ca.checkIpAsc x509' (cString v.host) = 1)) ↔
          ca.checkHost x509 v.host = 1 ∨ ca.checkIpAsc x509 (cString v.host) = 1 := by
        constructor
        · rintro ⟨_, _, hd, h, hor⟩
          cases hd
          rw [hx, Option.some.injEq] at h
          rwa [h]
        · exact fun h => ⟨der, x509, rfl, hx, h⟩
      rw [hnames]
      simp only [hx]
      by_cases hhost : ca.checkHost x509 v.host = 1
      · simp [hhost]
      · by_cases hip : ca.checkIpAsc x509 (cString v.host) = 1
        · simp [hip]
        · simp [hhost, hip]

/-- What the verifier returns is what the chain was verified to. -/
theorem HostnameVerifier.verify_eq_ok_iff {v : HostnameVerifier} {certs : List Cert} {ret : Cert} :
    v.verify ca certs = .ok ret ↔ ca.chain v.caFile certs = .ok ret ∧
      ∃ leaf rest, certs = leaf :: rest ∧ Names ca leaf v.host := by
  unfold HostnameVerifier.verify
  cases hchain : ca.chain v.caFile certs with
  | error e => exact iff_of_false nofun fun h => nomatch h.1
  | ok c =>
    cases certs with
    | nil =>
      refine iff_of_false nofun ?_
      rintro ⟨-, _, _, h, -⟩
      cases h
    | cons leaf rest =>
      have hleaf : (∃ leaf' rest', leaf :: rest = leaf' :: rest' ∧ Names ca leaf' v.host) ↔
          v.matchLeaf ca leaf = .ok () := by
        rw [matchLeaf_iff]
        constructor
        · rintro ⟨_, _, h, hn⟩
          cases h
          exact hn
        · exact fun hn => ⟨leaf, rest, rfl, hn⟩
      rw [hleaf]
      show (v.matchLeaf ca leaf >>= fun _ => pure c) = .ok ret ↔ _
      cases hm : v.matchLeaf ca leaf with
      | error e => exact iff_of_false nofun fun h => nomatch h.2
      | ok u => exact (and_iff_left rfl).symm

theorem admits_iff {caFile sni : Str} {certs : List Cert} :
    admits ca true caFile sni certs = true ↔ Vouched ca caFile sni certs := by
  unfold admits buildVerifier Vouched
  rw [if_pos rfl]
  by_cases hcreate : ca.create caFile = true
  · rw [if_pos hcreate, and_iff_right hcreate]
    show ((⟨caFile, sni⟩ : HostnameVerifier).verify ca certs).isOk = true ↔ _
    have hok : (∃ ret, (⟨caFile, sni⟩ : HostnameVerifier).verify ca certs = .ok ret) ↔ _ :=
      exists_congr fun ret => HostnameVerifier.verify_eq_ok_iff
    rw [exists_and_right] at hok
    refine Iff.trans ?_ hok
    cases (⟨caFile, sni⟩ : HostnameVerifier).verify ca certs with
    | error e => exact iff_of_false nofun (by rintro ⟨_, h⟩; cases h)
    | ok ret => exact iff_of_true rfl ⟨ret, rfl⟩
  · rw [if_neg hcreate]
    exact iff_of_false nofun fun h => hcreate h.1

end

namespace Client

/-! ## Connections and their peers -/

/-- The options that `_connect` passes on. -/
structure Options where
  verify : Bool
  cafile : Str

section

variable {Cert X509 : Type}

/-- The client with the record of the turns, and with what the peer of each connection showed. -/
structure Vetted (Cert : Type) where
  client : Client := init
  log : Log := fun _ => []
  peers : ConnId → List Cert := fun _ => []

variable (ca : Authority Cert X509) (options : Options) (codec : Codec)

/-- A step of a thread; one that connects comes with what the peer shows. -/
def vet (x : Vetted Cert) (e : (ℕ × Action) × List Cert) : Option (Vetted Cert) :=
  match e.1.2 with
  | .connect true =>
    if admits ca options.verify options.cafile (x.client.threads e.1.1).job.key.1 e.2 then
      (talk codec (x.client, x.log) e.1).map fun y =>
        ⟨y.1, y.2, Function.update x.peers x.client.opened.length e.2⟩
    else none
  | _ => (talk codec (x.client, x.log) e.1).map fun y => ⟨y.1, y.2, x.peers⟩

variable {ca options codec} {x x' : Vetted Cert} {e : (ℕ × Action) × List Cert}

/-- The peers change no step. -/
theorem talk_of_vet (h : vet ca options codec x e = some x') :
    talk codec (x.client, x.log) e.1 = some (x'.client, x'.log) := by
  have hmap : ∀ peers, ((talk codec (x.client, x.log) e.1).map fun y =>
      (⟨y.1, y.2, peers⟩ : Vetted Cert)) = some x' →
      talk codec (x.client, x.log) e.1 = some (x'.client, x'.log) := by
    intro peers h
    obtain ⟨y, hy, rfl⟩ := Option.map_eq_some_iff.mp h
    exact hy
  unfold vet at h
  split at h
  · split_ifs at h
    exact hmap _ h
  · exact hmap _ h

/-- The peer of each connection was vouched for, for the host that it was opened to. -/
def PeersVouched (ca : Authority Cert X509) (caFile : Str) (x : Vetted Cert) : Prop :=
  ∀ c key, x.client.opened[c]? = some key → Vouched ca caFile key.1 (x.peers c)

theorem peersVouched_step (hverify : options.verify = true) (hx : PeersVouched ca options.cafile x)
    (h : vet ca options codec x e = some x') : PeersVouched ca options.cafile x' := by
  obtain ⟨⟨i, a⟩, certs⟩ := e
  obtain ⟨client, log, peers⟩ := x'
  obtain ⟨s', hstep, hs'⟩ := Option.map_eq_some_iff.mp (talk_of_vet h)
  obtain rfl : s' = client := congrArg Prod.fst hs'
  by_cases ha : a = .connect true
  · subst ha
    obtain ⟨hadmits, h⟩ := Option.ite_none_right_eq_some.mp h
    obtain ⟨y, hy, heq⟩ := Option.map_eq_some_iff.mp h
    obtain rfl : Function.update x.peers x.client.opened.length certs = peers := congrArg Vetted.peers heq
    rw [hverify, admits_iff] at hadmits
    cases step_sound hstep with
    | connected hph =>
      intro c key hkey
      have hkey : (x.client.opened ++ [(x.client.threads i).job.key])[c]? = some key := hkey
      show Vouched ca options.cafile key.1 (Function.update x.peers x.client.opened.length certs c)
      by_cases hc : c = x.client.opened.length
      · subst hc
        rw [List.getElem?_concat_length, Option.some.injEq] at hkey
        rw [Function.update_self, ← hkey]
        exact hadmits
      · rw [Function.update_of_ne hc]
        have hlt := (List.getElem?_eq_some_iff.mp hkey).1
        rw [List.length_append, List.length_singleton] at hlt
        have hold : c < x.client.opened.length := lt_of_le_of_ne (Nat.lt_succ_iff.mp hlt) hc
        rw [List.getElem?_append_left hold] at hkey
        exact hx c key hkey
  · have hpeers : peers = x.peers := by
      unfold vet at h
      split at h
      · next hconnect => exact absurd hconnect ha
      · obtain ⟨y, hy, heq⟩ := Option.map_eq_some_iff.mp h
        exact (congrArg Vetted.peers heq).symm
    have hopened : s'.opened = x.client.opened := by
      cases step_sound hstep with
      | connected hph => exact absurd rfl ha
      | _ => rfl
    intro c key hkey
    have hkey : s'.opened[c]? = some key := hkey
    show Vouched ca options.cafile key.1 (peers c)
    rw [hopened] at hkey
    rw [hpeers]
    exact hx c key hkey

theorem peersVouched_init (caFile : Str) : PeersVouched ca caFile {} := by
  intro c key hkey
  have hkey : ([] : List Key)[c]? = some key := hkey
  simp at hkey

/-- The requests of a script are for its target, and what holds of those that it is made of holds of
them. -/
theorem of_mem_script {P : Job → Prop} {key : Key} {past : List (Bytes × Response)}
    {last : Option (Bytes × Bool)} {job : Job} {ok : Bool} (hpast : ∀ y ∈ past, P ⟨key, y.1⟩)
    (hlast : ∀ y ∈ last, P ⟨key, y.1⟩) (h : Turn.asked job ok ∈ script key past last) :
    job.key = key ∧ P job := by
  unfold script at h
  rcases List.mem_append.mp h with h | h
  · obtain ⟨y, hmem, hy⟩ := List.mem_flatMap.mp h
    rcases List.mem_cons.mp hy with hy | hy
    · cases hy
      exact ⟨rfl, hpast y hmem⟩
    · cases List.mem_singleton.mp hy
  · obtain ⟨y, hmem, hy⟩ := List.mem_map.mp h
    cases hy
    exact ⟨rfl, hlast y (Option.mem_toList.mp hmem)⟩

theorem asked_past {key : Key} {past : List (Bytes × Response)} {last : Option (Bytes × Bool)}
    {y : Bytes × Response} (h : y ∈ past) : Turn.asked ⟨key, y.1⟩ true ∈ script key past last :=
  List.mem_append_left _ (List.mem_flatMap.mpr ⟨y, h, List.mem_cons_self⟩)

theorem asked_last {key : Key} {past : List (Bytes × Response)} {last : Option (Bytes × Bool)}
    {y : Bytes × Bool} (h : y ∈ last) : Turn.asked ⟨key, y.1⟩ y.2 ∈ script key past last :=
  List.mem_append_right _ (List.mem_map.mpr ⟨y, Option.mem_toList.mpr h, rfl⟩)

/-- **Trust.** With `verify`, whatever the threads do, the peer of a connection on which anything was
written or read showed certificates that are good under the CA file and whose leaf is for the host that the
connection was opened to. All that was written there was performed for that target; and where those requests
can be said at all, the ones that the server behind it reads are those of calls to that host. -/
theorem requests_vouched {es : List ((ℕ × Action) × List Cert)} (hverify : options.verify = true)
    (h : run (vet ca options codec) {} es = some x) :
    run (talk codec) (init, fun _ => []) (es.map Prod.fst) = some (x.client, x.log) ∧
    ∀ c, x.log c ≠ [] → ∃ key, x.client.opened[c]? = some key ∧
      Vouched ca options.cafile key.1 (x.peers c) ∧
      (∀ job ok, Turn.asked job ok ∈ x.log c → job.key = key ∧ Performed (es.map Prod.fst) job) ∧
      ((∀ job ok, Turn.asked job ok ∈ x.log c → Asks job) →
        ∃ calls : List RequestCall,
          readRequests (written (x.log c)) = some (calls.map RequestCall.request) ∧
            ∀ call ∈ calls, call.host = key.1) := by
  have htalk : run (talk codec) (init, fun _ => []) (es.map Prod.fst) = some (x.client, x.log) :=
    run_map (P := fun _ => True) (f := fun x : Vetted Cert => (x.client, x.log)) (fun _ _ _ _ => trivial)
      (fun _ _ _ hs _ => talk_of_vet hs) h trivial
  refine ⟨htalk, fun c hc => ?_⟩
  have hpeers : PeersVouched ca options.cafile x :=
    run_invariant (fun _ _ _ hi hs => peersVouched_step hverify hi hs) (peersVouched_init _) h
  have hx : Conversing (Performed (es.map Prod.fst)) x.client x.log :=
    conversing_run (fun i _ hmem => ⟨i, hmem⟩) htalk
  have hlt : c < x.client.opened.length := not_le.mp fun hle => hc (hx.unopened c hle)
  have hkey := List.getElem?_eq_getElem hlt
  obtain ⟨last, ⟨past, hlog, hpast⟩, hlast⟩ := hx.told c _ hkey
  refine ⟨_, hkey, hpeers c _ hkey, fun job ok hmem => ?_, fun hasks => ?_⟩
  · rw [hlog] at hmem
    exact of_mem_script hpast hlast hmem
  · obtain ⟨past', last', ⟨-, hcalls, hlastCall, hreads⟩, rfl, rfl⟩ := serves_of_asks
      (fun y hy => hasks _ true (hlog ▸ asked_past hy)) fun y hy => hasks _ y.2 (hlog ▸ asked_last hy)
    refine ⟨past'.map Prod.fst ++ (last'.toList.filter Prod.snd).map Prod.fst, ?_, fun call hcall => ?_⟩
    · rw [hlog, hreads, requestsOf, List.map_append, List.map_map, List.map_map]
      rfl
    · rcases List.mem_append.mp hcall with hcall | hcall
      · obtain ⟨y, hy, rfl⟩ := List.mem_map.mp hcall
        exact (hcalls y hy).2
      · obtain ⟨y, hy, rfl⟩ := List.mem_map.mp hcall
        exact (hlastCall y (Option.mem_toList.mp (List.mem_filter.mp hy).1)).2

end

/-- Certificates that are just a name. -/
def byName : Authority Bytes Str where
  create := fun _ => true
  chain := fun _ certs => match certs with
    | [] => .error ⟨[], [], true⟩
    | leaf :: _ => .ok leaf
  getDER := some
  d2iX509 := fun der => some (latin1 der)
  checkHost := fun x509 host => if x509 = host then 1 else 0
  checkIpAsc := fun _ _ => 0

def shown : List ((ℕ × Action) × List Bytes) := reusing.map fun e => (e, [ascii "a.b"])

theorem requests_vouched_reusing : ∃ x, run (vet byName ⟨true, []⟩ noCodec) {} shown = some x ∧
    (x.log 0).length = 3 ∧ ∃ key, x.client.opened[0]? = some key ∧
      Vouched byName [] key.1 (x.peers 0) ∧ ∃ calls : List RequestCall,
        readRequests (written (x.log 0)) = some (calls.map RequestCall.request) ∧
          ∀ call ∈ calls, call.host = key.1 := by
  have h : (run (vet byName ⟨true, []⟩ noCodec) {} shown).map (fun x => (x.log 0).length) = some 3 := by
    decide +kernel
  have hasks : ∀ job, Performed (shown.map Prod.fst) job → Asks job := by
    rintro job ⟨i, hmem⟩
    obtain ⟨_, hshown, heq⟩ := List.mem_map.mp hmem
    obtain ⟨e, he, rfl⟩ := List.mem_map.mp hshown
    cases heq
    exact asks_of_reusing he
  obtain ⟨x, hx, hlen⟩ := Option.map_eq_some_iff.mp h
  have hlog : x.log 0 ≠ [] := by
    intro hnil
    rw [hnil] at hlen
    cases hlen
  obtain ⟨key, hkey, hvouched, hasked, hreads⟩ := (requests_vouched rfl hx).2 0 hlog
  exact ⟨x, hx, hlen, key, hkey, hvouched, hreads fun job ok hmem => hasks job (hasked job ok hmem).2⟩

end Client

end Fizzpy
