import RnsIcn.Server.Access

/-! # Who reads restricted content

A consumer reads content under a restricted prefix with an unexpired capability that
was issued to it for exactly the prefix of the rule that the content was encrypted
under. Other capabilities make no difference, wherever they stand in its list.
-/

namespace RnsIcn

open Fallible

variable [Hashlib]

/-- The Data that `_maybe_decrypt` makes of the plaintext. -/
def Data.decrypted (d : Data) (plaintext : Bytes) : Data :=
  let out := Data.new d.name plaintext
  { out with metadata := { out.metadata with
      sequence := d.metadata.sequence
      freshness := d.metadata.freshness
      freshnessPeriod := d.metadata.freshnessPeriod
      signedAt := d.metadata.signedAt } }

namespace AccessController

/-- A capability that the producer has issued under its rules. -/
def Issued (C : AccessController) (signer : Bytes → Bytes) (c : Capability) : Prop :=
  ∃ scope consumer random ttlSeconds now,
    C.issueCapability scope consumer random signer ttlSeconds now = .ok c

/-- Ideal primitives, for the rules of the producer and the consumer with hash `me`: keys of
different prefixes differ, and only the right key or identity opens what was encrypted. A signature
of the producer verifies where its key is known. -/
structure Ideal (C : AccessController) (signer : Bytes → Bytes) (me : Bytes) (a : Access)
    (identities : Bytes → Option Validator) : Prop where
  keyed_length : ∀ key m, (C.primitives.keyed key m).length = CEK_BYTES
  keys : ∀ r ∈ C.rules, ∀ r' ∈ C.rules, ∀ cek,
    C.primitives.deriveCek C.privateKey r.scope = .ok cek →
    C.primitives.deriveCek C.privateKey r'.scope = .ok cek → r.scope = r'.scope
  token : ∀ key key' random m, key.length = CEK_BYTES → key'.length = CEK_BYTES →
    a.openToken key (C.primitives.sealToken key' random m) = if key = key' then some m else none
  wrap : ∀ recipient random m, recipient.length = RNS_ADDR_BYTES →
    a.unwrap (C.primitives.encryptTo recipient random m) = if recipient = me then some m else none
  signature : ∀ validate h, identities C.producerAddr = some validate →
    validate (signer h) h = true

/-- What issuing writes into a capability. -/
structure Holds (C : AccessController) (signer : Bytes → Bytes) (c : Capability) : Prop where
  rule : ∃ r ∈ C.rules, r.scope = c.scope
  producer : c.producer = C.producerAddr
  cek : ∃ cek random, C.primitives.deriveCek C.privateKey c.scope = .ok cek ∧
    c.wrappedCek = C.primitives.encryptTo c.consumer random cek
  signature : c.signature = some (signer (blake2b c.signedBytes))

variable {C : AccessController} {signer : Bytes → Bytes} {c : Capability} {me : Bytes} {a : Access}
  {identities : Bytes → Option Validator} {rule : AccessRule} {cek : Bytes} {d : Data} {now : ℕ}

theorem holds_of_issued (h : C.Issued signer c) : C.Holds signer c := by
  obtain ⟨scope, consumer, random, ttlSeconds, now, h⟩ := h
  rw [issueCapability] at h
  split at h
  · cases h
  · rename_i r hfind
    rw [ite_error_eq_ok] at h
    obtain ⟨-, h⟩ := h
    simp only [Capability.create, bind_eq_ok] at h
    obtain ⟨cek, hcek, wrapped, hwrapped, c', hnew, h⟩ := h
    obtain ⟨hproducer, hconsumer, hscope, hcekBytes, -, -, -⟩ := Capability.new_eq_ok hnew
    obtain ⟨-, hseal⟩ := ite_error_eq_ok.mp hwrapped
    obtain rfl := Except.ok.inj hseal
    obtain ⟨-, hsign⟩ := ite_error_eq_ok.mp h
    obtain rfl := Except.ok.inj hsign
    have hmem := List.mem_of_find?_eq_some hfind
    have hr : r.scope = scope := by simpa using List.find?_some hfind
    exact ⟨⟨r, hmem, hr.trans hscope.symm⟩, hproducer,
      ⟨cek, random, hscope ▸ hcek, hcekBytes.trans (by rw [hconsumer])⟩, rfl⟩

omit [Hashlib] in
theorem Ideal.cek_length (h : C.Ideal signer me a identities) {scope : Name}
    (hcek : C.primitives.deriveCek C.privateKey scope = .ok cek) : cek.length = CEK_BYTES := by
  rw [Primitives.deriveCek] at hcek
  split at hcek
  · exact absurd hcek throw_bind_ne_ok
  · simp only [bind_eq_ok, pure_eq_ok] at hcek
    obtain ⟨-, -, m, -, rfl⟩ := hcek
    exact h.keyed_length _ _

/-- The capability opens what was encrypted under a prefix for the consumer. -/
structure Opens (me : Bytes) (now : ℕ) (scope : Name) (c : Capability) : Prop where
  consumer : c.consumer = me
  unexpired : c.isExpired now = false
  scope : c.scope = scope

instance (me : Bytes) (now : ℕ) (scope : Name) (c : Capability) :
    Decidable (Opens me now scope c) :=
  decidable_of_iff (c.consumer = me ∧ c.isExpired now = false ∧ c.scope = scope)
    ⟨fun h => ⟨h.1, h.2.1, h.2.2⟩, fun h => ⟨h.consumer, h.unexpired, h.scope⟩⟩

theorem plaintext_of_holds (hideal : C.Ideal signer me a identities) (hc : C.Holds signer c)
    (hrule : rule ∈ C.rules) (hn : d.name.startsWith rule.scope = true)
    (hcek : C.primitives.deriveCek C.privateKey rule.scope = .ok cek) {random plaintext : Bytes}
    (hd : d.content = C.primitives.sealToken cek random plaintext) :
    a.plaintext identities now d c =
      if Opens me now rule.scope c then some plaintext else none := by
  obtain ⟨r, hr, hscope⟩ := hc.rule
  obtain ⟨cek', random', hcek', hwrapped⟩ := hc.cek
  have hlen := hideal.cek_length hcek
  have hlen' := hideal.cek_length hcek'
  have hsame : cek' = cek ↔ c.scope = rule.scope := by
    constructor
    · rintro rfl
      exact hscope.symm.trans (hideal.keys r hr rule hrule cek' (hscope ▸ hcek') hcek)
    · intro he
      rw [he, hcek] at hcek'
      exact (Except.ok.inj hcek').symm
  have hvalid :
      ((identities c.producer).any fun validate => !c.verifySignature validate) = false := by
    rw [hc.producer]
    cases hid : identities C.producerAddr with
    | none => rfl
    | some validate =>
      simp [Capability.verifySignature, hc.signature, hideal.signature validate _ hid]
  have hunwrap : a.unwrapCek c.wrappedCek = if c.consumer = me then some cek' else none := by
    rw [Access.unwrapCek, hwrapped, hideal.wrap _ _ _ c.consumer_length]
    split <;> simp [hlen']
  have hopen : a.decryptContent d.content cek' =
      if c.scope = rule.scope then some plaintext else none := by
    rw [Access.decryptContent, if_neg (not_not.mpr hlen'), hd,
      hideal.token _ _ _ _ hlen' hlen]
    simp only [hsame]
  rw [Access.plaintext, hvalid, hunwrap]
  by_cases hcover : c.covers d.name now = true
  · have hlive : c.isExpired now = false := by
      simpa using (Bool.and_eq_true_iff.mp hcover).2
    rw [if_neg (by simp [hcover]), if_neg (by simp)]
    by_cases hconsumer : c.consumer = me
    · rw [if_pos hconsumer, Option.bind_some, hopen]
      exact if_congr ⟨fun h => ⟨hconsumer, hlive, h⟩, fun h => h.scope⟩ rfl rfl
    · rw [if_neg hconsumer, Option.bind_none, if_neg fun h => hconsumer h.consumer]
  · rw [if_pos (by simpa using hcover), if_neg]
    rintro ⟨-, hlive, hscope⟩
    exact hcover (by simp [Capability.covers, hscope, hn, hlive])

omit [Hashlib] in
/-- A search for a value that only some elements yield finds it when one of these is in the list. -/
theorem findSome?_eq_ite {α β : Type} {l : List α} {f : α → Option β} {P : α → Prop}
    [DecidablePred P] {x : β} (h : ∀ y ∈ l, f y = if P y then some x else none) :
    l.findSome? f = if ∃ y ∈ l, P y then some x else none := by
  induction l with
  | nil => simp
  | cons y l ih =>
    have htail := ih fun z hz => h z (List.mem_cons_of_mem _ hz)
    rw [List.findSome?_cons, h y List.mem_cons_self, htail]
    by_cases hy : P y <;> simp [hy]

omit [Hashlib] in
theorem rnsAddr_of_startsWith {n scope : Name} (h : n.startsWith scope = true) :
    n.rnsAddr = scope.rnsAddr := by
  rw [Name.startsWith] at h
  split at h
  · cases h
  · simp only [Name.components, List.zip_cons_cons, List.all_cons, Bool.and_eq_true,
      beq_iff_eq] at h
    exact h.1

omit [Hashlib] in
/-- A capability that opens the content is kept under the producer of the name. -/
theorem producer_of_opens (hn : d.name.startsWith rule.scope = true)
    (hopens : Opens me now rule.scope c) : c.producer = d.name.rnsAddr := by
  rw [rnsAddr_of_startsWith hn, ← hopens.scope, c.scope_addr]

/-- What a client makes of restricted content, with the capabilities that it holds. -/
theorem maybeDecrypt_of_restricted (now : ℕ) (hideal : C.Ideal signer me a identities)
    (hissued : ∀ c ∈ a.capabilities, C.Issued signer c) (hrule : rule ∈ C.rules)
    (hn : d.name.startsWith rule.scope = true)
    (hcek : C.primitives.deriveCek C.privateKey rule.scope = .ok cek) {random plaintext : Bytes}
    (hd : d.content = C.primitives.sealToken cek random plaintext)
    (henc : d.metadata.encrypted = true) :
    a.maybeDecrypt identities now d =
      if ∃ c ∈ a.capabilities, Opens me now rule.scope c then d.decrypted plaintext else d := by
  have hsearch : (a.capabilities.filter (·.producer = d.name.rnsAddr)).findSome?
      (a.plaintext identities now d) =
        if ∃ c ∈ a.capabilities, Opens me now rule.scope c then some plaintext else none := by
    have hkept : (∃ c ∈ a.capabilities.filter (·.producer = d.name.rnsAddr),
        Opens me now rule.scope c) ↔ ∃ c ∈ a.capabilities, Opens me now rule.scope c := by
      constructor
      · rintro ⟨c, hc, hopens⟩
        exact ⟨c, List.mem_of_mem_filter hc, hopens⟩
      · rintro ⟨c, hc, hopens⟩
        exact ⟨c, List.mem_filter.mpr ⟨hc, by simpa using producer_of_opens hn hopens⟩, hopens⟩
    simp only [← hkept]
    exact findSome?_eq_ite fun c hc => plaintext_of_holds hideal
      (holds_of_issued (hissued c (List.mem_of_mem_filter hc))) hrule hn hcek hd
  rw [Access.maybeDecrypt, henc, hsearch, if_neg (by decide)]
  by_cases hopens : ∃ c ∈ a.capabilities, Opens me now rule.scope c
  · rw [if_pos hopens, if_pos hopens]
    rfl
  · rw [if_neg hopens, if_neg hopens]

/-- The name is public, or one of the capabilities opens what is encrypted under its rule. -/
def Readable (C : AccessController) (me : Bytes) (now : ℕ) (n : Name) (caps : List Capability) :
    Prop :=
  C.matchingRule n = none ∨
    ∃ rule, C.matchingRule n = some rule ∧ ∃ c ∈ caps, Opens me now rule.scope c

/-- What a client makes of published content is the plaintext where it is readable. Elsewhere it is
the Data as it was published. -/
theorem maybeDecrypt_of_published (now : ℕ) {random plaintext : Bytes}
    (hideal : C.Ideal signer me a identities) (hissued : ∀ c ∈ a.capabilities, C.Issued signer c)
    (hd : C.encryptContent random d.name plaintext = .ok (d.content, d.metadata.encrypted)) :
    (C.Readable me now d.name a.capabilities →
      a.maybeDecrypt identities now d =
        if d.metadata.encrypted then d.decrypted plaintext else d) ∧
    (¬ C.Readable me now d.name a.capabilities → a.maybeDecrypt identities now d = d) ∧
    (d.metadata.encrypted = true ↔ ∃ rule, C.matchingRule d.name = some rule) ∧
    (d.metadata.encrypted = false → d.content = plaintext) := by
  have hfound := C.found_matchingRule d.name
  rw [encryptContent] at hd
  cases hmatch : C.matchingRule d.name with
  | none =>
    rw [hmatch] at hd
    obtain ⟨hcontent, henc⟩ := Prod.mk.inj (Except.ok.inj hd)
    have hsame : a.maybeDecrypt identities now d = d := by
      rw [Access.maybeDecrypt, ← henc, if_pos (by decide)]
    exact ⟨fun _ => by rw [hsame, ← henc, if_neg (by decide)], fun _ => hsame,
      ⟨fun h => absurd (henc.trans h) (by decide), by rintro ⟨_, ⟨⟩⟩⟩, fun _ => hcontent.symm⟩
  | some rule =>
    rw [hmatch] at hd hfound
    simp only [bind_eq_ok, pure_eq_ok] at hd
    obtain ⟨cek, hcek, content, hseal, hpair⟩ := hd
    obtain ⟨rfl, henc⟩ := Prod.mk.inj hpair
    obtain ⟨-, hcontent⟩ := ite_error_eq_ok.mp hseal
    have hread := maybeDecrypt_of_restricted now hideal hissued hfound.mem
      hfound.matches_scope hcek (Except.ok.inj hcontent).symm henc.symm
    have hiff : C.Readable me now d.name a.capabilities ↔
        ∃ c ∈ a.capabilities, Opens me now rule.scope c := by
      simp [Readable, hmatch]
    refine ⟨fun h => ?_, fun h => ?_, ⟨fun _ => ⟨rule, rfl⟩, fun _ => henc.symm⟩, ?_⟩
    · rw [hread, if_pos (hiff.mp h), ← henc, if_pos rfl]
    · rw [hread, if_neg (mt hiff.mpr h)]
    · exact fun h => absurd (henc.trans h) (by decide)

/-- A client reads the plaintext of what was published exactly when the name is public or it holds
an unexpired capability that was issued to it for the prefix of the longest rule. Otherwise the Data
stays as it is. Nothing else about its capabilities matters. -/
theorem decrypts_iff {random plaintext : Bytes} (hideal : C.Ideal signer me a identities)
    (hissued : ∀ c ∈ a.capabilities, C.Issued signer c)
    (hd : C.encryptContent random d.name plaintext = .ok (d.content, d.metadata.encrypted)) :
    ((a.maybeDecrypt identities now d).content = plaintext ∧
        (a.maybeDecrypt identities now d).metadata.encrypted = false ↔
      C.Readable me now d.name a.capabilities) ∧
    (¬ C.Readable me now d.name a.capabilities → a.maybeDecrypt identities now d = d) ∧
    ∀ caps, (∀ c ∈ caps, C.Issued signer c) →
      (C.Readable me now d.name caps ↔ C.Readable me now d.name a.capabilities) →
      Access.maybeDecrypt { a with capabilities := caps } identities now d =
        a.maybeDecrypt identities now d := by
  obtain ⟨hread, hkeep, hrule, hplain⟩ :=
    maybeDecrypt_of_published now hideal hissued hd
  refine ⟨⟨fun ⟨_, hopen⟩ => ?_, fun h => ?_⟩, hkeep, fun caps hcaps hsame => ?_⟩
  · by_contra hno
    rw [hkeep hno] at hopen
    cases hmatch : C.matchingRule d.name with
    | none => exact hno (.inl hmatch)
    | some rule => exact absurd (hrule.mpr ⟨rule, hmatch⟩) (by simp [hopen])
  · rw [hread h]
    cases henc : d.metadata.encrypted with
    | true => exact ⟨rfl, rfl⟩
    | false => exact ⟨hplain henc, henc⟩
  · have hideal' : C.Ideal signer me { a with capabilities := caps } identities :=
      ⟨hideal.keyed_length, hideal.keys, hideal.token, hideal.wrap, hideal.signature⟩
    obtain ⟨hread', hkeep', -⟩ := maybeDecrypt_of_published now hideal' hcaps hd
    by_cases h : C.Readable me now d.name a.capabilities
    · rw [hread h]
      exact hread' (hsame.mpr h)
    · rw [hkeep h]
      exact hkeep' (mt hsame.mp h)

end AccessController

section Archive

def reader : Bytes := List.replicate 16 0x0C

def archive (path : List Bytes) : Name := ⟨List.replicate 16 0x0A, path, none⟩

def archivePrimitives : Primitives where
  blake2b64 := id
  keyed _ m := List.replicate 32 (UInt8.ofNat m.length)
  sealToken key _ m := key ++ m
  encryptTo recipient _ m := recipient ++ m

def archiveController : AccessController where
  primitives := archivePrimitives
  privateKey := [0x01]
  producerAddr := List.replicate 16 0x0A
  rules := [⟨archive [[0x73]], {reader}⟩, ⟨archive [[0x73], [0x74]], {reader}⟩]

def readerAccess (capabilities : List Capability) : Access where
  capabilities := capabilities
  unwrap b := if b.take 16 = reader then some (b.drop 16) else none
  openToken key b := if b.take 32 = key then some (b.drop 32) else none

def archiveSigner : Bytes → Bytes := fun _ => List.replicate 64 0x00

omit [Hashlib] in
theorem archive_ideal (capabilities : List Capability) :
    archiveController.Ideal archiveSigner reader (readerAccess capabilities)
      fun _ => some fun _ _ => true := by
  refine ⟨fun _ _ => List.length_replicate, ?_, ?_, ?_, fun _ _ h => ?_⟩
  · intro r hr r' hr' cek h h'
    have hshort : archivePrimitives.deriveCek [0x01] (archive [[0x73]]) =
        .ok (List.replicate 32 36) := rfl
    have hlong : archivePrimitives.deriveCek [0x01] (archive [[0x73], [0x74]]) =
        .ok (List.replicate 32 38) := rfl
    simp only [archiveController, List.mem_cons, List.not_mem_nil, or_false] at hr hr'
    rcases hr with rfl | rfl <;> rcases hr' with rfl | rfl
    · rfl
    · exact absurd (Except.ok.inj (hshort.symm.trans (h.trans (h'.symm.trans hlong)))) (by decide)
    · exact absurd (Except.ok.inj (hshort.symm.trans (h'.trans (h.symm.trans hlong)))) (by decide)
    · rfl
  · intro key key' random m hkey hkey'
    have hwidth : key'.length = 32 := hkey'
    change (if (key' ++ m).take 32 = key then some ((key' ++ m).drop 32) else none) = _
    rw [List.take_left' hwidth, List.drop_left' hwidth]
    exact if_congr eq_comm rfl rfl
  · intro recipient random m hlen
    have hwidth : recipient.length = 16 := hlen
    change (if (recipient ++ m).take 16 = reader then some ((recipient ++ m).drop 16) else none) = _
    rw [List.take_left' hwidth, List.drop_left' hwidth]
  · obtain rfl := Option.some.inj h
    rfl

def record : Data where
  name := archive [[0x73], [0x74], [0x75]]
  content := List.replicate 32 38 ++ [0x07]
  metadata := { encrypted := true }

def readerCapability (path : List Bytes) : Except PyError Capability :=
  archiveController.issueCapability (archive path) reader [] archiveSigner 0 5

omit [Hashlib] in
theorem record_decrypted :
    letI : Hashlib := ⟨fun _ => []⟩
    ∃ c c', readerCapability [[0x73]] = .ok c ∧ readerCapability [[0x73], [0x74]] = .ok c' ∧
      ((readerAccess [c, c']).maybeDecrypt (fun _ => some fun _ _ => true) 9 record).content =
        [0x07] := by
  let _ : Hashlib := ⟨fun _ => []⟩
  obtain ⟨c, hc⟩ : ∃ c, readerCapability [[0x73]] = .ok c := ⟨_, rfl⟩
  obtain ⟨c', hc', hconsumer, hlive, hscope⟩ : ∃ c', readerCapability [[0x73], [0x74]] = .ok c' ∧
      c'.consumer = reader ∧ c'.isExpired 9 = false ∧ c'.scope = archive [[0x73], [0x74]] :=
    ⟨_, rfl, rfl, rfl, rfl⟩
  have hissued : ∀ x ∈ (readerAccess [c, c']).capabilities,
      archiveController.Issued archiveSigner x := by
    intro x hx
    simp only [readerAccess, List.mem_cons, List.not_mem_nil, or_false] at hx
    rcases hx with rfl | rfl
    · exact ⟨_, _, _, _, _, hc⟩
    · exact ⟨_, _, _, _, _, hc'⟩
  have hpublished : archiveController.encryptContent [] record.name [0x07] =
      .ok (record.content, record.metadata.encrypted) := rfl
  have hreadable : archiveController.Readable reader 9 record.name
      (readerAccess [c, c']).capabilities :=
    .inr ⟨_, rfl, c', by simp [readerAccess], hconsumer, hlive, hscope⟩
  exact ⟨c, c', hc, hc',
    ((AccessController.decrypts_iff (archive_ideal _) hissued hpublished).1.mpr hreadable).1⟩

end Archive

end RnsIcn
