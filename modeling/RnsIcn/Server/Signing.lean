import RnsIcn.Server.Stable
import RnsIcn.Wire.Envelope

/-! # What a server signs

The Content Store keeps unsigned rows under the server's own address, and the
server signs such a row each time it serves it. It signs only what it created as
long as no Data from outside is stored that is unsigned and under its address.
-/

namespace RnsIcn

open Fallible

namespace Server

variable {s t : Server} {d : Data} {C : List (Name × Bytes)}

/-- Unsigned Data under the server's address has a name and content that it created. -/
def Own (s : Server) (n : Name) (content : Bytes) (signature : Option Bytes) : Prop :=
  (signature.filter fun sig => !sig.isEmpty) = none → n.rnsAddr = s.rnsAddr →
    (n.withoutContentHash, content) ∈ s.created

def RowOwn (s : Server) (row : Row) : Prop :=
  ∃ n : Name, n.Encodable ∧ n.contentHash = none ∧ row.nameBytes = n.encode ∧
    s.Own n row.contentBytes row.metadataJson.signature

/-- The rows that the server would sign, and the Data that it signed, are its own creations. -/
structure Sound (s : Server) : Prop where
  row : ∀ key row, s.forwarder.cs.content.get? key = some row → s.RowOwn row
  signed : ∀ d ∈ s.signed, (d.name.withoutContentHash, d.content) ∈ s.created

theorem Own.mono {n : Name} {content : Bytes} {signature : Option Bytes}
    (h : s.Own n content signature) (ha : t.rnsAddr = s.rnsAddr)
    (hc : ∀ x ∈ s.created, x ∈ t.created) : t.Own n content signature :=
  fun hs hn => hc _ (h hs (hn.trans ha))

theorem Own.of_parsed {b : Bytes} (hd : Data.fromBytes b = .ok d)
    (h : d.signature = none → d.name.rnsAddr = s.rnsAddr →
      (d.name.withoutContentHash, d.content) ∈ s.created) :
    s.Own d.name d.content d.signature := by
  intro hsig
  refine h ?_
  by_contra hne
  obtain ⟨sig, hs⟩ := Option.ne_none_iff_exists'.mp hne
  have hl := Data.fromBytes_signature hd hs
  cases sig with
  | nil => cases hl
  | cons x sig => simp [hs] at hsig

theorem Sound.mono (h : Sound s) (ha : t.rnsAddr = s.rnsAddr)
    (hrow : ContentStore.Sub t.forwarder.cs s.forwarder.cs) (hs : t.signed = s.signed)
    (hc : ∀ x ∈ s.created, x ∈ t.created) : Sound t where
  row key row hr := by
    obtain ⟨n, he, hp, hb, ho⟩ := h.row key row (hrow key row hr)
    exact ⟨n, he, hp, hb, ho.mono ha hc⟩
  signed d hd := hc _ (h.signed d (hs ▸ hd))

theorem Sound.frame (h : Sound s) (ha : t.rnsAddr = s.rnsAddr)
    (hcs : t.forwarder.cs = s.forwarder.cs) (hs : t.signed = s.signed)
    (hc : t.created = s.created) : Sound t :=
  h.mono ha (by rw [hcs]; exact ContentStore.sub_refl _) hs (by simp [hc])

variable [Hashlib]

theorem Sound.own (h : Sound s) (hd : s.forwarder.cs.Serves d) :
    s.Own d.name d.content d.signature := by
  obtain ⟨key, row, now, hr, -, hn, hd⟩ := hd
  obtain ⟨n, he, hp, hb, ho⟩ := h.row key row hr
  obtain rfl := Name.fromBytes_encode_eq he hp (hb ▸ hn)
  rw [hd]
  intro hsig haddr
  refine ho ?_ haddr
  simpa [ContentStore.rowData, ContentStore.parseSignature, Option.filter_filter] using hsig

theorem Sound.insert {n : Name} {now : ℕ} (h : Sound s)
    (ho : ∀ cs, s.forwarder.cs.insert n d now = .ok cs → s.Own n d.content d.signature) :
    Sound (s.withStore (s.forwarder.cs.apply (.insert n d now))) := by
  refine ⟨fun key row hr => ?_, h.signed⟩
  rcases ContentStore.get?_apply_insert hr with hr | ⟨he, -, ⟨ttl, rfl⟩, cs, hi⟩
  · exact h.row key row hr
  · exact ⟨n.withoutContentHash, he, rfl, rfl, ho cs hi⟩

theorem sound_stable : Stable Sound where
  frame s t hst h := by
    have hcs : t.forwarder.cs = s.forwarder.cs := congrArg (fun u => u.forwarder.cs) hst
    exact h.frame (congrArg (fun u => u.rnsAddr) hst) hcs (congrArg (fun u => u.signed) hst)
      (congrArg (fun u => u.created) hst)
  delete s op hop h := h.mono rfl (apply_sub _ hop) rfl fun _ hx => hx
  create s n content h :=
    h.mono rfl (ContentStore.sub_refl _) rfl fun _ hx => List.mem_cons_of_mem _ hx
  insert s n d now hc h := h.insert fun _ _ _ _ => hc
  sign s d d' hd hsig haddr hn hcontent h := by
    refine ⟨h.row, fun e he => ?_⟩
    rcases List.mem_cons.mp he with rfl | he
    · rw [hn, hcontent]
      rcases hd with hd | hd
      · exact h.own hd (by simp [hsig]) haddr
      · exact hd
    · exact h.signed e he
  openFace s h := h.frame rfl rfl rfl rfl
  closeFace s face h := h.frame rfl rfl rfl rfl

/-- No delivery stores Data under the server's address that is unsigned and that no local operation
created. -/
def Label.Genuine (s : Server) (l : Label) : Prop :=
  ∀ d cs, s.deliveredData l = some d →
    s.forwarder.cs.insert d.name d s.forwarder.time = .ok cs → d.signature = none →
    d.name.rnsAddr = s.rnsAddr → (d.name.withoutContentHash, d.content) ∈ s.created

theorem Label.Genuine.of_none {l : Label} (h : s.deliveredData l = none) : l.Genuine s :=
  fun d cs hd => by rw [h] at hd; cases hd

theorem step_sound {l : Label} (h : Sound s) (hl : l.Genuine s) (hs : s.step l = some t) :
    Sound t := by
  refine sound_stable.step h (fun d hd => h.insert fun cs hi => ?_)
    (fun v _ key _ _ => h.frame rfl rfl rfl rfl) hs
  obtain ⟨b, hb⟩ := fromBytes_of_deliveredData hd
  exact .of_parsed hb fun hsig haddr => hl d cs hd hi hsig haddr

/-- In every run whose deliveries are genuine the server signs nothing but what its own publish
operations created. -/
theorem signs_own_creations
    (h : Transition.Reachable Initial step (fun s l => Label.Genuine s l) t) :
    ∀ d ∈ t.signed, (d.name.withoutContentHash, d.content) ∈ t.created := by
  refine (h.invariant (I := Sound) (fun s hi => ⟨?_, ?_⟩) fun s l t hs hl hst =>
    step_sound hs hl hst).signed
  · intro key row hr
    rw [hi.content] at hr
    cases hr
  · intro d hd
    rw [hi.signed] at hd
    cases hd

end Server

namespace Server

def publisher : Server where
  rnsAddr := List.replicate 16 1
  signer := some fun _ => List.replicate 64 7

theorem publisher_initial : publisher.Initial :=
  ⟨⟨rfl, fun _ => rfl, rfl, rfl⟩, rfl, rfl, rfl, rfl, rfl, rfl⟩

def postName : Name := ⟨List.replicate 16 1, [[0x78]], none⟩

def wireBytes (p : Packet) : Bytes := p.toBytes.toOption.getD []

def postRequest : Bytes := wireBytes (.interest { name := postName, nonce := List.replicate 8 3 })

def drawn : Drawn := ⟨List.replicate 8 4, [], []⟩

def serverAfter (s : Server) (ls : List Label) : Server :=
  letI := Data.paddedHash
  (Transition.exec step s ls).getD s

def ownPost : List Label :=
  [.openFace, .publishContent postName [0x68, 0x69] false none none,
    .incoming 100 postRequest drawn]

theorem own_post_signed :
    letI := Data.paddedHash
    (serverAfter publisher ownPost).signed.length = 1 ∧
      ∀ d ∈ (serverAfter publisher ownPost).signed,
        (d.name.withoutContentHash, d.content) ∈ (serverAfter publisher ownPost).created :=
  letI := Data.paddedHash
  have hrun : Transition.Run step (fun s l => Label.Genuine s l) publisher ownPost
      (serverAfter publisher ownPost) :=
    .cons (.of_none rfl) (t := serverAfter publisher [.openFace]) rfl
      (.cons (.of_none rfl) (t := serverAfter publisher (ownPost.take 2)) rfl
        (.cons (.of_none rfl) rfl (.nil _)))
  ⟨rfl, signs_own_creations ⟨publisher, _, publisher_initial, hrun⟩⟩

/-- Unsigned Data under the address of the server, as anyone can make it. -/
def injected : Data where
  name := postName
  content := [0x62, 0x61, 0x64]

/-- A link that declares itself a peer has the server sign the content that it sends. -/
theorem peer_content_signed :
    letI := Data.paddedHash
    let ls : List Label :=
      [.openFace, .incoming 100 (wireBytes (.peer { rnsAddr := List.replicate 16 2 })) drawn,
        .incoming 100 (wireBytes (.data injected)) drawn, .incoming 100 postRequest drawn]
    Transition.Run step Transition.anyStep publisher ls (serverAfter publisher ls) ∧
      ∃ d ∈ (serverAfter publisher ls).signed, d.name = postName ∧
        d.content = [0x62, 0x61, 0x64] ∧ (serverAfter publisher ls).created = [] :=
  letI := Data.paddedHash
  ⟨Transition.run_of_exec rfl, _, List.mem_singleton.mpr rfl, rfl, rfl, rfl⟩

end Server

end RnsIcn
