import RnsIcn.Server.Resource
import RnsIcn.Wire.RoundTrip

/-! # What a server passes on

Data from a peer is stored and handed to all other peers, each time it comes.
Whether a server can store Data does not depend on what it has stored before, so it
takes in every copy or none.
-/

namespace RnsIcn

open Effect Fallible

namespace Forwarder

variable {s : Forwarder} {d : Data}

variable [Hashlib]

theorem receiveData_settings (s : Forwarder) (d : Data) (face : FaceId) (cacheUnsolicited : Bool) :
    (s.receiveData d face cacheUnsolicited).time = s.time ∧
      (s.receiveData d face cacheUnsolicited).cs.defaultTtl = s.cs.defaultTtl ∧
      (s.receiveData d face cacheUnsolicited).cs.prefixTtls = s.cs.prefixTtls := by
  have hcache (u : Forwarder) (n : Name) : (u.cacheAnswer d n).time = u.time ∧
      (u.cacheAnswer d n).cs.defaultTtl = u.cs.defaultTtl ∧
      (u.cacheAnswer d n).cs.prefixTtls = u.cs.prefixTtls := by
    rw [cacheAnswer]
    cases hi : u.cs.insert d.name d u.time with
    | error e => exact ⟨rfl, rfl, rfl⟩
    | ok cs => exact ⟨rfl, ContentStore.insert_ttls hi⟩
  rw [receiveData]
  dsimp only
  split
  · exact ⟨rfl, rfl, rfl⟩
  · exact hcache _ _
  · split
    · exact hcache _ _
    · exact ⟨rfl, rfl, rfl⟩

theorem receiveOutcome_eq_ok (hd : d.name.rnsAddr.length = RNS_ADDR_BYTES) :
    s.receiveOutcome d true = .ok () ↔ ∃ cs, s.cs.insert d.name d s.time = .ok cs := by
  obtain ⟨m, hm⟩ := answeredName_isOk s.pit (n := d.name.withoutContentHash) hd
  have hdiscard : discard (s.cs.insert d.name d s.time) = .ok () ↔
      ∃ cs, s.cs.insert d.name d s.time = .ok cs := by
    cases s.cs.insert d.name d s.time with
    | error e => exact ⟨nofun, nofun⟩
    | ok cs => exact ⟨fun _ => ⟨cs, rfl⟩, fun _ => rfl⟩
  rw [receiveOutcome, hm]
  cases m <;> exact hdiscard

end Forwarder

theorem ContentStore.insert_onWire [Hashlib] (s : ContentStore) (n : Name) (d : Data) (now : ℕ) :
    s.insert n d.onWire now = s.insert n d now := by
  have hrow (nameBytes : Bytes) (ttl : Option ℕ) :
      makeRow nameBytes d.onWire now ttl = makeRow nameBytes d now ttl := by
    obtain ⟨name, content, signature, contentHash, sequence, ⟨fresh, ageSeconds⟩,
      freshnessPeriod, signedAt, encrypted⟩ := d
    cases fresh <;> rfl
  simp only [insert, hrow]

namespace Server

variable {s t : Server} {d : Data} {raw : Bytes} {face : FaceId}

/-- The servers have the same links and peers, the same clock and the same lifetimes. -/
structure SameSetup (s t : Server) : Prop where
  peers : t.peers = s.peers
  faces : t.faces = s.faces
  time : t.forwarder.time = s.forwarder.time
  defaultTtl : t.forwarder.cs.defaultTtl = s.forwarder.cs.defaultTtl
  prefixTtls : t.forwarder.cs.prefixTtls = s.forwarder.cs.prefixTtls

/-- How often the bytes were handed to a face. -/
def timesSent (s : Server) (face : FaceId) (raw : Bytes) : ℕ :=
  s.sent.countP fun x => x.1 == face && x.2.toBytes.toOption == some raw

theorem SameSetup.refl (s : Server) : SameSetup s s := ⟨rfl, rfl, rfl, rfl, rfl⟩

theorem SameSetup.symm (h : SameSetup s t) : SameSetup t s :=
  ⟨h.peers.symm, h.faces.symm, h.time.symm, h.defaultTtl.symm, h.prefixTtls.symm⟩

theorem SameSetup.trans {u : Server} (h : SameSetup s t) (h' : SameSetup t u) : SameSetup s u :=
  ⟨h'.peers.trans h.peers, h'.faces.trans h.faces, h'.time.trans h.time,
    h'.defaultTtl.trans h.defaultTtl, h'.prefixTtls.trans h.prefixTtls⟩

theorem sameSetup_sendAll (s : Server) (p : Packet) (faces : List FaceId) :
    SameSetup s (s.sendAll p faces) := ⟨rfl, rfl, rfl, rfl, rfl⟩

/-- From `s` to `t` the bytes were handed `count face` times to each face, and nothing else was
sent. -/
def Sends (s t : Server) (raw : Bytes) (count : FaceId → ℕ) : Prop :=
  ∃ new, t.sent = new ++ s.sent ∧ (∀ x ∈ new, x.2.toBytes = .ok raw) ∧
    ∀ face, new.countP (·.1 == face) = count face

theorem Sends.of_sent_eq (h : t.sent = s.sent) (raw : Bytes) : Sends s t raw fun _ => 0 :=
  ⟨[], h, List.forall_mem_nil _, fun _ => rfl⟩

theorem Sends.trans {u : Server} {m n : FaceId → ℕ} (h : Sends s t raw m) (h' : Sends t u raw n) :
    Sends s u raw fun face => m face + n face := by
  obtain ⟨new, hs, hb, hc⟩ := h
  obtain ⟨new', hs', hb', hc'⟩ := h'
  refine ⟨new' ++ new, by rw [hs', hs, List.append_assoc], fun x hx => ?_, fun face => ?_⟩
  · exact (List.mem_append.mp hx).elim (hb' x) (hb x)
  · rw [List.countP_append, hc, hc', Nat.add_comm]

theorem Sends.timesSent {count : FaceId → ℕ} (h : Sends s t raw count) (face : FaceId) :
    t.timesSent face raw = s.timesSent face raw + count face := by
  obtain ⟨new, hs, hb, hc⟩ := h
  have hnew : new.countP (fun x => x.1 == face && x.2.toBytes.toOption == some raw) =
      new.countP (·.1 == face) := by
    refine List.countP_congr fun x hx => ?_
    simp [hb x hx]
  rw [Server.timesSent, Server.timesSent, hs, List.countP_append, hnew, hc, Nat.add_comm]

theorem Sends.timesSent_ne {count : FaceId → ℕ} {other : Bytes} (h : Sends s t raw count)
    (hne : other ≠ raw) (face : FaceId) : t.timesSent face other = s.timesSent face other := by
  obtain ⟨new, hs, hb, -⟩ := h
  rw [Server.timesSent, Server.timesSent, hs, List.countP_append, List.countP_eq_zero.mpr,
    Nat.zero_add]
  intro x hx
  simp [hb x hx, hne.symm]

theorem sends_sendAll {p : Packet} {faces : List FaceId} (hp : p.toBytes = .ok raw)
    (hn : faces.Nodup) (ht : t.sent = (s.sendAll p faces).sent) :
    Sends s t raw fun face => if face ∈ faces ∧ face ∈ s.faces then 1 else 0 := by
  refine ⟨_, ht, fun x hx => ?_, fun face => ?_⟩
  · obtain ⟨other, -, rfl⟩ := List.mem_map.mp (List.mem_reverse.mp hx)
    exact hp
  · have hfun : ((fun x : FaceId × Packet => x.1 == face) ∘ fun other => (other, p)) =
        fun other => other == face := rfl
    rw [List.countP_reverse, List.countP_map, hfun, ← List.count, (hn.filter _).count]
    simp

theorem propagationFaces_nodup (s : Server) (excludeFace : Option FaceId) :
    (s.propagationFaces excludeFace).Nodup := s.peers.nodup.filter _

theorem subscriberFaces_nodup (s : Server) (n : Name) : (s.subscriberFaces n).Nodup :=
  List.nodup_dedup _

variable [Hashlib]

def Takes (raw : Bytes) (s : Server) : Prop :=
  ∃ d, Data.fromBytes raw = .ok d ∧ ∃ cs, s.forwarder.cs.insert d.name d s.forwarder.time = .ok cs

theorem SameSetup.insert_isOk {n : Name} (h : SameSetup s t)
    (hi : ∃ cs, s.forwarder.cs.insert n d s.forwarder.time = .ok cs) :
    ∃ cs, t.forwarder.cs.insert n d t.forwarder.time = .ok cs := by
  rw [h.time]
  exact ContentStore.insert_isOk h.defaultTtl h.prefixTtls hi

theorem SameSetup.takes (h : SameSetup s t) : t.Takes raw ↔ s.Takes raw := by
  constructor
  · rintro ⟨d, hd, hi⟩
    exact ⟨d, hd, h.symm.insert_isOk hi⟩
  · rintro ⟨d, hd, hi⟩
    exact ⟨d, hd, h.insert_isOk hi⟩

theorem sameSetup_receiveData (s : Server) (d : Data) (face : FaceId) (cacheUnsolicited : Bool) :
    SameSetup s { s with forwarder := s.forwarder.receiveData d face cacheUnsolicited } :=
  have h := Forwarder.receiveData_settings s.forwarder d face cacheUnsolicited
  ⟨rfl, rfl, h.1, h.2.1, h.2.2⟩

omit [Hashlib] in
/-- The bytes begin like Data, and what they are read as has the same bytes. -/
structure IsData (raw : Bytes) : Prop where
  parse : ∀ e, Data.fromBytes raw = .error e → ∃ e', parsePacket raw = .error e'
  same : ∀ d, Data.fromBytes raw = .ok d → d.toBytes = .ok raw
  addr : ∀ d, Data.fromBytes raw = .ok d → d.name.rnsAddr.length = RNS_ADDR_BYTES

omit [Hashlib] in
theorem isData_of_toBytes (hd : d.FixedWidths) (hb : d.toBytes = .ok raw) : IsData raw where
  parse e he := by
    simp only [← Data.toBytesWith_zero, Data.toBytesWith, header, bind_eq_ok, pure_eq_ok] at hb
    obtain ⟨_, ⟨nameBytes, -, nameLen, -, rfl⟩, _, -, _, -, rfl⟩ := hb
    exact ⟨e, congrArg (Packet.data <$> ·) he⟩
  same d' h := by rw [Data.eq_onWire_of_fromBytes hd hb h, Data.toBytes_onWire, hb]
  addr d' h := by
    rw [Data.eq_onWire_of_fromBytes hd hb h]
    exact hd.addr

/-- A server that takes the bytes hands them to its other peers, any other hands on nothing. -/
theorem after_copy (drawn : Drawn) (h : IsData raw) (hp : s.peers.contains face = true) :
    SameSetup s (after (handleIncoming face raw drawn) s) ∧
      (¬ s.Takes raw → Sends s (after (handleIncoming face raw drawn) s) raw fun _ => 0) ∧
      (s.Takes raw → Sends s (after (handleIncoming face raw drawn) s) raw fun other =>
        if other ∈ s.propagationFaces (some face) ∧ other ∈ s.faces then 1 else 0) := by
  cases hd : Data.fromBytes raw with
  | error e =>
    obtain ⟨e', he'⟩ := h.parse e hd
    have hs : after (handleIncoming face raw drawn) s = s := by
      rw [after, handleIncoming, he']
      rfl
    rw [hs]
    refine ⟨.refl s, fun _ => .of_sent_eq rfl raw, ?_⟩
    rintro ⟨d, hd', -⟩
    rw [hd] at hd'
    cases hd'
  | ok d =>
    have hb := h.same d hd
    have hset := sameSetup_receiveData s d face true
    have htakes : s.Takes raw ↔ s.forwarder.receiveOutcome d true = .ok () := by
      rw [Forwarder.receiveOutcome_eq_ok (h.addr d hd)]
      constructor
      · rintro ⟨d', hd', hi⟩
        obtain rfl := ok_inj hd hd'
        exact hi
      · exact fun hi => ⟨d, hd, hi⟩
    rw [after_handlePeerData hd hb hp, htakes]
    cases s.forwarder.receiveOutcome d true with
    | error e =>
      refine ⟨hset, fun _ => .of_sent_eq rfl raw, ?_⟩
      rintro ⟨⟩
    | ok u =>
      exact ⟨hset.trans (sameSetup_sendAll _ _ _), fun hne => absurd rfl hne,
        fun _ => sends_sendAll (p := .data d) hb (propagationFaces_nodup s _) rfl⟩

/-- `publish_pushed` up to the insertion. -/
def signAndStore (d : Data) : Handler Data := do
  create d.name d.content
  let d ← maybeSign d
  csInsert d.name d
  return d

theorem publishPushed_eq (d : Data) :
    publishPushed d = signAndStore d >>= fun d => apsPublish d >>= fun _ => propagate d := by
  simp [publishPushed, signAndStore]

/-- The Data that `publish_pushed` hands to its subscribers and peers. -/
def published (s : Server) (d : Data) : Except PyError Data := (exec (signAndStore d) s).1

omit [Hashlib] in
structure Unsent (s t : Server) : Prop extends SameSetup s t where
  sent : t.sent = s.sent
  subscriptions : t.subscriptions = s.subscriptions

theorem maybeSign_unsent (d : Data) :
    Triple (Unsent s) (maybeSign d)
      (fun d' t => Unsent s t ∧ d'.name = d.name ∧ (d.FixedWidths → d'.FixedWidths))
      (Unsent s) := by
  refine Triple.bind_get fun u hu => ?_
  split
  · exact Triple.pure fun t ht => by subst ht; exact ⟨hu, rfl, id⟩
  · split
    · refine Triple.bind (Q := fun d' t => t = u ∧ d'.name = d.name ∧
        (d.FixedWidths → d'.FixedWidths)) ?_ fun d' => ?_
      · refine Triple.ofExcept (fun d' t hd ht => ⟨ht, ?_⟩) fun t ht => by subst ht; exact hu
        obtain ⟨sig, hsig, rfl⟩ := Data.sign_eq_ok hd
        refine ⟨rfl, fun hw => ⟨hw.addr, hw.pin, hw.contentHash, ?_⟩⟩
        rintro _ ⟨⟩
        exact hsig
      · refine Triple.bind (Q := fun _ t => Unsent s t ∧ d'.name = d.name ∧
          (d.FixedWidths → d'.FixedWidths)) ?_ fun _ => Triple.pure fun _ h => h
        refine Triple.modify fun t ht => ?_
        obtain ⟨rfl, hn, hw⟩ := ht
        exact ⟨⟨⟨hu.peers, hu.faces, hu.time, hu.defaultTtl, hu.prefixTtls⟩, hu.sent,
          hu.subscriptions⟩, hn, hw⟩
    · exact Triple.pure fun t ht => by subst ht; exact ⟨hu, rfl, id⟩

theorem csInsert_unsent (n : Name) (d : Data) :
    Triple (Unsent s) (csInsert n d)
      (fun _ t => Unsent s t ∧ ∃ cs, s.forwarder.cs.insert n d s.forwarder.time = .ok cs)
      (Unsent s) := by
  intro u hu
  rw [exec_csInsert, ContentStore.apply]
  cases hi : u.forwarder.cs.insert n d u.forwarder.time with
  | error e => exact hu
  | ok cs =>
    obtain ⟨hdefault, hprefix⟩ := ContentStore.insert_ttls hi
    exact ⟨⟨⟨hu.peers, hu.faces, hu.time, hdefault.trans hu.defaultTtl,
      hprefix.trans hu.prefixTtls⟩, hu.sent, hu.subscriptions⟩,
      hu.toSameSetup.symm.insert_isOk ⟨cs, hi⟩⟩

theorem signAndStore_unsent (d : Data) :
    Triple (Unsent s) (signAndStore d)
      (fun d' t => Unsent s t ∧ d'.name = d.name ∧ (d.FixedWidths → d'.FixedWidths) ∧
        ∃ cs, s.forwarder.cs.insert d'.name d' s.forwarder.time = .ok cs)
      (Unsent s) := by
  refine Triple.bind (Keeps.modify fun u hu => ?_) fun _ => ?_
  · exact ⟨⟨hu.peers, hu.faces, hu.time, hu.defaultTtl, hu.prefixTtls⟩, hu.sent, hu.subscriptions⟩
  · refine Triple.bind (maybeSign_unsent d) fun d' u hu => ?_
    obtain ⟨hu, hn, hw⟩ := hu
    exact Triple.bind (csInsert_unsent d'.name d')
      (fun _ => Triple.pure fun _ h => ⟨h.1, hn, hw, h.2⟩) u hu

theorem published_eq_ok {d' : Data} (h : s.published d = .ok d') :
    d'.name = d.name ∧ (d.FixedWidths → d'.FixedWidths) ∧
      ∃ cs, s.forwarder.cs.insert d'.name d' s.forwarder.time = .ok cs := by
  have htriple := signAndStore_unsent d s (⟨.refl s, rfl, rfl⟩ : Unsent s s)
  rw [published] at h
  rcases hx : exec (signAndStore d) s with ⟨_ | d'', u⟩
  · rw [hx] at h
    cases h
  · rw [hx] at h htriple
    obtain rfl := ok_inj h rfl
    exact htriple.2

theorem takes_published {d' : Data} (hd : d.FixedWidths) (hp : s.published d = .ok d')
    (hb : d'.toBytes = .ok raw) (h : ∃ d'', Data.fromBytes raw = .ok d'') : s.Takes raw := by
  obtain ⟨-, hw, hi⟩ := published_eq_ok hp
  obtain ⟨d'', hd''⟩ := h
  refine ⟨d'', hd'', ?_⟩
  rw [Data.eq_onWire_of_fromBytes (hw hd) hb hd'', ContentStore.insert_onWire]
  exact hi

omit [Hashlib] in
theorem exec_forM_push (faces : List FaceId) {present : List FaceId} (hd : d.toBytes = .ok raw)
    (hp : s.faces = present) :
    ∃ t, exec (faces.forM fun face =>
        if face ∈ present then trySend face d (enqueueForFace face d)
        else enqueueForFace face d) s = (.ok (), t) ∧
      SameSetup s t ∧ t.sent = (s.sendAll (.data d) faces).sent := by
  induction faces generalizing s with
  | nil => exact ⟨s, rfl, .refl s, rfl⟩
  | cons face faces ih =>
    rw [exec_forM_cons, s.sendAll_cons]
    by_cases hf : face ∈ present
    · rw [if_pos hf, exec_trySend hd]
      obtain ⟨t, ht, hset, hsent⟩ := ih (s := s.sendAll (.data d) [face]) hp
      exact ⟨t, ht, (sameSetup_sendAll s _ _).trans hset, hsent⟩
    · rw [if_neg hf, enqueueForFace, exec_modify]
      obtain ⟨t, ht, hset, hsent⟩ := ih (s := { s with
        offlineQueue := (s.subscriptions.items.filter fun e =>
          e.2.contains face && (d.name.startsWith e.1 || e.1.startsWith d.name)).foldl
            (fun q e => q.set e.1 ((q.get? e.1).getD [] ++ [d])) s.offlineQueue }) hp
      refine ⟨t, ht, ⟨hset.peers, hset.faces, hset.time, hset.defaultTtl, hset.prefixTtls⟩, ?_⟩
      rw [hsent]
      simp [sendAll, hp, hf]

/-- Published Data that can be encoded is handed to each subscriber and then to each peer. -/
theorem after_publishPushed {d' : Data} (hd : s.published d = .ok d')
    (hb : d'.toBytes = .ok raw) :
    SameSetup s (after (publishPushed d) s) ∧
      Sends s (after (publishPushed d) s) raw fun face =>
        (if face ∈ s.subscriberFaces d.name ∧ face ∈ s.faces then 1 else 0) +
          if face ∈ s.propagationFaces none ∧ face ∈ s.faces then 1 else 0 := by
  have htriple := signAndStore_unsent d s (⟨.refl s, rfl, rfl⟩ : Unsent s s)
  rw [published] at hd
  rw [after, publishPushed_eq, exec_bind]
  rcases hx : exec (signAndStore d) s with ⟨_ | d'', u⟩
  · rw [hx] at hd
    cases hd
  · rw [hx] at hd htriple
    obtain rfl := ok_inj hd rfl
    obtain ⟨hu, hn, -, -⟩ := htriple
    obtain ⟨t, ht, hset, hsent⟩ :=
      exec_forM_push (s := u) (u.subscriberFaces d'.name) hb rfl
    have haps : exec (apsPublish d') u = (.ok (), t) := by
      rw [apsPublish, exec_bind]
      exact ht
    simp only [exec_bind, haps, exec_propagate hb]
    have hall := hu.toSameSetup.trans hset
    refine ⟨hall.trans (sameSetup_sendAll _ _ _), ?_⟩
    have hfaces : u.subscriberFaces d'.name = s.subscriberFaces d.name := by
      rw [subscriberFaces, subscriberFaces, hu.subscriptions, hn]
    have hpeers : t.propagationFaces none = s.propagationFaces none := by
      rw [propagationFaces, propagationFaces, hall.peers]
    have haps : Sends s t raw fun face =>
        if face ∈ s.subscriberFaces d.name ∧ face ∈ s.faces then 1 else 0 := by
      refine sends_sendAll (p := .data d') hb (subscriberFaces_nodup s d.name) ?_
      rw [hsent, sendAll_sent, sendAll_sent, hfaces, hu.faces, hu.sent]
    rw [hpeers]
    have hprop := sends_sendAll (s := t) (p := .data d') hb (propagationFaces_nodup s none) rfl
    rw [hall.faces] at hprop
    exact haps.trans hprop

theorem sent_publishPushed (h : ∀ d' raw, s.published d = .ok d' → d'.toBytes ≠ .ok raw) :
    (after (publishPushed d) s).sent = s.sent := by
  have htriple := signAndStore_unsent d s (⟨.refl s, rfl, rfl⟩ : Unsent s s)
  rw [after, publishPushed_eq, exec_bind]
  rw [published] at h
  rcases hx : exec (signAndStore d) s with ⟨_ | d', u⟩
  · rw [hx] at htriple
    exact htriple.sent
  · rw [hx] at h htriple
    have hkeep : Keeps (fun t => t.sent = s.sent) (apsPublish d' >>= fun _ => propagate d') := by
      have hsend (face : FaceId) : Keeps (fun t => t.sent = s.sent) (send face (.data d')) := by
        refine Keeps.get.bind fun t => ?_
        split
        · cases hb : d'.toBytes with
          | error e =>
            have hb : (Packet.data d').toBytes = .error e := hb
            rw [hb]
            exact fun _ h => h
          | ok raw => exact absurd hb (h d' raw rfl)
        · exact Keeps.pure _
      have hqueue (face : FaceId) : Keeps (fun t => t.sent = s.sent) (enqueueForFace face d') :=
        Keeps.modify fun _ h => h
      refine Keeps.bind (Keeps.get.bind fun t => Keeps.forM fun face _ => ?_) fun _ =>
        Keeps.get.bind fun t => Keeps.forM fun face _ =>
          (hsend face).tryCatch fun _ => Keeps.pure _
      split
      · exact (hsend face).tryCatch fun _ => hqueue face
      · exact hqueue face
    exact Triple.after hkeep htriple.1.sent

end Server

end RnsIcn
