import RnsIcn.Forwarder.Delivery
import RnsIcn.Server.Links
import RnsIcn.Server.Signing

/-! # Data that arrives as a Resource

A completed Resource is stored at once, and Data on the channel takes the path of
the forwarder. The two agree on the store, the PIT, the waiting calls and the sent
packets only where the second path does nothing but store.
-/

namespace RnsIcn

open Effect Fallible

theorem Data.head_of_fromBytes {raw : Bytes} {d : Data} (h : Data.fromBytes raw = .ok d) :
    raw.head? = some PacketType.data.value := by
  obtain ⟨rest, ht, -⟩ := bind_eq_ok.mp h
  cases raw with
  | nil => cases ht
  | cons b raw =>
    by_contra hb
    simp only [List.head?_cons, Option.some.injEq] at hb
    simp [Parse.readType, hb] at ht

theorem parsePacket_of_data {raw : Bytes} {d : Data} (h : Data.fromBytes raw = .ok d) :
    parsePacket raw = .ok (.data d) := by
  obtain ⟨raw, rfl⟩ := List.head?_eq_some_iff.mp (Data.head_of_fromBytes h)
  have h' : Data.fromBytes (0x02 :: raw) = .ok d := h
  simp [parsePacket, PacketType.value, h']

namespace Server

variable {s t : Server} {face : FaceId} {d : Data} {raw : Bytes} {drawn : Drawn}

/-- The servers have the same store, PIT, resolved waiters and sent packets. -/
structure Agree (s t : Server) : Prop where
  cs : s.forwarder.cs = t.forwarder.cs
  pit : s.forwarder.pit = t.forwarder.pit
  waiters : s.forwarder.loop.notifiers.state = t.forwarder.loop.notifiers.state
  sent : s.sent = t.sent

theorem agree_sendAll_iff {p : Packet} {faces : List FaceId} (h : s.sent = t.sent) :
    Agree s (t.sendAll p faces) ↔ Agree s t ∧ ∀ other ∈ faces, other ∉ t.faces := by
  rw [← sendAll_sent_eq (p := p)]
  constructor
  · intro ha
    exact ⟨⟨ha.cs, ha.pit, ha.waiters, h⟩, ha.sent.symm.trans h⟩
  · rintro ⟨ha, hs⟩
    exact ⟨ha.cs, ha.pit, ha.waiters, h.trans hs.symm⟩

variable [Hashlib]

def InsertRaises (s : Server) (d : Data) : Prop :=
  ∃ e, s.forwarder.cs.insert d.name d s.forwarder.time = .error e

/-- When a Resource and the channel have the same effect. For Data that nothing asked for, storing
it changes nothing, or it came from a peer and goes to no other. For Data that was asked for, the
insertion raises and neither the entry nor a waiter is left to be told. -/
def DeliversAlike (s : Server) (face : FaceId) (d : Data) : Prop :=
  match Forwarder.answeredName s.forwarder.pit d.name.withoutContentHash with
  | .error _ => s.forwarder.cs.apply (.insert d.name d s.forwarder.time) = s.forwarder.cs
  | .ok none =>
    if s.peers.contains face then
      s.InsertRaises d ∨ ∀ other ∈ s.propagationFaces (some face), other ∉ s.faces
    else s.forwarder.cs.apply (.insert d.name d s.forwarder.time) = s.forwarder.cs
  | .ok (some m) =>
    s.InsertRaises d ∧ (s.forwarder.pit.find m).all (·.satisfied) = true ∧
      ∀ fut ∈ s.forwarder.loop.notifiers.notifiers m,
        s.forwarder.loop.notifiers.state fut ≠ .pending

theorem after_handleResource (hd : Data.fromBytes raw = .ok d) :
    after (handleResource (0x49 :: raw)) s =
      { s with forwarder :=
        { s.forwarder with cs := s.forwarder.cs.apply (.insert d.name d s.forwarder.time) } } := by
  have hr : resourceData (0x49 :: raw) = some d := Fallible.toOption_eq_some.mpr hd
  rw [after, handleResource, hr]
  simp only [exec_csInsert]

theorem after_handleData (hd : Data.fromBytes raw = .ok d) (hp : s.peers.contains face = false) :
    after (handleIncoming face raw drawn) s =
      { s with forwarder := s.forwarder.receiveData d face false } := by
  rw [after, handleIncoming, parsePacket_of_data hd]
  simp [handlePacket, exec_bind, hp, handleData, exec_receiveData]

theorem after_handlePeerData (hd : Data.fromBytes raw = .ok d) (hb : d.toBytes = .ok raw)
    (hp : s.peers.contains face = true) :
    after (handleIncoming face raw drawn) s =
      match s.forwarder.receiveOutcome d true with
      | .ok _ => sendAll { s with forwarder := s.forwarder.receiveData d face true } (.data d)
          (s.propagationFaces (some face))
      | .error _ => { s with forwarder := s.forwarder.receiveData d face true } := by
  rw [after, handleIncoming, parsePacket_of_data hd]
  simp only [handlePacket, exec_bind, exec_get, hp, if_true, handlePeerData, exec_receiveData]
  cases s.forwarder.receiveOutcome d true with
  | error e => rfl
  | ok u => simp only [exec_propagate hb]; rfl

/-- Data that no Interest waits for leaves the forwarder as it is, but for the cache. -/
theorem receiveData_unasked (face : FaceId) (cacheUnsolicited : Bool)
    (ha : Forwarder.answeredName s.forwarder.pit d.name.withoutContentHash = .ok none) :
    (s.forwarder.receiveData d face cacheUnsolicited).pit = s.forwarder.pit ∧
      (s.forwarder.receiveData d face cacheUnsolicited).loop.notifiers =
        s.forwarder.loop.notifiers := by
  have hpit : s.forwarder.pit.remove d.name.withoutContentHash = s.forwarder.pit :=
    Pit.remove_of_find_eq_none (Forwarder.answeredName_none ha)
  cases cacheUnsolicited with
  | false => simpa only [Forwarder.receiveData, ha] using ⟨hpit, rfl⟩
  | true =>
    simp only [Forwarder.receiveData, ha, if_true, Forwarder.cacheAnswer]
    split
    · exact ⟨rfl, rfl⟩
    · exact ⟨hpit, rfl⟩

theorem insert_eq_error {e : PyError}
    (hi : s.forwarder.cs.insert d.name d s.forwarder.time = .error e) :
    s.forwarder.cs.apply (.insert d.name d s.forwarder.time) = s.forwarder.cs := by
  rw [ContentStore.apply, hi, ContentStore.commit_error]

theorem agree_answered_iff {m : Name} {cacheUnsolicited : Bool}
    (ha : Forwarder.answeredName s.forwarder.pit d.name.withoutContentHash = .ok (some m)) :
    Agree
      { s with forwarder :=
        { s.forwarder with cs := s.forwarder.cs.apply (.insert d.name d s.forwarder.time) } }
      { s with forwarder := s.forwarder.receiveData d face cacheUnsolicited } ↔
    s.InsertRaises d ∧ (s.forwarder.pit.find m).all (·.satisfied) = true ∧
      ∀ fut ∈ s.forwarder.loop.notifiers.notifiers m,
        s.forwarder.loop.notifiers.state fut ≠ .pending := by
  obtain ⟨entry, hf⟩ := Option.isSome_iff_exists.mp (Forwarder.answeredName_find ha)
  have hr : s.forwarder.receiveData d face cacheUnsolicited =
      (Forwarder.notifyWaiters { s.forwarder with loop := s.forwarder.loop.record (.data face d) }
        m d).cacheAnswer d m := by
    simp only [Forwarder.receiveData, ha]
  rw [hr, Forwarder.cacheAnswer]
  cases hi : s.forwarder.cs.insert d.name d s.forwarder.time with
  | ok cs =>
    simp only [Forwarder.notifyWaiters, hi]
    constructor
    · intro h
      exact absurd h.pit.symm (Pit.remove_ne_of_find_eq_some _ hf)
    · rintro ⟨⟨e, he⟩, -⟩
      rw [hi] at he
      cases he
  | error e =>
    simp only [Forwarder.notifyWaiters, hi]
    rw [hf, Option.all_some, ← Pit.satisfy_eq_self_iff hf, ← Futures.state_announce_eq_iff]
    constructor
    · intro h
      exact ⟨⟨e, hi⟩, h.pit.symm, h.waiters.symm⟩
    · rintro ⟨-, hpit, hw⟩
      exact ⟨insert_eq_error hi, hpit.symm, hw.symm, rfl⟩

/-- Delivery as a Resource and on the channel have the same effect under `DeliversAlike` and not
otherwise. -/
theorem resource_agrees_iff (hd : Data.fromBytes raw = .ok d) (hb : d.toBytes = .ok raw) :
    Agree (after (handleResource (0x49 :: raw)) s) (after (handleIncoming face raw drawn) s) ↔
      s.DeliversAlike face d := by
  rw [after_handleResource hd, DeliversAlike]
  cases hp : s.peers.contains face with
  | false =>
    rw [after_handleData hd hp]
    cases ha : Forwarder.answeredName s.forwarder.pit d.name.withoutContentHash with
    | error e =>
      simp only [Forwarder.receiveData, ha]
      exact ⟨fun h => h.cs, fun h => ⟨h, rfl, rfl, rfl⟩⟩
    | ok matched =>
      cases matched with
      | some m => exact agree_answered_iff ha
      | none =>
        obtain ⟨hpit, hw⟩ := receiveData_unasked face false ha
        simp only [Bool.false_eq_true, if_false]
        have hcs : (s.forwarder.receiveData d face false).cs = s.forwarder.cs := by
          simp only [Forwarder.receiveData, ha]; rfl
        exact ⟨fun h => h.cs.trans hcs, fun h => ⟨h.trans hcs.symm, hpit.symm, by rw [hw], rfl⟩⟩
  | true =>
    rw [after_handlePeerData hd hb hp, Forwarder.receiveOutcome]
    cases ha : Forwarder.answeredName s.forwarder.pit d.name.withoutContentHash with
    | error e =>
      simp only [Forwarder.receiveData, ha]
      exact ⟨fun h => h.cs, fun h => ⟨h, rfl, rfl, rfl⟩⟩
    | ok matched =>
      cases matched with
      | some m =>
        cases hi : s.forwarder.cs.insert d.name d s.forwarder.time with
        | error e => exact agree_answered_iff ha
        | ok cs =>
          have hno : ¬ s.InsertRaises d := by
            rintro ⟨e, he⟩
            rw [hi] at he
            cases he
          change Agree _ (sendAll { s with forwarder := s.forwarder.receiveData d face true }
            (.data d) (s.propagationFaces (some face))) ↔ _
          rw [agree_sendAll_iff (by rfl), agree_answered_iff ha]
          exact ⟨fun h => h.1, fun h => absurd h.1 hno⟩
      | none =>
        obtain ⟨hpit, hw⟩ := receiveData_unasked face true ha
        have hcs : (s.forwarder.receiveData d face true).cs =
            s.forwarder.cs.apply (.insert d.name d s.forwarder.time) := by
          rw [Forwarder.receiveData_cs, Forwarder.storeOp, ha]
          rfl
        have hagree : Agree
            { s with forwarder :=
              { s.forwarder with cs := s.forwarder.cs.apply (.insert d.name d s.forwarder.time) } }
            { s with forwarder := s.forwarder.receiveData d face true } :=
          ⟨hcs.symm, hpit.symm, by rw [hw], rfl⟩
        simp only [if_true]
        cases hi : s.forwarder.cs.insert d.name d s.forwarder.time with
        | error e => exact ⟨fun _ => .inl ⟨e, hi⟩, fun _ => hagree⟩
        | ok cs =>
          change Agree _ (sendAll { s with forwarder := s.forwarder.receiveData d face true }
            (.data d) (s.propagationFaces (some face))) ↔ _
          rw [agree_sendAll_iff (by rfl)]
          refine ⟨fun h => .inr h.2, ?_⟩
          rintro (⟨e, he⟩ | h)
          · rw [hi] at he
            cases he
          · exact ⟨hagree, h⟩

end Server

namespace Server

def remoteData : Data where
  name := ⟨List.replicate 16 2, [[0x78]], none⟩
  content := [0x68, 0x69]

def peered : List Label :=
  [.openFace, .incoming 100 (wireBytes (.peer { rnsAddr := List.replicate 16 2 })) drawn]

theorem peer_resource_agrees :
    letI := Data.paddedHash
    Agree (after (handleResource (0x49 :: wireBytes (.data remoteData)))
        (serverAfter publisher peered))
      (after (handleIncoming 100 (wireBytes (.data remoteData)) drawn)
        (serverAfter publisher peered)) :=
  letI := Data.paddedHash
  (resource_agrees_iff (s := serverAfter publisher peered) (d := remoteData) rfl rfl).mpr
    (.inr (by decide))

def asked : List Label :=
  [.openFace, .openFace, .forwarder (.addRoute ⟨List.replicate 16 2, [], none⟩ 101 10),
    .incoming 100 (wireBytes (.interest
      { name := remoteData.name, nonce := List.replicate 8 3 })) drawn,
    .forwarder (.sent 0)]

/-- An answer that comes as a Resource does not reach the call that waits for it. -/
theorem resource_answer_lost :
    letI := Data.paddedHash
    let s := serverAfter publisher asked
    Transition.Reachable Initial step Transition.anyStep s ∧
      remoteData.toBytes = .ok (wireBytes (.data remoteData)) ∧
      Data.fromBytes (wireBytes (.data remoteData)) = .ok remoteData ∧
      ¬ Agree (after (handleResource (0x49 :: wireBytes (.data remoteData))) s)
        (after (handleIncoming 101 (wireBytes (.data remoteData)) drawn) s) := by
  let := Data.paddedHash
  refine ⟨⟨publisher, asked, publisher_initial, Transition.run_of_exec rfl⟩, rfl, rfl, ?_⟩
  intro h
  have hlost : (after (handleResource (0x49 :: wireBytes (.data remoteData)))
      (serverAfter publisher asked)).forwarder.loop.notifiers.state 0 = .pending := rfl
  have hgot : (after (handleIncoming 101 (wireBytes (.data remoteData)) drawn)
      (serverAfter publisher asked)).forwarder.loop.notifiers.state 0 =
        .done (.data remoteData) := rfl
  rw [h.waiters, hgot] at hlost
  cases hlost

end Server

end RnsIcn
