import RnsIcn.Client.Feed
import RnsIcn.Lib.Transition
import RnsIcn.Store.Fits

/-! # The loop that feeds a client

Each face of a client has a loop that hands arriving Data and Nacks to the forwarder. An
empty packet and an exception of `receive_data` end the loop, and what arrives on the face
from then on is never read.
-/

namespace RnsIcn

open Transition Fallible

namespace Verifier

variable [Hashlib] {v : Verifier} {d : Data}

/-- Data that fits its fields passes the checks or is rejected, without an exception. -/
theorem checkOrigin_isOk (h : d.Fits) (v : Verifier) (requireSignature : Option Bool) :
    ∃ r, v.checkOrigin d requireSignature = .ok r := by
  have hroll (v : Verifier) : ∃ r, v.checkRollback d = .ok r := by
    rw [checkRollback]
    split
    · exact ⟨_, rfl⟩
    · split
      · exact ⟨_, rfl⟩
      · rw [h.name.encodable.toBytes]
        simp only [bind, Except.bind]
        split
        · split
          · exact ⟨_, rfl⟩
          · split <;> exact ⟨_, rfl⟩
        · exact ⟨_, rfl⟩
  have hsig : ∃ r, v.checkSignature d requireSignature = .ok r := by
    rw [checkSignature]
    split
    · rename_i hsigned
      obtain ⟨sig, hs⟩ := Option.isSome_iff_exists.mp hsigned
      split
      · rename_i validate _
        have hverify : d.verifySignature validate = .ok (validate sig (blake2b d.envelope)) := by
          rw [Data.verifySignature, hs, h.signedHash]
          rfl
        simp only [hverify, bind, Except.bind]
        split <;> exact ⟨_, rfl⟩
      · split <;> exact ⟨_, rfl⟩
    · split <;> exact ⟨_, rfl⟩
  obtain ⟨⟨u, verdict⟩, hu⟩ := hsig
  rw [checkOrigin, hu]
  cases verdict with
  | accepted => exact hroll u
  | rejected e => exact ⟨_, rfl⟩

theorem dispatch_raises_nothing (h : d.Fits) (v : Verifier) (prefixes : List Name) :
    (v.dispatch d prefixes).2 = none := by
  induction prefixes generalizing v with
  | nil => rfl
  | cons p prefixes ih =>
    obtain ⟨⟨u, verdict⟩, hr⟩ := v.checkOrigin_isOk h none
    rw [dispatch, hr]
    split
    · exact ih v
    · split
      · rfl
      · cases verdict with
        | accepted => exact ih u
        | rejected e => rfl

end Verifier

/-- `receive_data` of the client's forwarder raises: the insertion does, or a check of the push. -/
def Client.receiveRaises [Hashlib] (s : Client) (d : Data) : Bool :=
  !s.forwarder.reachesCallback d false || (s.verifier.dispatch d s.subscriptions).2.isSome

/-- A client and the faces whose loop of `_pump_face` has ended. -/
structure PumpedClient where
  client : Client := {}
  ended : List FaceId := []

def Client.Label.delivers : Client.Label → Bool
  | .forwarder (.receiveData ..) | .forwarder (.receiveNack ..) => true
  | _ => false

namespace PumpedClient

/-- `arrive`: the loop of the face takes the packet from the queue, if it still runs. -/
inductive Label where
  | arrive (face : FaceId) (raw : Bytes)
  | client (l : Client.Label)

variable [Hashlib]

/-- A turn of `_pump_face`. -/
def pump (s : PumpedClient) (face : FaceId) (raw : Bytes) : Option PumpedClient :=
  if raw = [] then some { s with ended := face :: s.ended }
  else match parsePacket raw with
    | .ok (.data d) =>
      (s.client.step (.forwarder (.receiveData d face false))).map fun client =>
        { client, ended := if s.client.receiveRaises d then face :: s.ended else s.ended }
    | .ok (.nack n) =>
      (s.client.step (.forwarder (.receiveNack n.name face))).map fun client => { s with client }
    | _ => some s

def step (s : PumpedClient) : Label → Option PumpedClient
  | .arrive face raw => if face ∈ s.ended then some s else s.pump face raw
  | .client l =>
    if l.delivers then none else (s.client.step l).map fun client => { s with client }

/-- A client before its first fetch, with no loop that has ended. -/
structure Initial (s : PumpedClient) : Prop where
  client : s.client.Initial
  ended : s.ended = []

/-- The packet is not empty, the name of its Data starts with an address, and the database can bind
the integers of Data that answers a pending Interest. -/
def Readable (s : PumpedClient) (raw : Bytes) : Prop :=
  raw ≠ [] ∧ ∀ d, parsePacket raw = .ok (.data d) → d.name.rnsAddr.length = RNS_ADDR_BYTES ∧
    ∀ m, Forwarder.answeredName s.client.forwarder.pit d.name.withoutContentHash = .ok (some m) →
      d.Bindable

variable {s t : PumpedClient} {l : Label} {face : FaceId} {raw : Bytes}

theorem step_client (h : s.step l = some t) :
    t.client = s.client ∨ ∃ l', s.client.step l' = some t.client ∧
      ((∃ face raw d, l = .arrive face raw ∧ parsePacket raw = .ok (.data d) ∧
        l' = .forwarder (.receiveData d face false)) ∨
      (∃ face raw n, l = .arrive face raw ∧ parsePacket raw = .ok (.nack n) ∧
        l' = .forwarder (.receiveNack n.name face)) ∨ l = .client l') := by
  cases l with
  | arrive face raw =>
    rw [step] at h
    split at h
    · exact .inl (Option.some.inj h ▸ rfl)
    · rw [pump] at h
      split at h
      · exact .inl (Option.some.inj h ▸ rfl)
      · split at h
        · rename_i d hp
          obtain ⟨client, hc, rfl⟩ := Option.map_eq_some_iff.mp h
          exact .inr ⟨_, hc, .inl ⟨face, raw, d, rfl, hp, rfl⟩⟩
        · rename_i n hp
          obtain ⟨client, hc, rfl⟩ := Option.map_eq_some_iff.mp h
          exact .inr ⟨_, hc, .inr (.inl ⟨face, raw, n, rfl, hp, rfl⟩)⟩
        · exact .inl (Option.some.inj h ▸ rfl)
  | client l =>
    obtain ⟨-, h⟩ := Option.ite_none_left_eq_some.mp h
    obtain ⟨client, hc, rfl⟩ := Option.map_eq_some_iff.mp h
    exact .inr ⟨l, hc, .inr (.inr rfl)⟩

/-- The store takes readable Data, or does not get to it, and no check of it raises. -/
theorem receiveRaises_readable {d : Data}
    (htime : s.client.forwarder.cs.InTime s.client.forwarder.time) (h : s.Readable raw)
    (hp : parsePacket raw = .ok (.data d)) : s.client.receiveRaises d = false := by
  have hfits : d.Fits := fits_of_parsePacket hp
  obtain ⟨haddr, hbind⟩ := h.2 d hp
  obtain ⟨m, hm⟩ := Forwarder.answeredName_isOk s.client.forwarder.pit
    (n := d.name.withoutContentHash) haddr
  have hreach : s.client.forwarder.reachesCallback d false = true := by
    rw [Forwarder.reachesCallback, hm]
    cases m with
    | none => rfl
    | some m =>
      obtain ⟨cs, hcs⟩ := ContentStore.insert_bindable htime hfits.name hfits (hbind m hm) haddr
      simp only [hcs]
      rfl
  rw [Client.receiveRaises, hreach, Verifier.dispatch_raises_nothing hfits]
  rfl

theorem ended_step (htime : s.client.forwarder.cs.InTime s.client.forwarder.time)
    (hr : ∀ face raw, l = .arrive face raw → s.Readable raw) (h : s.step l = some t) :
    t.ended = s.ended := by
  cases l with
  | arrive face raw =>
    have hread := hr face raw rfl
    rw [step] at h
    split at h
    · exact Option.some.inj h ▸ rfl
    · rw [pump, if_neg hread.1] at h
      split at h
      · rename_i d hp
        obtain ⟨client, -, rfl⟩ := Option.map_eq_some_iff.mp h
        simp only [receiveRaises_readable htime hread hp, Bool.false_eq_true, if_false]
      · obtain ⟨client, -, rfl⟩ := Option.map_eq_some_iff.mp h
        rfl
      · exact Option.some.inj h ▸ rfl
  | client l =>
    obtain ⟨-, h⟩ := Option.ite_none_left_eq_some.mp h
    obtain ⟨client, -, rfl⟩ := Option.map_eq_some_iff.mp h
    rfl

theorem consistent_step (h : s.client.forwarder.Consistent) (hs : s.step l = some t) :
    t.client.forwarder.Consistent := by
  rcases step_client hs with he | ⟨l', hl, -⟩
  · exact he ▸ h
  · exact Client.step_consistent h hl

end PumpedClient

end RnsIcn
