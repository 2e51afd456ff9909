import RnsIcn.Forwarder.Answer
import RnsIcn.Store.Fits

/-! # Calls that raise nothing

A call of `express` raises if its lookup does, if its Interest cannot be encoded or if a
send raises. Otherwise it ends with Data that the store served or that arrived.
-/

namespace RnsIcn

open EventLoop Fallible

def Call.Sendable (call : Call) : Prop :=
  (∃ b, call.interest.toBytes = .ok b) ∧ ∀ e, call.phase ≠ .raised e

theorem Interest.toBytes_hopLimit {i : Interest} (h : ∃ b, i.toBytes = .ok b) (hopLimit : ℕ) :
    ∃ b, { i with hopLimit }.toBytes = .ok b := by
  obtain ⟨b, hb⟩ := h
  simp only [Interest.toBytes, bind_eq_ok] at hb ⊢
  obtain ⟨head, hhead, lifetime, hlifetime, sel, hsel, -⟩ := hb
  exact ⟨_, head, hhead, lifetime, hlifetime, sel, hsel, rfl⟩

namespace Forwarder

variable {s t : Forwarder} {c : CallId} {call : Call} {l : Label} {d : Data} {i : Interest}

/-- The call is there and raises nothing. -/
def Awaited (s : Forwarder) (c : CallId) : Prop :=
  ∃ call, s.loop.calls c = some call ∧ call.Sendable

theorem awaited_finish {phase : Phase} (h : ∃ b, call.interest.toBytes = .ok b)
    (hphase : ∀ e, phase ≠ .raised e) : (s.finish c call phase).Awaited c :=
  ⟨_, (calls_setCall ..).trans (if_pos rfl), h, hphase⟩

theorem awaited_attempts (h : ∃ b, call.interest.toBytes = .ok b) (faces : List FaceId) :
    (s.attempts c call faces).Awaited c := by
  induction faces generalizing s with
  | nil => exact awaited_finish h fun _ h => by cases h
  | cons face rest ih =>
    obtain ⟨b, hb⟩ := h
    rw [attempts]
    split
    · rw [hb]
      exact ⟨_, (calls_setCall ..).trans (if_pos rfl), ⟨b, hb⟩, fun _ h => by cases h⟩
    · exact ih

theorem awaited_forward (h : ∃ b, call.interest.toBytes = .ok b) (faces : List FaceId) :
    (s.forward c call faces).Awaited c := by
  rw [forward]
  split
  · exact awaited_finish h fun _ h => by cases h
  · refine awaited_attempts ?_ faces
    exact Interest.toBytes_hopLimit h _

theorem awaited_attemptFailed (h : ∃ b, call.interest.toBytes = .ok b) (face : FaceId)
    (rest : List FaceId) : (s.attemptFailed c call face rest).Awaited c := by
  rw [attemptFailed]
  exact awaited_attempts h rest

variable [Hashlib]

theorem Awaited.run (h : s.Awaited c) (hl : l.runs = some c) (hsend : ∀ e, l ≠ .sendRaised c e)
    (hs : step s l = some t) : t.Awaited c := by
  obtain ⟨call, hc, henc, hphase⟩ := h
  cases l with
  | start c' =>
    obtain rfl := Option.some.inj hl
    obtain ⟨call', hc', hs⟩ := Option.bind_eq_some_iff.mp hs
    obtain rfl := Option.some.inj (hc.symm.trans hc')
    split at hs
    · exact Option.some.inj hs ▸ awaited_forward henc _
    · cases hs
  | sent c' =>
    obtain rfl := Option.some.inj hl
    obtain ⟨call', hc', hs⟩ := Option.bind_eq_some_iff.mp hs
    obtain rfl := Option.some.inj (hc.symm.trans hc')
    split at hs
    · obtain rfl := Option.some.inj hs
      exact ⟨_, (calls_wait ..).trans (if_pos rfl), henc, fun _ h => by cases h⟩
    · cases hs
  | sendRaised c' e =>
    obtain rfl := Option.some.inj hl
    exact absurd rfl (hsend e)
  | resume c' =>
    obtain rfl := Option.some.inj hl
    obtain ⟨call', hc', hs⟩ := Option.bind_eq_some_iff.mp hs
    obtain rfl := Option.some.inj (hc.symm.trans hc')
    split at hs
    · split at hs
      · exact Option.some.inj hs ▸ awaited_finish henc fun _ h => by cases h
      · exact Option.some.inj hs ▸ awaited_attemptFailed henc _ _
      · cases hs
    · split at hs
      · exact Option.some.inj hs ▸ awaited_finish henc fun _ h => by cases h
      · exact Option.some.inj hs ▸ awaited_finish henc fun _ h => by cases h
      · cases hs
    · cases hs
  | timeout c' =>
    obtain rfl := Option.some.inj hl
    obtain ⟨call', hc', hs⟩ := Option.bind_eq_some_iff.mp hs
    obtain rfl := Option.some.inj (hc.symm.trans hc')
    split at hs
    · split at hs
      · exact Option.some.inj hs ▸ awaited_attemptFailed henc _ _
      · cases hs
    · split at hs
      · exact Option.some.inj hs ▸ awaited_finish henc fun _ h => by cases h
      · cases hs
    · cases hs
  | _ => cases hl

theorem Awaited.step (h : s.Awaited c) (hs : s.Consistent) (hsend : ∀ e, l ≠ .sendRaised c e)
    (hst : step s l = some t) : t.Awaited c := by
  by_cases hl : l.runs = some c
  · exact h.run hl hsend hst
  · obtain ⟨call, hc, hcall⟩ := h
    exact ⟨call, ((step_change hst).frame hs.loop hc hl).calls, hcall⟩

theorem awaited_express {inFace : FaceId} {nonce : Bytes} (hi : ∃ b, i.toBytes = .ok b)
    (hlook : ∃ hit, (s.csLookup i).2 = .ok hit) :
    (s.express i inFace nonce).Awaited s.loop.nextCall := by
  obtain ⟨hit, hlook⟩ := hlook
  rw [express]
  split
  · exact ⟨_, (calls_setCall ..).trans (if_pos rfl), hi, fun _ h => by cases h⟩
  · cases hl : s.csLookup i with
    | mk cs lookup =>
      rw [hl] at hlook
      obtain rfl : lookup = .ok hit := hlook
      simp only
      generalize hdec : s.strategy.decide _ _ _ _ _ = decision
      cases decision with
      | serveFromCache d => exact awaited_finish hi fun _ h => by cases h
      | serveStaleRevalidate d face => exact awaited_finish hi fun _ h => by cases h
      | suppressAggregate =>
        exact ⟨_, (calls_wait ..).trans (if_pos rfl), hi, fun _ h => by cases h⟩
      | forwardTo face => exact awaited_forward hi _
      | noRoute => exact awaited_finish hi fun _ h => by cases h

/-- The lookup raises if it asks for a sequence that the database cannot bind. -/
theorem csLookup_isOk (h : s.cs.Fits) (hn : i.name.Fits) (hbind : i.Bindable) :
    ∃ hit, (s.csLookup i).2 = .ok hit := by
  rw [csLookup]
  split
  · rename_i hunder
    obtain ⟨r, hr⟩ : ∃ r, (s.cs.purgeExpired s.time).readPrefix i.name i.child i.minSequence
      s.time = .ok r := ContentStore.readPrefix_isOk h.purge hn (hbind hunder)
    refine ⟨r.filter fun d => !walkSkips i d, ?_⟩
    simp only [ContentStore.getPrefix, hr, Except.map]
  · exact ContentStore.read_isOk h.purge hn

theorem csLookup_fits {cs : ContentStore} (h : s.cs.Fits) (hnow : s.time < 2 ^ 63)
    (hl : s.csLookup i = (cs, .ok (some d))) : d.Fits := by
  rcases csLookup_eq_some hl with ⟨-, hr⟩ | ⟨-, hr⟩
  · exact ContentStore.readPrefix_fits h.purge hnow hr
  · exact ContentStore.read_fits h.purge hnow hr

end Forwarder

end RnsIcn
