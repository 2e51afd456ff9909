import RnsIcn.Client.Fetch
import RnsIcn.Forwarder.Delivery
import RnsIcn.Store.Serve

/-! # What raises a watermark

A signature that cannot be checked is let through unless it is required, and the
check of the version that follows takes it for a valid one. While a newer version
is let through only with the key of its producer known, every watermark is that
of Data whose signature was found valid.
-/

namespace RnsIcn

open Transition Fallible Forwarder

namespace Verifier

variable [Hashlib] {v v' : Verifier} {d : Data} {requireSignature : Option Bool}
  {verdict : Verdict}

/-- A newer version is checked against a known key, or refused without one. -/
def Trusts (v : Verifier) (d : Data) (requireSignature : Option Bool) : Prop :=
  v.Raises d → (v.identities d.name.rnsAddr).isSome = true ∨
    requireSignature.getD v.config.requireSignature = true

theorem Raises.of_checkOrigin (h : v.checkOrigin d requireSignature = .ok (v', verdict))
    (hr : v'.Raises d) : v.Raises d := by
  obtain ⟨⟨u, first⟩, hs, h⟩ := bind_eq_ok.mp h
  have hu : u.Raises d → v.Raises d := by
    cases first with
    | accepted => rcases checkSignature_eq_ok hs with rfl | ⟨rfl, -⟩ <;> exact id
    | rejected e => rw [checkSignature_rejected hs]; exact id
  cases first with
  | rejected e =>
    obtain ⟨rfl, -⟩ := Prod.mk.inj (Except.ok.inj h)
    exact hu hr
  | accepted =>
    rcases checkRollback_eq_ok h with rfl | ⟨nameKey, k, -, hn, hk, -, -, rfl⟩
    · exact hu hr
    · -- The watermark is now that of `d`, so `d` is no newer.
      obtain ⟨nameKey', k', -, hn', hk', hlt⟩ := hr
      obtain rfl := ok_inj hn hn'
      obtain rfl := Option.some.inj (hk.symm.trans hk')
      exact absurd (hlt (toLex k) (Dict.get?_set_self ..)) (lt_irrefl _)

theorem Trusts.checkOrigin (h : v.Trusts d requireSignature)
    (hc : v.checkOrigin d requireSignature = .ok (v', verdict)) :
    v'.Trusts d requireSignature := by
  obtain ⟨hconfig, hid, -⟩ := checkOrigin_frame hc
  intro hr
  rw [hid, hconfig]
  exact h (hr.of_checkOrigin hc)

def Reaches (d : Data) (pin : Option Bytes) : Prop :=
  d.verifyContentHash = true ∧ (pin.isSome = true → d.metadata.contentHash = pin)

theorem Authenticated.checkFetched (hv : v.Authenticated) {pin : Option Bytes}
    (hok : Reaches d pin → v.Trusts d requireSignature)
    (h : v.checkFetched d pin requireSignature = .ok (v', verdict)) : v'.Authenticated := by
  rw [Verifier.checkFetched] at h
  split at h
  · obtain ⟨rfl, -⟩ := Prod.mk.inj (Except.ok.inj h)
    exact hv
  · rename_i hhash
    split at h
    · obtain ⟨rfl, -⟩ := Prod.mk.inj (Except.ok.inj h)
      exact hv
    · rename_i hpin
      refine hv.checkOrigin (hok ⟨by simpa using hhash, fun hp => ?_⟩) h
      simpa [hp] using hpin

theorem Authenticated.dispatchPush (hv : v.Authenticated) {prefixes : List Name}
    (hok : prefixes.any (d.name.startsWith ·) = true → Reaches d none → v.Trusts d none) :
    (v.dispatchPush d prefixes).Authenticated := by
  induction prefixes generalizing v with
  | nil => exact hv
  | cons p prefixes ih =>
    rw [List.any_cons, Bool.or_eq_true] at hok
    rw [Verifier.dispatchPush]
    split
    · exact ih hv fun hm => hok (.inr hm)
    · rename_i hmatch
      have hmatch : d.name.startsWith p = true := by simpa using hmatch
      split
      · exact hv
      · rename_i hhash
        have ht : v.Trusts d none := hok (.inl hmatch) ⟨by simpa using hhash, nofun⟩
        split
        · rename_i u hc
          exact ih (hv.checkOrigin ht hc) fun _ _ => ht.checkOrigin hc
        · rename_i hc
          exact hv.checkOrigin ht hc
        · exact hv

end Verifier

namespace Client

section Steps

variable [Hashlib] {s t : Client} {l : Label} {d : Data}

/-- What an event does to the verifier: it checks a result, shows a push to it, makes an identity
known, or leaves it as it is. -/
inductive Verifies (s : Client) : Label → Verifier → Prop where

  | checked {f : FetchId} {fetch : Fetch} {c : CallId} {deadline : ℕ} {call : Call} {d : Data} :
      s.fetches f = some fetch → fetch.phase = .expressing c deadline →
      s.forwarder.loop.calls c = some call → call.phase = .returned (some d) →
      Verifies s (.finish f) (s.checkResult f fetch call.interest d).verifier

  | observed {l : Forwarder.Label} : Verifies s (.forwarder l) (s.observe l)

  | announced {addr : Bytes} {validate : Validator} :
      Verifies s (.announce addr validate) { s.verifier with
        identities := Function.update s.verifier.identities addr (some validate) }

  | same {l : Label} : Verifies s l s.verifier

theorem step_verifies (hs : step s l = some t) : Verifies s l t.verifier := by
  cases l with
  | forwarder l =>
    obtain ⟨fw, -, rfl⟩ := Option.map_eq_some_iff.mp hs
    exact .observed
  | finish f =>
    obtain ⟨fetch, hf, hs⟩ := Option.bind_eq_some_iff.mp hs
    split at hs
    · rename_i c deadline hp
      obtain ⟨call, hc, hs⟩ := Option.bind_eq_some_iff.mp hs
      split at hs
      · rename_i d hd
        exact Option.some.inj hs ▸ .checked hf hp hc hd
      · exact Option.some.inj hs ▸ .same
      · exact Option.some.inj hs ▸ .same
      · cases hs
    · cases hs
  | attempt f face nonce refreshNonce =>
    obtain ⟨fetch, -, hs⟩ := Option.bind_eq_some_iff.mp hs
    split at hs
    · obtain rfl := Option.some.inj hs
      rw [beginAttempt]
      split <;> exact .same
    · cases hs
  | linkFailed f e =>
    obtain ⟨fetch, -, hs⟩ := Option.bind_eq_some_iff.mp hs
    split at hs
    · exact Option.some.inj hs ▸ .same
    · cases hs
  | expire f =>
    obtain ⟨fetch, -, hs⟩ := Option.bind_eq_some_iff.mp hs
    split at hs
    · split at hs
      · exact Option.some.inj hs ▸ .same
      · cases hs
    · cases hs
  | wake f =>
    obtain ⟨fetch, -, hs⟩ := Option.bind_eq_some_iff.mp hs
    split at hs
    · exact Option.some.inj hs ▸ .same
    · cases hs
  | fetch request => exact Option.some.inj hs ▸ .same
  | announce addr validate => exact Option.some.inj hs ▸ .announced
  | subscribe namePrefix => exact Option.some.inj hs ▸ .same

/-- Whenever the signature of Data is checked that would raise a watermark, the key of its producer
is known or a signature is required. -/
def Label.Trusts (s : Client) : Label → Prop
  | .finish f => ∀ fetch c deadline call d, s.fetches f = some fetch →
      fetch.phase = .expressing c deadline → s.forwarder.loop.calls c = some call →
      call.phase = .returned (some d) → Verifier.Reaches d fetch.request.name.contentHash →
      s.verifier.Trusts d fetch.request.requireSignature
  | .forwarder (.receiveData d _ _) => s.subscriptions.any (d.name.startsWith ·) = true →
      Verifier.Reaches d none → s.verifier.Trusts d none
  | _ => True

theorem checkResult_authenticated {f : FetchId} {fetch : Fetch} {i : Interest}
    (hv : s.verifier.Authenticated) (hok : Verifier.Reaches d fetch.request.name.contentHash →
      s.verifier.Trusts d fetch.request.requireSignature) :
    (s.checkResult f fetch i d).verifier.Authenticated := by
  rw [checkResult]
  split
  · exact hv
  · rename_i hc
    exact hv.checkFetched hok hc
  · rename_i hc
    exact hv.checkFetched hok hc

theorem observe_authenticated (hv : s.verifier.Authenticated) {l : Forwarder.Label}
    (hok : (Label.forwarder l).Trusts s) : (s.observe l).Authenticated := by
  cases l with
  | receiveData d inFace unsolicited =>
    rw [observe]
    split
    · exact hv.dispatchPush hok
    · exact hv
  | _ => exact hv

theorem step_authenticated (hv : s.verifier.Authenticated) (hok : l.Trusts s)
    (hs : step s l = some t) : t.verifier.Authenticated := by
  have hver := step_verifies hs
  generalize t.verifier = v at hver
  cases hver with
  | @checked f fetch c deadline call d hf hp hc hd =>
    exact checkResult_authenticated hv (hok fetch c deadline call d hf hp hc hd)
  | observed => exact observe_authenticated hv hok
  | announced => exact hv.mono rfl fun _ he => he
  | same => exact hv

/-- A client that checks every newer version against a known key holds watermarks of valid Data
only, and what it rejects as a rollback is older than valid Data of the same name. -/
theorem watermark_authenticated (hs : Reachable Initial step (fun s l => l.Trusts s) s) :
    s.verifier.Authenticated ∧
      ∀ d v' e, s.verifier.checkRollback d = .ok (v', .rejected e) →
        ∃ d' ∈ s.verifier.verified, ∃ k k', d'.name.toBytes = d.name.toBytes ∧
          d.freshnessKey = some k ∧ d'.freshnessKey = some k' ∧ toLex k < toLex k' := by
  have hv : s.verifier.Authenticated := hs.invariant (I := fun s => s.verifier.Authenticated)
    (fun s hi => ⟨fun nameKey key hget => by rw [hi.seenSignedKey] at hget; cases hget⟩)
    fun _ _ _ hi hok hst => step_authenticated hi hok hst
  refine ⟨hv, fun d v' e hc => ?_⟩
  obtain ⟨nameKey, k, previous, hn, hk, hget, hlt⟩ := Verifier.checkRollback_rejected hc
  obtain ⟨d', hd', hn', hk'⟩ := hv.seen nameKey previous hget
  exact ⟨d', hd', k, ofLex previous, hn'.trans hn.symm, hk, hk', hlt⟩

end Steps

def stamped (signedAt : ℕ) (signature : Bytes) : Data where
  name := relayName
  content := [0x68, 0x69]
  signature := some signature
  metadata := { signedAt := some signedAt }

/-- The signature that the producer makes for `d`, with the padded hash and the scheme `twice`. -/
def producerSignature (d : Data) : Bytes :=
  ContentStore.twice (@blake2b Data.paddedHash d.envelope)

def genuine : Data := stamped 5 (producerSignature (stamped 5 []))

def forged : Data := stamped 9 (List.replicate 64 0)

def producerKey : Validator := fun signature hash => signature == ContentStore.twice hash

def subscriber : Client where
  verifier := { config := { rejectRollback := true } }
  subscriptions := [relayName]

theorem subscriber_initial : subscriber.Initial :=
  ⟨⟨rfl, fun _ => rfl, rfl, rfl⟩, rfl, rfl, rfl, rfl⟩

def watermark (s : Client) : Option FreshnessKey :=
  s.verifier.seenSignedKey.get? relayName.encode

theorem known_producer_authenticated :
    letI := Data.paddedHash
    ∃ t, Run step (fun s l => l.Trusts s) subscriber
        [.announce relayName.rnsAddr producerKey, .forwarder (.receiveData genuine 1 false)] t ∧
      watermark t = some (toLex (5, 0)) ∧ t.verifier.Authenticated :=
  letI := Data.paddedHash
  have hrun : Run step (fun s l => l.Trusts s) subscriber
      [.announce relayName.rnsAddr producerKey, .forwarder (.receiveData genuine 1 false)] _ :=
    .cons trivial rfl (.cons (fun _ _ _ => .inl rfl) rfl (.nil _))
  ⟨_, hrun, rfl, (watermark_authenticated ⟨subscriber, _, subscriber_initial, hrun⟩).1⟩

theorem not_authenticated {v : Verifier} {nameKey : Bytes} {key : FreshnessKey}
    (hv : v.verified = []) (hget : v.seenSignedKey.get? nameKey = some key) :
    ¬ v.Authenticated := fun h => by
  obtain ⟨d, hd, -⟩ := h.seen nameKey key hget
  rw [hv] at hd
  cases hd

/-- Forged Data raises the watermark while the key of the producer is unknown, and the genuine Data
is rejected when it is known. -/
theorem forged_raises_watermark :
    letI := Data.paddedHash
    ∃ t, exec step subscriber [.forwarder (.receiveData forged 1 false),
        .announce relayName.rnsAddr producerKey] = some t ∧
      watermark t = some (toLex (9, 0)) ∧ ¬ t.verifier.Authenticated ∧
      t.verifier.checkSignature forged none =
        .ok (t.verifier, .rejected (.valueError "Data signature verification failed")) ∧
      genuine.verifySignature producerKey = .ok true ∧
      ∃ e, t.verifier.checkRollback genuine = .ok (t.verifier, .rejected e) :=
  letI := Data.paddedHash
  ⟨_, rfl, rfl, not_authenticated rfl (show watermark _ = some (toLex (9, 0)) from rfl), rfl, rfl,
    _, rfl⟩

end Client

end RnsIcn
