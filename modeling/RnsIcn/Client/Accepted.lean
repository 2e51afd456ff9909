import RnsIcn.Client.Feed
import RnsIcn.Client.Watermark

/-! # What a client accepts

Data reaches the checks as the answer of an attempt or as a push, and both raise
the same watermarks. Whatever the network feeds to either, what is accepted has
passed every check, and the versions accepted for one name do not go back.
-/

namespace RnsIcn

open Transition Fallible

theorem Data.verifyContentHash_iff [Hashlib] {d : Data} :
    d.verifyContentHash = true ↔ ∀ h ∈ d.metadata.contentHash, blake2b d.content = h := by
  rw [Data.verifyContentHash]
  cases d.metadata.contentHash <;> simp

/-- Data that was accepted, with what it was asked for and the key that its producer was known
by. -/
structure Acceptance where
  data : Data
  pin : Option Bytes := none
  required : Bool
  producer : Option Validator

namespace Verifier

variable {u v v' : Verifier} {d : Data} {requireSignature : Option Bool} {verdict : Verdict}

structure Rises (v v' : Verifier) : Prop where
  config : v'.config = v.config
  seen : ∀ nameKey w, v.seenSignedKey.get? nameKey = some w →
    ∃ w', v'.seenSignedKey.get? nameKey = some w' ∧ w ≤ w'

theorem Rises.of_eq (hc : v'.config = v.config) (hs : v'.seenSignedKey = v.seenSignedKey) :
    v.Rises v' := ⟨hc, fun _ w hw => ⟨w, hs ▸ hw, le_rfl⟩⟩

theorem Rises.refl (v : Verifier) : v.Rises v := .of_eq rfl rfl

theorem Rises.trans (h : u.Rises v) (h' : v.Rises v') : u.Rises v' where
  config := h'.config.trans h.config
  seen nameKey w hw := by
    obtain ⟨w', hw', hle⟩ := h.seen nameKey w hw
    obtain ⟨w'', hw'', hle'⟩ := h'.seen nameKey w' hw'
    exact ⟨w'', hw'', hle.trans hle'⟩

theorem checkRollback_rises (h : v.checkRollback d = .ok (v', verdict)) : v.Rises v' := by
  rcases checkRollback_eq_ok h with rfl | ⟨nameKey, k, -, -, -, hlt, -, rfl⟩
  · exact .refl _
  · refine ⟨rfl, fun nameKey' w hw => ?_⟩
    rw [Dict.get?_set]
    split
    · rename_i he
      subst he
      exact ⟨toLex k, rfl, (hlt w hw).le⟩
    · exact ⟨w, hw, le_rfl⟩

def Covers (v : Verifier) (d : Data) : Prop :=
  ∀ k ∈ d.freshnessKey, ∃ nameKey w, d.name.toBytes = .ok nameKey ∧
    v.seenSignedKey.get? nameKey = some w ∧ toLex k ≤ w

theorem Covers.rises (h : v.Covers d) (hr : v.Rises v') : v'.Covers d := by
  intro k hk
  obtain ⟨nameKey, w, hn, hw, hle⟩ := h k hk
  obtain ⟨w', hw', hle'⟩ := hr.seen nameKey w hw
  exact ⟨nameKey, w', hn, hw', hle.trans hle'⟩

/-- Data is let through with a key that is no lower than the watermark, which then covers it. -/
theorem checkRollback_accepted (hreject : v.config.rejectRollback = true)
    (h : v.checkRollback d = .ok (v', .accepted)) :
    v'.Covers d ∧ ∀ nameKey w, d.name.toBytes = .ok nameKey →
      v.seenSignedKey.get? nameKey = some w → ∀ k ∈ d.freshnessKey, w ≤ toLex k := by
  rw [checkRollback, hreject] at h
  simp only [Bool.not_true, Bool.false_eq_true, if_false] at h
  split at h
  · rename_i hnone
    exact ⟨fun k hk => by simp [hnone] at hk, fun _ _ _ _ k hk => by simp [hnone] at hk⟩
  · rename_i k hk
    obtain ⟨nameKey, hn, h⟩ := bind_eq_ok.mp h
    have hof {w : FreshnessKey} (hw : v'.seenSignedKey.get? nameKey = some w)
        (hle : toLex k ≤ w) (hold : ∀ w₀, v.seenSignedKey.get? nameKey = some w₀ →
          w₀ ≤ toLex k) :
        v'.Covers d ∧ ∀ nameKey w, d.name.toBytes = .ok nameKey →
          v.seenSignedKey.get? nameKey = some w → ∀ k ∈ d.freshnessKey, w ≤ toLex k := by
      refine ⟨fun k' hk' => ⟨nameKey, w, hn, hw, ?_⟩, fun nameKey' w' hn' hw' k' hk' => ?_⟩
      · obtain rfl := Option.some.inj (hk.symm.trans hk')
        exact hle
      · obtain rfl := ok_inj hn hn'
        obtain rfl := Option.some.inj (hk.symm.trans hk')
        exact hold w' hw'
    split at h
    · rename_i previous hp
      split at h
      · simp at h
      · rename_i hge
        split at h
        · rename_i hlt
          obtain ⟨rfl, -⟩ := Prod.mk.inj (Except.ok.inj h)
          refine hof (Dict.get?_set_self ..) le_rfl fun w₀ hw₀ => ?_
          obtain rfl := Option.some.inj (hp.symm.trans hw₀)
          exact hlt.le
        · rename_i hle
          obtain ⟨rfl, -⟩ := Prod.mk.inj (Except.ok.inj h)
          refine hof hp (not_lt.mp hle) fun w₀ hw₀ => ?_
          obtain rfl := Option.some.inj (hp.symm.trans hw₀)
          exact not_lt.mp hge
    · rename_i hnone
      obtain ⟨rfl, -⟩ := Prod.mk.inj (Except.ok.inj h)
      exact hof (Dict.get?_set_self ..) le_rfl fun w₀ hw₀ => by rw [hnone] at hw₀; cases hw₀

/-- The watermarks do not exclude `d`. -/
def Admits (v : Verifier) (d : Data) : Prop :=
  ∀ nameKey w, d.name.toBytes = .ok nameKey → v.seenSignedKey.get? nameKey = some w →
    ∀ k ∈ d.freshnessKey, w ≤ toLex k

/-- Data whose name has Data with a key below a watermark has no lower key itself. -/
theorem Covers.le {e : Data} (h : v.Covers d) (ha : v.Admits e) (hn : d.name = e.name) :
    ∀ k ∈ d.freshnessKey, ∀ k' ∈ e.freshnessKey, toLex k ≤ toLex k' := by
  intro k hk k' hk'
  obtain ⟨nameKey, w, hname, hw, hle⟩ := h k hk
  exact hle.trans (ha nameKey w (hn ▸ hname) hw k' hk')

variable [Hashlib]

/-- What an accepted signature says: it was checked against the key of the producer, if that is
known, and it was not missing or unchecked if it was required. -/
structure Vouched (v : Verifier) (d : Data) (required : Bool) : Prop where
  signed : d.signature.isSome = true → ∀ validate ∈ v.identities d.name.rnsAddr,
    d.verifySignature validate = .ok true
  required : required = true → d.signature.isSome = true ∧
    ∃ validate ∈ v.identities d.name.rnsAddr, d.verifySignature validate = .ok true

theorem checkSignature_accepted (h : v.checkSignature d requireSignature = .ok (v', .accepted)) :
    v.Vouched d (requireSignature.getD v.config.requireSignature) := by
  rw [checkSignature] at h
  by_cases hsig : d.signature.isSome = true
  · rw [if_pos hsig] at h
    cases hid : v.identities d.name.rnsAddr with
    | some validate =>
      rw [hid] at h
      obtain ⟨valid, hvalid, h⟩ := bind_eq_ok.mp h
      cases valid with
      | true =>
        refine ⟨fun _ validate' he => ?_, fun _ => ⟨hsig, validate, hid, hvalid⟩⟩
        obtain rfl := Option.some.inj (hid.symm.trans he)
        exact hvalid
      | false => simp at h
    | none =>
      rw [hid] at h
      simp only at h
      split at h
      · simp at h
      · rename_i hreq
        exact ⟨fun _ validate he => by simp [hid] at he, fun hr => absurd hr hreq⟩
  · rw [if_neg hsig] at h
    split at h
    · simp at h
    · rename_i hreq
      exact ⟨fun hs => absurd hs hsig, fun hr => absurd hr hreq⟩

theorem checkSignature_rises (h : v.checkSignature d requireSignature = .ok (v', verdict)) :
    v.Rises v' ∧ v'.seenSignedKey = v.seenSignedKey := by
  cases verdict with
  | accepted =>
    rcases checkSignature_eq_ok h with rfl | ⟨rfl, -⟩
    · exact ⟨.of_eq rfl rfl, rfl⟩
    · exact ⟨.refl _, rfl⟩
  | rejected e =>
    obtain rfl := checkSignature_rejected h
    exact ⟨.refl _, rfl⟩

theorem checkOrigin_rises (h : v.checkOrigin d requireSignature = .ok (v', verdict)) :
    v.Rises v' := by
  obtain ⟨⟨u, first⟩, hs, h⟩ := bind_eq_ok.mp h
  have hu := (checkSignature_rises hs).1
  cases first with
  | accepted => exact hu.trans (checkRollback_rises h)
  | rejected e =>
    obtain ⟨rfl, -⟩ := Prod.mk.inj (Except.ok.inj h)
    exact hu

/-- Data that passes the origin checks is vouched for, and neither it nor later Data goes back. -/
theorem checkOrigin_accepted (h : v.checkOrigin d requireSignature = .ok (v', .accepted)) :
    v.Vouched d (requireSignature.getD v.config.requireSignature) ∧
      (v.config.rejectRollback = true → v'.Covers d ∧ v.Admits d) := by
  obtain ⟨⟨u, first⟩, hs, h⟩ := bind_eq_ok.mp h
  cases first with
  | rejected e => simp at h
  | accepted =>
    obtain ⟨hrise, hseen⟩ := checkSignature_rises hs
    refine ⟨checkSignature_accepted hs, fun hreject => ?_⟩
    obtain ⟨hcov, hadm⟩ := checkRollback_accepted (hrise.config ▸ hreject) h
    exact ⟨hcov, fun nameKey w hn hw => hadm nameKey w hn (hseen ▸ hw)⟩

theorem checkFetched_rises {pin : Option Bytes}
    (h : v.checkFetched d pin requireSignature = .ok (v', verdict)) : v.Rises v' := by
  rw [checkFetched] at h
  split at h
  · obtain ⟨rfl, -⟩ := Prod.mk.inj (Except.ok.inj h)
    exact .refl _
  · split at h
    · obtain ⟨rfl, -⟩ := Prod.mk.inj (Except.ok.inj h)
      exact .refl _
    · exact checkOrigin_rises h

theorem checkFetched_accepted {pin : Option Bytes}
    (h : v.checkFetched d pin requireSignature = .ok (v', .accepted)) :
    (∀ h ∈ d.metadata.contentHash, blake2b d.content = h) ∧
      (∀ p ∈ pin, d.metadata.contentHash = some p) ∧
      v.checkOrigin d requireSignature = .ok (v', .accepted) := by
  rw [checkFetched] at h
  split at h
  · simp at h
  · rename_i hhash
    split at h
    · simp at h
    · rename_i hpin
      refine ⟨Data.verifyContentHash_iff.mp (by simpa using hhash), fun p hp => ?_, h⟩
      obtain rfl : pin = some p := hp
      simpa using hpin

theorem dispatchPush_rises (v : Verifier) (d : Data) (prefixes : List Name) :
    v.Rises (v.dispatchPush d prefixes) := by
  induction prefixes generalizing v with
  | nil => exact .refl v
  | cons p prefixes ih =>
    rw [dispatchPush]
    split
    · exact ih v
    · split
      · exact .refl v
      · split
        · rename_i h
          exact (checkOrigin_rises h).trans (ih _)
        · rename_i h
          exact checkOrigin_rises h
        · exact .refl v

def dispatched (v : Verifier) (d : Data) (prefixes : List Name) : List Name :=
  (v.dispatch d prefixes).1

theorem dispatched_ne_nil {prefixes : List Name} (h : v.dispatched d prefixes ≠ []) :
    d.verifyContentHash = true ∧ ∃ u, v.checkOrigin d none = .ok (u, .accepted) ∧
      u.Rises (v.dispatchPush d prefixes) := by
  induction prefixes with
  | nil => exact absurd rfl h
  | cons p prefixes ih =>
    rw [dispatched, dispatch] at h
    rw [dispatchPush]
    split at h
    · rename_i hno
      rw [if_pos hno]
      exact ih h
    · rename_i hmatch
      rw [if_neg hmatch]
      split at h
      · exact absurd rfl h
      · rename_i hhash
        rw [if_neg hhash]
        split at h
        · rename_i u hc
          rw [hc]
          exact ⟨by simpa using hhash, u, rfl, dispatchPush_rises u d prefixes⟩
        · exact absurd rfl h
        · exact absurd rfl h

end Verifier

/-- What the checks promise of accepted Data. -/
structure Acceptance.Sound [Hashlib] (a : Acceptance) : Prop where
  content : ∀ h ∈ a.data.metadata.contentHash, blake2b a.data.content = h
  pinned : ∀ pin ∈ a.pin, a.data.metadata.contentHash = some pin
  signed : a.data.signature.isSome = true → ∀ validate ∈ a.producer,
    a.data.verifySignature validate = .ok true
  required : a.required = true → a.data.signature.isSome = true ∧
    ∃ validate ∈ a.producer, a.data.verifySignature validate = .ok true

namespace Client

variable [Hashlib]

def fetchAccepted (s : Client) (f : FetchId) (d : Data) : Option Acceptance :=
  (s.fetches f).bind fun fetch =>
    let pin := fetch.request.name.contentHash
    let requireSignature := fetch.request.requireSignature
    match s.verifier.checkFetched d pin requireSignature with
    | .ok (_, .accepted) => some {
        data := d, pin
        required := requireSignature.getD s.verifier.config.requireSignature
        producer := s.verifier.identities d.name.rnsAddr }
    | _ => none

def pushAccepted (s : Client) (d : Data) : Option Acceptance :=
  if s.verifier.dispatched d s.subscriptions = [] then none
  else some {
    data := d
    required := s.verifier.config.requireSignature
    producer := s.verifier.identities d.name.rnsAddr }

/-- The Data that an event makes the client accept. -/
def accepted : Client × Feed × Client → Option Acceptance
  | (s, .own (.finish f), _) => (s.result f).bind (s.fetchAccepted f)
  | (s, .own (.forwarder (.receiveData d _ cacheUnsolicited)), _) =>
    if s.forwarder.reachesCallback d cacheUnsolicited then s.pushAccepted d else none
  | (s, .answered f d, _) => s.fetchAccepted f d
  | (s, .pushed d, _) => s.pushAccepted d
  | _ => none

def Returned (e : Client × Feed × Client) (r : FetchRequest) (d : Data) : Prop :=
  ∃ f fetch, e.1.fetches f ≠ some fetch ∧ e.2.2.fetches f = some fetch ∧ fetch.request = r ∧
    fetch.phase = .returned (some d)

/-- What the callbacks get at an event, each with the prefix that it is subscribed to. -/
def called : Client × Feed × Client → List (Name × Data)
  | (s, .own (.forwarder (.receiveData d _ cacheUnsolicited)), _) =>
    if s.forwarder.reachesCallback d cacheUnsolicited then
      (s.verifier.dispatched d s.subscriptions).map fun p => (p, s.maybeDecrypt d)
    else []
  | (s, .pushed d, _) =>
    (s.verifier.dispatched d s.subscriptions).map fun p => (p, s.maybeDecrypt d)
  | _ => []

def acceptance (s : Client) (d : Data) (pin : Option Bytes) (requireSignature : Option Bool) :
    Acceptance where
  data := d
  pin := pin
  required := requireSignature.getD s.verifier.config.requireSignature
  producer := s.verifier.identities d.name.rnsAddr

/-- At an event the fetches return, and the callbacks get, what the client accepts then and nothing
else. -/
structure HandedOut (e : Client × Feed × Client) : Prop where
  returned : ∀ r d', Returned e r d' → ∃ d, d' = e.1.maybeDecrypt d ∧
    accepted e = some (e.1.acceptance d r.name.contentHash r.requireSignature)
  called : ∀ x ∈ called e, ∃ d, x.2 = e.1.maybeDecrypt d ∧
    accepted e = some (e.1.acceptance d none none)
  accepted : ∀ a ∈ accepted e, (∃ r, Returned e r (e.1.maybeDecrypt a.data)) ∨
    ∃ p, (p, e.1.maybeDecrypt a.data) ∈ Client.called e

section Steps

variable {s t : Client} {d : Data} {a : Acceptance}

theorem fetchAccepted_sound {f : FetchId} {fetch : Fetch} (hf : s.fetches f = some fetch)
    (h : s.fetchAccepted f d = some a) (i : Interest) :
    a.Sound ∧ (s.verifier.config.rejectRollback = true →
      (s.checkResult f fetch i d).verifier.Covers a.data ∧ s.verifier.Admits a.data) := by
  rw [fetchAccepted, hf] at h
  simp only [Option.bind_some] at h
  rw [checkResult]
  split at h
  · rename_i v hc
    obtain rfl := Option.some.inj h
    obtain ⟨hhash, hpin, ho⟩ := Verifier.checkFetched_accepted hc
    obtain ⟨hvouched, hroll⟩ := Verifier.checkOrigin_accepted ho
    rw [hc]
    exact ⟨⟨hhash, hpin, hvouched.signed, hvouched.required⟩, hroll⟩
  · cases h

theorem pushAccepted_sound (h : s.pushAccepted d = some a) :
    a.Sound ∧ (s.verifier.config.rejectRollback = true →
      (s.verifier.dispatchPush d s.subscriptions).Covers a.data ∧ s.verifier.Admits a.data) := by
  rw [pushAccepted] at h
  split at h
  · cases h
  · rename_i hne
    obtain rfl := Option.some.inj h
    obtain ⟨hhash, u, ho, hrise⟩ := Verifier.dispatched_ne_nil hne
    obtain ⟨hvouched, hroll⟩ := Verifier.checkOrigin_accepted ho
    refine ⟨⟨Data.verifyContentHash_iff.mp hhash, nofun, hvouched.signed, hvouched.required⟩, ?_⟩
    exact fun hreject => ⟨(hroll hreject).1.rises hrise, (hroll hreject).2⟩

theorem checkResult_rises (s : Client) (f : FetchId) (fetch : Fetch) (i : Interest) (d : Data) :
    s.verifier.Rises (s.checkResult f fetch i d).verifier := by
  rw [checkResult]
  split
  · exact .refl _
  · rename_i hc
    exact Verifier.checkFetched_rises hc
  · rename_i hc
    exact Verifier.checkFetched_rises hc

theorem observe_rises (s : Client) (l : Forwarder.Label) : s.verifier.Rises (s.observe l) := by
  cases l with
  | receiveData d inFace unsolicited =>
    rw [observe]
    split
    · exact Verifier.dispatchPush_rises ..
    · exact .refl _
  | _ => exact .refl _

theorem feed_rises {l : Feed} (hs : s.feed l = some t) : s.verifier.Rises t.verifier := by
  cases l with
  | own l =>
    have hver := step_verifies hs
    generalize t.verifier = v at hver
    cases hver with
    | checked => exact checkResult_rises ..
    | observed => exact observe_rises ..
    | announced => exact .of_eq rfl rfl
    | same => exact .refl _
  | answered f d =>
    obtain ⟨fetch, -, hs⟩ := Option.bind_eq_some_iff.mp hs
    split at hs
    · obtain ⟨call, -, rfl⟩ := Option.map_eq_some_iff.mp hs
      exact checkResult_rises ..
    · cases hs
  | pushed d =>
    obtain rfl := Option.some.inj hs
    exact Verifier.dispatchPush_rises ..

/-- What an event makes the client accept has passed the checks and is covered from then on. -/
theorem accepted_step {l : Feed} (hs : s.feed l = some t) (h : accepted (s, l, t) = some a) :
    a.Sound ∧ (s.verifier.config.rejectRollback = true →
      t.verifier.Covers a.data ∧ s.verifier.Admits a.data) := by
  cases l with
  | own l =>
    cases l with
    | finish f =>
      obtain ⟨d, hd, h⟩ := Option.bind_eq_some_iff.mp h
      obtain ⟨fetch, hf, hs⟩ := Option.bind_eq_some_iff.mp hs
      rw [result, hf] at hd
      simp only [Option.bind_some] at hd
      split at hs
      · rename_i c deadline hp
        rw [hp] at hd
        obtain ⟨call, hc, hs⟩ := Option.bind_eq_some_iff.mp hs
        simp only [hc, Option.bind_some] at hd
        split at hs
        · rename_i d' hphase
          obtain rfl : d' = d := by simpa [hphase] using hd
          exact Option.some.inj hs ▸ fetchAccepted_sound hf h call.interest
        · rename_i hphase
          simp [hphase] at hd
        · rename_i hphase
          simp [hphase] at hd
        · cases hs
      · cases hs
    | forwarder l =>
      cases l with
      | receiveData d inFace unsolicited =>
        have hs : (s.forwarder.step (.receiveData d inFace unsolicited)).map (fun forwarder =>
            ({ s with
              forwarder
              verifier := s.observe (.receiveData d inFace unsolicited) } : Client)) = some t := hs
        obtain ⟨fw, -, rfl⟩ := Option.map_eq_some_iff.mp hs
        simp only [accepted] at h
        split at h
        · rename_i hreach
          have hsub : s.subscriptions ≠ [] := by
            rintro he
            rw [pushAccepted, he] at h
            simp [Verifier.dispatched, Verifier.dispatch] at h
          have hobs : s.observe (.receiveData d inFace unsolicited) =
              s.verifier.dispatchPush d s.subscriptions := by
            rw [observe, if_pos (by simp [hreach, hsub])]
          simp only [hobs]
          exact pushAccepted_sound h
        · cases h
      | _ => cases h
    | _ => cases h
  | answered f d =>
    obtain ⟨fetch, hf, hs⟩ := Option.bind_eq_some_iff.mp hs
    split at hs
    · obtain ⟨call, -, rfl⟩ := Option.map_eq_some_iff.mp hs
      exact fetchAccepted_sound hf h call.interest
    · cases hs
  | pushed d =>
    obtain rfl := Option.some.inj hs
    exact pushAccepted_sound h

theorem accepted_of_asked {l : Feed} {r : FetchRequest} {v : Verifier}
    (ha : s.asked l = some r) (he : s.expressed l = some (r.name, d))
    (hc : s.verifier.checkFetched d r.name.contentHash r.requireSignature = .ok (v, .accepted)) :
    accepted (s, l, t) = some (s.acceptance d r.name.contentHash r.requireSignature) := by
  have hof {f : FetchId} {fetch : Fetch} (hf : s.fetches f = some fetch)
      (hr : fetch.request = r) : s.fetchAccepted f d =
        some (s.acceptance d r.name.contentHash r.requireSignature) := by
    subst hr
    simp only [fetchAccepted, hf, Option.bind_some, hc, acceptance]
  cases l with
  | own l =>
    cases l with
    | finish f =>
      obtain ⟨fetch, hf, hr⟩ := Option.map_eq_some_iff.mp ha
      simp only [expressed, hf, Option.bind_some] at he
      obtain ⟨d', hd', hx⟩ := Option.map_eq_some_iff.mp he
      obtain ⟨-, rfl⟩ := Prod.mk.inj hx
      simp only [accepted, hd', Option.bind_some]
      exact hof hf hr
    | _ => cases ha
  | answered f e =>
    obtain ⟨fetch, hf, hr⟩ := Option.map_eq_some_iff.mp ha
    simp only [expressed, hf, Option.bind_some] at he
    split at he
    · obtain ⟨-, rfl⟩ := Prod.mk.inj (Option.some.inj he)
      exact hof hf hr
    · cases he
  | pushed e => cases ha

/-- Data that a fetch returns is accepted at that event for the request of the fetch. -/
theorem returned_accepted {l : Feed} {r : FetchRequest} (hs : s.feed l = some t)
    (h : Returned (s, l, t) r d) : ∃ d', d = s.maybeDecrypt d' ∧
      accepted (s, l, t) = some (s.acceptance d' r.name.contentHash r.requireSignature) := by
  obtain ⟨f, fetch, hne, hf, rfl, hp⟩ := h
  have hne : s.fetches f ≠ some fetch := hne
  have hf : t.fetches f = some fetch := hf
  have hfetches := feed_fetches hs
  generalize t.fetches = fetches, t.nextFetch = next at hfetches hf
  cases hfetches with
  | same => exact absurd hf hne
  | @advances g fetch₀ fetch' hg ha =>
    rw [Function.update_apply] at hf
    split at hf
    · rename_i hfg
      obtain rfl := Option.some.inj hf
      cases ha with
      | same => exact absurd (hfg ▸ hg) hne
      | goesOn hgo => exact absurd hp (hgo.phase d)
      | accepts hacc hasked =>
        obtain rfl := Option.some.inj (FetchPhase.returned.inj hp)
        obtain ⟨e, v, he, rfl, hcheck⟩ := hacc
        exact ⟨e, rfl, accepted_of_asked hasked he hcheck⟩
    · exact absurd hf hne
  | started =>
    rw [Function.update_apply] at hf
    split at hf
    · obtain rfl := Option.some.inj hf
      cases hp
    · exact absurd hf hne

theorem pushAccepted_of_mem {p : Name} (hp : p ∈ s.verifier.dispatched d s.subscriptions) :
    s.pushAccepted d = some (s.acceptance d none none) :=
  if_neg (List.ne_nil_of_mem hp)

theorem called_accepted {l : Feed} {x : Name × Data} (hx : x ∈ called (s, l, t)) :
    ∃ d, x.2 = s.maybeDecrypt d ∧ accepted (s, l, t) = some (s.acceptance d none none) := by
  cases l with
  | own l =>
    cases l with
    | forwarder l =>
      cases l with
      | receiveData d inFace unsolicited =>
        simp only [called] at hx
        split at hx
        · rename_i hreach
          obtain ⟨p, hp, rfl⟩ := List.mem_map.mp hx
          exact ⟨d, rfl, (if_pos hreach).trans (pushAccepted_of_mem hp)⟩
        · cases hx
      | _ => cases hx
    | _ => cases hx
  | answered f d => cases hx
  | pushed d =>
    obtain ⟨p, hp, rfl⟩ := List.mem_map.mp hx
    exact ⟨d, rfl, pushAccepted_of_mem hp⟩

theorem checkResult_returned {l : Feed} {f : FetchId} {fetch : Fetch} {c : CallId} {deadline : ℕ}
    (hf : s.fetches f = some fetch) (hp : fetch.phase = .expressing c deadline)
    (h : s.fetchAccepted f d = some a) (i : Interest) :
    Returned (s, l, s.checkResult f fetch i d) fetch.request (s.maybeDecrypt a.data) := by
  rw [fetchAccepted, hf] at h
  simp only [Option.bind_some] at h
  split at h
  · rename_i v hc
    obtain rfl := Option.some.inj h
    rw [checkResult, hc]
    refine ⟨f, { fetch with phase := .returned (some (s.maybeDecrypt d)) }, fun he => ?_,
      Function.update_self .., rfl, rfl⟩
    have hphase := congrArg Fetch.phase (Option.some.inj (hf.symm.trans he))
    rw [hp] at hphase
    cases hphase
  · cases h

theorem accepted_handed {l : Feed} (hs : s.feed l = some t) (h : accepted (s, l, t) = some a) :
    (∃ r, Returned (s, l, t) r (s.maybeDecrypt a.data)) ∨
      ∃ p, (p, s.maybeDecrypt a.data) ∈ called (s, l, t) := by
  have hpushed {d : Data} (h : s.pushAccepted d = some a) :
      ∃ p, (p, s.maybeDecrypt a.data) ∈
        (s.verifier.dispatched d s.subscriptions).map fun p => (p, s.maybeDecrypt d) := by
    rw [pushAccepted] at h
    split at h
    · cases h
    · rename_i hne
      obtain rfl := Option.some.inj h
      obtain ⟨p, hp⟩ := List.exists_mem_of_ne_nil _ hne
      exact ⟨p, List.mem_map.mpr ⟨p, hp, rfl⟩⟩
  cases l with
  | own l =>
    cases l with
    | finish f =>
      obtain ⟨d, hd, h⟩ := Option.bind_eq_some_iff.mp h
      obtain ⟨fetch, hf, hs⟩ := Option.bind_eq_some_iff.mp hs
      rw [result, hf] at hd
      simp only [Option.bind_some] at hd
      split at hs
      · rename_i c deadline hp
        rw [hp] at hd
        obtain ⟨call, hc, hs⟩ := Option.bind_eq_some_iff.mp hs
        simp only [hc, Option.bind_some] at hd
        split at hs
        · rename_i d' hphase
          obtain rfl : d' = d := by simpa [hphase] using hd
          exact .inl ⟨fetch.request, Option.some.inj hs ▸ checkResult_returned hf hp h _⟩
        · rename_i hphase
          simp [hphase] at hd
        · rename_i hphase
          simp [hphase] at hd
        · cases hs
      · cases hs
    | forwarder l =>
      cases l with
      | receiveData d inFace unsolicited =>
        simp only [accepted] at h
        split at h
        · rename_i hreach
          simp only [called, if_pos hreach]
          exact .inr (hpushed h)
        · cases h
      | _ => cases h
    | _ => cases h
  | answered f d =>
    obtain ⟨fetch, hf, hs⟩ := Option.bind_eq_some_iff.mp hs
    split at hs
    · rename_i c deadline hp
      obtain ⟨call, -, rfl⟩ := Option.map_eq_some_iff.mp hs
      exact .inl ⟨fetch.request, checkResult_returned hf hp h _⟩
    · cases hs
  | pushed d => exact .inr (hpushed h)

/-- Whatever the network feeds to a client, its fetches return and its callbacks get what it
accepts and nothing else. That has passed the checks, and the versions that it accepts under a name
do not go back when it rejects rollbacks. -/
theorem accepted_sound {ls : List Feed} (h : Run feed anyStep s ls t) :
    (∀ e ∈ trace feed s ls, HandedOut e) ∧
      (∀ a ∈ observed feed accepted s ls, a.Sound) ∧
      (s.verifier.config.rejectRollback = true →
        (observed feed accepted s ls).Pairwise fun a b => a.data.name = b.data.name →
          ∀ k ∈ a.data.freshnessKey, ∀ k' ∈ b.data.freshnessKey, toLex k ≤ toLex k') := by
  refine ⟨fun e he => ?_, fun a ha => ?_, fun hreject => ?_⟩
  · have hs : e.1.feed e.2.1 = some e.2.2 := (h.of_mem_trace he).2
    exact ⟨fun r d' hr => returned_accepted hs hr, fun x hx => called_accepted hx,
      fun a ha => accepted_handed hs ha⟩
  · obtain ⟨u, l, v, -, hs, ha⟩ := h.of_mem_observed ha
    exact (accepted_step hs ha).1
  · have hrun := h.with_invariant (I := fun s => s.verifier.config.rejectRollback = true) hreject
      fun u l v hi _ hs => (congrArg ClientConfig.rejectRollback (feed_rises hs).config).trans hi
    refine hrun.observed_pairwise (fun a u => u.verifier.Covers a.data) ?_ ?_ ?_
    · exact fun u l v a hok hs ha => ((accepted_step hs ha).2 hok.1).1
    · exact fun u l v a _ hs hcov => hcov.rises (feed_rises hs)
    · exact fun u l v a b hok hs hcov hb => hcov.le ((accepted_step hs hb).2 hok.1).2

end Steps

def renewed : Data := stamped 7 (producerSignature (stamped 7 []))

/-- The producer becomes known, then its Data is pushed, an older one last. -/
def pushes : List Feed :=
  [.own (.announce Forwarder.relayName.rnsAddr producerKey), .pushed genuine, .pushed renewed,
    .pushed genuine]

omit [Hashlib] in
theorem older_push_refused :
    letI := Data.paddedHash
    (observed feed accepted subscriber pushes).map Acceptance.data = [genuine, renewed] ∧
      (∀ e ∈ trace feed subscriber pushes, HandedOut e) ∧
      ∀ a ∈ observed feed accepted subscriber pushes, a.Sound :=
  letI := Data.paddedHash
  have hrun : Run feed anyStep subscriber pushes _ := run_of_exec rfl
  ⟨rfl, (accepted_sound hrun).1, (accepted_sound hrun).2.1⟩

end Client

end RnsIcn
