import RnsIcn.Client.Fetch
import RnsIcn.Forwarder.Delivery

/-! # A client and its network

The network answers an attempt with anything or pushes anything. What an event makes of the
fetches is one of a few changes: a fetch goes on, or it returns what has passed the checks.
-/

namespace RnsIcn

open EventLoop

namespace Forwarder

variable {s : Forwarder} {c : CallId}

theorem cancel_cases (s : Forwarder) (c : CallId) : s.cancel c = s ∨
    ∃ call r, s.loop.calls c = some call ∧ (r = s.loop ∨ ∃ fut, r = s.loop.giveUp fut) ∧
      s.cancel c =
        { s with loop := r.setCall c { call with phase := .raised .cancelledError } } := by
  rw [cancel]
  cases hc : s.loop.calls c with
  | none => exact .inl rfl
  | some call =>
    cases hp : call.phase with
    | scheduled | sending => exact .inr ⟨call, _, rfl, .inl rfl, by simp only [hp]⟩
    | waiting _ _ fut | aggregated fut =>
      exact .inr ⟨call, _, rfl, .inr ⟨fut, rfl⟩, by simp only [hp]⟩
    | returned | raised => exact .inl (by simp only [hp])

theorem consistent_cancel (h : s.Consistent) (c : CallId) : (s.cancel c).Consistent := by
  rcases s.cancel_cases c with he | ⟨call, r, hc, hr, he⟩
  · rw [he]
    exact h
  · rw [he]
    refine ⟨?_, h.hashFree⟩
    have hlt := h.loop.lt hc
    rcases hr with rfl | ⟨fut, rfl⟩
    · exact h.loop.setCall hlt rfl
    · exact (h.loop.giveUp fut).setCall hlt rfl

end Forwarder

namespace Fetch

structure GoesOn (f f' : Fetch) : Prop where
  request : f'.request = f.request
  phase : ∀ d, f'.phase ≠ .returned (some d)

variable {f f' : Fetch}

theorem goesOn_exhausted (h : f'.request = f.request) : f.GoesOn f'.exhausted := by
  refine ⟨h, fun d => ?_⟩
  rw [exhausted]
  split
  · split <;> simp
  · simp

theorem goesOn_goOn (h : f'.request = f.request) : f.GoesOn f'.goOn := by
  rw [goOn]
  split
  · exact ⟨h, nofun⟩
  · exact goesOn_exhausted h

theorem goesOn_backOff (h : f'.request = f.request) : f.GoesOn f'.backOff := by
  rw [backOff]
  split
  · exact ⟨h, nofun⟩
  · exact goesOn_exhausted h

theorem goesOn_fail (e : PyError) : f.GoesOn (f.fail e) := goesOn_backOff rfl

end Fetch

namespace Client

/-- The events of a client whose network answers an attempt with anything, or pushes anything. -/
inductive Feed where
  | own (l : Label)
  | answered (f : FetchId) (d : Data)
  | pushed (d : Data)

variable [Hashlib]

/-- `express` returns `d` to an attempt. -/
def answered (s : Client) (f : FetchId) (d : Data) : Option Client :=
  (s.fetches f).bind fun fetch =>
    match fetch.phase with
    | .expressing c _ =>
      (s.forwarder.loop.calls c).map fun call => s.checkResult f fetch call.interest d
    | _ => none

def feed (s : Client) : Feed → Option Client
  | .own l => s.step l
  | .answered f d => s.answered f d
  | .pushed d => some { s with verifier := s.verifier.dispatchPush d s.subscriptions }

/-- The Data that the call of an attempt has returned. -/
def result (s : Client) (f : FetchId) : Option Data :=
  (s.fetches f).bind fun fetch =>
    match fetch.phase with
    | .expressing c _ =>
      (s.forwarder.loop.calls c).bind fun call =>
        match call.phase with
        | .returned d => d
        | _ => none
    | _ => none

/-- The Data that `express` returns to an attempt in an event, with the name that was asked for. -/
def expressed (s : Client) : Feed → Option (Name × Data)
  | .own (.finish f) =>
    (s.fetches f).bind fun fetch => (s.result f).map fun d => (fetch.request.name, d)
  | .answered f d =>
    (s.fetches f).bind fun fetch =>
      match fetch.phase with
      | .expressing .. => some (fetch.request.name, d)
      | _ => none
  | _ => none

def asked (s : Client) : Feed → Option FetchRequest
  | .own (.finish f) => (s.fetches f).map Fetch.request
  | .answered f _ => (s.fetches f).map Fetch.request
  | _ => none

variable {s t : Client} {f g : FetchId} {fetch : Fetch}

/-- `d` is made of what `express` has returned for the name of the request and what has passed the
checks. -/
def Accepts (s : Client) (l : Feed) (r : FetchRequest) (d : Data) : Prop :=
  ∃ e v, s.expressed l = some (r.name, e) ∧ d = s.maybeDecrypt e ∧
    s.verifier.checkFetched e r.name.contentHash r.requireSignature = .ok (v, .accepted)

inductive Advances (s : Client) (l : Feed) (fetch : Fetch) : Fetch → Prop where
  | same : Advances s l fetch fetch
  | goesOn {fetch' : Fetch} : fetch.GoesOn fetch' → Advances s l fetch fetch'
  | accepts {d : Data} : s.Accepts l fetch.request d → s.asked l = some fetch.request →
      Advances s l fetch { fetch with phase := .returned (some d) }

/-- What an event makes of the fetches of a client and of the number of the next one. -/
inductive Fetches (s : Client) (l : Feed) : (FetchId → Option Fetch) → FetchId → Prop where
  | same : Fetches s l s.fetches s.nextFetch
  | advances {g : FetchId} {fetch fetch' : Fetch} : s.fetches g = some fetch →
      Advances s l fetch fetch' →
      Fetches s l (Function.update s.fetches g (some fetch')) s.nextFetch
  | started {request : FetchRequest} :
      Fetches s l (Function.update s.fetches s.nextFetch (some { request })) (s.nextFetch + 1)

variable {l : Feed} {d : Data}

theorem checkResult_fetches (i : Interest) (hf : s.fetches f = some fetch)
    (he : s.expressed l = some (fetch.request.name, d)) (ha : s.asked l = some fetch.request) :
    Fetches s l (s.checkResult f fetch i d).fetches (s.checkResult f fetch i d).nextFetch := by
  rw [checkResult]
  split
  · exact .advances hf (.goesOn (Fetch.goesOn_fail _))
  · exact .advances hf (.goesOn (Fetch.goesOn_goOn rfl))
  · rename_i v hc
    exact .advances hf (.accepts ⟨d, v, he, rfl, hc⟩ ha)

theorem step_forwarder {l : Label} (hs : s.step l = some t) : t.forwarder = s.forwarder ∨
    (∃ fl, l = .forwarder fl ∧ s.forwarder.step fl = some t.forwarder) ∨
    (∃ c, t.forwarder = s.forwarder.cancel c) ∨
    ∃ producer face i nonce, t.forwarder = (s.route producer face).express i face nonce := by
  have hcheck (g : FetchId) (fetch : Fetch) (i : Interest) (d : Data) :
      (s.checkResult g fetch i d).forwarder = s.forwarder := by
    rw [checkResult]
    split <;> rfl
  cases l with
  | forwarder fl =>
    obtain ⟨fw, hfw, rfl⟩ := Option.map_eq_some_iff.mp hs
    exact .inr (.inl ⟨fl, rfl, hfw⟩)
  | attempt g face nonce refreshNonce =>
    obtain ⟨fetch, -, hs⟩ := Option.bind_eq_some_iff.mp hs
    split at hs
    · obtain rfl := Option.some.inj hs
      rw [beginAttempt]
      split
      · exact .inl rfl
      · exact .inr (.inr (.inr ⟨_, _, _, _, rfl⟩))
    · cases hs
  | expire g =>
    obtain ⟨fetch, -, hs⟩ := Option.bind_eq_some_iff.mp hs
    split at hs
    · rename_i c deadline hp
      obtain ⟨-, hs⟩ := Option.ite_none_right_eq_some.mp hs
      exact .inr (.inr (.inl ⟨c, Option.some.inj hs ▸ rfl⟩))
    · cases hs
  | finish g =>
    obtain ⟨fetch, -, hs⟩ := Option.bind_eq_some_iff.mp hs
    split at hs
    · obtain ⟨call, -, hs⟩ := Option.bind_eq_some_iff.mp hs
      split at hs
      · exact .inl (Option.some.inj hs ▸ hcheck ..)
      · exact .inl (Option.some.inj hs ▸ rfl)
      · exact .inl (Option.some.inj hs ▸ rfl)
      · cases hs
    · cases hs
  | linkFailed g | wake g =>
    obtain ⟨fetch, -, hs⟩ := Option.bind_eq_some_iff.mp hs
    split at hs
    · exact .inl (Option.some.inj hs ▸ rfl)
    · cases hs
  | fetch | announce | subscribe => exact .inl (Option.some.inj hs ▸ rfl)

theorem step_consistent {l : Label} (h : s.forwarder.Consistent) (hs : s.step l = some t) :
    t.forwarder.Consistent := by
  rcases step_forwarder hs with he | ⟨fl, -, hfw⟩ | ⟨c, he⟩ | ⟨producer, face, i, nonce, he⟩
  · rw [he]
    exact h
  · exact Forwarder.step_consistent hfw h
  · rw [he]
    exact Forwarder.consistent_cancel h c
  · have hroute : (s.route producer face).Consistent := ⟨h.loop, h.hashFree⟩
    rw [he]
    exact Forwarder.step_consistent (l := .express i face nonce) rfl hroute

theorem step_fetches {l : Label} (hs : s.step l = some t) :
    Fetches s (.own l) t.fetches t.nextFetch := by
  cases l with
  | forwarder l =>
    obtain ⟨fw, -, rfl⟩ := Option.map_eq_some_iff.mp hs
    exact .same
  | fetch request =>
    obtain rfl := Option.some.inj hs
    exact .started
  | attempt f face nonce refreshNonce =>
    obtain ⟨fetch, hf, hs⟩ := Option.bind_eq_some_iff.mp hs
    split at hs
    · obtain rfl := Option.some.inj hs
      rw [beginAttempt]
      split
      · exact .advances hf (.goesOn (Fetch.goesOn_fail _))
      · refine .advances hf (.goesOn ⟨rfl, ?_⟩)
        rintro _ ⟨⟩
    · cases hs
  | linkFailed f e =>
    obtain ⟨fetch, hf, hs⟩ := Option.bind_eq_some_iff.mp hs
    split at hs
    · obtain rfl := Option.some.inj hs
      exact .advances hf (.goesOn (Fetch.goesOn_fail _))
    · cases hs
  | finish f =>
    obtain ⟨fetch, hf, hs⟩ := Option.bind_eq_some_iff.mp hs
    split at hs
    · rename_i c deadline hp
      obtain ⟨call, hc, hs⟩ := Option.bind_eq_some_iff.mp hs
      split at hs
      · rename_i d hd
        have he : s.expressed (.own (.finish f)) = some (fetch.request.name, d) := by
          simp [expressed, result, hf, hp, hc, hd]
        exact Option.some.inj hs ▸ checkResult_fetches call.interest hf he (by simp [asked, hf])
      · exact Option.some.inj hs ▸ .advances hf (.goesOn (Fetch.goesOn_backOff rfl))
      · exact Option.some.inj hs ▸ .advances hf (.goesOn (Fetch.goesOn_fail _))
      · cases hs
    · cases hs
  | expire f =>
    obtain ⟨fetch, hf, hs⟩ := Option.bind_eq_some_iff.mp hs
    split at hs
    · split at hs
      · exact Option.some.inj hs ▸ .advances hf (.goesOn (Fetch.goesOn_fail _))
      · cases hs
    · cases hs
  | wake f =>
    obtain ⟨fetch, hf, hs⟩ := Option.bind_eq_some_iff.mp hs
    split at hs
    · obtain rfl := Option.some.inj hs
      refine .advances hf (.goesOn ⟨rfl, ?_⟩)
      rintro _ ⟨⟩
    · cases hs
  | announce addr validate =>
    obtain rfl := Option.some.inj hs
    exact .same
  | subscribe namePrefix =>
    obtain rfl := Option.some.inj hs
    exact .same

theorem feed_fetches (hs : s.feed l = some t) : Fetches s l t.fetches t.nextFetch := by
  cases l with
  | own l => exact step_fetches hs
  | answered f d =>
    obtain ⟨fetch, hf, hs⟩ := Option.bind_eq_some_iff.mp hs
    split at hs
    · rename_i c deadline hp
      obtain ⟨call, -, rfl⟩ := Option.map_eq_some_iff.mp hs
      exact checkResult_fetches call.interest hf (by simp [expressed, hf, hp])
        (by simp [asked, hf])
    · cases hs
  | pushed d =>
    obtain rfl := Option.some.inj hs
    exact .same

/-- A fetch that was started before goes on or returns what has passed the checks. -/
theorem feed_advances (hs : s.feed l = some t) (hlt : f < s.nextFetch)
    (hf : s.fetches f = some fetch) : f < t.nextFetch ∧ ∃ fetch', t.fetches f = some fetch' ∧
      Advances s l fetch fetch' := by
  have h := feed_fetches hs
  generalize t.fetches = fetches, t.nextFetch = next at h
  cases h with
  | same => exact ⟨hlt, fetch, hf, .same⟩
  | @advances g _ fetch' hg ha =>
    refine ⟨hlt, ?_⟩
    rw [Function.update_apply]
    by_cases he : f = g
    · subst he
      obtain rfl := Option.some.inj (hf.symm.trans hg)
      exact ⟨fetch', if_pos rfl, ha⟩
    · exact ⟨fetch, (if_neg he).trans hf, .same⟩
  | started =>
    exact ⟨hlt.trans (Nat.lt_succ_self _), fetch,
      (Function.update_of_ne hlt.ne _ _).trans hf, .same⟩

end Client

end RnsIcn
