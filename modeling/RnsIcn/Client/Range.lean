import RnsIcn.Client.Latest
import RnsIcn.Forwarder.Attribution

/-! # A walk over the editions of a collection

A client asks for the oldest edition at or above a floor, moves the floor past the
answer and asks again. The caller is handed each edition before the next one is asked
for.
-/

namespace RnsIcn

open Transition Fallible EventLoop

/-- The arguments of `fetch_range`; `collection` is the `prefix` of the source. -/
structure RangeRequest where
  collection : Name
  startSequence : ℕ := 0
  maxItems : Option ℕ := none
  timeoutMs : ℕ := 30000
  maxRetries : ℕ := 5
  deriving DecidableEq, Repr

/-- The request for the oldest edition at or above `minSeq`. -/
def RangeRequest.request (r : RangeRequest) (minSeq : ℕ) : FetchRequest where
  name := r.collection
  timeoutMs := r.timeoutMs
  maxRetries := r.maxRetries
  canBePrefix := true
  selector := some { child := .oldest, minSequence := some minSeq }
  raiseOnFailure := false

/-- Where a call of `fetch_range` is suspended, or how it ended. -/
inductive RangePhase where
  | idle
  | fetching (r : RangeRequest) (minSeq : ℕ) (f : FetchId)
  | yielding (r : RangeRequest) (minSeq : ℕ)
  | ended (r : RangeRequest)
  | raised (e : PyError)
  deriving DecidableEq, Repr

/-- A client with one call of `fetch_range` and the Data that it has yielded, oldest first. -/
structure RangeCall where
  client : Client
  access : Access := {}
  phase : RangePhase := .idle
  yielded : List Data := []

namespace RangeCall

/-- The head of the loop. -/
def loop (s : RangeCall) (r : RangeRequest) (minSeq : ℕ) : RangeCall :=
  if r.maxItems.all (s.yielded.length < ·) then
    { s with
      client := s.client.startFetch (r.request minSeq)
      phase := .fetching r minSeq s.client.nextFetch }
  else { s with phase := .ended r }

def call (s : RangeCall) (r : RangeRequest) : Option RangeCall :=
  match s.phase with
  | .idle => some (s.loop r r.startSequence)
  | _ => none

/-- The body of the loop after the fetch has ended, up to `yield`. -/
def resume (s : RangeCall) : Option RangeCall :=
  match s.phase with
  | .fetching r minSeq f =>
    (s.client.fetches f).bind fun fetch =>
      match fetch.phase with
      | .returned none => some { s with phase := .ended r }
      | .returned (some d) =>
        match d.metadata.sequence with
        | none => some { s with phase := .ended r }
        | some seq =>
          if seq < minSeq then some { s with phase := .ended r }
          else some { s with phase := .yielding r (seq + 1), yielded := s.yielded ++ [d] }
      | .raised e => some { s with phase := .raised e }
      | _ => none
  | _ => none

def advance (s : RangeCall) : Option RangeCall :=
  match s.phase with
  | .yielding r minSeq => some (s.loop r minSeq)
  | _ => none

inductive Label where
  | call (r : RangeRequest)
  | client (now : ℕ) (l : Client.Label)
  | resume
  | advance

variable [Hashlib]

def clientAt (s : RangeCall) (now : ℕ) : Client :=
  { s.client with maybeDecrypt := s.access.maybeDecrypt s.client.verifier.identities now }

def step (s : RangeCall) : Label → Option RangeCall
  | .call r => s.call r
  | .client now l => ((s.clientAt now).step l).map fun client => { s with client }
  | .resume => s.resume
  | .advance => s.advance

end RangeCall

/-- The walk has been at `xs` since `start` and has passed over none of `B` below `floor`. -/
structure Walked (B : List ℕ) (start : ℕ) (xs : List ℕ) (floor : ℕ) : Prop where
  increasing : xs.Pairwise (· < ·)
  within : ∀ x ∈ xs, start ≤ x ∧ x < floor
  all : ∀ b ∈ B, start ≤ b → b < floor → b ∈ xs
  moved : start + xs.length ≤ floor

/-- `d` is at or above the floor and passes over none of `B`, if any is left there. -/
def NextAfter (B : List ℕ) (floor : ℕ) (d : Data) : Prop :=
  ∀ b ∈ B, floor ≤ b → ∃ seq ∈ d.metadata.sequence, floor ≤ seq ∧ seq ≤ b

section Walked

variable {B xs : List ℕ} {start floor seq : ℕ}

theorem Walked.nil (B : List ℕ) (start : ℕ) : Walked B start [] start where
  increasing := .nil
  within := nofun
  all _ _ hle hlt := absurd hlt (not_lt.mpr hle)
  moved := le_rfl

theorem Walked.snoc (h : Walked B start xs floor) (hle : floor ≤ seq)
    (hnext : ∀ b ∈ B, floor ≤ b → seq ≤ b) : Walked B start (xs ++ [seq]) (seq + 1) where
  increasing := by
    refine List.pairwise_append.mpr ⟨h.increasing, List.pairwise_singleton _ _, ?_⟩
    intro x hx y hy
    obtain rfl := List.mem_singleton.mp hy
    exact (h.within x hx).2.trans_le hle
  within x hx := by
    have hstart : start ≤ floor := (Nat.le_add_right _ _).trans h.moved
    rcases List.mem_append.mp hx with hx | hx
    · exact ⟨(h.within x hx).1, ((h.within x hx).2.trans_le hle).trans (Nat.lt_succ_self _)⟩
    · obtain rfl := List.mem_singleton.mp hx
      exact ⟨hstart.trans hle, Nat.lt_succ_self _⟩
  all b hb hs hlt := by
    rcases lt_or_ge b floor with hf | hf
    · exact List.mem_append_left _ (h.all b hb hs hf)
    · have he : b = seq := le_antisymm (Nat.lt_succ_iff.mp hlt) (hnext b hb hf)
      exact List.mem_append_right _ (List.mem_singleton.mpr he)
  moved := by
    have hmoved := h.moved
    rw [List.length_append, List.length_singleton]
    omega

end Walked

namespace Fetch

theorem exhausted_not_expressing (f : Fetch) (c : CallId) (deadline : ℕ) :
    f.exhausted.phase ≠ .expressing c deadline := by
  rw [exhausted]
  split
  · split <;> simp
  · simp

theorem backOff_not_expressing (f : Fetch) (c : CallId) (deadline : ℕ) :
    f.backOff.phase ≠ .expressing c deadline := by
  rw [backOff]
  split
  · simp
  · exact f.exhausted_not_expressing c deadline

theorem goOn_not_expressing (f : Fetch) (c : CallId) (deadline : ℕ) :
    f.goOn.phase ≠ .expressing c deadline := by
  rw [goOn]
  split
  · simp
  · exact f.exhausted_not_expressing c deadline

end Fetch

namespace Forwarder

variable {s : Forwarder} {c c' : CallId} {call : Call} {d : Data}

theorem calls_cancel (hc : s.loop.calls c = some call) (c' : CallId) :
    ∃ call', (s.cancel c').loop.calls c = some call' ∧ call'.interest = call.interest ∧
      ∀ d, Got d c (s.cancel c').loop → Got d c s.loop := by
  rcases s.cancel_cases c' with he | ⟨gone, r, hgone, hr, he⟩
  · rw [he]
    exact ⟨call, hc, rfl, fun _ hg => hg⟩
  · rw [he]
    have hcalls : r.calls = s.loop.calls := by rcases hr with rfl | ⟨fut, rfl⟩ <;> rfl
    have hset := calls_setCall r c' c { gone with phase := .raised .cancelledError }
    by_cases hcc : c = c'
    · subst hcc
      obtain rfl := Option.some.inj (hgone.symm.trans hc)
      rw [if_pos rfl] at hset
      refine ⟨_, hset, rfl, ?_⟩
      rintro d ⟨call', hcall, hp⟩
      obtain rfl := Option.some.inj (hset.symm.trans hcall)
      rcases hp with hp | ⟨fut, hf, -⟩ <;> cases ‹_›
    · rw [if_neg hcc, hcalls] at hset
      refine ⟨call, hset.trans hc, rfl, ?_⟩
      rintro d ⟨call', hcall, hp⟩
      refine ⟨call', hset.symm.trans hcall, hp.imp_right ?_⟩
      rintro ⟨fut, hf, hst⟩
      refine ⟨fut, hf, ?_⟩
      rcases hr with rfl | ⟨fut', rfl⟩
      · exact hst
      · by_cases hff : fut = fut'
        · subst hff
          exact absurd ((Futures.state_cancel_self ..).symm.trans hst) (by simp)
        · exact (Futures.state_cancel_ne _ hff).symm.trans hst

theorem express_call [Hashlib] (s : Forwarder) (i : Interest) (inFace : FaceId) (nonce : Bytes) :
    ∃ call, (s.express i inFace nonce).loop.calls s.loop.nextCall = some call ∧
      call.interest.selector = i.selector ∧
      ∀ d, Got d s.loop.nextCall (s.express i inFace nonce).loop →
        ∃ cs, s.csLookup i = (cs, .ok (some d)) := by
  have ch := express_change s i inFace nonce
  have hhit {r : EventLoop} {d : Data} {cs : ContentStore}
      (hl : s.csLookup i = (cs, .ok (some d)))
      (hc : r.calls s.loop.nextCall =
        some { Call.ofInterest i inFace with phase := .returned (some d) }) :
      ∃ call, r.calls s.loop.nextCall = some call ∧ call.interest.selector = i.selector ∧
        ∀ d, Got d s.loop.nextCall r → ∃ cs, s.csLookup i = (cs, .ok (some d)) := by
    refine ⟨_, hc, rfl, ?_⟩
    rintro d' ⟨call, hcall, hp⟩
    obtain rfl := Option.some.inj (hc.symm.trans hcall)
    obtain rfl : d = d' := by simpa [Phase.future] using hp
    exact ⟨cs, hl⟩
  generalize (s.express i inFace nonce).loop = r at ch
  cases ch with
  | routed ho =>
    obtain ⟨call, hc, hi⟩ := ho.interest
    exact ⟨call, hc, by rw [hi]; rfl, fun d hg => absurd hg ho.not_got⟩
  | hit hl => exact hhit hl ((calls_setCall ..).trans (if_pos rfl))
  | hitStale hl => exact hhit hl ((calls_setCall ..).trans (if_pos rfl))
  | joined =>
    have hc := (calls_wait (s.loop.spawn (.ofInterest i inFace)) s.loop.nextCall s.loop.nextCall
      (.ofInterest i inFace) i.name .aggregated).trans (if_pos rfl)
    refine ⟨_, hc, rfl, fun d hg => ?_⟩
    exact absurd ((Futures.state_register_self ..).symm.trans (hg.state_eq hc rfl)) (by simp)
  | ran _ ran => cases ran
  | quiet hq => cases hq

end Forwarder

namespace Client

theorem startFetch_fetches (s : Client) (r : FetchRequest) :
    (s.startFetch r).fetches s.nextFetch = some { request := r } := Function.update_self ..

variable [Hashlib] {s t : Client} {f : FetchId} {fetch : Fetch} {r : FetchRequest}
  {Q : Data → Prop} {E : Prop} {l : Label}

/-- The fetch asks for `r`. `Q` holds of the Data that its call has got and that it returns, and
`E` if it returns none. -/
structure Expects (s : Client) (r : FetchRequest) (Q : Data → Prop) (E : Prop) (fetch : Fetch) :
    Prop where
  request : fetch.request = r
  quiet : ∀ e, fetch.phase = .raised e → r.raiseOnFailure = true
  got : ∀ c deadline, fetch.phase = .expressing c deadline →
    ∃ call, s.forwarder.loop.calls c = some call ∧ call.interest.selector = r.selector ∧
      ∀ d, Got d c s.forwarder.loop → Q d
  returned : ∀ d, fetch.phase = .returned (some d) → Q d
  nothing : fetch.phase = .returned none → E

def Fails (s : Client) (f : FetchId) (r : FetchRequest) : Label → Prop
  | .attempt g _ _ _ => g = f ∧ r.name.rnsAddr.length ≠ RNS_ADDR_BYTES
  | .linkFailed g _ | .expire g => g = f
  | .finish g => g = f ∧ ∀ d, s.result f = some d → ∀ v,
      s.verifier.checkFetched d r.name.contentHash r.requireSignature ≠ .ok (v, .accepted)
  | _ => False

structure Suits (s : Client) (f : FetchId) (fetch : Fetch) (Q : Data → Prop) (E : Prop)
    (l : Label) : Prop where
  /-- What the store of the client answers. -/
  hit : ∀ (fw : Forwarder) nonce cs d,
    fw.csLookup (interest fetch.request nonce) = (cs, .ok (some d)) → Q d
  /-- What arrives for the call of the fetch. -/
  arrival : ∀ c deadline call d inFace unsolicited, fetch.phase = .expressing c deadline →
    s.forwarder.loop.calls c = some call →
    l = .forwarder (.receiveData d inFace unsolicited) → s.forwarder.Completes call d → Q d
  decrypted : ∀ d, l = .finish f → Q d → Q (s.maybeDecrypt d)
  /-- The last attempt fails. -/
  gaveUp : s.Fails f fetch.request l → fetch.request.maxRetries ≤ fetch.attempt → E

omit [Hashlib] in
theorem Expects.of_idle (h : fetch.request = r)
    (hp : fetch.phase = .linking ∨ fetch.phase = .sleeping) : s.Expects r Q E fetch := by
  refine ⟨h, fun e he => ?_, fun c deadline he => ?_, fun d he => ?_, fun he => ?_⟩ <;>
    rcases hp with hp | hp <;> rw [hp] at he <;> cases he

omit [Hashlib] in
theorem Expects.of_raised {e : PyError} (h : fetch.request = r) (hp : fetch.phase = .raised e)
    (hr : r.raiseOnFailure = true) : s.Expects r Q E fetch := by
  refine ⟨h, fun _ _ => hr, fun c deadline he => ?_, fun d he => ?_, fun he => ?_⟩ <;>
    cases hp.symm.trans he

omit [Hashlib] in
theorem Expects.of_returned {o : Option Data} (h : fetch.request = r)
    (hp : fetch.phase = .returned o) (hd : ∀ d, o = some d → Q d) (hE : o = none → E) :
    s.Expects r Q E fetch := by
  refine ⟨h, fun e he => ?_, fun c deadline he => ?_, fun d he => hd d ?_, fun he => hE ?_⟩
  · cases hp.symm.trans he
  · cases hp.symm.trans he
  · exact FetchPhase.returned.inj (hp.symm.trans he)
  · exact FetchPhase.returned.inj (hp.symm.trans he)

omit [Hashlib] in
theorem Expects.exhausted (h : fetch.request = r) (hE : E) : s.Expects r Q E fetch.exhausted := by
  subst h
  rw [Fetch.exhausted]
  cases fetch.lastError with
  | none =>
    refine .of_returned rfl rfl ?_ fun _ => hE
    rintro _ ⟨⟩
  | some e =>
    dsimp only
    by_cases hr : fetch.request.raiseOnFailure
    · rw [if_pos hr]
      exact .of_raised rfl rfl hr
    · rw [if_neg hr]
      refine .of_returned rfl rfl ?_ fun _ => hE
      rintro _ ⟨⟩

omit [Hashlib] in
theorem Expects.backOff (h : fetch.request = r) (hE : r.maxRetries ≤ fetch.attempt → E) :
    s.Expects r Q E fetch.backOff := by
  rw [Fetch.backOff]
  split
  · exact .of_idle h (.inr rfl)
  · rename_i hlast
    exact .exhausted h (hE (h ▸ not_lt.mp hlast))

omit [Hashlib] in
theorem Expects.goOn (h : fetch.request = r) (hE : r.maxRetries ≤ fetch.attempt → E) :
    s.Expects r Q E fetch.goOn := by
  rw [Fetch.goOn]
  split
  · exact .of_idle h (.inl rfl)
  · rename_i hlast
    exact .exhausted h (hE (h ▸ not_lt.mp hlast))

omit [Hashlib] in
theorem Expects.fail (h : fetch.request = r) (e : PyError) (hE : r.maxRetries ≤ fetch.attempt → E) :
    s.Expects r Q E (fetch.fail e) := by
  have hfail : ({ fetch with lastError := some e } : Fetch).request = r := h
  exact .backOff hfail hE

theorem step_calls {c : CallId} {call : Call} (h : s.forwarder.Consistent)
    (hs : s.step l = some t) (hc : s.forwarder.loop.calls c = some call) :
    ∃ call', t.forwarder.loop.calls c = some call' ∧
      call'.interest.selector = call.interest.selector ∧
      ∀ d, Got d c t.forwarder.loop → Got d c s.forwarder.loop ∨
        (∃ inFace unsolicited, l = .forwarder (.receiveData d inFace unsolicited)) ∧
          s.forwarder.Completes call d := by
  have hstep {fw fw' : Forwarder} (fl : Forwarder.Label) (hcons : fw.Consistent)
      (hs : fw.step fl = some fw') (hc : fw.loop.calls c = some call) :
      ∃ call', fw'.loop.calls c = some call' ∧
        call'.interest.selector = call.interest.selector ∧
        ∀ d, Got d c fw'.loop → Got d c fw.loop ∨
          (∃ inFace unsolicited, fl = .receiveData d inFace unsolicited) ∧
            fw.Completes call d := by
    obtain ⟨call', hop, hc', hi⟩ :=
      Forwarder.Change.interest (Forwarder.step_change hs) hcons.loop hc
    exact ⟨call', hc', by rw [hi]; rfl,
      fun d hg => (Forwarder.got_of_step hcons hs hc hc' hg).2⟩
  rcases step_forwarder hs with he | ⟨fl, rfl, hfw⟩ | ⟨c', he⟩ | ⟨producer, face, i, nonce, he⟩
  · rw [he]
    exact ⟨call, hc, rfl, fun d hg => .inl hg⟩
  · obtain ⟨call', hc', hi, hgot⟩ := hstep fl h hfw hc
    refine ⟨call', hc', hi, fun d hg => (hgot d hg).imp_right ?_⟩
    rintro ⟨⟨inFace, unsolicited, rfl⟩, hcomplete⟩
    exact ⟨⟨inFace, unsolicited, rfl⟩, hcomplete⟩
  · rw [he]
    obtain ⟨call', hc', hi, hgot⟩ := Forwarder.calls_cancel hc c'
    exact ⟨call', hc', by rw [hi], fun d hg => .inl (hgot d hg)⟩
  · have hroute : (s.route producer face).Consistent := ⟨h.loop, h.hashFree⟩
    rw [he]
    obtain ⟨call', hc', hi, hgot⟩ := hstep (.express i face nonce) hroute rfl hc
    refine ⟨call', hc', hi, fun d hg => (hgot d hg).imp_right ?_⟩
    rintro ⟨⟨_, _, hl⟩, -⟩
    cases hl

def Label.fetchId : Label → Option FetchId
  | .attempt f _ _ _ | .linkFailed f _ | .finish f | .expire f | .wake f => some f
  | _ => none

theorem step_fetch_other (hlt : f < s.nextFetch) (hl : l.fetchId ≠ some f)
    (hs : s.step l = some t) : t.fetches f = s.fetches f := by
  have hset {g : FetchId} {fetch : Fetch} {u : Client} (hne : some g ≠ some f) :
      (u.setFetch g fetch).fetches f = u.fetches f :=
    Function.update_of_ne (fun he => hne (congrArg some he.symm)) _ _
  cases l with
  | forwarder fl =>
    obtain ⟨fw, -, rfl⟩ := Option.map_eq_some_iff.mp hs
    rfl
  | fetch request => exact Option.some.inj hs ▸ Function.update_of_ne hlt.ne _ _
  | attempt g =>
    obtain ⟨fetch, -, hs⟩ := Option.bind_eq_some_iff.mp hs
    split at hs
    · obtain rfl := Option.some.inj hs
      rw [beginAttempt]
      split <;> exact hset hl
    · cases hs
  | expire g =>
    obtain ⟨fetch, -, hs⟩ := Option.bind_eq_some_iff.mp hs
    split at hs
    · exact Option.some.inj (Option.ite_none_right_eq_some.mp hs).2 ▸ hset hl
    · cases hs
  | finish g =>
    obtain ⟨fetch, -, hs⟩ := Option.bind_eq_some_iff.mp hs
    split at hs
    · obtain ⟨call, -, hs⟩ := Option.bind_eq_some_iff.mp hs
      split at hs
      · obtain rfl := Option.some.inj hs
        rw [checkResult]
        split <;> exact hset hl
      · exact Option.some.inj hs ▸ hset hl
      · exact Option.some.inj hs ▸ hset hl
      · cases hs
    · cases hs
  | linkFailed g | wake g =>
    obtain ⟨fetch, -, hs⟩ := Option.bind_eq_some_iff.mp hs
    split at hs
    · exact Option.some.inj hs ▸ hset hl
    · cases hs
  | announce | subscribe => exact Option.some.inj hs ▸ rfl

/-- The call that a fetch waits for it has waited for before, or the call is new. -/
theorem step_expressing {fetch' : Fetch} {c : CallId} {deadline : ℕ} (hlt : f < s.nextFetch)
    (hf : s.fetches f = some fetch) (hs : s.step l = some t) (hf' : t.fetches f = some fetch')
    (hp : fetch'.phase = .expressing c deadline) :
    fetch.phase = .expressing c deadline ∨ c = s.forwarder.loop.nextCall := by
  have hset {u : Client} {g : FetchId} {x : Fetch}
      (hg : (u.setFetch g x).fetches g = some fetch') : x = fetch' :=
    Option.some.inj ((Function.update_self (β := fun _ => _) g (some x) u.fetches).symm.trans hg)
  have hfail {u : Client} {g : FetchId} {x : Fetch} {e : PyError}
      (hg : (u.setFetch g (x.fail e)).fetches g = some fetch') : False :=
    Fetch.backOff_not_expressing _ c deadline (hset hg ▸ hp)
  by_cases hl : l.fetchId = some f
  · cases l with
    | attempt g face nonce refreshNonce =>
      obtain rfl := Option.some.inj hl
      obtain ⟨_, -, hs⟩ := Option.bind_eq_some_iff.mp hs
      split at hs
      · obtain rfl := Option.some.inj hs
        rw [beginAttempt] at hf'
        split at hf'
        · exact (hfail hf').elim
        · obtain rfl := hset hf'
          exact .inr (FetchPhase.expressing.inj hp).1.symm
      · cases hs
    | linkFailed g =>
      obtain rfl := Option.some.inj hl
      obtain ⟨_, -, hs⟩ := Option.bind_eq_some_iff.mp hs
      split at hs
      · obtain rfl := Option.some.inj hs
        exact (hfail hf').elim
      · cases hs
    | finish g =>
      obtain rfl := Option.some.inj hl
      obtain ⟨_, -, hs⟩ := Option.bind_eq_some_iff.mp hs
      split at hs
      · obtain ⟨call, -, hs⟩ := Option.bind_eq_some_iff.mp hs
        split at hs
        · obtain rfl := Option.some.inj hs
          rw [checkResult] at hf'
          split at hf'
          · exact (hfail hf').elim
          · obtain rfl := hset hf'
            exact absurd hp (Fetch.goOn_not_expressing _ c deadline)
          · obtain rfl := hset hf'
            cases hp
        · obtain rfl := Option.some.inj hs
          obtain rfl := hset hf'
          exact absurd hp (Fetch.backOff_not_expressing _ c deadline)
        · obtain rfl := Option.some.inj hs
          exact (hfail hf').elim
        · cases hs
      · cases hs
    | expire g =>
      obtain rfl := Option.some.inj hl
      obtain ⟨_, -, hs⟩ := Option.bind_eq_some_iff.mp hs
      split at hs
      · obtain rfl := Option.some.inj (Option.ite_none_right_eq_some.mp hs).2
        exact (hfail hf').elim
      · cases hs
    | wake g =>
      obtain rfl := Option.some.inj hl
      obtain ⟨_, -, hs⟩ := Option.bind_eq_some_iff.mp hs
      split at hs
      · obtain rfl := Option.some.inj hs
        obtain rfl := hset hf'
        cases hp
      · cases hs
    | _ => cases hl
  · obtain rfl := Option.some.inj (((step_fetch_other hlt hl hs).trans hf).symm.trans hf')
    exact .inl hp

theorem Expects.kept (h : s.Expects r Q E fetch) (hcons : s.forwarder.Consistent)
    (hs : s.step l = some t) (hok : s.Suits f fetch Q E l) : t.Expects r Q E fetch := by
  refine ⟨h.request, h.quiet, fun c deadline hp => ?_, h.returned, h.nothing⟩
  obtain ⟨call, hc, hsel, hq⟩ := h.got c deadline hp
  obtain ⟨call', hc', hi, hgot⟩ := step_calls hcons hs hc
  refine ⟨call', hc', hi.trans hsel, fun d hg => (hgot d hg).elim (hq d) ?_⟩
  rintro ⟨⟨inFace, unsolicited, hl⟩, hcomplete⟩
  exact hok.arrival c deadline call d inFace unsolicited hp hc hl hcomplete

theorem expects_beginAttempt (h : fetch.request = r) (face : FaceId) (nonce refreshNonce : Bytes)
    (hhit : ∀ (fw : Forwarder) nonce cs d,
      fw.csLookup (interest r nonce) = (cs, .ok (some d)) → Q d)
    (hE : r.name.rnsAddr.length ≠ RNS_ADDR_BYTES → r.maxRetries ≤ fetch.attempt → E) :
    ∃ fetch', (s.beginAttempt f fetch face nonce refreshNonce).fetches f = some fetch' ∧
      (s.beginAttempt f fetch face nonce refreshNonce).Expects r Q E fetch' := by
  subst h
  rw [beginAttempt]
  cases hn : Name.new fetch.request.name.rnsAddr with
  | error e =>
    refine ⟨_, Function.update_self .., .fail rfl e (hE fun haddr => ?_)⟩
    rw [Name.new, if_neg (by simpa using haddr)] at hn
    cases hn
  | ok producer =>
    obtain ⟨call, hc, hsel, hgot⟩ := Forwarder.express_call (s.route producer face)
      (interest fetch.request nonce) face refreshNonce
    refine ⟨_, Function.update_self .., rfl, ?_, fun c deadline hp => ?_, ?_, ?_⟩
    · rintro _ ⟨⟩
    · obtain ⟨rfl, -⟩ := FetchPhase.expressing.inj hp
      refine ⟨call, hc, hsel, fun d hg => ?_⟩
      obtain ⟨cs, hl⟩ := hgot d hg
      exact hhit _ nonce cs d hl
    · rintro _ ⟨⟩
    · rintro ⟨⟩

omit [Hashlib] in
theorem got_of_result {c : CallId} {deadline : ℕ} {d : Data} (hf : s.fetches f = some fetch)
    (hp : fetch.phase = .expressing c deadline) (hd : s.result f = some d) :
    Got d c s.forwarder.loop := by
  rw [result, hf] at hd
  simp only [Option.bind_some, hp] at hd
  obtain ⟨call, hc, hd⟩ := Option.bind_eq_some_iff.mp hd
  split at hd
  · rename_i hret
    subst hd
    exact ⟨call, hc, .inl hret⟩
  · cases hd

theorem Expects.finish (h : s.Expects r Q E fetch) (hf : s.fetches f = some fetch)
    (hok : s.Suits f fetch Q E (.finish f)) (hs : s.finish f = some t) :
    ∃ fetch', t.fetches f = some fetch' ∧ t.Expects r Q E fetch' := by
  obtain rfl := h.request
  obtain ⟨fetch', hf', hs⟩ := Option.bind_eq_some_iff.mp hs
  obtain rfl := Option.some.inj (hf.symm.trans hf')
  split at hs
  · rename_i c deadline hp
    obtain ⟨call, hc, hs⟩ := Option.bind_eq_some_iff.mp hs
    split at hs
    · rename_i d hret
      obtain rfl := Option.some.inj hs
      have hd : s.result f = some d := by simp [result, hf, hp, hc, hret]
      -- The attempt ends without Data unless the check accepts.
      have hfail (hv : ∀ v, s.verifier.checkFetched d fetch.request.name.contentHash
          fetch.request.requireSignature ≠ .ok (v, .accepted)) :
          fetch.request.maxRetries ≤ fetch.attempt → E :=
        hok.gaveUp ⟨rfl, fun d' hd' => by
          obtain rfl := Option.some.inj (hd.symm.trans hd')
          exact hv⟩
      rw [checkResult]
      split
      · rename_i e hv
        refine ⟨_, Function.update_self .., .fail rfl e (hfail fun v => ?_)⟩
        rw [hv]
        rintro ⟨⟩
      · rename_i v e hv
        refine ⟨_, Function.update_self .., .goOn rfl (hfail fun v' => ?_)⟩
        rw [hv]
        simp
      · rename_i v hv
        obtain ⟨call', hc', -, hgot⟩ := h.got c deadline hp
        refine ⟨_, Function.update_self .., .of_returned rfl rfl (fun d' hd' => ?_) ?_⟩
        · obtain rfl := Option.some.inj hd'
          exact hok.decrypted d rfl (hgot d (got_of_result hf hp hd))
        · rintro ⟨⟩
    · rename_i hret
      obtain rfl := Option.some.inj hs
      refine ⟨_, Function.update_self .., .backOff rfl (hok.gaveUp ⟨rfl, fun d hd => ?_⟩)⟩
      simp [result, hf, hp, hc, hret] at hd
    · rename_i e hret
      obtain rfl := Option.some.inj hs
      refine ⟨_, Function.update_self .., .fail rfl e (hok.gaveUp ⟨rfl, fun d hd => ?_⟩)⟩
      simp [result, hf, hp, hc, hret] at hd
    · cases hs
  · cases hs

theorem Expects.step (h : s.Expects r Q E fetch) (hcons : s.forwarder.Consistent)
    (hlt : f < s.nextFetch) (hf : s.fetches f = some fetch) (hok : s.Suits f fetch Q E l)
    (hs : s.step l = some t) : ∃ fetch', t.fetches f = some fetch' ∧ t.Expects r Q E fetch' := by
  by_cases hl : l.fetchId = some f
  · obtain rfl := h.request
    cases l with
    | attempt g face nonce refreshNonce =>
      obtain rfl := Option.some.inj hl
      obtain ⟨fetch', hf', hs⟩ := Option.bind_eq_some_iff.mp hs
      obtain rfl := Option.some.inj (hf.symm.trans hf')
      split at hs
      · exact Option.some.inj hs ▸ expects_beginAttempt rfl face nonce refreshNonce hok.hit
          fun haddr => hok.gaveUp ⟨rfl, haddr⟩
      · cases hs
    | linkFailed g e =>
      obtain rfl := Option.some.inj hl
      obtain ⟨fetch', hf', hs⟩ := Option.bind_eq_some_iff.mp hs
      obtain rfl := Option.some.inj (hf.symm.trans hf')
      split at hs
      · obtain rfl := Option.some.inj hs
        exact ⟨_, Function.update_self .., .fail rfl e (hok.gaveUp rfl)⟩
      · cases hs
    | finish g =>
      obtain rfl := Option.some.inj hl
      exact h.finish hf hok hs
    | expire g =>
      obtain rfl := Option.some.inj hl
      obtain ⟨fetch', hf', hs⟩ := Option.bind_eq_some_iff.mp hs
      obtain rfl := Option.some.inj (hf.symm.trans hf')
      split at hs
      · obtain rfl := Option.some.inj (Option.ite_none_right_eq_some.mp hs).2
        exact ⟨_, Function.update_self .., .fail rfl _ (hok.gaveUp rfl)⟩
      · cases hs
    | wake g =>
      obtain rfl := Option.some.inj hl
      obtain ⟨fetch', hf', hs⟩ := Option.bind_eq_some_iff.mp hs
      obtain rfl := Option.some.inj (hf.symm.trans hf')
      split at hs
      · obtain rfl := Option.some.inj hs
        exact ⟨_, Function.update_self .., .of_idle rfl (.inl rfl)⟩
      · cases hs
    | _ => cases hl
  · exact ⟨fetch, (step_fetch_other hlt hl hs).trans hf, h.kept hcons hs hok⟩

end Client

end RnsIcn
