import RnsIcn.Forwarder.Delivery
import RnsIcn.Store.Names

/-! # Whether an answer satisfies the Interest

Cached Data is checked against the Interest before it is served. Data that
arrives is handed to every call that waits for the name, unchecked, so the calls
that share a name get answers that satisfy only some of them.
-/

namespace RnsIcn

open Transition EventLoop Fallible

section Names

variable {p : Pit} {n m : Name}

theorem Forwarder.pendingAncestor_ancestor {i : ℕ} (h : pendingAncestor p n i = .ok (some m)) :
    ∃ j, m = n.ancestor j := by
  induction i with
  | zero => cases h
  | succ i ih =>
    obtain ⟨candidate, hc, h⟩ := bind_eq_ok.mp h
    split at h
    · obtain rfl := Option.some.inj (Except.ok.inj h)
      exact ⟨i, Name.new_eq_ok hc⟩
    · exact ih h

theorem Forwarder.startsWith_answeredName (h : answeredName p n = .ok (some m)) :
    n.startsWith m = true := by
  rw [answeredName] at h
  split at h
  · obtain rfl := Option.some.inj (Except.ok.inj h)
    have hs : n.startsWith (n.ancestor n.path.length) = true := n.startsWith_ancestor _
    rwa [Name.ancestor_length] at hs
  · obtain ⟨j, rfl⟩ := pendingAncestor_ancestor h
    exact n.startsWith_ancestor j

end Names

theorem BestRoute.sequenceSatisfied_iff {i : Interest} {d : Data} :
    sequenceSatisfied i d = true ↔
      ∀ floor ∈ i.minSequence, ∃ seq ∈ d.metadata.sequence, floor ≤ seq := by
  rw [sequenceSatisfied]
  cases i.minSequence with
  | none => simp
  | some floor => cases d.metadata.sequence <;> simp

theorem BestRoute.selectorSatisfied_iff {i : Interest} {d : Data} :
    selectorSatisfied i d = true ↔ (i.mustBeFresh = true → d.metadata.freshness.fresh = true) ∧
      sequenceSatisfied i d = true := by
  rw [selectorSatisfied]
  cases i.mustBeFresh <;> cases d.metadata.freshness.fresh <;> simp

theorem Outcome.not_got {r r' : EventLoop} {c : CallId} {call : Call} {faces : List FaceId}
    {d : Data} (ho : Outcome r c call faces r') : ¬ Got d c r' := by
  obtain ⟨call', hc, hp⟩ := ho.phase
  rintro ⟨call'', hc', hgot⟩
  obtain rfl := Option.some.inj (hc.symm.trans hc')
  rcases hp with hf | ⟨face, rest, -, hp⟩
  · rcases hgot with h | ⟨fut, h, -⟩
    · exact hf.ne_returned d h
    · rw [hf.future] at h; cases h
  · rw [hp] at hgot
    simp [Phase.future] at hgot

namespace Forwarder

section Events

variable {s : Forwarder} {A : Name → Prop} {d : Data} {c : CallId} {call : Call} {l : Label}

/-- The names that an event brings are in use. -/
def Label.Uses (A : Name → Prop) : Label → Prop
  | .express i _ _ => A i.name
  | .receiveData d _ _ => A d.name
  | .store op => op.Uses A
  | _ => True

theorem storeOp_uses (hl : l.Uses A) {op : StoreOp} (h : s.storeOp l = some op) : op.Uses A := by
  cases l with
  | express i inFace nonce =>
    simp only [storeOp] at h
    split at h
    · cases h
    · split at h <;> (obtain rfl := Option.some.inj h; exact trivial)
  | receiveData d inFace unsolicited =>
    simp only [storeOp] at h
    split at h
    · cases h
    · exact Option.some.inj h ▸ hl
    · split at h
      · exact Option.some.inj h ▸ hl
      · cases h
  | store op' => exact Option.some.inj h ▸ hl
  | _ => cases h

theorem Ran.got_before {r : EventLoop} {call' : Call} (ran : Ran s c call l r)
    (hc : s.loop.calls c = some call) (hc' : r.calls c = some call') (h : Got d c r) :
    Got d c s.loop ∧ call'.interest = call.interest ∧ call'.refreshes = call.refreshes := by
  have hset {r : EventLoop} {phase : Phase} (hg : Got d c (r.setCall c { call with phase }))
      (hnone : phase.future = none) : phase = .returned (some d) := by
    obtain ⟨call'', hcall, hp⟩ := hg
    rw [calls_setCall, if_pos rfl] at hcall
    obtain rfl := Option.some.inj hcall
    rcases hp with hp | ⟨fut, hf, -⟩
    · exact hp
    · exact absurd (hnone.symm.trans hf) (by simp)
  cases ran with
  | started hp ho => exact absurd h ho.not_got
  | sent hp =>
    obtain ⟨call'', hcall, hg⟩ := h
    rw [calls_wait, if_pos rfl] at hcall
    obtain rfl := Option.some.inj hcall
    rcases hg with hg | ⟨fut, hf, hst⟩
    · cases hg
    · obtain rfl := Option.some.inj hf
      exact absurd ((Futures.state_register_self ..).symm.trans hst) (by simp)
  | sendRaised hp => exact absurd (hset h rfl) (by simp)
  | @answered face rest fut deadline d' hp hst =>
    obtain rfl : d' = d := by simpa using hset h rfl
    rw [calls_setCall, if_pos rfl] at hc'
    obtain rfl := Option.some.inj hc'
    exact ⟨⟨call, hc, .inr ⟨fut, by rw [hp]; rfl, hst⟩⟩, rfl, rfl⟩
  | nacked hp hst ho => exact absurd h ho.not_got
  | @shared fut deadline d' hp hst =>
    obtain rfl : d' = d := by simpa using hset h rfl
    rw [calls_setCall, if_pos rfl] at hc'
    obtain rfl := Option.some.inj hc'
    exact ⟨⟨call, hc, .inr ⟨fut, by rw [hp]; rfl, hst⟩⟩, rfl, rfl⟩
  | sharedNack hp hst => exact absurd (hset h rfl) (by simp)
  | expired hp hst hd ho => exact absurd h ho.not_got
  | sharedExpired hp hst hd => exact absurd (hset h rfl) (by simp)

end Events

end Forwarder

/-- `d` has the name that `i` asks for, or an extension of it if `i` allows that. -/
def Interest.Asks (i : Interest) (d : Data) : Prop :=
  d.name.withoutContentHash = i.pitName ∨
    d.name.withoutContentHash.startsWith i.pitName = true ∧ i.canBePrefix = true

section Sharing

variable [Hashlib]

/-- `d` satisfies the Interest `i`. -/
structure Answers (i : Interest) (d : Data) : Prop where
  name : i.Asks d
  pin : ∀ pin ∈ i.name.contentHash, blake2b d.content = pin
  fresh : i.mustBeFresh = true → d.metadata.freshness.fresh = true
  sequence : ∀ floor ∈ i.minSequence, ∃ seq ∈ d.metadata.sequence, floor ≤ seq

namespace Forwarder

variable {s t : Forwarder} {A : Name → Prop} {d : Data} {c : CallId} {call : Call} {l : Label}

/-- What the lookup finds is what one of the two reads of the swept store finds. -/
theorem csLookup_eq_some {i : Interest} {cs : ContentStore}
    (hl : s.csLookup i = (cs, .ok (some d))) :
    i.canBePrefix = true ∧
        (s.cs.purgeExpired s.time).readPrefix i.name i.child i.minSequence s.time = .ok (some d) ∨
      i.canBePrefix = false ∧ (s.cs.purgeExpired s.time).read i.name s.time = .ok (some d) := by
  rw [csLookup] at hl
  split at hl
  · rename_i hunder
    refine .inl ⟨hunder, ?_⟩
    have hr := congrArg Prod.snd hl
    cases hread : (s.cs.purgeExpired s.time).readPrefix i.name i.child i.minSequence s.time with
    | error e => simp [ContentStore.getPrefix, hread, Except.map] at hr
    | ok hit =>
      simp only [ContentStore.getPrefix, hread, Except.map, Except.ok.injEq,
        Option.filter_eq_some_iff] at hr
      rw [hr.1]
  · exact .inr ⟨by simpa using ‹¬ i.canBePrefix = true›, congrArg Prod.snd hl⟩

theorem csLookup_serves {i : Interest} {cs : ContentStore}
    (hl : s.csLookup i = (cs, .ok (some d))) : s.cs.Serves d := by
  have hsub : ContentStore.Sub (s.cs.purgeExpired s.time) s.cs :=
    ContentStore.deleteRows_sub s.cs _
  rcases csLookup_eq_some hl with ⟨-, hr⟩ | ⟨-, hr⟩
  · obtain ⟨key, row, hrow, hv, hs, hd, -⟩ := ContentStore.readPrefix_serves hr
    exact ContentStore.Serves.of_sub ⟨key, row, s.time, hrow, hv, hs, hd⟩ hsub
  · exact (ContentStore.read_serves hr).of_sub hsub

/-- What the lookup finds is under the name that the Interest asks for and meets its pin. -/
theorem csLookup_asks (hA : Distinguished A) (h : s.cs.Named A) {i : Interest}
    {cs : ContentStore} (hi : A i.name) (hl : s.csLookup i = (cs, .ok (some d))) :
    i.Asks d ∧ ∀ pin ∈ i.name.contentHash, blake2b d.content = pin := by
  have hsweep : (s.cs.purgeExpired s.time).Named A := h.deleteRows _
  rcases csLookup_eq_some hl with ⟨hunder, hr⟩ | ⟨-, hr⟩
  · obtain ⟨hnone, j, hj⟩ := hsweep.readPrefix hA hi hr
    have hpin : i.name.contentHash = none := by rw [hj]; rfl
    refine ⟨.inr ⟨?_, hunder⟩, by simp [hpin]⟩
    rw [Interest.pitName_eq hpin, Name.withoutContentHash, ← hnone, hj]
    exact Name.startsWith_ancestor _ j
  · obtain ⟨hd, hpin⟩ := hsweep.read hA hi hr
    exact ⟨.inl (by rw [hd]; rfl), hpin⟩

theorem csLookup_answers (hA : Distinguished A) (h : s.cs.Named A) {i : Interest}
    {cs : ContentStore} (hi : A i.name) (hl : s.csLookup i = (cs, .ok (some d)))
    (hs : BestRoute.selectorSatisfied i d = true) : Answers i d := by
  obtain ⟨hasks, hpin⟩ := csLookup_asks hA h hi hl
  obtain ⟨hfresh, hseq⟩ := BestRoute.selectorSatisfied_iff.mp hs
  exact ⟨hasks, hpin, hfresh, BestRoute.sequenceSatisfied_iff.mp hseq⟩

/-- The Data that an event hands to waiting calls. -/
def Label.answers (s : Forwarder) : Label → Option Data
  | .receiveData d _ _ =>
    match answeredName s.pit d.name.withoutContentHash with
    | .ok (some _) => some d
    | _ => none
  | _ => none

theorem Change.hit_of_new {r : EventLoop} (ch : Change s l r) (hnew : s.loop.calls c = none)
    (hg : Got d c r) : ∃ i inFace nonce cs, l = .express i inFace nonce ∧
      s.csLookup i = (cs, .ok (some d)) ∧ BestRoute.selectorSatisfied i d = true := by
  obtain ⟨call, hc, hp⟩ := hg
  cases ch.spawned hnew hc with
  | routed ho _ => exact absurd ⟨call, hc, hp⟩ ho.not_got
  | hit hlook hsel =>
    obtain rfl : _ = d := by simpa [Phase.future] using hp
    exact ⟨_, _, _, _, rfl, hlook, hsel⟩
  | refresh => simp [Phase.future] at hp
  | joined hst =>
    rcases hp with hp | ⟨fut, hf, hdone⟩
    · cases hp
    · obtain rfl := Option.some.inj hf
      exact absurd (hst.symm.trans hdone) (by simp)

def Completes (s : Forwarder) (call : Call) (d : Data) : Prop :=
  ∃ fut, call.phase.future = some fut ∧ s.loop.notifiers.state fut = .pending ∧
    answeredName s.pit d.name.withoutContentHash = .ok (some call.interest.pitName)

theorem got_of_step {call' : Call} (h : s.Consistent) (hs : step s l = some t)
    (hc : s.loop.calls c = some call) (hc' : t.loop.calls c = some call') (hg : Got d c t.loop) :
    (call'.interest = call.interest ∧ call'.refreshes = call.refreshes) ∧ (Got d c s.loop ∨
      (∃ inFace unsolicited, l = .receiveData d inFace unsolicited) ∧ s.Completes call d) := by
  have ch := step_change hs
  by_cases hrun : l.runs = some c
  · obtain ⟨hg₀, hi, hr⟩ := (ch.ran_of_runs hrun hc).got_before hc hc' hg
    exact ⟨⟨hi, hr⟩, .inl hg₀⟩
  · have hfr := ch.frame h.loop hc hrun
    obtain rfl := Option.some.inj (hfr.calls.symm.trans hc')
    obtain ⟨call', hcall, hp⟩ := hg
    obtain rfl := Option.some.inj (hcall.symm.trans hc')
    refine ⟨⟨rfl, rfl⟩, ?_⟩
    rcases hp with hp | ⟨fut, hf, hst⟩
    · exact .inl ⟨call', hc, .inl hp⟩
    · rcases hfr.future fut hf with he | ⟨hpend, reply, ha, hdone⟩
      · exact .inl ⟨call', hc, .inr ⟨fut, hf, he.symm.trans hst⟩⟩
      · obtain rfl : reply = .data d := FutureState.done.inj (hdone.symm.trans hst)
        generalize hk : call'.interest.pitName = k at ha
        cases ha with
        | data hm => exact .inr ⟨⟨_, _, rfl⟩, fut, hf, hpend, hk ▸ hm⟩

/-- What holds of the Data that the store serves and that arrives holds of all Data that calls
get. -/
theorem got_step {P : Data → Prop} (h : s.Consistent) (hgot : ∀ c d, Got d c s.loop → P d)
    (hhit : ∀ i cs d, s.csLookup i = (cs, .ok (some d)) → P d) (hl : ∀ d ∈ l.answers s, P d)
    (hs : step s l = some t) : ∀ c d, Got d c t.loop → P d := by
  intro c d hg
  cases hc₀ : s.loop.calls c with
  | none =>
    obtain ⟨i, -, -, cs, -, hlook, -⟩ := (step_change hs).hit_of_new hc₀ hg
    exact hhit i cs d hlook
  | some call₀ =>
    have hg' := hg
    obtain ⟨call, hc, -⟩ := hg'
    obtain ⟨-, hg | ⟨⟨inFace, unsolicited, rfl⟩, fut, -, -, hm⟩⟩ := got_of_step h hs hc₀ hc hg
    · exact hgot c d hg
    · exact hl d (by simp [Label.answers, hm])

/-- The answers that calls of `express` have or are about to return satisfy their Interests. -/
structure Satisfying (A : Name → Prop) (s : Forwarder) : Prop where
  consistent : s.Consistent
  store : s.cs.Named A
  answers : ∀ c call d, s.loop.calls c = some call → call.refreshes = none → Got d c s.loop →
    Answers call.interest d

/-- `d` arrives for a name whose waiting calls it all satisfies: each asked for this very name or
with `can_be_prefix`, and has its pin and its selector met. -/
def Label.Fits (s : Forwarder) : Label → Prop
  | .receiveData d _ _ =>
    ∀ c call fut, s.loop.calls c = some call → call.refreshes = none →
      call.phase.future = some fut → s.loop.notifiers.state fut = .pending →
      answeredName s.pit d.name.withoutContentHash = .ok (some call.interest.pitName) →
      (call.interest.canBePrefix = true ∨ d.name.withoutContentHash = call.interest.pitName) ∧
        call.interest.name.contentHash.all (blake2b d.content == ·) = true ∧
        BestRoute.selectorSatisfied call.interest d = true
  | _ => True

theorem Fits.answers {inFace : FaceId} {unsolicited : Bool}
    (h : (Label.receiveData d inFace unsolicited).Fits s) {fut : ℕ}
    (hc : s.loop.calls c = some call) (hr : call.refreshes = none)
    (hf : call.phase.future = some fut) (hp : s.loop.notifiers.state fut = .pending)
    (hm : answeredName s.pit d.name.withoutContentHash = .ok (some call.interest.pitName)) :
    Answers call.interest d := by
  obtain ⟨hname, hpin, hsel⟩ := h c call fut hc hr hf hp hm
  obtain ⟨hfresh, hseq⟩ := BestRoute.selectorSatisfied_iff.mp hsel
  refine ⟨?_, fun pin hp => ?_, hfresh, BestRoute.sequenceSatisfied_iff.mp hseq⟩
  · exact hname.symm.imp_right fun h => ⟨startsWith_answeredName hm, h⟩
  · rw [Option.mem_def] at hp
    simpa [hp] using hpin

theorem Change.got_new {r : EventLoop} (ch : Change s l r) (hA : Distinguished A)
    (h : Satisfying A s) (hl : l.Uses A) (hnew : s.loop.calls c = none)
    (hc : r.calls c = some call) (hr : call.refreshes = none) (hg : Got d c r) :
    Answers call.interest d := by
  cases ch.spawned hnew hc with
  | routed ho _ => exact absurd hg ho.not_got
  | @hit i inFace nonce cs d' _ hlook hsel =>
    obtain ⟨call', hc', hp⟩ := hg
    obtain rfl := Option.some.inj (hc'.symm.trans hc)
    obtain rfl : d' = d := by simpa [Phase.future] using hp
    exact csLookup_answers hA h.store hl hlook hsel
  | refresh => cases hr
  | joined hst =>
    obtain ⟨call', hc', hp | ⟨fut', hf, hdone⟩⟩ := hg
    all_goals obtain rfl := Option.some.inj (hc'.symm.trans hc)
    · cases hp
    · obtain rfl := Option.some.inj hf
      exact absurd (hst.symm.trans hdone) (by simp)

theorem Satisfying.step (hA : Distinguished A) (h : Satisfying A s) (hl : l.Uses A)
    (hfit : l.Fits s) (hs : step s l = some t) : Satisfying A t := by
  have ch := step_change hs
  refine ⟨step_consistent hs h.consistent, ?_, fun c call d hc hr hg => ?_⟩
  · rw [step_cs hs]
    cases hop : s.storeOp l with
    | none => exact h.store
    | some op => exact h.store.apply hA (storeOp_uses hl hop)
  cases hc₀ : s.loop.calls c with
  | none => exact ch.got_new hA h hl hc₀ hc hr hg
  | some call₀ =>
    obtain ⟨⟨hi, hr₀⟩, hgot⟩ := got_of_step h.consistent hs hc₀ hc hg
    rw [hr₀] at hr
    rw [hi]
    rcases hgot with hg₀ | ⟨⟨inFace, unsolicited, rfl⟩, fut, hf, hpend, hm⟩
    · exact h.answers c call₀ d hc₀ hr hg₀
    · exact Fits.answers hfit hc₀ hr hf hpend hm

/-- While all arrivals fit the calls that wait for them, what `express` returns satisfies its
Interest. -/
theorem express_answers (hA : Distinguished A)
    (hs : Reachable (fun s => Initial s ∧ s.cs.Named A) Forwarder.step
      (fun s l => l.Uses A ∧ l.Fits s) s)
    (hc : s.loop.calls c = some call) (hr : call.refreshes = none)
    (hp : call.phase = .returned (some d)) : Answers call.interest d := by
  have hinv : Satisfying A s := hs.invariant (I := Satisfying A)
    (fun s h => ⟨h.1.consistent, h.2, fun c call d hc => by simp [h.1.calls] at hc⟩)
    fun s l t hi hok hst => hi.step hA hok.1 hok.2 hst
  exact hinv.answers c call d hc hr ⟨call, hc, .inl hp⟩

end Forwarder

end Sharing

namespace Forwarder

def relayNames (n : Name) : Prop := ∃ i, n = relayName.ancestor i

theorem relayNames_distinguished : @Distinguished Data.paddedHash relayNames :=
  letI := Data.paddedHash
  distinguished_ancestors rfl (by decide)

def requested : Forwarder := relayAfter [1] [.express (request 1 1000) 7 [], .sent 0]

def requestedCall : Call where
  interest := { request 1 1000 with hopLimit := 15 }
  inFace := 7
  phase := .waiting 1 [] 0 1000

theorem requested_call {c : CallId} {call : Call} (hc : requested.loop.calls c = some call) :
    call = requestedCall :=
  letI := Data.paddedHash
  have hreach : Reachable Initial step anyStep requested :=
    ⟨relay [1], [.express (request 1 1000) 7 [], .sent 0], relay_initial [1], run_of_exec rfl⟩
  have hlt : c < 1 := (reachable_consistent hreach).loop.lt hc
  have hzero : c = 0 := Nat.lt_one_iff.mp hlt
  Option.some.inj (hc.symm.trans (hzero ▸ rfl))

theorem answer_fits_requested :
    @Label.Fits Data.paddedHash requested (.receiveData answer 1 false) :=
  fun _ _ _ hc _ _ _ _ => requested_call hc ▸ ⟨.inr rfl, rfl, rfl⟩

theorem request_answered :
    letI := Data.paddedHash
    ∃ t call, Run step (fun s l => l.Uses relayNames ∧ l.Fits s) (relay [1])
        [.express (request 1 1000) 7 [], .sent 0, .receiveData answer 1 false, .resume 0] t ∧
      t.loop.calls 0 = some call ∧ Answers call.interest answer :=
  letI := Data.paddedHash
  have hrun : Run step (fun s l => l.Uses relayNames ∧ l.Fits s) (relay [1])
      [.express (request 1 1000) 7 [], .sent 0, .receiveData answer 1 false, .resume 0] _ :=
    .cons ⟨⟨1, rfl⟩, trivial⟩ rfl (.cons (t := requested) ⟨trivial, trivial⟩ rfl
      (.cons ⟨⟨1, rfl⟩, answer_fits_requested⟩ rfl (.cons ⟨trivial, trivial⟩ rfl (.nil _))))
  ⟨_, _, hrun, rfl, express_answers relayNames_distinguished
    ⟨relay [1], _, ⟨relay_initial [1], .empty rfl rfl⟩, hrun⟩ (c := 0) rfl rfl rfl⟩

/-- A request with a floor joins one without and gets the same Data, which is below the floor. -/
theorem joined_floor_unmet :
    letI := Data.paddedHash
    let floor : Interest := { request 2 4000 with selector := some { minSequence := some 5 } }
    let ls : List Label := [.express (request 1 1000) 7 [], .sent 0, .express floor 8 [],
      .receiveData answer 1 false, .resume 1]
    ∃ call, (relayAfter [1] ls).loop.calls 1 = some call ∧ call.interest = floor ∧
      call.phase = .returned (some answer) ∧ ¬ Answers call.interest answer :=
  letI := Data.paddedHash
  ⟨_, rfl, rfl, rfl, fun h => by
    obtain ⟨seq, hseq, -⟩ := h.sequence 5 rfl
    cases hseq⟩

end Forwarder

end RnsIcn
