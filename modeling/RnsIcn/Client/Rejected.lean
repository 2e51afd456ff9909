import RnsIcn.Client.Pump
import RnsIcn.Client.Watermark
import RnsIcn.Forwarder.Answer
import RnsIcn.Store.Serve

/-! # Rejected Data and the cache

The forwarder of a client caches Data before the client has checked it, and the
next attempt asks that cache first. Data that fails its content hash or the pin
of the request is refused by the cache as well. Any other rejected Data is served
again.
-/

namespace RnsIcn

open Transition Fallible ContentStore

theorem Forwarder.cancel_cs (s : Forwarder) (c : CallId) : (s.cancel c).cs = s.cs := by
  rw [Forwarder.cancel]
  split
  · rfl
  · simp only
    split <;> rfl

section Sharing

variable [Hashlib]

/-- `e` is served from a row that `d` was stored as. -/
def CopyOf (d e : Data) : Prop :=
  ∃ nameBytes now ttl name now', e = rowData (makeRow nameBytes d now ttl) name now'

/-- The store does not serve `d` for the name of `i`: the content does not have the hash of its row
or the one that `i` asks for. -/
def Unservable (i : Interest) (d : Data) : Prop :=
  d.rowHash ≠ blake2b d.content ∨ ∃ pin ∈ i.name.contentHash, blake2b d.content ≠ pin

namespace ContentStore

variable {A : Name → Prop} {s : ContentStore} {d : Data}

theorem Serves.valid (h : s.Serves d) (hs : s.Named A) :
    d.metadata.contentHash = some (blake2b d.content) := by
  obtain ⟨key, row, now, hrow, hv, -, hd⟩ := h
  obtain ⟨n, -, d', now', ttl, rfl, -⟩ := hs.row key row hrow
  rw [hd]
  have he : blake2b d'.content = d'.rowHash := by
    simpa [verifyContent, makeRow] using hv
  exact congrArg some he.symm

end ContentStore

theorem Unservable.not_copy {A : Name → Prop} {s : Forwarder} {i j : Interest} {d e : Data}
    {cs : ContentStore} (h : Unservable i d) (hA : Distinguished A) (hs : s.cs.Named A)
    (hj : A j.name) (hname : j.name = i.name) (hl : s.csLookup j = (cs, .ok (some e))) :
    ¬ CopyOf d e := by
  have hhash := (Forwarder.csLookup_serves hl).valid hs
  have hpin := (Forwarder.csLookup_asks hA hs hj hl).2
  rintro ⟨nameBytes, now, ttl, name, now', rfl⟩
  rcases h with hbad | ⟨pin, hp, hne⟩
  · exact hbad (Option.some.inj hhash)
  · exact hne (hpin pin (hname ▸ hp))

theorem lookup_row {s : Forwarder} {j : Interest} {e : Data} {cs : ContentStore} {key : Bytes}
    (hunder : j.canBePrefix = false) (hkey : nameHash j.name.withoutContentHash = .ok key)
    (hl : s.csLookup j = (cs, .ok (some e))) :
    ∃ row stored now, s.cs.content.get? key = some row ∧ e = rowData row stored now := by
  rcases Forwarder.csLookup_eq_some hl with ⟨h, -⟩ | ⟨-, hr⟩
  · rw [hunder] at h; cases h
  · rw [ContentStore.read] at hr
    obtain ⟨key', hkey', hr⟩ := bind_eq_ok.mp hr
    obtain rfl := ok_inj hkey hkey'
    split at hr
    · cases hr
    · rename_i row hrow
      obtain ⟨stored, -, hr⟩ := bind_eq_ok.mp hr
      split at hr
      · cases hr
      · split at hr
        · cases hr
        · exact ⟨row, stored, s.time, deleteRows_sub s.cs _ key row hrow,
            (Option.some.inj (Except.ok.inj hr)).symm⟩

/-- Data whose row is held is served again when it has its content hash and meets the pin. -/
theorem servable_served_again {s : Forwarder} {j : Interest} {d : Data} {n : Name} {key : Bytes}
    {now : ℕ} {ttl : Option ℕ} (hunder : j.canBePrefix = false)
    (hkey : nameHash j.name.withoutContentHash = .ok key) (hn : Name.fromBytes n.encode = .ok n)
    (hrow : (s.cs.purgeExpired s.time).content.get? key = some (makeRow n.encode d now ttl))
    (hv : d.verifyContentHash = true)
    (hpin : ∀ pin ∈ j.name.contentHash, blake2b d.content = pin) :
    ∃ cs e, s.csLookup j = (cs, .ok (some e)) ∧ CopyOf d e := by
  refine ⟨s.cs.purgeExpired s.time, rowData (makeRow n.encode d now ttl) n s.time, ?_, n.encode,
    now, ttl, n, s.time, rfl⟩
  rw [Forwarder.csLookup, if_neg (by simp [hunder]), ContentStore.get]
  refine Prod.ext rfl ?_
  simp only [ContentStore.read, hkey, bind, Except.bind, hrow]
  rw [show (makeRow n.encode d now ttl).nameBytes = n.encode from rfl, hn]
  have hp : (j.name.contentHash.any fun pin =>
      blake2b (makeRow n.encode d now ttl).contentBytes != pin) = false := by
    cases hc : j.name.contentHash with
    | none => rfl
    | some pin => simp [makeRow, hpin pin hc]
  simp only [verifyContent_makeRow hv, Bool.not_true, Bool.false_eq_true, if_false, hp]
  rfl

namespace Client

variable {A : Name → Prop} {s t : Client} {l : Label}

/-- The names under which an event may store Data are in use. -/
def Label.Uses (A : Name → Prop) : Label → Prop
  | .forwarder l => l.Uses A
  | _ => True

/-- An attempt rejects nothing that the store would serve for the name again. -/
def Label.RejectsUnservable (s : Client) : Label → Prop
  | .finish f => ∀ fetch c deadline call d v' e, s.fetches f = some fetch →
      fetch.phase = .expressing c deadline → s.forwarder.loop.calls c = some call →
      call.phase = .returned (some d) →
      s.verifier.checkFetched d fetch.request.name.contentHash fetch.request.requireSignature =
        .ok (v', .rejected e) → Unservable call.interest d
  | _ => True

/-- All rejected Data is unservable, and the rows of the store are under their own names. -/
structure Clean (A : Name → Prop) (s : Client) : Prop where
  store : s.forwarder.cs.Named A
  rejected : ∀ i d, (i, d) ∈ s.rejected → Unservable i d

theorem express_named (hA : Distinguished A) {s : Forwarder} (h : s.cs.Named A) (i : Interest)
    (inFace : FaceId) (nonce : Bytes) : (s.express i inFace nonce).cs.Named A := by
  rw [Forwarder.express_cs, Forwarder.storeOp]
  split
  · exact h
  · split
    · exact h.apply hA (show StoreOp.Uses A (.getPrefix ..) from trivial)
    · exact h.apply hA (show StoreOp.Uses A (.get ..) from trivial)

theorem Clean.of_eq (h : Clean A s) (hcs : t.forwarder.cs = s.forwarder.cs)
    (hr : t.rejected = s.rejected) : Clean A t :=
  ⟨hcs ▸ h.store, hr ▸ h.rejected⟩

theorem Clean.step (hA : Distinguished A) (h : Clean A s) (hl : l.Uses A)
    (hok : l.RejectsUnservable s) (hs : step s l = some t) : Clean A t := by
  cases l with
  | forwarder l =>
    obtain ⟨fw, hfw, rfl⟩ := Option.map_eq_some_iff.mp hs
    refine ⟨?_, h.rejected⟩
    change fw.cs.Named A
    rw [Forwarder.step_cs hfw]
    cases hop : s.forwarder.storeOp l with
    | none => exact h.store
    | some op => exact h.store.apply hA (Forwarder.storeOp_uses hl hop)
  | attempt f face nonce refreshNonce =>
    obtain ⟨fetch, -, hs⟩ := Option.bind_eq_some_iff.mp hs
    split at hs
    · obtain rfl := Option.some.inj hs
      rw [beginAttempt]
      split
      · exact h.of_eq rfl rfl
      · refine ⟨?_, h.rejected⟩
        apply express_named hA
        exact h.store
    · cases hs
  | finish f =>
    obtain ⟨fetch, hf, hs⟩ := Option.bind_eq_some_iff.mp hs
    split at hs
    · rename_i c deadline hp
      obtain ⟨call, hc, hs⟩ := Option.bind_eq_some_iff.mp hs
      split at hs
      · rename_i d hd
        obtain rfl := Option.some.inj hs
        rw [checkResult]
        split
        · exact h.of_eq rfl rfl
        · rename_i v' e hcheck
          refine ⟨h.store, fun i' d' hm => ?_⟩
          rcases List.mem_cons.mp hm with heq | hm
          · obtain ⟨rfl, rfl⟩ := Prod.mk.inj heq
            exact hok fetch c deadline call d' v' e hf hp hc hd hcheck
          · exact h.rejected i' d' hm
        · exact h.of_eq rfl rfl
      · exact Option.some.inj hs ▸ h.of_eq rfl rfl
      · exact Option.some.inj hs ▸ h.of_eq rfl rfl
      · cases hs
    · cases hs
  | expire f =>
    obtain ⟨fetch, -, hs⟩ := Option.bind_eq_some_iff.mp hs
    split at hs
    · split at hs
      · exact Option.some.inj hs ▸ h.of_eq (Forwarder.cancel_cs ..) rfl
      · cases hs
    · cases hs
  | linkFailed f e =>
    obtain ⟨fetch, -, hs⟩ := Option.bind_eq_some_iff.mp hs
    split at hs
    · exact Option.some.inj hs ▸ h.of_eq rfl rfl
    · cases hs
  | wake f =>
    obtain ⟨fetch, -, hs⟩ := Option.bind_eq_some_iff.mp hs
    split at hs
    · exact Option.some.inj hs ▸ h.of_eq rfl rfl
    · cases hs
  | fetch request => exact Option.some.inj hs ▸ h.of_eq rfl rfl
  | announce addr validate => exact Option.some.inj hs ▸ h.of_eq rfl rfl
  | subscribe namePrefix => exact Option.some.inj hs ▸ h.of_eq rfl rfl

end Client

namespace PumpedClient

variable {A : Name → Prop} {s t : PumpedClient} {l : Label}

/-- A step that uses names in use, rejects nothing that the store would serve again and ends no
loop. -/
structure Spares (A : Name → Prop) (s : PumpedClient) (l : Label) : Prop where
  arrives : ∀ face raw d, l = .arrive face raw → parsePacket raw = .ok (.data d) → A d.name
  uses : ∀ l', l = .client l' → l'.Uses A
  rejects : ∀ l', l = .client l' → l'.RejectsUnservable s.client
  inTime : s.client.forwarder.cs.InTime s.client.forwarder.time
  readable : ∀ face raw, l = .arrive face raw → s.Readable raw

structure Reads (A : Name → Prop) (s : PumpedClient) : Prop where
  clean : s.client.Clean A
  consistent : s.client.forwarder.Consistent
  ended : s.ended = []

theorem Reads.step (hA : Distinguished A) (h : s.Reads A) (hl : s.Spares A l)
    (hs : s.step l = some t) : t.Reads A := by
  refine ⟨?_, consistent_step h.consistent hs, ?_⟩
  · rcases step_client hs with he | ⟨l', hl', ⟨face, raw, d, rfl, hp, rfl⟩ |
      ⟨face, raw, n, rfl, hp, rfl⟩ | rfl⟩
    · exact he ▸ h.clean
    · exact Client.Clean.step (l := .forwarder (.receiveData d face false)) hA h.clean
        (hl.arrives face raw d rfl hp) trivial hl'
    · exact Client.Clean.step (l := .forwarder (.receiveNack n.name face)) hA h.clean trivial
        trivial hl'
    · exact h.clean.step hA (hl.uses _ rfl) (hl.rejects _ rfl) hl'
  · rw [ended_step hl.inTime hl.readable hs, h.ended]

/-- Data that answers the call of an attempt and passes the checks is what the fetch returns. -/
theorem answer_returned {f : FetchId} {fetch : Fetch} {c : CallId} {deadline : ℕ} {call : Call}
    {fut : ℕ} {d : Data} {face : FaceId} {raw : Bytes} {v : Verifier} (h : s.Reads A)
    (hf : s.client.fetches f = some fetch) (hp : fetch.phase = .expressing c deadline)
    (hc : s.client.forwarder.loop.calls c = some call) (hfut : call.phase.future = some fut)
    (hst : s.client.forwarder.loop.notifiers.state fut = .pending)
    (hraw : parsePacket raw = .ok (.data d))
    (hm : Forwarder.answeredName s.client.forwarder.pit d.name.withoutContentHash =
      .ok (some call.interest.pitName))
    (hcheck : (s.client.observe (.receiveData d face false)).checkFetched d
      fetch.request.name.contentHash fetch.request.requireSignature = .ok (v, .accepted)) :
    ∃ t, exec step s [.arrive face raw, .client (.forwarder (.resume c)),
        .client (.finish f)] = some t ∧
      (t.client.fetches f).map Fetch.phase =
        some (.returned (some (s.client.maybeDecrypt d))) := by
  have hne : raw ≠ [] := by
    rintro rfl
    cases hraw
  have hface : face ∉ s.ended := by simp [h.ended]
  -- The Data arrives and completes the future of the call.
  let fw := s.client.forwarder.receiveData d face false
  have hcalls : fw.loop.calls c = some call :=
    (congrFun (Forwarder.receiveData_calls ..) c).trans hc
  have hdone : fw.loop.notifiers.state fut = .done (.data d) :=
    Forwarder.arrival_completes h.consistent hc hfut hst hm
  let s₁ : PumpedClient :=
    { client := { s.client with
        forwarder := fw, verifier := s.client.observe (.receiveData d face false) }
      ended := if s.client.receiveRaises d then face :: s.ended else s.ended }
  have h₁ : s.step (.arrive face raw) = some s₁ := by
    rw [step, if_neg hface, pump, if_neg hne]
    simp only [hraw]
    rfl
  -- The call goes on and returns the Data.
  obtain ⟨fw₂, hfw₂, hret⟩ : ∃ fw₂, fw.resume c = some fw₂ ∧ ∃ call₂,
      fw₂.loop.calls c = some call₂ ∧ call₂.phase = .returned (some d) := by
    rw [Forwarder.resume, hcalls]
    simp only [Option.bind_some]
    cases hphase : call.phase with
    | waiting out rest fut' deadline' =>
      obtain rfl : fut' = fut := by simpa [hphase, Phase.future] using hfut
      simp only [hdone]
      exact ⟨_, rfl, _, (EventLoop.calls_setCall ..).trans (if_pos rfl), rfl⟩
    | aggregated fut' deadline' =>
      obtain rfl : fut' = fut := by simpa [hphase, Phase.future] using hfut
      simp only [hdone]
      exact ⟨_, rfl, _, (EventLoop.calls_setCall ..).trans (if_pos rfl), rfl⟩
    | _ => simp [hphase, Phase.future] at hfut
  obtain ⟨call₂, hc₂, hp₂⟩ := hret
  let s₂ : PumpedClient := { s₁ with client := { s₁.client with forwarder := fw₂ } }
  have h₂ : s₁.step (.client (.forwarder (.resume c))) = some s₂ := by
    have hclient : s₁.client.step (.forwarder (.resume c)) = some s₂.client := by
      simp only [Client.step, Forwarder.step]
      rw [show s₁.client.forwarder = fw from rfl, hfw₂]
      rfl
    rw [step, hclient]
    rfl
  -- The fetch checks it.
  have h₃ : s₂.step (.client (.finish f)) =
      some { s₂ with client := s₂.client.checkResult f fetch call₂.interest d } := by
    have hclient : s₂.client.finish f = some (s₂.client.checkResult f fetch call₂.interest d) := by
      rw [Client.finish, show s₂.client.fetches f = some fetch from hf]
      simp only [Option.bind_some, hp]
      rw [show s₂.client.forwarder.loop.calls c = some call₂ from hc₂]
      simp only [Option.bind_some, hp₂]
    rw [step, Client.step, hclient]
    rfl
  refine ⟨{ s₂ with client := s₂.client.checkResult f fetch call₂.interest d }, ?_, ?_⟩
  · simp only [exec, h₁, h₂, h₃, Option.bind_some]
  · have hcheck₂ : s₂.client.verifier.checkFetched d fetch.request.name.contentHash
        fetch.request.requireSignature = .ok (v, .accepted) := hcheck
    simp only [Client.checkResult, hcheck₂]
    exact congrArg (Option.map Fetch.phase) (Function.update_self f _ s₂.client.fetches)

/-- While attempts reject only what the store refuses too and no packet ends a loop, no later lookup
for the name is answered with rejected Data. As long as the name is held with that Data only, the
next attempt is not answered by the store at all, and the next answer from the network that passes
the checks is what the fetch returns. -/
theorem rejected_not_served (hA : Distinguished A)
    (hs : Reachable Initial PumpedClient.step (Spares A) s)
    {i j : Interest} {d : Data} (hd : (i, d) ∈ s.client.rejected) (hj : A j.name)
    (hname : j.name = i.name) :
    (∀ cs e, s.client.forwarder.csLookup j = (cs, .ok (some e)) → ¬ CopyOf d e) ∧
    (∀ key nameBytes now ttl cs e, j.canBePrefix = false →
      nameHash j.name.withoutContentHash = .ok key →
      s.client.forwarder.cs.content.get? key = some (makeRow nameBytes d now ttl) →
      s.client.forwarder.csLookup j ≠ (cs, .ok (some e))) ∧
    (∀ f fetch c deadline call fut d' face raw v, s.client.fetches f = some fetch →
      fetch.phase = .expressing c deadline → s.client.forwarder.loop.calls c = some call →
      call.phase.future = some fut → s.client.forwarder.loop.notifiers.state fut = .pending →
      parsePacket raw = .ok (.data d') →
      Forwarder.answeredName s.client.forwarder.pit d'.name.withoutContentHash =
        .ok (some call.interest.pitName) →
      (s.client.observe (.receiveData d' face false)).checkFetched d'
        fetch.request.name.contentHash fetch.request.requireSignature = .ok (v, .accepted) →
      ∃ t, exec PumpedClient.step s [.arrive face raw, .client (.forwarder (.resume c)),
          .client (.finish f)] = some t ∧
        (t.client.fetches f).map Fetch.phase =
          some (.returned (some (s.client.maybeDecrypt d')))) := by
  have hreads : s.Reads A := hs.invariant (I := Reads A)
    (fun s hi => ⟨⟨.empty hi.client.content hi.client.namePrefixes, fun i d hm => by
      rw [hi.client.rejected] at hm; cases hm⟩, hi.client.forwarder.consistent, hi.ended⟩)
    fun _ _ _ hi hok hst => hi.step hA hok hst
  have hnot : ∀ cs e, s.client.forwarder.csLookup j = (cs, .ok (some e)) → ¬ CopyOf d e :=
    fun cs e => (hreads.clean.rejected i d hd).not_copy hA hreads.clean.store hj hname
  refine ⟨hnot, fun key nameBytes now ttl cs e hunder hkey hrow hl => ?_, ?_⟩
  · obtain ⟨row, stored, now', hr, he⟩ := lookup_row hunder hkey hl
    obtain rfl := Option.some.inj (hr.symm.trans hrow)
    exact hnot cs e hl ⟨nameBytes, now, ttl, stored, now', he⟩
  · intro f fetch c deadline call fut d' face raw v hf hp hc hfut hst hraw hm hcheck
    exact answer_returned hreads hf hp hc hfut hst hraw hm hcheck

end PumpedClient

end Sharing

namespace PumpedClient

open Forwarder Client

def consumer : PumpedClient where
  client := { verifier := { identities := fun _ => some producerKey } }

theorem consumer_initial : consumer.Initial :=
  ⟨⟨⟨rfl, fun _ => rfl, rfl, rfl⟩, rfl, rfl, rfl, rfl⟩, rfl⟩

def arriving (d : Data) : Label := .arrive 1 ((Packet.data d).toBytes.toOption.getD [])

/-- The first attempt of a fetch of `relayName` over face 1, which answers with `d`. -/
def firstAnswer (d : Data) : List Label :=
  [.client (.fetch { name := relayName, maxRetries := 1 }), .client (.attempt 0 1 [1] []),
    .client (.forwarder (.sent 0)), arriving d, .client (.forwarder (.resume 0)),
    .client (.finish 0)]

def consumerAfter (ls : List Label) : PumpedClient :=
  letI := Data.paddedHash
  (exec step consumer ls).getD consumer

def corrupt : Data where
  name := relayName
  content := [0x68, 0x69]
  metadata := { contentHash := some (List.replicate 32 0) }

/-- The client after the first events of an attempt that `corrupt` answers. -/
def corruptAfter (count : ℕ) : PumpedClient := consumerAfter ((firstAnswer corrupt).take count)

theorem corruptAfter_rejects :
    @Label.RejectsUnservable Data.paddedHash (corruptAfter 5).client (.finish 0) :=
  letI := Data.paddedHash
  fun fetch c deadline call d v' e hf hp hc hd _ => by
    obtain rfl := Option.some.inj ((show _ = some _ from rfl).symm.trans hf)
    obtain ⟨rfl, -⟩ := FetchPhase.expressing.inj
      ((show _ = FetchPhase.expressing _ _ from rfl).symm.trans hp)
    obtain rfl := Option.some.inj ((show _ = some _ from rfl).symm.trans hc)
    obtain rfl : corrupt = d := Option.some.inj (Phase.returned.inj hd)
    exact .inl (by decide)

theorem corrupt_not_served :
    letI := Data.paddedHash
    ∃ i, Run step (Spares relayNames) consumer (firstAnswer corrupt) (corruptAfter 6) ∧
      (i, corrupt) ∈ (corruptAfter 6).client.rejected ∧
      ∀ cs e, (corruptAfter 6).client.forwarder.csLookup i = (cs, .ok (some e)) →
        ¬ CopyOf corrupt e := by
  let := Data.paddedHash
  have htime {s : PumpedClient} (ht : s.client.forwarder.time = 0)
      (hd : s.client.forwarder.cs.defaultTtl = none) (hp : s.client.forwarder.cs.prefixTtls = []) :
      s.client.forwarder.cs.InTime s.client.forwarder.time := by
    rw [ContentStore.InTime, ht, hd, hp]
    exact ⟨by decide, (fun ttl h => by cases h), fun e h => by cases h⟩
  have hown {s : PumpedClient} {l : Client.Label} (hu : l.Uses relayNames)
      (hr : l.RejectsUnservable s.client)
      (ht : s.client.forwarder.cs.InTime s.client.forwarder.time) :
      s.Spares relayNames (.client l) := by
    refine ⟨(fun _ _ _ h => by cases h), fun l' h => ?_, fun l' h => ?_, ht,
      fun _ _ h => by cases h⟩
    · obtain rfl := Label.client.inj h
      exact hu
    · obtain rfl := Label.client.inj h
      exact hr
  have hdata {raw : Bytes} {d : Data} {face : FaceId} (h : arriving corrupt = .arrive face raw)
      (hp : parsePacket raw = .ok (.data d)) : d = corrupt := by
    obtain ⟨-, rfl⟩ := Label.arrive.inj h
    exact (Packet.data.inj (Except.ok.inj hp)).symm
  have harrive : (corruptAfter 3).Spares relayNames (arriving corrupt) := by
    refine ⟨fun face raw d h hp => hdata h hp ▸ ⟨1, rfl⟩, (fun _ h => by cases h),
      (fun _ h => by cases h), htime rfl rfl rfl, fun face raw h => ⟨?_, fun d hp => ?_⟩⟩
    · obtain ⟨-, rfl⟩ := Label.arrive.inj h
      exact List.cons_ne_nil _ _
    · obtain rfl := hdata h hp
      refine ⟨rfl, fun m _ => ⟨?_, ?_, ?_⟩⟩
      · exact fun x hx => by cases hx
      · exact fun hx => by cases hx
      · exact fun x hx => by cases hx
  have hrun : Run step (Spares relayNames) consumer (firstAnswer corrupt) (corruptAfter 6) :=
    .cons (t := corruptAfter 1) (hown trivial trivial (htime rfl rfl rfl)) rfl
      (.cons (t := corruptAfter 2) (hown trivial trivial (htime rfl rfl rfl)) rfl
        (.cons (t := corruptAfter 3) (hown trivial trivial (htime rfl rfl rfl)) rfl
          (.cons (t := corruptAfter 4) harrive rfl
            (.cons (t := corruptAfter 5) (hown trivial trivial (htime rfl rfl rfl)) rfl
              (.cons (hown trivial corruptAfter_rejects (htime rfl rfl rfl)) rfl (.nil _))))))
  exact ⟨_, hrun, List.mem_singleton.mpr rfl,
    (rejected_not_served relayNames_distinguished ⟨consumer, _, consumer_initial, hrun⟩
      (List.mem_singleton.mpr rfl) ⟨1, rfl⟩ rfl).1⟩

/-- Data with a bad signature is rejected, served to the retry by the cache and rejected again. -/
theorem rejected_served_to_retry :
    letI := Data.paddedHash
    let s := consumerAfter (firstAnswer forged)
    let t := consumerAfter (firstAnswer forged ++ [.client (.attempt 0 1 [2] []),
      .client (.finish 0)])
    (∃ i, (i, forged) ∈ s.client.rejected ∧ ∃ cs e,
      s.client.forwarder.csLookup i = (cs, .ok (some e)) ∧ CopyOf forged e) ∧
    (t.client.fetches 0).map Fetch.phase =
      some (.raised (.valueError "Data signature verification failed")) :=
  letI := Data.paddedHash
  ⟨⟨_, List.mem_singleton.mpr rfl, _, _, rfl, relayName.encode, 0, none, relayName, 0, rfl⟩, rfl⟩

end PumpedClient

end RnsIcn
