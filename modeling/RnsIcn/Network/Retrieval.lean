import RnsIcn.Server.Keys
import RnsIcn.Server.Outflow
import RnsIcn.Server.Propagation
import RnsIcn.Server.Resource
import RnsIcn.Server.Signing
import RnsIcn.Server.Stale
import RnsIcn.Store.Recency
import RnsIcn.Wire.Relay

/-! # Content comes back along a path

An Interest for an exact name goes from relay to relay up to a server that can answer it, and the
answer comes back to where the Interest came from, if the links deliver what is sent and the
handlers that wait are woken up. The relays keep a copy.
-/

namespace RnsIcn

open Effect Transition Fallible

/-- The Interest as `fetch` makes it, for one name. -/
structure Interest.Exact (i : Interest) : Prop where
  fits : i.Fits
  selector : i.selector = none
  exact : i.canBePrefix = false
  anyAge : i.mustBeFresh = false
  content : isHealthInterest i.name = false

/-- The Interest with as many hops left. -/
def Interest.hops (i : Interest) (hopLimit : ℕ) : Interest := { i with hopLimit }

theorem Interest.Exact.hops {i : Interest} {k : ℕ} (h : i.Exact) (hk : k < 256) :
    (i.hops k).Exact :=
  ⟨⟨h.fits.name, h.fits.nonce, h.fits.lifetime, h.fits.minSequence, hk⟩, h.selector, h.exact,
    h.anyAge, h.content⟩

namespace Forwarder

variable [Hashlib] {s : Forwarder} {i : Interest} {inFace up : FaceId}

/-- The forwarder has nothing to answer the Interest with, and it knows where to ask. -/
structure Routes (s : Forwarder) (i : Interest) (inFace up : FaceId) : Prop where
  missing : (s.cs.get i.name s.time).2 = .ok none
  idle : s.pit.find i.name = none
  unseen : s.pit.checkLoop inFace i.nonce = false
  routed : s.strategy.firstUsableFace s.loop.monotonic (s.fib.lookup i.name) = some up
  linked : up ∈ s.faces

theorem usable_cons (h : s.Routes i inFace up) :
    ∃ rest, s.strategy.usableFaces s.loop.monotonic (s.fib.lookup i.name) = up :: rest := by
  have hrouted := h.routed
  unfold BestRoute.firstUsableFace at hrouted
  cases hu : s.strategy.usableFaces s.loop.monotonic (s.fib.lookup i.name) with
  | nil =>
    rw [hu] at hrouted
    cases hrouted
  | cons face rest =>
    rw [hu] at hrouted
    exact ⟨rest, by rw [Option.some.inj hrouted]⟩

/-- The Interest is sent to the next hop with a hop less, and its entry waits. -/
theorem express_sends (h : s.Routes i inFace up) (hi : i.Exact) {hopLimit : ℕ}
    (hh : i.hopLimit = hopLimit + 1) (nonce : Bytes) : ∃ call rest,
      (s.express i inFace nonce).loop.calls s.loop.nextCall = some call ∧
      call.interest = i.hops hopLimit ∧ call.phase = .sending up rest ∧
      ((s.express i inFace nonce).pit.find i.pitName).isSome = true ∧
      (s.express i inFace nonce).cs = s.cs.purgeExpired s.time ∧
      (s.express i inFace nonce).time = s.time := by
  obtain ⟨rest, husable⟩ := usable_cons h
  have hlookup : s.csLookup i = (s.cs.purgeExpired s.time, .ok none) := by
    rw [csLookup, hi.exact]
    exact Prod.ext rfl h.missing
  have hless : hopLimit < 256 := (Nat.lt_of_succ_lt (hh ▸ hi.fits.hopLimit : hopLimit + 1 < 256))
  have hfits : (Packet.interest (i.hops hopLimit)).Fits :=
    ⟨hi.fits.name, hi.fits.nonce, hi.fits.lifetime, hi.fits.minSequence, hless⟩
  obtain ⟨raw, hraw⟩ := hfits.toBytes_isOk
  have hraw : (i.hops hopLimit).toBytes = .ok raw := hraw
  -- The call is spawned and the decision is made for the nonce that has been noted.
  set u : Forwarder := { s with
    cs := s.cs.purgeExpired s.time
    pit := s.pit.recordNonce inFace i.nonce s.loop.monotonic
    loop := s.loop.spawn (.ofInterest i inFace) } with hu
  have hexpress : s.express i inFace nonce = u.enact s.loop.nextCall (.ofInterest i inFace) nonce
      (s.fib.lookup i.name) (u.strategy.decide u.loop.monotonic i (s.fib.lookup i.name)
        (u.pit.find i.name) none) := by
    rw [express, if_neg (by rw [h.unseen]; exact Bool.false_ne_true), hlookup]
    rfl
  have hdecide : u.strategy.decide u.loop.monotonic i (s.fib.lookup i.name)
      (u.pit.find i.name) none = .forwardTo up := by
    rw [BestRoute.decide, Option.filter_none, BestRoute.decidePending, hu,
      Pit.find_recordNonce, h.idle]
    simp only [Option.any_none, Bool.false_eq_true, if_false]
    rw [show (s.loop.spawn (.ofInterest i inFace)).monotonic = s.loop.monotonic from rfl, h.routed]
  have hcandidates : u.failoverCandidates (s.fib.lookup i.name) up = up :: rest := by
    rw [failoverCandidates, show u.loop.monotonic = s.loop.monotonic from rfl, husable]
  have hhops : ¬ (Call.ofInterest i inFace).interest.hopLimit = 0 := by
    rw [show (Call.ofInterest i inFace).interest.hopLimit = hopLimit + 1 from hh]
    exact Nat.succ_ne_zero hopLimit
  have hsent : { (Call.ofInterest i inFace).interest with
      hopLimit := (Call.ofInterest i inFace).interest.hopLimit - 1 } = i.hops hopLimit := by
    rw [show (Call.ofInterest i inFace).interest.hopLimit = hopLimit + 1 from hh,
      Nat.add_sub_cancel]
    rfl
  have hsends : s.express i inFace nonce = { u with
      pit := (u.pit.insertOrAggregate i.pitName inFace (i.hops hopLimit)
        u.loop.monotonic).setOutFace i.pitName up
      loop := u.loop.send s.loop.nextCall (.ofInterest (i.hops hopLimit) inFace) up rest } := by
    rw [hexpress, hdecide, enact, hcandidates, forward, if_neg hhops, hsent, attempts]
    simp only [hraw, if_pos (show up ∈ u.faces from h.linked)]
    rfl
  rw [hsends]
  refine ⟨_, rest, (EventLoop.calls_send ..).trans (if_pos rfl), rfl, rfl, ?_, rfl, rfl⟩
  rw [Pit.find_setOutFace, if_pos rfl, Pit.find_insertOrAggregate_self]
  rfl

variable {c : CallId} {n : Name} {d : Data}

omit [Hashlib] in
def HasAsked (s : Forwarder) (c : CallId) (up : FaceId) (i : Interest) : Prop :=
  ∃ call rest fut deadline, s.loop.calls c = some call ∧ call.interest = i ∧
    call.phase = .waiting up rest fut deadline ∧ s.loop.notifiers.state fut = .pending ∧
    fut ∈ s.loop.notifiers.notifiers i.pitName ∧ (s.pit.find i.pitName).isSome = true

omit [Hashlib] in
theorem sent_hasAsked {call : Call} {rest : List FaceId} (hc : s.loop.calls c = some call)
    (hp : call.phase = .sending up rest) (hpit : (s.pit.find call.interest.pitName).isSome = true) :
    ∃ t, s.sent c = some t ∧ t.HasAsked c up call.interest ∧ t.cs = s.cs ∧ t.time = s.time := by
  refine ⟨{ s with loop := s.loop.wait c call call.interest.pitName (.waiting up rest) }, ?_, ?_,
    rfl, rfl⟩
  · rw [sent, hc, Option.bind_some, hp]
  · exact ⟨_, rest, _, _, (EventLoop.calls_wait ..).trans (if_pos rfl), rfl, rfl,
      Futures.state_register_self .., Futures.mem_notifiers_register.mpr (.inr ⟨rfl, rfl⟩), hpit⟩

theorem receiveData_wakes (h : s.HasAsked c up i) (hd : d.name.withoutContentHash = i.pitName)
    (face : FaceId) (cacheUnsolicited : Bool) : ∃ call rest fut deadline,
      (s.receiveData d face cacheUnsolicited).loop.calls c = some call ∧
      call.phase = .waiting up rest fut deadline ∧
      (s.receiveData d face cacheUnsolicited).loop.notifiers.state fut = .done (.data d) ∧
      (s.receiveData d face cacheUnsolicited).cs = s.cs.apply (.insert d.name d s.time) ∧
      (s.receiveData d face cacheUnsolicited).time = s.time := by
  obtain ⟨call, rest, fut, deadline, hc, -, hp, hpending, hmem, hpit⟩ := h
  have hanswered : answeredName s.pit d.name.withoutContentHash = .ok (some i.pitName) := by
    rw [answeredName, hd, if_pos hpit]
  have hreceived : s.receiveData d face cacheUnsolicited =
      (notifyWaiters { s with loop := s.loop.record (.data face d) } i.pitName d).cacheAnswer d
        i.pitName := by
    simp only [receiveData, hanswered]
  have hdone : (s.loop.notifiers.announce i.pitName (.data d)).state fut = .done (.data d) := by
    simp only [Futures.announce, if_pos hmem, hpending, Futures.complete]
  refine ⟨call, rest, fut, deadline, ?_⟩
  rw [hreceived, cacheAnswer, ContentStore.apply]
  split
  · rename_i e he
    have he : s.cs.insert d.name d s.time = .error e := he
    exact ⟨hc, hp, hdone, by rw [he]; rfl, rfl⟩
  · rename_i cs he
    have he : s.cs.insert d.name d s.time = .ok cs := he
    exact ⟨hc, hp, hdone, by rw [he]; rfl, rfl⟩

omit [Hashlib] in
theorem resume_returns {call : Call} {rest : List FaceId} {fut deadline : ℕ}
    (hc : s.loop.calls c = some call) (hp : call.phase = .waiting up rest fut deadline)
    (hdone : s.loop.notifiers.state fut = .done (.data d)) :
    ∃ t call', s.resume c = some t ∧ t.loop.calls c = some call' ∧
      call'.phase = .returned (some d) ∧ t.cs = s.cs ∧ t.time = s.time := by
  refine ⟨s.attemptSucceeded c call up d, { call with phase := .returned (some d) }, ?_, ?_, rfl,
    rfl, rfl⟩
  · rw [resume, hc, Option.bind_some, hp]
    simp only [hdone]
  · exact (EventLoop.calls_setCall ..).trans (if_pos rfl)

end Forwarder

namespace Server

variable [Hashlib] {s t : Server} {i : Interest} {down up : FaceId} {raw : Bytes} {drawn : Drawn}
  {d e : Data}

/-- A server that is not the producer and passes the Interest on. -/
structure Passes (s : Server) (i : Interest) (down up : FaceId) : Prop where
  address : s.rnsAddr.length = RNS_ADDR_BYTES
  foreign : i.name.rnsAddr ≠ s.rnsAddr
  asked : down ∈ s.faces
  routes : s.forwarder.Routes i down up

/-- The server can answer the Interest itself. -/
def Supplies (s : Server) (i : Interest) (e : Data) : Prop :=
  (exec (serveFromCs i) s).1 = .ok (some e)

/-- The store takes the Data, and it has room or its rows are not newer. -/
structure HasRoom (s : Server) (d : Data) : Prop where
  insert : ∃ cs, s.forwarder.cs.insert d.name d s.forwarder.time = .ok cs
  size : s.forwarder.cs.content.size ≤ s.forwarder.cs.max
  max : 0 < s.forwarder.cs.max
  room : s.forwarder.cs.content.size < s.forwarder.cs.max ∨
    ∀ k r, s.forwarder.cs.content.get? k = some r → r.insertedAt ≤ s.forwarder.time

/-- The answer to an exact Interest of any age is what the store has, signed if it can be. -/
theorem exec_serveFromCs (hi : i.Exact) : exec (serveFromCs i) s =
    match (s.forwarder.cs.get i.name s.forwarder.time).2 with
    | .ok r => exec (maybeSignOpt r) { s with forwarder := s.forwarder.swept }
    | .error e => (.error e, { s with forwarder := s.forwarder.swept }) := by
  have hfilter (r : Option Data) : (r.filter fun d => !(i.mustBeFresh &&
      !d.metadata.freshness.fresh && i.name.rnsAddr != s.rnsAddr)) = r := by
    rw [hi.anyAge]
    cases r <;> rfl
  have hget : exec (csGet i.name) s = ((s.forwarder.cs.get i.name s.forwarder.time).2,
      { s with forwarder := s.forwarder.swept }) := by
    simp only [csGet, onStore, exec_bind, exec_get, exec_modify, exec_ofExcept]
    rfl
  simp only [serveFromCs, csLookup, hi.exact, Bool.false_eq_true, if_false, exec_bind, exec_get,
    hget]
  cases (s.forwarder.cs.get i.name s.forwarder.time).2 with
  | error e => rfl
  | ok r =>
    simp only []
    rcases hsign : exec (maybeSignOpt r) { s with forwarder := s.forwarder.swept } with ⟨_ | r', u⟩
    · rfl
    · simp only [exec_pure, hfilter]

theorem Passes.manifestName (h : s.Passes i down up) :
    ∃ n, s.manifestName = .ok n ∧ i.name ≠ n := by
  refine ⟨⟨s.rnsAddr, [MANIFEST_LABEL], none⟩, ?_, fun he => h.foreign (by rw [he])⟩
  rw [Server.manifestName, Name.new, if_neg (not_not.mpr h.address)]

theorem incoming_forwards (h : s.Passes i down up) (hi : i.Exact)
    (hraw : parsePacket raw = .ok (.interest i)) (drawn : Drawn) :
    s.step (.incoming down raw drawn) = some { s with
      suspended := .forwarding s.forwarder.loop.nextCall down i :: s.suspended
      forwarder := s.forwarder.swept.express i down drawn.nonce } := by
  obtain ⟨n, hn, hne⟩ := h.manifestName
  have hserve : exec (serveFromCs i) s = (.ok none, { s with forwarder := s.forwarder.swept }) := by
    rw [exec_serveFromCs hi, h.routes.missing]
    rfl
  rw [step, after, handleIncoming, hraw]
  simp only [handlePacket, hi.content, Bool.false_eq_true, if_false, handleInterest, exec_bind,
    hserve, exec_get]
  have hname : (ofExcept (Server.manifestName { s with forwarder := s.forwarder.swept }) :
      Handler Name) = ofExcept s.manifestName := rfl
  rw [hname, hn]
  simp only [exec_ofExcept, if_neg hne, exec_bind, suspend, exec_modify]
  rfl

/-- The server waits for what it has sent to the face, and another face waits for the answer. -/
structure Awaits (s : Server) (c : CallId) (i : Interest) (down up : FaceId) (h : ℕ) : Prop where
  asked : down ∈ s.faces
  waits : waitingFor c s.suspended = some (down, i)
  sent : s.forwarder.HasAsked c up (i.hops h)

omit [Hashlib] in
/-- The two servers differ in their forwarders, their handlers and what they have sent. -/
def SameKeys (s t : Server) : Prop := t.rnsAddr = s.rnsAddr ∧ t.signer = s.signer

theorem step_forwarder {l : Forwarder.Label} {fw : Forwarder} (hl : isInternal l = true)
    (hs : s.forwarder.step l = some fw) :
    s.step (.forwarder l) = some { s with forwarder := fw } := by
  rw [step, if_pos hl, hs]
  rfl

theorem relay_asks (h : s.Passes i down up) (hi : i.Exact) {k : ℕ} (hh : i.hopLimit = k + 1)
    (hraw : parsePacket raw = .ok (.interest i)) (drawn : Drawn) : ∃ t u,
      s.step (.incoming down raw drawn) = some t ∧
      t.step (.forwarder (.sent s.forwarder.loop.nextCall)) = some u ∧
      u.Awaits s.forwarder.loop.nextCall i down up k ∧
      u.forwarder.cs = s.forwarder.cs.purgeExpired s.forwarder.time ∧
      u.forwarder.time = s.forwarder.time ∧ s.SameKeys u := by
  have hmissing : (s.forwarder.swept.cs.get i.name s.forwarder.swept.time).2 = .ok none := by
    rw [Forwarder.swept, ContentStore.get, ContentStore.purgeExpired_purgeExpired]
    exact h.routes.missing
  have hswept : s.forwarder.swept.Routes i down up :=
    ⟨hmissing, h.routes.idle, h.routes.unseen, h.routes.routed, h.routes.linked⟩
  obtain ⟨call, rest, hc, hcall, hp, hpit, hcs, htime⟩ :=
    Forwarder.express_sends hswept hi hh drawn.nonce
  have hname : call.interest.pitName = i.pitName := by rw [hcall]; rfl
  obtain ⟨fw, hfw, hawaits, hfcs, hftime⟩ := Forwarder.sent_hasAsked hc hp (hname ▸ hpit)
  refine ⟨_, _, incoming_forwards h hi hraw drawn, step_forwarder rfl hfw,
    ⟨h.asked, if_pos rfl, hcall ▸ hawaits⟩, ?_, ?_, rfl, rfl⟩
  · rw [hfcs, hcs]
    exact ContentStore.purgeExpired_purgeExpired ..
  · rw [hftime, htime]
    rfl

theorem incoming_data (hraw : Data.fromBytes raw = .ok d) (hbytes : d.toBytes = .ok raw)
    (face : FaceId) (drawn : Drawn) : ∃ t cacheUnsolicited,
      s.step (.incoming face raw drawn) = some t ∧
      t.forwarder = s.forwarder.receiveData d face cacheUnsolicited ∧
      t.suspended = s.suspended ∧ t.faces = s.faces ∧ s.SameKeys t := by
  cases hp : s.peers.contains face with
  | false =>
    exact ⟨_, false, congrArg some (after_handleData hraw hp), rfl, rfl, rfl, rfl, rfl⟩
  | true =>
    refine ⟨_, true, congrArg some (after_handlePeerData hraw hbytes hp), ?_⟩
    split <;> exact ⟨rfl, rfl, rfl, rfl, rfl⟩

theorem relay_answers {c : CallId} {k : ℕ} (h : s.Awaits c i down up k)
    (hraw : Data.fromBytes raw = .ok d) (hd : d.name.withoutContentHash = i.pitName)
    (hbytes : d.toBytes = .ok raw) (drawn : Drawn) : ∃ t u v,
      s.step (.incoming up raw drawn) = some t ∧ t.step (.forwarder (.resume c)) = some u ∧
      u.step (.forwarded c) = some v ∧ v.sent = (down, .data d) :: u.sent ∧
      v.forwarder.cs = s.forwarder.cs.apply (.insert d.name d s.forwarder.time) ∧
      v.forwarder.time = s.forwarder.time ∧ s.SameKeys v := by
  obtain ⟨t, b, ht, hfw, hsuspended, hfaces, haddr, hsigner⟩ :=
    incoming_data (s := s) hraw hbytes up drawn
  obtain ⟨call, rest, fut, deadline, hc, hp, hdone, hcs, htime⟩ :=
    Forwarder.receiveData_wakes h.sent hd up b
  rw [← hfw] at hc hdone hcs htime
  obtain ⟨fw, call', hresume, hc', hp', hcs', htime'⟩ := Forwarder.resume_returns hc hp hdone
  have hforwarded : Server.forwarded { t with forwarder := fw } c =
      some (after (answerForwarded c down i (.returned (some d))) { t with forwarder := fw }) := by
    have hwaits : waitingFor c t.suspended = some (down, i) := by rw [hsuspended, h.waits]
    rw [Server.forwarded, hwaits, Option.bind_some]
    simp only [hc', Option.bind_some, hp']
  have hsend : after (answerForwarded c down i (.returned (some d))) { t with forwarder := fw } =
      { t with
        forwarder := fw
        suspended := t.suspended.erase (.forwarding c down i)
        sent := (down, .data d) :: t.sent } := by
    have hface : down ∈ t.faces := hfaces ▸ h.asked
    have hd' : (Packet.data d).toBytes = .ok raw := hbytes
    simp [after, answerForwarded, resumed, send, exec_bind, hface, hd']
  refine ⟨t, _, _, ht, step_forwarder rfl hresume, hforwarded.trans (congrArg some hsend), rfl,
    hcs'.trans hcs, htime'.trans htime, haddr, hsigner⟩

omit [Hashlib] in
theorem unsent_swept (s : Server) : Unsent s { s with forwarder := s.forwarder.swept } :=
  have httls := ContentStore.deleteRows_ttls s.forwarder.cs
    (s.forwarder.cs.expiredKeys s.forwarder.time)
  ⟨⟨rfl, rfl, rfl, httls.1, httls.2⟩, rfl, rfl⟩

/-- What a server supplies is read from its store, perhaps signed, and nothing is sent meanwhile. -/
theorem Supplies.exec_eq (h : s.Supplies i e) (hi : i.Exact) : ∃ d u,
    exec (serveFromCs i) s = (.ok (some e), u) ∧ u.sent = s.sent ∧ u.faces = s.faces ∧
      (s.forwarder.cs.get i.name s.forwarder.time).2 = .ok (some d) ∧ d.Resigned e := by
  rw [Supplies, exec_serveFromCs hi] at h
  rw [exec_serveFromCs hi]
  cases hget : (s.forwarder.cs.get i.name s.forwarder.time).2 with
  | error x =>
    rw [hget] at h
    cases h
  | ok r =>
    rw [hget] at h
    cases r with
    | none => cases h
    | some d =>
      have hsign := Triple.and (maybeSign_unsent (s := s) d)
        (maybeSign_resigned (I := fun _ => True) (fun _ _ h => h) d)
        { s with forwarder := s.forwarder.swept } ⟨s.unsent_swept, trivial⟩
      simp only [maybeSignOpt, map_eq_pure_bind, exec_bind] at h hsign ⊢
      rcases hx : exec (maybeSign d) { s with forwarder := s.forwarder.swept } with ⟨_ | d', u⟩
      · rw [hx] at h
        cases h
      · rw [hx] at h hsign
        obtain rfl : d' = e := Option.some.inj (Except.ok.inj h)
        exact ⟨d, u, rfl, hsign.1.1.sent, hsign.1.1.faces, rfl, hsign.2.2⟩

theorem Supplies.verified (h : s.Supplies i e) (hi : i.Exact) :
    e.verifyContentHash = true ∧ ∀ pin ∈ i.name.contentHash, blake2b e.content = pin := by
  obtain ⟨d, -, -, -, -, hget, hsigned⟩ := h.exec_eq hi
  obtain ⟨row, hrow, -, hd⟩ := ContentStore.get_eq_some_iff.mp hget
  have hcontent : e.content = row.contentBytes := by rw [hsigned.content, hd]; rfl
  have hhash : e.metadata.contentHash = some row.metadataJson.contentHash := by
    rw [hsigned.contentHash, hd]
    rfl
  refine ⟨?_, fun pin hpin => hcontent ▸ hrow.pin pin hpin⟩
  rw [Data.verifyContentHash, hhash, hcontent]
  exact hrow.verified

theorem supplier_answers (h : s.Supplies i e) (hi : i.Exact) {face : FaceId}
    (hraw : parsePacket raw = .ok (.interest i)) (hface : face ∈ s.faces) (he : e.Fits)
    (drawn : Drawn) : ∃ t, s.step (.incoming face raw drawn) = some t ∧
      t.sent = (face, .data e) :: s.sent := by
  obtain ⟨-, u, hserve, hsent, hfaces, -⟩ := h.exec_eq hi
  obtain ⟨b, hb⟩ := Packet.Fits.toBytes_isOk (p := .data e) he
  refine ⟨_, rfl, ?_⟩
  rw [after, handleIncoming, hraw]
  simp only [handlePacket, hi.content, Bool.false_eq_true, if_false, handleInterest, exec_bind,
    hserve, exec_send hb, sendAll_sent]
  rw [hfaces, hsent, List.filter_singleton, decide_eq_true hface]
  rfl

theorem makeRow_live (b : Bytes) (d : Data) (now : ℕ) (ttl : Option ℕ) :
    ¬ (ContentStore.makeRow b d now ttl).Expired now := by
  rintro ⟨x, hx, hle⟩
  cases ttl with
  | none => cases hx
  | some ttl =>
    have hx : (if ttl = 0 then none else some (now + ttl)) = some x := hx
    split at hx
    · cases hx
    · rename_i hpos
      obtain rfl := Option.some.inj hx
      omega

theorem maybeSignOpt_foreign (h : d.name.rnsAddr ≠ s.rnsAddr) :
    (exec (maybeSignOpt (some d)) s).1 = .ok (some d) := by
  have hsign : exec (maybeSign d) s = (.ok d, s) := by
    rw [maybeSign, exec_bind, exec_get]
    cases hs : s.signer with
    | none => simp [hs]
    | some signer => simp [hs, h]
  rw [maybeSignOpt, map_eq_pure_bind, exec_bind, hsign]
  rfl

theorem supplies_copy (hi : i.Exact) (hd : d.name.withoutContentHash = i.pitName)
    (hv : d.verifyContentHash = true) (hpin : ∀ pin ∈ i.name.contentHash, blake2b d.content = pin)
    (hroom : s.HasRoom d) (hforeign : i.name.rnsAddr ≠ t.rnsAddr)
    (hcs : t.forwarder.cs =
      (s.forwarder.cs.purgeExpired s.forwarder.time).apply (.insert d.name d s.forwarder.time))
    (htime : t.forwarder.time = s.forwarder.time) :
    ∃ e, t.Supplies i e ∧ e.content = d.content ∧ e.name = i.pitName ∧
      e.metadata.encrypted = d.metadata.encrypted := by
  have hfits : i.pitName.Fits :=
    ⟨⟨hi.fits.name.encodable.count, hi.fits.name.encodable.component⟩, hi.fits.name.count,
      fun h hh => by cases hh⟩
  have hsub : ContentStore.Sub (s.forwarder.cs.purgeExpired s.forwarder.time) s.forwarder.cs :=
    ContentStore.deleteRows_sub _ _
  have hsize : (s.forwarder.cs.purgeExpired s.forwarder.time).content.size ≤
      s.forwarder.cs.content.size := ContentStore.size_deleteRows_le ..
  have hmax : (s.forwarder.cs.purgeExpired s.forwarder.time).max = s.forwarder.cs.max :=
    ContentStore.deleteRows_max _ _
  have httls := ContentStore.deleteRows_ttls s.forwarder.cs
    (s.forwarder.cs.expiredKeys s.forwarder.time)
  obtain ⟨cs, hins⟩ := ContentStore.insert_isOk httls.1 httls.2 hroom.insert
  have hrow := ContentStore.get?_insert_self hins (hmax ▸ hsize.trans hroom.size)
    (hmax ▸ hroom.max) (hroom.room.imp (fun h => hmax ▸ hsize.trans_lt h)
      fun h k r hr => h k r (hsub k r hr))
  have hcs' : t.forwarder.cs = cs := by
    rw [hcs, ContentStore.apply]
    exact (congrArg _ hins).trans rfl
  obtain ⟨ttl, hrow⟩ : ∃ ttl, t.forwarder.cs.content.get? (blake2b i.pitName.encode) =
      some (ContentStore.makeRow i.pitName.encode d s.forwarder.time ttl) := by
    rw [hd] at hrow
    exact ⟨_, hcs' ▸ hrow⟩
  have hanswers : t.forwarder.cs.Answers i.name s.forwarder.time
      (ContentStore.makeRow i.pitName.encode d s.forwarder.time ttl) :=
    ⟨hfits.encodable, hrow, makeRow_live _ _ _ _, ⟨_, hfits.fromBytes⟩,
      ContentStore.verifyContent_makeRow hv .., hpin⟩
  have hget := (ContentStore.get_eq_some_iff (d := ContentStore.rowData _ i.pitName _)).mpr
    ⟨_, hanswers, hfits.fromBytes, rfl⟩
  refine ⟨ContentStore.rowData (ContentStore.makeRow i.pitName.encode d s.forwarder.time ttl)
    i.pitName s.forwarder.time, ?_, rfl, rfl, rfl⟩
  rw [Supplies, exec_serveFromCs hi, htime, hget]
  exact maybeSignOpt_foreign hforeign

/-- The packet is on its way to the face: it was sent, or a call waits there for its answer. -/
def Emits (s : Server) (face : FaceId) (p : Packet) : Prop :=
  (face, p) ∈ s.sent ∨ ∃ c i, s.forwarder.HasAsked c face i ∧ p = .interest i

theorem Passes.hops (h : s.Passes i down up) (k : ℕ) : s.Passes (i.hops k) down up :=
  ⟨h.address, h.foreign, h.asked, h.routes.missing, h.routes.idle, h.routes.unseen,
    h.routes.routed, h.routes.linked⟩

theorem supplies_hops (hi : i.Exact) {k : ℕ} (hk : k < 256) :
    s.Supplies (i.hops k) e ↔ s.Supplies i e := by
  rw [Supplies, Supplies, exec_serveFromCs hi, exec_serveFromCs (hi.hops hk)]
  rfl

end Server

namespace Network

open Server

variable [Hashlib] {N M : ℕ → Server} {i : Interest} {d e : Data} {up down : ℕ → FaceId}
  {request raw : Bytes} {m j : ℕ}

/-- The events of a chain of servers, where the face `up k` of a server is linked to the face
`down (k + 1)` of the next one. The request enters at the foot, a packet arrives at the neighbour of
the server that emits it, or a handler goes on. -/
inductive Carries (up down : ℕ → FaceId) (request : Bytes) (N : ℕ → Server) : ℕ × Label → Prop where

  | request (drawn : Drawn) : Carries up down request N (0, .incoming (down 0) request drawn)

  | upstream (k : ℕ) (p : Packet) (raw : Bytes) (drawn : Drawn) : (N k).Emits (up k) p →
      p.toBytes = .ok raw → Carries up down request N (k + 1, .incoming (down (k + 1)) raw drawn)

  | downstream (k : ℕ) (p : Packet) (raw : Bytes) (drawn : Drawn) :
      (N (k + 1)).Emits (down (k + 1)) p → p.toBytes = .ok raw →
      Carries up down request N (k, .incoming (up k) raw drawn)

  | handler (k : ℕ) (l : Forwarder.Label) : Carries up down request N (k, .forwarder l)

  | answer (k : ℕ) (c : CallId) : Carries up down request N (k, .forwarded c)

/-- From the server `m` on, `j` relays pass the Interest on to a server that answers it. -/
structure Path (up down : ℕ → FaceId) (N : ℕ → Server) (i : Interest) (e : Data) (m j : ℕ) :
    Prop where
  passes : ∀ k, m ≤ k → k < m + j → (N k).Passes i (down k) (up k)
  supplies : (N (m + j)).Supplies i e
  asked : down (m + j) ∈ (N (m + j)).faces

/-- Events lead from `N` to `M` and the last of them hands the Data to the face of the server `m`
that leads down. -/
def Delivers (up down : ℕ → FaceId) (request : Bytes) (N : ℕ → Server) (m : ℕ) (d : Data)
    (M : ℕ → Server) : Prop :=
  ∃ ls v l, Run (family Server.step) (Carries up down request) N ls v ∧
    Carries up down request v l ∧ family Server.step v l = some M ∧
    (M m).sent = (down m, .data d) :: (v m).sent

/-- What the way of the answer leaves behind: the servers below are as they were, and the relays
with room have copies. -/
structure Answered (N M : ℕ → Server) (i : Interest) (e : Data) (m j : ℕ) : Prop where
  below : ∀ k < m, M k = N k
  copies : ∀ k, m ≤ k → k < m + j → (N k).HasRoom e.onWire →
    ∃ e', (M k).Supplies i e' ∧ e'.content = e.content

theorem hop_asks {up : ℕ → FaceId} (hi : i.Exact) (hraw : parsePacket raw = .ok (.interest i))
    {k : ℕ} (hk : i.hopLimit = k + 1) (hpass : (N m).Passes i (down m) (up m)) (drawn : Drawn)
    (hin : Carries up down request N (m, .incoming (down m) raw drawn)) : ∃ c ls u,
      Run (family Server.step) (Carries up down request) N ls (Function.update N m u) ∧
      u.Awaits c i (down m) (up m) k ∧
      u.forwarder.cs = (N m).forwarder.cs.purgeExpired (N m).forwarder.time ∧
      u.forwarder.time = (N m).forwarder.time ∧ (N m).SameKeys u := by
  obtain ⟨t, u, ht, hu, hawaits, hcs, htime, hkeys⟩ := relay_asks hpass hi hk hraw drawn
  exact ⟨_, _, u, .cons hin (family_of_step ht)
    (.cons (.handler m _) (family_of_step_update hu) (.nil _)), hawaits, hcs, htime, hkeys⟩

theorem hop_answers {c : CallId} {k : ℕ} (h : (N m).Awaits c i (down m) (up m) k)
    (hraw : Data.fromBytes raw = .ok d) (hd : d.name.withoutContentHash = i.pitName)
    (hbytes : d.toBytes = .ok raw) (drawn : Drawn)
    (hin : Carries up down request N (m, .incoming (up m) raw drawn)) : ∃ v,
      Delivers up down request N m d (Function.update N m v) ∧
      v.forwarder.cs = (N m).forwarder.cs.apply (.insert d.name d (N m).forwarder.time) ∧
      v.forwarder.time = (N m).forwarder.time ∧ (N m).SameKeys v := by
  obtain ⟨t, u, v, ht, hu, hv, hsent, hcs, htime, hkeys⟩ := relay_answers h hraw hd hbytes drawn
  have hrun : Run (family Server.step) (Carries up down request) N
      [(m, .incoming (up m) raw drawn), (m, .forwarder (.resume c))] (Function.update N m u) :=
    .cons hin (family_of_step ht) (.cons (.handler m _) (family_of_step_update hu) (.nil _))
  refine ⟨v, ⟨_, _, _, hrun, .answer m c, family_of_step_update hv, ?_⟩, hcs, htime, hkeys⟩
  rw [Function.update_self, Function.update_self]
  exact hsent

theorem Path.tail (h : Path up down N i e m (j + 1)) (hi : i.Exact) {k : ℕ} (hk : k < 256)
    (u : Server) : Path up down (Function.update N m u) (i.hops k) e (m + 1) j := by
  have hne (x : ℕ) (hx : m + 1 ≤ x) : Function.update N m u x = N x :=
    Function.update_of_ne (by omega) _ _
  have hlast : m + 1 + j = m + (j + 1) := by omega
  refine ⟨fun x hx hlt => ?_, ?_, ?_⟩
  · rw [hne x hx]
    exact (h.passes x (by omega) (by omega)).hops k
  · rw [hne _ (by omega), supplies_hops hi hk, hlast]
    exact h.supplies
  · rw [hne _ (by omega), hlast]
    exact h.asked

theorem Path.delivers (h : Path up down N i e m j) (hi : i.Exact) (hraw : i.toBytes = .ok raw)
    (he : e.Fits) (hname : e.name.withoutContentHash = i.pitName) (hhops : j ≤ i.hopLimit)
    (drawn : Drawn) (hin : Carries up down request N (m, .incoming (down m) raw drawn)) :
    ∃ d M, Delivers up down request N m d M ∧ d.toBytes = e.toBytes ∧ Answered N M i e m j := by
  have hparse {i : Interest} {raw : Bytes} (hi : i.Exact) (hraw : i.toBytes = .ok raw) :
      parsePacket raw = .ok (.interest i) := by
    rw [Packet.read_toBytes (p := .interest i) hi.fits hraw, Packet.onWire, Interest.wireSelector,
      hi.selector, Option.filter_none, ← hi.selector]
  obtain ⟨b, hb⟩ := Packet.Fits.toBytes_isOk (p := .data e) he
  have hb : e.toBytes = .ok b := hb
  induction j generalizing m N i raw with
  | zero =>
    obtain ⟨t, ht, hsent⟩ := supplier_answers h.supplies hi (hparse hi hraw) h.asked he drawn
    refine ⟨e, _, ⟨[], N, _, .nil _, hin, family_of_step ht, ?_⟩, rfl, fun k hk => ?_, ?_⟩
    · rw [Function.update_self]
      exact hsent
    · exact Function.update_of_ne (by omega) _ _
    · intro k hk hlt
      omega
  | succ j ih =>
    obtain ⟨k, hk⟩ : ∃ k, i.hopLimit = k + 1 := ⟨i.hopLimit - 1, by omega⟩
    have hpass := h.passes m le_rfl (by omega)
    have hbound : k < 256 := by
      have hlt := hi.fits.hopLimit
      omega
    obtain ⟨c, ls, u, hasks, hawaits, hcs, htime, hkeys⟩ :=
      hop_asks hi (hparse hi hraw) hk hpass drawn hin
    -- The Interest goes on with a hop less, and the rest of the path answers it.
    obtain ⟨raw', hraw'⟩ :=
      Packet.Fits.toBytes_isOk (p := .interest (i.hops k)) (hi.hops hbound).fits
    have hout : Carries up down request (Function.update N m u)
        (m + 1, .incoming (down (m + 1)) raw' drawn) := by
      refine .upstream m (.interest (i.hops k)) raw' drawn (.inr ⟨c, _, ?_, rfl⟩) hraw'
      rw [Function.update_self]
      exact hawaits.sent
    obtain ⟨d, M, ⟨ls', v, l, hrest, hl, hs, hsent⟩, hd, hanswered⟩ :=
      ih (h.tail hi hbound u) (hi.hops hbound) hraw' hname (by change j ≤ k; omega) hout
    have hback : Run (family Server.step) (Carries up down request) N (ls ++ (ls' ++ [l])) M :=
      hasks.append (hrest.snoc hl hs)
    -- The relay still waits for the answer that comes down.
    have hM : M m = u := (hanswered.below m (by omega)).trans (Function.update_self ..)
    have hdown : Carries up down request M (m, .incoming (up m) b drawn) := by
      refine .downstream m (.data d) b drawn (.inl ?_) (hd.trans hb)
      rw [hsent]
      exact List.mem_cons_self
    have hread : Data.fromBytes b = .ok e.onWire :=
      parsePacket_data (Packet.read_toBytes (p := .data e) he hb)
    obtain ⟨v, ⟨ls'', w, l', hrun, hl', hs', hsent'⟩, hcs', htime', hkeys'⟩ :=
      hop_answers (k := k) (hM ▸ hawaits) hread hname (e.toBytes_onWire.trans hb) drawn hdown
    refine ⟨e.onWire, _, ⟨_, w, l', hback.append hrun, hl', hs', hsent'⟩, e.toBytes_onWire, ?_, ?_⟩
    · intro x hx
      rw [Function.update_of_ne (by omega), hanswered.below x (by omega)]
      exact Function.update_of_ne (by omega) _ _
    · intro x hx hlt hroom
      by_cases hxm : x = m
      · subst hxm
        rw [hM] at hcs' htime' hkeys'
        obtain ⟨hv, hpin⟩ := h.supplies.verified hi
        obtain ⟨e', he', hcontent, -⟩ := supplies_copy (d := e.onWire) hi hname hv hpin hroom
          (hkeys'.1.trans hkeys.1 ▸ hpass.foreign) (by rw [hcs', hcs, htime])
          (htime'.trans htime)
        exact ⟨e', by rwa [Function.update_self], hcontent⟩
      · rw [Function.update_of_ne hxm]
        obtain ⟨e', he', hcontent⟩ := hanswered.copies x (by omega) (by omega)
          (by rwa [Function.update_of_ne hxm])
        exact ⟨e', (supplies_hops hi hbound).mp he', hcontent⟩

/-- A request that enters a path of relays brings the answer of the server at its end back to where
it came from, byte for byte. Every relay that has room for it can then answer by itself. -/
theorem retrieved {n : ℕ} (h : Path up down N i e 0 n) (hi : i.Exact)
    (hraw : i.toBytes = .ok request) (he : e.Fits) (hname : e.name.withoutContentHash = i.pitName)
    (hhops : n ≤ i.hopLimit) :
    ∃ d M, Delivers up down request N 0 d M ∧ d.toBytes = e.toBytes ∧
      ∀ k < n, (N k).HasRoom e.onWire → ∃ e', (M k).Supplies i e' ∧ e'.content = e.content := by
  obtain ⟨d, M, hdelivers, hbytes, hanswered⟩ :=
    h.delivers hi hraw he hname hhops ⟨[], [], []⟩ (.request _)
  exact ⟨d, M, hdelivers, hbytes, fun k hk => hanswered.copies k k.zero_le (by omega)⟩

def linkRelay : Server where
  rnsAddr := List.replicate 16 2
  faces := [100, 101]
  forwarder := { fib := ⟨[⟨postName, [(101, 1)]⟩]⟩, faces := [100, 101] }

def relayed (n k : ℕ) : Server :=
  if k < n then linkRelay else serverAfter publisher (ownPost.take 2)

def postInterest : Interest := { name := postName, nonce := List.replicate 8 3 }

def servedPost : Data where
  name := postName
  content := [0x68, 0x69]
  signature := some (List.replicate 64 7)
  metadata :=
    letI := Data.paddedHash
    { contentHash := some (blake2b [0x68, 0x69]), signedAt := some 0 }

omit [Hashlib] in
theorem post_path (n : ℕ) :
    letI := Data.paddedHash
    Path (fun _ => 101) (fun _ => 100) (relayed n) postInterest servedPost 0 n := by
  let := Data.paddedHash
  have hroutes : linkRelay.Passes postInterest 100 101 :=
    ⟨rfl, by decide, by decide, rfl, rfl, rfl, rfl, by decide⟩
  have hserver : relayed n (0 + n) = serverAfter publisher (ownPost.take 2) := by
    rw [relayed, if_neg (by omega)]
  refine ⟨fun k _ hk => ?_, ?_, ?_⟩
  · rw [relayed, if_pos (by omega)]
    exact hroutes
  · rw [hserver]
    rfl
  · rw [hserver]
    decide

omit [Hashlib] in
theorem post_retrieved :
    letI := Data.paddedHash
    ∃ d M, Delivers (fun _ => 101) (fun _ => 100) postRequest (relayed 3) 0 d M ∧
      d.toBytes = servedPost.toBytes ∧
      ∀ k < 3, ∃ e', (M k).Supplies postInterest e' ∧ e'.content = servedPost.content := by
  let := Data.paddedHash
  have hname : postName.Fits := ⟨⟨by decide, by decide⟩, by decide, by simp [postName]⟩
  have hi : postInterest.Exact :=
    ⟨⟨hname, rfl, by decide, by simp [postInterest], by decide⟩, rfl, rfl, rfl, by decide⟩
  have he : servedPost.Fits :=
    ⟨hname, by decide, by simp [servedPost, SIGNATURE_BYTES],
      ⟨by simp [servedPost, blake2b, CONTENT_HASH_BYTES], by simp [servedPost],
        by simp [servedPost], by simp [servedPost], by simp [servedPost]⟩⟩
  have hroom (k : ℕ) (hk : k < 3) : (relayed 3 k).HasRoom servedPost.onWire := by
    rw [relayed, if_pos hk]
    exact ⟨⟨_, rfl⟩, by decide, by decide, .inl (by decide)⟩
  obtain ⟨d, M, hdelivers, hbytes, hcopies⟩ :=
    retrieved (post_path 3) hi rfl he rfl (by decide)
  exact ⟨d, M, hdelivers, hbytes, fun k hk => hcopies k hk (hroom k hk)⟩

end Network

end RnsIcn
