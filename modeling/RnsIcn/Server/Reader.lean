import RnsIcn.Server.Raising

/-! # What ends the reader of a link

The reader of a link hands each packet to `handle_incoming` and stops if that raises. It
raises only for integers that the database cannot bind and for what a local operation or
the manifest of a peer brought in although the wire cannot carry it.
-/

namespace RnsIcn

open Effect Fallible EventLoop Transition

def Packet.Addressed : Packet → Prop
  | .interest i => i.name.rnsAddr.length = RNS_ADDR_BYTES
  | .data d => d.name.rnsAddr.length = RNS_ADDR_BYTES
  | .subscribe s => s.name.rnsAddr.length = RNS_ADDR_BYTES
  | .invalidate v => v.name.rnsAddr.length = RNS_ADDR_BYTES
  | .nack n => n.name.rnsAddr.length = RNS_ADDR_BYTES
  | .peer _ | .capPeer _ => True

namespace Server

variable {s t : Server} {l : Label} {m : Handler Unit}

theorem mem_of_waitingFor {c : CallId} {suspended : List Suspended} {face : FaceId} {i : Interest}
    (h : waitingFor c suspended = some (face, i)) : .forwarding c face i ∈ suspended := by
  induction suspended with
  | nil => cases h
  | cons x rest ih =>
    cases x with
    | forwarding c' face' i' =>
      rw [waitingFor] at h
      split at h
      · rename_i hc
        obtain ⟨rfl, rfl⟩ := Prod.mk.inj (Option.some.inj h)
        exact hc ▸ List.mem_cons_self
      · exact List.mem_cons_of_mem _ (ih h)
    | _ => exact List.mem_cons_of_mem _ (ih h)

variable [Hashlib]

/-- The part of `handle_incoming` that an event runs. -/
def handler (s : Server) : Label → Option (Handler Unit)
  | .incoming face raw drawn => some (handleIncoming face raw drawn)
  | .forwarded c =>
    (waitingFor c s.suspended).bind fun (face, i) =>
      (s.forwarder.loop.calls c).bind fun call =>
        match call.phase with
        | .returned r => some (answerForwarded c face i (.returned r))
        | .raised e => some (answerForwarded c face i (.raised e))
        | _ => none
  | .manifest face text =>
    if .buildingManifest face ∈ s.suspended then some (answerManifest face text) else none
  | .synced face streams =>
    if .syncing face ∈ s.suspended then some (finishSync face streams) else none
  | _ => none

/-- `_build_manifest_entries` runs in the part of `handle_incoming` that an event runs. -/
def listsManifest : Label → Bool
  | .incoming _ raw _ =>
    match parsePacket raw with
    | .ok (.peer p) => p.wantsSync
    | _ => false
  | .manifest .. => true
  | _ => false

/-- The part of `handle_incoming` that an event runs raises. -/
def Raises (s : Server) (l : Label) : Prop :=
  (∃ m e, s.handler l = some m ∧ (exec m s).1 = .error e) ∨
    listsManifest l = true ∧ ∃ e, (exec manifestData s).1 = .error e

theorem step_handler (h : s.handler l = some m) : s.step l = some (after m s) := by
  cases l with
  | incoming face raw drawn => exact Option.some.inj h ▸ rfl
  | forwarded c =>
    obtain ⟨⟨face, i⟩, hw, h⟩ := Option.bind_eq_some_iff.mp h
    obtain ⟨call, hc, h⟩ := Option.bind_eq_some_iff.mp h
    simp only [step, forwarded, hw, hc, Option.bind_some]
    cases hp : call.phase with
    | returned r =>
      simp only [hp] at h ⊢
      rw [← Option.some.inj h]
    | raised e =>
      simp only [hp] at h ⊢
      rw [← Option.some.inj h]
    | _ =>
      simp only [hp] at h
      cases h
  | manifest face text =>
    obtain ⟨hw, h⟩ := Option.ite_none_right_eq_some.mp h
    rw [step, if_pos hw, Option.some.inj h]
  | synced face streams =>
    obtain ⟨hw, h⟩ := Option.ite_none_right_eq_some.mp h
    rw [step, if_pos hw, Option.some.inj h]
  | _ => cases h

def Lists (s : Server) (streams : List Name) : Prop :=
  ∀ ds, (exec manifestData s).1 = .ok ds → ∀ n ∈ streams, ∃ d ∈ ds, n = d.name.withoutContentHash

/-- The names of packets start with an address, what a handler takes of the local manifest is listed
there, and no send of the forwarder raises. -/
def Regular (s : Server) : Label → Prop
  | .incoming _ raw drawn => (∀ p, parsePacket raw = .ok p → p.Addressed) ∧ s.Lists drawn.streams
  | .forwarder l => ∀ c e, l ≠ .sendRaised c e
  | _ => True

/-- The database can bind the integers that the packet makes the store bind. -/
def Binds (s : Server) (face : FaceId) : Packet → Prop
  | .interest i => isHealthInterest i.name = false → i.Bindable
  | .data d =>
    (s.forwarder.storeOp (.receiveData d face (s.peers.contains face))).isSome → d.Bindable
  | _ => True

/-- The database can bind the integers of the event, the wire can carry the Data that it brings, and
the streams that the manifest of a peer lists can be subscribed to. -/
structure Harmless (s : Server) (l : Label) : Prop where
  inTime : s.InTime
  binds : ∀ face raw drawn p, l = .incoming face raw drawn → parsePacket raw = .ok p →
    s.Binds face p
  brings : ∀ d ∈ s.brings l, d.Fits
  listed : ∀ face streams, l = .synced face streams → ∀ n ∈ streams, Subscribable n

theorem Lists.subscribable {streams : List Name} (h : s.Lists streams) (hs : Ready s) :
    ∀ n ∈ streams, Subscribable n := by
  obtain ⟨ds, t, he, hds⟩ := manifestData_returns.returns hs
  intro n hn
  obtain ⟨d, hd, rfl⟩ := h ds (by rw [he]) n hn
  exact subscribable_of_fits (hds d hd).name.unpinned

omit [Hashlib] in
theorem returns_of_safe (hs : Ready s) (h : Safe Ready m) :
    Triple (· = s) m (fun _ => Healthy) fun _ => False :=
  h.conseq (fun _ ht => ht ▸ hs) (fun _ _ h => h.1) fun _ h => h

theorem Regular.addressed {face : FaceId} {raw : Bytes} {drawn : Drawn} {d : Data}
    (h : s.Regular (.incoming face raw drawn)) (hp : parsePacket raw = .ok (.data d)) :
    d.name.rnsAddr.length = RNS_ADDR_BYTES := h.1 _ hp

theorem handleIncoming_returns (hlen : ∀ b, (blake2b b).length = CONTENT_HASH_BYTES)
    {face : FaceId} {raw : Bytes} {drawn : Drawn} (hs : Ready s)
    (hreg : s.Regular (.incoming face raw drawn)) (hl : s.Harmless (.incoming face raw drawn)) :
    Triple (· = s) (handleIncoming face raw drawn) (fun _ => Healthy) fun _ => False := by
  rw [handleIncoming]
  cases hp : parsePacket raw with
  | error e => exact returns_of_safe hs (Safe.pure _)
  | ok p =>
    have hbinds := hl.binds face raw drawn p rfl hp
    have hfits := fits_of_parsePacket hp
    have hbrings := hl.brings
    simp only [brings, hp] at hbrings
    cases p with
    | interest i =>
      simp only [handlePacket]
      split
      · rename_i hhealth
        refine returns_of_safe hs (safe_send face (p := .data _) (hbrings _ ?_))
        simp [hhealth]
      · rename_i hhealth
        refine (handleInterest_returns hlen hfits (hbinds ?_) face _).pre fun t ht => ht ▸ hs
        simpa using hhealth
    | data d =>
      have haddr := hreg.addressed hp
      refine Triple.bind_get fun s' hs' => ?_
      obtain rfl := hs'
      have hreceive (unsolicited : Bool) (h : s'.peers.contains face = unsolicited) :
          Triple (· = s') (receiveData d face unsolicited) (fun _ => Ready) fun _ => False :=
        (receiveData_returns hlen hfits haddr).pre fun t ht => ht ▸ ⟨hs, h ▸ hbinds⟩
      split
      · rename_i hpeer
        refine ((hreceive true hpeer).bind fun _ => safe_propagate d _).post fun _ _ h => h.1
      · rename_i hpeer
        exact (hreceive false (by simpa using hpeer)).post fun _ _ h => h.1
    | subscribe sub => exact returns_of_safe hs (safe_handleSubscribe sub face)
    | peer p =>
      have hstreams := hreg.2.subscribable hs
      exact returns_of_safe hs (safe_handlePeerHandshake hfits face _ hstreams)
    | invalidate v => exact returns_of_safe hs (safe_handleInvalidate hfits face)
    | capPeer c => exact returns_of_safe hs (safe_frame fun _ => rfl)
    | nack n =>
      refine Triple.modify fun t ht => ?_
      subst ht
      exact hs.1.forwarder hlen (l := .receiveNack n.name face) hs.2.1 (fun d hd => by cases hd)
        (fun _ _ _ ho => by cases ho) (fun _ _ h => by cases h) rfl

/-- What `handle_incoming` runs of a harmless event ends without an error in a healthy server. -/
theorem handler_returns (hlen : ∀ b, (blake2b b).length = CONTENT_HASH_BYTES) (h : Healthy s)
    (hreg : s.Regular l) (hl : s.Harmless l) (hm : s.handler l = some m) :
    Triple (· = s) m (fun _ => Healthy) fun _ => False := by
  have hs : Ready s := ⟨h, hl.inTime⟩
  cases l with
  | incoming face raw drawn =>
    obtain rfl := Option.some.inj hm
    exact handleIncoming_returns hlen hs hreg hl
  | forwarded c =>
    obtain ⟨⟨face, i⟩, hw, hm⟩ := Option.bind_eq_some_iff.mp hm
    obtain ⟨call, hc, hm⟩ := Option.bind_eq_some_iff.mp hm
    obtain ⟨hi, call', hc', hsend⟩ := h.waits c face i (mem_of_waitingFor hw)
    obtain rfl := Option.some.inj (hc.symm.trans hc')
    split at hm
    · rename_i r hr
      have hgot (d : Data) (hd : Phase.returned r = .returned (some d)) : d.Fits :=
        h.got c d ⟨call, hc, .inl (hr.trans hd)⟩
      exact Option.some.inj hm ▸ returns_of_safe hs (safe_answerForwarded face hi hgot nofun)
    · rename_i e he
      exact absurd he (hsend.2 e)
    · cases hm
  | manifest face text =>
    obtain ⟨-, hm⟩ := Option.ite_none_right_eq_some.mp hm
    refine Option.some.inj hm ▸ returns_of_safe hs (safe_answerManifest hlen face ?_)
    have hbrings := hl.brings
    simp only [brings, manifestName, name_new_isOk h.addr] at hbrings
    exact (hbrings _ (List.mem_singleton.mpr rfl)).content
  | synced face streams =>
    obtain ⟨-, hm⟩ := Option.ite_none_right_eq_some.mp hm
    have hstreams := hl.listed face streams rfl
    exact Option.some.inj hm ▸ returns_of_safe hs (safe_finishSync face hstreams)
  | _ => cases hm

theorem not_raises (hlen : ∀ b, (blake2b b).length = CONTENT_HASH_BYTES) (h : Healthy s)
    (hreg : s.Regular l) (hl : s.Harmless l) : ¬ s.Raises l := by
  rintro (⟨m, e, hm, he⟩ | ⟨-, e, he⟩)
  · obtain ⟨_, _, hx, -⟩ := (handler_returns hlen h hreg hl hm).returns rfl
    rw [hx] at he
    cases he
  · obtain ⟨_, _, hx, -⟩ := manifestData_returns.returns ⟨h, hl.inTime⟩
    rw [hx] at he
    cases he

def ReadyAs (s t : Server) : Prop := Ready t ∧ t.pointerSettings = s.pointerSettings

theorem ReadyAs.publishes (hlen : ∀ b, (blake2b b).length = CONTENT_HASH_BYTES) :
    Publishes s (ReadyAs s) Ready Data.Fits where
  settings _ h := h.2
  done _ h := h.1
  create n content := (safe_create n content).keeps.and (Keeps.modify fun _ h => h)
  sign d hd := by
    have hsettings := maybeSign_resigned (I := fun t => t.pointerSettings = s.pointerSettings)
      (fun _ _ h => h) d
    exact ((maybeSign_fits hd).and hsettings).conseq (fun _ h => h)
      (fun _ _ h => ⟨⟨⟨h.1.1, h.2.1⟩, h.1.2.1⟩, h.2.2⟩) fun _ h => h.1.elim
  insert d hd := by
    have hkeep : Keeps (fun t => t.pointerSettings = s.pointerSettings) (csInsert d.name d) :=
      Keeps.get.bind fun _ => Keeps.bind (Keeps.modify fun _ h => h) fun _ => Keeps.ofExcept _
    exact ((keeps_ready_csInsert hlen hd.name hd).and hkeep).conseq (fun _ h => h) (fun _ _ h => h)
      fun _ h => h.1
  push d _ := (safe_apsPublish d).keeps
  propagate d _ := (safe_propagate d none).keeps

theorem Healthy.step (hlen : ∀ b, (blake2b b).length = CONTENT_HASH_BYTES) (h : Healthy s)
    (hreg : s.Regular l) (hl : s.Harmless l) (hs : s.step l = some t) : Healthy t := by
  have hready : Ready s := ⟨h, hl.inTime⟩
  have hrun {m : Handler Unit} (hm : s.handler l = some m) : Healthy t := by
    obtain rfl := Option.some.inj ((step_handler hm).symm.trans hs)
    obtain ⟨_, t, hx, ht⟩ := (handler_returns hlen h hreg hl hm).returns rfl
    rw [after, hx]
    exact ht
  cases l with
  | incoming face raw drawn => exact hrun rfl
  | forwarded c =>
    obtain ⟨⟨face, i⟩, hw, hs⟩ := Option.bind_eq_some_iff.mp hs
    obtain ⟨call, hc, hs⟩ := Option.bind_eq_some_iff.mp hs
    split at hs
    · rename_i r hr
      exact hrun (m := answerForwarded c face i (.returned r)) (by simp [handler, hw, hc, hr])
    · rename_i e he
      exact hrun (m := answerForwarded c face i (.raised e)) (by simp [handler, hw, hc, he])
    · cases hs
  | manifest face text =>
    obtain ⟨hw, -⟩ := Option.ite_none_right_eq_some.mp hs
    exact hrun (m := answerManifest face text) (if_pos hw)
  | synced face streams =>
    obtain ⟨hw, -⟩ := Option.ite_none_right_eq_some.mp hs
    exact hrun (m := finishSync face streams) (if_pos hw)
  | resource payload =>
    obtain rfl := Option.some.inj hs
    rw [handleResource]
    cases hr : resourceData payload with
    | none => exact h
    | some d =>
      have hd : d.Fits := hl.brings d (by simp [brings, hr])
      exact ((keeps_ready_csInsert hlen hd.name hd).after hready).1
  | publishContent n content encrypted sequence latestUnder =>
    exact Option.some.inj hs ▸
      (((ReadyAs.publishes hlen).publishContent hl.brings).after ⟨hready, rfl⟩).1
  | publishPost n content encrypted sequence latestUnder =>
    exact Option.some.inj hs ▸
      (((ReadyAs.publishes hlen).publishPost hl.brings).after ⟨hready, rfl⟩).1
  | publishPushed d =>
    have hd : d.Fits := hl.brings d (by simp [brings])
    exact Option.some.inj hs ▸
      (((ReadyAs.publishes hlen).publishPushed hd).after ⟨hready, rfl⟩).1
  | publishManifest text =>
    exact Option.some.inj hs ▸
      (((ReadyAs.publishes hlen).publishManifest hl.brings).after ⟨hready, rfl⟩).1
  | invalidate n byPrefix =>
    exact Option.some.inj hs ▸ ((keeps_ready_invalidate n byPrefix).after hready).1
  | forwarder l =>
    rw [Server.step] at hs
    split at hs
    · rename_i hin
      obtain ⟨fw, hfw, rfl⟩ := Option.map_eq_some_iff.mp hs
      refine h.forwarder hlen hready.2.1 (fun d hd => ?_) (fun n d now ho => ?_) hreg hfw
      · cases l <;> first | cases hd | cases hin
      · exact absurd (storeOp_isInternal hin ho) (by simp [storesNothing])
    · cases hs
  | openFace => exact Option.some.inj hs ▸ h.frame rfl
  | closeFace face => exact Option.some.inj hs ▸ h.frame rfl

omit [Hashlib] in
theorem Initial.healthy (h : Initial s) (haddr : s.rnsAddr.length = RNS_ADDR_BYTES)
    (hsigner : ∀ signer ∈ s.signer, ∀ m, (signer m).length = SIGNATURE_BYTES) : Healthy s := by
  refine ⟨fun key row hr => ?_, h.forwarder.consistent, fun c d ⟨call, hc, _⟩ => ?_,
    fun c face i hc => ?_, haddr, hsigner⟩
  · rw [h.content] at hr
    cases hr
  · rw [h.forwarder.calls c] at hc
    cases hc
  · rw [h.suspended] at hc
    cases hc

/-- The face whose loop waits for the handler. -/
def Suspended.face : Suspended → FaceId
  | .forwarding _ face _ | .buildingManifest face | .syncing face => face

/-- The face whose loop waits for the part of `handle_incoming` that an event runs. -/
def Label.handles (s : Server) : Label → Option FaceId
  | .incoming face _ _ | .manifest face _ | .synced face _ => some face
  | .forwarded c => (waitingFor c s.suspended).map Prod.fst
  | _ => none

def raises (s : Server) (l : Label) : Bool :=
  (s.handler l).any (fun m => !(exec m s).1.isOk) ||
    listsManifest l && !(exec manifestData s).1.isOk

theorem raises_iff : s.raises l = true ↔ s.Raises l := by
  have hok {α : Type} (r : Except PyError α) : (!r.isOk) = true ↔ ∃ e, r = .error e := by
    cases r <;> simp [Except.isOk, Except.toBool]
  rw [raises, Raises, Bool.or_eq_true, Bool.and_eq_true, Option.any_eq_true]
  simp only [hok]
  constructor
  · rintro (⟨m, hm, e, he⟩ | h)
    · exact .inl ⟨m, e, hm, he⟩
    · exact .inr h
  · rintro (⟨m, e, hm, he⟩ | h)
    · exact .inl ⟨m, hm, e, he⟩
    · exact .inr h

/-- A server and the faces whose loop of `_process_link` has ended. -/
structure Reading where
  server : Server
  ended : List FaceId := []

namespace Reading

/-- An event of the server. A handler that raises ends the loop that waits for it. -/
def advance (s : Reading) (l : Label) : Option Reading :=
  (s.server.step l).map fun server =>
    { server
      ended := if s.server.raises l then (l.handles s.server).toList ++ s.ended else s.ended }

/-- A loop takes a packet when it runs and waits for no handler, and an empty packet ends it. -/
def step (s : Reading) (l : Label) : Option Reading :=
  match l with
  | .incoming face raw _ =>
    if face ∈ s.ended ∨ face ∈ s.server.suspended.map Suspended.face then none
    else if raw = [] then some { s with ended := face :: s.ended }
    else s.advance l
  | _ => s.advance l

/-- The event is regular and harmless, and no loop takes an empty packet. -/
structure Spares (s : Reading) (l : Label) : Prop where
  regular : s.server.Regular l
  harmless : s.server.Harmless l
  nonempty : ∀ face raw drawn, l = .incoming face raw drawn → raw ≠ []

theorem step_advance {s t : Reading}
    (hl : ∀ face raw drawn, l = .incoming face raw drawn → raw ≠ [])
    (hs : s.step l = some t) : s.advance l = some t := by
  cases l with
  | incoming face raw drawn =>
    obtain ⟨-, hs⟩ := Option.ite_none_left_eq_some.mp hs
    rwa [if_neg (hl face raw drawn rfl)] at hs
  | _ => exact hs

theorem step_quiet {s : Reading} {u : Server} (hrun : ∀ face raw drawn,
      l = .incoming face raw drawn → face ∉ s.ended ∧
        face ∉ s.server.suspended.map Suspended.face ∧ raw ≠ [])
    (hs : s.server.step l = some u) (hno : s.server.raises l = false) :
    s.step l = some { s with server := u } := by
  have hadvance : s.advance l = some { s with server := u } := by
    simp [advance, hs, hno]
  cases l with
  | incoming face raw drawn =>
    obtain ⟨hended, hbusy, hne⟩ := hrun face raw drawn rfl
    exact (if_neg (not_or.mpr ⟨hended, hbusy⟩)).trans ((if_neg hne).trans hadvance)
  | _ => exact hadvance

theorem step_raises {s : Reading} {u : Server} {face : FaceId} {raw : Bytes} {drawn : Drawn}
    (hface : face ∉ s.ended ∧ face ∉ s.server.suspended.map Suspended.face ∧ raw ≠ [])
    (hs : s.server.step (.incoming face raw drawn) = some u)
    (hr : s.server.Raises (.incoming face raw drawn)) :
    s.step (.incoming face raw drawn) = some { server := u, ended := face :: s.ended } := by
  obtain ⟨hended, hbusy, hne⟩ := hface
  rw [step, if_neg (not_or.mpr ⟨hended, hbusy⟩), if_neg hne, advance, hs,
    if_pos (raises_iff.mpr hr)]
  rfl

structure Running (s : Reading) : Prop where
  healthy : Healthy s.server
  ended : s.ended = []

theorem Running.step (hlen : ∀ b, (blake2b b).length = CONTENT_HASH_BYTES) {s t : Reading}
    (h : s.Running) (hl : s.Spares l) (hs : s.step l = some t) : t.Running := by
  obtain ⟨server, hserver, rfl⟩ := Option.map_eq_some_iff.mp (step_advance hl.nonempty hs)
  have hno : s.server.raises l = false :=
    Bool.eq_false_iff.mpr fun hr =>
      not_raises hlen h.healthy hl.regular hl.harmless (raises_iff.mp hr)
  refine ⟨h.healthy.step hlen hl.regular hl.harmless hserver, ?_⟩
  simp [hno, h.ended]

end Reading

/-- No packet ends the reader of a link, in any interleaving of harmless events. -/
theorem reader_survives {s t : Reading} {ls : List Label}
    (hlen : ∀ b, (blake2b b).length = CONTENT_HASH_BYTES) (hinit : Initial s.server)
    (hended : s.ended = []) (haddr : s.server.rnsAddr.length = RNS_ADDR_BYTES)
    (hsigner : ∀ signer ∈ s.server.signer, ∀ m, (signer m).length = SIGNATURE_BYTES)
    (hrun : Run Reading.step Reading.Spares s ls t) :
    ∀ e ∈ trace Reading.step s ls, ¬ e.1.server.Raises e.2.1 ∧ e.2.2.ended = [] := by
  intro e he
  obtain ⟨hbefore, hafter⟩ := hrun.trace_invariant
    (I := Reading.Running) ⟨hinit.healthy haddr hsigner, hended⟩
    (fun s l t h hok hs => h.step hlen hok hs) e he
  obtain ⟨hl, -⟩ := hrun.of_mem_trace he
  exact ⟨not_raises hlen hbefore.healthy hl.regular hl.harmless, hafter.ended⟩

/-- `/<address>/x` from the first sequence on that the database cannot bind. -/
def unboundWalk : Interest where
  name := postName
  nonce := List.replicate 8 3
  canBePrefix := true
  selector := some { minSequence := some (2 ^ 63), child := .oldest }

def unboundEdition : Data := injected.withSequence (2 ^ 63)

theorem regular_incoming {face : FaceId} {raw : Bytes} {p : Packet} (hp : parsePacket raw = .ok p)
    (h : p.Addressed) : s.Regular (.incoming face raw drawn) :=
  ⟨fun _ hq => ok_inj hp hq ▸ h, fun _ _ _ hn => by cases hn⟩

theorem harmless_incoming {face : FaceId} {raw : Bytes} {drawn : Drawn} {p : Packet}
    (hp : parsePacket raw = .ok p) (hs : s.InTime) (hbinds : s.Binds face p)
    (hhealth : ∀ i, p = .interest i → isHealthInterest i.name = false) :
    s.Harmless (.incoming face raw drawn) := by
  refine ⟨hs, ?_, fun d hd => ?_, fun _ _ h => by cases h⟩
  · rintro _ _ _ q h hq
    obtain ⟨rfl, rfl, rfl⟩ := Label.incoming.inj h
    exact ok_inj hp hq ▸ hbinds
  · simp only [brings, hp] at hd
    cases p with
    | interest i =>
      simp only [hhealth i rfl, Bool.false_eq_true, if_false] at hd
      cases hd
    | data d' => exact List.mem_singleton.mp hd ▸ fits_of_parsePacket hp
    | _ => cases hd

omit [Hashlib] in
theorem inTime_of_defaults (ht : s.forwarder.time = 0) (hd : s.forwarder.cs.defaultTtl = none)
    (hp : s.forwarder.cs.prefixTtls = []) : s.InTime := by
  rw [InTime, ContentStore.InTime, ht, hd, hp]
  refine ⟨by decide, ?_, ?_⟩
  · rintro _ ⟨⟩
  · rintro _ ⟨⟩

def peering : Label := .incoming 100 (wireBytes (.peer { rnsAddr := List.replicate 16 2 })) drawn

def pushing (d : Data) : Label := .incoming 100 (wireBytes (.data d)) drawn

def synced : Label := .synced 100 []

def readingAfter (ls : List Label) : Reading := { server := serverAfter publisher ls }

omit [Hashlib] in
/-- The loop of face 100 takes a packet of a server with no handler suspended. -/
theorem takes {s : Server} {raw : Bytes} (hs : s.suspended = []) (hraw : raw ≠ []) :
    ∀ face raw' drawn', Label.incoming 100 raw drawn = .incoming face raw' drawn' →
      face ∉ (Reading.mk s []).ended ∧
        face ∉ (Reading.mk s []).server.suspended.map Suspended.face ∧ raw' ≠ [] := by
  intro face raw' drawn' h
  obtain ⟨rfl, rfl, -⟩ := Label.incoming.inj h
  rw [show (Reading.mk s []).server.suspended = [] from hs]
  exact ⟨List.not_mem_nil, List.not_mem_nil, hraw⟩

omit [Hashlib] in
/-- A client asks, a link carries an empty message, or a peer pushes. -/
theorem reader_ends :
    letI := Data.paddedHash
    let asking := Label.incoming 100 (wireBytes (.interest unboundWalk)) drawn
    let ok (s : Reading) (l : Label) := s.server.Regular l ∧ s.server.InTime
    let s := readingAfter [.openFace]
    let t := readingAfter [.openFace, peering, synced]
    publisher.Initial ∧ Run Reading.step ok { server := publisher } [.openFace] s ∧
      (ok s asking ∧ s.server.Raises asking ∧
        (s.step asking).map Reading.ended = some [100]) ∧
      (ok s (.incoming 100 [] drawn) ∧
        (s.step (.incoming 100 [] drawn)).map Reading.ended = some [100]) ∧
      Run Reading.step ok { server := publisher } [.openFace, peering, synced] t ∧
      (ok t (pushing unboundEdition) ∧ t.server.Raises (pushing unboundEdition) ∧
        (t.step (pushing unboundEdition)).map Reading.ended = some [100]) := by
  let := Data.paddedHash
  have hopen : publisher.Regular .openFace ∧ publisher.InTime :=
    ⟨trivial, inTime_of_defaults rfl rfl rfl⟩
  have hpeer : (readingAfter [.openFace]).server.Regular peering ∧
      (readingAfter [.openFace]).server.InTime :=
    ⟨regular_incoming rfl trivial, inTime_of_defaults rfl rfl rfl⟩
  have hsynced : (readingAfter [.openFace, peering]).server.Regular synced ∧
      (readingAfter [.openFace, peering]).server.InTime :=
    ⟨trivial, inTime_of_defaults rfl rfl rfl⟩
  have hasking : (readingAfter [.openFace]).server.Raises
      (.incoming 100 (wireBytes (.interest unboundWalk)) drawn) :=
    .inl ⟨_, .overflowError, rfl, rfl⟩
  have hpushing : (readingAfter [.openFace, peering, synced]).server.Raises
      (pushing unboundEdition) :=
    .inl ⟨_, .overflowError, rfl, rfl⟩
  refine ⟨publisher_initial, .cons hopen rfl (.nil _), ⟨?_, hasking, ?_⟩, ⟨?_, rfl⟩,
    .cons (t := readingAfter [.openFace]) hopen rfl
      (.cons (t := readingAfter [.openFace, peering]) hpeer ?_ (.cons hsynced ?_ (.nil _))),
    ⟨?_, hpushing, ?_⟩⟩
  · exact ⟨regular_incoming (p := .interest unboundWalk) rfl rfl, inTime_of_defaults rfl rfl rfl⟩
  · have hstep : (readingAfter [.openFace]).step
        (.incoming 100 (wireBytes (.interest unboundWalk)) drawn) = some _ :=
      Reading.step_raises (takes rfl (List.cons_ne_nil _ _) _ _ _ rfl) rfl hasking
    exact congrArg (Option.map Reading.ended) hstep
  · exact ⟨⟨(fun p h => by cases h), (fun _ _ _ h => by cases h)⟩, inTime_of_defaults rfl rfl rfl⟩
  · exact Reading.step_quiet (takes rfl (List.cons_ne_nil _ _)) rfl rfl
  · exact Reading.step_quiet (fun _ _ _ h => by cases h) rfl rfl
  · exact ⟨regular_incoming (p := .data unboundEdition) rfl rfl, inTime_of_defaults rfl rfl rfl⟩
  · have hstep : (readingAfter [.openFace, peering, synced]).step (pushing unboundEdition) =
        some _ := Reading.step_raises (takes rfl (List.cons_ne_nil _ _) _ _ _ rfl) rfl hpushing
    exact congrArg (Option.map Reading.ended) hstep

omit [Hashlib] in
theorem reader_goes_on :
    letI := Data.paddedHash
    let ls := [.openFace, peering, synced, pushing injected, .incoming 100 postRequest drawn]
    ∀ e ∈ trace Reading.step { server := publisher } ls,
      ¬ e.1.server.Raises e.2.1 ∧ e.2.2.ended = [] := by
  let := Data.paddedHash
  have hlen (b : Bytes) : (blake2b b).length = CONTENT_HASH_BYTES := by
    change ((b ++ List.replicate 32 0).take 32).length = 32
    simp
  let s (k : ℕ) := readingAfter
    ([.openFace, peering, synced, pushing injected, .incoming 100 postRequest drawn].take k)
  have hfull {raw : Bytes} (hraw : raw ≠ []) (face : FaceId) (raw' : Bytes) (drawn' : Drawn)
      (h : Label.incoming 100 raw drawn = .incoming face raw' drawn') : raw' ≠ [] := by
    obtain ⟨-, rfl, -⟩ := Label.incoming.inj h
    exact hraw
  have hopen : Reading.Spares { server := publisher } .openFace :=
    ⟨trivial, ⟨inTime_of_defaults rfl rfl rfl, nofun, nofun, nofun⟩, nofun⟩
  have hpeer : (s 1).Spares peering :=
    ⟨regular_incoming rfl trivial,
      harmless_incoming rfl (inTime_of_defaults rfl rfl rfl) trivial nofun,
      hfull (List.cons_ne_nil _ _)⟩
  have hsynced : (s 2).Spares synced :=
    ⟨trivial, ⟨inTime_of_defaults rfl rfl rfl, nofun, nofun, fun _ _ h n hn => by
      obtain ⟨-, rfl⟩ := Label.synced.inj h
      cases hn⟩, nofun⟩
  have hpush : (s 3).Spares (pushing injected) :=
    ⟨regular_incoming (p := .data injected) rfl rfl, harmless_incoming (p := .data injected) rfl
      (inTime_of_defaults rfl rfl rfl) (fun _ => ⟨nofun, nofun, nofun⟩) nofun,
      hfull (List.cons_ne_nil _ _)⟩
  have hask : (s 4).Spares (.incoming 100 postRequest drawn) :=
    ⟨regular_incoming (p := .interest _) rfl rfl, harmless_incoming (p := .interest _) rfl
      (inTime_of_defaults rfl rfl rfl) (fun _ h => by cases h) (fun _ h => by cases h; rfl),
      hfull (List.cons_ne_nil _ _)⟩
  refine reader_survives (t := s 5) hlen publisher_initial rfl rfl (fun signer hs m => ?_) ?_
  · obtain rfl := Option.some.inj hs
    rfl
  · exact .cons (t := s 1) hopen rfl
      (.cons (t := s 2) hpeer (Reading.step_quiet (takes rfl (List.cons_ne_nil _ _)) rfl rfl)
      (.cons (t := s 3) hsynced (Reading.step_quiet (fun _ _ _ h => by cases h) rfl rfl)
      (.cons (t := s 4) hpush (Reading.step_quiet (takes rfl (List.cons_ne_nil _ _)) rfl rfl)
      (.cons (t := s 5) hask (Reading.step_quiet (takes rfl (List.cons_ne_nil _ _)) rfl rfl)
      (.nil _)))))

end Server

end RnsIcn
