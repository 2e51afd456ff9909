import RnsIcn.Server.Offline

/-! # Offline delivery loses nothing of one's own

Data that finds a subscriber gone is queued under the name of the stream. It reaches the
subscriber at its next subscription to the stream, unless another subscriber of the same
name comes back first and is handed the queue.
-/

namespace RnsIcn

open Effect Transition

namespace Server

variable {U : Type} {owner : FaceId → U} {u : U} {s t v base : Server} {d : Data} {face : FaceId}
  {stream : Name} {I : Server → Prop} {raw : Bytes}

/-- A face of the subscriber has been handed the Data since `base`. -/
def Received (owner : FaceId → U) (u : U) (d : Data) (base s : Server) : Prop :=
  ∃ new face, s.sent = new ++ base.sent ∧ (face, .data d) ∈ new ∧ owner face = u

/-- The subscriber has been handed the Data since `base`, or it is queued under the stream. -/
def Due (owner : FaceId → U) (u : U) (stream : Name) (d : Data) (base s : Server) : Prop :=
  Received owner u d base s ∨ base.sent <:+ s.sent ∧ d ∈ s.queuedFor stream

structure Sending (I : Server → Prop) : Prop where
  frame : ∀ s t, t.mail = s.mail → I s → I t
  send : ∀ s face p, I s → I { s with sent := (face, p) :: s.sent }

structure Posting (I : Server → Prop) : Prop extends Sending I where
  enqueue : ∀ s stream d, I s → I { s with offlineQueue := enqueue stream d s.offlineQueue }

theorem Received.posting : Posting (Received owner u d base) where
  frame s t hm h := by
    simp only [mail, Prod.mk.injEq] at hm
    obtain ⟨new, face, hn, hd⟩ := h
    exact ⟨new, face, hm.2.2.2.2.trans hn, hd⟩
  send s face p h := by
    obtain ⟨new, face', hn, hd, ho⟩ := h
    exact ⟨(face, p) :: new, face', by rw [hn]; rfl, List.mem_cons_of_mem _ hd, ho⟩
  enqueue _ _ _ h := h

theorem mem_queuedFor_enqueue {d' : Data} {stream' : Name} {q : Dict Name (List Data)}
    (h : d ∈ (q.get? stream).getD []) : d ∈ ((enqueue stream' d' q).get? stream).getD [] := by
  rw [enqueue, Dict.get?_set]
  split
  · rename_i he
    rw [← he]
    exact List.mem_append_left _ h
  · exact h

theorem Due.posting : Posting (Due owner u stream d base) where
  frame s t hm h := by
    refine h.imp (Received.posting.frame s t hm) fun h => ?_
    simp only [mail, Prod.mk.injEq] at hm
    rw [queuedFor, hm.2.2.2.1, hm.2.2.2.2]
    exact h
  send s face p h :=
    h.imp (Received.posting.send s face p) fun h => ⟨h.1.trans (List.suffix_cons _ _), h.2⟩
  enqueue s stream' d' h :=
    h.imp (Received.posting.enqueue s stream' d') fun h => ⟨h.1, mem_queuedFor_enqueue h.2⟩

/-- The log has grown since `base`, and the faces and subscriptions are those of `v`. -/
def Pushing (base v s : Server) : Prop :=
  base.sent <:+ s.sent ∧ s.faces = v.faces ∧ s.subscriptions = v.subscriptions

theorem Pushing.posting : Posting (Pushing base v) where
  frame s t hm h := by
    simp only [mail, Prod.mk.injEq] at hm
    exact ⟨hm.2.2.2.2 ▸ h.1, hm.1.trans h.2.1, hm.2.2.1.trans h.2.2⟩
  send _ _ _ h := ⟨h.1.trans (List.suffix_cons _ _), h.2⟩
  enqueue _ _ _ h := h

namespace Sending

theorem keeps_send (hI : Sending I) (face : FaceId) (p : Packet) :
    Keeps I (Server.send face p) := by
  refine Keeps.get.bind fun s => ?_
  split
  · exact (Keeps.ofExcept _).bind fun _ => Keeps.modify fun s => hI.send s face p
  · exact Keeps.pure _

theorem keeps_of_mail {α : Type} {c : Handler α} (hI : Sending I)
    (h : ∀ m, Keeps (·.mail = m) c) : Keeps I c := by
  intro s hs
  have hm := h s.mail s rfl
  rcases hx : exec c s with ⟨_ | a, t⟩
  · rw [hx] at hm
    exact hI.frame s t hm hs
  · rw [hx] at hm
    exact hI.frame s t hm hs

theorem keeps_replay [Hashlib] (hI : Sending I) (face : FaceId) (n : Name) :
    Keeps I (replay face n) := by
  refine (hI.keeps_of_mail fun _ => mail_sheltered.keeps_csGet n).bind fun r =>
    (hI.keeps_of_mail fun _ => mail_sheltered.keeps_maybeSignOpt r).bind fun r => ?_
  cases r with
  | none => exact Keeps.pure _
  | some d => exact hI.keeps_send face _

end Sending

namespace Posting

/-- The property after code that queues or sends and does not raise. -/
abbrev Quiet (I : Server → Prop) (m : Handler Unit) : Prop :=
  Triple I m (fun _ => I) fun _ => False

theorem quiet_enqueueForFace (hI : Posting I) (face : FaceId) (d : Data) :
    Quiet I (enqueueForFace face d) := by
  rw [enqueueForFace_eq]
  refine Triple.modify fun s hs => ?_
  suffices hfold : ∀ (l : List Name) (q : Dict Name (List Data)), I { s with offlineQueue := q } →
      I { s with offlineQueue := l.foldl (fun q stream => Server.enqueue stream d q) q } from
    hfold _ s.offlineQueue hs
  intro l
  induction l with
  | nil => exact fun q hq => hq
  | cons stream l ih => exact fun q hq => ih _ (hI.enqueue _ stream d hq)

theorem quiet_trySend (hI : Posting I) (face : FaceId) (d : Data) {otherwise : Handler Unit}
    (h : Quiet I otherwise) : Quiet I (trySend face d otherwise) :=
  Triple.tryCatch (hI.keeps_send face _) fun _ => h

theorem quiet_push (hI : Posting I) (present : List FaceId) (face : FaceId) (d : Data) :
    Quiet I (if face ∈ present then trySend face d (enqueueForFace face d)
      else enqueueForFace face d) := by
  split
  · exact hI.quiet_trySend face d (hI.quiet_enqueueForFace face d)
  · exact hI.quiet_enqueueForFace face d

theorem quiet_propagate [Hashlib] (hI : Posting I) (d : Data) : Quiet I (propagate d) := by
  refine Triple.bind Triple.get fun s => Triple.pre (P := I) (Triple.forM fun face _ => ?_)
    fun _ h => h.2
  exact hI.quiet_trySend face d (Triple.pure fun _ h => h)

end Posting

theorem Pushing.received (h : Pushing base v s) {p : Packet} (hp : p = .data d)
    (ho : owner face = u) : Received owner u d base { s with sent := (face, p) :: s.sent } := by
  obtain ⟨new, hn⟩ := h.1
  exact ⟨(face, p) :: new, face, by rw [← hn]; rfl, by rw [hp]; exact List.mem_cons_self, ho⟩

theorem send_received (ho : owner face = u) (hface : face ∈ v.faces) :
    Triple (Pushing base v) (send face (.data d)) (fun _ => Received owner u d base)
      (fun s => Pushing base v s ∧ ∀ raw, d.toBytes ≠ .ok raw) := by
  refine Triple.bind_get fun s hs => ?_
  rw [if_pos (by rw [hs.2.1]; exact hface)]
  refine Triple.bind (Q := fun _ => Pushing base v) ?_ fun _ =>
    Triple.modify fun t ht => ht.received rfl ho
  intro t ht
  subst ht
  have hdata : (Packet.data d).toBytes = d.toBytes := rfl
  rw [exec_ofExcept, hdata]
  cases d.toBytes with
  | error e => exact ⟨hs, fun raw h => by cases h⟩
  | ok raw => exact hs

/-- A subscriber to a covering stream is handed the Data, or it is queued under the stream. -/
theorem push_due (ho : owner face = u) (hsub : face ∈ v.subscribersOf stream)
    (hcover : stream.covers d.name = true) :
    Triple (Pushing base v) (if face ∈ v.faces then trySend face d (enqueueForFace face d)
      else enqueueForFace face d) (fun _ => Due owner u stream d base) fun _ => False := by
  have hkeep (l : List Name) (q : Dict Name (List Data)) (h : d ∈ (q.get? stream).getD []) :
      d ∈ ((l.foldl (fun q stream => enqueue stream d q) q).get? stream).getD [] := by
    induction l generalizing q with
    | nil => exact h
    | cons x l ih => exact ih _ (mem_queuedFor_enqueue h)
  have hfold (l : List Name) (q : Dict Name (List Data)) (hl : stream ∈ l) :
      d ∈ ((l.foldl (fun q stream => enqueue stream d q) q).get? stream).getD [] := by
    induction l generalizing q with
    | nil => cases hl
    | cons x l ih =>
      rcases List.mem_cons.mp hl with rfl | hl
      · have hput : d ∈ ((enqueue stream d q).get? stream).getD [] := by
          rw [enqueue, Dict.get?_set_self]
          exact List.mem_append_right _ (List.mem_singleton.mpr rfl)
        exact hkeep l _ hput
      · exact ih _ hl
  have henqueue : Triple (Pushing base v) (enqueueForFace face d)
      (fun _ => Due owner u stream d base) fun _ => False := by
    rw [enqueueForFace_eq]
    refine Triple.modify fun s hs => .inr ⟨hs.1, hfold _ _ (mem_streamsOf.mpr ⟨?_, hcover⟩)⟩
    rw [subscribersOf, hs.2.2]
    exact hsub
  split
  · rename_i hface
    exact Triple.tryCatch ((send_received ho hface).post fun _ _ h => .inl h) fun _ =>
      henqueue.pre fun _ h => h.1
  · exact henqueue

theorem Due.drainOther {stream' : Name} (hne : stream' ≠ stream) :
    Keeps (Due owner u stream d base) (drain stream' face) := by
  refine Triple.bind_get fun s hs => ?_
  split
  · refine Triple.bind (Q := fun _ => Due owner u stream d base) ?_ fun _ => ?_
    · refine Triple.modify fun t ht => ?_
      subst ht
      refine hs.imp id fun h => ⟨h.1, ?_⟩
      rw [queuedFor, Dict.get?_erase_ne _ (Ne.symm hne)]
      exact h.2
    · refine Triple.forM fun e _ => ?_
      exact (Due.posting.quiet_trySend face e (Triple.pure fun _ h => h)).conseq (fun _ h => h)
        (fun _ _ h => h) fun _ h => h.elim
  · exact Triple.pure fun t ht => ht ▸ hs

theorem Received.drain (stream' : Name) : Keeps (Received owner u d base) (drain stream' face) := by
  refine Keeps.get.bind fun s => ?_
  split
  · refine Keeps.bind (Keeps.modify fun _ h => h) fun _ => Keeps.forM fun e _ => ?_
    exact (Received.posting.quiet_trySend face e (Triple.pure fun _ h => h)).conseq (fun _ h => h)
      (fun _ _ h => h) fun _ h => h.elim
  · exact Keeps.pure _

theorem drain_received (ho : owner face = u) (hraw : d.toBytes = .ok raw) :
    Triple (fun s => Due owner u stream d base s ∧ face ∈ s.faces) (drain stream face)
      (fun _ => Received owner u d base) fun _ => False := by
  refine Triple.bind_get fun s hs => ?_
  obtain ⟨hdue, hface⟩ := hs
  rw [if_pos hface]
  have hpass (e : Data) : Posting.Quiet (Received owner u d base) (trySend face e) :=
    Received.posting.quiet_trySend face e (Triple.pure fun _ h => h)
  rcases hdue with hr | ⟨hlog, hq⟩
  · refine Triple.bind (Q := fun _ => Received owner u d base)
      (Triple.modify fun t ht => ?_) fun _ => Triple.forM fun e _ => hpass e
    subst ht
    exact hr
  · refine Triple.bind (Q := fun _ => Pushing base s)
      (Triple.modify fun t ht => ?_) fun _ => Triple.forM_of_mem hq (fun e _ => ?_) ?_
        fun e _ => hpass e
    · subst ht
      exact ⟨hlog, rfl, rfl⟩
    · exact Pushing.posting.quiet_trySend face e (Triple.pure fun _ h => h)
    · exact Triple.tryCatch (send_received ho hface) fun _ =>
        Triple.pure fun _ h => absurd hraw (h.2 raw)

theorem Due.frame (h : Due owner u stream d base s) (hs : t.sent = s.sent)
    (hq : t.offlineQueue = s.offlineQueue) : Due owner u stream d base t := by
  simp only [Due, Received, queuedFor, hs, hq] at h ⊢
  exact h

theorem due_sending (v : Server) : Sending fun s => Due owner u stream d base s ∧
    s.offlineQueue = v.offlineQueue ∧ s.faces = v.faces where
  frame s t hm h := by
    refine ⟨Due.posting.frame s t hm h.1, ?_⟩
    simp only [mail, Prod.mk.injEq] at hm
    exact ⟨hm.2.2.2.1.trans h.2.1, hm.1.trans h.2.2⟩
  send s face p h := ⟨Due.posting.send s face p h.1, h.2⟩

variable [Hashlib]

/-- A subscription is recorded, replays what is stored and drains the queue of its stream. -/
theorem handleSubscribe_triple {P₀ P E : Server → Prop} {Q : Unit → Server → Prop}
    {sub : APSubscribe} (hP : Sending P)
    (hsubscribe : ∀ s, P₀ s → P (after (subscribe sub.name face) s)) (hE : ∀ s, P s → E s)
    (hdrain : Triple P (drain sub.name face) Q E) : Triple P₀ (handleSubscribe sub face) Q E := by
  refine Triple.bind (Q := fun _ => P) hsubscribe fun _ => ?_
  split
  · refine Triple.bind (Q := fun _ => P) (fun _ hs => hs) fun s => ?_
    refine Triple.bind (Q := fun _ => P) (Triple.ofExcept (fun _ _ _ h => h) hE) fun names => ?_
    refine Triple.bind (Q := fun _ => P) ?_ fun _ => hdrain
    exact (Keeps.forM fun n _ => hP.keeps_replay face n).conseq (fun _ h => h) (fun _ _ h => h) hE
  · exact hdrain

/-- A subscription of the subscriber brings what is due, if it runs to its end. -/
theorem handleSubscribe_received {sub : APSubscribe} (hsub : sub.name = stream)
    (ho : owner face = u) (hraw : d.toBytes = .ok raw) (hface : face ∈ v.faces) :
    Triple (fun s => Due owner u stream d base s ∧ s.offlineQueue = v.offlineQueue ∧
      s.faces = v.faces) (handleSubscribe sub face) (fun _ => Received owner u d base)
      (Due owner u stream d base) := by
  refine handleSubscribe_triple (due_sending v) (fun _ h => h) (fun _ h => h.1) ?_
  rw [hsub]
  exact (drain_received ho hraw).conseq (fun _ h => ⟨h.1, h.2.2 ▸ hface⟩) (fun _ _ h => h)
    fun _ h => h.elim

/-- The same for a subscription that replays nothing or whose replay raises nothing. -/
theorem Due.subscribe {sub : APSubscribe} (h : Due owner u stream d base v)
    (hsub : sub.name = stream) (ho : owner face = u) (hraw : d.toBytes = .ok raw)
    (hface : face ∈ v.faces)
    (hok : sub.startFromNow = true ∨ (exec (handleSubscribe sub face) v).1 = .ok ()) :
    Received owner u d base (after (handleSubscribe sub face) v) := by
  rcases hok with hnow | hok
  · have hquiet : Triple (fun s => Due owner u stream d base s ∧ s.faces = v.faces)
        (handleSubscribe sub face) (fun _ => Received owner u d base) fun _ => False := by
      refine Triple.bind (Q := fun _ s => Due owner u stream d base s ∧ s.faces = v.faces)
        (Triple.modify fun s hs => ⟨hs.1.frame rfl rfl, hs.2⟩) fun _ => ?_
      rw [if_neg (by simp [hnow]), hsub]
      exact (drain_received ho hraw).pre fun s hs => ⟨hs.1, hs.2 ▸ hface⟩
    exact Triple.after (hquiet.conseq (fun _ h => h) (fun _ _ h => h) fun _ h => h.elim) ⟨h, rfl⟩
  · have hend := handleSubscribe_received (v := v) hsub ho hraw hface v ⟨h, rfl, rfl⟩
    rw [after]
    rcases hx : exec (handleSubscribe sub face) v with ⟨_ | a, w⟩
    · rw [hx] at hok
      cases hok
    · rw [hx] at hend
      exact hend

theorem Received.handleSubscribe (sub : APSubscribe) (face : FaceId) :
    Keeps (Received owner u d base) (handleSubscribe sub face) :=
  handleSubscribe_triple Received.posting.toSending (fun _ h => h) (fun _ h => h)
    (Received.drain sub.name)

theorem handleSubscribe_due {sub : APSubscribe} (hraw : d.toBytes = .ok raw)
    (hspare : sub.name = stream → face ∈ v.faces → owner face = u ∨ d ∉ v.queuedFor stream) :
    Triple (fun s => Due owner u stream d base s ∧ s.offlineQueue = v.offlineQueue ∧
      s.faces = v.faces) (handleSubscribe sub face) (fun _ => Due owner u stream d base)
      (Due owner u stream d base) := by
  by_cases hsub : sub.name = stream
  · by_cases hface : face ∈ v.faces
    · rcases hspare hsub hface with ho | hq
      · exact (handleSubscribe_received hsub ho hraw hface).post fun _ _ h => .inl h
      · refine (Received.handleSubscribe sub face).conseq
          (fun s h => h.1.resolve_right fun hdue => hq ?_) (fun _ _ h => .inl h) fun _ h => .inl h
        rw [queuedFor, ← h.2.1]
        exact hdue.2
    · refine handleSubscribe_triple (due_sending v) (fun _ h => h) (fun _ h => h.1) ?_
      refine Triple.bind_get fun s hs => ?_
      rw [if_neg (by rw [hs.2.2]; exact hface)]
      exact Triple.pure fun t ht => ht ▸ hs.1
  · refine Triple.pre (P := Due owner u stream d base) ?_ fun _ h => h.1
    exact handleSubscribe_triple Due.posting.toSending (fun _ h => h) (fun _ h => h)
      (Due.drainOther hsub)

/-- What a packet subscribes to. -/
def subscription : Label → Option (APSubscribe × FaceId)
  | .incoming face raw _ =>
    match parsePacket raw with
    | .ok (.subscribe sub) => some (sub, face)
    | _ => none
  | _ => none

/-- Connections, disconnections, subscriptions and publications, and what the forwarder does by
itself in between. -/
def isStreaming : Label → Bool
  | .openFace | .closeFace _ | .publishContent .. | .publishPushed _ | .publishPost ..
  | .forwarder _ => true
  | l => (subscription l).isSome

/-- No other subscriber drains the stream while the Data is in its queue and the subscriber has not
received it since `base`. -/
def Label.Spares (owner : FaceId → U) (u : U) (stream : Name) (d : Data) (base s : Server)
    (l : Label) : Prop :=
  isStreaming l = true ∧ ∀ sub face, subscription l = some (sub, face) → sub.name = stream →
    face ∈ s.faces → owner face = u ∨ d ∉ s.queuedFor stream ∨ Received owner u d base s

variable {l : Label} {prepare : Handler Data}

theorem step_subscription {sub : APSubscribe} (h : subscription l = some (sub, face)) :
    s.step l = some (after (handleSubscribe sub face) s) := by
  cases l with
  | incoming face' raw drawn =>
    simp only [subscription] at h
    split at h
    · rename_i sub' hp
      obtain ⟨rfl, rfl⟩ := Prod.mk.inj (Option.some.inj h)
      simp only [step, handleIncoming, hp, handlePacket]
    · cases h
  | _ => cases h

theorem step_elsewhere (hsub : subscription l = none) (hpub : publication l = none)
    (hl : isStreaming l = true) (hs : s.step l = some t) :
    t.sent = s.sent ∧ t.offlineQueue = s.offlineQueue ∧ t.subscriptions = s.subscriptions ∧
      t.peers = s.peers ∧ s.created <:+ t.created := by
  cases l with
  | openFace => exact Option.some.inj hs ▸ ⟨rfl, rfl, rfl, rfl, List.suffix_refl _⟩
  | closeFace face => exact Option.some.inj hs ▸ ⟨rfl, rfl, rfl, rfl, List.suffix_refl _⟩
  | publishContent n content encrypted sequence latestUnder =>
    have hI : Sheltered fun t => t.mail = s.mail ∧ s.created <:+ t.created :=
      ⟨fun _ _ h => h, fun _ _ h => h, fun _ _ h => ⟨h.1, h.2.trans (List.suffix_cons _ _)⟩⟩
    obtain rfl := Option.some.inj hs
    obtain ⟨hm, hc⟩ := (hI.keeps_publishContent n content encrypted sequence latestUnder).after
      ⟨rfl, List.suffix_refl _⟩
    simp only [mail, Prod.mk.injEq] at hm
    exact ⟨hm.2.2.2.2, hm.2.2.2.1, hm.2.2.1, hm.2.1, hc⟩
  | forwarder l =>
    rw [Server.step] at hs
    split at hs
    · obtain ⟨fw, -, rfl⟩ := Option.map_eq_some_iff.mp hs
      exact ⟨rfl, rfl, rfl, rfl, List.suffix_refl _⟩
    · cases hs
  | publishPushed | publishPost => cases hpub
  | incoming | resource | forwarded | manifest | synced | publishManifest | invalidate =>
    simp only [isStreaming, hsub, Option.isSome_none, Bool.false_eq_true] at hl

/-- Every event but a subscription keeps what pushing keeps and what does not depend on faces. -/
theorem Posting.step (hI : Posting I)
    (hframe : ∀ s t, t.sent = s.sent → t.offlineQueue = s.offlineQueue →
      t.subscriptions = s.subscriptions → I s → I t)
    (hsubscribe : ∀ sub face, subscription l = some (sub, face) →
      I (after (handleSubscribe sub face) s))
    (hl : isStreaming l = true) (h : I s) (hs : s.step l = some t) : I t := by
  cases hsub : subscription l with
  | some x =>
    obtain ⟨sub, face⟩ := x
    obtain rfl := Option.some.inj ((step_subscription hsub).symm.trans hs)
    exact hsubscribe sub face hsub
  | none =>
    cases hpub : publication l with
    | some x =>
      obtain ⟨e, prepare⟩ := x
      obtain rfl := Option.some.inj ((step_publication hpub).symm.trans hs)
      have hprepare : Keeps I prepare :=
        hI.keeps_of_mail fun m => (prepare_mail hpub).post fun _ _ h => h.1
      refine Triple.after (E := I) (hprepare.bind fun e' => ?_) h
      refine Keeps.bind (Keeps.get.bind fun s => Keeps.forM fun face _ => ?_) fun _ => ?_
      · exact (hI.quiet_push s.faces face e').conseq (fun _ h => h) (fun _ _ h => h)
          fun _ h => h.elim
      · exact (hI.quiet_propagate e').conseq (fun _ h => h) (fun _ _ h => h) fun _ h => h.elim
    | none =>
      obtain ⟨hsent, hqueue, hsubs, -⟩ := step_elsewhere hsub hpub hl hs
      exact hframe s t hsent hqueue hsubs h

theorem Due.step (hraw : d.toBytes = .ok raw) (h : Due owner u stream d base s)
    (hl : l.Spares owner u stream d base s) (hs : s.step l = some t) :
    Due owner u stream d base t := by
  refine Due.posting.step (fun _ _ hsent hq _ h => h.frame hsent hq) (fun sub face hsub => ?_) hl.1
    h hs
  by_cases hr : Received owner u d base s
  · exact .inl ((Received.handleSubscribe sub face).after hr)
  · refine (handleSubscribe_due hraw fun hn hf => ?_).after ⟨h, rfl, rfl⟩
    exact (hl.2 sub face hsub hn hf).imp_right fun h => h.resolve_right hr

omit [Hashlib] in
/-- Some face of the subscriber is subscribed to the stream, be it there or gone. -/
def Subscribed (owner : FaceId → U) (u : U) (stream : Name) (s : Server) : Prop :=
  ∃ face ∈ s.subscribersOf stream, owner face = u

omit [Hashlib] in
theorem Subscribed.posting : Posting (Subscribed owner u stream) where
  frame s t hm h := by
    simp only [mail, Prod.mk.injEq] at hm
    simp only [Subscribed, subscribersOf, hm.2.2.1] at h ⊢
    exact h
  send _ _ _ h := h
  enqueue _ _ _ h := h

omit [Hashlib] in
theorem mem_subscribersOf_subscribe {face' : FaceId} {n : Name} :
    face' ∈ (after (subscribe n face) s).subscribersOf stream ↔
      face' ∈ s.subscribersOf stream ∨ n = stream ∧ face' = face := by
  change face' ∈ ((s.subscriptions.set n _).get? stream).getD [] ↔ _
  rw [Dict.get?_set]
  by_cases hn : stream = n
  · subst hn
    rw [if_pos rfl, Option.getD_some, subscribersOf]
    by_cases hface : face ∈ (s.subscriptions.get? stream).getD []
    · rw [if_pos hface]
      exact ⟨.inl, fun h => h.elim id fun h => h.2 ▸ hface⟩
    · rw [if_neg hface, List.mem_append, List.mem_singleton]
      exact or_congr_right ⟨fun h => ⟨rfl, h⟩, fun h => h.2⟩
  · rw [if_neg hn]
    exact ⟨.inl, fun h => h.elim id fun h => absurd h.1.symm hn⟩

theorem subscribed_handleSubscribe {sub : APSubscribe}
    (h : Subscribed owner u stream s ∨ sub.name = stream ∧ owner face = u) :
    Subscribed owner u stream (after (handleSubscribe sub face) s) := by
  have hdrain : Keeps (Subscribed owner u stream) (drain sub.name face) := by
    refine Keeps.get.bind fun s => ?_
    split
    · refine Keeps.bind (Keeps.modify fun _ h => h) fun _ => Keeps.forM fun e _ => ?_
      exact (Subscribed.posting.quiet_trySend face e (Triple.pure fun _ h => h)).conseq
        (fun _ h => h) (fun _ _ h => h) fun _ h => h.elim
    · exact Keeps.pure _
  refine Triple.after (P := (· = s)) (handleSubscribe_triple (P := Subscribed owner u stream)
    Subscribed.posting.toSending ?_ (fun _ h => h) hdrain) rfl
  rintro s rfl
  rcases h with ⟨face', hface, ho⟩ | ⟨hn, ho⟩
  · exact ⟨face', mem_subscribersOf_subscribe.mpr (.inl hface), ho⟩
  · exact ⟨face, mem_subscribersOf_subscribe.mpr (.inr ⟨hn, rfl⟩), ho⟩

theorem Subscribed.step (hl : isStreaming l = true) (h : Subscribed owner u stream s)
    (hs : s.step l = some t) : Subscribed owner u stream t := by
  refine Subscribed.posting.step (fun s t _ _ hsub h => ?_)
    (fun sub face _ => subscribed_handleSubscribe (.inl h)) hl h hs
  simp only [Subscribed, subscribersOf, hsub] at h ⊢
  exact h

theorem due_of_push {d' : Data} (h : Subscribed owner u stream s)
    (hpub : publication l = some (d, prepare)) (hcover : stream.covers d.name = true)
    (hprepare : (exec prepare s).1 = .ok d') (hs : s.step l = some t) :
    d.Resigned d' ∧ Due owner u stream d' s t := by
  obtain ⟨face, hface, ho⟩ := h
  obtain rfl := Option.some.inj ((step_publication hpub).symm.trans hs)
  have hmail := prepare_mail hpub s rfl
  rw [after, push, exec_bind]
  rcases hx : exec prepare s with ⟨_ | e, v⟩
  · rw [hx] at hprepare
    cases hprepare
  rw [hx] at hprepare hmail
  obtain rfl := Except.ok.inj hprepare
  obtain ⟨hmail, hd⟩ := hmail
  simp only [mail, Prod.mk.injEq] at hmail
  obtain ⟨-, -, hsubs, -, hsent⟩ := hmail
  have hface' : face ∈ v.subscribersOf stream := by
    rw [subscribersOf, hsubs]
    exact hface
  have hcover' : stream.covers e.name = true := by
    rw [hd.name]
    exact hcover
  have hmem : face ∈ v.subscriberFaces e.name :=
    mem_subscriberFaces.mpr ⟨stream, mem_streamsOf.mpr ⟨hface', hcover'⟩⟩
  refine ⟨hd, Triple.after (P := (· = v)) (E := Due owner u stream e s) ?_ rfl⟩
  refine Triple.bind (Q := fun _ => Due owner u stream e s) ?_ fun _ =>
    (Due.posting.quiet_propagate e).conseq (fun _ h => h) (fun _ _ h => h) fun _ h => h.elim
  refine Triple.bind_get fun w hw => Triple.pre (P := Pushing s v) ?_ fun x hx => ?_
  · subst hw
    exact (Triple.forM_of_mem hmem (fun f _ => Pushing.posting.quiet_push w.faces f e)
      (push_due ho hface' hcover') fun f _ => Due.posting.quiet_push w.faces f e).conseq
        (fun _ h => h) (fun _ _ h => h) fun _ h => h.elim
  · subst hx hw
    exact ⟨hsent ▸ List.suffix_refl _, rfl, rfl⟩

/-- Data that is published under a stream after the first subscription of a subscriber reaches it
at once or by the end of its next subscription, if no other subscriber drains it before. -/
theorem offline_delivered {s₀ s₁ : Server} {l₀ : Label} {ls₁ ls₂ : List Label}
    {sub₀ sub : APSubscribe} {face₀ : FaceId} {d' : Data}
    (hfirst : subscription l₀ = some (sub₀, face₀)) (hstream : sub₀.name = stream)
    (ho₀ : owner face₀ = u) (hs₀ : s₀.step l₀ = some s₁)
    (hrun₁ : Run Server.step (fun _ l => isStreaming l = true) s₁ ls₁ s)
    (hpub : publication l = some (d, prepare)) (hcover : stream.covers d.name = true)
    (hprepare : (exec prepare s).1 = .ok d') (hs : s.step l = some t)
    (hraw : d'.toBytes = .ok raw)
    (hrun₂ : Run Server.step (Label.Spares owner u stream d' s) t ls₂ v)
    (hsub : sub.name = stream) (ho : owner face = u) (hface : face ∈ v.faces)
    (hok : sub.startFromNow = true ∨ (exec (handleSubscribe sub face) v).1 = .ok ()) :
    d.Resigned d' ∧ Received owner u d' s (after (handleSubscribe sub face) v) := by
  obtain rfl := Option.some.inj ((step_subscription hfirst).symm.trans hs₀)
  have hsubscribed : Subscribed owner u stream s :=
    hrun₁.invariant (subscribed_handleSubscribe (.inr ⟨hstream, ho₀⟩)) fun _ _ _ h hl hs =>
      h.step hl hs
  obtain ⟨hd, hdue⟩ := due_of_push hsubscribed hpub hcover hprepare hs
  have hdue' : Due owner u stream d' s v :=
    hrun₂.invariant hdue fun _ _ _ h hl hs => h.step hraw hl hs
  exact ⟨hd, hdue'.subscribe hsub ho hraw hface hok⟩

end Server

namespace Server

def broadcaster : Server := { rnsAddr := List.replicate 16 1 }

def liveStream : Name := ⟨List.replicate 16 1, [[0x6c, 0x69, 0x76, 0x65]], none⟩

def issue : Data where
  name := ⟨List.replicate 16 1, [[0x6c, 0x69, 0x76, 0x65], [0x31]], none⟩
  content := [0x68, 0x69]

def subscribes (face : FaceId) : Label :=
  .incoming face (wireBytes (.subscribe { name := liveStream, startFromNow := true })) drawn

def parity (face : FaceId) : ℕ := face % 2

def bothGone : List Label :=
  [.openFace, .openFace, subscribes 100, subscribes 101, .closeFace 100, .closeFace 101]

def bothBack : List Label := [.openFace, .openFace, subscribes 103, subscribes 102]

/-- The second one to come back gets nothing of what was published in between. -/
theorem queue_taken :
    letI := Data.paddedHash
    let s := serverAfter broadcaster bothGone
    let t := serverAfter s [.publishPushed issue]
    let w := serverAfter t bothBack
    Run step (fun _ l => isStreaming l = true) broadcaster bothGone s ∧
      Subscribed parity 0 liveStream s ∧
      exec (publishPushed issue) s = (.ok (), t) ∧ t.queuedFor liveStream = [issue, issue] ∧
      Run step (fun _ l => isStreaming l = true) t bothBack w ∧
      w.sent = [(103, .data issue), (103, .data issue)] ∧ w.queuedFor liveStream = [] ∧
      ¬ Received parity 0 issue s w := by
  let := Data.paddedHash
  have hgone : ∀ l ∈ bothGone, isStreaming l = true := by decide
  have hback : ∀ l ∈ bothBack, isStreaming l = true := by decide
  refine ⟨run_of_exec_of rfl fun l hl _ => hgone l hl, ⟨100, by decide, rfl⟩, rfl, rfl,
    run_of_exec_of rfl fun l hl _ => hback l hl, rfl, rfl, ?_⟩
  rintro ⟨new, face, hnew, hd, ho⟩
  have hsent : [(103, Packet.data issue), (103, Packet.data issue)] = new := by
    rw [← List.append_nil new]
    exact hnew
  have hface : ∀ x ∈ [(103, Packet.data issue), (103, Packet.data issue)], parity x.1 ≠ 0 := by
    decide
  exact hface _ (hsent ▸ hd) ho

theorem issue_drained :
    letI := Data.paddedHash
    let s := serverAfter broadcaster bothGone
    let v := serverAfter s [.publishPushed issue, .openFace]
    Received parity 0 issue s
      (after (handleSubscribe { name := liveStream, startFromNow := true } 102) v) := by
  let := Data.paddedHash
  have hgone : ∀ l ∈ bothGone.drop 3, isStreaming l = true := by decide
  have hrun₁ : Run step (fun _ l => isStreaming l = true)
      (serverAfter broadcaster (bothGone.take 3)) (bothGone.drop 3)
      (serverAfter broadcaster bothGone) := run_of_exec_of rfl fun l hl _ => hgone l hl
  have hrun₂ : Run step (Label.Spares parity 0 liveStream issue (serverAfter broadcaster bothGone))
      (serverAfter (serverAfter broadcaster bothGone) [.publishPushed issue]) [.openFace]
      (serverAfter (serverAfter broadcaster bothGone) [.publishPushed issue, .openFace]) :=
    .cons ⟨rfl, fun _ _ h => by cases h⟩ rfl (.nil _)
  have hfirst : subscription (subscribes 100) =
      some ({ name := liveStream, startFromNow := true }, 100) := rfl
  have hsubscribed : (serverAfter broadcaster (bothGone.take 2)).step (subscribes 100) =
      some (serverAfter broadcaster (bothGone.take 3)) := rfl
  have hback : parity 102 = 0 := rfl
  exact (offline_delivered (l := .publishPushed issue) hfirst rfl rfl hsubscribed hrun₁ rfl rfl
    rfl rfl rfl hrun₂ rfl hback (by decide) (.inl rfl)).2

end Server

end RnsIcn
