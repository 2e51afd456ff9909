import RnsIcn.Server.Calm
import RnsIcn.Server.Reader

/-! # Every Interest is answered at most once

An Interest is answered when it comes in, or a handler waits to answer it. A face is sent no more
answers than it has sent Interests, and the answer to an Interest goes to no other face.
-/

namespace RnsIcn

open Effect Transition

namespace Server

variable {s t : Server} {l : Label} {face other : FaceId}

/-- The handlers that have an Interest of the face to answer. -/
def waiting (s : Server) (face : FaceId) : ℕ :=
  s.suspended.countP fun h => decide (Suspended.asker h = some face)

/-- The event is an Interest that the face sends. -/
def Label.asks (face : FaceId) : Label → ℕ
  | .incoming face' raw _ =>
    match parsePacket raw with
    | .ok (.interest _) => if face' = face then 1 else 0
    | _ => 0
  | _ => 0

/-- The face whose Interest an event answers, if it answers one. -/
def Label.answers (s : Server) : Label → Option FaceId
  | .incoming face raw _ =>
    match parsePacket raw with
    | .ok (.interest _) => some face
    | _ => none
  | .forwarded c => (waitingFor c s.suspended).map Prod.fst
  | .manifest face _ => some face
  | _ => none

/-- How many packets a step sends in answer to an Interest of the face. -/
def answered (face : FaceId) (e : Server × Label × Server) : ℕ :=
  if e.2.1.answers e.1 = some face then e.2.2.sent.length - e.1.sent.length else 0

/-- An Interest of the face is dropped, answered or left to a handler that waits. -/
inductive Settles (s : Server) (face : FaceId) : Server → Prop where
  | dropped {t : Server} : t.sent = s.sent → t.suspended = s.suspended → Settles s face t
  | answered {t : Server} (p : Packet) : t.sent = (face, p) :: s.sent →
      t.suspended = s.suspended → Settles s face t
  | waits {t : Server} (h : Suspended) : Suspended.asker h = some face → t.sent = s.sent →
      t.suspended = h :: s.suspended → Settles s face t

/-- Nothing has been sent, and the same handlers wait. -/
def Quiet (s t : Server) : Prop := t.sent = s.sent ∧ t.suspended = s.suspended

theorem quiet_sheltered (s : Server) : Sheltered (Quiet s) where
  store _ _ h := h
  sign _ _ h := h
  create _ _ h := h

theorem Quiet.settles (h : s.Quiet t) (face : FaceId) : s.Settles face t := .dropped h.1 h.2

theorem send_settles (face : FaceId) (p : Packet) :
    Triple (Quiet s) (send face p) (fun _ => Settles s face) (Settles s face) := by
  refine Triple.bind_get fun u hu => ?_
  split
  · refine Triple.bind (Q := fun _ t => s.Quiet t) (Triple.ofExcept
      (fun _ t _ ht => ht ▸ hu) fun t ht => ht ▸ hu.settles face) fun _ => ?_
    exact Triple.modify fun t ht => .answered p (by rw [ht.1]) ht.2
  · exact Triple.pure fun t ht => ht ▸ hu.settles face

theorem maybeSendNack_settles (i : Interest) (face : FaceId) :
    Triple (Quiet s) (maybeSendNack i face) (fun _ => Settles s face) (Settles s face) := by
  refine Triple.bind_get fun u hu => ?_
  split
  · exact (send_settles face _).pre fun t ht => ht ▸ hu
  · exact Triple.pure fun t ht => ht ▸ hu.settles face

variable [Hashlib]

theorem handleInterest_settles (i : Interest) (face : FaceId) (nonce : Bytes) :
    Triple (Quiet s) (handleInterest i face nonce) (fun _ => Settles s face) (Settles s face) := by
  have hserve : Triple (Quiet s) (serveFromCs i) (fun _ => Quiet s) (Settles s face) :=
    ((quiet_sheltered s).keeps_serveFromCs i).conseq (fun _ h => h) (fun _ _ h => h)
      fun _ h => h.settles face
  refine hserve.bind fun r => ?_
  cases r with
  | some d => exact send_settles face _
  | none =>
    refine Triple.bind_get fun u hu => ?_
    refine Triple.bind (Q := fun _ t => s.Quiet t) (Triple.ofExcept
      (fun _ t _ ht => ht ▸ hu) fun t ht => ht ▸ hu.settles face) fun name => ?_
    split
    · exact Triple.modify fun t ht => .waits (.buildingManifest face) rfl ht.1 (by rw [ht.2])
    · refine Triple.bind (Q := fun _ t => t.sent = s.sent ∧ t.suspended =
        .forwarding u.forwarder.loop.nextCall face i :: s.suspended)
        (Triple.modify fun t ht => ⟨ht.1, by rw [ht.2]⟩) fun _ => ?_
      exact Triple.modify fun t ht => .waits (.forwarding _ face i) rfl ht.1 ht.2

def without (s : Server) (h : Suspended) : Server := { s with suspended := s.suspended.erase h }

omit [Hashlib] in
theorem answerForwarded_settles (c : CallId) (face : FaceId) (i : Interest) (phase : Phase) :
    Settles (s.without (.forwarding c face i)) face
      (after (answerForwarded c face i phase) s) := by
  have hstart : Quiet (s.without (.forwarding c face i)) (s.without (.forwarding c face i)) :=
    ⟨rfl, rfl⟩
  have hnack := (maybeSendNack_settles i face).after hstart
  cases phase with
  | returned r =>
    cases r with
    | none => exact hnack
    | some d => exact (send_settles face (.data d)).after hstart
  | raised e => exact hstart.settles face
  | _ => exact hnack

theorem answerManifest_settles (face : FaceId) (text : Bytes) :
    Settles (s.without (.buildingManifest face)) face (after (answerManifest face text) s) := by
  have hkeep {α : Type} {m : Handler α}
      (hm : Keeps (Quiet (s.without (.buildingManifest face))) m) :
      Triple (Quiet (s.without (.buildingManifest face))) m
        (fun _ => Quiet (s.without (.buildingManifest face)))
        (Settles (s.without (.buildingManifest face)) face) :=
    hm.conseq (fun _ h => h) (fun _ _ h => h) fun _ h => h.settles face
  have hI := quiet_sheltered (s.without (.buildingManifest face))
  have hbuild : Keeps (Quiet (s.without (.buildingManifest face))) (buildManifestData text) :=
    Keeps.get.bind fun _ => (Keeps.ofExcept _).bind fun _ => (hI.keeps_create _ _).bind fun _ =>
      (hI.maybeSign _).post fun _ _ h => h.1
  have hend := (hkeep hbuild).bind fun d => (hkeep (hI.keeps_csInsert d.name d)).bind fun _ =>
    send_settles face (.data d)
  have hstart : Quiet (s.without (.buildingManifest face)) (s.without (.buildingManifest face)) :=
    ⟨rfl, rfl⟩
  exact hend.after hstart

omit [Hashlib] in
theorem Settles.sent (h : s.Settles face t) :
    ∃ new, t.sent = new ++ s.sent ∧ new.length ≤ 1 ∧ ∀ x ∈ new, x.1 = face := by
  cases h with
  | dropped h | waits _ _ h => exact ⟨[], h, by simp, by simp⟩
  | answered p h => exact ⟨[(face, p)], h, by simp, by simp⟩

omit [Hashlib] in
theorem Settles.owes (h : s.Settles face t) (other : FaceId) :
    (if face = other then t.sent.length - s.sent.length else 0) + t.waiting other ≤
      (if face = other then 1 else 0) + s.waiting other := by
  cases h with
  | dropped h hw => simp [h, waiting, hw]
  | answered p h hw =>
    simp only [h, waiting, hw, List.length_cons]
    split <;> omega
  | waits w hask h hw =>
    simp only [h, waiting, hw, List.countP_cons, hask, Option.some.injEq, decide_eq_true_eq]
    split <;> omega

omit [Hashlib] in
theorem waiting_without {h : Suspended} (hmem : h ∈ s.suspended)
    (hask : Suspended.asker h = some face) :
    s.waiting other = (s.without h).waiting other + if face = other then 1 else 0 := by
  have hperm := List.perm_cons_erase hmem
  rw [waiting, hperm.countP_eq, List.countP_cons, hask]
  simp only [Option.some.injEq, decide_eq_true_eq]
  rfl

def Unasked (s t : Server) : Prop := ∀ face, t.waiting face = s.waiting face

omit [Hashlib] in
theorem waiting_askers (s : Server) (face : FaceId) :
    s.waiting face = s.askers.countP fun h => decide (Suspended.asker h = some face) := by
  rw [waiting, askers, List.countP_filter]
  refine List.countP_congr fun h _ => ?_
  cases hask : Suspended.asker h <;> simp

omit [Hashlib] in
theorem unasked_calm (s : Server) : Calm (Unasked s) := fun u t _ _ he hu face => by
  rw [waiting_askers, he, ← waiting_askers, hu face]

theorem unasked_receiveData (d : Data) (face : FaceId) (cacheUnsolicited : Bool) :
    Keeps (Unasked s) (receiveData d face cacheUnsolicited) :=
  Keeps.get.bind fun _ => Keeps.bind (Keeps.modify fun _ h => h) fun _ => Keeps.ofExcept _

theorem step_push {d : Data} {prepare : Handler Data} (h : publication l = some (d, prepare))
    (hs : step s l = some t) : Unasked s t := by
  rw [step_publication h] at hs
  have hself : Unasked s s := fun _ => rfl
  exact Option.some.inj hs ▸ ((unasked_calm s).keeps_push h).after hself

/-- An answering step settles one Interest: the one that comes in, or that of a handler. -/
theorem step_settles (hs : step s l = some t) (hf : l.answers s = some face) :
    ∃ u, u.sent = s.sent ∧ Settles u face t ∧ ∀ other,
      u.waiting other + (if face = other then 1 else 0) = s.waiting other + l.asks other := by
  cases l with
  | incoming face' raw drawn =>
    obtain rfl := Option.some.inj hs
    simp only [Label.answers] at hf
    simp only [Label.asks]
    rw [handleIncoming]
    cases hp : parsePacket raw with
    | error e => simp [hp] at hf
    | ok p =>
      rw [hp] at hf
      cases p with
      | interest i =>
        obtain rfl := Option.some.inj hf
        refine ⟨s, rfl, ?_, fun _ => rfl⟩
        have hquiet : Quiet s s := ⟨rfl, rfl⟩
        simp only [handlePacket]
        split
        · exact (send_settles face' _).after hquiet
        · exact (handleInterest_settles i face' _).after hquiet
      | _ => cases hf
  | forwarded c =>
    obtain ⟨⟨face', i⟩, hw, hs⟩ := Option.bind_eq_some_iff.mp hs
    obtain ⟨call, hc, hs⟩ := Option.bind_eq_some_iff.mp hs
    have hface : some face' = some face := by rw [← hf, Label.answers, hw]; rfl
    obtain rfl := Option.some.inj hface
    have hmem := mem_of_waitingFor hw
    refine ⟨s.without (.forwarding c face' i), rfl, ?_, fun other =>
      (waiting_without hmem rfl).symm⟩
    split at hs
    · exact Option.some.inj hs ▸ answerForwarded_settles c face' i _
    · exact Option.some.inj hs ▸ answerForwarded_settles c face' i _
    · cases hs
  | manifest face' text =>
    obtain rfl : face' = face := Option.some.inj hf
    rw [step] at hs
    split at hs
    · rename_i hmem
      obtain rfl := Option.some.inj hs
      exact ⟨s.without (.buildingManifest face'), rfl, answerManifest_settles face' text,
        fun other => (waiting_without hmem rfl).symm⟩
    · cases hs
  | _ => cases hf

theorem step_unasked (hs : step s l = some t) (hf : l.answers s = none) (face : FaceId) :
    t.waiting face = s.waiting face ∧ l.asks face = 0 := by
  have hself : Unasked s s := fun _ => rfl
  have hI := unasked_calm s
  cases l with
  | incoming face' raw drawn =>
    obtain rfl := Option.some.inj hs
    simp only [Label.answers] at hf
    simp only [Label.asks]
    rw [handleIncoming]
    cases hp : parsePacket raw with
    | error e => exact ⟨rfl, rfl⟩
    | ok p =>
      rw [hp] at hf
      cases p with
      | interest i => cases hf
      | data d =>
        refine ⟨Triple.after (P := Unasked s) (Triple.bind Keeps.get fun u => ?_) hself face, rfl⟩
        split
        · exact (unasked_receiveData d face' true).bind fun _ => hI.keeps_propagate d _
        · exact unasked_receiveData d face' false
      | subscribe sub => exact ⟨(hI.keeps_handleSubscribe sub face').after hself face, rfl⟩
      | peer p => exact ⟨(hI.keeps_handlePeerHandshake p face' _ _).after hself face, rfl⟩
      | invalidate v => exact ⟨(hI.keeps_handleInvalidate v face').after hself face, rfl⟩
      | capPeer c => exact ⟨rfl, rfl⟩
      | nack n => exact ⟨rfl, rfl⟩
  | resource payload =>
    obtain rfl := Option.some.inj hs
    rw [handleResource]
    cases resourceData payload with
    | none => exact ⟨rfl, rfl⟩
    | some d => exact ⟨(hI.sheltered.keeps_csInsert d.name d).after hself face, rfl⟩
  | forwarded c =>
    obtain ⟨⟨face', i⟩, hw, -⟩ := Option.bind_eq_some_iff.mp hs
    rw [Label.answers, hw] at hf
    cases hf
  | manifest face' text => cases hf
  | synced face' streams =>
    rw [step] at hs
    split at hs
    · exact Option.some.inj hs ▸ ⟨(hI.keeps_finishSync face' streams).after hself face, rfl⟩
    · cases hs
  | publishContent n content encrypted sequence latestUnder =>
    exact Option.some.inj hs ▸
      ⟨(hI.sheltered.keeps_publishContent _ _ _ _ _).after hself face, rfl⟩
  | publishPost n content encrypted sequence latestUnder =>
    exact ⟨step_push rfl hs face, rfl⟩
  | publishPushed d => exact ⟨step_push rfl hs face, rfl⟩
  | publishManifest text =>
    exact Option.some.inj hs ▸
      ⟨(hI.keeps_publishManifest text).after hself face, rfl⟩
  | invalidate n byPrefix =>
    exact Option.some.inj hs ▸ ⟨(hI.keeps_invalidate n byPrefix).after hself face, rfl⟩
  | forwarder l =>
    rw [step] at hs
    split at hs
    · obtain ⟨fw, -, rfl⟩ := Option.map_eq_some_iff.mp hs
      exact ⟨rfl, rfl⟩
    · cases hs
  | openFace => exact Option.some.inj hs ▸ ⟨rfl, rfl⟩
  | closeFace face' => exact Option.some.inj hs ▸ ⟨rfl, rfl⟩

theorem step_balance (hs : step s l = some t) (face : FaceId) :
    answered face (s, l, t) + t.waiting face ≤ l.asks face + s.waiting face := by
  rw [answered]
  cases hf : l.answers s with
  | none =>
    obtain ⟨hw, ha⟩ := step_unasked hs hf face
    rw [if_neg (by simp), hw, ha]
  | some asker =>
    obtain ⟨u, hsent, hu, hcount⟩ := step_settles hs hf
    have howes := hu.owes face
    rw [hsent] at howes
    have hcount := hcount face
    simp only [Option.some.injEq]
    omega

/-- In every run each Interest of a face is answered at most once, as those that still wait can be
answered too, and an answer is one packet to the face that asked. -/
theorem flow_balance {ls : List Label} (h₀ : s.Initial) (h : Run step anyStep s ls t)
    (face : FaceId) :
    ((trace step s ls).map (answered face)).sum + t.waiting face ≤
        (ls.map (Label.asks face)).sum ∧
      ∀ e ∈ trace step s ls, e.2.1.answers e.1 = some face →
        ∃ new, e.2.2.sent = new ++ e.1.sent ∧ new.length ≤ 1 ∧ ∀ x ∈ new, x.1 = face := by
  constructor
  · have hsum := h.account (w := fun s => s.waiting face) (fun _ _ _ hs => step_balance hs face)
    have hnone : s.waiting face = 0 := by rw [waiting, h₀.suspended, List.countP_nil]
    rwa [hnone, Nat.add_zero] at hsum
  · intro e he hf
    obtain ⟨u, hsent, hu, -⟩ := step_settles (h.of_mem_trace he).2 hf
    rw [← hsent]
    exact hu.sent

omit [Hashlib] in
theorem post_answered :
    letI := Data.paddedHash
    let t := serverAfter publisher ownPost
    ((trace step publisher ownPost).map (answered 100)).sum = 1 ∧
      (((trace step publisher ownPost).map (answered 100)).sum + t.waiting 100 ≤
          (ownPost.map (Label.asks 100)).sum ∧
        ∀ e ∈ trace step publisher ownPost, e.2.1.answers e.1 = some 100 →
          ∃ new, e.2.2.sent = new ++ e.1.sent ∧ new.length ≤ 1 ∧ ∀ x ∈ new, x.1 = 100) := by
  let := Data.paddedHash
  have hrun : Run step anyStep publisher ownPost (serverAfter publisher ownPost) :=
    run_of_exec rfl
  exact ⟨rfl, flow_balance publisher_initial hrun 100⟩

end Server

end RnsIcn
