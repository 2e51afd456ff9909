import RnsIcn.Network.Versions
import RnsIcn.Server.Calm
import RnsIcn.Server.Solicited
import RnsIcn.Server.Stale

/-! # What a server hands on has arrived

A server that finds no answer in its store hands the Interest to its forwarder, which finds none
either. What the call gets after that has arrived.
-/

namespace RnsIcn

open Effect Transition EventLoop

namespace Server

variable [Hashlib] {s t : Server} {l : Label} {d : Data} {i : Interest} {face : FaceId}
  {P Q : Data → Prop}

/-- What the lookup of the forwarder finds is found by that of the server, in any namespace. -/
theorem csLookup_finds (i : Interest) :
    Triple (· = s) (csLookup i) (fun r t => t.forwarder = s.forwarder.swept ∧
      ∀ d, (s.forwarder.csLookup i).2 = .ok (some d) → ∃ d' ∈ r, d.SameAge d')
      fun t => t.forwarder = s.forwarder.swept := by
  have hsign {raw : Option Data} {p : Data → Bool} {d : Data} {r : Option Data} :
      raw.filter p = some d → Option.Rel Data.SameAge raw r → ∃ d' ∈ r, d.SameAge d' ∧
        p d = true := by
    intro hraw hrel
    obtain ⟨rfl, hp⟩ := Option.filter_eq_some_iff.mp hraw
    cases hrel with
    | some hage => exact ⟨_, rfl, hage, hp⟩
  refine Triple.bind_get fun u hu => ?_
  subst hu
  split
  · rename_i hunder
    refine Triple.bind (csGetPrefix_swept i.name i.child i.minSequence) fun raw t ht => ?_
    refine Triple.bind (maybeSignOpt_sameAge raw) (fun r => ?_) t ht.1
    refine Triple.pure fun t' ht' => ⟨ht'.1, fun d hd => ?_⟩
    rw [Forwarder.csLookup, if_pos hunder] at hd
    have hraw : raw.filter (fun d => !Forwarder.walkSkips i d) = some d :=
      Except.ok.inj ((congrArg (Except.map _) ht.2).symm.trans hd)
    obtain ⟨d', hd', hage, hkeep⟩ := hsign hraw ht'.2
    refine ⟨d', Option.filter_eq_some_iff.mpr ⟨hd', ?_⟩, hage⟩
    have hskip : Forwarder.walkSkips i d' = Forwarder.walkSkips i d := by
      rw [Forwarder.walkSkips, hage.sequence, Forwarder.walkSkips]
    rw [Bool.not_eq_true'] at hkeep
    simp [hskip, hkeep]
  · rename_i hexact
    refine Triple.bind (csGet_swept i.name) fun raw t ht => ?_
    refine (maybeSignOpt_sameAge raw).post (fun r t' ht' => ⟨ht'.1, fun d hd => ?_⟩) t ht.1
    rw [Forwarder.csLookup, if_neg hexact, ht.2] at hd
    obtain rfl := Except.ok.inj hd
    cases ht'.2 with
    | some hage => exact ⟨_, rfl, hage⟩

/-- The forwarder serves nothing from the store where the server has found nothing. -/
theorem serveFromCs_none (i : Interest) :
    Triple (· = s) (serveFromCs i) (fun r t => r = none → ∀ cs d,
      t.forwarder.csLookup i = (cs, .ok (some d)) → BestRoute.selectorSatisfied i d = false)
      fun t => t.forwarder = s.forwarder.swept := by
  refine Triple.bind_get fun u hu => ?_
  subst hu
  refine (csLookup_finds i).bind fun r => Triple.pure fun t ht hnone cs d hlook => ?_
  rw [ht.1, Forwarder.csLookup_swept] at hlook
  obtain ⟨d', hd', hage⟩ := ht.2 d (congrArg Prod.snd hlook)
  rw [← Bool.not_eq_true]
  intro hsel
  have hfresh := (BestRoute.selectorSatisfied_iff.mp hsel).1
  rw [Option.filter_eq_none_iff] at hnone
  refine hnone d' hd' ?_
  cases hmust : i.mustBeFresh with
  | false => rfl
  | true => simp [hage.freshness, hfresh hmust]

/-- Each handler that waits for a call of `express` has one, and `P` holds of what it gets. -/
structure Relaying (P : Data → Prop) (s : Server) : Prop where
  consistent : s.forwarder.Consistent
  waits : ∀ c face i, .forwarding c face i ∈ s.suspended →
    (∃ call, s.forwarder.loop.calls c = some call) ∧ ∀ d, Got d c s.forwarder.loop → P d

namespace Relaying

omit [Hashlib] in
theorem mono (h : Relaying P s) (hPQ : ∀ d, P d → Q d) : Relaying Q s where
  consistent := h.consistent
  waits c face i hm := ⟨(h.waits c face i hm).1, fun d hg => hPQ d ((h.waits c face i hm).2 d hg)⟩

omit [Hashlib] in
theorem of_subset (h : Relaying P s) (hloop : t.forwarder.loop = s.forwarder.loop)
    (hpit : t.forwarder.pit = s.forwarder.pit)
    (hsub : ∀ c face i, .forwarding c face i ∈ t.suspended → .forwarding c face i ∈ s.suspended) :
    Relaying P t where
  consistent := ⟨hloop ▸ h.consistent.loop, hpit ▸ h.consistent.hashFree⟩
  waits c face i hm := hloop ▸ h.waits c face i (hsub c face i hm)

omit [Hashlib] in
theorem calm (P : Data → Prop) : Calm (Relaying P) := by
  intro s t hloop hpit hask h
  refine h.of_subset hloop hpit fun c face i hm => ?_
  have hmem : .forwarding c face i ∈ s.askers := hask ▸ List.mem_filter.mpr ⟨hm, rfl⟩
  exact List.mem_of_mem_filter hmem

/-- A step of the forwarder, with what arrives in it. -/
theorem forwarder {l : Forwarder.Label} {fw : Forwarder} (h : Relaying P s)
    (hl : ∀ d inFace unsolicited, l = .receiveData d inFace unsolicited → P d)
    (hs : s.forwarder.step l = some fw) : Relaying P { s with forwarder := fw } where
  consistent := Forwarder.step_consistent hs h.consistent
  waits c face i hm := by
    obtain ⟨⟨call, hc⟩, hgot⟩ := h.waits c face i hm
    obtain ⟨call', hc', -⟩ := Forwarder.step_name h.consistent hs hc
    refine ⟨⟨call', hc'⟩, fun d hg => ?_⟩
    obtain ⟨-, hg | ⟨⟨inFace, unsolicited, rfl⟩, -⟩⟩ :=
      Forwarder.got_of_step h.consistent hs hc hc' hg
    · exact hgot d hg
    · exact hl d inFace unsolicited rfl

/-- A new call of `express` that finds nothing in the store. -/
theorem express (h : Relaying P s) (hmiss : ∀ cs d, s.forwarder.csLookup i = (cs, .ok (some d)) →
      BestRoute.selectorSatisfied i d = false) (face : FaceId) (nonce : Bytes) :
    Relaying P { s with
      suspended := .forwarding s.forwarder.loop.nextCall face i :: s.suspended
      forwarder := s.forwarder.express i face nonce } := by
  have hs : s.forwarder.step (.express i face nonce) = some (s.forwarder.express i face nonce) :=
    rfl
  have hold := h.forwarder (by simp) hs
  refine ⟨hold.consistent, fun c face' i' hm => ?_⟩
  rcases List.mem_cons.mp hm with he | hm
  · obtain ⟨rfl, rfl, rfl⟩ := Suspended.forwarding.inj he
    obtain ⟨call, hc, -⟩ := Forwarder.express_name s.forwarder i' face' nonce
    refine ⟨⟨call, hc⟩, fun d hg => ?_⟩
    have hnew := h.consistent.loop.fresh _ le_rfl
    obtain ⟨_, _, _, cs, he, hlook, hsel⟩ := (Forwarder.step_change hs).hit_of_new hnew hg
    obtain ⟨rfl, -, -⟩ := Forwarder.Label.express.inj he
    rw [hmiss cs d hlook] at hsel
    cases hsel
  · exact hold.waits c face' i' hm

theorem keeps_handleInterest (i : Interest) (face : FaceId) (nonce : Bytes) :
    Keeps (Relaying P) (handleInterest i face nonce) := by
  intro s hs
  have hserve : Triple (fun t => Relaying P t ∧ t = s) (serveFromCs i) (fun r t => Relaying P t ∧
      (r = none → ∀ cs d, t.forwarder.csLookup i = (cs, .ok (some d)) →
        BestRoute.selectorSatisfied i d = false)) (Relaying P) :=
    (Triple.and ((calm P).sheltered.keeps_serveFromCs i) (serveFromCs_none i)).conseq
      (fun _ h => h) (fun _ _ h => h) fun _ h => h.1
  refine (hserve.bind fun r => ?_) s ⟨hs, rfl⟩
  cases r with
  | some d => exact ((calm P).keeps_send face _).pre fun _ h => h.1
  | none =>
    refine Triple.bind_get fun u hu => ?_
    refine Triple.bind (Q := fun _ t => t = u) (Triple.ofExcept (fun _ _ _ ht => ht)
      fun t ht => ht ▸ hu.1) fun name => ?_
    split
    · refine Triple.modify fun t ht => ?_
      subst ht
      exact hu.1.of_subset rfl rfl fun c face' i' hm => by simpa using hm
    · refine Triple.bind (Q := fun _ t => t = { u with
        suspended := .forwarding u.forwarder.loop.nextCall face i :: u.suspended })
        (Triple.modify fun t ht => ht ▸ rfl) fun _ => Triple.modify fun t ht => ?_
      subst ht
      exact hu.1.express (hu.2 rfl) face nonce

theorem keeps_receiveData (hd : P d) (face : FaceId) (cacheUnsolicited : Bool) :
    Keeps (Relaying P) (receiveData d face cacheUnsolicited) := by
  refine Keeps.get.bind fun _ => Keeps.bind (Keeps.modify fun s h => ?_) fun _ => Keeps.ofExcept _
  exact h.forwarder (l := .receiveData d face cacheUnsolicited)
    (by rintro _ _ _ ⟨⟩; exact hd) rfl

/-- Every step of a server keeps it, if `P` holds of the Data that arrives. -/
theorem step (h : Relaying P s) (hl : ∀ d ∈ l.arriving, P d) (hs : s.step l = some t) :
    Relaying P t := by
  have hI := calm P
  cases l with
  | incoming face raw drawn =>
    obtain rfl := Option.some.inj hs
    rw [handleIncoming]
    simp only [Label.arriving] at hl
    cases hp : parsePacket raw with
    | error e => exact h
    | ok p =>
      rw [hp] at hl
      cases p with
      | interest i =>
        simp only [handlePacket]
        split
        · exact (hI.keeps_send face _).after h
        · exact (keeps_handleInterest i face _).after h
      | data d =>
        refine Triple.after (P := Relaying P) (Triple.bind Keeps.get fun u => ?_) h
        split
        · exact (keeps_receiveData (hl d rfl) face true).bind fun _ => hI.keeps_propagate d _
        · exact keeps_receiveData (hl d rfl) face false
      | subscribe sub => exact (hI.keeps_handleSubscribe sub face).after h
      | peer p => exact (hI.keeps_handlePeerHandshake p face _ _).after h
      | invalidate v => exact (hI.keeps_handleInvalidate v face).after h
      | capPeer c => exact h.of_subset rfl rfl fun _ _ _ hm => hm
      | nack n => exact h.forwarder (l := .receiveNack n.name face) (by simp) rfl
  | resource payload =>
    obtain rfl := Option.some.inj hs
    rw [handleResource]
    cases resourceData payload with
    | none => exact h
    | some d => exact (hI.sheltered.keeps_csInsert d.name d).after h
  | forwarded c =>
    obtain ⟨⟨face, i⟩, -, hs⟩ := Option.bind_eq_some_iff.mp hs
    obtain ⟨call, -, hs⟩ := Option.bind_eq_some_iff.mp hs
    have hresumed : Keeps (Relaying P) (resumed (.forwarding c face i)) :=
      Keeps.modify fun s hs => hs.of_subset rfl rfl fun _ _ _ hm => List.mem_of_mem_erase hm
    have hanswer (phase : Phase) : Keeps (Relaying P) (answerForwarded c face i phase) := by
      refine hresumed.bind fun _ => ?_
      split
      · exact hI.keeps_send face _
      · exact Keeps.throw _
      · exact hI.keeps_maybeSendNack i face
    split at hs
    · exact Option.some.inj hs ▸ (hanswer _).after h
    · exact Option.some.inj hs ▸ (hanswer _).after h
    · cases hs
  | manifest face text =>
    rw [Server.step] at hs
    split at hs
    · refine Option.some.inj hs ▸ (Keeps.bind (Keeps.modify fun s hs => ?_) fun _ => ?_).after h
      · exact hs.of_subset rfl rfl fun _ _ _ hm => List.mem_of_mem_erase hm
      · exact (hI.keeps_buildManifestData text).bind fun d =>
          (hI.sheltered.keeps_csInsert d.name d).bind fun _ => hI.keeps_send face _
    · cases hs
  | synced face streams =>
    rw [Server.step] at hs
    split at hs
    · exact Option.some.inj hs ▸ (hI.keeps_finishSync face streams).after h
    · cases hs
  | publishContent n content encrypted sequence latestUnder =>
    exact Option.some.inj hs ▸ (hI.sheltered.keeps_publishContent _ _ _ _ _).after h
  | publishPost n content encrypted sequence latestUnder =>
    rw [step_publication (l := .publishPost n content encrypted sequence latestUnder) rfl] at hs
    exact Option.some.inj hs ▸
      (hI.keeps_push (l := .publishPost n content encrypted sequence latestUnder) rfl).after h
  | publishPushed d =>
    rw [step_publication (l := .publishPushed d) rfl] at hs
    exact Option.some.inj hs ▸ (hI.keeps_push (l := .publishPushed d) rfl).after h
  | publishManifest text => exact Option.some.inj hs ▸ (hI.keeps_publishManifest text).after h
  | invalidate n byPrefix => exact Option.some.inj hs ▸ (hI.keeps_invalidate n byPrefix).after h
  | forwarder l =>
    rw [Server.step] at hs
    split at hs
    · rename_i hin
      obtain ⟨fw, hfw, rfl⟩ := Option.map_eq_some_iff.mp hs
      refine h.forwarder (fun d inFace unsolicited he => ?_) hfw
      rw [he] at hin
      cases hin
    · cases hs
  | openFace => exact Option.some.inj hs ▸ h.of_subset rfl rfl fun _ _ _ hm => hm
  | closeFace face => exact Option.some.inj hs ▸ h.of_subset rfl rfl fun _ _ _ hm => hm

end Relaying

omit [Hashlib] in
theorem Initial.relaying (h : s.Initial) : Relaying P s where
  consistent := h.forwarder.consistent
  waits c face i hm := by
    rw [h.suspended] at hm
    cases hm

end Server

end RnsIcn
