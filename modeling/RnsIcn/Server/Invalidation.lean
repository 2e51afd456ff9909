import Mathlib.Data.Fintype.Card
import RnsIcn.Server.Links
import RnsIcn.Server.Signing
import RnsIcn.Store.Purge

/-! # Invalidations

An invalidation that the verifier accepts and whose epoch is above the highest
seen for its name purges the store and goes to all other links. All others are
dropped, so a server relays each epoch of a name at most once.
-/

namespace RnsIcn

open Effect Fallible

namespace Server

variable {s t : Server} {face : FaceId} {v : Invalidate} {raw : Bytes}

/-- The faces are distinct and the next one is none of them. -/
structure DistinctFaces (s : Server) : Prop where
  nodup : s.faces.Nodup
  lt : ∀ face ∈ s.faces, face < s.nextFaceId

variable [Hashlib]

def isFresh (s : Server) (v : Invalidate) : Bool :=
  match ContentStore.nameHash v.name with
  | .error _ => false
  | .ok key => !(s.seenInvalidations.get? key).any (v.epoch ≤ ·)

/-- The invalidation that an event has the server apply and pass on, with the face it came from. -/
def relayed (s : Server) : Label → Option (FaceId × Invalidate)
  | .incoming face raw _ =>
    match parsePacket raw with
    | .ok (.invalidate v) =>
      if s.invalidationVerifier.any (· v) && s.isFresh v then some (face, v) else none
    | _ => none
  | _ => none

/-- What a server remembers of an invalidation that it relayed or originated. -/
def Remembers (v : Invalidate) (s : Server) : Prop :=
  ∃ key, ContentStore.nameHash v.name = .ok key ∧
    ∃ e ∈ s.seenInvalidations.get? key, v.epoch ≤ e

theorem isFresh_iff : s.isFresh v = true ↔ ∃ key, ContentStore.nameHash v.name = .ok key ∧
    ∀ e ∈ s.seenInvalidations.get? key, e < v.epoch := by
  rw [isFresh]
  cases ContentStore.nameHash v.name with
  | error e => simp
  | ok key => cases he : s.seenInvalidations.get? key <;> simp [he]

theorem exec_invalidationIsFresh (v : Invalidate) :
    exec (invalidationIsFresh v) s =
      match ContentStore.nameHash v.name with
      | .error e => (.error e, s)
      | .ok key =>
        if s.isFresh v then
          (.ok true, { s with seenInvalidations := s.seenInvalidations.set key v.epoch })
        else (.ok false, s) := by
  rw [invalidationIsFresh, isFresh]
  cases hk : ContentStore.nameHash v.name with
  | error e => simp [exec_bind]
  | ok key =>
    by_cases hf : (s.seenInvalidations.get? key).any (v.epoch ≤ ·) = true
    · simp [exec_bind, hf]
    · simp only [exec_bind, exec_get, exec_ofExcept, hf]
      rfl

theorem exec_applyInvalidate (v : Invalidate) (exclude : Option FaceId)
    (hk : ∃ key, ContentStore.nameHash v.name = .ok key) :
    exec (applyInvalidate v exclude) s =
      let purged := s.withStore (s.forwarder.cs.apply (.invalidate v.name v.isPrefix))
      match v.toBytes with
      | .error e => (.error e, purged)
      | .ok _ => (.ok (),
          purged.sendAll (.invalidate v) (s.faces.filter fun face => some face != exclude)) := by
  obtain ⟨key, hk⟩ := hk
  have hok : discard (s.forwarder.cs.invalidate v.name v.isPrefix) = .ok () := by
    simp [ContentStore.invalidate, hk, bind, Except.bind, pure, Except.pure, discard,
      Functor.discard, Functor.mapConst, Except.map]
  cases hb : v.toBytes with
  | error e =>
    simp [applyInvalidate, csInvalidate, onStore, exec_bind, hok, hb, withStore]
  | ok raw =>
    simp only [applyInvalidate, csInvalidate, onStore, exec_bind, exec_get, exec_modify,
      exec_ofExcept, hok, hb]
    exact exec_forM_send (p := .invalidate v) hb

theorem exec_handleInvalidate (v : Invalidate) (face : FaceId) :
    exec (handleInvalidate v face) s =
      if s.invalidationVerifier.any (· v) then
        match exec (invalidationIsFresh v) s with
        | (.ok true, t) => exec (applyInvalidate v (some face)) t
        | (.ok false, t) => (.ok (), t)
        | (.error e, t) => (.error e, t)
      else (.ok (), s) := by
  rw [handleInvalidate, exec_bind]
  by_cases hv : s.invalidationVerifier.any (· v) = true
  · simp only [exec_get, hv, if_true, exec_bind]
    rcases exec (invalidationIsFresh v) s with ⟨_ | _ | _, t⟩ <;> rfl
  · simp only [exec_get, hv, Bool.false_eq_true, if_false, exec_pure]

/-- What relaying does: the epoch is recorded, the store is purged and the packet goes to other
faces. -/
structure Relays (face : FaceId) (v : Invalidate) (s t : Server) : Prop where
  verified : s.invalidationVerifier.any (· v) = true
  fresh : s.isFresh v = true
  seen : ∃ key, ContentStore.nameHash v.name = .ok key ∧
    t.seenInvalidations.get? key = some v.epoch
  cs : t.forwarder.cs = s.forwarder.cs.apply (.invalidate v.name v.isPrefix)
  sent : ∃ faces : List FaceId, t.sent = faces.map (·, .invalidate v) ++ s.sent ∧
    (∀ other ∈ faces, other ∈ s.faces ∧ other ≠ face) ∧ (s.faces.Nodup → faces.Nodup)

theorem Relays.remembers (h : Relays face v s t) : Remembers v t := by
  obtain ⟨key, hk, hs⟩ := h.seen
  exact ⟨key, hk, v.epoch, hs, le_rfl⟩

theorem step_relayed {l : Label} (h : s.relayed l = some (face, v)) (hs : s.step l = some t) :
    Relays face v s t := by
  cases l with
  | incoming inFace raw drawn =>
    simp only [relayed] at h
    split at h
    · rename_i v' hp
      split at h
      · rename_i hok
        obtain ⟨rfl, rfl⟩ := Prod.mk.inj (Option.some.inj h)
        rw [Bool.and_eq_true] at hok
        obtain ⟨hv, hf⟩ := hok
        obtain ⟨key, hk, -⟩ := isFresh_iff.mp hf
        obtain rfl := Option.some.inj hs
        have hexec : exec (handleIncoming inFace raw drawn) s =
            exec (applyInvalidate v' (some inFace))
              { s with seenInvalidations := s.seenInvalidations.set key v'.epoch } := by
          rw [handleIncoming, hp]
          refine (exec_handleInvalidate v' inFace).trans ?_
          rw [if_pos hv, exec_invalidationIsFresh, hk]
          simp only [hf, if_true]
        rw [after, hexec, exec_applyInvalidate _ _ ⟨key, hk⟩]
        have hseen : (s.seenInvalidations.set key v'.epoch).get? key = some v'.epoch := by simp
        cases v'.toBytes with
        | error e =>
          exact ⟨hv, hf, ⟨key, hk, hseen⟩, rfl, [], rfl, List.forall_mem_nil _, fun _ => .nil⟩
        | ok raw =>
          refine ⟨hv, hf, ⟨key, hk, hseen⟩, rfl, _, sendAll_sent .., ?_, ?_⟩
          · intro other ho
            have hm : other ∈ s.faces.filter fun f => some f != some inFace :=
              List.mem_of_mem_filter (List.mem_reverse.mp ho)
            obtain ⟨hm, hne⟩ := List.mem_filter.mp hm
            exact ⟨hm, fun he => by simp [he] at hne⟩
          · intro hn
            exact List.nodup_reverse.mpr ((hn.filter _).filter _)
      · cases h
    · cases h
  | _ => cases h

theorem step_dropped (drawn : Drawn) (hp : parsePacket raw = .ok (.invalidate v))
    (h : s.relayed (.incoming face raw drawn) = none) :
    after (handleIncoming face raw drawn) s = s := by
  rw [after, handleIncoming, hp]
  have hno : s.invalidationVerifier.any (· v) = true → s.isFresh v = false := by
    intro hv
    simpa [relayed, hp, hv] using h
  refine (congrArg Prod.snd (exec_handleInvalidate v face)).trans ?_
  split
  · rename_i hv
    rw [exec_invalidationIsFresh]
    cases hk : ContentStore.nameHash v.name with
    | error e => rfl
    | ok key => simp only [hno hv, Bool.false_eq_true, if_false]
  · rfl

theorem remembers_stable (v : Invalidate) : Stable (Remembers v) where
  frame s t hst h := by
    have hs : t.seenInvalidations = s.seenInvalidations :=
      congrArg (fun u => u.seenInvalidations) hst
    simpa only [Remembers, hs] using h
  delete _ _ _ h := h
  create _ _ _ h := h
  insert _ _ _ _ _ h := h
  sign _ _ _ _ _ _ _ _ h := h
  openFace _ h := h
  closeFace _ _ h := h

theorem Remembers.allows {w : Invalidate} (h : Remembers w s) : Allows (Remembers w) s v := by
  intro key hkey hlt
  obtain ⟨k, hk, e, he, hle⟩ := h
  refine ⟨k, hk, ?_⟩
  by_cases hks : k = key
  · subst hks
    exact ⟨v.epoch, Dict.get?_set_self .., hle.trans (hlt e he).le⟩
  · exact ⟨e, by rwa [Dict.get?_set_ne _ _ hks], hle⟩

theorem distinctFaces_stable : Stable DistinctFaces where
  frame s t hst h := by
    have hf : t.faces = s.faces := congrArg (fun u => u.faces) hst
    have hn : t.nextFaceId = s.nextFaceId := congrArg (fun u => u.nextFaceId) hst
    exact ⟨hf ▸ h.nodup, by rw [hf, hn]; exact h.lt⟩
  delete _ _ _ h := ⟨h.nodup, h.lt⟩
  create _ _ _ h := ⟨h.nodup, h.lt⟩
  insert _ _ _ _ _ h := ⟨h.nodup, h.lt⟩
  sign _ _ _ _ _ _ _ _ h := ⟨h.nodup, h.lt⟩
  openFace s h := by
    refine ⟨List.nodup_cons.mpr ⟨fun hm => (h.lt _ hm).false, h.nodup⟩, fun face hm => ?_⟩
    rcases List.mem_cons.mp hm with rfl | hm
    · exact Nat.lt_succ_self _
    · exact (h.lt face hm).trans (Nat.lt_succ_self _)
  closeFace s face h := ⟨h.nodup.filter _, fun f hm => h.lt f (List.mem_of_mem_filter hm)⟩

theorem stable_of_store {J : ContentStore → Prop} (hJ : ∀ cs op, J cs → J (cs.apply op)) :
    Stable fun s => J s.forwarder.cs where
  frame s t hst h := by
    have hcs : t.forwarder.cs = s.forwarder.cs := congrArg (fun u => u.forwarder.cs) hst
    rwa [hcs]
  delete _ op _ h := hJ _ op h
  create _ _ _ h := h
  insert s n d now _ h := hJ _ (.insert n d now) h
  sign _ _ _ _ _ _ _ _ h := h
  openFace _ h := h
  closeFace _ _ h := h

theorem indexed_stable : Stable fun s => s.forwarder.cs.Indexed :=
  stable_of_store fun _ op h => ContentStore.Indexed.apply h op

theorem verifier_stable (verifier : Option (Invalidate → Bool)) :
    Stable fun s => s.invalidationVerifier = verifier where
  frame _ _ hst h := (congrArg (fun u => u.invalidationVerifier) hst).trans h
  delete _ _ _ h := h
  create _ _ _ h := h
  insert _ _ _ _ _ h := h
  sign _ _ _ _ _ _ _ _ h := h
  openFace _ h := h
  closeFace _ _ h := h

section Network

variable {ι : Type} [DecidableEq ι] {N M : ι → Server} {ls : List (ι × Label)}

structure Relay (ι : Type) where
  server : ι
  face : FaceId
  packet : Invalidate
  pre : Server
  post : Server

def relayOf (e : (ι → Server) × (ι × Label) × (ι → Server)) : Option (Relay ι) :=
  ((e.1 e.2.1.1).relayed e.2.1.2).map fun (face, v) =>
    ⟨e.2.1.1, face, v, e.1 e.2.1.1, e.2.2 e.2.1.1⟩

/-- The relayed invalidations of a network, in the order in which they were relayed. -/
def relays (N : ι → Server) (ls : List (ι × Label)) : List (Relay ι) :=
  Transition.observed (Transition.family step) relayOf N ls

/-- A network keeps a stable property of its servers that allows any Data to be stored and any
epoch to be recorded. -/
theorem Stable.family {I : Server → Prop} (hI : Stable I)
    (hins : ∀ s n d now, I s → I (s.withStore (s.forwarder.cs.apply (.insert n d now))))
    (hseen : ∀ s v, I s → Allows I s v)
    {e : ι × Label} (hs : Transition.family Server.step N e = some M) {i : ι} (h : I (N i)) :
    I (M i) := by
  obtain ⟨hst, hne⟩ := Transition.family_eq_some hs
  by_cases hi : i = e.1
  · subst hi
    exact hI.step h (fun d _ => hins _ _ d _ h) (fun v _ => hseen _ v h) hst
  · rwa [hne i hi]

theorem relayOf_eq_some {e : ι × Label} {r : Relay ι} (hs : Transition.family step N e = some M)
    (h : relayOf (N, e, M) = some r) :
    r.pre = N r.server ∧ r.post = M r.server ∧ Relays r.face r.packet r.pre r.post := by
  obtain ⟨⟨face, v⟩, hr, rfl⟩ := Option.map_eq_some_iff.mp h
  exact ⟨rfl, rfl, step_relayed hr (Transition.family_eq_some hs).1⟩

/-- Relaying deletes no row but those of the invalidated name, or under it if it is a prefix. -/
def Relay.PurgesOnly (A : Name → Prop) (r : Relay ι) : Prop :=
  ContentStore.Sub r.post.forwarder.cs r.pre.forwarder.cs ∧
    ∀ key row m, r.pre.forwarder.cs.content.get? key = some row → row.nameBytes = m.encode →
      m.Encodable → m.contentHash = none → A m → A r.packet.name →
      r.post.forwarder.cs.content.get? key = none →
      m = r.packet.name ∨ r.packet.isPrefix = true ∧ m.startsWith r.packet.name = true

/-- Relaying sends the packet to each other face at most once, and nothing else. -/
def Relay.SendsOnce (r : Relay ι) : Prop :=
  ∃ faces : List FaceId, faces.Nodup ∧ (∀ other ∈ faces, other ∈ r.pre.faces ∧ other ≠ r.face) ∧
    r.post.sent = faces.map (·, .invalidate r.packet) ++ r.pre.sent

/-- What holds of the invalidations that a network relays from its start on. -/
structure FloodBounded [Fintype ι] (A : Name → Prop) (N : ι → Server) (ls : List (ι × Label)) :
    Prop where
  increasing : (relays N ls).Pairwise fun r r' => r.server = r'.server →
    r.packet.name = r'.packet.name → r.packet.epoch < r'.packet.epoch
  bounded : ∀ n epoch, ((relays N ls).filter fun r =>
    r.packet.name = n ∧ r.packet.epoch = epoch).length ≤ Fintype.card ι
  verified : ∀ r ∈ relays N ls, (N r.server).invalidationVerifier.any (· r.packet) = true
  purges : ∀ r ∈ relays N ls, r.PurgesOnly A
  sends : ∀ r ∈ relays N ls, r.SendsOnce
  dropped : ∀ e ∈ Transition.trace (Transition.family step) N ls, ∀ face raw drawn v,
    e.2.1.2 = .incoming face raw drawn → parsePacket raw = .ok (.invalidate v) →
    relayOf e = none → e.2.2 = e.1

structure Tracked (N M : ι → Server) : Prop where
  distinct : ∀ i, (M i).DistinctFaces
  indexed : ∀ i, (M i).forwarder.cs.Indexed
  verifier : ∀ i, (M i).invalidationVerifier = (N i).invalidationVerifier

theorem Tracked.step {M' : ι → Server} {e : ι × Label} (h : Tracked N M)
    (hs : Transition.family step M e = some M') : Tracked N M' where
  distinct i := distinctFaces_stable.family (fun _ _ _ _ h => ⟨h.nodup, h.lt⟩)
    (fun _ _ h _ _ _ => ⟨h.nodup, h.lt⟩) hs (h.distinct i)
  indexed i := indexed_stable.family (fun _ n d now h => h.apply (.insert n d now))
    (fun _ _ h _ _ _ => h) hs (h.indexed i)
  verifier i := (verifier_stable _).family (fun _ _ _ _ h => h) (fun _ _ h _ _ _ => h) hs
    (h.verifier i)

/-- Whatever invalidations are delivered in whatever order to the servers of a network, each server
relays increasing epochs of a name that its verifier accepted, and each of them once. -/
theorem flood_bounded [Fintype ι] {A : Name → Prop} (hA : Distinguished A)
    (hN : ∀ i, (N i).Initial ∧ (N i).DistinctFaces)
    (h : Transition.Run (Transition.family step) Transition.anyStep N ls M) :
    FloodBounded A N ls := by
  have hinv := h.with_invariant (I := Tracked N)
    ⟨fun i => (hN i).2, fun i => .empty (hN i).1.content, fun _ => rfl⟩
    fun _ _ _ hM _ hs => hM.step hs
  have hinc : (relays N ls).Pairwise fun r r' => r.server = r'.server →
      r.packet.name = r'.packet.name → r.packet.epoch < r'.packet.epoch := by
    refine h.observed_pairwise (fun r M => Remembers r.packet (M r.server)) ?_ ?_ ?_
    · intro M e M' r _ hs hr
      obtain ⟨-, hpost, hrel⟩ := relayOf_eq_some hs hr
      exact hpost ▸ hrel.remembers
    · intro M e M' r _ hs hr
      exact (remembers_stable r.packet).family (fun _ _ _ _ h => h) (fun _ _ h => h.allows) hs hr
    · intro M e M' r r' _ hs hr hr' hserver hname
      obtain ⟨hpre, -, hrel⟩ := relayOf_eq_some hs hr'
      obtain ⟨key, hk, epoch, he, hle⟩ := hr
      obtain ⟨key', hk', hlt⟩ := isFresh_iff.mp hrel.fresh
      obtain rfl : key = key' := ok_inj hk (hname ▸ hk')
      exact hle.trans_lt (hlt epoch (by rwa [hpre, ← hserver]))
  have hstep (r : Relay ι) (hr : r ∈ relays N ls) : (∃ M, Tracked N M ∧ r.pre = M r.server) ∧
      Relays r.face r.packet r.pre r.post := by
    obtain ⟨M, e, M', hok, hs, hr⟩ := hinv.of_mem_observed hr
    obtain ⟨hpre, -, hrel⟩ := relayOf_eq_some hs hr
    exact ⟨⟨M, hok.1, hpre⟩, hrel⟩
  refine ⟨hinc, fun n epoch => ?_, fun r hr => ?_, fun r hr => ?_, fun r hr => ?_, ?_⟩
  · have hservers : (((relays N ls).filter fun r =>
        r.packet.name = n ∧ r.packet.epoch = epoch).map Relay.server).Nodup := by
      rw [List.Nodup, List.pairwise_map]
      refine (hinc.filter _).imp_of_mem fun {r r'} hr hr' hlt hserver => ?_
      obtain ⟨hn, he⟩ := of_decide_eq_true (List.mem_filter.mp hr).2
      obtain ⟨hn', he'⟩ := of_decide_eq_true (List.mem_filter.mp hr').2
      exact absurd (hlt hserver (hn.trans hn'.symm)) (by rw [he, he']; exact lt_irrefl _)
    simpa using hservers.length_le_card
  · obtain ⟨⟨M, hM, hpre⟩, hrel⟩ := hstep r hr
    have hv := hrel.verified
    rwa [hpre, hM.verifier] at hv
  · obtain ⟨⟨M, hM, hpre⟩, hrel⟩ := hstep r hr
    refine ⟨hrel.cs ▸ apply_sub _ rfl, fun key row m hrow hb he hc hm hn hgone => ?_⟩
    rw [hrel.cs] at hgone
    exact (hpre ▸ hM.indexed r.server).invalidated hA hrow hb he hc hn hm hgone
  · obtain ⟨⟨M, hM, hpre⟩, hrel⟩ := hstep r hr
    obtain ⟨faces, hsent, hother, hnodup⟩ := hrel.sent
    exact ⟨faces, hnodup (hpre ▸ (hM.distinct r.server).nodup), hother, hsent⟩
  · rintro ⟨M, ⟨i, l⟩, M'⟩ he face raw drawn v rfl hp hno
    obtain ⟨hs, hne⟩ := Transition.family_eq_some (h.of_mem_trace he).2
    have hdrop := step_dropped drawn hp (Option.map_eq_none_iff.mp hno)
    refine funext fun j => ?_
    by_cases hj : j = i
    · subst hj
      exact (Option.some.inj hs).symm.trans hdrop
    · exact hne j hj

end Network

end Server

namespace Server

def verifying : Server :=
  { publisher with invalidationVerifier := some fun v => v.signature.isSome }

theorem verifying_initial : verifying.Initial :=
  ⟨⟨rfl, fun _ => rfl, rfl, rfl⟩, rfl, rfl, rfl, rfl, rfl, rfl⟩

def purge (epoch : ℕ) : Bytes :=
  wireBytes (.invalidate { name := postName, epoch, signature := some (List.replicate 64 7) })

/-- The first server gets an invalidation on both of its links, the second one gets it once. -/
def flooded : List (Bool × Label) :=
  [(false, .openFace), (false, .openFace), (true, .openFace),
    (false, .incoming 100 (purge 5) drawn), (true, .incoming 100 (purge 5) drawn),
    (false, .incoming 101 (purge 5) drawn)]

theorem replay_dropped :
    letI := Data.paddedHash
    (relays (fun _ => verifying) flooded).length = 2 ∧
      FloodBounded (fun n => ∃ i, n = postName.ancestor i) (fun _ => verifying) flooded :=
  letI := Data.paddedHash
  have hrun : Transition.Run (Transition.family step) Transition.anyStep (fun _ => verifying)
      flooded ((Transition.exec (Transition.family step) (fun _ => verifying) flooded).getD
        fun _ => verifying) := Transition.run_of_exec rfl
  ⟨rfl, flood_bounded (distinguished_ancestors rfl (by decide))
    (fun _ => ⟨verifying_initial, .nil, nofun⟩) hrun⟩

end Server

end RnsIcn
