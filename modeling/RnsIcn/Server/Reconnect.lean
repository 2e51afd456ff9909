import RnsIcn.Server.Lifecycle

/-! # How a route comes back

The registry of discovered peers has for each of them the face that it is reached by. That face
has the closed callback of its link, also where several faces were opened on the link. So once
the link has closed, the face is or will be cleaned up and cleared from the registry, and the
next announce of a configured peer brings its route back.
-/

namespace RnsIcn

open Effect Transition

theorem Fib.mem_nextHops_insert (t : Fib) (n : Name) (face : FaceId) (cost : ℕ) :
    face ∈ (t.insert n face cost).nextHops n := by
  have hset (l : List (FaceId × ℕ)) : (face, cost) ∈ FibEntry.setCost face cost l := by
    induction l with
    | nil => exact List.mem_cons_self
    | cons e l ih =>
      rw [FibEntry.setCost]
      split
      · exact List.mem_cons_self
      · exact List.mem_cons_of_mem _ ih
  have hentry : ∃ e ∈ (t.insert n face cost).entries,
      e.namePrefix = n ∧ (face, cost) ∈ e.faces := by
    unfold insert
    rcases insertEntries_cases n face cost t.entries with ⟨l, e, r, -, he, -, hi⟩ | ⟨-, hi⟩
    · refine ⟨e.insert face cost, by rw [hi]; simp, he, ?_⟩
      exact (List.mem_insertionSort _).mpr (hset e.faces)
    · exact ⟨⟨n, [(face, cost)]⟩, by rw [hi]; simp, rfl, List.mem_singleton.mpr rfl⟩
  obtain ⟨e, he, hn, hface⟩ := hentry
  exact List.mem_flatMap.mpr ⟨e, List.mem_filter.mpr ⟨he, decide_eq_true hn⟩,
    List.mem_map.mpr ⟨_, hface, rfl⟩⟩

theorem Dict.get?_mapValues {κ ν : Type*} [DecidableEq κ] (f : ν → ν) (d : Dict κ ν) (k : κ) :
    (d.mapValues f).get? k = (d.get? k).map f := by
  simp only [Dict.get?, Dict.mapValues, List.find?_map, Option.map_map]
  rfl

namespace Router

variable {s t u : Router} {l : Label} {face : FaceId} {link : LinkId} {d : Dial} {cost : ℕ}
  {peer : Bytes}

/-- The face of a peer in the registry has the closed callback of its link. Only calls for the peer
use the link, and once it has closed, the face is to be cleaned up. -/
structure Monitored (s : Router) (peer : Bytes) (face : FaceId) (link : LinkId) : Prop where
  backs : s.Backs link face
  onClosed : s.onClosed.get? link = some face
  pooled : ∀ other, s.pool.get? other = some link → other = peer
  closed : link ∈ s.closedLinks → .cleanupClosedFace face ∈ s.scheduled

/-- Every face in the registry is monitored, and the pool has a link for one peer only. -/
structure Attended (s : Router) : Prop where
  linked : s.Linked
  distinct : ∀ peer other link, s.pool.get? peer = some link → s.pool.get? other = some link →
    other = peer
  monitored : ∀ peer face, s.peers.get? peer = some (some face) → ∃ link, s.Monitored peer face link

theorem Initial.attended (h : s.Initial) (hp : s.peers = .empty) : s.Attended where
  linked := h.linked
  distinct peer other link hl := by
    rw [h.pool] at hl
    cases hl
  monitored peer face hf := by
    rw [hp] at hf
    cases hf

theorem Attended.frame (h : s.Attended) (hw : t.Within s)
    (hp : ∀ peer face, t.peers.get? peer = some (some face) →
      s.peers.get? peer = some (some face)) : t.Attended where
  linked := h.linked.within hw
  distinct peer other link hl hl' := h.distinct peer other link (hw.pool _ _ hl) (hw.pool _ _ hl')
  monitored peer face hf := by
    obtain ⟨link, hback, hclosed, hpooled, hclean⟩ := h.monitored peer face (hp peer face hf)
    obtain ⟨hr, hpool, hsched⟩ := hw
    simp only [Router.routing, Prod.mk.injEq] at hr
    obtain ⟨-, -, hbacking, honClosed, -, hlinks⟩ := hr
    refine ⟨link, by rwa [Backs, hbacking], by rwa [honClosed],
      fun other hl => hpooled other (hpool other link hl), fun hc => ?_⟩
    rw [hlinks] at hc
    exact (hsched face).mpr (hclean hc)

theorem linked_peers (s : Router) (d : Dial) (link : LinkId) (cost : ℕ) (peer : Bytes) :
    (s.linked d link cost).peers.get? peer =
      if peer = d.peer ∧ (s.peers.get? peer).isSome then some (some s.server.nextFaceId)
      else s.peers.get? peer := by
  have hupdate : (s.linked d link cost).peers =
      ((s.makeLinkFace link).updatePeerFace d.peer s.server.nextFaceId).peers := by
    rw [linked]
    cases d.namePrefix <;> rfl
  have hpeers : (s.makeLinkFace link).peers = s.peers := rfl
  rw [hupdate, updatePeerFace, hpeers]
  by_cases hc : s.peers.contains d.peer = true
  · rw [if_pos hc, Dict.get?_set]
    obtain ⟨v, hv⟩ := Dict.contains_iff.mp hc
    by_cases hp : peer = d.peer
    · rw [if_pos hp, if_pos ⟨hp, by rw [hp, hv]; rfl⟩]
    · rw [if_neg hp, if_neg fun h => hp h.1]
  · rw [if_neg hc, if_neg]
    · rfl
    · rintro ⟨rfl, hsome⟩
      exact hc (Dict.contains_iff.mpr (Option.isSome_iff_exists.mp hsome))

/-- The face that is opened for a peer is monitored if the peer is in the registry. -/
theorem Attended.opened (h : u.Attended) (hr : u.Ready link s) (hpeers : s.peers = u.peers)
    (hpool : ∀ other, s.pool.get? other = some link → other = d.peer)
    (hother : ∀ peer face, u.Monitored peer face link → peer = d.peer) (cost : ℕ) :
    (s.linked d link cost).Attended := by
  have ho := linked_opened s d link cost
  have hlinked := h.linked.opened hr ho
  obtain ⟨-, -, hup, hpooled, hr⟩ := hr
  simp only [Prod.mk.injEq] at hr
  obtain ⟨hserver, hbacking, honClosed, -, hlinks, hsched⟩ := hr
  have hold {other : Bytes} {link' : LinkId} (hne : link' ≠ link)
      (hl : s.pool.get? other = some link') : u.pool.get? other = some link' :=
    (hpooled other link' hl).resolve_left hne
  refine ⟨hlinked, fun peer other link' hl hl' => ?_, fun peer face hf => ?_⟩
  · rw [ho.pool] at hl hl'
    by_cases he : link' = link
    · subst he
      rw [hpool other hl', hpool peer hl]
    · exact h.distinct peer other link' (hold he hl) (hold he hl')
  · rw [linked_peers, hpeers] at hf
    split at hf
    · rename_i hpeer
      obtain rfl := Option.some.inj (Option.some.inj hf)
      refine ⟨link, ho.backs_iff.mpr (by rw [if_pos rfl]), ?_, fun other hl => ?_, fun hc => ?_⟩
      · rw [ho.onClosed, Dict.get?_set_self]
      · rw [ho.pool] at hl
        rw [hpool other hl, hpeer.1]
      · rw [ho.closedLinks, hlinks] at hc
        exact absurd hc hup
    · rename_i hpeer
      obtain ⟨link', hm⟩ := h.monitored peer face hf
      have hne : link' ≠ link := by
        rintro rfl
        exact hpeer ⟨hother peer face hm, by rw [hf]; rfl⟩
      have hface : face ≠ s.server.nextFaceId := by
        rw [hserver]
        exact (h.linked.backs_lt _ _ hm.backs).1.ne
      refine ⟨link', ho.backs_iff.mpr ?_, ?_, fun other hl => ?_, fun hc => ?_⟩
      · rw [if_neg hface, Backs, hbacking]
        exact hm.backs
      · rw [ho.onClosed, Dict.get?_set_ne _ _ hne, honClosed]
        exact hm.onClosed
      · rw [ho.pool] at hl
        exact hm.pooled other (hold hne hl)
      · rw [ho.closedLinks, hlinks] at hc
        rw [ho.scheduled, hsched]
        exact hm.closed hc

theorem Attended.connect (h : s.Attended) (d : Dial) (cost : ℕ) : (s.connect d cost).Attended := by
  rw [Router.connect]
  cases hl : s.liveLink d.peer with
  | none => exact h.frame (within_pool s d.peer _) fun _ _ hf => hf
  | some link =>
    have hpool := (liveLink_eq_some hl).1
    exact h.opened (h.linked.ready hl) rfl (fun other ho => h.distinct _ other link hpool ho)
      (fun _ _ hm => (hm.pooled _ hpool).symm) cost

theorem Attended.closeLink (h : s.Attended) (hlt : link < s.nextLink) (hup : link ∉ s.closedLinks) :
    (s.closeLink link).Attended := by
  refine ⟨h.linked.closeLink hlt hup, ?_, ?_⟩
  all_goals rw [h.linked.closeLink_eq hup]
  · exact h.distinct
  · intro peer face hf
    obtain ⟨link', hm⟩ := h.monitored peer face hf
    refine ⟨link', hm.backs, hm.onClosed, hm.pooled, fun hc => List.mem_append.mpr ?_⟩
    rcases List.mem_cons.mp hc with rfl | hc
    · exact .inl (List.mem_map.mpr ⟨face, Option.mem_toList.mpr hm.onClosed, rfl⟩)
    · exact .inr (hm.closed hc)

theorem Attended.cleanup (h : s.Attended) (hf : .cleanupClosedFace face ∈ s.scheduled) :
    ({ s with scheduled := s.scheduled.erase (.cleanupClosedFace face) }.cleanupClosedFace
      face).Attended := by
  refine ⟨h.linked.cleanup hf, h.distinct, fun peer face' hf' => ?_⟩
  have hpeer : (s.peers.get? peer).map (fun f => if f = some face then none else f) =
      some (some face') := (Dict.get?_mapValues _ _ _).symm.trans hf'
  obtain ⟨f, hf, hif⟩ := Option.map_eq_some_iff.mp hpeer
  split at hif
  · cases hif
  · rename_i hne
    subst hif
    obtain ⟨link, hm⟩ := h.monitored peer face' hf
    refine ⟨link, hm.backs, hm.onClosed, hm.pooled, fun hc => ?_⟩
    refine (List.mem_erase_of_ne fun he => ?_).mpr (hm.closed hc)
    exact hne (congrArg some (Task.cleanupClosedFace.inj he))

theorem rediscovered_peers (s : Router) (peer : Bytes) :
    (s.onRediscovered peer).peers = s.peers := by
  rw [onRediscovered]
  split
  · split <;> rfl
  · rfl

theorem Attended.step (h : s.Attended) (hs : step s l = some t) : t.Attended := by
  cases l with
  | connect peer => exact Option.some.inj hs ▸ h.connect _ _
  | installPeerRoute k cost => exact Option.some.inj hs ▸ h.connect _ _
  | wireRouteReinstall =>
    exact Option.some.inj hs ▸ h.frame ⟨rfl, fun _ _ h => h, fun _ => Iff.rfl⟩ fun _ _ hf => hf
  | dialled d up cost =>
    rw [Router.step] at hs
    split at hs
    · obtain rfl := Option.some.inj hs
      cases up with
      | false => exact h.frame ⟨rfl, fun _ _ h => h, fun _ => Iff.rfl⟩ fun _ _ hf => hf
      | true =>
        refine h.opened (u := s) (s := { s with
            dialling := s.dialling.erase d
            nextLink := s.nextLink + 1
            pool := s.pool.set d.peer s.nextLink })
          (h.linked.ready_new rfl rfl fun peer link hp => ?_) rfl (fun other hl => ?_)
          (fun _ _ hm => absurd (h.linked.backs_lt _ _ hm.backs).2 (lt_irrefl _)) cost
        · rw [Dict.get?_set] at hp
          split at hp
          · exact .inl (Option.some.inj hp).symm
          · exact .inr hp
        · rw [Dict.get?_set] at hl
          split at hl
          · assumption
          · obtain ⟨face, hface⟩ := h.linked.pooled other _ hl
            have hlt := (h.linked.backs_lt _ _ (h.linked.onClosed _ face hface).1).2
            exact absurd hlt (lt_irrefl _)
    · cases hs
  | incomingLink peer =>
    obtain rfl := Option.some.inj hs
    refine h.opened (u := s) (s := { s with nextLink := s.nextLink + 1 })
      (h.linked.ready_new rfl rfl fun _ _ hp => .inr hp) rfl (fun other hl => ?_)
      (fun _ _ hm => absurd (h.linked.backs_lt _ _ hm.backs).2 (lt_irrefl _)) 0
    obtain ⟨face, hface⟩ := h.linked.pooled other _ hl
    have hlt := (h.linked.backs_lt _ _ (h.linked.onClosed _ face hface).1).2
    exact absurd hlt (lt_irrefl _)
  | announce peer =>
    obtain rfl := Option.some.inj hs
    refine h.frame (within_announce s peer) fun peer' face hf => ?_
    rw [onAnnounce] at hf
    split at hf
    · exact hf
    · rwa [rediscovered_peers] at hf
    · rw [rediscovered_peers, Dict.get?_set] at hf
      split at hf
      · cases hf
      · exact hf
  | closeLink link =>
    rw [Router.step] at hs
    split at hs
    · rename_i hc
      exact Option.some.inj hs ▸ h.closeLink hc.1 hc.2
    · cases hs
  | dropIdle peer =>
    obtain rfl := Option.some.inj hs
    have hpool := h.frame (within_pool s peer s.dialling) fun _ _ hf => hf
    rw [dropIdle]
    cases hl : s.liveLink peer with
    | none => exact hpool
    | some link =>
      have hr := h.linked.ready hl
      exact hpool.closeLink hr.lt hr.up
  | run task cost =>
    rw [Router.step] at hs
    split at hs
    · rename_i hmem
      obtain rfl := Option.some.inj hs
      cases task with
      | cleanupClosedFace face => exact h.cleanup hmem
      | reinstall k => exact (h.frame within_erase fun _ _ hf => hf).connect _ _
    · cases hs

/-- The event is one that brings the route to the peer back: the cleanup of a face, an announce of
the peer, the task that the announce has scheduled, and the link that comes up for it. -/
def Label.Recovers (k : KnownPeer) : Label → Prop
  | .run (.cleanupClosedFace _) _ => True
  | .announce peer => peer = k.destinationHash
  | .run (.reinstall k') _ => k' = k
  | .dialled d up _ => d = k.dial ∧ up = true
  | _ => False

/-- The prefix is routed over the face of the peer, on a link that is up. -/
def Routed (s : Router) (peer : Bytes) (n : Name) : Prop :=
  ∃ link face, s.peers.get? peer = some (some face) ∧ s.Backs link face ∧ link ∉ s.closedLinks ∧
    face ∈ s.server.faces ∧ face ∈ s.server.forwarder.fib.nextHops n

/-- The face of the peer in the registry is on a link that is up. -/
def Connected (s : Router) (peer : Bytes) : Prop :=
  ∃ link face, s.peers.get? peer = some (some face) ∧ s.Backs link face ∧ link ∉ s.closedLinks

variable {k : KnownPeer} {n : Name}

theorem linked_routed (hn : k.namePrefix = some n)
    (hp : (s.peers.get? k.destinationHash).isSome) (hup : link ∉ s.closedLinks) (cost : ℕ) :
    (s.linked k.dial link cost).Routed k.destinationHash n := by
  have ho := linked_opened s k.dial link cost
  refine ⟨link, s.server.nextFaceId, ?_, ho.backs_iff.mpr (by rw [if_pos rfl]), ?_, ?_, ?_⟩
  · rw [linked_peers, if_pos ⟨rfl, hp⟩]
  · rwa [ho.closedLinks]
  · rw [ho.faces]
    exact List.mem_cons_self
  · have hdial : k.dial.namePrefix = some n := hn
    rw [linked, hdial]
    exact Fib.mem_nextHops_insert _ n _ cost

theorem dialled_routed (h : s.Linked) (hn : k.namePrefix = some n)
    (hp : (s.peers.get? k.destinationHash).isSome) (cost : ℕ) :
    (s.dialled k.dial true cost).Routed k.destinationHash n :=
  linked_routed (s := { s with
    dialling := s.dialling.erase k.dial
    nextLink := s.nextLink + 1
    pool := s.pool.set k.dial.peer s.nextLink }) hn hp (fun hc => (h.closed_lt _ hc).false) cost

/-- From a state some events that bring the route back lead to one where it is there. -/
def Recovers (k : KnownPeer) (n : Name) (s : Router) : Prop :=
  ∃ ls t, (∀ l ∈ ls, l.Recovers k) ∧ Run step anyStep s ls t ∧ t.Routed k.destinationHash n

theorem Recovers.cons (h : Recovers k n t) (hl : l.Recovers k) (hs : step s l = some t) :
    Recovers k n s := by
  obtain ⟨ls, u, hls, hrun, hu⟩ := h
  exact ⟨l :: ls, u, List.forall_mem_cons.mpr ⟨hl, hls⟩, .cons trivial hs hrun, hu⟩

theorem connect_recovers (hn : k.namePrefix = some n)
    (hp : (s.peers.get? k.destinationHash).isSome) (hlinked : s.Linked) (cost : ℕ) :
    Recovers k n (s.connect k.dial cost) := by
  rw [connect]
  cases hl : s.liveLink k.dial.peer with
  | some link => exact ⟨[], _, by simp, .nil _, linked_routed hn hp (liveLink_eq_some hl).2 cost⟩
  | none =>
    have hdone : Recovers k n ({ s with
        pool := s.pool.erase k.dial.peer
        dialling := k.dial :: s.dialling }.dialled k.dial true cost) :=
      ⟨[], _, by simp, .nil _,
        dialled_routed (hlinked.within (within_pool s k.dial.peer _)) hn hp cost⟩
    refine hdone.cons (l := .dialled k.dial true cost) ⟨rfl, rfl⟩ ?_
    rw [step, if_pos List.mem_cons_self]

theorem announce_recovers (hlinked : s.Linked) (hre : s.reinstalls = true)
    (hk : s.knownPeers.reverse.find? (·.destinationHash = k.destinationHash) = some k)
    (hn : k.namePrefix = some n)
    (hfree : ∀ face, s.peers.get? k.destinationHash ≠ some (some face)) : Recovers k n s := by
  have hannounced : (s.onAnnounce k.destinationHash).scheduled = .reinstall k :: s.scheduled ∧
      ((s.onAnnounce k.destinationHash).peers.get? k.destinationHash).isSome := by
    rw [onAnnounce]
    split
    · rename_i face hf
      exact absurd hf (hfree face)
    · rename_i hf
      rw [rediscovered_peers, hf, onRediscovered, hk]
      simp [hre]
    · rw [rediscovered_peers, Dict.get?_set_self, onRediscovered]
      simp [hk, hre]
  obtain ⟨hsched, hpeer⟩ := hannounced
  have hrun : Recovers k n ((s.onAnnounce k.destinationHash).runTask (.reinstall k) 0) :=
    connect_recovers (s := { s.onAnnounce k.destinationHash with
      scheduled := (s.onAnnounce k.destinationHash).scheduled.erase (.reinstall k) }) hn hpeer
      ((hlinked.within (within_announce s k.destinationHash)).within within_erase) 0
  refine (hrun.cons (l := .run (.reinstall k) 0) rfl ?_).cons (l := .announce k.destinationHash)
    rfl rfl
  rw [step, if_pos (by rw [hsched]; exact List.mem_cons_self)]

theorem Attended.recovers (h : s.Attended) (hre : s.reinstalls = true)
    (hk : s.knownPeers.reverse.find? (·.destinationHash = k.destinationHash) = some k)
    (hn : k.namePrefix = some n) (hdown : ¬ s.Connected k.destinationHash) : Recovers k n s := by
  by_cases hface : ∃ face, s.peers.get? k.destinationHash = some (some face)
  · obtain ⟨face, hf⟩ := hface
    obtain ⟨link, hm⟩ := h.monitored _ face hf
    have hclosed : link ∈ s.closedLinks := by
      by_contra hup
      exact hdown ⟨link, face, hf, hm.backs, hup⟩
    have hdue := hm.closed hclosed
    have hfree (face' : FaceId) : (s.runTask (.cleanupClosedFace face) 0).peers.get?
        k.destinationHash ≠ some (some face') := by
      have hpeer : (s.runTask (.cleanupClosedFace face) 0).peers.get? k.destinationHash =
          (s.peers.get? k.destinationHash).map fun f => if f = some face then none else f :=
        Dict.get?_mapValues _ _ _
      rw [hpeer, hf]
      simp
    refine (announce_recovers (h.cleanup hdue).linked hre hk hn hfree).cons
      (l := .run (.cleanupClosedFace face) 0) trivial ?_
    rw [Router.step, if_pos hdue]
    rfl
  · exact announce_recovers h.linked hre hk hn fun face hf => hface ⟨face, hf⟩

/-- A router that brings routes back never loses a configured peer. In every state that a run
reaches, the peer is connected over a link that is up, or the cleanup of its face if it has one, its
next announce, the task scheduled by that and a link that comes up bring its route back. -/
theorem peer_recovers {ls : List Label} (h₀ : s.Initial) (hp : s.peers = .empty)
    (h : Run step anyStep s ls t) (hre : t.reinstalls = true)
    (hk : t.knownPeers.reverse.find? (·.destinationHash = k.destinationHash) = some k)
    (hn : k.namePrefix = some n) (hdown : ¬ t.Connected k.destinationHash) :
    ∃ ls' u, (∀ l ∈ ls', l.Recovers k) ∧ Run step anyStep t ls' u ∧
      u.Routed k.destinationHash n :=
  Attended.recovers (h.invariant (h₀.attended hp) fun _ _ _ hi _ hs => hi.step hs) hre hk hn hdown

theorem upstream_recovers :
    let t := routerAfter (reconnected.take 5)
    t.server.faces = [100] ∧ ∃ ls u, (∀ l ∈ ls, l.Recovers upstream) ∧ Run step anyStep t ls u ∧
      u.Routed (List.replicate 16 2) ⟨List.replicate 16 1, [], none⟩ := by
  have hdown : ¬ (routerAfter (reconnected.take 5)).Connected (List.replicate 16 2) := by
    rintro ⟨link, face, hf, hback, hup⟩
    obtain rfl : 100 = face := Option.some.inj (Option.some.inj hf)
    obtain rfl : 0 = link := Option.some.inj hback
    exact hup (List.mem_singleton.mpr rfl)
  have hrun : Run step anyStep router (reconnected.take 5) (routerAfter (reconnected.take 5)) :=
    run_of_exec rfl
  exact ⟨rfl, peer_recovers router_initial rfl hrun rfl rfl rfl hdown⟩

end Router

end RnsIcn
