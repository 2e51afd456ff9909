import RnsIcn.Server.Routes

/-! # The lifecycle of a route

As long as no call of `connect` finds a link up in the pool, each link backs one face,
and its closed callback withdraws this face. A call that does find one opens a second
face on the link, and only the later of the two is withdrawn when the link closes.
-/

namespace RnsIcn

open Effect Transition

namespace Router

variable {s t : Router} {l : Label} {face face' : FaceId} {link : LinkId} {d : Dial} {cost : ℕ}

def Registered (s : Router) (face : FaceId) : Prop :=
  face ∈ s.server.faces ∨ face ∈ s.server.forwarder.faces

/-- The face is registered, or it is a next hop of a route. -/
def InUse (s : Router) (face : FaceId) : Prop :=
  s.Registered face ∨ s.server.forwarder.fib.Uses face

def Backs (s : Router) (link : LinkId) (face : FaceId) : Prop := s.backing.get? face = some link

/-- A link backs at most one registered face. One that has closed backs none and no route, once no
cleanup of a face on it is scheduled any more. -/
structure Lawful (s : Router) : Prop where
  oneFace : ∀ link face face', s.Registered face → s.Registered face' → s.Backs link face →
    s.Backs link face' → face = face'
  withdrawn : ∀ link ∈ s.closedLinks,
    (∀ face, .cleanupClosedFace face ∈ s.scheduled → ¬ s.Backs link face) →
    ∀ face, s.Backs link face → ¬ s.InUse face

/-- What links, faces and the pool have to do with each other, whatever is called. -/
structure Linked (s : Router) : Prop where
  inUse : ∀ face, s.InUse face → ∃ link, s.Backs link face
  backs_lt : ∀ link face, s.Backs link face → face < s.server.nextFaceId ∧ link < s.nextLink
  closed_lt : ∀ link ∈ s.closedLinks, link < s.nextLink
  onClosed : ∀ link face, s.onClosed.get? link = some face → s.Backs link face ∧
    (link ∉ s.closedLinks → face ∈ s.server.faces)
  pooled : ∀ peer link, s.pool.get? peer = some link → ∃ face, s.onClosed.get? link = some face
  closedFaces : ∀ face ∈ s.closedFaces, ∃ link ∈ s.closedLinks, s.Backs link face
  scheduled : ∀ face, .cleanupClosedFace face ∈ s.scheduled →
    ∃ link ∈ s.closedLinks, s.Backs link face

/-- Every face in use has the closed callback of its link, and is to be cleaned up once the link has
closed. -/
def Owning (s : Router) : Prop :=
  ∀ link face, s.InUse face → s.Backs link face → s.onClosed.get? link = some face ∧
    (link ∈ s.closedLinks → .cleanupClosedFace face ∈ s.scheduled)

theorem Owning.lawful (h : s.Owning) : s.Lawful where
  oneFace link face face' hr hr' hb hb' := by
    have hown := (h link face (.inl hr) hb).1
    exact Option.some.inj (hown.symm.trans (h link face' (.inl hr') hb').1)
  withdrawn link hc hdone face hb hu := hdone face ((h link face hu hb).2 hc) hb

def routing (s : Router) : Server × LinkId × Dict FaceId LinkId × Dict LinkId FaceId ×
    List FaceId × List LinkId :=
  (s.server, s.nextLink, s.backing, s.onClosed, s.closedFaces, s.closedLinks)

/-- The later state has no new links or faces, and what it has left in the pool and scheduled was
there before. -/
structure Within (t s : Router) : Prop where
  routing : t.routing = s.routing
  pool : ∀ peer link, t.pool.get? peer = some link → s.pool.get? peer = some link
  scheduled : ∀ face, .cleanupClosedFace face ∈ t.scheduled ↔ .cleanupClosedFace face ∈ s.scheduled

theorem Linked.within (h : s.Linked) (hw : t.Within s) : t.Linked := by
  obtain ⟨hr, hpool, hsched⟩ := hw
  simp only [Router.routing, Prod.mk.injEq] at hr
  obtain ⟨hserver, hnext, hbacking, honClosed, hfaces, hlinks⟩ := hr
  have hb {link face} : t.Backs link face ↔ s.Backs link face := by
    rw [Backs, Backs, hbacking]
  have hu {face} : t.InUse face ↔ s.InUse face := by
    simp only [InUse, Registered, hserver]
  refine ⟨?_, ?_, ?_, ?_, ?_, ?_, ?_⟩
  · simp only [hu, hb]
    exact h.inUse
  · simp only [hb, hserver, hnext]
    exact h.backs_lt
  · simp only [hlinks, hnext]
    exact h.closed_lt
  · simp only [hb, hserver, hlinks, honClosed]
    exact h.onClosed
  · simp only [honClosed]
    exact fun peer link hp => h.pooled peer link (hpool peer link hp)
  · simp only [hb, hfaces, hlinks]
    exact h.closedFaces
  · simp only [hb, hlinks, hsched]
    exact h.scheduled

theorem Owning.within (h : s.Owning) (hw : t.Within s) : t.Owning := by
  obtain ⟨hr, -, hsched⟩ := hw
  simp only [Router.routing, Prod.mk.injEq] at hr
  obtain ⟨hserver, -, hbacking, honClosed, -, hlinks⟩ := hr
  simp only [Owning, InUse, Registered, Backs, hserver, hbacking, honClosed, hlinks, hsched]
  exact h

theorem Initial.linked (h : s.Initial) : s.Linked where
  inUse face hu := by
    rcases hu with (hr | hr) | ⟨e, he, -⟩
    · rw [h.faces] at hr
      cases hr
    · rw [h.forwarderFaces] at hr
      cases hr
    · rw [h.fib] at he
      cases he
  backs_lt link face hb := by
    rw [Backs, h.backing] at hb
    cases hb
  closed_lt link hc := by
    rw [h.closedLinks] at hc
    cases hc
  onClosed link face hc := by
    rw [h.onClosed] at hc
    cases hc
  pooled peer link hp := by
    rw [h.pool] at hp
    cases hp
  closedFaces face hf := by
    rw [h.closedFaces] at hf
    cases hf
  scheduled face hf := by
    rw [h.scheduled] at hf
    cases hf

theorem Initial.owning (h : s.Initial) : s.Owning := fun link face hu hb => by
  rw [Backs, h.backing] at hb
  cases hb

/-- A new face was opened on the link, and perhaps a route over it was installed. -/
structure Opened (s : Router) (link : LinkId) (t : Router) : Prop where
  faces : t.server.faces = s.server.nextFaceId :: s.server.faces
  forwarderFaces : t.server.forwarder.faces = s.server.nextFaceId :: s.server.forwarder.faces
  nextFaceId : t.server.nextFaceId = s.server.nextFaceId + 1
  uses : ∀ face, t.server.forwarder.fib.Uses face →
    face = s.server.nextFaceId ∨ s.server.forwarder.fib.Uses face
  backing : t.backing = s.backing.set s.server.nextFaceId link
  onClosed : t.onClosed = s.onClosed.set link s.server.nextFaceId
  nextLink : t.nextLink = s.nextLink
  pool : t.pool = s.pool
  closedFaces : t.closedFaces = s.closedFaces
  closedLinks : t.closedLinks = s.closedLinks
  scheduled : t.scheduled = s.scheduled

theorem linked_opened (s : Router) (d : Dial) (link : LinkId) (cost : ℕ) :
    s.Opened link (s.linked d link cost) := by
  have hupdate (u : Router) (face : FaceId) :
      ∃ peers, u.updatePeerFace d.peer face = { u with peers } := by
    rw [updatePeerFace]
    split <;> exact ⟨_, rfl⟩
  obtain ⟨peers, hpeers⟩ := hupdate (s.makeLinkFace link) s.server.nextFaceId
  rw [linked, hpeers]
  cases d.namePrefix with
  | none => exact ⟨rfl, rfl, rfl, fun _ h => .inr h, rfl, rfl, rfl, rfl, rfl, rfl, rfl⟩
  | some n => exact ⟨rfl, rfl, rfl, fun _ h => Fib.uses_insert h, rfl, rfl, rfl, rfl, rfl, rfl, rfl⟩

theorem Opened.inUse (h : s.Opened link t) (hu : t.InUse face) :
    face = s.server.nextFaceId ∨ s.InUse face := by
  rcases hu with (hr | hr) | hr
  · rw [h.faces] at hr
    exact (List.mem_cons.mp hr).imp_right fun hr => .inl (.inl hr)
  · rw [h.forwarderFaces] at hr
    exact (List.mem_cons.mp hr).imp_right fun hr => .inl (.inr hr)
  · exact (h.uses face hr).imp_right .inr

theorem Opened.backs_iff (h : s.Opened link t) {link' : LinkId} :
    t.Backs link' face ↔
      if face = s.server.nextFaceId then link' = link else s.Backs link' face := by
  rw [Backs, h.backing, Dict.get?_set]
  split
  · exact ⟨fun he => (Option.some.inj he).symm, fun he => he ▸ rfl⟩
  · exact Iff.rfl

/-- The state in which a face is opened on a link: that before the call, but for a link that was
made for it. -/
structure Ready (u : Router) (link : LinkId) (s : Router) : Prop where
  le : u.nextLink ≤ s.nextLink
  lt : link < s.nextLink
  up : link ∉ u.closedLinks
  pooled : ∀ peer link', s.pool.get? peer = some link' →
    link' = link ∨ u.pool.get? peer = some link'
  routing : (s.server, s.backing, s.onClosed, s.closedFaces, s.closedLinks, s.scheduled) =
    (u.server, u.backing, u.onClosed, u.closedFaces, u.closedLinks, u.scheduled)

theorem Linked.opened {u : Router} (h : u.Linked) (hr : u.Ready link s) (ho : s.Opened link t) :
    t.Linked := by
  obtain ⟨hle, hlt, hup, hpooled, hr⟩ := hr
  simp only [Prod.mk.injEq] at hr
  obtain ⟨hserver, hbacking, honClosed, hfaces, hlinks, hsched⟩ := hr
  have hu {face} : s.InUse face ↔ u.InUse face := by
    simp only [InUse, Registered, hserver]
  have hb {link face} : s.Backs link face ↔ u.Backs link face := by
    rw [Backs, Backs, hbacking]
  have hnew {link face} (hbs : u.Backs link face) : t.Backs link face := by
    have hlt := (h.backs_lt _ _ hbs).1
    rw [ho.backs_iff, hserver, if_neg hlt.ne, hb]
    exact hbs
  refine ⟨fun face hf => ?_, fun link' face hf => ?_, fun link' hf => ?_, fun link' face hf => ?_,
    fun peer link' hf => ?_, fun face hf => ?_, fun face hf => ?_⟩
  · rcases ho.inUse hf with rfl | hf
    · exact ⟨link, ho.backs_iff.mpr (by rw [if_pos rfl])⟩
    · obtain ⟨link', hb'⟩ := h.inUse face (hu.mp hf)
      exact ⟨link', hnew hb'⟩
  · rw [ho.nextFaceId, ho.nextLink]
    rw [ho.backs_iff] at hf
    split at hf
    · rename_i hface
      rw [hf, hface]
      exact ⟨Nat.lt_succ_self _, hlt⟩
    · obtain ⟨hface, hlink⟩ := h.backs_lt _ _ (hb.mp hf)
      rw [hserver]
      exact ⟨hface.trans (Nat.lt_succ_self _), hlink.trans_le hle⟩
  · rw [ho.closedLinks, hlinks] at hf
    rw [ho.nextLink]
    exact (h.closed_lt link' hf).trans_le hle
  · rw [ho.onClosed, Dict.get?_set] at hf
    split at hf
    · rename_i he
      obtain rfl := Option.some.inj hf
      refine ⟨ho.backs_iff.mpr (by rw [if_pos rfl]; exact he), fun _ => ?_⟩
      rw [ho.faces]
      exact List.mem_cons_self
    · rw [honClosed] at hf
      obtain ⟨hback, hreg⟩ := h.onClosed link' face hf
      refine ⟨hnew hback, fun hopen => ?_⟩
      rw [ho.closedLinks, hlinks] at hopen
      rw [ho.faces, hserver]
      exact List.mem_cons_of_mem _ (hreg hopen)
  · rw [ho.pool] at hf
    rw [ho.onClosed, honClosed]
    by_cases he : link' = link
    · exact ⟨_, by rw [he, Dict.get?_set_self]⟩
    · rw [Dict.get?_set_ne _ _ he]
      exact h.pooled peer link' ((hpooled peer link' hf).resolve_left he)
  · rw [ho.closedFaces, hfaces] at hf
    obtain ⟨link', hc, hb'⟩ := h.closedFaces face hf
    exact ⟨link', by rwa [ho.closedLinks, hlinks], hnew hb'⟩
  · rw [ho.scheduled, hsched] at hf
    obtain ⟨link', hc, hb'⟩ := h.scheduled face hf
    exact ⟨link', by rwa [ho.closedLinks, hlinks], hnew hb'⟩

theorem Owning.opened {u : Router} (h : u.Owning) (hr : u.Ready link s)
    (ho : s.Opened link t) (hfree : ∀ face, ¬ u.Backs link face) : t.Owning := by
  obtain ⟨-, -, hup, -, hr⟩ := hr
  simp only [Prod.mk.injEq] at hr
  obtain ⟨hserver, hbacking, honClosed, -, hlinks, hsched⟩ := hr
  intro link' face hu hb
  rw [ho.onClosed, ho.closedLinks, ho.scheduled, honClosed, hlinks, hsched]
  rw [ho.backs_iff] at hb
  split at hb
  · rename_i hface
    obtain rfl := hb
    rw [hface, Dict.get?_set_self]
    exact ⟨rfl, fun hc => absurd hc hup⟩
  · rename_i hface
    have hb' : u.Backs link' face := by
      rw [Backs, ← hbacking]
      exact hb
    have hne : link' ≠ link := by
      rintro rfl
      exact hfree face hb'
    have hu' : u.InUse face := by
      have hs := (ho.inUse hu).resolve_left hface
      simpa only [InUse, Registered, hserver] using hs
    rw [Dict.get?_set_ne _ _ hne]
    exact h link' face hu' hb'

theorem liveLink_eq_some {peer : Bytes} (h : s.liveLink peer = some link) :
    s.pool.get? peer = some link ∧ link ∉ s.closedLinks := by
  obtain ⟨hp, hup⟩ := Option.filter_eq_some_iff.mp h
  exact ⟨hp, of_decide_eq_true hup⟩

theorem Linked.ready (h : s.Linked) {peer : Bytes} (hl : s.liveLink peer = some link) :
    s.Ready link s := by
  obtain ⟨hp, hup⟩ := liveLink_eq_some hl
  obtain ⟨face, hface⟩ := h.pooled peer link hp
  exact ⟨le_rfl, (h.backs_lt _ _ (h.onClosed link face hface).1).2, hup, fun _ _ hp => .inr hp, rfl⟩

/-- The face with the callback of a link that is up has not been closed yet, so closing the link
schedules its cleanup. -/
theorem Linked.closeLink_eq (h : s.Linked) (hup : link ∉ s.closedLinks) :
    s.closeLink link = { s with
      closedLinks := link :: s.closedLinks
      closedFaces := (s.onClosed.get? link).toList ++ s.closedFaces
      scheduled := (s.onClosed.get? link).toList.map Task.cleanupClosedFace ++ s.scheduled } := by
  rw [closeLink]
  cases hc : s.onClosed.get? link with
  | none => rfl
  | some face =>
    have hopen : face ∉ s.closedFaces := fun hf => by
      obtain ⟨link', hclosed, hb⟩ := h.closedFaces face hf
      obtain rfl := Option.some.inj (hb.symm.trans (h.onClosed link face hc).1)
      exact hup hclosed
    simp only [if_neg hopen]
    rfl

theorem Linked.closeLink (h : s.Linked) (hlt : link < s.nextLink) (hup : link ∉ s.closedLinks) :
    (s.closeLink link).Linked := by
  rw [h.closeLink_eq hup]
  have hclosing (face : FaceId) (hc : s.onClosed.get? link = some face) :
      ∃ link' ∈ link :: s.closedLinks, s.Backs link' face :=
    ⟨link, List.mem_cons_self, (h.onClosed link face hc).1⟩
  have hold (face : FaceId) (hc : ∃ link' ∈ s.closedLinks, s.Backs link' face) :
      ∃ link' ∈ link :: s.closedLinks, s.Backs link' face := by
    obtain ⟨link', hc, hb⟩ := hc
    exact ⟨link', List.mem_cons_of_mem _ hc, hb⟩
  refine ⟨h.inUse, h.backs_lt, fun link' hf => ?_, fun link' face hf => ?_, h.pooled,
    fun face hf => ?_, fun face hf => ?_⟩
  · rcases List.mem_cons.mp hf with rfl | hf
    · exact hlt
    · exact h.closed_lt link' hf
  · obtain ⟨hb, hreg⟩ := h.onClosed link' face hf
    exact ⟨hb, fun hopen => hreg fun hc => hopen (List.mem_cons_of_mem _ hc)⟩
  · rcases List.mem_append.mp hf with hf | hf
    · exact hclosing face (Option.mem_toList.mp hf)
    · exact hold face (h.closedFaces face hf)
  · rcases List.mem_append.mp hf with hf | hf
    · obtain ⟨face', hf', he⟩ := List.mem_map.mp hf
      obtain rfl := Task.cleanupClosedFace.inj he
      exact hclosing face' (Option.mem_toList.mp hf')
    · exact hold face (h.scheduled face hf)

theorem Owning.closeLink (h : s.Owning) (hl : s.Linked) (hup : link ∉ s.closedLinks) :
    (s.closeLink link).Owning := by
  rw [hl.closeLink_eq hup]
  intro link' face hu hb
  obtain ⟨hc, hclean⟩ := h link' face hu hb
  refine ⟨hc, fun hclosed => List.mem_append.mpr ?_⟩
  rcases List.mem_cons.mp hclosed with rfl | hclosed
  · exact .inl (List.mem_map.mpr ⟨face, Option.mem_toList.mpr hc, rfl⟩)
  · exact .inr (hclean hclosed)

/-- A face that was cleaned up is not in use any more, and the others are as before. -/
theorem inUse_cleanup (h : (s.cleanupClosedFace face).InUse face') :
    face' ≠ face ∧ s.InUse face' := by
  rcases h with (hr | hr) | hr
  · obtain ⟨hr, hne⟩ := List.mem_filter.mp hr
    exact ⟨of_decide_eq_true hne, .inl (.inl hr)⟩
  · obtain ⟨hr, hne⟩ := List.mem_filter.mp hr
    exact ⟨of_decide_eq_true hne, .inl (.inr hr)⟩
  · obtain ⟨hne, hr⟩ := Fib.uses_removeAllForFace hr
    exact ⟨hne, .inr hr⟩

theorem Linked.cleanup (h : s.Linked) (hf : .cleanupClosedFace face ∈ s.scheduled) :
    ({ s with scheduled := s.scheduled.erase (.cleanupClosedFace face) }.cleanupClosedFace
      face).Linked := by
  obtain ⟨closed, hclosed, hback⟩ := h.scheduled face hf
  refine ⟨fun face' hu => h.inUse face' (inUse_cleanup hu).2, h.backs_lt, h.closed_lt,
    fun link face' hc => ?_, h.pooled, h.closedFaces,
    fun face' hs => h.scheduled face' (List.mem_of_mem_erase hs)⟩
  obtain ⟨hb, hreg⟩ := h.onClosed link face' hc
  refine ⟨hb, fun hopen => List.mem_filter.mpr ⟨hreg hopen, decide_eq_true ?_⟩⟩
  rintro rfl
  obtain rfl := Option.some.inj (hb.symm.trans hback)
  exact hopen hclosed

theorem Owning.cleanup (h : s.Owning) :
    ({ s with scheduled := s.scheduled.erase (.cleanupClosedFace face) }.cleanupClosedFace
      face).Owning := by
  intro link face' hu hb
  obtain ⟨hne, hu⟩ := inUse_cleanup hu
  obtain ⟨hc, hclean⟩ := h link face' hu hb
  refine ⟨hc, fun hclosed => (List.mem_erase_of_ne ?_).mpr (hclean hclosed)⟩
  exact fun he => hne (Task.cleanupClosedFace.inj he)

def Label.dial : Label → Option Dial
  | .connect peer => some ⟨peer, none⟩
  | .installPeerRoute k _ => some k.dial
  | .run (.reinstall k) _ => some k.dial
  | _ => none

/-- The event calls `connect` while the pool has a link to the peer that is up. -/
def Label.Reopens (s : Router) (l : Label) : Prop := ∃ d ∈ l.dial, (s.liveLink d.peer).isSome

instance (s : Router) (l : Label) : Decidable (l.Reopens s) :=
  inferInstanceAs (Decidable (∃ d ∈ l.dial, (s.liveLink d.peer).isSome))

theorem within_erase {k : KnownPeer} :
    { s with scheduled := s.scheduled.erase (.reinstall k) }.Within s :=
  ⟨rfl, fun _ _ h => h, fun _ => List.mem_erase_of_ne (by simp)⟩

theorem within_pool (s : Router) (peer : Bytes) (dialling : List Dial) :
    { s with pool := s.pool.erase peer, dialling }.Within s := by
  refine ⟨rfl, fun peer' link h => ?_, fun _ => Iff.rfl⟩
  rw [Dict.get?_erase] at h
  split at h
  · cases h
  · exact h

theorem within_rediscovered (s : Router) (peer : Bytes) : (s.onRediscovered peer).Within s := by
  rw [onRediscovered]
  split
  · split
    · exact ⟨rfl, fun _ _ h => h, fun face => by simp⟩
    · exact ⟨rfl, fun _ _ h => h, fun _ => Iff.rfl⟩
  · exact ⟨rfl, fun _ _ h => h, fun _ => Iff.rfl⟩

theorem within_announce (s : Router) (peer : Bytes) : (s.onAnnounce peer).Within s := by
  rw [onAnnounce]
  split
  · exact ⟨rfl, fun _ _ h => h, fun _ => Iff.rfl⟩
  · exact within_rediscovered s peer
  · obtain ⟨hr, hp, hs⟩ := within_rediscovered { s with peers := s.peers.set peer none } peer
    exact ⟨hr, hp, hs⟩

theorem Linked.ready_new (h : s.Linked)
    (hr : (t.server, t.backing, t.onClosed, t.closedFaces, t.closedLinks, t.scheduled) =
      (s.server, s.backing, s.onClosed, s.closedFaces, s.closedLinks, s.scheduled))
    (hn : t.nextLink = s.nextLink + 1)
    (hp : ∀ peer link, t.pool.get? peer = some link →
      link = s.nextLink ∨ s.pool.get? peer = some link) : s.Ready s.nextLink t :=
  ⟨by rw [hn]; exact Nat.le_succ _, by rw [hn]; exact Nat.lt_succ_self _,
    fun hc => (h.closed_lt _ hc).false, hp, hr⟩

/-- What an event does: nothing to links and faces, or it opens a face on a link that is up in the
pool or on a new one, closes a link, or cleans up a face that was to be cleaned up. -/
inductive Moves (s : Router) (l : Label) : Router → Prop where
  | within {t : Router} : t.Within s → Moves s l t
  | reopened {u t : Router} {d : Dial} {link : LinkId} : d ∈ l.dial → u.Within s →
      s.liveLink d.peer = some link → u.liveLink d.peer = some link → u.Opened link t → Moves s l t
  | opened {u t : Router} : s.Ready s.nextLink u → u.Opened s.nextLink t → Moves s l t
  | closed {u : Router} {link : LinkId} : u.Within s → link < u.nextLink → link ∉ u.closedLinks →
      Moves s l (u.closeLink link)
  | cleaned {face : FaceId} : .cleanupClosedFace face ∈ s.scheduled →
      Moves s l ({ s with
        scheduled := s.scheduled.erase (.cleanupClosedFace face) }.cleanupClosedFace face)

theorem connect_moves {u : Router} (hu : u.Within s) (hd : d ∈ l.dial) (cost : ℕ)
    (hlive : u.liveLink d.peer = s.liveLink d.peer) : Moves s l (u.connect d cost) := by
  rw [connect]
  cases hl : u.liveLink d.peer with
  | none =>
    obtain ⟨hr, hp, hs⟩ := within_pool u d.peer (d :: u.dialling)
    exact .within ⟨hr.trans hu.routing, fun peer link h => hu.pool peer link (hp peer link h),
      fun face => (hs face).trans (hu.scheduled face)⟩
  | some link => exact .reopened hd hu (hlive ▸ hl) hl (linked_opened u d link cost)

/-- The call that an event makes is one from a state with the same links and faces. -/
theorem step_dial (hd : d ∈ l.dial) (hs : step s l = some t) : ∃ (u : Router) (cost : ℕ),
    u.Within s ∧ u.liveLink d.peer = s.liveLink d.peer ∧ t = u.connect d cost := by
  have hself : s.Within s := ⟨rfl, fun _ _ h => h, fun _ => Iff.rfl⟩
  match l, hd with
  | .connect peer, hd =>
    obtain rfl := Option.some.inj hd
    exact ⟨s, 0, hself, rfl, (Option.some.inj hs).symm⟩
  | .installPeerRoute k cost, hd =>
    obtain rfl := Option.some.inj hd
    exact ⟨s, cost, hself, rfl, (Option.some.inj hs).symm⟩
  | .run (.reinstall k) cost, hd =>
    obtain rfl := Option.some.inj hd
    rw [step] at hs
    split at hs
    · exact ⟨_, cost, within_erase, rfl, (Option.some.inj hs).symm⟩
    · cases hs

theorem step_moves (h : s.Linked) (hs : step s l = some t) : Moves s l t := by
  have hself : s.Within s := ⟨rfl, fun _ _ h => h, fun _ => Iff.rfl⟩
  cases l with
  | connect | installPeerRoute =>
    obtain ⟨u, cost, hu, hlive, rfl⟩ := step_dial rfl hs
    exact connect_moves hu rfl cost hlive
  | wireRouteReinstall =>
    exact Option.some.inj hs ▸ .within ⟨rfl, fun _ _ h => h, fun _ => Iff.rfl⟩
  | dialled d up cost =>
    rw [step] at hs
    split at hs
    · obtain rfl := Option.some.inj hs
      cases up with
      | false => exact .within ⟨rfl, fun _ _ h => h, fun _ => Iff.rfl⟩
      | true =>
        refine .opened (u := { s with
            dialling := s.dialling.erase d
            nextLink := s.nextLink + 1
            pool := s.pool.set d.peer s.nextLink })
          (h.ready_new rfl rfl fun peer link hp => ?_) (linked_opened _ d _ cost)
        rw [Dict.get?_set] at hp
        split at hp
        · exact .inl (Option.some.inj hp).symm
        · exact .inr hp
    · cases hs
  | incomingLink peer =>
    obtain rfl := Option.some.inj hs
    exact .opened (u := { s with nextLink := s.nextLink + 1 })
      (h.ready_new rfl rfl fun _ _ hp => .inr hp) (linked_opened ..)
  | announce peer => exact Option.some.inj hs ▸ .within (within_announce s peer)
  | closeLink link =>
    rw [step] at hs
    split at hs
    · rename_i hc
      exact Option.some.inj hs ▸ .closed hself hc.1 hc.2
    · cases hs
  | dropIdle peer =>
    obtain rfl := Option.some.inj hs
    rw [dropIdle]
    cases hl : s.liveLink peer with
    | none => exact .within (within_pool s peer s.dialling)
    | some link =>
      have hr := h.ready hl
      exact .closed (within_pool s peer s.dialling) hr.lt hr.up
  | run task cost =>
    cases task with
    | reinstall k =>
      obtain ⟨u, cost', hu, hlive, rfl⟩ := step_dial rfl hs
      exact connect_moves hu rfl cost' hlive
    | cleanupClosedFace face =>
      rw [step] at hs
      split at hs
      · rename_i hmem
        exact Option.some.inj hs ▸ .cleaned hmem
      · cases hs

theorem Linked.step (h : s.Linked) (hs : step s l = some t) : t.Linked := by
  cases step_moves h hs with
  | within hw => exact h.within hw
  | reopened _ hw _ hl ho =>
    have hu := h.within hw
    exact hu.opened (hu.ready hl) ho
  | opened hr ho => exact h.opened hr ho
  | closed hw hlt hup => exact (h.within hw).closeLink hlt hup
  | cleaned hf => exact h.cleanup hf

theorem Owning.step (h : s.Owning) (hl : s.Linked) (hr : ¬ l.Reopens s)
    (hs : Router.step s l = some t) : t.Owning := by
  cases step_moves hl hs with
  | within hw => exact h.within hw
  | reopened hd _ hlive => exact absurd ⟨_, hd, by rw [hlive]; rfl⟩ hr
  | opened hready ho =>
    exact h.opened hready ho fun face hb => (hl.backs_lt _ _ hb).2.false
  | closed hw _ hup => exact (h.within hw).closeLink (hl.within hw) hup
  | cleaned => exact h.cleanup

/-- A call that finds a link up in the pool leaves two registered faces on it. -/
theorem not_lawful_of_reopens (h : s.Linked) (hr : l.Reopens s) (hs : Router.step s l = some t) :
    ¬ t.Lawful := by
  obtain ⟨d, hd, hlive⟩ := hr
  obtain ⟨link, hlive⟩ := Option.isSome_iff_exists.mp hlive
  obtain ⟨u, cost, hu, hsame, rfl⟩ := step_dial hd hs
  have hlinked := h.within hu
  rw [← hsame] at hlive
  obtain ⟨hpool, hup⟩ := liveLink_eq_some hlive
  obtain ⟨face, hface⟩ := hlinked.pooled _ link hpool
  obtain ⟨hback, hreg⟩ := hlinked.onClosed link face hface
  have ho := linked_opened u d link cost
  have hne : face ≠ u.server.nextFaceId := (hlinked.backs_lt _ _ hback).1.ne
  rw [connect, hlive]
  intro hlawful
  refine hne (hlawful.oneFace link face u.server.nextFaceId (.inl ?_) (.inl ?_) ?_ ?_)
  · rw [ho.faces]
    exact List.mem_cons_of_mem _ (hreg hup)
  · rw [ho.faces]
    exact List.mem_cons_self
  · rw [ho.backs_iff, if_neg hne]
    exact hback
  · rw [ho.backs_iff, if_pos rfl]

/-- Installing the route to a peer again while its link is up leaves the next hops as they are. -/
def Label.KeepsHops (s : Router) (l : Label) (t : Router) : Prop :=
  ∀ k cost, l = .installPeerRoute k cost ∨ l = .run (.reinstall k) cost →
    (s.liveLink k.destinationHash).isSome → ∀ n ∈ k.namePrefix, ∀ face,
      face ∈ t.server.forwarder.fib.nextHops n ↔ face ∈ s.server.forwarder.fib.nextHops n

/-- The links, faces and routes are as they should be after every event of a run if and only if no
call of `connect` finds a link up in the pool. -/
theorem lifecycle_iff {ls : List Label} (h₀ : s.Initial) (h : Run Router.step anyStep s ls t) :
    (∀ e ∈ trace Router.step s ls, e.2.2.Lawful ∧ e.2.1.KeepsHops e.1 e.2.2) ↔
      ∀ e ∈ trace Router.step s ls, ¬ e.2.1.Reopens e.1 := by
  have hlinked := h.trace_invariant (I := Linked) h₀.linked fun _ _ _ hi _ hs => hi.step hs
  constructor
  · intro hlaw e he hr
    exact not_lawful_of_reopens (hlinked e he).1 hr (h.of_mem_trace he).2 (hlaw e he).1
  · intro hfree e he
    have hrun : Run Router.step (fun s l => ¬ l.Reopens s) s ls t := h.of_trace hfree
    have howning := hrun.trace_invariant
      (I := fun s => s.Linked ∧ s.Owning) ⟨h₀.linked, h₀.owning⟩ fun _ _ _ hi hr hs =>
        ⟨hi.1.step hs, hi.2.step hi.1 hr hs⟩
    refine ⟨(howning e he).2.2.lawful, fun k cost hl hlive => ?_⟩
    refine absurd ⟨k.dial, ?_, hlive⟩ (hfree e he)
    rcases hl with hl | hl <;> rw [hl] <;> rfl

def upstream : KnownPeer := ⟨List.replicate 16 2, some ⟨List.replicate 16 1, [], none⟩⟩

def router : Router := { server := { rnsAddr := List.replicate 16 3 }, knownPeers := [upstream] }

theorem router_initial : router.Initial :=
  ⟨rfl, rfl, rfl, rfl, rfl, rfl, rfl, rfl, rfl, rfl⟩

def routerAfter (ls : List Label) : Router := (Transition.exec step router ls).getD router

/-- The route is installed, the link closes, and the next announce brings the route back. -/
def reconnected : List Label :=
  [.announce (List.replicate 16 2), .wireRouteReinstall, .installPeerRoute upstream 10,
    .dialled upstream.dial true 10, .closeLink 0, .run (.cleanupClosedFace 100) 0,
    .announce (List.replicate 16 2), .run (.reinstall upstream) 10, .dialled upstream.dial true 10]

theorem reconnected_lawful :
    (routerAfter reconnected).Lawful ∧ (routerAfter reconnected).server.faces = [101] := by
  have hrun : Run step anyStep router reconnected (routerAfter reconnected) := run_of_exec rfl
  have hfree : ∀ e ∈ trace step router reconnected, ¬ e.2.1.Reopens e.1 := by decide
  have hlaw := (lifecycle_iff router_initial hrun).mpr hfree
  exact ⟨(hlaw (routerAfter (reconnected.take 8), _, _) (List.mem_of_getElem? (i := 8) rfl)).1, rfl⟩

def lateAnnounce : List Label :=
  [.wireRouteReinstall, .installPeerRoute upstream 10, .dialled upstream.dial true 10,
    .announce (List.replicate 16 2), .run (.reinstall upstream) 10, .closeLink 0,
    .run (.cleanupClosedFace 101) 0]

/-- The route is installed on a second face of the link, and the first face stays after the link has
closed. -/
theorem late_announce_leaks :
    let t := routerAfter lateAnnounce
    Run step anyStep router lateAnnounce t ∧ t.closedLinks = [0] ∧ t.scheduled = [] ∧
      t.server.faces = [100] ∧
      t.server.forwarder.fib.nextHops ⟨List.replicate 16 1, [], none⟩ = [100] ∧
      (routerAfter (lateAnnounce.take 5)).server.forwarder.fib.nextHops
        ⟨List.replicate 16 1, [], none⟩ = [100, 101] ∧
      ¬ ∀ e ∈ trace step router lateAnnounce, e.2.2.Lawful ∧ e.2.1.KeepsHops e.1 e.2.2 := by
  refine ⟨run_of_exec rfl, rfl, rfl, rfl, rfl, rfl, fun h => ?_⟩
  have hlaw := (h (routerAfter (lateAnnounce.take 4), _, routerAfter (lateAnnounce.take 5))
    (List.mem_of_getElem? (i := 4) rfl)).1
  have hsame : 100 = 101 := hlaw.oneFace 0 100 101 (.inl (by decide)) (.inl (by decide)) rfl rfl
  exact absurd hsame (by decide)

end Router

end RnsIcn
