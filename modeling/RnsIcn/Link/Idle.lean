import RnsIcn.Link.Pool

/-! # Which links the monitor tears down

The activity of a link is the last time that `get_link` handed it out. Packets do not
count, so a link in use is torn down unless it is asked for again in time.
-/

namespace RnsIcn

open Transition

namespace LinkPool

variable {s t : LinkPool} {peer : Bytes} {link : LinkRef} {c : ℕ}

/-- The peer that a link was created for. -/
def owner (s : LinkPool) (link : LinkRef) : Option Bytes := (s.created link).map Link.peer

/-- The activity of the peer is the last time that the link was handed out. -/
def LastHandedOut (s : LinkPool) (peer : Bytes) (link : LinkRef) : Prop :=
  ∃ time, s.health.get? peer = some time ∧ .handedOut link time ∈ s.log ∧
    ∀ time', .handedOut link time' ∈ s.log → time' ≤ time

/-- Each pooled link is that of its peer and was last handed out at the activity of the peer. -/
structure Tracked (s : LinkPool) : Prop where
  last : ∀ peer link, s.links.get? peer = some link → s.LastHandedOut peer link
  owned : ∀ peer link, s.links.get? peer = some link → s.owner link = some peer
  establishing : ∀ c call link start, s.calls c = some call →
    call.phase = .establishing link start → s.owner link = some call.peer
  fresh : ∀ link, s.nextLink ≤ link → s.created link = none
  past : ∀ link time, .handedOut link time ∈ s.log → time ≤ s.time

@[simp] theorem owner_setStatus (s : LinkPool) (link link' : LinkRef) (status : LinkStatus) :
    (s.setStatus link status).owner link' = s.owner link' := by
  by_cases h : link' = link
  · subst h
    rw [owner, created_setStatus_self, Option.map_map]
    rfl
  · rw [owner, created_setStatus_ne s status h]
    rfl

theorem Initial.tracked (h : s.Initial) : s.Tracked where
  last peer link hl := by rw [h.links] at hl; cases hl
  owned peer link hl := by rw [h.links] at hl; cases hl
  establishing c call link start hc := by rw [h.calls] at hc; cases hc
  fresh link _ := h.created link
  past link time hl := by rw [h.log] at hl; cases hl

namespace Tracked

theorem setCall (h : s.Tracked) {call : PoolCall}
    (hphase : ∀ link start, call.phase = .establishing link start →
      s.owner link = some call.peer) : (s.setCall c call).Tracked where
  last := h.last
  owned := h.owned
  establishing c' call' link start hc hp := by
    by_cases he : c' = c
    · subst he
      obtain rfl := Option.some.inj ((s.calls_setCall_self c' call).symm.trans hc)
      exact hphase link start hp
    · exact h.establishing c' call' link start ((s.calls_setCall_ne call he).symm.trans hc) hp
  fresh := h.fresh
  past := h.past

theorem nextCall (h : s.Tracked) (n : ℕ) : { s with nextCall := n }.Tracked :=
  ⟨h.last, h.owned, h.establishing, h.fresh, h.past⟩

theorem setStatus (h : s.Tracked) (link : LinkRef) (status : LinkStatus) :
    (s.setStatus link status).Tracked where
  last := h.last
  owned peer link' hl := by rw [owner_setStatus]; exact h.owned peer link' hl
  establishing c call link' start hc hp := by
    rw [owner_setStatus]
    exact h.establishing c call link' start hc hp
  fresh link' hlt := by
    by_cases he : link' = link
    · subst he
      rw [created_setStatus_self, h.fresh link' hlt]
      rfl
    · exact (s.created_setStatus_ne status he).trans (h.fresh link' hlt)
  past := h.past

theorem forget (h : s.Tracked) (peer : Bytes) :
    { s with links := s.links.erase peer, health := s.health.erase peer }.Tracked := by
  have hne {peer' link} (hl : (s.links.erase peer).get? peer' = some link) :
      peer' ≠ peer ∧ s.links.get? peer' = some link := by
    by_cases he : peer' = peer
    · subst he
      rw [Dict.get?_erase_self] at hl
      cases hl
    · exact ⟨he, (s.links.get?_erase_ne he).symm.trans hl⟩
  constructor
  · intro peer' link hl
    obtain ⟨he, hl⟩ := hne hl
    obtain ⟨time, hhealth, hlast⟩ := h.last peer' link hl
    exact ⟨time, (s.health.get?_erase_ne he).trans hhealth, hlast⟩
  · exact fun peer' link hl => h.owned peer' link (hne hl).2
  · exact h.establishing
  · exact h.fresh
  · exact h.past

theorem record (h : s.Tracked) {e : LinkEvent} (he : ∀ link time, e ≠ .handedOut link time) :
    { s with log := e :: s.log }.Tracked := by
  have hmem {link time} (hl : .handedOut link time ∈ e :: s.log) : .handedOut link time ∈ s.log :=
    (List.mem_cons.mp hl).resolve_left fun hh => he link time hh.symm
  constructor
  · intro peer link hl
    obtain ⟨time, hhealth, hlog, hmax⟩ := h.last peer link hl
    exact ⟨time, hhealth, List.mem_cons_of_mem _ hlog, fun time' ht => hmax time' (hmem ht)⟩
  · exact h.owned
  · exact h.establishing
  · exact h.fresh
  · exact fun link time hl => h.past link time (hmem hl)

theorem handOut (h : s.Tracked) (hown : s.owner link = some peer) :
    (s.handOut c peer link).Tracked := by
  have hpooled : { s with
      links := s.links.set peer link
      health := s.health.set peer s.time
      log := .handedOut link s.time :: s.log }.Tracked := by
    constructor
    · intro peer' link' hl
      rw [Dict.get?_set] at hl
      split at hl
      · rename_i he
        obtain rfl := Option.some.inj hl
        subst he
        refine ⟨s.time, Dict.get?_set_self .., List.mem_cons_self, fun time' ht => ?_⟩
        rcases List.mem_cons.mp ht with ht | ht
        · exact (LinkEvent.handedOut.inj ht).2.le
        · exact h.past link time' ht
      · rename_i he
        -- The link of another peer is another link.
        have hne : link' ≠ link := fun hh =>
          he (Option.some.inj ((h.owned peer' link' hl).symm.trans (hh ▸ hown)))
        obtain ⟨time, hhealth, hlog, hmax⟩ := h.last peer' link' hl
        refine ⟨time, (Dict.get?_set_ne _ _ he).trans hhealth, List.mem_cons_of_mem _ hlog,
          fun time' ht => ?_⟩
        rcases List.mem_cons.mp ht with ht | ht
        · exact absurd (LinkEvent.handedOut.inj ht).1 hne
        · exact hmax time' ht
    · intro peer' link' hl
      rw [Dict.get?_set] at hl
      split at hl
      · rename_i he
        obtain rfl := Option.some.inj hl
        exact he ▸ hown
      · exact h.owned peer' link' hl
    · exact h.establishing
    · exact h.fresh
    · intro link' time ht
      rcases List.mem_cons.mp ht with ht | ht
      · exact (LinkEvent.handedOut.inj ht).2.le
      · exact h.past link' time ht
  exact hpooled.setCall (by rintro _ _ ⟨⟩)

theorem create (h : s.Tracked) (peer : Bytes) (start : ℕ) :
    ({ s with
      created := Function.update s.created s.nextLink (some { peer })
      nextLink := s.nextLink + 1
    }.setCall c ⟨peer, .establishing s.nextLink start⟩).Tracked := by
  have hcreated {link} (hne : link ≠ s.nextLink) :
      Function.update s.created s.nextLink (some { peer }) link = s.created link :=
    Function.update_of_ne hne _ _
  have howner {link peer'} (hl : s.owner link = some peer') :
      (Function.update s.created s.nextLink (some { peer }) link).map Link.peer = some peer' := by
    rw [hcreated]
    · exact hl
    · rintro rfl
      rw [owner, h.fresh _ le_rfl] at hl
      cases hl
  have hlinks : { s with
      created := Function.update s.created s.nextLink (some { peer })
      nextLink := s.nextLink + 1 }.Tracked := by
    constructor
    · exact h.last
    · exact fun peer' link hl => howner (h.owned peer' link hl)
    · exact fun c' call link start' hc hp => howner (h.establishing c' call link start' hc hp)
    · intro link hlt
      exact (hcreated (Nat.ne_of_gt hlt)).trans (h.fresh link (Nat.le_of_succ_le hlt))
    · exact h.past
  refine hlinks.setCall fun link start' hp => ?_
  obtain ⟨rfl, -⟩ := PoolPhase.establishing.inj hp
  exact congrArg (Option.map Link.peer) (Function.update_self s.nextLink _ s.created)

theorem createLink (h : s.Tracked) (c : ℕ) (peer : Bytes) (identity : Bool) :
    (s.createLink c peer identity).Tracked := by
  cases identity <;> exact h.setCall (by rintro _ _ ⟨⟩)

theorem getLink (h : s.Tracked) (peer : Bytes) (identity : Bool) :
    (s.getLink peer identity).Tracked := by
  have hc := h.nextCall (s.nextCall + 1)
  rw [LinkPool.getLink]
  cases hl : s.links.get? peer with
  | none =>
    exact hc.createLink _ peer identity
  | some link =>
    simp only
    split
    · exact hc.handOut (h.owned peer link hl)
    · exact (hc.forget peer).createLink _ peer identity

theorem evict (h : s.Tracked) (peer : Bytes) : (s.evict peer).Tracked := by
  rw [LinkPool.evict]
  split
  · exact ((h.setStatus _ .closed).forget peer).record (by rintro _ _ ⟨⟩)
  · exact h

theorem monitorLinks (h : s.Tracked) : s.monitorLinks.Tracked := by
  rw [LinkPool.monitorLinks]
  generalize s.dead = peers
  induction peers generalizing s with
  | nil => exact h
  | cons peer peers ih => exact ih (h.evict peer)

theorem step {l : Label} (h : s.Tracked) (hs : step s l = some t) : t.Tracked := by
  cases l with
  | getLink peer identity => exact Option.some.inj hs ▸ h.getLink peer identity
  | pollPath c hasPath =>
    obtain ⟨call, hc, hs⟩ := Option.bind_eq_some_iff.mp hs
    split at hs
    · split at hs
      · exact Option.some.inj hs ▸ h.create call.peer _
      · split at hs
        · exact Option.some.inj hs ▸ h
        · exact Option.some.inj hs ▸ h.setCall (by rintro _ _ ⟨⟩)
    · cases hs
  | pollLink c =>
    obtain ⟨call, hc, hs⟩ := Option.bind_eq_some_iff.mp hs
    split at hs
    · rename_i link start hp
      split at hs
      · exact Option.some.inj hs ▸ (h.setStatus link .closed).setCall (by rintro _ _ ⟨⟩)
      · split at hs
        · exact Option.some.inj hs ▸ h.handOut (h.establishing c call link start hc hp)
        · exact Option.some.inj hs ▸ h.setCall (by rintro _ _ ⟨⟩)
        · exact Option.some.inj hs ▸ h
    · cases hs
  | linkStatus link status =>
    simp only [LinkPool.step] at hs
    split at hs
    · cases hs
    · exact Option.some.inj hs ▸ h.setStatus link status
  | packet link =>
    simp only [LinkPool.step, LinkPool.packet] at hs
    split at hs
    · cases hs
    · cases hs
    · exact Option.some.inj hs ▸ h.record (by rintro _ _ ⟨⟩)
  | monitorLinks => exact Option.some.inj hs ▸ h.monitorLinks
  | tick ms =>
    obtain rfl := Option.some.inj hs
    exact ⟨h.last, h.owned, h.establishing, h.fresh,
      fun link time hl => (h.past link time hl).trans (Nat.le_add_right _ _)⟩

end Tracked

/-- The step from `s` to `t` tears the link down. -/
def TornDown (s t : LinkPool) (link : LinkRef) : Prop :=
  ∃ events, t.log = events ++ s.log ∧ .tornDown link s.time ∈ events

theorem log_foldl_evict {peers : List Bytes} (h : peers.Nodup) :
    (peers.foldl evict s).log =
      ((peers.filterMap s.links.get?).map fun link => .tornDown link s.time).reverse ++ s.log := by
  induction peers generalizing s with
  | nil => rfl
  | cons peer peers ih =>
    obtain ⟨hnot, hnodup⟩ := List.nodup_cons.mp h
    rw [List.foldl_cons, ih hnodup]
    cases hl : s.links.get? peer with
    | none => rw [List.filterMap_cons_none hl, show s.evict peer = s by rw [evict, hl]]
    | some link =>
      have hrest : peers.filterMap (s.evict peer).links.get? = peers.filterMap s.links.get? := by
        refine List.filterMap_congr fun peer' hp => ?_
        rw [evict, hl]
        exact s.links.get?_erase_ne fun he => hnot (he ▸ hp)
      rw [hrest, List.filterMap_cons_some hl, List.map_cons, List.reverse_cons,
        List.append_assoc, evict, hl]
      rfl

theorem mem_dead {time : ℕ} (h : s.health.get? peer = some time) :
    peer ∈ s.dead ↔ IDLE_LIMIT < s.time - time := by
  have hitem := Dict.get?_eq_some.mp h
  simp only [dead, List.mem_map, List.mem_filter, decide_eq_true_eq]
  constructor
  · rintro ⟨e, ⟨he, hlt⟩, rfl⟩
    rwa [Dict.item_eq_of_key_eq he hitem rfl] at hlt
  · exact fun hlt => ⟨(peer, time), ⟨hitem, hlt⟩, rfl⟩

theorem nodup_dead (s : LinkPool) : s.dead.Nodup :=
  s.health.nodup.sublist (List.filter_sublist.map _)

theorem tornDown_monitorLinks_iff :
    TornDown s s.monitorLinks link ↔ ∃ peer ∈ s.dead, s.links.get? peer = some link := by
  rw [TornDown, monitorLinks, log_foldl_evict s.nodup_dead]
  constructor
  · rintro ⟨events, he, hmem⟩
    rw [← List.append_cancel_right he] at hmem
    obtain ⟨link', hlink, he'⟩ := List.mem_map.mp (List.mem_reverse.mp hmem)
    obtain rfl := (LinkEvent.tornDown.inj he').1
    exact List.mem_filterMap.mp hlink
  · intro h
    exact ⟨_, rfl, List.mem_reverse.mpr (List.mem_map_of_mem (List.mem_filterMap.mpr h))⟩

/-- The event is at most 120 seconds old. -/
def Recent (s : LinkPool) (time : ℕ) : Prop := s.time - time ≤ IDLE_LIMIT

instance (s : LinkPool) (time : ℕ) : Decidable (s.Recent time) :=
  inferInstanceAs (Decidable (s.time - time ≤ IDLE_LIMIT))

/-- Every pooled link with a recent packet was handed out recently. -/
def InUse (s : LinkPool) : Prop :=
  ∀ peer link, s.links.get? peer = some link →
    (∃ time, .packet link time ∈ s.log ∧ s.Recent time) →
      ∃ time, .handedOut link time ∈ s.log ∧ s.Recent time

/-- A turn of the monitor spares all links with a recent packet exactly if each of them was handed
out recently. -/
theorem monitor_spares_iff (h : s.Tracked) :
    (∀ link, TornDown s s.monitorLinks link → ∀ time, .packet link time ∈ s.log →
      ¬ s.Recent time) ↔ s.InUse := by
  simp only [tornDown_monitorLinks_iff]
  constructor
  · rintro hspare peer link hl ⟨time, hpacket, hrecent⟩
    obtain ⟨last, hhealth, hhanded, -⟩ := h.last peer link hl
    refine ⟨last, hhanded, ?_⟩
    by_contra hold
    exact hspare link ⟨peer, (mem_dead hhealth).mpr (not_le.mp hold), hl⟩ time hpacket hrecent
  · rintro hused link ⟨peer, hdead, hl⟩ time hpacket hrecent
    obtain ⟨last, hhealth, -, hmax⟩ := h.last peer link hl
    obtain ⟨handed, hhanded, hrecent⟩ := hused peer link hl ⟨time, hpacket, hrecent⟩
    have hidle := (mem_dead hhealth).mp hdead
    have hle := hmax handed hhanded
    unfold Recent at hrecent
    omega

/-- In every run the monitor spares all links with a recent packet exactly if at each of its turns
each of these was handed out recently. -/
theorem monitor_spares_run_iff {ls : List Label} (h : Run step anyStep s ls t) (hs : s.Initial) :
    (∀ u v, (u, .monitorLinks, v) ∈ trace step s ls → ∀ link, TornDown u v link →
      ∀ time, .packet link time ∈ u.log → ¬ u.Recent time) ↔
    ∀ u v, (u, .monitorLinks, v) ∈ trace step s ls → u.InUse := by
  refine forall₂_congr fun u v => forall_congr' fun he => ?_
  have htracked := (h.trace_invariant hs.tracked fun _ _ _ hi _ hst => hi.step hst) _ he
  obtain rfl : u.monitorLinks = v := Option.some.inj (h.of_mem_trace he).2
  exact monitor_spares_iff htracked.1

def busyPeer : Bytes := List.replicate 16 0x07

/-- A link is created and packets go over it at 50 and at 100 seconds. The state is that at 150
seconds. -/
def busyRun (askedAgain : Bool) : List Label :=
  [.getLink busyPeer true, .pollPath 0 true, .linkStatus 0 .active, .pollLink 0, .tick 50000,
    .packet 0, .tick 50000, .packet 0] ++
  (if askedAgain then [.getLink busyPeer true] else []) ++ [.tick 50000]

def busyEnd (askedAgain : Bool) : LinkPool := (exec step {} (busyRun askedAgain)).getD {}

theorem initial_empty : ({} : LinkPool).Initial := ⟨rfl, rfl, fun _ => rfl, fun _ => rfl, rfl⟩

theorem busy_run (askedAgain : Bool) :
    Run step anyStep {} (busyRun askedAgain) (busyEnd askedAgain) := by
  cases askedAgain <;> exact run_of_exec rfl

theorem busy_monitored (askedAgain : Bool) :
    Run step anyStep {} (busyRun askedAgain ++ [.monitorLinks]) (busyEnd askedAgain).monitorLinks :=
  (busy_run askedAgain).snoc trivial rfl

theorem trace_busy (askedAgain : Bool) :
    trace step {} (busyRun askedAgain ++ [.monitorLinks]) =
      trace step {} (busyRun askedAgain) ++
        [(busyEnd askedAgain, .monitorLinks, (busyEnd askedAgain).monitorLinks)] :=
  (busy_run askedAgain).trace_append _

theorem asked_again_spared :
    .packet 0 100000 ∈ (busyEnd true).log ∧ (busyEnd true).Recent 100000 ∧
      ¬ TornDown (busyEnd true) (busyEnd true).monitorLinks 0 := by
  have hspares := (monitor_spares_run_iff (busy_monitored true) initial_empty).mpr fun u v he => by
    rw [trace_busy, List.mem_append, List.mem_singleton] at he
    rcases he with he | he
    · exact absurd (label_of_mem_trace he) (show Label.monitorLinks ∉ busyRun true by decide)
    · obtain rfl := (Prod.mk.inj he).1
      rintro peer link hl -
      have hitem : (peer, link) ∈ [(busyPeer, 0)] := Dict.get?_eq_some.mp hl
      obtain ⟨-, rfl⟩ := Prod.mk.inj (List.mem_singleton.mp hitem)
      exact ⟨100000, by decide, by decide⟩
  have hpacket : .packet 0 100000 ∈ (busyEnd true).log := by decide
  have hrecent : (busyEnd true).Recent 100000 := by decide
  have hturn : (busyEnd true, .monitorLinks, (busyEnd true).monitorLinks) ∈
      trace step {} (busyRun true ++ [.monitorLinks]) := by
    rw [trace_busy]
    exact List.mem_append_right _ List.mem_cons_self
  exact ⟨hpacket, hrecent, fun htorn => hspares _ _ hturn 0 htorn 100000 hpacket hrecent⟩

/-- The monitor tears down a link that carried a packet 50 seconds ago. -/
theorem busy_link_torn_down :
    ∃ u v, (u, .monitorLinks, v) ∈ trace step {} (busyRun false ++ [.monitorLinks]) ∧
      u.status 0 = some .active ∧ .packet 0 100000 ∈ u.log ∧ u.Recent 100000 ∧ TornDown u v 0 := by
  refine ⟨busyEnd false, (busyEnd false).monitorLinks, ?_, rfl, by decide, by decide,
    [.tornDown 0 150000], rfl, by decide⟩
  rw [trace_busy]
  exact List.mem_append_right _ List.mem_cons_self

end LinkPool

end RnsIcn
