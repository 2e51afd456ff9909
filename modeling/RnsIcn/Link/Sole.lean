import RnsIcn.Link.Idle

/-! # One live link for each peer

A call that finds no active link creates one and puts it into the table when it is
established, without another look at the table. So two calls for one peer that overlap may
each create a link, and the later one takes the place of the other.
-/

namespace RnsIcn

open Transition

namespace LinkPool

/-- A call returned the link. -/
def HandedOut (s : LinkPool) (link : LinkRef) : Prop := ∃ time, .handedOut link time ∈ s.log

/-- The link was returned to a call for the peer and is active. -/
def Live (s : LinkPool) (peer : Bytes) (link : LinkRef) : Prop :=
  s.HandedOut link ∧ s.owner link = some peer ∧ s.status link = some .active

def Pooled (s : LinkPool) : Prop :=
  ∀ peer link, s.Live peer link → s.links.get? peer = some link

def Timestamped (s : LinkPool) : Prop := ∀ peer, peer ∈ s.health.keys ↔ peer ∈ s.links.keys

def Returned (s t : LinkPool) (peer : Bytes) (link : Option LinkRef) : Prop :=
  ∃ c, t.calls c = some ⟨peer, .returned link⟩ ∧ s.calls c ≠ t.calls c

/-- The calls that return at the step return the live link of their peer, if it has one. -/
structure OneLink (s t : LinkPool) : Prop where
  agreed : ∀ peer r, Returned s t peer r → ∀ link, t.Live peer link → r = some link
  pooled : t.Pooled
  timestamped : t.Timestamped

def ending (s : LinkPool) : Label → Option Bytes
  | .pollPath c hasPath => (s.calls c).bind fun call =>
    match call.phase with
    | .resolving start =>
      if hasPath = false ∧ PATH_TIMEOUT ≤ s.time - start then some call.peer else none
    | _ => none
  | .pollLink c => (s.calls c).bind fun call =>
    match call.phase with
    | .establishing link start =>
      if LINK_TIMEOUT < s.time - start ∨ s.status link = some .active ∨
        s.status link = some .closed then some call.peer else none
    | _ => none
  | _ => none

/-- A suspended call returns while the pooled link of its peer is active, or a link that was handed
out and is in the table no more becomes active. -/
def Doubles (s : LinkPool) (l : Label) : Prop :=
  (∃ peer ∈ s.ending l, ∃ link, s.links.get? peer = some link ∧ s.status link = some .active) ∨
    ∃ link, l = .linkStatus link .active ∧ s.HandedOut link ∧
      ∀ peer, s.links.get? peer ≠ some link

/-- A link that is being established was not handed out and has one call. -/
structure Sound (s : LinkPool) : Prop where
  tracked : s.Tracked
  issued : ∀ link, s.HandedOut link → s.created link ≠ none
  unused : ∀ c call link start, s.calls c = some call → call.phase = .establishing link start →
    ¬ s.HandedOut link
  separate : ∀ c c' call call' link start start', s.calls c = some call →
    s.calls c' = some call' → call.phase = .establishing link start →
    call'.phase = .establishing link start' → c = c'
  timestamped : s.Timestamped

variable {s t : LinkPool} {peer : Bytes} {link : LinkRef} {c : ℕ}

theorem Initial.sound (h : s.Initial) : s.Sound where
  tracked := h.tracked
  issued link := by
    rintro ⟨time, hl⟩
    rw [h.log] at hl
    cases hl
  unused c call link start hc := by
    rw [h.calls] at hc
    cases hc
  separate c c' call call' link start start' hc := by
    rw [h.calls] at hc
    cases hc
  timestamped peer := by
    rw [h.links, h.health]

theorem Initial.pooled (h : s.Initial) : s.Pooled := by
  rintro peer link ⟨⟨time, hl⟩, -⟩
  rw [h.log] at hl
  cases hl

theorem Tracked.handedOut (h : s.Tracked) (hl : s.links.get? peer = some link) :
    s.HandedOut link := by
  obtain ⟨time, -, hlog, -⟩ := h.last peer link hl
  exact ⟨time, hlog⟩

theorem Tracked.live_of_active (h : s.Tracked) (hl : s.links.get? peer = some link)
    (ha : s.status link = some .active) : s.Live peer link :=
  ⟨h.handedOut hl, h.owned peer link hl, ha⟩

@[simp] theorem status_setStatus_self (s : LinkPool) (link : LinkRef) (status : LinkStatus) :
    (s.setStatus link status).status link = (s.created link).map fun _ => status := by
  rw [LinkPool.status, created_setStatus_self, Option.map_map]
  rfl

theorem status_setStatus_ne (s : LinkPool) {link link' : LinkRef} (status : LinkStatus)
    (h : link' ≠ link) : (s.setStatus link status).status link' = s.status link' := by
  rw [LinkPool.status, created_setStatus_ne s status h]
  rfl

namespace Sound

theorem setCall (h : s.Sound) {call : PoolCall}
    (hphase : ∀ link start, call.phase ≠ .establishing link start) : (s.setCall c call).Sound := by
  have hother {c' call' link start} (hc : (s.setCall c call).calls c' = some call')
      (hp : call'.phase = .establishing link start) : s.calls c' = some call' := by
    by_cases he : c' = c
    · subst he
      obtain rfl := Option.some.inj ((s.calls_setCall_self c' call).symm.trans hc)
      exact absurd hp (hphase link start)
    · exact (s.calls_setCall_ne call he).symm.trans hc
  constructor
  · exact h.tracked.setCall fun link start hp => absurd hp (hphase link start)
  · exact h.issued
  · exact fun c' call' link start hc hp => h.unused c' call' link start (hother hc hp) hp
  · exact fun c₁ c₂ call₁ call₂ link start₁ start₂ h₁ h₂ hp₁ hp₂ =>
      h.separate c₁ c₂ call₁ call₂ link start₁ start₂ (hother h₁ hp₁) (hother h₂ hp₂) hp₁ hp₂
  · exact h.timestamped

theorem nextCall (h : s.Sound) (n : ℕ) : { s with nextCall := n }.Sound :=
  ⟨h.tracked.nextCall n, h.issued, h.unused, h.separate, h.timestamped⟩

theorem setStatus (h : s.Sound) (link : LinkRef) (status : LinkStatus) :
    (s.setStatus link status).Sound := by
  refine ⟨h.tracked.setStatus link status, fun link' hl => ?_, h.unused, h.separate, h.timestamped⟩
  have hcreated := h.issued link' hl
  by_cases he : link' = link
  · subst he
    rw [created_setStatus_self]
    exact fun hn => hcreated (Option.map_eq_none_iff.mp hn)
  · rwa [created_setStatus_ne s status he]

theorem forget (h : s.Sound) (peer : Bytes) :
    { s with links := s.links.erase peer, health := s.health.erase peer }.Sound := by
  refine ⟨h.tracked.forget peer, h.issued, h.unused, h.separate, fun peer' => ?_⟩
  rw [Dict.mem_keys_erase, Dict.mem_keys_erase, h.timestamped peer']

theorem record (h : s.Sound) {e : LinkEvent} (he : ∀ link time, e ≠ .handedOut link time) :
    { s with log := e :: s.log }.Sound := by
  have hmem {link} (hl : HandedOut { s with log := e :: s.log } link) : s.HandedOut link := by
    obtain ⟨time, hl⟩ := hl
    exact ⟨time, (List.mem_cons.mp hl).resolve_left fun hh => he link time hh.symm⟩
  exact ⟨h.tracked.record he, fun link hl => h.issued link (hmem hl),
    fun c call link start hc hp hl => h.unused c call link start hc hp (hmem hl), h.separate,
    h.timestamped⟩

theorem handedOut_handOut {link' : LinkRef} :
    (s.handOut c peer link).HandedOut link' ↔ link' = link ∨ s.HandedOut link' := by
  constructor
  · rintro ⟨time, hl⟩
    rcases List.mem_cons.mp hl with hl | hl
    · exact .inl (LinkEvent.handedOut.inj hl).1
    · exact .inr ⟨time, hl⟩
  · rintro (rfl | ⟨time, hl⟩)
    · exact ⟨s.time, List.mem_cons_self⟩
    · exact ⟨time, List.mem_cons_of_mem _ hl⟩

theorem handOut (h : s.Sound) (hown : s.owner link = some peer)
    (halone : ∀ c' call start, c' ≠ c → s.calls c' = some call →
      call.phase ≠ .establishing link start) : (s.handOut c peer link).Sound := by
  have hother {c' call link' start} (hc : (s.handOut c peer link).calls c' = some call)
      (hp : call.phase = .establishing link' start) : c' ≠ c ∧ s.calls c' = some call := by
    by_cases he : c' = c
    · subst he
      obtain rfl := Option.some.inj ((calls_setCall_self _ c' _).symm.trans hc)
      cases hp
    · exact ⟨he, (calls_setCall_ne _ _ he).symm.trans hc⟩
  constructor
  · exact h.tracked.handOut hown
  · intro link' hl
    rcases handedOut_handOut.mp hl with rfl | hl
    · intro hn
      rw [owner, show s.created link' = none from hn] at hown
      cases hown
    · exact h.issued link' hl
  · intro c' call link' start hc hp hl
    obtain ⟨hne, hold⟩ := hother hc hp
    rcases handedOut_handOut.mp hl with rfl | hl
    · exact halone c' call start hne hold hp
    · exact h.unused c' call link' start hold hp hl
  · exact fun c₁ c₂ call₁ call₂ link start₁ start₂ h₁ h₂ hp₁ hp₂ =>
      h.separate c₁ c₂ call₁ call₂ link start₁ start₂ (hother h₁ hp₁).2 (hother h₂ hp₂).2 hp₁ hp₂
  · intro peer'
    exact Dict.mem_keys_set s.health |>.trans
      ((or_congr_right (h.timestamped peer')).trans (Dict.mem_keys_set s.links).symm)

theorem create (h : s.Sound) (peer : Bytes) (start : ℕ) :
    ({ s with
      created := Function.update s.created s.nextLink (some { peer })
      nextLink := s.nextLink + 1
    }.setCall c ⟨peer, .establishing s.nextLink start⟩).Sound := by
  have hnew : ¬ s.HandedOut s.nextLink := fun hl =>
    h.issued _ hl (h.tracked.fresh s.nextLink le_rfl)
  have hbusy {c' call start'} (hc : s.calls c' = some call) :
      call.phase ≠ .establishing s.nextLink start' := by
    intro hp
    have hown := h.tracked.establishing c' call s.nextLink start' hc hp
    rw [owner, h.tracked.fresh s.nextLink le_rfl] at hown
    cases hown
  have hcases {c' call} (hc : ({ s with
      created := Function.update s.created s.nextLink (some { peer })
      nextLink := s.nextLink + 1
    }.setCall c ⟨peer, .establishing s.nextLink start⟩).calls c' = some call) :
      (c' = c ∧ call = ⟨peer, .establishing s.nextLink start⟩) ∨ s.calls c' = some call := by
    by_cases he : c' = c
    · subst he
      exact .inl ⟨rfl, (Option.some.inj ((calls_setCall_self _ c' _).symm.trans hc)).symm⟩
    · exact .inr ((calls_setCall_ne _ _ he).symm.trans hc)
  constructor
  · exact h.tracked.create peer start
  · intro link hl
    by_cases he : link = s.nextLink
    · subst he
      exact absurd hl hnew
    · exact (Function.update_of_ne he _ _).trans_ne (h.issued link hl)
  · intro c' call link start' hc hp hl
    rcases hcases hc with ⟨-, rfl⟩ | hc
    · obtain ⟨rfl, -⟩ := PoolPhase.establishing.inj hp
      exact hnew hl
    · exact h.unused c' call link start' hc hp hl
  · intro c₁ c₂ call₁ call₂ link start₁ start₂ h₁ h₂ hp₁ hp₂
    rcases hcases h₁ with ⟨rfl, rfl⟩ | hold₁
    · obtain ⟨rfl, -⟩ := PoolPhase.establishing.inj hp₁
      rcases hcases h₂ with ⟨rfl, -⟩ | hold₂
      · rfl
      · exact absurd hp₂ (hbusy hold₂)
    · rcases hcases h₂ with ⟨rfl, rfl⟩ | hold₂
      · obtain ⟨rfl, -⟩ := PoolPhase.establishing.inj hp₂
        exact absurd hp₁ (hbusy hold₁)
      · exact h.separate c₁ c₂ call₁ call₂ link start₁ start₂ hold₁ hold₂ hp₁ hp₂
  · exact h.timestamped

theorem createLink (h : s.Sound) (c : ℕ) (peer : Bytes) (identity : Bool) :
    (s.createLink c peer identity).Sound := by
  cases identity <;> exact h.setCall (by rintro _ _ ⟨⟩)

theorem evict (h : s.Sound) (peer : Bytes) : (s.evict peer).Sound := by
  rw [LinkPool.evict]
  split
  · exact ((h.setStatus _ .closed).forget peer).record (by rintro _ _ ⟨⟩)
  · exact h

theorem monitorLinks (h : s.Sound) : s.monitorLinks.Sound := by
  rw [LinkPool.monitorLinks]
  generalize s.dead = peers
  induction peers generalizing s with
  | nil => exact h
  | cons peer peers ih => exact ih (h.evict peer)

end Sound

theorem Sound.handOut_established (h : s.Sound) {call : PoolCall} {start : ℕ}
    (hc : s.calls c = some call) (hp : call.phase = .establishing link start) :
    (s.handOut c call.peer link).Sound :=
  h.handOut (h.tracked.establishing c call link start hc hp) fun c' call' start' hne hc' hp' =>
    hne (h.separate c' c call' call link start' start hc' hc hp' hp)

theorem Sound.handOut_pooled (h : s.Sound) (hl : s.links.get? peer = some link) :
    (s.handOut c peer link).Sound :=
  h.handOut (h.tracked.owned peer link hl) fun c' call start _ hc hp =>
    h.unused c' call link start hc hp (h.tracked.handedOut hl)

theorem Sound.step {l : Label} (h : s.Sound) (hs : step s l = some t) : t.Sound := by
  cases l with
  | getLink peer identity =>
    obtain rfl := Option.some.inj hs
    have hc := h.nextCall (s.nextCall + 1)
    rw [LinkPool.getLink]
    cases hl : s.links.get? peer with
    | none => exact hc.createLink _ peer identity
    | some link =>
      simp only
      split
      · exact hc.handOut_pooled hl
      · exact (hc.forget peer).createLink _ peer identity
  | pollPath c hasPath =>
    obtain ⟨call, hc, hs⟩ := Option.bind_eq_some_iff.mp hs
    split at hs
    · split at hs
      · exact Option.some.inj hs ▸ h.create call.peer _
      · split at hs
        · exact Option.some.inj hs ▸ h
        · exact Option.some.inj hs ▸ h.setCall (by rintro _ _ ⟨⟩)
    · cases hs
  | pollLink c =>
    obtain ⟨call, hc, hs⟩ := Option.bind_eq_some_iff.mp hs
    split at hs
    · rename_i link start hp
      split at hs
      · exact Option.some.inj hs ▸ (h.setStatus link .closed).setCall (by rintro _ _ ⟨⟩)
      · split at hs
        · exact Option.some.inj hs ▸ h.handOut_established hc hp
        · exact Option.some.inj hs ▸ h.setCall (by rintro _ _ ⟨⟩)
        · exact Option.some.inj hs ▸ h
    · cases hs
  | linkStatus link status =>
    simp only [LinkPool.step] at hs
    split at hs
    · cases hs
    · exact Option.some.inj hs ▸ h.setStatus link status
  | packet link =>
    simp only [LinkPool.step, LinkPool.packet] at hs
    split at hs
    · cases hs
    · cases hs
    · exact Option.some.inj hs ▸ h.record (by rintro _ _ ⟨⟩)
  | monitorLinks => exact Option.some.inj hs ▸ h.monitorLinks
  | tick ms =>
    obtain rfl := Option.some.inj hs
    exact ⟨h.tracked.step (l := .tick ms) rfl, h.issued, h.unused, h.separate, h.timestamped⟩

theorem not_returned (h : t.calls = s.calls) {r : Option LinkRef} : ¬ Returned s t peer r := by
  rintro ⟨c, -, hne⟩
  exact hne (congrFun h c).symm

theorem returned_setCall {call : PoolCall} {r : Option LinkRef}
    (h : Returned s (s.setCall c call) peer r) : call = ⟨peer, .returned r⟩ := by
  obtain ⟨c', hc, hne⟩ := h
  by_cases he : c' = c
  · subst he
    exact Option.some.inj ((s.calls_setCall_self c' call).symm.trans hc)
  · exact absurd (s.calls_setCall_ne call he).symm hne

theorem returned_of_setCall {call : PoolCall} {r : Option LinkRef} {phase : PoolPhase}
    (hc : s.calls c = some call) (hp : call.phase = phase) (hne : phase ≠ .returned r) :
    Returned s (t.setCall c { call with phase := .returned r }) call.peer r := by
  refine ⟨c, calls_setCall_self .., fun he => hne ?_⟩
  rw [hc, calls_setCall_self] at he
  exact hp.symm.trans (congrArg PoolCall.phase (Option.some.inj he))

theorem oneLink_ended (hp : s.Pooled) (hnone : ∀ link, ¬ s.Live peer link) (ht : t.Timestamped)
    (hlive : ∀ peer' link, t.Live peer' link → s.Live peer' link)
    (hlinks : ∀ peer', peer' ≠ peer → t.links.get? peer' = s.links.get? peer')
    (hret : ∀ peer' r, Returned s t peer' r → peer' = peer) : OneLink s t := by
  refine ⟨fun peer' r hr link hl => ?_, fun peer' link hl => ?_, ht⟩
  · obtain rfl := hret peer' r hr
    exact absurd (hlive _ _ hl) (hnone link)
  · have hne : peer' ≠ peer := by
      rintro rfl
      exact hnone link (hlive _ _ hl)
    rw [hlinks peer' hne]
    exact hp peer' link (hlive _ _ hl)

/-- A link that is handed out stays alone if there is no other live link of its peer. -/
theorem oneLink_handOut (hp : s.Pooled) (hown : s.owner link = some peer)
    (hsole : ∀ link', s.Live peer link' → link' = link) (ht : (s.handOut c peer link).Sound) :
    OneLink s (s.handOut c peer link) := by
  have hlive {peer' link'} (hl : (s.handOut c peer link).Live peer' link') :
      (peer' = peer ∧ link' = link) ∨ s.Live peer' link' := by
    obtain ⟨hout, hown', ha⟩ := hl
    rcases Sound.handedOut_handOut.mp hout with rfl | hout
    · have hsame : s.owner link' = some peer' := hown'
      exact .inl ⟨Option.some.inj (hsame.symm.trans hown), rfl⟩
    · exact .inr ⟨hout, hown', ha⟩
  constructor
  · intro peer' r hr link' hl
    have hcall := returned_setCall (s := { s with
      links := s.links.set peer link
      health := s.health.set peer s.time
      log := .handedOut link s.time :: s.log }) hr
    obtain ⟨rfl, hphase⟩ := PoolCall.mk.inj hcall
    rcases hlive hl with ⟨-, rfl⟩ | hl
    · exact (PoolPhase.returned.inj hphase).symm
    · rw [hsole link' hl]
      exact (PoolPhase.returned.inj hphase).symm
  · intro peer' link' hl
    refine (Dict.get?_set ..).trans ?_
    split
    · rename_i he
      rcases hlive hl with ⟨-, rfl⟩ | hl
      · rfl
      · rw [hsole link' (he ▸ hl)]
    · rename_i he
      rcases hlive hl with ⟨he', -⟩ | hl
      · exact absurd he' he
      · exact hp peer' link' hl
  · exact ht.timestamped

theorem oneLink_getLink (h : s.Sound) (hp : s.Pooled) (peer : Bytes) (identity : Bool) :
    OneLink s (s.getLink peer identity) := by
  have ht : (s.getLink peer identity).Sound := h.step (l := .getLink peer identity) rfl
  rw [getLink] at ht ⊢
  cases hl : s.links.get? peer with
  | none =>
    rw [hl] at ht
    have hnone (link) : ¬ s.Live peer link := by
      intro hlive
      cases hl.symm.trans (hp peer link hlive)
    refine oneLink_ended hp hnone ht.timestamped (fun _ _ hlive => hlive) (fun _ _ => rfl) ?_
    exact fun peer' r hr => (PoolCall.mk.inj (returned_setCall (s := { s with
      nextCall := s.nextCall + 1 }) hr)).1.symm
  | some link =>
    rw [hl] at ht
    simp only at ht ⊢
    split
    · rename_i ha
      rw [if_pos ha] at ht
      have hone := oneLink_handOut (s := { s with nextCall := s.nextCall + 1 }) hp
        (h.tracked.owned peer link hl)
        (fun link' hlive => Option.some.inj ((hp peer link' hlive).symm.trans hl)) ht
      exact ⟨hone.agreed, hone.pooled, hone.timestamped⟩
    · rename_i ha
      rw [if_neg ha] at ht
      have hnone (link') : ¬ s.Live peer link' := by
        intro hlive
        obtain rfl := Option.some.inj ((hp peer link' hlive).symm.trans hl)
        exact ha hlive.2.2
      refine oneLink_ended hp hnone ht.timestamped (fun _ _ hlive => hlive)
        (fun peer' hne => s.links.get?_erase_ne hne) ?_
      exact fun peer' r hr => (PoolCall.mk.inj (returned_setCall (s := { s with
        nextCall := s.nextCall + 1
        links := s.links.erase peer
        health := s.health.erase peer }) hr)).1.symm

theorem oneLink_quiet (hret : ∀ peer r, ¬ Returned s t peer r) (hp : t.Pooled)
    (ht : t.Timestamped) : OneLink s t :=
  ⟨fun peer r hr => absurd hr (hret peer r), hp, ht⟩

theorem not_oneLink_of_returned {r : Option LinkRef} (hr : Returned s t peer r)
    (hl : t.Live peer link) (hne : r ≠ some link) : ¬ OneLink s t :=
  fun h => hne (h.agreed peer r hr link hl)

theorem Pooled.setStatus (hp : s.Pooled) (link : LinkRef) {status : LinkStatus}
    (hs : status = .active → s.HandedOut link → ∃ peer, s.links.get? peer = some link)
    (h : s.Sound) : (s.setStatus link status).Pooled := by
  rintro peer link' ⟨hout, hown, ha⟩
  rw [owner_setStatus] at hown
  by_cases he : link' = link
  · subst he
    rw [status_setStatus_self] at ha
    obtain ⟨_, -, rfl⟩ := Option.map_eq_some_iff.mp ha
    obtain ⟨peer', hl⟩ := hs rfl hout
    obtain rfl := Option.some.inj ((h.tracked.owned peer' link' hl).symm.trans hown)
    exact hl
  · rw [status_setStatus_ne s status he] at ha
    exact hp peer link' ⟨hout, hown, ha⟩

theorem live_setStatus_iff {own : LinkRef} (hunused : ¬ s.HandedOut own) (status : LinkStatus) :
    (s.setStatus own status).Live peer link ↔ s.Live peer link := by
  have hne (hout : s.HandedOut link) : link ≠ own := by
    rintro rfl
    exact hunused hout
  unfold Live
  rw [owner_setStatus]
  refine and_congr_right fun hout => ?_
  rw [status_setStatus_ne s status (hne hout)]

theorem ending_of_quiet {l : Label} (h : s.ending l = none)
    (hl : ∀ link, l ≠ .linkStatus link .active) : ¬ s.Doubles l := by
  rintro (⟨peer, he, -⟩ | ⟨link, he, -⟩)
  · rw [h] at he
    cases he
  · exact hl link he

/-- A step at which a suspended call returns is bad if the pooled link of its peer is active. -/
theorem doubles_of_ending {l : Label} (h : s.ending l = some peer)
    (hl : ∀ link, l ≠ .linkStatus link .active) :
    s.Doubles l ↔ ∃ link, s.links.get? peer = some link ∧ s.status link = some .active := by
  constructor
  · rintro (⟨peer', he, hlink⟩ | ⟨link, he, -⟩)
    · obtain rfl := Option.some.inj (h.symm.trans he)
      exact hlink
    · exact absurd he (hl link)
  · exact fun hlink => .inl ⟨peer, h, hlink⟩

theorem not_live_of_pooled (hp : s.Pooled)
    (hno : ¬ ∃ link, s.links.get? peer = some link ∧ s.status link = some .active)
    (link : LinkRef) : ¬ s.Live peer link :=
  fun hl => hno ⟨link, hp peer link hl, hl.2.2⟩

theorem oneLink_pollPath_iff (h : s.Sound) (hp : s.Pooled) {hasPath : Bool}
    (hs : s.pollPath c hasPath = some t) : OneLink s t ↔ ¬ s.Doubles (.pollPath c hasPath) := by
  have ht : t.Sound := h.step (l := .pollPath c hasPath) hs
  obtain ⟨call, hc, hs⟩ := Option.bind_eq_some_iff.mp hs
  split at hs
  case h_2 => cases hs
  case h_1 start hphase =>
    have hend : s.ending (.pollPath c hasPath) =
        if hasPath = false ∧ PATH_TIMEOUT ≤ s.time - start then some call.peer else none := by
      rw [ending, hc]
      simp only [Option.bind_some, hphase]
    split at hs
    · rename_i hpath
      obtain rfl := Option.some.inj hs
      refine iff_of_true (oneLink_quiet (fun peer r hr => ?_) ?_ ht.timestamped) ?_
      · have hcall := returned_setCall (s := { s with
          created := Function.update s.created s.nextLink (some { peer := call.peer })
          nextLink := s.nextLink + 1 }) hr
        cases (PoolCall.mk.inj hcall).2
      · rintro peer link ⟨hout, hown, ha⟩
        have hne : link ≠ s.nextLink := by
          rintro rfl
          exact h.issued _ hout (h.tracked.fresh _ le_rfl)
        have hcreated : Function.update s.created s.nextLink (some { peer := call.peer }) link =
            s.created link := Function.update_of_ne hne _ _
        exact hp peer link ⟨hout, (congrArg (Option.map Link.peer) hcreated).symm.trans hown,
          (congrArg (Option.map Link.status) hcreated).symm.trans ha⟩
      · refine ending_of_quiet (hend.trans (if_neg ?_)) (by rintro _ ⟨⟩)
        rw [hpath]
        rintro ⟨⟨⟩, -⟩
    · rename_i hpath
      split at hs
      · rename_i hlt
        obtain rfl := Option.some.inj hs
        refine iff_of_true (oneLink_quiet (fun _ _ => not_returned rfl) hp ht.timestamped) ?_
        exact ending_of_quiet (hend.trans (if_neg fun hle => by omega)) (by rintro _ ⟨⟩)
      · rename_i hge
        obtain rfl := Option.some.inj hs
        have hend : s.ending (.pollPath c hasPath) = some call.peer :=
          hend.trans (if_pos ⟨Bool.eq_false_iff.mpr hpath, not_lt.mp hge⟩)
        rw [doubles_of_ending hend (by rintro _ ⟨⟩)]
        constructor
        · rintro hone ⟨link, hl, ha⟩
          have hret := returned_of_setCall (t := s) (r := none) hc hphase (by rintro ⟨⟩)
          exact not_oneLink_of_returned hret (h.tracked.live_of_active hl ha) (by rintro ⟨⟩) hone
        · intro hno
          refine oneLink_ended hp (not_live_of_pooled hp hno) ht.timestamped (fun _ _ hl => hl)
            (fun _ _ => rfl) ?_
          exact fun peer' r hr => (PoolCall.mk.inj (returned_setCall hr)).1.symm

theorem oneLink_pollLink_iff (h : s.Sound) (hp : s.Pooled) (hs : s.pollLink c = some t) :
    OneLink s t ↔ ¬ s.Doubles (.pollLink c) := by
  have ht : t.Sound := h.step (l := .pollLink c) hs
  obtain ⟨call, hc, hs⟩ := Option.bind_eq_some_iff.mp hs
  split at hs
  case h_2 => cases hs
  case h_1 own start hphase =>
    have hend : s.ending (.pollLink c) =
        if LINK_TIMEOUT < s.time - start ∨ s.status own = some .active ∨
          s.status own = some .closed then some call.peer else none := by
      rw [ending, hc]
      simp only [Option.bind_some, hphase]
    have hunused : ¬ s.HandedOut own := h.unused c call own start hc hphase
    split at hs
    · rename_i hlate
      obtain rfl := Option.some.inj hs
      rw [doubles_of_ending (hend.trans (if_pos (.inl hlate))) (by rintro _ ⟨⟩)]
      have hlive {peer link} : ((s.setStatus own .closed).setCall c
          { call with phase := .returned none }).Live peer link ↔ s.Live peer link :=
        live_setStatus_iff hunused .closed
      constructor
      · rintro hone ⟨link, hl, ha⟩
        have hret := returned_of_setCall (t := s.setStatus own .closed) (r := none) hc hphase
          (by rintro ⟨⟩)
        exact not_oneLink_of_returned hret (hlive.mpr (h.tracked.live_of_active hl ha))
          (by rintro ⟨⟩) hone
      · intro hno
        refine oneLink_ended hp (not_live_of_pooled hp hno) ht.timestamped (fun _ _ => hlive.mp)
          (fun _ _ => rfl) ?_
        exact fun peer' r hr =>
          (PoolCall.mk.inj (returned_setCall (s := s.setStatus own .closed) hr)).1.symm
    · rename_i hlate
      split at hs
      · rename_i ha
        obtain rfl := Option.some.inj hs
        rw [doubles_of_ending (hend.trans (if_pos (.inr (.inl ha)))) (by rintro _ ⟨⟩)]
        have hown := h.tracked.establishing c call own start hc hphase
        constructor
        · rintro hone ⟨link, hl, hactive⟩
          have hlive := h.tracked.live_of_active hl hactive
          have hret := returned_of_setCall (t := { s with
            links := s.links.set call.peer own
            health := s.health.set call.peer s.time
            log := .handedOut own s.time :: s.log }) (r := some own) hc hphase (by rintro ⟨⟩)
          have hlive' : (s.handOut c call.peer own).Live call.peer link :=
            ⟨Sound.handedOut_handOut.mpr (.inr hlive.1), hlive.2⟩
          refine not_oneLink_of_returned hret hlive' (fun he => hunused ?_) hone
          exact Option.some.inj he ▸ hlive.1
        · intro hno
          refine oneLink_handOut hp hown (fun link' hlive => ?_) ht
          exact absurd hlive (not_live_of_pooled hp hno link')
      · rename_i hclosed
        obtain rfl := Option.some.inj hs
        rw [doubles_of_ending (hend.trans (if_pos (.inr (.inr hclosed)))) (by rintro _ ⟨⟩)]
        constructor
        · rintro hone ⟨link, hl, ha⟩
          have hret := returned_of_setCall (t := s) (r := none) hc hphase (by rintro ⟨⟩)
          exact not_oneLink_of_returned hret (h.tracked.live_of_active hl ha) (by rintro ⟨⟩) hone
        · intro hno
          refine oneLink_ended hp (not_live_of_pooled hp hno) ht.timestamped (fun _ _ hl => hl)
            (fun _ _ => rfl) ?_
          exact fun peer' r hr => (PoolCall.mk.inj (returned_setCall hr)).1.symm
      · rename_i hactive hclosed
        obtain rfl := Option.some.inj hs
        refine iff_of_true (oneLink_quiet (fun _ _ => not_returned rfl) hp ht.timestamped) ?_
        refine ending_of_quiet (hend.trans (if_neg ?_)) (by rintro _ ⟨⟩)
        rintro (hl | ha | hc)
        · exact hlate hl
        · exact hactive ha
        · exact hclosed hc

theorem oneLink_linkStatus_iff (h : s.Sound) (hp : s.Pooled) {status : LinkStatus}
    (hs : s.step (.linkStatus link status) = some t) :
    OneLink s t ↔ ¬ s.Doubles (.linkStatus link status) := by
  have ht : t.Sound := h.step hs
  simp only [LinkPool.step] at hs
  split at hs
  · cases hs
  · obtain rfl := Option.some.inj hs
    constructor
    · rintro hone (⟨peer, he, -⟩ | ⟨link', he, hout, hno⟩)
      · cases he
      · obtain ⟨rfl, rfl⟩ := Label.linkStatus.inj he
        obtain ⟨l, hl⟩ := Option.ne_none_iff_exists'.mp (h.issued link hout)
        refine hno l.peer (hone.pooled l.peer link ⟨hout, ?_, ?_⟩)
        · rw [owner_setStatus, owner, hl]
          rfl
        · rw [status_setStatus_self, hl]
          rfl
    · intro hbad
      refine oneLink_quiet (fun _ _ => not_returned rfl) ?_ ht.timestamped
      refine hp.setStatus link (fun he hout => ?_) h
      by_contra hno
      exact hbad (.inr ⟨link, he ▸ rfl, hout, fun peer hl => hno ⟨peer, hl⟩⟩)

theorem Pooled.evict (hp : s.Pooled) (h : s.Sound) (peer : Bytes) : (s.evict peer).Pooled := by
  rw [LinkPool.evict]
  split
  · rename_i own hl
    rintro peer' link ⟨⟨time, hout⟩, hown, ha⟩
    have hout : s.HandedOut link := ⟨time, (List.mem_cons.mp hout).resolve_left (by rintro ⟨⟩)⟩
    have hclosed : (s.setStatus own .closed).Pooled := hp.setStatus own (by rintro ⟨⟩) h
    have hlive := hclosed peer' link ⟨hout, hown, ha⟩
    have hne : peer' ≠ peer := by
      rintro rfl
      obtain rfl := Option.some.inj (hl.symm.trans hlive)
      have hactive : (s.setStatus own .closed).status own = some .active := ha
      rw [status_setStatus_self] at hactive
      obtain ⟨_, -, he⟩ := Option.map_eq_some_iff.mp hactive
      cases he
    exact (s.links.get?_erase_ne hne).trans hlive
  · exact hp

theorem Pooled.monitorLinks (hp : s.Pooled) (h : s.Sound) : s.monitorLinks.Pooled := by
  rw [LinkPool.monitorLinks]
  generalize s.dead = peers
  induction peers generalizing s with
  | nil => exact hp
  | cons peer peers ih => exact ih (hp.evict h peer) (h.evict peer)

theorem calls_evict (s : LinkPool) (peer : Bytes) : (s.evict peer).calls = s.calls := by
  rw [evict]
  split <;> rfl

theorem calls_monitorLinks (s : LinkPool) : s.monitorLinks.calls = s.calls := by
  rw [monitorLinks]
  generalize s.dead = peers
  induction peers generalizing s with
  | nil => rfl
  | cons peer peers ih => exact (ih (s.evict peer)).trans (s.calls_evict peer)

/-- A step keeps one live link for each peer if and only if it is not one that doubles a link. -/
theorem oneLink_iff {l : Label} (h : s.Sound) (hp : s.Pooled) (hs : s.step l = some t) :
    OneLink s t ↔ ¬ s.Doubles l := by
  have ht : t.Sound := h.step hs
  cases l with
  | getLink peer identity =>
    obtain rfl := Option.some.inj hs
    exact iff_of_true (oneLink_getLink h hp peer identity) (ending_of_quiet rfl (by rintro _ ⟨⟩))
  | pollPath c hasPath => exact oneLink_pollPath_iff h hp hs
  | pollLink c => exact oneLink_pollLink_iff h hp hs
  | linkStatus link status => exact oneLink_linkStatus_iff h hp hs
  | packet link =>
    refine iff_of_true ?_ (ending_of_quiet rfl (by rintro _ ⟨⟩))
    simp only [LinkPool.step, LinkPool.packet] at hs
    split at hs
    · cases hs
    · cases hs
    · obtain rfl := Option.some.inj hs
      refine oneLink_quiet (fun _ _ => not_returned rfl) ?_ ht.timestamped
      rintro peer link' ⟨⟨time, hout⟩, hlive⟩
      exact hp peer link' ⟨⟨time, (List.mem_cons.mp hout).resolve_left (by rintro ⟨⟩)⟩, hlive⟩
  | monitorLinks =>
    obtain rfl := Option.some.inj hs
    refine iff_of_true ?_ (ending_of_quiet rfl (by rintro _ ⟨⟩))
    exact oneLink_quiet (fun _ _ => not_returned s.calls_monitorLinks) (hp.monitorLinks h)
      ht.timestamped
  | tick ms =>
    obtain rfl := Option.some.inj hs
    refine iff_of_true ?_ (ending_of_quiet rfl (by rintro _ ⟨⟩))
    exact oneLink_quiet (fun _ _ => not_returned rfl) hp ht.timestamped

/-- A pool keeps one live link for each peer all through a run if and only if no suspended call
returns while the pooled link of its peer is active and no link that left the table becomes active
again. -/
theorem one_link_iff {ls : List Label} (hs : s.Initial) (h : Run step anyStep s ls t) :
    (∀ e ∈ trace step s ls, OneLink e.1 e.2.2) ↔ ∀ e ∈ trace step s ls, ¬ e.1.Doubles e.2.1 :=
  h.trace_iff (I := fun s => s.Sound ∧ s.Pooled) (P := fun s _ t => OneLink s t)
    ⟨hs.sound, hs.pooled⟩ (fun _ _ _ hi _ hst hone => ⟨hi.1.step hst, hone.pooled⟩)
    fun _ _ _ hi _ hst => oneLink_iff hi.1 hi.2 hst

def successive : List Label :=
  [.getLink busyPeer true, .pollPath 0 true, .linkStatus 0 .active, .pollLink 0,
    .getLink busyPeer true]

theorem successive_run : ∃ t, Run step (fun s l => ¬ s.Doubles l) {} successive t := by
  refine ⟨_, .cons ?_ rfl (.cons ?_ rfl (.cons ?_ rfl (.cons ?_ rfl (.cons ?_ rfl (.nil _)))))⟩
  · exact ending_of_quiet rfl (by rintro _ ⟨⟩)
  · exact ending_of_quiet rfl (by rintro _ ⟨⟩)
  · rintro (⟨peer, he, -⟩ | ⟨link, -, ⟨time, hl⟩, -⟩)
    · cases he
    · cases hl
  · rintro (⟨peer, he, link, hl, -⟩ | ⟨link, he, -⟩)
    · obtain rfl : busyPeer = peer := Option.some.inj he
      cases hl
    · cases he
  · exact ending_of_quiet rfl (by rintro _ ⟨⟩)

theorem successive_one_link : ∃ t, Run step anyStep {} successive t ∧
    ∀ e ∈ trace step {} successive, OneLink e.1 e.2.2 := by
  obtain ⟨t, ht⟩ := successive_run
  have hrun : Run step anyStep {} successive t := ht.mono fun _ _ _ => trivial
  exact ⟨t, hrun, (one_link_iff initial_empty hrun).mpr fun e he => (ht.of_mem_trace he).1⟩

/-- The second call comes while the first one waits for its link, and both links are established. -/
def overlapping : List Label :=
  [.getLink busyPeer true, .getLink busyPeer true, .pollPath 0 true, .pollPath 1 true,
    .linkStatus 0 .active, .linkStatus 1 .active, .pollLink 0]

def overlapped : LinkPool := (exec step {} overlapping).getD {}

/-- The calls return two links, and the first one is active but not in the table. -/
theorem overlapping_two_links :
    ∃ t, (overlapped, .pollLink 1, t) ∈ trace step {} (overlapping ++ [.pollLink 1]) ∧
      t.Live busyPeer 0 ∧ t.Live busyPeer 1 ∧ t.links.get? busyPeer = some 1 ∧
      ¬ OneLink overlapped t := by
  have hrun : Run step anyStep {} overlapping overlapped := run_of_exec rfl
  obtain ⟨t, ht⟩ := Option.isSome_iff_exists.mp
    (show (step overlapped (.pollLink 1)).isSome by decide)
  have hlinks : (step overlapped (.pollLink 1)).map (·.links.get? busyPeer) = some (some 1) := by
    decide
  have hlog : (step overlapped (.pollLink 1)).map LinkPool.log =
      some [.handedOut 1 0, .handedOut 0 0] := by decide
  have hstate : (step overlapped (.pollLink 1)).map (fun t => (t.created 0, t.created 1)) =
      some (some ⟨busyPeer, .active⟩, some ⟨busyPeer, .active⟩) := by decide
  rw [ht, Option.map_some, Option.some.injEq] at hlinks hlog hstate
  obtain ⟨hfirst, hsecond⟩ := Prod.mk.inj hstate
  have hlive : t.Live busyPeer 0 := ⟨⟨0, by rw [hlog]; decide⟩, by rw [owner, hfirst]; rfl,
    by rw [LinkPool.status, hfirst]; rfl⟩
  have hlive' : t.Live busyPeer 1 := ⟨⟨0, by rw [hlog]; decide⟩, by rw [owner, hsecond]; rfl,
    by rw [LinkPool.status, hsecond]; rfl⟩
  refine ⟨t, ?_, hlive, hlive', hlinks, fun h => ?_⟩
  · rw [hrun.trace_append, trace_cons ht]
    exact List.mem_append_right _ List.mem_cons_self
  · cases hlinks.symm.trans (h.pooled busyPeer 0 hlive)

end LinkPool

end RnsIcn
