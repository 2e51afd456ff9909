import RnsIcn.Forwarder.Attempts
import RnsIcn.Forwarder.Attribution

/-! # When a face is left alone

The strategy keeps one record for each face. In a run it says what the log says: the face
failed so many times since its last success, and the last time then. Every attempt that a
run makes is on a next hop that the log did not speak against when its call was made.
-/

namespace RnsIcn

open Transition EventLoop

/-- The times of the failures of a face since its last success, newest first. -/
def failuresOf (face : FaceId) : List Event → List ℕ
  | [] => []
  | .failure _ face' _ time :: log =>
    if face' = face then time :: failuresOf face log else failuresOf face log
  | .success _ face' _ :: log => if face' = face then [] else failuresOf face log
  | _ :: log => failuresOf face log

namespace BestRoute

variable {b : BestRoute}

/-- After `k + 1` failures in a row, the last of them at `time`, the face is left alone for a time
that doubles with `k`, up to a limit. -/
def LeavesAlone (b : BestRoute) (log : List Event) (now : ℕ) (face : FaceId) : Prop :=
  ∃ time earlier, failuresOf face log = time :: earlier ∧
    now < time + min (b.backoffBase * 2 ^ min (earlier.length + 1) 6) b.maxBackoff

theorem learn_backoffBase (e : Event) : (b.learn e).backoffBase = b.backoffBase := by
  cases e <;> rfl

theorem learn_maxBackoff (e : Event) : (b.learn e).maxBackoff = b.maxBackoff := by
  cases e <;> rfl

theorem replay_backoffBase (log : List Event) : (b.replay log).backoffBase = b.backoffBase := by
  induction log with
  | nil => rfl
  | cons e log ih => exact (learn_backoffBase e).trans ih

theorem replay_maxBackoff (log : List Event) : (b.replay log).maxBackoff = b.maxBackoff := by
  induction log with
  | nil => rfl
  | cons e log ih => exact (learn_maxBackoff e).trans ih

theorem get?_replay (hb : b.failures = .empty) (log : List Event) (face : FaceId) :
    (b.replay log).failures.get? face =
      (failuresOf face log).head?.map fun time => ⟨time, (failuresOf face log).length⟩ := by
  induction log with
  | nil =>
    rw [replay, List.foldr_nil, hb]
    rfl
  | cons e log ih =>
    change ((b.replay log).learn e).failures.get? face = _
    cases e with
    | failure c face' name time =>
      rw [learn, recordFailure, failuresOf, Dict.get?_set]
      by_cases hf : face' = face
      · subst hf
        rw [if_pos rfl, if_pos rfl, ih]
        cases failuresOf face' log <;> rfl
      · rw [if_neg (Ne.symm hf), if_neg hf, ih]
    | success c face' d =>
      rw [learn, recordSuccess, failuresOf, Dict.get?_erase]
      by_cases hf : face' = face
      · subst hf
        rw [if_pos rfl, if_pos rfl]
        rfl
      · rw [if_neg (Ne.symm hf), if_neg hf, ih]
    | _ => exact ih

/-- A strategy that learnt from a log backs off from the faces that the log speaks against. -/
theorem isInBackoff_replay (hb : b.failures = .empty) {log : List Event} {now : ℕ}
    {face : FaceId} (hle : ∀ time ∈ failuresOf face log, time ≤ now) :
    (b.replay log).isInBackoff now face = true ↔ b.LeavesAlone log now face := by
  rw [isInBackoff, get?_replay hb, replay_backoffBase, replay_maxBackoff, LeavesAlone]
  cases hf : failuresOf face log with
  | nil => simp
  | cons time earlier =>
    have htime := hle time (by rw [hf]; exact List.mem_cons_self)
    simp only [List.head?_cons, Option.map_some, List.length_cons, decide_eq_true_eq,
      List.cons.injEq]
    constructor
    · exact fun h => ⟨time, earlier, ⟨rfl, rfl⟩, by omega⟩
    · rintro ⟨_, _, ⟨rfl, rfl⟩, h⟩
      omega

theorem mem_usableFaces {now : ℕ} {fibFaces : List (FaceId × ℕ)} {face : FaceId} :
    face ∈ b.usableFaces now fibFaces ↔
      face ∈ fibFaces.map Prod.fst ∧ b.isInBackoff now face = false := by
  rw [usableFaces, List.mem_filter, Bool.not_eq_true']

theorem mem_usableFaces_of_stale {now : ℕ} {i : Interest} {fibFaces : List (FaceId × ℕ)}
    {pitHit : Option PitEntry} {csHit : Option Data} {d : Data} {face : FaceId}
    (h : b.decide now i fibFaces pitHit csHit = .serveStaleRevalidate d face) :
    face ∈ b.usableFaces now fibFaces := by
  rw [decide] at h
  split at h
  · rename_i d' _
    rw [decideCached] at h
    split at h
    · split at h
      · rename_i face' hfirst
        obtain ⟨-, rfl⟩ := StrategyDecision.serveStaleRevalidate.inj h
        exact List.mem_of_mem_head? hfirst
      · cases h
    · cases h
  · rcases b.decidePending_cases now fibFaces pitHit with
      ⟨_, -, -, hd⟩ | ⟨-, _, hd⟩ | hd
    all_goals
      rw [hd] at h
      cases h

end BestRoute

theorem mem_failuresOf {face : FaceId} {log : List Event} {time : ℕ}
    (h : time ∈ failuresOf face log) : ∃ c name, .failure c face name time ∈ log := by
  induction log with
  | nil => cases h
  | cons e log ih =>
    have hold (h : time ∈ failuresOf face log) :
        ∃ c name, .failure c face name time ∈ e :: log := by
      obtain ⟨c, name, hm⟩ := ih h
      exact ⟨c, name, List.mem_cons_of_mem _ hm⟩
    cases e with
    | failure c face' name time' =>
      rw [failuresOf] at h
      split at h
      · rename_i hf
        subst hf
        rcases List.mem_cons.mp h with rfl | h
        · exact ⟨c, name, List.mem_cons_self⟩
        · exact hold h
      · exact hold h
    | success c face' d =>
      rw [failuresOf] at h
      split at h
      · cases h
      · exact hold h
    | _ => exact hold h

def EventLoop.Past (r : EventLoop) : Prop :=
  ∀ c face name time, .failure c face name time ∈ r.log → time ≤ r.monotonic

theorem EventLoop.Past.record {r : EventLoop} (h : r.Past) {e : Event}
    (he : ∀ c face name time, e = .failure c face name time → time ≤ r.monotonic) :
    (r.record e).Past := by
  intro c face name time hm
  rcases List.mem_cons.mp hm with hm | hm
  · exact he c face name time hm.symm
  · exact h c face name time hm

theorem Outcome.past {r r' : EventLoop} {c : CallId} {call : Call} {faces : List FaceId}
    (ho : Outcome r c call faces r') (h : r.Past) : r'.Past := by
  cases ho with
  | failed _ => exact h
  | send _ =>
    refine h.record ?_
    rintro c face name time ⟨⟩

namespace Forwarder

variable {s t : Forwarder} {c : CallId} {call : Call} {l : Label} {r : EventLoop} {face : FaceId}

theorem Ran.past (ran : Ran s c call l r) (h : s.loop.Past) : r.Past := by
  have hfail {r₀ : EventLoop} {face : FaceId} {name : Name} (h₀ : r₀.Past) :
      (r₀.record (.failure c face name r₀.monotonic)).Past := by
    refine h₀.record ?_
    rintro c face name time ⟨⟩
    exact le_rfl
  cases ran with
  | started _ ho => exact ho.past h
  | answered _ _ =>
    refine h.record ?_
    rintro c face name time ⟨⟩
  | nacked _ _ ho => exact ho.past (hfail h)
  | expired _ _ _ ho => exact ho.past (hfail h)
  | _ => exact h

variable [Hashlib]

theorem Change.past (ch : Change s l r) (h : s.loop.Past) : r.Past := by
  have harrival {e : Event} (he : ∀ c face name time, e ≠ .failure c face name time) :
      (s.loop.record e).Past :=
    h.record fun c face name time hf => absurd hf (he c face name time)
  cases ch with
  | routed ho => exact ho.past h
  | ran _ ran => exact ran.past h
  | data _ => exact harrival (by rintro c face name time ⟨⟩)
  | unmatched _ => exact harrival (by rintro c face name time ⟨⟩)
  | nack => exact harrival (by rintro c face name time ⟨⟩)
  | tick => exact fun c face name time hm => (h c face name time hm).trans (Nat.le_add_right _ _)
  | _ => exact h

omit [Hashlib] in
theorem Replays.leavesAlone_iff {b : BestRoute} (h : Replays b s) (hb : b.failures = .empty)
    (hp : s.loop.Past) (face : FaceId) :
    s.strategy.isInBackoff s.loop.monotonic face = true ↔
      b.LeavesAlone s.loop.log s.loop.monotonic face := by
  rw [h]
  refine BestRoute.isInBackoff_replay hb fun time hm => ?_
  obtain ⟨c, name, hm⟩ := mem_failuresOf hm
  exact hp c face name time hm

omit [Hashlib] in
theorem Initial.past (h : s.Initial) : s.loop.Past := by
  intro c face name time hm
  rw [h.log] at hm
  cases hm

omit [Hashlib] in
theorem Initial.replays (h : s.Initial) : Replays s.strategy s := by
  rw [Replays, h.log]
  rfl

/-- A face is in back-off exactly while the log speaks against it: it failed since its last
success, and the time for which so many failures count is not over. -/
theorem isInBackoff_iff {ls : List Label} (hrun : Run step anyStep s ls t) (hi : s.Initial)
    (hempty : s.strategy.failures = .empty) (face : FaceId) :
    t.strategy.isInBackoff t.loop.monotonic face = true ↔
      s.strategy.LeavesAlone t.loop.log t.loop.monotonic face := by
  have hinv := hrun.invariant (I := fun u => Replays s.strategy u ∧ u.loop.Past)
    ⟨hi.replays, hi.past⟩ fun _ _ _ h _ hs => ⟨h.1.step hs, (step_change hs).past h.2⟩
  exact hinv.1.leavesAlone_iff hempty hinv.2 face

omit [Hashlib] in
theorem silent_face_inBackoff :
    letI := Data.paddedHash
    ∃ t, Run step anyStep (relay [1]) [.express (request 1 4) 7 [], .sent 0, .tick 4 0,
        .timeout 0, .tick 3 0] t ∧
      (t.strategy.isInBackoff t.loop.monotonic 1 = true ↔
        (relay [1]).strategy.LeavesAlone t.loop.log t.loop.monotonic 1) ∧
      t.strategy.isInBackoff t.loop.monotonic 1 = true := by
  let := Data.paddedHash
  have hrun : Run step anyStep (relay [1]) [.express (request 1 4) 7 [], .sent 0,
    .tick 4 0, .timeout 0, .tick 3 0] _ := run_of_exec rfl
  exact ⟨_, hrun, isInBackoff_iff hrun (relay_initial [1]) rfl 1, by decide +kernel⟩

end Forwarder

/-- The next hops that a call has left. -/
def Phase.nextHops : Phase → List FaceId
  | .scheduled outFaces => outFaces
  | .sending _ rest => rest
  | .waiting _ rest _ _ => rest
  | _ => []

namespace EventLoop

variable {r r' : EventLoop} {c c' : CallId} {call : Call} {face : FaceId}

def Tries (r : EventLoop) (c : CallId) (face : FaceId) : Prop :=
  (∃ start, .attempt c face start ∈ r.log) ∨
    ∃ call, r.calls c = some call ∧ face ∈ call.phase.nextHops

theorem Tries.of_setCall (h : (r.setCall c call).Tries c' face) :
    r.Tries c' face ∨ c' = c ∧ face ∈ call.phase.nextHops := by
  rcases h with h | ⟨call', hc, hf⟩
  · exact .inl (.inl h)
  · rw [calls_setCall] at hc
    split at hc
    · rename_i he
      obtain rfl := Option.some.inj hc
      exact .inr ⟨he, hf⟩
    · exact .inl (.inr ⟨call', hc, hf⟩)

theorem Tries.of_spawn (h : (r.spawn call).Tries c' face) :
    r.Tries c' face ∨ c' = r.nextCall ∧ face ∈ call.phase.nextHops :=
  of_setCall (r := { r with nextCall := r.nextCall + 1 }) h

theorem Tries.of_record {e : Event} (h : (r.record e).Tries c face)
    (he : ∀ start, e ≠ .attempt c face start) : r.Tries c face := by
  rcases h with ⟨start, hm⟩ | h
  · rcases List.mem_cons.mp hm with hm | hm
    · exact absurd hm.symm (he start)
    · exact .inl ⟨start, hm⟩
  · exact .inr h

theorem Tries.of_send {rest : List FaceId} {face' : FaceId}
    (h : (r.send c call face' rest).Tries c' face) :
    r.Tries c' face ∨ c' = c ∧ face ∈ face' :: rest := by
  rcases of_setCall h with (⟨start, hm⟩ | h) | ⟨rfl, hf⟩
  · rcases List.mem_cons.mp hm with hm | hm
    · obtain ⟨rfl, rfl, -⟩ := Event.attempt.inj hm
      exact .inr ⟨rfl, List.mem_cons_self⟩
    · exact .inl (.inl ⟨start, hm⟩)
  · exact .inl (.inr h)
  · exact .inr ⟨rfl, List.mem_cons_of_mem _ hf⟩

theorem Tries.of_wait {key : Name} {phase : ℕ → ℕ → Phase}
    (h : (r.wait c call key phase).Tries c' face) :
    r.Tries c' face ∨ c' = c ∧ ∃ fut deadline, face ∈ (phase fut deadline).nextHops := by
  rcases of_setCall h with h | ⟨hc, hf⟩
  · exact .inl h
  · exact .inr ⟨hc, _, _, hf⟩

end EventLoop

theorem Phase.Failed.nextHops {phase : Phase} (h : phase.Failed) : phase.nextHops = [] := by
  cases h <;> rfl

theorem Outcome.tries {r r' : EventLoop} {c c' : CallId} {call : Call} {faces : List FaceId}
    {face : FaceId} (ho : Outcome r c call faces r') (h : r'.Tries c' face) :
    r.Tries c' face ∨ c' = c ∧ face ∈ faces := by
  cases ho with
  | failed hf =>
    refine h.of_setCall.imp_right fun hm => ?_
    rw [hf.nextHops] at hm
    exact absurd hm.2 List.not_mem_nil
  | send _ hr => exact h.of_send.imp_right fun hm => ⟨hm.1, hr.subset hm.2⟩

namespace Forwarder

variable {s t : Forwarder} {c c' : CallId} {call : Call} {l : Label} {r : EventLoop}
  {face : FaceId}

theorem Ran.tries (ran : Ran s c call l r) (hc : s.loop.calls c = some call)
    (h : r.Tries c' face) : s.loop.Tries c' face := by
  have hown (hm : c' = c ∧ face ∈ call.phase.nextHops) : s.loop.Tries c' face := by
    obtain ⟨rfl, hm⟩ := hm
    exact .inr ⟨call, hc, hm⟩
  have hended {phase : Phase} (hp : phase.nextHops = [])
      (hm : c' = c ∧ face ∈ phase.nextHops) : s.loop.Tries c' face := by
    rw [hp] at hm
    exact absurd hm.2 List.not_mem_nil
  cases ran with
  | started hp ho => exact (ho.tries h).elim id fun hm => hown (hp ▸ hm)
  | sent hp =>
    refine h.of_wait.elim id fun hm => hown ?_
    obtain ⟨hc', _, _, hm⟩ := hm
    exact ⟨hc', hp ▸ hm⟩
  | sendRaised hp => exact h.of_setCall.elim id (hended rfl)
  | answered hp _ =>
    refine h.of_setCall.elim (fun h => h.of_record ?_) (hended rfl)
    rintro start ⟨⟩
  | nacked hp _ ho =>
    refine (ho.tries h).elim (fun h => h.of_record ?_) fun hm => hown (hp ▸ hm)
    rintro start ⟨⟩
  | shared hp _ => exact h.of_setCall.elim id (hended rfl)
  | sharedNack hp _ => exact h.of_setCall.elim id (hended rfl)
  | expired hp _ _ ho =>
    refine (ho.tries h).elim (fun h => h.of_record (r := s.loop.giveUp _) ?_) fun hm =>
      hown (hp ▸ hm)
    rintro start ⟨⟩
  | sharedExpired hp _ _ =>
    exact (EventLoop.Tries.of_setCall (r := s.loop.giveUp _) h).elim id (hended rfl)

section Decision

variable {i : Interest} {fibFaces : List (FaceId × ℕ)} {pitHit : Option PitEntry}
  {csHit : Option Data} {decision : StrategyDecision} {nonce : Bytes}

theorem failoverCandidates_subset {primary : FaceId}
    (hd : s.strategy.decide s.loop.monotonic i fibFaces pitHit csHit = .forwardTo primary) :
    s.failoverCandidates fibFaces primary ⊆ s.strategy.usableFaces s.loop.monotonic fibFaces := by
  have hne := BestRoute.usableFaces_ne_nil hd
  rw [failoverCandidates]
  split
  · rename_i hnil
    exact absurd hnil hne
  · rename_i hcons
    exact List.Subset.refl _

/-- A decision gives the call, or the refresh that it begins, usable next hops only. -/
theorem enact_tries
    (hd : s.strategy.decide s.loop.monotonic i fibFaces pitHit csHit = decision)
    (h : (s.enact c call nonce fibFaces decision).loop.Tries c' face) :
    s.loop.Tries c' face ∨ (c' = c ∨ c' = s.loop.nextCall) ∧
      face ∈ s.strategy.usableFaces s.loop.monotonic fibFaces := by
  have hended {u : Forwarder} {result : Option Data}
      (h : (u.finish c call (.returned result)).loop.Tries c' face) : u.loop.Tries c' face := by
    refine h.of_setCall.elim id fun hm => ?_
    exact absurd hm.2 List.not_mem_nil
  cases decision with
  | serveFromCache d => exact .inl (hended h)
  | serveStaleRevalidate d outFace =>
    rcases s.scheduleRevalidation_loop call.interest call.inFace outFace nonce with hr | hr
    all_goals
      have ht := hended h
      rw [hr] at ht
    · exact .inl ht
    · refine ht.of_spawn.imp_right fun hm => ⟨.inr hm.1, ?_⟩
      obtain rfl := List.mem_singleton.mp hm.2
      exact BestRoute.mem_usableFaces_of_stale hd
  | suppressAggregate =>
    refine .inl (h.of_wait.elim id fun hm => ?_)
    obtain ⟨-, _, _, hm⟩ := hm
    exact absurd hm List.not_mem_nil
  | forwardTo outFace =>
    obtain ⟨hop, ho⟩ := s.forward_outcome c call (s.failoverCandidates fibFaces outFace)
    exact (ho.tries h).imp_right fun hm => ⟨.inl hm.1, failoverCandidates_subset hd hm.2⟩
  | noRoute => exact .inl (hended h)

variable [Hashlib]

/-- The next hops of the call that `express` begins, and of a refresh, were usable then. -/
theorem express_tries {inFace : FaceId}
    (h : (s.express i inFace nonce).loop.Tries c face) :
    s.loop.Tries c face ∨ (c = s.loop.nextCall ∨ c = s.loop.nextCall + 1) ∧
      face ∈ s.strategy.usableFaces s.loop.monotonic (s.fib.lookup i.name) := by
  have hnew {call : Call} (hp : call.phase.nextHops = [])
      (h : (s.loop.spawn call).Tries c face) : s.loop.Tries c face := by
    refine h.of_spawn.elim id fun hm => ?_
    rw [hp] at hm
    exact absurd hm.2 List.not_mem_nil
  rw [express] at h
  split at h
  · exact .inl (hnew rfl h)
  · cases hl : s.csLookup i with
    | mk cs lookup =>
      rw [hl] at h
      cases lookup with
      | error e =>
        refine .inl (h.of_setCall.elim (hnew rfl) fun hm => ?_)
        exact absurd hm.2 List.not_mem_nil
      | ok csHit =>
        exact (enact_tries rfl h).imp_left (hnew rfl)

end Decision

variable [Hashlib]

/-- An event begins calls whose next hops are usable, or none that tries the face. -/
theorem step_tries (hs : step s l = some t) (h : t.loop.Tries c face) :
    s.loop.Tries c face ∨ ∃ i inFace nonce, l = .express i inFace nonce ∧
      (c = s.loop.nextCall ∨ c = s.loop.nextCall + 1) ∧
        face ∈ s.strategy.usableFaces s.loop.monotonic (s.fib.lookup i.name) := by
  have hexpress {i : Interest} {inFace : FaceId} {nonce : Bytes}
      (hl : l = .express i inFace nonce) : s.loop.Tries c face ∨
        ∃ i inFace nonce, l = .express i inFace nonce ∧
          (c = s.loop.nextCall ∨ c = s.loop.nextCall + 1) ∧
            face ∈ s.strategy.usableFaces s.loop.monotonic (s.fib.lookup i.name) := by
    subst hl
    obtain rfl := Option.some.inj hs
    exact (express_tries h).imp_right fun hm => ⟨i, inFace, nonce, rfl, hm⟩
  have ch := step_change hs
  generalize t.loop = r at ch h
  cases ch with
  | routed _ => exact hexpress rfl
  | hit _ _ => exact hexpress rfl
  | hitStale _ _ => exact hexpress rfl
  | joined _ _ => exact hexpress rfl
  | ran hc ran => exact .inl (ran.tries hc h)
  | data _ =>
    refine .inl (EventLoop.Tries.of_record (r := s.loop) h ?_)
    rintro start ⟨⟩
  | unmatched _ =>
    refine .inl (h.of_record ?_)
    rintro start ⟨⟩
  | nack =>
    refine .inl (EventLoop.Tries.of_record (r := s.loop) h ?_)
    rintro start ⟨⟩
  | tick => exact .inl h
  | quiet _ => exact .inl h

theorem tries_of_run {ls : List Label} (hrun : Run step anyStep s ls t)
    (h : t.loop.Tries c face) : s.loop.Tries c face ∨
      ∃ e ∈ trace step s ls, ∃ i inFace nonce, e.2.1 = .express i inFace nonce ∧
        (c = e.1.loop.nextCall ∨ c = e.1.loop.nextCall + 1) ∧
          face ∈ e.1.strategy.usableFaces e.1.loop.monotonic (e.1.fib.lookup i.name) := by
  induction hrun with
  | nil => exact .inl h
  | @cons s u t l ls _ hs _ ih =>
    rw [trace_cons hs]
    rcases ih h with h | ⟨e, he, hm⟩
    · exact (step_tries hs h).imp_right fun hm => ⟨(s, l, u), List.mem_cons_self, hm⟩
    · exact .inr ⟨e, List.mem_cons_of_mem _ he, hm⟩

/-- Every attempt of a run, by failover and by a refresh too, is on a next hop of the name that
was asked for, and the log did not speak against it when the Interest came. -/
theorem attempt_usable {ls : List Label} (hrun : Run step anyStep s ls t) (hi : s.Initial)
    (hempty : s.strategy.failures = .empty) {start : ℕ}
    (ha : .attempt c face start ∈ t.loop.log) :
    ∃ e ∈ trace step s ls, ∃ i inFace nonce, e.2.1 = .express i inFace nonce ∧
      (c = e.1.loop.nextCall ∨ c = e.1.loop.nextCall + 1) ∧
        face ∈ (e.1.fib.lookup i.name).map Prod.fst ∧
          ¬ s.strategy.LeavesAlone e.1.loop.log e.1.loop.monotonic face := by
  rcases tries_of_run hrun (.inl ⟨start, ha⟩) with (⟨start, hm⟩ | ⟨call, hc, -⟩) | hm
  · rw [hi.log] at hm
    cases hm
  · rw [hi.calls c] at hc
    cases hc
  · obtain ⟨e, he, i, inFace, nonce, hl, hcall, hf⟩ := hm
    obtain ⟨hmem, hback⟩ := BestRoute.mem_usableFaces.mp hf
    refine ⟨e, he, i, inFace, nonce, hl, hcall, hmem, fun hleave => ?_⟩
    obtain ⟨hr, hp⟩ := (hrun.trace_invariant (I := fun u => Replays s.strategy u ∧ u.loop.Past)
      ⟨hi.replays, hi.past⟩ (fun _ _ _ h _ hs => ⟨h.1.step hs, (step_change hs).past h.2⟩) e he).1
    rw [(hr.leavesAlone_iff hempty hp face).mpr hleave] at hback
    cases hback

omit [Hashlib] in
theorem requested_attempt_usable :
    letI := Data.paddedHash
    ∃ e ∈ trace step (relay [1]) [.express (request 1 1000) 7 [], .sent 0],
      ∃ i inFace nonce, e.2.1 = .express i inFace nonce ∧
        (0 = e.1.loop.nextCall ∨ 0 = e.1.loop.nextCall + 1) ∧
          1 ∈ (e.1.fib.lookup i.name).map Prod.fst ∧
            ¬ (relay [1]).strategy.LeavesAlone e.1.loop.log e.1.loop.monotonic 1 := by
  let := Data.paddedHash
  have hrun : Run step anyStep (relay [1]) [.express (request 1 1000) 7 [], .sent 0] requested :=
    run_of_exec rfl
  have hattempt : .attempt 0 1 0 ∈ requested.loop.log := List.mem_cons_self
  exact attempt_usable hrun (relay_initial [1]) rfl hattempt

end Forwarder

end RnsIcn
