import RnsIcn.Forwarder.Answer
import RnsIcn.Forwarder.Failover
import RnsIcn.Forwarder.Revalidation

/-! # How long a call takes

A call takes a bounded number of steps of its own, whatever else happens in between, and
there is always one that it can take once its lifetime is over. If the event loop does not
sleep past what is due, the calls end within one lifetime for each face that they try.
-/

namespace RnsIcn

open Transition

/-- How many steps of its own a call can still take. -/
def Phase.stepsLeft : Phase → ℕ
  | .scheduled outFaces => 2 * outFaces.length + 1
  | .sending _ rest => 2 * rest.length + 2
  | .waiting _ rest _ _ => 2 * rest.length + 1
  | .aggregated .. => 1
  | .returned _ | .raised _ => 0

/-- The deadline of a `wait_for`. -/
def Phase.deadline : Phase → Option ℕ
  | .waiting _ _ _ deadline | .aggregated _ deadline => some deadline
  | _ => none

theorem Phase.stepsLeft_eq_zero_iff {phase : Phase} : phase.stepsLeft = 0 ↔ phase.Ended := by
  constructor
  · intro h
    cases phase with
    | returned result => exact .returned result
    | raised e => exact .raised e
    | _ => cases h
  · rintro (_ | _) <;> rfl

theorem Phase.Ended.deadline {phase : Phase} (h : phase.Ended) : phase.deadline = none := by
  cases h <;> rfl

/-- When a call that now is in this phase has ended at the latest, for the lifetime of its
Interest. -/
def Phase.latest (lifetime now : ℕ) : Phase → ℕ
  | .scheduled outFaces => now + outFaces.length * lifetime
  | .sending _ rest => now + (rest.length + 1) * lifetime
  | .waiting _ rest _ deadline => deadline + rest.length * lifetime
  | .aggregated _ deadline => deadline
  | .returned _ | .raised _ => now

theorem Phase.Ended.latest {phase : Phase} (h : phase.Ended) (lifetime now : ℕ) :
    phase.latest lifetime now = now := by
  cases h <;> rfl

def Call.latest (call : Call) (now : ℕ) : ℕ := call.phase.latest call.interest.lifetimeMs now

theorem Outcome.stepsLeft {r r' : EventLoop} {c : CallId} {call : Call} {faces : List FaceId}
    (ho : Outcome r c call faces r') :
    ∃ call', r'.calls c = some call' ∧ call'.phase.stepsLeft ≤ 2 * faces.length := by
  obtain ⟨call', hc, hp⟩ := ho.phase
  refine ⟨call', hc, ?_⟩
  rcases hp with hf | ⟨face, rest, hsuff, hp⟩
  · rw [Phase.stepsLeft_eq_zero_iff.mpr hf.ended]
    exact Nat.zero_le _
  · have hlen := hsuff.length_le
    rw [hp, Phase.stepsLeft]
    rw [List.length_cons] at hlen
    omega

namespace Forwarder

variable {s t : Forwarder} {c : CallId} {call : Call} {l : Label} {r : EventLoop}

theorem Ran.stepsLeft (ran : Ran s c call l r) :
    ∃ call', r.calls c = some call' ∧ call'.phase.stepsLeft < call.phase.stepsLeft := by
  have hset (r : EventLoop) (call : Call) : (r.setCall c call).calls c = some call := by
    rw [EventLoop.calls_setCall, if_pos rfl]
  have hout {call₀ : Call} {r₀ : EventLoop} {faces : List FaceId}
      (ho : Outcome r₀ c call₀ faces r) (hlt : 2 * faces.length < call.phase.stepsLeft) :
      ∃ call', r.calls c = some call' ∧ call'.phase.stepsLeft < call.phase.stepsLeft := by
    obtain ⟨call', hc, hle⟩ := ho.stepsLeft
    exact ⟨call', hc, hle.trans_lt hlt⟩
  cases ran with
  | started hp ho => exact hout ho (by rw [hp]; exact Nat.lt_succ_self _)
  | sent hp =>
    refine ⟨_, (EventLoop.calls_wait ..).trans (if_pos rfl), ?_⟩
    rw [hp]
    exact Nat.lt_succ_self _
  | sendRaised hp => exact ⟨_, hset .., by rw [hp]; exact Nat.succ_pos _⟩
  | answered hp _ => exact ⟨_, hset .., by rw [hp]; exact Nat.succ_pos _⟩
  | nacked hp _ ho => exact hout ho (by rw [hp]; exact Nat.lt_succ_self _)
  | shared hp _ => exact ⟨_, hset .., by rw [hp]; exact Nat.succ_pos _⟩
  | sharedNack hp _ => exact ⟨_, hset .., by rw [hp]; exact Nat.succ_pos _⟩
  | expired hp _ _ ho => exact hout ho (by rw [hp]; exact Nat.lt_succ_self _)
  | sharedExpired hp _ _ => exact ⟨_, hset .., by rw [hp]; exact Nat.succ_pos _⟩

variable [Hashlib]

theorem Change.stepsLeft (ch : Change s l r) (hcon : s.loop.Consistent)
    (hc : s.loop.calls c = some call) :
    ∃ call', r.calls c = some call' ∧
      call'.phase.stepsLeft + (if l.runs = some c then 1 else 0) ≤ call.phase.stepsLeft := by
  by_cases hl : l.runs = some c
  · obtain ⟨call', hc', hlt⟩ := (ch.ran_of_runs hl hc).stepsLeft
    exact ⟨call', hc', by rw [if_pos hl]; exact hlt⟩
  · exact ⟨call, (ch.frame hcon hc hl).calls, by rw [if_neg hl]; exact le_rfl⟩

theorem stepsLeft_of_run {ls : List Label} (h : Run step anyStep s ls t) (hcon : s.Consistent)
    (hc : s.loop.calls c = some call) :
    ∃ call', t.loop.calls c = some call' ∧
      call'.phase.stepsLeft + ls.countP (·.runs = some c) ≤ call.phase.stepsLeft := by
  induction h generalizing call with
  | nil => exact ⟨call, hc, le_rfl⟩
  | cons _ hs _ ih =>
    obtain ⟨call₁, hc₁, hle₁⟩ := (step_change hs).stepsLeft hcon.loop hc
    obtain ⟨call₂, hc₂, hle₂⟩ := ih (step_consistent hs hcon) hc₁
    refine ⟨call₂, hc₂, ?_⟩
    rw [List.countP_cons]
    simp only [decide_eq_true_eq]
    omega

omit [Hashlib] in
def Awaitable (s : Forwarder) : Prop := ∀ c call fut, s.loop.calls c = some call →
  call.phase.future = some fut → s.loop.notifiers.state fut ≠ .cancelled

omit [Hashlib] in
theorem Initial.awaitable (h : s.Initial) : s.Awaitable := by
  intro c call fut hc
  rw [h.calls c] at hc
  cases hc

omit [Hashlib] in
theorem Ran.awaitable (ran : Ran s c call l r) {call' : Call} (hc : r.calls c = some call')
    {fut : ℕ} (hf : call'.phase.future = some fut) : r.notifiers.state fut ≠ .cancelled := by
  have hset {r₀ : EventLoop} {phase : Phase} (hc : (r₀.setCall c { call with phase }).calls c =
      some call') (hp : phase.future = none) : r.notifiers.state fut ≠ .cancelled := by
    rw [EventLoop.calls_setCall, if_pos rfl] at hc
    obtain rfl := Option.some.inj hc
    rw [hp] at hf
    cases hf
  have hout {call₀ : Call} {r₀ : EventLoop} {faces : List FaceId}
      (ho : Outcome r₀ c call₀ faces r) : r.notifiers.state fut ≠ .cancelled := by
    obtain ⟨call₁, hc₁, hp⟩ := ho.phase
    obtain rfl := Option.some.inj (hc.symm.trans hc₁)
    rcases hp with hp | ⟨face, rest, -, hp⟩
    · rw [hp.future] at hf
      cases hf
    · rw [hp] at hf
      cases hf
  cases ran with
  | started hp ho => exact hout ho
  | sent hp =>
    rw [EventLoop.calls_wait, if_pos rfl] at hc
    obtain rfl := Option.some.inj hc
    obtain rfl := Option.some.inj hf
    rw [show (s.loop.wait c call call.interest.pitName _).notifiers.state s.loop.notifiers.next =
      .pending from Futures.state_register_self ..]
    rintro ⟨⟩
  | sendRaised hp => exact hset hc rfl
  | answered hp _ => exact hset hc rfl
  | nacked hp _ ho => exact hout ho
  | shared hp _ => exact hset hc rfl
  | sharedNack hp _ => exact hset hc rfl
  | expired hp _ _ ho => exact hout ho
  | sharedExpired hp _ _ => exact hset hc rfl

theorem step_awaitable (h : s.Awaitable) (hcon : s.Consistent) (hs : step s l = some t) :
    t.Awaitable := by
  have ch := step_change hs
  intro c call' fut hc' hf
  cases hc : s.loop.calls c with
  | none =>
    cases ch.spawned hc hc' with
    | routed ho hr =>
      obtain ⟨call₁, hc₁, hp⟩ := ho.phase
      obtain rfl := Option.some.inj (hr.symm.trans hc₁)
      rcases hp with hp | ⟨face, rest, -, hp⟩
      · rw [hp.future] at hf
        cases hf
      · rw [hp] at hf
        cases hf
    | hit | refresh => cases hf
    | joined hp =>
      obtain rfl := Option.some.inj hf
      rw [hp]
      rintro ⟨⟩
  | some call =>
    by_cases hl : l.runs = some c
    · exact (ch.ran_of_runs hl hc).awaitable hc' hf
    · have hframe := ch.frame hcon.loop hc hl
      obtain rfl := Option.some.inj (hframe.calls.symm.trans hc')
      rcases hframe.future fut hf with hst | ⟨-, reply, -, hst⟩
      · rw [hst]
        exact h c call fut hc hf
      · rw [hst]
        rintro ⟨⟩

/-- The event is time that passes, or a step of the call. -/
def Drives (c : CallId) (l : Label) : Prop := (∃ ms time, l = .tick ms time) ∨ l.runs = some c

/-- A call that has not ended can take a step now, or once its lifetime is over. -/
theorem Awaitable.exists_step (h : s.Awaitable) (hc : s.loop.calls c = some call)
    (hend : ¬ call.phase.Ended) : ∃ ls t, Run step anyStep s ls t ∧ (∀ l ∈ ls, Drives c l) ∧
      0 < ls.countP (·.runs = some c) := by
  have hone {l : Label} (hl : l.runs = some c) (hs : (step s l).isSome) : ∃ ls t,
      Run step anyStep s ls t ∧ (∀ l ∈ ls, Drives c l) ∧ 0 < ls.countP (·.runs = some c) := by
    obtain ⟨t, ht⟩ := Option.isSome_iff_exists.mp hs
    refine ⟨[l], t, .cons trivial ht (.nil t), ?_, ?_⟩
    · intro l' hl'
      obtain rfl := List.mem_singleton.mp hl'
      exact .inr hl
    · simp [hl]
  have htimeout {deadline fut : ℕ} (hst : s.loop.notifiers.state fut = .pending)
      (hp : call.phase = .aggregated fut deadline ∨
        ∃ face rest, call.phase = .waiting face rest fut deadline) : ∃ ls t,
      Run step anyStep s ls t ∧ (∀ l ∈ ls, Drives c l) ∧ 0 < ls.countP (·.runs = some c) := by
    have hle : deadline ≤ s.loop.monotonic + deadline := Nat.le_add_left _ _
    have hsome : (({ s with loop := { s.loop with monotonic := s.loop.monotonic + deadline } } :
        Forwarder).timeout c).isSome := by
      rcases hp with hp | ⟨face, rest, hp⟩ <;>
        simp [timeout, hc, hp, hst, hle]
    obtain ⟨t, ht⟩ := Option.isSome_iff_exists.mp hsome
    refine ⟨[.tick deadline s.time, .timeout c], t,
      .cons trivial rfl (.cons trivial ht (.nil t)), ?_, ?_⟩
    · intro l hl
      rcases List.mem_cons.mp hl with rfl | hl
      · exact .inl ⟨_, _, rfl⟩
      · obtain rfl := List.mem_singleton.mp hl
        exact .inr rfl
    · simp [Label.runs]
  cases hp : call.phase with
  | scheduled outFaces => exact hone (l := .start c) rfl (by simp [step, start, hc, hp])
  | sending face rest => exact hone (l := .sent c) rfl (by simp [step, sent, hc, hp])
  | waiting face rest fut deadline =>
    cases hst : s.loop.notifiers.state fut with
    | pending => exact htimeout hst (.inr ⟨face, rest, hp⟩)
    | done reply =>
      refine hone (l := .resume c) rfl ?_
      cases reply <;> simp [step, resume, hc, hp, hst]
    | cancelled => exact absurd hst (h c call fut hc (by rw [hp]; rfl))
  | aggregated fut deadline =>
    cases hst : s.loop.notifiers.state fut with
    | pending => exact htimeout hst (.inl hp)
    | done reply =>
      refine hone (l := .resume c) rfl ?_
      cases reply <;> simp [step, resume, hc, hp, hst]
    | cancelled => exact absurd hst (h c call fut hc (by rw [hp]; rfl))
  | returned result => exact absurd (hp ▸ .returned result) hend
  | raised e => exact absurd (hp ▸ .raised e) hend

theorem Awaitable.exists_end (h : s.Awaitable) (hcon : s.Consistent)
    (hc : s.loop.calls c = some call) :
    ∃ ls t call', Run step anyStep s ls t ∧ (∀ l ∈ ls, Drives c l) ∧
      t.loop.calls c = some call' ∧ call'.phase.Ended := by
  induction hk : call.phase.stepsLeft using Nat.strong_induction_on generalizing s call with
  | _ k ih =>
    by_cases hend : call.phase.Ended
    · exact ⟨[], s, call, .nil s, nofun, hc, hend⟩
    · obtain ⟨ls, u, hrun, hls, hpos⟩ := h.exists_step hc hend
      obtain ⟨call₁, hc₁, hle⟩ := stepsLeft_of_run hrun hcon hc
      have hinv := hrun.invariant (I := fun s => s.Consistent ∧ s.Awaitable) ⟨hcon, h⟩
        fun _ _ _ hi _ hs => ⟨step_consistent hs hi.1, step_awaitable hi.2 hi.1 hs⟩
      have hlt : call₁.phase.stepsLeft < k := by omega
      obtain ⟨ls', t, call', hrun', hls', hend'⟩ := ih _ hlt hinv.2 hinv.1 hc₁ rfl
      refine ⟨ls ++ ls', t, call', hrun.append hrun', fun l hl => ?_, hend'⟩
      exact (List.mem_append.mp hl).elim (hls l) (hls' l)

/-- In no run does a call hang. However the events of a run are ordered, a call takes at most the
steps that its next hops allow; and if nothing else happens any more, time and its own steps bring
it to its end. -/
theorem call_ends {s₀ : Forwarder} {ls₀ : List Label} (h : Run step anyStep s₀ ls₀ s)
    (h₀ : s₀.Initial) (hc : s.loop.calls c = some call) :
    (∀ ls t, Run step anyStep s ls t → ls.countP (·.runs = some c) ≤ call.phase.stepsLeft) ∧
    ∃ ls t call', Run step anyStep s ls t ∧ (∀ l ∈ ls, Drives c l) ∧
      t.loop.calls c = some call' ∧ call'.phase.Ended := by
  have hinv := h.invariant (I := fun s => s.Consistent ∧ s.Awaitable) ⟨h₀.consistent, h₀.awaitable⟩
    fun _ _ _ hi _ hs => ⟨step_consistent hs hi.1, step_awaitable hi.2 hi.1 hs⟩
  refine ⟨fun ls t hrun => ?_, hinv.2.exists_end hinv.1 hc⟩
  obtain ⟨call', -, hle⟩ := stepsLeft_of_run hrun hinv.1 hc
  exact (Nat.le_add_left _ _).trans hle

omit [Hashlib] in
theorem requested_ends :
    letI := Data.paddedHash
    ∃ ls t call', Run step anyStep requested ls t ∧ (∀ l ∈ ls, Drives 0 l) ∧
      t.loop.calls 0 = some call' ∧ call'.phase.Ended := by
  let := Data.paddedHash
  have hrun : Run step anyStep (relay [1]) [.express (request 1 1000) 7 [], .sent 0] requested :=
    run_of_exec rfl
  exact (call_ends hrun (relay_initial [1]) (c := 0) rfl).2

omit [Hashlib] in
/-- Nothing is to be done for the call before the time: it has ended, or it waits for an answer
that is not there, and its lifetime lasts until then. -/
def Asleep (s : Forwarder) (call : Call) (now : ℕ) : Prop :=
  call.phase.Ended ∨ ∃ fut deadline, call.phase.future = some fut ∧
    s.loop.notifiers.state fut = .pending ∧ call.phase.deadline = some deadline ∧ now ≤ deadline

omit [Hashlib] in
/-- Time passes only while nothing is to be done for any call. -/
def Prompt (s : Forwarder) (l : Label) : Prop :=
  ∀ ms time, l = .tick ms time → ∀ c call, s.loop.calls c = some call →
    s.Asleep call (s.loop.monotonic + ms)

omit [Hashlib] in
def Due (s : Forwarder) : Prop := ∀ c call deadline, s.loop.calls c = some call →
  call.phase.deadline = some deadline → s.loop.monotonic ≤ deadline

omit [Hashlib] in
theorem Initial.due (h : s.Initial) : s.Due := by
  intro c call deadline hc
  rw [h.calls c] at hc
  cases hc

theorem Change.monotonic_eq (ch : Change s l r) (hl : ∀ ms time, l ≠ .tick ms time) :
    r.monotonic = s.loop.monotonic := by
  cases ch with
  | routed ho => exact ho.monotonic
  | ran hc ran =>
    cases ran with
    | started hp ho => exact ho.monotonic
    | nacked hp hs ho => exact ho.monotonic
    | expired hp hs hd ho => exact ho.monotonic
    | _ => rfl
  | tick => exact absurd rfl (hl _ _)
  | _ => rfl

omit [Hashlib] in
/-- A call that begins one of the attempts that it has left ends within one lifetime for each. -/
theorem latest_of_outcome {r r' : EventLoop} {call' : Call} {faces : List FaceId}
    (ho : Outcome r c call faces r') (hc : r'.calls c = some call') :
    call'.phase.deadline = none ∧
      call'.latest r.monotonic ≤ r.monotonic + faces.length * call.interest.lifetimeMs := by
  cases ho with
  | @failed phase hf =>
    rw [EventLoop.calls_setCall, if_pos rfl] at hc
    obtain rfl := Option.some.inj hc
    refine ⟨hf.ended.deadline, ?_⟩
    rw [Call.latest, hf.ended.latest]
    exact Nat.le_add_right _ _
  | send _ hsuff =>
    rw [EventLoop.calls_send, if_pos rfl] at hc
    obtain rfl := Option.some.inj hc
    refine ⟨rfl, ?_⟩
    exact Nat.add_le_add_left (Nat.mul_le_mul_right _ hsuff.length_le) _

omit [Hashlib] in
/-- A call that runs in time misses no deadline, and ends no later than it would have. -/
theorem latest_of_ran (ran : Ran s c call l r) (hdue : ∀ deadline,
    call.phase.deadline = some deadline → s.loop.monotonic ≤ deadline) {call' : Call}
    (hc : r.calls c = some call') :
    (∀ deadline, call'.phase.deadline = some deadline → r.monotonic ≤ deadline) ∧
      call'.latest r.monotonic ≤ call.latest s.loop.monotonic := by
  have hset {r₀ : EventLoop} {phase : Phase} (hm : r.monotonic = s.loop.monotonic)
      (hp : phase.Ended) (hc : (r₀.setCall c { call with phase }).calls c = some call')
      (hle : s.loop.monotonic ≤ call.latest s.loop.monotonic) :
      (∀ deadline, call'.phase.deadline = some deadline → r.monotonic ≤ deadline) ∧
        call'.latest r.monotonic ≤ call.latest s.loop.monotonic := by
    rw [EventLoop.calls_setCall, if_pos rfl] at hc
    obtain rfl := Option.some.inj hc
    refine ⟨fun deadline hd => ?_, ?_⟩
    · rw [hp.deadline] at hd
      cases hd
    · rw [Call.latest, hp.latest, hm]
      exact hle
  have hout {call₀ : Call} {r₀ : EventLoop} {faces : List FaceId}
      (ho : Outcome r₀ c call₀ faces r) (hm : r₀.monotonic = s.loop.monotonic)
      (hle : s.loop.monotonic + faces.length * call₀.interest.lifetimeMs ≤
        call.latest s.loop.monotonic) :
      (∀ deadline, call'.phase.deadline = some deadline → r.monotonic ≤ deadline) ∧
        call'.latest r.monotonic ≤ call.latest s.loop.monotonic := by
    obtain ⟨hnone, hlate⟩ := latest_of_outcome ho hc
    refine ⟨fun deadline hd => ?_, ?_⟩
    · rw [hnone] at hd
      cases hd
    · rw [ho.monotonic]
      rw [hm] at hlate ⊢
      exact hlate.trans hle
  cases ran with
  | started hp ho => exact hout ho rfl (by rw [Call.latest, hp]; exact le_rfl)
  | @sent face rest hp =>
    rw [EventLoop.calls_wait, if_pos rfl] at hc
    obtain rfl := Option.some.inj hc
    refine ⟨fun deadline hd => ?_, ?_⟩
    · obtain rfl := Option.some.inj hd
      exact Nat.le_add_right _ _
    · change s.loop.monotonic + call.interest.lifetimeMs +
        rest.length * call.interest.lifetimeMs ≤ _
      rw [Call.latest, hp, Phase.latest, Nat.succ_mul]
      omega
  | sendRaised hp =>
    exact hset rfl (.raised _) hc (by rw [Call.latest, hp]; exact Nat.le_add_right _ _)
  | answered hp _ =>
    refine hset rfl (.returned _) hc ?_
    rw [Call.latest, hp]
    exact (hdue _ (by rw [hp]; rfl)).trans (Nat.le_add_right _ _)
  | nacked hp _ ho =>
    refine hout ho rfl ?_
    rw [Call.latest, hp]
    exact Nat.add_le_add_right (hdue _ (by rw [hp]; rfl)) _
  | shared hp _ =>
    exact hset rfl (.returned _) hc (by rw [Call.latest, hp]; exact hdue _ (by rw [hp]; rfl))
  | sharedNack hp _ =>
    exact hset rfl (.returned _) hc (by rw [Call.latest, hp]; exact hdue _ (by rw [hp]; rfl))
  | expired hp _ _ ho =>
    refine hout ho rfl ?_
    rw [Call.latest, hp]
    exact Nat.add_le_add_right (hdue _ (by rw [hp]; rfl)) _
  | sharedExpired hp _ _ =>
    exact hset rfl (.returned _) hc (by rw [Call.latest, hp]; exact hdue _ (by rw [hp]; rfl))

theorem latest_of_frame (hs : step s l = some t) (hok : s.Prompt l)
    (hc : s.loop.calls c = some call) (hend : ¬ call.phase.Ended) :
    call.latest t.loop.monotonic ≤ call.latest s.loop.monotonic := by
  by_cases hl : ∃ ms time, l = .tick ms time
  · obtain ⟨ms, time, rfl⟩ := hl
    rcases hok ms time rfl c call hc with h | ⟨fut, deadline, -, -, hd, -⟩
    · exact absurd h hend
    · rw [Call.latest, Call.latest]
      generalize call.phase = phase at hd
      cases phase with
      | waiting | aggregated => exact le_rfl
      | _ => cases hd
  · rw [(step_change hs).monotonic_eq fun ms time he => hl ⟨ms, time, he⟩]

theorem Change.due_new (ch : Change s l r) (hnone : s.loop.calls c = none)
    (hc : r.calls c = some call) {deadline : ℕ} (hd : call.phase.deadline = some deadline) :
    r.monotonic ≤ deadline := by
  have hold {P : Prop} (hq : s.loop.calls c = some call) : P := by
    rw [hnone] at hq
    cases hq
  cases ch with
  | routed ho =>
    by_cases hid : c = s.loop.nextCall
    · subst hid
      rw [(latest_of_outcome ho hc).1] at hd
      cases hd
    · rw [ho.calls_ne hid, EventLoop.calls_spawn, if_neg hid] at hc
      exact hold hc
  | hit =>
    rw [EventLoop.calls_setCall, EventLoop.calls_spawn] at hc
    split at hc
    · obtain rfl := Option.some.inj hc
      cases hd
    · exact hold hc
  | hitStale =>
    rw [EventLoop.calls_setCall, EventLoop.calls_spawn, EventLoop.calls_spawn] at hc
    split at hc
    · obtain rfl := Option.some.inj hc
      cases hd
    · split at hc
      · obtain rfl := Option.some.inj hc
        cases hd
      · exact hold hc
  | joined =>
    rw [EventLoop.calls_wait, EventLoop.calls_spawn] at hc
    split at hc
    · obtain rfl := Option.some.inj hc
      obtain rfl := Option.some.inj hd
      exact Nat.le_add_right _ _
    · exact hold hc
  | @ran _ c' call' _ hc' ran =>
    have hne : c ≠ c' := by
      rintro rfl
      rw [hnone] at hc'
      cases hc'
    exact hold ((ran.calls_ne hne).symm.trans hc)
  | _ => exact hold hc

theorem step_due (h : s.Due) (hcon : s.Consistent) (hok : s.Prompt l) (hs : step s l = some t) :
    t.Due := by
  have ch := step_change hs
  intro c call' deadline hc' hd
  cases hc : s.loop.calls c with
  | none => exact ch.due_new hc hc' hd
  | some call =>
    by_cases hl : l.runs = some c
    · exact (latest_of_ran (ch.ran_of_runs hl hc) (fun d => h c call d hc) hc').1 deadline hd
    · obtain rfl := Option.some.inj ((ch.frame hcon.loop hc hl).calls.symm.trans hc')
      by_cases hl : ∃ ms time, l = .tick ms time
      · obtain ⟨ms, time, rfl⟩ := hl
        obtain rfl := Option.some.inj hs
        rcases hok ms time rfl c call hc with he | ⟨fut, deadline', -, -, hd', hle⟩
        · rw [he.deadline] at hd
          cases hd
        · obtain rfl := Option.some.inj (hd.symm.trans hd')
          exact hle
      · rw [ch.monotonic_eq fun ms time he => hl ⟨ms, time, he⟩]
        exact h c call deadline hc hd

/-- In a run without delay no deadline is missed, and no call ends later than it had to. -/
theorem latest_of_run {ls : List Label} (h : Run step Prompt s ls t) (hcon : s.Consistent)
    (hdue : s.Due) (hc : s.loop.calls c = some call) {call' : Call}
    (hc' : t.loop.calls c = some call') (hend : ¬ call'.phase.Ended) :
    t.loop.monotonic ≤ call.latest s.loop.monotonic := by
  induction h generalizing call with
  | nil =>
    obtain rfl := Option.some.inj (hc.symm.trans hc')
    rw [Call.latest]
    have hle (deadline : ℕ) := hdue c call deadline hc
    generalize call.phase = phase at hle
    cases phase with
    | scheduled | sending => exact Nat.le_add_right _ _
    | waiting => exact (hle _ rfl).trans (Nat.le_add_right _ _)
    | aggregated => exact hle _ rfl
    | returned | raised => exact le_rfl
  | @cons s u t l ls hok hs hrun ih =>
    have ch := step_change hs
    obtain ⟨call₁, hc₁, hleft⟩ := ch.stepsLeft hcon.loop hc
    have hnot : ¬ call.phase.Ended := by
      intro he
      obtain ⟨call₂, hc₂, hle⟩ := stepsLeft_of_run (hrun.mono fun _ _ _ => trivial)
        (step_consistent hs hcon) hc₁
      obtain rfl := Option.some.inj (hc'.symm.trans hc₂)
      rw [Phase.stepsLeft_eq_zero_iff.mpr he] at hleft
      exact hend (Phase.stepsLeft_eq_zero_iff.mp (by omega))
    refine (ih (step_consistent hs hcon) (step_due hdue hcon hok hs) hc₁ hc').trans ?_
    by_cases hl : l.runs = some c
    · exact (latest_of_ran (ch.ran_of_runs hl hc) (fun d => hdue c call d hc) hc₁).2
    · obtain rfl := Option.some.inj ((ch.frame hcon.loop hc hl).calls.symm.trans hc₁)
      exact latest_of_frame hs hok hc hnot

omit [Hashlib] in
theorem length_failoverCandidates (s : Forwarder) (fibFaces : List (FaceId × ℕ))
    (primary : FaceId) : (s.failoverCandidates fibFaces primary).length =
      max 1 (s.strategy.usableFaces s.loop.monotonic fibFaces).length := by
  rw [failoverCandidates]
  cases s.strategy.usableFaces s.loop.monotonic fibFaces with
  | nil => rfl
  | cons face faces => exact (max_eq_right (Nat.succ_le_succ (Nat.zero_le _))).symm

omit [Hashlib] in
theorem forward_latest {faces : List FaceId} {call' : Call}
    (hc : (s.forward c call faces).loop.calls c = some call') :
    call'.latest s.loop.monotonic ≤
      s.loop.monotonic + faces.length * call.interest.lifetimeMs := by
  obtain ⟨h, ho⟩ := s.forward_outcome c call faces
  exact (latest_of_outcome ho hc).2

omit [Hashlib] in
/-- A decision gives a call one lifetime for each next hop, or one if it joins a pending
Interest. -/
theorem enact_latest {nonce : Bytes} {fibFaces : List (FaceId × ℕ)}
    {decision : StrategyDecision} {call' : Call}
    (hc : (s.enact c call nonce fibFaces decision).loop.calls c = some call') :
    call'.latest s.loop.monotonic ≤ s.loop.monotonic +
      max 1 (s.strategy.usableFaces s.loop.monotonic fibFaces).length *
        call.interest.lifetimeMs := by
  have hended {u : Forwarder} {phase : Phase} (hp : phase.Ended)
      (hc : (u.finish c call phase).loop.calls c = some call') :
      call'.latest s.loop.monotonic ≤ s.loop.monotonic +
        max 1 (s.strategy.usableFaces s.loop.monotonic fibFaces).length *
          call.interest.lifetimeMs := by
    rw [finish, EventLoop.calls_setCall, if_pos rfl] at hc
    obtain rfl := Option.some.inj hc
    rw [Call.latest, hp.latest]
    exact Nat.le_add_right _ _
  cases decision with
  | serveFromCache d => exact hended (.returned _) hc
  | serveStaleRevalidate d face => exact hended (.returned _) hc
  | suppressAggregate =>
    rw [enact, EventLoop.calls_wait, if_pos rfl] at hc
    obtain rfl := Option.some.inj hc
    exact Nat.add_le_add_left (Nat.le_mul_of_pos_left _ (le_max_left 1 _)) _
  | forwardTo face =>
    rw [← s.length_failoverCandidates fibFaces face]
    exact forward_latest hc
  | noRoute => exact hended (.returned _) hc

/-- A new call ends within one lifetime for each of its usable next hops, or of one if it joins a
pending Interest. -/
theorem express_latest {i : Interest} {inFace : FaceId} {nonce : Bytes}
    (hc : (s.express i inFace nonce).loop.calls s.loop.nextCall = some call) :
    call.latest s.loop.monotonic ≤ s.loop.monotonic +
      max 1 (s.strategy.usableFaces s.loop.monotonic (s.fib.lookup i.name)).length *
        i.lifetimeMs := by
  rw [express] at hc
  split at hc
  · rw [EventLoop.calls_spawn, if_pos rfl] at hc
    obtain rfl := Option.some.inj hc
    exact Nat.le_add_right _ _
  · cases hl : s.csLookup i with
    | mk cs lookup =>
      rw [hl] at hc
      cases lookup with
      | error e =>
        dsimp only at hc
        rw [finish, EventLoop.calls_setCall, if_pos rfl] at hc
        obtain rfl := Option.some.inj hc
        exact Nat.le_add_right _ _
      | ok csHit => exact enact_latest hc

/-- If the event loop is never late, a call of `express` that is in flight was begun no longer than
one lifetime of its Interest ago for each next hop that was usable then, and no longer than one
lifetime if there was at most one. -/
theorem express_within {s₀ : Forwarder} {ls₀ ls : List Label} {i : Interest} {inFace : FaceId}
    {nonce : Bytes} (h₀ : Run step Prompt s₀ ls₀ s) (hinit : s₀.Initial)
    (h : Run step Prompt (s.express i inFace nonce) ls t)
    (hc : t.loop.calls s.loop.nextCall = some call) (hend : ¬ call.phase.Ended) :
    t.loop.monotonic ≤ s.loop.monotonic +
      max 1 (s.strategy.usableFaces s.loop.monotonic (s.fib.lookup i.name)).length *
        i.lifetimeMs := by
  have hinv := h₀.invariant (I := fun s => s.Consistent ∧ s.Due)
    ⟨hinit.consistent, hinit.due⟩
    fun _ _ _ hi hok hs => ⟨step_consistent hs hi.1, step_due hi.2 hi.1 hok hs⟩
  have hstep : step s (.express i inFace nonce) = some (s.express i inFace nonce) := rfl
  have hok : s.Prompt (.express i inFace nonce) := by
    rintro ms time ⟨⟩
  have hcon := step_consistent hstep hinv.1
  have hm : (s.express i inFace nonce).loop.monotonic = s.loop.monotonic :=
    (step_change hstep).monotonic_eq (by rintro ms time ⟨⟩)
  obtain ⟨⟨call₁, hc₁, -⟩, -⟩ := express_calls s i inFace nonce
  have hle := latest_of_run h hcon (step_due hinv.2 hinv.1 hok hstep) hc₁ hc hend
  rw [hm] at hle
  exact hle.trans (express_latest hc₁)

omit [Hashlib] in
theorem requested_within :
    letI := Data.paddedHash
    ∃ t, Run step Prompt ((relay [1]).express (request 1 1000) 7 []) [.sent 0, .tick 400 0] t ∧
      t.loop.monotonic ≤ (relay [1]).loop.monotonic +
        max 1 ((relay [1]).strategy.usableFaces (relay [1]).loop.monotonic
          ((relay [1]).fib.lookup (request 1 1000).name)).length *
            (request 1 1000).lifetimeMs := by
  let := Data.paddedHash
  have hsleep : requested.Prompt (.tick 400 0) := by
    rintro ms time ⟨⟩ c call hc
    rw [requested_call hc]
    exact .inr ⟨0, 1000, rfl, rfl, rfl, by decide⟩
  have hsent : ((relay [1]).express (request 1 1000) 7 []).Prompt (.sent 0) := by
    rintro ms time ⟨⟩
  have hrun : Run step Prompt ((relay [1]).express (request 1 1000) 7 []) [.sent 0, .tick 400 0]
      { requested with
        loop := { requested.loop with monotonic := requested.loop.monotonic + 400 }, time := 0 } :=
    .cons hsent (t := requested) rfl (.cons hsleep rfl (.nil _))
  have hcall : requested.loop.calls 0 = some requestedCall := rfl
  have hend : ¬ requestedCall.phase.Ended := by
    rintro ⟨⟩
  exact ⟨_, hrun, express_within (.nil (relay [1])) (relay_initial [1]) hrun hcall hend⟩

end Forwarder

end RnsIcn
