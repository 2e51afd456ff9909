import RnsIcn.Forwarder.Hops
import RnsIcn.Lib.SingleFlight

/-! # Background revalidation

A stale answer starts a refresh of its name unless one is under way. The name is
marked when the refresh is scheduled and given back when it ends, whatever ends
it. A refresh has one next hop and so makes one attempt at most.
-/

namespace RnsIcn

open Transition EventLoop

namespace EventLoop

/-- Call `c` is a refresh of the name that has not finished. -/
def Refreshing (r : EventLoop) (n : Name) (c : CallId) : Prop :=
  ∃ call, r.calls c = some call ∧ call.refreshes = some n ∧ ¬ call.phase.Ended

/-- The Interests that call `c` has sent. -/
def sends (r : EventLoop) (c : CallId) : ℕ := r.log.countP (Event.begins c)

theorem sends_of_log {r r' : EventLoop} {c : CallId} {es : List Event} (h : r'.log = es ++ r.log)
    (hes : ∀ e ∈ es, e.begins c = false) : r'.sends c = r.sends c := by
  rw [sends, sends, h, List.countP_append, List.countP_eq_zero.mpr, Nat.zero_add]
  intro e he
  simp [hes e he]

theorem sends_failure (r : EventLoop) (c c' : CallId) (face : FaceId) (name : Name) (time : ℕ) :
    (r.record (.failure c' face name time)).sends c = r.sends c := by
  simp [sends, record, Event.begins]

end EventLoop

def Call.giveBack (call : Call) (names : List Name) : List Name :=
  match call.refreshes with
  | none => names
  | some n => names.filter (· ≠ n)

/-- The phases of a refresh that has sent `k` Interests: one face is scheduled, and none is left
after it. -/
inductive Phase.Single (k : ℕ) : Phase → Prop where

  | scheduled {face : FaceId} : k = 0 → Single k (.scheduled [face])

  | sending {face : FaceId} : k = 1 → Single k (.sending face [])

  | waiting {face : FaceId} {fut deadline : ℕ} : k = 1 → Single k (.waiting face [] fut deadline)

  | ended {phase : Phase} : phase.Ended → k ≤ 1 → Single k phase

theorem Phase.Single.le_one {k : ℕ} {phase : Phase} (h : phase.Single k) : k ≤ 1 := by
  cases h <;> omega

theorem Outcome.single {r r' : EventLoop} {c : CallId} {call later : Call} {faces : List FaceId}
    (ho : Outcome r c call faces r') (hk : r.sends c + faces.length ≤ 1)
    (hc : r'.calls c = some later) : later.phase.Single (r'.sends c) := by
  cases ho with
  | @failed phase hf =>
    rw [calls_setCall, if_pos rfl] at hc
    obtain rfl := Option.some.inj hc
    exact .ended hf.ended (le_trans (Nat.le_add_right _ _) hk)
  | @send face rest _ _ hsuffix =>
    rw [calls_send, if_pos rfl] at hc
    obtain rfl := Option.some.inj hc
    have hlen := hsuffix.length_le
    rw [List.length_cons] at hlen
    obtain rfl : rest = [] := List.length_eq_zero_iff.mp (by omega)
    have hsends : (r.send c call face []).sends c = r.sends c + 1 := by
      change (Event.attempt c face r.monotonic :: r.log).countP (Event.begins c) = _
      simp [sends, Event.begins]
    refine .sending ?_
    rw [hsends]
    simp only [List.length_nil] at hlen
    omega

namespace Forwarder

/-- Call `c` is in a later phase in `t`, and the marked names are `names` without that of the call
if it has ended. -/
def GivesBack (names : List Name) (c : CallId) (call : Call) (t : Forwarder) : Prop :=
  ∃ later, t.loop.calls c = some later ∧ later.refreshes = call.refreshes ∧
    (later.phase.Ended ∧ t.revalidating = call.giveBack names ∨
      ¬ later.phase.Ended ∧ t.revalidating = names)

section Marks

variable {s t : Forwarder} {c : CallId} {call : Call} {l : Label} {names : List Name}

theorem GivesBack.of_none (h : GivesBack names c call t) (hr : call.refreshes = none) :
    t.revalidating = names := by
  obtain ⟨later, -, -, ⟨-, h⟩ | ⟨-, h⟩⟩ := h
  · rw [h, Call.giveBack, hr]
  · exact h

theorem finish_givesBack {phase : Phase} (hn : s.revalidating = names) (he : phase.Ended) :
    GivesBack names c call (s.finish c call phase) := by
  refine ⟨_, (calls_setCall ..).trans (if_pos rfl), rfl, .inl ⟨he, ?_⟩⟩
  cases h : call.refreshes <;> simp [finish, Call.giveBack, h, hn]

theorem attempts_givesBack (hn : s.revalidating = names) (faces : List FaceId) :
    GivesBack names c call (s.attempts c call faces) := by
  induction faces generalizing s with
  | nil => exact finish_givesBack hn (.returned none)
  | cons face rest ih =>
    rw [attempts]
    split
    · split
      · exact finish_givesBack hn (.raised _)
      · refine ⟨_, (calls_send ..).trans (if_pos rfl), rfl, .inr ⟨?_, hn⟩⟩
        rintro ⟨⟩
    · apply ih
      exact hn

theorem forward_givesBack (hn : s.revalidating = names) (faces : List FaceId) :
    GivesBack names c call (s.forward c call faces) := by
  rw [forward]
  split
  · exact finish_givesBack hn (.returned none)
  · have hgives : GivesBack names c (call.hop (call.interest.hopLimit - 1))
        (s.attempts c (call.hop (call.interest.hopLimit - 1)) faces) := attempts_givesBack hn faces
    exact hgives

theorem attemptFailed_givesBack (hn : s.revalidating = names) (face : FaceId)
    (rest : List FaceId) : GivesBack names c call (s.attemptFailed c call face rest) := by
  rw [attemptFailed]
  apply attempts_givesBack
  exact hn

theorem run_givesBack [Hashlib] (hs : step s l = some t) (hl : l.runs = some c)
    (hc : s.loop.calls c = some call) : GivesBack s.revalidating c call t := by
  cases l with
  | start _ =>
    cases hl
    simp only [step, start, hc, Option.bind_some] at hs
    split at hs
    · exact Option.some.inj hs ▸ forward_givesBack rfl _
    · cases hs
  | sent _ =>
    cases hl
    simp only [step, sent, hc, Option.bind_some] at hs
    split at hs
    · obtain rfl := Option.some.inj hs
      refine ⟨_, (calls_wait ..).trans (if_pos rfl), rfl, .inr ⟨?_, rfl⟩⟩
      rintro ⟨⟩
    · cases hs
  | sendRaised _ e =>
    cases hl
    simp only [step, sendRaised, hc, Option.bind_some] at hs
    split at hs
    · exact Option.some.inj hs ▸ finish_givesBack rfl (.raised e)
    · cases hs
  | resume _ =>
    cases hl
    simp only [step, resume, hc, Option.bind_some] at hs
    split at hs
    · split at hs
      · exact Option.some.inj hs ▸ finish_givesBack rfl (.returned _)
      · exact Option.some.inj hs ▸ attemptFailed_givesBack rfl ..
      · cases hs
    · split at hs
      · exact Option.some.inj hs ▸ finish_givesBack rfl (.returned _)
      · exact Option.some.inj hs ▸ finish_givesBack rfl (.returned _)
      · cases hs
    · cases hs
  | timeout _ =>
    cases hl
    simp only [step, timeout, hc, Option.bind_some] at hs
    split at hs
    · split at hs
      · obtain rfl := Option.some.inj hs
        apply attemptFailed_givesBack
        rfl
      · cases hs
    · split at hs
      · exact Option.some.inj hs ▸ finish_givesBack rfl (.returned _)
      · cases hs
    · cases hs
  | _ => cases hl

end Marks

section New

variable [Hashlib] {s t : Forwarder} {i : Interest} {inFace face : FaceId} {d : Data}

def refreshOf (i : Interest) (inFace outFace : FaceId) (nonce : Bytes) : Call where
  interest := { i with nonce, mustBeFresh := true }
  inFace
  refreshes := some i.name
  phase := .scheduled [outFace]

/-- An Interest adds a call that is no refresh, and leaves all but the next two ids. -/
theorem express_calls (s : Forwarder) (i : Interest) (inFace : FaceId) (nonce : Bytes) :
    (∃ call, (s.express i inFace nonce).loop.calls s.loop.nextCall = some call ∧
      call.refreshes = none) ∧
    ∀ c, c ≠ s.loop.nextCall → c ≠ s.loop.nextCall + 1 →
      (s.express i inFace nonce).loop.calls c = s.loop.calls c := by
  have ch := express_change s i inFace nonce
  generalize (s.express i inFace nonce).loop = r at ch
  cases ch with
  | routed ho =>
    constructor
    · cases ho with
      | failed _ => exact ⟨_, (calls_setCall ..).trans (if_pos rfl), rfl⟩
      | send _ => exact ⟨_, (calls_send ..).trans (if_pos rfl), rfl⟩
    · intro c hc _
      rw [ho.calls_ne hc, calls_spawn, if_neg hc]
  | hit _ _ =>
    refine ⟨⟨_, (calls_setCall ..).trans (if_pos rfl), rfl⟩, fun c hc _ => ?_⟩
    rw [calls_setCall, if_neg hc, calls_spawn, if_neg hc]
  | hitStale _ _ =>
    refine ⟨⟨_, (calls_setCall ..).trans (if_pos rfl), rfl⟩, fun c hc hnext => ?_⟩
    have hlater : c ≠ (s.loop.spawn (.ofInterest i inFace)).nextCall := hnext
    rw [calls_setCall, if_neg hc, calls_spawn, if_neg hlater, calls_spawn, if_neg hc]
  | joined _ _ =>
    refine ⟨⟨_, (calls_wait ..).trans (if_pos rfl), rfl⟩, fun c hc _ => ?_⟩
    rw [calls_wait, if_neg hc, calls_spawn, if_neg hc]
  | ran _ ran => cases ran
  | quiet hq => cases hq

/-- An Interest marks a name only with a refresh of it, and only one that is not marked. -/
theorem express_marks (s : Forwarder) (i : Interest) (inFace : FaceId) (nonce : Bytes) :
    ((s.express i inFace nonce).revalidating = s.revalidating ∧
      (s.express i inFace nonce).loop.calls (s.loop.nextCall + 1) =
        s.loop.calls (s.loop.nextCall + 1)) ∨
    i.name ∉ s.revalidating ∧
      (s.express i inFace nonce).revalidating = i.name :: s.revalidating ∧
      ∃ outFace, (s.express i inFace nonce).loop.calls (s.loop.nextCall + 1) =
        some (refreshOf i inFace outFace nonce) := by
  have hne : s.loop.nextCall + 1 ≠ s.loop.nextCall := Nat.succ_ne_self _
  have hspawn : (s.loop.spawn (.ofInterest i inFace)).calls (s.loop.nextCall + 1) =
      s.loop.calls (s.loop.nextCall + 1) := (calls_spawn ..).trans (if_neg hne)
  have hset (r : EventLoop) (call : Call) :
      (r.setCall s.loop.nextCall call).calls (s.loop.nextCall + 1) =
        r.calls (s.loop.nextCall + 1) := (calls_setCall ..).trans (if_neg hne)
  rw [express]
  split
  · exact .inl ⟨rfl, hspawn⟩
  · cases hl : s.csLookup i with
    | mk cs lookup =>
      cases lookup with
      | error e => exact .inl ⟨rfl, (hset ..).trans hspawn⟩
      | ok csHit =>
        simp only
        generalize s.strategy.decide _ i _ _ csHit = decision
        cases decision with
        | serveFromCache d => exact .inl ⟨rfl, (hset ..).trans hspawn⟩
        | serveStaleRevalidate d face =>
          simp only [enact, scheduleRevalidation]
          split
          · exact .inl ⟨rfl, (hset ..).trans hspawn⟩
          · rename_i hmarked
            refine .inr ⟨hmarked, rfl, face, (hset ..).trans ?_⟩
            exact (calls_spawn ..).trans (if_pos rfl)
        | suppressAggregate =>
          exact .inl ⟨rfl, (calls_wait ..).trans ((if_neg hne).trans hspawn)⟩
        | forwardTo face =>
          refine .inl ⟨GivesBack.of_none (forward_givesBack rfl _) rfl,
            (forward_calls_ne hne).trans hspawn⟩
        | noRoute => exact .inl ⟨rfl, (hset ..).trans hspawn⟩

end New

section Marked

variable {s t : Forwarder} {c : CallId} {call : Call} {l : Label} {n : Name}

def marked (s : Forwarder) : Set Name := {n | n ∈ s.revalidating}

theorem marked_giveBack {names : List Name} (hr : call.refreshes = some n) :
    {m | m ∈ call.giveBack names} = {m | m ∈ names} \ {n} := by
  ext m
  simp [Call.giveBack, hr]

variable [Hashlib]

theorem calls_of_no_run (hs : step s l = some t) (hl : l.runs = none)
    (he : ∀ i inFace nonce, l ≠ .express i inFace nonce) :
    t.loop.calls = s.loop.calls ∧ t.revalidating = s.revalidating := by
  cases l with
  | express i inFace nonce => exact absurd rfl (he i inFace nonce)
  | receiveData d inFace unsolicited =>
    obtain rfl := Option.some.inj hs
    refine ⟨receiveData_calls .., ?_⟩
    rw [receiveData]
    simp only
    split
    · rfl
    · rw [cacheAnswer]; split <;> rfl
    · split
      · rw [cacheAnswer]; split <;> rfl
      · rfl
  | receiveNack name inFace => exact Option.some.inj hs ▸ ⟨rfl, rfl⟩
  | purgeExpired => exact Option.some.inj hs ▸ ⟨rfl, rfl⟩
  | tick ms time => exact Option.some.inj hs ▸ ⟨rfl, rfl⟩
  | registerFace face => exact Option.some.inj hs ▸ ⟨rfl, rfl⟩
  | withdrawFace face => exact Option.some.inj hs ▸ ⟨rfl, rfl⟩
  | addRoute namePrefix face cost => exact Option.some.inj hs ▸ ⟨rfl, rfl⟩
  | store op => exact Option.some.inj hs ▸ ⟨rfl, rfl⟩
  | _ => cases hl

theorem calls_of_runs (hs : step s l = some t) (hl : l.runs = some c) :
    ∃ call, s.loop.calls c = some call := by
  cases hc : s.loop.calls c with
  | some call => exact ⟨call, rfl⟩
  | none => cases l <;> cases hl <;> simp [step, start, sent, sendRaised, resume, timeout, hc] at hs

theorem run_singleFlight (hs : step s l = some t) (hl : l.runs = some c)
    (h : SingleFlight s.marked s.loop.Refreshing) : SingleFlight t.marked t.loop.Refreshing := by
  obtain ⟨call, hc⟩ := calls_of_runs hs hl
  have ran := (step_change hs).ran_of_runs hl hc
  obtain ⟨later, hc', hr, hback⟩ := run_givesBack hs hl hc
  have hother (m : Name) (c' : CallId) (hne : c' ≠ c) :
      t.loop.Refreshing m c' ↔ s.loop.Refreshing m c' := by
    rw [Refreshing, Refreshing, ran.calls_ne hne]
  have hself (m : Name) :
      t.loop.Refreshing m c ↔ call.refreshes = some m ∧ ¬ later.phase.Ended := by
    simp [Refreshing, hc', hr]
  have hbefore (m : Name) : s.loop.Refreshing m c ↔ call.refreshes = some m := by
    simp [Refreshing, hc, ran.not_ended]
  rcases hback with ⟨he, hnames⟩ | ⟨hgoes, hnames⟩
  · cases hn : call.refreshes with
    | none =>
      have hmarked : t.marked = s.marked := by rw [marked, hnames, Call.giveBack, hn]; rfl
      rw [hmarked]
      refine h.congr fun m c' => ?_
      by_cases hne : c' = c
      · subst hne
        rw [hself, hbefore, hn]
        simp
      · exact hother m c' hne
    | some n =>
      have hmarked : t.marked = s.marked \ {n} := by
        rw [marked, hnames]
        exact marked_giveBack hn
      rw [hmarked]
      refine h.ends ((hbefore n).mpr hn) (fun m hm => ?_) fun m c' => ?_
      · exact Option.some.inj (((hbefore m).mp hm).symm.trans hn)
      · by_cases hne : c' = c
        · subst hne
          rw [hself]
          simp [he]
        · rw [hother m c' hne]
          simp [hne]
  · have hmarked : t.marked = s.marked := by rw [marked, hnames]; rfl
    rw [hmarked]
    refine h.congr fun m c' => ?_
    by_cases hne : c' = c
    · subst hne
      rw [hself, hbefore]
      simp [hgoes]
    · exact hother m c' hne

theorem express_singleFlight (hcon : s.Consistent) (i : Interest) (inFace : FaceId)
    (nonce : Bytes) (h : SingleFlight s.marked s.loop.Refreshing) :
    SingleFlight (s.express i inFace nonce).marked (s.express i inFace nonce).loop.Refreshing := by
  obtain ⟨⟨call, hc, hr⟩, hold⟩ := express_calls s i inFace nonce
  have hfresh (c : CallId) (hlt : s.loop.nextCall ≤ c) (m : Name) : ¬ s.loop.Refreshing m c := by
    rintro ⟨call, hcall, -⟩
    rw [hcon.loop.fresh c hlt] at hcall
    cases hcall
  have hnew (m : Name) :
      (s.express i inFace nonce).loop.Refreshing m s.loop.nextCall ↔
        s.loop.Refreshing m s.loop.nextCall := by
    simp [Refreshing, hc, hr, hcon.loop.fresh _ le_rfl]
  rcases express_marks s i inFace nonce with ⟨hnames, hnext⟩ | ⟨hfree, hnames, outFace, hnext⟩
  · have hmarked : (s.express i inFace nonce).marked = s.marked := by rw [marked, hnames]; rfl
    rw [hmarked]
    refine h.congr fun m c => ?_
    by_cases hfirst : c = s.loop.nextCall
    · exact hfirst ▸ hnew m
    · by_cases hsecond : c = s.loop.nextCall + 1
      · rw [Refreshing, Refreshing, hsecond, hnext]
      · rw [Refreshing, Refreshing, hold c hfirst hsecond]
  · have hmarked : (s.express i inFace nonce).marked = insert i.name s.marked := by
      ext m
      simp [marked, hnames]
    rw [hmarked]
    refine h.begins (i := s.loop.nextCall + 1) hfree fun m c => ?_
    by_cases hfirst : c = s.loop.nextCall
    · subst hfirst
      rw [hnew]
      simp
    · by_cases hsecond : c = s.loop.nextCall + 1
      · subst hsecond
        have hrefresh : (s.express i inFace nonce).loop.Refreshing m (s.loop.nextCall + 1) ↔
            m = i.name := by
          constructor
          · rintro ⟨later, hlater, hn, -⟩
            obtain rfl := Option.some.inj (hlater.symm.trans hnext)
            exact (Option.some.inj hn).symm
          · rintro rfl
            exact ⟨_, hnext, rfl, nofun⟩
        simp [hrefresh, hfresh _ (Nat.le_succ _)]
      · rw [Refreshing, hold c hfirst hsecond]
        simp [Refreshing, hsecond]

theorem step_singleFlight (hs : step s l = some t) (hcon : s.Consistent)
    (h : SingleFlight s.marked s.loop.Refreshing) : SingleFlight t.marked t.loop.Refreshing := by
  cases hl : l.runs with
  | some c => exact run_singleFlight hs hl h
  | none =>
    by_cases he : ∃ i inFace nonce, l = .express i inFace nonce
    · obtain ⟨i, inFace, nonce, rfl⟩ := he
      exact Option.some.inj hs ▸ express_singleFlight hcon i inFace nonce h
    · push Not at he
      obtain ⟨hcalls, hnames⟩ := calls_of_no_run hs hl he
      rw [marked, hnames]
      refine h.congr fun m c => ?_
      rw [Refreshing, Refreshing, hcalls]

end Marked

section Single

variable {s t : Forwarder} {c : CallId} {call later : Call} {l : Label}

theorem Ran.single {r : EventLoop} (ran : Ran s c call l r)
    (h : call.phase.Single (s.loop.sends c)) (hc : r.calls c = some later) :
    later.phase.Single (r.sends c) := by
  have hended {q : EventLoop} {phase : Phase} (hq : q.sends c = s.loop.sends c)
      (hr : (q.setCall c { call with phase }).calls c = some later) (he : phase.Ended) :
      later.phase.Single ((q.setCall c { call with phase }).sends c) := by
    rw [calls_setCall, if_pos rfl] at hr
    obtain rfl := Option.some.inj hr
    exact .ended he (hq.trans_le h.le_one)
  cases ran with
  | started hp ho =>
    rw [hp] at h
    cases h with
    | scheduled hk => exact ho.single (by rw [hk]; exact le_rfl) hc
    | ended he _ => cases he
  | sent hp =>
    rw [hp] at h
    rw [calls_wait, if_pos rfl] at hc
    obtain rfl := Option.some.inj hc
    cases h with
    | sending hk => exact .waiting hk
    | ended he _ => cases he
  | sendRaised hp => exact hended rfl hc (.raised _)
  | answered hp hst =>
    exact hended (by simp [sends, record, Event.begins]) hc (.returned _)
  | nacked hp hst ho =>
    rw [hp] at h
    cases h with
    | waiting hk =>
      exact ho.single (by rw [sends_failure]; exact hk.le) hc
    | ended he _ => cases he
  | shared hp hst => exact hended rfl hc (.returned _)
  | sharedNack hp hst => exact hended rfl hc (.returned _)
  | expired hp hst hd ho =>
    rw [hp] at h
    cases h with
    | waiting hk =>
      exact ho.single (by rw [sends_failure]; exact hk.le) hc
    | ended he _ => cases he
  | sharedExpired hp hst hd => exact hended rfl hc (.returned _)

end Single

section Runs

variable [Hashlib] {s t : Forwarder} {c : CallId} {l : Label}

theorem Change.sends_eq {r : EventLoop} (ch : Change s l r) (hl : l.runs ≠ some c)
    (hc : c ≠ s.loop.nextCall) : r.sends c = s.loop.sends c := by
  obtain ⟨es, hlog, hes⟩ := ch.log
  refine sends_of_log hlog fun e he => ?_
  by_contra hb
  rcases (hes e he).1 c (by simpa using hb) with hrun | hid
  · exact hl hrun
  · exact hc hid

theorem Change.sends_of_none {r : EventLoop} (ch : Change s l r) (hc : r.calls c = none) :
    r.sends c = s.loop.sends c := by
  obtain ⟨es, hlog, hes⟩ := ch.beginsLast
  refine sends_of_log hlog fun e he => ?_
  by_contra hb
  cases e with
  | attempt c' face start =>
    obtain rfl : c' = c := by simpa [Event.begins] using hb
    obtain ⟨-, call, rest, hcall, -⟩ := hes c' face start he
    rw [hc] at hcall
    cases hcall
  | _ => simp [Event.begins] at hb

theorem calls_of_none (hs : step s l = some t) (hcon : s.Consistent)
    (hc : t.loop.calls c = none) : s.loop.calls c = none := by
  cases hcall : s.loop.calls c with
  | none => rfl
  | some call =>
    by_cases hl : l.runs = some c
    · obtain ⟨later, hlater, -⟩ := run_givesBack hs hl hcall
      cases hc.symm.trans hlater
    · cases hc.symm.trans ((step_change hs).frame hcon.loop hcall hl).calls

/-- The marked names are those of the refreshes under way, one for each, and a refresh has sent
one Interest at most. -/
structure Revalidates (s : Forwarder) : Prop where
  consistent : s.Consistent
  flight : SingleFlight s.marked s.loop.Refreshing
  single : ∀ c call n, s.loop.calls c = some call → call.refreshes = some n →
    call.phase.Single (s.loop.sends c)
  unsent : ∀ c, s.loop.calls c = none → s.loop.sends c = 0

omit [Hashlib] in
theorem Initial.revalidates (h : s.Initial) (hr : s.revalidating = []) : s.Revalidates where
  consistent := h.consistent
  flight := by
    have hmarked : s.marked = ∅ := by ext n; simp [marked, hr]
    rw [hmarked]
    exact .none fun n c ⟨call, hc, _⟩ => by simp [h.calls] at hc
  single c call n hc := by simp [h.calls] at hc
  unsent c _ := by rw [sends, h.log]; rfl

/-- What is there of a refresh after an event was there before, or is scheduled by it. -/
theorem Revalidates.single_of_step (h : s.Revalidates) (hs : step s l = some t) {later : Call}
    {n : Name} (hc : t.loop.calls c = some later) (hn : later.refreshes = some n) :
    later.phase.Single (t.loop.sends c) := by
  have ch := step_change hs
  by_cases hl : l.runs = some c
  · obtain ⟨call, hcall⟩ := calls_of_runs hs hl
    obtain ⟨later', hlater, hr, -⟩ := run_givesBack hs hl hcall
    obtain rfl := Option.some.inj (hc.symm.trans hlater)
    exact (ch.ran_of_runs hl hcall).single (h.single c call n hcall (hr.symm.trans hn)) hc
  · cases hcall : s.loop.calls c with
    | some call =>
      obtain rfl := Option.some.inj (hc.symm.trans (ch.frame h.consistent.loop hcall hl).calls)
      rw [ch.sends_eq hl (h.consistent.loop.lt hcall).ne]
      exact h.single c later n hcall hn
    | none =>
      obtain ⟨⟨i, inFace, nonce, rfl⟩, -⟩ := (ch.spawned hcall hc).express
      obtain ⟨⟨first, hfirst, hnone⟩, hold⟩ := express_calls s i inFace nonce
      obtain rfl := Option.some.inj hs
      have hne : c ≠ s.loop.nextCall := by
        rintro rfl
        obtain rfl := Option.some.inj (hc.symm.trans hfirst)
        cases hn.symm.trans hnone
      have hsecond : c = s.loop.nextCall + 1 := by
        by_contra hsecond
        cases hcall.symm.trans ((hold c hne hsecond).symm.trans hc)
      rw [ch.sends_eq hl hne, h.unsent c hcall]
      subst hsecond
      rcases express_marks s i inFace nonce with ⟨-, hnext⟩ | ⟨-, -, outFace, hnext⟩
      · cases hcall.symm.trans (hnext.symm.trans hc)
      · obtain rfl := Option.some.inj (hc.symm.trans hnext)
        exact .scheduled rfl

theorem Revalidates.step (h : s.Revalidates) (hs : step s l = some t) : t.Revalidates where
  consistent := step_consistent hs h.consistent
  flight := step_singleFlight hs h.consistent h.flight
  single _ _ _ hc hn := h.single_of_step hs hc hn
  unsent c hc :=
    ((step_change hs).sends_of_none hc).trans (h.unsent c (calls_of_none hs h.consistent hc))

theorem reachable_revalidates {ok : Forwarder → Label → Prop}
    (hs : Reachable (fun s => s.Initial ∧ s.revalidating = []) step ok s) : s.Revalidates :=
  hs.invariant (fun _ h => h.1.revalidates h.2) fun _ _ _ hi _ hst => hi.step hst

/-- The cache answers the Interest with Data that is stale but within the window, and `face` is the
first next hop that is not in back-off. -/
structure StaleHit (s : Forwarder) (i : Interest) (inFace : FaceId) (d : Data) (face : FaceId) :
    Prop where
  nonce : s.pit.checkLoop inFace i.nonce = false
  found : (s.csLookup i).2 = .ok (some d)
  satisfies : BestRoute.selectorSatisfied i d = true
  stale : d.metadata.freshness.fresh = false
  within : s.strategy.withinSwrWindow d = true
  usable : s.strategy.firstUsableFace s.loop.monotonic (s.fib.lookup i.name) = some face

theorem express_of_staleHit {i : Interest} {inFace face : FaceId} {d : Data}
    (h : s.StaleHit i inFace d face) (nonce : Bytes) :
    ∃ cs, s.express i inFace nonce = (Forwarder.scheduleRevalidation { s with
      cs, pit := s.pit.recordNonce inFace i.nonce s.loop.monotonic
      loop := s.loop.spawn (.ofInterest i inFace) } i inFace face nonce).finish s.loop.nextCall
        (.ofInterest i inFace) (.returned (some d)) := by
  obtain ⟨cs, hcs⟩ : ∃ cs, s.csLookup i = (cs, .ok (some d)) := ⟨_, Prod.ext rfl h.found⟩
  have hdec : s.strategy.decide s.loop.monotonic i (s.fib.lookup i.name) (s.pit.find i.name)
      (some d) = .serveStaleRevalidate d face := by
    simp [BestRoute.decide, BestRoute.decideCached, Option.filter, h.satisfies, h.stale, h.within,
      h.usable]
  refine ⟨cs, ?_⟩
  rw [express]
  simp only [h.nonce, hcs, Bool.false_eq_true, if_false, Pit.find_recordNonce]
  rw [show (s.loop.spawn { interest := i, inFace, phase := .returned none }).monotonic =
    s.loop.monotonic from rfl, hdec, enact]
  rfl

/-- A stale hit is answered and starts a refresh of its name, unless one is under way. -/
theorem staleHit_refreshes (h : s.Revalidates) {i : Interest} {inFace face : FaceId} {d : Data}
    (hit : s.StaleHit i inFace d face) (nonce : Bytes) :
    (∃ call, (s.express i inFace nonce).loop.calls s.loop.nextCall = some call ∧
      call.phase = .returned (some d)) ∧
    (s.express i inFace nonce).loop.calls (s.loop.nextCall + 1) =
      if i.name ∈ s.revalidating then none else some (refreshOf i inFace face nonce) := by
  obtain ⟨cs, he⟩ := express_of_staleHit hit nonce
  have hne : s.loop.nextCall + 1 ≠ s.loop.nextCall := Nat.succ_ne_self _
  rw [he, finish]
  refine ⟨⟨_, (calls_setCall ..).trans (if_pos rfl), rfl⟩, ?_⟩
  rw [calls_setCall, if_neg hne, scheduleRevalidation]
  split
  · rw [calls_spawn, if_neg hne]
    exact h.consistent.loop.fresh _ (Nat.le_succ _)
  · exact (calls_spawn ..).trans (if_pos rfl)

/-- In every run each name has one refresh under way at most, the marked names are those of the
refreshes under way, and each refresh sends one Interest at most. A stale hit starts a refresh
exactly if none of its name is under way, so also after one has ended, whatever its end was. -/
theorem revalidation_single_flight {ok : Forwarder → Label → Prop}
    (hs : Reachable (fun s => s.Initial ∧ s.revalidating = []) step ok s) :
    (∀ n c c', s.loop.Refreshing n c → s.loop.Refreshing n c' → c = c') ∧
    (∀ n, n ∈ s.revalidating ↔ ∃ c, s.loop.Refreshing n c) ∧
    (∀ c call n, s.loop.calls c = some call → call.refreshes = some n → s.loop.sends c ≤ 1) ∧
    ∀ i inFace d face nonce, s.StaleHit i inFace d face →
      (∃ call, (s.express i inFace nonce).loop.calls s.loop.nextCall = some call ∧
        call.phase = .returned (some d)) ∧
      ((s.express i inFace nonce).loop.Refreshing i.name (s.loop.nextCall + 1) ↔
        ∀ c, ¬ s.loop.Refreshing i.name c) := by
  have h := reachable_revalidates hs
  refine ⟨h.flight.unique, h.flight.marked_iff,
    fun c call n hc hn => (h.single c call n hc hn).le_one, ?_⟩
  intro i inFace d face nonce hit
  obtain ⟨hanswer, hnext⟩ := staleHit_refreshes h hit nonce
  refine ⟨hanswer, ?_⟩
  rw [← not_exists, ← h.flight.marked_iff, Refreshing, hnext]
  by_cases hm : i.name ∈ s.revalidating
  · simp [hm, marked]
  · rw [if_neg hm]
    exact ⟨fun _ => hm, fun _ => ⟨_, rfl, rfl, nofun⟩⟩

end Runs

/-- A relay that keeps an answer for 10 s and serves it stale for 100 s more. -/
def staleRelay : Forwarder := { relay [1] with strategy := { staleWhileRevalidate := 100 } }

/-- A refresh of the stale answer times out, and face 1 leaves back-off. -/
def refreshTimesOut : List Label :=
  [.store (.insert relayName { answer with metadata := { freshnessPeriod := some 10 } } 0),
    .tick 20000 20, .express (request 1 1000) 7 [], .start 1, .sent 1, .tick 1000 21, .timeout 1,
    .tick 2000 23]

def refreshFailed : Forwarder :=
  letI := Data.paddedHash
  (exec step staleRelay refreshTimesOut).getD staleRelay

theorem refresh_started_again :
    letI := Data.paddedHash
    (refreshFailed.express (request 2 1000) 7 []).loop.Refreshing relayName 3 := by
  let := Data.paddedHash
  have hsome : (exec step staleRelay refreshTimesOut).isSome = true := by decide +kernel
  have hexec : exec step staleRelay refreshTimesOut = some refreshFailed := by
    obtain ⟨t, ht⟩ := Option.isSome_iff_exists.mp hsome
    rw [refreshFailed, ht, Option.getD_some]
  have hs : Reachable (fun s => s.Initial ∧ s.revalidating = []) step anyStep refreshFailed :=
    ⟨staleRelay, refreshTimesOut, ⟨⟨rfl, fun _ => rfl, rfl, rfl⟩, rfl⟩, run_of_exec hexec⟩
  obtain ⟨-, hmarked, -, hstart⟩ := revalidation_single_flight hs
  have hit : refreshFailed.StaleHit (request 2 1000) 7 _ 1 := ⟨rfl, rfl, rfl, rfl, rfl, rfl⟩
  refine (hstart _ _ _ _ [] hit).2.mpr fun c hc => ?_
  have hm : relayName ∈ refreshFailed.revalidating := (hmarked relayName).mpr ⟨c, hc⟩
  exact absurd hm (show relayName ∉ [] from List.not_mem_nil)

end Forwarder

end RnsIcn
