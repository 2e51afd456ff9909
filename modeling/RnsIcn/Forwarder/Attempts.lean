import RnsIcn.Forwarder.Answer
import RnsIcn.Forwarder.Fib
import RnsIcn.Forwarder.Receive
import RnsIcn.Lib.FirstSuccess

/-! # The order of the attempts

A call that is forwarded with no other traffic tries the registered faces of its
route that are not in back-off, the cheapest first, until one of them delivers.
Each face does one of three things with an attempt, and the call ends whatever
they do.
-/

namespace RnsIcn

open Transition EventLoop Fallible

inductive Response where
  | data (d : Data)
  | nack
  | timeout
  deriving DecidableEq, Repr

def Response.delivered : Response → Option Data
  | .data d => some d
  | _ => none

/-- `d` is what `i` asks for. If its name extends that of `i` the name has to be legal, since the
prefixes of another one cannot be built. -/
structure Interest.AnsweredBy (i : Interest) (d : Data) : Prop where
  asks : i.Asks d
  legal : d.name.withoutContentHash ≠ i.pitName → d.name.rnsAddr.length = RNS_ADDR_BYTES

theorem Interest.toBytes_hop {i : Interest} {raw : Bytes} (h : i.toBytes = .ok raw) (hop : ℕ) :
    ∃ raw', Interest.toBytes { i with hopLimit := hop } = .ok raw' := by
  simp only [toBytes, bind_eq_ok, pure_eq_ok] at h ⊢
  obtain ⟨head, hhead, lifetime, hlifetime, sel, hsel, -⟩ := h
  exact ⟨_, head, hhead, lifetime, hlifetime, sel, hsel, rfl⟩

namespace Event

def attempted (c : CallId) : Event → Option FaceId
  | .attempt c' face _ => if c' = c then some face else none
  | _ => none

def failed (c : CallId) : Event → Option FaceId
  | .failure c' face _ _ => if c' = c then some face else none
  | _ => none

def succeeded (c : CallId) : Event → Option (FaceId × Data)
  | .success c' face d => if c' = c then some (face, d) else none
  | _ => none

end Event

/-- Since `log`, call `c` made these attempts and had these failures and successes recorded, the
earliest first. -/
def Tally (c : CallId) (log log' : List Event) (attempts failures : List FaceId)
    (successes : List (FaceId × Data)) : Prop :=
  ∃ new, log' = new ++ log ∧ new.reverse.filterMap (Event.attempted c) = attempts ∧
    new.reverse.filterMap (Event.failed c) = failures ∧
    new.reverse.filterMap (Event.succeeded c) = successes

section Tally

variable {c : CallId} {log log' : List Event} {attempts failures : List FaceId}
  {successes : List (FaceId × Data)}

theorem Tally.refl (c : CallId) (log : List Event) : Tally c log log [] [] [] :=
  ⟨[], rfl, rfl, rfl, rfl⟩

theorem Tally.cons (h : Tally c log log' attempts failures successes) (e : Event) :
    Tally c log (e :: log') (attempts ++ (e.attempted c).toList)
      (failures ++ (e.failed c).toList) (successes ++ (e.succeeded c).toList) := by
  obtain ⟨new, rfl, rfl, rfl, rfl⟩ := h
  refine ⟨e :: new, rfl, ?_, ?_, ?_⟩
  all_goals
    rw [List.reverse_cons, List.filterMap_append]
    congr 1

theorem Tally.attempt (h : Tally c log log' attempts failures successes) (face : FaceId)
    (start : ℕ) :
    Tally c log (.attempt c face start :: log') (attempts ++ [face]) failures successes := by
  simpa [Event.attempted, Event.failed, Event.succeeded] using h.cons (.attempt c face start)

theorem Tally.failure (h : Tally c log log' attempts failures successes) (face : FaceId)
    (name : Name) (time : ℕ) :
    Tally c log (.failure c face name time :: log') attempts (failures ++ [face]) successes := by
  simpa [Event.attempted, Event.failed, Event.succeeded] using
    h.cons (.failure c face name time)

theorem Tally.success (h : Tally c log log' attempts failures successes) (face : FaceId)
    (d : Data) :
    Tally c log (.success c face d :: log') attempts failures (successes ++ [(face, d)]) := by
  simpa [Event.attempted, Event.failed, Event.succeeded] using h.cons (.success c face d)

theorem Tally.arrival (h : Tally c log log' attempts failures successes) {e : Event}
    (he : (∃ face d, e = .data face d) ∨ ∃ face name, e = .nack face name) :
    Tally c log (e :: log') attempts failures successes := by
  rcases he with ⟨face, d, rfl⟩ | ⟨face, name, rfl⟩
  · simpa [Event.attempted, Event.failed, Event.succeeded] using h.cons (.data face d)
  · simpa [Event.attempted, Event.failed, Event.succeeded] using h.cons (.nack face name)

end Tally

namespace BestRoute

variable {b b' : BestRoute} {face : FaceId} {failures : List FaceId}

/-- The consecutive failures that the strategy holds against a face, if any. -/
def count (b : BestRoute) (face : FaceId) : Option ℕ :=
  (b.failures.get? face).map FailureRecord.consecutiveFailures

/-- `b'` has one more failure of each of these faces than `b`, and none of the winner. -/
def Charged (b b' : BestRoute) (failures : List FaceId) (winner : Option FaceId) : Prop :=
  ∀ f, b'.count f = if f ∈ failures then some ((b.count f).getD 0 + 1)
    else if winner = some f then none else b.count f

theorem Charged.refl (b : BestRoute) : b.Charged b [] none := fun f => by simp

theorem count_recordFailure (b : BestRoute) (face f : FaceId) (now : ℕ) :
    (b.recordFailure face now).count f =
      if f = face then some ((b.count face).getD 0 + 1) else b.count f := by
  rw [count, recordFailure, Dict.get?_set]
  split <;> rfl

theorem count_recordSuccess (b : BestRoute) (face f : FaceId) :
    (b.recordSuccess face).count f = if f = face then none else b.count f := by
  rw [count, recordSuccess, Dict.get?_erase]
  split <;> rfl

theorem Charged.failure (h : b.Charged b' failures none) (hf : face ∉ failures) (now : ℕ) :
    b.Charged (b'.recordFailure face now) (failures ++ [face]) none := by
  intro f
  rw [count_recordFailure, h face, h f]
  by_cases hface : f = face
  · subst hface
    simp [hf]
  · simp [hface]

theorem Charged.success (h : b.Charged b' failures none) (hf : face ∉ failures) :
    b.Charged (b'.recordSuccess face) failures (some face) := by
  intro f
  rw [count_recordSuccess, h f]
  by_cases hface : f = face
  · subst hface
    simp [hf]
  · simp [hface, Ne.symm hface]

theorem usableFaces_ne_nil {now : ℕ} {i : Interest} {fibFaces : List (FaceId × ℕ)}
    {pitHit : Option PitEntry} {csHit : Option Data}
    (h : b.decide now i fibFaces pitHit csHit = .forwardTo face) :
    b.usableFaces now fibFaces ≠ [] := by
  intro hnil
  have hfirst : b.firstUsableFace now fibFaces = none := by rw [firstUsableFace, hnil]; rfl
  rw [decide] at h
  split at h
  · rename_i d _
    rcases b.decideCached_cases now fibFaces d with hd | ⟨f, hd⟩
    all_goals
      rw [hd] at h
      cases h
  · rw [decidePending, hfirst] at h
    split at h <;> cases h

end BestRoute

structure Pit.Sole (p : Pit) (i : Interest) : Prop where
  entry : ∃ e, p.find i.pitName = some e ∧ e.interest.canBePrefix = i.canBePrefix ∧
    e.satisfied = false
  others : ∀ m, m ≠ i.pitName → p.find m = none

theorem Pit.Sole.insert {p : Pit} (h : ∀ m, p.find m = none) (i : Interest) (inFace face : FaceId)
    (now : ℕ) :
    ((p.insertOrAggregate i.pitName inFace i now).setOutFace i.pitName face).Sole i where
  entry := by
    rw [find_setOutFace, if_pos rfl, find_insertOrAggregate_self]
    refine ⟨_, rfl, ?_⟩
    simp only [forwardEntry, h i.pitName, Option.filter_none, and_self]
  others m hm := by
    rw [find_setOutFace, if_neg hm]
    cases hf : (p.insertOrAggregate i.pitName inFace i now).find m with
    | none => rfl
    | some e => exact absurd (find_insertOrAggregate_ne hm hf) (by simp [h m])

theorem Pit.Sole.answeredName {p : Pit} {i : Interest} {d : Data} (h : p.Sole i)
    (hd : i.AnsweredBy d) :
    Forwarder.answeredName p d.name.withoutContentHash = .ok (some i.pitName) := by
  obtain ⟨e, he, hprefix, -⟩ := h.entry
  by_cases hname : d.name.withoutContentHash = i.pitName
  · rw [hname]
    exact Forwarder.answeredName_of_find (by simp [he])
  · obtain ⟨hstart, hcan⟩ := hd.asks.resolve_left hname
    obtain ⟨r, hr⟩ := Forwarder.answeredName_isOk p (n := d.name.withoutContentHash)
      (hd.legal hname)
    have hlong := Name.startsWith_iff.mp hstart
    have hlt : i.pitName.len < d.name.withoutContentHash.len := by
      refine lt_of_le_of_ne hlong.length_le fun hlen => hname ?_
      obtain ⟨haddr, hpath⟩ := List.cons.inj (hlong.eq_of_length hlen)
      simp only [Name.withoutContentHash, Interest.pitName] at haddr hpath ⊢
      rw [haddr, hpath]
    have hm : p.Matches d.name.withoutContentHash (some i.pitName) := by
      refine .ancestor (h.others _ hname) ⟨hlong, hlt, rfl⟩ ⟨e, he, hprefix.trans hcan⟩ ?_
      rintro m - ⟨e', he', -⟩
      by_cases hm : m = i.pitName
      · rw [hm]
      · rw [h.others m hm] at he'
        cases he'
    rw [hr, hm.unique (Forwarder.matches_of_answeredName hr)]

namespace Forwarder

section Trial

variable (s : Forwarder) (c : CallId) (i : Interest) (o : FaceId → Response) (hops : List FaceId)

/-- What there is to show when the call has returned. -/
structure Served (t : Forwarder) : Prop where
  returned : ∃ call, t.loop.calls c = some call ∧ call.interest = i ∧
    call.phase = .returned ((firstSuccess (fun f => (o f).delivered) hops).map Prod.snd)
  tally : Tally c s.loop.log t.loop.log (tried (fun f => (o f).delivered) hops)
    (failedBefore (fun f => (o f).delivered) hops)
    (firstSuccess (fun f => (o f).delivered) hops).toList
  charged : s.strategy.Charged t.strategy (failedBefore (fun f => (o f).delivered) hops)
    ((firstSuccess (fun f => (o f).delivered) hops).map Prod.fst)
  pit : t.pit.find i.pitName = none

structure Trying (before : List FaceId) (face : FaceId) (rest : List FaceId) (call : Call)
    (t : Forwarder) : Prop where
  calls : t.loop.calls c = some call
  interest : call.interest = i
  hops : hops = before ++ face :: rest.filter (· ∈ s.faces)
  failing : ∀ f ∈ before, (o f).delivered = none
  faces : t.faces = s.faces
  others : ∀ m, m ≠ i.pitName → t.pit.find m = none
  tally : Tally c s.loop.log t.loop.log (before ++ [face]) before []
  charged : s.strategy.Charged t.strategy before none

structure Between (before faces : List FaceId) (t : Forwarder) : Prop where
  hops : hops = before ++ faces.filter (· ∈ s.faces)
  failing : ∀ f ∈ before, (o f).delivered = none
  faces : t.faces = s.faces
  pit : ∀ m, t.pit.find m = none
  tally : Tally c s.loop.log t.loop.log before before []
  charged : s.strategy.Charged t.strategy before none

/-- The stages of the call: an attempt is sent, waits and is replied to. -/
inductive Stage (t : Forwarder) : Prop where

  | sending {before rest : List FaceId} {face : FaceId} {call : Call} :
      Trying s c i o hops before face rest call t → call.phase = .sending face rest →
      t.pit.Sole i → Stage t

  | waiting {before rest : List FaceId} {face : FaceId} {call : Call} {fut deadline : ℕ} :
      Trying s c i o hops before face rest call t →
      call.phase = .waiting face rest fut deadline → t.loop.notifiers.state fut = .pending →
      t.pit.Sole i → Stage t

  | answered {before rest : List FaceId} {face : FaceId} {call : Call} {fut deadline : ℕ}
      {d : Data} : Trying s c i o hops before face rest call t →
      call.phase = .waiting face rest fut deadline →
      t.loop.notifiers.state fut = .done (.data d) → o face = .data d → Stage t

  | refused {before rest : List FaceId} {face : FaceId} {call : Call} {fut deadline : ℕ} :
      Trying s c i o hops before face rest call t →
      call.phase = .waiting face rest fut deadline →
      t.loop.notifiers.state fut = .done .nack → o face = .nack → Stage t

  | served : Served s c i o hops t → Stage t

  | raised {call : Call} {e : PyError} : t.loop.calls c = some call → call.phase = .raised e →
      i.toBytes = .error e → Stage t

/-- The events of a call that is alone: its own steps, the reply of the face that it waits for, the
clocks, and a sweep before the entry expires. -/
inductive Alone : Forwarder → Label → Prop where

  | sent {t : Forwarder} : Alone t (.sent c)

  | resume {t : Forwarder} : Alone t (.resume c)

  | data {t : Forwarder} {call : Call} {face : FaceId} {rest : List FaceId} {fut deadline : ℕ}
      {d : Data} {unsolicited : Bool} : t.loop.calls c = some call →
      call.phase = .waiting face rest fut deadline → t.loop.notifiers.state fut = .pending →
      o face = .data d → Alone t (.receiveData d face unsolicited)

  | nack {t : Forwarder} {call : Call} {face : FaceId} {rest : List FaceId} {fut deadline : ℕ}
      {name : Name} : t.loop.calls c = some call →
      call.phase = .waiting face rest fut deadline → t.loop.notifiers.state fut = .pending →
      o face = .nack → name.withoutContentHash = call.interest.pitName →
      Alone t (.receiveNack name face)

  | timeout {t : Forwarder} {call : Call} {face : FaceId} {rest : List FaceId}
      {fut deadline : ℕ} : t.loop.calls c = some call →
      call.phase = .waiting face rest fut deadline → o face = .timeout → Alone t (.timeout c)

  | tick {t : Forwarder} {ms time : ℕ} : Alone t (.tick ms time)

  | sweep {t : Forwarder} : (∀ n e, t.pit.find n = some e → t.loop.monotonic < e.expiresAt) →
      Alone t .purgeExpired

end Trial

section Stages

variable {s t u : Forwarder} {c : CallId} {i : Interest} {o : FaceId → Response}
  {hops before rest faces : List FaceId} {face : FaceId} {call : Call} {l : Label}

theorem Between.exhausted (h : Between s c o hops before [] t) (hi : call.interest = i) :
    Served s c i o hops (t.finish c call (.returned none)) := by
  have hhops : hops = before := h.hops.trans (List.append_nil before)
  have hfail : failedBefore (fun f => (o f).delivered) hops = before := by
    rw [hhops]
    exact failedBefore_of_failure h.failing
  have hnone : firstSuccess (fun f => (o f).delivered) hops = none := by
    rw [hhops]
    exact firstSuccess_eq_none_iff.mpr h.failing
  constructor
  · exact ⟨_, (calls_setCall ..).trans (if_pos rfl), hi, by rw [hnone]; rfl⟩
  · rw [tried, hnone, hfail, Option.map_none, Option.toList_none, List.append_nil]
    exact h.tally
  · rw [hfail, hnone]
    exact h.charged
  · exact h.pit _

theorem Between.attempts (h : Between s c o hops before faces t) (hi : call.interest = i) :
    Stage s c i o hops (t.attempts c call faces) := by
  subst hi
  induction faces generalizing t with
  | nil => exact .served (h.exhausted rfl)
  | cons face rest ih =>
    have hsole := Pit.Sole.insert h.pit call.interest call.inFace face t.loop.monotonic
    rw [Forwarder.attempts]
    by_cases hface : face ∈ t.faces
    · rw [if_pos hface]
      cases hb : call.interest.toBytes with
      | error e =>
        exact .raised ((calls_setCall ..).trans (if_pos rfl)) rfl hb
      | ok raw =>
        have hsent : Trying s c call.interest o hops before face rest
            { call with phase := .sending face rest }
            { t with pit := (t.pit.insertOrAggregate call.interest.pitName call.inFace call.interest
                t.loop.monotonic).setOutFace call.interest.pitName face
                     loop := t.loop.send c call face rest } := by
          refine ⟨?_, rfl, ?_, h.failing, h.faces, hsole.others, ?_, h.charged⟩
          · exact (calls_send ..).trans (if_pos rfl)
          · rw [h.hops, List.filter_cons_of_pos (by simpa using h.faces ▸ hface)]
          · exact h.tally.attempt face t.loop.monotonic
        exact .sending hsent rfl hsole
    · rw [if_neg hface]
      apply ih
      refine ⟨?_, h.failing, h.faces, fun m => ?_, h.tally, h.charged⟩
      · rw [h.hops, List.filter_cons_of_neg (by simpa using h.faces ▸ hface)]
      · rw [Pit.find_remove]
        split
        · rfl
        · exact hsole.others m (by assumption)

theorem Trying.not_mem_before (h : Trying s c i o hops before face rest call t)
    (hnodup : hops.Nodup) : face ∉ before := by
  rw [h.hops] at hnodup
  exact fun hm => List.disjoint_of_nodup_append hnodup hm List.mem_cons_self

theorem Trying.attemptFailed (h : Trying s c i o hops before face rest call t)
    (hnodup : hops.Nodup) (hface : (o face).delivered = none) :
    Stage s c i o hops (t.attemptFailed c call face rest) := by
  have hgoes : Between s c o hops (before ++ [face]) rest { t with
      pit := t.pit.remove call.interest.pitName
      strategy := t.strategy.recordFailure face t.loop.monotonic
      loop := t.loop.record (.failure c face call.interest.pitName t.loop.monotonic) } := by
    constructor
    · rw [h.hops, List.append_assoc, List.singleton_append]
    · intro f hf
      rcases List.mem_append.mp hf with hf | hf
      · exact h.failing f hf
      · exact List.mem_singleton.mp hf ▸ hface
    · exact h.faces
    · intro m
      rw [Pit.find_remove, h.interest]
      split
      · rfl
      · exact h.others m (by assumption)
    · exact h.tally.failure face call.interest.pitName t.loop.monotonic
    · exact h.charged.failure (h.not_mem_before hnodup) _
  exact hgoes.attempts h.interest

theorem Trying.attemptSucceeded {d : Data} (h : Trying s c i o hops before face rest call t)
    (hnodup : hops.Nodup) (hface : o face = .data d) :
    Served s c i o hops (t.attemptSucceeded c call face d) := by
  have hout : (o face).delivered = some d := by rw [hface]; rfl
  have hfail : failedBefore (fun f => (o f).delivered) hops = before := by
    rw [h.hops]
    exact failedBefore_of_success h.failing hout
  have hwon : firstSuccess (fun f => (o f).delivered) hops = some (face, d) := by
    rw [h.hops]
    exact firstSuccess_of_success h.failing hout
  constructor
  · exact ⟨_, (calls_setCall ..).trans (if_pos rfl), h.interest, by rw [hwon]; rfl⟩
  · rw [tried, hfail, hwon]
    exact h.tally.success face d
  · rw [hfail, hwon]
    exact h.charged.success (h.not_mem_before hnodup)
  · rw [← h.interest]
    exact (Pit.find_remove ..).trans (if_pos rfl)

/-- An event that leaves the faces, the strategy and the other entries leaves the attempt on. -/
theorem Trying.frame {newer : Call} (h : Trying s c i o hops before face rest call t)
    (hc : u.loop.calls c = some newer) (hi : newer.interest = i) (hf : u.faces = t.faces)
    (hstr : u.strategy = t.strategy)
    (ht : Tally c s.loop.log u.loop.log (before ++ [face]) before [])
    (hp : ∀ m, m ≠ i.pitName → t.pit.find m = none → u.pit.find m = none) :
    Trying s c i o hops before face rest newer u where
  calls := hc
  interest := hi
  hops := h.hops
  failing := h.failing
  faces := hf.trans h.faces
  others m hm := hp m hm (h.others m hm)
  tally := ht
  charged := hstr ▸ h.charged

/-- An event that leaves the call, its future and what is recorded leaves its stage. -/
theorem Stage.frame (h : Stage s c i o hops t) (hc : u.loop.calls = t.loop.calls)
    (hn : u.loop.notifiers = t.loop.notifiers) (hl : u.loop.log = t.loop.log)
    (hf : u.faces = t.faces) (hstr : u.strategy = t.strategy)
    (hp : ∀ m, t.pit.find m = none → u.pit.find m = none) (hsole : t.pit.Sole i → u.pit.Sole i) :
    Stage s c i o hops u := by
  have hframe {before rest : List FaceId} {face : FaceId} {call : Call}
      (h : Trying s c i o hops before face rest call t) :
      Trying s c i o hops before face rest call u :=
    h.frame ((congrFun hc c).trans h.calls) h.interest hf hstr (hl ▸ h.tally) fun m _ => hp m
  cases h with
  | sending h hph he => exact .sending (hframe h) hph (hsole he)
  | waiting h hph hst he => exact .waiting (hframe h) hph (hn ▸ hst) (hsole he)
  | answered h hph hst ho => exact .answered (hframe h) hph (hn ▸ hst) ho
  | refused h hph hst ho => exact .refused (hframe h) hph (hn ▸ hst) ho
  | served h =>
    obtain ⟨call, hcall, hi, hph⟩ := h.returned
    exact .served ⟨⟨call, (congrFun hc c).trans hcall, hi, hph⟩, hl ▸ h.tally, hstr ▸ h.charged,
      hp _ h.pit⟩
  | raised hcall hph hb => exact .raised ((congrFun hc c).trans hcall) hph hb

/-- The call is on an attempt that is sent, waits or is replied to, or it has ended. -/
theorem Stage.of_call (h : Stage s c i o hops t) (hc : t.loop.calls c = some call) :
    (∃ before face rest, call.phase = .sending face rest ∧
      Trying s c i o hops before face rest call t ∧ t.pit.Sole i) ∨
    (∃ before face rest fut deadline, call.phase = .waiting face rest fut deadline ∧
      Trying s c i o hops before face rest call t ∧
        (t.loop.notifiers.state fut = .pending ∧ t.pit.Sole i ∨
          (∃ d, t.loop.notifiers.state fut = .done (.data d) ∧ o face = .data d) ∨
          t.loop.notifiers.state fut = .done .nack ∧ o face = .nack)) ∨
    call.phase.Ended ∧ ∀ result, call.phase = .returned result → Served s c i o hops t := by
  have hcall {call' : Call} (hc' : t.loop.calls c = some call') : call' = call :=
    Option.some.inj (hc'.symm.trans hc)
  cases h with
  | sending h hp he =>
    obtain rfl := hcall h.calls
    exact .inl ⟨_, _, _, hp, h, he⟩
  | waiting h hp hst he =>
    obtain rfl := hcall h.calls
    exact .inr (.inl ⟨_, _, _, _, _, hp, h, .inl ⟨hst, he⟩⟩)
  | answered h hp hst ho =>
    obtain rfl := hcall h.calls
    exact .inr (.inl ⟨_, _, _, _, _, hp, h, .inr (.inl ⟨_, hst, ho⟩)⟩)
  | refused h hp hst ho =>
    obtain rfl := hcall h.calls
    exact .inr (.inl ⟨_, _, _, _, _, hp, h, .inr (.inr ⟨hst, ho⟩)⟩)
  | served h =>
    obtain ⟨call', hc', -, hp⟩ := h.returned
    obtain rfl := hcall hc'
    exact .inr (.inr ⟨hp ▸ .returned _, fun _ _ => h⟩)
  | raised hc' hp _ =>
    obtain rfl := hcall hc'
    exact .inr (.inr ⟨hp ▸ .raised _, fun _ hr => by cases hp.symm.trans hr⟩)

theorem Stage.of_returned {result : Option Data} (h : Stage s c i o hops t)
    (hc : t.loop.calls c = some call) (hp : call.phase = .returned result) :
    Served s c i o hops t := by
  rcases h.of_call hc with ⟨_, _, _, hp', -⟩ | ⟨_, _, _, _, _, hp', -⟩ | ⟨-, hserved⟩
  · exact absurd (hp'.symm.trans hp) (by simp)
  · exact absurd (hp'.symm.trans hp) (by simp)
  · exact hserved result hp

theorem Stage.of_sending (h : Stage s c i o hops t) (hc : t.loop.calls c = some call)
    (hp : call.phase = .sending face rest) :
    ∃ before, Trying s c i o hops before face rest call t ∧ t.pit.Sole i := by
  rcases h.of_call hc with ⟨before, face', rest', hp', h⟩ | ⟨_, _, _, _, _, hp', -⟩ | ⟨he, -⟩
  · obtain ⟨rfl, rfl⟩ := Phase.sending.inj (hp'.symm.trans hp)
    exact ⟨before, h⟩
  · exact absurd (hp'.symm.trans hp) (by simp)
  · rw [hp] at he
    cases he

theorem Stage.of_waiting {fut deadline : ℕ} (h : Stage s c i o hops t)
    (hc : t.loop.calls c = some call) (hp : call.phase = .waiting face rest fut deadline) :
    ∃ before, Trying s c i o hops before face rest call t ∧
      (t.loop.notifiers.state fut = .pending ∧ t.pit.Sole i ∨
        (∃ d, t.loop.notifiers.state fut = .done (.data d) ∧ o face = .data d) ∨
        t.loop.notifiers.state fut = .done .nack ∧ o face = .nack) := by
  rcases h.of_call hc with ⟨_, _, _, hp', -⟩ | ⟨before, _, _, _, _, hp', h⟩ | ⟨he, -⟩
  · exact absurd (hp'.symm.trans hp) (by simp)
  · obtain ⟨rfl, rfl, rfl, rfl⟩ := Phase.waiting.inj (hp'.symm.trans hp)
    exact ⟨before, h⟩
  · rw [hp] at he
    cases he

theorem Stage.not_aggregated {fut deadline : ℕ} (h : Stage s c i o hops t)
    (hc : t.loop.calls c = some call) : call.phase ≠ .aggregated fut deadline := by
  intro hp
  rcases h.of_call hc with ⟨_, _, _, hp', -⟩ | ⟨_, _, _, _, _, hp', -⟩ | ⟨he, -⟩
  · exact absurd (hp'.symm.trans hp) (by simp)
  · exact absurd (hp'.symm.trans hp) (by simp)
  · rw [hp] at he
    cases he

theorem Stage.sent (h : Stage s c i o hops t) (hs : t.sent c = some u) :
    Stage s c i o hops u := by
  obtain ⟨call, hc, hs⟩ := Option.bind_eq_some_iff.mp hs
  split at hs
  · rename_i hp
    obtain rfl := Option.some.inj hs
    obtain ⟨before, h, he⟩ := h.of_sending hc hp
    refine .waiting (h.frame ((calls_wait ..).trans (if_pos rfl)) h.interest rfl rfl h.tally
      fun m _ hm => hm) rfl (Futures.state_register_self ..) he
  · cases hs

theorem Stage.resume (h : Stage s c i o hops t) (hnodup : hops.Nodup)
    (hs : t.resume c = some u) : Stage s c i o hops u := by
  obtain ⟨call, hc, hs⟩ := Option.bind_eq_some_iff.mp hs
  split at hs
  · rename_i hp
    obtain ⟨before, h, hstate⟩ := h.of_waiting hc hp
    rcases hstate with ⟨hst, -⟩ | ⟨d, hst, ho⟩ | ⟨hst, ho⟩
    · simp [hst] at hs
    · simp only [hst, Option.some.injEq] at hs
      exact hs ▸ .served (h.attemptSucceeded hnodup ho)
    · simp only [hst, Option.some.injEq] at hs
      exact hs ▸ h.attemptFailed hnodup (by rw [ho]; rfl)
  · exact absurd (by assumption) (h.not_aggregated hc)
  · cases hs

theorem Stage.timeout (h : Stage s c i o hops t) (hnodup : hops.Nodup) {fut deadline : ℕ}
    (hc : t.loop.calls c = some call) (hp : call.phase = .waiting face rest fut deadline)
    (ho : o face = .timeout) (hs : t.timeout c = some u) : Stage s c i o hops u := by
  obtain ⟨before, h, -⟩ := h.of_waiting hc hp
  simp only [Forwarder.timeout, hc, Option.bind_some, hp] at hs
  split at hs
  · obtain rfl := Option.some.inj hs
    have hgave : Trying s c i o hops before face rest call { t with loop := t.loop.giveUp fut } :=
      h.frame h.calls h.interest rfl rfl h.tally fun m _ hm => hm
    exact hgave.attemptFailed hnodup (by rw [ho]; rfl)
  · cases hs

theorem Trying.refused {fut deadline : ℕ} {name : Name}
    (h : Trying s c i o hops before face rest call t) (hcon : t.Consistent)
    (hp : call.phase = .waiting face rest fut deadline)
    (hst : t.loop.notifiers.state fut = .pending)
    (hname : name.withoutContentHash = call.interest.pitName) :
    Trying s c i o hops before face rest call (t.receiveNack name face) ∧
      (t.receiveNack name face).loop.notifiers.state fut = .done .nack := by
  have hown := hcon.loop.owned c call fut h.calls (by rw [hp]; rfl)
  refine ⟨h.frame h.calls h.interest rfl rfl (h.tally.arrival (.inr ⟨face, name, rfl⟩))
    fun m _ hm => hm, ?_⟩
  rw [← hname] at hown
  exact hown.state_announce hst .nack

theorem Stage.nack (h : Stage s c i o hops t) (hcon : t.Consistent) {fut deadline : ℕ}
    {name : Name} (hc : t.loop.calls c = some call)
    (hp : call.phase = .waiting face rest fut deadline)
    (hst : t.loop.notifiers.state fut = .pending) (ho : o face = .nack)
    (hname : name.withoutContentHash = call.interest.pitName) :
    Stage s c i o hops (t.receiveNack name face) := by
  obtain ⟨before, h, -⟩ := h.of_waiting hc hp
  obtain ⟨htrying, hdone⟩ := h.refused hcon hp hst hname
  exact .refused htrying hp hdone ho

theorem Stage.sweep (h : Stage s c i o hops t)
    (hlive : ∀ n e, t.pit.find n = some e → t.loop.monotonic < e.expiresAt) :
    Stage s c i o hops { t with pit := t.pit.purgeExpired t.loop.monotonic } := by
  have hnone (m : Name) (hm : t.pit.find m = none) :
      (t.pit.purgeExpired t.loop.monotonic).find m = none := by
    cases hf : (t.pit.purgeExpired t.loop.monotonic).find m with
    | none => rfl
    | some e => exact absurd (Pit.find_purgeExpired hf) (by simp [hm])
  refine h.frame rfl rfl rfl rfl rfl hnone fun he => ⟨?_, fun m hm => hnone m (he.others m hm)⟩
  obtain ⟨e, hf, hprefix, hsat⟩ := he.entry
  refine ⟨e, ?_, hprefix, hsat⟩
  rw [Pit.find, Pit.purgeExpired, Dict.get?_filter, Option.filter_eq_some_iff]
  exact ⟨hf, by simp [hsat, hlive _ e hf]⟩

def failuresOf (c : CallId) (t : Forwarder) : ℕ := (t.loop.log.filterMap (Event.failed c)).length

theorem failuresOf_attemptFailed (t : Forwarder) (c : CallId) (call : Call) (face : FaceId)
    (rest : List FaceId) :
    failuresOf c (t.attemptFailed c call face rest) = failuresOf c t + 1 := by
  have ho : Outcome
      (t.loop.record (.failure c face call.interest.pitName t.loop.monotonic)) c call rest
      (t.attemptFailed c call face rest).loop := attemptFailed_outcome rfl face rest
  rw [failuresOf, failuresOf]
  generalize (t.attemptFailed c call face rest).loop = r at ho
  cases ho with
  | failed _ => simp [record, setCall, Event.failed]
  | send _ => simp [record, send, setCall, Event.failed, List.filterMap_cons]

theorem Trying.failuresOf_lt (h : Trying s c i o hops before face rest call t) :
    failuresOf c t < failuresOf c s + hops.length := by
  obtain ⟨new, hlog, -, hfail, -⟩ := h.tally
  have hlen : (new.filterMap (Event.failed c)).length = before.length := by
    rw [← hfail, List.filterMap_reverse, List.length_reverse]
  rw [failuresOf, failuresOf, hlog, List.filterMap_append, List.length_append, hlen, h.hops,
    List.length_append, List.length_cons]
  omega

section Steps

variable [Hashlib]

/-- What matched Data leaves of the faces, the strategy and the other entries. -/
theorem receiveData_matched {d : Data} {m : Name} (inFace : FaceId) (unsolicited : Bool)
    (hm : answeredName t.pit d.name.withoutContentHash = .ok (some m)) :
    (t.receiveData d inFace unsolicited).loop =
        (t.loop.record (.data inFace d)).notify m (.data d) ∧
      (t.receiveData d inFace unsolicited).faces = t.faces ∧
      (t.receiveData d inFace unsolicited).strategy = t.strategy ∧
      ∀ m', m' ≠ m → (t.receiveData d inFace unsolicited).pit.find m' = t.pit.find m' := by
  have hsat {m' : Name} (hne : m' ≠ m) : (t.pit.satisfy m).find m' = t.pit.find m' := by
    rw [Pit.find_satisfy, if_neg hne]
  rw [receiveData]
  simp only [hm, notifyWaiters, cacheAnswer]
  split
  · exact ⟨rfl, rfl, rfl, fun _ hne => hsat hne⟩
  · exact ⟨rfl, rfl, rfl, fun _ hne => by rw [Pit.find_remove, if_neg hne]; exact hsat hne⟩

theorem Trying.answered {fut deadline : ℕ} {d : Data}
    (h : Trying s c i o hops before face rest call t) (hcon : t.Consistent)
    (hp : call.phase = .waiting face rest fut deadline)
    (hst : t.loop.notifiers.state fut = .pending) (he : t.pit.Sole i) (hd : i.AnsweredBy d)
    (unsolicited : Bool) :
    Trying s c i o hops before face rest call (t.receiveData d face unsolicited) ∧
      (t.receiveData d face unsolicited).loop.notifiers.state fut = .done (.data d) := by
  have hm := he.answeredName hd
  obtain ⟨hloop, hf, hstr, hpit⟩ := receiveData_matched face unsolicited hm
  constructor
  · refine h.frame ?_ h.interest hf hstr ?_ fun m hne hm => (hpit m hne).trans hm
    · rw [receiveData_calls]
      exact h.calls
    · rw [hloop]
      exact h.tally.arrival (.inl ⟨face, d, rfl⟩)
  · exact arrival_completes hcon h.calls (by rw [hp]; rfl) hst (h.interest ▸ hm)

theorem Stage.data (h : Stage s c i o hops t) (hcon : t.Consistent) {fut deadline : ℕ} {d : Data}
    (hc : t.loop.calls c = some call) (hp : call.phase = .waiting face rest fut deadline)
    (hst : t.loop.notifiers.state fut = .pending) (ho : o face = .data d) (hd : i.AnsweredBy d)
    (unsolicited : Bool) : Stage s c i o hops (t.receiveData d face unsolicited) := by
  obtain ⟨before, h, ⟨-, he⟩ | ⟨d', hst', -⟩ | ⟨hst', -⟩⟩ := h.of_waiting hc hp
  · obtain ⟨htrying, hdone⟩ := h.answered hcon hp hst he hd unsolicited
    exact .answered htrying hp hdone ho
  · exact absurd (hst.symm.trans hst') (by simp)
  · exact absurd (hst.symm.trans hst') (by simp)

theorem Stage.of_step (h : Stage s c i o hops t) (hcon : t.Consistent) (hnodup : hops.Nodup)
    (hd : ∀ f d, o f = .data d → i.AnsweredBy d) (ha : Alone c o t l) (hs : step t l = some u) :
    Stage s c i o hops u := by
  cases ha with
  | sent => exact h.sent hs
  | resume => exact h.resume hnodup hs
  | data hc hp hst ho => exact Option.some.inj hs ▸ h.data hcon hc hp hst ho (hd _ _ ho) _
  | nack hc hp hst ho hname => exact Option.some.inj hs ▸ h.nack hcon hc hp hst ho hname
  | timeout hc hp ho => exact h.timeout hnodup hc hp ho hs
  | tick => exact Option.some.inj hs ▸ h.frame rfl rfl rfl rfl rfl (fun _ hm => hm) fun he => he
  | sweep hlive => exact Option.some.inj hs ▸ h.sweep hlive

theorem stage_of_run {ls : List Label} (hrun : Run step (Alone c o) t ls u)
    (hcon : t.Consistent) (h : Stage s c i o hops t) (hnodup : hops.Nodup)
    (hd : ∀ f d, o f = .data d → i.AnsweredBy d) : u.Consistent ∧ Stage s c i o hops u :=
  hrun.invariant (I := fun v => v.Consistent ∧ Stage s c i o hops v) ⟨hcon, h⟩
    fun _ _ _ hi ha hs => ⟨step_consistent hs hi.1, hi.2.of_step hi.1 hnodup hd ha hs⟩

theorem Trying.replied {fut deadline : ℕ} (h : Trying s c i o hops before face rest call t)
    (hp : call.phase = .waiting face rest fut deadline)
    (hst : t.loop.notifiers.state fut = .pending) (he : t.pit.Sole i) (hcon : t.Consistent)
    (hnodup : hops.Nodup) (hd : ∀ f d, o f = .data d → i.AnsweredBy d) :
    ∃ ls u, Run step (Alone c o) t ls u ∧ (Served s c i o hops u ∨
      Stage s c i o hops u ∧ failuresOf c u = failuresOf c t + 1) := by
  cases ho : o face with
  | data d =>
    obtain ⟨htrying, hdone⟩ := h.answered hcon hp hst he (hd face d ho) false
    have hresume : (t.receiveData d face false).resume c =
        some ((t.receiveData d face false).attemptSucceeded c call face d) := by
      simp [Forwarder.resume, htrying.calls, hp, hdone]
    exact ⟨_, _, .cons (.data h.calls hp hst ho) rfl (.cons .resume hresume (.nil _)),
      .inl (htrying.attemptSucceeded hnodup ho)⟩
  | nack =>
    have hname : call.interest.name.withoutContentHash = call.interest.pitName := rfl
    obtain ⟨htrying, hdone⟩ := h.refused hcon hp hst hname
    have hresume : (t.receiveNack call.interest.name face).resume c =
        some ((t.receiveNack call.interest.name face).attemptFailed c call face rest) := by
      simp only [Forwarder.resume, htrying.calls, Option.bind_some, hp, hdone]
    refine ⟨_, _, .cons (.nack h.calls hp hst ho hname) rfl (.cons .resume hresume (.nil _)), .inr
      ⟨htrying.attemptFailed hnodup (by rw [ho]; rfl), ?_⟩⟩
    rw [failuresOf_attemptFailed]
    simp [failuresOf, receiveNack, record, notify, Event.failed, List.filterMap_cons]
  | timeout =>
    have hc := h.calls
    -- The clock is moved to the deadline.
    obtain ⟨ms, hms⟩ : ∃ ms, deadline ≤ t.loop.monotonic + ms :=
      ⟨deadline, Nat.le_add_left deadline t.loop.monotonic⟩
    have htimeout : Forwarder.timeout
        { t with loop := { t.loop with monotonic := t.loop.monotonic + ms } } c =
          some (Forwarder.attemptFailed { t with loop := { t.loop with
            monotonic := t.loop.monotonic + ms, notifiers := t.loop.notifiers.cancel fut } }
              c call face rest) := by
      simp only [Forwarder.timeout, hc, Option.bind_some, hp, hst, hms, and_self, if_true]
      rfl
    have hgave : Trying s c i o hops before face rest call { t with loop := { t.loop with
        monotonic := t.loop.monotonic + ms, notifiers := t.loop.notifiers.cancel fut } } :=
      h.frame hc h.interest rfl rfl h.tally fun m _ hm => hm
    exact ⟨[.tick ms t.time, .timeout c], _, .cons .tick rfl
      (.cons (.timeout hc hp ho) htimeout (.nil _)), .inr
        ⟨hgave.attemptFailed hnodup (by rw [ho]; rfl), failuresOf_attemptFailed ..⟩⟩

theorem Stage.goes_on (h : Stage s c i o hops t) (hcon : t.Consistent) (hnodup : hops.Nodup)
    (hd : ∀ f d, o f = .data d → i.AnsweredBy d) {raw : Bytes} (hb : i.toBytes = .ok raw) :
    ∃ ls u, Run step (Alone c o) t ls u ∧ (Served s c i o hops u ∨
      Stage s c i o hops u ∧ failuresOf c t < failuresOf c s + hops.length ∧
        failuresOf c u = failuresOf c t + 1) := by
  cases h with
  | @sending before rest face call h hp he =>
    have hsent : t.sent c = some
        { t with loop := t.loop.wait c call call.interest.pitName (.waiting face rest) } := by
      simp only [Forwarder.sent, h.calls, Option.bind_some, hp]
    have hwaits := h.frame (u := { t with
      loop := t.loop.wait c call call.interest.pitName (.waiting face rest) })
      ((calls_wait ..).trans (if_pos rfl)) h.interest rfl rfl h.tally fun m _ hm => hm
    obtain ⟨ls, u, hrun, hu⟩ := hwaits.replied rfl (Futures.state_register_self ..) he
      (step_consistent (l := .sent c) hsent hcon) hnodup hd
    exact ⟨_, u, .cons .sent hsent hrun, hu.imp_right fun hu => ⟨hu.1, h.failuresOf_lt, hu.2⟩⟩
  | waiting h hp hst he =>
    obtain ⟨ls, u, hrun, hu⟩ := h.replied hp hst he hcon hnodup hd
    exact ⟨ls, u, hrun, hu.imp_right fun hu => ⟨hu.1, h.failuresOf_lt, hu.2⟩⟩
  | @answered before rest face call fut deadline d h hp hst ho =>
    have hresume : t.resume c = some (t.attemptSucceeded c call face d) := by
      simp only [Forwarder.resume, h.calls, Option.bind_some, hp, hst]
    exact ⟨_, _, .cons .resume hresume (.nil _), .inl (h.attemptSucceeded hnodup ho)⟩
  | @refused before rest face call fut deadline h hp hst ho =>
    have hresume : t.resume c = some (t.attemptFailed c call face rest) := by
      simp only [Forwarder.resume, h.calls, Option.bind_some, hp, hst]
    exact ⟨_, _, .cons .resume hresume (.nil _), .inr ⟨h.attemptFailed hnodup (by rw [ho]; rfl),
      h.failuresOf_lt, failuresOf_attemptFailed ..⟩⟩
  | served h => exact ⟨[], t, .nil t, .inl h⟩
  | raised _ _ he => cases he.symm.trans hb

/-- The call returns: every round without a return is one of finitely many failures. -/
theorem Stage.returns (h : Stage s c i o hops t) (hcon : t.Consistent) (hnodup : hops.Nodup)
    (hd : ∀ f d, o f = .data d → i.AnsweredBy d) {raw : Bytes} (hb : i.toBytes = .ok raw) :
    ∃ ls u, Run step (Alone c o) t ls u ∧ Served s c i o hops u := by
  induction hn : failuresOf c s + hops.length - failuresOf c t using Nat.strong_induction_on
    generalizing t with
  | _ n ih =>
    obtain ⟨ls, u, hrun, hserved | ⟨hu, hlt, hfail⟩⟩ := h.goes_on hcon hnodup hd hb
    · exact ⟨ls, u, hrun, hserved⟩
    · have hless : failuresOf c s + hops.length - failuresOf c u < n := by omega
      have hconu : u.Consistent := (stage_of_run hrun hcon h hnodup hd).1
      obtain ⟨ls', v, hrun', hv⟩ := ih _ hless hu hconu rfl
      exact ⟨ls ++ ls', v, hrun.append hrun', hv⟩

end Steps

end Stages

section Call

variable [Hashlib] {s : Forwarder} {i : Interest} {inFace : FaceId} {o : FaceId → Response}

/-- The Interest is not a repetition, its lookup raises nothing and the decision is to forward. -/
def Forwards (s : Forwarder) (i : Interest) (inFace : FaceId) : Prop :=
  s.pit.checkLoop inFace i.nonce = false ∧ ∃ csHit face, (s.csLookup i).2 = .ok csHit ∧
    s.strategy.decide s.loop.monotonic i (s.fib.lookup i.name) (s.pit.find i.name) csHit =
      .forwardTo face

/-- The registered next hops of the Interest that are not in back-off. -/
def nextHops (s : Forwarder) (i : Interest) : List (FaceId × ℕ) :=
  (s.fib.lookup i.name).filter fun e =>
    !s.strategy.isInBackoff s.loop.monotonic e.1 && decide (e.1 ∈ s.faces)

omit [Hashlib] in
theorem nextHops_map_fst (s : Forwarder) (i : Interest) :
    (s.nextHops i).map Prod.fst =
      (s.strategy.usableFaces s.loop.monotonic (s.fib.lookup i.name)).filter (· ∈ s.faces) := by
  rw [nextHops, BestRoute.usableFaces, List.filter_filter, List.filter_map]
  congr 1
  refine List.filter_congr fun e _ => ?_
  simp [Bool.and_comm]

/-- An Interest that is forwarded is tried on the usable faces of its route in turn. -/
theorem express_of_forwards (h : s.Forwards i inFace) (nonce : Bytes) :
    ∃ cs, s.express i inFace nonce = Forwarder.forward { s with
      cs, pit := s.pit.recordNonce inFace i.nonce s.loop.monotonic
      loop := s.loop.spawn (.ofInterest i inFace) } s.loop.nextCall (.ofInterest i inFace)
        (s.strategy.usableFaces s.loop.monotonic (s.fib.lookup i.name)) := by
  obtain ⟨hn, csHit, face, hl, hdec⟩ := h
  obtain ⟨cs, hcs⟩ : ∃ cs, s.csLookup i = (cs, .ok csHit) := ⟨_, Prod.ext rfl hl⟩
  refine ⟨cs, ?_⟩
  have hne := BestRoute.usableFaces_ne_nil hdec
  have hcand (t : Forwarder) (ht : t.strategy = s.strategy)
      (hm : t.loop.monotonic = s.loop.monotonic) :
      t.failoverCandidates (s.fib.lookup i.name) face =
        s.strategy.usableFaces s.loop.monotonic (s.fib.lookup i.name) := by
    rw [failoverCandidates, ht, hm]
    split
    · exact absurd (by assumption) hne
    · rfl
  rw [express]
  simp only [hn, hcs, Bool.false_eq_true, if_false, Pit.find_recordNonce]
  rw [show (s.loop.spawn { interest := i, inFace, phase := .returned none }).monotonic =
    s.loop.monotonic from rfl, hdec, enact]
  exact congrArg _ (hcand _ rfl rfl)

theorem express_stage (hquiet : ∀ m, s.pit.find m = none) (hfwd : s.Forwards i inFace)
    (hhop : 1 ≤ i.hopLimit) (nonce : Bytes) :
    Stage s s.loop.nextCall { i with hopLimit := i.hopLimit - 1 } o
      ((s.nextHops i).map Prod.fst) (s.express i inFace nonce) := by
  obtain ⟨cs, he⟩ := express_of_forwards hfwd nonce
  have hbetween : Between s s.loop.nextCall o ((s.nextHops i).map Prod.fst) []
      (s.strategy.usableFaces s.loop.monotonic (s.fib.lookup i.name)) { s with
        cs, pit := s.pit.recordNonce inFace i.nonce s.loop.monotonic
        loop := s.loop.spawn (.ofInterest i inFace) } := by
    refine ⟨nextHops_map_fst s i, List.forall_mem_nil _, rfl, fun m => ?_, .refl _ _, .refl _⟩
    rw [Pit.find_recordNonce, hquiet m]
  have hlimit : (Call.ofInterest i inFace).interest.hopLimit ≠ 0 := Nat.ne_of_gt hhop
  rw [he, forward, if_neg hlimit]
  exact hbetween.attempts rfl

/-- A call that is forwarded with no other traffic tries the registered faces of its route that
are not in back-off, by cost and each once, up to the first that delivers. It is charged as the
faces behaved, leaves no entry, returns the Data of that face or `None` without one, and it does
return if its Interest can be encoded. -/
theorem failover_order {ok : Forwarder → Label → Prop} (hs : Reachable Initial step ok s)
    (hfib : s.fib.Proper) (hquiet : ∀ m, s.pit.find m = none) (hfwd : s.Forwards i inFace)
    (hhop : 1 ≤ i.hopLimit) (hd : ∀ f d, o f = .data d → i.AnsweredBy d) (nonce : Bytes) :
    ((s.nextHops i).Pairwise fun x y => x.2 ≤ y.2) ∧ ((s.nextHops i).map Prod.fst).Nodup ∧
    ∀ ls t, Run step (Alone s.loop.nextCall o) (s.express i inFace nonce) ls t →
      (∀ call result, t.loop.calls s.loop.nextCall = some call →
        call.phase = .returned result →
          Served s s.loop.nextCall { i with hopLimit := i.hopLimit - 1 } o
            ((s.nextHops i).map Prod.fst) t ∧
          (result = none ↔ ∀ e ∈ s.nextHops i, (o e.1).delivered = none)) ∧
      ((∃ raw, i.toBytes = .ok raw) → ∃ ls' u, Run step (Alone s.loop.nextCall o) t ls' u ∧
        Served s s.loop.nextCall { i with hopLimit := i.hopLimit - 1 } o
          ((s.nextHops i).map Prod.fst) u) := by
  have hcon := reachable_consistent hs
  have hroute := hfib.lookup i.name
  have hnodup : ((s.nextHops i).map Prod.fst).Nodup :=
    hroute.1.sublist (List.filter_sublist.map Prod.fst)
  refine ⟨hroute.2.sublist List.filter_sublist, hnodup, fun ls t hrun => ?_⟩
  have hd' (f : FaceId) (d : Data) (h : o f = .data d) :
      Interest.AnsweredBy { i with hopLimit := i.hopLimit - 1 } d :=
    ⟨(hd f d h).asks, (hd f d h).legal⟩
  have hstart := express_stage (o := o) hquiet hfwd hhop nonce
  obtain ⟨hcont, hstage⟩ := stage_of_run hrun
    (step_consistent (l := .express i inFace nonce) rfl hcon) hstart hnodup hd'
  constructor
  · intro call result hc hp
    have hserved := hstage.of_returned hc hp
    refine ⟨hserved, ?_⟩
    obtain ⟨call', hc', -, hp'⟩ := hserved.returned
    obtain rfl := Option.some.inj (hc.symm.trans hc')
    rw [Phase.returned.inj (hp.symm.trans hp'), Option.map_eq_none_iff, firstSuccess_eq_none_iff,
      List.forall_mem_map]
  · rintro ⟨raw, hb⟩
    obtain ⟨raw', hb'⟩ := Interest.toBytes_hop hb (i.hopLimit - 1)
    exact hstage.returns hcont hnodup hd' hb'

end Call

def backupAnswers (face : FaceId) : Response := if face = 1 then .timeout else .data answer

theorem relay_proper : (relay [1, 2]).fib.Proper where
  nodup := List.nodup_singleton _
  entry e he := by
    obtain rfl := List.mem_singleton.mp he
    exact ⟨by decide, by decide, by decide⟩

/-- The first face lets the Interest expire and is charged, the second answers. -/
theorem backup_tried_in_turn :
    letI := Data.paddedHash
    ∃ ls t, Run step (Alone 0 backupAnswers) ((relay [1, 2]).express (request 1 1000) 7 []) ls t ∧
      Served (relay [1, 2]) 0 { request 1 1000 with hopLimit := 15 } backupAnswers [1, 2] t := by
  let := Data.paddedHash
  have hd (f : FaceId) (d : Data) (h : backupAnswers f = .data d) :
      (request 1 1000).AnsweredBy d := by
    rw [backupAnswers] at h
    split at h
    · cases h
    · obtain rfl := Response.data.inj h
      exact ⟨.inl rfl, fun hne => absurd rfl hne⟩
  have hs : Reachable Initial step anyStep (relay [1, 2]) :=
    ⟨_, [], relay_initial [1, 2], .nil _⟩
  have hfwd : (relay [1, 2]).Forwards (request 1 1000) 7 := ⟨rfl, none, 1, rfl, rfl⟩
  obtain ⟨-, hreturns⟩ :=
    (failover_order hs relay_proper (fun _ => rfl) hfwd (by decide) hd []).2.2 [] _ (.nil _)
  exact hreturns ⟨_, rfl⟩

end Forwarder

end RnsIcn
