import RnsIcn.Lib.FloorWalk
import RnsIcn.Client.Range

/-! # Streams and ranges

A stream is walked with `express` alone, a range with fetches that check what they
get. Both move a floor past each answer. A range ends at an answer that is not at or
above its floor, a stream hands it out and asks for the same floor again.
-/

namespace RnsIcn

open Transition FloorWalk

/-- The arguments of `stream_fetch`. -/
structure StreamRequest where
  name : Name
  inFace : FaceId := 0
  startSequence : ℕ := 0
  lifetimeMs : ℕ := 4000
  maxSegments : Option ℕ := none
  deriving DecidableEq, Repr

def StreamRequest.interest (r : StreamRequest) (minSeq : ℕ) (nonce : Bytes) : Interest where
  name := r.name
  nonce := nonce
  lifetimeMs := r.lifetimeMs
  canBePrefix := true
  selector := some { minSequence := some minSeq }

/-- Where a call of `stream_fetch` is suspended, or how it ended. -/
inductive StreamPhase where
  | idle
  | expressing (r : StreamRequest) (minSeq : ℕ) (c : CallId)
  | yielding (r : StreamRequest) (minSeq : ℕ)
  | ended (r : StreamRequest)
  | raised (e : PyError)
  deriving DecidableEq, Repr

/-- A forwarder with one call of `stream_fetch` and the Data that it has yielded, oldest first. -/
structure StreamCall where
  forwarder : Forwarder
  phase : StreamPhase := .idle
  yielded : List Data := []

namespace StreamCall

inductive Label where
  | call (r : StreamRequest) (nonce refreshNonce : Bytes)
  | forwarder (l : Forwarder.Label)
  | resume
  | advance (nonce refreshNonce : Bytes)

/-- The body of the loop after `express` has ended, up to `yield`. -/
def resume (s : StreamCall) : Option StreamCall :=
  match s.phase with
  | .expressing r minSeq c =>
    (s.forwarder.loop.calls c).bind fun call =>
      match call.phase with
      | .returned none => some { s with phase := .ended r }
      | .returned (some d) =>
        let minSeq := match d.metadata.sequence with
          | some seq => if seq ≥ minSeq then seq + 1 else minSeq
          | none => minSeq
        some { s with phase := .yielding r minSeq, yielded := s.yielded ++ [d] }
      | .raised e => some { s with phase := .raised e }
      | _ => none
  | _ => none

variable [Hashlib]

/-- The head of the loop. -/
def loop (s : StreamCall) (r : StreamRequest) (minSeq : ℕ) (nonce refreshNonce : Bytes) :
    StreamCall :=
  if r.maxSegments.all (s.yielded.length < ·) then
    { s with
      forwarder := s.forwarder.express (r.interest minSeq nonce) r.inFace refreshNonce
      phase := .expressing r minSeq s.forwarder.loop.nextCall }
  else { s with phase := .ended r }

def call (s : StreamCall) (r : StreamRequest) (nonce refreshNonce : Bytes) : Option StreamCall :=
  match s.phase with
  | .idle => some (s.loop r r.startSequence nonce refreshNonce)
  | _ => none

def advance (s : StreamCall) (nonce refreshNonce : Bytes) : Option StreamCall :=
  match s.phase with
  | .yielding r minSeq => some (s.loop r minSeq nonce refreshNonce)
  | _ => none

def step (s : StreamCall) : Label → Option StreamCall
  | .call r nonce refreshNonce => s.call r nonce refreshNonce
  | .forwarder l => (s.forwarder.step l).map fun forwarder => { s with forwarder }
  | .resume => s.resume
  | .advance nonce refreshNonce => s.advance nonce refreshNonce

end StreamCall

namespace RangeCall

/-- The floor that a step asks for, or the Data that it yields. -/
def event (e : RangeCall × Label × RangeCall) : Option FloorWalk.Event :=
  match e.2.1, e.2.2.phase with
  | .call _, .fetching _ minSeq _ | .advance, .fetching _ minSeq _ => some (.ask minSeq)
  | .resume, .yielding _ _ => e.2.2.yielded.getLast?.map fun d => .item d.metadata.sequence
  | _, _ => none

/-- The fetch of the walk, and with it every Interest, asks for the floor. -/
def Asks (s : RangeCall) : Prop :=
  ∀ r minSeq f, s.phase = .fetching r minSeq f → f < s.client.nextFetch ∧
    ∃ fetch, s.client.fetches f = some fetch ∧ fetch.request = r.request minSeq

def stage (r : RangeRequest) (s : RangeCall) : Stage :=
  match s.phase with
  | .idle => .before r.startSequence
  | .fetching _ minSeq _ => .asking minSeq
  | .yielding _ minSeq => .before minSeq
  | .ended _ | .raised _ => .over

def Begun (r : RangeRequest) (s : RangeCall) : Prop :=
  match s.phase with
  | .idle => False
  | .raised _ => True
  | .fetching r' _ _ | .yielding r' _ | .ended r' => r' = r

variable {s t : RangeCall} {r : RangeRequest} {minSeq : ℕ} {l : Label}

theorem loop_cases (s : RangeCall) (r : RangeRequest) (minSeq : ℕ) :
    (∀ m ∈ r.maxItems, s.yielded.length < m) ∧
      s.loop r minSeq = { s with
        client := s.client.startFetch (r.request minSeq)
        phase := .fetching r minSeq s.client.nextFetch } ∨
    s.loop r minSeq = { s with phase := .ended r } := by
  unfold loop
  split
  · rename_i hmax
    exact .inl ⟨by simpa [Option.all_eq_true] using hmax, rfl⟩
  · exact .inr rfl

theorem begun_loop (s : RangeCall) (r : RangeRequest) (minSeq : ℕ) : (s.loop r minSeq).Begun r := by
  rcases loop_cases s r minSeq with ⟨-, he⟩ | he <;> rw [he] <;> rfl

theorem asks_loop (s : RangeCall) (r : RangeRequest) (minSeq : ℕ) : (s.loop r minSeq).Asks := by
  intro r' minSeq' f hp
  rcases loop_cases s r minSeq with ⟨-, he⟩ | he
  · rw [he] at hp ⊢
    obtain ⟨rfl, rfl, rfl⟩ := RangePhase.fetching.inj hp
    exact ⟨Nat.lt_succ_self _, _, Client.startFetch_fetches _ _, rfl⟩
  · rw [he] at hp
    cases hp

theorem resume_cases (hs : s.resume = some t) : ∃ r minSeq f, s.phase = .fetching r minSeq f ∧
    ((∃ d seq, d.metadata.sequence = some seq ∧ minSeq ≤ seq ∧
        t = { s with phase := .yielding r (seq + 1), yielded := s.yielded ++ [d] }) ∨
      t = { s with phase := .ended r } ∨ ∃ e, t = { s with phase := .raised e }) := by
  unfold resume at hs
  split at hs
  · rename_i r minSeq f hp
    refine ⟨r, minSeq, f, hp, ?_⟩
    obtain ⟨fetch, -, hs⟩ := Option.bind_eq_some_iff.mp hs
    split at hs
    · exact .inr (.inl (Option.some.inj hs).symm)
    · rename_i d _
      split at hs
      · exact .inr (.inl (Option.some.inj hs).symm)
      · rename_i seq hseq
        split at hs
        · exact .inr (.inl (Option.some.inj hs).symm)
        · rename_i hle
          exact .inl ⟨d, seq, hseq, not_lt.mp hle, (Option.some.inj hs).symm⟩
    · exact .inr (.inr ⟨_, (Option.some.inj hs).symm⟩)
    · cases hs
  · cases hs

theorem advance_cases (hs : s.advance = some t) :
    ∃ r minSeq, s.phase = .yielding r minSeq ∧ t = s.loop r minSeq := by
  unfold advance at hs
  split at hs
  · rename_i r minSeq hp
    exact ⟨r, minSeq, hp, (Option.some.inj hs).symm⟩
  · cases hs

theorem call_cases (hs : s.call r = some t) : s.phase = .idle ∧ t = s.loop r r.startSequence := by
  unfold call at hs
  split at hs
  · rename_i hp
    exact ⟨hp, (Option.some.inj hs).symm⟩
  · cases hs

theorem move_loop (hstage : s.stage r = .before minSeq) (hl : l = .call r ∨ l = .advance) :
    Move r.maxItems (s.stage r) s.yielded.length (event (s, l, s.loop r minSeq))
      ((s.loop r minSeq).stage r) (s.loop r minSeq).yielded.length := by
  rw [hstage]
  rcases loop_cases s r minSeq with ⟨hmax, he⟩ | he
  · rw [he]
    rcases hl with rfl | rfl <;> exact .ask hmax
  · rw [he]
    rcases hl with rfl | rfl <;> exact .stop

section Steps

variable [Hashlib]

theorem begun_step (h : s.Begun r) (hs : s.step l = some t) : t.Begun r := by
  cases l with
  | call r' =>
    obtain ⟨hp, -⟩ := call_cases hs
    simp [Begun, hp] at h
  | client now l =>
    obtain ⟨client, -, rfl⟩ := Option.map_eq_some_iff.mp hs
    exact h
  | resume =>
    obtain ⟨r', minSeq, f, hp, ht⟩ := resume_cases hs
    obtain rfl : r' = r := by simpa [Begun, hp] using h
    rcases ht with ⟨d, seq, -, -, rfl⟩ | rfl | ⟨e, rfl⟩
    · rfl
    · rfl
    · trivial
  | advance =>
    obtain ⟨r', minSeq, hp, rfl⟩ := advance_cases hs
    obtain rfl : r' = r := by simpa [Begun, hp] using h
    exact begun_loop ..

theorem asks_step (h : s.Asks) (hs : s.step l = some t) : t.Asks := by
  cases l with
  | call r =>
    obtain ⟨-, rfl⟩ := call_cases hs
    exact asks_loop _ _ _
  | client now l =>
    obtain ⟨client, hc, rfl⟩ := Option.map_eq_some_iff.mp hs
    intro r minSeq f hp
    obtain ⟨hlt, fetch, hf, hr⟩ := h r minSeq f hp
    obtain ⟨hlt', fetch', hf', ha⟩ := Client.feed_advances (l := .own l) hc hlt hf
    refine ⟨hlt', fetch', hf', ?_⟩
    cases ha with
    | same => exact hr
    | goesOn hg => exact hg.request.trans hr
    | accepts _ => exact hr
  | resume =>
    obtain ⟨_, _, _, -, ht⟩ := resume_cases hs
    rcases ht with ⟨d, seq, -, -, rfl⟩ | rfl | ⟨e, rfl⟩ <;> exact nofun
  | advance =>
    obtain ⟨_, _, -, rfl⟩ := advance_cases hs
    exact asks_loop _ _ _

theorem move_step (h : s.Begun r) (hs : s.step l = some t) :
    Move r.maxItems (s.stage r) s.yielded.length (event (s, l, t)) (t.stage r)
      t.yielded.length := by
  cases l with
  | call r' =>
    obtain ⟨hp, -⟩ := call_cases hs
    simp [Begun, hp] at h
  | client now l =>
    obtain ⟨client, -, rfl⟩ := Option.map_eq_some_iff.mp hs
    exact .stay
  | resume =>
    obtain ⟨r', minSeq, f, hp, ht⟩ := resume_cases hs
    have hstage : s.stage r = .asking minSeq := by simp [stage, hp]
    rw [hstage]
    rcases ht with ⟨d, seq, hseq, hle, rfl⟩ | rfl | ⟨e, rfl⟩
    · have hmove : Move r.maxItems (.asking minSeq) s.yielded.length _ _ _ := .answer (some seq)
      rw [past, if_pos hle] at hmove
      simpa [event, stage, hseq] using hmove
    · exact .stop
    · exact .stop
  | advance =>
    obtain ⟨r', minSeq, hp, rfl⟩ := advance_cases hs
    obtain rfl : r' = r := by simpa [Begun, hp] using h
    exact move_loop (by simp [stage, hp]) (.inr rfl)

theorem yielded_step (hs : s.step l = some t) : t.yielded.map (·.metadata.sequence) =
    s.yielded.map (·.metadata.sequence) ++ items (event (s, l, t)).toList := by
  cases l with
  | call r =>
    obtain ⟨-, rfl⟩ := call_cases hs
    rcases loop_cases s r r.startSequence with ⟨-, he⟩ | he <;> simp [he, event, items]
  | client now l =>
    obtain ⟨client, -, rfl⟩ := Option.map_eq_some_iff.mp hs
    simp [event, items]
  | resume =>
    obtain ⟨_, _, _, -, ht⟩ := resume_cases hs
    rcases ht with ⟨d, seq, -, -, rfl⟩ | rfl | ⟨e, rfl⟩ <;> simp [event, items]
  | advance =>
    obtain ⟨r, minSeq, -, rfl⟩ := advance_cases hs
    rcases loop_cases s r minSeq with ⟨-, he⟩ | he <;> simp [he, event, items]

theorem meets (hs : s.step l = some t) : Meets (s.stage r) (event (s, l, t)) := by
  intro floor x hf hx
  cases l with
  | resume =>
    obtain ⟨_, minSeq, f, hp, ht⟩ := resume_cases hs
    obtain rfl : minSeq = floor := by simpa [stage, hp] using hf
    rcases ht with ⟨d, seq, hseq, hle, rfl⟩ | rfl | ⟨e, rfl⟩
    · obtain rfl : some seq = x := by simpa [event, hseq] using hx
      exact ⟨seq, rfl, hle⟩
    · cases hx
    · cases hx
  | call =>
    obtain ⟨hp, -⟩ := call_cases hs
    simp [stage, hp] at hf
  | advance =>
    obtain ⟨_, _, hp, -⟩ := advance_cases hs
    simp [stage, hp] at hf
  | client => cases hx

end Steps

end RangeCall

namespace StreamCall

variable {s t : StreamCall} {r : StreamRequest} {minSeq : ℕ} {nonce refreshNonce : Bytes}

/-- The floor that the walk has asked for and the Data that `express` has returned. -/
def answer (s : StreamCall) : Option (ℕ × Data) :=
  match s.phase with
  | .expressing _ minSeq c => (s.forwarder.loop.calls c).bind fun call =>
      match call.phase with
      | .returned d => d.map (minSeq, ·)
      | _ => none
  | _ => none

/-- The Data that `express` has returned has a sequence at or above the floor. -/
def AnswerAbove (s : StreamCall) : Prop :=
  ∀ a ∈ s.answer, ∃ seq ∈ a.2.metadata.sequence, a.1 ≤ seq

instance (s : StreamCall) : Decidable s.AnswerAbove :=
  inferInstanceAs (Decidable (∀ a ∈ s.answer, ∃ seq ∈ a.2.metadata.sequence, a.1 ≤ seq))

/-- The floor that a step asks for, or the Data that it yields. -/
def event (e : StreamCall × Label × StreamCall) : Option FloorWalk.Event :=
  match e.2.1, e.2.2.phase with
  | .call .., .expressing _ minSeq _ | .advance .., .expressing _ minSeq _ => some (.ask minSeq)
  | .resume, .yielding _ _ => e.2.2.yielded.getLast?.map fun d => .item d.metadata.sequence
  | _, _ => none

def stage (r : StreamRequest) (s : StreamCall) : Stage :=
  match s.phase with
  | .idle => .before r.startSequence
  | .expressing _ minSeq _ => .asking minSeq
  | .yielding _ minSeq => .before minSeq
  | .ended _ | .raised _ => .over

def Begun (r : StreamRequest) (s : StreamCall) : Prop :=
  match s.phase with
  | .idle => False
  | .raised _ => True
  | .expressing r' _ _ | .yielding r' _ | .ended r' => r' = r

theorem resume_cases (hs : s.resume = some t) : ∃ r minSeq c call,
    s.phase = .expressing r minSeq c ∧ s.forwarder.loop.calls c = some call ∧
    ((∃ d, call.phase = .returned (some d) ∧
        t = { s with
          phase := .yielding r (past minSeq d.metadata.sequence)
          yielded := s.yielded ++ [d] }) ∨
      (∀ d, call.phase ≠ .returned (some d)) ∧
        (t = { s with phase := .ended r } ∨ ∃ e, t = { s with phase := .raised e })) := by
  unfold resume at hs
  split at hs
  · rename_i r minSeq c hp
    obtain ⟨call, hc, hs⟩ := Option.bind_eq_some_iff.mp hs
    refine ⟨r, minSeq, c, call, hp, hc, ?_⟩
    split at hs
    · rename_i hret
      exact .inr ⟨by simp [hret], .inl (Option.some.inj hs).symm⟩
    · rename_i d hret
      refine .inl ⟨d, hret, ?_⟩
      obtain rfl := Option.some.inj hs
      cases d.metadata.sequence <;> rfl
    · rename_i e hret
      exact .inr ⟨by simp [hret], .inr ⟨e, (Option.some.inj hs).symm⟩⟩
    · cases hs
  · cases hs

section Steps

variable [Hashlib] {l : Label}

theorem loop_cases (s : StreamCall) (r : StreamRequest) (minSeq : ℕ) (nonce refreshNonce : Bytes) :
    (∀ m ∈ r.maxSegments, s.yielded.length < m) ∧
      s.loop r minSeq nonce refreshNonce = { s with
        forwarder := s.forwarder.express (r.interest minSeq nonce) r.inFace refreshNonce
        phase := .expressing r minSeq s.forwarder.loop.nextCall } ∨
    s.loop r minSeq nonce refreshNonce = { s with phase := .ended r } := by
  unfold loop
  split
  · rename_i hmax
    exact .inl ⟨by simpa [Option.all_eq_true] using hmax, rfl⟩
  · exact .inr rfl

theorem begun_loop (s : StreamCall) (r : StreamRequest) (minSeq : ℕ)
    (nonce refreshNonce : Bytes) : (s.loop r minSeq nonce refreshNonce).Begun r := by
  rcases loop_cases s r minSeq nonce refreshNonce with ⟨-, he⟩ | he <;> rw [he] <;> rfl

theorem call_cases (hs : s.call r nonce refreshNonce = some t) :
    s.phase = .idle ∧ t = s.loop r r.startSequence nonce refreshNonce := by
  unfold call at hs
  split at hs
  · rename_i hp
    exact ⟨hp, (Option.some.inj hs).symm⟩
  · cases hs

theorem advance_cases (hs : s.advance nonce refreshNonce = some t) :
    ∃ r minSeq, s.phase = .yielding r minSeq ∧ t = s.loop r minSeq nonce refreshNonce := by
  unfold advance at hs
  split at hs
  · rename_i r minSeq hp
    exact ⟨r, minSeq, hp, (Option.some.inj hs).symm⟩
  · cases hs

theorem begun_step (h : s.Begun r) (hs : s.step l = some t) : t.Begun r := by
  cases l with
  | call r' =>
    obtain ⟨hp, -⟩ := call_cases hs
    simp [Begun, hp] at h
  | forwarder l =>
    obtain ⟨forwarder, -, rfl⟩ := Option.map_eq_some_iff.mp hs
    exact h
  | resume =>
    obtain ⟨r', minSeq, c, call, hp, -, ht⟩ := resume_cases hs
    obtain rfl : r' = r := by simpa [Begun, hp] using h
    rcases ht with ⟨d, -, rfl⟩ | ⟨-, rfl | ⟨e, rfl⟩⟩
    · rfl
    · rfl
    · trivial
  | advance =>
    obtain ⟨r', minSeq, hp, rfl⟩ := advance_cases hs
    obtain rfl : r' = r := by simpa [Begun, hp] using h
    exact begun_loop ..

theorem move_loop (hstage : s.stage r = .before minSeq)
    (hl : l = .call r nonce refreshNonce ∨ l = .advance nonce refreshNonce) :
    Move r.maxSegments (s.stage r) s.yielded.length
      (event (s, l, s.loop r minSeq nonce refreshNonce))
      ((s.loop r minSeq nonce refreshNonce).stage r)
      (s.loop r minSeq nonce refreshNonce).yielded.length := by
  rw [hstage]
  rcases loop_cases s r minSeq nonce refreshNonce with ⟨hmax, he⟩ | he
  · rw [he]
    rcases hl with rfl | rfl <;> exact .ask hmax
  · rw [he]
    rcases hl with rfl | rfl <;> exact .stop

theorem move_step (h : s.Begun r) (hs : s.step l = some t) :
    Move r.maxSegments (s.stage r) s.yielded.length (event (s, l, t)) (t.stage r)
      t.yielded.length := by
  cases l with
  | call r' =>
    obtain ⟨hp, -⟩ := call_cases hs
    simp [Begun, hp] at h
  | forwarder l =>
    obtain ⟨forwarder, -, rfl⟩ := Option.map_eq_some_iff.mp hs
    exact .stay
  | resume =>
    obtain ⟨r', minSeq, c, call, hp, -, ht⟩ := resume_cases hs
    have hstage : s.stage r = .asking minSeq := by simp [stage, hp]
    rw [hstage]
    rcases ht with ⟨d, -, rfl⟩ | ⟨-, rfl | ⟨e, rfl⟩⟩
    · have hmove : Move r.maxSegments (.asking minSeq) s.yielded.length _ _ _ :=
        .answer d.metadata.sequence
      simpa [event, stage] using hmove
    · exact .stop
    · exact .stop
  | advance nonce refreshNonce =>
    obtain ⟨r', minSeq, hp, rfl⟩ := advance_cases hs
    obtain rfl : r' = r := by simpa [Begun, hp] using h
    exact move_loop (by simp [stage, hp]) (.inr rfl)

theorem meets_iff (hs : s.step l = some t) :
    Meets (s.stage r) (event (s, l, t)) ↔ (l = .resume → s.AnswerAbove) := by
  cases l with
  | resume =>
    obtain ⟨r', minSeq, c, call, hp, hc, ht⟩ := resume_cases hs
    have hstage : s.stage r = .asking minSeq := by simp [stage, hp]
    rw [hstage]
    rcases ht with ⟨d, hret, rfl⟩ | ⟨hnone, ht⟩
    · have hevent : event (s, .resume,
          { s with
            phase := .yielding r' (past minSeq d.metadata.sequence)
            yielded := s.yielded ++ [d] }) = some (.item d.metadata.sequence) := by simp [event]
      rw [hevent]
      have hanswer : s.answer = some (minSeq, d) := by simp [answer, hp, hc, hret]
      constructor
      · rintro hm - a ha
        obtain rfl := Option.some.inj (hanswer.symm.trans ha)
        exact hm minSeq _ rfl rfl
      · intro ha floor x hf hx
        obtain rfl := Stage.asking.inj hf
        obtain rfl := FloorWalk.Event.item.inj (Option.some.inj hx)
        exact ha rfl _ hanswer
    · have hanswer : s.answer = none := by
        rw [answer, hp]
        simp only [hc, Option.bind_some]
        split
        · rename_i d hret
          cases d with
          | none => rfl
          | some d => exact absurd hret (hnone d)
        · rfl
      constructor
      · rintro - - a ha
        rw [hanswer] at ha
        cases ha
      · intro _ floor x _ hx
        rcases ht with rfl | ⟨e, rfl⟩ <;> cases hx
  | call =>
    refine iff_of_true (fun floor x hf hx => ?_) nofun
    obtain ⟨hp, -⟩ := call_cases hs
    simp [stage, hp] at hf
  | advance =>
    refine iff_of_true (fun floor x hf hx => ?_) nofun
    obtain ⟨r', minSeq, hp, -⟩ := advance_cases hs
    simp [stage, hp] at hf
  | forwarder => exact iff_of_true (fun _ _ _ => nofun) nofun

theorem yielded_step (hs : s.step l = some t) : t.yielded.map (·.metadata.sequence) =
    s.yielded.map (·.metadata.sequence) ++ items (event (s, l, t)).toList := by
  cases l with
  | call r nonce refreshNonce =>
    obtain ⟨-, rfl⟩ := call_cases hs
    rcases loop_cases s r r.startSequence nonce refreshNonce with ⟨-, he⟩ | he <;>
      simp [he, event, items]
  | forwarder =>
    obtain ⟨forwarder, -, rfl⟩ := Option.map_eq_some_iff.mp hs
    simp [event, items]
  | resume =>
    obtain ⟨_, _, _, _, -, -, ht⟩ := resume_cases hs
    rcases ht with ⟨d, -, rfl⟩ | ⟨-, rfl | ⟨e, rfl⟩⟩ <;> simp [event, items]
  | advance nonce refreshNonce =>
    obtain ⟨r, minSeq, -, rfl⟩ := advance_cases hs
    rcases loop_cases s r minSeq nonce refreshNonce with ⟨-, he⟩ | he <;>
      simp [he, event, items]

end Steps

end StreamCall

section Walks

variable [Hashlib]

theorem RangeCall.forward {s t : RangeCall} {r : RangeRequest} {ls : List RangeCall.Label}
    (hidle : s.phase = .idle) (hnil : s.yielded = [])
    (hr : Run RangeCall.step anyStep s (.call r :: ls) t) :
    Forward r.startSequence r.maxItems (observed RangeCall.step event s (.call r :: ls)) := by
  cases hr with
  | @cons _ u _ _ _ _ hs hr =>
    obtain ⟨-, rfl⟩ := call_cases hs
    have hbegun := begun_loop s r r.startSequence
    have hstage : s.stage r = .before r.startSequence := by simp [stage, hidle]
    have h₀ : Along r.startSequence r.maxItems (s.stage r) s.yielded.length [] := by
      rw [hstage, hnil]
      exact .nil ..
    have h₁ := h₀.move (move_loop hstage (.inl rfl)) (meets hs)
    have hrun := hr.with_invariant hbegun fun _ _ _ hb _ hs => begun_step hb hs
    rw [observed_cons hs]
    refine (h₁.forward_iff hrun fun s l t hok hs => move_step hok.1 hs).mpr ?_
    intro e he
    exact meets (hrun.of_mem_trace he).2

theorem StreamCall.forward_iff {s t : StreamCall} {r : StreamRequest}
    {nonce refreshNonce : Bytes} {ls : List StreamCall.Label} (hidle : s.phase = .idle)
    (hnil : s.yielded = [])
    (hr : Run StreamCall.step anyStep s (.call r nonce refreshNonce :: ls) t) :
    Forward r.startSequence r.maxSegments
        (observed StreamCall.step event s (.call r nonce refreshNonce :: ls)) ↔
      ∀ e ∈ trace StreamCall.step s (.call r nonce refreshNonce :: ls),
        e.2.1 = .resume → e.1.AnswerAbove := by
  cases hr with
  | @cons _ u _ _ _ _ hs hr =>
    obtain ⟨-, rfl⟩ := call_cases hs
    have hbegun := begun_loop s r r.startSequence nonce refreshNonce
    have hstage : s.stage r = .before r.startSequence := by simp [stage, hidle]
    have h₀ : Along r.startSequence r.maxSegments (s.stage r) s.yielded.length [] := by
      rw [hstage, hnil]
      exact .nil ..
    have h₁ := h₀.move (move_loop hstage (.inl rfl)) ((meets_iff hs).mpr nofun)
    have hrun := hr.with_invariant hbegun fun _ _ _ hb _ hs => begun_step hb hs
    have hmeets := h₁.forward_iff hrun fun s l t hok hs => move_step hok.1 hs
    rw [observed_cons hs, trace_cons hs, List.forall_mem_cons]
    refine hmeets.trans ⟨fun hall => ⟨nofun, fun e he => ?_⟩, fun hall e he => ?_⟩
    · exact (meets_iff (hrun.of_mem_trace he).2).mp (hall e he)
    · exact (meets_iff (hrun.of_mem_trace he).2).mpr (hall.2 e he)

/-- A range only moves forward, whatever it is answered. A stream does so exactly if every answer
that it takes is at or above the floor that it asked for. -/
theorem walks_move_forward :
    (∀ (s t : RangeCall) r ls, s.phase = .idle → s.yielded = [] →
      Run RangeCall.step anyStep s (.call r :: ls) t →
        Forward r.startSequence r.maxItems
            (observed RangeCall.step RangeCall.event s (.call r :: ls)) ∧
          t.yielded.map (·.metadata.sequence) =
            items (observed RangeCall.step RangeCall.event s (.call r :: ls)) ∧
          ∀ e ∈ trace RangeCall.step s (.call r :: ls), e.2.2.Asks) ∧
    ∀ (s t : StreamCall) r nonce refreshNonce ls, s.phase = .idle → s.yielded = [] →
      Run StreamCall.step anyStep s (.call r nonce refreshNonce :: ls) t →
        t.yielded.map (·.metadata.sequence) =
            items (observed StreamCall.step StreamCall.event s
              (.call r nonce refreshNonce :: ls)) ∧
          (Forward r.startSequence r.maxSegments
              (observed StreamCall.step StreamCall.event s (.call r nonce refreshNonce :: ls)) ↔
            ∀ e ∈ trace StreamCall.step s (.call r nonce refreshNonce :: ls),
              e.2.1 = .resume → e.1.AnswerAbove) := by
  constructor
  · intro s t r ls hidle hnil hr
    refine ⟨RangeCall.forward hidle hnil hr, ?_, ?_⟩
    · let out (s : RangeCall) : List (Option ℕ) := s.yielded.map (·.metadata.sequence)
      have hout : out t = out s ++ _ :=
        items_observed hr fun _ _ _ _ hs => RangeCall.yielded_step hs
      simpa [out, hnil] using hout
    · have hasks : s.Asks := fun r minSeq f hp => by
        rw [hidle] at hp
        cases hp
      exact fun e he =>
        (hr.trace_invariant hasks (fun _ _ _ h _ hs => RangeCall.asks_step h hs) e he).2
  · intro s t r nonce refreshNonce ls hidle hnil hr
    refine ⟨?_, StreamCall.forward_iff hidle hnil hr⟩
    let out (s : StreamCall) : List (Option ℕ) := s.yielded.map (·.metadata.sequence)
    have hout : out t = out s ++ _ :=
      items_observed hr fun _ _ _ _ hs => StreamCall.yielded_step hs
    simpa [out, hnil] using hout

end Walks

def unsequencedPost : Data :=
  letI := Data.paddedHash
  Data.new ⟨List.replicate 16 1, [[1]], none⟩ [1]

def unstreamed : StreamCall where
  forwarder := { fib := Fib.insert {} ⟨List.replicate 16 1, [], none⟩ 1, faces := [1] }

def streamOf (d : Data) : List StreamCall.Label :=
  [.call { name := ⟨List.replicate 16 1, [], none⟩ } (List.replicate 8 5) (List.replicate 8 6),
    .forwarder (.sent 0), .forwarder (.receiveData d 1 false), .forwarder (.resume 0), .resume]

def streamed (ls : List StreamCall.Label) : StreamCall :=
  letI := Data.paddedHash
  (exec StreamCall.step unstreamed ls).getD unstreamed

theorem exec_streamed {ls : List StreamCall.Label} :
    letI := Data.paddedHash
    (exec StreamCall.step unstreamed ls).isSome = true →
      exec StreamCall.step unstreamed ls = some (streamed ls) :=
  fun h => (Option.some_get h).symm.trans (congrArg some (Option.get_eq_getD ..))

def rangeTurn (f : FetchId) (d : Data) : List RangeCall.Label :=
  [.client 0 (.attempt f 1 (List.replicate 8 (.ofNat f)) (List.replicate 8 6)),
    .client 0 (.forwarder (.sent f)), .client 0 (.forwarder (.receiveData d 1 false)),
    .client 0 (.forwarder (.resume f)), .client 0 (.finish f), .resume]

/-- The range of the root of the producer, answered with `d` and then with `e`. -/
def rangeOf (d e : Data) : List RangeCall.Label :=
  .call { collection := ⟨List.replicate 16 1, [], none⟩ } ::
    (rangeTurn 0 d ++ .advance :: rangeTurn 1 e)

def ranged (ls : List RangeCall.Label) : RangeCall :=
  letI := Data.paddedHash
  (exec RangeCall.step { client := {} } ls).getD { client := {} }

/-- A stream yields an edition with a sequence, and a range two editions one after the other. -/
theorem streamed_edition_forward :
    letI := Data.paddedHash
    (streamed (streamOf (unsequencedPost.withSequence 3))).phase =
        .yielding { name := ⟨List.replicate 16 1, [], none⟩ } 4 ∧
      Forward 0 none (observed StreamCall.step StreamCall.event unstreamed
        (streamOf (unsequencedPost.withSequence 3))) ∧
      (ranged (rangeOf (unsequencedPost.withSequence 3) (unsequencedPost.withSequence 5))).phase =
        .yielding { collection := ⟨List.replicate 16 1, [], none⟩ } 6 ∧
      Forward 0 none (observed RangeCall.step RangeCall.event { client := {} }
        (rangeOf (unsequencedPost.withSequence 3) (unsequencedPost.withSequence 5))) := by
  let := Data.paddedHash
  have hexec : (exec StreamCall.step unstreamed
      (streamOf (unsequencedPost.withSequence 3))).isSome = true := by decide +kernel
  have hrun := run_of_exec (exec_streamed hexec)
  have habove : (trace StreamCall.step unstreamed
      (streamOf (unsequencedPost.withSequence 3))).all (fun e => e.1.AnswerAbove) = true := by
    decide +kernel
  have hrange : (exec RangeCall.step { client := {} } (rangeOf (unsequencedPost.withSequence 3)
      (unsequencedPost.withSequence 5))).isSome = true := by decide +kernel
  refine ⟨by decide +kernel, ?_, by decide +kernel, ?_⟩
  · refine ((walks_move_forward.2 _ _ _ _ _ _ rfl rfl hrun).2).mpr fun e he _ => ?_
    exact of_decide_eq_true (List.all_eq_true.mp habove e he)
  · exact (walks_move_forward.1 _ _ _ _ rfl rfl (run_of_exec (Option.some_get hrange).symm)).1

/-- A stream yields an answer without a sequence. -/
theorem unsequenced_post_yielded :
    letI := Data.paddedHash
    Run StreamCall.step anyStep unstreamed (streamOf unsequencedPost)
        (streamed (streamOf unsequencedPost)) ∧
      (streamed (streamOf unsequencedPost)).yielded = [unsequencedPost] ∧
      ¬ Forward 0 none
        (observed StreamCall.step StreamCall.event unstreamed (streamOf unsequencedPost)) := by
  let := Data.paddedHash
  refine ⟨run_of_exec (exec_streamed (by decide +kernel)), by decide +kernel, fun hf => ?_⟩
  exact absurd hf.present (by decide +kernel)

end RnsIcn
