import RnsIcn.Lib.SharedQueue
import RnsIcn.Lib.Transition
import RnsIcn.Server.Resource

/-! # The two readers of a link

The packets of a link wait in one queue. The reader of the link takes them from there for
the handler, and so does each call that waits on the face for the Data of an Interest. What
such a call takes the handler never sees.
-/

namespace RnsIcn

open Fallible Transition

/-- Who takes a packet: the reader, or a call of `express_interest`. -/
inductive Taker where
  | reader
  | fetch (i : Interest)
  deriving DecidableEq, Repr

/-- Where `_process_link` stands. -/
inductive ReaderPhase where
  | waiting
  | handling (raw : Bytes)
  | stopped
  deriving DecidableEq, Repr

/-- A `LinkFace`, the reader of its queue and the calls of `express_interest` that wait on it. -/
structure LinkFace where
  queue : SharedQueue Taker Bytes := {}
  closed : Bool := false
  reader : ReaderPhase := .waiting
  fetches : List Interest := []
  replies : List (Interest × Except PyError (Option Data)) := []

/-- What `express_interest` returns for an item of the queue, if it does not go on waiting. -/
def expressInterest (raw : Bytes) : Option (Except PyError (Option Data)) :=
  match raw.head? with
  | none => some (.ok none)
  | some b => if b = PacketType.data.value then some (some <$> Data.fromBytes raw) else none

def isPacket (raw : Bytes) : Bool := (parsePacket raw).toOption.isSome

def answersTo (i : Interest) (raw : Bytes) : Bool :=
  match parsePacket raw with
  | .ok (.data d) => d.name == i.name
  | _ => false

namespace LinkFace

/-- What happens on a face. Waiting calls are numbered in the order in which they began. -/
inductive Label where
  | arrive (raw : Bytes)
  | close (marker : Bool)
  | read
  | handled (ok : Bool)
  | idle
  | express (i : Interest)
  | take (k : ℕ)
  | timeout (k : ℕ)

def nextTurn (s : LinkFace) : ReaderPhase := if s.closed then .stopped else .waiting

/-- The call returns. -/
def reply (s : LinkFace) (k : ℕ) (i : Interest) (r : Except PyError (Option Data)) : LinkFace :=
  { s with fetches := s.fetches.eraseIdx k, replies := s.replies ++ [(i, r)] }

def step (s : LinkFace) : Label → Option LinkFace
  | .arrive raw => if s.closed then none else some { s with queue := s.queue.put raw }
  | .close marker =>
    let s := { s with closed := true }
    some (if marker then { s with queue := s.queue.put [] } else s)
  | .read =>
    if s.reader = .waiting then
      (s.queue.take .reader).map fun (raw, queue) =>
        { s with queue, reader := if raw = [] then .stopped else .handling raw }
    else none
  | .handled ok =>
    match s.reader with
    | .handling _ => some { s with reader := if ok then s.nextTurn else .stopped }
    | _ => none
  | .idle => if s.reader = .waiting then some { s with reader := s.nextTurn } else none
  | .express i => some { s with fetches := s.fetches ++ [i] }
  | .take k => do
    let i ← s.fetches[k]?
    let (raw, queue) ← s.queue.take (.fetch i)
    match expressInterest raw with
    | none => return { s with queue }
    | some r => return { s with queue }.reply k i r
  | .timeout k => do
    let i ← s.fetches[k]?
    return s.reply k i (.ok none)

/-- A packet that the reader took. -/
def handled : Taker × Bytes → Bool
  | (.reader, raw) => isPacket raw
  | (.fetch _, _) => false

def unanswering : Taker × Bytes → Bool
  | (.reader, raw) => isPacket raw
  | (.fetch i, raw) => isPacket raw && !answersTo i raw

/-- Every Data that a call returned has the name of its Interest, and the handler got all other
packets in their order. -/
structure Faithful (s : LinkFace) : Prop where
  named : ∀ i d, (i, .ok (some d)) ∈ s.replies → d.name = i.name
  handled : s.queue.selected handled = s.queue.selected unanswering

/-- A waiting call takes a packet that is not the Data it waits for. -/
def Misfetches (s : LinkFace) : Label → Prop
  | .take k => ∃ i ∈ s.fetches[k]?, ∃ raw ∈ s.queue.items.head?,
      isPacket raw = true ∧ answersTo i raw = false
  | _ => False

instance (s : LinkFace) : DecidablePred s.Misfetches := fun l =>
  match l with
  | .take k => inferInstanceAs (Decidable (∃ i ∈ s.fetches[k]?, ∃ raw ∈ s.queue.items.head?,
      isPacket raw = true ∧ answersTo i raw = false))
  | .arrive _ | .close _ | .read | .handled _ | .idle | .express _ | .timeout _ => .isFalse id

/-- Nothing was taken from the queue and no call returned. -/
structure Fresh (s : LinkFace) : Prop where
  taken : s.queue.taken = []
  replies : s.replies = []

def arrivals (ls : List Label) : List Bytes :=
  ls.flatMap fun
    | .arrive raw => [raw]
    | .close true => [[]]
    | _ => []

variable {s t : LinkFace} {l : Label} {ls : List Label} {raw : Bytes} {i : Interest}

theorem answersTo_iff :
    answersTo i raw = true ↔ ∃ d, Data.fromBytes raw = .ok d ∧ d.name = i.name := by
  unfold answersTo
  constructor
  · intro h
    split at h
    · rename_i d hd
      exact ⟨d, parsePacket_data hd, eq_of_beq h⟩
    · cases h
  · rintro ⟨d, hd, hn⟩
    rw [parsePacket_of_data hd]
    exact beq_iff_eq.mpr hn

theorem isPacket_of_data {d : Data} (h : Data.fromBytes raw = .ok d) : isPacket raw = true := by
  rw [isPacket, parsePacket_of_data h]
  rfl

theorem expressInterest_data {d : Data} (h : expressInterest raw = some (.ok (some d))) :
    Data.fromBytes raw = .ok d := by
  unfold expressInterest at h
  split at h
  · cases h
  · split at h
    · obtain ⟨e, he, hde⟩ := map_eq_ok.mp (Option.some.inj h)
      exact Option.some.inj hde ▸ he
    · cases h

theorem expressInterest_of_data {d : Data} (h : Data.fromBytes raw = .ok d) :
    expressInterest raw = some (.ok (some d)) := by
  rw [expressInterest, Data.head_of_fromBytes h]
  simp [h]

theorem handled_le {x : Taker × Bytes} (h : handled x = true) : unanswering x = true := by
  rcases x with ⟨_ | i, raw⟩
  · exact h
  · cases h

theorem step_read (h : s.step .read = some t) :
    s.reader = .waiting ∧ ∃ raw queue, s.queue.take .reader = some (raw, queue) ∧
      t = { s with queue, reader := if raw = [] then .stopped else .handling raw } := by
  rw [step] at h
  split at h
  · rename_i hreader
    obtain ⟨⟨raw, queue⟩, hq, rfl⟩ := Option.map_eq_some_iff.mp h
    exact ⟨hreader, raw, queue, hq, rfl⟩
  · cases h

theorem step_take {k : ℕ} (h : s.step (.take k) = some t) :
    ∃ i ∈ s.fetches[k]?, ∃ raw queue, s.queue.take (.fetch i) = some (raw, queue) ∧
      ((expressInterest raw = none ∧ t = { s with queue }) ∨
        ∃ r, expressInterest raw = some r ∧ t = { s with queue }.reply k i r) := by
  obtain ⟨i, hi, h⟩ := Option.bind_eq_some_iff.mp h
  obtain ⟨⟨raw, queue⟩, hq, h⟩ := Option.bind_eq_some_iff.mp h
  refine ⟨i, hi, raw, queue, hq, ?_⟩
  dsimp only at h
  split at h
  · rename_i he
    exact .inl ⟨he, (Option.some.inj h).symm⟩
  · rename_i r he
    exact .inr ⟨r, he, (Option.some.inj h).symm⟩

/-- A call takes an item, or the reader does, or the arrivals of the label wait and no call returns
Data. -/
theorem step_cases (h : s.step l = some t) :
    (∃ k, l = .take k) ∨
      (∃ raw, s.queue.take .reader = some (raw, t.queue) ∧ t.replies = s.replies ∧
        arrivals [l] = []) ∨
      (t.queue.taken = s.queue.taken ∧ t.queue.items = s.queue.items ++ arrivals [l] ∧
        ∀ i d, (i, .ok (some d)) ∈ t.replies → (i, .ok (some d)) ∈ s.replies) := by
  have hsame : s.queue.items = s.queue.items ++ [] := (List.append_nil _).symm
  cases l with
  | arrive raw =>
    rw [step] at h
    split at h
    · cases h
    · cases h
      exact .inr (.inr ⟨rfl, rfl, fun _ _ hr => hr⟩)
  | close marker =>
    cases h
    cases marker
    · exact .inr (.inr ⟨rfl, hsame, fun _ _ hr => hr⟩)
    · exact .inr (.inr ⟨rfl, rfl, fun _ _ hr => hr⟩)
  | read =>
    obtain ⟨-, raw, queue, hq, rfl⟩ := step_read h
    exact .inr (.inl ⟨raw, hq, rfl, rfl⟩)
  | handled ok =>
    rw [step] at h
    split at h
    · cases h
      exact .inr (.inr ⟨rfl, hsame, fun _ _ hr => hr⟩)
    · cases h
  | idle =>
    rw [step] at h
    split at h
    · cases h
      exact .inr (.inr ⟨rfl, hsame, fun _ _ hr => hr⟩)
    · cases h
  | express i =>
    cases h
    exact .inr (.inr ⟨rfl, hsame, fun _ _ hr => hr⟩)
  | take k => exact .inl ⟨k, rfl⟩
  | timeout k =>
    obtain ⟨i, -, h⟩ := Option.bind_eq_some_iff.mp h
    cases h
    refine .inr (.inr ⟨rfl, hsame, fun j d hr => (List.mem_append.mp hr).resolve_right ?_⟩)
    intro hr
    cases List.mem_singleton.mp hr

theorem handled_eq_iff : s.queue.selected handled = s.queue.selected unanswering ↔
    ∀ x ∈ s.queue.taken, unanswering x = true → handled x = true :=
  SharedQueue.selected_eq_iff fun _ => handled_le

/-- A step at which no call takes a packet of another keeps the face faithful. -/
theorem Faithful.step (h : s.Faithful) (hs : s.step l = some t) (hl : ¬ s.Misfetches l) :
    t.Faithful := by
  have hall := handled_eq_iff.mp h.handled
  rcases step_cases hs with ⟨k, rfl⟩ | ⟨raw, hq, hreplies, -⟩ | ⟨htaken, -, hreplies⟩
  · obtain ⟨i, hi, raw, queue, hq, ht⟩ := step_take hs
    obtain ⟨items, hitems, rfl⟩ := SharedQueue.take_eq_some.mp hq
    have hanswer : isPacket raw = true → answersTo i raw = true := by
      intro hp
      by_contra ha
      exact hl ⟨i, hi, raw, by rw [hitems]; rfl, hp, Bool.eq_false_iff.mpr ha⟩
    have htaken : t.queue.taken = s.queue.taken ++ [(.fetch i, raw)] := by
      rcases ht with ⟨-, rfl⟩ | ⟨r, -, rfl⟩ <;> rfl
    constructor
    · intro j d hr
      rcases ht with ⟨-, rfl⟩ | ⟨r, he, rfl⟩
      · exact h.named j d hr
      · rcases List.mem_append.mp hr with hr | hr
        · exact h.named j d hr
        · obtain ⟨rfl, rfl⟩ := Prod.mk.inj (List.mem_singleton.mp hr)
          have hd := expressInterest_data he
          obtain ⟨e, he, hn⟩ := answersTo_iff.mp (hanswer (isPacket_of_data hd))
          obtain rfl : d = e := Except.ok.inj (hd.symm.trans he)
          exact hn
    · refine handled_eq_iff.mpr fun x hx hu => ?_
      rw [htaken] at hx
      rcases List.mem_append.mp hx with hx | hx
      · exact hall x hx hu
      · obtain rfl := List.mem_singleton.mp hx
        obtain ⟨hp, ha⟩ := (Bool.and_eq_true _ _).mp hu
        rw [hanswer hp] at ha
        cases ha
  · obtain ⟨items, -, hqueue⟩ := SharedQueue.take_eq_some.mp hq
    refine ⟨fun i d hr => h.named i d (hreplies ▸ hr), handled_eq_iff.mpr fun x hx hu => ?_⟩
    rw [hqueue] at hx
    rcases List.mem_append.mp hx with hx | hx
    · exact hall x hx hu
    · obtain rfl := List.mem_singleton.mp hx
      exact hu
  · refine ⟨fun i d hr => h.named i d (hreplies i d hr), handled_eq_iff.mpr fun x hx hu => ?_⟩
    exact hall x (htaken ▸ hx) hu

theorem not_faithful_of_misfetches (hs : s.step l = some t) (hl : s.Misfetches l) :
    ¬ t.Faithful := by
  intro h
  cases l with
  | take k =>
    obtain ⟨i, hi, raw, hraw, hp, ha⟩ := hl
    obtain ⟨i', hi', raw', queue, hq, ht⟩ := step_take hs
    obtain rfl : i = i' := Option.some.inj (hi.symm.trans hi')
    obtain ⟨items, hitems, rfl⟩ := SharedQueue.take_eq_some.mp hq
    rw [hitems] at hraw
    obtain rfl : raw' = raw := Option.some.inj hraw
    have htaken : t.queue.taken = s.queue.taken ++ [(.fetch i, raw')] := by
      rcases ht with ⟨-, rfl⟩ | ⟨r, -, rfl⟩ <;> rfl
    have hx : (Taker.fetch i, raw') ∈ t.queue.taken := by
      rw [htaken]
      exact List.mem_append_right _ List.mem_cons_self
    have hu : unanswering (.fetch i, raw') = true := by
      rw [unanswering, hp, ha]
      rfl
    cases handled_eq_iff.mp h.handled _ hx hu
  | _ => exact hl

theorem arrived_step (hs : s.step l = some t) :
    t.queue.arrived = s.queue.arrived ++ arrivals [l] := by
  rcases step_cases hs with ⟨k, rfl⟩ | ⟨raw, hq, -, hl⟩ | ⟨htaken, hitems, -⟩
  · obtain ⟨i, -, raw, queue, hq, ht⟩ := step_take hs
    have ht : t.queue = queue := by
      rcases ht with ⟨-, rfl⟩ | ⟨r, -, rfl⟩ <;> rfl
    rw [ht, SharedQueue.arrived_of_take hq]
    exact (List.append_nil _).symm
  · rw [SharedQueue.arrived_of_take hq, hl, List.append_nil]
  · unfold SharedQueue.arrived
    rw [htaken, hitems, List.append_assoc]

theorem arrived_run (hr : Run step anyStep s ls t) :
    t.queue.arrived = s.queue.arrived ++ arrivals ls := by
  induction hr with
  | nil => exact (List.append_nil _).symm
  | @cons s t u l ls _ hs _ ih =>
    rw [ih, arrived_step hs, List.append_assoc]
    exact congrArg _ List.flatMap_append.symm

/-- What the handler gets of a faithful face comes to it in the order in which it arrived. -/
theorem handled_sublist (hr : Run step anyStep s ls t) :
    (t.queue.selected handled).Sublist (s.queue.arrived ++ arrivals ls) := by
  rw [← arrived_run hr]
  exact SharedQueue.selected_sublist _ _

theorem Fresh.faithful (h : s.Fresh) : s.Faithful := by
  constructor
  · intro i d hr
    rw [h.replies] at hr
    cases hr
  · rw [SharedQueue.selected, SharedQueue.selected, h.taken]
    rfl

/-- A face stays faithful all through a run if and only if no waiting call takes a packet that is
not the Data it waits for. -/
theorem faithful_iff (h : s.Fresh) (hr : Run step anyStep s ls t) :
    (∀ e ∈ trace step s ls, e.2.2.Faithful) ↔ ∀ e ∈ trace step s ls, ¬ e.1.Misfetches e.2.1 :=
  hr.trace_invariant_iff (J := fun _ => True) trivial h.faithful (fun _ _ _ _ _ _ => trivial)
    (fun _ _ _ _ hi _ hs hl => hi.step hs hl)
    (fun _ _ _ _ _ hs hl => not_faithful_of_misfetches hs hl)

end LinkFace

end RnsIcn
