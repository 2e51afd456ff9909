import RnsIcn.Server.Offline

/-! # Draining a queue

A drain takes all that is queued for a stream and hands it to a face, one item after
another. A face may raise, and a link that is not ready drops what it is handed without
raising. Neither puts the item back.
-/

namespace RnsIcn

open Effect Transition

/-- How `send_data` ends: the link has taken the item, `_send` has swallowed the refusal of the
link, or there was another exception. -/
inductive SendOutcome where
  | taken | swallowed | raised
  deriving DecidableEq, Repr

inductive DrainPhase (α : Type) where
  | idle
  | sending (item : α) (items : List α) (sent : ℕ)
  | returned (sent : ℕ)
  deriving DecidableEq, Repr

/-- The loop of `drain` goes on with the items that are left. -/
def DrainPhase.next {α : Type} (sent : ℕ) : List α → DrainPhase α
  | [] => .returned sent
  | item :: items => .sending item items sent

/-- An `OfflineQueue` with one call of `drain`. The faces are those of its server, if it has one.
An item is Data with the time at which it was queued, and `taken` lists those that a link took. -/
structure OfflineQueue (α : Type) where
  queue : Dict Name (List α) := .empty
  faces : Option (List FaceId) := none
  phase : DrainPhase α := .idle
  taken : List α := []

namespace OfflineQueue

variable {α : Type}

inductive Label (α : Type) where
  | put (stream : Name) (item : α)
  | drain (stream : Name) (face : FaceId)
  | sent (outcome : SendOutcome)

/-- What is queued for a stream. -/
def queued (s : OfflineQueue α) (stream : Name) : List α := (s.queue.get? stream).getD []

def put (s : OfflineQueue α) (stream : Name) (item : α) : OfflineQueue α :=
  { s with queue := s.queue.set stream (s.queued stream ++ [item]) }

/-- `drain`, up to the first send. -/
def drain (s : OfflineQueue α) (stream : Name) (face : FaceId) : Option (OfflineQueue α) :=
  match s.phase with
  | .idle =>
    match s.queued stream with
    | [] => some { s with queue := s.queue.erase stream, phase := .returned 0 }
    | items =>
      if s.faces.any (face ∈ ·) then
        some { s with queue := s.queue.erase stream, phase := .next 0 items }
      else
        some { s with
          queue := (s.queue.erase stream).set stream items
          phase := .returned 0 }
  | _ => none

/-- The end of a send. -/
def sent (s : OfflineQueue α) (outcome : SendOutcome) : Option (OfflineQueue α) :=
  match s.phase with
  | .sending item items n =>
    match outcome with
    | .taken => some { s with phase := .next (n + 1) items, taken := s.taken ++ [item] }
    | .swallowed => some { s with phase := .next (n + 1) items }
    | .raised => some { s with phase := .next n items }
  | _ => none

def step (s : OfflineQueue α) : Label α → Option (OfflineQueue α)
  | .put stream item => some (s.put stream item)
  | .drain stream face => s.drain stream face
  | .sent outcome => s.sent outcome

def putsTo (stream : Name) : List (Label α) → List α
  | [] => []
  | .put stream' item :: ls =>
    if stream' = stream then item :: putsTo stream ls else putsTo stream ls
  | _ :: ls => putsTo stream ls

def outcomes : List (Label α) → List SendOutcome
  | [] => []
  | .sent outcome :: ls => outcome :: outcomes ls
  | _ :: ls => outcomes ls

/-- Each item is one that a link took or one that is still queued, both in order, among the items
put to the stream meanwhile. Other streams have what was put to them, and `n` items were taken. -/
structure Conserved (s t : OfflineQueue α) (stream : Name) (ls : List (Label α)) (n : ℕ) :
    Prop where
  split : ∃ kept : List α, (t.taken ++ kept).Perm (s.queued stream) ∧
    t.taken.Sublist (s.queued stream) ∧ kept.Sublist (s.queued stream) ∧
    (t.queued stream).Perm (kept ++ putsTo stream ls) ∧ kept.Sublist (t.queued stream)
  others : ∀ other ≠ stream, t.queued other = s.queued other ++ putsTo other ls
  count : n = t.taken.length

variable {s t : OfflineQueue α} {stream other : Name} {face : FaceId} {ls : List (Label α)} {n : ℕ}

@[simp] theorem queued_put (s : OfflineQueue α) (stream other : Name) (item : α) :
    (s.put stream item).queued other =
      s.queued other ++ if stream = other then [item] else [] := by
  unfold queued put
  rw [Dict.get?_set]
  by_cases h : other = stream
  · subst h
    simp [queued]
  · simp [h, Ne.symm h]

theorem queued_erase (h : t.queue = s.queue.erase stream) (other : Name) :
    t.queued other = if other = stream then [] else s.queued other := by
  rw [queued, h, Dict.get?_erase]
  split <;> rfl

theorem sent_cases {o : SendOutcome} (hs : s.sent o = some t) : ∃ item items k,
    s.phase = .sending item items k ∧ t = { s with
      phase := .next (if o = .raised then k else k + 1) items
      taken := s.taken ++ if o = .taken then [item] else [] } := by
  unfold sent at hs
  split at hs
  · rename_i item items k hp
    refine ⟨item, items, k, hp, ?_⟩
    cases o <;> obtain rfl := Option.some.inj hs <;> simp
  · cases hs

theorem drain_cases (hs : s.drain stream face = some t) : t.taken = s.taken ∧
    (t.phase = .next 0 (s.queued stream) ∧ t.queued stream = [] ∨
      t.phase = .returned 0 ∧ t.queued stream = s.queued stream) ∧
    ∀ other ≠ stream, t.queued other = s.queued other := by
  unfold drain at hs
  split at hs
  · split at hs
    · rename_i hnil
      obtain rfl := Option.some.inj hs
      refine ⟨rfl, .inl ⟨by rw [hnil]; rfl, ?_⟩, fun other hne => ?_⟩
      · rw [queued_erase rfl, if_pos rfl]
      · rw [queued_erase rfl, if_neg hne]
    · split at hs
      · obtain rfl := Option.some.inj hs
        refine ⟨rfl, .inl ⟨rfl, ?_⟩, fun other hne => ?_⟩
        · rw [queued_erase rfl, if_pos rfl]
        · rw [queued_erase rfl, if_neg hne]
      · obtain rfl := Option.some.inj hs
        refine ⟨rfl, .inr ⟨rfl, ?_⟩, fun other hne => ?_⟩
        · simp [queued]
        · simp [queued, Dict.get?_set_ne _ _ hne, Dict.get?_erase_ne _ hne]
  · cases hs

theorem run_next {items : List α} {k : ℕ} (h : s.phase = .next k items)
    (hr : Run step anyStep s ls t) (ht : t.phase = .returned n) :
    (outcomes ls).length = items.length ∧
      (∃ taken : List α, t.taken = s.taken ++ taken ∧ taken.Sublist items ∧
        taken.length = (outcomes ls).count .taken) ∧
      n = k + (outcomes ls).countP (· ≠ .raised) ∧
      ∀ other, t.queued other = s.queued other ++ putsTo other ls := by
  induction hr generalizing items k with
  | nil =>
    rw [h] at ht
    cases items with
    | nil =>
      obtain rfl := DrainPhase.returned.inj ht
      simp [outcomes, putsTo]
    | cons item items => cases ht
  | @cons s u t l ls hok hs hr ih =>
    cases l with
    | put stream' item =>
      obtain rfl := Option.some.inj hs
      obtain ⟨hlen, htaken, hn, hq⟩ := ih h ht
      refine ⟨hlen, htaken, hn, fun other => ?_⟩
      rw [hq, queued_put, putsTo]
      split <;> simp
    | drain stream' face =>
      have hs : s.drain stream' face = some u := hs
      unfold drain at hs
      cases items <;> simp [h, DrainPhase.next] at hs
    | sent o =>
      obtain ⟨item, rest, k', hp, rfl⟩ := sent_cases hs
      cases items with
      | nil =>
        rw [h] at hp
        cases hp
      | cons item' items =>
        obtain ⟨rfl, rfl, rfl⟩ := DrainPhase.sending.inj (h.symm.trans hp)
        obtain ⟨hlen, ⟨taken, ht', hsub, hcount⟩, hn, hq⟩ := ih rfl ht
        refine ⟨by simp [outcomes, hlen],
          ⟨(if o = .taken then [item'] else []) ++ taken, ?_, ?_, ?_⟩, ?_, hq⟩
        · rw [ht', List.append_assoc]
        · split
          · exact hsub.cons_cons item'
          · exact hsub.cons item'
        · cases o <;> simp [outcomes, hcount, add_comm]
        · rw [hn]
          cases o <;> simp [outcomes] <;> omega

theorem mem_outcomes {o : SendOutcome} : o ∈ outcomes ls ↔ Label.sent o ∈ ls := by
  induction ls with
  | nil => simp [outcomes]
  | cons l ls ih => cases l <;> simp [outcomes, ih]

/-- A drain loses nothing exactly if the link takes every item that it is handed. -/
theorem drain_conserves_iff (hnone : s.taken = [])
    (hr : Run step anyStep s (.drain stream face :: ls) t) (ht : t.phase = .returned n) :
    Conserved s t stream ls n ↔ ∀ o, Label.sent o ∈ ls → o = .taken := by
  cases hr with
  | @cons _ u _ _ _ _ hs hr =>
    obtain ⟨htaken, hstart, hothers⟩ := drain_cases hs
    simp only [← mem_outcomes]
    rcases hstart with ⟨hsends, hempty⟩ | ⟨hret, hback⟩
    · obtain ⟨hlen, ⟨taken, ht', hsub, hcount⟩, hn, hq⟩ := run_next hsends hr ht
      rw [htaken, hnone, List.nil_append] at ht'
      subst ht'
      constructor
      · rintro ⟨⟨kept, hperm, -, -, hqueued, -⟩, -, -⟩ o ho
        -- Nothing is left of the items in the queue, so all of them were taken.
        have hleft := hqueued.length_eq
        have hall := hperm.length_eq
        rw [hq, hempty] at hleft
        simp only [List.nil_append, List.length_append] at hleft hall
        have hcount' : (outcomes ls).count .taken = (outcomes ls).length := by omega
        exact (List.count_eq_length.mp hcount' o ho).symm
      · intro hall
        have hcount' : (outcomes ls).count .taken = (outcomes ls).length :=
          List.count_eq_length.mpr fun o ho => (hall o ho).symm
        have hitems : t.taken = s.queued stream := hsub.eq_of_length (by omega)
        have hreturned : (outcomes ls).countP (· ≠ .raised) = (outcomes ls).length :=
          List.countP_eq_length.mpr fun o ho => by simp [hall o ho]
        refine ⟨⟨[], ?_, hsub, List.nil_sublist _, ?_, List.nil_sublist _⟩, fun other hne => ?_, ?_⟩
        · rw [hitems, List.append_nil]
        · rw [hq, hempty]
        · rw [hq, hothers other hne]
        · omega
    · have hnext : u.phase = .next 0 [] := hret
      obtain ⟨hlen, ⟨taken, ht', hsub, -⟩, hn, hq⟩ := run_next hnext hr ht
      have hnil : outcomes ls = [] := List.eq_nil_of_length_eq_zero hlen
      rw [htaken, hnone, List.sublist_nil.mp hsub] at ht'
      refine iff_of_true ⟨⟨s.queued stream, ?_, ?_, .refl _, ?_, ?_⟩, fun other hne => ?_, ?_⟩ ?_
      · rw [ht']
        exact .refl _
      · rw [ht']
        exact List.nil_sublist _
      · rw [hq, hback]
      · rw [hq, hback]
        exact List.sublist_append_left ..
      · rw [hq, hothers other hne]
      · rw [ht', hn, hnil]
        rfl
      · rw [hnil]
        exact fun o ho => absurd ho List.not_mem_nil

def queuedPost (k : ℕ) : ℕ × Data :=
  letI := Data.paddedHash
  (k, (Data.new ⟨List.replicate 16 1, [[UInt8.ofNat k]], none⟩ [UInt8.ofNat k]).withSequence k)

def posts : Name := ⟨List.replicate 16 1, [], none⟩

/-- Two posts are queued, and the subscriber is there again with the face 1. -/
def twoQueued : OfflineQueue (ℕ × Data) where
  queue := Dict.empty.set posts [queuedPost 1, queuedPost 2]
  faces := some [1]

def drained (os : List SendOutcome) : OfflineQueue (ℕ × Data) :=
  (Transition.exec step twoQueued (.drain posts 1 :: os.map .sent)).getD twoQueued

theorem drained_run {os : List SendOutcome}
    (h : (Transition.exec step twoQueued (.drain posts 1 :: os.map .sent)).isSome = true) :
    Run step anyStep twoQueued (.drain posts 1 :: os.map .sent) (drained os) :=
  run_of_exec ((Option.some_get h).symm.trans (congrArg some (Option.get_eq_getD ..)))

theorem taken_posts_conserved :
    (drained [.taken, .taken]).taken = [queuedPost 1, queuedPost 2] ∧
      Conserved twoQueued (drained [.taken, .taken]) posts [.sent .taken, .sent .taken] 2 := by
  have hrun := @drained_run [.taken, .taken] (by decide +kernel)
  refine ⟨by decide +kernel, (drain_conserves_iff rfl hrun (by decide +kernel)).mpr ?_⟩
  intro o ho
  simpa using ho

/-- A link that is not ready and a send that raises: both posts are lost, and one is counted. -/
theorem refused_posts_lost :
    Run step anyStep twoQueued [.drain posts 1, .sent .swallowed, .sent .raised]
        (drained [.swallowed, .raised]) ∧
      (drained [.swallowed, .raised]).phase = .returned 1 ∧
      (drained [.swallowed, .raised]).taken = [] ∧
      (drained [.swallowed, .raised]).queued posts = [] ∧
      ¬ Conserved twoQueued (drained [.swallowed, .raised]) posts
        [.sent .swallowed, .sent .raised] 1 := by
  have hrun := @drained_run [.swallowed, .raised] (by decide +kernel)
  have htaken : (drained [.swallowed, .raised]).taken = [] := by decide +kernel
  have hempty : (drained [.swallowed, .raised]).queued posts = [] := by decide +kernel
  refine ⟨hrun, by decide +kernel, htaken, hempty, fun h => ?_⟩
  obtain ⟨kept, hall, -, -, hleft, -⟩ := h.split
  rw [htaken] at hall
  rw [hempty] at hleft
  have hkept : kept = [] := (List.append_eq_nil_iff.mp hleft.symm.eq_nil).1
  subst hkept
  exact absurd hall.length_eq (by decide +kernel)

section Server

variable {v : Server} {d : Data}

def readyOutcome (d : Data) : SendOutcome :=
  match d.toBytes with
  | .ok _ => .taken
  | .error _ => .raised

theorem exec_trySend_ready (hface : face ∈ v.faces) (d : Data) :
    exec (Server.trySend face d) v = (.ok (), { v with
      sent := if readyOutcome d = .taken then (face, .data d) :: v.sent else v.sent }) := by
  unfold readyOutcome
  cases hd : d.toBytes with
  | ok raw => simp [Server.exec_trySend hd, Server.sendAll, hface]
  | error e =>
    have hp : (Packet.data d).toBytes = .error e := hd
    simp [Server.trySend, exec_tryCatch, Server.send, exec_bind, hface, hp]

/-- The loop of the server is that of a drain whose sends end like those of a ready link. -/
theorem exec_forM_ready (hface : face ∈ v.faces) {items : List Data} {k : ℕ}
    {q : OfflineQueue Data} (hq : q.phase = .next k items) : ∃ t : OfflineQueue Data,
      Run step anyStep q (items.map fun d => .sent (readyOutcome d)) t ∧
      (∃ n, t.phase = .returned n) ∧ t.queue = q.queue ∧
      ∃ new : List Data, t.taken = q.taken ++ new ∧
        exec (items.forM fun d => Server.trySend face d) v =
          (.ok (), { v with sent := (new.map fun d => (face, .data d)).reverse ++ v.sent }) := by
  induction items generalizing v k q with
  | nil => exact ⟨q, .nil q, ⟨k, hq⟩, rfl, [], by simp, rfl⟩
  | cons d items ih =>
    have hstep : q.sent (readyOutcome d) = some { q with
        phase := .next (if readyOutcome d = .raised then k else k + 1) items
        taken := q.taken ++ if readyOutcome d = .taken then [d] else [] } := by
      unfold sent
      rw [hq]
      cases readyOutcome d <;> simp [DrainPhase.next]
    obtain ⟨t, hrun, hret, hqueue, new, htaken, hexec⟩ :=
      ih (v := { v with
        sent := if readyOutcome d = .taken then (face, .data d) :: v.sent else v.sent })
        hface (q := { q with
          phase := .next (if readyOutcome d = .raised then k else k + 1) items
          taken := q.taken ++ if readyOutcome d = .taken then [d] else [] }) rfl
    refine ⟨t, .cons trivial hstep hrun, hret, hqueue,
      (if readyOutcome d = .taken then [d] else []) ++ new, ?_, ?_⟩
    · rw [htaken, List.append_assoc]
    · rw [exec_forM_cons, exec_trySend_ready hface]
      exact hexec.trans (by split <;> simp)

theorem server_drain (v : Server) (stream : Name) (face : FaceId) :
    ∃ (ds : List Data) (t : OfflineQueue Data) (w : Server),
      Run step anyStep { queue := v.offlineQueue, faces := some v.faces }
        (.drain stream face :: ds.map fun d => .sent (readyOutcome d)) t ∧
      (∃ n, t.phase = .returned n) ∧ exec (Server.drain stream face) v = (.ok (), w) ∧
      (∀ other, w.queuedFor other = t.queued other) ∧
      w.sent = (t.taken.map fun d => (face, .data d)).reverse ++ v.sent := by
  set q : OfflineQueue Data := { queue := v.offlineQueue, faces := some v.faces } with hq
  have hexec : exec (Server.drain stream face) v = if face ∈ v.faces then
      exec ((v.queuedFor stream).forM fun d => Server.trySend face d)
        { v with offlineQueue := v.offlineQueue.erase stream }
      else (.ok (), v) := by
    unfold Server.drain
    split <;> simp_all [exec_bind, Server.queuedFor]
  by_cases hface : face ∈ v.faces
  · have hdrain : q.drain stream face = some { q with
        queue := q.queue.erase stream
        phase := .next 0 (q.queued stream) } := by
      unfold drain
      rw [show q.phase = .idle from rfl]
      cases q.queued stream with
      | nil => rfl
      | cons item items =>
        have hany : q.faces.any (face ∈ ·) = true := by simp [hq, hface]
        simp [hany]
    obtain ⟨t, hrun, hret, hqueue, new, htaken, hforM⟩ := exec_forM_ready
      (v := { v with offlineQueue := v.offlineQueue.erase stream }) hface
      (q := { q with
        queue := q.queue.erase stream
        phase := .next 0 (q.queued stream) }) rfl
    rw [if_pos hface] at hexec
    refine ⟨_, t, _, .cons trivial hdrain hrun, hret, hexec.trans hforM, fun other => ?_, ?_⟩
    · rw [queued, hqueue]
      rfl
    · rw [htaken]
      rfl
  · rw [if_neg hface] at hexec
    have hany : q.faces.any (face ∈ ·) = false := by simp [hq, hface]
    cases hitems : q.queued stream with
    | nil =>
      have hdrain : q.drain stream face =
          some { q with queue := q.queue.erase stream, phase := .returned 0 } := by
        unfold drain
        rw [show q.phase = .idle from rfl, hitems]
      refine ⟨[], _, v, .cons trivial hdrain (.nil _), ⟨0, rfl⟩, hexec, fun other => ?_, rfl⟩
      rw [queued_erase (s := q) rfl]
      split
      · rename_i he
        exact he ▸ hitems
      · rfl
    | cons item items =>
      have hdrain : q.drain stream face = some { q with
          queue := (q.queue.erase stream).set stream (item :: items)
          phase := .returned 0 } := by
        unfold drain
        rw [show q.phase = .idle from rfl, hitems]
        simp [hany]
      refine ⟨[], _, v, .cons trivial hdrain (.nil _), ⟨0, rfl⟩, hexec, fun other => ?_, rfl⟩
      rw [queued, Dict.get?_set, Dict.get?_erase]
      split
      · rename_i he
        exact he ▸ hitems
      · rfl

end Server

end OfflineQueue

end RnsIcn
