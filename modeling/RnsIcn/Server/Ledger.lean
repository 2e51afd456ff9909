import RnsIcn.Lib.Buckets
import RnsIcn.Lib.Grouping
import RnsIcn.Server.Drain

/-! # The ledger of the offline queue

Any number of drains run at a time, and meanwhile items are queued, pruned and removed, and faces
come and go. Every item that was queued waits, is held by one drain or has left in one way.
-/

namespace RnsIcn

open Transition Grouping

structure DrainCall (α : Type) where
  stream : Name
  face : FaceId
  item : ℤ × α
  items : List (ℤ × α)
  sent : ℕ

def DrainCall.held {α : Type} (c : DrainCall α) : List (ℤ × α) := c.item :: c.items

inductive Departure where
  | handed (face : FaceId) (outcome : SendOutcome)
  | expired (now : ℤ)
  | removed
  deriving DecidableEq

def Departure.counted : Departure → Bool
  | .handed _ outcome => outcome ≠ .raised
  | _ => false

/-- An `OfflineQueue` with the times at which its items were queued and all calls of `drain` that
run. The items that have left are `departed`, and `returned` is what the drains have returned. -/
structure TimedQueue (α : Type) where
  maxAge : ℤ := 86400
  queue : Dict Name (List (ℤ × α)) := .empty
  faces : Option (List FaceId) := none
  drains : List (DrainCall α) := []
  departed : List (Departure × Name × ℤ × α) := []
  returned : List ℕ := []

namespace TimedQueue

variable {α : Type}

def depart (s : TimedQueue α) (how : Departure) (stream : Name) (items : List (ℤ × α)) :
    TimedQueue α :=
  { s with departed := s.departed ++ items.map fun e => (how, stream, e) }

def put (s : TimedQueue α) (stream : Name) (item : α) (now : ℤ) : TimedQueue α :=
  { s with queue := s.queue.set stream (s.queue.bucket stream ++ [(now, item)]) }

/-- `drain`, up to the first send. -/
def drain (s : TimedQueue α) (stream : Name) (face : FaceId) : TimedQueue α :=
  match s.queue.bucket stream with
  | [] => { s with queue := s.queue.erase stream, returned := s.returned ++ [0] }
  | item :: items =>
    if s.faces.any (face ∈ ·) then
      { s with
        queue := s.queue.erase stream
        drains := s.drains ++ [⟨stream, face, item, items, 0⟩] }
    else
      { s with
        queue := (s.queue.erase stream).set stream (item :: items)
        returned := s.returned ++ [0] }

/-- The end of a send of the drain at an index. -/
def sent (s : TimedQueue α) (i : ℕ) (outcome : SendOutcome) : Option (TimedQueue α) :=
  s.drains[i]?.map fun c =>
    let n := if outcome = .raised then c.sent else c.sent + 1
    let s := s.depart (.handed c.face outcome) c.stream [c.item]
    match c.items with
    | [] => { s with drains := s.drains.eraseIdx i, returned := s.returned ++ [n] }
    | item :: items => { s with drains := s.drains.set i { c with item, items, sent := n } }

def pendingCount (s : TimedQueue α) (stream : Name) : ℕ := (s.queue.bucket stream).length

def totalPending (s : TimedQueue α) : ℕ := s.queue.total List.length

def streamCount (s : TimedQueue α) : ℕ := s.queue.size

def pruneStream (now : ℤ) (r : ℕ × TimedQueue α) (stream : Name) : ℕ × TimedQueue α :=
  let items := r.2.queue.bucket stream
  let fresh := items.filter fun e => now - e.1 < r.2.maxAge
  let s := r.2.depart (.expired now) stream (items.filter fun e => !(now - e.1 < r.2.maxAge))
  (r.1 + (items.length - fresh.length),
    { s with queue := s.queue.keep stream fresh })

def prune (s : TimedQueue α) (now : ℤ) : ℕ × TimedQueue α :=
  s.queue.keys.foldl (pruneStream now) (0, s)

def cleanup (s : TimedQueue α) (stream : Name) : ℕ × TimedQueue α :=
  let items := s.queue.bucket stream
  (items.length, { s.depart .removed stream items with queue := s.queue.erase stream })

def clear (s : TimedQueue α) : ℕ × TimedQueue α :=
  (s.totalPending, { s with
    queue := .empty
    departed := s.departed ++ s.queue.entries.map (Departure.removed, ·) })

inductive Label (α : Type) where
  | put (stream : Name) (item : α) (now : ℤ)
  | drain (stream : Name) (face : FaceId)
  | sent (i : ℕ) (outcome : SendOutcome)
  | prune (now : ℤ)
  | cleanup (stream : Name)
  | clear
  | faces (faces : List FaceId)

def step (s : TimedQueue α) : Label α → Option (TimedQueue α)
  | .put stream item now => some (s.put stream item now)
  | .drain stream face => some (s.drain stream face)
  | .sent i outcome => s.sent i outcome
  | .prune now => some (s.prune now).2
  | .cleanup stream => some (s.cleanup stream).2
  | .clear => some s.clear.2
  | .faces faces => some { s with faces := s.faces.map fun _ => faces }

def inFlight (s : TimedQueue α) : List (Name × ℤ × α) :=
  s.drains.flatMap fun c => c.held.map (c.stream, ·)

/-- Each item that was put waits, is held by one drain or has left. For a stream those that are
held come first, all in the order in which they were put. Those that expired were too old, the
drains have counted what they handed over, and a stream without items is forgotten. -/
structure Accounts (s : TimedQueue α) (puts : List (Name × ℤ × α)) : Prop where
  conserved : (s.queue.entries ++ (s.inFlight ++ s.departed.map Prod.snd)).Perm puts
  order (stream : Name) :
    (withKey stream s.inFlight ++ s.queue.bucket stream).Sublist (withKey stream puts)
  aged : ∀ e ∈ s.departed, ∀ now, e.1 = .expired now → s.maxAge ≤ now - e.2.2.1
  counted : s.returned.sum + (s.drains.map DrainCall.sent).sum =
    s.departed.countP fun e => Departure.counted e.1
  occupied : s.queue.Occupied

/-- What the label puts, with its stream and its time. -/
def Label.puts : Label α → List (Name × ℤ × α)
  | .put stream item now => [(stream, now, item)]
  | _ => []

variable {s t : TimedQueue α} {stream : Name} {ps : List (Name × ℤ × α)}

theorem withKey_map (stream stream' : Name) (items : List (ℤ × α)) :
    withKey stream (items.map (stream', ·)) = if stream' = stream then items else [] := by
  unfold withKey
  rw [List.filter_map, List.map_map]
  split
  · rename_i h
    simp [h, Function.comp_def]
  · rename_i h
    simp [h, Function.comp_def]

theorem withKey_sublist {l l' : List (Name × ℤ × α)} (h : l.Sublist l') :
    (withKey stream l).Sublist (withKey stream l') :=
  (h.filter _).map _

theorem Accounts.put (h : s.Accounts ps) (stream : Name) (item : α) (now : ℤ) :
    (s.put stream item now).Accounts (ps ++ [(stream, now, item)]) where
  conserved := by
    have hput := s.queue.entries_append_perm stream (now, item)
    refine ((hput.append_right _).trans ?_)
    exact ((h.conserved.cons _).trans (List.perm_append_singleton _ _).symm)
  order other := by
    have hone := withKey_map other stream [(now, item)]
    rw [List.map_cons, List.map_nil] at hone
    rw [withKey_append, hone, TimedQueue.put, Dict.bucket_set]
    by_cases hs : other = stream
    · rw [if_pos hs, if_pos hs.symm, ← List.append_assoc, ← hs]
      exact (h.order other).append_right _
    · rw [if_neg hs, if_neg (Ne.symm hs), List.append_nil]
      exact h.order other
  aged := h.aged
  counted := h.counted
  occupied := h.occupied.set stream (by simp)

theorem Accounts.drain (h : s.Accounts ps) (stream : Name) (face : FaceId) :
    (s.drain stream face).Accounts ps := by
  have hret : (s.returned ++ [0]).sum = s.returned.sum := by simp
  have herase (hb : s.queue.bucket stream = []) (other : Name) :
      (s.queue.erase stream).bucket other = s.queue.bucket other := by
    rw [Dict.bucket_erase]
    split
    · rename_i he
      rw [he, hb]
    · rfl
  have hperm := s.queue.entries_perm stream
  unfold TimedQueue.drain
  split
  · rename_i hb
    rw [hb, List.map_nil, List.nil_append] at hperm
    refine ⟨(hperm.symm.append_right _).trans h.conserved, fun other => ?_, h.aged, ?_,
      h.occupied.erase stream⟩
    · rw [herase hb]
      exact h.order other
    · rw [hret]
      exact h.counted
  · rename_i item items hb
    split
    · have hflight : TimedQueue.inFlight { s with
          queue := s.queue.erase stream
          drains := s.drains ++ [⟨stream, face, item, items, 0⟩] } =
          s.inFlight ++ (s.queue.bucket stream).map (stream, ·) := by
        simp [inFlight, DrainCall.held, hb]
      refine ⟨?_, fun other => ?_, h.aged, ?_, h.occupied.erase stream⟩
      · rw [hflight, List.append_assoc]
        refine ((List.perm_append_comm_assoc ..).append_left _).trans ?_
        refine (List.perm_append_comm_assoc ..).trans ?_
        rw [← List.append_assoc]
        exact (hperm.symm.append_right _).trans h.conserved
      · rw [hflight, withKey_append, withKey_map, Dict.bucket_erase]
        by_cases he : other = stream
        · rw [if_pos he.symm, if_pos he, List.append_nil, ← he]
          exact h.order other
        · rw [if_neg (Ne.symm he), if_neg he, List.append_nil]
          exact h.order other
      · simpa using h.counted
    · have hback : ((s.queue.erase stream).set stream (item :: items)).entries.Perm
          s.queue.entries := by
        have hset := (s.queue.erase stream).entries_set_perm stream (item :: items)
        rw [Dict.erase_of_get?_eq_none (Dict.get?_erase_self ..)] at hset
        exact hset.trans (hb ▸ hperm).symm
      refine ⟨(hback.append_right _).trans h.conserved, fun other => ?_, h.aged, ?_,
        (h.occupied.erase stream).set stream (List.cons_ne_nil _ _)⟩
      · rw [Dict.bucket_set, Dict.bucket_erase, ← hb]
        split
        · rename_i he
          exact he ▸ h.order other
        · exact h.order other
      · rw [hret]
        exact h.counted

theorem counted_depart {how : Departure} (hcount : how.counted = false) (gone : List (ℤ × α)) :
    (s.depart how stream gone).departed.countP (fun e => e.1.counted) =
      s.departed.countP fun e => e.1.counted := by
  have hnone : (gone.map fun e => (how, stream, e)).countP (fun e => e.1.counted) = 0 :=
    List.countP_eq_zero.mpr fun e he => by
      obtain ⟨x, -, rfl⟩ := List.mem_map.mp he
      simp [hcount]
  rw [depart, List.countP_append, hnone, Nat.add_zero]

theorem Accounts.retire (h : s.Accounts ps) {how : Departure} (hcount : how.counted = false)
    {gone kept : List (ℤ × α)} (hsplit : (kept ++ gone).Perm (s.queue.bucket stream))
    (hkept : kept.Sublist (s.queue.bucket stream))
    (hold : ∀ e ∈ gone, ∀ now, how = .expired now → s.maxAge ≤ now - e.1) :
    Accounts { s.depart how stream gone with queue := s.queue.keep stream kept } ps where
  conserved := by
    have hbucket := hsplit.map (stream, ·)
    rw [List.map_append] at hbucket
    have hleft : ((gone.map fun e => (how, stream, e)).map Prod.snd) = gone.map (stream, ·) := by
      rw [List.map_map]
      rfl
    rw [depart, List.map_append, hleft]
    -- Each entry is counted once on both sides.
    classical
    refine List.perm_iff_count.mpr fun x => ?_
    have hqueue := (s.queue.entries_keep_perm stream kept).count_eq x
    have hentries := (s.queue.entries_perm stream).count_eq x
    have hbucket := hbucket.count_eq x
    have hall := h.conserved.count_eq x
    simp only [List.count_append, inFlight] at hqueue hbucket hentries hall ⊢
    omega
  order other := by
    refine List.Sublist.trans (List.Sublist.append_left ?_ _) (h.order other)
    rw [Dict.bucket_keep]
    split
    · rename_i he
      exact he ▸ hkept
    · exact .refl _
  aged e he now hnow := by
    rcases List.mem_append.mp he with he | he
    · exact h.aged e he now hnow
    · obtain ⟨x, hx, rfl⟩ := List.mem_map.mp he
      exact hold x hx now hnow
  counted := h.counted.trans (counted_depart hcount gone).symm
  occupied := h.occupied.keep stream kept

theorem Accounts.pruneStream (now : ℤ) {r : ℕ × TimedQueue α} (h : r.2.Accounts ps)
    (stream : Name) : (pruneStream now r stream).2.Accounts ps := by
  refine h.retire rfl (List.filter_append_perm _ _) List.filter_sublist ?_
  intro e he now' hnow
  obtain rfl := Departure.expired.inj hnow
  have hold := (List.mem_filter.mp he).2
  simp only [Bool.not_eq_true', decide_eq_false_iff_not] at hold
  omega

theorem Accounts.prune (h : s.Accounts ps) (now : ℤ) : (s.prune now).2.Accounts ps := by
  have hloop (keys : List Name) (r : ℕ × TimedQueue α) (hr : r.2.Accounts ps) :
      (keys.foldl (TimedQueue.pruneStream now) r).2.Accounts ps := by
    induction keys generalizing r with
    | nil => exact hr
    | cons k keys ih => exact ih _ (hr.pruneStream now k)
  exact hloop _ _ h

theorem Accounts.cleanup (h : s.Accounts ps) (stream : Name) :
    (s.cleanup stream).2.Accounts ps := by
  have hall : ([] ++ s.queue.bucket stream).Perm (s.queue.bucket stream) := .refl _
  exact h.retire rfl hall (List.nil_sublist _) fun _ _ _ hnow => by cases hnow

theorem Accounts.clear (h : s.Accounts ps) : s.clear.2.Accounts ps where
  conserved := by
    have hleft : (s.queue.entries.map (Departure.removed, ·)).map Prod.snd = s.queue.entries := by
      rw [List.map_map]
      exact List.map_id _
    rw [TimedQueue.clear, List.map_append, hleft]
    have hcomm : (s.inFlight ++ (s.departed.map Prod.snd ++ s.queue.entries)).Perm
        (s.queue.entries ++ (s.inFlight ++ s.departed.map Prod.snd)) := by
      rw [← List.append_assoc]
      exact List.perm_append_comm
    exact hcomm.trans h.conserved
  order stream :=
    (List.Sublist.append_left (List.nil_sublist _) _).trans (h.order stream)
  aged e he now hnow := by
    rcases List.mem_append.mp he with he | he
    · exact h.aged e he now hnow
    · obtain ⟨x, -, rfl⟩ := List.mem_map.mp he
      cases hnow
  counted := by
    have hnone : (s.queue.entries.map (Departure.removed, ·)).countP (fun e => e.1.counted) = 0 :=
      List.countP_eq_zero.mpr fun e he => by
        obtain ⟨x, -, rfl⟩ := List.mem_map.mp he
        simp [Departure.counted]
    rw [TimedQueue.clear, List.countP_append, hnone]
    exact h.counted
  occupied := Dict.occupied_empty

/-- What the end of a send does: the drain goes on with the items that are left, or it returns. -/
theorem sent_cases {i : ℕ} {outcome : SendOutcome} (hs : s.sent i outcome = some t) :
    ∃ before c rest after n,
      s.drains = before ++ c :: after ∧
      rest.flatMap (fun c' => c'.held.map (c'.stream, ·)) = c.items.map (c.stream, ·) ∧
      (n.sum + (rest.map DrainCall.sent).sum = c.sent + if outcome = .raised then 0 else 1) ∧
      t = { s.depart (.handed c.face outcome) c.stream [c.item] with
        drains := before ++ rest ++ after
        returned := s.returned ++ n } := by
  obtain ⟨c, hc, rfl⟩ := Option.map_eq_some_iff.mp hs
  obtain ⟨hi, hget⟩ := List.getElem?_eq_some_iff.mp hc
  have hsplit : s.drains = s.drains.take i ++ c :: s.drains.drop (i + 1) := by
    rw [← hget, ← List.drop_eq_getElem_cons hi, List.take_append_drop]
  have hcount : (if outcome = .raised then c.sent else c.sent + 1) =
      c.sent + if outcome = .raised then 0 else 1 := by
    split <;> rfl
  refine ⟨s.drains.take i, c, ?_⟩
  cases hitems : c.items with
  | nil =>
    refine ⟨[], s.drains.drop (i + 1), [if outcome = .raised then c.sent else c.sent + 1],
      hsplit, rfl, by simpa using hcount, ?_⟩
    rw [List.append_nil, ← List.eraseIdx_eq_take_drop_succ]
    simp only [depart]
  | cons item items =>
    refine ⟨[{ c with
        item, items
        sent := if outcome = .raised then c.sent else c.sent + 1 }], s.drains.drop (i + 1), [],
      hsplit, by simp [DrainCall.held], by simpa using hcount, ?_⟩
    rw [List.append_nil, List.append_assoc, List.singleton_append]
    simp only [depart, List.set_eq_take_append_cons_drop, if_pos hi]

theorem Accounts.sent (h : s.Accounts ps) {i : ℕ} {outcome : SendOutcome}
    (hs : s.sent i outcome = some t) : t.Accounts ps := by
  obtain ⟨before, c, rest, after, n, hdrains, hrest, hcount, rfl⟩ := sent_cases hs
  have hflight : s.inFlight = before.flatMap (fun c => c.held.map (c.stream, ·)) ++
      ((c.stream, c.item) :: (c.items.map (c.stream, ·) ++
        after.flatMap fun c => c.held.map (c.stream, ·))) := by
    simp [inFlight, hdrains, DrainCall.held]
  have hleft : inFlight { s.depart (.handed c.face outcome) c.stream [c.item] with
        drains := before ++ rest ++ after
        returned := s.returned ++ n } = before.flatMap (fun c => c.held.map (c.stream, ·)) ++
      (c.items.map (c.stream, ·) ++ after.flatMap fun c => c.held.map (c.stream, ·)) := by
    rw [inFlight, List.flatMap_append, List.flatMap_append, hrest, List.append_assoc]
  refine ⟨?_, fun stream => ?_, fun e he now hnow => ?_, ?_, h.occupied⟩
  · rw [hleft]
    refine List.Perm.trans ?_ h.conserved
    refine List.Perm.append_left _ ?_
    rw [hflight]
    simp only [depart, List.map_append, List.map_cons, List.map_nil]
    classical
    refine List.perm_iff_count.mpr fun x => ?_
    simp only [List.count_append, List.count_cons, List.count_nil]
    omega
  · rw [hleft]
    refine List.Sublist.trans (List.Sublist.append_right (withKey_sublist ?_) _) (h.order stream)
    rw [hflight]
    exact List.Sublist.append_left (List.sublist_cons_self _ _) _
  · rcases List.mem_append.mp he with he | he
    · exact h.aged e he now hnow
    · obtain rfl := List.mem_singleton.mp he
      cases hnow
  · have hone : [(Departure.handed c.face outcome, c.stream, c.item)].countP
        (fun e => e.1.counted) = if outcome = .raised then 0 else 1 := by
      cases outcome <;> rfl
    have hbefore := h.counted
    rw [hdrains] at hbefore
    simp only [depart, List.map_cons, List.map_nil, List.countP_append, hone, List.sum_append,
      List.map_append, List.sum_cons] at hbefore ⊢
    omega

theorem Accounts.step {l : Label α} (h : s.Accounts ps) (hs : s.step l = some t) :
    t.Accounts (ps ++ l.puts) := by
  have hnone : t.Accounts ps → t.Accounts (ps ++ []) := fun ht => by rwa [List.append_nil]
  cases l with
  | put stream item now => exact Option.some.inj hs ▸ h.put stream item now
  | drain stream face => exact hnone (Option.some.inj hs ▸ h.drain stream face)
  | sent i outcome => exact hnone (h.sent hs)
  | prune now => exact hnone (Option.some.inj hs ▸ h.prune now)
  | cleanup stream => exact hnone (Option.some.inj hs ▸ h.cleanup stream)
  | clear => exact hnone (Option.some.inj hs ▸ h.clear)
  | faces faces =>
    exact hnone (Option.some.inj hs ▸ ⟨h.conserved, h.order, h.aged, h.counted, h.occupied⟩)

theorem bucket_pruneStream (now : ℤ) (r : ℕ × TimedQueue α) (stream other : Name) :
    (pruneStream now r stream).2.queue.bucket other = if other = stream then
      (r.2.queue.bucket other).filter fun e => now - e.1 < r.2.maxAge
    else r.2.queue.bucket other := by
  rw [pruneStream, Dict.bucket_keep]
  split
  · rename_i he
    rw [he]
  · rfl

theorem bucket_prune_loop (now : ℤ) (keys : List Name) (r : ℕ × TimedQueue α) (stream : Name) :
    (keys.foldl (pruneStream now) r).2.queue.bucket stream = if stream ∈ keys then
      (r.2.queue.bucket stream).filter fun e => now - e.1 < r.2.maxAge
    else r.2.queue.bucket stream := by
  induction keys generalizing r with
  | nil => rfl
  | cons k keys ih =>
    have hage : (pruneStream now r k).2.maxAge = r.2.maxAge := rfl
    rw [List.foldl_cons, ih, bucket_pruneStream, hage]
    by_cases hk : stream = k
    · simp [hk, List.filter_filter]
    · simp [hk]

theorem bucket_prune (s : TimedQueue α) (now : ℤ) (stream : Name) :
    (s.prune now).2.queue.bucket stream =
      (s.queue.bucket stream).filter fun e => now - e.1 < s.maxAge := by
  rw [prune, bucket_prune_loop]
  split
  · rfl
  · rename_i hk
    rw [Dict.bucket, Dict.get?_eq_none.mpr hk]
    rfl

theorem total_pruneStream (now : ℤ) (r : ℕ × TimedQueue α) (stream : Name) :
    (pruneStream now r stream).1 + (pruneStream now r stream).2.totalPending =
      r.1 + r.2.totalPending := by
  have hbefore := (r.2.queue.entries_perm stream).length_eq
  have hafter := (r.2.queue.entries_keep_perm stream
    ((r.2.queue.bucket stream).filter fun e => now - e.1 < r.2.maxAge)).length_eq
  have hle := List.length_filter_le (fun e => decide (now - e.1 < r.2.maxAge))
    (r.2.queue.bucket stream)
  simp only [List.length_append, List.length_map] at hbefore hafter
  simp only [pruneStream, totalPending, depart, ← Dict.length_entries]
  omega

theorem total_prune (s : TimedQueue α) (now : ℤ) :
    (s.prune now).1 + (s.prune now).2.totalPending = s.totalPending := by
  have hloop (keys : List Name) (r : ℕ × TimedQueue α) :
      (keys.foldl (pruneStream now) r).1 + (keys.foldl (pruneStream now) r).2.totalPending =
        r.1 + r.2.totalPending := by
    induction keys generalizing r with
    | nil => rfl
    | cons k keys ih => rw [List.foldl_cons, ih, total_pruneStream]
  rw [prune, hloop, Nat.zero_add]

theorem Accounts.streams (h : s.Accounts ps) (stream : Name) :
    stream ∈ s.queue.keys ↔ 0 < s.pendingCount stream := by
  rw [h.occupied.mem_keys, pendingCount, List.length_pos_iff]

/-- A queue before its first item. -/
structure Initial (s : TimedQueue α) : Prop where
  queue : s.queue = .empty
  drains : s.drains = []
  departed : s.departed = []
  returned : s.returned = []

theorem Initial.accounts (h : s.Initial) : s.Accounts [] where
  conserved := by
    rw [h.queue, inFlight, h.drains, h.departed]
    exact .refl _
  order stream := by
    rw [h.queue, inFlight, h.drains]
    exact .refl _
  aged e he := by
    rw [h.departed] at he
    cases he
  counted := by
    rw [h.returned, h.drains, h.departed]
    rfl
  occupied := h.queue ▸ Dict.occupied_empty

theorem Accounts.run {ls : List (Label α)} (h : s.Accounts ps)
    (hr : Run TimedQueue.step anyStep s ls t) : t.Accounts (ps ++ ls.flatMap Label.puts) := by
  induction hr generalizing ps with
  | nil => rwa [List.flatMap_nil, List.append_nil]
  | cons _ hs _ ih =>
    rw [List.flatMap_cons, ← List.append_assoc]
    exact ih (h.step hs)

/-- Whatever the order of the operations, the accounts of the queue are right, and right after a
`prune` nothing is queued that is too old. -/
theorem ledger_balanced {ls : List (Label α)} (h₀ : s.Initial)
    (h : Run TimedQueue.step anyStep s ls t) :
    t.Accounts (ls.flatMap Label.puts) ∧
      ∀ e ∈ trace TimedQueue.step s ls, ∀ now, e.2.1 = .prune now →
        ∀ stream, ∀ x ∈ e.2.2.queue.bucket stream, now - x.1 < e.1.maxAge := by
  constructor
  · have hrun := h₀.accounts.run h
    rwa [List.nil_append] at hrun
  · intro e he now hnow stream x hx
    have hs := (h.of_mem_trace he).2
    rw [hnow] at hs
    rw [← Option.some.inj hs, bucket_prune] at hx
    simpa using (List.mem_filter.mp hx).2

def shortLived : TimedQueue ℕ := { maxAge := 10, faces := some [1] }

/-- Two posts are drained while a third one comes. The face takes the first post and refuses the
second, and the third is pruned when it is too old. -/
def threePosts : List (Label ℕ) :=
  [.put OfflineQueue.posts 1 0, .put OfflineQueue.posts 2 5, .drain OfflineQueue.posts 1,
    .put OfflineQueue.posts 3 7, .sent 0 .taken, .prune 10, .sent 0 .raised, .prune 17]

def afterThree : TimedQueue ℕ := (exec TimedQueue.step shortLived threePosts).getD shortLived

theorem three_posts_balanced :
    afterThree.queue.bucket OfflineQueue.posts = [] ∧ afterThree.returned = [1] ∧
      afterThree.departed.length = 3 ∧ (afterThree.Accounts (threePosts.flatMap Label.puts) ∧
      ∀ e ∈ trace TimedQueue.step shortLived threePosts, ∀ now, e.2.1 = .prune now →
        ∀ stream, ∀ x ∈ e.2.2.queue.bucket stream, now - x.1 < e.1.maxAge) := by
  have hrun : Run TimedQueue.step anyStep shortLived threePosts afterThree := run_of_exec rfl
  exact ⟨by decide +kernel, by decide +kernel, by decide +kernel,
    ledger_balanced ⟨rfl, rfl, rfl, rfl⟩ hrun⟩

/-- What an item that left was handed to a link that took it. -/
def taken (e : Departure × Name × ℤ × α) : Option (ℤ × α) :=
  match e.1 with
  | .handed _ .taken => some e.2.2
  | _ => none

/-- The queue is in the state of one with at most one drain. -/
structure Single (s : TimedQueue α) (q : OfflineQueue (ℤ × α)) : Prop where
  queue : s.queue = q.queue
  faces : s.faces = q.faces
  drains : match q.phase with
    | .sending item items n => ∃ stream face, s.drains = [⟨stream, face, item, items, n⟩]
    | _ => s.drains = []
  departed : q.taken = s.departed.filterMap taken

variable {q q' : OfflineQueue (ℤ × α)}

/-- With one drain at a time, the queue does what that with a single drain does. -/
theorem Single.step {l : OfflineQueue.Label (ℤ × α)} (h : s.Single q) (hs : q.step l = some q') :
    ∃ l' t, TimedQueue.step s l' = some t ∧ t.Single q' := by
  obtain ⟨hqueue, hfaces, hdrains, hdeparted⟩ := h
  cases l with
  | put stream item =>
    obtain rfl := Option.some.inj hs
    refine ⟨.put stream item.2 item.1, _, rfl, ?_, hfaces, hdrains, hdeparted⟩
    rw [TimedQueue.put, hqueue]
    rfl
  | drain stream face =>
    refine ⟨.drain stream face, _, rfl, ?_⟩
    have hs : q.drain stream face = some q' := hs
    have hbucket : s.queue.bucket stream = q.queued stream := by rw [hqueue]; rfl
    unfold OfflineQueue.drain at hs
    unfold TimedQueue.drain
    rw [hbucket, hfaces, hqueue]
    split at hs
    · rename_i hidle
      rw [hidle] at hdrains
      cases hitems : q.queued stream with
      | nil =>
        rw [hitems] at hs
        obtain rfl := Option.some.inj hs
        exact ⟨rfl, rfl, hdrains, hdeparted⟩
      | cons item items =>
        rw [hitems] at hs
        by_cases hface : q.faces.any (face ∈ ·) = true
        · simp only [hface, if_true] at hs ⊢
          obtain rfl := Option.some.inj hs
          refine ⟨rfl, rfl, ⟨stream, face, ?_⟩, hdeparted⟩
          rw [hdrains]
          rfl
        · simp only [hface] at hs ⊢
          obtain rfl := Option.some.inj hs
          exact ⟨rfl, rfl, hdrains, hdeparted⟩
    · cases hs
  | sent outcome =>
    obtain ⟨item, items, k, hphase, rfl⟩ := OfflineQueue.sent_cases hs
    rw [hphase] at hdrains
    obtain ⟨stream, face, hdrains⟩ := hdrains
    have htaken : q.taken ++ (if outcome = .taken then [item] else []) =
        (s.departed ++ [(Departure.handed face outcome, stream, item)]).filterMap taken := by
      rw [List.filterMap_append, hdeparted]
      cases outcome <;> rfl
    cases items with
    | nil =>
      have hlast : s.drains.eraseIdx 0 = [] := by rw [hdrains]; rfl
      refine ⟨.sent 0 outcome, _, by rw [TimedQueue.step, TimedQueue.sent, hdrains]; rfl, ?_⟩
      exact ⟨hqueue, hfaces, hlast, htaken⟩
    | cons item' items =>
      have hnext (n : ℕ) : s.drains.set 0 ⟨stream, face, item', items, n⟩ =
          [⟨stream, face, item', items, n⟩] := by rw [hdrains]; rfl
      refine ⟨.sent 0 outcome, _, by rw [TimedQueue.step, TimedQueue.sent, hdrains]; rfl, ?_⟩
      exact ⟨hqueue, hfaces, ⟨stream, face, hnext _⟩, htaken⟩

theorem Single.run {ls : List (OfflineQueue.Label (ℤ × α))} (h : s.Single q)
    (hr : Run OfflineQueue.step anyStep q ls q') :
    ∃ ls' t, Run TimedQueue.step anyStep s ls' t ∧ t.Single q' := by
  induction hr generalizing s with
  | nil => exact ⟨[], s, .nil s, h⟩
  | cons _ hs _ ih =>
    obtain ⟨l, u, hu, hsingle⟩ := h.step hs
    obtain ⟨ls, t, ht, hend⟩ := ih hsingle
    exact ⟨l :: ls, t, .cons trivial hu ht, hend⟩

end TimedQueue

end RnsIcn
