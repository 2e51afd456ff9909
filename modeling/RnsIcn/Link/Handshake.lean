import RnsIcn.Link.Face
import RnsIcn.Server.Welcome
import RnsIcn.Wire.Extension

/-! # Two servers that greet each other at once

Each end reads the handshake of the other and waits in its handler for the manifest of the
other. The call returns with the first Data or close mark that comes, so it gets the manifest
if that comes first and in time. The reader of an end answers nothing before its own wait is
over, so only other tasks can send Data by then.
-/

namespace RnsIcn

open Effect Fallible Transition

/-- What goes on the link for the packets. One that cannot be written is not sent. -/
def wire (out : List Packet) : List Bytes := out.filterMap fun p => p.toBytes.toOption

/-- A packet that wants an answer and is none. -/
def Packet.asks (p : Packet) : Bool := p.type == .interest || p.type == .apsSubscribe

theorem welcome_asks [Hashlib] (s : Server) (p : PropPeer) (face : FaceId) (nonce : Bytes) :
    ∃ new, (after (Server.welcome p face nonce) s).sent = new ++ s.sent ∧
      ∀ x ∈ new, x.1 = face ∧ x.2.asks = true := by
  have h : Server.Asked face s (after (Server.welcome p face nonce) s) :=
    (Server.keeps_asked_welcome p nonce).after ⟨[], rfl, List.forall_mem_nil _⟩
  obtain ⟨new, hnew, hall⟩ := h
  refine ⟨new, hnew, fun x hx => ⟨(hall x hx).1, ?_⟩⟩
  rcases (hall x hx).2 with ⟨sub, hsub⟩ | ⟨i, hi⟩
  · rw [hsub]
    rfl
  · rw [hi]
    rfl

/-- The item ends the wait of a call: it is Data, or the mark of a closed link. -/
def endsWait (raw : Bytes) : Bool := (expressInterest raw).isSome

namespace LinkFace

def handshake (s : LinkFace) : Option PropPeer :=
  match s.reader with
  | .handling raw =>
    match parsePacket raw with
    | .ok (.peer p) => some p
    | _ => none
  | _ => none

def receive (s : LinkFace) (raws : List Bytes) : LinkFace :=
  raws.foldl (fun s raw => (s.step (.arrive raw)).getD s) s

/-- A call returned Data. -/
def Obtained (s : LinkFace) : Prop := ∃ i d, (i, .ok (some d)) ∈ s.replies

/-- A call returned Data with the name. -/
def Fetched (s : LinkFace) (n : Name) : Prop := ∃ i d, (i, .ok (some d)) ∈ s.replies ∧ d.name = n

/-- The first item that came and ends a wait is Data with the name. -/
def Served (s : LinkFace) (n : Name) : Prop :=
  ∃ raw d, s.queue.arrived.find? endsWait = some raw ∧ Data.fromBytes raw = .ok d ∧ d.name = n

def Greets (n : Name) (raw : Bytes) : Prop :=
  ∃ p, parsePacket raw = .ok (.peer p) ∧ Name.new p.rnsAddr [MANIFEST_LABEL] = .ok n

/-- Nothing but the handshake of the other end came, and it waits. -/
structure Greeted (s : LinkFace) (n : Name) : Prop where
  reader : s.reader = .waiting
  fetches : s.fetches = []
  replies : s.replies = []
  taken : s.queue.taken = []
  items : ∃ raw, s.queue.items = [raw] ∧ Greets n raw

end LinkFace

abbrev Ends := Bool → LinkFace

namespace Ends

/-- What an end does. -/
inductive Label where
  | read (nonce : Bytes)
  | send (p : Packet)
  | handled (ok : Bool)
  | take
  | timeout
  | idle
  | close (marker : Bool)

/-- The step of one end, and what it sends. The handler of a handshake sends an Interest and
suspends for the manifest. All tasks of the end may send at any time, but nothing in a server sends
a handshake. -/
def act (s : LinkFace) : Label → Option (LinkFace × List Packet)
  | .read nonce => do
    let s ← s.step .read
    match s.handshake.bind fun p => (Name.new p.rnsAddr [MANIFEST_LABEL]).toOption with
    | none => return (s, [])
    | some name => do
      let i : Interest := { name, nonce, lifetimeMs := 10000 }
      return (← s.step (.express i), [.interest i])
  | .send p => if p.type = .propPeer then none else some (s, [p])
  | .handled ok => if s.fetches = [] then (s.step (.handled ok)).map (·, []) else none
  | .take => (s.step (.take 0)).map (·, [])
  | .timeout => (s.step (.timeout 0)).map (·, [])
  | .idle => (s.step .idle).map (·, [])
  | .close marker => (s.step (.close marker)).map (·, [])

def step (s : Ends) (e : Bool × Label) : Option Ends :=
  (act (s e.1) e.2).map fun (t, out) =>
    Function.update (Function.update s e.1 t) (!e.1) ((s !e.1).receive (wire out))

/-- An end sends Data before its own call is over. -/
def Pushes (s : Ends) (e : Bool × Label) : Prop :=
  (s e.1).replies = [] ∧ ∃ p, e.2 = .send p ∧ p.type = .data

end Ends

def isData (raw : Bytes) : Prop := raw.head? = some PacketType.data.value

def isHandshake (raw : Bytes) : Prop := raw.head? = some PacketType.propPeer.value

theorem PacketType.value_inj {type type' : PacketType} (h : type.value = type'.value) :
    type = type' := by
  cases type <;> cases type' <;> first | rfl | cases h

theorem head_of_mem_wire {out : List Packet} {raw : Bytes} (h : raw ∈ wire out) :
    ∃ p ∈ out, raw.head? = some p.type.value := by
  obtain ⟨p, hp, hraw⟩ := List.mem_filterMap.mp h
  have hb : p.toBytes = .ok raw := by
    cases hb : p.toBytes with
    | error e => rw [hb] at hraw; cases hraw
    | ok b => rw [hb] at hraw; cases hraw; rfl
  obtain ⟨rest, rfl⟩ := Packet.toBytesWith_head (p.toBytesWith_zero.trans hb)
  exact ⟨p, hp, rfl⟩

theorem isHandshake_of_parsePacket {raw : Bytes} {p : PropPeer}
    (h : parsePacket raw = .ok (.peer p)) : isHandshake raw := by
  cases raw with
  | nil => cases h
  | cons b rest =>
    simp only [parsePacket] at h
    repeat' split at h
    all_goals first | cases h | (obtain ⟨x, hx, he⟩ := map_eq_ok.mp h; cases he)
    exact congrArg some ‹b = PacketType.propPeer.value›

theorem isData_of_expressInterest {raw : Bytes} {d : Data}
    (h : expressInterest raw = some (.ok (some d))) : isData raw := by
  unfold expressInterest at h
  split at h
  · cases h
  · rename_i b hb
    split at h
    · rename_i hd
      exact hb.trans (congrArg some hd)
    · cases h

theorem head_ne_of_mem_wire {out : List Packet} {raw : Bytes} {type : PacketType}
    (hout : ∀ p ∈ out, p.type ≠ type) (h : raw ∈ wire out) : raw.head? ≠ some type.value := by
  obtain ⟨p, hp, hhead⟩ := head_of_mem_wire h
  intro hd
  exact hout p hp (PacketType.value_inj (Option.some.inj (hhead.symm.trans hd)))

theorem expressInterest_of_isHandshake {raw : Bytes} (h : isHandshake raw) :
    expressInterest raw = none := by
  have hne : PacketType.propPeer.value ≠ PacketType.data.value := by decide
  rw [expressInterest, h]
  exact if_neg hne

namespace LinkFace

variable {s t : LinkFace} {n : Name} {raw : Bytes} {raws : List Bytes}

theorem receive_cons (s : LinkFace) (raw : Bytes) (raws : List Bytes) :
    s.receive (raw :: raws) = ((s.step (.arrive raw)).getD s).receive raws := rfl

theorem receive_spec (s : LinkFace) (raws : List Bytes) :
    (s.receive raws).reader = s.reader ∧ (s.receive raws).fetches = s.fetches ∧
      (s.receive raws).replies = s.replies ∧ (s.receive raws).queue.taken = s.queue.taken ∧
        ∃ new, (s.receive raws).queue.items = s.queue.items ++ new ∧ ∀ raw ∈ new, raw ∈ raws := by
  induction raws generalizing s with
  | nil => exact ⟨rfl, rfl, rfl, rfl, [], (List.append_nil _).symm, List.forall_mem_nil _⟩
  | cons raw raws ih =>
    rw [receive_cons]
    cases hc : s.closed with
    | true =>
      have hs : s.step (.arrive raw) = none := if_pos hc
      rw [hs]
      obtain ⟨hreader, hfetches, hreplies, htaken, new, hnew, hall⟩ := ih s
      exact ⟨hreader, hfetches, hreplies, htaken, new, hnew,
        fun r hr => List.mem_cons_of_mem _ (hall r hr)⟩
    | false =>
      have hs : s.step (.arrive raw) = some { s with queue := s.queue.put raw } :=
        if_neg (by rw [hc]; exact Bool.false_ne_true)
      rw [hs]
      obtain ⟨hreader, hfetches, hreplies, htaken, new, hnew, hall⟩ :=
        ih { s with queue := s.queue.put raw }
      refine ⟨hreader, hfetches, hreplies, htaken, raw :: new, ?_, ?_⟩
      · exact hnew.trans (List.append_assoc ..)
      · exact List.forall_mem_cons.mpr
          ⟨List.mem_cons_self, fun r hr => List.mem_cons_of_mem _ (hall r hr)⟩

structure Unread (s : LinkFace) (n : Name) : Prop where
  reader : ∀ raw, s.reader ≠ .handling raw
  fetches : s.fetches = []
  replies : s.replies = []
  taken : s.queue.taken = []
  items : ∃ raw rest, s.queue.items = raw :: rest ∧ Greets n raw ∧ ∀ r ∈ rest, ¬ isHandshake r

/-- The reader handles the handshake and its call waits for the manifest. -/
structure Asking (s : LinkFace) (n : Name) : Prop where
  reader : ∃ raw, s.reader = .handling raw
  fetches : ∃ i, s.fetches = [i] ∧ i.name = n
  replies : s.replies = []
  taken : ∀ x ∈ s.queue.taken, expressInterest x.2 = none
  items : ∀ r ∈ s.queue.items, ¬ isHandshake r

structure Replied (s : LinkFace) (n : Name) : Prop where
  fetches : s.fetches = []
  replies : ∃ i r, s.replies = [(i, r)] ∧ i.name = n
  items : ∀ r ∈ s.queue.items, ¬ isHandshake r

inductive Stage (s : LinkFace) (n : Name) : Prop where
  | unread : s.Unread n → s.Stage n
  | asking : s.Asking n → s.Stage n
  | replied : s.Replied n → s.Stage n

theorem Greeted.stage (h : s.Greeted n) : s.Stage n := by
  obtain ⟨raw, hitems, hgreets⟩ := h.items
  refine .unread ⟨fun raw => ?_, h.fetches, h.replies, h.taken, raw, [], hitems, hgreets,
    List.forall_mem_nil _⟩
  rw [h.reader]
  exact nofun

theorem Stage.same (h : s.Stage n)
    (hreader : ∀ raw, t.reader = .handling raw ↔ s.reader = .handling raw)
    (hfetches : t.fetches = s.fetches) (hreplies : t.replies = s.replies)
    (htaken : t.queue.taken = s.queue.taken) {new : List Bytes}
    (hnew : t.queue.items = s.queue.items ++ new) (hall : ∀ raw ∈ new, ¬ isHandshake raw) :
    t.Stage n := by
  have hitems (h : ∀ r ∈ s.queue.items, ¬ isHandshake r) :
      ∀ r ∈ t.queue.items, ¬ isHandshake r := by
    rw [hnew]
    exact List.forall_mem_append.mpr ⟨h, hall⟩
  cases h with
  | unread h =>
    obtain ⟨raw, rest, hq, hgreets, hrest⟩ := h.items
    refine .unread ⟨fun r hr => h.reader r ((hreader r).mp hr), hfetches.trans h.fetches,
      hreplies.trans h.replies, htaken.trans h.taken, raw, rest ++ new, by rw [hnew, hq]; rfl,
      hgreets, ?_⟩
    exact List.forall_mem_append.mpr ⟨hrest, hall⟩
  | asking h =>
    obtain ⟨raw, hr⟩ := h.reader
    exact .asking ⟨⟨raw, (hreader raw).mpr hr⟩, hfetches ▸ h.fetches, hreplies.trans h.replies,
      htaken ▸ h.taken, hitems h.items⟩
  | replied h =>
    exact .replied ⟨hfetches.trans h.fetches, hreplies ▸ h.replies, hitems h.items⟩

theorem Stage.receive (h : s.Stage n) (hraws : ∀ raw ∈ raws, ¬ isHandshake raw) :
    (s.receive raws).Stage n := by
  obtain ⟨hreader, hfetches, hreplies, htaken, new, hnew, hall⟩ := receive_spec s raws
  refine h.same (fun raw => ?_) hfetches hreplies htaken hnew fun r hr => hraws r (hall r hr)
  rw [hreader]

theorem Stage.replied_of (h : s.Stage n) (hreader : s.reader = .handling raw)
    (hfetches : s.fetches = []) : s.Replied n := by
  cases h with
  | unread h => exact absurd hreader (h.reader raw)
  | asking h =>
    obtain ⟨i, hi, -⟩ := h.fetches
    cases hi.symm.trans hfetches
  | replied h => exact h

def Settled (s : LinkFace) : Prop :=
  ∀ i r, (i, r) ∈ s.replies →
    ∃ raw, s.queue.arrived.find? endsWait = some raw ∧ expressInterest raw = some r

def Late (s : LinkFace) : Prop := ∃ i, s.replies = [(i, .ok none)]

/-- A reply that came in time is the manifest exactly if the manifest was served. -/
theorem Settled.fetched_iff (h : s.Settled) (hover : s.replies ≠ []) :
    s.Fetched n ↔ s.Served n := by
  constructor
  · rintro ⟨i, d, hd, hn⟩
    obtain ⟨raw, hraw, he⟩ := h i _ hd
    exact ⟨raw, d, hraw, expressInterest_data he, hn⟩
  · rintro ⟨raw, d, hraw, hd, hn⟩
    obtain ⟨⟨i, r⟩, hr⟩ := List.exists_mem_of_ne_nil _ hover
    obtain ⟨raw', hraw', he⟩ := h i r hr
    obtain rfl : raw = raw' := Option.some.inj (hraw.symm.trans hraw')
    refine ⟨i, d, ?_, hn⟩
    have hreply : r = .ok (some d) := by
      rw [expressInterest_of_data hd] at he
      exact (Option.some.inj he).symm
    exact hreply ▸ hr

theorem Late.not_fetched (h : s.Late) : ¬ s.Fetched n := by
  rintro ⟨i, d, hd, -⟩
  obtain ⟨j, hj⟩ := h
  rw [hj] at hd
  cases List.mem_singleton.mp hd

end LinkFace

namespace Ends

open LinkFace

/-- The end has a reply that it did not have: its call timed out, or took an item that ends the
wait, the first one to come. -/
def NewReply (l : Label) (s t : LinkFace) : Prop :=
  s.replies = [] ∧ ∃ i r, t.replies = [(i, r)] ∧
    ((l = .timeout ∧ r = .ok none) ∨ ∃ raw ∈ s.queue.items,
      t.queue.arrived.find? endsWait = some raw ∧ expressInterest raw = some r)

structure Moves (n : Name) (l : Label) (s t : LinkFace) (out : List Packet) : Prop where
  stage : t.Stage n
  sends : ∀ p ∈ out, p.type = .interest ∨ l = .send p ∧ p.type ≠ .propPeer
  items : ∀ raw ∈ t.queue.items, raw ∈ s.queue.items ∨ raw = []
  arrived : ∃ new, t.queue.arrived = s.queue.arrived ++ new
  replied : t.replies = s.replies ∨ NewReply l s t

variable {s t : LinkFace} {n : Name} {l : Label} {out : List Packet}

theorem Moves.silent (stage : t.Stage n)
    (items : ∀ raw ∈ t.queue.items, raw ∈ s.queue.items ∨ raw = [])
    (arrived : ∃ new, t.queue.arrived = s.queue.arrived ++ new) (replies : t.replies = s.replies) :
    Moves n l s t [] where
  stage := stage
  sends := List.forall_mem_nil _
  items := items
  arrived := arrived
  replied := .inl replies

theorem Moves.not_handshake (h : Moves n l s t out) : ∀ p ∈ out, p.type ≠ .propPeer := by
  intro p hp
  rcases h.sends p hp with hi | ⟨-, hp⟩
  · rw [hi]
    decide
  · exact hp

theorem Moves.replies_eq (h : Moves n l s t out) (hne : s.replies ≠ []) : t.replies = s.replies :=
  h.replied.resolve_right fun hnew => hne hnew.1

theorem Moves.obtained (h : Moves n l s t out) (ht : t.Obtained) :
    s.Obtained ∨ ∃ raw ∈ s.queue.items, isData raw := by
  obtain ⟨i, d, hd⟩ := ht
  rcases h.replied with heq | ⟨-, j, r, hnew, hwhy⟩
  · exact .inl ⟨i, d, heq ▸ hd⟩
  · rw [hnew] at hd
    obtain ⟨rfl, rfl⟩ := Prod.mk.inj (List.mem_singleton.mp hd)
    rcases hwhy with ⟨-, hno⟩ | ⟨raw, hraw, -, he⟩
    · cases hno
    · exact .inr ⟨raw, hraw, isData_of_expressInterest he⟩

theorem Moves.settled (h : Moves n l s t out) (hl : l ≠ .timeout) (hs : s.Settled) :
    t.Settled := by
  intro i r hr
  rcases h.replied with heq | ⟨-, j, r', hnew, hwhy⟩
  · obtain ⟨raw, hraw, he⟩ := hs i r (heq ▸ hr)
    obtain ⟨new, harrived⟩ := h.arrived
    refine ⟨raw, ?_, he⟩
    rw [harrived, List.find?_append, hraw, Option.some_or]
  · rw [hnew] at hr
    obtain ⟨rfl, rfl⟩ := Prod.mk.inj (List.mem_singleton.mp hr)
    rcases hwhy with ⟨ht, -⟩ | ⟨raw, -, hraw, he⟩
    · exact absurd ht hl
    · exact ⟨raw, hraw, he⟩

theorem Moves.late (h : Moves n l s t out) (hs : s.Late) : t.Late := by
  obtain ⟨i, hi⟩ := hs
  refine ⟨i, (h.replies_eq ?_).trans hi⟩
  rw [hi]
  exact List.cons_ne_nil _ _

theorem parsePacket_of_handshake {raw : Bytes} {p : PropPeer}
    (ht : t.reader = if raw = [] then .stopped else .handling raw) (h : t.handshake = some p) :
    parsePacket raw = .ok (.peer p) := by
  unfold LinkFace.handshake at h
  rw [ht] at h
  split at h
  · rename_i raw' hr
    split at hr
    · cases hr
    · obtain rfl := ReaderPhase.handling.inj hr
      split at h
      · rename_i q hq
        exact Option.some.inj h ▸ hq
      · cases h
  · cases h

theorem handshake_of_parsePacket {raw : Bytes} {p : PropPeer} (ht : t.reader = .handling raw)
    (hp : parsePacket raw = .ok (.peer p)) : t.handshake = some p := by
  rw [LinkFace.handshake, ht]
  simp only [hp]

theorem moves_read {nonce : Bytes} (h : s.Stage n) (hs : act s (.read nonce) = some (t, out)) :
    Moves n (.read nonce) s t out := by
  obtain ⟨u, hu, hs⟩ := Option.bind_eq_some_iff.mp hs
  obtain ⟨hreader, raw, queue, hq, rfl⟩ := LinkFace.step_read hu
  have harrived := SharedQueue.arrived_of_take hq
  obtain ⟨items, hitems, rfl⟩ := SharedQueue.take_eq_some.mp hq
  have hsub : ∀ r ∈ items, r ∈ s.queue.items := fun r hr => hitems ▸ List.mem_cons_of_mem _ hr
  cases h with
  | unread h =>
    obtain ⟨raw', rest, hq', ⟨p, hp, hn⟩, hrest⟩ := h.items
    obtain ⟨rfl, rfl⟩ := List.cons.inj (hitems.symm.trans hq')
    have hne : raw ≠ [] := by
      rintro rfl
      cases hp
    rw [handshake_of_parsePacket (if_neg hne) hp, Option.bind_some, hn] at hs
    cases hs
    have htaken : ∀ x ∈ s.queue.taken ++ [(Taker.reader, raw)], expressInterest x.2 = none := by
      rw [h.taken]
      exact List.forall_mem_singleton.mpr
        (expressInterest_of_isHandshake (isHandshake_of_parsePacket hp))
    exact {
      stage := .asking ⟨⟨raw, if_neg hne⟩, ⟨_, by rw [h.fetches]; rfl, rfl⟩, h.replies, htaken,
        hrest⟩
      sends := List.forall_mem_singleton.mpr (.inl rfl)
      items := fun r hr => .inl (hsub r hr)
      arrived := ⟨[], harrived.trans (List.append_nil _).symm⟩
      replied := .inl rfl }
  | asking h =>
    obtain ⟨raw', hr⟩ := h.reader
    cases hreader.symm.trans hr
  | replied h =>
    -- no handshake is left to be read
    split at hs
    · cases hs
      refine .silent (.replied ⟨h.fetches, h.replies, fun r hr => h.items r (hsub r hr)⟩) ?_ ?_ rfl
      · exact fun r hr => .inl (hsub r hr)
      · exact ⟨[], harrived.trans (List.append_nil _).symm⟩
    · rename_i name hname
      obtain ⟨p, hp, -⟩ := Option.bind_eq_some_iff.mp hname
      refine absurd (isHandshake_of_parsePacket (parsePacket_of_handshake rfl hp)) (h.items raw ?_)
      rw [hitems]
      exact List.mem_cons_self

theorem moves_take (h : s.Stage n) (hs : s.step (.take 0) = some t) : Moves n .take s t [] := by
  obtain ⟨i, hi, raw, queue, hq, ht⟩ := LinkFace.step_take hs
  have harrived := SharedQueue.arrived_of_take hq
  obtain ⟨items, hitems, rfl⟩ := SharedQueue.take_eq_some.mp hq
  have hsub : ∀ r ∈ items, r ∈ s.queue.items := fun r hr => hitems ▸ List.mem_cons_of_mem _ hr
  cases h with
  | unread h =>
    rw [h.fetches] at hi
    cases hi
  | asking h =>
    obtain ⟨j, hj, hn⟩ := h.fetches
    rw [hj] at hi
    obtain rfl : j = i := Option.some.inj hi
    have hleft : ∀ r ∈ items, ¬ isHandshake r := fun r hr => h.items r (hsub r hr)
    rcases ht with ⟨he, rfl⟩ | ⟨r, he, rfl⟩
    · refine .silent (.asking ⟨h.reader, ⟨j, hj, hn⟩, h.replies, ?_, hleft⟩) ?_ ?_ rfl
      · exact List.forall_mem_append.mpr ⟨h.taken, List.forall_mem_singleton.mpr he⟩
      · exact fun r hr => .inl (hsub r hr)
      · exact ⟨[], harrived.trans (List.append_nil _).symm⟩
    · have hnone : s.fetches.eraseIdx 0 = [] := by
        rw [hj]
        rfl
      have hreplies : s.replies ++ [(j, r)] = [(j, r)] := by
        rw [h.replies]
        rfl
      -- the items before it were taken and end no wait
      have hfirst : s.queue.arrived.find? endsWait = some raw := by
        rw [SharedQueue.arrived, hitems, List.find?_append, List.find?_eq_none.mpr, Option.none_or,
          List.find?_cons_of_pos]
        · rw [endsWait, he]
          rfl
        · intro x hx
          obtain ⟨y, hy, rfl⟩ := List.mem_map.mp hx
          rw [endsWait, h.taken y hy]
          exact Bool.false_ne_true
      exact {
        stage := .replied ⟨hnone, ⟨j, r, hreplies, hn⟩, hleft⟩
        sends := List.forall_mem_nil _
        items := fun r hr => .inl (hsub r hr)
        arrived := ⟨[], harrived.trans (List.append_nil _).symm⟩
        replied := .inr ⟨h.replies, j, r, hreplies, .inr ⟨raw, by rw [hitems]; exact
          List.mem_cons_self, (congrArg _ harrived).trans hfirst, he⟩⟩ }
  | replied h =>
    rw [h.fetches] at hi
    cases hi

theorem moves_handled {ok : Bool} (h : s.Stage n) (hfetches : s.fetches = [])
    (hs : s.step (.handled ok) = some t) : Moves n (.handled ok) s t [] := by
  rw [LinkFace.step] at hs
  split at hs
  · rename_i raw hreader
    have hr := h.replied_of hreader hfetches
    cases hs
    exact .silent (.replied ⟨hr.fetches, hr.replies, hr.items⟩) (fun r hr => .inl hr)
      ⟨[], (List.append_nil _).symm⟩ rfl
  · cases hs

theorem moves_timeout (h : s.Stage n) (hs : s.step (.timeout 0) = some t) :
    Moves n .timeout s t [] ∧ t.Late := by
  obtain ⟨i, hi, hs⟩ := Option.bind_eq_some_iff.mp hs
  cases hs
  cases h with
  | unread h =>
    rw [h.fetches] at hi
    cases hi
  | asking h =>
    obtain ⟨j, hj, hn⟩ := h.fetches
    rw [hj] at hi
    obtain rfl : j = i := Option.some.inj hi
    have hnone : s.fetches.eraseIdx 0 = [] := by
      rw [hj]
      rfl
    have hreplies : s.replies ++ [(j, .ok none)] = [(j, .ok none)] := by
      rw [h.replies]
      rfl
    refine ⟨?_, j, hreplies⟩
    exact {
      stage := .replied ⟨hnone, ⟨j, _, hreplies, hn⟩, h.items⟩
      sends := List.forall_mem_nil _
      items := fun r hr => .inl hr
      arrived := ⟨[], (List.append_nil _).symm⟩
      replied := .inr ⟨h.replies, j, _, hreplies, .inl ⟨rfl, rfl⟩⟩ }
  | replied h =>
    rw [h.fetches] at hi
    cases hi

theorem moves_idle (h : s.Stage n) (hs : s.step .idle = some t) : Moves n .idle s t [] := by
  rw [LinkFace.step] at hs
  split at hs
  · rename_i hreader
    cases hs
    refine .silent (h.same (fun raw => ?_) rfl rfl rfl (List.append_nil _).symm
      (List.forall_mem_nil _))
      (fun r hr => .inl hr) ⟨[], (List.append_nil _).symm⟩ rfl
    rw [hreader, LinkFace.nextTurn]
    split <;> constructor <;> rintro ⟨⟩
  · cases hs

theorem moves_close {marker : Bool} (h : s.Stage n) (hs : s.step (.close marker) = some t) :
    Moves n (.close marker) s t [] := by
  cases hs
  cases marker with
  | false =>
    exact .silent (h.same (fun _ => .rfl) rfl rfl rfl (List.append_nil _).symm
      (List.forall_mem_nil _))
      (fun r hr => .inl hr) ⟨[], (List.append_nil _).symm⟩ rfl
  | true =>
    have hnew : ∀ raw ∈ [([] : Bytes)], ¬ isHandshake raw := List.forall_mem_singleton.mpr nofun
    refine .silent (h.same (fun _ => .rfl) rfl rfl rfl rfl hnew) (fun r hr => ?_) ⟨[[]], ?_⟩ rfl
    · exact (List.mem_append.mp hr).imp_right List.mem_singleton.mp
    · exact SharedQueue.arrived_put _ _

theorem moves_act (h : s.Stage n) (hs : act s l = some (t, out)) : Moves n l s t out := by
  have hmap {o : Option LinkFace} (ho : o.map (·, []) = some (t, out)) : o = some t ∧ out = [] := by
    obtain ⟨u, hu, hp⟩ := Option.map_eq_some_iff.mp ho
    obtain ⟨rfl, rfl⟩ := Prod.mk.inj hp
    exact ⟨hu, rfl⟩
  cases l with
  | read nonce => exact moves_read h hs
  | send p =>
    obtain ⟨hp, hs⟩ := Option.ite_none_left_eq_some.mp hs
    obtain ⟨rfl, rfl⟩ := Prod.mk.inj (Option.some.inj hs)
    exact {
      stage := h
      sends := List.forall_mem_singleton.mpr (.inr ⟨rfl, hp⟩)
      items := fun r hr => .inl hr
      arrived := ⟨[], (List.append_nil _).symm⟩
      replied := .inl rfl }
  | handled ok =>
    obtain ⟨hfetches, hs⟩ := Option.ite_none_right_eq_some.mp hs
    obtain ⟨ht, rfl⟩ := hmap hs
    exact moves_handled h hfetches ht
  | take =>
    obtain ⟨ht, rfl⟩ := hmap hs
    exact moves_take h ht
  | timeout =>
    obtain ⟨ht, rfl⟩ := hmap hs
    exact (moves_timeout h ht).1
  | idle =>
    obtain ⟨ht, rfl⟩ := hmap hs
    exact moves_idle h ht
  | close marker =>
    obtain ⟨ht, rfl⟩ := hmap (o := s.step (.close marker)) hs
    exact moves_close h ht

variable {n : Bool → Name} {s t : Ends} {x : Bool} {e : Bool × Label} {es : List (Bool × Label)}

theorem step_moves (h : ∀ x, (s x).Stage (n x)) (hs : step s e = some t) :
    ∃ out, Moves (n e.1) e.2 (s e.1) (t e.1) out ∧ t (!e.1) = (s !e.1).receive (wire out) := by
  obtain ⟨⟨u, out⟩, hu, rfl⟩ := Option.map_eq_some_iff.mp hs
  have hne : e.1 ≠ !e.1 := by cases e.1 <;> decide
  refine ⟨out, ?_, Function.update_self ..⟩
  dsimp only
  rw [Function.update_of_ne hne, Function.update_self]
  exact moves_act (h e.1) hu

theorem step_stage (h : ∀ x, (s x).Stage (n x)) (hs : step s e = some t) (x : Bool) :
    (t x).Stage (n x) := by
  obtain ⟨out, hm, hother⟩ := step_moves h hs
  obtain rfl | rfl := Bool.eq_or_eq_not x e.1
  · exact hm.stage
  · rw [hother]
    exact (h _).receive fun raw hraw => head_ne_of_mem_wire hm.not_handshake hraw

theorem step_late (h : ∀ x, (s x).Stage (n x)) (hs : step s e = some t) (hl : (s x).Late) :
    (t x).Late := by
  obtain ⟨out, hm, hother⟩ := step_moves h hs
  obtain rfl | rfl := Bool.eq_or_eq_not x e.1
  · exact hm.late hl
  · obtain ⟨i, hi⟩ := hl
    rw [hother]
    exact ⟨i, (receive_spec _ _).2.2.1.trans hi⟩

theorem late_of_step (h : ∀ x, (s x).Stage (n x)) (hs : step s (x, .timeout) = some t) :
    (t x).Late := by
  obtain ⟨⟨u, out⟩, hu, rfl⟩ := Option.map_eq_some_iff.mp hs
  obtain ⟨v, hv, hp⟩ := Option.map_eq_some_iff.mp hu
  obtain ⟨rfl, rfl⟩ := Prod.mk.inj hp
  have hne : x ≠ !x := by cases x <;> decide
  dsimp only
  rw [Function.update_of_ne hne, Function.update_self]
  exact (moves_timeout (h x) hv).2

theorem step_settled (h : ∀ x, (s x).Stage (n x)) (hs : step s e = some t)
    (he : e ≠ (x, .timeout)) (hset : (s x).Settled) : (t x).Settled := by
  obtain ⟨out, hm, hother⟩ := step_moves h hs
  obtain rfl | rfl := Bool.eq_or_eq_not x e.1
  · refine hm.settled ?_ hset
    intro hl
    exact he (Prod.ext rfl hl)
  · obtain ⟨-, -, hreplies, htaken, new, hnew, -⟩ := receive_spec (s !e.1) (wire out)
    rw [hother]
    intro i r hr
    obtain ⟨raw, hraw, hex⟩ := hset i r (hreplies ▸ hr)
    refine ⟨raw, ?_, hex⟩
    rw [SharedQueue.arrived, htaken, hnew, ← List.append_assoc, ← SharedQueue.arrived,
      List.find?_append, hraw, Option.some_or]

theorem late_of_mem (hes : Run step anyStep s es t) (h : ∀ x, (s x).Stage (n x))
    (he : (x, Label.timeout) ∈ es) : (t x).Late := by
  induction hes with
  | nil => cases he
  | cons _ hs hes ih =>
    have hnext := step_stage h hs
    rcases List.mem_cons.mp he with rfl | he
    · have hboth := hes.invariant (I := fun s => (∀ x, (s x).Stage (n x)) ∧ (s x).Late)
        ⟨hnext, late_of_step h hs⟩ fun _ _ _ hi _ hs => ⟨step_stage hi.1 hs, step_late hi.1 hs hi.2⟩
      exact hboth.2
    · exact ih hnext he

/-- In a run in which its call does not time out, the reply of an end is that of the first item
that ends a wait. -/
theorem settled_of_not_mem (hes : Run step anyStep s es t) (h : ∀ x, (s x).Stage (n x))
    (h₀ : (s x).replies = []) (he : (x, Label.timeout) ∉ es) : (t x).Settled := by
  have hes' : Run step (fun _ e => e ≠ (x, .timeout)) s es t :=
    hes.of_trace fun e hmem heq => he (heq ▸ label_of_mem_trace hmem)
  have hset : (s x).Settled := by
    intro i r hr
    rw [h₀] at hr
    cases hr
  have hboth := hes'.invariant (I := fun s => (∀ x, (s x).Stage (n x)) ∧ (s x).Settled)
    ⟨h, hset⟩ fun _ _ _ hi he hs => ⟨step_stage hi.1 hs, step_settled hi.1 hs he hi.2⟩
  exact hboth.2

/-- An end whose call is over got the manifest exactly if its call did not time out and the first
item to end a wait was the manifest. -/
theorem fetched_iff (h : ∀ x, (s x).Greeted (n x)) (hes : Run step anyStep s es t)
    (hover : (t x).replies ≠ []) :
    (t x).Fetched (n x) ↔ (x, .timeout) ∉ es ∧ (t x).Served (n x) := by
  have hstage : ∀ x, (s x).Stage (n x) := fun x => (h x).stage
  by_cases he : (x, Label.timeout) ∈ es
  · exact iff_of_false (late_of_mem hes hstage he).not_fetched fun hno => hno.1 he
  · rw [(settled_of_not_mem hes hstage (h x).replies he).fetched_iff hover]
    exact (and_iff_right he).symm

/-- An end without a reply has sent no Data, and an end that got Data is the only one. -/
structure Unserved (n : Bool → Name) (s : Ends) : Prop where
  stage : ∀ x, (s x).Stage (n x)
  silent : ∀ x, (s x).replies = [] → ∀ raw ∈ (s !x).queue.items, ¬ isData raw
  obtained : ∀ x, (s x).Obtained → (s !x).replies ≠ [] ∧ ¬ (s !x).Obtained

theorem Unserved.of_greeted (h : ∀ x, (s x).Greeted (n x)) : Unserved n s where
  stage x := (h x).stage
  silent x _ raw hraw := by
    obtain ⟨raw', hitems, p, hp, -⟩ := (h !x).items
    rw [hitems] at hraw
    obtain rfl := List.mem_singleton.mp hraw
    intro hd
    cases Option.some.inj ((isHandshake_of_parsePacket hp).symm.trans hd)
  obtained x := by
    rintro ⟨i, d, hr⟩
    rw [(h x).replies] at hr
    cases hr

/-- While no end sends Data before its own call is over, at most one gets Data. -/
theorem Unserved.step (h : Unserved n s) (he : ¬ Pushes s e) (hs : step s e = some t) :
    Unserved n t := by
  have hstage := step_stage h.stage hs
  obtain ⟨out, hm, hother⟩ := step_moves h.stage hs
  obtain ⟨x, l⟩ := e
  obtain ⟨-, -, hreplies, -, new, hnew, hall⟩ := LinkFace.receive_spec (s !x) (wire out)
  rw [← hother] at hreplies hnew
  have hmine (hnone : (t x).replies = []) : (s x).replies = [] := by
    by_contra hne
    exact hne ((hm.replies_eq hne).symm.trans hnone)
  have hasks (hnone : (s x).replies = []) : ∀ p ∈ out, p.type ≠ .data := by
    intro p hp ht
    rcases hm.sends p hp with hi | ⟨hl, -⟩
    · cases hi.symm.trans ht
    · exact he ⟨hnone, p, hl, ht⟩
  have hobtained : (t !x).Obtained ↔ (s !x).Obtained := by
    unfold LinkFace.Obtained
    rw [hreplies]
  constructor
  · exact hstage
  · intro y hnone raw hraw
    obtain rfl | rfl := Bool.eq_or_eq_not y x
    · rw [hnew] at hraw
      rcases List.mem_append.mp hraw with hraw | hraw
      · exact h.silent y (hmine hnone) raw hraw
      · exact head_ne_of_mem_wire (hasks (hmine hnone)) (hall raw hraw)
    · rw [Bool.not_not] at hraw
      rcases hm.items raw hraw with hraw | rfl
      · exact h.silent (!x) (hreplies.symm.trans hnone) raw (by rwa [Bool.not_not])
      · exact nofun
  · intro y hy
    obtain rfl | rfl := Bool.eq_or_eq_not y x
    · rw [hreplies, hobtained]
      rcases hm.obtained hy with hold | ⟨raw, hraw, hd⟩
      · exact h.obtained y hold
      · -- Data waited here, so the other end had its reply, which was none
        refine ⟨fun hnone => h.silent (!y) hnone raw (by rwa [Bool.not_not]) hd, fun ho => ?_⟩
        obtain ⟨hne, hno⟩ := h.obtained (!y) ho
        rw [Bool.not_not] at hne hno
        unfold LinkFace.Obtained at hy hno
        rw [hm.replies_eq hne] at hy
        exact hno hy
    · obtain ⟨hne, hno⟩ := h.obtained (!x) (hobtained.mp hy)
      rw [Bool.not_not] at hne hno ⊢
      unfold LinkFace.Obtained at hno ⊢
      rw [hm.replies_eq hne]
      exact ⟨hne, hno⟩

/-- If both ends handle the handshake of the other and neither sends Data in the meantime, then at
most one gets Data from it. -/
theorem not_both_obtained (h : ∀ x, (s x).Greeted (n x)) (hes : Run step anyStep s es t)
    (hpush : ∀ e ∈ trace step s es, ¬ Pushes e.1 e.2.1) : ¬ ∀ x, (t x).Obtained := by
  have hu := (hes.of_trace hpush).invariant (Unserved.of_greeted h)
    fun _ _ _ hi he hs => Unserved.step hi he hs
  intro hall
  exact (hu.obtained true (hall true)).2 (hall false)

/-- A call that waits on a face returns its Data and leaves all else to the handler if and only if
it takes no other packet. Two servers that greet each other at once both get the manifest of the
other if and only if neither call times out and the first Data or close mark that comes to each is
that manifest. If neither sends Data before its own call is over, then at most one gets Data. -/
theorem direct_fetch_iff {f g : LinkFace} {ls : List LinkFace.Label} (hf : f.Fresh)
    (hls : Run LinkFace.step anyStep f ls g) (hs : ∀ x, (s x).Greeted (n x))
    (hes : Run step anyStep s es t) (hover : ∀ x, (t x).replies ≠ []) :
    ((∀ e ∈ trace LinkFace.step f ls, e.2.2.Faithful) ↔
      ∀ e ∈ trace LinkFace.step f ls, ¬ e.1.Misfetches e.2.1) ∧
    ((∀ x, (t x).Fetched (n x)) ↔ ∀ x, (x, .timeout) ∉ es ∧ (t x).Served (n x)) ∧
    ((∀ e ∈ trace step s es, ¬ Pushes e.1 e.2.1) → ¬ ∀ x, (t x).Obtained) :=
  ⟨LinkFace.faithful_iff hf hls, forall_congr' fun x => fetched_iff hs hes (hover x),
    not_both_obtained hs hes⟩

def peerAt (x : Bool) : PropPeer where
  rnsAddr := List.replicate 16 (if x then 2 else 1)

def manifestInterest (x : Bool) : Interest where
  name := ⟨(peerAt x).rnsAddr, [MANIFEST_LABEL], none⟩
  nonce := List.replicate 8 0
  lifetimeMs := 10000

def manifest (x : Bool) : Data where
  name := (manifestInterest x).name
  content := []

def greetedEnds : Ends := fun x => { queue := { items := wire [.peer (peerAt x)] } }

def greetings : List (Bool × Label) :=
  [(true, .read (List.replicate 8 0)), (false, .read (List.replicate 8 0))]

def unanswered : List (Bool × Label) :=
  greetings ++ [(true, .take), (false, .take), (true, .timeout), (false, .timeout),
    (true, .handled true), (false, .handled true)]

/-- While the calls wait, each end publishes its manifest and pushes it to the other. -/
def published : List (Bool × Label) :=
  greetings ++ [(true, .send (.data (manifest false))), (false, .send (.data (manifest true))),
    (true, .take), (false, .take), (true, .take), (false, .take),
    (true, .handled true), (false, .handled true)]

theorem greetedEnds_greeted (x : Bool) : (greetedEnds x).Greeted (manifestInterest x).name := by
  have hp (x : Bool) : ∃ raw, wire [.peer (peerAt x)] = [raw] ∧
      parsePacket raw = .ok (.peer (peerAt x)) := by
    refine ⟨(wire [.peer (peerAt x)]).head!, ?_⟩
    cases x <;> decide +kernel
  obtain ⟨raw, hraw, hparse⟩ := hp x
  refine ⟨rfl, rfl, rfl, rfl, raw, hraw, peerAt x, hparse, ?_⟩
  cases x <;> rfl

/-- The manifest that a call waits for arrives first, and a handshake after it. -/
def fetched : List LinkFace.Label :=
  .express (manifestInterest true) ::
    (wire [.data (manifest true), .peer (peerAt true)]).map .arrive ++ [.take 0, .read]

/-- What is seen at an end: whether its call is over, and the first Data that came. -/
def seen (s : LinkFace) : Bool × Option Data :=
  (!s.replies.isEmpty, (s.queue.arrived.find? endsWait).bind fun raw =>
    (Data.fromBytes raw).toOption)

theorem over_of_seen {s : LinkFace} {o : Option Data} (h : seen s = (true, o)) :
    s.replies ≠ [] := by
  intro hnone
  have hfirst := congrArg Prod.fst h
  rw [seen, hnone] at hfirst
  cases hfirst

theorem served_of_seen {s : LinkFace} {d : Data} (h : seen s = (true, some d)) :
    s.Served d.name := by
  obtain ⟨raw, hraw, hd⟩ := Option.bind_eq_some_iff.mp (congrArg Prod.snd h)
  exact ⟨raw, d, hraw, toOption_eq_some.mp hd, rfl⟩

theorem direct_fetch_fetched :
    (∃ t, Run LinkFace.step anyStep {} fetched t ∧
      ∀ e ∈ trace LinkFace.step {} fetched, e.2.2.Faithful) ∧
    (∃ t, Run step anyStep greetedEnds published t ∧
      ∀ x, (t x).Fetched (manifestInterest x).name) ∧
    ∃ t, Run step anyStep greetedEnds unanswered t ∧
      (¬ ∀ x, (t x).Fetched (manifestInterest x).name) ∧ ¬ ∀ x, (t x).Obtained := by
  obtain ⟨g, hg⟩ := Option.isSome_iff_exists.mp
    (show (exec LinkFace.step {} fetched).isSome by decide +kernel)
  obtain ⟨t, ht, hseen⟩ := Option.map_eq_some_iff.mp
    (show (exec step greetedEnds published).map (fun t x => seen (t x)) =
      some fun x => (true, some (manifest x)) by decide +kernel)
  obtain ⟨u, hu, hover⟩ := Option.map_eq_some_iff.mp
    (show (exec step greetedEnds unanswered).map (fun t x => seen (t x)) =
      some fun _ => (true, none) by decide +kernel)
  have hserved := direct_fetch_iff ⟨rfl, rfl⟩ (run_of_exec hg) greetedEnds_greeted
    (run_of_exec ht) fun x => over_of_seen (congrFun hseen x)
  have hlost := direct_fetch_iff ⟨rfl, rfl⟩ (run_of_exec hg) greetedEnds_greeted
    (run_of_exec hu) fun x => over_of_seen (congrFun hover x)
  refine ⟨⟨g, run_of_exec hg, hserved.1.mpr (by decide +kernel)⟩, ⟨t, run_of_exec ht, ?_⟩, u,
    run_of_exec hu, fun hall => ?_, hlost.2.2 ?_⟩
  · refine hserved.2.1.mpr fun x => ⟨?_, served_of_seen (congrFun hseen x)⟩
    cases x <;> simp [published, greetings]
  · refine (hlost.2.1.mp hall true).1 ?_
    simp [unanswered, greetings]
  · rintro e he ⟨-, p, hp, -⟩
    have hmem := label_of_mem_trace he
    simp [unanswered, greetings, Prod.ext_iff, hp] at hmem

/-- A handshake arrives first, and the manifest of another server after it. -/
def misfetched : List LinkFace.Label :=
  .express (manifestInterest true) ::
    (wire [.peer (peerAt true), .data (manifest false)]).map .arrive ++ [.take 0, .take 0]

theorem mem_replies_of_join {s : LinkFace} {i : Interest} {o : Option Name}
    (h : (i, o) ∈ s.replies.map fun r => (r.1, r.2.toOption.join.map Data.name)) {n : Name}
    (hn : o = some n) : ∃ d, (i, .ok (some d)) ∈ s.replies ∧ d.name = n := by
  obtain ⟨⟨j, r⟩, hr, he⟩ := List.mem_map.mp h
  obtain ⟨rfl, rfl⟩ := Prod.mk.inj he
  obtain ⟨d, hd, rfl⟩ := Option.map_eq_some_iff.mp hn
  refine ⟨d, ?_, rfl⟩
  rcases r with e | _ | d'
  · cases hd
  · cases hd
  · exact Option.some.inj hd ▸ hr

/-- A call returns the manifest of another server and takes a handshake from the handler. Of two
servers that greet each other none gets anything. -/
theorem greetings_lost :
    (∃ t, exec LinkFace.step {} misfetched = some t ∧
      (∃ d, (manifestInterest true, .ok (some d)) ∈ t.replies ∧
        d.name ≠ (manifestInterest true).name) ∧
      t.queue.selected LinkFace.handled ≠ t.queue.selected LinkFace.unanswering) ∧
    ∃ t, exec step greetedEnds unanswered = some t ∧
      ∀ x, (t x).reader = .waiting ∧ (t x).queue.items = [] ∧ ¬ (t x).Obtained := by
  constructor
  · obtain ⟨t, ht, hobs⟩ := Option.map_eq_some_iff.mp
      (show (exec LinkFace.step {} misfetched).map (fun t =>
          (t.replies.map fun r => (r.1, r.2.toOption.join.map Data.name),
            (t.queue.selected LinkFace.handled).length,
            (t.queue.selected LinkFace.unanswering).length)) =
          some ([(manifestInterest true, some (manifest false).name)], 0, 2) by decide +kernel)
    obtain ⟨hreplies, hlengths⟩ := Prod.mk.inj hobs
    obtain ⟨hhandled, hothers⟩ := Prod.mk.inj hlengths
    refine ⟨t, ht, ?_, fun h => ?_⟩
    · obtain ⟨d, hd, hn⟩ := mem_replies_of_join (s := t) (hreplies ▸ List.mem_cons_self) rfl
      refine ⟨d, hd, ?_⟩
      rw [hn]
      decide
    · rw [h, hothers] at hhandled
      cases hhandled
  · obtain ⟨t, ht, hobs⟩ := Option.map_eq_some_iff.mp
      (show (exec step greetedEnds unanswered).map (fun t => [true, false].map fun x =>
          ((t x).reader, (t x).queue.items, (t x).replies.map fun r => r.2.toOption.join.isSome)) =
          some [(.waiting, [], [false]), (.waiting, [], [false])] by decide +kernel)
    refine ⟨t, ht, fun x => ?_⟩
    have hx : ((t x).reader, (t x).queue.items,
        (t x).replies.map fun r => r.2.toOption.join.isSome) = (.waiting, [], [false]) := by
      obtain ⟨htrue, hfalse⟩ := List.cons.inj hobs
      cases x
      · exact (List.cons.inj hfalse).1
      · exact htrue
    obtain ⟨hreader, hx⟩ := Prod.mk.inj hx
    obtain ⟨hitems, hreplies⟩ := Prod.mk.inj hx
    refine ⟨hreader, hitems, ?_⟩
    rintro ⟨i, d, hr⟩
    have hmem := List.mem_map_of_mem (f := fun r => r.2.toOption.join.isSome) hr
    rw [hreplies] at hmem
    cases List.mem_singleton.mp hmem

end Ends

end RnsIcn
