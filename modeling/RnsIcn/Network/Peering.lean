import Mathlib.Data.Fintype.Prod
import RnsIcn.Lib.Flood
import RnsIcn.Server.Propagation

/-! # Peered servers

Servers are joined by peering links, in any topology. What a server hands to a face
arrives at the other end of the link, late and in any order. Published Data floods
the servers that can store it.
-/

namespace RnsIcn

open Effect Transition Server

structure Peering (ι D : Type*) extends Wiring ι D where
  face : D → FaceId
  face_inj : ∀ e e', src e = src e' → face e = face e' → e = e'

structure Overlay (ι : Type*) where
  servers : ι → Server
  transit : List (ι × FaceId × Packet)

/-- A packet that arrives over a link, and what its handler takes from outside. -/
structure Arrival (D : Type*) where
  link : D
  packet : Packet
  drawn : Drawn

namespace Peering

variable {ι D : Type*}

/-- The peers of each server are the links that begin there. -/
structure Joins (P : Peering ι D) (servers : ι → Server) : Prop where
  peers : ∀ v face, face ∈ (servers v).peers.keys ↔ ∃ e, P.src e = v ∧ P.face e = face
  faces : ∀ e, P.face e ∈ (servers (P.src e)).faces

end Peering

namespace Overlay

variable {ι D : Type*} [DecidableEq ι] {P : Peering ι D} {o o₀ o' : Overlay ι} {v : ι} {d : Data}
  {e e' : D} {raw : Bytes}

/-- Server `v` has moved on to `t`. What it sent on the way is in transit. -/
def moved (o : Overlay ι) (v : ι) (t : Server) : Overlay ι where
  servers := Function.update o.servers v t
  transit := o.transit ++
    (t.sent.take (t.sent.length - (o.servers v).sent.length)).map fun x => (v, x)

def without (o : Overlay ι) (x : ι × FaceId × Packet) : Overlay ι :=
  { o with transit := o.transit.erase x }

def carried (P : Peering ι D) (o : Overlay ι) (e : D) : ℕ :=
  o.transit.countP fun x => x.1 = P.src e ∧ x.2.1 = P.face e

variable [Hashlib]

def publishPushed (o : Overlay ι) (v : ι) (d : Data) : Overlay ι :=
  o.moved v (after (Server.publishPushed d) (o.servers v))

def arrive (P : Peering ι D) (o : Overlay ι) (a : Arrival D) : Option (Overlay ι) :=
  let sent := (P.src a.link, P.face a.link, a.packet)
  let v := P.dst a.link
  if sent ∈ o.transit then
    a.packet.toBytes.toOption.map fun raw =>
      (o.without sent).moved v
        (after (handleIncoming (P.face (P.rev a.link)) raw a.drawn) (o.servers v))
  else none

/-- How often the subscription of the far end of a link has `v` send it what it publishes. -/
def pushes (P : Peering ι D) (o : Overlay ι) (v : ι) (n : Name) (e : D) : ℕ :=
  if P.src e = v ∧ P.face e ∈ (o.servers v).subscriberFaces n then 1 else 0

/-- The server can store what the bytes are read as. -/
def Relays (o : Overlay ι) (raw : Bytes) (v : ι) : Prop := (o.servers v).Takes raw

section Moved

omit [Hashlib]

variable {t : Server} {count : FaceId → ℕ}

theorem moved_self (o : Overlay ι) (v : ι) (t : Server) : (o.moved v t).servers v = t :=
  Function.update_self ..

theorem moved_of_ne {w : ι} (h : w ≠ v) : (o.moved v t).servers w = o.servers w :=
  Function.update_of_ne h ..

theorem moved_transit {new : List (FaceId × Packet)}
    (h : t.sent = new ++ (o.servers v).sent) :
    (o.moved v t).transit = o.transit ++ new.map fun x => (v, x) := by
  rw [moved, h]
  simp

theorem carried_moved (h : Sends (o.servers v) t raw count) (e : D) :
    (o.moved v t).carried P e = o.carried P e + if P.src e = v then count (P.face e) else 0 := by
  obtain ⟨new, hs, -, hc⟩ := h
  rw [carried, carried, moved_transit hs, List.countP_append, List.countP_map]
  congr 1
  split
  · rename_i he
    rw [← hc]
    refine List.countP_congr fun x _ => ?_
    simp [he]
  · rename_i he
    refine List.countP_eq_zero.mpr fun x _ => ?_
    simp [Ne.symm he]

theorem packets_moved (h : Sends (o.servers v) t raw count)
    (ho : ∀ x ∈ o.transit, x.2.2.toBytes = .ok raw) :
    ∀ x ∈ (o.moved v t).transit, x.2.2.toBytes = .ok raw := by
  obtain ⟨new, hs, hb, -⟩ := h
  rw [moved_transit hs]
  intro x hx
  rcases List.mem_append.mp hx with hx | hx
  · exact ho x hx
  · obtain ⟨y, hy, rfl⟩ := List.mem_map.mp hx
    exact hb y hy

theorem timesSent_moved (h : Sends (o.servers v) t raw count) (e : D) :
    ((o.moved v t).servers (P.src e)).timesSent (P.face e) raw =
      (o.servers (P.src e)).timesSent (P.face e) raw +
        if P.src e = v then count (P.face e) else 0 := by
  split
  · rename_i he
    rw [he, moved_self, h.timesSent]
  · rename_i he
    rw [moved_of_ne he, Nat.add_zero]

theorem timesSent_moved_ne {other : Bytes} (h : Sends (o.servers v) t raw count)
    (hne : other ≠ raw) (w : ι) (face : FaceId) :
    ((o.moved v t).servers w).timesSent face other = (o.servers w).timesSent face other := by
  by_cases hw : w = v
  · subst hw
    rw [moved_self, h.timesSent_ne hne]
  · rw [moved_of_ne hw]

theorem setup_moved (h : SameSetup (o.servers v) t)
    (ho : ∀ w, SameSetup (o₀.servers w) (o.servers w)) (w : ι) :
    SameSetup (o₀.servers w) ((o.moved v t).servers w) := by
  by_cases hw : w = v
  · subst hw
    rw [moved_self]
    exact (ho w).trans h
  · rw [moved_of_ne hw]
    exact ho w

end Moved

/-- The overlay behaves like a flood of the relays: it carries and has sent as much over each link,
above what had been sent over it before. -/
structure Mirrors (P : Peering ι D) (o₀ : Overlay ι) (raw : Bytes) (base : D → ℕ) (o : Overlay ι)
    (s : Wiring.Flood D) : Prop where
  setup : ∀ w, SameSetup (o₀.servers w) (o.servers w)
  packets : ∀ x ∈ o.transit, x.2.2.toBytes = .ok raw
  carried : ∀ e, o.carried P e = s.transit e
  sent : ∀ e, (o.servers (P.src e)).timesSent (P.face e) raw = base e + s.sent e
  other : ∀ w face b, b ≠ raw →
    (o.servers w).timesSent face b = (o₀.servers w).timesSent face b

variable {base : D → ℕ} {s s' : Wiring.Flood D} {a : Arrival D}

/-- An arrival has the server at the end of the link pass on what a relay passes on. -/
theorem after_arrival (hP : P.Joins o₀.servers) (hraw : IsData raw) {u : Server}
    (hu : SameSetup (o₀.servers (P.dst e)) u) (drawn : Drawn) :
    ∃ count, Sends u (after (handleIncoming (P.face (P.rev e)) raw drawn) u) raw count ∧
      SameSetup u (after (handleIncoming (P.face (P.rev e)) raw drawn) u) ∧
      ∀ e', (if P.src e' = P.dst e then count (P.face e') else 0) =
        Wiring.Flood.passed P.toWiring (o₀.Relays raw) e e' := by
  have hpeer : u.peers.contains (P.face (P.rev e)) = true := by
    rw [hu.peers, Dict.contains_iff, ← Dict.mem_keys, hP.peers]
    exact ⟨P.rev e, rfl, rfl⟩
  obtain ⟨hset, hno, hyes⟩ := after_copy drawn hraw hpeer
  by_cases htakes : u.Takes raw
  · have hrelays : o₀.Relays raw (P.dst e) := hu.takes.mp htakes
    refine ⟨_, hyes htakes, hset, fun e' => ?_⟩
    by_cases hsrc : P.src e' = P.dst e
    · have hpres : P.face e' ∈ u.faces := by
        rw [hu.faces, ← hsrc]
        exact hP.faces e'
      have hkey : P.face e' ∈ u.peers.keys := by
        rw [hu.peers, hP.peers]
        exact ⟨e', hsrc, rfl⟩
      have hback : P.face e' = P.face (P.rev e) ↔ e' = P.rev e :=
        ⟨P.face_inj e' (P.rev e) hsrc, fun h => congrArg P.face h⟩
      have hmem : P.face e' ∈ u.propagationFaces (some (P.face (P.rev e))) ↔ e' ≠ P.rev e := by
        rw [propagationFaces, List.mem_filter, Ne, ← hback]
        simp [hkey]
      by_cases hne : e' = P.rev e
      · rw [if_pos hsrc, if_neg fun h => hmem.mp h.1 hne,
          Wiring.Flood.passed_eq_zero fun hp => hp.onward hne]
      · rw [if_pos hsrc, if_pos ⟨hmem.mpr hne, hpres⟩,
          Wiring.Flood.passed_eq_one ⟨hsrc, hne, hrelays⟩]
    · rw [if_neg hsrc, Wiring.Flood.passed_eq_zero fun hp => hsrc hp.joins]
  · refine ⟨_, hno htakes, hset, fun e' => ?_⟩
    rw [ite_self, Wiring.Flood.passed_eq_zero fun hp => htakes (hu.takes.mpr hp.relays)]

theorem Mirrors.arrive (hP : P.Joins o₀.servers) (hraw : IsData raw)
    (h : Mirrors P o₀ raw base o s) (ha : o.arrive P a = some o') :
    ∃ s', Wiring.Flood.step P.toWiring (o₀.Relays raw) s a.link = some s' ∧
      Mirrors P o₀ raw base o' s' := by
  rw [Overlay.arrive] at ha
  split at ha
  · rename_i hmem
    obtain ⟨b, hb, rfl⟩ := Option.map_eq_some_iff.mp ha
    have hpos : 0 < s.transit a.link := by
      rw [← h.carried]
      exact List.countP_pos_iff.mpr ⟨_, hmem, by simp⟩
    obtain rfl : b = raw := by
      have hraw' := h.packets _ hmem
      dsimp only at hraw'
      rw [hraw'] at hb
      exact (Option.some.inj hb).symm
    obtain ⟨count, hsends, hset, hpassed⟩ :=
      after_arrival hP hraw (e := a.link) (h.setup (P.dst a.link)) a.drawn
    obtain ⟨s', hs⟩ : ∃ s', Wiring.Flood.step P.toWiring (o₀.Relays b) s a.link = some s' :=
      ⟨_, if_pos hpos⟩
    obtain ⟨-, hsent, hself, hother⟩ := Wiring.Flood.step_eq_some hs
    set x := (P.src a.link, P.face a.link, a.packet)
    have hwithout (e : D) : (o.without x).carried P e =
        s.transit e - if P.src a.link = P.src e ∧ P.face a.link = P.face e then 1 else 0 := by
      rw [Overlay.carried, without, List.countP_erase, ← Overlay.carried, h.carried]
      simp [hmem, x]
    have hsends' : Sends ((o.without x).servers (P.dst a.link)) _ b count := hsends
    refine ⟨s', hs, setup_moved (o := o.without x) hset h.setup, packets_moved hsends' fun y hy =>
      h.packets y (List.mem_of_mem_erase hy), fun e => ?_, fun e => ?_, fun w face b' hne => ?_⟩
    · rw [carried_moved hsends', hpassed, hwithout]
      by_cases he : e = a.link
      · rw [he, if_pos ⟨rfl, rfl⟩, hself]
      · rw [if_neg fun hl => he (P.face_inj _ _ hl.1 hl.2).symm, hother e he, Nat.sub_zero]
    · have hmoved := timesSent_moved (P := P) hsends' e
      rw [hpassed] at hmoved
      rw [hmoved, hsent, ← Nat.add_assoc, ← h.sent]
      rfl
    · exact (timesSent_moved_ne hsends' hne w face).trans (h.other w face b' hne)
  · cases ha

theorem Mirrors.exists_arrive (h : Mirrors P o₀ raw base o s) (hpos : 0 < s.transit e) :
    ∃ a o', a.link = e ∧ o.arrive P a = some o' := by
  rw [← h.carried, Overlay.carried, List.countP_pos_iff] at hpos
  obtain ⟨⟨w, face, p⟩, hmem, hx⟩ := hpos
  obtain ⟨rfl, rfl⟩ : w = P.src e ∧ face = P.face e := by simpa using hx
  have hp : p.toBytes = .ok raw := h.packets _ hmem
  have harr : ∃ o', o.arrive P ⟨e, p, ⟨[], [], []⟩⟩ = some o' := by
    rw [Overlay.arrive]
    simp [hmem, hp]
  obtain ⟨o', ho'⟩ := harr
  exact ⟨_, o', rfl, ho'⟩

theorem Mirrors.run (hP : P.Joins o₀.servers) (hraw : IsData raw)
    (h : Mirrors P o₀ raw base o s) {as : List (Arrival D)}
    (hr : Run (Overlay.arrive P) anyStep o as o') :
    ∃ es s', Run (Wiring.Flood.step P.toWiring (o₀.Relays raw)) anyStep s es s' ∧
      Mirrors P o₀ raw base o' s' := by
  induction hr generalizing s with
  | nil => exact ⟨[], s, .nil s, h⟩
  | cons _ ha _ ih =>
    obtain ⟨s₁, hs₁, h₁⟩ := h.arrive hP hraw ha
    obtain ⟨es, s', hrun, h'⟩ := ih h₁
    exact ⟨_, s', .cons trivial hs₁ hrun, h'⟩

theorem Mirrors.exists_run (hP : P.Joins o₀.servers) (hraw : IsData raw)
    (h : Mirrors P o₀ raw base o s) {es : List D}
    (hr : Run (Wiring.Flood.step P.toWiring (o₀.Relays raw)) anyStep s es s') :
    ∃ as o', Run (Overlay.arrive P) anyStep o as o' ∧ Mirrors P o₀ raw base o' s' := by
  induction hr generalizing o with
  | nil => exact ⟨[], o, .nil o, h⟩
  | @cons s s₁ _ e _ _ hs _ ih =>
    obtain ⟨a, o₁, rfl, ha⟩ := h.exists_arrive (Wiring.Flood.step_eq_some hs).1
    obtain ⟨s₁', hs₁', h₁⟩ := h.arrive hP hraw ha
    obtain rfl := Option.some.inj (hs.symm.trans hs₁')
    obtain ⟨as, o', hrun, h'⟩ := ih h₁
    exact ⟨_, o', .cons trivial ha hrun, h'⟩

/-- Publishing starts the flood. The far ends that subscribe get a second copy. -/
theorem mirrors_publishPushed (hP : P.Joins o.servers) (ht : o.transit = []) {d' : Data}
    (hd : (o.servers v).published d = .ok d') (hb : d'.toBytes = .ok raw) :
    Mirrors P o raw
      (fun e => (o.servers (P.src e)).timesSent (P.face e) raw + o.pushes P v d.name e)
      (o.publishPushed v d) (Wiring.Flood.start P.toWiring v (o.pushes P v d.name)) := by
  obtain ⟨hset, hsends⟩ := after_publishPushed hd hb
  have hstart (e : D) :
      (if P.src e = v then
        (if P.face e ∈ (o.servers v).subscriberFaces d.name ∧ P.face e ∈ (o.servers v).faces
          then 1 else 0) +
        if P.face e ∈ (o.servers v).propagationFaces none ∧ P.face e ∈ (o.servers v).faces
          then 1 else 0
        else 0) = o.pushes P v d.name e + if P.src e = v then 1 else 0 := by
    by_cases hsrc : P.src e = v
    · have hpres : P.face e ∈ (o.servers v).faces := hsrc ▸ hP.faces e
      have hkey : P.face e ∈ (o.servers v).propagationFaces none := by
        simpa [propagationFaces] using (hP.peers v _).mpr ⟨e, hsrc, rfl⟩
      simp [pushes, hsrc, hpres, hkey]
    · simp [pushes, hsrc]
  refine ⟨setup_moved hset fun w => .refl _, packets_moved hsends (by simp [ht]), fun e => ?_,
    fun e => ?_, fun w face b hne => timesSent_moved_ne hsends hne w face⟩
  · rw [publishPushed, carried_moved hsends, hstart]
    simp [carried, ht, Wiring.Flood.start]
  · rw [publishPushed, timesSent_moved hsends, hstart]
    simp [Wiring.Flood.start, Nat.add_assoc]

/-- Published Data is sent at most once over each link and direction, besides what subscriptions of
the publisher bring about, exactly if the servers that can store it have no circuit of links that
the publisher reaches, and no subscribing peer of the publisher that can store it has another
peer. -/
theorem propagates_once_iff (hP : P.Joins o.servers) (ht : o.transit = []) (hd : d.FixedWidths) :
    (∀ as t, Run (arrive P) anyStep (o.publishPushed v d) as t → ∀ e raw,
      (t.servers (P.src e)).timesSent (P.face e) raw ≤
        (o.servers (P.src e)).timesSent (P.face e) raw + o.pushes P v d.name e + 1) ↔
    ∀ d' raw, (o.servers v).published d = .ok d' → d'.toBytes = .ok raw →
      ¬ P.Circuit (o.Relays raw) v ∧
        ∀ e e', 0 < o.pushes P v d.name e → ¬ P.Passes (o.Relays raw) e e' := by
  have hsrc (e : D) (he : 0 < o.pushes P v d.name e) : P.src e = v := by
    by_contra hne
    simp [pushes, hne] at he
  have hdata {d' : Data} {raw : Bytes} (hp : (o.servers v).published d = .ok d')
      (hb : d'.toBytes = .ok raw) : IsData raw ∧ ∀ w, o.Relays raw w → o.Relays raw v :=
    ⟨isData_of_toBytes ((published_eq_ok hp).2.1 hd) hb, fun w ⟨d'', hd'', _⟩ =>
      takes_published hd hp hb ⟨d'', hd''⟩⟩
  constructor
  · intro h d' raw hp hb
    obtain ⟨hraw, hv⟩ := hdata hp hb
    have hm := mirrors_publishPushed hP ht hp hb
    refine (Wiring.Flood.sent_le_one_iff hv hsrc).mp fun es s hrun e => ?_
    obtain ⟨as, t, hrun', hm'⟩ := hm.exists_run hP hraw hrun
    have hle := h as t hrun' e raw
    rw [hm'.sent] at hle
    omega
  · intro h as t hrun e raw
    by_cases hx : ∃ d' b, (o.servers v).published d = .ok d' ∧ d'.toBytes = .ok b
    · obtain ⟨d', b, hp, hb⟩ := hx
      obtain ⟨hraw, hv⟩ := hdata hp hb
      obtain ⟨es, s, hrun', hm⟩ := (mirrors_publishPushed hP ht hp hb).run hP hraw hrun
      by_cases hne : raw = b
      · have hle := (Wiring.Flood.sent_le_one_iff hv hsrc).mpr (h d' b hp hb) es s hrun' e
        rw [hne, hm.sent]
        omega
      · rw [hm.other _ _ raw hne]
        omega
    · -- Nothing is sent, so nothing arrives.
      have hsent : (after (Server.publishPushed d) (o.servers v)).sent = (o.servers v).sent :=
        sent_publishPushed fun d' b hp hb => hx ⟨d', b, hp, hb⟩
      have hempty : (o.publishPushed v d).transit = [] := by
        rw [publishPushed, moved_transit (hsent.trans (List.nil_append _).symm), ht]
        rfl
      have hsame (w : ι) (face : FaceId) : ((o.publishPushed v d).servers w).timesSent face raw =
          (o.servers w).timesSent face raw := by
        by_cases hw : w = v
        · subst hw
          rw [publishPushed, moved_self, timesSent, hsent, ← timesSent]
        · rw [publishPushed, moved_of_ne hw]
      cases hrun with
      | nil =>
        rw [hsame]
        omega
      | cons _ ha _ => simp [arrive, hempty] at ha

omit [DecidableEq ι] [Hashlib]

def peered (addr : UInt8) (peers : List UInt8) : Server where
  rnsAddr := List.replicate 16 addr
  faces := (List.range peers.length).map (100 + ·)
  peers := (peers.zipIdx 100).foldl (fun m x => m.set x.2 (List.replicate 16 x.1)) .empty

def pair : Peering Bool Bool where
  src := id
  rev := not
  rev_rev := Bool.not_not
  rev_ne := by decide
  face _ := 100
  face_inj _ _ h _ := h

def pairOverlay : Overlay Bool := ⟨fun v => if v then peered 1 [2] else peered 2 [1], []⟩

/-- `(v, true)` leads from `v` to the next server and `(v, false)` to the one before. -/
def circle : Peering (Fin 3) (Fin 3 × Bool) where
  src := Prod.fst
  rev e := if e.2 then (e.1 + 1, false) else (e.1 - 1, true)
  rev_rev := by decide
  rev_ne := by decide
  face e := if e.2 then 100 else 101
  face_inj := by decide

def circleOverlay : Overlay (Fin 3) :=
  ⟨fun v => peered v.val.toUInt8 [(v + 1).val.toUInt8, (v - 1).val.toUInt8], []⟩

theorem pair_joins : pair.Joins pairOverlay.servers where
  peers v face := by
    have hkeys : (pairOverlay.servers v).peers.keys = [100] := by cases v <;> rfl
    rw [hkeys]
    simp [pair, eq_comm]
  faces e := by cases e <;> decide

theorem circle_joins : circle.Joins circleOverlay.servers where
  peers v face := by
    have hkeys : ∀ v, (circleOverlay.servers v).peers.keys = [100, 101] := by decide
    rw [hkeys]
    constructor
    · intro hf
      rcases List.mem_pair.mp hf with rfl | rfl
      · exact ⟨(v, true), rfl, rfl⟩
      · exact ⟨(v, false), rfl, rfl⟩
    · rintro ⟨⟨w, b⟩, -, rfl⟩
      cases b
      · exact List.mem_pair.mpr (.inr rfl)
      · exact List.mem_pair.mpr (.inl rfl)
  faces := by decide

theorem injected_widths : injected.FixedWidths := ⟨rfl, nofun, nofun, nofun⟩

/-- Between two servers published Data is sent at most once over each link. -/
theorem pair_propagates_once :
    letI := Data.paddedHash
    pair.Joins pairOverlay.servers ∧
      ∀ as t, Run (arrive pair) anyStep (pairOverlay.publishPushed true injected) as t →
        ∀ e raw, (t.servers (pair.src e)).timesSent (pair.face e) raw ≤
          (pairOverlay.servers (pair.src e)).timesSent (pair.face e) raw +
            pairOverlay.pushes pair true injected.name e + 1 := by
  let := Data.paddedHash
  have hno (relays : Bool → Prop) (e e' : Bool) : ¬ pair.Passes relays e e' :=
    fun h => h.onward h.joins
  refine ⟨pair_joins, (propagates_once_iff pair_joins rfl injected_widths).mpr
    fun d' raw _ _ => ⟨?_, fun e e' _ => hno _ e e'⟩⟩
  rintro ⟨e, -, hloop⟩
  obtain ⟨e', hp, -⟩ := Relation.TransGen.head'_iff.mp hloop
  exact hno _ e e' hp

def aroundCircle : List (Arrival (Fin 3 × Bool)) :=
  [(0, true), (1, true), (2, true)].map fun e => ⟨e, .data injected, drawn⟩

/-- Then the publisher has sent it twice to the same peer. -/
theorem circle_sends_twice :
    letI := Data.paddedHash
    circle.Joins circleOverlay.servers ∧ circleOverlay.transit = [] ∧ injected.FixedWidths ∧
      ¬ ∀ as t, Run (arrive circle) anyStep (circleOverlay.publishPushed 0 injected) as t →
        ∀ e raw, (t.servers (circle.src e)).timesSent (circle.face e) raw ≤
          (circleOverlay.servers (circle.src e)).timesSent (circle.face e) raw +
            circleOverlay.pushes circle 0 injected.name e + 1 := by
  let := Data.paddedHash
  refine ⟨circle_joins, rfl, injected_widths, fun h => ?_⟩
  have hsent : (Transition.exec (arrive circle) (circleOverlay.publishPushed 0 injected)
      aroundCircle).any fun t =>
        (t.servers 0).timesSent 100 (wireBytes (.data injected)) = 2 := by decide
  obtain ⟨t, ht, htwo⟩ := (Option.any_eq_true _ _).mp hsent
  have hle := h aroundCircle t (run_of_exec ht) (0, true) (wireBytes (.data injected))
  have htwo : (t.servers 0).timesSent 100 (wireBytes (.data injected)) = 2 := by simpa using htwo
  have hbase : (circleOverlay.servers 0).timesSent 100 (wireBytes (.data injected)) +
      circleOverlay.pushes circle 0 injected.name (0, true) + 1 = 1 := by decide
  exact absurd (htwo.symm.le.trans (hle.trans hbase.le)) (by decide)

end Overlay

end RnsIcn
