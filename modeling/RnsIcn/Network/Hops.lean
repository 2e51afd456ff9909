import RnsIcn.Forwarder.Hops
import RnsIcn.Wire.RoundTrip

/-! # A network of forwarders

Forwarders exchange Interest packets in any topology: what one of them sends may
reach any other on any face, late, repeatedly or never. Every forwarding takes
one from the hop limit, so a chain of them is no longer than the hop limit of
the Interest that started it.
-/

namespace RnsIcn

open Transition Forwarder

/-- What `__post_init__` demands of an Interest. -/
structure Interest.Checked (i : Interest) : Prop where
  nonce : i.nonce.length = 8
  hopLimit : i.hopLimit ≤ 0xFF

open Fallible in
theorem Interest.fromBytes_checked {b : Bytes} {i : Interest}
    (h : Interest.fromBytes b = .ok i) : i.Checked := by
  simp only [Interest.fromBytes, bind_eq_ok, pure_eq_ok, Prod.exists] at h
  obtain ⟨_, -, _, _, -, _, _, -, nonce, _, hnonce, _, _, -, _, _, -, _, _, -, hop, _, -, rfl⟩ := h
  refine ⟨Parse.readBytes_length hnonce, ?_⟩
  cases hop with
  | none => exact (by decide : DEFAULT_HOP_LIMIT ≤ 0xFF)
  | some b => exact Nat.le_of_lt_succ b.toNat_lt

/-- An Interest packet that was sent, and the call of the node that sent it. -/
structure SentInterest (ι : Type*) where
  node : ι
  call : CallId
  face : FaceId
  interest : Interest

/-- The Interest that a call handles and the packet that brought it, if it came over a face. -/
structure Handled where
  interest : Interest
  via : Option ℕ

/-- Forwarders, the Interests that their calls handle, and all packets sent so far. -/
structure Mesh (ι : Type*) where
  nodes : ι → Forwarder
  handled : ι → CallId → Option Handled
  packets : List (SentInterest ι)

namespace Mesh

variable {ι : Type*} [DecidableEq ι]

/-- An application asks a node, packet `k` reaches a node, or a node runs. -/
inductive Label (ι : Type*) where
  | request (n : ι) (i : Interest) (inFace : FaceId) (nonce : Bytes)
  | deliver (n : ι) (k : ℕ) (inFace : FaceId) (nonce : Bytes)
  | run (n : ι) (l : Forwarder.Label)

def isExpress : Forwarder.Label → Bool
  | .express .. => true
  | _ => false

variable [Hashlib]

omit [Hashlib] in
def moved (N : Mesh ι) (n : ι) (h : Option Handled) (t : Forwarder) : Mesh ι where
  nodes := Function.update N.nodes n t
  handled m c :=
    if m = n ∧ (N.nodes n).loop.nextCall ≤ c ∧ c < t.loop.nextCall then h else N.handled m c
  packets := N.packets ++
    ((sentPacket (N.nodes n) t).map fun (c, face, i) => ⟨n, c, face, i⟩).toList

def act (N : Mesh ι) (n : ι) (h : Option Handled) (l : Forwarder.Label) : Option (Mesh ι) :=
  (Forwarder.step (N.nodes n) l).map (N.moved n h)

def arriving (N : Mesh ι) (k : ℕ) : Option Interest :=
  N.packets[k]?.bind fun p =>
    p.interest.toBytes.toOption.bind fun raw => (Interest.fromBytes raw).toOption

def step (N : Mesh ι) : Label ι → Option (Mesh ι)
  | .request n i inFace nonce => N.act n (some ⟨i, none⟩) (.express i inFace nonce)
  | .deliver n k inFace nonce =>
    (N.arriving k).bind fun i => N.act n (some ⟨i, some k⟩) (.express i inFace nonce)
  | .run n l => if isExpress l then none else N.act n none l

omit [DecidableEq ι] [Hashlib] in
/-- Interests are built by the constructor and nonces are of eight bytes. -/
def Label.Checked : Label ι → Prop
  | .request _ i _ nonce => i.Checked ∧ nonce.length = 8
  | .deliver _ _ _ nonce => nonce.length = 8
  | .run _ _ => True

omit [DecidableEq ι] [Hashlib] in
structure Initial (N : Mesh ι) : Prop where
  nodes : ∀ n, (N.nodes n).Initial
  handled : ∀ n c, N.handled n c = none
  packets : N.packets = []

variable {N M : Mesh ι} {n : ι} {c : CallId} {k : ℕ} {h : Handled}

omit [DecidableEq ι] [Hashlib] in
theorem arriving_eq {i : Interest} (ha : N.arriving k = some i) :
    ∃ p raw, N.packets[k]? = some p ∧ p.interest.toBytes = .ok raw ∧
      Interest.fromBytes raw = .ok i := by
  obtain ⟨p, hp, ha⟩ := Option.bind_eq_some_iff.mp ha
  obtain ⟨raw, hraw, ha⟩ := Option.bind_eq_some_iff.mp ha
  exact ⟨p, raw, hp, Fallible.toOption_eq_some.mp hraw, Fallible.toOption_eq_some.mp ha⟩

/-- Every call handles an Interest, and every packet has the hop limit of what its call handles
less one. -/
structure Lowers (N : Mesh ι) : Prop where
  consistent : ∀ n, (N.nodes n).Consistent
  calls : ∀ n c call, (N.nodes n).loop.calls c = some call →
    ∃ h, N.handled n c = some h ∧ Handles h.interest call
  known : ∀ n c h, N.handled n c = some h →
    c < (N.nodes n).loop.nextCall ∧ h.interest.Checked
  packets : ∀ p ∈ N.packets, ∃ h, N.handled p.node p.call = some h ∧
    h.interest.Serves p.interest ∧ p.interest.hopLimit + 1 = h.interest.hopLimit
  via : ∀ n c h k, N.handled n c = some h → h.via = some k → N.arriving k = some h.interest
  attempts : ∀ n c face start, .attempt c face start ∈ (N.nodes n).loop.log →
    ∃ p ∈ N.packets, p.node = n ∧ p.call = c ∧ p.face = face

omit [DecidableEq ι] [Hashlib] in
theorem Initial.lowers (h : N.Initial) : N.Lowers where
  consistent n := (h.nodes n).consistent
  calls n c call hc := by simp [(h.nodes n).calls] at hc
  known n c _ hc := by simp [h.handled] at hc
  packets p hp := by simp [h.packets] at hp
  via n c _ _ hc := by simp [h.handled] at hc
  attempts n c face start he := by simp [(h.nodes n).log] at he

section Moved

variable {m : ι} {h? : Option Handled} {t : Forwarder}

omit [Hashlib]

@[simp] theorem moved_nodes_self (N : Mesh ι) (n : ι) (h? : Option Handled) (t : Forwarder) :
    (N.moved n h? t).nodes n = t := Function.update_self ..

theorem moved_nodes_ne (hm : m ≠ n) : (N.moved n h? t).nodes m = N.nodes m :=
  Function.update_of_ne hm ..

theorem moved_handled_new (hge : (N.nodes n).loop.nextCall ≤ c) (hlt : c < t.loop.nextCall) :
    (N.moved n h? t).handled n c = h? := if_pos ⟨rfl, hge, hlt⟩

theorem Lowers.moved_handled (hN : N.Lowers) (hc : N.handled m c = some h) :
    (N.moved n h? t).handled m c = some h := by
  refine (if_neg ?_).trans hc
  rintro ⟨rfl, hle, -⟩
  exact absurd (hN.known m c h hc).1 (Nat.not_lt_of_le hle)

theorem moved_handled_cases (hc : (N.moved n h? t).handled m c = some h) :
    m = n ∧ c < t.loop.nextCall ∧ h? = some h ∨ N.handled m c = some h := by
  rw [moved] at hc
  simp only at hc
  split at hc
  · rename_i hr
    exact .inl ⟨hr.1, hr.2.2, hc⟩
  · exact .inr hc

theorem moved_arriving {i : Interest} (ha : N.arriving k = some i) :
    (N.moved n h? t).arriving k = some i := by
  obtain ⟨p, hk, ha⟩ := Option.bind_eq_some_iff.mp ha
  rw [arriving, moved, List.getElem?_append_left (List.getElem?_eq_some_iff.mp hk).1, hk]
  exact ha

end Moved

section Step

variable {h? : Option Handled} {t : Forwarder} {l : Forwarder.Label}

/-- After an event every call handles an Interest: a new one that of the event. -/
theorem Lowers.moved_calls (hN : N.Lowers) (ht : Forwarder.step (N.nodes n) l = some t)
    (hl : ∀ i inFace nonce, l = .express i inFace nonce →
      nonce.length = 8 ∧ ∃ via, h? = some ⟨i, via⟩) (m : ι) (c : CallId) (call : Call)
    (hc : ((N.moved n h? t).nodes m).loop.calls c = some call) :
    ∃ h, (N.moved n h? t).handled m c = some h ∧ Handles h.interest call := by
  by_cases hm : m = n
  · subst hm
    rw [moved_nodes_self] at hc
    have ch := step_change ht
    cases hc₀ : (N.nodes m).loop.calls c with
    | some call₀ =>
      obtain ⟨h, hh, hhandles⟩ := hN.calls m c call₀ hc₀
      exact ⟨h, hN.moved_handled hh, Handles.step hhandles (hN.consistent m).loop hc₀ ht hc⟩
    | none =>
      obtain ⟨⟨i, inFace, nonce, rfl⟩, hge⟩ := (ch.spawned hc₀ hc).express
      obtain ⟨hn, via, rfl⟩ := hl i inFace nonce rfl
      have hlt := (step_consistent ht (hN.consistent m)).loop.lt hc
      obtain rfl := Option.some.inj ht
      exact ⟨⟨i, via⟩, moved_handled_new hge hlt, express_handles hn hc₀ hc⟩
  · rw [moved_nodes_ne hm] at hc
    obtain ⟨h, hh, hhandles⟩ := hN.calls m c call hc
    exact ⟨h, hN.moved_handled hh, hhandles⟩

theorem Lowers.moved_attempts (hN : N.Lowers) (ht : Forwarder.step (N.nodes n) l = some t)
    (m : ι) (c : CallId) (face : FaceId) (start : ℕ)
    (he : .attempt c face start ∈ ((N.moved n h? t).nodes m).loop.log) :
    ∃ p ∈ (N.moved n h? t).packets, p.node = m ∧ p.call = c ∧ p.face = face := by
  have hold (he : .attempt c face start ∈ (N.nodes m).loop.log) :
      ∃ p ∈ (N.moved n h? t).packets, p.node = m ∧ p.call = c ∧ p.face = face := by
    obtain ⟨p, hp, hpe⟩ := hN.attempts m c face start he
    exact ⟨p, List.mem_append_left _ hp, hpe⟩
  by_cases hm : m = n
  · subst hm
    rw [moved_nodes_self] at he
    rcases sentPacket_of_attempt ht he with he | ⟨j, hsent⟩
    · exact hold he
    · refine ⟨⟨m, c, face, j⟩, List.mem_append_right _ ?_, rfl, rfl, rfl⟩
      simp [hsent]
  · rw [moved_nodes_ne hm] at he
    exact hold he

theorem Lowers.act (hN : N.Lowers) (hact : N.act n h? l = some M)
    (hh : ∀ h, h? = some h → h.interest.Checked ∧
      ∀ k, h.via = some k → N.arriving k = some h.interest)
    (hl : ∀ i inFace nonce, l = .express i inFace nonce →
      nonce.length = 8 ∧ ∃ via, h? = some ⟨i, via⟩) : M.Lowers := by
  obtain ⟨t, ht, rfl⟩ := Option.map_eq_some_iff.mp hact
  have hcalls := hN.moved_calls ht hl
  refine ⟨fun m => ?_, hcalls, fun m c h hc => ?_, fun p hp => ?_, fun m c h k hc hk => ?_,
    hN.moved_attempts ht⟩
  · by_cases hm : m = n
    · subst hm
      rw [moved_nodes_self]
      exact step_consistent ht (hN.consistent m)
    · rw [moved_nodes_ne hm]
      exact hN.consistent m
  · rcases moved_handled_cases hc with ⟨rfl, hlt, he⟩ | hc
    · exact ⟨by rwa [moved_nodes_self], (hh h he).1⟩
    · obtain ⟨hlt, hck⟩ := hN.known m c h hc
      refine ⟨?_, hck⟩
      by_cases hm : m = n
      · subst hm
        rw [moved_nodes_self]
        exact hlt.trans_le (step_change ht).nextCall_le
      · rwa [moved_nodes_ne hm]
  · rcases List.mem_append.mp hp with hp | hp
    · obtain ⟨h, hh, hserves⟩ := hN.packets p hp
      exact ⟨h, hN.moved_handled hh, hserves⟩
    · obtain ⟨⟨c, face, j⟩, hsent, rfl⟩ := Option.map_eq_some_iff.mp (Option.mem_toList.mp hp)
      obtain ⟨call, rest, hc, hphase, rfl⟩ := sentPacket_eq ht hsent
      obtain ⟨h, hh, hhandles⟩ := hcalls n c call (by rwa [moved_nodes_self])
      exact ⟨h, hh, hhandles.serves, hhandles.lowered (by rw [hphase]; rfl)⟩
  · rcases moved_handled_cases hc with ⟨-, -, he⟩ | hc
    · exact moved_arriving ((hh h he).2 k hk)
    · exact moved_arriving (hN.via m c h k hc hk)

theorem Lowers.step {l : Label ι} (hN : N.Lowers) (hok : l.Checked) (hs : N.step l = some M) :
    M.Lowers := by
  cases l with
  | request n i inFace nonce =>
    refine hN.act hs ?_ ?_
    · rintro h ⟨⟩
      exact ⟨hok.1, nofun⟩
    · rintro i' inFace' nonce' ⟨⟩
      exact ⟨hok.2, none, rfl⟩
  | deliver n k inFace nonce =>
    obtain ⟨i, ha, hs⟩ := Option.bind_eq_some_iff.mp hs
    obtain ⟨p, raw, -, -, hraw⟩ := arriving_eq ha
    refine hN.act hs ?_ ?_
    · rintro h ⟨⟩
      refine ⟨Interest.fromBytes_checked hraw, ?_⟩
      rintro k' ⟨⟩
      exact ha
    · rintro i' inFace' nonce' ⟨⟩
      exact ⟨hok, some k, rfl⟩
  | run n l =>
    rw [Mesh.step] at hs
    split at hs
    · cases hs
    · rename_i hne
      refine hN.act hs nofun ?_
      rintro i inFace nonce rfl
      exact absurd rfl hne

theorem reachable_lowers (hs : Reachable Initial step (fun _ l => l.Checked) N) : N.Lowers :=
  hs.invariant (fun _ => Initial.lowers) fun _ _ _ hi hok hst => hi.step hok hst

omit [DecidableEq ι] [Hashlib] in
theorem Lowers.arriving_hopLimit (hN : N.Lowers) {i : Interest} (ha : N.arriving k = some i) :
    ∃ p ∈ N.packets, N.packets[k]? = some p ∧ i.hopLimit = p.interest.hopLimit := by
  obtain ⟨p, raw, hp, hraw, hi⟩ := arriving_eq ha
  have hmem := List.mem_of_getElem? hp
  obtain ⟨h, hh, hserves, hlow⟩ := hN.packets p hmem
  have hck := (hN.known _ _ h hh).2
  obtain ⟨nameBytes, -, hparse⟩ := Interest.fromBytes_toBytes hraw (hserves.nonce hck.nonce)
  rw [hparse] at hi
  cases hn : Name.fromBytes nameBytes with
  | error e => simp [hn, Except.map] at hi
  | ok name =>
    simp only [hn, Except.map, Except.ok.injEq] at hi
    obtain rfl := hi
    refine ⟨p, hmem, hp, Nat.mod_eq_of_lt ?_⟩
    have := hck.hopLimit
    omega

/-- Packets each of which was sent while its sender handled the one after it in the list, and the
last while its sender handled the Interest `i` of an application. -/
inductive Chain (N : Mesh ι) (i : Interest) : List ℕ → Prop where

  | start {k : ℕ} {p : SentInterest ι} : N.packets[k]? = some p →
      N.handled p.node p.call = some ⟨i, none⟩ → Chain N i [k]

  | next {k k' : ℕ} {ks : List ℕ} {p : SentInterest ι} {j : Interest} : Chain N i (k' :: ks) →
      N.packets[k]? = some p → N.handled p.node p.call = some ⟨j, some k'⟩ →
      Chain N i (k :: k' :: ks)

omit [DecidableEq ι] [Hashlib] in
theorem Chain.hopLimit (hN : N.Lowers) {i : Interest} {ks : List ℕ} (h : N.Chain i ks) :
    ∃ k ks' p, ks = k :: ks' ∧ N.packets[k]? = some p ∧
      p.interest.hopLimit + ks.length = i.hopLimit := by
  induction h with
  | @start k p hp hh =>
    obtain ⟨h, hh', -, hlow⟩ := hN.packets p (List.mem_of_getElem? hp)
    obtain rfl := Option.some.inj (hh'.symm.trans hh)
    exact ⟨k, [], p, rfl, hp, hlow⟩
  | @next k k' ks p j _ hp hh ih =>
    obtain ⟨_, _, q, he, hq, hlen⟩ := ih
    obtain ⟨rfl, rfl⟩ := List.cons.inj he
    obtain ⟨h, hh', -, hlow⟩ := hN.packets p (List.mem_of_getElem? hp)
    obtain rfl := Option.some.inj (hh'.symm.trans hh)
    obtain ⟨q', -, hq', hhop⟩ := hN.arriving_hopLimit (hN.via _ _ _ k' hh rfl)
    obtain rfl := Option.some.inj (hq'.symm.trans hq)
    refine ⟨k, k' :: ks, p, rfl, hp, ?_⟩
    have hlow : p.interest.hopLimit + 1 = j.hopLimit := hlow
    have hhop : j.hopLimit = q'.interest.hopLimit := hhop
    simp only [List.length_cons] at hlen ⊢
    omega

/-- In a network of forwarders every attempt is a packet with the hop limit of the Interest that
its call handles less one, both in the sender and on the wire, and a chain of packets started by
an Interest is no longer than its hop limit. -/
theorem hop_limit_bounds_chains (hs : Reachable Initial step (fun _ l => l.Checked) N) :
    (∀ n c face start, .attempt c face start ∈ (N.nodes n).loop.log →
      ∃ p ∈ N.packets, p.node = n ∧ p.call = c ∧ p.face = face) ∧
    (∀ p ∈ N.packets, ∃ h, N.handled p.node p.call = some h ∧ h.interest.Serves p.interest ∧
      h.interest.hopLimit ≠ 0 ∧ p.interest.hopLimit = h.interest.hopLimit - 1 ∧
      ∀ raw, p.interest.toBytes = .ok raw →
        raw.getLast?.map UInt8.toNat = some (h.interest.hopLimit - 1)) ∧
    (∀ n c h k, N.handled n c = some h → h.via = some k →
      ∃ p, N.packets[k]? = some p ∧ h.interest.hopLimit = p.interest.hopLimit) ∧
    ∀ i ks, N.Chain i ks → ks.length ≤ i.hopLimit := by
  have hN := reachable_lowers hs
  refine ⟨hN.attempts, fun p hp => ?_, fun n c h k hh hk => ?_, fun i ks hchain => ?_⟩
  · obtain ⟨h, hh, hserves, hlow⟩ := hN.packets p hp
    have hck := (hN.known _ _ h hh).2.hopLimit
    refine ⟨h, hh, hserves, by omega, by omega, fun raw hraw => ?_⟩
    rw [Interest.getLast?_toBytes hraw, ← hlow]
    simp only [Option.map_some, Nat.add_sub_cancel]
    rw [UInt8.toNat_ofNat_of_lt' (show _ < 256 by omega)]
  · obtain ⟨p, -, hp, hhop⟩ := hN.arriving_hopLimit (hN.via n c h k hh hk)
    exact ⟨p, hp, hhop⟩
  · obtain ⟨_, _, p, -, -, hlen⟩ := Chain.hopLimit hN hchain
    omega

end Step

def twoHops : Interest :=
  { name := relayName, nonce := List.replicate 8 0x01, lifetimeMs := 1000, hopLimit := 2 }

/-- One relay is asked; what it sends reaches the other, and what that sends comes back. -/
def roundTrip : List (Label Bool) :=
  [.request false twoHops 7 twoHops.nonce, .deliver true 0 9 twoHops.nonce,
    .deliver false 1 9 twoHops.nonce]

def roundTripAfter (count : ℕ) : Mesh Bool :=
  letI := Data.paddedHash
  let N : Mesh Bool := ⟨fun _ => relay [1], fun _ _ => none, []⟩
  (exec step N (roundTrip.take count)).getD N

omit [Hashlib] in
theorem round_trip_stops :
    letI := Data.paddedHash
    Reachable Initial step (fun _ l => l.Checked) (roundTripAfter 3) ∧
      (roundTripAfter 3).packets.length = 2 ∧ (roundTripAfter 3).Chain twoHops [1, 0] ∧
      [1, 0].length ≤ twoHops.hopLimit :=
  letI := Data.paddedHash
  have hck : twoHops.Checked := ⟨rfl, by decide⟩
  have hrun : Run step (fun _ l => Label.Checked l) (roundTripAfter 0) roundTrip
      (roundTripAfter 3) :=
    .cons (t := roundTripAfter 1) ⟨hck, rfl⟩ rfl
      (.cons (t := roundTripAfter 2) (show _ = 8 from rfl) rfl
        (.cons (t := roundTripAfter 3) (show _ = 8 from rfl) rfl (.nil _)))
  have hinit : Initial (roundTripAfter 0) := ⟨fun _ => relay_initial [1], fun _ _ => rfl, rfl⟩
  have hs : Reachable Initial step (fun _ l => Label.Checked l) (roundTripAfter 3) :=
    ⟨_, _, hinit, hrun⟩
  have hchain : (roundTripAfter 3).Chain twoHops [1, 0] := .next (.start rfl rfl) rfl rfl
  ⟨hs, rfl, hchain, (hop_limit_bounds_chains hs).2.2.2 twoHops [1, 0] hchain⟩

end Mesh

end RnsIcn
