import RnsIcn.Forwarder.Parsed
import RnsIcn.Server.Propagation

/-! # Editions that arrive in different orders

A Content Store writes what arrives over the row of its name and compares no versions.
A replica ends with the edition that it took last, so two replicas agree exactly if
their orders of arrival end alike.
-/

namespace RnsIcn

open Effect Fallible Transition

namespace Server

variable [Hashlib] {s t s₁ s₂ t₁ t₂ : Server} {n : Name} {d d' : Data} {l : Label}
  {ls ls₁ ls₂ : List Label} {editions : List Data}

/-- The row of the name in the Content Store. -/
def row (s : Server) (n : Name) : Option Row :=
  s.forwarder.cs.content.get? (blake2b n.withoutContentHash.encode)

/-- The row of the name is that of `d`, written at some time with some lifetime. -/
def Holds (s : Server) (n : Name) (d : Data) : Prop :=
  ∃ now ttl, s.row n = some (ContentStore.makeRow n.withoutContentHash.encode d now ttl)

/-- The Data for the name that a step hands to `handle_peer_data`. -/
def arrival (n : Name) : Server × Label × Server → Option Data
  | (s, .incoming face raw _, _) =>
    match parsePacket raw with
    | .ok (.data d) =>
      if s.peers.contains face ∧ d.name.withoutContentHash = n.withoutContentHash then some d
      else none
    | _ => none
  | _ => none

/-- The arrival that the Content Store takes: its insertion does not raise. -/
def taken (n : Name) (e : Server × Label × Server) : Option Data :=
  (arrival n e).filter fun d => (e.1.forwarder.cs.insert d.name d e.1.forwarder.time).isOk

/-- The row of the name is neither evicted nor expires, and nothing but arrivals writes it. -/
def Undisturbed (n : Name) (s : Server) (l : Label) : Prop :=
  ∀ t, step s l = some t →
    if (taken n (s, l, t)).isSome then (t.row n).isSome = true else t.row n = s.row n

/-- The Data for the name that a server receives from its peers, in this order. -/
def receivedEditions (n : Name) (s : Server) (ls : List Label) : List Data :=
  observed step (arrival n) s ls

/-- What its store takes of it. -/
def storedEditions (n : Name) (s : Server) (ls : List Label) : List Data :=
  observed step (taken n) s ls

/-- What a replica holds of the name in `t` if it has taken the editions since `s`, in this
order. -/
def HoldsLast (s t : Server) (n : Name) (editions : List Data) : Prop :=
  match editions.getLast? with
  | some d => t.Holds n d
  | none => t.row n = s.row n

theorem Holds.sequence_eq (h : s.Holds n d) (h' : s.Holds n d') :
    d.metadata.sequence = d'.metadata.sequence := by
  obtain ⟨now, ttl, hrow⟩ := h
  obtain ⟨now', ttl', hrow'⟩ := h'
  exact congrArg Row.sequence (Option.some.inj (hrow.symm.trans hrow'))

omit [Hashlib] in
theorem arrival_eq_some {t : Server} (h : arrival n (s, l, t) = some d) :
    ∃ face raw drawn, l = .incoming face raw drawn ∧ parsePacket raw = .ok (.data d) ∧
      s.peers.contains face = true ∧ d.name.withoutContentHash = n.withoutContentHash := by
  cases l with
  | incoming face raw drawn =>
    simp only [arrival] at h
    split at h
    · rename_i d' hp
      split at h
      · rename_i hface
        obtain rfl := Option.some.inj h
        exact ⟨face, raw, drawn, rfl, hp, hface⟩
      · cases h
    · cases h
  | _ => cases h

theorem forwarder_handlePeerData (s : Server) (d : Data) (face : FaceId) :
    (after (handlePeerData d face) s).forwarder = s.forwarder.receiveData d face true := by
  have hsend (other : FaceId) :
      Keeps (fun t => t.forwarder = s.forwarder.receiveData d face true)
        (send other (.data d)) := by
    refine Keeps.get.bind fun u => ?_
    split
    · exact (Keeps.ofExcept _).bind fun _ => Keeps.modify fun _ h => h
    · exact Keeps.pure _
  have hpropagate :
      Keeps (fun t => t.forwarder = s.forwarder.receiveData d face true)
        (propagate d (some face)) :=
    Keeps.get.bind fun u => Keeps.forM fun other _ => (hsend other).tryCatch fun _ => Keeps.pure _
  rw [after, handlePeerData, exec_bind, exec_receiveData]
  cases s.forwarder.receiveOutcome d true with
  | error e => rfl
  | ok u => exact Triple.after hpropagate rfl

/-- The row after a taken arrival is that of the arrival, unless it is evicted. -/
theorem row_of_taken (hs : step s l = some t) (h : taken n (s, l, t) = some d) {row : Row}
    (hrow : t.row n = some row) :
    ∃ now ttl, row = ContentStore.makeRow n.withoutContentHash.encode d now ttl := by
  obtain ⟨harrival, hok⟩ := Option.filter_eq_some_iff.mp h
  obtain ⟨face, raw, drawn, rfl, hparse, hface, hname⟩ := arrival_eq_some harrival
  obtain rfl := Option.some.inj hs
  cases hi : s.forwarder.cs.insert d.name d s.forwarder.time with
  | error e => rw [hi] at hok; cases hok
  | ok cs =>
    obtain ⟨nameBytes, hashes, hb, hhashes, -, count, rfl⟩ := ContentStore.insert_eq_ok hi
    obtain ⟨-, rfl⟩ := Name.toBytes_eq_ok.mp hb
    obtain ⟨m, hm⟩ := Forwarder.answeredName_isOk s.forwarder.pit
      (n := d.name.withoutContentHash) (Name.addr_of_prefixHashes hhashes)
    have hop : s.forwarder.storeOp (.receiveData d face true) =
        some (.insert d.name d s.forwarder.time) := by
      rw [Forwarder.storeOp, hm]
      cases m <;> rfl
    have hafter : after (handleIncoming face raw drawn) s = after (handlePeerData d face) s := by
      rw [after, handleIncoming, hparse]
      simp only [handlePacket, exec_bind, exec_get, hface, if_true]
      rfl
    rw [Server.row, hafter, forwarder_handlePeerData, Forwarder.receiveData_cs, hop,
      Option.map_some, Option.getD_some, ContentStore.apply, hi, ContentStore.commit_ok] at hrow
    have hkept := ContentStore.evictLruInternal_sub _ count _ _ hrow
    rw [ContentStore.get?_upsert, hname, if_pos rfl] at hkept
    exact ⟨_, _, (Option.some.inj hkept).symm⟩

theorem holds_of_taken (hok : Undisturbed n s l) (hs : step s l = some t)
    (h : taken n (s, l, t) = some d) : t.Holds n d := by
  have hrow := hok t hs
  rw [h, Option.isSome_some, if_pos rfl] at hrow
  obtain ⟨row, hrow⟩ := Option.isSome_iff_exists.mp hrow
  obtain ⟨now, ttl, rfl⟩ := row_of_taken hs h hrow
  exact ⟨now, ttl, hrow⟩

theorem row_of_untaken (hok : Undisturbed n s l) (hs : step s l = some t)
    (h : taken n (s, l, t) = none) : t.row n = s.row n := by
  have hrow := hok t hs
  rwa [h, if_neg (by simp)] at hrow

theorem holdsLast_of_run (h : Run step (Undisturbed n) s ls t) :
    HoldsLast s t n (storedEditions n s ls) := by
  rw [HoldsLast]
  split
  · rename_i d hlast
    refine h.of_mem_getLast?_observed (f := taken n) (P := fun d t => t.Holds n d)
      (fun s l t d hok hs hd => holds_of_taken hok hs hd) ?_ d hlast
    rintro s l t d hok hs hnone ⟨now, ttl, hrow⟩
    exact ⟨now, ttl, (row_of_untaken hok hs hnone).trans hrow⟩
  · rename_i hlast
    have hnone := List.getLast?_eq_none_iff.mp hlast
    exact h.invariant_of_unobserved (I := fun t => t.row n = s.row n) hnone rfl
      fun u l v hok hs hnone hrow => (row_of_untaken hok hs hnone).trans hrow

theorem storedEditions_sublist (h : Run step (Undisturbed n) s ls t) :
    (storedEditions n s ls).Sublist (receivedEditions n s ls) := by
  have htaken (e : Server × Label × Server) :
      (taken n e).toList.Sublist (arrival n e).toList := by
    rw [taken]
    cases arrival n e with
    | none => exact List.Sublist.refl _
    | some d =>
      rw [Option.filter_some]
      split
      · exact List.Sublist.refl _
      · exact List.nil_sublist _
  induction h with
  | nil => exact List.Sublist.refl _
  | cons _ hs _ ih =>
    rw [storedEditions, receivedEditions, observed_cons hs, observed_cons hs]
    exact (htaken _).append ih

/-- Of editions with different sequences a replica holds the last one that it took. -/
theorem HoldsLast.holds_iff {held : List Data} (h : HoldsLast s t n held) (hne : held ≠ [])
    (hseq : (editions.map fun d => d.metadata.sequence).Nodup) (hsub : held ⊆ editions)
    (hd : d ∈ editions) : t.Holds n d ↔ held.getLast? = some d := by
  have hlast := List.getLast?_eq_some_getLast hne
  rw [HoldsLast, hlast] at h
  rw [hlast, Option.some_inj]
  constructor
  · exact fun hd' => List.inj_on_of_nodup_map hseq (hsub (List.getLast_mem hne)) hd
      (h.sequence_eq hd')
  · rintro rfl
    exact h

/-- However the editions arrive, each replica ends with the one that it took last, the newest one or
not. The two end with one edition exactly if both took it last. -/
theorem replicas_hold_last (h₁ : Run step (Undisturbed n) s₁ ls₁ t₁)
    (h₂ : Run step (Undisturbed n) s₂ ls₂ t₂)
    (hp₁ : (receivedEditions n s₁ ls₁).Perm editions)
    (hp₂ : (receivedEditions n s₂ ls₂).Perm editions)
    (hseq : (editions.map fun d => d.metadata.sequence).Nodup) :
    HoldsLast s₁ t₁ n (storedEditions n s₁ ls₁) ∧
      HoldsLast s₂ t₂ n (storedEditions n s₂ ls₂) ∧
      (storedEditions n s₁ ls₁ ≠ [] → storedEditions n s₂ ls₂ ≠ [] →
        (∀ d ∈ editions, (t₁.Holds n d ↔ (storedEditions n s₁ ls₁).getLast? = some d) ∧
          (t₂.Holds n d ↔ (storedEditions n s₂ ls₂).getLast? = some d)) ∧
        ((∃ d, t₁.Holds n d ∧ t₂.Holds n d) ↔
          (storedEditions n s₁ ls₁).getLast? = (storedEditions n s₂ ls₂).getLast?)) := by
  have hlast₁ := holdsLast_of_run h₁
  have hlast₂ := holdsLast_of_run h₂
  have hsub₁ := List.Subset.trans (storedEditions_sublist h₁).subset hp₁.subset
  have hsub₂ := List.Subset.trans (storedEditions_sublist h₂).subset hp₂.subset
  refine ⟨hlast₁, hlast₂, fun hne₁ hne₂ => ⟨fun d hd => ⟨hlast₁.holds_iff hne₁ hseq hsub₁ hd,
    hlast₂.holds_iff hne₂ hseq hsub₂ hd⟩, ?_⟩⟩
  have hg₁ := List.getLast?_eq_some_getLast hne₁
  have hg₂ := List.getLast?_eq_some_getLast hne₂
  have hm₁ := hsub₁ (List.getLast_mem hne₁)
  have hm₂ := hsub₂ (List.getLast_mem hne₂)
  have hh₁ := (hlast₁.holds_iff hne₁ hseq hsub₁ hm₁).mpr hg₁
  have hh₂ := (hlast₂.holds_iff hne₂ hseq hsub₂ hm₂).mpr hg₂
  constructor
  · rintro ⟨d, hd₁, hd₂⟩
    have hseq' := (hh₁.sequence_eq hd₁).trans (hd₂.sequence_eq hh₂)
    rw [hg₁, hg₂, List.inj_on_of_nodup_map hseq hm₁ hm₂ hseq']
  · intro he
    rw [hg₁, hg₂, Option.some_inj] at he
    exact ⟨_, hh₁, he ▸ hh₂⟩

end Server

namespace Server

open Transition

def replica (addr : UInt8) : Server where
  rnsAddr := List.replicate 16 addr
  nextFaceId := 101
  faces := [100]
  peers := Dict.empty.set 100 (List.replicate 16 9)

def versioned (sequence : ℕ) : Data :=
  letI := Data.paddedHash
  (Data.new postName [UInt8.ofNat sequence]).withSequence sequence

def arriving (sequences : List ℕ) : List Label :=
  sequences.map fun sequence => .incoming 100 (wireBytes (.data (versioned sequence))) drawn

theorem undisturbed_arrival {s t : Server} {sequence : ℕ} : letI := Data.paddedHash
    step s (.incoming 100 (wireBytes (.data (versioned sequence))) drawn) = some t →
    (taken postName (s, .incoming 100 (wireBytes (.data (versioned sequence))) drawn, t)).isSome →
    (t.row postName).isSome = true →
    Undisturbed postName s (.incoming 100 (wireBytes (.data (versioned sequence))) drawn) := by
  let := Data.paddedHash
  intro hs htaken hrow t' hs'
  obtain rfl := Option.some.inj (hs.symm.trans hs')
  rwa [if_pos htaken]

theorem newer_last_run : letI := Data.paddedHash
    Run step (Undisturbed postName) (replica 1) (arriving [1, 2])
      (serverAfter (replica 1) (arriving [1, 2])) :=
  letI := Data.paddedHash
  .cons (undisturbed_arrival rfl rfl rfl) rfl
    (.cons (undisturbed_arrival rfl rfl rfl) rfl (.nil _))

theorem older_last_run : letI := Data.paddedHash
    Run step (Undisturbed postName) (replica 2) (arriving [2, 1])
      (serverAfter (replica 2) (arriving [2, 1])) :=
  letI := Data.paddedHash
  .cons (undisturbed_arrival rfl rfl rfl) rfl
    (.cons (undisturbed_arrival rfl rfl rfl) rfl (.nil _))

theorem both_orders_hold_last : letI := Data.paddedHash
    (serverAfter (replica 1) (arriving [1, 2])).Holds postName (versioned 2) ∧
      (serverAfter (replica 2) (arriving [2, 1])).Holds postName (versioned 1) :=
  letI := Data.paddedHash
  have hnewer : (receivedEditions postName (replica 1) (arriving [1, 2])).Perm
      [versioned 1, versioned 2] := .refl _
  have holder : (receivedEditions postName (replica 2) (arriving [2, 1])).Perm
      [versioned 1, versioned 2] := .swap _ _ []
  have h := replicas_hold_last newer_last_run older_last_run hnewer holder (by decide)
  ⟨h.1, h.2.1⟩

/-- Two replicas that receive both editions, in different orders, end with different ones, and the
older one has replaced the newer one. -/
theorem replicas_differ : letI := Data.paddedHash
    Run step (Undisturbed postName) (replica 1) (arriving [1, 2])
      (serverAfter (replica 1) (arriving [1, 2])) ∧
    Run step (Undisturbed postName) (replica 2) (arriving [2, 1])
      (serverAfter (replica 2) (arriving [2, 1])) ∧
    receivedEditions postName (replica 1) (arriving [1, 2]) = [versioned 1, versioned 2] ∧
    receivedEditions postName (replica 2) (arriving [2, 1]) = [versioned 2, versioned 1] ∧
    (serverAfter (replica 2) (arriving [2])).Holds postName (versioned 2) ∧
    (serverAfter (replica 2) (arriving [2, 1])).Holds postName (versioned 1) ∧
    ¬ ∃ d, (serverAfter (replica 1) (arriving [1, 2])).Holds postName d ∧
      (serverAfter (replica 2) (arriving [2, 1])).Holds postName d := by
  let := Data.paddedHash
  refine ⟨newer_last_run, older_last_run, rfl, rfl, ⟨0, none, rfl⟩, ⟨0, none, rfl⟩, ?_⟩
  rintro ⟨d, h₁, h₂⟩
  have hnewer : (serverAfter (replica 1) (arriving [1, 2])).Holds postName (versioned 2) :=
    ⟨0, none, rfl⟩
  have holder : (serverAfter (replica 2) (arriving [2, 1])).Holds postName (versioned 1) :=
    ⟨0, none, rfl⟩
  have hseq := (hnewer.sequence_eq h₁).trans (h₂.sequence_eq holder)
  exact absurd hseq (by decide)

end Server

end RnsIcn
