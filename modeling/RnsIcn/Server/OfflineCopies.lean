import Mathlib.Algebra.BigOperators.Ring.List
import RnsIcn.Server.OfflineDelivery

/-! # Offline delivery and duplicates

Pushing, replaying and draining keep no record of what a subscriber already has. What it
was handed and what is queued for it is counted here against what was published.
-/

namespace RnsIcn

open Effect Transition Fallible

/-- The unpinned name and the content. -/
def Data.key (d : Data) : Name × Bytes := (d.name.withoutContentHash, d.content)

theorem Data.Resigned.key {d d' : Data} (h : d.Resigned d') : d'.key = d.key := by
  rw [Data.key, Data.key, h.name, h.content]

/-- The name and content of Data. -/
def Packet.key : Packet → Option (Name × Bytes)
  | .data d => some d.key
  | _ => none

namespace Server

variable {s t v : Server} {d : Data} {face : FaceId} {k : Name × Bytes} {stream : Name}
  {I : Server → Prop} {raw : Bytes}

/-- How often the Data was handed to a face. -/
def delivered (k : Name × Bytes) (s : Server) : ℕ :=
  (s.sent.map fun e => e.2.key).count (some k)

/-- How often the Data is in the queues. -/
def queued (k : Name × Bytes) (s : Server) : ℕ :=
  s.offlineQueue.total fun ds => (ds.map Data.key).count k

def copies (k : Name × Bytes) (s : Server) : ℕ := delivered k s + queued k s

def isCopy (k : Name × Bytes) (d : Data) : ℕ := if d.key = k then 1 else 0

/-- Where a subscribed face takes Data under the name: at the face if it is there, and else in the
queue of each covering stream. -/
def placesOf (s : Server) (n : Name) (face : FaceId) : ℕ :=
  if face ∈ s.faces then 1 else (s.streamsOf face n).length

def places (s : Server) (n : Name) : ℕ := ((s.subscriberFaces n).map (s.placesOf n)).sum

theorem places_congr {n : Name} (h : t.mail = s.mail) : t.places n = s.places n := by
  simp only [mail, Prod.mk.injEq] at h
  have hof : t.placesOf n = s.placesOf n := by
    funext face
    rw [placesOf, placesOf, h.1, streamsOf, streamsOf, h.2.2.1]
  rw [places, places, hof, subscriberFaces, subscriberFaces, h.2.2.1]

def Replayed [Hashlib] (s : Server) (stream : Name) (d : Data) : Prop :=
  ∃ names n, s.forwarder.cs.entryNames = .ok names ∧ n ∈ names ∧ n.startsWith stream = true ∧
    (s.forwarder.cs.get n s.forwarder.time).2 = .ok (some d)

theorem delivered_send : delivered k { s with sent := (face, .data d) :: s.sent } =
    delivered k s + isCopy k d := by
  rw [delivered, delivered, isCopy, List.map_cons, List.count_cons]
  by_cases h : d.key = k <;> simp [Packet.key, h]

theorem count_append_key (ds : List Data) :
    ((ds ++ [d]).map Data.key).count k = (ds.map Data.key).count k + isCopy k d := by
  rw [List.map_append, List.count_append, isCopy]
  by_cases h : d.key = k <;> simp [h]

theorem count_key_eq_sum (ds : List Data) :
    (ds.map Data.key).count k = (ds.map (isCopy k)).sum := by
  induction ds with
  | nil => rfl
  | cons d ds ih =>
    rw [List.map_cons, List.map_cons, List.count_cons, List.sum_cons, ih, isCopy, Nat.add_comm]
    simp

theorem total_enqueue (q : Dict Name (List Data)) :
    (enqueue stream d q).total (fun ds => (ds.map Data.key).count k) =
      q.total (fun ds => (ds.map Data.key).count k) + isCopy k d := by
  rw [enqueue, Dict.total_set, count_append_key, ← Dict.total_erase _ q stream]
  cases q.get? stream with
  | none => simp [Nat.add_comm]
  | some ds =>
    simp only [Option.getD_some, Option.elim_some]
    omega

theorem total_enqueue_fold (streams : List Name) (q : Dict Name (List Data)) :
    (streams.foldl (fun q stream => enqueue stream d q) q).total
        (fun ds => (ds.map Data.key).count k) =
      q.total (fun ds => (ds.map Data.key).count k) + streams.length * isCopy k d := by
  induction streams generalizing q with
  | nil => simp
  | cons stream streams ih =>
    rw [List.foldl_cons, ih, total_enqueue, List.length_cons]
    ring

structure Unposted (I : Server → Prop) : Prop where
  send : ∀ s sent, I s → I { s with sent }
  queue : ∀ s offlineQueue, I s → I { s with offlineQueue }

namespace Unposted

theorem send_copies (hI : Unposted I) (b : ℕ) :
    Triple (fun s => I s ∧ copies k s ≤ b) (Server.send face (.data d))
    (fun _ s => I s ∧ copies k s ≤ b + isCopy k d)
    (fun s => (I s ∧ copies k s ≤ b) ∧ ∀ raw, d.toBytes ≠ .ok raw) := by
  refine Triple.bind_get fun s hs => ?_
  split
  · refine Triple.bind (Q := fun _ s => I s ∧ copies k s ≤ b) ?_ fun _ => ?_
    · intro t ht
      subst ht
      have hdata : (Packet.data d).toBytes = d.toBytes := rfl
      rw [exec_ofExcept, hdata]
      cases d.toBytes with
      | error e => exact ⟨hs, fun raw h => by cases h⟩
      | ok raw => exact hs
    · refine Triple.modify fun t ht => ⟨hI.send t _ ht.1, ?_⟩
      rw [copies, delivered_send]
      exact (Nat.add_right_comm ..).trans_le (Nat.add_le_add_right ht.2 _)
  · exact Triple.pure fun t ht => ht ▸ ⟨hs.1, Nat.le_add_right_of_le hs.2⟩

theorem send_adds (hI : Unposted I) : Adds I (copies k) (isCopy k d) (Server.send face (.data d)) :=
  fun b => (hI.send_copies b).conseq (fun _ h => h) (fun _ _ h => h) fun _ h =>
    ⟨h.1.1, Nat.le_add_right_of_le h.1.2⟩

theorem trySend_adds (hI : Unposted I) {otherwise : Handler Unit}
    (h : (∃ raw, d.toBytes = .ok raw) ∨ otherwise = pure ()) :
    Adds I (copies k) (isCopy k d) (trySend face d otherwise) := by
  intro b
  refine Triple.tryCatch (hI.send_copies b) fun _ => ?_
  rcases h with ⟨raw, hraw⟩ | rfl
  · exact fun s hs => absurd hraw (hs.2 raw)
  · exact Triple.pure fun s hs => ⟨hs.1.1, Nat.le_add_right_of_le hs.1.2⟩

end Unposted

def Posted (v s : Server) : Prop :=
  s.faces = v.faces ∧ s.subscriptions = v.subscriptions ∧ s.peers = v.peers ∧
    s.created = v.created

theorem Posted.unposted : Unposted (Posted v) where
  send _ _ h := h
  queue _ _ h := h

theorem enqueueForFace_adds :
    Adds (Posted v) (copies k) ((v.streamsOf face d.name).length * isCopy k d)
      (enqueueForFace face d) := by
  intro b
  rw [enqueueForFace_eq]
  refine Triple.modify fun s hs => ⟨Posted.unposted.queue s _ hs.1, ?_⟩
  have hstreams : s.streamsOf face d.name = v.streamsOf face d.name := by
    rw [streamsOf, streamsOf, hs.1.2.1]
  rw [copies, queued, total_enqueue_fold, hstreams, ← Nat.add_assoc]
  exact Nat.add_le_add_right hs.2 _

theorem apsPublish_adds (hraw : d.toBytes = .ok raw) (b : ℕ) :
    Triple (fun s => s = v ∧ copies k s ≤ b) (apsPublish d)
    (fun _ s => Posted v s ∧ copies k s ≤ b + v.places d.name * isCopy k d)
    (fun s => Posted v s ∧ copies k s ≤ b + v.places d.name * isCopy k d) := by
  refine Triple.bind_get fun s hs => ?_
  obtain ⟨rfl, hb⟩ := hs
  have hloop : Adds (Posted s) (copies k)
      ((s.subscriberFaces d.name).map fun face => s.placesOf d.name face * isCopy k d).sum
      ((s.subscriberFaces d.name).forM fun face =>
        if face ∈ s.faces then trySend face d (enqueueForFace face d)
        else enqueueForFace face d) := by
    refine Adds.forM fun face _ => ?_
    rw [placesOf]
    split
    · rw [Nat.one_mul]
      exact Posted.unposted.trySend_adds (.inl ⟨raw, hraw⟩)
    · exact enqueueForFace_adds
  rw [List.sum_map_mul_right] at hloop
  refine (hloop b).pre fun t ht => ?_
  subst ht
  exact ⟨⟨rfl, rfl, rfl, rfl⟩, hb⟩

theorem propagate_posted [Hashlib] (hpeers : v.peers = .empty) (b : ℕ) :
    Keeps (fun s => Posted v s ∧ copies k s ≤ b) (propagate d) := by
  refine Triple.bind_get fun s hs => ?_
  have hnone : s.peers.keys = [] := by rw [hs.1.2.2.1, hpeers]; rfl
  rw [hnone]
  exact Triple.pure fun t ht => ht ▸ hs

theorem drain_copies (b : ℕ) :
    Keeps (fun s => Posted v s ∧ copies k s ≤ b) (drain stream face) := by
  refine Triple.bind_get fun s hs => ?_
  split
  · have herase := Dict.total_erase (fun ds => (ds.map Data.key).count k) s.offlineQueue stream
    set taken := (s.offlineQueue.get? stream).getD [] with htaken
    have hcount : (s.offlineQueue.get? stream).elim 0 (fun ds => (ds.map Data.key).count k) =
        (taken.map (isCopy k)).sum := by
      rw [htaken, ← count_key_eq_sum]
      cases s.offlineQueue.get? stream <;> rfl
    rw [hcount] at herase
    obtain ⟨c, hc⟩ : ∃ c, b = c + (taken.map (isCopy k)).sum := by
      refine ⟨b - (taken.map (isCopy k)).sum, (Nat.sub_add_cancel ?_).symm⟩
      refine le_trans ?_ hs.2
      rw [copies, queued, ← herase]
      omega
    refine Triple.bind (Q := fun _ s => Posted v s ∧ copies k s ≤ c) ?_ fun _ => ?_
    · refine Triple.modify fun t ht => ?_
      subst ht
      refine ⟨Posted.unposted.queue t _ hs.1, ?_⟩
      have hle := hs.2
      rw [copies, queued, ← herase, Nat.add_left_comm] at hle
      exact Nat.le_of_add_le_add_left (hle.trans_eq (hc.trans (Nat.add_comm ..)))
    · rw [hc]
      exact Adds.forM (fun e _ => Posted.unposted.trySend_adds (.inr rfl)) c
  · exact Triple.pure fun t ht => ht ▸ hs

/-- Every row holds a name and content that the server created, under the hash of the name. -/
def Filed [Hashlib] (s : Server) : Prop :=
  ∀ key row, s.forwarder.cs.content.get? key = some row → ∃ n : Name, n.Encodable ∧
    n.contentHash = none ∧ key = blake2b n.encode ∧ row.nameBytes = n.encode ∧
      (n, row.contentBytes) ∈ s.created

variable [Hashlib]

theorem Filed.mono (h : Filed s) (hrow : ContentStore.Sub t.forwarder.cs s.forwarder.cs)
    (hc : ∀ x ∈ s.created, x ∈ t.created) : Filed t := by
  intro key row hr
  obtain ⟨n, he, hp, hk, hn, hm⟩ := h key row (hrow key row hr)
  exact ⟨n, he, hp, hk, hn, hc _ hm⟩

theorem filed_stable : Stable Filed where
  frame s t hst h := by
    have hcs : t.forwarder.cs = s.forwarder.cs := congrArg (fun u => u.forwarder.cs) hst
    have hc : t.created = s.created := congrArg (fun u => u.created) hst
    exact h.mono (by rw [hcs]; exact ContentStore.sub_refl _) (by simp [hc])
  delete s op hop h := h.mono (apply_sub _ hop) fun _ hx => hx
  create s n content h := h.mono (ContentStore.sub_refl _) fun _ => List.mem_cons_of_mem _
  insert s n d now hc h := by
    intro key row hr
    rcases ContentStore.get?_apply_insert hr with hr | ⟨he, rfl, ⟨ttl, rfl⟩, -⟩
    · exact h key row hr
    · exact ⟨n.withoutContentHash, he, rfl, rfl, rfl, hc⟩
  sign _ _ _ _ _ _ _ _ h := h
  openFace _ h := h
  closeFace _ _ h := h

theorem Filed.nodup {names : List Name} (h : Filed s)
    (hnames : s.forwarder.cs.entryNames = .ok names) : names.Nodup := by
  have hkeys : names.map (fun n => blake2b n.encode) =
      (s.forwarder.cs.content.values.filter ContentStore.verifyContent).map
        fun row => blake2b row.nameBytes := by
    refine map_of_mapM_eq_ok hnames fun row hrow n hn => ?_
    obtain ⟨⟨key, row'⟩, he, rfl⟩ := List.mem_map.mp (List.mem_of_mem_filter hrow)
    obtain ⟨m, hm, hp, -, hb, -⟩ := h key row' (Dict.get?_eq_some.mpr he)
    have hname : n = m := Name.fromBytes_encode_eq hm hp (hb ▸ hn)
    rw [hname, hb]
  have hsub : (names.map fun n => blake2b n.encode).Sublist s.forwarder.cs.content.keys := by
    have hkey : ∀ e ∈ s.forwarder.cs.content.items,
        ((fun row => blake2b row.nameBytes) ∘ Prod.snd) e = e.1 := by
      intro e he
      obtain ⟨m, -, -, hk, hb, -⟩ := h e.1 e.2 (Dict.get?_eq_some.mpr he)
      exact (congrArg blake2b hb).trans hk.symm
    rw [hkeys, Dict.values, List.filter_map, List.map_map,
      List.map_congr_left fun e he => hkey e (List.mem_of_mem_filter he)]
    exact List.filter_sublist.map _
  exact List.Nodup.of_map _ (s.forwarder.cs.content.nodup.sublist hsub)

/-- What is replayed under the name of an entry has that name, and was created. -/
theorem Filed.replayed {names : List Name} {n : Name} (h : Filed s)
    (hnames : s.forwarder.cs.entryNames = .ok names) (hn : n ∈ names)
    (hd : (s.forwarder.cs.get n s.forwarder.time).2 = .ok (some d)) :
    d.key.1 = n ∧ d.key ∈ s.created := by
  obtain ⟨row, hrow, hparse⟩ := mem_of_mapM_eq_ok hnames hn
  obtain ⟨⟨key, row⟩, he, rfl⟩ := List.mem_map.mp (List.mem_of_mem_filter hrow)
  have hget := Dict.get?_eq_some.mpr he
  obtain ⟨m, hm, hp, rfl, hb, hc⟩ := h key row hget
  have hname : n = m := Name.fromBytes_encode_eq hm hp (hb ▸ hparse)
  subst hname
  have hunpinned : n.withoutContentHash = n := by
    rw [Name.withoutContentHash, ← hp]
  simp only [ContentStore.get, ContentStore.read, hunpinned] at hd
  obtain ⟨key', hkey, hd⟩ := bind_eq_ok.mp hd
  obtain ⟨-, rfl⟩ := ContentStore.nameHash_eq_ok.mp hkey
  split at hd
  · cases hd
  · rename_i row' hrow'
    have hsame : row' = row :=
      Option.some.inj ((ContentStore.deleteRows_sub _ _ _ _ hrow').symm.trans hget)
    subst hsame
    obtain ⟨stored, hstored, hd⟩ := bind_eq_ok.mp hd
    have hname : stored = n := Name.fromBytes_encode_eq hm hp (hb ▸ hstored)
    subst hname
    have hdata : d = ContentStore.rowData row' stored s.forwarder.time := by
      split at hd
      · cases hd
      · split at hd
        · cases hd
        · exact (Option.some.inj (Except.ok.inj hd)).symm
    rw [hdata]
    exact ⟨hunpinned, by rw [Data.key]; exact hunpinned.symm ▸ hc⟩

def Replaying (v s : Server) : Prop :=
  Posted v s ∧ s.forwarder.time = v.forwarder.time ∧ (s.forwarder.cs = v.forwarder.cs ∨
    ContentStore.Sub s.forwarder.cs (v.forwarder.cs.purgeExpired v.forwarder.time))

omit [Hashlib] in
theorem Replaying.unposted : Unposted (Replaying v) where
  send _ _ h := h
  queue _ _ h := h

omit [Hashlib] in
theorem Replaying.purge (h : Replaying v s) :
    ContentStore.Sub (s.forwarder.cs.purgeExpired s.forwarder.time)
      (v.forwarder.cs.purgeExpired v.forwarder.time) := by
  obtain ⟨-, htime, hcs | hcs⟩ := h
  · rw [hcs, htime]
    exact ContentStore.sub_refl _
  · exact fun key row hr => hcs key row (ContentStore.deleteRows_sub _ _ key row hr)

theorem csGet_replaying {n : Name} (b : ℕ) :
    Triple (fun s => Replaying v s ∧ copies k s ≤ b) (csGet n)
    (fun r s => (Replaying v s ∧ copies k s ≤ b) ∧ ∀ d ∈ r,
      (v.forwarder.cs.get n v.forwarder.time).2 = .ok (some d))
    (fun s => Replaying v s ∧ copies k s ≤ b) := by
  refine Triple.bind_get fun s hs => ?_
  have hpurge := hs.1.purge
  refine Triple.bind (Q := fun _ s => Replaying v s ∧ copies k s ≤ b) ?_ fun _ => ?_
  · refine Triple.modify fun t ht => ?_
    subst ht
    exact ⟨⟨hs.1.1, hs.1.2.1, .inr hpurge⟩, hs.2⟩
  · refine Triple.ofExcept (fun r t hr ht => ⟨ht, ?_⟩) fun t ht => ht
    rintro d rfl
    rw [hs.1.2.1] at hr hpurge
    exact ContentStore.read_of_sub hpurge hr

omit [Hashlib] in
theorem send_absent (hface : face ∉ v.faces) (p : Packet) (b : ℕ) :
    Keeps (fun s => Replaying v s ∧ copies k s ≤ b) (send face p) := by
  refine Triple.bind_get fun s hs => ?_
  rw [if_neg (by rw [hs.1.1.1]; exact hface)]
  exact Triple.pure fun t ht => ht ▸ hs

theorem replay_adds {n : Name} {w : ℕ} (hw : ∀ d, face ∈ v.faces →
      (v.forwarder.cs.get n v.forwarder.time).2 = .ok (some d) → isCopy k d ≤ w) :
    Adds (Replaying v) (copies k) w (replay face n) := by
  intro b
  have hle {b' : ℕ} (h : b' ≤ b) : b' ≤ b + w := Nat.le_add_right_of_le h
  refine Triple.bind ((csGet_replaying b).conseq (fun _ h => h) (fun _ _ h => h) fun _ h =>
    ⟨h.1, hle h.2⟩) fun r => ?_
  cases r with
  | none => exact Triple.pure fun s hs => ⟨hs.1.1, hle hs.1.2⟩
  | some d =>
    have hsign : Triple (fun s => Replaying v s ∧ copies k s ≤ b) (maybeSignOpt (some d))
        (fun r s => (Replaying v s ∧ copies k s ≤ b) ∧ ∃ d', r = some d' ∧ d.Resigned d')
        (fun s => Replaying v s ∧ copies k s ≤ b + w) := by
      refine Triple.bind ((maybeSign_resigned (fun _ _ h => h) d).conseq (fun _ h => h)
        (fun _ _ h => h) fun _ h => ⟨h.1, hle h.2⟩) fun d' => ?_
      exact Triple.pure fun _ h => ⟨h.1, d', rfl, h.2⟩
    intro s hs
    refine Triple.bind hsign (fun r t ht => ?_) s hs.1
    obtain ⟨ht, d', rfl, hd'⟩ := ht
    by_cases hface : face ∈ v.faces
    · refine ((Replaying.unposted.send_adds (k := k)).mono ?_) b t ht
      rw [isCopy, hd'.key]
      exact hw d hface (hs.2 d rfl)
    · exact (send_absent hface _ b).conseq (fun _ h => h) (fun _ _ h => ⟨h.1, hle h.2⟩)
        (fun _ h => ⟨h.1, hle h.2⟩) t ht

theorem replays_add {names : List Name} (hF : Filed v)
    (hnames : v.forwarder.cs.entryNames = .ok names)
    (hcopies : copies k v ≤ v.created.count k)
    (hfresh : face ∈ v.faces → ∀ d, v.Replayed stream d → copies d.key v = 0) :
    ∃ w, copies k v + w ≤ v.created.count k ∧ Adds (Replaying v) (copies k) w
      ((names.filter (·.startsWith stream)).forM (replay face)) := by
  by_cases hd : face ∈ v.faces ∧ ∃ d, v.Replayed stream d ∧ d.key = k
  · obtain ⟨hface, d, hd, rfl⟩ := hd
    have hzero := hfresh hface d hd
    obtain ⟨names', n, hnames', hn, -, hget⟩ := hd
    obtain rfl := ok_inj hnames hnames'
    have hcreated := List.count_pos_iff.mpr (hF.replayed hnames hn hget).2
    have hpass : Adds (Replaying v) (copies d.key)
        ((names.filter (·.startsWith stream)).map fun n => if n = d.key.1 then 1 else 0).sum
        ((names.filter (·.startsWith stream)).forM (replay face)) := by
      refine Adds.forM fun m hm => replay_adds fun e _ he => ?_
      rw [isCopy]
      split
      · rename_i hkey
        rw [if_pos]
        rw [← hkey]
        exact (hF.replayed hnames (List.mem_of_mem_filter hm) he).1.symm
      · exact Nat.zero_le _
    refine ⟨1, by omega, hpass.mono ?_⟩
    rw [List.sum_map_eq_nsmul_single d.key.1 _ fun m hm _ => if_neg hm, if_pos rfl,
      nsmul_one, Nat.cast_id]
    exact List.nodup_iff_count_le_one.mp ((hF.nodup hnames).filter _) _
  · refine ⟨0, hcopies, ?_⟩
    have hpass : Adds (Replaying v) (copies k)
        ((names.filter (·.startsWith stream)).map fun _ => 0).sum
        ((names.filter (·.startsWith stream)).forM (replay face)) := by
      refine Adds.forM fun m hm => replay_adds fun e hface he => ?_
      obtain ⟨hm, hstream⟩ := List.mem_filter.mp hm
      rw [isCopy, if_neg fun hkey => hd ⟨hface, e, ⟨names, m, hnames, hm, hstream, he⟩, hkey⟩]
    exact hpass.mono (by simp)

/-- What a subscription adds that replays nothing that was handed over or queued. -/
theorem subscribe_copies {sub : APSubscribe} (hF : Filed s)
    (hcopies : copies k s ≤ s.created.count k)
    (hfresh : sub.startFromNow = false → face ∈ s.faces →
      ∀ d, s.Replayed sub.name d → copies d.key s = 0) :
    let v := after (subscribe sub.name face) s
    Triple (· = s) (handleSubscribe sub face)
      (fun _ t => Posted v t ∧ copies k t ≤ s.created.count k)
      (fun t => Posted v t ∧ copies k t ≤ s.created.count k) := by
  intro v
  have hv : Posted v v ∧ copies k v ≤ s.created.count k := ⟨⟨rfl, rfl, rfl, rfl⟩, hcopies⟩
  have hdrain : Keeps (fun t => Posted v t ∧ copies k t ≤ s.created.count k)
      (drain sub.name face) := drain_copies _
  refine Triple.bind (Q := fun _ t => t = v) (Triple.modify fun t ht => ht ▸ rfl) fun _ => ?_
  split
  · rename_i hnow
    refine Triple.bind_get fun t ht => ?_
    subst ht
    cases hnames : v.forwarder.cs.entryNames with
    | error e => exact fun t ht => ht ▸ hv
    | ok names =>
      have hnow : sub.startFromNow = false := by simpa using hnow
      obtain ⟨w, hle, hreplays⟩ := replays_add (v := v) hF hnames hcopies (hfresh hnow)
      have hloop : Triple (· = v)
          ((names.filter (·.startsWith sub.name)).forM (replay face))
          (fun _ t => Posted v t ∧ copies k t ≤ s.created.count k)
          (fun t => Posted v t ∧ copies k t ≤ s.created.count k) := by
        refine (hreplays (copies k v)).conseq (fun t ht => ?_)
          (fun _ _ h => ⟨h.1.1, h.2.trans hle⟩) fun _ h => ⟨h.1.1, h.2.trans hle⟩
        rw [ht]
        exact ⟨⟨hv.1, rfl, .inl rfl⟩, le_rfl⟩
      rw [show (ofExcept (.ok names) : Handler (List Name)) = pure names from rfl, pure_bind]
      exact Triple.bind hloop fun _ => hdrain
  · exact hdrain.pre fun t ht => ht ▸ hv

/-- No Data was handed over and queued more often than it was created, and there are no peers. -/
structure Balanced (s : Server) : Prop where
  peers : s.peers = .empty
  filed : Filed s
  copies : ∀ k, copies k s ≤ s.created.count k

variable {l : Label} {prepare : Handler Data}

theorem publish_copies (hpeers : s.peers = .empty) (hpub : publication l = some (d, prepare))
    (hsend : ∀ d', (exec prepare s).1 = .ok d' → ∃ raw, d'.toBytes = .ok raw)
    (hplaces : s.places d.name ≤ 1) (hs : s.step l = some t) :
    t.peers = .empty ∧ d.key :: s.created <:+ t.created ∧ copies k t ≤ copies k s + isCopy k d := by
  obtain rfl := Option.some.inj ((step_publication hpub).symm.trans hs)
  have hI : Sheltered fun t => t.mail = s.mail ∧ d.key :: s.created <:+ t.created :=
    ⟨fun _ _ h => h, fun _ _ h => h, fun _ _ h => ⟨h.1, h.2.trans (List.suffix_cons _ _)⟩⟩
  have hprepare := prepare_triple hI hpub s ⟨rfl, List.suffix_refl _⟩
  have hframe {u : Server} (hm : u.mail = s.mail) : u.peers = .empty ∧ copies k u = copies k s := by
    simp only [mail, Prod.mk.injEq] at hm
    rw [copies, copies, delivered, delivered, queued, queued, hm.2.2.2.1, hm.2.2.2.2]
    exact ⟨hm.2.1.trans hpeers, rfl⟩
  rw [after, push, exec_bind]
  rcases hx : exec prepare s with ⟨_ | d', u⟩
  · rw [hx] at hprepare
    obtain ⟨hu, hcopies⟩ := hframe hprepare.1
    exact ⟨hu, hprepare.2, hcopies.le.trans (Nat.le_add_right _ _)⟩
  · rw [hx] at hprepare hsend
    obtain ⟨⟨hm, hcreated⟩, hd⟩ := hprepare
    obtain ⟨hu, hcopies⟩ := hframe hm
    obtain ⟨raw, hraw⟩ := hsend d' rfl
    have hplaces' : u.places d'.name ≤ 1 := by
      rw [places_congr hm, hd.name]
      exact hplaces
    have hadd : copies k s + u.places d'.name * isCopy k d' ≤ copies k s + isCopy k d := by
      rw [isCopy, isCopy, hd.key]
      exact Nat.add_le_add_left ((Nat.mul_le_mul_right _ hplaces').trans_eq (Nat.one_mul _)) _
    have hpush : Triple (· = u) (apsPublish d')
        (fun _ t => Posted u t ∧ copies k t ≤ copies k s + isCopy k d)
        (fun t => Posted u t ∧ copies k t ≤ copies k s + isCopy k d) :=
      (apsPublish_adds hraw (copies k s)).conseq (fun t ht => ⟨ht, by rw [ht, hcopies]⟩)
        (fun _ _ h => ⟨h.1, h.2.trans hadd⟩) fun _ h => ⟨h.1, h.2.trans hadd⟩
    obtain ⟨hpost, hle⟩ := (Triple.bind hpush fun _ => propagate_posted hu _).after rfl
    exact ⟨hpost.2.2.1.trans hu, hpost.2.2.2 ▸ hcreated, hle⟩

/-- The name and content that an event brings reach the single subscriber at most once: a
publication finds one place at most, the encoder does not raise, and a replay finds nothing that
was handed over or queued. -/
structure Label.Single (s : Server) (l : Label) : Prop where
  streaming : isStreaming l = true
  send : ∀ d prepare d', publication l = some (d, prepare) → (exec prepare s).1 = .ok d' →
    ∃ raw, d'.toBytes = .ok raw
  places : ∀ d prepare, publication l = some (d, prepare) → s.places d.name ≤ 1
  fresh : ∀ sub face, subscription l = some (sub, face) → sub.startFromNow = false →
    face ∈ s.faces → ∀ d, s.Replayed sub.name d → copies d.key s = 0

theorem filed_step (h : Filed s) (hl : isStreaming l = true) (hs : s.step l = some t) :
    Filed t := by
  refine filed_stable.step h (fun d hd => ?_) (fun v _ key _ _ => h) hs
  cases l with
  | incoming face raw drawn =>
    simp only [isStreaming, subscription] at hl
    simp only [deliveredData] at hd
    split at hl
    · rename_i sub hp
      simp only [hp, reduceCtorEq] at hd
    · cases hl
  | resource => cases hl
  | _ => cases hd

theorem Balanced.step (h : Balanced s) (hl : l.Single s) (hs : s.step l = some t) :
    Balanced t := by
  have hfiled := filed_step h.filed hl.streaming hs
  cases hsub : subscription l with
  | some x =>
    obtain ⟨sub, face⟩ := x
    obtain rfl := Option.some.inj ((step_subscription hsub).symm.trans hs)
    have hcount (k : Name × Bytes) :=
      (subscribe_copies h.filed (h.copies k) (hl.fresh sub face hsub)).after rfl
    refine ⟨(hcount (sub.name, [])).1.2.2.1.trans h.peers, hfiled, fun k => ?_⟩
    rw [(hcount k).1.2.2.2]
    exact (hcount k).2
  | none =>
    cases hpub : publication l with
    | some x =>
      obtain ⟨d, prepare⟩ := x
      have hcount (k : Name × Bytes) := publish_copies (k := k) h.peers hpub
        (fun d' => hl.send d prepare d' hpub) (hl.places d prepare hpub) hs
      refine ⟨(hcount d.key).1, hfiled, fun k => (hcount k).2.2.trans ?_⟩
      refine le_trans ?_ ((hcount k).2.1.sublist.count_le k)
      rw [List.count_cons, isCopy]
      refine Nat.add_le_add (h.copies k) ?_
      simp
    | none =>
      obtain ⟨hsent, hqueue, -, hpeers, hcreated⟩ := step_elsewhere hsub hpub hl.streaming hs
      refine ⟨hpeers.trans h.peers, hfiled, fun k => ?_⟩
      rw [Server.copies, delivered, queued, hsent, hqueue]
      exact (h.copies k).trans (hcreated.sublist.count_le k)

/-- Nothing is handed over and queued more often than it was created, and what a publication hands
over it does not queue. -/
theorem delivered_once {ls : List Label} (hinit : Initial s) (hpeers : s.peers = .empty)
    (hcreated : s.created = []) (hrun : Run Server.step (fun s l => l.Single s) s ls t) :
    (∀ k, copies k t ≤ t.created.count k) ∧
      ∀ e ∈ trace Server.step s ls, publication e.2.1 ≠ none → ∀ k,
        delivered k e.1 < delivered k e.2.2 → queued k e.2.2 ≤ queued k e.1 := by
  have hstart : Balanced s := by
    refine ⟨hpeers, fun key row hr => ?_, fun k => ?_⟩
    · rw [hinit.content] at hr
      cases hr
    · rw [copies, delivered, queued, hinit.sent, hinit.offlineQueue, hcreated]
      rfl
  have hstep (s t : Server) (l : Label) (h : Balanced s) (hl : l.Single s)
      (hs : s.step l = some t) : Balanced t := h.step hl hs
  refine ⟨(hrun.invariant hstart fun s l t => hstep s t l).copies, fun e he hpub k hlt => ?_⟩
  obtain ⟨hl, hs⟩ := hrun.of_mem_trace he
  have hbalanced := (hrun.trace_invariant hstart (fun s l t => hstep s t l) e he).1
  obtain ⟨⟨d, prepare⟩, hpub⟩ := Option.ne_none_iff_exists'.mp hpub
  obtain ⟨-, -, hle⟩ := publish_copies (k := k) hbalanced.peers hpub
    (fun d' => hl.send d prepare d' hpub) (hl.places d prepare hpub) hs
  have hone : isCopy k d ≤ 1 := by
    rw [isCopy]
    split <;> omega
  rw [copies, copies] at hle
  omega

end Server

namespace Server

def backOnce : List Label :=
  [.openFace, subscribes 100, .closeFace 100, .openFace, subscribes 101]

/-- It is handed an edition, and finds it in the queue when it comes back again. -/
theorem issue_duplicated :
    letI := Data.paddedHash
    let s := serverAfter broadcaster backOnce
    let t := serverAfter s [.publishPushed issue]
    let ls := [.closeFace 101, .openFace, subscribes 102]
    let w := serverAfter t ls
    Run step (fun _ l => isStreaming l = true) broadcaster
        (backOnce ++ [.publishPushed issue] ++ ls) w ∧
      exec (publishPushed issue) s = (.ok (), t) ∧ delivered issue.key s = 0 ∧
      queued issue.key s = 0 ∧ delivered issue.key t = 1 ∧ queued issue.key t = 1 ∧
      w.sent = [(102, .data issue), (101, .data issue)] ∧ delivered issue.key w = 2 ∧
      w.created.count issue.key = 1 := by
  let := Data.paddedHash
  have hall : ∀ l ∈ backOnce ++ [.publishPushed issue] ++
      [.closeFace 101, .openFace, subscribes 102], isStreaming l = true := by decide
  exact ⟨run_of_exec_of rfl fun l hl _ => hall l hl, rfl, rfl, rfl, rfl, rfl, rfl, rfl, rfl⟩

/-- A subscriber that comes back once gets an edition of the meantime once. -/
theorem issue_once :
    letI := Data.paddedHash
    let s := serverAfter broadcaster (backOnce.take 3)
    let t := serverAfter s [.publishPushed issue, .openFace, subscribes 101]
    t.sent = [(101, .data issue)] ∧ ∀ k, copies k t ≤ t.created.count k := by
  let := Data.paddedHash
  have hrun : Run step (fun s l => l.Single s) broadcaster
      (backOnce.take 3 ++ [.publishPushed issue, .openFace, subscribes 101])
      (serverAfter (serverAfter broadcaster (backOnce.take 3))
        [.publishPushed issue, .openFace, subscribes 101]) := by
    have hquiet (s : Server) (l : Label) (hl : isStreaming l = true)
        (hpub : publication l = none) (hsub : ∀ x, subscription l = some x →
          x.1.startFromNow = true) : l.Single s :=
      ⟨hl, fun _ _ _ h => (by rw [hpub] at h; cases h), fun _ _ h => (by rw [hpub] at h; cases h),
        fun sub face h hnow => absurd (hsub _ h) (by rw [hnow]; exact Bool.false_ne_true)⟩
    have hopen (s : Server) : Label.openFace.Single s := hquiet s _ rfl rfl fun _ h => by cases h
    have hclose (s : Server) : (Label.closeFace 100).Single s :=
      hquiet s _ rfl rfl fun _ h => by cases h
    have hsubscribe (s : Server) (face : FaceId) : (subscribes face).Single s := by
      refine hquiet s _ rfl rfl fun x h => ?_
      have hx : subscription (subscribes face) =
          some ({ name := liveStream, startFromNow := true }, face) := rfl
      rw [Option.some.inj (h.symm.trans hx)]
    refine .cons (hopen _) rfl (.cons (hsubscribe _ 100) rfl (.cons (hclose _) rfl
      (.cons ⟨rfl, ?_, ?_, fun _ _ h => by cases h⟩ rfl (.cons (hopen _) rfl
        (.cons (hsubscribe _ 101) rfl (.nil _))))))
    · intro d prepare d' hpub hd
      obtain ⟨rfl, rfl⟩ := Prod.mk.inj (Option.some.inj hpub)
      have hissue : issue = d' := Except.ok.inj hd
      exact ⟨wireBytes (.data issue), by rw [← hissue]; rfl⟩
    · intro d prepare hpub
      obtain ⟨rfl, -⟩ := Prod.mk.inj (Option.some.inj hpub)
      exact Nat.le_of_eq rfl
  have hinit : Initial broadcaster :=
    ⟨⟨rfl, fun _ => rfl, rfl, rfl⟩, rfl, rfl, rfl, rfl, rfl, rfl⟩
  exact ⟨rfl, (delivered_once hinit rfl rfl hrun).1⟩

end Server

end RnsIcn
