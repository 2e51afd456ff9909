import RnsIcn.Server.Signing

/-! # What one link can put into the store

A server stores Data from a link if the link is a peer or if the Data answers a
pending Interest. Both can be brought about on the link itself.
-/

namespace RnsIcn

namespace Server

variable {s t : Server} {face : FaceId} {base : ContentStore}

/-- Every row is one of `base` or holds a name and content that the server created. -/
def LocalRows (base : ContentStore) (s : Server) : Prop :=
  ∀ key row, s.forwarder.cs.content.get? key = some row → base.content.get? key = some row ∨
    ∃ n : Name, n.Encodable ∧ row.nameBytes = n.encode ∧ (n, row.contentBytes) ∈ s.created

theorem LocalRows.mono (h : LocalRows base s)
    (hrow : ContentStore.Sub t.forwarder.cs s.forwarder.cs)
    (hc : ∀ x ∈ s.created, x ∈ t.created) : LocalRows base t := by
  intro key row hr
  rcases h key row (hrow key row hr) with hb | ⟨n, he, hn, hm⟩
  · exact .inl hb
  · exact .inr ⟨n, he, hn, hc _ hm⟩

/-- Data arrives on the link only while the link is no peer and while the Data answers no pending
Interest. No Resource that is completed on the link holds Data. -/
def Label.Unsolicited (face : FaceId) (s : Server) : Label → Prop
  | .incoming inFace raw _ => inFace = face ∧ ∀ d, parsePacket raw = .ok (.data d) →
      s.peers.contains face = false ∧
        ∀ m, Forwarder.answeredName s.forwarder.pit d.name.withoutContentHash ≠ .ok (some m)
  | .resource payload => resourceData payload = none
  | _ => True

theorem Label.Unsolicited.deliveredData {l : Label} (h : l.Unsolicited face s) :
    s.deliveredData l = none := by
  cases l with
  | incoming inFace raw drawn =>
    obtain ⟨rfl, h⟩ := h
    simp only [Server.deliveredData]
    split
    · rename_i d hp
      obtain ⟨hpeer, hno⟩ := h d hp
      rw [hpeer, Forwarder.storeOp]
      split
      · rfl
      · rename_i m ha
        exact absurd ha (hno m)
      · rfl
    · rfl
  | resource payload => exact h
  | _ => rfl

variable [Hashlib]

theorem localRows_stable (base : ContentStore) : Stable (LocalRows base) where
  frame s t hst h := by
    have hcs : t.forwarder.cs = s.forwarder.cs := congrArg (fun u => u.forwarder.cs) hst
    have hc : t.created = s.created := congrArg (fun u => u.created) hst
    exact h.mono (by rw [hcs]; exact ContentStore.sub_refl _) (by simp [hc])
  delete s op hop h := h.mono (apply_sub _ hop) fun _ hx => hx
  create s n content h := h.mono (ContentStore.sub_refl _) fun _ => List.mem_cons_of_mem _
  insert s n d now hc h := by
    intro key row hr
    rcases ContentStore.get?_apply_insert hr with hr | ⟨he, -, ⟨ttl, rfl⟩, -⟩
    · exact h key row hr
    · exact .inr ⟨n.withoutContentHash, he, rfl, hc⟩
  sign _ _ _ _ _ _ _ _ h := h
  openFace _ h := h
  closeFace _ _ h := h

/-- Whatever arrives on one link, every row afterwards was there before or was created locally, if
no Data comes while the link is a peer or while an Interest waits for it, and none as a
Resource. -/
theorem rows_local_of_unsolicited {ls : List Label}
    (h : Transition.Run step (Label.Unsolicited face) s ls t) :
    LocalRows s.forwarder.cs t := by
  refine h.invariant (I := LocalRows s.forwarder.cs) (fun _ _ hr => .inl hr) ?_
  intro s' l t' hs' hl hst
  refine (localRows_stable _).step hs' (fun d hd => ?_) (fun _ _ _ _ _ => hs') hst
  rw [hl.deliveredData] at hd
  cases hd

end Server

namespace Server

def opened : Server := serverAfter publisher [.openFace]

theorem lone_data_dropped :
    letI := Data.paddedHash
    let ls : List Label := [.resource [0], .incoming 100 (wireBytes (.data injected)) drawn]
    LocalRows opened.forwarder.cs (serverAfter opened ls) := by
  let := Data.paddedHash
  let ls : List Label := [.resource [0], .incoming 100 (wireBytes (.data injected)) drawn]
  have hdata (d : Data) (hd : parsePacket (wireBytes (.data injected)) = .ok (.data d)) :
      d = injected := (Packet.data.inj (Except.ok.inj hd)).symm
  have hrun : Transition.Run step (Label.Unsolicited 100) opened ls (serverAfter opened ls) := by
    refine .cons (t := opened) rfl rfl (.cons ⟨rfl, fun d hd => ⟨rfl, fun m => ?_⟩⟩ rfl (.nil _))
    rw [hdata d hd]
    exact nofun
  exact rows_local_of_unsolicited hrun

/-- The link introduces itself as a peer and sends Data, which is stored. -/
theorem peer_data_stored :
    letI := Data.paddedHash
    let ls : List Label :=
      [.incoming 100 (wireBytes (.peer { rnsAddr := List.replicate 16 2 })) drawn,
        .incoming 100 (wireBytes (.data injected)) drawn]
    opened.forwarder.pit.entries = .empty ∧ opened.peers = .empty ∧
      Transition.Run step Transition.anyStep opened ls (serverAfter opened ls) ∧
      ¬ LocalRows opened.forwarder.cs (serverAfter opened ls) := by
  let := Data.paddedHash
  refine ⟨rfl, rfl, Transition.run_of_exec rfl, fun h => ?_⟩
  rcases h _ _ (Dict.get?_eq_some.mpr (List.mem_singleton.mpr rfl)) with hb | ⟨n, -, -, hm⟩
  · cases hb
  · cases hm

end Server

end RnsIcn
