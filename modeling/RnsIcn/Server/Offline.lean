import RnsIcn.Server.Outflow
import RnsIcn.Server.Propagation

/-! # Pushing to subscribers

Published Data goes to the faces that are subscribed to a covering stream. Where such a
face is gone, the Data is queued under the names of its streams, until some face
subscribes to that name again.
-/

namespace RnsIcn

open Effect Transition

/-- A stream covers the names under it and those above it. -/
def Name.covers (stream n : Name) : Bool := n.startsWith stream || stream.startsWith n

namespace Server

variable {s t : Server} {d : Data} {face : FaceId} {n stream : Name} {I : Server → Prop}

def mail (s : Server) : List FaceId × Dict FaceId Bytes × Dict Name (List FaceId) ×
    Dict Name (List Data) × List (FaceId × Packet) :=
  (s.faces, s.peers, s.subscriptions, s.offlineQueue, s.sent)

def subscribersOf (s : Server) (stream : Name) : List FaceId :=
  (s.subscriptions.get? stream).getD []

def queuedFor (s : Server) (stream : Name) : List Data := (s.offlineQueue.get? stream).getD []

def streamsOf (s : Server) (face : FaceId) (n : Name) : List Name :=
  (s.subscriptions.items.filter fun e => e.2.contains face && e.1.covers n).map Prod.fst

theorem mem_streamsOf : stream ∈ s.streamsOf face n ↔
    face ∈ s.subscribersOf stream ∧ stream.covers n = true := by
  simp only [streamsOf, List.mem_map, List.mem_filter, Bool.and_eq_true, List.contains_iff_mem,
    Prod.exists, exists_and_right, exists_eq_right, subscribersOf]
  constructor
  · rintro ⟨faces, hmem, hface, hcover⟩
    rw [Dict.get?_eq_some.mpr hmem]
    exact ⟨hface, hcover⟩
  · rintro ⟨hface, hcover⟩
    cases hg : s.subscriptions.get? stream with
    | none => simp [hg] at hface
    | some faces =>
      rw [hg] at hface
      exact ⟨faces, Dict.get?_eq_some.mp hg, hface, hcover⟩

theorem mem_subscriberFaces :
    face ∈ s.subscriberFaces n ↔ ∃ stream, stream ∈ s.streamsOf face n := by
  simp only [subscriberFaces, List.mem_dedup, List.mem_flatMap, List.mem_filter, streamsOf,
    List.mem_map, Bool.and_eq_true, List.contains_iff_mem]
  constructor
  · rintro ⟨e, ⟨he, hcover⟩, hface⟩
    exact ⟨e.1, e, ⟨he, hface, hcover⟩, rfl⟩
  · rintro ⟨stream, e, ⟨he, hface, hcover⟩, -⟩
    exact ⟨e, ⟨he, hcover⟩, hface⟩

def enqueue (stream : Name) (d : Data) (q : Dict Name (List Data)) : Dict Name (List Data) :=
  q.set stream ((q.get? stream).getD [] ++ [d])

theorem enqueueForFace_eq (face : FaceId) (d : Data) : enqueueForFace face d = modify fun s =>
    { s with offlineQueue :=
      (s.streamsOf face d.name).foldl (fun q stream => enqueue stream d q) s.offlineQueue } := by
  refine congrArg modify (funext fun s => ?_)
  rw [streamsOf, List.foldl_map]
  rfl

/-- The property survives what is stored, signed and recorded as created. -/
structure Sheltered (I : Server → Prop) : Prop where
  store : ∀ s cs, I s → I (s.withStore cs)
  sign : ∀ s d, I s → I { s with signed := d :: s.signed }
  create : ∀ s x, I s → I { s with created := x :: s.created }

variable [Hashlib]

namespace Sheltered

theorem keeps_onStore (hI : Sheltered I) (op : StoreOp) : Keeps I (onStore op) :=
  Keeps.modify fun s => hI.store s _

theorem keeps_csInsert (hI : Sheltered I) (n : Name) (d : Data) : Keeps I (csInsert n d) :=
  Keeps.get.bind fun _ => (hI.keeps_onStore _).bind fun _ => Keeps.ofExcept _

theorem keeps_csGet (hI : Sheltered I) (n : Name) : Keeps I (csGet n) :=
  Keeps.get.bind fun _ => (hI.keeps_onStore _).bind fun _ => Keeps.ofExcept _

omit [Hashlib] in
theorem keeps_create (hI : Sheltered I) (n : Name) (content : Bytes) :
    Keeps I (Server.create n content) :=
  Keeps.modify fun s => hI.create s _

theorem maybeSign (hI : Sheltered I) (d : Data) : Triple I (Server.maybeSign d)
    (fun d' s => I s ∧ d.Resigned d') I :=
  maybeSign_resigned hI.sign d

theorem keeps_maybeSignOpt (hI : Sheltered I) (r : Option Data) : Keeps I (maybeSignOpt r) := by
  cases r with
  | none => exact Keeps.pure _
  | some d =>
    exact Triple.bind ((hI.maybeSign d).post fun _ _ h => h.1) fun _ => Triple.pure fun _ h => h

theorem keeps_serveFromCs (hI : Sheltered I) (i : Interest) : Keeps I (serveFromCs i) := by
  have hlookup : Keeps I (csLookup i) := by
    refine Keeps.get.bind fun s => ?_
    split
    · refine Keeps.bind ?_ fun r => (hI.keeps_maybeSignOpt r).bind fun _ => Keeps.pure _
      exact Keeps.get.bind fun _ => (hI.keeps_onStore _).bind fun _ => Keeps.ofExcept _
    · exact (hI.keeps_csGet i.name).bind hI.keeps_maybeSignOpt
  exact Keeps.get.bind fun _ => hlookup.bind fun _ => Keeps.pure _

theorem keeps_publishLatestPointer (hI : Sheltered I) (n : Name) (d : Data)
    (sequence : Option ℕ) (latestUnder : Option Name) :
    Keeps I (publishLatestPointer n d sequence latestUnder) := by
  rw [publishLatestPointer_eq]
  refine Keeps.get.bind fun s => (Keeps.ofExcept _).bind fun r => ?_
  cases r with
  | none => exact Keeps.pure _
  | some p => exact (hI.keeps_create _ _).bind fun _ => hI.keeps_csInsert _ _

theorem keeps_publishContent (hI : Sheltered I) (n : Name) (content : Bytes) (encrypted : Bool)
    (sequence : Option ℕ) (latestUnder : Option Name) :
    Keeps I (publishContent n content encrypted sequence latestUnder) :=
  (hI.keeps_create n content).bind fun _ => (hI.keeps_csInsert _ _).bind fun _ =>
    hI.keeps_publishLatestPointer n _ sequence latestUnder

end Sheltered

/-- `publish_post` before it pushes. -/
def preparePost (n : Name) (content : Bytes) (encrypted : Bool) (sequence : ℕ)
    (latestUnder : Option Name) : Handler Data := do
  create n content
  let d ← maybeSign (edition n content encrypted (some sequence))
  csInsert n d
  publishLatestPointer n d (some sequence) latestUnder
  return d

def push (prepare : Handler Data) : Handler Unit := do
  let d ← prepare
  apsPublish d
  propagate d

theorem publishPost_eq (n : Name) (content : Bytes) (encrypted : Bool) (sequence : ℕ)
    (latestUnder : Option Name) : publishPost n content encrypted sequence latestUnder =
      push (preparePost n content encrypted sequence latestUnder) := by
  simp only [publishPost, push, preparePost, bind_assoc, pure_bind]

/-- The Data that an operation publishes to subscribers, and how it is prepared. -/
def publication : Label → Option (Data × Handler Data)
  | .publishPushed d => some (d, signAndStore d)
  | .publishPost n content encrypted sequence latestUnder =>
    some (edition n content encrypted (some sequence),
      preparePost n content encrypted sequence latestUnder)
  | _ => none

variable {l : Label} {prepare : Handler Data}

theorem step_publication (h : publication l = some (d, prepare)) :
    s.step l = some (after (push prepare) s) := by
  cases l with
  | publishPushed e =>
    obtain ⟨-, rfl⟩ := Prod.mk.inj (Option.some.inj h)
    rw [push, ← publishPushed_eq]
    rfl
  | publishPost n content encrypted sequence latestUnder =>
    obtain ⟨-, rfl⟩ := Prod.mk.inj (Option.some.inj h)
    rw [← publishPost_eq]
    rfl
  | _ => cases h

theorem prepare_triple (hI : Sheltered I) (h : publication l = some (d, prepare)) :
    Triple (fun s => I { s with created := (d.name.withoutContentHash, d.content) :: s.created })
      prepare (fun d' s => I s ∧ d.Resigned d') I := by
  have hrecord (n : Name) (content : Bytes) :
      Triple (fun s => I { s with created := (n.withoutContentHash, content) :: s.created })
        (create n content) (fun _ => I) I := Triple.modify fun _ h => h
  cases l with
  | publishPushed e =>
    obtain ⟨rfl, rfl⟩ := Prod.mk.inj (Option.some.inj h)
    refine (hrecord e.name e.content).bind fun _ => (hI.maybeSign e).bind fun d' t ht => ?_
    exact Triple.bind (hI.keeps_csInsert d'.name d')
      (fun _ => Triple.pure fun _ hu => ⟨hu, ht.2⟩) t ht.1
  | publishPost n content encrypted sequence latestUnder =>
    obtain ⟨rfl, rfl⟩ := Prod.mk.inj (Option.some.inj h)
    refine (hrecord n content).bind fun _ => (hI.maybeSign _).bind fun d' t ht => ?_
    exact Triple.bind (hI.keeps_csInsert n d') (fun _ => Triple.bind
      (hI.keeps_publishLatestPointer n d' (some sequence) latestUnder)
      fun _ => Triple.pure fun _ hu => ⟨hu, ht.2⟩) t ht.1
  | _ => cases h

variable {m : List FaceId × Dict FaceId Bytes × Dict Name (List FaceId) × Dict Name (List Data) ×
  List (FaceId × Packet)}

omit [Hashlib] in
theorem mail_sheltered : Sheltered (·.mail = m) where
  store _ _ h := h
  sign _ _ h := h
  create _ _ h := h

theorem prepare_mail (h : publication l = some (d, prepare)) :
    Triple (·.mail = m) prepare (fun d' s => s.mail = m ∧ d.Resigned d') (·.mail = m) :=
  (prepare_triple mail_sheltered h).pre fun _ h => h

end Server

end RnsIcn
