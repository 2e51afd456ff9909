import RnsIcn.Server.Core
import RnsIcn.Wire.Pointer

/-! # Pointers of a producer

A producer stores a pointer for a collection when it publishes an edition there, and
signs it when it serves it. A signed pointer names the edition with its pin.
-/

namespace RnsIcn

open Fallible

/-- A pointer with the collection that it is for and the target that it names. -/
structure Pointer where
  collection : Name
  target : Name
  data : Data

variable [Hashlib]

namespace Server

open Effect

/-- The pointer that `_publish_latest_pointer` stores, if it stores one. -/
def latestPointer (s : Server) (n : Name) (d : Data) (sequence : Option ℕ)
    (latestUnder : Option Name) : Except PyError (Option Pointer) :=
  match d.metadata.contentHash with
  | none => .ok none
  | some contentHash =>
    if latestUnder = none ∧ n.len ≤ 1 then .ok none
    else do
      let collection ← latestUnder.elim (Name.new s.rnsAddr n.path.dropLast) .ok
      let target ← n.withContentHash contentHash
      let metaName ← Discovery.metaName collection
      let payload ← Discovery.encodeMeta target
      let pointer := Data.new metaName payload
      let pointer := (sequence.elim pointer pointer.withSequence).withFreshnessPeriod
        s.metaFreshnessPeriod
      return some ⟨collection, target, pointer⟩

theorem publishLatestPointer_eq (n : Name) (d : Data) (sequence : Option ℕ)
    (latestUnder : Option Name) : publishLatestPointer n d sequence latestUnder = (do
      let s ← get
      match ← ofExcept (s.latestPointer n d sequence latestUnder) with
      | none => pure ()
      | some p =>
        create p.data.name p.data.content
        csInsert p.data.name p.data) := by
  refine funext fun s => show exec _ s = exec _ s from ?_
  simp only [exec_bind, exec_get, exec_ofExcept]
  rw [latestPointer]
  cases d.metadata.contentHash with
  | none => rfl
  | some contentHash =>
    simp only
    split
    · rfl
    · simp only [exec_bind, exec_ofExcept]
      cases latestUnder.elim (Name.new s.rnsAddr n.path.dropLast) Except.ok with
      | error e => rfl
      | ok collection =>
        cases n.withContentHash contentHash with
        | error e => rfl
        | ok target =>
          have hbind {α β : Type} (a : α) (f : α → Except PyError β) :
              (Except.ok a >>= f) = f a := rfl
          simp only [hbind]
          generalize Discovery.metaName collection = metaName
          generalize Discovery.encodeMeta target = payload
          cases metaName <;> cases payload <;> cases sequence <;> rfl

/-- A pointer is kept under the reserved name of its collection. Its content names the target, and
its hash is that of the content. -/
theorem latestPointer_eq_ok {s : Server} {n : Name} {d : Data} {sequence : Option ℕ}
    {latestUnder : Option Name} {p : Pointer}
    (h : s.latestPointer n d sequence latestUnder = .ok (some p)) :
    Discovery.metaName p.collection = .ok p.data.name ∧
      Discovery.encodeMeta p.target = .ok p.data.content ∧
      p.data.metadata.contentHash = some (blake2b p.data.content) ∧
      p.data.metadata.encrypted = false ∧
      ∃ pin, pin.length = CONTENT_HASH_BYTES ∧ d.metadata.contentHash = some pin ∧
        p.target = { n with contentHash := some pin } := by
  rw [latestPointer] at h
  split at h
  · cases h
  · rename_i pin hpin
    split at h
    · cases h
    · simp only [bind_eq_ok, pure_eq_ok, Option.some.injEq] at h
      obtain ⟨collection, -, target, htarget, metaName, hmeta, payload, hpayload, rfl⟩ := h
      rw [Name.withContentHash, ite_error_eq_ok, not_not] at htarget
      obtain ⟨hlen, he⟩ := htarget
      exact ⟨by cases sequence <;> exact hmeta, by cases sequence <;> exact hpayload,
        by cases sequence <;> rfl, by cases sequence <;> rfl, pin, hlen, hpin,
        (Except.ok.inj he).symm⟩

end Server

namespace Pointer

/-- The pointer as the store of the producer hands it out, at some age, and as it is signed then. -/
def ServedAs (p : Pointer) (d : Data) : Prop :=
  ∃ freshness signer now,
    { p.data with metadata := { p.data.metadata with freshness } }.sign signer now = .ok d

/-- The pointer is one that `_publish_latest_pointer` has built. -/
def Published (p : Pointer) : Prop :=
  ∃ (s : Server) (n : Name) (d : Data) (sequence : Option ℕ) (latestUnder : Option Name),
    s.latestPointer n d sequence latestUnder = .ok (some p)

variable {p : Pointer} {d : Data}

theorem Published.names (hp : p.Published) (hd : p.ServedAs d)
    (hlen : ∀ b, (blake2b b).length = CONTENT_HASH_BYTES) :
    d.Names p.target ∧ Discovery.metaName p.collection = .ok d.name := by
  obtain ⟨s, n, e, sequence, latestUnder, hbuilt⟩ := hp
  obtain ⟨hname, hpayload, hhash, -, pin, hpin, -, htarget⟩ := Server.latestPointer_eq_ok hbuilt
  obtain ⟨freshness, signer, now, hsign⟩ := hd
  obtain ⟨sig, -, rfl⟩ := Data.sign_eq_ok hsign
  refine ⟨⟨(Discovery.metaName_eq_ok hname).1, hpayload, ⟨pin, ?_, hpin⟩, ⟨_, hhash, hlen _⟩⟩,
    hname⟩
  rw [htarget]

end Pointer

end RnsIcn
