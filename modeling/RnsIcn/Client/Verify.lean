import Mathlib.Data.Prod.Lex
import RnsIcn.Lib.Dict
import RnsIcn.Wire.Packet

/-! # The checks of a client

Data that a client fetches or is pushed passes a check of its hash, of the pin
that was asked for, of its signature and of the version it is signed with. The
last one keeps a watermark for each name, which it raises on what the check of
the signature has let through.
-/

namespace RnsIcn

open Fallible

abbrev Validator := Bytes → Bytes → Bool

/-- `(signed_at, sequence)`, in the order of tuples. -/
abbrev FreshnessKey := ℕ ×ₗ ℕ

structure ClientConfig where
  requireSignature : Bool := false
  rejectRollback : Bool := false
  deriving DecidableEq, Repr

/-- The policy of a client, the identities it can recall by their hash, the watermarks, and a log
of the Data whose signature was checked and found valid. -/
structure Verifier where
  config : ClientConfig := {}
  identities : Bytes → Option Validator := fun _ => none
  seenSignedKey : Dict Bytes FreshnessKey := .empty
  verified : List Data := []

inductive Verdict where
  | accepted
  | rejected (e : PyError)
  deriving DecidableEq, Repr

def tupleStr (key : FreshnessKey) : String :=
  let (signedAt, seq) := ofLex key
  s!"({signedAt}, {seq})"

namespace Verifier

variable {v v' : Verifier} {d : Data} {requireSignature : Option Bool} {verdict : Verdict}

def checkRollback (v : Verifier) (d : Data) : Except PyError (Verifier × Verdict) :=
  if !v.config.rejectRollback then .ok (v, .accepted)
  else match d.freshnessKey with
    | none => .ok (v, .accepted)
    | some k => do
      let key : FreshnessKey := toLex k
      let nameKey ← d.name.toBytes
      match v.seenSignedKey.get? nameKey with
      | some previous =>
        if key < previous then
          return (v, .rejected (.valueError <|
            "Data rolls back to an older signed version (" ++ tupleStr key ++ " < " ++
              tupleStr previous ++ ")"))
        else if previous < key then
          return ({ v with seenSignedKey := v.seenSignedKey.set nameKey key }, .accepted)
        else return (v, .accepted)
      | none =>
        return ({ v with seenSignedKey := v.seenSignedKey.set nameKey key }, .accepted)

/-- Each watermark is the key of Data of its name whose signature was checked and found valid. -/
structure Authenticated (v : Verifier) : Prop where
  seen : ∀ nameKey key, v.seenSignedKey.get? nameKey = some key →
    ∃ d ∈ v.verified, d.name.toBytes = .ok nameKey ∧ d.freshnessKey = some (ofLex key)

theorem Authenticated.mono (h : v.Authenticated) (hs : v'.seenSignedKey = v.seenSignedKey)
    (hm : ∀ e ∈ v.verified, e ∈ v'.verified) : v'.Authenticated where
  seen nameKey key hget := by
    obtain ⟨e, he, hn, hk⟩ := h.seen nameKey key (hs ▸ hget)
    exact ⟨e, hm e he, hn, hk⟩

/-- The signed version of `d` is newer than the watermark of its name. -/
def Raises (v : Verifier) (d : Data) : Prop :=
  ∃ nameKey k, v.config.rejectRollback = true ∧ d.name.toBytes = .ok nameKey ∧
    d.freshnessKey = some k ∧ ∀ previous ∈ v.seenSignedKey.get? nameKey, previous < toLex k

/-- The watermarks that a check of the version leaves: as they were, or raised by `d`. -/
theorem checkRollback_eq_ok (h : v.checkRollback d = .ok (v', verdict)) :
    v' = v ∨ ∃ nameKey k, v.config.rejectRollback = true ∧ d.name.toBytes = .ok nameKey ∧
      d.freshnessKey = some k ∧
      (∀ previous ∈ v.seenSignedKey.get? nameKey, previous < toLex k) ∧ verdict = .accepted ∧
      v' = { v with seenSignedKey := v.seenSignedKey.set nameKey (toLex k) } := by
  rw [checkRollback] at h
  split at h
  · exact .inl (Prod.mk.inj (Except.ok.inj h)).1.symm
  · rename_i hreject
    split at h
    · exact .inl (Prod.mk.inj (Except.ok.inj h)).1.symm
    · rename_i k hk
      obtain ⟨nameKey, hn, h⟩ := bind_eq_ok.mp h
      split at h
      · rename_i previous hp
        split at h
        · exact .inl (Prod.mk.inj (Except.ok.inj h)).1.symm
        · split at h
          · rename_i hlt
            obtain ⟨rfl, rfl⟩ := Prod.mk.inj (Except.ok.inj h)
            exact .inr ⟨nameKey, k, by simpa using hreject, hn, hk, by simpa [hp] using hlt, rfl,
              rfl⟩
          · exact .inl (Prod.mk.inj (Except.ok.inj h)).1.symm
      · rename_i hnone
        obtain ⟨rfl, rfl⟩ := Prod.mk.inj (Except.ok.inj h)
        exact .inr ⟨nameKey, k, by simpa using hreject, hn, hk, by simp [hnone], rfl, rfl⟩

theorem checkRollback_rejected {e : PyError} (h : v.checkRollback d = .ok (v', .rejected e)) :
    ∃ nameKey k previous, d.name.toBytes = .ok nameKey ∧ d.freshnessKey = some k ∧
      v.seenSignedKey.get? nameKey = some previous ∧ toLex k < previous := by
  rw [checkRollback] at h
  split at h
  · simp at h
  · split at h
    · simp at h
    · rename_i k hk
      obtain ⟨nameKey, hn, h⟩ := bind_eq_ok.mp h
      split at h
      · rename_i previous hp
        split at h
        · exact ⟨nameKey, k, previous, hn, hk, hp, ‹_›⟩
        · split at h <;> simp at h
      · simp at h

variable [Hashlib]

def checkSignature (v : Verifier) (d : Data) (requireSignature : Option Bool) :
    Except PyError (Verifier × Verdict) :=
  let require := requireSignature.getD v.config.requireSignature
  if d.signature.isSome then
    match v.identities d.name.rnsAddr with
    | some validate => do
      if ← d.verifySignature validate then
        return ({ v with verified := d :: v.verified }, .accepted)
      else return (v, .rejected (.valueError "Data signature verification failed"))
    | none =>
      if require then
        .ok (v, .rejected (.valueError "producer identity unknown; cannot verify signature"))
      else .ok (v, .accepted)
  else if require then
    .ok (v, .rejected (.valueError "Data is unsigned but signature is required"))
  else .ok (v, .accepted)

def checkOrigin (v : Verifier) (d : Data) (requireSignature : Option Bool) :
    Except PyError (Verifier × Verdict) := do
  let (v, verdict) ← v.checkSignature d requireSignature
  match verdict with
  | .accepted => v.checkRollback d
  | .rejected e => return (v, .rejected e)

/-- The pipeline of `_fetch_verified` for a request with the given pin. -/
def checkFetched (v : Verifier) (d : Data) (pin : Option Bytes)
    (requireSignature : Option Bool) : Except PyError (Verifier × Verdict) :=
  if !d.verifyContentHash then
    .ok (v, .rejected (.valueError "Data content hash verification failed"))
  else if pin.isSome && d.metadata.contentHash != pin then
    .ok (v, .rejected (.valueError "Data does not match the requested content-hash pin"))
  else v.checkOrigin d requireSignature

/-- `_dispatch_push` to the subscribed prefixes: each that matches runs the pipeline, and the first
rejection or exception ends the dispatch. -/
def dispatchPush (v : Verifier) (d : Data) : List Name → Verifier
  | [] => v
  | namePrefix :: prefixes =>
    if !d.name.startsWith namePrefix then v.dispatchPush d prefixes
    else if !d.verifyContentHash then v
    else match v.checkOrigin d none with
      | .ok (v, .accepted) => v.dispatchPush d prefixes
      | .ok (v, .rejected _) => v
      | .error _ => v

/-- What `_dispatch_push` does besides: the subscriptions whose callbacks it calls, and the
exception that ends it. -/
def dispatch (v : Verifier) (d : Data) : List Name → List Name × Option PyError
  | [] => ([], none)
  | namePrefix :: prefixes =>
    if !d.name.startsWith namePrefix then v.dispatch d prefixes
    else if !d.verifyContentHash then ([], none)
    else match v.checkOrigin d none with
      | .ok (v, .accepted) =>
        let rest := v.dispatch d prefixes
        (namePrefix :: rest.1, rest.2)
      | .ok (_, .rejected _) => ([], none)
      | .error e => ([], some e)

theorem checkSignature_eq_ok (h : v.checkSignature d requireSignature = .ok (v', .accepted)) :
    v' = { v with verified := d :: v.verified } ∨
      v' = v ∧ requireSignature.getD v.config.requireSignature = false ∧
        (d.signature.isSome = true → v.identities d.name.rnsAddr = none) := by
  rw [checkSignature] at h
  split at h
  · split at h
    · obtain ⟨valid, -, h⟩ := bind_eq_ok.mp h
      split at h
      · exact .inl (Prod.mk.inj (Except.ok.inj h)).1.symm
      · simp at h
    · rename_i hid
      split at h
      · simp at h
      · rename_i hreq
        exact .inr ⟨(Prod.mk.inj (Except.ok.inj h)).1.symm, by simpa using hreq, fun _ => hid⟩
  · split at h
    · simp at h
    · rename_i hsig hreq
      exact .inr ⟨(Prod.mk.inj (Except.ok.inj h)).1.symm, by simpa using hreq,
        fun hs => absurd hs hsig⟩

theorem checkSignature_rejected {e : PyError}
    (h : v.checkSignature d requireSignature = .ok (v', .rejected e)) : v' = v := by
  rw [checkSignature] at h
  split at h
  · split at h
    · obtain ⟨valid, -, h⟩ := bind_eq_ok.mp h
      split at h
      · simp at h
      · exact (Prod.mk.inj (Except.ok.inj h)).1.symm
    · split at h
      · exact (Prod.mk.inj (Except.ok.inj h)).1.symm
      · simp at h
  · split at h
    · exact (Prod.mk.inj (Except.ok.inj h)).1.symm
    · simp at h

/-- Neither check changes the policy, and the log of valid signatures only grows. -/
theorem checkOrigin_frame (h : v.checkOrigin d requireSignature = .ok (v', verdict)) :
    v'.config = v.config ∧ v'.identities = v.identities ∧ ∀ e ∈ v.verified, e ∈ v'.verified := by
  obtain ⟨⟨u, first⟩, hs, h⟩ := bind_eq_ok.mp h
  have hu : u.config = v.config ∧ u.identities = v.identities ∧
      ∀ e ∈ v.verified, e ∈ u.verified := by
    cases first with
    | accepted =>
      rcases checkSignature_eq_ok hs with rfl | ⟨rfl, -⟩
      · exact ⟨rfl, rfl, fun e he => List.mem_cons_of_mem _ he⟩
      · exact ⟨rfl, rfl, fun e he => he⟩
    | rejected e =>
      rw [checkSignature_rejected hs]
      exact ⟨rfl, rfl, fun e he => he⟩
  cases first with
  | accepted =>
    rcases checkRollback_eq_ok h with rfl | ⟨_, _, -, -, -, -, -, rfl⟩
    · exact hu
    · exact hu
  | rejected e =>
    obtain ⟨rfl, -⟩ := Prod.mk.inj (Except.ok.inj h)
    exact hu

/-- Watermarks stay authenticated when a newer version is let through only with a known key. -/
theorem Authenticated.checkOrigin (hv : v.Authenticated)
    (hok : v.Raises d → (v.identities d.name.rnsAddr).isSome = true ∨
      requireSignature.getD v.config.requireSignature = true)
    (h : v.checkOrigin d requireSignature = .ok (v', verdict)) : v'.Authenticated := by
  obtain ⟨⟨u, first⟩, hs, h⟩ := bind_eq_ok.mp h
  cases first with
  | rejected e =>
    obtain ⟨rfl, -⟩ := Prod.mk.inj (Except.ok.inj h)
    exact checkSignature_rejected hs ▸ hv
  | accepted =>
    have hu : u.Authenticated := by
      rcases checkSignature_eq_ok hs with rfl | ⟨rfl, -⟩
      · exact hv.mono rfl fun e he => List.mem_cons_of_mem _ he
      · exact hv
    rcases checkRollback_eq_ok h with rfl | ⟨nameKey, k, hreject, hn, hk, hlt, -, rfl⟩
    · exact hu
    · -- The watermark is raised: the signature of `d` has just been found valid.
      have hsig : d.signature.isSome = true := by
        by_contra hnone
        simp [Data.freshnessKey, Option.not_isSome_iff_eq_none.mp hnone] at hk
      have hmem : d ∈ u.verified := by
        rcases checkSignature_eq_ok hs with rfl | ⟨rfl, hreq, hid⟩
        · exact List.mem_cons_self
        · rcases hok ⟨nameKey, k, hreject, hn, hk, hlt⟩ with hknown | hforced
          · rw [hid hsig] at hknown
            cases hknown
          · exact absurd (hreq.symm.trans hforced) (by simp)
      constructor
      intro nameKey' key' hget
      rw [Dict.get?_set] at hget
      split at hget
      · rename_i he
        obtain rfl := Option.some.inj hget
        exact ⟨d, hmem, he ▸ hn, hk⟩
      · exact hu.seen nameKey' key' hget

end Verifier

end RnsIcn
