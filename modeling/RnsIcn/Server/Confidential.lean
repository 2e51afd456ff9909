import RnsIcn.Lib.Transition
import RnsIcn.Network.Restricted
import RnsIcn.Server.Outflow
import RnsIcn.Server.Signing

/-! # What leaves a producer with access rules

Two publish operations encrypt content under a restricted name before they store it.
Neither Data that is pushed as it is nor the pointer of a collection is encrypted.
Where no such Data has a restricted name, nothing but ciphertext leaves the producer
under one.
-/

namespace RnsIcn

open Effect Fallible Transition

namespace AccessController

variable [Hashlib]

/-- `publish_content`, with what the encryption draws. -/
def publishContent (C : AccessController) (random : Bytes) (n : Name) (plaintext : Bytes)
    (sequence : Option ℕ) (latestUnder : Option Name) : Handler Unit := do
  let (content, encrypted) ← ofExcept (C.encryptContent random n plaintext)
  Server.publishContent n content encrypted sequence latestUnder

/-- `publish_post`, with what the encryption draws. -/
def publishPost (C : AccessController) (random : Bytes) (n : Name) (plaintext : Bytes)
    (sequence : ℕ) (latestUnder : Option Name) : Handler Unit := do
  let (content, encrypted) ← ofExcept (C.encryptContent random n plaintext)
  Server.publishPost n content encrypted sequence latestUnder

def encrypts : Server.Label → Bool
  | .publishContent .. | .publishPost .. => true
  | _ => false

/-- The events of a server with access rules. -/
inductive Event where
  | publishContent (random : Bytes) (n : Name) (plaintext : Bytes) (sequence : Option ℕ)
      (latestUnder : Option Name)
  | publishPost (random : Bytes) (n : Name) (plaintext : Bytes) (sequence : ℕ)
      (latestUnder : Option Name)
  | server (l : Server.Label)
  deriving DecidableEq, Repr

def step (C : AccessController) (s : Server) : Event → Option Server
  | .publishContent random n plaintext sequence latestUnder =>
    some (after (C.publishContent random n plaintext sequence latestUnder) s)
  | .publishPost random n plaintext sequence latestUnder =>
    some (after (C.publishPost random n plaintext sequence latestUnder) s)
  | .server l => if encrypts l then none else s.step l

/-- Content under a restricted name is what `encrypt_content` has made for it, and is flagged. -/
def Secret (C : AccessController) : Policy := fun n content encrypted =>
  (C.matchingRule n).isSome → encrypted = true ∧
    ∃ random plaintext, C.encryptContent random n plaintext = .ok (content, true)

/-- The pointer that publishing under a name writes, if it writes one, has no restricted name. -/
def PublicPointer (C : AccessController) (s : Server) (n : Name) (sequence : Option ℕ)
    (latestUnder : Option Name) : Prop :=
  ∀ content encrypted p, s.latestPointer n (Server.edition n content encrypted sequence) sequence
    latestUnder = .ok (some p) → C.matchingRule p.data.name = none

/-- The event brings no Data under a restricted name but what `encrypt_content` has made. -/
def Cautious (C : AccessController) (s : Server) : Event → Prop
  | .publishContent _ n _ sequence latestUnder => C.PublicPointer s n sequence latestUnder
  | .publishPost _ n _ sequence latestUnder => C.PublicPointer s n (some sequence) latestUnder
  | .server l => ∀ d ∈ s.brings l, C.Secret.Admits d

variable {C : AccessController} {s t : Server} {random plaintext content : Bytes} {n : Name}
  {encrypted : Bool} {sequence : Option ℕ} {latestUnder : Option Name} {p : Pointer}

omit [Hashlib] in
theorem secret_of_none {d : Data} (h : C.matchingRule d.name = none) : C.Secret.Admits d := by
  have hunpinned : C.matchingRule d.name.withoutContentHash = none := h
  intro hr
  rw [hunpinned] at hr
  cases hr

theorem secret_edition (h : C.encryptContent random n plaintext = .ok (content, encrypted))
    (sequence : Option ℕ) : C.Secret.Admits (Server.edition n content encrypted sequence) := by
  have hsame : C.encryptContent random n.withoutContentHash plaintext =
      .ok (content, encrypted) := h
  obtain ⟨hname, hcontent⟩ := Server.edition_name n content encrypted sequence
  have hflag : (Server.edition n content encrypted sequence).metadata.encrypted = encrypted := by
    cases sequence <;> rfl
  rw [Policy.Admits, hname, hcontent, hflag]
  intro hr
  obtain ⟨rule, hrule⟩ := Option.isSome_iff_exists.mp hr
  have hmade := hsame
  simp only [encryptContent, hrule, bind_eq_ok, pure_eq_ok] at hmade
  obtain ⟨cek, -, sealed, -, he⟩ := hmade
  obtain ⟨-, rfl⟩ := Prod.mk.inj he
  exact ⟨rfl, random, plaintext, hsame⟩

/-- A pointer is not encrypted, so one under a restricted name does leave as it is. -/
theorem pointer_not_secret {e : Data}
    (h : s.latestPointer n e sequence latestUnder = .ok (some p))
    (hr : (C.matchingRule p.data.name).isSome) : ¬ C.Secret.Admits p.data := by
  intro hp
  obtain ⟨-, -, -, hplain, -⟩ := Server.latestPointer_eq_ok h
  exact Bool.false_ne_true (hplain.symm.trans (hp hr).1)

theorem latestPointer_under {e : Data} {collection : Name}
    (h : s.latestPointer n e sequence (some collection) = .ok (some p)) :
    Discovery.metaName collection = .ok p.data.name := by
  rw [Server.latestPointer] at h
  split at h
  · cases h
  · simp only [reduceCtorEq, false_and, if_false, Option.elim_some, bind_eq_ok, pure_eq_ok,
      Except.ok.injEq, exists_eq_left', Option.some.injEq] at h
    obtain ⟨target, -, metaName, hmeta, payload, -, rfl⟩ := h
    cases sequence <;> exact hmeta

theorem secret_brings {l : Server.Label} (hpublic : C.PublicPointer s n sequence latestUnder)
    (h : C.encryptContent random n plaintext = .ok (content, encrypted))
    (hl : s.brings l =
      match s.latestPointer n (Server.edition n content encrypted sequence) sequence
        latestUnder with
      | .ok (some p) => [Server.edition n content encrypted sequence, p.data]
      | _ => [Server.edition n content encrypted sequence]) :
    ∀ d ∈ s.brings l, C.Secret.Admits d := by
  rw [hl]
  split
  · rename_i p hp
    rintro d (_ | ⟨_, _ | ⟨_, hd⟩⟩)
    · exact secret_edition h sequence
    · exact secret_of_none (hpublic content encrypted p hp)
    · cases hd
  · intro d hd
    rw [List.mem_singleton.mp hd]
    exact secret_edition h sequence

/-- A step of the producer preserves that nothing but ciphertext leaves under a restricted name. -/
theorem confined_step {e : Event} (h : s.Confined C.Secret) (he : C.Cautious s e)
    (hs : C.step s e = some t) : t.Confined C.Secret := by
  cases e with
  | publishContent random n plaintext sequence latestUnder =>
    obtain rfl := Option.some.inj hs
    rw [after, publishContent, exec_bind, exec_ofExcept]
    cases hc : C.encryptContent random n plaintext with
    | error e => exact h
    | ok made => exact Server.publishContent_confined h (secret_brings he hc rfl)
  | publishPost random n plaintext sequence latestUnder =>
    obtain rfl := Option.some.inj hs
    rw [after, publishPost, exec_bind, exec_ofExcept]
    cases hc : C.encryptContent random n plaintext with
    | error e => exact h
    | ok made => exact Server.publishPost_confined h (secret_brings he hc rfl)
  | server l =>
    rw [step] at hs
    split at hs
    · cases hs
    · exact h.step he hs

end AccessController

namespace Server

theorem Initial.confined {K : Policy} {s : Server} (h : s.Initial) : s.Confined K where
  rows key row hr := by
    rw [h.content] at hr
    cases hr
  held := ⟨h.forwarder.consistent, fun c d ⟨call, hc, _⟩ => by
    rw [h.forwarder.calls c] at hc
    cases hc⟩
  sent face d hd := by
    rw [h.sent] at hd
    cases hd
  queued e he := by
    rw [h.offlineQueue] at he
    cases he

end Server

namespace AccessController

variable [Hashlib] {C : AccessController} {s t : Server}

/-- In a run that pushes no plaintext under a restricted name and writes no pointer there, nothing
but ciphertext is stored, queued or sent under one. -/
theorem restricted_confined {es : List Event} (h₀ : s.Initial)
    (h : Run C.step C.Cautious s es t) : t.Confined C.Secret :=
  h.invariant h₀.confined fun _ _ _ h he hs => confined_step h he hs

end AccessController

namespace AccessController

def archivist : Server := { rnsAddr := List.replicate 16 0x0A }

theorem archivist_initial : archivist.Initial :=
  ⟨⟨rfl, fun _ => rfl, rfl, rfl⟩, rfl, rfl, rfl, rfl, rfl, rfl⟩

def archiveAfter (es : List Event) : Server :=
  letI := Data.paddedHash
  (Transition.exec archiveController.step archivist es).getD archivist

def watched : List Event :=
  [.server .openFace, .server (.incoming 100
    (Server.wireBytes (.subscribe { name := archive [[0x73]] })) ⟨List.replicate 8 4, [], []⟩)]

/-- A note is published under the restricted prefix, with the pointer outside of it. -/
def noted : List Event :=
  watched ++ [.publishPost [0x09] (archive [[0x73], [0x75]]) [0x07] 1 (some (archive []))]

theorem note_sealed :
    letI := Data.paddedHash
    (archiveAfter noted).sent.length = 1 ∧
      (archiveAfter noted).Confined archiveController.Secret := by
  let := Data.paddedHash
  have hpublic : archiveController.PublicPointer (archiveAfter watched) (archive [[0x73], [0x75]])
      (some 1) (some (archive [])) := fun content encrypted p hp => by
    have hname : Except.ok _ = Except.ok p.data.name := latestPointer_under hp
    rw [← Except.ok.inj hname]
    rfl
  have hrun : Run archiveController.step archiveController.Cautious archivist noted
      (archiveAfter noted) :=
    .cons (fun d hd => by cases hd) (t := archiveAfter (watched.take 1)) rfl
      (.cons (fun d hd => by cases hd) (t := archiveAfter watched) rfl
        (.cons hpublic rfl (.nil _)))
  exact ⟨rfl, restricted_confined archivist_initial hrun⟩

/-- Data that is pushed as it is leaves in the clear. -/
theorem pushed_plaintext_leaves :
    letI := Data.paddedHash
    let d : Data := Data.new (archive [[0x73], [0x75]]) [0x07]
    let es := watched ++ [.server (.publishPushed d)]
    Run archiveController.step anyStep archivist es (archiveAfter es) ∧
      (archiveController.matchingRule d.name).isSome ∧ (archiveAfter es).sent = [(100, .data d)] ∧
      ¬ (archiveAfter es).Confined archiveController.Secret := by
  let := Data.paddedHash
  refine ⟨run_of_exec rfl, rfl, rfl, fun h => ?_⟩
  exact Bool.false_ne_true (h.sent 100 _ (List.mem_singleton.mpr rfl) rfl).1

end AccessController

end RnsIcn
