import RnsIcn.Network.Provenance

/-! # Who reads restricted content in a network

Servers exchange the Data that they send, and one of them encrypts what it publishes under
restricted prefixes. Where the others make no Data under these, every copy of it in the network
is ciphertext. From any of them a consumer reads the plaintext exactly if it holds a capability.
-/

namespace RnsIcn

open Fallible Transition

namespace AccessController

open Server

variable [Hashlib] {C C' : AccessController} {s t : Server} {e : Event}

/-- The name that an operation encrypts content for. -/
def Event.published : Event → Option Name
  | .publishContent _ n .. | .publishPost _ n .. => some n
  | .server _ => none

theorem public_brings {l : Server.Label} {n : Name} {content : Bytes} {encrypted : Bool}
    {sequence : Option ℕ} {latestUnder : Option Name} (hn : C.matchingRule n = none)
    (hpublic : C.PublicPointer s n sequence latestUnder)
    (hl : s.brings l =
      match s.latestPointer n (edition n content encrypted sequence) sequence latestUnder with
      | .ok (some p) => [edition n content encrypted sequence, p.data]
      | _ => [edition n content encrypted sequence]) :
    ∀ d ∈ s.brings l, C.Secret.Admits d := by
  have hedition : C.Secret.Admits (edition n content encrypted sequence) := by
    refine secret_of_none ?_
    rw [(edition_name n content encrypted sequence).1, hn]
  rw [hl]
  split
  · rename_i p hp
    rintro d (_ | ⟨_, _ | ⟨_, hd⟩⟩)
    · exact hedition
    · exact secret_of_none (hpublic content encrypted p hp)
    · cases hd
  · intro d hd
    rw [List.mem_singleton.mp hd]
    exact hedition

/-- So does a step of another producer that publishes nothing under a restricted name. -/
theorem confined_step_public (h : s.Confined C.Secret) (he : C.Cautious s e)
    (hn : ∀ n ∈ e.published, C.matchingRule n = none) (hs : C'.step s e = some t) :
    t.Confined C.Secret := by
  cases e with
  | publishContent random n plaintext sequence latestUnder =>
    obtain rfl := Option.some.inj hs
    rw [Effect.after, publishContent, Effect.exec_bind, Effect.exec_ofExcept]
    cases hc : C'.encryptContent random n plaintext with
    | error e => exact h
    | ok made => exact publishContent_confined h (public_brings (hn n rfl) he rfl)
  | publishPost random n plaintext sequence latestUnder =>
    obtain rfl := Option.some.inj hs
    rw [Effect.after, publishPost, Effect.exec_bind, Effect.exec_ofExcept]
    cases hc : C'.encryptContent random n plaintext with
    | error e => exact h
    | ok made => exact publishPost_confined h (public_brings (hn n rfl) he rfl)
  | server l =>
    rw [step] at hs
    split at hs
    · cases hs
    · exact h.step he hs

end AccessController

namespace Network

open Server AccessController

variable [Hashlib] {ι : Type*} [DecidableEq ι] {C : ι → AccessController} {p : ι}
  {N M : ι → Server} {e : ι × AccessController.Event} {es : List (ι × AccessController.Event)}

/-- The pointers that are published have no name that the producer restricts, nor has the Data that
is made without encryption. Data that arrives was sent in the network. -/
def Discreet (C : AccessController) (N : ι → Server) (i : ι) :
    AccessController.Event → Prop
  | .publishContent _ n _ sequence latestUnder => C.PublicPointer (N i) n sequence latestUnder
  | .publishPost _ n _ sequence latestUnder => C.PublicPointer (N i) n (some sequence) latestUnder
  | .server l => Genuine N (i, l) ∧ ∀ d ∈ (N i).makes l, C.matchingRule d.name = none

/-- Only the producer publishes under the prefixes that it restricts. -/
def Exclusive (C : ι → AccessController) (p : ι) (N : ι → Server)
    (e : ι × AccessController.Event) : Prop :=
  (e.1 ≠ p → ∀ n ∈ e.2.published, (C p).matchingRule n = none) ∧ Discreet (C p) N e.1 e.2

omit [DecidableEq ι] in
theorem Discreet.cautious {C : AccessController} {i : ι} {e : AccessController.Event}
    (he : Discreet C N i e) (h : ∀ i, (N i).Confined C.Secret) : C.Cautious (N i) e := by
  cases e with
  | publishContent random n plaintext sequence latestUnder => exact he
  | publishPost random n plaintext sequence latestUnder => exact he
  | server l => exact he.1.brings h fun d hd => secret_of_none (he.2 d hd)

/-- A step of one of the servers preserves that all that leaves under a restricted name is
ciphertext. -/
theorem secret_step (h : ∀ i, (N i).Confined (C p).Secret) (he : Exclusive C p N e)
    (hs : interleave (fun i => (C i).step) N e = some M) (i : ι) :
    (M i).Confined (C p).Secret := by
  obtain ⟨hst, hne⟩ := interleave_eq_some hs
  by_cases hi : i = e.1
  · subst hi
    have hcautious := he.2.cautious h
    by_cases hp : e.1 = p
    · rw [← hp] at h ⊢
      exact AccessController.confined_step (h e.1) (hp ▸ hcautious) hst
    · exact confined_step_public (h e.1) hcautious (he.1 hp) hst
  · rw [hne i hi]
    exact h i

/-- Data that any server of the network holds under a prefix that one of them restricts is flagged,
and is what that producer has encrypted. A consumer reads the plaintext of it exactly if it holds an
unexpired capability for the rule of the name, and otherwise is left with the ciphertext. -/
theorem restricted_everywhere (h₀ : ∀ i, (N i).Initial)
    (h : Run (interleave fun i => (C i).step) (Exclusive C p) N es M) {i : ι} {d : Data}
    (hd : (M i).Has d) (hr : ((C p).matchingRule d.name).isSome) :
    d.metadata.encrypted = true ∧ ∃ random plaintext,
      (C p).encryptContent random d.name plaintext = .ok (d.content, true) ∧
      ∀ signer me a identities now, (C p).Ideal signer me a identities →
        (∀ c ∈ a.capabilities, (C p).Issued signer c) →
        ((a.maybeDecrypt identities now d).content = plaintext ∧
            (a.maybeDecrypt identities now d).metadata.encrypted = false ↔
          (C p).Readable me now d.name a.capabilities) ∧
        (¬ (C p).Readable me now d.name a.capabilities → a.maybeDecrypt identities now d = d) := by
  have hall : ∀ i, (M i).Confined (C p).Secret :=
    h.invariant (fun i => (h₀ i).confined) fun _ _ _ hk hok hs i => secret_step hk hok hs i
  obtain ⟨henc, random, plaintext, hmade⟩ := (hall i).admits_of_has hd hr
  have hmade : (C p).encryptContent random d.name plaintext = .ok (d.content, true) := hmade
  refine ⟨henc, random, plaintext, hmade, fun signer me a identities now hideal hissued => ?_⟩
  rw [← henc] at hmade
  obtain ⟨hiff, hkeep, -⟩ := decrypts_iff hideal hissued hmade
  exact ⟨hiff, hkeep⟩

def archives (i : Bool) : AccessController :=
  if i then archiveController else { archiveController with rules := [] }

def archiveNetwork (i : Bool) : Server :=
  if i then archivist else { rnsAddr := List.replicate 16 2 }

def archiveNetworkAfter (es : List (Bool × AccessController.Event)) : Bool → Server :=
  letI := Data.paddedHash
  (exec (interleave fun i => (archives i).step) archiveNetwork es).getD archiveNetwork

def sealedNote : Data where
  name := archive [[0x73], [0x75]]
  content := List.replicate 32 36 ++ [0x07]
  metadata := { contentHash := some (List.replicate 32 36), sequence := some 1, encrypted := true }

/-- Two peers introduce themselves to the other server, and the first hands it the note. -/
def noteHandedOn : List (Bool × AccessController.Event) :=
  [(false, .server .openFace), (false, .server .openFace),
    (false, .server (.incoming 100 (wireBytes (.peer { rnsAddr := List.replicate 16 10 })) drawn)),
    (false, .server (.incoming 101 (wireBytes (.peer { rnsAddr := List.replicate 16 3 })) drawn)),
    (false, .server (.incoming 100 (wireBytes (.data sealedNote)) drawn))]

/-- The only Data that arrives is the note, which was sent before, and nothing is made. -/
def deliversNote (N : Bool → Server) (e : Bool × AccessController.Event) : Bool :=
  letI := Data.paddedHash
  match e.2 with
  | .server l => ((N e.1).makes l).isEmpty && deliversOnly sealedNote N l
  | _ => false

omit [Hashlib] in
theorem exclusive_of_deliversNote {N : Bool → Server} {e : Bool × AccessController.Event}
    (h : deliversNote N e = true) :
    letI := Data.paddedHash
    Exclusive archives true N e := by
  let := Data.paddedHash
  obtain ⟨i, e⟩ := e
  cases e with
  | publishContent random n plaintext sequence latestUnder => cases h
  | publishPost random n plaintext sequence latestUnder => cases h
  | server l =>
    obtain ⟨hmakes, harrives⟩ := Bool.and_eq_true_iff.mp h
    refine ⟨fun _ _ hn => absurd hn (Option.not_mem_none _),
      genuine_of_deliversOnly rfl harrives, fun d hd => ?_⟩
    rw [List.isEmpty_iff.mp hmakes] at hd
    cases hd

/-- The note is published while the archive is watched, and is handed on. -/
def noteSpread : List (Bool × AccessController.Event) :=
  watched.map (Prod.mk true) ++ ((true, .publishPost [0x09] (archive [[0x73], [0x75]]) [0x07] 1
    (some (archive []))) :: noteHandedOn)

omit [Hashlib] in
theorem noteSpread_run :
    letI := Data.paddedHash
    Run (interleave fun i => (archives i).step) (Exclusive archives true) archiveNetwork noteSpread
      (archiveNetworkAfter noteSpread) := by
  let := Data.paddedHash
  have hwatched : Run (interleave fun i => (archives i).step) (Exclusive archives true)
      archiveNetwork (watched.map (Prod.mk true))
      (archiveNetworkAfter (watched.map (Prod.mk true))) :=
    run_of_exec_check deliversNote (fun _ _ => exclusive_of_deliversNote) rfl rfl
  have hpublic : archiveController.PublicPointer
      (archiveNetworkAfter (watched.map (Prod.mk true)) true) (archive [[0x73], [0x75]]) (some 1)
      (some (archive [])) := fun content encrypted p hp => by
    have hname : Except.ok _ = Except.ok p.data.name := latestPointer_under hp
    rw [← Except.ok.inj hname]
    rfl
  refine hwatched.append (.cons ⟨fun hne => absurd rfl hne, hpublic⟩
    (t := archiveNetworkAfter (noteSpread.take 3)) rfl ?_)
  exact run_of_exec_check deliversNote (fun _ _ => exclusive_of_deliversNote) rfl rfl

omit [Hashlib] in
/-- The note that the second peer is sent is read with the capability for its prefix. -/
theorem note_read :
    letI := Data.paddedHash
    (101, Packet.data sealedNote) ∈ (archiveNetworkAfter noteSpread false).sent ∧
      ∃ c random plaintext, readerCapability [[0x73]] = .ok c ∧
        archiveController.encryptContent random sealedNote.name plaintext =
          .ok (sealedNote.content, true) ∧
        ((readerAccess [c]).maybeDecrypt (fun _ => some fun _ _ => true) 9 sealedNote).content =
          plaintext := by
  let := Data.paddedHash
  have hinitial : ∀ i, (archiveNetwork i).Initial := by
    intro i
    cases i
    · exact ⟨⟨rfl, fun _ => rfl, rfl, rfl⟩, rfl, rfl, rfl, rfl, rfl, rfl⟩
    · exact archivist_initial
  have hsent : (101, Packet.data sealedNote) ∈ (archiveNetworkAfter noteSpread false).sent := by
    decide
  obtain ⟨-, random, plaintext, hmade, hread⟩ := restricted_everywhere hinitial noteSpread_run
    (.inr (.inl ⟨101, hsent⟩)) rfl
  obtain ⟨c, hc, hconsumer, hlive, hscope⟩ : ∃ c, readerCapability [[0x73]] = .ok c ∧
      c.consumer = reader ∧ c.isExpired 9 = false ∧ c.scope = archive [[0x73]] :=
    ⟨_, rfl, rfl, rfl, rfl⟩
  have hissued : ∀ x ∈ (readerAccess [c]).capabilities,
      archiveController.Issued archiveSigner x := by
    intro x hx
    obtain rfl := List.mem_singleton.mp hx
    exact ⟨_, _, _, _, _, hc⟩
  have hreadable : archiveController.Readable reader 9 sealedNote.name [c] :=
    .inr ⟨_, rfl, c, List.mem_singleton.mpr rfl, hconsumer, hlive, hscope⟩
  obtain ⟨hiff, -⟩ := hread archiveSigner reader (readerAccess [c]) (fun _ => some fun _ _ => true)
    9 (archive_ideal _) hissued
  exact ⟨hsent, c, random, plaintext, hc, hmade, (hiff.mpr hreadable).1⟩

end Network

end RnsIcn
