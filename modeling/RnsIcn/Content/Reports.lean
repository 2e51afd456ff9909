import Mathlib.Data.List.Find
import RnsIcn.Content.Assembler
import RnsIcn.Content.RoundTrip

/-! # Reports on chunks

A report has one result for each label, which is that of the last chunk with the label. The
assembly checks every chunk.
-/

namespace RnsIcn

open Fallible

namespace Assembler

def lastRef (m : ContentManifest) (label : Key) : Option ChunkRef :=
  m.chunks.reverse.find? fun ref => ref.label.key.toOption = some label

section Errors

end Errors

variable [Hashlib] {m : ContentManifest} {chunks : Dict String Data}
  {validator : Option (Bytes → Bytes → Bool)} {ref : ChunkRef} {d : Data} {e : PyError}

/-- The packet under the label of the chunk passes its checks. -/
def Passes (chunks : Dict String Data) (validator : Option (Bytes → Bytes → Bool))
    (ref : ChunkRef) : Prop :=
  ∃ d, get chunks ref.label = .ok (some d) ∧ d.metadata.contentHash = some ref.contentHash ∧
    blake2b d.content = ref.contentHash ∧
    ∀ validate ∈ validator, d.verifySignature validate = .ok true

/-- What one pass of `verify_chunks` finds. -/
def report (chunks : Dict String Data) (validator : Option (Bytes → Bytes → Bool))
    (ref : ChunkRef) : Except PyError Bool := do
  match ← get chunks ref.label with
  | none => pure false
  | some d => verifyChunk ref d validator

/-- What one pass of `verify_chunks` sets. -/
def entry (chunks : Dict String Data) (validator : Option (Bytes → Bytes → Bool))
    (ref : ChunkRef) : Except PyError (Key × Bool) := do
  let verified ← report chunks validator ref
  return (← ref.label.key, verified)

/-- The result for a chunk where there is one. -/
def verified (chunks : Dict String Data) (validator : Option (Bytes → Bytes → Bool))
    (ref : ChunkRef) : Bool :=
  (report chunks validator ref).toOption.getD false

omit [Hashlib] in
theorem mem_of_lastRef {label : Key} (h : lastRef m label = some ref) :
    ref ∈ m.chunks ∧ ref.label.key = .ok label := by
  have hlabel := List.find?_some h
  exact ⟨List.mem_reverse.mp (List.mem_of_find?_eq_some h),
    toOption_eq_some.mp (of_decide_eq_true hlabel)⟩

/-- Every label is a key, and the last chunk with it passes. -/
def LastPass (m : ContentManifest) (chunks : Dict String Data)
    (validator : Option (Bytes → Bytes → Bool)) : Prop :=
  ∀ ref ∈ m.chunks, ∃ label last, ref.label.key = .ok label ∧ lastRef m label = some last ∧
    Passes chunks validator last

omit [Hashlib] in
theorem Json.key_eq_ok_str {v : Json} {s : String} : v.key = .ok (.str s) ↔ v = .str s := by
  cases v <;> simp [Json.key]

theorem Passes.label_eq {last : ChunkRef} {label : Key} (h : Passes chunks validator last)
    (hlast : last.label.key = .ok label) (href : ref.label.key = .ok label) :
    last.label = ref.label := by
  obtain ⟨d, hget, -⟩ := h
  obtain ⟨s, hs, -⟩ := get_eq_ok_some.mp hget
  rw [hs] at hlast
  obtain rfl := Except.ok.inj hlast
  exact hs.trans (Json.key_eq_ok_str.mp href).symm

theorem LastPass.last (h : LastPass m chunks validator) (href : ref ∈ m.chunks) :
    ∃ last ∈ m.chunks, last.label = ref.label ∧ Passes chunks validator last := by
  obtain ⟨label, last, hlabel, hlast, hpasses⟩ := h ref href
  obtain ⟨hmem, hkey⟩ := mem_of_lastRef hlast
  exact ⟨last, hmem, hpasses.label_eq hkey hlabel, hpasses⟩

section Missing

omit [Hashlib]

def held (chunks : Dict String Data) (ref : ChunkRef) : Bool :=
  (get chunks ref.label).toOption.join.isSome

end Missing

end Assembler

namespace Assembler

def listed : ContentManifest where
  name := ⟨List.replicate 16 0x01, [], none⟩
  chunks := [{ label := .list [], contentHash := [], size := .null }]
  totalSize := .null

end Assembler

end RnsIcn
