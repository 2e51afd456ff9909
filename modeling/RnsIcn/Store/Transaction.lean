import RnsIcn.Lib.Transaction
import RnsIcn.Store.Represented
import RnsIcn.Store.Serve

/-! # The connection of the Content Store

Reads delete the expired rows without committing this, and an insertion that raises
rolls it back. The rows that come back have expired, so the unexpired part of the
store is what it was.
-/

namespace RnsIcn

open Fallible Transaction Transition

/-- The clock reading of an operation that takes one. -/
def StoreOp.time : StoreOp → Option ℕ
  | .insert _ _ now | .get _ now | .getPrefix _ _ _ now | .purgeExpired now => some now
  | .evictLru _ | .remove _ | .invalidate _ _ => none

structure Connection where
  tables : Session ContentStore
  clock : ℕ := 0

namespace Connection

variable [Hashlib]

/-- The operation on the tables. What `insert` and `remove` do before their block does not roll
back. -/
def execute (s : Session ContentStore) : StoreOp → Session ContentStore
  | .insert name d now =>
    match name.withoutContentHash.toBytes with
    | .error _ => s
    | .ok _ => s.block (s.current.insert name d now)
  | .get name now => s.change fun t => (t.get name now).1
  | .getPrefix name child minSequence now =>
    s.change fun t => (t.getPrefix name child minSequence now).1
  | .purgeExpired now => s.block (ε := PyError) (.ok (s.current.purgeExpired now))
  | .evictLru targetCount => s.block (ε := PyError) (.ok (s.current.evictLru targetCount))
  | .remove name =>
    match s.current.remove name with
    | .error _ => s
    | .ok (t, _) => s.block (ε := PyError) (.ok t)
  | .invalidate name byPrefix => s.block ((s.current.invalidate name byPrefix).map Prod.fst)

theorem execute_insert (s : Session ContentStore) (name : Name) (d : Data) (now : ℕ) :
    execute s (.insert name d now) = s ∨
      execute s (.insert name d now) = s.block (s.current.insert name d now) := by
  simp only [execute]
  split
  · exact .inl rfl
  · exact .inr rfl

theorem execute_remove (s : Session ContentStore) (name : Name) :
    execute s (.remove name) = s ∨
      ∃ key, execute s (.remove name) = s.block (ε := PyError) (.ok (s.current.deleteRow key)) := by
  simp only [execute]
  split
  · exact .inl rfl
  · rename_i t existed hr
    obtain ⟨key, -, hk⟩ := bind_eq_ok.mp hr
    obtain ⟨rfl, -⟩ := Prod.mk.inj (Except.ok.inj hk)
    exact .inr ⟨key, rfl⟩

def apply (c : Connection) (op : StoreOp) : Connection where
  tables := execute c.tables op
  clock := op.time.getD c.clock

def step (c : Connection) (op : StoreOp) : Option Connection := some (c.apply op)

/-- The clock does not go backwards. -/
def InOrder (c : Connection) (op : StoreOp) : Prop := ∀ now ∈ op.time, c.clock ≤ now

/-- A connection to a represented store, with nothing open. -/
structure Opened (c : Connection) : Prop where
  represented : c.tables.committed.Represented
  settled : c.tables.current = c.tables.committed

/-- Both states are represented, and what the current one lacks of the committed one has
expired. -/
structure Coherent (c : Connection) : Prop where
  represented : c.tables.Both ContentStore.Represented
  sub : ContentStore.Sub c.tables.current c.tables.committed
  expired : ∀ key row, c.tables.committed.content.get? key = some row →
    c.tables.current.content.get? key = none → row.Expired c.clock

variable {c c' : Connection} {key : Bytes} {row : Row}

theorem Opened.coherent (h : c.Opened) : c.Coherent where
  represented := ⟨h.represented, h.settled ▸ h.represented⟩
  sub := by
    rw [h.settled]
    exact ContentStore.sub_refl _
  expired key row hr hnone := by
    rw [h.settled, hr] at hnone
    cases hnone

theorem coherent_block {s : Session ContentStore} {x : Except PyError ContentStore} {clock : ℕ}
    (h : s.Both ContentStore.Represented) (hx : ∀ t, x = .ok t → t.Represented) :
    Coherent ⟨s.block x, clock⟩ :=
  Opened.coherent ⟨(h.block hx).1, s.block_settled x⟩

theorem Coherent.sweep (h : c.Coherent) {now : ℕ} (hle : c.clock ≤ now) :
    Coherent ⟨c.tables.change (·.purgeExpired now), now⟩ where
  represented := h.represented.change fun hr => hr.deleteRows _
  sub key row hr := h.sub key row (ContentStore.deleteRows_sub _ _ key row hr)
  expired key row hr hnone := by
    by_cases hcurrent : c.tables.current.content.get? key = none
    · exact (h.expired key row hr hcurrent).mono hle
    · obtain ⟨row', hrow'⟩ := Option.ne_none_iff_exists'.mp hcurrent
      have hsame : row' = row := Option.some.inj ((h.sub key row' hrow').symm.trans hr)
      subst hsame
      by_contra hlive
      have hkept : (c.tables.current.purgeExpired now).content.get? key = some row' :=
        ContentStore.get?_purgeExpired.mpr ⟨hrow', hlive⟩
      have hgone : (c.tables.current.purgeExpired now).content.get? key = none := hnone
      rw [hkept] at hgone
      cases hgone

theorem Coherent.apply (h : c.Coherent) {op : StoreOp} (hop : c.InOrder op) :
    (c.apply op).Coherent := by
  cases op with
  | insert name d now =>
    rw [Connection.apply]
    rcases execute_insert c.tables name d now with he | he
    · rw [he]
      exact ⟨h.represented, h.sub,
        fun key row hr hn => (h.expired key row hr hn).mono (hop now rfl)⟩
    · rw [he]
      exact coherent_block h.represented fun t ht => h.represented.2.insert ht
  | get name now => exact h.sweep (hop now rfl)
  | getPrefix name child minSequence now => exact h.sweep (hop now rfl)
  | purgeExpired now =>
    rw [Connection.apply, execute]
    apply coherent_block h.represented
    rintro _ ⟨⟩
    exact h.represented.2.deleteRows _
  | evictLru targetCount =>
    rw [Connection.apply, execute]
    apply coherent_block h.represented
    rintro _ ⟨⟩
    exact h.represented.2.deleteRows _
  | remove name =>
    rw [Connection.apply]
    rcases execute_remove c.tables name with he | ⟨k, he⟩
    · rw [he]
      exact h
    · rw [he]
      apply coherent_block h.represented
      rintro _ ⟨⟩
      exact h.represented.2.deleteRows [k]
  | invalidate name byPrefix =>
    rw [Connection.apply]
    apply coherent_block h.represented
    intro t ht
    have happly := h.represented.2.apply (.invalidate name byPrefix)
    rw [ContentStore.apply, ht] at happly
    exact happly

theorem coherent_of_run {ops : List StoreOp} (hc : c.Opened) (h : Run step InOrder c ops c') :
    c'.Coherent :=
  h.invariant hc.coherent fun c op c' hi hop hs => by
    obtain rfl := Option.some.inj hs
    exact hi.apply hop

theorem tables_of_raised {name : Name} {d : Data} {now : ℕ} {e : PyError}
    (h : c.tables.current.insert name d now = .error e) :
    (c.apply (.insert name d now)).tables.current = c.tables.current ∨
      (c.apply (.insert name d now)).tables.current = c.tables.committed := by
  rw [Connection.apply]
  rcases execute_insert c.tables name d now with he | he
  · rw [he]
    exact .inl rfl
  · rw [he, h]
    exact .inr rfl

/-- An unexpired row is in the current state exactly if it is in the committed one. -/
theorem Coherent.get?_iff (h : c.Coherent) {now : ℕ} (hle : c.clock ≤ now)
    (hlive : ¬ row.Expired now) : c.tables.committed.content.get? key = some row ↔
      c.tables.current.content.get? key = some row := by
  constructor
  · intro hr
    cases hcurrent : c.tables.current.content.get? key with
    | none => exact absurd ((h.expired key row hr hcurrent).mono hle) hlive
    | some row' => rw [← hr, h.sub key row' hcurrent]
  · exact h.sub key row

theorem Coherent.index_iff (h : c.Coherent) (hr : c.tables.current.content.get? key = some row)
    (x : Bytes) : (x, key) ∈ c.tables.committed.namePrefixes ↔
      (x, key) ∈ c.tables.current.namePrefixes := by
  obtain ⟨n, hrow⟩ := h.represented.2.row key row hr
  have hrow' : c.tables.committed.HoldsRow n key row :=
    ⟨h.sub key row hr, hrow.encodable, hrow.unpinned, hrow.key, hrow.nameBytes⟩
  rw [h.represented.1.index, h.represented.2.index]
  constructor
  · rintro ⟨m, row', hm, hi⟩
    exact ⟨n, row, hrow, hm.unique hrow' ▸ hi⟩
  · rintro ⟨m, row', hm, hi⟩
    exact ⟨n, row, hrow', hm.unique hrow ▸ hi⟩

theorem current_invalidated {A : Name → Prop} (hA : Distinguished A) {n m : Name}
    (h : c.Coherent) (hm : c.tables.current.HoldsRow m key row) (hn : A n) (hmA : A m)
    (hu : n.contentHash = none) :
    (c.apply (.invalidate n true)).tables.current.content.get? key =
      if m.startsWith n = true then none else some row := by
  have hblock : (c.apply (.invalidate n true)).tables =
      c.tables.block ((c.tables.current.invalidate n true).map Prod.fst) := rfl
  rw [hblock, ContentStore.invalidate]
  cases hk : ContentStore.nameHash n with
  | error e =>
    -- The block is rolled back, and no stored name starts with a name that cannot be encoded.
    have hno : m.startsWith n ≠ true := by
      intro hs
      have he := hm.encodable.of_startsWith hu hs
      rw [ContentStore.nameHash_eq_ok.mpr ⟨he, rfl⟩] at hk
      cases hk
    rw [if_neg hno]
    exact h.sub key row hm.get
  | ok hash =>
    obtain ⟨he, rfl⟩ := ContentStore.nameHash_eq_ok.mp hk
    exact h.represented.2.get?_invalidated hA hm hn hmA hu he

/-- After any operations in the order of the clock, the tables represent a map from names, an
insertion that succeeds leaves the store within its capacity, a prefix invalidation deletes the
names under the prefix, and an insertion that raises leaves the unexpired part as it was. -/
theorem store_invariant {A : Name → Prop} (hA : Distinguished A) {ops : List StoreOp}
    (hc : c.Opened) (h : Run step InOrder c ops c') :
    c'.tables.current.Represented ∧
    (∀ key key' row row', c'.tables.current.content.get? key = some row →
      c'.tables.current.content.get? key' = some row' → row.nameBytes = row'.nameBytes →
        key = key') ∧
    (∀ name d now t, c'.tables.current.insert name d now = .ok t →
      (c'.apply (.insert name d now)).tables.current = t ∧ t.content.size ≤ t.max) ∧
    (∀ n m key row, A n → n.contentHash = none → A m → c'.tables.current.HoldsRow m key row →
      (c'.apply (.invalidate n true)).tables.current.content.get? key =
        if m.startsWith n = true then none else some row) ∧
    ∀ name d now e, c'.clock ≤ now → c'.tables.current.insert name d now = .error e →
      ∀ key row, ¬ row.Expired now →
        ((c'.apply (.insert name d now)).tables.current.content.get? key = some row ↔
          c'.tables.current.content.get? key = some row) ∧
        (c'.tables.current.content.get? key = some row → ∀ x,
          (x, key) ∈ (c'.apply (.insert name d now)).tables.current.namePrefixes ↔
            (x, key) ∈ c'.tables.current.namePrefixes) := by
  have hcoherent := coherent_of_run hc h
  refine ⟨hcoherent.represented.2, fun key key' row row' hr hr' hn =>
    hcoherent.represented.2.key_unique hr hr' hn, ?_, ?_, ?_⟩
  · intro name d now t hi
    refine ⟨?_, ContentStore.insert_size_le hi⟩
    rw [Connection.apply]
    rcases execute_insert c'.tables name d now with he | he
    · obtain ⟨nameBytes, prefixes, hb, -⟩ := ContentStore.insert_eq_ok hi
      simp [execute, hb, hi, Session.block]
    · rw [he, hi]
      rfl
  · intro n m key row hn hu hmA hm
    exact current_invalidated hA hcoherent hm hn hmA hu
  · intro name d now e hle hi key row hlive
    rcases tables_of_raised hi with ht | ht
    · rw [ht]
      exact ⟨Iff.rfl, fun _ _ => Iff.rfl⟩
    · rw [ht]
      exact ⟨hcoherent.get?_iff hle hlive, fun hr x => hcoherent.index_iff hr x⟩

def shortLived : Connection := ⟨⟨{ defaultTtl := some 5 }, { defaultTtl := some 5 }⟩, 0⟩

omit [Hashlib] in
theorem opened_shortLived : letI := Data.paddedHash; shortLived.Opened :=
  letI := Data.paddedHash
  ⟨.empty rfl rfl, rfl⟩

/-- The connection after an insertion and a read at time 7, which sweeps the row. -/
def swept : Connection :=
  (shortLived.apply (.insert ContentStore.editionName
    (ContentStore.signedHi ContentStore.editionName) 0)).apply (.get ContentStore.editionName 7)

omit [Hashlib] in
/-- An insertion of a sequence that SQLite does not bind brings the swept row back, which has
expired. -/
theorem swept_row_restored :
    letI := Data.paddedHash
    let d := ContentStore.signedHi ContentStore.editionName
    let tooLarge := { d with metadata := { d.metadata with sequence := some (2 ^ 63) } }
    let raised := swept.apply (.insert ContentStore.editionName tooLarge 8)
    swept.tables.current.Represented ∧ swept.tables.current.content.size = 0 ∧
      raised.tables.current.content.size = 1 ∧
      ∀ key row, ¬ row.Expired 8 → (raised.tables.current.content.get? key = some row ↔
        swept.tables.current.content.get? key = some row) := by
  intro d tooLarge raised
  let := Data.paddedHash
  have hA := distinguished_ancestors (n := ContentStore.editionName) rfl (by decide)
  have hrun : Run step InOrder shortLived
      [.insert ContentStore.editionName (ContentStore.signedHi ContentStore.editionName) 0,
        .get ContentStore.editionName 7] swept :=
    .cons (by rintro _ ⟨⟩; exact Nat.zero_le _) rfl (.cons (by rintro _ ⟨⟩; decide) rfl (.nil _))
  obtain ⟨hrepresented, -, -, -, hraised⟩ := store_invariant hA opened_shortLived hrun
  refine ⟨hrepresented, rfl, rfl, fun key row hlive => ?_⟩
  exact (hraised _ _ 8 .overflowError (by decide) rfl key row hlive).1

end Connection

end RnsIcn
