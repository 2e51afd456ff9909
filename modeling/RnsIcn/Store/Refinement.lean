import Mathlib.Data.Set.Card
import RnsIcn.Lib.Simulation
import RnsIcn.Store.Archive
import RnsIcn.Store.Fits
import RnsIcn.Store.Recency
import RnsIcn.Store.Selection
import RnsIcn.Store.Transaction

/-! # The Content Store is an archive

The tables of a connection represent an archive, each row a deposit. Every operation replies
as the archive may and leaves tables that represent what the archive then holds, so all
replies of a run are those of an archive. An insertion that raises brings back rows that were
swept, and these have expired.
-/

namespace RnsIcn

open Fallible Transition Simulation

variable [Hashlib]

/-- A set of names of the wire format that the hash tells apart. -/
structure Vocabulary (A : Name → Prop) : Prop extends Distinguished A where
  legal : ∀ n, A n → n.WellFormed

theorem Vocabulary.unpin {A : Name → Prop} (hA : Vocabulary A) {n : Name} (h : A n) :
    A n.withoutContentHash := hA.toDistinguished.unpinned h

theorem Vocabulary.encodable {A : Name → Prop} (hA : Vocabulary A) {n : Name} (h : A n) :
    n.Encodable := (hA.legal n h).encodable

omit [Hashlib] in
theorem Name.WellFormed.ancestor {n : Name} (h : n.WellFormed) (i : ℕ) :
    (n.ancestor i).WellFormed where
  addr := h.addr
  count := by
    have hc := h.count
    simp only [Name.len, Name.components, Name.ancestor, List.length_cons,
      List.length_take] at hc ⊢
    omega
  component comp hm := by
    refine h.component comp ?_
    rcases List.mem_cons.mp hm with rfl | hm
    · exact List.mem_cons_self
    · exact List.mem_cons_of_mem _ (List.mem_of_mem_take hm)
  pin x hx := by cases hx

def StoreOp.Names (A : Name → Prop) : StoreOp → Prop
  | .insert name _ _ | .get name _ | .getPrefix name _ _ _ | .remove name | .invalidate name _ =>
    A name
  | .purgeExpired _ | .evictLru _ => True

def StoreReply.ofRead : Except PyError (Option Data) → StoreReply
  | .ok x => .found x
  | .error e => .raised e

namespace ContentStore

/-- What an operation gives back to its caller. -/
def reply (s : ContentStore) : StoreOp → StoreReply
  | .insert name d now =>
    match s.insert name d now with
    | .ok _ => .stored
    | .error e => .raised e
  | .get name now => .ofRead (s.get name now).2
  | .getPrefix name child minSequence now => .ofRead (s.getPrefix name child minSequence now).2
  | .purgeExpired now => .count (s.expiredKeys now).length
  | .evictLru targetCount => .count (s.lruKeys (s.content.size - targetCount)).length
  | .remove name =>
    match s.remove name with
    | .ok (_, existed) => .existed existed
    | .error e => .raised e
  | .invalidate name byPrefix =>
    match s.invalidate name byPrefix with
    | .ok (_, count) => .count count
    | .error e => .raised e

def sizeBytes (s : ContentStore) : ℕ := s.content.total Row.sizeBytes

end ContentStore

omit [Hashlib] in
theorem sqliteInt_cases (n : ℕ) :
    n < 2 ^ 63 ∧ sqliteInt n = .ok () ∨ ¬ n < 2 ^ 63 ∧ sqliteInt n = .error .overflowError := by
  by_cases h : n < 2 ^ 63
  · exact .inl ⟨h, if_pos h⟩
  · exact .inr ⟨h, if_neg h⟩

omit [Hashlib] in
theorem sqliteInt_eq_ok {n : ℕ} : sqliteInt n = .ok () ↔ n < 2 ^ 63 := by
  rcases sqliteInt_cases n with ⟨h, he⟩ | ⟨h, he⟩ <;> simp only [he, h, reduceCtorEq]

omit [Hashlib] in
theorem sqliteOptInt_eq_ok {x : Option ℕ} : sqliteOptInt x = .ok () ↔ ∀ n ∈ x, n < 2 ^ 63 := by
  cases x with
  | none => simp [sqliteOptInt]
  | some n => simp [sqliteOptInt, sqliteInt_eq_ok]

omit [Hashlib] in
theorem sqliteInt_eq_error {n : ℕ} {e : PyError} (h : sqliteInt n = .error e) :
    e = .overflowError := by
  rcases sqliteInt_cases n with ⟨-, he⟩ | ⟨-, he⟩
  · rw [he] at h
    cases h
  · exact (Except.error.inj (he.symm.trans h)).symm

omit [Hashlib] in
theorem sqliteOptInt_eq_error {x : Option ℕ} {e : PyError} (h : sqliteOptInt x = .error e) :
    e = .overflowError := by
  cases x with
  | none => cases h
  | some n => exact sqliteInt_eq_error h

omit [Hashlib] in
theorem then_eq_ok {α : Type} {x : Except PyError Unit} {f : Unit → Except PyError α} {v : α} :
    x >>= f = .ok v ↔ x = .ok () ∧ f () = .ok v := by
  cases x with
  | error e => simp [bind, Except.bind]
  | ok u => simp [bind, Except.bind]

namespace Deposit

open ContentStore

variable {dep : Deposit} {n m : Name} {now : ℕ}

/-- The row that an insertion writes for the deposit. -/
def row (dep : Deposit) (n : Name) : Row := makeRow n.encode dep.data dep.time dep.ttl

omit [Hashlib] in
theorem Expired.mono {now' : ℕ} (h : dep.Expired now) (hle : now ≤ now') : dep.Expired now' := by
  obtain ⟨ttl, httl, hpos, hx⟩ := h
  exact ⟨ttl, httl, hpos, hx.trans hle⟩

theorem expired_row : (dep.row n).Expired now ↔ dep.Expired now := by
  rw [Row.Expired, Expired, row, makeRow]
  cases hd : dep.ttl with
  | none => simp [calculateExpiresAt]
  | some ttl =>
    by_cases hz : ttl = 0
    · simp [calculateExpiresAt, hz]
    · simp [calculateExpiresAt, hz, Nat.pos_of_ne_zero hz]

theorem verify_row : verifyContent (dep.row n) = true ↔ dep.Genuine := by
  rw [verifyContent, beq_iff_eq]
  rfl

theorem rowData_row : rowData (dep.row n) m now = dep.served m now := by
  have hperiod : (dep.data.metadata.freshnessPeriod <|> dep.data.metadata.freshnessPeriod) =
      dep.data.metadata.freshnessPeriod := by
    cases dep.data.metadata.freshnessPeriod <;> rfl
  simp only [rowData, parseMetadata, parseSignature, row, makeRow, served, hperiod]
  rfl

theorem bind_row : bindRow (dep.row n) = .ok () ↔ dep.Fits := by
  rw [bindRow]
  simp only [then_eq_ok, sqliteInt_eq_ok, sqliteOptInt_eq_ok, row, makeRow]
  constructor
  · rintro ⟨hseq, hage, hperiod, htime, hexpiry, hsize⟩
    refine ⟨hseq, fun hf => by simpa [hf] using hage, hperiod, htime, fun ttl httl hpos => ?_,
      hsize⟩
    exact hexpiry _ (by rw [Option.mem_def.mp httl, calculateExpiresAt, if_neg hpos.ne']; rfl)
  · intro h
    refine ⟨h.sequence, ?_, h.freshnessPeriod, h.time, fun x hx => ?_, h.size⟩
    · split
      · exact Nat.two_pow_pos 63
      · rename_i hf
        exact h.age (by simpa using hf)
    · cases httl : dep.ttl with
      | none =>
        rw [httl] at hx
        cases hx
      | some ttl =>
        rw [httl, calculateExpiresAt, Option.mem_def, Option.ite_none_left_eq_some] at hx
        obtain ⟨hz, hx⟩ := hx
        exact Option.some.inj hx ▸ h.expiry ttl httl (Nat.pos_of_ne_zero hz)

omit [Hashlib] in
theorem bindRow_eq_error {row : Row} {e : PyError} (h : bindRow row = .error e) :
    e = .overflowError := by
  simp only [bindRow, bind_eq_error] at h
  rcases h with h | ⟨-, -, h | ⟨-, -, h | ⟨-, -, h | ⟨-, -, h | ⟨-, -, h⟩⟩⟩⟩⟩
  · exact sqliteOptInt_eq_error h
  · exact sqliteInt_eq_error h
  · exact sqliteOptInt_eq_error h
  · exact sqliteInt_eq_error h
  · exact sqliteOptInt_eq_error h
  · exact sqliteInt_eq_error h

end Deposit

namespace ContentStore

/-- The rows of the tables are those of the deposits of the archive, all under names of the set. -/
structure Mirrors (A : Name → Prop) (s : ContentStore) (a : Archive) : Prop where
  represented : s.Represented
  row : ∀ n key row, s.HoldsRow n key row → ∃ dep, a n = some dep ∧ row = dep.row n
  held : ∀ n dep, a n = some dep → ∃ key, s.HoldsRow n key (dep.row n)
  mem : ∀ n dep, a n = some dep → A n

variable {A : Name → Prop} {s t : ContentStore} {a b : Archive} {n m : Name} {dep : Deposit}
  {key : Bytes} {keys : List Bytes} {now : ℕ}

theorem Mirrors.holdsRow (h : Mirrors A s a) (hd : a n = some dep) :
    s.HoldsRow n (blake2b n.encode) (dep.row n) := by
  obtain ⟨key, hrow⟩ := h.held n dep hd
  exact hrow.key ▸ hrow

theorem Mirrors.get?_eq (hA : Vocabulary A) (h : Mirrors A s a) (hn : A n) :
    s.content.get? (blake2b n.encode) = (a n).map fun dep => dep.row n := by
  cases hd : a n with
  | some dep => exact (h.holdsRow hd).get
  | none =>
    rw [Option.map_none, ← Option.not_isSome_iff_eq_none, Option.isSome_iff_exists]
    rintro ⟨row, hrow⟩
    obtain ⟨m, hm⟩ := h.represented.row _ row hrow
    obtain ⟨dep, hdep, -⟩ := h.row m _ row hm
    have hmn := hA.hash m n (h.mem m dep hdep) hn hm.encodable (hA.encodable hn) hm.key.symm
    rw [hmn, hd] at hdep
    cases hdep

theorem Mirrors.contains_eq (hA : Vocabulary A) (h : Mirrors A s a) (hn : A n) :
    s.content.contains (blake2b n.encode) = (a n).isSome := by
  rw [Bool.eq_iff_iff, Dict.contains_iff, h.get?_eq hA hn]
  cases a n <;> simp

theorem Mirrors.bijOn (hA : Vocabulary A) (h : Mirrors A s a) :
    Set.BijOn (fun n : Name => blake2b n.encode) {n | a n ≠ none} ↑s.content.keys.toFinset := by
  refine ⟨?_, ?_, ?_⟩
  · intro n hn
    obtain ⟨dep, hd⟩ := Option.ne_none_iff_exists'.mp hn
    rw [List.coe_toFinset, Set.mem_ofPred_eq, Dict.mem_keys]
    exact ⟨_, (h.holdsRow hd).get⟩
  · intro n hn m hm he
    obtain ⟨dep, hd⟩ := Option.ne_none_iff_exists'.mp hn
    obtain ⟨dep', hd'⟩ := Option.ne_none_iff_exists'.mp hm
    have hn := h.mem n dep hd
    have hm := h.mem m dep' hd'
    exact hA.hash n m hn hm (hA.encodable hn) (hA.encodable hm) he
  · intro key hkey
    rw [List.coe_toFinset, Set.mem_ofPred_eq, Dict.mem_keys] at hkey
    obtain ⟨row, hrow⟩ := hkey
    obtain ⟨n, hn⟩ := h.represented.row key row hrow
    obtain ⟨dep, hd, -⟩ := h.row n key row hn
    exact ⟨n, by rw [Set.mem_ofPred_eq, hd]; exact Option.some_ne_none dep, hn.key.symm⟩

theorem Mirrors.size_eq (hA : Vocabulary A) (h : Mirrors A s a) : a.size = s.content.size := by
  have hbij := h.bijOn hA
  have hnodup : s.content.keys.Nodup := s.content.nodup
  rw [Archive.size, ← hbij.injOn.ncard_image, hbij.image_eq, Set.ncard_coe_finset,
    List.toFinset_card_of_nodup hnodup, Dict.keys, List.length_map, Dict.size]

theorem Mirrors.bytes_eq (hA : Vocabulary A) (h : Mirrors A s a) : a.bytes = s.sizeBytes := by
  let held (key : Bytes) : ℕ := (s.content.get? key).elim 0 Row.sizeBytes
  have hbytes : ∀ n ∈ {n | a n ≠ none}, ((a n).elim 0 fun dep => dep.data.content.length) =
      held (blake2b n.encode) := by
    intro n hn
    obtain ⟨dep, hd⟩ := Option.ne_none_iff_exists'.mp hn
    simp only [held, (h.holdsRow hd).get, hd]
    rfl
  have hnodup : s.content.keys.Nodup := s.content.nodup
  rw [Archive.bytes, finsum_mem_eq_of_bijOn (g := held) _ (h.bijOn hA) hbytes,
    finsum_mem_coe_finset,
    List.sum_toFinset _ hnodup, sizeBytes, Dict.total, Dict.values, Dict.keys, List.map_map,
    List.map_map]
  refine congrArg List.sum (List.map_congr_left fun e he => ?_)
  have hget : s.content.get? e.1 = some e.2 := Dict.get?_eq_some.mpr he
  simp [held, hget]

/-- A deletion of rows leaves the tables of the archive without what has these keys. -/
theorem Mirrors.deleteRows (h : Mirrors A s a)
    (hb : ∀ n dep, b n = some dep ↔ a n = some dep ∧ blake2b n.encode ∉ keys) :
    Mirrors A (s.deleteRows keys) b where
  represented := h.represented.deleteRows keys
  row n key row hrow := by
    obtain ⟨hrow, hkey⟩ := holdsRow_deleteRows.mp hrow
    obtain ⟨dep, hd, rfl⟩ := h.row n key row hrow
    exact ⟨dep, (hb n dep).mpr ⟨hd, hrow.key ▸ hkey⟩, rfl⟩
  held n dep hd := by
    obtain ⟨hd, hkey⟩ := (hb n dep).mp hd
    exact ⟨_, holdsRow_deleteRows.mpr ⟨h.holdsRow hd, hkey⟩⟩
  mem n dep hd := h.mem n dep ((hb n dep).mp hd).1

def unkeyed (a : Archive) (keys : List Bytes) : Archive :=
  fun n => if blake2b n.encode ∈ keys then none else a n

theorem unkeyed_eq_some :
    unkeyed a keys n = some dep ↔ a n = some dep ∧ blake2b n.encode ∉ keys := by
  rw [unkeyed, Option.ite_none_left_eq_some, and_comm]

/-- If the keys are those of the deposits that `P` says of, their rows are what is dropped. -/
theorem Mirrors.drops (h : Mirrors A s a) {P : Name → Deposit → Prop}
    (hk : ∀ n dep, a n = some dep → (blake2b n.encode ∈ keys ↔ P n dep)) :
    ∃ b, a.Drops P b ∧ Mirrors A (s.deleteRows keys) b := by
  refine ⟨unkeyed a keys, fun n dep => ?_, h.deleteRows fun n dep => unkeyed_eq_some⟩
  rw [unkeyed_eq_some]
  exact and_congr_right fun hd => not_congr (hk n dep hd)

theorem Mirrors.sweeps (h : Mirrors A s a) (now : ℕ) :
    ∃ b, a.Sweeps now b ∧ Mirrors A (s.purgeExpired now) b := by
  refine h.drops fun n dep hd => ?_
  rw [mem_expiredKeys (h.holdsRow hd).get, Deposit.expired_row]

omit [Hashlib] in
theorem le_of_mem_lruKeys {count : ℕ} {key' : Bytes} {row row' : Row}
    (hr : s.content.get? key = some row) (hr' : s.content.get? key' = some row')
    (hk : key ∈ s.lruKeys count) (hk' : key' ∉ s.lruKeys count) :
    row.insertedAt ≤ row'.insertedAt := by
  rw [lruKeys] at hk hk'
  set sorted := s.content.items.insertionSort fun x y => x.2.insertedAt ≤ y.2.insertedAt
    with hsorted
  have hpair : sorted.Pairwise fun x y => x.2.insertedAt ≤ y.2.insertedAt := by
    rw [hsorted]
    exact List.pairwise_insertionSort (fun x y : Bytes × Row => x.2.insertedAt ≤ y.2.insertedAt) _
  obtain ⟨⟨k, r⟩, he, rfl⟩ := List.mem_map.mp hk
  have hitem : (k, r) ∈ s.content.items :=
    (List.mem_insertionSort _).mp (List.mem_of_mem_take he)
  obtain rfl : row = r := Option.some.inj (hr.symm.trans (Dict.get?_eq_some.mpr hitem))
  have hmem : (key', row') ∈ sorted.take count ++ sorted.drop count := by
    rw [List.take_append_drop]
    exact (List.mem_insertionSort _).mpr (Dict.get?_eq_some.mp hr')
  rw [← List.take_append_drop count sorted, List.pairwise_append] at hpair
  rcases List.mem_append.mp hmem with hm | hm
  · exact absurd (List.mem_map.mpr ⟨_, hm, rfl⟩) hk'
  · exact hpair.2.2 _ he _ hm

theorem Mirrors.evicts (hA : Vocabulary A) (h : Mirrors A s a) (count : ℕ) :
    ∃ b, a.Evicts count b ∧ Mirrors A (s.evictLruInternal count) b := by
  have hb : Mirrors A (s.evictLruInternal count) (unkeyed a (s.lruKeys count)) :=
    h.deleteRows fun n dep => unkeyed_eq_some
  refine ⟨_, ⟨fun n dep hd => (unkeyed_eq_some.mp hd).1, ?_, ?_⟩, hb⟩
  · intro n m dep dep' hd hgone hd'
    obtain ⟨hd', hk'⟩ := unkeyed_eq_some.mp hd'
    refine le_of_mem_lruKeys (h.holdsRow hd).get (h.holdsRow hd').get ?_ hk'
    by_contra hk
    rw [unkeyed, if_neg hk, hd] at hgone
    cases hgone
  · obtain ⟨hnodup, hsub, hlen⟩ := keys_lruKeys s count
    have hsize := size_deleteRows hnodup hsub
    rw [hb.size_eq hA, h.size_eq hA, evictLruInternal]
    omega

theorem Mirrors.upsert (hA : Vocabulary A) (h : Mirrors A s a) (hn : A n)
    (hu : n.contentHash = none) {prefixes : List Bytes} (hp : prefixHashes n = .ok prefixes) :
    Mirrors A (s.upsert (blake2b n.encode) (dep.row n) prefixes)
      (Function.update a n (some dep)) := by
  have hrow (m : Name) (key : Bytes) (row : Row) :
      (s.upsert (blake2b n.encode) (dep.row n) prefixes).HoldsRow m key row ↔
        m = n ∧ key = blake2b n.encode ∧ row = dep.row n ∨
          key ≠ blake2b n.encode ∧ s.HoldsRow m key row :=
    holdsRow_upsert (hA.encodable hn) hu rfl rfl
  refine ⟨h.represented.upsert (hA.encodable hn) hu rfl hp, ?_, ?_, ?_⟩
  · intro m key row hm
    rcases (hrow m key row).mp hm with ⟨rfl, -, rfl⟩ | ⟨hne, hm⟩
    · exact ⟨dep, Function.update_self .., rfl⟩
    · have hmn : m ≠ n := by
        rintro rfl
        exact hne hm.key
      obtain ⟨dep', hd, hrow⟩ := h.row m key row hm
      exact ⟨dep', by rw [Function.update_of_ne hmn, hd], hrow⟩
  · intro m dep' hd
    by_cases hmn : m = n
    · subst hmn
      rw [Function.update_self] at hd
      obtain rfl := Option.some.inj hd
      exact ⟨_, (hrow m _ _).mpr (.inl ⟨rfl, rfl, rfl⟩)⟩
    · rw [Function.update_of_ne hmn] at hd
      refine ⟨_, (hrow m _ _).mpr (.inr ⟨fun he => hmn ?_, h.holdsRow hd⟩)⟩
      have hm := h.mem m dep' hd
      exact hA.hash m n hm hn (hA.encodable hm) (hA.encodable hn) he
  · intro m dep' hd
    by_cases hmn : m = n
    · exact hmn ▸ hn
    · rw [Function.update_of_ne hmn] at hd
      exact h.mem m dep' hd

theorem fromBytes_row (hA : Vocabulary A) (hn : A n) :
    Name.fromBytes (dep.row n).nameBytes = .ok n :=
  Name.fromBytes_encode (hA.encodable hn) (hA.legal n hn).count (hA.legal n hn).pin

theorem Mirrors.read (hA : Vocabulary A) (h : Mirrors A s a) (hn : A n) (now : ℕ) :
    ∃ x, s.read n now = .ok x ∧ a.Finds n now x := by
  have hu := hA.unpin hn
  have hrow := h.get?_eq hA hu
  rw [ContentStore.read, nameHash_eq_ok.mpr ⟨hA.encodable hu, rfl⟩]
  simp only [bind, Except.bind, hrow]
  cases hd : a n.withoutContentHash with
  | none =>
    refine ⟨none, rfl, fun d => ⟨(fun he => by cases he), ?_⟩⟩
    rintro ⟨dep, hdep, -⟩
    rw [hd] at hdep
    cases hdep
  | some dep =>
    simp only [Option.map_some, fromBytes_row hA hu]
    have hnone {p : Prop} (hp : dep.Genuine ∧ (∀ pin ∈ n.contentHash,
        blake2b dep.data.content = pin) → p) (hno : ¬ p) : a.Finds n now none := by
      refine fun d => ⟨(fun he => by cases he), ?_⟩
      rintro ⟨dep', hdep, hg, hpin, -⟩
      rw [hd] at hdep
      obtain rfl := Option.some.inj hdep
      exact absurd (hp ⟨hg, hpin⟩) hno
    by_cases hg : dep.Genuine
    · have hverify := Deposit.verify_row (n := n.withoutContentHash).mpr hg
      by_cases hpin : ∀ pin ∈ n.contentHash, blake2b dep.data.content = pin
      · have hpass : n.contentHash.any (fun pin =>
            blake2b (dep.row n.withoutContentHash).contentBytes != pin) = false := by
          rw [Option.any_eq_false]
          intro pin hp
          rw [bne_eq_false_iff_eq]
          exact hpin pin hp
        refine ⟨some (dep.served n.withoutContentHash now), ?_, fun d => ?_⟩
        · simp only [hverify, hpass, Bool.not_true, Bool.false_eq_true, if_false, pure,
            Except.pure, Deposit.rowData_row]
        · constructor
          · intro he
            exact ⟨dep, hd, hg, hpin, (Option.some.inj he).symm⟩
          · rintro ⟨dep', hdep, -, -, rfl⟩
            rw [hd] at hdep
            obtain rfl := Option.some.inj hdep
            rfl
      · refine ⟨none, ?_, hnone And.right hpin⟩
        have hfail : n.contentHash.any (fun pin =>
            blake2b (dep.row n.withoutContentHash).contentBytes != pin) = true := by
          rw [Option.any_eq_true]
          obtain ⟨pin, hp, hne⟩ : ∃ pin ∈ n.contentHash, blake2b dep.data.content ≠ pin := by
            simpa using hpin
          exact ⟨pin, hp, bne_iff_ne.mpr hne⟩
        simp only [hverify, hfail, Bool.not_true, Bool.false_eq_true, if_false, if_true, pure,
          Except.pure]
    · refine ⟨none, ?_, hnone And.left hg⟩
      have hverify : verifyContent (dep.row n.withoutContentHash) = false := by
        rw [← Bool.not_eq_true, Deposit.verify_row]
        exact hg
      simp only [hverify, Bool.not_false, if_true, pure, Except.pure]

section Rows

variable {child : ChildSelector} {floor : Option ℕ} {row row' : Row} {rows : List Row}

def Suits (child : ChildSelector) (row : Row) (m : Name) : Prop :=
  verifyContent row = true ∧ (child ≠ .none → Discovery.isReserved m = false)

theorem firstValid_of_suits (hm : Name.fromBytes row.nameBytes = .ok m) (h : Suits child row m) :
    firstValid child now (row :: rows) = .ok (some (rowData row m now)) := by
  have hno : ¬ (child != .none && Discovery.isReserved m) = true := by
    rw [Bool.and_eq_true, bne_iff_ne, not_and, Bool.not_eq_true]
    exact h.2
  simp only [firstValid, hm, bind, Except.bind, if_neg hno, h.1, if_true, pure, Except.pure]

theorem firstValid_of_not_suits (hm : Name.fromBytes row.nameBytes = .ok m)
    (h : ¬ Suits child row m) :
    firstValid child now (row :: rows) = firstValid child now rows := by
  simp only [firstValid, hm, bind, Except.bind]
  by_cases hres : (child != .none && Discovery.isReserved m) = true
  · rw [if_pos hres]
  · have hverify : ¬ verifyContent row = true := fun hv => h ⟨hv, fun hc => by
      simpa [hc] using hres⟩
    rw [if_neg hres, if_neg hverify]

/-- If all names read back, the answer is the first row that may be given out, or nothing if there
is none. -/
theorem firstValid_cases (child : ChildSelector) (now : ℕ)
    (hread : ∀ row ∈ rows, ∃ m, Name.fromBytes row.nameBytes = .ok m) :
    (firstValid child now rows = .ok none ∧
      ∀ row ∈ rows, ∀ m, Name.fromBytes row.nameBytes = .ok m → ¬ Suits child row m) ∨
    ∃ pre row post m, rows = pre ++ row :: post ∧ Name.fromBytes row.nameBytes = .ok m ∧
      Suits child row m ∧ firstValid child now rows = .ok (some (rowData row m now)) ∧
      ∀ r ∈ pre, ∀ m', Name.fromBytes r.nameBytes = .ok m' → ¬ Suits child r m' := by
  induction rows with
  | nil => exact .inl ⟨rfl, List.forall_mem_nil _⟩
  | cons row rows ih =>
    obtain ⟨⟨m, hm⟩, hrest⟩ := List.forall_mem_cons.mp hread
    by_cases hs : Suits child row m
    · exact .inr ⟨[], row, rows, m, rfl, hm, hs, firstValid_of_suits hm hs, List.forall_mem_nil _⟩
    · have hno : ∀ m', Name.fromBytes row.nameBytes = .ok m' → ¬ Suits child row m' :=
        fun m' hm' => ok_inj hm hm' ▸ hs
      rw [firstValid_of_not_suits hm hs]
      rcases ih hrest with ⟨hnone, hall⟩ | ⟨pre, r, post, m', rfl, hm', hs', hsome, hpre⟩
      · exact .inl ⟨hnone, List.forall_mem_cons.mpr ⟨hno, hall⟩⟩
      · exact .inr ⟨row :: pre, r, post, m', rfl, hm', hs', hsome,
          List.forall_mem_cons.mpr ⟨hno, hpre⟩⟩

theorem preferred_iff {dep' : Deposit}
    (h : child ≠ .none → dep.data.metadata.sequence.isSome = true ∧
      dep'.data.metadata.sequence.isSome = true) :
    dep.Preferred child dep' ↔ rankLe child (dep.row n) (dep'.row m) = true := by
  have hseq (hc : child ≠ .none) : dep.data.metadata.sequence = dep'.data.metadata.sequence ↔
      dep.data.metadata.sequence.getD 0 = dep'.data.metadata.sequence.getD 0 := by
    obtain ⟨q, hq⟩ := Option.isSome_iff_exists.mp (h hc).1
    obtain ⟨q', hq'⟩ := Option.isSome_iff_exists.mp (h hc).2
    simp [hq, hq']
  cases child with
  | none => simp only [Deposit.Preferred, rankLe, decide_eq_true_eq]; rfl
  | latest =>
    simp only [Deposit.Preferred, rankLe, Bool.or_eq_true, Bool.and_eq_true, decide_eq_true_eq,
      beq_iff_eq, hseq (by simp)]
    rfl
  | oldest =>
    simp only [Deposit.Preferred, rankLe, Bool.or_eq_true, Bool.and_eq_true, decide_eq_true_eq,
      beq_iff_eq, hseq (by simp)]
    rfl

theorem Mirrors.mem_prefixRows (hA : Vocabulary A) (h : Mirrors A s a) (hn : A n) :
    row ∈ s.prefixRows (blake2b n.encode) child floor ↔
      ∃ m dep, a m = some dep ∧ m.Under n ∧ childWhere child floor row = true ∧
        row = dep.row m := by
  rw [ContentStore.mem_prefixRows]
  constructor
  · rintro ⟨key, hitem, hindex, hwhere⟩
    obtain ⟨m, r, hm, i, hi, hhash⟩ := (h.represented.index _ _).mp hindex
    obtain ⟨dep, hd, rfl⟩ := h.row m key r hm
    have hi' : A (m.ancestor i) := hA.ancestor m i (h.mem m dep hd)
    have hname := hA.hash n _ hn hi' (hA.encodable hn) (hA.encodable hi') hhash
    have hrow : row = dep.row m :=
      Option.some.inj ((Dict.get?_eq_some.mpr hitem).symm.trans hm.get)
    exact ⟨m, dep, hd, ⟨i, hi, hname⟩, hwhere, hrow⟩
  · rintro ⟨m, dep, hd, ⟨i, hi, rfl⟩, hwhere, rfl⟩
    have hm := h.holdsRow hd
    exact ⟨_, Dict.get?_eq_some.mp hm.get,
      (h.represented.index _ _).mpr ⟨m, _, hm, i, hi, rfl⟩, hwhere⟩

theorem candidate_iff : a.Candidate n child floor m dep ↔ a m = some dep ∧ m.Under n ∧
    childWhere child floor (dep.row m) = true ∧ Suits child (dep.row m) m := by
  constructor
  · intro h
    refine ⟨h.held, h.under, ?_, Deposit.verify_row.mpr h.genuine, fun hc => (h.suits hc).1⟩
    by_cases hc : child = .none
    · simp [childWhere, hc]
    · exact (childWhere_iff hc).mpr (h.suits hc).2
  · rintro ⟨hd, hunder, hwhere, hverify, hres⟩
    exact ⟨hd, hunder, Deposit.verify_row.mp hverify,
      fun hc => ⟨hres hc, (childWhere_iff hc).mp hwhere⟩⟩

/-- A query of tables that mirror an archive is answered as the archive chooses. -/
theorem Mirrors.firstValid (hA : Vocabulary A) (h : Mirrors A s a) (hn : A n)
    (child : ChildSelector) (floor : Option ℕ) (now : ℕ) :
    ∃ x, firstValid child now (s.prefixRows (blake2b n.encode) child floor) = .ok x ∧
      a.Chooses n child floor now x := by
  have hmem {row : Row} : row ∈ s.prefixRows (blake2b n.encode) child floor ↔
      ∃ m dep, a m = some dep ∧ m.Under n ∧ childWhere child floor row = true ∧
        row = dep.row m := h.mem_prefixRows hA hn
  have hread : ∀ row ∈ s.prefixRows (blake2b n.encode) child floor,
      ∃ m, Name.fromBytes row.nameBytes = .ok m := by
    intro row hrow
    obtain ⟨m, dep, hd, -, -, rfl⟩ := hmem.mp hrow
    exact ⟨m, fromBytes_row hA (h.mem m dep hd)⟩
  rcases firstValid_cases child now hread with
    ⟨hnone, hall⟩ | ⟨pre, row, post, m, hsplit, hm, hs, hsome, hpre⟩
  · refine ⟨none, hnone, fun m dep hcand => ?_⟩
    obtain ⟨hd, hunder, hwhere, hs⟩ := candidate_iff.mp hcand
    exact hall _ (hmem.mpr ⟨m, dep, hd, hunder, hwhere, rfl⟩) m
      (fromBytes_row hA (h.mem m dep hd)) hs
  · have hrow : row ∈ s.prefixRows (blake2b n.encode) child floor := by
      rw [hsplit]
      exact List.mem_append_right _ List.mem_cons_self
    obtain ⟨m', dep, hd, hunder, hwhere, rfl⟩ := hmem.mp hrow
    obtain rfl := ok_inj hm (fromBytes_row hA (h.mem m' dep hd))
    refine ⟨_, hsome, m, dep, candidate_iff.mpr ⟨hd, hunder, hwhere, hs⟩, Deposit.rowData_row,
      fun m' dep' hcand => ?_⟩
    obtain ⟨hd', hunder', hwhere', hs'⟩ := candidate_iff.mp hcand
    have hseq (hc : child ≠ .none) {dep : Deposit} {m : Name}
        (hw : childWhere child floor (dep.row m) = true) :
        dep.data.metadata.sequence.isSome = true := by
      obtain ⟨q, hq, -⟩ := (childWhere_iff hc).mp hw
      exact Option.isSome_iff_exists.mpr ⟨q, hq⟩
    rw [preferred_iff (n := m) (m := m') fun hc => ⟨hseq hc hwhere, hseq hc hwhere'⟩]
    have hrow' := hmem.mpr ⟨m', dep', hd', hunder', hwhere', rfl⟩
    have hpair := s.pairwise_rank_prefixRows child floor (blake2b n.encode)
    rw [hsplit] at hrow' hpair
    rcases List.mem_append.mp hrow' with hin | hin
    · exact absurd hs' (hpre _ hin m' (fromBytes_row hA (h.mem m' dep' hd')))
    · rcases List.mem_cons.mp hin with heq | hin
      · rw [heq]
        exact (Std.Total.total (r := fun x y : Row => rankLe child x y = true) _ _).elim id id
      · exact (List.pairwise_cons.mp (List.pairwise_append.mp hpair).2.1).1 _ hin

end Rows

/-- Whether an insertion under a name of the set succeeds depends on the deposit. -/
theorem insert_of_fits (hA : Vocabulary A) (hn : A n) {d : Data}
    (hdep : dep = ⟨d, now, s.computeTtl n.withoutContentHash⟩) (hf : dep.Fits) :
    ∃ prefixes, prefixHashes n.withoutContentHash = .ok prefixes ∧
      s.insert n d now = .ok (evictLruInternal
        (s.upsert (blake2b n.withoutContentHash.encode) (dep.row n.withoutContentHash) prefixes)
        ((s.upsert (blake2b n.withoutContentHash.encode) (dep.row n.withoutContentHash)
          prefixes).content.size - s.max)) := by
  have hu := hA.unpin hn
  obtain ⟨prefixes, hprefixes⟩ := prefixHashes_isOk (hA.legal _ hu).addr (hA.encodable hu)
  have hrow := Deposit.bind_row (n := n.withoutContentHash).mpr hf
  subst hdep
  refine ⟨prefixes, hprefixes, ?_⟩
  have hbytes := Name.toBytes_eq_ok.mpr ⟨hA.encodable hu, rfl⟩
  rw [ContentStore.insert]
  simp only [hbytes, bind, Except.bind]
  rw [show bindRow (makeRow n.withoutContentHash.encode d now
    (s.computeTtl n.withoutContentHash)) = .ok () from hrow]
  simp only [hprefixes, pure, Except.pure]
  split
  · rfl
  · rename_i hle
    have hzero := Nat.sub_eq_zero_of_le (not_lt.mp hle)
    -- With nothing to evict the table is that of the upsert.
    exact congrArg (fun k => Except.ok (evictLruInternal _ k)) hzero.symm

theorem insert_of_unfit (hA : Vocabulary A) (hn : A n) {d : Data}
    (hf : ¬ Deposit.Fits ⟨d, now, s.computeTtl n.withoutContentHash⟩) :
    s.insert n d now = .error .overflowError := by
  have hu := hA.unpin hn
  have hbytes := Name.toBytes_eq_ok.mpr ⟨hA.encodable hu, rfl⟩
  rw [ContentStore.insert]
  simp only [hbytes, bind, Except.bind]
  cases hrow : bindRow (makeRow n.withoutContentHash.encode d now
      (s.computeTtl n.withoutContentHash)) with
  | ok u =>
    have hrow : bindRow (Deposit.row ⟨d, now, s.computeTtl n.withoutContentHash⟩
      n.withoutContentHash) = .ok () := hrow
    exact absurd (Deposit.bind_row.mp hrow) hf
  | error e =>
    obtain rfl := Deposit.bindRow_eq_error hrow
    rfl

omit [Hashlib] in
theorem countP_contains_add_size (hnodup : keys.Nodup) :
    keys.countP s.content.contains + (s.deleteRows keys).content.size = s.content.size := by
  induction keys generalizing s with
  | nil => exact Nat.zero_add _
  | cons key keys ih =>
    obtain ⟨hnew, hnodup⟩ := List.nodup_cons.mp hnodup
    have hrest := ih (s := s.deleteRow key) hnodup
    have hsame : keys.countP (s.deleteRow key).content.contains =
        keys.countP s.content.contains := by
      refine List.countP_congr fun k hk => ?_
      have hne : k ≠ key := fun he => hnew (he ▸ hk)
      rw [Dict.contains_iff, Dict.contains_iff, get?_deleteRow, if_neg hne]
    rw [hsame] at hrest
    have hdelete : (s.deleteRows (key :: keys)).content.size =
      ((s.deleteRow key).deleteRows keys).content.size := rfl
    rw [List.countP_cons, hdelete]
    cases hrow : s.content.get? key with
    | none =>
      have hno : ¬ s.content.contains key = true := by
        rw [Dict.contains_iff, hrow]
        simp
      have hsize : (s.deleteRow key).content.size = s.content.size :=
        congrArg Dict.size (Dict.erase_of_get?_eq_none hrow)
      rw [if_neg hno]
      omega
    | some row =>
      have hsize : (s.deleteRow key).content.size + 1 = s.content.size :=
        Dict.size_erase_of_get?_eq_some hrow
      rw [if_pos (Dict.contains_iff.mpr ⟨row, hrow⟩)]
      omega

omit [Hashlib] in
theorem length_expiredKeys_add_size (s : ContentStore) (now : ℕ) :
    (s.expiredKeys now).length + (s.purgeExpired now).content.size = s.content.size := by
  have hsub : (s.expiredKeys now).Sublist s.content.keys := List.filter_sublist.map _
  have hsize := size_deleteRows (s := s) (s.content.nodup.sublist hsub) fun _ hk => hsub.subset hk
  rw [purgeExpired]
  omega

omit [Hashlib] in
theorem length_lruKeys_add_size (count : ℕ) :
    (s.lruKeys count).length + (s.evictLruInternal count).content.size = s.content.size := by
  obtain ⟨hnodup, hsub, -⟩ := keys_lruKeys s count
  have hsize := size_deleteRows hnodup hsub
  rw [evictLruInternal]
  omega

theorem Mirrors.invalidates (hA : Vocabulary A) (h : Mirrors A s a) (hn : A n) (byPrefix : Bool) :
    ∃ b, a.Drops (fun m _ => m = n ∨ byPrefix = true ∧ m.Under n) b ∧
      Mirrors A (s.deleteRows (s.invalidatedKeys (blake2b n.encode) byPrefix)) b := by
  have hkey {m : Name} {dep : Deposit} (hd : a m = some dep) {l : Name} (hl : A l) :
      blake2b m.encode = blake2b l.encode ↔ m = l :=
    ⟨fun he => hA.hash m l (h.mem m dep hd) hl (hA.encodable (h.mem m dep hd)) (hA.encodable hl) he,
      fun he => he ▸ rfl⟩
  refine h.drops fun m dep hd => ?_
  cases byPrefix with
  | false => simp [invalidatedKeys, hkey hd hn]
  | true =>
    have hm := h.holdsRow hd
    have hindex : blake2b m.encode ∈ s.invalidatedKeys (blake2b n.encode) true ↔
        (blake2b n.encode, blake2b m.encode) ∈ s.namePrefixes := by
      rw [invalidatedKeys, if_pos rfl, List.mem_map]
      constructor
      · rintro ⟨p, hp, he⟩
        obtain ⟨hp, hx⟩ := List.mem_filter.mp hp
        rw [← he, ← of_decide_eq_true hx]
        exact hp
      · intro hp
        exact ⟨_, List.mem_filter.mpr ⟨hp, by simp⟩, rfl⟩
    rw [hindex, h.represented.index]
    constructor
    · rintro ⟨l, row, hl, i, hi, he⟩
      obtain ⟨dep', hd', -⟩ := h.row l _ row hl
      obtain rfl : l = m := (hkey hd' (h.mem m dep hd)).mp hl.key.symm
      have hai := hA.ancestor l i (h.mem l dep hd)
      exact .inr ⟨rfl, i, hi, hA.hash n _ hn hai (hA.encodable hn) (hA.encodable hai) he⟩
    · have hunder : m = n ∨ true = true ∧ m.Under n → m.Under n := by
        rintro (rfl | ⟨-, hu⟩)
        · refine ⟨m.path.length, Nat.lt_succ_self _, ?_⟩
          rw [Name.ancestor_length, Name.withoutContentHash, ← hm.unpinned]
        · exact hu
      intro hu
      obtain ⟨i, hi, rfl⟩ := hunder hu
      exact ⟨m, _, hm, i, hi, rfl⟩

omit [Hashlib] in
theorem nodup_invalidatedKeys (h : s.namePrefixes.Nodup) (hash : Bytes) (byPrefix : Bool) :
    (s.invalidatedKeys hash byPrefix).Nodup := by
  cases byPrefix with
  | false => exact List.nodup_singleton _
  | true =>
    rw [invalidatedKeys, if_pos rfl]
    refine List.Nodup.map_on (fun x hx y hy he => ?_) (h.filter _)
    have hxh := of_decide_eq_true (List.mem_filter.mp hx).2
    have hyh := of_decide_eq_true (List.mem_filter.mp hy).2
    exact Prod.ext (hxh.trans hyh.symm) he

end ContentStore

namespace Connection

open ContentStore

structure Configured (s₀ s : ContentStore) : Prop where
  max : s.max = s₀.max
  ttls : s.defaultTtl = s₀.defaultTtl ∧ s.prefixTtls = s₀.prefixTtls

omit [Hashlib] in
theorem Configured.computeTtl {s₀ s : ContentStore} (h : Configured s₀ s) (n : Name) :
    s.computeTtl n = s₀.computeTtl n := by
  rw [ContentStore.computeTtl, ContentStore.computeTtl, h.ttls.1, h.ttls.2]

/-- The current tables mirror the archive, and the committed ones an archive that holds more, all
of which has expired. -/
structure Mirrors (A : Name → Prop) (s₀ : ContentStore) (c : Connection) (a : Archive) : Prop where
  current : c.tables.current.Mirrors A a
  committed : ∃ a₀, c.tables.committed.Mirrors A a₀ ∧
    (∀ n dep, a n = some dep → a₀ n = some dep) ∧
      ∀ n dep, a₀ n = some dep → a n = none → dep.Expired c.clock
  configured : c.tables.Both (Configured s₀)

variable {A : Name → Prop} {s₀ : ContentStore} {c c' : Connection} {a b : Archive} {op : StoreOp}
  {now : ℕ}

theorem mirrors_settled {t : ContentStore} {clock : ℕ} (h : t.Mirrors A a)
    (hset : Configured s₀ t) : Mirrors A s₀ ⟨⟨t, t⟩, clock⟩ a where
  current := h
  committed := by
    refine ⟨a, h, fun _ _ hd => hd, fun n dep hd hnone => ?_⟩
    rw [hd] at hnone
    cases hnone
  configured := ⟨hset, hset⟩

omit [Hashlib] in
theorem Configured.deleteRows {s : ContentStore} (h : Configured s₀ s) (keys : List Bytes) :
    Configured s₀ (s.deleteRows keys) where
  max := (deleteRows_max s keys).trans h.max
  ttls := by
    obtain ⟨hd, hp⟩ := deleteRows_ttls s keys
    rw [hd, hp]
    exact h.ttls

theorem Mirrors.sweep (h : c.Mirrors A s₀ a) (hle : c.clock ≤ now) :
    ∃ b, a.Sweeps now b ∧ (c.tables.current.purgeExpired now).Mirrors A b ∧
      Mirrors A s₀ ⟨c.tables.change (·.purgeExpired now), now⟩ b := by
  obtain ⟨b, hb, hcurrent⟩ := h.current.sweeps now
  obtain ⟨a₀, hcommitted, hsub, hexpired⟩ := h.committed
  refine ⟨b, hb, hcurrent, hcurrent, ⟨a₀, hcommitted, ?_, ?_⟩,
    h.configured.change fun hset => hset.deleteRows _⟩
  · exact fun n dep hd => hsub n dep ((hb n dep).mp hd).1
  · intro n dep hd hnone
    cases ha : a n with
    | none => exact (hexpired n dep hd ha).mono hle
    | some dep' =>
      obtain rfl : dep' = dep := Option.some.inj ((hsub n dep' ha).symm.trans hd)
      by_contra hlive
      rw [(hb n dep').mpr ⟨ha, hlive⟩] at hnone
      cases hnone

theorem Mirrors.rollback (h : c.Mirrors A s₀ a) (hle : c.clock ≤ now) :
    ∃ b, Archive.SameLive now a b ∧
      Mirrors A s₀ ⟨⟨c.tables.committed, c.tables.committed⟩, now⟩ b := by
  obtain ⟨a₀, hcommitted, hsub, hexpired⟩ := h.committed
  refine ⟨a₀, fun n dep hlive => ⟨hsub n dep, fun hd => ?_⟩,
    mirrors_settled hcommitted h.configured.1⟩
  cases ha : a n with
  | none => exact absurd ((hexpired n dep hd ha).mono hle) hlive
  | some dep' => rw [← hd, hsub n dep' ha]

theorem Mirrors.insert (hA : Vocabulary A) (h : c.Mirrors A s₀ a) {n : Name} {d : Data}
    (hn : A n) (hle : c.clock ≤ now) :
    ∃ b, a.Reacts s₀.computeTtl s₀.max (.insert n d now)
        (c.tables.current.reply (.insert n d now)) b ∧
      (c.apply (.insert n d now)).Mirrors A s₀ b := by
  have hu := hA.unpin hn
  have hbytes := Name.toBytes_eq_ok.mpr ⟨hA.encodable hu, rfl⟩
  have hset := h.configured.2
  have happly : c.apply (.insert n d now) =
      ⟨c.tables.block (c.tables.current.insert n d now), now⟩ := by
    simp only [Connection.apply, execute, hbytes]
    rfl
  rw [happly, ContentStore.reply]
  by_cases hf : Deposit.Fits ⟨d, now, s₀.computeTtl n.withoutContentHash⟩
  · obtain ⟨prefixes, hprefixes, hinsert⟩ := insert_of_fits (s := c.tables.current) hA hn
      (congrArg (Deposit.mk d now) (hset.computeTtl n.withoutContentHash).symm) hf
    have hupsert : (c.tables.current.upsert (blake2b n.withoutContentHash.encode)
        (Deposit.row ⟨d, now, s₀.computeTtl n.withoutContentHash⟩ n.withoutContentHash)
          prefixes).Mirrors A (Function.update a n.withoutContentHash
            (some ⟨d, now, s₀.computeTtl n.withoutContentHash⟩)) :=
      h.current.upsert hA hu rfl hprefixes
    obtain ⟨b, hb, hcurrent⟩ := hupsert.evicts hA _
    rw [hinsert]
    refine ⟨b, .stored rfl hf ?_, mirrors_settled hcurrent ?_⟩
    · rw [hupsert.size_eq hA, ← hset.max]
      exact hb
    · have hup : Configured s₀ (c.tables.current.upsert (blake2b n.withoutContentHash.encode)
          (Deposit.row ⟨d, now, s₀.computeTtl n.withoutContentHash⟩ n.withoutContentHash)
            prefixes) := ⟨hset.max, hset.ttls⟩
      exact hup.deleteRows _
  · have hinsert : c.tables.current.insert n d now = .error .overflowError := by
      refine insert_of_unfit hA hn ?_
      rw [hset.computeTtl]
      exact hf
    obtain ⟨b, hb, hmirrors⟩ := h.rollback hle
    rw [hinsert]
    exact ⟨b, .unfit hf hb, hmirrors⟩

theorem Mirrors.block (h : c.Mirrors A s₀ a) {keys : List Bytes} {clock : ℕ}
    (hb : (c.tables.current.deleteRows keys).Mirrors A b) :
    Mirrors A s₀ ⟨c.tables.block (ε := PyError) (.ok (c.tables.current.deleteRows keys)), clock⟩
      b :=
  mirrors_settled hb (h.configured.2.deleteRows keys)

theorem Mirrors.getPrefix (hA : Vocabulary A) (h : c.Mirrors A s₀ a) {n : Name}
    {child : ChildSelector} {floor : Option ℕ} (hn : A n) (hle : c.clock ≤ now) :
    ∃ b, a.Reacts s₀.computeTtl s₀.max (.getPrefix n child floor now)
        (c.tables.current.reply (.getPrefix n child floor now)) b ∧
      (c.apply (.getPrefix n child floor now)).Mirrors A s₀ b := by
  obtain ⟨b, hb, hcurrent, hmirrors⟩ := h.sweep hle
  refine ⟨b, ?_, hmirrors⟩
  have hhash := nameHash_eq_ok.mpr ⟨hA.encodable hn, rfl⟩
  rw [ContentStore.reply, ContentStore.getPrefix]
  simp only [readPrefix, hhash, bind, Except.bind]
  obtain ⟨x, hx, hchosen⟩ := hcurrent.firstValid hA hn child floor now
  by_cases hc : child = .none
  · have hno : ¬ (child != .none) = true := by simp [hc]
    rw [if_neg hno]
    simp only [hx]
    exact .getPrefix hb (fun hne => absurd hc hne) hchosen
  · have hyes : (child != .none) = true := bne_iff_ne.mpr hc
    rw [if_pos hyes]
    cases hfloor : sqliteOptInt floor with
    | ok u =>
      simp only [hx]
      exact .getPrefix hb (fun _ => sqliteOptInt_eq_ok.mp hfloor) hchosen
    | error e =>
      obtain rfl := sqliteOptInt_eq_error hfloor
      cases floor with
      | none => cases hfloor
      | some f =>
        refine .floorUnfit hb hc ?_
        rcases sqliteInt_cases f with ⟨-, he⟩ | ⟨hge, -⟩
        · rw [sqliteOptInt, he] at hfloor
          cases hfloor
        · exact not_lt.mp hge

theorem Mirrors.apply (hA : Vocabulary A) (h : c.Mirrors A s₀ a) (hop : c.InOrder op)
    (hnames : op.Names A) :
    ∃ b, a.Reacts s₀.computeTtl s₀.max op (c.tables.current.reply op) b ∧
      (c.apply op).Mirrors A s₀ b := by
  cases op with
  | insert n d now => exact h.insert hA hnames (hop now rfl)
  | getPrefix n child floor now => exact h.getPrefix hA hnames (hop now rfl)
  | get n now =>
    obtain ⟨b, hb, hcurrent, hmirrors⟩ := h.sweep (hop now rfl)
    obtain ⟨x, hx, hfinds⟩ := hcurrent.read hA hnames now
    refine ⟨b, ?_, hmirrors⟩
    rw [ContentStore.reply, ContentStore.get]
    simp only [hx]
    exact .get hb hfinds
  | purgeExpired now =>
    obtain ⟨b, hb, hcurrent⟩ := h.current.sweeps now
    refine ⟨b, ?_, h.block hcurrent⟩
    have hcount := length_expiredKeys_add_size c.tables.current now
    have hlost : (c.tables.current.expiredKeys now).length = a.size - b.size := by
      rw [h.current.size_eq hA, hcurrent.size_eq hA]
      omega
    rw [ContentStore.reply, hlost]
    exact .purged hb
  | evictLru targetCount =>
    obtain ⟨b, hb, hcurrent⟩ := h.current.evicts hA (c.tables.current.content.size - targetCount)
    refine ⟨b, ?_, h.block hcurrent⟩
    have hcount := c.tables.current.length_lruKeys_add_size
      (c.tables.current.content.size - targetCount)
    have hlost : (c.tables.current.lruKeys (c.tables.current.content.size - targetCount)).length =
        a.size - b.size := by
      rw [h.current.size_eq hA, hcurrent.size_eq hA]
      omega
    rw [← h.current.size_eq hA] at hb
    rw [ContentStore.reply, hlost]
    exact .evicted hb
  | remove n =>
    have hhash := nameHash_eq_ok.mpr ⟨hA.encodable hnames, rfl⟩
    have hremove : c.tables.current.remove n = .ok
        (c.tables.current.deleteRow (blake2b n.encode), (a n).isSome) := by
      rw [ContentStore.remove, hhash]
      simp only [bind, Except.bind, h.current.contains_eq hA hnames]
      rfl
    have hdelete : (c.tables.current.deleteRows [blake2b n.encode]).Mirrors A
        (Function.update a n none) := by
      refine h.current.deleteRows fun m dep => ?_
      by_cases hmn : m = n
      · subst hmn
        simp
      · rw [Function.update_of_ne hmn, List.mem_singleton]
        refine (and_iff_left_of_imp fun hd he => hmn ?_).symm
        have hm := h.current.mem m dep hd
        exact hA.hash m n hm hnames (hA.encodable hm) (hA.encodable hnames) he
    have happly : c.apply (.remove n) = ⟨c.tables.block (ε := PyError)
        (.ok (c.tables.current.deleteRows [blake2b n.encode])), c.clock⟩ := by
      simp only [Connection.apply, execute, hremove]
      rfl
    rw [ContentStore.reply, hremove, happly]
    exact ⟨_, .removed, h.block hdelete⟩
  | invalidate n byPrefix =>
    obtain ⟨b, hb, hcurrent⟩ := h.current.invalidates hA hnames byPrefix
    have hhash := nameHash_eq_ok.mpr ⟨hA.encodable hnames, rfl⟩
    have hcount := countP_contains_add_size (s := c.tables.current)
      (nodup_invalidatedKeys h.current.represented.nodup (blake2b n.encode) byPrefix)
    have hlost : (c.tables.current.invalidatedKeys (blake2b n.encode) byPrefix).countP
        c.tables.current.content.contains = a.size - b.size := by
      rw [h.current.size_eq hA, hcurrent.size_eq hA]
      omega
    have hinvalidate : c.tables.current.invalidate n byPrefix = .ok
        (c.tables.current.deleteRows (c.tables.current.invalidatedKeys (blake2b n.encode) byPrefix),
          a.size - b.size) := by
      rw [ContentStore.invalidate, hhash]
      simp only [bind, Except.bind, hlost]
      rfl
    have happly : c.apply (.invalidate n byPrefix) = ⟨c.tables.block (ε := PyError)
        (.ok (c.tables.current.deleteRows
          (c.tables.current.invalidatedKeys (blake2b n.encode) byPrefix))), c.clock⟩ := by
      simp only [Connection.apply, execute, hinvalidate]
      rfl
    rw [ContentStore.reply, hinvalidate, happly]
    exact ⟨b, .invalidated hb, h.block hcurrent⟩

/-- The clock does not go backwards, and the operation is about names of the set. -/
def Admits (A : Name → Prop) (c : Connection) (op : StoreOp) : Prop := c.InOrder op ∧ op.Names A

/-- Over any operations the store behaves as an archive does: each reply is one that the archive
may give when its turn comes, and in the end the store contains the names that the archive holds,
as many and with as many bytes. -/
theorem behaves_as_archive (hA : Vocabulary A) {ops : List StoreOp} (hc : c.Opened)
    (ha : c.tables.current.Mirrors A a) (hrun : Run step (Admits A) c ops c') :
    ∃ b, Performs (Archive.Reacts c.tables.current.computeTtl c.tables.current.max) a
        (replies step (fun c op => c.tables.current.reply op) c ops) b ∧
      (∀ n, A n → c'.tables.current.contains n = .ok (b n).isSome) ∧
      c'.tables.current.content.size = b.size ∧ c'.tables.current.sizeBytes = b.bytes := by
  have h₀ : c.Mirrors A c.tables.current a := by
    have hset : Configured c.tables.current c.tables.current := ⟨rfl, rfl, rfl⟩
    refine ⟨ha, ⟨a, hc.settled ▸ ha, fun _ _ hd => hd, fun n dep hd hnone => ?_⟩,
      ⟨hc.settled ▸ hset, hset⟩⟩
    rw [hd] at hnone
    cases hnone
  obtain ⟨b, hperforms, hb⟩ := performs_of_run hrun h₀ fun c op c' a h hok hs => by
    obtain rfl := Option.some.inj hs
    exact h.apply hA hok.1 hok.2
  refine ⟨b, hperforms, fun n hn => ?_, (hb.current.size_eq hA).symm, (hb.current.bytes_eq hA).symm⟩
  rw [ContentStore.contains, nameHash_eq_ok.mpr ⟨hA.encodable hn, rfl⟩,
    ← hb.current.contains_eq hA hn]
  rfl

theorem mirrors_empty {s : ContentStore} (h : s.content = .empty) (hi : s.namePrefixes = []) :
    s.Mirrors A fun _ => none where
  represented := .empty h hi
  row n key row hrow := by
    have hget := hrow.get
    rw [h] at hget
    cases hget
  held n dep hd := by cases hd
  mem n dep hd := by cases hd

omit [Hashlib] in
/-- A row that a read sweeps, and an insertion that raises and brings it back. -/
theorem swept_behaves_as_archive :
    letI := Data.paddedHash
    let d := ContentStore.signedHi ContentStore.editionName
    let tooLarge := { d with metadata := { d.metadata with sequence := some (2 ^ 63) } }
    ∃ b, Performs (Archive.Reacts shortLived.tables.current.computeTtl
        shortLived.tables.current.max) (fun _ => none)
      [(.insert ContentStore.editionName d 0, .stored),
        (.get ContentStore.editionName 7, .found none),
        (.insert ContentStore.editionName tooLarge 8, .raised .overflowError)] b ∧
      (b ContentStore.editionName).isSome = true ∧ b.size = 1 := by
  intro d tooLarge
  let := Data.paddedHash
  have hA : Vocabulary fun m => ∃ i, m = ContentStore.editionName.ancestor i :=
    { distinguished_ancestors (n := ContentStore.editionName) rfl (by decide) with
      legal := by
        rintro _ ⟨i, rfl⟩
        exact ContentStore.signedHi_edition_wellFormed.name.ancestor i }
  have hrun : Run step (Admits fun m => ∃ i, m = ContentStore.editionName.ancestor i) shortLived
      [.insert ContentStore.editionName d 0, .get ContentStore.editionName 7,
        .insert ContentStore.editionName tooLarge 8]
      (swept.apply (.insert ContentStore.editionName tooLarge 8)) := by
    have hname : ∃ i, ContentStore.editionName = ContentStore.editionName.ancestor i := ⟨1, rfl⟩
    exact .cons ⟨by rintro _ ⟨⟩; exact Nat.zero_le _, hname⟩ rfl
      (.cons ⟨by rintro _ ⟨⟩; decide, hname⟩ rfl
        (.cons ⟨by rintro _ ⟨⟩; decide, hname⟩ rfl (.nil _)))
  obtain ⟨b, hperforms, hcontains, hsize, -⟩ :=
    behaves_as_archive hA opened_shortLived (mirrors_empty rfl rfl) hrun
  refine ⟨b, hperforms, ?_, hsize.symm⟩
  have hc := hcontains ContentStore.editionName ⟨1, rfl⟩
  exact (Except.ok.inj hc).symm

end Connection

end RnsIcn
