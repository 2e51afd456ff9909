import Mathlib.Data.List.Sort
import Mathlib.Data.List.MinMax
import RnsIcn.Lib.Dict
import RnsIcn.Wire.Packet

/-! # FIB and PIT

The forwarding table relates prefixes to cost-ordered faces and answers with the
longest prefix. The table of pending Interests has one entry for a name, which
Interests of other faces join, and a set of nonces against loops. Times are in
milliseconds of the monotonic clock.
-/

namespace RnsIcn

abbrev FaceId := ℕ

structure FibEntry where
  namePrefix : Name
  faces : List (FaceId × ℕ)
  deriving DecidableEq, Repr

structure Fib where
  entries : List FibEntry := []
  deriving DecidableEq, Repr

namespace FibEntry

def setCost (face : FaceId) (cost : ℕ) : List (FaceId × ℕ) → List (FaceId × ℕ)
  | [] => [(face, cost)]
  | e :: es => if e.1 = face then (face, cost) :: es else e :: setCost face cost es

def insert (e : FibEntry) (face : FaceId) (cost : ℕ) : FibEntry :=
  { e with faces := (setCost face cost e.faces).insertionSort fun x y => x.2 ≤ y.2 }

def withdraw (e : FibEntry) (face : FaceId) : FibEntry :=
  { e with faces := e.faces.filter fun x => x.1 ≠ face }

end FibEntry

namespace Fib

def insertEntries (namePrefix : Name) (face : FaceId) (cost : ℕ) : List FibEntry → List FibEntry
  | [] => [⟨namePrefix, [(face, cost)]⟩]
  | e :: es =>
    if e.namePrefix = namePrefix then e.insert face cost :: es
    else e :: insertEntries namePrefix face cost es

def insert (t : Fib) (namePrefix : Name) (face : FaceId) (cost : ℕ := 10) : Fib :=
  ⟨insertEntries namePrefix face cost t.entries⟩

def removeAllForFace (t : Fib) (face : FaceId) : Fib :=
  ⟨(t.entries.map (·.withdraw face)).filter fun e => !e.faces.isEmpty⟩

def best (n : Name) : List FibEntry → Option FibEntry → Option FibEntry
  | [], found => found
  | e :: es, found =>
    if n.startsWith e.namePrefix && found.all (·.namePrefix.len < e.namePrefix.len) then
      best n es (some e)
    else best n es found

/-- `lookup(name) or []` -/
def lookup (t : Fib) (n : Name) : List (FaceId × ℕ) :=
  ((best n t.entries none).map FibEntry.faces).getD []

end Fib

structure PitEntry where
  interest : Interest
  inFaces : List FaceId
  outFace : Option FaceId := none
  expiresAt : ℕ
  satisfied : Bool := false
  deriving DecidableEq, Repr

structure Pit where
  entries : Dict Name PitEntry := .empty
  nonceTracker : Dict (FaceId × Bytes) ℕ := .empty
  nonceTtl : ℕ := 60000
  maxEntries : ℕ := 10000
  maxNonces : ℕ := 50000
  evictions : ℕ := 0

namespace Pit

def find (p : Pit) (n : Name) : Option PitEntry := p.entries.get? n

def isFull (p : Pit) : Bool := p.maxEntries ≤ p.entries.size

def evictNearestExpiry (p : Pit) : Pit :=
  match p.entries.items.argmin fun e => e.2.expiresAt with
  | none => p
  | some victim => { p with entries := p.entries.erase victim.1, evictions := p.evictions + 1 }

/-- `insert_or_aggregate` at `now`: a pending entry gains a face, any other is replaced. -/
def insertOrAggregate (p : Pit) (n : Name) (inFace : FaceId) (i : Interest) (now : ℕ) : Pit :=
  let fresh : PitEntry := { interest := i, inFaces := [inFace], expiresAt := now + i.lifetimeMs }
  match p.find n with
  | some entry =>
    if entry.satisfied then { p with entries := p.entries.set n fresh }
    else if inFace ∈ entry.inFaces then p
    else { p with entries := p.entries.set n { entry with inFaces := entry.inFaces ++ [inFace] } }
  | none =>
    let p := if p.maxEntries ≤ p.entries.size then p.evictNearestExpiry else p
    { p with entries := p.entries.set n fresh }

def setOutFace (p : Pit) (n : Name) (outFace : FaceId) : Pit :=
  match p.find n with
  | some entry => { p with entries := p.entries.set n { entry with outFace := some outFace } }
  | none => p

def satisfy (p : Pit) (n : Name) : Pit :=
  match p.find n with
  | some entry => { p with entries := p.entries.set n { entry with satisfied := true } }
  | none => p

def remove (p : Pit) (n : Name) : Pit := { p with entries := p.entries.erase n }

def purgeExpired (p : Pit) (now : ℕ) : Pit :=
  { p with
    entries := p.entries.filter fun _ e => !(e.satisfied || e.expiresAt ≤ now)
    nonceTracker := p.nonceTracker.filter fun _ v => now < v }

def checkLoop (p : Pit) (inFace : FaceId) (nonce : Bytes) : Bool :=
  p.nonceTracker.contains (inFace, nonce)

def boundNonces (p : Pit) : Pit :=
  if p.maxNonces ≤ p.nonceTracker.size then
    match p.nonceTracker.items.argmin fun e => e.2 with
    | none => p
    | some oldest => { p with nonceTracker := p.nonceTracker.erase oldest.1 }
  else p

def recordNonce (p : Pit) (inFace : FaceId) (nonce : Bytes) (now : ℕ) : Pit :=
  let p := p.boundNonces
  { p with nonceTracker := p.nonceTracker.set (inFace, nonce) (now + p.nonceTtl) }

variable {p : Pit} {n m : Name} {e : PitEntry}

theorem find_remove (p : Pit) (n m : Name) :
    (p.remove n).find m = if m = n then none else p.find m := Dict.get?_erase p.entries n m

theorem remove_of_find_eq_none (h : p.find n = none) : p.remove n = p := by
  rw [remove, Dict.erase_of_get?_eq_none h]

theorem remove_ne_of_find_eq_some (q : Pit) (h : p.find n = some e) : q.remove n ≠ p := by
  rintro rfl
  rw [find_remove, if_pos rfl] at h
  cases h

theorem find_evictNearestExpiry (h : p.evictNearestExpiry.find m = some e) : p.find m = some e := by
  rw [evictNearestExpiry] at h
  split at h
  · exact h
  · rw [find, Dict.get?_erase] at h
    split at h
    · cases h
    · exact h

@[simp] theorem find_recordNonce (p : Pit) (inFace : FaceId) (nonce : Bytes) (now : ℕ) (m : Name) :
    (p.recordNonce inFace nonce now).find m = p.find m := by
  have h : p.boundNonces.entries = p.entries := by
    rw [boundNonces]
    split
    · split <;> rfl
    · rfl
  simp [recordNonce, find, h]

theorem find_purgeExpired {now : ℕ} (h : (p.purgeExpired now).find m = some e) :
    p.find m = some e := by
  rw [find, purgeExpired, Dict.get?_filter, Option.filter_eq_some_iff] at h
  exact h.1

theorem find_setOutFace (p : Pit) (n m : Name) (outFace : FaceId) :
    (p.setOutFace n outFace).find m =
      if m = n then (p.find n).map ({ · with outFace := some outFace }) else p.find m := by
  rw [setOutFace]
  by_cases hm : m = n
  · subst hm
    cases hf : p.find m
    · simpa using hf
    · simp [find]
  · cases hf : p.find n
    · simp [hm]
    · simp [find, Dict.get?_set_ne _ _ hm, hm]

theorem find_satisfy (p : Pit) (n m : Name) :
    (p.satisfy n).find m =
      if m = n then (p.find n).map ({ · with satisfied := true }) else p.find m := by
  rw [satisfy]
  by_cases hm : m = n
  · subst hm
    cases hf : p.find m
    · simpa using hf
    · simp [find]
  · cases hf : p.find n
    · simp [hm]
    · simp [find, Dict.get?_set_ne _ _ hm, hm]

theorem satisfy_eq_self_iff (h : p.find n = some e) :
    p.satisfy n = p ↔ e.satisfied = true := by
  constructor
  · intro hp
    have hf : (p.satisfy n).find n = some { e with satisfied := true } := by
      simp [find_satisfy, h]
    rw [hp, h] at hf
    rw [Option.some.inj hf]
  · intro hs
    rw [satisfy, h]
    have he : { e with satisfied := true } = e := by rw [← hs]
    simp only [he]
    rw [Dict.set_of_get?_eq_some h]

def forwardEntry (p : Pit) (n : Name) (inFace : FaceId) (i : Interest) (now : ℕ) : PitEntry :=
  match (p.find n).filter (!·.satisfied) with
  | some entry => if inFace ∈ entry.inFaces then entry
      else { entry with inFaces := entry.inFaces ++ [inFace] }
  | none => { interest := i, inFaces := [inFace], expiresAt := now + i.lifetimeMs }

theorem find_insertOrAggregate_self (p : Pit) (n : Name) (inFace : FaceId) (i : Interest)
    (now : ℕ) :
    (p.insertOrAggregate n inFace i now).find n = some (p.forwardEntry n inFace i now) := by
  rw [insertOrAggregate, forwardEntry]
  cases hf : p.find n with
  | none => simp [find]
  | some entry =>
    by_cases hs : entry.satisfied = true
    · simp [hs, find, Option.filter]
    · by_cases hi : inFace ∈ entry.inFaces
      · simp [hs, hi, hf, Option.filter]
      · simp [hs, hi, find, Option.filter]

theorem find_insertOrAggregate_ne {inFace : FaceId} {i : Interest} {now : ℕ} (hm : m ≠ n)
    (h : (p.insertOrAggregate n inFace i now).find m = some e) : p.find m = some e := by
  have hset (q : Pit) (x : PitEntry) :
      ({ q with entries := q.entries.set n x } : Pit).find m = q.find m :=
    Dict.get?_set_ne _ _ hm
  rw [insertOrAggregate] at h
  split at h
  · split at h
    · rwa [hset] at h
    · split at h
      · exact h
      · rwa [hset] at h
  · rw [hset] at h
    split at h
    · exact find_evictNearestExpiry h
    · exact h

/-- `q` follows `p` with the same entry for `n`, unless an entry was evicted in between. -/
structure Keeps (n : Name) (p q : Pit) : Prop where
  evictions : p.evictions ≤ q.evictions
  find : q.evictions = p.evictions → q.find n = p.find n

theorem Keeps.refl (n : Name) (p : Pit) : Keeps n p p := ⟨le_rfl, fun _ => rfl⟩

theorem Keeps.trans {q r : Pit} (h : Keeps n p q) (h' : Keeps n q r) : Keeps n p r where
  evictions := h.evictions.trans h'.evictions
  find he := by
    have hq : q.evictions = p.evictions :=
      le_antisymm (h'.evictions.trans he.le) h.evictions
    rw [h'.find (he.trans hq.symm), h.find hq]

theorem Keeps.of_set (hn : n ≠ m) (p : Pit) (x : PitEntry) :
    Keeps n p { p with entries := p.entries.set m x } :=
  ⟨le_rfl, fun _ => Dict.get?_set_ne _ _ hn⟩

theorem keeps_evictNearestExpiry (n : Name) (p : Pit) : Keeps n p p.evictNearestExpiry := by
  rw [evictNearestExpiry]
  split
  · exact .refl n p
  · exact ⟨Nat.le_succ _, fun h => absurd h (Nat.succ_ne_self _)⟩

theorem keeps_insertOrAggregate (hn : n ≠ m) (p : Pit) (inFace : FaceId) (i : Interest)
    (now : ℕ) : Keeps n p (p.insertOrAggregate m inFace i now) := by
  rw [insertOrAggregate]
  split
  · split
    · exact .of_set hn p _
    · split
      · exact .refl n p
      · exact .of_set hn p _
  · split
    · exact (keeps_evictNearestExpiry n p).trans (.of_set hn _ _)
    · exact .of_set hn p _

theorem keeps_setOutFace (hn : n ≠ m) (p : Pit) (outFace : FaceId) :
    Keeps n p (p.setOutFace m outFace) := by
  rw [setOutFace]
  split
  · exact .of_set hn p _
  · exact .refl n p

theorem keeps_satisfy (hn : n ≠ m) (p : Pit) : Keeps n p (p.satisfy m) := by
  rw [satisfy]
  split
  · exact .of_set hn p _
  · exact .refl n p

theorem keeps_remove (hn : n ≠ m) (p : Pit) : Keeps n p (p.remove m) :=
  ⟨le_rfl, fun _ => Dict.get?_erase_ne _ hn⟩

theorem keeps_recordNonce (n : Name) (p : Pit) (inFace : FaceId) (nonce : Bytes) (now : ℕ) :
    Keeps n p (p.recordNonce inFace nonce now) := by
  have h : p.boundNonces.evictions = p.evictions := by
    rw [boundNonces]
    split
    · split <;> rfl
    · rfl
  exact ⟨h.ge, fun _ => find_recordNonce ..⟩

structure HashFree (p : Pit) : Prop where
  contentHash : ∀ n, (p.find n).isSome = true → n.contentHash = none

theorem HashFree.of_find {q : Pit} (h : p.HashFree)
    (hq : ∀ m e, q.find m = some e → m.contentHash = none ∨ ∃ e', p.find m = some e') :
    q.HashFree where
  contentHash m hm := by
    obtain ⟨e, he⟩ := Option.isSome_iff_exists.mp hm
    rcases hq m e he with hc | ⟨e', he'⟩
    · exact hc
    · exact h.contentHash m (by simp [he'])

theorem HashFree.remove (h : p.HashFree) (n : Name) : (p.remove n).HashFree :=
  h.of_find fun m e he => by
    rw [find_remove] at he
    split at he
    · cases he
    · exact .inr ⟨e, he⟩

theorem HashFree.satisfy (h : p.HashFree) (n : Name) : (p.satisfy n).HashFree :=
  h.of_find fun m e he => by
    rw [find_satisfy] at he
    split at he
    · rename_i hm
      obtain ⟨e', he', -⟩ := Option.map_eq_some_iff.mp he
      exact .inr ⟨e', hm ▸ he'⟩
    · exact .inr ⟨e, he⟩

theorem HashFree.purgeExpired (h : p.HashFree) (now : ℕ) : (p.purgeExpired now).HashFree :=
  h.of_find fun _ e he => .inr ⟨e, find_purgeExpired he⟩

theorem HashFree.recordNonce (h : p.HashFree) (inFace : FaceId) (nonce : Bytes) (now : ℕ) :
    (p.recordNonce inFace nonce now).HashFree :=
  h.of_find fun m e he => .inr ⟨e, by rwa [find_recordNonce] at he⟩

theorem HashFree.forward (h : p.HashFree) {n : Name} (hn : n.contentHash = none)
    (inFace outFace : FaceId) (i : Interest) (now : ℕ) :
    ((p.insertOrAggregate n inFace i now).setOutFace n outFace).HashFree :=
  h.of_find fun m e he => by
    by_cases hm : m = n
    · exact .inl (hm ▸ hn)
    · rw [find_setOutFace, if_neg hm] at he
      exact .inr ⟨e, find_insertOrAggregate_ne hm he⟩

end Pit

end RnsIcn
