import Mathlib.Algebra.BigOperators.Finprod
import Mathlib.Data.Set.Card
import RnsIcn.Store.Names

/-! # What the Content Store is for

An archive holds under each name what was last deposited under it. The rules below say how
an archive may react to an operation: what it replies, and what it holds afterwards. They do
not speak of tables, hashes of names or transactions.
-/

namespace RnsIcn

inductive StoreReply where
  | stored
  | found (d : Option Data)
  | existed (b : Bool)
  | count (n : ℕ)
  | raised (e : PyError)
  deriving DecidableEq, Repr

/-- Data with the time of its deposit, and the seconds that it is kept if they are limited. -/
structure Deposit where
  data : Data
  time : ℕ
  ttl : Option ℕ

abbrev Archive := Name → Option Deposit

def Name.Under (m n : Name) : Prop := ∃ i < m.len, n = m.ancestor i

namespace Deposit

/-- A lifetime of zero seconds is none. -/
def Expired (dep : Deposit) (now : ℕ) : Prop :=
  ∃ ttl ∈ dep.ttl, 0 < ttl ∧ dep.time + ttl ≤ now

/-- The numbers that are kept with the Data are those of a 64-bit integer with a sign. -/
structure Fits (dep : Deposit) : Prop where
  sequence : ∀ q ∈ dep.data.metadata.sequence, q < 2 ^ 63
  age : dep.data.metadata.freshness.fresh = false →
    dep.data.metadata.freshness.ageSeconds < 2 ^ 63
  freshnessPeriod : ∀ p ∈ dep.data.metadata.freshnessPeriod, p < 2 ^ 63
  time : dep.time < 2 ^ 63
  expiry : ∀ ttl ∈ dep.ttl, 0 < ttl → dep.time + ttl < 2 ^ 63
  size : dep.data.content.length < 2 ^ 63

section Hash

variable [Hashlib]

/-- The hash that the Data declares, if it is not empty, or else that of its content. -/
def digest (dep : Deposit) : Bytes := dep.data.rowHash

def Genuine (dep : Deposit) : Prop := blake2b dep.data.content = dep.digest

/-- The Data as it is given out under a name: its age is that of the deposit, and it is fresh while
it was deposited as fresh and is younger than its period. -/
def served (dep : Deposit) (n : Name) (now : ℕ) : Data where
  name := n
  content := dep.data.content
  signature := dep.data.signature.filter fun sig => !sig.isEmpty
  metadata :=
    { contentHash := some dep.digest
      sequence := dep.data.metadata.sequence
      freshness :=
        { fresh := dep.data.metadata.freshness.fresh &&
            dep.data.metadata.freshnessPeriod.all (now - dep.time < ·)
          ageSeconds := now - dep.time }
      freshnessPeriod := dep.data.metadata.freshnessPeriod
      signedAt := dep.data.metadata.signedAt
      encrypted := dep.data.metadata.encrypted }

end Hash

/-- The selector prefers the deposit to the other one, or has no preference. -/
def Preferred (child : ChildSelector) (dep other : Deposit) : Prop :=
  match child with
  | .none => other.time ≤ dep.time
  | .latest => other.data.metadata.sequence.getD 0 < dep.data.metadata.sequence.getD 0 ∨
      dep.data.metadata.sequence = other.data.metadata.sequence ∧ other.time ≤ dep.time
  | .oldest => dep.data.metadata.sequence.getD 0 < other.data.metadata.sequence.getD 0 ∨
      dep.data.metadata.sequence = other.data.metadata.sequence ∧ other.time ≤ dep.time

end Deposit

namespace Archive

/-- How many names something is held under. -/
noncomputable def size (a : Archive) : ℕ := {n | a n ≠ none}.ncard

/-- How many bytes of content are held. -/
noncomputable def bytes (a : Archive) : ℕ :=
  ∑ᶠ n ∈ {n | a n ≠ none}, (a n).elim 0 fun dep => dep.data.content.length

def Drops (a : Archive) (P : Name → Deposit → Prop) (b : Archive) : Prop :=
  ∀ n dep, b n = some dep ↔ a n = some dep ∧ ¬ P n dep

def Sweeps (a : Archive) (now : ℕ) (b : Archive) : Prop := a.Drops (fun _ dep => dep.Expired now) b

/-- `b` is `a` without `k` deposits, or without all if there are fewer: none that is left is older
than one that is gone. -/
structure Evicts (a : Archive) (k : ℕ) (b : Archive) : Prop where
  kept : ∀ n dep, b n = some dep → a n = some dep
  oldest : ∀ n m dep dep', a n = some dep → b n = none → b m = some dep' → dep.time ≤ dep'.time
  size : b.size = a.size - k

def SameLive (now : ℕ) (a b : Archive) : Prop :=
  ∀ n dep, ¬ dep.Expired now → (a n = some dep ↔ b n = some dep)

variable [Hashlib]

def Finds (a : Archive) (n : Name) (now : ℕ) (x : Option Data) : Prop :=
  ∀ d, x = some d ↔ ∃ dep, a n.withoutContentHash = some dep ∧ dep.Genuine ∧
    (∀ pin ∈ n.contentHash, blake2b dep.data.content = pin) ∧
      d = dep.served n.withoutContentHash now

/-- A deposit that may answer a request for what is under `n`. A request for a child is about
sequenced Data at or above the floor, and not about reserved names. -/
structure Candidate (a : Archive) (n : Name) (child : ChildSelector) (floor : Option ℕ) (m : Name)
    (dep : Deposit) : Prop where
  held : a m = some dep
  under : m.Under n
  genuine : dep.Genuine
  suits : child ≠ .none → Discovery.isReserved m = false ∧
    ∃ q ∈ dep.data.metadata.sequence, ∀ f ∈ floor, f ≤ q

/-- The request is answered with a candidate that none is preferred to, or with nothing if there is
no candidate. -/
def Chooses (a : Archive) (n : Name) (child : ChildSelector) (floor : Option ℕ) (now : ℕ) :
    Option Data → Prop
  | none => ∀ m dep, ¬ a.Candidate n child floor m dep
  | some d => ∃ m dep, a.Candidate n child floor m dep ∧ d = dep.served m now ∧
      ∀ m' dep', a.Candidate n child floor m' dep' → dep.Preferred child dep'

/-- How an archive of a capacity reacts to an operation, if `ttl` says how long it keeps what. -/
inductive Reacts (ttl : Name → Option ℕ) (capacity : ℕ) :
    Archive → StoreOp → StoreReply → Archive → Prop where

  | stored {a b : Archive} {n : Name} {d : Data} {now : ℕ} {dep : Deposit} :
      dep = ⟨d, now, ttl n.withoutContentHash⟩ → dep.Fits →
      Evicts (Function.update a n.withoutContentHash (some dep))
        (size (Function.update a n.withoutContentHash (some dep)) - capacity) b →
      Reacts ttl capacity a (.insert n d now) .stored b

  | unfit {a b : Archive} {n : Name} {d : Data} {now : ℕ} :
      ¬ Deposit.Fits ⟨d, now, ttl n.withoutContentHash⟩ → SameLive now a b →
      Reacts ttl capacity a (.insert n d now) (.raised .overflowError) b

  | get {a b : Archive} {n : Name} {now : ℕ} {x : Option Data} :
      a.Sweeps now b → b.Finds n now x → Reacts ttl capacity a (.get n now) (.found x) b

  | getPrefix {a b : Archive} {n : Name} {child : ChildSelector} {floor : Option ℕ} {now : ℕ}
      {x : Option Data} :
      a.Sweeps now b → (child ≠ .none → ∀ f ∈ floor, f < 2 ^ 63) →
      b.Chooses n child floor now x →
      Reacts ttl capacity a (.getPrefix n child floor now) (.found x) b

  | floorUnfit {a b : Archive} {n : Name} {child : ChildSelector} {floor now : ℕ} :
      a.Sweeps now b → child ≠ .none → 2 ^ 63 ≤ floor →
      Reacts ttl capacity a (.getPrefix n child (some floor) now) (.raised .overflowError) b

  | purged {a b : Archive} {now : ℕ} : a.Sweeps now b →
      Reacts ttl capacity a (.purgeExpired now) (.count (a.size - b.size)) b

  | evicted {a b : Archive} {targetCount : ℕ} : a.Evicts (a.size - targetCount) b →
      Reacts ttl capacity a (.evictLru targetCount) (.count (a.size - b.size)) b

  | removed {a : Archive} {n : Name} :
      Reacts ttl capacity a (.remove n) (.existed (a n).isSome) (Function.update a n none)

  | invalidated {a b : Archive} {n : Name} {byPrefix : Bool} :
      a.Drops (fun m _ => m = n ∨ byPrefix = true ∧ m.Under n) b →
      Reacts ttl capacity a (.invalidate n byPrefix) (.count (a.size - b.size)) b

end Archive

end RnsIcn
