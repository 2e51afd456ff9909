import RnsIcn.Forwarder.Tables

/-! # The best-route strategy

A face that failed is left alone for a time that doubles with each further
failure. A decision is made from the cached Data, the pending entry and the
usable faces of the route, in this order.
-/

namespace RnsIcn

structure FailureRecord where
  lastFailure : ℕ
  consecutiveFailures : ℕ
  deriving DecidableEq, Repr

/-- Back-off times are in milliseconds, the stale window in seconds. -/
structure BestRoute where
  failures : Dict FaceId FailureRecord := .empty
  backoffBase : ℕ := 1000
  maxBackoff : ℕ := 30000
  staleWhileRevalidate : ℕ := 0

inductive StrategyDecision where
  | serveFromCache (d : Data)
  | serveStaleRevalidate (d : Data) (face : FaceId)
  | suppressAggregate
  | forwardTo (face : FaceId)
  | noRoute
  deriving DecidableEq, Repr

namespace BestRoute

def recordFailure (b : BestRoute) (face : FaceId) (now : ℕ) : BestRoute :=
  let count := ((b.failures.get? face).map FailureRecord.consecutiveFailures).getD 0
  { b with failures := b.failures.set face ⟨now, count + 1⟩ }

def recordSuccess (b : BestRoute) (face : FaceId) : BestRoute :=
  { b with failures := b.failures.erase face }

def isInBackoff (b : BestRoute) (now : ℕ) (face : FaceId) : Bool :=
  match b.failures.get? face with
  | none => false
  | some r =>
    now - r.lastFailure < min (b.backoffBase * 2 ^ min r.consecutiveFailures 6) b.maxBackoff

def sequenceSatisfied (i : Interest) (d : Data) : Bool :=
  i.minSequence.all fun floor => d.metadata.sequence.any (floor ≤ ·)

def selectorSatisfied (i : Interest) (d : Data) : Bool :=
  if i.mustBeFresh && !d.metadata.freshness.fresh then false else sequenceSatisfied i d

def usableFaces (b : BestRoute) (now : ℕ) (fibFaces : List (FaceId × ℕ)) : List FaceId :=
  (fibFaces.map Prod.fst).filter fun face => !b.isInBackoff now face

def firstUsableFace (b : BestRoute) (now : ℕ) (fibFaces : List (FaceId × ℕ)) : Option FaceId :=
  (b.usableFaces now fibFaces).head?

def withinSwrWindow (b : BestRoute) (d : Data) : Bool :=
  match d.metadata.freshnessPeriod with
  | none => false
  | some period =>
    0 < b.staleWhileRevalidate &&
      d.metadata.freshness.ageSeconds < period + b.staleWhileRevalidate

def decideCached (b : BestRoute) (now : ℕ) (fibFaces : List (FaceId × ℕ)) (d : Data) :
    StrategyDecision :=
  if !d.metadata.freshness.fresh && b.withinSwrWindow d then
    match b.firstUsableFace now fibFaces with
    | some face => .serveStaleRevalidate d face
    | none => .serveFromCache d
  else .serveFromCache d

def decidePending (b : BestRoute) (now : ℕ) (fibFaces : List (FaceId × ℕ))
    (pitHit : Option PitEntry) : StrategyDecision :=
  if pitHit.any (!·.satisfied) then .suppressAggregate
  else match b.firstUsableFace now fibFaces with
    | some face => .forwardTo face
    | none => .noRoute

def decide (b : BestRoute) (now : ℕ) (i : Interest) (fibFaces : List (FaceId × ℕ))
    (pitHit : Option PitEntry) (csHit : Option Data) : StrategyDecision :=
  match csHit.filter (selectorSatisfied i) with
  | some d => b.decideCached now fibFaces d
  | none => b.decidePending now fibFaces pitHit

theorem decideCached_cases (b : BestRoute) (now : ℕ) (fibFaces : List (FaceId × ℕ)) (d : Data) :
    b.decideCached now fibFaces d = .serveFromCache d ∨
      ∃ face, b.decideCached now fibFaces d = .serveStaleRevalidate d face := by
  rw [decideCached]
  split
  · split
    · exact .inr ⟨_, rfl⟩
    · exact .inl rfl
  · exact .inl rfl

theorem decidePending_cases (b : BestRoute) (now : ℕ) (fibFaces : List (FaceId × ℕ))
    (pitHit : Option PitEntry) :
    (∃ e, pitHit = some e ∧ e.satisfied = false ∧
      b.decidePending now fibFaces pitHit = .suppressAggregate) ∨
    (pitHit.any (!·.satisfied) = false ∧
      ∃ face, b.decidePending now fibFaces pitHit = .forwardTo face) ∨
    b.decidePending now fibFaces pitHit = .noRoute := by
  rw [decidePending]
  split
  · rename_i h
    obtain ⟨e, he, hs⟩ := (Option.any_eq_true _ _).mp h
    exact .inl ⟨e, he, by simpa using hs, rfl⟩
  · rename_i h
    split
    · exact .inr (.inl ⟨by simpa using h, _, rfl⟩)
    · exact .inr (.inr rfl)

/-- A decision serves Data that satisfies the selector, joins a pending entry, forwards or ends. -/
theorem decide_cases (b : BestRoute) (now : ℕ) (i : Interest) (fibFaces : List (FaceId × ℕ))
    (pitHit : Option PitEntry) (csHit : Option Data) :
    (∃ d, csHit = some d ∧ selectorSatisfied i d = true ∧
      (b.decide now i fibFaces pitHit csHit = .serveFromCache d ∨
        ∃ face, b.decide now i fibFaces pitHit csHit = .serveStaleRevalidate d face)) ∨
    (∃ e, pitHit = some e ∧ e.satisfied = false ∧
      b.decide now i fibFaces pitHit csHit = .suppressAggregate) ∨
    (pitHit.any (!·.satisfied) = false ∧
      ∃ face, b.decide now i fibFaces pitHit csHit = .forwardTo face) ∨
    b.decide now i fibFaces pitHit csHit = .noRoute := by
  rw [decide]
  split
  · rename_i d hf
    obtain ⟨hd, hs⟩ := Option.filter_eq_some_iff.mp hf
    exact .inl ⟨d, hd, hs, decideCached_cases ..⟩
  · exact .inr (decidePending_cases ..)

end BestRoute

end RnsIcn
