import RnsIcn.Forwarder.Answer
import RnsIcn.Server.Core

/-! # Stale answers of a server

A server answers an Interest from its store before the forwarder sees it. This answer
is given at any age of the row and schedules no refresh, while the strategy of the
forwarder refreshes a stale row in the background. The forwarder never gets to it.
-/

namespace RnsIcn

open Effect Fallible

namespace ContentStore

theorem expiredKeys_purgeExpired (s : ContentStore) (now : ℕ) :
    (s.purgeExpired now).expiredKeys now = [] := by
  rw [expiredKeys, List.map_eq_nil_iff, List.filter_eq_nil_iff]
  rintro ⟨key, row⟩ he hexpired
  have hrow : (s.purgeExpired now).content.get? key = some row := Dict.get?_eq_some.mpr he
  rw [purgeExpired, get?_deleteRows] at hrow
  split at hrow
  · cases hrow
  · rename_i hkey
    exact hkey (List.mem_map.mpr ⟨(key, row),
      List.mem_filter.mpr ⟨Dict.get?_eq_some.mp hrow, hexpired⟩, rfl⟩)

theorem purgeExpired_purgeExpired (s : ContentStore) (now : ℕ) :
    (s.purgeExpired now).purgeExpired now = s.purgeExpired now := by
  rw [purgeExpired, expiredKeys_purgeExpired]
  rfl

end ContentStore

section Lookup

variable [Hashlib]

namespace Forwarder

def swept (fw : Forwarder) : Forwarder := { fw with cs := fw.cs.purgeExpired fw.time }

theorem csLookup_swept (fw : Forwarder) (i : Interest) :
    fw.swept.csLookup i = fw.csLookup i := by
  simp only [csLookup, swept, ContentStore.get, ContentStore.getPrefix,
    ContentStore.purgeExpired_purgeExpired]

end Forwarder

structure Data.SameAge (d d' : Data) : Prop where
  freshness : d'.metadata.freshness = d.metadata.freshness
  freshnessPeriod : d'.metadata.freshnessPeriod = d.metadata.freshnessPeriod
  sequence : d'.metadata.sequence = d.metadata.sequence

namespace Server

variable {s t u : Server} {i : Interest} {face : FaceId} {nonce : Bytes} {d : Data}
  {fw : Forwarder}

/-- The usable next hop of a name. -/
def nextHop (s : Server) (n : Name) : Option FaceId :=
  s.forwarder.strategy.firstUsableFace s.forwarder.loop.monotonic (s.forwarder.fib.lookup n)

/-- `handle_interest` answers from a stale row with `d`, and the server is then in state `u`: by
its own lookup, or by that of `express`. -/
inductive AnswersStale (s : Server) (i : Interest) (face : FaceId) (nonce : Bytes) (d : Data) :
    Server → Prop where

  | served {u : Server} : exec (serveFromCs i) s = (.ok (some d), u) →
      d.metadata.freshness.fresh = false → AnswersStale s i face nonce d u

  | expressed {u : Server} {call : Call} : exec (serveFromCs i) s = (.ok none, u) →
      (u.forwarder.express i face nonce).loop.calls u.forwarder.loop.nextCall = some call →
      call.phase = .returned (some d) → d.metadata.freshness.fresh = false →
      AnswersStale s i face nonce d { u with forwarder := u.forwarder.express i face nonce }

/-- The row that `d` is answered from is within the window, and it is being refreshed if there is
a next hop. -/
structure RevalidatesInWindow (u : Server) (i : Interest) (d : Data) : Prop where
  young : ∃ period, d.metadata.freshnessPeriod = some period ∧
    d.metadata.freshness.ageSeconds < period + u.forwarder.strategy.staleWhileRevalidate
  refreshing : u.nextHop i.name ≠ none → i.name ∈ u.forwarder.revalidating

theorem maybeSignOpt_sameAge (r : Option Data) :
    Triple (fun t => t.forwarder = fw) (maybeSignOpt r)
    (fun r' t => t.forwarder = fw ∧ Option.Rel Data.SameAge r r') (fun t => t.forwarder = fw) := by
  cases r with
  | none => exact Triple.pure fun t ht => ⟨ht, .none⟩
  | some d =>
    have hsign : Triple (fun t => t.forwarder = fw) (maybeSign d)
        (fun d' t => t.forwarder = fw ∧ d.SameAge d') (fun t => t.forwarder = fw) := by
      refine Triple.bind_get fun s hs => ?_
      split
      · exact Triple.pure fun t ht => ⟨ht ▸ hs, ⟨rfl, rfl, rfl⟩⟩
      · split
        · refine Triple.bind (Q := fun d' t => t.forwarder = fw ∧ d.SameAge d') ?_ fun d' => ?_
          · refine Triple.ofExcept (fun d' t hd ht => ⟨ht ▸ hs, ?_⟩) fun t ht => ht ▸ hs
            obtain ⟨sig, -, rfl⟩ := Data.sign_eq_ok hd
            exact ⟨rfl, rfl, rfl⟩
          · exact Triple.bind (Triple.modify fun t ht => ht) fun _ => Triple.pure fun _ h => h
        · exact Triple.pure fun t ht => ⟨ht ▸ hs, ⟨rfl, rfl, rfl⟩⟩
    refine Triple.bind hsign fun d' => Triple.pure fun t ht => ⟨ht.1, .some ht.2⟩

theorem csGet_swept (n : Name) :
    Triple (· = s) (csGet n)
    (fun raw t => t.forwarder = s.forwarder.swept ∧
      (s.forwarder.cs.get n s.forwarder.time).2 = .ok raw)
    (fun t => t.forwarder = s.forwarder.swept) := by
  refine Triple.bind_get fun u hu => ?_
  subst hu
  refine Triple.bind (Q := fun _ t => t.forwarder = u.forwarder.swept) ?_ fun _ => ?_
  · exact Triple.modify fun t ht => ht ▸ rfl
  · exact Triple.ofExcept (fun raw t hr ht => ⟨ht, hr⟩) fun t ht => ht

theorem csGetPrefix_swept (n : Name) (child : ChildSelector) (minSequence : Option ℕ) :
    Triple (· = s) (csGetPrefix n child minSequence)
    (fun raw t => t.forwarder = s.forwarder.swept ∧
      (s.forwarder.cs.getPrefix n child minSequence s.forwarder.time).2 = .ok raw)
    (fun t => t.forwarder = s.forwarder.swept) := by
  refine Triple.bind_get fun u hu => ?_
  subst hu
  refine Triple.bind (Q := fun _ t => t.forwarder = u.forwarder.swept) ?_ fun _ => ?_
  · exact Triple.modify fun t ht => ht ▸ rfl
  · exact Triple.ofExcept (fun raw t hr ht => ⟨ht, hr⟩) fun t ht => ht

omit [Hashlib] in
theorem rel_filter {r r' : Option Data} (h : Option.Rel Data.SameAge r r')
    {p q : Data → Bool} (hpq : ∀ d d', d.SameAge d' → p d = q d') :
    Option.Rel Data.SameAge (r.filter p) (r'.filter q) := by
  cases h with
  | none => exact .none
  | @some d d' hd =>
    rw [Option.filter_some, Option.filter_some, hpq d d' hd]
    split
    · exact .some hd
    · exact .none

/-- Outside its own namespace a server finds what its forwarder does, signed anew perhaps. -/
theorem csLookup_sameAge (hown : i.name.rnsAddr ≠ s.rnsAddr) :
    Triple (· = s) (csLookup i)
    (fun r t => t.forwarder = s.forwarder.swept ∧ ∃ raw,
      (s.forwarder.csLookup i).2 = .ok raw ∧ Option.Rel Data.SameAge raw r)
    (fun t => t.forwarder = s.forwarder.swept) := by
  refine Triple.bind_get fun u hu => ?_
  subst hu
  split
  · rename_i hunder
    refine Triple.bind (csGetPrefix_swept i.name i.child i.minSequence) fun raw t ht => ?_
    refine Triple.bind (maybeSignOpt_sameAge raw) (fun r => ?_) t ht.1
    refine Triple.pure fun t' ht' => ⟨ht'.1, raw.filter fun d => !Forwarder.walkSkips i d, ?_, ?_⟩
    · rw [Forwarder.csLookup, if_pos hunder]
      exact congrArg (Except.map _) ht.2
    · refine rel_filter ht'.2 fun d d' hd => ?_
      rw [bne_iff_ne.mpr hown, Bool.and_true, Forwarder.walkSkips, Forwarder.walkSkips,
        hd.sequence]
  · rename_i hexact
    refine Triple.bind (csGet_swept i.name) fun raw t ht => ?_
    refine ((maybeSignOpt_sameAge raw).post fun r t' ht' => ⟨ht'.1, raw, ?_, ht'.2⟩) t ht.1
    rw [Forwarder.csLookup, if_neg hexact]
    exact ht.2

/-- The answer of the server is that of the forwarder's lookup unless it must be fresh. -/
theorem serveFromCs_sameAge (hown : i.name.rnsAddr ≠ s.rnsAddr) :
    Triple (· = s) (serveFromCs i)
    (fun r t => t.forwarder = s.forwarder.swept ∧ ∃ raw,
      (s.forwarder.csLookup i).2 = .ok raw ∧ Option.Rel Data.SameAge
        (raw.filter fun d => !(i.mustBeFresh && !d.metadata.freshness.fresh)) r)
    (fun t => t.forwarder = s.forwarder.swept) := by
  refine Triple.bind_get fun u hu => ?_
  subst hu
  refine Triple.bind (csLookup_sameAge hown) fun r => Triple.pure fun t ht => ?_
  obtain ⟨hfw, raw, hraw, hrel⟩ := ht
  refine ⟨hfw, raw, hraw, rel_filter hrel fun d d' hd => ?_⟩
  rw [bne_iff_ne.mpr hown, Bool.and_true, hd.freshness]

theorem serveFromCs_forwarder (hown : i.name.rnsAddr ≠ s.rnsAddr) {r : Option Data}
    (h : exec (serveFromCs i) s = (.ok r, u)) : u.forwarder = s.forwarder.swept ∧ ∃ raw,
      (s.forwarder.csLookup i).2 = .ok raw ∧ Option.Rel Data.SameAge
        (raw.filter fun d => !(i.mustBeFresh && !d.metadata.freshness.fresh)) r := by
  have ht := serveFromCs_sameAge hown s rfl
  rwa [h] at ht

/-- What `express` returns at once it has found in the store, and it satisfies the selector. -/
theorem expressed_found {call : Call}
    (hc : (fw.express i face nonce).loop.calls fw.loop.nextCall = some call)
    (hp : call.phase = .returned (some d)) :
    ∃ cs, fw.csLookup i = (cs, .ok (some d)) ∧ BestRoute.selectorSatisfied i d = true := by
  have ch := Forwarder.express_change fw i face nonce
  generalize (fw.express i face nonce).loop = r at ch hc
  cases ch with
  | routed ho =>
    exact absurd ⟨call, hc, .inl hp⟩ ho.not_got
  | hit hl hs =>
    rw [EventLoop.calls_setCall, if_pos rfl] at hc
    obtain rfl := Option.some.inj hc
    obtain rfl : _ = d := by simpa using hp
    exact ⟨_, hl, hs⟩
  | hitStale hl hs =>
    rw [EventLoop.calls_setCall, if_pos rfl] at hc
    obtain rfl := Option.some.inj hc
    obtain rfl : _ = d := by simpa using hp
    exact ⟨_, hl, hs⟩
  | joined hf hs =>
    rw [EventLoop.calls_wait, if_pos rfl] at hc
    obtain rfl := Option.some.inj hc
    cases hp
  | ran _ ran => cases ran
  | quiet hq => cases hq

theorem AnswersStale.served_only (hown : i.name.rnsAddr ≠ s.rnsAddr)
    (h : AnswersStale s i face nonce d u) :
    exec (serveFromCs i) s = (.ok (some d), u) ∧ d.metadata.freshness.fresh = false := by
  cases h with
  | served hserve hstale => exact ⟨hserve, hstale⟩
  | expressed hserve hc hp hstale =>
    obtain ⟨hfw, raw, hraw, hrel⟩ := serveFromCs_forwarder hown hserve
    obtain ⟨cs, hfound, hsel⟩ := expressed_found hc hp
    rw [hfw, Forwarder.csLookup_swept] at hfound
    obtain rfl : raw = some d := Except.ok.inj (hraw.symm.trans (congrArg Prod.snd hfound))
    have hfresh := (BestRoute.selectorSatisfied_iff.mp hsel).1
    have hmust : i.mustBeFresh = false := by
      by_contra hm
      rw [Bool.not_eq_false] at hm
      exact absurd (hfresh hm) (by simp [hstale])
    rw [hmust, Option.filter_some] at hrel
    cases hrel

/-- An answer from a stale row is young enough and is being refreshed exactly if the row is within
the window at that moment and no refresh is due or one is under way already. -/
theorem stale_answer_revalidates_iff (hw : 0 < s.forwarder.strategy.staleWhileRevalidate)
    (hown : i.name.rnsAddr ≠ s.rnsAddr) (h : AnswersStale s i face nonce d u) :
    RevalidatesInWindow u i d ↔ s.forwarder.strategy.withinSwrWindow d = true ∧
      (s.nextHop i.name = none ∨ i.name ∈ s.forwarder.revalidating) := by
  obtain ⟨hserve, -⟩ := h.served_only hown
  have hfw := (serveFromCs_forwarder hown hserve).1
  have hstrategy : u.forwarder.strategy = s.forwarder.strategy := by rw [hfw]; rfl
  have hhop : u.nextHop i.name = s.nextHop i.name := by rw [nextHop, hfw]; rfl
  have hrevalidating : u.forwarder.revalidating = s.forwarder.revalidating := by rw [hfw]; rfl
  have hwindow : s.forwarder.strategy.withinSwrWindow d = true ↔
      ∃ period, d.metadata.freshnessPeriod = some period ∧ d.metadata.freshness.ageSeconds <
        period + s.forwarder.strategy.staleWhileRevalidate := by
    rw [BestRoute.withinSwrWindow]
    cases d.metadata.freshnessPeriod <;> simp [hw]
  rw [hwindow, ← hstrategy, ← hhop, ← hrevalidating, or_iff_not_imp_left]
  exact ⟨fun hr => ⟨hr.young, hr.refreshing⟩, fun hr => ⟨hr.1, hr.2⟩⟩

end Server

end Lookup

namespace Server

open Forwarder

/-- A cache with a window of 30 seconds, 20 seconds after it stored Data with a freshness period
of 10. It has a route to the name. -/
def staleCache (revalidating : List Name) : Server :=
  letI := Data.paddedHash
  { rnsAddr := List.replicate 16 0x02
    faces := [7]
    forwarder := { relay [1] with
      cs := (ContentStore.insert {} relayName (answer.withFreshnessPeriod 10) 0).toOption.getD {}
      strategy := { staleWhileRevalidate := 30 }
      revalidating
      time := 20 } }

def staleAnswer : Data := { answer with
  metadata := {
    contentHash := some ([0x68, 0x69] ++ List.replicate 30 0)
    freshness := { fresh := false, ageSeconds := 20 }
    freshnessPeriod := some 10 } }

theorem staleCache_answers (revalidating : List Name) : letI := Data.paddedHash
    AnswersStale (staleCache revalidating) (request 1 1000) 7 [] staleAnswer
      (after (serveFromCs (request 1 1000)) (staleCache revalidating)) :=
  letI := Data.paddedHash
  .served rfl rfl

theorem refreshing_answer_revalidates : letI := Data.paddedHash
    RevalidatesInWindow (after (serveFromCs (request 1 1000)) (staleCache [relayName]))
      (request 1 1000) staleAnswer :=
  letI := Data.paddedHash
  (stale_answer_revalidates_iff (s := staleCache [relayName]) (by decide) (by decide)
    (staleCache_answers [relayName])).mpr ⟨rfl, .inr (List.mem_singleton.mpr rfl)⟩

/-- A cache with a usable route answers from a stale row and refreshes nothing, where the strategy
of its forwarder would. -/
theorem stale_answer_not_refreshed : letI := Data.paddedHash
    AnswersStale (staleCache []) (request 1 1000) 7 [] staleAnswer
      (after (serveFromCs (request 1 1000)) (staleCache [])) ∧
    (staleCache []).nextHop relayName = some 1 ∧
    ¬ RevalidatesInWindow (after (serveFromCs (request 1 1000)) (staleCache []))
      (request 1 1000) staleAnswer ∧
    (after (handleInterest (request 1 1000) 7 []) (staleCache [])).sent =
      [(7, .data staleAnswer)] ∧
    (after (handleInterest (request 1 1000) 7 []) (staleCache [])).forwarder.revalidating = [] ∧
    ((staleCache []).forwarder.express (request 1 1000) 7 []).revalidating = [relayName] := by
  let := Data.paddedHash
  refine ⟨staleCache_answers [], rfl, fun h => ?_, rfl, rfl, rfl⟩
  have hhop : (after (serveFromCs (request 1 1000)) (staleCache [])).nextHop relayName = some 1 :=
    rfl
  have hmem := h.refreshing (by rw [show (request 1 1000).name = relayName from rfl, hhop]; simp)
  exact absurd hmem List.not_mem_nil

end Server

end RnsIcn
