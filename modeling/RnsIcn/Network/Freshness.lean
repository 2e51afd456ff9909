import RnsIcn.Network.Relayed
import RnsIcn.Server.Links
import RnsIcn.Server.Offline
import RnsIcn.Wire.RoundTrip

/-! # Freshness along a chain of caches

A cache counts the age of a row from the time at which it stored it, and Data that is
still fresh carries no age to the next cache. Each cache of a chain may therefore add
its own freshness period to the age of a copy.
-/

namespace RnsIcn

open Transition Effect Fallible

/-- `d` is a copy of the version `e`, with the freshness period of it. -/
structure Data.CopyOf (d e : Data) : Prop where
  name : d.name.withoutContentHash = e.name.withoutContentHash
  content : d.content = e.content
  sequence : d.metadata.sequence = e.metadata.sequence
  freshnessPeriod : d.metadata.freshnessPeriod = e.metadata.freshnessPeriod

namespace Data.CopyOf

variable {d e f : Data}

theorem refl (d : Data) : d.CopyOf d := ⟨rfl, rfl, rfl, rfl⟩

theorem trans (h : d.CopyOf e) (h' : e.CopyOf f) : d.CopyOf f where
  name := h.name.trans h'.name
  content := h.content.trans h'.content
  sequence := h.sequence.trans h'.sequence
  freshnessPeriod := h.freshnessPeriod.trans h'.freshnessPeriod

theorem rnsAddr (h : d.CopyOf e) : d.name.rnsAddr = e.name.rnsAddr := by
  have hname := congrArg Name.rnsAddr h.name
  exact hname

theorem onWire (d : Data) : d.onWire.CopyOf d := ⟨rfl, rfl, rfl, rfl⟩

end Data.CopyOf

namespace Server

variable [Hashlib] {s u : Server} {i : Interest} {d : Data}

def Shows (s : Server) (d : Data) : Prop :=
  ∃ key row n, s.forwarder.cs.content.get? key = some row ∧ Name.fromBytes row.nameBytes = .ok n ∧
    d.CopyOf (ContentStore.rowData row n s.forwarder.time) ∧
    d.metadata.freshness = (ContentStore.rowData row n s.forwarder.time).metadata.freshness

omit [Hashlib] in
theorem shows_of_row {key : Bytes} {row : Row}
    (hrow : (s.forwarder.cs.purgeExpired s.forwarder.time).content.get? key = some row)
    (hn : Name.fromBytes row.nameBytes = .ok d.name)
    (hd : d = ContentStore.rowData row d.name s.forwarder.time) : s.Shows d := by
  refine ⟨key, row, d.name, ?_, hn, hd ▸ .refl d, hd ▸ rfl⟩
  exact ContentStore.deleteRows_sub s.forwarder.cs _ key row hrow

theorem csGet_shows (n : Name) :
    Triple (· = s) (csGet n) (fun r _ => ∀ d ∈ r, s.Shows d) fun _ => True := by
  refine (csGet_swept n).conseq (fun _ h => h) (fun r t ht d hd => ?_) fun _ _ => trivial
  obtain ⟨key, row, hrow, -, hn, he⟩ := ContentStore.read_row (ht.2.trans (congrArg _ hd))
  exact shows_of_row hrow hn he

theorem csGetPrefix_shows (n : Name) (child : ChildSelector) (minSequence : Option ℕ) :
    Triple (· = s) (csGetPrefix n child minSequence) (fun r _ => ∀ d ∈ r, s.Shows d)
    fun _ => True := by
  refine (csGetPrefix_swept n child minSequence).conseq (fun _ h => h) (fun r t ht d hd => ?_)
    fun _ _ => trivial
  obtain ⟨key, row, hrow, -, hn, he, -⟩ :=
    ContentStore.readPrefix_serves (ht.2.trans (congrArg _ hd))
  exact shows_of_row hrow hn he

theorem maybeSignOpt_shows (r : Option Data) : Triple (fun _ => ∀ d ∈ r, s.Shows d)
    (maybeSignOpt r) (fun r' _ => ∀ d ∈ r', s.Shows d) fun _ => True := by
  cases r with
  | none => exact Triple.pure fun _ _ _ hd => by cases hd
  | some d =>
    have hsign : Triple (fun _ => s.Shows d) (maybeSign d) (fun d' _ => s.Shows d') fun _ => True :=
      by
        refine Triple.bind_get fun t ht => ?_
        split
        · exact Triple.pure fun _ _ => ht
        · split
          · refine Triple.bind (Q := fun d' _ => s.Shows d')
              (Triple.ofExcept (fun d' _ hd' _ => ?_) fun _ _ => trivial) fun d' =>
                Triple.bind (Q := fun _ _ => s.Shows d') (Triple.modify fun _ h => h) fun _ =>
                  Triple.pure fun _ h => h
            obtain ⟨sig, -, rfl⟩ := Data.sign_eq_ok hd'
            obtain ⟨key, row, n, hrow, hn, hcopy, hfresh⟩ := ht
            exact ⟨key, row, n, hrow, hn, ⟨hcopy.name, hcopy.content, hcopy.sequence,
              hcopy.freshnessPeriod⟩, hfresh⟩
          · exact Triple.pure fun _ _ => ht
    refine Triple.bind (hsign.pre fun _ h => h d rfl) fun d' => Triple.pure fun _ h e he => ?_
    exact Option.some.inj he ▸ h

theorem csLookup_shows (i : Interest) :
    Triple (· = s) (csLookup i) (fun r _ => ∀ d ∈ r, s.Shows d) fun _ => True := by
  refine Triple.bind_get fun t ht => ?_
  subst ht
  split
  · refine (csGetPrefix_shows i.name i.child i.minSequence).bind fun r =>
      (maybeSignOpt_shows r).bind fun r' => Triple.pure fun _ h d hd => ?_
    exact h d (Option.eq_some_of_filter_eq_some hd)
  · exact (csGet_shows i.name).bind maybeSignOpt_shows

/-- A server answers from its store with what a row shows, and a cache with what is fresh if the
Interest asks for it. -/
theorem serveFromCs_shows (h : exec (serveFromCs i) s = (.ok (some d), u)) : s.Shows d ∧
    (i.mustBeFresh = true → i.name.rnsAddr ≠ s.rnsAddr → d.metadata.freshness.fresh = true) := by
  have ht : Triple (· = s) (serveFromCs i) (fun r _ => ∀ d ∈ r, s.Shows d ∧
      (i.mustBeFresh = true → i.name.rnsAddr ≠ s.rnsAddr → d.metadata.freshness.fresh = true))
      fun _ => True := by
    refine Triple.bind_get fun t ht => ?_
    subst ht
    refine (csLookup_shows i).bind fun r => Triple.pure fun _ hr d hd => ?_
    obtain ⟨hd, hkeep⟩ := Option.filter_eq_some_iff.mp hd
    refine ⟨hr d hd, fun hmust hown => ?_⟩
    simpa [hmust, hown] using hkeep
  have hs := ht s rfl
  rw [h] at hs
  exact hs d rfl

/-- The Data that an event answers an Interest of a face with, and whether it is from the store. -/
def reply (s : Server) : Label → Option (FaceId × Interest × Data × Bool)
  | .incoming face raw drawn =>
    match parsePacket raw with
    | .ok (.interest i) =>
      if isHealthInterest i.name then some (face, i, Data.new i.name drawn.health, false)
      else match (exec (serveFromCs i) s).1 with
        | .ok (some d) => some (face, i, d, true)
        | _ => none
    | _ => none
  | .forwarded c =>
    (waitingFor c s.suspended).bind fun (face, i) => (s.forwarder.loop.calls c).bind fun call =>
      match call.phase with
      | .returned (some d) => some (face, i, d, false)
      | _ => none
  | _ => none

theorem sent_of_reply {t : Server} {l : Label} {face : FaceId} {stored : Bool} {raw : Bytes}
    (hr : s.reply l = some (face, i, d, stored)) (hs : s.step l = some t) (hface : face ∈ s.faces)
    (hd : d.toBytes = .ok raw) : (face, .data d) ∈ t.sent := by
  have hsend {v : Server} (hv : face ∈ v.faces) :
      (face, .data d) ∈ (after (send face (.data d)) v).sent := by
    rw [after, exec_send (p := .data d) hd, sendAll_sent]
    simp [hv]
  cases l with
  | incoming face' raw' drawn =>
    obtain rfl := Option.some.inj hs
    simp only [reply] at hr
    rw [handleIncoming]
    split at hr
    · rename_i i' hp
      rw [hp]
      simp only [handlePacket]
      split at hr
      · rename_i hhealth
        simp only [Option.some.injEq, Prod.mk.injEq] at hr
        obtain ⟨rfl, rfl, rfl, rfl⟩ := hr
        rw [if_pos hhealth]
        exact hsend hface
      · rename_i hhealth
        split at hr
        · rename_i d' hserve
          simp only [Option.some.injEq, Prod.mk.injEq] at hr
          obtain ⟨rfl, rfl, rfl, rfl⟩ := hr
          have hkeep : Keeps (fun t => t.faces = s.faces) (serveFromCs i') :=
            Sheltered.keeps_serveFromCs ⟨fun _ _ h => h, fun _ _ h => h, fun _ _ h => h⟩ i'
          have hfaces := hkeep s rfl
          rw [if_neg hhealth, handleInterest, after, exec_bind]
          generalize exec (serveFromCs i') s = result at hserve hfaces
          obtain ⟨r, u⟩ := result
          obtain rfl : r = _ := hserve
          have hu : u.faces = s.faces := hfaces
          exact hsend (hu ▸ hface)
        · cases hr
    · cases hr
  | forwarded c =>
    obtain ⟨⟨face', i'⟩, hwait, hr⟩ := Option.bind_eq_some_iff.mp hr
    obtain ⟨call, hc, hr⟩ := Option.bind_eq_some_iff.mp hr
    split at hr
    · rename_i d' hphase
      simp only [Option.some.injEq, Prod.mk.injEq] at hr
      obtain ⟨rfl, rfl, rfl, rfl⟩ := hr
      simp only [step, forwarded, hwait, hc, hphase, Option.bind_some, Option.some.injEq] at hs
      subst hs
      exact hsend (v := { s with suspended := s.suspended.erase (.forwarding c face' i') }) hface
    · cases hr
  | _ => cases hr

omit [Hashlib] in
theorem arriving_of_deliveredData {l : Label} (h : s.deliveredData l = some d) :
    l.arriving = some d := by
  cases l with
  | incoming face raw drawn =>
    cases hp : parsePacket raw with
    | error e => simp [deliveredData, hp] at h
    | ok p =>
      cases p <;> simp only [deliveredData, hp, reduceCtorEq] at h
      rw [Label.arriving, hp]
      exact (Option.ite_none_right_eq_some.mp h).2
  | resource payload => exact h
  | _ => cases h

end Server

/-- An answer to an Interest, with its time and the position of the server in the chain. -/
structure CacheReply where
  time : ℕ
  position : ℕ
  interest : Interest
  data : Data
  stored : Bool
  deriving DecidableEq, Repr

/-- A chain of servers with one clock: an origin of the names under `addr` at position 0, and caches
at the others. The logs hold the answers to Interests and the Data that has arrived. -/
structure CacheChain where
  addr : Bytes
  servers : ℕ → Server
  clock : ℕ := 0
  replies : List CacheReply := []
  arrivals : List (ℕ × ℕ × Data) := []

namespace CacheChain

inductive Label where
  | tick (time : ℕ)
  | event (position : ℕ) (l : Server.Label)

/-- The server at a position, at the time of the clock. -/
def current (N : CacheChain) (k : ℕ) : Server :=
  { N.servers k with forwarder := { (N.servers k).forwarder with time := N.clock } }

structure Initial (N : CacheChain) : Prop where
  servers : ∀ k, (N.servers k).Initial
  replies : N.replies = []
  arrivals : N.arrivals = []

def Periodic (N : CacheChain) (d : Data) : Prop :=
  d.name.rnsAddr = N.addr ∧ d.metadata.freshness.fresh = true ∧
    d.metadata.freshnessPeriod.isSome = true

/-- The caches have other addresses and create nothing under that of the origin. What they get of
it that is fresh is an answer of the server before them. It is on the link for at most `δ` seconds,
and no longer passes until what has arrived for a handler is handed on. -/
structure Chained (δ : ℕ) (N : CacheChain) (l : Label) : Prop where
  caching : ∀ k sl, l = .event (k + 1) sl → (N.servers (k + 1)).rnsAddr ≠ N.addr ∧
    ∀ x ∈ (N.servers (k + 1)).created, x.1.rnsAddr ≠ N.addr
  delivered : ∀ k sl d, l = .event (k + 1) sl → sl.arriving = some d → N.Periodic d →
    ∃ b ∈ N.replies, b.position = k ∧ d = b.data.onWire ∧ N.clock ≤ b.time + δ
  handedOn : ∀ k c call d, l = .event (k + 1) (.forwarded c) →
    (N.servers (k + 1)).forwarder.loop.calls c = some call → call.phase = .returned (some d) →
    N.Periodic d → (∃ time, (time, k + 1, d) ∈ N.arrivals) →
      ∃ time, (time, k + 1, d) ∈ N.arrivals ∧ N.clock ≤ time + δ

/-- What one cache and the link to it may add to the age of a copy. -/
def hop (δ p : ℕ) : ℕ := δ + max δ (p - 1)

/-- If `d` is fresh Data of the origin with period `p`, the origin has sent this version, and
`time` is at most `limit p` seconds later. -/
def Aged (N : CacheChain) (limit : ℕ → ℕ) (time : ℕ) (d : Data) : Prop :=
  d.name.rnsAddr = N.addr → d.metadata.freshness.fresh = true →
    ∀ p ∈ d.metadata.freshnessPeriod,
      ∃ b ∈ N.replies, b.position = 0 ∧ d.CopyOf b.data ∧ time ≤ b.time + limit p

def Rows (N : CacheChain) (limit : ℕ → ℕ) (cs : ContentStore) : Prop :=
  ∀ key row, cs.content.get? key = some row → ∃ n : Name, n.Encodable ∧ n.contentHash = none ∧
    row.nameBytes = n.encode ∧
      N.Aged limit row.insertedAt (ContentStore.rowData row n row.insertedAt)

variable {N M : CacheChain} {limit limit' : ℕ → ℕ} {time time' : ℕ} {d e : Data}

theorem Aged.later (h : N.Aged limit time e) (hcopy : d.CopyOf e)
    (hfresh : d.metadata.freshness.fresh = true → e.metadata.freshness.fresh = true)
    (hle : d.metadata.freshness.fresh = true → ∀ p ∈ d.metadata.freshnessPeriod,
      time' + limit p ≤ time + limit' p) : N.Aged limit' time' d := by
  intro haddr hd p hp
  obtain ⟨b, hb, hpos, hcopy', hbound⟩ :=
    h (hcopy.rnsAddr ▸ haddr) (hfresh hd) p (hcopy.freshnessPeriod ▸ hp)
  have := hle hd p hp
  exact ⟨b, hb, hpos, hcopy.trans hcopy', by omega⟩

theorem Aged.mono (h : N.Aged limit time d) (haddr : M.addr = N.addr)
    (hsub : ∀ b ∈ N.replies, b ∈ M.replies) : M.Aged limit time d := by
  intro hd hfresh p hp
  obtain ⟨b, hb, hrest⟩ := h (haddr ▸ hd) hfresh p hp
  exact ⟨b, hsub b hb, hrest⟩

theorem Rows.mono {cs : ContentStore} (h : N.Rows limit cs) (haddr : M.addr = N.addr)
    (hsub : ∀ b ∈ N.replies, b ∈ M.replies) : M.Rows limit cs := by
  intro key row hr
  obtain ⟨n, hn, hp, hb, haged⟩ := h key row hr
  exact ⟨n, hn, hp, hb, haged.mono haddr hsub⟩

/-- A row that shows fresh Data was stored less than the freshness period before. -/
theorem fresh_rowData {row : Row} {n : Name} {now : ℕ}
    (h : (ContentStore.rowData row n now).metadata.freshness.fresh = true) :
    (ContentStore.rowData row n row.insertedAt).metadata.freshness.fresh = true ∧
      ∀ p ∈ (ContentStore.rowData row n now).metadata.freshnessPeriod,
        now < row.insertedAt + p := by
  simp only [ContentStore.rowData, ContentStore.parseMetadata, Bool.and_eq_true] at h ⊢
  generalize (row.freshnessPeriod <|> row.metadataJson.freshnessPeriod) = period at h ⊢
  refine ⟨⟨h.1, ?_⟩, fun p hp => ?_⟩
  · cases period with
    | none => rfl
    | some p =>
      have hlt : now - row.insertedAt < p := by simpa using h.2
      exact decide_eq_true (by omega)
  · rw [hp] at h
    have hlt : now - row.insertedAt < p := by simpa using h.2
    omega

theorem Rows.shows {s : Server} (h : N.Rows limit s.forwarder.cs) (hd : s.Shows d)
    (hle : ∀ p, limit p + (p - 1) ≤ limit' p) : N.Aged limit' s.forwarder.time d := by
  obtain ⟨key, row, n, hrow, hn, hcopy, hfresh⟩ := hd
  obtain ⟨m, he, hpin, hbytes, haged⟩ := h key row hrow
  obtain rfl := Name.fromBytes_encode_eq he hpin (hbytes ▸ hn)
  refine haged.later ⟨hcopy.name, hcopy.content, hcopy.sequence, hcopy.freshnessPeriod⟩
    (fun hf => (fresh_rowData (hfresh ▸ hf)).1) fun hf p hp => ?_
  have hlt := (fresh_rowData (hfresh ▸ hf)).2 p (hcopy.freshnessPeriod ▸ hp)
  have := hle p
  omega

variable [Hashlib]

theorem Rows.insert {cs : ContentStore} {n : Name} (h : N.Rows limit cs)
    (hn : n.withoutContentHash = d.name.withoutContentHash) (hd : N.Aged limit time d) :
    N.Rows limit (cs.apply (.insert n d time)) := by
  intro key row hr
  rcases ContentStore.get?_apply_insert hr with hr | ⟨he, -, ⟨ttl, rfl⟩, -⟩
  · exact h key row hr
  · refine ⟨n.withoutContentHash, he, rfl, rfl, ?_⟩
    have hperiod : (d.metadata.freshnessPeriod <|> d.metadata.freshnessPeriod) =
        d.metadata.freshnessPeriod := by cases d.metadata.freshnessPeriod <;> rfl
    refine hd.later ⟨hn, rfl, rfl, hperiod⟩ (fun hf => ?_) fun _ _ _ => le_rfl
    exact (Bool.and_eq_true_iff.mp hf).1

omit [Hashlib] in
theorem Rows.sub {cs cs' : ContentStore} (h : N.Rows limit cs) (hsub : ContentStore.Sub cs' cs) :
    N.Rows limit cs' :=
  fun key row hr => h key row (hsub key row hr)

/-- The rows, as long as nothing is created under the address of the origin. -/
def Stored (N : CacheChain) (limit : ℕ → ℕ) (s : Server) : Prop :=
  (∀ x ∈ s.created, x.1.rnsAddr ≠ N.addr) → N.Rows limit s.forwarder.cs

omit [Hashlib] in
theorem Stored.mono {s : Server} (h : N.Stored limit s) (haddr : M.addr = N.addr)
    (hsub : ∀ b ∈ N.replies, b ∈ M.replies) : M.Stored limit s :=
  fun hc => (h (haddr ▸ hc)).mono haddr hsub

theorem stored_stable (N : CacheChain) (limit : ℕ → ℕ) : Server.Stable (N.Stored limit) where
  frame s t hst h hc := by
    have hcs : t.forwarder.cs = s.forwarder.cs := congrArg (fun u => u.forwarder.cs) hst
    have hcreated : t.created = s.created := congrArg (fun u => u.created) hst
    exact hcs ▸ h (hcreated ▸ hc)
  delete s op hop h hc := (h hc).sub (Server.apply_sub _ hop)
  create s n content h hc := h fun x hx => hc x (List.mem_cons_of_mem _ hx)
  insert s n d now hcreated h hc := by
    intro key row hr
    rcases ContentStore.get?_apply_insert hr with hr | ⟨he, -, ⟨ttl, rfl⟩, -⟩
    · exact h hc key row hr
    · exact ⟨n.withoutContentHash, he, rfl, rfl, fun haddr => absurd haddr (hc _ hcreated)⟩
  sign _ _ _ _ _ _ _ _ h := h
  openFace _ h := h
  closeFace _ _ h := h

def moved (N : CacheChain) (k : ℕ) (l : Server.Label) (t : Server) : CacheChain :=
  { N with
    servers := Function.update N.servers k t
    replies := (((N.current k).reply l).map fun (_, interest, data, stored) =>
      { time := N.clock, position := k, interest, data, stored }).toList ++ N.replies
    arrivals := (l.arriving.map fun d => (N.clock, k, d)).toList ++ N.arrivals }

def step (N : CacheChain) : Label → Option CacheChain
  | .tick time => if N.clock ≤ time then some { N with clock := time } else none
  | .event k l => ((N.current k).step l).map fun t => N.moved k l t

variable {j k : ℕ} {sl : Server.Label} {t : Server}

theorem moved_self : (N.moved k sl t).servers k = t := Function.update_self ..

theorem moved_of_ne (h : j ≠ k) : (N.moved k sl t).servers j = N.servers j :=
  Function.update_of_ne h _ _

theorem replies_moved : ∀ b ∈ N.replies, b ∈ (N.moved k sl t).replies :=
  fun _ hb => List.mem_append_right _ hb

theorem mem_replies_moved {b : CacheReply} (hb : b ∈ (N.moved k sl t).replies) :
    b ∈ N.replies ∨ b.time = N.clock ∧ b.position = k ∧
      ∃ face, (N.current k).reply sl = some (face, b.interest, b.data, b.stored) := by
  rcases List.mem_append.mp hb with hb | hb
  · obtain ⟨_, hr, rfl⟩ := Option.map_eq_some_iff.mp (Option.mem_toList.mp hb)
    exact .inr ⟨rfl, rfl, _, hr⟩
  · exact .inl hb

theorem arrivals_moved {x : ℕ × ℕ × Data} (hx : x ∈ N.arrivals) : x ∈ (N.moved k sl t).arrivals :=
  List.mem_append_right _ hx

theorem mem_arrivals_self (hd : sl.arriving = some d) :
    (N.clock, k, d) ∈ (N.moved k sl t).arrivals :=
  List.mem_append_left _ (by rw [hd]; exact List.mem_singleton.mpr rfl)

theorem mem_arrivals_moved {time : ℕ} (hx : (time, j, d) ∈ (N.moved k sl t).arrivals) :
    (time, j, d) ∈ N.arrivals ∨ time = N.clock ∧ j = k ∧ sl.arriving = some d := by
  rcases List.mem_append.mp hx with hx | hx
  · obtain ⟨d', hd, he⟩ := Option.map_eq_some_iff.mp (Option.mem_toList.mp hx)
    simp only [Prod.mk.injEq] at he
    obtain ⟨rfl, rfl, rfl⟩ := he
    exact .inr ⟨rfl, rfl, hd⟩
  · exact .inl hx

/-- What is stored at a cache, has arrived there and was answered from it is not older than its
position allows. -/
structure Bounded (δ : ℕ) (N : CacheChain) : Prop where
  rows : ∀ k, N.Stored (fun p => k * hop δ p + δ) (N.servers (k + 1))
  arrivals : ∀ time k d, (time, k + 1, d) ∈ N.arrivals →
    N.Aged (fun p => k * hop δ p + δ) time d
  replies : ∀ b ∈ N.replies, N.Aged (fun p => b.position * hop δ p) b.time b.data
  fresh : ∀ b ∈ N.replies, b.position ≠ 0 → b.stored = true → b.interest.mustBeFresh = true →
    b.interest.name.rnsAddr = N.addr → b.data.metadata.freshness.fresh = true
  relaying : ∀ k, Server.Relaying (fun d => ∃ time, (time, k, d) ∈ N.arrivals) (N.servers k)

variable {δ : ℕ} {l : Label}

omit [Hashlib] in
theorem Initial.bounded (h : N.Initial) : N.Bounded δ where
  rows k _ key row hr := by
    rw [(h.servers (k + 1)).content] at hr
    cases hr
  arrivals time k d hx := by
    rw [h.arrivals] at hx
    cases hx
  replies b hb := by
    rw [h.replies] at hb
    cases hb
  fresh b hb := by
    rw [h.replies] at hb
    cases hb
  relaying k := (h.servers k).relaying

omit [Hashlib] in
theorem aged_of_periodic (h : N.Periodic d → N.Aged limit time d) : N.Aged limit time d := by
  intro haddr hfresh p hp
  exact h ⟨haddr, hfresh, by rw [hp]; rfl⟩ haddr hfresh p hp

omit [Hashlib] in
/-- What arrives at a cache is older than the answer before it by the time on the link. -/
theorem Bounded.delivered {k : ℕ} {sl : Server.Label} (h : N.Bounded δ)
    (hok : N.Chained δ (.event (k + 1) sl)) (hd : sl.arriving = some d) :
    N.Aged (fun p => k * hop δ p + δ) N.clock d := by
  refine aged_of_periodic fun hp => ?_
  obtain ⟨b, hb, rfl, rfl, hle⟩ := hok.delivered k sl d rfl hd hp
  refine (h.replies b hb).later (.onWire b.data) (fun hf => ?_) fun _ p _ => ?_
  · cases hfresh : b.data.metadata.freshness.fresh with
    | true => rfl
    | false => simp [Data.onWire, DataMetadata.onWire, hfresh] at hf
  · omega

theorem Bounded.reply {k : ℕ} {sl : Server.Label} {face : FaceId} {i : Interest} {stored : Bool}
    (h : N.Bounded δ) (hok : N.Chained δ (.event (k + 1) sl))
    (hr : (N.current (k + 1)).reply sl = some (face, i, d, stored)) :
    N.Aged (fun p => (k + 1) * hop δ p) N.clock d ∧
      (stored = true → i.mustBeFresh = true → i.name.rnsAddr = N.addr →
        d.metadata.freshness.fresh = true) := by
  obtain ⟨haddr, hcreated⟩ := hok.caching k sl rfl
  have hhop (p : ℕ) : k * hop δ p + δ + (p - 1) ≤ (k + 1) * hop δ p ∧
      k * hop δ p + δ + δ ≤ (k + 1) * hop δ p := by
    rw [Nat.succ_mul]
    have := le_max_left δ (p - 1)
    have := le_max_right δ (p - 1)
    simp only [hop]
    omega
  cases sl with
  | incoming face raw drawn =>
    simp only [Server.reply] at hr
    split at hr
    · split at hr
      · simp only [Option.some.injEq, Prod.mk.injEq] at hr
        obtain ⟨rfl, rfl, rfl, rfl⟩ := hr
        refine ⟨fun _ _ p hp => ?_, nofun⟩
        cases hp
      · split at hr
        · rename_i d' hserve
          simp only [Option.some.injEq, Prod.mk.injEq] at hr
          obtain ⟨rfl, rfl, rfl, rfl⟩ := hr
          obtain ⟨hshows, hfresh⟩ := Server.serveFromCs_shows (Prod.ext hserve rfl)
          have haged := Rows.shows (s := N.current (k + 1)) (h.rows k hcreated) hshows
            fun p => (hhop p).1
          refine ⟨haged, fun _ hmust hi => ?_⟩
          exact hfresh hmust (hi ▸ Ne.symm haddr)
        · cases hr
    · cases hr
  | forwarded c =>
    obtain ⟨⟨face, i'⟩, hw, hr⟩ := Option.bind_eq_some_iff.mp hr
    obtain ⟨call, hc, hr⟩ := Option.bind_eq_some_iff.mp hr
    split at hr
    · rename_i d' hphase
      simp only [Option.some.injEq, Prod.mk.injEq] at hr
      obtain ⟨rfl, rfl, rfl, rfl⟩ := hr
      refine ⟨aged_of_periodic fun hp => ?_, nofun⟩
      have harrived := ((h.relaying (k + 1)).waits c face i' (Server.mem_of_waitingFor hw)).2 d'
        ⟨call, hc, .inl hphase⟩
      obtain ⟨time, harr, hle⟩ := hok.handedOn k c call d' rfl hc hphase hp harrived
      refine (h.arrivals time k d' harr).later (.refl d') id fun _ p _ => ?_
      have := (hhop p).2
      omega
    · cases hr
  | _ => cases hr

theorem Bounded.step (h : N.Bounded δ) (hok : N.Chained δ l) (hs : N.step l = some M) :
    M.Bounded δ := by
  cases l with
  | tick time =>
    obtain ⟨-, hs⟩ := Option.ite_none_right_eq_some.mp hs
    obtain rfl := Option.some.inj hs
    exact ⟨h.rows, h.arrivals, h.replies, h.fresh, h.relaying⟩
  | event j sl =>
    obtain ⟨t, ht, rfl⟩ := Option.map_eq_some_iff.mp hs
    refine ⟨fun k => ?_, fun time k d hx => ?_, fun b hb => ?_,
      fun b hb hpos hstored hmust hi => ?_, fun k => ?_⟩
    · have hrows := (h.rows k).mono (M := N.moved j sl t) rfl replies_moved
      by_cases hj : k + 1 = j
      · subst hj
        rw [moved_self]
        refine (stored_stable _ _).step (s := N.current (k + 1)) hrows (fun d hd hc => ?_)
          (fun _ _ _ _ _ => hrows) ht
        have haged := h.delivered hok (Server.arriving_of_deliveredData hd)
        have hinsert := (hrows hc).insert (n := d.name) rfl (haged.mono rfl replies_moved)
        exact hinsert
      · rw [moved_of_ne hj]
        exact hrows
    · rcases mem_arrivals_moved hx with hx | ⟨rfl, rfl, hd⟩
      · exact (h.arrivals time k d hx).mono rfl replies_moved
      · exact (h.delivered hok hd).mono rfl replies_moved
    · rcases mem_replies_moved hb with hold | ⟨htime, hj, face, hr⟩
      · exact (h.replies b hold).mono rfl replies_moved
      · cases j with
        | zero =>
          -- The origin sends this version now.
          exact fun _ _ p _ => ⟨b, hb, hj, .refl _, Nat.le_add_right _ _⟩
        | succ k =>
          rw [htime, hj]
          exact (h.reply hok hr).1.mono rfl replies_moved
    · rcases mem_replies_moved hb with hold | ⟨htime, hj, face, hr⟩
      · exact h.fresh b hold hpos hstored hmust hi
      · cases j with
        | zero => exact absurd hj hpos
        | succ k => exact (h.reply hok hr).2 hstored hmust hi
    · have hkeep : Server.Relaying (fun d => ∃ time, (time, k, d) ∈ (N.moved j sl t).arrivals)
          (N.servers k) := (h.relaying k).mono fun _ hd => hd.imp fun _ hx => arrivals_moved hx
      by_cases hj : k = j
      · subst hj
        rw [moved_self]
        have hcurrent := hkeep.of_subset (t := N.current k) rfl rfl fun _ _ _ hm => hm
        exact hcurrent.step (fun d hd => ⟨N.clock, mem_arrivals_self hd⟩) ht
      · rw [moved_of_ne hj]
        exact hkeep

/-- What the cache at position `k` answers to an Interest that must be fresh left the origin at most
`k` hops before, if it is from the store or was fresh when it arrived. -/
theorem fresh_answer_within_hops {ls : List Label} (hN : N.Initial)
    (h : Run step (Chained δ) N ls M) {b : CacheReply} (hb : b ∈ M.replies) (hpos : b.position ≠ 0)
    (hmust : b.interest.mustBeFresh = true) (hi : b.interest.name.rnsAddr = M.addr)
    (hd : b.data.name.rnsAddr = M.addr)
    (hfresh : b.stored = true ∨ b.data.metadata.freshness.fresh = true) :
    ∀ p ∈ b.data.metadata.freshnessPeriod, ∃ a ∈ M.replies, a.position = 0 ∧
      b.data.CopyOf a.data ∧ b.time ≤ a.time + b.position * hop δ p := by
  have hbounded : M.Bounded δ := h.invariant (I := Bounded δ) hN.bounded
    fun _ _ _ hu hok hstep => hu.step hok hstep
  have hf : b.data.metadata.freshness.fresh = true :=
    hfresh.elim (fun hstored => hbounded.fresh b hb hpos hstored hmust hi) id
  exact hbounded.replies b hb hd hf

open Server

/-- Data of `publisher` with a freshness period of 10 seconds, as it signs and stores it. -/
def notice : Data :=
  letI := Data.paddedHash
  (Data.new postName [0x68, 0x69]).withFreshnessPeriod 10

def signedNotice : Data :=
  letI := Data.paddedHash
  { notice with
    signature := some (List.replicate 64 7)
    metadata := { notice.metadata with signedAt := some 0 } }

/-- `publisher` with a cache in front of it, and a cache in front of that one. -/
def twoCaches : CacheChain where
  addr := List.replicate 16 1
  servers
    | 0 => publisher
    | k + 1 => { rnsAddr := List.replicate 16 (UInt8.ofNat (k + 2)) }

def freshRequest : Bytes :=
  wireBytes (.interest { name := postName, nonce := List.replicate 8 5, mustBeFresh := true })

def fetchNotice (k : ℕ) (nonce : UInt8) : List Label :=
  [.event (k + 1) (.incoming 100 (Distribution.request nonce) drawn),
    .event (k + 1) (.forwarder (.sent 0)),
    .event k (.incoming 100 (Distribution.request nonce) drawn),
    .event (k + 1) (.incoming 101 (wireBytes (.data signedNotice)) drawn),
    .event (k + 1) (.forwarder (.resume 0)), .event (k + 1) (.forwarded 0)]

def setUp : List Label :=
  [.event 0 .openFace, .event 0 (.publishPushed notice)] ++ [1, 2].flatMap fun k =>
    [.event k .openFace, .event k .openFace,
      .event k (.forwarder (.addRoute ⟨List.replicate 16 1, [], none⟩ 101 10))]

/-- The second cache gets the notice when the first has held it for 9 seconds, and is asked for it
when it has held it for 9 seconds itself. -/
def slowChain : List Label :=
  setUp ++ fetchNotice 0 3 ++ [.tick 9] ++ fetchNotice 1 4 ++
    [.tick 18, .event 2 (.incoming 100 freshRequest drawn)]

def slowChained : CacheChain :=
  letI := Data.paddedHash
  (exec step twoCaches slowChain).getD twoCaches

def lateReply : CacheReply where
  time := 18
  position := 2
  interest := { name := postName, nonce := List.replicate 8 5, mustBeFresh := true }
  data := { signedNotice with
    metadata := { signedNotice.metadata with freshness := { fresh := true, ageSeconds := 9 } } }
  stored := true

def prompt (N : CacheChain) : Label → Bool
  | .event (k + 1) sl =>
    (N.servers (k + 1)).rnsAddr != N.addr &&
    ((N.servers (k + 1)).created.all fun x => x.1.rnsAddr != N.addr) &&
    (sl.arriving.all fun d => N.replies.any fun b =>
      b.position == k && d == b.data.onWire && N.clock ≤ b.time) &&
    match sl with
    | .forwarded c => ((N.servers (k + 1)).forwarder.loop.calls c).all fun call =>
      match call.phase with
      | .returned (some d) => N.arrivals.any fun x => x.2 == (k + 1, d) && N.clock ≤ x.1
      | _ => true
    | _ => true
  | _ => true

omit [Hashlib] in
theorem chained_of_prompt (h : N.prompt l = true) : N.Chained 0 l := by
  refine ⟨fun k sl hl => ?_, fun k sl d hl hd _ => ?_, fun k c call d hl hc hphase _ _ => ?_⟩ <;>
    subst hl <;> simp only [prompt, Bool.and_eq_true] at h
  · refine ⟨by simpa using h.1.1.1, fun x hx => ?_⟩
    simpa using List.all_eq_true.mp h.1.1.2 x hx
  · have hany := h.1.2
    rw [hd, Option.all_some] at hany
    obtain ⟨b, hb, hcheck⟩ := List.any_eq_true.mp hany
    simp only [Bool.and_eq_true, beq_iff_eq, decide_eq_true_eq] at hcheck
    exact ⟨b, hb, hcheck.1.1, hcheck.1.2, hcheck.2⟩
  · have hany := h.2
    rw [hc, Option.all_some] at hany
    simp only [hphase] at hany
    obtain ⟨⟨time, x⟩, hx, hcheck⟩ := List.any_eq_true.mp hany
    simp only [Bool.and_eq_true, beq_iff_eq, decide_eq_true_eq] at hcheck
    exact ⟨time, hcheck.1 ▸ hx, hcheck.2⟩

omit [Hashlib] in
theorem slowChain_run :
    letI := Data.paddedHash
    Run step (Chained 0) twoCaches slowChain slowChained := by
  let := Data.paddedHash
  have hexec : exec step twoCaches slowChain = some slowChained := by
    have hsome : (exec step twoCaches slowChain).isSome = true := by decide +kernel
    exact (Option.some_get hsome).symm.trans (congrArg some (Option.get_eq_getD ..))
  exact run_of_exec_check prompt (fun _ _ => chained_of_prompt) hexec (by decide +kernel)

omit [Hashlib] in
theorem twoCaches_initial : twoCaches.Initial where
  servers k := by
    cases k with
    | zero => exact ⟨⟨rfl, fun _ => rfl, rfl, rfl⟩, rfl, rfl, rfl, rfl, rfl, rfl⟩
    | succ k => exact ⟨⟨rfl, fun _ => rfl, rfl, rfl⟩, rfl, rfl, rfl, rfl, rfl, rfl⟩
  replies := rfl
  arrivals := rfl

omit [Hashlib] in
theorem late_reply_within_hops : letI := Data.paddedHash
    ∃ a ∈ slowChained.replies, a.position = 0 ∧ lateReply.data.CopyOf a.data ∧
      lateReply.time ≤ a.time + lateReply.position * hop 0 10 := by
  let := Data.paddedHash
  have hreply : lateReply ∈ slowChained.replies := by decide +kernel
  have hi : lateReply.interest.name.rnsAddr = slowChained.addr := by decide +kernel
  have hd : lateReply.data.name.rnsAddr = slowChained.addr := by decide +kernel
  have hpos : lateReply.position ≠ 0 := by simp [lateReply]
  exact fresh_answer_within_hops twoCaches_initial slowChain_run hreply hpos rfl hi hd (.inl rfl)
    10 rfl

omit [Hashlib] in
/-- The second cache answers with Data that left the origin 18 seconds before and has a freshness
period of 10 seconds. -/
theorem late_reply_too_old : letI := Data.paddedHash
    twoCaches.Initial ∧ Run step (Chained 0) twoCaches slowChain slowChained ∧
      lateReply ∈ slowChained.replies ∧ lateReply.data.metadata.freshnessPeriod = some 10 ∧
      ¬ ∃ a ∈ slowChained.replies, a.position = 0 ∧ lateReply.data.CopyOf a.data ∧
        lateReply.time ≤ a.time + 10 := by
  let := Data.paddedHash
  refine ⟨twoCaches_initial, slowChain_run, by decide +kernel, by decide +kernel, ?_⟩
  rintro ⟨a, ha, hpos, -, hle⟩
  have hsent : (slowChained.replies.all fun b => b.position != 0 || b.time == 0) = true := by
    decide +kernel
  have htime : a.time = 0 := by simpa [hpos] using List.all_eq_true.mp hsent a ha
  rw [htime] at hle
  exact absurd hle (by decide)

end CacheChain

end RnsIcn
