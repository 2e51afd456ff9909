import RnsIcn.Server.Stale
import RnsIcn.Store.Selection

/-! # The sequence floor of an Interest

A server answers from its store before the strategy of its forwarder is asked. The
query for a child selector has the floor in it, and the strategy checks every cached
Data against the floor. The server's own answer by exact name, or by prefix without a
child selector, is checked nowhere.
-/

namespace RnsIcn

open Effect Fallible Transition

variable [Hashlib]

namespace ContentStore

variable {s : ContentStore} {n : Name} {child : ChildSelector} {floor : Option ℕ} {now : ℕ}
  {row : Row} {d : Data}

def Mirrored (s : ContentStore) : Prop :=
  ∀ key row, s.content.get? key = some row → row.metadataJson.sequence = row.sequence

theorem Mirrored.apply (h : s.Mirrored) (op : StoreOp) : (s.apply op).Mirrored := by
  intro key row hr
  cases op with
  | insert name d now =>
    rcases get?_apply_insert hr with hr | ⟨-, -, ⟨ttl, rfl⟩, -⟩
    · exact h key row hr
    · rfl
  | get | getPrefix | purgeExpired | evictLru | remove | invalidate =>
    exact h key row (apply_get? id hr)

theorem mirrored_of_run {s₀ : ContentStore} {ops : List StoreOp} (h₀ : s₀.content = .empty)
    (hrun : Run step anyStep s₀ ops s) : s.Mirrored := by
  refine hrun.invariant (I := Mirrored) (fun key row hr => ?_) fun s op t hi _ hs => ?_
  · rw [h₀] at hr
    cases hr
  · obtain rfl := Option.some.inj hs
    exact hi.apply op

/-- The row comes first among those under the prefix that match their hash, in the order of the
last insertion, and no unreadable row comes before it. -/
def Newest (s : ContentStore) (n : Name) (floor : Option ℕ) (now : ℕ) (row : Row) : Prop :=
  n.Encodable ∧ ∃ pre post, s.queried n .none floor now = pre ++ row :: post ∧
    (∀ r ∈ pre, ¬ Unreadable r ∧ verifyContent r = false) ∧ ¬ Unreadable row ∧
    verifyContent row = true

theorem firstValid_none_cons {rows : List Row} {m : Name}
    (hm : Name.fromBytes row.nameBytes = .ok m) : firstValid .none now (row :: rows) =
      if verifyContent row then .ok (some (rowData row m now)) else firstValid .none now rows := by
  simp [firstValid, hm, bind, Except.bind, pure, Except.pure]

theorem firstValid_none_iff {rows : List Row} : firstValid .none now rows = .ok (some d) ↔
    ∃ pre row post, rows = pre ++ row :: post ∧
      (∀ r ∈ pre, ¬ Unreadable r ∧ verifyContent r = false) ∧ verifyContent row = true ∧
      Name.fromBytes row.nameBytes = .ok d.name ∧ d = rowData row d.name now := by
  constructor
  · intro h
    induction rows with
    | nil => cases h
    | cons row rows ih =>
      obtain ⟨m, hm, -⟩ := bind_eq_ok.mp h
      rw [firstValid_none_cons hm] at h
      split at h
      · rename_i hv
        obtain rfl := Option.some.inj (Except.ok.inj h)
        exact ⟨[], row, rows, rfl, List.forall_mem_nil _, hv, hm, rfl⟩
      · rename_i hv
        obtain ⟨pre, r, post, rfl, hpre, hrest⟩ := ih h
        refine ⟨row :: pre, r, post, rfl, List.forall_mem_cons.mpr ⟨⟨?_, ?_⟩, hpre⟩, hrest⟩
        · exact not_unreadable hm
        · simpa using hv
  · rintro ⟨pre, row, post, rfl, hpre, hv, hm, hd⟩
    induction pre with
    | nil =>
      rw [List.nil_append, firstValid_none_cons hm, if_pos hv]
      exact congrArg _ (congrArg _ hd.symm)
    | cons r pre ih =>
      obtain ⟨⟨hread, hno⟩, hpre⟩ := List.forall_mem_cons.mp hpre
      obtain ⟨m, hm'⟩ := not_forall_not.mp hread
      rw [List.cons_append, firstValid_none_cons hm', hno]
      exact ih hpre

theorem getPrefix_none_iff : (s.getPrefix n .none floor now).2 = .ok (some d) ↔
    ∃ row, s.Newest n floor now row ∧ Name.fromBytes row.nameBytes = .ok d.name ∧
      d = rowData row d.name now := by
  have hread : (s.getPrefix n .none floor now).2 =
      (nameHash n).bind fun x =>
        firstValid .none now ((s.purgeExpired now).prefixRows x .none floor) := rfl
  rw [hread]
  constructor
  · intro h
    obtain ⟨x, hx, h⟩ := bind_eq_ok.mp h
    obtain ⟨he, rfl⟩ := nameHash_eq_ok.mp hx
    obtain ⟨pre, row, post, hsplit, hpre, hv, hm, hd⟩ := firstValid_none_iff.mp h
    exact ⟨row, ⟨he, pre, post, hsplit, hpre, not_unreadable hm, hv⟩, hm, hd⟩
  · rintro ⟨row, ⟨he, pre, post, hsplit, hpre, -, hv⟩, hm, hd⟩
    rw [nameHash_eq_ok.mpr ⟨he, rfl⟩]
    exact firstValid_none_iff.mpr ⟨pre, row, post, hsplit, hpre, hv, hm, hd⟩

theorem Mirrored.getPrefix (h : s.Mirrored) (hc : child ≠ .none)
    (hd : (s.getPrefix n child floor now).2 = .ok (some d)) :
    ∃ q ∈ d.metadata.sequence, Ascent.Above floor q := by
  obtain ⟨x, -, hd⟩ := bind_eq_ok.mp hd
  rw [if_pos (by simpa using hc)] at hd
  obtain ⟨_, -, hfirst⟩ := bind_eq_ok.mp hd
  obtain ⟨row, hrow, -, -, hd⟩ := firstValid_eq_some hfirst
  obtain ⟨key, hitem, -, hwhere⟩ := mem_prefixRows.mp hrow
  have hr := (get?_purgeExpired.mp (Dict.get?_eq_some.mpr hitem)).1
  have hseq : d.metadata.sequence = row.sequence := by
    rw [hd]
    exact h key row hr
  rw [hseq]
  exact (childWhere_iff hc).mp hwhere

end ContentStore

def Forwarder.CacheAnswers (fw : Forwarder) (i : Interest) (d : Data) : Prop :=
  (fw.csLookup i).2 = .ok (some d) ∧ BestRoute.selectorSatisfied i d = true

namespace Server

variable {s u : Server} {i : Interest} {face : FaceId} {nonce : Bytes} {d : Data} {m : ℕ}

def found (s : Server) (i : Interest) : Except PyError (Option Data) :=
  if i.canBePrefix then
    (s.forwarder.cs.getPrefix i.name i.child i.minSequence s.forwarder.time).2
  else (s.forwarder.cs.get i.name s.forwarder.time).2

/-- A server outside of its own namespace declines what the walk rule skips. -/
def walks (s : Server) (i : Interest) (d : Data) : Bool :=
  !(i.canBePrefix && (Forwarder.walkSkips i d && i.name.rnsAddr != s.rnsAddr))

/-- A server outside of its own namespace declines stale Data for an Interest that must be fresh. -/
def refreshes (s : Server) (i : Interest) (d : Data) : Bool :=
  !(i.mustBeFresh && !d.metadata.freshness.fresh && i.name.rnsAddr != s.rnsAddr)

def admits (s : Server) (i : Interest) (d : Data) : Bool := s.walks i d && s.refreshes i d

theorem csLookup_found (i : Interest) : Triple (· = s) (csLookup i)
    (fun r _ => ∃ raw, s.found i = .ok raw ∧ Option.Rel Data.SameAge (raw.filter (s.walks i)) r)
    (fun t => t.forwarder = s.forwarder.swept) := by
  refine Triple.bind_get fun u hu => ?_
  subst hu
  split
  · rename_i hunder
    refine Triple.bind (csGetPrefix_swept i.name i.child i.minSequence) fun raw t ht => ?_
    refine Triple.bind (maybeSignOpt_sameAge raw) (fun r => ?_) t ht.1
    refine Triple.pure fun t' ht' => ⟨raw, ?_, rel_filter ht'.2 fun d d' hd => ?_⟩
    · rw [found, if_pos hunder, ht.2]
    · rw [walks, hunder, Bool.true_and, Forwarder.walkSkips, Forwarder.walkSkips, hd.sequence]
  · rename_i hexact
    refine Triple.bind (csGet_swept i.name) fun raw t ht => ?_
    refine ((maybeSignOpt_sameAge raw).post fun r t' ht' => ⟨raw, ?_, ?_⟩) t ht.1
    · rw [found, if_neg hexact, ht.2]
    · have hall : raw.filter (u.walks i) = raw := by
        cases raw with
        | none => rfl
        | some d => rw [Option.filter_some, walks, Bool.eq_false_iff.mpr hexact]; rfl
      rw [hall]
      exact ht'.2

/-- What the server serves is what its store finds, if it admits that, signed anew perhaps. -/
theorem serveFromCs_found (i : Interest) : Triple (· = s) (serveFromCs i)
    (fun r _ => ∃ raw, s.found i = .ok raw ∧ Option.Rel Data.SameAge (raw.filter (s.admits i)) r)
    (fun t => t.forwarder = s.forwarder.swept) := by
  refine Triple.bind_get fun u hu => ?_
  subst hu
  refine Triple.bind (csLookup_found i) fun r => Triple.pure fun t ht => ?_
  obtain ⟨raw, hraw, hrel⟩ := ht
  refine ⟨raw, hraw, ?_⟩
  have hfilter : raw.filter (u.admits i) = (raw.filter (u.walks i)).filter (u.refreshes i) := by
    rw [Option.filter_filter]
    rfl
  rw [hfilter]
  refine rel_filter hrel fun d d' hd => ?_
  rw [refreshes, hd.freshness]

theorem found_of_served (h : exec (serveFromCs i) s = (.ok (some d), u)) :
    ∃ d₀, s.found i = .ok (some d₀) ∧ s.admits i d₀ = true ∧ d₀.SameAge d := by
  have ht := serveFromCs_found i s rfl
  rw [h] at ht
  obtain ⟨raw, hraw, hrel⟩ := ht
  cases hf : raw.filter (s.admits i) with
  | none =>
    rw [hf] at hrel
    cases hrel
  | some d₀ =>
    rw [hf] at hrel
    obtain ⟨rfl, hadmits⟩ := Option.filter_eq_some_iff.mp hf
    cases hrel with
    | some hage => exact ⟨d₀, hraw, hadmits, hage⟩

/-- What `handle_interest` answers from the local store: by its own lookup, or by that of
`express`. -/
inductive AnswersLocally (s : Server) (i : Interest) (face : FaceId) (nonce : Bytes) (d : Data) :
    Prop where

  | served {u : Server} : exec (serveFromCs i) s = (.ok (some d), u) →
      AnswersLocally s i face nonce d

  | expressed {u : Server} {call : Call} : exec (serveFromCs i) s = (.ok none, u) →
      (u.forwarder.express i face nonce).loop.calls u.forwarder.loop.nextCall = some call →
      call.phase = .returned (some d) → AnswersLocally s i face nonce d

/-- No local answer is below the floor `m`, and the server admits what the strategy of its
forwarder admits. In its own namespace it vouches for freshness and gaps, and the floor stands. -/
structure HonoursFloor (s : Server) (i : Interest) (face : FaceId) (nonce : Bytes) (m : ℕ) :
    Prop where
  answers : ∀ d, AnswersLocally s i face nonce d → ∃ q ∈ d.metadata.sequence, m ≤ q
  floor : ∀ d, s.found i = .ok (some d) → s.admits i d = true →
    BestRoute.sequenceSatisfied i d = true
  agrees : i.name.rnsAddr ≠ s.rnsAddr → ∀ d, s.found i = .ok (some d) →
    (s.admits i d = true ↔ s.forwarder.CacheAnswers i d)

def Answering (s : Server) (i : Interest) (row : Row) : Prop :=
  if i.canBePrefix then s.forwarder.cs.Newest i.name i.minSequence s.forwarder.time row
  else s.forwarder.cs.Answers i.name s.forwarder.time row

def Withholds (s : Server) (i : Interest) (row : Row) : Prop :=
  i.mustBeFresh = true ∧ i.name.rnsAddr ≠ s.rnsAddr ∧
    (ContentStore.parseMetadata row s.forwarder.time).freshness.fresh = false

def SelectsChild (i : Interest) : Prop := i.canBePrefix = true ∧ i.child ≠ .none

theorem found_iff_answering (hno : ¬ SelectsChild i) : s.found i = .ok (some d) ↔
    ∃ row, s.Answering i row ∧ Name.fromBytes row.nameBytes = .ok d.name ∧
      d = ContentStore.rowData row d.name s.forwarder.time := by
  rw [found]
  unfold Answering
  by_cases hunder : i.canBePrefix = true
  · have hchild : i.child = .none := by
      by_contra hc
      exact hno ⟨hunder, hc⟩
    simp only [hunder, if_true, hchild]
    exact ContentStore.getPrefix_none_iff
  · simp only [hunder, if_false, Bool.false_eq_true]
    exact ContentStore.get_eq_some_iff

theorem exists_found_of_answering (hno : ¬ SelectsChild i) {row : Row} (h : s.Answering i row) :
    ∃ d, s.found i = .ok (some d) ∧ d = ContentStore.rowData row d.name s.forwarder.time := by
  have hstored : ∃ m, Name.fromBytes row.nameBytes = .ok m := by
    unfold Answering at h
    split at h
    · obtain ⟨-, pre, post, -, -, hread, -⟩ := h
      exact not_forall_not.mp hread
    · exact h.stored
  obtain ⟨m, hm⟩ := hstored
  exact ⟨ContentStore.rowData row m s.forwarder.time,
    (found_iff_answering hno).mpr ⟨row, h, hm, rfl⟩, rfl⟩

omit [Hashlib] in
theorem admits_iff_not_withholds (hno : ¬ SelectsChild i) {row : Row} {n : Name} :
    s.admits i (ContentStore.rowData row n s.forwarder.time) = true ↔ ¬ s.Withholds i row := by
  have hwalks : s.walks i (ContentStore.rowData row n s.forwarder.time) = true := by
    rw [walks, Bool.not_eq_true', Bool.and_eq_false_iff]
    by_cases hunder : i.canBePrefix = true
    · have hchild : i.child = .none := by
        by_contra hc
        exact hno ⟨hunder, hc⟩
      refine .inr ?_
      rw [Forwarder.walkSkips, hchild]
      rfl
    · exact .inl (by simpa using hunder)
  rw [admits, hwalks, Bool.true_and, refreshes, Withholds,
    show (ContentStore.rowData row n s.forwarder.time).metadata =
      ContentStore.parseMetadata row s.forwarder.time from rfl]
  cases i.mustBeFresh <;>
    cases (ContentStore.parseMetadata row s.forwarder.time).freshness.fresh <;> simp

/-- An Interest with a floor selects a child, or the row that answers it is at or above the floor
or declined as stale. -/
def FloorMet (s : Server) (i : Interest) (m : ℕ) : Prop :=
  SelectsChild i ∨ ∀ row, s.Answering i row → (∃ q ∈ row.sequence, m ≤ q) ∨ s.Withholds i row

omit [Hashlib] in
theorem sequenceSatisfied_iff_of_floor (hm : i.minSequence = some m) :
    BestRoute.sequenceSatisfied i d = true ↔ ∃ q ∈ d.metadata.sequence, m ≤ q := by
  rw [BestRoute.sequenceSatisfied_iff, hm]
  simp

theorem answering_sequence (hcs : s.forwarder.cs.Mirrored) {row : Row} (h : s.Answering i row) :
    row.metadataJson.sequence = row.sequence := by
  unfold Answering at h
  split at h
  · obtain ⟨-, pre, post, hsplit, -⟩ := h
    have hmem : row ∈ s.forwarder.cs.queried i.name .none i.minSequence s.forwarder.time := by
      rw [hsplit]
      simp
    obtain ⟨key, hitem, -, -⟩ := ContentStore.mem_prefixRows.mp hmem
    exact hcs key row (ContentStore.get?_purgeExpired.mp (Dict.get?_eq_some.mpr hitem)).1
  · exact hcs _ row h.get

theorem floor_of_admits (hcs : s.forwarder.cs.Mirrored) (hm : i.minSequence = some m)
    (hmet : s.FloorMet i m) (hd : s.found i = .ok (some d)) (hadmits : s.admits i d = true) :
    ∃ q ∈ d.metadata.sequence, m ≤ q := by
  by_cases hchild : SelectsChild i
  · rw [found, if_pos hchild.1] at hd
    obtain ⟨q, hq, habove⟩ := hcs.getPrefix hchild.2 hd
    exact ⟨q, hq, habove m hm⟩
  · obtain ⟨row, hrow, -, heq⟩ := (found_iff_answering hchild).mp hd
    rw [heq] at hadmits
    have hkept := (admits_iff_not_withholds hchild).mp hadmits
    obtain ⟨q, hq, hle⟩ := ((hmet.resolve_left hchild) row hrow).resolve_right hkept
    refine ⟨q, ?_, hle⟩
    rw [heq]
    exact (answering_sequence hcs hrow).trans hq

/-- Outside of its own namespace the server admits what the strategy admits, apart from the
floor. -/
theorem cacheAnswers_iff (hforeign : i.name.rnsAddr ≠ s.rnsAddr) (hd : s.found i = .ok (some d)) :
    s.forwarder.CacheAnswers i d ↔
      s.admits i d = true ∧ BestRoute.sequenceSatisfied i d = true := by
  have hlookup : (s.forwarder.csLookup i).2 = .ok (some d) ↔ s.walks i d = true := by
    rw [found] at hd
    rw [Forwarder.csLookup, walks, bne_iff_ne.mpr hforeign, Bool.and_true]
    by_cases hunder : i.canBePrefix = true
    · rw [if_pos hunder] at hd ⊢
      show Except.map _ _ = _ ↔ _
      rw [hd, hunder, Bool.true_and]
      cases hskip : Forwarder.walkSkips i d <;> simp [Except.map, hskip]
    · rw [if_neg hunder] at hd ⊢
      simp [hd, Bool.eq_false_iff.mpr hunder]
  have hfresh : s.refreshes i d = true ↔
      (i.mustBeFresh = true → d.metadata.freshness.fresh = true) := by
    rw [refreshes, bne_iff_ne.mpr hforeign, Bool.and_true]
    cases i.mustBeFresh <;> cases d.metadata.freshness.fresh <;> simp
  rw [Forwarder.CacheAnswers, BestRoute.selectorSatisfied_iff, hlookup, admits, Bool.and_eq_true,
    hfresh, and_assoc]

/-- In a server with a reached store, an Interest with a floor is answered from the store at or
above the floor, as the strategy of the forwarder would have it, exactly if it selects a child or
the row that answers it is at or above the floor or declined as stale. -/
theorem honours_floor_iff {s₀ : ContentStore} {ops : List StoreOp} (h₀ : s₀.content = .empty)
    (hrun : Run ContentStore.step anyStep s₀ ops s.forwarder.cs) (hm : i.minSequence = some m)
    (face : FaceId) (nonce : Bytes) :
    s.HonoursFloor i face nonce m ↔ s.FloorMet i m := by
  have hcs := ContentStore.mirrored_of_run h₀ hrun
  constructor
  · intro h
    by_cases hchild : SelectsChild i
    · exact .inl hchild
    · refine .inr fun row hrow => ?_
      obtain ⟨d, hd, heq⟩ := exists_found_of_answering hchild hrow
      by_cases hkept : s.Withholds i row
      · exact .inr hkept
      · have hadmits : s.admits i d = true := by
          rw [heq]
          exact (admits_iff_not_withholds hchild).mpr hkept
        obtain ⟨q, hq, hle⟩ := (sequenceSatisfied_iff_of_floor hm).mp (h.floor d hd hadmits)
        rw [heq] at hq
        exact .inl ⟨q, (answering_sequence hcs hrow).symm.trans hq, hle⟩
  · intro hmet
    constructor
    · intro d h
      cases h with
      | served hserve =>
        obtain ⟨d₀, hd₀, hadmits, hage⟩ := found_of_served hserve
        rw [hage.sequence]
        exact floor_of_admits hcs hm hmet hd₀ hadmits
      | expressed hserve hc hp =>
        obtain ⟨cs, -, hsel⟩ := expressed_found hc hp
        exact (sequenceSatisfied_iff_of_floor hm).mp (BestRoute.selectorSatisfied_iff.mp hsel).2
    · intro d hd hadmits
      exact (sequenceSatisfied_iff_of_floor hm).mpr (floor_of_admits hcs hm hmet hd hadmits)
    · intro hforeign d hd
      rw [cacheAnswers_iff hforeign hd]
      refine ⟨fun hadmits => ⟨hadmits, ?_⟩, fun h => h.1⟩
      exact (sequenceSatisfied_iff_of_floor hm).mpr (floor_of_admits hcs hm hmet hd hadmits)

open ContentStore

def editionCache : Server :=
  letI := Data.paddedHash
  { rnsAddr := List.replicate 16 0x02
    faces := [7]
    forwarder := { cs := holding (signedHi editionName), time := 5 } }

def fromFive : Interest :=
  { name := editionName, nonce := [], selector := some { minSequence := some 5 } }

/-- A request for the latest edition under the address from sequence 5 on. -/
def latestFromFive : Interest :=
  { name := editionName.ancestor 0, nonce := [], canBePrefix := true
    selector := some { minSequence := some 5, child := .latest } }

omit [Hashlib] in
theorem latest_honours_floor : letI := Data.paddedHash
    editionCache.HonoursFloor latestFromFive 7 [] 5 := by
  let := Data.paddedHash
  have hrun : Run ContentStore.step anyStep {} [.insert editionName (signedHi editionName) 0]
      editionCache.forwarder.cs := run_of_exec rfl
  exact (honours_floor_iff rfl hrun rfl 7 []).mpr (.inl ⟨rfl, by decide⟩)

omit [Hashlib] in
/-- The request by exact name is answered with sequence 0, which the strategy of the forwarder
rejects. -/
theorem floor_ignored : letI := Data.paddedHash
    (∃ d, (after (handleInterest fromFive 7 []) editionCache).sent = [(7, .data d)] ∧
      d.metadata.sequence = some 0 ∧ BestRoute.sequenceSatisfied fromFive d = false) ∧
    ¬ editionCache.HonoursFloor fromFive 7 [] 5 := by
  let := Data.paddedHash
  refine ⟨⟨_, rfl, rfl, rfl⟩, fun h => ?_⟩
  obtain ⟨q, hq, hle⟩ := h.answers _ (.served rfl)
  obtain rfl := Option.some.inj hq
  exact absurd hle (by decide)

end Server

end RnsIcn
