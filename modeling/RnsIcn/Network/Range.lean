import Mathlib.Data.List.MinMax
import RnsIcn.Client.Range

/-! # A walk and what is pushed meanwhile

A producer answers each Interest of a walk with its oldest edition at or above the floor,
and pushes new editions to its subscribers. The forwarder of the client matches Data to
the waiting Interest by its name alone, so a pushed edition is taken for the answer.
-/

namespace RnsIcn

open Transition Fallible EventLoop

/-- A client that walks a collection, and the producer of its editions. `began` are the sequences
that there were when the walk began, and `answers` are on their way to the calls that asked. -/
structure Walk where
  call : RangeCall
  collection : Name
  editions : List Data := []
  began : List ℕ := []
  answers : List (CallId × Data) := []

namespace Walk

/-- The oldest edition at or above the floor. -/
def oldest (floor : ℕ) (editions : List Data) : Option Data :=
  (editions.filter fun d => d.metadata.sequence.any (floor ≤ ·)).argmin
    fun d => d.metadata.sequence.getD 0

/-- The floor that an Interest for the collection asks with, once it has been sent. -/
def asked (s : Walk) (c : CallId) : Option ℕ :=
  (s.call.client.forwarder.loop.calls c).bind fun call =>
    if s.call.client.forwarder.loop.log.any (·.begins c) ∧ call.interest.name = s.collection ∧
        call.interest.canBePrefix ∧ call.interest.child = .oldest then call.interest.minSequence
    else none

def sequences (editions : List Data) : List ℕ := editions.filterMap fun d => d.metadata.sequence

/-- `arrive` is the arrival of an answer, and pushed Data arrives as an event of the client. -/
inductive Label where
  | walk (l : RangeCall.Label)
  | publish (d : Data)
  | answer (c : CallId)
  | arrive (x : CallId × Data) (face : FaceId)

section Steps

variable [Hashlib]

/-- An answer reaches the forwarder of the client. -/
def arrive (s : Walk) (x : CallId × Data) (face : FaceId) : Option Walk :=
  if x ∈ s.answers then
    (s.call.client.step (.forwarder (.receiveData x.2 face false))).map fun client =>
      { s with call := { s.call with client }, answers := s.answers.erase x }
  else none

def step (s : Walk) : Label → Option Walk
  | .walk l => (s.call.step l).map fun call =>
    match l with
    | .call _ => { s with call, began := sequences s.editions }
    | _ => { s with call }
  | .publish d => some { s with editions := d :: s.editions }
  | .answer c =>
    (s.asked c).bind fun floor => (oldest floor s.editions).map fun d =>
      { s with answers := (c, d) :: s.answers }
  | .arrive x face => s.arrive x face

end Steps

/-- A client before its first fetch, a walk that has not begun and no answers on their way. -/
structure Initial (s : Walk) : Prop where
  client : s.call.client.Initial
  phase : s.call.phase = .idle
  yielded : s.call.yielded = []
  began : s.began = []
  answers : s.answers = []

end Walk

namespace RangeCall

variable [Hashlib]

/-- The walk waits for the fetch `f`, which asks for what is at or above `minSeq`. -/
def Fetching (s : RangeCall) (minSeq : ℕ) (f : FetchId) (fetch : Fetch) : Prop :=
  ∃ r, s.phase = .fetching r minSeq f ∧ s.client.fetches f = some fetch

omit [Hashlib] in
/-- The walk waits for the call `c`. -/
def Pending (s : RangeCall) (minSeq : ℕ) (c : CallId) (call : Call) : Prop :=
  ∃ f fetch deadline, s.Fetching minSeq f fetch ∧ fetch.phase = .expressing c deadline ∧
    s.client.forwarder.loop.calls c = some call

end RangeCall

namespace Walk

variable {s t : Walk} {l : Label} {ls : List Label}

def Label.unasked (c : CallId) : Label → Option Data
  | .walk (.client _ (.forwarder (.receiveData d _ _))) => some d
  | .arrive x _ => if x.1 = c then none else some x.2
  | _ => none

/-- The editions that a complete walk has been at: all from the start on that there were when it
began, up to its floor or to its end. -/
structure Complete (s : Walk) (r : RangeRequest) (xs : List ℕ) : Prop where
  yielded : s.call.yielded.map (·.metadata.sequence) = xs.map some
  increasing : xs.Pairwise (· < ·)
  start : ∀ x ∈ xs, r.startSequence ≤ x
  unskipped : ∀ x ∈ xs, ∀ b ∈ s.began, r.startSequence ≤ b → b ≤ x → b ∈ xs
  /-- Every one is reached after finitely many. -/
  reached : ∀ b ∈ s.began, r.startSequence ≤ b → b < r.startSequence + xs.length → b ∈ xs
  ended : s.call.phase = .ended r → r.maxItems.all (xs.length < ·) →
    ∀ b ∈ s.began, r.startSequence ≤ b → b ∈ xs

/-- The request of a call. -/
def request (s : Walk) : Option RangeRequest :=
  match s.call.phase with
  | .fetching r _ _ | .yielding r _ | .ended r => some r
  | _ => none

def At (s : Walk) (r : RangeRequest) (floor : ℕ) : Prop :=
  ∃ xs : List ℕ, s.call.yielded.map (·.metadata.sequence) = xs.map some ∧
    Walked s.began r.startSequence xs floor

theorem nextAfter_oldest {B : List ℕ} {floor : ℕ} {editions : List Data} {d : Data}
    (hB : ∀ b ∈ B, b ∈ sequences editions) (h : oldest floor editions = some d) :
    NextAfter B floor d := by
  intro b hb hle
  obtain ⟨e, he, hseq⟩ := List.mem_filterMap.mp (hB b hb)
  have hmem : e ∈ editions.filter fun d => d.metadata.sequence.any (floor ≤ ·) :=
    List.mem_filter.mpr ⟨he, by simpa [hseq] using hle⟩
  have hmin := List.le_of_mem_argmin hmem h
  have hfloor := (List.mem_filter.mp (List.argmin_mem h)).2
  cases hd : d.metadata.sequence with
  | none => simp [hd] at hfloor
  | some seq =>
    refine ⟨seq, rfl, by simpa [hd] using hfloor, ?_⟩
    simpa [hd, hseq] using hmin

def Here (s : Walk) : Prop :=
  match s.call.phase with
  | .idle => s.call.yielded = []
  | .fetching r minSeq f => s.At r minSeq ∧ f < s.call.client.nextFetch ∧
      ∃ fetch, s.call.client.fetches f = some fetch ∧ s.call.client.Expects (r.request minSeq)
        (NextAfter s.began minSeq) (∀ b ∈ s.began, b < minSeq) fetch
  | .yielding r minSeq => s.At r minSeq
  | .ended r => ∃ floor, s.At r floor ∧
      (r.maxItems.all (s.call.yielded.length < ·) → ∀ b ∈ s.began, b < floor)
  | .raised _ => False

/-- A walk and the answers that are on their way to it. -/
structure Sound (s : Walk) : Prop where
  consistent : s.call.client.forwarder.Consistent
  began : ∀ b ∈ s.began, b ∈ sequences s.editions
  issued : ∀ x ∈ s.answers, ∃ call, s.call.client.forwarder.loop.calls x.1 = some call
  answers : ∀ x ∈ s.answers, ∀ minSeq call, s.call.Pending minSeq x.1 call →
    NextAfter s.began minSeq x.2
  here : s.Here

theorem Initial.sound (h : s.Initial) : s.Sound where
  consistent := h.client.forwarder.consistent
  began b hb := by
    rw [h.began] at hb
    cases hb
  issued x hx := by
    rw [h.answers] at hx
    cases hx
  answers x hx := by
    rw [h.answers] at hx
    cases hx
  here := by
    rw [Here, h.phase]
    exact h.yielded

theorem here_loop {r : RangeRequest} {minSeq : ℕ} (h : s.At r minSeq) :
    Here { s with call := s.call.loop r minSeq } := by
  rw [Here, RangeCall.loop]
  by_cases hmax : r.maxItems.all (s.call.yielded.length < ·)
  · rw [if_pos hmax]
    exact ⟨h, Nat.lt_succ_self _, _, s.call.client.startFetch_fetches _, .of_idle rfl (.inl rfl)⟩
  · rw [if_neg hmax]
    exact ⟨minSeq, h, fun hlt => absurd hlt hmax⟩

theorem not_pending_loop {call : RangeCall} {r : RangeRequest} {k minSeq : ℕ} {c : CallId}
    {x : Call} : ¬ (call.loop r k).Pending minSeq c x := by
  rintro ⟨f, fetch, deadline, ⟨r', hphase, hf⟩, hexp, -⟩
  rw [RangeCall.loop] at hphase hf
  split at hphase
  · rename_i hmax
    rw [if_pos hmax] at hf
    obtain ⟨-, -, rfl⟩ := RangePhase.fetching.inj hphase
    obtain rfl := Option.some.inj ((call.client.startFetch_fetches (r.request k)).symm.trans hf)
    cases hexp
  · cases hphase

theorem loop_forwarder (call : RangeCall) (r : RangeRequest) (minSeq : ℕ) :
    (call.loop r minSeq).client.forwarder = call.client.forwarder := by
  rw [RangeCall.loop]
  split <;> rfl

theorem Sound.loop {r : RangeRequest} {minSeq : ℕ} (h : s.Sound) (hat : s.At r minSeq) :
    Sound { s with call := s.call.loop r minSeq } where
  consistent := loop_forwarder s.call r minSeq ▸ h.consistent
  began := h.began
  issued := loop_forwarder s.call r minSeq ▸ h.issued
  answers _ _ _ _ hp := absurd hp not_pending_loop
  here := here_loop hat

theorem Sound.call {r : RangeRequest} {call : RangeCall} (h : s.Sound)
    (hs : s.call.call r = some call) :
    Sound { s with call, began := sequences s.editions } := by
  have hhere := h.here
  rw [RangeCall.call] at hs
  split at hs
  · rename_i hphase
    simp only [Here, hphase] at hhere
    obtain rfl := Option.some.inj hs
    have hbegun : Sound { s with began := sequences s.editions } := by
      refine ⟨h.consistent, fun _ hb => hb, h.issued, ?_, ?_⟩
      · rintro x hx minSeq call ⟨f, fetch, deadline, ⟨r', hp, -⟩, -⟩
        rw [hphase] at hp
        cases hp
      · simp only [Here, hphase]
        exact hhere
    refine hbegun.loop ⟨[], ?_, .nil _ _⟩
    rw [hhere]
    rfl
  · cases hs

theorem At.snoc {r : RangeRequest} {minSeq seq : ℕ} {d : Data} (h : s.At r minSeq)
    (hd : d.metadata.sequence = some seq) (hle : minSeq ≤ seq)
    (hnext : NextAfter s.began minSeq d) :
    At { s with call := { s.call with
      phase := .yielding r (seq + 1), yielded := s.call.yielded ++ [d] } } r (seq + 1) := by
  obtain ⟨xs, hxs, hwalked⟩ := h
  refine ⟨xs ++ [seq], by simp [hxs, hd], hwalked.snoc hle fun b hb hb' => ?_⟩
  obtain ⟨seq', hseq', -, hle'⟩ := hnext b hb hb'
  obtain rfl := Option.some.inj (hd.symm.trans hseq')
  exact hle'

theorem here_resume {call : RangeCall} (h : s.Here) (hs : s.call.resume = some call) :
    Here { s with call } := by
  rw [RangeCall.resume] at hs
  split at hs
  · rename_i r minSeq f hphase
    simp only [Here, hphase] at h
    obtain ⟨hat, -, fetch, hf, hexpects⟩ := h
    obtain ⟨fetch', hf', hs⟩ := Option.bind_eq_some_iff.mp hs
    obtain rfl := Option.some.inj (hf.symm.trans hf')
    split at hs
    · rename_i hret
      obtain rfl := Option.some.inj hs
      exact ⟨minSeq, hat, fun _ => hexpects.nothing hret⟩
    · rename_i d hret
      have hnext := hexpects.returned d hret
      -- An answer without a sequence, or below the floor, ends the walk when nothing is left.
      have hend (hno : ∀ seq ∈ d.metadata.sequence, seq < minSeq) :
          Here { s with call := { s.call with phase := .ended r } } := by
        refine ⟨minSeq, hat, fun _ b hb => ?_⟩
        by_contra hle
        obtain ⟨seq, hseq, hle', -⟩ := hnext b hb (not_lt.mp hle)
        exact absurd (hno seq hseq) (not_lt.mpr hle')
      split at hs
      · rename_i hnone
        obtain rfl := Option.some.inj hs
        exact hend (by simp [hnone])
      · rename_i seq hseq
        split at hs
        · rename_i hlt
          obtain rfl := Option.some.inj hs
          exact hend fun seq' hseq' => by
            obtain rfl := Option.some.inj (hseq.symm.trans hseq')
            exact hlt
        · rename_i hge
          obtain rfl := Option.some.inj hs
          exact hat.snoc hseq (not_lt.mp hge) hnext
    · rename_i e hret
      exact absurd (hexpects.quiet e hret) (by simp [RangeRequest.request])
    · cases hs
  · cases hs

theorem resume_frame {call : RangeCall} (hs : s.call.resume = some call) :
    call.client = s.call.client ∧ ∀ r minSeq f, call.phase ≠ .fetching r minSeq f := by
  rw [RangeCall.resume] at hs
  split at hs
  · obtain ⟨fetch, -, hs⟩ := Option.bind_eq_some_iff.mp hs
    split at hs
    · exact Option.some.inj hs ▸ ⟨rfl, nofun⟩
    · split at hs
      · exact Option.some.inj hs ▸ ⟨rfl, nofun⟩
      · split at hs <;> exact Option.some.inj hs ▸ ⟨rfl, nofun⟩
    · exact Option.some.inj hs ▸ ⟨rfl, nofun⟩
    · cases hs
  · cases hs

theorem Sound.resume {call : RangeCall} (h : s.Sound) (hs : s.call.resume = some call) :
    Sound { s with call } := by
  obtain ⟨hclient, hnot⟩ := resume_frame hs
  refine ⟨hclient ▸ h.consistent, h.began, fun x hx => ?_, fun x hx minSeq y hp => ?_,
    here_resume h.here hs⟩
  · have hissued := h.issued x hx
    rw [← hclient] at hissued
    exact hissued
  · obtain ⟨f, fetch, deadline, ⟨r, hp, -⟩, -⟩ := hp
    exact absurd hp (hnot r minSeq f)

/-- An answer is the oldest edition at or above the floor of the call that asked. -/
theorem Sound.answer {c : CallId} {floor : ℕ} {d : Data} (h : s.Sound)
    (hasked : s.asked c = some floor) (hd : oldest floor s.editions = some d) :
    Sound { s with answers := (c, d) :: s.answers } := by
  obtain ⟨call, hc, hfloor⟩ := Option.bind_eq_some_iff.mp hasked
  have hfloor : call.interest.minSequence = some floor :=
    (Option.ite_none_right_eq_some.mp hfloor).2
  refine ⟨h.consistent, h.began, fun x hx => ?_, fun x hx minSeq call' hp => ?_, h.here⟩
  · rcases List.mem_cons.mp hx with rfl | hx
    · exact ⟨call, hc⟩
    · exact h.issued x hx
  · rcases List.mem_cons.mp hx with rfl | hx
    · obtain ⟨f, fetch, deadline, ⟨r, hphase, hf⟩, hexp, hc'⟩ := hp
      have hphase : s.call.phase = .fetching r minSeq f := hphase
      have hhere := h.here
      simp only [Here, hphase] at hhere
      obtain ⟨-, -, fetch', hf', hexpects⟩ := hhere
      obtain rfl := Option.some.inj (hf.symm.trans hf')
      obtain ⟨call'', hc'', hsel, -⟩ := hexpects.got c deadline hexp
      obtain rfl := Option.some.inj (hc.symm.trans hc'')
      have hmin : floor = minSeq := by
        rw [Interest.minSequence, hsel] at hfloor
        exact (Option.some.inj hfloor).symm
      exact hmin ▸ nextAfter_oldest h.began hd
    · exact h.answers x hx minSeq call' hp

variable [Hashlib]

/-- The last attempt to get an answer fails only when no edition from the beginning is left. -/
def Answered (s : Walk) (l : Label) : Prop :=
  ∀ minSeq f fetch now cl, s.call.Fetching minSeq f fetch → l = .walk (.client now cl) →
    s.call.client.Fails f fetch.request cl → fetch.request.maxRetries ≤ fetch.attempt →
    ∀ b ∈ s.began, b < minSeq

/-- What is taken for the answer to an Interest of the walk passes over no edition. -/
def Unskipping (s : Walk) (l : Label) : Prop :=
  ∀ minSeq c call d, s.call.Pending minSeq c call → l.unasked c = some d →
    s.call.client.forwarder.Completes call d → NextAfter s.began minSeq d

/-- What the store has for an Interest of the walk has just the sequence of the floor. -/
theorem nextAfter_hit {B : List ℕ} {fw : Forwarder} {r : RangeRequest} {minSeq : ℕ} {nonce : Bytes}
    {cs : ContentStore} {d : Data}
    (hl : fw.csLookup (Client.interest (r.request minSeq) nonce) = (cs, .ok (some d))) :
    NextAfter B minSeq d := by
  intro b _ hle
  have hprefix : (Client.interest (r.request minSeq) nonce).canBePrefix = true := rfl
  rw [Forwarder.csLookup, if_pos hprefix] at hl
  generalize fw.cs.getPrefix (Client.interest (r.request minSeq) nonce).name _ _ _ = found at hl
  obtain ⟨swept, hit⟩ := found
  obtain ⟨-, hr⟩ := Prod.mk.inj hl
  cases hit with
  | error e => cases hr
  | ok hit =>
    obtain ⟨-, hskip⟩ := Option.filter_eq_some_iff.mp (Except.ok.inj hr)
    refine ⟨minSeq, ?_, le_rfl, hle⟩
    simpa [Forwarder.walkSkips, Client.interest, RangeRequest.request, Interest.child,
      Interest.minSequence] using hskip

theorem Sound.client (decrypt : Data → Data) {cl : Client.Label} {client : Client}
    {answers : List (CallId × Data)} (h : s.Sound)
    (hs : Client.step { s.call.client with maybeDecrypt := decrypt } cl = some client)
    (hsub : ∀ x ∈ answers, x ∈ s.answers)
    (hdecrypt : ∀ f d, cl = .finish f →
      (decrypt d).metadata.sequence = d.metadata.sequence)
    (harrival : ∀ minSeq c call d inFace unsolicited, s.call.Pending minSeq c call →
      cl = .forwarder (.receiveData d inFace unsolicited) →
      s.call.client.forwarder.Completes call d → NextAfter s.began minSeq d)
    (hfails : ∀ minSeq f fetch, s.call.Fetching minSeq f fetch →
      s.call.client.Fails f fetch.request cl → fetch.request.maxRetries ≤ fetch.attempt →
      ∀ b ∈ s.began, b < minSeq) :
    Sound { s with call := { s.call with client }, answers } := by
  let asks : Client := { s.call.client with maybeDecrypt := decrypt }
  have hcons : asks.forwarder.Consistent := h.consistent
  have hstep : asks.step cl = some client := hs
  have hhere := h.here
  refine ⟨Client.step_consistent hcons hstep, h.began, fun x hx => ?_,
    fun x hx minSeq call' hp => ?_, ?_⟩
  · obtain ⟨call, hc⟩ := h.issued x (hsub x hx)
    obtain ⟨call', hc', -⟩ := Client.step_calls hcons hstep hc
    exact ⟨call', hc'⟩
  · obtain ⟨f, fetch', deadline, ⟨r, hphase, hf'⟩, hexp, -⟩ := hp
    have hphase : s.call.phase = .fetching r minSeq f := hphase
    obtain ⟨call, hc⟩ := h.issued x (hsub x hx)
    simp only [Here, hphase] at hhere
    obtain ⟨-, hlt, fetch, hf, -⟩ := hhere
    rcases Client.step_expressing (s := asks) hlt hf hstep hf' hexp with hexp | hnew
    · exact h.answers x (hsub x hx) minSeq call ⟨f, fetch, deadline, ⟨r, hphase, hf⟩, hexp, hc⟩
    · exact absurd hnew (h.consistent.loop.lt hc).ne
  rw [Here] at hhere ⊢
  cases hphase : s.call.phase with
  | fetching r minSeq f =>
    simp only [hphase] at hhere ⊢
    obtain ⟨hat, hlt, fetch, hf, hexpects⟩ := hhere
    have hfetching : s.call.Fetching minSeq f fetch := ⟨r, hphase, hf⟩
    have hsuits : asks.Suits f fetch (NextAfter s.began minSeq) (∀ b ∈ s.began, b < minSeq) cl := by
      refine ⟨fun fw nonce cs d hl => ?_, fun c deadline call d inFace unsolicited hexp hc =>
        harrival minSeq c call d inFace unsolicited ⟨f, fetch, deadline, hfetching, hexp, hc⟩,
        fun d hcl hd => ?_, hfails minSeq f fetch hfetching⟩
      · rw [hexpects.request] at hl
        exact nextAfter_hit hl
      · rw [NextAfter, show (asks.maybeDecrypt d).metadata.sequence = _ from hdecrypt f d hcl]
        exact hd
    have hexpects : asks.Expects (r.request minSeq) (NextAfter s.began minSeq)
        (∀ b ∈ s.began, b < minSeq) fetch :=
      ⟨hexpects.request, hexpects.quiet, hexpects.got, hexpects.returned, hexpects.nothing⟩
    obtain ⟨fetch', hf', hexpects'⟩ := hexpects.step hcons hlt hf hsuits hstep
    exact ⟨hat, (Client.feed_advances (l := .own cl) hstep hlt hf).1, fetch', hf', hexpects'⟩
  | idle | yielding | ended =>
    simp only [hphase] at hhere ⊢
    exact hhere
  | raised => simp only [hphase] at hhere

theorem Sound.step (h : s.Sound) (hanswered : s.Answered l) (hunskipping : s.Unskipping l)
    (hs : s.step l = some t) : t.Sound := by
  cases l with
  | walk l =>
    obtain ⟨call, hc, rfl⟩ := Option.map_eq_some_iff.mp hs
    cases l with
    | call r => exact h.call hc
    | client now cl =>
      obtain ⟨client, hclient, rfl⟩ := Option.map_eq_some_iff.mp hc
      refine h.client _ hclient (fun _ hx => hx) (fun _ _ _ => Access.maybeDecrypt_sequence)
        (fun minSeq c call d inFace unsolicited hp hl => ?_) fun minSeq f fetch hf =>
          hanswered minSeq f fetch now cl hf rfl
      subst hl
      exact hunskipping minSeq c call d hp rfl
    | resume => exact h.resume hc
    | advance =>
      obtain hc : s.call.advance = some call := hc
      have hhere := h.here
      rw [RangeCall.advance] at hc
      split at hc
      · rename_i r minSeq hphase
        simp only [Here, hphase] at hhere
        exact Option.some.inj hc ▸ h.loop hhere
      · cases hc
  | publish d =>
    obtain rfl := Option.some.inj hs
    refine ⟨h.consistent, fun b hb => ?_, h.issued, h.answers, h.here⟩
    obtain ⟨e, he, hseq⟩ := List.mem_filterMap.mp (h.began b hb)
    exact List.mem_filterMap.mpr ⟨e, List.mem_cons_of_mem _ he, hseq⟩
  | answer c =>
    obtain ⟨floor, hasked, hs⟩ := Option.bind_eq_some_iff.mp hs
    obtain ⟨d, hd, rfl⟩ := Option.map_eq_some_iff.mp hs
    exact h.answer hasked hd
  | arrive x face =>
    obtain ⟨hx, hs⟩ := Option.ite_none_right_eq_some.mp hs
    obtain ⟨client, hclient, rfl⟩ := Option.map_eq_some_iff.mp hs
    refine h.client s.call.client.maybeDecrypt hclient
      (fun _ hy => List.mem_of_mem_erase hy) nofun
      (fun minSeq c call d inFace unsolicited hp hl hcomplete => ?_) fun _ _ _ _ hfail => hfail.elim
    obtain ⟨rfl, -⟩ := Forwarder.Label.receiveData.inj (Client.Label.forwarder.inj hl)
    by_cases hc : x.1 = c
    · subst hc
      exact h.answers x hx minSeq call hp
    · exact hunskipping minSeq c call x.2 hp (if_neg hc) hcomplete

/-- A walk yields, in increasing order, every edition from its start on that there was when it
began. -/
theorem walk_yields_all (hs : s.Initial)
    (h : Run step (fun s l => s.Answered l ∧ s.Unskipping l) s ls t) :
    (∀ e, t.call.phase ≠ .raised e) ∧ ∀ r ∈ t.request, ∃ xs, t.Complete r xs := by
  have hsound : t.Sound := h.invariant (I := Sound) hs.sound fun u l v hu hok hstep =>
    hu.step hok.1 hok.2 hstep
  have hhere := hsound.here
  rw [Here] at hhere
  have hat {r : RangeRequest} {floor : ℕ} (hat : t.At r floor)
      (hend : t.call.phase = .ended r → r.maxItems.all (t.call.yielded.length < ·) →
        ∀ b ∈ t.began, b < floor) : ∃ xs, t.Complete r xs := by
    obtain ⟨xs, hxs, hwalked⟩ := hat
    have hlen : t.call.yielded.length = xs.length := by simpa using congrArg List.length hxs
    refine ⟨xs, hxs, hwalked.increasing, fun x hx => (hwalked.within x hx).1,
      fun x hx b hb hstart hle => hwalked.all b hb hstart (hle.trans_lt (hwalked.within x hx).2),
      fun b hb hstart hlt => hwalked.all b hb hstart (hlt.trans_le hwalked.moved),
      fun hphase hmax b hb hstart => hwalked.all b hb hstart (hend hphase (hlen ▸ hmax) b hb)⟩
  refine ⟨fun e hphase => by simp only [hphase] at hhere, fun r hr => ?_⟩
  rw [request] at hr
  cases hphase : t.call.phase with
  | idle | raised => simp [hphase] at hr
  | fetching | yielding =>
    simp only [hphase, Option.mem_def, Option.some.injEq] at hr hhere
    subst hr
    first
    | exact hat hhere (by simp [hphase])
    | exact hat hhere.1 (by simp [hphase])
  | ended r' =>
    simp only [hphase, Option.mem_def, Option.some.injEq] at hr hhere
    subst hr
    obtain ⟨floor, hfloor, hend⟩ := hhere
    exact hat hfloor fun _ => hend

section Walks

def retries (s : Walk) : Bool :=
  match s.call.phase with
  | .fetching _ _ f =>
    (s.call.client.fetches f).all fun fetch => fetch.attempt < fetch.request.maxRetries
  | _ => true

def waitsFor (s : Walk) : Option CallId :=
  match s.call.phase with
  | .fetching _ _ f => (s.call.client.fetches f).bind fun fetch =>
    match fetch.phase with
    | .expressing c _ => some c
    | _ => none
  | _ => none

theorem answered_of_retries (h : s.retries = true) : s.Answered l := by
  rintro minSeq f fetch now cl ⟨r, hphase, hf⟩ - - hlast
  simp only [retries, hphase, hf, Option.all_some, decide_eq_true_eq] at h
  exact absurd h (not_lt.mpr hlast)

omit [Hashlib] in
theorem waitsFor_of_pending {minSeq : ℕ} {c : CallId} {call : Call}
    (h : s.call.Pending minSeq c call) : s.waitsFor = some c := by
  obtain ⟨f, fetch, deadline, ⟨r, hphase, hf⟩, hexp, -⟩ := h
  simp [waitsFor, hphase, hf, hexp]

omit [Hashlib] in
theorem unskipping_of_quiet (h : s.waitsFor.all (fun c => (l.unasked c).isNone) = true) :
    s.Unskipping l := by
  intro minSeq c call d hp hd
  simp [waitsFor_of_pending hp, hd] at h

def numbered (k : ℕ) : Data :=
  letI := Data.paddedHash
  (Data.new ⟨List.replicate 16 1, [[UInt8.ofNat k]], none⟩ [UInt8.ofNat k]).withSequence k

def unwalked : Walk where
  call := { client := {} }
  collection := ⟨List.replicate 16 1, [], none⟩

def firstOnly : RangeRequest where
  collection := ⟨List.replicate 16 1, [], none⟩
  maxItems := some 1

def askFirst (r : RangeRequest) : List Label :=
  [.walk (.client 0 (.subscribe r.collection)), .walk (.call r),
    .walk (.client 0 (.attempt 0 1 (List.replicate 8 5) (List.replicate 8 6))),
    .walk (.client 0 (.forwarder (.sent 0)))]

def readFirst : List Label :=
  [.walk (.client 0 (.forwarder (.resume 0))), .walk (.client 0 (.finish 0)), .walk .resume]

def walkThenPush : List Label :=
  [.publish (numbered 1)] ++ askFirst firstOnly ++ [.answer 0, .arrive (0, numbered 1) 1] ++
    readFirst ++ [.publish (numbered 2),
      .walk (.client 0 (.forwarder (.receiveData (numbered 2) 1 false))), .walk .advance]

def walked (ls : List Label) : Walk :=
  letI := Data.paddedHash
  (exec step unwalked ls).getD unwalked

omit [Hashlib] in
theorem exec_walked {ls : List Label} :
    letI := Data.paddedHash
    (exec step unwalked ls).isSome = true → exec step unwalked ls = some (walked ls) :=
  fun h => (Option.some_get h).symm.trans (congrArg some (Option.get_eq_getD ..))

omit [Hashlib] in
theorem unwalked_initial : unwalked.Initial where
  client := ⟨⟨rfl, fun _ => rfl, rfl, rfl⟩, rfl, rfl, rfl, rfl⟩
  phase := rfl
  yielded := rfl
  began := rfl
  answers := rfl

omit [Hashlib] in
/-- With a push between its steps, the walk yields the one edition that there was. -/
theorem walk_then_push_yields :
    letI := Data.paddedHash
    (walked walkThenPush).call.phase = .ended firstOnly ∧
      (walked walkThenPush).began = [1] ∧
      (∀ e, (walked walkThenPush).call.phase ≠ .raised e) ∧
      ∀ r ∈ (walked walkThenPush).request, ∃ xs, (walked walkThenPush).Complete r xs := by
  let := Data.paddedHash
  have hrun : Run step (fun s l => s.Answered l ∧ s.Unskipping l) unwalked walkThenPush
      (walked walkThenPush) := by
    refine run_of_exec_check (fun s l => s.retries && s.waitsFor.all fun c => (l.unasked c).isNone)
      (fun s l h => ?_) (exec_walked (by decide +kernel)) (by decide +kernel)
    obtain ⟨hr, hu⟩ := Bool.and_eq_true_iff.mp h
    exact ⟨answered_of_retries hr, unskipping_of_quiet hu⟩
  exact ⟨by decide +kernel, by decide +kernel, walk_yields_all unwalked_initial hrun⟩

/-- The walk asks for the oldest of three editions, and a fourth is pushed before it is answered. -/
def pushThenAnswer : List Label :=
  [.publish (numbered 1), .publish (numbered 2), .publish (numbered 3)] ++
    askFirst { collection := ⟨List.replicate 16 1, [], none⟩ } ++ [.publish (numbered 4), .answer 0,
      .walk (.client 0 (.forwarder (.receiveData (numbered 4) 1 false))),
      .arrive (0, numbered 1) 1] ++ readFirst

omit [Hashlib] in
/-- The walk yields the pushed edition for its answer and leaves out the three before it. -/
theorem walk_skips :
    letI := Data.paddedHash
    unwalked.Initial ∧ Run step Answered unwalked pushThenAnswer (walked pushThenAnswer) ∧
      (walked pushThenAnswer).began = [3, 2, 1] ∧
      (walked pushThenAnswer).call.yielded = [numbered 4] ∧
      (walked pushThenAnswer).call.phase =
        .yielding { collection := ⟨List.replicate 16 1, [], none⟩ } 5 ∧
      ¬ ∃ r ∈ (walked pushThenAnswer).request, ∃ xs, (walked pushThenAnswer).Complete r xs := by
  let := Data.paddedHash
  have hrun : Run step Answered unwalked pushThenAnswer (walked pushThenAnswer) :=
    run_of_exec_check (fun s _ => s.retries) (fun _ _ => answered_of_retries)
      (exec_walked (by decide +kernel)) (by decide +kernel)
  have hyielded : (walked pushThenAnswer).call.yielded = [numbered 4] := by decide +kernel
  have hbegan : (walked pushThenAnswer).began = [3, 2, 1] := by decide +kernel
  have hphase : (walked pushThenAnswer).call.phase =
      .yielding { collection := ⟨List.replicate 16 1, [], none⟩ } 5 := by decide +kernel
  refine ⟨unwalked_initial, hrun, hbegan, hyielded, hphase, ?_⟩
  rintro ⟨r, hr, xs, hcomplete⟩
  rw [request, hphase] at hr
  obtain rfl : _ = r := Option.some.inj hr
  have hmap := hcomplete.yielded
  rw [hyielded] at hmap
  obtain rfl : [4] = xs := List.map_injective_iff.mpr (Option.some_injective _) hmap
  have hmem : 1 ∈ [4] := hcomplete.unskipped 4 (List.mem_singleton_self _) 1 (by simp [hbegan])
    (Nat.zero_le _) (by decide)
  exact absurd hmem (by decide)

end Walks

end Walk

end RnsIcn
