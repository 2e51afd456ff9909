import RnsIcn.Client.Accepted
import RnsIcn.Server.Signing

/-! # Copies of one version

An origin stores what it publishes unsigned, and signs it each time it serves it.
Caches keep the copies that they get. A client that rejects rollbacks orders them
by the time of their signature, so it takes an older copy for an older version.
-/

namespace RnsIcn

open Transition Fallible

namespace Verifier

variable {v v' : Verifier} {d : Data} {requireSignature : Option Bool} {verdict : Verdict}

def Gains (v v' : Verifier) (d : Data) : Prop :=
  ∀ nameKey w, v'.seenSignedKey.get? nameKey = some w →
    v.seenSignedKey.get? nameKey = some w ∨
      d.name.toBytes = .ok nameKey ∧ d.freshnessKey = some (ofLex w)

theorem Gains.of_eq (h : v'.seenSignedKey = v.seenSignedKey) : v.Gains v' d :=
  fun _ _ hw => .inl (h ▸ hw)

theorem Gains.trans {u : Verifier} (h : u.Gains v d) (h' : v.Gains v' d) : u.Gains v' d :=
  fun nameKey w hw => (h' nameKey w hw).elim (h nameKey w) .inr

theorem checkRollback_gains (h : v.checkRollback d = .ok (v', verdict)) :
    v'.seenSignedKey = v.seenSignedKey ∨ verdict = .accepted ∧ v.Gains v' d := by
  rcases checkRollback_eq_ok h with rfl | ⟨nameKey, k, -, hn, hk, -, hverdict, rfl⟩
  · exact .inl rfl
  · refine .inr ⟨hverdict, fun nameKey' w hw => ?_⟩
    rw [Dict.get?_set] at hw
    split at hw
    · rename_i he
      obtain rfl := Option.some.inj hw
      exact .inr ⟨he ▸ hn, hk⟩
    · exact .inl hw

/-- `_check_rollback` lets the Data through. -/
def Passes (v : Verifier) (d : Data) : Prop := ∃ v', v.checkRollback d = .ok (v', .accepted)

theorem passes_of_admits {nameKey : Bytes} (hn : d.name.toBytes = .ok nameKey)
    (h : v.Admits d) : v.Passes d := by
  rw [Passes]
  simp only [checkRollback]
  split
  · exact ⟨v, rfl⟩
  · cases hk : d.freshnessKey with
    | none => exact ⟨v, rfl⟩
    | some k =>
      simp only [hn, bind, Except.bind]
      cases hw : v.seenSignedKey.get? nameKey with
      | none => exact ⟨_, rfl⟩
      | some w =>
        have hle := h nameKey w hn hw k hk
        simp only [if_neg (not_lt.mpr hle)]
        split
        · exact ⟨_, rfl⟩
        · exact ⟨v, rfl⟩

variable [Hashlib]

theorem checkOrigin_gains (h : v.checkOrigin d requireSignature = .ok (v', verdict)) :
    v'.seenSignedKey = v.seenSignedKey ∨ verdict = .accepted ∧ v.Gains v' d := by
  obtain ⟨⟨u, first⟩, hs, h⟩ := bind_eq_ok.mp h
  have hu := (checkSignature_rises hs).2
  cases first with
  | accepted =>
    rcases checkRollback_gains h with he | ⟨hverdict, hg⟩
    · exact .inl (he.trans hu)
    · exact .inr ⟨hverdict, (Gains.of_eq hu).trans hg⟩
  | rejected e =>
    obtain ⟨rfl, -⟩ := Prod.mk.inj (Except.ok.inj h)
    exact .inl hu

theorem checkFetched_gains {pin : Option Bytes}
    (h : v.checkFetched d pin requireSignature = .ok (v', verdict)) :
    v'.seenSignedKey = v.seenSignedKey ∨ verdict = .accepted ∧ v.Gains v' d := by
  rw [checkFetched] at h
  split at h
  · obtain ⟨rfl, -⟩ := Prod.mk.inj (Except.ok.inj h)
    exact .inl rfl
  · split at h
    · obtain ⟨rfl, -⟩ := Prod.mk.inj (Except.ok.inj h)
      exact .inl rfl
    · exact checkOrigin_gains h

theorem dispatchPush_gains (v : Verifier) (d : Data) (prefixes : List Name) :
    (v.dispatchPush d prefixes).seenSignedKey = v.seenSignedKey ∨
      v.dispatched d prefixes ≠ [] ∧ v.Gains (v.dispatchPush d prefixes) d := by
  induction prefixes generalizing v with
  | nil => exact .inl rfl
  | cons p prefixes ih =>
    rw [dispatchPush, dispatched, dispatch]
    split
    · exact ih v
    · split
      · exact .inl rfl
      · cases hc : v.checkOrigin d none with
        | error e => exact .inl rfl
        | ok r =>
          obtain ⟨u, verdict⟩ := r
          have hg := checkOrigin_gains hc
          cases verdict with
          | rejected e =>
            refine .inl (hg.resolve_right ?_)
            rintro ⟨⟨⟩, -⟩
          | accepted =>
            have hu : v.Gains u d := hg.elim .of_eq And.right
            refine .inr ⟨List.cons_ne_nil _ _, ?_⟩
            exact hu.trans ((ih u).elim .of_eq And.right)

end Verifier

namespace Client

variable [Hashlib] {s t : Client} {d : Data}

theorem fetchAccepted_gains {f : FetchId} {fetch : Fetch} (hf : s.fetches f = some fetch)
    (i : Interest) :
    (s.checkResult f fetch i d).verifier.seenSignedKey = s.verifier.seenSignedKey ∨
      ∃ a, s.fetchAccepted f d = some a ∧
        s.verifier.Gains (s.checkResult f fetch i d).verifier a.data := by
  rw [fetchAccepted, hf, checkResult]
  simp only [Option.bind_some]
  cases hc : s.verifier.checkFetched d fetch.request.name.contentHash
      fetch.request.requireSignature with
  | error e => exact .inl rfl
  | ok r =>
    obtain ⟨u, verdict⟩ := r
    have hg := Verifier.checkFetched_gains hc
    cases verdict with
    | rejected e =>
      refine .inl (hg.resolve_right ?_)
      rintro ⟨⟨⟩, -⟩
    | accepted => exact .inr ⟨_, rfl, hg.elim .of_eq And.right⟩

theorem pushAccepted_gains (s : Client) (d : Data) :
    (s.verifier.dispatchPush d s.subscriptions).seenSignedKey = s.verifier.seenSignedKey ∨
      ∃ a, s.pushAccepted d = some a ∧
        s.verifier.Gains (s.verifier.dispatchPush d s.subscriptions) a.data := by
  rcases s.verifier.dispatchPush_gains d s.subscriptions with he | ⟨hne, hg⟩
  · exact .inl he
  · exact .inr ⟨_, if_neg hne, hg⟩

/-- An event that changes a watermark makes the client accept the Data whose key it is. -/
theorem feed_gains {l : Feed} (hs : s.feed l = some t) :
    t.verifier.seenSignedKey = s.verifier.seenSignedKey ∨
      ∃ a, accepted (s, l, t) = some a ∧ s.verifier.Gains t.verifier a.data := by
  cases l with
  | own l =>
    have hver := step_verifies hs
    generalize t.verifier = v at hver
    cases hver with
    | @checked f fetch c deadline call d hf hp hc hd =>
      have hresult : s.result f = some d := by simp [result, hf, hp, hc, hd]
      rcases s.fetchAccepted_gains hf call.interest with he | ⟨a, ha, hg⟩
      · exact .inl he
      · exact .inr ⟨a, by simp [accepted, hresult, ha], hg⟩
    | @observed l =>
      cases l with
      | receiveData d inFace unsolicited =>
        rw [observe]
        split
        · rename_i hobs
          rw [Bool.and_eq_true] at hobs
          rcases s.pushAccepted_gains d with he | ⟨a, ha, hg⟩
          · exact .inl he
          · exact .inr ⟨a, by simp [accepted, hobs.2, ha], hg⟩
        · exact .inl rfl
      | _ => exact .inl rfl
    | announced => exact .inl rfl
    | same => exact .inl rfl
  | answered f d =>
    obtain ⟨fetch, hf, hs⟩ := Option.bind_eq_some_iff.mp hs
    split at hs
    · obtain ⟨call, -, rfl⟩ := Option.map_eq_some_iff.mp hs
      rcases s.fetchAccepted_gains hf call.interest with he | ⟨a, ha, hg⟩
      · exact .inl he
      · exact .inr ⟨a, ha, hg⟩
    · cases hs
  | pushed d =>
    obtain rfl := Option.some.inj hs
    rcases s.pushAccepted_gains d with he | ⟨a, ha, hg⟩
    · exact .inl he
    · exact .inr ⟨a, ha, hg⟩

/-- Every watermark after a run was there before or is the key of Data that was accepted. -/
theorem watermark_attained {ls : List Feed} (h : Run feed anyStep s ls t) {nameKey : Bytes}
    {w : FreshnessKey} (hw : t.verifier.seenSignedKey.get? nameKey = some w) :
    s.verifier.seenSignedKey.get? nameKey = some w ∨ ∃ a ∈ observed feed accepted s ls,
      a.data.name.toBytes = .ok nameKey ∧ a.data.freshnessKey = some (ofLex w) := by
  induction h with
  | nil => exact .inl hw
  | cons _ hs _ ih =>
    rw [observed_cons hs]
    rcases ih hw with hw | ⟨a, ha, hk⟩
    · rcases feed_gains hs with he | ⟨a, ha, hg⟩
      · exact .inl (he ▸ hw)
      · refine (hg nameKey w hw).imp_right fun hk => ⟨a, ?_, hk⟩
        exact List.mem_append_left _ (by simp [ha])
    · exact .inr ⟨a, List.mem_append_right _ ha, hk⟩

theorem accepted_covered {ls : List Feed} (h : Run feed anyStep s ls t)
    (hreject : s.verifier.config.rejectRollback = true) :
    ∀ a ∈ observed feed accepted s ls,
      t.verifier.Covers a.data ∧ t.verifier.config.rejectRollback = true := by
  have hconfig {s t : Client} {l : Feed} (hs : s.feed l = some t)
      (hr : s.verifier.config.rejectRollback = true) :
      t.verifier.config.rejectRollback = true :=
    (congrArg ClientConfig.rejectRollback (feed_rises hs).config).trans hr
  have hrun := h.with_invariant (I := fun s => s.verifier.config.rejectRollback = true) hreject
    fun _ _ _ hi _ hs => hconfig hs hi
  refine hrun.observed_past (fun (a : Acceptance) u => u.verifier.Covers a.data ∧
    u.verifier.config.rejectRollback = true) ?_ ?_
  · exact fun u l v a hok hs ha => ⟨((accepted_step hs ha).2 hok.1).1, hconfig hs hok.1⟩
  · exact fun u l v a _ hs hpast => ⟨hpast.1.rises (feed_rises hs), hconfig hs hpast.2⟩

end Client

structure Distribution (ι : Type*) where
  origin : Server
  caches : ι → Server
  client : Client

def Server.Label.arriving : Server.Label → Option Data
  | .incoming _ raw _ =>
    match parsePacket raw with
    | .ok (.data d) => some d
    | _ => none
  | .resource payload => resourceData payload
  | _ => none

def Client.Feed.arriving : Client.Feed → Option Data
  | .own (.forwarder (.receiveData d _ _)) => some d
  | .answered _ d => some d
  | .pushed d => some d
  | _ => none

namespace Distribution

variable {ι : Type*}

inductive Label (ι : Type*) where
  | origin (l : Server.Label)
  | cache (i : ι) (l : Server.Label)
  | client (l : Client.Feed)

def Label.arriving : Label ι → Option Data
  | .origin l => l.arriving
  | .cache _ l => l.arriving
  | .client l => l.arriving

/-- The origin or a cache has handed to a face what is read as `d` where it arrives. -/
def Offers (N : Distribution ι) (d : Data) : Prop :=
  ∃ server, (server = N.origin ∨ ∃ i, server = N.caches i) ∧ ∃ face e raw,
    (face, .data e) ∈ server.sent ∧ e.toBytes = .ok raw ∧ Data.fromBytes raw = .ok d

/-- Nobody is brought Data that the origin or a cache has not sent. -/
def Honest (N : Distribution ι) (l : Label ι) : Prop := ∀ d ∈ l.arriving, N.Offers d

structure Initial (N : Distribution ι) : Prop where
  origin : N.origin.Initial
  caches : ∀ i, (N.caches i).Initial
  client : N.client.Initial

def feeds (ls : List (Label ι)) : List Client.Feed :=
  ls.filterMap fun
    | .client l => some l
    | _ => none

variable [DecidableEq ι] [Hashlib]

def step (N : Distribution ι) : Label ι → Option (Distribution ι)
  | .origin l => (N.origin.step l).map fun origin => { N with origin }
  | .cache i l =>
    ((N.caches i).step l).map fun s => { N with caches := Function.update N.caches i s }
  | .client l => (N.client.feed l).map fun client => { N with client }

/-- What the client has accepted in a run. -/
def accepted (N : Distribution ι) (ls : List (Label ι)) : List Acceptance :=
  observed Client.feed Client.accepted N.client (feeds ls)

variable {N M : Distribution ι} {ls : List (Label ι)} {d : Data}

theorem run_feeds (h : Run step Honest N ls M) :
    Run Client.feed anyStep N.client (feeds ls) M.client := by
  induction h with
  | nil => exact .nil _
  | @cons N N' M l ls _ hs _ ih =>
    cases l with
    | origin l =>
      obtain ⟨_, -, rfl⟩ := Option.map_eq_some_iff.mp hs
      exact ih
    | cache i l =>
      obtain ⟨_, -, rfl⟩ := Option.map_eq_some_iff.mp hs
      exact ih
    | client l =>
      obtain ⟨client, hl, rfl⟩ := Option.map_eq_some_iff.mp hs
      exact .cons trivial hl ih

/-- At any time in any run, a copy that the origin or a cache has sent passes the check of its
version exactly if it was signed no earlier than every copy of its name that was accepted, or in
the same second as it with no lower sequence. -/
theorem copy_passes_iff (hrun : Run step Honest N ls M) (hN : N.Initial)
    (hreject : N.client.verifier.config.rejectRollback = true) (hd : M.Offers d) :
    M.client.verifier.Passes d ↔ ∀ a ∈ N.accepted ls, a.data.name = d.name →
      ∀ k ∈ a.data.freshnessKey, ∀ k' ∈ d.freshnessKey, toLex k ≤ toLex k' := by
  have hfeeds := run_feeds hrun
  obtain ⟨_, -, _, _, raw, -, -, hraw⟩ := hd
  have hname := (Data.fromBytes_name hraw).toBytes
  constructor
  · rintro ⟨v', hv'⟩ a ha hn
    have hcov := Client.accepted_covered hfeeds hreject a ha
    exact hcov.1.le (Verifier.checkRollback_accepted hcov.2 hv').2 hn
  · intro h
    refine Verifier.passes_of_admits hname fun nameKey w hn hw k' hk' => ?_
    obtain rfl := ok_inj hname hn
    rcases Client.watermark_attained hfeeds hw with hw | ⟨a, ha, hn', hk⟩
    · rw [hN.client.seenSignedKey] at hw
      cases hw
    · exact h a ha (Name.toBytes_inj hn' hname) _ hk k' hk'

open Server

def SameVersion (a d : Data) : Prop :=
  a.name = d.name ∧ a.content = d.content ∧ a.metadata.sequence = d.metadata.sequence

def reader : Client where
  verifier := {
    config := { rejectRollback := true, requireSignature := true }
    identities := fun _ => some fun sig _ => sig == List.replicate 64 7 }

def library : Distribution Unit where
  origin := publisher
  caches _ := { rnsAddr := List.replicate 16 2 }
  client := reader

def request (nonce : UInt8) : Bytes :=
  wireBytes (.interest { name := postName, nonce := List.replicate 8 nonce })

def copyAt (second : ℕ) : Data :=
  letI := Data.paddedHash
  { ((Data.new postName [0x68, 0x69]).withSequence 1) with
    signature := some (List.replicate 64 7)
    metadata := { ((Data.new postName [0x68, 0x69]).withSequence 1).metadata with
      signedAt := some second } }

/-- The cache is asked, and asks the origin in second 5. The reader, who has no answer yet, asks
the origin itself in second 9. -/
def crossing : List (Label Unit) :=
  [.origin .openFace, .origin .openFace,
    .origin (.publishContent postName [0x68, 0x69] false (some 1) none),
    .cache () .openFace, .cache () .openFace,
    .cache () (.forwarder (.addRoute ⟨List.replicate 16 1, [], none⟩ 101 10)),
    .cache () (.incoming 100 (request 3) drawn), .cache () (.forwarder (.sent 0)),
    .origin (.forwarder (.tick 0 5)), .origin (.incoming 100 (request 3) drawn),
    .cache () (.incoming 101 (wireBytes (.data (copyAt 5))) drawn),
    .cache () (.forwarder (.resume 0)), .cache () (.forwarded 0),
    .origin (.forwarder (.tick 0 9)), .origin (.incoming 101 (request 4) drawn),
    .client (.own (.fetch { name := postName })),
    .client (.own (.attempt 0 1 (List.replicate 8 5) (List.replicate 8 6))),
    .client (.answered 0 (copyAt 9))]

def libraryAfter (count : ℕ) : Distribution Unit :=
  letI := Data.paddedHash
  (exec step library (crossing.take count)).getD library

omit [Hashlib] in
theorem library_initial : library.Initial where
  origin := publisher_initial
  caches _ := ⟨⟨rfl, fun _ => rfl, rfl, rfl⟩, rfl, rfl, rfl, rfl, rfl, rfl⟩
  client := ⟨⟨rfl, fun _ => rfl, rfl, rfl⟩, rfl, rfl, rfl, rfl⟩

omit [Hashlib] in
theorem honest_of_offers {N : Distribution Unit} {l : Label Unit} {d : Data}
    (hl : l.arriving = some d) (h : N.Offers d) : Honest N l := by
  rintro d' hd'
  rw [hl] at hd'
  obtain rfl := Option.some.inj hd'
  exact h

omit [Hashlib] in
set_option maxRecDepth 4000 in
theorem crossing_run :
    letI := Data.paddedHash
    Run step Honest library crossing (libraryAfter 18) := by
  let := Data.paddedHash
  have hquiet {k m : ℕ} (h : exec step (libraryAfter k) ((crossing.drop k).take m) =
      some (libraryAfter (k + m)))
      (hl : ((crossing.drop k).take m).all (·.arriving.isNone) = true) :
      Run step Honest (libraryAfter k) ((crossing.drop k).take m) (libraryAfter (k + m)) :=
    run_of_exec_of h fun l hm N d hd => by
      have hnone := List.all_eq_true.mp hl l hm
      rw [Option.isNone_iff_eq_none.mp hnone] at hd
      cases hd
  have hfirst := hquiet (k := 0) (m := 10) rfl rfl
  have hsecond := hquiet (k := 11) (m := 6) rfl rfl
  have hcached : Honest (libraryAfter 10)
      (.cache () (.incoming 101 (wireBytes (.data (copyAt 5))) drawn)) :=
    honest_of_offers rfl ⟨_, .inl rfl, 100, _, wireBytes (.data (copyAt 5)),
      List.mem_singleton.mpr rfl, rfl, rfl⟩
  have hread : Honest (libraryAfter 17) (.client (.answered 0 (copyAt 9))) :=
    honest_of_offers rfl ⟨_, .inl rfl, 101, _, wireBytes (.data (copyAt 9)),
      List.mem_cons_self, rfl, rfl⟩
  exact hfirst.append (.cons hcached rfl (hsecond.append (.cons hread rfl (.nil _))))

omit [Hashlib] in
theorem crossing_accepted :
    letI := Data.paddedHash
    (library.accepted crossing).map Acceptance.data = [copyAt 9] := rfl

omit [Hashlib] in
set_option maxRecDepth 4000 in
theorem newest_copy_passes :
    letI := Data.paddedHash
    (libraryAfter 18).client.verifier.Passes (copyAt 9) := by
  let := Data.paddedHash
  have hoffer : (libraryAfter 18).Offers (copyAt 9) :=
    ⟨_, .inl rfl, 101, _, wireBytes (.data (copyAt 9)), List.mem_cons_self, rfl, rfl⟩
  refine (copy_passes_iff crossing_run library_initial rfl hoffer).mpr fun a ha _ k hk k' hk' => ?_
  have hmem : a.data ∈ [copyAt 9] := crossing_accepted ▸ List.mem_map_of_mem ha
  rw [List.mem_singleton.mp hmem] at hk
  rw [Option.some.inj (hk.symm.trans hk')]

omit [Hashlib] in
set_option maxRecDepth 4000 in
/-- The copy that the cache has sent of the same version does not pass any more. -/
theorem crossed_copy_refused :
    letI := Data.paddedHash
    Run step Honest library crossing (libraryAfter 18) ∧ library.Initial ∧
      library.client.verifier.config.rejectRollback = true ∧
      ((libraryAfter 18).origin.created.filter (·.1 = postName)) = [(postName, [0x68, 0x69])] ∧
      ¬ ∀ a ∈ library.accepted crossing, ∀ d, (libraryAfter 18).Offers d →
        SameVersion a.data d → (libraryAfter 18).client.verifier.Passes d := by
  let := Data.paddedHash
  refine ⟨crossing_run, library_initial, rfl, rfl, fun h => ?_⟩
  have hoffer : (libraryAfter 18).Offers (copyAt 5) :=
    ⟨_, .inr ⟨(), rfl⟩, 100, _, wireBytes (.data (copyAt 5)), List.mem_singleton.mpr rfl, rfl, rfl⟩
  obtain ⟨a, ha, hda⟩ : ∃ a ∈ library.accepted crossing, a.data = copyAt 9 :=
    List.mem_map.mp (by rw [crossing_accepted]; exact List.mem_singleton.mpr rfl)
  obtain ⟨v', hv'⟩ := h a ha (copyAt 5) hoffer (by rw [hda]; exact ⟨rfl, rfl, rfl⟩)
  obtain ⟨e, he⟩ : ∃ e, (libraryAfter 18).client.verifier.checkRollback (copyAt 5) =
      .ok ((libraryAfter 18).client.verifier, .rejected e) := ⟨_, rfl⟩
  rw [he] at hv'
  cases hv'

end Distribution

end RnsIcn
