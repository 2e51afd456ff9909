import RnsIcn.Server.Confidential
import RnsIcn.Server.Solicited

/-! # Where the content in a network comes from

Servers exchange the bytes of the Data that they send. Packets may be lost, repeated, reordered
or delivered to another server, and packets other than Data may be anything. Whatever a server
then stores, queues, sends or answers with has the name, the content and the encrypted flag of
Data that one of the servers has made.
-/

namespace RnsIcn

open Fallible Transition EventLoop Parse

/-- The components of a name are read back, whatever stands in the place of its pin. -/
theorem Name.withoutContentHash_of_fromBytes {n m : Name} (he : n.Encodable)
    (h : fromBytes n.encode = .ok m) : m.withoutContentHash = n.withoutContentHash := by
  have hl : (UInt8.ofNat n.len).toNat = n.len := by simp [Nat.mod_eq_of_lt he.count]
  have hread := readComponents_flatMap he.component (pinBytes n.contentHash)
  rw [encode, encodeComponents, Framing.counted, byteCount, List.singleton_append,
    List.cons_append, fromBytes, ite_error_eq_ok] at h
  simp only [show n.components.length = n.len from rfl] at hread h
  rw [hl, hread] at h
  obtain ⟨_, hcomps, h⟩ := bind_eq_ok.mp h.2
  obtain rfl := Except.ok.inj hcomps
  obtain ⟨pin, -, h⟩ := bind_eq_ok.mp h
  obtain rfl := pure_eq_ok.mp h
  rfl

theorem DataMetadata.encrypted_of_read {m m' : DataMetadata} {b tail rest : Bytes}
    (h : m.writeWith 0 [] = .ok b) (hread : read (b ++ tail) = .ok (m', rest)) :
    m'.encrypted = m.encrypted := by
  simp only [writeWith, toBytesWith_zero, toBytes_eq, bind_eq_ok, pure_eq_ok] at h
  obtain ⟨_, ⟨seq, -, age, -, period, -, stamp, -, rfl⟩, len, hlen, rfl⟩ := h
  simp only [read, List.append_assoc, readVarint_append hlen, readBytes_append rfl, bind_eq_ok,
    Except.ok.injEq, exists_eq_left', pure_eq_ok, Prod.mk.injEq] at hread
  obtain ⟨_, hm, rfl, -⟩ := hread
  simp only [fromBytes, readByte, bind_eq_ok, pure_eq_ok, Prod.exists, Except.ok.injEq,
    Prod.mk.injEq] at hm
  obtain ⟨_, _, ⟨rfl, rfl⟩, _, _, -, _, _, -, _, _, -, _, _, -, _, _, -, rfl⟩ := hm
  exact m.hasFlag_flags.2.2.2.2.2

/-- The name without its pin, the content and the encrypted flag of Data survive the way over the
wire, also where its byte strings have other lengths than their fields demand. -/
theorem Data.agrees_of_fromBytes {d d' : Data} {b : Bytes} (h : d.toBytes = .ok b)
    (hread : fromBytes b = .ok d') : d'.name.withoutContentHash = d.name.withoutContentHash ∧
      d'.content = d.content ∧ d'.metadata.encrypted = d.metadata.encrypted := by
  rw [← toBytesWith_zero] at h
  simp only [toBytesWith, header, bind_eq_ok, pure_eq_ok, UInt8.or_zero] at h
  obtain ⟨_, ⟨nameBytes, hname, nameLen, hlen, rfl⟩, contentLen, hcontent, block, hblock, rfl⟩ := h
  obtain ⟨he, rfl⟩ := Name.toBytes_eq_ok.mp hname
  obtain ⟨h₁, -⟩ := d.hasFlag_wireFlags
  simp only [fromBytes, List.append_assoc, List.cons_append, List.nil_append, readType_cons,
    readVersion_cons, readName_append hlen, bind, Except.bind] at hread
  cases hn : Name.fromBytes d.name.encode with
  | error e => simp [hn, Except.map] at hread
  | ok n =>
    simp only [hn, Except.map, readNat_append hcontent, readBytes_append rfl, readByte, h₁,
      pure, Except.pure] at hread
    obtain ⟨⟨md, rest⟩, hblockRead, hread⟩ := bind_eq_ok.mp hread
    obtain ⟨_, -, hread⟩ := bind_eq_ok.mp hread
    obtain rfl := Except.ok.inj hread
    refine ⟨Name.withoutContentHash_of_fromBytes he hn, rfl, ?_⟩
    change (md.getD {}).encrypted = d.metadata.encrypted
    rw [← isSome_block] at hblockRead
    cases hb : d.block with
    | none =>
      rw [hb] at hblock hblockRead
      obtain ⟨rfl, -⟩ := Prod.mk.inj (Except.ok.inj hblockRead)
      have hplain := congrArg DataMetadata.encrypted d.block_getD
      rw [hb] at hplain
      exact hplain
    | some m =>
      obtain rfl : d.metadata = m := (Option.ite_none_right_eq_some.mp hb).2 |> Option.some.inj
      rw [hb] at hblock hblockRead
      rw [readOpt, Option.isSome_some, if_pos rfl] at hblockRead
      obtain ⟨⟨m', _⟩, hm, he⟩ := bind_eq_ok.mp hblockRead
      obtain ⟨rfl, -⟩ := Prod.mk.inj (pure_eq_ok.mp he)
      exact DataMetadata.encrypted_of_read hblock hm

namespace Server

/-- The Data that an event has a server make of what it is given or knows. -/
def makes [Hashlib] (s : Server) (l : Label) : List Data :=
  match l with
  | .incoming _ raw drawn =>
    match parsePacket raw with
    | .ok (.interest i) => if isHealthInterest i.name then [Data.new i.name drawn.health] else []
    | _ => []
  | .resource _ => []
  | l => s.brings l

/-- The bytes of Data that an event brings, in a packet or as a Resource. -/
def arrives : Label → Option Bytes
  | .incoming _ raw _ =>
    match parsePacket raw with
    | .ok (.data _) => some raw
    | _ => none
  | .resource (tag :: inner) => if tag = 0x49 then some inner else none
  | _ => none

/-- The server holds the Data: it can serve it or has sent it, keeps it for a subscriber or is about
to answer with it. -/
def Has [Hashlib] (s : Server) (d : Data) : Prop :=
  s.forwarder.cs.Serves d ∨ (∃ face, (face, .data d) ∈ s.sent) ∨
    (∃ e ∈ s.offlineQueue.items, d ∈ e.2) ∨ ∃ c, Got d c s.forwarder.loop

variable [Hashlib] {s : Server} {l : Label} {d : Data} {K : Policy}

theorem Confined.admits_of_has (h : s.Confined K) (hd : s.Has d) : K.Admits d := by
  rcases hd with hd | ⟨face, hd⟩ | ⟨e, he, hd⟩ | ⟨c, hd⟩
  · exact h.rows.serves hd
  · exact h.sent face d hd
  · exact h.queued e he d hd
  · exact h.held.got c d hd

theorem made_or_arrived (hd : d ∈ s.brings l) :
    d ∈ s.makes l ∨ ∃ raw ∈ arrives l, Data.fromBytes raw = .ok d := by
  cases l with
  | incoming face raw drawn =>
    simp only [brings] at hd
    simp only [makes, arrives]
    cases hp : parsePacket raw with
    | error e => rw [hp] at hd; cases hd
    | ok p =>
      rw [hp] at hd
      cases p with
      | data d' =>
        obtain rfl := List.mem_singleton.mp hd
        exact .inr ⟨raw, rfl, parsePacket_data hp⟩
      | interest i => exact .inl hd
      | _ => cases hd
  | resource payload =>
    obtain hd : resourceData payload = some d := Option.mem_toList.mp hd
    cases payload with
    | nil => cases hd
    | cons tag inner =>
      obtain ⟨htag, hd⟩ := Option.ite_none_right_eq_some.mp hd
      exact .inr ⟨inner, by simp [arrives, htag], toOption_eq_some.mp hd⟩
  | _ => exact .inl hd

end Server

namespace Network

open Server

variable [Hashlib] {ι : Type*} [DecidableEq ι] {N M M' : ι → Server} {e : ι × Label}
  {es : List (ι × Label)}

/-- The Data that arrives was sent by a server of the network, at any time and to any face. -/
def Genuine (N : ι → Server) (e : ι × Label) : Prop :=
  ∀ raw ∈ arrives e.2, ∃ i face d, (face, Packet.data d) ∈ (N i).sent ∧ d.toBytes = .ok raw

/-- A server makes Data of the name, the content and the encrypted flag at a step of the run. -/
def MadeIn (N : ι → Server) (es : List (ι × Label)) : Policy := fun n content encrypted =>
  ∃ e ∈ trace (family Server.step) N es, ∃ d ∈ (e.1 e.2.1.1).makes e.2.1.2,
    d.name.withoutContentHash = n ∧ d.content = content ∧ d.metadata.encrypted = encrypted

omit [DecidableEq ι] in
/-- What an event brings meets a condition of the network if what the server makes of it does. -/
theorem Genuine.brings {K : Policy} (h : ∀ i, (N i).Confined K) (hgenuine : Genuine N e)
    (hmade : ∀ d ∈ (N e.1).makes e.2, K.Admits d) : ∀ d ∈ (N e.1).brings e.2, K.Admits d := by
  intro d hd
  rcases made_or_arrived hd with hd | ⟨raw, hraw, hd⟩
  · exact hmade d hd
  · obtain ⟨j, face, d₀, hsent, hb⟩ := hgenuine raw hraw
    obtain ⟨hname, hcontent, henc⟩ := Data.agrees_of_fromBytes hb hd
    rw [Policy.Admits, hname, hcontent, henc]
    exact (h j).sent face d₀ hsent

theorem confined_step {K : Policy} (h : ∀ i, (N i).Confined K) (hgenuine : Genuine N e)
    (hmade : ∀ d ∈ (N e.1).makes e.2, K.Admits d) (hs : family Server.step N e = some M) (i : ι) :
    (M i).Confined K := by
  obtain ⟨hst, hne⟩ := family_eq_some hs
  by_cases hi : i = e.1
  · subst hi
    exact (h e.1).step (hgenuine.brings h hmade) hst
  · rw [hne i hi]
    exact h i

/-- All content that a server of the network holds was made by one of the servers, under the same
name and with the same encrypted flag. -/
theorem has_made (h₀ : ∀ i, (N i).Initial) (h : Run (family Server.step) Genuine N es M) {i : ι}
    {d : Data} (hd : (M i).Has d) :
    ∃ e ∈ trace (family Server.step) N es, ∃ d₀ ∈ (e.1 e.2.1.1).makes e.2.1.2,
      d₀.name.withoutContentHash = d.name.withoutContentHash ∧ d₀.content = d.content ∧
        d₀.metadata.encrypted = d.metadata.encrypted := by
  have hrun : Run (family Server.step)
      (fun N' e => Genuine N' e ∧ ∀ d ∈ (N' e.1).makes e.2, (MadeIn N es).Admits d) N es M :=
    h.of_trace fun e he => ⟨(h.of_mem_trace he).1, fun d hd => ⟨e, he, d, hd, rfl, rfl, rfl⟩⟩
  have hall : ∀ i, (M i).Confined (MadeIn N es) :=
    hrun.invariant (fun i => (h₀ i).confined) fun _ _ _ hk hok hs => confined_step hk hok.1 hok.2 hs
  exact (hall i).admits_of_has hd

def postNetwork (i : Bool) : Server :=
  if i then publisher else { rnsAddr := List.replicate 16 2 }

def signedPost : Data where
  name := postName
  content := injected.content
  signature := some (List.replicate 64 7)
  metadata := { signedAt := some 0 }

/-- A face subscribes to the posts of the publisher, which pushes one. Two peers introduce
themselves to the other server, and the first hands it the post. -/
def passedOn : List (Bool × Label) :=
  [(true, .openFace),
    (true, .incoming 100 (wireBytes (.subscribe { name := postName })) drawn),
    (true, .publishPushed injected), (false, .openFace), (false, .openFace),
    (false, .incoming 100 (wireBytes (.peer { rnsAddr := List.replicate 16 1 })) drawn),
    (false, .incoming 101 (wireBytes (.peer { rnsAddr := List.replicate 16 3 })) drawn),
    (false, .incoming 100 (wireBytes (.data signedPost)) drawn)]

def deliversOnly (d : Data) (N : Bool → Server) (l : Label) : Bool :=
  (arrives l).all fun raw => raw == wireBytes (.data d) &&
    decide ((100, Packet.data d) ∈ (N true).sent)

def postNetworkAfter (es : List (Bool × Label)) : Bool → Server :=
  letI := Data.paddedHash
  (exec (family Server.step) postNetwork es).getD postNetwork

omit [Hashlib] in
theorem genuine_of_deliversOnly {N : Bool → Server} {e : Bool × Label} {d : Data}
    (hd : d.toBytes = .ok (wireBytes (.data d))) (h : deliversOnly d N e.2 = true) :
    Genuine N e := by
  intro raw hraw
  obtain hraw : arrives e.2 = some raw := hraw
  rw [deliversOnly, hraw, Option.all_some, Bool.and_eq_true, beq_iff_eq, decide_eq_true_iff] at h
  exact ⟨true, 100, d, h.2, h.1 ▸ hd⟩

omit [Hashlib] in
theorem post_made :
    letI := Data.paddedHash
    (101, Packet.data signedPost) ∈ (postNetworkAfter passedOn false).sent ∧
      ∃ e ∈ trace (family Server.step) postNetwork passedOn, ∃ d ∈ (e.1 e.2.1.1).makes e.2.1.2,
        d.name.withoutContentHash = postName ∧ d.content = injected.content ∧
          d.metadata.encrypted = false := by
  let := Data.paddedHash
  have hinitial : ∀ i, (postNetwork i).Initial := by
    intro i
    cases i
    · exact ⟨⟨rfl, fun _ => rfl, rfl, rfl⟩, rfl, rfl, rfl, rfl, rfl, rfl⟩
    · exact publisher_initial
  have hrun : Run (family Server.step) Genuine postNetwork passedOn (postNetworkAfter passedOn) :=
    run_of_exec_check (fun N e => deliversOnly signedPost N e.2)
      (fun _ _ => genuine_of_deliversOnly rfl) rfl rfl
  have hsent : (101, Packet.data signedPost) ∈ (postNetworkAfter passedOn false).sent := by decide
  exact ⟨hsent, has_made hinitial hrun (.inr (.inl ⟨101, hsent⟩))⟩

end Network

end RnsIcn
