import RnsIcn.Content.Manifest
import RnsIcn.Lib.Grouping
import RnsIcn.Server.Core

/-! # The aggregated directory

A server lists the content of its downstream peers with its own, under labels that begin
with a part of the address of the peer. The flat view of such a manifest keeps one entry
for each label.
-/

namespace RnsIcn

open Fallible Grouping

/-- `f"peer:{peer_addr.hex()[:8]}/{label}"` -/
def peerLabel (addr : Bytes) (label : String) : String :=
  String.ofList ("peer:".toList ++ (Name.hex addr).toList.take 8 ++ '/' :: label.toList)

namespace Manifest

/-- The entries that are not references to other manifests. -/
def content (m : Manifest) : List ManifestEntry := m.entries.filter fun e => e.kind ≠ .manifest

def create (producer : Bytes) (entries : List ManifestEntry) (now : ℤ) : Manifest :=
  { producer, sequence := 1, timestamp := now, entries }

/-- What `_build_manifest_data` adds for a downstream peer: a reference to its manifest and copies
of its entries. -/
def peerEntries (addr : Bytes) (m : Manifest) : Except PyError (List ManifestEntry) := do
  let name ← Name.new addr [MANIFEST_LABEL]
  let label := String.ofList ("_peer:".toList ++ (Name.hex addr).toList.take 12)
  return { kind := .manifest, label, name } ::
    m.content.map fun e => { e with label := peerLabel addr e.label }

/-- The manifest of `_build_manifest_data`, from the own entries and what the downstream peers
answered. -/
def aggregate (producer : Bytes) (own : List ManifestEntry) (downstream : Dict Bytes Manifest)
    (now : ℤ) : Except PyError Manifest := do
  let peers ← downstream.items.mapM fun (addr, m) => peerEntries addr m
  return create producer (own ++ peers.flatten) now

/-- The loop of `flatten_content_directory`. -/
def flattenFrom (seenLabels : List String) : List ManifestEntry → List ManifestEntry
  | [] => []
  | e :: es =>
    if e.kind ≠ .manifest ∧ e.label ∉ seenLabels then e :: flattenFrom (e.label :: seenLabels) es
    else flattenFrom seenLabels es

def flattenContentDirectory (m : Manifest) : List ManifestEntry := flattenFrom [] m.entries

end Manifest

def ManifestEntry.unlabelled (e : ManifestEntry) : ManifestEntry := { e with label := "" }

namespace Manifest

variable {own : List ManifestEntry} {downstream : Dict Bytes Manifest} {producer : Bytes} {now : ℤ}

theorem flattenFrom_eq_firsts (seenLabels : List String) (es : List ManifestEntry) :
    flattenFrom seenLabels es =
      firsts ManifestEntry.label seenLabels (es.filter fun e => e.kind ≠ .manifest) := by
  induction es generalizing seenLabels with
  | nil => rfl
  | cons e es ih =>
    unfold flattenFrom
    by_cases hk : e.kind = .manifest
    · rw [if_neg (by simp [hk]), ih, List.filter_cons_of_neg (by simp [hk])]
    · rw [List.filter_cons_of_pos (by simp [hk]), firsts]
      by_cases hl : e.label ∈ seenLabels
      · rw [if_neg (by simp [hl]), if_pos hl, ih]
      · rw [if_pos ⟨hk, hl⟩, if_neg hl, ih]

theorem take_hex (addr : Bytes) :
    (Name.hex addr).toList.take 8 = (Name.hex (addr.take 4)).toList := by
  rw [toList_hex, toList_hex]
  match addr with
  | [] | [_] | [_, _] | [_, _, _] => rfl
  | _ :: _ :: _ :: _ :: _ => rfl

theorem hex_injective {a b : Bytes} (h : (Name.hex a).toList = (Name.hex b).toList) : a = b := by
  have hread := fromHex_hex a
  rw [h, fromHex_hex] at hread
  exact (Option.some.inj hread).symm

theorem length_hex (b : Bytes) : (Name.hex b).toList.length = 2 * b.length := by
  rw [toList_hex, List.length_flatMap]
  simp [hexPair, Nat.mul_comm]

/-- Labels of peers agree if the peers agree in four bytes of their addresses. -/
theorem peerLabel_eq_iff {a b : Bytes} {x y : String} (ha : a.length = RNS_ADDR_BYTES)
    (hb : b.length = RNS_ADDR_BYTES) :
    peerLabel a x = peerLabel b y ↔ a.take 4 = b.take 4 ∧ x = y := by
  have hlen {c : Bytes} (hc : c.length = RNS_ADDR_BYTES) :
      ((Name.hex c).toList.take 8).length = 8 := by
    rw [List.length_take, length_hex, hc]
    rfl
  unfold peerLabel
  constructor
  · intro h
    have hchars := String.ofList_inj.mp h
    rw [List.append_assoc, List.append_assoc] at hchars
    obtain ⟨haddr, hlabel⟩ :=
      List.append_inj (List.append_cancel_left hchars) ((hlen ha).trans (hlen hb).symm)
    rw [take_hex, take_hex] at haddr
    exact ⟨hex_injective haddr, String.toList_inj.mp (List.cons.inj hlabel).2⟩
  · rintro ⟨haddr, rfl⟩
    rw [take_hex, take_hex, haddr]

/-- The own entries and those of the downstream peers that are not references to manifests. -/
def sources (own : List ManifestEntry) (downstream : Dict Bytes Manifest) : List ManifestEntry :=
  own ++ downstream.items.flatMap fun p => p.2.content

/-- No own entry is a reference, and no two of the labels that the entries get are the same. -/
structure Separate (own : List ManifestEntry) (downstream : Dict Bytes Manifest) : Prop where
  kind : ∀ e ∈ own, e.kind ≠ .manifest
  peers : ∀ p ∈ downstream.items, ∀ q ∈ downstream.items, p.1 ≠ q.1 →
    p.1.take 4 = q.1.take 4 → ∀ e ∈ p.2.content, ∀ f ∈ q.2.content, e.label ≠ f.label
  apart : ∀ e ∈ own, ∀ p ∈ downstream.items, ∀ f ∈ p.2.content, e.label ≠ peerLabel p.1 f.label

/-- The flat view of the manifest has exactly one entry for each source, the same but for its
label. -/
def Complete (producer : Bytes) (own : List ManifestEntry) (downstream : Dict Bytes Manifest)
    (now : ℤ) : Prop :=
  ∃ m, aggregate producer own downstream now = .ok m ∧
    ((flattenContentDirectory m).map ManifestEntry.unlabelled).Perm
      ((sources own downstream).map ManifestEntry.unlabelled)

/-- The copies that the manifest holds of the entries of its peers. -/
def copies (downstream : Dict Bytes Manifest) : List ManifestEntry :=
  downstream.items.flatMap fun p => p.2.content.map fun e : ManifestEntry =>
    { e with label := peerLabel p.1 e.label }

def reference (addr : Bytes) : ManifestEntry where
  kind := .manifest
  label := String.ofList ("_peer:".toList ++ (Name.hex addr).toList.take 12)
  name := ⟨addr, [MANIFEST_LABEL], none⟩

theorem peerEntries_eq_ok {addr : Bytes} (haddr : addr.length = RNS_ADDR_BYTES) (m : Manifest) :
    peerEntries addr m = .ok (reference addr ::
      m.content.map fun e => { e with label := peerLabel addr e.label }) := by
  unfold peerEntries
  rw [Name.new, if_neg (not_not.mpr haddr)]
  rfl

theorem eq_of_peerEntries {addr : Bytes} {m : Manifest} {es : List ManifestEntry}
    (h : peerEntries addr m = .ok es) : es = reference addr ::
      m.content.map fun e => { e with label := peerLabel addr e.label } := by
  have haddr : addr.length = RNS_ADDR_BYTES := by
    by_contra hlen
    unfold peerEntries at h
    rw [Name.new, if_pos hlen] at h
    cases h
  exact ok_inj h (peerEntries_eq_ok haddr m)

theorem exists_label_aggregate {m : Manifest} {label : String}
    (h : aggregate producer own downstream now = .ok m) :
    (∃ e ∈ m.entries, e.label = label) ↔ (∃ e ∈ own, e.label = label) ∨
      ∃ p ∈ downstream.items, (reference p.1).label = label ∨
        ∃ e ∈ p.2.content, peerLabel p.1 e.label = label := by
  unfold aggregate at h
  simp only [bind_eq_ok, pure_eq_ok] at h
  obtain ⟨parts, hparts, rfl⟩ := h
  have hlabel (p : Bytes × Manifest) {es : List ManifestEntry}
      (hes : peerEntries p.1 p.2 = .ok es) :
      (∃ e ∈ es, e.label = label) ↔ (reference p.1).label = label ∨
        ∃ e ∈ p.2.content, peerLabel p.1 e.label = label := by
    rw [eq_of_peerEntries hes]
    simp
  unfold create
  simp only [List.mem_append, List.mem_flatten, or_and_right, exists_or]
  refine or_congr_right ?_
  constructor
  · rintro ⟨e, ⟨es, hes, he⟩, hl⟩
    obtain ⟨p, hp, hok⟩ := mem_of_mapM_eq_ok hparts hes
    exact ⟨p, hp, (hlabel p hok).mp ⟨e, he, hl⟩⟩
  · rintro ⟨p, hp, hl⟩
    obtain ⟨es, hok⟩ := isOk_of_mapM_eq_ok hparts hp
    obtain ⟨e, he, hl⟩ := (hlabel p hok).mpr hl
    exact ⟨e, ⟨es, mem_results_of_mapM_eq_ok hparts hp hok, he⟩, hl⟩

theorem aggregate_isOk (haddr : ∀ addr ∈ downstream.keys, addr.length = RNS_ADDR_BYTES) :
    ∃ m, aggregate producer own downstream now = .ok m ∧
      m.entries.filter (fun e => e.kind ≠ .manifest) =
        own.filter (fun e => e.kind ≠ .manifest) ++ copies downstream := by
  have hparts := mapM_map_eq_ok (w := id) (f := fun p : Bytes × Manifest => peerEntries p.1 p.2)
    (l := downstream.items) fun p hp => peerEntries_eq_ok (haddr p.1 (List.mem_map_of_mem hp)) p.2
  rw [List.map_id] at hparts
  refine ⟨_, by rw [aggregate, hparts]; rfl, ?_⟩
  unfold create copies
  rw [List.filter_append, List.flatten_eq_flatMap, List.flatMap_map, List.filter_flatMap]
  congr 1
  refine List.flatMap_congr fun p _ => ?_
  rw [id, List.filter_cons_of_neg (by simp [reference]), List.filter_eq_self]
  intro e he
  obtain ⟨e', he', rfl⟩ := List.mem_map.mp he
  exact (List.mem_filter.mp he').2

theorem map_unlabelled_copies :
    (copies downstream).map ManifestEntry.unlabelled =
      (downstream.items.flatMap fun p => p.2.content).map ManifestEntry.unlabelled := by
  unfold copies
  rw [List.map_flatMap, List.map_flatMap]
  refine List.flatMap_congr fun p _ => ?_
  rw [List.map_map]
  rfl

theorem mem_labels_copies {x : String} :
    x ∈ (copies downstream).map ManifestEntry.label ↔
      ∃ p ∈ downstream.items, ∃ e ∈ p.2.content, x = peerLabel p.1 e.label := by
  unfold copies
  simp only [List.mem_map, List.mem_flatMap]
  constructor
  · rintro ⟨_, ⟨p, hp, e, he, rfl⟩, rfl⟩
    exact ⟨p, hp, e, he, rfl⟩
  · rintro ⟨p, hp, e, he, rfl⟩
    exact ⟨_, ⟨p, hp, e, he, rfl⟩, rfl⟩

theorem nodup_labels_copies_iff
    (hpeers : ∀ p ∈ downstream.items, (p.2.entries.map ManifestEntry.label).Nodup)
    (haddr : ∀ addr ∈ downstream.keys, addr.length = RNS_ADDR_BYTES) :
    ((copies downstream).map ManifestEntry.label).Nodup ↔
      ∀ p ∈ downstream.items, ∀ q ∈ downstream.items, p.1 ≠ q.1 →
        p.1.take 4 = q.1.take 4 → ∀ e ∈ p.2.content, ∀ f ∈ q.2.content, e.label ≠ f.label := by
  have hwidth {p : Bytes × Manifest} (hp : p ∈ downstream.items) :=
    haddr p.1 (List.mem_map_of_mem hp)
  have hlabels : (copies downstream).map ManifestEntry.label =
      downstream.items.flatMap fun p =>
        (p.2.content.map ManifestEntry.label).map (peerLabel p.1) := by
    unfold copies
    rw [List.map_flatMap]
    refine List.flatMap_congr fun p _ => ?_
    rw [List.map_map, List.map_map]
    rfl
  have heach : ∀ p ∈ downstream.items,
      ((p.2.content.map ManifestEntry.label).map (peerLabel p.1)).Nodup := by
    intro p hp
    refine List.Nodup.map_on (fun x _ y _ h => ?_)
      ((hpeers p hp).sublist (List.filter_sublist.map _))
    exact ((peerLabel_eq_iff (hwidth hp) (hwidth hp)).mp h).2
  rw [hlabels, List.nodup_flatMap, and_iff_right heach]
  constructor
  · intro h p hp q hq hne htake e he f hf heq
    have : Std.Symm (Function.onFun List.Disjoint fun p : Bytes × Manifest =>
        (p.2.content.map ManifestEntry.label).map (peerLabel p.1)) := ⟨fun _ _ h => h.symm⟩
    have hdisjoint := h.forall hp hq fun hpq => hne (congrArg Prod.fst hpq)
    have hmem := List.mem_map_of_mem (f := peerLabel p.1)
      (List.mem_map_of_mem (f := ManifestEntry.label) he)
    refine hdisjoint hmem (List.mem_map.mpr ⟨f.label, List.mem_map_of_mem hf, ?_⟩)
    exact (peerLabel_eq_iff (hwidth hq) (hwidth hp)).mpr ⟨htake.symm, heq.symm⟩
  · intro h
    refine downstream.nodup.of_map.pairwise_of_forall_ne fun p hp q hq hne x hx hy => ?_
    obtain ⟨y, hy', rfl⟩ := List.mem_map.mp hx
    obtain ⟨e, he, rfl⟩ := List.mem_map.mp hy'
    obtain ⟨z, hz, hz'⟩ := List.mem_map.mp hy
    obtain ⟨f, hf, rfl⟩ := List.mem_map.mp hz
    obtain ⟨htake, hlabel⟩ := (peerLabel_eq_iff (hwidth hq) (hwidth hp)).mp hz'
    refine h p hp q hq (fun hkey => hne ?_) htake.symm e he f hf hlabel.symm
    exact Dict.item_eq_of_key_eq hp hq hkey

theorem nodup_labels_iff (hown : (own.map ManifestEntry.label).Nodup)
    (hpeers : ∀ p ∈ downstream.items, (p.2.entries.map ManifestEntry.label).Nodup)
    (haddr : ∀ addr ∈ downstream.keys, addr.length = RNS_ADDR_BYTES)
    (hkind : ∀ e ∈ own, e.kind ≠ .manifest) :
    ((own ++ copies downstream).map ManifestEntry.label).Nodup ↔ Separate own downstream := by
  rw [List.map_append, List.nodup_append, nodup_labels_copies_iff hpeers haddr]
  constructor
  · rintro ⟨-, hcopies, hapart⟩
    refine ⟨hkind, hcopies, fun e he p hp f hf => ?_⟩
    exact hapart _ (List.mem_map_of_mem he) _ (mem_labels_copies.mpr ⟨p, hp, f, hf, rfl⟩)
  · intro h
    refine ⟨hown, h.peers, fun x hx y hy => ?_⟩
    obtain ⟨e, he, rfl⟩ := List.mem_map.mp hx
    obtain ⟨p, hp, f, hf, rfl⟩ := mem_labels_copies.mp hy
    exact h.apart e he p hp f hf

/-- The flat view has an entry for each source exactly if the sources are separate. -/
theorem directory_complete_iff (hown : (own.map ManifestEntry.label).Nodup)
    (hpeers : ∀ p ∈ downstream.items, (p.2.entries.map ManifestEntry.label).Nodup)
    (haddr : ∀ addr ∈ downstream.keys, addr.length = RNS_ADDR_BYTES) :
    Complete producer own downstream now ↔ Separate own downstream := by
  obtain ⟨m, hm, hfilter⟩ := @aggregate_isOk own downstream producer now haddr
  have hflat : flattenContentDirectory m =
      firsts ManifestEntry.label []
        (own.filter (fun e => e.kind ≠ .manifest) ++ copies downstream) := by
    rw [← hfilter]
    exact flattenFrom_eq_firsts [] m.entries
  have hsources : ((sources own downstream).map ManifestEntry.unlabelled) =
      (own ++ copies downstream).map ManifestEntry.unlabelled := by
    unfold sources
    rw [List.map_append, List.map_append, map_unlabelled_copies]
  constructor
  · rintro ⟨m', hm', hperm⟩
    obtain rfl := ok_inj hm hm'
    have hlen := hperm.length_eq
    rw [hsources, List.length_map, List.length_map, hflat, List.length_append] at hlen
    have hsub : (firsts ManifestEntry.label []
        (own.filter (fun e => e.kind ≠ .manifest) ++ copies downstream)).Sublist
        (own.filter (fun e => e.kind ≠ .manifest) ++ copies downstream) := firsts_sublist [] _
    have hfirsts := hsub.length_le
    have hown' := List.length_filter_le (fun e : ManifestEntry => decide (e.kind ≠ .manifest)) own
    rw [List.length_append] at hfirsts
    have hkind : ∀ e ∈ own, e.kind ≠ .manifest := by
      have hall := List.length_filter_eq_length_iff.mp (show
        (own.filter fun e : ManifestEntry => decide (e.kind ≠ .manifest)).length = own.length by
          omega)
      exact fun e he => of_decide_eq_true (hall e he)
    rw [← nodup_labels_iff hown hpeers haddr hkind, ← length_firsts_eq_iff]
    rw [List.filter_eq_self.mpr fun e he => decide_eq_true (hkind e he)] at hlen
    rw [hlen, List.length_append]
  · intro h
    refine ⟨m, hm, ?_⟩
    have hnodup := (nodup_labels_iff hown hpeers haddr h.kind).mpr h
    rw [hsources, hflat, List.filter_eq_self.mpr fun e he => decide_eq_true (h.kind e he),
      firsts_eq_self_iff.mpr ⟨hnodup, fun _ _ => List.not_mem_nil⟩]

def single (producer : Bytes) : Manifest where
  producer
  sequence := 1
  timestamp := 0
  entries := [{ kind := .blob, label := "readme", name := ⟨producer, [[0x72]], none⟩ }]

def pair (a b : Bytes) : Dict Bytes Manifest := (Dict.empty.set a (single a)).set b (single b)

theorem strangers_complete :
    Complete (List.replicate 16 9) [] (pair (List.replicate 16 1) (List.replicate 16 2)) 0 :=
  (directory_complete_iff (by decide) (by decide) (by decide)).mpr
    ⟨by decide, by decide +kernel, by decide⟩

/-- Of two peers that agree in four bytes of their addresses one loses its entry. -/
theorem kin_incomplete :
    ¬ Complete (List.replicate 16 9) []
      (pair (List.replicate 16 1) (List.replicate 4 1 ++ List.replicate 12 2)) 0 := by
  rintro ⟨m, hm, hperm⟩
  have hone : (aggregate (List.replicate 16 9) []
      (pair (List.replicate 16 1) (List.replicate 4 1 ++ List.replicate 12 2)) 0).toOption.map
        (fun m => (flattenContentDirectory m).length) = some 1 := by
    decide +kernel
  rw [hm] at hone
  have hlen := hperm.length_eq
  have hflat : (flattenContentDirectory m).length = 1 := Option.some.inj hone
  rw [List.length_map, hflat] at hlen
  exact absurd hlen (by decide)

end Manifest

end RnsIcn
