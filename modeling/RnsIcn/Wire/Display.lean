import RnsIcn.Wire.Name

/-! # Reading the display form of names

A name is shown as `/<address in hex>/<label>/…?hash=<pin in hex>`, with the text of
each label that is UTF-8. `bytes.fromhex` reads the hex parts back: it takes digits of
either case in pairs and skips white space between the pairs.
-/

namespace RnsIcn

/-- `Py_ISSPACE` -/
def isHexSpace (c : Char) : Bool :=
  c = ' ' || ('\t' ≤ c && c ≤ '\r')

def hexValue (c : Char) : Option ℕ :=
  if '0' ≤ c ∧ c ≤ '9' then some (c.toNat - 48)
  else if 'a' ≤ c ∧ c ≤ 'f' then some (c.toNat - 87)
  else if 'A' ≤ c ∧ c ≤ 'F' then some (c.toNat - 55)
  else none

def fromHex : List Char → Option Bytes
  | [] => some []
  | [c] => if isHexSpace c then some [] else none
  | c :: d :: cs =>
    if isHexSpace c then fromHex (d :: cs)
    else do
      let high ← hexValue c
      let low ← hexValue d
      return UInt8.ofNat (16 * high + low) :: (← fromHex cs)

def readHex (cs : List Char) : Except PyError Bytes :=
  match fromHex cs with
  | some b => .ok b
  | none => .error (.valueError "non-hexadecimal number found in fromhex() arg")

def encodeUtf8 (s : String) : Bytes := s.toByteArray.data.toList

def HASH_MARK : List Char := ['?', 'h', 'a', 's', 'h', '=']

def splitHash : List Char → Option (List Char × List Char)
  | [] => none
  | c :: cs =>
    if HASH_MARK <+: c :: cs then some ([], (c :: cs).drop HASH_MARK.length)
    else (splitHash cs).map fun (before, after) => (c :: before, after)

namespace Name

open Fallible

/-- The loop of `Name.from_string` over the labels. -/
def readLabels (rnsAddr : Bytes) (path : List Bytes) : List (List Char) → Except PyError Name
  | [] => new rnsAddr path
  | p :: ps =>
    match splitHash p with
    | some (comp, hashStr) => do
      let contentHash ← readHex hashStr
      new rnsAddr (path ++ [encodeUtf8 (String.ofList comp)]) (some contentHash)
    | none => readLabels rnsAddr (path ++ [encodeUtf8 (String.ofList p)]) ps

def fromString (s : String) : Except PyError Name :=
  match s.toList with
  | '/' :: rest =>
    match rest.splitOn '/' with
    | [] => .error (.nameError "Invalid name format")
    | addr :: labels =>
      match fromHex addr with
      | none => .error (.nameError ("Invalid RNS address hex: " ++ String.ofList addr))
      | some rnsAddr => readLabels rnsAddr [] labels
  | _ => .error (.nameError "Name string must start with /")

end Name

theorem hexValue_hexDigit : ∀ d < 16, hexValue (Name.hexDigit d) = some d := by decide

theorem isHexSpace_hexDigit : ∀ d < 16, isHexSpace (Name.hexDigit d) = false := by decide

def hexPair (b : UInt8) : List Char := [Name.hexDigit (b.toNat / 16), Name.hexDigit b.toNat]

theorem toList_hex (b : Bytes) : (Name.hex b).toList = b.flatMap hexPair :=
  String.toList_ofList

theorem hexDigit_mod (d : ℕ) : Name.hexDigit d = Name.hexDigit (d % 16) := by
  unfold Name.hexDigit
  rw [Nat.mod_mod]

theorem fromHex_hex (b : Bytes) : fromHex (Name.hex b).toList = some b := by
  rw [toList_hex]
  induction b with
  | nil => rfl
  | cons x b ih =>
    have hx := x.toNat_lt
    have hhigh : x.toNat / 16 < 16 := by omega
    have hlow : x.toNat % 16 < 16 := Nat.mod_lt _ (by decide)
    have hbyte : UInt8.ofNat (16 * (x.toNat / 16) + x.toNat % 16) = x := by
      rw [Nat.div_add_mod, UInt8.ofNat_toNat]
    rw [List.flatMap_cons, hexPair, hexDigit_mod x.toNat, List.cons_append, List.cons_append,
      List.nil_append, fromHex, isHexSpace_hexDigit _ hhigh, if_neg Bool.false_ne_true,
      hexValue_hexDigit _ hhigh, hexValue_hexDigit _ hlow, ih]
    exact congrArg some (congrArg (· :: b) hbyte)

theorem length_fromHex {cs : List Char} {b : Bytes} (h : fromHex cs = some b) :
    2 * b.length ≤ cs.length := by
  induction cs using fromHex.induct generalizing b with
  | case1 =>
    obtain rfl := Option.some.inj h
    rfl
  | case2 c hc =>
    rw [fromHex, if_pos hc] at h
    obtain rfl := Option.some.inj h
    exact Nat.zero_le _
  | case3 c hc =>
    rw [fromHex, if_neg hc] at h
    cases h
  | case4 c d cs hc ih =>
    rw [fromHex, if_pos hc] at h
    exact (ih h).trans (Nat.le_succ _)
  | case5 c d cs hc ih =>
    rw [fromHex, if_neg hc] at h
    obtain ⟨high, -, h⟩ := Option.bind_eq_some_iff.mp h
    obtain ⟨low, -, h⟩ := Option.bind_eq_some_iff.mp h
    obtain ⟨rest, hrest, h⟩ := Option.bind_eq_some_iff.mp h
    obtain rfl := Option.some.inj h
    have := ih hrest
    simp only [List.length_cons]
    omega

end RnsIcn
