import RnsIcn.Wire.Parse

/-! # Discovery names

Labels that begin with a zero byte are reserved. A collection prefix carries its
latest-version pointer under one of them, with the pinned target name as payload.
-/

namespace RnsIcn.Discovery

def META_LABEL : Bytes := [0x00, 0x6d]

def CATALOG_LABEL : Bytes := [0x00, 0x63]

def META_FMT : UInt8 := 0x01

def metaName (collection : Name) : Except PyError Name :=
  Name.new collection.rnsAddr (collection.path ++ [META_LABEL])

def catalogName (collection : Name) : Except PyError Name :=
  Name.new collection.rnsAddr (collection.path ++ [CATALOG_LABEL])

def isReserved (n : Name) : Bool :=
  match n.path.getLastD n.rnsAddr with
  | [] => false
  | b :: _ => b == 0x00

def encodeMeta (target : Name) : Except PyError Bytes := do
  return META_FMT :: (← target.toBytes)

def decodeMeta : Bytes → Except PyError Name
  | [] => .error (.discoveryError "unrecognized meta payload format")
  | fmt :: payload =>
    if fmt ≠ META_FMT then .error (.discoveryError "unrecognized meta payload format")
    else match Name.fromBytes payload with
      | .ok n => .ok n
      | .error e => .error (.discoveryError ("invalid meta target name: " ++ e.text))

end RnsIcn.Discovery
